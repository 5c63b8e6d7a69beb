import RaftLabs.Basis.Transition
import Mathlib.Data.List.Sort

/-! The configuration state machine of the shard controller. A Go map is a list of its entries, and
each loop over a map goes through them in an order of its own. -/
namespace RaftLabs.Shardctrler

abbrev nShards : ℕ := 10

/-- The entries of a map, with distinct keys. -/
abbrev GoMap (V : Type) := List (ℤ × V)

namespace GoMap

variable {V : Type}

/-- `m[k]` of a map of slices: a missing key reads as the empty slice. -/
def slice (m : GoMap (List V)) (k : ℤ) : List V := (m.lookup k).getD []

/-- `m[k] = v` -/
def set : GoMap V → ℤ → V → GoMap V
  | [], k, v => [(k, v)]
  | (k', v') :: m, k, v => if k' = k then (k, v) :: m else (k', v') :: set m k v

/-- `delete(m, k)` -/
def delete (m : GoMap V) (k : ℤ) : GoMap V := m.filter fun e => e.1 ≠ k

end GoMap

structure Config where
  num : ℕ
  shards : Fin nShards → ℤ
  groups : GoMap (List String)
  deriving DecidableEq

def defaultConfig : Config := ⟨0, fun _ => 0, []⟩

structure MemoryConfigStateMachine where
  configs : List Config
  deriving DecidableEq

/-- The order in which the runtime enumerates a map in each loop of a command; the loops of a
command are numbered. -/
structure Enumeration where
  order : {V : Type} → ℕ → GoMap V → GoMap V
  perm : ∀ {V : Type} (n : ℕ) (m : GoMap V), (order n m).Perm m

/-- Every map is enumerated as its list stands. -/
def Enumeration.forward : Enumeration := ⟨fun _ m => m, fun _ m => .refl m⟩

section Loops
variable (e : Enumeration)

def dcopyWith (groups : GoMap (List String)) : GoMap (List String) :=
  (e.order 0 groups).foldl (fun newGroups entry => newGroups.set entry.1 entry.2) []

/-- The loop of `Join` over its argument. -/
def joinGroupsWith (groups newGroups : GoMap (List String)) : GoMap (List String) :=
  (e.order 1 groups).foldl
    (fun gs entry => if (gs.lookup entry.1).isNone then gs.set entry.1 entry.2 else gs) newGroups

def groupToShardsWith (cf : Config) : GoMap (List (Fin nShards)) :=
  (List.finRange nShards).foldl
    (fun g2s shard => g2s.set (cf.shards shard) (g2s.slice (cf.shards shard) ++ [shard]))
    ((e.order 2 cf.groups).map fun entry => (entry.1, []))

/-- The assignment written from the groups in the order of the map. -/
def newShardsWith (g2s : GoMap (List (Fin nShards))) : Fin nShards → ℤ :=
  (e.order 3 g2s).foldl (fun shards entry =>
    entry.2.foldl (fun shards shard => Function.update shards shard entry.1) shards) fun _ => 0

def sortedKeysWith (n : ℕ) (g2s : GoMap (List (Fin nShards))) : List ℤ :=
  ((e.order n g2s).map Prod.fst).insertionSort (· ≤ ·)

/-- The loop starts from `(-1, -1)` as `(index, max)`. -/
def getGidWithMaxShardsWith (n : ℕ) (g2s : GoMap (List (Fin nShards))) : ℤ :=
  if 0 < (g2s.slice 0).length then 0
  else
    ((sortedKeysWith e n g2s).foldl
      (fun best gid =>
        if best.2 < ((g2s.slice gid).length : ℤ) then (gid, ((g2s.slice gid).length : ℤ)) else best)
      ((-1 : ℤ), (-1 : ℤ))).1

/-- The loop starts from `(-1, NShards + 1)` as `(index, min)` and passes over group 0. -/
def getGidWithMinShardsWith (n : ℕ) (g2s : GoMap (List (Fin nShards))) : ℤ :=
  ((sortedKeysWith e n g2s).foldl
    (fun best gid =>
      if gid ≠ 0 ∧ (g2s.slice gid).length < best.2 then (gid, (g2s.slice gid).length) else best)
    ((-1 : ℤ), nShards + 1)).1

/-- The rebalancing loop of `Join`: one shard at a time goes from the largest group to the
smallest. It gives `none` when the fuel runs out or an empty slice is indexed. Each round collects
the keys twice, in loops of its own. -/
def rebalanceWith : ℕ → GoMap (List (Fin nShards)) → Option (GoMap (List (Fin nShards)))
  | 0, _ => none
  | fuel + 1, g2s =>
    let source := getGidWithMaxShardsWith e (2 * fuel + 4) g2s
    let target := getGidWithMinShardsWith e (2 * fuel + 5) g2s
    if source ≠ 0 ∧ ((g2s.slice source).length : ℤ) - (g2s.slice target).length ≤ 1 then some g2s
    else
      match g2s.slice source with
      | [] => none
      | shard :: _ =>
        let g2s := g2s.set target (g2s.slice target ++ [shard])
        rebalanceWith fuel (g2s.set source ((g2s.slice source).drop 1))

/-- The loop of `Leave` over the orphans. -/
def adoptAllWith : List (Fin nShards) → GoMap (List (Fin nShards)) → GoMap (List (Fin nShards))
  | [], g2s => g2s
  | shard :: rest, g2s =>
    let target := getGidWithMinShardsWith e (rest.length + 4) g2s
    adoptAllWith rest (g2s.set target (g2s.slice target ++ [shard]))

end Loops

/-! The same loops over the lists as they stand. -/

def groupToShards (cf : Config) : GoMap (List (Fin nShards)) := groupToShardsWith .forward cf

def newShards (g2s : GoMap (List (Fin nShards))) : Fin nShards → ℤ := newShardsWith .forward g2s

def sortedKeys (g2s : GoMap (List (Fin nShards))) : List ℤ := sortedKeysWith .forward 0 g2s

def getGidWithMaxShards (g2s : GoMap (List (Fin nShards))) : ℤ :=
  getGidWithMaxShardsWith .forward 0 g2s

def getGidWithMinShards (g2s : GoMap (List (Fin nShards))) : ℤ :=
  getGidWithMinShardsWith .forward 0 g2s

def rebalance (fuel : ℕ) (g2s : GoMap (List (Fin nShards))) :
    Option (GoMap (List (Fin nShards))) := rebalanceWith .forward fuel g2s

def adoptAll (orphanShards : List (Fin nShards)) (g2s : GoMap (List (Fin nShards))) :
    GoMap (List (Fin nShards)) := adoptAllWith .forward orphanShards g2s

namespace MemoryConfigStateMachine

/-- `NewMemoryConfigStateMachine` -/
def new : MemoryConfigStateMachine := ⟨[defaultConfig]⟩

/-- `cf.Configs[len(cf.Configs)-1]`; the list is never empty. -/
def lastConfig (cf : MemoryConfigStateMachine) : Config := cf.configs.getLastD defaultConfig

def push (cf : MemoryConfigStateMachine) (shards : Fin nShards → ℤ)
    (groups : GoMap (List String)) : MemoryConfigStateMachine :=
  ⟨cf.configs ++ [⟨cf.configs.length, shards, groups⟩]⟩

section Commands
variable (e : Enumeration) (cf : MemoryConfigStateMachine)

/-- `newConfig` of `Join` when its rebalancing starts. -/
def joinedConfigWith (groups : GoMap (List String)) : Config :=
  ⟨cf.configs.length, cf.lastConfig.shards,
    joinGroupsWith e groups (dcopyWith e cf.lastConfig.groups)⟩

/-- The loop ends within a number of rounds that depends on `NShards` only: ten take shards
from group 0, and each of the others brings the sizes of the groups closer together. -/
def joinWith (groups : GoMap (List String)) : Option MemoryConfigStateMachine := do
  let newConfig := joinedConfigWith e cf groups
  let g2s ← rebalanceWith e (nShards * nShards) (groupToShardsWith e newConfig)
  some (cf.push (newShardsWith e g2s) newConfig.groups)

def leaveWith (gids : List ℤ) : MemoryConfigStateMachine :=
  let newConfig : Config :=
    ⟨cf.configs.length, cf.lastConfig.shards, dcopyWith e cf.lastConfig.groups⟩
  let newGroups := gids.foldl GoMap.delete newConfig.groups
  let (g2s, orphanShards) := gids.foldl
    (fun acc gid => (acc.1.delete gid, acc.2 ++ acc.1.slice gid))
    (groupToShardsWith e newConfig, [])
  if newGroups ≠ [] then cf.push (newShardsWith e (adoptAllWith e orphanShards g2s)) newGroups
  else cf.push (fun _ => 0) newGroups

def moveWith (shard : Fin nShards) (gid : ℤ) : MemoryConfigStateMachine :=
  cf.push (Function.update cf.lastConfig.shards shard gid) (dcopyWith e cf.lastConfig.groups)

end Commands

def joinedConfig (cf : MemoryConfigStateMachine) (groups : GoMap (List String)) : Config :=
  cf.joinedConfigWith .forward groups

def join (cf : MemoryConfigStateMachine) (groups : GoMap (List String)) :
    Option MemoryConfigStateMachine := cf.joinWith .forward groups

def leave (cf : MemoryConfigStateMachine) (gids : List ℤ) : MemoryConfigStateMachine :=
  cf.leaveWith .forward gids

def move (cf : MemoryConfigStateMachine) (shard : Fin nShards) (gid : ℤ) :
    MemoryConfigStateMachine := cf.moveWith .forward shard gid

/-- A number outside the list asks for the last configuration. -/
def query (cf : MemoryConfigStateMachine) (num : ℤ) : Config :=
  if num < 0 ∨ (cf.configs.length : ℤ) ≤ num then cf.lastConfig
  else cf.configs.getD num.toNat cf.lastConfig

end MemoryConfigStateMachine

/-- The commands that change the configuration. -/
inductive Op where
  | join (groups : GoMap (List String))
  | leave (gids : List ℤ)
  | move (shard : Fin nShards) (gid : ℤ)

/-- `applyLogToStateMachine` on a command other than a query. -/
def MemoryConfigStateMachine.applyWith (e : Enumeration) (cf : MemoryConfigStateMachine) :
    Op → Option MemoryConfigStateMachine
  | .join groups => cf.joinWith e groups
  | .leave gids => some (cf.leaveWith e gids)
  | .move shard gid => some (cf.moveWith e shard gid)

def MemoryConfigStateMachine.apply (cf : MemoryConfigStateMachine) (op : Op) :
    Option MemoryConfigStateMachine := cf.applyWith .forward op

/-- The configurations that a list of commands produces from the start. -/
def produced (ops : List Op) : Option MemoryConfigStateMachine :=
  ops.foldlM (fun cf op => cf.apply op) .new

namespace MemoryConfigStateMachine

variable {cf cf' : MemoryConfigStateMachine}

/-- Every configuration has its position as number, and the first is the default one. -/
structure Numbered (cf : MemoryConfigStateMachine) : Prop where
  num : ∀ {n : ℕ} {c : Config}, cf.configs[n]? = some c → c.num = n
  zero : cf.configs[0]? = some defaultConfig

theorem new_numbered : new.Numbered where
  num {n c} h := by
    obtain ⟨rfl, rfl⟩ : n = 0 ∧ defaultConfig = c := by
      cases n with
      | zero => exact ⟨rfl, Option.some.inj h⟩
      | succ n => cases h
    rfl
  zero := rfl

theorem Numbered.push (h : cf.Numbered) (shards : Fin nShards → ℤ)
    (groups : GoMap (List String)) : (cf.push shards groups).Numbered where
  num {n c} hc := by
    simp only [MemoryConfigStateMachine.push] at hc
    rcases Nat.lt_or_ge n cf.configs.length with hn | hn
    · rw [List.getElem?_append_left hn] at hc
      exact h.num hc
    · rw [List.getElem?_append_right hn, List.getElem?_singleton] at hc
      split_ifs at hc with h0
      obtain rfl := Option.some.inj hc
      change cf.configs.length = n
      omega
  zero := by
    have hpos := (List.getElem?_eq_some_iff.mp h.zero).1
    exact (List.getElem?_append_left hpos).trans h.zero

/-- Each command adds one configuration. -/
theorem apply_push {op : Op} (h : cf.apply op = some cf') :
    ∃ shards groups, cf' = cf.push shards groups := by
  cases op with
  | join groups =>
    obtain ⟨g2s, -, h⟩ := Option.bind_eq_some_iff.mp h
    exact ⟨_, _, (Option.some.inj h).symm⟩
  | leave gids =>
    obtain rfl := Option.some.inj h
    simp only [leaveWith]
    split_ifs
    · exact ⟨_, _, rfl⟩
    · exact ⟨_, _, rfl⟩
  | move shard gid => exact ⟨_, _, (Option.some.inj h).symm⟩

theorem Numbered.apply (h : cf.Numbered) {op : Op} (hs : cf.apply op = some cf') :
    cf'.Numbered := by
  obtain ⟨shards, groups, rfl⟩ := apply_push hs
  exact h.push shards groups

end MemoryConfigStateMachine

/-- Whatever the controller produces is numbered. -/
theorem produced_numbered {ops : List Op} {cf : MemoryConfigStateMachine}
    (h : produced ops = some cf) : cf.Numbered := by
  induction ops using List.reverseRecOn generalizing cf with
  | nil =>
    obtain rfl := Option.some.inj h
    exact MemoryConfigStateMachine.new_numbered
  | append_singleton ops op ih =>
    rw [produced, List.foldlM_append] at h
    obtain ⟨cf₀, h₀, h₁⟩ := Option.bind_eq_some_iff.mp h
    simp only [List.foldlM_cons, List.foldlM_nil, bind_pure] at h₁
    exact (ih h₀).apply h₁

end RaftLabs.Shardctrler
