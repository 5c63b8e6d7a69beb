import RaftLabs.Basis.MapLoop
import RaftLabs.Shardkv.Ownership

/-! The replicas of a group. Each of them enumerates the maps of an `InsertShards` command in an
order of its own and may restore a snapshot of another one; still they agree, because the shards
that a command lists are all at the same stage. -/
namespace RaftLabs.Shardkv
open Basis Shardctrler

namespace ShardKV

/-- The loop over the entries of a pulled shard. -/
def writeEntries (kv : KV) (entries : List (String × String)) : KV :=
  updateLoop (fun value _ => some value) kv entries

/-- `insertLoop` over maps that are enumerated in a given order. -/
def insertEntriesLoop (stateMachines : ShardId → Shard) :
    List (ShardId × List (String × String)) → ShardId → Shard
  | [] => stateMachines
  | (shardId, entries) :: rest =>
    let shard := stateMachines shardId
    if shard.status = .pulling then
      insertEntriesLoop
        (Function.update stateMachines shardId ⟨writeEntries shard.kv entries, .gc⟩) rest
    else stateMachines

def newerOperation (operationInfo : OperationInfo) : Option OperationInfo → Option OperationInfo
  | some lastOperation =>
    if lastOperation.maxAppliedCommandId < operationInfo.maxAppliedCommandId then
      some operationInfo
    else some lastOperation
  | none => some operationInfo

/-- `applyInsertShards` over maps that are enumerated in a given order. -/
def applyInsertEntries (kv : ShardKV) (configNum : ℕ)
    (shards : List (ShardId × List (String × String))) (operations : List (ℕ × OperationInfo)) :
    ShardKV :=
  if configNum = kv.currentConfig.num then
    { kv with
      stateMachines := insertEntriesLoop kv.stateMachines shards
      lastOperations := updateLoop newerOperation kv.lastOperations operations }
  else kv

end ShardKV

/-- An order of the shards of a reply and of the entries of each of them. -/
def EnumeratesShards (entries : List (ShardId × List (String × String)))
    (shards : List (ShardId × KV)) : Prop :=
  ∃ shards', shards'.Perm shards ∧
    List.Forall₂ (fun e s => e.1 = s.1 ∧ Enumerates e.2 s.2) entries shards'

/-- A replica in the state `kv` gets into the state `kv'` by a command, with some order of each of
its maps. -/
def ShardKV.Applies (kv : ShardKV) : Command → ShardKV → Prop
  | .insertShards reply, kv' => ∃ shards operations, EnumeratesShards shards reply.shards ∧
    Enumerates operations reply.lastOperations ∧
    kv' = kv.applyInsertEntries reply.configNum shards operations
  | .operation args, kv' => kv' = (kv.applyOperation args).1
  | .configuration nextConfig, kv' => kv' = (kv.applyConfiguration nextConfig).1
  | .deleteShards args, kv' => kv' = (kv.applyDeleteShards args).1
  | .emptyEntry, kv' => kv' = kv.applyEmptyEntry.1

/-- What `takeSnapshot` encodes. -/
structure Snapshot where
  stateMachines : ShardId → Shard
  lastOperations : ℕ → Option OperationInfo
  currentConfig : Config
  lastConfig : Config

def ShardKV.takeSnapshot (kv : ShardKV) : Snapshot :=
  ⟨kv.stateMachines, kv.lastOperations, kv.currentConfig, kv.lastConfig⟩

def ShardKV.restoreSnapshot (kv : ShardKV) (snapshot : Snapshot) : ShardKV :=
  { kv with
    stateMachines := snapshot.stateMachines
    lastOperations := snapshot.lastOperations
    currentConfig := snapshot.currentConfig
    lastConfig := snapshot.lastConfig }

/-- The states in which a replica of the group can be when it has applied a log: it applies the
commands one by one and may at any time restore a snapshot that a replica has taken, after a
restart or as a follower that lags behind. -/
inductive Execution (g : ℤ) : List Command → ShardKV → Prop
  | start : Execution g [] (.start g)
  | apply {l : List Command} {kv kv' : ShardKV} {c : Command} (he : Execution g l kv)
      (ha : kv.Applies c kv') : Execution g (l ++ [c]) kv'
  | restore {l l' : List Command} {kv kv' : ShardKV} (he : Execution g l kv)
      (he' : Execution g l' kv') : Execution g l' (kv.restoreSnapshot kv'.takeSnapshot)

section Order
variable {sm : ShardId → Shard} {l l' : List (ShardId × KV)} {i : ShardId}

theorem writeEntries_eq {entries : List (String × String)} {data : KV}
    (he : Enumerates entries data) (old : KV) :
    ShardKV.writeEntries old entries = ShardKV.mergeKV data old := by
  funext key
  rw [ShardKV.writeEntries, he.updateLoop_eq, ShardKV.mergeKV]
  cases data key <;> rfl

theorem updateLoop_newerOperation {operations : List (ℕ × OperationInfo)}
    {new : ℕ → Option OperationInfo} (he : Enumerates operations new)
    (old : ℕ → Option OperationInfo) :
    updateLoop ShardKV.newerOperation old operations = ShardKV.mergeOperations old new := by
  funext clientId
  rw [he.updateLoop_eq, ShardKV.mergeOperations]
  cases new clientId <;> cases old clientId <;> rfl

theorem insertEntriesLoop_eq {entries : List (ShardId × List (String × String))}
    (he : List.Forall₂ (fun e s => e.1 = s.1 ∧ Enumerates e.2 s.2) entries l)
    (sm : ShardId → Shard) :
    ShardKV.insertEntriesLoop sm entries = ShardKV.insertLoop sm l := by
  induction he generalizing sm with
  | nil => rfl
  | @cons e s _ _ hes _ ih =>
    obtain ⟨j, entries⟩ := e
    obtain ⟨j', data⟩ := s
    obtain ⟨rfl, hdata⟩ := hes
    simp only [ShardKV.insertEntriesLoop, ShardKV.insertLoop, writeEntries_eq hdata, ih]

/-- The listed shards are all at the same stage. -/
def AtOneStage (sm : ShardId → Shard) (shardIds : List ShardId) : Prop :=
  ∀ i ∈ shardIds, ∀ j ∈ shardIds, (sm i).status = (sm j).status

theorem insertLoop_of_mem (hn : (l.map Prod.fst).Nodup) (hu : AtOneStage sm (l.map Prod.fst))
    {data : KV} (hm : (i, data) ∈ l) (hp : (sm i).status = .pulling) :
    ShardKV.insertLoop sm l i = ⟨ShardKV.mergeKV data (sm i).kv, .gc⟩ := by
  have hi : i ∈ l.map Prod.fst := List.mem_map_of_mem (f := Prod.fst) hm
  have hgc := ShardKV.insertLoop_all hn (fun j hj => (hu j hj i hi).trans hp) hi
  rcases ShardKV.insertLoop_cases sm l i with heq | ⟨data', hm', -, heq⟩
  · rw [heq, hp] at hgc
    cases hgc
  · obtain rfl : data = data' := congrArg Prod.snd (List.inj_on_of_nodup_map hn hm hm' rfl)
    exact heq

theorem insertLoop_of_not_mem (h : ∀ data, (i, data) ∈ l → (sm i).status ≠ .pulling) :
    ShardKV.insertLoop sm l i = sm i := by
  rcases ShardKV.insertLoop_cases sm l i with heq | ⟨data, hm, hp, -⟩
  · exact heq
  · exact absurd hp (h data hm)

/-- The order of the shards does not matter if they are at the same stage. -/
theorem insertLoop_perm (hn : (l.map Prod.fst).Nodup) (hu : AtOneStage sm (l.map Prod.fst))
    (hp : l'.Perm l) : ShardKV.insertLoop sm l' = ShardKV.insertLoop sm l := by
  have hkeys := hp.map Prod.fst
  funext i
  by_cases h : ∃ data, (i, data) ∈ l ∧ (sm i).status = .pulling
  · obtain ⟨data, hm, hpull⟩ := h
    have hu' : AtOneStage sm (l'.map Prod.fst) :=
      fun j hj k hk => hu j (hkeys.mem_iff.mp hj) k (hkeys.mem_iff.mp hk)
    rw [insertLoop_of_mem hn hu hm hpull,
      insertLoop_of_mem (hkeys.nodup_iff.mpr hn) hu' (hp.mem_iff.mpr hm) hpull]
  · push Not at h
    rw [insertLoop_of_not_mem h, insertLoop_of_not_mem fun data hm => h data (hp.mem_iff.mp hm)]

/-- The shards of the command are at the same stage, if it is one for the current
configuration. -/
def ShardKV.Fits (kv : ShardKV) : Command → Prop
  | .insertShards reply => reply.configNum = kv.num →
    (reply.shards.map Prod.fst).Nodup ∧ AtOneStage kv.stateMachines (reply.shards.map Prod.fst)
  | .deleteShards args => args.configNum = kv.num →
    args.shardIds.Nodup ∧ AtOneStage kv.stateMachines args.shardIds
  | .operation _ | .configuration _ | .emptyEntry => True

theorem ShardKV.Applies.eq_apply {kv kv' : ShardKV} {c : Command} (ha : kv.Applies c kv')
    (hf : kv.Fits c) : kv' = (kv.apply c).1 := by
  cases c with
  | operation args => exact ha
  | configuration nextConfig => exact ha
  | insertShards reply =>
    obtain ⟨entries, operations, ⟨shards, hp, hs⟩, ho, rfl⟩ := ha
    by_cases hnum : reply.configNum = kv.currentConfig.num
    · obtain ⟨hn, hu⟩ := hf hnum
      simp only [apply, applyInsertShards, applyInsertEntries, if_pos hnum,
        insertEntriesLoop_eq hs, insertLoop_perm hn hu hp, updateLoop_newerOperation ho]
    · simp only [apply, applyInsertShards, applyInsertEntries, if_neg hnum]
  | deleteShards args => exact ha
  | emptyEntry => exact ha

/-- An insertion takes in all of its shards or none. -/
theorem ShardKV.Fits.insertShards {kv : ShardKV} {reply : ShardOperationReply}
    (hf : kv.Fits (.insertShards reply)) :
    (kv.apply (.insertShards reply)).1.stateMachines = kv.stateMachines ∨
      ∀ i ∈ reply.shards.map Prod.fst, kv.status i = .pulling ∧
        (kv.apply (.insertShards reply)).1.status i = .gc := by
  by_cases hnum : reply.configNum = kv.num
  case neg => exact Or.inl (by simp only [apply, applyInsertShards, if_neg hnum])
  obtain ⟨hn, hu⟩ := hf hnum
  simp only [status, apply, applyInsertShards, if_pos hnum]
  by_cases h : ∃ i ∈ reply.shards.map Prod.fst, kv.status i = .pulling
  · obtain ⟨i, hi, hp⟩ := h
    have hall : ∀ j ∈ reply.shards.map Prod.fst, kv.status j = .pulling :=
      fun j hj => (hu j hj i hi).trans hp
    exact Or.inr fun j hj => ⟨hall j hj, insertLoop_all hn hall hj⟩
  · push Not at h
    refine Or.inl (funext fun i => insertLoop_of_not_mem fun data hm => ?_)
    exact h i (List.mem_map_of_mem (f := Prod.fst) hm)

/-- A deletion handles all of its shards or none. -/
theorem ShardKV.Fits.deleteShards {kv : ShardKV} {args : ShardOperationArgs}
    (hf : kv.Fits (.deleteShards args)) :
    (kv.apply (.deleteShards args)).1.stateMachines = kv.stateMachines ∨
      ∀ i ∈ args.shardIds, (kv.status i = .gc ∨ kv.status i = .bePulling) ∧
        (kv.apply (.deleteShards args)).1.status i = .serving := by
  by_cases hnum : args.configNum = kv.num
  case neg => exact Or.inl (by simp only [apply, applyDeleteShards, if_neg hnum])
  obtain ⟨hn, hu⟩ := hf hnum
  simp only [status, apply, applyDeleteShards, if_pos hnum]
  by_cases h : ∃ i ∈ args.shardIds, kv.status i = .gc ∨ kv.status i = .bePulling
  · obtain ⟨i, hi, hs⟩ := h
    have hall : ∀ j ∈ args.shardIds, kv.status j = .gc ∨ kv.status j = .bePulling := by
      intro j hj
      rwa [show kv.status j = kv.status i from hu j hj i hi]
    exact Or.inr fun j hj => ⟨hall j hj, deleteLoop_all hn hall hj⟩
  · push Not at h
    refine Or.inl (funext fun i => ?_)
    rcases deleteLoop_cases kv.stateMachines args.shardIds i with
      heq | ⟨hm, hs, -⟩ | ⟨hm, hs, -⟩
    · exact heq
    · exact absurd hs (h i hm).1
    · exact absurd hs (h i hm).2

end Order

section Agreement
variable {h : History} {sys : System} {g : ℤ} {l : List Command} {kv : ShardKV}

theorem ShardKV.Applies.gid {kv' : ShardKV} {c : Command} (ha : kv.Applies c kv') :
    kv'.gid = kv.gid := by
  cases c with
  | insertShards reply =>
    obtain ⟨shards, operations, -, -, rfl⟩ := ha
    rw [applyInsertEntries]
    split_ifs <;> rfl
  | operation args => exact ha ▸ apply_gid kv (.operation args)
  | configuration nextConfig => exact ha ▸ apply_gid kv (.configuration nextConfig)
  | deleteShards args => exact ha ▸ apply_gid kv (.deleteShards args)
  | emptyEntry => exact ha ▸ rfl

theorem Execution.gid (he : Execution g l kv) : kv.gid = g := by
  induction he with
  | start => rfl
  | apply _ ha ih => exact ha.gid.trans ih
  | restore _ _ ih _ => exact ih

/-- The shards of a command in the log make the same move, so they are at the same stage. -/
theorem System.Inv.fits_command (hi : sys.Inv h) {c : Command} (hl : l ++ [c] <+: sys.logs g) :
    (replay g l).Fits c := by
  have hfit := hi.logs.fits g l ((List.prefix_append l [c]).trans hl)
  have hs := hi.committed (show c ∈ sys.logs g from hl.subset (by simp))
  cases c with
  | operation args => trivial
  | configuration nextConfig => trivial
  | insertShards reply =>
    intro hnum
    obtain ⟨S, hb, -⟩ := hs
    rw [hnum] at hb
    exact ⟨hb.1, fun i hi j hj => hfit.uniform_batch hb hi hj⟩
  | deleteShards args =>
    intro hnum
    obtain ⟨S, P, hb, -⟩ := hs
    rw [hnum] at hb
    exact ⟨hb.1, fun i hi j hj => hfit.uniform_batch hb hi hj⟩
  | emptyEntry => trivial

/-- Every replica that has applied a part of the log is in the state of its replay. -/
theorem System.Inv.execution_eq (hi : sys.Inv h) (he : Execution g l kv) (hl : l <+: sys.logs g) :
    kv = replay g l := by
  induction he with
  | start => rfl
  | @apply l kv kv' c he ha ih =>
    obtain rfl := ih ((List.prefix_append l [c]).trans hl)
    rw [replay_concat]
    exact ha.eq_apply (hi.fits_command hl)
  | @restore l₀ l kv₀ kv he₀ he ih₀ ih =>
    obtain rfl := ih hl
    have hgid : kv₀.gid = (replay g l).gid := by rw [he₀.gid, replay_gid]
    simp only [ShardKV.restoreSnapshot, ShardKV.takeSnapshot, hgid]

end Agreement

section Finite
variable {kv : ShardKV} {c : Command} {g : ℤ} {l : List Command}

/-- The maps of the state are finite. -/
structure ShardKV.FiniteMaps (kv : ShardKV) : Prop where
  shards : ∀ i, FiniteMap (kv.stateMachines i).kv
  operations : FiniteMap kv.lastOperations

/-- The maps of the command are finite. -/
def Command.FiniteMaps : Command → Prop
  | .insertShards reply => (∀ e ∈ reply.shards, FiniteMap e.2) ∧ FiniteMap reply.lastOperations
  | .operation _ | .configuration _ | .deleteShards _ | .emptyEntry => True

theorem ShardKV.FiniteMaps.applyLogToStateMachines (hk : kv.FiniteMaps) (args : CommandArgs)
    (i : ShardId) : FiniteMap (kv.applyLogToStateMachines args i).1.kv := by
  unfold ShardKV.applyLogToStateMachines
  cases args.op with
  | put => exact (hk.shards i).update _ _
  | append => exact (hk.shards i).update _ _
  | get =>
    simp only
    cases (kv.stateMachines i).kv args.key <;> exact hk.shards i

theorem ShardKV.FiniteMaps.applyOperation (hk : kv.FiniteMaps) (args : CommandArgs) :
    (kv.applyOperation args).1.FiniteMaps := by
  rcases applyOperation_cases kv args with heq | ⟨-, -, heq⟩
  · rwa [heq]
  · rw [heq]
    refine ⟨fun i => ?_, ?_⟩
    · by_cases hi : i = key2shard args.key
      · subst hi
        simp only [Function.update_self]
        exact hk.applyLogToStateMachines args _
      · simp only [Function.update_of_ne hi]
        exact hk.shards i
    · dsimp only
      split_ifs
      · exact hk.operations
      · exact hk.operations.update _ _

theorem ShardKV.FiniteMaps.applyInsertShards (hk : kv.FiniteMaps) {reply : ShardOperationReply}
    (hshards : ∀ e ∈ reply.shards, FiniteMap e.2) (hops : FiniteMap reply.lastOperations) :
    (kv.applyInsertShards reply).1.FiniteMaps := by
  simp only [ShardKV.applyInsertShards]
  split_ifs
  · refine ⟨fun i => ?_, hops.of_or hk.operations fun clientId hs => ?_⟩
    · dsimp only
      rcases insertLoop_cases kv.stateMachines reply.shards i with heq | ⟨data, hm, -, heq⟩
      · rw [heq]
        exact hk.shards i
      · rw [heq]
        refine (hshards _ hm).of_or (hk.shards i) fun key hs => ?_
        simpa [mergeKV] using hs
    · simp only [mergeOperations] at hs
      cases hn : reply.lastOperations clientId with
      | some operationInfo => exact Or.inl rfl
      | none =>
        rw [hn] at hs
        exact Or.inr hs
  · exact hk

theorem ShardKV.FiniteMaps.applyDeleteShards (hk : kv.FiniteMaps) (args : ShardOperationArgs) :
    (kv.applyDeleteShards args).1.FiniteMaps := by
  simp only [ShardKV.applyDeleteShards]
  split_ifs
  · refine ⟨fun i => ?_, hk.operations⟩
    dsimp only
    rcases deleteLoop_cases kv.stateMachines args.shardIds i with
      heq | ⟨-, -, heq⟩ | ⟨-, -, heq⟩
    · rw [heq]
      exact hk.shards i
    · rw [heq]
      exact hk.shards i
    · rw [heq]
      exact finiteMap_empty
  · exact hk

theorem ShardKV.FiniteMaps.apply (hk : kv.FiniteMaps) (hc : c.FiniteMaps) :
    (kv.apply c).1.FiniteMaps := by
  cases c with
  | operation args => exact hk.applyOperation args
  | configuration nextConfig =>
    simp only [ShardKV.apply, applyConfiguration]
    split_ifs
    · exact ⟨hk.shards, hk.operations⟩
    · exact hk
  | insertShards reply => exact hk.applyInsertShards hc.1 hc.2
  | deleteShards args => exact hk.applyDeleteShards args
  | emptyEntry => exact hk

theorem replay_finiteMaps (hl : ∀ c ∈ l, c.FiniteMaps) : (replay g l).FiniteMaps := by
  induction l using List.reverseRecOn with
  | nil => exact ⟨fun _ => finiteMap_empty, finiteMap_empty⟩
  | append_singleton l c ih =>
    rw [replay_concat]
    exact (ih fun c' hc' => hl c' (List.mem_append_left _ hc')).apply (hl c (by simp))

theorem exists_enumeratesShards {shards : List (ShardId × KV)}
    (hs : ∀ e ∈ shards, FiniteMap e.2) : ∃ entries, EnumeratesShards entries shards := by
  suffices ∃ entries : List (ShardId × List (String × String)),
      List.Forall₂ (fun e s => e.1 = s.1 ∧ Enumerates e.2 s.2) entries shards by
    obtain ⟨entries, he⟩ := this
    exact ⟨entries, shards, .refl _, he⟩
  induction shards with
  | nil => exact ⟨[], .nil⟩
  | cons s rest ih =>
    obtain ⟨entries, he⟩ := ih fun e hm => hs e (List.mem_cons_of_mem _ hm)
    obtain ⟨e, hd⟩ := (hs s List.mem_cons_self).exists_enumerates
    exact ⟨(s.1, e) :: entries, .cons ⟨rfl, hd⟩ he⟩

theorem ShardKV.exists_applies (kv : ShardKV) (hc : c.FiniteMaps) : ∃ kv', kv.Applies c kv' := by
  cases c with
  | insertShards reply =>
    obtain ⟨entries, he⟩ := exists_enumeratesShards hc.1
    obtain ⟨operations, ho⟩ := hc.2.exists_enumerates
    exact ⟨_, entries, operations, he, ho, rfl⟩
  | operation args => exact ⟨_, rfl⟩
  | configuration nextConfig => exact ⟨_, rfl⟩
  | deleteShards args => exact ⟨_, rfl⟩
  | emptyEntry => exact ⟨_, rfl⟩

/-- A replica gets through every log of commands with finite maps. -/
theorem exists_execution (g : ℤ) (hl : ∀ c ∈ l, c.FiniteMaps) : ∃ kv, Execution g l kv := by
  induction l using List.reverseRecOn with
  | nil => exact ⟨_, .start⟩
  | append_singleton l c ih =>
    obtain ⟨kv, he⟩ := ih fun c' hc' => hl c' (List.mem_append_left _ hc')
    obtain ⟨kv', ha⟩ := kv.exists_applies (hl c (by simp))
    exact ⟨kv', he.apply ha⟩

end Finite

namespace System

variable {h : History} {sys sys' : System} {r : ℕ → System}

/-- Only commands with finite maps are proposed and committed. -/
structure FiniteMaps (sys : System) : Prop where
  proposed : ∀ {g c}, c ∈ sys.proposals g → c.FiniteMaps
  committed : ∀ {g c}, c ∈ sys.logs g → c.FiniteMaps

theorem FiniteMaps.propose (hf : sys.FiniteMaps) {g : ℤ} {c : Command} (hc : c.FiniteMaps) :
    (sys.propose g c).FiniteMaps where
  proposed hc' := by
    rcases mem_propose hc' with hc' | ⟨-, rfl⟩
    · exact hf.proposed hc'
    · exact hc
  committed := hf.committed

theorem FiniteMaps.step (hf : sys.FiniteMaps) {a : Action} (hs : sys.step h a = some sys') :
    sys'.FiniteMaps := by
  cases a with
  | issue args =>
    obtain ⟨-, rfl⟩ := of_guarded hs
    exact ⟨hf.proposed, hf.committed⟩
  | command gid p args =>
    obtain ⟨-, rfl⟩ := of_guarded hs
    exact hf.propose trivial
  | configurationAction gid p =>
    obtain ⟨-, rfl⟩ := of_guarded hs
    exact hf.propose trivial
  | migrationAction gid p source q shardIds =>
    obtain ⟨-, -, -, rfl⟩ := of_migrationAction hs
    have hk : (sys.replica source q).FiniteMaps :=
      replay_finiteMaps fun c hc => hf.committed (List.mem_of_mem_take hc)
    refine hf.propose ⟨fun e he => ?_, hk.operations⟩
    obtain ⟨i, -, rfl⟩ := List.mem_map.mp he
    exact hk.shards i
  | gcAction gid p source q shardIds index =>
    obtain ⟨-, -, -, ⟨-, rfl⟩ | ⟨-, rfl⟩⟩ := of_gcAction hs
    · exact hf.propose trivial
    · have hp := hf.propose (g := source)
        (c := .deleteShards ⟨(sys.replica gid p).currentConfig.num, shardIds⟩) trivial
      exact ⟨hp.proposed, hp.committed⟩
  | gcReply k =>
    obtain ⟨c, -, -, -, rfl⟩ := of_gcReply hs
    have hp := hf.propose (g := c.puller) (c := .deleteShards c.args) trivial
    exact ⟨hp.proposed, hp.committed⟩
  | checkEntryInCurrentTermAction gid =>
    obtain rfl := Option.some.inj hs
    exact hf.propose trivial
  | commit gid k =>
    obtain ⟨c, hc, -, rfl⟩ := of_commit hs
    refine ⟨hf.proposed, fun hc' => ?_⟩
    rcases mem_extend hc' with hc' | ⟨-, rfl⟩
    · exact hf.committed hc'
    · exact hf.proposed hc

theorem Run.finiteMaps {Q : System → Action → Prop} (hr : Run h Q r) (k : ℕ) :
    (r k).FiniteMaps :=
  hr.steps.invariant (fun _ _ _ _ hs hf => hf.step hs)
    (hr.init ▸ ⟨fun hc => (List.not_mem_nil hc).elim, fun hc => (List.not_mem_nil hc).elim⟩) k

/-- A step in which the acting replica is in the state `kv` and the one that answers it in the
state `answering`. -/
def stepFrom (h : History) (sys : System) (kv answering : ShardKV) : Action → Option System
  | .issue args => sys.issue args
  | .command gid _ args => sys.commandFrom kv gid args
  | .configurationAction gid _ => sys.configurationActionFrom h kv gid
  | .migrationAction gid _ source _ shardIds =>
    sys.migrationActionFrom kv answering gid source shardIds
  | .gcAction gid _ source q shardIds index =>
    sys.gcActionFrom kv answering gid source q shardIds index
  | .gcReply k => sys.gcReplyFrom (fun _ => answering) k
  | .checkEntryInCurrentTermAction gid => some (sys.propose gid .emptyEntry)
  | .commit gid k => sys.commit gid k

/-- The states are those of replicas that have applied the parts of the logs named by the
action. -/
def Reads (sys : System) (kv answering : ShardKV) : Action → Prop
  | .command gid p _ | .configurationAction gid p =>
    Execution gid ((sys.logs gid).take p) kv
  | .migrationAction gid p source q _ | .gcAction gid p source q _ _ =>
    Execution gid ((sys.logs gid).take p) kv ∧
      Execution source ((sys.logs source).take q) answering
  | .gcReply k => ∀ c, sys.collections[k]? = some c →
    Execution c.source ((sys.logs c.source).take c.index) answering
  | .issue _ | .checkEntryInCurrentTermAction _ | .commit _ _ => True

/-- A run in which every replica executes its log in its own way. -/
structure ReplicaRun (h : History) (r : ℕ → System) : Prop where
  init : r 0 = System.init
  steps : IsRun (fun sys (a : Action × ShardKV × ShardKV) => sys.stepFrom h a.2.1 a.2.2 a.1)
    (fun sys a => sys.Reads a.2.1 a.2.2 a.1) r

/-- As long as the invariant holds, the replicas act as the replays of their logs. -/
theorem Inv.stepFrom_eq (hi : sys.Inv h) {a : Action} {kv answering : ShardKV}
    (hr : sys.Reads kv answering a) : sys.stepFrom h kv answering a = sys.step h a := by
  cases a with
  | issue args => rfl
  | command gid p args =>
    obtain rfl := hi.execution_eq hr (List.take_prefix _ _)
    rfl
  | configurationAction gid p =>
    obtain rfl := hi.execution_eq hr (List.take_prefix _ _)
    rfl
  | migrationAction gid p source q shardIds =>
    obtain rfl := hi.execution_eq hr.1 (List.take_prefix _ _)
    obtain rfl := hi.execution_eq hr.2 (List.take_prefix _ _)
    rfl
  | gcAction gid p source q shardIds index =>
    obtain rfl := hi.execution_eq hr.1 (List.take_prefix _ _)
    obtain rfl := hi.execution_eq hr.2 (List.take_prefix _ _)
    rfl
  | gcReply k =>
    simp only [stepFrom, System.step, System.gcReply, gcReplyFrom]
    cases hc : sys.collections[k]? with
    | none => rfl
    | some c =>
      obtain rfl := hi.execution_eq (hr c hc) (List.take_prefix _ _)
      rfl
  | checkEntryInCurrentTermAction gid => rfl
  | commit gid k => rfl

theorem ReplicaRun.run (hr : ReplicaRun h r) : Run h (fun _ _ => True) r := by
  have hinv : ∀ k, (r k).Inv h := by
    refine hr.steps.invariant (fun sys a sys' hreads hs hi => ?_) (hr.init ▸ init_inv h)
    rw [hi.stepFrom_eq hreads] at hs
    exact hi.step hs
  refine ⟨hr.init, fun k => (hr.steps k).imp_right ?_⟩
  rintro ⟨a, hreads, hs⟩
  exact ⟨a.1, trivial, ((hinv k).stepFrom_eq hreads).symm.trans hs⟩

/-- Some replicas can take part in every action. -/
theorem FiniteMaps.exists_reads (hf : sys.FiniteMaps) (a : Action) :
    ∃ kv answering, sys.Reads kv answering a := by
  have hex : ∀ g p, ∃ kv, Execution g ((sys.logs g).take p) kv := fun g p =>
    exists_execution g fun c hc => hf.committed (List.mem_of_mem_take hc)
  cases a with
  | issue args => exact ⟨.start 0, .start 0, trivial⟩
  | command gid p args =>
    obtain ⟨kv, he⟩ := hex gid p
    exact ⟨kv, kv, he⟩
  | configurationAction gid p =>
    obtain ⟨kv, he⟩ := hex gid p
    exact ⟨kv, kv, he⟩
  | migrationAction gid p source q shardIds =>
    obtain ⟨kv, he⟩ := hex gid p
    obtain ⟨answering, he'⟩ := hex source q
    exact ⟨kv, answering, he, he'⟩
  | gcAction gid p source q shardIds index =>
    obtain ⟨kv, he⟩ := hex gid p
    obtain ⟨answering, he'⟩ := hex source q
    exact ⟨kv, answering, he, he'⟩
  | gcReply k =>
    cases hc : sys.collections[k]? with
    | none => exact ⟨.start 0, .start 0, fun c hc' => by rw [hc] at hc'; cases hc'⟩
    | some c =>
      obtain ⟨answering, he⟩ := hex c.source c.index
      refine ⟨answering, answering, fun c' hc' => ?_⟩
      rw [hc] at hc'
      cases hc'
      exact he
  | checkEntryInCurrentTermAction gid => exact ⟨.start 0, .start 0, trivial⟩
  | commit gid k => exact ⟨.start 0, .start 0, trivial⟩

theorem Run.replicaRun {Q : System → Action → Prop} (hr : Run h Q r) : ReplicaRun h r := by
  refine ⟨hr.init, fun k => (hr.steps k).imp_right ?_⟩
  rintro ⟨a, -, hs⟩
  obtain ⟨kv, answering, hreads⟩ := (hr.finiteMaps k).exists_reads a
  exact ⟨(a, kv, answering), hreads, ((hr.inv k).stepFrom_eq hreads).trans hs⟩

end System

/-- Two replicas that have applied the same part of the log of their group are in the same state,
whatever orders their maps were enumerated in, and no insertion or deletion is half applied. -/
theorem replica_determinism {h : History} {r : ℕ → System} (hr : System.ReplicaRun h r) {k : ℕ}
    {g : ℤ} {l : List Command} (hl : l <+: (r k).logs g) :
    (∃ kv, Execution g l kv) ∧
    (∀ kv kv', Execution g l kv → Execution g l kv' →
      kv.stateMachines = kv'.stateMachines ∧ kv.lastOperations = kv'.lastOperations ∧
        kv.currentConfig = kv'.currentConfig ∧ kv.lastConfig = kv'.lastConfig) ∧
    (∀ reply kv kv', l ++ [.insertShards reply] <+: (r k).logs g → Execution g l kv →
      kv.Applies (.insertShards reply) kv' →
      kv'.stateMachines = kv.stateMachines ∨ ∀ i ∈ reply.shards.map Prod.fst,
        (kv.stateMachines i).status = .pulling ∧ (kv'.stateMachines i).status = .gc) ∧
    ∀ args kv kv', l ++ [.deleteShards args] <+: (r k).logs g → Execution g l kv →
      kv.Applies (.deleteShards args) kv' →
      kv'.stateMachines = kv.stateMachines ∨ ∀ i ∈ args.shardIds,
        ((kv.stateMachines i).status = .gc ∨ (kv.stateMachines i).status = .bePulling) ∧
          (kv'.stateMachines i).status = .serving := by
  have hi := hr.run.inv k
  refine ⟨?_, fun kv kv' he he' => ?_, fun reply kv kv' hc he ha => ?_,
    fun args kv kv' hc he ha => ?_⟩
  · exact exists_execution g fun c hc => (hr.run.finiteMaps k).committed (hl.subset hc)
  · rw [hi.execution_eq he hl, hi.execution_eq he' hl]
    exact ⟨rfl, rfl, rfl, rfl⟩
  · obtain rfl := hi.execution_eq he hl
    obtain rfl := ha.eq_apply (hi.fits_command hc)
    exact (hi.fits_command hc).insertShards
  · obtain rfl := hi.execution_eq he hl
    obtain rfl := ha.eq_apply (hi.fits_command hc)
    exact (hi.fits_command hc).deleteShards

/-- After the insertion of shard 0 all replicas of group 2 have the same contents of it. -/
theorem replica_determinism_moveRun :
    ∃ r, System.ReplicaRun moveHistory r ∧ ((r 13).logs 2).length = 3 ∧
      (∃ kv, Execution 2 ((r 13).logs 2) kv) ∧
      ∀ kv kv', Execution 2 ((r 13).logs 2) kv → Execution 2 ((r 13).logs 2) kv' →
        kv.stateMachines = kv'.stateMachines :=
  have hr : System.ReplicaRun moveHistory (trace (System.step moveHistory) .init moveRun) :=
    moveRun_isRun.replicaRun
  have hall := replica_determinism hr (k := 13) (g := 2) List.prefix_rfl
  ⟨_, hr, rfl, hall.1, fun kv kv' he he' => (hall.2.1 kv kv' he he').1⟩

end RaftLabs.Shardkv
