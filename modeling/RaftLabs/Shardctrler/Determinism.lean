import RaftLabs.Shardctrler.Assignment

/-! Replicas of the controller whose loops over maps have different orders of the entries. All
orders lead to the same configurations. -/
namespace RaftLabs.Shardctrler
open Basis

/-- A replica applies a log of commands, each with its own orders. -/
def MemoryConfigStateMachine.replayWith (cf : MemoryConfigStateMachine) :
    List (Op × Enumeration) → Option MemoryConfigStateMachine
  | [] => some cf
  | (op, e) :: rest => (cf.applyWith e op).bind fun cf => replayWith cf rest

/-- Two lists are the entries of the same map. -/
structure GoMap.Same {V : Type} (m m' : GoMap V) : Prop where
  nodup : m.keys.Nodup
  perm : m.Perm m'

namespace GoMap.Same

variable {V : Type} {m m' m'' : GoMap V}

theorem nodup_right (h : m.Same m') : m'.keys.Nodup := (h.perm.map Prod.fst).nodup_iff.mp h.nodup

theorem symm (h : m.Same m') : m'.Same m := ⟨h.nodup_right, h.perm.symm⟩

theorem trans (h : m.Same m') (h' : m'.Same m'') : m.Same m'' := ⟨h.nodup, h.perm.trans h'.perm⟩

theorem lookup (h : m.Same m') (k : ℤ) : m.lookup k = m'.lookup k := lookup_perm h.nodup h.perm k

theorem of_lookup (hn : m.keys.Nodup) (hn' : m'.keys.Nodup)
    (h : ∀ k, m.lookup k = m'.lookup k) : m.Same m' := ⟨hn, perm_of_lookup_eq hn hn' h⟩

theorem set (h : m.Same m') (k : ℤ) (v : V) : (m.set k v).Same (m'.set k v) := by
  refine of_lookup (nodup_keys_set h.nodup k v) (nodup_keys_set h.nodup_right k v) fun j => ?_
  rw [lookup_set, lookup_set, h.lookup]

theorem delete (h : m.Same m') (k : ℤ) : (m.delete k).Same (m'.delete k) :=
  ⟨nodup_keys_delete h.nodup k, h.perm.filter _⟩

theorem slice {m m' : GoMap (List V)} (h : m.Same m') (k : ℤ) : m.slice k = m'.slice k := by
  rw [GoMap.slice, h.lookup, GoMap.slice]

theorem ne_nil (h : m.Same m') : m ≠ [] ↔ m' ≠ [] := by
  rw [Ne, Ne, ← List.length_eq_zero_iff, h.perm.length_eq, List.length_eq_zero_iff]

end GoMap.Same

theorem Enumeration.same (e : Enumeration) (n : ℕ) {V : Type} {m : GoMap V}
    (hn : m.keys.Nodup) : (e.order n m).Same m :=
  GoMap.Same.symm ⟨hn, (e.perm n m).symm⟩

/-! Each loop gives the same result on two lists of the same map, whatever its orders are. -/

namespace GoMap.Same

variable {g2s g2s' : GoMap (List (Fin nShards))} (e e' : Enumeration) (n n' : ℕ)

/-- The keys are sorted, so the order in which they are collected does not matter. -/
theorem sortedKeysWith (h : g2s.Same g2s') :
    Shardctrler.sortedKeysWith e n g2s = Shardctrler.sortedKeysWith e' n' g2s' :=
  insertionSort_eq_of_perm
    ((((e.perm n g2s).trans h.perm).trans (e'.perm n' g2s').symm).map Prod.fst)

theorem getGidWithMaxShardsWith (h : g2s.Same g2s') :
    Shardctrler.getGidWithMaxShardsWith e n g2s =
      Shardctrler.getGidWithMaxShardsWith e' n' g2s' := by
  simp only [Shardctrler.getGidWithMaxShardsWith, h.sortedKeysWith e e' n n', h.slice]

theorem getGidWithMinShardsWith (h : g2s.Same g2s') :
    Shardctrler.getGidWithMinShardsWith e n g2s =
      Shardctrler.getGidWithMinShardsWith e' n' g2s' := by
  simp only [Shardctrler.getGidWithMinShardsWith, h.sortedKeysWith e e' n n', h.slice]

theorem newShardsWith {f : Fin nShards → Option ℤ} (h : g2s.Same g2s') (ha : Assigns g2s f) :
    Shardctrler.newShardsWith e g2s = Shardctrler.newShardsWith e' g2s' := by
  -- the assignment is read off the map, in any order of its groups
  have hread : ∀ (e : Enumeration) {m : GoMap (List (Fin nShards))}, Assigns m f →
      Shardctrler.newShardsWith e m = fun i => (f i).getD 0 := by
    intro e m hm
    have hsame := e.same 3 hm.nodup_keys
    exact funext fun i => (hm.congr hsame.nodup hsame.slice).newShards_eq i
  rw [hread e ha, hread e' (ha.congr h.nodup_right fun k => (h.slice k).symm)]

/-- A shard is added to the list of a group. -/
theorem push (h : g2s.Same g2s') (k : ℤ) (shard : Fin nShards) :
    (g2s.set k (g2s.slice k ++ [shard])).Same (g2s'.set k (g2s'.slice k ++ [shard])) := by
  rw [h.slice]
  exact h.set k _

theorem rebalanceWith (h : g2s.Same g2s') {fuel : ℕ} {g2s₁ : GoMap (List (Fin nShards))}
    (hr : Shardctrler.rebalanceWith e fuel g2s = some g2s₁) :
    ∃ g2s₁', Shardctrler.rebalanceWith e' fuel g2s' = some g2s₁' ∧ g2s₁.Same g2s₁' := by
  induction fuel generalizing g2s g2s' with
  | zero => cases hr
  | succ fuel ih =>
    simp only [Shardctrler.rebalanceWith, h.getGidWithMaxShardsWith e e' _ (2 * fuel + 4),
      h.getGidWithMinShardsWith e e' _ (2 * fuel + 5), h.slice] at hr ⊢
    split_ifs at hr ⊢ with hbal
    · obtain rfl := Option.some.inj hr
      exact ⟨g2s', rfl, h⟩
    · split at hr
      · cases hr
      · rename_i shard rest hs
        refine ih ?_ hr
        have hpush := h.push (Shardctrler.getGidWithMinShardsWith e' (2 * fuel + 5) g2s') shard
        rw [h.slice] at hpush
        rw [hpush.slice]
        exact hpush.set _ _

theorem foldl_push (h : g2s.Same g2s') (k : Fin nShards → ℤ) (l : List (Fin nShards)) :
    GoMap.Same (l.foldl (fun g2s shard => g2s.set (k shard) (g2s.slice (k shard) ++ [shard])) g2s)
      (l.foldl (fun g2s shard => g2s.set (k shard) (g2s.slice (k shard) ++ [shard])) g2s') := by
  induction l generalizing g2s g2s' with
  | nil => exact h
  | cons shard rest ih => exact ih (h.push _ _)

theorem adoptAllWith (h : g2s.Same g2s') (orphanShards : List (Fin nShards)) :
    (Shardctrler.adoptAllWith e orphanShards g2s).Same
      (Shardctrler.adoptAllWith e' orphanShards g2s') := by
  induction orphanShards generalizing g2s g2s' with
  | nil => exact h
  | cons shard rest ih =>
    simp only [Shardctrler.adoptAllWith, h.getGidWithMinShardsWith e e' _ (rest.length + 4)]
    exact ih (h.push _ _)

/-- The loop of `Leave` over the groups that leave. -/
theorem leave_loop (h : g2s.Same g2s') (gids : List ℤ) (orphanShards : List (Fin nShards)) :
    let step : GoMap (List (Fin nShards)) × List (Fin nShards) → ℤ →
        GoMap (List (Fin nShards)) × List (Fin nShards) :=
      fun acc gid => (acc.1.delete gid, acc.2 ++ acc.1.slice gid)
    (gids.foldl step (g2s, orphanShards)).1.Same (gids.foldl step (g2s', orphanShards)).1 ∧
      (gids.foldl step (g2s, orphanShards)).2 = (gids.foldl step (g2s', orphanShards)).2 := by
  induction gids generalizing g2s g2s' orphanShards with
  | nil => exact ⟨h, rfl⟩
  | cons gid rest ih =>
    simp only [List.foldl_cons, h.slice gid]
    exact ih (h.delete gid) _

theorem leave {gs gs' : GoMap (List String)} (h : gs.Same gs') (gids : List ℤ) :
    (gids.foldl GoMap.delete gs).Same (gids.foldl GoMap.delete gs') := by
  induction gids generalizing gs gs' with
  | nil => exact h
  | cons gid rest ih => exact ih (h.delete gid)

end GoMap.Same

section Groups
variable {gs gs' groups : GoMap (List String)} {k : ℤ} (e e' : Enumeration)

/-- Two copies of a map are the same map. -/
theorem dcopyWith_same (h : gs.Same gs') : (dcopyWith e gs).Same (dcopyWith e' gs') := by
  rw [dcopyWith_eq e h.nodup, dcopyWith_eq e' h.nodup_right]
  exact ((e.same 0 h.nodup).trans h).trans (e'.same 0 h.nodup_right).symm

theorem lookup_join_loop (hn : groups.keys.Nodup) :
    List.lookup k (groups.foldl (fun gs entry =>
      if (gs.lookup entry.1).isNone then GoMap.set gs entry.1 entry.2 else gs) gs) =
      (gs.lookup k).or (groups.lookup k) := by
  induction groups generalizing gs with
  | nil => simp
  | cons entry rest ih =>
    obtain ⟨gid, servers⟩ := entry
    simp only [List.map_cons, List.nodup_cons] at hn
    rw [List.foldl_cons, ih hn.2, List.lookup_cons]
    by_cases hk : k = gid
    · subst hk
      have hnone : rest.lookup k = none := lookup_eq_none_iff_notMem_keys.mpr hn.1
      cases hl : gs.lookup k <;> simp [hl, hnone, GoMap.lookup_set]
    · have hne : (k == gid) = false := beq_false_of_ne hk
      rw [hne]
      split_ifs with hl
      · rw [GoMap.lookup_set, if_neg hk]
      · rfl

theorem joinGroupsWith_same (hn : groups.keys.Nodup) (h : gs.Same gs') :
    (joinGroupsWith e groups gs).Same (joinGroupsWith e' groups gs') := by
  have hsame := e.same 1 hn
  have hsame' := e'.same 1 hn
  refine .of_lookup (MemoryConfigStateMachine.nodup_keys_join h.nodup)
    (MemoryConfigStateMachine.nodup_keys_join h.nodup_right) fun k => ?_
  rw [joinGroupsWith, joinGroupsWith, lookup_join_loop hsame.nodup, lookup_join_loop hsame'.nodup,
    hsame.lookup, hsame'.lookup, h.lookup]

theorem groupToShardsWith_same (c c' : Config) (hshards : c.shards = c'.shards)
    (h : c.groups.Same c'.groups) :
    (groupToShardsWith e c).Same (groupToShardsWith e' c') := by
  have hsame := ((e.same 2 h.nodup).trans h).trans (e'.same 2 h.nodup_right).symm
  rw [groupToShardsWith, groupToShardsWith, hshards]
  refine GoMap.Same.foldl_push ⟨?_, hsame.perm.map _⟩ _ _
  simpa [GoMap.keys, Function.comp_def] using hsame.nodup

/-- The loops of `Leave` end with an assignment, whatever their orders are. -/
theorem exists_assigns_leave (c : Config) (hn : c.groups.keys.Nodup) (gids : List ℤ) :
    let acc := gids.foldl (fun acc gid => (GoMap.delete acc.1 gid, acc.2 ++ GoMap.slice acc.1 gid))
      (groupToShardsWith e c, [])
    ∃ f, Assigns (adoptAllWith e acc.2 acc.1) f := by
  intro acc
  -- the same loops in the order of the lists
  obtain ⟨hleft, horphans⟩ := (groupToShardsWith_same e .forward c c rfl ⟨hn, .refl _⟩).leave_loop
    gids []
  obtain ⟨f, hf, -⟩ := Splits.distribute (I := fun _ _ => True) (fun _ _ => trivial)
    ((groupToShards_splits hn).leave_loop gids).1 trivial
  have hsame := hleft.adoptAllWith e .forward acc.2
  rw [horphans] at hsame
  refine ⟨f, ?_⟩
  rw [show acc.2 = _ from horphans]
  exact hf.toAssigns.congr hsame.nodup hsame.slice

end Groups

/-- The same configuration: the groups are the same map. -/
structure Config.Same (c c' : Config) : Prop where
  num : c.num = c'.num
  shards : c.shards = c'.shards
  groups : c.groups.Same c'.groups

namespace MemoryConfigStateMachine

variable {cf cf' : MemoryConfigStateMachine}

/-- The same configurations. -/
def Same (cf cf' : MemoryConfigStateMachine) : Prop :=
  List.Forall₂ Config.Same cf.configs cf'.configs

/-- The groups of every configuration are a map. -/
def Maps (cf : MemoryConfigStateMachine) : Prop := ∀ c ∈ cf.configs, c.groups.keys.Nodup

theorem Maps.same (h : cf.Maps) : cf.Same cf :=
  List.forall₂_same.mpr fun c hc => ⟨rfl, rfl, h c hc, .refl _⟩

theorem forall₂_getLastD {l l' : List Config} (h : List.Forall₂ Config.Same l l') {c c' : Config}
    (hc : c.Same c') : (l.getLastD c).Same (l'.getLastD c') := by
  induction h generalizing c c' with
  | nil => exact hc
  | cons hd _ ih =>
    rw [List.getLastD_cons, List.getLastD_cons]
    exact ih hd

theorem Same.lastConfig (h : cf.Same cf') : cf.lastConfig.Same cf'.lastConfig :=
  forall₂_getLastD h ⟨rfl, rfl, List.nodup_nil, .refl _⟩

theorem Same.push (h : cf.Same cf') (shards : Fin nShards → ℤ) {gs gs' : GoMap (List String)}
    (hgs : gs.Same gs') : (cf.push shards gs).Same (cf'.push shards gs') := by
  exact List.rel_append h (.cons ⟨h.length_eq, rfl, hgs⟩ .nil)

theorem joinWith_same (e e' : Enumeration) (h : cf.Same cf') {groups : GoMap (List String)}
    (hn : groups.keys.Nodup) :
    ∃ cf₁ cf₁', cf.joinWith e groups = some cf₁ ∧ cf'.joinWith e' groups = some cf₁' ∧
      cf₁.Same cf₁' := by
  have hlast := h.lastConfig
  have hgroups : ∀ e e', (cf.joinedConfigWith e groups).groups.Same
      (cf'.joinedConfigWith e' groups).groups :=
    fun e e' => joinGroupsWith_same e e' hn (dcopyWith_same e e' hlast.groups)
  have hg2s : ∀ e e', (groupToShardsWith e (cf.joinedConfigWith e groups)).Same
      (groupToShardsWith e' (cf'.joinedConfigWith e' groups)) :=
    fun e e' => groupToShardsWith_same e e' _ _ hlast.shards (hgroups e e')
  -- the loop ends in one order, so it does in the others
  obtain ⟨m, f, hm, hf⟩ := rebalance_groupToShards (cf'.joinedConfig groups)
    (hgroups .forward .forward).nodup_right
  obtain ⟨g2s, hr, hsame⟩ := (hg2s e .forward).symm.rebalanceWith _ e hm
  obtain ⟨g2s', hr', hsame'⟩ := (hg2s e e').rebalanceWith _ e' hr
  have hf' := hf.congr hsame.nodup_right fun k => (hsame.slice k).symm
  refine ⟨_, _, Option.bind_eq_some_iff.mpr ⟨g2s, hr, rfl⟩,
    Option.bind_eq_some_iff.mpr ⟨g2s', hr', rfl⟩, ?_⟩
  rw [hsame'.newShardsWith e e' hf']
  exact h.push _ (hgroups e e')

theorem leaveWith_same (e e' : Enumeration) (h : cf.Same cf') (gids : List ℤ) :
    (cf.leaveWith e gids).Same (cf'.leaveWith e' gids) := by
  have hlast := h.lastConfig
  have hcopy := dcopyWith_same e e' hlast.groups
  have hgroups := hcopy.leave gids
  have hg2s := groupToShardsWith_same e e'
    ⟨cf.configs.length, cf.lastConfig.shards, dcopyWith e cf.lastConfig.groups⟩
    ⟨cf'.configs.length, cf'.lastConfig.shards, dcopyWith e' cf'.lastConfig.groups⟩
    hlast.shards hcopy
  obtain ⟨hleft, horphans⟩ := hg2s.leave_loop gids []
  obtain ⟨f, hf⟩ := exists_assigns_leave e
    ⟨cf.configs.length, cf.lastConfig.shards, dcopyWith e cf.lastConfig.groups⟩ hcopy.nodup gids
  simp only [leaveWith]
  by_cases hne : gids.foldl GoMap.delete (dcopyWith e cf.lastConfig.groups) ≠ []
  · rw [if_pos hne, if_pos (hgroups.ne_nil.mp hne), ← horphans,
      (hleft.adoptAllWith e e' _).newShardsWith e e' hf]
    exact h.push _ hgroups
  · rw [if_neg hne, if_neg (hgroups.ne_nil.not.mp hne)]
    exact h.push _ hgroups

theorem moveWith_same (e e' : Enumeration) (h : cf.Same cf') (shard : Fin nShards) (gid : ℤ) :
    (cf.moveWith e shard gid).Same (cf'.moveWith e' shard gid) := by
  have hlast := h.lastConfig
  rw [moveWith, moveWith, hlast.shards]
  exact h.push _ (dcopyWith_same e e' hlast.groups)

end MemoryConfigStateMachine

/-- The argument of a `Join` is a map. -/
def Op.IsMap : Op → Prop
  | .join groups => groups.keys.Nodup
  | .leave _ | .move _ _ => True

namespace MemoryConfigStateMachine

variable {cf cf' : MemoryConfigStateMachine}

theorem applyWith_same (e e' : Enumeration) (h : cf.Same cf') {op : Op} (hop : op.IsMap) :
    ∃ cf₁ cf₁', cf.applyWith e op = some cf₁ ∧ cf'.applyWith e' op = some cf₁' ∧
      cf₁.Same cf₁' := by
  cases op with
  | join groups => exact joinWith_same e e' h hop
  | leave gids => exact ⟨_, _, rfl, rfl, leaveWith_same e e' h gids⟩
  | move shard gid => exact ⟨_, _, rfl, rfl, moveWith_same e e' h shard gid⟩

end MemoryConfigStateMachine

/-- Two replicas of the controller that hold the same configurations and apply the same commands
hold the same configurations again, whatever the orders of their loops are. -/
theorem controller_determinism {cf cf' : MemoryConfigStateMachine} (hcf : cf.Same cf')
    {log log' : List (Op × Enumeration)} (hops : log.map Prod.fst = log'.map Prod.fst)
    (hlog : ∀ op ∈ log.map Prod.fst, op.IsMap) :
    ∃ cf₁ cf₁', cf.replayWith log = some cf₁ ∧ cf'.replayWith log' = some cf₁' ∧
      cf₁.Same cf₁' := by
  induction log generalizing log' cf cf' with
  | nil =>
    obtain rfl := List.map_eq_nil_iff.mp hops.symm
    exact ⟨cf, cf', rfl, rfl, hcf⟩
  | cons entry rest ih =>
    obtain ⟨op, e⟩ := entry
    obtain ⟨⟨op', e'⟩, rest', rfl, hop, hrest⟩ := List.map_eq_cons_iff.mp hops.symm
    obtain rfl : op' = op := hop
    obtain ⟨cf₁, cf₁', h₁, h₁', hsame⟩ :=
      MemoryConfigStateMachine.applyWith_same e e' hcf (hlog op' (by simp))
    obtain ⟨cf₂, cf₂', h₂, h₂', hsame'⟩ := ih hsame hrest.symm fun op hop => hlog op (by simp [hop])
    refine ⟨cf₂, cf₂', ?_, ?_, hsame'⟩
    · rw [MemoryConfigStateMachine.replayWith, h₁, Option.bind_some, h₂]
    · rw [MemoryConfigStateMachine.replayWith, h₁', Option.bind_some, h₂']

def Enumeration.backward : Enumeration := ⟨fun _ m => m.reverse, fun _ m => m.reverse_perm⟩

/-- Two groups join and one of them leaves. -/
def joinLeaveLog (e : Enumeration) : List (Op × Enumeration) :=
  [(.join [(1, ["a"]), (2, ["b"])], e), (.leave [1], e)]

theorem controller_determinism_joinLeaveLog :
    ∃ cf₁ cf₁', MemoryConfigStateMachine.new.replayWith (joinLeaveLog .forward) = some cf₁ ∧
      MemoryConfigStateMachine.new.replayWith (joinLeaveLog .backward) = some cf₁' ∧
      cf₁.Same cf₁' := by
  refine controller_determinism (MemoryConfigStateMachine.Maps.same ?_) rfl ?_
  · simp [MemoryConfigStateMachine.Maps, MemoryConfigStateMachine.new, defaultConfig]
  · simp [joinLeaveLog, Op.IsMap]

end RaftLabs.Shardctrler
