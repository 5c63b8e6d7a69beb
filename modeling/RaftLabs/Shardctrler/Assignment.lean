import RaftLabs.Shardctrler.Rebalance

/-! Every shard is assigned to a group of the configuration, along every sequence of commands of
the controller in which no empty `Join` meets an empty configuration. -/
namespace RaftLabs.Shardctrler
open Basis

/-- Groups have positive identifiers, and every shard belongs to one of them, or to group 0 if
there are none. -/
structure Config.Valid (cf : Config) : Prop where
  nodup : cf.groups.keys.Nodup
  pos : ∀ gid ∈ cf.groups.keys, 0 < gid
  assigned : ∀ i, cf.shards i ∈ cf.groups.keys ∨ (cf.groups = [] ∧ cf.shards i = 0)

theorem defaultConfig_valid : defaultConfig.Valid :=
  ⟨List.nodup_nil, nofun, fun _ => Or.inr ⟨rfl, rfl⟩⟩

namespace MemoryConfigStateMachine

variable {cf : MemoryConfigStateMachine}

@[simp] theorem lastConfig_push (cf : MemoryConfigStateMachine) (shards : Fin nShards → ℤ)
    (groups : GoMap (List String)) :
    (cf.push shards groups).lastConfig = ⟨cf.configs.length, shards, groups⟩ := by
  simp [push, lastConfig]

section Join
variable {groups gs : GoMap (List String)}

/-- The loop of `Join` over the groups that join. -/
theorem mem_keys_join {gid : ℤ} :
    gid ∈ GoMap.keys (groups.foldl
      (fun gs e => if (gs.lookup e.1).isNone then gs.set e.1 e.2 else gs) gs) ↔
      gid ∈ gs.keys ∨ gid ∈ groups.keys := by
  induction groups generalizing gs with
  | nil => simp
  | cons e rest ih =>
    rw [List.foldl_cons, ih]
    have hadd : gid ∈ GoMap.keys (if (gs.lookup e.1).isNone then gs.set e.1 e.2 else gs) ↔
        gid ∈ gs.keys ∨ gid = e.1 := by
      split_ifs with hnone
      · rw [GoMap.mem_keys_set, or_comm]
      · have hmem : e.1 ∈ gs.keys := by
          rw [← lookup_isSome_iff_mem_keys]
          simpa using hnone
        constructor
        · exact Or.inl
        · rintro (h | rfl)
          · exact h
          · exact hmem
    rw [hadd, or_assoc]
    simp only [List.map_cons, List.mem_cons]

theorem nodup_keys_join (hn : gs.keys.Nodup) :
    (GoMap.keys (groups.foldl
      (fun gs e => if (gs.lookup e.1).isNone then gs.set e.1 e.2 else gs) gs)).Nodup := by
  induction groups generalizing gs with
  | nil => exact hn
  | cons e rest ih =>
    rw [List.foldl_cons]
    apply ih
    split_ifs
    · exact GoMap.nodup_keys_set hn _ _
    · exact hn

/-- The rebalancing of a configuration whose shards are in its groups or in group 0 puts all of
them in its groups. -/
theorem rebalance_total (config : Config) {fuel : ℕ} {g2s : GoMap (List (Fin nShards))}
    (hn : config.groups.keys.Nodup) (hzero : 0 ∉ config.groups.keys)
    (hne : config.groups ≠ []) (hshards : ∀ i, config.shards i ∈ config.groups.keys ∨
      config.shards i = 0) (hr : rebalance fuel (groupToShards config) = some g2s) :
    Assigns g2s (fun i => some (newShards g2s i)) ∧
      (∀ i, newShards g2s i ∈ config.groups.keys) ∧
      (∀ k ∈ config.groups.keys, k ∈ g2s.keys) ∧ Balanced g2s := by
  obtain ⟨gid, hgid⟩ := GoMap.ne_nil_iff.mp hne
  have hgid0 : gid ≠ 0 := fun heq => hzero (heq ▸ hgid)
  -- the keys of the map are the groups and perhaps 0, and the shards are in them
  let I : GoMap (List (Fin nShards)) → Prop := fun g2s => ∃ f, Assigns g2s f ∧
    (∀ k ∈ g2s.keys, k ∈ config.groups.keys ∨ k = 0) ∧
    (∀ k ∈ config.groups.keys, k ∈ g2s.keys) ∧ ∀ i, f i ≠ none
  have hstep : ∀ {g2s g2s' shard rest}, Round g2s g2s' shard rest → I g2s → I g2s' := by
    rintro g2s g2s' shard rest hround ⟨f, ha, hkeys, hmem, htotal⟩
    have htarget := (getGidWithMinShards_spec ha.length_le (hmem gid hgid) hgid0).1
    refine ⟨_, hround.assigns ha, fun k hk => ?_, fun k hk => hround.mem_keys.mpr (Or.inr
      (hmem k hk)), fun i => ?_⟩
    · rcases hround.mem_keys.mp hk with rfl | hk
      · exact hkeys _ htarget
      · exact hkeys k hk
    · by_cases hi : i = shard
      · simp [hi]
      · rw [Function.update_of_ne hi]
        exact htotal i
  have hinit : I (groupToShards config) := by
    refine ⟨_, groupToShards_assigns hn, fun k hk => ?_,
      fun k hk => mem_keys_groupToShards.mpr (Or.inl hk), fun i => by simp⟩
    rcases mem_keys_groupToShards.mp hk with hk | ⟨i, rfl⟩
    · exact Or.inl hk
    · exact hshards i
  obtain ⟨⟨f, ha, hkeys, hmem, htotal⟩, hbal⟩ := rebalance_invariant hstep hr hinit
  have hf : f = fun i => some (newShards g2s i) := by
    funext i
    obtain ⟨k, hk⟩ := Option.ne_none_iff_exists'.mp (htotal i)
    rw [ha.newShards_eq, hk, Option.getD_some]
  rw [hf] at ha
  refine ⟨ha, fun i => ?_, hmem, hbal⟩
  refine (hkeys _ (ha.mem_keys rfl)).resolve_right fun heq => hbal.1 ?_
  refine getGidWithMaxShards_of_zero (List.length_pos_of_mem (a := i) ?_)
  rw [ha.mem_slice, heq]

/-- The groups of the old configuration and those that join. -/
theorem joinedConfig_keys (hn : cf.lastConfig.groups.keys.Nodup) (groups : GoMap (List String)) :
    (cf.joinedConfig groups).groups.keys.Nodup ∧ ∀ gid, gid ∈ (cf.joinedConfig groups).groups.keys ↔
      gid ∈ cf.lastConfig.groups.keys ∨ gid ∈ groups.keys := by
  rw [joinedConfig, joinedConfigWith, dcopyWith_eq _ hn]
  exact ⟨nodup_keys_join hn, fun gid => mem_keys_join⟩

theorem join_eq {g2s : GoMap (List (Fin nShards))}
    (hr : rebalance (nShards * nShards) (groupToShards (cf.joinedConfig groups)) = some g2s) :
    cf.join groups = some (cf.push (newShards g2s) (cf.joinedConfig groups).groups) := by
  exact Option.bind_eq_some_iff.mpr ⟨g2s, hr, rfl⟩

/-- A `Join` adds its groups and rebalances the shards over all of them. -/
theorem exists_join (hn : cf.lastConfig.groups.keys.Nodup) (groups : GoMap (List String)) :
    ∃ newGroups g2s, newGroups.keys.Nodup ∧
      (∀ gid, gid ∈ newGroups.keys ↔ gid ∈ cf.lastConfig.groups.keys ∨ gid ∈ groups.keys) ∧
      rebalance (nShards * nShards)
        (groupToShards ⟨cf.configs.length, cf.lastConfig.shards, newGroups⟩) = some g2s ∧
      cf.join groups = some (cf.push (newShards g2s) newGroups) := by
  obtain ⟨hnodup, hmem⟩ := joinedConfig_keys hn groups
  obtain ⟨g2s, -, hr, -⟩ := rebalance_groupToShards (cf.joinedConfig groups) hnodup
  exact ⟨_, g2s, hnodup, hmem, hr, join_eq hr⟩

theorem join_ne_nil {newGroups : GoMap (List String)}
    (hmem : ∀ gid, gid ∈ newGroups.keys ↔ gid ∈ gs.keys ∨ gid ∈ groups.keys)
    (hne : groups ≠ [] ∨ gs ≠ []) : newGroups ≠ [] := by
  rw [GoMap.ne_nil_iff, GoMap.ne_nil_iff] at hne
  rw [GoMap.ne_nil_iff]
  rcases hne with ⟨gid, hgid⟩ | ⟨gid, hgid⟩
  · exact ⟨gid, (hmem gid).mpr (Or.inr hgid)⟩
  · exact ⟨gid, (hmem gid).mpr (Or.inl hgid)⟩

theorem join_valid (hv : cf.lastConfig.Valid) (hpos : ∀ gid ∈ groups.keys, 0 < gid)
    (hne : groups ≠ [] ∨ cf.lastConfig.groups ≠ []) :
    ∃ cf', cf.join groups = some cf' ∧ cf'.lastConfig.Valid := by
  obtain ⟨newGroups, g2s, hnodup, hmem, hr, hjoin⟩ := exists_join hv.nodup groups
  have hpos' : ∀ gid ∈ newGroups.keys, 0 < gid := fun gid hgid =>
    ((hmem gid).mp hgid).elim (hv.pos gid) (hpos gid)
  refine ⟨_, hjoin, ?_⟩
  rw [lastConfig_push]
  refine ⟨hnodup, hpos', fun i => Or.inl ?_⟩
  refine (rebalance_total ⟨_, _, newGroups⟩ hnodup (fun h0 => lt_irrefl _ (hpos' 0 h0))
    (join_ne_nil hmem hne) (fun i => ?_) hr).2.1 i
  rcases hv.assigned i with h | ⟨-, h⟩
  · exact Or.inl ((hmem _).mpr (Or.inl h))
  · exact Or.inr h

end Join

section Leave

theorem mem_keys_leave {gs : GoMap (List String)} {gids : List ℤ} {gid : ℤ} :
    gid ∈ (gids.foldl GoMap.delete gs).keys ↔ gid ∈ gs.keys ∧ gid ∉ gids := by
  induction gids generalizing gs with
  | nil => simp
  | cons gid' rest ih =>
    rw [List.foldl_cons, ih, GoMap.mem_keys_delete, List.mem_cons, not_or]
    tauto

theorem nodup_keys_leave {gs : GoMap (List String)} (hn : gs.keys.Nodup) (gids : List ℤ) :
    (gids.foldl GoMap.delete gs).keys.Nodup := by
  induction gids generalizing gs with
  | nil => exact hn
  | cons gid rest ih => exact ih (GoMap.nodup_keys_delete hn gid)

/-- Without groups all shards are in group 0. -/
theorem leave_of_empty (hn : cf.lastConfig.groups.keys.Nodup) {gids : List ℤ}
    (hnil : gids.foldl GoMap.delete cf.lastConfig.groups = []) :
    cf.leave gids = cf.push (fun _ => 0) [] := by
  rw [leave, leaveWith, dcopyWith_eq _ hn]
  change ite (gids.foldl GoMap.delete cf.lastConfig.groups ≠ []) _ _ = _
  rw [if_neg (not_not.mpr hnil)]
  exact congrArg _ hnil

/-- The shards of the groups that leave are given one by one to a smallest of the groups that
stay; what every such step keeps holds in the new configuration. -/
theorem leave_rule (hn : cf.lastConfig.groups.keys.Nodup)
    (hzero : 0 ∉ cf.lastConfig.groups.keys)
    (hshards : ∀ i, cf.lastConfig.shards i ∈ cf.lastConfig.groups.keys) {gids : List ℤ}
    (hne : gids.foldl GoMap.delete cf.lastConfig.groups ≠ [])
    {I : (Fin nShards → Option ℤ) → Prop}
    (hinit : I fun i => if cf.lastConfig.shards i ∈ gids then none else
      some (cf.lastConfig.shards i))
    (hstep : ∀ {f shard target}, f shard = none →
      target ∈ (gids.foldl GoMap.delete cf.lastConfig.groups).keys →
      (∀ k ∈ (gids.foldl GoMap.delete cf.lastConfig.groups).keys,
        load f (some target) ≤ load f (some k)) →
      I f → I (Function.update f shard (some target))) :
    ∃ shards : Fin nShards → ℤ,
      cf.leave gids = cf.push shards (gids.foldl GoMap.delete cf.lastConfig.groups) ∧
      (∀ i, shards i ∈ (gids.foldl GoMap.delete cf.lastConfig.groups).keys) ∧
      I fun i => some (shards i) := by
  set newGroups := gids.foldl GoMap.delete cf.lastConfig.groups with hnew
  have hmem : ∀ k, k ∈ newGroups.keys ↔ k ∈ cf.lastConfig.groups.keys ∧ k ∉ gids :=
    fun k => mem_keys_leave
  obtain ⟨gid, hgid⟩ := GoMap.ne_nil_iff.mp hne
  obtain ⟨hleft, hkeys⟩ := (groupToShards_splits hn).leave_loop gids
  simp only [Option.some.injEq, exists_eq_right'] at hleft
  -- the groups of the map are those that stay
  let J : GoMap (List (Fin nShards)) → (Fin nShards → Option ℤ) → Prop := fun g2s f =>
    (∀ k, k ∈ g2s.keys ↔ k ∈ newGroups.keys) ∧ I f
  have hJ : ∀ {g2s shard rest f}, Splits g2s (shard :: rest) f → J g2s f →
      J (g2s.set (getGidWithMinShards g2s) (g2s.slice (getGidWithMinShards g2s) ++ [shard]))
        (Function.update f shard (some (getGidWithMinShards g2s))) := by
    rintro g2s shard rest f h ⟨hk, hI⟩
    have hspec : ∀ k ∈ newGroups.keys, getGidWithMinShards g2s ∈ g2s.keys ∧
        (g2s.slice (getGidWithMinShards g2s)).length ≤ (g2s.slice k).length := fun k hkey =>
      getGidWithMinShards_spec h.length_le ((hk k).mpr hkey)
        fun h0 => hzero (h0 ▸ ((hmem k).mp hkey).1)
    have htarget := (hk _).mp (hspec gid hgid).1
    refine ⟨fun k => ?_, hstep (h.mem_orphans.mp List.mem_cons_self) htarget (fun k hkey => ?_) hI⟩
    · rw [GoMap.mem_keys_set, hk k]
      constructor
      · rintro (rfl | hkey)
        · exact htarget
        · exact hkey
      · exact Or.inr
    · rw [← h.length_slice, ← h.length_slice]
      exact (hspec k hkey).2
  have hstart : ∀ k, k ∈ (groupToShards cf.lastConfig).keys ∧ k ∉ gids ↔ k ∈ newGroups.keys := by
    intro k
    rw [hmem, mem_keys_groupToShards]
    refine and_congr_left fun _ => ⟨fun hk => ?_, Or.inl⟩
    rcases hk with hk | ⟨j, rfl⟩
    · exact hk
    · exact hshards j
  obtain ⟨f, hs, hk, hI⟩ := hleft.distribute hJ ⟨fun k => (hkeys k).trans (hstart k), hinit⟩
  set g2s := adoptAll _ _ with hg2s
  have hf : f = fun i => some (newShards g2s i) := by
    funext i
    obtain ⟨k, hki⟩ := Option.ne_none_iff_exists'.mp
      fun hnone => List.not_mem_nil (hs.mem_orphans (i := i).mpr hnone)
    rw [hs.newShards_eq, hki, Option.getD_some]
  subst hf
  refine ⟨newShards g2s, ?_, fun i => (hk _).mp (hs.mem_keys rfl), hI⟩
  rw [leave, leaveWith, dcopyWith_eq _ hn]
  exact if_pos hne

/-- The orphans of the groups that leave go to groups that stay. -/
theorem leave_valid (hv : cf.lastConfig.Valid) (gids : List ℤ) :
    (cf.leave gids).lastConfig.Valid := by
  have hnodup := nodup_keys_leave hv.nodup gids
  have hpos : ∀ gid ∈ (gids.foldl GoMap.delete cf.lastConfig.groups).keys, 0 < gid :=
    fun gid hgid => hv.pos gid (mem_keys_leave.mp hgid).1
  by_cases hne : gids.foldl GoMap.delete cf.lastConfig.groups ≠ []
  · obtain ⟨gid, hgid⟩ := GoMap.ne_nil_iff.mp hne
    have hlast : cf.lastConfig.groups ≠ [] :=
      GoMap.ne_nil_iff.mpr ⟨gid, (mem_keys_leave.mp hgid).1⟩
    obtain ⟨shards, hleave, hmem, -⟩ := leave_rule (I := fun _ => True) hv.nodup
      (fun h0 => lt_irrefl _ (hv.pos 0 h0))
      (fun i => (hv.assigned i).resolve_right fun h => hlast h.1) hne trivial
      fun _ _ _ _ => trivial
    rw [hleave, lastConfig_push]
    exact ⟨hnodup, hpos, fun i => Or.inl (hmem i)⟩
  · rw [leave_of_empty hv.nodup (not_not.mp hne), lastConfig_push]
    exact ⟨List.nodup_nil, nofun, fun i => Or.inr ⟨rfl, rfl⟩⟩

end Leave

theorem move_valid (hv : cf.lastConfig.Valid) (shard : Fin nShards) {gid : ℤ}
    (hgid : gid ∈ cf.lastConfig.groups.keys) : (cf.move shard gid).lastConfig.Valid := by
  rw [move, moveWith, dcopyWith_eq _ hv.nodup, lastConfig_push]
  refine ⟨hv.nodup, hv.pos, fun i => ?_⟩
  by_cases hi : i = shard
  · subst hi
    left
    change Function.update cf.lastConfig.shards i gid i ∈ _
    rwa [Function.update_self]
  · change Function.update cf.lastConfig.shards shard gid i ∈ _ ∨
      (_ ∧ Function.update cf.lastConfig.shards shard gid i = 0)
    rw [Function.update_of_ne hi]
    exact hv.assigned i

end MemoryConfigStateMachine

/-- `Join` ends on every configuration and every argument, also if shards belong to group 0, to
negative numbers or to groups that are not there: in every map that the loop comes to, the group
from which it takes has a shard, and the loop stops in a balanced map within a number of rounds
that depends on the number of shards only. -/
theorem join_terminates (cf : MemoryConfigStateMachine) (groups : GoMap (List String))
    (hn : cf.lastConfig.groups.keys.Nodup) :
    (∀ g2s, Reaches (groupToShards (cf.joinedConfig groups)) g2s →
      g2s.slice (getGidWithMaxShards g2s) ≠ []) ∧
    ∃ g2s, Reaches (groupToShards (cf.joinedConfig groups)) g2s ∧ Balanced g2s ∧
      (∀ fuel, nShards + nShards ^ 2 / 2 < fuel →
        rebalance fuel (groupToShards (cf.joinedConfig groups)) = some g2s) ∧
      cf.join groups = some (cf.push (newShards g2s) (cf.joinedConfig groups).groups) := by
  have hnodup := (MemoryConfigStateMachine.joinedConfig_keys hn groups).1
  have hsome : (rebalance (nShards + nShards ^ 2 / 2 + 1)
      (groupToShards (cf.joinedConfig groups))).isSome :=
    rebalance_groupToShards_isSome _ hnodup _ (Nat.lt_succ_self _)
  obtain ⟨g2s, hr⟩ := Option.isSome_iff_exists.mp hsome
  have hinv : Reaches (groupToShards (cf.joinedConfig groups)) g2s ∧ Balanced g2s :=
    rebalance_invariant (fun hround hreach => hreach.tail ⟨_, _, hround⟩) hr .refl
  constructor
  · intro g2s hreach
    exact ((groupToShards_full hnodup).reaches hreach).source_ne_nil
  · refine ⟨g2s, hinv.1, hinv.2, fun fuel hfuel => rebalance_mono hfuel hr, ?_⟩
    exact MemoryConfigStateMachine.join_eq (rebalance_mono (by decide) hr)

/-- Shards of group 0, of group -1 and of group 77, where only group 5 exists. -/
def strayMachine : MemoryConfigStateMachine :=
  ⟨[⟨0, fun i => if i.val < 3 then 0 else if i.val < 7 then -1 else 77, [(5, ["a"])]⟩]⟩

theorem join_terminates_strayMachine :
    (rebalance 61 (groupToShards (strayMachine.joinedConfig [(-2, ["b"])]))).isSome ∧
      (strayMachine.join [(-2, ["b"])]).isSome := by
  obtain ⟨-, g2s, -, -, hr, hjoin⟩ := join_terminates strayMachine [(-2, ["b"])] (by decide)
  rw [hr 61 (by decide), hjoin]
  exact ⟨rfl, rfl⟩

/-- A `Join` has positive group identifiers, and a `Move` names a group of the current
configuration. -/
def Op.Allowed (cf : MemoryConfigStateMachine) : Op → Prop
  | .join groups => ∀ gid ∈ groups.keys, 0 < gid
  | .leave _ => True
  | .move _ gid => gid ∈ cf.lastConfig.groups.keys

/-- No group joins a configuration without groups. -/
def Op.JoinsNothing (cf : MemoryConfigStateMachine) : Op → Prop
  | .join groups => groups = [] ∧ cf.lastConfig.groups = []
  | .leave _ | .move _ _ => False

/-- Each command of the list satisfies `P` in the state in which it is applied. -/
def AllApplied (P : MemoryConfigStateMachine → Op → Prop) (ops : List Op) : Prop :=
  ∀ before op after cf, ops = before ++ op :: after → produced before = some cf → P cf op

theorem allApplied_singleton {P : MemoryConfigStateMachine → Op → Prop} {op : Op}
    (hop : P .new op) : AllApplied P [op] := by
  intro before op' after cf heq hcf
  cases before with
  | nil =>
    cases heq
    obtain rfl := Option.some.inj hcf
    exact hop
  | cons op'' before => simp at heq

theorem allApplied_concat {P : MemoryConfigStateMachine → Op → Prop} {ops : List Op} {op : Op}
    (hops : AllApplied P ops) (hop : ∀ cf, produced ops = some cf → P cf op) :
    AllApplied P (ops ++ [op]) := by
  intro before op' after cf heq hcf
  rcases List.eq_nil_or_concat after with rfl | ⟨after, op'', rfl⟩
  · obtain ⟨rfl, hlast⟩ := List.append_inj' heq rfl
    obtain rfl := List.singleton_inj.mp hlast
    exact hop cf hcf
  · rw [List.concat_eq_append, ← List.cons_append, ← List.append_assoc] at heq
    obtain ⟨rfl, -⟩ := List.append_inj' heq rfl
    exact hops before op' after cf rfl hcf

theorem produced_concat (ops : List Op) (op : Op) :
    produced (ops ++ [op]) = (produced ops).bind fun cf => cf.apply op := by
  rw [produced, List.foldlM_append]
  change (produced ops).bind _ = _
  congr 1
  funext cf
  simp

theorem MemoryConfigStateMachine.apply_valid {cf : MemoryConfigStateMachine} {op : Op}
    (hv : cf.lastConfig.Valid) (hop : op.Allowed cf) (hne : ¬ op.JoinsNothing cf) :
    ∃ cf', cf.apply op = some cf' ∧ cf'.lastConfig.Valid := by
  cases op with
  | join groups => exact join_valid hv hop (by rwa [Op.JoinsNothing, not_and_or] at hne)
  | leave gids => exact ⟨_, rfl, leave_valid hv gids⟩
  | move shard gid => exact ⟨_, rfl, move_valid hv shard hop⟩

/-- The controller gets through every list of commands in which no empty `Join` meets a
configuration without groups, and its last configuration assigns every shard to one of its groups,
or to group 0 if it has none. -/
theorem valid_assignment (ops : List Op)
    (hops : AllApplied (fun cf op => op.Allowed cf ∧ ¬ op.JoinsNothing cf) ops) :
    ∃ cf, produced ops = some cf ∧ ∀ i,
      cf.lastConfig.shards i ∈ cf.lastConfig.groups.keys ∨
        (cf.lastConfig.groups = [] ∧ cf.lastConfig.shards i = 0) := by
  suffices ∃ cf, produced ops = some cf ∧ cf.lastConfig.Valid by
    obtain ⟨cf, hcf, hv⟩ := this
    exact ⟨cf, hcf, hv.assigned⟩
  induction ops using List.reverseRecOn with
  | nil => exact ⟨_, rfl, defaultConfig_valid⟩
  | append_singleton ops op ih =>
    have hpre : AllApplied (fun cf op => op.Allowed cf ∧ ¬ op.JoinsNothing cf) ops :=
      fun before op' after cf heq => hops before op' (after ++ [op]) cf (by simp [heq])
    obtain ⟨cf, hcf, hv⟩ := ih hpre
    obtain ⟨hop, hne⟩ := hops ops op [] cf rfl hcf
    obtain ⟨cf', hcf', hv'⟩ := cf.apply_valid hv hop hne
    exact ⟨cf', by rw [produced_concat, hcf, Option.bind_some, hcf'], hv'⟩

/-- Two groups join, a shard is moved, and one of the groups leaves. -/
theorem valid_assignment_joinMoveLeave :
    ∃ cf, produced ([.join [(1, ["a"]), (2, ["b"])]] ++ [.move 0 2] ++ [.leave [1]]) = some cf ∧
      ∀ i, cf.lastConfig.shards i ∈ cf.lastConfig.groups.keys ∨
        (cf.lastConfig.groups = [] ∧ cf.lastConfig.shards i = 0) := by
  refine valid_assignment _ (allApplied_concat (allApplied_concat (allApplied_singleton ?_)
    fun cf hcf => ?_) fun cf _ => ⟨trivial, not_false⟩)
  · exact ⟨by simp [Op.Allowed], by simp [Op.JoinsNothing]⟩
  · have hkeys : (produced [.join [(1, ["a"]), (2, ["b"])]]).map
        (fun cf => cf.lastConfig.groups.keys) = some [1, 2] := by decide +kernel
    rw [hcf, Option.map_some, Option.some.injEq] at hkeys
    exact ⟨by simp [Op.Allowed, hkeys], not_false⟩

/-- An empty `Join` in the initial configuration assigns all shards to the group −1, the result of
the search for the smallest group when there is none. -/
theorem empty_join_misassigns :
    AllApplied (fun cf op => op.Allowed cf) [.join []] ∧
      ∃ cf, produced [.join []] = some cf ∧ cf.lastConfig.groups = [] ∧
        ∀ i, cf.lastConfig.shards i = -1 := by
  refine ⟨allApplied_singleton nofun, ?_⟩
  exact ⟨_, rfl, rfl, by decide +kernel⟩

end RaftLabs.Shardctrler
