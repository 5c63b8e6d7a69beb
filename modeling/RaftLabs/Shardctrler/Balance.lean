import RaftLabs.Basis.Balance
import RaftLabs.Shardctrler.Assignment

/-! `Join` and `Leave` keep the shards evenly spread over the groups and move no more of them than
they have to. -/
namespace RaftLabs.Shardctrler
open Basis

variable {g2s g2s' : GoMap (List (Fin nShards))}

/-- The numbers of shards of any two of the groups differ by at most one. -/
def EvenOn (gids : List ℤ) (shards : Fin nShards → ℤ) : Prop :=
  ∀ a ∈ gids, ∀ b ∈ gids, load shards a ≤ load shards b + 1

instance decidableEvenOn (gids : List ℤ) (shards : Fin nShards → ℤ) :
    Decidable (EvenOn gids shards) :=
  inferInstanceAs (Decidable (∀ a ∈ gids, ∀ b ∈ gids, _))

theorem EvenOn.equitableOn {gids : List ℤ} {shards : Fin nShards → ℤ} (h : EvenOn gids shards) :
    (gids.toFinset : Set ℤ).EquitableOn (load shards) := fun a b ha hb =>
  h a (List.mem_toFinset.mp ha) b (List.mem_toFinset.mp hb)

section Join
variable {f : Fin nShards → ℤ} {gids : List ℤ}

/-- The loop of `Join` ends with even groups. -/
theorem Balanced.evenOn (h : Balanced g2s) (ha : Assigns g2s fun i => some (f i))
    (hmem : ∀ k ∈ gids, k ∈ g2s.keys) (hzero : 0 ∉ gids) : EvenOn gids f := by
  intro a hA b hB
  have hnil : g2s.slice 0 = [] := by
    by_contra hne
    exact h.1 (getGidWithMaxShards_of_zero (List.length_pos_iff.mpr hne))
  have hmax := (getGidWithMaxShards_spec hnil (hmem a hA)).2
  have hmin := (getGidWithMinShards_spec ha.length_le (hmem b hB) fun h0 => hzero (h0 ▸ hB)).2
  have hgap := h.2
  rw [← load_some f a, ← load_some f b, ← ha.length_slice, ← ha.length_slice]
  omega

/-- A round of the loop over shards that are all in the groups is one step of a greedy
transfer. -/
theorem Round.transfer {shard : Fin nShards} {rest : List (Fin nShards)} {a : Fin nShards → ℤ}
    (h : Round g2s g2s' shard rest) (ha : Assigns g2s fun i => some (f i))
    (hkeys : ∀ k, k ∈ g2s.keys ↔ k ∈ gids) (hzero : 0 ∉ gids)
    (ht : Transfer gids.toFinset a f) :
    Transfer gids.toFinset a (Function.update f shard (getGidWithMinShards g2s)) := by
  have hsource : f shard = getGidWithMaxShards g2s :=
    Option.some.inj (ha.mem_slice.mp (by simp [h.source]))
  have hmem : f shard ∈ gids := List.mem_toFinset.mp (ht.mem shard)
  have hne : ∀ k ∈ gids, k ≠ 0 := fun k hk h0 => hzero (h0 ▸ hk)
  have hnil : g2s.slice 0 = [] := by
    by_contra hcons
    obtain ⟨i, hi⟩ := List.exists_mem_of_ne_nil _ hcons
    exact hzero ((hkeys 0).mp (GoMap.mem_keys_of_mem_slice hi))
  have hsize : ∀ k, load f k = (g2s.slice k).length := fun k => by
    rw [ha.length_slice, load_some]
  have hmax : ∀ k ∈ gids, load f k ≤ load f (f shard) := fun k hk => by
    rw [hsize, hsize, hsource]
    exact (getGidWithMaxShards_spec hnil ((hkeys k).mpr hk)).2
  have hmin : ∀ k ∈ gids, getGidWithMinShards g2s ∈ g2s.keys ∧
      load f (getGidWithMinShards g2s) ≤ load f k := fun k hk => by
    rw [hsize, hsize]
    exact getGidWithMinShards_spec ha.length_le ((hkeys k).mpr hk) (hne k hk)
  have hgap : load f (getGidWithMinShards g2s) + 2 ≤ load f (f shard) := by
    have hunb := h.unbalanced
    rw [Balanced, not_and, ← hsource] at hunb
    have hdiff := hunb (hne _ hmem)
    rw [hsize, hsize]
    omega
  exact ht.move (List.mem_toFinset.mpr ((hkeys _).mp (hmin _ hmem).1))
    (fun k hk => hmax k (List.mem_toFinset.mp hk))
    (fun k hk => (hmin k (List.mem_toFinset.mp hk)).2) hgap

/-- The loop of `Join` on a configuration whose shards are all in its groups. -/
theorem rebalance_transfer (config : Config) {fuel : ℕ} (hn : config.groups.keys.Nodup)
    (hzero : 0 ∉ config.groups.keys) (hshards : ∀ i, config.shards i ∈ config.groups.keys)
    (hr : rebalance fuel (groupToShards config) = some g2s) :
    Transfer config.groups.keys.toFinset config.shards (newShards g2s) := by
  let I : GoMap (List (Fin nShards)) → Prop := fun g2s => ∃ f : Fin nShards → ℤ,
    Assigns g2s (fun i => some (f i)) ∧ (∀ k, k ∈ g2s.keys ↔ k ∈ config.groups.keys) ∧
    Transfer config.groups.keys.toFinset config.shards f
  have hstep : ∀ {g2s g2s' shard rest}, Round g2s g2s' shard rest → I g2s → I g2s' := by
    rintro g2s g2s' shard rest hround ⟨f, ha, hkeys, ht⟩
    have ht' := hround.transfer ha hkeys hzero ht
    have ha' := hround.assigns ha
    have hupdate : Function.update (fun i => some (f i)) shard (some (getGidWithMinShards g2s)) =
        fun i => some (Function.update f shard (getGidWithMinShards g2s) i) := by
      funext i
      by_cases hi : i = shard <;> simp [hi]
    rw [hupdate] at ha'
    refine ⟨_, ha', fun k => ?_, ht'⟩
    rw [hround.mem_keys, hkeys k]
    constructor
    · rintro (rfl | hk)
      · have hmem := ht'.mem shard
        rwa [Function.update_self, List.mem_toFinset] at hmem
      · exact hk
    · exact Or.inr
  have hinit : I (groupToShards config) := by
    refine ⟨config.shards, groupToShards_assigns hn, fun k => ?_,
      Transfer.refl fun i => List.mem_toFinset.mpr (hshards i)⟩
    rw [mem_keys_groupToShards]
    constructor
    · rintro (hk | ⟨i, rfl⟩)
      · exact hk
      · exact hshards i
    · exact Or.inl
  obtain ⟨⟨f, ha, -, ht⟩, -⟩ := rebalance_invariant hstep hr hinit
  have hf : newShards g2s = f := funext fun i => by rw [ha.newShards_eq, Option.getD_some]
  rwa [hf]

/-- A `Join` on a configuration without group 0 spreads the shards evenly over all groups, moves as
few of them as any even assignment to these groups, and moves them to new groups only if the old
groups were even. -/
theorem join_even_minimal (cf : MemoryConfigStateMachine) (groups : GoMap (List String))
    (hn : cf.lastConfig.groups.keys.Nodup) (hzero : 0 ∉ cf.lastConfig.groups.keys)
    (hshards : (∀ i, cf.lastConfig.shards i ∈ cf.lastConfig.groups.keys) ∨
      (cf.lastConfig.groups = [] ∧ ∀ i, cf.lastConfig.shards i = 0))
    (hpos : ∀ gid ∈ groups.keys, 0 < gid) (hne : groups ≠ [] ∨ cf.lastConfig.groups ≠ []) :
    ∃ cf', cf.join groups = some cf' ∧
      (∀ gid, gid ∈ cf'.lastConfig.groups.keys ↔
        gid ∈ cf.lastConfig.groups.keys ∨ gid ∈ groups.keys) ∧
      (∀ i, cf'.lastConfig.shards i ∈ cf'.lastConfig.groups.keys) ∧
      EvenOn cf'.lastConfig.groups.keys cf'.lastConfig.shards ∧
      (∀ shards : Fin nShards → ℤ, (∀ i, shards i ∈ cf'.lastConfig.groups.keys) →
        EvenOn cf'.lastConfig.groups.keys shards →
        moved cf.lastConfig.shards cf'.lastConfig.shards ≤ moved cf.lastConfig.shards shards) ∧
      (EvenOn cf.lastConfig.groups.keys cf.lastConfig.shards → ∀ i,
        cf'.lastConfig.shards i ≠ cf.lastConfig.shards i →
        cf'.lastConfig.shards i ∉ cf.lastConfig.groups.keys) := by
  obtain ⟨newGroups, g2s, hnodup, hmem, hr, hjoin⟩ :=
    MemoryConfigStateMachine.exists_join hn groups
  have hzero' : 0 ∉ newGroups.keys := fun h0 =>
    ((hmem 0).mp h0).elim hzero fun h => lt_irrefl _ (hpos 0 h)
  have hstart : ∀ i, cf.lastConfig.shards i ∈ newGroups.keys ∨ cf.lastConfig.shards i = 0 := by
    intro i
    rcases hshards with h | ⟨-, h⟩
    · exact Or.inl ((hmem _).mpr (Or.inl (h i)))
    · exact Or.inr (h i)
  obtain ⟨ha, htotal, hkeys, hbal⟩ := MemoryConfigStateMachine.rebalance_total ⟨_, _, newGroups⟩
    hnodup hzero' (MemoryConfigStateMachine.join_ne_nil hmem hne) hstart hr
  have heven : EvenOn newGroups.keys (newShards g2s) := hbal.evenOn ha hkeys hzero'
  refine ⟨_, hjoin, ?_⟩
  rw [MemoryConfigStateMachine.lastConfig_push]
  refine ⟨hmem, htotal, heven, ?_⟩
  rcases hshards with hold | ⟨hnil, hall⟩
  · have htransfer := rebalance_transfer ⟨_, _, newGroups⟩ hnodup hzero'
      (fun i => (hmem _).mpr (Or.inl (hold i))) hr
    refine ⟨fun shards hs hse => ?_, fun hse i hi hin => ?_⟩
    · exact htransfer.moved_le (fun i => List.mem_toFinset.mpr ((hmem _).mpr (Or.inl (hold i))))
        heven.equitableOn (fun i => List.mem_toFinset.mpr (hs i)) hse.equitableOn
    · have hsub : cf.lastConfig.groups.keys.toFinset ⊆ newGroups.keys.toFinset := fun k hk => by
        rw [List.mem_toFinset] at hk ⊢
        exact (hmem k).mpr (Or.inl hk)
      exact htransfer.not_mem_of_moved hsub (fun i => List.mem_toFinset.mpr (hold i))
        hse.equitableOn hi (List.mem_toFinset.mpr hin)
  · -- every shard leaves group 0
    refine ⟨fun shards hs _ => ?_, fun _ i _ hin => ?_⟩
    · refine Finset.card_le_card fun i _ => ?_
      rw [Finset.mem_filter]
      refine ⟨Finset.mem_univ i, fun heq => hzero' ?_⟩
      rw [← hall i, ← heq]
      exact hs i
    · rw [hnil] at hin
      cases hin

/-- Two groups with seven and three shards, as `Move` leaves them. -/
def unevenMachine : MemoryConfigStateMachine :=
  ⟨[⟨0, fun i => if i.val < 7 then 1 else 2, [(1, ["a"]), (2, ["b"])]⟩]⟩

theorem join_even_minimal_unevenMachine :
    ∃ cf', unevenMachine.join [(3, ["c"])] = some cf' ∧
      EvenOn cf'.lastConfig.groups.keys cf'.lastConfig.shards ∧
      ∀ shards : Fin nShards → ℤ, (∀ i, shards i ∈ cf'.lastConfig.groups.keys) →
        EvenOn cf'.lastConfig.groups.keys shards →
        moved unevenMachine.lastConfig.shards cf'.lastConfig.shards ≤
          moved unevenMachine.lastConfig.shards shards := by
  obtain ⟨cf', hjoin, -, -, heven, hmin, -⟩ :=
    join_even_minimal unevenMachine [(3, ["c"])] (by decide) (by decide)
      (Or.inl (by decide)) (by decide) (Or.inl (by decide))
  exact ⟨cf', hjoin, heven, hmin⟩

/-- If group 0 is a member, a `Join` takes all of its shards. -/
theorem uneven_join_groupZero :
    ∃ cf : MemoryConfigStateMachine, cf.lastConfig.groups.keys = [0] ∧
      (∀ i, cf.lastConfig.shards i ∈ cf.lastConfig.groups.keys) ∧
      ∃ cf', cf.join [(1, ["a"])] = some cf' ∧ cf'.lastConfig.groups.keys = [0, 1] ∧
        load cf'.lastConfig.shards 0 = 0 ∧ load cf'.lastConfig.shards 1 = nShards :=
  ⟨⟨[⟨0, fun _ => 0, [(0, ["z"])]⟩]⟩, by decide, by decide, _, rfl, by decide +kernel,
    by decide +kernel, by decide +kernel⟩

end Join

section Leave
variable {f : Fin nShards → Option ℤ} {gids : List ℤ}

/-- A shard without group goes to a smallest group. -/
theorem even_adopt {shard : Fin nShards} {target : ℤ} (hf : f shard = none)
    (hmin : ∀ k ∈ gids, load f (some target) ≤ load f (some k))
    (h : ∀ a ∈ gids, ∀ b ∈ gids, load f (some a) ≤ load f (some b) + 1) {a b : ℤ}
    (ha : a ∈ gids) (hb : b ∈ gids) :
    load (Function.update f shard (some target)) (some a) ≤
      load (Function.update f shard (some target)) (some b) + 1 := by
  have htarget : load (Function.update f shard (some target)) (some target) =
      load f (some target) + 1 := load_update_target (by simp [hf])
  have hother : ∀ k, k ≠ target → load (Function.update f shard (some target)) (some k) =
      load f (some k) := fun k hk => load_update_of_ne (by simp [hf]) (by simpa using hk)
  have hab := h a ha b hb
  have hta := hmin a ha
  have htb := hmin b hb
  by_cases hat : a = target
  · by_cases hbt : b = target
    · rw [hat, hbt]
      omega
    · rw [hat, htarget, hother b hbt]
      omega
  · by_cases hbt : b = target
    · rw [hother a hat, hbt, htarget]
      rw [hbt] at hab
      omega
    · rw [hother a hat, hother b hbt]
      exact hab

/-- The shards that are still in a group after some groups have left. -/
theorem load_remaining (shards : Fin nShards → ℤ) {k : ℤ} (hk : k ∉ gids) :
    load (fun i => if shards i ∈ gids then none else some (shards i)) (some k) =
      load shards k := by
  rw [load, load]
  congr 1
  ext i
  by_cases hi : shards i ∈ gids
  · have hne : shards i ≠ k := fun heq => hk (heq ▸ hi)
    simp [hi, hne]
  · simp [hi]

/-- A `Leave` moves the shards of the groups that leave and no others, to groups that stay, and
keeps these even. Without groups all shards are in group 0. -/
theorem leave_even (cf : MemoryConfigStateMachine) (hn : cf.lastConfig.groups.keys.Nodup)
    (hpos : ∀ gid ∈ cf.lastConfig.groups.keys, 0 < gid)
    (hshards : ∀ i, cf.lastConfig.shards i ∈ cf.lastConfig.groups.keys) (gids : List ℤ) :
    (∀ gid, gid ∈ (cf.leave gids).lastConfig.groups.keys ↔
      gid ∈ cf.lastConfig.groups.keys ∧ gid ∉ gids) ∧
    ((cf.leave gids).lastConfig.groups ≠ [] →
      (∀ i, (cf.leave gids).lastConfig.shards i ≠ cf.lastConfig.shards i ↔
        cf.lastConfig.shards i ∈ gids) ∧
      (∀ i, cf.lastConfig.shards i ∈ gids →
        (cf.leave gids).lastConfig.shards i ∈ (cf.leave gids).lastConfig.groups.keys) ∧
      (EvenOn (cf.leave gids).lastConfig.groups.keys cf.lastConfig.shards →
        EvenOn (cf.leave gids).lastConfig.groups.keys (cf.leave gids).lastConfig.shards)) ∧
    ((cf.leave gids).lastConfig.groups = [] → ∀ i, (cf.leave gids).lastConfig.shards i = 0) := by
  have hkeys : ∀ k, k ∈ (gids.foldl GoMap.delete cf.lastConfig.groups).keys ↔
      k ∈ cf.lastConfig.groups.keys ∧ k ∉ gids := fun k => MemoryConfigStateMachine.mem_keys_leave
  by_cases hne : gids.foldl GoMap.delete cf.lastConfig.groups ≠ []
  · -- a shard that has a group keeps it, and the groups stay even
    obtain ⟨shards, hleave, hmem, hkept, heven⟩ := MemoryConfigStateMachine.leave_rule
      (I := fun f => (∀ i, cf.lastConfig.shards i ∉ gids → f i = some (cf.lastConfig.shards i)) ∧
        (EvenOn (gids.foldl GoMap.delete cf.lastConfig.groups).keys cf.lastConfig.shards →
          ∀ a ∈ (gids.foldl GoMap.delete cf.lastConfig.groups).keys,
          ∀ b ∈ (gids.foldl GoMap.delete cf.lastConfig.groups).keys,
          load f (some a) ≤ load f (some b) + 1))
      hn (fun h0 => lt_irrefl _ (hpos 0 h0)) hshards hne
      ⟨fun i hi => if_neg hi, fun h a ha b hb => by
        rw [load_remaining _ ((hkeys a).mp ha).2, load_remaining _ ((hkeys b).mp hb).2]
        exact h a ha b hb⟩
      (fun {f shard target} hf _ hmin hI => ⟨fun i hi => by
        have hne : i ≠ shard := by
          rintro rfl
          rw [hI.1 i hi] at hf
          cases hf
        rw [Function.update_of_ne hne]
        exact hI.1 i hi, fun h a ha b hb => even_adopt hf hmin (hI.2 h) ha hb⟩)
    rw [hleave, MemoryConfigStateMachine.lastConfig_push]
    refine ⟨hkeys, fun _ => ⟨fun i => ?_, fun i _ => hmem i, fun h a ha b hb => ?_⟩,
      fun hnil => absurd hnil hne⟩
    · constructor
      · intro hmoved
        by_contra hi
        exact hmoved (Option.some.inj (hkept i hi))
      · intro hi heq
        have hstays := ((hkeys _).mp (hmem i)).2
        rw [show shards i = cf.lastConfig.shards i from heq] at hstays
        exact hstays hi
    · have hab := heven h a ha b hb
      rwa [load_some, load_some] at hab
  · rw [not_not] at hne
    rw [MemoryConfigStateMachine.leave_of_empty hn hne,
      MemoryConfigStateMachine.lastConfig_push]
    rw [hne] at hkeys
    exact ⟨hkeys, fun h => absurd rfl h, fun _ _ => rfl⟩

/-- Three groups of which one leaves, named twice and with an unknown one. -/
theorem leave_even_threeGroups :
    let cf : MemoryConfigStateMachine := ⟨[⟨0, fun i => if i < 4 then 1 else if i < 7 then 2 else 3,
      [(1, ["a"]), (2, ["b"]), (3, ["c"])]⟩]⟩
    (∀ i, (cf.leave [2, 9, 2]).lastConfig.shards i ≠ cf.lastConfig.shards i ↔
      cf.lastConfig.shards i ∈ [2, 9, 2]) ∧
    EvenOn (cf.leave [2, 9, 2]).lastConfig.groups.keys (cf.leave [2, 9, 2]).lastConfig.shards := by
  intro cf
  obtain ⟨-, hstay, -⟩ := leave_even cf (by decide) (by decide) (by decide) [2, 9, 2]
  obtain ⟨hmoved, -, heven⟩ := hstay (by decide)
  exact ⟨hmoved, heven (by decide)⟩

end Leave

end RaftLabs.Shardctrler
