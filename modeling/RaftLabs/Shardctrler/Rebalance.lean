import RaftLabs.Shardctrler.Partition

/-! The selection of the largest and the smallest group, and the rebalancing loop of `Join`: it
ends within its fuel from every map of the shards, because it takes the shards of group 0 one by
one and then brings the sizes of the groups closer together. -/
namespace RaftLabs.Shardctrler
open Basis

variable {g2s g2s' : GoMap (List (Fin nShards))}

theorem mem_sortedKeys {k : ℤ} : k ∈ sortedKeys g2s ↔ k ∈ g2s.keys :=
  (List.perm_insertionSort _ _).mem_iff

/-- The group selected with its size: no group but 0 is smaller. -/
theorem getGidWithMinShards_select (g2s : GoMap (List (Fin nShards))) :
    ∃ best : ℤ × ℕ, getGidWithMinShards g2s = best.1 ∧
      (best = (-1, nShards + 1) ∨
        ∃ gid ∈ g2s.keys, gid ≠ 0 ∧ best = (gid, (g2s.slice gid).length)) ∧
      ∀ gid ∈ g2s.keys, gid ≠ 0 → best.2 ≤ (g2s.slice gid).length := by
  let size : ℤ → ℕ := fun gid => (g2s.slice gid).length
  let smaller : ℤ → ℕ → Prop := fun gid best => gid ≠ 0 ∧ size gid < best
  have hmono : ∀ gid gid' best, smaller gid best → smaller gid' (size gid) → smaller gid' best :=
    fun _ _ _ h h' => ⟨h'.1, h'.2.trans h.2⟩
  refine ⟨select size smaller (sortedKeys g2s) (-1, nShards + 1), rfl, ?_, fun gid hk hne => ?_⟩
  · rcases select_cases hmono (sortedKeys g2s) (-1, nShards + 1) with heq | ⟨gid, hk, hi, heq⟩
    · exact Or.inl heq
    · exact Or.inr ⟨gid, mem_sortedKeys.mp hk, hi.1, heq⟩
  · by_contra hlt
    exact select_best (fun _ h => lt_irrefl _ h.2) hmono _ (mem_sortedKeys.mpr hk)
      ⟨hne, not_le.mp hlt⟩

/-- No shard goes to group 0. -/
theorem getGidWithMinShards_ne_zero (g2s : GoMap (List (Fin nShards))) :
    getGidWithMinShards g2s ≠ 0 := by
  obtain ⟨best, heq, hbest, -⟩ := getGidWithMinShards_select g2s
  rw [heq]
  rcases hbest with rfl | ⟨gid, -, hne, rfl⟩
  · decide
  · exact hne

/-- If there is a group, the selected one is a smallest of them. -/
theorem getGidWithMinShards_spec (hlen : ∀ k, (g2s.slice k).length ≤ nShards) {k : ℤ}
    (hk : k ∈ g2s.keys) (hk0 : k ≠ 0) :
    getGidWithMinShards g2s ∈ g2s.keys ∧
      (g2s.slice (getGidWithMinShards g2s)).length ≤ (g2s.slice k).length := by
  obtain ⟨best, heq, hbest, hmin⟩ := getGidWithMinShards_select g2s
  have hle := hmin k hk hk0
  rw [heq]
  rcases hbest with rfl | ⟨gid, hgid, -, rfl⟩
  · exact absurd (hle.trans (hlen k)) (Nat.not_succ_le_self _)
  · exact ⟨hgid, hle⟩

theorem getGidWithMaxShards_of_zero (h : 0 < (g2s.slice 0).length) :
    getGidWithMaxShards g2s = 0 := if_pos h

/-- If no shard is in group 0, the selected group is a largest one. -/
theorem getGidWithMaxShards_spec (h : g2s.slice 0 = []) {k : ℤ} (hk : k ∈ g2s.keys) :
    getGidWithMaxShards g2s ∈ g2s.keys ∧
      (g2s.slice k).length ≤ (g2s.slice (getGidWithMaxShards g2s)).length := by
  let size : ℤ → ℤ := fun gid => (g2s.slice gid).length
  let larger : ℤ → ℤ → Prop := fun gid best => best < size gid
  have hmono : ∀ gid gid' best, larger gid best → larger gid' (size gid) → larger gid' best :=
    fun _ _ _ h h' => lt_trans h h'
  have hsel : getGidWithMaxShards g2s =
      (select size larger (sortedKeys g2s) (-1, -1)).1 := by
    rw [getGidWithMaxShards, getGidWithMaxShardsWith, if_neg (by simp [h])]
    rfl
  have hirr : ∀ gid, ¬ larger gid (size gid) := fun _ => lt_irrefl _
  have hbest := select_best hirr hmono (-1, -1) (mem_sortedKeys.mpr hk)
  rw [hsel]
  rcases select_cases hmono (sortedKeys g2s) (-1, -1) with heq | ⟨gid, hgid, -, heq⟩
  · rw [heq] at hbest
    exact absurd (show (-1 : ℤ) < (g2s.slice k).length by omega) hbest
  · rw [heq] at hbest ⊢
    have hle : size k ≤ size gid := not_lt.mp hbest
    exact ⟨mem_sortedKeys.mp hgid, Int.ofNat_le.mp hle⟩

/-- The condition on which the loop of `Join` ends. -/
def Balanced (g2s : GoMap (List (Fin nShards))) : Prop :=
  getGidWithMaxShards g2s ≠ 0 ∧
    ((g2s.slice (getGidWithMaxShards g2s)).length : ℤ) -
      (g2s.slice (getGidWithMinShards g2s)).length ≤ 1

instance (g2s : GoMap (List (Fin nShards))) : Decidable (Balanced g2s) :=
  inferInstanceAs (Decidable (_ ∧ _))

/-- One round of the loop: the first shard of the largest group goes to the smallest. -/
def moveShard (g2s : GoMap (List (Fin nShards))) (shard : Fin nShards) :
    GoMap (List (Fin nShards)) :=
  let source := getGidWithMaxShards g2s
  let target := getGidWithMinShards g2s
  let g2s := g2s.set target (g2s.slice target ++ [shard])
  g2s.set source ((g2s.slice source).drop 1)

/-- A round of the loop in a map that is not balanced. -/
structure Round (g2s g2s' : GoMap (List (Fin nShards))) (shard : Fin nShards)
    (rest : List (Fin nShards)) : Prop where
  unbalanced : ¬ Balanced g2s
  source : g2s.slice (getGidWithMaxShards g2s) = shard :: rest
  next : g2s' = moveShard g2s shard

/-- The loop, started in the first map, comes to the second one. -/
def Reaches : GoMap (List (Fin nShards)) → GoMap (List (Fin nShards)) → Prop :=
  Relation.ReflTransGen fun g2s g2s' => ∃ shard rest, Round g2s g2s' shard rest

theorem rebalance_of_balanced (fuel : ℕ) (h : Balanced g2s) :
    rebalance (fuel + 1) g2s = some g2s := if_pos h

theorem rebalance_of_unbalanced (fuel : ℕ) (h : ¬ Balanced g2s) :
    rebalance (fuel + 1) g2s =
      match g2s.slice (getGidWithMaxShards g2s) with
      | [] => none
      | shard :: _ => rebalance fuel (moveShard g2s shard) := if_neg h

theorem Round.rebalance_succ {shard : Fin nShards} {rest : List (Fin nShards)}
    (h : Round g2s g2s' shard rest) (fuel : ℕ) :
    rebalance (fuel + 1) g2s = rebalance fuel g2s' := by
  rw [rebalance_of_unbalanced fuel h.unbalanced, h.source, h.next]

/-- More fuel does not change the result of the loop. -/
theorem rebalance_mono {fuel fuel' : ℕ} (hle : fuel ≤ fuel')
    (hr : rebalance fuel g2s = some g2s') : rebalance fuel' g2s = some g2s' := by
  induction fuel generalizing g2s fuel' with
  | zero => cases hr
  | succ fuel ih =>
    obtain ⟨fuel', rfl⟩ : ∃ k, fuel' = k + 1 := Nat.exists_eq_add_one.mpr (by omega)
    by_cases hb : Balanced g2s
    · rw [rebalance_of_balanced fuel hb] at hr
      rw [rebalance_of_balanced fuel' hb, hr]
    · rw [rebalance_of_unbalanced fuel hb] at hr
      rw [rebalance_of_unbalanced fuel' hb]
      cases hs : g2s.slice (getGidWithMaxShards g2s) with
      | nil =>
        rw [hs] at hr
        cases hr
      | cons shard rest =>
        rw [hs] at hr
        exact ih (by omega) hr

/-- What every round keeps holds at the end of the loop, in a balanced map. -/
theorem rebalance_invariant {I : GoMap (List (Fin nShards)) → Prop}
    (hstep : ∀ {g2s g2s' shard rest}, Round g2s g2s' shard rest → I g2s → I g2s') {fuel : ℕ}
    (hr : rebalance fuel g2s = some g2s') (hi : I g2s) : I g2s' ∧ Balanced g2s' := by
  induction fuel generalizing g2s with
  | zero => cases hr
  | succ fuel ih =>
    by_cases hb : Balanced g2s
    · rw [rebalance_of_balanced fuel hb] at hr
      obtain rfl := Option.some.inj hr
      exact ⟨hi, hb⟩
    · cases hs : g2s.slice (getGidWithMaxShards g2s) with
      | nil =>
        rw [rebalance_of_unbalanced fuel hb, hs] at hr
        cases hr
      | cons shard rest =>
        have hround : Round g2s _ shard rest := ⟨hb, hs, rfl⟩
        rw [hround.rebalance_succ] at hr
        exact ih hr (hstep hround hi)

namespace Round

variable {shard : Fin nShards} {rest : List (Fin nShards)}

/-- An unbalanced map has its largest and its smallest group apart. -/
theorem source_ne_target (h : Round g2s g2s' shard rest) :
    getGidWithMaxShards g2s ≠ getGidWithMinShards g2s := by
  intro heq
  refine h.unbalanced ⟨heq ▸ getGidWithMinShards_ne_zero g2s, ?_⟩
  rw [heq]
  omega

theorem eq_set (h : Round g2s g2s' shard rest) :
    g2s' = (g2s.set (getGidWithMinShards g2s)
      (g2s.slice (getGidWithMinShards g2s) ++ [shard])).set (getGidWithMaxShards g2s) rest := by
  rw [h.next, moveShard, GoMap.slice_set, if_neg h.source_ne_target, h.source, List.drop_one,
    List.tail_cons]

theorem slice (h : Round g2s g2s' shard rest) (k : ℤ) :
    g2s'.slice k = if k = getGidWithMaxShards g2s then rest
      else if k = getGidWithMinShards g2s then g2s.slice k ++ [shard] else g2s.slice k := by
  rw [h.eq_set, GoMap.slice_set, GoMap.slice_set]
  split_ifs with h₁ h₂
  · rfl
  · rw [h₂]
  · rfl

theorem mem_keys (h : Round g2s g2s' shard rest) {k : ℤ} :
    k ∈ g2s'.keys ↔ k = getGidWithMinShards g2s ∨ k ∈ g2s.keys := by
  have hsource : getGidWithMaxShards g2s ∈ g2s.keys :=
    GoMap.mem_keys_of_mem_slice (x := shard) (by simp [h.source])
  rw [h.eq_set, GoMap.mem_keys_set, GoMap.mem_keys_set]
  constructor
  · rintro (rfl | h)
    · exact Or.inr hsource
    · exact h
  · exact Or.inr

theorem nodup_keys (h : Round g2s g2s' shard rest) (hn : g2s.keys.Nodup) : g2s'.keys.Nodup := by
  rw [h.eq_set]
  exact GoMap.nodup_keys_set (GoMap.nodup_keys_set hn _ _) _ _

/-- The shard changes its group. -/
theorem assigns {f : Fin nShards → Option ℤ} (h : Round g2s g2s' shard rest)
    (ha : Assigns g2s f) :
    Assigns g2s' (Function.update f shard (some (getGidWithMinShards g2s))) := by
  have hmove := (ha.release h.source).assign (Function.update_self shard none f)
    (getGidWithMinShards g2s)
  rw [Function.update_idem] at hmove
  refine hmove.congr (h.nodup_keys ha.nodup_keys) fun k => ?_
  rw [h.slice, GoMap.slice_set, GoMap.slice_set, GoMap.slice_set, if_neg h.source_ne_target.symm]
  by_cases hk : k = getGidWithMaxShards g2s
  · rw [if_pos hk, if_neg (hk ▸ h.source_ne_target), if_pos hk]
  · rw [if_neg hk]
    by_cases hk' : k = getGidWithMinShards g2s
    · rw [if_pos hk', if_pos hk', hk']
    · rw [if_neg hk', if_neg hk', if_neg hk]

/-- The change of a weight of the sizes. -/
theorem weight (h : Round g2s g2s' shard rest) {w : ℕ → ℕ} (hw : w 0 = 0) :
    GoMap.weight w g2s' + w (rest.length + 1) +
      w (g2s.slice (getGidWithMinShards g2s)).length =
    GoMap.weight w g2s + w rest.length +
      w ((g2s.slice (getGidWithMinShards g2s)).length + 1) := by
  have htarget := GoMap.weight_set hw g2s (getGidWithMinShards g2s)
    (g2s.slice (getGidWithMinShards g2s) ++ [shard])
  have hsource := GoMap.weight_set hw (g2s.set (getGidWithMinShards g2s)
    (g2s.slice (getGidWithMinShards g2s) ++ [shard])) (getGidWithMaxShards g2s) rest
  rw [← h.eq_set, GoMap.slice_set, if_neg h.source_ne_target, h.source] at hsource
  rw [List.length_append, List.length_singleton] at htarget
  rw [List.length_cons] at hsource
  omega

end Round

/-- The map holds all shards. -/
structure Full (g2s : GoMap (List (Fin nShards))) : Prop where
  nodup_keys : g2s.keys.Nodup
  total : GoMap.weight id g2s = nShards

namespace Full

theorem length_le (h : Full g2s) (k : ℤ) : (g2s.slice k).length ≤ nShards :=
  (GoMap.le_weight (w := id) rfl g2s k).trans h.total.le

theorem exists_mem (h : Full g2s) : ∃ k ∈ g2s.keys, 0 < (g2s.slice k).length := by
  by_contra hno
  push Not at hno
  have hzero : GoMap.weight id g2s = 0 := by
    refine List.sum_eq_zero fun n hn => ?_
    obtain ⟨e, he, rfl⟩ := List.mem_map.mp hn
    have := hno e.1 (List.mem_map_of_mem (f := Prod.fst) he)
    rw [GoMap.slice_of_mem h.nodup_keys he] at this
    exact Nat.le_zero.mp this
  exact absurd (hzero.symm.trans h.total) (by decide)

/-- The group from which a shard is taken has one. -/
theorem source_ne_nil (h : Full g2s) : g2s.slice (getGidWithMaxShards g2s) ≠ [] := by
  rw [← List.length_pos_iff]
  by_cases hzero : 0 < (g2s.slice 0).length
  · rwa [getGidWithMaxShards_of_zero hzero]
  · obtain ⟨k, hk, hpos⟩ := h.exists_mem
    have hnil : g2s.slice 0 = [] := List.length_eq_zero_iff.mp (by omega)
    exact hpos.trans_le (getGidWithMaxShards_spec hnil hk).2

theorem exists_round (h : Full g2s) (hb : ¬ Balanced g2s) :
    ∃ g2s' shard rest, Round g2s g2s' shard rest := by
  obtain ⟨shard, rest, hs⟩ := List.exists_cons_of_ne_nil h.source_ne_nil
  exact ⟨_, shard, rest, hb, hs, rfl⟩

theorem round (h : Full g2s) {shard : Fin nShards} {rest : List (Fin nShards)}
    (hr : Round g2s g2s' shard rest) : Full g2s' := by
  refine ⟨hr.nodup_keys h.nodup_keys, ?_⟩
  have hw := hr.weight (w := id) rfl
  have htotal := h.total
  simp only [id_eq] at hw
  omega

/-- The maps that the loop goes through hold all shards. -/
theorem reaches (h : Full g2s) (hr : Reaches g2s g2s') : Full g2s' := by
  induction hr with
  | refl => exact h
  | tail _ hround ih =>
    obtain ⟨shard, rest, hround⟩ := hround
    exact ih.round hround

end Full

theorem groupToShards_full {cf : Config} (hn : cf.groups.keys.Nodup) : Full (groupToShards cf) :=
  ⟨(groupToShards_assigns hn).nodup_keys, weight_groupToShards⟩

/-- The sum of the squares of the sizes of the groups. -/
def squares (g2s : GoMap (List (Fin nShards))) : ℕ := GoMap.weight (· ^ 2) g2s

theorem sum_sq_le (l : List ℕ) : (l.map (· ^ 2)).sum ≤ l.sum ^ 2 := by
  induction l with
  | nil => simp
  | cons x rest ih =>
    simp only [List.map_cons, List.sum_cons]
    nlinarith [Nat.zero_le (x * rest.sum)]

theorem Full.squares_le (h : Full g2s) : squares g2s ≤ nShards ^ 2 := by
  rw [← h.total]
  have := sum_sq_le (g2s.map fun e => e.2.length)
  simpa [squares, GoMap.weight, Function.comp_def] using this

/-- Once group 0 is empty, each round makes the sum of the squares smaller. -/
theorem Round.squares_lt {shard : Fin nShards} {rest : List (Fin nShards)}
    (h : Round g2s g2s' shard rest) (hsource : getGidWithMaxShards g2s ≠ 0) :
    squares g2s' + 2 ≤ squares g2s := by
  have hw : squares g2s' + (rest.length + 1) ^ 2 +
      (g2s.slice (getGidWithMinShards g2s)).length ^ 2 = squares g2s + rest.length ^ 2 +
      ((g2s.slice (getGidWithMinShards g2s)).length + 1) ^ 2 := h.weight (w := (· ^ 2)) rfl
  have hgap : (g2s.slice (getGidWithMinShards g2s)).length + 1 ≤ rest.length := by
    have hunb := h.unbalanced
    rw [Balanced, not_and] at hunb
    have hdiff := hunb hsource
    rw [h.source, List.length_cons] at hdiff
    push_cast at hdiff
    omega
  nlinarith

theorem rebalance_isSome_of_empty (h : Full g2s) (hzero : g2s.slice 0 = []) {fuel : ℕ}
    (hfuel : squares g2s < 2 * fuel) : (rebalance fuel g2s).isSome := by
  induction fuel generalizing g2s with
  | zero => omega
  | succ fuel ih =>
    by_cases hb : Balanced g2s
    · rw [rebalance_of_balanced fuel hb, Option.isSome_some]
    · obtain ⟨g2s', shard, rest, hr⟩ := h.exists_round hb
      have hsource : getGidWithMaxShards g2s ≠ 0 := by
        intro heq
        exact h.source_ne_nil (heq ▸ hzero)
      have hless := hr.squares_lt hsource
      rw [hr.rebalance_succ]
      refine ih (h.round hr) ?_ (by omega)
      rw [hr.slice, if_neg hsource.symm, if_neg (getGidWithMinShards_ne_zero g2s).symm, hzero]

/-- The loop of `Join` ends from every map of the shards: the shards of group 0 are taken first,
and half the square of the number of shards bounds the rounds after that. -/
theorem rebalance_isSome (h : Full g2s) {fuel : ℕ}
    (hfuel : (g2s.slice 0).length + nShards ^ 2 / 2 < fuel) : (rebalance fuel g2s).isSome := by
  induction fuel generalizing g2s with
  | zero => omega
  | succ fuel ih =>
    by_cases hzero : 0 < (g2s.slice 0).length
    · have hsource := getGidWithMaxShards_of_zero hzero
      have hb : ¬ Balanced g2s := fun hb => hb.1 hsource
      obtain ⟨g2s', shard, rest, hr⟩ := h.exists_round hb
      rw [hr.rebalance_succ]
      refine ih (h.round hr) ?_
      have hslice := hr.slice 0
      rw [if_pos hsource.symm] at hslice
      have hlen := congrArg List.length hr.source
      rw [hsource, List.length_cons] at hlen
      rw [hslice]
      omega
    · refine rebalance_isSome_of_empty h (List.length_eq_zero_iff.mp (by omega)) ?_
      have := h.squares_le
      omega

/-- The loop of `Join` ends on every configuration: each shard is taken from group 0 at most once,
and half the square of the number of shards bounds the other rounds. -/
theorem rebalance_groupToShards_isSome (cf : Config) (hn : cf.groups.keys.Nodup) (fuel : ℕ)
    (hfuel : nShards + nShards ^ 2 / 2 < fuel) :
    (rebalance fuel (groupToShards cf)).isSome := by
  have hfull := groupToShards_full hn
  exact rebalance_isSome hfull
    ((Nat.add_le_add_right (hfull.length_le 0) _).trans_lt hfuel)

/-- The result of the loop is an assignment of the shards. -/
theorem rebalance_groupToShards (cf : Config) (hn : cf.groups.keys.Nodup) :
    ∃ g2s f, rebalance (nShards * nShards) (groupToShards cf) = some g2s ∧ Assigns g2s f := by
  obtain ⟨g2s, hr⟩ := Option.isSome_iff_exists.mp
    (rebalance_groupToShards_isSome cf hn (nShards * nShards) (by decide))
  obtain ⟨⟨f, hf⟩, -⟩ := rebalance_invariant (I := fun g2s => ∃ f, Assigns g2s f)
    (fun hround ⟨f, hf⟩ => ⟨_, hround.assigns hf⟩) hr ⟨_, groupToShards_assigns hn⟩
  exact ⟨g2s, f, hr, hf⟩

end RaftLabs.Shardctrler
