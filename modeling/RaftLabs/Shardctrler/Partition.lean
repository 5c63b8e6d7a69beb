import RaftLabs.Basis.AssocList
import RaftLabs.Basis.Balance
import RaftLabs.Shardctrler.StateMachine

/-! The map from groups to shards as a partial assignment of the shards: what the operations on
the map do to the assignment, and how the final loop reads it. -/
namespace RaftLabs.Shardctrler
open Basis

namespace GoMap

variable {V : Type}

abbrev keys (m : GoMap V) : List ℤ := m.map Prod.fst

theorem ne_nil_iff {m : GoMap V} : m ≠ [] ↔ ∃ k, k ∈ m.keys := by
  constructor
  · intro hne
    obtain ⟨e, he⟩ := List.exists_mem_of_ne_nil m hne
    exact ⟨e.1, List.mem_map_of_mem (f := Prod.fst) he⟩
  · rintro ⟨k, hk⟩ rfl
    cases hk

theorem lookup_set (m : GoMap V) (k : ℤ) (v : V) (j : ℤ) :
    (m.set k v).lookup j = if j = k then some v else m.lookup j := by
  induction m with
  | nil =>
    by_cases hj : j = k
    · simp [set, hj]
    · have hne : (j == k) = false := beq_false_of_ne hj
      simp [set, List.lookup_cons, hj, hne]
  | cons e rest ih =>
    obtain ⟨k', v'⟩ := e
    by_cases hk : k' = k
    · subst hk
      by_cases hj : j = k'
      · simp [set, hj]
      · have hne : (j == k') = false := beq_false_of_ne hj
        simp [set, List.lookup_cons, hj, hne]
    · rw [set, if_neg hk, List.lookup_cons, List.lookup_cons, ih]
      by_cases hj : j = k'
      · have hjk : j ≠ k := fun h => hk (hj.symm.trans h)
        simp [hj, hk]
      · have hne : (j == k') = false := beq_false_of_ne hj
        simp [hne]

theorem mem_keys_set {m : GoMap V} {k j : ℤ} {v : V} :
    j ∈ (m.set k v).keys ↔ j = k ∨ j ∈ m.keys := by
  rw [← lookup_isSome_iff_mem_keys, ← lookup_isSome_iff_mem_keys, lookup_set]
  by_cases hj : j = k <;> simp [hj]

theorem nodup_keys_set {m : GoMap V} (hn : m.keys.Nodup) (k : ℤ) (v : V) :
    (m.set k v).keys.Nodup := by
  induction m with
  | nil => simp [set]
  | cons e rest ih =>
    obtain ⟨k', v'⟩ := e
    simp only [List.map_cons, List.nodup_cons] at hn
    by_cases hk : k' = k
    · subst hk
      rw [set, if_pos rfl]
      simpa using hn
    · rw [set, if_neg hk]
      simp only [List.map_cons, List.nodup_cons]
      refine ⟨fun hm => ?_, ih hn.2⟩
      rcases mem_keys_set.mp hm with h | h
      · exact hk h
      · exact hn.1 h

theorem set_of_notMem_keys {m : GoMap V} {k : ℤ} (hk : k ∉ m.keys) (v : V) :
    m.set k v = m ++ [(k, v)] := by
  induction m with
  | nil => rfl
  | cons e rest ih =>
    obtain ⟨k', v'⟩ := e
    simp only [List.map_cons, List.mem_cons, not_or] at hk
    rw [set, if_neg (Ne.symm hk.1), ih hk.2]
    rfl

/-- The loop of `dcopy`. -/
theorem foldl_set {m copy : GoMap V} (hn : (copy ++ m).keys.Nodup) :
    m.foldl (fun copy e => copy.set e.1 e.2) copy = copy ++ m := by
  induction m generalizing copy with
  | nil => simp
  | cons e rest ih =>
    rw [List.append_cons] at hn ⊢
    have hnew : e.1 ∉ GoMap.keys copy := by
      intro hmem
      simp only [List.map_append, List.append_assoc, List.nodup_append] at hn
      exact hn.2.2 e.1 hmem e.1 (by simp) rfl
    rw [List.foldl_cons, set_of_notMem_keys hnew]
    exact ih hn

theorem mem_keys_delete {m : GoMap V} {k j : ℤ} :
    j ∈ (m.delete k).keys ↔ j ≠ k ∧ j ∈ m.keys := by
  simp only [delete, List.mem_map, List.mem_filter, decide_eq_true_eq]
  constructor
  · rintro ⟨e, ⟨hm, hne⟩, rfl⟩
    exact ⟨hne, e, hm, rfl⟩
  · rintro ⟨hne, e, hm, rfl⟩
    exact ⟨e, ⟨hm, hne⟩, rfl⟩

theorem nodup_keys_delete {m : GoMap V} (hn : m.keys.Nodup) (k : ℤ) : (m.delete k).keys.Nodup :=
  hn.sublist (List.filter_sublist.map Prod.fst)

theorem lookup_delete {m : GoMap V} (hn : m.keys.Nodup) (k j : ℤ) :
    (m.delete k).lookup j = if j = k then none else m.lookup j := by
  split_ifs with hj
  · rw [lookup_eq_none_iff_notMem_keys, mem_keys_delete]
    exact fun h => h.1 hj
  · ext v
    rw [lookup_eq_some_of_nodup (nodup_keys_delete hn k), lookup_eq_some_of_nodup hn, delete,
      List.mem_filter]
    simp [hj]

section Slice
variable {m : GoMap (List V)}

theorem slice_set (m : GoMap (List V)) (k : ℤ) (v : List V) (j : ℤ) :
    (m.set k v).slice j = if j = k then v else m.slice j := by
  rw [slice, lookup_set]
  split_ifs <;> rfl

theorem slice_delete (hn : m.keys.Nodup) (k j : ℤ) :
    (m.delete k).slice j = if j = k then [] else m.slice j := by
  rw [slice, lookup_delete hn]
  split_ifs <;> rfl

theorem slice_of_mem (hn : m.keys.Nodup) {k : ℤ} {v : List V} (h : (k, v) ∈ m) :
    m.slice k = v := by
  rw [slice, (lookup_eq_some_of_nodup hn).mpr h, Option.getD_some]

theorem mem_keys_of_mem_slice {k : ℤ} {x : V} (h : x ∈ m.slice k) : k ∈ m.keys := by
  rw [← lookup_isSome_iff_mem_keys]
  rw [slice] at h
  cases hl : m.lookup k with
  | some v => rfl
  | none =>
    rw [hl] at h
    cases h

theorem mem_of_mem_keys (hn : m.keys.Nodup) {k : ℤ} (hk : k ∈ m.keys) : (k, m.slice k) ∈ m := by
  obtain ⟨e, he, rfl⟩ := List.mem_map.mp hk
  rwa [slice_of_mem hn he]

/-- The sum of a weight of the slices of the map. -/
def weight (w : ℕ → ℕ) (m : GoMap (List V)) : ℕ := (m.map fun e => w e.2.length).sum

theorem weight_set {w : ℕ → ℕ} (hw : w 0 = 0) (m : GoMap (List V)) (k : ℤ) (v : List V) :
    weight w (m.set k v) + w (m.slice k).length = weight w m + w v.length := by
  induction m with
  | nil => simp [weight, set, slice, hw]
  | cons e rest ih =>
    obtain ⟨k', v'⟩ := e
    by_cases hk : k' = k
    · subst hk
      simp only [set, if_pos, weight, List.map_cons, List.sum_cons, slice, List.lookup_cons,
        beq_self_eq_true, Option.getD_some]
      omega
    · have hne : (k == k') = false := beq_false_of_ne fun h => hk h.symm
      have hslice : slice ((k', v') :: rest) k = slice rest k := by
        rw [slice, List.lookup_cons, hne, slice]
      rw [hslice, set, if_neg hk]
      simp only [weight, List.map_cons, List.sum_cons] at ih ⊢
      omega

theorem le_weight {w : ℕ → ℕ} (hw : w 0 = 0) (m : GoMap (List V)) (k : ℤ) :
    w (m.slice k).length ≤ weight w m := by
  have := weight_set hw m k []
  simp only [List.length_nil, hw, add_zero] at this
  omega

end Slice

end GoMap

variable {g2s : GoMap (List (Fin nShards))}

theorem load_some (f : Fin nShards → ℤ) (k : ℤ) :
    load (fun i => some (f i)) (some k) = load f k := by
  simp [load]

/-- The map gives the shards to groups as the partial assignment says. -/
structure Assigns (g2s : GoMap (List (Fin nShards))) (f : Fin nShards → Option ℤ) : Prop where
  nodup_keys : g2s.keys.Nodup
  nodup : ∀ k, (g2s.slice k).Nodup
  mem_slice : ∀ {k i}, i ∈ g2s.slice k ↔ f i = some k

namespace Assigns

variable {f : Fin nShards → Option ℤ}

/-- A shard that has no group is given to one. -/
theorem assign (h : Assigns g2s f) {shard : Fin nShards} (hf : f shard = none) (target : ℤ) :
    Assigns (g2s.set target (g2s.slice target ++ [shard]))
      (Function.update f shard (some target)) where
  nodup_keys := GoMap.nodup_keys_set h.nodup_keys _ _
  nodup k := by
    rw [GoMap.slice_set]
    split_ifs with hk
    · refine (h.nodup target).append (List.nodup_singleton _) ?_
      simp [h.mem_slice, hf]
    · exact h.nodup k
  mem_slice {k i} := by
    rw [GoMap.slice_set]
    by_cases hi : i = shard
    · subst hi
      rw [Function.update_self]
      split_ifs with hk
      · simp [hk]
      · simp [h.mem_slice, hf, Ne.symm hk]
    · rw [Function.update_of_ne hi]
      split_ifs with hk
      · simp [h.mem_slice, hi, hk]
      · exact h.mem_slice

/-- The first shard of a group is taken from it. -/
theorem release (h : Assigns g2s f) {source : ℤ} {shard : Fin nShards} {rest : List (Fin nShards)}
    (hs : g2s.slice source = shard :: rest) :
    Assigns (g2s.set source rest) (Function.update f shard none) := by
  have hnodup := h.nodup source
  rw [hs, List.nodup_cons] at hnodup
  have howner : f shard = some source := h.mem_slice.mp (by simp [hs])
  refine ⟨GoMap.nodup_keys_set h.nodup_keys _ _, fun k => ?_, fun {k i} => ?_⟩
  · rw [GoMap.slice_set]
    split_ifs
    · exact hnodup.2
    · exact h.nodup k
  · rw [GoMap.slice_set]
    by_cases hi : i = shard
    · subst hi
      rw [Function.update_self]
      split_ifs with hk
      · simpa using hnodup.1
      · simpa [h.mem_slice, howner] using Ne.symm hk
    · rw [Function.update_of_ne hi, ← h.mem_slice]
      split_ifs with hk
      · subst hk
        simp [hs, hi]
      · exact Iff.rfl

/-- A group is deleted with its shards. -/
theorem delete (h : Assigns g2s f) (gid : ℤ) :
    Assigns (g2s.delete gid) fun i => if f i = some gid then none else f i where
  nodup_keys := GoMap.nodup_keys_delete h.nodup_keys gid
  nodup k := by
    rw [GoMap.slice_delete h.nodup_keys]
    split_ifs
    · exact List.nodup_nil
    · exact h.nodup k
  mem_slice {k i} := by
    rw [GoMap.slice_delete h.nodup_keys]
    by_cases hk : k = gid
    · subst hk
      by_cases hi : f i = some k <;> simp [hi]
    · rw [if_neg hk, h.mem_slice]
      by_cases hi : f i = some gid
      · simp [hi, Ne.symm hk]
      · simp [hi]

/-- Only the slices of the map matter. -/
theorem congr {g2s' : GoMap (List (Fin nShards))} (h : Assigns g2s f) (hn : g2s'.keys.Nodup)
    (hs : ∀ k, g2s'.slice k = g2s.slice k) : Assigns g2s' f where
  nodup_keys := hn
  nodup k := hs k ▸ h.nodup k
  mem_slice {k _} := hs k ▸ h.mem_slice

theorem length_le (h : Assigns g2s f) (k : ℤ) : (g2s.slice k).length ≤ nShards := by
  simpa using (h.nodup k).length_le_card

theorem length_slice (h : Assigns g2s f) (k : ℤ) : (g2s.slice k).length = load f (some k) := by
  rw [← List.toFinset_card_of_nodup (h.nodup k), load]
  congr 1
  ext i
  simp [h.mem_slice]

theorem mem_keys (h : Assigns g2s f) {i : Fin nShards} {k : ℤ} (hf : f i = some k) :
    k ∈ g2s.keys :=
  GoMap.mem_keys_of_mem_slice (h.mem_slice.mpr hf)

end Assigns

/-- A copy of a map enumerates it as it was copied. -/
theorem dcopyWith_eq (e : Enumeration) {groups : GoMap (List String)} (hn : groups.keys.Nodup) :
    dcopyWith e groups = e.order 0 groups :=
  GoMap.foldl_set (((e.perm 0 groups).map Prod.fst).nodup_iff.mpr hn)

section GroupToShards
variable {cf : Config}

/-- The map of the groups without shards. -/
theorem assigns_groups (hn : cf.groups.keys.Nodup) :
    Assigns (cf.groups.map fun e => (e.1, [])) fun _ => none := by
  have hkeys : GoMap.keys (cf.groups.map fun e => (e.1, ([] : List (Fin nShards)))) =
      cf.groups.keys := by simp [GoMap.keys, Function.comp_def]
  have hslice : ∀ k, GoMap.slice (cf.groups.map fun e => (e.1, ([] : List (Fin nShards)))) k =
      [] := by
    intro k
    rw [GoMap.slice]
    cases hl : List.lookup k (cf.groups.map fun e => (e.1, ([] : List (Fin nShards)))) with
    | none => rfl
    | some v =>
      rw [lookup_eq_some_of_nodup (by rw [← GoMap.keys, hkeys]; exact hn)] at hl
      obtain ⟨e, -, he⟩ := List.mem_map.mp hl
      exact (Prod.mk.inj he).2.symm
  exact ⟨by rw [hkeys]; exact hn, fun k => by simp [hslice], fun {k i} => by simp [hslice]⟩

/-- The loop of `GroupToShards` over a list of shards that have no group yet. -/
theorem groupToShards_loop (cf : Config) {f : Fin nShards → Option ℤ} (h : Assigns g2s f)
    {l : List (Fin nShards)} (hl : l.Nodup) (hf : ∀ i ∈ l, f i = none) :
    Assigns (l.foldl (fun g2s shard =>
        g2s.set (cf.shards shard) (g2s.slice (cf.shards shard) ++ [shard])) g2s)
      (fun i => if i ∈ l then some (cf.shards i) else f i) := by
  induction l generalizing g2s f with
  | nil => simpa using h
  | cons shard rest ih =>
    rw [List.nodup_cons] at hl
    have hnext := h.assign (hf shard List.mem_cons_self) (cf.shards shard)
    have hrest : ∀ i ∈ rest, Function.update f shard (some (cf.shards shard)) i = none := by
      intro i hi
      have hne : i ≠ shard := fun heq => hl.1 (heq ▸ hi)
      rw [Function.update_of_ne hne]
      exact hf i (List.mem_cons_of_mem _ hi)
    have hall := ih hnext hl.2 hrest
    rw [List.foldl_cons]
    convert hall using 2 with i
    by_cases hi : i = shard
    · subst hi
      simp [hl.1]
    · simp [hi]

theorem mem_keys_loop {k : ℤ} {l : List (Fin nShards)} :
    k ∈ GoMap.keys (l.foldl (fun g2s shard =>
        g2s.set (cf.shards shard) (g2s.slice (cf.shards shard) ++ [shard])) g2s) ↔
      k ∈ g2s.keys ∨ ∃ i ∈ l, cf.shards i = k := by
  induction l generalizing g2s with
  | nil => simp
  | cons shard rest ih =>
    rw [List.foldl_cons, ih, GoMap.mem_keys_set]
    simp only [List.exists_mem_cons_iff]
    tauto

theorem weight_loop {l : List (Fin nShards)} :
    GoMap.weight id (l.foldl (fun g2s shard =>
        g2s.set (cf.shards shard) (g2s.slice (cf.shards shard) ++ [shard])) g2s) =
      GoMap.weight id g2s + l.length := by
  induction l generalizing g2s with
  | nil => rfl
  | cons shard rest ih =>
    rw [List.foldl_cons, ih, List.length_cons]
    have := GoMap.weight_set (w := id) rfl g2s (cf.shards shard)
      (g2s.slice (cf.shards shard) ++ [shard])
    simp only [id_eq, List.length_append, List.length_singleton] at this
    omega

theorem groupToShards_assigns (hn : cf.groups.keys.Nodup) :
    Assigns (groupToShards cf) fun i => some (cf.shards i) := by
  have h := groupToShards_loop cf (assigns_groups hn) (List.nodup_finRange nShards)
    fun _ _ => rfl
  simp only [List.mem_finRange, if_true] at h
  exact h

theorem mem_keys_groupToShards {k : ℤ} :
    k ∈ (groupToShards cf).keys ↔ k ∈ cf.groups.keys ∨ ∃ i, cf.shards i = k := by
  change k ∈ GoMap.keys (List.foldl _ (cf.groups.map fun entry => (entry.1, [])) _) ↔ _
  rw [mem_keys_loop]
  simp [GoMap.keys, Function.comp_def]

theorem weight_groupToShards : GoMap.weight id (groupToShards cf) = nShards := by
  change GoMap.weight id (List.foldl _ (cf.groups.map fun entry => (entry.1, [])) _) = _
  rw [weight_loop]
  simp [GoMap.weight, Function.comp_def]

end GroupToShards

section Leave
variable {f : Fin nShards → Option ℤ} {orphanShards : List (Fin nShards)}

/-- The map gives the shards to groups as the partial assignment says, and the list holds the
others, each of them once. -/
structure Splits (g2s : GoMap (List (Fin nShards))) (orphanShards : List (Fin nShards))
    (f : Fin nShards → Option ℤ) : Prop extends Assigns g2s f where
  nodup_orphans : orphanShards.Nodup
  mem_orphans : ∀ {i}, i ∈ orphanShards ↔ f i = none

theorem groupToShards_splits {config : Config} (hn : config.groups.keys.Nodup) :
    Splits (groupToShards config) [] fun i => some (config.shards i) where
  toAssigns := groupToShards_assigns hn
  nodup_orphans := List.nodup_nil
  mem_orphans := by simp

/-- A group that leaves makes its shards orphans. -/
theorem Splits.leave (h : Splits g2s orphanShards f) (gid : ℤ) :
    Splits (g2s.delete gid) (orphanShards ++ g2s.slice gid)
      fun i => if f i = some gid then none else f i where
  toAssigns := h.toAssigns.delete gid
  nodup_orphans := by
    refine h.nodup_orphans.append (h.nodup gid) fun i hi hi' => ?_
    rw [h.mem_orphans] at hi
    rw [h.mem_slice, hi] at hi'
    cases hi'
  mem_orphans {i} := by
    rw [List.mem_append, h.mem_orphans, h.mem_slice]
    by_cases hi : f i = some gid <;> simp [hi]

/-- The loop of `Leave` over the groups that leave. -/
theorem Splits.leave_loop (h : Splits g2s orphanShards f) (gids : List ℤ) :
    let acc := gids.foldl (fun acc gid => (GoMap.delete acc.1 gid, acc.2 ++ GoMap.slice acc.1 gid))
      (g2s, orphanShards)
    Splits acc.1 acc.2 (fun i => if ∃ gid ∈ gids, f i = some gid then none else f i) ∧
      ∀ k, k ∈ GoMap.keys acc.1 ↔ k ∈ g2s.keys ∧ k ∉ gids := by
  induction gids generalizing g2s orphanShards f with
  | nil => simpa using h
  | cons gid rest ih =>
    obtain ⟨hs, hkeys⟩ := ih (h.leave gid)
    refine ⟨?_, fun k => ?_⟩
    · rw [List.foldl_cons]
      convert hs using 2 with i
      by_cases hi : f i = some gid <;> simp [hi]
    · rw [List.foldl_cons, hkeys, GoMap.mem_keys_delete]
      simp only [List.mem_cons, not_or]
      tauto

/-- An orphan is given to a group. -/
theorem Splits.adopt {shard : Fin nShards} {rest : List (Fin nShards)}
    (h : Splits g2s (shard :: rest) f) (target : ℤ) :
    Splits (g2s.set target (g2s.slice target ++ [shard])) rest
      (Function.update f shard (some target)) where
  toAssigns := h.assign (h.mem_orphans.mp List.mem_cons_self) target
  nodup_orphans := (List.nodup_cons.mp h.nodup_orphans).2
  mem_orphans {i} := by
    by_cases hi : i = shard
    · subst hi
      simpa using (List.nodup_cons.mp h.nodup_orphans).1
    · rw [Function.update_of_ne hi, ← h.mem_orphans, List.mem_cons]
      simp [hi]

/-- The loop of `Leave` over the orphans gives a group to each of them and keeps what every
round keeps. -/
theorem Splits.distribute {I : GoMap (List (Fin nShards)) → (Fin nShards → Option ℤ) → Prop}
    (hstep : ∀ {g2s shard rest f}, Splits g2s (shard :: rest) f → I g2s f →
      I (g2s.set (getGidWithMinShards g2s) (g2s.slice (getGidWithMinShards g2s) ++ [shard]))
        (Function.update f shard (some (getGidWithMinShards g2s))))
    (h : Splits g2s orphanShards f) (hi : I g2s f) :
    ∃ f', Splits (adoptAll orphanShards g2s) [] f' ∧ I (adoptAll orphanShards g2s) f' := by
  induction orphanShards generalizing g2s f with
  | nil => exact ⟨f, h, hi⟩
  | cons shard rest ih => exact ih (h.adopt _) (hstep h hi)

end Leave

section NewShards

/-- The loop over the shards of one group. -/
theorem newShards_group (gid : ℤ) (l : List (Fin nShards)) (shards : Fin nShards → ℤ)
    (i : Fin nShards) :
    l.foldl (fun shards shard => Function.update shards shard gid) shards i =
      if i ∈ l then gid else shards i := by
  induction l generalizing shards with
  | nil => simp
  | cons shard rest ih =>
    rw [List.foldl_cons, ih]
    by_cases hi : i = shard
    · simp [hi]
    · simp [hi]

theorem newShards_loop (m : GoMap (List (Fin nShards))) (shards : Fin nShards → ℤ)
    (i : Fin nShards) :
    (m.foldl (fun shards e =>
        e.2.foldl (fun shards shard => Function.update shards shard e.1) shards) shards i =
      shards i ∧ ∀ e ∈ m, i ∉ e.2) ∨
    ∃ e ∈ m, i ∈ e.2 ∧ m.foldl (fun shards e =>
        e.2.foldl (fun shards shard => Function.update shards shard e.1) shards) shards i =
          e.1 := by
  induction m generalizing shards with
  | nil => exact Or.inl ⟨rfl, fun e he => by cases he⟩
  | cons e rest ih =>
    rw [List.foldl_cons]
    rcases ih (e.2.foldl (fun shards shard => Function.update shards shard e.1) shards) with
      ⟨heq, hno⟩ | ⟨e', he', hi, heq⟩
    · rw [heq, newShards_group]
      by_cases hi : i ∈ e.2
      · exact Or.inr ⟨e, List.mem_cons_self, hi, if_pos hi⟩
      · refine Or.inl ⟨if_neg hi, fun e' he' => ?_⟩
        rcases List.mem_cons.mp he' with rfl | he'
        · exact hi
        · exact hno e' he'
    · exact Or.inr ⟨e', List.mem_cons_of_mem _ he', hi, heq⟩

/-- The final loop writes the assignment, with group 0 for the shards that have none. -/
theorem Assigns.newShards_eq {f : Fin nShards → Option ℤ} (h : Assigns g2s f) (i : Fin nShards) :
    newShards g2s i = (f i).getD 0 := by
  rcases newShards_loop g2s (fun _ => 0) i with ⟨heq, hno⟩ | ⟨e, he, hi, heq⟩
  · have hf : f i = none := by
      cases hk : f i with
      | none => rfl
      | some k =>
        have hmem := h.mem_slice.mpr hk
        exact absurd hmem
          (hno _ (GoMap.mem_of_mem_keys h.nodup_keys (GoMap.mem_keys_of_mem_slice hmem)))
    refine Eq.trans heq ?_
    rw [hf, Option.getD_none]
  · rw [← GoMap.slice_of_mem h.nodup_keys he] at hi
    refine Eq.trans heq ?_
    rw [h.mem_slice.mp hi, Option.getD_some]

end NewShards

end RaftLabs.Shardctrler
