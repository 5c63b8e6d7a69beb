import Mathlib.Data.List.AList
import Mathlib.Data.List.Sort
import Mathlib.Tactic

/-! Finite maps as lists of entries with distinct keys, for which the order of the entries does
not matter, where an entry of an updated map or list comes from, and the loop that selects the best
element of a list. -/
namespace Basis

section Lookup
variable {K V : Type*} [BEq K] [LawfulBEq K] {m m' : List (K × V)} {k : K}

theorem lookup_eq_some_of_nodup (hn : (m.map Prod.fst).Nodup) {v : V} :
    m.lookup k = some v ↔ (k, v) ∈ m := by
  induction m with
  | nil => simp
  | cons e rest ih =>
    obtain ⟨k', v'⟩ := e
    simp only [List.map_cons, List.nodup_cons] at hn
    rw [List.lookup_cons, List.mem_cons]
    by_cases hk : k = k'
    · subst hk
      have hno : (k, v) ∉ rest := fun hm => hn.1 (List.mem_map_of_mem (f := Prod.fst) hm)
      simp [hno, eq_comm]
    · have hne : (k == k') = false := beq_false_of_ne hk
      simp [hne, hk, ih hn.2]

theorem lookup_isSome_iff_mem_keys : (m.lookup k).isSome ↔ k ∈ m.map Prod.fst := by
  rw [List.lookup_isSome_iff, List.mem_map]
  simp only [beq_iff_eq, eq_comm (a := k)]

theorem lookup_eq_none_iff_notMem_keys : m.lookup k = none ↔ k ∉ m.map Prod.fst := by
  rw [← Option.not_isSome_iff_eq_none, lookup_isSome_iff_mem_keys]

theorem lookup_perm (hn : (m.map Prod.fst).Nodup) (hp : m.Perm m') (k : K) :
    m.lookup k = m'.lookup k := by
  have hn' : (m'.map Prod.fst).Nodup := (hp.map Prod.fst).nodup_iff.mp hn
  ext v
  rw [lookup_eq_some_of_nodup hn, lookup_eq_some_of_nodup hn', hp.mem_iff]

/-- Two lists of entries are the same map if they look the same. -/
theorem perm_of_lookup_eq (hn : (m.map Prod.fst).Nodup) (hn' : (m'.map Prod.fst).Nodup)
    (h : ∀ k, m.lookup k = m'.lookup k) : m.Perm m' := by
  refine (List.perm_ext_iff_of_nodup hn.of_map hn'.of_map).mpr fun ⟨k, v⟩ => ?_
  rw [← lookup_eq_some_of_nodup hn, ← lookup_eq_some_of_nodup hn', h]

end Lookup

section Updates
variable {K V α : Type*} [DecidableEq K] {m : AList fun _ : K => V} {a b : K} {v x : V}

theorem of_lookup_erase (h : (m.erase a).lookup b = some x) : b ≠ a ∧ m.lookup b = some x := by
  have hne : b ≠ a := by
    rintro rfl
    rw [AList.lookup_erase] at h
    cases h
  rw [AList.lookup_erase_ne hne] at h
  exact ⟨hne, h⟩

theorem of_lookup_insert (h : (m.insert a v).lookup b = some x) :
    (b = a ∧ x = v) ∨ (b ≠ a ∧ m.lookup b = some x) := by
  by_cases hb : b = a
  · subst hb
    rw [AList.lookup_insert] at h
    exact Or.inl ⟨rfl, (Option.some.inj h).symm⟩
  · rw [AList.lookup_insert_ne hb] at h
    exact Or.inr ⟨hb, h⟩

theorem of_getElem?_concat {l : List α} {y z : α} {j : ℕ} (h : (l ++ [y])[j]? = some z) :
    l[j]? = some z ∨ (j = l.length ∧ z = y) := by
  rcases lt_trichotomy j l.length with hlt | rfl | hlt
  · rw [List.getElem?_append_left hlt] at h
    exact Or.inl h
  · rw [List.getElem?_concat_length] at h
    exact Or.inr ⟨rfl, (Option.some.inj h).symm⟩
  · rw [List.getElem?_eq_none (by simpa using hlt)] at h
    cases h

end Updates

theorem insertionSort_eq_of_perm {α : Type*} [LinearOrder α] {l l' : List α} (hp : l.Perm l') :
    l.insertionSort (· ≤ ·) = l'.insertionSort (· ≤ ·) := by
  have hl := List.pairwise_insertionSort (· ≤ ·) l
  have hl' := List.pairwise_insertionSort (· ≤ ·) l'
  refine List.Perm.eq_of_pairwise (fun _ _ _ _ => le_antisymm) hl hl' ?_
  exact (List.perm_insertionSort _ l).trans (hp.trans (List.perm_insertionSort _ l').symm)

section Select
variable {α β : Type*} {f : α → β} {r : α → β → Prop} [∀ a b, Decidable (r a b)]

/-- The loop that keeps the best element so far together with its value `f`, where `r a b` says
that the element `a` improves on the value `b`. -/
def select (f : α → β) (r : α → β → Prop) [∀ a b, Decidable (r a b)] (l : List α)
    (best : α × β) : α × β :=
  l.foldl (fun best a => if r a best.2 then (a, f a) else best) best

theorem select_cons (a : α) (rest : List α) (best : α × β) :
    select f r (a :: rest) best = select f r rest (if r a best.2 then (a, f a) else best) := rfl

/-- The loop keeps its start or selects an element that improves on it. -/
theorem select_cases (hmono : ∀ a a' b, r a b → r a' (f a) → r a' b) (l : List α)
    (best : α × β) :
    select f r l best = best ∨ ∃ a ∈ l, r a best.2 ∧ select f r l best = (a, f a) := by
  induction l generalizing best with
  | nil => exact Or.inl rfl
  | cons a rest ih =>
    by_cases ha : r a best.2
    · rw [select_cons, if_pos ha]
      rcases ih (a, f a) with heq | ⟨a', hm, hi, heq⟩
      · exact Or.inr ⟨a, List.mem_cons_self, ha, heq⟩
      · exact Or.inr ⟨a', List.mem_cons_of_mem _ hm, hmono a a' _ ha hi, heq⟩
    · rw [select_cons, if_neg ha]
      exact (ih best).imp_right fun ⟨a', hm, hi, heq⟩ => ⟨a', List.mem_cons_of_mem _ hm, hi, heq⟩

/-- What does not improve on the start does not improve on the selected element. -/
theorem not_improves_select (hmono : ∀ a a' b, r a b → r a' (f a) → r a' b) (l : List α)
    {best : α × β} {a : α} (ha : ¬ r a best.2) : ¬ r a (select f r l best).2 := by
  rcases select_cases hmono l best with heq | ⟨a', -, hi, heq⟩
  · rwa [heq]
  · rw [heq]
    exact fun hi' => ha (hmono a' a _ hi hi')

/-- Nothing in the list improves on the selected element. -/
theorem select_best (hirr : ∀ a, ¬ r a (f a)) (hmono : ∀ a a' b, r a b → r a' (f a) → r a' b)
    {l : List α} (best : α × β) {a : α} (ha : a ∈ l) : ¬ r a (select f r l best).2 := by
  induction l generalizing best with
  | nil => cases ha
  | cons a' rest ih =>
    rcases List.mem_cons.mp ha with rfl | ha
    · by_cases hi : r a best.2
      · rw [select_cons, if_pos hi]
        exact not_improves_select hmono rest (hirr a)
      · rw [select_cons, if_neg hi]
        exact not_improves_select hmono rest hi
    · exact ih _ ha

end Select

end Basis
