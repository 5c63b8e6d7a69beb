import Mathlib.Data.Set.Equitable
import Mathlib.Tactic

/-! Loads over a finite set of bins, and the greedy transfer of items from a fullest to an emptiest
bin: it reaches an equitable assignment with as few moved items as possible. -/
namespace Basis
open Finset

section Loads
variable {κ : Type*} {K : Finset κ} {c m n : κ → ℕ}

theorem sum_sub_comm (h : ∑ k ∈ K, c k = ∑ k ∈ K, n k) :
    ∑ k ∈ K, (c k - n k) = ∑ k ∈ K, (n k - c k) := by
  have hboth : ∑ k ∈ K, (c k + (n k - c k)) = ∑ k ∈ K, (n k + (c k - n k)) :=
    sum_congr rfl fun k _ => by omega
  rw [sum_add_distrib, sum_add_distrib] at hboth
  omega

/-- Among the equitable loads of one sum, those in which no bin that gained is fuller than one that
lost fall least short of the loads at the start. -/
theorem shortfall_le (hn : (K : Set κ).EquitableOn n) (hm : (K : Set κ).EquitableOn m)
    (hcn : ∑ k ∈ K, c k = ∑ k ∈ K, n k) (hcm : ∑ k ∈ K, c k = ∑ k ∈ K, m k)
    (happart : ∀ j ∈ K, ∀ k ∈ K, n j < c j → c k < n k → n k ≤ n j) :
    ∑ k ∈ K, (c k - n k) ≤ ∑ k ∈ K, (c k - m k) := by
  -- both loads take the values `low` and `low + 1` only
  rw [equitableOn_iff_le_le_add_one, ← hcn] at hn
  rw [equitableOn_iff_le_le_add_one, ← hcm] at hm
  set low := (∑ k ∈ K, c k) / K.card
  by_cases hlost : ∃ j ∈ K, n j < c j ∧ n j = low
  · -- no bin gained more than `low`: compare what the bins gain
    obtain ⟨j, hj, hlt, hjlow⟩ := hlost
    rw [sum_sub_comm hcn, sum_sub_comm hcm]
    refine sum_le_sum fun k hk => ?_
    have := happart j hj k hk hlt
    have := hm k hk
    omega
  · -- the bins that lost keep `low + 1`: compare what the bins lose
    push Not at hlost
    refine sum_le_sum fun k hk => ?_
    have := hlost k hk
    have := hn k hk
    have := hm k hk
    omega

end Loads

section Assignments
variable {ι κ : Type*} [Fintype ι] [DecidableEq κ] {K : Finset κ} {a f g : ι → κ}

/-- The number of items in a bin. -/
def load (f : ι → κ) (k : κ) : ℕ := #{i | f i = k}

/-- The number of items in another bin than at the start. -/
def moved (a f : ι → κ) : ℕ := #{i | f i ≠ a i}

theorem sum_load (hf : ∀ i, f i ∈ K) : ∑ k ∈ K, load f k = Fintype.card ι :=
  (card_eq_sum_card_fiberwise fun i _ => hf i).symm

theorem moved_eq_sum (ha : ∀ i, a i ∈ K) :
    moved a f = ∑ k ∈ K, #{i | a i = k ∧ f i ≠ k} := by
  rw [moved, card_eq_sum_card_fiberwise (f := a) fun i _ => ha i]
  refine sum_congr rfl fun k _ => ?_
  congr 1
  ext i
  simp only [mem_filter, mem_univ, true_and]
  constructor
  · rintro ⟨hne, rfl⟩
    exact ⟨rfl, hne⟩
  · rintro ⟨rfl, hne⟩
    exact ⟨hne, rfl⟩

theorem load_eq_add (a f : ι → κ) (k : κ) :
    load a k = #{i | a i = k ∧ f i = k} + #{i | a i = k ∧ f i ≠ k} := by
  rw [load, ← card_filter_add_card_filter_not (fun i => f i = k), filter_filter,
    filter_filter]

/-- What a bin loses has moved. -/
theorem shortfall_le_moved (ha : ∀ i, a i ∈ K) :
    ∑ k ∈ K, (load a k - load f k) ≤ moved a f := by
  rw [moved_eq_sum ha]
  refine sum_le_sum fun k _ => ?_
  have hsplit := load_eq_add a f k
  have hkept : #{i | a i = k ∧ f i = k} ≤ load f k :=
    card_le_card (monotone_filter_right _ fun _ _ hi => hi.2)
  omega

section Update
variable [DecidableEq ι] {i : ι} {t : κ}

theorem load_update_target (h : f i ≠ t) : load (Function.update f i t) t = load f t + 1 := by
  have hset : univ.filter (Function.update f i t · = t) = insert i (univ.filter (f · = t)) := by
    ext j
    by_cases hj : j = i <;> simp [hj]
  rw [load, hset, card_insert_of_notMem (by simp [h]), load]

theorem load_update_source (h : f i ≠ t) :
    load (Function.update f i t) (f i) + 1 = load f (f i) := by
  have hset : univ.filter (f · = f i) = insert i (univ.filter (Function.update f i t · = f i)) := by
    ext j
    by_cases hj : j = i <;> simp [hj]
  rw [load, load, hset, card_insert_of_notMem (by simp [Ne.symm h])]

theorem load_update_of_ne {k : κ} (hs : k ≠ f i) (ht : k ≠ t) :
    load (Function.update f i t) k = load f k := by
  rw [load, load]
  congr 1
  ext j
  by_cases hj : j = i
  · simp [hj, Ne.symm hs, Ne.symm ht]
  · simp [hj]

end Update

/-- What a greedy transfer has made of the assignment `a`: a bin that is not below its load at the
start has kept its items, one that is not above it has no others, a bin that lost is among the
fullest but for one item, a bin that gained among the emptiest but for one, and no bin that gained
is fuller than one that lost. -/
structure Transfer (K : Finset κ) (a f : ι → κ) : Prop where
  mem : ∀ i, f i ∈ K
  kept : ∀ i, load a (a i) ≤ load f (a i) → f i = a i
  own : ∀ i, load f (f i) ≤ load a (f i) → f i = a i
  close : ∀ j ∈ K, ∀ k ∈ K, load f j < load a j ∨ load a k < load f k → load f k ≤ load f j + 1
  apart : ∀ j ∈ K, ∀ k ∈ K, load f j < load a j → load a k < load f k → load f k ≤ load f j

namespace Transfer

theorem refl (ha : ∀ i, a i ∈ K) : Transfer K a a where
  mem := ha
  kept _ _ := rfl
  own _ _ := rfl
  close _ _ _ _ h := by omega
  apart _ _ _ _ h := by omega

/-- An item goes from a fullest to an emptiest bin. -/
theorem move [DecidableEq ι] (h : Transfer K a f) {i : ι} {t : κ} (ht : t ∈ K)
    (hmax : ∀ k ∈ K, load f k ≤ load f (f i)) (hmin : ∀ k ∈ K, load f t ≤ load f k)
    (hgap : load f t + 2 ≤ load f (f i)) : Transfer K a (Function.update f i t) := by
  have hs := h.mem i
  have hne : f i ≠ t := by
    rintro rfl
    omega
  have htarget := load_update_target hne
  have hsource := load_update_source hne
  -- the fullest bin has not gained and the emptiest has not lost
  have hown : load f (f i) ≤ load a (f i) := by
    have := h.close t ht (f i) hs
    omega
  have hkept : load a t ≤ load f t := by
    have := h.close t ht (f i) hs
    omega
  have hi := h.own i hown
  have hcases : ∀ k, k = f i ∨ k = t ∨ load (Function.update f i t) k = load f k := by
    intro k
    by_cases hk : k = f i
    · exact Or.inl hk
    · by_cases hk' : k = t
      · exact Or.inr (Or.inl hk')
      · exact Or.inr (Or.inr (load_update_of_ne hk hk'))
  refine ⟨fun j => ?_, fun j hj => ?_, fun j hj => ?_, fun j hj k hk => ?_, fun j hj k hk => ?_⟩
  · by_cases hji : j = i
    · rw [hji, Function.update_self]
      exact ht
    · rw [Function.update_of_ne hji]
      exact h.mem j
  · by_cases hji : j = i
    · rw [hji, ← hi] at hj
      omega
    · rw [Function.update_of_ne hji]
      apply h.kept
      rcases hcases (a j) with heq | heq | heq
      · rw [heq] at hj
        omega
      · rw [heq]
        exact hkept
      · rwa [heq] at hj
  · by_cases hji : j = i
    · rw [hji, Function.update_self] at hj
      omega
    · rw [Function.update_of_ne hji] at hj ⊢
      apply h.own
      rcases hcases (f j) with heq | heq | heq
      · rw [heq]
        exact hown
      · rw [heq] at hj
        omega
      · rwa [heq] at hj
  · have := h.close j hj k hk
    have := hmax k hk
    have := hmin j hj
    have := hmin k hk
    rcases hcases j with rfl | rfl | hj' <;> rcases hcases k with rfl | rfl | hk' <;> omega
  · have := h.apart j hj k hk
    have := h.close j hj (f i) hs
    have := h.close t ht k hk
    rcases hcases j with rfl | rfl | hj' <;> rcases hcases k with rfl | rfl | hk' <;> omega

/-- The moved items are those that the bins have lost. -/
theorem moved_eq (h : Transfer K a f) (ha : ∀ i, a i ∈ K) :
    moved a f = ∑ k ∈ K, (load a k - load f k) := by
  rw [moved_eq_sum ha]
  refine sum_congr rfl fun k _ => ?_
  have hsplit := load_eq_add a f k
  rcases Nat.lt_or_ge (load f k) (load a k) with hlt | hle
  · have hown : #{i | a i = k ∧ f i = k} = load f k := by
      rw [load]
      congr 1
      ext i
      simp only [mem_filter, mem_univ, true_and, and_iff_right_iff_imp]
      rintro rfl
      exact (h.own i hlt.le).symm
    omega
  · have hnone : #{i | a i = k ∧ f i ≠ k} = 0 := by
      rw [card_eq_zero, filter_eq_empty_iff]
      rintro i - ⟨rfl, hne⟩
      exact hne (h.kept i hle)
    omega

/-- A greedy transfer that ends with equitable loads has moved as few items as possible. -/
theorem moved_le (h : Transfer K a f) (ha : ∀ i, a i ∈ K) (hf : (K : Set κ).EquitableOn (load f))
    (hmem : ∀ i, g i ∈ K) (hg : (K : Set κ).EquitableOn (load g)) : moved a f ≤ moved a g := by
  rw [h.moved_eq ha]
  refine (shortfall_le hf hg ?_ ?_ h.apart).trans (shortfall_le_moved ha)
  · rw [sum_load ha, sum_load h.mem]
  · rw [sum_load ha, sum_load hmem]

/-- From equitable loads on some of the bins, items only move to the other bins. -/
theorem not_mem_of_moved (h : Transfer K a f) {K₀ : Finset κ} (hK₀ : K₀ ⊆ K)
    (ha : ∀ i, a i ∈ K₀) (hstart : (K₀ : Set κ).EquitableOn (load a)) {i : ι}
    (hi : f i ≠ a i) : f i ∉ K₀ := by
  intro hmem
  have hlost : load f (a i) < load a (a i) := by
    by_contra hge
    exact hi (h.kept i (not_lt.mp hge))
  have hgained : load a (f i) < load f (f i) := by
    by_contra hge
    exact hi (h.own i (not_lt.mp hge))
  have happart := h.apart _ (hK₀ (ha i)) _ (hK₀ hmem) hlost hgained
  have hle : load a (a i) ≤ load a (f i) + 1 := hstart (mem_coe.mpr (ha i)) (mem_coe.mpr hmem)
  omega

end Transfer

end Assignments

end Basis
