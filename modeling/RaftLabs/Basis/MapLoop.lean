import Mathlib.Data.Finite.Defs
import Mathlib.Data.Set.Finite.Lattice
import Mathlib.Tactic

/-! Finite maps and the loops over their entries, in which the order of the entries is
arbitrary. -/
namespace Basis

variable {K V W : Type*}

/-- The list holds each entry of the map once. -/
structure Enumerates (entries : List (K × V)) (m : K → Option V) : Prop where
  nodup : (entries.map Prod.fst).Nodup
  mem_iff : ∀ k v, (k, v) ∈ entries ↔ m k = some v

/-- The map has finitely many entries. -/
def FiniteMap (m : K → Option V) : Prop := {k | (m k).isSome}.Finite

theorem finiteMap_empty : FiniteMap (fun _ : K => (none : Option V)) := by
  simp [FiniteMap]

theorem FiniteMap.update [DecidableEq K] {m : K → Option V} (hm : FiniteMap m) (k : K)
    (v : Option V) : FiniteMap (Function.update m k v) := by
  refine (hm.insert k).subset fun j hj => ?_
  by_cases hjk : j = k
  · exact Or.inl hjk
  · exact Or.inr (by simpa [Function.update_of_ne hjk] using hj)

/-- A map whose keys are those of two finite maps is finite. -/
theorem FiniteMap.of_or {m : K → Option V} {m₁ : K → Option W} (h₁ : FiniteMap m₁)
    {m₂ : K → Option V} (h₂ : FiniteMap m₂)
    (h : ∀ k, (m k).isSome → (m₁ k).isSome ∨ (m₂ k).isSome) : FiniteMap m :=
  (Set.Finite.union h₁ h₂).subset h

theorem FiniteMap.exists_enumerates {m : K → Option V} (hm : FiniteMap m) :
    ∃ entries, Enumerates entries m := by
  obtain ⟨s, hs⟩ : ∃ s : Finset K, ∀ k, k ∈ s ↔ (m k).isSome :=
    ⟨Set.Finite.toFinset hm, fun k => Set.Finite.mem_toFinset hm⟩
  have hsome : ∀ k : { k // k ∈ s }, (m k).isSome := fun k => (hs k).mp k.2
  refine ⟨s.attach.toList.map fun k : { k // k ∈ s } => (k.1, (m k.1).get (hsome k)), ?_,
    fun k v => ?_⟩
  · rw [List.map_map]
    exact (Finset.nodup_toList _).map Subtype.val_injective
  · simp only [List.mem_map, Finset.mem_toList, Finset.mem_attach, true_and, Prod.mk.injEq]
    constructor
    · rintro ⟨k', rfl, rfl⟩
      exact (Option.some_get _).symm
    · intro hk
      exact ⟨⟨k, (hs k).mpr (by simp [hk])⟩, rfl, Option.get_of_eq_some _ hk⟩

/-- A loop over the entries of a map whose body rewrites the value at the key of the entry. -/
def updateLoop [DecidableEq K] (f : V → Option W → Option W) (m : K → Option W)
    (entries : List (K × V)) : K → Option W :=
  entries.foldl (fun m e => Function.update m e.1 (f e.2 (m e.1))) m

section UpdateLoop
variable [DecidableEq K] {f : V → Option W → Option W}

theorem updateLoop_of_not_mem {m : K → Option W} {entries : List (K × V)} {k : K}
    (hk : k ∉ entries.map Prod.fst) : updateLoop f m entries k = m k := by
  induction entries generalizing m with
  | nil => rfl
  | cons e rest ih =>
    simp only [List.map_cons, List.mem_cons, not_or] at hk
    exact (ih hk.2).trans (Function.update_of_ne hk.1 _ _)

theorem updateLoop_of_mem {m : K → Option W} {entries : List (K × V)} {k : K} {v : V}
    (hn : (entries.map Prod.fst).Nodup) (hk : (k, v) ∈ entries) :
    updateLoop f m entries k = f v (m k) := by
  induction entries generalizing m with
  | nil => cases hk
  | cons e rest ih =>
    rw [List.map_cons, List.nodup_cons] at hn
    change updateLoop f (Function.update m e.1 (f e.2 (m e.1))) rest k = _
    rcases List.mem_cons.mp hk with rfl | hk
    · rw [updateLoop_of_not_mem hn.1, Function.update_self]
    · have hne : k ≠ e.1 := by
        intro heq
        exact hn.1 (heq ▸ List.mem_map_of_mem (f := Prod.fst) hk)
      rw [ih hn.2 hk, Function.update_of_ne hne]

/-- The result of a loop over a map, whatever the order of the entries. -/
theorem Enumerates.updateLoop_eq {entries : List (K × V)} {src : K → Option V}
    (he : Enumerates entries src) (m : K → Option W) (k : K) :
    updateLoop f m entries k = (src k).elim (m k) fun v => f v (m k) := by
  cases hk : src k with
  | some v => exact updateLoop_of_mem he.nodup ((he.mem_iff k v).mpr hk)
  | none =>
    refine updateLoop_of_not_mem fun hmem => ?_
    obtain ⟨⟨k', v⟩, hentry, rfl⟩ := List.mem_map.mp hmem
    exact absurd (hk.symm.trans ((he.mem_iff k' v).mp hentry)) nofun

end UpdateLoop

end Basis
