import Mathlib.Data.List.Nodup
import Mathlib.Tactic

/-! The pointers of a doubly linked list. A node that is taken out keeps its own pointers, and so
can be put back: the nodes taken out last are put back first. -/
namespace Basis

structure Links (α : Type*) where
  next : α → Option α
  prev : α → Option α

namespace Links

variable {α : Type*} [DecidableEq α]

def setNext (l : Links α) (a : α) (b : Option α) : Links α :=
  { l with next := Function.update l.next a b }

def setPrev (l : Links α) (a : α) (b : Option α) : Links α :=
  { l with prev := Function.update l.prev a b }

/-- The neighbours of a node are joined. It needs one before it. -/
def unlink (l : Links α) (a : α) : Option (Links α) :=
  (l.prev a).map fun b =>
    match l.next a with
    | some c => (l.setNext b (some c)).setPrev c (some b)
    | none => l.setNext b none

/-- The neighbours that a node remembers are joined to it. -/
def relink (l : Links α) (a : α) : Option (Links α) :=
  (l.prev a).map fun b =>
    match l.next a with
    | some c => (l.setNext b (some a)).setPrev c (some a)
    | none => l.setNext b (some a)

/-- The pointers link the nodes of a list, which is given by its first node and the rest. Nothing
is said about the pointer before the first node. -/
def Represents (l : Links α) : α → List α → Prop
  | a, [] => l.next a = none
  | a, b :: rest => l.next a = some b ∧ l.prev b = some a ∧ l.Represents b rest

variable {l l' : Links α} {a x : α} {u v rest : List α}

omit [DecidableEq α] in
theorem Represents.next (h : l.Represents a rest) : l.next a = rest.head? := by
  cases rest with
  | nil => exact h
  | cons b rest => exact h.1

omit [DecidableEq α] in
/-- Only the pointers of the list matter. -/
theorem Represents.congr (h : l.Represents a rest) (hnext : ∀ y ∈ a :: rest, l'.next y = l.next y)
    (hprev : ∀ y ∈ rest, l'.prev y = l.prev y) : l'.Represents a rest := by
  induction rest generalizing a with
  | nil => exact (hnext a List.mem_cons_self).trans h
  | cons b rest ih =>
    obtain ⟨hab, hba, hrest⟩ := h
    refine ⟨(hnext a List.mem_cons_self).trans hab, (hprev b List.mem_cons_self).trans hba, ?_⟩
    exact ih hrest (fun y hy => hnext y (List.mem_cons_of_mem _ hy))
      fun y hy => hprev y (List.mem_cons_of_mem _ hy)

omit [DecidableEq α] in
/-- The part of the list from one of its nodes on. -/
theorem Represents.drop (h : l.Represents a (u ++ x :: v)) : l.Represents x v := by
  induction u generalizing a with
  | nil => exact h.2.2
  | cons b u ih => exact ih h.2.2

/-- The second node is taken out and could be put back. -/
theorem Represents.unlink_second (h : l.Represents a (x :: v)) (hn : (a :: x :: v).Nodup) :
    ∃ l', l.unlink x = some l' ∧ l'.Represents a v ∧ (∀ y, y ≠ a → l'.next y = l.next y) ∧
      (∀ y ∉ v, l'.prev y = l.prev y) ∧ l'.relink x = some l := by
  obtain ⟨hax, hxa, hv⟩ := h
  obtain ⟨ha, hn⟩ := List.nodup_cons.mp hn
  obtain ⟨hx, hn⟩ := List.nodup_cons.mp hn
  have hne : x ≠ a := fun he => ha (he ▸ List.mem_cons_self)
  have hold : Function.update l.next a (some x) = l.next := by
    rw [← hax, Function.update_eq_self]
  cases v with
  | nil =>
    have hnext : l.next x = none := hv
    refine ⟨l.setNext a none, by simp [unlink, hxa, hnext], Function.update_self .., fun y hy =>
      Function.update_of_ne hy .., fun y _ => rfl, ?_⟩
    simp only [relink, setNext, hxa, Option.map_some, Function.update_of_ne hne, hnext,
      Function.update_idem, hold]
  | cons c w =>
    have hnext : l.next x = some c := hv.1
    obtain ⟨hcw, -⟩ := List.nodup_cons.mp hn
    have hxc : x ≠ c := fun he => hx (he ▸ List.mem_cons_self)
    refine ⟨(l.setNext a (some c)).setPrev c (some a), by simp [unlink, hxa, hnext],
      ⟨Function.update_self .., Function.update_self .., ?_⟩, fun y hy =>
      Function.update_of_ne hy .., fun y hy => ?_, ?_⟩
    · refine hv.2.2.congr (fun y hy => Function.update_of_ne ?_ ..) fun y hy =>
        Function.update_of_ne ?_ ..
      · rintro rfl
        exact ha (List.mem_cons_of_mem _ hy)
      · rintro rfl
        exact hcw hy
    · refine Function.update_of_ne ?_ ..
      rintro rfl
      exact hy List.mem_cons_self
    · have hprev : Function.update l.prev c (some x) = l.prev := by
        rw [← hv.2.1, Function.update_eq_self]
      simp only [relink, setNext, setPrev, Function.update_of_ne hne, Function.update_of_ne hxc,
        hxa, Option.map_some, hnext, Function.update_idem, hold, hprev]

/-- A node behind the first one is taken out and could be put back. -/
theorem Represents.unlink (h : l.Represents a (u ++ x :: v)) (hn : (a :: (u ++ x :: v)).Nodup) :
    ∃ l', l.unlink x = some l' ∧ l'.Represents a (u ++ v) ∧
      (∀ y ∉ a :: u, l'.next y = l.next y) ∧ (∀ y ∉ v, l'.prev y = l.prev y) ∧
      l'.relink x = some l := by
  induction u generalizing a with
  | nil =>
    obtain ⟨l', hl, hrep, hnext, hprev, hback⟩ := h.unlink_second hn
    exact ⟨l', hl, hrep, fun y hy => hnext y fun he => hy (he ▸ List.mem_cons_self), hprev, hback⟩
  | cons c u ih =>
    obtain ⟨hac, hca, hrest⟩ := h
    obtain ⟨ha, hn⟩ := List.nodup_cons.mp hn
    obtain ⟨l', hl, hrep, hnext, hprev, hback⟩ := ih hrest hn
    have hau : a ∉ c :: u := fun hm => ha (List.mem_append_left (x :: v) hm)
    have hcv : c ∉ v := fun hm =>
      (List.nodup_cons.mp hn).1 (List.mem_append_right _ (List.mem_cons_of_mem _ hm))
    refine ⟨l', hl, ⟨(hnext a hau).trans hac, (hprev c hcv).trans hca, hrep⟩, fun y hy => ?_, hprev,
      hback⟩
    exact hnext y fun hm => hy (List.mem_cons_of_mem _ hm)

end Links

end Basis
