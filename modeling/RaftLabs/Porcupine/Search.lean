import RaftLabs.Basis.Transition
import RaftLabs.Porcupine.Linked

/-! The loop of `checkSingle` is a depth-first search. A configuration is the set of linearized
operations with the state of the model; its moves are the calls that come before the first
return in the list of the remaining entries. -/
namespace RaftLabs.Porcupine
open Basis DepthFirst

variable {σ ι ο : Type}

section Problem
variable (model : Filled σ ι ο) (entries : List (Entry ι ο))

def idAt (k : ℕ) : ℕ := (entries[k]?).elim 0 Entry.id

def isCall (k : ℕ) : Bool := (entries[k]?).any fun e => e.kind = .callEntry

/-- The positions of the entries that are left when the operations `L` are linearized. -/
def remaining (L : Finset ℕ) : List ℕ :=
  (List.range entries.length).filter fun k => idAt entries k ∉ L

/-- The search problem behind `checkSingle`. -/
def problem : Problem (Finset ℕ × σ) ℕ where
  moves c := (remaining entries c.1).takeWhile (isCall entries)
  next c k := do
    let node ← (makeLinkedEntries entries).nodes[k]?
    let m ← node.matching
    let matching ← (makeLinkedEntries entries).nodes[m]?
    let input ← node.value.getLeft?
    let output ← matching.value.getRight?
    let (ok, newState) := model.step c.2 input output
    if ok then some (insert node.id c.1, newState) else none
  goal c := (remaining entries c.1).isEmpty
  same c d := c.1 = d.1 && model.equal c.2 d.2

end Problem

/-- The equality of the model is an equivalence that its steps respect. -/
structure Filled.Lawful (model : Filled σ ι ο) : Prop where
  refl : ∀ s, model.equal s s
  trans : ∀ {s t u}, model.equal s t → model.equal t u → model.equal s u
  step : ∀ {s t} input output, model.equal s t →
    (model.step s input output).1 = (model.step t input output).1 ∧
      model.equal (model.step s input output).2 (model.step t input output).2

theorem fillDefault_lawful [DecidableEq σ] {model : Model σ ι ο} (h : model.equal = none) :
    (fillDefault model).Lawful := by
  have hequal : (fillDefault model).equal = shallowEqual := by
    rw [fillDefault, h]
    rfl
  constructor
  · simp [hequal, shallowEqual]
  · simp [hequal, shallowEqual]
  · intro s t input output hs
    rw [hequal, shallowEqual, decide_eq_true_eq] at hs
    subst hs
    simp [hequal, shallowEqual]

variable {model : Filled σ ι ο} {entries : List (Entry ι ο)} {n : ℕ} {L : Finset ℕ}

theorem problem_lawful (hm : model.Lawful) : (problem model entries).Lawful where
  refl c := by simp [problem, hm.refl]
  trans {c d e} h h' := by
    simp only [problem, Bool.and_eq_true, decide_eq_true_eq] at h h' ⊢
    exact ⟨h.1.trans h'.1, hm.trans h.2 h'.2⟩
  goal {c d} h := by
    simp only [problem, Bool.and_eq_true, decide_eq_true_eq] at h ⊢
    rw [h.1]
  next {c d k c'} h hk hc' := by
    simp only [problem, Bool.and_eq_true, decide_eq_true_eq] at h hk hc' ⊢
    obtain ⟨hL, hs⟩ := h
    refine ⟨hL ▸ hk, ?_⟩
    obtain ⟨node, hnode, hc'⟩ := Option.bind_eq_some_iff.mp hc'
    obtain ⟨m, hmatch, hc'⟩ := Option.bind_eq_some_iff.mp hc'
    obtain ⟨matching, hmatching, hc'⟩ := Option.bind_eq_some_iff.mp hc'
    obtain ⟨input, hinput, hc'⟩ := Option.bind_eq_some_iff.mp hc'
    obtain ⟨output, houtput, hc'⟩ := Option.bind_eq_some_iff.mp hc'
    obtain ⟨hok, hnew⟩ := hm.step input output hs
    obtain ⟨hok', rfl⟩ := of_guarded hc'
    refine ⟨(insert node.id d.1, (model.step d.2 input output).2), ?_, ?_, hnew⟩
    · simp only [hnode, hmatch, hmatching, hinput, houtput, Option.bind_eq_bind, Option.bind_some,
        ← hok, hok', if_true]
    · rw [hL]

/-! The remaining entries. -/

theorem mem_remaining {k : ℕ} :
    k ∈ remaining entries L ↔ k < entries.length ∧ idAt entries k ∉ L := by
  simp [remaining]

theorem remaining_nodup : (remaining entries L).Nodup := List.nodup_range.filter _

theorem remaining_sorted : (remaining entries L).Pairwise (· < ·) :=
  List.pairwise_lt_range.filter _

theorem remaining_insert (i : ℕ) :
    remaining entries (insert i L) = (remaining entries L).filter fun k => idAt entries k ≠ i := by
  rw [remaining, remaining, List.filter_filter]
  refine List.filter_congr fun k _ => ?_
  simp only [Finset.mem_insert, not_or, ne_eq, Bool.decide_and]

theorem entryAt_of_lt {k : ℕ} (hk : k < entries.length) :
    ∃ kind, EntryAt entries kind (idAt entries k) k := by
  have he := List.getElem?_eq_getElem hk
  exact ⟨entries[k].kind, entries[k], he, rfl, by rw [idAt, he]; rfl⟩

theorem EntryAt.idAt_eq {kind : EntryKind} {id k : ℕ} (h : EntryAt entries kind id k) :
    idAt entries k = id := by
  obtain ⟨e, he, -, rfl⟩ := h
  rw [idAt, he]
  rfl

theorem EntryAt.lt_length {kind : EntryKind} {id k : ℕ} (h : EntryAt entries kind id k) :
    k < entries.length := by
  obtain ⟨e, he, -⟩ := h
  exact (List.getElem?_eq_some_iff.mp he).1

theorem isCall_iff {k : ℕ} :
    isCall entries k ↔ EntryAt entries .callEntry (idAt entries k) k := by
  constructor
  · intro h
    rw [isCall] at h
    cases he : entries[k]? with
    | none => simp [he] at h
    | some e =>
      rw [he, Option.any_some, decide_eq_true_eq] at h
      exact ⟨e, he, h, by rw [idAt, he]; rfl⟩
  · rintro ⟨e, he, hk, -⟩
    simp [isCall, he, hk]

theorem not_isCall_of_return {id k : ℕ} (h : EntryAt entries .returnEntry id k) :
    ¬ isCall entries k := by
  obtain ⟨e, he, hk, -⟩ := h
  simp [isCall, he, hk]

theorem return_of_not_isCall {k : ℕ} (hk : k < entries.length) (h : ¬ isCall entries k) :
    EntryAt entries .returnEntry (idAt entries k) k := by
  obtain ⟨kind, hat⟩ := entryAt_of_lt hk
  cases kind with
  | callEntry => exact absurd (isCall_iff.mpr hat) h
  | returnEntry => exact hat

/-- A remaining call is followed by its return. -/
theorem Matched.split_remaining (hm : Matched entries n) {pre suf : List ℕ} {k : ℕ}
    (hrem : remaining entries L = pre ++ k :: suf) (hk : isCall entries k) :
    ∃ r s₁ s₂, EntryAt entries .returnEntry (idAt entries k) r ∧ suf = s₁ ++ r :: s₂ ∧
      remaining entries (insert (idAt entries k) L) = pre ++ (s₁ ++ s₂) := by
  have hmem : k ∈ remaining entries L := by simp [hrem]
  have hcall := isCall_iff.mp hk
  obtain ⟨r, hr⟩ := hm.exists_at .returnEntry _ (hm.id_lt hcall)
  have hlt := hm.call_lt hcall hr
  have hrmem : r ∈ remaining entries L := by
    rw [mem_remaining, hr.idAt_eq]
    exact ⟨hr.lt_length, (mem_remaining.mp hmem).2⟩
  have hsorted : (remaining entries L).Pairwise (· < ·) := remaining_sorted
  rw [hrem] at hrmem hsorted
  have hsuf : r ∈ suf := by
    rcases List.mem_append.mp hrmem with hpre | hrest
    · have := (List.pairwise_append.mp hsorted).2.2 r hpre k List.mem_cons_self
      omega
    · exact (List.mem_cons.mp hrest).resolve_left hlt.ne'
  obtain ⟨s₁, s₂, rfl⟩ := List.append_of_mem hsuf
  refine ⟨r, s₁, s₂, hr, rfl, ?_⟩
  have hnodup : (remaining entries L).Nodup := remaining_nodup
  rw [hrem] at hnodup
  -- no other entry belongs to the operation
  have hother : ∀ j, j ∈ remaining entries L → j ≠ k → j ≠ r →
      idAt entries j ≠ idAt entries k := by
    intro j hj hjk hjr heq
    obtain ⟨kind, hat⟩ := entryAt_of_lt (mem_remaining.mp hj).1
    rw [heq] at hat
    cases kind with
    | callEntry => exact hjk (hm.unique hat hcall)
    | returnEntry => exact hjr (hm.unique hat hr)
  have hkeep : ∀ l : List ℕ, (∀ j ∈ l, j ∈ remaining entries L ∧ j ≠ k ∧ j ≠ r) →
      l.filter (fun j => idAt entries j ≠ idAt entries k) = l := by
    intro l hl
    refine List.filter_eq_self.mpr fun j hj => ?_
    obtain ⟨h₁, h₂, h₃⟩ := hl j hj
    simpa using hother j h₁ h₂ h₃
  rw [remaining_insert, hrem]
  simp only [List.nodup_append, List.nodup_cons, List.mem_append, List.mem_cons, not_or] at hnodup
  obtain ⟨-, ⟨⟨hk₁, hkr, hk₂⟩, -, ⟨hr₂, -⟩, h₁₂⟩, hpre⟩ := hnodup
  rw [List.filter_append, List.filter_cons_of_neg (by simp), List.filter_append,
    List.filter_cons_of_neg (by simp [hr.idAt_eq]), hkeep pre, hkeep s₁, hkeep s₂]
  · intro j hj
    refine ⟨by rw [hrem]; simp [hj], ?_, ?_⟩
    · rintro rfl
      exact hk₂ hj
    · rintro rfl
      exact hr₂ hj
  · intro j hj
    refine ⟨by rw [hrem]; simp [hj], ?_, ?_⟩
    · rintro rfl
      exact hk₁ hj
    · rintro rfl
      exact h₁₂ _ hj _ (Or.inl rfl) rfl
  · intro j hj
    refine ⟨by rw [hrem]; simp [hj], ?_, ?_⟩
    · rintro rfl
      exact hpre _ hj _ (Or.inl rfl) rfl
    · rintro rfl
      exact hpre _ hj _ (Or.inr (Or.inr (Or.inl rfl))) rfl

end RaftLabs.Porcupine
