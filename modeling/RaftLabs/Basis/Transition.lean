import Mathlib.Tactic

/-! Transition systems with an executable step function, their runs as sequences of states,
and the induction rules used for them: invariants, monotone quantities and forward
simulations. -/
namespace Basis

variable {S A : Type*}

/-- Inversion of a guarded step. -/
theorem of_guarded {p : Prop} {_ : Decidable p} {s s' : S}
    (h : (if p then some s else none) = some s') : p ∧ s = s' := by
  split_ifs at h with hp
  exact ⟨hp, Option.some.inj h⟩

/-! Loops whose body may fail. -/

theorem mapM_eq_some_map {B : Type*} {f : A → Option B} {g : A → B} {as : List A}
    (h : ∀ a ∈ as, f a = some (g a)) : as.mapM f = some (as.map g) := by
  induction as with
  | nil => rfl
  | cons a as ih =>
    rw [List.mapM_cons, h a List.mem_cons_self, ih fun x hx => h x (List.mem_cons_of_mem a hx)]
    rfl

theorem mapM_isSome {B : Type*} {f : A → Option B} {as : List A}
    (h : ∀ a ∈ as, (f a).isSome) : (as.mapM f).isSome := by
  induction as with
  | nil => rfl
  | cons a as ih =>
    obtain ⟨b, hb⟩ := Option.isSome_iff_exists.mp (h a List.mem_cons_self)
    obtain ⟨bs, hbs⟩ := Option.isSome_iff_exists.mp (ih fun x hx => h x (List.mem_cons_of_mem a hx))
    rw [List.mapM_cons, hb, hbs]
    rfl

theorem foldlM_eq_some_foldl {f : S → A → Option S} {g : S → A → S} {as : List A}
    (h : ∀ a ∈ as, ∀ s, f s a = some (g s a)) (s : S) :
    as.foldlM f s = some (as.foldl g s) := by
  induction as generalizing s with
  | nil => rfl
  | cons a as ih =>
    rw [List.foldlM_cons, h a List.mem_cons_self, List.foldl_cons]
    exact ih (fun x hx => h x (List.mem_cons_of_mem a hx)) _

/-- One step whose label is allowed by the guard `P`. -/
def Step (step : S → A → Option S) (P : S → A → Prop) (s s' : S) : Prop :=
  ∃ a, P s a ∧ step s a = some s'

/-- A run: each state is reached from the one before it by an allowed step or by doing
nothing, so that finite runs are included. -/
def IsRun (step : S → A → Option S) (P : S → A → Prop) (r : ℕ → S) : Prop :=
  ∀ k, r (k + 1) = r k ∨ Step step P (r k) (r (k + 1))

/-- The run of a list of labels; a label that is not enabled does nothing. -/
def trace (step : S → A → Option S) : S → List A → ℕ → S
  | s, [], _ => s
  | s, _ :: _, 0 => s
  | s, a :: as, k + 1 => trace step ((step s a).getD s) as k

/-- The guard holds at every step of the run of a list of labels. -/
def Guarded (step : S → A → Option S) (P : S → A → Prop) : S → List A → Prop
  | _, [] => True
  | s, a :: as => P s a ∧ Guarded step P ((step s a).getD s) as

instance Guarded.decidable (step : S → A → Option S) (P : S → A → Prop)
    [∀ s a, Decidable (P s a)] : ∀ s as, Decidable (Guarded step P s as)
  | _, [] => inferInstanceAs (Decidable True)
  | s, a :: as =>
    let _ := Guarded.decidable step P ((step s a).getD s) as
    inferInstanceAs (Decidable (P s a ∧ Guarded step P ((step s a).getD s) as))

variable {step : S → A → Option S} {P : S → A → Prop} {r : ℕ → S}

@[simp] theorem trace_zero (s : S) (as : List A) : trace step s as 0 = s := by
  cases as <;> rfl

theorem trace_isRun {s : S} {as : List A} (h : Guarded step P s as) :
    IsRun step P (trace step s as) := by
  induction as generalizing s with
  | nil => exact fun _ => Or.inl rfl
  | cons a as ih =>
    intro k
    cases k with
    | zero =>
      simp only [trace, trace_zero]
      cases hs : step s a with
      | none => exact Or.inl rfl
      | some s' => exact Or.inr ⟨a, h.1, hs⟩
    | succ k => exact ih h.2 k

/-- What every allowed step preserves holds along every run. -/
theorem IsRun.invariant (hr : IsRun step P r) {I : S → Prop}
    (hstep : ∀ s a s', P s a → step s a = some s' → I s → I s') (h : I (r 0)) (k : ℕ) :
    I (r k) := by
  induction k with
  | zero => exact h
  | succ k ih =>
    rcases hr k with heq | ⟨a, hp, hs⟩
    · rwa [heq]
    · exact hstep _ a _ hp hs ih

/-! Finite runs, in which every label is enabled. -/

/-- The state after the labels, if each of them is enabled in its turn. -/
def exec (step : S → A → Option S) (s : S) (as : List A) : Option S := as.foldlM step s

theorem exec_cons {s s' : S} {a : A} {as : List A} (h : exec step s (a :: as) = some s') :
    ∃ t, step s a = some t ∧ exec step t as = some s' := Option.bind_eq_some_iff.mp h

theorem exec_invariant {I : S → Prop} (hstep : ∀ s a s', step s a = some s' → I s → I s')
    {as : List A} {s s' : S} (h : exec step s as = some s') (hs : I s) : I s' := by
  induction as generalizing s with
  | nil => exact Option.some.inj h ▸ hs
  | cons a as ih =>
    obtain ⟨t, ht, h⟩ := exec_cons h
    exact ih h (hstep s a t ht hs)

/-- A measure that every step lowers bounds the number of steps. -/
theorem length_add_le_of_exec {I : S → Prop} {μ : S → ℕ}
    (hinv : ∀ s a s', step s a = some s' → I s → I s')
    (hstep : ∀ s a s', step s a = some s' → I s → μ s' < μ s)
    {as : List A} {s s' : S} (h : exec step s as = some s') (hs : I s) :
    as.length + μ s' ≤ μ s := by
  induction as generalizing s with
  | nil => simp [Option.some.inj h]
  | cons a as ih =>
    obtain ⟨t, ht, h⟩ := exec_cons h
    have h₁ := ih h (hinv s a t ht hs)
    have h₂ := hstep s a t ht hs
    rw [List.length_cons]
    omega

/-- A reflexive and transitive relation along which every step moves is followed by every
run. -/
theorem IsRun.monotone (hr : IsRun step P r) {R : S → S → Prop} (hrefl : ∀ s, R s s)
    (htrans : ∀ {s t u}, R s t → R t u → R s u)
    (hstep : ∀ k, Step step P (r k) (r (k + 1)) → R (r k) (r (k + 1))) {k l : ℕ} (h : k ≤ l) :
    R (r k) (r l) := by
  induction l, h using Nat.le_induction with
  | base => exact hrefl _
  | succ l _ ih =>
    rcases hr l with heq | hs
    · rwa [heq]
    · exact htrans ih (hstep l hs)

/-- Forward simulation: if each step is matched by moves `M` of an abstract system that
keep the relation `R`, then a run is matched by a run of the abstract system. -/
theorem IsRun.simulation (hr : IsRun step P r) {G : Type*} {R : S → G → Prop}
    {M : G → G → Prop} (hrefl : ∀ g, M g g)
    (hstep : ∀ s a s' g, P s a → step s a = some s' → R s g → ∃ g', M g g' ∧ R s' g')
    {g₀ : G} (h : R (r 0) g₀) :
    ∃ g : ℕ → G, g 0 = g₀ ∧ ∀ k, R (r k) (g k) ∧ M (g k) (g (k + 1)) := by
  have hnext : ∀ k (x : { g // R (r k) g }), ∃ y : { g // R (r (k + 1)) g }, M x.1 y.1 := by
    rintro k ⟨g, hg⟩
    rcases hr k with heq | ⟨a, hp, hs⟩
    · exact ⟨⟨g, heq ▸ hg⟩, hrefl g⟩
    · obtain ⟨g', hm, hg'⟩ := hstep _ a _ g hp hs hg
      exact ⟨⟨g', hg'⟩, hm⟩
  choose next hm using hnext
  let seq : ∀ k, { g // R (r k) g } := fun k => Nat.rec ⟨g₀, h⟩ (fun k x => next k x) k
  exact ⟨fun k => (seq k).1, rfl, fun k => ⟨(seq k).2, hm k (seq k)⟩⟩

end Basis
