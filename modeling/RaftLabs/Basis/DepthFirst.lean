import Mathlib.Data.List.Nodup
import Mathlib.Tactic

/-! Depth-first search with an explicit stack and a table of the configurations seen so far. The
search ends, it finds a goal if one can be reached, and if it finds none then it has closed a
path to every configuration that can be reached, up to the equality of the table. -/
namespace Basis.DepthFirst

/-- The moves of a configuration in the order in which they are tried, their results, the goals,
and the equality by which the table is searched. -/
structure Problem (C A : Type*) where
  moves : C → List A
  next : C → A → Option C
  goal : C → Bool
  same : C → C → Bool

/-- A configuration with the moves that have not been tried. -/
structure Frame (C A : Type*) where
  config : C
  todo : List A

/-- The stack is the frame `top` over the frames `below`, each with the move that led upwards.
`log` holds the paths of the frames that were given up. -/
structure State (C A : Type*) where
  top : Frame C A
  below : List (A × Frame C A)
  seen : List C
  log : List (List A)

variable {C A : Type*}

/-- The moves that lead to the top of the stack. -/
def State.path (s : State C A) : List A := (s.below.map Prod.fst).reverse

def State.frames (s : State C A) : List (Frame C A) := s.top :: s.below.map Prod.snd

/-- The configurations of the stack without the root. -/
def State.opened (s : State C A) : List C := (s.frames.map Frame.config).dropLast

namespace Problem

variable (P : Problem C A)

def start (root : C) : State C A := ⟨⟨root, P.moves root⟩, [], [], []⟩

/-- One round of the search: another state, or the result. -/
def step (s : State C A) : State C A ⊕ Bool :=
  if P.goal s.top.config then .inr true
  else
    match s.top.todo with
    | a :: todo =>
      match P.next s.top.config a with
      | none => .inl { s with top := ⟨s.top.config, todo⟩ }
      | some d =>
        if s.seen.any (P.same d) then .inl { s with top := ⟨s.top.config, todo⟩ }
        else
          .inl
            { top := ⟨d, P.moves d⟩
              below := (a, ⟨s.top.config, todo⟩) :: s.below
              seen := d :: s.seen
              log := s.log }
    | [] =>
      match s.below with
      | [] => .inr false
      | (_, frame) :: below => .inl { s with top := frame, below, log := s.log ++ [s.path] }

/-- The search for at most `fuel` rounds, with the state in which it ends. -/
def run : ℕ → State C A → Option (Bool × State C A)
  | 0, _ => none
  | fuel + 1, s =>
    match P.step s with
    | .inr found => some (found, s)
    | .inl s' => run fuel s'

/-- The moves lead from one configuration to the other. -/
def Reaches : C → List A → C → Prop
  | c, [], d => c = d
  | c, a :: path, d => a ∈ P.moves c ∧ ∃ e, P.next c a = some e ∧ Reaches e path d

/-- The equality of the table is respected by the goals and the moves. -/
structure Lawful : Prop where
  refl : ∀ c, P.same c c
  trans : ∀ {c d e}, P.same c d → P.same d e → P.same c e
  goal : ∀ {c d}, P.same c d → P.goal c = P.goal d
  next : ∀ {c d a c'}, P.same c d → a ∈ P.moves c → P.next c a = some c' →
    a ∈ P.moves d ∧ ∃ d', P.next d a = some d' ∧ P.same c' d'

variable {P}

/-- What one round can do. -/
theorem step_cases {s : State C A} {result : State C A ⊕ Bool} (h : P.step s = result) :
    (P.goal s.top.config ∧ result = .inr true) ∨
    (P.goal s.top.config = false ∧
      ((∃ a todo, s.top.todo = a :: todo ∧
          (∀ d, P.next s.top.config a = some d → ∃ e ∈ s.seen, P.same d e) ∧
          result = .inl { s with top := ⟨s.top.config, todo⟩ }) ∨
        (∃ a todo d, s.top.todo = a :: todo ∧ P.next s.top.config a = some d ∧
          (∀ e ∈ s.seen, ¬ P.same d e) ∧
          result = .inl ⟨⟨d, P.moves d⟩, (a, ⟨s.top.config, todo⟩) :: s.below, d :: s.seen,
            s.log⟩) ∨
        (s.top.todo = [] ∧ s.below = [] ∧ result = .inr false) ∨
        (∃ a frame below, s.top.todo = [] ∧ s.below = (a, frame) :: below ∧
          result = .inl ⟨frame, below, s.seen, s.log ++ [s.path]⟩))) := by
  subst h
  unfold step
  by_cases hgoal : P.goal s.top.config
  · exact Or.inl ⟨hgoal, if_pos hgoal⟩
  · refine Or.inr ⟨by simpa using hgoal, ?_⟩
    rw [if_neg hgoal]
    cases htodo : s.top.todo with
    | nil =>
      cases hbelow : s.below with
      | nil => exact Or.inr (Or.inr (Or.inl ⟨rfl, rfl, rfl⟩))
      | cons x below =>
        obtain ⟨a, frame⟩ := x
        exact Or.inr (Or.inr (Or.inr ⟨a, frame, below, rfl, rfl, rfl⟩))
    | cons a todo =>
      cases hnext : P.next s.top.config a with
      | none =>
        refine Or.inl ⟨a, todo, rfl, fun d hd => ?_, by simp only [hnext]⟩
        rw [hnext] at hd
        cases hd
      | some d =>
        by_cases hseen : s.seen.any (P.same d)
        · refine Or.inl ⟨a, todo, rfl, fun d' hd' => ?_, by simp only [hnext, hseen, if_true]⟩
          obtain rfl := Option.some.inj (hnext.symm.trans hd')
          exact List.any_eq_true.mp hseen
        · refine Or.inr (Or.inl ⟨a, todo, d, rfl, hnext, ?_, by simp [hnext, hseen]⟩)
          intro e he hsame
          exact hseen (List.any_eq_true.mpr ⟨e, he, hsame⟩)

theorem reaches_append {c d e : C} {p q : List A} (hp : P.Reaches c p d) (hq : P.Reaches d q e) :
    P.Reaches c (p ++ q) e := by
  induction p generalizing c with
  | nil =>
    obtain rfl : c = d := hp
    exact hq
  | cons a p ih =>
    obtain ⟨ha, c', hc', hp⟩ := hp
    exact ⟨ha, c', hc', ih hp⟩

/-- The last move of a path. -/
theorem reaches_concat {c d : C} {p : List A} {a : A} :
    P.Reaches c (p ++ [a]) d ↔ ∃ e, P.Reaches c p e ∧ a ∈ P.moves e ∧ P.next e a = some d := by
  constructor
  · intro h
    induction p generalizing c with
    | nil =>
      obtain ⟨ha, e, he, rfl⟩ := h
      exact ⟨c, rfl, ha, he⟩
    | cons b p ih =>
      obtain ⟨hb, c', hc', h⟩ := h
      obtain ⟨e, he, hlast⟩ := ih h
      exact ⟨e, ⟨hb, c', hc', he⟩, hlast⟩
  · rintro ⟨e, he, ha, hd⟩
    exact reaches_append he ⟨ha, d, hd, rfl⟩

/-- An equal configuration is in the table. -/
def Covered (P : Problem C A) (s : State C A) (c : C) : Prop := ∃ e ∈ s.seen, P.same c e

/-- Each frame of the stack is reached from the one below it, the last one is the root. -/
def Linked (P : Problem C A) (root : C) : List (A × Frame C A) → C → Prop
  | [], c => c = root
  | (a, f) :: below, c =>
    a ∈ P.moves f.config ∧ P.next f.config a = some c ∧ Linked P root below f.config

theorem Linked.reaches {root c : C} {below : List (A × Frame C A)} (h : Linked P root below c) :
    P.Reaches root (below.map Prod.fst).reverse c := by
  induction below generalizing c with
  | nil => exact Eq.symm h
  | cons x below ih =>
    obtain ⟨ha, hnext, hl⟩ := h
    rw [List.map_cons, List.reverse_cons]
    exact reaches_append (ih hl) ⟨ha, c, hnext, rfl⟩

/-- A configuration that was given up: no goal, with its moves in the table and a path to it in
the log. -/
structure Closed (P : Problem C A) (root : C) (s : State C A) (d : C) : Prop where
  noGoal : P.goal d = false
  moves : ∀ a ∈ P.moves d, ∀ e, P.next d a = some e → Covered P s e
  logged : ∃ p ∈ s.log, P.Reaches root p d

structure Inv (P : Problem C A) (root : C) (s : State C A) : Prop where
  linked : Linked P root s.below s.top.config
  todo : ∀ f ∈ s.frames, f.todo.Sublist (P.moves f.config)
  tried : ∀ f ∈ s.frames, ∀ a ∈ P.moves f.config, a ∈ f.todo ∨
    ∀ d, P.next f.config a = some d → Covered P s d
  seen : ∀ d ∈ s.seen, d ∈ s.opened ∨ Closed P root s d
  reached : ∀ d ∈ s.seen, ∃ p, P.Reaches root p d
  distinct : s.seen.Pairwise fun d e => ¬ P.same d e
  log : ∀ p ∈ s.log, ∃ d, P.Reaches root p d

theorem start_inv (root : C) : Inv P root (P.start root) where
  linked := rfl
  todo f hf := by
    obtain rfl := List.mem_singleton.mp hf
    exact List.Sublist.refl _
  tried f hf a ha := by
    obtain rfl := List.mem_singleton.mp hf
    exact Or.inl ha
  seen d hd := by cases hd
  reached d hd := by cases hd
  distinct := List.Pairwise.nil
  log p hp := by cases hp

variable {root : C} {s s' : State C A}

theorem Closed.mono {d : C} (h : Closed P root s d) (hseen : s.seen ⊆ s'.seen)
    (hlog : s.log ⊆ s'.log) : Closed P root s' d where
  noGoal := h.noGoal
  moves a ha e he := (h.moves a ha e he).imp fun _ hx => ⟨hseen hx.1, hx.2⟩
  logged := h.logged.imp fun _ hp => ⟨hlog hp.1, hp.2⟩

/-- A move that leads nowhere new is left behind. -/
theorem Inv.skip (h : Inv P root s) {a : A} {todo : List A} (htodo : s.top.todo = a :: todo)
    (hcov : ∀ d, P.next s.top.config a = some d → Covered P s d) :
    Inv P root { s with top := ⟨s.top.config, todo⟩ } where
  linked := h.linked
  todo f hf := by
    rcases List.mem_cons.mp hf with rfl | hf
    · exact (List.sublist_of_cons_sublist (htodo ▸ h.todo s.top List.mem_cons_self))
    · exact h.todo f (List.mem_cons_of_mem _ hf)
  tried f hf b hb := by
    rcases List.mem_cons.mp hf with rfl | hf
    · rcases h.tried s.top List.mem_cons_self b hb with hmem | hcov'
      · rw [htodo] at hmem
        rcases List.mem_cons.mp hmem with rfl | hmem
        · exact Or.inr hcov
        · exact Or.inl hmem
      · exact Or.inr hcov'
    · exact h.tried f (List.mem_cons_of_mem _ hf) b hb
  seen d hd := by
    exact (h.seen d hd).imp_right fun hc => hc.mono (List.Subset.refl _) (List.Subset.refl _)
  reached := h.reached
  distinct := h.distinct
  log := h.log

/-- A move to a new configuration. -/
theorem Inv.push (h : Inv P root s) (hP : P.Lawful) {a : A} {todo : List A} {d : C}
    (htodo : s.top.todo = a :: todo) (hnext : P.next s.top.config a = some d)
    (hnew : ∀ e ∈ s.seen, ¬ P.same d e) :
    Inv P root ⟨⟨d, P.moves d⟩, (a, ⟨s.top.config, todo⟩) :: s.below, d :: s.seen, s.log⟩ := by
  have hsub : (a :: todo).Sublist (P.moves s.top.config) :=
    htodo ▸ h.todo s.top List.mem_cons_self
  have hlinked : Linked P root ((a, ⟨s.top.config, todo⟩) :: s.below) d :=
    ⟨hsub.subset List.mem_cons_self, hnext, h.linked⟩
  have hcov : ∀ {e}, Covered P s e → ∃ e' ∈ d :: s.seen, P.same e e' := fun hc =>
    hc.imp fun _ hx => ⟨List.mem_cons_of_mem _ hx.1, hx.2⟩
  refine ⟨hlinked, fun f hf => ?_, fun f hf b hb => ?_, fun e he => ?_, fun e he => ?_, ?_, h.log⟩
  · rcases List.mem_cons.mp hf with rfl | hf
    · exact List.Sublist.refl _
    · rcases List.mem_cons.mp hf with rfl | hf
      · exact List.sublist_of_cons_sublist hsub
      · exact h.todo f (List.mem_cons_of_mem _ hf)
  · rcases List.mem_cons.mp hf with rfl | hf
    · exact Or.inl hb
    · rcases List.mem_cons.mp hf with rfl | hf
      · rcases h.tried s.top List.mem_cons_self b hb with hmem | hc
        · rw [htodo] at hmem
          rcases List.mem_cons.mp hmem with rfl | hmem
          · refine Or.inr fun d' hd' => ?_
            obtain rfl := Option.some.inj (hnext.symm.trans hd')
            exact ⟨d, List.mem_cons_self, hP.refl d⟩
          · exact Or.inl hmem
        · exact Or.inr fun d' hd' => hcov (hc d' hd')
      · exact (h.tried f (List.mem_cons_of_mem _ hf) b hb).imp_right
          fun hc d' hd' => hcov (hc d' hd')
  · rcases List.mem_cons.mp he with rfl | he
    · exact Or.inl List.mem_cons_self
    · exact (h.seen e he).imp (List.mem_cons_of_mem _) fun hc =>
        hc.mono (List.subset_cons_self _ _) (List.Subset.refl _)
  · rcases List.mem_cons.mp he with rfl | he
    · exact ⟨_, hlinked.reaches⟩
    · exact h.reached e he
  · exact List.Pairwise.cons hnew h.distinct

/-- A frame whose moves have all been tried is given up. -/
theorem Inv.pop (h : Inv P root s) {a : A} {frame : Frame C A} {below : List (A × Frame C A)}
    (hgoal : P.goal s.top.config = false) (htodo : s.top.todo = [])
    (hbelow : s.below = (a, frame) :: below) :
    Inv P root ⟨frame, below, s.seen, s.log ++ [s.path]⟩ := by
  have hframes : s.frames = s.top :: frame :: below.map Prod.snd := by
    simp [State.frames, hbelow]
  have hpath : P.Reaches root s.path s.top.config := h.linked.reaches
  have hlinked := h.linked
  rw [hbelow] at hlinked
  have hclosed : Closed P root ⟨frame, below, s.seen, s.log ++ [s.path]⟩ s.top.config := by
    refine ⟨hgoal, fun b hb => ?_, s.path, by simp, hpath⟩
    rcases h.tried s.top List.mem_cons_self b hb with hmem | hc
    · rw [htodo] at hmem
      cases hmem
    · exact hc
  refine ⟨hlinked.2.2, fun f hf => ?_, fun f hf b hb => ?_, fun d hd => ?_, h.reached, h.distinct,
    fun p hp => ?_⟩
  · exact h.todo f (hframes ▸ List.mem_cons_of_mem _ hf)
  · exact h.tried f (hframes ▸ List.mem_cons_of_mem _ hf) b hb
  · rcases h.seen d hd with hopen | hc
    · rw [State.opened, hframes] at hopen
      rcases List.mem_cons.mp hopen with rfl | hopen
      · exact Or.inr hclosed
      · exact Or.inl hopen
    · exact Or.inr (hc.mono (List.Subset.refl _) (List.subset_append_left _ _))
  · rcases List.mem_append.mp hp with hp | hp
    · exact h.log p hp
    · obtain rfl := List.mem_singleton.mp hp
      exact ⟨_, hpath⟩

theorem Inv.step (h : Inv P root s) (hP : P.Lawful) (hs : P.step s = .inl s') :
    Inv P root s' := by
  rcases step_cases hs with ⟨-, he⟩ | ⟨hgoal, hcases⟩
  · cases he
  · rcases hcases with ⟨a, todo, htodo, hcov, he⟩ | ⟨a, todo, d, htodo, hnext, hnew, he⟩ |
      ⟨-, -, he⟩ | ⟨a, frame, below, htodo, hbelow, he⟩
    · obtain rfl := Sum.inl.inj he
      exact h.skip htodo hcov
    · obtain rfl := Sum.inl.inj he
      exact h.push hP htodo hnext hnew
    · cases he
    · obtain rfl := Sum.inl.inj he
      exact h.pop hgoal htodo hbelow

/-- A search that fails has closed a configuration equal to each one that can be reached. -/
theorem Inv.closed (h : Inv P root s) (hP : P.Lawful) (hs : P.step s = .inr false) {p : List A}
    {c : C} (hp : P.Reaches root p c) (hne : p ≠ []) :
    ∃ d, P.same c d ∧ Closed P root s d := by
  rcases step_cases hs with ⟨-, he⟩ | ⟨hgoal, hcases⟩
  · cases he
  rcases hcases with ⟨_, _, _, _, he⟩ | ⟨_, _, _, _, _, _, he⟩ | ⟨htodo, hbelow, -⟩ |
    ⟨_, _, _, _, _, he⟩
  · cases he
  · cases he
  · have hroot : s.top.config = root := by
      have := h.linked
      rwa [hbelow] at this
    have hmoves : ∀ a ∈ P.moves root, ∀ e, P.next root a = some e → Covered P s e := by
      intro a ha
      rw [← hroot] at ha ⊢
      refine (h.tried s.top List.mem_cons_self a ha).resolve_left fun hmem => ?_
      rw [htodo] at hmem
      cases hmem
    -- only the root is left on the stack
    have hclosed : ∀ d ∈ s.seen, Closed P root s d := by
      intro d hd
      refine (h.seen d hd).resolve_left fun hopen => ?_
      simp [State.opened, State.frames, hbelow] at hopen
    -- follow the path, keeping an equal configuration in the table
    have hwalk : ∀ q c e, Covered P s c → P.Reaches c q e → Covered P s e := by
      intro q
      induction q with
      | nil =>
        rintro c e hc rfl
        exact hc
      | cons a q ih =>
        rintro c e ⟨c', hc', hsame⟩ ⟨ha, d, hd, hq⟩
        obtain ⟨ha', d', hd', hsame'⟩ := hP.next hsame ha hd
        obtain ⟨d'', hd'', hsame''⟩ := (hclosed c' hc').moves a ha' d' hd'
        exact ih d e ⟨d'', hd'', hP.trans hsame' hsame''⟩ hq
    cases p with
    | nil => exact absurd rfl hne
    | cons a p =>
      obtain ⟨ha, e, he, hp⟩ := hp
      obtain ⟨d, hd, hsame⟩ := hwalk p e c (hmoves a ha e he) hp
      exact ⟨d, hsame, hclosed d hd⟩
  · cases he

/-- The search ends in a state that is reached by its rounds. -/
theorem Inv.run (hP : P.Lawful) {fuel : ℕ} (h : Inv P root s) {found : Bool}
    (hr : P.run fuel s = some (found, s')) : Inv P root s' ∧ P.step s' = .inr found := by
  induction fuel generalizing s with
  | zero => cases hr
  | succ fuel ih =>
    simp only [Problem.run] at hr
    cases hs : P.step s with
    | inl t =>
      rw [hs] at hr
      exact ih (h.step hP hs) hr
    | inr b =>
      rw [hs] at hr
      obtain ⟨rfl, rfl⟩ := Prod.mk.inj (Option.some.inj hr)
      exact ⟨h, hs⟩

/-- The result of the search is right. -/
theorem found_iff (hP : P.Lawful) {fuel : ℕ} {found : Bool}
    (hr : P.run fuel (P.start root) = some (found, s)) :
    found = true ↔ ∃ p c, P.Reaches root p c ∧ P.goal c := by
  obtain ⟨hi, hs⟩ := (start_inv root).run hP hr
  constructor
  · rintro rfl
    rcases step_cases hs with ⟨hgoal, -⟩ | ⟨-, hcases⟩
    · exact ⟨_, _, hi.linked.reaches, hgoal⟩
    · rcases hcases with ⟨_, _, _, _, he⟩ | ⟨_, _, _, _, _, _, he⟩ | ⟨_, _, he⟩ |
        ⟨_, _, _, _, _, he⟩ <;> cases he
  · rintro ⟨p, c, hp, hgoal⟩
    by_contra hfound
    rw [Bool.not_eq_true] at hfound
    subst hfound
    cases p with
    | nil =>
      obtain rfl : root = c := hp
      rcases step_cases hs with ⟨-, he⟩ | ⟨hnot, hcases⟩
      · cases he
      · rcases hcases with ⟨_, _, _, _, he⟩ | ⟨_, _, _, _, _, _, he⟩ | ⟨_, hbelow, -⟩ |
          ⟨_, _, _, _, _, he⟩
        · cases he
        · cases he
        · have hlinked := hi.linked
          rw [hbelow] at hlinked
          rw [show s.top.config = root from hlinked, hgoal] at hnot
          cases hnot
        · cases he
    | cons a p =>
      obtain ⟨d, hsame, hclosed⟩ := hi.closed hP hs hp (by simp)
      rw [hP.goal hsame, hclosed.noGoal] at hgoal
      cases hgoal

/-! The search ends: the table only grows, the stack is as deep as a path, and a frame has only so
many moves. -/

/-- Bounds on the length of paths and the number of moves. -/
structure Bounded (P : Problem C A) (root : C) (B D : ℕ) : Prop where
  depth : ∀ {p c}, P.Reaches root p c → p.length ≤ D
  moves : ∀ {p c}, P.Reaches root p c → (P.moves c).length ≤ B

/-- The configurations that can be reached in at most `k` moves. -/
def ball (P : Problem C A) : ℕ → C → List C
  | 0, c => [c]
  | k + 1, c => c :: ((P.moves c).filterMap (P.next c)).flatMap (ball P k)

theorem Reaches.mem_ball {k : ℕ} {c d : C} {p : List A} (hp : P.Reaches c p d)
    (hk : p.length ≤ k) : d ∈ ball P k c := by
  induction p generalizing c k with
  | nil =>
    obtain rfl : c = d := hp
    cases k <;> exact List.mem_cons_self
  | cons a p ih =>
    obtain ⟨ha, e, he, hp⟩ := hp
    cases k with
    | zero => simp at hk
    | succ k =>
      refine List.mem_cons_of_mem _ (List.mem_flatMap.mpr ⟨e, ?_, ih hp (by simpa using hk)⟩)
      exact List.mem_filterMap.mpr ⟨a, ha, he⟩

theorem Bounded.length_ball {B D : ℕ} (hb : Bounded P root B D) (k : ℕ) {q : List A} {c : C}
    (hq : P.Reaches root q c) : (ball P k c).length ≤ (B + 1) ^ k := by
  induction k generalizing q c with
  | zero => simp [ball]
  | succ k ih =>
    have hsum : ∀ l : List C, (∀ e ∈ l, (ball P k e).length ≤ (B + 1) ^ k) →
        (l.flatMap (ball P k)).length ≤ l.length * (B + 1) ^ k := by
      intro l hl
      rw [List.length_flatMap]
      refine (List.sum_le_card_nsmul _ ((B + 1) ^ k) fun x hx => ?_).trans (by simp)
      obtain ⟨e, he, rfl⟩ := List.mem_map.mp hx
      exact hl e he
    have hlen := hsum ((P.moves c).filterMap (P.next c)) fun e he => by
      obtain ⟨a, ha, he⟩ := List.mem_filterMap.mp he
      exact ih (reaches_append hq (q := [a]) ⟨ha, e, he, rfl⟩)
    have hfew : ((P.moves c).filterMap (P.next c)).length ≤ B :=
      (List.length_filterMap_le _ _).trans (hb.moves hq)
    have hone : 1 ≤ (B + 1) ^ k := Nat.one_le_pow _ _ (Nat.succ_pos B)
    calc (ball P (k + 1) c).length
        = (((P.moves c).filterMap (P.next c)).flatMap (ball P k)).length + 1 := rfl
      _ ≤ B * (B + 1) ^ k + (B + 1) ^ k :=
        Nat.add_le_add (hlen.trans (Nat.mul_le_mul_right _ hfew)) hone
      _ = (B + 1) ^ (k + 1) := by ring

theorem Inv.length_seen (h : Inv P root s) (hP : P.Lawful) {B D : ℕ} (hb : Bounded P root B D) :
    s.seen.length ≤ (B + 1) ^ D := by
  have hn : s.seen.Nodup := h.distinct.imp fun {d e} hne => by
    rintro rfl
    exact hne (hP.refl d)
  have hsub : s.seen ⊆ ball P D root := by
    intro d hd
    obtain ⟨p, hp⟩ := h.reached d hd
    exact hp.mem_ball (hb.depth hp)
  exact (List.subperm_of_subset hn hsub).length_le.trans
    (hb.length_ball D (q := []) rfl)

/-- What is left to do: new configurations, then frames to leave, then moves of the frame. -/
def work (B D : ℕ) (s : State C A) : ℕ :=
  (((B + 1) ^ D - s.seen.length) * (D + 1) + s.below.length) * (B + 1) + s.top.todo.length

/-- Each round leaves less to do. -/
theorem Inv.work_lt (h : Inv P root s) (hP : P.Lawful) {B D : ℕ} (hb : Bounded P root B D)
    (hs : P.step s = .inl s') : work B D s' < work B D s := by
  have hi' := h.step hP hs
  have hseen := hi'.length_seen hP hb
  have hdepth : s'.below.length ≤ D := by
    have := hb.depth hi'.linked.reaches
    simpa using this
  have hmoves : s'.top.todo.length ≤ B :=
    (hi'.todo s'.top List.mem_cons_self).length_le.trans (hb.moves hi'.linked.reaches)
  rcases step_cases hs with ⟨-, he⟩ | ⟨hgoal, hcases⟩
  · cases he
  rcases hcases with ⟨a, todo, htodo, hcov, he⟩ | ⟨a, todo, d, htodo, hnext, hnew, he⟩ |
    ⟨-, -, he⟩ | ⟨a, frame, below, htodo, hbelow, he⟩
  · obtain rfl := Sum.inl.inj he
    simp only [work, htodo, List.length_cons]
    omega
  · obtain rfl := Sum.inl.inj he
    simp only [List.length_cons] at hseen hdepth hmoves
    obtain ⟨k, hk⟩ : ∃ k, (B + 1) ^ D - s.seen.length = k + 1 :=
      ⟨(B + 1) ^ D - s.seen.length - 1, by omega⟩
    have hk' : (B + 1) ^ D - (s.seen.length + 1) = k := by omega
    simp only [work, List.length_cons, hk, hk']
    calc (k * (D + 1) + (s.below.length + 1)) * (B + 1) + (P.moves d).length
        ≤ (k * (D + 1) + D) * (B + 1) + B := by gcongr
      _ < (k + 1) * (D + 1) * (B + 1) := by
        rw [show (k + 1) * (D + 1) * (B + 1) = (k * (D + 1) + D) * (B + 1) + (B + 1) by ring]
        omega
      _ ≤ ((k + 1) * (D + 1) + s.below.length) * (B + 1) + s.top.todo.length :=
        (Nat.mul_le_mul_right _ (Nat.le_add_right _ _)).trans (Nat.le_add_right _ _)
  · cases he
  · obtain rfl := Sum.inl.inj he
    simp only [work, hbelow, List.length_cons]
    have hone : ∀ x y : ℕ, (x + (y + 1)) * (B + 1) = (x + y) * (B + 1) + (B + 1) := by
      intro x y
      ring
    rw [hone]
    change frame.todo.length ≤ B at hmoves
    omega

/-- A number of rounds that is enough for every search within the bounds. -/
def rounds (B D : ℕ) : ℕ := (B + 1) ^ D * (D + 1) * (B + 1) + B + 1

theorem Inv.exists_run (hP : P.Lawful) {B D : ℕ} (hb : Bounded P root B D) {fuel : ℕ}
    (h : Inv P root s) (hfuel : work B D s < fuel) :
    ∃ found s', P.run fuel s = some (found, s') := by
  induction fuel generalizing s with
  | zero => omega
  | succ fuel ih =>
    simp only [Problem.run]
    cases hs : P.step s with
    | inr found => exact ⟨found, s, rfl⟩
    | inl t =>
      have := h.work_lt hP hb hs
      exact ih (h.step hP hs) (by omega)

/-- The search ends. -/
theorem exists_run (hP : P.Lawful) {B D : ℕ} (hb : Bounded P root B D) :
    ∃ found s, P.run (rounds B D) (P.start root) = some (found, s) := by
  refine (start_inv root).exists_run hP hb ?_
  have hroot : (P.moves root).length ≤ B := hb.moves (p := []) rfl
  simp only [work, rounds, start, List.length_nil, Nat.sub_zero, Nat.add_zero]
  omega

/-- A search that fails has logged, for each path, a path to an equal configuration. -/
theorem logged_of_not_found (hP : P.Lawful) {fuel : ℕ}
    (hr : P.run fuel (P.start root) = some (false, s)) {p : List A} {c : C}
    (hp : P.Reaches root p c) (hne : p ≠ []) :
    ∃ q ∈ s.log, ∃ d, P.Reaches root q d ∧ P.same c d := by
  obtain ⟨hi, hs⟩ := (start_inv root).run hP hr
  obtain ⟨d, hsame, hclosed⟩ := hi.closed hP hs hp hne
  obtain ⟨q, hq, hd⟩ := hclosed.logged
  exact ⟨q, hq, d, hd, hsame⟩

end Problem

end Basis.DepthFirst
