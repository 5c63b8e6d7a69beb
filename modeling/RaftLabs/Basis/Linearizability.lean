import Mathlib.Data.List.Forall2
import Mathlib.Data.List.Perm.Basic
import Mathlib.Data.List.Sort
import Mathlib.Order.WithBot
import Mathlib.Tactic

/-! Linearizability of a history of operations with call and return times against a sequential
object. A linearizable history can be given points in time, one within each operation, and with
them the histories of independent objects can be merged: a history is linearizable if and only
if its part at each object is. -/
namespace Basis

/-- A sequential object: an input with an output is possible in a state or not, and leads to
the next state. -/
structure SeqSpec (σ ι ο : Type*) where
  init : σ
  step : σ → ι → ο → Option σ

structure Operation (ι ο T : Type*) where
  input : ι
  call : T
  output : ο
  ret : T
  deriving DecidableEq, Repr

/-- A call that has not returned. -/
structure Invocation (ι T : Type*) where
  input : ι
  call : T
  deriving DecidableEq, Repr

/-- An input with its output, taken at one point in time. -/
structure Effect (ι ο T : Type*) where
  input : ι
  output : ο
  time : T

variable {σ ι ο T κ : Type*}

/-- The effect as an operation of no duration. -/
def Effect.toOperation (e : Effect ι ο T) : Operation ι ο T := ⟨e.input, e.time, e.output, e.time⟩

/-- Another clock. -/
def Operation.mapTime {T' : Type*} (f : T → T') (a : Operation ι ο T) : Operation ι ο T' :=
  ⟨a.input, f a.call, a.output, f a.ret⟩

/-- The call, taken to have an output and to return after everything else. -/
def Invocation.complete (c : Invocation ι T) (output : ο) : Operation ι ο (WithTop T) :=
  ⟨c.input, c.call, output, ⊤⟩

/-- The operation returned before the other one was called. -/
def Operation.Precedes [LT T] (a b : Operation ι ο T) : Prop := a.ret < b.call

namespace SeqSpec

variable (M : SeqSpec σ ι ο)

/-- The state after a sequence of operations, if it is possible. -/
def exec (s : σ) (l : List (Operation ι ο T)) : Option σ :=
  l.foldlM (fun s a => M.step s a.input a.output) s

/-- The order `l` of the operations is possible and does not contradict real time. -/
structure Linearizes [LT T] (ops l : List (Operation ι ο T)) : Prop where
  perm : l.Perm ops
  realTime : l.Pairwise fun a b => ¬ b.Precedes a
  legal : (M.exec M.init l).isSome

def Linearizable [LT T] (ops : List (Operation ι ο T)) : Prop := ∃ l, M.Linearizes ops l

/-- A history with pending calls: some of these have taken effect, with some output, and the
others have not. -/
def LinearizableWith [LT T] (ops : List (Operation ι ο T)) (pending : List (Invocation ι T)) :
    Prop :=
  ∃ taken : List (Invocation ι T × ο), (taken.map Prod.fst).Subperm pending ∧
    M.Linearizable (ops.map (Operation.mapTime ((↑) : T → WithTop T)) ++
      taken.map fun c => c.1.complete c.2)

variable {M}

@[simp] theorem exec_nil (s : σ) : M.exec s ([] : List (Operation ι ο T)) = some s := rfl

@[simp] theorem exec_cons (s : σ) (a : Operation ι ο T) (l : List (Operation ι ο T)) :
    M.exec s (a :: l) = (M.step s a.input a.output).bind fun s' => M.exec s' l := rfl

theorem exec_append (s : σ) (l l' : List (Operation ι ο T)) :
    M.exec s (l ++ l') = (M.exec s l).bind fun s' => M.exec s' l' := by
  simp only [exec, List.foldlM_append]
  rfl

/-- An order of the images is the image of an order. -/
theorem linearizable_map_iff [LT T] {I : Type*} (f : I → Operation ι ο T) (is : List I) :
    M.Linearizable (is.map f) ↔ ∃ l : List I, l.Perm is ∧
      (l.Pairwise fun i j => ¬ (f j).Precedes (f i)) ∧ (M.exec M.init (l.map f)).isSome := by
  constructor
  · rintro ⟨l, hperm, hreal, hlegal⟩
    have hfor : List.Forall₂ (fun a i => a = f i) (is.map f) is := by
      rw [List.forall₂_map_left_iff]
      exact List.forall₂_same.mpr fun _ _ => rfl
    have hcomp : Relation.Comp List.Perm (List.Forall₂ fun a i => a = f i) l is :=
      ⟨_, hperm, hfor⟩
    rw [← List.forall₂_comp_perm_eq_perm_comp_forall₂] at hcomp
    obtain ⟨l', hl, hperm'⟩ := hcomp
    obtain rfl : l = l'.map f := by
      rw [← List.forall₂_eq_eq_eq, List.forall₂_map_right_iff]
      exact hl
    exact ⟨l', hperm', List.pairwise_map.mp hreal, hlegal⟩
  · rintro ⟨l, hperm, hreal, hlegal⟩
    exact ⟨l.map f, hperm.map f, List.pairwise_map.mpr hreal, hlegal⟩

/-- A history is linearizable if another one with more real-time order is, whose object
simulates its own. -/
theorem Linearizable.simulation [LT T] {σ' ι' ο' T' : Type*} [LT T'] {M' : SeqSpec σ' ι' ο'}
    {I : Type*} {f : I → Operation ι ο T} {g : I → Operation ι' ο' T'} {is : List I}
    (h : M.Linearizable (is.map f)) (abs : σ → σ') (hinit : abs M.init = M'.init)
    (hstep : ∀ i ∈ is, ∀ s s', M.step s (f i).input (f i).output = some s' →
      M'.step (abs s) (g i).input (g i).output = some (abs s'))
    (hprec : ∀ i ∈ is, ∀ j ∈ is, (g i).Precedes (g j) → (f i).Precedes (f j)) :
    M'.Linearizable (is.map g) := by
  have hexec : ∀ (l : List I) (s s' : σ), (∀ i ∈ l, i ∈ is) → M.exec s (l.map f) = some s' →
      M'.exec (abs s) (l.map g) = some (abs s') := by
    intro l
    induction l with
    | nil =>
      intro s s' _ hs
      obtain rfl := Option.some.inj hs
      rfl
    | cons i l ih =>
      intro s s' hl hs
      obtain ⟨t, ht, hs⟩ := Option.bind_eq_some_iff.mp hs
      rw [List.map_cons, exec_cons, hstep i (hl i List.mem_cons_self) s t ht, Option.bind_some]
      exact ih t s' (fun j hj => hl j (List.mem_cons_of_mem _ hj)) hs
  obtain ⟨l, hperm, hreal, hlegal⟩ := (linearizable_map_iff f is).mp h
  have hmem : ∀ i ∈ l, i ∈ is := fun i hi => hperm.mem_iff.mp hi
  obtain ⟨s', hs'⟩ := Option.isSome_iff_exists.mp hlegal
  refine (linearizable_map_iff g is).mpr ⟨l, hperm, ?_, ?_⟩
  · exact hreal.imp_of_mem fun hi hj hnot hp => hnot (hprec _ (hmem _ hj) _ (hmem _ hi) hp)
  · rw [← hinit, hexec l _ s' hmem hs']
    rfl

/-- With no pending call the history itself is linearizable. -/
theorem LinearizableWith.linearizable [LinearOrder T] {ops : List (Operation ι ο T)}
    (h : M.LinearizableWith ops []) : M.Linearizable ops := by
  obtain ⟨taken, hsub, hlin⟩ := h
  obtain rfl : taken = [] := by simpa using hsub
  rw [List.map_nil, List.append_nil] at hlin
  have hsim : M.Linearizable (ops.map id) :=
    hlin.simulation id rfl (fun _ _ _ _ hs => hs) fun _ _ _ _ => WithTop.coe_lt_coe.mpr
  rwa [List.map_id] at hsim

/-- The beginning of an order of the operations `op`: it has with each operation those that
precede it. -/
structure PartiallyLinearizes [LT T] {I : Type*} (M : SeqSpec σ ι ο) (op : I → Operation ι ο T)
    (l : List I) : Prop where
  nodup : l.Nodup
  realTime : l.Pairwise fun i j => ¬ (op j).Precedes (op i)
  closed : ∀ i ∈ l, ∀ j, (op j).Precedes (op i) → j ∈ l
  legal : (M.exec M.init (l.map op)).isSome

section Partial
variable [LT T] {I : Type*} {op : I → Operation ι ο T}

theorem partiallyLinearizes_nil : M.PartiallyLinearizes op [] :=
  ⟨List.nodup_nil, List.Pairwise.nil, by simp, rfl⟩

/-- An operation can come next if everything that precedes it has come. -/
theorem partiallyLinearizes_concat (hirr : ∀ i, ¬ (op i).Precedes (op i)) {l : List I} {i : I} :
    M.PartiallyLinearizes op (l ++ [i]) ↔
      M.PartiallyLinearizes op l ∧ i ∉ l ∧ (∀ j, (op j).Precedes (op i) → j ∈ l) ∧
        ∃ s s', M.exec M.init (l.map op) = some s ∧
          M.step s (op i).input (op i).output = some s' := by
  have hexec : (M.exec M.init ((l ++ [i]).map op)).isSome ↔ ∃ s s',
      M.exec M.init (l.map op) = some s ∧ M.step s (op i).input (op i).output = some s' := by
    rw [List.map_append, exec_append, List.map_singleton]
    simp only [Option.isSome_iff_exists, Option.bind_eq_some_iff, exec_cons, exec_nil]
    exact ⟨fun ⟨_, s, hs, s', hs', _⟩ => ⟨s, s', hs, hs'⟩,
      fun ⟨s, s', hs, hs'⟩ => ⟨s', s, hs, s', hs', rfl⟩⟩
  constructor
  · rintro ⟨hnodup, hreal, hclosed, hlegal⟩
    obtain ⟨s, s', hs, hs'⟩ := hexec.mp hlegal
    obtain ⟨hl, -, hdisj⟩ := List.nodup_append.mp hnodup
    obtain ⟨hreal', -, hlast⟩ := List.pairwise_append.mp hreal
    have hi : i ∉ l := fun hi => hdisj i hi i (List.mem_singleton_self i) rfl
    refine ⟨⟨hl, hreal', fun j hj k hkj => ?_, by simp [hs]⟩, hi, fun j hji => ?_, s, s', hs, hs'⟩
    · rcases List.mem_append.mp (hclosed j (List.mem_append_left _ hj) k hkj) with hk | hk
      · exact hk
      · obtain rfl := List.mem_singleton.mp hk
        exact absurd hkj (hlast j hj k hk)
    · rcases List.mem_append.mp (hclosed i (by simp) j hji) with hj | hj
      · exact hj
      · obtain rfl := List.mem_singleton.mp hj
        exact absurd hji (hirr j)
  · rintro ⟨⟨hnodup, hreal, hclosed, -⟩, hi, hbefore, hsteps⟩
    refine ⟨?_, ?_, fun j hj k hkj => ?_, hexec.mpr hsteps⟩
    · exact List.nodup_append.mpr ⟨hnodup, List.nodup_singleton i, by
        rintro j hj k hk rfl
        exact hi (List.mem_singleton.mp hk ▸ hj)⟩
    · refine List.pairwise_append.mpr ⟨hreal, List.pairwise_singleton _ _, fun j hj k hk hkj => ?_⟩
      obtain rfl := List.mem_singleton.mp hk
      exact hi (hclosed j hj k hkj)
    · rcases List.mem_append.mp hj with hj | hj
      · exact List.mem_append_left _ (hclosed j hj k hkj)
      · obtain rfl := List.mem_singleton.mp hj
        exact List.mem_append_left _ (hbefore k hkj)

/-- A history is linearizable if a beginning of an order has all of its operations. -/
theorem linearizable_iff_partiallyLinearizes {n : ℕ} {op : Fin n → Operation ι ο T} :
    M.Linearizable ((List.finRange n).map op) ↔
      ∃ l, M.PartiallyLinearizes op l ∧ ∀ i, i ∈ l := by
  rw [linearizable_map_iff]
  constructor
  · rintro ⟨l, hperm, hreal, hlegal⟩
    have hall : ∀ i, i ∈ l := fun i => hperm.mem_iff.mpr (List.mem_finRange i)
    exact ⟨l, ⟨hperm.nodup_iff.mpr (List.nodup_finRange n), hreal, fun _ _ j _ => hall j, hlegal⟩,
      hall⟩
  · rintro ⟨l, hl, hall⟩
    refine ⟨l, ?_, hl.realTime, hl.legal⟩
    exact (List.perm_ext_iff_of_nodup hl.nodup (List.nodup_finRange n)).mpr fun i =>
      ⟨fun _ => List.mem_finRange i, fun _ => hall i⟩

end Partial

/-! Objects that are kept by a log. -/

section Log
variable {I : Type*} {f : I → Operation ι ο T} {pos : I → ℕ} {state : ℕ → σ}

theorem exec_of_sorted (l : List I) (q : ℕ) (hsorted : l.Pairwise fun i j => pos i < pos j)
    (hle : ∀ i ∈ l, q ≤ pos i)
    (hstep : ∀ i ∈ l, M.step (state (pos i)) (f i).input (f i).output = some (state (pos i + 1)))
    (hrest : ∀ p, q ≤ p → (∃ i ∈ l, p < pos i) → (∀ i ∈ l, pos i ≠ p) →
      state (p + 1) = state p) :
    (M.exec (state q) (l.map f)).isSome := by
  induction l generalizing q with
  | nil => rfl
  | cons i l ih =>
    obtain ⟨hhead, hsorted⟩ := List.pairwise_cons.mp hsorted
    -- nothing happens between `q` and the position of the first operation
    have hconst : ∀ k, q + k ≤ pos i → state (q + k) = state q := by
      intro k
      induction k with
      | zero => intro _; rfl
      | succ k ihk =>
        intro hk
        rw [← ihk (by omega)]
        refine hrest (q + k) (by omega) ⟨i, List.mem_cons_self, by omega⟩ fun j hj => ?_
        rcases List.mem_cons.mp hj with rfl | hj
        · omega
        · have := hhead j hj
          omega
    have hq := hle i List.mem_cons_self
    have hstart : state q = state (pos i) := by
      have := hconst (pos i - q) (by omega)
      rwa [Nat.add_sub_cancel' hq, eq_comm] at this
    rw [List.map_cons, exec_cons, hstart, hstep i List.mem_cons_self, Option.bind_some]
    refine ih (pos i + 1) hsorted (fun j hj => hhead j hj)
      (fun j hj => hstep j (List.mem_cons_of_mem _ hj)) fun p hp hex hno => ?_
    obtain ⟨j, hj, hlt⟩ := hex
    refine hrest p (by omega) ⟨j, List.mem_cons_of_mem _ hj, hlt⟩ fun j hj => ?_
    rcases List.mem_cons.mp hj with rfl | hj
    · omega
    · exact hno j hj

/-- Operations that take effect at different positions of a log, the other entries of which have
no effect, are linearizable if the positions agree with real time. -/
theorem linearizable_of_log [LT T] (pos : I → ℕ) (state : ℕ → σ) (is : List I)
    (hinit : state 0 = M.init)
    (hdistinct : is.Pairwise fun i j => pos i ≠ pos j)
    (hstep : ∀ i ∈ is, M.step (state (pos i)) (f i).input (f i).output = some (state (pos i + 1)))
    (hrest : ∀ p, (∃ i ∈ is, p < pos i) → (∀ i ∈ is, pos i ≠ p) → state (p + 1) = state p)
    (hreal : ∀ i ∈ is, ∀ j ∈ is, pos i < pos j → ¬ (f j).Precedes (f i)) :
    M.Linearizable (is.map f) := by
  have hperm := List.perm_insertionSort (fun i j => pos i ≤ pos j) is
  have hmem : ∀ {i}, i ∈ is.insertionSort (fun i j => pos i ≤ pos j) ↔ i ∈ is := hperm.mem_iff
  have htotal : Std.Total fun i j => pos i ≤ pos j := ⟨fun _ _ => le_total _ _⟩
  have htrans : IsTrans I fun i j => pos i ≤ pos j := ⟨fun _ _ _ => le_trans⟩
  have hsorted : (is.insertionSort fun i j => pos i ≤ pos j).Pairwise fun i j =>
      pos i < pos j := by
    refine ((List.pairwise_insertionSort _ is).and (hperm.symm.pairwise hdistinct ?_)).imp ?_
    · exact fun h => h.symm
    · exact fun h => lt_of_le_of_ne h.1 h.2
  refine (linearizable_map_iff f is).mpr ⟨_, hperm, ?_, ?_⟩
  · exact hsorted.imp_of_mem fun hi hj hlt => hreal _ (hmem.mp hi) _ (hmem.mp hj) hlt
  · rw [← hinit]
    refine exec_of_sorted _ 0 hsorted (fun _ _ => Nat.zero_le _) (fun i hi => hstep i (hmem.mp hi))
      fun p _ hex hno => hrest p ?_ fun i hi => hno i (hmem.mpr hi)
    obtain ⟨i, hi, hlt⟩ := hex
    exact ⟨i, hmem.mp hi, hlt⟩

end Log

/-- What a log of effects says about a history: every operation that has returned has an effect
within its time, and every effect that is not a read belongs to an operation or to a pending
call. -/
structure Accounts [LE T] (M : SeqSpec σ ι ο) (reads : ι → Prop) (log : List (Effect ι ο T))
    (history : List (Operation ι ο T)) (pending : List (Invocation ι T)) : Prop where
  legal : (M.exec M.init (log.map Effect.toOperation)).isSome
  sorted : log.Pairwise fun e e' => e.time ≤ e'.time
  once : log.Pairwise fun e e' => e.input = e'.input → reads e.input
  inputs : (history.map Operation.input).Nodup
  returned : ∀ a ∈ history, ∃ e ∈ log, e.input = a.input ∧ e.output = a.output ∧
    a.call ≤ e.time ∧ e.time ≤ a.ret
  called : ∀ e ∈ log, reads e.input ∨ (∃ a ∈ history, a.input = e.input) ∨
    ∃ c ∈ pending, c.input = e.input ∧ c.call ≤ e.time

section Effects
variable [LinearOrder T] {reads : ι → Prop} {log : List (Effect ι ο T)}
  {history : List (Operation ι ο T)} {pending : List (Invocation ι T)}

/-- The effect at position `p` of the log is that of the operation. -/
def EffectAt (log : List (Effect ι ο T)) (a : Operation ι ο (WithTop T)) (p : ℕ) : Prop :=
  ∃ e, log[p]? = some e ∧ e.input = a.input ∧ e.output = a.output ∧ a.call ≤ e.time ∧
    (e.time : WithTop T) ≤ a.ret

/-- The state after the first `p` effects. -/
def stateAt (M : SeqSpec σ ι ο) (log : List (Effect ι ο T)) (p : ℕ) : σ :=
  (M.exec M.init ((log.take p).map Effect.toOperation)).getD M.init

omit [LinearOrder T] in
theorem exec_take_succ {p : ℕ} {e : Effect ι ο T} (he : log[p]? = some e) :
    M.exec M.init ((log.take (p + 1)).map Effect.toOperation) =
      (M.exec M.init ((log.take p).map Effect.toOperation)).bind fun s =>
        M.step s e.input e.output := by
  rw [List.take_add_one, he, Option.toList_some, List.map_append, exec_append]
  refine congrArg _ (funext fun s => ?_)
  simp [Effect.toOperation]

theorem Accounts.step (h : M.Accounts reads log history pending) {p : ℕ} {e : Effect ι ο T}
    (he : log[p]? = some e) :
    M.step (M.stateAt log p) e.input e.output = some (M.stateAt log (p + 1)) := by
  have hlegal := h.legal
  rw [← List.take_append_drop (p + 1) log, List.map_append, exec_append] at hlegal
  obtain ⟨t, ht, -⟩ := Option.bind_eq_some_iff.mp (Option.eq_some_of_isSome hlegal)
  have hnext : M.stateAt log (p + 1) = t := by rw [stateAt, ht, Option.getD_some]
  rw [exec_take_succ he] at ht
  obtain ⟨s, hs, hstep⟩ := Option.bind_eq_some_iff.mp ht
  rw [hnext, stateAt, hs, Option.getD_some]
  exact hstep

/-- Two effects of a write are one. -/
theorem Accounts.eq_of_input (h : M.Accounts reads log history pending) {p q : ℕ}
    {e e' : Effect ι ο T} (he : log[p]? = some e) (he' : log[q]? = some e')
    (hinput : e.input = e'.input) (hwrite : ¬ reads e.input) : p = q := by
  have hlt : ∀ {p q : ℕ} {e e' : Effect ι ο T}, log[p]? = some e → log[q]? = some e' →
      e.input = e'.input → ¬ reads e.input → ¬ p < q := by
    intro p q e e' he he' hinput hwrite hlt
    obtain ⟨hp, rfl⟩ := List.getElem?_eq_some_iff.mp he
    obtain ⟨hq, rfl⟩ := List.getElem?_eq_some_iff.mp he'
    exact hwrite (List.pairwise_iff_getElem.mp h.once p q hp hq hlt hinput)
  have h₁ := hlt he he' hinput hwrite
  have h₂ := hlt he' he hinput.symm (hinput ▸ hwrite)
  omega

open Classical in
/-- The effects of pending calls. -/
noncomputable def unreturned (reads : ι → Prop) (log : List (Effect ι ο T))
    (history : List (Operation ι ο T)) : List (Effect ι ο T) :=
  log.filter fun e => ¬ reads e.input ∧ ∀ a ∈ history, a.input ≠ e.input

omit [LinearOrder T] in
theorem mem_unreturned {e : Effect ι ο T} : e ∈ unreturned reads log history ↔
    e ∈ log ∧ ¬ reads e.input ∧ ∀ a ∈ history, a.input ≠ e.input := by
  simp [unreturned]

theorem Accounts.unreturned_inputs (h : M.Accounts reads log history pending) :
    (unreturned reads log history).Pairwise fun e e' => e.input ≠ e'.input := by
  classical
  refine (h.once.filter _).imp_of_mem fun {e e'} he _ hread heq => ?_
  exact (mem_unreturned.mp he).2.1 (hread heq)

theorem Accounts.exists_calls (h : M.Accounts reads log history pending) :
    ∃ call : Effect ι ο T → Invocation ι T, ∀ e ∈ unreturned reads log history,
      call e ∈ pending ∧ (call e).input = e.input ∧ (call e).call ≤ e.time := by
  have hcall : ∀ e : Effect ι ο T, ∃ c : Invocation ι T, e ∈ unreturned reads log history →
      c ∈ pending ∧ c.input = e.input ∧ c.call ≤ e.time := by
    intro e
    by_cases he : e ∈ unreturned reads log history
    · obtain ⟨hmem, hwrite, hnot⟩ := mem_unreturned.mp he
      rcases h.called e hmem with hread | ⟨a, ha, heq⟩ | ⟨c, hc⟩
      · exact absurd hread hwrite
      · exact absurd heq (hnot a ha)
      · exact ⟨c, fun _ => hc⟩
    · exact ⟨⟨e.input, e.time⟩, fun he' => absurd he' he⟩
  choose call hcall using hcall
  exact ⟨call, hcall⟩

section Calls
variable {call : Effect ι ο T → Invocation ι T}

/-- The operations that have returned and the pending calls that have an effect. -/
noncomputable def effective (reads : ι → Prop) (log : List (Effect ι ο T))
    (history : List (Operation ι ο T)) (call : Effect ι ο T → Invocation ι T) :
    List (Operation ι ο (WithTop T)) :=
  history.map (Operation.mapTime ((↑) : T → WithTop T)) ++
    (unreturned reads log history).map fun e => (call e).complete e.output

omit [LinearOrder T] in
theorem mem_effective {a : Operation ι ο (WithTop T)} :
    a ∈ effective reads log history call ↔ (∃ b ∈ history, a = b.mapTime (↑)) ∨
      ∃ e ∈ unreturned reads log history, a = (call e).complete e.output := by
  simp only [effective, List.mem_append, List.mem_map, eq_comm (a := a)]

theorem Accounts.effective_inputs (h : M.Accounts reads log history pending)
    (hcall : ∀ e ∈ unreturned reads log history, (call e).input = e.input) :
    (effective reads log history call).Pairwise fun a b => a.input ≠ b.input := by
  refine List.pairwise_append.mpr ⟨?_, ?_, ?_⟩
  · exact List.pairwise_map.mpr (List.pairwise_map.mp h.inputs)
  · refine List.pairwise_map.mpr (h.unreturned_inputs.imp_of_mem fun {e e'} he he' hne => ?_)
    change (call e).input ≠ (call e').input
    rwa [hcall e he, hcall e' he']
  · intro a ha b hb
    obtain ⟨a', ha', rfl⟩ := List.mem_map.mp ha
    obtain ⟨e, he, rfl⟩ := List.mem_map.mp hb
    change a'.input ≠ (call e).input
    rw [hcall e he]
    exact (mem_unreturned.mp he).2.2 a' ha'

theorem Accounts.exists_effectAt (h : M.Accounts reads log history pending)
    (hcall : ∀ e ∈ unreturned reads log history, (call e).input = e.input ∧
      (call e).call ≤ e.time) {a : Operation ι ο (WithTop T)}
    (ha : a ∈ effective reads log history call) : ∃ p, EffectAt log a p := by
  rcases mem_effective.mp ha with ⟨b, hb, rfl⟩ | ⟨e, he, rfl⟩
  · obtain ⟨e, he, hin, hout, hge, hle⟩ := h.returned b hb
    obtain ⟨p, hp⟩ := List.getElem?_of_mem he
    exact ⟨p, e, hp, hin, hout, WithTop.coe_le_coe.mpr hge, WithTop.coe_le_coe.mpr hle⟩
  · obtain ⟨hin, hge⟩ := hcall e he
    obtain ⟨p, hp⟩ := List.getElem?_of_mem (mem_unreturned.mp he).1
    exact ⟨p, e, hp, hin.symm, rfl, WithTop.coe_le_coe.mpr hge, le_top⟩

/-- An effect that belongs to none of these operations is a read. -/
theorem Accounts.reads_of_unused (h : M.Accounts reads log history pending)
    (hcall : ∀ e ∈ unreturned reads log history, (call e).input = e.input)
    {pos : Operation ι ο (WithTop T) → ℕ}
    (hpos : ∀ a ∈ effective reads log history call, EffectAt log a (pos a)) {p : ℕ}
    {e : Effect ι ο T} (he : log[p]? = some e)
    (hno : ∀ a ∈ effective reads log history call, pos a ≠ p) : reads e.input := by
  by_contra hwrite
  have hop : ∃ a ∈ effective reads log history call, a.input = e.input := by
    by_cases hret : ∃ b ∈ history, b.input = e.input
    · obtain ⟨b, hb, hin⟩ := hret
      exact ⟨_, mem_effective.mpr (Or.inl ⟨b, hb, rfl⟩), hin⟩
    · have hun : e ∈ unreturned reads log history :=
        mem_unreturned.mpr ⟨List.mem_of_getElem? he, hwrite, fun b hb hin => hret ⟨b, hb, hin⟩⟩
      exact ⟨_, mem_effective.mpr (Or.inr ⟨e, hun, rfl⟩), hcall e hun⟩
  obtain ⟨a, ha, hin⟩ := hop
  obtain ⟨e', he', hin', -⟩ := hpos a ha
  exact hno a ha (h.eq_of_input he' he (hin'.trans hin) (by rwa [hin', hin]))

end Calls

/-- A history with a log of effects is linearizable. -/
theorem Accounts.linearizableWith (h : M.Accounts reads log history pending)
    (hreads : ∀ s i o s', reads i → M.step s i o = some s' → s' = s) :
    M.LinearizableWith history pending := by
  obtain ⟨call, hcall⟩ := h.exists_calls
  have hinput : ∀ e ∈ unreturned reads log history, (call e).input = e.input :=
    fun e he => (hcall e he).2.1
  refine ⟨(unreturned reads log history).map fun e => (call e, e.output), ?_, ?_⟩
  · rw [List.map_map]
    refine List.subperm_of_subset ?_ fun c hc => ?_
    · refine List.pairwise_map.mpr (h.unreturned_inputs.imp_of_mem fun {e e'} he he' hne heq => ?_)
      refine hne ?_
      rw [← hinput e he, ← hinput e' he']
      exact congrArg Invocation.input heq
    · obtain ⟨e, he, rfl⟩ := List.mem_map.mp hc
      exact (hcall e he).1
  have hspot : ∀ a ∈ effective reads log history call, ∃ p, EffectAt log a p :=
    fun a ha => h.exists_effectAt (fun e he => (hcall e he).2) ha
  choose! pos hpos using hspot
  rw [List.map_map]
  change M.Linearizable (effective reads log history call)
  have hlin : M.Linearizable ((effective reads log history call).map id) := by
    refine linearizable_of_log pos (M.stateAt log) _ rfl ?_ (fun a ha => ?_)
      (fun p hlt hno => ?_) fun a ha b hb hlt hprec => ?_
    · refine (h.effective_inputs hinput).imp_of_mem fun {a b} ha hb hne heq => ?_
      obtain ⟨e, he, hin, -⟩ := hpos a ha
      obtain ⟨e', he', hin', -⟩ := hpos b hb
      rw [heq, he'] at he
      exact hne (by rw [← hin, ← hin', Option.some.inj he])
    · obtain ⟨e, he, hin, hout, -⟩ := hpos a ha
      rw [id, ← hin, ← hout]
      exact h.step he
    · obtain ⟨a, ha, hlt⟩ := hlt
      obtain ⟨_, hea, -⟩ := hpos a ha
      have hp : p < log.length := hlt.trans (List.getElem?_eq_some_iff.mp hea).1
      have hget : log[p]? = some log[p] := List.getElem?_eq_getElem hp
      exact hreads _ _ _ _ (h.reads_of_unused hinput hpos hget hno) (h.step hget)
    · obtain ⟨e, he, -, -, hcalled, -⟩ := hpos a ha
      obtain ⟨e', he', -, -, -, hret⟩ := hpos b hb
      obtain ⟨hp, rfl⟩ := List.getElem?_eq_some_iff.mp he
      obtain ⟨hq, rfl⟩ := List.getElem?_eq_some_iff.mp he'
      have hle := List.pairwise_iff_getElem.mp h.sorted _ _ hp hq hlt
      exact absurd (hcalled.trans ((WithTop.coe_le_coe.mpr hle).trans hret)) (not_le.mpr hprec)
  rwa [List.map_id] at hlin

end Effects

end SeqSpec

/-! Points of linearization. -/

/-- Each operation of the sequence with the latest call time so far. -/
def stamp [Max T] : T → List (Operation ι ο T) → List (T × Operation ι ο T)
  | _, [] => []
  | m, a :: l => (max m a.call, a) :: stamp (max m a.call) l

section Stamps
variable [LinearOrder T] {m : T} {l : List (Operation ι ο T)}

@[simp] theorem stamp_map_snd (m : T) (l : List (Operation ι ο T)) :
    (stamp m l).map Prod.snd = l := by
  induction l generalizing m with
  | nil => rfl
  | cons a l ih => simp [stamp, ih]

theorem le_stamp {p : T × Operation ι ο T} (hp : p ∈ stamp m l) : m ≤ p.1 := by
  induction l generalizing m with
  | nil => cases hp
  | cons a l ih =>
    rcases List.mem_cons.mp hp with rfl | hp
    · exact le_max_left ..
    · exact (le_max_left ..).trans (ih hp)

theorem stamp_sorted (m : T) (l : List (Operation ι ο T)) :
    (stamp m l).Pairwise fun p q => p.1 ≤ q.1 := by
  induction l generalizing m with
  | nil => exact List.Pairwise.nil
  | cons a l ih => exact List.Pairwise.cons (fun _ hq => le_stamp hq) (ih _)

/-- A stamp lies within its operation: no earlier operation was called after this one
returned. -/
theorem stamp_within (hm : ∀ a ∈ l, m ≤ a.ret) (hwf : ∀ a ∈ l, a.call ≤ a.ret)
    (hreal : l.Pairwise fun a b => ¬ b.Precedes a) {p : T × Operation ι ο T}
    (hp : p ∈ stamp m l) : p.2.call ≤ p.1 ∧ p.1 ≤ p.2.ret := by
  induction l generalizing m with
  | nil => cases hp
  | cons a l ih =>
    obtain ⟨hhead, htail⟩ := List.pairwise_cons.mp hreal
    rcases List.mem_cons.mp hp with rfl | hp
    · exact ⟨le_max_right .., max_le (hm a List.mem_cons_self) (hwf a List.mem_cons_self)⟩
    · refine ih (fun b hb => ?_) (fun b hb => hwf b (List.mem_cons_of_mem _ hb)) htail hp
      exact max_le (hm b (List.mem_cons_of_mem _ hb)) (not_lt.mp (hhead b hb))

/-- Points of linearization: an order that does not contradict real time has points within its
operations that are ordered in the same way. -/
theorem exists_points (hwf : ∀ a ∈ l, a.call ≤ a.ret)
    (hreal : l.Pairwise fun a b => ¬ b.Precedes a) :
    ∃ seq : List (T × Operation ι ο T), seq.map Prod.snd = l ∧
      (seq.Pairwise fun p q => p.1 ≤ q.1) ∧ ∀ p ∈ seq, p.2.call ≤ p.1 ∧ p.1 ≤ p.2.ret := by
  cases l with
  | nil => exact ⟨[], rfl, List.Pairwise.nil, fun _ hp => by cases hp⟩
  | cons a l =>
    have hfirst : ∀ b ∈ a :: l, a.call ≤ b.ret := by
      intro b hb
      rcases List.mem_cons.mp hb with rfl | hb
      · exact hwf _ List.mem_cons_self
      · exact not_lt.mp ((List.pairwise_cons.mp hreal).1 b hb)
    exact ⟨stamp a.call (a :: l), stamp_map_snd _ _, stamp_sorted _ _,
      fun p hp => stamp_within hfirst hwf hreal hp⟩

end Stamps

/-! Independent objects. -/

section Objects
variable [DecidableEq κ] (key : ι → κ)

/-- The part of a history at one object. -/
def atKey (k : κ) (ops : List (Operation ι ο T)) : List (Operation ι ο T) :=
  ops.filter fun a => key a.input = k

/-- A family of independent objects. -/
def SeqSpec.product (M : SeqSpec σ ι ο) : SeqSpec (κ → σ) ι ο where
  init := fun _ => M.init
  step s i o := (M.step (s (key i)) i o).map (Function.update s (key i))

variable {key} {M : SeqSpec σ ι ο}

/-- A sequence is possible for the family exactly if each object can do its part. -/
theorem SeqSpec.product_exec_isSome {s : κ → σ} {l : List (Operation ι ο T)} :
    ((M.product key).exec s l).isSome ↔ ∀ k, (M.exec (s k) (atKey key k l)).isSome := by
  induction l generalizing s with
  | nil => simp [atKey]
  | cons a l ih =>
    have hother : ∀ k, k ≠ key a.input → atKey key k (a :: l) = atKey key k l := by
      intro k hk
      exact List.filter_cons_of_neg (by simpa using Ne.symm hk)
    have hself : atKey key (key a.input) (a :: l) = a :: atKey key (key a.input) l :=
      List.filter_cons_of_pos (by simp)
    rw [exec_cons]
    cases hstep : M.step (s (key a.input)) a.input a.output with
    | none =>
      have hfail : ¬ (M.exec (s (key a.input)) (atKey key (key a.input) (a :: l))).isSome := by
        rw [hself, exec_cons, hstep]
        simp
      simp only [product, hstep, Option.map_none, Option.bind_none, Option.isSome_none,
        Bool.false_eq_true, false_iff]
      exact fun h => hfail (h _)
    | some s' =>
      simp only [product, hstep, Option.map_some, Option.bind_some]
      refine ih.trans (forall_congr' fun k => ?_)
      by_cases hk : k = key a.input
      · subst hk
        rw [Function.update_self, hself, exec_cons, hstep, Option.bind_some]
      · rw [Function.update_of_ne hk, hother k hk]

/-- The parts of a list at the keys it has, put together, are a permutation of it. -/
theorem flatMap_atKey_perm {keys : List κ} (hn : keys.Nodup) {l : List (Operation ι ο T)}
    (h : ∀ a ∈ l, key a.input ∈ keys) :
    (keys.flatMap fun k => atKey key k l).Perm l := by
  induction keys generalizing l with
  | nil =>
    obtain rfl : l = [] := List.eq_nil_iff_forall_not_mem.mpr fun a ha => by cases h a ha
    rfl
  | cons k keys ih =>
    obtain ⟨hk, hn⟩ := List.nodup_cons.mp hn
    have hrest : ∀ k' ∈ keys, atKey key k' l =
        atKey key k' (l.filter fun a => !decide (key a.input = k)) := by
      intro k' hk'
      have hne : k' ≠ k := fun he => hk (he ▸ hk')
      unfold atKey
      rw [List.filter_filter]
      refine List.filter_congr fun a _ => ?_
      by_cases ha : key a.input = k'
      · simp [ha, hne]
      · simp [ha]
    rw [List.flatMap_cons, List.flatMap_congr hrest]
    refine ((ih hn fun a ha => ?_).append_left _).trans (List.filter_append_perm _ l)
    obtain ⟨hmem, hne⟩ := List.mem_filter.mp ha
    exact (List.mem_cons.mp (h a hmem)).resolve_left (by simpa using hne)

theorem filter_flatMap_key {keys : List κ} (hn : keys.Nodup)
    {seq : κ → List (T × Operation ι ο T)} (hkey : ∀ k, ∀ p ∈ seq k, key p.2.input = k) {k : κ}
    (hk : k ∈ keys) : (keys.flatMap seq).filter (fun p => key p.2.input = k) = seq k := by
  have hnone : ∀ k', k' ≠ k → (seq k').filter (fun p => key p.2.input = k) = [] := by
    intro k' hne
    rw [List.filter_eq_nil_iff]
    intro p hp
    simpa [hkey k' p hp] using hne
  induction keys with
  | nil => cases hk
  | cons k' keys ih =>
    obtain ⟨hk', hn⟩ := List.nodup_cons.mp hn
    rw [List.flatMap_cons, List.filter_append]
    by_cases heq : k' = k
    · subst heq
      rw [List.filter_eq_self.mpr fun p hp => by simpa using hkey _ p hp, List.filter_flatMap,
        List.flatMap_eq_nil_iff.mpr fun k hk => hnone k fun he => hk' (he ▸ hk), List.append_nil]
    · rw [ih hn ((List.mem_cons.mp hk).resolve_left (Ne.symm heq)), hnone k' heq, List.nil_append]

variable [LinearOrder T]

/-- Sequences, one for each key, each with its stamps, are merged by the order of the stamps;
the merged sequence keeps the order of each of them. -/
theorem exists_merge {keys : List κ} (hn : keys.Nodup) (seq : κ → List (T × Operation ι ο T))
    (hkey : ∀ k, ∀ p ∈ seq k, key p.2.input = k)
    (hsorted : ∀ k, (seq k).Pairwise fun p q => p.1 ≤ q.1) :
    ∃ l : List (T × Operation ι ο T), l.Perm (keys.flatMap seq) ∧
      (l.Pairwise fun p q => p.1 ≤ q.1) ∧
      ∀ k ∈ keys, l.filter (fun p => key p.2.input = k) = seq k := by
  let le : T × Operation ι ο T → T × Operation ι ο T → Bool := fun p q => p.1 ≤ q.1
  have htrans : ∀ p q r, le p q = true → le q r = true → le p r = true := by
    simp only [le, decide_eq_true_eq]
    exact fun _ _ _ => le_trans
  have htotal : ∀ p q, (le p q || le q p) = true := by
    simp only [le, Bool.or_eq_true, decide_eq_true_eq]
    exact fun _ _ => le_total _ _
  have hperm := List.mergeSort_perm (keys.flatMap seq) le
  refine ⟨(keys.flatMap seq).mergeSort le, hperm, ?_, fun k hk => ?_⟩
  · have := List.pairwise_mergeSort htrans htotal (keys.flatMap seq)
    simpa only [le, decide_eq_true_eq] using this
  · -- the elements of `k` are those of its sequence, which the sort keeps in order
    have hfilter := filter_flatMap_key hn hkey hk
    have hsub : (seq k).Sublist (keys.flatMap seq) := hfilter ▸ List.filter_sublist
    have hsub' := List.sublist_mergeSort htrans htotal
      (by simpa only [le, decide_eq_true_eq] using hsorted k) hsub
    have hsub'' := hsub'.filter fun p => decide (key p.2.input = k)
    rw [List.filter_eq_self.mpr fun p hp => by simpa using hkey _ p hp] at hsub''
    refine (hsub''.eq_of_length ?_).symm
    rw [(hperm.filter _).length_eq, hfilter]

/-- Locality: a history of independent objects is linearizable if and only if its part at each
object is. -/
theorem SeqSpec.product_linearizable_iff {ops : List (Operation ι ο T)}
    (hwf : ∀ a ∈ ops, a.call ≤ a.ret) :
    (M.product key).Linearizable ops ↔ ∀ k, M.Linearizable (atKey key k ops) := by
  constructor
  · rintro ⟨l, hperm, hreal, hlegal⟩ k
    exact ⟨atKey key k l, hperm.filter _, hreal.filter _, product_exec_isSome.mp hlegal k⟩
  · intro h
    choose lin hlin using h
    have hmem : ∀ k, ∀ a ∈ lin k, a ∈ ops ∧ key a.input = k := by
      intro k a ha
      simpa [atKey] using (hlin k).perm.mem_iff.mp ha
    have hpoints := fun k => exists_points (fun a ha => hwf a (hmem k a ha).1) (hlin k).realTime
    choose seq hsnd hsorted hwithin using hpoints
    have hkey : ∀ k, ∀ p ∈ seq k, key p.2.input = k := fun k p hp =>
      (hmem k p.2 (by rw [← hsnd k]; exact List.mem_map_of_mem hp)).2
    let keys := (ops.map fun a => key a.input).dedup
    have hn : keys.Nodup := List.nodup_dedup _
    have hkeys : ∀ a ∈ ops, key a.input ∈ keys := fun a ha =>
      List.mem_dedup.mpr (List.mem_map_of_mem (f := fun a => key a.input) ha)
    obtain ⟨l, hperm, hpair, hpart⟩ := exists_merge hn seq hkey hsorted
    have hops : (l.map Prod.snd).Perm ops := by
      refine (hperm.map Prod.snd).trans ?_
      rw [List.map_flatMap]
      refine List.Perm.trans ?_ (flatMap_atKey_perm hn hkeys)
      exact List.Perm.flatMap_left keys fun k _ => by
        rw [hsnd]
        exact (hlin k).perm
    have hin : ∀ p ∈ l, p.2.call ≤ p.1 ∧ p.1 ≤ p.2.ret := by
      intro p hp
      obtain ⟨k, -, hp⟩ := List.mem_flatMap.mp (hperm.mem_iff.mp hp)
      exact hwithin k p hp
    refine ⟨l.map Prod.snd, hops, ?_, ?_⟩
    · rw [List.pairwise_map]
      refine hpair.imp_of_mem fun {p q} hp hq hle hprec => ?_
      exact absurd hprec (not_lt.mpr (((hin p hp).1.trans hle).trans (hin q hq).2))
    · refine product_exec_isSome.mpr fun k => ?_
      by_cases hk : k ∈ keys
      · have hat : atKey key k (l.map Prod.snd) = lin k := by
          rw [atKey, List.filter_map, ← hsnd k, ← hpart k hk]
          rfl
        rw [hat]
        exact (hlin k).legal
      · have hat : atKey key k (l.map Prod.snd) = [] := by
          rw [atKey, List.filter_eq_nil_iff]
          intro a ha hka
          have hmemk := hkeys a (hops.mem_iff.mp ha)
          rw [of_decide_eq_true hka] at hmemk
          exact hk hmemk
        rw [hat]
        rfl

end Objects

end Basis
