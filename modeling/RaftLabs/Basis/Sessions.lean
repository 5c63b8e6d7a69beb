import RaftLabs.Basis.Linearizability

/-! Clients that number their requests and make one request at a time. The history of their calls
is linearizable if the service keeps a log of effects from which it answers. -/
namespace Basis

/-- A request carries its client and its number. -/
class Request (ι : Type*) where
  client : ι → ℕ
  number : ι → ℕ

/-- The number of the next request of a client, and its request that has not been answered. -/
structure Session (ι : Type*) where
  next : ℕ
  pending : Option ι

/-- The clients of a service and their calls. For each request `called` has the time of its
call. -/
structure Sessions (ι ο : Type*) where
  clients : ℕ → Session ι
  clock : ℕ
  called : ι → ℕ
  history : List (Operation ι ο ℕ)

variable {σ ι ο : Type*}

namespace Sessions

def init : Sessions ι ο := ⟨fun _ => ⟨0, none⟩, 0, fun _ => 0, []⟩

/-- Something happens at the service. -/
def tick (s : Sessions ι ο) : Sessions ι ο := { s with clock := s.clock + 1 }

section Steps
variable [Request ι]

def call [DecidableEq ι] (s : Sessions ι ο) (a : ι) : Sessions ι ο :=
  { s with
    clients := Function.update s.clients (Request.client a)
      ⟨(s.clients (Request.client a)).next, some a⟩
    clock := s.clock + 1
    called := Function.update s.called a s.clock }

def answer (s : Sessions ι ο) (a : ι) (output : ο) : Sessions ι ο :=
  { s with
    clients := Function.update s.clients (Request.client a)
      ⟨(s.clients (Request.client a)).next + 1, none⟩
    clock := s.clock + 1
    history := s.history ++ [⟨a, s.called a, output, s.clock⟩] }

section Updates
variable {s : Sessions ι ο} {a : ι} {c : ℕ}

theorem call_self [DecidableEq ι] : (s.call a).clients (Request.client a) =
    ⟨(s.clients (Request.client a)).next, some a⟩ := Function.update_self _ _ _

theorem call_of_ne [DecidableEq ι] (hc : c ≠ Request.client a) :
    (s.call a).clients c = s.clients c := Function.update_of_ne hc _ _

theorem answer_self {output : ο} : (s.answer a output).clients (Request.client a) =
    ⟨(s.clients (Request.client a)).next + 1, none⟩ := Function.update_self _ _ _

theorem answer_of_ne {output : ο} (hc : c ≠ Request.client a) :
    (s.answer a output).clients c = s.clients c := Function.update_of_ne hc _ _

end Updates

/-- The calls that have not returned, of the requests that have been made. -/
def pendingCalls [DecidableEq ι] (s : Sessions ι ο) (issued : List ι) : List (Invocation ι ℕ) :=
  (issued.filter fun a => (s.clients (Request.client a)).pending = some a).map fun a =>
    ⟨a, s.called a⟩

/-- The call has returned, and the log has an effect of it within its time. -/
structure Completed (s : Sessions ι ο) (log : List (Effect ι ο ℕ)) (a : Operation ι ο ℕ) :
    Prop where
  returned : Request.number a.input < (s.clients (Request.client a.input)).next
  effect : ∃ e ∈ log, e.input = a.input ∧ e.output = a.output ∧ a.call ≤ e.time ∧ e.time ≤ a.ret

/-- The log accounts for the calls of the clients. -/
structure Inv (s : Sessions ι ο) (issued : List ι) (log : List (Effect ι ο ℕ)) : Prop where
  sorted : log.Pairwise fun e e' => e.time ≤ e'.time
  effects : ∀ e ∈ log, e.input ∈ issued ∧ s.called e.input ≤ e.time ∧ e.time < s.clock
  called : ∀ a ∈ issued, s.called a < s.clock
  pending : ∀ {c a}, (s.clients c).pending = some a →
    a ∈ issued ∧ Request.client a = c ∧ Request.number a = (s.clients c).next
  made : ∀ a ∈ issued, (s.clients (Request.client a)).pending = some a ∨
    (Request.number a < (s.clients (Request.client a)).next ∧ ∃ b ∈ s.history, b.input = a)
  completed : ∀ a ∈ s.history, s.Completed log a
  inputs : (s.history.map Operation.input).Nodup

variable {s : Sessions ι ο} {issued : List ι} {log new : List (Effect ι ο ℕ)} {a : ι}

theorem init_inv : (init : Sessions ι ο).Inv [] [] where
  sorted := List.Pairwise.nil
  effects _ he := by cases he
  called _ ha := by cases ha
  pending hp := by cases hp
  made _ ha := by cases ha
  completed _ ha := by cases ha
  inputs := List.nodup_nil

/-- The service executes requests that have been made. -/
theorem Inv.tick (h : s.Inv issued log)
    (hnew : ∀ e ∈ new, e.time = s.clock ∧ e.input ∈ issued) : s.tick.Inv issued (log ++ new) where
  sorted := by
    refine List.pairwise_append.mpr ⟨h.sorted, ?_, fun e he e' he' => ?_⟩
    · exact List.pairwise_of_forall_mem_list fun e he e' he' =>
        ((hnew e he).1.trans (hnew e' he').1.symm).le
    · rw [(hnew e' he').1]
      exact (h.effects e he).2.2.le
  effects e he := by
    rcases List.mem_append.mp he with he | he
    · obtain ⟨hmem, hge, hlt⟩ := h.effects e he
      exact ⟨hmem, hge, Nat.lt_succ_of_lt hlt⟩
    · obtain ⟨htime, hmem⟩ := hnew e he
      rw [htime]
      exact ⟨hmem, (h.called _ hmem).le, Nat.lt_succ_self _⟩
  called a ha := Nat.lt_succ_of_lt (h.called a ha)
  pending hp := h.pending hp
  made a ha := h.made a ha
  completed a ha := by
    obtain ⟨hret, e, he, hrest⟩ := h.completed a ha
    exact ⟨hret, e, List.mem_append_left _ he, hrest⟩
  inputs := h.inputs

/-- An idle client makes its next request. -/
theorem Inv.call [DecidableEq ι] (h : s.Inv issued log)
    (hidle : (s.clients (Request.client a)).pending = none)
    (hnum : Request.number a = (s.clients (Request.client a)).next) :
    (s.call a).Inv (issued ++ [a]) log := by
  have hold : ∀ b ∈ issued, b ≠ a := by
    rintro b hb rfl
    rcases h.made b hb with hp | ⟨hlt, -⟩
    · rw [hidle] at hp
      cases hp
    · omega
  have hcalled : ∀ b ∈ issued, (s.call a).called b = s.called b :=
    fun b hb => Function.update_of_ne (hold b hb) _ _
  have hnext : ∀ c, ((s.call a).clients c).next = (s.clients c).next := by
    intro c
    by_cases hc : c = Request.client a
    · rw [hc, call_self]
    · rw [call_of_ne hc]
  refine ⟨h.sorted, fun e he => ?_, fun b hb => ?_, fun {c b} hp => ?_, fun b hb => ?_,
    fun b hb => ?_, h.inputs⟩
  · obtain ⟨hmem, hge, hlt⟩ := h.effects e he
    rw [hcalled _ hmem]
    exact ⟨List.mem_append_left _ hmem, hge, Nat.lt_succ_of_lt hlt⟩
  · rcases List.mem_append.mp hb with hb | hb
    · rw [hcalled b hb]
      exact Nat.lt_succ_of_lt (h.called b hb)
    · rw [List.mem_singleton.mp hb]
      change Function.update s.called a s.clock a < s.clock + 1
      rw [Function.update_self]
      exact Nat.lt_succ_self _
  · rw [hnext]
    by_cases hc : c = Request.client a
    · subst hc
      rw [call_self] at hp
      obtain rfl := Option.some.inj hp
      exact ⟨by simp, rfl, hnum⟩
    · rw [call_of_ne hc] at hp
      obtain ⟨hmem, hrest⟩ := h.pending hp
      exact ⟨List.mem_append_left _ hmem, hrest⟩
  · rw [hnext]
    rcases List.mem_append.mp hb with hb | hb
    · refine (h.made b hb).imp_left fun hp => ?_
      have hc : Request.client b ≠ Request.client a := by
        intro hc
        rw [hc, hidle] at hp
        cases hp
      rwa [call_of_ne hc]
    · rw [List.mem_singleton.mp hb]
      exact Or.inl (by rw [call_self])
  · obtain ⟨hret, heff⟩ := h.completed b hb
    exact ⟨by rwa [hnext], heff⟩

/-- A call returns with the output of its effect. -/
theorem Inv.answer (h : s.Inv issued log)
    (hp : (s.clients (Request.client a)).pending = some a) {output : ο}
    (heff : ∃ e ∈ log, e.input = a ∧ e.output = output) : (s.answer a output).Inv issued log := by
  obtain ⟨hmem, -, hnum⟩ := h.pending hp
  have hnext : ∀ c, (s.clients c).next ≤ ((s.answer a output).clients c).next := by
    intro c
    by_cases hc : c = Request.client a
    · rw [hc, answer_self]
      exact Nat.le_succ _
    · rw [answer_of_ne hc]
  have hpast : Request.number a < ((s.answer a output).clients (Request.client a)).next := by
    rw [answer_self, hnum]
    exact Nat.lt_succ_self _
  refine ⟨h.sorted, fun e he => ?_, fun b hb => Nat.lt_succ_of_lt (h.called b hb),
    fun {c b} hpb => ?_, fun b hb => ?_, fun b hb => ?_, ?_⟩
  · obtain ⟨hmem, hge, hlt⟩ := h.effects e he
    exact ⟨hmem, hge, Nat.lt_succ_of_lt hlt⟩
  · by_cases hc : c = Request.client a
    · rw [hc, answer_self] at hpb
      cases hpb
    · rw [answer_of_ne hc] at hpb ⊢
      exact h.pending hpb
  · rcases h.made b hb with hpb | ⟨hlt, d, hd, hin⟩
    · by_cases hc : Request.client b = Request.client a
      · rw [hc, hp] at hpb
        obtain rfl := Option.some.inj hpb
        exact Or.inr ⟨hpast, _, List.mem_append_right _ (List.mem_singleton_self _), rfl⟩
      · left
        rwa [answer_of_ne hc]
    · exact Or.inr ⟨hlt.trans_le (hnext _), d, List.mem_append_left _ hd, hin⟩
  · rcases List.mem_append.mp hb with hb | hb
    · obtain ⟨hret, heff⟩ := h.completed b hb
      exact ⟨hret.trans_le (hnext _), heff⟩
    · rw [List.mem_singleton.mp hb]
      obtain ⟨e, he, rfl, hout⟩ := heff
      obtain ⟨-, hge, hlt⟩ := h.effects e he
      exact ⟨hpast, e, he, rfl, hout, hge, hlt.le⟩
  · rw [Sessions.answer, List.map_append]
    refine List.nodup_append.mpr ⟨h.inputs, List.nodup_singleton _, ?_⟩
    rintro b hb b' hb' rfl
    obtain ⟨op, hop, rfl⟩ := List.mem_map.mp hb
    have hret := (h.completed op hop).returned
    rw [List.mem_singleton.mp hb'] at hret
    change Request.number a < (s.clients (Request.client a)).next at hret
    omega

theorem Inv.call_le (h : s.Inv issued log) {a : Operation ι ο ℕ} (ha : a ∈ s.history) :
    a.call ≤ a.ret := by
  obtain ⟨e, -, -, -, hge, hle⟩ := (h.completed a ha).effect
  exact hge.trans hle

/-- An effect of a client that waits for an answer, with a number that is not smaller, is the
effect of that request. -/
theorem Inv.eq_of_number (h : s.Inv issued log)
    (hp : (s.clients (Request.client a)).pending = some a) {e : Effect ι ο ℕ} (he : e ∈ log)
    (hclient : Request.client e.input = Request.client a)
    (hnum : Request.number a ≤ Request.number e.input) : e.input = a := by
  rcases h.made e.input (h.effects e he).1 with hpe | ⟨hlt, -⟩
  · rw [hclient, hp] at hpe
    exact (Option.some.inj hpe).symm
  · rw [hclient, ← (h.pending hp).2.2] at hlt
    omega

theorem Inv.linearizableWith [DecidableEq ι] (h : s.Inv issued log) {M : SeqSpec σ ι ο}
    {reads : ι → Prop} (hlegal : (M.exec M.init (log.map Effect.toOperation)).isSome)
    (honce : log.Pairwise fun e e' => e.input = e'.input → reads e.input)
    (hreads : ∀ s i o s', reads i → M.step s i o = some s' → s' = s) :
    M.LinearizableWith s.history (s.pendingCalls issued) := by
  have hacc : M.Accounts reads log s.history (s.pendingCalls issued) :=
    { legal := hlegal
      sorted := h.sorted
      once := honce
      inputs := h.inputs
      returned := fun a ha => (h.completed a ha).effect
      called := fun e he => by
        obtain ⟨hmem, hge, -⟩ := h.effects e he
        rcases h.made e.input hmem with hp | ⟨-, b, hb, hin⟩
        · refine Or.inr (Or.inr ⟨⟨e.input, s.called e.input⟩, ?_, rfl, hge⟩)
          exact List.mem_map.mpr ⟨e.input, List.mem_filter.mpr ⟨hmem, decide_eq_true hp⟩, rfl⟩
        · exact Or.inr (Or.inl ⟨b, hb, hin⟩) }
  exact hacc.linearizableWith hreads

end Steps

end Sessions

end Basis
