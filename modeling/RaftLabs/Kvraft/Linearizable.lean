import RaftLabs.Basis.Sessions
import RaftLabs.Kvraft.Effects

/-! The clerks of kvraft and the history of their calls. Over an ideal Raft, that is over the
replicated log of `Basis.Ledger` with one leader for each term, the history is linearizable. -/
namespace RaftLabs.Kvraft
open Basis Basis.Ledger

instance : Request CommandArgs := ⟨CommandArgs.clientId, CommandArgs.commandId⟩

/-- The service, and the clerks with the history of the calls that have returned. -/
structure Observed (n : ℕ) where
  system : System n
  clerks : Sessions CommandArgs CommandReply

/-- A call returns the reply of one of the answers to its request, given by its position. -/
inductive Observation (n : ℕ) where
  | act (a : Action n)
  | clerkReturn (clientId k : ℕ)

/-- The clerk as a client that numbers its requests. -/
def Clerk.session (clerk : Clerk) : Session CommandArgs := ⟨clerk.commandId, clerk.pending⟩

/-- The action is one of a clerk. -/
def Action.OfClerk {n : ℕ} : Action n → Prop
  | .clerkCommand _ _ _ _ | .clerkReturn _ => True
  | _ => False

namespace Observed

variable {n : ℕ}

def init (n : ℕ) : Observed n := ⟨.init n, .init⟩

def step (o : Observed n) : Observation n → Option (Observed n)
  | .act (.clerkReturn _) => none
  | .act (.clerkCommand clientId key value op) => do
    let system ← o.system.step (.clerkCommand clientId key value op)
    some ⟨system, o.clerks.call ⟨key, value, op, clientId, (o.clerks.clients clientId).next⟩⟩
  | .act a => do
    let system ← o.system.step a
    some ⟨system, o.clerks.tick⟩
  | .clerkReturn clientId k => do
    let args ← (o.clerks.clients clientId).pending
    let a ← o.system.answers[k]?
    if a.args = args ∧ a.Final then
      let system ← o.system.step (.clerkReturn clientId)
      some ⟨system, o.clerks.answer args a.reply⟩
    else none

/-- The step does not hand out an index a second time. -/
def Fresh (o : Observed n) : Observation n → Prop
  | .act a => ¬ o.system.ReusesIndex a
  | .clerkReturn _ _ => True

instance (o : Observed n) : (b : Observation n) → Decidable (o.Fresh b)
  | .act a => inferInstanceAs (Decidable (¬ o.system.ReusesIndex a))
  | .clerkReturn _ _ => isTrue trivial

def history (o : Observed n) : List (Operation CommandArgs CommandReply ℕ) := o.clerks.history

/-- The calls that have not returned. -/
def pendingCalls (o : Observed n) : List (Invocation CommandArgs ℕ) :=
  o.clerks.pendingCalls o.system.issued

structure Run (r : ℕ → Observed n) : Prop where
  init : r 0 = Observed.init n
  steps : IsRun step Fresh r

end Observed

namespace System

variable {n : ℕ} {sys sys' : System n}

/-- What a step of the servers leaves alone. -/
structure Frame (sys sys' : System n) : Prop where
  raft : Grows sys.raft sys'.raft
  clerks : sys'.clerks = sys.clerks
  issued : sys'.issued = sys.issued

/-- A step that does not change the Raft log. -/
theorem Frame.of_eq (hraft : sys'.raft = sys.raft) (hclerks : sys'.clerks = sys.clerks)
    (hissued : sys'.issued = sys.issued) : Frame sys sys' :=
  ⟨hraft ▸ Grows.refl _, hclerks, hissued⟩

theorem Inv.frame (h : sys.Inv) {a : Action n} (ha : ¬ a.OfClerk)
    (hs : sys.step a = some sys') : Frame sys sys' := by
  cases a with
  | clerkCommand clientId key value op => exact absurd trivial ha
  | clerkReturn clientId => exact absurd trivial ha
  | raft s label =>
    obtain ⟨g, hp, hs⟩ := Option.bind_eq_some_iff.mp hs
    obtain rfl := Option.some.inj hs
    exact ⟨(h.raft.move (perform_move hp)).2, rfl, rfl⟩
  | arrive s args =>
    simp only [System.step, System.arrive] at hs
    split_ifs at hs <;> obtain rfl := Option.some.inj hs <;> exact .of_eq rfl rfl rfl
  | start s k =>
    obtain ⟨c, hk, hs⟩ := Option.bind_eq_some_iff.mp hs
    split_ifs at hs with hp hlead
    · obtain rfl := Option.some.inj hs
      exact ⟨h.raft.grows_append (some c.args) ((h.replicas s).leads hlead) rfl, rfl, rfl⟩
    · obtain rfl := Option.some.inj hs
      exact .of_eq rfl rfl rfl
  | getNotifyChan s k =>
    obtain ⟨c, hk, hs⟩ := Option.bind_eq_some_iff.mp hs
    split at hs
    · obtain rfl := Option.some.inj hs
      exact .of_eq rfl rfl rfl
    · cases hs
  | receive s k =>
    obtain ⟨c, hk, hs⟩ := Option.bind_eq_some_iff.mp hs
    split at hs
    · obtain ⟨⟨kv, reply⟩, -, hs⟩ := Option.bind_eq_some_iff.mp hs
      obtain rfl := Option.some.inj hs
      exact .of_eq rfl rfl rfl
    · cases hs
  | timeout s k =>
    obtain ⟨c, hk, hs⟩ := Option.bind_eq_some_iff.mp hs
    split at hs
    · obtain rfl := Option.some.inj hs
      exact .of_eq rfl rfl rfl
    · cases hs
  | removeOutdatedNotifyChan s k =>
    obtain ⟨index, -, hs⟩ := Option.bind_eq_some_iff.mp hs
    obtain rfl := Option.some.inj hs
    exact .of_eq rfl rfl rfl
  | applyCommand s index needSnapshot =>
    obtain ⟨x, -, hs⟩ := Option.bind_eq_some_iff.mp hs
    obtain ⟨command, -, hs⟩ := Option.bind_eq_some_iff.mp hs
    split at hs
    case isFalse => cases hs
    case isTrue =>
    obtain ⟨kv, -, hs⟩ := Option.bind_eq_some_iff.mp hs
    split_ifs at hs <;> obtain rfl := Option.some.inj hs <;> exact .of_eq rfl rfl rfl
  | applySnapshot s k =>
    obtain ⟨⟨index, data⟩, -, hs⟩ := Option.bind_eq_some_iff.mp hs
    obtain ⟨-, rfl⟩ := of_guarded hs
    exact .of_eq rfl rfl rfl
  | restart s =>
    obtain rfl := Option.some.inj hs
    exact .of_eq rfl rfl rfl

end System

namespace Observed

variable {n : ℕ} {o o' : Observed n} {log : EffectLog} {clientId : ℕ}

/-- The log accounts for the committed entries and for the calls of the clerks. -/
structure Inv (o : Observed n) (log : EffectLog) : Prop where
  system : o.system.Inv
  logged : o.system.Logged log
  same : ∀ c, o.clerks.clients c = (o.system.clerks c).session
  clerks : o.clerks.Inv o.system.issued log

theorem init_inv [NeZero n] : (init n).Inv [] where
  system := System.init_inv
  logged := System.init_logged
  same _ := rfl
  clerks := Sessions.init_inv

theorem Inv.act (hi : o.Inv log) {a : Action n} (hfresh : ¬ o.system.ReusesIndex a)
    (ha : ¬ a.OfClerk)
    (hs : (o.system.step a).bind (fun system => some ⟨system, o.clerks.tick⟩) = some o') :
    ∃ log', o'.Inv log' := by
  obtain ⟨system, hsys, hs⟩ := Option.bind_eq_some_iff.mp hs
  obtain rfl := Option.some.inj hs
  have hinv := hi.system.step hfresh hsys
  have hframe := hi.system.frame ha hsys
  obtain ⟨new, hnew, hlogged⟩ := hi.logged.grow hi.system hinv hframe.raft o.clerks.clock
  refine ⟨log ++ new, hinv, hlogged, fun c => ?_, ?_⟩
  · change o.clerks.clients c = (system.clerks c).session
    rw [hframe.clerks]
    exact hi.same c
  · change o.clerks.tick.Inv system.issued _
    rw [hframe.issued] at hnew ⊢
    exact hi.clerks.tick hnew

theorem Inv.clerkCommand (hi : o.Inv log) {key value : String} {op : Op} {system : System n}
    (hs : o.system.step (.clerkCommand clientId key value op) = some system) :
    Inv ⟨system, o.clerks.call ⟨key, value, op, clientId, (o.clerks.clients clientId).next⟩⟩
      log := by
  have hinv := hi.system.clerkCommand hs
  obtain ⟨hidle, rfl⟩ := of_guarded hs
  have hclerk := hi.same clientId
  refine ⟨hinv, hi.logged, fun c => ?_, ?_⟩
  · by_cases hc : c = clientId
    · subst hc
      refine Sessions.call_self.trans ?_
      simp [Clerk.session, Request.client, hclerk]
    · rw [Sessions.call_of_ne hc]
      simp [Function.update_of_ne hc, hi.same c]
  · have hargs : (⟨key, value, op, clientId, (o.clerks.clients clientId).next⟩ : CommandArgs) =
        ⟨key, value, op, clientId, (o.system.clerks clientId).commandId⟩ := by
      rw [hclerk]
      rfl
    change Sessions.Inv _ (o.system.issued ++ [_]) log
    rw [← hargs]
    refine hi.clerks.call ?_ rfl
    change (o.clerks.clients clientId).pending = none
    rw [hclerk]
    exact hidle

theorem Inv.clerkReturn (hi : o.Inv log) {args : CommandArgs} {a : Answer} {system : System n}
    (hp : (o.clerks.clients clientId).pending = some args) (ha : a ∈ o.system.answers)
    (hargs : a.args = args) (hf : a.Final)
    (hs : o.system.step (.clerkReturn clientId) = some system) :
    Inv ⟨system, o.clerks.answer args a.reply⟩ log := by
  have hinv := hi.system.clerkReturn hs
  obtain ⟨args', -, hs⟩ := Option.bind_eq_some_iff.mp hs
  obtain ⟨-, rfl⟩ := of_guarded hs
  obtain ⟨-, hclient, -⟩ := hi.clerks.pending hp
  subst hclient
  refine ⟨hinv, hi.logged, fun c => ?_, hi.clerks.answer hp ?_⟩
  · by_cases hc : c = Request.client args
    · subst hc
      rw [Sessions.answer_self]
      simp [Clerk.session, hi.same]
    · rw [Sessions.answer_of_ne hc]
      simp [Function.update_of_ne hc, hi.same c]
  · rw [← hargs]
    exact hi.logged.exists_effect hi.system ha hf

theorem Inv.step (hi : o.Inv log) {b : Observation n} (hb : o.Fresh b)
    (hs : o.step b = some o') : ∃ log', o'.Inv log' := by
  cases b with
  | act a =>
    cases a with
    | clerkReturn clientId => cases hs
    | clerkCommand clientId key value op =>
      obtain ⟨system, hsys, hs⟩ := Option.bind_eq_some_iff.mp hs
      obtain rfl := Option.some.inj hs
      exact ⟨log, hi.clerkCommand hsys⟩
    | _ => exact hi.act hb not_false hs
  | clerkReturn clientId k =>
    obtain ⟨args, hp, hs⟩ := Option.bind_eq_some_iff.mp hs
    obtain ⟨a, ha, hs⟩ := Option.bind_eq_some_iff.mp hs
    split at hs
    case isFalse => cases hs
    case isTrue hcond =>
    obtain ⟨system, hsys, hs⟩ := Option.bind_eq_some_iff.mp hs
    obtain rfl := Option.some.inj hs
    exact ⟨log, hi.clerkReturn hp (List.mem_of_getElem? ha) hcond.1 hcond.2 hsys⟩

theorem Run.inv [NeZero n] {r : ℕ → Observed n} (hr : Run r) (k : ℕ) : ∃ log, (r k).Inv log :=
  hr.steps.invariant (I := fun o => ∃ log, o.Inv log)
    (fun _ _ _ hb hs hi => hi.elim fun _ hi => hi.step hb hs) (hr.init ▸ ⟨[], init_inv⟩) k

theorem Inv.linearizable (hi : o.Inv log) :
    store.LinearizableWith o.history o.pendingCalls := by
  obtain ⟨T, -, heff⟩ := hi.logged
  exact hi.clerks.linearizableWith (heff.legal ▸ rfl) heff.once
    fun _ _ _ _ hop hs => store_get hop hs

end Observed

/-- Linearizability over an ideal Raft: in every run in which no index is handed out twice, the
calls that have returned, with some of those that have not, form a linearizable history of one
store. -/
theorem history_linearizable [NeZero n] {r : ℕ → Observed n} (hr : Observed.Run r) (k : ℕ) :
    store.LinearizableWith (r k).history (r k).pendingCalls := by
  obtain ⟨log, hi⟩ := hr.inv k
  exact hi.linearizable

/-- The run in which the write of clerk 1 is answered, and its call returns. -/
def returnedRun (s t : Fin n) : List (Observation n) :=
  (answeredRun s t).map .act ++ [.clerkReturn 1 0]

theorem history_linearizable_returnedRun :
    ∃ r : ℕ → Observed 3, Observed.Run r ∧
      (r 13).history = [⟨firstPut 1 "a", 4, ⟨.ok, ""⟩, 12⟩] ∧
      store.LinearizableWith (r 13).history (r 13).pendingCalls :=
  have hr : Observed.Run (trace Observed.step (Observed.init 3) (returnedRun 0 1)) :=
    ⟨trace_zero _ _, trace_isRun (by decide +kernel)⟩
  ⟨_, hr, by decide +kernel, history_linearizable hr 13⟩

end RaftLabs.Kvraft
