import RaftLabs.Basis.Sessions
import RaftLabs.Shardkv.OneLog

/-! The clerks of a sharded store and the history of their calls. The history is linearizable,
while shards move from group to group. -/
namespace RaftLabs.Shardkv
open Basis Shardctrler

/-- The command is the operation with these arguments. -/
def Command.Operates (args : CommandArgs) : Command → Prop
  | .operation args' => args' = args
  | _ => False

instance (args : CommandArgs) : (c : Command) → Decidable (c.Operates args)
  | .operation _ => inferInstanceAs (Decidable (_ = _))
  | .configuration _ | .insertShards _ | .deleteShards _ | .emptyEntry => isFalse not_false

theorem Command.Operates.eq {args : CommandArgs} {c : Command} (hc : c.Operates args) :
    c = .operation args := by
  cases c with
  | operation args' => exact congrArg _ hc
  | configuration _ => cases hc
  | insertShards _ => cases hc
  | deleteShards _ => cases hc
  | emptyEntry => cases hc

instance : Request CommandArgs := ⟨CommandArgs.clientId, CommandArgs.commandId⟩

/-- The groups and the clerks, with the history of the calls of `Command` that have returned. -/
structure Observed where
  system : System
  clerks : Sessions CommandArgs CommandReply

/-- A call returns with a reply of the group `gid`: a replica that has applied `p` commands finds
the request a duplicate, or the `Execute` of the request has got `index` in the log. -/
inductive Observation where
  | act (a : Action)
  | clerkCommand (clientId : ℕ) (key value : String) (op : Op)
  | duplicateReply (clientId : ℕ) (gid : ℤ) (p : ℕ)
  | executeReply (clientId : ℕ) (gid : ℤ) (index : ℕ)

namespace Observed

def init : Observed := ⟨.init, .init⟩

/-- A clerk that waits for no reply makes a request. -/
def clerkCommand (o : Observed) (clientId : ℕ) (key value : String) (op : Op) :
    Option Observed :=
  let clerk := o.clerks.clients clientId
  let args : CommandArgs := ⟨key, value, op, clientId, clerk.next⟩
  if clerk.pending = none then do
    let system ← o.system.issue args
    some ⟨system, o.clerks.call args⟩
  else none

/-- The clerk returns on `OK` and on `ErrNoKey`; on any other reply it asks again. -/
def clerkReturn (o : Observed) (args : CommandArgs) (reply : CommandReply) : Option Observed :=
  if reply.err = .ok ∨ reply.err = .errNoKey then
    some { o with clerks := o.clerks.answer args reply }
  else none

def duplicateReply (o : Observed) (clientId : ℕ) (gid : ℤ) (p : ℕ) : Option Observed := do
  let args ← (o.clerks.clients clientId).pending
  let kv := o.system.replica gid p
  if kv.Skips args then o.clerkReturn args (kv.lastReply args.clientId) else none

def executeReply (o : Observed) (clientId : ℕ) (gid : ℤ) (index : ℕ) : Option Observed := do
  let args ← (o.clerks.clients clientId).pending
  let command ← (o.system.logs gid)[index]?
  o.clerkReturn args ((o.system.replica gid index).apply command).2

def step (h : History) (o : Observed) : Observation → Option Observed
  | .act (.issue _) => none
  | .act a => do
    let system ← o.system.step h a
    some ⟨system, o.clerks.tick⟩
  | .clerkCommand clientId key value op => o.clerkCommand clientId key value op
  | .duplicateReply clientId gid p => o.duplicateReply clientId gid p
  | .executeReply clientId gid index => o.executeReply clientId gid index

/-- `Execute` returns with the reply to its own command. -/
def Routed (o : Observed) : Observation → Prop
  | .executeReply clientId gid index =>
    ∀ args ∈ (o.clerks.clients clientId).pending,
      ∀ c ∈ (o.system.logs gid)[index]?, c.Operates args
  | _ => True

instance (o : Observed) : (b : Observation) → Decidable (o.Routed b)
  | .executeReply clientId gid index =>
    inferInstanceAs (Decidable (∀ args ∈ (o.clerks.clients clientId).pending,
      ∀ c ∈ (o.system.logs gid)[index]?, c.Operates args))
  | .act _ | .clerkCommand _ _ _ _ | .duplicateReply _ _ _ => isTrue trivial

def history (o : Observed) : List (Operation CommandArgs CommandReply ℕ) := o.clerks.history

/-- The calls that have not returned. -/
def pendingCalls (o : Observed) : List (Invocation CommandArgs ℕ) :=
  o.clerks.pendingCalls o.system.issued

structure Run (h : History) (r : ℕ → Observed) : Prop where
  init : r 0 = Observed.init
  steps : IsRun (step h) Routed r

/-- The log accounts for the groups and for the calls of the clerks. -/
structure Inv (h : History) (o : Observed) (log : EffectLog) : Prop where
  system : o.system.Inv h
  once : o.system.Once h
  logged : o.system.Logged h log
  clerks : o.clerks.Inv o.system.issued log

variable {h : History} {o o' : Observed} {log : EffectLog} {args : CommandArgs} {clientId : ℕ}

theorem init_inv (h : History) : Inv h init [] where
  system := System.init_inv h
  once := System.init_once h
  logged := System.init_logged h
  clerks := Sessions.init_inv

/-- A step of the groups makes no request. -/
theorem issued_of_step {sys sys' : System} {a : Action} (hs : sys.step h a = some sys')
    (ha : ∀ args, a ≠ .issue args) : sys'.issued = sys.issued := by
  cases a with
  | issue args => exact absurd rfl (ha args)
  | command gid p args =>
    obtain ⟨-, rfl⟩ := of_guarded hs
    rfl
  | configurationAction gid p =>
    obtain ⟨-, rfl⟩ := of_guarded hs
    rfl
  | migrationAction gid p source q shardIds =>
    obtain ⟨-, -, -, rfl⟩ := System.of_migrationAction hs
    rfl
  | gcAction gid p source q shardIds index =>
    obtain ⟨-, -, -, ⟨-, rfl⟩ | ⟨-, rfl⟩⟩ := System.of_gcAction hs <;> rfl
  | gcReply k =>
    obtain ⟨c, -, -, -, rfl⟩ := System.of_gcReply hs
    rfl
  | checkEntryInCurrentTermAction gid =>
    obtain rfl := Option.some.inj hs
    rfl
  | commit gid k =>
    obtain ⟨c, -, -, rfl⟩ := System.of_commit hs
    rfl

theorem Inv.act (hi : o.Inv h log) (hstay : h.StaysAssigned) {a : Action} {system : System}
    (hs : o.system.step h a = some system) (ha : ∀ args, a ≠ .issue args) :
    ∃ log', Inv h ⟨system, o.clerks.tick⟩ log' := by
  obtain ⟨new, hnew, hlogged⟩ := hi.logged.step hi.system hi.once hstay hs o.clerks.clock
  refine ⟨log ++ new, hi.system.step hs, hi.once.step hi.system hstay hs, hlogged, ?_⟩
  change o.clerks.tick.Inv system.issued _
  rw [issued_of_step hs ha]
  exact hi.clerks.tick hnew

theorem Inv.clerkCommand (hi : o.Inv h log) (hstay : h.StaysAssigned) {key value : String}
    {op : Op} (hs : o.clerkCommand clientId key value op = some o') : o'.Inv h log := by
  unfold Observed.clerkCommand at hs
  simp only at hs
  split at hs
  case isFalse => cases hs
  case isTrue hidle =>
  obtain ⟨system, hissue, hs⟩ := Option.bind_eq_some_iff.mp hs
  obtain rfl := Option.some.inj hs
  set args : CommandArgs := ⟨key, value, op, clientId, (o.clerks.clients clientId).next⟩
  have hstep : o.system.step h (.issue args) = some system := hissue
  have honce := hi.once.step hi.system hstay hstep
  have hinv := hi.system.step hstep
  obtain ⟨-, rfl⟩ := of_guarded hissue
  exact ⟨hinv, honce,
    { hi.logged with issued := fun e he => List.mem_append_left _ (hi.logged.issued e he) },
    hi.clerks.call hidle rfl⟩

theorem Inv.clerkReturn (hi : o.Inv h log)
    (hp : (o.clerks.clients args.clientId).pending = some args) {reply : CommandReply}
    (he : ∃ e ∈ log, e.input = args ∧ e.output = reply)
    (hs : o.clerkReturn args reply = some o') : o'.Inv h log := by
  obtain ⟨-, rfl⟩ := of_guarded hs
  exact { hi with clerks := hi.clerks.answer hp he }

/-- A table that makes the request of a waiting clerk a duplicate has its reply. -/
theorem Inv.exists_effect (hi : o.Inv h log)
    (hp : (o.clerks.clients args.clientId).pending = some args) {g : ℤ} {l : List Command}
    (hl : l <+: o.system.logs g) (hskip : (replay g l).Skips args) :
    ∃ e ∈ log, e.input = args ∧ e.output = (replay g l).lastReply args.clientId := by
  obtain ⟨-, hdup⟩ := hskip
  unfold ShardKV.isDuplicateRequest at hdup
  cases hinfo : (replay g l).lastOperations args.clientId with
  | none => simp [hinfo] at hdup
  | some info =>
    simp only [hinfo, decide_eq_true_eq] at hdup
    obtain ⟨e, he, -, hclient, hcommand, hout⟩ := hi.logged.tables hl hinfo
    refine ⟨e, he, hi.clerks.eq_of_number hp he hclient (hdup.trans hcommand.ge), ?_⟩
    rw [hout, ShardKV.lastReply, hinfo]
    rfl

/-- The reply to the operation of a waiting clerk, unless the group refuses it, is in the log. -/
theorem Inv.exists_effect_of_applied (hi : o.Inv h log)
    (hp : (o.clerks.clients args.clientId).pending = some args) {g : ℤ} {l : List Command}
    (hl : l ++ [.operation args] <+: o.system.logs g)
    (herr : ((replay g l).applyOperation args).2.err ≠ .errWrongGroup) :
    ∃ e ∈ log, e.input = args ∧ e.output = ((replay g l).applyOperation args).2 := by
  by_cases hserve : (replay g l).canServer (key2shard args.key)
  · by_cases hskip : (replay g l).Skips args
    · rw [ShardKV.applyOperation, if_pos hserve, if_pos hskip]
      exact hi.exists_effect hp ((List.prefix_append l _).trans hl) hskip
    · exact hi.logged.recorded hl ⟨hserve, hskip⟩
  · rw [ShardKV.applyOperation, if_neg hserve] at herr
    exact absurd rfl herr

theorem Inv.duplicateReply (hi : o.Inv h log) {g : ℤ} {p : ℕ}
    (hs : o.duplicateReply clientId g p = some o') : o'.Inv h log := by
  obtain ⟨args, hp, hreply⟩ := Option.bind_eq_some_iff.mp hs
  obtain rfl : args.clientId = clientId := (hi.clerks.pending hp).2.1
  by_cases hskip : (o.system.replica g p).Skips args
  · rw [if_pos hskip] at hreply
    exact hi.clerkReturn hp (hi.exists_effect hp (List.take_prefix p _) hskip) hreply
  · rw [if_neg hskip] at hreply
    cases hreply

theorem Inv.executeReply (hi : o.Inv h log) {g : ℤ} {index : ℕ}
    (hr : o.Routed (.executeReply clientId g index))
    (hs : o.executeReply clientId g index = some o') : o'.Inv h log := by
  obtain ⟨args, hp, hrest⟩ := Option.bind_eq_some_iff.mp hs
  obtain ⟨c, hc, hreply⟩ := Option.bind_eq_some_iff.mp hrest
  obtain rfl := (hr args hp c hc).eq
  obtain rfl : args.clientId = clientId := (hi.clerks.pending hp).2.1
  have htake : (o.system.logs g).take (index + 1) =
      (o.system.logs g).take index ++ [.operation args] := by
    rw [List.take_add_one, hc, Option.toList_some]
  have hpre : (o.system.logs g).take index ++ [.operation args] <+: o.system.logs g :=
    htake ▸ List.take_prefix _ _
  refine hi.clerkReturn hp (hi.exists_effect_of_applied hp hpre fun hwrong => ?_) hreply
  -- the clerk does not return on a refusal
  obtain ⟨herr, -⟩ := of_guarded hreply
  rcases herr with herr | herr <;> cases hwrong.symm.trans herr

theorem Inv.step (hi : o.Inv h log) (hstay : h.StaysAssigned) {b : Observation} (hr : o.Routed b)
    (hs : o.step h b = some o') : ∃ log', o'.Inv h log' := by
  cases b with
  | act a =>
    by_cases ha : ∃ args, a = .issue args
    · obtain ⟨args, rfl⟩ := ha
      cases hs
    · have hs' : (o.system.step h a).bind (fun system => some ⟨system, o.clerks.tick⟩) =
          some o' := by
        cases a with
        | issue args => exact absurd ⟨args, rfl⟩ ha
        | _ => exact hs
      obtain ⟨system, hsys, hs'⟩ := Option.bind_eq_some_iff.mp hs'
      obtain rfl := Option.some.inj hs'
      exact hi.act hstay hsys fun args heq => ha ⟨args, heq⟩
  | clerkCommand clientId key value op => exact ⟨log, hi.clerkCommand hstay hs⟩
  | duplicateReply clientId gid p => exact ⟨log, hi.duplicateReply hs⟩
  | executeReply clientId gid index => exact ⟨log, hi.executeReply hr hs⟩

theorem Run.inv {r : ℕ → Observed} (hr : Run h r) (hstay : h.StaysAssigned) (k : ℕ) :
    ∃ log, (r k).Inv h log :=
  hr.steps.invariant (I := fun o => ∃ log, o.Inv h log)
    (fun _ _ _ hrouted hs hi => hi.elim fun _ hi => hi.step hstay hrouted hs)
    (hr.init ▸ ⟨[], init_inv h⟩) k

end Observed

/-- A get leaves the store alone. -/
theorem store_get {m m' : KV} {args : CommandArgs} {reply : CommandReply} (hop : args.op = .get)
    (hs : store.step m args reply = some m') : m' = m := by
  obtain ⟨-, rfl⟩ := of_guarded hs
  exact execute_of_get hop m

theorem Observed.Inv.linearizable {h : History} {o : Observed} {log : EffectLog}
    (hi : o.Inv h log) : store.LinearizableWith o.history o.pendingCalls :=
  hi.clerks.linearizableWith (hi.logged.legal ▸ rfl) hi.logged.once
    fun _ _ _ _ hop hs => store_get hop hs

/-- Linearizability of the sharded store, in which each group is its one committed log: if no shard
is ever taken from all groups and `Execute` returns the reply to its own command, the calls that
have returned, with some of those that have not, form a linearizable history of one store. -/
theorem calls_linearizable {h : History} (hstay : h.StaysAssigned) {r : ℕ → Observed}
    (hr : Observed.Run h r) (k : ℕ) :
    store.LinearizableWith (r k).history (r k).pendingCalls := by
  obtain ⟨log, hi⟩ := hr.inv hstay k
  exact hi.linearizable

def getArgs : CommandArgs := ⟨"d", "", .get, 7, 1⟩

/-- Group 1 serves a write, shard 0 moves to group 2, and group 2 answers a get that was called
before the move. -/
def movedCalls : List Observation :=
  [.act (.configurationAction 1 0), .act (.commit 1 0), .act (.configurationAction 2 0),
    .act (.commit 2 0), .clerkCommand 7 "d" "1" .put, .act (.command 1 1 putArgs),
    .act (.commit 1 1), .executeReply 7 1 1, .clerkCommand 7 "d" "" .get,
    .act (.configurationAction 1 2), .act (.commit 1 2), .act (.configurationAction 2 1),
    .act (.commit 2 1), .act (.migrationAction 2 2 1 3 [key2shard "d"]), .act (.commit 2 2),
    .act (.command 2 3 getArgs), .act (.commit 2 3), .executeReply 7 2 3]

theorem calls_linearizable_movedCalls :
    ∃ r, Observed.Run moveHistory r ∧
      (r 18).history = [⟨putArgs, 4, ⟨.ok, ""⟩, 7⟩, ⟨getArgs, 8, ⟨.ok, "1"⟩, 17⟩] ∧
      store.LinearizableWith (r 18).history (r 18).pendingCalls :=
  have hr : Observed.Run moveHistory (trace (Observed.step moveHistory) .init movedCalls) :=
    ⟨trace_zero _ _, trace_isRun (by decide +kernel)⟩
  ⟨_, hr, by decide +kernel, calls_linearizable moveHistory_staysAssigned hr 18⟩

end RaftLabs.Shardkv
