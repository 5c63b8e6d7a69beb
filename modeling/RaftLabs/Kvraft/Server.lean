import RaftLabs.Basis.LedgerSteps
import RaftLabs.Kvraft.StateMachine

/-! The kvraft service: servers over one replicated log, their `Command` handlers and applier,
and the clerks that call them. Raft itself is the replicated log of `Basis.Ledger`. -/
namespace RaftLabs.Kvraft
open Basis

/-- A notification channel, made for one log index, with its buffer of one reply. -/
structure Chan where
  index : ℕ
  buffer : Option CommandReply := none

/-- `notifyChans` maps an index to the position of its channel in `chans`, where a channel
stays when it is removed from the map. -/
structure KVServer where
  lastApplied : ℕ := 0
  data : Data := {}
  notifyChans : ℕ → Option ℕ := fun _ => none
  chans : List Chan := []

namespace KVServer

def getNotifyChan (kv : KVServer) (index : ℕ) : KVServer × ℕ :=
  match kv.notifyChans index with
  | some ch => (kv, ch)
  | none =>
    ({ kv with
      notifyChans := Function.update kv.notifyChans index (some kv.chans.length)
      chans := kv.chans ++ [{ index := index }] }, kv.chans.length)

def removeOutdatedNotifyChan (kv : KVServer) (index : ℕ) : KVServer :=
  { kv with notifyChans := Function.update kv.notifyChans index none }

/-- `ch <- reply`, which blocks while the buffer is full. -/
def send (kv : KVServer) (ch : ℕ) (reply : CommandReply) : Option KVServer := do
  let c ← kv.chans[ch]?
  if c.buffer = none then
    some { kv with chans := kv.chans.set ch { c with buffer := some reply } }
  else none

/-- `<-ch`, which blocks while the buffer is empty. -/
def receive (kv : KVServer) (ch : ℕ) : Option (KVServer × CommandReply) := do
  let c ← kv.chans[ch]?
  let reply ← c.buffer
  some ({ kv with chans := kv.chans.set ch { c with buffer := none } }, reply)

/-- The applier on a command message; `notify` says whether this server is the leader of the
term of the entry. -/
def applyMsg (kv : KVServer) (index : ℕ) (command : CommandArgs) (notify : Bool) :
    Option KVServer :=
  if index ≤ kv.lastApplied then some kv
  else
    let (data, reply) := kv.data.applyCommand command
    let kv := { kv with lastApplied := index, data }
    if notify then
      let (kv, ch) := kv.getNotifyChan index
      kv.send ch reply
    else some kv

/-- The applier on a snapshot that `CondInstallSnapshot` has accepted. -/
def applySnapshot (kv : KVServer) (index : ℕ) (data : Data) : KVServer :=
  { kv with lastApplied := index, data }

/-- `StartKVServer`: a new instance starts from the persisted snapshot, with `lastApplied` 0. -/
def startKVServer (snapshot : Option (ℕ × Data)) : KVServer :=
  { data := (snapshot.map Prod.snd).getD {} }

end KVServer

/-- How far a `Command` call has come: past the duplicate check, past `Start`, or waiting on
its channel. The term that `Start` returns is dropped by the code. -/
inductive Phase where
  | checked
  | started (index term : ℕ)
  | waiting (index term ch : ℕ)
  deriving DecidableEq

/-- A `Command` call in progress; `since` counts the entries committed when it arrived. -/
structure Handler where
  args : CommandArgs
  since : ℕ
  phase : Phase

/-- The index that `Start` has returned to the call. -/
def Handler.index? (h : Handler) : Option ℕ :=
  match h.phase with
  | .checked => none
  | .started index _ => some index
  | .waiting index _ _ => some index

/-- A server instance: the role of its Raft peer, the index up to which Raft has handed over
commands, the calls in progress, the removals they have spawned, and the saved snapshot. -/
structure Replica where
  isLeader : Bool := false
  kv : KVServer := {}
  applied : ℕ := 0
  handlers : List Handler := []
  removals : List ℕ := []
  snapshot : Option (ℕ × Data) := none

/-- `pending` is the request in the loop of `Clerk.Command`. -/
structure Clerk where
  commandId : ℕ := 0
  pending : Option CommandArgs := none

/-- An answer of `Command`. A call may justify its answer by the entries that were committed
from `since` on, up to the index `upTo` that the answering server has applied. -/
structure Answer where
  args : CommandArgs
  reply : CommandReply
  since : ℕ
  upTo : ℕ
  deriving DecidableEq

/-- The answer ends the loop of `Clerk.Command`. -/
def Answer.Final (a : Answer) : Prop :=
  a.reply.err ≠ .errWrongLeader ∧ a.reply.err ≠ .errTimeOut

instance (a : Answer) : Decidable a.Final := inferInstanceAs (Decidable (_ ∧ _))

/-- `committed` counts the committed entries, `issued` holds all requests of the clerks and
`arrived` the value of `committed` when a request arrived for the first time at a server. All
snapshots that have been saved are kept in `snapshots`, for they may arrive late. -/
structure System (n : ℕ) where
  raft : Ledger (Fin n) (Option CommandArgs)
  committed : ℕ
  replicas : Fin n → Replica
  snapshots : List (ℕ × Data)
  clerks : ℕ → Clerk
  issued : List CommandArgs
  arrived : CommandArgs → Option ℕ
  answers : List Answer

/-- The atomic steps. Handlers, removals and snapshots are given by their positions. -/
inductive Action (n : ℕ) where
  | raft (s : Fin n) (label : Ledger.Label (Fin n) (Option CommandArgs))
  | clerkCommand (clientId : ℕ) (key value : String) (op : Op)
  | clerkReturn (clientId : ℕ)
  | arrive (s : Fin n) (args : CommandArgs)
  | start (s : Fin n) (k : ℕ)
  | getNotifyChan (s : Fin n) (k : ℕ)
  | receive (s : Fin n) (k : ℕ)
  | timeout (s : Fin n) (k : ℕ)
  | removeOutdatedNotifyChan (s : Fin n) (k : ℕ)
  | applyCommand (s : Fin n) (index : ℕ) (needSnapshot : Bool)
  | applySnapshot (s : Fin n) (k : ℕ)
  | restart (s : Fin n)

/-- The role of a Raft peer after one of its moves. -/
def roleAfter (isLeader : Bool) : Ledger.Label (Fin n) (Option CommandArgs) → Bool
  | .elect _ => true
  | .advance _ | .stand _ => false
  | _ => isLeader

/-- The number of committed entries after a move. -/
def committedAfter (committed : ℕ) : Ledger.Label (Fin n) (Option CommandArgs) → ℕ
  | .commitTo _ i _ => max committed (i + 1)
  | _ => committed

namespace System

variable {n : ℕ}

def init (n : ℕ) : System n where
  raft := Ledger.init none
  committed := 1
  replicas _ := {}
  snapshots := []
  clerks _ := {}
  issued := []
  arrived _ := none
  answers := []

def setReplica (sys : System n) (s : Fin n) (r : Replica) : System n :=
  { sys with replicas := Function.update sys.replicas s r }

/-- A call returns: a write counts from the first arrival of the request. -/
def answer (sys : System n) (s : Fin n) (args : CommandArgs) (since : ℕ) (reply : CommandReply) :
    System n :=
  { sys with
    answers := sys.answers ++
      [{ args := args
         reply := reply
         since := if args.op = .get then since else (sys.arrived args).getD since
         upTo := (sys.replicas s).applied }] }

/-- The request has been answered so that its clerk goes on. -/
def Answered (sys : System n) (args : CommandArgs) : Prop :=
  ∃ a ∈ sys.answers, a.args = args ∧ a.Final

instance (sys : System n) (args : CommandArgs) : Decidable (sys.Answered args) :=
  inferInstanceAs (Decidable (∃ a ∈ _, _))

/-- A call of `Clerk.Command` by an idle clerk. -/
def clerkCommand (sys : System n) (clientId : ℕ) (key value : String) (op : Op) :
    Option (System n) :=
  let clerk := sys.clerks clientId
  if clerk.pending = none then
    let args : CommandArgs := ⟨key, value, op, clientId, clerk.commandId⟩
    some { sys with
      clerks := Function.update sys.clerks clientId { clerk with pending := some args }
      issued := sys.issued ++ [args] }
  else none

def clerkReturn (sys : System n) (clientId : ℕ) : Option (System n) := do
  let args ← (sys.clerks clientId).pending
  if sys.Answered args then
    some { sys with
      clerks := Function.update sys.clerks clientId ⟨(sys.clerks clientId).commandId + 1, none⟩ }
  else none

/-- A copy of a request reaches a server, which answers a duplicate at once. -/
def arrive (sys : System n) (s : Fin n) (args : CommandArgs) : Option (System n) :=
  if args ∈ sys.issued then
    let arrived := Function.update sys.arrived args
      (some ((sys.arrived args).getD sys.committed))
    let sys := { sys with arrived }
    let r := sys.replicas s
    if r.kv.data.Skips args then
      some (sys.answer s args sys.committed (r.kv.data.lastReply args.clientId))
    else
      some (sys.setReplica s
        { r with handlers := r.handlers ++ [⟨args, sys.committed, .checked⟩] })
  else none

/-- `rf.Start`: a leader appends the command to its log. -/
def start (sys : System n) (s : Fin n) (k : ℕ) : Option (System n) := do
  let r := sys.replicas s
  let h ← r.handlers[k]?
  if h.phase = .checked then
    if r.isLeader then
      let index := (sys.raft.log s).length
      let term := sys.raft.term s
      let sys := { sys with raft := sys.raft.append s term (some h.args) }
      some (sys.setReplica s
        { r with handlers := r.handlers.set k { h with phase := .started index term } })
    else
      some ((sys.setReplica s { r with handlers := r.handlers.eraseIdx k }).answer s h.args h.since
        ⟨.errWrongLeader, ""⟩)
  else none

def getNotifyChan (sys : System n) (s : Fin n) (k : ℕ) : Option (System n) := do
  let r := sys.replicas s
  let h ← r.handlers[k]?
  match h.phase with
  | .started index term =>
    let (kv, ch) := r.kv.getNotifyChan index
    some (sys.setReplica s
      { r with kv, handlers := r.handlers.set k { h with phase := .waiting index term ch } })
  | _ => none

def receive (sys : System n) (s : Fin n) (k : ℕ) : Option (System n) := do
  let r := sys.replicas s
  let h ← r.handlers[k]?
  match h.phase with
  | .waiting index _ ch =>
    let (kv, reply) ← r.kv.receive ch
    let r := { r with kv, handlers := r.handlers.eraseIdx k, removals := r.removals ++ [index] }
    some ((sys.setReplica s r).answer s h.args h.since reply)
  | _ => none

def timeout (sys : System n) (s : Fin n) (k : ℕ) : Option (System n) := do
  let r := sys.replicas s
  let h ← r.handlers[k]?
  match h.phase with
  | .waiting index _ _ =>
    let r := { r with handlers := r.handlers.eraseIdx k, removals := r.removals ++ [index] }
    some ((sys.setReplica s r).answer s h.args h.since ⟨.errTimeOut, ""⟩)
  | _ => none

def removeOutdatedNotifyChan (sys : System n) (s : Fin n) (k : ℕ) : Option (System n) := do
  let r := sys.replicas s
  let index ← r.removals[k]?
  some (sys.setReplica s
    { r with kv := r.kv.removeOutdatedNotifyChan index, removals := r.removals.eraseIdx k })

/-- Raft hands over the next committed entry of the server's log, or an outdated one. -/
def applyCommand (sys : System n) (s : Fin n) (index : ℕ) (needSnapshot : Bool) :
    Option (System n) := do
  let r := sys.replicas s
  let x ← (sys.raft.log s)[index]?
  let command ← x.value
  if sys.raft.Settled (sys.raft.term s) (index + 1) (sys.raft.log s) ∧
      (index ≤ r.kv.lastApplied ∨ index = r.applied + 1) then
    let kv ← r.kv.applyMsg index command (r.isLeader && x.term = sys.raft.term s)
    if index ≤ r.kv.lastApplied then some sys
    else
      let sys := if needSnapshot then
        { sys with snapshots := sys.snapshots ++ [(index, kv.data)] } else sys
      some (sys.setReplica s
        { r with
          kv
          applied := index
          snapshot := if needSnapshot then some (index, kv.data) else r.snapshot })
  else none

/-- `CondInstallSnapshot` accepts a snapshot that some server has saved, perhaps long ago. -/
def applySnapshot (sys : System n) (s : Fin n) (k : ℕ) : Option (System n) := do
  let r := sys.replicas s
  let (index, data) ← sys.snapshots[k]?
  if r.applied < index then
    some (sys.setReplica s
      { r with
        kv := r.kv.applySnapshot index data
        applied := index
        snapshot := some (index, data) })
  else none

def restart (sys : System n) (s : Fin n) : System n :=
  let snapshot := (sys.replicas s).snapshot
  sys.setReplica s
    { kv := .startKVServer snapshot, applied := (snapshot.map Prod.fst).getD 0, snapshot }

def step (sys : System n) : Action n → Option (System n)
  | .raft s label => do
    let raft ← sys.raft.perform s label
    let r := sys.replicas s
    some { sys with
      raft
      committed := committedAfter sys.committed label
      replicas := Function.update sys.replicas s { r with isLeader := roleAfter r.isLeader label } }
  | .clerkCommand clientId key value op => sys.clerkCommand clientId key value op
  | .clerkReturn clientId => sys.clerkReturn clientId
  | .arrive s args => sys.arrive s args
  | .start s k => sys.start s k
  | .getNotifyChan s k => sys.getNotifyChan s k
  | .receive s k => sys.receive s k
  | .timeout s k => sys.timeout s k
  | .removeOutdatedNotifyChan s k => sys.removeOutdatedNotifyChan s k
  | .applyCommand s index needSnapshot => sys.applyCommand s index needSnapshot
  | .applySnapshot s k => sys.applySnapshot s k
  | .restart s => some (sys.restart s)

/-- `Start` returns an index that another call in progress on the same server has got. -/
def ReusesIndex (sys : System n) : Action n → Prop
  | .start s _ => (sys.replicas s).isLeader ∧
    ∃ h ∈ (sys.replicas s).handlers, h.index? = some (sys.raft.log s).length
  | _ => False

instance (sys : System n) : (a : Action n) → Decidable (sys.ReusesIndex a)
  | .start s _ => inferInstanceAs (Decidable (_ ∧ ∃ h ∈ (sys.replicas s).handlers, _))
  | .raft _ _ | .clerkCommand _ _ _ _ | .clerkReturn _ | .arrive _ _ | .getNotifyChan _ _
  | .receive _ _ | .timeout _ _ | .removeOutdatedNotifyChan _ _ | .applyCommand _ _ _
  | .applySnapshot _ _ | .restart _ => isFalse not_false

/-- A run from the initial state all of whose steps satisfy `P`. -/
structure Run (P : System n → Action n → Prop) (r : ℕ → System n) : Prop where
  init : r 0 = init n
  steps : IsRun step P r

/-- The command at position `index` of the committed log is `args`, and `before` is the state
in which it is applied. -/
def AppliedAt (sys : System n) (index : ℕ) (args : CommandArgs) (before : Data) : Prop :=
  ∃ T t, index < sys.raft.commit T ∧ (sys.raft.llog T)[index]? = some ⟨t, some args⟩ ∧
    before = replay ((sys.raft.llog T).take index)

/-- The answered request is in the committed log, at a position that was not committed when
the call began and that the answering server has applied; it was not skipped there, and a
`Get` has the value of its key in the state at that position. -/
def Justified (sys : System n) (a : Answer) : Prop :=
  ∃ index before, a.since ≤ index ∧ index ≤ a.upTo ∧ sys.AppliedAt index a.args before ∧
    ¬ before.Skips a.args ∧
    (a.args.op = .get → (a.reply.value, a.reply.err) = before.stateMachine.get a.args.key)

end System

end RaftLabs.Kvraft
