import RaftLabs.Basis.Transition
import RaftLabs.Raft.Election
import RaftLabs.Raft.Snapshot
import RaftLabs.Raft.Apply

/-! A cluster of Raft servers and the calls in flight between them, as a transition system.
Every critical section of the code is one step. -/
namespace RaftLabs.Raft

variable {n : ℕ} {C : Type}

/-- A call made by the `epoch`-th instance of `caller`. -/
structure Packet (n : ℕ) (C : Type) where
  caller : Fin n
  callee : Fin n
  epoch : ℕ
  message : Message n C
  deriving DecidableEq, Repr

structure Cluster (n : ℕ) (C : Type) where
  servers : Fin n → Server n C
  net : List (Packet n C)

/-- What can happen next. `deliver k` hands over the `k`-th message in flight, so messages
arrive in any order, late or never; `crash i` is a crash followed by a restart from the
persister. -/
inductive Action (C : Type) (n : ℕ) where
  | electionTimeout (i : Fin n)
  | heartbeatTimeout (i : Fin n)
  | start (i : Fin n) (command : Option C)
  | deliver (k : ℕ)
  | drop (k : ℕ)
  | crash (i : Fin n)
  | applierCopy (i : Fin n)
  | applierSend (i : Fin n)
  | applierUpdate (i : Fin n)
  | snapshot (i : Fin n) (index : ℕ) (data : List UInt8)
  | condInstallSnapshot (i : Fin n) (k : ℕ)
  deriving DecidableEq, Repr

namespace Cluster

/-- Every server starts with an empty persister. -/
def init (n : ℕ) (C : Type) : Cluster n C := ⟨fun _ => Server.make {} 0, []⟩

def setServer (c : Cluster n C) (i : Fin n) (rf : Server n C) : Cluster n C :=
  { c with servers := Function.update c.servers i rf }

/-- The calls started by the goroutines of server `i`. -/
def send (c : Cluster n C) (i : Fin n) (requests : List (Fin n × Message n C)) : Cluster n C :=
  { c with net := c.net ++ requests.map fun (peer, message) =>
      ⟨i, peer, (c.servers i).epoch, message⟩ }

/-- Delivery of the packet `p`, already taken out of the net: a request runs the handler and
puts the reply in flight, a reply resumes the goroutine that made the call unless its
instance has crashed. -/
def deliver (c : Cluster n C) (p : Packet n C) : Option (Cluster n C) :=
  let callee := c.servers p.callee
  let caller := c.servers p.caller
  match p.message with
  | .requestVote election args =>
    let (rf, reply) := callee.requestVote args
    some { c.setServer p.callee rf with
      net := c.net ++ [{ p with message := .requestVoteReply election args reply }] }
  | .appendEntries args => do
    let (rf, reply) ← callee.appendEntriesRpc args
    some { c.setServer p.callee rf with
      net := c.net ++ [{ p with message := .appendEntriesReply args reply }] }
  | .installSnapshot args =>
    let (rf, reply) := callee.installSnapshot args
    some { c.setServer p.callee rf with
      net := c.net ++ [{ p with message := .installSnapshotReply args reply }] }
  | .requestVoteReply election _ reply =>
    if p.epoch ≠ caller.epoch then some c
    else do
      let (rf, requests) ← caller.requestVoteReply p.caller election reply
      some ((c.setServer p.caller rf).send p.caller requests)
  | .appendEntriesReply args reply =>
    if p.epoch ≠ caller.epoch then some c
    else do
      let rf ← caller.appendEntriesReply p.caller p.callee args reply
      some (c.setServer p.caller rf)
  | .installSnapshotReply args reply =>
    if p.epoch ≠ caller.epoch then some c
    else some (c.setServer p.caller (caller.installSnapshotReply p.callee args reply))

/-- One step; `none` when the action is not enabled or panics. -/
def step (c : Cluster n C) : Action C n → Option (Cluster n C)
  | .electionTimeout i =>
    let (rf, requests) := (c.servers i).electionTimeout i
    some ((c.setServer i rf).send i requests)
  | .heartbeatTimeout i => do
    let requests ← (c.servers i).heartbeatTimeout i
    some (c.send i requests)
  | .start i command => do
    let (rf, requests, _) ← (c.servers i).start i command
    some ((c.setServer i rf).send i requests)
  | .deliver k => do
    let p ← c.net[k]?
    deliver { c with net := c.net.eraseIdx k } p
  | .drop k => some { c with net := c.net.eraseIdx k }
  | .crash i =>
    some (c.setServer i (Server.make (c.servers i).persister ((c.servers i).epoch + 1)))
  | .applierCopy i => do
    let rf ← (c.servers i).applierCopy
    some (c.setServer i rf)
  | .applierSend i => do
    let rf ← (c.servers i).applierSend
    some (c.setServer i rf)
  | .applierUpdate i => do
    let rf ← (c.servers i).applierUpdate
    some (c.setServer i rf)
  | .snapshot i index data =>
    -- the service only compacts what it has received
    if (c.servers i).applied.any fun msg => msg.commandIndex = index then do
      let rf ← (c.servers i).snapshot index data
      some (c.setServer i rf)
    else none
  | .condInstallSnapshot i k => do
    let msg ← (c.servers i).installs[k]?
    let rf := { c.servers i with installs := (c.servers i).installs.eraseIdx k }
    let (rf, _) ← rf.condInstallSnapshot msg.snapshotTerm msg.snapshotIndex msg.snapshot
    some (c.setServer i rf)

/-- The vote reply that `deliver k` hands to a live election: the server, its election and
the reply. -/
def voteReplyAt (c : Cluster n C) (k : ℕ) : Option (Fin n × Election n × RequestVoteReply) := do
  let p ← c.net[k]?
  match p.message with
  | .requestVoteReply election _ reply =>
    if p.epoch = (c.servers p.caller).epoch then do
      let e ← (c.servers p.caller).elections[election]?
      some (p.caller, e, reply)
    else none
  | _ => none

/-- The step takes the branch `reply.Term > args.Term` of the vote-reply closure. -/
def TakesNewerTermBranch (c : Cluster n C) : Action C n → Prop
  | .deliver k =>
    match c.voteReplyAt k with
    | some (_, e, reply) => e.args.term < reply.term
    | none => False
  | _ => False

instance (c : Cluster n C) : (a : Action C n) → Decidable (c.TakesNewerTermBranch a)
  | .deliver k =>
    match h : c.voteReplyAt k with
    | some (_, e, reply) =>
      decidable_of_iff (e.args.term < reply.term) (by simp [TakesNewerTermBranch, h])
    | none => isFalse (by simp [TakesNewerTermBranch, h])
  | .electionTimeout _ | .heartbeatTimeout _ | .start _ _ | .drop _ | .crash _ | .applierCopy _
  | .applierSend _ | .applierUpdate _ | .snapshot _ _ _ | .condInstallSnapshot _ _ =>
    isFalse not_false

/-- A snapshot accepted by `CondInstallSnapshot` below the end of the log finds there an entry
of its own term, so that the suffix the log keeps belongs to it. -/
def InstallsCleanly (c : Cluster n C) : Action C n → Prop
  | .condInstallSnapshot i k =>
    match (c.servers i).installs[k]? with
    | some msg => (c.servers i).commitIndex < msg.snapshotIndex →
      msg.snapshotIndex < (c.servers i).logs.getLastLog.index →
      ((c.servers i).logs.get? msg.snapshotIndex).map Entry.term = some msg.snapshotTerm
    | none => True
  | _ => True

instance (c : Cluster n C) : (a : Action C n) → Decidable (c.InstallsCleanly a)
  | .condInstallSnapshot i k =>
    match h : (c.servers i).installs[k]? with
    | some msg => decidable_of_iff ((c.servers i).commitIndex < msg.snapshotIndex →
        msg.snapshotIndex < (c.servers i).logs.getLastLog.index →
        ((c.servers i).logs.get? msg.snapshotIndex).map Entry.term = some msg.snapshotTerm)
        (by simp [InstallsCleanly, h])
    | none => isTrue (by simp [InstallsCleanly, h])
  | .deliver _ | .electionTimeout _ | .heartbeatTimeout _ | .start _ _ | .drop _ | .crash _
  | .applierCopy _ | .applierSend _ | .applierUpdate _ | .snapshot _ _ _ => isTrue trivial

/-- A run from the initial state all of whose steps satisfy `P`. -/
structure Run (P : Cluster n C → Action C n → Prop) (r : ℕ → Cluster n C) : Prop where
  init : r 0 = init n C
  steps : Basis.IsRun step P r

/-- Runs that never take the branch `reply.Term > args.Term` of the vote-reply closure. -/
abbrev SafeRun : (ℕ → Cluster n C) → Prop := Run fun c a => ¬ c.TakesNewerTermBranch a

/-- In the step from `c` to `c'` the server `i` takes the role of leader of `term`. -/
def BecomesLeader (c c' : Cluster n C) (i : Fin n) (term : ℕ) : Prop :=
  (c.servers i).role ≠ .leader ∧ (c'.servers i).role = .leader ∧
    (c'.servers i).currentTerm = term

end Cluster

end RaftLabs.Raft
