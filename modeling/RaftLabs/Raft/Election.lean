import RaftLabs.Raft.AppendEntries

/-! Leader election: the `RequestVote` handler, `StartElection` and the closures that
process its vote replies. -/
namespace RaftLabs.Raft
namespace Server

variable {n : ℕ} {C : Type}

/-- The election restriction of section 5.4.1. -/
def UpToDate (args : RequestVoteArgs n) (lastLog : Entry C) : Prop :=
  args.lastLogTerm > lastLog.term ∨
    (args.lastLogTerm = lastLog.term ∧ args.lastLogIndex ≥ lastLog.index)

instance (args : RequestVoteArgs n) (lastLog : Entry C) : Decidable (UpToDate args lastLog) :=
  inferInstanceAs (Decidable (_ ∨ _))

/-- The `RequestVote` RPC. -/
def requestVote (rf : Server n C) (args : RequestVoteArgs n) : Server n C × RequestVoteReply :=
  if args.term < rf.currentTerm ∨ (args.term = rf.currentTerm ∧
      rf.votedFor ≠ none ∧ rf.votedFor ≠ some args.candidateId) then
    (rf, ⟨rf.currentTerm, false⟩)
  else
    let rf := if rf.currentTerm < args.term then rf.setNewTerm args.term else rf
    if (rf.votedFor = none ∨ rf.votedFor = some args.candidateId) ∧
        UpToDate args rf.logs.getLastLog then
      (persist { rf with votedFor := some args.candidateId }, ⟨rf.currentTerm, true⟩)
    else (rf, ⟨rf.currentTerm, false⟩)

/-- `StartElection`: vote for oneself and ask every other peer. -/
def startElection (me : Fin n) (rf : Server n C) : Server n C × List (Fin n × Message n C) :=
  let args : RequestVoteArgs n :=
    { term := rf.currentTerm
      candidateId := me
      lastLogIndex := rf.logs.getLastLog.index
      lastLogTerm := rf.logs.getLastLog.term }
  (persist { rf with votedFor := some me, elections := rf.elections ++ [{ args := args }] },
    ((List.finRange n).filter (· ≠ me)).map fun peer =>
      (peer, .requestVote rf.elections.length args))

/-- The election branch of `ticker`. -/
def electionTimeout (me : Fin n) (rf : Server n C) : Server n C × List (Fin n × Message n C) :=
  startElection me { rf with role := .candidate, currentTerm := rf.currentTerm + 1 }

/-- The function run by `becomeLeader.Do`. -/
def becomeLeader (me : Fin n) (rf : Server n C) :
    Option (Server n C × List (Fin n × Message n C)) := do
  let rf := { rf with
    role := .leader
    nextIndex := fun _ => rf.logs.getLastLog.index + 1
    matchIndex := fun _ => 0 }
  let requests ← rf.appendEntries me true
  some (rf, requests)

/-- The vote-reply closure of `StartElection`. When the reply carries a newer term the
code sets the term of the request, not the one of the reply. -/
def requestVoteReply (me : Fin n) (rf : Server n C) (election : ℕ) (reply : RequestVoteReply) :
    Option (Server n C × List (Fin n × Message n C)) := do
  let e ← rf.elections[election]?
  if e.args.term < reply.term then some (rf.setNewTerm e.args.term, [])
  else if reply.term < e.args.term then some (rf, [])
  else if !reply.voteGranted then some (rf, [])
  else
    let e := { e with grantedVote := e.grantedVote + 1 }
    if n / 2 < e.grantedVote ∧ rf.currentTerm = e.args.term ∧ rf.role = .candidate ∧
        !e.becomeLeader then
      becomeLeader me
        { rf with elections := rf.elections.set election { e with becomeLeader := true } }
    else some ({ rf with elections := rf.elections.set election e }, [])

end Server
end RaftLabs.Raft
