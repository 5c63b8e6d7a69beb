import RaftLabs.Raft.Log

/-! The state of one Raft server and what survives a crash of it. Timers only decide
when a step happens and are not part of the state. -/
namespace RaftLabs.Raft

variable {n : ℕ} {C : Type}

inductive Role where
  | follower | candidate | leader
  deriving DecidableEq, Repr

structure ApplyMsg (C : Type) where
  commandValid : Bool := false
  command : Option C := none
  commandIndex : ℕ := 0
  commandTerm : ℕ := 0
  snapshotValid : Bool := false
  snapshot : List UInt8 := []
  snapshotTerm : ℕ := 0
  snapshotIndex : ℕ := 0
  deriving DecidableEq, Repr

structure RequestVoteArgs (n : ℕ) where
  term : ℕ
  candidateId : Fin n
  lastLogIndex : ℕ
  lastLogTerm : ℕ
  deriving DecidableEq, Repr

structure RequestVoteReply where
  term : ℕ
  voteGranted : Bool
  deriving DecidableEq, Repr

structure AppendEntriesArgs (n : ℕ) (C : Type) where
  term : ℕ
  leaderId : Fin n
  prevLogIndex : ℕ
  prevLogTerm : ℕ
  entries : List (Entry C)
  leaderCommit : ℕ
  deriving DecidableEq, Repr

/-- The default values are the zero values of a fresh reply struct. -/
structure AppendEntriesReply where
  term : ℕ := 0
  success : Bool := false
  conflict : Bool := false
  xTerm : ℤ := 0
  xIndex : ℤ := 0
  xLen : ℤ := 0
  deriving DecidableEq, Repr

structure InstallSnapshotArgs where
  term : ℕ
  lastIncludedIndex : ℕ
  lastIncludedTerm : ℕ
  data : List UInt8
  deriving DecidableEq, Repr

structure InstallSnapshotReply where
  term : ℕ
  installed : Bool
  deriving DecidableEq, Repr

/-- The arguments of a call on their way to the callee, or the reply on its way back to
the goroutine that made the call, which still holds the arguments. A vote call also
names the `StartElection` call it belongs to. -/
inductive Message (n : ℕ) (C : Type) where
  | requestVote (election : ℕ) (args : RequestVoteArgs n)
  | requestVoteReply (election : ℕ) (args : RequestVoteArgs n) (reply : RequestVoteReply)
  | appendEntries (args : AppendEntriesArgs n C)
  | appendEntriesReply (args : AppendEntriesArgs n C) (reply : AppendEntriesReply)
  | installSnapshot (args : InstallSnapshotArgs)
  | installSnapshotReply (args : InstallSnapshotArgs) (reply : InstallSnapshotReply)
  deriving DecidableEq, Repr

/-- What `encodeRaftState` writes and `readPersist` reads. The gob encoding round-trips,
so the persisted bytes are represented by the values they encode. -/
structure RaftState (n : ℕ) (C : Type) where
  currentTerm : ℕ
  votedFor : Option (Fin n)
  logs : Log C
  deriving DecidableEq, Repr

/-- `raftstate` is `none` until the first save; `snapshot` starts empty. -/
structure Persister (n : ℕ) (C : Type) where
  raftstate : Option (RaftState n C) := none
  snapshot : List UInt8 := []
  deriving DecidableEq, Repr

/-- The variables captured by the vote-reply closures of one `StartElection` call:
its request, its vote counter and its `sync.Once`. -/
structure Election (n : ℕ) where
  args : RequestVoteArgs n
  grantedVote : ℕ := 1
  becomeLeader : Bool := false
  deriving DecidableEq, Repr

/-- The program counter of the `applier` goroutine: waiting for a commit, or sending
the copied `entries`, after which it writes `LastApplied`. -/
inductive Applier (C : Type) where
  | waiting
  | sending (entries : List (Entry C)) (commitIndex : ℕ)
  deriving DecidableEq, Repr

/-- A running `Raft` value. `votedFor = -1` is `none`. `elections` are the closures of
its elections, `installs` the goroutines of `InstallSnapshot` waiting to send on `applyCh`,
`applied` the command messages the service has received from this instance and `epoch`
counts restarts, so that a reply can be matched with the instance that made the call. -/
structure Server (n : ℕ) (C : Type) where
  persister : Persister n C
  role : Role
  currentTerm : ℕ
  votedFor : Option (Fin n)
  logs : Log C
  commitIndex : ℕ
  lastApplied : ℕ
  nextIndex : Fin n → ℤ
  matchIndex : Fin n → ℤ
  elections : List (Election n)
  applier : Applier C
  installs : List (ApplyMsg C)
  applied : List (ApplyMsg C)
  epoch : ℕ

namespace Server

def encodeRaftState (rf : Server n C) : RaftState n C :=
  ⟨rf.currentTerm, rf.votedFor, rf.logs⟩

/-- `persister.SaveRaftState(rf.encodeRaftState())`. -/
def persist (rf : Server n C) : Server n C :=
  { rf with persister := { rf.persister with raftstate := some rf.encodeRaftState } }

/-- `persister.SaveStateAndSnapshot(rf.encodeRaftState(), snapshot)`. -/
def saveStateAndSnapshot (rf : Server n C) (snapshot : List UInt8) : Server n C :=
  { rf with persister := ⟨some rf.encodeRaftState, snapshot⟩ }

/-- `readPersist`: nothing to do before the first save. -/
def readPersist (rf : Server n C) : Option (RaftState n C) → Server n C
  | none => rf
  | some st =>
    { rf with
      currentTerm := st.currentTerm
      votedFor := st.votedFor
      logs := st.logs
      lastApplied := st.logs.getFirstLog.index
      commitIndex := st.logs.getFirstLog.index }

/-- A server made from a persister, as the `epoch`-th instance of that server. -/
def make (persister : Persister n C) (epoch : ℕ) : Server n C :=
  readPersist
    { persister
      role := .follower
      currentTerm := 0
      votedFor := none
      logs := Log.fresh
      commitIndex := 0
      lastApplied := 0
      nextIndex := fun _ => 0
      matchIndex := fun _ => 0
      elections := []
      applier := .waiting
      installs := []
      applied := []
      epoch } persister.raftstate

def setNewTerm (rf : Server n C) (term : ℕ) : Server n C :=
  persist { rf with currentTerm := term, role := .follower, votedFor := none }

/-- `GetState`. -/
def getState (rf : Server n C) : ℕ × Bool := (rf.currentTerm, rf.role = .leader)

end Server

end RaftLabs.Raft
