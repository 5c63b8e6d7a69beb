import RaftLabs.Raft.State

/-! Log replication: the `AppendEntries` handler, the requests a leader builds, the
processing of their replies, and the commit rule. -/
namespace RaftLabs.Raft
namespace Server

variable {n : ℕ} {C : Type}

/-- The loop that walks back from `PrevLogIndex - 1` over the entries of term `xTerm`;
the argument is the loop variable plus one. -/
def findXIndex (l : Log C) (xTerm : ℕ) : ℕ → ℤ
  | 0 => -1
  | x + 1 =>
    if l.getFirstLog.index ≤ x ∧ (l.get? x).map Entry.term = some xTerm then findXIndex l xTerm x
    else x

/-- The loop over `args.Entries`: cut the log at a conflicting entry, append the rest of
the request at the first entry past the end of the log. -/
def storeEntries (rf : Server n C) : List (Entry C) → Option (Server n C)
  | [] => some rf
  | entry :: rest => do
    let firstLogIndex := rf.logs.getFirstLog.index
    let rf ←
      if entry.index ≤ rf.logs.getLastLog.index ∧ firstLogIndex ≤ entry.index then do
        let existing ← rf.logs.get? entry.index
        if existing.term ≠ entry.term then do
          let logs ← rf.logs.takeTo entry.index
          some (persist { rf with logs })
        else some rf
      else some rf
    if rf.logs.getLastLog.index < entry.index then
      some (persist { rf with logs := rf.logs.append (entry :: rest) })
    else storeEntries rf rest

/-- `AppendEntries` in the term of the request, after the role has been settled: the check at
`PrevLogIndex` and then rules 3 to 5. -/
def acceptEntries (rf : Server n C) (args : AppendEntriesArgs n C) :
    Option (Server n C × AppendEntriesReply) := do
  let reply : AppendEntriesReply := { term := rf.currentTerm }
  let firstLogIndex := rf.logs.getFirstLog.index
  if args.prevLogIndex < firstLogIndex then some (rf, { reply with term := 0 })
  else if rf.logs.getLastLog.index < args.prevLogIndex then
    some (rf, { reply with
      conflict := true
      xTerm := -1
      xIndex := -1
      xLen := rf.logs.entries.length + firstLogIndex - 1 })
  else
    let prev ← rf.logs.get? args.prevLogIndex
    if prev.term ≠ args.prevLogTerm then
      some (rf, { reply with
        conflict := true
        xTerm := prev.term
        xIndex := findXIndex rf.logs prev.term args.prevLogIndex
        xLen := rf.logs.entries.length + firstLogIndex - 1 })
    else
      let rf ← rf.storeEntries args.entries
      let rf :=
        if rf.commitIndex < args.leaderCommit then
          { rf with commitIndex := min args.leaderCommit rf.logs.getLastLog.index }
        else rf
      some (rf, { reply with success := true })

/-- The `AppendEntries` RPC. -/
def appendEntriesRpc (rf : Server n C) (args : AppendEntriesArgs n C) :
    Option (Server n C × AppendEntriesReply) :=
  let reply : AppendEntriesReply := { term := rf.currentTerm }
  if args.term < rf.currentTerm then some (rf, reply)
  else if rf.currentTerm < args.term then some (rf.setNewTerm args.term, reply)
  else acceptEntries (if rf.role = .candidate then { rf with role := .follower } else rf) args

/-- What `appendEntries` sends to one peer: the suffix of the log from `nextIndex`, or the
snapshot when that suffix is no longer retained. -/
def requestTo (me : Fin n) (rf : Server n C) (peer : Fin n) : Option (Message n C) :=
  let prevLogIndex := rf.nextIndex peer - 1
  if prevLogIndex < rf.logs.getFirstLog.index then
    some (.installSnapshot
      { term := rf.currentTerm
        lastIncludedIndex := rf.logs.getFirstLog.index
        lastIncludedTerm := rf.logs.getFirstLog.term
        data := rf.persister.snapshot })
  else do
    let prevLog ← rf.logs.get? prevLogIndex.toNat
    some (.appendEntries
      { term := rf.currentTerm
        leaderId := me
        prevLogIndex := prevLog.index
        prevLogTerm := prevLog.term
        entries := rf.logs.entries.drop (prevLogIndex.toNat - rf.logs.getFirstLog.index + 1)
        leaderCommit := rf.commitIndex })

/-- `appendEntries(heartbeat)`: the requests it sends, with their destinations. -/
def appendEntries (me : Fin n) (rf : Server n C) (heartbeat : Bool) :
    Option (List (Fin n × Message n C)) :=
  ((List.finRange n).filter fun peer =>
    peer ≠ me ∧ (heartbeat ∨ rf.nextIndex peer ≤ rf.logs.getLastLog.index)).mapM
    fun peer => (requestTo me rf peer).map fun request => (peer, request)

/-- `Start`, with the returned index and term; a server that is not the leader does
nothing. -/
def start (me : Fin n) (rf : Server n C) (command : Option C) :
    Option (Server n C × List (Fin n × Message n C) × Option (ℕ × ℕ)) :=
  if rf.role ≠ .leader then some (rf, [], none)
  else do
    let index := rf.logs.getLastLog.index + 1
    let term := rf.currentTerm
    let rf := persist { rf with logs := rf.logs.append [⟨index, term, command⟩] }
    let requests ← rf.appendEntries me false
    some (rf, requests, some (index, term))

/-- The heartbeat branch of `ticker`. -/
def heartbeatTimeout (me : Fin n) (rf : Server n C) : Option (List (Fin n × Message n C)) :=
  if rf.role = .leader then rf.appendEntries me true else some []

/-- The inner loop of `leaderCommitLog`: does the counter pass half of the peers? -/
def countMatches (me : Fin n) (matchIndex : Fin n → ℤ) (i : ℕ) : List (Fin n) → ℕ → Bool
  | [], _ => false
  | serverId :: rest, cnt =>
    let cnt := if serverId ≠ me ∧ (i : ℤ) ≤ matchIndex serverId then cnt + 1 else cnt
    if n / 2 < cnt then true else countMatches me matchIndex i rest cnt

/-- One iteration of the outer loop of `leaderCommitLog`. -/
def commitAt (me : Fin n) (rf : Server n C) (i : ℕ) : Option (Server n C) := do
  let entry ← rf.logs.get? i
  if entry.term = rf.currentTerm ∧ countMatches me rf.matchIndex i (List.finRange n) 1 then
    some { rf with commitIndex := i }
  else some rf

def leaderCommitLog (me : Fin n) (rf : Server n C) : Option (Server n C) :=
  if rf.role ≠ .leader then some rf
  else
    (List.range' (rf.commitIndex + 1) (rf.logs.getLastLog.index - rf.commitIndex)).foldlM
      (commitAt me) rf

/-- `findLastLogInXTerm`; the loop runs down to index 1 whatever the log retains. -/
def findLastLogInXTerm (l : Log C) (term : ℤ) : ℕ → Option ℤ
  | 0 => some (-1)
  | i + 1 => do
    let entry ← l.get? (i + 1)
    if (entry.term : ℤ) = term then some (i + 1)
    else if entry.term < term then some (-1)
    else findLastLogInXTerm l term i

/-- The back-off rules for `nextIndex` after a failed request. -/
def backOff (rf : Server n C) (serverId : Fin n) (reply : AppendEntriesReply) : Option ℤ :=
  if reply.conflict then
    if reply.xTerm = -1 then some reply.xLen
    else do
      let lastLogInXTerm ← findLastLogInXTerm rf.logs reply.xTerm rf.logs.getLastLog.index
      some (if 0 < lastLogInXTerm then lastLogInXTerm else reply.xIndex)
  else if 1 < rf.nextIndex serverId then some (rf.nextIndex serverId - 1)
  else some (rf.nextIndex serverId)

/-- `sendAppendEntryAndUpdate` after the call has returned. -/
def appendEntriesReply (me : Fin n) (rf : Server n C) (serverId : Fin n)
    (args : AppendEntriesArgs n C) (reply : AppendEntriesReply) : Option (Server n C) :=
  if rf.currentTerm < reply.term then some (rf.setNewTerm reply.term)
  else if args.term = rf.currentTerm then
    if reply.success then
      let «match» : ℤ := args.prevLogIndex + args.entries.length
      leaderCommitLog me
        { rf with
          nextIndex := Function.update rf.nextIndex serverId
            (max (rf.nextIndex serverId) («match» + 1))
          matchIndex := Function.update rf.matchIndex serverId
            (max (rf.matchIndex serverId) «match») }
    else do
      let next ← rf.backOff serverId reply
      leaderCommitLog me { rf with nextIndex := Function.update rf.nextIndex serverId next }
  else some rf

end Server
end RaftLabs.Raft
