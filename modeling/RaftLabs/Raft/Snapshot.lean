import RaftLabs.Raft.State

/-! Log compaction: the `InstallSnapshot` handler and its reply, and the two calls the
service makes, `CondInstallSnapshot` and `Snapshot`. -/
namespace RaftLabs.Raft
namespace Server

variable {n : ℕ} {C : Type}

/-- The `InstallSnapshot` RPC. An accepted snapshot is not installed here: a goroutine
offers it to the service on `applyCh`. -/
def installSnapshot (rf : Server n C) (args : InstallSnapshotArgs) :
    Server n C × InstallSnapshotReply :=
  let reply : InstallSnapshotReply := ⟨rf.currentTerm, false⟩
  if args.term < rf.currentTerm then (rf, reply)
  else
    let rf := if rf.currentTerm < args.term then rf.setNewTerm args.term else rf
    if args.lastIncludedIndex ≤ rf.commitIndex then (rf, reply)
    else
      ({ rf with
        installs := rf.installs ++ [{
          snapshotValid := true
          snapshot := args.data
          snapshotTerm := args.lastIncludedTerm
          snapshotIndex := args.lastIncludedIndex }] },
        { reply with installed := true })

/-- `sendInstallSnapshotAndUpdate` after the call has returned. -/
def installSnapshotReply (rf : Server n C) (serverId : Fin n) (args : InstallSnapshotArgs)
    (reply : InstallSnapshotReply) : Server n C :=
  let rf := if rf.currentTerm < reply.term then rf.setNewTerm reply.term else rf
  { rf with
    nextIndex := Function.update rf.nextIndex serverId (args.lastIncludedIndex + 1)
    matchIndex := Function.update rf.matchIndex serverId args.lastIncludedIndex }

/-- The log under an accepted snapshot: a log that reaches past the snapshot keeps its suffix,
and only its first entry is overwritten with the index and term of the snapshot. -/
def installedLogs (rf : Server n C) (lastIncludedTerm lastIncludedIndex : ℕ) : Option (Log C) :=
  (if rf.logs.getLastLog.index < lastIncludedIndex then some Log.fresh
    else rf.logs.logCompact lastIncludedIndex).map
    (·.setFirst ⟨lastIncludedIndex, lastIncludedTerm, none⟩)

/-- `CondInstallSnapshot`. -/
def condInstallSnapshot (rf : Server n C) (lastIncludedTerm lastIncludedIndex : ℕ)
    (snapshot : List UInt8) : Option (Server n C × Bool) :=
  if lastIncludedIndex ≤ rf.commitIndex then some (rf, false)
  else do
    let logs ← rf.installedLogs lastIncludedTerm lastIncludedIndex
    let rf := { rf with
      logs
      lastApplied := lastIncludedIndex
      commitIndex := lastIncludedIndex }
    some (rf.saveStateAndSnapshot snapshot, true)

/-- `Snapshot`. -/
def snapshot (rf : Server n C) (index : ℕ) (snapshot : List UInt8) : Option (Server n C) :=
  if index ≤ rf.logs.getFirstLog.index then some rf
  else do
    let logs ← rf.logs.logCompact index
    let rf := { rf with logs := logs.setFirst { logs.getFirstLog with command := none } }
    some (rf.saveStateAndSnapshot snapshot)

end Server
end RaftLabs.Raft
