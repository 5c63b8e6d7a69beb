import RaftLabs.Raft.State

/-! The `applier` goroutine, split at the points where it releases the lock. -/
namespace RaftLabs.Raft
namespace Server

variable {n : ℕ} {C : Type}

/-- The first critical section: copy the committed entries not applied yet. -/
def applierCopy (rf : Server n C) : Option (Server n C) :=
  match rf.applier with
  | .sending _ _ => none
  | .waiting =>
    if rf.commitIndex ≤ rf.lastApplied then none
    else do
      let entries ← rf.logs.slice rf.lastApplied rf.commitIndex
      some { rf with applier := .sending entries rf.commitIndex }

/-- The message sent for one entry. -/
def commandMsg (entry : Entry C) : ApplyMsg C :=
  { commandValid := true
    command := entry.command
    commandIndex := entry.index
    commandTerm := entry.term }

/-- One send on `applyCh`, made without the lock and received by the service. -/
def applierSend (rf : Server n C) : Option (Server n C) :=
  match rf.applier with
  | .sending (entry :: rest) commitIndex =>
    some { rf with
      applier := .sending rest commitIndex
      applied := rf.applied ++ [commandMsg entry] }
  | _ => none

/-- The second critical section. -/
def applierUpdate (rf : Server n C) : Option (Server n C) :=
  match rf.applier with
  | .sending [] commitIndex =>
    some { rf with applier := .waiting, lastApplied := max rf.lastApplied commitIndex }
  | _ => none

end Server
end RaftLabs.Raft
