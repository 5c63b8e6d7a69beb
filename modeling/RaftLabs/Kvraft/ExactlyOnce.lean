import RaftLabs.Kvraft.Server

/-! Exactly-once semantics of kvraft: although the table keeps one command id per client, the
applier executes each write of a committed log once, at its first occurrence. -/
namespace RaftLabs.Kvraft

/-- The state of the applier after the commands of a log. -/
def replayCommands (l : List CommandArgs) : Data :=
  l.foldl (fun kv command => (kv.applyCommand command).1) {}

@[simp] theorem replayCommands_append_singleton (l : List CommandArgs) (c : CommandArgs) :
    replayCommands (l ++ [c]) = ((replayCommands l).applyCommand c).1 := by
  simp [replayCommands]

namespace Data
variable {kv : Data} {c d : CommandArgs} {info : OperationInfo}

theorem applyCommand_of_skips (h : kv.Skips c) :
    kv.applyCommand c = (kv, kv.lastReply c.clientId) := by
  rw [applyCommand, if_pos h]

theorem applyCommand_of_get (h : c.op = .get) :
    kv.applyCommand c = (kv, (kv.applyToStateMachine c).2) := by
  have hskip : ¬ kv.Skips c := fun hs => hs.1 h
  rw [applyCommand, if_neg hskip]
  simp [applyToStateMachine, h]

theorem applyCommand_of_new (hop : c.op ≠ .get) (h : ¬ kv.Skips c) :
    (kv.applyCommand c).1 = ⟨(kv.applyToStateMachine c).1, Function.update kv.lastOperations
      c.clientId (some ⟨c.commandId, (kv.applyToStateMachine c).2⟩)⟩ := by
  rw [applyCommand, if_neg h]
  simp [hop]

/-- The largest command id that the table has for a client only grows. -/
theorem applyCommand_lastOperations (h : kv.lastOperations d.clientId = some info) :
    ∃ info', (kv.applyCommand c).1.lastOperations d.clientId = some info' ∧
      info.maxAppliedCommandId ≤ info'.maxAppliedCommandId := by
  by_cases hop : c.op = .get
  · rw [applyCommand_of_get hop]
    exact ⟨info, h, le_rfl⟩
  by_cases hskip : kv.Skips c
  · rw [applyCommand_of_skips hskip]
    exact ⟨info, h, le_rfl⟩
  rw [applyCommand_of_new hop hskip]
  dsimp only
  by_cases hc : d.clientId = c.clientId
  · refine ⟨⟨c.commandId, _⟩, by rw [hc, Function.update_self], ?_⟩
    have hnew : ¬ c.commandId ≤ info.maxAppliedCommandId := fun hle =>
      hskip ⟨hop, by simpa [isDuplicatedRequest, ← hc, h] using hle⟩
    exact (not_le.mp hnew).le
  · exact ⟨info, by rw [Function.update_of_ne hc, h], le_rfl⟩

end Data

variable {l : List CommandArgs} {c : CommandArgs}

/-- The table remembers every write of the log. -/
theorem skips_of_mem (hc : c ∈ l) (hop : c.op ≠ .get) : (replayCommands l).Skips c := by
  suffices h : ∃ info, (replayCommands l).lastOperations c.clientId = some info ∧
      c.commandId ≤ info.maxAppliedCommandId by
    obtain ⟨info, hinfo, hle⟩ := h
    exact ⟨hop, by simpa [Data.isDuplicatedRequest, hinfo] using hle⟩
  induction l using List.reverseRecOn with
  | nil => cases hc
  | append_singleton l d ih =>
    rw [replayCommands_append_singleton]
    rcases List.mem_append.mp hc with hc | hc
    · obtain ⟨info, hinfo, hle⟩ := ih hc
      obtain ⟨info', hinfo', hle'⟩ := Data.applyCommand_lastOperations (c := d) hinfo
      exact ⟨info', hinfo', hle.trans hle'⟩
    · obtain rfl := List.mem_singleton.mp hc
      by_cases hskip : (replayCommands l).Skips c
      · rw [Data.applyCommand_of_skips hskip]
        obtain ⟨-, hdup⟩ := hskip
        unfold Data.isDuplicatedRequest at hdup
        cases hinfo : (replayCommands l).lastOperations c.clientId with
        | none => simp [hinfo] at hdup
        | some info => exact ⟨info, rfl, by simpa [hinfo] using hdup⟩
      · rw [Data.applyCommand_of_new hop hskip]
        exact ⟨_, Function.update_self _ _ _, le_rfl⟩

/-- A client appends twice; the first append is retried after the second one. -/
def retriedLog : List CommandArgs :=
  [⟨"k", "a", .append, 1, 0⟩, ⟨"k", "b", .append, 1, 1⟩, ⟨"k", "a", .append, 1, 0⟩,
    ⟨"k", "", .get, 1, 2⟩]

end RaftLabs.Kvraft
