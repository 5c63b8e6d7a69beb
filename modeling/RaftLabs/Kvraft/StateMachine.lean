import RaftLabs.Basis.Ledger

/-! The key/value state machine of kvraft, its table of last operations, and the state that
results from applying a log of commands. -/
namespace RaftLabs.Kvraft
open Basis

inductive Err where
  | ok | errNoKey | errWrongLeader | errTimeOut
  deriving DecidableEq, Repr

inductive Op where
  | put | append | get
  deriving DecidableEq, Repr

structure CommandArgs where
  key : String
  value : String
  op : Op
  clientId : ℕ
  commandId : ℕ
  deriving DecidableEq, Repr

structure CommandReply where
  err : Err
  value : String
  deriving DecidableEq, Repr

structure OperationInfo where
  maxAppliedCommandId : ℕ
  lastReply : CommandReply
  deriving DecidableEq, Repr

abbrev MemoryKV := String → Option String

namespace MemoryKV

def get (kv : MemoryKV) (key : String) : String × Err :=
  match kv key with
  | some value => (value, .ok)
  | none => ("", .errNoKey)

def put (kv : MemoryKV) (key value : String) : MemoryKV × Err :=
  (Function.update kv key (some value), .ok)

/-- A missing key reads as the empty string. -/
def append (kv : MemoryKV) (key value : String) : MemoryKV × Err :=
  (Function.update kv key (some ((kv key).getD "" ++ value)), .ok)

end MemoryKV

/-- The part of a server that its snapshots hold. -/
structure Data where
  stateMachine : MemoryKV := fun _ => none
  lastOperations : ℕ → Option OperationInfo := fun _ => none

namespace Data

def isDuplicatedRequest (kv : Data) (clientId commandId : ℕ) : Bool :=
  match kv.lastOperations clientId with
  | some lastReply => commandId ≤ lastReply.maxAppliedCommandId
  | none => false

def applyToStateMachine (kv : Data) (command : CommandArgs) : MemoryKV × CommandReply :=
  match command.op with
  | .put =>
    let (stateMachine, err) := kv.stateMachine.put command.key command.value
    (stateMachine, ⟨err, ""⟩)
  | .append =>
    let (stateMachine, err) := kv.stateMachine.append command.key command.value
    (stateMachine, ⟨err, ""⟩)
  | .get =>
    let (value, err) := kv.stateMachine.get command.key
    (kv.stateMachine, ⟨err, value⟩)

theorem applyToStateMachine_reply {kv : Data} {command : CommandArgs} (hop : command.op ≠ .get) :
    (kv.applyToStateMachine command).2 = ⟨.ok, ""⟩ := by
  rw [applyToStateMachine]
  cases h : command.op with
  | get => exact absurd h hop
  | put => rfl
  | append => rfl

/-- The applier skips this command as one it has applied before. -/
def Skips (kv : Data) (command : CommandArgs) : Prop :=
  command.op ≠ .get ∧ kv.isDuplicatedRequest command.clientId command.commandId

instance (kv : Data) (command : CommandArgs) : Decidable (kv.Skips command) :=
  inferInstanceAs (Decidable (_ ∧ _))

/-- The reply kept for a client; it is read only for a client that has one. -/
def lastReply (kv : Data) (clientId : ℕ) : CommandReply :=
  ((kv.lastOperations clientId).map OperationInfo.lastReply).getD ⟨.ok, ""⟩

/-- What the applier does with a command: the new state and the reply. -/
def applyCommand (kv : Data) (command : CommandArgs) : Data × CommandReply :=
  if kv.Skips command then (kv, kv.lastReply command.clientId)
  else
    let (stateMachine, reply) := kv.applyToStateMachine command
    if command.op ≠ .get then
      (⟨stateMachine, Function.update kv.lastOperations command.clientId
        (some ⟨command.commandId, reply⟩)⟩, reply)
    else (⟨stateMachine, kv.lastOperations⟩, reply)

end Data

/-- The effect of one log item; the sentinel has no command. -/
def applyItem (kv : Data) (x : Item (Option CommandArgs)) : Data :=
  match x.value with
  | some command => (kv.applyCommand command).1
  | none => kv

/-- The state after a log has been applied. -/
def replay (l : List (Item (Option CommandArgs))) : Data := l.foldl applyItem {}

theorem replay_take_succ {l : List (Item (Option CommandArgs))} {k : ℕ}
    {x : Item (Option CommandArgs)} (hx : l[k]? = some x) :
    replay (l.take (k + 1)) = applyItem (replay (l.take k)) x := by
  rw [List.take_add_one, hx]
  simp [replay]

theorem applyItem_lastOperations {kv : Data} {x : Item (Option CommandArgs)} {c : ℕ}
    {info : OperationInfo} (h : (applyItem kv x).lastOperations c = some info) :
    kv.lastOperations c = some info ∨ ∃ command, x.value = some command ∧ command.op ≠ .get ∧
      ¬ kv.Skips command ∧ command.clientId = c ∧
      command.commandId = info.maxAppliedCommandId ∧ info.lastReply = ⟨.ok, ""⟩ := by
  cases hv : x.value with
  | none =>
    rw [applyItem, hv] at h
    exact Or.inl h
  | some command =>
    rw [applyItem, hv] at h
    simp only [Data.applyCommand] at h
    split_ifs at h with hskip hop
    · exact Or.inl h
    · change Function.update _ _ _ c = _ at h
      by_cases hc : c = command.clientId
      · subst hc
        rw [Function.update_self] at h
        obtain rfl := Option.some.inj h
        exact Or.inr ⟨command, rfl, hop, hskip, rfl, rfl, Data.applyToStateMachine_reply hop⟩
      · rw [Function.update_of_ne hc] at h
        exact Or.inl h
    · exact Or.inl h

/-- An entry of the table of last operations comes from a write that was applied, and all writes
are answered `OK`. -/
theorem replay_lastOperations {l : List (Item (Option CommandArgs))} {c : ℕ}
    {info : OperationInfo} (h : (replay l).lastOperations c = some info) :
    ∃ (i : ℕ) (x : Item (Option CommandArgs)) (command : CommandArgs), l[i]? = some x ∧
      x.value = some command ∧ command.op ≠ .get ∧ ¬ (replay (l.take i)).Skips command ∧
      command.clientId = c ∧ command.commandId = info.maxAppliedCommandId ∧
      info.lastReply = ⟨.ok, ""⟩ := by
  induction l using List.reverseRecOn with
  | nil => simp [replay] at h
  | append_singleton l x ih =>
    have hx : (l ++ [x])[l.length]? = some x := by simp
    have hstep := replay_take_succ hx
    rw [List.take_of_length_le (by simp), List.take_left] at hstep
    rw [hstep] at h
    rcases applyItem_lastOperations h with h | ⟨command, hv, hop, hskip, hc, hrest⟩
    · obtain ⟨i, y, command, hy, hrest⟩ := ih h
      have hi := (List.getElem?_eq_some_iff.mp hy).1
      refine ⟨i, y, command, by rw [List.getElem?_append_left hi, hy], ?_⟩
      rwa [List.take_append_of_le_length hi.le]
    · exact ⟨l.length, x, command, hx, hv, hop, by rwa [List.take_left], hc, hrest⟩

theorem replay_lastReply (l : List (Item (Option CommandArgs))) (clientId : ℕ) :
    (replay l).lastReply clientId = ⟨.ok, ""⟩ := by
  rw [Data.lastReply]
  cases hinfo : (replay l).lastOperations clientId with
  | none => rfl
  | some info =>
    obtain ⟨-, -, -, -, -, -, -, -, -, hreply⟩ := replay_lastOperations hinfo
    exact hreply

end RaftLabs.Kvraft
