import Mathlib.Tactic

/-! The log of a Raft server: a slice whose first element is the snapshot point.
Index expressions that Go checks at run time return `none` when they panic. -/
namespace RaftLabs.Raft

variable {C : Type}

structure Entry (C : Type) where
  index : ℕ
  term : ℕ
  command : Option C
  deriving DecidableEq, Repr

/-- `make([]Entry, 1)[0]`, the zero value of `Entry`. -/
def Entry.zero : Entry C := ⟨0, 0, none⟩

/-- `rf.logs`. The code reads `logs[0]` and `logs[len(logs)-1]` everywhere, so the
slice is never empty; an operation that would empty it panics at its next read. -/
structure Log (C : Type) where
  entries : List (Entry C)
  nonempty : entries ≠ []
  deriving DecidableEq, Repr

namespace Log

/-- `make([]Entry, 1)`. -/
def fresh : Log C := ⟨[Entry.zero], by simp⟩

def getFirstLog (l : Log C) : Entry C := l.entries.head l.nonempty

def getLastLog (l : Log C) : Entry C := l.entries.getLast l.nonempty

/-- `rf.logs[i-rf.getFirstLog().Index]`. -/
def get? (l : Log C) (i : ℕ) : Option (Entry C) :=
  if i < l.getFirstLog.index then none else l.entries[i - l.getFirstLog.index]?

/-- `append(rf.logs, es...)`. -/
def append (l : Log C) (es : List (Entry C)) : Log C :=
  ⟨l.entries ++ es, by simp [l.nonempty]⟩

/-- A slice used as a log; the empty one panics at the next `logs[0]`. -/
def ofSlice : List (Entry C) → Option (Log C)
  | [] => none
  | e :: es => some ⟨e :: es, by simp⟩

/-- `rf.logs[:i-firstLogIndex]`. -/
def takeTo (l : Log C) (i : ℕ) : Option (Log C) :=
  ofSlice (l.entries.take (i - l.getFirstLog.index))

/-- `rf.logs[i-rf.getFirstLog().Index:]`, copied by `logCompact`. -/
def logCompact (l : Log C) (i : ℕ) : Option (Log C) :=
  if i < l.getFirstLog.index then none else ofSlice (l.entries.drop (i - l.getFirstLog.index))

/-- Overwriting the fields of `rf.logs[0]`. -/
def setFirst (l : Log C) (e : Entry C) : Log C := ⟨e :: l.entries.tail, by simp⟩

/-- The entries `rf.logs[lo-firstLogIndex+1 : hi-firstLogIndex+1]`; `none` when a bound
is negative, out of order or past the end of the log. -/
def slice (l : Log C) (lo hi : ℕ) : Option (List (Entry C)) :=
  let first := l.getFirstLog.index
  if lo + 1 < first ∨ hi < lo ∨ first + l.entries.length < hi + 1 then none
  else some ((l.entries.take (hi + 1 - first)).drop (lo + 1 - first))

end Log

end RaftLabs.Raft
