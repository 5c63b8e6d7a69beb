import RaftLabs.Basis.DancingLinks
import RaftLabs.Basis.DepthFirst
import RaftLabs.Basis.Linearizability
import RaftLabs.Porcupine.Bitset

/-! The linearizability checker of package `porcupine`: histories as lists of entries, the linked
list of entries, and the search of `checkSingle`, which takes out the entries of an operation
when it linearizes it and puts them back when it backtracks. A value of type `interface{}` is an
input of type `ι` or an output of type `ο`. -/
namespace RaftLabs.Porcupine
open Basis

/-- The client of an operation is for drawing only. -/
abbrev Operation (ι ο : Type) := Basis.Operation ι ο ℤ

inductive EventKind where
  | callEvent | returnEvent
  deriving DecidableEq, Repr

/-- A call has an input and a return has an output, so that the value tells the kind. Ids are of
type `int` before `renumber` and natural numbers after it. -/
structure Event (ι ο κ : Type) where
  value : ι ⊕ ο
  id : κ

def Event.kind {ι ο κ : Type} (e : Event ι ο κ) : EventKind :=
  match e.value with
  | .inl _ => .callEvent
  | .inr _ => .returnEvent

/-- A model whose functions may be missing. -/
structure Model (σ ι ο : Type) where
  partition : Option (List (Operation ι ο) → List (List (Operation ι ο))) := none
  partitionEvent : Option (List (Event ι ο ℤ) → List (List (Event ι ο ℤ))) := none
  init : σ
  step : σ → ι → ο → Bool × σ
  equal : Option (σ → σ → Bool) := none

/-- A model with all functions. -/
structure Filled (σ ι ο : Type) where
  partition : List (Operation ι ο) → List (List (Operation ι ο))
  partitionEvent : List (Event ι ο ℤ) → List (List (Event ι ο ℤ))
  init : σ
  step : σ → ι → ο → Bool × σ
  equal : σ → σ → Bool

variable {σ ι ο : Type}

def noPartition (history : List (Operation ι ο)) : List (List (Operation ι ο)) := [history]

def noPartitionEvent (history : List (Event ι ο ℤ)) : List (List (Event ι ο ℤ)) := [history]

def shallowEqual [DecidableEq σ] (state1 state2 : σ) : Bool := state1 = state2

def fillDefault [DecidableEq σ] (model : Model σ ι ο) : Filled σ ι ο where
  partition := model.partition.getD noPartition
  partitionEvent := model.partitionEvent.getD noPartitionEvent
  init := model.init
  step := model.step
  equal := model.equal.getD shallowEqual

/-- The sequential object of a model. -/
def Filled.spec (model : Filled σ ι ο) : SeqSpec σ ι ο where
  init := model.init
  step s input output :=
    let (ok, newState) := model.step s input output
    if ok then some newState else none

inductive EntryKind where
  | callEntry | returnEntry
  deriving DecidableEq, Repr

structure Entry (ι ο : Type) where
  value : ι ⊕ ο
  id : ℕ
  time : ℤ

def Entry.kind (e : Entry ι ο) : EntryKind :=
  match e.value with
  | .inl _ => .callEntry
  | .inr _ => .returnEntry

/-- At equal times calls come before returns. -/
def Entry.less (a b : Entry ι ο) : Bool :=
  if a.time ≠ b.time then a.time < b.time
  else a.kind = .callEntry ∧ b.kind = .returnEntry

/-- `sort.Sort(byTime(entries))`, of which only the specification is known. -/
structure EntrySorting (ι ο : Type) where
  sort : List (Entry ι ο) → List (Entry ι ο)
  perm : ∀ entries, (sort entries).Perm entries
  sorted : ∀ entries, (sort entries).Pairwise fun a b => ¬ b.less a

/-- The entries of a history before they are sorted; the position of an operation is its id. -/
def pairEntries (history : List (Operation ι ο)) : List (Entry ι ο) :=
  history.zipIdx.flatMap fun (elem, id) =>
    [⟨.inl elem.input, id, elem.call⟩, ⟨.inr elem.output, id, elem.ret⟩]

def makeEntries (S : EntrySorting ι ο) (history : List (Operation ι ο)) : List (Entry ι ο) :=
  S.sort (pairEntries history)

/-- The loop of `renumber`: the numbers given so far, the next number and the result. -/
def renumberLoop {κ : Type} [DecidableEq κ] (m : κ → Option ℕ) (id : ℕ) :
    List (Event ι ο κ) → List (Event ι ο ℕ)
  | [] => []
  | v :: events =>
    match m v.id with
    | some r => ⟨v.value, r⟩ :: renumberLoop m id events
    | none => ⟨v.value, id⟩ :: renumberLoop (Function.update m v.id (some id)) (id + 1) events

def renumber {κ : Type} [DecidableEq κ] (events : List (Event ι ο κ)) : List (Event ι ο ℕ) :=
  renumberLoop (fun _ => none) 0 events

/-- The index is used as the time. -/
def convertEntries (events : List (Event ι ο ℕ)) : List (Entry ι ο) :=
  events.zipIdx.map fun (elem, i) => ⟨elem.value, elem.id, i⟩

/-! The linked list. A node is named by the position of its entry. The head, which is a node
without entry, is named by the number of entries. -/

/-- What stays the same in a node; `matching` is the return of a call. -/
structure Node (ι ο : Type) where
  value : ι ⊕ ο
  matching : Option ℕ
  id : ℕ

def insertBefore (links : Links ℕ) (n : ℕ) (mark : Option ℕ) : Links ℕ :=
  match mark with
  | none => links
  | some m =>
    let beforeMark := links.prev m
    let links := (links.setPrev m (some n)).setNext n (some m)
    match beforeMark with
    | none => links
    | some b => (links.setPrev n (some b)).setNext b (some n)

/-- The state of the loop of `makeLinkedEntries`, which runs from the last entry to the first. -/
structure LinkedEntries (ι ο : Type) where
  nodes : List (Node ι ο)
  returns : ℕ → Option ℕ
  links : Links ℕ
  root : Option ℕ

def linkEntry (elem : Entry ι ο) (i : ℕ) (acc : LinkedEntries ι ο) : LinkedEntries ι ο :=
  let links := insertBefore acc.links i acc.root
  if elem.kind = .returnEntry then
    ⟨⟨elem.value, none, elem.id⟩ :: acc.nodes, Function.update acc.returns elem.id (some i), links,
      some i⟩
  else ⟨⟨elem.value, acc.returns elem.id, elem.id⟩ :: acc.nodes, acc.returns, links, some i⟩

def makeLinkedEntries (entries : List (Entry ι ο)) : LinkedEntries ι ο :=
  entries.zipIdx.foldr (fun e acc => linkEntry e.1 e.2 acc)
    ⟨[], fun _ => none, ⟨fun _ => none, fun _ => none⟩, none⟩

/-- `length`, for a list that has no more than `fuel` nodes. -/
def length (links : Links ℕ) : ℕ → Option ℕ → ℕ
  | 0, _ => 0
  | _, none => 0
  | fuel + 1, some n => length links fuel (links.next n) + 1

structure CacheEntry (σ : Type) where
  linearized : Bitset
  state : σ

abbrev Cache (σ : Type) := UInt64 → List (CacheEntry σ)

def cacheContains (model : Filled σ ι ο) (cache : Cache σ) (entry : CacheEntry σ) : Bool :=
  (cache entry.linearized.hash).any fun elem =>
    entry.linearized.equals elem.linearized && model.equal entry.state elem.state

/-- It fails on a missing neighbour. -/
def lift (links : Links ℕ) (entry matching : ℕ) : Option (Links ℕ) := do
  let before ← links.prev entry
  let links := links.setNext before (links.next entry)
  let after ← links.next entry
  let links := links.setPrev after (links.prev entry)
  let before ← links.prev matching
  let links := links.setNext before (links.next matching)
  match links.next matching with
  | some after => some (links.setPrev after (links.prev matching))
  | none => some links

def unlift (links : Links ℕ) (entry matching : ℕ) : Option (Links ℕ) := do
  let before ← links.prev matching
  let links := links.setNext before (some matching)
  let links := match links.next matching with
    | some after => links.setPrev after (some matching)
    | none => links
  let before ← links.prev entry
  let links := links.setNext before (some entry)
  let after ← links.next entry
  some (links.setPrev after (some entry))

/-- The longest partial linearization found for each operation. -/
abbrev Longest := ℕ → Option (List ℕ)

/-- The variables of the loop of `checkSingle`. A call is kept with the state before it. -/
structure Search (σ : Type) where
  links : Links ℕ
  entry : Option ℕ
  state : σ
  linearized : Bitset
  cache : Cache σ
  calls : List (ℕ × σ)
  longest : Longest

section CheckSingle
variable (model : Filled σ ι ο) (nodes : List (Node ι ο)) (head n : ℕ)

def callIds (calls : List (ℕ × σ)) : Option (List ℕ) :=
  calls.mapM fun v => (nodes[v.1]?).map Node.id

/-- The update of `longest`, a slice of length `n`, before a step back. -/
def recordPartial (calls : List (ℕ × σ)) (longest : Longest) : Option Longest := do
  let seq ← callIds nodes calls
  seq.foldlM
    (fun longest id =>
      if id < n then
        if (longest id).elim true fun old => old.length < calls.length then
          some (Function.update longest id (some seq))
        else some longest
      else none) longest

/-- One round of the loop: another state, or the result. It fails where the code would
dereference a nil pointer, use an index out of range, or give the model a value that is not an
input or an output. -/
def round (computePartial killed : Bool) (s : Search σ) : Option (Search σ ⊕ (Bool × Longest)) :=
  match s.links.next head with
  | none => do
    let seq ← callIds nodes s.calls
    some (.inr (true, fun i => if i < n then some seq else s.longest i))
  | some _ =>
    if killed then some (.inr (false, s.longest))
    else do
      let entry ← s.entry
      let node ← nodes[entry]?
      match node.matching with
      | some m =>
        let matching ← nodes[m]?
        let input ← node.value.getLeft?
        let output ← matching.value.getRight?
        let (ok, newState) := model.step s.state input output
        if ok then
          let newLinearized ← s.linearized.set node.id
          let newCacheEntry : CacheEntry σ := ⟨newLinearized, newState⟩
          if !cacheContains model s.cache newCacheEntry then
            let hash := newLinearized.hash
            let links ← lift s.links entry m
            some (.inl
              { links
                entry := links.next head
                state := newState
                linearized := newLinearized
                cache := Function.update s.cache hash (s.cache hash ++ [newCacheEntry])
                calls := s.calls ++ [(entry, s.state)]
                longest := s.longest })
          else some (.inl { s with entry := s.links.next entry })
        else some (.inl { s with entry := s.links.next entry })
      | none =>
        match s.calls.getLast? with
        | none => some (.inr (false, s.longest))
        | some (entry, state) =>
          let longest ← (if computePartial then recordPartial nodes n s.calls s.longest
            else some s.longest)
          let node ← nodes[entry]?
          let linearized ← s.linearized.clear node.id
          let links ← unlift s.links entry (← node.matching)
          some (.inl
            { links
              entry := links.next entry
              state
              linearized
              cache := s.cache
              calls := s.calls.dropLast
              longest })

/-- The loop; `kill` says what the rounds read from the shared flag. -/
def loop (computePartial : Bool) (kill : ℕ → Bool) : ℕ → ℕ → Search σ → Option (Bool × Longest)
  | 0, _, _ => none
  | fuel + 1, k, s => do
    match ← round model nodes head n computePartial (kill k) s with
    | .inr result => some result
    | .inl s => loop computePartial kill fuel (k + 1) s

end CheckSingle

/-- The variables before the loop. -/
def startSearch (model : Filled σ ι ο) (history : List (Entry ι ο)) : Search σ :=
  let linked := makeLinkedEntries history
  let n := length linked.links history.length linked.root / 2
  { links := insertBefore linked.links history.length linked.root
    entry := linked.root
    state := model.init
    linearized := newBitset n
    cache := fun _ => []
    calls := []
    longest := fun _ => none }

/-- The loop may run for ever in general; the bound on its rounds is shown to be enough. -/
def checkSingle (model : Filled σ ι ο) (history : List (Entry ι ο)) (computePartial : Bool)
    (kill : ℕ → Bool) : Option (Bool × Longest) :=
  let linked := makeLinkedEntries history
  let n := length linked.links history.length linked.root / 2
  loop model linked.nodes history.length n computePartial kill (DepthFirst.Problem.rounds n n) 0
    (startSearch model history)

end RaftLabs.Porcupine
