import RaftLabs.Basis.Transition
import Mathlib.Data.List.AList

/-! The MapReduce coordinator and its workers, with the steps in which the coordinator's
goroutines interleave. A step that needs the mutex is taken only while no timeout sweep holds
it; the sweep itself is taken entry by entry, because it may have to wait for room in the task
queue while receivers, which do not need the mutex, go on. -/
namespace RaftLabs.Mr

open Basis

/-- The strings that name task types and phases. The type `QUIT` only tells a worker to stop. -/
inductive Kind
  | map
  | reduce
  | done
  deriving DecidableEq, Repr

structure TaskInfo where
  id : ℕ
  taskType : Kind
  filename : String
  deadline : ℕ
  deriving DecidableEq, Repr

/-- The key `kind + "_" + strconv.Itoa(id)` of the trace map. -/
abbrev Key := Kind × ℕ

def TaskInfo.key (task : TaskInfo) : Key := (task.taskType, task.id)

/-- In nanoseconds. -/
def maxTaskTime : ℕ := 10 * 1000000000

structure Coordinator where
  nMap : ℕ
  nReduce : ℕ
  taskQueue : List TaskInfo
  taskTraceMap : AList fun _ : Key => TaskInfo
  phase : Kind

namespace Coordinator

/-- The capacity of the channel `taskQueue`. -/
def capacity (c : Coordinator) : ℕ := max c.nReduce c.nMap

/-- `c.taskQueue <- task`, which waits while the channel is full. -/
def send (c : Coordinator) (task : TaskInfo) : Option Coordinator :=
  if c.taskQueue.length < c.capacity then some { c with taskQueue := c.taskQueue ++ [task] }
  else none

/-- The last part of `AssignTask`: the task is filed under the phase of that moment. -/
def traceTask (c : Coordinator) (task : TaskInfo) : Coordinator :=
  if c.phase = .done then c
  else { c with taskTraceMap := c.taskTraceMap.insert (c.phase, task.id) task }

/-- `time.Now().After(c.taskTraceMap[key].Deadline)`; the deadline of a missing task is the
zero time. -/
def expired (c : Coordinator) (now : ℕ) (key : Key) : Bool :=
  ((c.taskTraceMap.lookup key).elim 0 TaskInfo.deadline) < now

/-- The queue and the trace map are empty. -/
def drained (c : Coordinator) : Bool :=
  c.taskQueue.isEmpty && c.taskTraceMap.entries.isEmpty

/-- The phase change at the end of `ReportTask`. -/
def nextPhase (c : Coordinator) : Kind :=
  if c.drained then
    match c.phase with
    | .map => .reduce
    | .reduce => .done
    | phase => phase
  else c.phase

/-- `ReportTask` at time `now`, with its reply. -/
def reportTask (c : Coordinator) (now : ℕ) (key : Key) : Coordinator × Bool :=
  let c' := if c.expired now key then c
    else { c with taskTraceMap := c.taskTraceMap.erase key }
  ({ c' with phase := c'.nextPhase }, !c.expired now key)

/-- The task that `generateReduceTasks` sends in round `i`. -/
def reduceTask (i : ℕ) : TaskInfo := ⟨i, .reduce, "", 0⟩

/-- One entry of the loop of `retriveTimeoutTasks`. The deleted key is made of the type and the
number of the task, not of the key under which the task was found. -/
def retrieve (c : Coordinator) (now : ℕ) (key : Key) : Option Coordinator :=
  match c.taskTraceMap.lookup key with
  | none => some c
  | some task =>
    if task.deadline < now then
      { c with taskTraceMap := c.taskTraceMap.erase task.key }.send task
    else some c

/-- `Done` -/
def done (c : Coordinator) : Bool := c.phase = .done

end Coordinator

/-- `MakeCoordinator` -/
def makeCoordinator (files : List String) (nReduce : ℕ) : Coordinator where
  nMap := files.length
  nReduce := nReduce
  taskQueue := files.mapIdx fun i file => ⟨i, .map, file, 0⟩
  taskTraceMap := ∅
  phase := .map

/-- Where a worker is in its loop; the first steps are those of its `AssignTask` call. -/
inductive Stage
  | idle
  | waiting
  | received (task : TaskInfo)
  | running (task : TaskInfo)
  | stopped
  deriving DecidableEq, Repr

/-- The task that the worker runs. -/
def Stage.task : Stage → Option TaskInfo
  | .running task => some task
  | _ => none

/-- The coordinator with its clock, the next index of `generateReduceTasks` once that has been
started, the entries that a running timeout sweep still has to visit, and the workers.
`accepted` records the reports that were accepted. -/
structure System (W : Type*) where
  coordinator : Coordinator
  now : ℕ
  generator : Option ℕ
  sweep : Option (List Key)
  workers : W → Stage
  accepted : List Key

inductive Action (W : Type*)
  | assignTask (w : W)
  | receive (w : W)
  | trace (w : W)
  | reportTask (w : W)
  | generate
  | beginSweep
  | visit (key : Key)
  | endSweep
  | tick (d : ℕ)

/-- The step takes the mutex and gives it back, or keeps it for a sweep. -/
def Action.locks {W : Type*} : Action W → Bool
  | .assignTask _ | .trace _ | .beginSweep => true
  | _ => false

/-- The step is a report. -/
def Action.reports {W : Type*} : Action W → Bool
  | .reportTask _ => true
  | _ => false

namespace System

variable {W : Type*}

/-- The clock is past the zero time when the coordinator starts. -/
def init (files : List String) (nReduce : ℕ) : System W where
  coordinator := makeCoordinator files nReduce
  now := 1
  generator := none
  sweep := none
  workers := fun _ => .idle
  accepted := []

/-- No timeout sweep holds the mutex. -/
def unlocked (s : System W) : Bool := s.sweep.isNone

variable [DecidableEq W]

/-- The first part of `AssignTask`. -/
def assignTask (s : System W) (w : W) : System W :=
  if s.coordinator.phase = .done then { s with workers := Function.update s.workers w .stopped }
  else { s with workers := Function.update s.workers w .waiting }

/-- `task := <-c.taskQueue`, which waits while the channel is empty. -/
def receive (s : System W) (w : W) : Option (System W) :=
  match s.coordinator.taskQueue with
  | [] => none
  | task :: rest =>
    some { s with
      coordinator := { s.coordinator with taskQueue := rest }
      workers := Function.update s.workers w
        (.received { task with deadline := s.now + maxTaskTime }) }

def trace (s : System W) (w : W) (task : TaskInfo) : System W :=
  { s with
    coordinator := s.coordinator.traceTask task
    workers := Function.update s.workers w (.running task) }

/-- The report of a worker. The change to the phase `reduce` starts `generateReduceTasks`. -/
def reportTask (s : System W) (w : W) (task : TaskInfo) : System W :=
  let result := s.coordinator.reportTask s.now task.key
  { s with
    coordinator := result.1
    generator := if s.coordinator.phase = .map ∧ result.1.phase = .reduce then some 0
      else s.generator
    workers := Function.update s.workers w .idle
    accepted := if result.2 then task.key :: s.accepted else s.accepted }

/-- One send of `generateReduceTasks`. -/
def generate (s : System W) : Option (System W) :=
  match s.generator with
  | none => none
  | some i =>
    if i < s.coordinator.nReduce then
      (s.coordinator.send (Coordinator.reduceTask i)).map fun c =>
        { s with coordinator := c, generator := some (i + 1) }
    else none

/-- The sweep reaches an entry; the order is that of the map's enumeration, which is not
specified. -/
def visit (s : System W) (key : Key) : Option (System W) :=
  match s.sweep with
  | none => none
  | some rest =>
    if key ∈ rest then
      (s.coordinator.retrieve s.now key).map fun c =>
        { s with coordinator := c, sweep := some (rest.erase key) }
    else none

/-- A sweep of `retriveTimeoutTasks` that finds the job done and nothing left ends the loop. -/
def beginSweep (s : System W) : System W :=
  if s.coordinator.done ∧ s.coordinator.drained then s
  else { s with sweep := some s.coordinator.taskTraceMap.keys }

def step (s : System W) : Action W → Option (System W)
  | .assignTask w => if s.workers w = .idle ∧ s.unlocked then some (s.assignTask w) else none
  | .receive w => if s.workers w = .waiting then s.receive w else none
  | .trace w =>
    match s.workers w with
    | .received task => if s.unlocked then some (s.trace w task) else none
    | _ => none
  | .reportTask w =>
    match s.workers w with
    | .running task => if s.unlocked then some (s.reportTask w task) else none
    | _ => none
  | .generate => s.generate
  | .beginSweep => if s.unlocked then some s.beginSweep else none
  | .visit key => s.visit key
  | .endSweep => if s.sweep = some [] then some { s with sweep := none } else none
  | .tick d => some { s with now := s.now + d }

/-- A run from `MakeCoordinator` whose steps meet the guard `P`. -/
structure Run (P : System W → Action W → Prop) (files : List String) (nReduce : ℕ)
    (r : ℕ → System W) : Prop where
  init : r 0 = init files nReduce
  steps : IsRun step P r

end System

end RaftLabs.Mr
