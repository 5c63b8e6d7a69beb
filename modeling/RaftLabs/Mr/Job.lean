import RaftLabs.Mr.Accounting
import RaftLabs.Mr.Equivalence

/-! A whole job: the coordinator, the workers and their files. A worker reads and writes its files
one at a time. After a timeout two workers may run the same task, so that one of them writes its
files while the other one does, or while the coordinator renames them. -/
namespace RaftLabs.Mr

open Basis

/-- The bytes of a string. -/
def goString (s : String) : GoString := s.toByteArray.data.toList

/-- What a worker runs. Each worker sorts in its own way. -/
structure App (W : Type*) where
  mapf : GoString → GoString → List KeyValue
  reducef : GoString → List GoString → GoString
  sorting : W → Sorting

/-- How far a worker has come with the task that it runs. -/
inductive Progress
  | started
  /-- `writeToFile` has written the files for the reduce tasks below `i`. -/
  | writing (intermediate : List KeyValue) (i : ℕ)
  /-- `readIntermediate` has read the files of the map tasks below `i`. -/
  | reading (lines : List GoString) (i : ℕ)
  | written
  /-- The worker has been stopped by `log.Fatalf` or by a panic. -/
  | failed
  deriving DecidableEq

/-- The lines that `readIntermediate` has read, and the next map task. -/
def Progress.read : Progress → Option (List GoString × ℕ)
  | .started => some ([], 0)
  | .reading lines i => some (lines, i)
  | _ => none

/-- The worker has nothing left to do but to report. -/
def Progress.ready (nReduce : ℕ) : Progress → Bool
  | .writing _ i => nReduce ≤ i
  | .written => true
  | _ => false

/-- The renames of `ReportTask` for an accepted task. -/
def renames (nReduce : ℕ) : Key → List (FileName × FileName)
  | (.map, m) => (List.range nReduce).map fun i => (.tmpMapOutFile m i, .finalMapOutFile m i)
  | (.reduce, i) => [(.tmpReduceOutFile i, .finalReduceOutFile i)]
  | (.done, _) => []

/-- A call of `ReportTask` that found the task in time at `time` and holds the mutex, with the
renames that it still has to do. -/
structure Report (W : Type*) where
  worker : W
  task : TaskInfo
  time : ℕ
  rest : List (FileName × FileName)

structure Job (W : Type*) where
  system : System W
  fs : FileSystem
  progress : W → Progress
  report : Option (Report W)
  /-- The coordinator has been stopped by `log.Fatalf`. -/
  crashed : Bool

inductive JobAction (W : Type*)
  | act (a : Action W)
  | generateIntermediate (w : W) (intermediate : List KeyValue)
  | writeFile (w : W)
  | readFile (w : W)
  | writeOutput (w : W)
  | beginReport (w : W)
  | rename
  | endReport

namespace Job

variable {W : Type*}

def init (files : List String) (nReduce : ℕ) (fs : FileSystem) : Job W where
  system := .init files nReduce
  fs := fs
  progress := fun _ => .started
  report := none
  crashed := false

variable [DecidableEq W]

/-- A worker starts on its task when its `AssignTask` call has filed it. -/
def started (j : Job W) : Action W → W → Progress
  | .trace w => Function.update j.progress w .started
  | _ => j.progress

/-- A step of the coordinator other than a report, which a job takes apart. -/
def act (j : Job W) (a : Action W) : Option (Job W) :=
  if j.crashed ∨ a.reports ∨ (a.locks ∧ j.report.isSome) then none
  else (j.system.step a).map fun s => { j with system := s, progress := j.started a }

def advance (j : Job W) (w : W) (p : Progress) : Job W :=
  { j with progress := Function.update j.progress w p }

/-- The call of `mapf`. Where `mapf` goes through a map, the order of its pairs is not
specified. -/
def generateIntermediate (app : App W) (j : Job W) (w : W) (intermediate : List KeyValue) :
    Option (Job W) :=
  (j.system.workers w).task.bind fun task =>
    if task.taskType = .map ∧ j.progress w = .started then
      match Mr.generateIntermediate app.mapf j.fs (goString task.filename) with
      | none => some (j.advance w .failed)
      | some kva =>
        if intermediate.Perm kva then some (j.advance w (.writing intermediate 0)) else none
    else none

/-- A round of the loop of `writeToFile`. -/
def writeFile (j : Job W) (w : W) : Option (Job W) :=
  (j.system.workers w).task.bind fun task =>
    match j.progress w with
    | .writing kva i =>
      if i < j.system.coordinator.nReduce then
        some { j.advance w (.writing kva (i + 1)) with
          fs := j.fs.write (.tmpMapOutFile task.id i)
            ((hashedkva j.system.coordinator.nReduce kva i).flatMap intermediateLine) }
      else none
    | _ => none

/-- A round of the loop of `readIntermediate`. -/
def readFile (j : Job W) (w : W) : Option (Job W) :=
  (j.system.workers w).task.bind fun task =>
    (j.progress w).read.bind fun read =>
      if task.taskType = .reduce ∧ read.2 < j.system.coordinator.nMap then
        match j.fs (.finalMapOutFile read.2 task.id) with
        | none => some (j.advance w .failed)
        | some content =>
          some (j.advance w (.reading (read.1 ++ content.splitOn newline) (read.2 + 1)))
      else none

/-- The rest of `doReduceTask`, up to the report. -/
def writeOutput (app : App W) (j : Job W) (w : W) : Option (Job W) :=
  (j.system.workers w).task.bind fun task =>
    (j.progress w).read.bind fun read =>
      if task.taskType = .reduce ∧ j.system.coordinator.nMap ≤ read.2 then
        match parseLines read.1 with
        | none => some (j.advance w .failed)
        | some kva =>
          some { j.advance w .written with
            fs := j.fs.write (.tmpReduceOutFile task.id)
              ((reduceCalls ((app.sorting w).sort kva)).flatMap (outputLine app.reducef)) }
      else none

/-- The first part of `ReportTask`. A late report is refused at once. -/
def beginReport (j : Job W) (w : W) : Option (Job W) :=
  (j.system.workers w).task.bind fun task =>
    if j.crashed = false ∧ j.report.isNone ∧ j.system.unlocked ∧
        (j.progress w).ready j.system.coordinator.nReduce then
      if j.system.coordinator.expired j.system.now task.key then
        some { j with system := j.system.reportTask w task }
      else
        some { j with
          report := some ⟨w, task, j.system.now, renames j.system.coordinator.nReduce task.key⟩ }
    else none

/-- One rename of a report. -/
def rename (j : Job W) : Option (Job W) :=
  j.report.bind fun report =>
    match report.rest with
    | [] => none
    | names :: rest =>
      match j.fs.rename names.1 names.2 with
      | none => some { j with report := none, crashed := true }
      | some fs => some { j with fs := fs, report := some { report with rest := rest } }

/-- The rest of `ReportTask`. The clock has been read before the renames. -/
def endReport (j : Job W) : Option (Job W) :=
  j.report.bind fun report =>
    if report.rest = [] then
      some { j with
        system :=
          { ({ j.system with now := report.time }).reportTask report.worker report.task with
            now := j.system.now }
        report := none }
    else none

def step (app : App W) (j : Job W) : JobAction W → Option (Job W)
  | .act a => j.act a
  | .generateIntermediate w intermediate => j.generateIntermediate app w intermediate
  | .writeFile w => j.writeFile w
  | .readFile w => j.readFile w
  | .writeOutput w => j.writeOutput app w
  | .beginReport w => j.beginReport w
  | .rename => j.rename
  | .endReport => j.endReport

/-- The task whose report the step ends, with the time of the report. A late report ends at
once. -/
def reported (j : Job W) : JobAction W → Option (ℕ × TaskInfo)
  | .beginReport w =>
    ((j.system.workers w).task.filter fun task =>
      j.system.coordinator.expired j.system.now task.key).map fun task => (j.system.now, task)
  | .endReport => j.report.map fun report => (report.time, report.task)
  | _ => none

/-- No phase is ended while a task is where the phase change does not look. -/
def EndsSettled (j : Job W) (a : JobAction W) : Prop :=
  ∀ ended ∈ j.reported a, j.system.coordinator.EndsPhase ended.1 ended.2.key → j.system.Settled

instance EndsSettled.decidable [Fintype W] (j : Job W) (a : JobAction W) :
    Decidable (EndsSettled j a) :=
  inferInstanceAs (Decidable (∀ _ ∈ _, _))

/-- A run of a job, with the files `fs` at its start. -/
structure Run (app : App W) (files : List String) (nReduce : ℕ) (fs : FileSystem)
    (r : ℕ → Job W) : Prop where
  init : r 0 = init files nReduce fs
  steps : IsRun (step app) EndsSettled r

end Job

end RaftLabs.Mr
