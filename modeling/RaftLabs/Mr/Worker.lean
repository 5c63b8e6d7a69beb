import RaftLabs.Basis.Grouping

/-! What a worker does for a map task and for a reduce task, on a file system, and the sequential
program that computes the same job. A Go string is a sequence of bytes. -/
namespace RaftLabs.Mr

open Basis

abbrev GoString := List UInt8

def newline : UInt8 := 10

def tab : UInt8 := 9

def blankByte : UInt8 := 32

structure KeyValue where
  key : GoString
  value : GoString
  deriving DecidableEq, Repr

/-- The hash function FNV-1a of package `hash/fnv`. -/
def sum32a (s : GoString) : UInt32 :=
  s.foldl (fun h b => (h ^^^ b.toUInt32) * 16777619) 2166136261

def ihash (key : GoString) : ℕ := (sum32a key &&& 0x7fffffff).toNat

/-- The files of a job. The input files are not among those that the job writes. -/
inductive FileName
  | input (name : GoString)
  | tmpMapOutFile (mapId reduceId : ℕ)
  | finalMapOutFile (mapId reduceId : ℕ)
  | tmpReduceOutFile (reduceId : ℕ)
  | finalReduceOutFile (reduceId : ℕ)
  deriving DecidableEq, Repr

abbrev FileSystem := FileName → Option GoString

namespace FileSystem

def write (fs : FileSystem) (name : FileName) (content : GoString) : FileSystem :=
  Function.update fs name (some content)

/-- `os.Rename`, which fails if there is no file of the old name. -/
def rename (fs : FileSystem) (oldname newname : FileName) : Option FileSystem :=
  (fs oldname).map fun content =>
    Function.update (Function.update fs oldname none) newname (some content)

end FileSystem

section Map
variable (mapf : GoString → GoString → List KeyValue)

def generateIntermediate (fs : FileSystem) (filename : GoString) : Option (List KeyValue) :=
  (fs (.input filename)).map (mapf filename)

/-- The map `hashedkva` of `writeToFile`. -/
def hashedkva (nReduce : ℕ) (intermediate : List KeyValue) : ℕ → List KeyValue :=
  intermediate.foldl
    (fun hashed kv =>
      let hashedIndex := ihash kv.key % nReduce
      Function.update hashed hashedIndex (hashed hashedIndex ++ [kv]))
    fun _ => []

/-- The line `"%v\t%v\n"` of an intermediate file. -/
def intermediateLine (kv : KeyValue) : GoString := kv.key ++ tab :: kv.value ++ [newline]

/-- Each file is written under a fresh name and then renamed, which is one write here. -/
def writeToFile (taskId nReduce : ℕ) (intermediate : List KeyValue) (fs : FileSystem) :
    FileSystem :=
  (List.range nReduce).foldl
    (fun fs i => fs.write (.tmpMapOutFile taskId i)
      ((hashedkva nReduce intermediate i).flatMap intermediateLine)) fs

def doMapTask (taskId : ℕ) (filename : GoString) (nReduce : ℕ) (fs : FileSystem) :
    Option FileSystem :=
  (generateIntermediate mapf fs filename).map fun intermediate =>
    writeToFile taskId nReduce intermediate fs

/-- The renames of `ReportTask` for an accepted map task. -/
def acceptMap (taskId nReduce : ℕ) (fs : FileSystem) : Option FileSystem :=
  (List.range nReduce).foldlM
    (fun fs i => fs.rename (.tmpMapOutFile taskId i) (.finalMapOutFile taskId i)) fs

/-- Map tasks, each with its number and its file, that are done and accepted one after another. -/
def mapTasks (nReduce : ℕ) (tasks : List (ℕ × GoString)) (fs : FileSystem) : Option FileSystem :=
  tasks.foldlM
    (fun fs task => (doMapTask mapf task.1 task.2 nReduce fs).bind (acceptMap task.1 nReduce)) fs

end Map

/-! `strings.TrimSpace(line) == ""`: the line is a sequence of encoded white space. -/

/-- The encodings of the characters for which `unicode.IsSpace` holds. -/
def whiteSpace : List GoString :=
  [[9], [10], [11], [12], [13], [32], [0xC2, 0x85], [0xC2, 0xA0], [0xE1, 0x9A, 0x80],
    [0xE2, 0x80, 0x80], [0xE2, 0x80, 0x81], [0xE2, 0x80, 0x82], [0xE2, 0x80, 0x83],
    [0xE2, 0x80, 0x84], [0xE2, 0x80, 0x85], [0xE2, 0x80, 0x86], [0xE2, 0x80, 0x87],
    [0xE2, 0x80, 0x88], [0xE2, 0x80, 0x89], [0xE2, 0x80, 0x8A], [0xE2, 0x80, 0xA8],
    [0xE2, 0x80, 0xA9], [0xE2, 0x80, 0xAF], [0xE2, 0x81, 0x9F], [0xE3, 0x80, 0x80]]

/-- No encoding is a prefix of another one, so at most one of the cases applies. -/
def blank : GoString → Bool
  | [] => true
  | [a] => [a] ∈ whiteSpace
  | [a, b] => [a] ∈ whiteSpace && blank [b] || [a, b] ∈ whiteSpace
  | a :: b :: c :: s =>
    [a] ∈ whiteSpace && blank (b :: c :: s) || [a, b] ∈ whiteSpace && blank (c :: s) ||
      [a, b, c] ∈ whiteSpace && blank s

/-- `sort.Sort(ByKey(kva))`, of which only the specification is known. -/
structure Sorting where
  sort : List KeyValue → List KeyValue
  perm : ∀ kva, (sort kva).Perm kva
  sorted : ∀ kva, (sort kva).Pairwise fun a b => ¬ b.key < a.key

/-- The loop over the sorted pairs: the calls of `reducef`, each with a key and its values. -/
def reduceCalls (kva : List KeyValue) : List (GoString × List GoString) :=
  (runs KeyValue.key kva).map fun group => (group.1, group.2.map KeyValue.value)

section Reduce
variable (S : Sorting) (reducef : GoString → List GoString → GoString)

/-- The line `"%v %v\n"` of an output file. -/
def outputLine (call : GoString × List GoString) : GoString :=
  call.1 ++ blankByte :: reducef call.1 call.2 ++ [newline]

def readIntermediate (taskId nMap : ℕ) (fs : FileSystem) : Option (List GoString) :=
  (List.range nMap).foldlM
    (fun lines i => (fs (.finalMapOutFile i taskId)).map fun content =>
      lines ++ content.splitOn newline) []

/-- The loop that reads the pairs from the lines; `sp[1]` is out of range if there is no tab. -/
def parseLines (lines : List GoString) : Option (List KeyValue) :=
  lines.foldlM
    (fun kva line =>
      if blank line then some kva
      else
        match line.splitOn tab with
        | key :: value :: _ => some (kva ++ [⟨key, value⟩])
        | _ => none) []

/-- The calls of `reducef` in a reduce task. -/
def taskCalls (taskId nMap : ℕ) (fs : FileSystem) : Option (List (GoString × List GoString)) :=
  (readIntermediate taskId nMap fs).bind fun lines =>
    (parseLines lines).map fun kva => reduceCalls (S.sort kva)

def doReduceTask (taskId nMap : ℕ) (fs : FileSystem) : Option FileSystem :=
  (taskCalls S taskId nMap fs).map fun calls =>
    fs.write (.tmpReduceOutFile taskId) (calls.flatMap (outputLine reducef))

/-- The rename of `ReportTask` for an accepted reduce task. -/
def acceptReduce (taskId : ℕ) (fs : FileSystem) : Option FileSystem :=
  fs.rename (.tmpReduceOutFile taskId) (.finalReduceOutFile taskId)

/-- Reduce tasks that are done and accepted one after another. -/
def reduceTasks (nMap : ℕ) (tasks : List ℕ) (fs : FileSystem) : Option FileSystem :=
  tasks.foldlM (fun fs taskId => (doReduceTask S reducef taskId nMap fs).bind (acceptReduce taskId))
    fs

end Reduce

/-- The program `mrsequential`: the contents of its file `mr-out-0`. It stops with a usage message
if there is no input file. -/
def mrsequential (S : Sorting) (mapf : GoString → GoString → List KeyValue)
    (reducef : GoString → List GoString → GoString) (files : List GoString) (fs : FileSystem) :
    Option GoString :=
  if files = [] then none
  else
    (files.foldlM
      (fun intermediate filename => (fs (.input filename)).map fun content =>
        intermediate ++ mapf filename content) []).map fun intermediate =>
          (reduceCalls (S.sort intermediate)).flatMap (outputLine reducef)

/-- The lines of a text; what follows the last newline is a line unless it is empty. -/
def textLines (text : GoString) : List GoString :=
  let pieces := text.splitOn newline
  if pieces.getLast? = some [] then pieces.dropLast else pieces

end RaftLabs.Mr
