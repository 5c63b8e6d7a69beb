import RaftLabs.Mr.Custody

/-! The files of a job. A file that a worker has written stays there, with contents of the right
form, until a report of its task renames it, whoever makes that report; so no rename fails, no
reduce task misses a file, and the output of a job that is done is that of the sequential program.
The order of the pairs may differ from one run of a task to another, and the files of one map task
may come from several workers. -/
namespace RaftLabs.Mr

open Basis

/-- What a job has to do. -/
structure Workload (W : Type*) extends App W where
  files : List String
  contents : GoString → GoString
  nReduce : ℕ
  pos : 1 ≤ nReduce
  clean : ∀ name ∈ files.map goString, ∀ kv ∈ mapf name (contents name), kv.Clean

namespace Workload

variable {W : Type*} (wl : Workload W)

/-- The pairs are those of map task `m`, in some order. -/
def Emits (m : ℕ) (kva : List KeyValue) : Prop :=
  ∃ name, wl.files[m]? = some name ∧
    kva.Perm (wl.mapf (goString name) (wl.contents (goString name)))

def mapText (kva : List KeyValue) (i : ℕ) : GoString :=
  (hashedkva wl.nReduce kva i).flatMap intermediateLine

/-- The pairs of reduce task `i`. -/
def pairs (i : ℕ) : List KeyValue :=
  bucket wl.nReduce (emitted wl.mapf wl.contents (wl.files.map goString)) i

/-- The text can be in the file. -/
def Fits : FileName → GoString → Prop
  | .input _, _ => True
  | .tmpMapOutFile m i, text => ∃ kva, wl.Emits m kva ∧ text = wl.mapText kva i
  | .finalMapOutFile m i, text => ∃ kva, wl.Emits m kva ∧ text = wl.mapText kva i
  | .tmpReduceOutFile i, text => ∃ (S : Sorting) (kva : List KeyValue), kva.Perm (wl.pairs i) ∧
      text = (reduceCalls (S.sort kva)).flatMap (outputLine wl.reducef)
  | .finalReduceOutFile i, text => ∃ (S : Sorting) (kva : List KeyValue), kva.Perm (wl.pairs i) ∧
      text = (reduceCalls (S.sort kva)).flatMap (outputLine wl.reducef)

def Holds (fs : FileSystem) (name : FileName) : Prop :=
  ∃ text, fs name = some text ∧ wl.Fits name text

end Workload

/-! The renames. -/

section Renames
variable {n : ℕ} {key key' : Key} {p q : FileName × FileName}

theorem mem_renames : p ∈ renames n key ↔
    (∃ m, ∃ i < n, key = (.map, m) ∧ p = (.tmpMapOutFile m i, .finalMapOutFile m i)) ∨
      ∃ i, key = (.reduce, i) ∧ p = (.tmpReduceOutFile i, .finalReduceOutFile i) := by
  obtain ⟨kind, k⟩ := key
  cases kind with
  | map =>
    simp only [renames, List.mem_map, List.mem_range]
    constructor
    · rintro ⟨i, hi, rfl⟩
      exact Or.inl ⟨k, i, hi, rfl, rfl⟩
    · rintro (⟨m, i, hi, heq, rfl⟩ | ⟨i, heq, -⟩)
      · cases heq
        exact ⟨i, hi, rfl⟩
      · cases heq
  | reduce =>
    simp only [renames, List.mem_singleton]
    constructor
    · rintro rfl
      exact Or.inr ⟨k, rfl, rfl⟩
    · rintro (⟨m, i, hi, heq, -⟩ | ⟨i, heq, rfl⟩)
      · cases heq
      · cases heq
        rfl
  | done => simp [renames]

/-- A temporary file belongs to one rename of one task. -/
theorem renames_inj (hp : p ∈ renames n key) (hq : q ∈ renames n key') (h : p.1 = q.1) :
    p = q ∧ key = key' := by
  rcases mem_renames.mp hp with ⟨m, i, -, rfl, rfl⟩ | ⟨i, rfl, rfl⟩
  all_goals
    rcases mem_renames.mp hq with ⟨m', i', -, rfl, rfl⟩ | ⟨i', rfl, rfl⟩
    all_goals
      cases h
  · exact ⟨rfl, rfl⟩
  · exact ⟨rfl, rfl⟩

/-- A final file is not a temporary one. -/
theorem renames_ne (hp : p ∈ renames n key) (hq : q ∈ renames n key') : p.2 ≠ q.1 := by
  rcases mem_renames.mp hp with ⟨m, i, -, rfl, rfl⟩ | ⟨i, rfl, rfl⟩
  all_goals
    rcases mem_renames.mp hq with ⟨m', i', -, rfl, rfl⟩ | ⟨i', rfl, rfl⟩
    all_goals
      intro h
      cases h

theorem renames_nodup : (renames n key).Nodup := by
  obtain ⟨kind, k⟩ := key
  cases kind with
  | map =>
    refine List.nodup_range.map fun i j hij => ?_
    cases hij
    rfl
  | reduce => exact List.nodup_singleton _
  | done => exact List.nodup_nil

end Renames

namespace Workload

variable {W : Type*} {wl : Workload W} {fs fs' : FileSystem} {name other : FileName}
  {text : GoString} {n : ℕ} {key : Key} {p : FileName × FileName}

theorem holds_write (ht : wl.Fits name text) : wl.Holds (fs.write name text) name :=
  ⟨text, Function.update_self .., ht⟩

theorem Holds.write (h : wl.Holds fs other) (ht : wl.Fits name text) :
    wl.Holds (fs.write name text) other := by
  by_cases hne : other = name
  · subst hne
    exact holds_write ht
  · obtain ⟨old, hold, hfits⟩ := h
    exact ⟨old, (Function.update_of_ne hne ..).trans hold, hfits⟩

/-- A rename succeeds if the file is there. It takes only that file away. -/
theorem Holds.rename (h : wl.Holds fs p.1) (hp : p ∈ renames n key) :
    ∃ fs', fs.rename p.1 p.2 = some fs' ∧ wl.Holds fs' p.2 ∧
      (∀ other, other ≠ p.1 → wl.Holds fs other → wl.Holds fs' other) ∧
      ∀ input, fs' (.input input) = fs (.input input) := by
  obtain ⟨text, htext, hfits⟩ := h
  have hfits' : wl.Fits p.2 text := by
    rcases mem_renames.mp hp with ⟨m, i, -, -, rfl⟩ | ⟨i, -, rfl⟩ <;> exact hfits
  have hself : wl.Holds (Function.update (Function.update fs p.1 none) p.2 (some text)) p.2 :=
    ⟨text, Function.update_self .., hfits'⟩
  refine ⟨_, FileSystem.rename_eq_some htext, hself, fun other hne hother => ?_, fun input => ?_⟩
  · by_cases hnew : other = p.2
    · rwa [hnew]
    · obtain ⟨old, hold, hold'⟩ := hother
      refine ⟨old, ?_, hold'⟩
      rw [Function.update_of_ne hnew, Function.update_of_ne hne, hold]
  · rcases mem_renames.mp hp with ⟨m, i, -, -, rfl⟩ | ⟨i, -, rfl⟩
    · rw [Function.update_of_ne (by simp), Function.update_of_ne (by simp)]
    · rw [Function.update_of_ne (by simp), Function.update_of_ne (by simp)]

/-- A reduce task that has read a file of every map task has the pairs of its bucket. -/
theorem parse_texts {i : ℕ} (hi : i < wl.nReduce) {texts : ℕ → GoString}
    (htexts : ∀ m < wl.files.length, wl.Fits (.finalMapOutFile m i) (texts m)) :
    ∃ kva, parseLines ((List.range wl.files.length).flatMap fun m => (texts m).splitOn newline) =
      some kva ∧ kva.Perm (wl.pairs i) := by
  have hex : ∀ m, ∃ kva, m < wl.files.length → wl.Emits m kva ∧ texts m = wl.mapText kva i := by
    intro m
    by_cases hm : m < wl.files.length
    · obtain ⟨kva, hkva⟩ := htexts m hm
      exact ⟨kva, fun _ => hkva⟩
    · exact ⟨[], fun h => absurd h hm⟩
  choose kvas hkvas using hex
  have hfinal : ∀ m < wl.files.length,
      MapFinal (finalFiles wl.nReduce kvas) wl.nReduce m (kvas m) :=
    fun m _ => finalFiles_mapFinal wl.nReduce m kvas
  have hclean : ∀ m < wl.files.length, ∀ kv ∈ kvas m, kv.Clean := by
    intro m hm kv hkv
    obtain ⟨name, hname, hperm⟩ := (hkvas m hm).1
    exact wl.clean _ (List.mem_map_of_mem (List.mem_of_getElem? hname)) kv (hperm.mem_iff.mp hkv)
  have hread := readPairs_of_clean hfinal hi hclean
  rw [readPairs, readIntermediate_eq hfinal hi, Option.bind_some] at hread
  have hperm : ((List.range wl.files.length).flatMap kvas).Perm
      (emitted wl.mapf wl.contents (wl.files.map goString)) := by
    have hemitted := range_flatMap_getElem? (fun name => wl.mapf name (wl.contents name))
      (wl.files.map goString)
    rw [emitted, ← hemitted, List.length_map]
    refine List.Perm.flatMap_left _ fun m hm => ?_
    obtain ⟨name, hname, hperm⟩ := (hkvas m (List.mem_range.mp hm)).1
    simpa [hname] using hperm
  refine ⟨_, ?_, hperm.filter _⟩
  rw [← bucket, ← hread]
  refine congrArg parseLines (List.flatMap_congr fun m hm => ?_)
  rw [(hkvas m (List.mem_range.mp hm)).2]
  rfl

end Workload

namespace Job

variable {W : Type*} (wl : Workload W)

/-- The file of the rename is there, or the rename has been done. -/
def Safe (j : Job W) (key : Key) (p : FileName × FileName) : Prop :=
  wl.Holds j.fs p.1 ∨ key ∈ j.system.accepted ∨
    ∃ report ∈ j.report, report.task.key = key ∧ p ∉ report.rest

/-- The state of a worker that runs a task. -/
inductive Works (j : Job W) (task : TaskInfo) : Progress → Prop
  | started : Works j task .started
  | writing {kva : List KeyValue} {i : ℕ} (htype : task.taskType = .map)
      (hkva : wl.Emits task.id kva) (hi : i ≤ wl.nReduce) (hsafe : ∀ k < i, j.Safe wl task.key
        (.tmpMapOutFile task.id k, .finalMapOutFile task.id k)) :
      Works j task (.writing kva i)
  | reading {lines : List GoString} {i : ℕ} (hi : i ≤ wl.files.length) (texts : ℕ → GoString)
      (htexts : ∀ m < i, wl.Fits (.finalMapOutFile m task.id) (texts m))
      (hlines : lines = (List.range i).flatMap fun m => (texts m).splitOn newline) :
      Works j task (.reading lines i)
  | written (htype : task.taskType = .reduce)
      (hsafe : j.Safe wl task.key (.tmpReduceOutFile task.id, .finalReduceOutFile task.id)) :
      Works j task .written

/-- The state of a report that is being made. -/
structure Reports (j : Job W) (report : Report W) : Prop where
  running : j.system.workers report.worker = .running report.task
  unlocked : j.system.unlocked
  time : 0 < report.time
  inTime : j.system.coordinator.expired report.time report.task.key = false
  done : ∃ before, renames wl.nReduce report.task.key = before ++ report.rest ∧
    ∀ p ∈ before, wl.Holds j.fs p.2
  rest : ∀ p ∈ report.rest, wl.Holds j.fs p.1

structure Inv (fs : FileSystem) (j : Job W) : Prop where
  steady : j.system.Steady wl.files wl.nReduce
  alive : j.crashed = false
  inputs : ∀ name, j.fs (.input name) = fs (.input name)
  accepted : ∀ key ∈ j.system.accepted, ∀ p ∈ renames wl.nReduce key, wl.Holds j.fs p.2
  works : ∀ w task, j.system.workers w = .running task → j.Works wl task (j.progress w)
  unfailed : ∀ w, j.progress w ≠ .failed
  report : ∀ report ∈ j.report, j.Reports wl report

variable {wl} {fs : FileSystem} {j j' : Job W} {w : W} {task : TaskInfo} {p : Progress}

theorem Works.mono (h : j.Works wl task p)
    (hsafe : ∀ q ∈ renames wl.nReduce task.key, j.Safe wl task.key q → j'.Safe wl task.key q) :
    j'.Works wl task p := by
  cases h with
  | started => exact .started
  | writing htype hkva hi hsafe' =>
    refine .writing htype hkva hi fun k hk => hsafe _ ?_ (hsafe' k hk)
    exact mem_renames.mpr (Or.inl ⟨task.id, k, hk.trans_le hi, Prod.ext htype rfl, rfl⟩)
  | reading hi texts htexts hlines => exact .reading hi texts htexts hlines
  | written htype hsafe' =>
    refine .written htype (hsafe _ ?_ hsafe')
    exact mem_renames.mpr (Or.inr ⟨task.id, Prod.ext htype rfl, rfl⟩)

/-- A worker that is ready to report has written all its files. -/
theorem Works.safe_of_ready (h : j.Works wl task p) (hready : p.ready wl.nReduce) :
    ∀ q ∈ renames wl.nReduce task.key, j.Safe wl task.key q := by
  intro q hq
  cases h with
  | started => cases hready
  | writing htype hkva hi hsafe =>
    have hle := of_decide_eq_true hready
    rcases mem_renames.mp hq with ⟨m, k, hk, hkey, rfl⟩ | ⟨k, hkey, -⟩
    · obtain rfl : task.id = m := congrArg Prod.snd hkey
      exact hsafe k (hk.trans_le hle)
    · cases htype.symm.trans (congrArg Prod.fst hkey)
  | reading => cases hready
  | written htype hsafe =>
    rcases mem_renames.mp hq with ⟨m, k, hk, hkey, rfl⟩ | ⟨k, hkey, rfl⟩
    · cases htype.symm.trans (congrArg Prod.fst hkey)
    · obtain rfl : task.id = k := congrArg Prod.snd hkey
      exact hsafe

/-- What a reduce task has read so far. -/
theorem Works.texts (h : j.Works wl task p) {lines : List GoString} {i : ℕ}
    (hread : p.read = some (lines, i)) : i ≤ wl.files.length ∧ ∃ texts : ℕ → GoString,
      (∀ m < i, wl.Fits (.finalMapOutFile m task.id) (texts m)) ∧
        lines = (List.range i).flatMap fun m => (texts m).splitOn newline := by
  cases h with
  | started =>
    cases hread
    exact ⟨Nat.zero_le _, fun _ => [], by simp, rfl⟩
  | reading hi texts htexts hlines =>
    cases hread
    exact ⟨hi, texts, htexts, hlines⟩
  | writing => cases hread
  | written => cases hread

namespace Inv

/-- After the map phase all files of the map tasks are there. -/
theorem holds_final (h : j.Inv wl fs) (hgen : j.system.generator.isSome) {m i : ℕ}
    (hm : m < wl.files.length) (hi : i < wl.nReduce) :
    wl.Holds j.fs (.finalMapOutFile m i) := by
  have hphase : j.system.coordinator.phase ≠ .map := fun hmap => by
    rw [h.steady.order.generator.mp hmap] at hgen
    cases hgen
  have hacc : (.map, m) ∈ j.system.accepted := by
    refine h.steady.maps.past ?_ m hm
    cases hp : j.system.coordinator.phase with
    | map => exact absurd hp hphase
    | reduce => rfl
    | done => rfl
  exact h.accepted _ hacc _ (mem_renames.mpr (Or.inl ⟨m, i, hi, rfl, rfl⟩))

theorem reduce_running (h : j.Inv wl fs) (hw : j.system.workers w = .running task)
    (htype : task.taskType = .reduce) : task.id < wl.nReduce ∧ j.system.generator.isSome := by
  cases h.steady.running w task hw with
  | map hmap => cases htype.symm.trans hmap
  | reduce _ hlt hgen => exact ⟨hlt.trans_eq h.steady.nReduce, hgen⟩

variable [DecidableEq W]

/-- A worker goes on, and may write a temporary file. -/
theorem write (h : j.Inv wl fs) {fs' : FileSystem} (hp : p ≠ .failed)
    (hinput : ∀ name, fs' (.input name) = j.fs (.input name))
    (hholds : ∀ name, wl.Holds j.fs name → wl.Holds fs' name)
    (hw : ∀ task, j.system.workers w = .running task →
      Works wl { j.advance w p with fs := fs' } task p) :
    Inv wl fs { j.advance w p with fs := fs' } := by
  refine ⟨h.steady, h.alive, fun name => (hinput name).trans (h.inputs name),
    fun key hkey q hq => hholds _ (h.accepted key hkey q hq), fun v task hv => ?_, fun v => ?_,
    fun report hreport => ?_⟩
  · by_cases hvw : v = w
    · subst hvw
      have hself : (j.advance v p).progress v = p := Function.update_self ..
      exact hself.symm ▸ hw task hv
    · have hother : (j.advance w p).progress v = j.progress v := Function.update_of_ne hvw ..
      change Works wl _ task ((j.advance w p).progress v)
      rw [hother]
      exact (h.works v task hv).mono fun q _ hsafe => hsafe.imp_left (hholds q.1)
  · change Function.update j.progress w p v ≠ _
    by_cases hvw : v = w
    · subst hvw
      rwa [Function.update_self]
    · rw [Function.update_of_ne hvw]
      exact h.unfailed v
  · have hold := h.report report hreport
    obtain ⟨before, hsplit, hbefore⟩ := hold.done
    exact ⟨hold.running, hold.unlocked, hold.time, hold.inTime,
      ⟨before, hsplit, fun q hq => hholds _ (hbefore q hq)⟩,
      fun q hq => hholds _ (hold.rest q hq)⟩

/-- A worker goes on without touching a file. -/
theorem advance (h : j.Inv wl fs) (hp : p ≠ .failed)
    (hw : ∀ task, j.system.workers w = .running task → j.Works wl task p) :
    (j.advance w p).Inv wl fs :=
  h.write hp (fun _ => rfl) (fun _ hold => hold) fun task hrun =>
    (hw task hrun).mono fun _ _ hsafe => hsafe

omit [DecidableEq W] in
theorem of_task {stage : Stage} (h : stage.task = some task) : stage = .running task := by
  cases stage with
  | running other => exact congrArg Stage.running (Option.some.inj h)
  | _ => cases h

theorem generateIntermediate {intermediate : List KeyValue} (h : j.Inv wl fs)
    (hin : ∀ name ∈ wl.files, fs (.input (goString name)) = some (wl.contents (goString name)))
    (hs : j.generateIntermediate wl.toApp w intermediate = some j') : j'.Inv wl fs := by
  obtain ⟨task, htask, hs⟩ := Option.bind_eq_some_iff.mp hs
  have hw := of_task htask
  split_ifs at hs with hguard
  cases h.steady.running w task hw with
  | reduce hreduce => cases hguard.1.symm.trans hreduce
  | map htype hname =>
    have hread : Mr.generateIntermediate wl.mapf j.fs (goString task.filename) =
        some (wl.mapf (goString task.filename) (wl.contents (goString task.filename))) := by
      rw [Mr.generateIntermediate, h.inputs, hin _ (List.mem_of_getElem? hname)]
      rfl
    rw [hread] at hs
    obtain ⟨hperm, rfl⟩ := of_guarded hs
    refine h.advance (by simp) fun other hother => ?_
    obtain rfl := Stage.running.inj (hw.symm.trans hother)
    exact .writing htype ⟨_, hname, hperm⟩ (Nat.zero_le _) (by simp)

theorem writeFile (h : j.Inv wl fs) (hs : j.writeFile w = some j') : j'.Inv wl fs := by
  obtain ⟨task, htask, hs⟩ := Option.bind_eq_some_iff.mp hs
  have hw := of_task htask
  have hworks := h.works w task hw
  cases hp : j.progress w with
  | writing kva i =>
    rw [hp] at hs hworks
    obtain ⟨hi, rfl⟩ := of_guarded hs
    rw [h.steady.nReduce] at hi
    cases hworks with
    | writing htype hkva hle hsafe =>
      have hfits : wl.Fits (.tmpMapOutFile task.id i)
          ((hashedkva j.system.coordinator.nReduce kva i).flatMap intermediateLine) := by
        rw [h.steady.nReduce]
        exact ⟨kva, hkva, rfl⟩
      refine h.write (by simp) (fun name => Function.update_of_ne (by simp) ..)
        (fun name hold => hold.write hfits) fun other hother => ?_
      obtain rfl := Stage.running.inj (hw.symm.trans hother)
      refine .writing htype hkva hi fun k hk => ?_
      rcases Nat.lt_succ_iff_lt_or_eq.mp hk with hlt | rfl
      · exact (hsafe k hlt).imp_left fun hold => hold.write hfits
      · exact Or.inl (Workload.holds_write hfits)
  | _ => simp [hp] at hs

theorem readFile (h : j.Inv wl fs) (hs : j.readFile w = some j') : j'.Inv wl fs := by
  obtain ⟨task, htask, hs⟩ := Option.bind_eq_some_iff.mp hs
  obtain ⟨⟨lines, i⟩, hread, hs⟩ := Option.bind_eq_some_iff.mp hs
  have hw := of_task htask
  split_ifs at hs with hguard
  obtain ⟨htype, hi⟩ := hguard
  rw [h.steady.nMap] at hi
  obtain ⟨hid, hgen⟩ := h.reduce_running hw htype
  obtain ⟨text, htext, hfits⟩ := h.holds_final hgen hi hid
  obtain ⟨-, texts, htexts, hlines⟩ := (h.works w task hw).texts hread
  simp only [htext] at hs
  obtain rfl := Option.some.inj hs
  refine h.advance (by simp) fun other hother => ?_
  obtain rfl := Stage.running.inj (hw.symm.trans hother)
  refine .reading hi (Function.update texts i text) (fun m hm => ?_) ?_
  · rcases Nat.lt_succ_iff_lt_or_eq.mp hm with hlt | rfl
    · rw [Function.update_of_ne hlt.ne]
      exact htexts m hlt
    · rwa [Function.update_self]
  · have hbefore : (List.range i).flatMap (fun m => (texts m).splitOn newline) =
        (List.range i).flatMap fun m => (Function.update texts i text m).splitOn newline :=
      List.flatMap_congr fun m hm => by
        rw [Function.update_of_ne (List.mem_range.mp hm).ne]
    rw [List.range_succ, List.flatMap_append, List.flatMap_singleton, Function.update_self,
      ← hbefore, hlines]

theorem writeOutput (h : j.Inv wl fs) (hs : j.writeOutput wl.toApp w = some j') :
    j'.Inv wl fs := by
  obtain ⟨task, htask, hs⟩ := Option.bind_eq_some_iff.mp hs
  obtain ⟨⟨lines, i⟩, hread, hs⟩ := Option.bind_eq_some_iff.mp hs
  have hw := of_task htask
  split_ifs at hs with hguard
  obtain ⟨htype, hi⟩ := hguard
  rw [h.steady.nMap] at hi
  obtain ⟨hid, -⟩ := h.reduce_running hw htype
  obtain ⟨hle, texts, htexts, hlines⟩ := (h.works w task hw).texts hread
  obtain rfl : i = wl.files.length := hle.antisymm hi
  obtain ⟨kva, hparse, hperm⟩ := Workload.parse_texts hid htexts
  simp only [hlines, hparse] at hs
  obtain rfl := Option.some.inj hs
  have hfits : wl.Fits (.tmpReduceOutFile task.id)
      ((reduceCalls ((wl.sorting w).sort kva)).flatMap (outputLine wl.reducef)) :=
    ⟨wl.sorting w, kva, hperm, rfl⟩
  refine h.write (by simp) (fun name => Function.update_of_ne (by simp) ..)
    (fun name hold => hold.write hfits) fun other hother => ?_
  obtain rfl := Stage.running.inj (hw.symm.trans hother)
  exact .written htype (Or.inl (Workload.holds_write hfits))

theorem started_eq (j : Job W) {a : Action W} {s' : System W}
    (hw : j.system.workers w = .running task) (hs : j.system.step a = some s') :
    j.started a w = j.progress w := by
  cases a with
  | trace v =>
    obtain ⟨other, hv, -⟩ := System.trace_cases hs
    refine Function.update_of_ne ?_ ..
    rintro rfl
    cases hw.symm.trans hv
  | _ => rfl

/-- A step of the coordinator other than a report. -/
theorem act {a : Action W} (h : j.Inv wl fs) (hs : j.act a = some j') : j'.Inv wl fs := by
  unfold Job.act at hs
  split_ifs at hs with hguard
  obtain ⟨s', hstep, rfl⟩ := Option.map_eq_some_iff.mp hs
  simp only [not_or, not_and, Bool.not_eq_true] at hguard
  obtain ⟨-, hreports, hlocks⟩ := hguard
  have hacc := System.accepted_step hstep hreports
  have hphase := System.phase_step hstep hreports
  refine ⟨h.steady.step hstep fun hne => absurd hphase hne, h.alive, h.inputs, ?_, ?_, ?_, ?_⟩
  · intro key hkey
    rw [hacc] at hkey
    exact h.accepted key hkey
  · intro w task hw
    rcases System.running_of_step hw hstep with hw | ⟨rfl, -⟩
    · change Works wl _ task (j.started a w)
      rw [started_eq j hw hstep]
      refine (h.works w task hw).mono fun q _ hsafe => ?_
      unfold Safe at hsafe ⊢
      rwa [hacc]
    · change Works wl _ task (Function.update j.progress w .started w)
      rw [Function.update_self]
      exact .started
  · intro w
    cases a with
    | trace v =>
      change Function.update j.progress v .started w ≠ _
      by_cases hw : w = v
      · subst hw
        simp
      · rw [Function.update_of_ne hw]
        exact h.unfailed w
    | _ => exact h.unfailed w
  · -- a report that is being made holds the mutex
    intro report hreport
    have hold := h.report report hreport
    have hunlocked : a.locks = false := by
      by_contra hlock
      have hnone := hlocks (Bool.not_eq_false _ ▸ hlock)
      rw [hreport] at hnone
      cases hnone
    obtain ⟨hu, hmap⟩ := System.step_unlocked hstep hunlocked hreports hold.unlocked
    refine ⟨System.running_step hold.running hstep hreports, hu, hold.time, ?_, hold.done,
      hold.rest⟩
    have hin := hold.inTime
    unfold Coordinator.expired at hin ⊢
    rwa [hmap]

/-- A report that is refused. -/
theorem refuse (h : j.Inv wl fs) (hw : j.system.workers w = .running task)
    (hreport : j.report = none)
    (hunlocked : j.system.unlocked) (hexp : j.system.coordinator.expired j.system.now task.key)
    (hend : (j.system.reportTask w task).coordinator.phase ≠ j.system.coordinator.phase →
      j.system.Settled) :
    Inv wl fs { j with system := j.system.reportTask w task } := by
  have hstep : j.system.step (.reportTask w) = some (j.system.reportTask w task) := by
    simp [System.step, hw, hunlocked]
  have hacc : (j.system.reportTask w task).accepted = j.system.accepted :=
    System.accepted_reportTask.trans (if_pos hexp)
  refine ⟨h.steady.step hstep hend, h.alive, h.inputs, ?_, ?_, h.unfailed, ?_⟩
  · intro key hkey
    exact h.accepted key (hacc ▸ hkey)
  · intro v other hv
    refine (h.works v other (System.running_of_update rfl hv)).mono fun q _ hsafe => ?_
    unfold Safe at hsafe ⊢
    rwa [hacc]
  · intro report hsome
    rw [hreport] at hsome
    cases hsome

omit [DecidableEq W] in
/-- A report that is in time finds all its files. -/
theorem accept (h : j.Inv wl fs) (hw : j.system.workers w = .running task)
    (hreport : j.report = none)
    (hunlocked : j.system.unlocked)
    (hexp : j.system.coordinator.expired j.system.now task.key = false)
    (hready : (j.progress w).ready wl.nReduce) :
    Inv wl fs { j with
      report := some ⟨w, task, j.system.now, renames wl.nReduce task.key⟩ } := by
  have hnew : task.key ∉ j.system.accepted :=
    h.steady.notMem_accepted_of_inTime h.steady.clock hexp
  have hnone {key : Key} {q : FileName × FileName}
      (hsafe : j.Safe wl key q) : wl.Holds j.fs q.1 ∨ key ∈ j.system.accepted := by
    rcases hsafe with hold | hacc | ⟨report, hsome, -⟩
    · exact Or.inl hold
    · exact Or.inr hacc
    · rw [hreport] at hsome
      cases hsome
  refine ⟨h.steady, h.alive, h.inputs, h.accepted, fun v other hv => ?_, h.unfailed, ?_⟩
  · refine (h.works v other hv).mono fun q _ hsafe => ?_
    exact (hnone hsafe).imp_right Or.inl
  · rintro report hsome
    obtain rfl := Option.some.inj hsome
    refine ⟨hw, hunlocked, h.steady.clock, hexp, ⟨[], rfl, by simp⟩, fun q hq => ?_⟩
    exact (hnone ((h.works w task hw).safe_of_ready hready q hq)).resolve_right hnew

theorem beginReport (h : j.Inv wl fs) (hs : j.beginReport w = some j')
    (hend : j.EndsSettled (.beginReport w)) : j'.Inv wl fs := by
  obtain ⟨task, htask, hs⟩ := Option.bind_eq_some_iff.mp hs
  have hw := of_task htask
  split_ifs at hs with hguard hexp
  · obtain ⟨-, hreport, hunlocked, -⟩ := hguard
    obtain rfl := Option.some.inj hs
    refine h.refuse hw (Option.isNone_iff_eq_none.mp hreport) hunlocked hexp fun hne => ?_
    refine hend (j.system.now, task) ?_ (Coordinator.reportTask_phase_ne.mp hne)
    simp [reported, htask, hexp]
  · obtain ⟨-, hreport, hunlocked, hready⟩ := hguard
    obtain rfl := Option.some.inj hs
    rw [h.steady.nReduce] at hready ⊢
    exact h.accept hw (Option.isNone_iff_eq_none.mp hreport) hunlocked
      (Bool.not_eq_true _ ▸ hexp) hready

omit [DecidableEq W] in
/-- No rename of a report fails. -/
theorem rename (h : j.Inv wl fs) (hs : j.rename = some j') : j'.Inv wl fs := by
  obtain ⟨report, hreport, hs⟩ := Option.bind_eq_some_iff.mp hs
  have hold := h.report report hreport
  obtain ⟨before, hsplit, hbefore⟩ := hold.done
  cases hrest : report.rest with
  | nil => simp [hrest] at hs
  | cons names rest =>
    rw [hrest] at hsplit
    have hnames : names ∈ renames wl.nReduce report.task.key := by simp [hsplit]
    have hnodup : (before ++ names :: rest).Nodup := hsplit ▸ renames_nodup
    have hrestne : ∀ q ∈ rest, q.1 ≠ names.1 := by
      intro q hq heq
      have hqmem : q ∈ renames wl.nReduce report.task.key := by simp [hsplit, hq]
      obtain ⟨rfl, -⟩ := renames_inj hqmem hnames heq
      exact (List.nodup_cons.mp (List.nodup_append.mp hnodup).2.1).1 hq
    obtain ⟨fs', hfs', hnew, hkeep, hinput⟩ :=
      (hold.rest names (by simp [hrest])).rename hnames
    simp only [hrest, hfs'] at hs
    obtain rfl := Option.some.inj hs
    refine ⟨h.steady, h.alive, fun name => (hinput name).trans (h.inputs name), ?_, ?_,
      h.unfailed, ?_⟩
    · intro key hkey q hq
      exact hkeep _ (renames_ne hq hnames) (h.accepted key hkey q hq)
    · intro w task hw
      refine (h.works w task hw).mono fun q hq hsafe => ?_
      rcases hsafe with hfile | hacc | ⟨other, hother, hkey, hnot⟩
      · by_cases hsame : q.1 = names.1
        · obtain ⟨rfl, hkey⟩ := renames_inj hq hnames hsame
          exact Or.inr (Or.inr ⟨_, rfl, hkey.symm, fun hmem => hrestne q hmem rfl⟩)
        · exact Or.inl (hkeep _ hsame hfile)
      · exact Or.inr (Or.inl hacc)
      · obtain rfl := Option.some.inj (hreport.symm.trans hother)
        rw [hrest] at hnot
        exact Or.inr (Or.inr ⟨_, rfl, hkey, fun hmem => hnot (List.mem_cons_of_mem _ hmem)⟩)
    · intro other hother
      obtain rfl := Option.some.inj hother
      refine ⟨hold.running, hold.unlocked, hold.time, hold.inTime,
        ⟨before ++ [names], by simpa using hsplit, fun q hq => ?_⟩, fun q hq => ?_⟩
      · rcases List.mem_append.mp hq with hq | hq
        · have hqmem : q ∈ renames wl.nReduce report.task.key := by simp [hsplit, hq]
          exact hkeep _ (renames_ne hqmem hnames) (hbefore q hq)
        · obtain rfl := List.mem_singleton.mp hq
          exact hnew
      · exact hkeep _ (hrestne q hq) (hold.rest q (by simp [hrest, hq]))

/-- The files of the task are final when its report ends. -/
theorem endReport (h : j.Inv wl fs) (hs : j.endReport = some j')
    (hend : j.EndsSettled .endReport) : j'.Inv wl fs := by
  obtain ⟨report, hreport, hs⟩ := Option.bind_eq_some_iff.mp hs
  obtain ⟨hrest, rfl⟩ := of_guarded hs
  have hold := h.report report hreport
  obtain ⟨before, hsplit, hbefore⟩ := hold.done
  rw [hrest, List.append_nil] at hsplit
  set s : System W := { j.system with now := report.time } with hsdef
  have hstep : s.step (.reportTask report.worker) =
      some (s.reportTask report.worker report.task) := by
    have hu : s.unlocked := hold.unlocked
    have hw : s.workers report.worker = .running report.task := hold.running
    simp [System.step, hw, hu]
  have hacc : (s.reportTask report.worker report.task).accepted =
      report.task.key :: j.system.accepted :=
    System.accepted_reportTask.trans (if_neg (by simpa using hold.inTime))
  have hsettled (hne : (s.reportTask report.worker report.task).coordinator.phase ≠
      s.coordinator.phase) : s.Settled :=
    hend (report.time, report.task) (Option.mem_map_of_mem _ hreport)
      (Coordinator.reportTask_phase_ne.mp hne)
  refine ⟨((h.steady.setNow hold.time).step hstep hsettled).setNow h.steady.clock, h.alive,
    h.inputs, ?_, ?_, h.unfailed, (by simp)⟩
  · intro key hkey q hq
    rcases List.mem_cons.mp (hacc ▸ hkey) with rfl | hkey
    · exact hbefore q (hsplit ▸ hq)
    · exact h.accepted key hkey q hq
  · intro w task hw
    have hrun : j.system.workers w = .running task := System.running_of_update (s := s) rfl hw
    refine (h.works w task hrun).mono fun q _ hsafe => ?_
    rcases hsafe with hfile | hmem | ⟨other, hother, hkey, -⟩
    · exact Or.inl hfile
    · exact Or.inr (Or.inl (hacc ▸ List.mem_cons_of_mem _ hmem))
    · obtain rfl := Option.some.inj (hreport.symm.trans hother)
      exact Or.inr (Or.inl (hacc ▸ hkey ▸ List.mem_cons_self))

theorem step {a : JobAction W} (h : j.Inv wl fs)
    (hin : ∀ name ∈ wl.files, fs (.input (goString name)) = some (wl.contents (goString name)))
    (hend : j.EndsSettled a) (hs : j.step wl.toApp a = some j') : j'.Inv wl fs := by
  cases a with
  | act a => exact h.act hs
  | generateIntermediate w intermediate => exact h.generateIntermediate hin hs
  | writeFile w => exact h.writeFile hs
  | readFile w => exact h.readFile hs
  | writeOutput w => exact h.writeOutput hs
  | beginReport w => exact h.beginReport hs hend
  | rename => exact h.rename hs
  | endReport => exact h.endReport hs hend

end Inv

theorem init_inv (wl : Workload W) (fs : FileSystem) :
    Inv wl fs (init wl.files wl.nReduce fs) := by
  refine ⟨System.init_steady wl.files wl.nReduce, rfl, fun _ => rfl, ?_, ?_, ?_, ?_⟩
  · intro key hkey
    cases hkey
  · intro w task hw
    cases hw
  · intro w hw
    cases hw
  · intro report hreport
    cases hreport

theorem Run.inv [DecidableEq W] {r : ℕ → Job W}
    (hr : Run wl.toApp wl.files wl.nReduce fs r)
    (hin : ∀ name ∈ wl.files, fs (.input (goString name)) = some (wl.contents (goString name)))
    (k : ℕ) : (r k).Inv wl fs := by
  refine hr.steps.invariant (fun j a j' hend hs h => h.step hin hend hs) ?_ k
  rw [hr.init]
  exact init_inv wl fs

end Job

section Output
variable {W : Type*} {wl : Workload W}

/-- The lines of the files of all reduce tasks, each of which has sorted its pairs in its own
way. -/
theorem lines_perm_sequential (T : Sorting) {fs : FileSystem} {out : ℕ → GoString}
    (hin : ∀ name ∈ wl.files, fs (.input (goString name)) = some (wl.contents (goString name)))
    (hred : ∀ key vs vs', vs.Perm vs' → wl.reducef key vs = wl.reducef key vs')
    (hout : ∀ i < wl.nReduce, wl.Fits (.finalReduceOutFile i) (out i)) :
    ((List.range wl.nReduce).flatMap fun i => textLines (out i)).Perm
      (textLines ((mrsequential T wl.mapf wl.reducef (wl.files.map goString) fs).getD [])) := by
  set kva := emitted wl.mapf wl.contents (wl.files.map goString) with hkva
  have hex : ∀ i, ∃ (S : Sorting) (part : List KeyValue), i < wl.nReduce →
      part.Perm (wl.pairs i) ∧
        out i = (reduceCalls (S.sort part)).flatMap (outputLine wl.reducef) := by
    intro i
    by_cases hi : i < wl.nReduce
    · obtain ⟨S, part, hpart⟩ := hout i hi
      exact ⟨S, part, fun _ => hpart⟩
    · exact ⟨T, [], fun h => absurd h hi⟩
  choose S part hpart using hex
  have hlines : ((List.range wl.nReduce).flatMap fun i => textLines (out i)) =
      ((List.range wl.nReduce).flatMap fun i =>
        (reduceCalls ((S i).sort (part i))).map (outputBody wl.reducef)).flatMap
          fun body => body.splitOn newline := by
    rw [List.flatMap_assoc]
    apply List.flatMap_congr
    intro i hi
    rw [(hpart i (List.mem_range.mp hi)).2, textLines_output]
  have hinput : ∀ name ∈ wl.files.map goString, fs (.input name) = some (wl.contents name) := by
    intro name hname
    obtain ⟨file, hfile, rfl⟩ := List.mem_map.mp hname
    exact hin file hfile
  rw [hlines, textLines_mrsequential T wl.reducef hinput, ← hkva]
  refine List.Perm.flatMap_right _ ?_
  simp only [reduceCalls, List.map_map]
  refine (T.runs_isGrouping kva).flatMap_perm (fun key => ihash key % wl.nReduce)
    (fun key => Nat.mod_lt _ wl.pos) (fun i _ => (S i).runs_isGrouping (part i))
    (fun i hi => ?_) ?_
  · exact ((S i).perm _).trans ((hpart i hi).1.trans ((T.perm kva).symm.filter _))
  · intro key xs ys hp
    simp only [Function.comp_apply, outputBody, hred key _ _ (hp.map KeyValue.value)]

variable [DecidableEq W] {fs : FileSystem} {r : ℕ → Job W}

/-- If the input files are there at the start and are not written by anybody else, no process of a
job stops over its files: no input file or file of a map task is missing when it is read, no line
of such a file is without its tab, and no temporary file is missing when it is renamed. That a
process is killed or that a write fails is not in the model. -/
theorem job_never_fails (hr : Job.Run wl.toApp wl.files wl.nReduce fs r)
    (hin : ∀ name ∈ wl.files, fs (.input (goString name)) = some (wl.contents (goString name)))
    (k : ℕ) : (r k).crashed = false ∧ ∀ w, (r k).progress w ≠ .failed :=
  ⟨(hr.inv hin k).alive, (hr.inv hin k).unfailed⟩

/-- When a job is done, the file of every reduce task is there, and the lines of these files
together are a permutation of the lines of the sequential program. -/
theorem job_output (T : Sorting) (hr : Job.Run wl.toApp wl.files wl.nReduce fs r)
    (hin : ∀ name ∈ wl.files, fs (.input (goString name)) = some (wl.contents (goString name)))
    (hred : ∀ key vs vs', vs.Perm vs' → wl.reducef key vs = wl.reducef key vs') {k : ℕ}
    (hdone : (r k).system.coordinator.done) :
    ∃ out : ℕ → GoString,
      (∀ i < wl.nReduce, (r k).fs (.finalReduceOutFile i) = some (out i)) ∧
      ((List.range wl.nReduce).flatMap fun i => textLines (out i)).Perm
        (textLines ((mrsequential T wl.mapf wl.reducef (wl.files.map goString) fs).getD [])) := by
  have h := hr.inv hin k
  have hex : ∀ i, ∃ text, i < wl.nReduce →
      (r k).fs (.finalReduceOutFile i) = some text ∧ wl.Fits (.finalReduceOutFile i) text := by
    intro i
    by_cases hi : i < wl.nReduce
    · have hacc : (.reduce, i) ∈ (r k).system.accepted := by
        refine h.steady.reduces.past ?_ i hi
        rw [of_decide_eq_true hdone]
        rfl
      obtain ⟨text, htext⟩ := h.accepted _ hacc _ (mem_renames.mpr (Or.inr ⟨i, rfl, rfl⟩))
      exact ⟨text, fun _ => htext⟩
    · exact ⟨[], fun hlt => absurd hlt hi⟩
  choose out hout using hex
  exact ⟨out, fun i hi => (hout i hi).1,
    lines_perm_sequential T hin hred fun i hi => (hout i hi).2⟩

end Output

/-- Counting the letters of one file, with two reduce tasks and two workers. -/
def letterWork : Workload (Fin 2) where
  mapf := letterMap
  reducef := countReduce
  sorting := fun _ => insertionSorting
  files := ["x"]
  contents := fun name => (letterFiles (.input name)).getD []
  nReduce := 2
  pos := by decide
  clean := by decide

/-- The map task of the first worker times out while it writes its files, and the second worker
does it. Between the renames for the second worker, the first one writes another file, and its
report comes when the reduce tasks are being done. -/
def lateWriterRun {W : Type*} (v w : W) : List (JobAction W) :=
  let pairs : List KeyValue := [⟨[97], [49]⟩, ⟨[98], [49]⟩, ⟨[97], [49]⟩]
  let reduceTask : List (JobAction W) :=
    [.act (.assignTask w), .act (.receive w), .act (.trace w), .readFile w, .writeOutput w,
      .beginReport w, .rename, .endReport]
  [.act (.assignTask v), .act (.receive v), .act (.trace v), .generateIntermediate v pairs,
    .writeFile v, .act (.tick (maxTaskTime + 1)), .act .beginSweep, .act (.visit (.map, 0)),
    .act .endSweep, .act (.assignTask w), .act (.receive w), .act (.trace w),
    .generateIntermediate w pairs.reverse, .writeFile w, .writeFile w, .beginReport w, .rename,
    .writeFile v, .rename, .endReport, .act .generate, .act .generate] ++ reduceTask ++
  [.beginReport v] ++ reduceTask

theorem lateWriterRun_isRun :
    Job.Run letterWork.toApp letterWork.files letterWork.nReduce letterFiles
      (trace (Job.step letterWork.toApp) (.init ["x"] 2 letterFiles) (lateWriterRun 0 1)) :=
  ⟨trace_zero _ _, trace_isRun (by decide +kernel)⟩

theorem letterWork_inputs : ∀ name ∈ letterWork.files,
    letterFiles (.input (goString name)) = some (letterWork.contents (goString name)) := by
  decide

theorem job_never_fails_lateWriterRun :
    ∃ r : ℕ → Job (Fin 2), Job.Run letterWork.toApp letterWork.files letterWork.nReduce
        letterFiles r ∧ (r 18).report.isSome ∧ (r 17).fs (.tmpMapOutFile 0 0) = none ∧
      (r 18).crashed = false ∧ ∀ w, (r 18).progress w ≠ .failed :=
  ⟨_, lateWriterRun_isRun, by decide +kernel, by decide +kernel,
    job_never_fails lateWriterRun_isRun letterWork_inputs 18⟩

theorem job_output_lateWriterRun :
    ∃ r : ℕ → Job (Fin 2), Job.Run letterWork.toApp letterWork.files letterWork.nReduce
        letterFiles r ∧ (r 39).system.coordinator.done ∧
      ∃ out : ℕ → GoString,
        (∀ i < letterWork.nReduce, (r 39).fs (.finalReduceOutFile i) = some (out i)) ∧
        ((List.range letterWork.nReduce).flatMap fun i => textLines (out i)).Perm
          (textLines ((mrsequential insertionSorting letterWork.mapf letterWork.reducef
            (letterWork.files.map goString) letterFiles).getD [])) := by
  have hdone : (trace (Job.step letterWork.toApp) (.init ["x"] 2 letterFiles) (lateWriterRun 0 1)
      39).system.coordinator.done := by decide +kernel
  have hred : ∀ key vs vs', vs.Perm vs' →
      letterWork.reducef key vs = letterWork.reducef key vs' :=
    fun _ _ _ hp => by simp only [letterWork, countReduce, hp.length_eq]
  exact ⟨_, lateWriterRun_isRun, hdone,
    job_output insertionSorting lateWriterRun_isRun letterWork_inputs hred hdone⟩

end RaftLabs.Mr
