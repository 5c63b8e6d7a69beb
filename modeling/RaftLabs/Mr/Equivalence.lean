import RaftLabs.Mr.RoundTrip

/-! The distributed job computes what the sequential program computes: the intermediate files are
read back as they were written, the buckets of a reduce task are the pairs whose keys hash to it,
and grouping by buckets gives the groups of the whole. -/
namespace RaftLabs.Mr

open Basis

/-! The files. -/

theorem FileSystem.rename_eq_some {fs : FileSystem} {oldname newname : FileName}
    {content : GoString} (h : fs oldname = some content) :
    fs.rename oldname newname =
      some (Function.update (Function.update fs oldname none) newname (some content)) := by
  rw [rename, h]
  rfl

/-- The renames of an accepted map task. -/
theorem acceptMap_eq {fs : FileSystem} {m : ℕ} {text : ℕ → GoString} (n : ℕ)
    (h : ∀ i < n, fs (.tmpMapOutFile m i) = some (text i)) :
    ∃ fs', acceptMap m n fs = some fs' ∧
      (∀ i < n, fs' (.finalMapOutFile m i) = some (text i)) ∧
      (∀ i, n ≤ i → fs' (.tmpMapOutFile m i) = fs (.tmpMapOutFile m i)) ∧
      ∀ name, (∀ i, name ≠ .tmpMapOutFile m i ∧ name ≠ .finalMapOutFile m i) →
        fs' name = fs name := by
  unfold acceptMap
  induction n with
  | zero =>
    refine ⟨fs, rfl, fun i hi => absurd hi (Nat.not_lt_zero i), fun _ _ => rfl, fun _ _ => rfl⟩
  | succ n ih =>
    obtain ⟨fs', hfs', hfin, htmp, hframe⟩ := ih fun i hi => h i (hi.trans n.lt_succ_self)
    have hn := (htmp n le_rfl).trans (h n n.lt_succ_self)
    rw [List.range_succ, List.foldlM_append, hfs']
    refine ⟨_, (congrArg (· >>= pure) (FileSystem.rename_eq_some hn)), ?_, ?_, ?_⟩
    · intro i hi
      rcases (Nat.lt_succ_iff_lt_or_eq.mp hi) with hlt | rfl
      · rw [Function.update_of_ne (by simpa using hlt.ne), Function.update_of_ne (by simp)]
        exact hfin i hlt
      · exact Function.update_self ..
    · intro i hi
      rw [Function.update_of_ne (by simp), Function.update_of_ne (by simp; omega)]
      exact htmp i (Nat.le_of_succ_le hi)
    · intro name hne
      rw [Function.update_of_ne (hne n).2, Function.update_of_ne (hne n).1]
      exact hframe name hne

theorem writeToFile_of_ne {m nReduce : ℕ} {kva : List KeyValue} {fs : FileSystem}
    {name : FileName} (h : ∀ i, name ≠ .tmpMapOutFile m i) :
    writeToFile m nReduce kva fs name = fs name := by
  unfold writeToFile
  induction List.range nReduce generalizing fs with
  | nil => rfl
  | cons i is ih => rw [List.foldl_cons, ih, FileSystem.write, Function.update_of_ne (h i)]

section MapTasks
variable (mapf : GoString → GoString → List KeyValue) (nReduce : ℕ) {fs : FileSystem}

/-- A map task that is done and accepted leaves its files final and the other ones as they
were. -/
theorem mapTask_final (m : ℕ) {name content : GoString} (hin : fs (.input name) = some content) :
    ∃ fs', (doMapTask mapf m name nReduce fs).bind (acceptMap m nReduce) = some fs' ∧
      MapFinal fs' nReduce m (mapf name content) ∧
      (∀ other, fs' (.input other) = fs (.input other)) ∧
      ∀ m', m' ≠ m → ∀ i, fs' (.finalMapOutFile m' i) = fs (.finalMapOutFile m' i) := by
  have hwrite : doMapTask mapf m name nReduce fs =
      some (writeToFile m nReduce (mapf name content) fs) := by
    rw [doMapTask, generateIntermediate, hin]
    rfl
  have htmp : ∀ i < nReduce, writeToFile m nReduce (mapf name content) fs (.tmpMapOutFile m i) =
      some ((hashedkva nReduce (mapf name content) i).flatMap intermediateLine) := fun i hi =>
    (writeToFile_eq m nReduce _ fs i).trans (if_pos hi)
  obtain ⟨fs', hacc, hfin, -, hframe⟩ := acceptMap_eq nReduce htmp
  refine ⟨fs', by rw [hwrite]; exact hacc, ?_, ?_, ?_⟩
  · intro i hi
    rw [hfin i hi, writeToFile_eq, if_pos hi]
  · intro other
    rw [hframe _ (by simp), writeToFile_of_ne (by simp)]
  · intro m' hne i
    rw [hframe _ (by simp [hne]), writeToFile_of_ne (by simp)]

/-- After the map tasks, in any order, the files of all of them are final. -/
theorem mapTasks_final {contents : GoString → GoString} {tasks : List (ℕ × GoString)}
    (hids : (tasks.map Prod.fst).Nodup)
    (hin : ∀ task ∈ tasks, fs (.input task.2) = some (contents task.2)) :
    ∃ fs', mapTasks mapf nReduce tasks fs = some fs' ∧
      (∀ task ∈ tasks, MapFinal fs' nReduce task.1 (mapf task.2 (contents task.2))) ∧
      (∀ name, fs' (.input name) = fs (.input name)) ∧
      ∀ m ∉ tasks.map Prod.fst, ∀ i, fs' (.finalMapOutFile m i) = fs (.finalMapOutFile m i) := by
  induction tasks generalizing fs with
  | nil => exact ⟨fs, rfl, by simp, fun _ => rfl, fun _ _ _ => rfl⟩
  | cons task tasks ih =>
    obtain ⟨hnew, hids⟩ := List.nodup_cons.mp hids
    obtain ⟨fs₁, hstep, hfin, hinput, hother⟩ := mapTask_final mapf nReduce task.1
      (hin task List.mem_cons_self)
    obtain ⟨fs', hrest, hfins, hinputs, hothers⟩ := ih hids fun t ht =>
      (hinput _).trans (hin t (List.mem_cons_of_mem _ ht))
    refine ⟨fs', ?_, ?_, fun name => (hinputs name).trans (hinput name), ?_⟩
    · unfold mapTasks at hrest ⊢
      rw [List.foldlM_cons, hstep]
      exact hrest
    · intro t ht
      rcases List.mem_cons.mp ht with rfl | ht
      · intro i hi
        rw [hothers _ hnew, hfin i hi]
      · exact hfins t ht
    · intro m hm i
      rw [List.map_cons, List.mem_cons, not_or] at hm
      rw [hothers m hm.2, hother m hm.1]

end MapTasks

section ReduceTasks
variable {S : Sorting} {nMap : ℕ} {fs : FileSystem}

/-- A reduce task reads only final files of map tasks. -/
theorem taskCalls_congr {fs' : FileSystem} {i : ℕ}
    (h : ∀ m, fs' (.finalMapOutFile m i) = fs (.finalMapOutFile m i)) :
    taskCalls S i nMap fs' = taskCalls S i nMap fs := by
  simp only [taskCalls, readIntermediate, h]

theorem reduceTasks_eq (reducef : GoString → List GoString → GoString)
    {calls : ℕ → List (GoString × List GoString)} {tasks : List ℕ}
    (h : ∀ i ∈ tasks, taskCalls S i nMap fs = some (calls i)) :
    ∃ fs', reduceTasks S reducef nMap tasks fs = some fs' ∧
      (∀ i ∈ tasks, fs' (.finalReduceOutFile i) =
        some ((calls i).flatMap (outputLine reducef))) ∧
      ∀ i ∉ tasks, fs' (.finalReduceOutFile i) = fs (.finalReduceOutFile i) := by
  induction tasks generalizing fs with
  | nil => exact ⟨fs, rfl, by simp, fun _ _ => rfl⟩
  | cons i tasks ih =>
    have hdo : doReduceTask S reducef i nMap fs = some (fs.write (.tmpReduceOutFile i)
        ((calls i).flatMap (outputLine reducef))) := by
      rw [doReduceTask, h i List.mem_cons_self]
      rfl
    set fs₁ : FileSystem := Function.update (Function.update (Function.update fs
      (.tmpReduceOutFile i) (some ((calls i).flatMap (outputLine reducef))))
      (.tmpReduceOutFile i) none) (.finalReduceOutFile i)
      (some ((calls i).flatMap (outputLine reducef))) with hfs₁
    have hacc : acceptReduce i (fs.write (.tmpReduceOutFile i)
        ((calls i).flatMap (outputLine reducef))) = some fs₁ :=
      FileSystem.rename_eq_some (Function.update_self ..)
    have hmaps : ∀ m k, fs₁ (.finalMapOutFile m k) = fs (.finalMapOutFile m k) := by
      intro m k
      rw [hfs₁, Function.update_of_ne (by simp), Function.update_of_ne (by simp),
        Function.update_of_ne (by simp)]
    have hcalls : ∀ k ∈ tasks, taskCalls S k nMap fs₁ = some (calls k) := fun k hk =>
      (taskCalls_congr fun m => hmaps m k).trans (h k (List.mem_cons_of_mem _ hk))
    obtain ⟨fs', hrest, hout, hother⟩ := ih hcalls
    refine ⟨fs', ?_, ?_, ?_⟩
    · unfold reduceTasks at hrest ⊢
      rw [List.foldlM_cons, hdo]
      change (acceptReduce i _ >>= _) = _
      rw [hacc]
      exact hrest
    · intro k hk
      by_cases hmem : k ∈ tasks
      · exact hout k hmem
      · obtain rfl : k = i := (List.mem_cons.mp hk).resolve_right hmem
        rw [hother k hmem]
        exact Function.update_self ..
    · intro k hk
      rw [List.mem_cons, not_or] at hk
      rw [hother k hk.2, hfs₁, Function.update_of_ne (by simpa using hk.1),
        Function.update_of_ne (by simp), Function.update_of_ne (by simp)]

end ReduceTasks

/-! The groups. -/

theorem Sorting.runs_isGrouping (S : Sorting) (kva : List KeyValue) :
    IsGrouping KeyValue.key (S.sort kva) (runs KeyValue.key (S.sort kva)) :=
  Basis.runs_isGrouping (r := fun k k' : GoString => k ≤ k') (S.sorted kva)

/-- The part of an output line before its newline. -/
def outputBody (reducef : GoString → List GoString → GoString)
    (call : GoString × List GoString) : GoString :=
  call.1 ++ blankByte :: reducef call.1 call.2

theorem textLines_output (reducef : GoString → List GoString → GoString)
    (calls : List (GoString × List GoString)) :
    textLines (calls.flatMap (outputLine reducef)) =
      (calls.map (outputBody reducef)).flatMap fun body => body.splitOn newline := by
  have hsplit := splitOn_terminated newline (outputBody reducef) calls
  change (calls.flatMap (outputLine reducef)).splitOn newline = _ at hsplit
  unfold textLines
  rw [hsplit, List.flatMap_map]
  simp

section Job
variable {mapf : GoString → GoString → List KeyValue} {files : List GoString}
  {contents : GoString → GoString} {nReduce : ℕ} {fs : FileSystem}

/-- The pairs that are emitted for all the files. -/
def emitted (mapf : GoString → GoString → List KeyValue) (contents : GoString → GoString)
    (files : List GoString) : List KeyValue :=
  files.flatMap fun name => mapf name (contents name)

/-- A reduce task reads the pairs of its bucket, in the order of the files. -/
theorem taskCalls_eq (S : Sorting) {i : ℕ} (hi : i < nReduce)
    (hclean : ∀ name ∈ files, ∀ kv ∈ mapf name (contents name), kv.Clean)
    (hfinal : ∀ m name, files[m]? = some name →
      MapFinal fs nReduce m (mapf name (contents name))) :
    taskCalls S i files.length fs =
      some (reduceCalls (S.sort (bucket nReduce (emitted mapf contents files) i))) := by
  set kvas : ℕ → List KeyValue := fun m =>
    (files[m]?).elim [] fun name => mapf name (contents name) with hkvas
  have hget : ∀ m < files.length, ∃ name ∈ files, files[m]? = some name ∧
      kvas m = mapf name (contents name) := by
    intro m hm
    have hm := List.getElem?_eq_getElem hm
    exact ⟨_, List.mem_of_getElem? hm, hm, by simp [hkvas, hm]⟩
  have hfinals : ∀ m < files.length, MapFinal fs nReduce m (kvas m) := by
    intro m hm
    obtain ⟨name, -, hname, heq⟩ := hget m hm
    rw [heq]
    exact hfinal m name hname
  have hcleans : ∀ m < files.length, ∀ kv ∈ kvas m, kv.Clean := by
    intro m hm
    obtain ⟨name, hmem, -, heq⟩ := hget m hm
    rw [heq]
    exact hclean name hmem
  have hemitted : (List.range files.length).flatMap kvas = emitted mapf contents files :=
    range_flatMap_getElem? (fun name => mapf name (contents name)) files
  have hread := readPairs_of_clean hfinals hi hcleans
  rw [hemitted, readPairs] at hread
  obtain ⟨lines, hlines, hparse⟩ := Option.bind_eq_some_iff.mp hread
  rw [taskCalls, hlines, Option.bind_some, hparse]
  rfl

/-- The sequential program groups all the pairs at once. -/
theorem mrsequential_eq (S : Sorting) (reducef : GoString → List GoString → GoString)
    (hne : files ≠ []) (hin : ∀ name ∈ files, fs (.input name) = some (contents name)) :
    mrsequential S mapf reducef files fs =
      some ((reduceCalls (S.sort (emitted mapf contents files))).flatMap
        (outputLine reducef)) := by
  have hread : files.foldlM (fun intermediate filename =>
      (fs (.input filename)).map fun content => intermediate ++ mapf filename content) [] =
      some (emitted mapf contents files) := by
    refine foldlM_eq_append (f := fun name => mapf name (contents name)) ?_ []
    intro acc name hname
    rw [hin name hname]
    rfl
  rw [mrsequential, if_neg hne, hread]
  rfl

/-- The lines of the sequential program. Without an input file it fails, and there are none. -/
theorem textLines_mrsequential (S : Sorting) (reducef : GoString → List GoString → GoString)
    (hin : ∀ name ∈ files, fs (.input name) = some (contents name)) :
    textLines ((mrsequential S mapf reducef files fs).getD []) =
      ((reduceCalls (S.sort (emitted mapf contents files))).map (outputBody reducef)).flatMap
        fun body => body.splitOn newline := by
  by_cases hne : files = []
  · have hnil : S.sort (emitted mapf contents files) = [] := by
      subst hne
      exact (S.perm _).eq_nil
    rw [mrsequential, if_pos hne, hnil]
    rfl
  · rw [mrsequential_eq S reducef hne hin, Option.getD_some, textLines_output]

theorem mem_emitted_keys {key : GoString} :
    key ∈ (emitted mapf contents files).map KeyValue.key ↔
      ∃ name ∈ files, ∃ kv ∈ mapf name (contents name), kv.key = key := by
  simp only [emitted, List.mem_map, List.mem_flatMap]
  constructor
  · rintro ⟨kv, ⟨name, hname, hkv⟩, rfl⟩
    exact ⟨name, hname, kv, hkv, rfl⟩
  · rintro ⟨name, hname, kv, hkv, rfl⟩
    exact ⟨kv, ⟨name, hname, hkv⟩, rfl⟩

/-- Whatever is computed from the calls of all reduce tasks, without regard to the order of the
values, is a permutation of what is computed from the calls of the sequential program. -/
theorem reduceCalls_perm {β : Type*} (S T : Sorting) (hn : 1 ≤ nReduce) (kva : List KeyValue)
    {f : GoString × List GoString → β}
    (hf : ∀ key vs vs', vs.Perm vs' → f (key, vs) = f (key, vs')) :
    ((List.range nReduce).flatMap fun i =>
      (reduceCalls (S.sort (bucket nReduce kva i))).map f).Perm
        ((reduceCalls (T.sort kva)).map f) := by
  simp only [reduceCalls, List.map_map]
  refine (T.runs_isGrouping kva).flatMap_perm (fun key => ihash key % nReduce)
    (fun key => Nat.mod_lt _ hn) (fun i _ => S.runs_isGrouping _) (fun i _ => ?_) ?_
  · exact (S.perm _).trans ((T.perm kva).symm.filter _)
  · intro key xs ys hp
    exact hf key _ _ (hp.map KeyValue.value)

/-- The keys of the calls of all reduce tasks are the keys of the groups of the whole. -/
theorem reduceCalls_keys_perm (S T : Sorting) (hn : 1 ≤ nReduce) (kva : List KeyValue) :
    ((List.range nReduce).flatMap fun i =>
      (reduceCalls (S.sort (bucket nReduce kva i))).map Prod.fst).Perm
        ((runs KeyValue.key (T.sort kva)).map Prod.fst) := by
  have hfst : (reduceCalls (T.sort kva)).map Prod.fst =
      (runs KeyValue.key (T.sort kva)).map Prod.fst := by
    rw [reduceCalls, List.map_map]
    rfl
  rw [← hfst]
  exact reduceCalls_perm S T hn kva fun _ _ _ _ => rfl

end Job

/-- The distributed job and the sequential program: once the files of all map tasks are final,
the reduce tasks, done in any order, succeed, and the lines of their output files together are a
permutation of the lines of the sequential program. Each emitted key is reduced exactly once. -/
theorem distributed_perm_sequential (S T : Sorting) {mapf : GoString → GoString → List KeyValue}
    {reducef : GoString → List GoString → GoString} {files : List GoString}
    {contents : GoString → GoString} {nReduce : ℕ} {fs : FileSystem} {tasks : List ℕ}
    (hn : 1 ≤ nReduce) (hin : ∀ name ∈ files, fs (.input name) = some (contents name))
    (hclean : ∀ name ∈ files, ∀ kv ∈ mapf name (contents name), kv.Clean)
    (hred : ∀ key vs vs', vs.Perm vs' → reducef key vs = reducef key vs')
    (hfinal : ∀ m name, files[m]? = some name →
      MapFinal fs nReduce m (mapf name (contents name)))
    (htasks : tasks.Perm (List.range nReduce)) :
    (files ≠ [] → (mrsequential T mapf reducef files fs).isSome) ∧
    ∃ (calls : ℕ → List (GoString × List GoString)) (fs' : FileSystem),
      (∀ i < nReduce, taskCalls S i files.length fs = some (calls i)) ∧
      reduceTasks S reducef files.length tasks fs = some fs' ∧
      (∀ i < nReduce, fs' (.finalReduceOutFile i) =
        some ((calls i).flatMap (outputLine reducef))) ∧
      ((List.range nReduce).flatMap fun i =>
        textLines ((fs' (.finalReduceOutFile i)).getD [])).Perm
          (textLines ((mrsequential T mapf reducef files fs).getD [])) ∧
      ((List.range nReduce).flatMap fun i => (calls i).map Prod.fst).Nodup ∧
      ∀ key, key ∈ ((List.range nReduce).flatMap fun i => (calls i).map Prod.fst) ↔
        ∃ name ∈ files, ∃ kv ∈ mapf name (contents name), kv.key = key := by
  set kva := emitted mapf contents files with hkva
  have hcalls : ∀ i < nReduce, taskCalls S i files.length fs =
      some (reduceCalls (S.sort (bucket nReduce kva i))) := fun i hi =>
    taskCalls_eq S hi hclean hfinal
  have htaskCalls : ∀ i ∈ tasks, taskCalls S i files.length fs =
      some (reduceCalls (S.sort (bucket nReduce kva i))) := fun i hi =>
    hcalls i (List.mem_range.mp (htasks.mem_iff.mp hi))
  obtain ⟨fs', hrun, hout, -⟩ := reduceTasks_eq reducef htaskCalls
  have hfiles : ∀ i < nReduce, fs' (.finalReduceOutFile i) =
      some ((reduceCalls (S.sort (bucket nReduce kva i))).flatMap (outputLine reducef)) :=
    fun i hi => hout i (htasks.mem_iff.mpr (List.mem_range.mpr hi))
  have hkeys := reduceCalls_keys_perm S T hn kva
  have hgroups := T.runs_isGrouping kva
  refine ⟨fun hne => ?_, _, fs', hcalls, hrun, hfiles, ?_, ?_, ?_⟩
  · rw [mrsequential_eq T reducef hne hin]
    rfl
  · have hlines : ((List.range nReduce).flatMap fun i =>
        textLines ((fs' (.finalReduceOutFile i)).getD [])) =
        ((List.range nReduce).flatMap fun i => (reduceCalls (S.sort (bucket nReduce kva i))).map
          (outputBody reducef)).flatMap fun body => body.splitOn newline := by
      rw [List.flatMap_assoc]
      apply List.flatMap_congr
      intro i hi
      rw [hfiles i (List.mem_range.mp hi), Option.getD_some, textLines_output]
    rw [hlines, textLines_mrsequential T reducef hin, ← hkva]
    refine (reduceCalls_perm S T hn kva fun key vs vs' hp => ?_).flatMap_right _
    simp only [outputBody, hred key vs vs' hp]
  · exact hkeys.nodup_iff.mpr hgroups.nodup
  · intro key
    rw [hkeys.mem_iff, hgroups.mem_keys, ((T.perm kva).map KeyValue.key).mem_iff, hkva]
    exact mem_emitted_keys

/-- A sort by insertion. -/
def insertionSorting : Sorting where
  sort := List.insertionSort fun a b => a.key ≤ b.key
  perm := List.perm_insertionSort _
  sorted kva := by
    have htotal : Std.Total fun a b : KeyValue => a.key ≤ b.key :=
      ⟨fun a b => List.le_total a.key b.key⟩
    have htrans : IsTrans KeyValue fun a b => a.key ≤ b.key :=
      ⟨fun _ _ _ hab hbc => List.le_trans hab hbc⟩
    exact List.pairwise_insertionSort (fun a b : KeyValue => a.key ≤ b.key) kva

/-- Counting letters. -/
def letterMap (_ content : GoString) : List KeyValue := content.map fun b => ⟨[b], [49]⟩

def countReduce (_ : GoString) (values : List GoString) : GoString :=
  [48 + UInt8.ofNat values.length]

/-- Two input files. -/
def letterFiles : FileSystem
  | .input [120] => some [97, 98, 97]
  | .input [121] => some [98, 99]
  | _ => none

theorem distributed_perm_sequential_letters :
    ∃ fs fs', mapTasks letterMap 2 [(1, [121]), (0, [120])] letterFiles = some fs ∧
      reduceTasks insertionSorting countReduce 2 [1, 0] fs = some fs' ∧
      ((List.range 2).flatMap fun i => textLines ((fs' (.finalReduceOutFile i)).getD [])).Perm
        (textLines ((mrsequential insertionSorting letterMap countReduce [[120], [121]] fs).getD
          [])) := by
  set contents : GoString → GoString := fun name => (letterFiles (.input name)).getD []
    with hcontents
  have hinput : ∀ task ∈ [(1, [121]), (0, [120])],
      letterFiles (.input task.2) = some (contents task.2) := by decide
  obtain ⟨fs, hmap, hfinal, hsame, -⟩ := mapTasks_final letterMap 2 (by decide) hinput
  have hin : ∀ name ∈ [[120], [121]], fs (.input name) = some (contents name) := by
    intro name hname
    rw [hsame]
    revert name
    decide
  have hmaps : ∀ m name, [[120], [121]][m]? = some name →
      MapFinal fs 2 m (letterMap name (contents name)) := by
    intro m name hm
    match m with
    | 0 =>
      obtain rfl := Option.some.inj hm
      exact hfinal (0, [120]) (by decide)
    | 1 =>
      obtain rfl := Option.some.inj hm
      exact hfinal (1, [121]) (by decide)
    | m + 2 => cases hm
  have hcount : ∀ key vs vs', vs.Perm vs' → countReduce key vs = countReduce key vs' :=
    fun _ _ _ hp => by simp only [countReduce, hp.length_eq]
  have htasks : [1, 0].Perm (List.range 2) := by decide
  obtain ⟨-, -, fs', -, hrun, -, hperm, -⟩ := distributed_perm_sequential insertionSorting
    insertionSorting (by decide) hin (by decide) hcount hmaps htasks
  exact ⟨fs, fs', hmap, hrun, hperm⟩

end RaftLabs.Mr
