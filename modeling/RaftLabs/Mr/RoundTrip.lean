import RaftLabs.Mr.Worker

/-! The intermediate files. A pair is written as a line with a tab, and the reader splits the text
at newlines and tabs. It gets back what was written if and only if no key or value has one of these
separators in it and no line is blank. -/
namespace RaftLabs.Mr

open Basis

/-! The text of the intermediate files. -/

/-- Neither separator of the text format is in the key or in the value. -/
def KeyValue.Plain (kv : KeyValue) : Prop :=
  tab ∉ kv.key ∧ newline ∉ kv.key ∧ tab ∉ kv.value ∧ newline ∉ kv.value

instance KeyValue.Plain.decidable (kv : KeyValue) : Decidable kv.Plain :=
  inferInstanceAs (Decidable (_ ∧ _ ∧ _ ∧ _))

/-- A line that holds the pair is passed over by the reader. -/
def KeyValue.empty (kv : KeyValue) : Bool := blank kv.key && blank kv.value

/-- What can be written to an intermediate file and read back. -/
def KeyValue.Clean (kv : KeyValue) : Prop := kv.Plain ∧ kv.empty = false

instance KeyValue.Clean.decidable (kv : KeyValue) : Decidable kv.Clean :=
  inferInstanceAs (Decidable (_ ∧ _))

theorem tab_notMem_whiteSpace {s : GoString} (h : s ∈ whiteSpace) (htab : tab ∈ s) :
    s = [tab] := by
  revert s
  decide

theorem blank_tab_cons (s : GoString) : blank (tab :: s) = blank s := by
  have hone : [tab] ∈ whiteSpace := by decide
  have htwo : ∀ b, [tab, b] ∉ whiteSpace := fun b h => by
    have heq := tab_notMem_whiteSpace h List.mem_cons_self
    cases heq
  have hthree : ∀ b c, [tab, b, c] ∉ whiteSpace := fun b c h => by
    have heq := tab_notMem_whiteSpace h List.mem_cons_self
    cases heq
  match s with
  | [] => rfl
  | [b] => simp [blank, hone, htwo]
  | b :: c :: s => simp [blank, hone, htwo, hthree]

theorem blank_cons (a b c : UInt8) (s : GoString) : blank (a :: b :: c :: s) =
    ([a] ∈ whiteSpace && blank (b :: c :: s) || [a, b] ∈ whiteSpace && blank (c :: s) ||
      [a, b, c] ∈ whiteSpace && blank s) := by
  rw [blank]

/-- No encoding of white space runs over a tab. -/
theorem blank_append_tab (k v : GoString) :
    blank (k ++ tab :: v) = (blank k && blank v) := by
  have htwo : ∀ a, [a, tab] ∉ whiteSpace := fun a h => by
    have heq := tab_notMem_whiteSpace h (by simp)
    cases heq
  have hthree : ∀ a c, [a, tab, c] ∉ whiteSpace := fun a c h => by
    have heq := tab_notMem_whiteSpace h (by simp)
    cases heq
  have hlast : ∀ a b, [a, b, tab] ∉ whiteSpace := fun a b h => by
    have heq := tab_notMem_whiteSpace h (by simp)
    cases heq
  fun_induction blank k with
  | case1 => simp [blank_tab_cons]
  | case2 a =>
    cases v with
    | nil => simp [blank, htwo, show [tab] ∈ whiteSpace by decide]
    | cons c v => simp [blank, htwo, hthree, blank_tab_cons]
  | case3 a b ih =>
    simp only [List.cons_append, List.nil_append] at ih ⊢
    rw [blank_cons, ih, blank_tab_cons]
    simp [blank, hlast, Bool.and_or_distrib_right, Bool.and_assoc]
  | case4 a b c s ih₁ ih₂ ih₃ =>
    simp only [List.cons_append] at ih₁ ih₂ ih₃ ⊢
    rw [blank_cons, ih₁, ih₂, ih₃]
    simp [Bool.and_or_distrib_right, Bool.and_assoc]

/-- A line of an intermediate file without its newline. -/
def KeyValue.line (kv : KeyValue) : GoString := kv.key ++ tab :: kv.value

/-- What the loop of `doReduceTask` appends for a line with a tab or a blank line. -/
def linePairs (line : GoString) : List KeyValue :=
  if blank line then []
  else
    match line.splitOn tab with
    | key :: value :: _ => [⟨key, value⟩]
    | _ => []

section Plain
variable {kv : KeyValue} (h : kv.Plain)
include h

theorem KeyValue.Plain.splitOn_newline : kv.line.splitOn newline = [kv.line] := by
  obtain ⟨-, hk, -, hv⟩ := h
  apply List.splitOn_eq_singleton
  simp only [line, List.mem_append, List.mem_cons, not_or]
  exact ⟨hk, by decide, hv⟩

theorem KeyValue.Plain.splitOn_tab : kv.line.splitOn tab = [kv.key, kv.value] := by
  obtain ⟨hk, -, hv, -⟩ := h
  have hsplit := List.splitOnP_append_cons (p := (· == tab)) kv.key kv.value (beq_self_eq_true tab)
  change kv.line.splitOn tab = kv.key.splitOn tab ++ kv.value.splitOn tab at hsplit
  rw [hsplit, List.splitOn_eq_singleton hk, List.splitOn_eq_singleton hv]
  rfl

theorem KeyValue.Plain.linePairs_line :
    linePairs kv.line = if kv.empty then [] else [kv] := by
  unfold linePairs
  rw [h.splitOn_tab, line, blank_append_tab]
  rfl

end Plain

section File
variable {kva : List KeyValue} (h : ∀ kv ∈ kva, kv.Plain)
include h

/-- The lines of an intermediate file. -/
theorem splitOn_intermediate :
    (kva.flatMap intermediateLine).splitOn newline = kva.map KeyValue.line ++ [[]] := by
  have hsplit := splitOn_terminated newline KeyValue.line kva
  have hlines : (kva.flatMap fun kv => kv.line.splitOn newline) = kva.map KeyValue.line := by
    rw [List.flatMap_congr fun kv hkv => (h kv hkv).splitOn_newline]
    exact List.map_eq_flatMap.symm
  rw [hlines] at hsplit
  exact hsplit

/-- The pairs of an intermediate file are read back, except those whose line is blank. -/
theorem linePairs_intermediate : (kva.map KeyValue.line ++ [[]]).flatMap linePairs =
    kva.filter fun kv => !kv.empty := by
  have hfilter (l : List KeyValue) : (l.flatMap fun kv => if kv.empty then [] else [kv]) =
      l.filter fun kv => !kv.empty := by
    induction l with
    | nil => rfl
    | cons kv l ih => cases he : kv.empty <;> simp [he, ih]
  rw [List.flatMap_append, List.flatMap_map,
    List.flatMap_congr fun kv hkv => (h kv hkv).linePairs_line, hfilter]
  simp [linePairs, blank]

end File

/-- The loop of `doReduceTask` does not fail on lines that are blank or have a tab. -/
theorem parseLines_eq {lines : List GoString}
    (h : ∀ line ∈ lines, line = [] ∨ ∃ kv : KeyValue, kv.Plain ∧ line = kv.line) :
    parseLines lines = some (lines.flatMap linePairs) := by
  refine foldlM_eq_append (f := linePairs) ?_ []
  intro acc line hline
  rcases h line hline with rfl | ⟨kv, hkv, rfl⟩
  · simp [linePairs, blank]
  · unfold linePairs
    rw [hkv.splitOn_tab]
    split_ifs
    · rw [List.append_nil]
    · rfl

/-! The files. -/

theorem hashedkva_eq_filter (nReduce : ℕ) (kva : List KeyValue) (i : ℕ) :
    hashedkva nReduce kva i = kva.filter fun kv => ihash kv.key % nReduce = i := by
  induction kva using List.reverseRecOn with
  | nil => rfl
  | append_singleton kva kv ih =>
    unfold hashedkva at ih ⊢
    rw [List.foldl_append, List.foldl_cons, List.foldl_nil, List.filter_append]
    by_cases hi : ihash kv.key % nReduce = i
    · subst hi
      simp [ih]
    · simp [Function.update_of_ne (Ne.symm hi), ih, hi]

/-- The files that `writeToFile` has written. -/
theorem writeToFile_eq (m nReduce : ℕ) (kva : List KeyValue) (fs : FileSystem) (i : ℕ) :
    writeToFile m nReduce kva fs (.tmpMapOutFile m i) =
      if i < nReduce then some ((hashedkva nReduce kva i).flatMap intermediateLine)
      else fs (.tmpMapOutFile m i) := by
  unfold writeToFile
  generalize hc : hashedkva nReduce kva = bucket
  clear hc
  induction nReduce with
  | zero => rfl
  | succ n ih =>
    rw [List.range_succ, List.foldl_append, List.foldl_cons, List.foldl_nil, FileSystem.write]
    by_cases hi : i = n
    · subst hi
      simp
    · rw [Function.update_of_ne (by simpa using hi), ih]
      congr 1
      exact propext (by omega)

/-- The files of map task `m` are final: they are those that `writeToFile` has written. -/
def MapFinal (fs : FileSystem) (nReduce m : ℕ) (kva : List KeyValue) : Prop :=
  ∀ i < nReduce, fs (.finalMapOutFile m i) =
    writeToFile m nReduce kva (fun _ => none) (.tmpMapOutFile m i)

theorem MapFinal.eq_some {fs : FileSystem} {nReduce m i : ℕ} {kva : List KeyValue}
    (h : MapFinal fs nReduce m kva) (hi : i < nReduce) :
    fs (.finalMapOutFile m i) = some ((hashedkva nReduce kva i).flatMap intermediateLine) := by
  rw [h i hi, writeToFile_eq, if_pos hi]

/-! The round trip. -/

/-- The pairs that a reduce task reads, before it sorts them. -/
def readPairs (taskId nMap : ℕ) (fs : FileSystem) : Option (List KeyValue) :=
  (readIntermediate taskId nMap fs).bind parseLines

/-- The pairs whose keys belong to reduce task `i`. -/
def bucket (nReduce : ℕ) (kva : List KeyValue) (i : ℕ) : List KeyValue :=
  kva.filter fun kv => ihash kv.key % nReduce = i

/-- The buckets of all reduce tasks hold every pair once. -/
theorem bucket_perm {nReduce : ℕ} (hn : 1 ≤ nReduce) (kva : List KeyValue) :
    ((List.range nReduce).flatMap (bucket nReduce kva)).Perm kva := by
  unfold bucket
  apply range_flatMap_filter_perm fun kv : KeyValue => ihash kv.key % nReduce
  intro kv _
  exact Nat.mod_lt _ hn

/-- What a successful run of the loop of `doReduceTask` has read. -/
theorem parseLines_some {lines : List GoString} {kva : List KeyValue}
    (h : parseLines lines = some kva) : kva = lines.flatMap linePairs := by
  refine foldlM_append_eq_some (f := linePairs) ?_ h
  intro acc line acc' hstep
  unfold linePairs
  split_ifs at hstep ⊢
  · rw [← Option.some.inj hstep, List.append_nil]
  · match hsplit : line.splitOn tab with
    | [] | [_] =>
      rw [hsplit] at hstep
      cases hstep
    | key :: value :: rest =>
      rw [hsplit] at hstep
      exact (Option.some.inj hstep).symm

/-- A pair that is read from a line has no separators. -/
theorem plain_of_mem_linePairs {line : GoString} {kv : KeyValue} (hline : newline ∉ line)
    (h : kv ∈ linePairs line) : kv.Plain := by
  unfold linePairs at h
  split_ifs at h
  · cases h
  · split at h
    · rename_i key value rest hsplit
      obtain rfl := List.mem_singleton.mp h
      have hkey : key ∈ line.splitOn tab := by simp [hsplit]
      have hvalue : value ∈ line.splitOn tab := by simp [hsplit]
      obtain ⟨hktab, hksub⟩ := mem_splitOn hkey
      obtain ⟨hvtab, hvsub⟩ := mem_splitOn hvalue
      exact ⟨hktab, fun hmem => hline (hksub hmem), hvtab, fun hmem => hline (hvsub hmem)⟩
    · cases h

section RoundTrip
variable {nMap nReduce i : ℕ} {kvas : ℕ → List KeyValue} {fs : FileSystem}
  (hfinal : ∀ m < nMap, MapFinal fs nReduce m (kvas m))
include hfinal

theorem readIntermediate_eq (hi : i < nReduce) : readIntermediate i nMap fs =
    some ((List.range nMap).flatMap fun m =>
      ((hashedkva nReduce (kvas m) i).flatMap intermediateLine).splitOn newline) := by
  refine foldlM_eq_append (f := fun m =>
    ((hashedkva nReduce (kvas m) i).flatMap intermediateLine).splitOn newline) ?_ []
  intro acc m hm
  rw [(hfinal m (List.mem_range.mp hm)).eq_some hi]
  rfl

/-- Pairs without separators are read back from the file of their bucket, except those whose line
is blank. -/
theorem readPairs_eq (hi : i < nReduce) (hplain : ∀ m < nMap, ∀ kv ∈ kvas m, kv.Plain) :
    readPairs i nMap fs =
      some ((bucket nReduce ((List.range nMap).flatMap kvas) i).filter fun kv => !kv.empty) := by
  have hpart : ∀ m ∈ List.range nMap, ∀ kv ∈ hashedkva nReduce (kvas m) i, kv.Plain := by
    intro m hm kv hkv
    rw [hashedkva_eq_filter] at hkv
    exact hplain m (List.mem_range.mp hm) kv (List.mem_filter.mp hkv).1
  have hlines : (List.range nMap).flatMap (fun m =>
      ((hashedkva nReduce (kvas m) i).flatMap intermediateLine).splitOn newline) =
      (List.range nMap).flatMap fun m =>
        (hashedkva nReduce (kvas m) i).map KeyValue.line ++ [[]] :=
    List.flatMap_congr fun m hm => splitOn_intermediate (hpart m hm)
  have hparse : parseLines ((List.range nMap).flatMap fun m =>
      (hashedkva nReduce (kvas m) i).map KeyValue.line ++ [[]]) =
      some ((List.range nMap).flatMap fun m =>
        (hashedkva nReduce (kvas m) i).filter fun kv => !kv.empty) := by
    rw [parseLines_eq]
    · rw [List.flatMap_assoc, List.flatMap_congr fun m hm => linePairs_intermediate (hpart m hm)]
    · intro line hline
      obtain ⟨m, hm, hline⟩ := List.mem_flatMap.mp hline
      rcases List.mem_append.mp hline with hline | hline
      · obtain ⟨kv, hkv, rfl⟩ := List.mem_map.mp hline
        exact Or.inr ⟨kv, hpart m hm kv hkv, rfl⟩
      · exact Or.inl (List.mem_singleton.mp hline)
  rw [readPairs, readIntermediate_eq hfinal hi, Option.bind_some, hlines, hparse]
  simp only [hashedkva_eq_filter, bucket, List.filter_flatMap]

/-- A reduce task reads the pairs of its bucket, in the order of the map tasks. -/
theorem readPairs_of_clean (hi : i < nReduce) (hclean : ∀ m < nMap, ∀ kv ∈ kvas m, kv.Clean) :
    readPairs i nMap fs = some (bucket nReduce ((List.range nMap).flatMap kvas) i) := by
  rw [readPairs_eq hfinal hi fun m hm kv hkv => (hclean m hm kv hkv).1]
  refine congrArg some (List.filter_eq_self.mpr fun kv hkv => ?_)
  obtain ⟨m, hm, hkv⟩ := List.mem_flatMap.mp (List.mem_filter.mp hkv).1
  rw [(hclean m (List.mem_range.mp hm) kv hkv).2]
  rfl

/-- Whatever a reduce task reads has no separators. -/
theorem plain_of_readPairs (hi : i < nReduce) {kva : List KeyValue}
    (hread : readPairs i nMap fs = some kva) : ∀ kv ∈ kva, kv.Plain := by
  rw [readPairs, readIntermediate_eq hfinal hi, Option.bind_some] at hread
  rw [parseLines_some hread]
  intro kv hkv
  obtain ⟨line, hline, hkv⟩ := List.mem_flatMap.mp hkv
  obtain ⟨m, -, hline⟩ := List.mem_flatMap.mp hline
  exact plain_of_mem_linePairs (mem_splitOn hline).1 hkv

end RoundTrip

/-- The reduce tasks read, without failing, the pairs of `kva`, each in the bucket of its key. -/
structure ReadsBack (nReduce nMap : ℕ) (fs : FileSystem) (kva : List KeyValue)
    (read : ℕ → List KeyValue) : Prop where
  succeeds : ∀ i < nReduce, readPairs i nMap fs = some (read i)
  perm : ((List.range nReduce).flatMap read).Perm kva
  hashed : ∀ i < nReduce, ∀ kv ∈ read i, ihash kv.key % nReduce = i

/-- A pair with a separator in it is read by no reduce task, and a blank one is passed over. -/
theorem ReadsBack.clean {nMap nReduce : ℕ} {kvas : ℕ → List KeyValue} {fs : FileSystem}
    {read : ℕ → List KeyValue} (hn : 1 ≤ nReduce)
    (hfinal : ∀ m < nMap, MapFinal fs nReduce m (kvas m))
    (h : ReadsBack nReduce nMap fs ((List.range nMap).flatMap kvas) read) :
    ∀ m < nMap, ∀ kv ∈ kvas m, kv.Clean := by
  set kva := (List.range nMap).flatMap kvas with hkva
  have hmem : ∀ m < nMap, ∀ kv ∈ kvas m, kv ∈ kva := fun m hm kv hkv =>
    List.mem_flatMap.mpr ⟨m, List.mem_range.mpr hm, hkv⟩
  have hplain : ∀ kv ∈ kva, kv.Plain := by
    intro kv hkv
    obtain ⟨i, hi, hkv⟩ := List.mem_flatMap.mp (h.perm.mem_iff.mpr hkv)
    have hi := List.mem_range.mp hi
    exact plain_of_readPairs hfinal hi (h.succeeds i hi) kv hkv
  have hread : ∀ i ∈ List.range nReduce,
      read i = (bucket nReduce kva i).filter fun kv => !kv.empty := by
    intro i hi
    have hi := List.mem_range.mp hi
    have heq := readPairs_eq hfinal hi fun m hm kv hkv => hplain kv (hmem m hm kv hkv)
    exact Option.some.inj ((h.succeeds i hi).symm.trans heq)
  -- what is read is what is not blank, so nothing is blank
  have hkept : (kva.filter fun kv => !kv.empty).Perm kva := by
    have hperm := h.perm
    rw [List.flatMap_congr hread, ← List.filter_flatMap] at hperm
    exact ((bucket_perm hn kva).filter _).symm.trans hperm
  have hsome : ∀ kv ∈ kva, (!kv.empty) = true :=
    List.filter_eq_self.mp (List.filter_sublist.eq_of_length hkept.length_eq)
  intro m hm kv hkv
  have hne := hsome kv (hmem m hm kv hkv)
  exact ⟨hplain kv (hmem m hm kv hkv), by simpa using hne⟩

/-- The round trip through the intermediate files: the reduce tasks together read back exactly the
pairs that the map tasks have written with `writeToFile` if and only if no key or value has a tab or
a newline in it and no pair is blank. -/
theorem intermediate_roundTrip (nMap nReduce : ℕ) {kvas : ℕ → List KeyValue} {fs : FileSystem}
    (hn : 1 ≤ nReduce) (hfinal : ∀ m < nMap, MapFinal fs nReduce m (kvas m)) :
    (∃ read, ReadsBack nReduce nMap fs ((List.range nMap).flatMap kvas) read) ↔
      ∀ m < nMap, ∀ kv ∈ kvas m, kv.Clean := by
  constructor
  · rintro ⟨read, h⟩
    exact h.clean hn hfinal
  · intro hclean
    refine ⟨bucket nReduce ((List.range nMap).flatMap kvas), ?_, bucket_perm hn _, ?_⟩
    · intro i hi
      exact readPairs_of_clean hfinal hi hclean
    · intro i _ kv hkv
      simpa [bucket] using (List.mem_filter.mp hkv).2

/-- The final files of map tasks that have emitted these pairs. -/
def finalFiles (nReduce : ℕ) (kvas : ℕ → List KeyValue) : FileSystem
  | .finalMapOutFile m i => writeToFile m nReduce (kvas m) (fun _ => none) (.tmpMapOutFile m i)
  | _ => none

theorem finalFiles_mapFinal (nReduce m : ℕ) (kvas : ℕ → List KeyValue) :
    MapFinal (finalFiles nReduce kvas) nReduce m (kvas m) := fun _ _ => rfl

/-- Two map tasks with three pairs, of which two have the same key; a value may be empty. -/
theorem intermediate_roundTrip_threePairs :
    ∃ read, ReadsBack 3 2 (finalFiles 3 fun m => if m = 0 then [⟨[97], [49]⟩, ⟨[98, 32], []⟩]
      else [⟨[97], [50]⟩]) [⟨[97], [49]⟩, ⟨[98, 32], []⟩, ⟨[97], [50]⟩] read :=
  (intermediate_roundTrip 2 3 (by decide) fun m _ => finalFiles_mapFinal 3 m _).mpr (by decide)

/-- A newline in a key makes `doReduceTask` read past the end of the fields of a line, what follows
a tab in a value is lost, and so is a pair of empty strings. -/
theorem unreadable_pairs :
    readPairs 0 1 (finalFiles 1 fun _ => [⟨[97, 10, 98], [49]⟩]) = none ∧
      readPairs 0 1 (finalFiles 1 fun _ => [⟨[97], [49, 9, 50]⟩]) = some [⟨[97], [49]⟩] ∧
      readPairs 0 1 (finalFiles 1 fun _ => [⟨[], []⟩]) = some [] := by
  decide

end RaftLabs.Mr
