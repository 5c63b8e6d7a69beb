import RaftLabs.Models.Kv
import RaftLabs.Porcupine.Parallel

/-! What the functions of the package answer about histories of operations and of events. -/
namespace RaftLabs.Porcupine
open Basis Models

variable {σ ι ο : Type}

section Sorting

theorem Entry.less_iff {a b : Entry ι ο} : a.less b ↔
    a.time < b.time ∨ (a.time = b.time ∧ a.kind = .callEntry ∧ b.kind = .returnEntry) := by
  by_cases h : a.time = b.time
  · simp [Entry.less, h]
  · simp [Entry.less, h]

/-- Insertion sort is a way to sort the entries. -/
def insertionSorting (ι ο : Type) : EntrySorting ι ο where
  sort := List.insertionSort fun a b => ¬ b.less a
  perm := List.perm_insertionSort _
  sorted entries := by
    have htotal : Std.Total fun a b : Entry ι ο => ¬ b.less a := ⟨fun a b => by
      simp only [Entry.less_iff]
      cases a.kind <;> cases b.kind <;> simp <;> omega⟩
    have htrans : IsTrans (Entry ι ο) fun a b => ¬ b.less a := ⟨fun a b c => by
      simp only [Entry.less_iff]
      cases a.kind <;> cases b.kind <;> cases c.kind <;> simp <;> omega⟩
    exact List.pairwise_insertionSort _ entries

end Sorting

/-- A put, a get that overlaps with it and sees its value, and an append to another key. -/
def overlapHistory : List KvOperation :=
  [⟨⟨1, "x", "a"⟩, 0, ⟨""⟩, 10⟩, ⟨⟨0, "x", ""⟩, 5, ⟨"a"⟩, 15⟩, ⟨⟨2, "y", "b"⟩, 3, ⟨""⟩, 4⟩]

/-- A get that misses a put which has returned. -/
def staleHistory : List KvOperation :=
  [⟨⟨1, "x", "a"⟩, 0, ⟨""⟩, 1⟩, ⟨⟨0, "x", ""⟩, 2, ⟨""⟩, 3⟩]

/-- The goroutines of two parts, of which the second is faster. -/
def twoPartsRun : List ParallelAction :=
  [.check 1 none, .check 0 none, .store 0, .store 1, .send 1, .receive, .send 0, .receive, .finish]

def onePartRun : List ParallelAction := [.check 0 none, .store 0, .send 0, .receive, .finish]

/-- The events of a put and a get that overlap. -/
def overlapEvents : List (Event KvInput KvOutput ℤ) :=
  [⟨.inl ⟨1, "x", "a"⟩, 7⟩, ⟨.inl ⟨0, "x", ""⟩, -3⟩, ⟨.inr ⟨""⟩, 7⟩, ⟨.inr ⟨"a"⟩, -3⟩]

/-- A search on the entries of a history ends without a fault. It finds a linearization only if
there is one, and it finds none only if there is none or the kill flag was set. -/
theorem checkSingle_operations (S : EntrySorting ι ο) {model : Filled σ ι ο} (hm : model.Lawful)
    {history : List (Operation ι ο)} (hwf : ∀ op ∈ history, op.call ≤ op.ret)
    (computePartial : Bool) (kill : ℕ → Bool) :
    ∃ ok longest,
      checkSingle model (makeEntries S history) computePartial kill = some (ok, longest) ∧
      (ok = true → model.spec.Linearizable history) ∧
      (ok = false → ¬ model.spec.Linearizable history ∨ ∃ k, kill k) := by
  obtain ⟨⟨ok, longest⟩, hres, -, hor⟩ :=
    (makeEntries_describes hwf).checkSingle hm computePartial kill
  refine ⟨ok, longest, hres, ?_⟩
  rcases hor with hv | ⟨rfl, hk⟩
  · have hiff : ok = true ↔ model.spec.Linearizable history := by
      simpa [List.map_get_finRange] using hv.linearizable
    refine ⟨hiff.mp, fun hno => Or.inl fun hl => ?_⟩
    rw [hiff.mpr hl] at hno
    cases hno
  · exact ⟨(by cases ·), fun _ => Or.inr hk⟩

/-- A run of `checkParallel` is short, it stops only at its end, and its answer is right. -/
theorem parallel_answer {T : Type} [LT T] {model : Filled σ ι ο} {history : List (List (Entry ι ο))}
    {verbose : Bool} {timeout : ℤ} {parts : List (List (Basis.Operation ι ο T))}
    (hm : model.Lawful) (hlen : parts.length = history.length)
    (hd : ∀ (i : ℕ) (entries : List (Entry ι ο)), history[i]? = some entries →
      Describes entries ((parts[i]?).getD []).get) {as : List ParallelAction} {s : Parallel}
    (hrun : exec (parallelStep model history verbose timeout) startParallel as = some s) :
    as.length ≤ 4 * parts.length + 3 ∧
      (parts ≠ [] ∨ timeout > 0 →
        (∀ a, parallelStep model history verbose timeout s a = none) → s.phase = .done) ∧
      (s.phase = .done →
        (s.result = .ok → ∀ part ∈ parts, model.spec.Linearizable part) ∧
        (s.result = .illegal → ∃ part ∈ parts, ¬ model.spec.Linearizable part) ∧
        (s.result = .unknown → timeout > 0)) := by
  have hinv : ParallelInv model history verbose timeout (fun i => (parts[i]?).getD []) s :=
    ParallelInv.exec hd hm hrun
  refine ⟨?_, fun hwait hstuck => ?_, fun hp => ?_⟩
  · have := length_add_le_of_exec (μ := parallelWork history.length)
      (fun _ _ _ hs hi => ParallelInv.step hd hm hi hs)
      (fun _ _ _ hs hi => parallelWork_lt hi.unsent hs) hrun startParallel_inv
    rw [parallelWork_start] at this
    omega
  · by_contra hnot
    have hne : history ≠ [] ∨ timeout > 0 := hwait.imp_left fun h hnil => h
      (List.eq_nil_of_length_eq_zero (by rw [hlen, hnil, List.length_nil]))
    obtain ⟨a, s', hs⟩ := hinv.exists_step hd hm hne hnot
    rw [hstuck a] at hs
    cases hs
  · obtain ⟨hok, hno, hunknown⟩ := hinv.result_cases hp
    refine ⟨fun h part hpart => ?_, fun h => ?_, hunknown⟩
    · obtain ⟨i, hi⟩ := List.mem_iff_getElem?.mp hpart
      have := hok h i (hlen ▸ (List.getElem?_eq_some_iff.mp hi).1)
      rwa [hi] at this
    · obtain ⟨i, hi, hpart⟩ := hno h
      have hget := List.getElem?_eq_getElem (hlen.symm ▸ hi)
      rw [hget] at hpart
      exact ⟨_, List.getElem_mem _, hpart⟩

theorem checkSingle_operations_overlapHistory :
    (∀ op ∈ overlapHistory, op.call ≤ op.ret) ∧ ∃ ok longest,
      checkSingle (fillDefault kvModel) (makeEntries (insertionSorting _ _) overlapHistory) false
        (fun _ => false) = some (ok, longest) ∧
      (ok = true → (fillDefault kvModel).spec.Linearizable overlapHistory) ∧
      (ok = false → ¬ (fillDefault kvModel).spec.Linearizable overlapHistory ∨ ∃ _ : ℕ, false) :=
  ⟨by decide, checkSingle_operations _ kvModel_lawful (by decide) false fun _ => false⟩

/-- A run of the parts that the labels describe. -/
theorem exists_exec {step : Parallel → ParallelAction → Option Parallel}
    {as : List ParallelAction} {phase : Phase} {result : CheckResult}
    (h : (exec step startParallel as).map (fun s => (s.phase, s.result)) = some (phase, result)) :
    ∃ s, exec step startParallel as = some s ∧ s.phase = phase ∧ s.result = result := by
  obtain ⟨s, hs, heq⟩ := Option.map_eq_some_iff.mp h
  obtain ⟨hp, hr⟩ := Prod.mk.inj heq
  exact ⟨s, hs, hp, hr⟩

section Check
variable [DecidableEq σ] (S : EntrySorting ι ο) (model : Model σ ι ο)

/-- The run of `checkOperations`. -/
def checkOperationsStep (history : List (Operation ι ο)) (verbose : Bool) (timeout : ℤ) :
    Parallel → ParallelAction → Option Parallel :=
  let model := fillDefault model
  parallelStep model ((model.partition history).map (makeEntries S)) verbose timeout

/-- The run of `checkEvents`. -/
def checkEventsStep (history : List (Event ι ο ℤ)) (verbose : Bool) (timeout : ℤ) :
    Parallel → ParallelAction → Option Parallel :=
  let model := fillDefault model
  parallelStep model ((model.partitionEvent history).map fun part => convertEntries (renumber part))
    verbose timeout

variable {S model}

/-- The parts of a history of operations, named by their numbers. -/
theorem describes_operations {parts : List (List (Operation ι ο))}
    (hwf : ∀ part ∈ parts, ∀ op ∈ part, op.call ≤ op.ret) (i : ℕ) (entries : List (Entry ι ο))
    (hi : (parts.map (makeEntries S))[i]? = some entries) :
    Describes entries ((parts[i]?).getD []).get := by
  rw [List.getElem?_map] at hi
  obtain ⟨part, hpart, rfl⟩ := Option.map_eq_some_iff.mp hi
  rw [hpart]
  exact makeEntries_describes (hwf part (List.mem_of_getElem? hpart))

theorem describes_events {parts : List (List (Event ι ο ℤ))} (hwf : ∀ part ∈ parts, WellFormed part)
    (i : ℕ) (entries : List (Entry ι ο))
    (hi : (parts.map fun part => convertEntries (renumber part))[i]? = some entries) :
    Describes entries (((parts.map eventOperations)[i]?).getD []).get := by
  rw [List.getElem?_map] at hi
  obtain ⟨part, hpart, rfl⟩ := Option.map_eq_some_iff.mp hi
  rw [List.getElem?_map, hpart]
  exact (hwf part (List.mem_of_getElem? hpart)).describes

/-- A run of `checkOperations` has few steps, ends with an answer if there is a part or a timeout,
and says `Ok` or `Illegal` only rightly. -/
theorem checkOperations_answer (hm : (fillDefault model).Lawful) {history : List (Operation ι ο)}
    (hwf : ∀ part ∈ (fillDefault model).partition history, ∀ op ∈ part, op.call ≤ op.ret)
    {verbose : Bool} {timeout : ℤ} {as : List ParallelAction} {s : Parallel}
    (hrun : exec (checkOperationsStep S model history verbose timeout) startParallel as = some s) :
    as.length ≤ 4 * ((fillDefault model).partition history).length + 3 ∧
      ((fillDefault model).partition history ≠ [] ∨ timeout > 0 →
        (∀ a, checkOperationsStep S model history verbose timeout s a = none) →
          s.phase = .done) ∧
      (s.phase = .done →
        (s.result = .ok → ∀ part ∈ (fillDefault model).partition history,
          (fillDefault model).spec.Linearizable part) ∧
        (s.result = .illegal → ∃ part ∈ (fillDefault model).partition history,
          ¬ (fillDefault model).spec.Linearizable part) ∧
        (s.result = .unknown → timeout > 0)) :=
  parallel_answer hm (by simp) (describes_operations hwf) hrun

theorem checkOperations_answer_overlapHistory :
    ∃ s, exec (checkOperationsStep (insertionSorting _ _) kvModel overlapHistory true 0)
        startParallel twoPartsRun = some s ∧ s.phase = .done ∧ s.result = .ok ∧
      ∀ part ∈ kvPartition overlapHistory, (fillDefault kvModel).spec.Linearizable part := by
  have hrun : (exec (checkOperationsStep (insertionSorting _ _) kvModel overlapHistory true 0)
      startParallel twoPartsRun).map (fun s => (s.phase, s.result)) = some (.done, .ok) := by decide
  obtain ⟨s, hs, hp, hr⟩ := exists_exec hrun
  exact ⟨s, hs, hp, hr, ((checkOperations_answer kvModel_lawful (by decide) hs).2.2 hp).1 hr⟩

/-- A run of `checkEvents` on events in which every operation returns once, after its call, has
few steps, ends with an answer if there is a part or a timeout, and says `Ok` or `Illegal` only
rightly. The renumbered events, which it works on, have the same operations. -/
theorem checkEvents_answer (hm : (fillDefault model).Lawful) {history : List (Event ι ο ℤ)}
    (hwf : ∀ part ∈ (fillDefault model).partitionEvent history, WellFormed part)
    {verbose : Bool} {timeout : ℤ} {as : List ParallelAction} {s : Parallel}
    (hrun : exec (checkEventsStep model history verbose timeout) startParallel as = some s) :
    as.length ≤ 4 * ((fillDefault model).partitionEvent history).length + 3 ∧
      ((fillDefault model).partitionEvent history ≠ [] ∨ timeout > 0 →
        (∀ a, checkEventsStep model history verbose timeout s a = none) → s.phase = .done) ∧
      (s.phase = .done →
        (s.result = .ok → ∀ part ∈ (fillDefault model).partitionEvent history,
          (fillDefault model).spec.Linearizable (eventOperations part)) ∧
        (s.result = .illegal → ∃ part ∈ (fillDefault model).partitionEvent history,
          ¬ (fillDefault model).spec.Linearizable (eventOperations part)) ∧
        (s.result = .unknown → timeout > 0)) ∧
      ∀ part ∈ (fillDefault model).partitionEvent history,
        eventOperations (renumber part) = eventOperations part := by
  obtain ⟨hsteps, hstuck, hdone⟩ := parallel_answer hm (by simp) (describes_events hwf) hrun
  refine ⟨by simpa using hsteps, fun hwait => hstuck (hwait.imp_left fun hne => by simpa using hne),
    fun hp => ?_, fun part hpart => (hwf part hpart).eventOperations_renumber⟩
  simpa using hdone hp

theorem checkEvents_answer_overlapEvents :
    ∃ s, exec (checkEventsStep kvModel overlapEvents false 0) startParallel onePartRun = some s ∧
      s.phase = .done ∧ s.result = .ok ∧
      ∀ part ∈ [overlapEvents], (fillDefault kvModel).spec.Linearizable (eventOperations part) := by
  have hrun : (exec (checkEventsStep kvModel overlapEvents false 0) startParallel onePartRun).map
      (fun s => (s.phase, s.result)) = some (.done, .ok) := by decide
  have hwf : ∀ part ∈ (fillDefault kvModel).partitionEvent overlapEvents, WellFormed part := by
    intro part hpart
    obtain rfl := List.mem_singleton.mp hpart
    exact ⟨by decide, by decide, by decide⟩
  obtain ⟨s, hs, hp, hr⟩ := exists_exec hrun
  exact ⟨s, hs, hp, hr, ((checkEvents_answer kvModel_lawful hwf hs).2.2.1 hp).1 hr⟩

/-- The information of a verbose run: each sequence is the beginning of a linearization of its
part, and if the run did not time out then it has, for each operation of such a beginning, one
that is as long. -/
theorem checkOperations_partials (hm : (fillDefault model).Lawful) {history : List (Operation ι ο)}
    (hwf : ∀ part ∈ (fillDefault model).partition history, ∀ op ∈ part, op.call ≤ op.ret)
    {timeout : ℤ} {as : List ParallelAction} {s : Parallel}
    (hrun : exec (checkOperationsStep S model history true timeout) startParallel as = some s)
    (hp : s.phase = .done) {k : ℕ} {part : List (Operation ι ο)}
    (hk : ((fillDefault model).partition history)[k]? = some part) :
    (∀ seq ∈ partials part.length (s.longest k), ∃ l, seq = l.map Fin.val ∧
      (fillDefault model).spec.PartiallyLinearizes part.get l) ∧
    (s.timedOut = false → ∀ l, (fillDefault model).spec.PartiallyLinearizes part.get l → ∀ j ∈ l,
      ∃ seq ∈ partials part.length (s.longest k), ↑j ∈ seq ∧ l.length ≤ seq.length) := by
  have hinv := ParallelInv.exec (describes_operations hwf) hm hrun
  have hlen := (List.getElem?_eq_some_iff.mp hk).1
  have h := hinv.partials hp (i := k) (by simpa using hlen)
  rwa [hk] at h

theorem checkOperations_partials_staleHistory :
    ∃ s, exec (checkOperationsStep (insertionSorting _ _) kvModel staleHistory true 0) startParallel
        onePartRun = some s ∧ s.phase = .done ∧ s.result = .illegal ∧
      ∀ seq ∈ partials 2 (s.longest 0), ∃ l, seq = l.map Fin.val ∧
        (fillDefault kvModel).spec.PartiallyLinearizes staleHistory.get l := by
  have hrun : (exec (checkOperationsStep (insertionSorting _ _) kvModel staleHistory true 0)
      startParallel onePartRun).map (fun s => (s.phase, s.result)) = some (.done, .illegal) := by
    decide
  have hpart : ((fillDefault kvModel).partition staleHistory)[0]? = some staleHistory := by decide
  obtain ⟨s, hs, hp, hr⟩ := exists_exec hrun
  exact ⟨s, hs, hp, hr, (checkOperations_partials kvModel_lawful (by decide) hs hp hpart).1⟩

/-- The check of a key/value history. It has few steps, it answers `Ok` or `Illegal` only rightly
about the history as a whole, and it ends, except that without a timeout it waits for ever on an
empty history. -/
theorem checkOperations_kvModel {S : EntrySorting KvInput KvOutput} {history : List KvOperation}
    (hwf : ∀ op ∈ history, op.call ≤ op.ret) {verbose : Bool} {timeout : ℤ}
    {as : List ParallelAction} {s : Parallel}
    (hrun : exec (checkOperationsStep S kvModel history verbose timeout) startParallel as =
      some s) :
    as.length ≤ 4 * (kvPartition history).length + 3 ∧
      (history ≠ [] ∨ timeout > 0 →
        (∀ a, checkOperationsStep S kvModel history verbose timeout s a = none) →
          s.phase = .done) ∧
      (history = [] → timeout ≤ 0 → s.phase ≠ .done) ∧
      (s.phase = .done →
        (s.result = .ok → kvStore.Linearizable history) ∧
        (s.result = .illegal → ¬ kvStore.Linearizable history) ∧
        (s.result = .unknown → timeout > 0)) := by
  have hparts : ∀ part ∈ (fillDefault kvModel).partition history, ∀ op ∈ part,
      op.call ≤ op.ret := fun part hpart op hop => hwf op (kvPartition_subset hpart hop)
  obtain ⟨hsteps, hstuck, hdone⟩ :=
    parallel_answer kvModel_lawful (by simp) (describes_operations hparts) hrun
  refine ⟨hsteps, fun hwait => hstuck (hwait.imp_left fun hne hnil => ?_), fun hnil htime => ?_,
    fun hp => ?_⟩
  · obtain ⟨op, hop⟩ := List.exists_mem_of_ne_nil history hne
    have hmem := mem_kvPartition.mpr ⟨_, ⟨op, hop, rfl⟩, rfl⟩
    rw [show kvPartition history = [] from hnil] at hmem
    cases hmem
  · subst hnil
    -- no step is possible at the start
    cases as with
    | nil =>
      obtain rfl := Option.some.inj hrun
      simp [startParallel]
    | cons a as =>
      obtain ⟨t, ht, -⟩ := exec_cons hrun
      change parallelStep (fillDefault kvModel) [] verbose timeout startParallel a = some t at ht
      rcases parallelStep_cases ht with ⟨i, _, _, _, _, -, hi, -⟩ | ⟨_, _, _, -, hg, -⟩ |
        ⟨_, _, -, hg, -⟩ | ⟨_, _, -, -, hr, -⟩ | ⟨-, -, ht, -⟩ | ⟨-, hp, -⟩ |
        ⟨_, _, -, hr, -⟩ | ⟨-, hp, -⟩
      · cases hi
      · cases hg
      · cases hg
      · cases hr
      · omega
      · cases hp
      · cases hr
      · cases hp
  · obtain ⟨hok, hno, hunknown⟩ := hdone hp
    refine ⟨fun h => (kvPartition_linearizable_iff hwf).mp (hok h), fun h hlin => ?_, hunknown⟩
    obtain ⟨part, hpart, hbad⟩ := hno h
    exact hbad ((kvPartition_linearizable_iff hwf).mpr hlin part hpart)

theorem checkOperations_kvModel_staleHistory :
    ∃ s, exec (checkOperationsStep (insertionSorting _ _) kvModel staleHistory false 0)
        startParallel [.check 0 none, .store 0, .send 0, .receive, .kill, .finish] = some s ∧
      s.phase = .done ∧ s.result = .illegal ∧ ¬ kvStore.Linearizable staleHistory := by
  have hrun : (exec (checkOperationsStep (insertionSorting _ _) kvModel staleHistory false 0)
      startParallel [.check 0 none, .store 0, .send 0, .receive, .kill, .finish]).map
        (fun s => (s.phase, s.result)) = some (.done, .illegal) := by decide
  obtain ⟨s, hs, hp, hr⟩ := exists_exec hrun
  exact ⟨s, hs, hp, hr, ((checkOperations_kvModel (by decide) hs).2.2.2 hp).2.1 hr⟩

end Check

end RaftLabs.Porcupine
