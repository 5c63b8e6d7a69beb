import RaftLabs.Mr.Coordinator

/-! Where a task can be. Within its phase a task that has not been accepted is still to be sent,
in the queue, in the hands of an `AssignTask` call that has not filed it, or in the trace map.
The phase change looks at the queue and at the trace map only. -/
namespace RaftLabs.Mr

open Basis

/-- The order of the phases. -/
def Kind.before : Kind → Kind → Bool
  | .map, .reduce => true
  | .map, .done => true
  | .reduce, .done => true
  | _, _ => false

/-- The `AssignTask` call has taken a task from the queue and has not filed it. -/
def Stage.holds : Stage → Bool
  | .received _ => true
  | _ => false

namespace Coordinator

variable {c : Coordinator} {now : ℕ} {key : Key}

/-- A report of the task changes the phase: the queue is empty, and so is the trace map when the
task has been taken out of it, which needs a report in time. -/
def EndsPhase (c : Coordinator) (now : ℕ) (key : Key) : Prop :=
  c.phase ≠ .done ∧ c.taskQueue = [] ∧
    ∀ filed ∈ c.taskTraceMap.keys, filed = key ∧ c.expired now key = false

instance EndsPhase.decidable (c : Coordinator) (now : ℕ) (key : Key) :
    Decidable (c.EndsPhase now key) :=
  inferInstanceAs (Decidable (_ ∧ _ ∧ _))

theorem drained_iff : c.drained ↔ c.taskQueue = [] ∧ ∀ filed, filed ∉ c.taskTraceMap := by
  rw [drained, Bool.and_eq_true, List.isEmpty_iff, List.isEmpty_iff]
  simp only [AList.mem_keys, ← List.eq_nil_iff_forall_not_mem, AList.keys, List.keys,
    List.map_eq_nil_iff]

/-- What the report leaves. -/
theorem drained_reportTask : (c.reportTask now key).1.drained ↔ c.taskQueue = [] ∧
    ∀ filed ∈ c.taskTraceMap.keys, filed = key ∧ c.expired now key = false := by
  rw [drained_iff]
  cases hexp : c.expired now key with
  | false =>
    have hleft : (c.reportTask now key).1.taskTraceMap = c.taskTraceMap.erase key := by
      simp [reportTask, hexp]
    have hqueue : (c.reportTask now key).1.taskQueue = c.taskQueue := by
      simp [reportTask, hexp]
    simp only [hleft, hqueue, AList.mem_erase, ← AList.mem_keys, and_true, not_and', not_ne_iff]
  | true => simp [reportTask, hexp, AList.mem_keys]

theorem phase_reportTask : (c.reportTask now key).1.phase =
    if (c.reportTask now key).1.drained then
      match c.phase with
      | .map => .reduce
      | .reduce => .done
      | phase => phase
    else c.phase := by
  have hphase : (if c.expired now key then c
      else { c with taskTraceMap := c.taskTraceMap.erase key }).phase = c.phase := by
    split_ifs <;> rfl
  simp only [reportTask, nextPhase, hphase]
  rfl

/-- A report that changes the phase has found the queue and the trace map empty. -/
theorem reportTask_phase (c : Coordinator) (now : ℕ) (key : Key) :
    (c.reportTask now key).1.phase = c.phase ∨
      (c.reportTask now key).1.drained ∧
        (c.phase = .map ∧ (c.reportTask now key).1.phase = .reduce ∨
          c.phase = .reduce ∧ (c.reportTask now key).1.phase = .done) := by
  rw [phase_reportTask]
  split_ifs with hd
  · cases c.phase with
    | map => exact Or.inr ⟨hd, Or.inl ⟨rfl, rfl⟩⟩
    | reduce => exact Or.inr ⟨hd, Or.inr ⟨rfl, rfl⟩⟩
    | done => exact Or.inl rfl
  · exact Or.inl rfl

theorem reportTask_phase_ne :
    (c.reportTask now key).1.phase ≠ c.phase ↔ c.EndsPhase now key := by
  rw [EndsPhase, ← drained_reportTask, phase_reportTask]
  split_ifs with hd
  · cases c.phase <;> simp [hd]
  · simp [hd]

end Coordinator

namespace System

variable {W : Type*} {s s' : System W} {key : Key}

section Inversion
variable [DecidableEq W]

/-- What one step does, with what it has found. -/
inductive Move (s : System W) : Action W → System W → Prop
  | assignTask {w : W} {stage : Stage} (hw : s.workers w = .idle) (hrun : stage.task = none)
      (hheld : stage.holds = false) :
      Move s (.assignTask w) { s with workers := Function.update s.workers w stage }
  | receive {w : W} {task : TaskInfo} {rest : List TaskInfo} (hw : s.workers w = .waiting)
      (hq : s.coordinator.taskQueue = task :: rest) :
      Move s (.receive w) { s with
        coordinator := { s.coordinator with taskQueue := rest }
        workers := Function.update s.workers w
          (.received { task with deadline := s.now + maxTaskTime }) }
  | trace {w : W} {task : TaskInfo} (hw : s.workers w = .received task) :
      Move s (.trace w) (s.trace w task)
  | reportTask {w : W} {task : TaskInfo} (hw : s.workers w = .running task) :
      Move s (.reportTask w) (s.reportTask w task)
  | generate {i : ℕ} (hg : s.generator = some i) (hi : i < s.coordinator.nReduce) :
      Move s .generate { s with
        coordinator := { s.coordinator with
          taskQueue := s.coordinator.taskQueue ++ [Coordinator.reduceTask i] }
        generator := some (i + 1) }
  | retrieve {key : Key} {task : TaskInfo} {rest : List Key} (hsweep : s.unlocked = false)
      (hl : s.coordinator.taskTraceMap.lookup key = some task) :
      Move s (.visit key) { s with
        coordinator := { s.coordinator with
          taskTraceMap := s.coordinator.taskTraceMap.erase task.key
          taskQueue := s.coordinator.taskQueue ++ [task] }
        sweep := some rest }
  | pass {a : Action W} {now : ℕ} {sweep : Option (List Key)} (ha : a.reports = false)
      (hnow : s.now ≤ now) (hsweep : a.locks = false → s.unlocked → sweep = none) :
      Move s a { s with now := now, sweep := sweep }

theorem receive_cases {w : W} (hs : s.receive w = some s') :
    ∃ task rest, s.coordinator.taskQueue = task :: rest ∧ s' = { s with
      coordinator := { s.coordinator with taskQueue := rest }
      workers := Function.update s.workers w
        (.received { task with deadline := s.now + maxTaskTime }) } := by
  unfold receive at hs
  split at hs
  · cases hs
  · rename_i task rest hq
    exact ⟨task, rest, hq, (Option.some.inj hs).symm⟩

theorem trace_cases {w : W} (hs : s.step (.trace w) = some s') :
    ∃ task, s.workers w = .received task ∧ s' = s.trace w task := by
  simp only [step] at hs
  split at hs
  · rename_i task hw
    exact ⟨task, hw, (of_guarded hs).2.symm⟩
  · cases hs

theorem reportTask_cases {w : W} (hs : s.step (.reportTask w) = some s') :
    ∃ task, s.workers w = .running task ∧ s' = s.reportTask w task := by
  simp only [step] at hs
  split at hs
  · rename_i task hw
    exact ⟨task, hw, (of_guarded hs).2.symm⟩
  · cases hs

omit [DecidableEq W] in
theorem generate_cases (hs : s.generate = some s') :
    ∃ i, s.generator = some i ∧ i < s.coordinator.nReduce ∧ s' = { s with
      coordinator := { s.coordinator with
        taskQueue := s.coordinator.taskQueue ++ [Coordinator.reduceTask i] }
      generator := some (i + 1) } := by
  unfold generate at hs
  split at hs
  · cases hs
  · rename_i i hg
    split_ifs at hs with hi
    obtain ⟨c, hsend, rfl⟩ := Option.map_eq_some_iff.mp hs
    obtain ⟨-, rfl⟩ := of_guarded hsend
    exact ⟨i, hg, hi, rfl⟩

omit [DecidableEq W] in
/-- The sweep passes over an entry, or puts back the task that it finds there. -/
theorem visit_cases (hs : s.visit key = some s') : (∃ sweep, s' = { s with sweep := sweep }) ∨
    ∃ task rest, s.coordinator.taskTraceMap.lookup key = some task ∧ s' = { s with
      coordinator := { s.coordinator with
        taskTraceMap := s.coordinator.taskTraceMap.erase task.key
        taskQueue := s.coordinator.taskQueue ++ [task] }
      sweep := some rest } := by
  unfold visit at hs
  split at hs
  · cases hs
  · split_ifs at hs
    obtain ⟨c, hret, rfl⟩ := Option.map_eq_some_iff.mp hs
    unfold Coordinator.retrieve at hret
    split at hret
    · obtain rfl := Option.some.inj hret
      exact Or.inl ⟨_, rfl⟩
    · rename_i task hl
      split_ifs at hret
      · obtain ⟨-, rfl⟩ := of_guarded hret
        exact Or.inr ⟨task, _, hl, rfl⟩
      · obtain rfl := Option.some.inj hret
        exact Or.inl ⟨_, rfl⟩

omit [DecidableEq W] in
theorem visit_locked (hs : s.visit key = some s') : s.unlocked = false := by
  unfold visit at hs
  cases hsweep : s.sweep with
  | none => simp [hsweep] at hs
  | some rest => simp [unlocked, hsweep]

theorem step_move {a : Action W} (hs : s.step a = some s') : s.Move a s' := by
  cases a with
  | assignTask w =>
    obtain ⟨hg, rfl⟩ := of_guarded hs
    unfold System.assignTask
    split_ifs
    · exact .assignTask hg.1 rfl rfl
    · exact .assignTask hg.1 rfl rfl
  | receive w =>
    simp only [System.step] at hs
    split_ifs at hs with hw
    obtain ⟨task, rest, hq, rfl⟩ := receive_cases hs
    exact .receive hw hq
  | trace w =>
    obtain ⟨task, hw, rfl⟩ := trace_cases hs
    exact .trace hw
  | reportTask w =>
    obtain ⟨task, hw, rfl⟩ := reportTask_cases hs
    exact .reportTask hw
  | generate =>
    obtain ⟨i, hg, hi, rfl⟩ := generate_cases hs
    exact .generate hg hi
  | beginSweep =>
    obtain ⟨-, rfl⟩ := of_guarded hs
    unfold System.beginSweep
    split_ifs
    · exact .pass rfl le_rfl (by simp [Action.locks])
    · exact .pass rfl le_rfl (by simp [Action.locks])
  | visit key =>
    have hlocked := visit_locked hs
    rcases visit_cases hs with ⟨sweep, rfl⟩ | ⟨task, rest, hl, rfl⟩
    · exact .pass rfl le_rfl (by simp [hlocked])
    · exact .retrieve hlocked hl
  | endSweep =>
    obtain ⟨-, rfl⟩ := of_guarded hs
    exact .pass rfl le_rfl fun _ _ => rfl
  | tick d =>
    obtain rfl := Option.some.inj hs
    exact .pass rfl (Nat.le_add_right ..) (by simp [unlocked])

end Inversion

/-- The places where a task can be. -/
inductive Located (s : System W) (key : Key) : Prop
  | unsent {g : ℕ} (hkind : key.1 = .reduce) (hg : s.generator = some g) (hle : g ≤ key.2)
  | queued {task : TaskInfo} (hq : task ∈ s.coordinator.taskQueue) (hkey : task.key = key)
  | held {w : W} {task : TaskInfo} (hw : s.workers w = .received task) (hkey : task.key = key)
  | traced (h : key ∈ s.coordinator.taskTraceMap)
  | accepted (h : key ∈ s.accepted)

/-- No `AssignTask` call is between its receive and its entry in the trace map. -/
def NoneHeld (s : System W) : Prop := ∀ w, (s.workers w).holds = false

instance NoneHeld.decidable [Fintype W] (s : System W) : Decidable s.NoneHeld :=
  inferInstanceAs (Decidable (∀ _, _))

theorem Located.accepted_of_drained (h : s.Located key) (hd : s.coordinator.drained)
    (hh : s.NoneHeld) (hg : key.1 = .reduce → ∀ g, s.generator = some g → key.2 < g) :
    key ∈ s.accepted := by
  simp only [Coordinator.drained, Bool.and_eq_true, List.isEmpty_iff] at hd
  cases h with
  | unsent hkind hs hle => exact absurd (hg hkind _ hs) (not_lt.mpr hle)
  | queued hq => simp [hd.1] at hq
  | @held w task hw =>
    have hno := hh w
    rw [hw] at hno
    cases hno
  | traced ht => simp [AList.mem_keys, AList.keys, hd.2] at ht
  | accepted ha => exact ha

variable [DecidableEq W]

/-- A worker that holds no task changes its stage. -/
theorem received_update {w v : W} {stage : Stage} {task : TaskInfo}
    (hw : (s.workers w).holds = false) (hv : s.workers v = .received task) :
    Function.update s.workers w stage v = .received task := by
  have hne : v ≠ w := by
    rintro rfl
    rw [hv] at hw
    cases hw
  rw [Function.update_of_ne hne, hv]

theorem Located.update_worker {w : W} {stage : Stage} (h : s.Located key)
    (hw : (s.workers w).holds = false) :
    Located { s with workers := Function.update s.workers w stage } key := by
  cases h with
  | unsent hkind hg hle => exact .unsent hkind hg hle
  | queued hq hkey => exact .queued hq hkey
  | held hv hkey => exact .held (received_update hw hv) hkey
  | traced ht => exact .traced ht
  | accepted ha => exact .accepted ha

/-- A task is filed under the phase, which in its own phase is its type. -/
theorem Located.trace {w : W} {task : TaskInfo} (h : s.Located key)
    (hw : s.workers w = .received task) (hphase : s.coordinator.phase = key.1)
    (hkind : key.1 ≠ .done) : (s.trace w task).Located key := by
  have hc : (s.trace w task).coordinator = { s.coordinator with
      taskTraceMap := s.coordinator.taskTraceMap.insert (key.1, task.id) task } := by
    rw [← hphase]
    exact if_neg (by rwa [hphase])
  cases h with
  | unsent hk hg hle => exact .unsent hk hg hle
  | queued hq hkey => exact .queued (by rwa [hc]) hkey
  | @held v task' hv hkey =>
    by_cases hvw : v = w
    · subst hvw
      obtain rfl := Stage.received.inj (hw.symm.trans hv)
      refine .traced ?_
      rw [hc, ← hkey]
      exact (AList.mem_insert _).mpr (Or.inl rfl)
    · exact .held (w := v) ((Function.update_of_ne hvw ..).trans hv) hkey
  | traced ht =>
    refine .traced ?_
    rw [hc]
    exact (AList.mem_insert _).mpr (Or.inr ht)
  | accepted ha => exact .accepted ha

theorem Located.reportTask {w : W} {task : TaskInfo} (h : s.Located key)
    (hw : s.workers w = .running task) : (s.reportTask w task).Located key := by
  have hno : (s.workers w).holds = false := by rw [hw]; rfl
  cases h with
  | unsent hk hg hle =>
    by_cases hsw : s.coordinator.phase = .map ∧
        (s.coordinator.reportTask s.now task.key).1.phase = .reduce
    · exact .unsent hk (if_pos hsw) (Nat.zero_le _)
    · exact .unsent hk ((if_neg hsw).trans hg) hle
  | queued hq hkey =>
    refine .queued ?_ hkey
    simp only [System.reportTask, Coordinator.reportTask]
    split_ifs <;> exact hq
  | held hv hkey => exact .held (received_update hno hv) hkey
  | traced ht =>
    by_cases hexp : s.coordinator.expired s.now task.key
    · refine .traced ?_
      simpa [System.reportTask, Coordinator.reportTask, hexp] using ht
    · by_cases hkey : key = task.key
      · refine .accepted ?_
        simp [System.reportTask, Coordinator.reportTask, hexp, hkey]
      · refine .traced ?_
        simpa [System.reportTask, Coordinator.reportTask, hexp, hkey] using ht
  | accepted ha =>
    refine .accepted ?_
    simp only [System.reportTask]
    split_ifs
    · exact List.mem_cons_of_mem _ ha
    · exact ha

/-- A task stays accounted for as long as the job is in its phase, and up to the report that
ends the phase. -/
theorem Located.move {a : Action W} (h : s.Located key) (hphase : s.coordinator.phase = key.1)
    (hkind : key.1 ≠ .done) (hm : s.Move a s') : s'.Located key := by
  cases hm with
  | assignTask hw => exact h.update_worker (by rw [hw]; rfl)
  | @receive w task rest hw hq =>
    have hno : (s.workers w).holds = false := by rw [hw]; rfl
    cases h with
    | unsent hk hg hle => exact .unsent hk hg hle
    | queued hmem hkey =>
      rw [hq] at hmem
      rcases List.mem_cons.mp hmem with rfl | hmem
      · exact .held (Function.update_self ..) hkey
      · exact .queued hmem hkey
    | held hv hkey => exact .held (received_update hno hv) hkey
    | traced ht => exact .traced ht
    | accepted ha => exact .accepted ha
  | trace hw => exact h.trace hw hphase hkind
  | reportTask hw => exact h.reportTask hw
  | generate hgen =>
    cases h with
    | unsent hk hg hle =>
      obtain rfl := Option.some.inj (hgen.symm.trans hg)
      rcases hle.eq_or_lt with heq | hlt
      · exact .queued (List.mem_append_right _ List.mem_cons_self) (Prod.ext hk.symm heq)
      · exact .unsent hk rfl hlt
    | queued hq hkey => exact .queued (List.mem_append_left _ hq) hkey
    | held hv hkey => exact .held hv hkey
    | traced ht => exact .traced ht
    | accepted ha => exact .accepted ha
  | @retrieve _ task rest =>
    -- the sweep deletes the key of the task that it puts back
    cases h with
    | unsent hk hg hle => exact .unsent hk hg hle
    | queued hq hkey => exact .queued (List.mem_append_left _ hq) hkey
    | held hv hkey => exact .held hv hkey
    | traced ht =>
      by_cases hkey : key = task.key
      · exact .queued (List.mem_append_right _ List.mem_cons_self) hkey.symm
      · exact .traced (AList.mem_erase.mpr ⟨hkey, ht⟩)
    | accepted ha => exact .accepted ha
  | pass =>
    cases h with
    | unsent hk hg hle => exact .unsent hk hg hle
    | queued hq hkey => exact .queued hq hkey
    | held hv hkey => exact .held hv hkey
    | traced ht => exact .traced ht
    | accepted ha => exact .accepted ha

/-- An accepted report stays accepted. -/
theorem Move.accepted {a : Action W} (hm : s.Move a s') : s.accepted ⊆ s'.accepted := by
  cases hm with
  | reportTask hw =>
    simp only [System.reportTask]
    split_ifs
    · exact List.subset_cons_self _ _
    · exact List.Subset.refl _
  | _ => exact List.Subset.refl _

/-- Only a report changes the phase. -/
theorem Move.phase {a : Action W} (hm : s.Move a s') :
    s'.coordinator.phase = s.coordinator.phase ∨
      ∃ w task, a = .reportTask w ∧ s.workers w = .running task ∧ s' = s.reportTask w task := by
  cases hm with
  | trace hw =>
    simp only [System.trace, Coordinator.traceTask]
    split_ifs <;> exact Or.inl rfl
  | reportTask hw => exact Or.inr ⟨_, _, rfl, hw, rfl⟩
  | _ => exact Or.inl rfl

/-- What a step that changes the phase has found, and that it starts the generation of the
reduce tasks at the end of the map phase. -/
structure Switch (s s' : System W) : Prop where
  drained : s'.coordinator.drained
  held : s.NoneHeld → s'.NoneHeld
  phases : s.coordinator.phase = .map ∧ s'.coordinator.phase = .reduce ∧
      s'.generator = some 0 ∨
    s.coordinator.phase = .reduce ∧ s'.coordinator.phase = .done ∧ s'.generator = s.generator

theorem Move.switch {a : Action W} (hm : s.Move a s')
    (hne : s'.coordinator.phase ≠ s.coordinator.phase) : Switch s s' := by
  rcases hm.phase with heq | ⟨w, task, -, hw, rfl⟩
  · exact absurd heq hne
  · rcases s.coordinator.reportTask_phase s.now task.key with heq | ⟨hd, hph⟩
    · exact absurd heq hne
    · refine ⟨hd, fun hh v => ?_, ?_⟩
      · by_cases hv : v = w
        · subst hv
          simp [System.reportTask, Stage.holds]
        · rw [← hh v]
          simp [System.reportTask, hv]
      · rcases hph with ⟨hm, hr⟩ | ⟨hr, hdone⟩
        · exact Or.inl ⟨hm, hr, if_pos ⟨hm, hr⟩⟩
        · exact Or.inr ⟨hr, hdone, if_neg (by simp [hr])⟩

/-- The numbers of tasks are fixed. -/
theorem Move.counts {a : Action W} (hm : s.Move a s') :
    s'.coordinator.nMap = s.coordinator.nMap ∧
      s'.coordinator.nReduce = s.coordinator.nReduce := by
  cases hm with
  | trace hw =>
    simp only [System.trace, Coordinator.traceTask]
    split_ifs <;> exact ⟨rfl, rfl⟩
  | reportTask hw =>
    simp only [System.reportTask, Coordinator.reportTask]
    split_ifs <;> exact ⟨rfl, rfl⟩
  | _ => exact ⟨rfl, rfl⟩

/-- The first `n` tasks of a kind: located during their phase and accepted after it. -/
structure Accounted (s : System W) (kind : Kind) (n : ℕ) : Prop where
  present : s.coordinator.phase = kind → ∀ i < n, s.Located (kind, i)
  past : kind.before s.coordinator.phase → ∀ i < n, (kind, i) ∈ s.accepted

/-- No task is where the phase change does not look: in the hands of an `AssignTask` call, or, in
the reduce phase, still to be sent. -/
def Settled (s : System W) : Prop :=
  s.NoneHeld ∧
    (s.coordinator.phase = .reduce → ∀ g ∈ s.generator, s.coordinator.nReduce ≤ g)

instance Settled.decidable [Fintype W] (s : System W) : Decidable s.Settled :=
  inferInstanceAs (Decidable (_ ∧ _))

theorem Accounted.step {kind : Kind} {n : ℕ} {a : Action W} (h : s.Accounted kind n)
    (hkind : kind ≠ .done) (hn : kind = .reduce → n ≤ s.coordinator.nReduce)
    (hs : s.step a = some s')
    (hend : s.coordinator.phase = kind → s'.coordinator.phase ≠ kind → s.Settled) :
    s'.Accounted kind n := by
  have hm := step_move hs
  by_cases hph : s'.coordinator.phase = s.coordinator.phase
  · constructor
    · intro hp i hi
      rw [hph] at hp
      exact (h.present hp i hi).move hp hkind hm
    · intro hb i hi
      rw [hph] at hb
      exact hm.accepted (h.past hb i hi)
  · have hsw := hm.switch hph
    constructor
    · intro hp i _
      rcases hsw.phases with ⟨-, hr, hg⟩ | ⟨-, hd, -⟩
      · exact .unsent (hp.symm.trans hr) hg (Nat.zero_le i)
      · exact absurd (hp.symm.trans hd) hkind
    · intro hb i hi
      by_cases hp : s.coordinator.phase = kind
      · obtain ⟨hh, hsent⟩ := hend hp fun heq => hph (heq.trans hp.symm)
        refine ((h.present hp i hi).move hp hkind hm).accepted_of_drained hsw.drained
          (hsw.held hh) fun hk g hg => ?_
        rcases hsw.phases with ⟨hm, -, -⟩ | ⟨hr, -, hgen⟩
        · exact absurd (hk.symm.trans (hp.symm.trans hm)) (by decide)
        · exact hi.trans_le ((hn hk).trans (hsent hr g (hgen ▸ hg)))
      · refine hm.accepted (h.past ?_ i hi)
        rcases hsw.phases with ⟨hm, hr, -⟩ | ⟨hr, hd, -⟩
        · rw [hr] at hb
          rw [hm] at hp ⊢
          cases kind <;> simp_all [Kind.before]
        · rw [hd] at hb
          rw [hr] at hp ⊢
          cases kind <;> simp_all [Kind.before]

/-- The task of a report. -/
def reported (s : System W) : Action W → Option TaskInfo
  | .reportTask w => (s.workers w).task
  | _ => none

/-- The phase `kind` is not ended while a task is where the phase change does not look. -/
def EndsSettled (kind : Kind) (s : System W) (a : Action W) : Prop :=
  s.coordinator.phase = kind →
    ∀ task ∈ s.reported a, s.coordinator.EndsPhase s.now task.key → s.Settled

instance EndsSettled.decidable [Fintype W] (kind : Kind) (s : System W) (a : Action W) :
    Decidable (EndsSettled kind s a) :=
  inferInstanceAs (Decidable (_ → ∀ _ ∈ _, _))

theorem EndsSettled.settled {kind : Kind} {a : Action W} (hend : EndsSettled kind s a)
    (hs : s.step a = some s') (hp : s.coordinator.phase = kind)
    (hne : s'.coordinator.phase ≠ kind) : s.Settled := by
  rcases (step_move hs).phase with heq | ⟨w, task, rfl, hw, rfl⟩
  · exact absurd (heq.trans hp) hne
  · refine hend hp task ?_ (Coordinator.reportTask_phase_ne.mp (hp ▸ hne))
    simp [reported, hw, Stage.task]

omit [DecidableEq W] in
theorem init_accounted_map (files : List String) (nReduce : ℕ) :
    (init files nReduce : System W).Accounted .map files.length := by
  constructor
  · intro _ i hi
    have hq : (⟨i, .map, files.get ⟨i, hi⟩, 0⟩ : TaskInfo) ∈
        (init files nReduce : System W).coordinator.taskQueue :=
      List.mem_mapIdx.mpr ⟨i, hi, rfl⟩
    exact .queued hq rfl
  · intro hb
    cases hb

omit [DecidableEq W] in
theorem init_accounted_reduce (files : List String) (nReduce n : ℕ) :
    (init files nReduce : System W).Accounted .reduce n := by
  constructor
  · intro hp
    cases hp
  · intro hb
    cases hb

section Runs
variable {kind : Kind} {files : List String} {nReduce n : ℕ} {r : ℕ → System W}

theorem Run.counts {P : System W → Action W → Prop} (hr : Run P files nReduce r) (k : ℕ) :
    (r k).coordinator.nMap = files.length ∧ (r k).coordinator.nReduce = nReduce := by
  refine hr.steps.invariant (I := fun s => s.coordinator.nMap = files.length ∧
    s.coordinator.nReduce = nReduce) (fun s a s' _ hs hi => ?_) ?_ k
  · obtain ⟨hmap, hreduce⟩ := (step_move hs).counts
    exact ⟨hmap.trans hi.1, hreduce.trans hi.2⟩
  · rw [hr.init]
    exact ⟨rfl, rfl⟩

theorem Run.accounted (hr : Run (EndsSettled kind) files nReduce r) (hkind : kind ≠ .done)
    (hn : kind = .reduce → n ≤ nReduce)
    (h : (System.init files nReduce : System W).Accounted kind n) (k : ℕ) :
    (r k).Accounted kind n := by
  induction k with
  | zero => rwa [hr.init]
  | succ k ih =>
    rcases hr.steps k with heq | ⟨a, hend, hs⟩
    · rwa [heq]
    · exact ih.step hkind (fun hk => (hn hk).trans (hr.counts k).2.ge) hs (hend.settled hs)

end Runs

end System

section Barrier
variable {W : Type*} [DecidableEq W] {files : List String} {nReduce : ℕ} {r : ℕ → System W}

/-- The map barrier: if no report ends the map phase while an `AssignTask` call holds a task
that it has not filed, then every map task has been accepted when the phase is over. -/
theorem map_barrier (hr : System.Run (System.EndsSettled .map) files nReduce r) {k : ℕ}
    (hphase : (r k).coordinator.phase = .reduce ∨ (r k).coordinator.phase = .done) {i : ℕ}
    (hi : i < files.length) : (.map, i) ∈ (r k).accepted := by
  have hacc : (r k).Accounted .map files.length :=
    hr.accounted (by decide) (fun h => absurd h (by decide))
      (System.init_accounted_map files nReduce) k
  apply hacc.past
  · rcases hphase with hp | hp <;> rw [hp] <;> rfl
  · exact hi

end Barrier

/-- Two workers do the two map tasks of a job. -/
def mapRun {W : Type*} (v w : W) : List (Action W) :=
  [.assignTask v, .receive v, .trace v, .assignTask w, .receive w, .trace w, .reportTask v,
    .reportTask w]

theorem map_barrier_mapRun :
    ∃ r : ℕ → System (Fin 2), System.Run (System.EndsSettled .map) ["a", "b"] 1 r ∧
      (r 8).coordinator.phase = .reduce ∧ (.map, 1) ∈ (r 8).accepted := by
  have hr : System.Run (System.EndsSettled .map) ["a", "b"] 1
      (trace System.step (.init ["a", "b"] 1) (mapRun (0 : Fin 2) 1)) :=
    ⟨trace_zero _ _, trace_isRun (by decide)⟩
  have hp : (trace System.step (.init ["a", "b"] 1) (mapRun (0 : Fin 2) 1) 8).coordinator.phase =
      .reduce := by decide
  exact ⟨_, hr, hp, map_barrier hr (Or.inl hp) (by decide)⟩

/-- The second worker has taken the second map task from the queue but not filed it when the
first one reports. -/
def earlyReportRun {W : Type*} (v w : W) : List (Action W) :=
  [.assignTask v, .receive v, .trace v, .assignTask w, .receive w, .reportTask v]

theorem unfiled_map_task_earlyReportRun :
    ∃ r : ℕ → System (Fin 2), System.Run (fun _ _ => True) ["a", "b"] 1 r ∧
      (r 6).coordinator.phase = .reduce ∧ (.map, 1) ∉ (r 6).accepted :=
  ⟨trace System.step (.init ["a", "b"] 1) (earlyReportRun (0 : Fin 2) 1),
    ⟨trace_zero _ _, trace_isRun (by decide)⟩, by decide, by decide⟩

section Completion
variable {W : Type*} [DecidableEq W] {files : List String} {nReduce : ℕ} {r : ℕ → System W}

/-- Completion: if no report ends the reduce phase while `generateReduceTasks` has tasks to send
or an `AssignTask` call holds a task that it has not filed, then every reduce task has been
accepted when the job is done. -/
theorem reduce_completion (hr : System.Run (System.EndsSettled .reduce) files nReduce r) {k : ℕ}
    (hdone : (r k).coordinator.done) {i : ℕ} (hi : i < nReduce) :
    (.reduce, i) ∈ (r k).accepted := by
  have hacc : (r k).Accounted .reduce nReduce :=
    hr.accounted (by decide) (fun _ => le_rfl)
      (System.init_accounted_reduce files nReduce nReduce) k
  apply hacc.past
  · rw [of_decide_eq_true hdone]
    rfl
  · exact hi

end Completion

/-- Two workers do the two map tasks and then the two reduce tasks of a job. -/
def completeRun {W : Type*} (v w : W) : List (Action W) :=
  mapRun v w ++ [.generate, .generate, .assignTask v, .receive v, .trace v, .assignTask w,
    .receive w, .trace w, .reportTask w, .reportTask v]

theorem reduce_completion_completeRun :
    ∃ r : ℕ → System (Fin 2), System.Run (System.EndsSettled .reduce) ["a", "b"] 2 r ∧
      (r 18).coordinator.done ∧ (.reduce, 0) ∈ (r 18).accepted ∧
      (.reduce, 1) ∈ (r 18).accepted := by
  have hr : System.Run (System.EndsSettled .reduce) ["a", "b"] 2
      (trace System.step (.init ["a", "b"] 2) (completeRun (0 : Fin 2) 1)) :=
    ⟨trace_zero _ _, trace_isRun (by decide)⟩
  have hd : (trace System.step (.init ["a", "b"] 2) (completeRun (0 : Fin 2) 1)
      18).coordinator.done := by decide
  exact ⟨_, hr, hd, reduce_completion hr hd (by decide), reduce_completion hr hd (by decide)⟩

/-- The first worker times out, the second one does its map task, and the late report of the
first one arrives before a reduce task has been sent. -/
def lateReportRun {W : Type*} (v w : W) : List (Action W) :=
  [.assignTask v, .receive v, .trace v, .tick (maxTaskTime + 1), .beginSweep, .visit (.map, 0),
    .endSweep, .assignTask w, .receive w, .trace w, .reportTask w, .reportTask v]

theorem unsent_reduce_task_lateReportRun :
    ∃ r : ℕ → System (Fin 2), System.Run (fun _ _ => True) ["a"] 1 r ∧
      (r 12).coordinator.done ∧ (.reduce, 0) ∉ (r 12).accepted :=
  ⟨trace System.step (.init ["a"] 1) (lateReportRun (0 : Fin 2) 1),
    ⟨trace_zero _ _, trace_isRun (by decide)⟩, by decide, by decide⟩

end RaftLabs.Mr
