import RaftLabs.Mr.Job

/-! What becomes of the tasks. A task that has been accepted is nowhere any more, so it is accepted
only once, although several workers may run it. -/
namespace RaftLabs.Mr

open Basis

namespace System

variable {W : Type*} {s s' : System W} {key : Key} {task : TaskInfo} {w : W}
  {files : List String} {nReduce : ℕ}

/-- The task may still be given to a worker, or be accepted. -/
inductive Has (s : System W) : TaskInfo → Prop
  | queued {task : TaskInfo} (h : task ∈ s.coordinator.taskQueue) : Has s task
  | held {task : TaskInfo} {w : W} (h : s.workers w = .received task) : Has s task
  | traced {task : TaskInfo} {filed : Key}
      (h : s.coordinator.taskTraceMap.lookup filed = some task) : Has s task

theorem Has.lies (h : s.Has task) : ∃ p, s.Lies task.key p := by
  cases h with
  | queued h =>
    obtain ⟨i, hi⟩ := List.getElem?_of_mem h
    exact ⟨_, .queued hi⟩
  | held h => exact ⟨_, .held h⟩
  | traced h => exact ⟨_, .traced h⟩

/-- Nothing has been put anywhere. -/
theorem Has.mono (h : s'.Has task)
    (hqueue : s'.coordinator.taskQueue ⊆ s.coordinator.taskQueue)
    (hheld : ∀ w task, s'.workers w = .received task → s.workers w = .received task)
    (htraced : ∀ key task, s'.coordinator.taskTraceMap.lookup key = some task →
      s.coordinator.taskTraceMap.lookup key = some task) : s.Has task := by
  cases h with
  | queued h => exact .queued (hqueue h)
  | held h => exact .held (hheld _ _ h)
  | traced h => exact .traced (htraced _ _ h)

theorem Has.pass {now : ℕ} {sweep : Option (List Key)}
    (h : Has { s with now := now, sweep := sweep } task) : s.Has task :=
  h.mono (List.Subset.refl _) (fun _ _ hv => hv) fun _ _ hl => hl

/-- The task is one of the job. A reduce task exists only after the map phase. -/
inductive Named (files : List String) (s : System W) (task : TaskInfo) : Prop
  | map (htype : task.taskType = .map) (h : files[task.id]? = some task.filename)
  | reduce (htype : task.taskType = .reduce) (h : task.id < s.coordinator.nReduce)
      (hgen : s.generator.isSome)

theorem Named.mono {old : TaskInfo} (h : s.Named files old) (d : ℕ)
    (hn : s'.coordinator.nReduce = s.coordinator.nReduce)
    (hgen : s.generator.isSome → s'.generator.isSome) :
    s'.Named files { old with deadline := d } := by
  cases h with
  | map htype h => exact .map htype h
  | reduce htype h hg => exact .reduce htype (h.trans_eq hn.symm) (hgen hg)

section Steps
variable [DecidableEq W] {a : Action W}

theorem Has.reportTask {first : TaskInfo} (h : (s.reportTask w first).Has task) : s.Has task := by
  unfold System.reportTask Coordinator.reportTask at h
  refine h.mono ?_ (fun _ _ hv => received_of_update rfl hv) fun key task hl => ?_
  · split_ifs <;> exact List.Subset.refl _
  · revert hl
    split_ifs
    · exact id
    · exact fun hl => (of_lookup_erase hl).2

/-- The task was there before, with another deadline perhaps, or it is the one that
`generateReduceTasks` sends next. -/
inductive Origin (s : System W) : TaskInfo → Prop
  | old {task : TaskInfo} (d : ℕ) (h : s.Has task) : Origin s { task with deadline := d }
  | generated {i : ℕ} (hg : s.generator = some i) (hi : i < s.coordinator.nReduce) :
      Origin s (Coordinator.reduceTask i)

omit [DecidableEq W] in
theorem Has.origin (h : s.Has task) : s.Origin task := .old task.deadline h

theorem Has.origin_of_step (h : s'.Has task) (hs : s.step a = some s') : s.Origin task := by
  cases step_move hs with
  | assignTask hw hrun hheld =>
    exact Has.origin (h.mono (List.Subset.refl _) (fun _ _ hv => received_of_update hheld hv)
      fun _ _ hl => hl)
  | @receive w first rest hw hq =>
    cases h with
    | queued h => exact Has.origin (s := s) (.queued (hq ▸ List.mem_cons_of_mem _ h))
    | @held v h =>
      by_cases hv : v = w
      · subst hv
        obtain rfl := Stage.received.inj ((Function.update_self ..).symm.trans h)
        exact .old _ (.queued (hq ▸ List.mem_cons_self))
      · exact Has.origin (s := s) (.held ((Function.update_of_ne hv ..).symm.trans h))
    | traced h => exact Has.origin (s := s) (.traced h)
  | @trace w first hw =>
    simp only [System.trace, Coordinator.traceTask] at h
    cases h with
    | queued h =>
      refine Has.origin (s := s) (.queued ?_)
      revert h
      split_ifs <;> exact id
    | held h => exact Has.origin (s := s) (.held (received_of_update rfl h))
    | traced h =>
      revert h
      split_ifs
      · exact fun h => Has.origin (s := s) (.traced h)
      · intro h
        rcases of_lookup_insert h with ⟨-, rfl⟩ | ⟨-, h⟩
        · exact Has.origin (s := s) (.held hw)
        · exact Has.origin (s := s) (.traced h)
  | reportTask hw => exact h.reportTask.origin
  | generate hg hi =>
    cases h with
    | queued h =>
      rcases List.mem_append.mp h with h | h
      · exact Has.origin (s := s) (.queued h)
      · obtain rfl := List.mem_singleton.mp h
        exact .generated hg hi
    | held h => exact Has.origin (s := s) (.held h)
    | traced h => exact Has.origin (s := s) (.traced h)
  | retrieve hsweep hl =>
    cases h with
    | queued h =>
      rcases List.mem_append.mp h with h | h
      · exact Has.origin (s := s) (.queued h)
      · obtain rfl := List.mem_singleton.mp h
        exact Has.origin (s := s) (.traced hl)
    | held h => exact Has.origin (s := s) (.held h)
    | traced h => exact Has.origin (s := s) (.traced (of_lookup_erase h).2)
  | pass ha hnow hsweep => exact h.pass.origin

theorem running_of_update {v : W} {stage : Stage} (hstage : stage.task = none)
    (h : Function.update s.workers v stage w = .running task) : s.workers w = .running task := by
  by_cases hw : w = v
  · subst hw
    rw [(Function.update_self ..).symm.trans h] at hstage
    cases hstage
  · rwa [Function.update_of_ne hw] at h

/-- A worker that runs a task has done so before, or its call has just filed it. -/
theorem running_of_step (h : s'.workers w = .running task) (hs : s.step a = some s') :
    s.workers w = .running task ∨ a = .trace w ∧ s.workers w = .received task := by
  cases step_move hs with
  | assignTask hw hrun => exact Or.inl (running_of_update hrun h)
  | receive => exact Or.inl (running_of_update rfl h)
  | @trace v first hv =>
    by_cases hw : w = v
    · subst hw
      obtain rfl := Stage.running.inj ((Function.update_self ..).symm.trans h)
      exact Or.inr ⟨rfl, hv⟩
    · exact Or.inl ((Function.update_of_ne hw ..).symm.trans h)
  | reportTask hv => exact Or.inl (running_of_update rfl h)
  | generate => exact Or.inl h
  | retrieve => exact Or.inl h
  | pass => exact Or.inl h

/-- A worker goes on with its task until it reports. -/
theorem running_step (h : s.workers w = .running task) (hs : s.step a = some s')
    (ha : a.reports = false) : s'.workers w = .running task := by
  have hother {v : W} {stage : Stage} (hne : s.workers v ≠ .running task) :
      Function.update s.workers v stage w = .running task := by
    rwa [Function.update_of_ne]
    rintro rfl
    exact hne h
  cases step_move hs with
  | assignTask hw => exact hother (by simp [hw])
  | receive hw => exact hother (by simp [hw])
  | trace hw => exact hother (by simp [hw])
  | reportTask => cases ha
  | generate => exact h
  | retrieve => exact h
  | pass => exact h

theorem accepted_reportTask {first : TaskInfo} : (s.reportTask w first).accepted =
    if s.coordinator.expired s.now first.key then s.accepted else first.key :: s.accepted := by
  simp only [System.reportTask, Coordinator.reportTask]
  by_cases hexp : s.coordinator.expired s.now first.key
  · simp [hexp]
  · simp [hexp]

theorem accepted_step (hs : s.step a = some s') (ha : a.reports = false) :
    s'.accepted = s.accepted := by
  cases step_move hs with
  | reportTask => cases ha
  | _ => rfl

theorem phase_step (hs : s.step a = some s') (ha : a.reports = false) :
    s'.coordinator.phase = s.coordinator.phase := by
  rcases (step_move hs).phase with heq | ⟨w, task, rfl, -⟩
  · exact heq
  · cases ha

/-- While the mutex is free, a step that does not take it leaves the trace map alone. -/
theorem step_unlocked (hs : s.step a = some s') (hlocks : a.locks = false)
    (ha : a.reports = false) (hu : s.unlocked) :
    s'.unlocked ∧ s'.coordinator.taskTraceMap = s.coordinator.taskTraceMap := by
  cases step_move hs with
  | assignTask => cases hlocks
  | trace => cases hlocks
  | reportTask => cases ha
  | retrieve hsweep =>
    rw [hsweep] at hu
    cases hu
  | pass _ _ hsweep =>
    obtain rfl := hsweep hlocks hu
    exact ⟨rfl, rfl⟩
  | _ => exact ⟨hu, rfl⟩

/-- `generateReduceTasks` starts at the end of the map phase and goes on from there. -/
theorem InOrder.generator_step (h : s.InOrder) (hs : s.step a = some s') :
    ∀ g ∈ s.generator, ∃ g' ∈ s'.generator, g ≤ g' := by
  intro g hg
  cases step_move hs with
  | @generate i hi =>
    obtain rfl := Option.some.inj (hi.symm.trans hg)
    exact ⟨_, rfl, Nat.le_succ _⟩
  | @reportTask w task hw =>
    refine ⟨g, (if_neg fun hsw => ?_ : _ = s.generator).trans hg, le_rfl⟩
    rw [h.generator.mp hsw.1] at hg
    cases hg
  | _ => exact ⟨g, hg, le_rfl⟩

/-- The tasks of a job. -/
structure Steady (files : List String) (nReduce : ℕ) (s : System W) : Prop where
  order : s.InOrder
  maps : s.Accounted .map files.length
  reduces : s.Accounted .reduce nReduce
  nMap : s.coordinator.nMap = files.length
  nReduce : s.coordinator.nReduce = nReduce
  clock : 0 < s.now
  /-- An accepted reduce task has been generated. -/
  sent : ∀ i, (.reduce, i) ∈ s.accepted → ∃ g ∈ s.generator, i < g
  /-- An accepted task is nowhere. -/
  once : ∀ task, s.Has task → task.key ∉ s.accepted
  named : ∀ task, s.Has task → s.Named files task
  running : ∀ w task, s.workers w = .running task → s.Named files task

namespace Steady

variable (h : s.Steady files nReduce)
include h

omit [DecidableEq W] in
/-- What is in time is in the trace map. -/
theorem traced_of_inTime {t : ℕ} (ht : 0 < t) (hexp : s.coordinator.expired t key = false) :
    ∃ task, s.coordinator.taskTraceMap.lookup key = some task ∧ task.key = key := by
  cases hl : s.coordinator.taskTraceMap.lookup key with
  | none => simp [Coordinator.expired, hl, ht] at hexp
  | some task => exact ⟨task, rfl, (h.order.keyed (.traced hl)).symm⟩

omit [DecidableEq W] in
theorem notMem_accepted_of_inTime {t : ℕ} (ht : 0 < t)
    (hexp : s.coordinator.expired t key = false) : key ∉ s.accepted := by
  obtain ⟨task, hl, rfl⟩ := h.traced_of_inTime ht hexp
  exact h.once task (.traced hl)

/-- The accepted task is not in another place, and it leaves the trace map. -/
theorem not_has_of_accept (hexp : s.coordinator.expired s.now task.key = false)
    {other : TaskInfo} (hhas : (s.reportTask w task).Has other) : other.key ≠ task.key := by
  intro hkey
  obtain ⟨filed, hl, hfiled⟩ := h.traced_of_inTime h.clock hexp
  obtain ⟨p, hp⟩ := hhas.lies
  rw [hkey] at hp
  have hlies : s.Lies task.key (.traced task.key) := by
    rw [← hfiled] at hl ⊢
    exact .traced hl
  obtain rfl := h.order.single (lies_reportTask hp) hlies
  have herase : (s.reportTask w task).coordinator.taskTraceMap =
      s.coordinator.taskTraceMap.erase task.key := by
    simp [System.reportTask, Coordinator.reportTask, hexp]
  generalize hk : task.key = k at hp
  cases hp with
  | traced hl =>
    rw [herase] at hl
    exact (of_lookup_erase hl).1 hk.symm

theorem sent_of_step (hs : s.step a = some s') (i : ℕ) (hi : (.reduce, i) ∈ s'.accepted) :
    ∃ g ∈ s'.generator, i < g := by
  have hgrow : (∃ g ∈ s.generator, i < g) → ∃ g ∈ s'.generator, i < g := by
    rintro ⟨g, hg, hlt⟩
    obtain ⟨g', hg', hle⟩ := h.order.generator_step hs g hg
    exact ⟨g', hg', hlt.trans_le hle⟩
  cases step_move hs with
  | @reportTask w task hw =>
    apply hgrow
    rw [accepted_reportTask] at hi
    split_ifs at hi with hexp
    · exact h.sent i hi
    · rcases List.mem_cons.mp hi with hkey | hi
      · obtain ⟨filed, hl, hfiled⟩ := h.traced_of_inTime h.clock (Bool.not_eq_true _ ▸ hexp)
        have hmem := h.order.mem_issued (.traced hl)
        rw [hfiled, ← hkey] at hmem
        unfold issued at hmem
        cases hg : s.generator with
        | none => simp [hg] at hmem
        | some g => exact ⟨g, rfl, by simpa [hg] using hmem⟩
      · exact h.sent i hi
  | _ => exact hgrow (h.sent i hi)

theorem once_of_step (hs : s.step a = some s') (hhas : s'.Has task) : task.key ∉ s'.accepted := by
  intro hacc
  have horigin := hhas.origin_of_step hs
  cases step_move hs with
  | @reportTask w first hw =>
    rw [accepted_reportTask] at hacc
    split_ifs at hacc with hexp
    · exact h.once task hhas.reportTask hacc
    · rcases List.mem_cons.mp hacc with hkey | hacc
      · exact h.not_has_of_accept (Bool.not_eq_true _ ▸ hexp) hhas hkey
      · exact h.once task hhas.reportTask hacc
  | _ =>
    cases horigin with
    | old d hold => exact h.once _ hold hacc
    | @generated i hg hi =>
      obtain ⟨g, hg', hlt⟩ := h.sent i hacc
      obtain rfl := Option.some.inj (hg.symm.trans hg')
      exact lt_irrefl _ hlt

theorem named_of_step (hs : s.step a = some s') :
    (∀ task, s'.Has task → s'.Named files task) ∧
      ∀ w task, s'.workers w = .running task → s'.Named files task := by
  have hn := (step_move hs).counts.2
  have hgen : s.generator.isSome → s'.generator.isSome := by
    intro hsome
    obtain ⟨g, hg⟩ := Option.isSome_iff_exists.mp hsome
    obtain ⟨g', hg', -⟩ := h.order.generator_step hs g hg
    exact Option.isSome_of_mem hg'
  constructor
  · intro task hhas
    cases hhas.origin_of_step hs with
    | old d hold => exact (h.named _ hold).mono d hn hgen
    | generated hg hi =>
      exact .reduce rfl (hi.trans_eq hn.symm) (hgen (Option.isSome_of_mem hg))
  · intro w task hw
    rcases running_of_step hw hs with hw | ⟨-, hw⟩
    · exact (h.running w task hw).mono task.deadline hn hgen
    · exact (h.named task (.held hw)).mono task.deadline hn hgen

theorem step (hs : s.step a = some s')
    (hend : s'.coordinator.phase ≠ s.coordinator.phase → s.Settled) :
    s'.Steady files nReduce := by
  have hsettled {kind : Kind} (hp : s.coordinator.phase = kind)
      (hne : s'.coordinator.phase ≠ kind) : s.Settled := hend (hp ▸ hne)
  obtain ⟨hnMap, hnReduce⟩ := (step_move hs).counts
  refine ⟨h.order.step hs fun hp hne => (hsettled hp hne).1,
    h.maps.step (by decide) (by simp) hs hsettled,
    h.reduces.step (by decide) (fun _ => h.nReduce.ge) hs hsettled, hnMap.trans h.nMap,
    hnReduce.trans h.nReduce, ?_, h.sent_of_step hs, fun _ => h.once_of_step hs,
    (h.named_of_step hs).1, (h.named_of_step hs).2⟩
  cases step_move hs with
  | pass ha hnow => exact h.clock.trans_le hnow
  | _ => exact h.clock

omit [DecidableEq W] in
/-- The clock may be set. -/
theorem setNow {now : ℕ} (hnow : 0 < now) : Steady files nReduce { s with now := now } := by
  have hloc {key : Key} (hl : s.Located key) : Located { s with now := now } key := by
    cases hl with
    | unsent hk hg hle => exact .unsent hk hg hle
    | queued hq hkey => exact .queued hq hkey
    | held hv hkey => exact .held hv hkey
    | traced ht => exact .traced ht
    | accepted ha => exact .accepted ha
  refine ⟨h.order.pass now s.sweep, ⟨fun hp i hi => hloc (h.maps.present hp i hi), h.maps.past⟩,
    ⟨fun hp i hi => hloc (h.reduces.present hp i hi), h.reduces.past⟩, h.nMap, h.nReduce, hnow,
    h.sent, fun task hhas => h.once task hhas.pass, fun task hhas => ?_, fun w task hw => ?_⟩
  · exact (h.named task hhas.pass).mono task.deadline rfl id
  · exact (h.running w task hw).mono task.deadline rfl id

end Steady

omit [DecidableEq W] in
theorem init_steady (files : List String) (nReduce : ℕ) :
    (init files nReduce : System W).Steady files nReduce := by
  refine ⟨init_inOrder files nReduce, init_accounted_map files nReduce,
    init_accounted_reduce files nReduce nReduce, rfl, rfl, one_pos, ?_, ?_, ?_, ?_⟩
  · intro i hi
    cases hi
  · intro task _ hi
    cases hi
  · intro task hhas
    cases hhas with
    | queued hq =>
      obtain ⟨i, hi, rfl⟩ := List.mem_mapIdx.mp hq
      exact .map rfl (List.getElem?_eq_getElem hi)
    | held hv => cases hv
    | traced hl => cases hl
  · intro w task hw
    cases hw

end Steps

end System

end RaftLabs.Mr
