import RaftLabs.Basis.AssocList
import RaftLabs.Mr.Barrier

/-! The accounts of the coordinator. A task is in one place at a time: at a position of the queue,
in the hands of one `AssignTask` call, or in the trace map under its own key. So the queue has
room for every task that a timeout sweep puts back. -/
namespace RaftLabs.Mr

open Basis

/-- A place for a task: a position in the queue, an `AssignTask` call or a key of the trace map. -/
inductive Place (W : Type*)
  | queued (i : ℕ)
  | held (w : W)
  | traced (key : Key)
  deriving DecidableEq

namespace System

variable {W : Type*} {s s' : System W} {key : Key} {task : TaskInfo} {w v : W}
  {p : Place W}

/-- The task with this type and number is in the place. -/
inductive Lies (s : System W) : Key → Place W → Prop
  | queued {i : ℕ} {task : TaskInfo} (h : s.coordinator.taskQueue[i]? = some task) :
      Lies s task.key (.queued i)
  | held {w : W} {task : TaskInfo} (h : s.workers w = .received task) :
      Lies s task.key (.held w)
  | traced {filed : Key} {task : TaskInfo}
      (h : s.coordinator.taskTraceMap.lookup filed = some task) :
      Lies s task.key (.traced filed)

/-- The tasks of the phase that have been sent to the queue so far. -/
def issued (s : System W) : Finset Key :=
  match s.generator with
  | none => {Kind.map} ×ˢ Finset.range s.coordinator.nMap
  | some g => {Kind.reduce} ×ˢ Finset.range g

/-- No task is in two places, tasks are filed under their own keys, and all of them have been
issued. The reduce tasks are generated from the end of the map phase on. -/
structure InOrder (s : System W) : Prop where
  single : Relator.RightUnique s.Lies
  keyed : ∀ {key filed}, s.Lies key (.traced filed) → filed = key
  mem_issued : ∀ {key p}, s.Lies key p → key ∈ s.issued
  generator : s.coordinator.phase = .map ↔ s.generator = none
  generator_le : ∀ g ∈ s.generator, g ≤ s.coordinator.nReduce

namespace InOrder

/-- A step that leaves the phase and the generation of tasks alone, and after which each place
with a task can be traced back to another place before it. -/
theorem shift (h : s.InOrder) {φ : Place W → Place W} (hφ : φ.Injective)
    (hlies : ∀ {key p}, s'.Lies key p → s.Lies key (φ p))
    (hkeyed : ∀ {key filed}, s'.Lies key (.traced filed) → filed = key)
    (hgen : s'.generator = s.generator) (hmap : s'.coordinator.nMap = s.coordinator.nMap)
    (hreduce : s'.coordinator.nReduce = s.coordinator.nReduce)
    (hphase : s'.coordinator.phase = .map ↔ s.coordinator.phase = .map) : s'.InOrder := by
  have hissued : s'.issued = s.issued := by
    unfold issued
    rw [hgen, hmap]
  constructor
  · intro key p q hp hq
    exact hφ (h.single (hlies hp) (hlies hq))
  · exact hkeyed
  · intro key p hp
    rw [hissued]
    exact h.mem_issued (hlies hp)
  · rw [hphase, hgen]
    exact h.generator
  · rw [hgen, hreduce]
    exact h.generator_le

/-- Places may become empty. -/
theorem subset (h : s.InOrder) (hlies : ∀ {key p}, s'.Lies key p → s.Lies key p)
    (hgen : s'.generator = s.generator) (hmap : s'.coordinator.nMap = s.coordinator.nMap)
    (hreduce : s'.coordinator.nReduce = s.coordinator.nReduce)
    (hphase : s'.coordinator.phase = .map ↔ s.coordinator.phase = .map) : s'.InOrder :=
  h.shift Function.injective_id hlies (fun hp => h.keyed (hlies hp)) hgen hmap hreduce hphase

/-- A queued task is not in the queue a second time. -/
theorem nodup_queue (h : s.InOrder) : (s.coordinator.taskQueue.map TaskInfo.key).Nodup := by
  rw [List.nodup_iff_injective_getElem]
  intro i j hij
  have hlt (i : Fin (s.coordinator.taskQueue.map TaskInfo.key).length) :
      i.val < s.coordinator.taskQueue.length := by simpa using i.isLt
  have hi : s.Lies _ (.queued i.val) := .queued (List.getElem?_eq_getElem (hlt i))
  have hj : s.Lies _ (.queued j.val) := .queued (List.getElem?_eq_getElem (hlt j))
  simp only [List.getElem_map] at hij
  rw [hij] at hi
  exact Fin.ext (Place.queued.inj (h.single hi hj))

theorem card_issued_le (h : s.InOrder) : s.issued.card ≤ s.coordinator.capacity := by
  unfold issued Coordinator.capacity
  cases hg : s.generator with
  | none =>
    rw [Finset.card_product, Finset.card_singleton, Finset.card_range]
    omega
  | some g =>
    have hle := h.generator_le g hg
    rw [Finset.card_product, Finset.card_singleton, Finset.card_range]
    omega

theorem queue_subset (h : s.InOrder) :
    (s.coordinator.taskQueue.map TaskInfo.key).toFinset ⊆ s.issued := by
  intro key hkey
  simp only [List.mem_toFinset, List.mem_map] at hkey
  obtain ⟨task, hmem, rfl⟩ := hkey
  obtain ⟨i, hi⟩ := List.getElem?_of_mem hmem
  exact h.mem_issued (.queued hi)

theorem length_queue (h : s.InOrder) : s.coordinator.taskQueue.length =
    (s.coordinator.taskQueue.map TaskInfo.key).toFinset.card := by
  rw [List.toFinset_card_of_nodup h.nodup_queue, List.length_map]

theorem length_le_capacity (h : s.InOrder) :
    s.coordinator.taskQueue.length ≤ s.coordinator.capacity := by
  rw [h.length_queue]
  exact (Finset.card_le_card h.queue_subset).trans h.card_issued_le

/-- There is room in the queue for a task that is in the trace map. -/
theorem length_lt_capacity (h : s.InOrder)
    (hl : s.coordinator.taskTraceMap.lookup key = some task) :
    s.coordinator.taskQueue.length < s.coordinator.capacity := by
  have hlies : s.Lies task.key (.traced key) := .traced hl
  have hnot : task.key ∉ (s.coordinator.taskQueue.map TaskInfo.key).toFinset := by
    simp only [List.mem_toFinset, List.mem_map, not_exists, not_and]
    intro other hmem heq
    obtain ⟨i, hi⟩ := List.getElem?_of_mem hmem
    have hqueued : s.Lies other.key (.queued i) := .queued hi
    rw [heq] at hqueued
    cases h.single hlies hqueued
  rw [h.length_queue]
  calc (s.coordinator.taskQueue.map TaskInfo.key).toFinset.card
      < s.issued.card := Finset.card_lt_card
        ⟨h.queue_subset, fun hsub => hnot (hsub (h.mem_issued hlies))⟩
    _ ≤ s.coordinator.capacity := h.card_issued_le

/-- The send of a timeout sweep does not wait. -/
theorem visit_isSome (h : s.InOrder) {rest : List Key} (hsweep : s.sweep = some rest)
    (hkey : key ∈ rest) : (s.visit key).isSome := by
  unfold visit Coordinator.retrieve
  simp only [hsweep, if_pos hkey, Option.isSome_map]
  split
  · rfl
  · rename_i task hl
    split_ifs
    · unfold Coordinator.send
      rw [if_pos]
      · rfl
      · exact h.length_lt_capacity hl
    · rfl

/-- Nothing but the clock and the sweep has changed. -/
theorem pass (h : s.InOrder) (now : ℕ) (sweep : Option (List Key)) :
    InOrder { s with now := now, sweep := sweep } := by
  refine h.subset (fun hp => ?_) rfl rfl rfl Iff.rfl
  cases hp with
  | queued hq => exact .queued hq
  | held hv => exact .held hv
  | traced hl => exact .traced hl

end InOrder

section Steps
variable [DecidableEq W]

/-- A worker that goes to a stage in which it holds nothing. -/
theorem received_of_update {stage : Stage} (hstage : stage.holds = false)
    (hv : Function.update s.workers w stage v = .received task) :
    s.workers v = .received task := by
  by_cases hvw : v = w
  · subst hvw
    rw [Function.update_self] at hv
    rw [hv] at hstage
    cases hstage
  · rwa [Function.update_of_ne hvw] at hv

theorem InOrder.update_worker (h : s.InOrder) (w : W) {stage : Stage}
    (hstage : stage.holds = false) :
    InOrder { s with workers := Function.update s.workers w stage } := by
  refine h.subset (fun hp => ?_) rfl rfl rfl Iff.rfl
  cases hp with
  | queued hq => exact .queued hq
  | held hv => exact .held (received_of_update hstage hv)
  | traced hl => exact .traced hl

/-- Before a receive, the queue is one position longer and its first task is the one received. -/
def beforeReceive (w : W) : Place W → Place W
  | .queued i => .queued (i + 1)
  | .held v => if v = w then .queued 0 else .held v
  | .traced key => .traced key

theorem beforeReceive_injective (w : W) : (beforeReceive w).Injective := by
  intro p q hpq
  cases p <;> cases q <;> simp only [beforeReceive] at hpq ⊢ <;> grind

theorem InOrder.receive (h : s.InOrder) {rest : List TaskInfo}
    (hq : s.coordinator.taskQueue = task :: rest) (w : W) (d : ℕ) :
    InOrder { s with
      coordinator := { s.coordinator with taskQueue := rest }
      workers := Function.update s.workers w (.received { task with deadline := d }) } := by
  refine h.shift (beforeReceive_injective w) (fun hp => ?_) (fun hp => ?_) rfl rfl rfl Iff.rfl
  · cases hp with
    | queued hi =>
      refine .queued ?_
      rw [hq, List.getElem?_cons_succ]
      exact hi
    | @held v task' hv =>
      by_cases hvw : v = w
      · subst hvw
        obtain rfl := Stage.received.inj ((Function.update_self ..).symm.trans hv)
        have hfirst : s.Lies task.key (.queued 0) := .queued (by rw [hq, List.getElem?_cons_zero])
        simp only [beforeReceive, if_pos]
        exact hfirst
      · simp only [beforeReceive, if_neg hvw]
        exact .held ((Function.update_of_ne hvw ..).symm.trans hv)
    | traced hl => exact .traced hl
  · cases hp with
    | traced hl => exact h.keyed (.traced hl)

omit [DecidableEq W] in
/-- The type of a task that is being handed out is the phase, unless the job is done. -/
theorem InOrder.phase_eq (h : s.InOrder) (hw : s.workers w = .received task)
    (hdone : s.coordinator.phase ≠ .done) : (s.coordinator.phase, task.id) = task.key := by
  have hmem := h.mem_issued (.held hw)
  unfold issued at hmem
  have hgen := h.generator
  cases hg : s.generator with
  | none =>
    rw [hg] at hmem hgen
    simp only [Finset.mem_product, Finset.mem_singleton] at hmem
    exact Prod.ext ((hgen.mpr rfl).trans hmem.1.symm) rfl
  | some g =>
    rw [hg] at hmem hgen
    simp only [Finset.mem_product, Finset.mem_singleton] at hmem
    refine Prod.ext (Eq.trans ?_ hmem.1.symm) rfl
    change s.coordinator.phase = .reduce
    cases hp : s.coordinator.phase with
    | map => cases hgen.mp hp
    | reduce => rfl
    | done => exact absurd hp hdone

/-- The task goes from the hands of the call to its own key. -/
theorem InOrder.trace (h : s.InOrder) (hw : s.workers w = .received task) :
    (s.trace w task).InOrder := by
  unfold System.trace Coordinator.traceTask
  split_ifs with hdone
  · exact h.update_worker w rfl
  · rw [h.phase_eq hw hdone]
    refine h.shift (Equiv.swap (Place.held w) (.traced task.key)).injective (fun hp => ?_)
      (fun hp => ?_) rfl rfl rfl Iff.rfl
    · cases hp with
      | queued hq =>
        rw [Equiv.swap_apply_of_ne_of_ne (by simp) (by simp)]
        exact .queued hq
      | @held v task' hv =>
        have hne : Place.held v ≠ .held w := by
          intro heq
          obtain rfl := Place.held.inj heq
          cases (Function.update_self ..).symm.trans hv
        rw [Equiv.swap_apply_of_ne_of_ne hne (by simp)]
        exact .held (received_of_update rfl hv)
      | traced hl =>
        rcases of_lookup_insert hl with ⟨rfl, rfl⟩ | ⟨hne, hl⟩
        · rw [Equiv.swap_apply_right]
          exact .held hw
        · rw [Equiv.swap_apply_of_ne_of_ne (by simp) (by simpa using hne)]
          exact .traced hl
    · cases hp with
      | traced hl =>
        rcases of_lookup_insert hl with ⟨rfl, rfl⟩ | ⟨-, hl⟩
        · rfl
        · exact h.keyed (.traced hl)

/-- A report that is accepted takes a task out of the trace map, and may end the phase. -/
theorem lies_reportTask (hp : (s.reportTask w task).Lies key p) : s.Lies key p := by
  unfold System.reportTask Coordinator.reportTask at hp
  cases hp with
  | queued hq =>
    refine .queued ?_
    revert hq
    split_ifs <;> exact id
  | held hv => exact .held (received_of_update rfl hv)
  | traced hl =>
    refine .traced ?_
    revert hl
    split_ifs
    · exact id
    · exact fun hl => (of_lookup_erase hl).2

omit [DecidableEq W] in
theorem not_lies_of_drained (hd : s.coordinator.drained) (hh : s.NoneHeld) : ¬ s.Lies key p := by
  simp only [Coordinator.drained, Bool.and_eq_true, List.isEmpty_iff] at hd
  intro hp
  cases hp with
  | queued hq =>
    rw [hd.1] at hq
    cases hq
  | @held v task hv =>
    have hno := hh v
    rw [hv] at hno
    cases hno
  | @traced filed task hl =>
    have hmem := AList.lookup_isSome.mp (Option.isSome_of_mem hl)
    simp [AList.mem_keys, AList.keys, hd.2] at hmem

theorem InOrder.reportTask (h : s.InOrder) (hw : s.workers w = .running task)
    (hend : s.coordinator.phase = .map → (s.reportTask w task).coordinator.phase ≠ .map →
      s.NoneHeld) : (s.reportTask w task).InOrder := by
  by_cases hsw : s.coordinator.phase = .map ∧ (s.reportTask w task).coordinator.phase = .reduce
  · -- at the end of the map phase there is no task anywhere
    obtain ⟨hmap, hreduce⟩ := hsw
    have hgen : (s.reportTask w task).generator = some 0 := if_pos ⟨hmap, hreduce⟩
    have hswitch : Switch s (s.reportTask w task) :=
      (Move.reportTask hw).switch (by simp [hmap, hreduce])
    have hnone : s.NoneHeld := hend hmap (by simp [hreduce])
    have hempty {key : Key} {p : Place W} : ¬ (s.reportTask w task).Lies key p :=
      not_lies_of_drained hswitch.drained (hswitch.held hnone)
    constructor
    · intro key p q hp
      exact absurd hp hempty
    · intro key filed hp
      exact absurd hp hempty
    · intro key p hp
      exact absurd hp hempty
    · simp [hgen, hreduce]
    · simp [hgen]
  · obtain ⟨hmap, hreduce⟩ := (Move.reportTask hw).counts
    refine h.subset lies_reportTask (if_neg hsw) hmap hreduce ?_
    rcases s.coordinator.reportTask_phase s.now task.key with hph | ⟨-, hph | hph⟩
    · exact Eq.congr_left hph
    · exact absurd hph hsw
    · have hnext : (s.reportTask w task).coordinator.phase = .done := hph.2
      simp [hph.1, hnext]

omit [DecidableEq W] in
/-- The task that `generateReduceTasks` sends is new. -/
theorem InOrder.generate (h : s.InOrder) {i : ℕ} (hg : s.generator = some i)
    (hi : i < s.coordinator.nReduce) :
    InOrder { s with
      coordinator := { s.coordinator with
        taskQueue := s.coordinator.taskQueue ++ [Coordinator.reduceTask i] }
      generator := some (i + 1) } := by
  have hissued : s.issued = {Kind.reduce} ×ˢ Finset.range i := by
    unfold issued
    rw [hg]
  have hnew {p : Place W} : ¬ s.Lies (Coordinator.reduceTask i).key p := by
    intro hp
    have hmem := h.mem_issued hp
    rw [hissued] at hmem
    simp [Coordinator.reduceTask, TaskInfo.key] at hmem
  have hold {key : Key} {p : Place W} (hp : Lies { s with
      coordinator := { s.coordinator with
        taskQueue := s.coordinator.taskQueue ++ [Coordinator.reduceTask i] }
      generator := some (i + 1) } key p) : s.Lies key p ∨
      key = (Coordinator.reduceTask i).key ∧
        p = .queued s.coordinator.taskQueue.length := by
    cases hp with
    | queued hq =>
      rcases of_getElem?_concat hq with hq | ⟨rfl, rfl⟩
      · exact Or.inl (.queued hq)
      · exact Or.inr ⟨rfl, rfl⟩
    | held hv => exact Or.inl (.held hv)
    | traced hl => exact Or.inl (.traced hl)
  constructor
  · intro key p q hp hq
    rcases hold hp with hp | ⟨rfl, rfl⟩
    · rcases hold hq with hq | ⟨rfl, rfl⟩
      · exact h.single hp hq
      · exact absurd hp hnew
    · rcases hold hq with hq | ⟨-, rfl⟩
      · exact absurd hq hnew
      · rfl
  · intro key filed hp
    rcases hold hp with hp | ⟨-, hp⟩
    · exact h.keyed hp
    · cases hp
  · intro key p hp
    rcases hold hp with hp | ⟨rfl, -⟩
    · have hmem := h.mem_issued hp
      rw [hissued] at hmem
      simp only [Finset.mem_product, Finset.mem_singleton, Finset.mem_range] at hmem
      simp only [issued, Finset.mem_product, Finset.mem_singleton, Finset.mem_range]
      exact ⟨hmem.1, by omega⟩
    · simp [issued, Coordinator.reduceTask, TaskInfo.key]
  · rw [h.generator, hg]
    simp
  · intro g hg'
    obtain rfl := Option.some.inj hg'
    exact hi

/-- A task that has timed out goes from its key to the end of the queue. -/
theorem InOrder.retrieve (h : s.InOrder)
    (hl : s.coordinator.taskTraceMap.lookup key = some task) (rest : List Key) :
    InOrder { s with
      coordinator := { s.coordinator with
        taskTraceMap := s.coordinator.taskTraceMap.erase task.key
        taskQueue := s.coordinator.taskQueue ++ [task] }
      sweep := some rest } := by
  obtain rfl : key = task.key := h.keyed (.traced hl)
  refine h.shift (Equiv.swap (Place.queued s.coordinator.taskQueue.length)
    (.traced task.key)).injective (fun hp => ?_) (fun hp => ?_) rfl rfl rfl Iff.rfl
  · cases hp with
    | queued hq =>
      rcases of_getElem?_concat hq with hq | ⟨rfl, rfl⟩
      · have hlt := (List.getElem?_eq_some_iff.mp hq).1
        rw [Equiv.swap_apply_of_ne_of_ne (by simpa using hlt.ne) (by simp)]
        exact .queued hq
      · rw [Equiv.swap_apply_left]
        exact .traced hl
    | held hv =>
      rw [Equiv.swap_apply_of_ne_of_ne (by simp) (by simp)]
      exact .held hv
    | traced hl' =>
      obtain ⟨hne, hl'⟩ := of_lookup_erase hl'
      rw [Equiv.swap_apply_of_ne_of_ne (by simp) (by simpa using hne)]
      exact .traced hl'
  · cases hp with
    | traced hl' => exact h.keyed (.traced (of_lookup_erase hl').2)

/-- The accounts stay in order in a step that does not end the map phase while an `AssignTask`
call holds a task. -/
theorem InOrder.step {a : Action W} (h : s.InOrder) (hs : s.step a = some s')
    (hend : s.coordinator.phase = .map → s'.coordinator.phase ≠ .map → s.NoneHeld) :
    s'.InOrder := by
  cases step_move hs with
  | assignTask _ _ hheld => exact h.update_worker _ hheld
  | receive _ hq => exact h.receive hq _ _
  | trace hw => exact h.trace hw
  | reportTask hw => exact h.reportTask hw hend
  | generate hg hi => exact h.generate hg hi
  | retrieve _ hl => exact h.retrieve hl _
  | pass => exact h.pass _ _

omit [DecidableEq W] in
theorem init_inOrder (files : List String) (nReduce : ℕ) :
    (init files nReduce : System W).InOrder := by
  -- the map task at position `i` of the queue has the number `i`
  have hlies {key : Key} {p : Place W} (hp : (init files nReduce).Lies key p) :
      ∃ i < files.length, key = (.map, i) ∧ p = .queued i := by
    cases hp with
    | @queued i task hq =>
      change (files.mapIdx fun i file => (⟨i, .map, file, 0⟩ : TaskInfo))[i]? = some task at hq
      rw [List.getElem?_mapIdx] at hq
      obtain ⟨file, hfile, rfl⟩ := Option.map_eq_some_iff.mp hq
      exact ⟨i, (List.getElem?_eq_some_iff.mp hfile).1, rfl, rfl⟩
    | held hv => cases hv
    | traced hl => cases hl
  constructor
  · intro key p q hp hq
    obtain ⟨i, -, rfl, rfl⟩ := hlies hp
    obtain ⟨j, -, hij, rfl⟩ := hlies hq
    rw [(Prod.mk.inj hij).2]
  · intro key filed hp
    obtain ⟨i, -, -, hp⟩ := hlies hp
    cases hp
  · intro key p hp
    obtain ⟨i, hi, rfl, -⟩ := hlies hp
    simp [issued, init, makeCoordinator, hi]
  · exact iff_of_true rfl rfl
  · intro g hg
    cases hg

theorem Run.inOrder {files : List String} {nReduce : ℕ} {r : ℕ → System W}
    (hr : Run (EndsSettled .map) files nReduce r) (k : ℕ) : (r k).InOrder := by
  refine hr.steps.invariant (fun s a s' hend hs h => h.step hs fun hp hne =>
    (hend.settled hs hp hne).1) ?_ k
  rw [hr.init]
  exact init_inOrder files nReduce

/-- If a sweep that holds the mutex waits for room in the queue, with the generator of the reduce
tasks, and no worker is about to receive, then only time passes. -/
theorem tick_of_waiting (rest : List Key) {a : Action W} (hsweep : s.sweep = some rest)
    (hne : rest ≠ []) (hvisit : ∀ key ∈ rest, s.visit key = none) (hgen : s.generate = none)
    (hworkers : ∀ w, s.workers w ≠ .waiting) (hs : s.step a = some s') : ∃ d, a = .tick d := by
  have hlocked : s.unlocked = false := by
    unfold unlocked
    rw [hsweep]
    rfl
  cases a with
  | tick d => exact ⟨d, rfl⟩
  | receive w => simp [System.step, hworkers w] at hs
  | trace w =>
    simp only [System.step] at hs
    split at hs <;> simp [hlocked] at hs
  | reportTask w =>
    simp only [System.step] at hs
    split at hs <;> simp [hlocked] at hs
  | generate => simp [System.step, hgen] at hs
  | visit key =>
    by_cases hkey : key ∈ rest
    · simp [System.step, hvisit key hkey] at hs
    · simp [System.step, System.visit, hsweep, hkey] at hs
  | endSweep => simp [System.step, hsweep, hne] at hs
  | _ => simp [System.step, hlocked] at hs

end Steps

end System

section Accounting
variable {W : Type*} [DecidableEq W] {files : List String} {nReduce : ℕ} {r : ℕ → System W}

/-- The accounts of the coordinator: if no report ends the map phase while an `AssignTask` call
holds a task that it has not filed, then every task is filed under its own key, no task is in two
places, the queue keeps within its capacity, and the send of a timeout sweep never waits. -/
theorem task_accounting (hr : System.Run (System.EndsSettled .map) files nReduce r) (k : ℕ) :
    (∀ key task, (r k).coordinator.taskTraceMap.lookup key = some task → key = task.key) ∧
    Relator.RightUnique (r k).Lies ∧
    (r k).coordinator.taskQueue.length ≤ max nReduce files.length ∧
    ∀ key rest, (r k).sweep = some rest → key ∈ rest → ((r k).visit key).isSome := by
  have h := hr.inOrder k
  refine ⟨?_, h.single, ?_, ?_⟩
  · intro key task hl
    exact h.keyed (.traced hl)
  · obtain ⟨hmap, hreduce⟩ := hr.counts k
    have hle := h.length_le_capacity
    rwa [Coordinator.capacity, hmap, hreduce] at hle
  · intro key rest hsweep hkey
    exact h.visit_isSome hsweep hkey

end Accounting

/-- A map task times out and is put back, and another worker takes it. -/
def timeoutRun {W : Type*} (v w : W) : List (Action W) :=
  [.assignTask v, .receive v, .trace v, .tick (maxTaskTime + 1), .beginSweep, .visit (.map, 0),
    .endSweep, .assignTask w, .receive w, .trace w]

theorem task_accounting_timeoutRun :
    ∃ r : ℕ → System (Fin 2), System.Run (System.EndsSettled .map) ["a"] 1 r ∧
      ((r 5).visit (.map, 0)).isSome ∧ Relator.RightUnique (r 10).Lies := by
  have hr : System.Run (System.EndsSettled .map) ["a"] 1
      (trace System.step (.init ["a"] 1) (timeoutRun (0 : Fin 2) 1)) :=
    ⟨trace_zero _ _, trace_isRun (by decide)⟩
  refine ⟨_, hr, ?_, (task_accounting hr 10).2.1⟩
  exact (task_accounting hr 5).2.2.2 (.map, 0) [(.map, 0)] (by decide) (by decide)

/-- As in `earlyReportRun`, the map phase ends while the second worker has not filed its map task.
It is then filed as a reduce task, and each of two sweeps puts a copy of it back without taking it
out of the trace map. A third sweep begins. -/
def misfiledRun {W : Type*} (v w : W) : List (Action W) :=
  earlyReportRun v w ++ [.trace w, .tick (maxTaskTime + 1), .beginSweep, .visit (.reduce, 1),
    .endSweep, .beginSweep, .visit (.reduce, 1), .endSweep, .beginSweep]

/-- The third sweep waits for room in the queue, with the mutex locked, and no step but the passing
of time is possible. -/
theorem misfiled_task_misfiledRun :
    ∃ r : ℕ → System (Fin 2), System.Run (fun _ _ => True) ["a", "b"] 1 r ∧
      ((r 7).coordinator.taskTraceMap.lookup (.reduce, 1)).map TaskInfo.key = some (.map, 1) ∧
      (r 14).coordinator.taskQueue.map TaskInfo.key = [(.map, 1), (.map, 1)] ∧
      (r 15).sweep = some [(.reduce, 1)] ∧ (r 15).visit (.reduce, 1) = none ∧
      ∀ a s, (r 15).step a = some s → ∃ d, a = .tick d := by
  refine ⟨trace System.step (.init ["a", "b"] 1) (misfiledRun (0 : Fin 2) 1),
    ⟨trace_zero _ _, trace_isRun (by decide)⟩, by decide, by decide, by decide, rfl, ?_⟩
  intro a s hs
  refine System.tick_of_waiting [(.reduce, 1)] (by decide) (by simp) ?_ rfl (by decide) hs
  intro key hkey
  obtain rfl := List.mem_singleton.mp hkey
  rfl

end RaftLabs.Mr
