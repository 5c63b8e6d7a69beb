import RaftLabs.Basis.Transition
import RaftLabs.Porcupine.History

/-! `checkParallel`: one goroutine for each part of the history runs `checkSingle`, and the
main goroutine collects their results until it has them all, knows that the answer is no, or
times out. For every interleaving the answer is right or unknown, and there is an answer. -/
namespace RaftLabs.Porcupine
open Basis

variable {σ ι ο T : Type}

inductive CheckResult where
  | unknown | ok | illegal
  deriving DecidableEq, Repr

/-- Where the goroutine of a part is. -/
inductive Goroutine where
  | checking
  | returned (ok : Bool) (l : Longest)
  | stored (ok : Bool)
  | sent

/-- Where the main goroutine is: in its loop, before it stores the kill flag, after the loop, or
at its end. -/
inductive Phase where
  | collecting | killing | waiting | done
  deriving DecidableEq, Repr

structure Parallel where
  goroutines : ℕ → Goroutine
  longest : ℕ → Longest
  results : List Bool
  kill : Bool
  phase : Phase
  count : ℕ
  ok : Bool
  timedOut : Bool

inductive ParallelAction where
  /-- The call of `checkSingle` returns; its rounds from `killedAt` on read that the flag is set. -/
  | check (i : ℕ) (killedAt : Option ℕ)
  | store (i : ℕ)
  | send (i : ℕ)
  | receive
  | timeout
  | kill
  | drain
  | finish

def startParallel : Parallel :=
  ⟨fun _ => .checking, fun _ _ => none, [], false, .collecting, 0, true, false⟩

section Step
variable (model : Filled σ ι ο) (history : List (List (Entry ι ο))) (computeInfo : Bool)
  (timeout : ℤ)

/-- The result is received in the loop. -/
def Parallel.receive (s : Parallel) (result : Bool) (results : List Bool) : Parallel :=
  let count := s.count + 1
  let ok := s.ok && result
  { s with
    results, count, ok
    phase :=
      if !ok && !computeInfo then .killing
      else if count ≥ history.length then .waiting
      else .collecting }

def parallelStep (s : Parallel) : ParallelAction → Option Parallel
  | .check i killedAt => do
    let subhistory ← history[i]?
    match s.goroutines i with
    | .checking =>
      if killedAt.isSome → s.kill then
        let (ok, l) ← checkSingle model subhistory computeInfo fun k => killedAt.any (· ≤ k)
        some { s with goroutines := Function.update s.goroutines i (.returned ok l) }
      else none
    | _ => none
  | .store i =>
    match s.goroutines i with
    | .returned ok l => some
        { s with
          goroutines := Function.update s.goroutines i (.stored ok)
          longest := Function.update s.longest i l }
    | _ => none
  | .send i =>
    match s.goroutines i with
    | .stored ok => some
        { s with
          goroutines := Function.update s.goroutines i .sent
          results := s.results ++ [ok] }
    | _ => none
  | .receive =>
    match s.phase, s.results with
    | .collecting, result :: results => some (s.receive history computeInfo result results)
    | _, _ => none
  | .timeout =>
    if s.phase = .collecting ∧ timeout > 0 then
      some { s with timedOut := true, phase := .killing }
    else none
  | .kill => if s.phase = .killing then some { s with kill := true, phase := .waiting } else none
  | .drain =>
    match s.results with
    | _ :: results =>
      if s.phase = .waiting ∧ computeInfo ∧ s.count < history.length then
        some { s with results, count := s.count + 1 }
      else none
    | [] => none
  | .finish =>
    if s.phase = .waiting ∧ (computeInfo → s.count ≥ history.length) then
      some { s with phase := .done }
    else none

end Step

def Parallel.result (s : Parallel) : CheckResult :=
  if !s.ok then .illegal else if s.timedOut then .unknown else .ok

/-- The distinct linearizations in `longest`, which has `n` fields; the order of the set that
the code uses is not fixed. -/
def partials (n : ℕ) (longest : Longest) : List (List ℕ) :=
  ((List.range n).filterMap longest).dedup

/-! What holds in every state. -/

section Invariant
variable (model : Filled σ ι ο) (history : List (List (Entry ι ο))) (computeInfo : Bool)
  (timeout : ℤ) [LT T] (ops : ℕ → List (Basis.Operation ι ο T))

/-- What a result of the part `i` says; a search that was killed says nothing. -/
structure Told (kill : Bool) (i : ℕ) (ok : Bool) (l : Longest) : Prop where
  legal : LegalPartials model (ops i).get l
  verdict : Verdict model (ops i).get computeInfo (ok, l) ∨ (ok = false ∧ kill)

/-- The results in the order in which they were sent. -/
structure Sent (s : Parallel) (order : List (ℕ × Bool)) : Prop where
  nodup : (order.map Prod.fst).Nodup
  mem : ∀ i, i ∈ order.map Prod.fst ↔ i < history.length ∧ s.goroutines i = .sent
  told : ∀ x ∈ order, Told model computeInfo ops s.kill x.1 x.2 (s.longest x.1)
  count_le : s.count ≤ order.length
  results : s.results = (order.drop s.count).map Prod.snd
  ok : s.phase = .collecting → s.ok = (order.take s.count).all Prod.snd

structure ParallelInv (s : Parallel) : Prop where
  sent : ∃ order, Sent model history computeInfo ops s order
  unsent : ∀ i, s.goroutines i ≠ .checking → i < history.length
  returned : ∀ i ok l, s.goroutines i = .returned ok l → Told model computeInfo ops s.kill i ok l
  stored : ∀ i ok, s.goroutines i = .stored ok →
    Told model computeInfo ops s.kill i ok (s.longest i)
  collecting : s.phase = .collecting → s.kill = false ∧ s.timedOut = false ∧
    (s.ok = false → computeInfo) ∧ (history ≠ [] → s.count < history.length)
  illegal : s.ok = false → ∃ i < history.length, ¬ model.spec.Linearizable (ops i)
  passed : s.phase ≠ .collecting → s.ok → s.timedOut = false →
    ∀ i < history.length, model.spec.Linearizable (ops i)
  killing : s.phase = .killing → s.kill = false
  killed : s.kill ∨ s.phase = .killing → s.timedOut ∨ (s.ok = false ∧ computeInfo = false)
  timedOut : s.timedOut → timeout > 0
  drained : s.phase = .done → computeInfo → s.count ≥ history.length

end Invariant

section Steps
variable {model : Filled σ ι ο} {history : List (List (Entry ι ο))} {computeInfo : Bool}
  {timeout : ℤ} [LT T] {ops : ℕ → List (Basis.Operation ι ο T)} {s s' : Parallel}

theorem Told.mono {kill kill' : Bool} {i : ℕ} {ok : Bool} {l : Longest}
    (h : Told model computeInfo ops kill i ok l) (hk : kill → kill') :
    Told model computeInfo ops kill' i ok l :=
  ⟨h.legal, h.verdict.imp_right fun hb => ⟨hb.1, hk hb.2⟩⟩

/-- A result that was not killed is right. -/
theorem Told.linearizable_iff {i : ℕ} {ok : Bool} {l : Longest}
    (h : Told model computeInfo ops false i ok l) :
    ok = true ↔ model.spec.Linearizable (ops i) := by
  have hv := (h.verdict.resolve_right fun hb => Bool.noConfusion hb.2).linearizable
  rwa [List.map_get_finRange] at hv

/-- A positive result is right in any case. -/
theorem Told.linearizable {kill : Bool} {i : ℕ} {l : Longest}
    (h : Told model computeInfo ops kill i true l) : model.spec.Linearizable (ops i) := by
  have hv := (h.verdict.resolve_right fun hb => Bool.noConfusion hb.1).linearizable
  rw [List.map_get_finRange] at hv
  exact hv.mp rfl

/-- What was sent does not change with other steps. -/
theorem Sent.congr {order : List (ℕ × Bool)} (h : Sent model history computeInfo ops s order)
    (hsent : ∀ i, s'.goroutines i = .sent ↔ s.goroutines i = .sent)
    (hlong : ∀ i, s.goroutines i = .sent → s'.longest i = s.longest i) (hkill : s.kill → s'.kill)
    (hres : s'.results = s.results) (hcount : s'.count = s.count)
    (hphase : s'.phase = .collecting → s.phase = .collecting) (hok : s'.ok = s.ok) :
    Sent model history computeInfo ops s' order where
  nodup := h.nodup
  mem i := by rw [h.mem, hsent]
  told x hx := by
    have hg := ((h.mem x.1).mp (List.mem_map_of_mem hx)).2
    rw [hlong x.1 hg]
    exact (h.told x hx).mono hkill
  count_le := hcount ▸ h.count_le
  results := by rw [hres, hcount, h.results]
  ok hp := by rw [hok, hcount, h.ok (hphase hp)]

theorem startParallel_inv : ParallelInv model history computeInfo timeout ops startParallel where
  sent := ⟨[], by simp, by simp [startParallel], by simp, le_rfl, rfl, fun _ => rfl⟩
  unsent i h := absurd rfl h
  returned i ok l h := by cases h
  stored i ok h := by cases h
  collecting _ := ⟨rfl, rfl, by simp [startParallel], List.length_pos_iff.mpr⟩
  illegal h := by cases h
  passed h := absurd rfl h
  killing h := by cases h
  killed h := by simp [startParallel] at h
  timedOut h := by cases h
  drained h := by cases h

theorem update_cases {g : ℕ → Goroutine} {i j : ℕ} {x y : Goroutine}
    (h : Function.update g i x j = y) : (j = i ∧ x = y) ∨ (j ≠ i ∧ g j = y) := by
  by_cases hji : j = i
  · subst hji
    exact Or.inl ⟨rfl, by rwa [Function.update_self] at h⟩
  · exact Or.inr ⟨hji, by rwa [Function.update_of_ne hji] at h⟩

/-- A goroutine moves on without sending. -/
theorem ParallelInv.move (h : ParallelInv model history computeInfo timeout ops s) {i : ℕ}
    {g : Goroutine} {longest : ℕ → Longest} (hi : i < history.length)
    (hold : s.goroutines i ≠ .sent) (hnew : g ≠ .sent)
    (hlong : ∀ j, j ≠ i → longest j = s.longest j)
    (hret : ∀ ok l, g = .returned ok l → Told model computeInfo ops s.kill i ok l)
    (hsto : ∀ ok, g = .stored ok → Told model computeInfo ops s.kill i ok (longest i)) :
    ParallelInv model history computeInfo timeout ops
      { s with goroutines := Function.update s.goroutines i g, longest } where
  sent := by
    obtain ⟨order, ho⟩ := h.sent
    have hsent : ∀ j, Function.update s.goroutines i g j = .sent ↔ s.goroutines j = .sent := by
      intro j
      by_cases hj : j = i
      · subst hj
        simp [hold, hnew]
      · rw [Function.update_of_ne hj]
    refine ⟨order, ho.congr hsent (fun j hj => hlong j ?_) id rfl rfl id rfl⟩
    rintro rfl
    exact hold hj
  unsent j hj := by
    by_cases hji : j = i
    · exact hji ▸ hi
    · exact h.unsent j fun heq => hj ((Function.update_of_ne hji _ _).trans heq)
  returned j ok l hj := by
    rcases update_cases hj with ⟨rfl, heq⟩ | ⟨-, heq⟩
    · exact hret ok l heq
    · exact h.returned j ok l heq
  stored j ok hj := by
    rcases update_cases hj with ⟨rfl, heq⟩ | ⟨hji, heq⟩
    · exact hsto ok heq
    · change Told model computeInfo ops s.kill j ok (longest j)
      rw [hlong j hji]
      exact h.stored j ok heq
  collecting := h.collecting
  illegal := h.illegal
  passed := h.passed
  killing := h.killing
  killed := h.killed
  timedOut := h.timedOut
  drained := h.drained

theorem ParallelInv.send (h : ParallelInv model history computeInfo timeout ops s) {i : ℕ}
    {ok : Bool} (hg : s.goroutines i = .stored ok) :
    ParallelInv model history computeInfo timeout ops
      { s with
        goroutines := Function.update s.goroutines i .sent
        results := s.results ++ [ok] } := by
  have hi := h.unsent i (by rw [hg]; simp)
  have hother : ∀ {j g}, Function.update s.goroutines i .sent j = g → g ≠ .sent →
      s.goroutines j = g := by
    intro j g hj hne
    rcases update_cases hj with ⟨-, heq⟩ | ⟨-, heq⟩
    · exact absurd heq.symm hne
    · exact heq
  refine ⟨?_, fun j hj => ?_, fun j ok l hj => h.returned j ok l (hother hj (by simp)),
    fun j ok hj => h.stored j ok (hother hj (by simp)), h.collecting, h.illegal, h.passed,
    h.killing, h.killed, h.timedOut, h.drained⟩
  · obtain ⟨order, ho⟩ := h.sent
    have hnew : i ∉ order.map Prod.fst := by
      rw [ho.mem, hg]
      simp
    refine ⟨order ++ [(i, ok)], ?_, fun j => ?_, fun x hx => ?_, ?_, ?_, fun hp => ?_⟩
    · rw [List.map_append, List.nodup_append]
      refine ⟨ho.nodup, List.nodup_singleton _, ?_⟩
      rintro a ha b hb rfl
      obtain rfl : a = i := List.mem_singleton.mp hb
      exact hnew ha
    · rw [List.map_append, List.mem_append, ho.mem]
      by_cases hji : j = i
      · subst hji
        simp [hi]
      · simp [hji]
    · rcases List.mem_append.mp hx with hx | hx
      · exact ho.told x hx
      · obtain rfl := List.mem_singleton.mp hx
        exact h.stored i ok hg
    · exact ho.count_le.trans (by simp)
    · rw [List.drop_append_of_le_length ho.count_le, List.map_append, ← ho.results]
      rfl
    · rw [List.take_append_of_le_length ho.count_le]
      exact ho.ok hp
  · by_cases hji : j = i
    · exact hji ▸ hi
    · exact h.unsent j fun heq => hj ((Function.update_of_ne hji _ _).trans heq)

/-- Every part has sent its result when as many were received. -/
theorem Sent.mem_take {order : List (ℕ × Bool)} (ho : Sent model history computeInfo ops s order)
    (hcount : history.length ≤ s.count) {i : ℕ} (hi : i < history.length) :
    ∃ ok, (i, ok) ∈ order.take s.count := by
  have hsub : order.map Prod.fst ⊆ List.range history.length := fun j hj =>
    List.mem_range.mpr ((ho.mem j).mp hj).1
  have hperm : (order.map Prod.fst).Perm (List.range history.length) := by
    refine (List.subperm_of_subset ho.nodup hsub).perm_of_length_le ?_
    simpa using hcount.trans ho.count_le
  have hall : order.take s.count = order := by
    refine List.take_of_length_le ?_
    have := hperm.length_eq
    simp only [List.length_map, List.length_range] at this
    omega
  obtain ⟨x, hx, rfl⟩ := List.mem_map.mp (hperm.mem_iff.mpr (List.mem_range.mpr hi))
  exact ⟨x.2, hall.symm ▸ hx⟩

/-- The next result to be received. -/
theorem Sent.next {order : List (ℕ × Bool)} (ho : Sent model history computeInfo ops s order)
    {result : Bool} {results : List Bool} (hres : s.results = result :: results) :
    ∃ i, (i, result) ∈ order ∧ order.take (s.count + 1) = order.take s.count ++ [(i, result)] ∧
      s.count + 1 ≤ order.length ∧ results = (order.drop (s.count + 1)).map Prod.snd := by
  have hr := ho.results
  rw [hres] at hr
  cases hdrop : order.drop s.count with
  | nil =>
    rw [hdrop] at hr
    cases hr
  | cons x rest =>
    rw [hdrop, List.map_cons] at hr
    obtain ⟨hx, hrest⟩ := List.cons.inj hr
    have hlt : s.count < order.length := by
      by_contra hge
      rw [List.drop_eq_nil_of_le (by omega)] at hdrop
      cases hdrop
    rw [List.drop_eq_getElem_cons hlt] at hdrop
    obtain ⟨hget, htail⟩ := List.cons.inj hdrop
    have hpair : (x.1, result) = x := by rw [hx]
    refine ⟨x.1, ?_, ?_, hlt, by rw [htail, hrest]⟩
    · rw [hpair, ← hget]
      exact List.getElem_mem hlt
    · rw [hpair, List.take_add_one, List.getElem?_eq_getElem hlt, hget]
      rfl

theorem ParallelInv.receive (h : ParallelInv model history computeInfo timeout ops s)
    {result : Bool} {results : List Bool} (hphase : s.phase = .collecting)
    (hres : s.results = result :: results) :
    ParallelInv model history computeInfo timeout ops
      (s.receive history computeInfo result results) := by
  obtain ⟨order, ho⟩ := h.sent
  obtain ⟨hkill, htime, hinfo, hcount⟩ := h.collecting hphase
  obtain ⟨i, hmem, htake, hle, hrest⟩ := ho.next hres
  have hi := ((ho.mem i).mp (List.mem_map_of_mem hmem)).1
  have htold := ho.told (i, result) hmem
  rw [hkill] at htold
  have hok : (s.ok && result) = (order.take (s.count + 1)).all Prod.snd := by
    rw [htake, List.all_append, ← ho.ok hphase]
    simp
  have hsent : Sent model history computeInfo ops (s.receive history computeInfo result results)
      order := ⟨ho.nodup, ho.mem, ho.told, hle, hrest, fun _ => hok⟩
  have hcases : ∀ p, (s.receive history computeInfo result results).phase = p →
      ((s.ok && result) = false ∧ computeInfo = false ∧ p = .killing) ∨
      (((s.ok && result) = false → computeInfo) ∧ history.length ≤ s.count + 1 ∧ p = .waiting) ∨
      (((s.ok && result) = false → computeInfo) ∧ s.count + 1 < history.length ∧
        p = .collecting) := by
    rintro p rfl
    simp only [Parallel.receive]
    cases s.ok && result <;> cases computeInfo <;> simp <;> omega
  refine ⟨⟨order, hsent⟩, h.unsent, h.returned, h.stored, fun hp => ?_, fun hno => ?_,
    fun hp hyes _ j hj => ?_, fun _ => hkill, fun hk => ?_, h.timedOut, fun hp => ?_⟩
  · rcases hcases _ hp with ⟨-, -, hp⟩ | ⟨-, -, hp⟩ | ⟨hno, hlt, -⟩
    · cases hp
    · cases hp
    · exact ⟨hkill, htime, hno, fun _ => hlt⟩
  · change (s.ok && result) = false at hno
    rcases Bool.and_eq_false_iff.mp hno with hold | rfl
    · exact h.illegal hold
    · exact ⟨i, hi, fun hl => Bool.noConfusion (htold.linearizable_iff.mpr hl)⟩
  · change (s.ok && result) = true at hyes
    rcases hcases _ rfl with ⟨hno, -, -⟩ | ⟨-, hlen, -⟩ | ⟨-, -, hp'⟩
    · rw [hno] at hyes
      cases hyes
    · obtain ⟨ok, hjok⟩ := hsent.mem_take hlen hj
      have hall := List.all_eq_true.mp (hok.symm.trans hyes) (j, ok) hjok
      obtain rfl : ok = true := hall
      exact (hsent.told (j, true) (List.mem_of_mem_take hjok)).linearizable
    · exact absurd hp' hp
  · have hp : (s.receive history computeInfo result results).phase = .killing := by
      refine hk.resolve_left fun hk => ?_
      change s.kill = true at hk
      rw [hkill] at hk
      cases hk
    rcases hcases _ hp with ⟨hno, hinfo, -⟩ | ⟨-, -, hp⟩ | ⟨-, -, hp⟩
    · exact Or.inr ⟨hno, hinfo⟩
    · cases hp
    · cases hp
  · rcases hcases _ hp with ⟨-, -, hp⟩ | ⟨-, -, hp⟩ | ⟨-, -, hp⟩ <;> cases hp

/-- The timer fires. -/
theorem ParallelInv.expire (h : ParallelInv model history computeInfo timeout ops s)
    (hphase : s.phase = .collecting) (ht : timeout > 0) :
    ParallelInv model history computeInfo timeout ops
      { s with timedOut := true, phase := .killing } where
  sent := h.sent.imp fun _ ho => ho.congr (fun _ => Iff.rfl) (fun _ _ => rfl) id rfl rfl
    (by rintro ⟨⟩) rfl
  unsent := h.unsent
  returned := h.returned
  stored := h.stored
  collecting hp := by cases hp
  illegal := h.illegal
  passed _ _ hno := by cases hno
  killing _ := (h.collecting hphase).1
  killed _ := Or.inl rfl
  timedOut _ := ht
  drained hp := by cases hp

theorem ParallelInv.kill (h : ParallelInv model history computeInfo timeout ops s)
    (hphase : s.phase = .killing) :
    ParallelInv model history computeInfo timeout ops
      { s with kill := true, phase := .waiting } where
  sent := h.sent.imp fun _ ho => ho.congr (fun _ => Iff.rfl) (fun _ _ => rfl) (fun _ => rfl) rfl rfl
    (by rintro ⟨⟩) rfl
  unsent := h.unsent
  returned i ok l hi := (h.returned i ok l hi).mono fun _ => rfl
  stored i ok hi := (h.stored i ok hi).mono fun _ => rfl
  collecting hp := by cases hp
  illegal := h.illegal
  passed _ := h.passed (by simp [hphase])
  killing hp := by cases hp
  killed _ := h.killed (Or.inr hphase)
  timedOut := h.timedOut
  drained hp := by cases hp

theorem ParallelInv.drain (h : ParallelInv model history computeInfo timeout ops s)
    (hphase : s.phase = .waiting) {result : Bool} {results : List Bool}
    (hres : s.results = result :: results) :
    ParallelInv model history computeInfo timeout ops
      { s with results, count := s.count + 1 } where
  sent := by
    obtain ⟨order, ho⟩ := h.sent
    obtain ⟨-, -, -, hle, hrest⟩ := ho.next hres
    exact ⟨order, ho.nodup, ho.mem, ho.told, hle, hrest, fun hp =>
      Phase.noConfusion (hphase.symm.trans hp)⟩
  unsent := h.unsent
  returned := h.returned
  stored := h.stored
  collecting hp := Phase.noConfusion (hphase.symm.trans hp)
  illegal := h.illegal
  passed := h.passed
  killing := h.killing
  killed := h.killed
  timedOut := h.timedOut
  drained hp := Phase.noConfusion (hphase.symm.trans hp)

theorem ParallelInv.finish (h : ParallelInv model history computeInfo timeout ops s)
    (hphase : s.phase = .waiting) (hcount : computeInfo → s.count ≥ history.length) :
    ParallelInv model history computeInfo timeout ops { s with phase := .done } where
  sent := h.sent.imp fun _ ho => ho.congr (fun _ => Iff.rfl) (fun _ _ => rfl) id rfl rfl
    (by rintro ⟨⟩) rfl
  unsent := h.unsent
  returned := h.returned
  stored := h.stored
  collecting hp := by cases hp
  illegal := h.illegal
  passed _ := h.passed (by simp [hphase])
  killing hp := by cases hp
  killed hk := h.killed (Or.inl (hk.resolve_right (by rintro ⟨⟩)))
  timedOut := h.timedOut
  drained _ := hcount

/-- What one step can do. -/
theorem parallelStep_cases {a : ParallelAction}
    (h : parallelStep model history computeInfo timeout s a = some s') :
    (∃ i killedAt subhistory ok l, a = .check i killedAt ∧ history[i]? = some subhistory ∧
      s.goroutines i = .checking ∧ (killedAt.isSome → s.kill) ∧
      checkSingle model subhistory computeInfo (fun k => killedAt.any (· ≤ k)) = some (ok, l) ∧
      s' = { s with goroutines := Function.update s.goroutines i (.returned ok l) }) ∨
    (∃ i ok l, a = .store i ∧ s.goroutines i = .returned ok l ∧
      s' = { s with
        goroutines := Function.update s.goroutines i (.stored ok)
        longest := Function.update s.longest i l }) ∨
    (∃ i ok, a = .send i ∧ s.goroutines i = .stored ok ∧
      s' = { s with
        goroutines := Function.update s.goroutines i .sent, results := s.results ++ [ok] }) ∨
    (∃ result results, a = .receive ∧ s.phase = .collecting ∧ s.results = result :: results ∧
      s' = s.receive history computeInfo result results) ∨
    (a = .timeout ∧ s.phase = .collecting ∧ timeout > 0 ∧
      s' = { s with timedOut := true, phase := .killing }) ∨
    (a = .kill ∧ s.phase = .killing ∧ s' = { s with kill := true, phase := .waiting }) ∨
    (∃ result results, a = .drain ∧ s.results = result :: results ∧ s.phase = .waiting ∧
      s' = { s with results, count := s.count + 1 }) ∨
    (a = .finish ∧ s.phase = .waiting ∧ (computeInfo → s.count ≥ history.length) ∧
      s' = { s with phase := .done }) := by
  cases a with
  | check i killedAt =>
    obtain ⟨subhistory, hsub, h⟩ := Option.bind_eq_some_iff.mp h
    cases hg : s.goroutines i with
    | checking =>
      simp only [hg] at h
      by_cases hk : killedAt.isSome → s.kill
      · rw [if_pos hk] at h
        obtain ⟨⟨ok, l⟩, hcheck, h⟩ := Option.bind_eq_some_iff.mp h
        exact Or.inl ⟨i, killedAt, subhistory, ok, l, rfl, hsub, hg, hk, hcheck,
          (Option.some.inj h).symm⟩
      · rw [if_neg hk] at h
        cases h
    | returned ok l => simp [hg] at h
    | stored ok => simp [hg] at h
    | sent => simp [hg] at h
  | store i =>
    cases hg : s.goroutines i with
    | returned ok l =>
      simp only [parallelStep, hg] at h
      exact Or.inr (Or.inl ⟨i, ok, l, rfl, hg, (Option.some.inj h).symm⟩)
    | checking => simp [parallelStep, hg] at h
    | stored ok => simp [parallelStep, hg] at h
    | sent => simp [parallelStep, hg] at h
  | send i =>
    cases hg : s.goroutines i with
    | stored ok =>
      simp only [parallelStep, hg] at h
      exact Or.inr (Or.inr (Or.inl ⟨i, ok, rfl, hg, (Option.some.inj h).symm⟩))
    | checking => simp [parallelStep, hg] at h
    | returned ok l => simp [parallelStep, hg] at h
    | sent => simp [parallelStep, hg] at h
  | receive =>
    cases hp : s.phase with
    | collecting =>
      cases hr : s.results with
      | nil => simp [parallelStep, hp, hr] at h
      | cons result results =>
        simp only [parallelStep, hp, hr] at h
        exact Or.inr (Or.inr (Or.inr (Or.inl ⟨result, results, rfl, rfl, rfl,
          (Option.some.inj h).symm⟩)))
    | killing => simp [parallelStep, hp] at h
    | waiting => simp [parallelStep, hp] at h
    | done => simp [parallelStep, hp] at h
  | timeout =>
    obtain ⟨⟨hp, ht⟩, rfl⟩ := of_guarded h
    exact Or.inr (Or.inr (Or.inr (Or.inr (Or.inl ⟨rfl, hp, ht, rfl⟩))))
  | kill =>
    obtain ⟨hp, rfl⟩ := of_guarded h
    exact Or.inr (Or.inr (Or.inr (Or.inr (Or.inr (Or.inl ⟨rfl, hp, rfl⟩)))))
  | drain =>
    cases hr : s.results with
    | nil => simp [parallelStep, hr] at h
    | cons result results =>
      simp only [parallelStep, hr] at h
      obtain ⟨⟨hp, -⟩, rfl⟩ := of_guarded h
      exact Or.inr (Or.inr (Or.inr (Or.inr (Or.inr (Or.inr (Or.inl
        ⟨result, results, rfl, rfl, hp, rfl⟩))))))
  | finish =>
    obtain ⟨⟨hp, hc⟩, rfl⟩ := of_guarded h
    exact Or.inr (Or.inr (Or.inr (Or.inr (Or.inr (Or.inr (Or.inr ⟨rfl, hp, hc, rfl⟩))))))

section Described
variable (hd : ∀ (i : ℕ) (subhistory : List (Entry ι ο)), history[i]? = some subhistory →
  Describes subhistory (ops i).get) (hm : model.Lawful)
include hd hm

theorem ParallelInv.step (h : ParallelInv model history computeInfo timeout ops s)
    {a : ParallelAction} (hs : parallelStep model history computeInfo timeout s a = some s') :
    ParallelInv model history computeInfo timeout ops s' := by
  rcases parallelStep_cases hs with
    ⟨i, killedAt, subhistory, ok, l, -, hsub, hg, hk, hcheck, rfl⟩ | ⟨i, ok, l, -, hg, rfl⟩ |
    ⟨i, ok, -, hg, rfl⟩ | ⟨result, results, -, hp, hr, rfl⟩ | ⟨-, hp, ht, rfl⟩ | ⟨-, hp, rfl⟩ |
    ⟨result, results, -, hr, hp, rfl⟩ | ⟨-, hp, hc, rfl⟩
  · obtain ⟨⟨ok', l'⟩, hres, hlegal, hor⟩ :=
      (hd i subhistory hsub).checkSingle hm computeInfo fun k => killedAt.any (· ≤ k)
    obtain ⟨rfl, rfl⟩ := Prod.mk.inj (Option.some.inj (hcheck.symm.trans hres))
    have htold : Told model computeInfo ops s.kill i ok l := by
      refine ⟨hlegal, hor.imp_right fun ⟨hno, j, hj⟩ => ⟨hno, hk ?_⟩⟩
      cases killedAt with
      | none => cases hj
      | some k => rfl
    refine h.move (List.getElem?_eq_some_iff.mp hsub).1 (by simp [hg]) (by simp)
      (fun _ _ => rfl) (fun ok' l' heq => ?_) (by simp)
    cases heq
    exact htold
  · refine h.move (h.unsent i (by simp [hg])) (by simp [hg]) (by simp)
      (fun j hj => Function.update_of_ne hj _ _) (by simp) fun ok' heq => ?_
    cases heq
    rw [Function.update_self]
    exact h.returned i ok l hg
  · exact h.send hg
  · exact h.receive hp hr
  · exact h.expire hp ht
  · exact h.kill hp
  · exact h.drain hp hr
  · exact h.finish hp hc

/-- The invariant holds after every run. -/
theorem ParallelInv.exec {as : List ParallelAction}
    (h : Basis.exec (parallelStep model history computeInfo timeout) startParallel as = some s) :
    ParallelInv model history computeInfo timeout ops s :=
  exec_invariant (fun _ _ _ hs hi => hi.step hd hm hs) h startParallel_inv

/-- The main goroutine is never blocked for ever, unless there is nothing to wait for. -/
theorem ParallelInv.exists_step (h : ParallelInv model history computeInfo timeout ops s)
    (hwait : history ≠ [] ∨ timeout > 0) (hnot : s.phase ≠ .done) :
    ∃ a s', parallelStep model history computeInfo timeout s a = some s' := by
  obtain ⟨order, ho⟩ := h.sent
  -- a goroutine that has not sent can go on
  have hgo : s.results = [] → s.count < history.length →
      ∃ a s', parallelStep model history computeInfo timeout s a = some s' := by
    intro hres hcount
    have hlen : order.length = s.count := by
      have := congrArg List.length ho.results
      simp only [hres, List.length_nil, List.length_map, List.length_drop] at this
      have := ho.count_le
      omega
    obtain ⟨i, hi, hnew⟩ : ∃ i < history.length, i ∉ order.map Prod.fst := by
      by_contra hall
      push Not at hall
      have hsub : List.range history.length ⊆ order.map Prod.fst := fun i hi =>
        hall i (List.mem_range.mp hi)
      have := (List.subperm_of_subset List.nodup_range hsub).length_le
      simp only [List.length_range, List.length_map] at this
      omega
    rw [ho.mem, not_and] at hnew
    cases hg : s.goroutines i with
    | checking =>
      have hsub : history[i]? = some history[i] := List.getElem?_eq_getElem hi
      obtain ⟨result, hcheck, -⟩ := (hd i _ hsub).checkSingle hm computeInfo fun k =>
        (none : Option ℕ).any (· ≤ k)
      refine ⟨.check i none, { s with
        goroutines := Function.update s.goroutines i (.returned result.1 result.2) }, ?_⟩
      simp only [parallelStep, hsub, hg, hcheck, Option.bind_eq_bind, Option.bind_some]
      rfl
    | returned ok l => exact ⟨.store i, _, by simp only [parallelStep, hg]; rfl⟩
    | stored ok => exact ⟨.send i, _, by simp only [parallelStep, hg]; rfl⟩
    | sent => exact absurd hg (hnew hi)
  cases hp : s.phase with
  | collecting =>
    cases hr : s.results with
    | cons result results => exact ⟨.receive, _, by simp only [parallelStep, hp, hr]; rfl⟩
    | nil =>
      by_cases hnil : history = []
      · exact ⟨.timeout, _, if_pos ⟨hp, hwait.resolve_left fun hne => hne hnil⟩⟩
      · exact hgo hr ((h.collecting hp).2.2.2 hnil)
  | killing => exact ⟨.kill, _, if_pos hp⟩
  | waiting =>
    by_cases hc : computeInfo → s.count ≥ history.length
    · exact ⟨.finish, _, if_pos ⟨hp, hc⟩⟩
    · obtain ⟨hinfo, hlt⟩ := Classical.not_imp.mp hc
      cases hr : s.results with
      | nil => exact hgo hr (by omega)
      | cons result results =>
        refine ⟨.drain, { s with results, count := s.count + 1 }, ?_⟩
        simp only [parallelStep, hr]
        exact if_pos ⟨hp, hinfo, by omega⟩
  | done => exact absurd hp hnot

end Described

/-- The answer of a state of the run at its end. -/
theorem ParallelInv.result_cases (h : ParallelInv model history computeInfo timeout ops s)
    (hp : s.phase = .done) :
    (s.result = .ok → ∀ i < history.length, model.spec.Linearizable (ops i)) ∧
      (s.result = .illegal → ∃ i < history.length, ¬ model.spec.Linearizable (ops i)) ∧
      (s.result = .unknown → timeout > 0) := by
  have hnot : s.phase ≠ .collecting := by simp [hp]
  cases hok : s.ok with
  | false => simp [Parallel.result, hok, h.illegal hok]
  | true =>
    cases ht : s.timedOut with
    | false =>
      have hall := h.passed hnot hok ht
      simpa [Parallel.result, hok, ht] using hall
    | true => simp [Parallel.result, hok, ht, h.timedOut ht]

/-- The linearizations in the information at the end of a run. -/
theorem ParallelInv.partials (h : ParallelInv model history true timeout ops s)
    (hp : s.phase = .done) {i : ℕ} (hi : i < history.length) :
    (∀ seq ∈ partials (ops i).length (s.longest i), ∃ l, seq = l.map Fin.val ∧
      model.spec.PartiallyLinearizes (ops i).get l) ∧
    (s.timedOut = false → ∀ l, model.spec.PartiallyLinearizes (ops i).get l → ∀ j ∈ l,
      ∃ seq ∈ partials (ops i).length (s.longest i), ↑j ∈ seq ∧ l.length ≤ seq.length) := by
  obtain ⟨order, ho⟩ := h.sent
  obtain ⟨ok, hmem⟩ := ho.mem_take (h.drained hp rfl) hi
  have htold := ho.told (i, ok) (List.mem_of_mem_take hmem)
  have hpart : ∀ {seq}, seq ∈ Porcupine.partials (ops i).length (s.longest i) ↔
      ∃ j : Fin (ops i).length, s.longest i j = some seq := by
    intro seq
    simp only [Porcupine.partials, List.mem_dedup, List.mem_filterMap, List.mem_range]
    exact ⟨fun ⟨j, hj, hseq⟩ => ⟨⟨j, hj⟩, hseq⟩, fun ⟨j, hseq⟩ => ⟨j, j.2, hseq⟩⟩
  refine ⟨fun seq hseq => ?_, fun ht l hl j hj => ?_⟩
  · obtain ⟨j, hj⟩ := hpart.mp hseq
    obtain ⟨l, hseq, hl, -⟩ := htold.legal j seq hj
    exact ⟨l, hseq, hl⟩
  · have hkill : s.kill = false := by
      by_contra hk
      rcases h.killed (Or.inl (Bool.not_eq_false _ ▸ hk)) with h' | ⟨-, h'⟩
      · rw [ht] at h'
        cases h'
      · cases h'
    have hv : Verdict model (ops i).get true (ok, s.longest i) :=
      htold.verdict.resolve_right fun hb => by
        rw [hkill] at hb
        exact Bool.noConfusion hb.2
    cases ok with
    | true =>
      obtain ⟨l', hl', hall, hget⟩ := hv.complete rfl
      refine ⟨_, hpart.mpr ⟨j, hget j⟩, List.mem_map_of_mem (hall j), ?_⟩
      rw [List.length_map]
      exact (List.subperm_of_subset hl.nodup fun k _ => hall k).length_le
    | false =>
      obtain ⟨seq, hseq, hle⟩ := hv.longest rfl rfl l hl j hj
      obtain ⟨l', rfl, -, hj'⟩ := htold.legal j seq hseq
      exact ⟨_, hpart.mpr ⟨j, hseq⟩, List.mem_map_of_mem hj', hle⟩

end Steps

/-! The number of steps. -/

def Goroutine.work : Goroutine → ℕ
  | .checking => 4
  | .returned _ _ => 3
  | .stored _ => 2
  | .sent => 0

def Phase.work : Phase → ℕ
  | .collecting => 3
  | .killing => 2
  | .waiting => 1
  | .done => 0

def parallelWork (n : ℕ) (s : Parallel) : ℕ :=
  ∑ i ∈ Finset.range n, (s.goroutines i).work + s.results.length + s.phase.work

theorem sum_work_update {n i : ℕ} (hi : i < n) (g : ℕ → Goroutine) (x : Goroutine) :
    ∑ j ∈ Finset.range n, (Function.update g i x j).work + (g i).work =
      ∑ j ∈ Finset.range n, (g j).work + x.work := by
  have hmem := Finset.mem_range.mpr hi
  rw [← Finset.add_sum_erase _ _ hmem, ← Finset.add_sum_erase _ (fun j => (g j).work) hmem,
    Function.update_self]
  have hrest : ∑ j ∈ (Finset.range n).erase i, (Function.update g i x j).work =
      ∑ j ∈ (Finset.range n).erase i, (g j).work :=
    Finset.sum_congr rfl fun j hj => by rw [Function.update_of_ne (Finset.ne_of_mem_erase hj)]
  rw [hrest]
  omega

theorem parallelWork_start (n : ℕ) : parallelWork n startParallel = 4 * n + 3 := by
  simp [parallelWork, startParallel, Goroutine.work, Phase.work, mul_comm]

/-- Every step leaves less to do. -/
theorem parallelWork_lt {model : Filled σ ι ο} {history : List (List (Entry ι ο))}
    {computeInfo : Bool} {timeout : ℤ} {s s' : Parallel} {a : ParallelAction}
    (hg : ∀ i, s.goroutines i ≠ .checking → i < history.length)
    (hs : parallelStep model history computeInfo timeout s a = some s') :
    parallelWork history.length s' < parallelWork history.length s := by
  have hupd := fun {i} (hi : i < history.length) x => sum_work_update hi s.goroutines x
  rcases parallelStep_cases hs with
    ⟨i, killedAt, subhistory, ok, l, -, hsub, hi, -, -, rfl⟩ | ⟨i, ok, l, -, hi, rfl⟩ |
    ⟨i, ok, -, hi, rfl⟩ | ⟨result, results, -, hp, hr, rfl⟩ | ⟨-, hp, -, rfl⟩ | ⟨-, hp, rfl⟩ |
    ⟨result, results, -, hr, -, rfl⟩ | ⟨-, hp, -, rfl⟩
  · have := hupd (List.getElem?_eq_some_iff.mp hsub).1 (.returned ok l)
    simp only [parallelWork, hi, Goroutine.work] at this ⊢
    omega
  · have := hupd (hg i (by simp [hi])) (.stored ok)
    simp only [parallelWork, hi, Goroutine.work] at this ⊢
    omega
  · have := hupd (hg i (by simp [hi])) .sent
    simp only [parallelWork, hi, Goroutine.work, List.length_append,
      List.length_singleton] at this ⊢
    omega
  · have hphase : (s.receive history computeInfo result results).phase.work ≤ 3 := by
      cases (s.receive history computeInfo result results).phase <;> decide
    have hold : s.phase.work = 3 := by rw [hp]; rfl
    have hres : s.results.length = results.length + 1 := by rw [hr, List.length_cons]
    have hsame : (s.receive history computeInfo result results).goroutines = s.goroutines := rfl
    have hnew : (s.receive history computeInfo result results).results = results := rfl
    rw [parallelWork, parallelWork, hold, hres, hsame, hnew]
    omega
  · simp only [parallelWork, hp, Phase.work]
    omega
  · simp only [parallelWork, hp, Phase.work]
    omega
  · simp only [parallelWork, hr, List.length_cons]
    omega
  · simp only [parallelWork, hp, Phase.work]
    omega

end RaftLabs.Porcupine
