import RaftLabs.Raft.Recovery

/-! What an `AppendEntries` request does to the log of the follower: the entries up to
`PrevLogIndex` stay, those of the request are there afterwards, and only a conflict removes
entries. -/
namespace RaftLabs.Raft
open Basis

variable {n : ℕ} {C : Type}

namespace Log
variable {logs logs' : Log C} {i j : ℕ} {es : List (Entry C)}

/-- The indexes of the entries are consecutive. -/
def Consecutive (logs : Log C) : Prop :=
  ∀ k e, logs.entries[k]? = some e → e.index = logs.getFirstLog.index + k

theorem consecutive_iff_map : logs.Consecutive ↔
    logs.entries.map Entry.index = List.range' logs.getFirstLog.index logs.entries.length := by
  constructor
  · intro h
    apply List.ext_getElem
    · simp
    · intro k hk _
      rw [List.length_map] at hk
      simp [h k _ (List.getElem?_eq_getElem hk)]
  · intro h k e he
    obtain ⟨hk, rfl⟩ := List.getElem?_eq_some_iff.mp he
    have hget := congrArg (·[k]?) h
    simpa [hk] using hget

instance decidableConsecutive (logs : Log C) : Decidable logs.Consecutive :=
  decidable_of_iff _ consecutive_iff_map.symm

theorem Consecutive.contiguous (h : logs.Consecutive) : logs.Contiguous := by
  refine ⟨List.replicate logs.getFirstLog.index ⟨0, none⟩ ++ logs.entries.map Entry.item, ?_, ?_⟩
  · simp
  · intro k e he
    refine ⟨h k e he, e.item, ?_, rfl, fun _ => rfl⟩
    rw [List.getElem?_append_right (by simp)]
    simp [he]

theorem Contiguous.consecutive (h : logs.Contiguous) : logs.Consecutive := fun _ _ he => h.entry he

theorem get?_of_le (h : logs.getFirstLog.index ≤ i) :
    logs.get? i = logs.entries[i - logs.getFirstLog.index]? := if_neg (not_lt.mpr h)

theorem get?_of_lt (h : i < logs.getFirstLog.index) : logs.get? i = none := if_pos h

theorem get?_first (logs : Log C) : logs.get? logs.getFirstLog.index = some logs.getFirstLog := by
  rw [get?_of_le le_rfl, Nat.sub_self, entries_zero]

theorem Contiguous.length (h : logs.Contiguous) :
    logs.getFirstLog.index + logs.entries.length = logs.getLastLog.index + 1 := by
  obtain ⟨l, hl⟩ := h
  rw [hl.length, hl.getLastLog_index]

theorem Contiguous.first_le_last (h : logs.Contiguous) :
    logs.getFirstLog.index ≤ logs.getLastLog.index := by
  have := h.length
  have := logs.length_pos
  omega

theorem Consecutive.index_le_last (h : logs.Consecutive) {e : Entry C} (he : e ∈ logs.entries) :
    e.index ≤ logs.getLastLog.index := by
  obtain ⟨k, hk⟩ := List.getElem?_of_mem he
  have hlen := h.contiguous.length
  have hlt := (List.getElem?_eq_some_iff.mp hk).1
  have hindex := h k e hk
  omega

theorem Contiguous.get?_isSome (h : logs.Contiguous) (hfirst : logs.getFirstLog.index ≤ i)
    (hlast : i ≤ logs.getLastLog.index) : ∃ e, logs.get? i = some e := by
  obtain ⟨l, hl⟩ := h
  have hlen := hl.getLastLog_index
  exact hl.get?_isSome hfirst (by omega)

theorem Contiguous.get?_append_of_le (h : logs.Contiguous) (hi : i ≤ logs.getLastLog.index) :
    (logs.append es).get? i = logs.get? i := by
  have hlen := h.length
  by_cases hlt : i < logs.getFirstLog.index
  · rw [get?_of_lt hlt, get?_of_lt (by rwa [getFirstLog_append])]
  · have hle := not_lt.mp hlt
    rw [get?_of_le hle, get?_of_le (by rwa [getFirstLog_append]), getFirstLog_append]
    exact List.getElem?_append_left (by omega)

theorem Contiguous.get?_append_of_lt (h : logs.Contiguous) (k : ℕ) :
    (logs.append es).get? (logs.getLastLog.index + 1 + k) = es[k]? := by
  have hlen := h.length
  have hfirst := h.first_le_last
  rw [get?_of_le (by rw [getFirstLog_append]; omega), getFirstLog_append, Log.append]
  rw [List.getElem?_append_right (by omega)]
  congr 1
  omega

theorem Contiguous.get?_append_mem (h : logs.Contiguous)
    (hes : ∀ k e, es[k]? = some e → e.index = logs.getLastLog.index + 1 + k) {e : Entry C}
    (he : e ∈ es) : (logs.append es).get? e.index = some e := by
  obtain ⟨k, hk⟩ := List.getElem?_of_mem he
  rw [hes k e hk, h.get?_append_of_lt, hk]

theorem takeTo_isSome (h : logs.getFirstLog.index < j) : ∃ logs', logs.takeTo j = some logs' := by
  have hpos := logs.length_pos
  unfold takeTo
  cases ht : logs.entries.take (j - logs.getFirstLog.index) with
  | nil =>
    have hlen := congrArg List.length ht
    rw [List.length_take, List.length_nil] at hlen
    omega
  | cons e es => exact ⟨_, rfl⟩

theorem Contiguous.get?_takeTo (h : logs.Contiguous) (ht : logs.takeTo j = some logs')
    (hfirst : logs.getFirstLog.index < j) (hlast : j ≤ logs.getLastLog.index) (hi : i < j) :
    logs'.get? i = logs.get? i := by
  obtain ⟨-, hf, -⟩ := h.takeTo ht hfirst hlast
  by_cases hlt : i < logs.getFirstLog.index
  · rw [get?_of_lt hlt, get?_of_lt (by rwa [hf])]
  · have hle := not_lt.mp hlt
    rw [get?_of_le hle, get?_of_le (by rwa [hf]), hf, ofSlice_eq_some ht]
    exact List.getElem?_take_of_lt (by omega)

end Log

namespace Server
variable {rf rf' : Server n C} {e x : Entry C} {rest : List (Entry C)}

/-! The three ways in which the loop over the entries of a request goes on. -/

theorem storeEntries_append (h : rf.logs.getLastLog.index < e.index) :
    rf.storeEntries (e :: rest) =
      some (persist { rf with logs := rf.logs.append (e :: rest) }) := by
  simp only [storeEntries]
  rw [if_neg (by omega)]
  simp only [Option.bind_eq_bind, Option.bind_some]
  rw [if_pos h]

theorem storeEntries_match (hlast : e.index ≤ rf.logs.getLastLog.index)
    (hx : rf.logs.get? e.index = some x) (hterm : x.term = e.term) :
    rf.storeEntries (e :: rest) = rf.storeEntries rest := by
  simp only [storeEntries]
  by_cases hfirst : rf.logs.getFirstLog.index ≤ e.index
  · rw [if_pos ⟨hlast, hfirst⟩]
    simp only [hx, hterm, ne_eq, not_true_eq_false, if_false, Option.bind_eq_bind,
      Option.bind_some]
    rw [if_neg (by omega)]
  · rw [if_neg (fun hc => hfirst hc.2)]
    simp only [Option.bind_eq_bind, Option.bind_some]
    rw [if_neg (by omega)]

theorem storeEntries_conflict {logs : Log C} (hlast : e.index ≤ rf.logs.getLastLog.index)
    (hfirst : rf.logs.getFirstLog.index ≤ e.index) (hx : rf.logs.get? e.index = some x)
    (hterm : x.term ≠ e.term) (hl : rf.logs.takeTo e.index = some logs)
    (hcut : logs.getLastLog.index < e.index) :
    rf.storeEntries (e :: rest) =
      some (persist { rf with logs := logs.append (e :: rest) }) := by
  simp only [storeEntries]
  rw [if_pos ⟨hlast, hfirst⟩]
  simp only [hx, hterm, hl, ne_eq, not_false_eq_true, if_true, Option.bind_eq_bind,
    Option.bind_some, persist]
  rw [if_pos hcut]
  rfl

/-! The four outcomes of the `AppendEntries` handler in the term of the request. -/

section Accept
variable {args : AppendEntriesArgs n C} {prev : Entry C}

theorem acceptEntries_below (h : args.prevLogIndex < rf.logs.getFirstLog.index) :
    rf.acceptEntries args = some (rf, {}) := if_pos h

theorem acceptEntries_short (hfirst : rf.logs.getFirstLog.index ≤ args.prevLogIndex)
    (hlast : rf.logs.getLastLog.index < args.prevLogIndex) :
    rf.acceptEntries args = some (rf,
      { term := rf.currentTerm
        conflict := true
        xTerm := -1
        xIndex := -1
        xLen := rf.logs.entries.length + rf.logs.getFirstLog.index - 1 }) := by
  simp only [acceptEntries]
  rw [if_neg (not_lt.mpr hfirst), if_pos hlast]

theorem acceptEntries_conflict (hfirst : rf.logs.getFirstLog.index ≤ args.prevLogIndex)
    (hlast : args.prevLogIndex ≤ rf.logs.getLastLog.index)
    (hprev : rf.logs.get? args.prevLogIndex = some prev) (hterm : prev.term ≠ args.prevLogTerm) :
    rf.acceptEntries args = some (rf,
      { term := rf.currentTerm
        conflict := true
        xTerm := prev.term
        xIndex := findXIndex rf.logs prev.term args.prevLogIndex
        xLen := rf.logs.entries.length + rf.logs.getFirstLog.index - 1 }) := by
  simp only [acceptEntries]
  rw [if_neg (not_lt.mpr hfirst), if_neg (not_lt.mpr hlast), hprev]
  simp only [Option.bind_eq_bind, Option.bind_some, ne_eq, hterm, not_false_eq_true, if_true]

theorem acceptEntries_match (hfirst : rf.logs.getFirstLog.index ≤ args.prevLogIndex)
    (hlast : args.prevLogIndex ≤ rf.logs.getLastLog.index)
    (hprev : rf.logs.get? args.prevLogIndex = some prev) (hterm : prev.term = args.prevLogTerm)
    (hstore : rf.storeEntries args.entries = some rf') :
    rf.acceptEntries args = some
      (if rf'.commitIndex < args.leaderCommit then
        { rf' with commitIndex := min args.leaderCommit rf'.logs.getLastLog.index } else rf',
      { term := rf.currentTerm, success := true }) := by
  simp only [acceptEntries]
  rw [if_neg (not_lt.mpr hfirst), if_neg (not_lt.mpr hlast), hprev]
  simp only [Option.bind_eq_bind, Option.bind_some, hterm, ne_eq, not_true_eq_false, if_false,
    hstore]

end Accept

end Server

/-- How the log changes when entries are stored after index `p`. An entry of the request that is
not taken over is one that the log had with the same term. -/
structure Log.Updates (logs logs' : Log C) (p : ℕ) (es : List (Entry C)) : Prop where
  contiguous : logs'.Contiguous
  first : logs'.getFirstLog = logs.getFirstLog
  before : ∀ i ≤ p, logs'.get? i = logs.get? i
  stored : ∀ e ∈ es, ∃ x, logs'.get? e.index = some x ∧ x.term = e.term ∧
    (x = e ∨ logs.get? e.index = some x)
  extends_log : (∀ e ∈ es, ∀ x, logs.get? e.index = some x → x.term = e.term) →
    logs.entries <+: logs'.entries

/-- Appending the whole request at the end of a log. -/
theorem Log.Contiguous.updates_append {logs : Log C} (h : logs.Contiguous) {es : List (Entry C)}
    (hes : ∀ k e, es[k]? = some e → e.index = logs.getLastLog.index + 1 + k) :
    logs.Updates (logs.append es) logs.getLastLog.index es where
  contiguous := h.append hes
  first := Log.getFirstLog_append _ _
  before _ hi := h.get?_append_of_le hi
  stored e he := ⟨e, h.get?_append_mem hes he, rfl, Or.inl rfl⟩
  extends_log _ := List.prefix_append _ _

/-- The loop over the entries of a request whose indexes follow `p`. -/
theorem storeEntries_updates {rf : Server n C} {es : List (Entry C)} {p : ℕ}
    (hc : rf.logs.Contiguous) (hes : ∀ k e, es[k]? = some e → e.index = p + 1 + k)
    (hfirst : rf.logs.getFirstLog.index ≤ p) (hlast : p ≤ rf.logs.getLastLog.index) :
    ∃ rf', rf.storeEntries es = some rf' ∧ rf.logs.Updates rf'.logs p es := by
  induction es generalizing p with
  | nil =>
    exact ⟨rf, rfl, hc, rfl, fun _ _ => rfl, fun e he => absurd he List.not_mem_nil,
      fun _ => List.prefix_rfl⟩
  | cons e rest ih =>
    have he : e.index = p + 1 := hes 0 e rfl
    have hrest : ∀ k e', rest[k]? = some e' → e'.index = p + 1 + 1 + k := by
      intro k e' hk
      rw [hes (k + 1) e' hk]
      omega
    by_cases hend : rf.logs.getLastLog.index < e.index
    · -- the log ends at `p`
      obtain rfl : p = rf.logs.getLastLog.index := by omega
      exact ⟨_, Server.storeEntries_append hend, hc.updates_append hes⟩
    · have hle := not_lt.mp hend
      obtain ⟨x, hx⟩ := hc.get?_isSome (i := e.index) (by omega) hle
      by_cases hterm : x.term = e.term
      · obtain ⟨rf', hrf', hu⟩ := ih hrest (by omega) (by omega)
        refine ⟨rf', (Server.storeEntries_match hle hx hterm).trans hrf', hu.contiguous, hu.first,
          fun i hi => hu.before i (by omega), ?_, fun hno => hu.extends_log fun e' he' =>
            hno e' (List.mem_cons_of_mem _ he')⟩
        intro e' he'
        rcases List.mem_cons.mp he' with rfl | he'
        · exact ⟨x, by rw [hu.before _ (by omega), hx], hterm, Or.inr hx⟩
        · exact hu.stored e' he'
      · -- the log is cut before `e` and takes over the rest of the request
        have hgt : rf.logs.getFirstLog.index < e.index := by omega
        obtain ⟨logs, htake⟩ := Log.takeTo_isSome hgt
        obtain ⟨hc', hf', hl'⟩ := hc.takeTo htake hgt hle
        have hfollow : ∀ k e', (e :: rest)[k]? = some e' →
            e'.index = logs.getLastLog.index + 1 + k := by
          intro k e' hk
          rw [hes k e' hk]
          omega
        have hu := hc'.updates_append hfollow
        refine ⟨_, Server.storeEntries_conflict hle hgt.le hx hterm htake (by omega),
          hu.contiguous, hu.first.trans hf', fun i hi => ?_, fun e' he' => ?_, fun hno => ?_⟩
        · exact (hu.before i (by omega)).trans (hc.get?_takeTo htake hgt hle (by omega))
        · exact ⟨e', hc'.get?_append_mem hfollow he', rfl, Or.inl rfl⟩
        · exact absurd (hno e List.mem_cons_self x hx) hterm

/-- What the handler makes of the log and of `commitIndex` in the term of the request. -/
theorem acceptEntries_updates {rf : Server n C} {args : AppendEntriesArgs n C}
    (hc : rf.logs.Contiguous)
    (hes : ∀ k e, args.entries[k]? = some e → e.index = args.prevLogIndex + 1 + k) :
    ∃ rf' reply, rf.acceptEntries args = some (rf', reply) ∧
      (reply.success = true → rf.logs.Updates rf'.logs args.prevLogIndex args.entries) ∧
      (reply.success = false → rf' = rf) := by
  by_cases hfirst : args.prevLogIndex < rf.logs.getFirstLog.index
  · exact ⟨_, _, Server.acceptEntries_below hfirst, fun h => (by cases h), fun _ => rfl⟩
  rw [not_lt] at hfirst
  by_cases hlast : rf.logs.getLastLog.index < args.prevLogIndex
  · exact ⟨_, _, Server.acceptEntries_short hfirst hlast, fun h => (by cases h), fun _ => rfl⟩
  rw [not_lt] at hlast
  obtain ⟨prev, hprev⟩ := hc.get?_isSome hfirst hlast
  by_cases hterm : prev.term = args.prevLogTerm
  · obtain ⟨rf₁, hstore, hu⟩ := storeEntries_updates hc hes hfirst hlast
    refine ⟨_, _, Server.acceptEntries_match hfirst hlast hprev hterm hstore, fun _ => ?_,
      fun h => (by cases h)⟩
    split_ifs <;> exact hu
  · exact ⟨_, _, Server.acceptEntries_conflict hfirst hlast hprev hterm, fun h => (by cases h),
      fun _ => rfl⟩

/-- The log of a follower under an `AppendEntries` request in its own term. -/
theorem appendEntries_log_update {rf : Server n C} {args : AppendEntriesArgs n C}
    (hlog : rf.logs.Consecutive) (hterm : args.term = rf.currentTerm)
    (hes : ∀ k e, args.entries[k]? = some e → e.index = args.prevLogIndex + 1 + k) :
    ∃ rf' reply, rf.appendEntriesRpc args = some (rf', reply) ∧
      (reply.success = true →
        rf'.logs.Consecutive ∧ rf'.logs.getFirstLog = rf.logs.getFirstLog ∧
        (∀ i ≤ args.prevLogIndex, rf'.logs.get? i = rf.logs.get? i) ∧
        (∀ e ∈ args.entries, ∃ x, rf'.logs.get? e.index = some x ∧ x.index = e.index ∧
          x.term = e.term) ∧
        ((∀ e ∈ args.entries, ∀ x, rf.logs.get? e.index = some x → x.term = e.term) →
          rf.logs.entries <+: rf'.logs.entries)) ∧
      (reply.success = false → rf'.logs = rf.logs ∧ rf'.commitIndex = rf.commitIndex) := by
  have hc : rf.stepDown.logs.Contiguous := by
    rw [Server.stepDown_logs]
    exact hlog.contiguous
  obtain ⟨rf', reply, hacc, hsucc, hfail⟩ := acceptEntries_updates hc hes
  refine ⟨rf', reply, (Server.appendEntriesRpc_eq hterm).trans hacc, fun h => ?_, fun h => ?_⟩
  · have hu := hsucc h
    rw [Server.stepDown_logs] at hu
    refine ⟨hu.contiguous.consecutive, hu.first, hu.before, fun e he => ?_, hu.extends_log⟩
    obtain ⟨x, hx, ht, -⟩ := hu.stored e he
    exact ⟨x, hx, (hu.contiguous.get?_index hx).1, ht⟩
  · rw [hfail h]
    exact ⟨rf.stepDown_logs, rf.stepDown_commitIndex⟩

/-- A follower that has compacted its log up to index 2 and holds entries of an old leader. -/
def staleFollower : Server 3 Bool :=
  { Server.make {} 0 with
    currentTerm := 3
    logs := ⟨[⟨2, 1, none⟩, ⟨3, 1, some true⟩, ⟨4, 2, some true⟩, ⟨5, 2, some true⟩], by simp⟩
    commitIndex := 2 }

/-- A request of the new leader that agrees up to index 3. -/
def conflictingRequest (leaderId : Fin n) : AppendEntriesArgs n Bool where
  term := 3
  leaderId := leaderId
  prevLogIndex := 2
  prevLogTerm := 1
  entries := [⟨3, 1, some true⟩, ⟨4, 3, some false⟩]
  leaderCommit := 2

theorem appendEntries_log_update_staleFollower :
    ∃ rf' reply, staleFollower.appendEntriesRpc (conflictingRequest 0) = some (rf', reply) ∧
      reply.success = true ∧ rf'.logs.Consecutive ∧
      ∃ x, rf'.logs.get? 4 = some x ∧ x.index = 4 ∧ x.term = 3 := by
  have hlog : staleFollower.logs.Consecutive := by decide
  have hes : ∀ k e, (conflictingRequest (0 : Fin 3)).entries[k]? = some e →
      e.index = (conflictingRequest (0 : Fin 3)).prevLogIndex + 1 + k := by
    intro k e hk
    match k with
    | 0 => cases hk; rfl
    | 1 => cases hk; rfl
    | k + 2 => cases hk
  obtain ⟨rf', reply, hrpc, hsucc, -⟩ := appendEntries_log_update hlog rfl hes
  have hs : reply.success = true := by
    cases hrpc
    rfl
  obtain ⟨hcons, -, -, hstored, -⟩ := hsucc hs
  exact ⟨rf', reply, hrpc, hs, hcons, hstored ⟨4, 3, some false⟩ (by decide)⟩

end RaftLabs.Raft
