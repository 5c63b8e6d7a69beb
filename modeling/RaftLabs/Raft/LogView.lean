import RaftLabs.Basis.LedgerRuns
import RaftLabs.Raft.Log

/-! A retained log as the end of a full log: the entries from the snapshot point on, where the
command of the first one is lost. -/
namespace RaftLabs.Raft
open Basis

variable {C : Type}

/-- The item of the full log that an entry stands for. -/
def Entry.item (e : Entry C) : Item (Option C) := ⟨e.term, e.command⟩

namespace Log

theorem entries_zero (logs : Log C) : logs.entries[0]? = some logs.getFirstLog := by
  rw [getFirstLog, ← List.head?_eq_getElem?, List.head?_eq_some_head logs.nonempty]

theorem entries_last (logs : Log C) :
    logs.entries[logs.entries.length - 1]? = some logs.getLastLog := by
  rw [getLastLog, ← List.getLast?_eq_getElem?, List.getLast?_eq_some_getLast logs.nonempty]

theorem length_pos (logs : Log C) : 0 < logs.entries.length :=
  List.length_pos_iff.mpr logs.nonempty

theorem getFirstLog_eq {logs : Log C} {e : Entry C} (h : logs.entries[0]? = some e) :
    logs.getFirstLog = e := Option.some.inj ((entries_zero logs).symm.trans h)

theorem ofSlice_eq_some {es : List (Entry C)} {logs : Log C} (h : ofSlice es = some logs) :
    logs.entries = es := by
  cases es with
  | nil => simp [ofSlice] at h
  | cons e es => simpa [ofSlice, eq_comm] using congrArg (Option.map Log.entries) h

@[simp] theorem getFirstLog_append (logs : Log C) (es : List (Entry C)) :
    (logs.append es).getFirstLog = logs.getFirstLog := by
  apply getFirstLog_eq
  rw [append, List.getElem?_append_left logs.length_pos, entries_zero]

@[simp] theorem getFirstLog_setFirst (logs : Log C) (e : Entry C) :
    (logs.setFirst e).getFirstLog = e := rfl

end Log

structure LogView (l : List (Item (Option C))) (logs : Log C) : Prop where
  length : logs.getFirstLog.index + logs.entries.length = l.length
  entry : ∀ {k e}, logs.entries[k]? = some e → e.index = logs.getFirstLog.index + k ∧
    ∃ x, l[logs.getFirstLog.index + k]? = some x ∧ x.term = e.term ∧ (0 < k → x = e.item)

namespace LogView

variable {l l' : List (Item (Option C))} {logs logs' : Log C} {i t : ℕ} {e : Entry C}

theorem fresh : LogView [⟨0, none⟩] (Log.fresh : Log C) where
  length := rfl
  entry {k e} h := by
    cases k with
    | zero =>
      obtain rfl : Entry.zero = e := by simpa [Log.fresh] using h
      exact ⟨rfl, _, rfl, rfl, by simp⟩
    | succ k => simp [Log.fresh] at h

theorem getLastLog_index (h : LogView l logs) : logs.getLastLog.index + 1 = l.length := by
  have := (h.entry logs.entries_last).1
  have := h.length
  have := logs.length_pos
  omega

theorem getLastLog_term (h : LogView l logs) : logs.getLastLog.term = lastTerm l := by
  obtain ⟨hi, x, hx, hxt, -⟩ := h.entry logs.entries_last
  have hlen := h.length
  have hpos := logs.length_pos
  have hlast := termAt_last (List.length_pos_iff.mp (by omega) : l ≠ [])
  have heq : logs.getFirstLog.index + (logs.entries.length - 1) = l.length - 1 := by omega
  rw [heq] at hx
  rw [termAt, hx] at hlast
  rw [← hxt]
  exact Option.some.inj hlast

theorem first_term (h : LogView l logs) :
    termAt l logs.getFirstLog.index = some logs.getFirstLog.term := by
  obtain ⟨-, x, hx, hxt, -⟩ := h.entry logs.entries_zero
  exact termAt_eq_some.mpr ⟨x, hx, hxt⟩

theorem get?_spec (h : LogView l logs) (he : logs.get? i = some e) :
    e.index = i ∧ logs.getFirstLog.index ≤ i ∧ termAt l i = some e.term ∧
      (logs.getFirstLog.index < i → l[i]? = some e.item) := by
  unfold Log.get? at he
  split_ifs at he with hlt
  obtain ⟨hi, x, hx, hxt, hitem⟩ := h.entry he
  rw [Nat.add_sub_cancel' (by omega)] at hi hx
  refine ⟨hi, by omega, termAt_eq_some.mpr ⟨x, hx, hxt⟩, fun hgt => ?_⟩
  rw [hx, hitem (by omega)]

theorem get?_isSome (h : LogView l logs) (h₁ : logs.getFirstLog.index ≤ i) (h₂ : i < l.length) :
    ∃ e, logs.get? i = some e := by
  have := h.length
  refine ⟨_, (if_neg (by omega)).trans (List.getElem?_eq_getElem (by omega))⟩

theorem append (h : LogView l logs) {es : List (Entry C)}
    (hes : ∀ {k e}, es[k]? = some e → e.index = l.length + k) :
    LogView (l ++ es.map Entry.item) (logs.append es) where
  length := by
    rw [Log.getFirstLog_append, List.length_append, List.length_map, ← h.length]
    simp only [Log.append, List.length_append]
    omega
  entry {k e} he := by
    have hlen := h.length
    rw [Log.getFirstLog_append]
    by_cases hk : k < logs.entries.length
    · rw [Log.append, List.getElem?_append_left hk] at he
      obtain ⟨h₁, x, hx, h₂⟩ := h.entry he
      exact ⟨h₁, x, by rwa [List.getElem?_append_left (by omega)], h₂⟩
    · rw [Log.append, List.getElem?_append_right (by omega)] at he
      have hi := hes he
      refine ⟨by omega, e.item, ?_, rfl, fun _ => rfl⟩
      rw [List.getElem?_append_right (by omega), List.getElem?_map]
      have hidx : logs.getFirstLog.index + k - l.length = k - logs.entries.length := by omega
      rw [hidx, he]
      rfl

theorem takeTo (h : LogView l logs) (ht : logs.takeTo i = some logs')
    (hi : logs.getFirstLog.index < i) (hil : i ≤ l.length) :
    LogView (l.take i) logs' ∧ logs'.getFirstLog = logs.getFirstLog := by
  have hes := Log.ofSlice_eq_some ht
  have hfirst : logs'.getFirstLog = logs.getFirstLog := by
    apply Log.getFirstLog_eq
    rw [hes, List.getElem?_take_of_lt (by omega), Log.entries_zero]
  have hlen := h.length
  refine ⟨⟨?_, ?_⟩, hfirst⟩
  · rw [hfirst, hes]
    simp
    omega
  · intro k e he
    have hk : k < i - logs.getFirstLog.index := by
      have := (List.getElem?_eq_some_iff.mp he).1
      rw [hes, List.length_take] at this
      omega
    rw [hes, List.getElem?_take_of_lt hk] at he
    rw [hfirst, List.getElem?_take_of_lt (by omega)]
    exact h.entry he

/-- Compacting to position `i` and overwriting the first entry, when the full log may change
up to there. -/
theorem rebase (h : LogView l logs) (hc : logs.logCompact i = some logs')
    (hlen : l'.length = l.length) (hi : termAt l' i = some t)
    (hagree : ∀ j, i < j → l'[j]? = l[j]?) (c : Option C) :
    LogView l' (logs'.setFirst ⟨i, t, c⟩) := by
  unfold Log.logCompact at hc
  split_ifs at hc with hlt
  have hes := Log.ofSlice_eq_some hc
  have hl := h.length
  have hpos := logs'.length_pos
  rw [hes, List.length_drop] at hpos
  refine ⟨?_, ?_⟩
  · rw [Log.getFirstLog_setFirst]
    simp only [Log.setFirst, hes, List.length_cons, List.length_tail, List.length_drop]
    omega
  · intro k e he
    simp only [Log.getFirstLog_setFirst]
    cases k with
    | zero =>
      obtain rfl : ⟨i, t, c⟩ = e := by simpa [Log.setFirst] using he
      obtain ⟨x, hx, hxt⟩ := termAt_eq_some.mp hi
      exact ⟨rfl, x, hx, hxt, by simp⟩
    | succ k =>
      simp only [Log.setFirst, hes, List.getElem?_cons_succ, List.getElem?_tail,
        List.getElem?_drop] at he
      obtain ⟨h₁, x, hx, h₂, h₃⟩ := h.entry he
      have hidx :
          logs.getFirstLog.index + (i - logs.getFirstLog.index + (k + 1)) = i + (k + 1) := by
        omega
      rw [hidx] at h₁ hx
      exact ⟨h₁, x, by rwa [hagree _ (by omega)], h₂, fun _ => h₃ (by omega)⟩

theorem fresh_setFirst (hlen : l.length = i + 1) (hi : termAt l i = some t) (c : Option C) :
    LogView l ((Log.fresh : Log C).setFirst ⟨i, t, c⟩) := by
  refine ⟨by simp [Log.setFirst, Log.getFirstLog, Log.fresh, hlen], ?_⟩
  intro k e he
  cases k with
  | zero =>
    obtain rfl : ⟨i, t, c⟩ = e := by simpa [Log.setFirst] using he
    obtain ⟨x, hx, hxt⟩ := termAt_eq_some.mp hi
    exact ⟨rfl, x, hx, hxt, by simp⟩
  | succ k => simp [Log.setFirst, Log.fresh] at he

/-- The entries of a slice beyond the snapshot point. -/
theorem slice (h : LogView l logs) {lo hi : ℕ} {es : List (Entry C)}
    (hs : logs.slice lo hi = some es) (hlo : logs.getFirstLog.index ≤ lo) (he : e ∈ es) :
    lo < e.index ∧ e.index ≤ hi ∧ l[e.index]? = some e.item := by
  simp only [Log.slice] at hs
  split_ifs at hs with hbad
  obtain rfl := Option.some.inj hs
  obtain ⟨k, hk⟩ := List.getElem?_of_mem he
  rw [List.getElem?_drop] at hk
  have hlt := (List.getElem?_eq_some_iff.mp hk).1
  rw [List.length_take] at hlt
  rw [List.getElem?_take_of_lt (by omega)] at hk
  obtain ⟨h₁, x, hx, -, h₃⟩ := h.entry hk
  rw [← h₁] at hx
  exact ⟨by omega, by omega, by rw [hx, h₃ (by omega)]⟩

end LogView
end RaftLabs.Raft
