import RaftLabs.Porcupine.Orders

/-! `checkSingle` ends without a fault. If it is not killed, then it says whether the operations
can be linearized, and its partial linearizations are as long as they can be. -/
namespace RaftLabs.Porcupine
open Basis DepthFirst

variable {σ ι ο T : Type}

/-! What is recorded about given up paths. -/

theorem record_apply (seq : List ℕ) (longest : Longest) (i : ℕ) :
    record seq longest i =
      if i ∈ seq ∧ ((longest i).elim true fun old => old.length < seq.length) then some seq
      else longest i := by
  -- the loop over part of the sequence
  have hloop : ∀ (ids : List ℕ) (longest : Longest),
      ids.foldl (fun longest id =>
        if (longest id).elim true fun old => old.length < seq.length then
          Function.update longest id (some seq)
        else longest) longest i =
      if i ∈ ids ∧ ((longest i).elim true fun old => old.length < seq.length) then some seq
      else longest i := by
    intro ids
    induction ids with
    | nil => intro longest; simp
    | cons a ids ih =>
      intro longest
      rw [List.foldl_cons, ih]
      by_cases hia : i = a
      · subst hia
        by_cases hlong : (longest i).elim true fun old => old.length < seq.length
        · simp [hlong]
        · simp [hlong]
      · have hsame : (if (longest a).elim true fun old => old.length < seq.length then
            Function.update longest a (some seq) else longest) i = longest i := by
          split_ifs
          · exact Function.update_of_ne hia _ _
          · rfl
        rw [hsame]
        simp [hia]
  exact hloop seq longest

/-- What is recorded for an operation is a path through it. -/
theorem recorded_sound {entries : List (Entry ι ο)} {computePartial : Bool} {log : List (List ℕ)}
    {i : ℕ} {seq : List ℕ} (h : recorded entries computePartial log i = some seq) :
    i ∈ seq ∧ ∃ path ∈ log, seq = path.map (idAt entries) := by
  cases computePartial with
  | false => cases h
  | true =>
    simp only [recorded, if_true] at h
    induction log using List.reverseRecOn with
    | nil => cases h
    | append_singleton log path ih =>
      rw [List.foldl_append, List.foldl_cons, List.foldl_nil, record_apply] at h
      split_ifs at h with hcond
      · obtain rfl := Option.some.inj h
        exact ⟨hcond.1, path, by simp, rfl⟩
      · obtain ⟨hi, path', hpath', hseq⟩ := ih h
        exact ⟨hi, path', List.mem_append_left _ hpath', hseq⟩

/-- No path through an operation is longer than the one that is recorded for it. -/
theorem recorded_longest {entries : List (Entry ι ο)} {log : List (List ℕ)} {path : List ℕ}
    (hpath : path ∈ log) {i : ℕ} (hi : i ∈ path.map (idAt entries)) :
    ∃ seq, recorded entries true log i = some seq ∧ path.length ≤ seq.length := by
  simp only [recorded, if_true]
  induction log using List.reverseRecOn with
  | nil => cases hpath
  | append_singleton log last ih =>
    rw [List.foldl_append, List.foldl_cons, List.foldl_nil, record_apply]
    rcases List.mem_append.mp hpath with hpath | hpath
    · obtain ⟨seq, hseq, hle⟩ := ih hpath
      rw [hseq]
      split_ifs with hcond
      · have hlt : seq.length < (last.map (idAt entries)).length := by simpa using hcond.2
        exact ⟨_, rfl, hle.trans hlt.le⟩
      · exact ⟨seq, rfl, hle⟩
    · obtain rfl := List.mem_singleton.mp hpath
      split_ifs with hcond
      · exact ⟨_, rfl, by simp⟩
      · cases hold : log.foldl (fun longest path => record (path.map (idAt entries)) longest)
            (fun _ => none) i with
        | none => simp [hold, hi] at hcond
        | some seq =>
          refine ⟨seq, rfl, ?_⟩
          rw [hold] at hcond
          simpa [hi] using hcond

variable {model : Filled σ ι ο} {entries : List (Entry ι ο)} {n : ℕ}

/-- Every operation has two entries. -/
theorem Matched.length_eq (hm : Matched entries n) : entries.length = 2 * n := by
  have hkind : ∀ kind, ∃ ks : List ℕ, ks.Nodup ∧ ks.length = n ∧
      ∀ k, k ∈ ks ↔ ∃ id, EntryAt entries kind id k := by
    intro kind
    choose pos hpos using fun i : Fin n => hm.exists_at kind i i.2
    refine ⟨(List.finRange n).map pos, ?_, by simp, fun k => ?_⟩
    · refine (List.nodup_finRange n).map fun i j hij => Fin.ext ?_
      rw [← (hpos i).idAt_eq, ← (hpos j).idAt_eq, hij]
    · rw [List.mem_map]
      constructor
      · rintro ⟨i, -, rfl⟩
        exact ⟨i, hpos i⟩
      · rintro ⟨id, hid⟩
        exact ⟨⟨id, hm.id_lt hid⟩, List.mem_finRange _, hm.unique (hpos _) hid⟩
  obtain ⟨calls, hc, hclen, hcmem⟩ := hkind .callEntry
  obtain ⟨returns, hr, hrlen, hrmem⟩ := hkind .returnEntry
  have hnodup : (calls ++ returns).Nodup := by
    refine List.nodup_append.mpr ⟨hc, hr, ?_⟩
    rintro k hk _ hk' rfl
    obtain ⟨id, e, he, hek, -⟩ := (hcmem k).mp hk
    obtain ⟨id', e', he', hek', -⟩ := (hrmem k).mp hk'
    obtain rfl := Option.some.inj (he.symm.trans he')
    rw [hek] at hek'
    cases hek'
  have hperm : (calls ++ returns).Perm (List.range entries.length) := by
    refine (List.perm_ext_iff_of_nodup hnodup List.nodup_range).mpr fun k => ?_
    rw [List.mem_append, hcmem, hrmem, List.mem_range]
    constructor
    · rintro (⟨id, h⟩ | ⟨id, h⟩) <;> exact h.lt_length
    · intro hk
      obtain ⟨kind, h⟩ := entryAt_of_lt hk
      cases kind with
      | callEntry => exact Or.inl ⟨_, h⟩
      | returnEntry => exact Or.inr ⟨_, h⟩
  have hlen := hperm.length_eq
  rw [List.length_append, hclen, hrlen, List.length_range] at hlen
  omega

/-- What the results of `checkSingle` say about the operations. -/
structure Verdict [LT T] (model : Filled σ ι ο) (op : Fin n → Basis.Operation ι ο T)
    (computePartial : Bool) (result : Bool × Longest) : Prop where
  linearizable : result.1 = true ↔ model.spec.Linearizable ((List.finRange n).map op)
  complete : result.1 = true → ∃ l, model.spec.PartiallyLinearizes op l ∧ (∀ i, i ∈ l) ∧
    ∀ i : Fin n, result.2 i = some (l.map Fin.val)
  longest : result.1 = false → computePartial = true →
    ∀ l, model.spec.PartiallyLinearizes op l → ∀ i ∈ l,
      ∃ seq, result.2 i = some seq ∧ l.length ≤ seq.length

/-- The sequences in a result are beginnings of linearizations through their operations. -/
def LegalPartials [LT T] (model : Filled σ ι ο) (op : Fin n → Basis.Operation ι ο T)
    (longest : Longest) : Prop :=
  ∀ (i : Fin n) seq, longest i = some seq →
    ∃ l, seq = l.map Fin.val ∧ model.spec.PartiallyLinearizes op l ∧ i ∈ l

section Result
variable [LT T] {op : Fin n → Basis.Operation ι ο T}

theorem Describes.legalPartials_recorded (hd : Describes entries op) {computePartial : Bool}
    {a : State (Finset ℕ × σ) ℕ}
    (hi : Problem.Inv (problem model entries) (∅, model.init) a) :
    LegalPartials model op
      (recorded entries computePartial a.log) := by
  intro i seq hseq
  obtain ⟨hmem, path, hpath, rfl⟩ := recorded_sound hseq
  obtain ⟨c, hc⟩ := hi.log path hpath
  obtain ⟨l, ho, hl⟩ := hd.partial_of_reaches hc
  rw [ho.ids] at hmem ⊢
  obtain ⟨j, hj, hji⟩ := List.mem_map.mp hmem
  exact ⟨l, rfl, hl, Fin.ext hji ▸ hj⟩

/-- The result of the search, read as the result of the loop. -/
theorem Describes.verdict (hd : Describes entries op) (hm : model.Lawful) {computePartial : Bool}
    {fuel : ℕ} {r : Bool × State (Finset ℕ × σ) ℕ}
    (hr : (problem model entries).run fuel ((problem model entries).start (∅, model.init)) =
      some r) :
    Verdict model op computePartial
        (resultOf entries n computePartial r) ∧
      LegalPartials model op
        (resultOf entries n computePartial r).2 := by
  have hP : (problem model entries).Lawful := problem_lawful hm
  obtain ⟨found, a⟩ := r
  obtain ⟨hi, hstep⟩ := (Problem.start_inv _).run hP hr
  have hfound := (Problem.found_iff hP hr).trans hd.solvable_iff
  obtain ⟨l, ho, hl⟩ := hd.partial_of_reaches hi.linked.reaches
  have hids : a.path.map (idAt entries) = l.map Fin.val := ho.ids
  cases found with
  | true =>
    have hall : ∀ i, i ∈ l := by
      rcases Problem.step_cases hstep with ⟨hgoal, -⟩ | ⟨-, hcases⟩
      · exact (ho.goal_iff hd).mp hgoal
      · rcases hcases with ⟨_, _, _, _, he⟩ | ⟨_, _, _, _, _, _, he⟩ | ⟨_, _, he⟩ |
          ⟨_, _, _, _, _, he⟩ <;> cases he
    have hget : ∀ i : Fin n, (resultOf entries n computePartial
        (true, a)).2 i = some (l.map Fin.val) := by
      intro i
      simp [resultOf, hids]
    refine ⟨⟨hfound, fun _ => ⟨l, hl, hall, hget⟩, (by cases ·)⟩, fun i seq hseq => ?_⟩
    obtain rfl := Option.some.inj ((hget i).symm.trans hseq)
    exact ⟨l, rfl, hl, hall i⟩
  | false =>
    have hget : (resultOf entries n computePartial (false, a)).2 =
        recorded entries computePartial a.log := by
      simp [resultOf]
    refine ⟨⟨hfound, (by cases ·), ?_⟩, hget ▸ hd.legalPartials_recorded hi⟩
    rintro - rfl l' hl' i hi'
    -- a path with the same operations was given up
    obtain ⟨p, c, hp, ho'⟩ := hd.reaches_of_partial hl'
    have hne : p ≠ [] := by
      rintro rfl
      have := ho'.length_eq
      rw [List.length_nil] at this
      rw [List.eq_nil_of_length_eq_zero this.symm] at hi'
      cases hi'
    obtain ⟨q, hq, d, hqd, hsame⟩ := Problem.logged_of_not_found hP hr hp hne
    obtain ⟨l'', ho'', hl''⟩ := hd.partial_of_reaches hqd
    have hset : c.1 = d.1 := by
      simp only [problem, Bool.and_eq_true, decide_eq_true_eq] at hsame
      exact hsame.1
    have hmem : ∀ j, j ∈ l' ↔ j ∈ l'' := fun j => by rw [← ho'.mem_iff, hset, ho''.mem_iff]
    have hlen : l'.length = l''.length :=
      ((List.perm_ext_iff_of_nodup hl'.nodup hl''.nodup).mpr hmem).length_eq
    have hiq : (i : ℕ) ∈ q.map (idAt entries) := by
      rw [ho''.ids]
      exact List.mem_map_of_mem ((hmem i).mp hi')
    obtain ⟨seq, hseq, hle⟩ := recorded_longest hq hiq
    refine ⟨seq, by rw [hget, hseq], ?_⟩
    rw [hlen, ← ho''.length_eq]
    exact hle

/-- `checkSingle` ends. Its result is right or it was killed. -/
theorem Describes.checkSingle (hd : Describes entries op) (hm : model.Lawful)
    (computePartial : Bool) (kill : ℕ → Bool) :
    ∃ result, checkSingle model entries computePartial kill = some result ∧
      LegalPartials model op result.2 ∧
      (Verdict model op computePartial result ∨ (result.1 = false ∧ ∃ j, kill j)) := by
  have hP : (problem model entries).Lawful := problem_lawful hm
  have hlen := hd.length_eq
  have hn : length (makeLinkedEntries entries).links entries.length
      (makeLinkedEntries entries).root / 2 = n := by
    rw [length_makeLinkedEntries, hlen, Nat.mul_div_cancel_left n two_pos]
  have hstart : Sim entries n computePartial (startSearch model entries)
      ((problem model entries).start (∅, model.init)) := start_sim hlen
  obtain ⟨found, a, hr⟩ := Problem.exists_run hP hd.bounded
  obtain ⟨result, hresult, hor⟩ := hstart.loop hd.toMatched kill (k := 0) hr
  refine ⟨result, ?_, ?_⟩
  · simp only [Porcupine.checkSingle, hn]
    exact hresult
  · rcases hor with rfl | ⟨hfalse, hkill, b, hb, hlong⟩
    · obtain ⟨hverdict, hlegal⟩ := hd.verdict hm hr
      exact ⟨hlegal, Or.inl hverdict⟩
    · refine ⟨?_, Or.inr ⟨hfalse, hkill⟩⟩
      have hinv : Problem.Inv (problem model entries) (∅, model.init) b := by
        clear hlong
        induction hb with
        | refl => exact Problem.start_inv _
        | tail _ hstep ih => exact ih.step hP hstep
      rw [hlong]
      exact hd.legalPartials_recorded hinv

end Result

end RaftLabs.Porcupine
