import RaftLabs.Basis.Ledger

/-! The invariant of the replicated log and leader completeness, which follows from it. -/
namespace Basis

variable {σ α : Type*}

theorem prefix_getElem? {l m : List α} (h : l <+: m) {i : ℕ} (hi : i < l.length) :
    m[i]? = l[i]? := by
  obtain ⟨t, rfl⟩ := h
  exact List.getElem?_append_left hi

theorem prefix_of_agree {l m : List α} (h : ∀ i < l.length, l[i]? = m[i]?) : l <+: m := by
  rw [List.prefix_iff_getElem?]
  intro i hi
  rw [← h i hi, List.getElem?_eq_getElem hi]

/-- A prefix of `l` comparable with `a` survives overwriting the start of `l` by `a`. -/
theorem prefix_overwrite {l x a : List α} (hx : x <+: l) (h : x <+: a ∨ a <+: x) :
    x <+: a ++ l.drop a.length := by
  rcases h with h | h
  · exact h.trans (List.prefix_append _ _)
  · obtain ⟨t, rfl⟩ := h.trans hx
    simpa using hx

theorem prefix_termAt {l m : List (Item α)} (h : l <+: m) {i : ℕ} (hi : i < l.length) :
    termAt m i = termAt l i := by
  simp only [termAt, prefix_getElem? h hi]

theorem termAt_eq_some {l : List (Item α)} {i t : ℕ} :
    termAt l i = some t ↔ ∃ e, l[i]? = some e ∧ e.term = t := by
  simp [termAt]

theorem lt_length_of_termAt {l : List (Item α)} {i t : ℕ} (h : termAt l i = some t) :
    i < l.length := by
  obtain ⟨e, he, -⟩ := termAt_eq_some.mp h
  exact (List.getElem?_eq_some_iff.mp he).1

theorem termAt_last {l : List (Item α)} (h : l ≠ []) :
    termAt l (l.length - 1) = some (lastTerm l) := by
  rw [lastTerm, termAt, ← List.getLast?_eq_getElem?, List.getLast?_eq_some_getLast h]
  rfl

theorem lastTerm_append {l m : List (Item α)} (h : m ≠ []) :
    lastTerm (l ++ m) = lastTerm m := by
  rw [lastTerm, lastTerm, List.getLast?_append_of_ne_nil _ h]

@[simp] theorem lastTerm_append_singleton (l : List (Item α)) (e : Item α) :
    lastTerm (l ++ [e]) = e.term := by
  simp [lastTerm]

namespace Ledger

/-- A leader of a term between `T` and `U` lacks the item `i` of the leader of `T`. -/
def Overruled (g : Ledger σ α) (T i U : ℕ) : Prop :=
  ∃ T', T < T' ∧ T' < U ∧ g.llog T' ≠ [] ∧ ¬ (g.llog T).take (i + 1) <+: g.llog T'

/-- What remains of the acknowledgement of item `i` in term `T`: the server still holds it
and its last term has not fallen below `T`, or a later leader has overruled it. -/
def Held (g : Ledger σ α) (s : σ) (T i : ℕ) : Prop :=
  ((g.llog T).take (i + 1) <+: g.log s ∧ T ≤ lastTerm (g.log s)) ∨
    g.Overruled T i (g.term s + 1)

/-- The vote of `s` in `U` for a server with log `l` respects what `s` has acknowledged. -/
def Backed (g : Ledger σ α) (s : σ) (U : ℕ) (l : List (Item α)) : Prop :=
  ∀ T i, T < U → i < g.acked s T → termAt (g.llog T) i = some T →
    (T < lastTerm l ∨ (T = lastTerm l ∧ i < l.length)) ∨ g.Overruled T i U

/-- From position `k` on, an item of `l` comes with the items its leader had before it. -/
def Chained (g : Ledger σ α) (k : ℕ) (l : List (Item α)) : Prop :=
  ∀ j e, l[j]? = some e → ∀ i, k ≤ i → i ≤ j → l[i]? = (g.llog e.term)[i]?

structure Inv [Fintype σ] (g : Ledger σ α) : Prop where
  base_pos : ∀ s, 0 < g.base s
  ballot_le : ∀ {s T c}, g.ballot s T = some c → T ≤ g.term s
  leader_ballots : ∀ {T c}, g.leader T = some c → ∃ Q : Finset σ, Majority Q ∧
    ∀ s ∈ Q, g.ballot s T = some c ∧ g.Backed s T (g.ilog T)
  llog_ne : ∀ {T}, g.llog T ≠ [] ↔ T = 0 ∨ (g.leader T).isSome
  llog_chain : ∀ {T j e}, (g.llog T)[j]? = some e →
    e.term ≤ T ∧ (g.llog T).take (j + 1) <+: g.llog e.term
  ilog_prefix : ∀ T, g.ilog T <+: g.llog T
  ilog_ne : ∀ {T}, g.llog T ≠ [] → g.ilog T ≠ []
  ilog_term : ∀ {T e}, 0 < T → e ∈ g.ilog T → e.term < T
  log_settled : ∀ s, g.Settled (g.term s) (g.base s) (g.log s)
  log_chained : ∀ s, g.Chained (g.base s) (g.log s)
  log_term : ∀ {s e}, e ∈ g.log s → e.term ≤ g.term s
  leader_log : ∀ {T c}, g.leader T = some c → 0 < T ∧ T ≤ g.term c ∧
    g.acked c T = (g.llog T).length ∧ (g.term c = T → g.log c = g.llog T)
  acked_le : ∀ s T, g.acked s T ≤ (g.llog T).length
  acked_term : ∀ {s T}, 0 < g.acked s T → T ≤ g.term s
  held : ∀ {s T i}, i < g.acked s T → termAt (g.llog T) i = some T → g.Held s T i
  commit_quorum : ∀ {T}, 0 < g.commit T → termAt (g.llog T) (g.commit T - 1) = some T ∧
    ∃ Q : Finset σ, Majority Q ∧ ∀ s ∈ Q, g.commit T ≤ g.acked s T
  stood_spec : ∀ {T c l}, g.stood T c = some l → T ≤ g.term c ∧ 0 < T ∧
    (∀ e ∈ l, e.term < T) ∧ ∃ k, 0 < k ∧ g.Settled (T - 1) k l ∧ g.Chained k l
  ballot_stood : ∀ {s T c}, g.ballot s T = some c →
    ∃ l, g.stood T c = some l ∧ (g.leader T = none → g.Backed s T l)
  standing : ∀ {T c l}, g.stood T c = some l → g.term c = T → g.leader T = none →
    g.log c = l ∨ ∃ T' k, T' < T ∧ k ≤ g.commit T' ∧ ¬ (g.llog T').take k <+: l

section
variable [Fintype σ] {g : Ledger σ α}

theorem Inv.llog_sorted (h : g.Inv) {T i j : ℕ} {a b : Item α} (ha : (g.llog T)[i]? = some a)
    (hb : (g.llog T)[j]? = some b) (hij : i ≤ j) : a.term ≤ b.term := by
  have hj := (List.getElem?_eq_some_iff.mp hb).1
  have hp := (h.llog_chain hb).2
  have hi : (g.llog b.term)[i]? = some a := by
    rw [prefix_getElem? hp (by simp; omega), List.getElem?_take_of_lt (by omega), ha]
  exact (h.llog_chain hi).1

theorem Inv.commit_le (h : g.Inv) (T : ℕ) : g.commit T ≤ (g.llog T).length := by
  rcases Nat.eq_zero_or_pos (g.commit T) with h0 | h0
  · omega
  · have := lt_length_of_termAt (h.commit_quorum h0).1
    omega

theorem Inv.llog_ne_of_commit (h : g.Inv) {T : ℕ} (hc : 0 < g.commit T) : g.llog T ≠ [] := by
  have := h.commit_le T
  exact List.length_pos_iff.mp (by omega)

theorem Inv.leader_of_llog (h : g.Inv) {T : ℕ} (hT : 0 < T) (hl : g.llog T ≠ []) :
    ∃ c, g.leader T = some c := by
  rcases h.llog_ne.mp hl with h0 | h0
  · omega
  · exact Option.isSome_iff_exists.mp h0

theorem Inv.llog_ne_of_term (h : g.Inv) {T j : ℕ} {e : Item α} (he : (g.llog T)[j]? = some e) :
    g.llog e.term ≠ [] := by
  have hp := (h.llog_chain he).2.length_le
  have hj := (List.getElem?_eq_some_iff.mp he).1
  rw [List.length_take] at hp
  exact List.length_pos_iff.mp (by omega)

/-- A log that ends in an item of `llog T` at its position there, and whose last term is at
most `T`, is cut no shorter than the first `m` items of `llog T` by a later last term. -/
theorem Inv.length_of_lastTerm (h : g.Inv) {T m : ℕ} {l : List (Item α)} (hl : l ≠ [])
    (hp : l <+: (g.llog T).take m) : lastTerm l ≤ T := by
  have hlen := List.length_pos_iff.mpr hl
  obtain ⟨e, he, het⟩ := termAt_eq_some.mp (termAt_last hl)
  have hp' := hp.trans (List.take_prefix m _)
  rw [← prefix_getElem? hp' (by omega)] at he
  rw [← het]
  exact (h.llog_chain he).1

/-- The last step of the argument: if `l` is a prefix of the log of its last term's leader,
that leader holds the first `k` items of `llog T`, and `l` is at least as up to date as the
last of them, then `l` holds them. -/
theorem Inv.carries (h : g.Inv) {T k : ℕ} {l : List (Item α)} (hl : l ≠ []) (hk : 0 < k)
    (hp : l <+: g.llog (lastTerm l)) (hT : (g.llog T).take k <+: g.llog (lastTerm l))
    (hlex : T < lastTerm l ∨ (T = lastTerm l ∧ k - 1 < l.length)) :
    (g.llog T).take k <+: l := by
  rcases List.prefix_or_prefix_of_prefix hT hp with hc | hc
  · exact hc
  · have hle := h.length_of_lastTerm hl hc
    rcases hlex with hlt | ⟨-, hlt⟩
    · omega
    · refine List.prefix_of_prefix_length_le hT hp ?_
      simp
      omega

end

section
variable [Fintype σ] [DecidableEq σ] {g : Ledger σ α}

/-- Leader completeness: a leader is elected with everything that is committed, now or
later, in an earlier term. By strong induction on the term of the leader, through a server
both in the committing and in the electing majority. -/
theorem Inv.leader_complete (h : g.Inv) {T U : ℕ} {c : σ} (hU : g.leader U = some c)
    (hTU : T < U) (hc : 0 < g.commit T) : (g.llog T).take (g.commit T) <+: g.ilog U := by
  induction U using Nat.strong_induction_on generalizing c with
  | _ U ih =>
    -- terms between `T` and `U` are settled by the induction hypothesis
    have hmid : ∀ T', T < T' → T' < U → g.llog T' ≠ [] →
        (g.llog T).take (g.commit T) <+: g.llog T' := by
      intro T' h1 h2 hne
      obtain ⟨c', hc'⟩ := h.leader_of_llog (by omega) hne
      exact (ih T' h2 hc' h1).trans (h.ilog_prefix T')
    obtain ⟨htip, Q, hQ, hacks⟩ := h.commit_quorum hc
    obtain ⟨Q', hQ', hvotes⟩ := h.leader_ballots hU
    obtain ⟨s, hs, hs'⟩ := hQ.inter hQ'
    have hne : g.ilog U ≠ [] :=
      h.ilog_ne (h.llog_ne.mpr (Or.inr (by simp [hU])))
    have hlast := termAt_last hne
    obtain ⟨e, he, het⟩ := termAt_eq_some.mp hlast
    have hlen := List.length_pos_iff.mpr hne
    have heU : (g.llog U)[(g.ilog U).length - 1]? = some e := by
      rw [prefix_getElem? (h.ilog_prefix U) (by omega), he]
    have hlt : e.term < U :=
      h.ilog_term (by omega) (List.mem_of_getElem? he)
    have hown : g.ilog U <+: g.llog (lastTerm (g.ilog U)) := by
      have hp := (h.llog_chain heU).2
      rw [het] at hp
      refine (List.prefix_of_prefix_length_le (h.ilog_prefix U) (List.take_prefix _ _) ?_).trans hp
      have := (h.ilog_prefix U).length_le
      simp
      omega
    have hacked : g.commit T - 1 < g.acked s T := by have := hacks s hs; omega
    rcases (hvotes s hs').2 T _ hTU hacked htip with hlex | ⟨T', h1, h2, hne', hnp⟩
    · refine h.carries hne hc hown ?_ hlex
      rcases hlex with hlex | ⟨hlex, -⟩
      · refine hmid _ hlex (by omega) ?_
        rw [← het]
        exact h.llog_ne_of_term heU
      · rw [← hlex]
        exact List.take_prefix _ _
    · exact absurd (by simpa [Nat.sub_add_cancel hc] using hmid T' h1 h2 hne') hnp

/-- Every later leader's log extends what is committed in a term. -/
theorem Inv.committed_prefix (h : g.Inv) {T U : ℕ} (hTU : T ≤ U) (hU : g.llog U ≠ [])
    (hc : 0 < g.commit T) : (g.llog T).take (g.commit T) <+: g.llog U := by
  rcases Nat.eq_or_lt_of_le hTU with rfl | hlt
  · exact List.take_prefix _ _
  · obtain ⟨c, hl⟩ := h.leader_of_llog (by omega) hU
    exact (h.leader_complete hl hlt hc).trans (h.ilog_prefix U)

theorem Inv.take_prefix_llog (h : g.Inv) {T U k : ℕ} (hTU : T ≤ U) (hU : g.llog U ≠ [])
    (hk : k ≤ g.commit T) (hc : 0 < k) : (g.llog T).take k <+: g.llog U :=
  (List.take_prefix_take_left hk).trans (h.committed_prefix hTU hU (by omega))

/-- Committed items at one position are equal, whatever terms they were committed in. -/
theorem Inv.committed_agree (h : g.Inv) {T U i : ℕ} (hT : i < g.commit T) (hU : i < g.commit U) :
    (g.llog T)[i]? = (g.llog U)[i]? := by
  wlog hle : T ≤ U generalizing T U
  · exact (this hU hT (by omega)).symm
  have hp := h.committed_prefix hle (h.llog_ne_of_commit (by omega)) (by omega)
  have hl := h.commit_le T
  rw [prefix_getElem? hp (by simp; omega), List.getElem?_take_of_lt hT]

/-- Two leaders of one term are the same server. -/
theorem Inv.leader_unique (h : g.Inv) {T : ℕ} {c c' : σ} (hl : g.leader T = some c)
    {Q : Finset σ} (hQ : Majority Q) (hb : ∀ s ∈ Q, g.ballot s T = some c') : c = c' := by
  obtain ⟨Q', hQ', hb'⟩ := h.leader_ballots hl
  obtain ⟨s, hs, hs'⟩ := hQ'.inter hQ
  have := (hb' s hs).1.symm.trans (hb s hs')
  exact Option.some.inj this

end

end Ledger

end Basis
