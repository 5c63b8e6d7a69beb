import RaftLabs.Basis.LedgerMoves

/-! Adopting and extending the log of a leader. -/

namespace Basis
namespace Ledger

variable {σ α : Type*} {g g' : Ledger σ α}

theorem chained_llog (hchain : ∀ {T j e}, (g.llog T)[j]? = some e →
    e.term ≤ T ∧ (g.llog T).take (j + 1) <+: g.llog e.term) (T k : ℕ) :
    g.Chained k (g.llog T) := by
  intro j e he i _ hij
  have hj := (List.getElem?_eq_some_iff.mp he).1
  rw [prefix_getElem? (hchain he).2 (by simp; omega), List.getElem?_take_of_lt (by omega)]

theorem Chained.of_prefix {k : ℕ} {l m : List (Item α)} (hp : l <+: m) (hc : g.Chained k m) :
    g.Chained k l := by
  intro j e he i hk hij
  have hj := (List.getElem?_eq_some_iff.mp he).1
  rw [← prefix_getElem? hp (by omega)] at he ⊢
  exact hc j e he i hk hij

section Accepted
variable {s : σ} {T m : ℕ} {l : List (Item α)}

theorem Accepted.prefix_log (ha : g.Accepted s T m l) : (g.llog T).take m <+: l := by
  rcases ha with ⟨hp, rfl⟩ | ⟨-, rfl⟩
  · exact hp
  · exact List.prefix_rfl

/-- What the old log shares with the leader's log is kept. -/
theorem Accepted.keeps (ha : g.Accepted s T m l) {x : List (Item α)} (hx : x <+: g.log s)
    (hl : x <+: g.llog T) : x <+: l := by
  rcases ha with ⟨-, rfl⟩ | ⟨h, rfl⟩
  · exact hx
  · rcases List.prefix_or_prefix_of_prefix hl (List.take_prefix m _) with hc | hc
    · exact hc
    · exact absurd (hc.trans hx) h

theorem Accepted.kept_or_taken (ha : g.Accepted s T m l) :
    l = g.log s ∨ l = (g.llog T).take m :=
  ha.imp And.right And.right

end Accepted

section Frames
variable [DecidableEq σ] {s c : σ} {T m : ℕ} {l : List (Item α)}

theorem accept_log (g : Ledger σ α) (s : σ) (T m : ℕ) (l : List (Item α)) :
    (g.accept s T m l).log s = l := Function.update_self _ _ _

theorem accept_log_of_ne {s' : σ} (hs : s' ≠ s) : (g.accept s T m l).log s' = g.log s' :=
  Function.update_of_ne hs _ _

theorem accept_acked_of_not {s' : σ} {U : ℕ} (h : ¬ (s' = s ∧ U = T)) :
    (g.accept s T m l).acked s' U = g.acked s' U :=
  update₂_of_not _ _ h

theorem append_llog (v : α) : (g.append c T v).llog T = g.llog T ++ [⟨T, v⟩] :=
  Function.update_self _ _ _

theorem append_llog_of_ne (v : α) {U : ℕ} (hU : U ≠ T) :
    (g.append c T v).llog U = g.llog U :=
  Function.update_of_ne hU _ _

theorem append_log_of_ne (v : α) {s : σ} (hs : s ≠ c) : (g.append c T v).log s = g.log s :=
  Function.update_of_ne hs _ _

theorem append_acked_of_not (v : α) {s : σ} {U : ℕ} (h : ¬ (s = c ∧ U = T)) :
    (g.append c T v).acked s U = g.acked s U :=
  update₂_of_not _ _ h

end Frames

variable [Fintype σ]

theorem Inv.llog_chained (hi : g.Inv) (T k : ℕ) : g.Chained k (g.llog T) :=
  chained_llog hi.llog_chain T k

variable [DecidableEq σ]

/-- A log that agrees with the leader of its own term in the term of one position agrees
with it up to there. -/
theorem Inv.match_prefix (hi : g.Inv) {s : σ} {T p t : ℕ} (ht : g.term s = T)
    (hs : termAt (g.log s) p = some t) (hl : termAt (g.llog T) p = some t) :
    (g.llog T).take (p + 1) <+: g.log s := by
  have hps := lt_length_of_termAt hs
  have hpl := lt_length_of_termAt hl
  have hne : g.llog T ≠ [] := List.length_pos_iff.mp (by omega)
  obtain ⟨e, he, het⟩ := termAt_eq_some.mp hs
  obtain ⟨e', he', het'⟩ := termAt_eq_some.mp hl
  obtain ⟨U, hU, hk, hp⟩ := hi.log_settled s
  have hpT := hi.take_prefix_llog (hU.trans ht.le) hne hk (hi.base_pos s)
  have hlen : ((g.llog U).take (g.base s)).length = g.base s := by
    have := hi.commit_le U
    simp
    omega
  have hchain := (hi.llog_chain he').2
  apply prefix_of_agree
  intro i hip
  rw [List.length_take] at hip
  rw [List.getElem?_take_of_lt (by omega)]
  by_cases hib : i < g.base s
  · rw [prefix_getElem? hpT (by omega), prefix_getElem? hp (by omega)]
  · rw [hi.log_chained s p e he i (by omega) (by omega), het, ← het',
      prefix_getElem? hchain (by simp; omega), List.getElem?_take_of_lt (by omega)]

omit [Fintype σ] in
theorem grows_accept {s : σ} {T m : ℕ} {l : List (Item α)} (ht : g.term s = T) :
    Grows g (g.accept s T m l) where
  __ := Grows.refl g
  acked s' U := by
    simp only [Ledger.accept, update₂]
    split_ifs with h1 h2
    · rw [h1.1, h1.2]
      exact le_max_left _ _
    · rw [h1.1, h1.2]
    · exact le_rfl
  acked_eq {s' U} hU := by
    refine update₂_of_not _ _ ?_
    rintro ⟨rfl, rfl⟩
    omega

/-- An accepted request is counted as an acknowledgement, or concerns items that the leader
of this term has committed already. -/
theorem Inv.accept_counts (hi : g.Inv) {s : σ} {T m : ℕ} {l : List (Item α)} (ht : g.term s = T)
    (h0 : 0 < m) (hm : m ≤ (g.llog T).length) (ha : g.Accepted s T m l) :
    m ≤ (g.accept s T m l).acked s T ∨ m ≤ g.commit T := by
  by_cases hcond : T ≤ lastTerm l ∨ termAt (g.llog T) (m - 1) ≠ some T
  · left
    simp only [Ledger.accept, update₂_self, if_pos hcond]
    exact le_max_right _ _
  · right
    push Not at hcond
    obtain ⟨hlast, htip⟩ := hcond
    have hlen : ((g.llog T).take m).length = m := by simp [hm]
    have hacc : l = g.log s := by
      rcases ha.kept_or_taken with h | h
      · exact h
      · have := hi.le_lastTerm_take (by omega) hm htip
        rw [h] at hlast
        omega
    have hp := ha.prefix_log
    rw [hacc] at hp hlast
    have hpl := hp.length_le
    -- the last item of the log is of an older term, so position `m - 1` is in its base
    have hne : g.log s ≠ [] := List.length_pos_iff.mp (by omega)
    obtain ⟨e, he, het⟩ := termAt_eq_some.mp (termAt_last hne)
    have hat : termAt (g.log s) (m - 1) = some T := by
      rw [prefix_termAt hp (by omega), ← prefix_termAt (List.take_prefix m _) (by omega),
        htip]
    obtain ⟨a, hsa, hat'⟩ := termAt_eq_some.mp hat
    have hbase : m ≤ g.base s := by
      by_contra hlt
      have := hi.log_chained s _ e he (m - 1) (by omega) (by omega)
      rw [hsa] at this
      have := (hi.llog_chain this.symm).1
      omega
    obtain ⟨U, hU, hk, hpU⟩ := hi.log_settled s
    have hcl := hi.commit_le U
    have haU : (g.llog U)[m - 1]? = some a := by
      have hx : m - 1 < ((g.llog U).take (g.base s)).length := by simp; omega
      rw [prefix_getElem? (List.take_prefix (g.base s) _) hx, ← prefix_getElem? hpU hx, hsa]
    have hUT : U = T := by
      have := (hi.llog_chain haU).1
      omega
    subst hUT
    omega

theorem Inv.held_accept (hi : g.Inv) {s : σ} {T m U i : ℕ} {l : List (Item α)}
    (ht : g.term s = T) (hm : m ≤ (g.llog T).length) (h0 : 0 < m) (hacc : g.Accepted s T m l)
    (ha : i < (g.accept s T m l).acked s U) (htip : termAt (g.llog U) i = some U) :
    (g.accept s T m l).Held s U i := by
  have hiU := lt_length_of_termAt htip
  have hlog := accept_log g s T m l
  have hlen : ((g.llog T).take m).length = m := by simp [hm]
  by_cases hold : i < g.acked s U
  · refine hi.held_mono (grows_accept ht) hold htip fun hp hl => ?_
    by_cases hpT : (g.llog U).take (i + 1) <+: g.llog T
    · have hkeep := hacc.keeps hp hpT
      refine Or.inl ⟨by rwa [hlog], ?_⟩
      rw [hlog]
      rcases hacc.kept_or_taken with h | h
      · rwa [h]
      · rw [h] at hkeep ⊢
        have hx : i < ((g.llog U).take (i + 1)).length := by simp; omega
        refine hi.le_lastTerm_take (i := i) ?_ hm ?_
        · have := hkeep.length_le
          omega
        · rw [prefix_termAt hpT hx, ← prefix_termAt (List.take_prefix _ _) hx, htip]
    · -- the leader of the server's own term does not hold the item
      have hle := hi.acked_term (s := s) (T := U) (by omega)
      refine Or.inr ⟨T, lt_of_le_of_ne (by omega) ?_, by change T < g.term s + 1; omega, ?_, hpT⟩
      · rintro rfl
        exact hpT (List.take_prefix _ _)
      · exact List.length_pos_iff.mp (by change 0 < (g.llog T).length; omega)
  · -- a new acknowledgement
    have hUT : U = T := by
      by_contra hne
      exact hold (by simpa [Ledger.accept, update₂, hne] using ha)
    subst hUT
    simp only [Ledger.accept, update₂_self] at ha
    split_ifs at ha with hcond
    · have him : i < m := by
        rcases lt_max_iff.mp ha with h | h
        · exact absurd h hold
        · exact h
      have hlast : U ≤ lastTerm l := by
        rcases hcond with h | h
        · exact h
        · refine absurd ?_ h
          obtain ⟨a, ha', hat⟩ := termAt_eq_some.mp htip
          have hb : (g.llog U)[m - 1]? = some (g.llog U)[m - 1] :=
            List.getElem?_eq_getElem (by omega)
          have h1 := hi.llog_sorted ha' hb (by omega)
          have h2 := (hi.llog_chain hb).1
          exact termAt_eq_some.mpr ⟨_, hb, by omega⟩
      refine Or.inl ⟨?_, by rwa [hlog]⟩
      rw [hlog]
      exact (List.take_prefix_take_left (by omega)).trans hacc.prefix_log
    · exact absurd ha hold

/-- A server acknowledges items of its own term only. -/
theorem Inv.acked_term_of_not (hi : g.Inv) {c : σ} {T : ℕ} (ht : g.term c = T)
    (hacked : ∀ {s U}, ¬ (s = c ∧ U = T) → g'.acked s U = g.acked s U) {s : σ} {U : ℕ}
    (hpos : 0 < g'.acked s U) : U ≤ g.term s := by
  by_cases hc : s = c ∧ U = T
  · obtain ⟨rfl, rfl⟩ := hc
    exact ht.ge
  · rw [hacked hc] at hpos
    exact hi.acked_term hpos

section Accept
variable {s : σ} {T m : ℕ} {l : List (Item α)}

omit [DecidableEq σ] in
/-- The leader of a term accepts its own log. -/
theorem Inv.accept_leader (hi : g.Inv) (hl : g.leader T = some s) (ht : g.term s = T)
    (hacc : g.Accepted s T m l) : l = g.llog T := by
  have hlog := (hi.leader_log hl).2.2.2 ht
  rcases hacc with ⟨-, rfl⟩ | ⟨hnp, -⟩
  · exact hlog
  · refine absurd ?_ hnp
    rw [hlog]
    exact List.take_prefix m _

theorem Inv.leader_log_accept (hi : g.Inv) (ht : g.term s = T) (hm : m ≤ (g.llog T).length)
    (hacc : g.Accepted s T m l) {U : ℕ} {c : σ} (hl : g.leader U = some c) :
    0 < U ∧ U ≤ g.term c ∧ (g.accept s T m l).acked c U = (g.llog U).length ∧
      (g.term c = U → (g.accept s T m l).log c = g.llog U) := by
  obtain ⟨h1, h2, h3, h4⟩ := hi.leader_log hl
  refine ⟨h1, h2, ?_, fun htc => ?_⟩
  · simp only [Ledger.accept, update₂]
    split_ifs with hc
    · obtain ⟨rfl, rfl⟩ := hc
      rw [h3]
      exact max_eq_left hm
    · obtain ⟨rfl, rfl⟩ := hc
      exact h3
    · exact h3
  · by_cases hs : c = s
    · subst hs
      obtain rfl : T = U := ht.symm.trans htc
      rw [accept_log]
      exact hi.accept_leader hl ht hacc
    · rw [accept_log_of_ne hs]
      exact h4 htc

end Accept

theorem Inv.accept (hi : g.Inv) {s : σ} {T m : ℕ} {l : List (Item α)} (ht : g.term s = T)
    (h0 : 0 < m) (hm : m ≤ (g.llog T).length) (hacc : g.Accepted s T m l) :
    (g.accept s T m l).Inv :=
  have gr := grows_accept (m := m) (l := l) ht
  have hne : g.llog T ≠ [] := List.length_pos_iff.mp (by omega)
  { hi with
    leader_ballots := fun hl => hi.leader_ballots_mono gr hl
    log_settled := by
      intro s'
      by_cases hs : s' = s
      · subst hs
        obtain ⟨U, hU, hk, hp⟩ := hi.log_settled s'
        rw [accept_log]
        exact ⟨U, hU, hk, hacc.keeps hp
          (hi.take_prefix_llog (hU.trans ht.le) hne hk (hi.base_pos s'))⟩
      · rw [accept_log_of_ne hs]
        exact hi.log_settled s'
    log_chained := by
      intro s'
      by_cases hs : s' = s
      · subst hs
        rw [accept_log]
        rcases hacc.kept_or_taken with h | h
        · rw [h]
          exact hi.log_chained s'
        · rw [h]
          exact Chained.of_prefix (List.take_prefix m _) (hi.llog_chained T _)
      · rw [accept_log_of_ne hs]
        exact hi.log_chained s'
    log_term := by
      intro s' e he
      by_cases hs : s' = s
      · subst hs
        rw [accept_log] at he
        rcases hacc.kept_or_taken with h | h
        · rw [h] at he
          exact hi.log_term he
        · rw [h] at he
          obtain ⟨j, hj⟩ := List.getElem?_of_mem (List.mem_of_mem_take he)
          exact (hi.llog_chain hj).1.trans ht.ge
      · rw [accept_log_of_ne hs] at he
        exact hi.log_term he
    leader_log := fun hl => hi.leader_log_accept ht hm hacc hl
    acked_le := by
      intro s' U
      simp only [Ledger.accept, update₂]
      split_ifs with hc
      · obtain ⟨rfl, rfl⟩ := hc
        exact max_le (hi.acked_le _ _) hm
      · obtain ⟨rfl, rfl⟩ := hc
        exact hi.acked_le _ _
      · exact hi.acked_le _ _
    acked_term := fun hpos => hi.acked_term_of_not ht accept_acked_of_not hpos
    held := by
      intro s' U i ha htip
      by_cases hs : s' = s
      · subst hs
        exact hi.held_accept ht hm h0 hacc ha htip
      · rw [accept_acked_of_not fun h => hs h.1] at ha
        refine hi.held_mono gr ha htip fun hp hl => Or.inl ?_
        rw [accept_log_of_ne hs]
        exact ⟨hp, hl⟩
    commit_quorum := fun hc => hi.commit_quorum_mono gr rfl hc
    ballot_stood := fun hb => hi.ballot_stood_mono gr hb
    standing := by
      intro U c l' hst htc hn
      change g.leader U = none at hn
      have hs : c ≠ s := by
        rintro rfl
        obtain rfl : T = U := ht.symm.trans htc
        obtain ⟨c', hc'⟩ := hi.leader_of_llog (hi.stood_spec hst).2.1 hne
        rw [hc'] at hn
        cases hn
      rw [accept_log_of_ne hs]
      exact hi.standing hst htc hn }

section Append
variable {c : σ} {T : ℕ}

theorem Inv.grows_append (hi : g.Inv) (v : α) (hl : g.leader T = some c)
    (ht : g.term c = T) : Grows g (g.append c T v) where
  __ := Grows.refl g
  llog U := by
    simp only [Ledger.append, Function.update_apply]
    split_ifs with hU
    · subst hU
      exact List.prefix_append _ _
    · exact List.prefix_rfl
  fresh {U j e} hne hj he := by
    by_cases hU : U = T
    · subst hU
      simp only [Ledger.append, Function.update_self] at he
      rw [List.getElem?_append_right hj] at he
      obtain rfl : e = ⟨U, v⟩ := by simpa using List.mem_of_getElem? he
      rfl
    · simp only [Ledger.append, Function.update_of_ne hU] at he
      have := (List.getElem?_eq_some_iff.mp he).1
      omega
  acked s U := by
    simp only [Ledger.append, update₂]
    split_ifs with h
    · obtain ⟨rfl, rfl⟩ := h
      exact (hi.acked_le s U).trans (Nat.le_succ _)
    · exact le_rfl
  acked_eq {s U} hU := by
    refine update₂_of_not _ _ ?_
    rintro ⟨rfl, rfl⟩
    omega

theorem Inv.append_log (hi : g.Inv) (v : α) (hl : g.leader T = some c) (ht : g.term c = T) :
    (g.append c T v).log c = (g.append c T v).llog T := by
  rw [append_llog, ← (hi.leader_log hl).2.2.2 ht]
  exact Function.update_self _ _ _

theorem Inv.append_llog_ne (hi : g.Inv) (v : α) (hl : g.leader T = some c) {U : ℕ} :
    (g.append c T v).llog U ≠ [] ↔ g.llog U ≠ [] := by
  by_cases hU : U = T
  · subst hU
    have hne : g.llog U ≠ [] := hi.llog_ne.mpr (Or.inr (by simp [hl]))
    simp [append_llog, hne]
  · rw [append_llog_of_ne v hU]

/-- The new item is of the term of its leader, and the others stay as they are. -/
theorem Inv.append_chain (hi : g.Inv) (v : α) (hl : g.leader T = some c) (ht : g.term c = T)
    {U j : ℕ} {e : Item α} (he : ((g.append c T v).llog U)[j]? = some e) :
    e.term ≤ U ∧ ((g.append c T v).llog U).take (j + 1) <+: (g.append c T v).llog e.term := by
  have gr := hi.grows_append v hl ht
  by_cases hj : j < (g.llog U).length
  · rw [prefix_getElem? (gr.llog U) hj] at he
    obtain ⟨h1, h2⟩ := hi.llog_chain he
    refine ⟨h1, ?_⟩
    rw [gr.take_llog (by omega)]
    exact h2.trans (gr.llog _)
  · obtain rfl : U = T := by
      by_contra hU
      rw [append_llog_of_ne v hU] at he
      exact hj (List.getElem?_eq_some_iff.mp he).1
    have hne : g.llog U ≠ [] := hi.llog_ne.mpr (Or.inr (by simp [hl]))
    have het := gr.fresh hne (by omega) he
    exact ⟨het.le, by rw [het]; exact List.take_prefix _ _⟩

theorem Inv.held_append (hi : g.Inv) (v : α) (hl : g.leader T = some c) (ht : g.term c = T)
    {U i : ℕ} (ha : i < (g.append c T v).acked c U)
    (htip : termAt ((g.append c T v).llog U) i = some U) : (g.append c T v).Held c U i := by
  have gr := hi.grows_append v hl ht
  have hlog := hi.append_log v hl ht
  have hlogc : g.log c = g.llog T := (hi.leader_log hl).2.2.2 ht
  by_cases hold : i < g.acked c U
  · have hU := hi.acked_term (s := c) (T := U) (by omega)
    have hlen : i < (g.llog U).length := lt_of_lt_of_le hold (hi.acked_le c U)
    rw [gr.termAt_llog hlen] at htip
    refine hi.held_mono gr hold htip fun hp hlast => Or.inl ⟨?_, ?_⟩
    · rw [gr.take_llog (by omega), hlog, append_llog, ← hlogc]
      exact hp.trans (List.prefix_append _ _)
    · rw [hlog, append_llog, lastTerm_append_singleton]
      exact hU.trans ht.le
  · obtain rfl : U = T := by
      by_contra hU
      rw [append_acked_of_not v fun h => hU h.2] at ha
      exact hold ha
    refine Or.inl ⟨by rw [hlog]; exact List.take_prefix _ _, ?_⟩
    rw [hlog, append_llog, lastTerm_append_singleton]

theorem Inv.leader_log_append (hi : g.Inv) (v : α) (hl : g.leader T = some c)
    (ht : g.term c = T) {U : ℕ} {c' : σ} (hl' : g.leader U = some c') :
    0 < U ∧ U ≤ g.term c' ∧
      (g.append c T v).acked c' U = ((g.append c T v).llog U).length ∧
      (g.term c' = U → (g.append c T v).log c' = (g.append c T v).llog U) := by
  obtain ⟨h1, h2, h3, h4⟩ := hi.leader_log hl'
  by_cases hU : U = T
  · subst hU
    obtain rfl : c = c' := Option.some.inj (hl.symm.trans hl')
    exact ⟨h1, h2, by simp [Ledger.append], fun _ => hi.append_log v hl ht⟩
  · refine ⟨h1, h2, ?_, fun htc => ?_⟩
    · rw [append_llog_of_ne v hU, append_acked_of_not v fun h => hU h.2, h3]
    · have hc : c' ≠ c := by
        rintro rfl
        exact hU (htc.symm.trans ht)
      rw [append_log_of_ne v hc, append_llog_of_ne v hU]
      exact h4 htc

theorem Inv.append (hi : g.Inv) {c : σ} {T : ℕ} (v : α) (hl : g.leader T = some c)
    (ht : g.term c = T) : (g.append c T v).Inv :=
  have gr := hi.grows_append v hl ht
  have hlog := hi.append_log v hl ht
  { hi with
    leader_ballots := fun hl => hi.leader_ballots_mono gr hl
    llog_ne := (hi.append_llog_ne v hl).trans hi.llog_ne
    llog_chain := hi.append_chain v hl ht
    ilog_prefix := fun U => (hi.ilog_prefix U).trans (gr.llog U)
    ilog_ne := fun h => hi.ilog_ne ((hi.append_llog_ne v hl).mp h)
    log_settled := by
      intro s
      refine hi.settled_mono gr le_rfl ?_ (hi.log_settled s)
      by_cases hs : s = c
      · subst hs
        rw [hlog, append_llog, (hi.leader_log hl).2.2.2 ht]
        exact List.prefix_append _ _
      · rw [append_log_of_ne v hs]
    log_chained := by
      intro s
      by_cases hs : s = c
      · subst hs
        rw [hlog]
        exact chained_llog (hi.append_chain v hl ht) T _
      · rw [append_log_of_ne v hs]
        exact gr.chained (hi.log_chained s)
    log_term := by
      intro s e he
      by_cases hs : s = c
      · subst hs
        rw [hlog] at he
        obtain ⟨j, hj⟩ := List.getElem?_of_mem he
        exact (hi.append_chain v hl ht hj).1.trans ht.ge
      · rw [append_log_of_ne v hs] at he
        exact hi.log_term he
    leader_log := fun hl' => hi.leader_log_append v hl ht hl'
    acked_le := by
      intro s U
      by_cases hc : s = c ∧ U = T
      · obtain ⟨rfl, rfl⟩ := hc
        simp [Ledger.append]
      · rw [append_acked_of_not v hc]
        exact (hi.acked_le s U).trans (gr.llog U).length_le
    acked_term := fun hpos => hi.acked_term_of_not ht (append_acked_of_not v) hpos
    held := by
      intro s U i ha htip
      by_cases hs : s = c
      · subst hs
        exact hi.held_append v hl ht ha htip
      · rw [append_acked_of_not v fun h => hs h.1] at ha
        have hlen : i < (g.llog U).length := lt_of_lt_of_le ha (hi.acked_le s U)
        rw [gr.termAt_llog hlen] at htip
        refine hi.held_mono gr ha htip fun hp hlast => Or.inl ?_
        rw [gr.take_llog (by omega), append_log_of_ne v hs]
        exact ⟨hp, hlast⟩
    commit_quorum := fun hc => hi.commit_quorum_mono gr rfl hc
    stood_spec := fun hs => hi.stood_spec_mono gr hs
    ballot_stood := fun hb => hi.ballot_stood_mono gr hb
    standing := by
      intro U c' l hst htc hn
      change g.leader U = none at hn
      have hs : c' ≠ c := by
        rintro rfl
        obtain rfl : T = U := ht.symm.trans htc
        rw [hl] at hn
        cases hn
      rw [append_log_of_ne v hs]
      exact (hi.standing hst htc hn).imp_right (hi.doomed_mono gr) }

end Append

end Ledger
end Basis
