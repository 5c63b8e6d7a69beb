import RaftLabs.Basis.LedgerAccept

/-! Elections: the winner holds everything that is committed. -/

namespace Basis
namespace Ledger

variable {σ α : Type*} {g g' : Ledger σ α} {c : σ} {T : ℕ}

section Frames
variable [DecidableEq σ]

theorem elect_leader (g : Ledger σ α) (c : σ) (T : ℕ) : (g.elect c T).leader T = some c :=
  Function.update_self _ _ _

theorem elect_leader_of_ne {U : ℕ} (hU : U ≠ T) : (g.elect c T).leader U = g.leader U :=
  Function.update_of_ne hU _ _

theorem elect_llog (g : Ledger σ α) (c : σ) (T : ℕ) : (g.elect c T).llog T = g.log c :=
  Function.update_self _ _ _

theorem elect_llog_of_ne {U : ℕ} (hU : U ≠ T) : (g.elect c T).llog U = g.llog U :=
  Function.update_of_ne hU _ _

theorem elect_ilog (g : Ledger σ α) (c : σ) (T : ℕ) : (g.elect c T).ilog T = g.log c :=
  Function.update_self _ _ _

theorem elect_ilog_of_ne {U : ℕ} (hU : U ≠ T) : (g.elect c T).ilog U = g.ilog U :=
  Function.update_of_ne hU _ _

theorem elect_acked (g : Ledger σ α) (c : σ) (T : ℕ) :
    (g.elect c T).acked c T = (g.log c).length :=
  update₂_self _ _ _ _

theorem elect_acked_of_not {s : σ} {U : ℕ} (h : ¬ (s = c ∧ U = T)) :
    (g.elect c T).acked s U = g.acked s U :=
  update₂_of_not _ _ h

end Frames

section Elect
variable [Fintype σ] {l : List (Item α)} {Q : Finset σ}

/-- The votes of a majority are for one log, and respect every acknowledgement. -/
theorem Inv.elect_stood (hi : g.Inv) (hq : Majority Q) (hb : ∀ s ∈ Q, g.ballot s T = some c)
    (hn : g.leader T = none) : ∃ l, g.stood T c = some l ∧ ∀ s ∈ Q, g.Backed s T l := by
  obtain ⟨s₀, hs₀⟩ := hq.nonempty
  obtain ⟨l, hl, -⟩ := hi.ballot_stood (hb s₀ hs₀)
  refine ⟨l, hl, fun s hs => ?_⟩
  obtain ⟨l', hl', hback⟩ := hi.ballot_stood (hb s hs)
  obtain rfl := Option.some.inj (hl.symm.trans hl')
  exact hback hn

theorem Inv.llog_nil (hi : g.Inv) (hT : 0 < T) (hn : g.leader T = none) : g.llog T = [] := by
  by_contra hne
  obtain ⟨c', hc'⟩ := hi.leader_of_llog hT hne
  rw [hc'] at hn
  cases hn

variable [DecidableEq σ]

/-- A log backed by a majority is at least as up to date as what is committed. -/
theorem Inv.elect_upToDate (hi : g.Inv) (hq : Majority Q) (hback : ∀ s ∈ Q, g.Backed s T l)
    {U : ℕ} (hU : U < T) (hc : 0 < g.commit U) :
    U < lastTerm l ∨ (U = lastTerm l ∧ g.commit U - 1 < l.length) := by
  obtain ⟨htip, Q', hQ', hacks⟩ := hi.commit_quorum hc
  obtain ⟨s, hs, hs'⟩ := hq.inter hQ'
  have hacked : g.commit U - 1 < g.acked s U := by have := hacks s hs'; omega
  rcases hback s hs U _ hU hacked htip with hlex | ⟨T', h1, -, hne, hnp⟩
  · exact hlex
  · refine absurd ?_ hnp
    rw [Nat.sub_add_cancel hc]
    exact hi.committed_prefix h1.le hne hc

/-- A log backed by a majority is one that the leader of its last term had. -/
theorem Inv.elect_prefix (hi : g.Inv) (hq : Majority Q) (hst : g.stood T c = some l)
    (hback : ∀ s ∈ Q, g.Backed s T l) : l ≠ [] ∧ l <+: g.llog (lastTerm l) := by
  obtain ⟨-, hT, -, k, hk, ⟨U, hU, hkc, hp⟩, hch⟩ := hi.stood_spec hst
  have hlen := hi.commit_le U
  have hkl : k ≤ l.length := by
    have := hp.length_le
    rw [List.length_take] at this
    omega
  have hne : l ≠ [] := List.length_pos_iff.mp (by omega)
  have hUl : U ≤ lastTerm l := by
    rcases hi.elect_upToDate hq hback (by omega : U < T) (by omega) with h | h <;> omega
  obtain ⟨e, he, het⟩ := termAt_eq_some.mp (termAt_last hne)
  have hlow : ∀ i < k, l[i]? = (g.llog U)[i]? := fun i hik => by
    rw [prefix_getElem? hp (by simp; omega), List.getElem?_take_of_lt hik]
  have hne' : g.llog (lastTerm l) ≠ [] := by
    rw [← het]
    by_cases hlk : l.length - 1 < k
    · rw [hlow _ hlk] at he
      exact hi.llog_ne_of_term he
    · rw [hch _ e he _ (by omega) le_rfl] at he
      exact List.ne_nil_of_length_pos
        (by have := (List.getElem?_eq_some_iff.mp he).1; omega)
  refine ⟨hne, prefix_of_agree fun i hil => ?_⟩
  by_cases hik : i < k
  · rw [hlow i hik, prefix_getElem? (hi.take_prefix_llog hUl hne' hkc hk) (by simp; omega),
      List.getElem?_take_of_lt hik]
  · rw [← het]
    exact hch _ e he i (by omega) (by omega)

/-- Hence it holds everything that is committed. -/
theorem Inv.elect_committed (hi : g.Inv) (hq : Majority Q) (hst : g.stood T c = some l)
    (hback : ∀ s ∈ Q, g.Backed s T l) {U : ℕ} (hU : U < T) (hc : 0 < g.commit U) :
    (g.llog U).take (g.commit U) <+: l := by
  obtain ⟨hne, hown⟩ := hi.elect_prefix hq hst hback
  have hlex := hi.elect_upToDate hq hback hU hc
  have hown' : g.llog (lastTerm l) ≠ [] := fun h0 => hne (List.prefix_nil.mp (h0 ▸ hown))
  exact hi.carries hne hc hown (hi.committed_prefix (by omega) hown' hc) hlex

/-- The winner of an election still has the log with which it stood. -/
theorem Inv.elect_log (hi : g.Inv) (hq : Majority Q) (hst : g.stood T c = some l)
    (hback : ∀ s ∈ Q, g.Backed s T l) (hn : g.leader T = none) (ht : g.term c = T) :
    g.log c = l := by
  rcases hi.standing hst ht hn with h | ⟨U, k, hU, hk, hnp⟩
  · exact h
  · refine absurd ?_ hnp
    rcases Nat.eq_zero_or_pos k with rfl | hk0
    · simp
    · exact (List.take_prefix_take_left hk).trans
        (hi.elect_committed hq hst hback hU (by omega))

theorem Inv.grows_elect (hi : g.Inv) (hT : 0 < T) (hn : g.leader T = none) (ht : g.term c = T) :
    Grows g (g.elect c T) where
  __ := Grows.refl g
  leader {U c'} hl := by
    refine (Function.update_of_ne ?_ _ _).trans hl
    rintro rfl
    rw [hn] at hl
    cases hl
  ilog {U} hne := by
    refine Function.update_of_ne ?_ _ _
    rintro rfl
    exact hne (hi.llog_nil hT hn)
  llog U := by
    simp only [Ledger.elect, Function.update_apply]
    split_ifs with hU
    · subst hU
      rw [hi.llog_nil hT hn]
      exact List.nil_prefix
    · exact List.prefix_rfl
  fresh {U j e} hne hj he := by
    have hU : U ≠ T := by
      rintro rfl
      exact hne (hi.llog_nil hT hn)
    simp only [Ledger.elect, Function.update_of_ne hU] at he
    have := (List.getElem?_eq_some_iff.mp he).1
    omega
  acked s U := by
    simp only [Ledger.elect, update₂]
    split_ifs with h
    · obtain ⟨rfl, rfl⟩ := h
      have := hi.acked_le s U
      rw [hi.llog_nil hT hn, List.length_nil] at this
      omega
    · exact le_rfl
  acked_eq {s U} hU := by
    refine update₂_of_not _ _ ?_
    rintro ⟨rfl, rfl⟩
    omega

/-- The items with which a leader starts are of earlier terms, and it has them as the leader of
its last term had them. -/
theorem Inv.elect_chain (hi : g.Inv) (gr : Grows g (g.elect c T))
    (hterms : ∀ e ∈ g.log c, e.term < T) (hown : g.log c <+: g.llog (lastTerm (g.log c)))
    {U j : ℕ} {e : Item α} (he : ((g.elect c T).llog U)[j]? = some e) :
    e.term ≤ U ∧ ((g.elect c T).llog U).take (j + 1) <+: (g.elect c T).llog e.term := by
  by_cases hU : U = T
  · subst hU
    rw [elect_llog] at he ⊢
    have hlt := hterms e (List.mem_of_getElem? he)
    rw [elect_llog_of_ne hlt.ne]
    have hj := (List.getElem?_eq_some_iff.mp he).1
    rw [← prefix_getElem? hown hj] at he
    have hp := (hi.llog_chain he).2
    rw [List.prefix_iff_eq_take.mp hown, List.take_take]
    exact ⟨hlt.le, (List.take_prefix_take_left (min_le_left _ _)).trans hp⟩
  · rw [elect_llog_of_ne hU] at he ⊢
    exact ⟨(hi.llog_chain he).1, (hi.llog_chain he).2.trans (gr.llog _)⟩

theorem Inv.held_elect (hi : g.Inv) (gr : Grows g (g.elect c T))
    (hterms : ∀ e ∈ g.log c, e.term < T) {s : σ} {U i : ℕ} (ha : i < (g.elect c T).acked s U)
    (htip : termAt ((g.elect c T).llog U) i = some U) : (g.elect c T).Held s U i := by
  by_cases hU : U = T
  · -- the items with which the leader starts are of earlier terms
    subst hU
    rw [elect_llog] at htip
    obtain ⟨e, he, het⟩ := termAt_eq_some.mp htip
    have := hterms e (List.mem_of_getElem? he)
    omega
  · rw [elect_acked_of_not fun h => hU h.2] at ha
    rw [elect_llog_of_ne hU] at htip
    refine hi.held_mono gr ha htip fun hp hlast => Or.inl ⟨?_, hlast⟩
    rw [elect_llog_of_ne hU]
    exact hp

theorem Inv.elect (hi : g.Inv) (hq : Majority Q) (hb : ∀ s ∈ Q, g.ballot s T = some c)
    (hn : g.leader T = none) (ht : g.term c = T) : (g.elect c T).Inv := by
  obtain ⟨l, hst, hback⟩ := hi.elect_stood hq hb hn
  obtain ⟨hne, hown⟩ := hi.elect_prefix hq hst hback
  obtain ⟨-, hT, hterms, -⟩ := hi.stood_spec hst
  have gr := hi.grows_elect hT hn ht
  obtain rfl : g.log c = l := hi.elect_log hq hst hback hn ht
  exact { hi with
    leader_ballots := by
      intro U c' hl
      by_cases hU : U = T
      · subst hU
        obtain rfl : c = c' := Option.some.inj ((elect_leader g c U).symm.trans hl)
        refine ⟨Q, hq, fun s hs => ⟨hb s hs, ?_⟩⟩
        rw [elect_ilog]
        exact hi.backed_mono gr (hi.ballot_le (hb s hs)) (hback s hs)
      · rw [elect_leader_of_ne hU] at hl
        exact hi.leader_ballots_mono gr hl
    llog_ne := by
      intro U
      by_cases hU : U = T
      · subst hU
        simp [elect_llog, elect_leader, hne]
      · rw [elect_llog_of_ne hU, elect_leader_of_ne hU]
        exact hi.llog_ne
    llog_chain := hi.elect_chain gr hterms hown
    ilog_prefix := by
      intro U
      by_cases hU : U = T
      · subst hU
        rw [elect_ilog, elect_llog]
      · rw [elect_ilog_of_ne hU, elect_llog_of_ne hU]
        exact hi.ilog_prefix U
    ilog_ne := by
      intro U hU'
      by_cases hU : U = T
      · subst hU
        rwa [elect_ilog]
      · rw [elect_llog_of_ne hU] at hU'
        rw [elect_ilog_of_ne hU]
        exact hi.ilog_ne hU'
    ilog_term := by
      intro U e hpos he
      by_cases hU : U = T
      · subst hU
        rw [elect_ilog] at he
        exact hterms e he
      · rw [elect_ilog_of_ne hU] at he
        exact hi.ilog_term hpos he
    log_settled := fun s => hi.settled_mono gr le_rfl List.prefix_rfl (hi.log_settled s)
    log_chained := fun s => gr.chained (hi.log_chained s)
    leader_log := by
      intro U c' hl
      by_cases hU : U = T
      · subst hU
        obtain rfl : c = c' := Option.some.inj ((elect_leader g c U).symm.trans hl)
        rw [elect_llog, elect_acked]
        exact ⟨hT, ht.ge, rfl, fun _ => rfl⟩
      · rw [elect_leader_of_ne hU] at hl
        rw [elect_llog_of_ne hU, elect_acked_of_not fun h => hU h.2]
        exact hi.leader_log hl
    acked_le := by
      intro s U
      by_cases hc : s = c ∧ U = T
      · obtain ⟨rfl, rfl⟩ := hc
        rw [elect_acked, elect_llog]
      · rw [elect_acked_of_not hc]
        exact (hi.acked_le s U).trans (gr.llog U).length_le
    acked_term := fun hpos => hi.acked_term_of_not ht elect_acked_of_not hpos
    held := hi.held_elect gr hterms
    commit_quorum := fun hc => hi.commit_quorum_mono gr rfl hc
    stood_spec := fun hs => hi.stood_spec_mono gr hs
    ballot_stood := fun hb => hi.ballot_stood_mono gr hb
    standing := by
      intro U c' m hs htc hn'
      have hU : U ≠ T := by
        rintro rfl
        rw [elect_leader] at hn'
        cases hn'
      rw [elect_leader_of_ne hU] at hn'
      exact (hi.standing hs htc hn').imp_right (hi.doomed_mono gr) }

end Elect

end Ledger
end Basis
