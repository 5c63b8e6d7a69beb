import RaftLabs.Basis.LedgerInvariant
import Mathlib.Logic.Relation

/-! Every move of the replicated log keeps its invariant and only adds to what has been
elected, acknowledged and committed. -/

namespace Basis
namespace Ledger

variable {σ α : Type*} {g g' : Ledger σ α} {clean : Prop}

/-- What no move takes back. New items of a leader's log are of its own term. -/
structure Grows (g g' : Ledger σ α) : Prop where
  term : ∀ s, g.term s ≤ g'.term s
  ballot : ∀ {s T c}, g.ballot s T = some c → g'.ballot s T = some c
  stood : ∀ {T c l}, g.stood T c = some l → g'.stood T c = some l
  leader : ∀ {T c}, g.leader T = some c → g'.leader T = some c
  ilog : ∀ {T}, g.llog T ≠ [] → g'.ilog T = g.ilog T
  llog : ∀ T, g.llog T <+: g'.llog T
  fresh : ∀ {T j e}, g.llog T ≠ [] → (g.llog T).length ≤ j → (g'.llog T)[j]? = some e →
    e.term = T
  acked : ∀ s T, g.acked s T ≤ g'.acked s T
  acked_eq : ∀ {s T}, T < g.term s → g'.acked s T = g.acked s T
  commit : ∀ T, g.commit T ≤ g'.commit T

theorem Grows.refl (g : Ledger σ α) : Grows g g where
  term _ := le_rfl
  ballot h := h
  stood h := h
  leader h := h
  ilog _ := rfl
  llog _ := List.prefix_rfl
  fresh _ hj he := absurd (List.getElem?_eq_some_iff.mp he).1 (by omega)
  acked _ _ := le_rfl
  acked_eq _ := rfl
  commit _ := le_rfl

theorem Grows.trans {g₁ g₂ g₃ : Ledger σ α} (h : Grows g₁ g₂) (h' : Grows g₂ g₃) :
    Grows g₁ g₃ where
  term s := (h.term s).trans (h'.term s)
  ballot hb := h'.ballot (h.ballot hb)
  stood hs := h'.stood (h.stood hs)
  leader hl := h'.leader (h.leader hl)
  ilog hne := (h'.ilog (fun he => hne (List.prefix_nil.mp (he ▸ h.llog _)))).trans (h.ilog hne)
  llog T := (h.llog T).trans (h'.llog T)
  fresh {T j e} hne hj he := by
    by_cases hlt : j < (g₂.llog T).length
    · rw [prefix_getElem? (h'.llog T) hlt] at he
      exact h.fresh hne hj he
    · exact h'.fresh (fun h0 => hne (List.prefix_nil.mp (h0 ▸ h.llog _))) (by omega) he
  acked s T := (h.acked s T).trans (h'.acked s T)
  acked_eq {s T} hlt := (h'.acked_eq (lt_of_lt_of_le hlt (h.term s))).trans (h.acked_eq hlt)
  commit T := (h.commit T).trans (h'.commit T)

theorem Grows.take_llog (h : Grows g g') {T k : ℕ} (hk : k ≤ (g.llog T).length) :
    (g'.llog T).take k = (g.llog T).take k := by
  obtain ⟨t, ht⟩ := h.llog T
  rw [← ht, List.take_append_of_le_length hk]

theorem Grows.termAt_llog (h : Grows g g') {T i : ℕ} (hi : i < (g.llog T).length) :
    termAt (g'.llog T) i = termAt (g.llog T) i := prefix_termAt (h.llog T) hi

theorem Grows.chained (h : Grows g g') {k : ℕ} {l : List (Item α)} (hc : g.Chained k l) :
    g'.Chained k l := by
  intro j e he i hk hij
  have hi : i < l.length := by have := (List.getElem?_eq_some_iff.mp he).1; omega
  have heq := hc j e he i hk hij
  rw [List.getElem?_eq_getElem hi] at heq
  have hlt := (List.getElem?_eq_some_iff.mp heq.symm).1
  rw [List.getElem?_eq_getElem hi, heq, prefix_getElem? (h.llog _) hlt]

theorem Grows.overruled (h : Grows g g') {T i U U' : ℕ} (hU : U ≤ U')
    (ht : termAt (g.llog T) i = some T) (ho : g.Overruled T i U) : g'.Overruled T i U' := by
  obtain ⟨T', h1, h2, hne, hnp⟩ := ho
  have hi := lt_length_of_termAt ht
  refine ⟨T', h1, by omega, fun h0 => hne (List.prefix_nil.mp (h0 ▸ h.llog _)), fun hp => hnp ?_⟩
  rw [h.take_llog (by omega)] at hp
  by_cases hlen : i < (g.llog T').length
  · exact List.prefix_of_prefix_length_le hp (h.llog T') (by simp; omega)
  · -- the item at `i` would be a new one of the leader of `T'`, but it is of term `T`
    obtain ⟨e, he, het⟩ := termAt_eq_some.mp ht
    have he' : (g'.llog T')[i]? = some e := by
      rw [prefix_getElem? hp (by simp; omega), List.getElem?_take_of_lt (by omega), he]
    have := h.fresh hne (by omega) he'
    omega

variable [Fintype σ]

theorem Inv.settled_mono (hi : g.Inv) (h : Grows g g') {T₀ T₁ k : ℕ} {l m : List (Item α)}
    (hT : T₀ ≤ T₁) (hl : l <+: m) (hs : g.Settled T₀ k l) : g'.Settled T₁ k m := by
  obtain ⟨T, hT', hk, hp⟩ := hs
  refine ⟨T, hT'.trans hT, hk.trans (h.commit T), ?_⟩
  rw [h.take_llog (hk.trans (hi.commit_le T))]
  exact hp.trans hl

theorem Inv.backed_mono (hi : g.Inv) (h : Grows g g') {s : σ} {U : ℕ} {l : List (Item α)}
    (hU : U ≤ g.term s) (hb : g.Backed s U l) : g'.Backed s U l := by
  intro T i hTU ha ht
  rw [h.acked_eq (by omega)] at ha
  have hlen : i < (g.llog T).length := lt_of_lt_of_le ha (hi.acked_le s T)
  rw [h.termAt_llog hlen] at ht
  exact (hb T i hTU ha ht).imp_right (h.overruled le_rfl ht)

/-- A server's acknowledgements survive when its log keeps what it holds. -/
theorem Inv.held_mono (hi : g.Inv) (h : Grows g g') {s : σ} {T i : ℕ}
    (ha : i < g.acked s T) (ht : termAt (g.llog T) i = some T)
    (hkeep : (g.llog T).take (i + 1) <+: g.log s → T ≤ lastTerm (g.log s) → g'.Held s T i) :
    g'.Held s T i := by
  rcases hi.held ha ht with ⟨hp, hl⟩ | ho
  · exact hkeep hp hl
  · exact Or.inr (h.overruled (by have := h.term s; omega) ht ho)

theorem Inv.leader_ballots_mono (hi : g.Inv) (h : Grows g g') {T : ℕ} {c : σ}
    (hl : g.leader T = some c) : ∃ Q : Finset σ, Majority Q ∧
      ∀ s ∈ Q, g'.ballot s T = some c ∧ g'.Backed s T (g'.ilog T) := by
  obtain ⟨Q, hQ, hb⟩ := hi.leader_ballots hl
  refine ⟨Q, hQ, fun s hs => ⟨h.ballot (hb s hs).1, ?_⟩⟩
  rw [h.ilog (hi.llog_ne.mpr (Or.inr (by simp [hl])))]
  exact hi.backed_mono h (hi.ballot_le (hb s hs).1) (hb s hs).2

theorem Inv.stood_spec_mono (hi : g.Inv) (h : Grows g g') {T : ℕ} {c : σ} {l : List (Item α)}
    (hs : g.stood T c = some l) : T ≤ g'.term c ∧ 0 < T ∧ (∀ e ∈ l, e.term < T) ∧
      ∃ k, 0 < k ∧ g'.Settled (T - 1) k l ∧ g'.Chained k l := by
  obtain ⟨h1, h2, h3, k, hk, h4, h5⟩ := hi.stood_spec hs
  exact ⟨h1.trans (h.term c), h2, h3, k, hk,
    hi.settled_mono h le_rfl List.prefix_rfl h4, h.chained h5⟩

theorem Inv.ballot_stood_mono (hi : g.Inv) (h : Grows g g') {s c : σ} {T : ℕ}
    (hb : g.ballot s T = some c) :
    ∃ l, g'.stood T c = some l ∧ (g'.leader T = none → g'.Backed s T l) := by
  obtain ⟨l, hl, hback⟩ := hi.ballot_stood hb
  refine ⟨l, h.stood hl, fun hn => hi.backed_mono h (hi.ballot_le hb) (hback ?_)⟩
  by_contra hne
  obtain ⟨c', hc'⟩ := Option.ne_none_iff_exists'.mp hne
  rw [h.leader hc'] at hn
  cases hn

theorem Inv.commit_quorum_mono (hi : g.Inv) (h : Grows g g') {T : ℕ}
    (he : g'.commit T = g.commit T) (hc : 0 < g'.commit T) :
    termAt (g'.llog T) (g'.commit T - 1) = some T ∧
      ∃ Q : Finset σ, Majority Q ∧ ∀ s ∈ Q, g'.commit T ≤ g'.acked s T := by
  rw [he] at hc ⊢
  obtain ⟨ht, Q, hQ, ha⟩ := hi.commit_quorum hc
  refine ⟨by rw [h.termAt_llog (lt_length_of_termAt ht), ht], Q, hQ, fun s hs => ?_⟩
  exact (ha s hs).trans (h.acked s T)

/-- A candidate that is doomed stays so. -/
theorem Inv.doomed_mono (hi : g.Inv) (h : Grows g g') {T : ℕ} {l : List (Item α)}
    (hd : ∃ T' k, T' < T ∧ k ≤ g.commit T' ∧ ¬ (g.llog T').take k <+: l) :
    ∃ T' k, T' < T ∧ k ≤ g'.commit T' ∧ ¬ (g'.llog T').take k <+: l := by
  obtain ⟨T', k, h1, h2, h3⟩ := hd
  refine ⟨T', k, h1, h2.trans (h.commit T'), ?_⟩
  rwa [h.take_llog (h2.trans (hi.commit_le T'))]

/-- Items in front of `m` in a leader's log have terms up to that of the last of them. -/
theorem Inv.le_lastTerm_take (hi : g.Inv) {T m i t : ℕ} (him : i < m)
    (hm : m ≤ (g.llog T).length) (ht : termAt (g.llog T) i = some t) :
    t ≤ lastTerm ((g.llog T).take m) := by
  have hlen : ((g.llog T).take m).length = m := by simp [hm]
  have hne : (g.llog T).take m ≠ [] := List.length_pos_iff.mp (by omega)
  have hlast := termAt_last hne
  rw [← prefix_termAt (List.take_prefix m _) (by omega), hlen] at hlast
  obtain ⟨a, ha, hat⟩ := termAt_eq_some.mp ht
  obtain ⟨b, hb, hbt⟩ := termAt_eq_some.mp hlast
  rw [← hat, ← hbt]
  exact hi.llog_sorted ha hb (by omega)

theorem Inv.install_log_of_prefix (hi : g.Inv) {T k : ℕ} {l : List (Item α)}
    (hc : k ≤ g.commit T) (hp : (g.llog T).take k <+: l) :
    (g.llog T).take k ++ l.drop k = l := by
  have hlen : ((g.llog T).take k).length = k := by have := hi.commit_le T; simp; omega
  obtain ⟨t, rfl⟩ := hp
  rw [List.drop_append_of_le_length (by omega), List.drop_of_length_le (by omega), List.nil_append]

omit [Fintype σ] in
theorem grows_commitTo {T i : ℕ} (hc : g.commit T ≤ i) : Grows g (g.commitTo T i) where
  __ := Grows.refl g
  commit U := by
    simp only [Ledger.commitTo, Function.update_apply]
    split_ifs with hU
    · subst hU
      omega
    · exact le_rfl

theorem Inv.commitTo (hi : g.Inv) {T i : ℕ} {Q : Finset σ} (hq : Majority Q)
    (hc : g.commit T ≤ i) (ht : termAt (g.llog T) i = some T)
    (ha : ∀ s ∈ Q, i < g.acked s T) : (g.commitTo T i).Inv :=
  have gr := grows_commitTo hc
  { hi with
    log_settled := fun s => hi.settled_mono gr le_rfl List.prefix_rfl (hi.log_settled s)
    commit_quorum := by
      intro U hpos
      by_cases hU : U = T
      · subst hU
        simp only [Ledger.commitTo, Function.update_self, Nat.add_sub_cancel]
        exact ⟨ht, Q, hq, fun s hs => ha s hs⟩
      · exact hi.commit_quorum_mono gr (by simp [Ledger.commitTo, hU]) hpos
    stood_spec := fun hs => hi.stood_spec_mono gr hs
    standing := fun hs ht hn => (hi.standing hs ht hn).imp_right (hi.doomed_mono gr) }

variable [DecidableEq σ]

omit [Fintype σ] in
theorem grows_advance (s : σ) {T : ℕ} (h : g.term s < T) : Grows g (g.advance s T) where
  __ := Grows.refl g
  term s' := by
    simp only [advance, Function.update_apply]
    split_ifs with hs
    · subst hs; exact h.le
    · exact le_rfl

theorem Inv.advance (hi : g.Inv) {s : σ} {T : ℕ} (h : g.term s < T) : (g.advance s T).Inv :=
  have gr := grows_advance s h
  { hi with
    ballot_le := fun hb => (hi.ballot_le hb).trans (gr.term _)
    leader_ballots := fun hl => hi.leader_ballots_mono gr hl
    log_settled := fun s' => hi.settled_mono gr (gr.term s') List.prefix_rfl (hi.log_settled s')
    log_term := fun he => (hi.log_term he).trans (gr.term _)
    leader_log := by
      intro U c hl
      obtain ⟨h0, h1, h2, h3⟩ := hi.leader_log hl
      refine ⟨h0, h1.trans (gr.term c), h2, fun ht => h3 ?_⟩
      by_cases hc : c = s
      · simp only [Ledger.advance, hc, Function.update_self] at ht
        subst hc
        omega
      · simpa [Ledger.advance, hc] using ht
    acked_term := fun ha => (hi.acked_term ha).trans (gr.term _)
    held := fun ha ht => hi.held_mono gr ha ht fun hp hl => Or.inl ⟨hp, hl⟩
    stood_spec := fun hs => hi.stood_spec_mono gr hs
    ballot_stood := fun hb => hi.ballot_stood_mono gr hb
    standing := by
      intro U c l hs ht hn
      refine hi.standing hs ?_ hn
      by_cases hc : c = s
      · have := (hi.stood_spec hs).1
        simp only [Ledger.advance, hc, Function.update_self] at ht
        subst hc
        omega
      · simpa [Ledger.advance, hc] using ht }

theorem Inv.grows_stand (hi : g.Inv) {c : σ} {T : ℕ} (h : g.term c < T) :
    Grows g (g.stand c T) where
  __ := Grows.refl g
  term := (grows_advance c h).term
  ballot {s U c'} hb := by
    have hU := hi.ballot_le hb
    refine (update₂_of_not _ _ ?_).trans hb
    rintro ⟨rfl, rfl⟩
    omega
  stood {U c' l} hs := by
    have hU := (hi.stood_spec hs).1
    refine (update₂_of_not _ _ ?_).trans hs
    rintro ⟨rfl, rfl⟩
    omega

theorem Inv.stand (hi : g.Inv) {c : σ} {T : ℕ} (h : g.term c < T) : (g.stand c T).Inv :=
  have gr := hi.grows_stand h
  have had := hi.advance h
  -- the candidate's own log respects its acknowledgements
  have hback : g.Backed c T (g.log c) := by
    intro U i _ ha ht
    rcases hi.held ha ht with ⟨hp, hl⟩ | ⟨T', h1, h2, h3⟩
    · have hlen := hp.length_le
      have := hi.acked_le c U
      rw [List.length_take] at hlen
      left
      omega
    · exact Or.inr ⟨T', h1, by omega, h3⟩
  have hlog : g.Settled (T - 1) (g.base c) (g.log c) :=
    hi.settled_mono (Grows.refl g) (by omega) List.prefix_rfl (hi.log_settled c)
  { hi with
    ballot_le := by
      intro s U c' hb
      by_cases hnew : s = c ∧ U = T
      · obtain ⟨rfl, rfl⟩ := hnew
        simp [Ledger.stand]
      · simp only [Ledger.stand, update₂_of_not _ _ hnew] at hb
        exact (hi.ballot_le hb).trans (gr.term s)
    leader_ballots := fun hl => hi.leader_ballots_mono gr hl
    log_settled := had.log_settled
    log_term := had.log_term
    leader_log := had.leader_log
    acked_term := had.acked_term
    held := had.held
    stood_spec := by
      intro U c' l hs
      by_cases hnew : U = T ∧ c' = c
      · obtain ⟨rfl, rfl⟩ := hnew
        simp only [Ledger.stand, update₂_self, Option.some.injEq] at hs
        subst hs
        refine ⟨by simp [Ledger.stand], by omega, fun e he => ?_, _, hi.base_pos _, ?_,
          gr.chained (hi.log_chained _)⟩
        · have := hi.log_term he
          omega
        · exact hi.settled_mono gr le_rfl List.prefix_rfl hlog
      · simp only [Ledger.stand, update₂_of_not _ _ hnew] at hs
        exact hi.stood_spec_mono gr hs
    ballot_stood := by
      intro s U c' hb
      by_cases hnew : s = c ∧ U = T
      · obtain ⟨rfl, rfl⟩ := hnew
        simp only [Ledger.stand, update₂_self, Option.some.injEq] at hb
        subst hb
        exact ⟨g.log s, by simp [Ledger.stand], fun _ => hback⟩
      · simp only [Ledger.stand, update₂_of_not _ _ hnew] at hb
        exact hi.ballot_stood_mono gr hb
    standing := by
      intro U c' l hs ht hn
      by_cases hnew : U = T ∧ c' = c
      · obtain ⟨rfl, rfl⟩ := hnew
        simp only [Ledger.stand, update₂_self, Option.some.injEq] at hs
        exact Or.inl hs
      · simp only [Ledger.stand, update₂_of_not _ _ hnew] at hs
        exact had.standing hs ht hn }

omit [Fintype σ] in
theorem grows_vote {s c : σ} {T : ℕ} (hb : g.ballot s T = none) : Grows g (g.vote s T c) where
  __ := Grows.refl g
  ballot {s' U c'} hb' := by
    refine (update₂_of_not _ _ ?_).trans hb'
    rintro ⟨rfl, rfl⟩
    rw [hb] at hb'
    cases hb'

theorem Inv.vote (hi : g.Inv) {s c : σ} {T : ℕ} {l : List (Item α)} (ht : g.term s = T)
    (hb : g.ballot s T = none) (hl : g.stood T c = some l) (hu : UpToDate l (g.log s)) :
    (g.vote s T c).Inv :=
  have gr := grows_vote hb
  have hback : g.leader T = none → g.Backed s T l := by
    intro hn U i hU ha hta
    rcases hi.held ha hta with ⟨hp, hlast⟩ | ⟨T', h1, h2, h3, h4⟩
    · have hlen := hp.length_le
      have := hi.acked_le s U
      rw [List.length_take] at hlen
      left
      rcases hu with hu | ⟨hu, hu'⟩ <;> omega
    · -- the overruling leader is not one of `T`, which has none yet
      refine Or.inr ⟨T', h1, lt_of_le_of_ne (by omega) ?_, h3, h4⟩
      rintro rfl
      obtain ⟨c', hc'⟩ := hi.leader_of_llog (by omega) h3
      rw [hc'] at hn
      cases hn
  { hi with
    ballot_le := by
      intro s' U c' hb'
      by_cases hnew : s' = s ∧ U = T
      · obtain ⟨rfl, rfl⟩ := hnew
        exact ht.ge
      · simp only [Ledger.vote, update₂_of_not _ _ hnew] at hb'
        exact hi.ballot_le hb'
    leader_ballots := fun hl => hi.leader_ballots_mono gr hl
    ballot_stood := by
      intro s' U c' hb'
      by_cases hnew : s' = s ∧ U = T
      · obtain ⟨rfl, rfl⟩ := hnew
        simp only [Ledger.vote, update₂_self, Option.some.injEq] at hb'
        subst hb'
        exact ⟨l, hl, hback⟩
      · simp only [Ledger.vote, update₂_of_not _ _ hnew] at hb'
        exact hi.ballot_stood_mono gr hb' }

omit [Fintype σ] in
theorem grows_compact (g : Ledger σ α) (s : σ) (k : ℕ) : Grows g (g.compact s k) where
  __ := Grows.refl g

theorem Inv.compact (hi : g.Inv) {s : σ} {k : ℕ} (hb : g.base s ≤ k)
    (hk : g.Settled (g.term s) k (g.log s)) : (g.compact s k).Inv :=
  { hi with
    base_pos := by
      intro s'
      simp only [Ledger.compact, Function.update_apply]
      split_ifs with hs
      · exact lt_of_lt_of_le (hi.base_pos s) hb
      · exact hi.base_pos s'
    log_settled := by
      intro s'
      change g.Settled (g.term s') (Function.update g.base s k s') (g.log s')
      by_cases hs : s' = s
      · subst hs
        rwa [Function.update_self]
      · rw [Function.update_of_ne hs]
        exact hi.log_settled s'
    log_chained := by
      intro s' j e he i hki hij
      refine hi.log_chained s' j e he i ?_ hij
      by_cases hs : s' = s
      · subst hs
        simp only [Ledger.compact, Function.update_self] at hki
        omega
      · simpa [Ledger.compact, hs] using hki }

/-- The committed items to install are comparable with whatever the server has acknowledged
in a term, unless a later leader has overruled that. -/
theorem Inv.install_compare (hi : g.Inv) {T U k i : ℕ} (hk : 0 < k)
    (hc : k ≤ g.commit T) (hU : g.llog U ≠ []) :
    ((g.llog U).take (i + 1) <+: (g.llog T).take k ∨
      (g.llog T).take k <+: (g.llog U).take (i + 1)) ∨
      (U < T ∧ g.llog T ≠ [] ∧ ¬ (g.llog U).take (i + 1) <+: g.llog T) := by
  rcases Nat.lt_or_ge U T with hlt | hge
  · by_cases hp : (g.llog U).take (i + 1) <+: g.llog T
    · exact Or.inl (List.prefix_or_prefix_of_prefix hp (List.take_prefix k _))
    · exact Or.inr ⟨hlt, hi.llog_ne_of_commit (by omega), hp⟩
  · exact Or.inl (List.prefix_or_prefix_of_prefix (List.take_prefix _ _)
      (hi.take_prefix_llog hge hU hc hk))

omit [Fintype σ] in
theorem grows_install (g : Ledger σ α) (s : σ) (T k : ℕ) : Grows g (g.install s T k) where
  __ := Grows.refl g

theorem Inv.held_install (hi : g.Inv) {s : σ} {T k U i : ℕ} (hk : 0 < k) (hc : k ≤ g.commit T)
    (ht : T ≤ g.term s) (ha : i < g.acked s U) (htip : termAt (g.llog U) i = some U) :
    (g.install s T k).Held s U i := by
  have hlen : ((g.llog T).take k).length = k := by have := hi.commit_le T; simp; omega
  have hiU : i < (g.llog U).length := lt_length_of_termAt htip
  refine hi.held_mono (grows_install g s T k) ha htip fun hp hl => ?_
  have hUne : g.llog U ≠ [] := List.length_pos_iff.mp (by omega)
  rcases hi.install_compare (i := i) hk hc hUne with hcmp | ⟨h1, h2, h3⟩
  · have hkeep := prefix_overwrite hp hcmp
    rw [hlen] at hkeep
    refine Or.inl ⟨by simpa [Ledger.install] using hkeep, ?_⟩
    simp only [Ledger.install, Function.update_self]
    by_cases hlt : k < (g.log s).length
    · -- the end of the log is kept
      rw [← List.take_append_drop k (g.log s)] at hl
      have hne : (g.log s).drop k ≠ [] := by
        rw [← List.length_pos_iff, List.length_drop]
        omega
      rw [lastTerm_append hne] at hl ⊢
      exact hl
    · -- the log now ends with the last installed item
      have hip : i < k := by
        have := hp.length_le
        rw [List.length_take] at this
        omega
      rw [List.drop_of_length_le (by omega), List.append_nil] at hkeep ⊢
      refine hi.le_lastTerm_take hip ((hc.trans (hi.commit_le T))) ?_
      have hx : i < ((g.llog U).take (i + 1)).length := by simp; omega
      rw [prefix_termAt (hkeep.trans (List.take_prefix k _)) hx,
        ← prefix_termAt (List.take_prefix _ _) hx, htip]
  · exact Or.inr ⟨T, h1, Nat.lt_succ_of_le ht, h2, h3⟩

theorem Inv.install (hi : g.Inv) {s : σ} {T k : ℕ} (hk : 0 < k) (hc : k ≤ g.commit T)
    (ht : T ≤ g.term s) (hb : g.base s ≤ k) : (g.install s T k).Inv :=
  have hlen : ((g.llog T).take k).length = k := by have := hi.commit_le T; simp; omega
  { hi with
    base_pos := by
      intro s'
      simp only [Ledger.install, Function.update_apply]
      split_ifs with hs
      · exact hk
      · exact hi.base_pos s'
    log_settled := by
      intro s'
      change g.Settled (g.term s') (Function.update g.base s k s') (Function.update g.log s _ s')
      by_cases hs : s' = s
      · subst hs
        rw [Function.update_self, Function.update_self]
        exact ⟨T, ht, hc, List.prefix_append _ _⟩
      · rw [Function.update_of_ne hs, Function.update_of_ne hs]
        exact hi.log_settled s'
    log_chained := by
      intro s'
      change g.Chained (Function.update g.base s k s') (Function.update g.log s _ s')
      by_cases hs : s' = s
      · subst hs
        rw [Function.update_self, Function.update_self]
        have hget : ∀ i, k ≤ i →
            ((g.llog T).take k ++ (g.log s').drop k)[i]? = (g.log s')[i]? := by
          intro i hi'
          rw [List.getElem?_append_right (by omega), List.getElem?_drop, hlen]
          congr 1
          omega
        intro j e he i hki hij
        rw [hget j (by omega)] at he
        rw [hget i hki]
        exact hi.log_chained s' j e he i (hb.trans hki) hij
      · rw [Function.update_of_ne hs, Function.update_of_ne hs]
        exact hi.log_chained s'
    log_term := by
      intro s' e he
      change e ∈ Function.update g.log s _ s' at he
      by_cases hs : s' = s
      · subst hs
        rw [Function.update_self] at he
        rcases List.mem_append.mp he with he | he
        · obtain ⟨j, hj⟩ := List.getElem?_of_mem (List.mem_of_mem_take he)
          exact ((hi.llog_chain hj).1).trans ht
        · exact hi.log_term (List.mem_of_mem_drop he)
      · rw [Function.update_of_ne hs] at he
        exact hi.log_term he
    leader_log := by
      intro U c hl
      change g.leader U = some c at hl
      obtain ⟨h0, h1, h2, h3⟩ := hi.leader_log hl
      refine ⟨h0, h1, h2, fun htc => ?_⟩
      change Function.update g.log s _ c = g.llog U
      by_cases hs : c = s
      · subst hs
        rw [Function.update_self, h3 htc]
        refine hi.install_log_of_prefix hc (hi.take_prefix_llog ?_ ?_ hc hk)
        · exact ht.trans htc.le
        · exact hi.llog_ne.mpr (Or.inr (by simp [hl]))
      · rw [Function.update_of_ne hs]
        exact h3 htc
    held := by
      intro s' U i ha htip
      by_cases hs : s' = s
      · subst hs
        exact hi.held_install hk hc ht ha htip
      · refine hi.held_mono (grows_install g s T k) ha htip fun hp hl => Or.inl ?_
        change _ <+: Function.update g.log s _ s' ∧ _ ≤ lastTerm (Function.update g.log s _ s')
        rw [Function.update_of_ne hs]
        exact ⟨hp, hl⟩
    standing := by
      intro U c l hst htc hn
      change g.leader U = none at hn
      change Function.update g.log s _ c = l ∨ _
      by_cases hs : c = s
      · subst hs
        rw [Function.update_self]
        rcases hi.standing hst htc hn with rfl | hd
        · by_cases hp : (g.llog T).take k <+: g.log c
          · exact Or.inl (hi.install_log_of_prefix hc hp)
          · refine Or.inr ⟨T, k, lt_of_le_of_ne (ht.trans htc.le) ?_, hc, hp⟩
            rintro rfl
            obtain ⟨c', hc'⟩ := hi.leader_of_llog (hi.stood_spec hst).2.1
              (hi.llog_ne_of_commit (by omega))
            rw [hc'] at hn
            cases hn
        · exact Or.inr hd
      · rw [Function.update_of_ne hs]
        exact hi.standing hst htc hn }

end Ledger
end Basis
