import RaftLabs.Basis.LedgerRuns

/-! The moves of a replicated log as an executable step function. Appending is left out: the
systems built on top decide what is appended. -/

namespace Basis

deriving instance DecidableEq for Item

namespace Ledger

/-- A move of one server other than an append. -/
inductive Label (σ α : Type*) where
  | advance (T : ℕ)
  | stand (T : ℕ)
  | vote (c : σ) (l : List (Item α))
  | elect (Q : Finset σ)
  | accept (m p : ℕ) (l : List (Item α))
  | commitTo (T i : ℕ) (Q : Finset σ)
  | install (T k : ℕ)
  | compact (k : ℕ)

section
variable {σ α : Type*} [Fintype σ] [DecidableEq σ] [DecidableEq α]

instance (Q : Finset σ) : Decidable (Majority Q) :=
  inferInstanceAs (Decidable (Fintype.card σ < 2 * Q.card))

instance (l m : List (Item α)) : Decidable (UpToDate l m) :=
  inferInstanceAs (Decidable (_ ∨ _))

instance (g : Ledger σ α) (s : σ) (T m : ℕ) (l : List (Item α)) :
    Decidable (g.Accepted s T m l) :=
  inferInstanceAs (Decidable (_ ∨ _))

instance (g : Ledger σ α) (T₀ k : ℕ) (l : List (Item α)) : Decidable (g.Settled T₀ k l) :=
  decidable_of_iff (∃ T < T₀ + 1, k ≤ g.commit T ∧ (g.llog T).take k <+: l)
    (by simp only [Settled, Nat.lt_succ_iff])

/-- The move of server `s` with the given label, if it is enabled. -/
def perform (g : Ledger σ α) (s : σ) : Label σ α → Option (Ledger σ α)
  | .advance T => if g.term s < T then some (g.advance s T) else none
  | .stand T => if g.term s < T then some (g.stand s T) else none
  | .vote c l =>
    if g.ballot s (g.term s) = none ∧ g.stood (g.term s) c = some l ∧ UpToDate l (g.log s) then
      some (g.vote s (g.term s) c) else none
  | .elect Q =>
    if Majority Q ∧ (∀ v ∈ Q, g.ballot v (g.term s) = some s) ∧ g.leader (g.term s) = none then
      some (g.elect s (g.term s)) else none
  | .accept m p l =>
    if p < m ∧ m ≤ (g.llog (g.term s)).length ∧ p < (g.log s).length ∧
        termAt (g.log s) p = termAt (g.llog (g.term s)) p ∧ g.Accepted s (g.term s) m l then
      some (g.accept s (g.term s) m l) else none
  | .commitTo T i Q =>
    if g.leader T = some s ∧ Majority Q ∧ g.commit T ≤ i ∧ termAt (g.llog T) i = some T ∧
        (∀ v ∈ Q, i < g.acked v T) then
      some (g.commitTo T i) else none
  | .install T k =>
    if 0 < k ∧ k ≤ g.commit T ∧ T ≤ g.term s ∧ g.base s ≤ k then some (g.install s T k) else none
  | .compact k =>
    if g.base s ≤ k ∧ g.Settled (g.term s) k (g.log s) then some (g.compact s k) else none

variable {g g' : Ledger σ α} {s : σ} {a : Label σ α}

theorem perform_move (h : g.perform s a = some g') : Move False s g g' := by
  cases a with
  | advance T =>
    obtain ⟨ht, rfl⟩ := of_guarded h
    exact .advance T ht
  | stand T =>
    obtain ⟨ht, rfl⟩ := of_guarded h
    exact .stand T ht
  | vote c l =>
    obtain ⟨⟨hb, hst, hu⟩, rfl⟩ := of_guarded h
    exact .vote _ c l rfl hb hst hu
  | elect Q =>
    obtain ⟨⟨hq, hb, hn⟩, rfl⟩ := of_guarded h
    exact .elect _ Q hq hb hn rfl
  | accept m p l =>
    obtain ⟨⟨hp, hm, hlt, heq, hacc⟩, rfl⟩ := of_guarded h
    have hs : termAt (g.log s) p = some (g.log s)[p].term :=
      termAt_eq_some.mpr ⟨_, List.getElem?_eq_getElem hlt, rfl⟩
    exact .accept _ m p _ l rfl hp hm hs (heq ▸ hs) hacc
  | commitTo T i Q =>
    obtain ⟨⟨hl, hq, hc, ht, ha⟩, rfl⟩ := of_guarded h
    exact .commitTo T i Q hl hq hc ht ha
  | install T k =>
    obtain ⟨⟨hk, hc, ht, hb⟩, rfl⟩ := of_guarded h
    exact .install T k hk hc ht hb False.elim
  | compact k =>
    obtain ⟨⟨hb, hk⟩, rfl⟩ := of_guarded h
    exact .compact k hb hk

/-- The log of a leader changes only at its election. -/
theorem Inv.perform_llog (hi : g.Inv) (h : g.perform s a = some g') (T : ℕ) :
    g'.llog T = g.llog T ∨ (0 < T ∧ g'.llog T = g'.ilog T) := by
  cases a with
  | elect Q =>
    obtain ⟨⟨hq, hb, hn⟩, rfl⟩ := of_guarded h
    by_cases hT : T = g.term s
    · obtain ⟨l, hst, -⟩ := hi.elect_stood hq hb hn
      right
      subst hT
      exact ⟨(hi.stood_spec hst).2.1, by simp [Ledger.elect]⟩
    · left
      exact Function.update_of_ne hT _ _
  | _ =>
    obtain ⟨-, rfl⟩ := of_guarded h
    exact Or.inl rfl

/-- A move other than an append adds no item of the term of a leader to its log. -/
theorem Inv.perform_item (hi : g.Inv) (h : g.perform s a = some g') {T i : ℕ}
    (ht : termAt (g'.llog T) i = some T) : g'.llog T = g.llog T := by
  rcases hi.perform_llog h T with heq | ⟨hT, heq⟩
  · exact heq
  · obtain ⟨e, he, het⟩ := termAt_eq_some.mp ht
    rw [heq] at he
    have := (hi.move (perform_move h)).1.ilog_term hT (List.mem_of_getElem? he)
    omega

end
end Ledger
end Basis
