import RaftLabs.Basis.LedgerElect

/-! Sequences of moves: the invariant, what they leave alone, and the stronger chaining of
logs when installations are clean. -/

namespace Basis
namespace Ledger

open Relation

variable {σ α : Type*} {g g' : Ledger σ α} {clean : Prop} {s : σ}

/-- What the moves of server `s` leave alone. -/
structure Frame (s : σ) (g g' : Ledger σ α) : Prop where
  term : ∀ {j}, j ≠ s → g'.term j = g.term j
  log : ∀ {j}, j ≠ s → g'.log j = g.log j
  base : ∀ {j}, j ≠ s → g'.base j = g.base j
  ballot : ∀ {j} T, j ≠ s → g'.ballot j T = g.ballot j T
  leader : ∀ {j T}, j ≠ s → g'.leader T = some j → g.leader T = some j
  commit : ∀ {j T}, j ≠ s → g.leader T = some j → g'.commit T = g.commit T

theorem Frame.refl (s : σ) (g : Ledger σ α) : Frame s g g where
  term _ := rfl
  log _ := rfl
  base _ := rfl
  ballot _ _ := rfl
  leader _ h := h
  commit _ _ := rfl

theorem Frame.trans {g₁ g₂ g₃ : Ledger σ α} (gr : Grows g₁ g₂) (h : Frame s g₁ g₂)
    (h' : Frame s g₂ g₃) : Frame s g₁ g₃ where
  term hj := (h'.term hj).trans (h.term hj)
  log hj := (h'.log hj).trans (h.log hj)
  base hj := (h'.base hj).trans (h.base hj)
  ballot T hj := (h'.ballot T hj).trans (h.ballot T hj)
  leader hj hl := h.leader hj (h'.leader hj hl)
  commit hj hl := (h'.commit hj (gr.leader hl)).trans (h.commit hj hl)

theorem Settled.of_le {T₀ k k' : ℕ} {l : List (Item α)} (hs : g.Settled T₀ k l) (hk : k' ≤ k) :
    g.Settled T₀ k' l := by
  obtain ⟨T, hT, hkc, hp⟩ := hs
  exact ⟨T, hT, hk.trans hkc, (List.take_prefix_take_left hk).trans hp⟩

/-- Every item of a log comes with everything its leader had before it. -/
def Whole (g : Ledger σ α) : Prop := ∀ s, g.Chained 0 (g.log s)

/-- Two logs that are `Chained` agree up to a position where they have the same term. -/
theorem Chained.agree {l m : List (Item α)} {i t : ℕ} (hl : g.Chained 0 l) (hm : g.Chained 0 m)
    (hlt : termAt l i = some t) (hmt : termAt m i = some t) {j : ℕ} (hj : j ≤ i) :
    l[j]? = m[j]? := by
  obtain ⟨a, ha, hat⟩ := termAt_eq_some.mp hlt
  obtain ⟨b, hb, hbt⟩ := termAt_eq_some.mp hmt
  rw [hl i a ha j (Nat.zero_le _) hj, hm i b hb j (Nat.zero_le _) hj, hat, hbt]

theorem init_whole [Nonempty σ] (v : α) : (init v : Ledger σ α).Whole :=
  fun s j e he i _ hij => by
    obtain rfl : e = ⟨0, v⟩ := by simpa [init] using List.mem_of_getElem? he
    simp [init]

variable [Fintype σ]

theorem Inv.committed_mono (hi : g.Inv) (gr : Grows g g') {T₀ T₁ i : ℕ} {x : Item α}
    (hT : T₀ ≤ T₁) (h : g.Committed T₀ i x) : g'.Committed T₁ i x := by
  obtain ⟨T, hT', hc, hx⟩ := h
  have := hi.commit_le T
  refine ⟨T, hT'.trans hT, lt_of_lt_of_le hc (gr.commit T), ?_⟩
  rw [prefix_getElem? (gr.llog T) (by omega), hx]

theorem Inv.settled_committed (hi : g.Inv) {T₀ k i : ℕ} {l : List (Item α)} {x : Item α}
    (hs : g.Settled T₀ k l) (hik : i < k) (hx : l[i]? = some x) : g.Committed T₀ i x := by
  obtain ⟨T, hT, hk, hp⟩ := hs
  have := hi.commit_le T
  refine ⟨T, hT, by omega, ?_⟩
  rw [← hx, prefix_getElem? hp (by simp; omega), List.getElem?_take_of_lt hik]

theorem Inv.settled_length (hi : g.Inv) {T₀ k : ℕ} {l : List (Item α)} (hs : g.Settled T₀ k l) :
    k ≤ l.length := by
  obtain ⟨T, -, hk, hp⟩ := hs
  have := hi.commit_le T
  have := hp.length_le
  rw [List.length_take] at this
  omega

theorem init_inv [Nonempty σ] (v : α) : (init v : Ledger σ α).Inv where
  base_pos _ := Nat.one_pos
  ballot_le h := by simp [init] at h
  leader_ballots h := by simp [init] at h
  llog_ne := by simp [init]
  llog_chain {T j e} he := by
    by_cases hT : T = 0
    · subst hT
      obtain rfl : e = ⟨0, v⟩ := by simpa [init] using List.mem_of_getElem? he
      exact ⟨le_rfl, List.take_prefix _ _⟩
    · simp [init, hT] at he
  ilog_prefix _ := List.prefix_rfl
  ilog_ne h := h
  ilog_term {T e} hT he := by simp [init, hT.ne'] at he
  log_settled _ := ⟨0, le_rfl, by simp [init], by simp [init]⟩
  log_chained s j e he i _ _ := by
    obtain rfl : e = ⟨0, v⟩ := by simpa [init] using List.mem_of_getElem? he
    simp [init]
  log_term {s e} he := by
    obtain rfl : e = ⟨0, v⟩ := by simpa [init] using he
    exact le_rfl
  leader_log h := by simp [init] at h
  acked_le s T := by
    simp only [init]
    split_ifs <;> simp
  acked_term {s T} h := by
    by_cases hT : T = 0
    · exact hT.le
    · simp [init, hT] at h
  held {s T i} ha ht := by
    have hT : T = 0 := by
      by_contra hT
      simp [init, hT] at ha
    subst hT
    exact Or.inl ⟨by simp [init], Nat.zero_le _⟩
  commit_quorum {T} hc := by
    have hT : T = 0 := by
      by_contra hT
      simp [init, hT] at hc
    subst hT
    refine ⟨by simp [init, termAt], Finset.univ, ?_, fun _ _ => le_rfl⟩
    have := Fintype.card_pos (α := σ)
    simp only [Majority, Finset.card_univ]
    omega
  stood_spec h := by simp [init] at h
  ballot_stood h := by simp [init] at h
  standing h := by simp [init] at h

variable [DecidableEq σ]

theorem Inv.move (hi : g.Inv) (h : Move clean s g g') : g'.Inv ∧ Grows g g' := by
  cases h with
  | advance T h => exact ⟨hi.advance h, grows_advance s h⟩
  | stand T h => exact ⟨hi.stand h, hi.grows_stand h⟩
  | vote T c l ht hb hl hu => exact ⟨hi.vote ht hb hl hu, grows_vote hb⟩
  | elect T Q hq hb hn ht =>
    obtain ⟨l, hst, -⟩ := hi.elect_stood hq hb hn
    exact ⟨hi.elect hq hb hn ht, hi.grows_elect (hi.stood_spec hst).2.1 hn ht⟩
  | append T v hl ht => exact ⟨hi.append v hl ht, hi.grows_append v hl ht⟩
  | accept T m p t l ht hp hm hs hl ha => exact ⟨hi.accept ht (by omega) hm ha, grows_accept ht⟩
  | commitTo T i Q hl hq hc ht ha => exact ⟨hi.commitTo hq hc ht ha, grows_commitTo hc⟩
  | install T k hk hc ht hb _ => exact ⟨hi.install hk hc ht hb, grows_install g s T k⟩
  | compact k hb hk => exact ⟨hi.compact hb hk, grows_compact g s k⟩

theorem Move.frame (h : Move clean s g g') : Frame s g g' := by
  have hr := Frame.refl s g
  cases h with
  | advance T h => exact { hr with term := fun hj => Function.update_of_ne hj _ _ }
  | stand T h =>
    exact { hr with
      term := fun hj => Function.update_of_ne hj _ _
      ballot := fun T hj => update₂_of_not _ _ (fun h => hj h.1) }
  | vote T c l ht hb hl hu =>
    exact { hr with ballot := fun T hj => update₂_of_not _ _ (fun h => hj h.1) }
  | elect T Q hq hb hn ht =>
    refine { hr with leader := ?_ }
    intro j U hj hl
    by_cases hU : U = T
    · simp only [Ledger.elect, hU, Function.update_self, Option.some.injEq] at hl
      exact absurd hl.symm hj
    · simpa [Ledger.elect, hU] using hl
  | append T v hl ht => exact { hr with log := fun hj => Function.update_of_ne hj _ _ }
  | accept T m p t l ht hp hm hs hl ha =>
    exact { hr with log := fun hj => Function.update_of_ne hj _ _ }
  | commitTo T i Q hl hq hc ht ha =>
    refine { hr with commit := ?_ }
    intro j U hj hlj
    refine Function.update_of_ne ?_ _ _
    rintro rfl
    exact hj (Option.some.inj (hlj.symm.trans hl))
  | install T k hk hc ht hb _ =>
    exact { hr with
      log := fun hj => Function.update_of_ne hj _ _
      base := fun hj => Function.update_of_ne hj _ _ }
  | compact k hb hk => exact { hr with base := fun hj => Function.update_of_ne hj _ _ }

/-- Moves of one server. -/
abbrev Moves (clean : Prop) (s : σ) : Ledger σ α → Ledger σ α → Prop :=
  ReflTransGen (Move clean s)

theorem Inv.moves (hi : g.Inv) (h : Moves clean s g g') :
    g'.Inv ∧ Grows g g' ∧ Frame s g g' := by
  induction h with
  | refl => exact ⟨hi, Grows.refl g, Frame.refl s g⟩
  | tail _ hm ih =>
    obtain ⟨hi₁, gr₁, fr₁⟩ := ih
    obtain ⟨hi₂, gr₂⟩ := hi₁.move hm
    exact ⟨hi₂, gr₁.trans gr₂, fr₁.trans gr₁ hm.frame⟩

theorem Inv.committed_unique (hi : g.Inv) {T₀ T₁ i : ℕ} {x y : Item α}
    (hx : g.Committed T₀ i x) (hy : g.Committed T₁ i y) : x = y := by
  obtain ⟨T, -, hT, hx⟩ := hx
  obtain ⟨U, -, hU, hy⟩ := hy
  rw [hi.committed_agree hT hU, hy] at hx
  exact (Option.some.inj hx).symm

/-- Committed items stay where they are in the log of a server that accepts new ones. -/
theorem Inv.settled_accept (hi : g.Inv) {s : σ} {T m k : ℕ} {l : List (Item α)} (h0 : 0 < m)
    (hm : m ≤ (g.llog T).length) (hk : 0 < k) (ha : g.Accepted s T m l)
    (hs : g.Settled T k (g.log s)) : (g.accept s T m l).Settled T k l := by
  obtain ⟨U, hU, hkU, hp⟩ := hs
  have hne : g.llog T ≠ [] := List.length_pos_iff.mp (by omega)
  exact ⟨U, hU, hkU, ha.keeps hp (hi.take_prefix_llog hU hne hkU hk)⟩

/-- What the leader knows to be committed is committed in the log that has accepted it. -/
theorem Inv.settled_accepted (hi : g.Inv) {s : σ} {T U m k : ℕ} {l : List (Item α)} (hT : T ≤ U)
    (hc : k ≤ g.commit T) (hk : 0 < k) (hkm : k ≤ m) (hm : m ≤ (g.llog U).length)
    (ha : g.Accepted s U m l) :
    (g.accept s U m l).Settled U k ((g.accept s U m l).log s) := by
  rw [accept_log]
  have hne : g.llog U ≠ [] := List.length_pos_iff.mp (by omega)
  refine ⟨T, hT, hc, List.IsPrefix.trans ?_ ha.prefix_log⟩
  refine List.prefix_of_prefix_length_le (hi.take_prefix_llog hT hne hc hk)
    (List.take_prefix _ _) ?_
  simp only [Ledger.accept, List.length_take]
  omega

omit [DecidableEq σ] in
/-- A server that installs committed items over ones of the right term keeps its log. -/
theorem Inv.install_chained (hi : g.Inv) {s : σ} {T k : ℕ} (hk : 0 < k) (hc : k ≤ g.commit T)
    (hw : g.Chained 0 (g.log s))
    (hclean : (g.log s).length ≤ k ∨ termAt (g.log s) (k - 1) = termAt (g.llog T) (k - 1)) :
    g.Chained 0 ((g.llog T).take k ++ (g.log s).drop k) := by
  have hlen := hi.commit_le T
  rcases hclean with hle | heq
  · rw [List.drop_of_length_le hle, List.append_nil]
    exact Chained.of_prefix (List.take_prefix k _) (hi.llog_chained T 0)
  · have hx : (g.llog T)[k - 1]? = some (g.llog T)[k - 1] := List.getElem?_eq_getElem (by omega)
    have ht : termAt (g.llog T) (k - 1) = some (g.llog T)[k - 1].term :=
      termAt_eq_some.mpr ⟨_, hx, rfl⟩
    rw [hi.install_log_of_prefix hc]
    · exact hw
    · apply prefix_of_agree
      intro i hik
      rw [List.length_take] at hik
      rw [List.getElem?_take_of_lt (by omega)]
      exact (hi.llog_chained T 0).agree hw ht (heq.trans ht) (by omega)

theorem Inv.whole_move (hi : g.Inv) (hc : clean) (h : Move clean s g g') (hw : g.Whole) :
    g'.Whole := by
  obtain ⟨hi', gr⟩ := hi.move h
  have fr := h.frame
  intro j
  by_cases hj : j ≠ s
  · rw [fr.log hj]
    exact gr.chained (hw j)
  obtain rfl : j = s := by simpa using hj
  cases h with
  | advance T h => exact gr.chained (hw j)
  | stand T h => exact gr.chained (hw j)
  | vote T c l ht hb hl hu => exact gr.chained (hw j)
  | elect T Q hq hb hn ht => exact gr.chained (hw j)
  | commitTo T i Q hl hq hc ht ha => exact gr.chained (hw j)
  | compact k hb hk => exact gr.chained (hw j)
  | append T v hl ht =>
    rw [(hi'.leader_log hl).2.2.2 ht]
    exact hi'.llog_chained T 0
  | accept T m p t l ht hp hm hs hl ha =>
    refine gr.chained ?_
    rw [accept_log]
    rcases ha.kept_or_taken with h | h
    · rw [h]
      exact hw j
    · rw [h]
      exact Chained.of_prefix (List.take_prefix m _) (hi.llog_chained T 0)
  | install T k hk hcT ht hb hclean =>
    refine gr.chained ?_
    rw [show (g.install j T k).log j = _ from Function.update_self _ _ _]
    exact hi.install_chained hk hcT (hw j) (hclean hc)

theorem Inv.whole_moves (hi : g.Inv) (hc : clean) (h : Moves clean s g g') (hw : g.Whole) :
    g'.Whole := by
  induction h with
  | refl => exact hw
  | tail hms hm ih => exact (hi.moves hms).1.whole_move hc hm ih

end Ledger
end Basis
