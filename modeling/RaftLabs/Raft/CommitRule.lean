import RaftLabs.Raft.LogUpdate

/-! The commit rule of a leader. `leaderCommitLog` raises the commit index at every entry of the
leader's term that a majority stores, on its way up the log, and so ends at the last of them. -/
namespace RaftLabs.Raft

variable {n : ℕ} {C : Type}

namespace Server

/-- The peers known to store the log of the leader up to `N`, the leader among them. -/
def matching (me : Fin n) (rf : Server n C) (N : ℕ) : Finset (Fin n) :=
  {p | p = me ∨ (N : ℤ) ≤ rf.matchIndex p}

/-- The entry at `N` is of the current term and stored by more than half of the peers. -/
structure Committable (me : Fin n) (rf : Server n C) (N : ℕ) : Prop where
  entry : ∃ e ∈ rf.logs.entries, e.index = N ∧ e.term = rf.currentTerm
  majority : n < 2 * (rf.matching me N).card

variable {me : Fin n} {rf rf' : Server n C} {e : Entry C} {N : ℕ}

theorem card_matching (me : Fin n) (rf : Server n C) (N : ℕ) : (rf.matching me N).card =
    1 + ((List.finRange n).filter fun p => p ≠ me ∧ (N : ℤ) ≤ rf.matchIndex p).length := by
  have hinsert : rf.matching me N =
      insert me (Finset.univ.filter fun p => p ≠ me ∧ (N : ℤ) ≤ rf.matchIndex p) := by
    ext p
    by_cases hp : p = me <;> simp [matching, hp]
  rw [hinsert, Finset.card_insert_of_notMem (by simp), Nat.add_comm]
  rfl

/-- The threshold `len(rf.peers)/2` is the right one for even and for odd numbers of peers. -/
theorem countMatches_iff_matching : countMatches me rf.matchIndex N (List.finRange n) 1 = true ↔
    n < 2 * (rf.matching me N).card := by
  have hpeers : List.finRange n ≠ [] := List.ne_nil_of_mem (List.mem_finRange me)
  rw [countMatches_iff, card_matching]
  constructor
  · rintro ⟨-, h⟩
    omega
  · intro h
    exact ⟨hpeers, by omega⟩

/-- In a log without gaps, the entry with index `N` is the one that the loop reads. -/
theorem committable_iff (hc : rf.logs.Consecutive) (he : rf.logs.get? N = some e) :
    rf.Committable me N ↔ e.term = rf.currentTerm ∧
      countMatches me rf.matchIndex N (List.finRange n) 1 = true := by
  have hfirst : rf.logs.getFirstLog.index ≤ N := by
    by_contra hlt
    rw [Log.get?_of_lt (not_le.mp hlt)] at he
    cases he
  have hread := Log.get?_of_le hfirst
  rw [countMatches_iff_matching]
  constructor
  · rintro ⟨⟨x, hx, hindex, hterm⟩, hmaj⟩
    obtain ⟨k, hk⟩ := List.getElem?_of_mem hx
    have hkN : N - rf.logs.getFirstLog.index = k := by
      rw [← hindex, hc k x hk]
      omega
    rw [hread, hkN, hk] at he
    obtain rfl := Option.some.inj he
    exact ⟨hterm, hmaj⟩
  · rintro ⟨hterm, hmaj⟩
    rw [hread] at he
    refine ⟨⟨e, List.mem_of_getElem? he, ?_, hterm⟩, hmaj⟩
    rw [hc _ e he]
    omega

/-- One round of the outer loop. -/
theorem commitAt_eq (me : Fin n) (rf : Server n C) (hc : rf.logs.Consecutive)
    (he : rf.logs.get? N = some e) :
    (rf.Committable me N → rf.commitAt me N = some { rf with commitIndex := N }) ∧
      (¬ rf.Committable me N → rf.commitAt me N = some rf) := by
  rw [committable_iff hc he]
  unfold commitAt
  simp only [he, Option.bind_eq_bind, Option.bind_some]
  exact ⟨fun h => if_pos h, fun h => if_neg h⟩

/-- The outer loop over the first `count` indexes from `start`, by induction on the last of them:
it is the greatest index so far if it can be committed, and otherwise changes nothing. -/
theorem commitLoop_greatest (me : Fin n) (hc : rf.logs.Consecutive) {start : ℕ} (count : ℕ)
    (hlt : rf.commitIndex < start)
    (hget : ∀ k, start ≤ k → k < start + count → ∃ e, rf.logs.get? k = some e) :
    ∃ N, (List.range' start count).foldlM (commitAt me) rf =
        some { rf with commitIndex := N } ∧
      IsGreatest {N | N = rf.commitIndex ∨
        start ≤ N ∧ N < start + count ∧ rf.Committable me N} N := by
  induction count with
  | zero =>
    refine ⟨rf.commitIndex, rfl, Or.inl rfl, ?_⟩
    rintro M (rfl | ⟨hlo, hhi, -⟩)
    · exact le_rfl
    · omega
  | succ count ih =>
    obtain ⟨N, hN, hmem, hmax⟩ := ih fun k hlo hhi => hget k hlo (by omega)
    obtain ⟨e, he⟩ := hget (start + count) (by omega) (by omega)
    have hround := commitAt_eq me { rf with commitIndex := N } hc he
    have hloop : (List.range' start (count + 1)).foldlM (commitAt me) rf =
        commitAt me { rf with commitIndex := N } (start + count) := by
      rw [List.range'_1_concat, List.foldlM_append, hN]
      simp
    rw [hloop]
    by_cases hcommit : rf.Committable me (start + count)
    · refine ⟨start + count, hround.1 ⟨hcommit.entry, hcommit.majority⟩, ?_, ?_⟩
      · exact Or.inr ⟨by omega, by omega, hcommit⟩
      · rintro M (rfl | ⟨-, hhi, -⟩) <;> omega
    · refine ⟨N, hround.2 fun h => hcommit ⟨h.entry, h.majority⟩, ?_, ?_⟩
      · rcases hmem with heq | ⟨hlo, hhi, hM⟩
        · exact Or.inl heq
        · exact Or.inr ⟨hlo, by omega, hM⟩
      · rintro M (heq | ⟨hlo, hhi, hM⟩)
        · exact hmax (Or.inl heq)
        · have hne : M ≠ start + count := by
            rintro rfl
            exact hcommit hM
          exact hmax (Or.inr ⟨hlo, by omega, hM⟩)

/-- The whole loop, from the commit index to the end of the log. -/
theorem leaderLoop_greatest (me : Fin n) (hc : rf.logs.Consecutive)
    (hfirst : rf.logs.getFirstLog.index ≤ rf.commitIndex) :
    ∃ N, (List.range' (rf.commitIndex + 1)
        (rf.logs.getLastLog.index - rf.commitIndex)).foldlM (commitAt me) rf =
        some { rf with commitIndex := N } ∧
      IsGreatest {N | N = rf.commitIndex ∨ rf.commitIndex < N ∧ rf.Committable me N} N := by
  obtain ⟨N, hN, hgreatest⟩ := commitLoop_greatest me hc
    (rf.logs.getLastLog.index - rf.commitIndex) (Nat.lt_succ_self rf.commitIndex)
    fun k hlo hhi => hc.contiguous.get?_isSome (by omega) (by omega)
  refine ⟨N, hN, ?_⟩
  have hset : {N | N = rf.commitIndex ∨ rf.commitIndex < N ∧ rf.Committable me N} =
      {N | N = rf.commitIndex ∨ rf.commitIndex + 1 ≤ N ∧
        N < rf.commitIndex + 1 + (rf.logs.getLastLog.index - rf.commitIndex) ∧
        rf.Committable me N} := by
    ext M
    constructor
    · rintro (heq | ⟨hlo, hM⟩)
      · exact Or.inl heq
      · obtain ⟨x, hx, hindex, -⟩ := hM.entry
        have hle := hc.index_le_last hx
        exact Or.inr ⟨hlo, by omega, hM⟩
    · rintro (heq | ⟨hlo, -, hM⟩)
      · exact Or.inl heq
      · exact Or.inr ⟨hlo, hM⟩
  rw [hset]
  exact hgreatest

end Server

/-- The commit rule: in a leader whose log has consecutive indexes from the commit index or below,
`leaderCommitLog` succeeds and changes only the commit index, which does not decrease and becomes
the greatest index that is either the old one or, above it, the index of an entry of the current
term that more than half of the peers store, for any numbers in `matchIndex`. -/
theorem leaderCommitLog_commitRule (me : Fin n) (rf : Server n C) (hrole : rf.role = .leader)
    (hc : rf.logs.Consecutive) (hfirst : rf.logs.getFirstLog.index ≤ rf.commitIndex) :
    ∃ N, rf.leaderCommitLog me = some { rf with commitIndex := N } ∧
      IsGreatest {N | N = rf.commitIndex ∨ rf.commitIndex < N ∧ rf.Committable me N} N ∧
      rf.commitIndex ≤ N := by
  obtain ⟨N, hN, hgreatest⟩ := Server.leaderLoop_greatest me hc hfirst
  refine ⟨N, ?_, hgreatest, hgreatest.2 (Or.inl rfl)⟩
  unfold Server.leaderCommitLog
  rw [if_neg (by simp [hrole])]
  exact hN

/-- A leader of four peers in term 3 that has committed up to index 1. Peers 1 and 2 store the log
up to index 4, peer 3 up to index 2; the entry at 3 is of an older term than the one at 4. -/
def mixedLeader : Server 4 Bool :=
  { Server.make { } 0 with
    role := .leader
    currentTerm := 3
    logs := ⟨[⟨1, 1, none⟩, ⟨2, 3, some true⟩, ⟨3, 2, some true⟩, ⟨4, 3, some false⟩,
      ⟨5, 3, some true⟩], by simp⟩
    commitIndex := 1
    matchIndex := fun p => if p = 3 then 2 else if p = 0 then 0 else 4 }

theorem leaderCommitLog_mixedLeader :
    mixedLeader.leaderCommitLog 0 = some { mixedLeader with commitIndex := 4 } ∧
      IsGreatest {N | N = 1 ∨ 1 < N ∧ mixedLeader.Committable 0 N} 4 := by
  obtain ⟨N, hN, hgreatest, -⟩ := leaderCommitLog_commitRule 0 mixedLeader rfl (by decide)
    (by decide)
  have hfour : (mixedLeader.leaderCommitLog 0).map Server.commitIndex = some 4 := by decide
  rw [hN] at hfour
  obtain rfl : N = 4 := by simpa using hfour
  exact ⟨hN, hgreatest⟩

end RaftLabs.Raft
