import RaftLabs.Raft.ReplicationRefinement

/-! Leader election refines the moves of the replicated log: `StartElection` stands for
election, a granted `RequestVote` is a vote, and `becomeLeader` an election. -/
namespace RaftLabs.Raft
open Basis Basis.Ledger Relation

variable {n : ℕ} {C : Type} {g : Ghost n C} {i : Fin n} {rf rf' : Server n C} (clean : Prop)

/-- Moving on to a larger term, if it is one. -/
theorem View.catchUp (h : View g i rf) (hi : g.Inv) (T : ℕ) :
    ∃ g', Moves clean i g g' ∧
      View g' i (if rf.currentTerm < T then rf.setNewTerm T else rf) ∧
      Later rf (if rf.currentTerm < T then rf.setNewTerm T else rf) := by
  split_ifs with hT
  · exact ⟨_, .single (.advance _ (h.term.trans_lt hT)), h.setNewTerm hi hT, later_setNewTerm _ _⟩
  · exact ⟨g, .refl, h, Later.refl _⟩

section Vote
variable {args : RequestVoteArgs n} {reply : RequestVoteReply} {caller : Fin n} {k : ℕ}

/-- A vote for a candidate, or the same vote once more. -/
theorem View.vote (h : View g i rf) (ht : args.term = rf.currentTerm)
    (hsound : (Message.requestVote k args : Message n C).Sound g caller i)
    (hfree : rf.votedFor = none ∨ rf.votedFor = some args.candidateId)
    (hu : Server.UpToDate args rf.logs.getLastLog) :
    ∃ g', Moves clean i g g' ∧
      View g' i (Server.persist { rf with votedFor := some args.candidateId }) ∧
      g'.ballot i rf.currentTerm = some caller := by
  obtain ⟨hcand, l, hl, hlen, hlast⟩ := hsound
  rw [ht] at hl
  rw [hcand] at hfree ⊢
  rcases hfree with hfree | hfree
  · have hup : Ledger.UpToDate l (g.log i) := by
      have h₁ := h.lastIndex
      have h₂ := h.log.getLastLog_term
      unfold Server.UpToDate at hu
      unfold Ledger.UpToDate
      omega
    have hmove : Move clean i g (g.vote i rf.currentTerm caller) :=
      .vote _ _ l h.term (h.ballot.trans hfree) hl hup
    refine ⟨_, .single hmove, ?_, update₂_self _ _ _ _⟩
    exact { h with
      ballot := update₂_self _ _ _ _
      leads := fun hr => ⟨(h.leads hr).leader, (h.leads hr).commit, (h.leads hr).acked⟩
      persister := Or.inl rfl }
  · refine ⟨g, .refl, ?_, h.ballot.trans hfree⟩
    exact { h with
      ballot := h.ballot.trans hfree
      leads := fun hr => (h.leads hr).congr rfl rfl rfl
      persister := Or.inl rfl }

/-- The `RequestVote` handler. -/
theorem View.requestVote (h : View g i rf) (hi : g.Inv)
    (hsound : (Message.requestVote k args : Message n C).Sound g caller i)
    (hs : rf.requestVote args = (rf', reply)) :
    ∃ g', Moves clean i g g' ∧ View g' i rf' ∧ Later rf rf' ∧
      (reply.voteGranted → g'.ballot i reply.term = some caller) := by
  simp only [Server.requestVote] at hs
  by_cases hrej : args.term < rf.currentTerm ∨ (args.term = rf.currentTerm ∧
      rf.votedFor ≠ none ∧ rf.votedFor ≠ some args.candidateId)
  · rw [if_pos hrej] at hs
    obtain ⟨rfl, rfl⟩ := Prod.mk.inj hs
    exact ⟨g, .refl, h, Later.refl _, by simp⟩
  rw [if_neg hrej] at hs
  obtain ⟨g₁, hm₁, hv₁, hl₁⟩ := h.catchUp clean hi args.term
  obtain ⟨-, gr₁, -⟩ := hi.moves hm₁
  have hterm := (rf.catchUp_currentTerm (T := args.term) (by omega)).symm
  generalize (if rf.currentTerm < args.term then rf.setNewTerm args.term else rf) = rf₁ at *
  by_cases hgrant : (rf₁.votedFor = none ∨ rf₁.votedFor = some args.candidateId) ∧
      Server.UpToDate args rf₁.logs.getLastLog
  · rw [if_pos hgrant] at hs
    obtain ⟨rfl, rfl⟩ := Prod.mk.inj hs
    obtain ⟨g₂, hm₂, hv₂, hb₂⟩ :=
      hv₁.vote clean hterm (hsound.mono hi gr₁) hgrant.1 hgrant.2
    exact ⟨g₂, hm₁.trans hm₂, hv₂, ⟨hl₁.epoch, hl₁.commitIndex, hl₁.elections⟩, fun _ => hb₂⟩
  · rw [if_neg hgrant] at hs
    obtain ⟨rfl, rfl⟩ := Prod.mk.inj hs
    exact ⟨g₁, hm₁, hv₁, hl₁, by simp⟩

end Vote

section Candidate
variable {requests : List (Fin n × Message n C)}

/-- The election branch of `ticker`. -/
theorem View.electionTimeout (h : View g i rf) (hi : g.Inv)
    (hs : rf.electionTimeout i = (rf', requests)) :
    ∃ g', Moves clean i g g' ∧ View g' i rf' ∧ g'.ballot i (rf.currentTerm + 1) = some i ∧
      (∀ peer m, (peer, m) ∈ requests → Sendable g' i rf' peer m) := by
  have hlt : g.term i < rf.currentTerm + 1 := by rw [h.term]; exact Nat.lt_succ_self _
  have hmove : Move clean i g (g.stand i (rf.currentTerm + 1)) := .stand _ hlt
  have gr := (hi.move hmove).2
  have hballot : (g.stand i (rf.currentTerm + 1)).ballot i (rf.currentTerm + 1) = some i :=
    update₂_self _ _ _ _
  simp only [Server.electionTimeout, Server.startElection] at hs
  obtain ⟨rfl, rfl⟩ := Prod.mk.inj hs
  refine ⟨_, .single hmove, ?_, hballot, ?_⟩
  · exact { h with
      term := Function.update_self _ _ _
      ballot := hballot
      settled := hi.settled_mono gr (Nat.le_succ _) List.prefix_rfl h.settled
      leads := by intro hr; cases hr
      candidate := by
        intro _ hl
        exact absurd (hi.leader_log hl).2.1 (Nat.not_le_of_lt hlt)
      batch := fun he => (h.batch he).imp_right (hi.committed_mono gr (Nat.le_succ _))
      applied := fun hm => (h.applied hm).imp_right (hi.committed_mono gr (Nat.le_succ _))
      installs := fun hm => covered_mono hi gr (Nat.le_succ _) (h.installs hm)
      persister := Or.inl rfl }
  · intro peer m hm
    obtain ⟨peer', -, heq⟩ := List.mem_map.mp hm
    obtain ⟨rfl, rfl⟩ := Prod.mk.inj heq
    refine ⟨⟨rfl, g.log i, update₂_self _ _ _ _, ?_, ?_⟩, Nat.zero_le _⟩
    · exact h.lastIndex.symm
    · exact h.log.getLastLog_term.symm

/-- The function run by `becomeLeader.Do`, for a candidate with the votes of a majority. -/
theorem View.becomeLeader (h : View g i rf) (hi : g.Inv) (hrole : rf.role = .candidate)
    {Q : Finset (Fin n)} (hq : Majority Q) (hb : ∀ v ∈ Q, g.ballot v rf.currentTerm = some i)
    (hs : rf.becomeLeader i = some (rf', requests)) :
    ∃ g', Moves clean i g g' ∧ View g' i rf' ∧ Later rf rf' ∧
      ∀ peer m, (peer, m) ∈ requests → Sendable g' i rf' peer m ∧ m.election = none := by
  have hn : g.leader rf.currentTerm = none := by
    by_contra hne
    obtain ⟨c, hc⟩ := Option.ne_none_iff_exists'.mp hne
    obtain rfl := hi.leader_unique hc hq hb
    exact h.candidate hrole hc
  have hmove : Move clean i g (g.elect i rf.currentTerm) := .elect _ Q hq hb hn h.term
  obtain ⟨hi', gr⟩ := hi.move hmove
  obtain ⟨l, hst, -⟩ := hi.elect_stood hq hb hn
  have hcommit : g.commit rf.currentTerm = 0 := by
    have := hi.commit_le rf.currentTerm
    rw [hi.llog_nil (hi.stood_spec hst).2.1 hn] at this
    exact Nat.le_zero.mp this
  simp only [Server.becomeLeader] at hs
  obtain ⟨reqs, hreqs, hs⟩ := Option.bind_eq_some_iff.mp hs
  obtain ⟨rfl, rfl⟩ := Prod.mk.inj (Option.some.inj hs)
  have hview : View (g.elect i rf.currentTerm) i { rf with
      role := .leader
      nextIndex := fun _ => rf.logs.getLastLog.index + 1
      matchIndex := fun _ => 0 } :=
    { h with
      settled := hi.settled_mono gr le_rfl List.prefix_rfl h.settled
      leads := by
        intro _
        refine ⟨Function.update_self _ _ _, ?_, fun p => Or.inl (Int.natCast_nonneg _)⟩
        change g.commit rf.currentTerm ≤ _
        omega
      candidate := by intro hr; cases hr
      batch := fun he => (h.batch he).imp_right (hi.committed_mono gr le_rfl)
      applied := fun hm => (h.applied hm).imp_right (hi.committed_mono gr le_rfl)
      installs := fun hm => covered_mono hi gr le_rfl (h.installs hm) }
  exact ⟨_, .single hmove, hview, ⟨rfl, le_rfl, rfl⟩,
    fun peer m hm => hview.appendEntries hi' rfl hreqs hm⟩

end Candidate

end RaftLabs.Raft
