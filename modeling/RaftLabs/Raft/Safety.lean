import RaftLabs.Raft.ClusterRefinement

/-! The safety properties of Raft, over runs that never take the newer-term branch of the
vote-reply closure: election safety, state machine safety and leader completeness. -/
namespace RaftLabs.Raft
open Basis Basis.Ledger

variable {n : ℕ} {C : Type} {r : ℕ → Cluster n C}

/-- The replicated logs behind a run of a cluster that has the server `i`. -/
theorem Cluster.Run.ledgers (hr : Cluster.SafeRun r) (i : Fin n) :
    ∃ g : ℕ → Ghost n C, (∀ k, Sim (r k) (g k)) ∧ ∀ k l, k ≤ l → Grows (g k) (g l) := by
  have : NeZero n := NeZero.of_pos i.pos
  obtain ⟨g, hsim, hgrows, -⟩ := hr.simulation False (fun _ _ h => h) (fun h => h.elim)
  exact ⟨g, hsim, hgrows⟩

instance (c c' : Cluster n C) (i : Fin n) (T : ℕ) : Decidable (c.BecomesLeader c' i T) :=
  inferInstanceAs (Decidable (_ ∧ _ ∧ _))

/-- Servers that lead one term, now or at different times of a run, are the same. -/
theorem Cluster.Run.leader_unique (hr : Cluster.SafeRun r) {k l T : ℕ} {i j : Fin n}
    (hi : ((r k).servers i).role = .leader) (hj : ((r l).servers j).role = .leader)
    (hTi : ((r k).servers i).currentTerm = T) (hTj : ((r l).servers j).currentTerm = T) :
    i = j := by
  obtain ⟨g, hsim, hgrows⟩ := hr.ledgers i
  have hli := (((hsim k).view i).leads hi).leader
  have hlj := (((hsim l).view j).leads hj).leader
  rw [hTi] at hli
  rw [hTj] at hlj
  have h₁ := (hgrows k (max k l) (le_max_left _ _)).leader hli
  have h₂ := (hgrows l (max k l) (le_max_right _ _)).leader hlj
  exact Option.some.inj (h₁.symm.trans h₂)

/-- Election safety: the servers that become leader of one term are the same. -/
theorem election_safety (hr : Cluster.SafeRun r) {k l T : ℕ} {i j : Fin n}
    (hi : (r k).BecomesLeader (r (k + 1)) i T) (hj : (r l).BecomesLeader (r (l + 1)) j T) :
    i = j :=
  hr.leader_unique hi.2.1 hj.2.1 hi.2.2 hj.2.2

/-- Server `s` of two is elected. -/
def electionRun (s : Fin n) : List (Action Unit n) := [.electionTimeout s, .deliver 0, .deliver 0]

theorem election_safety_electionRun :
    ∃ r : ℕ → Cluster 2 Unit, Cluster.SafeRun r ∧ (r 2).BecomesLeader (r 3) 0 1 ∧
      (0 : Fin 2) = 0 :=
  have hr : Cluster.SafeRun (trace Cluster.step (Cluster.init 2 Unit) (electionRun 0)) :=
    ⟨trace_zero _ _, trace_isRun (by decide)⟩
  ⟨_, hr, by decide, election_safety hr (k := 2) (l := 2) (T := 1) (by decide) (by decide)⟩

/-- Servers `s` and `t` of five stand in term 1; `s` is elected by two others. The late refusal of
`u`, which has moved on to term 2, makes `s` forget its own vote, which it then gives to `t`. -/
def splitRun (s t u : Fin n) : List (Action Unit n) :=
  [.electionTimeout s, .electionTimeout t, .deliver 0, .deliver 0, .deliver 5, .electionTimeout u,
    .deliver 0, .deliver 4, .deliver 4, .deliver 9, .deliver 1, .deliver 3, .deliver 11]

/-- With the newer-term branch, two servers become leader of term 1. -/
theorem two_leaders_splitRun :
    ∃ r : ℕ → Cluster 5 Unit, Cluster.Run (fun _ _ => True) r ∧
      (r 8).BecomesLeader (r 9) 0 1 ∧ (r 12).BecomesLeader (r 13) 4 1 :=
  ⟨trace Cluster.step (Cluster.init 5 Unit) (splitRun 0 4 3),
    ⟨trace_zero _ _, trace_isRun (by decide)⟩, by decide, by decide⟩

/-- State machine safety: two command messages for one index, sent by any two instances of
servers at any two times, carry the same command and the same term. -/
theorem state_machine_safety (hr : Cluster.SafeRun r) {k l : ℕ} {i j : Fin n}
    {m m' : ApplyMsg C} (hm : m ∈ ((r k).servers i).applied)
    (hm' : m' ∈ ((r l).servers j).applied) (hidx : m.commandIndex = m'.commandIndex) :
    m.command = m'.command ∧ m.commandTerm = m'.commandTerm := by
  obtain ⟨g, hsim, hgrows⟩ := hr.ledgers i
  have hc := (((hsim k).view i).applied hm).2
  have hc' := (((hsim l).view j).applied hm').2
  have h₁ := (hsim k).inv.committed_mono (hgrows k (max k l) (le_max_left _ _)) le_rfl hc
  have h₂ := (hsim l).inv.committed_mono (hgrows l (max k l) (le_max_right _ _)) le_rfl hc'
  rw [← hidx] at h₂
  have heq := (hsim (max k l)).inv.committed_unique h₁ h₂
  simp only [Item.mk.injEq] at heq
  exact ⟨heq.2, heq.1⟩

/-- Server `s` of three is elected, commits a command with server `t` and applies it; `t` applies
it after the next heartbeat. -/
def applyRun (s t : Fin n) : List (Action Bool n) :=
  [.electionTimeout s, .deliver 0, .deliver 1, .start s (some true), .deliver 3, .deliver 4,
    .applierCopy s, .applierSend s, .heartbeatTimeout s, .deliver 4, .applierCopy t, .applierSend t]

theorem state_machine_safety_applyRun :
    ∃ r : ℕ → Cluster 3 Bool, Cluster.SafeRun r ∧ ∃ m m' : ApplyMsg Bool,
      m ∈ ((r 12).servers 0).applied ∧ m' ∈ ((r 12).servers 1).applied ∧
        m.command = m'.command ∧ m.commandTerm = m'.commandTerm :=
  have hr : Cluster.SafeRun (trace Cluster.step (Cluster.init 3 Bool) (applyRun 0 1)) :=
    ⟨trace_zero _ _, trace_isRun (by decide)⟩
  ⟨_, hr, Server.commandMsg ⟨1, 1, some true⟩, Server.commandMsg ⟨1, 1, some true⟩, by decide,
    by decide, state_machine_safety hr (k := 12) (l := 12) (i := 0) (j := 1) (by decide)
      (by decide) rfl⟩

/-- In the step from `c` to `c'` the commit index of server `i`, then leader of term `T`,
advances to `N`, as in `leaderCommitLog`. -/
def Cluster.LeaderCommits (c c' : Cluster n C) (i : Fin n) (T N : ℕ) : Prop :=
  (c'.servers i).role = .leader ∧ (c'.servers i).currentTerm = T ∧
    (c.servers i).commitIndex < N ∧ (c'.servers i).commitIndex = N

instance (c c' : Cluster n C) (i : Fin n) (T N : ℕ) : Decidable (c.LeaderCommits c' i T N) :=
  inferInstanceAs (Decidable (_ ∧ _ ∧ _ ∧ _))

/-- The retained entry `e` at index `i` is beyond the snapshot point, which has lost its
command, and committed. -/
def Server.Commits (rf : Server n C) (e : Entry C) : Prop :=
  rf.logs.get? e.index = some e ∧ rf.logs.getFirstLog.index < e.index ∧ e.index ≤ rf.commitIndex

instance [DecidableEq C] (rf : Server n C) (e : Entry C) : Decidable (rf.Commits e) :=
  inferInstanceAs (Decidable (_ ∧ _ ∧ _))

theorem View.commits {g : Ghost n C} {i : Fin n} {rf : Server n C} (h : View g i rf) (hi : g.Inv)
    {e : Entry C} (he : rf.Commits e) : g.Committed rf.currentTerm e.index e.item := by
  obtain ⟨hget, hfirst, hle⟩ := he
  exact hi.settled_committed h.settled (Nat.lt_succ_of_le hle)
    ((h.log.get?_spec hget).2.2.2 hfirst)

/-- What is committed in a term, before or after the election of the leader of a later term,
is in the log with which that leader starts. -/
theorem Sim.elected_holds {c : Cluster n C} {g g' : Ghost n C} (h : Sim c g) (hi' : g'.Inv)
    (gr : Grows g g') {j : Fin n} (hj : (c.servers j).role = .leader) {T N : ℕ}
    (hT : T < (c.servers j).currentTerm) (hN : N < g'.commit T) :
    ∀ idx ≤ N, (g.log j)[idx]? = (g'.llog T)[idx]? := by
  intro idx hle
  have hl := ((h.view j).leads hj).leader
  have hlog : g.log j = g.llog (c.servers j).currentTerm :=
    (h.inv.leader_log hl).2.2.2 (h.view j).term
  have hne : g.llog (c.servers j).currentTerm ≠ [] := h.inv.llog_ne.mpr (Or.inr (by simp [hl]))
  have hcomplete := hi'.leader_complete (gr.leader hl) hT (by omega)
  rw [gr.ilog hne] at hcomplete
  have hp := hcomplete.trans (h.inv.ilog_prefix _)
  have hlen := hi'.commit_le T
  rw [hlog, prefix_getElem? hp (by simp; omega), List.getElem?_take_of_lt (by omega)]

/-- Leader completeness: when a leader of term `T` advances its commit index to `N`, a server
that becomes leader of a later term, earlier or later in the run, has at that moment for every
index up to `N` its snapshot point there or beyond, or an entry with the index, the term and the
command that any server ever retains there as committed. -/
theorem leader_completeness (hr : Cluster.SafeRun r) {a b T U N : ℕ} {i j : Fin n}
    (hcommit : (r a).LeaderCommits (r (a + 1)) i T N)
    (hlead : (r b).BecomesLeader (r (b + 1)) j U) (hTU : T < U) {idx : ℕ} (hidx : idx ≤ N) :
    idx ≤ ((r (b + 1)).servers j).logs.getFirstLog.index ∨
      ∃ e, ((r (b + 1)).servers j).logs.get? idx = some e ∧ e.index = idx ∧
        ∀ k s e', ((r k).servers s).Commits e' → e'.index = idx →
          e'.term = e.term ∧ e'.command = e.command := by
  obtain ⟨g, hsim, hgrows⟩ := hr.ledgers i
  obtain ⟨-, hterm, -, hN⟩ := hcommit
  obtain ⟨-, hrole, hU⟩ := hlead
  have hset := ((hsim (a + 1)).view i).settled
  rw [hterm, hN] at hset
  obtain ⟨T₀, hT₀, hc, -⟩ := hset
  have hview := (hsim (b + 1)).view j
  by_cases hfirst : idx ≤ ((r (b + 1)).servers j).logs.getFirstLog.index
  · exact Or.inl hfirst
  right
  -- the log of the new leader holds the committed items, seen from any later ledger
  have hholds : ∀ M, a + 1 ≤ M → b + 1 ≤ M →
      ((g (b + 1)).log j)[idx]? = ((g M).llog T₀)[idx]? ∧ idx < (g M).commit T₀ := by
    intro M ha hb
    have hcM := (hgrows _ _ ha).commit T₀
    exact ⟨(hsim (b + 1)).elected_holds (hsim M).inv (hgrows _ _ hb) hrole (by omega)
      (N := N) (by omega) idx hidx, by omega⟩
  have hlen : idx < ((g (b + 1)).log j).length := by
    obtain ⟨heq, hlt⟩ := hholds (max a b + 1) (by omega) (by omega)
    have := (hsim (max a b + 1)).inv.commit_le T₀
    have hsome := List.getElem?_eq_getElem (l := (g (max a b + 1)).llog T₀) (i := idx) (by omega)
    exact (List.getElem?_eq_some_iff.mp (heq.trans hsome)).1
  obtain ⟨e, he⟩ := hview.log.get?_isSome (by omega) hlen
  obtain ⟨hei, -, -, hitem⟩ := hview.log.get?_spec he
  refine ⟨e, he, hei, fun k s e' hcom heq => ?_⟩
  obtain ⟨M, ha, hb, hk⟩ : ∃ M, a + 1 ≤ M ∧ b + 1 ≤ M ∧ k ≤ M :=
    ⟨max (max a b + 1) k, by omega, by omega, by omega⟩
  obtain ⟨hget, hlt⟩ := hholds M ha hb
  have h₁ : (g M).Committed T₀ idx e.item :=
    ⟨T₀, le_rfl, hlt, by rw [← hget, hitem (by omega)]⟩
  have h₂ := (hsim k).inv.committed_mono (hgrows k M hk) le_rfl
    (((hsim k).view s).commits (hsim k).inv hcom)
  rw [heq] at h₂
  have := (hsim M).inv.committed_unique h₂ h₁
  simp only [Entry.item, Item.mk.injEq] at this
  exact this

/-- Server `s` of three commits a command in term 1; server `t` becomes leader of term 2. -/
def handoverRun (s t : Fin n) : List (Action Bool n) :=
  [.electionTimeout s, .deliver 0, .deliver 1, .start s (some true), .deliver 3, .deliver 4,
    .electionTimeout t, .deliver 5, .deliver 5]

theorem leader_completeness_handoverRun :
    ∃ r : ℕ → Cluster 3 Bool, Cluster.SafeRun r ∧ (r 5).LeaderCommits (r 6) 0 1 1 ∧
      ((r 6).servers 0).Commits ⟨1, 1, some true⟩ ∧ (r 8).BecomesLeader (r 9) 1 2 ∧
      (1 ≤ ((r 9).servers 1).logs.getFirstLog.index ∨
        ∃ e, ((r 9).servers 1).logs.get? 1 = some e ∧ e.index = 1 ∧
          ∀ k s e', ((r k).servers s).Commits e' → e'.index = 1 →
            e'.term = e.term ∧ e'.command = e.command) :=
  have hr : Cluster.SafeRun (trace Cluster.step (Cluster.init 3 Bool) (handoverRun 0 1)) :=
    ⟨trace_zero _ _, trace_isRun (by decide)⟩
  ⟨_, hr, by decide, by decide, by decide,
    leader_completeness hr (a := 5) (b := 8) (T := 1) (U := 2) (N := 1) (i := 0) (j := 1)
      (by decide) (by decide) (by decide) le_rfl⟩

end RaftLabs.Raft
