import RaftLabs.Raft.LogView
import RaftLabs.Raft.Cluster

/-! How the state of a server and the messages in flight represent a replicated log. -/
namespace RaftLabs.Raft
open Basis Basis.Ledger

variable {n : ℕ} {C : Type}

/-- The replicated log behind a cluster: votes, leaders and full logs that no server holds
any longer. -/
abbrev Ghost (n : ℕ) (C : Type) := Ledger (Fin n) (Option C)

/-- The entries the applier has copied and not sent yet. -/
def Applier.batch : Applier C → List (Entry C)
  | .waiting => []
  | .sending entries _ => entries

/-- What `LastApplied` is or will be once the applier has sent its entries. -/
def Server.horizon (rf : Server n C) : ℕ :=
  match rf.applier with
  | .waiting => rf.lastApplied
  | .sending _ commitIndex => max rf.lastApplied commitIndex

/-- An item of term `t` at position `i` has been committed in some term up to `T₀`. -/
def Covered (g : Ghost n C) (T₀ i t : ℕ) : Prop := ∃ x, g.Committed T₀ i x ∧ x.term = t

/-- What a leader knows. `matchIndex` may be set by a snapshot reply of an earlier term, but
then it does not exceed `commitIndex`. -/
structure Leads (g : Ghost n C) (i : Fin n) (rf : Server n C) : Prop where
  leader : g.leader rf.currentTerm = some i
  commit : g.commit rf.currentTerm ≤ rf.commitIndex + 1
  acked : ∀ p, rf.matchIndex p ≤ rf.commitIndex ∨ rf.matchIndex p < g.acked p rf.currentTerm

/-- A leader knows the same after a change of other fields. -/
theorem Leads.congr {g : Ghost n C} {i : Fin n} {rf rf' : Server n C} (h : Leads g i rf)
    (hterm : rf'.currentTerm = rf.currentTerm) (hcommit : rf'.commitIndex = rf.commitIndex)
    (hmatch : rf'.matchIndex = rf.matchIndex) : Leads g i rf' := by
  constructor
  · rw [hterm]
    exact h.leader
  · rw [hterm, hcommit]
    exact h.commit
  · rw [hterm, hcommit, hmatch]
    exact h.acked

/-- A leader knows the same when acknowledgements are added. -/
theorem Leads.grows {g g' : Ghost n C} {i : Fin n} {rf : Server n C} (h : Leads g i rf)
    (gr : Grows g g') (hleader : g'.leader rf.currentTerm = g.leader rf.currentTerm)
    (hcommit : g'.commit rf.currentTerm = g.commit rf.currentTerm) : Leads g' i rf := by
  constructor
  · rw [hleader]
    exact h.leader
  · rw [hcommit]
    exact h.commit
  · intro p
    refine (h.acked p).imp_right fun hlt => lt_of_lt_of_le hlt ?_
    exact_mod_cast gr.acked p _

/-- The running server `rf` represents server `i` of the replicated log. -/
structure View (g : Ghost n C) (i : Fin n) (rf : Server n C) : Prop where
  term : g.term i = rf.currentTerm
  ballot : g.ballot i rf.currentTerm = rf.votedFor
  log : LogView (g.log i) rf.logs
  base : g.base i = rf.logs.getFirstLog.index + 1
  first_le : rf.logs.getFirstLog.index ≤ rf.horizon
  horizon_le : rf.horizon ≤ rf.commitIndex
  settled : g.Settled rf.currentTerm (rf.commitIndex + 1) (g.log i)
  leads : rf.role = .leader → Leads g i rf
  candidate : rf.role = .candidate → g.leader rf.currentTerm ≠ some i
  batch : ∀ {e}, e ∈ rf.applier.batch →
    e.index ≤ rf.horizon ∧ g.Committed rf.currentTerm e.index e.item
  applied : ∀ {m}, m ∈ rf.applied → m.commandIndex ≤ rf.horizon ∧
    g.Committed rf.currentTerm m.commandIndex ⟨m.commandTerm, m.command⟩
  installs : ∀ {m}, m ∈ rf.installs → Covered g rf.currentTerm m.snapshotIndex m.snapshotTerm
  persister : rf.persister.raftstate = some rf.encodeRaftState ∨
    (rf.persister.raftstate = none ∧ rf.encodeRaftState = ⟨0, none, Log.fresh⟩)

section
variable {g g' : Ghost n C} {i s : Fin n} {rf : Server n C}

theorem covered_mono (hi : g.Inv) (gr : Grows g g') {T₀ T₁ k t : ℕ} (hT : T₀ ≤ T₁)
    (h : Covered g T₀ k t) : Covered g' T₁ k t := by
  obtain ⟨x, hx, ht⟩ := h
  exact ⟨x, hi.committed_mono gr hT hx, ht⟩

theorem View.lastIndex (h : View g i rf) : rf.logs.getLastLog.index + 1 = (g.log i).length :=
  h.log.getLastLog_index

theorem View.first_le_commit (h : View g i rf) :
    rf.logs.getFirstLog.index ≤ rf.commitIndex := h.first_le.trans h.horizon_le

theorem View.commit_lt (h : View g i rf) (hi : g.Inv) : rf.commitIndex < (g.log i).length :=
  hi.settled_length h.settled

/-- A server represents the same part of the replicated log after moves of another one. -/
theorem View.frame (h : View g i rf) (hi : g.Inv) (gr : Grows g g') (fr : Frame s g g')
    (hs : i ≠ s) : View g' i rf where
  term := (fr.term hs).trans h.term
  ballot := (fr.ballot _ hs).trans h.ballot
  log := by rw [fr.log hs]; exact h.log
  base := (fr.base hs).trans h.base
  first_le := h.first_le
  horizon_le := h.horizon_le
  settled := by
    rw [fr.log hs]
    exact hi.settled_mono gr le_rfl List.prefix_rfl h.settled
  leads hr := by
    obtain ⟨hl, hc, ha⟩ := h.leads hr
    refine ⟨gr.leader hl, (fr.commit hs hl).trans_le hc, fun p => (ha p).imp_right fun hlt => ?_⟩
    exact lt_of_lt_of_le hlt (by exact_mod_cast gr.acked p _)
  candidate hr hl := h.candidate hr (fr.leader hs hl)
  batch he := (h.batch he).imp_right (hi.committed_mono gr le_rfl)
  applied hm := (h.applied hm).imp_right (hi.committed_mono gr le_rfl)
  installs hm := covered_mono hi gr le_rfl (h.installs hm)
  persister := h.persister

/-- The votes of a server are those of its current term or older. -/
theorem View.ballot_none (h : View g i rf) (hi : g.Inv) {T : ℕ} (hT : rf.currentTerm < T) :
    g.ballot i T = none := by
  by_contra hne
  obtain ⟨c, hc⟩ := Option.ne_none_iff_exists'.mp hne
  have := hi.ballot_le hc
  have := h.term
  omega

/-- `setNewTerm` to a larger term. -/
theorem View.setNewTerm (h : View g i rf) (hi : g.Inv) {T : ℕ} (hT : rf.currentTerm < T) :
    View (g.advance i T) i (rf.setNewTerm T) :=
  have gr : Grows g (g.advance i T) := grows_advance i (h.term.trans_lt hT)
  { h with
    term := Function.update_self _ _ _
    ballot := h.ballot_none hi hT
    settled := hi.settled_mono gr hT.le List.prefix_rfl h.settled
    leads := by intro hr; cases hr
    candidate := by intro hr; cases hr
    batch := fun he => (h.batch he).imp_right (hi.committed_mono gr hT.le)
    applied := fun hm => (h.applied hm).imp_right (hi.committed_mono gr hT.le)
    installs := fun hm => covered_mono hi gr hT.le (h.installs hm)
    persister := Or.inl rfl }

end

/-- The instance of a server goes on: it only adds to what it has committed. -/
structure Later (rf rf' : Server n C) : Prop where
  epoch : rf'.epoch = rf.epoch
  commitIndex : rf.commitIndex ≤ rf'.commitIndex
  elections : rf'.elections = rf.elections

theorem Later.refl (rf : Server n C) : Later rf rf := ⟨rfl, le_rfl, rfl⟩

theorem Later.trans {rf₁ rf₂ rf₃ : Server n C} (h : Later rf₁ rf₂) (h' : Later rf₂ rf₃) :
    Later rf₁ rf₃ :=
  ⟨h'.epoch.trans h.epoch, h.commitIndex.trans h'.commitIndex, h'.elections.trans h.elections⟩

theorem later_setNewTerm (rf : Server n C) (T : ℕ) : Later rf (rf.setNewTerm T) :=
  ⟨rfl, le_rfl, rfl⟩

/-- The entries of a request are those of the log `l` after `prevLogIndex`. -/
structure SliceOf (l : List (Item (Option C))) (args : AppendEntriesArgs n C) : Prop where
  prev : termAt l args.prevLogIndex = some args.prevLogTerm
  entries : ∀ {k e}, args.entries[k]? = some e → e.index = args.prevLogIndex + 1 + k ∧
    l[args.prevLogIndex + 1 + k]? = some e.item

theorem SliceOf.length_le {l : List (Item (Option C))} {args : AppendEntriesArgs n C}
    (h : SliceOf l args) : args.prevLogIndex + 1 + args.entries.length ≤ l.length := by
  rcases Nat.eq_zero_or_pos args.entries.length with h0 | h0
  · have := lt_length_of_termAt h.prev
    omega
  · have hx := (h.entries (List.getElem?_eq_getElem (by omega : args.entries.length - 1 <
      args.entries.length))).2
    have := (List.getElem?_eq_some_iff.mp hx).1
    omega

theorem SliceOf.mono {l m : List (Item (Option C))} {args : AppendEntriesArgs n C}
    (h : SliceOf l args) (hp : l <+: m) : SliceOf m args where
  prev := by rw [prefix_termAt hp (lt_length_of_termAt h.prev), h.prev]
  entries {k e} he := by
    obtain ⟨h₁, h₂⟩ := h.entries he
    exact ⟨h₁, by rw [prefix_getElem? hp (List.getElem?_eq_some_iff.mp h₂).1, h₂]⟩

/-- A request of the leader of its term: a part of the leader's log, with a commit index
that lies within it. -/
structure Replicates (g : Ghost n C) (args : AppendEntriesArgs n C) : Prop where
  slice : SliceOf (g.llog args.term) args
  commit_le : args.leaderCommit ≤ args.prevLogIndex + args.entries.length
  committed : ∃ T ≤ args.term, args.leaderCommit < g.commit T

/-- What a message in flight says about the replicated log. -/
def Message.Sound (g : Ghost n C) (caller callee : Fin n) : Message n C → Prop
  | .requestVote _ args => args.candidateId = caller ∧ ∃ l, g.stood args.term caller = some l ∧
      l.length = args.lastLogIndex + 1 ∧ lastTerm l = args.lastLogTerm
  | .requestVoteReply _ _ reply =>
      reply.voteGranted → g.ballot callee reply.term = some caller
  | .appendEntries args => Replicates g args
  | .appendEntriesReply args reply => reply.success →
      args.prevLogIndex + args.entries.length < g.acked callee args.term ∨
        args.prevLogIndex + args.entries.length < g.commit args.term
  | .installSnapshot args => Covered g args.term args.lastIncludedIndex args.lastIncludedTerm
  | .installSnapshotReply _ _ => True

theorem Message.Sound.mono {g g' : Ghost n C} (hi : g.Inv) (gr : Grows g g') {caller callee : Fin n}
    {m : Message n C} (h : m.Sound g caller callee) : m.Sound g' caller callee := by
  cases m with
  | requestVote k args =>
    obtain ⟨hc, l, hl, h'⟩ := h
    exact ⟨hc, l, gr.stood hl, h'⟩
  | requestVoteReply k args reply => exact fun hg => gr.ballot (h hg)
  | appendEntries args =>
    obtain ⟨hs, hc, T, hT, hlt⟩ := h
    exact ⟨hs.mono (gr.llog _), hc, T, hT, hlt.trans_le (gr.commit T)⟩
  | appendEntriesReply args reply =>
    exact fun hs =>
      (h hs).imp (fun h => h.trans_le (gr.acked _ _)) (fun h => h.trans_le (gr.commit _))
  | installSnapshot args => exact covered_mono hi gr le_rfl h
  | installSnapshotReply args reply => trivial

/-- The snapshot point that a call or its reply carries. -/
def Message.snapshotIndex : Message n C → ℕ
  | .installSnapshot args | .installSnapshotReply args _ => args.lastIncludedIndex
  | _ => 0

/-- The `StartElection` call that a vote call or its reply belongs to. -/
def Message.election : Message n C → Option ℕ
  | .requestVote k _ | .requestVoteReply k _ _ => some k
  | _ => none

end RaftLabs.Raft
