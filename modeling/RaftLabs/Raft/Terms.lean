import RaftLabs.Raft.ClusterRefinement

/-! Terms never decrease, in memory and in the persister, unless the newer-term branch of the
vote-reply closure runs in a server that has moved past the term of its request. -/
namespace RaftLabs.Raft
open Basis

variable {n : ℕ} {C : Type} {rf rf' : Server n C}

/-- The term in the persister; the zero value before the first save. -/
def Persister.term (p : Persister n C) : ℕ := (p.raftstate.map RaftState.currentTerm).getD 0

/-- The term does not decrease, and what is in memory stays saved. -/
structure Steady (rf rf' : Server n C) : Prop where
  term : rf.currentTerm ≤ rf'.currentTerm
  saved : rf.persister.term = rf.currentTerm → rf'.persister.term = rf'.currentTerm

theorem Steady.refl (rf : Server n C) : Steady rf rf := ⟨le_rfl, id⟩

theorem Steady.trans {rf₁ rf₂ rf₃ : Server n C} (h : Steady rf₁ rf₂) (h' : Steady rf₂ rf₃) :
    Steady rf₁ rf₃ := ⟨h.term.trans h'.term, h'.saved ∘ h.saved⟩

/-- Steps that touch neither the term nor the persister. -/
theorem Steady.of_eq (ht : rf'.currentTerm = rf.currentTerm) (hp : rf'.persister = rf.persister) :
    Steady rf rf' := ⟨ht.ge, fun h => by rw [ht, hp, h]⟩

/-- Steps that end with a save. -/
theorem steady_persist (h : rf.currentTerm ≤ rf'.currentTerm) : Steady rf rf'.persist :=
  ⟨h, fun _ => rfl⟩

theorem steady_setNewTerm {T : ℕ} (h : rf.currentTerm ≤ T) : Steady rf (rf.setNewTerm T) :=
  ⟨h, fun _ => rfl⟩

theorem steady_catchUp (rf : Server n C) (T : ℕ) : Steady rf (rf.catchUp T) := by
  rcases rf.catchUp_cases T with h | ⟨hlt, h⟩ <;> rw [h]
  · exact Steady.refl rf
  · exact steady_setNewTerm hlt.le

theorem steady_appendEntriesRpc {args : AppendEntriesArgs n C} {reply : AppendEntriesReply}
    (h : rf.appendEntriesRpc args = some (rf', reply)) : Steady rf rf' := by
  rcases Server.appendEntriesRpc_cases h with ⟨-, rfl⟩ | ⟨-, hlt, rfl⟩ | ⟨-, h⟩
  · exact Steady.refl _
  · exact steady_setNewTerm hlt.le
  have hdown : Steady rf rf.stepDown := by
    unfold Server.stepDown
    split_ifs
    · exact Steady.of_eq rfl rfl
    · exact Steady.refl rf
  refine hdown.trans ?_
  rcases Server.acceptEntries_cases h with ⟨-, rfl⟩ | ⟨-, prev, rf₁, -, -, hstore, rfl⟩
  · exact Steady.refl _
  · have hcommit : Steady rf₁ (if rf₁.commitIndex < args.leaderCommit then
        { rf₁ with commitIndex := min args.leaderCommit rf₁.logs.getLastLog.index } else rf₁) := by
      split_ifs
      · exact Steady.of_eq rfl rfl
      · exact Steady.refl _
    refine Steady.trans ?_ hcommit
    rcases Server.storeEntries_cases hstore with rfl | ⟨logs, rfl⟩
    · exact Steady.refl _
    · exact steady_persist le_rfl

theorem steady_requestVote (args : RequestVoteArgs n) : Steady rf (rf.requestVote args).1 := by
  rcases rf.requestVote_cases args with h | h | h <;> rw [h]
  · exact Steady.refl rf
  · exact steady_catchUp rf _
  · exact (steady_catchUp rf _).trans (steady_persist le_rfl)

/-- The `RequestVote` handler grants votes only in the term of the request. -/
theorem term_of_granted {args : RequestVoteArgs n}
    (h : (rf.requestVote args).2.voteGranted = true) :
    (rf.requestVote args).1.currentTerm = args.term := by
  simp only [Server.requestVote] at h ⊢
  by_cases hrej : args.term < rf.currentTerm ∨ (args.term = rf.currentTerm ∧
      rf.votedFor ≠ none ∧ rf.votedFor ≠ some args.candidateId)
  · simp [if_pos hrej] at h
  · rw [if_neg hrej] at h ⊢
    have hterm : (if rf.currentTerm < args.term then rf.setNewTerm args.term else rf).currentTerm =
        args.term := by
      split_ifs
      · rfl
      · omega
    generalize (if rf.currentTerm < args.term then rf.setNewTerm args.term else rf) = rf₁ at *
    split_ifs at h ⊢
    exact hterm

theorem steady_installSnapshot (args : InstallSnapshotArgs) :
    Steady rf (rf.installSnapshot args).1 := by
  rcases rf.installSnapshot_cases args with h | h | h <;> rw [h]
  · exact Steady.refl rf
  · exact steady_catchUp rf _
  · exact (steady_catchUp rf _).trans (Steady.of_eq rfl rfl)

theorem steady_installSnapshotReply (peer : Fin n) (args : InstallSnapshotArgs)
    (reply : InstallSnapshotReply) : Steady rf (rf.installSnapshotReply peer args reply) :=
  (steady_catchUp rf reply.term).trans (Steady.of_eq rfl rfl)

theorem steady_appendEntriesReply {me peer : Fin n} {args : AppendEntriesArgs n C}
    {reply : AppendEntriesReply} (h : rf.appendEntriesReply me peer args reply = some rf') :
    Steady rf rf' := by
  rcases Server.appendEntriesReply_cases h with rfl | ⟨hlt, rfl⟩ | ⟨-, next, matched, -, h⟩
  · exact Steady.refl _
  · exact steady_setNewTerm hlt.le
  · rcases Server.leaderCommitLog_cases h with rfl | ⟨k, e, -, -, -, -, -, rfl⟩
    · exact Steady.of_eq rfl rfl
    · exact Steady.of_eq rfl rfl

/-- The vote-reply closure, when the branch that sets the term of the request does not lower
the term. -/
theorem steady_requestVoteReply {me : Fin n} {k : ℕ} {reply : RequestVoteReply}
    {requests : List (Fin n × Message n C)}
    (hsafe : ∀ e, rf.elections[k]? = some e → e.args.term < reply.term →
      rf.currentTerm ≤ e.args.term)
    (h : rf.requestVoteReply me k reply = some (rf', requests)) : Steady rf rf' := by
  obtain ⟨e, he, hcases⟩ := Server.requestVoteReply_cases h
  rcases hcases with ⟨rfl, -⟩ | ⟨hlt, rfl, -⟩ | ⟨-, -, -, rfl⟩ | ⟨-, -, -, -, -, hlead⟩
  · exact Steady.refl _
  · exact steady_setNewTerm (hsafe e he hlt)
  · exact Steady.of_eq rfl rfl
  · rw [(Server.becomeLeader_eq hlead).1]
    exact Steady.of_eq rfl rfl

theorem steady_start {me : Fin n} {command : Option C} {requests : List (Fin n × Message n C)}
    {result : Option (ℕ × ℕ)} (h : rf.start me command = some (rf', requests, result)) :
    Steady rf rf' := by
  rcases Server.start_cases h with ⟨rfl, -⟩ | ⟨-, -, rfl⟩
  · exact Steady.refl _
  · exact steady_persist le_rfl

theorem steady_condInstallSnapshot {term index : ℕ} {data : List UInt8} {accepted : Bool}
    (h : rf.condInstallSnapshot term index data = some (rf', accepted)) : Steady rf rf' := by
  rcases Server.condInstallSnapshot_cases h with ⟨-, rfl⟩ | ⟨-, -, logs, -, rfl⟩
  · exact Steady.refl _
  · exact ⟨le_rfl, fun _ => rfl⟩

theorem steady_snapshot {index : ℕ} {data : List UInt8} (h : rf.snapshot index data = some rf') :
    Steady rf rf' := by
  rcases Server.snapshot_cases h with rfl | ⟨-, logs, -, rfl⟩
  · exact Steady.refl _
  · exact ⟨le_rfl, fun _ => rfl⟩

/-- A server whose term is saved restarts in that term. -/
theorem steady_make (hsaved : rf.persister.term = rf.currentTerm) (epoch : ℕ) :
    Steady rf (Server.make rf.persister epoch) := by
  cases hp : rf.persister.raftstate with
  | none =>
    have hmake : (Server.make rf.persister epoch).currentTerm = 0 ∧
        (Server.make rf.persister epoch).persister = rf.persister := by
      simp [Server.make, Server.readPersist, hp]
    have hzero : rf.persister.term = 0 := by simp [Persister.term, hp]
    exact Steady.of_eq (by omega) hmake.2
  | some st =>
    have hmake : (Server.make rf.persister epoch).currentTerm = st.currentTerm ∧
        (Server.make rf.persister epoch).persister = rf.persister := by
      simp [Server.make, Server.readPersist, hp]
    have hst : rf.persister.term = st.currentTerm := by simp [Persister.term, hp]
    exact Steady.of_eq (by omega) hmake.2

namespace Cluster
variable {c c' : Cluster n C}

/-- The step runs the branch `reply.Term > args.Term` of the vote-reply closure in a server whose
term is larger than that of the request. -/
def LowersTerm (c : Cluster n C) : Action C n → Prop
  | .deliver k =>
    match c.voteReplyAt k with
    | some (i, e, reply) => e.args.term < reply.term ∧ e.args.term < (c.servers i).currentTerm
    | none => False
  | _ => False

instance (c : Cluster n C) : (a : Action C n) → Decidable (c.LowersTerm a)
  | .deliver k =>
    match h : c.voteReplyAt k with
    | some (i, e, reply) =>
      decidable_of_iff (e.args.term < reply.term ∧ e.args.term < (c.servers i).currentTerm)
        (by simp [LowersTerm, h])
    | none => isFalse (by simp [LowersTerm, h])
  | .electionTimeout _ | .heartbeatTimeout _ | .start _ _ | .drop _ | .crash _ | .applierCopy _
  | .applierSend _ | .applierUpdate _ | .snapshot _ _ _ | .condInstallSnapshot _ _ =>
    isFalse not_false

/-- The terms in memory are the saved ones. -/
def Saved (c : Cluster n C) : Prop :=
  ∀ i, (c.servers i).persister.term = (c.servers i).currentTerm

/-- No server loses its term. -/
def SteadyStep (c c' : Cluster n C) : Prop := ∀ i, Steady (c.servers i) (c'.servers i)

theorem SteadyStep.refl (c : Cluster n C) : c.SteadyStep c := fun _ => Steady.refl _

/-- A step of one server. -/
theorem SteadyStep.set {i : Fin n} (h : Steady (c.servers i) rf')
    (hc : c'.servers = Function.update c.servers i rf') : c.SteadyStep c' := by
  intro j
  rw [hc]
  by_cases hj : j = i
  · subst hj
    rw [Function.update_self]
    exact h
  · rw [Function.update_of_ne hj]
    exact Steady.refl _

/-- The server that a step changes, when the newer-term branch does not lower its term. -/
theorem Effect.steady {a : Action C n} {i : Fin n} {new : List (Packet n C)}
    (h : Effect c a i rf' new) (hsaved : c.Saved) (hsafe : ¬ c.LowersTerm a) :
    Steady (c.servers i) rf' := by
  cases h with
  | electionTimeout => exact steady_persist (Nat.le_succ _)
  | heartbeatTimeout => exact Steady.refl _
  | start h => exact steady_start h
  | requestVote => exact steady_requestVote _
  | appendEntries _ _ h => exact steady_appendEntriesRpc h
  | installSnapshot => exact steady_installSnapshot _
  | requestVoteReply ha hp hm he h =>
    refine steady_requestVoteReply (fun e helec hlt => ?_) h
    by_contra hle
    refine hsafe ?_
    simp only [ha, LowersTerm, voteReplyAt, hp, hm, Option.bind_eq_bind, Option.bind_some,
      if_pos he, helec]
    exact ⟨hlt, by omega⟩
  | appendEntriesReply _ _ _ h => exact steady_appendEntriesReply h
  | installSnapshotReply => exact steady_installSnapshotReply _ _ _
  | crash => exact steady_make (hsaved i) _
  | applierCopy h =>
    obtain ⟨-, -, entries, -, rfl⟩ := Server.applierCopy_cases h
    exact Steady.of_eq rfl rfl
  | applierSend h =>
    obtain ⟨entry, rest, k, -, rfl⟩ := Server.applierSend_cases h
    exact Steady.of_eq rfl rfl
  | applierUpdate h =>
    obtain ⟨k, -, rfl⟩ := Server.applierUpdate_cases h
    exact Steady.of_eq rfl rfl
  | snapshot _ h => exact steady_snapshot h
  | condInstallSnapshot _ h =>
    have hsteady := steady_condInstallSnapshot h
    exact ⟨hsteady.term, hsteady.saved⟩

theorem step_steady {a : Action C n} (hsaved : c.Saved) (hsafe : ¬ c.LowersTerm a)
    (hs : c.step a = some c') : c.SteadyStep c' := by
  rcases step_effect hs with ⟨heq, -⟩ | ⟨i, rf, new, heff, heq, -⟩
  · intro j
    rw [heq]
    exact Steady.refl _
  · exact .set (heff.steady hsaved hsafe) heq

/-- In the step from `c` to `c'` the server `i` answers a `RequestVote` call of term `T` with its
vote. -/
def GrantsVote (c c' : Cluster n C) (i : Fin n) (T : ℕ) : Prop :=
  ∃ k p election args, c.net[k]? = some p ∧ p.callee = i ∧
    p.message = .requestVote election args ∧ args.term = T ∧
    ((c.servers i).requestVote args).2.voteGranted = true ∧ c.step (.deliver k) = some c'

/-- In the step from `c` to `c'` the server `i` answers an `AppendEntries` call of term `T` with
success. -/
def AcceptsEntries (c c' : Cluster n C) (i : Fin n) (T : ℕ) : Prop :=
  ∃ k p args rf reply, c.net[k]? = some p ∧ p.callee = i ∧ p.message = .appendEntries args ∧
    args.term = T ∧ (c.servers i).appendEntriesRpc args = some (rf, reply) ∧
    reply.success = true ∧ c.step (.deliver k) = some c'

theorem GrantsVote.term {i : Fin n} {T : ℕ} (h : c.GrantsVote c' i T) :
    (c'.servers i).currentTerm = T := by
  obtain ⟨k, ⟨caller, callee, epoch, message⟩, election, args, hp, rfl, rfl, rfl, hgrant, hs⟩ := h
  obtain ⟨p, hp', hs⟩ := Option.bind_eq_some_iff.mp hs
  obtain rfl := Option.some.inj (hp.symm.trans hp')
  have hc : c'.servers =
      Function.update c.servers callee ((c.servers callee).requestVote args).1 := by
    rw [← Option.some.inj hs]
    rfl
  rw [hc, Function.update_self]
  exact term_of_granted hgrant

theorem AcceptsEntries.term {i : Fin n} {T : ℕ} (h : c.AcceptsEntries c' i T) :
    (c.servers i).currentTerm = T := by
  obtain ⟨k, p, args, rf, reply, -, -, -, rfl, hrpc, hsucc, -⟩ := h
  exact (Server.appendEntriesRpc_success hrpc hsucc).1.symm

end Cluster

/-- Runs in which the newer-term branch of the vote-reply closure never lowers a term. -/
abbrev SteadyRun : (ℕ → Cluster n C) → Prop := Cluster.Run fun c a => ¬ c.LowersTerm a

theorem Cluster.Run.saved {r : ℕ → Cluster n C} (hr : SteadyRun r) (k : ℕ) : (r k).Saved :=
  hr.steps.invariant
    (fun _ _ _ hsafe hs hsaved i => (step_steady hsaved hsafe hs i).saved (hsaved i))
    (hr.init ▸ fun _ => rfl) k

theorem Cluster.Run.steady {r : ℕ → Cluster n C} (hr : SteadyRun r) {k l : ℕ} (hkl : k ≤ l) :
    (r k).SteadyStep (r l) := by
  induction l, hkl using Nat.le_induction with
  | base => exact .refl _
  | succ l _ ih =>
    intro i
    rcases hr.steps l with heq | ⟨a, hsafe, hs⟩
    · rw [heq]
      exact ih i
    · exact (ih i).trans (step_steady (hr.saved l) hsafe hs i)

/-- Terms never decrease in memory or in the persister, and a server that has granted a vote in
term `T` does not afterwards accept entries of a smaller term. -/
theorem terms_monotone {r : ℕ → Cluster n C} (hr : SteadyRun r) {k l : ℕ} (hkl : k < l)
    (i : Fin n) :
    ((r k).servers i).currentTerm ≤ ((r l).servers i).currentTerm ∧
      ((r k).servers i).persister.term ≤ ((r l).servers i).persister.term ∧
      ∀ T T', (r k).GrantsVote (r (k + 1)) i T → (r l).AcceptsEntries (r (l + 1)) i T' →
        T ≤ T' := by
  have hsteady := hr.steady hkl.le i
  refine ⟨hsteady.term, ?_, fun T T' hgrant haccept => ?_⟩
  · rw [hr.saved k i, hr.saved l i]
    exact hsteady.term
  · rw [← hgrant.term, ← haccept.term]
    exact (hr.steady (Nat.succ_le_of_lt hkl) i).term

/-- A server of three votes for server `s` and then stores an entry of the new leader. -/
def voterRun (s : Fin n) : List (Action Bool n) :=
  [.electionTimeout s, .deliver 0, .deliver 1, .start s (some true), .deliver 3]

theorem terms_monotone_voterRun :
    ∃ r : ℕ → Cluster 3 Bool, SteadyRun r ∧ (r 1).GrantsVote (r 2) 1 1 ∧
      (r 4).AcceptsEntries (r 5) 1 1 ∧
      ((r 1).servers 1).currentTerm ≤ ((r 4).servers 1).currentTerm ∧
      ((r 1).servers 1).persister.term ≤ ((r 4).servers 1).persister.term ∧ 1 ≤ 1 :=
  have hr : SteadyRun (trace Cluster.step (Cluster.init 3 Bool) (voterRun 0)) :=
    ⟨trace_zero _ _, trace_isRun (by decide)⟩
  have hgrant : (trace Cluster.step (Cluster.init 3 Bool) (voterRun 0) 1).GrantsVote
      (trace Cluster.step (Cluster.init 3 Bool) (voterRun 0) 2) 1 1 :=
    ⟨0, _, _, _, rfl, rfl, rfl, rfl, rfl, rfl⟩
  have haccept : (trace Cluster.step (Cluster.init 3 Bool) (voterRun 0) 4).AcceptsEntries
      (trace Cluster.step (Cluster.init 3 Bool) (voterRun 0) 5) 1 1 :=
    ⟨3, _, _, _, _, rfl, rfl, rfl, rfl, rfl, rfl, rfl⟩
  have h := terms_monotone hr (k := 1) (l := 4) (by decide) 1
  ⟨_, hr, hgrant, haccept, h.1, h.2.1, h.2.2 1 1 hgrant haccept⟩

/-- Server `t` of five leads term 1, in which server `s` stands too. Server `u` stands in term 2 and
gets the vote of `s`; its refusal of the old request of `s` then takes `s` back to term 1, where it
accepts a heartbeat of `t`. -/
def forgetfulRun (s t u : Fin n) : List (Action Unit n) :=
  [.electionTimeout s, .electionTimeout t, .deliver 6, .deliver 6, .deliver 6, .deliver 6,
    .electionTimeout u, .electionTimeout u, .deliver 14, .deliver 0, .deliver 17, .deliver 5]

/-- The newer-term branch lowers a term, in memory and in the persister, and breaks a promise. -/
theorem terms_decrease_forgetfulRun :
    ∃ r : ℕ → Cluster 5 Unit, Cluster.Run (fun _ _ => True) r ∧
      ((r 10).servers 0).currentTerm = 2 ∧ ((r 11).servers 0).currentTerm = 1 ∧
      ((r 10).servers 0).persister.term = 2 ∧ ((r 11).servers 0).persister.term = 1 ∧
      (r 8).GrantsVote (r 9) 0 2 ∧ (r 11).AcceptsEntries (r 12) 0 1 :=
  ⟨trace Cluster.step (Cluster.init 5 Unit) (forgetfulRun 0 4 1),
    ⟨trace_zero _ _, trace_isRun (by decide)⟩, by decide, by decide, by decide, by decide,
    ⟨14, _, _, _, rfl, rfl, rfl, rfl, rfl, rfl⟩,
    ⟨5, _, _, _, _, rfl, rfl, rfl, rfl, rfl, rfl, rfl⟩⟩

end RaftLabs.Raft
