import RaftLabs.Raft.LogUpdate

/-! Only the sentinel at index 0 has term 0, in logs, requests and snapshots, in any run. From it
follow the bounds of the values that a follower reports with a conflict. -/
namespace RaftLabs.Raft
open Basis

variable {n : ℕ} {C : Type}

/-- An index and a term are both zero or both positive. -/
def Rooted (index term : ℕ) : Prop := index = 0 ↔ term = 0

namespace Server
variable {rf rf' : Server n C} {me peer : Fin n}

/-- A server that is not a follower has started an election, so that its term is positive. -/
def InTerm (rf : Server n C) : Prop := rf.role ≠ .follower → 0 < rf.currentTerm

theorem inTerm_setNewTerm (rf : Server n C) (T : ℕ) : (rf.setNewTerm T).InTerm := fun h =>
  absurd rfl h

namespace InTerm

theorem of_eq (h : rf.InTerm) (hr : rf'.role = rf.role) (ht : rf'.currentTerm = rf.currentTerm) :
    rf'.InTerm := by
  unfold InTerm
  rwa [hr, ht]

theorem catchUp (h : rf.InTerm) (T : ℕ) : (rf.catchUp T).InTerm := by
  rcases rf.catchUp_cases T with heq | ⟨-, heq⟩ <;> rw [heq]
  · exact h
  · exact inTerm_setNewTerm rf T

theorem requestVote (h : rf.InTerm) (args : RequestVoteArgs n) :
    (rf.requestVote args).1.InTerm := by
  rcases rf.requestVote_cases args with heq | heq | heq <;> rw [heq]
  · exact h
  · exact h.catchUp _
  · exact (h.catchUp args.term).of_eq rfl rfl

theorem stepDown (h : rf.InTerm) : rf.stepDown.InTerm := by
  unfold Server.stepDown
  split_ifs
  · exact fun hr => absurd rfl hr
  · exact h

theorem appendEntriesRpc (h : rf.InTerm) {args : AppendEntriesArgs n C}
    {reply : AppendEntriesReply} (hs : rf.appendEntriesRpc args = some (rf', reply)) :
    rf'.InTerm := by
  rcases appendEntriesRpc_cases hs with ⟨-, rfl⟩ | ⟨-, -, rfl⟩ | ⟨-, hs⟩
  · exact h
  · exact inTerm_setNewTerm rf _
  rcases acceptEntries_cases hs with ⟨-, rfl⟩ | ⟨-, prev, rf₁, -, -, hstore, rfl⟩
  · exact h.stepDown
  · rcases storeEntries_cases hstore with rfl | ⟨logs, rfl⟩ <;> split_ifs <;>
      exact h.stepDown.of_eq rfl rfl

theorem installSnapshot (h : rf.InTerm) (args : InstallSnapshotArgs) :
    (rf.installSnapshot args).1.InTerm := by
  rcases rf.installSnapshot_cases args with heq | heq | heq <;> rw [heq]
  · exact h
  · exact h.catchUp _
  · exact (h.catchUp args.term).of_eq rfl rfl

theorem requestVoteReply (h : rf.InTerm) {k : ℕ} {reply : RequestVoteReply}
    {requests : List (Fin n × Message n C)}
    (hs : rf.requestVoteReply me k reply = some (rf', requests)) : rf'.InTerm := by
  obtain ⟨e, -, hcases⟩ := requestVoteReply_cases hs
  rcases hcases with ⟨rfl, -⟩ | ⟨-, rfl, -⟩ | ⟨-, -, -, rfl⟩ | ⟨-, -, -, -, hcand, hlead⟩
  · exact h
  · exact inTerm_setNewTerm rf _
  · exact h
  · rw [(becomeLeader_eq hlead).1]
    exact fun _ => h (by rw [hcand]; decide)

theorem appendEntriesReply (h : rf.InTerm) {args : AppendEntriesArgs n C}
    {reply : AppendEntriesReply} (hs : rf.appendEntriesReply me peer args reply = some rf') :
    rf'.InTerm := by
  rcases appendEntriesReply_cases hs with rfl | ⟨-, rfl⟩ | ⟨-, next, matched, -, hs⟩
  · exact h
  · exact inTerm_setNewTerm rf _
  · rcases leaderCommitLog_cases hs with rfl | ⟨k, e, -, -, -, -, -, rfl⟩
    · exact h.of_eq rfl rfl
    · exact h.of_eq rfl rfl

end InTerm

/-- What a server holds, beyond what is durable. -/
structure Rooted (rf : Server n C) : Prop where
  inTerm : rf.InTerm
  entries : ∀ e ∈ rf.logs.entries, Raft.Rooted e.index e.term
  installs : ∀ msg ∈ rf.installs, Raft.Rooted msg.snapshotIndex msg.snapshotTerm

/-- The loop over the entries of a request makes the log of old and new entries. -/
theorem mem_storeEntries {es : List (Entry C)} (h : rf.storeEntries es = some rf') {e : Entry C}
    (he : e ∈ rf'.logs.entries) : e ∈ rf.logs.entries ∨ e ∈ es := by
  induction es generalizing rf with
  | nil =>
    obtain rfl : rf = rf' := by simpa [storeEntries] using h
    exact Or.inl he
  | cons entry rest ih =>
    obtain ⟨rf₁, hrf₁, h⟩ := storeEntries_next h
    -- after the conflict check the loop goes on with a part of the log
    have hsub : rf₁.logs.entries ⊆ rf.logs.entries := by
      rcases hrf₁ with rfl | ⟨logs, htake, rfl⟩
      · exact List.Subset.refl _
      · change logs.entries ⊆ rf.logs.entries
        rw [Log.ofSlice_eq_some htake]
        exact List.take_subset _ _
    split_ifs at h
    · obtain rfl := Option.some.inj h
      rcases List.mem_append.mp he with he | he
      · exact Or.inl (hsub he)
      · exact Or.inr he
    · exact (ih h).imp (fun he => hsub he) (List.mem_cons_of_mem _)

namespace Rooted

theorem keeps (h : rf.Rooted) (hk : Keeps rf rf') (ht : rf'.InTerm) : rf'.Rooted where
  inTerm := ht
  entries := hk.logs ▸ h.entries
  installs msg hm := h.installs msg (hk.installs hm)

theorem get? (h : rf.Rooted) {i : ℕ} {e : Entry C} (he : rf.logs.get? i = some e) :
    Raft.Rooted e.index e.term := by
  unfold Log.get? at he
  split_ifs at he
  exact h.entries e (List.mem_of_getElem? he)

theorem start (h : rf.Rooted) {command : Option C} {requests : List (Fin n × Message n C)}
    {result : Option (ℕ × ℕ)} (hs : rf.start me command = some (rf', requests, result)) :
    rf'.Rooted := by
  rcases start_cases hs with ⟨rfl, -⟩ | ⟨hrole, -, rfl⟩
  · exact h
  refine ⟨h.inTerm.of_eq rfl rfl, fun e he => ?_, h.installs⟩
  rcases List.mem_append.mp he with he | he
  · exact h.entries e he
  · obtain rfl := List.mem_singleton.mp he
    have hpos := h.inTerm (by rw [hrole]; decide)
    simp only [Raft.Rooted]
    omega

theorem appendEntriesRpc (h : rf.Rooted) {args : AppendEntriesArgs n C}
    {reply : AppendEntriesReply} (hm : ∀ e ∈ args.entries, Raft.Rooted e.index e.term)
    (hs : rf.appendEntriesRpc args = some (rf', reply)) : rf'.Rooted := by
  have hin := h.inTerm.appendEntriesRpc hs
  rcases appendEntriesRpc_cases hs with ⟨-, rfl⟩ | ⟨-, -, rfl⟩ | ⟨-, hs⟩
  · exact h
  · exact h.keeps (keeps_setNewTerm _ _) hin
  have hdown := keeps_stepDown rf
  rcases acceptEntries_cases hs with ⟨-, rfl⟩ | ⟨-, prev, rf₁, -, -, hstore, rfl⟩
  · exact h.keeps hdown hin
  have hentries : ∀ e ∈ rf₁.logs.entries, Raft.Rooted e.index e.term := by
    intro e he
    rcases mem_storeEntries hstore he with he | he
    · exact h.entries e (hdown.logs ▸ he)
    · exact hm e he
  have hinstalls : ∀ msg ∈ rf₁.installs, Raft.Rooted msg.snapshotIndex msg.snapshotTerm := by
    intro msg hmsg
    rcases storeEntries_cases hstore with rfl | ⟨logs, rfl⟩
    · exact h.installs msg (hdown.installs hmsg)
    · exact h.installs msg (hdown.installs hmsg)
  refine ⟨hin, ?_, ?_⟩ <;> split_ifs <;> assumption

theorem installSnapshot (h : rf.Rooted) {args : InstallSnapshotArgs}
    (hm : Raft.Rooted args.lastIncludedIndex args.lastIncludedTerm) :
    (rf.installSnapshot args).1.Rooted := by
  have hin := h.inTerm.installSnapshot args
  have hc := h.keeps (keeps_catchUp rf args.term) (h.inTerm.catchUp _)
  rcases rf.installSnapshot_cases args with heq | heq | heq <;> rw [heq] at hin ⊢
  · exact h
  · exact hc
  · refine ⟨hin, hc.entries, fun msg hmsg => ?_⟩
    rcases List.mem_append.mp hmsg with hmsg | hmsg
    · exact hc.installs msg hmsg
    · obtain rfl := List.mem_singleton.mp hmsg
      exact hm

theorem condInstallSnapshot (h : rf.Rooted) {term index : ℕ} {data : List UInt8}
    {accepted : Bool} (hm : Raft.Rooted index term)
    (hs : rf.condInstallSnapshot term index data = some (rf', accepted)) : rf'.Rooted := by
  rcases condInstallSnapshot_cases hs with ⟨-, rfl⟩ | ⟨-, -, logs, hlogs, rfl⟩
  · exact h
  refine ⟨h.inTerm.of_eq rfl rfl, fun e he => ?_, h.installs⟩
  obtain ⟨logs', hlogs', rfl⟩ := Option.map_eq_some_iff.mp hlogs
  rcases List.mem_cons.mp he with rfl | he
  · exact hm
  · split_ifs at hlogs'
    · obtain rfl := Option.some.inj hlogs'
      cases he
    · unfold Log.logCompact at hlogs'
      split_ifs at hlogs'
      rw [Log.ofSlice_eq_some hlogs'] at he
      exact h.entries e (List.drop_subset _ _ (List.mem_of_mem_tail he))

theorem takeSnapshot (h : rf.Rooted) {index : ℕ} {data : List UInt8}
    (hs : rf.snapshot index data = some rf') : rf'.Rooted := by
  rcases snapshot_cases hs with rfl | ⟨-, logs, hlogs, rfl⟩
  · exact h
  refine ⟨h.inTerm.of_eq rfl rfl, fun e he => ?_, h.installs⟩
  unfold Log.logCompact at hlogs
  split_ifs at hlogs
  have hsub : ∀ e ∈ logs.entries, e ∈ rf.logs.entries := by
    intro e he
    rw [Log.ofSlice_eq_some hlogs] at he
    exact List.drop_subset _ _ he
  rcases List.mem_cons.mp he with rfl | he
  · exact h.entries logs.getFirstLog (hsub _ (List.head_mem logs.nonempty))
  · exact h.entries e (hsub e (List.mem_of_mem_tail he))

/-- A restart finds the log in the persister. -/
theorem make (h : rf.Rooted) (hsaved : rf.Saved) (epoch : ℕ) :
    (Server.make rf.persister epoch).Rooted := by
  obtain ⟨he, hp, hi, -, -⟩ := Durable.make_encode hsaved epoch
  refine h.keeps (.volatile he hp (by simp [hi])) fun hr => absurd ?_ hr
  cases hst : rf.persister.raftstate <;> simp [Server.make, readPersist, hst]

end Rooted

/-! The index that a follower reports with a conflict. -/

theorem findXIndex_lt (l : Log C) (t x : ℕ) : findXIndex l t x < x := by
  induction x with
  | zero => exact neg_one_lt_zero
  | succ x ih =>
    unfold findXIndex
    push_cast
    split_ifs <;> omega

/-- The search stops at the sentinel. -/
theorem findXIndex_nonneg {l : Log C} {t : ℕ} (h : ∀ e, l.get? 0 = some e → e.term ≠ t) {x : ℕ}
    (hx : 0 < x) : 0 ≤ findXIndex l t x := by
  induction x with
  | zero => omega
  | succ x ih =>
    unfold findXIndex
    split_ifs with hc
    · rcases Nat.eq_zero_or_pos x with rfl | hpos
      · obtain ⟨e, he, ht⟩ := Option.map_eq_some_iff.mp hc.2
        exact absurd ht (h e he)
      · exact ih hpos
    · omega

end Server

/-- The values that come with a conflict lie below `PrevLogIndex`, and a reported term is not the
one of the sentinel. -/
def AppendEntriesReply.Bounded (reply : AppendEntriesReply) (prevLogIndex : ℕ) : Prop :=
  reply.conflict = true →
    (reply.xTerm = -1 ∧ 0 ≤ reply.xLen ∧ reply.xLen < prevLogIndex) ∨
    (0 < reply.xTerm ∧ 0 ≤ reply.xIndex ∧ reply.xIndex < prevLogIndex)

def Message.Rooted : Message n C → Prop
  | .appendEntries args => Raft.Rooted args.prevLogIndex args.prevLogTerm ∧
      ∀ e ∈ args.entries, Raft.Rooted e.index e.term
  | .appendEntriesReply args reply => reply.Bounded args.prevLogIndex
  | .installSnapshot args => Raft.Rooted args.lastIncludedIndex args.lastIncludedTerm
  | _ => True

section
variable {rf rf' : Server n C} {args : AppendEntriesArgs n C} {reply : AppendEntriesReply}

theorem Server.Rooted.acceptEntries_bounded (h : rf.Rooted) (hc : rf.logs.Contiguous)
    (hes : ∀ k e, args.entries[k]? = some e → e.index = args.prevLogIndex + 1 + k)
    (hm : Raft.Rooted args.prevLogIndex args.prevLogTerm)
    (hs : rf.acceptEntries args = some (rf', reply)) : reply.Bounded args.prevLogIndex := by
  intro hconf
  have hlen := hc.length
  by_cases hfirst : args.prevLogIndex < rf.logs.getFirstLog.index
  · rw [acceptEntries_below hfirst] at hs
    cases hs
    cases hconf
  rw [not_lt] at hfirst
  by_cases hlast : rf.logs.getLastLog.index < args.prevLogIndex
  · rw [acceptEntries_short hfirst hlast] at hs
    cases hs
    left
    refine ⟨rfl, ?_, ?_⟩ <;> dsimp only <;> omega
  rw [not_lt] at hlast
  obtain ⟨prev, hprev⟩ := hc.get?_isSome hfirst hlast
  by_cases hterm : prev.term = args.prevLogTerm
  · obtain ⟨rf₁, hstore, -⟩ := storeEntries_updates hc hes hfirst hlast
    rw [acceptEntries_match hfirst hlast hprev hterm hstore] at hs
    cases hs
    cases hconf
  · rw [acceptEntries_conflict hfirst hlast hprev hterm] at hs
    cases hs
    right
    have hroot := h.get? hprev
    have hidx := (hc.get?_index hprev).1
    unfold Raft.Rooted at hroot hm
    -- a sentinel that is compared with a sentinel does not conflict
    have hpos : 0 < args.prevLogIndex := by
      rcases Nat.eq_zero_or_pos args.prevLogIndex with h0 | h0
      · exact absurd ((hroot.mp (hidx.trans h0)).trans (hm.mp h0).symm) hterm
      · exact h0
    have hterm0 : 0 < prev.term := by omega
    refine ⟨Int.natCast_pos.mpr hterm0, findXIndex_nonneg (fun e he => ?_) hpos,
      findXIndex_lt _ _ _⟩
    have he0 := (h.get? he).mp (hc.get?_index he).1
    omega

theorem Server.Rooted.appendEntriesRpc_bounded (h : rf.Rooted) (hc : rf.logs.Contiguous)
    (hes : ∀ k e, args.entries[k]? = some e → e.index = args.prevLogIndex + 1 + k)
    (hm : Raft.Rooted args.prevLogIndex args.prevLogTerm)
    (hs : rf.appendEntriesRpc args = some (rf', reply)) : reply.Bounded args.prevLogIndex := by
  unfold Server.appendEntriesRpc at hs
  by_cases h₁ : args.term < rf.currentTerm
  · rw [if_pos h₁] at hs
    cases hs
    exact fun hconf => by cases hconf
  rw [if_neg h₁] at hs
  by_cases h₂ : rf.currentTerm < args.term
  · rw [if_pos h₂] at hs
    cases hs
    exact fun hconf => by cases hconf
  rw [if_neg h₂] at hs
  have hdown := keeps_stepDown rf
  exact (h.keeps hdown h.inTerm.stepDown).acceptEntries_bounded (hdown.logs ▸ hc) hes hm hs

/-- What a leader sends. -/
theorem Server.Rooted.requestTo (h : rf.Rooted) {me peer : Fin n} {m : Message n C}
    (hm : rf.requestTo me peer = some m) : m.Rooted := by
  rcases requestTo_cases hm with rfl | ⟨i, prev, hprev, rfl⟩
  · exact h.entries _ (List.head_mem rf.logs.nonempty)
  · exact ⟨h.get? hprev, fun e he => h.entries e (List.drop_subset _ _ he)⟩

end

namespace Cluster
variable {c c' : Cluster n C} {made : ℕ → List UInt8 → Prop}

structure Rooted (c : Cluster n C) : Prop where
  servers : ∀ i, (c.servers i).Rooted
  net : ∀ p ∈ c.net, p.message.Rooted

/-- The server that a step changes. -/
theorem Rooted.effect (h : c.Rooted) (hd : c.Durable made) {a : Action C n} {i : Fin n}
    {rf : Server n C} {new : List (Packet n C)} (heff : Effect c a i rf new) : rf.Rooted := by
  have hi := h.servers i
  cases heff with
  | electionTimeout =>
    exact ⟨fun _ => Nat.succ_pos _, hi.entries, hi.installs⟩
  | heartbeatTimeout => exact hi
  | start hs => exact hi.start hs
  | requestVote => exact hi.keeps (keeps_requestVote _) (hi.inTerm.requestVote _)
  | @appendEntries p args _ reply hp hm hs =>
    have hnet := h.net p hp
    rw [hm] at hnet
    exact hi.appendEntriesRpc hnet.2 hs
  | @installSnapshot p args hp hm =>
    have hnet := h.net p hp
    rw [hm] at hnet
    exact hi.installSnapshot hnet
  | requestVoteReply _ _ _ _ hs =>
    exact hi.keeps (keeps_requestVoteReply hs) (hi.inTerm.requestVoteReply hs)
  | appendEntriesReply _ _ _ hs =>
    exact hi.keeps (keeps_appendEntriesReply hs) (hi.inTerm.appendEntriesReply hs)
  | @installSnapshotReply p args reply =>
    exact hi.keeps ((keeps_catchUp _ _).trans (.volatile rfl rfl fun _ h => h))
      ((hi.inTerm.catchUp reply.term).of_eq rfl rfl)
  | crash => exact hi.make (hd.servers i).saved _
  | applierCopy hs =>
    obtain ⟨-, -, entries, -, rfl⟩ := Server.applierCopy_cases hs
    exact ⟨hi.inTerm.of_eq rfl rfl, hi.entries, hi.installs⟩
  | applierSend hs =>
    obtain ⟨entry, rest, k, -, rfl⟩ := Server.applierSend_cases hs
    exact ⟨hi.inTerm.of_eq rfl rfl, hi.entries, hi.installs⟩
  | applierUpdate hs =>
    obtain ⟨k, -, rfl⟩ := Server.applierUpdate_cases hs
    exact ⟨hi.inTerm.of_eq rfl rfl, hi.entries, hi.installs⟩
  | snapshot _ hs => exact hi.takeSnapshot hs
  | condInstallSnapshot hmsg hs =>
    have hmem := List.mem_of_getElem? hmsg
    refine Server.Rooted.condInstallSnapshot ?_ (hi.installs _ hmem) hs
    exact hi.keeps (.volatile rfl rfl List.eraseIdx_subset) (hi.inTerm.of_eq rfl rfl)

theorem Rooted.step (h : c.Rooted) (hd : c.Durable made) {a : Action C n}
    (hs : c.step a = some c') : c'.Rooted := by
  obtain ⟨hservers, hnet⟩ := step_keeps (S := fun _ rf => rf.Rooted)
    (N := fun p => p.message.Rooted) hs h.servers h.net fun {i rf new} heff _ => by
      have hrf := h.effect hd heff
      refine ⟨hrf, fun p hp _ => ?_⟩
      rcases heff.sent hp with ⟨_, _, hm⟩ | ⟨peer, hm⟩ | ⟨_, _, _, hm⟩ |
        ⟨args, reply, hm, -, hrpc, q, hq, hreq⟩ | ⟨_, _, hm⟩
      · simp [hm, Message.Rooted]
      · exact hrf.requestTo hm
      · simp [hm, Message.Rooted]
      · have hroot := h.net q hq
        have hes := hd.net q hq
        rw [hreq] at hroot hes
        rw [hm]
        exact (h.servers i).appendEntriesRpc_bounded (hd.servers i).contiguous hes hroot.1 hrpc
      · simp [hm, Message.Rooted]
  exact ⟨hservers, hnet⟩

end Cluster

theorem Cluster.Run.rooted {P : Cluster n C → Action C n → Prop} {r : ℕ → Cluster n C}
    (hr : Cluster.Run P r) (k : ℕ) : (r k).Rooted := by
  induction k with
  | zero =>
    rw [hr.init]
    refine ⟨fun i => ⟨fun hrole => absurd rfl hrole, fun e he => ?_, fun _ hm => ?_⟩,
      fun _ hp => ?_⟩
    · obtain rfl := List.mem_singleton.mp he
      exact Iff.rfl
    · cases hm
    · cases hp
  | succ k ih =>
    rcases hr.steps k with heq | ⟨a, -, hs⟩
    · rwa [heq]
    · exact ih.step (hr.durable k) hs

end RaftLabs.Raft
