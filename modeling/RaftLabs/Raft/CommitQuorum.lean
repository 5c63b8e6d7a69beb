import RaftLabs.Raft.Safety

/-! Commit quorums: what `leaderCommitLog` commits has been stored by a majority in the term of
the leader. A `matchIndex` has been verified by an `AppendEntries` reply of the leader's term, or
it does not exceed the commit index. -/
namespace RaftLabs.Raft
open Basis Basis.Ledger

variable {n : ℕ} {C : Type}

/-- The entry `e` is in the persisted log. -/
def Server.Stores (rf : Server n C) (e : Entry C) : Prop :=
  ∃ st, rf.persister.raftstate = some st ∧ st.logs.get? e.index = some e

/-- Up to step `k` of the run the server `s`, while in term `T`, has stored `e`. -/
def StoredBy (r : ℕ → Cluster n C) (k : ℕ) (s : Fin n) (T : ℕ) (e : Entry C) : Prop :=
  ∃ j ≤ k, ((r j).servers s).currentTerm = T ∧ ((r j).servers s).Stores e

theorem StoredBy.mono {r : ℕ → Cluster n C} {k l : ℕ} {s : Fin n} {T : ℕ} {e : Entry C}
    (h : StoredBy r k s T e) (hkl : k ≤ l) : StoredBy r l s T e := by
  obtain ⟨j, hj, h⟩ := h
  exact ⟨j, hj.trans hkl, h⟩

/-- What a server holds beyond its snapshot point is in its persisted log. -/
theorem View.stores {g : Ghost n C} {i : Fin n} {rf : Server n C} (h : View g i rf) {e : Entry C}
    (hfirst : rf.logs.getFirstLog.index < e.index) (he : (g.log i)[e.index]? = some e.item) :
    rf.Stores e := by
  have hlen := (List.getElem?_eq_some_iff.mp he).1
  obtain ⟨e', he'⟩ := h.log.get?_isSome hfirst.le hlen
  obtain ⟨hidx, -, -, hitem⟩ := h.log.get?_spec he'
  have heq : e' = e := by
    have hsame := (hitem hfirst).symm.trans he
    simp only [Entry.item, Option.some.injEq, Item.mk.injEq] at hsame
    obtain ⟨index, term, command⟩ := e
    obtain ⟨index', term', command'⟩ := e'
    simp_all
  rcases h.persister with hp | ⟨-, hp⟩
  · exact ⟨_, hp, heq ▸ he'⟩
  · -- a server that has saved nothing holds only the sentinel
    have hlogs : rf.logs = Log.fresh := congrArg RaftState.logs hp
    have hlast := h.lastIndex
    rw [hlogs] at hlast
    have hzero : (Log.fresh : Log C).getLastLog.index = 0 := rfl
    omega

/-- If the server leads after a step, it led before in the same term, with the same `matchIndex`
and no larger commit index. -/
def Led (rf rf' : Server n C) : Prop :=
  rf'.role = .leader → rf.role = .leader ∧ rf'.currentTerm = rf.currentTerm ∧
    rf'.matchIndex = rf.matchIndex ∧ rf.commitIndex ≤ rf'.commitIndex

/-- The same with `nextIndex` as well. -/
def Continues (rf rf' : Server n C) : Prop :=
  rf'.role = .leader → rf.role = .leader ∧ rf'.currentTerm = rf.currentTerm ∧
    rf'.nextIndex = rf.nextIndex ∧ rf'.matchIndex = rf.matchIndex ∧
    rf.commitIndex ≤ rf'.commitIndex

section
variable {rf rf' : Server n C}

theorem Continues.led (h : Continues rf rf') : Led rf rf' := fun hr =>
  have ⟨hlead, ht, _, hm, hc⟩ := h hr
  ⟨hlead, ht, hm, hc⟩

theorem Continues.refl (rf : Server n C) : Continues rf rf := fun h => ⟨h, rfl, rfl, rfl, le_rfl⟩

theorem continues_setNewTerm (rf : Server n C) (T : ℕ) : Continues rf (rf.setNewTerm T) := by
  intro h
  cases h

theorem continues_catchUp (rf : Server n C) (T : ℕ) : Continues rf (rf.catchUp T) := by
  rcases rf.catchUp_cases T with h | ⟨-, h⟩ <;> rw [h]
  · exact Continues.refl rf
  · exact continues_setNewTerm rf T

theorem continues_requestVote (args : RequestVoteArgs n) :
    Continues rf (rf.requestVote args).1 := by
  rcases rf.requestVote_cases args with h | h | h <;> rw [h]
  · exact Continues.refl rf
  · exact continues_catchUp rf _
  · exact continues_catchUp rf args.term

theorem continues_installSnapshot (args : InstallSnapshotArgs) :
    Continues rf (rf.installSnapshot args).1 := by
  rcases rf.installSnapshot_cases args with h | h | h <;> rw [h]
  · exact Continues.refl rf
  · exact continues_catchUp rf _
  · exact continues_catchUp rf args.term

/-- The `AppendEntries` handler, which does not lower the commit index if the request comes from
the leader of its term. -/
theorem continues_appendEntriesRpc {args : AppendEntriesArgs n C} {reply : AppendEntriesReply}
    (h : rf.appendEntriesRpc args = some (rf', reply))
    (hc : rf.commitIndex ≤ rf'.commitIndex) : Continues rf rf' := by
  rcases Server.appendEntriesRpc_cases h with ⟨-, rfl⟩ | ⟨-, -, rfl⟩ | ⟨-, h⟩
  · exact Continues.refl _
  · exact continues_setNewTerm _ _
  have hstore : rf'.role = rf.stepDown.role ∧ rf'.currentTerm = rf.stepDown.currentTerm ∧
      rf'.nextIndex = rf.stepDown.nextIndex ∧ rf'.matchIndex = rf.stepDown.matchIndex := by
    rcases Server.acceptEntries_cases h with ⟨-, rfl⟩ | ⟨-, prev, rf₁, -, -, hs, rfl⟩
    · exact ⟨rfl, rfl, rfl, rfl⟩
    · rcases Server.storeEntries_cases hs with rfl | ⟨logs, rfl⟩ <;> split_ifs <;>
        exact ⟨rfl, rfl, rfl, rfl⟩
  obtain ⟨hr, ht, hn, hm⟩ := hstore
  unfold Server.stepDown at hr ht hn hm
  intro hlead
  split_ifs at hr ht hn hm with hcand
  · rw [hr] at hlead
    cases hlead
  · exact ⟨hr ▸ hlead, ht, hn, hm, hc⟩

theorem continues_start {me : Fin n} {command : Option C} {requests : List (Fin n × Message n C)}
    {result : Option (ℕ × ℕ)} (h : rf.start me command = some (rf', requests, result)) :
    Continues rf rf' := by
  rcases Server.start_cases h with ⟨rfl, -⟩ | ⟨-, -, rfl⟩
  · exact Continues.refl _
  · exact Continues.refl rf

theorem continues_snapshot {index : ℕ} {data : List UInt8} (h : rf.snapshot index data = some rf') :
    Continues rf rf' := by
  rcases Server.snapshot_cases h with rfl | ⟨-, logs, -, rfl⟩
  · exact Continues.refl _
  · exact Continues.refl rf

theorem continues_condInstallSnapshot {term index : ℕ} {data : List UInt8} {accepted : Bool}
    (h : rf.condInstallSnapshot term index data = some (rf', accepted)) : Continues rf rf' := by
  rcases Server.condInstallSnapshot_cases h with ⟨-, rfl⟩ | ⟨-, hlt, logs, -, rfl⟩
  · exact Continues.refl _
  · exact fun hr => ⟨hr, rfl, rfl, rfl, hlt.le⟩

theorem continues_make (persister : Persister n C) (epoch : ℕ) :
    Continues rf (Server.make persister epoch) := by
  intro h
  cases hp : persister.raftstate <;> simp [Server.make, Server.readPersist, hp] at h

/-- How a server comes to lead after a step: it goes on leading, it has won its election, or it has
processed the reply to an `AppendEntries` or an `InstallSnapshot` call. -/
theorem Sim.leader_cases {c : Cluster n C} {g : Ghost n C} (hsim : Sim c g) {a : Action C n}
    {i : Fin n} {new : List (Packet n C)} (heff : Cluster.Effect c a i rf new)
    (hrole : rf.role = .leader) :
    Continues (c.servers i) rf ∨
    (∀ p, rf.matchIndex p = 0 ∧ rf.nextIndex p = rf.logs.getLastLog.index + 1) ∨
    (∃ p ∈ c.net, ∃ args reply, p.message = .appendEntriesReply args reply ∧
      (c.servers i).appendEntriesReply i p.callee args reply = some rf) ∨
    (∃ peer args reply, args.lastIncludedIndex ≤ (c.servers i).commitIndex ∧
      rf = (c.servers i).installSnapshotReply peer args reply) := by
  cases heff with
  | electionTimeout => cases hrole
  | heartbeatTimeout => exact Or.inl (Continues.refl _)
  | start hs => exact Or.inl (continues_start hs)
  | requestVote => exact Or.inl (continues_requestVote _)
  | @appendEntries p args _ reply hp hm hs =>
    have hsound := (hsim.sound p hp).message
    rw [hm] at hsound
    obtain ⟨-, -, -, hlater, -⟩ := (hsim.view p.callee).appendEntriesRpc False hsim.inv hsound hs
    exact Or.inl (continues_appendEntriesRpc hs hlater.commitIndex)
  | installSnapshot => exact Or.inl (continues_installSnapshot _)
  | requestVoteReply ha hp hm he hs =>
    obtain ⟨e, -, hcases⟩ := Server.requestVoteReply_cases hs
    rcases hcases with ⟨rfl, -⟩ | ⟨-, rfl, -⟩ | ⟨-, -, -, rfl⟩ | ⟨-, -, -, -, -, hlead⟩
    · exact Or.inl (Continues.refl _)
    · cases hrole
    · exact Or.inl (Continues.refl (c.servers _))
    · refine Or.inr (Or.inl fun p => ?_)
      rw [(Server.becomeLeader_eq hlead).1]
      exact ⟨rfl, rfl⟩
  | appendEntriesReply hp hm he hs => exact Or.inr (Or.inr (Or.inl ⟨_, hp, _, _, hm, hs⟩))
  | @installSnapshotReply p args reply hp hm he =>
    have hsnap := (hsim.sound p hp).snapshot he
    rw [hm] at hsnap
    exact Or.inr (Or.inr (Or.inr ⟨_, _, _, hsnap, rfl⟩))
  | crash => exact Or.inl (continues_make _ _)
  | applierCopy hs =>
    obtain ⟨-, -, entries, -, rfl⟩ := Server.applierCopy_cases hs
    exact Or.inl (Continues.refl (c.servers i))
  | applierSend hs =>
    obtain ⟨entry, rest, k, -, rfl⟩ := Server.applierSend_cases hs
    exact Or.inl (Continues.refl (c.servers i))
  | applierUpdate hs =>
    obtain ⟨k, -, rfl⟩ := Server.applierUpdate_cases hs
    exact Or.inl (Continues.refl (c.servers i))
  | snapshot _ hs => exact Or.inl (continues_snapshot hs)
  | condInstallSnapshot _ hs =>
    have hcont := continues_condInstallSnapshot hs
    exact Or.inl fun hr => hcont hr

end

section
variable {r : ℕ → Cluster n C} {g : ℕ → Ghost n C} {k : ℕ}

/-- The entries of the leader of `T` up to index `m` that are of its own term have been stored by
`s` in that term, unless the leader has committed them. -/
structure Verified (r : ℕ → Cluster n C) (g : ℕ → Ghost n C) (k : ℕ) (s : Fin n) (T : ℕ) (m : ℤ) :
    Prop where
  length : m < ((g k).llog T).length
  stored : ∀ e : Entry C, e.term = T → (e.index : ℤ) ≤ m →
    ((g k).llog T)[e.index]? = some e.item → StoredBy r k s T e ∨ e.index < (g k).commit T

theorem Verified.succ {s : Fin n} {T : ℕ} {m : ℤ} (h : Verified r g k s T m)
    (gr : Grows (g k) (g (k + 1))) : Verified r g (k + 1) s T m where
  length := h.length.trans_le (by exact_mod_cast (gr.llog T).length_le)
  stored e ht hle he := by
    have hlen := h.length
    rw [prefix_getElem? (gr.llog T) (by omega)] at he
    exact (h.stored e ht hle he).imp (fun h => h.mono (Nat.le_succ k))
      (fun h => h.trans_le (gr.commit T))

/-- A successful reply, when it is given: the callee is in the term of the request and holds its
entries. -/
theorem Sim.verified (h : Sim (r k) (g k)) {p : Packet n C} {args : AppendEntriesArgs n C}
    {reply : AppendEntriesReply} (hp : p ∈ (r k).net)
    (hm : p.message = .appendEntriesReply args reply) (hsucc : reply.success = true)
    (hT : ((r k).servers p.callee).currentTerm = args.term) :
    Verified r g k p.callee args.term (args.prevLogIndex + args.entries.length) := by
  have hsound := (h.sound p hp).message
  rw [hm] at hsound
  have hacked := h.inv.acked_le p.callee args.term
  have hcommit := h.inv.commit_le args.term
  refine ⟨by rcases hsound hsucc with h | h <;> omega, fun e ht hle he => ?_⟩
  rcases hsound hsucc with ha | hc
  · have hview := h.view p.callee
    have hterm : termAt ((g k).llog args.term) e.index = some args.term :=
      termAt_eq_some.mpr ⟨_, he, ht⟩
    rcases h.inv.held (s := p.callee) (by omega) hterm with ⟨hpre, -⟩ | ⟨T', h₁, h₂, -⟩
    · have hlog : ((g k).log p.callee)[e.index]? = some e.item := by
        rw [prefix_getElem? hpre (by simp; omega), List.getElem?_take_of_lt (by omega), he]
      by_cases hfirst : ((r k).servers p.callee).logs.getFirstLog.index < e.index
      · exact Or.inl ⟨k, le_rfl, hT, hview.stores hfirst hlog⟩
      · -- what has been compacted was committed, and an item of this term in this term
        right
        obtain ⟨T', hT', hbase, hpre⟩ := h.inv.log_settled p.callee
        rw [hview.base] at hbase hpre
        have hlen := h.inv.commit_le T'
        have hget := prefix_getElem? hpre (i := e.index) (by simp; omega)
        rw [hlog, List.getElem?_take_of_lt (by omega)] at hget
        have hle' := (h.inv.llog_chain hget.symm).1
        have hterm' := hview.term
        obtain rfl : T' = args.term := by
          change e.term ≤ T' at hle'
          omega
        omega
    · have := hview.term
      omega
  · exact Or.inr (by omega)

/-- What replies in flight and the `matchIndex` of leaders stand for. -/
structure Vouched (r : ℕ → Cluster n C) (g : ℕ → Ghost n C) (k : ℕ) : Prop where
  reply : ∀ {p args reply}, p ∈ (r k).net → p.message = .appendEntriesReply args reply →
    reply.success = true →
    Verified r g k p.callee args.term (args.prevLogIndex + args.entries.length)
  matched : ∀ {i}, ((r k).servers i).role = .leader → ∀ p,
    ((r k).servers i).matchIndex p ≤ ((r k).servers i).commitIndex ∨
      Verified r g k p ((r k).servers i).currentTerm (((r k).servers i).matchIndex p)

variable {i : Fin n} {rf : Server n C}

/-- A leader whose `matchIndex` has not changed. -/
theorem Vouched.led (h : Vouched r g k) (hled : Led ((r k).servers i) rf)
    (hrole : rf.role = .leader) (p : Fin n) :
    rf.matchIndex p ≤ rf.commitIndex ∨ Verified r g k p rf.currentTerm (rf.matchIndex p) := by
  obtain ⟨hr, ht, hm, hc⟩ := hled hrole
  rw [ht, hm]
  exact (h.matched hr p).imp_left fun hle => hle.trans (by exact_mod_cast hc)

/-- The values of `matchIndex` that a reply to an `AppendEntries` call leaves. -/
theorem Vouched.answered (h : Vouched r g k) {p : Packet n C} {args : AppendEntriesArgs n C}
    {reply : AppendEntriesReply} (hp : p ∈ (r k).net)
    (hm : p.message = .appendEntriesReply args reply)
    (hrole : ((r k).servers i).role = .leader)
    (hT : args.term = ((r k).servers i).currentTerm) {matched : Fin n → ℤ}
    (hmatch : ∀ q, matched q = ((r k).servers i).matchIndex q ∨ (reply.success = true ∧
      q = p.callee ∧ matched q = args.prevLogIndex + args.entries.length)) (q : Fin n) :
    matched q ≤ ((r k).servers i).commitIndex ∨
      Verified r g k q ((r k).servers i).currentTerm (matched q) := by
  rcases hmatch q with heq | ⟨hsucc, rfl, heq⟩
  · rw [heq]
    exact h.matched hrole q
  · rw [heq, ← hT]
    exact Or.inr (h.reply hp hm hsucc)

/-- The leader that a step leaves. -/
theorem Vouched.effect (h : Vouched r g k) (hsim : Sim (r k) (g k)) {a : Action C n}
    {new : List (Packet n C)} (heff : Cluster.Effect (r k) a i rf new) (hrole : rf.role = .leader)
    (q : Fin n) :
    rf.matchIndex q ≤ rf.commitIndex ∨ Verified r g k q rf.currentTerm (rf.matchIndex q) := by
  rcases hsim.leader_cases heff hrole with hcont | hnew | ⟨p, hp, args, reply, hm, hs⟩ |
    ⟨peer, args, reply, hsnap, rfl⟩
  · exact h.led hcont.led hrole q
  · -- a new leader starts from zero
    left
    rw [(hnew q).1]
    exact Int.natCast_nonneg _
  · rcases Server.appendEntriesReply_cases hs with rfl | ⟨-, rfl⟩ | ⟨hT, next, matched, hmatch, hs⟩
    · exact h.matched hrole q
    · cases hrole
    · rcases Server.leaderCommitLog_cases hs with rfl | ⟨N, e, -, hlt, -, -, -, rfl⟩
      · exact h.answered hp hm hrole hT hmatch q
      · refine (h.answered hp hm hrole hT hmatch q).imp_left fun hle => hle.trans ?_
        exact_mod_cast hlt.le
  · obtain ⟨hr, ht, -, hmatch, hc⟩ := continues_catchUp ((r k).servers i) reply.term hrole
    by_cases hq : q = peer
    · left
      subst hq
      simp only [Server.installSnapshotReply, Function.update_self]
      exact_mod_cast hsnap.trans hc
    · have hsame : (((r k).servers i).installSnapshotReply peer args reply).matchIndex q
          = ((r k).servers i).matchIndex q :=
        (Function.update_of_ne hq _ _).trans (congrFun hmatch q)
      have hterm : (((r k).servers i).installSnapshotReply peer args reply).currentTerm
          = ((r k).servers i).currentTerm := ht
      rw [hsame, hterm]
      refine (h.matched hr q).imp_left fun hle => hle.trans ?_
      exact_mod_cast hc

theorem Vouched.step (h : Vouched r g k) (hsim : Sim (r k) (g k))
    (hsim' : Sim (r (k + 1)) (g (k + 1))) (gr : Grows (g k) (g (k + 1))) {a : Action C n}
    (hs : (r k).step a = some (r (k + 1))) : Vouched r g (k + 1) := by
  obtain ⟨hservers, hnet⟩ := Cluster.step_keeps
    (S := fun _ rf => rf.role = .leader → ∀ p, rf.matchIndex p ≤ rf.commitIndex ∨
      Verified r g (k + 1) p rf.currentTerm (rf.matchIndex p))
    (N := fun p => ∀ args reply, p.message = .appendEntriesReply args reply →
      reply.success = true →
      Verified r g (k + 1) p.callee args.term (args.prevLogIndex + args.entries.length)) hs
    (fun i hrole p => (h.matched hrole p).imp_right fun hv => hv.succ gr)
    (fun p hp args reply hm hsucc => (h.reply hp hm hsucc).succ gr)
    fun {i rf new} heff hrf => by
      refine ⟨fun hrole p => (h.effect hsim heff hrole p).imp_right fun hv => hv.succ gr,
        fun p hnew hp args reply hm hsucc => ?_⟩
      -- the callee has answered in the term of the request
      obtain ⟨hcallee, hrpc, -⟩ := heff.sent_appendEntriesReply hnew hm
      refine hsim'.verified hp hm hsucc ?_
      rw [hcallee, hrf]
      exact (Server.appendEntriesRpc_success hrpc hsucc).2
  exact ⟨fun hp hm hsucc => hnet _ hp _ _ hm hsucc, fun hrole p => hservers _ hrole p⟩

theorem Cluster.Run.vouched (hr : Cluster.SafeRun r) (hsim : ∀ k, Sim (r k) (g k))
    (hgrows : ∀ k l, k ≤ l → Grows (g k) (g l)) (k : ℕ) : Vouched r g k := by
  induction k with
  | zero =>
    have h0 := hr.init
    refine ⟨fun hp => ?_, fun hrole => ?_⟩
    · rw [h0] at hp
      cases hp
    · rw [h0] at hrole
      cases hrole
  | succ k ih =>
    rcases hr.steps k with heq | ⟨a, -, hs⟩
    · have gr := hgrows k (k + 1) (Nat.le_succ k)
      refine ⟨fun hp hm hsucc => ?_, fun hrole p => ?_⟩
      · rw [heq] at hp
        exact (ih.reply hp hm hsucc).succ gr
      · rw [heq] at hrole ⊢
        exact (ih.matched hrole p).imp_right fun hv => hv.succ gr
    · exact ih.step (hsim k) (hsim (k + 1)) (hgrows k (k + 1) (Nat.le_succ k)) hs

end

/-- In the step from `c` to `c'` the server `i`, in term `T`, gets the reply to one of its
`AppendEntries` calls, and `leaderCommitLog` raises its commit index to `N`. -/
def Cluster.LeaderCommitLog (c c' : Cluster n C) (i : Fin n) (T N : ℕ) : Prop :=
  (∃ p args reply, p ∈ c.net ∧ p.caller = i ∧ p.epoch = (c.servers i).epoch ∧
    p.message = .appendEntriesReply args reply ∧
    (c.servers i).appendEntriesReply i p.callee args reply = some (c'.servers i)) ∧
  (c'.servers i).currentTerm = T ∧ (c.servers i).commitIndex < N ∧ (c'.servers i).commitIndex = N

/-- Commit-quorum soundness: the entry at the index `N` to which `leaderCommitLog` raises the
commit index is of the leader's term `T`, and it and every other entry of that term that the step
commits has been stored by a majority, the leader included, while in term `T`. The snapshot point
that the reply to an `InstallSnapshot` call writes to `matchIndex` is never above the commit
index. -/
theorem commit_quorum {r : ℕ → Cluster n C} (hr : Cluster.SafeRun r) {k T N : ℕ} {i : Fin n}
    (hc : (r k).LeaderCommitLog (r (k + 1)) i T N) :
    (∃ e, ((r (k + 1)).servers i).logs.get? N = some e ∧ e.index = N ∧ e.term = T) ∧
    (∀ e, ((r (k + 1)).servers i).logs.get? e.index = some e → e.term = T →
      ((r k).servers i).commitIndex < e.index → e.index ≤ N →
      ∃ Q : Finset (Fin n), Majority Q ∧ i ∈ Q ∧ ∀ s ∈ Q, StoredBy r k s T e) ∧
    ∀ l, ∀ p ∈ (r l).net, ∀ args reply, p.message = .installSnapshotReply args reply →
      p.epoch = ((r l).servers p.caller).epoch →
      args.lastIncludedIndex ≤ ((r l).servers p.caller).commitIndex := by
  obtain ⟨g, hsim, hgrows⟩ := hr.ledgers i
  have hv := hr.vouched hsim hgrows k
  obtain ⟨⟨p, args, reply, hp, hcaller, -, hm, hs⟩, hT, hlt, hN⟩ := hc
  have hsnap : ∀ l, ∀ p ∈ (r l).net, ∀ args reply, p.message = .installSnapshotReply args reply →
      p.epoch = ((r l).servers p.caller).epoch →
      args.lastIncludedIndex ≤ ((r l).servers p.caller).commitIndex := by
    intro l p hp args reply hm he
    have := ((hsim l).sound p hp).snapshot he
    rwa [hm] at this
  rcases Server.appendEntriesReply_cases hs with heq | ⟨-, heq⟩ | ⟨hterm, next, matched, hmatch, hs⟩
  · rw [heq] at hN
    omega
  · rw [heq] at hN
    exact absurd hN hlt.ne
  rcases Server.leaderCommitLog_cases hs with heq | ⟨N', e', hrole, -, hget, het, hcount, heq⟩
  · rw [heq] at hN
    exact absurd hN hlt.ne
  rw [heq] at hT hN ⊢
  obtain rfl : N' = N := hN
  have hview := (hsim k).view i
  refine ⟨⟨e', hget, (hview.log.get?_spec hget).1, het.trans hT⟩, fun e he heT hlo hhi => ?_,
    hsnap⟩
  obtain ⟨hlead, hcommit, -⟩ := hview.leads hrole
  have hfirst := hview.first_le_commit
  have hitem := (hview.log.get?_spec he).2.2.2 (by omega)
  refine ⟨_, majority_of_countMatches hcount, Finset.mem_insert_self _ _, fun s hs => ?_⟩
  rcases Finset.mem_insert.mp hs with rfl | hs
  · exact ⟨k, le_rfl, hT, hview.stores (by omega) hitem⟩
  · have hle := (Finset.mem_filter.mp hs).2.2
    rcases hv.answered hp hm hrole hterm hmatch s with habove | hver
    · change (N' : ℤ) ≤ matched s at hle
      omega
    · rw [((hsim k).inv.leader_log hlead).2.2.2 hview.term] at hitem
      have hsame : ((r k).servers i).currentTerm = T := hT
      rw [hsame] at hver hitem hcommit
      change (N' : ℤ) ≤ matched s at hle
      exact (hver.stored e heT (by omega) hitem).resolve_right (by omega)

theorem commit_quorum_handoverRun :
    ∃ r : ℕ → Cluster 3 Bool, Cluster.SafeRun r ∧ (r 5).LeaderCommitLog (r 6) 0 1 1 ∧
      ((r 6).servers 0).logs.get? 1 = some ⟨1, 1, some true⟩ ∧
      ∃ Q : Finset (Fin 3), Majority Q ∧ 0 ∈ Q ∧ ∀ s ∈ Q, StoredBy r 5 s 1 ⟨1, 1, some true⟩ :=
  have hr : Cluster.SafeRun (trace Cluster.step (Cluster.init 3 Bool) (handoverRun 0 1)) :=
    ⟨trace_zero _ _, trace_isRun (by decide)⟩
  have hc : (trace Cluster.step (Cluster.init 3 Bool) (handoverRun 0 1) 5).LeaderCommitLog
      (trace Cluster.step (Cluster.init 3 Bool) (handoverRun 0 1) 6) 0 1 1 :=
    ⟨⟨⟨0, 1, 0, .appendEntriesReply ⟨1, 0, 0, 0, [⟨1, 1, some true⟩], 0⟩
        { term := 1, success := true }⟩,
      _, _, by decide, rfl, rfl, rfl, rfl⟩, by decide, by decide, by decide⟩
  ⟨_, hr, hc, by decide, (commit_quorum hr hc).2.1 ⟨1, 1, some true⟩ (by decide) rfl (by decide)
    (by decide)⟩

end RaftLabs.Raft
