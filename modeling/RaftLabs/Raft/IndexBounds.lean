import RaftLabs.Raft.CommitQuorum
import RaftLabs.Raft.CommitRule
import RaftLabs.Raft.LogMatching
import RaftLabs.Raft.Rooted

/-! The indexes that a leader and a follower work with. A request never names a commit index
beyond its own entries, and the `nextIndex` of a leader stays between zero and the end of its
log, although replies of any age write to it. -/
namespace RaftLabs.Raft
open Basis Basis.Ledger

variable {n : ℕ} {C : Type}

/-- A commit index that a successful request has moved lies within the request, and the entries
of the request that it covers are in the log. -/
theorem Server.appendEntriesRpc_commit {rf rf' : Server n C} {args : AppendEntriesArgs n C}
    {reply : AppendEntriesReply} (hc : rf.logs.Contiguous)
    (hes : ∀ k e, args.entries[k]? = some e → e.index = args.prevLogIndex + 1 + k)
    (hle : args.leaderCommit ≤ args.prevLogIndex + args.entries.length)
    (hs : rf.appendEntriesRpc args = some (rf', reply)) (hsucc : reply.success = true) :
    (rf'.commitIndex = rf.commitIndex ∨
      rf'.commitIndex ≤ args.prevLogIndex + args.entries.length) ∧
    (∃ x, rf'.logs.get? args.prevLogIndex = some x ∧ x.term = args.prevLogTerm) ∧
    ∀ e ∈ args.entries, ∃ x, rf'.logs.get? e.index = some x ∧ x.term = e.term := by
  rcases appendEntriesRpc_cases hs with ⟨hf, -⟩ | ⟨hf, -⟩ | ⟨-, hs⟩
  · simp [hf] at hsucc
  · simp [hf] at hsucc
  have hc' : rf.stepDown.logs.Contiguous := (keeps_stepDown rf).logs ▸ hc
  rcases acceptEntries_cases hs with ⟨hf, -⟩ | ⟨-, prev, rf₁, hprev, hterm, hstore, rfl⟩
  · simp [hf] at hsucc
  obtain ⟨-, hfirst, hlast⟩ := hc'.get?_index hprev
  obtain ⟨rf₂, hstore', hu⟩ := storeEntries_updates hc' hes hfirst hlast
  obtain rfl := Option.some.inj (hstore.symm.trans hstore')
  have hcommit : rf₁.commitIndex = rf.commitIndex := by
    rw [← rf.stepDown_commitIndex]
    rcases storeEntries_cases hstore with rfl | ⟨logs, rfl⟩ <;> rfl
  have hlogs : ∀ m, (if rf₁.commitIndex < args.leaderCommit then { rf₁ with commitIndex := m }
      else rf₁).logs = rf₁.logs := by
    intro m
    split_ifs <;> rfl
  refine ⟨?_, ?_, ?_⟩
  · split_ifs
    · exact Or.inr ((min_le_left _ _).trans hle)
    · exact Or.inl hcommit
  · rw [hlogs, hu.before _ le_rfl]
    exact ⟨prev, hprev, hterm⟩
  · intro e he
    obtain ⟨x, hx, ht, -⟩ := hu.stored e he
    rw [hlogs]
    exact ⟨x, hx, ht⟩

/-- The follower's commit bound: a request in flight names a commit index within its entries, so
that a follower that accepts it commits nothing that was not compared with the leader's log. -/
theorem follower_commit_bound {r : ℕ → Cluster n C} (hr : Cluster.SafeRun r) {k : ℕ}
    {p : Packet n C} (hp : p ∈ (r k).net) {args : AppendEntriesArgs n C}
    (hm : p.message = .appendEntries args) :
    args.leaderCommit ≤ args.prevLogIndex + args.entries.length ∧
    ∀ rf' reply, ((r k).servers p.callee).appendEntriesRpc args = some (rf', reply) →
      reply.success = true →
      (rf'.commitIndex = ((r k).servers p.callee).commitIndex ∨
        rf'.commitIndex ≤ args.prevLogIndex + args.entries.length) ∧
      (∃ x, rf'.logs.get? args.prevLogIndex = some x ∧ x.term = args.prevLogTerm) ∧
      ∀ e ∈ args.entries, ∃ x, rf'.logs.get? e.index = some x ∧ x.term = e.term := by
  obtain ⟨g, hsim, -⟩ := hr.ledgers p.callee
  have hsound := ((hsim k).sound p hp).message
  rw [hm] at hsound
  have hes := (hr.durable k).net p hp
  rw [hm] at hes
  refine ⟨hsound.commit_le, fun rf' reply hs hsucc => ?_⟩
  exact Server.appendEntriesRpc_commit ((hr.durable k).servers _).contiguous hes hsound.commit_le
    hs hsucc

/-- Server `s` of three has committed a command with another one and sends heartbeats. -/
def commitRun (s : Fin n) : List (Action Bool n) :=
  [.electionTimeout s, .deliver 0, .deliver 1, .start s (some true), .deliver 3, .deliver 4,
    .heartbeatTimeout s]

theorem follower_commit_bound_commitRun :
    ∃ r : ℕ → Cluster 3 Bool, Cluster.SafeRun r ∧ ∃ p ∈ (r 7).net, ∃ args,
      p.message = .appendEntries args ∧ args.leaderCommit = 1 ∧
      args.leaderCommit ≤ args.prevLogIndex + args.entries.length ∧
      ∃ rf' reply, ((r 7).servers p.callee).appendEntriesRpc args = some (rf', reply) ∧
        reply.success = true ∧ rf'.commitIndex = 1 ∧
        (rf'.commitIndex = ((r 7).servers p.callee).commitIndex ∨
          rf'.commitIndex ≤ args.prevLogIndex + args.entries.length) := by
  have hr : Cluster.SafeRun (trace Cluster.step (Cluster.init 3 Bool) (commitRun 0)) :=
    ⟨trace_zero _ _, trace_isRun (by decide)⟩
  set args : AppendEntriesArgs 3 Bool := ⟨1, 0, 1, 1, [], 1⟩ with hargs
  have hp : (⟨0, 1, 0, .appendEntries args⟩ : Packet 3 Bool) ∈
      (trace Cluster.step (Cluster.init 3 Bool) (commitRun 0) 7).net := by decide
  obtain ⟨hle, hrpc⟩ := follower_commit_bound hr hp rfl
  refine ⟨_, hr, _, hp, args, rfl, rfl, hle, _, _, rfl, rfl, rfl, ?_⟩
  exact (hrpc _ _ rfl rfl).1

/-! The requests and the commit rule of a leader. -/

namespace Server
variable {rf rf' : Server n C} {me peer : Fin n}

/-- The requests that do not need the snapshot. -/
theorem requestTo_appendEntries (me : Fin n) (hc : rf.logs.Contiguous)
    (hfirst : (rf.logs.getFirstLog.index : ℤ) < rf.nextIndex peer)
    (hlast : rf.nextIndex peer ≤ rf.logs.getLastLog.index + 1) :
    ∃ prev, rf.logs.get? (rf.nextIndex peer - 1).toNat = some prev ∧
      rf.requestTo me peer = some (.appendEntries
        { term := rf.currentTerm
          leaderId := me
          prevLogIndex := prev.index
          prevLogTerm := prev.term
          entries := rf.logs.entries.drop
            ((rf.nextIndex peer - 1).toNat - rf.logs.getFirstLog.index + 1)
          leaderCommit := rf.commitIndex }) := by
  obtain ⟨prev, hprev⟩ := hc.get?_isSome (i := (rf.nextIndex peer - 1).toNat) (by omega) (by omega)
  refine ⟨prev, hprev, ?_⟩
  simp only [requestTo]
  rw [if_neg (by omega), hprev]
  rfl

theorem requestTo_installSnapshot (me : Fin n)
    (h : rf.nextIndex peer ≤ rf.logs.getFirstLog.index) :
    rf.requestTo me peer = some (.installSnapshot
      { term := rf.currentTerm
        lastIncludedIndex := rf.logs.getFirstLog.index
        lastIncludedTerm := rf.logs.getFirstLog.term
        data := rf.persister.snapshot }) := by
  simp only [requestTo]
  rw [if_pos (by omega)]

theorem requestTo_isSome (hc : rf.logs.Contiguous)
    (hlast : rf.nextIndex peer ≤ rf.logs.getLastLog.index + 1) :
    (rf.requestTo me peer).isSome := by
  by_cases hfirst : rf.nextIndex peer ≤ rf.logs.getFirstLog.index
  · rw [requestTo_installSnapshot me hfirst]
    rfl
  · obtain ⟨prev, -, hreq⟩ := requestTo_appendEntries me hc (not_le.mp hfirst) hlast
    rw [hreq]
    rfl

theorem appendEntries_isSome (hc : rf.logs.Contiguous)
    (hlast : ∀ peer, rf.nextIndex peer ≤ rf.logs.getLastLog.index + 1) (heartbeat : Bool) :
    (rf.appendEntries me heartbeat).isSome := by
  refine mapM_isSome fun peer _ => ?_
  rw [Option.isSome_map]
  exact requestTo_isSome hc (hlast peer)

/-- The loop of `leaderCommitLog` reads only retained entries. -/
theorem leaderCommitLog_isSome (hc : rf.logs.Contiguous)
    (hfirst : rf.logs.getFirstLog.index ≤ rf.commitIndex) : (rf.leaderCommitLog me).isSome := by
  unfold leaderCommitLog
  split_ifs
  · rfl
  · obtain ⟨N, hN, -⟩ := leaderLoop_greatest me hc.consecutive hfirst
    rw [hN]
    rfl

/-! What the reply to an `AppendEntries` call does to `nextIndex`. -/

theorem findLastLogInXTerm_le {l : Log C} {t v : ℤ} {i : ℕ}
    (h : findLastLogInXTerm l t i = some v) : v ≤ i := by
  induction i with
  | zero =>
    obtain rfl : -1 = v := by simpa [findLastLogInXTerm] using h
    omega
  | succ i ih =>
    unfold findLastLogInXTerm at h
    obtain ⟨e, -, h⟩ := Option.bind_eq_some_iff.mp h
    split_ifs at h
    · obtain rfl := Option.some.inj h
      push_cast
      omega
    · obtain rfl := Option.some.inj h
      omega
    · have := ih h
      push_cast
      omega

theorem backOff_bounds {reply : AppendEntriesReply} {prev : ℕ} {v : ℤ}
    (hb : reply.Bounded prev) (hprev : prev ≤ rf.logs.getLastLog.index)
    (hlow : 0 ≤ rf.nextIndex peer) (hhigh : rf.nextIndex peer ≤ rf.logs.getLastLog.index + 1)
    (h : rf.backOff peer reply = some v) : 0 ≤ v ∧ v ≤ rf.logs.getLastLog.index + 1 := by
  unfold backOff at h
  split_ifs at h with hconf hx hdec
  · obtain rfl := Option.some.inj h
    rcases hb hconf with ⟨-, h₀, h₁⟩ | ⟨h₀, -⟩
    · omega
    · omega
  · obtain ⟨w, hw, h⟩ := Option.bind_eq_some_iff.mp h
    obtain rfl := Option.some.inj h
    have hle := findLastLogInXTerm_le hw
    rcases hb hconf with ⟨h₀, -⟩ | ⟨-, h₀, h₁⟩
    · exact absurd h₀ hx
    · split_ifs <;> omega
  · obtain rfl := Option.some.inj h
    omega
  · obtain rfl := Option.some.inj h
    omega

theorem leaderCommitLog_frame (h : rf.leaderCommitLog me = some rf') :
    rf'.role = rf.role ∧ rf'.currentTerm = rf.currentTerm ∧ rf'.logs = rf.logs ∧
      rf'.nextIndex = rf.nextIndex := by
  rcases leaderCommitLog_cases h with rfl | ⟨k, e, -, -, -, -, -, rfl⟩ <;>
    exact ⟨rfl, rfl, rfl, rfl⟩

/-- In the term of the call, the reply changes the entry of the callee. -/
theorem appendEntriesReply_next {args : AppendEntriesArgs n C} {reply : AppendEntriesReply}
    (h : rf.appendEntriesReply me peer args reply = some rf') (hrole : rf'.role = .leader) :
    rf' = rf ∨ (args.term = rf.currentTerm ∧ rf.role = .leader ∧
      rf'.currentTerm = rf.currentTerm ∧ rf'.logs = rf.logs ∧
      ∃ v, rf'.nextIndex = Function.update rf.nextIndex peer v ∧
        ((reply.success = true ∧
          v = max (rf.nextIndex peer) (args.prevLogIndex + args.entries.length + 1)) ∨
        rf.backOff peer reply = some v)) := by
  unfold appendEntriesReply at h
  split_ifs at h with h₁ h₂ h₃
  · obtain rfl := Option.some.inj h
    cases hrole
  · obtain ⟨hr, ht, hl, hn⟩ := leaderCommitLog_frame h
    exact Or.inr ⟨h₂, hr ▸ hrole, ht, hl, _, hn, Or.inl ⟨h₃, rfl⟩⟩
  · obtain ⟨v, hv, h⟩ := Option.bind_eq_some_iff.mp h
    obtain ⟨hr, ht, hl, hn⟩ := leaderCommitLog_frame h
    exact Or.inr ⟨h₂, hr ▸ hrole, ht, hl, v, hn, Or.inr hv⟩
  · exact Or.inl (Option.some.inj h).symm

end Server

section
variable {r : ℕ → Cluster n C} {g : ℕ → Ghost n C} {k : ℕ} {i : Fin n} {rf : Server n C}

/-- The log of a leader is the one of its term. -/
theorem Sim.leader_last {c : Cluster n C} {g : Ghost n C} (h : Sim c g)
    (hrole : (c.servers i).role = .leader) :
    (c.servers i).logs.getLastLog.index + 1 = (g.llog (c.servers i).currentTerm).length := by
  have hview := h.view i
  rw [hview.lastIndex, (h.inv.leader_log (hview.leads hrole).leader).2.2.2 hview.term]

/-- The `nextIndex` of a leader and the calls whose replies may still change it. -/
structure NextBounded (r : ℕ → Cluster n C) (g : ℕ → Ghost n C) (k : ℕ) : Prop where
  reply : ∀ {p args reply}, p ∈ (r k).net → p.message = .appendEntriesReply args reply →
    args.prevLogIndex < ((g k).llog args.term).length
  next : ∀ {i}, ((r k).servers i).role = .leader → ∀ p, 0 ≤ ((r k).servers i).nextIndex p ∧
    ((r k).servers i).nextIndex p ≤ ((r k).servers i).logs.getLastLog.index + 1

/-- A leader that goes on with the same `nextIndex`. -/
theorem NextBounded.continues (h : NextBounded r g k) (hcont : Continues ((r k).servers i) rf)
    (hrole : rf.role = .leader)
    (hlast : ((r k).servers i).role = .leader →
      rf.currentTerm = ((r k).servers i).currentTerm →
      ((r k).servers i).logs.getLastLog.index ≤ rf.logs.getLastLog.index) (p : Fin n) :
    0 ≤ rf.nextIndex p ∧ rf.nextIndex p ≤ rf.logs.getLastLog.index + 1 := by
  obtain ⟨hr, ht, hn, -, -⟩ := hcont hrole
  have hle := hlast hr ht
  have hb := h.next hr p
  rw [hn]
  omega

/-- The leader that a step leaves. -/
theorem NextBounded.effect (h : NextBounded r g k) (hsim : Sim (r k) (g k)) {a : Action C n}
    (hroot : (r k).Rooted) {new : List (Packet n C)} (heff : Cluster.Effect (r k) a i rf new)
    (hrole : rf.role = .leader)
    (hlast : ((r k).servers i).role = .leader →
      rf.currentTerm = ((r k).servers i).currentTerm →
      ((r k).servers i).logs.getLastLog.index ≤ rf.logs.getLastLog.index) (q : Fin n) :
    0 ≤ rf.nextIndex q ∧ rf.nextIndex q ≤ rf.logs.getLastLog.index + 1 := by
  rcases hsim.leader_cases heff hrole with hcont | hnew | ⟨p, hp, args, reply, hm, hs⟩ |
    ⟨peer, args, reply, hsnap, rfl⟩
  · exact h.continues hcont hrole hlast q
  · -- a new leader starts at the end of its log
    rw [(hnew q).2]
    omega
  · rcases Server.appendEntriesReply_next hs hrole with
      rfl | ⟨hT, hr, ht, hl, v, hn, hv⟩
    · exact h.next hrole q
    have hprev := h.reply hp hm
    have hend := hsim.leader_last hr
    rw [hT, ← hend] at hprev
    have hb := h.next hr p.callee
    have hbound : 0 ≤ v ∧ v ≤ ((r k).servers i).logs.getLastLog.index + 1 := by
      rcases hv with ⟨hsucc, rfl⟩ | hv
      · have hsound := (hsim.sound p hp).message
        rw [hm] at hsound
        have hacked := hsim.inv.acked_le p.callee args.term
        have hcommit := hsim.inv.commit_le args.term
        rw [hT, ← hend] at hacked hcommit
        rcases hsound hsucc with hlt | hlt <;> rw [hT] at hlt <;> omega
      · have hreply := hroot.net p hp
        rw [hm] at hreply
        exact Server.backOff_bounds hreply (by omega) hb.1 hb.2 hv
    rw [hn, hl]
    by_cases hq : q = p.callee
    · rw [hq, Function.update_self]
      exact hbound
    · rw [Function.update_of_ne hq]
      exact h.next hr q
  · obtain ⟨hr, ht, hnext, -, -⟩ := continues_catchUp ((r k).servers i) reply.term hrole
    have hcommit := (hsim.view i).commit_lt hsim.inv
    rw [← (hsim.view i).lastIndex] at hcommit
    have hle := hlast hr ht
    by_cases hq : q = peer
    · subst hq
      simp only [Server.installSnapshotReply, Function.update_self] at hle ⊢
      omega
    · have hsame : (((r k).servers i).installSnapshotReply peer args reply).nextIndex q
          = ((r k).servers i).nextIndex q :=
        (Function.update_of_ne hq _ _).trans (congrFun hnext q)
      have hb := h.next hr q
      rw [hsame]
      omega

theorem NextBounded.step (h : NextBounded r g k) (hsim : Sim (r k) (g k))
    (hsim' : Sim (r (k + 1)) (g (k + 1))) (gr : Grows (g k) (g (k + 1))) (hroot : (r k).Rooted)
    {a : Action C n} (hs : (r k).step a = some (r (k + 1))) : NextBounded r g (k + 1) := by
  have hgrow : ∀ T, ((g k).llog T).length ≤ ((g (k + 1)).llog T).length := fun T =>
    (gr.llog T).length_le
  obtain ⟨hservers, hnet⟩ := Cluster.step_keeps
    (S := fun _ rf => rf.role = .leader → ∀ p, 0 ≤ rf.nextIndex p ∧
      rf.nextIndex p ≤ rf.logs.getLastLog.index + 1)
    (N := fun p => ∀ args reply, p.message = .appendEntriesReply args reply →
      args.prevLogIndex < ((g (k + 1)).llog args.term).length) hs
    (fun i hrole p => h.next hrole p)
    (fun p hp args reply hm => (h.reply hp hm).trans_le (hgrow _))
    fun {i rf new} heff hrf => by
      refine ⟨fun hrole p => ?_, fun p hnew hp args reply hm => ?_⟩
      · have hend := hsim'.leader_last (i := i) (by rw [hrf]; exact hrole)
        rw [hrf] at hend
        refine h.effect hsim hroot heff hrole (fun hr ht => ?_) p
        have hold := hsim.leader_last hr
        have hle := hgrow rf.currentTerm
        rw [ht] at hend hle
        omega
      · obtain ⟨-, -, q, hq, hreq⟩ := heff.sent_appendEntriesReply hnew hm
        have hsound := (hsim.sound q hq).message
        rw [hreq] at hsound
        exact (lt_length_of_termAt hsound.slice.prev).trans_le (hgrow _)
  exact ⟨fun hp hm => hnet _ hp _ _ hm, fun hrole p => hservers _ hrole p⟩

theorem Cluster.Run.nextBounded (hr : Cluster.SafeRun r) (hsim : ∀ k, Sim (r k) (g k))
    (hgrows : ∀ k l, k ≤ l → Grows (g k) (g l)) (k : ℕ) : NextBounded r g k := by
  induction k with
  | zero =>
    have h0 := hr.init
    refine ⟨fun hp => ?_, fun hrole => ?_⟩
    · rw [h0] at hp
      cases hp
    · rw [h0] at hrole
      cases hrole
  | succ k ih =>
    have gr := hgrows k (k + 1) (Nat.le_succ k)
    rcases hr.steps k with heq | ⟨a, -, hs⟩
    · refine ⟨fun hp hm => ?_, fun hrole p => ?_⟩
      · rw [heq] at hp
        exact (ih.reply hp hm).trans_le (gr.llog _).length_le
      · rw [heq] at hrole ⊢
        exact ih.next hrole p
    · exact ih.step (hsim k) (hsim (k + 1)) gr (hr.rooted k) hs

end

/-- The index bounds of a leader: its commit index and every `nextIndex` lie within its log, so
that it can build all its requests, of which those that its log no longer covers carry the
snapshot, and check the commit rule. -/
theorem leader_index_bounds {r : ℕ → Cluster n C} (hr : Cluster.SafeRun r) {k : ℕ} {i : Fin n}
    (hrole : ((r k).servers i).role = .leader) :
    ((r k).servers i).logs.getFirstLog.index ≤ ((r k).servers i).commitIndex ∧
    ((r k).servers i).commitIndex ≤ ((r k).servers i).logs.getLastLog.index ∧
    (∀ p, 0 ≤ ((r k).servers i).nextIndex p ∧
      ((r k).servers i).nextIndex p ≤ ((r k).servers i).logs.getLastLog.index + 1) ∧
    (∀ p, ((r k).servers i).nextIndex p ≤ ((r k).servers i).logs.getFirstLog.index →
      ∃ args, ((r k).servers i).requestTo i p = some (.installSnapshot args)) ∧
    (∀ p, ((r k).servers i).logs.getFirstLog.index < ((r k).servers i).nextIndex p →
      (((r k).servers i).nextIndex p - 1 - ((r k).servers i).logs.getFirstLog.index + 1 ≤
        ((r k).servers i).logs.entries.length ∧
      ∃ args, ((r k).servers i).requestTo i p = some (.appendEntries args))) ∧
    (∀ heartbeat, (((r k).servers i).appendEntries i heartbeat).isSome) ∧
    (((r k).servers i).leaderCommitLog i).isSome := by
  obtain ⟨g, hsim, hgrows⟩ := hr.ledgers i
  have hview := (hsim k).view i
  have hfirst := hview.first_le_commit
  have hcommit := hview.commit_lt (hsim k).inv
  rw [← hview.lastIndex] at hcommit
  have hnext := (hr.nextBounded hsim hgrows k).next hrole
  have hc := ((hr.durable k).servers i).contiguous
  have hlen := hc.length
  refine ⟨hfirst, by omega, hnext, fun p hp => ⟨_, Server.requestTo_installSnapshot i hp⟩,
    fun p hp => ⟨?_, ?_⟩, fun heartbeat => ?_, Server.leaderCommitLog_isSome hc hfirst⟩
  · have := (hnext p).2
    omega
  · obtain ⟨prev, -, hreq⟩ := Server.requestTo_appendEntries i hc hp (hnext p).2
    exact ⟨_, hreq⟩
  · exact Server.appendEntries_isSome hc (fun p => (hnext p).2) heartbeat

/-- Server `s` of three compacts its log at the entry that it has committed with another one, while
the third has received nothing. -/
def catchUpRun (s : Fin n) : List (Action Bool n) :=
  [.electionTimeout s, .deliver 1, .deliver 1, .start s (some true), .deliver 4, .deliver 4,
    .applierCopy s, .applierSend s, .snapshot s 1 []]

theorem leader_index_bounds_catchUpRun :
    ∃ r : ℕ → Cluster 3 Bool, Cluster.SafeRun r ∧ ((r 9).servers 1).role = .leader ∧
      ((r 9).servers 1).logs.getFirstLog.index = 1 ∧ ((r 9).servers 1).nextIndex 0 = 1 ∧
      ((r 9).servers 1).nextIndex 2 = 2 ∧
      ∃ args, ((r 9).servers 1).requestTo 1 0 = some (.installSnapshot args) := by
  have hr : Cluster.SafeRun (trace Cluster.step (Cluster.init 3 Bool) (catchUpRun 1)) :=
    ⟨trace_zero _ _, trace_isRun (by decide)⟩
  obtain ⟨-, -, -, hsnap, -⟩ := leader_index_bounds hr (k := 9) (i := 1) (by decide)
  exact ⟨_, hr, by decide, by decide, by decide, by decide, hsnap 0 (by decide)⟩

end RaftLabs.Raft
