import RaftLabs.Raft.IndexBounds

/-! The fast back-up of `nextIndex`: the search for the last entry of a conflicting term in the
log a leader retains, and the rounds in which a leader finds where a follower agrees with it. -/
namespace RaftLabs.Raft
open Basis Basis.Ledger

variable {n : ℕ} {C : Type}

/-- What `findLastLogInXTerm` is to return: the greatest retained index of an entry of the term,
or -1. -/
def IsLastInTerm (l : Log C) (term v : ℤ) : Prop :=
  (∃ i e, v = (i : ℕ) ∧ l.get? i = some e ∧ (e.term : ℤ) = term ∧
    ∀ j e', l.get? j = some e' → (e'.term : ℤ) = term → j ≤ i) ∨
  (v = -1 ∧ ∀ j e, l.get? j = some e → (e.term : ℤ) ≠ term)

namespace Server
variable {rf : Server n C}

theorem TermsSorted.get? (h : rf.TermsSorted) {i j : ℕ} {a b : Entry C}
    (ha : rf.logs.get? i = some a) (hb : rf.logs.get? j = some b) (hij : i ≤ j) :
    a.term ≤ b.term := by
  unfold Log.get? at ha hb
  split_ifs at ha hb with h₁ h₂
  rcases hij.eq_or_lt with rfl | hlt
  · rw [ha] at hb
    rw [Option.some.inj hb]
  · obtain ⟨hi, rfl⟩ := List.getElem?_eq_some_iff.mp ha
    obtain ⟨hj, rfl⟩ := List.getElem?_eq_some_iff.mp hb
    exact List.pairwise_iff_getElem.mp h _ _ hi hj (by omega)

/-- The search below index `i`, when everything above is of a larger term. It does not leave the
log if the first entry is at index 0 or 1 or stops it. The entry at index 0 is never looked at. -/
theorem findLastLogInXTerm_spec (hc : rf.logs.Contiguous) (hs : rf.TermsSorted) {t : ℤ}
    (hbase : rf.logs.getFirstLog.index ≤ 1 ∨ (rf.logs.getFirstLog.term : ℤ) ≤ t) {i : ℕ}
    (hi : i ≤ rf.logs.getLastLog.index)
    (habove : ∀ j e, i < j → rf.logs.get? j = some e → t < e.term) :
    ∃ v, findLastLogInXTerm rf.logs t i = some v ∧
      ((∃ i e, v = (i : ℕ) ∧ rf.logs.get? i = some e ∧ (e.term : ℤ) = t ∧
        ∀ j e', rf.logs.get? j = some e' → (e'.term : ℤ) = t → j ≤ i) ∨
      (v = -1 ∧ ∀ j e, 0 < j → rf.logs.get? j = some e → (e.term : ℤ) ≠ t)) := by
  induction i with
  | zero => exact ⟨-1, rfl, Or.inr ⟨rfl, fun j e hj he => (habove j e hj he).ne'⟩⟩
  | succ i ih =>
    have hfirst : rf.logs.getFirstLog.index ≤ i + 1 := by
      rcases hbase with hle | hle
      · omega
      · by_contra hlt
        have := habove _ _ (not_le.mp hlt) rf.logs.get?_first
        omega
    obtain ⟨e, he⟩ := hc.get?_isSome hfirst hi
    unfold findLastLogInXTerm
    rw [he]
    simp only [Option.bind_eq_bind, Option.bind_some]
    split_ifs with heq hlt
    · refine ⟨_, rfl, Or.inl ⟨i + 1, e, by push_cast; rfl, he, heq, fun j e' he' ht => ?_⟩⟩
      by_contra hj
      have := habove j e' (not_le.mp hj) he'
      omega
    · refine ⟨-1, rfl, Or.inr ⟨rfl, fun j e' _ he' => ?_⟩⟩
      rcases Nat.lt_or_ge (i + 1) j with hj | hj
      · exact (habove j e' hj he').ne'
      · have := hs.get? he' he hj
        omega
    · refine ih (by omega) fun j e' hj he' => ?_
      rcases Nat.lt_or_ge (i + 1) j with hj' | hj'
      · exact habove j e' hj' he'
      · obtain rfl : j = i + 1 := by omega
        rw [he] at he'
        obtain rfl := Option.some.inj he'
        omega

/-- Below a first entry of a larger term the search leaves the log. -/
theorem findLastLogInXTerm_eq_none (hs : rf.TermsSorted) {t : ℤ}
    (hindex : 1 < rf.logs.getFirstLog.index) (hterm : t < rf.logs.getFirstLog.term) {i : ℕ}
    (hi : 0 < i) : findLastLogInXTerm rf.logs t i = none := by
  induction i with
  | zero => omega
  | succ i ih =>
    unfold findLastLogInXTerm
    cases he : rf.logs.get? (i + 1) with
    | none => rfl
    | some e =>
      have hfirst : rf.logs.getFirstLog.index ≤ i + 1 := by
        by_contra hlt
        rw [Log.get?_of_lt (not_le.mp hlt)] at he
        cases he
      have hle := hs.get? rf.logs.get?_first he hfirst
      simp only [Option.bind_eq_bind, Option.bind_some]
      rw [if_neg (by omega), if_neg (by omega)]
      exact ih (by omega)

end Server

/-- The log of a leader is sorted in a run that never takes the newer-term branch of the
vote-reply closure. -/
theorem Cluster.Run.leader_sorted {r : ℕ → Cluster n C} (hr : Cluster.SafeRun r) {k : ℕ}
    {i : Fin n} (hrole : ((r k).servers i).role = .leader) : ((r k).servers i).TermsSorted := by
  obtain ⟨g, hsim, -⟩ := hr.ledgers i
  have hview := (hsim k).view i
  have hlog := ((hsim k).inv.leader_log (hview.leads hrole).leader).2.2.2 hview.term
  rw [Server.TermsSorted, List.pairwise_iff_getElem]
  intro p q hp hq hpq
  obtain ⟨hip, x, hx, hxt, -⟩ := hview.log.entry (List.getElem?_eq_getElem hp)
  obtain ⟨hiq, y, hy, hyt, -⟩ := hview.log.entry (List.getElem?_eq_getElem hq)
  rw [hlog] at hx hy
  rw [← hxt, ← hyt]
  exact (hsim k).inv.llog_sorted hx hy (by omega)

/-- The back-off search in any run: it reads only retained entries of the leader and returns the
greatest index of an entry of the conflicting term, or -1, if the first retained entry is at
index 0 or 1 or its term is not larger than the conflicting one. The terms of the log must not
decrease; a run that never takes the newer-term branch of the vote-reply closure has no other
leaders. -/
theorem backOff_search {P : Cluster n C → Action C n → Prop} {r : ℕ → Cluster n C}
    (hr : Cluster.Run P r) {k : ℕ} {i : Fin n} {p : Packet n C} {args : AppendEntriesArgs n C}
    {reply : AppendEntriesReply} (hp : p ∈ (r k).net)
    (hm : p.message = .appendEntriesReply args reply) (hconf : reply.conflict = true)
    (hx : reply.xTerm ≠ -1)
    (hsorted : (Cluster.SafeRun r ∧ ((r k).servers i).role = .leader) ∨
      ((r k).servers i).TermsSorted)
    (hbase : ((r k).servers i).logs.getFirstLog.index ≤ 1 ∨
      (((r k).servers i).logs.getFirstLog.term : ℤ) ≤ reply.xTerm) :
    ∃ v, Server.findLastLogInXTerm ((r k).servers i).logs reply.xTerm
        ((r k).servers i).logs.getLastLog.index = some v ∧
      IsLastInTerm ((r k).servers i).logs reply.xTerm v := by
  have hc := ((hr.durable k).servers i).contiguous
  have hsorted' : ((r k).servers i).TermsSorted := by
    rcases hsorted with ⟨hsafe, hrole⟩ | hsorted
    · exact Cluster.Run.leader_sorted hsafe hrole
    · exact hsorted
  have hreply := (hr.rooted k).net p hp
  rw [hm] at hreply
  have hpos : 0 < reply.xTerm := by
    rcases hreply hconf with ⟨hneg, -⟩ | ⟨hpos, -⟩
    · exact absurd hneg hx
    · exact hpos
  obtain ⟨v, hv, hlast⟩ := Server.findLastLogInXTerm_spec hc hsorted' hbase le_rfl
    fun j e hj he => absurd (hc.get?_index he).2.2 (not_le.mpr hj)
  refine ⟨v, hv, hlast.imp_right fun ⟨hneg, hno⟩ => ⟨hneg, fun j e he => ?_⟩⟩
  rcases Nat.eq_zero_or_pos j with rfl | hj
  · have hzero := (((hr.rooted k).servers i).get? he).mp (hc.get?_index he).1
    omega
  · exact hno j e hj he

/-- Server `s` of three leads term 1 and has two entries that nobody else has received. Server `t`
leads term 2, commits two entries with the third server and compacts its log up to `index`. Server
`s` gets the snapshot but does not install it before the next heartbeat. -/
def compactedRun (s t : Fin n) (index : ℕ) : List (Action Bool n) :=
  [.electionTimeout s, .deliver 0, .deliver 1, .start s (some true), .start s (some true),
    .electionTimeout t, .deliver 8, .deliver 8, .start t (some false), .start t (some false),
    .deliver 13, .deliver 13, .applierCopy t, .applierSend t, .applierSend t,
    .snapshot t index [], .heartbeatTimeout t, .deliver 13, .deliver 14, .heartbeatTimeout t,
    .deliver 14]

theorem backOff_search_compactedRun :
    ∃ r : ℕ → Cluster 3 Bool, Cluster.SafeRun r ∧ ((r 21).servers 1).role = .leader ∧
      ((r 21).servers 1).logs.getFirstLog = ⟨1, 2, none⟩ ∧
      ∃ v, Server.findLastLogInXTerm ((r 21).servers 1).logs 1
        ((r 21).servers 1).logs.getLastLog.index = some v ∧
        IsLastInTerm ((r 21).servers 1).logs 1 v := by
  have hr : Cluster.SafeRun (trace Cluster.step (Cluster.init 3 Bool) (compactedRun 0 1 1)) :=
    ⟨trace_zero _ _, trace_isRun (by decide)⟩
  have hp : (⟨1, 0, 0, .appendEntriesReply ⟨2, 1, 1, 2, [⟨2, 2, some false⟩], 2⟩
      ⟨2, false, true, 1, 0, 2⟩⟩ : Packet 3 Bool) ∈
      (trace Cluster.step (Cluster.init 3 Bool) (compactedRun 0 1 1) 21).net := by decide
  exact ⟨_, hr, by decide, by decide, backOff_search hr (i := 1) hp rfl rfl (by decide)
    (Or.inl ⟨hr, by decide⟩) (Or.inl (by decide))⟩

/-- A leader whose log starts at index 2 with term 2 gets the conflicting term 1 back. -/
theorem search_leaves_log_compactedRun :
    ∃ r : ℕ → Cluster 3 Bool, Cluster.SafeRun r ∧ ((r 21).servers 1).role = .leader ∧
      ∃ p ∈ (r 21).net, ∃ args reply, p.message = .appendEntriesReply args reply ∧
        p.caller = 1 ∧ p.epoch = ((r 21).servers 1).epoch ∧
        args.term = ((r 21).servers 1).currentTerm ∧ reply.conflict = true ∧ reply.xTerm = 1 ∧
        ((r 21).servers 1).logs.entries = [⟨2, 2, none⟩] ∧
        Server.findLastLogInXTerm ((r 21).servers 1).logs reply.xTerm
          ((r 21).servers 1).logs.getLastLog.index = none := by
  have hp : (⟨1, 0, 0, .appendEntriesReply ⟨2, 1, 2, 2, [], 2⟩
      ⟨2, false, true, 1, 0, 2⟩⟩ : Packet 3 Bool) ∈
      (trace Cluster.step (Cluster.init 3 Bool) (compactedRun 0 1 2) 21).net := by decide
  exact ⟨_, ⟨trace_zero _ _, trace_isRun (by decide)⟩, by decide, _, hp, _, _, rfl, rfl,
    by decide, by decide, rfl, rfl, by decide,
    Server.findLastLogInXTerm_eq_none (by decide) (by decide) (by decide) (by decide)⟩

/-! Heartbeat rounds between a leader and one follower. -/

/-- How a heartbeat round ends for one peer. -/
inductive Outcome where
  | success | failure | snapshot
  deriving DecidableEq, Repr

/-- One heartbeat of a leader to one peer without message loss: the request, the handler of the
peer and the processing of its reply. -/
def heartbeatRound (me peer : Fin n) (leader follower : Server n C) :
    Option (Server n C × Server n C × Outcome) := do
  match ← leader.requestTo me peer with
  | .appendEntries args =>
    let (follower, reply) ← follower.appendEntriesRpc args
    let leader ← leader.appendEntriesReply me peer args reply
    some (leader, follower, if reply.success then .success else .failure)
  | .installSnapshot args =>
    let (follower, reply) := follower.installSnapshot args
    some (leader.installSnapshotReply peer args reply, follower, .snapshot)
  | _ => none

/-- Heartbeat rounds until one of them succeeds, at most `fuel` many. -/
def backUp (me peer : Fin n) : ℕ → Server n C → Server n C → Option (Server n C × Server n C)
  | 0, _, _ => none
  | fuel + 1, leader, follower => do
    match ← heartbeatRound me peer leader follower with
    | (leader, follower, .success) => some (leader, follower)
    | (leader, follower, _) => backUp me peer fuel leader follower

/-- A round that has to be followed by another one. -/
def Retry (me peer : Fin n) (s s' : Server n C × Server n C) : Prop :=
  ∃ o, heartbeatRound me peer s.1 s.2 = some (s'.1, s'.2, o) ∧ o ≠ .success

/-- The entries of term `t` start at index `i`. -/
def Log.StartsTerm (l : Log C) (t i : ℕ) : Prop :=
  (∃ e, l.get? i = some e ∧ e.term = t) ∧ ∀ j e, l.get? j = some e → e.term = t → i ≤ j

theorem Log.exists_startsTerm {l : Log C} {p : ℕ} {e : Entry C} (h : l.get? p = some e) :
    ∃ i ≤ p, l.StartsTerm e.term i := by
  classical
  have hex : ∃ i, ∃ x, l.get? i = some x ∧ x.term = e.term := ⟨p, e, h, rfl⟩
  exact ⟨Nat.find hex, Nat.find_min' hex ⟨e, h, rfl⟩, Nat.find_spec hex,
    fun j x hx ht => Nat.find_min' hex ⟨x, hx, ht⟩⟩

/-- A leader and a follower of its term with logs that one leader per term allows. -/
structure Facing (leader follower : Server n C) : Prop where
  leader_first : leader.logs.getFirstLog.index = 0 ∧ leader.logs.getFirstLog.term = 0
  follower_first : follower.logs.getFirstLog.index = 0 ∧ follower.logs.getFirstLog.term = 0
  leader_consecutive : leader.logs.Consecutive
  follower_consecutive : follower.logs.Consecutive
  leader_sorted : leader.TermsSorted
  follower_sorted : follower.TermsSorted
  logMatching : ∀ i a b, leader.logs.get? i = some a → follower.logs.get? i = some b →
    a.term = b.term → ∀ j ≤ i, leader.logs.get? j = follower.logs.get? j
  starts : ∀ t i j, leader.logs.StartsTerm t i → follower.logs.StartsTerm t j → i = j
  term : follower.currentTerm = leader.currentTerm

namespace Server
variable {rf : Server n C} {me peer : Fin n} {args : AppendEntriesArgs n C}
  {reply : AppendEntriesReply}

theorem leaderCommitLog_returns (me : Fin n) (rf : Server n C) (hc : rf.logs.Contiguous)
    (hfirst : rf.logs.getFirstLog.index ≤ rf.commitIndex) :
    ∃ rf', rf.leaderCommitLog me = some rf' ∧ rf'.logs = rf.logs ∧
      rf'.currentTerm = rf.currentTerm ∧ rf'.nextIndex = rf.nextIndex := by
  obtain ⟨rf', hrf'⟩ := Option.isSome_iff_exists.mp (leaderCommitLog_isSome hc hfirst)
  obtain ⟨-, ht, hl, hn⟩ := leaderCommitLog_frame hrf'
  exact ⟨rf', hrf', hl, ht, hn⟩

theorem appendEntriesReply_failure (me : Fin n) (hc : rf.logs.Contiguous)
    (hfirst : rf.logs.getFirstLog.index ≤ rf.commitIndex) (hreply : reply.term ≤ rf.currentTerm)
    (hterm : args.term = rf.currentTerm) (hsucc : reply.success = false) {v : ℤ}
    (hv : rf.backOff peer reply = some v) :
    ∃ rf', rf.appendEntriesReply me peer args reply = some rf' ∧ rf'.logs = rf.logs ∧
      rf'.currentTerm = rf.currentTerm ∧ rf'.nextIndex peer = v := by
  obtain ⟨rf', hrf', hl, ht, hn⟩ := leaderCommitLog_returns me
    { rf with nextIndex := Function.update rf.nextIndex peer v } hc hfirst
  refine ⟨rf', ?_, hl, ht, ?_⟩
  · unfold appendEntriesReply
    rw [if_neg (not_lt.mpr hreply), if_pos hterm, hsucc, if_neg Bool.false_ne_true, hv]
    exact hrf'
  · rw [hn]
    exact Function.update_self _ _ _

theorem appendEntriesReply_success (me peer : Fin n) (reply : AppendEntriesReply)
    (hc : rf.logs.Contiguous) (hfirst : rf.logs.getFirstLog.index ≤ rf.commitIndex)
    (hreply : reply.term ≤ rf.currentTerm) (hterm : args.term = rf.currentTerm)
    (hsucc : reply.success = true) :
    ∃ rf', rf.appendEntriesReply me peer args reply = some rf' ∧ rf'.logs = rf.logs := by
  unfold appendEntriesReply
  rw [if_neg (not_lt.mpr hreply), if_pos hterm, if_pos hsucc]
  obtain ⟨rf', hrf', hl, -, -⟩ := leaderCommitLog_returns me { rf with
    nextIndex := Function.update rf.nextIndex peer
      (max (rf.nextIndex peer) ((args.prevLogIndex : ℤ) + args.entries.length + 1))
    matchIndex := Function.update rf.matchIndex peer
      (max (rf.matchIndex peer) ((args.prevLogIndex : ℤ) + args.entries.length)) } hc hfirst
  exact ⟨rf', hrf', hl⟩

end Server

namespace Facing
variable {leader leader' follower follower' : Server n C} {me peer : Fin n}

theorem congr (h : Facing leader follower) (hl : leader'.logs = leader.logs)
    (ht : leader'.currentTerm = leader.currentTerm) (hl' : follower'.logs = follower.logs)
    (ht' : follower'.currentTerm = follower.currentTerm) : Facing leader' follower' where
  leader_first := hl ▸ h.leader_first
  follower_first := hl' ▸ h.follower_first
  leader_consecutive := hl ▸ h.leader_consecutive
  follower_consecutive := hl' ▸ h.follower_consecutive
  leader_sorted := by
    rw [Server.TermsSorted, hl]
    exact h.leader_sorted
  follower_sorted := by
    rw [Server.TermsSorted, hl']
    exact h.follower_sorted
  logMatching := by
    rw [hl, hl']
    exact h.logMatching
  starts := by
    rw [hl, hl']
    exact h.starts
  term := by rw [ht, ht', h.term]

theorem leader_first_le (h : Facing leader follower) (i : ℕ) :
    leader.logs.getFirstLog.index ≤ i := by
  rw [h.leader_first.1]
  exact Nat.zero_le i

theorem follower_first_le (h : Facing leader follower) (i : ℕ) :
    follower.logs.getFirstLog.index ≤ i := by
  rw [h.follower_first.1]
  exact Nat.zero_le i

/-- Where the logs conflict, the leader has the term of the follower only below. -/
theorem lt_of_conflict (h : Facing leader follower) {p v : ℕ} {a b e : Entry C}
    (ha : leader.logs.get? p = some a) (hb : follower.logs.get? p = some b)
    (hne : b.term ≠ a.term) (he : leader.logs.get? v = some e) (ht : e.term = b.term) : v < p := by
  by_contra hle
  rw [not_lt] at hle
  obtain ⟨i, -, hi⟩ := Log.exists_startsTerm he
  obtain ⟨j, hj, hs⟩ := Log.exists_startsTerm hb
  rw [ht] at hi
  obtain rfl := h.starts _ _ _ hi hs
  obtain ⟨x, hx, hxt⟩ := hi.1
  have hlow := h.leader_sorted.get? hx ha hj
  have hhigh := h.leader_sorted.get? ha he hle
  omega

/-- A failed request lowers `nextIndex`. -/
theorem backOff_lt (h : Facing leader follower) {p : ℕ} (hp : leader.nextIndex peer = p + 1)
    {a b : Entry C} (ha : leader.logs.get? p = some a) (hb : follower.logs.get? p = some b)
    (hne : b.term ≠ a.term) {reply : AppendEntriesReply} (hconf : reply.conflict = true)
    (hx : reply.xTerm = b.term) (hi : reply.xIndex < p) :
    ∃ v, leader.backOff peer reply = some v ∧ v < leader.nextIndex peer := by
  have hc := h.leader_consecutive.contiguous
  obtain ⟨v, hv, hlast⟩ := Server.findLastLogInXTerm_spec hc h.leader_sorted (t := reply.xTerm)
    (Or.inl (h.leader_first_le 1)) le_rfl
    fun j e hj he => absurd (hc.get?_index he).2.2 (not_le.mpr hj)
  unfold Server.backOff
  rw [if_pos hconf, if_neg (by omega), hv]
  refine ⟨_, rfl, ?_⟩
  rcases hlast with ⟨i, e, rfl, he, ht, -⟩ | ⟨rfl, -⟩
  · have hlt := h.lt_of_conflict ha hb hne he (by omega)
    split_ifs <;> omega
  · rw [if_neg (by decide)]
    omega

/-- The log of the follower after a request that matched at `p`. -/
theorem agree_of_updates (h : Facing leader follower) {p : ℕ} {a b : Entry C}
    (ha : leader.logs.get? p = some a) (hb : follower.logs.get? p = some b)
    (hterm : b.term = a.term) {logs : Log C}
    (hu : follower.logs.Updates logs p (leader.logs.entries.drop (p + 1))) {i : ℕ}
    (hi : i ≤ leader.logs.getLastLog.index) : logs.get? i = leader.logs.get? i := by
  have hc := h.leader_consecutive.contiguous
  rcases Nat.lt_or_ge p i with hlt | hle
  · obtain ⟨e, he⟩ := hc.get?_isSome (h.leader_first_le i) hi
    have hmem : e ∈ leader.logs.entries.drop (p + 1) := by
      rw [Log.get?_of_le (h.leader_first_le i), h.leader_first.1] at he
      refine List.mem_of_getElem? (i := i - (p + 1)) ?_
      rw [List.getElem?_drop, ← he]
      congr 1
      omega
    obtain ⟨x, hx, ht, hcases⟩ := hu.stored e hmem
    rw [(hc.get?_index he).1] at hx hcases
    rw [hx, he]
    rcases hcases with rfl | hold
    · rfl
    · -- a kept entry is the one of the leader by Log Matching
      rw [← hold, ← he]
      exact (h.logMatching i e x he hold ht.symm i le_rfl).symm
  · rw [hu.before i hle]
    exact (h.logMatching p a b ha hb hterm.symm i hle).symm

theorem stepDown (h : Facing leader follower) : Facing leader follower.stepDown :=
  h.congr rfl rfl follower.stepDown_logs follower.stepDown_currentTerm

/-- A round in which the follower refuses the request. -/
theorem round_failure (h : Facing leader follower) {args : AppendEntriesArgs n C}
    {reply : AppendEntriesReply} (hreq : leader.requestTo me peer = some (.appendEntries args))
    (hterm : args.term = leader.currentTerm)
    (hacc : follower.stepDown.acceptEntries args = some (follower.stepDown, reply))
    (hreply : reply.term = follower.stepDown.currentTerm) (hsucc : reply.success = false)
    (hv : ∃ v, leader.backOff peer reply = some v ∧ v < leader.nextIndex peer) :
    ∃ leader' follower', heartbeatRound me peer leader follower =
        some (leader', follower', .failure) ∧ leader'.logs = leader.logs ∧
      Facing leader' follower' ∧ leader'.nextIndex peer < leader.nextIndex peer := by
  have hrpc := (Server.appendEntriesRpc_eq (hterm.trans h.term.symm)).trans hacc
  obtain ⟨v, hv, hlt⟩ := hv
  obtain ⟨leader', hret, hl, ht, hn⟩ := Server.appendEntriesReply_failure me
    h.leader_consecutive.contiguous (h.leader_first_le _)
    (hreply.trans h.stepDown.term).le hterm hsucc hv
  refine ⟨leader', follower.stepDown, ?_, hl, h.stepDown.congr hl ht rfl rfl, hn ▸ hlt⟩
  simp only [heartbeatRound, hreq, hrpc, hret, hsucc, Option.bind_eq_bind, Option.bind_some]
  rfl

/-- A round in which the follower stores the suffix of the leader's log. -/
theorem round_success (h : Facing leader follower) {args : AppendEntriesArgs n C} {a b : Entry C}
    (hreq : leader.requestTo me peer = some (.appendEntries args))
    (hargs : args.term = leader.currentTerm)
    (hentries : args.entries = leader.logs.entries.drop (args.prevLogIndex + 1))
    (ha : leader.logs.get? args.prevLogIndex = some a) (hprev : a.term = args.prevLogTerm)
    (hb : follower.stepDown.logs.get? args.prevLogIndex = some b) (hterm : b.term = a.term) :
    ∃ leader' follower', heartbeatRound me peer leader follower =
        some (leader', follower', .success) ∧ leader'.logs = leader.logs ∧
      ∀ i ≤ leader.logs.getLastLog.index, follower'.logs.get? i = leader.logs.get? i := by
  have hc := h.leader_consecutive.contiguous
  have hc' := h.stepDown.follower_consecutive.contiguous
  obtain ⟨-, hfirst, hlast⟩ := hc'.get?_index hb
  have hes : ∀ k e, args.entries[k]? = some e → e.index = args.prevLogIndex + 1 + k := by
    intro k e he
    rw [hentries, List.getElem?_drop] at he
    rw [h.leader_consecutive _ e he, h.leader_first.1, Nat.zero_add]
  obtain ⟨rf, hstore, hu⟩ := storeEntries_updates hc' hes hfirst hlast
  have hacc := Server.acceptEntries_match hfirst hlast hb (hterm.trans hprev) hstore
  have hrpc := (Server.appendEntriesRpc_eq (hargs.trans h.term.symm)).trans hacc
  obtain ⟨leader', hret, hl⟩ := Server.appendEntriesReply_success me peer
    { term := follower.stepDown.currentTerm, success := true } hc
    (h.leader_first_le _) h.stepDown.term.le hargs rfl
  generalize hrf : (if rf.commitIndex < args.leaderCommit then _ else rf) = follower' at hrpc
  have hlogs : follower'.logs = rf.logs := by
    rw [← hrf]
    split_ifs <;> rfl
  refine ⟨leader', follower', ?_, hl, fun i hi => ?_⟩
  · simp only [heartbeatRound, hreq, hrpc, hret, Option.bind_eq_bind, Option.bind_some]
    rfl
  · rw [hentries] at hu
    rw [hlogs]
    exact h.stepDown.agree_of_updates ha hb hterm hu hi

/-- A round that sends an `AppendEntries` request. -/
theorem round_appendEntries (h : Facing leader follower) (hlow : 1 ≤ leader.nextIndex peer)
    (hhigh : leader.nextIndex peer ≤ leader.logs.getLastLog.index + 1) :
    ∃ leader' follower' o, heartbeatRound me peer leader follower =
        some (leader', follower', o) ∧ leader'.logs = leader.logs ∧
      ((o = .success ∧
        ∀ i ≤ leader.logs.getLastLog.index, follower'.logs.get? i = leader.logs.get? i) ∨
      (o = .failure ∧ 1 < leader.nextIndex peer ∧ Facing leader' follower' ∧
        leader'.nextIndex peer < leader.nextIndex peer)) := by
  have hc := h.leader_consecutive.contiguous
  have hc' := h.stepDown.follower_consecutive.contiguous
  have hzero := h.stepDown.follower_first.1
  obtain ⟨p, hp⟩ : ∃ p : ℕ, leader.nextIndex peer = p + 1 :=
    ⟨(leader.nextIndex peer - 1).toNat, by omega⟩
  obtain ⟨a, ha, hreq⟩ := Server.requestTo_appendEntries me hc
    (by rw [h.leader_first.1]; omega) hhigh
  have hpred : (leader.nextIndex peer - 1).toNat = p := by omega
  rw [hpred, h.leader_first.1, Nat.sub_zero] at hreq
  rw [hpred] at ha
  rw [(hc.get?_index ha).1] at hreq
  by_cases hlast : follower.stepDown.logs.getLastLog.index < p
  · -- the follower is short: back to its last index
    have hlen := hc'.length
    obtain ⟨leader', follower', hround, hl, hf, hn⟩ := h.round_failure hreq rfl
      (Server.acceptEntries_short (h.stepDown.follower_first_le _) hlast) rfl rfl
      ⟨_, rfl, by push_cast; omega⟩
    exact ⟨leader', follower', _, hround, hl, Or.inr ⟨rfl, by omega, hf, hn⟩⟩
  rw [not_lt] at hlast
  obtain ⟨b, hb⟩ := hc'.get?_isSome (h.stepDown.follower_first_le p) hlast
  by_cases hterm : b.term = a.term
  · obtain ⟨leader', follower', hround, hl, hagree⟩ := h.round_success hreq rfl rfl ha rfl hb hterm
    exact ⟨leader', follower', _, hround, hl, Or.inl ⟨rfl, hagree⟩⟩
  · have hpos : p ≠ 0 := by
      rintro rfl
      -- both logs start with the dummy entry
      have hfirst := leader.logs.get?_first
      have hfirst' := follower.stepDown.logs.get?_first
      rw [h.leader_first.1, ha] at hfirst
      rw [hzero, hb] at hfirst'
      apply hterm
      rw [Option.some.inj hfirst, Option.some.inj hfirst', h.leader_first.2,
        h.stepDown.follower_first.2]
    obtain ⟨leader', follower', hround, hl, hf, hn⟩ := h.round_failure hreq rfl
      (Server.acceptEntries_conflict (h.stepDown.follower_first_le _) hlast hb hterm) rfl rfl
      (h.stepDown.backOff_lt hp ha hb hterm rfl rfl (Server.findXIndex_lt _ _ _))
    exact ⟨leader', follower', _, hround, hl, Or.inr ⟨rfl, by omega, hf, hn⟩⟩

/-- A round that sends the snapshot: index 0 is below every commit index, so that the follower
ignores it. -/
theorem round_snapshot (h : Facing leader follower) (hlow : leader.nextIndex peer ≤ 0) :
    ∃ leader' follower', heartbeatRound me peer leader follower =
        some (leader', follower', .snapshot) ∧ leader'.logs = leader.logs ∧
      Facing leader' follower' ∧ leader'.nextIndex peer = 1 := by
  have hzero := h.leader_first.1
  set args : InstallSnapshotArgs := ⟨leader.currentTerm, leader.logs.getFirstLog.index,
    leader.logs.getFirstLog.term, leader.persister.snapshot⟩
  have hreq : leader.requestTo me peer = some (.installSnapshot args) :=
    Server.requestTo_installSnapshot me (by omega)
  have hfollower : follower.installSnapshot args = (follower, ⟨follower.currentTerm, false⟩) := by
    simp only [Server.installSnapshot, args, hzero, h.term, lt_irrefl, if_false, Nat.zero_le,
      if_true]
  have hreply : leader.installSnapshotReply peer args ⟨follower.currentTerm, false⟩ =
      { leader with
        nextIndex := Function.update leader.nextIndex peer 1
        matchIndex := Function.update leader.matchIndex peer 0 } := by
    simp only [Server.installSnapshotReply, args, hzero, h.term, lt_irrefl, if_false]
    rfl
  refine ⟨leader.installSnapshotReply peer args ⟨follower.currentTerm, false⟩, follower,
    ?_, ?_, ?_, ?_⟩
  · simp only [heartbeatRound, hreq, hfollower, Option.bind_eq_bind, Option.bind_some]
  · rw [hreply]
  · rw [hreply]
    exact h.congr rfl rfl rfl rfl
  · rw [hreply]
    exact Function.update_self _ _ _

/-- Every round of a leader that faces the follower. -/
theorem round (me : Fin n) (h : Facing leader follower)
    (hhigh : leader.nextIndex peer ≤ leader.logs.getLastLog.index + 1) :
    ∃ leader' follower' o, heartbeatRound me peer leader follower =
        some (leader', follower', o) ∧ leader'.logs = leader.logs ∧
      ((o = .success ∧
        ∀ i ≤ leader.logs.getLastLog.index, follower'.logs.get? i = leader.logs.get? i) ∨
      (o = .failure ∧ 1 < leader.nextIndex peer ∧ Facing leader' follower' ∧
        leader'.nextIndex peer < leader.nextIndex peer) ∨
      (o = .snapshot ∧ leader.nextIndex peer ≤ 0 ∧ Facing leader' follower' ∧
        leader'.nextIndex peer = 1)) := by
  by_cases hlow : 1 ≤ leader.nextIndex peer
  · obtain ⟨leader', follower', o, hround, hl, hsucc | hfail⟩ := h.round_appendEntries hlow hhigh
    · exact ⟨leader', follower', o, hround, hl, Or.inl hsucc⟩
    · exact ⟨leader', follower', o, hround, hl, Or.inr (Or.inl hfail)⟩
  · have hle : leader.nextIndex peer ≤ 0 := by omega
    obtain ⟨leader', follower', hround, hl, hf, hn⟩ := h.round_snapshot hle
    exact ⟨leader', follower', _, hround, hl, Or.inr (Or.inr ⟨rfl, hle, hf, hn⟩)⟩

/-- The leader still faces the follower after any number of retries. -/
theorem retries (h : Facing leader follower)
    (hhigh : leader.nextIndex peer ≤ leader.logs.getLastLog.index + 1)
    {s : Server n C × Server n C}
    (hs : Relation.ReflTransGen (Retry me peer) (leader, follower) s) :
    Facing s.1 s.2 ∧ s.1.nextIndex peer ≤ s.1.logs.getLastLog.index + 1 := by
  induction hs with
  | refl => exact ⟨h, hhigh⟩
  | tail _ hstep ih =>
    obtain ⟨hf, hle⟩ := ih
    obtain ⟨o, hround, ho⟩ := hstep
    obtain ⟨leader', follower', o', hround', hl, hcases⟩ := hf.round me hle
    rw [hround'] at hround
    obtain ⟨rfl, rfl, rfl⟩ : leader' = _ ∧ follower' = _ ∧ o' = o := by simpa using hround
    rcases hcases with ⟨rfl, -⟩ | ⟨-, -, hf', hn⟩ | ⟨-, -, hf', hn⟩
    · exact absurd rfl ho
    · exact ⟨hf', by rw [hl]; omega⟩
    · exact ⟨hf', by rw [hn]; omega⟩

/-- A round from index 1 succeeds; a lower index needs the snapshot first, a higher one at most
as many failures as it lies above 1. -/
theorem backUp_returns (h : Facing leader follower)
    (hhigh : leader.nextIndex peer ≤ leader.logs.getLastLog.index + 1) {fuel : ℕ}
    (hone : 1 ≤ fuel) (hlow : leader.nextIndex peer ≤ 0 → 2 ≤ fuel)
    (hmany : 1 < leader.nextIndex peer → leader.nextIndex peer + 1 ≤ fuel) :
    ∃ leader' follower', backUp me peer fuel leader follower = some (leader', follower') ∧
      leader'.logs = leader.logs ∧
      ∀ i ≤ leader.logs.getLastLog.index, follower'.logs.get? i = leader.logs.get? i := by
  induction fuel generalizing leader follower with
  | zero => omega
  | succ fuel ih =>
    obtain ⟨leader₁, follower₁, o, hround, hl, hcases⟩ := h.round me hhigh
    unfold backUp
    rw [hround]
    simp only [Option.bind_eq_bind, Option.bind_some]
    rcases hcases with ⟨rfl, hagree⟩ | ⟨rfl, hgt, hf, hn⟩ | ⟨rfl, hle, hf, hn⟩
    · exact ⟨leader₁, follower₁, rfl, hl, hagree⟩
    · rw [← hl] at hhigh ⊢
      have hfuel := hmany hgt
      push_cast at hfuel
      exact ih hf (by omega) (by omega) (by omega) (by omega)
    · rw [← hl] at hhigh ⊢
      have hfuel := hlow hle
      exact ih hf (by omega) (by omega) (by omega) (by omega)

end Facing

/-- The fast back-up of a leader that faces a follower: after any number of rounds without
success the next round is defined and lowers `nextIndex` if it is a refused `AppendEntries`
request, and after at most `nextIndex + 2` rounds one succeeds and the follower agrees with the
leader up to the leader's last index. -/
theorem fast_backUp_converges {leader follower : Server n C} (me peer : Fin n)
    (h : Facing leader follower) (hlow : 0 ≤ leader.nextIndex peer)
    (hhigh : leader.nextIndex peer ≤ leader.logs.getLastLog.index + 1) :
    (∀ leader₁ follower₁, Relation.ReflTransGen (Retry me peer) (leader, follower)
        (leader₁, follower₁) →
      ∃ leader₂ follower₂ o,
        heartbeatRound me peer leader₁ follower₁ = some (leader₂, follower₂, o) ∧
        (o = .failure → leader₂.nextIndex peer < leader₁.nextIndex peer)) ∧
    ∃ leader' follower',
      backUp me peer ((leader.nextIndex peer).toNat + 2) leader follower =
        some (leader', follower') ∧ leader'.logs = leader.logs ∧
      ∀ i ≤ leader.logs.getLastLog.index, follower'.logs.get? i = leader.logs.get? i := by
  constructor
  · intro leader₁ follower₁ hs
    obtain ⟨hf, hle⟩ := h.retries hhigh hs
    obtain ⟨leader₂, follower₂, o, hround, -, hcases⟩ := hf.round me hle
    refine ⟨leader₂, follower₂, o, hround, fun ho => ?_⟩
    rcases hcases with ⟨rfl, -⟩ | ⟨-, -, -, hn⟩ | ⟨rfl, -⟩
    · cases ho
    · exact hn
    · cases ho
  · exact h.backUp_returns hhigh (by omega) (fun _ => by omega) (fun _ => by omega)

/-- A leader of term 5 that starts the back-up of server 1 at the end of its log. -/
def newLeader : Server 3 Bool :=
  { Server.make {} 0 with
    role := .leader
    currentTerm := 5
    logs := ⟨[⟨0, 0, none⟩, ⟨1, 1, some true⟩, ⟨2, 1, some true⟩, ⟨3, 4, some true⟩,
      ⟨4, 4, some true⟩], by simp⟩
    nextIndex := fun _ => 5 }

/-- A follower of term 5 with entries of two leaders that did not get them replicated. -/
def oldFollower : Server 3 Bool :=
  { Server.make {} 0 with
    currentTerm := 5
    logs := ⟨[⟨0, 0, none⟩, ⟨1, 1, some true⟩, ⟨2, 1, some true⟩, ⟨3, 2, some false⟩,
      ⟨4, 3, some false⟩, ⟨5, 3, some false⟩], by simp⟩ }

theorem facing_newLeader : Facing newLeader oldFollower where
  leader_first := by decide
  follower_first := by decide
  leader_consecutive := by decide
  follower_consecutive := by decide
  leader_sorted := by decide
  follower_sorted := by decide
  logMatching := by
    have hc : newLeader.logs.Consecutive := by decide
    have hlogs : ∀ i < 5, (newLeader.logs.get? i).map Entry.term =
        (oldFollower.logs.get? i).map Entry.term →
        ∀ j < i + 1, newLeader.logs.get? j = oldFollower.logs.get? j := by decide
    intro i a b ha hb hab j hj
    have hi : i ≤ 4 := (hc.contiguous.get?_index ha).2.2
    exact hlogs i (by omega) (by rw [ha, hb, Option.map_some, Option.map_some, hab]) j (by omega)
  starts := by
    have hc : newLeader.logs.Consecutive := by decide
    have hc' : oldFollower.logs.Consecutive := by decide
    have hlogs : ∀ i < 5, ∀ j < 6, (newLeader.logs.get? i).map Entry.term =
        (oldFollower.logs.get? j).map Entry.term →
        i = j ∨ (i = 1 ∧ j = 2) ∨ (i = 2 ∧ j = 1) := by decide
    rintro t i j ⟨⟨a, ha, rfl⟩, hmin⟩ ⟨⟨b, hb, hab⟩, hmin'⟩
    have hi : i ≤ 4 := (hc.contiguous.get?_index ha).2.2
    have hj : j ≤ 5 := (hc'.contiguous.get?_index hb).2.2
    rcases hlogs i (by omega) j (by omega)
      (by rw [ha, hb, Option.map_some, Option.map_some, hab]) with h | ⟨rfl, rfl⟩ | ⟨rfl, rfl⟩
    · exact h
    · cases ha
      exact absurd (hmin' 1 _ rfl rfl) (by decide)
    · cases ha
      exact absurd (hmin 1 _ rfl rfl) (by decide)
  term := rfl

theorem fast_backUp_converges_newLeader :
    ∃ leader' follower', backUp 0 1 7 newLeader oldFollower = some (leader', follower') ∧
      leader'.logs = newLeader.logs ∧
      ∀ i ≤ 4, follower'.logs.get? i = newLeader.logs.get? i :=
  (fast_backUp_converges 0 1 facing_newLeader (by decide) (by decide)).2

end RaftLabs.Raft
