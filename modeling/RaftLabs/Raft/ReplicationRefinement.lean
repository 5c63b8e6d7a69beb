import RaftLabs.Raft.View
import RaftLabs.Raft.Handlers

/-! Log replication refines the moves of the replicated log: a successful `AppendEntries` is an
acceptance, `Start` an append, and `leaderCommitLog` a sequence of commits. -/
namespace RaftLabs.Raft
open Basis Basis.Ledger Relation

variable {n : ℕ} {C : Type} {g : Ghost n C} {i : Fin n} {rf rf' : Server n C} (clean : Prop)

section Store
variable {l L : List (Item (Option C))} {p : ℕ} {es rest : List (Entry C)} {e : Entry C}

theorem take_append_slice
    (hes : ∀ {k e}, es[k]? = some e → e.index = p + 1 + k ∧ L[p + 1 + k]? = some e.item) :
    L.take (p + 1) ++ es.map Entry.item = L.take (p + 1 + es.length) := by
  rw [List.take_add (i := p + 1), List.append_cancel_left_eq]
  apply List.ext_getElem?
  intro k
  rw [List.getElem?_map]
  by_cases hk : k < es.length
  · rw [List.getElem?_take_of_lt hk, List.getElem?_drop,
      (hes (List.getElem?_eq_getElem hk)).2, List.getElem?_eq_getElem hk]
    rfl
  · rw [List.getElem?_eq_none (by omega), List.getElem?_eq_none (by simp; omega)]
    rfl

/-- The loop leaves a log that holds the entries alone and otherwise cuts it down to the
leader's log as far as the request goes. By induction on the entries: `p` is the last
position known to agree with the leader's log `L`. -/
theorem storeEntries_spec (h : rf.storeEntries es = some rf') (hv : LogView l rf.logs)
    (hfirst : rf.logs.getFirstLog.index ≤ p) (hpL : p < L.length) (hp : L.take (p + 1) <+: l)
    (hmatch : ∀ {q t}, termAt l q = some t → termAt L q = some t → L.take (q + 1) <+: l)
    (hes : ∀ {k e}, es[k]? = some e → e.index = p + 1 + k ∧ L[p + 1 + k]? = some e.item) :
    (rf' = rf ∧ L.take (p + 1 + es.length) <+: l) ∨
      (¬ L.take (p + 1 + es.length) <+: l ∧ ∃ logs, rf' = Server.persist { rf with logs } ∧
        LogView (L.take (p + 1 + es.length)) logs ∧ logs.getFirstLog = rf.logs.getFirstLog) := by
  induction es generalizing p with
  | nil => exact Or.inl ⟨by simpa [Server.storeEntries, eq_comm] using h, hp⟩
  | cons e rest ih =>
    obtain ⟨hei, heL⟩ := hes (k := 0) (by rfl : (e :: rest)[0]? = some e)
    rw [Nat.add_zero] at hei heL
    have hlast := hv.getLastLog_index
    have hpl := hp.length_le
    have hpL' := (List.getElem?_eq_some_iff.mp heL).1
    rw [List.length_take] at hpl
    have htake := take_append_slice (fun {k e} => hes (k := k) (e := e))
    have hindex : ∀ {k e'}, (e :: rest)[k]? = some e' → e'.index = (L.take (p + 1)).length + k := by
      intro k e' he'
      rw [(hes he').1, List.length_take]
      omega
    rcases Server.storeEntries_cons h (by omega) with
      ⟨hlt, rfl⟩ | ⟨hle, x, hx, ⟨hterm, hrec⟩ | ⟨hterm, logs, hlogs, hnext⟩⟩
    · -- the log ends at `p`
      have hl : L.take (p + 1) = l := hp.eq_of_length (by simp; omega)
      refine Or.inr ⟨fun hc => ?_, _, rfl, ?_, Log.getFirstLog_append _ _⟩
      · have := hc.length_le
        simp only [List.length_take, List.length_cons] at this
        omega
      · rw [← htake]
        rw [← hl] at hv
        exact hv.append hindex
    · -- the entry is there: the logs agree one position further
      obtain ⟨-, -, hxt, -⟩ := hv.get?_spec hx
      have hLt : termAt L (p + 1) = some e.term := termAt_eq_some.mpr ⟨_, heL, rfl⟩
      rw [hei, hterm] at hxt
      have hrest := ih hrec (by omega) hpL' (hmatch hxt hLt) (p := p + 1) (fun {k e'} he' => by
        have := hes (k := k + 1) (e := e') (by simpa using he')
        rwa [show p + 1 + (k + 1) = p + 1 + 1 + k by omega] at this)
      rwa [List.length_cons, show p + 1 + (rest.length + 1) = p + 1 + 1 + rest.length by omega]
    · -- a conflicting entry is there
      obtain ⟨-, -, hxt, -⟩ := hv.get?_spec hx
      rw [hei] at hxt hlogs
      obtain ⟨hv', hfirst'⟩ := hv.takeTo hlogs (by omega) (by omega)
      have hl : l.take (p + 1) = L.take (p + 1) := by
        refine (List.prefix_of_prefix_length_le (List.take_prefix _ l) hp ?_).eq_of_length ?_
        · simp
          omega
        · simp
          omega
      rw [hl] at hv'
      have hlast' := hv'.getLastLog_index
      rw [List.length_take] at hlast'
      refine Or.inr ⟨fun hc => hterm ?_, _, hnext (by omega), ?_, ?_⟩
      · have hget := prefix_getElem? hc (i := p + 1) (by simp; omega)
        rw [List.getElem?_take_of_lt (by simp), heL] at hget
        rw [termAt, hget] at hxt
        exact (Option.some.inj hxt).symm
      · rw [← htake]
        exact hv'.append hindex
      · rw [Log.getFirstLog_append, hfirst']

end Store

/-- Candidate rule 3: a candidate that hears from the leader of its term steps down. -/
theorem View.stepDown (h : View g i rf) : View g i { rf with role := .follower } :=
  { h with
    leads := by intro hr; cases hr
    candidate := by intro hr; cases hr }

theorem View.raiseCommit (h : View g i rf) {k : ℕ} (hk : rf.commitIndex ≤ k)
    (hs : g.Settled rf.currentTerm (k + 1) (g.log i)) : View g i { rf with commitIndex := k } :=
  { h with
    horizon_le := h.horizon_le.trans hk
    settled := hs
    leads := by
      intro hr
      obtain ⟨hl, hc, ha⟩ := h.leads hr
      refine ⟨hl, hc.trans (by simpa using hk), fun p => (ha p).imp_left fun hle => ?_⟩
      exact hle.trans (by exact_mod_cast hk) }

/-- Changing the retained log to what the server has accepted. -/
theorem View.accept (h : View g i rf) (hi : g.Inv) {m : ℕ} (h0 : 0 < m)
    (hm : m ≤ (g.llog rf.currentTerm).length) {l : List (Item (Option C))}
    (ha : g.Accepted i rf.currentTerm m l) {logs : Log C} {persister : Persister n C}
    (hlog : LogView l logs)
    (hfirst : logs.getFirstLog = rf.logs.getFirstLog)
    (hpers : persister.raftstate = some ⟨rf.currentTerm, rf.votedFor, logs⟩ ∨
      (persister.raftstate = none ∧
        (⟨rf.currentTerm, rf.votedFor, logs⟩ : RaftState n C) = ⟨0, none, Log.fresh⟩)) :
    View (g.accept i rf.currentTerm m l) i { rf with logs, persister } :=
  have gr : Grows g (g.accept i rf.currentTerm m l) := grows_accept h.term
  have heq := accept_log g i rf.currentTerm m l
  { h with
    log := by rw [heq]; exact hlog
    base := by
      rw [hfirst]
      exact h.base
    first_le := by
      rw [hfirst]
      exact h.first_le
    settled := by
      rw [heq]
      exact hi.settled_accept h0 hm (Nat.succ_pos _) ha h.settled
    leads := fun hr => ((h.leads hr).grows gr rfl rfl).congr rfl rfl rfl
    batch := fun he => (h.batch he).imp_right (hi.committed_mono gr le_rfl)
    applied := fun hm => (h.applied hm).imp_right (hi.committed_mono gr le_rfl)
    installs := fun hm => covered_mono hi gr le_rfl (h.installs hm)
    persister := hpers }

section Handler
variable {args : AppendEntriesArgs n C} {reply : AppendEntriesReply}

/-- The entries of an accepted request are stored. -/
theorem View.storeEntries (h : View g i rf) (hi : g.Inv)
    (hslice : SliceOf (g.llog rf.currentTerm) args) {prev : Entry C}
    (hprev : rf.logs.get? args.prevLogIndex = some prev) (hterm : prev.term = args.prevLogTerm)
    (hs : rf.storeEntries args.entries = some rf') :
    ∃ l, g.Accepted i rf.currentTerm (args.prevLogIndex + 1 + args.entries.length) l ∧
      Move clean i g (g.accept i rf.currentTerm (args.prevLogIndex + 1 + args.entries.length) l) ∧
      View (g.accept i rf.currentTerm (args.prevLogIndex + 1 + args.entries.length) l) i rf' ∧
      Later rf rf' ∧ rf'.currentTerm = rf.currentTerm := by
  obtain ⟨-, hfirst, hpt, -⟩ := h.log.get?_spec hprev
  rw [hterm] at hpt
  have hlen := hslice.length_le
  have hpl := hslice.prev
  have hspec := storeEntries_spec hs h.log hfirst (lt_length_of_termAt hpl)
    (hi.match_prefix h.term hpt hpl) (fun hq hq' => hi.match_prefix h.term hq hq') hslice.entries
  rcases hspec with ⟨rfl, hp⟩ | ⟨hnp, logs, rfl, hlog, hfirst'⟩
  · have ha : g.Accepted i _ _ _ := Or.inl ⟨hp, rfl⟩
    exact ⟨_, ha, .accept _ _ _ _ _ h.term (by omega) hlen hpt hpl ha,
      h.accept hi (by omega) hlen ha h.log rfl h.persister, Later.refl _, rfl⟩
  · have ha : g.Accepted i _ _ _ := Or.inr ⟨hnp, rfl⟩
    exact ⟨_, ha, .accept _ _ _ _ _ h.term (by omega) hlen hpt hpl ha,
      h.accept hi (by omega) hlen ha hlog hfirst' (Or.inl rfl), ⟨rfl, le_rfl, rfl⟩, rfl⟩

/-- The handler in the term of the request is an acceptance or changes nothing. -/
theorem View.acceptEntries (h : View g i rf) (hi : g.Inv) (ht : args.term = rf.currentTerm)
    (hr : Replicates g args) (hs : rf.acceptEntries args = some (rf', reply)) :
    ∃ g', Moves clean i g g' ∧ View g' i rf' ∧ Later rf rf' ∧
      (reply.success → args.prevLogIndex + args.entries.length < g'.acked i args.term ∨
        args.prevLogIndex + args.entries.length < g'.commit args.term) := by
  rcases Server.acceptEntries_cases hs with ⟨hf, rfl⟩ | ⟨-, prev, rf₁, hprev, hterm, hstore, rfl⟩
  · exact ⟨g, .refl, h, Later.refl _, by simp [hf]⟩
  obtain ⟨hslice, hle, T, hT, hc⟩ := hr
  rw [ht] at hslice hT
  obtain ⟨l, hacc, hmove, hview, hlater, hcur⟩ := h.storeEntries clean hi hslice hprev hterm hstore
  have hlen := hslice.length_le
  have hcounts := hi.accept_counts h.term (by omega) hlen hacc
  refine ⟨_, .single hmove, ?_, ?_, fun _ => ?_⟩
  · split_ifs with hlt
    · -- the leader's commit index lies within the request, hence within the log
      have hsettled := hi.settled_accepted (s := i) hT (Nat.succ_le_of_lt hc) (Nat.succ_pos _)
        (by omega) hlen hacc
      have hlast := hview.lastIndex
      have := (hi.move hmove).1.settled_length hsettled
      rw [min_eq_left (by omega)]
      exact hview.raiseCommit hlt.le (by rw [hcur]; exact hsettled)
    · exact hview
  · split_ifs with hlt
    · refine ⟨hlater.epoch, hlater.commitIndex.trans ?_, hlater.elections⟩
      have := hview.commit_lt (hi.move hmove).1
      have := hview.lastIndex
      simp only [le_min_iff]
      omega
    · exact hlater
  · rw [ht]
    exact hcounts.imp (by omega) (fun h => by change _ < g.commit _; omega)

/-- The `AppendEntries` handler. -/
theorem View.appendEntriesRpc (h : View g i rf) (hi : g.Inv) (hr : Replicates g args)
    (hs : rf.appendEntriesRpc args = some (rf', reply)) :
    ∃ g', Moves clean i g g' ∧ View g' i rf' ∧ Later rf rf' ∧
      (reply.success → args.prevLogIndex + args.entries.length < g'.acked i args.term ∨
        args.prevLogIndex + args.entries.length < g'.commit args.term) := by
  simp only [Server.appendEntriesRpc] at hs
  by_cases h₁ : args.term < rf.currentTerm
  · rw [if_pos h₁] at hs
    obtain ⟨rfl, rfl⟩ := Prod.mk.inj (Option.some.inj hs)
    exact ⟨g, .refl, h, Later.refl _, by simp⟩
  rw [if_neg h₁] at hs
  by_cases h₂ : rf.currentTerm < args.term
  · rw [if_pos h₂] at hs
    obtain ⟨rfl, rfl⟩ := Prod.mk.inj (Option.some.inj hs)
    exact ⟨_, .single (.advance _ (h.term.trans_lt h₂)), h.setNewTerm hi h₂, later_setNewTerm _ _,
      by simp⟩
  rw [if_neg h₂] at hs
  by_cases hrole : rf.role = .candidate
  · rw [if_pos hrole] at hs
    obtain ⟨g', hm, hv, hl, hack⟩ := h.stepDown.acceptEntries clean hi (by simp only; omega) hr hs
    exact ⟨g', hm, hv, ⟨hl.epoch, hl.commitIndex, hl.elections⟩, hack⟩
  · rw [if_neg hrole] at hs
    exact h.acceptEntries clean hi (by omega) hr hs

end Handler

section Requests
variable {requests : List (Fin n × Message n C)} {peer : Fin n} {m : Message n C}

/-- A message that a server may send: it is sound, and the snapshot it may carry is one of
committed entries. -/
structure Sendable (g : Ghost n C) (i : Fin n) (rf : Server n C) (peer : Fin n)
    (m : Message n C) : Prop where
  sound : m.Sound g i peer
  snapshot : m.snapshotIndex ≤ rf.commitIndex

theorem View.requestTo (h : View g i rf) (hi : g.Inv) (hrole : rf.role = .leader)
    (hm : rf.requestTo i peer = some m) : Sendable g i rf peer m ∧ m.election = none := by
  have hlog : g.log i = g.llog rf.currentTerm :=
    (hi.leader_log (h.leads hrole).leader).2.2.2 h.term
  simp only [Server.requestTo] at hm
  split_ifs at hm with hlt
  · obtain rfl := Option.some.inj hm
    obtain ⟨x, hx, hxt⟩ := termAt_eq_some.mp h.log.first_term
    have hle := h.first_le_commit
    refine ⟨⟨⟨x, hi.settled_committed h.settled (Nat.lt_succ_of_le hle) hx, hxt⟩, hle⟩, rfl⟩
  · obtain ⟨prev, hprev, hm⟩ := Option.bind_eq_some_iff.mp hm
    obtain rfl := Option.some.inj hm
    obtain ⟨hpi, hfirst, hpt, -⟩ := h.log.get?_spec hprev
    have hlen := h.log.length
    have hlt := lt_length_of_termAt hpt
    have hcommit := h.commit_lt hi
    obtain ⟨T, hT, hc, -⟩ := h.settled
    refine ⟨⟨⟨⟨?_, ?_⟩, ?_, T, hT, hc⟩, Nat.zero_le _⟩, rfl⟩
    · rw [← hlog, hpi]
      exact hpt
    · intro k e he
      rw [List.getElem?_drop] at he
      obtain ⟨hei, x, hx, -, hitem⟩ := h.log.entry he
      have hidx : rf.logs.getFirstLog.index + ((rf.nextIndex peer - 1).toNat -
          rf.logs.getFirstLog.index + 1 + k) = prev.index + 1 + k := by omega
      rw [hidx] at hei hx
      rw [← hlog, hx, hitem (by omega)]
      exact ⟨hei, rfl⟩
    · simp only [List.length_drop]
      omega

theorem View.appendEntries (h : View g i rf) (hi : g.Inv) (hrole : rf.role = .leader)
    {heartbeat : Bool} (hs : rf.appendEntries i heartbeat = some requests)
    (hm : (peer, m) ∈ requests) : Sendable g i rf peer m ∧ m.election = none :=
  h.requestTo hi hrole (Server.mem_appendEntries hs hm)

theorem View.heartbeatTimeout (h : View g i rf) (hi : g.Inv)
    (hs : rf.heartbeatTimeout i = some requests) (hm : (peer, m) ∈ requests) :
    Sendable g i rf peer m ∧ m.election = none := by
  unfold Server.heartbeatTimeout at hs
  split_ifs at hs with hrole
  · exact h.appendEntries hi hrole hs hm
  · obtain rfl := Option.some.inj hs
    cases hm

/-- The leader appends a command to its log. -/
theorem View.append (h : View g i rf) (hi : g.Inv) (hrole : rf.role = .leader)
    (command : Option C) :
    View (g.append i rf.currentTerm command) i (Server.persist { rf with
      logs := rf.logs.append [⟨rf.logs.getLastLog.index + 1, rf.currentTerm, command⟩] }) :=
  have gr : Grows g (g.append i rf.currentTerm command) :=
    hi.grows_append command (h.leads hrole).leader h.term
  have heq : (g.append i rf.currentTerm command).log i = g.log i ++ [⟨rf.currentTerm, command⟩] :=
    Function.update_self _ _ _
  have hentry : ∀ {k e}, ([⟨rf.logs.getLastLog.index + 1, rf.currentTerm, command⟩] :
      List (Entry C))[k]? = some e → e.index = (g.log i).length + k := by
    intro k e he
    cases k with
    | zero =>
      obtain rfl := Option.some.inj he
      exact h.lastIndex
    | succ k => simp at he
  { h with
    log := by
      rw [heq]
      exact h.log.append hentry
    base := by
      simp only [Server.persist, Log.getFirstLog_append]
      exact h.base
    first_le := by
      simp only [Server.persist, Log.getFirstLog_append]
      exact h.first_le
    settled := by
      rw [heq]
      exact hi.settled_mono gr le_rfl (List.prefix_append _ _) h.settled
    leads := fun hr => ((h.leads hr).grows gr rfl rfl).congr rfl rfl rfl
    batch := fun he => (h.batch he).imp_right (hi.committed_mono gr le_rfl)
    applied := fun hm => (h.applied hm).imp_right (hi.committed_mono gr le_rfl)
    installs := fun hm => covered_mono hi gr le_rfl (h.installs hm)
    persister := Or.inl rfl }

theorem View.start (h : View g i rf) (hi : g.Inv) {command : Option C} {result : Option (ℕ × ℕ)}
    (hs : rf.start i command = some (rf', requests, result)) :
    ∃ g', Moves clean i g g' ∧ View g' i rf' ∧ Later rf rf' ∧
      ∀ peer m, (peer, m) ∈ requests → Sendable g' i rf' peer m ∧ m.election = none := by
  simp only [Server.start] at hs
  split_ifs at hs with hrole
  · obtain ⟨rfl, hs'⟩ := Prod.mk.inj (Option.some.inj hs)
    obtain ⟨rfl, -⟩ := Prod.mk.inj hs'
    exact ⟨g, .refl, h, Later.refl _, by simp⟩
  · rw [not_not] at hrole
    obtain ⟨reqs, hreqs, hres⟩ := Option.bind_eq_some_iff.mp hs
    obtain ⟨rfl, hres'⟩ := Prod.mk.inj (Option.some.inj hres)
    obtain ⟨rfl, -⟩ := Prod.mk.inj hres'
    have hmove : Move clean i g (g.append i rf.currentTerm command) :=
      .append _ _ (h.leads hrole).leader h.term
    have hview := h.append hi hrole command
    refine ⟨_, .single hmove, hview, ⟨rfl, le_rfl, rfl⟩, fun peer m hm => ?_⟩
    exact hview.appendEntries (hi.move hmove).1 hrole hreqs hm

end Requests

section Commit

/-- The peers that the leader counts, itself included, are a majority. -/
theorem majority_of_countMatches {matchIndex : Fin n → ℤ} {k : ℕ}
    (h : Server.countMatches i matchIndex k (List.finRange n) 1 = true) :
    Majority (insert i (Finset.univ.filter fun p => p ≠ i ∧ (k : ℤ) ≤ matchIndex p)) := by
  obtain ⟨-, hcount⟩ := Server.countMatches_iff.mp h
  have hcard : (Finset.univ.filter fun p => p ≠ i ∧ (k : ℤ) ≤ matchIndex p).card =
      ((List.finRange n).filter fun p => p ≠ i ∧ (k : ℤ) ≤ matchIndex p).length := rfl
  rw [Majority, Finset.card_insert_of_notMem (by simp), hcard, Fintype.card_fin]
  omega

/-- One iteration of `leaderCommitLog` above the commit index. -/
theorem View.commitAt (h : View g i rf) (hi : g.Inv) (hrole : rf.role = .leader) {k : ℕ}
    (hk : rf.commitIndex < k) (hs : rf.commitAt i k = some rf') :
    ∃ g', Moves clean i g g' ∧ View g' i rf' ∧ Later rf rf' ∧ rf'.role = .leader ∧
      rf'.commitIndex ≤ k := by
  obtain ⟨e, he, hs⟩ := Option.bind_eq_some_iff.mp hs
  split_ifs at hs with hc
  · obtain rfl := Option.some.inj hs
    obtain ⟨hl, hcommit, hacked⟩ := h.leads hrole
    obtain ⟨-, -, hacklen, hlog⟩ := hi.leader_log hl
    have hlog := hlog h.term
    obtain ⟨-, -, het, -⟩ := h.log.get?_spec he
    rw [hlog, hc.1] at het
    have hlen := lt_length_of_termAt het
    have hquorum : ∀ p ∈ insert i (Finset.univ.filter fun p => p ≠ i ∧ (k : ℤ) ≤ rf.matchIndex p),
        k < g.acked p rf.currentTerm := by
      intro p hp
      rcases Finset.mem_insert.mp hp with rfl | hp
      · omega
      · have hp := (Finset.mem_filter.mp hp).2.2
        rcases hacked p with h | h <;> omega
    have hmove : Move clean i g (g.commitTo rf.currentTerm k) :=
      .commitTo _ _ _ hl (majority_of_countMatches hc.2) (by omega) het hquorum
    have gr := (hi.move hmove).2
    have hset : (g.commitTo rf.currentTerm k).commit rf.currentTerm = k + 1 :=
      Function.update_self _ _ _
    refine ⟨_, .single hmove, ?_, ⟨rfl, hk.le, rfl⟩, hrole, le_rfl⟩
    exact { h with
      horizon_le := h.horizon_le.trans hk.le
      settled := by
        refine ⟨_, le_rfl, hset.ge, ?_⟩
        change (g.llog rf.currentTerm).take (k + 1) <+: g.log i
        rw [hlog]
        exact List.take_prefix _ _
      leads := fun _ => ⟨hl, hset.le, fun p => (hacked p).imp_left fun hle => by
        exact hle.trans (by exact_mod_cast hk.le)⟩
      batch := fun he => (h.batch he).imp_right (hi.committed_mono gr le_rfl)
      applied := fun hm => (h.applied hm).imp_right (hi.committed_mono gr le_rfl)
      installs := fun hm => covered_mono hi gr le_rfl (h.installs hm) }
  · obtain rfl := Option.some.inj hs
    exact ⟨g, .refl, h, Later.refl _, hrole, hk.le⟩

/-- The outer loop, by induction on the indexes still to look at. -/
theorem View.commitLoop {count start : ℕ} (h : View g i rf) (hi : g.Inv) (hrole : rf.role = .leader)
    (hk : rf.commitIndex < start)
    (hs : (List.range' start count).foldlM (Server.commitAt i) rf = some rf') :
    ∃ g', Moves clean i g g' ∧ View g' i rf' ∧ Later rf rf' := by
  induction count generalizing g rf start with
  | zero =>
    obtain rfl : rf = rf' := by simpa using hs
    exact ⟨g, .refl, h, Later.refl _⟩
  | succ count ih =>
    rw [List.range'_succ, List.foldlM_cons] at hs
    obtain ⟨rf₁, h₁, hs⟩ := Option.bind_eq_some_iff.mp hs
    obtain ⟨g₁, hm₁, hv₁, hl₁, hr₁, hk₁⟩ := h.commitAt clean hi hrole hk h₁
    obtain ⟨g₂, hm₂, hv₂, hl₂⟩ := ih hv₁ (hi.moves hm₁).1 hr₁ (by omega) hs
    exact ⟨g₂, hm₁.trans hm₂, hv₂, hl₁.trans hl₂⟩

theorem View.leaderCommitLog (h : View g i rf) (hi : g.Inv)
    (hs : rf.leaderCommitLog i = some rf') :
    ∃ g', Moves clean i g g' ∧ View g' i rf' ∧ Later rf rf' := by
  unfold Server.leaderCommitLog at hs
  split_ifs at hs with hrole
  · obtain rfl := Option.some.inj hs
    exact ⟨g, .refl, h, Later.refl _⟩
  · exact h.commitLoop clean hi (by simpa using hrole) (Nat.lt_succ_self _) hs

/-- New values for `nextIndex` and `matchIndex`. -/
theorem View.setMatch (h : View g i rf) (next : Fin n → ℤ) {peer : Fin n} {k : ℤ}
    (hk : rf.role = .leader → k ≤ rf.commitIndex ∨ k < g.acked peer rf.currentTerm) :
    View g i { rf with
      nextIndex := next
      matchIndex := Function.update rf.matchIndex peer k } :=
  { h with
    leads := by
      intro hr
      obtain ⟨hl, hc, ha⟩ := h.leads hr
      refine ⟨hl, hc, fun p => ?_⟩
      by_cases hp : p = peer
      · subst hp
        simpa using hk hr
      · simpa [hp] using ha p }

/-- The reply to an `AppendEntries` call. -/
theorem View.appendEntriesReply {args : AppendEntriesArgs n C} {reply : AppendEntriesReply}
    {peer : Fin n} (h : View g i rf) (hi : g.Inv)
    (hsound : (Message.appendEntriesReply args reply).Sound g i peer)
    (hs : rf.appendEntriesReply i peer args reply = some rf') :
    ∃ g', Moves clean i g g' ∧ View g' i rf' ∧ Later rf rf' := by
  unfold Server.appendEntriesReply at hs
  split_ifs at hs with h₁ h₂ h₃
  · obtain rfl := Option.some.inj hs
    exact ⟨_, .single (.advance _ (h.term.trans_lt h₁)), h.setNewTerm hi h₁, later_setNewTerm _ _⟩
  · have hk : rf.role = .leader →
        max (rf.matchIndex peer) (args.prevLogIndex + args.entries.length) ≤ rf.commitIndex ∨
        max (rf.matchIndex peer) (args.prevLogIndex + args.entries.length) <
          g.acked peer rf.currentTerm := by
      intro hr
      obtain ⟨hl, hc, ha⟩ := h.leads hr
      have hnew := hsound h₃
      rw [h₂] at hnew
      have := ha peer
      omega
    obtain ⟨g', hm, hv, hl⟩ := (h.setMatch _ hk).leaderCommitLog clean hi hs
    exact ⟨g', hm, hv, ⟨hl.epoch, hl.commitIndex, hl.elections⟩⟩
  · obtain ⟨next, -, hs⟩ := Option.bind_eq_some_iff.mp hs
    have hv : View g i { rf with nextIndex := Function.update rf.nextIndex peer next } :=
      { h with leads := fun hr => (h.leads hr).congr rfl rfl rfl }
    obtain ⟨g', hm, hv, hl⟩ := hv.leaderCommitLog clean hi hs
    exact ⟨g', hm, hv, ⟨hl.epoch, hl.commitIndex, hl.elections⟩⟩
  · obtain rfl := Option.some.inj hs
    exact ⟨g, .refl, h, Later.refl _⟩

end Commit

end RaftLabs.Raft
