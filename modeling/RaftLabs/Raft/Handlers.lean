import RaftLabs.Raft.Cluster

/-! What each critical section can do to a server and what one step can do to a cluster, as
case lists that later invariants are checked against. -/
namespace RaftLabs.Raft

variable {n : ℕ} {C : Type}

theorem mem_of_mapM {A B : Type} {f : A → Option B} {as : List A} {bs : List B}
    (h : as.mapM f = some bs) {b : B} (hb : b ∈ bs) : ∃ a ∈ as, f a = some b := by
  induction as generalizing bs with
  | nil =>
    obtain rfl : [] = bs := by simpa using h
    cases hb
  | cons a as ih =>
    rw [List.mapM_cons] at h
    obtain ⟨b₁, hb₁, h⟩ := Option.bind_eq_some_iff.mp h
    obtain ⟨bs₁, hbs₁, h⟩ := Option.bind_eq_some_iff.mp h
    obtain rfl := Option.some.inj h
    rcases List.mem_cons.mp hb with rfl | hb
    · exact ⟨a, List.mem_cons_self, hb₁⟩
    · obtain ⟨a', ha', hf⟩ := ih hbs₁ hb
      exact ⟨a', List.mem_cons_of_mem _ ha', hf⟩

namespace Server
variable {rf rf' : Server n C} {me peer : Fin n} {requests : List (Fin n × Message n C)}

/-- Moving on to the term `T` if it is larger. -/
def catchUp (rf : Server n C) (T : ℕ) : Server n C :=
  if rf.currentTerm < T then rf.setNewTerm T else rf

theorem catchUp_currentTerm (rf : Server n C) {T : ℕ} (h : rf.currentTerm ≤ T) :
    (if rf.currentTerm < T then rf.setNewTerm T else rf).currentTerm = T := by
  split_ifs with hlt
  · rfl
  · omega

theorem catchUp_cases (rf : Server n C) (T : ℕ) :
    rf.catchUp T = rf ∨ (rf.currentTerm < T ∧ rf.catchUp T = rf.setNewTerm T) := by
  unfold catchUp
  split_ifs with h
  · exact Or.inr ⟨h, rfl⟩
  · exact Or.inl rfl

/-- The `RequestVote` handler. -/
theorem requestVote_cases (rf : Server n C) (args : RequestVoteArgs n) :
    (rf.requestVote args).1 = rf ∨ (rf.requestVote args).1 = rf.catchUp args.term ∨
      (rf.requestVote args).1 =
        persist { rf.catchUp args.term with votedFor := some args.candidateId } := by
  by_cases h : args.term < rf.currentTerm ∨ (args.term = rf.currentTerm ∧
      rf.votedFor ≠ none ∧ rf.votedFor ≠ some args.candidateId)
  · exact Or.inl (by rw [requestVote, if_pos h])
  · right
    simp only [requestVote, if_neg h, catchUp]
    generalize (if rf.currentTerm < args.term then rf.setNewTerm args.term else rf) = rf₁
    split_ifs
    · exact Or.inr rfl
    · exact Or.inl rfl

/-- The `InstallSnapshot` handler. -/
theorem installSnapshot_cases (rf : Server n C) (args : InstallSnapshotArgs) :
    (rf.installSnapshot args).1 = rf ∨ (rf.installSnapshot args).1 = rf.catchUp args.term ∨
      (rf.installSnapshot args).1 =
        { rf.catchUp args.term with
          installs := (rf.catchUp args.term).installs ++ [{
            snapshotValid := true
            snapshot := args.data
            snapshotTerm := args.lastIncludedTerm
            snapshotIndex := args.lastIncludedIndex }] } := by
  by_cases h : args.term < rf.currentTerm
  · exact Or.inl (by simp only [installSnapshot, if_pos h])
  · right
    simp only [installSnapshot, if_neg h, catchUp]
    generalize (if rf.currentTerm < args.term then rf.setNewTerm args.term else rf) = rf₁
    split_ifs
    · exact Or.inl rfl
    · exact Or.inr rfl

/-- One iteration of the loop over the entries of a request. -/
theorem storeEntries_cons {e : Entry C} {rest : List (Entry C)}
    (h : rf.storeEntries (e :: rest) = some rf')
    (hfirst : rf.logs.getFirstLog.index ≤ e.index) :
    (rf.logs.getLastLog.index < e.index ∧
      rf' = persist { rf with logs := rf.logs.append (e :: rest) }) ∨
    (e.index ≤ rf.logs.getLastLog.index ∧ ∃ x, rf.logs.get? e.index = some x ∧
      ((x.term = e.term ∧ rf.storeEntries rest = some rf') ∨
        (x.term ≠ e.term ∧ ∃ logs, rf.logs.takeTo e.index = some logs ∧
          (logs.getLastLog.index < e.index →
            rf' = persist { rf with logs := logs.append (e :: rest) })))) := by
  simp only [storeEntries] at h
  by_cases hle : e.index ≤ rf.logs.getLastLog.index
  · right
    rw [if_pos ⟨hle, hfirst⟩] at h
    cases hx : rf.logs.get? e.index with
    | none => simp [hx] at h
    | some x =>
      refine ⟨hle, x, rfl, ?_⟩
      by_cases hterm : x.term = e.term
      · left
        simp only [hx, hterm, ne_eq, not_true_eq_false, if_false, Option.bind_eq_bind,
          Option.bind_some] at h
        rw [if_neg (by omega)] at h
        exact ⟨hterm, h⟩
      · right
        refine ⟨hterm, ?_⟩
        cases hl : rf.logs.takeTo e.index with
        | none => simp [hx, hterm, hl] at h
        | some logs =>
          refine ⟨logs, rfl, fun hlast => ?_⟩
          simp only [hx, hterm, hl, ne_eq, not_false_eq_true, if_true, Option.bind_eq_bind,
            Option.bind_some, persist] at h
          rw [if_pos hlast] at h
          exact (Option.some.inj h).symm
  · left
    rw [if_neg (fun hc => hle hc.1)] at h
    simp only [Option.bind_eq_bind, Option.bind_some] at h
    rw [if_pos (by omega)] at h
    exact ⟨by omega, (Option.some.inj h).symm⟩

/-- One iteration of that loop, up to the conflict check and after it. -/
theorem storeEntries_next {e : Entry C} {rest : List (Entry C)}
    (h : rf.storeEntries (e :: rest) = some rf') :
    ∃ rf₁, (rf₁ = rf ∨ ∃ logs, rf.logs.takeTo e.index = some logs ∧
        rf₁ = persist { rf with logs }) ∧
      (if rf₁.logs.getLastLog.index < e.index then
        some (persist { rf₁ with logs := rf₁.logs.append (e :: rest) })
      else rf₁.storeEntries rest) = some rf' := by
  simp only [storeEntries] at h
  split_ifs at h with h₁
  · obtain ⟨x, -, h⟩ := Option.bind_eq_some_iff.mp h
    split_ifs at h with h₂
    · obtain ⟨logs, htake, h⟩ := Option.bind_eq_some_iff.mp h
      exact ⟨_, Or.inr ⟨logs, htake, rfl⟩, h⟩
    · exact ⟨rf, Or.inl rfl, h⟩
  · exact ⟨rf, Or.inl rfl, h⟩

/-- The loop over the entries of a request. -/
theorem storeEntries_cases {es : List (Entry C)} (h : rf.storeEntries es = some rf') :
    rf' = rf ∨ ∃ logs, rf' = persist { rf with logs } := by
  induction es generalizing rf with
  | nil => exact Or.inl (by simpa [storeEntries, eq_comm] using h)
  | cons e rest ih =>
    obtain ⟨rf₁, hrf₁, h⟩ := storeEntries_next h
    have hlast : rf' = rf₁ ∨ ∃ logs, rf' = persist { rf₁ with logs } := by
      split_ifs at h
      · exact Or.inr ⟨_, (Option.some.inj h).symm⟩
      · exact ih h
    rcases hrf₁ with rfl | ⟨logs, -, rfl⟩
    · exact hlast
    · right
      rcases hlast with rfl | ⟨logs', rfl⟩
      · exact ⟨logs, rfl⟩
      · exact ⟨logs', rfl⟩

/-- The part of the `AppendEntries` handler in the term of the request rejects or stores the
entries. -/
theorem acceptEntries_cases {args : AppendEntriesArgs n C} {reply : AppendEntriesReply}
    (h : rf.acceptEntries args = some (rf', reply)) :
    (reply.success = false ∧ rf' = rf) ∨
    (reply.success = true ∧ ∃ prev rf₁, rf.logs.get? args.prevLogIndex = some prev ∧
      prev.term = args.prevLogTerm ∧ rf.storeEntries args.entries = some rf₁ ∧
      rf' = if rf₁.commitIndex < args.leaderCommit then
        { rf₁ with commitIndex := min args.leaderCommit rf₁.logs.getLastLog.index } else rf₁) := by
  simp only [acceptEntries] at h
  split_ifs at h with h₁ h₂
  · obtain ⟨rfl, rfl⟩ := Prod.mk.inj (Option.some.inj h)
    exact Or.inl ⟨rfl, rfl⟩
  · obtain ⟨rfl, rfl⟩ := Prod.mk.inj (Option.some.inj h)
    exact Or.inl ⟨rfl, rfl⟩
  · obtain ⟨prev, hprev, h⟩ := Option.bind_eq_some_iff.mp h
    split_ifs at h with hterm
    · obtain ⟨rfl, rfl⟩ := Prod.mk.inj (Option.some.inj h)
      exact Or.inl ⟨rfl, rfl⟩
    · obtain ⟨rf₁, hs, h⟩ := Option.bind_eq_some_iff.mp h
      obtain ⟨rfl, rfl⟩ := Prod.mk.inj (Option.some.inj h)
      exact Or.inr ⟨rfl, prev, rf₁, hprev, by simpa using hterm, hs, rfl⟩

/-- A candidate that hears from the leader of its term becomes a follower. -/
def stepDown (rf : Server n C) : Server n C :=
  if rf.role = .candidate then { rf with role := .follower } else rf

@[simp]
theorem stepDown_logs (rf : Server n C) : rf.stepDown.logs = rf.logs := by
  unfold stepDown
  split_ifs <;> rfl

@[simp]
theorem stepDown_commitIndex (rf : Server n C) : rf.stepDown.commitIndex = rf.commitIndex := by
  unfold stepDown
  split_ifs <;> rfl

@[simp]
theorem stepDown_currentTerm (rf : Server n C) : rf.stepDown.currentTerm = rf.currentTerm := by
  unfold stepDown
  split_ifs <;> rfl

theorem appendEntriesRpc_eq {args : AppendEntriesArgs n C} (h : args.term = rf.currentTerm) :
    rf.appendEntriesRpc args = rf.stepDown.acceptEntries args := by
  simp only [appendEntriesRpc]
  rw [if_neg (by omega), if_neg (by omega)]
  rfl

/-- The `AppendEntries` handler. -/
theorem appendEntriesRpc_cases {args : AppendEntriesArgs n C} {reply : AppendEntriesReply}
    (h : rf.appendEntriesRpc args = some (rf', reply)) :
    (reply.success = false ∧ rf' = rf) ∨
    (reply.success = false ∧ rf.currentTerm < args.term ∧ rf' = rf.setNewTerm args.term) ∨
    (args.term = rf.currentTerm ∧ rf.stepDown.acceptEntries args = some (rf', reply)) := by
  simp only [appendEntriesRpc] at h
  by_cases h₁ : args.term < rf.currentTerm
  · rw [if_pos h₁] at h
    obtain ⟨rfl, rfl⟩ := Prod.mk.inj (Option.some.inj h)
    exact Or.inl ⟨rfl, rfl⟩
  rw [if_neg h₁] at h
  by_cases h₂ : rf.currentTerm < args.term
  · rw [if_pos h₂] at h
    obtain ⟨rfl, rfl⟩ := Prod.mk.inj (Option.some.inj h)
    exact Or.inr (Or.inl ⟨rfl, h₂, rfl⟩)
  · rw [if_neg h₂] at h
    exact Or.inr (Or.inr ⟨by omega, h⟩)

/-- The `AppendEntries` handler answers with success only in the term of the request. -/
theorem appendEntriesRpc_success {args : AppendEntriesArgs n C} {reply : AppendEntriesReply}
    (h : rf.appendEntriesRpc args = some (rf', reply)) (hsucc : reply.success = true) :
    args.term = rf.currentTerm ∧ rf'.currentTerm = args.term := by
  rcases appendEntriesRpc_cases h with ⟨hf, -⟩ | ⟨hf, -⟩ | ⟨ht, h⟩
  · simp [hf] at hsucc
  · simp [hf] at hsucc
  refine ⟨ht, ?_⟩
  rw [ht, ← rf.stepDown_currentTerm]
  rcases acceptEntries_cases h with ⟨-, rfl⟩ | ⟨-, prev, rf₁, -, -, hs, rfl⟩
  · rfl
  · rcases storeEntries_cases hs with rfl | ⟨logs, rfl⟩ <;> split_ifs <;> rfl

/-- The inner loop of `leaderCommitLog` counts the peers with a large enough `matchIndex`; it
looks at its counter once for every peer, so not at all without one. -/
theorem countMatches_iff {matchIndex : Fin n → ℤ} {k : ℕ} {peers : List (Fin n)} {cnt : ℕ} :
    countMatches me matchIndex k peers cnt = true ↔
      peers ≠ [] ∧
        n / 2 < cnt + (peers.filter fun p => p ≠ me ∧ (k : ℤ) ≤ matchIndex p).length := by
  induction peers generalizing cnt with
  | nil => simp [countMatches]
  | cons p peers ih =>
    have hcount : (if p ≠ me ∧ (k : ℤ) ≤ matchIndex p then cnt + 1 else cnt) +
        (peers.filter fun p => p ≠ me ∧ (k : ℤ) ≤ matchIndex p).length =
        cnt + ((p :: peers).filter fun p => p ≠ me ∧ (k : ℤ) ≤ matchIndex p).length := by
      by_cases hp : p ≠ me ∧ (k : ℤ) ≤ matchIndex p
      · rw [if_pos hp, List.filter_cons_of_pos (by simpa using hp), List.length_cons]
        omega
      · rw [if_neg hp, List.filter_cons_of_neg (by simpa using hp)]
    rw [← hcount]
    unfold countMatches
    generalize (if p ≠ me ∧ (k : ℤ) ≤ matchIndex p then cnt + 1 else cnt) = cnt'
    simp only [ne_eq, reduceCtorEq, not_false_eq_true, true_and]
    split_ifs with hlt
    · constructor
      · intro _
        omega
      · intro _
        rfl
    · rw [ih]
      constructor
      · exact And.right
      · intro h
        refine ⟨?_, h⟩
        rintro rfl
        exact hlt h

/-- The outer loop of `leaderCommitLog` stops at an index that it has found stored by a
majority. -/
theorem commitLoop_cases {count start : ℕ} (hk : rf.commitIndex < start)
    (h : (List.range' start count).foldlM (commitAt me) rf = some rf') :
    rf' = rf ∨ ∃ k e, rf.commitIndex < k ∧ rf.logs.get? k = some e ∧ e.term = rf.currentTerm ∧
      countMatches me rf.matchIndex k (List.finRange n) 1 = true ∧
      rf' = { rf with commitIndex := k } := by
  induction count generalizing rf start with
  | zero => exact Or.inl (by simpa [eq_comm] using h)
  | succ count ih =>
    rw [List.range'_succ, List.foldlM_cons] at h
    obtain ⟨rf₁, h₁, h⟩ := Option.bind_eq_some_iff.mp h
    obtain ⟨e, he, h₁⟩ := Option.bind_eq_some_iff.mp h₁
    split_ifs at h₁ with hc
    · obtain rfl := Option.some.inj h₁
      right
      rcases ih (Nat.lt_succ_self start) h with rfl | ⟨k, e', hlt, he', ht, hcount, rfl⟩
      · exact ⟨start, e, hk, he, hc.1, hc.2, rfl⟩
      · exact ⟨k, e', hk.trans hlt, he', ht, hcount, rfl⟩
    · obtain rfl := Option.some.inj h₁
      exact ih (by omega) h

theorem leaderCommitLog_cases (h : rf.leaderCommitLog me = some rf') :
    rf' = rf ∨ ∃ k e, rf.role = .leader ∧ rf.commitIndex < k ∧ rf.logs.get? k = some e ∧
      e.term = rf.currentTerm ∧ countMatches me rf.matchIndex k (List.finRange n) 1 = true ∧
      rf' = { rf with commitIndex := k } := by
  unfold leaderCommitLog at h
  split_ifs at h with hrole
  · exact Or.inl (Option.some.inj h).symm
  · rcases commitLoop_cases (Nat.lt_succ_self _) h with h | ⟨k, e, hk⟩
    · exact Or.inl h
    · exact Or.inr ⟨k, e, by simpa using hrole, hk⟩

/-- The reply to an `AppendEntries` call. -/
theorem appendEntriesReply_cases {args : AppendEntriesArgs n C} {reply : AppendEntriesReply}
    (h : rf.appendEntriesReply me peer args reply = some rf') :
    rf' = rf ∨ (rf.currentTerm < reply.term ∧ rf' = rf.setNewTerm reply.term) ∨
      (args.term = rf.currentTerm ∧ ∃ next matched : Fin n → ℤ, (∀ p, matched p = rf.matchIndex p ∨
          (reply.success = true ∧ p = peer ∧
            matched p = args.prevLogIndex + args.entries.length)) ∧
        leaderCommitLog me { rf with nextIndex := next, matchIndex := matched } = some rf') := by
  unfold appendEntriesReply at h
  split_ifs at h with h₁ h₂ h₃
  · exact Or.inr (Or.inl ⟨h₁, (Option.some.inj h).symm⟩)
  · refine Or.inr (Or.inr ⟨h₂, _, _, fun p => ?_, h⟩)
    by_cases hp : p = peer
    · subst hp
      rw [Function.update_self]
      rcases max_choice (rf.matchIndex p) (args.prevLogIndex + args.entries.length) with hm | hm
      · exact Or.inl hm
      · exact Or.inr ⟨h₃, rfl, hm⟩
    · exact Or.inl (Function.update_of_ne hp _ _)
  · obtain ⟨next, -, h⟩ := Option.bind_eq_some_iff.mp h
    exact Or.inr (Or.inr ⟨h₂, _, _, fun p => Or.inl rfl, h⟩)
  · exact Or.inl (Option.some.inj h).symm

/-- The function run by `becomeLeader.Do`. -/
theorem becomeLeader_eq (h : rf.becomeLeader me = some (rf', requests)) :
    rf' = { rf with
      role := .leader
      nextIndex := fun _ => rf.logs.getLastLog.index + 1
      matchIndex := fun _ => 0 } ∧ rf'.appendEntries me true = some requests := by
  obtain ⟨reqs, hreqs, h⟩ := Option.bind_eq_some_iff.mp h
  obtain ⟨rfl, rfl⟩ := Prod.mk.inj (Option.some.inj h)
  exact ⟨rfl, hreqs⟩

/-- The vote-reply closure: nothing happens, the newer-term branch is taken, a vote is counted,
or the vote that is counted wins the election. -/
theorem requestVoteReply_cases {k : ℕ} {reply : RequestVoteReply}
    (h : rf.requestVoteReply me k reply = some (rf', requests)) :
    ∃ e, rf.elections[k]? = some e ∧
      ((rf' = rf ∧ requests = []) ∨
      (e.args.term < reply.term ∧ rf' = rf.setNewTerm e.args.term ∧ requests = []) ∨
      (reply.term = e.args.term ∧ reply.voteGranted = true ∧ requests = [] ∧
        rf' = { rf with
          elections := rf.elections.set k { e with grantedVote := e.grantedVote + 1 } }) ∨
      (reply.term = e.args.term ∧ reply.voteGranted = true ∧ n / 2 < e.grantedVote + 1 ∧
        rf.currentTerm = e.args.term ∧ rf.role = .candidate ∧
        becomeLeader me { rf with
          elections := rf.elections.set k
            { e with grantedVote := e.grantedVote + 1, becomeLeader := true } } =
          some (rf', requests))) := by
  obtain ⟨e, he, h⟩ := Option.bind_eq_some_iff.mp h
  refine ⟨e, he, ?_⟩
  split_ifs at h with h₁ h₂ h₃
  · obtain ⟨rfl, rfl⟩ := Prod.mk.inj (Option.some.inj h)
    exact Or.inr (Or.inl ⟨h₁, rfl, rfl⟩)
  · obtain ⟨rfl, rfl⟩ := Prod.mk.inj (Option.some.inj h)
    exact Or.inl ⟨rfl, rfl⟩
  · obtain ⟨rfl, rfl⟩ := Prod.mk.inj (Option.some.inj h)
    exact Or.inl ⟨rfl, rfl⟩
  · simp only at h
    split_ifs at h with h₄
    · exact Or.inr (Or.inr (Or.inr ⟨by omega, by simpa using h₃, h₄.1, h₄.2.1, h₄.2.2.1, h⟩))
    · obtain ⟨rfl, rfl⟩ := Prod.mk.inj (Option.some.inj h)
      exact Or.inr (Or.inr (Or.inl ⟨by omega, by simpa using h₃, rfl, rfl⟩))

/-- What `appendEntries` sends to one peer. -/
theorem requestTo_cases {m : Message n C} (h : rf.requestTo me peer = some m) :
    m = .installSnapshot
      { term := rf.currentTerm
        lastIncludedIndex := rf.logs.getFirstLog.index
        lastIncludedTerm := rf.logs.getFirstLog.term
        data := rf.persister.snapshot } ∨
    ∃ i prev, rf.logs.get? i = some prev ∧ m = .appendEntries
      { term := rf.currentTerm
        leaderId := me
        prevLogIndex := prev.index
        prevLogTerm := prev.term
        entries := rf.logs.entries.drop (i - rf.logs.getFirstLog.index + 1)
        leaderCommit := rf.commitIndex } := by
  simp only [requestTo] at h
  split_ifs at h
  · exact Or.inl (Option.some.inj h).symm
  · obtain ⟨prev, hprev, h⟩ := Option.bind_eq_some_iff.mp h
    exact Or.inr ⟨_, prev, hprev, (Option.some.inj h).symm⟩

theorem mem_appendEntries {heartbeat : Bool} {m : Message n C}
    (h : rf.appendEntries me heartbeat = some requests) (hm : (peer, m) ∈ requests) :
    rf.requestTo me peer = some m := by
  obtain ⟨p, -, hp⟩ := mem_of_mapM h hm
  obtain ⟨m', hm', heq⟩ := Option.map_eq_some_iff.mp hp
  obtain ⟨rfl, rfl⟩ := Prod.mk.inj heq
  exact hm'

theorem start_cases {command : Option C} {result : Option (ℕ × ℕ)}
    (h : rf.start me command = some (rf', requests, result)) :
    (rf' = rf ∧ requests = []) ∨ (rf.role = .leader ∧ rf'.appendEntries me false = some requests ∧
      rf' = persist { rf with
        logs := rf.logs.append [⟨rf.logs.getLastLog.index + 1, rf.currentTerm, command⟩] }) := by
  simp only [start] at h
  split_ifs at h with hrole
  · obtain ⟨rfl, hres⟩ := Prod.mk.inj (Option.some.inj h)
    exact Or.inl ⟨rfl, (Prod.mk.inj hres).1.symm⟩
  · obtain ⟨reqs, hreqs, h⟩ := Option.bind_eq_some_iff.mp h
    obtain ⟨rfl, hres⟩ := Prod.mk.inj (Option.some.inj h)
    obtain ⟨rfl, -⟩ := Prod.mk.inj hres
    exact Or.inr ⟨by simpa using hrole, hreqs, rfl⟩

theorem condInstallSnapshot_cases {term index : ℕ} {data : List UInt8} {accepted : Bool}
    (h : rf.condInstallSnapshot term index data = some (rf', accepted)) :
    (accepted = false ∧ rf' = rf) ∨
    (accepted = true ∧ rf.commitIndex < index ∧ ∃ logs, rf.installedLogs term index = some logs ∧
      rf' = saveStateAndSnapshot
        { rf with logs, lastApplied := index, commitIndex := index } data) := by
  unfold condInstallSnapshot at h
  split_ifs at h with hle
  · obtain ⟨rfl, rfl⟩ := Prod.mk.inj (Option.some.inj h)
    exact Or.inl ⟨rfl, rfl⟩
  · obtain ⟨logs, hlogs, h⟩ := Option.bind_eq_some_iff.mp h
    obtain ⟨rfl, rfl⟩ := Prod.mk.inj (Option.some.inj h)
    exact Or.inr ⟨rfl, by omega, logs, hlogs, rfl⟩

theorem snapshot_cases {index : ℕ} {data : List UInt8} (h : rf.snapshot index data = some rf') :
    rf' = rf ∨ (rf.logs.getFirstLog.index < index ∧
      ∃ logs, rf.logs.logCompact index = some logs ∧
        rf' = saveStateAndSnapshot
          { rf with logs := logs.setFirst { logs.getFirstLog with command := none } } data) := by
  unfold snapshot at h
  split_ifs at h with hle
  · exact Or.inl (Option.some.inj h).symm
  · obtain ⟨logs, hlogs, h⟩ := Option.bind_eq_some_iff.mp h
    exact Or.inr ⟨by omega, logs, hlogs, (Option.some.inj h).symm⟩

theorem applierCopy_cases (h : rf.applierCopy = some rf') :
    rf.applier = .waiting ∧ rf.lastApplied < rf.commitIndex ∧
      ∃ entries, rf.logs.slice rf.lastApplied rf.commitIndex = some entries ∧
        rf' = { rf with applier := .sending entries rf.commitIndex } := by
  unfold applierCopy at h
  split at h
  · cases h
  · next hw =>
    split_ifs at h with hle
    obtain ⟨entries, hslice, h⟩ := Option.bind_eq_some_iff.mp h
    exact ⟨hw, by omega, entries, hslice, (Option.some.inj h).symm⟩

theorem applierSend_cases (h : rf.applierSend = some rf') :
    ∃ entry rest k, rf.applier = .sending (entry :: rest) k ∧
      rf' =
        { rf with applier := .sending rest k, applied := rf.applied ++ [commandMsg entry] } := by
  unfold applierSend at h
  split at h
  · next entry rest k hs => exact ⟨entry, rest, k, hs, (Option.some.inj h).symm⟩
  · cases h

theorem applierUpdate_cases (h : rf.applierUpdate = some rf') :
    ∃ k, rf.applier = .sending [] k ∧
      rf' = { rf with applier := .waiting, lastApplied := max rf.lastApplied k } := by
  unfold applierUpdate at h
  split at h
  · next k hs => exact ⟨k, hs, (Option.some.inj h).symm⟩
  · cases h

end Server

/-- The calls that server `i` puts in flight as the instance `rf`. -/
def Server.calls (i : Fin n) (rf : Server n C) (requests : List (Fin n × Message n C)) :
    List (Packet n C) :=
  requests.map fun (peer, message) => ⟨i, peer, rf.epoch, message⟩

namespace Cluster

/-- What the action `a` does in `c`: the server `i` becomes `rf` and the packets `new` are put in
flight. -/
inductive Effect (c : Cluster n C) (a : Action C n) : Fin n → Server n C → List (Packet n C) → Prop
  | electionTimeout (i : Fin n) : Effect c a i ((c.servers i).electionTimeout i).1
      (((c.servers i).electionTimeout i).1.calls i ((c.servers i).electionTimeout i).2)
  | heartbeatTimeout {i : Fin n} {requests : List (Fin n × Message n C)}
      (h : (c.servers i).heartbeatTimeout i = some requests) :
      Effect c a i (c.servers i) ((c.servers i).calls i requests)
  | start {i : Fin n} {command : Option C} {rf : Server n C} {result : Option (ℕ × ℕ)}
      {requests : List (Fin n × Message n C)}
      (h : (c.servers i).start i command = some (rf, requests, result)) :
      Effect c a i rf (rf.calls i requests)
  | requestVote {p : Packet n C} {election : ℕ} {args : RequestVoteArgs n} (hp : p ∈ c.net)
      (hm : p.message = .requestVote election args) :
      Effect c a p.callee ((c.servers p.callee).requestVote args).1 [{ p with
        message := .requestVoteReply election args ((c.servers p.callee).requestVote args).2 }]
  | appendEntries {p : Packet n C} {args : AppendEntriesArgs n C} {rf : Server n C}
      {reply : AppendEntriesReply} (hp : p ∈ c.net) (hm : p.message = .appendEntries args)
      (h : (c.servers p.callee).appendEntriesRpc args = some (rf, reply)) :
      Effect c a p.callee rf [{ p with message := .appendEntriesReply args reply }]
  | installSnapshot {p : Packet n C} {args : InstallSnapshotArgs} (hp : p ∈ c.net)
      (hm : p.message = .installSnapshot args) :
      Effect c a p.callee ((c.servers p.callee).installSnapshot args).1 [{ p with
        message := .installSnapshotReply args ((c.servers p.callee).installSnapshot args).2 }]
  | requestVoteReply {k : ℕ} {p : Packet n C} {election : ℕ} {args : RequestVoteArgs n}
      {reply : RequestVoteReply} {rf : Server n C} {requests : List (Fin n × Message n C)}
      (ha : a = .deliver k) (hp : c.net[k]? = some p)
      (hm : p.message = .requestVoteReply election args reply)
      (he : p.epoch = (c.servers p.caller).epoch)
      (h : (c.servers p.caller).requestVoteReply p.caller election reply = some (rf, requests)) :
      Effect c a p.caller rf (rf.calls p.caller requests)
  | appendEntriesReply {p : Packet n C} {args : AppendEntriesArgs n C}
      {reply : AppendEntriesReply} {rf : Server n C} (hp : p ∈ c.net)
      (hm : p.message = .appendEntriesReply args reply)
      (he : p.epoch = (c.servers p.caller).epoch)
      (h : (c.servers p.caller).appendEntriesReply p.caller p.callee args reply = some rf) :
      Effect c a p.caller rf []
  | installSnapshotReply {p : Packet n C} {args : InstallSnapshotArgs}
      {reply : InstallSnapshotReply} (hp : p ∈ c.net)
      (hm : p.message = .installSnapshotReply args reply)
      (he : p.epoch = (c.servers p.caller).epoch) :
      Effect c a p.caller ((c.servers p.caller).installSnapshotReply p.callee args reply) []
  | crash (i : Fin n) :
      Effect c a i (Server.make (c.servers i).persister ((c.servers i).epoch + 1)) []
  | applierCopy {i : Fin n} {rf : Server n C} (h : (c.servers i).applierCopy = some rf) :
      Effect c a i rf []
  | applierSend {i : Fin n} {rf : Server n C} (h : (c.servers i).applierSend = some rf) :
      Effect c a i rf []
  | applierUpdate {i : Fin n} {rf : Server n C} (h : (c.servers i).applierUpdate = some rf) :
      Effect c a i rf []
  | snapshot {i : Fin n} {index : ℕ} {data : List UInt8} {rf : Server n C}
      (ha : a = .snapshot i index data)
      (h : (c.servers i).snapshot index data = some rf) : Effect c a i rf []
  | condInstallSnapshot {i : Fin n} {k : ℕ} {msg : ApplyMsg C} {rf : Server n C} {accepted : Bool}
      (hmsg : (c.servers i).installs[k]? = some msg)
      (h : Server.condInstallSnapshot
        { c.servers i with installs := (c.servers i).installs.eraseIdx k }
        msg.snapshotTerm msg.snapshotIndex msg.snapshot = some (rf, accepted)) :
      Effect c a i rf []

variable {c c' : Cluster n C}

theorem send_net (c : Cluster n C) (i : Fin n) (rf : Server n C)
    (requests : List (Fin n × Message n C)) :
    ((c.setServer i rf).send i requests).net = c.net ++ rf.calls i requests := by
  simp [send, setServer, Server.calls]

theorem deliver_effect {k : ℕ} {p : Packet n C} (hp : c.net[k]? = some p)
    (hs : Cluster.deliver { c with net := c.net.eraseIdx k } p = some c') :
    (c'.servers = c.servers ∧ c'.net ⊆ c.net) ∨ ∃ i rf new, Effect c (.deliver k) i rf new ∧
      c'.servers = Function.update c.servers i rf ∧ c'.net ⊆ c.net ++ new := by
  have hmem := List.mem_of_getElem? hp
  have hnet : ∀ new : List (Packet n C), c.net.eraseIdx k ++ new ⊆ c.net ++ new := by
    intro new p hp
    rcases List.mem_append.mp hp with hp | hp
    · exact List.mem_append_left _ (List.eraseIdx_subset hp)
    · exact List.mem_append_right _ hp
  obtain ⟨caller, callee, epoch, message⟩ := p
  cases message with
  | requestVote election args =>
    obtain rfl := Option.some.inj hs
    exact Or.inr ⟨_, _, _, .requestVote hmem rfl, rfl, hnet _⟩
  | appendEntries args =>
    obtain ⟨⟨rf, reply⟩, hrpc, hs⟩ := Option.bind_eq_some_iff.mp hs
    obtain rfl := Option.some.inj hs
    exact Or.inr ⟨_, _, _, .appendEntries hmem rfl hrpc, rfl, hnet _⟩
  | installSnapshot args =>
    obtain rfl := Option.some.inj hs
    exact Or.inr ⟨_, _, _, .installSnapshot hmem rfl, rfl, hnet _⟩
  | requestVoteReply election args reply =>
    simp only [Cluster.deliver] at hs
    split_ifs at hs with hepoch
    · obtain rfl := Option.some.inj hs
      exact Or.inl ⟨rfl, List.eraseIdx_subset⟩
    · rw [not_not] at hepoch
      obtain ⟨⟨rf, requests⟩, hrpc, hs⟩ := Option.bind_eq_some_iff.mp hs
      obtain rfl := Option.some.inj hs
      refine Or.inr ⟨_, rf, _, .requestVoteReply rfl hp rfl hepoch hrpc, rfl, ?_⟩
      rw [send_net]
      exact hnet _
  | appendEntriesReply args reply =>
    simp only [Cluster.deliver] at hs
    split_ifs at hs with hepoch
    · obtain rfl := Option.some.inj hs
      exact Or.inl ⟨rfl, List.eraseIdx_subset⟩
    · rw [not_not] at hepoch
      obtain ⟨rf, hrpc, hs⟩ := Option.bind_eq_some_iff.mp hs
      obtain rfl := Option.some.inj hs
      exact Or.inr ⟨_, rf, [], .appendEntriesReply hmem rfl hepoch hrpc, rfl,
        by simpa [setServer] using List.eraseIdx_subset⟩
  | installSnapshotReply args reply =>
    simp only [Cluster.deliver] at hs
    split_ifs at hs with hepoch
    · obtain rfl := Option.some.inj hs
      exact Or.inl ⟨rfl, List.eraseIdx_subset⟩
    · rw [not_not] at hepoch
      obtain rfl := Option.some.inj hs
      exact Or.inr ⟨_, _, [], .installSnapshotReply hmem rfl hepoch, rfl,
        by simpa [setServer] using List.eraseIdx_subset⟩

/-- The packets that a step puts in flight. -/
theorem Effect.sent {a : Action C n} {i : Fin n} {rf : Server n C} {new : List (Packet n C)}
    (h : Effect c a i rf new) {p : Packet n C} (hp : p ∈ new) :
    (∃ election args, p.message = .requestVote election args) ∨
    (∃ peer, rf.requestTo i peer = some p.message) ∨
    (∃ election args reply, p.message = .requestVoteReply election args reply) ∨
    (∃ args reply, p.message = .appendEntriesReply args reply ∧ p.callee = i ∧
      (c.servers i).appendEntriesRpc args = some (rf, reply) ∧
      ∃ q ∈ c.net, q.message = .appendEntries args) ∨
    (∃ args reply, p.message = .installSnapshotReply args reply) := by
  have hcall : ∀ {rf' : Server n C} {hb requests}, rf'.appendEntries i hb = some requests →
      p ∈ rf'.calls i requests → ∃ peer, rf'.requestTo i peer = some p.message := by
    intro rf' hb requests hreq hp
    obtain ⟨⟨peer, m⟩, hm, rfl⟩ := List.mem_map.mp hp
    exact ⟨peer, Server.mem_appendEntries hreq hm⟩
  cases h with
  | electionTimeout =>
    obtain ⟨⟨peer, m⟩, hm, rfl⟩ := List.mem_map.mp hp
    obtain ⟨peer', -, heq⟩ := List.mem_map.mp hm
    obtain ⟨rfl, rfl⟩ := Prod.mk.inj heq
    exact Or.inl ⟨_, _, rfl⟩
  | heartbeatTimeout h =>
    unfold Server.heartbeatTimeout at h
    split_ifs at h
    · exact Or.inr (Or.inl (hcall h hp))
    · obtain rfl := Option.some.inj h
      cases hp
  | start h =>
    rcases Server.start_cases h with ⟨-, rfl⟩ | ⟨-, hreq, -⟩
    · cases hp
    · exact Or.inr (Or.inl (hcall hreq hp))
  | requestVote =>
    obtain rfl := List.mem_singleton.mp hp
    exact Or.inr (Or.inr (Or.inl ⟨_, _, _, rfl⟩))
  | appendEntries hq hm h =>
    obtain rfl := List.mem_singleton.mp hp
    exact Or.inr (Or.inr (Or.inr (Or.inl ⟨_, _, rfl, rfl, h, _, hq, hm⟩)))
  | installSnapshot =>
    obtain rfl := List.mem_singleton.mp hp
    exact Or.inr (Or.inr (Or.inr (Or.inr ⟨_, _, rfl⟩)))
  | requestVoteReply _ _ _ _ h =>
    obtain ⟨e, -, hcases⟩ := Server.requestVoteReply_cases h
    rcases hcases with ⟨-, rfl⟩ | ⟨-, -, rfl⟩ | ⟨-, -, rfl, -⟩ | ⟨-, -, -, -, -, hlead⟩
    · cases hp
    · cases hp
    · cases hp
    · exact Or.inr (Or.inl (hcall (Server.becomeLeader_eq hlead).2 hp))
  | _ => cases hp

/-- A step loses messages, or changes one server and adds to the messages in flight. -/
theorem step_effect {a : Action C n} (hs : c.step a = some c') :
    (c'.servers = c.servers ∧ c'.net ⊆ c.net) ∨ ∃ i rf new, Effect c a i rf new ∧
      c'.servers = Function.update c.servers i rf ∧ c'.net ⊆ c.net ++ new := by
  cases a with
  | electionTimeout i =>
    obtain rfl := Option.some.inj hs
    exact Or.inr ⟨i, _, _, .electionTimeout i, rfl, fun _ hp => send_net c i _ _ ▸ hp⟩
  | heartbeatTimeout i =>
    obtain ⟨requests, hreq, hs⟩ := Option.bind_eq_some_iff.mp hs
    obtain rfl := Option.some.inj hs
    exact Or.inr ⟨i, _, _, .heartbeatTimeout hreq, (Function.update_eq_self i _).symm,
      fun _ hp => hp⟩
  | start i command =>
    obtain ⟨⟨rf, requests, result⟩, hst, hs⟩ := Option.bind_eq_some_iff.mp hs
    obtain rfl := Option.some.inj hs
    exact Or.inr ⟨i, _, _, .start hst, rfl, fun _ hp => send_net c i _ _ ▸ hp⟩
  | deliver k =>
    obtain ⟨p, hp, hs⟩ := Option.bind_eq_some_iff.mp hs
    exact deliver_effect hp hs
  | drop k =>
    obtain rfl := Option.some.inj hs
    exact Or.inl ⟨rfl, List.eraseIdx_subset⟩
  | crash i =>
    obtain rfl := Option.some.inj hs
    exact Or.inr ⟨i, _, [], .crash i, rfl, by simp [setServer]⟩
  | applierCopy i =>
    obtain ⟨rf, hrf, hs⟩ := Option.bind_eq_some_iff.mp hs
    obtain rfl := Option.some.inj hs
    exact Or.inr ⟨i, _, [], .applierCopy hrf, rfl, by simp [setServer]⟩
  | applierSend i =>
    obtain ⟨rf, hrf, hs⟩ := Option.bind_eq_some_iff.mp hs
    obtain rfl := Option.some.inj hs
    exact Or.inr ⟨i, _, [], .applierSend hrf, rfl, by simp [setServer]⟩
  | applierUpdate i =>
    obtain ⟨rf, hrf, hs⟩ := Option.bind_eq_some_iff.mp hs
    obtain rfl := Option.some.inj hs
    exact Or.inr ⟨i, _, [], .applierUpdate hrf, rfl, by simp [setServer]⟩
  | snapshot i index data =>
    simp only [Cluster.step] at hs
    split_ifs at hs with hany
    obtain ⟨rf, hrf, hs⟩ := Option.bind_eq_some_iff.mp hs
    obtain rfl := Option.some.inj hs
    exact Or.inr ⟨i, _, [], .snapshot rfl hrf, rfl, by simp [setServer]⟩
  | condInstallSnapshot i k =>
    obtain ⟨msg, hmsg, hs⟩ := Option.bind_eq_some_iff.mp hs
    obtain ⟨⟨rf, accepted⟩, hrf, hs⟩ := Option.bind_eq_some_iff.mp hs
    obtain rfl := Option.some.inj hs
    exact Or.inr ⟨i, _, [], .condInstallSnapshot hmsg hrf, rfl, by simp [setServer]⟩

/-- What holds of every server and every packet still does after a step that gives the server it
changes and the packets it sends the same properties. -/
theorem step_keeps {S : Fin n → Server n C → Prop} {N : Packet n C → Prop} {a : Action C n}
    (hs : c.step a = some c') (hservers : ∀ i, S i (c.servers i)) (hnet : ∀ p ∈ c.net, N p)
    (heffect : ∀ {i rf new}, Effect c a i rf new → c'.servers i = rf →
      S i rf ∧ ∀ p ∈ new, p ∈ c'.net → N p) :
    (∀ i, S i (c'.servers i)) ∧ ∀ p ∈ c'.net, N p := by
  rcases step_effect hs with ⟨heq, hsub⟩ | ⟨i, rf, new, heff, heq, hsub⟩
  · exact ⟨fun i => heq ▸ hservers i, fun p hp => hnet p (hsub hp)⟩
  · have hrf : c'.servers i = rf := by rw [heq, Function.update_self]
    obtain ⟨hS, hN⟩ := heffect heff hrf
    refine ⟨fun j => ?_, fun p hp => ?_⟩
    · by_cases hj : j = i
      · rw [hj, hrf]
        exact hS
      · rw [heq, Function.update_of_ne hj]
        exact hservers j
    · rcases List.mem_append.mp (hsub hp) with hold | hnew
      · exact hnet p hold
      · exact hN p hnew hp

/-- A reply of the `AppendEntries` handler is sent by the server that has handled the request. -/
theorem Effect.sent_appendEntriesReply {a : Action C n} {i : Fin n} {rf : Server n C}
    {new : List (Packet n C)} (h : Effect c a i rf new) {p : Packet n C} (hp : p ∈ new)
    {args : AppendEntriesArgs n C} {reply : AppendEntriesReply}
    (hm : p.message = .appendEntriesReply args reply) :
    p.callee = i ∧ (c.servers i).appendEntriesRpc args = some (rf, reply) ∧
      ∃ q ∈ c.net, q.message = .appendEntries args := by
  rcases h.sent hp with ⟨_, _, hm'⟩ | ⟨peer, hm'⟩ | ⟨_, _, _, hm'⟩ | ⟨args', reply', hm', hrest⟩ |
    ⟨_, _, hm'⟩
  · simp [hm] at hm'
  · rw [hm] at hm'
    rcases Server.requestTo_cases hm' with heq | ⟨_, _, -, heq⟩ <;> cases heq
  · simp [hm] at hm'
  · rw [hm] at hm'
    cases hm'
    exact hrest
  · simp [hm] at hm'

end Cluster
end RaftLabs.Raft
