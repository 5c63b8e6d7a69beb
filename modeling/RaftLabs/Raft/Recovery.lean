import RaftLabs.Raft.LogView
import RaftLabs.Raft.Handlers

/-! Crash recovery: after every critical section the persister holds the term, the vote and the
log that are in memory, and the snapshot that a service produced for the snapshot point. Nothing
is assumed about the run. -/
namespace RaftLabs.Raft
open Basis

variable {n : ℕ} {C : Type}

/-- The indexes of a log are consecutive: it is the end of some full log. -/
def Log.Contiguous (logs : Log C) : Prop := ∃ l, LogView l logs

namespace Log.Contiguous
variable {logs logs' : Log C} {i : ℕ} {e : Entry C}

theorem get?_index (h : logs.Contiguous) (he : logs.get? i = some e) :
    e.index = i ∧ logs.getFirstLog.index ≤ i ∧ i ≤ logs.getLastLog.index := by
  obtain ⟨l, hl⟩ := h
  obtain ⟨hidx, hfirst, hterm, -⟩ := hl.get?_spec he
  have := lt_length_of_termAt hterm
  have := hl.getLastLog_index
  exact ⟨hidx, hfirst, by omega⟩

theorem entry (h : logs.Contiguous) {k : ℕ} (he : logs.entries[k]? = some e) :
    e.index = logs.getFirstLog.index + k := by
  obtain ⟨l, hl⟩ := h
  exact (hl.entry he).1

theorem append (h : logs.Contiguous) {es : List (Entry C)}
    (hes : ∀ k e, es[k]? = some e → e.index = logs.getLastLog.index + 1 + k) :
    (logs.append es).Contiguous := by
  obtain ⟨l, hl⟩ := h
  refine ⟨_, hl.append fun {k e} he => ?_⟩
  rw [hes k e he, hl.getLastLog_index]

theorem takeTo (h : logs.Contiguous) (ht : logs.takeTo i = some logs')
    (hi : logs.getFirstLog.index < i) (hlast : i ≤ logs.getLastLog.index) :
    logs'.Contiguous ∧ logs'.getFirstLog = logs.getFirstLog ∧ logs'.getLastLog.index + 1 = i := by
  obtain ⟨l, hl⟩ := h
  have hlen := hl.getLastLog_index
  obtain ⟨hl', hfirst⟩ := hl.takeTo ht hi (by omega)
  refine ⟨⟨_, hl'⟩, hfirst, ?_⟩
  rw [hl'.getLastLog_index, List.length_take]
  omega

/-- Compacting to index `i` and overwriting the first entry. -/
theorem rebase (h : logs.Contiguous) (hc : logs.logCompact i = some logs') (t : ℕ)
    (c : Option C) : (logs'.setFirst ⟨i, t, c⟩).Contiguous ∧ logs'.getFirstLog.index = i ∧
      (logs'.setFirst ⟨i, t, c⟩).getLastLog.index = logs.getLastLog.index := by
  obtain ⟨l, hl⟩ := h
  have hcompact := hc
  unfold Log.logCompact at hc
  split_ifs at hc with hlt
  have hzero := logs'.entries_zero
  rw [Log.ofSlice_eq_some hc, List.getElem?_drop] at hzero
  have hlen := (List.getElem?_eq_some_iff.mp hzero).1
  have hll := hl.length
  have hview : LogView (l.set i ⟨t, none⟩) (logs'.setFirst ⟨i, t, c⟩) := by
    refine hl.rebase hcompact (by simp) ?_ (fun j hj => ?_) c
    · rw [termAt, List.getElem?_set_self (by omega)]
      rfl
    · rw [List.getElem?_set_ne (by omega)]
  refine ⟨⟨_, hview⟩, ?_, ?_⟩
  · rw [(hl.entry hzero).1]
    omega
  · have h₁ := hview.getLastLog_index
    have h₂ := hl.getLastLog_index
    rw [List.length_set] at h₁
    omega

theorem fresh_setFirst (i t : ℕ) (c : Option C) :
    ((Log.fresh : Log C).setFirst ⟨i, t, c⟩).Contiguous := by
  refine ⟨List.replicate (i + 1) ⟨t, none⟩, LogView.fresh_setFirst (by simp) ?_ c⟩
  simp [termAt]

end Log.Contiguous

/-- The loop over the entries of a request whose indexes continue those of the log. -/
theorem contiguous_storeEntries {rf rf' : Server n C} {es : List (Entry C)} {p : ℕ}
    (h : rf.storeEntries es = some rf') (hc : rf.logs.Contiguous)
    (hes : ∀ k e, es[k]? = some e → e.index = p + 1 + k)
    (hfirst : rf.logs.getFirstLog.index ≤ p) (hlast : p ≤ rf.logs.getLastLog.index) :
    rf'.logs.Contiguous ∧ rf'.logs.getFirstLog = rf.logs.getFirstLog := by
  induction es generalizing p with
  | nil =>
    obtain rfl : rf = rf' := by simpa [Server.storeEntries] using h
    exact ⟨hc, rfl⟩
  | cons e rest ih =>
    have he : e.index = p + 1 := hes 0 e rfl
    rcases Server.storeEntries_cons h (by omega) with ⟨hlt, rfl⟩ | ⟨hle, x, hx, hcases⟩
    · refine ⟨hc.append fun k e' hk => ?_, Log.getFirstLog_append _ _⟩
      rw [hes k e' hk]
      omega
    · rcases hcases with ⟨-, h⟩ | ⟨-, logs, htake, hnext⟩
      · refine ih h (p := p + 1) (fun k e' hk => ?_) (by omega) (by omega)
        rw [hes (k + 1) e' hk]
        omega
      · obtain ⟨hc', hfirst', hlast'⟩ := hc.takeTo htake (by omega) hle
        rw [hnext (by omega)]
        refine ⟨hc'.append fun k e' hk => ?_, (Log.getFirstLog_append _ _).trans hfirst'⟩
        rw [hes k e' hk]
        omega

/-- What is in memory has been saved, or nothing has been saved and nothing has changed. -/
def Server.Saved (rf : Server n C) : Prop :=
  rf.persister.raftstate = some rf.encodeRaftState ∨
    (rf.persister.raftstate = none ∧ rf.encodeRaftState = ⟨0, none, Log.fresh⟩)

/-- The snapshot `data` is one that a service has made for `index`, or there is none yet. -/
def Provided (made : ℕ → List UInt8 → Prop) (index : ℕ) (data : List UInt8) : Prop :=
  made index data ∨ (index = 0 ∧ data = [])

/-- What a server keeps across a crash, when `made` are the snapshots of the services. -/
structure Server.Durable (made : ℕ → List UInt8 → Prop) (rf : Server n C) : Prop where
  saved : rf.Saved
  contiguous : rf.logs.Contiguous
  snapshot : Provided made rf.logs.getFirstLog.index rf.persister.snapshot
  installs : ∀ msg ∈ rf.installs, Provided made msg.snapshotIndex msg.snapshot

/-- A request continues the log at its `PrevLogIndex`, and a snapshot on its way is one of a
service. -/
def Message.Durable (made : ℕ → List UInt8 → Prop) : Message n C → Prop
  | .appendEntries args => ∀ k e, args.entries[k]? = some e → e.index = args.prevLogIndex + 1 + k
  | .installSnapshot args => Provided made args.lastIncludedIndex args.data
  | _ => True

/-- The log, the persisted snapshot and the snapshots on offer are kept, and what is in memory
stays saved. -/
structure Keeps (rf rf' : Server n C) : Prop where
  saved : rf.Saved → rf'.Saved
  logs : rf'.logs = rf.logs
  snapshot : rf'.persister.snapshot = rf.persister.snapshot
  installs : rf'.installs ⊆ rf.installs

section
variable {rf rf' : Server n C} {made : ℕ → List UInt8 → Prop}

theorem Keeps.refl (rf : Server n C) : Keeps rf rf := ⟨id, rfl, rfl, fun _ h => h⟩

theorem Keeps.trans {rf₁ rf₂ rf₃ : Server n C} (h : Keeps rf₁ rf₂) (h' : Keeps rf₂ rf₃) :
    Keeps rf₁ rf₃ :=
  ⟨h'.saved ∘ h.saved, h'.logs.trans h.logs, h'.snapshot.trans h.snapshot,
    fun _ hm => h.installs (h'.installs hm)⟩

/-- Changes of what is not persistent. -/
theorem Keeps.volatile (he : rf'.encodeRaftState = rf.encodeRaftState)
    (hp : rf'.persister = rf.persister) (hi : rf'.installs ⊆ rf.installs) : Keeps rf rf' :=
  ⟨fun h => by unfold Server.Saved at h ⊢; rwa [he, hp], congrArg RaftState.logs he,
    congrArg Persister.snapshot hp, hi⟩

theorem keeps_setNewTerm (rf : Server n C) (T : ℕ) : Keeps rf (rf.setNewTerm T) :=
  ⟨fun _ => Or.inl rfl, rfl, rfl, fun _ h => h⟩

theorem keeps_catchUp (rf : Server n C) (T : ℕ) : Keeps rf (rf.catchUp T) := by
  rcases rf.catchUp_cases T with h | ⟨-, h⟩ <;> rw [h]
  · exact Keeps.refl rf
  · exact keeps_setNewTerm rf T

theorem keeps_requestVote (args : RequestVoteArgs n) : Keeps rf (rf.requestVote args).1 := by
  rcases rf.requestVote_cases args with h | h | h <;> rw [h]
  · exact Keeps.refl rf
  · exact keeps_catchUp rf _
  · exact (keeps_catchUp rf args.term).trans ⟨fun _ => Or.inl rfl, rfl, rfl, fun _ h => h⟩

theorem keeps_requestVoteReply {me : Fin n} {k : ℕ} {reply : RequestVoteReply}
    {requests : List (Fin n × Message n C)}
    (h : rf.requestVoteReply me k reply = some (rf', requests)) : Keeps rf rf' := by
  obtain ⟨e, -, hcases⟩ := Server.requestVoteReply_cases h
  rcases hcases with ⟨rfl, -⟩ | ⟨-, rfl, -⟩ | ⟨-, -, -, rfl⟩ | ⟨-, -, -, -, -, hlead⟩
  · exact Keeps.refl _
  · exact keeps_setNewTerm _ _
  · exact .volatile rfl rfl fun _ h => h
  · rw [(Server.becomeLeader_eq hlead).1]
    exact .volatile rfl rfl fun _ h => h

theorem keeps_appendEntriesReply {me peer : Fin n} {args : AppendEntriesArgs n C}
    {reply : AppendEntriesReply} (h : rf.appendEntriesReply me peer args reply = some rf') :
    Keeps rf rf' := by
  rcases Server.appendEntriesReply_cases h with rfl | ⟨-, rfl⟩ | ⟨-, next, matched, -, h⟩
  · exact Keeps.refl _
  · exact keeps_setNewTerm _ _
  · rcases Server.leaderCommitLog_cases h with rfl | ⟨k, e, -, -, -, -, -, rfl⟩
    · exact .volatile rfl rfl fun _ h => h
    · exact .volatile rfl rfl fun _ h => h

theorem keeps_stepDown (rf : Server n C) : Keeps rf rf.stepDown := by
  unfold Server.stepDown
  split_ifs
  · exact .volatile rfl rfl fun _ h => h
  · exact Keeps.refl rf

namespace Server.Durable

theorem keeps (h : rf.Durable made) (hk : Keeps rf rf') : rf'.Durable made where
  saved := hk.saved h.saved
  contiguous := hk.logs ▸ h.contiguous
  snapshot := by rw [hk.logs, hk.snapshot]; exact h.snapshot
  installs msg hm := h.installs msg (hk.installs hm)

/-- A new log with the same snapshot point is saved. -/
theorem persist (h : rf.Durable made) {logs : Log C} (hc : logs.Contiguous)
    (hf : logs.getFirstLog = rf.logs.getFirstLog) :
    (Server.persist { rf with logs }).Durable made where
  saved := Or.inl rfl
  contiguous := hc
  snapshot := by
    change Provided made logs.getFirstLog.index rf.persister.snapshot
    rw [hf]
    exact h.snapshot
  installs := h.installs

theorem start (h : rf.Durable made) {me : Fin n} {command : Option C}
    {requests : List (Fin n × Message n C)} {result : Option (ℕ × ℕ)}
    (hs : rf.start me command = some (rf', requests, result)) : rf'.Durable made := by
  rcases Server.start_cases hs with ⟨rfl, -⟩ | ⟨-, -, rfl⟩
  · exact h
  · refine h.persist (h.contiguous.append fun k e hk => ?_) (Log.getFirstLog_append _ _)
    obtain ⟨rfl, rfl⟩ : k = 0 ∧ _ = e := by simpa [List.getElem?_singleton] using hk
    rfl

theorem appendEntriesRpc (h : rf.Durable made) {args : AppendEntriesArgs n C}
    {reply : AppendEntriesReply} (hm : (Message.appendEntries args).Durable made)
    (hs : rf.appendEntriesRpc args = some (rf', reply)) : rf'.Durable made := by
  rcases Server.appendEntriesRpc_cases hs with ⟨-, rfl⟩ | ⟨-, -, rfl⟩ | ⟨-, hs⟩
  · exact h
  · exact h.keeps (keeps_setNewTerm _ _)
  have hdown := h.keeps (keeps_stepDown rf)
  rcases Server.acceptEntries_cases hs with ⟨-, rfl⟩ | ⟨-, prev, rf₁, hprev, -, hstore, rfl⟩
  · exact hdown
  obtain ⟨-, hfirst, hlast⟩ := hdown.contiguous.get?_index hprev
  obtain ⟨hc, hf⟩ := contiguous_storeEntries hstore hdown.contiguous hm hfirst hlast
  have hrf₁ : rf₁.Durable made := by
    rcases Server.storeEntries_cases hstore with rfl | ⟨logs, rfl⟩
    · exact hdown
    · exact hdown.persist hc hf
  refine hrf₁.keeps ?_
  split_ifs
  · exact .volatile rfl rfl fun _ h => h
  · exact Keeps.refl _

theorem installSnapshot (h : rf.Durable made) {args : InstallSnapshotArgs}
    (hm : Provided made args.lastIncludedIndex args.data) :
    (rf.installSnapshot args).1.Durable made := by
  have hc := h.keeps (keeps_catchUp rf args.term)
  rcases rf.installSnapshot_cases args with heq | heq | heq <;> rw [heq]
  · exact h
  · exact hc
  · refine ⟨hc.saved, hc.contiguous, hc.snapshot, fun msg hmsg => ?_⟩
    rcases List.mem_append.mp hmsg with hmsg | hmsg
    · exact hc.installs msg hmsg
    · obtain rfl := List.mem_singleton.mp hmsg
      exact hm

theorem condInstallSnapshot (h : rf.Durable made) {term index : ℕ} {data : List UInt8}
    {accepted : Bool} (hm : Provided made index data)
    (hs : rf.condInstallSnapshot term index data = some (rf', accepted)) : rf'.Durable made := by
  rcases Server.condInstallSnapshot_cases hs with ⟨-, rfl⟩ | ⟨-, -, logs, hlogs, rfl⟩
  · exact h
  have hc : logs.Contiguous ∧ logs.getFirstLog.index = index := by
    obtain ⟨logs', hlogs', rfl⟩ := Option.map_eq_some_iff.mp hlogs
    split_ifs at hlogs'
    · obtain rfl := Option.some.inj hlogs'
      exact ⟨Log.Contiguous.fresh_setFirst _ _ _, rfl⟩
    · exact ⟨(h.contiguous.rebase hlogs' _ _).1, rfl⟩
  exact ⟨Or.inl rfl, hc.1, hc.2.symm ▸ hm, h.installs⟩

theorem takeSnapshot (h : rf.Durable made) {index : ℕ} {data : List UInt8}
    (hm : rf.logs.getFirstLog.index < index → made index data)
    (hs : rf.snapshot index data = some rf') : rf'.Durable made := by
  rcases Server.snapshot_cases hs with rfl | ⟨hlt, logs, hlogs, rfl⟩
  · exact h
  obtain ⟨hc, hf, -⟩ := h.contiguous.rebase hlogs logs.getFirstLog.term none
  have hfirst : ({ logs.getFirstLog with command := none } : Entry C) =
      ⟨index, logs.getFirstLog.term, none⟩ := by rw [← hf]
  rw [hfirst]
  exact ⟨Or.inl rfl, hc, Or.inl (hm hlt), h.installs⟩

/-- A restart finds in the persister what the crash took from memory. -/
theorem make_encode (h : rf.Saved) (epoch : ℕ) :
    (Server.make rf.persister epoch).encodeRaftState = rf.encodeRaftState ∧
      (Server.make rf.persister epoch).persister = rf.persister ∧
      (Server.make rf.persister epoch).installs = [] ∧
      (Server.make rf.persister epoch).commitIndex = rf.logs.getFirstLog.index ∧
      (Server.make rf.persister epoch).lastApplied = rf.logs.getFirstLog.index := by
  rcases h with hp | ⟨hp, he⟩
  · simp [Server.make, Server.readPersist, hp, Server.encodeRaftState]
  · have hlogs : rf.logs = Log.fresh := congrArg RaftState.logs he
    rw [he, hlogs]
    simp [Server.make, Server.readPersist, hp, Server.encodeRaftState, Log.fresh, Log.getFirstLog,
      Entry.zero]

theorem make (h : rf.Durable made) (epoch : ℕ) :
    (Server.make rf.persister epoch).Durable made := by
  obtain ⟨he, hp, hi, -, -⟩ := make_encode h.saved epoch
  exact h.keeps (.volatile he hp (by simp [hi]))

/-- What a leader sends. -/
theorem requestTo (h : rf.Durable made) {me peer : Fin n} {m : Message n C}
    (hm : rf.requestTo me peer = some m) : m.Durable made := by
  rcases Server.requestTo_cases hm with rfl | ⟨i, prev, hprev, rfl⟩
  · exact h.snapshot
  · obtain ⟨hidx, hfirst, -⟩ := h.contiguous.get?_index hprev
    intro k e he
    rw [List.getElem?_drop] at he
    change e.index = prev.index + 1 + k
    rw [h.contiguous.entry he, hidx]
    omega

end Server.Durable

end

namespace Cluster
variable {c c' : Cluster n C} {made : ℕ → List UInt8 → Prop}

structure Durable (made : ℕ → List UInt8 → Prop) (c : Cluster n C) : Prop where
  servers : ∀ i, (c.servers i).Durable made
  net : ∀ p ∈ c.net, p.message.Durable made

/-- The server that a step changes. -/
theorem Durable.effect (h : c.Durable made) {a : Action C n} {i : Fin n} {rf : Server n C}
    {new : List (Packet n C)} (heff : Effect c a i rf new)
    (hmade : ∀ s index data, a = .snapshot s index data →
      (c.servers s).logs.getFirstLog.index < index → made index data) : rf.Durable made := by
  have hi := h.servers i
  cases heff with
  | electionTimeout => exact hi.keeps ⟨fun _ => Or.inl rfl, rfl, rfl, fun _ h => h⟩
  | heartbeatTimeout => exact hi
  | start hs => exact hi.start hs
  | requestVote => exact hi.keeps (keeps_requestVote _)
  | appendEntries hp hm hs => exact hi.appendEntriesRpc (hm ▸ h.net _ hp) hs
  | @installSnapshot p args hp hm =>
    have hnet := h.net p hp
    rw [hm] at hnet
    exact hi.installSnapshot hnet
  | requestVoteReply _ _ _ _ hs => exact hi.keeps (keeps_requestVoteReply hs)
  | appendEntriesReply _ _ _ hs => exact hi.keeps (keeps_appendEntriesReply hs)
  | installSnapshotReply =>
    exact hi.keeps ((keeps_catchUp _ _).trans (.volatile rfl rfl fun _ h => h))
  | crash => exact hi.make _
  | applierCopy hs =>
    obtain ⟨-, -, entries, -, rfl⟩ := Server.applierCopy_cases hs
    exact hi.keeps (.volatile rfl rfl fun _ h => h)
  | applierSend hs =>
    obtain ⟨entry, rest, k, -, rfl⟩ := Server.applierSend_cases hs
    exact hi.keeps (.volatile rfl rfl fun _ h => h)
  | applierUpdate hs =>
    obtain ⟨k, -, rfl⟩ := Server.applierUpdate_cases hs
    exact hi.keeps (.volatile rfl rfl fun _ h => h)
  | snapshot ha hs => exact hi.takeSnapshot (hmade _ _ _ ha) hs
  | condInstallSnapshot hmsg hs =>
    have hmem := List.mem_of_getElem? hmsg
    refine Server.Durable.condInstallSnapshot ?_ (hi.installs _ hmem) hs
    exact hi.keeps (.volatile rfl rfl List.eraseIdx_subset)

theorem Durable.step (h : c.Durable made) {a : Action C n} (hs : c.step a = some c')
    (hmade : ∀ s index data, a = .snapshot s index data →
      (c.servers s).logs.getFirstLog.index < index → made index data) : c'.Durable made := by
  obtain ⟨hservers, hnet⟩ := step_keeps (S := fun _ rf => rf.Durable made)
    (N := fun p => p.message.Durable made) hs h.servers h.net fun {i rf new} heff _ => by
      have hrf := h.effect heff hmade
      refine ⟨hrf, fun p hp _ => ?_⟩
      rcases heff.sent hp with ⟨_, _, hm⟩ | ⟨peer, hm⟩ | ⟨_, _, _, hm⟩ | ⟨_, _, hm, -⟩ |
        ⟨_, _, hm⟩
      · simp [hm, Message.Durable]
      · exact hrf.requestTo hm
      · simp [hm, Message.Durable]
      · simp [hm, Message.Durable]
      · simp [hm, Message.Durable]
  exact ⟨hservers, hnet⟩

/-- In the step from `c` to `c'` the service of server `i` hands over `data` as its snapshot at
`index`, above the snapshot point, and the log is compacted there. -/
def Snapshots (c c' : Cluster n C) (i : Fin n) (index : ℕ) (data : List UInt8) : Prop :=
  (c.servers i).logs.getFirstLog.index < index ∧ c.step (.snapshot i index data) = some c'

end Cluster

section
variable {P : Cluster n C → Action C n → Prop} {r : ℕ → Cluster n C}

/-- The snapshots that services have produced before step `k` of a run. -/
def Made (r : ℕ → Cluster n C) (k index : ℕ) (data : List UInt8) : Prop :=
  ∃ j < k, ∃ s, (r j).Snapshots (r (j + 1)) s index data

theorem Provided.succ {k index : ℕ} {data : List UInt8} (h : Provided (Made r k) index data) :
    Provided (Made r (k + 1)) index data :=
  h.imp_left fun ⟨j, hj, s⟩ => ⟨j, hj.trans (Nat.lt_succ_self k), s⟩

theorem Cluster.Durable.succ {c : Cluster n C} {k : ℕ} (h : c.Durable (Made r k)) :
    c.Durable (Made r (k + 1)) where
  servers i :=
    have hi := h.servers i
    ⟨hi.saved, hi.contiguous, hi.snapshot.succ, fun msg hm => (hi.installs msg hm).succ⟩
  net p hp := by
    have hm := h.net p hp
    cases hmsg : p.message <;> rw [hmsg] at hm
    case installSnapshot args => exact hm.succ
    all_goals exact hm

theorem Cluster.Run.durable (hr : Cluster.Run P r) (k : ℕ) : (r k).Durable (Made r k) := by
  induction k with
  | zero =>
    rw [hr.init]
    exact
      ⟨fun i => ⟨Or.inr ⟨rfl, rfl⟩, ⟨_, LogView.fresh⟩, Or.inr ⟨rfl, rfl⟩, fun _ h => by cases h⟩,
        fun _ h => by cases h⟩
  | succ k ih =>
    rcases hr.steps k with heq | ⟨a, -, hs⟩
    · rw [heq]
      exact ih.succ
    · refine ih.succ.step hs fun s index data ha hlt => ?_
      subst ha
      exact ⟨k, Nat.lt_succ_self k, s, hlt, hs⟩

end

end RaftLabs.Raft
