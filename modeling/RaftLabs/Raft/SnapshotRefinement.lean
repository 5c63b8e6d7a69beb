import RaftLabs.Raft.ElectionRefinement

/-! Log compaction, the applier and restarts: `Snapshot` refines a compaction and
`CondInstallSnapshot` an installation, the rest does not move the replicated log. -/
namespace RaftLabs.Raft
open Basis Basis.Ledger Relation

variable {n : ℕ} {C : Type} {g : Ghost n C} {i : Fin n} {rf rf' : Server n C} (clean : Prop)

/-- The `InstallSnapshot` handler. -/
theorem View.installSnapshot (h : View g i rf) (hi : g.Inv) {args : InstallSnapshotArgs}
    {reply : InstallSnapshotReply} {caller : Fin n}
    (hsound : (Message.installSnapshot args : Message n C).Sound g caller i)
    (hs : rf.installSnapshot args = (rf', reply)) :
    ∃ g', Moves clean i g g' ∧ View g' i rf' ∧ Later rf rf' := by
  simp only [Server.installSnapshot] at hs
  by_cases hold : args.term < rf.currentTerm
  · rw [if_pos hold] at hs
    obtain ⟨rfl, rfl⟩ := Prod.mk.inj hs
    exact ⟨g, .refl, h, Later.refl _⟩
  rw [if_neg hold] at hs
  obtain ⟨g₁, hm₁, hv₁, hl₁⟩ := h.catchUp clean hi args.term
  obtain ⟨-, gr₁, -⟩ := hi.moves hm₁
  have hterm := (rf.catchUp_currentTerm (T := args.term) (by omega)).symm
  generalize (if rf.currentTerm < args.term then rf.setNewTerm args.term else rf) = rf₁ at *
  refine ⟨g₁, hm₁, ?_⟩
  split_ifs at hs with hle
  · obtain ⟨rfl, rfl⟩ := Prod.mk.inj hs
    exact ⟨hv₁, hl₁⟩
  · obtain ⟨rfl, rfl⟩ := Prod.mk.inj hs
    refine ⟨{ hv₁ with leads := fun hr => ?_, installs := ?_ }, ⟨hl₁.epoch, hl₁.commitIndex,
      hl₁.elections⟩⟩
    · exact (hv₁.leads hr).congr rfl rfl rfl
    · intro m hm
      rcases List.mem_append.mp hm with hm | hm
      · exact hv₁.installs hm
      · obtain rfl := List.mem_singleton.mp hm
        exact covered_mono hi gr₁ hterm.le hsound

/-- The reply to an `InstallSnapshot` call. -/
theorem View.installSnapshotReply (h : View g i rf) (hi : g.Inv) {args : InstallSnapshotArgs}
    (hle : args.lastIncludedIndex ≤ rf.commitIndex) (peer : Fin n)
    (reply : InstallSnapshotReply) :
    ∃ g', Moves clean i g g' ∧ View g' i (rf.installSnapshotReply peer args reply) ∧
      Later rf (rf.installSnapshotReply peer args reply) := by
  obtain ⟨g₁, hm₁, hv₁, hl₁⟩ := h.catchUp clean hi reply.term
  simp only [Server.installSnapshotReply]
  generalize (if rf.currentTerm < reply.term then rf.setNewTerm reply.term else rf) = rf₁ at *
  refine ⟨g₁, hm₁, hv₁.setMatch _ fun _ => Or.inl ?_, ⟨hl₁.epoch, hl₁.commitIndex, hl₁.elections⟩⟩
  exact_mod_cast hle.trans hl₁.commitIndex

/-- An accepted snapshot is installed over the log. Under `clean`, the log already holds an
entry of the right term at its position if it keeps a suffix. -/
theorem View.condInstallSnapshot (h : View g i rf) (hi : g.Inv) {term index : ℕ}
    {data : List UInt8} {accepted : Bool} (hcov : Covered g rf.currentTerm index term)
    (hclean : clean → rf.commitIndex < index → index < rf.logs.getLastLog.index →
      (rf.logs.get? index).map Entry.term = some term)
    (hs : rf.condInstallSnapshot term index data = some (rf', accepted)) :
    ∃ g', Moves clean i g g' ∧ View g' i rf' ∧ Later rf rf' := by
  unfold Server.condInstallSnapshot at hs
  split_ifs at hs with hle
  · obtain ⟨rfl, -⟩ := Prod.mk.inj (Option.some.inj hs)
    exact ⟨g, .refl, h, Later.refl _⟩
  obtain ⟨x, ⟨T, hT, hc, hx⟩, hxt⟩ := hcov
  have hlast := h.lastIndex
  have hlenT := hi.commit_le T
  have htermT : termAt (g.llog T) index = some term := termAt_eq_some.mpr ⟨x, hx, hxt⟩
  have hmove : Move clean i g (g.install i T (index + 1)) := by
    refine .install _ _ (Nat.succ_pos _) hc (hT.trans h.term.ge) ?_ fun hcl => ?_
    · have := h.first_le_commit
      rw [h.base]
      omega
    · by_cases hend : rf.logs.getLastLog.index ≤ index
      · left
        omega
      · right
        obtain ⟨e, he, het⟩ := Option.map_eq_some_iff.mp (hclean hcl (by omega) (by omega))
        rw [Nat.add_sub_cancel, htermT, ← het]
        exact (h.log.get?_spec he).2.2.1
  have gr := (hi.move hmove).2
  have hlog : (g.install i T (index + 1)).log i =
      (g.llog T).take (index + 1) ++ (g.log i).drop (index + 1) := Function.update_self _ _ _
  have hlen : ((g.llog T).take (index + 1)).length = index + 1 := by simp; omega
  have htermI : termAt ((g.install i T (index + 1)).log i) index = some term := by
    rw [hlog, termAt, List.getElem?_append_left (by omega), List.getElem?_take_of_lt (by omega)]
    exact htermT
  obtain ⟨logs, hlogs, hs⟩ := Option.bind_eq_some_iff.mp hs
  obtain ⟨kept, hkept, rfl⟩ := Option.map_eq_some_iff.mp hlogs
  have hview : LogView ((g.install i T (index + 1)).log i) (kept.setFirst ⟨index, term, none⟩) := by
    split_ifs at hkept with hlt
    · obtain rfl := Option.some.inj hkept
      refine LogView.fresh_setFirst ?_ htermI none
      rw [hlog, List.length_append, hlen, List.length_drop]
      omega
    · refine h.log.rebase hkept ?_ htermI ?_ none
      · rw [hlog, List.length_append, hlen, List.length_drop]
        omega
      · intro j hj
        rw [hlog, List.getElem?_append_right (by omega), hlen, List.getElem?_drop]
        congr 1
        omega
  obtain ⟨rfl, -⟩ := Prod.mk.inj (Option.some.inj hs)
  -- whatever the applier is sending lies below the snapshot
  have hhor : rf.horizon ≤ index := by have := h.horizon_le; omega
  have hhor' : ∀ pers : Persister n C, Server.horizon { rf with
      logs := kept.setFirst ⟨index, term, none⟩
      lastApplied := index
      commitIndex := index
      persister := pers } = index := by
    intro pers
    unfold Server.horizon at hhor ⊢
    cases ha : rf.applier with
    | waiting => rfl
    | sending es ci =>
      simp only [ha] at hhor ⊢
      omega
  refine ⟨_, .single hmove, ?_, ⟨rfl, by simp only [Server.saveStateAndSnapshot]; omega, rfl⟩⟩
  exact { h with
    log := hview
    base := Function.update_self _ _ _
    first_le := (hhor' _).ge
    horizon_le := (hhor' _).le
    settled := ⟨T, hT, hc, by rw [hlog]; exact List.prefix_append _ _⟩
    leads := by
      intro hr
      obtain ⟨hl, hcm, ha⟩ := h.leads hr
      refine ⟨hl, ?_, fun p => (ha p).imp_left fun hp => ?_⟩
      · change g.commit rf.currentTerm ≤ index + 1
        omega
      · change rf.matchIndex p ≤ (index : ℤ)
        omega
    batch := fun he => ⟨((h.batch he).1.trans hhor).trans (hhor' _).ge,
      hi.committed_mono gr le_rfl (h.batch he).2⟩
    applied := fun hm => ⟨((h.applied hm).1.trans hhor).trans (hhor' _).ge,
      hi.committed_mono gr le_rfl (h.applied hm).2⟩
    installs := fun hm => covered_mono hi gr le_rfl (h.installs hm)
    persister := Or.inl rfl }

/-- A snapshot of the service at an index that it has received. -/
theorem View.snapshot (h : View g i rf) (hi : g.Inv) {index : ℕ} {data : List UInt8}
    (hdel : index ≤ rf.horizon) (hs : rf.snapshot index data = some rf') :
    ∃ g', Moves clean i g g' ∧ View g' i rf' ∧ Later rf rf' := by
  unfold Server.snapshot at hs
  split_ifs at hs with hle
  · obtain rfl := Option.some.inj hs
    exact ⟨g, .refl, h, Later.refl _⟩
  obtain ⟨logs, hlogs, hs⟩ := Option.bind_eq_some_iff.mp hs
  obtain rfl := Option.some.inj hs
  have hcommit := hdel.trans h.horizon_le
  have hlt := h.commit_lt hi
  have hset : g.Settled (g.term i) (index + 1) (g.log i) := by
    rw [h.term]
    exact h.settled.of_le (by omega)
  have hmove : Move clean i g (g.compact i (index + 1)) :=
    .compact _ (by rw [h.base]; omega) hset
  -- the entry at the snapshot point
  have hcompact := hlogs
  unfold Log.logCompact at hcompact
  rw [if_neg (by omega)] at hcompact
  have hfirst : rf.logs.get? index = some logs.getFirstLog := by
    rw [Log.get?, if_neg (by omega), ← Log.entries_zero, Log.ofSlice_eq_some hcompact,
      List.getElem?_drop, Nat.add_zero]
  obtain ⟨hidx, -, hterm, -⟩ := h.log.get?_spec hfirst
  have hentry : { logs.getFirstLog with command := none } =
      (⟨index, logs.getFirstLog.term, none⟩ : Entry C) := by rw [← hidx]
  refine ⟨_, .single hmove, ?_, ⟨rfl, le_rfl, rfl⟩⟩
  rw [hentry]
  exact { h with
    log := h.log.rebase hlogs rfl hterm (fun _ _ => rfl) none
    base := Function.update_self _ _ _
    first_le := hdel
    leads := fun hr => ⟨(h.leads hr).leader, (h.leads hr).commit, (h.leads hr).acked⟩
    persister := Or.inl rfl }

/-- The first critical section of the applier. -/
theorem View.applierCopy (h : View g i rf) (hi : g.Inv) (hs : rf.applierCopy = some rf') :
    View g i rf' ∧ Later rf rf' := by
  unfold Server.applierCopy at hs
  cases ha : rf.applier with
  | sending es ci => simp [ha] at hs
  | waiting =>
    simp only [ha] at hs
    split_ifs at hs with hle
    obtain ⟨es, hes, hs⟩ := Option.bind_eq_some_iff.mp hs
    obtain rfl := Option.some.inj hs
    have hhor : rf.horizon = rf.lastApplied := by simp [Server.horizon, ha]
    have hfirst := h.first_le
    rw [hhor] at hfirst
    have hhor' : Server.horizon { rf with applier := .sending es rf.commitIndex } =
        rf.commitIndex := by
      simp only [Server.horizon]
      omega
    refine ⟨{ h with
      first_le := ?_, horizon_le := hhor'.le, batch := ?_, applied := ?_, leads := ?_ },
      ⟨rfl, le_rfl, rfl⟩⟩
    · rw [hhor']
      exact h.first_le_commit
    · exact fun hr => (h.leads hr).congr rfl rfl rfl
    · intro e he
      obtain ⟨-, h₂, h₃⟩ := h.log.slice hes hfirst he
      rw [hhor']
      exact ⟨h₂, hi.settled_committed h.settled (Nat.lt_succ_of_le h₂) h₃⟩
    · intro m hm
      rw [hhor']
      exact ⟨(h.applied hm).1.trans h.horizon_le, (h.applied hm).2⟩

/-- One send of the applier. -/
theorem View.applierSend (h : View g i rf) (hs : rf.applierSend = some rf') :
    View g i rf' ∧ Later rf rf' := by
  unfold Server.applierSend at hs
  split at hs
  · rename_i entry rest ci ha
    obtain rfl := Option.some.inj hs
    have hhor : rf.horizon = max rf.lastApplied ci := by simp [Server.horizon, ha]
    have hfirst := h.first_le
    have hcommit := h.horizon_le
    rw [hhor] at hfirst hcommit
    have hbatch : rf.applier.batch = entry :: rest := by simp [Applier.batch, ha]
    refine ⟨{ h with
      first_le := hfirst
      horizon_le := hcommit
      leads := fun hr => (h.leads hr).congr rfl rfl rfl
      batch := ?_, applied := ?_ }, ⟨rfl, le_rfl, rfl⟩⟩
    · intro e he
      have := h.batch (e := e) (by rw [hbatch]; exact List.mem_cons_of_mem _ he)
      rwa [hhor] at this
    · intro m hm
      rcases List.mem_append.mp hm with hm | hm
      · have := h.applied hm
        rwa [hhor] at this
      · obtain rfl := List.mem_singleton.mp hm
        have := h.batch (e := entry) (by rw [hbatch]; exact List.mem_cons_self)
        rwa [hhor] at this
  · cases hs

/-- The second critical section of the applier. -/
theorem View.applierUpdate (h : View g i rf) (hs : rf.applierUpdate = some rf') :
    View g i rf' ∧ Later rf rf' := by
  unfold Server.applierUpdate at hs
  split at hs
  · rename_i ci ha
    obtain rfl := Option.some.inj hs
    have hhor : rf.horizon = max rf.lastApplied ci := by simp [Server.horizon, ha]
    have hfirst := h.first_le
    have hcommit := h.horizon_le
    rw [hhor] at hfirst hcommit
    refine ⟨{ h with
      first_le := hfirst
      horizon_le := hcommit
      leads := fun hr => (h.leads hr).congr rfl rfl rfl
      batch := by intro e he; cases he
      applied := ?_ }, ⟨rfl, le_rfl, rfl⟩⟩
    intro m hm
    have := h.applied hm
    rwa [hhor] at this
  · cases hs

/-- A restarted server represents the same log; it knows only the snapshot to be committed. -/
theorem View.restart (h : View g i rf) (epoch : ℕ) :
    View g i (Server.make rf.persister epoch) := by
  have hset : g.Settled rf.currentTerm (rf.logs.getFirstLog.index + 1) (g.log i) :=
    h.settled.of_le (by have := h.first_le_commit; omega)
  rcases h.persister with hp | ⟨hp, henc⟩
  · have hmake : Server.make rf.persister epoch = { Server.make {} epoch with
        persister := rf.persister
        currentTerm := rf.currentTerm
        votedFor := rf.votedFor
        logs := rf.logs
        lastApplied := rf.logs.getFirstLog.index
        commitIndex := rf.logs.getFirstLog.index } := by
      simp [Server.make, Server.readPersist, hp, Server.encodeRaftState]
    rw [hmake]
    exact {
      term := h.term
      ballot := h.ballot
      log := h.log
      base := h.base
      first_le := le_rfl
      horizon_le := le_rfl
      settled := hset
      leads := by intro hr; cases hr
      candidate := by intro hr; cases hr
      batch := by intro e he; cases he
      applied := by intro m hm; cases hm
      installs := by intro m hm; cases hm
      persister := Or.inl hp }
  · obtain ⟨hterm, hvote, hlogs⟩ :
        rf.currentTerm = 0 ∧ rf.votedFor = none ∧ rf.logs = Log.fresh := by
      simpa [Server.encodeRaftState] using henc
    have hmake : Server.make rf.persister epoch =
        { Server.make {} epoch with persister := rf.persister } := by
      simp [Server.make, Server.readPersist, hp]
    rw [hmake]
    exact {
      term := h.term.trans hterm
      ballot := by have hb := h.ballot; rw [hterm, hvote] at hb; exact hb
      log := by have hl := h.log; rw [hlogs] at hl; exact hl
      base := h.base.trans (by rw [hlogs]; rfl)
      first_le := le_rfl
      horizon_le := le_rfl
      settled := by rw [hterm, hlogs] at hset; exact hset
      leads := by intro hr; cases hr
      candidate := by intro hr; cases hr
      batch := by intro e he; cases he
      applied := by intro m hm; cases hm
      installs := by intro m hm; cases hm
      persister := Or.inr ⟨hp, rfl⟩ }

end RaftLabs.Raft
