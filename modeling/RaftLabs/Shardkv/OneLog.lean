import RaftLabs.Basis.Linearizability
import RaftLabs.Shardkv.SingleCopy

/-! The groups together behave like one store with one log: the operations that they execute, in
the order in which these are committed, with the replies of the store. The tables of last
operations hold replies from this log. -/
namespace RaftLabs.Shardkv
open Basis Shardctrler

/-- The store as one object. -/
def store : SeqSpec KV CommandArgs CommandReply where
  init := fun _ => none
  step m args reply := if reply = (execute m args).2 then some (execute m args).1 else none

abbrev EffectLog := List (Effect CommandArgs CommandReply ℕ)

/-- The store after a log of effects. -/
def contents (log : EffectLog) : KV :=
  log.foldl (fun m e => (execute m e.input).1) fun _ => none

/-- Every entry of the table is that of an executed write, with its reply. -/
def Vouched (log : EffectLog) (table : ℕ → Option OperationInfo) : Prop :=
  ∀ ⦃clientId info⦄, table clientId = some info → ∃ e ∈ log, e.input.op ≠ .get ∧
    e.input.clientId = clientId ∧ e.input.commandId = info.maxAppliedCommandId ∧
    e.output = info.lastReply

/-- The effect of a command, at a time. -/
def ShardKV.effects (kv : ShardKV) (c : Command) (t : ℕ) : EffectLog :=
  match kv.effect c with
  | some args => [⟨args, (kv.applyOperation args).2, t⟩]
  | none => []

variable {h : History} {g : ℤ} {i : ShardId} {l : List Command} {c : Command}
  {args : CommandArgs} {log log' : EffectLog} {kv : ShardKV} {n t : ℕ}

theorem contents_concat (log : EffectLog) (e : Effect CommandArgs CommandReply ℕ) :
    contents (log ++ [e]) = (execute (contents log) e.input).1 := by simp [contents]

theorem contents_effects (log : EffectLog) (kv : ShardKV) (c : Command) (t : ℕ) :
    contents (log ++ kv.effects c t) = after (contents log) (kv.effect c) := by
  unfold ShardKV.effects
  cases kv.effect c with
  | none => rw [List.append_nil, after]
  | some args => rw [contents_concat, after]

theorem ShardKV.mem_effects {e : Effect CommandArgs CommandReply ℕ} (he : e ∈ kv.effects c t) :
    c = .operation e.input ∧ kv.Takes e.input ∧ e.output = (kv.applyOperation e.input).2 ∧
      e.time = t := by
  unfold effects at he
  cases heff : kv.effect c with
  | none =>
    rw [heff] at he
    cases he
  | some args =>
    rw [heff] at he
    obtain rfl := List.mem_singleton.mp he
    obtain ⟨hc, ht⟩ := takes_of_effect heff
    exact ⟨hc, ht, rfl, rfl⟩

theorem ShardKV.Takes.effects (ht : kv.Takes args) (t : ℕ) :
    kv.effects (.operation args) t = [⟨args, (kv.applyOperation args).2, t⟩] := by
  simp [ShardKV.effects, effect, ht]

section Vouched
variable {old new : ℕ → Option OperationInfo}

theorem Vouched.mono (hv : Vouched log old) (hsub : log ⊆ log') : Vouched log' old := by
  intro clientId info hinfo
  obtain ⟨e, he, hrest⟩ := hv hinfo
  exact ⟨e, hsub he, hrest⟩

theorem Vouched.merge (hold : Vouched log old) (hnew : Vouched log new) :
    Vouched log (ShardKV.mergeOperations old new) := by
  intro clientId info hinfo
  unfold ShardKV.mergeOperations at hinfo
  cases hn : new clientId with
  | none =>
    simp only [hn] at hinfo
    exact hold hinfo
  | some infoNew =>
    cases ho : old clientId with
    | none =>
      simp only [hn, ho] at hinfo
      exact hnew (hn.trans hinfo)
    | some infoOld =>
      simp only [hn, ho] at hinfo
      split_ifs at hinfo with hlt
      · exact hnew (hn.trans hinfo)
      · exact hold (ho.trans hinfo)

/-- The table after one more command. -/
theorem Vouched.apply (hv : Vouched log kv.lastOperations)
    (hc : ∀ reply, c = .insertShards reply → Vouched log reply.lastOperations) (t : ℕ) :
    Vouched (log ++ kv.effects c t) (kv.apply c).1.lastOperations := by
  have hkeep : Vouched (log ++ kv.effects c t) kv.lastOperations :=
    hv.mono (List.subset_append_left _ _)
  cases c with
  | operation args =>
    by_cases ht : kv.Takes args
    case neg => rwa [ShardKV.apply_of_not_takes ht]
    have happ : (kv.apply (.operation args)).1.lastOperations =
        if args.op = .get then kv.lastOperations
        else Function.update kv.lastOperations args.clientId
          (some ⟨args.commandId, (kv.applyOperation args).2⟩) := by
      simp only [ShardKV.apply, ShardKV.applyOperation, if_pos ht.1, if_neg ht.2]
      by_cases hop : args.op = .get <;> simp [hop]
    rw [happ]
    split_ifs with hop
    · exact hkeep
    · intro clientId info hinfo
      by_cases hid : clientId = args.clientId
      · subst hid
        rw [Function.update_self] at hinfo
        obtain rfl := Option.some.inj hinfo
        exact ⟨⟨args, (kv.applyOperation args).2, t⟩, by rw [ht.effects]; simp, hop, rfl, rfl, rfl⟩
      · rw [Function.update_of_ne hid] at hinfo
        exact hkeep hinfo
  | configuration config =>
    simp only [ShardKV.apply, ShardKV.applyConfiguration, ShardKV.updateShardStatus]
    split_ifs <;> exact hkeep
  | insertShards reply =>
    simp only [ShardKV.apply, ShardKV.applyInsertShards]
    split_ifs
    · exact hkeep.merge ((hc reply rfl).mono (List.subset_append_left _ _))
    · exact hkeep
  | deleteShards args =>
    simp only [ShardKV.apply, ShardKV.applyDeleteShards]
    split_ifs <;> exact hkeep
  | emptyEntry => exact hkeep

end Vouched

namespace System

variable {sys sys' : System}

/-- A group that can serve a shard knows every write to it. -/
theorem Once.covers (ho : sys.Once h) (hi : sys.Inv h) (hstay : h.StaysAssigned) (hg : g ≠ 0)
    (hs : (replay g (sys.logs g)).canServer i) (he : Executed sys.logs n i args) :
    Covers (replay g (sys.logs g)).lastOperations args := by
  obtain ⟨howner, hh⟩ := hi.logs.holds_of_canServer List.prefix_rfl hs
  obtain ⟨hne, hheld⟩ := hi.logs.held_of_executed ho.zero he
  rcases Nat.lt_or_eq_of_le (hi.logs.not_behind hstay.returnsHome hg hs hne rfl hheld) with
    hlt | rfl
  · exact ho.known hg List.prefix_rfl howner hh hlt he
  · obtain ⟨l, hl, hex, -⟩ := hi.logs.executed_owner he howner
    exact hex.covers.replay_mono hl

/-- The log of effects accounts for what the groups have done. -/
structure Logged (h : History) (sys : System) (log : EffectLog) : Prop where
  copy : SingleCopy h sys.logs (contents log)
  legal : store.exec store.init (log.map Effect.toOperation) = some (contents log)
  issued : ∀ e ∈ log, e.input ∈ sys.issued
  once : log.Pairwise fun e e' => e.input = e'.input → e.input.op = .get
  executed : ∀ e ∈ log, e.input.op ≠ .get →
    ∃ n, Executed sys.logs n (key2shard e.input.key) e.input
  recorded : ∀ {g l args}, l ++ [.operation args] <+: sys.logs g → (replay g l).Takes args →
    ∃ e ∈ log, e.input = args ∧ e.output = ((replay g l).applyOperation args).2
  tables : ∀ {g l}, l <+: sys.logs g → Vouched log (replay g l).lastOperations
  sent : ∀ {g reply}, .insertShards reply ∈ sys.proposals g → Vouched log reply.lastOperations

theorem init_logged (h : History) : init.Logged h [] where
  copy := singleCopy_init h
  legal := rfl
  issued _ he := by cases he
  once := List.Pairwise.nil
  executed _ he := by cases he
  recorded hl := by simpa [init] using hl.length_le
  tables {g l} hl := by
    rw [List.prefix_nil.mp hl]
    intro _ _ hinfo
    cases hinfo
  sent hc := by cases hc

theorem Logged.propose (hl : sys.Logged h log)
    (hc : ∀ reply, c = .insertShards reply → Vouched log reply.lastOperations) :
    (sys.propose g c).Logged h log :=
  { hl with
    sent := fun hmem => by
      rcases mem_propose hmem with hmem | ⟨-, rfl⟩
      · exact hl.sent hmem
      · exact hc _ rfl }

/-- The reply of the group that executes an operation is that of the store. -/
theorem Logged.reply (hl : sys.Logged h log) (hg : g ≠ 0)
    (ht : (replay g (sys.logs g)).Takes args) :
    ((replay g (sys.logs g)).applyOperation args).2 = (execute (contents log) args).2 := by
  rw [ht.reply]
  exact (hl.copy.served hg ht.1).execute.2

theorem Logged.legal_effects (hl : sys.Logged h log) (hg : g ≠ 0) (c : Command) (t : ℕ) :
    store.exec store.init
        ((log ++ (replay g (sys.logs g)).effects c t).map Effect.toOperation) =
      some (contents (log ++ (replay g (sys.logs g)).effects c t)) := by
  rw [contents_effects, List.map_append, SeqSpec.exec_append, hl.legal, Option.bind_some]
  unfold ShardKV.effects
  cases heff : (replay g (sys.logs g)).effect c with
  | none => rfl
  | some args =>
    have hreply := hl.reply hg (ShardKV.takes_of_effect heff).2
    simp [Effect.toOperation, store, hreply, after]

/-- A write is not executed again. -/
theorem Logged.not_taken_twice (hl : sys.Logged h log) (hi : sys.Inv h) (ho : sys.Once h)
    (hstay : h.StaysAssigned) (hg : g ≠ 0) (ht : (replay g (sys.logs g)).Takes args)
    {e : Effect CommandArgs CommandReply ℕ} (he : e ∈ log) (heq : e.input = args) :
    args.op = .get := by
  subst heq
  by_contra hop
  obtain ⟨n, hex⟩ := hl.executed e he hop
  exact ht.2 (skips_of_covers hop (ho.covers hi hstay hg ht.1 hex))

/-- A command is committed. -/
theorem Logged.commit (hl : sys.Logged h log) (hi : sys.Inv h) (ho : sys.Once h)
    (hstay : h.StaysAssigned) (hg : g ≠ 0) (hc : c ∈ sys.proposals g) (t : ℕ) :
    Logged h { sys with logs := extend sys.logs g c }
      (log ++ (replay g (sys.logs g)).effects c t) := by
  set kv := replay g (sys.logs g) with hkv
  have hsub : log ⊆ log ++ kv.effects c t := List.subset_append_left _ _
  have hpre := prefix_extend sys.logs g c
  refine ⟨?_, hl.legal_effects hg c t, fun e he => ?_, ?_, fun e he hop => ?_,
    fun {j l args} hpl ht => ?_, fun {j l} hpl => ?_, fun hmem => (hl.sent hmem).mono hsub⟩
  · rw [contents_effects]
    exact hl.copy.extend hi ho hstay hg (hi.proposed hc)
  · rcases List.mem_append.mp he with he | he
    · exact hl.issued e he
    · obtain ⟨rfl, -⟩ := ShardKV.mem_effects he
      exact ho.proposed hc
  · refine List.pairwise_append.mpr ⟨hl.once, ?_, fun e he e' he' heq => ?_⟩
    · unfold ShardKV.effects
      cases kv.effect c with
      | none => exact List.Pairwise.nil
      | some args => exact List.pairwise_singleton _ _
    · obtain ⟨-, ht, -⟩ := ShardKV.mem_effects he'
      rw [heq]
      exact hl.not_taken_twice hi ho hstay hg ht he heq
  · rcases List.mem_append.mp he with he | he
    · obtain ⟨n, hex⟩ := hl.executed e he hop
      exact ⟨n, hex.mono hpre⟩
    · obtain ⟨rfl, ht, -⟩ := ShardKV.mem_effects he
      exact ⟨_, g, sys.logs g, concat_prefix_extend, ⟨hop, ht.1, ht.2⟩, rfl, rfl⟩
  · rcases prefix_of_extend hpl with hpl | ⟨rfl, heq⟩
    · obtain ⟨e, he, hrest⟩ := hl.recorded hpl ht
      exact ⟨e, hsub he, hrest⟩
    · obtain ⟨rfl, hcom⟩ := List.append_inj' heq rfl
      obtain rfl := List.singleton_inj.mp hcom
      have htakes : kv.Takes args := ht
      exact ⟨⟨args, (kv.applyOperation args).2, t⟩, by rw [htakes.effects]; simp, rfl, rfl⟩
  · rcases prefix_of_extend hpl with hpl | ⟨rfl, rfl⟩
    · exact (hl.tables hpl).mono hsub
    · rw [replay_concat]
      refine (hl.tables List.prefix_rfl).apply (fun reply heq => ?_) t
      subst heq
      exact hl.sent hc

/-- A step of the system adds at most one effect. -/
theorem Logged.step (hl : sys.Logged h log) (hi : sys.Inv h) (ho : sys.Once h)
    (hstay : h.StaysAssigned) {a : Action} (hs : sys.step h a = some sys') (t : ℕ) :
    ∃ new : EffectLog, (∀ e ∈ new, e.time = t ∧ e.input ∈ sys.issued) ∧
      sys'.Logged h (log ++ new) := by
  have hnone {sys₁ : System} (hl₁ : sys₁.Logged h log) :
      ∃ new : EffectLog, (∀ e ∈ new, e.time = t ∧ e.input ∈ sys.issued) ∧
        sys₁.Logged h (log ++ new) := by
    refine ⟨[], fun _ he => ?_, ?_⟩
    · cases he
    · rwa [List.append_nil]
  cases a with
  | issue args =>
    obtain ⟨-, rfl⟩ := of_guarded hs
    exact hnone { hl with issued := fun e he => List.mem_append_left _ (hl.issued e he) }
  | command gid p args =>
    obtain ⟨-, rfl⟩ := of_guarded hs
    exact hnone (hl.propose fun _ heq => by cases heq)
  | configurationAction gid p =>
    obtain ⟨-, rfl⟩ := of_guarded hs
    exact hnone (hl.propose fun _ heq => by cases heq)
  | migrationAction gid p source q shardIds =>
    obtain ⟨-, -, -, rfl⟩ := of_migrationAction hs
    refine hnone (hl.propose fun reply heq => ?_)
    cases heq
    exact hl.tables (List.take_prefix q _)
  | gcAction gid p source q shardIds index =>
    obtain ⟨-, -, -, ⟨-, rfl⟩ | ⟨-, rfl⟩⟩ := of_gcAction hs
    · exact hnone (hl.propose fun _ heq => by cases heq)
    · have hp := hl.propose (g := source)
        (c := .deleteShards ⟨(sys.replica gid p).num, shardIds⟩) fun _ heq => by cases heq
      exact hnone { hp with }
  | gcReply k =>
    obtain ⟨c, -, -, -, rfl⟩ := of_gcReply hs
    have hp := hl.propose (g := c.puller) (c := .deleteShards c.args) fun _ heq => by cases heq
    exact hnone { hp with }
  | checkEntryInCurrentTermAction gid =>
    obtain rfl := Option.some.inj hs
    exact hnone (hl.propose fun _ heq => by cases heq)
  | commit gid k =>
    obtain ⟨c, hc, hg, rfl⟩ := of_commit hs
    refine ⟨_, fun e he => ?_, hl.commit hi ho hstay hg hc t⟩
    obtain ⟨rfl, -, -, htime⟩ := ShardKV.mem_effects he
    exact ⟨htime, ho.proposed hc⟩

end System

end RaftLabs.Shardkv
