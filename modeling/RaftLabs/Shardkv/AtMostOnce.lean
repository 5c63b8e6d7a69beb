import RaftLabs.Shardkv.Ownership

/-! At-most-once execution of writes over all groups. The table of last operations travels with
the shards, so that a group that holds a shard knows every write that was executed on it before. -/
namespace RaftLabs.Shardkv
open Basis Shardctrler

/-- The table makes the request a duplicate. -/
def Covers (table : ℕ → Option OperationInfo) (args : CommandArgs) : Prop :=
  ∃ info, table args.clientId = some info ∧ args.commandId ≤ info.maxAppliedCommandId

variable {h : History} {logs : ℤ → List Command} {n m : ℕ} {i : ShardId} {g : ℤ}
  {l l' : List Command} {args : CommandArgs}

section Table
variable {kv : ShardKV} {old new : ℕ → Option OperationInfo}

theorem skips_of_covers (hw : args.op ≠ .get) (hc : Covers kv.lastOperations args) :
    kv.Skips args := by
  obtain ⟨info, hinfo, hle⟩ := hc
  exact ⟨hw, by simpa [ShardKV.isDuplicateRequest, hinfo] using hle⟩

theorem Covers.merge_old (hc : Covers old args) :
    Covers (ShardKV.mergeOperations old new) args := by
  obtain ⟨info, hinfo, hle⟩ := hc
  unfold Covers ShardKV.mergeOperations
  rw [hinfo]
  cases new args.clientId with
  | none => exact ⟨info, rfl, hle⟩
  | some info' =>
    simp only
    split_ifs with hlt
    · exact ⟨info', rfl, by omega⟩
    · exact ⟨info, rfl, hle⟩

theorem Covers.merge_new (hc : Covers new args) :
    Covers (ShardKV.mergeOperations old new) args := by
  obtain ⟨info, hinfo, hle⟩ := hc
  unfold Covers ShardKV.mergeOperations
  rw [hinfo]
  cases old args.clientId with
  | none => exact ⟨info, rfl, hle⟩
  | some info' =>
    simp only
    split_ifs with hlt
    · exact ⟨info, rfl, hle⟩
    · exact ⟨info', rfl, by omega⟩

/-- An executed write is entered under an identifier larger than the one it replaces. -/
theorem Covers.update {args' : CommandArgs} {reply : CommandReply}
    (hw : args'.op ≠ .get) (hs : ¬ kv.Skips args') (hc : Covers kv.lastOperations args) :
    Covers (Function.update kv.lastOperations args'.clientId (some ⟨args'.commandId, reply⟩))
      args := by
  by_cases hid : args.clientId = args'.clientId
  · refine ⟨⟨args'.commandId, reply⟩, by rw [hid, Function.update_self], ?_⟩
    by_contra hlt
    obtain ⟨info, hinfo, hle⟩ := hc
    refine hs (skips_of_covers hw ⟨info, hid ▸ hinfo, ?_⟩)
    change ¬ args.commandId ≤ args'.commandId at hlt
    omega
  · obtain ⟨info, hinfo, hle⟩ := hc
    exact ⟨info, by rwa [Function.update_of_ne hid], hle⟩

theorem Covers.apply (hc : Covers kv.lastOperations args) (c : Command) :
    Covers (kv.apply c).1.lastOperations args := by
  cases c with
  | operation args' =>
    change Covers (kv.applyOperation args').1.lastOperations args
    rcases kv.applyOperation_cases args' with heq | ⟨-, hs, heq⟩
    · rwa [heq]
    · rw [heq]
      by_cases hop : args'.op = .get
      · simpa only [if_pos hop] using hc
      · simpa only [if_neg hop] using hc.update hop hs
  | configuration config =>
    simp only [ShardKV.apply, ShardKV.applyConfiguration, ShardKV.updateShardStatus]
    split_ifs <;> exact hc
  | insertShards reply =>
    simp only [ShardKV.apply, ShardKV.applyInsertShards]
    split_ifs
    · exact hc.merge_old
    · exact hc
  | deleteShards args' =>
    simp only [ShardKV.apply, ShardKV.applyDeleteShards]
    split_ifs <;> exact hc
  | emptyEntry => exact hc

theorem Covers.replay_mono (hp : l <+: l') (hc : Covers (replay g l).lastOperations args) :
    Covers (replay g l').lastOperations args := by
  obtain ⟨t, rfl⟩ := hp
  induction t using List.reverseRecOn with
  | nil => simpa using hc
  | append_singleton t c ih =>
    rw [← List.append_assoc, replay_concat]
    exact ih.apply c

end Table

/-- A write that stands in the log after `l` is executed there: it is neither refused nor
skipped. -/
structure Executes (g : ℤ) (l : List Command) (args : CommandArgs) : Prop where
  write : args.op ≠ .get
  served : (replay g l).canServer (key2shard args.key)
  fresh : ¬ (replay g l).Skips args

/-- The operation that stands in the log after `l` changes the contents of a shard. -/
def Modifies (g : ℤ) (l : List Command) (args : CommandArgs) : Prop :=
  ∃ i, ((replay g (l ++ [.operation args])).stateMachines i).kv ≠ ((replay g l).stateMachines i).kv

/-- An operation that changes the contents of some shard is executed as a write. -/
theorem Modifies.executes (hm : Modifies g l args) : Executes g l args := by
  obtain ⟨i, hne⟩ := hm
  rw [replay_concat] at hne
  change (((replay g l).applyOperation args).1.stateMachines i).kv ≠ _ at hne
  rcases (replay g l).applyOperation_cases args with heq | ⟨hserv, hs, heq⟩
  · rw [heq] at hne
    exact absurd rfl hne
  · refine ⟨fun hop => hne ?_, hserv, hs⟩
    rw [heq]
    by_cases hi : i = key2shard args.key
    · subst hi
      simp only [Function.update_self, ShardKV.applyLogToStateMachines, hop]
      cases ((replay g l).stateMachines (key2shard args.key)).kv args.key <;> rfl
    · simp only [Function.update_of_ne hi]

theorem Executes.covers (he : Executes g l args) :
    Covers (replay g (l ++ [.operation args])).lastOperations args := by
  rw [replay_concat]
  change Covers ((replay g l).applyOperation args).1.lastOperations args
  simp only [ShardKV.applyOperation, if_pos he.served, if_neg he.fresh, if_pos he.write]
  exact ⟨_, Function.update_self _ _ _, le_refl _⟩

/-- A write to shard `i` has been executed in configuration `m`, by any group. -/
def Executed (logs : ℤ → List Command) (m : ℕ) (i : ShardId) (args : CommandArgs) : Prop :=
  ∃ g l, l ++ [.operation args] <+: logs g ∧ Executes g l args ∧ (replay g l).num = m ∧
    key2shard args.key = i

theorem num_operation (g : ℤ) (l : List Command) (args : CommandArgs) :
    (replay g (l ++ [.operation args])).num = (replay g l).num := by
  rw [replay_concat]
  exact ShardKV.num_apply_eq nofun

/-- A write is executed by the owner of its shard. -/
theorem LogsInv.executed_owner (hi : LogsInv h logs) (he : Executed logs m i args)
    (hg : h.owner m i = g) :
    ∃ l, l ++ [.operation args] <+: logs g ∧ Executes g l args ∧ (replay g l).num = m := by
  obtain ⟨g', l, hl, hex, rfl, rfl⟩ := he
  obtain ⟨howner, -⟩ := hi.holds_of_canServer ((List.prefix_append l _).trans hl) hex.served
  obtain rfl : g' = g := howner.symm.trans hg
  exact ⟨l, hl, hex, rfl⟩

/-- A new write is either executed before or it is the command at the end of the log. -/
theorem executed_extend {c : Command} (he : Executed (extend logs g c) m i args) :
    Executed logs m i args ∨ (c = .operation args ∧ Executes g (logs g) args ∧
      (replay g (logs g)).num = m ∧ key2shard args.key = i) := by
  obtain ⟨j, l, hl, hex, hnum, hkey⟩ := he
  rcases prefix_of_extend hl with hl | ⟨rfl, heq⟩
  · exact Or.inl ⟨j, l, hl, hex, hnum, hkey⟩
  · obtain ⟨rfl, hc⟩ := List.append_inj' heq rfl
    obtain rfl : Command.operation args = c := by simpa using hc
    exact Or.inr ⟨rfl, hex, hnum, hkey⟩

/-- A group that can serve a shard is not behind any group that has held it. -/
theorem LogsInv.not_behind (hi : LogsInv h logs) (hret : h.ReturnsHome) (hg : g ≠ 0)
    (hs : (replay g (logs g)).canServer i) {g' : ℤ} (hg' : g' ≠ 0) (hn : h.owner n i = g')
    (hh : Held g' (logs g') n i) : n ≤ (replay g (logs g)).num := by
  obtain ⟨howner, -⟩ := hi.holds_of_canServer List.prefix_rfl hs
  by_contra hlt
  by_cases heq : g = g'
  · subst heq
    rcases hh with hh | ⟨hh, -⟩ <;> omega
  · exact absurd (hi.passed hret hn hg' hh (not_le.mp hlt) howner hg heq) (lt_irrefl _)

/-- A group that has held a shard in configuration `n` knows the writes to it in earlier
configurations. -/
def Known (h : History) (logs : ℤ → List Command) : Prop :=
  ∀ ⦃g l n i m args⦄, g ≠ 0 → l <+: logs g → h.owner n i = g → Held g l n i → m < n →
    Executed logs m i args → Covers (replay g l).lastOperations args

/-- The table that is sent along with shards knows the writes to them. -/
def Carries (logs : ℤ → List Command) : Command → Prop
  | .insertShards reply => ∀ i ∈ reply.shards.map Prod.fst, ∀ m < reply.configNum, ∀ args,
    Executed logs m i args → Covers reply.lastOperations args
  | _ => True

/-- A group that has got beyond a configuration knows its own writes in it. -/
theorem LogsInv.known_own (hi : LogsInv h logs) (he : Executed logs m i args)
    (hg : h.owner m i = g) (hl : l <+: logs g) (hm : m < (replay g l).num) :
    Covers (replay g l).lastOperations args := by
  obtain ⟨l₀, hl₀, hex, hnum⟩ := hi.executed_owner he hg
  refine hex.covers.replay_mono (List.prefix_of_prefix_length_le hl₀ hl ?_)
  by_contra hlen
  have hle := num_replay_mono g (List.prefix_of_prefix_length_le hl hl₀ (by omega))
  rw [num_operation] at hle
  omega

/-- A group at rest that enters a configuration and need not pull a shard knows the writes to
it: it has owned the shard before, or nobody has. -/
theorem LogsInv.known_entry (hi : LogsInv h logs) (hstay : h.StaysAssigned) (hzero : logs 0 = [])
    (hk : Known h logs) (hg : g ≠ 0) (hserv : ∀ i, (replay g (logs g)).status i = .serving)
    (hn : h.owner ((replay g (logs g)).num + 1) i = g)
    (hnp : h.entryStatus g (replay g (logs g)).num i ≠ .pulling)
    (hm : m < (replay g (logs g)).num + 1) (he : Executed logs m i args) :
    Covers (replay g (logs g)).lastOperations args := by
  by_cases howner : h.owner (replay g (logs g)).num i = g
  · rcases Nat.lt_or_eq_of_le (Nat.lt_succ_iff.mp hm) with hlt | rfl
    · exact hk hg List.prefix_rfl howner (Or.inr ⟨rfl, by rw [hserv i]; decide⟩) hlt he
    · obtain ⟨l, hl, hex, -⟩ := hi.executed_owner he howner
      exact hex.covers.replay_mono hl
  · have hnone : h.owner (replay g (logs g)).num i = 0 := by
      by_contra hne
      exact hnp (by simp [History.entryStatus, howner, hn, hne])
    have hnone' : h.owner m i = 0 := by
      by_contra hne
      exact hstay i m _ (Nat.lt_succ_iff.mp hm) hne hnone
    obtain ⟨l, hl, -⟩ := hi.executed_owner he hnone'
    rw [hzero] at hl
    simpa using hl.length_le

/-- The state of a group after one more command. -/
theorem LogsInv.known_apply (hi : LogsInv h logs) (hstay : h.StaysAssigned)
    (hzero : logs 0 = []) (hk : Known h logs) (hg : g ≠ 0) {c : Command} (hs : Sound h logs g c)
    (hc : Carries logs c) (hn : h.owner n i = g) (hh : Held g (logs g ++ [c]) n i) (hm : m < n)
    (he : Executed logs m i args) : Covers (replay g (logs g ++ [c])).lastOperations args := by
  by_cases hold : Held g (logs g) n i
  · exact (hk hg List.prefix_rfl hn hold hm he).replay_mono (List.prefix_append _ _)
  unfold Held at hh hold
  rw [replay_concat] at hh ⊢
  rcases hi.apply_cases hg hs with hnum | ⟨rfl, hnum, hserv, hst⟩
  · -- the command inserts the shard and merges the table that came with it
    rw [hnum] at hh
    obtain ⟨hlast, hp⟩ := not_or.mp hold
    obtain ⟨rfl, hnp⟩ := hh.resolve_left hlast
    have hpull : (replay g (logs g)).status i = .pulling := by
      by_contra hne
      exact hp ⟨rfl, hne⟩
    obtain ⟨reply, data, rfl, hrn, hmem, -⟩ := ShardKV.insert_of_pulling hnum hpull hnp
    have hcov := hc i (List.mem_map_of_mem (f := Prod.fst) hmem) m (hrn ▸ hm) args he
    simp only [ShardKV.apply, ShardKV.applyInsertShards, if_pos hrn]
    exact hcov.merge_new
  · rw [hnum] at hh
    have hrest : (replay g (logs g)).num < n := by
      by_contra hle
      rcases Nat.lt_or_eq_of_le (not_lt.mp hle) with hlt | rfl
      · exact hold (Or.inl hlt)
      · exact hold (Or.inr ⟨rfl, by rw [hserv i]; decide⟩)
    obtain ⟨rfl, hnp⟩ : (replay g (logs g)).num + 1 = n ∧ _ := hh.resolve_left (by omega)
    rw [hst] at hnp
    exact (hi.known_entry hstay hzero hk hg hserv hn hnp hm he).apply _

theorem Known.extend (hk : Known h logs) (hi : LogsInv h logs) (hstay : h.StaysAssigned)
    (hzero : logs 0 = []) (hg : g ≠ 0) {c : Command} (hs : Sound h logs g c)
    (hc : Carries logs c) : Known h (extend logs g c) := by
  intro j l n i m args hj hl hn hh hm he
  rcases executed_extend he with hold | ⟨rfl, hex, rfl, rfl⟩
  · rcases prefix_of_extend hl with hl | ⟨rfl, rfl⟩
    · exact hk hj hl hn hh hm hold
    · exact hi.known_apply hstay hzero hk hg hs hc hn hh hm hold
  · -- a new write is executed too late for a configuration of an earlier state
    rcases prefix_of_extend hl with hl | ⟨rfl, rfl⟩
    · have hle := hi.not_behind hstay.returnsHome hg hex.served hj hn (hh.mono hl)
      omega
    · unfold Held at hh
      rw [num_operation] at hh
      rcases hh with hh | ⟨hh, -⟩ <;> omega

/-- A table that has been sent along stays complete. -/
theorem Carries.extend (hi : LogsInv h logs) (hret : h.ReturnsHome) (hg : g ≠ 0) {c c' : Command}
    {j : ℤ} (hs : Sound h logs j c') (hc' : Carries logs c') : Carries (extend logs g c) c' := by
  cases c' with
  | insertShards reply =>
    intro i hmem m hm args he
    rcases executed_extend he with hold | ⟨rfl, hex, rfl, rfl⟩
    · exact hc' i hmem m hm args hold
    · obtain ⟨S, hb, hle, -⟩ := hs
      have hmv := (hb.2 _).mp hmem
      have hpos := hmv.pos
      obtain ⟨howner, -⟩ := hi.holds_of_canServer List.prefix_rfl hex.served
      have hbehind := hi.not_behind hret hg hex.served hmv.source_ne hmv.source
        (Or.inl (by omega))
      have hlast : (replay g (logs g)).num = reply.configNum - 1 := by omega
      rw [hlast, hmv.source] at howner
      subst howner
      omega
  | operation _ => trivial
  | configuration _ => trivial
  | deleteShards _ => trivial
  | emptyEntry => trivial

namespace System

variable {sys sys' : System}

/-- The tables know the executed writes, and identifiers of requests are unique. -/
structure Once (h : History) (sys : System) : Prop where
  known : Known h sys.logs
  carries : ∀ {g c}, c ∈ sys.proposals g → Carries sys.logs c
  zero : sys.logs 0 = []
  proposed : ∀ {g args}, .operation args ∈ sys.proposals g → args ∈ sys.issued
  committed : ∀ {g args}, .operation args ∈ sys.logs g → args ∈ sys.issued
  unique : ∀ {a b}, a ∈ sys.issued → b ∈ sys.issued → a.clientId = b.clientId →
    a.commandId = b.commandId → a = b

theorem Once.propose (ho : sys.Once h) {c : Command} (hc : Carries sys.logs c)
    (hop : ∀ args, c = .operation args → args ∈ sys.issued) : (sys.propose g c).Once h :=
  { ho with
    carries := fun hc' => by
      rcases mem_propose hc' with hc' | ⟨-, rfl⟩
      · exact ho.carries hc'
      · exact hc
    proposed := fun hc' => by
      rcases mem_propose hc' with hc' | ⟨-, heq⟩
      · exact ho.proposed hc'
      · exact hop _ heq.symm }

theorem Once.issue (ho : sys.Once h) (hs : sys.issue args = some sys') : sys'.Once h := by
  obtain ⟨hfresh, rfl⟩ := of_guarded hs
  refine { ho with proposed := ?_, committed := ?_, unique := ?_ }
  · exact fun hc => List.mem_append_left _ (ho.proposed hc)
  · exact fun hc => List.mem_append_left _ (ho.committed hc)
  · intro a b ha hb hid hcmd
    rcases List.mem_append.mp ha with ha | ha <;> rcases List.mem_append.mp hb with hb | hb
    · exact ho.unique ha hb hid hcmd
    · rw [List.mem_singleton.mp hb] at hid hcmd
      exact absurd ⟨hid, hcmd⟩ (hfresh a ha)
    · rw [List.mem_singleton.mp ha] at hid hcmd
      exact absurd ⟨hid.symm, hcmd.symm⟩ (hfresh b hb)
    · rw [List.mem_singleton.mp ha, List.mem_singleton.mp hb]

/-- A replica that gives a shard away knows the writes to it. -/
theorem Once.migrationAction (ho : sys.Once h) (hi : sys.Inv h) {p q : ℕ} {source : ℤ}
    {shardIds : List ShardId} (hs : sys.migrationAction g p source q shardIds = some sys') :
    sys'.Once h := by
  obtain ⟨hne, hperm, hready, rfl⟩ := of_migrationAction hs
  have hb := (hi.fits_replica g p).batch (Or.inl rfl) hne hperm
  refine ho.propose (fun i hmem m hm args he => ?_) (fun _ hc => by cases hc)
  have hmv := (hb.2 i).mp (by simpa [ShardKV.shardsData, Function.comp_def] using hmem)
  have hpos := hmv.pos
  change m < (sys.replica g p).num at hm
  change Covers (replay source ((sys.logs source).take q)).lastOperations args
  have hready' : (sys.replica g p).num ≤ (replay source ((sys.logs source).take q)).num := hready
  rcases Nat.lt_or_ge m ((sys.replica g p).num - 1) with hlt | hge
  · exact ho.known hmv.source_ne (List.take_prefix q _) hmv.source (Or.inl (by omega)) hlt he
  · have hlast : m = (sys.replica g p).num - 1 := by omega
    exact hi.logs.known_own he (hlast ▸ hmv.source) (List.take_prefix q _) (by omega)

theorem Once.commit (ho : sys.Once h) (hi : sys.Inv h) (hstay : h.StaysAssigned) {k : ℕ}
    (hs : sys.commit g k = some sys') : sys'.Once h := by
  obtain ⟨c, hc, hg, rfl⟩ := of_commit hs
  refine { ho with known := ?_, carries := ?_, zero := ?_, committed := ?_ }
  · exact ho.known.extend hi.logs hstay ho.zero hg (hi.proposed hc) (ho.carries hc)
  · exact fun hc' => (ho.carries hc').extend hi.logs hstay.returnsHome hg (hi.proposed hc')
  · exact (Function.update_of_ne hg.symm _ _).trans ho.zero
  · intro j args hmem
    rcases mem_extend hmem with hmem | ⟨rfl, rfl⟩
    · exact ho.committed hmem
    · exact ho.proposed hc

theorem Once.step (ho : sys.Once h) (hi : sys.Inv h) (hstay : h.StaysAssigned) {a : Action}
    (hs : sys.step h a = some sys') : sys'.Once h := by
  cases a with
  | issue args => exact ho.issue hs
  | command gid p args =>
    obtain ⟨⟨hmem, -⟩, rfl⟩ := of_guarded hs
    exact ho.propose trivial fun _ heq => by
      cases heq
      exact hmem
  | configurationAction gid p =>
    obtain ⟨-, rfl⟩ := of_guarded hs
    exact ho.propose trivial fun _ heq => by cases heq
  | migrationAction gid p source q shardIds => exact ho.migrationAction hi hs
  | gcAction gid p source q shardIds index =>
    obtain ⟨-, -, -, ⟨-, rfl⟩ | ⟨-, rfl⟩⟩ := of_gcAction hs
    · exact ho.propose trivial fun _ heq => by cases heq
    · have hp := ho.propose (g := source)
        (c := .deleteShards ⟨(sys.replica gid p).num, shardIds⟩) trivial fun _ heq => by cases heq
      exact { hp with }
  | gcReply k =>
    obtain ⟨c, -, -, -, rfl⟩ := of_gcReply hs
    have hp := ho.propose (g := c.puller) (c := .deleteShards c.args) trivial
      fun _ heq => by cases heq
    exact { hp with }
  | checkEntryInCurrentTermAction gid =>
    obtain rfl := Option.some.inj hs
    exact ho.propose trivial fun _ heq => by cases heq
  | commit gid k => exact ho.commit hi hstay hs

theorem init_once (h : History) : init.Once h where
  known _ _ _ _ _ _ _ _ _ _ _ he := by
    obtain ⟨g, l, hl, -⟩ := he
    simpa [init] using hl.length_le
  carries hc := by cases hc
  zero := rfl
  proposed hc := by cases hc
  committed hc := by cases hc
  unique ha := by cases ha

theorem Run.once {Q : System → Action → Prop} {r : ℕ → System} (hr : Run h Q r)
    (hstay : h.StaysAssigned) (k : ℕ) : (r k).Inv h ∧ (r k).Once h :=
  hr.steps.invariant (I := fun sys => sys.Inv h ∧ sys.Once h)
    (fun _ _ _ _ hs hi => ⟨hi.1.step hs, hi.2.step hi.1 hstay hs⟩)
    (hr.init ▸ ⟨init_inv h, init_once h⟩) k

end System

section Once
variable {sys : System} {g' : ℤ}

/-- A write that a group has executed is not executed by it again. -/
theorem Executes.not_again (he : Executes g l args) (hp : l ++ [.operation args] <+: l')
    (he' : Executes g l' args) : False :=
  he'.fresh (skips_of_covers he.write (he.covers.replay_mono hp))

/-- The second execution of a write cannot be in a later configuration than the first. -/
theorem System.Once.not_later (ho : sys.Once h) (hi : sys.Inv h)
    (hl : l ++ [.operation args] <+: sys.logs g) (he : Executes g l args)
    (hl' : l' ++ [.operation args] <+: sys.logs g') (he' : Executes g' l' args) :
    ¬ (replay g l).num < (replay g' l').num := by
  intro hlt
  have hpre := (List.prefix_append l' _).trans hl'
  have hg' : g' ≠ 0 := by
    rintro rfl
    rw [ho.zero] at hl'
    simpa using hl'.length_le
  obtain ⟨howner, hh⟩ := hi.logs.holds_of_canServer hpre he'.served
  exact he'.fresh (skips_of_covers he.write
    (ho.known hg' hpre howner hh hlt ⟨g, l, hl, he, rfl, rfl⟩))

/-- Two executions of one write are at the same place in the log of the same group. -/
theorem System.Once.executes_unique (ho : sys.Once h) (hi : sys.Inv h)
    (hl : l ++ [.operation args] <+: sys.logs g) (he : Executes g l args)
    (hl' : l' ++ [.operation args] <+: sys.logs g') (he' : Executes g' l' args) :
    g = g' ∧ l = l' := by
  have hpre := (List.prefix_append l _).trans hl
  have hpre' := (List.prefix_append l' _).trans hl'
  have hnum : (replay g l).num = (replay g' l').num := by
    have h₁ := ho.not_later hi hl he hl' he'
    have h₂ := ho.not_later hi hl' he' hl he
    omega
  obtain ⟨howner, -⟩ := hi.logs.holds_of_canServer hpre he.served
  obtain ⟨howner', -⟩ := hi.logs.holds_of_canServer hpre' he'.served
  obtain rfl : g = g' := by rw [← howner, hnum, howner']
  refine ⟨rfl, ?_⟩
  rcases Nat.lt_trichotomy l.length l'.length with hlt | heq | hgt
  · exact (he.not_again (List.prefix_of_prefix_length_le hl hpre' (by simpa using hlt)) he').elim
  · exact (List.prefix_of_prefix_length_le hpre hpre' heq.le).eq_of_length heq
  · exact (he'.not_again (List.prefix_of_prefix_length_le hl' hpre (by simpa using hgt)) he).elim

/-- At most once: two executions of writes under one identifier are the same place in the log
of the same group, and so are two modifications of shards. -/
theorem write_at_most_once (hstay : h.StaysAssigned) {r : ℕ → System}
    (hr : System.Run h (fun _ _ => True) r) {k : ℕ} {args' : CommandArgs}
    (hl : l ++ [.operation args] <+: (r k).logs g)
    (hl' : l' ++ [.operation args'] <+: (r k).logs g')
    (hclient : args.clientId = args'.clientId) (hcommand : args.commandId = args'.commandId) :
    (Executes g l args → Executes g' l' args' → g = g' ∧ l = l') ∧
      (Modifies g l args → Modifies g' l' args' → g = g' ∧ l = l') := by
  obtain ⟨hi, ho⟩ := hr.once hstay k
  obtain rfl := ho.unique (ho.committed (hl.subset (by simp))) (ho.committed (hl'.subset (by simp)))
    hclient hcommand
  exact ⟨fun he he' => ho.executes_unique hi hl he hl' he',
    fun hm hm' => ho.executes_unique hi hl hm.executes hl' hm'.executes⟩

/-- Group 1 does not commit its copy of a write before shard 0 has moved to group 2 and group 2
has executed the write. -/
def copyRun : List Action :=
  [.configurationAction 1 0, .commit 1 0, .configurationAction 2 0, .commit 2 0, .issue putArgs,
    .command 1 1 putArgs, .configurationAction 1 1, .commit 1 2, .configurationAction 2 1,
    .commit 2 1, .migrationAction 2 2 1 2 [key2shard "d"], .commit 2 2, .command 2 3 putArgs,
    .commit 2 3, .commit 1 1]

set_option maxRecDepth 2000 in
/-- The copy in the log of group 1 is not executed. -/
theorem write_at_most_once_copyRun :
    ∃ r, System.Run moveHistory (fun _ _ => True) r ∧ ∃ l l',
      l ++ [.operation putArgs] <+: (r 15).logs 2 ∧ Modifies 2 l putArgs ∧ Executes 2 l putArgs ∧
      l' ++ [.operation putArgs] <+: (r 15).logs 1 ∧ ¬ Executes 1 l' putArgs := by
  have hr : System.Run moveHistory (fun _ _ => True)
      (trace (System.step moveHistory) .init copyRun) := ⟨trace_zero _ _, trace_isRun (by decide)⟩
  have hl : ((trace (System.step moveHistory) .init copyRun 15).logs 2).take 3 ++
      [.operation putArgs] <+: (trace (System.step moveHistory) .init copyRun 15).logs 2 :=
    ⟨[], rfl⟩
  have hl' : ((trace (System.step moveHistory) .init copyRun 15).logs 1).take 2 ++
      [.operation putArgs] <+: (trace (System.step moveHistory) .init copyRun 15).logs 1 :=
    ⟨[], rfl⟩
  have hm : Modifies 2 (((trace (System.step moveHistory) .init copyRun 15).logs 2).take 3)
      putArgs := ⟨0, fun heq => absurd (congrFun heq "d") (by decide +kernel)⟩
  refine ⟨_, hr, _, _, hl, hm, hm.executes, hl', fun he' => ?_⟩
  obtain ⟨hgroup, -⟩ :=
    (write_at_most_once moveHistory_staysAssigned hr hl hl' rfl rfl).1 hm.executes he'
  cases hgroup

end Once

end RaftLabs.Shardkv
