import RaftLabs.Shardkv.AtMostOnce
import RaftLabs.Shardkv.Handoff
import RaftLabs.Shardkv.PulledShard

/-! All groups together hold one copy of the store. What a group serves, what is on the way from
one group to another, and what nobody has written yet agree with one map, to which the executed
operations are applied in the order in which they are committed. -/
namespace RaftLabs.Shardkv
open Basis Shardctrler

/-- An operation on the whole map. -/
def execute (m : KV) (args : CommandArgs) : KV × CommandReply :=
  match args.op with
  | .put => (Function.update m args.key (some args.value), ⟨.ok, ""⟩)
  | .append =>
    (Function.update m args.key (some ((m args.key).getD "" ++ args.value)), ⟨.ok, ""⟩)
  | .get =>
    match m args.key with
    | some value => (m, ⟨.ok, value⟩)
    | none => (m, ⟨.errNoKey, ""⟩)

/-- The two maps agree on the keys of a shard. -/
def Agrees (i : ShardId) (d m : KV) : Prop := ∀ key, key2shard key = i → d key = m key

/-- The operation is neither refused nor skipped. -/
def ShardKV.Takes (kv : ShardKV) (args : CommandArgs) : Prop :=
  kv.canServer (key2shard args.key) ∧ ¬ kv.Skips args

instance (kv : ShardKV) (args : CommandArgs) : Decidable (kv.Takes args) :=
  inferInstanceAs (Decidable (_ ∧ _))

/-- The operation that a command executes, if any. -/
def ShardKV.effect (kv : ShardKV) : Command → Option CommandArgs
  | .operation args => if kv.Takes args then some args else none
  | _ => none

/-- The map after the effect of a command. -/
def after (m : KV) : Option CommandArgs → KV
  | some args => (execute m args).1
  | none => m

section Execute
variable {kv : ShardKV} {args : CommandArgs} {i : ShardId} {d m : KV}

theorem execute_of_get (hop : args.op = .get) (m : KV) : (execute m args).1 = m := by
  simp only [execute, hop]
  cases m args.key <;> rfl

/-- An operation leaves the other keys alone. -/
theorem execute_of_ne {key : String} (hk : key ≠ args.key) (m : KV) :
    (execute m args).1 key = m key := by
  cases hop : args.op with
  | put => simp [execute, hop, hk]
  | append => simp [execute, hop, hk]
  | get => rw [execute_of_get hop]

/-- An operation looks only at its own key. -/
theorem execute_congr (hk : d args.key = m args.key) :
    (execute d args).1 args.key = (execute m args).1 args.key ∧
      (execute d args).2 = (execute m args).2 := by
  cases hop : args.op with
  | put => simp [execute, hop]
  | append => simp [execute, hop, hk]
  | get =>
    rw [execute_of_get hop, execute_of_get hop]
    refine ⟨hk, ?_⟩
    simp only [execute, hop, hk]
    cases m args.key <;> rfl

theorem Agrees.execute (ha : Agrees (key2shard args.key) d m) :
    Agrees (key2shard args.key) (Shardkv.execute d args).1 (Shardkv.execute m args).1 ∧
      (Shardkv.execute d args).2 = (Shardkv.execute m args).2 := by
  obtain ⟨hkey, hreply⟩ := execute_congr (ha args.key rfl)
  refine ⟨fun key hk => ?_, hreply⟩
  by_cases heq : key = args.key
  · rw [heq, hkey]
  · rw [execute_of_ne heq, execute_of_ne heq, ha key hk]

theorem Agrees.execute_other (ha : Agrees i d m) (hi : key2shard args.key ≠ i) :
    Agrees i d (Shardkv.execute m args).1 := by
  intro key hk
  have hne : key ≠ args.key := by
    rintro rfl
    exact hi hk
  rw [execute_of_ne hne, ha key hk]

theorem ShardKV.applyLogToStateMachines_eq (kv : ShardKV) (args : CommandArgs) (i : ShardId) :
    kv.applyLogToStateMachines args i =
      (⟨(execute (kv.stateMachines i).kv args).1, kv.status i⟩,
        (execute (kv.stateMachines i).kv args).2) := by
  cases hop : args.op with
  | put => simp [applyLogToStateMachines, execute, hop]
  | append => simp [applyLogToStateMachines, execute, hop]
  | get =>
    simp only [applyLogToStateMachines, execute, hop]
    cases (kv.stateMachines i).kv args.key <;> rfl

/-- The reply to an operation that is executed. -/
theorem ShardKV.Takes.reply (ht : kv.Takes args) :
    (kv.applyOperation args).2 =
      (execute (kv.stateMachines (key2shard args.key)).kv args).2 := by
  simp only [applyOperation, if_pos ht.1, if_neg ht.2, applyLogToStateMachines_eq]
  split_ifs <;> rfl

/-- The contents of the shards after an operation that is executed. -/
theorem ShardKV.Takes.kv_eq (ht : kv.Takes args) (i : ShardId) :
    ((kv.apply (.operation args)).1.stateMachines i).kv =
      if i = key2shard args.key then (execute (kv.stateMachines i).kv args).1
      else (kv.stateMachines i).kv := by
  have happ : (kv.apply (.operation args)).1.stateMachines =
      Function.update kv.stateMachines (key2shard args.key)
        (kv.applyLogToStateMachines args (key2shard args.key)).1 := by
    simp only [apply, applyOperation, if_pos ht.1, if_neg ht.2]
    split_ifs <;> rfl
  rw [happ, applyLogToStateMachines_eq]
  by_cases hi : i = key2shard args.key
  · subst hi
    simp
  · simp [hi]

/-- An operation that is not executed changes nothing. -/
theorem ShardKV.apply_of_not_takes (ht : ¬ kv.Takes args) :
    (kv.apply (.operation args)).1 = kv := by
  rcases kv.applyOperation_cases args with heq | ⟨hs, hk, -⟩
  · exact heq
  · exact absurd ⟨hs, hk⟩ ht

theorem ShardKV.not_takes_of_effect (he : kv.effect (.operation args) = none) :
    ¬ kv.Takes args := by
  intro ht
  simp [effect, ht] at he

theorem ShardKV.takes_of_effect {c : Command} (he : kv.effect c = some args) :
    c = .operation args ∧ kv.Takes args := by
  cases c with
  | operation args' =>
    simp only [effect] at he
    split_ifs at he with ht
    obtain rfl := Option.some.inj he
    exact ⟨rfl, ht⟩
  | configuration _ => cases he
  | insertShards _ => cases he
  | deleteShards _ => cases he
  | emptyEntry => cases he

/-- No operation changes what a group can serve. -/
theorem ShardKV.canServer_operation :
    (kv.apply (.operation args)).1.canServer i ↔ kv.canServer i := by
  have hconf : (kv.apply (.operation args)).1.currentConfig = kv.currentConfig := by
    rcases apply_config kv (.operation args) with ⟨heq, -⟩ | ⟨_, hc, -⟩
    · exact heq
    · cases hc
  have hst : (kv.apply (.operation args)).1.status i = kv.status i := by
    rcases status_apply (num_apply_eq (c := .operation args) fun _ hc => by cases hc) i with
      heq | ⟨_, _, hc, -⟩ | ⟨_, hc, -⟩
    · exact heq
    · cases hc
    · cases hc
  simp only [canServer, apply_gid, hconf]
  change _ ∧ ((kv.apply (.operation args)).1.status i = _ ∨
    (kv.apply (.operation args)).1.status i = _) ↔ _
  rw [hst]

end Execute

variable {h : History} {logs : ℤ → List Command} {n : ℕ} {i : ShardId} {S P g : ℤ}
  {l : List Command} {m : KV} {c : Command}

theorem Executed.mono {logs' : ℤ → List Command} {args : CommandArgs}
    (hg : ∀ g, logs g <+: logs' g) (he : Executed logs n i args) : Executed logs' n i args := by
  obtain ⟨g, l, hl, hrest⟩ := he
  exact ⟨g, l, hl.trans (hg g), hrest⟩

/-- No two groups can serve a shard. -/
theorem LogsInv.eq_of_canServer (hi : LogsInv h logs) (hret : h.ReturnsHome) {g' : ℤ}
    (hg : g ≠ 0) (hg' : g' ≠ 0) (hs : (replay g (logs g)).canServer i)
    (hs' : (replay g' (logs g')).canServer i) : g = g' := by
  obtain ⟨ho, hh⟩ := hi.holds_of_canServer List.prefix_rfl hs
  obtain ⟨ho', hh'⟩ := hi.holds_of_canServer List.prefix_rfl hs'
  have hle := hi.not_behind hret hg hs hg' ho' hh'
  have hge := hi.not_behind hret hg' hs' hg ho hh
  rw [← ho, ← ho', le_antisymm hge hle]

/-- When a group can serve a shard, the shard is not on the way. -/
theorem LogsInv.held_of_canServer (hi : LogsInv h logs) (hret : h.ReturnsHome) (hg : g ≠ 0)
    (hs : (replay g (logs g)).canServer i) (hm : Moves h n i S P)
    (he : Enters h S (logs S) l n) : Held P (logs P) n i := by
  obtain ⟨howner, hh⟩ := hi.holds_of_canServer List.prefix_rfl hs
  have hpos := hm.pos
  have hS : n ≤ (replay S (logs S)).num := by
    rw [← he.num_entered]
    exact num_replay_mono S he.command
  have hbehind := hi.not_behind hret hg hs hm.source_ne hm.source (Or.inl (by omega))
  rcases Nat.lt_trichotomy (replay g (logs g)).num n with hlt | heq | hgt
  · -- the group would be the source, which has left the shard behind
    have hlast : (replay g (logs g)).num = n - 1 := by omega
    rw [hlast, hm.source] at howner
    subst howner
    omega
  · rw [heq, hm.target] at howner
    rw [heq, ← howner] at hh
    rwa [howner] at hh ⊢
  · by_cases hP : P = g
    · subst hP
      exact Or.inl hgt
    · exact Or.inl (hi.passed hret howner hg hh hgt hm.target hm.target_ne hP)

/-- The copies of a shard that count agree with the map: that of the group that serves it, that
on the way to its next owner, and the empty one before the first write. -/
structure SingleCopy (h : History) (logs : ℤ → List Command) (m : KV) : Prop where
  served : ∀ {g i}, g ≠ 0 → (replay g (logs g)).canServer i →
    Agrees i ((replay g (logs g)).stateMachines i).kv m
  moving : ∀ {n i S P data}, Moves h n i S P → ¬ Held P (logs P) n i →
    Content h logs S n i data → Agrees i data m
  unwritten : ∀ {i}, (∀ n args, ¬ Executed logs n i args) → Agrees i (fun _ => none) m

theorem singleCopy_init (h : History) : SingleCopy h (fun _ => []) fun _ => none where
  served _ _ _ _ := rfl
  moving _ _ hc := by
    obtain ⟨l, he, -⟩ := hc
    simpa using he.command.length_le
  unwritten _ _ _ := rfl

/-- A new command makes a new entry into a configuration only if it is that configuration. -/
theorem enters_extend (he : Enters h S (extend logs g c S) l n) :
    Enters h S (logs S) l n ∨ (S = g ∧ l = logs g ∧ c = .configuration (h.config n)) := by
  rcases prefix_of_extend he.command with hl | ⟨rfl, heq⟩
  · exact Or.inl ⟨hl, he.num⟩
  · obtain ⟨rfl, hc⟩ := List.append_inj' heq rfl
    exact Or.inr ⟨rfl, rfl, (List.singleton_inj.mp hc).symm⟩

theorem concat_prefix_extend : logs g ++ [c] <+: extend logs g c g := by
  rw [extend, Function.update_self]

theorem replay_extend_self : replay g (extend logs g c g) = ((replay g (logs g)).apply c).1 := by
  rw [extend, Function.update_self, replay_concat]

theorem replay_extend_of_ne {j : ℤ} (hj : j ≠ g) :
    replay j (extend logs g c j) = replay j (logs j) := by
  rw [extend, Function.update_of_ne hj]

/-- The copies after an operation that the group executes. -/
theorem SingleCopy.takes (hc : SingleCopy h logs m) (hi : LogsInv h logs) (hret : h.ReturnsHome)
    (hg : g ≠ 0) {args : CommandArgs} (ht : (replay g (logs g)).Takes args) :
    SingleCopy h (extend logs g (.operation args)) (execute m args).1 := by
  have hcan : ∀ {j i}, (replay j (extend logs g (.operation args) j)).canServer i →
      (replay j (logs j)).canServer i := by
    intro j i hs
    by_cases hj : j = g
    · subst hj
      rw [replay_extend_self] at hs
      exact ShardKV.canServer_operation.mp hs
    · rwa [replay_extend_of_ne hj] at hs
  refine ⟨fun {j i} hj hs => ?_, fun {n i S P data} hm hh hcont => ?_, fun {i} hun => ?_⟩
  · have hold := hc.served hj (hcan hs)
    by_cases hjg : j = g
    · subst hjg
      rw [replay_extend_self, ht.kv_eq]
      split_ifs with hk
      · subst hk
        exact hold.execute.1
      · exact hold.execute_other (Ne.symm hk)
    · rw [replay_extend_of_ne hjg]
      refine hold.execute_other ?_
      rintro rfl
      exact hjg (hi.eq_of_canServer hret hj hg (hcan hs) ht.1)
  · obtain ⟨l, he, rfl⟩ := hcont
    replace he : Enters h S (logs S) l n := by
      rcases enters_extend he with he | ⟨-, -, heq⟩
      · exact he
      · cases heq
    have hlack : ¬ Held P (logs P) n i := fun hold => hh (hold.mono (prefix_extend _ _ _ _))
    refine (hc.moving hm hlack ⟨l, he, rfl⟩).execute_other ?_
    rintro rfl
    exact hlack (hi.held_of_canServer hret hg ht.1 hm he)
  · have hold := hc.unwritten fun n args' he => hun n args' (he.mono (prefix_extend _ _ _))
    by_cases hop : args.op = .get
    · rwa [execute_of_get hop]
    · refine hold.execute_other ?_
      rintro rfl
      exact hun _ args ⟨g, logs g, concat_prefix_extend, ⟨hop, ht.1, ht.2⟩, rfl, rfl⟩

/-- A write is executed by the owner of the shard, who then holds it. -/
theorem LogsInv.held_of_executed (hi : LogsInv h logs) (hzero : logs 0 = []) {args : CommandArgs}
    (he : Executed logs n i args) :
    h.owner n i ≠ 0 ∧ Held (h.owner n i) (logs (h.owner n i)) n i := by
  obtain ⟨g, l, hl, hex, rfl, rfl⟩ := he
  have hpre := (List.prefix_append l _).trans hl
  obtain ⟨howner, hh⟩ := hi.holds_of_canServer hpre hex.served
  rw [howner]
  refine ⟨?_, hh.mono hpre⟩
  rintro rfl
  rw [hzero] at hl
  simpa using hl.length_le

/-- A shard that its new owner need not pull has never been written. -/
theorem LogsInv.not_executed (hi : LogsInv h logs) (hstay : h.StaysAssigned)
    (hzero : logs 0 = []) (hg : g ≠ 0) (hnone : h.owner (replay g (logs g)).num i = 0)
    (hown : h.owner ((replay g (logs g)).num + 1) i = g) (k : ℕ) (args : CommandArgs) :
    ¬ Executed logs k i args := by
  intro he
  obtain ⟨hk, hheld⟩ := hi.held_of_executed hzero he
  have hlate : (replay g (logs g)).num < k := by
    by_contra hle
    exact hstay i k _ (not_lt.mp hle) hk hnone
  -- the owner of the shard in the next configuration has not entered that configuration
  by_cases hsame : h.owner k i = g
  · rw [hsame] at hheld
    rcases hheld with hlt | ⟨heq, -⟩ <;> omega
  · have hne : k ≠ (replay g (logs g)).num + 1 := by
      rintro rfl
      exact hsame hown
    have := hi.passed hstay.returnsHome rfl hk hheld
      (show (replay g (logs g)).num + 1 < k by omega) hown hg (Ne.symm hsame)
    omega

theorem History.StaysAssigned.gaveAway (hstay : h.StaysAssigned) (hg : g ≠ 0) (n : ℕ)
    (i : ShardId) : h.GaveAway g n i :=
  fun k _ hown _ => hstay i k (k + 1) (Nat.le_succ k) (hown ▸ hg)

section Idle
variable {sys : System}

/-- What a group can serve after a command that stays in the configuration. -/
theorem SingleCopy.served_steady (hc : SingleCopy h sys.logs m) (hi : sys.Inv h)
    (hreg : h.RegainsFirst) (hg : g ≠ 0) (hs : Sound h sys.logs g c)
    (hidle : (replay g (sys.logs g)).effect c = none)
    (hnum : ((replay g (sys.logs g)).apply c).1.num = (replay g (sys.logs g)).num)
    (hserve : ((replay g (sys.logs g)).apply c).1.canServer i) :
    Agrees i (((replay g (sys.logs g)).apply c).1.stateMachines i).kv m := by
  set kv := replay g (sys.logs g) with hkv
  obtain ⟨howner, hstatus⟩ := hserve
  have hconf : (kv.apply c).1.currentConfig = kv.currentConfig := by
    rcases ShardKV.apply_config kv c with ⟨heq, -⟩ | ⟨config, -, hnext, heq, -⟩
    · exact heq
    · have hlast := congrArg Config.num heq
      change (kv.apply c).1.num = _ at hlast
      omega
  rw [hconf, ShardKV.apply_gid] at howner
  have hfit := hi.logs.fits_group g
  rw [← hkv] at hfit
  have hch := ShardKV.apply_change kv c i
  generalize hnew : (kv.apply c).1.stateMachines i = new at hch hstatus ⊢
  cases hch with
  | same c => exact hc.served hg ⟨howner, hstatus⟩
  | write args data hk hcan =>
    rw [ShardKV.apply_of_not_takes (ShardKV.not_takes_of_effect hidle)] at hnew
    rw [← hnew]
    exact hc.served hg hcan
  | configure config hnext =>
    have heq : (kv.apply (.configuration config)).1.num = config.num := by
      simp only [ShardKV.apply, ShardKV.applyConfiguration, if_pos hnext]
    omega
  | insert reply data hn hmem hp =>
    -- the old copy is empty, and the new one was on the way
    obtain ⟨S, hb, -, hdata⟩ := hs
    have hmv := (hb.2 i).mp (List.mem_map_of_mem (f := Prod.fst) hmem)
    have hempty := (hi.cleared hreg (List.prefix_rfl (l := sys.logs g)) i).pulling hp
    have hlack : ¬ Held g (sys.logs g) reply.configNum i := by
      rintro (hlt | ⟨-, hnp⟩)
      · exact absurd hlt (by rw [hn]; exact lt_irrefl _)
      · exact hnp hp
    have hagree := hc.moving hmv hlack ((hdata i data hmem).resolve_right hlack)
    intro key hk
    rw [← hagree key hk, hkv, hempty]
    simp [ShardKV.mergeKV]
  | collect args hn hmem hgc => exact hc.served hg ⟨howner, Or.inr hgc⟩
  | drop args hn hmem hb =>
    obtain ⟨P, hmv⟩ := hfit.given hb
    rw [hfit.owner_current, hmv.target] at howner
    exact absurd howner.symm hmv.ne

/-- A group at rest enters the next configuration. What it can serve there it served before, or
nobody has written it. -/
theorem SingleCopy.served_configuration (hc : SingleCopy h sys.logs m) (hi : sys.Inv h)
    (ho : sys.Once h) (hstay : h.StaysAssigned) (hg : g ≠ 0)
    (hserv : ∀ i, (replay g (sys.logs g)).status i = .serving)
    (howner : h.owner ((replay g (sys.logs g)).num + 1) i = g)
    (hst : h.entryStatus g (replay g (sys.logs g)).num i ≠ .pulling) :
    Agrees i ((replay g (sys.logs g)).stateMachines i).kv m := by
  by_cases hown : h.owner (replay g (sys.logs g)).num i = g
  · refine hc.served hg ⟨?_, Or.inl (hserv i)⟩
    rw [(hi.logs.fits_group g).owner_current, replay_gid, hown]
  · have hnone : h.owner (replay g (sys.logs g)).num i = 0 := by
      by_contra hne
      exact hst (by simp [History.entryStatus, hown, howner, hne])
    have hempty := (hi.cleared hstay.regainsFirst (List.prefix_rfl (l := sys.logs g)) i).given hown
      (hstay.gaveAway hg _ i) (by rw [← ShardKV.status, hserv i]; decide)
    rw [hempty]
    exact hc.unwritten (hi.logs.not_executed hstay ho.zero hg hnone howner)

/-- The copies after a command that executes no operation. -/
theorem SingleCopy.idle (hc : SingleCopy h sys.logs m) (hi : sys.Inv h) (ho : sys.Once h)
    (hstay : h.StaysAssigned) (hg : g ≠ 0) (hs : Sound h sys.logs g c)
    (hidle : (replay g (sys.logs g)).effect c = none) :
    SingleCopy h (extend sys.logs g c) m := by
  refine ⟨fun {j i} hj hserve => ?_, fun {n i S P data} hm hh hcont => ?_, fun {i} hun => ?_⟩
  · by_cases hjg : j = g
    case neg =>
      rw [replay_extend_of_ne hjg] at hserve ⊢
      exact hc.served hj hserve
    subst hjg
    rw [replay_extend_self] at hserve ⊢
    rcases hi.logs.apply_cases hg hs with hnum | ⟨rfl, hnum, hserv, hst⟩
    · exact hc.served_steady hi hstay.regainsFirst hg hs hidle hnum hserve
    · have howner := hserve.1
      rw [(hi.logs.fits_apply hg hs).owner_current, hnum, ShardKV.apply_gid, replay_gid] at howner
      have hnp : h.entryStatus j (replay j (sys.logs j)).num i ≠ .pulling := by
        rw [← hst]
        rcases hserve.2 with hs' | hs' <;> rw [ShardKV.status, hs'] <;> decide
      rw [h.apply_next]
      exact hc.served_configuration hi ho hstay hg hserv howner hnp
  · have hlack : ¬ Held P (sys.logs P) n i := fun hold => hh (hold.mono (prefix_extend _ _ _ _))
    obtain ⟨l, he, rfl⟩ := hcont
    rcases enters_extend he with he' | ⟨rfl, rfl, rfl⟩
    · exact hc.moving hm hlack ⟨l, he', rfl⟩
    · -- the source gives the shard away as it has served it
      have hnum := he.num
      obtain ⟨-, hserv⟩ := hs.configuration_takes_effect ((h.config_num n).trans hnum.symm)
      subst hnum
      rw [replay_concat, h.apply_next]
      refine hc.served hg ⟨?_, Or.inl (hserv i)⟩
      rw [(hi.logs.fits_group S).owner_current, replay_gid]
      exact hm.source
  · exact hc.unwritten fun n args he => hun n args (he.mono (prefix_extend _ _ _))

/-- One more command keeps the single copy. -/
theorem SingleCopy.extend (hc : SingleCopy h sys.logs m) (hi : sys.Inv h) (ho : sys.Once h)
    (hstay : h.StaysAssigned) (hg : g ≠ 0) (hs : Sound h sys.logs g c) :
    SingleCopy h (extend sys.logs g c) (after m ((replay g (sys.logs g)).effect c)) := by
  cases heff : (replay g (sys.logs g)).effect c with
  | none => exact hc.idle hi ho hstay hg hs heff
  | some args =>
    obtain ⟨rfl, ht⟩ := ShardKV.takes_of_effect heff
    exact hc.takes hi.logs hstay.returnsHome hg ht

end Idle

end RaftLabs.Shardkv
