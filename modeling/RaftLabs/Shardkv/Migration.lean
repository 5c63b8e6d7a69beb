import RaftLabs.Shardkv.Invariant

/-! The invariant of the groups together: where the commands in a log come from, and what the
source and the puller of a shard know about each other. -/
namespace RaftLabs.Shardkv
open Basis Shardctrler

variable {h : History} {logs logs' : ℤ → List Command} {n : ℕ} {i : ShardId} {S P g : ℤ}

/-- In the log of `S` the part `l` is followed by the command with which the group enters
configuration `n`. -/
structure Enters (h : History) (S : ℤ) (log l : List Command) (n : ℕ) : Prop where
  command : l ++ [.configuration (h.config n)] <+: log
  num : (replay S l).num + 1 = n

/-- The contents of shard `i` in the state in which the group `S` enters configuration `n`. -/
def Content (h : History) (logs : ℤ → List Command) (S : ℤ) (n : ℕ) (i : ShardId) (data : KV) :
    Prop :=
  ∃ l, Enters h S (logs S) l n ∧
    ((replay S (l ++ [.configuration (h.config n)])).stateMachines i).kv = data

/-- What is known of a command that is proposed in the group `g`. The shards of an insertion
or a deletion are a whole batch. Inserted data are those of the source, unless the puller has
its shard already; a deletion is asked for only when the puller has the shards. -/
def Sound (h : History) (logs : ℤ → List Command) (g : ℤ) : Command → Prop
  | .operation _ => True
  | .configuration c => ∃ l, l <+: logs g ∧ c = h.config ((replay g l).num + 1) ∧
    ∀ i, (replay g l).status i = .serving
  | .insertShards reply => ∃ S, Batch h reply.configNum S g (reply.shards.map Prod.fst) ∧
    reply.configNum ≤ (replay S (logs S)).num ∧
    ∀ i data, (i, data) ∈ reply.shards →
      Content h logs S reply.configNum i data ∨ Held g (logs g) reply.configNum i
  | .deleteShards args => ∃ S P, Batch h args.configNum S P args.shardIds ∧ (g = S ∨ g = P) ∧
    args.configNum ≤ (replay g (logs g)).num ∧
    ∀ i ∈ args.shardIds, Held P (logs P) args.configNum i
  | .emptyEntry => True

theorem Content.mono {data : KV} (hg : ∀ g, logs g <+: logs' g)
    (hc : Content h logs S n i data) : Content h logs' S n i data := by
  obtain ⟨l, hl, hdata⟩ := hc
  exact ⟨l, ⟨hl.command.trans (hg S), hl.num⟩, hdata⟩

theorem Sound.mono {c : Command} (hg : ∀ g, logs g <+: logs' g) (hs : Sound h logs g c) :
    Sound h logs' g c := by
  cases c with
  | operation args => trivial
  | configuration config =>
    obtain ⟨l, hl, hrest⟩ := hs
    exact ⟨l, hl.trans (hg g), hrest⟩
  | insertShards reply =>
    obtain ⟨S, hb, hle, hdata⟩ := hs
    refine ⟨S, hb, hle.trans (num_replay_mono S (hg S)), fun i data hm => ?_⟩
    exact (hdata i data hm).imp (Content.mono hg) (Held.mono (hg g))
  | deleteShards args =>
    obtain ⟨S, P, hb, hgSP, hle, hheld⟩ := hs
    exact ⟨S, P, hb, hgSP, hle.trans (num_replay_mono g (hg g)),
      fun i hi => (hheld i hi).mono (hg P)⟩
  | emptyEntry => trivial

/-- The invariant of the logs of all groups. -/
structure LogsInv (h : History) (logs : ℤ → List Command) : Prop where
  fits : ∀ g l, l <+: logs g → Local h (replay g l)
  reached : ∀ {g n i S}, Moves h n i S g → Held g (logs g) n i → n ≤ (replay S (logs S)).num
  inserted : ∀ {g n i S}, Moves h n i S g → Held g (logs g) n i → Inserted g (logs g) n i
  given : ∀ {S P n i l}, Moves h n i S P → l <+: logs S → n ≤ (replay S l).num →
    ((replay S l).num = n ∧ (replay S l).status i = .bePulling ∧
      Content h logs S n i ((replay S l).stateMachines i).kv) ∨ Held P (logs P) n i

/-- A log with one more command. -/
abbrev extend (logs : ℤ → List Command) (g : ℤ) (c : Command) : ℤ → List Command :=
  Function.update logs g (logs g ++ [c])

theorem prefix_extend (logs : ℤ → List Command) (g : ℤ) (c : Command) (j : ℤ) :
    logs j <+: extend logs g c j := by
  by_cases hj : j = g
  · subst hj
    simp [extend]
  · simp [extend, hj]

/-- A new state of a group is the result of the new command, or was there before. -/
theorem prefix_of_extend {c : Command} {j : ℤ} {l : List Command} (hl : l <+: extend logs g c j) :
    l <+: logs j ∨ (j = g ∧ l = logs g ++ [c]) := by
  by_cases hj : j = g
  · subst hj
    rw [extend, Function.update_self, List.prefix_concat_iff] at hl
    exact hl.symm.imp_right fun h => ⟨rfl, h⟩
  · rw [extend, Function.update_of_ne hj] at hl
    exact Or.inl hl

theorem mem_extend {c c' : Command} {j : ℤ} (hc : c' ∈ extend logs g c j) :
    c' ∈ logs j ∨ (j = g ∧ c' = c) := by
  by_cases hj : j = g
  · subst hj
    rw [extend, Function.update_self] at hc
    exact (List.mem_append.mp hc).imp_right fun hc => ⟨rfl, List.mem_singleton.mp hc⟩
  · rw [extend, Function.update_of_ne hj] at hc
    exact Or.inl hc

/-- A configuration that takes effect is the next one and finds the group at rest. -/
theorem Sound.configuration_takes_effect {c : Config} (hs : Sound h logs g (.configuration c))
    (hnum : c.num = (replay g (logs g)).num + 1) :
    c = h.config ((replay g (logs g)).num + 1) ∧ ∀ i, (replay g (logs g)).status i = .serving := by
  obtain ⟨l, hl, hc, hserv⟩ := hs
  have heq : (replay g (logs g)).num = (replay g l).num := by
    have := congrArg Config.num hc
    rw [h.config_num] at this
    omega
  exact ⟨heq ▸ hc, serving_steady hl heq hserv⟩

theorem LogsInv.fits_group (hi : LogsInv h logs) (g : ℤ) : Local h (replay g (logs g)) :=
  hi.fits g _ List.prefix_rfl

/-- The state after a sound command fits its configurations. -/
theorem LogsInv.fits_apply (hi : LogsInv h logs) (hg : g ≠ 0) {c : Command}
    (hs : Sound h logs g c) : Local h ((replay g (logs g)).apply c).1 := by
  have hl := hi.fits_group g
  cases c with
  | operation args => exact hl.operation args
  | configuration config =>
    by_cases hnum : config.num = (replay g (logs g)).num + 1
    · obtain ⟨rfl, hserv⟩ := hs.configuration_takes_effect hnum
      exact (hl.configuration (by simpa using hg) hserv).1
    · simpa only [ShardKV.apply, ShardKV.applyConfiguration, if_neg hnum] using hl
  | insertShards reply =>
    obtain ⟨S, hb, -⟩ := hs
    exact hl.insertShards fun heq => heq ▸ hb
  | deleteShards args =>
    obtain ⟨S, P, hb, -⟩ := hs
    exact hl.deleteShards fun heq => heq ▸ hb
  | emptyEntry => exact hl

/-- One more command in the log of `g`: it keeps the configuration, or it is the next one and
the group was at rest. -/
theorem LogsInv.apply_cases (hi : LogsInv h logs) (hg : g ≠ 0) {c : Command}
    (hs : Sound h logs g c) :
    ((replay g (logs g)).apply c).1.num = (replay g (logs g)).num ∨
      (c = .configuration (h.config ((replay g (logs g)).num + 1)) ∧
        ((replay g (logs g)).apply c).1.num = (replay g (logs g)).num + 1 ∧
        (∀ i, (replay g (logs g)).status i = .serving) ∧
        ∀ i, ((replay g (logs g)).apply c).1.status i =
          h.entryStatus g (replay g (logs g)).num i) := by
  rcases ShardKV.apply_config (replay g (logs g)) c with ⟨heq, -⟩ | ⟨config, rfl, hnum, -, -⟩
  · exact Or.inl (congrArg Config.num heq)
  · obtain ⟨rfl, hserv⟩ := hs.configuration_takes_effect hnum
    obtain ⟨-, hn, hst⟩ := (hi.fits_group g).configuration (by simpa using hg) hserv
    exact Or.inr ⟨rfl, hn, hserv, by simpa using hst⟩

/-- A group that comes to hold a shard in a configuration in which it moves there inserts it,
and its source has reached that configuration. -/
theorem LogsInv.held_extend (hi : LogsInv h logs) (hg : g ≠ 0) {c : Command}
    (hs : Sound h logs g c) (hm : Moves h n i S g) (hh : Held g (logs g ++ [c]) n i) :
    Held g (logs g) n i ∨
      (n ≤ (replay S (logs S)).num ∧ Inserted g (logs g ++ [c]) n i) := by
  unfold Held at hh
  rw [replay_concat] at hh
  rcases hi.apply_cases hg hs with hnum | ⟨rfl, hnum, hserv, hst⟩
  · rcases hh with hh | ⟨hn, hnp⟩
    · exact Or.inl (Or.inl (by omega))
    · by_cases hp : (replay g (logs g)).status i = .pulling
      · right
        obtain ⟨reply, data, rfl, hc, hmem, hgc⟩ := ShardKV.insert_of_pulling hnum hp hnp
        obtain ⟨S', hb, hle, -⟩ := hs
        have hm' := (hb.2 i).mp (List.mem_map_of_mem (f := Prod.fst) hmem)
        rw [hc, ← hnum, hn] at hm' hle
        rw [(hm.unique hm').1]
        exact ⟨hle, _, reply, List.prefix_rfl, hnum.symm.trans hn, hp, by rwa [replay_concat]⟩
      · exact Or.inl (Or.inr ⟨by omega, hp⟩)
  · left
    rcases hh with hh | ⟨hn, hnp⟩
    · rcases Nat.lt_or_eq_of_le (show n ≤ (replay g (logs g)).num by omega) with hlt | heq
      · exact Or.inl hlt
      · exact Or.inr ⟨heq.symm, by rw [hserv i]; decide⟩
    · rw [hnum] at hn
      subst hn
      exact absurd (by rw [hst, hm.entryStatus_target]) hnp

/-- A source that has reached the configuration in which a shard moves away keeps it unchanged
until the puller has it. -/
theorem LogsInv.given_extend (hi : LogsInv h logs) (hg : g ≠ 0) {c : Command}
    (hs : Sound h logs g c) (hm : Moves h n i g P) (hn : n ≤ (replay g (logs g ++ [c])).num) :
    ((replay g (logs g ++ [c])).num = n ∧ (replay g (logs g ++ [c])).status i = .bePulling ∧
      Content h (extend logs g c) g n i ((replay g (logs g ++ [c])).stateMachines i).kv) ∨
      Held P (logs P) n i := by
  rcases hi.apply_cases hg hs with hnum | ⟨rfl, hnum, hserv, hst⟩
  · rw [replay_concat] at hn ⊢
    rw [hnum] at hn ⊢
    rcases hi.given hm List.prefix_rfl hn with ⟨heq, hb, hc⟩ | hh
    · have hch := ShardKV.apply_change (replay g (logs g)) c i
      generalize hnew : ((replay g (logs g)).apply c).1.stateMachines i = new at hch
      have hstn : ((replay g (logs g)).apply c).1.status i = new.status := by rw [← hnew]
      rw [hstn]
      cases hch with
      | same c => exact Or.inl ⟨heq, hb, hc.mono (prefix_extend logs g _)⟩
      | write args data hk hsv =>
        have := hsv.1
        rw [(hi.fits_group g).owner_current, heq, hm.target, replay_gid] at this
        exact absurd this.symm hm.ne
      | configure config hc =>
        obtain ⟨rfl, hserv⟩ := hs.configuration_takes_effect hc
        rw [hserv i] at hb
        cases hb
      | insert reply data hc hmem hp => exact absurd hp (by rw [hb]; decide)
      | collect args hc hmem hgc => exact absurd hgc (by rw [hb]; decide)
      | drop args hc hmem hb' =>
        obtain ⟨S', P', hbatch, -, -, hheld⟩ := hs
        have hm' := (hbatch.2 i).mp hmem
        have hh := hheld i hmem
        rw [hc, heq] at hm' hh
        rw [(hm.unique hm').2]
        exact Or.inr hh
    · exact Or.inr hh
  · rw [replay_concat, hnum] at hn
    rcases Nat.lt_or_eq_of_le hn with hlt | rfl
    · rcases hi.given hm List.prefix_rfl (by omega) with ⟨-, hb, -⟩ | hh
      · rw [hserv i] at hb
        cases hb
      · exact Or.inr hh
    · refine Or.inl ⟨by rw [replay_concat, hnum], ?_, ?_⟩
      · rw [replay_concat, hst, hm.entryStatus_source]
      · exact ⟨logs g, ⟨by simp [extend], rfl⟩, rfl⟩

/-- The invariant is kept when a sound command is committed. -/
theorem LogsInv.extend (hi : LogsInv h logs) (hg : g ≠ 0) {c : Command} (hs : Sound h logs g c) :
    LogsInv h (extend logs g c) := by
  have hpre := prefix_extend logs g c
  have hheld : ∀ {j n i S}, Moves h n i S j → Held j (Shardkv.extend logs g c j) n i →
      n ≤ (replay S (logs S)).num ∧ Inserted j (Shardkv.extend logs g c j) n i := by
    intro j n i S hm hh
    have hold (hh : Held j (logs j) n i) :
        n ≤ (replay S (logs S)).num ∧ Inserted j (Shardkv.extend logs g c j) n i :=
      ⟨hi.reached hm hh, (hi.inserted hm hh).mono (hpre j)⟩
    by_cases hj : j = g
    · subst hj
      rw [Shardkv.extend, Function.update_self] at hh
      rcases hi.held_extend hg hs hm hh with hh | hnew
      · exact hold hh
      · rwa [Shardkv.extend, Function.update_self]
    · rw [Shardkv.extend, Function.update_of_ne hj] at hh
      exact hold hh
  refine ⟨fun j l hl => ?_, fun hm hh => ?_, fun hm hh => (hheld hm hh).2,
    fun {S P n i l} hm hl hn => ?_⟩
  · rcases prefix_of_extend hl with hl | ⟨rfl, rfl⟩
    · exact hi.fits j l hl
    · rw [replay_concat]
      exact hi.fits_apply hg hs
  · exact (hheld hm hh).1.trans (num_replay_mono _ (hpre _))
  · rcases prefix_of_extend hl with hl | ⟨rfl, rfl⟩
    · exact (hi.given hm hl hn).imp (fun ⟨h₁, h₂, h₃⟩ => ⟨h₁, h₂, h₃.mono hpre⟩)
        (Held.mono (hpre P))
    · exact (hi.given_extend hg hs hm hn).imp_right (Held.mono (hpre P))

theorem not_held_nil (hn : 0 < n) : ¬ Held g [] n i := by
  rintro (hh | ⟨hh, -⟩)
  · exact absurd hh (Nat.not_lt_zero _)
  · change 0 = n at hh
    omega

theorem logsInv_init (h : History) : LogsInv h fun _ => [] where
  fits g l hl := by
    rw [List.prefix_nil.mp hl]
    exact local_start h g
  reached hm hh := absurd hh (not_held_nil hm.pos)
  inserted hm hh := absurd hh (not_held_nil hm.pos)
  given {S P n i l} hm hl hn := by
    rw [List.prefix_nil.mp hl] at hn
    have := hm.pos
    change n ≤ 0 at hn
    omega

/-- The shards that a replica finds on the move from one group are a whole batch. -/
theorem Local.batch {kv : ShardKV} (hl : Local h kv) {status : Status}
    (hst : status = .pulling ∨ status = .gc) {shardIds : List ShardId} (hne : shardIds ≠ [])
    (hperm : shardIds.Perm (kv.getShardIdsByStatus status S)) :
    Batch h kv.num S kv.gid shardIds := by
  have hmem : ∀ i, i ∈ shardIds ↔ kv.status i = status ∧ kv.lastConfig.shards i = S := by
    intro i
    rw [hperm.mem_iff]
    simp [ShardKV.getShardIdsByStatus]
  have hmoves : ∀ i ∈ shardIds, Moves h kv.num i S kv.gid := by
    intro i hi
    obtain ⟨hs, hlast⟩ := (hmem i).mp hi
    obtain ⟨S', hm⟩ := hl.pulled (i := i) (by rwa [hs])
    rw [hl.owner_last, hm.source] at hlast
    rwa [← hlast]
  refine ⟨hperm.nodup_iff.mpr ((List.nodup_finRange _).filter _), fun i => ⟨hmoves i, fun hm => ?_⟩⟩
  obtain ⟨k, hk⟩ := List.exists_mem_of_ne_nil _ hne
  have hmk := hmoves k hk
  refine (hmem i).mpr ⟨?_, by rw [hl.owner_last, hm.source]⟩
  rw [hl.uniform (hm.source.trans hmk.source.symm) (hm.target.trans hmk.target.symm)]
  exact ((hmem k).mp hk).1

namespace System

variable {sys sys' : System}

@[simp] theorem replica_gid (sys : System) (g : ℤ) (p : ℕ) : (sys.replica g p).gid = g :=
  replay_gid g _

theorem mem_propose {c c' : Command} {g j : ℤ} (hc : c' ∈ (sys.propose g c).proposals j) :
    c' ∈ sys.proposals j ∨ (j = g ∧ c' = c) := by
  change c' ∈ Function.update sys.proposals g _ j at hc
  by_cases hj : j = g
  · subst hj
    rw [Function.update_self] at hc
    exact (List.mem_append.mp hc).imp_right fun hc => ⟨rfl, List.mem_singleton.mp hc⟩
  · rw [Function.update_of_ne hj] at hc
    exact Or.inl hc

/-- The logs satisfy their invariant and whatever may enter them is sound. -/
structure Inv (h : History) (sys : System) : Prop where
  logs : LogsInv h sys.logs
  proposed : ∀ {g c}, c ∈ sys.proposals g → Sound h sys.logs g c
  committed : ∀ {g c}, c ∈ sys.logs g → Sound h sys.logs g c
  collections : ∀ {c}, c ∈ sys.collections →
    Batch h c.args.configNum c.source c.puller c.args.shardIds ∧
      Sound h sys.logs c.puller (.deleteShards c.args)

theorem Inv.propose (hi : sys.Inv h) {c : Command} (hs : Sound h sys.logs g c) :
    (sys.propose g c).Inv h where
  logs := hi.logs
  proposed hc' := by
    rcases mem_propose hc' with hc' | ⟨rfl, rfl⟩
    · exact hi.proposed hc'
    · exact hs
  committed := hi.committed
  collections := hi.collections

theorem Inv.commit (hi : sys.Inv h) {k : ℕ} (hs : sys.commit g k = some sys') :
    sys'.Inv h := by
  obtain ⟨c, hc, hg, rfl⟩ := of_commit hs
  have hsound := hi.proposed hc
  have hpre := prefix_extend sys.logs g c
  exact
    { logs := hi.logs.extend hg hsound
      proposed := fun hc' => (hi.proposed hc').mono hpre
      committed := fun hc' => by
        rcases mem_extend hc' with hc' | ⟨rfl, rfl⟩
        · exact (hi.committed hc').mono hpre
        · exact hsound.mono hpre
      collections := fun hc' => (hi.collections hc').imp_right (Sound.mono hpre) }

theorem Inv.fits_replica (hi : sys.Inv h) (g : ℤ) (p : ℕ) : Local h (sys.replica g p) :=
  hi.logs.fits g _ (List.take_prefix p _)

theorem Inv.configurationAction (hi : sys.Inv h) {p : ℕ}
    (hs : sys.configurationAction h g p = some sys') : sys'.Inv h := by
  obtain ⟨hserv, rfl⟩ := of_guarded hs
  exact hi.propose ⟨_, List.take_prefix p _, rfl, hserv⟩

theorem Inv.migrationAction (hi : sys.Inv h) {p q : ℕ} {source : ℤ} {shardIds : List ShardId}
    (hs : sys.migrationAction g p source q shardIds = some sys') : sys'.Inv h := by
  obtain ⟨hne, hperm, hready, rfl⟩ := of_migrationAction hs
  have hb := (hi.fits_replica g p).batch (Or.inl rfl) hne hperm
  rw [replica_gid] at hb
  refine hi.propose ⟨source, ?_, ?_, fun i data hm => ?_⟩
  · simpa [ShardKV.shardsData, Function.comp_def] using hb
  · exact hready.trans (num_replay_mono source (List.take_prefix q _))
  · obtain ⟨i', hi', heq⟩ := List.mem_map.mp hm
    obtain ⟨rfl, rfl⟩ := Prod.mk.inj heq
    exact (hi.logs.given ((hb.2 i').mp hi') (List.take_prefix q _) hready).imp_left
      fun hgiven => hgiven.2.2

theorem Inv.gcAction (hi : sys.Inv h) {p q index : ℕ} {source : ℤ} {shardIds : List ShardId}
    (hs : sys.gcAction g p source q shardIds index = some sys') : sys'.Inv h := by
  obtain ⟨hne, hperm, -, hcases⟩ := of_gcAction hs
  have hb := (hi.fits_replica g p).batch (Or.inr rfl) hne hperm
  rw [replica_gid] at hb
  have hheld : ∀ i ∈ shardIds, Held g (sys.logs g) (sys.replica g p).num i := by
    intro i hmem
    refine Held.mono (List.take_prefix p _) (Or.inr ⟨rfl, ?_⟩)
    have hgc : (sys.replica g p).status i = .gc := by
      have := hperm.mem_iff.mp hmem
      simp only [ShardKV.getShardIdsByStatus, List.mem_filter, decide_eq_true_eq] at this
      exact this.2.1
    change (sys.replica g p).status i ≠ _
    rw [hgc]
    decide
  have hpuller : Sound h sys.logs g (.deleteShards ⟨(sys.replica g p).num, shardIds⟩) :=
    ⟨source, g, hb, Or.inr rfl, num_replay_mono g (List.take_prefix p _), hheld⟩
  rcases hcases with ⟨-, rfl⟩ | ⟨hready, rfl⟩
  · exact hi.propose hpuller
  · have hsource : Sound h sys.logs source (.deleteShards ⟨(sys.replica g p).num, shardIds⟩) :=
      ⟨source, g, hb, Or.inl rfl, hready.trans (num_replay_mono source (List.take_prefix q _)),
        hheld⟩
    exact
      { hi.propose hsource with
        collections := fun hc => by
          rcases List.mem_append.mp hc with hc | hc
          · exact hi.collections hc
          · rw [List.mem_singleton.mp hc]
            exact ⟨hb, hpuller⟩ }

theorem Inv.gcReply (hi : sys.Inv h) {k : ℕ} (hs : sys.gcReply k = some sys') : sys'.Inv h := by
  obtain ⟨c, -, hc, -, rfl⟩ := of_gcReply hs
  obtain ⟨-, hsound⟩ := hi.collections (List.mem_of_getElem? hc)
  exact
    { hi.propose hsound with
      collections := fun hc' => hi.collections (List.mem_of_mem_eraseIdx hc') }

theorem Inv.step (hi : sys.Inv h) {a : Action} (hs : sys.step h a = some sys') : sys'.Inv h := by
  cases a with
  | issue args =>
    obtain ⟨-, rfl⟩ := of_guarded hs
    exact { hi with }
  | command gid p args =>
    obtain ⟨-, rfl⟩ := of_guarded hs
    exact hi.propose trivial
  | configurationAction gid p => exact hi.configurationAction hs
  | migrationAction gid p source q shardIds => exact hi.migrationAction hs
  | gcAction gid p source q shardIds index => exact hi.gcAction hs
  | gcReply k => exact hi.gcReply hs
  | checkEntryInCurrentTermAction gid =>
    obtain rfl := Option.some.inj hs
    exact hi.propose trivial
  | commit gid k => exact hi.commit hs

theorem init_inv (h : History) : init.Inv h where
  logs := logsInv_init h
  proposed hc := by cases hc
  committed hc := by cases hc
  collections hc := by cases hc

/-- A step leaves the logs alone or commits a proposal. -/
theorem step_logs {a : Action} (hs : sys.step h a = some sys') :
    sys'.logs = sys.logs ∨
      ∃ g c, g ≠ 0 ∧ c ∈ sys.proposals g ∧ sys'.logs = extend sys.logs g c := by
  cases a with
  | issue args =>
    obtain ⟨-, rfl⟩ := of_guarded hs
    exact Or.inl rfl
  | command gid p args =>
    obtain ⟨-, rfl⟩ := of_guarded hs
    exact Or.inl rfl
  | configurationAction gid p =>
    obtain ⟨-, rfl⟩ := of_guarded hs
    exact Or.inl rfl
  | migrationAction gid p source q shardIds =>
    obtain ⟨-, -, -, rfl⟩ := of_migrationAction hs
    exact Or.inl rfl
  | gcAction gid p source q shardIds index =>
    obtain ⟨-, -, -, ⟨-, rfl⟩ | ⟨-, rfl⟩⟩ := of_gcAction hs <;> exact Or.inl rfl
  | gcReply k =>
    obtain ⟨c, command, -, -, rfl⟩ := of_gcReply hs
    exact Or.inl rfl
  | checkEntryInCurrentTermAction gid =>
    obtain rfl := Option.some.inj hs
    exact Or.inl rfl
  | commit gid k =>
    obtain ⟨c, hc, hg, rfl⟩ := of_commit hs
    exact Or.inr ⟨gid, c, hg, hc, rfl⟩

section Run
variable {Q : System → Action → Prop} {r : ℕ → System}

theorem Run.inv (hr : Run h Q r) (k : ℕ) : (r k).Inv h :=
  hr.steps.invariant (fun _ _ _ _ hs hi => hi.step hs) (hr.init ▸ init_inv h) k

theorem Run.logs_mono (hr : Run h Q r) {k k' : ℕ} (hk : k ≤ k') (g : ℤ) :
    (r k).logs g <+: (r k').logs g := by
  refine hr.steps.monotone (R := fun s s' : System => s.logs g <+: s'.logs g)
    (fun _ => List.prefix_rfl) List.IsPrefix.trans (fun j hj => ?_) hk
  obtain ⟨a, -, hs⟩ := hj
  rcases step_logs hs with heq | ⟨g', c, -, -, heq⟩
  · rw [heq]
  · rw [heq]
    exact prefix_extend _ g' c g

/-- A command that is committed had been proposed. -/
theorem Run.proposed_of_commit (hr : Run h Q r) {k : ℕ} {c : Command}
    (hlog : (r (k + 1)).logs g = (r k).logs g ++ [c]) : c ∈ (r k).proposals g := by
  rcases hr.steps k with heq | ⟨a, -, hs⟩
  · rw [heq] at hlog
    exact absurd hlog (by simp)
  rcases step_logs hs with heq | ⟨g', c', -, hc, heq⟩
  · rw [heq] at hlog
    exact absurd hlog (by simp)
  · rw [heq] at hlog
    by_cases hg : g = g'
    · subst hg
      rw [extend, Function.update_self] at hlog
      obtain rfl : c' = c := by simpa using hlog
      exact hc
    · rw [extend, Function.update_of_ne hg] at hlog
      exact absurd hlog (by simp)

end Run

end System

end RaftLabs.Shardkv
