import RaftLabs.Shardkv.System

/-! What one command can do to the state of a group, and what follows for the states along a
log. -/
namespace RaftLabs.Shardkv
open Shardctrler

namespace ShardKV

variable {kv : ShardKV} {i : ShardId}

/-- The number of the current configuration. -/
abbrev num (kv : ShardKV) : ℕ := kv.currentConfig.num

abbrev status (kv : ShardKV) (i : ShardId) : Status := (kv.stateMachines i).status

theorem insertLoop_cases (sm : ShardId → Shard) (l : List (ShardId × KV)) (i : ShardId) :
    insertLoop sm l i = sm i ∨ ∃ data, (i, data) ∈ l ∧ (sm i).status = .pulling ∧
      insertLoop sm l i = ⟨mergeKV data (sm i).kv, .gc⟩ := by
  induction l generalizing sm with
  | nil => exact Or.inl rfl
  | cons e rest ih =>
    obtain ⟨j, d⟩ := e
    simp only [insertLoop]
    split_ifs with hp
    · by_cases hij : i = j
      · subst hij
        rcases ih (Function.update sm i ⟨mergeKV d (sm i).kv, .gc⟩) with h | ⟨_, _, hpull, _⟩
        · rw [Function.update_self] at h
          exact Or.inr ⟨d, List.mem_cons_self, hp, h⟩
        · rw [Function.update_self] at hpull
          cases hpull
      · rcases ih (Function.update sm j ⟨mergeKV d (sm j).kv, .gc⟩) with h | ⟨data, hm, hpull, h⟩
        · rw [Function.update_of_ne hij] at h
          exact Or.inl h
        · rw [Function.update_of_ne hij] at hpull h
          exact Or.inr ⟨data, List.mem_cons_of_mem _ hm, hpull, h⟩
    · exact Or.inl rfl

/-- What holds of shards holds of them after another one is written. -/
theorem forall_update {sm : ShardId → Shard} {l : List ShardId} {P : Shard → Prop} {j : ShardId}
    (hj : j ∉ l) (hp : ∀ k ∈ l, P (sm k)) (new : Shard) :
    ∀ k ∈ l, P (Function.update sm j new k) := by
  intro k hk
  have hkj : k ≠ j := by
    rintro rfl
    exact hj hk
  rw [Function.update_of_ne hkj]
  exact hp k hk

/-- All shards are inserted if all of them are `PULLING`. -/
theorem insertLoop_all {sm : ShardId → Shard} {l : List (ShardId × KV)}
    (hn : (l.map Prod.fst).Nodup) (hp : ∀ i ∈ l.map Prod.fst, (sm i).status = .pulling)
    (hi : i ∈ l.map Prod.fst) : (insertLoop sm l i).status = .gc := by
  induction l generalizing sm with
  | nil => cases hi
  | cons e rest ih =>
    obtain ⟨j, d⟩ := e
    simp only [List.map_cons, List.nodup_cons, List.mem_cons] at hn hp hi
    simp only [insertLoop, if_pos (hp j (Or.inl rfl))]
    rcases hi with rfl | hi
    · rcases insertLoop_cases (Function.update sm i ⟨mergeKV d (sm i).kv, .gc⟩) rest i with
        h | ⟨_, hm, _⟩
      · rw [h, Function.update_self]
      · exact absurd (List.mem_map_of_mem (f := Prod.fst) hm) hn.1
    · exact ih hn.2 (forall_update (P := fun x => x.status = .pulling) hn.1
        (fun k hk => hp k (Or.inr hk)) _) hi

theorem deleteLoop_cases (sm : ShardId → Shard) (l : List ShardId) (i : ShardId) :
    deleteLoop sm l i = sm i ∨
      (i ∈ l ∧ (sm i).status = .gc ∧ deleteLoop sm l i = ⟨(sm i).kv, .serving⟩) ∨
      (i ∈ l ∧ (sm i).status = .bePulling ∧ deleteLoop sm l i = newShard) := by
  induction l generalizing sm with
  | nil => exact Or.inl rfl
  | cons j rest ih =>
    -- the shard at the head of the list is not touched again
    have hstep : ∀ new : Shard, new.status = .serving → deleteLoop (Function.update sm j new) rest i
        = Function.update sm j new i ∨ (i ≠ j ∧ i ∈ rest ∧ (sm i).status = .gc ∧
          deleteLoop (Function.update sm j new) rest i = ⟨(sm i).kv, .serving⟩) ∨
        (i ≠ j ∧ i ∈ rest ∧ (sm i).status = .bePulling ∧
          deleteLoop (Function.update sm j new) rest i = newShard) := by
      intro new hnew
      by_cases hij : i = j
      · subst hij
        have := ih (Function.update sm i new)
        simp only [Function.update_self, hnew, reduceCtorEq, false_and, and_false, or_false] at this
        exact Or.inl (by simpa using this)
      · have := ih (Function.update sm j new)
        simpa [Function.update_of_ne hij, hij] using this
    simp only [deleteLoop]
    split_ifs with hg hb
    · rcases hstep ⟨(sm j).kv, .serving⟩ rfl with h | ⟨-, hm, hs, h⟩ | ⟨-, hm, hs, h⟩
      · by_cases hij : i = j
        · subst hij
          rw [Function.update_self] at h
          exact Or.inr (Or.inl ⟨List.mem_cons_self, hg, h⟩)
        · rw [Function.update_of_ne hij] at h
          exact Or.inl h
      · exact Or.inr (Or.inl ⟨List.mem_cons_of_mem _ hm, hs, h⟩)
      · exact Or.inr (Or.inr ⟨List.mem_cons_of_mem _ hm, hs, h⟩)
    · rcases hstep newShard rfl with h | ⟨-, hm, hs, h⟩ | ⟨-, hm, hs, h⟩
      · by_cases hij : i = j
        · subst hij
          rw [Function.update_self] at h
          exact Or.inr (Or.inr ⟨List.mem_cons_self, hb, h⟩)
        · rw [Function.update_of_ne hij] at h
          exact Or.inl h
      · exact Or.inr (Or.inl ⟨List.mem_cons_of_mem _ hm, hs, h⟩)
      · exact Or.inr (Or.inr ⟨List.mem_cons_of_mem _ hm, hs, h⟩)
    · exact Or.inl rfl

/-- All shards are handled if all of them are `GC` or `BEPULLING`. -/
theorem deleteLoop_all {sm : ShardId → Shard} {l : List ShardId} (hn : l.Nodup)
    (hp : ∀ i ∈ l, (sm i).status = .gc ∨ (sm i).status = .bePulling) (hi : i ∈ l) :
    (deleteLoop sm l i).status = .serving := by
  induction l generalizing sm with
  | nil => cases hi
  | cons j rest ih =>
    simp only [List.nodup_cons, List.mem_cons] at hn hp hi
    have hstep : ∀ new : Shard, new.status = .serving →
        (deleteLoop (Function.update sm j new) rest i).status = .serving := by
      intro new hnew
      rcases hi with rfl | hi
      · rcases deleteLoop_cases (Function.update sm i new) rest i with h | ⟨hm, -⟩ | ⟨hm, -⟩
        · rw [h, Function.update_self, hnew]
        · exact absurd hm hn.1
        · exact absurd hm hn.1
      · exact ih hn.2 (forall_update (P := fun x => x.status = .gc ∨ x.status = .bePulling) hn.1
          (fun k hk => hp k (Or.inr hk)) _) hi
    simp only [deleteLoop]
    rcases hp j (Or.inl rfl) with h | h
    · rw [if_pos h]
      exact hstep _ rfl
    · rw [if_neg (by rw [h]; decide), if_pos h]
      exact hstep _ rfl

/-- What a command makes of one shard. -/
inductive Change (kv : ShardKV) (i : ShardId) : Command → Shard → Prop
  | same (c : Command) : Change kv i c (kv.stateMachines i)
  | write (args : CommandArgs) (data : KV) (hk : key2shard args.key = i) (hs : kv.canServer i) :
      Change kv i (.operation args) ⟨data, kv.status i⟩
  | configure (c : Config) (h : c.num = kv.num + 1) :
      Change kv i (.configuration c) ⟨(kv.stateMachines i).kv, kv.nextStatus c i⟩
  | insert (reply : ShardOperationReply) (data : KV) (h : reply.configNum = kv.num)
      (hm : (i, data) ∈ reply.shards) (hs : kv.status i = .pulling) :
      Change kv i (.insertShards reply) ⟨mergeKV data (kv.stateMachines i).kv, .gc⟩
  | collect (args : ShardOperationArgs) (h : args.configNum = kv.num) (hm : i ∈ args.shardIds)
      (hs : kv.status i = .gc) :
      Change kv i (.deleteShards args) ⟨(kv.stateMachines i).kv, .serving⟩
  | drop (args : ShardOperationArgs) (h : args.configNum = kv.num) (hm : i ∈ args.shardIds)
      (hs : kv.status i = .bePulling) : Change kv i (.deleteShards args) newShard

theorem applyLogToStateMachines_status (kv : ShardKV) (args : CommandArgs) (i : ShardId) :
    (kv.applyLogToStateMachines args i).1.status = kv.status i := by
  unfold applyLogToStateMachines
  cases args.op with
  | put => rfl
  | append => rfl
  | get =>
    simp only
    cases (kv.stateMachines i).kv args.key <;> rfl

/-- The three outcomes of an operation. -/
theorem applyOperation_cases (kv : ShardKV) (args : CommandArgs) :
    (kv.applyOperation args).1 = kv ∨
      (kv.canServer (key2shard args.key) ∧ ¬ kv.Skips args ∧
        (kv.applyOperation args).1 = { kv with
          stateMachines := Function.update kv.stateMachines (key2shard args.key)
            (kv.applyLogToStateMachines args (key2shard args.key)).1
          lastOperations := if args.op = .get then kv.lastOperations
            else Function.update kv.lastOperations args.clientId
              (some ⟨args.commandId,
                (kv.applyLogToStateMachines args (key2shard args.key)).2⟩) }) := by
  unfold applyOperation
  by_cases hs : kv.canServer (key2shard args.key)
  · by_cases hk : kv.Skips args
    · exact Or.inl (by simp only [if_pos hs, if_pos hk])
    · refine Or.inr ⟨hs, hk, ?_⟩
      simp only [if_pos hs, if_neg hk]
      by_cases hop : args.op = .get <;> simp [hop]
  · exact Or.inl (by simp only [if_neg hs])

theorem apply_change (kv : ShardKV) (c : Command) (i : ShardId) :
    Change kv i c ((kv.apply c).1.stateMachines i) := by
  cases c with
  | operation args =>
    change Change kv i _ ((kv.applyOperation args).1.stateMachines i)
    rcases applyOperation_cases kv args with h | ⟨hs, -, h⟩
    · rw [h]
      exact .same _
    · rw [h]
      by_cases hi : i = key2shard args.key
      · subst hi
        simp only [Function.update_self]
        have := Change.write args
          (kv.applyLogToStateMachines args (key2shard args.key)).1.kv rfl hs
        rwa [← applyLogToStateMachines_status kv args] at this
      · simp only [Function.update_of_ne hi]
        exact .same _
  | configuration config =>
    simp only [apply, applyConfiguration]
    split_ifs with h
    · exact .configure config h
    · exact .same _
  | insertShards reply =>
    simp only [apply, applyInsertShards]
    split_ifs with h
    · rcases insertLoop_cases kv.stateMachines reply.shards i with heq | ⟨data, hm, hs, heq⟩
      · simp only [heq]
        exact .same _
      · simp only [heq]
        exact .insert reply data h hm hs
    · exact .same _
  | deleteShards args =>
    simp only [apply, applyDeleteShards]
    split_ifs with h
    · rcases deleteLoop_cases kv.stateMachines args.shardIds i with
        heq | ⟨hm, hs, heq⟩ | ⟨hm, hs, heq⟩
      · simp only [heq]
        exact .same _
      · simp only [heq]
        exact .collect args h hm hs
      · simp only [heq]
        exact .drop args h hm hs
    · exact .same _
  | emptyEntry => exact .same _

/-- Only the next configuration changes the configurations of the state. -/
theorem apply_config (kv : ShardKV) (c : Command) :
    ((kv.apply c).1.currentConfig = kv.currentConfig ∧ (kv.apply c).1.lastConfig = kv.lastConfig) ∨
      ∃ config, c = .configuration config ∧ config.num = kv.num + 1 ∧
        (kv.apply c).1.currentConfig = config ∧ (kv.apply c).1.lastConfig = kv.currentConfig := by
  cases c with
  | operation args =>
    left
    change (kv.applyOperation args).1.currentConfig = _ ∧ (kv.applyOperation args).1.lastConfig = _
    rcases applyOperation_cases kv args with h | ⟨-, -, h⟩
    · rw [h]
      exact ⟨rfl, rfl⟩
    · rw [h]
      exact ⟨rfl, rfl⟩
  | configuration config =>
    simp only [apply, applyConfiguration]
    split_ifs with h
    · exact Or.inr ⟨config, rfl, h, rfl, rfl⟩
    · exact Or.inl ⟨rfl, rfl⟩
  | insertShards reply =>
    left
    simp only [apply, applyInsertShards]
    split_ifs <;> exact ⟨rfl, rfl⟩
  | deleteShards args =>
    left
    simp only [apply, applyDeleteShards]
    split_ifs <;> exact ⟨rfl, rfl⟩
  | emptyEntry => exact Or.inl ⟨rfl, rfl⟩

theorem apply_gid (kv : ShardKV) (c : Command) : (kv.apply c).1.gid = kv.gid := by
  cases c with
  | operation args =>
    change (kv.applyOperation args).1.gid = _
    rcases applyOperation_cases kv args with h | ⟨-, -, h⟩ <;> rw [h]
  | configuration config =>
    simp only [apply, applyConfiguration, updateShardStatus]
    split_ifs <;> rfl
  | insertShards reply =>
    simp only [apply, applyInsertShards]
    split_ifs <;> rfl
  | deleteShards args =>
    simp only [apply, applyDeleteShards]
    split_ifs <;> rfl
  | emptyEntry => rfl

theorem num_apply (kv : ShardKV) (c : Command) : kv.num ≤ (kv.apply c).1.num := by
  rcases apply_config kv c with ⟨h, -⟩ | ⟨config, -, hnum, h, -⟩
  · exact (congrArg Config.num h).ge
  · have := congrArg Config.num h
    change (kv.apply c).1.num = _ at this
    omega

/-- Only a configuration changes the number. -/
theorem num_apply_eq {c : Command} (hc : ∀ config, c ≠ .configuration config) :
    (kv.apply c).1.num = kv.num := by
  rcases apply_config kv c with ⟨heq, -⟩ | ⟨config, heq, -⟩
  · exact congrArg Config.num heq
  · exact absurd heq (hc config)

/-- Within one configuration the status of a shard changes only by an insertion or a
deletion. -/
theorem status_apply {c : Command} (hnum : (kv.apply c).1.num = kv.num) (i : ShardId) :
    (kv.apply c).1.status i = kv.status i ∨
      (∃ reply data, c = .insertShards reply ∧ reply.configNum = kv.num ∧
        (i, data) ∈ reply.shards ∧ kv.status i = .pulling ∧ (kv.apply c).1.status i = .gc) ∨
      ∃ args, c = .deleteShards args ∧ args.configNum = kv.num ∧ i ∈ args.shardIds ∧
        (kv.status i = .gc ∨ kv.status i = .bePulling) ∧ (kv.apply c).1.status i = .serving := by
  have hch := apply_change kv c i
  generalize hnew : (kv.apply c).1.stateMachines i = new at hch
  have hst : (kv.apply c).1.status i = new.status := by rw [← hnew]
  rw [hst]
  cases hch with
  | same c => exact Or.inl rfl
  | write args data hk hs => exact Or.inl rfl
  | configure config h =>
    have heq : (kv.apply (.configuration config)).1.num = config.num := by
      simp only [apply, applyConfiguration, if_pos h]
    omega
  | insert reply data h hm hs => exact Or.inr (Or.inl ⟨reply, data, rfl, h, hm, hs, rfl⟩)
  | collect args h hm hs => exact Or.inr (Or.inr ⟨args, rfl, h, hm, Or.inl hs, rfl⟩)
  | drop args h hm hs => exact Or.inr (Or.inr ⟨args, rfl, h, hm, Or.inr hs, rfl⟩)

/-- Within one configuration no shard becomes `PULLING` or `BEPULLING`. -/
theorem steady_apply {c : Command} (hnum : (kv.apply c).1.num = kv.num) (i : ShardId) :
    ((kv.apply c).1.status i = .pulling → kv.status i = .pulling) ∧
      ((kv.apply c).1.status i = .bePulling → kv.status i = .bePulling) ∧
      (kv.status i = .serving → (kv.apply c).1.status i = .serving) := by
  rcases status_apply hnum i with h | ⟨_, _, _, _, _, hs, h⟩ | ⟨_, _, _, _, hs, h⟩
  · rw [h]
    exact ⟨id, id, id⟩
  · rw [h, hs]
    decide
  · rw [h]
    simp

/-- Within one configuration a shard ceases to be `PULLING` only by an insertion. -/
theorem insert_of_pulling {c : Command} (hnum : (kv.apply c).1.num = kv.num)
    (hp : kv.status i = .pulling) (hnp : (kv.apply c).1.status i ≠ .pulling) :
    ∃ reply data, c = .insertShards reply ∧ reply.configNum = kv.num ∧
      (i, data) ∈ reply.shards ∧ (kv.apply c).1.status i = .gc := by
  rcases status_apply hnum i with h | ⟨reply, data, hc, hn, hm, -, h⟩ | ⟨_, _, _, _, hs, _⟩
  · exact absurd (h.trans hp) hnp
  · exact ⟨reply, data, hc, hn, hm, h⟩
  · rw [hp] at hs
    rcases hs with hs | hs <;> cases hs

/-- Within one configuration a shard ceases to be `BEPULLING` only by a deletion. -/
theorem delete_of_bePulling {c : Command} (hnum : (kv.apply c).1.num = kv.num)
    (hb : kv.status i = .bePulling) (hnb : (kv.apply c).1.status i ≠ .bePulling) :
    ∃ args, c = .deleteShards args ∧ (kv.apply c).1.status i = .serving := by
  rcases status_apply hnum i with h | ⟨_, _, _, _, _, hs, _⟩ | ⟨args, hc, -, -, -, h⟩
  · exact absurd (h.trans hb) hnb
  · exact absurd (hb.symm.trans hs) (by decide)
  · exact ⟨args, hc, h⟩

end ShardKV

section Log
variable {g : ℤ} {l l' : List Command} {i : ShardId}

theorem replay_concat (g : ℤ) (l : List Command) (c : Command) :
    replay g (l ++ [c]) = ((replay g l).apply c).1 := by simp [replay]

@[simp] theorem replay_gid (g : ℤ) (l : List Command) : (replay g l).gid = g := by
  induction l using List.reverseRecOn with
  | nil => rfl
  | append_singleton l c ih => rw [replay_concat, ShardKV.apply_gid, ih]

theorem num_replay_mono (g : ℤ) (h : l <+: l') : (replay g l).num ≤ (replay g l').num := by
  obtain ⟨t, rfl⟩ := h
  induction t using List.reverseRecOn with
  | nil => simp
  | append_singleton t c ih =>
    rw [← List.append_assoc, replay_concat]
    exact ih.trans (ShardKV.num_apply _ c)

/-- What every command preserves that does not change the configuration holds as long as the
configuration lasts. -/
theorem replay_steady {Q : ShardKV → Prop} (h : l <+: l')
    (hstep : ∀ kv c, (kv.apply c).1.num = kv.num → Q kv → Q (kv.apply c).1)
    (hnum : (replay g l').num = (replay g l).num) (hq : Q (replay g l)) : Q (replay g l') := by
  obtain ⟨t, rfl⟩ := h
  induction t using List.reverseRecOn with
  | nil => simpa using hq
  | append_singleton t c ih =>
    rw [← List.append_assoc, replay_concat] at hnum ⊢
    have h₁ := num_replay_mono g (List.prefix_append l t)
    have h₂ := ShardKV.num_apply (replay g (l ++ t)) c
    exact hstep _ c (by omega) (ih (by omega))

/-- The group has got past configuration `n`, or has its shard `i` in it. -/
def Held (g : ℤ) (l : List Command) (n : ℕ) (i : ShardId) : Prop :=
  n < (replay g l).num ∨ ((replay g l).num = n ∧ (replay g l).status i ≠ .pulling)

theorem Held.mono {n : ℕ} (hp : l <+: l') (h : Held g l n i) : Held g l' n i := by
  have hle := num_replay_mono g hp
  rcases h with h | ⟨rfl, h⟩
  · exact Or.inl (by omega)
  · rcases Nat.eq_or_lt_of_le hle with heq | hlt
    · refine Or.inr ⟨heq.symm, ?_⟩
      exact replay_steady (Q := fun kv => kv.status i ≠ .pulling) hp
        (fun kv c hnum hq hpull => hq ((ShardKV.steady_apply hnum i).1 hpull)) heq.symm h
    · exact Or.inl hlt

/-- In configuration `n` the next command of the log takes shard `i` from one status to
another. -/
structure Shifts (g : ℤ) (l : List Command) (c : Command) (n : ℕ) (i : ShardId)
    (s t : Status) : Prop where
  num : (replay g l).num = n
  before : (replay g l).status i = s
  after : (replay g (l ++ [c])).status i = t

/-- An insertion that takes effect carries data for the shard. -/
theorem Shifts.insertShards {reply : ShardOperationReply} {n : ℕ}
    (h : Shifts g l (.insertShards reply) n i .pulling .gc) :
    reply.configNum = n ∧ ∃ data, (i, data) ∈ reply.shards := by
  obtain ⟨rfl, hbefore, hafter⟩ := h
  rw [replay_concat] at hafter
  obtain ⟨reply', data, hc, hn, hm, -⟩ := ShardKV.insert_of_pulling
    (ShardKV.num_apply_eq (c := .insertShards reply) nofun) hbefore (by rw [hafter]; decide)
  cases hc
  exact ⟨hn, data, hm⟩

/-- A deletion that takes effect names the shard. -/
theorem Shifts.deleteShards {args : ShardOperationArgs} {n : ℕ} {s t : Status}
    (h : Shifts g l (.deleteShards args) n i s t) (hst : s ≠ t) :
    args.configNum = n ∧ i ∈ args.shardIds := by
  obtain ⟨rfl, rfl, rfl⟩ := h
  rw [replay_concat] at hst
  rcases ShardKV.status_apply (ShardKV.num_apply_eq (c := .deleteShards args) nofun) i with
    heq | ⟨_, _, hc, -⟩ | ⟨args', hc, hn, hm, -⟩
  · exact absurd heq.symm hst
  · cases hc
  · cases hc
    exact ⟨hn, hm⟩

/-- The log has an insertion that takes effect on shard `i` in configuration `n`. -/
def Inserted (g : ℤ) (log : List Command) (n : ℕ) (i : ShardId) : Prop :=
  ∃ l reply, l ++ [.insertShards reply] <+: log ∧
    Shifts g l (.insertShards reply) n i .pulling .gc

theorem Inserted.mono {n : ℕ} (hp : l <+: l') (h : Inserted g l n i) : Inserted g l' n i := by
  obtain ⟨k, reply, hk, hs⟩ := h
  exact ⟨k, reply, hk.trans hp, hs⟩

/-- The log has a deletion that gives up shard `i` in configuration `n`. -/
def Deleted (g : ℤ) (log : List Command) (n : ℕ) (i : ShardId) : Prop :=
  ∃ l args, l ++ [.deleteShards args] <+: log ∧
    Shifts g l (.deleteShards args) n i .bePulling .serving

theorem Deleted.mono {n : ℕ} (hp : l <+: l') (h : Deleted g l n i) : Deleted g l' n i := by
  obtain ⟨k, args, hk, hs⟩ := h
  exact ⟨k, args, hk.trans hp, hs⟩

theorem Deleted.not_bePulling {n : ℕ} (h : Deleted g l n i) :
    ¬ ((replay g l).num = n ∧ (replay g l).status i = .bePulling) := by
  rintro ⟨rfl, hb⟩
  obtain ⟨l₀, args, hl, hnum, -, hafter⟩ := h
  have hserv := replay_steady (Q := fun kv => kv.status i = .serving) hl
    (fun _ _ hnum hq => (ShardKV.steady_apply hnum i).2.2 hq)
    (by rw [replay_concat, ShardKV.num_apply_eq (c := .deleteShards args) nofun, hnum]) hafter
  exact absurd (hb.symm.trans hserv) (by decide)

/-- A state at rest stays at rest until the next configuration. -/
theorem serving_steady (hp : l <+: l') (hnum : (replay g l').num = (replay g l).num)
    (h : ∀ i, (replay g l).status i = .serving) (i : ShardId) :
    (replay g l').status i = .serving :=
  replay_steady (Q := fun kv => kv.status i = .serving) hp
    (fun _ _ hnum hq => (ShardKV.steady_apply hnum i).2.2 hq) hnum (h i)

end Log

end RaftLabs.Shardkv
