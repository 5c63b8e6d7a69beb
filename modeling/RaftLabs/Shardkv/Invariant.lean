import RaftLabs.Shardkv.Replay

/-! The invariant of the migration protocol. It holds along every run, for every sequence of
configurations. -/
namespace RaftLabs.Shardkv
open Basis Shardctrler

/-- In configuration `n` the shard `i` moves from the group `S` to the group `P`. -/
structure Moves (h : History) (n : ℕ) (i : ShardId) (S P : ℤ) : Prop where
  pos : 0 < n
  source : h.owner (n - 1) i = S
  target : h.owner n i = P
  ne : S ≠ P
  source_ne : S ≠ 0
  target_ne : P ≠ 0

/-- The list holds each shard that moves from `S` to `P` in configuration `n` once. -/
def Batch (h : History) (n : ℕ) (S P : ℤ) (shardIds : List ShardId) : Prop :=
  shardIds.Nodup ∧ ∀ i, i ∈ shardIds ↔ Moves h n i S P

variable {h : History} {n : ℕ} {i j : ShardId} {S P S' P' g : ℤ}

theorem Moves.unique (hm : Moves h n i S P) (hm' : Moves h n i S' P') : S = S' ∧ P = P' :=
  ⟨hm.source.symm.trans hm'.source, hm.target.symm.trans hm'.target⟩

theorem Moves.congr (hm : Moves h n i S P) (h₁ : h.owner (n - 1) i = h.owner (n - 1) j)
    (h₂ : h.owner n i = h.owner n j) : Moves h n j S P :=
  ⟨hm.pos, h₁ ▸ hm.source, h₂ ▸ hm.target, hm.ne, hm.source_ne, hm.target_ne⟩

/-- The statuses of the shards fit the two configurations of the state: a shard is on the move
only if it changes hands, and shards that make the same move are at the same stage. -/
structure Local (h : History) (kv : ShardKV) : Prop where
  current : kv.currentConfig = h.config kv.num
  last : kv.lastConfig = h.config (kv.num - 1)
  pulled : ∀ {i}, kv.status i = .pulling ∨ kv.status i = .gc → ∃ S, Moves h kv.num i S kv.gid
  given : ∀ {i}, kv.status i = .bePulling → ∃ P, Moves h kv.num i kv.gid P
  uniform : ∀ {i j}, h.owner (kv.num - 1) i = h.owner (kv.num - 1) j →
    h.owner kv.num i = h.owner kv.num j → kv.status i = kv.status j

section LocalStep
variable {kv : ShardKV}

theorem Local.owner_current (hl : Local h kv) (i : ShardId) :
    kv.currentConfig.shards i = h.owner kv.num i := by
  rw [History.owner, ← hl.current]

theorem Local.owner_last (hl : Local h kv) (i : ShardId) :
    kv.lastConfig.shards i = h.owner (kv.num - 1) i := by
  rw [History.owner, ← hl.last]

theorem Local.uniform_batch (hl : Local h kv) {l : List ShardId} (hb : Batch h kv.num S P l)
    (hi : i ∈ l) (hj : j ∈ l) : kv.status i = kv.status j := by
  have hmi := (hb.2 i).mp hi
  have hmj := (hb.2 j).mp hj
  exact hl.uniform (hmi.source.trans hmj.source.symm) (hmi.target.trans hmj.target.symm)

theorem Batch.mem_congr {l : List ShardId} (hb : Batch h n S P l)
    (h₁ : h.owner (n - 1) i = h.owner (n - 1) j) (h₂ : h.owner n i = h.owner n j) :
    i ∈ l ↔ j ∈ l := by
  rw [hb.2, hb.2]
  exact ⟨fun hm => hm.congr h₁ h₂, fun hm => hm.congr h₁.symm h₂.symm⟩

theorem local_start (h : History) (g : ℤ) : Local h (.start g) where
  current := h.config_zero.symm
  last := h.config_zero.symm
  pulled hs := by rcases hs with hs | hs <;> cases hs
  given hs := by cases hs
  uniform _ _ := rfl

/-- The status with which a group that is at rest enters configuration `n + 1`. -/
def History.entryStatus (h : History) (g : ℤ) (n : ℕ) (i : ShardId) : Status :=
  if h.owner n i ≠ g ∧ h.owner (n + 1) i = g ∧ h.owner n i ≠ 0 then .pulling
  else if h.owner n i = g ∧ h.owner (n + 1) i ≠ g ∧ h.owner (n + 1) i ≠ 0 then .bePulling
  else .serving

theorem Moves.entryStatus_target (hm : Moves h (n + 1) i S P) :
    h.entryStatus P n i = .pulling := by
  have hs : h.owner n i = S := hm.source
  simp [History.entryStatus, hs, hm.target, hm.ne, hm.source_ne]

theorem Moves.entryStatus_source (hm : Moves h (n + 1) i S P) :
    h.entryStatus S n i = .bePulling := by
  have hs : h.owner n i = S := hm.source
  simp [History.entryStatus, hs, hm.target, hm.ne.symm, hm.target_ne]

theorem History.apply_next (h : History) (kv : ShardKV) :
    (kv.apply (.configuration (h.config (kv.num + 1)))).1 =
      { kv.updateShardStatus (h.config (kv.num + 1)) with
        lastConfig := kv.currentConfig
        currentConfig := h.config (kv.num + 1) } := by
  simp only [ShardKV.apply, ShardKV.applyConfiguration, if_pos (h.config_num (kv.num + 1))]

/-- A state at rest enters the next configuration. -/
theorem Local.configuration (hl : Local h kv) (hg : kv.gid ≠ 0)
    (hserv : ∀ i, kv.status i = .serving) :
    Local h (kv.apply (.configuration (h.config (kv.num + 1)))).1 ∧
      (kv.apply (.configuration (h.config (kv.num + 1)))).1.num = kv.num + 1 ∧
      ∀ i, (kv.apply (.configuration (h.config (kv.num + 1)))).1.status i =
        h.entryStatus kv.gid kv.num i := by
  have hnext := h.config_num (kv.num + 1)
  have happ := h.apply_next kv
  have hnum : (kv.apply (.configuration (h.config (kv.num + 1)))).1.num = kv.num + 1 := by
    rw [happ]
    exact hnext
  have hstatus : ∀ i, (kv.apply (.configuration (h.config (kv.num + 1)))).1.status i =
      h.entryStatus kv.gid kv.num i := by
    intro i
    have howner : (h.config (kv.num + 1)).shards i = h.owner (kv.num + 1) i := rfl
    rw [happ]
    change kv.nextStatus (h.config (kv.num + 1)) i = _
    simp only [ShardKV.nextStatus, History.entryStatus, hl.owner_current i, howner]
    by_cases h₁ : h.owner kv.num i = kv.gid <;> by_cases h₂ : h.owner (kv.num + 1) i = kv.gid <;>
      simp [h₁, h₂, hserv i]
  refine ⟨⟨?_, ?_, ?_, ?_, ?_⟩, hnum, hstatus⟩
  · rw [hnum, happ]
  · rw [hnum, happ]
    exact hl.current
  · intro i hs
    rw [hnum, ShardKV.apply_gid]
    rw [hstatus i, History.entryStatus] at hs
    split_ifs at hs with h₁ h₂
    · exact ⟨_, Nat.succ_pos _, rfl, h₁.2.1, h₁.1, h₁.2.2, hg⟩
    · rcases hs with hs | hs <;> cases hs
    · rcases hs with hs | hs <;> cases hs
  · intro i hs
    rw [hnum, ShardKV.apply_gid]
    rw [hstatus i, History.entryStatus] at hs
    split_ifs at hs with h₁ h₂
    exact ⟨_, Nat.succ_pos _, h₂.1, rfl, fun heq => h₂.2.1 heq.symm, hg, h₂.2.2⟩
  · intro i j h₁ h₂
    rw [hnum] at h₁ h₂
    change h.owner kv.num i = h.owner kv.num j at h₁
    rw [hstatus i, hstatus j, History.entryStatus, History.entryStatus, h₁, h₂]

/-- A command that leaves the configuration alone keeps the fit, if it keeps the shards that
make the same move together. -/
theorem Local.steady (hl : Local h kv) {c : Command}
    (hconf : (kv.apply c).1.currentConfig = kv.currentConfig ∧
      (kv.apply c).1.lastConfig = kv.lastConfig)
    (hunif : ∀ {i j}, h.owner (kv.num - 1) i = h.owner (kv.num - 1) j →
      h.owner kv.num i = h.owner kv.num j → (kv.apply c).1.status i = (kv.apply c).1.status j) :
    Local h (kv.apply c).1 := by
  have hnum : (kv.apply c).1.num = kv.num := congrArg Config.num hconf.1
  refine ⟨?_, ?_, fun {i} hs => ?_, fun {i} hs => ?_, ?_⟩
  · rw [hnum, hconf.1, ← hl.current]
  · rw [hnum, hconf.2, ← hl.last]
  · rw [hnum, ShardKV.apply_gid]
    apply hl.pulled
    rcases ShardKV.status_apply hnum i with h | ⟨_, _, _, _, _, hp, _⟩ | ⟨_, _, _, _, _, h⟩
    · rwa [h] at hs
    · exact Or.inl hp
    · rw [h] at hs
      rcases hs with hs | hs <;> cases hs
  · rw [hnum, ShardKV.apply_gid]
    exact hl.given ((ShardKV.steady_apply hnum i).2.1 hs)
  · rw [hnum]
    exact hunif

theorem Local.operation (hl : Local h kv) (args : CommandArgs) :
    Local h (kv.apply (.operation args)).1 := by
  refine hl.steady ?_ fun {i j} h₁ h₂ => ?_
  · rcases ShardKV.apply_config kv (.operation args) with hc | ⟨_, hc, _⟩
    · exact hc
    · cases hc
  · have hst : ∀ k, (kv.apply (.operation args)).1.status k = kv.status k := by
      intro k
      rcases ShardKV.status_apply (ShardKV.num_apply_eq (c := .operation args) nofun) k with
        h | ⟨_, _, hc, _⟩ | ⟨_, hc, _⟩
      · exact h
      · cases hc
      · cases hc
    rw [hst, hst]
    exact hl.uniform h₁ h₂

theorem Local.insertShards (hl : Local h kv) {reply : ShardOperationReply}
    (hb : reply.configNum = kv.num → Batch h kv.num S P (reply.shards.map Prod.fst)) :
    Local h (kv.apply (.insertShards reply)).1 := by
  by_cases hnum : reply.configNum = kv.num
  case neg =>
    simpa only [ShardKV.apply, ShardKV.applyInsertShards, if_neg hnum] using hl
  replace hb := hb hnum
  refine hl.steady ?_ fun {i j} h₁ h₂ => ?_
  · rcases ShardKV.apply_config kv (.insertShards reply) with hc | ⟨_, hc, _⟩
    · exact hc
    · cases hc
  simp only [ShardKV.apply, ShardKV.applyInsertShards, if_pos hnum]
  change (ShardKV.insertLoop _ _ i).status = (ShardKV.insertLoop _ _ j).status
  have hold := hl.uniform h₁ h₂
  have hmem := hb.mem_congr h₁ h₂
  -- a shard that is not in the batch or not `PULLING` keeps its status
  have hkeep : ∀ k, k ∉ reply.shards.map Prod.fst ∨ kv.status k ≠ .pulling →
      (ShardKV.insertLoop kv.stateMachines reply.shards k).status = kv.status k := by
    intro k hk
    rcases ShardKV.insertLoop_cases kv.stateMachines reply.shards k with heq | ⟨_, hm, hp, -⟩
    · rw [heq]
    · rcases hk with hk | hk
      · exact absurd (List.mem_map_of_mem (f := Prod.fst) hm) hk
      · exact absurd hp hk
  by_cases hi : i ∈ reply.shards.map Prod.fst ∧ kv.status i = .pulling
  · have hall : ∀ k ∈ reply.shards.map Prod.fst, kv.status k = .pulling :=
      fun k hk => (hl.uniform_batch hb hk hi.1).trans hi.2
    rw [ShardKV.insertLoop_all hb.1 hall hi.1, ShardKV.insertLoop_all hb.1 hall (hmem.mp hi.1)]
  · rw [not_and_or] at hi
    rw [hkeep i hi, hkeep j (by rwa [← hmem, ← hold]), hold]

theorem Local.deleteShards (hl : Local h kv) {args : ShardOperationArgs}
    (hb : args.configNum = kv.num → Batch h kv.num S P args.shardIds) :
    Local h (kv.apply (.deleteShards args)).1 := by
  by_cases hnum : args.configNum = kv.num
  case neg =>
    simpa only [ShardKV.apply, ShardKV.applyDeleteShards, if_neg hnum] using hl
  replace hb := hb hnum
  refine hl.steady ?_ fun {i j} h₁ h₂ => ?_
  · rcases ShardKV.apply_config kv (.deleteShards args) with hc | ⟨_, hc, _⟩
    · exact hc
    · cases hc
  simp only [ShardKV.apply, ShardKV.applyDeleteShards, if_pos hnum]
  change (ShardKV.deleteLoop _ _ i).status = (ShardKV.deleteLoop _ _ j).status
  have hold := hl.uniform h₁ h₂
  have hmem := hb.mem_congr h₁ h₂
  have hkeep : ∀ k, k ∉ args.shardIds ∨ ¬ (kv.status k = .gc ∨ kv.status k = .bePulling) →
      (ShardKV.deleteLoop kv.stateMachines args.shardIds k).status = kv.status k := by
    intro k hk
    rcases ShardKV.deleteLoop_cases kv.stateMachines args.shardIds k with
      heq | ⟨hm, hs, -⟩ | ⟨hm, hs, -⟩
    · rw [heq]
    · exact absurd hk (by simp [hm, ShardKV.status, hs])
    · exact absurd hk (by simp [hm, ShardKV.status, hs])
  by_cases hi : i ∈ args.shardIds ∧ (kv.status i = .gc ∨ kv.status i = .bePulling)
  · have hall : ∀ k ∈ args.shardIds, kv.status k = .gc ∨ kv.status k = .bePulling :=
      fun k hk => hl.uniform_batch hb hk hi.1 ▸ hi.2
    rw [ShardKV.deleteLoop_all hb.1 hall hi.1, ShardKV.deleteLoop_all hb.1 hall (hmem.mp hi.1)]
  · rw [not_and_or] at hi
    rw [hkeep i hi, hkeep j (by rwa [← hmem, ← hold]), hold]

end LocalStep

end RaftLabs.Shardkv
