import RaftLabs.Shardkv.Statuses

/-! A group merges the shard that it pulls into its own copy. The copy is empty if the group has
given the shard away to another group, but not if the shard has gone to group 0. -/
namespace RaftLabs.Shardkv
open Basis Shardctrler

/-- A group that has lost a shard to group 0 owns it again before it pulls it from another
group. -/
def History.RegainsFirst (h : History) : Prop :=
  ∀ i m n, m < n → h.owner m i ≠ 0 → h.owner (m + 1) i = 0 → h.owner n i ≠ 0 →
    h.owner n i ≠ h.owner m i → h.owner (n + 1) i = h.owner m i →
    ∃ k, m + 1 < k ∧ k < n ∧ h.owner k i = h.owner m i

variable {h : History} {g : ℤ} {l : List Command} {i : ShardId}

theorem History.StaysAssigned.regainsFirst (hs : h.StaysAssigned) : h.RegainsFirst :=
  fun i m _ _ hm hzero _ _ _ => absurd hzero (hs i m (m + 1) (Nat.le_succ m) hm)

/-- The group has not lost the shard to group 0 since it last owned it. -/
def History.GaveAway (h : History) (g : ℤ) (n : ℕ) (i : ShardId) : Prop :=
  ∀ m < n, h.owner m i = g → (∀ k, m < k → k ≤ n → h.owner k i ≠ g) → h.owner (m + 1) i ≠ 0

theorem History.GaveAway.of_succ {n : ℕ} (hg : h.GaveAway g (n + 1) i)
    (hn : h.owner (n + 1) i ≠ g) : h.GaveAway g n i := by
  intro m hm hown hgap
  refine hg m (by omega) hown fun k hk hk' => ?_
  rcases Nat.le_or_eq_of_le_succ hk' with hk' | rfl
  · exact hgap k hk hk'
  · exact hn

/-- A group that begins to pull a shard has not lost it to group 0. -/
theorem History.RegainsFirst.gaveAway {n : ℕ} {S : ℤ} (hr : h.RegainsFirst)
    (hm : Moves h (n + 1) i S g) : h.GaveAway g n i := by
  rintro m hmn rfl hgap hzero
  have hsource : h.owner n i = S := hm.source
  obtain ⟨k, hk, hkn, hown⟩ := hr i m n hmn hm.target_ne hzero (hsource ▸ hm.source_ne)
    (hsource ▸ hm.ne) hm.target
  exact hgap k (by omega) hkn.le hown

/-- In configuration `n` the copy of a shard that the group pulls is empty, and so is the copy of
one that it has given away. -/
structure Cleared (h : History) (g : ℤ) (n : ℕ) (i : ShardId) (shard : Shard) : Prop where
  pulling : shard.status = .pulling → shard.kv = fun _ => none
  given : h.owner n i ≠ g → h.GaveAway g n i → shard.status ≠ .bePulling → shard.kv = fun _ => none

/-- Within one configuration a copy is written only by an owner, and a deletion clears it. -/
theorem Cleared.steady {kv : ShardKV} (hfit : Local h kv)
    (hc : Cleared h kv.gid kv.num i (kv.stateMachines i)) {c : Command}
    (hnum : (kv.apply c).1.num = kv.num) :
    Cleared h kv.gid kv.num i ((kv.apply c).1.stateMachines i) := by
  have hch := ShardKV.apply_change kv c i
  generalize (kv.apply c).1.stateMachines i = new at hch
  have howner : kv.status i = .pulling ∨ kv.status i = .gc → h.owner kv.num i = kv.gid := by
    intro hs
    obtain ⟨S, hm⟩ := hfit.pulled hs
    exact hm.target
  cases hch with
  | same c => exact hc
  | write args data hk hs =>
    obtain ⟨hown, hst⟩ := hs
    rw [hfit.owner_current] at hown
    refine ⟨fun hp => ?_, fun hne => absurd hown hne⟩
    change (kv.stateMachines i).status = .pulling at hp
    rw [hp] at hst
    rcases hst with hst | hst <;> cases hst
  | configure config hconf =>
    have heq : (kv.apply (.configuration config)).1.num = config.num := by
      simp only [ShardKV.apply, ShardKV.applyConfiguration, if_pos hconf]
    omega
  | insert reply data hn hm hs =>
    refine ⟨fun hp => ?_, fun hne => absurd (howner (Or.inl hs)) hne⟩
    cases hp
  | collect args hn hm hs =>
    refine ⟨fun hp => ?_, fun hne => absurd (howner (Or.inr hs)) hne⟩
    cases hp
  | drop args hn hm hs => exact ⟨fun _ => rfl, fun _ _ _ => rfl⟩

/-- A group at rest enters the next configuration: it has no copy of a shard that it begins to
pull, and a shard that it owned is `BEPULLING` unless it goes to group 0. -/
theorem Cleared.configuration (hreg : h.RegainsFirst) {kv : ShardKV} (hfit : Local h kv)
    (hc : Cleared h kv.gid kv.num i (kv.stateMachines i)) (hserv : kv.status i = .serving)
    (hfit' : Local h (kv.apply (.configuration (h.config (kv.num + 1)))).1) :
    Cleared h kv.gid (kv.num + 1) i
      ((kv.apply (.configuration (h.config (kv.num + 1)))).1.stateMachines i) := by
  have hnext := h.config_num (kv.num + 1)
  have happ := h.apply_next kv
  have hold : h.owner kv.num i ≠ kv.gid → h.GaveAway kv.gid kv.num i →
      (kv.stateMachines i).kv = fun _ => none :=
    fun hne hgave => hc.given hne hgave (by rw [ShardKV.status] at hserv; rw [hserv]; decide)
  refine ⟨fun hp => ?_, fun hne hgave hnb => ?_⟩
  · obtain ⟨S, hm⟩ := hfit'.pulled (Or.inl hp)
    rw [ShardKV.apply_gid, happ] at hm
    change Moves h (h.config (kv.num + 1)).num i S kv.gid at hm
    rw [hnext] at hm
    have hsource : h.owner kv.num i = S := hm.source
    rw [happ]
    exact hold (hsource ▸ hm.ne) (hreg.gaveAway hm)
  · rw [happ] at hnb ⊢
    change kv.nextStatus (h.config (kv.num + 1)) i ≠ _ at hnb
    change (kv.stateMachines i).kv = _
    by_cases hown : h.owner kv.num i = kv.gid
    · -- the shard goes to group 0
      have hzero : h.owner (kv.num + 1) i = 0 := by
        by_contra hnz
        refine hnb ?_
        have hnext : (h.config (kv.num + 1)).shards i = h.owner (kv.num + 1) i := rfl
        rw [ShardKV.nextStatus, hfit.owner_current, hnext, if_neg (fun hn => hn.1 hown),
          if_pos ⟨hown, hne⟩, if_pos hnz]
      refine absurd hzero (hgave kv.num (Nat.lt_succ_self _) hown fun k hk hk' => ?_)
      obtain rfl : k = kv.num + 1 := by omega
      exact hne
    · exact hold hown (hgave.of_succ hne)

theorem System.Inv.cleared {sys : System} (hi : sys.Inv h) (hreg : h.RegainsFirst)
    (hl : l <+: sys.logs g) (i : ShardId) :
    Cleared h g (replay g l).num i ((replay g l).stateMachines i) := by
  induction l using List.reverseRecOn with
  | nil => exact ⟨fun _ => rfl, fun _ _ _ => rfl⟩
  | append_singleton l c ih =>
    have hpre := (List.prefix_append l [c]).trans hl
    have hfit := hi.logs.fits g l hpre
    have hfit' := hi.logs.fits g _ hl
    rw [replay_concat] at hfit' ⊢
    have hc : Cleared h (replay g l).gid (replay g l).num i ((replay g l).stateMachines i) := by
      rw [replay_gid]
      exact ih hpre
    rcases ShardKV.apply_config (replay g l) c with ⟨heq, -⟩ | ⟨config, rfl, hnum, hconf, -⟩
    · have hsame : ((replay g l).apply c).1.num = (replay g l).num := congrArg Config.num heq
      have hnew := hc.steady hfit hsame
      rw [replay_gid] at hnew
      rwa [hsame]
    · obtain ⟨rfl, hserv⟩ := hi.at_rest hl hnum
      have hnew := hc.configuration hreg hfit (hserv i) hfit'
      have hlast : ((replay g l).apply (.configuration (h.config ((replay g l).num + 1)))).1.num =
          (replay g l).num + 1 := (congrArg Config.num hconf).trans hnum
      rw [replay_gid] at hnew
      rwa [hlast]

/-- What a group has right after the insertion of a shard is what it has pulled. -/
theorem pulled_exact (hreg : h.RegainsFirst) {r : ℕ → System}
    (hr : System.Run h (fun _ _ => True) r) {k : ℕ} {reply : ShardOperationReply}
    (hl : l ++ [.insertShards reply] <+: (r k).logs g)
    (hbefore : ((replay g l).stateMachines i).status = .pulling)
    (hafter : ((replay g (l ++ [.insertShards reply])).stateMachines i).status = .gc) :
    (∃ data, (i, data) ∈ reply.shards) ∧ ∀ data, (i, data) ∈ reply.shards →
      ((replay g (l ++ [.insertShards reply])).stateMachines i).kv = data := by
  have hi := hr.inv k
  have hempty := (hi.cleared hreg ((List.prefix_append l _).trans hl) i).pulling hbefore
  obtain ⟨S, hb, -⟩ := hi.committed (show .insertShards reply ∈ _ from hl.subset (by simp))
  obtain ⟨-, hdata⟩ := Shifts.insertShards ⟨rfl, hbefore, hafter⟩
  refine ⟨hdata, fun data hm => ?_⟩
  have hch := ShardKV.apply_change (replay g l) (.insertShards reply) i
  rw [← replay_concat] at hch
  generalize (replay g (l ++ [.insertShards reply])).stateMachines i = new at hch hafter
  cases hch with
  | same => exact absurd (hbefore.symm.trans hafter) (by decide)
  | insert _ data' hn hm' hs =>
    obtain rfl : data = data' :=
      congrArg Prod.snd (List.inj_on_of_nodup_map hb.1 hm hm' rfl)
    rw [hempty]
    funext key
    simp [ShardKV.mergeKV]

/-- Group 2 gets the write that group 1 has served. -/
theorem pulled_exact_moveRun :
    ∃ r, System.Run moveHistory (fun _ _ => True) r ∧ ∃ reply data,
      (r 13).logs 2 = (r 12).logs 2 ++ [.insertShards reply] ∧ (0, data) ∈ reply.shards ∧
      data "d" = some "1" ∧
      ((replay 2 ((r 12).logs 2 ++ [.insertShards reply])).stateMachines 0).kv = data := by
  have hr := moveRun_isRun
  have hlog : ∃ reply data, (trace (System.step moveHistory) .init moveRun 13).logs 2 =
      (trace (System.step moveHistory) .init moveRun 12).logs 2 ++ [.insertShards reply] ∧
      (0, data) ∈ reply.shards ∧ data "d" = some "1" :=
    ⟨_, _, rfl, List.mem_cons_self, by decide +kernel⟩
  obtain ⟨reply, data, hlog, hm, hd⟩ := hlog
  refine ⟨_, hr, reply, data, hlog, hm, hd, ?_⟩
  refine (pulled_exact moveHistory_staysAssigned.regainsFirst hr (k := 13) (i := 0)
    (hlog ▸ List.prefix_rfl) (by decide +kernel) ?_).2 data hm
  rw [← hlog]
  decide +kernel

/-- Group 1 joins and leaves, group 2 joins, and group 1 joins again. -/
def rejoinOps : List Shardctrler.Op :=
  [.join [(1, ["a"])], .leave [1], .join [(2, ["b"])], .join [(1, ["a"])]]

def rejoinHistory : History := .produced rejoinOps (by decide +kernel)

/-- Group 1 serves a write to shard 0 in configuration 1 and pulls the shard from group 2 in
configuration 4. -/
def rejoinRun : List Action :=
  [.configurationAction 1 0, .commit 1 0, .issue putArgs, .command 1 1 putArgs, .commit 1 1,
    .configurationAction 1 2, .commit 1 2, .configurationAction 1 3, .commit 1 3,
    .configurationAction 1 4, .commit 1 4, .configurationAction 2 0, .commit 2 0,
    .configurationAction 2 1, .commit 2 1, .configurationAction 2 2, .commit 2 2,
    .configurationAction 2 3, .commit 2 3,
    .migrationAction 1 5 2 4 ((List.finRange nShards).take 5), .commit 1 5]

set_option maxRecDepth 8000 in
/-- The key that group 1 wrote before it left is still there after the insertion. -/
theorem stale_key_rejoinRun :
    ∃ hops, ∃ r, System.Run (.produced rejoinOps hops) (fun _ _ => True) r ∧
      (∀ g ∈ [1, 2], ((r 21).group g).num <
        ((Shardctrler.produced rejoinOps).get hops).configs.length) ∧
      ∃ reply data, (r 21).logs 1 = (r 20).logs 1 ++ [.insertShards reply] ∧
        (0, data) ∈ reply.shards ∧ data "d" = none ∧
        ((replay 1 ((r 20).logs 1)).stateMachines 0).status = .pulling ∧
        ((replay 1 ((r 21).logs 1)).stateMachines 0).status = .gc ∧
        ((replay 1 ((r 21).logs 1)).stateMachines 0).kv "d" = some "1" := by
  have hr : System.Run rejoinHistory (fun _ _ => True)
      (trace (System.step rejoinHistory) .init rejoinRun) :=
    ⟨trace_zero _ _, trace_isRun (by decide)⟩
  have hlog : ∃ reply data, (trace (System.step rejoinHistory) .init rejoinRun 21).logs 1 =
      (trace (System.step rejoinHistory) .init rejoinRun 20).logs 1 ++ [.insertShards reply] ∧
      (0, data) ∈ reply.shards ∧ data "d" = none :=
    ⟨_, _, rfl, List.mem_cons_self, by decide +kernel⟩
  obtain ⟨reply, data, hlog, hm, hd⟩ := hlog
  exact ⟨_, _, hr, by decide +kernel, reply, data, hlog, hm, hd, by decide +kernel,
    by decide +kernel, by decide +kernel⟩

end RaftLabs.Shardkv
