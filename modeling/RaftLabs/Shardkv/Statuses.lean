import RaftLabs.Shardkv.Ownership

/-! What the status of a shard says about the two configurations of the state, at every point
of the log of a group. -/
namespace RaftLabs.Shardkv
open Basis Shardctrler

variable {h : History} {g : ℤ} {l : List Command}

theorem num_of_takes_effect {c : Config}
    (heff : (replay g l).num < (replay g (l ++ [.configuration c])).num) :
    c.num = (replay g l).num + 1 := by
  rw [replay_concat] at heff
  rcases ShardKV.apply_config (replay g l) (.configuration c) with ⟨heq, -⟩ | ⟨c', hc, hnum, -⟩
  · have := congrArg Config.num heq
    change ((replay g l).apply _).1.num = (replay g l).num at this
    omega
  · cases hc
    exact hnum

/-- A configuration that takes effect anywhere in a log is the next one and finds the group at
rest: its proposer has seen the group at rest in the same configuration, and cannot have seen
the configuration itself. -/
theorem System.Inv.at_rest {sys : System} (hi : sys.Inv h) {c : Config}
    (hl : l ++ [.configuration c] <+: sys.logs g) (hnum : c.num = (replay g l).num + 1) :
    c = h.config ((replay g l).num + 1) ∧ ∀ i, (replay g l).status i = .serving := by
  have hmem : .configuration c ∈ sys.logs g := hl.subset (by simp)
  obtain ⟨l₀, hl₀, hc, hserv⟩ := hi.committed hmem
  have heq : (replay g l₀).num = (replay g l).num := by
    have := congrArg Config.num hc
    rw [h.config_num] at this
    omega
  have hbefore : l₀ <+: l := by
    by_contra hnot
    have hafter : l ++ [.configuration c] <+: l₀ := by
      rcases List.prefix_or_prefix_of_prefix hl₀ hl with h' | h'
      · rcases List.prefix_concat_iff.mp h' with rfl | h'
        · exact List.prefix_rfl
        · exact absurd h' hnot
      · exact h'
    have hle := num_replay_mono g hafter
    rw [replay_concat, ShardKV.apply, ShardKV.applyConfiguration, if_pos hnum] at hle
    change c.num ≤ _ at hle
    omega
  exact ⟨heq ▸ hc, serving_steady hbefore heq.symm hserv⟩

/-- At every point of the log of a group a configuration that takes effect finds all shards
`SERVING`, the two configurations of the state follow each other, and a shard on the move changes
hands between them. -/
theorem status_invariant {r : ℕ → System} (hr : System.Run h (fun _ _ => True) r) {k : ℕ}
    (hl : l <+: (r k).logs g) :
    (∀ c, l ++ [.configuration c] <+: (r k).logs g →
      (replay g l).currentConfig.num < (replay g (l ++ [.configuration c])).currentConfig.num →
      ∀ i, ((replay g l).stateMachines i).status = .serving) ∧
    (0 < (replay g l).currentConfig.num →
      (replay g l).lastConfig.num + 1 = (replay g l).currentConfig.num) ∧
    ∀ i,
      (((replay g l).stateMachines i).status = .pulling ∨
          ((replay g l).stateMachines i).status = .gc →
        (replay g l).currentConfig.shards i = g ∧ (replay g l).lastConfig.shards i ≠ g ∧
          (replay g l).lastConfig.shards i ≠ 0) ∧
      (((replay g l).stateMachines i).status = .bePulling →
        (replay g l).lastConfig.shards i = g ∧ (replay g l).currentConfig.shards i ≠ g ∧
          (replay g l).currentConfig.shards i ≠ 0) := by
  have hfit := (hr.inv k).logs.fits g l hl
  refine ⟨fun c hc heff => ?_, fun hpos => ?_, fun i => ⟨fun hs => ?_, fun hs => ?_⟩⟩
  · exact ((hr.inv k).at_rest hc (num_of_takes_effect heff)).2
  · rw [hfit.last, h.config_num]
    exact Nat.sub_add_cancel hpos
  · obtain ⟨S, hm⟩ := hfit.pulled hs
    rw [replay_gid] at hm
    rw [hfit.owner_current, hfit.owner_last, hm.source, hm.target]
    exact ⟨rfl, hm.ne, hm.source_ne⟩
  · obtain ⟨P, hm⟩ := hfit.given hs
    rw [replay_gid] at hm
    rw [hfit.owner_current, hfit.owner_last, hm.source, hm.target]
    exact ⟨rfl, hm.ne.symm, hm.target_ne⟩

/-- While group 2 collects the shard that it has pulled, its copy is `GC` and that of group 1 is
`BEPULLING`. -/
theorem status_invariant_moveRun :
    ∃ r, System.Run moveHistory (fun _ _ => True) r ∧
      ((replay 2 ((r 13).logs 2)).stateMachines 0).status = .gc ∧
      ((replay 2 ((r 13).logs 2)).currentConfig.shards 0 = 2 ∧
        (replay 2 ((r 13).logs 2)).lastConfig.shards 0 ≠ 2 ∧
        (replay 2 ((r 13).logs 2)).lastConfig.shards 0 ≠ 0) ∧
      ((replay 1 ((r 13).logs 1)).stateMachines 0).status = .bePulling ∧
      ((replay 1 ((r 13).logs 1)).lastConfig.shards 0 = 1 ∧
        (replay 1 ((r 13).logs 1)).currentConfig.shards 0 ≠ 1 ∧
        (replay 1 ((r 13).logs 1)).currentConfig.shards 0 ≠ 0) :=
  have hr := moveRun_isRun
  have hgc : ((replay 2 ((trace (System.step moveHistory) .init moveRun 13).logs 2)).stateMachines
      0).status = .gc := by decide +kernel
  have hbe : ((replay 1 ((trace (System.step moveHistory) .init moveRun 13).logs 1)).stateMachines
      0).status = .bePulling := by decide +kernel
  ⟨_, hr, hgc, ((status_invariant hr List.prefix_rfl).2.2 0).1 (Or.inr hgc), hbe,
    ((status_invariant hr List.prefix_rfl).2.2 0).2 hbe⟩

end RaftLabs.Shardkv
