import RaftLabs.Shardkv.Migration

/-! Exclusive ownership of shards. A shard that passes through group 0 is not handed over, so
it must come back to the group that it was taken from. -/
namespace RaftLabs.Shardkv
open Basis Shardctrler

/-- A shard that is taken from a group to group 0 is next assigned to that group again. -/
def History.ReturnsHome (h : History) : Prop :=
  ∀ i m n, m + 1 < n → h.owner m i ≠ 0 → h.owner n i ≠ 0 →
    (∀ k, m < k → k < n → h.owner k i = 0) → h.owner n i = h.owner m i

/-- A shard that has been assigned to a group is never assigned to group 0 again. -/
def History.StaysAssigned (h : History) : Prop :=
  ∀ i m n, m ≤ n → h.owner m i ≠ 0 → h.owner n i ≠ 0

variable {h : History} {logs : ℤ → List Command} {i : ShardId}

theorem History.StaysAssigned.returnsHome (hs : h.StaysAssigned) : h.ReturnsHome :=
  fun i m _ hmn hm _ hgap => absurd (hgap (m + 1) (by omega) hmn) (hs i m (m + 1) (by omega) hm)

/-- Assignments stay if every configuration of the controller but the first assigns all
shards. -/
theorem History.produced_staysAssigned {ops : List Shardctrler.Op}
    {hops : (Shardctrler.produced ops).isSome}
    (hall : ∀ c ∈ ((Shardctrler.produced ops).get hops).configs.tail, ∀ i, c.shards i ≠ 0)
    (hlen : 1 < ((Shardctrler.produced ops).get hops).configs.length) :
    (History.produced ops hops).StaysAssigned := by
  set cf := (Shardctrler.produced ops).get hops with hcf
  have htail : ∀ n, 0 < n → ∀ c, cf.configs[n]? = some c → ∀ i, c.shards i ≠ 0 := by
    intro n hn c hc
    refine hall c (List.mem_of_getElem? (i := n - 1) ?_)
    rw [List.getElem?_tail, Nat.sub_add_cancel hn, hc]
  have hlast : ∀ i, cf.lastConfig.shards i ≠ 0 := by
    refine htail (cf.configs.length - 1) (by omega) _ ?_
    rw [MemoryConfigStateMachine.lastConfig, List.getLastD_eq_getLast?,
      List.getLast?_eq_getElem?, List.getElem?_eq_getElem (by omega), Option.getD_some]
  intro i m n hmn hm
  rcases Nat.eq_zero_or_pos n with rfl | hn
  · rwa [← Nat.le_zero.mp hmn]
  · change (cf.configs[n]?.getD { cf.lastConfig with num := n }).shards i ≠ 0
    cases hc : cf.configs[n]? with
    | none => exact hlast i
    | some c => exact htail n hn c hc i

/-- When a group holds a shard in configuration `n`, every other owner of it in an earlier
configuration has gone beyond that configuration. By strong induction on `n`, from the owner to
the one before it. -/
theorem LogsInv.passed (hi : LogsInv h logs) (hret : h.ReturnsHome) {n k : ℕ} {g e : ℤ}
    (hn : h.owner n i = g) (hg : g ≠ 0) (hh : Held g (logs g) n i) (hkn : k < n)
    (hk : h.owner k i = e) (he : e ≠ 0) (heg : e ≠ g) : k < (replay e (logs e)).num := by
  induction n using Nat.strong_induction_on generalizing g with
  | _ n ih =>
    have hnum : n ≤ (replay g (logs g)).num := by
      rcases hh with hh | ⟨hh, -⟩ <;> omega
    obtain ⟨m, rfl⟩ : ∃ m, n = m + 1 := ⟨n - 1, by omega⟩
    by_cases hsame : h.owner m i = g
    · have hkm : k ≠ m := by
        rintro rfl
        exact heg (hk.symm.trans hsame)
      exact ih m (by omega) hsame hg (Or.inl (by omega)) (by omega) heg
    by_cases hzero : h.owner m i = 0
    · -- the last owner before the gap is the group itself
      set j := Nat.findGreatest (fun j => h.owner j i ≠ 0) m with hj
      have hkj : k ≤ j := Nat.le_findGreatest (by omega) (by rw [hk]; exact he)
      have hjm : j ≤ m := Nat.findGreatest_le m
      have hjne : h.owner j i ≠ 0 :=
        Nat.findGreatest_spec (P := fun j => h.owner j i ≠ 0) (show k ≤ m by omega)
          (by rw [hk]; exact he)
      have hgap : ∀ l, j < l → l < m + 1 → h.owner l i = 0 := fun l hl hl' =>
        not_not.mp (Nat.findGreatest_is_greatest hl (by omega))
      have hjm' : j ≠ m := by
        intro heq
        exact hjne (heq ▸ hzero)
      have hjg : h.owner j i = g := by
        rw [← hret i j (m + 1) (by omega) hjne (by rw [hn]; exact hg) hgap, hn]
      have hkj' : k ≠ j := by
        intro heq
        rw [← heq, hk] at hjg
        exact heg hjg
      exact ih j (by omega) hjg hg (Or.inl (by omega)) (by omega) heg
    · have hm : Moves h (m + 1) i (h.owner m i) g :=
        ⟨Nat.succ_pos m, rfl, hn, hsame, hzero, hg⟩
      have hreach := hi.reached hm hh
      by_cases hes : e = h.owner m i
      · rw [hes]
        omega
      · have hkm : k ≠ m := by
          rintro rfl
          exact hes hk.symm
        exact ih m (by omega) rfl hzero (Or.inl (by omega)) (by omega) hes

/-- A group that can serve a shard owns it in its configuration and holds it. -/
theorem LogsInv.holds_of_canServer (hi : LogsInv h logs) {g : ℤ} {l : List Command}
    (hl : l <+: logs g) (hs : (replay g l).canServer i) :
    h.owner (replay g l).num i = g ∧ Held g l (replay g l).num i := by
  obtain ⟨howner, hstatus⟩ := hs
  rw [(hi.fits g l hl).owner_current, replay_gid] at howner
  refine ⟨howner, Or.inr ⟨rfl, ?_⟩⟩
  rcases hstatus with hs | hs
  · rw [ShardKV.status, hs]
    decide
  · rw [ShardKV.status, hs]
    decide

/-- The shard that a group has in a status of a puller comes from its last owner. -/
theorem LogsInv.moves_of_pulled (hi : LogsInv h logs) {P : ℤ} {l : List Command}
    (hl : l <+: logs P)
    (hst : (replay P l).status i = .pulling ∨ (replay P l).status i = .gc) :
    Moves h (replay P l).num i ((replay P l).lastConfig.shards i) P := by
  have hfit := hi.fits P l hl
  obtain ⟨S, hm⟩ := hfit.pulled hst
  rw [replay_gid] at hm
  rwa [hfit.owner_last, hm.source]

/-- Exclusive ownership: no two groups can serve one shard at the same time. -/
theorem exclusive_ownership (hret : h.ReturnsHome) {r : ℕ → System}
    (hr : System.Run h (fun _ _ => True) r) {k : ℕ} {g g' : ℤ} (hg : g ≠ 0) (hg' : g' ≠ 0)
    (hne : g ≠ g') (i : ShardId) :
    ¬ (((r k).group g).canServer i ∧ ((r k).group g').canServer i) := by
  rintro ⟨hs, hs'⟩
  have hi := (hr.inv k).logs
  obtain ⟨ho, hh⟩ := hi.holds_of_canServer List.prefix_rfl hs
  obtain ⟨ho', hh'⟩ := hi.holds_of_canServer List.prefix_rfl hs'
  rcases Nat.lt_trichotomy (replay g ((r k).logs g)).num (replay g' ((r k).logs g')).num with
    hlt | heq | hgt
  · exact lt_irrefl _ (hi.passed hret ho' hg' hh' hlt ho hg hne)
  · rw [heq, ho'] at ho
    exact hne ho.symm
  · exact lt_irrefl _ (hi.passed hret ho hg hh hgt ho' hg' hne.symm)

/-- All shards are assigned to groups 1 and 2, and then shard 0 moves from group 1 to
group 2. -/
def moveOps : List Shardctrler.Op := [.join [(1, ["a"]), (2, ["b"])], .move (key2shard "d") 2]

def moveHistory : History := .produced moveOps (by decide +kernel)

theorem moveHistory_staysAssigned : moveHistory.StaysAssigned :=
  History.produced_staysAssigned (by decide +kernel) (by decide +kernel)

/-- A write to shard 0. -/
def putArgs : CommandArgs := ⟨"d", "1", .put, 7, 0⟩

/-- Group 1 serves a write, both groups enter configuration 2, group 2 pulls shard 0, group 1
deletes its copy and group 2 ends the collection. -/
def moveRun : List Action :=
  [.configurationAction 1 0, .commit 1 0, .configurationAction 2 0, .commit 2 0, .issue putArgs,
    .command 1 1 putArgs, .commit 1 1, .configurationAction 1 2, .commit 1 2,
    .configurationAction 2 1, .commit 2 1, .migrationAction 2 2 1 3 [key2shard "d"], .commit 2 2,
    .gcAction 2 3 1 3 [key2shard "d"] 3, .commit 1 3, .gcReply 0, .commit 2 3]

theorem moveRun_isRun :
    System.Run moveHistory (fun _ _ => True) (trace (System.step moveHistory) .init moveRun) :=
  ⟨trace_zero _ _, trace_isRun (by decide)⟩

theorem exclusive_ownership_moveRun :
    ∃ r, System.Run moveHistory (fun _ _ => True) r ∧ ((r 13).group 2).canServer 0 ∧
      ¬ (((r 13).group 1).canServer 0 ∧ ((r 13).group 2).canServer 0) :=
  have hr := moveRun_isRun
  ⟨_, hr, by decide +kernel, exclusive_ownership moveHistory_staysAssigned.returnsHome hr
    (by decide) (by decide) (by decide) 0⟩

/-- Group 1 joins and leaves again, and group 2 joins. -/
def emptiedOps : List Shardctrler.Op := [.join [(1, ["a"])], .leave [1], .join [(2, ["b"])]]

/-- Group 1 stays in configuration 1 while group 2 goes on to configuration 3. -/
def emptiedRun : List Action :=
  [.configurationAction 1 0, .commit 1 0, .configurationAction 2 0, .commit 2 0,
    .configurationAction 2 1, .commit 2 1, .configurationAction 2 2, .commit 2 2]

/-- After all groups have left, the old and the new owner of a shard can both serve it. -/
theorem shared_shard_emptiedRun :
    ∃ hops, ∃ r, System.Run (.produced emptiedOps hops) (fun _ _ => True) r ∧
      (∀ g ∈ [1, 2], ((r 8).group g).num <
        ((Shardctrler.produced emptiedOps).get hops).configs.length) ∧
      ((r 8).group 1).canServer 0 ∧ ((r 8).group 2).canServer 0 :=
  ⟨by decide +kernel, trace (System.step _) .init emptiedRun,
    ⟨trace_zero _ _, trace_isRun (by decide)⟩, by decide +kernel, by decide +kernel,
    by decide +kernel⟩

end RaftLabs.Shardkv
