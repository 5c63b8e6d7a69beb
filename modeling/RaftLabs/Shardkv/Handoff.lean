import RaftLabs.Shardkv.Ownership

/-! The handover of a shard from its source to the group that pulls it: what the puller inserts
is what the source had when it entered the configuration, and the source neither changes nor
deletes it before. -/
namespace RaftLabs.Shardkv
open Basis Shardctrler

variable {h : History} {logs : ℤ → List Command} {n : ℕ} {i : ShardId} {S P : ℤ}
  {log l l' : List Command}

theorem Enters.num_entered (he : Enters h S log l n) :
    (replay S (l ++ [.configuration (h.config n)])).num = n := by
  have hnext : (h.config n).num = (replay S l).num + 1 := (h.config_num n).trans he.num.symm
  rw [replay_concat, ShardKV.num, ShardKV.apply, ShardKV.applyConfiguration, if_pos hnext]
  exact h.config_num n

theorem Enters.not_lt (he : Enters h S log l n) (he' : Enters h S log l' n) :
    ¬ l.length < l'.length := by
  intro hlt
  have hpre : l ++ [.configuration (h.config n)] <+: l' :=
    List.prefix_of_prefix_length_le he.command
      ((List.prefix_append l' _).trans he'.command) (by simpa using hlt)
  have hle := num_replay_mono S hpre
  rw [he.num_entered, ← he'.num] at hle
  omega

/-- A group enters a configuration at one place of its log. -/
theorem Enters.unique (he : Enters h S log l n) (he' : Enters h S log l' n) : l = l' := by
  have h₁ := he.not_lt he'
  have h₂ := he'.not_lt he
  exact (List.prefix_of_prefix_length_le ((List.prefix_append l _).trans he.command)
    ((List.prefix_append l' _).trans he'.command) (by omega)).eq_of_length (by omega)

/-- As long as the puller lacks the shard, the source keeps it as it was on entry to the
configuration. -/
theorem LogsInv.kept (hi : LogsInv h logs) (hm : Moves h n i S P)
    (hh : ¬ Held P (logs P) n i) (hl : l <+: logs S) (hn : n ≤ (replay S l).num) :
    (replay S l).num = n ∧ (replay S l).status i = .bePulling ∧
      Content h logs S n i ((replay S l).stateMachines i).kv :=
  (hi.given hm hl hn).resolve_right hh

theorem LogsInv.not_canServer_source (hi : LogsInv h logs) (hm : Moves h n i S P)
    (hl : l <+: logs S) (hn : (replay S l).num = n) : ¬ (replay S l).canServer i := by
  intro hs
  obtain ⟨howner, -⟩ := hi.holds_of_canServer hl hs
  rw [hn, hm.target] at howner
  exact hm.ne howner.symm

/-- A source gives up a shard only when its puller holds it. Otherwise the shard would be
`BEPULLING` after the command too. -/
theorem LogsInv.held_of_drop (hi : LogsInv h logs) (hm : Moves h n i S P) {c : Command}
    (hl : l ++ [c] <+: logs S) (hd : Shifts S l c n i .bePulling .serving) :
    Held P (logs P) n i := by
  by_contra hlack
  have hle := num_replay_mono S (List.prefix_append l [c])
  rw [hd.num] at hle
  obtain ⟨-, hst, -⟩ := hi.kept hm hlack hl hle
  rw [hd.after] at hst
  cases hst

/-- Nothing is lost in a handover. When the group `P` inserts the shard `i` that it pulls from
`S` in configuration `n`, the data are those with which `S` entered the configuration, `S` has
written nothing to the shard since, and `S` gives up its copy only after this insertion. -/
theorem handoff_loses_nothing {r : ℕ → System} (hr : System.Run h (fun _ _ => True) r) {k : ℕ}
    {reply : ShardOperationReply}
    (hlog : (r (k + 1)).logs P = (r k).logs P ++ [.insertShards reply])
    (hins : Shifts P ((r k).logs P) (.insertShards reply) n i .pulling .gc)
    (hS : ((r k).group P).lastConfig.shards i = S) :
    ∃ l, Enters h S ((r k).logs S) l n ∧
      (∃ data, (i, data) ∈ reply.shards) ∧
      (∀ data, (i, data) ∈ reply.shards →
        data = ((replay S (l ++ [.configuration (h.config n)])).stateMachines i).kv) ∧
      (∀ l' args, l ++ [.configuration (h.config n)] <+: l' →
        l' ++ [.operation args] <+: (r k).logs S → key2shard args.key = i →
        (replay S l').applyOperation args = (replay S l', ⟨.errWrongGroup, ""⟩)) ∧
      ∀ k' l' c, l' ++ [c] <+: (r k').logs S → Shifts S l' c n i .bePulling .serving →
        k < k' := by
  have hi := (hr.inv k).logs
  obtain ⟨hnum, data, hmem⟩ := hins.insertShards
  have hm := hi.moves_of_pulled List.prefix_rfl (Or.inl hins.before)
  rw [hins.num] at hm
  change (replay P ((r k).logs P)).lastConfig.shards i = S at hS
  rw [hS] at hm
  have hlack : ¬ Held P ((r k).logs P) n i := by
    rintro (hlt | ⟨-, hne⟩)
    · exact absurd hins.num hlt.ne'
    · exact hne hins.before
  have hdata : ∀ data, (i, data) ∈ reply.shards → Content h (r k).logs S n i data := by
    intro data hmem
    obtain ⟨S', hb, -, hd⟩ := (hr.inv k).proposed (hr.proposed_of_commit hlog)
    have hm' := (hb.2 i).mp (List.mem_map_of_mem (f := Prod.fst) hmem)
    rw [hnum] at hm' hd
    rw [(hm.unique hm').1]
    exact (hd i data hmem).resolve_right hlack
  obtain ⟨l, he, -⟩ := hdata data hmem
  refine ⟨l, he, ⟨data, hmem⟩, fun data' hmem' => ?_, fun l' args hl hl' hk => ?_,
    fun k' l' c hl' hd => ?_⟩
  · obtain ⟨l', he', rfl⟩ := hdata data' hmem'
    rw [he.unique he']
  · have hpre := (List.prefix_append l' _).trans hl'
    have hle := num_replay_mono S hl
    rw [he.num_entered] at hle
    have hno := hi.not_canServer_source hm hpre (hi.kept hm hlack hpre hle).1
    rw [ShardKV.applyOperation, hk, if_neg hno]
  · by_contra hle
    have hpre := hl'.trans (hr.logs_mono (not_lt.mp hle) S)
    exact hlack (hi.held_of_drop hm hpre hd)

theorem handoff_loses_nothing_moveRun :
    ∃ r, System.Run moveHistory (fun _ _ => True) r ∧ ∃ reply,
      (r 13).logs 2 = (r 12).logs 2 ++ [.insertShards reply] ∧
      ∃ l, Enters moveHistory 1 ((r 12).logs 1) l 2 ∧
        ∀ data, ((0 : ShardId), data) ∈ reply.shards →
          data =
            ((replay 1 (l ++ [.configuration (moveHistory.config 2)])).stateMachines 0).kv := by
  have hr := moveRun_isRun
  obtain ⟨l, he, -, hdata, -⟩ := handoff_loses_nothing hr (k := 12) (P := 2) (n := 2) (i := 0)
    (S := 1) rfl ⟨by decide +kernel, by decide +kernel, by decide +kernel⟩ (by decide +kernel)
  exact ⟨_, hr, _, rfl, l, he, hdata⟩

end RaftLabs.Shardkv
