import RaftLabs.Shardkv.Ownership

/-! Garbage collection: when the source answers for the deletion itself, the puller ends the
collection only after the source has given up its copy. -/
namespace RaftLabs.Shardkv
open Basis Shardctrler

variable {h : History} {logs : ℤ → List Command} {n : ℕ} {i : ShardId} {S P g : ℤ}

/-- A source that has reached the configuration in which a shard moves away still has its copy
or has deleted it. -/
def Gives (h : History) (logs : ℤ → List Command) : Prop :=
  ∀ ⦃S P n i⦄, Moves h n i S P → n ≤ (replay S (logs S)).num →
    ((replay S (logs S)).num = n ∧ (replay S (logs S)).status i = .bePulling) ∨
      Deleted S (logs S) n i

theorem Gives.extend_self (hgive : Gives h logs) (hi : LogsInv h logs) (hg : g ≠ 0) {c : Command}
    (hs : Sound h logs g c) (hm : Moves h n i g P) (hn : n ≤ (replay g (logs g ++ [c])).num) :
    ((replay g (logs g ++ [c])).num = n ∧ (replay g (logs g ++ [c])).status i = .bePulling) ∨
      Deleted g (logs g ++ [c]) n i := by
  have hpre : logs g <+: logs g ++ [c] := List.prefix_append _ _
  rw [replay_concat] at hn ⊢
  rcases hi.apply_cases hg hs with hnum | ⟨rfl, hnum, hserv, hst⟩
  · rw [hnum] at hn ⊢
    rcases hgive hm hn with ⟨heq, hb⟩ | hd
    · by_cases hb' : ((replay g (logs g)).apply c).1.status i = .bePulling
      · exact Or.inl ⟨heq, hb'⟩
      · obtain ⟨args, rfl, hafter⟩ := ShardKV.delete_of_bePulling hnum hb hb'
        exact Or.inr ⟨_, args, List.prefix_rfl, heq, hb, by rwa [replay_concat]⟩
    · exact Or.inr (hd.mono hpre)
  · rw [hnum] at hn ⊢
    rcases Nat.lt_or_eq_of_le hn with hlt | rfl
    · rcases hgive hm (Nat.lt_succ_iff.mp hlt) with ⟨-, hb⟩ | hd
      · rw [hserv i] at hb
        cases hb
      · exact Or.inr (hd.mono hpre)
    · exact Or.inl ⟨rfl, by rw [hst, hm.entryStatus_source]⟩

theorem Gives.extend (hgive : Gives h logs) (hi : LogsInv h logs) (hg : g ≠ 0) {c : Command}
    (hs : Sound h logs g c) : Gives h (extend logs g c) := by
  intro S P n i hm hn
  by_cases hS : S = g
  · subst hS
    rw [Shardkv.extend, Function.update_self] at hn ⊢
    exact hgive.extend_self hi hg hs hm hn
  · rw [Shardkv.extend, Function.update_of_ne hS] at hn ⊢
    exact hgive hm hn

/-- The deletion of a batch in the source gives up all its shards. -/
theorem Gives.deleted (hgive : Gives h logs) (hi : LogsInv h logs) {args : ShardOperationArgs}
    (hb : Batch h args.configNum S P args.shardIds)
    (hle : args.configNum ≤ (replay S (logs S)).num) (hmem : i ∈ args.shardIds) :
    Deleted S (logs S ++ [.deleteShards args]) args.configNum i := by
  rcases hgive ((hb.2 i).mp hmem) hle with ⟨heq, hst⟩ | hd
  · refine ⟨_, args, List.prefix_rfl, heq, hst, ?_⟩
    rw [← heq] at hb
    have hall : ∀ j ∈ args.shardIds, (replay S (logs S)).status j = .gc ∨
        (replay S (logs S)).status j = .bePulling := fun j hj =>
      Or.inr (((hi.fits_group S).uniform_batch hb hj hmem).trans hst)
    rw [replay_concat, ShardKV.status]
    simp only [ShardKV.apply, ShardKV.applyDeleteShards, if_pos heq.symm]
    exact ShardKV.deleteLoop_all hb.1 hall hmem
  · exact hd.mono (List.prefix_append _ _)

namespace System

variable {sys sys' : System}

/-- A deletion in the log of the source has given up its shards, and one that is proposed in the
group of the puller stands there because the source has given them up. -/
structure Collected (h : History) (sys : System) : Prop where
  gives : Gives h sys.logs
  source : ∀ {S P i args}, .deleteShards args ∈ sys.logs S →
    Batch h args.configNum S P args.shardIds → i ∈ args.shardIds →
    Deleted S (sys.logs S) args.configNum i
  puller : ∀ {S P i args}, .deleteShards args ∈ sys.proposals P →
    Batch h args.configNum S P args.shardIds → i ∈ args.shardIds →
    Deleted S (sys.logs S) args.configNum i

theorem Collected.propose (hc : sys.Collected h) {c : Command}
    (hd : ∀ {S i args}, c = .deleteShards args → Batch h args.configNum S g args.shardIds →
      i ∈ args.shardIds → Deleted S (sys.logs S) args.configNum i) :
    (sys.propose g c).Collected h :=
  { hc with
    puller := fun hmem hb hi => by
      rcases mem_propose hmem with hmem | ⟨rfl, heq⟩
      · exact hc.puller hmem hb hi
      · exact hd heq.symm hb hi }

/-- Other proposals than deletions do not matter. -/
theorem Collected.propose_other (hc : sys.Collected h) {c : Command}
    (hne : ∀ args, c ≠ .deleteShards args) : (sys.propose g c).Collected h :=
  hc.propose fun {_ _ args} heq => absurd heq (hne args)

/-- The source proposes a deletion for itself, not as a puller. -/
theorem Collected.gcAction (hc : sys.Collected h) (hi : sys.Inv h) {p q index : ℕ} {source : ℤ}
    {shardIds : List ShardId}
    (hearly : ¬ sys.AnswersEarly (.gcAction g p source q shardIds index))
    (hs : sys.gcAction g p source q shardIds index = some sys') : sys'.Collected h := by
  obtain ⟨hne, hperm, -, ⟨hlt, -⟩ | ⟨-, rfl⟩⟩ := of_gcAction hs
  · exact absurd hlt hearly
  have hb := (hi.fits_replica g p).batch (Or.inr rfl) hne hperm
  have hp := hc.propose (g := source) (c := .deleteShards ⟨(sys.replica g p).num, shardIds⟩)
    fun {S i args} heq hb' hmem => by
      cases heq
      obtain ⟨rfl, rfl⟩ := ((hb.2 i).mp hmem).unique ((hb'.2 i).mp hmem)
      exact absurd rfl ((hb.2 i).mp hmem).ne
  exact { hp with }

/-- A deletion that has been answered in its own right is in the log of the source. -/
theorem Collected.gcReply (hc : sys.Collected h) (hi : sys.Inv h) {k : ℕ}
    (hroute : ¬ sys.Misroutes (.gcReply k)) (hs : sys.gcReply k = some sys') :
    sys'.Collected h := by
  obtain ⟨c, command, hget, hcommand, rfl⟩ := of_gcReply hs
  obtain ⟨hb, -⟩ := hi.collections (List.mem_of_getElem? hget)
  have hown : command.Deletes c.args := by
    by_contra hno
    exact hroute (by simpa [Misroutes, collectionReply, hget, hcommand] using hno)
  have hlog : .deleteShards c.args ∈ sys.logs c.source := by
    cases command with
    | deleteShards args =>
      obtain rfl : args = c.args := hown
      exact List.mem_of_getElem? hcommand
    | operation _ => exact hown.elim
    | configuration _ => exact hown.elim
    | insertShards _ => exact hown.elim
    | emptyEntry => exact hown.elim
  have hp := hc.propose (g := c.puller) (c := .deleteShards c.args)
    fun {S i args} heq hb' hmem => by
      cases heq
      obtain ⟨rfl, -⟩ := ((hb.2 i).mp hmem).unique ((hb'.2 i).mp hmem)
      exact hc.source hlog hb hmem
  exact { hp with }

theorem Collected.commit (hc : sys.Collected h) (hi : sys.Inv h) {k : ℕ}
    (hs : sys.commit g k = some sys') : sys'.Collected h := by
  obtain ⟨c, hprop, hg, rfl⟩ := of_commit hs
  have hpre := prefix_extend sys.logs g c
  refine ⟨hc.gives.extend hi.logs hg (hi.proposed hprop), ?_, ?_⟩
  · intro S P i args hmem hb hmem'
    rcases mem_extend hmem with hmem | ⟨rfl, rfl⟩
    · exact (hc.source hmem hb hmem').mono (hpre S)
    · obtain ⟨-, -, -, -, hle, -⟩ := hi.proposed hprop
      have hdel := hc.gives.deleted hi.logs hb hle hmem'
      change Deleted S (Function.update sys.logs S _ S) _ i
      rwa [Function.update_self]
  · exact fun hmem hb hmem' => (hc.puller hmem hb hmem').mono (hpre _)

theorem Collected.step (hc : sys.Collected h) (hi : sys.Inv h) {a : Action}
    (hearly : ¬ sys.AnswersEarly a) (hroute : ¬ sys.Misroutes a) (hs : sys.step h a = some sys') :
    sys'.Collected h := by
  cases a with
  | issue args =>
    obtain ⟨-, rfl⟩ := of_guarded hs
    exact { hc with }
  | command gid p args =>
    obtain ⟨-, rfl⟩ := of_guarded hs
    exact hc.propose_other nofun
  | configurationAction gid p =>
    obtain ⟨-, rfl⟩ := of_guarded hs
    exact hc.propose_other nofun
  | migrationAction gid p source q shardIds =>
    obtain ⟨-, -, -, rfl⟩ := of_migrationAction hs
    exact hc.propose_other nofun
  | gcAction gid p source q shardIds index => exact hc.gcAction hi hearly hs
  | gcReply k => exact hc.gcReply hi hroute hs
  | checkEntryInCurrentTermAction gid =>
    obtain rfl := Option.some.inj hs
    exact hc.propose_other nofun
  | commit gid k => exact hc.commit hi hs

theorem init_collected (h : History) : init.Collected h where
  gives S P n i hm hn := by
    have := hm.pos
    change n ≤ 0 at hn
    omega
  source hc := by cases hc
  puller hc := by cases hc

/-- Every `DeleteShardsData` is answered by a replica that has reached the configuration, and
with the reply to its own command. -/
def Answers (sys : System) (a : Action) : Prop := ¬ sys.AnswersEarly a ∧ ¬ sys.Misroutes a

instance (sys : System) (a : Action) : Decidable (sys.Answers a) :=
  inferInstanceAs (Decidable (_ ∧ _))

theorem Run.collected {r : ℕ → System} (hr : Run h Answers r) (k : ℕ) :
    (r k).Inv h ∧ (r k).Collected h :=
  hr.steps.invariant (I := fun sys => sys.Inv h ∧ sys.Collected h)
    (fun _ _ _ hans hs hi => ⟨hi.1.step hs, hi.2.step hi.1 hans.1 hans.2 hs⟩)
    (hr.init ▸ ⟨init_inv h, init_collected h⟩) k

end System

/-- When the group `P` ends the collection of shard `i` in configuration `n`, the group `S` that
it was pulled from has deleted its copy. -/
theorem collection_after_deletion {r : ℕ → System} (hr : System.Run h System.Answers r) {k : ℕ}
    {args : ShardOperationArgs}
    (hlog : (r (k + 1)).logs P = (r k).logs P ++ [.deleteShards args])
    (hcol : Shifts P ((r k).logs P) (.deleteShards args) n i .gc .serving)
    (hS : ((r k).group P).lastConfig.shards i = S) :
    Deleted S ((r k).logs S) n i ∧
      ¬ (((r k).group S).num = n ∧ ((r k).group S).status i = .bePulling) := by
  obtain ⟨hi, hc⟩ := hr.collected k
  have hprop := hr.proposed_of_commit hlog
  obtain ⟨rfl, hmem⟩ := hcol.deleteShards (by decide)
  have hm := hi.logs.moves_of_pulled List.prefix_rfl (Or.inr hcol.before)
  change (replay P ((r k).logs P)).lastConfig.shards i = S at hS
  rw [hcol.num, hS] at hm
  obtain ⟨S', P', hb, -⟩ := hi.proposed hprop
  obtain ⟨rfl, rfl⟩ := hm.unique ((hb.2 i).mp hmem)
  have hdel := hc.puller hprop hb hmem
  exact ⟨hdel, hdel.not_bePulling⟩

set_option maxRecDepth 4000 in
theorem collection_after_deletion_moveRun :
    ∃ r, System.Run moveHistory System.Answers r ∧
      (r 17).logs 2 = (r 16).logs 2 ++ [.deleteShards ⟨2, [0]⟩] ∧
      Deleted 1 ((r 16).logs 1) 2 0 := by
  have hr : System.Run moveHistory System.Answers
      (trace (System.step moveHistory) .init moveRun) :=
    ⟨trace_zero _ _, trace_isRun (by decide +kernel)⟩
  have hlog : (trace (System.step moveHistory) .init moveRun 17).logs 2 =
      (trace (System.step moveHistory) .init moveRun 16).logs 2 ++ [.deleteShards ⟨2, [0]⟩] := rfl
  obtain ⟨hdel, -⟩ := collection_after_deletion hr (n := 2) (i := 0) (S := 1) hlog
    ⟨by decide +kernel, by decide +kernel, by decide +kernel⟩ (by decide +kernel)
  exact ⟨_, hr, hlog, hdel⟩

/-- A replica of group 1 that has not reached configuration 2 answers the collection. -/
def earlyRun : List Action :=
  moveRun.take 13 ++ [.gcAction 2 3 1 2 [key2shard "d"] 3, .commit 2 3]

set_option maxRecDepth 4000 in
/-- Group 2 ends the collection of shard 0 and is at rest, while group 1 keeps its copy. -/
theorem copy_kept_earlyRun :
    ∃ r, System.Run moveHistory (fun _ _ => True) r ∧
      (r 15).logs 2 = (r 14).logs 2 ++ [.deleteShards ⟨2, [0]⟩] ∧
      Shifts 2 ((r 14).logs 2) (.deleteShards ⟨2, [0]⟩) 2 0 .gc .serving ∧
      ((r 14).group 2).lastConfig.shards 0 = 1 ∧
      (∀ i, ((r 15).group 2).status i = .serving) ∧
      ((r 15).group 1).num = 2 ∧ ((r 15).group 1).status 0 = .bePulling :=
  ⟨trace (System.step moveHistory) .init earlyRun, ⟨trace_zero _ _, trace_isRun (by decide)⟩,
    rfl, ⟨by decide +kernel, by decide +kernel, by decide +kernel⟩, by decide +kernel,
    by decide +kernel, by decide +kernel, by decide +kernel⟩

end RaftLabs.Shardkv
