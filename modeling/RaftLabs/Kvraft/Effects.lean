import RaftLabs.Basis.AssocList
import RaftLabs.Basis.Linearizability
import RaftLabs.Kvraft.ExactlyOnce
import RaftLabs.Kvraft.Replies

/-! The store as one object, and the effects of the committed log on it: a command takes effect
when it is committed, unless the applier skips it, and a final answer has the reply of an effect
of its request. -/
namespace RaftLabs.Kvraft
open Basis Basis.Ledger

/-- The store as one object. A clerk drops the reply to a write. -/
def store : SeqSpec MemoryKV CommandArgs CommandReply where
  init := fun _ => none
  step m args reply :=
    match args.op with
    | .put => some (m.put args.key args.value).1
    | .append => some (m.append args.key args.value).1
    | .get => if (reply.value, reply.err) = m.get args.key then some m else none

/-- A get leaves the store alone. -/
theorem store_get {m m' : MemoryKV} {args : CommandArgs} {reply : CommandReply}
    (hop : args.op = .get) (hs : store.step m args reply = some m') : m' = m := by
  simp only [store, hop] at hs
  exact (of_guarded hs).2.symm

/-- The store follows the applier. -/
theorem store_applyCommand {kv : Data} {args : CommandArgs} (hskip : ¬ kv.Skips args) :
    store.step kv.stateMachine args (kv.applyCommand args).2 =
      some (kv.applyCommand args).1.stateMachine := by
  cases hop : args.op with
  | get =>
    rw [Data.applyCommand_of_get hop]
    simp [store, hop, Data.applyToStateMachine]
  | put =>
    rw [Data.applyCommand_of_new (by simp [hop]) hskip]
    simp [store, hop, Data.applyToStateMachine]
  | append =>
    rw [Data.applyCommand_of_new (by simp [hop]) hskip]
    simp [store, hop, Data.applyToStateMachine]

abbrev EffectLog := List (Effect CommandArgs CommandReply ℕ)

/-- The effects of the entries of a log. -/
structure Effects (l : List (Item (Option CommandArgs))) (log : EffectLog) : Prop where
  legal : store.exec store.init (log.map Effect.toOperation) = some (replay l).stateMachine
  once : log.Pairwise fun e e' => e.input = e'.input → e.input.op = .get
  entered : ∀ e ∈ log, ∃ x ∈ l, x.value = some e.input
  recorded : ∀ {p t args}, l[p]? = some ⟨t, some args⟩ → ¬ (replay (l.take p)).Skips args →
    ∃ e ∈ log, e.input = args ∧ e.output = ((replay (l.take p)).applyCommand args).2

section Log
variable {l : List (Item (Option CommandArgs))} {x : Item (Option CommandArgs)} {log : EffectLog}
  {args : CommandArgs}

theorem replay_append_singleton (l : List (Item (Option CommandArgs)))
    (x : Item (Option CommandArgs)) : replay (l ++ [x]) = applyItem (replay l) x := by
  simp [replay]

theorem replay_eq_replayCommands (l : List (Item (Option CommandArgs))) :
    replay l = replayCommands (l.filterMap Item.value) := by
  induction l using List.reverseRecOn with
  | nil => rfl
  | append_singleton l x ih =>
    rw [replay_append_singleton, ih, List.filterMap_append]
    cases hx : x.value with
    | none => simp [applyItem, hx]
    | some c => simp [applyItem, hx]

/-- A write that is in the log is skipped from then on. -/
theorem skips_of_value (hx : x ∈ l) (hv : x.value = some args) (hop : args.op ≠ .get) :
    (replay l).Skips args := by
  rw [replay_eq_replayCommands]
  exact skips_of_mem (List.mem_filterMap.mpr ⟨x, hx, hv⟩) hop

theorem effects_nil : Effects [] [] where
  legal := rfl
  once := List.Pairwise.nil
  entered _ he := by cases he
  recorded hp := by cases hp

/-- The entries before the last one have had their effects. -/
theorem Effects.recorded_concat (h : Effects l log) {p t : ℕ}
    (hp : l[p]? = some ⟨t, some args⟩) (hskip : ¬ (replay ((l ++ [x]).take p)).Skips args) :
    ∃ e ∈ log, e.input = args ∧
      e.output = ((replay ((l ++ [x]).take p)).applyCommand args).2 := by
  have hlt := (List.getElem?_eq_some_iff.mp hp).1
  rw [List.take_append_of_le_length hlt.le] at hskip ⊢
  exact h.recorded hp hskip

/-- An entry without a command, or with one that is skipped, has no effect. -/
theorem Effects.concat_skip (h : Effects l log)
    (hx : ∀ args, x.value = some args → (replay l).Skips args) : Effects (l ++ [x]) log where
  legal := by
    rw [h.legal, replay_append_singleton]
    cases hv : x.value with
    | none => rw [applyItem, hv]
    | some args => simp only [applyItem, hv, Data.applyCommand_of_skips (hx args hv)]
  once := h.once
  entered e he := by
    obtain ⟨y, hy, hv⟩ := h.entered e he
    exact ⟨y, List.mem_append_left _ hy, hv⟩
  recorded {p t args} hp hskip := by
    rcases of_getElem?_concat hp with hp | ⟨rfl, rfl⟩
    · exact h.recorded_concat hp hskip
    · rw [List.take_left] at hskip
      exact absurd (hx args rfl) hskip

theorem Effects.concat_new (h : Effects l log) (hx : x.value = some args)
    (hskip : ¬ (replay l).Skips args) (time : ℕ) :
    Effects (l ++ [x]) (log ++ [⟨args, ((replay l).applyCommand args).2, time⟩]) where
  legal := by
    rw [List.map_append, SeqSpec.exec_append, h.legal, replay_append_singleton]
    simp only [applyItem, hx]
    simpa [Effect.toOperation] using store_applyCommand hskip
  once := by
    refine List.pairwise_append.mpr ⟨h.once, List.pairwise_singleton _ _, fun e he e' he' heq => ?_⟩
    obtain rfl := List.mem_singleton.mp he'
    obtain ⟨y, hy, hv⟩ := h.entered e he
    rw [heq] at hv ⊢
    by_contra hop
    exact hskip (skips_of_value hy hv hop)
  entered e he := by
    rcases List.mem_append.mp he with he | he
    · obtain ⟨y, hy, hv⟩ := h.entered e he
      exact ⟨y, List.mem_append_left _ hy, hv⟩
    · obtain rfl := List.mem_singleton.mp he
      exact ⟨x, by simp, hx⟩
  recorded {p t args'} hp hskip' := by
    rcases of_getElem?_concat hp with hp | ⟨rfl, rfl⟩
    · obtain ⟨e, he, hrest⟩ := h.recorded_concat hp hskip'
      exact ⟨e, List.mem_append_left _ he, hrest⟩
    · obtain rfl := Option.some.inj hx
      exact ⟨_, List.mem_append_right _ (List.mem_singleton_self _), rfl, by rw [List.take_left]⟩

/-- The effects of more entries, all at one time. -/
theorem Effects.append (h : Effects l log) (m : List (Item (Option CommandArgs))) (time : ℕ) :
    ∃ new : EffectLog, (∀ e ∈ new, e.time = time) ∧ Effects (l ++ m) (log ++ new) := by
  induction m generalizing l log with
  | nil => exact ⟨[], by simp, by simpa using h⟩
  | cons x m ih =>
    rw [List.append_cons]
    by_cases hx : ∃ args, x.value = some args ∧ ¬ (replay l).Skips args
    · obtain ⟨args, hv, hskip⟩ := hx
      obtain ⟨new, hnew, heff⟩ := ih (h.concat_new hv hskip time)
      refine ⟨[⟨args, _, time⟩] ++ new, fun e he => ?_, by rwa [← List.append_assoc log]⟩
      rcases List.mem_cons.mp he with rfl | he
      · rfl
      · exact hnew e he
    · refine ih (h.concat_skip fun args hv => ?_)
      by_contra hskip
      exact hx ⟨args, hv, hskip⟩

end Log

namespace System

variable {n : ℕ} {sys sys' : System n} {log : EffectLog}

/-- The log has the effects of the committed entries. -/
def Logged (sys : System n) (log : EffectLog) : Prop :=
  ∃ T, sys.raft.commit T = sys.committed ∧
    Effects ((sys.raft.llog T).take sys.committed) log

theorem init_logged : (init n).Logged [] := by
  refine ⟨0, rfl, effects_nil.concat_skip (x := ⟨0, none⟩) fun args hv => ?_⟩
  cases hv

/-- The entries that are committed in a step take effect. -/
theorem Logged.grow (hl : sys.Logged log) (h : sys.Inv) (h' : sys'.Inv)
    (gr : Grows sys.raft sys'.raft) (time : ℕ) : ∃ new : EffectLog,
      (∀ e ∈ new, e.time = time ∧ e.input ∈ sys'.issued) ∧ sys'.Logged (log ++ new) := by
  obtain ⟨T, hT, heff⟩ := hl
  obtain ⟨U, hU⟩ := h'.committed_eq
  have hle : sys.committed ≤ sys'.committed := by
    have := gr.commit T
    have := h'.committed_le T
    omega
  -- what was committed stays so
  have hold : (sys.raft.llog T).take sys.committed = (sys'.raft.llog U).take sys.committed := by
    have hlen := h.raft.commit_le T
    rw [← gr.take_llog (by omega)]
    exact take_committed h'.raft (hT ▸ gr.commit T) (hU.symm ▸ hle)
  obtain ⟨m, hm⟩ : (sys'.raft.llog U).take sys.committed <+:
      (sys'.raft.llog U).take sys'.committed := List.take_prefix_take_left hle
  rw [hold] at heff
  obtain ⟨new, hnew, heff'⟩ := heff.append m time
  rw [hm] at heff'
  refine ⟨new, fun e he => ⟨hnew e he, ?_⟩, U, hU, heff'⟩
  obtain ⟨⟨t, v⟩, hx, rfl⟩ := heff'.entered e (List.mem_append_right _ he)
  obtain ⟨i, hi⟩ := List.getElem?_of_mem hx
  have hlt : i < sys'.committed := by
    have := (List.getElem?_eq_some_iff.mp hi).1
    rw [List.length_take] at this
    omega
  rw [List.getElem?_take_of_lt hlt] at hi
  obtain ⟨c, hc, -⟩ := h'.arrived_of_committed ⟨U, le_rfl, hU.symm ▸ hlt, hi⟩
  exact (h'.arrived_le hc).2

/-- A final answer has the reply of an effect. -/
theorem Logged.exists_effect (hl : sys.Logged log) (h : sys.Inv) {a : Answer}
    (ha : a ∈ sys.answers) (hf : a.Final) : ∃ e ∈ log, e.input = a.args ∧ e.output = a.reply := by
  obtain ⟨T, hT, heff⟩ := hl
  obtain ⟨⟨p, before, -, -, ⟨U, t, hlt, hget, rfl⟩, hskip, hvalue⟩, hwrite⟩ :=
    (h.answers ha).2.2 hf
  have hle := h.committed_le U
  have hget' : ((sys.raft.llog T).take sys.committed)[p]? = some ⟨t, some a.args⟩ := by
    rw [List.getElem?_take_of_lt (by omega), ← hget]
    exact h.raft.committed_agree (by omega) hlt
  have htake : ((sys.raft.llog T).take sys.committed).take p = (sys.raft.llog U).take p := by
    rw [List.take_take, min_eq_left (by omega)]
    exact take_committed h.raft (by omega) hlt.le
  obtain ⟨e, he, hin, hout⟩ := heff.recorded hget' (by rwa [htake])
  refine ⟨e, he, hin, ?_⟩
  rw [hout, htake]
  by_cases hop : a.args.op = .get
  · rw [Data.applyCommand_of_get hop]
    simp only [Data.applyToStateMachine, hop, ← hvalue hop]
  · rw [hwrite hop]
    exact Replays.applyCommand_reply ⟨U, hlt.le, rfl⟩ hop

end System

end RaftLabs.Kvraft
