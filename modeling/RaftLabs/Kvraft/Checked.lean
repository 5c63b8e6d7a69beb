import RaftLabs.Kvraft.Linearizable
import RaftLabs.Porcupine.Answers

/-! The tests of kvraft log the calls of the clerks and give the log to the linearizability
checker. The checker does not reject it. -/
namespace RaftLabs.Kvraft
open Basis Models Porcupine

/-- The input that `Get`, `Put` and `Append` of the tests log. -/
def loggedInput (args : CommandArgs) : KvInput :=
  match args.op with
  | .get => ⟨0, args.key, ""⟩
  | .put => ⟨1, args.key, args.value⟩
  | .append => ⟨2, args.key, args.value⟩

/-- The output that they log. -/
def loggedOutput (args : CommandArgs) (reply : CommandReply) : KvOutput :=
  match args.op with
  | .get => ⟨reply.value⟩
  | .put => ⟨""⟩
  | .append => ⟨""⟩

/-- The entry of the operation log for a call. The clock is read before the call and after the
return; `time` is its value at each step of the run. -/
structure Logged (time : ℕ → ℤ) (op : Basis.Operation CommandArgs CommandReply ℕ)
    (entry : KvOperation) : Prop where
  input : entry.input = loggedInput op.input
  output : entry.output = loggedOutput op.input op.output
  call : entry.call ≤ time op.call
  ret : time op.ret ≤ entry.ret

/-- The log has one entry for each call that has returned, in some order. -/
def IsOpLog (time : ℕ → ℤ) (history : List (Basis.Operation CommandArgs CommandReply ℕ))
    (log : List KvOperation) : Prop :=
  ∃ calls, calls.Perm history ∧ List.Forall₂ (Logged time) calls log

/-- A missing key reads as the empty string. -/
def values (m : MemoryKV) : String → String := fun key => (m key).getD ""

theorem values_update (m : MemoryKV) (key value : String) :
    values (Function.update m key (some value)) = Function.update (values m) key value := by
  funext k
  by_cases hk : k = key
  · subst hk
    simp [values]
  · simp [values, Function.update_of_ne hk]

/-- The model of the checker follows the store. -/
theorem kvStore_step {m m' : MemoryKV} {args : CommandArgs} {reply : CommandReply}
    (h : store.step m args reply = some m') :
    kvStore.step (values m) (loggedInput args) (loggedOutput args reply) =
      some (values m') := by
  have hspec : ∀ (st : String) (inp : KvInput) (out : KvOutput),
      (fillDefault kvModel).spec.step st inp out =
        if (kvStep st inp out).1 then some (kvStep st inp out).2 else none := fun _ _ _ => rfl
  simp only [kvStore, SeqSpec.product, hspec]
  cases hop : args.op with
  | get =>
    simp only [store, hop] at h
    obtain ⟨hget, rfl⟩ := of_guarded h
    have hvalue : reply.value = values m args.key := by
      have := congrArg Prod.fst hget
      simp only [MemoryKV.get] at this
      rw [this, values]
      cases m args.key <;> rfl
    simp [loggedInput, loggedOutput, hop, kvStep, hvalue]
  | put =>
    simp only [store, hop, Option.some.injEq] at h
    subst h
    simp [loggedInput, hop, kvStep, MemoryKV.put, values_update]
  | append =>
    simp only [store, hop, Option.some.injEq] at h
    subst h
    simp [loggedInput, hop, kvStep, MemoryKV.append, values_update]
    rfl

/-- The log of a linearizable history is linearizable, since it has less real-time order. -/
theorem IsOpLog.linearizable {time : ℕ → ℤ} (htime : Monotone time)
    {history : List (Basis.Operation CommandArgs CommandReply ℕ)}
    {log : List KvOperation} (hlog : IsOpLog time history log)
    (h : store.Linearizable history) : kvStore.Linearizable log := by
  obtain ⟨calls, hperm, hforall⟩ := hlog
  have hcalls : store.Linearizable calls := by
    obtain ⟨l, hl⟩ := h
    exact ⟨l, hl.perm.trans hperm.symm, hl.realTime, hl.legal⟩
  -- the calls paired with their entries
  have hlen := hforall.length_eq
  have hfst : (calls.zip log).map Prod.fst = calls := List.map_fst_zip hlen.le
  have hsnd : (calls.zip log).map Prod.snd = log := List.map_snd_zip hlen.ge
  have hpair : ∀ x ∈ calls.zip log, Logged time x.1 x.2 := by
    intro x hx
    exact (List.forall₂_iff_zip.mp hforall).2 (by simpa using hx)
  rw [← hfst] at hcalls
  rw [← hsnd]
  refine hcalls.simulation values rfl (fun x hx m m' hm => ?_) fun x hx y hy hprec => ?_
  · rw [(hpair x hx).input, (hpair x hx).output]
    exact kvStore_step hm
  · have hlt : time x.1.ret < time y.1.call :=
      ((hpair x hx).ret.trans_lt hprec).trans_le (hpair y hy).call
    exact htime.reflect_lt hlt

/-- The entries of the log have their times in order. -/
theorem IsOpLog.call_le {time : ℕ → ℤ} (htime : Monotone time)
    {history : List (Basis.Operation CommandArgs CommandReply ℕ)}
    {log : List KvOperation} (hlog : IsOpLog time history log)
    (h : ∀ op ∈ history, op.call ≤ op.ret) : ∀ entry ∈ log, entry.call ≤ entry.ret := by
  obtain ⟨calls, hperm, hforall⟩ := hlog
  intro entry hentry
  obtain ⟨i, hi, rfl⟩ := List.getElem_of_mem hentry
  have hi' : i < calls.length := hforall.length_eq ▸ hi
  have hl := (List.forall₂_iff_get.mp hforall).2 i hi' hi
  have hop := h _ (hperm.mem_iff.mp (List.get_mem calls ⟨i, hi'⟩))
  exact (hl.call.trans (htime hop)).trans hl.ret

/-- The check at the end of a test of kvraft, when all calls have returned: in every run of the
service over an ideal Raft in which no index is handed out twice, and in every run of the checker,
the log is not found illegal, and the check finds it in order unless it times out. -/
theorem opLog_not_illegal [NeZero n] {r : ℕ → Observed n} (hr : Observed.Run r) {k : ℕ}
    (hidle : (r k).pendingCalls = []) {time : ℕ → ℤ} (htime : Monotone time)
    {log : List KvOperation} (hlog : IsOpLog time (r k).history log)
    {S : EntrySorting KvInput KvOutput} {timeout : ℤ} {as : List ParallelAction} {s : Parallel}
    (hrun : exec (checkOperationsStep S kvModel log true timeout) startParallel as = some s)
    (hdone : s.phase = .done) : s.result = .ok ∨ (s.result = .unknown ∧ timeout > 0) := by
  obtain ⟨effects, hi⟩ := hr.inv k
  have hwf := hlog.call_le htime fun op hop => hi.clerks.call_le hop
  have hparts : ∀ part ∈ (fillDefault kvModel).partition log, ∀ op ∈ part, op.call ≤ op.ret :=
    fun part hpart op hop => hwf op (kvPartition_subset hpart hop)
  have hlin : kvStore.Linearizable log := by
    have h := hi.linearizable
    rw [hidle] at h
    exact hlog.linearizable htime h.linearizable
  obtain ⟨-, -, hanswer⟩ :=
    parallel_answer kvModel_lawful (by simp) (describes_operations hparts) hrun
  obtain ⟨-, hillegal, hunknown⟩ := hanswer hdone
  cases hresult : s.result with
  | ok => exact Or.inl rfl
  | unknown => exact Or.inr ⟨rfl, hunknown hresult⟩
  | illegal =>
    obtain ⟨part, hpart, hbad⟩ := hillegal hresult
    exact absurd ((kvPartition_linearizable_iff hwf).mpr hlin part hpart) hbad

/-- The log of the run in which one write returns, with the steps as times. -/
def returnedLog : List KvOperation :=
  [⟨⟨1, "a", "1"⟩, 4, ⟨""⟩, 12⟩]

theorem opLog_not_illegal_returnedRun :
    ∃ r : ℕ → Observed 3, Observed.Run r ∧ (r 13).pendingCalls = [] ∧
      IsOpLog (fun t => (t : ℤ)) (r 13).history returnedLog ∧
      ∃ s, exec (checkOperationsStep (insertionSorting _ _) kvModel returnedLog true 1)
        startParallel onePartRun = some s ∧ s.phase = .done ∧
        (s.result = .ok ∨ (s.result = .unknown ∧ (1 : ℤ) > 0)) := by
  have hr : Observed.Run (trace Observed.step (Observed.init 3) (returnedRun 0 1)) :=
    ⟨trace_zero _ _, trace_isRun (by decide +kernel)⟩
  have hidle : (trace Observed.step (Observed.init 3) (returnedRun 0 1) 13).pendingCalls = [] := by
    decide +kernel
  have hhistory : (trace Observed.step (Observed.init 3) (returnedRun 0 1) 13).history =
      [⟨firstPut 1 "a", 4, ⟨.ok, ""⟩, 12⟩] := by decide +kernel
  have hlog : IsOpLog (fun t => (t : ℤ))
      (trace Observed.step (Observed.init 3) (returnedRun 0 1) 13).history returnedLog := by
    rw [hhistory]
    exact ⟨_, List.Perm.refl _, .cons ⟨rfl, rfl, le_rfl, le_rfl⟩ .nil⟩
  have hrun : (exec (checkOperationsStep (insertionSorting _ _) kvModel returnedLog true 1)
      startParallel onePartRun).map (fun s => (s.phase, s.result)) = some (.done, .ok) := by decide
  obtain ⟨s, hs, hp, -⟩ := exists_exec hrun
  exact ⟨_, hr, hidle, hlog, s, hs, hp,
    opLog_not_illegal hr hidle (fun _ _ h => Int.ofNat_le.mpr h) hlog hs hp⟩

end RaftLabs.Kvraft
