import RaftLabs.Raft.View
import RaftLabs.Raft.Recovery

/-! The apply pipeline of one server: the applier goroutine, the goroutines that offer snapshots
and the loop of the service, which takes one message at a time from `applyCh`. -/
namespace RaftLabs.Raft

variable {n : ℕ} {C : Type}

/-- A Raft server and the loop of its service: `lastApplied` is the counter of the service and
`msg` the message it has received and not processed yet. -/
structure Pipeline (n : ℕ) (C : Type) where
  rf : Server n C := Server.make {} 0
  lastApplied : ℕ := 0
  msg : Option (ApplyMsg C) := none

/-- `advance` is whatever other handlers do to the log and the commit index, `offer k` the send
of the `k`-th snapshot goroutine. -/
inductive PipelineAction (C : Type) where
  | advance (logs : Log C) (commitIndex : ℕ)
  | installSnapshot (args : InstallSnapshotArgs)
  | applierCopy
  | applierSend
  | applierUpdate
  | offer (k : ℕ)
  | process
  | snapshot (index : ℕ) (data : List UInt8)

/-- What the applier copies: the entries after `lo` up to `hi`, in order. -/
theorem Log.Contiguous.slice {logs : Log C} (h : logs.Contiguous) {lo hi : ℕ} {es : List (Entry C)}
    (hs : logs.slice lo hi = some es) (hlo : logs.getFirstLog.index ≤ lo) :
    lo + es.length = hi ∧ ∀ k e, es[k]? = some e → e.index = lo + 1 + k := by
  simp only [Log.slice] at hs
  split_ifs at hs with hbad
  obtain rfl := Option.some.inj hs
  refine ⟨?_, fun k e hk => ?_⟩
  · rw [List.length_drop, List.length_take]
    omega
  · rw [List.getElem?_drop] at hk
    have hlt := (List.getElem?_eq_some_iff.mp hk).1
    rw [List.length_take] at hlt
    rw [List.getElem?_take_of_lt (by omega)] at hk
    rw [h.entry hk]
    omega

/-- How far the applier, with `LastApplied` at `lastApplied`, is ahead of a service that has
received the commands up to `received`: it is waiting and all it has sent has been received; or it
is about to send the entries that come next; or a snapshot has overtaken the rest of its batch. -/
def Applier.InStep (lastApplied received : ℕ) : Applier C → Prop
  | .waiting => received = lastApplied
  | .sending rest commitIndex =>
    (lastApplied ≤ received ∧ received + rest.length = commitIndex ∧
      ∀ k e, rest[k]? = some e → e.index = received + 1 + k) ∨
    (received = lastApplied ∧ commitIndex ≤ received ∧ ∀ e ∈ rest, e.index ≤ received)

namespace Applier.InStep
variable {lastApplied received commitIndex : ℕ} {entry : Entry C} {rest : List (Entry C)}

theorem received_le {rf : Server n C} (h : rf.applier.InStep rf.lastApplied received) :
    received ≤ rf.horizon := by
  unfold Server.horizon
  cases hw : rf.applier with
  | waiting =>
    rw [hw] at h
    exact le_of_eq h
  | sending rest commitIndex =>
    rw [hw] at h
    rcases h with ⟨-, hlen, -⟩ | ⟨heq, -, -⟩
    · exact le_max_of_le_right (by omega)
    · exact le_max_of_le_left heq.le

/-- The next entry is the one after those received, or an old one. -/
theorem head (h : (sending (entry :: rest) commitIndex).InStep lastApplied received) :
    entry.index ≤ received ∨ entry.index = received + 1 := by
  rcases h with ⟨-, -, hidx⟩ | ⟨-, -, hall⟩
  · exact Or.inr (hidx 0 entry rfl)
  · exact Or.inl (hall entry List.mem_cons_self)

theorem send (h : (sending (entry :: rest) commitIndex).InStep lastApplied received) :
    (sending rest commitIndex).InStep lastApplied (max received entry.index) := by
  rcases h with ⟨hle, hlen, hidx⟩ | ⟨heq, hci, hall⟩
  · have he := hidx 0 entry rfl
    simp only [List.length_cons] at hlen
    rw [max_eq_right (by omega)]
    refine Or.inl ⟨by omega, by omega, fun k e hk => ?_⟩
    have hk' := hidx (k + 1) e hk
    omega
  · rw [max_eq_left (hall entry List.mem_cons_self)]
    exact Or.inr ⟨heq, hci, fun e he => hall e (List.mem_cons_of_mem _ he)⟩

theorem update (h : (sending [] commitIndex : Applier C).InStep lastApplied received) :
    (waiting : Applier C).InStep (max lastApplied commitIndex) received := by
  change received = max lastApplied commitIndex
  rcases h with ⟨hle, hlen, -⟩ | ⟨heq, hci, -⟩
  · simp only [List.length_nil] at hlen
    omega
  · omega

/-- A snapshot above the commit index overtakes what is left of a batch. -/
theorem overtake {rf : Server n C} (h : rf.applier.InStep rf.lastApplied received)
    (hle : rf.horizon ≤ rf.commitIndex) {index : ℕ} (hlt : rf.commitIndex < index) :
    rf.applier.InStep index index := by
  unfold Server.horizon at hle
  cases hw : rf.applier with
  | waiting => rfl
  | sending rest commitIndex =>
    rw [hw] at h hle
    simp only [max_le_iff] at hle
    refine Or.inr ⟨rfl, by omega, fun e he => ?_⟩
    rcases h with ⟨-, hlen, hidx⟩ | ⟨heq, -, hall⟩
    · obtain ⟨k, hk⟩ := List.getElem?_of_mem he
      have hk' := hidx k e hk
      have := (List.getElem?_eq_some_iff.mp hk).1
      omega
    · have := hall e he
      omega

end Applier.InStep

namespace Pipeline

/-- The body of the service loop: an old command is discarded, a new one applied, and a snapshot
restored if `CondInstallSnapshot` accepts it. -/
def process (p : Pipeline n C) : Option (Pipeline n C) := do
  let msg ← p.msg
  if msg.commandValid then
    if msg.commandIndex ≤ p.lastApplied then some { p with msg := none }
    else some { p with lastApplied := msg.commandIndex, msg := none }
  else if msg.snapshotValid then do
    let (rf, accepted) ←
      p.rf.condInstallSnapshot msg.snapshotTerm msg.snapshotIndex msg.snapshot
    some { rf, lastApplied := if accepted then msg.snapshotIndex else p.lastApplied, msg := none }
  else none

/-- One step. A send on `applyCh` needs the service to be at its receive. -/
def step (p : Pipeline n C) : PipelineAction C → Option (Pipeline n C)
  | .advance logs commitIndex => some { p with rf := { p.rf with logs, commitIndex } }
  | .installSnapshot args => some { p with rf := (p.rf.installSnapshot args).1 }
  | .applierCopy => do
    let rf ← p.rf.applierCopy
    some { p with rf }
  | .applierSend =>
    if p.msg.isNone then do
      let rf ← p.rf.applierSend
      some { p with rf, msg := rf.applied.getLast? }
    else none
  | .applierUpdate => do
    let rf ← p.rf.applierUpdate
    some { p with rf }
  | .offer k =>
    if p.msg.isNone then do
      let msg ← p.rf.installs[k]?
      some { p with
        rf := { p.rf with installs := p.rf.installs.eraseIdx k }
        msg := some msg }
    else none
  | .process => p.process
  | .snapshot index data => do
    let rf ← p.rf.snapshot index data
    some { p with rf }

/-- What is assumed of the steps: the commit index only grows within the log, entries up to it and
the snapshot point are kept, and the service compacts only what it has received. -/
def Assumed (p : Pipeline n C) : PipelineAction C → Prop
  | .advance logs commitIndex => logs.Contiguous ∧
      logs.getFirstLog.index = p.rf.logs.getFirstLog.index ∧
      (∀ i ≤ p.rf.commitIndex, logs.get? i = p.rf.logs.get? i) ∧
      p.rf.commitIndex ≤ commitIndex ∧ commitIndex ≤ logs.getLastLog.index
  | .snapshot index _ => index ≤ p.lastApplied
  | _ => True

/-- What the counter of the service is, or will be once it has processed the command it has
received. -/
def ahead (p : Pipeline n C) : ℕ :=
  match p.msg with
  | some m => if m.commandValid then max p.lastApplied m.commandIndex else p.lastApplied
  | none => p.lastApplied

structure Inv (p : Pipeline n C) : Prop where
  contiguous : p.rf.logs.Contiguous
  first_le : p.rf.logs.getFirstLog.index ≤ p.rf.horizon
  horizon_le : p.rf.horizon ≤ p.rf.commitIndex
  commit_le : p.rf.commitIndex ≤ p.rf.logs.getLastLog.index
  received : p.rf.applier.InStep p.rf.lastApplied p.ahead
  command : ∀ m, p.msg = some m → m.commandValid = true →
    m.commandIndex ≤ p.lastApplied ∨ m.commandIndex = p.lastApplied + 1
  installs : ∀ m ∈ p.rf.installs, m.commandValid = false

variable {p p' : Pipeline n C}

theorem lastApplied_le_ahead (p : Pipeline n C) : p.lastApplied ≤ p.ahead := by
  unfold ahead
  split
  · split_ifs
    · exact le_max_left _ _
    · exact le_rfl
  · exact le_rfl

/-- Steps of the server that leave the log, the counters and the applier alone. -/
theorem Inv.congr (h : p.Inv) {rf : Server n C} (hl : rf.logs = p.rf.logs)
    (hc : rf.commitIndex = p.rf.commitIndex) (ha : rf.lastApplied = p.rf.lastApplied)
    (happ : rf.applier = p.rf.applier) (hi : ∀ m ∈ rf.installs, m.commandValid = false) :
    Inv { p with rf } := by
  have hhor : rf.horizon = p.rf.horizon := by
    unfold Server.horizon
    rw [happ, ha]
  exact ⟨hl ▸ h.contiguous, by simpa only [hl, hhor] using h.first_le,
    by simpa only [hc, hhor] using h.horizon_le, by simpa only [hc, hl] using h.commit_le,
    happ ▸ ha ▸ h.received, h.command, hi⟩

theorem Inv.installSnapshot (h : p.Inv) (args : InstallSnapshotArgs) :
    Inv { p with rf := (p.rf.installSnapshot args).1 } := by
  have hcatch : ∀ T, (p.rf.catchUp T).logs = p.rf.logs ∧
      (p.rf.catchUp T).commitIndex = p.rf.commitIndex ∧
      (p.rf.catchUp T).lastApplied = p.rf.lastApplied ∧
      (p.rf.catchUp T).applier = p.rf.applier ∧ (p.rf.catchUp T).installs = p.rf.installs := by
    intro T
    rcases p.rf.catchUp_cases T with heq | ⟨-, heq⟩ <;> rw [heq] <;> exact ⟨rfl, rfl, rfl, rfl, rfl⟩
  obtain ⟨h₁, h₂, h₃, h₄, h₅⟩ := hcatch args.term
  rcases p.rf.installSnapshot_cases args with heq | heq | heq <;> rw [heq]
  · exact h
  · exact h.congr h₁ h₂ h₃ h₄ (h₅ ▸ h.installs)
  · refine h.congr h₁ h₂ h₃ h₄ fun m hm => ?_
    rcases List.mem_append.mp hm with hm | hm
    · exact h.installs m (h₅ ▸ hm)
    · obtain rfl := List.mem_singleton.mp hm
      rfl

theorem Inv.applierCopy (h : p.Inv) {rf : Server n C} (hs : p.rf.applierCopy = some rf) :
    Inv { p with rf } := by
  obtain ⟨hw, hlt, entries, hslice, rfl⟩ := Server.applierCopy_cases hs
  have hfirst := h.first_le
  have hrec := h.received
  rw [Server.horizon, hw] at hfirst
  rw [hw] at hrec
  have hahead : p.ahead = p.rf.lastApplied := hrec
  obtain ⟨hlen, hidx⟩ := h.contiguous.slice hslice hfirst
  refine ⟨h.contiguous, hfirst.trans (le_max_left _ _), (max_eq_right hlt.le).le, h.commit_le,
    Or.inl ⟨hahead.ge, ?_, ?_⟩, h.command, h.installs⟩
  · change p.ahead + entries.length = p.rf.commitIndex
    omega
  · change ∀ k e, entries[k]? = some e → e.index = p.ahead + 1 + k
    rwa [hahead]

theorem Inv.applierSend (h : p.Inv) (hmsg : p.msg = none) {rf : Server n C}
    (hs : p.rf.applierSend = some rf) : Inv { p with rf, msg := rf.applied.getLast? } := by
  obtain ⟨entry, rest, commitIndex, hw, rfl⟩ := Server.applierSend_cases hs
  have hahead : p.ahead = p.lastApplied := by rw [ahead, hmsg]
  have hrec := h.received
  have hfirst := h.first_le
  have hhor := h.horizon_le
  rw [hw, hahead] at hrec
  rw [Server.horizon, hw] at hfirst hhor
  have hlast : (p.rf.applied ++ [Server.commandMsg entry]).getLast? =
      some (Server.commandMsg entry) := by simp
  simp only [hlast]
  refine ⟨h.contiguous, hfirst, hhor, h.commit_le, hrec.send, fun m hm _ => ?_, h.installs⟩
  obtain rfl := Option.some.inj hm
  exact hrec.head

theorem Inv.applierUpdate (h : p.Inv) {rf : Server n C} (hs : p.rf.applierUpdate = some rf) :
    Inv { p with rf } := by
  obtain ⟨commitIndex, hw, rfl⟩ := Server.applierUpdate_cases hs
  have hrec := h.received
  have hfirst := h.first_le
  have hhor := h.horizon_le
  rw [hw] at hrec
  rw [Server.horizon, hw] at hfirst hhor
  exact ⟨h.contiguous, hfirst, hhor, h.commit_le, hrec.update, h.command, h.installs⟩

theorem Inv.offer (h : p.Inv) (hmsg : p.msg = none) {k : ℕ} {msg : ApplyMsg C}
    (hk : p.rf.installs[k]? = some msg) :
    Inv { p with rf := { p.rf with installs := p.rf.installs.eraseIdx k }, msg := some msg } := by
  have hvalid := h.installs msg (List.mem_of_getElem? hk)
  have hahead : ahead { p with
      rf := { p.rf with installs := p.rf.installs.eraseIdx k }, msg := some msg } = p.ahead := by
    simp [ahead, hvalid, hmsg]
  refine ⟨h.contiguous, h.first_le, h.horizon_le, h.commit_le, hahead ▸ h.received,
    fun m hm hv => ?_, fun m hm => h.installs m (List.mem_of_mem_eraseIdx hm)⟩
  obtain rfl := Option.some.inj hm
  simp [hvalid] at hv

theorem Inv.takeSnapshot (h : p.Inv) {index : ℕ} {data : List UInt8} {rf : Server n C}
    (hidx : index ≤ p.lastApplied) (hs : p.rf.snapshot index data = some rf) :
    Inv { p with rf } := by
  rcases Server.snapshot_cases hs with rfl | ⟨hlt, logs, hlogs, rfl⟩
  · exact h
  obtain ⟨hc, hf, hlast⟩ := h.contiguous.rebase hlogs logs.getFirstLog.term none
  have hfirst : ({ logs.getFirstLog with command := none } : Entry C) =
      ⟨index, logs.getFirstLog.term, none⟩ := by rw [← hf]
  have hreceived := p.lastApplied_le_ahead.trans h.received.received_le
  rw [hfirst]
  exact ⟨hc, hidx.trans hreceived, h.horizon_le, h.commit_le.trans hlast.ge, h.received, h.command,
    h.installs⟩

/-- The service asks Raft to install a snapshot. -/
theorem Inv.condInstallSnapshot (h : p.Inv) {term index : ℕ} {data : List UInt8}
    {accepted : Bool} {rf : Server n C} (hahead : p.ahead = p.lastApplied)
    (hs : p.rf.condInstallSnapshot term index data = some (rf, accepted)) :
    Inv { rf, lastApplied := if accepted then index else p.lastApplied, msg := none } := by
  rcases Server.condInstallSnapshot_cases hs with ⟨rfl, rfl⟩ | ⟨rfl, hlt, logs, hlogs, rfl⟩
  · exact ⟨h.contiguous, h.first_le, h.horizon_le, h.commit_le, hahead ▸ h.received, by simp,
      h.installs⟩
  have hc : logs.Contiguous ∧ logs.getFirstLog.index = index ∧ index ≤ logs.getLastLog.index := by
    obtain ⟨logs', hlogs', rfl⟩ := Option.map_eq_some_iff.mp hlogs
    split_ifs at hlogs' with hlast
    · obtain rfl := Option.some.inj hlogs'
      exact ⟨Log.Contiguous.fresh_setFirst _ _ _, rfl, le_rfl⟩
    · obtain ⟨hc, -, hlast'⟩ := h.contiguous.rebase hlogs' term none
      exact ⟨hc, rfl, by omega⟩
  have hrec := h.received.overtake h.horizon_le hlt
  have hhor : (Server.saveStateAndSnapshot
      { p.rf with logs, lastApplied := index, commitIndex := index } data).horizon = index := by
    have hle := h.horizon_le
    unfold Server.horizon at hle ⊢
    change (match p.rf.applier with
      | .waiting => index
      | .sending _ commitIndex => max index commitIndex) = index
    cases hw : p.rf.applier with
    | waiting => rfl
    | sending rest commitIndex =>
      rw [hw] at hle
      simp only [max_le_iff] at hle
      exact max_eq_left (by omega)
  exact ⟨hc.1, (hc.2.1.trans hhor.symm).le, hhor.le, hc.2.2, hrec, by simp, h.installs⟩

theorem Inv.process (h : p.Inv) (hs : p.process = some p') : p'.Inv := by
  obtain ⟨msg, hmsg, hs⟩ := Option.bind_eq_some_iff.mp hs
  have hrec := h.received
  split_ifs at hs with hcmd hle hsnap
  · obtain rfl := Option.some.inj hs
    have hahead : p.ahead = p.lastApplied := by simp [ahead, hmsg, hcmd, hle]
    rw [hahead] at hrec
    exact ⟨h.contiguous, h.first_le, h.horizon_le, h.commit_le, hrec, by simp, h.installs⟩
  · obtain rfl := Option.some.inj hs
    have hahead : p.ahead = msg.commandIndex := by
      simp only [ahead, hmsg, if_pos hcmd]
      omega
    rw [hahead] at hrec
    exact ⟨h.contiguous, h.first_le, h.horizon_le, h.commit_le, hrec, by simp, h.installs⟩
  · obtain ⟨⟨rf, accepted⟩, hcond, hs⟩ := Option.bind_eq_some_iff.mp hs
    obtain rfl := Option.some.inj hs
    exact h.condInstallSnapshot (by simp [ahead, hmsg, hcmd]) hcond

theorem Inv.step (h : p.Inv) {a : PipelineAction C} (ha : p.Assumed a) (hs : p.step a = some p') :
    p'.Inv := by
  cases a with
  | advance logs commitIndex =>
    obtain rfl := Option.some.inj hs
    obtain ⟨hc, hf, -, hle, hlast⟩ := ha
    exact ⟨hc, hf.trans_le h.first_le, h.horizon_le.trans hle, hlast, h.received, h.command,
      h.installs⟩
  | installSnapshot args =>
    obtain rfl := Option.some.inj hs
    exact h.installSnapshot args
  | applierCopy =>
    obtain ⟨rf, hrf, hs⟩ := Option.bind_eq_some_iff.mp hs
    obtain rfl := Option.some.inj hs
    exact h.applierCopy hrf
  | applierSend =>
    simp only [Pipeline.step] at hs
    split_ifs at hs with hnone
    obtain ⟨rf, hrf, hs⟩ := Option.bind_eq_some_iff.mp hs
    obtain rfl := Option.some.inj hs
    exact h.applierSend (Option.isNone_iff_eq_none.mp hnone) hrf
  | applierUpdate =>
    obtain ⟨rf, hrf, hs⟩ := Option.bind_eq_some_iff.mp hs
    obtain rfl := Option.some.inj hs
    exact h.applierUpdate hrf
  | offer k =>
    simp only [Pipeline.step] at hs
    split_ifs at hs with hnone
    obtain ⟨msg, hk, hs⟩ := Option.bind_eq_some_iff.mp hs
    obtain rfl := Option.some.inj hs
    exact h.offer (Option.isNone_iff_eq_none.mp hnone) hk
  | process => exact h.process hs
  | snapshot index data =>
    obtain ⟨rf, hrf, hs⟩ := Option.bind_eq_some_iff.mp hs
    obtain rfl := Option.some.inj hs
    exact h.takeSnapshot ha hrf

/-- The counter of the service never goes back. -/
theorem Inv.lastApplied_le (h : p.Inv) {a : PipelineAction C} (hs : p.step a = some p') :
    p.lastApplied ≤ p'.lastApplied := by
  cases a with
  | advance logs commitIndex =>
    obtain rfl := Option.some.inj hs
    exact le_rfl
  | installSnapshot args =>
    obtain rfl := Option.some.inj hs
    exact le_rfl
  | applierCopy | applierUpdate | snapshot index data =>
    obtain ⟨rf, -, hs⟩ := Option.bind_eq_some_iff.mp hs
    obtain rfl := Option.some.inj hs
    exact le_rfl
  | applierSend | offer k =>
    simp only [Pipeline.step] at hs
    split_ifs at hs
    obtain ⟨x, -, hs⟩ := Option.bind_eq_some_iff.mp hs
    obtain rfl := Option.some.inj hs
    exact le_rfl
  | process =>
    obtain ⟨msg, -, hs⟩ := Option.bind_eq_some_iff.mp hs
    split_ifs at hs with hcmd hle hsnap
    · obtain rfl := Option.some.inj hs
      exact le_rfl
    · obtain rfl := Option.some.inj hs
      exact (not_le.mp hle).le
    · obtain ⟨⟨rf, accepted⟩, hcond, hs⟩ := Option.bind_eq_some_iff.mp hs
      obtain rfl := Option.some.inj hs
      rcases Server.condInstallSnapshot_cases hcond with ⟨rfl, -⟩ | ⟨rfl, hlt, -⟩
      · exact le_rfl
      · -- an accepted snapshot is above the commit index, so above all that was received
        have := p.lastApplied_le_ahead
        have := h.received.received_le
        have := h.horizon_le
        change p.lastApplied ≤ msg.snapshotIndex
        omega

/-- Runs from a new server and a new service whose steps are as assumed. No run starts with a
restart from a snapshot: then the service counts from 0 again, while the first command it receives
is the one after the snapshot. -/
structure Run (r : ℕ → Pipeline n C) : Prop where
  init : r 0 = {}
  steps : Basis.IsRun step Assumed r

theorem inv_init : Inv ({} : Pipeline n C) where
  contiguous := ⟨_, LogView.fresh⟩
  first_le := le_rfl
  horizon_le := le_rfl
  commit_le := le_rfl
  received := rfl
  command := by simp
  installs := by
    intro m hm
    cases hm

theorem Run.inv {r : ℕ → Pipeline n C} (hr : Run r) (k : ℕ) : (r k).Inv :=
  hr.steps.invariant (I := Inv) (fun _ _ _ ha hs h => h.step ha hs) (hr.init ▸ inv_init) k

theorem Run.lastApplied_le {r : ℕ → Pipeline n C} (hr : Run r) {k l : ℕ} (hkl : k ≤ l) :
    (r k).lastApplied ≤ (r l).lastApplied :=
  hr.steps.monotone (R := fun p p' => p.lastApplied ≤ p'.lastApplied) (fun _ => le_rfl)
    (fun h h' => h.trans h') (fun k ⟨_, _, hs⟩ => (hr.inv k).lastApplied_le hs) hkl

end Pipeline

/-- The apply pipeline, from a new server on and in any interleaving: when the applier copies a
batch, the bounds of its slice lie within the log; a command that the service has received is one
it discards or the next one; and its counter never goes back. -/
theorem apply_pipeline {r : ℕ → Pipeline n C} (hr : Pipeline.Run r) (k : ℕ) :
    ((r k).rf.applier = .waiting → (r k).rf.lastApplied < (r k).rf.commitIndex →
      (0 : ℤ) ≤ (r k).rf.lastApplied - (r k).rf.logs.getFirstLog.index + 1 ∧
      ((r k).rf.lastApplied : ℤ) - (r k).rf.logs.getFirstLog.index + 1 ≤
        (r k).rf.commitIndex - (r k).rf.logs.getFirstLog.index + 1 ∧
      ((r k).rf.commitIndex : ℤ) - (r k).rf.logs.getFirstLog.index + 1 ≤
        (r k).rf.logs.entries.length) ∧
    (∀ m, (r k).msg = some m → m.commandValid = true →
      m.commandIndex ≤ (r k).lastApplied ∨ m.commandIndex = (r k).lastApplied + 1) ∧
    ∀ l, k ≤ l → (r k).lastApplied ≤ (r l).lastApplied := by
  have h := hr.inv k
  refine ⟨fun hw hlt => ?_, h.command, fun l hl => hr.lastApplied_le hl⟩
  have hfirst := h.first_le
  rw [Server.horizon, hw] at hfirst
  obtain ⟨log, hlog⟩ := h.contiguous
  have hlast := hlog.getLastLog_index
  have hlen := hlog.length
  have hcommit := h.commit_le
  have : (r k).rf.logs.getFirstLog.index ≤ (r k).rf.lastApplied := hfirst
  omega

/-- Two entries are committed; the service has applied the first one and received the second. -/
def pipelineRun : List (PipelineAction Bool) :=
  [.advance (Log.fresh.append [⟨1, 1, some true⟩, ⟨2, 1, some false⟩]) 2, .applierCopy,
    .applierSend, .process, .applierSend]

theorem apply_pipeline_pipelineRun :
    ∃ r : ℕ → Pipeline 3 Bool, Pipeline.Run r ∧
      (r 5).msg = some (Server.commandMsg ⟨2, 1, some false⟩) ∧ (r 5).lastApplied = 1 ∧
      (2 ≤ (r 5).lastApplied ∨ 2 = (r 5).lastApplied + 1) :=
  have hlog : (Log.fresh.append [⟨1, 1, some true⟩, ⟨2, 1, some false⟩] : Log Bool).Contiguous :=
    Log.Contiguous.append ⟨_, LogView.fresh⟩ fun k e hk => by
      match k with
      | 0 => cases hk; rfl
      | 1 => cases hk; rfl
      | k + 2 => simp at hk
  have hr : Pipeline.Run (Basis.trace Pipeline.step ({} : Pipeline 3 Bool) pipelineRun) :=
    ⟨Basis.trace_zero _ _, Basis.trace_isRun ⟨⟨hlog, rfl, fun i hi => by
      obtain rfl : i = 0 := Nat.le_zero.mp hi
      rfl, by decide, by decide⟩, trivial, trivial, trivial, trivial, trivial⟩⟩
  ⟨_, hr, by decide, by decide, (apply_pipeline hr 5).2.1 _ rfl rfl⟩

end RaftLabs.Raft
