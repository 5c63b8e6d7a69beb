import RaftLabs.Kvraft.ExactlyOnce

/-! Snapshots and restarts of kvraft: whatever mixture of commands, stale commands, snapshots and
crashes its applier sees, a server that has processed a log up to an index holds the state of the
plain fold. -/
namespace RaftLabs.Kvraft
open Basis

/-- The encoding of the state of a server in its snapshots, assumed to round-trip. -/
structure Codec (Bytes : Type) where
  encode : Data → Bytes
  decode : Bytes → Data
  round_trip : ∀ l, decode (encode (replayCommands l)) = replayCommands l

variable {ι Bytes : Type}

/-- A server instance: `processed` is the index through which it has processed the log, by
commands or by a snapshot, and `snapshot` what its persister holds. -/
structure Machine (Bytes : Type) where
  kv : KVServer := {}
  processed : ℕ := 0
  snapshot : Option (ℕ × Bytes) := none

namespace Machine

/-- `logs[0].Index`. -/
def snapshotIndex (m : Machine Bytes) : ℕ := (m.snapshot.map Prod.fst).getD 0

/-- `taskSnapshot`; Raft ignores a snapshot that is not above the last one. -/
def taskSnapshot (codec : Codec Bytes) (m : Machine Bytes) (index : ℕ) : Machine Bytes :=
  if index ≤ m.snapshotIndex then m
  else { m with snapshot := some (index, codec.encode m.kv.data) }

/-- The applier on the command message for `index`; an outdated message is discarded. -/
def command (codec : Codec Bytes) (m : Machine Bytes) (index : ℕ) (c : CommandArgs)
    (notify needSnapshot : Bool) : Option (Machine Bytes) := do
  let kv ← m.kv.applyMsg index c notify
  if index ≤ m.kv.lastApplied then some m
  else
    let m := { m with kv, processed := max m.processed index }
    some (if needSnapshot then m.taskSnapshot codec index else m)

/-- The applier on a snapshot that `CondInstallSnapshot` accepts: Raft persists it and the service
restores it. -/
def install (codec : Codec Bytes) (m : Machine Bytes) (index : ℕ) (bytes : Bytes) :
    Machine Bytes :=
  { kv := m.kv.applySnapshot index (codec.decode bytes)
    processed := index
    snapshot := some (index, bytes) }

/-- A crash and `StartKVServer` with the persisted snapshot. -/
def restart (codec : Codec Bytes) (m : Machine Bytes) : Machine Bytes :=
  { kv := .startKVServer (m.snapshot.map fun (index, bytes) => (index, codec.decode bytes))
    processed := m.snapshotIndex
    snapshot := m.snapshot }

end Machine

/-- The servers of a cluster, and the snapshots that any of them has ever persisted and that may
still be on their way to others. -/
structure Machines (ι Bytes : Type) where
  servers : ι → Machine Bytes := fun _ => {}
  taken : List (ℕ × Bytes) := []

inductive MachineAction (ι : Type) where
  | command (s : ι) (index : ℕ) (notify needSnapshot : Bool)
  | install (s : ι) (k : ℕ)
  | restart (s : ι)

/-- One step of the servers over the committed log `l`, whose first command has index 1. Raft
hands over the next command or a stale one, and accepts a snapshot only above its commit index. -/
def Machines.step [DecidableEq ι] (codec : Codec Bytes) (l : List CommandArgs)
    (sys : Machines ι Bytes) : MachineAction ι → Option (Machines ι Bytes)
  | .command s index notify needSnapshot =>
    if 1 ≤ index ∧ index ≤ (sys.servers s).processed + 1 then do
      let c ← l[index - 1]?
      let m ← (sys.servers s).command codec index c notify needSnapshot
      some ⟨Function.update sys.servers s m, sys.taken ++ m.snapshot.toList⟩
    else none
  | .install s k => do
    let (index, bytes) ← sys.taken[k]?
    if (sys.servers s).processed < index then
      some { sys with
        servers := Function.update sys.servers s ((sys.servers s).install codec index bytes) }
    else none
  | .restart s =>
    some { sys with servers := Function.update sys.servers s ((sys.servers s).restart codec) }

/-- A command of the log leaves the state after the log as it is. -/
theorem applyCommand_of_mem {l : List CommandArgs} {c : CommandArgs} (h : c ∈ l) :
    ((replayCommands l).applyCommand c).1 = replayCommands l := by
  by_cases hop : c.op = .get
  · rw [Data.applyCommand_of_get hop]
  · rw [Data.applyCommand_of_skips (skips_of_mem h hop)]

theorem replayCommands_take_succ {l : List CommandArgs} {k : ℕ} {c : CommandArgs}
    (h : l[k]? = some c) :
    replayCommands (l.take (k + 1)) = ((replayCommands (l.take k)).applyCommand c).1 := by
  rw [List.take_add_one, h]
  exact replayCommands_append_singleton _ _

/-- The applier on a command message: it is discarded or applied. -/
theorem KVServer.applyMsg_cases {kv kv' : KVServer} {index : ℕ} {c : CommandArgs} {notify : Bool}
    (h : kv.applyMsg index c notify = some kv') :
    (index ≤ kv.lastApplied ∧ kv' = kv) ∨ (kv.lastApplied < index ∧ kv'.lastApplied = index ∧
      kv'.data = (kv.data.applyCommand c).1) := by
  simp only [KVServer.applyMsg] at h
  split_ifs at h with hle hnotify
  · exact Or.inl ⟨hle, (Option.some.inj h).symm⟩
  · right
    obtain ⟨ch, -, h⟩ := Option.bind_eq_some_iff.mp h
    split_ifs at h
    obtain rfl := Option.some.inj h
    refine ⟨by omega, ?_⟩
    unfold KVServer.getNotifyChan
    split <;> exact ⟨rfl, rfl⟩
  · obtain rfl := Option.some.inj h
    exact Or.inr ⟨by omega, rfl, rfl⟩

section
variable {codec : Codec Bytes} {l : List CommandArgs} {m m' : Machine Bytes}

/-- A snapshot holds the state of the fold at its index. -/
def Encodes (codec : Codec Bytes) (l : List CommandArgs) (x : ℕ × Bytes) : Prop :=
  codec.decode x.2 = replayCommands (l.take x.1)

/-- The state of a server is that of the fold. Its counter stands at the index it has processed,
or it has restarted and has seen nothing but commands that its snapshot covers. -/
structure Machine.Inv (codec : Codec Bytes) (l : List CommandArgs) (m : Machine Bytes) : Prop where
  data : m.kv.data = replayCommands (l.take m.processed)
  snapshot : ∀ x, m.snapshot = some x → Encodes codec l x
  counter : m.kv.lastApplied = m.processed ∨
    (m.kv.lastApplied ≤ m.processed ∧ m.processed ≤ m.snapshotIndex)

theorem Machine.Inv.taskSnapshot (h : m.Inv codec l) {index : ℕ}
    (hidx : index ≤ m.snapshotIndex ∨ index = m.processed)
    (hcounter : m.kv.lastApplied = m.processed ∨ m.processed ≤ m.snapshotIndex) :
    (m.taskSnapshot codec index).Inv codec l := by
  unfold Machine.taskSnapshot
  split_ifs with hle
  · exact h
  · obtain rfl := hidx.resolve_left hle
    refine ⟨h.data, fun x hx => ?_, Or.inl (hcounter.resolve_right hle)⟩
    obtain rfl := Option.some.inj hx
    change codec.decode (codec.encode m.kv.data) = _
    rw [h.data, codec.round_trip]

theorem Machine.Inv.command (h : m.Inv codec l) {index : ℕ} {c : CommandArgs}
    {notify needSnapshot : Bool} (hpos : 1 ≤ index) (hle : index ≤ m.processed + 1)
    (hc : l[index - 1]? = some c)
    (hs : m.command codec index c notify needSnapshot = some m') : m'.Inv codec l := by
  obtain ⟨kv, hkv, hs⟩ := Option.bind_eq_some_iff.mp hs
  by_cases hold : index ≤ m.kv.lastApplied
  · rw [if_pos hold] at hs
    obtain rfl := Option.some.inj hs
    exact h
  rw [if_neg hold] at hs
  rcases KVServer.applyMsg_cases hkv with ⟨hold', -⟩ | ⟨-, hlast, hdata⟩
  · exact absurd hold' hold
  have hnew : Machine.Inv codec l { m with kv, processed := max m.processed index } ∧
      (index ≤ m.snapshotIndex ∨ index = max m.processed index) := by
    rcases Nat.lt_or_ge m.processed index with hnext | hstale
    · -- the next command
      obtain rfl : index = m.processed + 1 := by omega
      rw [max_eq_right hnext.le]
      refine ⟨⟨?_, h.snapshot, Or.inl hlast⟩, Or.inr rfl⟩
      change kv.data = replayCommands (l.take (m.processed + 1))
      rw [hdata, h.data, replayCommands_take_succ (k := m.processed) hc]
    · -- a stale command after a restart
      have hcounter := h.counter
      rw [max_eq_left hstale]
      have hsnap : m.processed ≤ m.snapshotIndex := by omega
      refine ⟨⟨?_, h.snapshot, Or.inr ⟨hlast.trans_le hstale, hsnap⟩⟩, Or.inl (by omega)⟩
      have hmem : c ∈ l.take m.processed :=
        List.mem_of_getElem? ((List.getElem?_take_of_lt (by omega)).trans hc)
      change kv.data = replayCommands (l.take m.processed)
      rw [hdata, h.data, applyCommand_of_mem hmem]
  obtain rfl := Option.some.inj hs
  split_ifs
  · exact hnew.1.taskSnapshot hnew.2 (hnew.1.counter.imp_right And.right)
  · exact hnew.1

theorem Machine.Inv.install {index : ℕ} {bytes : Bytes} (hx : Encodes codec l (index, bytes)) :
    (m.install codec index bytes).Inv codec l where
  data := hx
  snapshot x h := by
    obtain rfl := Option.some.inj h
    exact hx
  counter := Or.inl rfl

theorem Machine.Inv.restart (h : m.Inv codec l) : (m.restart codec).Inv codec l where
  data := by
    cases hs : m.snapshot with
    | none => simp [Machine.restart, Machine.snapshotIndex, KVServer.startKVServer, hs,
        replayCommands]
    | some x =>
      have hx : codec.decode x.2 = replayCommands (l.take x.1) := h.snapshot x hs
      simpa [Machine.restart, Machine.snapshotIndex, KVServer.startKVServer, hs] using hx
  snapshot := h.snapshot
  counter := Or.inr ⟨Nat.zero_le _, le_rfl⟩

structure Machines.Inv (codec : Codec Bytes) (l : List CommandArgs) (sys : Machines ι Bytes) :
    Prop where
  servers : ∀ s, (sys.servers s).Inv codec l
  taken : ∀ x ∈ sys.taken, Encodes codec l x

theorem Machines.Inv.set [DecidableEq ι] {sys : Machines ι Bytes} (h : sys.Inv codec l) {s : ι}
    (hm : m.Inv codec l) (i : ι) : (Function.update sys.servers s m i).Inv codec l := by
  by_cases hi : i = s
  · subst hi
    rwa [Function.update_self]
  · rw [Function.update_of_ne hi]
    exact h.servers i

theorem Machines.Inv.step [DecidableEq ι] {sys sys' : Machines ι Bytes} (h : sys.Inv codec l)
    {a : MachineAction ι} (hs : sys.step codec l a = some sys') : sys'.Inv codec l := by
  cases a with
  | command s index notify needSnapshot =>
    simp only [Machines.step] at hs
    split_ifs at hs with hidx
    obtain ⟨c, hc, hs⟩ := Option.bind_eq_some_iff.mp hs
    obtain ⟨m, hm, hs⟩ := Option.bind_eq_some_iff.mp hs
    obtain rfl := Option.some.inj hs
    have hinv := (h.servers s).command hidx.1 hidx.2 hc hm
    refine ⟨h.set hinv, fun x hx => ?_⟩
    rcases List.mem_append.mp hx with hx | hx
    · exact h.taken x hx
    · exact hinv.snapshot x (Option.mem_toList.mp hx)
  | install s k =>
    obtain ⟨⟨index, bytes⟩, hk, hs⟩ := Option.bind_eq_some_iff.mp hs
    simp only at hs
    split_ifs at hs
    obtain rfl := Option.some.inj hs
    exact ⟨h.set (.install (h.taken _ (List.mem_of_getElem? hk))), h.taken⟩
  | restart s =>
    obtain rfl := Option.some.inj hs
    exact ⟨h.set (h.servers s).restart, h.taken⟩

theorem Machines.inv_init : Machines.Inv codec l ({} : Machines ι Bytes) where
  servers _ := ⟨rfl, by simp, Or.inl rfl⟩
  taken := by simp

/-- Replay equals snapshot recovery: for every committed log and every schedule of in-order and
stale commands, own snapshots, snapshots of other servers and crashes, a server that has processed
everything through an index holds the state that results from applying the log up to there to the
empty state. -/
theorem replay_eq_recovery [DecidableEq ι] (codec : Codec Bytes) (l : List CommandArgs)
    {r : ℕ → Machines ι Bytes} (hinit : r 0 = {})
    (hr : IsRun (Machines.step codec l) (fun _ _ => True) r) (k : ℕ) (s : ι) :
    ((r k).servers s).kv.data = replayCommands (l.take ((r k).servers s).processed) :=
  ((hr.invariant (I := Machines.Inv codec l) (fun _ _ _ _ hs h => h.step hs)
    (hinit ▸ Machines.inv_init) k).servers s).data

end

/-- Server `s` applies the first append, takes a snapshot, applies the second one and crashes; a
stale copy of the first command then changes nothing. Server `t` takes over the snapshot. -/
def recoveryRun (s t : ι) : List (MachineAction ι) :=
  [.command s 1 false true, .command s 2 false false, .restart s, .command s 1 false true,
    .install t 0, .command s 2 false false]

theorem replay_eq_recovery_recoveryRun :
    ∃ r : ℕ → Machines (Fin 2) Data, r 0 = {} ∧
      IsRun (Machines.step ⟨id, id, fun _ => rfl⟩ retriedLog) (fun _ _ => True) r ∧
      ((r 6).servers 0).processed = 2 ∧ ((r 6).servers 1).processed = 1 ∧
      ((r 6).servers 0).kv.data = replayCommands (retriedLog.take 2) ∧
      ((r 6).servers 1).kv.data = replayCommands (retriedLog.take 1) :=
  have hr : IsRun (Machines.step ⟨id, id, fun _ => rfl⟩ retriedLog) (fun _ _ => True)
      (trace (Machines.step ⟨id, id, fun _ => rfl⟩ retriedLog) ({} : Machines (Fin 2) Data)
        (recoveryRun 0 1)) := trace_isRun (by simp [Guarded, recoveryRun])
  have hinit : trace (Machines.step ⟨id, id, fun _ => rfl⟩ retriedLog)
      ({} : Machines (Fin 2) Data) (recoveryRun 0 1) 0 = {} := trace_zero _ _
  ⟨_, hinit, hr, by decide, by decide, replay_eq_recovery _ _ hinit hr 6 0,
    replay_eq_recovery _ _ hinit hr 6 1⟩

end RaftLabs.Kvraft
