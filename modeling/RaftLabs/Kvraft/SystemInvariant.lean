import RaftLabs.Kvraft.Invariant

/-! The invariant of the kvraft service and its preservation by every step that does not hand
out an index a second time. -/
namespace RaftLabs.Kvraft
open Basis Basis.Ledger

variable {n : ℕ} {g g' : Ledger (Fin n) (Option CommandArgs)} {s : Fin n} {r r' : Replica}

/-- What a server instance knows about the replicated log. -/
structure ReplicaInv (g : Ledger (Fin n) (Option CommandArgs)) (s : Fin n) (r : Replica) :
    Prop where
  leads : r.isLeader = true → g.leader (g.term s) = some s
  data : Replays g (r.applied + 1) r.kv.data
  lastApplied : r.kv.lastApplied ≤ r.applied
  snapshot : ∀ {i d}, r.snapshot = some (i, d) → Replays g (i + 1) d
  chans : r.kv.Chans fun i reply => i ≤ r.applied ∧ Produced g s i reply
  started : ∀ {h index T}, h ∈ r.handlers → h.phase = .started index T →
    Started g s h.args h.since index T
  waiting : ∀ {h index T ch}, h ∈ r.handlers → h.phase = .waiting index T ch →
    Started g s h.args h.since index T ∧ r.kv.HasChan ch index

theorem ReplicaInv.mono (h : ReplicaInv g s r) (hi : g.Inv) (gr : Grows g g')
    (hleads : r.isLeader = true → g'.leader (g'.term s) = some s)
    (hfresh : ∀ {c index T}, c ∈ r.handlers → c.index? = some index → Fresh g s index T →
      Fresh g' s index T) : ReplicaInv g' s r where
  leads := hleads
  data := h.data.mono hi gr
  lastApplied := h.lastApplied
  snapshot hs := (h.snapshot hs).mono hi gr
  chans := h.chans.imp fun _ _ hp => ⟨hp.1, hp.2.mono hi gr⟩
  started hc hp := by
    have hst := h.started hc hp
    exact hst.mono hi gr (hfresh hc (by simp [Handler.index?, hp]) hst.fresh)
  waiting hc hp := by
    obtain ⟨hst, hch⟩ := h.waiting hc hp
    exact ⟨hst.mono hi gr (hfresh hc (by simp [Handler.index?, hp]) hst.fresh), hch⟩

/-- Fewer calls in progress, or others that have not reached `Start`. -/
theorem ReplicaInv.setHandlers (h : ReplicaInv g s r) {l : List Handler}
    (hl : ∀ c ∈ l, c ∈ r.handlers ∨ c.phase = .checked) :
    ReplicaInv g s { r with handlers := l } :=
  { h with
    started := fun {c _ _} hc hp => by
      rcases hl c hc with hc | hc
      · exact h.started hc hp
      · rw [hc] at hp
        cases hp
    waiting := fun {c _ _ _} hc hp => by
      rcases hl c hc with hc | hc
      · exact h.waiting hc hp
      · rw [hc] at hp
        cases hp }

/-- Another state of the channels. -/
theorem ReplicaInv.setChans (h : ReplicaInv g s r) {kv : KVServer}
    (hc : kv.Chans fun i reply => i ≤ r.applied ∧ Produced g s i reply)
    (hhas : ∀ {ch i}, r.kv.HasChan ch i → kv.HasChan ch i) (hd : kv.data = r.kv.data)
    (hla : kv.lastApplied = r.kv.lastApplied) : ReplicaInv g s { r with kv } :=
  { h with
    data := hd ▸ h.data
    lastApplied := hla ▸ h.lastApplied
    chans := hc
    waiting := fun hm hp => (h.waiting hm hp).imp_right hhas }

/-- The applier on the next committed entry of the server. -/
theorem ReplicaInv.applyMsg (h : ReplicaInv g s r) (hi : g.Inv) {t : ℕ} {command : CommandArgs}
    {kv : KVServer} (hc : g.Committed (g.term s) (r.applied + 1) ⟨t, some command⟩)
    (hs : r.kv.applyMsg (r.applied + 1) command (r.isLeader && t = g.term s) = some kv)
    {snapshot : Option (ℕ × Data)}
    (hsnap : snapshot = some (r.applied + 1, kv.data) ∨ snapshot = r.snapshot) :
    ReplicaInv g s { r with kv, applied := r.applied + 1, snapshot } := by
  have hla := h.lastApplied
  simp only [KVServer.applyMsg] at hs
  rw [if_neg (by omega)] at hs
  have hdata := h.data.succ hi hc
  have hchans : ({ r.kv with
      lastApplied := r.applied + 1
      data := (r.kv.data.applyCommand command).1 } : KVServer).Chans fun i reply =>
        i ≤ r.applied + 1 ∧ Produced g s i reply :=
    ⟨h.chans.mapped, fun hm hb => (h.chans.buffered hm hb).imp_left fun h => h.trans (by omega)⟩
  -- what remains to be shown about the channels and the state after the notification
  have hmain : ∀ kv' : KVServer, kv'.data = (r.kv.data.applyCommand command).1 →
      kv'.lastApplied = r.applied + 1 →
      (kv'.Chans fun i reply => i ≤ r.applied + 1 ∧ Produced g s i reply) →
      (∀ {ch i}, r.kv.HasChan ch i → kv'.HasChan ch i) → kv' = kv →
      ReplicaInv g s { r with kv, applied := r.applied + 1, snapshot } := by
    rintro kv' hd hla' hch hhas rfl
    exact
      { h with
        data := by
          rw [hd]
          exact hdata
        lastApplied := hla'.le
        snapshot := fun {i d} he => by
          rcases hsnap with rfl | rfl
          · obtain ⟨rfl, rfl⟩ := Prod.mk.inj (Option.some.inj he)
            rw [hd]
            exact hdata
          · exact h.snapshot he
        chans := hch
        waiting := fun hm hp => (h.waiting hm hp).imp_right hhas }
  split_ifs at hs with hn
  · simp only [Bool.and_eq_true, decide_eq_true_eq] at hn
    obtain ⟨hlead, rfl⟩ := hn
    obtain ⟨hch, hnew, hold, hd, hla'⟩ := KVServer.getNotifyChan_spec hchans (r.applied + 1)
    have hprod : Produced g s (r.applied + 1) (r.kv.data.applyCommand command).2 :=
      ⟨_, command, _, hc, h.leads hlead, h.data, rfl⟩
    obtain ⟨hch', hold', hd', hla''⟩ := KVServer.send_spec hs hch hnew ⟨le_rfl, hprod⟩
    exact hmain kv (hd'.trans hd) (hla''.trans hla') hch' (fun h => hold' (hold h)) rfl
  · exact hmain _ rfl rfl hchans (fun h => h) (Option.some.inj hs)

namespace System

variable {sys sys' : System n}

/-- The answer is justified, and a write is answered `OK`. -/
def Sound (sys : System n) (a : Answer) : Prop :=
  sys.Justified a ∧ (a.args.op ≠ .get → a.reply = ⟨.ok, ""⟩)

structure Inv (sys : System n) : Prop where
  raft : sys.raft.Inv
  committed_le : ∀ T, sys.raft.commit T ≤ sys.committed
  committed_eq : ∃ T, sys.raft.commit T = sys.committed
  fresh : Replays sys.raft 1 {}
  replicas : ∀ s, ReplicaInv sys.raft s (sys.replicas s)
  snapshots : ∀ {i d}, (i, d) ∈ sys.snapshots → Replays sys.raft (i + 1) d
  entered : ∀ {T i a}, (sys.raft.llog T)[i]? = some ⟨T, some a⟩ →
    ∃ c, sys.arrived a = some c ∧ (c ≤ i ∨ Displaced sys.raft i T)
  called : ∀ {s h}, h ∈ (sys.replicas s).handlers →
    h.since ≤ sys.committed ∧ ∃ c, sys.arrived h.args = some c
  arrived_le : ∀ {a c}, sys.arrived a = some c → c ≤ sys.committed ∧ a ∈ sys.issued
  arrived_order : ∀ {a b c}, sys.arrived a = some c → b ∈ sys.issued →
    b.clientId = a.clientId → b.commandId < a.commandId →
    ∃ ans ∈ sys.answers, ans.args = b ∧ ans.Final ∧ ans.upTo < c
  issued : ∀ {a}, a ∈ sys.issued →
    (a.commandId < (sys.clerks a.clientId).commandId ∧ sys.Answered a) ∨
      (sys.clerks a.clientId).pending = some a
  pending : ∀ {c a}, (sys.clerks c).pending = some a →
    a.clientId = c ∧ a.commandId = (sys.clerks c).commandId
  unique : ∀ {a b}, a ∈ sys.issued → b ∈ sys.issued → a.clientId = b.clientId →
    a.commandId = b.commandId → a = b
  answers : ∀ {a}, a ∈ sys.answers → a.upTo < sys.committed ∧
    (a.args.op ≠ .get → sys.arrived a.args = some a.since) ∧ (a.Final → sys.Sound a)

theorem AppliedAt.mono {index : ℕ} {args : CommandArgs} {before : Data}
    (h : sys.AppliedAt index args before) (hi : sys.raft.Inv) (gr : Grows sys.raft sys'.raft) :
    sys'.AppliedAt index args before := by
  obtain ⟨T, t, hc, hx, rfl⟩ := h
  have hlen := hi.commit_le T
  refine ⟨T, t, lt_of_lt_of_le hc (gr.commit T), ?_, ?_⟩
  · rw [prefix_getElem? (gr.llog T) (by omega), hx]
  · rw [gr.take_llog (by omega)]

theorem Sound.mono {a : Answer} (h : sys.Sound a) (hi : sys.raft.Inv)
    (gr : Grows sys.raft sys'.raft) : sys'.Sound a := by
  obtain ⟨⟨index, before, h₁, h₂, happ, hrest⟩, hwrite⟩ := h
  exact ⟨⟨index, before, h₁, h₂, happ.mono hi gr, hrest⟩, hwrite⟩

/-- A committed command arrived before its position was committed. -/
theorem Inv.arrived_of_committed (h : sys.Inv) {T₀ i t : ℕ} {a : CommandArgs}
    (hc : sys.raft.Committed T₀ i ⟨t, some a⟩) : ∃ c, sys.arrived a = some c ∧ c ≤ i := by
  obtain ⟨U, -, hU, hx⟩ := id hc
  have hlen := h.raft.commit_le U
  have hp := (h.raft.llog_chain hx).2
  have hx' : (sys.raft.llog t)[i]? = some ⟨t, some a⟩ := by
    rw [prefix_getElem? hp (by simp; omega), List.getElem?_take_of_lt (by omega), hx]
  obtain ⟨c, ha, hle⟩ := h.entered hx'
  exact ⟨c, ha, hle.resolve_right (not_displaced h.raft hc)⟩

/-- A request that is skipped as a duplicate has been applied before: it is the last write of
its client, or an earlier one, which was answered before the last one was issued. -/
theorem Inv.skipped_applied (h : sys.Inv) {k c : ℕ} {d : Data} {args : CommandArgs}
    (hd : Replays sys.raft k d) (hs : d.Skips args) (ha : sys.arrived args = some c) :
    ∃ i before, c ≤ i ∧ i < k ∧ sys.AppliedAt i args before ∧ ¬ before.Skips args := by
  obtain ⟨T, hk, rfl⟩ := hd
  obtain ⟨hop, hdup⟩ := hs
  unfold Data.isDuplicatedRequest at hdup
  cases hinfo : (replay ((sys.raft.llog T).take k)).lastOperations args.clientId with
  | none => simp [hinfo] at hdup
  | some info =>
    simp only [hinfo, decide_eq_true_eq] at hdup
    obtain ⟨p, ⟨t, v⟩, b, hx, hv, hbop, hskip, hclient, hid, -⟩ := replay_lastOperations hinfo
    obtain rfl : v = some b := hv
    have hpk : p < k := by
      have := (List.getElem?_eq_some_iff.mp hx).1
      simp only [List.length_take] at this
      omega
    rw [List.getElem?_take_of_lt hpk] at hx
    rw [List.take_take, min_eq_left hpk.le] at hskip
    obtain ⟨cb, hb, hcb⟩ := h.arrived_of_committed ⟨T, le_rfl, lt_of_lt_of_le hpk hk, hx⟩
    rcases Nat.eq_or_lt_of_le hdup with heq | hlt
    · obtain rfl : b = args := h.unique (h.arrived_le hb).2 (h.arrived_le ha).2 hclient
        (hid.trans heq.symm)
      rw [ha] at hb
      obtain rfl := Option.some.inj hb
      exact ⟨p, _, hcb, hpk, ⟨T, t, lt_of_lt_of_le hpk hk, hx, rfl⟩, hskip⟩
    · obtain ⟨ans, hans, rfl, hfin, hup⟩ :=
        h.arrived_order hb (h.arrived_le ha).2 hclient.symm (hid ▸ hlt)
      obtain ⟨-, hsince, hjust⟩ := h.answers hans
      obtain ⟨⟨i, before, h₁, h₂, happ, hns, -⟩, -⟩ := hjust hfin
      rw [hsince hop] at ha
      obtain rfl := Option.some.inj ha
      exact ⟨i, before, h₁, by omega, happ, hns⟩

/-- The reply to a committed entry, applied in the right state, makes a sound answer. -/
theorem Inv.sound_of_applied (h : sys.Inv) {T₀ i t since upTo : ℕ} {args : CommandArgs}
    {d : Data} (hc : sys.raft.Committed T₀ i ⟨t, some args⟩) (hd : Replays sys.raft i d)
    (hi : i ≤ upTo) (hsince : since ≤ i) {c : ℕ} (hc' : sys.arrived args = some c) :
    sys.Sound ⟨args, (d.applyCommand args).2, if args.op = .get then since else c, upTo⟩ := by
  refine ⟨?_, fun hop => hd.applyCommand_reply hop⟩
  by_cases hskip : d.Skips args
  · obtain ⟨j, before, hj, hlt, happ, hns⟩ := h.skipped_applied hd hskip hc'
    refine ⟨j, before, ?_, hlt.le.trans hi, happ, hns, fun hop => absurd hop hskip.1⟩
    rw [if_neg hskip.1]
    exact hj
  · obtain ⟨c₁, hc₁, hle⟩ := h.arrived_of_committed hc
    obtain rfl := Option.some.inj (hc'.symm.trans hc₁)
    obtain ⟨U, -, hU, hx⟩ := id hc
    obtain ⟨T, hT, rfl⟩ := hd
    refine ⟨i, _, ?_, hi, ⟨U, t, hU, hx, ?_⟩, hskip, fun hop => ?_⟩
    · split_ifs
      · exact hsince
      · exact hle
    · rw [take_committed h.raft hT hU.le]
    · change args.op = .get at hop
      simp only [Data.applyCommand, if_neg hskip]
      rw [if_neg (by simp [hop])]
      simp only [Data.applyToStateMachine, hop]

end System

end RaftLabs.Kvraft
