import RaftLabs.Kvraft.Server

/-! What the parts of the service know about the replicated log: the state of a server is the
replay of a committed prefix, a reply in a channel belongs to the entry it was sent for, and a
call in progress knows the entry that `Start` has made for it. -/
namespace RaftLabs.Kvraft
open Basis Basis.Ledger

variable {n : ℕ} {g g' : Ledger (Fin n) (Option CommandArgs)} {s : Fin n}

/-- `d` is the state after the first `k` committed items. -/
def Replays (g : Ledger (Fin n) (Option CommandArgs)) (k : ℕ) (d : Data) : Prop :=
  ∃ T, k ≤ g.commit T ∧ d = replay ((g.llog T).take k)

theorem Replays.mono {k : ℕ} {d : Data} (hi : g.Inv) (gr : Grows g g') (h : Replays g k d) :
    Replays g' k d := by
  obtain ⟨T, hk, rfl⟩ := h
  refine ⟨T, hk.trans (gr.commit T), ?_⟩
  rw [gr.take_llog (hk.trans (hi.commit_le T))]

/-- The tables of the servers hold the replies to writes, which succeed. -/
theorem Replays.lastReply {k : ℕ} {d : Data} (h : Replays g k d) (clientId : ℕ) :
    d.lastReply clientId = ⟨.ok, ""⟩ := by
  obtain ⟨T, -, rfl⟩ := h
  exact replay_lastReply _ _

theorem Replays.applyCommand_reply {k : ℕ} {d : Data} (h : Replays g k d) {c : CommandArgs}
    (hop : c.op ≠ .get) : (d.applyCommand c).2 = ⟨.ok, ""⟩ := by
  by_cases hskip : d.Skips c
  · rw [Data.applyCommand, if_pos hskip]
    exact h.lastReply c.clientId
  · rw [Data.applyCommand, if_neg hskip]
    simp only [ne_eq, hop, not_false_eq_true, if_true]
    exact Data.applyToStateMachine_reply hop

theorem take_committed (hi : g.Inv) {T U k : ℕ} (hT : k ≤ g.commit T) (hU : k ≤ g.commit U) :
    (g.llog T).take k = (g.llog U).take k := by
  apply List.ext_getElem?
  intro i
  by_cases hik : i < k
  · rw [List.getElem?_take_of_lt hik, List.getElem?_take_of_lt hik]
    exact hi.committed_agree (by omega) (by omega)
  · rw [List.getElem?_take_eq_none (by omega), List.getElem?_take_eq_none (by omega)]

/-- The next committed command takes the state to the next one. -/
theorem Replays.succ {k t T₀ : ℕ} {d : Data} {c : CommandArgs} (hi : g.Inv) (h : Replays g k d)
    (hc : g.Committed T₀ k ⟨t, some c⟩) : Replays g (k + 1) (d.applyCommand c).1 := by
  obtain ⟨T, hT, rfl⟩ := h
  obtain ⟨U, -, hU, hx⟩ := hc
  refine ⟨U, hU, ?_⟩
  rw [replay_take_succ hx, take_committed hi hT hU.le]
  rfl

/-- The item of term `T` at position `i` has lost its place to a committed one. -/
def Displaced (g : Ledger (Fin n) (Option CommandArgs)) (i T : ℕ) : Prop :=
  ∃ T₀ x, g.Committed T₀ i x ∧ x.term ≠ T

theorem Displaced.mono {i T : ℕ} (hi : g.Inv) (gr : Grows g g') (h : Displaced g i T) :
    Displaced g' i T := by
  obtain ⟨T₀, x, hx, hne⟩ := h
  exact ⟨T₀, x, hi.committed_mono gr le_rfl hx, hne⟩

theorem not_displaced {i T T₀ : ℕ} {v : Option CommandArgs} (hi : g.Inv)
    (hc : g.Committed T₀ i ⟨T, v⟩) : ¬ Displaced g i T := by
  rintro ⟨T₁, x, hx, hne⟩
  rw [← hi.committed_unique hc hx] at hne
  exact hne rfl

/-- A reply of the applier of `s` for the entry at `index`, which `s` has appended as leader of
a term in which or before which it was committed. -/
def Produced (g : Ledger (Fin n) (Option CommandArgs)) (s : Fin n) (index : ℕ)
    (reply : CommandReply) : Prop :=
  ∃ T args d, g.Committed T index ⟨T, some args⟩ ∧ g.leader T = some s ∧ Replays g index d ∧
    reply = (d.applyCommand args).2

theorem Produced.mono {index : ℕ} {reply : CommandReply} (hi : g.Inv) (gr : Grows g g')
    (h : Produced g s index reply) : Produced g' s index reply := by
  obtain ⟨T, args, d, hc, hl, hd, hr⟩ := h
  exact ⟨T, args, d, hi.committed_mono gr le_rfl hc, gr.leader hl, hd.mono hi gr, hr⟩

/-- The server `s` has appended no entry at `index` in a term after `T`. -/
def Fresh (g : Ledger (Fin n) (Option CommandArgs)) (s : Fin n) (index T : ℕ) : Prop :=
  ∀ T', T < T' → g.leader T' = some s → termAt (g.llog T') index ≠ some T'

/-- What `Start` at `s` in term `T` has done for a call with `index`. The call arrived when
`since` entries were committed. -/
structure Started (g : Ledger (Fin n) (Option CommandArgs)) (s : Fin n) (args : CommandArgs)
    (since index T : ℕ) : Prop where
  entry : (g.llog T)[index]? = some ⟨T, some args⟩
  leader : g.leader T = some s
  since : since ≤ index ∨ Displaced g index T
  fresh : Fresh g s index T

theorem Started.mono {args : CommandArgs} {since index T : ℕ} (hi : g.Inv) (gr : Grows g g')
    (h : Started g s args since index T) (hf : Fresh g' s index T) :
    Started g' s args since index T where
  entry := by rw [prefix_getElem? (gr.llog T) (List.getElem?_eq_some_iff.mp h.entry).1, h.entry]
  leader := gr.leader h.leader
  since := h.since.imp_right (Displaced.mono hi gr)
  fresh := hf

/-- The reply that a call finds in the channel of its index is the reply to its own entry. -/
theorem Started.own_reply {args : CommandArgs} {since index T : ℕ} {reply : CommandReply}
    (hi : g.Inv) (h : Started g s args since index T) (hp : Produced g s index reply) :
    since ≤ index ∧ g.Committed T index ⟨T, some args⟩ ∧
      ∃ d, Replays g index d ∧ reply = (d.applyCommand args).2 := by
  obtain ⟨T', args', d, hc, hl, hd, rfl⟩ := hp
  obtain ⟨U, hU, hcU, hx⟩ := id hc
  have hlen := hi.commit_le U
  have hpre : (g.llog U).take (index + 1) <+: g.llog T' := (hi.llog_chain hx).2
  have hx' : (g.llog T')[index]? = some ⟨T', some args'⟩ := by
    rw [prefix_getElem? hpre (by simp; omega), List.getElem?_take_of_lt (by omega), hx]
  obtain rfl : T = T' := by
    rcases Nat.lt_trichotomy T T' with hlt | heq | hgt
    · exact absurd (termAt_eq_some.mpr ⟨_, hx', rfl⟩) (h.fresh T' hlt hl)
    · exact heq
    · -- a later leader has the committed entry, not its own, at this index
      have hne : g.llog T ≠ [] := hi.llog_ne.mpr (Or.inr (by simp [h.leader]))
      have hp := hi.take_prefix_llog (hU.trans hgt.le) hne hcU (Nat.succ_pos index)
      have := h.entry
      rw [prefix_getElem? hp (by simp; omega), List.getElem?_take_of_lt (by omega), hx] at this
      simp only [Option.some.injEq, Item.mk.injEq] at this
      omega
  have heq := h.entry.symm.trans hx'
  simp only [Option.some.injEq, Item.mk.injEq, true_and] at heq
  subst heq
  exact ⟨h.since.resolve_right (not_displaced hi hc), hc, d, hd, rfl⟩

section Channels
variable {kv kv' : KVServer} {P Q : ℕ → CommandReply → Prop} {ch i : ℕ}

/-- Channel `ch` exists and was made for index `i`. -/
def KVServer.HasChan (kv : KVServer) (ch i : ℕ) : Prop :=
  ∃ c, kv.chans[ch]? = some c ∧ c.index = i

/-- The map leads to channels of the right index, and buffered replies satisfy `P`. -/
structure KVServer.Chans (P : ℕ → CommandReply → Prop) (kv : KVServer) : Prop where
  mapped : ∀ {i ch}, kv.notifyChans i = some ch → kv.HasChan ch i
  buffered : ∀ {c reply}, c ∈ kv.chans → c.buffer = some reply → P c.index reply

theorem KVServer.Chans.imp (h : kv.Chans P) (himp : ∀ i reply, P i reply → Q i reply) :
    kv.Chans Q where
  mapped := h.mapped
  buffered hc hb := himp _ _ (h.buffered hc hb)

theorem KVServer.HasChan.set {c : Chan} (h : kv.HasChan ch i) {ch' : ℕ}
    (hc : kv.HasChan ch' c.index) (heq : kv'.chans = kv.chans.set ch' c) : kv'.HasChan ch i := by
  obtain ⟨c₀, hc₀, rfl⟩ := h
  obtain ⟨c₁, hc₁, hidx⟩ := hc
  have hlt := (List.getElem?_eq_some_iff.mp hc₀).1
  by_cases hch : ch' = ch
  · subst hch
    refine ⟨c, by rw [heq, List.getElem?_set_self hlt], ?_⟩
    rw [← hidx, Option.some.inj (hc₁.symm.trans hc₀)]
  · exact ⟨c₀, by rw [heq, List.getElem?_set_ne hch, hc₀], rfl⟩

theorem KVServer.Chans.set {c : Chan} {ch' : ℕ} (h : kv.Chans P) (hc : kv.HasChan ch' c.index)
    (hp : ∀ reply, c.buffer = some reply → P c.index reply)
    (heq : kv'.chans = kv.chans.set ch' c) (hmap : kv'.notifyChans = kv.notifyChans) :
    kv'.Chans P where
  mapped hm := (h.mapped (hmap ▸ hm)).set hc heq
  buffered {c₀ reply} hc₀ hb := by
    rw [heq] at hc₀
    rcases List.mem_or_eq_of_mem_set hc₀ with hold | rfl
    · exact h.buffered hold hb
    · exact hp reply hb

theorem KVServer.getNotifyChan_spec (h : kv.Chans P) (index : ℕ) :
    (kv.getNotifyChan index).1.Chans P ∧
      (kv.getNotifyChan index).1.HasChan (kv.getNotifyChan index).2 index ∧
      (∀ {ch i}, kv.HasChan ch i → (kv.getNotifyChan index).1.HasChan ch i) ∧
      (kv.getNotifyChan index).1.data = kv.data ∧
      (kv.getNotifyChan index).1.lastApplied = kv.lastApplied := by
  cases hm : kv.notifyChans index with
  | some ch =>
    rw [show kv.getNotifyChan index = (kv, ch) by simp only [KVServer.getNotifyChan, hm]]
    exact ⟨h, h.mapped hm, fun h => h, rfl, rfl⟩
  | none =>
    rw [show kv.getNotifyChan index = (_, _) by simp only [KVServer.getNotifyChan, hm]; rfl]
    have hold : ∀ {ch i}, kv.HasChan ch i →
        ∃ c, (kv.chans ++ [({ index := index } : Chan)])[ch]? = some c ∧ c.index = i := by
      rintro ch i ⟨c, hc, hidx⟩
      exact ⟨c, by rw [List.getElem?_append_left (List.getElem?_eq_some_iff.mp hc).1, hc], hidx⟩
    have hnew : ∃ c, (kv.chans ++ [({ index := index } : Chan)])[kv.chans.length]? = some c ∧
        c.index = index := ⟨{ index := index }, by simp, rfl⟩
    refine ⟨⟨fun {i ch} hm' => ?_, fun {c reply} hc hb => ?_⟩, hnew, hold, rfl, rfl⟩
    · change Function.update kv.notifyChans index _ i = some ch at hm'
      by_cases hi : i = index
      · subst hi
        rw [Function.update_self] at hm'
        obtain rfl := Option.some.inj hm'
        exact hnew
      · rw [Function.update_of_ne hi] at hm'
        exact hold (h.mapped hm')
    · rcases List.mem_append.mp hc with hc | hc
      · exact h.buffered hc hb
      · obtain rfl := List.mem_singleton.mp hc
        simp at hb

theorem KVServer.send_spec {reply : CommandReply} (hs : kv.send ch reply = some kv')
    (h : kv.Chans P) (hc : kv.HasChan ch i) (hp : P i reply) :
    kv'.Chans P ∧ (∀ {ch i}, kv.HasChan ch i → kv'.HasChan ch i) ∧ kv'.data = kv.data ∧
      kv'.lastApplied = kv.lastApplied := by
  obtain ⟨c, hget, hs⟩ := Option.bind_eq_some_iff.mp hs
  obtain ⟨-, rfl⟩ := of_guarded hs
  obtain ⟨c', hget', rfl⟩ := id hc
  obtain rfl := Option.some.inj (hget.symm.trans hget')
  refine ⟨h.set (c := { c with buffer := some reply }) hc ?_ rfl rfl,
    fun h' => h'.set (c := { c with buffer := some reply }) hc rfl, rfl, rfl⟩
  intro reply' hb
  obtain rfl := Option.some.inj hb
  exact hp

theorem KVServer.receive_spec {reply : CommandReply} (hs : kv.receive ch = some (kv', reply))
    (h : kv.Chans P) (hc : kv.HasChan ch i) :
    P i reply ∧ kv'.Chans P ∧ (∀ {ch i}, kv.HasChan ch i → kv'.HasChan ch i) ∧
      kv'.data = kv.data ∧ kv'.lastApplied = kv.lastApplied := by
  obtain ⟨c, hget, hs⟩ := Option.bind_eq_some_iff.mp hs
  obtain ⟨reply', hb, hs⟩ := Option.bind_eq_some_iff.mp hs
  obtain ⟨rfl, rfl⟩ := Prod.mk.inj (Option.some.inj hs)
  obtain ⟨c', hget', rfl⟩ := id hc
  obtain rfl := Option.some.inj (hget.symm.trans hget')
  refine ⟨h.buffered (List.mem_of_getElem? hget) hb,
    h.set (c := { c with buffer := none }) hc (by simp) rfl rfl,
    fun h' => h'.set (c := { c with buffer := none }) hc rfl, rfl, rfl⟩

theorem KVServer.Chans.remove (h : kv.Chans P) (index : ℕ) :
    (kv.removeOutdatedNotifyChan index).Chans P where
  mapped {i ch} hm := by
    change Function.update kv.notifyChans index _ i = some ch at hm
    by_cases hi : i = index
    · simp [hi] at hm
    · rw [Function.update_of_ne hi] at hm
      exact h.mapped hm
  buffered := h.buffered

end Channels

end RaftLabs.Kvraft
