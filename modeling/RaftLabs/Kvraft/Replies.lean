import RaftLabs.Kvraft.SystemInvariant

/-! The answers of kvraft. In every run in which `Start` never returns an index that a call in
progress on the same server has got, every final answer is justified by the committed log. -/
namespace RaftLabs.Kvraft
open Basis Basis.Ledger

variable {n : ℕ}

theorem leads_perform {g g' : Ledger (Fin n) (Option CommandArgs)} {s : Fin n}
    {label : Label (Fin n) (Option CommandArgs)} (hp : g.perform s label = some g') {b : Bool}
    (h : b = true → g.leader (g.term s) = some s) (hb : roleAfter b label = true) :
    g'.leader (g'.term s) = some s := by
  cases label with
  | elect Q =>
    obtain ⟨-, rfl⟩ := of_guarded hp
    simp [Ledger.elect]
  | advance T => cases hb
  | stand T => cases hb
  | _ =>
    obtain ⟨-, rfl⟩ := of_guarded hp
    exact h hb

theorem fresh_perform {g g' : Ledger (Fin n) (Option CommandArgs)} {s j : Fin n}
    {label : Label (Fin n) (Option CommandArgs)} (hi : g.Inv) (hp : g.perform s label = some g')
    {index T : ℕ} (h : Fresh g j index T) : Fresh g' j index T := by
  intro T' hT hl ht
  have heq := hi.perform_item hp ht
  rw [heq] at ht
  have hne : g.llog T' ≠ [] := List.length_pos_iff.mp (by have := lt_length_of_termAt ht; omega)
  obtain ⟨c, hc⟩ := hi.leader_of_llog (by omega) hne
  have hgr := (hi.move (perform_move hp)).2.leader hc
  rw [hl] at hgr
  exact h T' hT (hc.trans hgr.symm) ht

/-- The entry that a leader appends takes the index that is the length of its log, and no other. -/
theorem fresh_append {g : Ledger (Fin n) (Option CommandArgs)} {s j : Fin n}
    (v : Option CommandArgs) (hi : g.Inv) (hl : g.leader (g.term s) = some s) {index T : ℕ}
    (hne : j = s → index ≠ (g.log s).length) (h : Fresh g j index T) :
    Fresh (g.append s (g.term s) v) j index T := by
  intro T' hT hlj ht
  change g.leader T' = some j at hlj
  by_cases hT' : T' = g.term s
  · subst hT'
    obtain rfl : j = s := Option.some.inj (hlj.symm.trans hl)
    have hlog : g.log j = g.llog (g.term j) := (hi.leader_log hl).2.2.2 rfl
    have hother := hne rfl
    rw [append_llog] at ht
    have hlt := lt_length_of_termAt ht
    rw [List.length_append, List.length_singleton, ← hlog] at hlt
    rw [prefix_termAt (List.prefix_append _ _) (by rw [← hlog]; omega)] at ht
    exact h _ hT hlj ht
  · rw [append_llog_of_ne v hT'] at ht
    exact h T' hT hlj ht

namespace System

variable {sys sys' : System n} {s : Fin n}

theorem Inv.setReplica (h : sys.Inv) {r : Replica} (hr : ReplicaInv sys.raft s r)
    (hc : ∀ c ∈ r.handlers, c.since ≤ sys.committed ∧ ∃ a, sys.arrived c.args = some a) :
    (sys.setReplica s r).Inv :=
  { h with
    replicas := fun j => by
      by_cases hj : j = s
      · subst hj
        rw [show (sys.setReplica j r).replicas j = r from Function.update_self _ _ _]
        exact hr
      · rw [show (sys.setReplica s r).replicas j = sys.replicas j from
          Function.update_of_ne hj _ _]
        exact h.replicas j
    called := fun {j c} hm => by
      by_cases hj : j = s
      · subst hj
        rw [show (sys.setReplica j r).replicas j = r from Function.update_self _ _ _] at hm
        exact hc c hm
      · rw [show (sys.setReplica s r).replicas j = sys.replicas j from
          Function.update_of_ne hj _ _] at hm
        exact h.called hm }

/-- A call returns with an answer that is sound, if it is final. -/
theorem Inv.answer (h : sys.Inv) {args : CommandArgs} {since c : ℕ} {reply : CommandReply}
    (ha : sys.arrived args = some c)
    (hj : ∀ a : Answer, a = ⟨args, reply, if args.op = .get then since else c,
      (sys.replicas s).applied⟩ → a.Final → sys.Sound a) :
    (sys.answer s args since reply).Inv := by
  have hans : (sys.answer s args since reply).answers = sys.answers ++
      [⟨args, reply, if args.op = .get then since else c, (sys.replicas s).applied⟩] := by
    simp [System.answer, ha]
  exact
    { h with
      arrived_order := fun hb hm hc hid => by
        obtain ⟨ans, hmem, hrest⟩ := h.arrived_order hb hm hc hid
        exact ⟨ans, by rw [hans]; exact List.mem_append_left _ hmem, hrest⟩
      issued := fun hm => by
        refine (h.issued hm).imp_left fun ⟨hlt, ans, hmem, hrest⟩ => ⟨hlt, ans, ?_, hrest⟩
        rw [hans]
        exact List.mem_append_left _ hmem
      answers := fun {a} hm => by
        rw [hans] at hm
        rcases List.mem_append.mp hm with hm | hm
        · exact h.answers hm
        · obtain rfl := List.mem_singleton.mp hm
          refine ⟨?_, fun hop => ?_, hj _ rfl⟩
          · obtain ⟨T, hT, -⟩ := (h.replicas s).data
            have := h.committed_le T
            change (sys.replicas s).applied < sys.committed
            omega
          · change args.op ≠ .get at hop
            change sys.arrived args = some (if args.op = .get then since else c)
            rw [if_neg hop, ha] }

/-- The count of committed entries stays the largest commit of a term. -/
theorem Inv.committed_perform (h : sys.Inv) {label : Label (Fin n) (Option CommandArgs)}
    {g' : Ledger (Fin n) (Option CommandArgs)} (hp : sys.raft.perform s label = some g') :
    (∀ T, g'.commit T ≤ committedAfter sys.committed label) ∧
      ∃ T, g'.commit T = committedAfter sys.committed label := by
  obtain ⟨U, hU⟩ := h.committed_eq
  cases label with
  | commitTo T i Q =>
    obtain ⟨⟨-, -, hc, -⟩, rfl⟩ := of_guarded hp
    constructor
    · intro V
      by_cases hV : V = T
      · subst hV
        simp [Ledger.commitTo, committedAfter]
      · rw [show (sys.raft.commitTo T i).commit V = _ from Function.update_of_ne hV _ _]
        exact (h.committed_le V).trans (le_max_left _ _)
    · by_cases hle : sys.committed ≤ i + 1
      · exact ⟨T, by simp [Ledger.commitTo, committedAfter, hle]⟩
      · refine ⟨U, ?_⟩
        have hne : U ≠ T := by
          rintro rfl
          omega
        rw [show (sys.raft.commitTo T i).commit U = _ from Function.update_of_ne hne _ _, hU]
        exact (max_eq_left (by omega)).symm
  | _ =>
    obtain ⟨-, rfl⟩ := of_guarded hp
    exact ⟨h.committed_le, U, hU⟩

theorem Inv.replicas_perform (h : sys.Inv) {label : Label (Fin n) (Option CommandArgs)}
    {g' : Ledger (Fin n) (Option CommandArgs)} (hp : sys.raft.perform s label = some g')
    (j : Fin n) : ReplicaInv g' j (Function.update sys.replicas s { sys.replicas s with
      isLeader := roleAfter (sys.replicas s).isLeader label } j) := by
  have hm := perform_move hp
  have gr := (h.raft.move hm).2
  by_cases hj : j = s
  · subst hj
    rw [Function.update_self]
    have hr := h.replicas j
    have hl := leads_perform hp hr.leads
    have hr' : ReplicaInv g' j { sys.replicas j with isLeader := false } :=
      ReplicaInv.mono { hr with leads := fun h => by cases h } h.raft gr
        (fun h => by cases h) (fun _ _ hf => fresh_perform h.raft hp hf)
    exact { hr' with leads := hl }
  · rw [Function.update_of_ne hj]
    refine (h.replicas j).mono h.raft gr (fun hl => ?_) fun _ _ hf => fresh_perform h.raft hp hf
    rw [hm.frame.term hj]
    exact gr.leader ((h.replicas j).leads hl)

theorem Inv.perform (h : sys.Inv) {label : Label (Fin n) (Option CommandArgs)}
    {g' : Ledger (Fin n) (Option CommandArgs)} (hp : sys.raft.perform s label = some g') :
    ({ sys with
      raft := g'
      committed := committedAfter sys.committed label
      replicas := Function.update sys.replicas s { sys.replicas s with
        isLeader := roleAfter (sys.replicas s).isLeader label } } : System n).Inv := by
  obtain ⟨hi', gr⟩ := h.raft.move (perform_move hp)
  have hcommitted : sys.committed ≤ committedAfter sys.committed label := by
    cases label with
    | commitTo T i Q => exact le_max_left _ _
    | _ => exact le_rfl
  have hcount := h.committed_perform hp
  exact
    { h with
      raft := hi'
      committed_le := hcount.1
      committed_eq := hcount.2
      fresh := h.fresh.mono h.raft gr
      replicas := h.replicas_perform hp
      snapshots := fun hm => (h.snapshots hm).mono h.raft gr
      entered := fun {T i a} hx => by
        have heq := h.raft.perform_item hp (termAt_eq_some.mpr ⟨_, hx, rfl⟩)
        change (g'.llog T)[i]? = _ at hx
        rw [heq] at hx
        obtain ⟨c, ha, hle⟩ := h.entered hx
        exact ⟨c, ha, hle.imp_right (Displaced.mono h.raft gr)⟩
      called := fun {j c} hm => by
        have hmem : c ∈ (sys.replicas j).handlers := by
          by_cases hj : j = s
          · subst hj
            simpa using hm
          · simpa [Function.update_of_ne hj] using hm
        exact (h.called hmem).imp_left fun h => h.trans hcommitted
      arrived_le := fun ha => (h.arrived_le ha).imp_left fun h => h.trans hcommitted
      answers := fun hm => by
        obtain ⟨hup, hsince, hj⟩ := h.answers hm
        exact ⟨lt_of_lt_of_le hup hcommitted, hsince, fun hf => (hj hf).mono h.raft gr⟩ }

/-- The entry that a leader of `T` appends at `index`: an earlier call has begun before the
position was committed, or another entry has been committed there. -/
theorem Inv.since_append (h : sys.Inv) {c : ℕ} {v : Option CommandArgs}
    (hl : sys.raft.leader (sys.raft.term s) = some s) (hc : c ≤ sys.committed) :
    c ≤ (sys.raft.log s).length ∨
      Displaced (sys.raft.append s (sys.raft.term s) v) (sys.raft.log s).length
        (sys.raft.term s) := by
  have gr := h.raft.grows_append v hl rfl
  have hlog : sys.raft.log s = sys.raft.llog (sys.raft.term s) :=
    (h.raft.leader_log hl).2.2.2 rfl
  by_cases hle : c ≤ (sys.raft.log s).length
  · exact Or.inl hle
  · obtain ⟨U, hU⟩ := h.committed_eq
    have hlen := h.raft.commit_le U
    have hlt : (sys.raft.log s).length < (sys.raft.llog U).length := by omega
    have hx := List.getElem?_eq_getElem hlt
    refine Or.inr (Displaced.mono h.raft gr ⟨U, _, ⟨U, le_rfl, by omega, hx⟩, fun ht => ?_⟩)
    -- an entry of this term would be in the log of its leader already
    have hp := (h.raft.llog_chain hx).2.length_le
    rw [ht, ← hlog, List.length_take] at hp
    omega

/-- A leader appends a command that has arrived, at an index that no call of its server has. -/
theorem Inv.append (h : sys.Inv) {args : CommandArgs} {a : ℕ}
    (hl : sys.raft.leader (sys.raft.term s) = some s) (ha : sys.arrived args = some a)
    (hnew : ∀ c ∈ (sys.replicas s).handlers, c.index? ≠ some (sys.raft.log s).length) :
    ({ sys with
      raft := sys.raft.append s (sys.raft.term s) (some args) } : System n).Inv := by
  have gr := h.raft.grows_append (some args) hl rfl
  have hlog : sys.raft.log s = sys.raft.llog (sys.raft.term s) :=
    (h.raft.leader_log hl).2.2.2 rfl
  exact
    { h with
      raft := h.raft.append (some args) hl rfl
      fresh := h.fresh.mono h.raft gr
      replicas := fun j => by
        refine (h.replicas j).mono h.raft gr (h.replicas j).leads fun hm hidx =>
          fresh_append (some args) h.raft hl ?_
        rintro rfl rfl
        exact hnew _ hm hidx
      snapshots := fun hm => (h.snapshots hm).mono h.raft gr
      entered := fun {T i b} hx => by
        by_cases hold : i < (sys.raft.llog T).length
        · rw [prefix_getElem? (gr.llog T) hold] at hx
          obtain ⟨c', hb, hle⟩ := h.entered hx
          exact ⟨c', hb, hle.imp_right (Displaced.mono h.raft gr)⟩
        · obtain rfl : T = sys.raft.term s := by
            by_contra hT
            rw [append_llog_of_ne _ hT] at hx
            exact hold (List.getElem?_eq_some_iff.mp hx).1
          have hlt := (List.getElem?_eq_some_iff.mp hx).1
          rw [append_llog, List.length_append, List.length_singleton] at hlt
          obtain rfl : i = (sys.raft.log s).length := by rw [hlog]; omega
          rw [append_llog, hlog] at hx
          simp only [List.getElem?_concat_length, Option.some.injEq, Item.mk.injEq,
            true_and] at hx
          subst hx
          exact ⟨a, ha, h.since_append hl (h.arrived_le ha).1⟩
      answers := fun hm => by
        obtain ⟨hup, hsince, hj⟩ := h.answers hm
        exact ⟨hup, hsince, fun hf => (hj hf).mono h.raft gr⟩ }

/-- `Start` on a leader, for a call that has passed the duplicate check. -/
theorem Inv.startLeader (h : sys.Inv) {k : ℕ} {c : Handler}
    (hk : (sys.replicas s).handlers[k]? = some c) (hlead : (sys.replicas s).isLeader = true)
    (hnew : ∀ c' ∈ (sys.replicas s).handlers, c'.index? ≠ some (sys.raft.log s).length) :
    (({ sys with raft := sys.raft.append s (sys.raft.term s) (some c.args) } : System n).setReplica
      s { sys.replicas s with
        handlers := (sys.replicas s).handlers.set k
          { c with phase := .started (sys.raft.log s).length (sys.raft.term s) } }).Inv := by
  have hl := (h.replicas s).leads hlead
  have hck := List.mem_of_getElem? hk
  obtain ⟨hsince, a, ha⟩ := h.called hck
  have hinv := h.append hl ha hnew
  refine hinv.setReplica ?_ fun c' hc' => ?_
  · have hr := hinv.replicas s
    have hlog : sys.raft.log s = sys.raft.llog (sys.raft.term s) :=
      (h.raft.leader_log hl).2.2.2 rfl
    have hnewc : Started (sys.raft.append s (sys.raft.term s) (some c.args)) s c.args c.since
        (sys.raft.log s).length (sys.raft.term s) :=
      { entry := by rw [append_llog, hlog]; simp
        leader := hl
        since := h.since_append hl hsince
        fresh := fun T' hT hl' => by
          have := (h.raft.leader_log hl').2.1
          omega }
    exact
      { hr with
        started := fun {c' index T} hm hp => by
          rcases List.mem_or_eq_of_mem_set hm with hm | rfl
          · exact hr.started hm hp
          · obtain ⟨rfl, rfl⟩ := Phase.started.inj hp
            exact hnewc
        waiting := fun {c' index T ch} hm hp => by
          rcases List.mem_or_eq_of_mem_set hm with hm | rfl
          · exact hr.waiting hm hp
          · cases hp }
  · rcases List.mem_or_eq_of_mem_set hc' with hm | rfl
    · exact h.called hm
    · exact ⟨hsince, a, ha⟩

theorem Inv.start (h : sys.Inv) {k : ℕ} (hnew : ¬ sys.ReusesIndex (.start s k))
    (hs : sys.start s k = some sys') : sys'.Inv := by
  obtain ⟨c, hk, hs⟩ := Option.bind_eq_some_iff.mp hs
  have hck := List.mem_of_getElem? hk
  split_ifs at hs with hp hlead
  · obtain rfl := Option.some.inj hs
    refine h.startLeader hk hlead fun c' hc' hidx => hnew ⟨hlead, c', hc', hidx⟩
  · obtain rfl := Option.some.inj hs
    obtain ⟨-, a, ha⟩ := h.called hck
    have hsub : ∀ c' ∈ (sys.replicas s).handlers.eraseIdx k, c' ∈ (sys.replicas s).handlers :=
      fun c' hc' => List.mem_of_mem_eraseIdx hc'
    refine (h.setReplica ((h.replicas s).setHandlers fun c' hc' => Or.inl (hsub c' hc'))
      fun c' hc' => h.called (hsub c' hc')).answer ha ?_
    rintro _ rfl ⟨hf, -⟩
    exact absurd rfl hf

theorem Inv.getNotifyChan (h : sys.Inv) {k : ℕ} (hs : sys.getNotifyChan s k = some sys') :
    sys'.Inv := by
  obtain ⟨c, hk, hs⟩ := Option.bind_eq_some_iff.mp hs
  have hck := List.mem_of_getElem? hk
  have hr := h.replicas s
  split at hs
  case h_2 => cases hs
  case h_1 index term hp =>
    obtain rfl := Option.some.inj hs
    obtain ⟨hch, hnew, hold, hd, hla⟩ := KVServer.getNotifyChan_spec hr.chans index
    have hr' := hr.setChans hch hold hd hla
    have hstarted := hr.started hck hp
    have hcalled := h.called hck
    refine h.setReplica ?_ fun c' hc' => ?_
    · exact
        { hr' with
          started := fun {c' i T} hm hp' => by
            rcases List.mem_or_eq_of_mem_set hm with hm | rfl
            · exact hr.started hm hp'
            · cases hp'
          waiting := fun {c' i T ch} hm hp' => by
            rcases List.mem_or_eq_of_mem_set hm with hm | rfl
            · exact hr'.waiting hm hp'
            · obtain ⟨rfl, rfl, rfl⟩ := Phase.waiting.inj hp'
              exact ⟨hstarted, hnew⟩ }
    · rcases List.mem_or_eq_of_mem_set hc' with hm | rfl
      · exact h.called hm
      · exact hcalled

theorem Inv.receive (h : sys.Inv) {k : ℕ} (hs : sys.receive s k = some sys') : sys'.Inv := by
  obtain ⟨c, hk, hs⟩ := Option.bind_eq_some_iff.mp hs
  have hck := List.mem_of_getElem? hk
  have hr := h.replicas s
  split at hs
  case h_2 => cases hs
  case h_1 index term ch hp =>
    obtain ⟨⟨kv, reply⟩, hrecv, hs⟩ := Option.bind_eq_some_iff.mp hs
    obtain rfl := Option.some.inj hs
    obtain ⟨hstarted, hhas⟩ := hr.waiting hck hp
    obtain ⟨⟨hle, hprod⟩, hch, hold, hd, hla⟩ := KVServer.receive_spec hrecv hr.chans hhas
    obtain ⟨hsince, hcom, d, hrep, rfl⟩ := hstarted.own_reply h.raft hprod
    obtain ⟨-, a, ha⟩ := h.called hck
    have hsub : ∀ c' ∈ (sys.replicas s).handlers.eraseIdx k, c' ∈ (sys.replicas s).handlers :=
      fun c' hc' => List.mem_of_mem_eraseIdx hc'
    have hr' := (hr.setChans hch hold hd hla).setHandlers fun c' hc' => Or.inl (hsub c' hc')
    have hr'' : ReplicaInv sys.raft s { sys.replicas s with
        kv
        handlers := (sys.replicas s).handlers.eraseIdx k
        removals := (sys.replicas s).removals ++ [index] } := { hr' with }
    have hinv := h.setReplica hr'' fun c' hc' => h.called (hsub c' hc')
    refine hinv.answer ha ?_
    rintro _ rfl -
    refine hinv.sound_of_applied hcom hrep ?_ hsince ha
    rw [show ∀ r, (sys.setReplica s r).replicas s = r from fun r => Function.update_self _ _ _]
    exact hle

theorem Inv.timeout (h : sys.Inv) {k : ℕ} (hs : sys.timeout s k = some sys') : sys'.Inv := by
  obtain ⟨c, hk, hs⟩ := Option.bind_eq_some_iff.mp hs
  have hck := List.mem_of_getElem? hk
  split at hs
  case h_2 => cases hs
  case h_1 index term ch hp =>
    obtain rfl := Option.some.inj hs
    obtain ⟨-, a, ha⟩ := h.called hck
    have hsub : ∀ c' ∈ (sys.replicas s).handlers.eraseIdx k, c' ∈ (sys.replicas s).handlers :=
      fun c' hc' => List.mem_of_mem_eraseIdx hc'
    have hr := (h.replicas s).setHandlers fun c' hc' => Or.inl (hsub c' hc')
    have hr' : ReplicaInv sys.raft s { sys.replicas s with
        handlers := (sys.replicas s).handlers.eraseIdx k
        removals := (sys.replicas s).removals ++ [index] } := { hr with }
    refine (h.setReplica hr' fun c' hc' => h.called (hsub c' hc')).answer ha ?_
    rintro _ rfl ⟨-, hf⟩
    exact absurd rfl hf

theorem Inv.removeOutdatedNotifyChan (h : sys.Inv) {k : ℕ}
    (hs : sys.removeOutdatedNotifyChan s k = some sys') : sys'.Inv := by
  obtain ⟨index, -, hs⟩ := Option.bind_eq_some_iff.mp hs
  obtain rfl := Option.some.inj hs
  have hr := h.replicas s
  have hr' : ReplicaInv sys.raft s { sys.replicas s with
      kv := (sys.replicas s).kv.removeOutdatedNotifyChan index } :=
    hr.setChans (hr.chans.remove index) (fun h => h) rfl rfl
  exact h.setReplica { hr' with } fun c' hc' => h.called hc'

theorem Inv.saveSnapshot (h : sys.Inv) {index : ℕ} {data : Data}
    (hd : Replays sys.raft (index + 1) data) :
    ({ sys with snapshots := sys.snapshots ++ [(index, data)] } : System n).Inv :=
  { h with
    snapshots := fun hm => by
      rcases List.mem_append.mp hm with hm | hm
      · exact h.snapshots hm
      · obtain ⟨rfl, rfl⟩ := Prod.mk.inj (List.mem_singleton.mp hm)
        exact hd }

theorem Inv.applyCommand (h : sys.Inv) {index : ℕ} {needSnapshot : Bool}
    (hs : sys.applyCommand s index needSnapshot = some sys') : sys'.Inv := by
  obtain ⟨x, hx, hs⟩ := Option.bind_eq_some_iff.mp hs
  obtain ⟨command, hv, hs⟩ := Option.bind_eq_some_iff.mp hs
  obtain ⟨t, v⟩ := x
  obtain rfl : v = some command := hv
  have hr := h.replicas s
  split at hs
  case isFalse => cases hs
  case isTrue hcond =>
  obtain ⟨hset, hidx⟩ := hcond
  obtain ⟨kv, hkv, hs⟩ := Option.bind_eq_some_iff.mp hs
  by_cases hold : index ≤ (sys.replicas s).kv.lastApplied
  · rw [if_pos hold] at hs
    obtain rfl := Option.some.inj hs
    exact h
  · rw [if_neg hold] at hs
    obtain rfl := Option.some.inj hs
    obtain rfl := hidx.resolve_left hold
    have hcom := h.raft.settled_committed hset (Nat.lt_succ_self _) hx
    cases needSnapshot with
    | false =>
      exact h.setReplica (hr.applyMsg h.raft hcom hkv (Or.inr rfl)) fun c' hc' => h.called hc'
    | true =>
      have hr' := hr.applyMsg h.raft hcom hkv (Or.inl rfl)
      exact (h.saveSnapshot hr'.data).setReplica hr' fun c' hc' => h.called hc'

theorem Inv.applySnapshot (h : sys.Inv) {k : ℕ} (hs : sys.applySnapshot s k = some sys') :
    sys'.Inv := by
  obtain ⟨⟨index, data⟩, hsnap, hs⟩ := Option.bind_eq_some_iff.mp hs
  obtain ⟨hlt, rfl⟩ := of_guarded hs
  have hr := h.replicas s
  have hd := h.snapshots (List.mem_of_getElem? hsnap)
  refine h.setReplica ?_ fun c' hc' => h.called hc'
  exact
    { hr with
      data := hd
      lastApplied := le_rfl
      snapshot := fun he => by
        obtain ⟨rfl, rfl⟩ := Prod.mk.inj (Option.some.inj he)
        exact hd
      chans := ⟨hr.chans.mapped, fun hm hb => (hr.chans.buffered hm hb).imp_left fun h =>
        h.trans hlt.le⟩ }

theorem Inv.restart (h : sys.Inv) : (sys.restart s).Inv := by
  have hr := h.replicas s
  refine h.setReplica ?_ fun c' hc' => by cases hc'
  exact
    { leads := fun h => by cases h
      data := by
        cases hsnap : (sys.replicas s).snapshot with
        | none => exact h.fresh
        | some snap => exact hr.snapshot hsnap
      lastApplied := Nat.zero_le _
      snapshot := hr.snapshot
      chans :=
        { mapped := fun hm => by cases hm
          buffered := fun hm => by cases hm }
      started := fun hm => by cases hm
      waiting := fun hm => by cases hm }

theorem Inv.clerkCommand (h : sys.Inv) {clientId : ℕ} {key value : String} {op : Op}
    (hs : sys.clerkCommand clientId key value op = some sys') : sys'.Inv := by
  obtain ⟨hidle, rfl⟩ := of_guarded hs
  -- the clerk is idle, so its earlier requests have smaller identifiers
  have hless : ∀ {a}, a ∈ sys.issued → a.clientId = clientId →
      a.commandId < (sys.clerks clientId).commandId := by
    rintro a ha rfl
    rcases h.issued ha with ⟨hlt, -⟩ | hp
    · exact hlt
    · rw [hidle] at hp
      cases hp
  exact
    { h with
      arrived_le := fun ha => (h.arrived_le ha).imp_right (List.mem_append_left _)
      arrived_order := fun {a b c} ha hb hc hid => by
        rcases List.mem_append.mp hb with hb | hb
        · exact h.arrived_order ha hb hc hid
        · obtain rfl := List.mem_singleton.mp hb
          have := hless (h.arrived_le ha).2 hc.symm
          simp only at hid
          omega
      issued := fun {a} ha => by
        rcases List.mem_append.mp ha with ha | ha
        · by_cases hc : a.clientId = clientId
          · refine Or.inl ?_
            obtain ⟨-, hans⟩ := (h.issued ha).resolve_right (by rw [hc, hidle]; simp)
            exact ⟨by simpa [hc] using hless ha hc, hans⟩
          · simp only [Function.update_of_ne hc]
            exact h.issued ha
        · obtain rfl := List.mem_singleton.mp ha
          exact Or.inr (by simp)
      pending := fun {c a} hp => by
        by_cases hc : c = clientId
        · subst hc
          simp only [Function.update_self, Option.some.injEq] at hp ⊢
          subst hp
          exact ⟨rfl, rfl⟩
        · simp only [Function.update_of_ne hc] at hp ⊢
          exact h.pending hp
      unique := fun {a b} ha hb hc hid => by
        rcases List.mem_append.mp ha with ha | ha <;> rcases List.mem_append.mp hb with hb | hb
        · exact h.unique ha hb hc hid
        · obtain rfl := List.mem_singleton.mp hb
          have := hless ha hc
          simp only at hid
          omega
        · obtain rfl := List.mem_singleton.mp ha
          have := hless hb hc.symm
          simp only at hid
          omega
        · rw [List.mem_singleton.mp ha, List.mem_singleton.mp hb] }

theorem Inv.clerkReturn (h : sys.Inv) {clientId : ℕ}
    (hs : sys.clerkReturn clientId = some sys') : sys'.Inv := by
  obtain ⟨args, hp, hs⟩ := Option.bind_eq_some_iff.mp hs
  obtain ⟨hans, rfl⟩ := of_guarded hs
  exact
    { h with
      issued := fun {a} ha => by
        by_cases hc : a.clientId = clientId
        · refine Or.inl ?_
          simp only [hc, Function.update_self]
          rcases h.issued ha with ⟨hlt, ha'⟩ | hpa
          · rw [hc] at hlt
            exact ⟨Nat.lt_succ_of_lt hlt, ha'⟩
          · rw [hc, hp] at hpa
            obtain rfl := Option.some.inj hpa
            exact ⟨Nat.lt_succ_of_le (h.pending hp).2.le, hans⟩
        · simp only [Function.update_of_ne hc]
          exact h.issued ha
      pending := fun {c a} hpa => by
        by_cases hc : c = clientId
        · subst hc
          simp at hpa
        · simp only [Function.update_of_ne hc] at hpa ⊢
          exact h.pending hpa }

/-- A request arrives, perhaps for the first time. -/
theorem Inv.firstArrival (h : sys.Inv) {args : CommandArgs} (ha : args ∈ sys.issued) :
    ({ sys with
      arrived := Function.update sys.arrived args
        (some ((sys.arrived args).getD sys.committed)) } : System n).Inv := by
  -- what has arrived keeps its mark
  have hkeep : ∀ {a c}, sys.arrived a = some c → Function.update sys.arrived args
      (some ((sys.arrived args).getD sys.committed)) a = some c := by
    intro a c hc
    by_cases haa : a = args
    · subst haa
      simp [hc]
    · rw [Function.update_of_ne haa, hc]
  have hcases : ∀ {a c}, Function.update sys.arrived args
      (some ((sys.arrived args).getD sys.committed)) a = some c →
      sys.arrived a = some c ∨ (a = args ∧ c = sys.committed) := by
    intro a c hc
    by_cases haa : a = args
    · subst haa
      rw [Function.update_self] at hc
      cases hx : sys.arrived a with
      | none =>
        rw [hx] at hc
        exact Or.inr ⟨rfl, (Option.some.inj hc).symm⟩
      | some c' =>
        rw [hx] at hc
        exact Or.inl hc
    · rw [Function.update_of_ne haa] at hc
      exact Or.inl hc
  exact
    { h with
      entered := fun hx => by
        obtain ⟨c, hc, hle⟩ := h.entered hx
        exact ⟨c, hkeep hc, hle⟩
      called := fun hm => (h.called hm).imp_right fun ⟨c, hc⟩ => ⟨c, hkeep hc⟩
      arrived_le := fun hc => by
        rcases hcases hc with hc | ⟨rfl, rfl⟩
        · exact h.arrived_le hc
        · exact ⟨le_rfl, ha⟩
      arrived_order := fun {a b c} hc hb hclient hid => by
        rcases hcases hc with hc | ⟨rfl, rfl⟩
        · exact h.arrived_order hc hb hclient hid
        · have hans : sys.Answered b := by
            rcases h.issued hb with ⟨-, hans⟩ | hp
            · exact hans
            · have hb' := (h.pending hp).2
              rw [hclient] at hb' hp
              rcases h.issued ha with ⟨hlt, -⟩ | hp'
              · omega
              · have := (h.pending hp').2
                omega
          obtain ⟨ans, hmem, heq, hfin⟩ := hans
          exact ⟨ans, hmem, heq, hfin, (h.answers hmem).1⟩
      answers := fun hm => by
        obtain ⟨hup, hsince, hj⟩ := h.answers hm
        exact ⟨hup, fun hop => hkeep (hsince hop), hj⟩ }

theorem Inv.arrive (h : sys.Inv) {args : CommandArgs} (hs : sys.arrive s args = some sys') :
    sys'.Inv := by
  simp only [System.arrive] at hs
  split_ifs at hs with hissued hskip
  · obtain rfl := Option.some.inj hs
    have hinv := h.firstArrival hissued
    refine hinv.answer (Function.update_self _ _ _) ?_
    rintro _ rfl -
    obtain ⟨i, before, hle, hlt, happ, hns⟩ :=
      hinv.skipped_applied (hinv.replicas s).data hskip (Function.update_self _ _ _)
    refine ⟨⟨i, before, ?_, Nat.lt_succ_iff.mp hlt, happ, hns, fun hop => absurd hop hskip.1⟩,
      fun _ => (hinv.replicas s).data.lastReply args.clientId⟩
    rw [if_neg hskip.1]
    exact hle
  · obtain rfl := Option.some.inj hs
    have hinv := h.firstArrival hissued
    have hr : ReplicaInv sys.raft s { sys.replicas s with
        handlers := (sys.replicas s).handlers ++ [⟨args, sys.committed, .checked⟩] } :=
      (h.replicas s).setHandlers fun c' hc' => by
        rcases List.mem_append.mp hc' with hc' | hc'
        · exact Or.inl hc'
        · rw [List.mem_singleton.mp hc']
          exact Or.inr rfl
    refine hinv.setReplica hr fun c' hc' => ?_
    rcases List.mem_append.mp hc' with hc' | hc'
    · exact hinv.called hc'
    · obtain rfl := List.mem_singleton.mp hc'
      exact ⟨le_rfl, _, Function.update_self _ _ _⟩

theorem Inv.step (h : sys.Inv) {a : Action n} (ha : ¬ sys.ReusesIndex a)
    (hs : sys.step a = some sys') : sys'.Inv := by
  cases a with
  | raft s label =>
    obtain ⟨g, hp, hs⟩ := Option.bind_eq_some_iff.mp hs
    obtain rfl := Option.some.inj hs
    exact h.perform hp
  | clerkCommand clientId key value op => exact h.clerkCommand hs
  | clerkReturn clientId => exact h.clerkReturn hs
  | arrive s args => exact h.arrive hs
  | start s k => exact h.start ha hs
  | getNotifyChan s k => exact h.getNotifyChan hs
  | receive s k => exact h.receive hs
  | timeout s k => exact h.timeout hs
  | removeOutdatedNotifyChan s k => exact h.removeOutdatedNotifyChan hs
  | applyCommand s index needSnapshot => exact h.applyCommand hs
  | applySnapshot s k => exact h.applySnapshot hs
  | restart s =>
    obtain rfl := Option.some.inj hs
    exact h.restart

theorem init_replica (s : Fin n) : ReplicaInv (Ledger.init none) s {} where
  leads h := by cases h
  data := ⟨0, le_rfl, rfl⟩
  lastApplied := le_rfl
  snapshot h := by cases h
  chans :=
    { mapped := fun hm => by cases hm
      buffered := fun hm => by cases hm }
  started hm := by cases hm
  waiting hm := by cases hm

theorem init_inv [NeZero n] : (init n).Inv where
  raft := Ledger.init_inv none
  committed_le T := by
    simp only [init, Ledger.init]
    split_ifs <;> omega
  committed_eq := ⟨0, rfl⟩
  fresh := ⟨0, le_rfl, rfl⟩
  replicas := init_replica
  snapshots hm := by cases hm
  entered {T i a} hx := by
    have hmem := List.mem_of_getElem? hx
    simp only [init, Ledger.init] at hmem
    split_ifs at hmem <;> simp at hmem
  called hm := by cases hm
  arrived_le h := by cases h
  arrived_order h := by cases h
  issued h := by cases h
  pending h := by cases h
  unique h := by cases h
  answers h := by cases h

theorem Run.inv [NeZero n] {r : ℕ → System n} (hr : Run (fun sys a => ¬ sys.ReusesIndex a) r)
    (k : ℕ) : (r k).Inv :=
  hr.steps.invariant (fun _ _ _ ha hs h => h.step ha hs) (hr.init ▸ init_inv) k

end System

/-- Reply soundness: an answer `OK` or `ErrNoKey` is justified by the committed log. -/
theorem command_reply_sound [NeZero n] {r : ℕ → System n}
    (hr : System.Run (fun sys a => ¬ sys.ReusesIndex a) r) {k : ℕ} {a : Answer}
    (ha : a ∈ (r k).answers) (hok : a.reply.err = .ok ∨ a.reply.err = .errNoKey) :
    (r k).Justified a := by
  refine (((hr.inv k).answers ha).2.2 ?_).1
  rcases hok with h | h <;> simp [Answer.Final, h]

/-- A write of one client that is issued first with identifier 0. -/
def firstPut (clientId : ℕ) (key : String) : CommandArgs := ⟨key, "1", .put, clientId, 0⟩

/-- Server `s` of three is elected, commits the write of a clerk with server `t`, applies it and
answers. -/
def answeredRun (s t : Fin n) : List (Action n) :=
  [.raft s (.stand 1), .raft t (.advance 1), .raft t (.vote s [⟨0, none⟩]), .raft s (.elect {s, t}),
    .clerkCommand 1 "a" "1" .put, .arrive s (firstPut 1 "a"), .start s 0, .getNotifyChan s 0,
    .raft t (.accept 2 0 [⟨0, none⟩, ⟨1, some (firstPut 1 "a")⟩]), .raft s (.commitTo 1 1 {s, t}),
    .applyCommand s 1 false, .receive s 0]

theorem command_reply_sound_answeredRun :
    ∃ r : ℕ → System 3, System.Run (fun sys a => ¬ sys.ReusesIndex a) r ∧
      ∃ a ∈ (r 12).answers, a.args = firstPut 1 "a" ∧ a.reply.err = .ok ∧ (r 12).Justified a :=
  have hr : System.Run (fun sys a => ¬ sys.ReusesIndex a)
      (trace System.step (System.init 3) (answeredRun 0 1)) :=
    ⟨trace_zero _ _, trace_isRun (by decide +kernel)⟩
  have ha : (⟨firstPut 1 "a", ⟨.ok, ""⟩, 1, 1⟩ : Answer) ∈
      (trace System.step (System.init 3) (answeredRun 0 1) 12).answers := by decide +kernel
  ⟨_, hr, _, ha, rfl, rfl, command_reply_sound hr ha (Or.inl rfl)⟩

/-- The write of clerk 2 waits for index 2 of server `s`, which leads term 1, when server `t` is
elected and overwrites index 1, so that `s` loses index 2. Back in office in term 3, `s` starts the
write of clerk 4 at index 2, and the reply for it goes to clerk 2. -/
def reuseRun (s t u : Fin n) : List (Action n) :=
  [.raft s (.stand 1), .raft t (.advance 1), .raft t (.vote s [⟨0, none⟩]), .raft s (.elect {s, t}),
    .clerkCommand 1 "a" "1" .put, .arrive s (firstPut 1 "a"), .start s 0,
    .clerkCommand 2 "x" "1" .put, .arrive s (firstPut 2 "x"), .start s 1, .getNotifyChan s 1,
    .raft t (.stand 2), .raft u (.advance 2), .raft u (.vote t [⟨0, none⟩]),
    .raft t (.elect {t, u}),
    .clerkCommand 3 "b" "1" .put, .arrive t (firstPut 3 "b"), .start t 0,
    .raft s (.advance 2), .raft s (.accept 2 0 [⟨0, none⟩, ⟨2, some (firstPut 3 "b")⟩]),
    .raft s (.stand 3), .raft t (.advance 3),
    .raft t (.vote s [⟨0, none⟩, ⟨2, some (firstPut 3 "b")⟩]), .raft s (.elect {s, t}),
    .clerkCommand 4 "y" "1" .put, .arrive s (firstPut 4 "y"), .start s 2,
    .raft t (.accept 3 1
      [⟨0, none⟩, ⟨2, some (firstPut 3 "b")⟩, ⟨3, some (firstPut 4 "y")⟩]),
    .raft s (.commitTo 3 2 {s, t}), .applyCommand s 1 false, .applyCommand s 2 false,
    .receive s 1]

set_option maxRecDepth 4000 in
/-- With a reused index a write is answered `OK` that no committed entry carries. -/
theorem unjustified_reply_reuseRun :
    ∃ r : ℕ → System 3, System.Run (fun _ _ => True) r ∧
      ∃ a ∈ (r 32).answers, a.args = firstPut 2 "x" ∧ a.reply.err = .ok ∧
        ¬ (r 32).Justified a := by
  have ha : (⟨firstPut 2 "x", ⟨.ok, ""⟩, 1, 2⟩ : Answer) ∈
      (trace System.step (System.init 3) (reuseRun 0 1 2) 32).answers := by decide +kernel
  refine ⟨trace System.step (System.init 3) (reuseRun 0 1 2),
    ⟨trace_zero _ _, trace_isRun (by decide +kernel)⟩, _, ha, rfl, rfl, ?_⟩
  rintro ⟨index, before, -, hle, ⟨T, t, hc, hx, -⟩, -⟩
  -- the committed entries are those of terms 0 and 3
  have hcommit : (trace System.step (System.init 3) (reuseRun 0 1 2) 32).raft.commit =
      Function.update (Ledger.init (σ := Fin 3) (none : Option CommandArgs)).commit 3 3 := rfl
  have hno : ∀ T ∈ [0, 3],
      ∀ x ∈ (trace System.step (System.init 3) (reuseRun 0 1 2) 32).raft.llog T,
        x.value ≠ some (firstPut 2 "x") := by decide +kernel
  refine hno T ?_ _ (List.mem_of_getElem? hx) rfl
  rw [hcommit] at hc
  by_contra hT
  simp only [List.mem_cons, List.not_mem_nil, or_false, not_or] at hT
  simp [Ledger.init, hT.1, hT.2] at hc

end RaftLabs.Kvraft
