import RaftLabs.Raft.SnapshotRefinement

/-! A cluster refines the replicated log: every step that does not take the newer-term branch
of the vote-reply closure is matched by moves of one server. -/
namespace RaftLabs.Raft
open Basis Basis.Ledger Relation

variable {n : ℕ} {C : Type}

/-- The call of one peer in one election of one instance of a server. -/
structure BallotKey (n : ℕ) where
  caller : Fin n
  epoch : ℕ
  election : ℕ
  callee : Fin n

def Packet.ballotKey (p : Packet n C) : Option (BallotKey n) :=
  p.message.election.map fun k => ⟨p.caller, p.epoch, k, p.callee⟩

/-- The vote calls in flight, in either direction. -/
def ballotKeys (net : List (Packet n C)) : List (BallotKey n) := net.filterMap Packet.ballotKey

structure Packet.Sound (g : Ghost n C) (servers : Fin n → Server n C) (p : Packet n C) : Prop where
  epoch : p.epoch ≤ (servers p.caller).epoch
  message : p.message.Sound g p.caller p.callee
  snapshot : p.epoch = (servers p.caller).epoch →
    p.message.snapshotIndex ≤ (servers p.caller).commitIndex

/-- The votes counted by the elections of a cluster: each is counted once, because a peer whose
vote has been counted has no call in flight. -/
structure Tally (g : Ghost n C) (servers : Fin n → Server n C) (keys : List (BallotKey n)) :
    Prop where
  once : keys.Nodup
  epoch : ∀ {key}, key ∈ keys → key.epoch ≤ (servers key.caller).epoch
  started : ∀ {key}, key ∈ keys → key.epoch = (servers key.caller).epoch →
    key.election < (servers key.caller).elections.length
  counted : ∀ {i k e}, (servers i).elections[k]? = some e → ∃ V : Finset (Fin n),
    V.card = e.grantedVote ∧ (∀ v ∈ V, g.ballot v e.args.term = some i) ∧
      ∀ j, ⟨i, (servers i).epoch, k, j⟩ ∈ keys → j ∉ V

/-- The cluster `c` represents the replicated log `g`. -/
structure Sim (c : Cluster n C) (g : Ghost n C) : Prop where
  inv : g.Inv
  view : ∀ i, View g i (c.servers i)
  sound : ∀ p ∈ c.net, p.Sound g c.servers
  tally : Tally g c.servers (ballotKeys c.net)

section Keys
variable {net : List (Packet n C)} {p : Packet n C} {k : ℕ}

theorem ballotKeys_perm (hp : net[k]? = some p) :
    (ballotKeys net).Perm (p.ballotKey.toList ++ ballotKeys (net.eraseIdx k)) := by
  obtain ⟨hk, rfl⟩ := List.getElem?_eq_some_iff.mp hp
  have hperm := (List.getElem_cons_eraseIdx_perm hk).symm.filterMap Packet.ballotKey
  refine hperm.trans (List.Perm.of_eq ?_)
  cases hkey : net[k].ballotKey with
  | none => simp [ballotKeys, hkey]
  | some key => simp [ballotKeys, hkey]

theorem ballotKeys_append (net net' : List (Packet n C)) :
    ballotKeys (net ++ net') = ballotKeys net ++ ballotKeys net' := List.filterMap_append

theorem ballotKeys_eq_nil (h : ∀ p ∈ net, p.message.election = none) : ballotKeys net = [] := by
  refine List.filterMap_eq_nil_iff.mpr fun p hp => ?_
  rw [Packet.ballotKey, h p hp]
  rfl

theorem ballotKeys_sublist {net' : List (Packet n C)} (h : net'.Sublist net) :
    (ballotKeys net').Sublist (ballotKeys net) := h.filterMap _

end Keys

section Tally
variable {g g' : Ghost n C} {servers : Fin n → Server n C} {keys keys' : List (BallotKey n)}
  {i : Fin n} {rf' : Server n C}

/-- Steps that count no vote. -/
theorem Tally.mono (h : Tally g servers keys) (gr : Grows g g') (hl : Later (servers i) rf')
    (hkeys : keys'.Nodup) (hsub : keys' ⊆ keys) :
    Tally g' (Function.update servers i rf') keys' := by
  have hepoch : ∀ j, (Function.update servers i rf' j).epoch = (servers j).epoch := by
    intro j
    by_cases hj : j = i
    · subst hj
      rw [Function.update_self, hl.epoch]
    · rw [Function.update_of_ne hj]
  have helec : ∀ j, (Function.update servers i rf' j).elections = (servers j).elections := by
    intro j
    by_cases hj : j = i
    · subst hj
      rw [Function.update_self, hl.elections]
    · rw [Function.update_of_ne hj]
  refine ⟨hkeys, ?_, ?_, ?_⟩
  · intro key hkey
    rw [hepoch]
    exact h.epoch (hsub hkey)
  · intro key hkey
    rw [hepoch, helec]
    exact h.started (hsub hkey)
  · intro j k e he
    rw [helec] at he
    obtain ⟨V, hV, hb, hout⟩ := h.counted he
    refine ⟨V, hV, fun v hv => gr.ballot (hb v hv), fun j' hj' => hout j' ?_⟩
    rw [hepoch] at hj'
    exact hsub hj'

/-- A restarted server has no elections, and the calls of its earlier instances are dead. -/
theorem Tally.restart (h : Tally g servers keys) (he : rf'.epoch = (servers i).epoch + 1)
    (hnil : rf'.elections = []) : Tally g (Function.update servers i rf') keys := by
  have hlt : ∀ {key}, key ∈ keys → key.caller = i → key.epoch < rf'.epoch := by
    rintro key hkey rfl
    have := h.epoch hkey
    omega
  refine ⟨h.once, ?_, ?_, ?_⟩
  · intro key hkey
    by_cases hi : key.caller = i
    · rw [hi, Function.update_self]
      exact (hlt hkey hi).le
    · rw [Function.update_of_ne hi]
      exact h.epoch hkey
  · intro key hkey
    by_cases hi : key.caller = i
    · rw [hi, Function.update_self]
      intro heq
      have := hlt hkey hi
      omega
    · rw [Function.update_of_ne hi]
      exact h.started hkey
  · intro j k e hek
    by_cases hj : j = i
    · subst hj
      rw [Function.update_self, hnil] at hek
      simp at hek
    · rw [Function.update_of_ne hj] at hek ⊢
      exact h.counted hek

/-- A new election starts with the vote of the candidate for itself and one call to each other
peer. -/
theorem Tally.start (h : Tally g servers keys) (gr : Grows g g') {args : RequestVoteArgs n}
    (he : rf'.epoch = (servers i).epoch)
    (hel : rf'.elections = (servers i).elections ++ [{ args := args }])
    (hb : g'.ballot i args.term = some i) {peers : List (Fin n)} (hpeers : peers.Nodup)
    (hi : i ∉ peers) :
    Tally g' (Function.update servers i rf') (keys ++ peers.map fun j =>
      ⟨i, (servers i).epoch, (servers i).elections.length, j⟩) := by
  have hnew : ∀ {key}, key ∈ (peers.map fun j =>
      (⟨i, (servers i).epoch, (servers i).elections.length, j⟩ : BallotKey n)) →
      key.caller = i ∧ key.epoch = (servers i).epoch ∧
        key.election = (servers i).elections.length ∧ key.callee ∈ peers := by
    intro key hkey
    obtain ⟨j, hj, rfl⟩ := List.mem_map.mp hkey
    exact ⟨rfl, rfl, rfl, hj⟩
  refine ⟨?_, ?_, ?_, ?_⟩
  · refine List.Nodup.append h.once (hpeers.map fun a b hab => by simpa using hab) ?_
    intro key hkey hkey'
    obtain ⟨h₁, h₂, h₃, -⟩ := hnew hkey'
    have := h.started hkey (by rw [h₁, h₂])
    rw [h₁] at this
    omega
  · intro key hkey
    by_cases hc : key.caller = i
    · rw [hc, Function.update_self, he]
      rcases List.mem_append.mp hkey with hkey | hkey
      · exact hc ▸ h.epoch hkey
      · exact (hnew hkey).2.1.le
    · rw [Function.update_of_ne hc]
      rcases List.mem_append.mp hkey with hkey | hkey
      · exact h.epoch hkey
      · exact absurd (hnew hkey).1 hc
  · intro key hkey
    by_cases hc : key.caller = i
    · rw [hc, Function.update_self, he, hel, List.length_append]
      intro heq
      rcases List.mem_append.mp hkey with hkey | hkey
      · have := h.started hkey (by rw [hc, heq])
        rw [hc] at this
        omega
      · rw [(hnew hkey).2.2.1]
        exact Nat.lt_succ_self _
    · rw [Function.update_of_ne hc]
      rcases List.mem_append.mp hkey with hkey | hkey
      · exact h.started hkey
      · exact absurd (hnew hkey).1 hc
  · intro j k e hek
    by_cases hj : j = i
    · subst hj
      rw [Function.update_self, hel] at hek
      rw [Function.update_self, he]
      by_cases hk : k < (servers j).elections.length
      · rw [List.getElem?_append_left hk] at hek
        obtain ⟨V, hV, hv, hout⟩ := h.counted hek
        refine ⟨V, hV, fun v hm => gr.ballot (hv v hm), fun j' hj' => ?_⟩
        rcases List.mem_append.mp hj' with hj' | hj'
        · exact hout j' hj'
        · have := (hnew hj').2.2.1
          simp only at this
          omega
      · rw [List.getElem?_append_right (by omega)] at hek
        obtain rfl : e = { args := args } := by simpa using List.mem_of_getElem? hek
        refine ⟨{j}, Finset.card_singleton _, by simpa using hb, fun j' hj' => ?_⟩
        rcases List.mem_append.mp hj' with hj' | hj'
        · exact absurd (h.started hj' rfl) hk
        · have := (hnew hj').2.2.2
          rw [Finset.mem_singleton]
          rintro rfl
          exact hi this
    · rw [Function.update_of_ne hj] at hek ⊢
      obtain ⟨V, hV, hv, hout⟩ := h.counted hek
      refine ⟨V, hV, fun v hm => gr.ballot (hv v hm), fun j' hj' => ?_⟩
      rcases List.mem_append.mp hj' with hj' | hj'
      · exact hout j' hj'
      · exact absurd (hnew hj').1 hj

/-- Counting the vote of a peer whose call is taken out of the net. -/
theorem Tally.count (h : Tally g servers keys) (gr : Grows g g') {k : ℕ} {j : Fin n}
    {e e' : Election n} (hperm : keys.Perm (⟨i, (servers i).epoch, k, j⟩ :: keys'))
    (hek : (servers i).elections[k]? = some e) (he : rf'.epoch = (servers i).epoch)
    (hel : rf'.elections = (servers i).elections.set k e') (hargs : e'.args = e.args)
    (hvote : e'.grantedVote = e.grantedVote + 1) (hb : g.ballot j e.args.term = some i) :
    Tally g' (Function.update servers i rf') keys' := by
  have hnodup := hperm.nodup_iff.mp h.once
  have hsub : ∀ {key}, key ∈ keys' → key ∈ keys :=
    fun hkey => hperm.mem_iff.mpr (List.mem_cons_of_mem _ hkey)
  have hmem : ⟨i, (servers i).epoch, k, j⟩ ∈ keys := hperm.mem_iff.mpr List.mem_cons_self
  refine ⟨(List.nodup_cons.mp hnodup).2, ?_, ?_, ?_⟩
  · intro key hkey
    by_cases hc : key.caller = i
    · rw [hc, Function.update_self, he]
      exact hc ▸ h.epoch (hsub hkey)
    · rw [Function.update_of_ne hc]
      exact h.epoch (hsub hkey)
  · intro key hkey
    by_cases hc : key.caller = i
    · rw [hc, Function.update_self, he, hel, List.length_set]
      exact hc ▸ h.started (hsub hkey)
    · rw [Function.update_of_ne hc]
      exact h.started (hsub hkey)
  · intro i' k' e'' hek'
    by_cases hi : i' = i
    · subst hi
      rw [Function.update_self, hel] at hek'
      rw [Function.update_self, he]
      by_cases hk : k' = k
      · subst hk
        rw [List.getElem?_set_self (List.getElem?_eq_some_iff.mp hek).1] at hek'
        obtain rfl := Option.some.inj hek'
        obtain ⟨V, hV, hv, hout⟩ := h.counted hek
        refine ⟨insert j V, ?_, ?_, ?_⟩
        · rw [Finset.card_insert_of_notMem (hout j hmem), hV, hvote]
        · intro v hm
          rw [hargs]
          rcases Finset.mem_insert.mp hm with rfl | hm
          · exact gr.ballot hb
          · exact gr.ballot (hv v hm)
        · intro j' hj' hm
          rcases Finset.mem_insert.mp hm with rfl | hm
          · exact (List.nodup_cons.mp hnodup).1 hj'
          · exact hout j' (hsub hj') hm
      · rw [List.getElem?_set_ne (Ne.symm hk)] at hek'
        obtain ⟨V, hV, hv, hout⟩ := h.counted hek'
        exact ⟨V, hV, fun v hm => gr.ballot (hv v hm), fun j' hj' => hout j' (hsub hj')⟩
    · rw [Function.update_of_ne hi] at hek' ⊢
      obtain ⟨V, hV, hv, hout⟩ := h.counted hek'
      exact ⟨V, hV, fun v hm => gr.ballot (hv v hm), fun j' hj' => hout j' (hsub hj')⟩

end Tally

/-- Not moving at all. -/
theorem stay (clean : Prop) (i : Fin n) (g : Ghost n C) : Moves clean i g g := .refl

section Assemble
variable {c : Cluster n C} {g g' : Ghost n C} {clean : Prop} {i : Fin n} {rf' : Server n C}
  {net' : List (Packet n C)}

theorem Packet.Sound.mono {servers : Fin n → Server n C} {p : Packet n C}
    (h : p.Sound g servers) (hi : g.Inv) (gr : Grows g g')
    (he : (servers i).epoch ≤ rf'.epoch)
    (hc : rf'.epoch = (servers i).epoch → (servers i).commitIndex ≤ rf'.commitIndex) :
    p.Sound g' (Function.update servers i rf') := by
  by_cases hp : p.caller = i
  · refine ⟨?_, h.message.mono hi gr, ?_⟩
    · rw [hp, Function.update_self]
      exact (hp ▸ h.epoch).trans he
    · rw [hp, Function.update_self]
      intro heq
      have h₁ := h.epoch
      have h₂ := h.snapshot
      rw [hp] at h₁ h₂
      exact (h₂ (by omega)).trans (hc (by omega))
  · refine ⟨?_, h.message.mono hi gr, ?_⟩
    · rw [Function.update_of_ne hp]
      exact h.epoch
    · rw [Function.update_of_ne hp]
      exact h.snapshot

/-- Moves of one server that take it to `rf'` and leave the messages `net'` in flight. -/
theorem Sim.update (h : Sim c g) (hm : Moves clean i g g') (hv : View g' i rf')
    (he : (c.servers i).epoch ≤ rf'.epoch)
    (hc : rf'.epoch = (c.servers i).epoch → (c.servers i).commitIndex ≤ rf'.commitIndex)
    (hnet : ∀ p ∈ net', p ∈ c.net ∨ p.Sound g' (Function.update c.servers i rf'))
    (ht : Tally g' (Function.update c.servers i rf') (ballotKeys net')) :
    Sim ⟨Function.update c.servers i rf', net'⟩ g' := by
  obtain ⟨hi', gr, fr⟩ := h.inv.moves hm
  refine ⟨hi', fun j => ?_, fun p hp => ?_, ht⟩
  · by_cases hj : j = i
    · subst hj
      simpa using hv
    · simp only [Function.update_of_ne hj]
      exact (h.view j).frame h.inv gr fr hj
  · rcases hnet p hp with hp | hp
    · exact (h.sound p hp).mono h.inv gr he hc
    · exact hp

/-- A step of a running instance that counts no vote. -/
theorem Sim.later (h : Sim c g) (hm : Moves clean i g g') (hv : View g' i rf')
    (hl : Later (c.servers i) rf')
    (hnet : ∀ p ∈ net', p ∈ c.net ∨ p.Sound g' (Function.update c.servers i rf'))
    (hnodup : (ballotKeys net').Nodup) (hsub : ballotKeys net' ⊆ ballotKeys c.net) :
    Sim ⟨Function.update c.servers i rf', net'⟩ g' :=
  h.update hm hv hl.epoch.ge (fun _ => hl.commitIndex) hnet
    (h.tally.mono (h.inv.moves hm).2.1 hl hnodup hsub)

/-- Nothing but messages are lost. -/
theorem Sim.drop (h : Sim c g) (hnet : net'.Sublist c.net) : Sim { c with net := net' } g := by
  have hkeys := ballotKeys_sublist hnet
  refine ⟨h.inv, h.view, fun p hp => h.sound p (hnet.subset hp), ?_⟩
  exact ⟨h.tally.once.sublist hkeys, fun hk => h.tally.epoch (hkeys.subset hk),
    fun hk => h.tally.started (hkeys.subset hk), fun he => by
      obtain ⟨V, hV, hb, hout⟩ := h.tally.counted he
      exact ⟨V, hV, hb, fun j hj => hout j (hkeys.subset hj)⟩⟩

/-- A step that sends nothing. -/
theorem Sim.silent (h : Sim c g) (hm : Moves clean i g g') (hv : View g' i rf')
    (hl : Later (c.servers i) rf') : Sim (c.setServer i rf') g' :=
  h.later hm hv hl (fun _ hp => Or.inl hp) h.tally.once (fun _ hk => hk)

/-- A step that sends requests other than vote calls. -/
theorem Sim.send (h : Sim c g) (hm : Moves clean i g g') (hv : View g' i rf')
    (hl : Later (c.servers i) rf') {requests : List (Fin n × Message n C)}
    (hreq : ∀ peer m, (peer, m) ∈ requests → Sendable g' i rf' peer m ∧ m.election = none) :
    Sim ((c.setServer i rf').send i requests) g' := by
  have hall : ballotKeys ((c.setServer i rf').send i requests).net = ballotKeys c.net := by
    rw [Cluster.send, ballotKeys_append]
    refine (congrArg _ (ballotKeys_eq_nil fun p hp => ?_)).trans (List.append_nil _)
    obtain ⟨⟨peer, m⟩, hpm, rfl⟩ := List.mem_map.mp hp
    exact (hreq peer m hpm).2
  refine h.later hm hv hl (fun p hp => ?_) (hall ▸ h.tally.once) (fun k hk => hall ▸ hk)
  rcases List.mem_append.mp hp with hp | hp
  · exact Or.inl hp
  · obtain ⟨⟨peer, m⟩, hpm, rfl⟩ := List.mem_map.mp hp
    obtain ⟨⟨hsound, hsnap⟩, -⟩ := hreq peer m hpm
    exact Or.inr ⟨by simp [Cluster.setServer], hsound, fun _ => by simpa using hsnap⟩

/-- A request is handled and its reply is put in flight. -/
theorem Sim.reply (h : Sim c g) {k : ℕ} {p : Packet n C} (hp : c.net[k]? = some p)
    (hm : Moves clean p.callee g g') (hv : View g' p.callee rf')
    (hl : Later (c.servers p.callee) rf') {m : Message n C}
    (hsound : m.Sound g' p.caller p.callee) (hsnap : m.snapshotIndex = p.message.snapshotIndex)
    (helec : m.election = p.message.election) :
    Sim { c.setServer p.callee rf' with
      net := c.net.eraseIdx k ++ [{ p with message := m }] } g' := by
  have hmem := List.mem_of_getElem? hp
  have hkey : ballotKeys [{ p with message := m }] = p.ballotKey.toList := by
    rw [ballotKeys, Packet.ballotKey, ← helec]
    cases hm : m.election <;> simp [Packet.ballotKey, hm]
  have hperm : (ballotKeys c.net).Perm
      (ballotKeys (c.net.eraseIdx k ++ [{ p with message := m }])) := by
    rw [ballotKeys_append, hkey]
    exact (ballotKeys_perm hp).trans List.perm_append_comm
  refine h.later hm hv hl (fun q hq => ?_) (hperm.nodup_iff.mp h.tally.once)
    (fun key hk => hperm.mem_iff.mpr hk)
  rcases List.mem_append.mp hq with hq | hq
  · exact Or.inl (List.mem_of_mem_eraseIdx hq)
  · obtain rfl := List.mem_singleton.mp hq
    have hold := (h.sound p hmem).mono h.inv (h.inv.moves hm).2.1 hl.epoch.ge
      (fun _ => hl.commitIndex)
    exact Or.inr ⟨hold.epoch, hsound, fun he => hsnap ▸ hold.snapshot he⟩

/-- The candidate's vote calls go to the peers other than itself. -/
theorem ballotKeys_election (i : Fin n) (epoch k : ℕ) (args : RequestVoteArgs n)
    (peers : List (Fin n)) :
    ballotKeys ((peers.map fun peer => (peer, (.requestVote k args : Message n C))).map
      fun (peer, message) => (⟨i, peer, epoch, message⟩ : Packet n C)) =
      peers.map fun j => ⟨i, epoch, k, j⟩ := by
  simp [ballotKeys, List.filterMap_map, Function.comp_def, Packet.ballotKey, Message.election]

theorem Sim.electionTimeout (clean : Prop) (h : Sim c g) {requests : List (Fin n × Message n C)}
    (hs : (c.servers i).electionTimeout i = (rf', requests)) :
    ∃ g', Moves clean i g g' ∧ Sim ((c.setServer i rf').send i requests) g' := by
  obtain ⟨g', hm, hv, hb, hreq⟩ := (h.view i).electionTimeout clean h.inv hs
  have gr := (h.inv.moves hm).2.1
  simp only [Server.electionTimeout, Server.startElection] at hs
  obtain ⟨hrf, rfl⟩ := Prod.mk.inj hs
  have hepoch : rf'.epoch = (c.servers i).epoch := by rw [← hrf]; rfl
  have hcommit : rf'.commitIndex = (c.servers i).commitIndex := by rw [← hrf]; rfl
  have helec : rf'.elections = (c.servers i).elections ++ [{
      args := ⟨(c.servers i).currentTerm + 1, i, (c.servers i).logs.getLastLog.index,
        (c.servers i).logs.getLastLog.term⟩ }] := by rw [← hrf]; rfl
  refine ⟨g', hm, h.update hm hv hepoch.ge (fun _ => hcommit.ge) (fun p hp => ?_) ?_⟩
  · rcases List.mem_append.mp hp with hp | hp
    · exact Or.inl hp
    · obtain ⟨⟨peer, m⟩, hpm, rfl⟩ := List.mem_map.mp hp
      obtain ⟨hsound, hsnap⟩ := hreq peer m hpm
      exact Or.inr ⟨by simp [Cluster.setServer], hsound, fun _ => by simpa using hsnap⟩
  · rw [ballotKeys_append, ballotKeys_election]
    simp only [Cluster.setServer, Function.update_self, hepoch]
    exact h.tally.start gr hepoch helec hb ((List.nodup_finRange n).filter _) (by simp)

/-- A vote reply reaches a live election. -/
theorem Sim.requestVoteReply (clean : Prop) (h : Sim c g) {k election : ℕ} {p : Packet n C}
    (hp : c.net[k]? = some p) {args : RequestVoteArgs n} {reply : RequestVoteReply}
    (hmsg : p.message = .requestVoteReply election args reply)
    (hlive : p.epoch = (c.servers p.caller).epoch)
    (hsafe : ∀ e, (c.servers p.caller).elections[election]? = some e →
      ¬ e.args.term < reply.term) {requests : List (Fin n × Message n C)}
    (hs : (c.servers p.caller).requestVoteReply p.caller election reply = some (rf', requests)) :
    ∃ g', Moves clean p.caller g g' ∧
      Sim ((({ c with net := c.net.eraseIdx k } : Cluster n C).setServer p.caller rf').send
        p.caller requests) g' := by
  have hdrop := h.drop (List.eraseIdx_sublist c.net k)
  have hsound := (h.sound p (List.mem_of_getElem? hp)).message
  rw [hmsg] at hsound
  have hkey : p.ballotKey = some ⟨p.caller, (c.servers p.caller).epoch, election, p.callee⟩ := by
    simp [Packet.ballotKey, hmsg, Message.election, hlive]
  have hperm := ballotKeys_perm hp
  rw [hkey] at hperm
  have hv := h.view p.caller
  obtain ⟨e, he, hcases⟩ := Server.requestVoteReply_cases hs
  rcases hcases with ⟨rfl, rfl⟩ | ⟨hlt, -⟩ | ⟨hterm, hgrant, rfl, rfl⟩ |
    ⟨hterm, hgrant, hmaj, hcur, hrole, hlead⟩
  · exact ⟨g, .refl, hdrop.send (stay clean _ g) hv (Later.refl _) (by simp)⟩
  · exact absurd hlt (hsafe e he)
  · -- the vote is counted
    have hb := hsound hgrant
    rw [hterm] at hb
    have hv' : View g p.caller { c.servers p.caller with
        elections := (c.servers p.caller).elections.set election
          { e with grantedVote := e.grantedVote + 1 } } :=
      { hv with
        leads := fun hr => (hv.leads hr).congr rfl rfl rfl }
    refine ⟨g, .refl,
      hdrop.update (stay clean _ g) hv' le_rfl (fun _ => le_rfl) (fun q hq => ?_) ?_⟩
    · exact Or.inl (by simpa [Cluster.setServer] using hq)
    · simp only [List.map_nil, List.append_nil]
      exact h.tally.count (Grows.refl g) hperm he rfl rfl rfl rfl hb
  · -- the vote is counted and makes a majority
    have hb := hsound hgrant
    rw [hterm] at hb
    generalize hrf₁ : ({ c.servers p.caller with
      elections := (c.servers p.caller).elections.set election
        { e with grantedVote := e.grantedVote + 1, becomeLeader := true } } : Server n C) = rf₁
      at hlead
    have hv₁ : View g p.caller rf₁ := by
      subst hrf₁
      exact { hv with
        leads := fun hr => (hv.leads hr).congr rfl rfl rfl }
    have hsame : rf₁.epoch = (c.servers p.caller).epoch ∧
        rf₁.commitIndex = (c.servers p.caller).commitIndex ∧
        rf₁.currentTerm = e.args.term ∧ rf₁.role = .candidate ∧
        rf₁.elections = (c.servers p.caller).elections.set election
          { e with grantedVote := e.grantedVote + 1, becomeLeader := true } := by
      subst hrf₁
      exact ⟨rfl, rfl, hcur, hrole, rfl⟩
    obtain ⟨h₁, h₂, h₃, h₄, h₅⟩ := hsame
    have htally : Tally g (Function.update c.servers p.caller rf₁)
        (ballotKeys (c.net.eraseIdx k)) :=
      h.tally.count (Grows.refl g) hperm he h₁ h₅ rfl rfl hb
    obtain ⟨V, hV, hvotes, -⟩ := htally.counted (i := p.caller) (k := election)
      (by rw [Function.update_self, h₅,
        List.getElem?_set_self (List.getElem?_eq_some_iff.mp he).1])
    have hq : Majority V := by
      rw [Majority, hV, Fintype.card_fin]
      simp only
      omega
    rw [← h₃] at hvotes
    have hsim := hdrop.update (stay clean _ g) hv₁ h₁.ge (fun _ => h₂.ge)
      (fun q hq => Or.inl hq) htally
    obtain ⟨g', hm, hv', hl, hreq⟩ := hv₁.becomeLeader clean h.inv h₄ hq hvotes hlead
    have hfinal := hsim.send hm hv' (by simpa using hl) hreq
    refine ⟨g', hm, ?_⟩
    simpa [Cluster.setServer] using hfinal

end Assemble

section Step
variable {c c' : Cluster n C} {g : Ghost n C} (clean : Prop)

/-- A delivery that does not take the newer-term branch. -/
theorem Sim.deliver (h : Sim c g) {k : ℕ} {p : Packet n C} (hp : c.net[k]? = some p)
    (hsafe : ¬ c.TakesNewerTermBranch (.deliver k))
    (hs : Cluster.deliver { c with net := c.net.eraseIdx k } p = some c') :
    ∃ i g', Moves clean i g g' ∧ Sim c' g' := by
  have hsound := h.sound p (List.mem_of_getElem? hp)
  have hdrop := h.drop (List.eraseIdx_sublist c.net k)
  obtain ⟨caller, callee, epoch, message⟩ := p
  cases message with
  | requestVote election args =>
    obtain rfl := Option.some.inj hs
    obtain ⟨g', hm, hv, hl, hb⟩ :=
      (h.view callee).requestVote clean h.inv hsound.message rfl
    exact ⟨callee, g', hm, h.reply hp hm hv hl hb rfl rfl⟩
  | appendEntries args =>
    obtain ⟨⟨rf, reply⟩, hrpc, hs⟩ := Option.bind_eq_some_iff.mp hs
    obtain rfl := Option.some.inj hs
    obtain ⟨g', hm, hv, hl, hb⟩ :=
      (h.view callee).appendEntriesRpc clean h.inv hsound.message hrpc
    exact ⟨callee, g', hm, h.reply hp hm hv hl hb rfl rfl⟩
  | installSnapshot args =>
    obtain rfl := Option.some.inj hs
    obtain ⟨g', hm, hv, hl⟩ :=
      (h.view callee).installSnapshot clean h.inv hsound.message rfl
    exact ⟨callee, g', hm, h.reply hp hm hv hl trivial rfl rfl⟩
  | requestVoteReply election args reply =>
    simp only [Cluster.deliver] at hs
    split_ifs at hs with hepoch
    · obtain rfl := Option.some.inj hs
      exact ⟨caller, g, .refl, hdrop⟩
    · rw [not_not] at hepoch
      obtain ⟨⟨rf, requests⟩, hrpc, hs⟩ := Option.bind_eq_some_iff.mp hs
      obtain rfl := Option.some.inj hs
      obtain ⟨g', hm, hsim⟩ := h.requestVoteReply clean hp rfl hepoch (fun e he hlt => by
        refine hsafe ?_
        simp only [Cluster.TakesNewerTermBranch, Cluster.voteReplyAt, hp, Option.bind_eq_bind,
          Option.bind_some, if_pos hepoch, he]
        exact hlt) hrpc
      exact ⟨caller, g', hm, hsim⟩
  | appendEntriesReply args reply =>
    simp only [Cluster.deliver] at hs
    split_ifs at hs with hepoch
    · obtain rfl := Option.some.inj hs
      exact ⟨caller, g, .refl, hdrop⟩
    · obtain ⟨rf, hrpc, hs⟩ := Option.bind_eq_some_iff.mp hs
      obtain rfl := Option.some.inj hs
      obtain ⟨g', hm, hv, hl⟩ :=
        (h.view caller).appendEntriesReply clean h.inv hsound.message hrpc
      exact ⟨caller, g', hm, hdrop.silent hm hv hl⟩
  | installSnapshotReply args reply =>
    simp only [Cluster.deliver] at hs
    split_ifs at hs with hepoch
    · obtain rfl := Option.some.inj hs
      exact ⟨caller, g, .refl, hdrop⟩
    · rw [not_not] at hepoch
      obtain rfl := Option.some.inj hs
      obtain ⟨g', hm, hv, hl⟩ :=
        (h.view caller).installSnapshotReply clean h.inv (hsound.snapshot hepoch) callee reply
      exact ⟨caller, g', hm, hdrop.silent hm hv hl⟩

/-- Every step that does not take the newer-term branch is matched by moves of one server. -/
theorem Sim.step [NeZero n] (h : Sim c g) {a : Action C n} (hs : c.step a = some c')
    (hsafe : ¬ c.TakesNewerTermBranch a) (hclean : clean → c.InstallsCleanly a) :
    ∃ i g', Moves clean i g g' ∧ Sim c' g' := by
  cases a with
  | electionTimeout i =>
    obtain rfl := Option.some.inj hs
    obtain ⟨g', hm, hsim⟩ := h.electionTimeout clean (i := i) rfl
    exact ⟨i, g', hm, hsim⟩
  | heartbeatTimeout i =>
    obtain ⟨requests, hreq, hs⟩ := Option.bind_eq_some_iff.mp hs
    obtain rfl := Option.some.inj hs
    have hsim := h.send (stay clean i g) (h.view i) (Later.refl _)
      (fun peer m => (h.view i).heartbeatTimeout h.inv hreq)
    refine ⟨i, g, .refl, ?_⟩
    simpa [Cluster.setServer] using hsim
  | start i command =>
    obtain ⟨⟨rf, requests, result⟩, hst, hs⟩ := Option.bind_eq_some_iff.mp hs
    obtain rfl := Option.some.inj hs
    obtain ⟨g', hm, hv, hl, hreq⟩ := (h.view i).start clean h.inv hst
    exact ⟨i, g', hm, h.send hm hv hl hreq⟩
  | deliver k =>
    obtain ⟨p, hp, hs⟩ := Option.bind_eq_some_iff.mp hs
    exact h.deliver clean hp hsafe hs
  | drop k =>
    obtain rfl := Option.some.inj hs
    exact ⟨0, g, .refl, h.drop (List.eraseIdx_sublist c.net k)⟩
  | crash i =>
    obtain rfl := Option.some.inj hs
    have hmake : ∀ (p : Persister n C) e, (Server.make p e).epoch = e ∧
        (Server.make p e).elections = [] := by
      intro p e
      cases hp : p.raftstate <;> simp [Server.make, Server.readPersist, hp]
    obtain ⟨hepoch, helec⟩ := hmake (c.servers i).persister ((c.servers i).epoch + 1)
    refine ⟨i, g, .refl, h.update (stay clean i g) ((h.view i).restart _) (by omega)
      (fun he => by omega) (fun p hp => Or.inl hp) (h.tally.restart hepoch helec)⟩
  | applierCopy i =>
    obtain ⟨rf, hrf, hs⟩ := Option.bind_eq_some_iff.mp hs
    obtain rfl := Option.some.inj hs
    obtain ⟨hv, hl⟩ := (h.view i).applierCopy h.inv hrf
    exact ⟨i, g, .refl, h.silent (stay clean i g) hv hl⟩
  | applierSend i =>
    obtain ⟨rf, hrf, hs⟩ := Option.bind_eq_some_iff.mp hs
    obtain rfl := Option.some.inj hs
    obtain ⟨hv, hl⟩ := (h.view i).applierSend hrf
    exact ⟨i, g, .refl, h.silent (stay clean i g) hv hl⟩
  | applierUpdate i =>
    obtain ⟨rf, hrf, hs⟩ := Option.bind_eq_some_iff.mp hs
    obtain rfl := Option.some.inj hs
    obtain ⟨hv, hl⟩ := (h.view i).applierUpdate hrf
    exact ⟨i, g, .refl, h.silent (stay clean i g) hv hl⟩
  | snapshot i index data =>
    simp only [Cluster.step] at hs
    split_ifs at hs with hany
    obtain ⟨rf, hrf, hs⟩ := Option.bind_eq_some_iff.mp hs
    obtain rfl := Option.some.inj hs
    obtain ⟨m, hmem, hm⟩ := List.any_eq_true.mp hany
    have hle := ((h.view i).applied hmem).1
    rw [of_decide_eq_true hm] at hle
    obtain ⟨g', hm, hv, hl⟩ := (h.view i).snapshot clean h.inv hle hrf
    exact ⟨i, g', hm, h.silent hm hv hl⟩
  | condInstallSnapshot i k =>
    obtain ⟨msg, hmsg, hs⟩ := Option.bind_eq_some_iff.mp hs
    obtain ⟨⟨rf, accepted⟩, hrf, hs⟩ := Option.bind_eq_some_iff.mp hs
    obtain rfl := Option.some.inj hs
    have hv := h.view i
    have hv' : View g i { c.servers i with installs := (c.servers i).installs.eraseIdx k } :=
      { hv with
        leads := fun hr => (hv.leads hr).congr rfl rfl rfl
        installs := fun hm => hv.installs (List.mem_of_mem_eraseIdx hm) }
    obtain ⟨g', hm, hv'', hl⟩ := hv'.condInstallSnapshot clean h.inv
      (hv.installs (List.mem_of_getElem? hmsg)) (fun hcl => by
        have := hclean hcl
        simpa [Cluster.InstallsCleanly, hmsg] using this) hrf
    exact ⟨i, g', hm, h.silent hm hv'' ⟨hl.epoch, hl.commitIndex, hl.elections⟩⟩

theorem sim_init [NeZero n] : Sim (Cluster.init n C) (Ledger.init none) where
  inv := init_inv none
  view i := {
    term := rfl
    ballot := rfl
    log := LogView.fresh
    base := rfl
    first_le := le_rfl
    horizon_le := le_rfl
    settled := (init_inv none).log_settled i
    leads := by intro hr; cases hr
    candidate := by intro hr; cases hr
    batch := by intro e he; cases he
    applied := by intro m hm; cases hm
    installs := by intro m hm; cases hm
    persister := Or.inr ⟨rfl, rfl⟩ }
  sound p hp := by cases hp
  tally := {
    once := List.nodup_nil
    epoch := by intro key hk; cases hk
    started := by intro key hk; cases hk
    counted := by
      intro i k e he
      simp [Cluster.init, Server.make, Server.readPersist] at he }

/-- Along a run that never takes the newer-term branch, replicated logs that the states of the
run represent, each obtained from the one before it. -/
theorem Cluster.Run.simulation [NeZero n] {P : Cluster n C → Action C n → Prop}
    {r : ℕ → Cluster n C} (hr : Cluster.Run P r)
    (hsafe : ∀ c a, P c a → ¬ c.TakesNewerTermBranch a)
    (hclean : clean → ∀ c a, P c a → c.InstallsCleanly a) :
    ∃ g : ℕ → Ghost n C, (∀ k, Sim (r k) (g k)) ∧ (∀ k l, k ≤ l → Grows (g k) (g l)) ∧
      (clean → ∀ k, (g k).Whole) := by
  obtain ⟨g, hg₀, hg⟩ := hr.steps.simulation (R := Sim)
    (M := fun g g' => Grows g g' ∧ (clean → g.Whole → g'.Whole))
    (fun g => ⟨Grows.refl g, fun _ h => h⟩)
    (fun c a c' g hp hs hsim => by
      obtain ⟨i, g', hm, hsim'⟩ := hsim.step clean hs (hsafe c a hp)
        (fun hcl => hclean hcl c a hp)
      exact ⟨g', ⟨(hsim.inv.moves hm).2.1, fun hcl => hsim.inv.whole_moves hcl hm⟩, hsim'⟩)
    (hr.init ▸ sim_init)
  refine ⟨g, fun k => (hg k).1, fun k l hkl => ?_, fun hcl k => ?_⟩
  · induction l, hkl using Nat.le_induction with
    | base => exact Grows.refl _
    | succ l _ ih => exact ih.trans (hg l).2.1
  · induction k with
    | zero => rw [hg₀]; exact init_whole none
    | succ k ih => exact (hg k).2.2 hcl ih

end Step

end RaftLabs.Raft
