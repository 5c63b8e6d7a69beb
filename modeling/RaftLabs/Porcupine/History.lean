import RaftLabs.Porcupine.Correctness

/-! The entries of a history of operations and those of a history of events describe it. -/
namespace RaftLabs.Porcupine
open Basis DepthFirst

variable {σ ι ο : Type}

/-! Operations. -/

/-- The entry of an operation. -/
def entryOf (elem : Operation ι ο) (id : ℕ) : EntryKind → Entry ι ο
  | .callEntry => ⟨.inl elem.input, id, elem.call⟩
  | .returnEntry => ⟨.inr elem.output, id, elem.ret⟩

@[simp] theorem entryOf_kind (elem : Operation ι ο) (id : ℕ) (kind : EntryKind) :
    (entryOf elem id kind).kind = kind := by cases kind <;> rfl

@[simp] theorem entryOf_id (elem : Operation ι ο) (id : ℕ) (kind : EntryKind) :
    (entryOf elem id kind).id = id := by cases kind <;> rfl

theorem less_return {a b : Entry ι ο} (ha : a.kind = .callEntry) (hb : b.kind = .returnEntry) :
    a.less b ↔ a.time ≤ b.time := by
  by_cases heq : a.time = b.time
  · simp [Entry.less, ha, hb, heq]
  · simp only [Entry.less, ne_eq, heq, not_false_eq_true, if_true, decide_eq_true_eq]
    omega

theorem less_call {a b : Entry ι ο} (ha : a.kind = .returnEntry) (hb : b.kind = .callEntry) :
    a.less b ↔ a.time < b.time := by
  by_cases heq : a.time = b.time
  · simp [Entry.less, ha, hb, heq]
  · simp [Entry.less, heq]

theorem pairEntries_eq (history : List (Operation ι ο)) :
    pairEntries history = (List.finRange history.length).flatMap fun i =>
      [entryOf (history.get i) i .callEntry, entryOf (history.get i) i .returnEntry] := by
  have hzip : history.zipIdx =
      (List.finRange history.length).map fun i => (history.get i, (i : ℕ)) := by
    refine List.ext_getElem (by simp) fun k hk hk' => ?_
    simp
  rw [pairEntries, hzip, List.flatMap_map]
  rfl

theorem mem_pairEntries {history : List (Operation ι ο)} {e : Entry ι ο} :
    e ∈ pairEntries history ↔ ∃ kind i, e = entryOf (history.get i) i kind := by
  simp only [pairEntries_eq, List.mem_flatMap, List.mem_finRange, true_and, List.mem_cons,
    List.not_mem_nil, or_false]
  constructor
  · rintro ⟨i, he | he⟩
    · exact ⟨_, i, he⟩
    · exact ⟨_, i, he⟩
  · rintro ⟨kind, i, he⟩
    cases kind with
    | callEntry => exact ⟨i, Or.inl he⟩
    | returnEntry => exact ⟨i, Or.inr he⟩

theorem pairEntries_nodup (history : List (Operation ι ο)) : (pairEntries history).Nodup := by
  rw [pairEntries_eq, List.nodup_flatMap]
  refine ⟨fun i _ => ?_, ?_⟩
  · refine List.nodup_cons.mpr ⟨fun h => ?_, List.nodup_singleton _⟩
    have := congrArg Entry.kind (List.mem_singleton.mp h)
    simp at this
  · refine (List.nodup_finRange _).imp fun {i j} hij => ?_
    rw [Function.onFun, List.disjoint_left]
    intro e hi hj
    have hid : ∀ {k : Fin history.length},
        e ∈ [entryOf (history.get k) k .callEntry, entryOf (history.get k) k .returnEntry] →
          e.id = k := by
      intro k hk
      rcases List.mem_pair.mp hk with rfl | rfl <;> rfl
    exact hij (Fin.ext ((hid hi).symm.trans (hid hj)))

section Entries
variable {S : EntrySorting ι ο} {history : List (Operation ι ο)}

theorem makeEntries_entryAt {kind : EntryKind} {id k : ℕ} :
    EntryAt (makeEntries S history) kind id k ↔ ∃ i : Fin history.length, id = i ∧
      (makeEntries S history)[k]? = some (entryOf (history.get i) i kind) := by
  constructor
  · rintro ⟨e, he, rfl, rfl⟩
    have hmem : e ∈ pairEntries history := (S.perm _).mem_iff.mp (List.mem_of_getElem? he)
    obtain ⟨kind, i, rfl⟩ := mem_pairEntries.mp hmem
    exact ⟨i, by simp, by simpa using he⟩
  · rintro ⟨i, rfl, hi⟩
    exact ⟨_, hi, by simp, by simp⟩

/-- An earlier entry is not later in time. -/
theorem makeEntries_not_less {k k' : ℕ} {e e' : Entry ι ο}
    (hk : (makeEntries S history)[k]? = some e) (hk' : (makeEntries S history)[k']? = some e')
    (hlt : k < k') : ¬ e'.less e := by
  obtain ⟨hlen, rfl⟩ := List.getElem?_eq_some_iff.mp hk
  obtain ⟨hlen', rfl⟩ := List.getElem?_eq_some_iff.mp hk'
  exact List.pairwise_iff_getElem.mp (S.sorted (pairEntries history)) k k' hlen hlen' hlt

/-- The sorted entries agree with real time, however entries of the same time are sorted. -/
theorem makeEntries_describes (h : ∀ elem ∈ history, elem.call ≤ elem.ret) :
    Describes (makeEntries S history) history.get := by
  have hnodup : (makeEntries S history).Nodup :=
    (S.perm _).nodup_iff.mpr (pairEntries_nodup history)
  have hunique : ∀ {kind id k k'}, EntryAt (makeEntries S history) kind id k →
      EntryAt (makeEntries S history) kind id k' → k = k' := by
    intro kind id k k' hk hk'
    obtain ⟨i, rfl, hi⟩ := makeEntries_entryAt.mp hk
    obtain ⟨j, hij, hj⟩ := makeEntries_entryAt.mp hk'
    obtain rfl := Fin.ext hij
    obtain ⟨hk, hi⟩ := List.getElem?_eq_some_iff.mp hi
    obtain ⟨hk', hj⟩ := List.getElem?_eq_some_iff.mp hj
    exact (List.Nodup.getElem_inj_iff hnodup).mp (hi.trans hj.symm)
  -- positions of a return and of a call against their times
  have hprec : ∀ {i j : Fin history.length} {r c},
      EntryAt (makeEntries S history) .returnEntry i r →
      EntryAt (makeEntries S history) .callEntry j c →
      ((history.get i).ret < (history.get j).call ↔ r < c) := by
    intro i j r c hr hc
    obtain ⟨i', hi', hr⟩ := makeEntries_entryAt.mp hr
    obtain ⟨j', hj', hc⟩ := makeEntries_entryAt.mp hc
    obtain rfl := Fin.ext hi'
    obtain rfl := Fin.ext hj'
    have hne : r ≠ c := by
      rintro rfl
      have := congrArg Entry.kind (Option.some.inj (hr.symm.trans hc))
      simp at this
    constructor
    · intro htime
      by_contra hlt
      exact makeEntries_not_less hc hr (by omega) ((less_call rfl rfl).mpr htime)
    · intro hlt
      have hless := makeEntries_not_less hr hc hlt
      rw [less_return rfl rfl, not_le] at hless
      exact hless
  refine ⟨⟨fun hk => ?_, fun kind id hid => ?_, hunique, fun {id c r} hc hr => ?_⟩,
    fun {k e i} he hid => ?_, hprec⟩
  · obtain ⟨i, rfl, -⟩ := makeEntries_entryAt.mp hk
    exact i.2
  · have hmem : entryOf (history.get ⟨id, hid⟩) id kind ∈ makeEntries S history :=
      (S.perm _).mem_iff.mpr (mem_pairEntries.mpr ⟨kind, ⟨id, hid⟩, rfl⟩)
    obtain ⟨k, hk⟩ := List.mem_iff_getElem?.mp hmem
    exact ⟨k, makeEntries_entryAt.mpr ⟨⟨id, hid⟩, rfl, hk⟩⟩
  · obtain ⟨i, rfl, hi⟩ := makeEntries_entryAt.mp hc
    have hnot : ¬ r < c := fun hlt => by
      have hcall := h _ (List.get_mem history i)
      have := (hprec hr hc).mpr hlt
      omega
    have hne : c ≠ r := by
      rintro rfl
      obtain ⟨j, -, hj⟩ := makeEntries_entryAt.mp hr
      have := congrArg Entry.kind (Option.some.inj (hi.symm.trans hj))
      simp at this
    omega
  · obtain ⟨j, hj, hk⟩ := makeEntries_entryAt.mp ⟨e, he, rfl, hid⟩
    obtain rfl := Fin.ext hj
    have hval := congrArg Entry.value (Option.some.inj (he.symm.trans hk))
    rw [hval]
    generalize e.kind = kind
    cases kind <;> rfl

end Entries

/-! Events. -/

variable {κ : Type}

/-- Every operation is called once and returns once, after its call. -/
structure WellFormed (events : List (Event ι ο κ)) : Prop where
  unique : (events.map fun e => (e.kind, e.id)).Nodup
  called : ∀ r : Fin events.length, (events.get r).kind = .returnEvent →
    ∃ c < r, (events.get c).kind = .callEvent ∧ (events.get c).id = (events.get r).id
  returned : ∀ c : Fin events.length, (events.get c).kind = .callEvent →
    ∃ r, (events.get r).kind = .returnEvent ∧ (events.get r).id = (events.get c).id

/-- The operations that are called, in the order of their calls. -/
def calledIds (events : List (Event ι ο κ)) : List κ :=
  (events.filter fun e => e.kind = .callEvent).map Event.id

def Event.relabel {κ' : Type} (f : κ → κ') (e : Event ι ο κ) : Event ι ο κ' := ⟨e.value, f e.id⟩

theorem Event.kind_eq_call {e : Event ι ο κ} :
    e.kind = .callEvent ↔ ∃ input, e.value = .inl input := by
  rcases e with ⟨input | output, id⟩ <;> simp [kind]

theorem Event.kind_eq_return {e : Event ι ο κ} :
    e.kind = .returnEvent ↔ ∃ output, e.value = .inr output := by
  rcases e with ⟨input | output, id⟩ <;> simp [kind]

section Events
variable {events : List (Event ι ο κ)}

/-- The event at position `k`. -/
def EventAt (events : List (Event ι ο κ)) (kind : EventKind) (id : κ) (k : ℕ) : Prop :=
  ∃ e, events[k]? = some e ∧ e.kind = kind ∧ e.id = id

theorem eventAt_get {kind : EventKind} {id : κ} {k : ℕ} :
    EventAt events kind id k ↔
      ∃ h : k < events.length, (events.get ⟨k, h⟩).kind = kind ∧ (events.get ⟨k, h⟩).id = id := by
  constructor
  · rintro ⟨e, he, hk, hid⟩
    obtain ⟨h, rfl⟩ := List.getElem?_eq_some_iff.mp he
    exact ⟨h, hk, hid⟩
  · rintro ⟨h, hk, hid⟩
    exact ⟨_, List.getElem?_eq_getElem h, hk, hid⟩

theorem WellFormed.eventAt_unique (hw : WellFormed events) {kind : EventKind} {id : κ} {k k' : ℕ}
    (hk : EventAt events kind id k) (hk' : EventAt events kind id k') : k = k' := by
  obtain ⟨e, he, hek, heid⟩ := hk
  obtain ⟨e', he', hek', heid'⟩ := hk'
  have hkey : ∀ {j : ℕ} {e : Event ι ο κ}, events[j]? = some e →
      (events.map fun e => (e.kind, e.id))[j]? = some (e.kind, e.id) := fun h => by simp [h]
  obtain ⟨h, hg⟩ := List.getElem?_eq_some_iff.mp (hkey he)
  obtain ⟨h', hg'⟩ := List.getElem?_eq_some_iff.mp (hkey he')
  have heq : (e.kind, e.id) = (e'.kind, e'.id) := by rw [hek, heid, hek', heid']
  exact (List.Nodup.getElem_inj_iff hw.unique).mp (hg.trans (heq.trans hg'.symm))

theorem mem_calledIds {id : κ} : id ∈ calledIds events ↔ ∃ c, EventAt events .callEvent id c := by
  simp only [calledIds, List.mem_map, List.mem_filter, decide_eq_true_eq]
  constructor
  · rintro ⟨e, ⟨he, hk⟩, hid⟩
    obtain ⟨c, hc⟩ := List.mem_iff_getElem?.mp he
    exact ⟨c, e, hc, hk, hid⟩
  · rintro ⟨c, e, he, hk, hid⟩
    exact ⟨e, ⟨List.mem_of_getElem? he, hk⟩, hid⟩

theorem WellFormed.mem_calledIds_of_eventAt (hw : WellFormed events) {kind : EventKind} {id : κ}
    {k : ℕ} (hk : EventAt events kind id k) : id ∈ calledIds events := by
  cases kind with
  | callEvent => exact mem_calledIds.mpr ⟨k, hk⟩
  | returnEvent =>
    obtain ⟨hlen, hkind, hid⟩ := eventAt_get.mp hk
    obtain ⟨c, -, hck, hcid⟩ := hw.called ⟨k, hlen⟩ hkind
    exact mem_calledIds.mpr ⟨c, eventAt_get.mpr ⟨c.2, hck, hcid.trans hid⟩⟩

theorem WellFormed.calledIds_nodup (hw : WellFormed events) : (calledIds events).Nodup := by
  have hmap : calledIds events =
      ((events.map fun e => (e.kind, e.id)).filter fun x => x.1 = .callEvent).map Prod.snd := by
    rw [calledIds, List.filter_map, List.map_map]
    rfl
  rw [hmap]
  refine List.Nodup.map_on ?_ (hw.unique.filter _)
  intro x hx y hy hxy
  have hx' := of_decide_eq_true (List.mem_filter.mp hx).2
  have hy' := of_decide_eq_true (List.mem_filter.mp hy).2
  exact Prod.ext (hx'.trans hy'.symm) hxy

variable [DecidableEq κ]

def Event.is (kind : EventKind) (id : κ) (e : Event ι ο κ) : Bool := e.kind = kind ∧ e.id = id

/-- The operation with its positions in the history as times. -/
def eventOperation (events : List (Event ι ο κ)) (id : κ) : Option (Basis.Operation ι ο ℕ) := do
  let c ← events.findIdx? (Event.is .callEvent id)
  let r ← events.findIdx? (Event.is .returnEvent id)
  let call ← events[c]?
  let ret ← events[r]?
  let input ← call.value.getLeft?
  let output ← ret.value.getRight?
  some ⟨input, c, output, r⟩

/-- The operations of a history of events. -/
def eventOperations (events : List (Event ι ο κ)) : List (Basis.Operation ι ο ℕ) :=
  (calledIds events).filterMap (eventOperation events)

/-- The ids in the order in which `renumber` meets them. -/
def firstIds : List κ → List (Event ι ο κ) → List κ
  | ids, [] => ids
  | ids, e :: events => firstIds (if e.id ∈ ids then ids else ids ++ [e.id]) events

theorem prefix_firstIds (ids : List κ) (events : List (Event ι ο κ)) :
    ids <+: firstIds ids events := by
  induction events generalizing ids with
  | nil => exact List.prefix_rfl
  | cons e events ih =>
    refine List.IsPrefix.trans ?_ (ih _)
    split_ifs
    · exact List.prefix_rfl
    · exact List.prefix_append _ _

/-- An id that has been met keeps its number. -/
theorem idxOf_firstIds {ids : List κ} (events : List (Event ι ο κ)) {id : κ} (h : id ∈ ids) :
    (firstIds ids events).idxOf id = ids.idxOf id := by
  obtain ⟨more, hmore⟩ := prefix_firstIds ids events
  rw [← hmore, List.idxOf_append_of_mem h]

theorem renumberLoop_eq {m : κ → Option ℕ} {ids : List κ}
    (hm : ∀ id, m id = if id ∈ ids then some (ids.idxOf id) else none)
    (events : List (Event ι ο κ)) :
    renumberLoop m ids.length events =
      events.map (Event.relabel (firstIds ids events).idxOf) := by
  induction events generalizing m ids with
  | nil => rfl
  | cons e events ih =>
    by_cases hmem : e.id ∈ ids
    · have hid : m e.id = some (ids.idxOf e.id) := by rw [hm, if_pos hmem]
      simp only [renumberLoop, hid, firstIds, hmem, if_true, List.map_cons, Event.relabel]
      rw [ih hm, idxOf_firstIds events hmem]
    · have hid : m e.id = none := by rw [hm, if_neg hmem]
      have hlast : (ids ++ [e.id]).idxOf e.id = ids.length := by
        rw [List.idxOf_append_of_notMem hmem]
        simp
      have hm' : ∀ id, Function.update m e.id (some ids.length) id =
          if id ∈ ids ++ [e.id] then some ((ids ++ [e.id]).idxOf id) else none := by
        intro id
        by_cases heq : id = e.id
        · subst heq
          simp [hlast]
        · rw [Function.update_of_ne heq, hm]
          by_cases hin : id ∈ ids
          · rw [if_pos hin, if_pos (List.mem_append_left _ hin), List.idxOf_append_of_mem hin]
          · rw [if_neg hin, if_neg (by simp [hin, heq])]
      have := ih hm'
      rw [List.length_append, List.length_singleton] at this
      simp only [renumberLoop, hid, firstIds, hmem, if_false, List.map_cons, Event.relabel]
      rw [this, idxOf_firstIds events (by simp), hlast]

/-- In a well-formed history an id is first met at its call. -/
theorem WellFormed.firstIds_eq (hw : WellFormed events) :
    firstIds [] events = calledIds events := by
  have hloop : ∀ (suf pre : List (Event ι ο κ)), events = pre ++ suf →
      firstIds (calledIds pre) suf = calledIds events := by
    intro suf
    induction suf with
    | nil =>
      rintro pre rfl
      rw [List.append_nil]
      rfl
    | cons e suf ih =>
      rintro pre hpre
      have hnext := ih (pre ++ [e]) (by simp [hpre])
      have hcalls : calledIds (pre ++ [e]) =
          calledIds pre ++ if e.kind = .callEvent then [e.id] else [] := by
        by_cases hk : e.kind = .callEvent <;> simp [calledIds, hk]
      rw [hcalls] at hnext
      have hlen : pre.length < events.length := by simp [hpre]
      have hget : events.get ⟨pre.length, hlen⟩ = e := by simp [hpre]
      cases hk : e.kind with
      | callEvent =>
        have hnew : e.id ∉ calledIds pre := by
          intro hmem
          obtain ⟨e', he', hid⟩ := List.mem_map.mp hmem
          obtain ⟨he', hk'⟩ := List.mem_filter.mp he'
          have hu := hw.unique
          rw [hpre, List.map_append, List.nodup_append] at hu
          refine hu.2.2 _ (List.mem_map_of_mem he') (e.kind, e.id) (by simp) ?_
          rw [hid, hk, of_decide_eq_true hk']
        simpa [firstIds, hnew, hk] using hnext
      | returnEvent =>
        have hold : e.id ∈ calledIds pre := by
          obtain ⟨c, hc, hck, hcid⟩ := hw.called ⟨pre.length, hlen⟩ (by rw [hget, hk])
          have hc' : (c : ℕ) < pre.length := hc
          have hcget : events.get c = pre.get ⟨c, hc'⟩ := by
            simp [hpre, List.getElem_append_left hc']
          rw [hget] at hcid
          rw [hcget] at hck hcid
          refine List.mem_map.mpr ⟨_, List.mem_filter.mpr ⟨List.get_mem pre _, ?_⟩, hcid⟩
          exact decide_eq_true hck
        simpa [firstIds, hold, hk] using hnext
  exact hloop events [] rfl

/-- The new numbers count the calls. -/
theorem WellFormed.renumber_eq (hw : WellFormed events) :
    renumber events = events.map (Event.relabel (calledIds events).idxOf) := by
  have hnone : ∀ id : κ, (none : Option ℕ) =
      if id ∈ ([] : List κ) then some (List.idxOf id []) else none := by simp
  rw [← hw.firstIds_eq]
  exact renumberLoop_eq hnone events

theorem WellFormed.getElem?_entries (hw : WellFormed events) (k : ℕ) :
    (convertEntries (renumber events))[k]? =
      (events[k]?).map fun e => ⟨e.value, (calledIds events).idxOf e.id, k⟩ := by
  rw [convertEntries, hw.renumber_eq, List.getElem?_map, List.getElem?_zipIdx, List.getElem?_map]
  cases events[k]? with
  | none => rfl
  | some e => simp [Event.relabel]

theorem WellFormed.findIdx?_eq (hw : WellFormed events) {kind : EventKind} {id : κ} {k : ℕ}
    (hk : EventAt events kind id k) : events.findIdx? (Event.is kind id) = some k := by
  cases hfind : events.findIdx? (Event.is kind id) with
  | none =>
    obtain ⟨e, he, hek, heid⟩ := hk
    have := List.findIdx?_eq_none_iff.mp hfind e (List.mem_of_getElem? he)
    simp [Event.is, hek, heid] at this
  | some j =>
    obtain ⟨hj, his, -⟩ := List.findIdx?_eq_some_iff_getElem.mp hfind
    have hat : EventAt events kind id j := ⟨_, List.getElem?_eq_getElem hj, of_decide_eq_true his⟩
    rw [hw.eventAt_unique hat hk]

/-- A called operation with its two events. -/
theorem WellFormed.exists_events (hw : WellFormed events) {id : κ} (hid : id ∈ calledIds events) :
    ∃ c r input output, c < r ∧ events[c]? = some ⟨.inl input, id⟩ ∧
      events[r]? = some ⟨.inr output, id⟩ ∧
      eventOperation events id = some ⟨input, c, output, r⟩ := by
  obtain ⟨c, hc⟩ := mem_calledIds.mp hid
  obtain ⟨hclen, hck, hcid⟩ := eventAt_get.mp hc
  obtain ⟨r, hrk, hrid⟩ := hw.returned ⟨c, hclen⟩ hck
  have hr : EventAt events .returnEvent id r := eventAt_get.mpr ⟨r.2, hrk, hrid.trans hcid⟩
  obtain ⟨c', hlt, hck', hcid'⟩ := hw.called r hrk
  have hc' : EventAt events .callEvent id c' :=
    eventAt_get.mpr ⟨c'.2, hck', hcid'.trans (hrid.trans hcid)⟩
  have hfc := hw.findIdx?_eq hc
  have hfr := hw.findIdx?_eq hr
  obtain rfl := hw.eventAt_unique hc hc'
  obtain ⟨⟨v, _⟩, he, hek, rfl⟩ := hc
  obtain ⟨⟨w, _⟩, hf, hfk, rfl⟩ := hr
  obtain ⟨input, rfl⟩ := Event.kind_eq_call.mp hek
  obtain ⟨output, rfl⟩ := Event.kind_eq_return.mp hfk
  refine ⟨c', r, input, output, hlt, he, hf, ?_⟩
  simp only [eventOperation, hfc, hfr, he, hf, Option.bind_eq_bind, Option.bind_some,
    Sum.getLeft?_inl, Sum.getRight?_inr]

theorem WellFormed.eventOperation_eq (hw : WellFormed events) :
    (eventOperations events).map some = (calledIds events).map (eventOperation events) := by
  have hall : ∀ ids : List κ, (∀ id ∈ ids, id ∈ calledIds events) →
      (ids.filterMap (eventOperation events)).map some = ids.map (eventOperation events) := by
    intro ids
    induction ids with
    | nil => intro _; rfl
    | cons id ids ih =>
      intro hids
      obtain ⟨_, _, _, _, -, -, -, hop⟩ := hw.exists_events (hids id List.mem_cons_self)
      rw [List.filterMap_cons_some hop, List.map_cons, List.map_cons, hop,
        ih fun x hx => hids x (List.mem_cons_of_mem _ hx)]
  exact hall _ fun _ h => h

theorem WellFormed.length_eq (hw : WellFormed events) :
    (eventOperations events).length = (calledIds events).length := by
  simpa using congrArg List.length hw.eventOperation_eq

theorem WellFormed.eventOperation_get (hw : WellFormed events)
    (i : Fin (eventOperations events).length) :
    eventOperation events ((calledIds events).get (i.cast hw.length_eq)) =
      some ((eventOperations events).get i) := by
  have h := congrArg (fun l => l[(i : ℕ)]?) hw.eventOperation_eq
  have hi : (i : ℕ) < (calledIds events).length := hw.length_eq ▸ i.2
  simpa [List.getElem?_eq_getElem hi] using h.symm

/-- The entries of an operation are at the positions of its events. -/
theorem WellFormed.entryAt_iff (hw : WellFormed events) {kind : EntryKind} {id k : ℕ} :
    EntryAt (convertEntries (renumber events)) kind id k ↔
      ∃ id', (calledIds events).idxOf id' = id ∧
        EventAt events (if kind = .returnEntry then .returnEvent else .callEvent) id' k := by
  simp only [EntryAt, EventAt, hw.getElem?_entries]
  constructor
  · rintro ⟨e, he, rfl, rfl⟩
    obtain ⟨⟨input | output, id⟩, hv, rfl⟩ := Option.map_eq_some_iff.mp he
    · exact ⟨id, rfl, _, hv, rfl, rfl⟩
    · exact ⟨id, rfl, _, hv, rfl, rfl⟩
  · rintro ⟨_, rfl, ⟨value, id⟩, hv, hk, rfl⟩
    refine ⟨_, Option.map_eq_some_iff.mpr ⟨_, hv, rfl⟩, ?_, rfl⟩
    cases kind with
    | callEntry => exact Entry.kind_eq_call.mpr (Event.kind_eq_call.mp hk)
    | returnEntry => exact Entry.kind_eq_return.mpr (Event.kind_eq_return.mp hk)

theorem WellFormed.entryAt_unique (hw : WellFormed events) {kind : EntryKind} {id k k' : ℕ}
    (hk : EntryAt (convertEntries (renumber events)) kind id k)
    (hk' : EntryAt (convertEntries (renumber events)) kind id k') : k = k' := by
  obtain ⟨x, hx, hk⟩ := hw.entryAt_iff.mp hk
  obtain ⟨y, hy, hk'⟩ := hw.entryAt_iff.mp hk'
  obtain rfl := (List.idxOf_inj (hw.mem_calledIds_of_eventAt hk)).mp (hx.trans hy.symm)
  exact hw.eventAt_unique hk hk'

theorem WellFormed.entryAt_lt (hw : WellFormed events) {kind : EntryKind} {id k : ℕ}
    (hk : EntryAt (convertEntries (renumber events)) kind id k) :
    id < (eventOperations events).length := by
  obtain ⟨x, rfl, hat⟩ := hw.entryAt_iff.mp hk
  rw [hw.length_eq]
  exact List.idxOf_lt_length_iff.mpr (hw.mem_calledIds_of_eventAt hat)

/-- An operation has the positions of its entries as times. -/
theorem WellFormed.operation (hw : WellFormed events) (i : Fin (eventOperations events).length) :
    ∃ c r id input output, c < r ∧ EntryAt (convertEntries (renumber events)) .callEntry i c ∧
      EntryAt (convertEntries (renumber events)) .returnEntry i r ∧
      events[c]? = some ⟨.inl input, id⟩ ∧ events[r]? = some ⟨.inr output, id⟩ ∧
      (eventOperations events).get i = ⟨input, c, output, r⟩ := by
  obtain ⟨c, r, input, output, hlt, he, hf, hop⟩ :=
    hw.exists_events (List.get_mem (calledIds events) (i.cast hw.length_eq))
  have hidx : (calledIds events).idxOf ((calledIds events).get (i.cast hw.length_eq)) = i :=
    hw.calledIds_nodup.idxOf_getElem _ _
  refine ⟨c, r, _, input, output, hlt, ?_, ?_, he, hf,
    Option.some.inj ((hw.eventOperation_get i).symm.trans hop)⟩
  · exact hw.entryAt_iff.mpr ⟨_, hidx, _, he, rfl, rfl⟩
  · exact hw.entryAt_iff.mpr ⟨_, hidx, _, hf, rfl, rfl⟩

/-- The entries of well-formed events describe the operations of the history. -/
theorem WellFormed.describes (hw : WellFormed events) :
    Describes (convertEntries (renumber events)) (eventOperations events).get := by
  refine ⟨⟨hw.entryAt_lt, fun kind id hid => ?_, hw.entryAt_unique, fun {id c r} hc hr => ?_⟩,
    fun {k e i} he hid => ?_, fun {i j r c} hr hc => ?_⟩
  · obtain ⟨c, r, -, -, -, -, hc, hr, -⟩ := hw.operation ⟨id, hid⟩
    cases kind with
    | callEntry => exact ⟨c, hc⟩
    | returnEntry => exact ⟨r, hr⟩
  · obtain ⟨c', r', -, -, -, hlt, hc', hr', -⟩ := hw.operation ⟨id, hw.entryAt_lt hc⟩
    rwa [hw.entryAt_unique hc hc', hw.entryAt_unique hr hr']
  · obtain ⟨c, r, _, input, output, -, hc, hr, hv, hw', hget⟩ := hw.operation i
    have hat : EntryAt (convertEntries (renumber events)) e.kind i k := ⟨e, he, rfl, hid⟩
    rw [hw.getElem?_entries] at he
    obtain ⟨u, hu, hue⟩ := Option.map_eq_some_iff.mp he
    have hval : u.value = e.value := congrArg Entry.value hue
    rw [← hval, hget]
    cases hek : e.kind with
    | callEntry =>
      rw [hek] at hat
      obtain rfl := hw.entryAt_unique hat hc
      rw [if_pos rfl, Option.some.inj (hu.symm.trans hv)]
    | returnEntry =>
      rw [hek] at hat
      obtain rfl := hw.entryAt_unique hat hr
      rw [if_neg (by simp), Option.some.inj (hu.symm.trans hw')]
  · obtain ⟨_, r', _, _, _, -, -, hr', -, -, hi⟩ := hw.operation i
    obtain ⟨c', _, _, _, _, -, hc', -, -, -, hj⟩ := hw.operation j
    rw [Basis.Operation.Precedes, hi, hj, hw.entryAt_unique hr hr', hw.entryAt_unique hc hc']

/-- Other names for the operations do not change them. -/
theorem eventOperation_relabel {κ' : Type} [DecidableEq κ'] {f : κ → κ'} {id : κ}
    (hf : ∀ e ∈ events, f e.id = f id → e.id = id) :
    eventOperation (events.map (Event.relabel f)) (f id) = eventOperation events id := by
  have hfind : ∀ kind (l : List (Event ι ο κ)), l ⊆ events →
      (l.map (Event.relabel f)).findIdx? (Event.is kind (f id)) =
        l.findIdx? (Event.is kind id) := by
    intro kind l
    induction l with
    | nil => intro _; rfl
    | cons e l ih =>
      intro hl
      obtain ⟨he, hl⟩ := List.cons_subset.mp hl
      have his : (e.relabel f).is kind (f id) = e.is kind id := by
        simp only [Event.is, Event.relabel]
        congr 2
        exact propext ⟨hf e he, congrArg f⟩
      rw [List.map_cons, List.findIdx?_cons, List.findIdx?_cons, his, ih hl]
  simp only [eventOperation, hfind _ _ (List.Subset.refl events), List.getElem?_map,
    Option.bind_eq_bind, Option.bind_map]
  rfl

/-- The renumbered events have the same operations. -/
theorem WellFormed.eventOperations_renumber (hw : WellFormed events) :
    eventOperations (renumber events) = eventOperations events := by
  have hids : calledIds (events.map (Event.relabel (calledIds events).idxOf)) =
      (calledIds events).map (calledIds events).idxOf := by
    simp only [calledIds, List.filter_map, List.map_map]
    rfl
  rw [hw.renumber_eq, eventOperations, hids, List.filterMap_map]
  refine List.filterMap_congr fun id hid => eventOperation_relabel fun e he heq => ?_
  exact (List.idxOf_inj hid).mp heq.symm |>.symm

end Events

end RaftLabs.Porcupine
