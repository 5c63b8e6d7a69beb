import RaftLabs.Porcupine.Simulation

/-! The paths of the search are the beginnings of linearizations of the operations that the
entries describe. -/
namespace RaftLabs.Porcupine
open Basis DepthFirst

variable {σ ι ο T : Type}

/-- The entries are those of the operations, in an order that agrees with real time. -/
structure Describes [LT T] (entries : List (Entry ι ο)) {n : ℕ}
    (op : Fin n → Basis.Operation ι ο T) : Prop extends Matched entries n where
  value : ∀ {k : ℕ} {e : Entry ι ο} {i : Fin n}, entries[k]? = some e → e.id = i →
    e.value = if e.kind = .callEntry then .inl (op i).input else .inr (op i).output
  precedes : ∀ {i j : Fin n} {r c}, EntryAt entries .returnEntry i r →
    EntryAt entries .callEntry j c → ((op i).Precedes (op j) ↔ r < c)

/-- The path `p` linearizes the operations `l` and leads to the configuration `c`. -/
structure Orders (model : Filled σ ι ο) (entries : List (Entry ι ο)) {n : ℕ}
    (op : Fin n → Basis.Operation ι ο T) (p : List ℕ) (c : Finset ℕ × σ) (l : List (Fin n)) :
    Prop where
  ids : p.map (idAt entries) = l.map Fin.val
  set : c.1 = (l.map Fin.val).toFinset
  exec : model.spec.exec model.init (l.map op) = some c.2

theorem mem_takeWhile_of_sorted {l : List ℕ} (hl : l.Pairwise (· < ·)) {q : ℕ → Bool} {k : ℕ} :
    k ∈ l.takeWhile q ↔ k ∈ l ∧ ∀ j ∈ l, j ≤ k → q j := by
  induction l with
  | nil => simp
  | cons a l ih =>
    obtain ⟨ha, hl⟩ := List.pairwise_cons.mp hl
    by_cases hq : q a
    · rw [List.takeWhile_cons_of_pos hq, List.mem_cons, List.mem_cons, ih hl]
      constructor
      · rintro (rfl | ⟨hk, hall⟩)
        · refine ⟨Or.inl rfl, fun j hj hjk => ?_⟩
          rcases List.mem_cons.mp hj with rfl | hj
          · exact hq
          · exact absurd (ha j hj) (by omega)
        · refine ⟨Or.inr hk, fun j hj hjk => ?_⟩
          rcases List.mem_cons.mp hj with rfl | hj
          · exact hq
          · exact hall j hj hjk
      · rintro ⟨hk | hk, hall⟩
        · exact Or.inl hk
        · exact Or.inr ⟨hk, fun j hj => hall j (List.mem_cons_of_mem _ hj)⟩
    · rw [List.takeWhile_cons_of_neg hq]
      constructor
      · intro hk
        cases hk
      · rintro ⟨hk, hall⟩
        refine absurd (hall a List.mem_cons_self ?_) hq
        rcases List.mem_cons.mp hk with rfl | hk
        · exact le_rfl
        · exact (ha k hk).le

variable {model : Filled σ ι ο} {entries : List (Entry ι ο)} {n : ℕ}

/-- A call can be taken if no return is before it. -/
theorem mem_moves {c : Finset ℕ × σ} {k : ℕ} :
    k ∈ (problem model entries).moves c ↔ k ∈ remaining entries c.1 ∧
      ∀ j ∈ remaining entries c.1, j ≤ k → isCall entries j :=
  mem_takeWhile_of_sorted remaining_sorted

section Describes
variable {op : Fin n → Basis.Operation ι ο T} {c : Finset ℕ × σ} {p : List ℕ}
  {l : List (Fin n)} {i : Fin n} {k : ℕ}

theorem Orders.mem_iff (ho : Orders model entries op p c l) : ↑i ∈ c.1 ↔ i ∈ l := by
  rw [ho.set, List.mem_toFinset, List.mem_map]
  exact ⟨fun ⟨j, hj, hji⟩ => Fin.ext hji ▸ hj, fun hi => ⟨i, hi, rfl⟩⟩

theorem Orders.length_eq (ho : Orders model entries op p c l) : p.length = l.length := by
  simpa using congrArg List.length ho.ids

variable [LT T]

theorem Describes.irrefl (hd : Describes entries op) (i : Fin n) : ¬ (op i).Precedes (op i) := by
  obtain ⟨c, hc⟩ := hd.exists_at .callEntry i i.2
  obtain ⟨r, hr⟩ := hd.exists_at .returnEntry i i.2
  rw [hd.precedes hr hc]
  exact (hd.call_lt hc hr).not_gt

/-- A move is a step of the model by the operation. -/
theorem Describes.next (hd : Describes entries op) (hk : EntryAt entries .callEntry i k) :
    (problem model entries).next c k =
      (model.spec.step c.2 (op i).input (op i).output).map fun s => (insert ↑i c.1, s) := by
  have hid := hk.idAt_eq
  obtain ⟨v, r, w, hr, hv, hw⟩ := hd.nodes_of_call (isCall_iff.mpr (hid.symm ▸ hk))
  rw [problem_next hv hw]
  have hin : v = (op i).input := by
    obtain ⟨e, he, hkind, heid⟩ := hk
    rw [getElem?_nodes, he] at hv
    have hval : e.value = .inl v := congrArg Node.value (Option.some.inj hv)
    rw [hd.value he heid, if_pos hkind] at hval
    exact (Sum.inl.inj hval).symm
  have hout : w = (op i).output := by
    rw [hid] at hr
    obtain ⟨e, he, hkind, heid⟩ := hr
    rw [getElem?_nodes, he] at hw
    have hval : e.value = .inr w := congrArg Node.value (Option.some.inj hw)
    rw [hd.value he heid, if_neg (by simp [hkind])] at hval
    exact (Sum.inr.inj hval).symm
  rw [hin, hout, hid]
  simp only [Filled.spec]
  split_ifs <;> rfl

/-- The moves are the operations before which only linearized ones have returned. -/
theorem Orders.mem_moves_iff (hd : Describes entries op) (ho : Orders model entries op p c l)
    (hk : EntryAt entries .callEntry i k) :
    k ∈ (problem model entries).moves c ↔ i ∉ l ∧ ∀ j, (op j).Precedes (op i) → j ∈ l := by
  have hid := hk.idAt_eq
  rw [mem_moves, mem_remaining, hid, ho.mem_iff]
  constructor
  · rintro ⟨⟨-, hi⟩, hbefore⟩
    refine ⟨hi, fun j hji => ?_⟩
    obtain ⟨r, hr⟩ := hd.exists_at .returnEntry j j.2
    have hlt := (hd.precedes hr hk).mp hji
    by_contra hj
    refine not_isCall_of_return hr (hbefore r ?_ hlt.le)
    rw [mem_remaining, hr.idAt_eq, ho.mem_iff]
    exact ⟨hr.lt_length, hj⟩
  · rintro ⟨hi, hbefore⟩
    refine ⟨⟨hk.lt_length, hi⟩, fun r hr hle => ?_⟩
    obtain ⟨hlen, hnot⟩ := mem_remaining.mp hr
    by_contra hcall
    have hret := return_of_not_isCall hlen hcall
    have hne : r ≠ k := by
      rintro rfl
      exact hcall (isCall_iff.mpr (hid.symm ▸ hk))
    have hlt : idAt entries r < n := hd.id_lt hret
    have hprec := (hd.precedes (i := ⟨_, hlt⟩) hret hk).mpr (by omega)
    exact hnot (ho.mem_iff.mpr (hbefore ⟨_, hlt⟩ hprec))

/-- Taking a call appends its operation. -/
theorem Orders.concat (hd : Describes entries op) (ho : Orders model entries op p c l)
    (hk : EntryAt entries .callEntry i k) {d : Finset ℕ × σ}
    (hnext : (problem model entries).next c k = some d) :
    Orders model entries op (p ++ [k]) d (l ++ [i]) := by
  rw [hd.next hk] at hnext
  obtain ⟨s, hs, rfl⟩ := Option.map_eq_some_iff.mp hnext
  refine ⟨by simp [ho.ids, hk.idAt_eq], ?_, ?_⟩
  · ext x
    simp [ho.set]
  · rw [List.map_append, SeqSpec.exec_append, ho.exec]
    simp [hs]

/-- A path is the beginning of a linearization. -/
theorem Describes.partial_of_reaches (hd : Describes entries op)
    (h : (problem model entries).Reaches (∅, model.init) p c) :
    ∃ l, Orders model entries op p c l ∧ model.spec.PartiallyLinearizes op l := by
  induction p using List.reverseRecOn generalizing c with
  | nil =>
    obtain rfl : (∅, model.init) = c := h
    exact ⟨[], ⟨rfl, by simp, rfl⟩, SeqSpec.partiallyLinearizes_nil⟩
  | append_singleton p k ih =>
    obtain ⟨d, hd', hk, hnext⟩ := Problem.reaches_concat.mp h
    obtain ⟨l, ho, hl⟩ := ih hd'
    obtain ⟨hrem, hcall⟩ := mem_moves.mp hk
    have hat := isCall_iff.mp (hcall k hrem le_rfl)
    have hat' : EntryAt entries .callEntry (⟨_, hd.id_lt hat⟩ : Fin n) k := hat
    obtain ⟨hi, hbefore⟩ := (ho.mem_moves_iff hd hat').mp hk
    refine ⟨_, ho.concat hd hat' hnext, ?_⟩
    rw [hd.next hat'] at hnext
    obtain ⟨s, hs, -⟩ := Option.map_eq_some_iff.mp hnext
    exact (SeqSpec.partiallyLinearizes_concat hd.irrefl).mpr ⟨hl, hi, hbefore, _, s, ho.exec, hs⟩

/-- The beginning of a linearization is a path. -/
theorem Describes.reaches_of_partial (hd : Describes entries op)
    (hl : model.spec.PartiallyLinearizes op l) :
    ∃ p c, (problem model entries).Reaches (∅, model.init) p c ∧
      Orders model entries op p c l := by
  induction l using List.reverseRecOn with
  | nil => exact ⟨[], (∅, model.init), rfl, rfl, by simp, rfl⟩
  | append_singleton l i ih =>
    obtain ⟨hl, hi, hbefore, s, s', hs, hs'⟩ :=
      (SeqSpec.partiallyLinearizes_concat hd.irrefl).mp hl
    obtain ⟨p, c, hp, ho⟩ := ih hl
    obtain ⟨k, hk⟩ := hd.exists_at .callEntry i i.2
    obtain rfl : s = c.2 := Option.some.inj (hs.symm.trans ho.exec)
    have hnext : (problem model entries).next c k = some (insert ↑i c.1, s') := by
      rw [hd.next hk, hs']
      rfl
    exact ⟨p ++ [k], _, Problem.reaches_concat.mpr
      ⟨c, hp, (ho.mem_moves_iff hd hk).mpr ⟨hi, hbefore⟩, hnext⟩, ho.concat hd hk hnext⟩

theorem Orders.goal_iff (hd : Describes entries op) (ho : Orders model entries op p c l) :
    (problem model entries).goal c ↔ ∀ i, i ∈ l := by
  change (remaining entries c.1).isEmpty ↔ _
  rw [List.isEmpty_iff, List.eq_nil_iff_forall_not_mem]
  constructor
  · intro hnone i
    obtain ⟨k, hk⟩ := hd.exists_at .callEntry i i.2
    have := hnone k
    rw [mem_remaining, hk.idAt_eq, ho.mem_iff, not_and, not_not] at this
    exact this hk.lt_length
  · intro hall k hk
    obtain ⟨hlen, hnot⟩ := mem_remaining.mp hk
    obtain ⟨kind, hat⟩ := entryAt_of_lt hlen
    exact hnot (ho.mem_iff.mpr (hall ⟨_, hd.id_lt hat⟩))

/-- A goal can be reached if and only if the operations can be linearized. -/
theorem Describes.solvable_iff (hd : Describes entries op) :
    (∃ p c, (problem model entries).Reaches (∅, model.init) p c ∧
      (problem model entries).goal c) ↔
      model.spec.Linearizable ((List.finRange n).map op) := by
  rw [SeqSpec.linearizable_iff_partiallyLinearizes]
  constructor
  · rintro ⟨p, c, hp, hgoal⟩
    obtain ⟨l, ho, hl⟩ := hd.partial_of_reaches hp
    exact ⟨l, hl, (ho.goal_iff hd).mp hgoal⟩
  · rintro ⟨l, hl, hall⟩
    obtain ⟨p, c, hp, ho⟩ := hd.reaches_of_partial hl
    exact ⟨p, c, hp, (ho.goal_iff hd).mpr hall⟩

end Describes

/-! The number of entries and of moves. -/

/-- Entries of one kind are as many as operations. -/
theorem Matched.length_le (hm : Matched entries n) (kind : EntryKind) {ks : List ℕ}
    (hnodup : ks.Nodup) (hkind : ∀ k ∈ ks, EntryAt entries kind (idAt entries k) k) :
    ks.length ≤ n := by
  have hinj : (ks.map (idAt entries)).Nodup := by
    refine List.Nodup.map_on (fun k hk k' hk' heq => ?_) hnodup
    exact hm.unique (hkind k hk) (heq ▸ hkind k' hk')
  have hsub : ks.map (idAt entries) ⊆ List.range n := by
    intro id hid
    obtain ⟨k, hk, rfl⟩ := List.mem_map.mp hid
    exact List.mem_range.mpr (hm.id_lt (hkind k hk))
  simpa using (List.subperm_of_subset hinj hsub).length_le

theorem Describes.bounded [LT T] {op : Fin n → Basis.Operation ι ο T} (hd : Describes entries op) :
    Problem.Bounded (problem model entries) (∅, model.init) n n where
  depth {p c} hp := by
    obtain ⟨l, ho, hl⟩ := hd.partial_of_reaches hp
    rw [ho.length_eq]
    simpa using hl.nodup.length_le_card
  moves {p c} _ := by
    refine hd.length_le .callEntry ?_ fun k hk => ?_
    · exact (List.takeWhile_sublist _).nodup remaining_nodup
    · obtain ⟨hrem, hcall⟩ := mem_moves.mp hk
      exact isCall_iff.mp (hcall k hrem le_rfl)

end RaftLabs.Porcupine
