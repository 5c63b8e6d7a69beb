import RaftLabs.Porcupine.Checker

/-! The linked list that `makeLinkedEntries` builds: its nodes are those of the entries, in their
order, and a call knows the next return of its operation. -/
namespace RaftLabs.Porcupine
open Basis

variable {ι ο : Type}

theorem Entry.kind_eq_call {e : Entry ι ο} :
    e.kind = .callEntry ↔ ∃ input, e.value = .inl input := by
  rcases e with ⟨input | output, id, time⟩ <;> simp [kind]

theorem Entry.kind_eq_return {e : Entry ι ο} :
    e.kind = .returnEntry ↔ ∃ output, e.value = .inr output := by
  rcases e with ⟨input | output, id, time⟩ <;> simp [kind]

def Entry.isReturnOf (id : ℕ) (e : Entry ι ο) : Bool := e.kind = .returnEntry ∧ e.id = id

/-- The first of the entries, which are at the positions from `i` on, that is a return of the
operation. -/
def firstReturn (id i : ℕ) (entries : List (Entry ι ο)) : Option ℕ :=
  (entries.findIdx? (Entry.isReturnOf id)).map (i + ·)

/-- The node of the entry at position `i`, with what follows it. -/
def nodeOf (e : Entry ι ο) (i : ℕ) (later : List (Entry ι ο)) : Node ι ο :=
  ⟨e.value, if e.kind = .returnEntry then none else firstReturn e.id (i + 1) later, e.id⟩

/-- What the loop has built from the entries at the positions from `i` on. -/
structure LinkedFrom (i : ℕ) (entries : List (Entry ι ο)) (acc : LinkedEntries ι ο) : Prop where
  nodes : ∀ k, acc.nodes[k]? = (entries[k]?).map fun e => nodeOf e (i + k) (entries.drop (k + 1))
  returns : ∀ id, acc.returns id = firstReturn id i entries
  root : acc.root = if entries = [] then none else some i
  links : entries ≠ [] → acc.links.Represents i (List.range' (i + 1) (entries.length - 1))
  first : acc.links.prev i = none
  unused : ∀ k, k < i ∨ i + entries.length ≤ k → acc.links.next k = none ∧ acc.links.prev k = none

theorem firstReturn_cons (id i : ℕ) (e : Entry ι ο) (entries : List (Entry ι ο)) :
    firstReturn id i (e :: entries) =
      if e.isReturnOf id then some i else firstReturn id (i + 1) entries := by
  simp only [firstReturn, List.findIdx?_cons]
  split_ifs
  · rfl
  · rw [Option.map_map]
    congr 1
    funext k
    simp only [Function.comp_apply]
    omega

/-- A node that is not in the list becomes its first one. -/
theorem insertBefore_represents {links : Links ℕ} {n m : ℕ} {rest : List ℕ}
    (h : links.Represents m rest) (hn : n ∉ m :: rest) (hm : m ∉ rest)
    (hfirst : links.prev m = none) :
    (insertBefore links n (some m)).Represents n (m :: rest) := by
  simp only [insertBefore, hfirst]
  refine ⟨Function.update_self .., Function.update_self .., ?_⟩
  refine h.congr (fun y hy => Function.update_of_ne ?_ ..) fun y hy => Function.update_of_ne ?_ ..
  · rintro rfl
    exact hn hy
  · rintro rfl
    exact hm hy

theorem insertBefore_next_of_ne {links : Links ℕ} {n m k : ℕ} (hfirst : links.prev m = none)
    (hn : k ≠ n) : (insertBefore links n (some m)).next k = links.next k := by
  simp only [insertBefore, hfirst]
  exact Function.update_of_ne hn ..

theorem insertBefore_prev_of_ne {links : Links ℕ} {n m k : ℕ} (hfirst : links.prev m = none)
    (hm : k ≠ m) : (insertBefore links n (some m)).prev k = links.prev k := by
  simp only [insertBefore, hfirst]
  exact Function.update_of_ne hm ..

theorem linkEntry_linkedFrom {i : ℕ} {e : Entry ι ο} {entries : List (Entry ι ο)}
    {acc : LinkedEntries ι ο} (h : LinkedFrom (i + 1) entries acc) :
    LinkedFrom i (e :: entries) (linkEntry e i acc) := by
  have hroot : (linkEntry e i acc).root = some i := by
    unfold linkEntry
    split_ifs <;> rfl
  have hlinks : (linkEntry e i acc).links = insertBefore acc.links i acc.root := by
    unfold linkEntry
    split_ifs <;> rfl
  have hnodes : (linkEntry e i acc).nodes = nodeOf e i entries :: acc.nodes := by
    unfold linkEntry nodeOf
    split_ifs with hk
    · rfl
    · rw [h.returns]
  have hreturns : ∀ id, (linkEntry e i acc).returns id =
      if e.isReturnOf id then some i else acc.returns id := by
    intro id
    unfold linkEntry Entry.isReturnOf
    split_ifs with hk hr hr
    · obtain ⟨-, rfl⟩ := of_decide_eq_true hr
      exact Function.update_self ..
    · refine Function.update_of_ne ?_ ..
      rintro rfl
      simp [hk] at hr
    · simp [hk] at hr
    · rfl
  refine ⟨fun k => ?_, fun id => ?_, by rw [hroot, if_neg (by simp)], fun _ => ?_, ?_,
    fun k hk => ?_⟩
  · rw [hnodes]
    cases k with
    | zero => rfl
    | succ k =>
      rw [List.getElem?_cons_succ, List.getElem?_cons_succ, h.nodes k, List.drop_succ_cons,
        show i + 1 + k = i + (k + 1) by omega]
  · rw [hreturns, firstReturn_cons, h.returns]
  · rw [hlinks, h.root]
    cases entries with
    | nil => exact (h.unused i (Or.inl (Nat.lt_succ_self i))).1
    | cons e' entries =>
      rw [if_neg (by simp)]
      have hrep := h.links (by simp)
      simp only [List.length_cons, Nat.add_sub_cancel] at hrep ⊢
      rw [List.range'_succ]
      refine insertBefore_represents hrep ?_ ?_ h.first
      · simp only [List.mem_cons, List.mem_range'_1]
        omega
      · simp only [List.mem_range'_1]
        omega
  · have hfree := (h.unused i (Or.inl (Nat.lt_succ_self i))).2
    rw [hlinks, h.root]
    split_ifs with hnil
    · exact hfree
    · rw [insertBefore_prev_of_ne h.first (by omega), hfree]
  · have hfree := h.unused k (by rw [List.length_cons] at hk; omega)
    rw [hlinks, h.root]
    split_ifs with hnil
    · exact hfree
    · have hlen := List.length_pos_iff.mpr hnil
      rw [List.length_cons] at hk
      rw [insertBefore_next_of_ne h.first (by omega), insertBefore_prev_of_ne h.first (by omega)]
      exact hfree

theorem makeLinkedEntries_linkedFrom (entries : List (Entry ι ο)) :
    LinkedFrom 0 entries (makeLinkedEntries entries) := by
  have hgen : ∀ i, LinkedFrom i entries ((entries.zipIdx i).foldr
      (fun e acc => linkEntry e.1 e.2 acc)
      ⟨[], fun _ => none, ⟨fun _ => none, fun _ => none⟩, none⟩) := by
    induction entries with
    | nil =>
      intro i
      exact ⟨fun _ => rfl, fun _ => rfl, rfl, fun h => absurd rfl h, rfl, fun _ _ => ⟨rfl, rfl⟩⟩
    | cons e entries ih =>
      intro i
      rw [List.zipIdx_cons, List.foldr_cons]
      exact linkEntry_linkedFrom (ih (i + 1))
  exact hgen 0

/-- The list that starts with the head. -/
theorem startLinks_represents (entries : List (Entry ι ο)) :
    (insertBefore (makeLinkedEntries entries).links entries.length
      (makeLinkedEntries entries).root).Represents entries.length
        (List.range entries.length) := by
  have h := makeLinkedEntries_linkedFrom entries
  rw [h.root]
  split_ifs with hnil
  · subst hnil
    exact (h.unused 0 (Or.inr le_rfl)).1
  · have hlen := List.length_pos_iff.mpr hnil
    rw [List.range_eq_range', show entries.length = entries.length - 1 + 1 by omega,
      List.range'_succ]
    refine insertBefore_represents (h.links hnil) ?_ ?_ h.first
    · simp only [List.mem_cons, List.mem_range'_1]
      omega
    · simp only [List.mem_range'_1]
      omega

theorem length_of_represents {links : Links ℕ} {a fuel : ℕ} {rest : List ℕ}
    (h : links.Represents a rest) (hfuel : rest.length < fuel) :
    length links fuel (some a) = rest.length + 1 := by
  induction rest generalizing a fuel with
  | nil =>
    obtain ⟨fuel, rfl⟩ := Nat.exists_eq_succ_of_ne_zero (by omega : fuel ≠ 0)
    rw [length, show links.next a = none from h]
    cases fuel <;> rfl
  | cons b rest ih =>
    obtain ⟨fuel, rfl⟩ := Nat.exists_eq_succ_of_ne_zero (by omega : fuel ≠ 0)
    rw [length, h.1, ih h.2.2 (by simpa using hfuel)]
    rfl

/-- The number of entries. -/
theorem length_makeLinkedEntries (entries : List (Entry ι ο)) :
    length (makeLinkedEntries entries).links entries.length (makeLinkedEntries entries).root =
      entries.length := by
  have h := makeLinkedEntries_linkedFrom entries
  rw [h.root]
  split_ifs with hnil
  · subst hnil
    rfl
  · have hlen := List.length_pos_iff.mpr hnil
    rw [length_of_represents (h.links hnil) (by rw [List.length_range']; omega),
      List.length_range']
    omega

/-! Entries in which each operation is called and returns once. -/

/-- At position `k` is an entry of this kind of the operation. -/
def EntryAt (entries : List (Entry ι ο)) (kind : EntryKind) (id k : ℕ) : Prop :=
  ∃ e, entries[k]? = some e ∧ e.kind = kind ∧ e.id = id

/-- The operations `0` to `n - 1` are called once and return once, after their call. -/
structure Matched (entries : List (Entry ι ο)) (n : ℕ) : Prop where
  id_lt : ∀ {kind id k}, EntryAt entries kind id k → id < n
  exists_at : ∀ kind, ∀ id < n, ∃ k, EntryAt entries kind id k
  unique : ∀ {kind id k k'}, EntryAt entries kind id k → EntryAt entries kind id k' → k = k'
  call_lt : ∀ {id c r}, EntryAt entries .callEntry id c → EntryAt entries .returnEntry id r → c < r

variable {entries : List (Entry ι ο)} {n : ℕ}

theorem getElem?_nodes (entries : List (Entry ι ο)) (k : ℕ) :
    (makeLinkedEntries entries).nodes[k]? =
      (entries[k]?).map fun e => nodeOf e k (entries.drop (k + 1)) := by
  simpa using (makeLinkedEntries_linkedFrom entries).nodes k

/-- The node of a return. -/
theorem node_of_return {id r : ℕ} (hr : EntryAt entries .returnEntry id r) :
    ∃ output, (makeLinkedEntries entries).nodes[r]? = some ⟨.inr output, none, id⟩ := by
  obtain ⟨e, he, hk, rfl⟩ := hr
  obtain ⟨output, hv⟩ := Entry.kind_eq_return.mp hk
  exact ⟨output, by rw [getElem?_nodes, he, Option.map_some, nodeOf, if_pos hk, hv]⟩

/-- The node of a call has the return of its operation as match. -/
theorem Matched.node_of_call (h : Matched entries n) {id c r : ℕ}
    (hc : EntryAt entries .callEntry id c) (hr : EntryAt entries .returnEntry id r) :
    ∃ input, (makeLinkedEntries entries).nodes[c]? = some ⟨.inl input, some r, id⟩ := by
  have hlt := h.call_lt hc hr
  obtain ⟨e, he, hk, rfl⟩ := hc
  obtain ⟨input, hv⟩ := Entry.kind_eq_call.mp hk
  refine ⟨input, ?_⟩
  rw [getElem?_nodes, he, Option.map_some, nodeOf, if_neg (by rw [hk]; simp), hv]
  congr 2
  obtain ⟨e', he', hk', hid'⟩ := id hr
  -- the return is among the later entries, and it is the only one of the operation
  have hget : ∀ j, (entries.drop (c + 1))[j]? = entries[c + 1 + j]? := fun j => List.getElem?_drop
  have hmem : e' ∈ entries.drop (c + 1) := by
    refine List.mem_of_getElem? (i := r - (c + 1)) ?_
    rw [hget, show c + 1 + (r - (c + 1)) = r by omega, he']
  cases hfind : (entries.drop (c + 1)).findIdx? (Entry.isReturnOf e.id) with
  | none =>
    rw [List.findIdx?_eq_none_iff] at hfind
    have := hfind e' hmem
    simp [Entry.isReturnOf, hk', hid'] at this
  | some j =>
    obtain ⟨hj, hret, -⟩ := List.findIdx?_eq_some_iff_getElem.mp hfind
    obtain ⟨hkind, hid⟩ := of_decide_eq_true hret
    have hat : EntryAt entries .returnEntry e.id (c + 1 + j) :=
      ⟨_, by rw [← hget]; exact List.getElem?_eq_getElem hj, hkind, hid⟩
    rw [firstReturn, hfind, Option.map_some, h.unique hat hr]

end RaftLabs.Porcupine
