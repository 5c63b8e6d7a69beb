import Mathlib.Data.List.Nodup
import Mathlib.Data.List.TakeWhile
import Mathlib.Tactic

/-! Grouping a sorted list by key with one pass over its runs of equal keys. A list that is
grouped part by part, where the part of an element is a function of its key, gives the same
groups as the whole list, up to their order and the order within a group. Also, splitting a text
that was written with terminators, and loops that append to their result. -/
namespace Basis

section Groups
variable {α K β : Type*} [DecidableEq K] {key : α → K} {l : List α} {g : List (K × List α)}

/-- The loop that cuts a list into its runs of equal keys. The fuel bounds the number of runs. -/
def runsFrom (key : α → K) : ℕ → List α → List (K × List α)
  | fuel + 1, a :: rest =>
    (key a, a :: rest.takeWhile fun b => key b = key a) ::
      runsFrom key fuel (rest.dropWhile fun b => key b = key a)
  | _, _ => []

def runs (key : α → K) (l : List α) : List (K × List α) := runsFrom key l.length l

/-- Each key once, with all of its elements in the order of the list. -/
structure IsGrouping (key : α → K) (l : List α) (g : List (K × List α)) : Prop where
  nodup : (g.map Prod.fst).Nodup
  mem_keys : ∀ k, k ∈ g.map Prod.fst ↔ k ∈ l.map key
  group : ∀ e ∈ g, e.2 = l.filter fun a => key a = e.1

/-- In a sorted list the elements with the first key come first. -/
theorem key_ne_of_mem_dropWhile {r : K → K → Prop} [Std.Antisymm r] {a b : α} {rest : List α}
    (hs : (a :: rest).Pairwise fun x y => r (key x) (key y))
    (hb : b ∈ rest.dropWhile fun x => key x = key a) : key b ≠ key a := by
  obtain ⟨hhead, htail⟩ := List.pairwise_cons.mp hs
  have hsub : (rest.dropWhile fun x => key x = key a) <:+ rest := List.dropWhile_suffix _
  cases hd : rest.dropWhile fun x => key x = key a with
  | nil =>
    rw [hd] at hb
    cases hb
  | cons c cs =>
    rw [hd] at hb hsub
    have hc : key c ≠ key a := by
      have hne : (rest.dropWhile fun x => key x = key a) ≠ [] := by
        rw [hd]
        exact List.cons_ne_nil c cs
      have hno := List.head_dropWhile_not (fun x => decide (key x = key a)) hne
      simp only [hd, List.head_cons, decide_eq_false_iff_not] at hno
      exact hno
    rcases List.mem_cons.mp hb with rfl | hmem
    · exact hc
    · intro heq
      -- `c` stands between `a` and an element with the same key
      have hcb := (List.pairwise_cons.mp (htail.sublist hsub.sublist)).1 b hmem
      have hac := hhead c (hsub.subset List.mem_cons_self)
      rw [heq] at hcb
      exact hc (Std.Antisymm.antisymm _ _ hcb hac)

/-- A group of elements with one key in front of elements with other keys. -/
theorem IsGrouping.cons {a : α} {before after : List α} (hg : IsGrouping key after g)
    (hbefore : ∀ b ∈ before, key b = key a) (hafter : ∀ b ∈ after, key b ≠ key a) :
    IsGrouping key (a :: (before ++ after)) ((key a, a :: before) :: g) where
  nodup := by
    rw [List.map_cons, List.nodup_cons]
    refine ⟨fun hmem => ?_, hg.nodup⟩
    obtain ⟨b, hb, heq⟩ := List.mem_map.mp ((hg.mem_keys _).mp hmem)
    exact hafter b hb heq
  mem_keys k := by
    have hk : k ∈ before.map key → k = key a := by
      intro hmem
      obtain ⟨b, hb, rfl⟩ := List.mem_map.mp hmem
      exact hbefore b hb
    simp only [List.map_cons, List.map_append, List.mem_cons, List.mem_append, hg.mem_keys]
    tauto
  group e he := by
    rcases List.mem_cons.mp he with rfl | he
    · have hall : (before.filter fun b => key b = key a) = before :=
        List.filter_eq_self.mpr fun b hb => decide_eq_true (hbefore b hb)
      have hnone : (after.filter fun b => key b = key a) = [] :=
        List.filter_eq_nil_iff.mpr fun b hb heq => hafter b hb (of_decide_eq_true heq)
      simp [List.filter_append, hall, hnone]
    · have hne : e.1 ≠ key a := by
        obtain ⟨b, hb, heq⟩ := List.mem_map.mp ((hg.mem_keys _).mp (List.mem_map_of_mem he))
        rw [← heq]
        exact hafter b hb
      have hnone : (before.filter fun b => key b = e.1) = [] :=
        List.filter_eq_nil_iff.mpr fun b hb heq =>
          hne ((of_decide_eq_true heq).symm.trans (hbefore b hb))
      simp [List.filter_append, hnone, hne.symm, hg.group e he]

theorem runsFrom_isGrouping {r : K → K → Prop} [Std.Antisymm r] (fuel : ℕ) {l : List α}
    (hlen : l.length ≤ fuel) (hs : l.Pairwise fun x y => r (key x) (key y)) :
    IsGrouping key l (runsFrom key fuel l) := by
  induction fuel generalizing l with
  | zero =>
    obtain rfl := List.length_eq_zero_iff.mp (Nat.le_zero.mp hlen)
    constructor <;> simp [runsFrom]
  | succ fuel ih =>
    cases l with
    | nil => constructor <;> simp [runsFrom]
    | cons a rest =>
      have hsuf := List.dropWhile_suffix (l := rest) fun b => decide (key b = key a)
      have hlater := ih (hsuf.length_le.trans (Nat.le_of_succ_le_succ hlen))
        ((List.pairwise_cons.mp hs).2.sublist hsuf.sublist)
      have hrun : ∀ b ∈ rest.takeWhile fun b => key b = key a, key b = key a := by
        intro b hb
        simpa using List.mem_takeWhile_imp hb
      have hgroup := hlater.cons hrun fun b hb => key_ne_of_mem_dropWhile hs hb
      rwa [List.takeWhile_append_dropWhile] at hgroup

/-- The runs of a sorted list are its groups. -/
theorem runs_isGrouping {r : K → K → Prop} [Std.Antisymm r]
    (hs : l.Pairwise fun x y => r (key x) (key y)) : IsGrouping key l (runs key l) :=
  runsFrom_isGrouping l.length le_rfl hs

theorem IsGrouping.eq_map (hg : IsGrouping key l g) :
    g = (g.map Prod.fst).map fun k => (k, l.filter fun a => key a = k) := by
  rw [List.map_map]
  conv_lhs => rw [← List.map_id g]
  apply List.map_congr_left
  intro e he
  exact Prod.ext rfl (hg.group e he)

/-- What is computed from each group without regard to the order in it, for a list that is grouped
in `n` parts and for the whole list. -/
theorem IsGrouping.flatMap_perm {n : ℕ} {ls : ℕ → List α} {gs : ℕ → List (K × List α)}
    {f : K × List α → β} (hg : IsGrouping key l g) (part : K → ℕ)
    (hlt : ∀ k, part k < n) (hgs : ∀ i < n, IsGrouping key (ls i) (gs i))
    (hls : ∀ i < n, (ls i).Perm (l.filter fun a => part (key a) = i))
    (hf : ∀ k xs ys, xs.Perm ys → f (k, xs) = f (k, ys)) :
    ((List.range n).flatMap fun i => (gs i).map f).Perm (g.map f) := by
  have hkeys : ∀ i < n, ∀ k, k ∈ (gs i).map Prod.fst ↔ k ∈ l.map key ∧ part k = i := by
    intro i hi k
    rw [(hgs i hi).mem_keys, ((hls i hi).map key).mem_iff]
    simp only [List.mem_map, List.mem_filter, decide_eq_true_eq]
    constructor
    · rintro ⟨a, ⟨ha, hp⟩, rfl⟩
      exact ⟨⟨a, ha, rfl⟩, hp⟩
    · rintro ⟨⟨a, ha, rfl⟩, hp⟩
      exact ⟨a, ⟨ha, hp⟩, rfl⟩
  have hpart : ∀ i ∈ List.range n, (gs i).map f =
      ((gs i).map Prod.fst).map fun k => f (k, l.filter fun a => key a = k) := by
    intro i hi
    have hin := List.mem_range.mp hi
    conv_lhs => rw [(hgs i hin).eq_map]
    rw [List.map_map]
    apply List.map_congr_left
    intro k hk
    apply hf
    refine ((hls i hin).filter _).trans ?_
    rw [List.filter_filter]
    apply List.Perm.of_eq
    apply List.filter_congr
    intro a _
    have hk' := ((hkeys i hin k).mp hk).2
    by_cases hak : key a = k
    · simp [hak, hk']
    · simp [hak]
  have hnodup : ((List.range n).flatMap fun i => (gs i).map Prod.fst).Nodup := by
    refine List.nodup_flatMap.mpr ⟨fun i hi => (hgs i (List.mem_range.mp hi)).nodup, ?_⟩
    refine List.nodup_range.pairwise_of_forall_ne fun i hi j hj hne k hki hkj => hne ?_
    exact ((hkeys i (List.mem_range.mp hi) k).mp hki).2.symm.trans
      ((hkeys j (List.mem_range.mp hj) k).mp hkj).2
  have hperm : ((List.range n).flatMap fun i => (gs i).map Prod.fst).Perm (g.map Prod.fst) := by
    refine (List.perm_ext_iff_of_nodup hnodup hg.nodup).mpr fun k => ?_
    rw [List.mem_flatMap, hg.mem_keys]
    constructor
    · rintro ⟨i, hi, hk⟩
      exact ((hkeys i (List.mem_range.mp hi) k).mp hk).1
    · intro hk
      exact ⟨part k, List.mem_range.mpr (hlt k), (hkeys _ (hlt k) k).mpr ⟨hk, rfl⟩⟩
  rw [List.flatMap_congr hpart, ← List.map_flatMap]
  conv_rhs => rw [hg.eq_map, List.map_map]
  exact hperm.map _

/-- The parts of a list, put together, are a permutation of it. -/
theorem range_flatMap_filter_perm (part : α → ℕ) {n : ℕ} {l : List α}
    (hlt : ∀ a ∈ l, part a < n) :
    ((List.range n).flatMap fun i => l.filter fun a => part a = i).Perm l := by
  induction n generalizing l with
  | zero =>
    have hnil : l = [] := List.eq_nil_iff_forall_not_mem.mpr fun a ha => by
      have := hlt a ha
      omega
    rw [hnil]
    rfl
  | succ n ih =>
    have hlast : (l.filter fun a => part a = n) = l.filter fun a => !decide (part a < n) := by
      apply List.filter_congr
      intro a ha
      have hle := hlt a ha
      rw [← decide_not, decide_eq_decide]
      omega
    have hearlier : ∀ i ∈ List.range n, (l.filter fun a => part a = i) =
        (l.filter fun a => part a < n).filter fun a => part a = i := by
      intro i hi
      rw [List.filter_filter]
      apply List.filter_congr
      intro a _
      have hin := List.mem_range.mp hi
      rw [← Bool.decide_and, decide_eq_decide]
      omega
    have hfew := ih (l := l.filter fun a => part a < n) fun a ha => by
      simpa using (List.mem_filter.mp ha).2
    rw [List.range_succ, List.flatMap_append, List.flatMap_singleton, hlast,
      List.flatMap_congr hearlier]
    exact (hfew.append_right _).trans (List.filter_append_perm _ l)

end Groups

section Text
variable {α β : Type*}

/-- A text made of records that each end with the separator. -/
theorem splitOn_terminated [BEq α] [LawfulBEq α] (sep : α) (text : β → List α) (records : List β) :
    (records.flatMap fun x => text x ++ [sep]).splitOn sep =
      (records.flatMap fun x => (text x).splitOn sep) ++ [[]] := by
  induction records with
  | nil => rfl
  | cons x records ih =>
    have hsplit := List.splitOnP_append_cons (p := (· == sep)) (text x)
      (records.flatMap fun x => text x ++ [sep]) (beq_self_eq_true sep)
    change List.splitOn sep _ = List.splitOn sep _ ++ List.splitOn sep _ at hsplit
    simp only [List.flatMap_cons, List.append_assoc, List.singleton_append]
    rw [hsplit, ih]

/-- A loop that appends to its result and does not fail. -/
theorem foldlM_eq_append {step : List α → β → Option (List α)} {f : β → List α} {l : List β}
    (h : ∀ acc, ∀ x ∈ l, step acc x = some (acc ++ f x)) (acc : List α) :
    l.foldlM step acc = some (acc ++ l.flatMap f) := by
  induction l generalizing acc with
  | nil => simp
  | cons x l ih =>
    rw [List.foldlM_cons, h acc x List.mem_cons_self]
    have hrest := ih (fun acc y hy => h acc y (List.mem_cons_of_mem x hy)) (acc ++ f x)
    simpa [List.append_assoc] using hrest

/-- What a loop that may fail has appended if it has not failed. -/
theorem foldlM_append_eq_some {step : List α → β → Option (List α)} {f : β → List α} {l : List β}
    (h : ∀ acc x acc', step acc x = some acc' → acc' = acc ++ f x) {acc out : List α}
    (hl : l.foldlM step acc = some out) : out = acc ++ l.flatMap f := by
  induction l generalizing acc with
  | nil =>
    obtain rfl : acc = out := by simpa using hl
    simp
  | cons x l ih =>
    rw [List.foldlM_cons] at hl
    obtain ⟨acc', hstep, hl⟩ := Option.bind_eq_some_iff.mp hl
    rw [ih hl, h acc x acc' hstep, List.flatMap_cons, List.append_assoc]

/-- The pieces of a text have no separator in them, and nothing else than the text. -/
theorem mem_splitOn [BEq α] [LawfulBEq α] {sep : α} {l s : List α} (h : s ∈ l.splitOn sep) :
    sep ∉ s ∧ s ⊆ l := by
  induction l generalizing s with
  | nil =>
    obtain rfl : s = [] := by simpa using h
    simp
  | cons x l ih =>
    have hcons : (x :: l).splitOn sep = if x == sep then [] :: l.splitOn sep
        else (l.splitOn sep).modifyHead (List.cons x) :=
      List.splitOnP_cons_eq_if_modifyHead (p := (· == sep)) x l
    rw [hcons] at h
    split_ifs at h with hx
    · rcases List.mem_cons.mp h with rfl | h
      · simp
      · obtain ⟨hsep, hsub⟩ := ih h
        exact ⟨hsep, List.subset_cons_of_subset x hsub⟩
    · cases hl : l.splitOn sep with
      | nil =>
        rw [hl] at h
        cases h
      | cons t ts =>
        rw [hl] at h ih
        rcases List.mem_cons.mp h with rfl | h
        · obtain ⟨hsep, hsub⟩ := ih List.mem_cons_self
          have hne : sep ≠ x := by
            rintro rfl
            simp at hx
          exact ⟨by simp [hne, hsep], List.cons_subset_cons x hsub⟩
        · obtain ⟨hsep, hsub⟩ := ih (List.mem_cons_of_mem t h)
          exact ⟨hsep, List.subset_cons_of_subset x hsub⟩

/-- A loop over the indices of a list. -/
theorem range_flatMap_getElem? (f : β → List α) (l : List β) :
    ((List.range l.length).flatMap fun i => (l[i]?).elim [] f) = l.flatMap f := by
  induction l using List.reverseRecOn with
  | nil => rfl
  | append_singleton l x ih =>
    have hbefore : ∀ i ∈ List.range l.length,
        ((l ++ [x])[i]?).elim [] f = (l[i]?).elim [] f := by
      intro i hi
      rw [List.getElem?_append_left (List.mem_range.mp hi)]
    rw [List.length_append, List.length_singleton, List.range_succ, List.flatMap_append,
      List.flatMap_congr hbefore, ih]
    simp

end Text

end Basis
