import Mathlib.Data.Finset.Basic
import Mathlib.Tactic

/-! The bitsets in which the linearizability checker keeps the operations it has linearized, and
the finite sets that they stand for. -/
namespace RaftLabs.Porcupine

/-- Bits 0-63 are in the first word, the next ones in the second, and so on. -/
abbrev Bitset := List UInt64

def newBitset (bits : ℕ) : Bitset :=
  let extra := if bits % 64 ≠ 0 then 1 else 0
  List.replicate (bits / 64 + extra) 0

namespace Bitset

def bitsetIndex (pos : ℕ) : ℕ × ℕ := (pos / 64, pos % 64)

/-- The word with only this bit. -/
def bit (minor : ℕ) : UInt64 := 1 <<< UInt64.ofNat minor

/-- It fails if the position is out of range. -/
def set (b : Bitset) (pos : ℕ) : Option Bitset :=
  let (major, minor) := bitsetIndex pos
  (b[major]?).map fun w => List.set b major (w ||| bit minor)

def clear (b : Bitset) (pos : ℕ) : Option Bitset :=
  let (major, minor) := bitsetIndex pos
  (b[major]?).map fun w => List.set b major (w &&& ~~~ bit minor)

def get (b : Bitset) (pos : ℕ) : Option Bool :=
  let (major, minor) := bitsetIndex pos
  (b[major]?).map fun w => w &&& bit minor ≠ 0

/-- `bits.OnesCount64` -/
def onesCount64 (w : UInt64) : ℕ := (List.range 64).countP fun i => w.toBitVec.getLsbD i

def popcnt (b : Bitset) : ℕ := (b.map onesCount64).sum

def hash (b : Bitset) : UInt64 := b.foldl (· ^^^ ·) (UInt64.ofNat b.popcnt)

def equals (b b2 : Bitset) : Bool :=
  if b.length ≠ b2.length then false
  else (List.range b.length).all fun i => b[i]? = b2[i]?

theorem equals_iff {b b2 : Bitset} : b.equals b2 ↔ b = b2 := by
  unfold equals
  split_ifs with hlen
  · simp only [false_iff]
    rintro rfl
    exact hlen rfl
  · simp only [List.all_eq_true, List.mem_range, decide_eq_true_eq]
    constructor
    · intro h
      apply List.ext_getElem?
      intro i
      by_cases hi : i < b.length
      · exact h i hi
      · rw [List.getElem?_eq_none (not_lt.mp hi), List.getElem?_eq_none]
        simpa using (not_not.mp hlen) ▸ not_lt.mp hi
    · rintro rfl i -
      rfl

theorem bit_getLsbD {i : ℕ} (hi : i < 64) (j : ℕ) :
    (bit i).toBitVec.getLsbD j = decide (j = i) := by
  rw [Bool.eq_iff_iff]
  simp only [bit, UInt64.toBitVec_shiftLeft, UInt64.toBitVec_ofNat', UInt64.toBitVec_one]
  simp
  omega

/-- The bitset of `n` bits stands for the set. -/
structure Holds (b : Bitset) (n : ℕ) (s : Finset ℕ) : Prop where
  length : b.length = (newBitset n).length
  lt : ∀ i ∈ s, i < n
  mem : ∀ i w, b[i / 64]? = some w → (w.toBitVec.getLsbD (i % 64) ↔ i ∈ s)

theorem holds_newBitset (n : ℕ) : (newBitset n).Holds n ∅ := by
  refine ⟨rfl, by simp, fun i w hw => ?_⟩
  obtain rfl : w = 0 := (List.mem_replicate.mp (List.mem_of_getElem? hw)).2
  simp

theorem index_lt {n pos : ℕ} (h : pos < n) : pos / 64 < (newBitset n).length := by
  simp only [newBitset, List.length_replicate]
  split_ifs <;> omega

variable {b b' : Bitset} {n pos : ℕ} {s : Finset ℕ}

/-- A bitset is determined by its set. -/
theorem Holds.eq (h : b.Holds n s) (h' : b'.Holds n s) : b = b' := by
  apply List.ext_getElem (h.length.trans h'.length.symm)
  intro k hk hk'
  apply UInt64.toBitVec_inj.mp
  apply BitVec.eq_of_getLsbD_eq
  intro j hj
  have hdiv : (64 * k + j) / 64 = k := by omega
  have hmod : (64 * k + j) % 64 = j := by omega
  have hb := h.mem (64 * k + j) b[k] (by rw [hdiv]; exact List.getElem?_eq_getElem hk)
  have hb' := h'.mem (64 * k + j) b'[k] (by rw [hdiv]; exact List.getElem?_eq_getElem hk')
  rw [hmod] at hb hb'
  exact Bool.eq_iff_iff.mpr (hb.trans hb'.symm)

/-- A bitset determines its set. -/
theorem Holds.inj {t : Finset ℕ} (h : b.Holds n s) (h' : b.Holds n t) : s = t := by
  ext i
  by_cases hi : i < n
  · have hw := List.getElem?_eq_getElem (h.length ▸ index_lt hi)
    rw [← h.mem i _ hw, ← h'.mem i _ hw]
  · exact ⟨fun hs => absurd (h.lt i hs) hi, fun ht => absurd (h'.lt i ht) hi⟩

/-- A word is changed at one bit. -/
theorem Holds.update (h : b.Holds n s) {w w' : UInt64} {t : Finset ℕ} (hw : b[pos / 64]? = some w)
    (hlt : ∀ i ∈ t, i < n) (hother : ∀ i, i ≠ pos → (i ∈ t ↔ i ∈ s))
    (hword : ∀ j < 64, w'.toBitVec.getLsbD j =
      if j = pos % 64 then decide (pos ∈ t) else w.toBitVec.getLsbD j) :
    Holds (List.set b (pos / 64) w') n t := by
  refine ⟨by rw [List.length_set, h.length], hlt, fun i v hv => ?_⟩
  by_cases hi : i / 64 = pos / 64
  · rw [hi, List.getElem?_set_self (List.getElem?_eq_some_iff.mp hw).1] at hv
    obtain rfl := Option.some.inj hv
    rw [hword _ (Nat.mod_lt _ (by decide))]
    split_ifs with hj
    · obtain rfl : i = pos := by omega
      exact decide_eq_true_iff
    · rw [h.mem i w (by rw [hi]; exact hw), hother i (fun he => hj (by rw [he]))]
  · rw [List.getElem?_set_ne (Ne.symm hi)] at hv
    rw [h.mem i v hv, hother i (fun he => hi (by rw [he]))]

theorem Holds.set (h : b.Holds n s) (hpos : pos < n) :
    ∃ b', b.set pos = some b' ∧ b'.Holds n (insert pos s) := by
  have hw := List.getElem?_eq_getElem (h.length ▸ index_lt hpos)
  refine ⟨_, by simp only [Bitset.set, bitsetIndex, hw, Option.map_some]; rfl, ?_⟩
  have hlt : ∀ i ∈ insert pos s, i < n := by
    intro i hi
    rcases Finset.mem_insert.mp hi with rfl | hi
    · exact hpos
    · exact h.lt i hi
  refine h.update hw hlt (fun i hi => by simp [hi]) fun j hj => ?_
  rw [UInt64.toBitVec_or, BitVec.getLsbD_or, bit_getLsbD (Nat.mod_lt _ (by decide))]
  split_ifs with hj' <;> simp [hj']

theorem Holds.clear (h : b.Holds n s) (hpos : pos < n) :
    ∃ b', b.clear pos = some b' ∧ b'.Holds n (s.erase pos) := by
  have hw := List.getElem?_eq_getElem (h.length ▸ index_lt hpos)
  refine ⟨_, by simp only [Bitset.clear, bitsetIndex, hw, Option.map_some]; rfl, ?_⟩
  have hlt : ∀ i ∈ s.erase pos, i < n := fun i hi => h.lt i (Finset.mem_of_mem_erase hi)
  refine h.update hw hlt (fun i hi => by simp [hi]) fun j hj => ?_
  rw [UInt64.toBitVec_and, UInt64.toBitVec_not, BitVec.getLsbD_and, BitVec.getLsbD_not,
    bit_getLsbD (Nat.mod_lt _ (by decide))]
  split_ifs with hj' <;> simp [hj', hj]

end Bitset

end RaftLabs.Porcupine
