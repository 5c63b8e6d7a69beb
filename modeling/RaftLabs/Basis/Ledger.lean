import RaftLabs.Basis.Transition
import Mathlib.Data.Fintype.Card

/-! A replicated log with elected writers, without messages and without compaction. Each
term has at most one leader, whose log in that term only grows; the other servers adopt
prefixes of it. Logs are full: what a server has compacted away is still in its log here. -/
namespace Basis

variable {σ α : Type*}

structure Item (α : Type*) where
  term : ℕ
  value : α

/-- The term of the item at a position. -/
def termAt (l : List (Item α)) (i : ℕ) : Option ℕ := l[i]?.map Item.term

/-- The term of the last item. -/
def lastTerm (l : List (Item α)) : ℕ := (l.getLast?.map Item.term).getD 0

/-- More than half of the servers. -/
def Majority [Fintype σ] (Q : Finset σ) : Prop := Fintype.card σ < 2 * Q.card

theorem Majority.inter [Fintype σ] [DecidableEq σ] {P Q : Finset σ} (hp : Majority P)
    (hq : Majority Q) : ∃ s, s ∈ P ∧ s ∈ Q := by
  have hc : (Finset.univ : Finset σ).card < P.card + Q.card := by
    unfold Majority at hp hq
    rw [Finset.card_univ]
    omega
  obtain ⟨s, hs⟩ := Finset.inter_nonempty_of_card_lt_card_add_card
    (Finset.subset_univ P) (Finset.subset_univ Q) hc
  exact ⟨s, Finset.mem_inter.mp hs⟩

theorem Majority.nonempty [Fintype σ] {Q : Finset σ} (hq : Majority Q) : ∃ s, s ∈ Q := by
  unfold Majority at hq
  exact Finset.card_pos.mp (by omega)

/-- Replacing one value of a function of two arguments. -/
def update₂ {A B D : Type*} [DecidableEq A] [DecidableEq B] (f : A → B → D) (a : A) (b : B)
    (v : D) (x : A) (y : B) : D := if x = a ∧ y = b then v else f x y

@[simp] theorem update₂_self {A B D : Type*} [DecidableEq A] [DecidableEq B] (f : A → B → D)
    (a : A) (b : B) (v : D) : update₂ f a b v a b = v := by simp [update₂]

theorem update₂_of_not {A B D : Type*} [DecidableEq A] [DecidableEq B] (f : A → B → D)
    {a x : A} {b y : B} (v : D) (h : ¬ (x = a ∧ y = b)) : update₂ f a b v x y = f x y := by
  simp [update₂, h]

/-- The state of the replicated log.

`log s` is the log of server `s` and `base s` the number of its leading items that are
known to be committed. `ballot s T` is the vote of `s` in term `T` and `stood T c` the log
with which `c` stood for election in `T`. `ilog T` is the log of the leader of `T` at its
election and `llog T` its log now. `acked s T` counts the leading items of `llog T` that
`s` has acknowledged in `T`, and `commit T` those that the leader of `T` has committed. -/
structure Ledger (σ α : Type*) where
  term : σ → ℕ
  log : σ → List (Item α)
  base : σ → ℕ
  ballot : σ → ℕ → Option σ
  stood : ℕ → σ → Option (List (Item α))
  leader : ℕ → Option σ
  ilog : ℕ → List (Item α)
  llog : ℕ → List (Item α)
  acked : σ → ℕ → ℕ
  commit : ℕ → ℕ

namespace Ledger

/-- Every server holds one committed sentinel of term 0, and nobody has been elected. -/
def init (v : α) : Ledger σ α where
  term _ := 0
  log _ := [⟨0, v⟩]
  base _ := 1
  ballot _ _ := none
  stood _ _ := none
  leader _ := none
  ilog T := if T = 0 then [⟨0, v⟩] else []
  llog T := if T = 0 then [⟨0, v⟩] else []
  acked _ T := if T = 0 then 1 else 0
  commit T := if T = 0 then 1 else 0

/-- The comparison made by a voter: the last terms first, then the lengths. -/
def UpToDate (l m : List (Item α)) : Prop :=
  lastTerm m < lastTerm l ∨ (lastTerm m = lastTerm l ∧ m.length ≤ l.length)

/-- The first `k` items of `l` have been committed in some term up to `T₀`. -/
def Settled (g : Ledger σ α) (T₀ k : ℕ) (l : List (Item α)) : Prop :=
  ∃ T ≤ T₀, k ≤ g.commit T ∧ (g.llog T).take k <+: l

/-- The item `x` at position `i` has been committed in some term up to `T₀`. -/
def Committed (g : Ledger σ α) (T₀ i : ℕ) (x : Item α) : Prop :=
  ∃ T ≤ T₀, i < g.commit T ∧ (g.llog T)[i]? = some x

section Moves
variable [DecidableEq σ] (g : Ledger σ α)

def advance (s : σ) (T : ℕ) : Ledger σ α := { g with term := Function.update g.term s T }

def stand (c : σ) (T : ℕ) : Ledger σ α :=
  { g with
    term := Function.update g.term c T
    ballot := update₂ g.ballot c T (some c)
    stood := update₂ g.stood T c (some (g.log c)) }

def vote (s : σ) (T : ℕ) (c : σ) : Ledger σ α :=
  { g with ballot := update₂ g.ballot s T (some c) }

def elect (c : σ) (T : ℕ) : Ledger σ α :=
  { g with
    leader := Function.update g.leader T (some c)
    ilog := Function.update g.ilog T (g.log c)
    llog := Function.update g.llog T (g.log c)
    acked := update₂ g.acked c T (g.log c).length }

def append (c : σ) (T : ℕ) (v : α) : Ledger σ α :=
  { g with
    log := Function.update g.log c (g.log c ++ [⟨T, v⟩])
    llog := Function.update g.llog T (g.llog T ++ [⟨T, v⟩])
    acked := update₂ g.acked c T ((g.llog T).length + 1) }

/-- The log `l` results from accepting the first `m` items of `llog T`: a log that has them
already is kept, and any other is replaced by them. -/
def Accepted (s : σ) (T m : ℕ) (l : List (Item α)) : Prop :=
  ((g.llog T).take m <+: g.log s ∧ l = g.log s) ∨
    (¬ (g.llog T).take m <+: g.log s ∧ l = (g.llog T).take m)

/-- Accepting the first `m` items of `llog T`. A log that keeps a suffix ending in an older
term after items of `T` is not counted as an acknowledgement. -/
def accept (s : σ) (T m : ℕ) (l : List (Item α)) : Ledger σ α :=
  { g with
    log := Function.update g.log s l
    acked := update₂ g.acked s T
      (if T ≤ lastTerm l ∨ termAt (g.llog T) (m - 1) ≠ some T then
        max (g.acked s T) m else g.acked s T) }

def commitTo (T i : ℕ) : Ledger σ α := { g with commit := Function.update g.commit T (i + 1) }

/-- Installing the first `k` items of `llog T` while keeping what lies beyond them. -/
def install (s : σ) (T k : ℕ) : Ledger σ α :=
  { g with
    log := Function.update g.log s ((g.llog T).take k ++ (g.log s).drop k)
    base := Function.update g.base s k }

def compact (s : σ) (k : ℕ) : Ledger σ α := { g with base := Function.update g.base s k }

end Moves

/-- The moves of server `s`. Under `clean`, a server that installs committed items below the
end of its own log already holds an item of the right term there. -/
inductive Move [DecidableEq σ] [Fintype σ] (clean : Prop) (s : σ) (g : Ledger σ α) :
    Ledger σ α → Prop
  | advance (T : ℕ) (h : g.term s < T) : Move clean s g (g.advance s T)
  | stand (T : ℕ) (h : g.term s < T) : Move clean s g (g.stand s T)
  | vote (T : ℕ) (c : σ) (l : List (Item α)) (ht : g.term s = T) (hb : g.ballot s T = none)
      (hl : g.stood T c = some l) (hu : UpToDate l (g.log s)) : Move clean s g (g.vote s T c)
  | elect (T : ℕ) (Q : Finset σ) (hq : Majority Q) (hb : ∀ v ∈ Q, g.ballot v T = some s)
      (hn : g.leader T = none) (ht : g.term s = T) : Move clean s g (g.elect s T)
  | append (T : ℕ) (v : α) (hl : g.leader T = some s) (ht : g.term s = T) :
      Move clean s g (g.append s T v)
  | accept (T m p t : ℕ) (l : List (Item α)) (ht : g.term s = T) (hp : p < m)
      (hm : m ≤ (g.llog T).length) (hs : termAt (g.log s) p = some t)
      (hl : termAt (g.llog T) p = some t) (ha : g.Accepted s T m l) :
      Move clean s g (g.accept s T m l)
  | commitTo (T i : ℕ) (Q : Finset σ) (hl : g.leader T = some s) (hq : Majority Q)
      (hc : g.commit T ≤ i) (ht : termAt (g.llog T) i = some T)
      (ha : ∀ v ∈ Q, i < g.acked v T) : Move clean s g (g.commitTo T i)
  | install (T k : ℕ) (hk : 0 < k) (hc : k ≤ g.commit T) (ht : T ≤ g.term s)
      (hb : g.base s ≤ k)
      (hclean : clean → (g.log s).length ≤ k ∨
        termAt (g.log s) (k - 1) = termAt (g.llog T) (k - 1)) :
      Move clean s g (g.install s T k)
  | compact (k : ℕ) (hb : g.base s ≤ k) (hk : g.Settled (g.term s) k (g.log s)) :
      Move clean s g (g.compact s k)

end Ledger

end Basis
