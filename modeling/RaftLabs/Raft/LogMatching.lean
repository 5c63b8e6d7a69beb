import RaftLabs.Raft.ClusterRefinement

/-! Log matching over retained logs, in runs whose snapshots are installed cleanly. -/
namespace RaftLabs.Raft
open Basis Basis.Ledger

variable {n : ℕ} {C : Type}

/-- The terms of the retained log do not decrease. -/
def Server.TermsSorted (rf : Server n C) : Prop :=
  rf.logs.entries.Pairwise fun e e' => e.term ≤ e'.term

/-- If the retained logs have entries with the same index and term, they agree on the term of
every smaller index that both retain. -/
def Server.Matches (rf rf' : Server n C) : Prop :=
  ∀ e ∈ rf.logs.entries, ∀ e' ∈ rf'.logs.entries, e.index = e'.index → e.term = e'.term →
    ∀ d ∈ rf.logs.entries, ∀ d' ∈ rf'.logs.entries, d.index = d'.index → d.index ≤ e.index →
      d.term = d'.term

instance (rf : Server n C) : Decidable rf.TermsSorted :=
  inferInstanceAs (Decidable (List.Pairwise _ _))

section
variable {g : Ghost n C} {i j : Fin n} {rf rf' : Server n C}

theorem LogView.termAt {l : List (Item (Option C))} {logs : Log C} (h : LogView l logs)
    {e : Entry C} (he : e ∈ logs.entries) : Basis.termAt l e.index = some e.term := by
  obtain ⟨k, hk⟩ := List.getElem?_of_mem he
  obtain ⟨hi, x, hx, hxt, -⟩ := h.entry hk
  rw [← hi] at hx
  exact termAt_eq_some.mpr ⟨x, hx, hxt⟩

/-- The terms of a chained log do not decrease: an item brings along what its leader had
before it. -/
theorem Inv.chained_sorted (hi : g.Inv) {l : List (Item (Option C))} (hl : g.Chained 0 l)
    {p q t u : ℕ} (hp : termAt l p = some t) (hq : termAt l q = some u) (hpq : p ≤ q) : t ≤ u := by
  obtain ⟨x, hx, rfl⟩ := termAt_eq_some.mp hp
  obtain ⟨y, hy, rfl⟩ := termAt_eq_some.mp hq
  rw [hl q y hy p (Nat.zero_le _) hpq] at hx
  exact (hi.llog_chain hx).1

theorem View.termsSorted (h : View g i rf) (hi : g.Inv) (hw : g.Whole) : rf.TermsSorted := by
  rw [Server.TermsSorted, List.pairwise_iff_getElem]
  intro p q hp hq hpq
  have hep := h.log.entry (List.getElem?_eq_getElem hp)
  have heq := h.log.entry (List.getElem?_eq_getElem hq)
  refine Inv.chained_sorted hi (hw i) (h.log.termAt (List.getElem_mem hp))
    (h.log.termAt (List.getElem_mem hq)) ?_
  omega

theorem View.matches (h : View g i rf) (h' : View g j rf') (hw : g.Whole) : rf.Matches rf' := by
  intro e he e' he' hidx hterm d hd d' hd' hdidx hle
  have h₁ := h.log.termAt he
  have h₂ := h'.log.termAt he'
  rw [← hidx, ← hterm] at h₂
  have hagree := (hw i).agree (hw j) h₁ h₂ hle
  have h₃ := h.log.termAt hd
  have h₄ := h'.log.termAt hd'
  rw [← hdidx, Basis.termAt, ← hagree] at h₄
  exact Option.some.inj (h₃.symm.trans h₄)

end

/-- Log matching with compaction, in runs that neither take the newer-term branch of the
vote-reply closure nor install a snapshot under a suffix that does not belong to it. -/
theorem log_matching {r : ℕ → Cluster n C}
    (hr : Cluster.Run (fun c a => ¬ c.TakesNewerTermBranch a ∧ c.InstallsCleanly a) r)
    (k : ℕ) (i j : Fin n) :
    ((r k).servers i).TermsSorted ∧ ((r k).servers i).Matches ((r k).servers j) := by
  have : NeZero n := NeZero.of_pos i.pos
  obtain ⟨g, hsim, -, hwhole⟩ := hr.simulation True (fun _ _ h => h.1) (fun _ _ _ h => h.2)
  have hw := hwhole trivial k
  exact ⟨((hsim k).view i).termsSorted (hsim k).inv hw,
    ((hsim k).view i).matches ((hsim k).view j) hw⟩

/-- Server `s` of three has received both entries of server `t`, which leads term 1, when `t`
commits the first one with the third server and compacts its log. Server `s`, which has committed
nothing, installs the snapshot and keeps the second entry. -/
def suffixRun (s t : Fin n) : List (Action Bool n) :=
  [.electionTimeout t, .deliver 1, .deliver 1, .start t (some true), .start t (some false),
    .deliver 1, .deliver 4, .deliver 3, .deliver 6, .applierCopy t, .applierSend t,
    .snapshot t 1 [], .heartbeatTimeout t, .deliver 6, .condInstallSnapshot s 0]

theorem log_matching_suffixRun :
    ∃ r : ℕ → Cluster 3 Bool,
      Cluster.Run (fun c a => ¬ c.TakesNewerTermBranch a ∧ c.InstallsCleanly a) r ∧
      ((r 15).servers 0).logs.entries = [⟨1, 1, none⟩, ⟨2, 1, some false⟩] ∧
      ((r 15).servers 0).TermsSorted ∧ ((r 15).servers 0).Matches ((r 15).servers 1) :=
  have hr : Cluster.Run (fun c a => ¬ c.TakesNewerTermBranch a ∧ c.InstallsCleanly a)
      (trace Cluster.step (Cluster.init 3 Bool) (suffixRun 0 1)) :=
    ⟨trace_zero _ _, trace_isRun (by decide)⟩
  ⟨_, hr, by decide, log_matching hr 15 0 1⟩

/-- Server `s` of three leads term 1 and has two entries that nobody else has received. Server `t`
leads term 2, commits an entry with the third server and compacts its log. Server `s` installs the
snapshot below its own second entry. -/
def conflictRun (s t : Fin n) : List (Action Bool n) :=
  [.electionTimeout s, .deliver 0, .deliver 1, .start s (some true), .start s (some true),
    .electionTimeout t, .deliver 8, .deliver 8, .start t (some false), .deliver 11, .deliver 11,
    .applierCopy t, .applierSend t, .snapshot t 1 [], .heartbeatTimeout t, .deliver 11,
    .condInstallSnapshot s 0]

/-- A conflicting suffix survives the installation of a snapshot: an entry of term 1 follows
the snapshot point of term 2. -/
theorem termsSorted_conflictRun :
    ∃ r : ℕ → Cluster 3 Bool, Cluster.SafeRun r ∧
      ((r 17).servers 0).logs.entries = [⟨1, 2, none⟩, ⟨2, 1, some true⟩] ∧
      ¬ ((r 17).servers 0).TermsSorted :=
  ⟨trace Cluster.step (Cluster.init 3 Bool) (conflictRun 0 1),
    ⟨trace_zero _ _, trace_isRun (by decide)⟩, by decide, by decide⟩

end RaftLabs.Raft
