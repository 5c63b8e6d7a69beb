import RaftLabs.Porcupine.Search

/-! Each round of the loop of `checkSingle` is a round of the depth-first search. The frames of the
stack are kept in the list of calls and in the pointers of the nodes that were taken out. -/
namespace RaftLabs.Porcupine
open Basis DepthFirst

variable {σ ι ο : Type} {model : Filled σ ι ο} {entries : List (Entry ι ο)} {n : ℕ}

/-- `lift` takes out the call and then the return. -/
theorem lift_eq {links l₁ : Links ℕ} {k r b c b' : ℕ} (hprev : links.prev k = some b)
    (hb : b ≠ k) (hnext : links.next k = some c) (h₁ : links.unlink k = some l₁)
    (hprev' : l₁.prev r = some b') (hb' : b' ≠ r) : lift links k r = l₁.unlink r := by
  obtain rfl : (links.setNext b (some c)).setPrev c (some b) = l₁ := by
    simpa [Links.unlink, hprev, hnext] using h₁
  have hk : (links.setNext b (some c)).next k = some c := by
    rw [← hnext]
    exact Function.update_of_ne hb.symm ..
  have hk' : (links.setNext b (some c)).prev k = some b := hprev
  simp only [lift, hprev, hnext, Option.bind_eq_bind, Option.bind_some, hk, hk', hprev',
    Links.unlink, Option.map_some]
  set l := (links.setNext b (some c)).setPrev c (some b) with hl
  have hr : (l.setNext b' (l.next r)).next r = l.next r := Function.update_of_ne hb'.symm ..
  rw [hr]
  cases hn : l.next r with
  | none => rfl
  | some d =>
    simp only [Option.some.injEq]
    rw [show (l.setNext b' (some d)).prev r = some b' from hprev']

/-- `unlift` puts back the return and then the call. -/
theorem unlift_eq {links l₁ : Links ℕ} {k r b c b' : ℕ} (hprev' : links.prev r = some b')
    (hb' : b' ≠ r) (h₁ : links.relink r = some l₁) (hprev : l₁.prev k = some b) (hb : b ≠ k)
    (hnext : l₁.next k = some c) : unlift links k r = l₁.relink k := by
  have hr : (links.setNext b' (some r)).next r = links.next r := Function.update_of_ne hb'.symm ..
  have hk : (l₁.setNext b (some k)).next k = some c := by
    rw [← hnext]
    exact Function.update_of_ne hb.symm ..
  have hcall : l₁.relink k = some ((l₁.setNext b (some k)).setPrev c (some k)) := by
    simp only [Links.relink, hprev, hnext, Option.map_some]
  rw [Links.relink, hprev', Option.map_some, Option.some.injEq] at h₁
  simp only [unlift, hprev', Option.bind_eq_bind, Option.bind_some, hr]
  cases hn : links.next r with
  | none =>
    rw [hn] at h₁
    obtain rfl : links.setNext b' (some r) = l₁ := h₁
    simp only [hprev, Option.bind_some, hk, hcall]
  | some d =>
    rw [hn] at h₁
    obtain rfl : (links.setNext b' (some r)).setPrev d (some r) = l₁ := h₁
    simp only [hprev, Option.bind_some, hk, hcall]

/-- The node before another one in the list. -/
theorem exists_prev {links : Links ℕ} {head k : ℕ} {pre suf : List ℕ}
    (h : links.Represents head (pre ++ k :: suf)) (hn : (head :: (pre ++ k :: suf)).Nodup) :
    ∃ b, links.prev k = some b ∧ b ≠ k := by
  induction pre generalizing head with
  | nil =>
    refine ⟨head, h.2.1, ?_⟩
    rintro rfl
    exact (List.nodup_cons.mp hn).1 List.mem_cons_self
  | cons a pre ih => exact ih h.2.2 (List.nodup_cons.mp hn).2

/-- `lift` on the list, and `unlift` after it. -/
theorem lift_represents {links : Links ℕ} {head k r : ℕ} {pre s₁ s₂ : List ℕ}
    (h : links.Represents head (pre ++ k :: (s₁ ++ r :: s₂)))
    (hn : (head :: (pre ++ k :: (s₁ ++ r :: s₂))).Nodup) :
    ∃ links', lift links k r = some links' ∧ links'.Represents head (pre ++ (s₁ ++ s₂)) ∧
      unlift links' k r = some links := by
  obtain ⟨b, hprev, hb⟩ := exists_prev h hn
  obtain ⟨c, hnext⟩ : ∃ c, links.next k = some c := by
    rw [h.drop.next]
    cases s₁ with
    | nil => exact ⟨r, rfl⟩
    | cons c s₁ => exact ⟨c, rfl⟩
  obtain ⟨l₁, h₁, hrep₁, -, -, hback₁⟩ := h.unlink hn
  have hn₁ : (head :: (pre ++ (s₁ ++ r :: s₂))).Nodup := by
    refine hn.sublist (List.Sublist.cons_cons _ ?_)
    exact (List.Sublist.refl pre).append (List.sublist_cons_self _ _)
  rw [← List.append_assoc] at hrep₁ hn₁
  obtain ⟨b', hprev', hb'⟩ := exists_prev hrep₁ hn₁
  obtain ⟨l₂, h₂, hrep₂, hnext₂, hprev₂, hback₂⟩ := hrep₁.unlink hn₁
  rw [List.append_assoc] at hrep₂
  refine ⟨l₂, (lift_eq hprev hb hnext h₁ hprev' hb').trans h₂, hrep₂, ?_⟩
  have hr₂ : l₂.prev r = some b' := by
    rw [hprev₂ r fun hr => ?_, hprev']
    have := (List.nodup_append.mp (List.nodup_cons.mp hn₁).2).2.1
    exact (List.nodup_cons.mp this).1 hr
  have hk₁ : l₁.prev k = some b ∧ l₁.next k = some c := by
    rw [Links.unlink, hprev, Option.map_some, Option.some.injEq, hnext] at h₁
    obtain rfl : (links.setNext b (some c)).setPrev c (some b) = l₁ := h₁
    have hck : c ≠ k := by
      rintro rfl
      have := h.drop.next
      rw [hnext] at this
      have hmem : c ∈ s₁ ++ r :: s₂ := List.mem_of_mem_head? this.symm
      have := (List.nodup_append.mp (List.nodup_cons.mp hn).2).2.1
      exact (List.nodup_cons.mp this).1 hmem
    exact ⟨(Function.update_of_ne hck.symm ..).trans hprev,
      (Function.update_of_ne hb.symm ..).trans hnext⟩
  exact (unlift_eq hr₂ hb' hback₂ hk₁.1 hb hk₁.2).trans hback₁

/-- Where the loop stands in the list of the remaining entries: it has passed calls only. -/
def AtEntry (entries : List (Entry ι ο)) (L : Finset ℕ) (todo : List ℕ) (entry : Option ℕ) : Prop :=
  ∃ pre suf, remaining entries L = pre ++ suf ∧ (∀ k ∈ pre, isCall entries k) ∧
    entry = suf.head? ∧ todo = suf.takeWhile (isCall entries)

/-- The pointers link the remaining entries, and unlifting the calls, from the last one on, gives
those of the frames below. -/
def Unwinds (entries : List (Entry ι ο)) (links : Links ℕ) :
    List (ℕ × Frame (Finset ℕ × σ) ℕ) → Finset ℕ → Prop
  | [], L => links.Represents entries.length (remaining entries L)
  | (k, f) :: below, L =>
    links.Represents entries.length (remaining entries L) ∧
      ∃ links₀ r v, L = insert (idAt entries k) f.config.1 ∧ idAt entries k ∉ f.config.1 ∧
        (makeLinkedEntries entries).nodes[k]? = some ⟨v, some r, idAt entries k⟩ ∧
        unlift links k r = some links₀ ∧ Unwinds entries links₀ below f.config.1 ∧
        AtEntry entries f.config.1 f.todo (links₀.next k)

theorem Unwinds.represents {links : Links ℕ} {below : List (ℕ × Frame (Finset ℕ × σ) ℕ)}
    {L : Finset ℕ} (h : Unwinds entries links below L) :
    links.Represents entries.length (remaining entries L) := by
  cases below with
  | nil => exact h
  | cons x below => exact h.1

/-- The update of `longest` by a sequence of operations. -/
def record (seq : List ℕ) (longest : Longest) : Longest :=
  seq.foldl
    (fun longest id =>
      if (longest id).elim true fun old => old.length < seq.length then
        Function.update longest id (some seq)
      else longest) longest

theorem recordPartial_eq {nodes : List (Node ι ο)} {calls : List (ℕ × σ)} {seq : List ℕ}
    (hseq : callIds nodes calls = some seq) (hlen : seq.length = calls.length)
    (hlt : ∀ id ∈ seq, id < n) (longest : Longest) :
    recordPartial nodes n calls longest = some (record seq longest) := by
  rw [recordPartial, hseq]
  refine foldlM_eq_some_foldl (fun id hid longest => ?_) longest
  rw [if_pos (hlt id hid), hlen]
  split_ifs <;> rfl

/-- The paths that the search has given up are recorded. -/
def recorded (entries : List (Entry ι ο)) (computePartial : Bool) (log : List (List ℕ)) :
    Longest :=
  if computePartial then
    log.foldl (fun longest path => record (path.map (idAt entries)) longest) fun _ => none
  else fun _ => none

/-- The variables of the loop against the state of the search. -/
structure Sim (entries : List (Entry ι ο)) (n : ℕ) (computePartial : Bool) (s : Search σ)
    (a : State (Finset ℕ × σ) ℕ) : Prop where
  unwinds : Unwinds entries s.links a.below a.top.config.1
  entry : AtEntry entries a.top.config.1 a.top.todo s.entry
  state : s.state = a.top.config.2
  linearized : s.linearized.Holds n a.top.config.1
  cache : ∀ e : CacheEntry σ, e ∈ s.cache e.linearized.hash ↔
    ∃ L, e.linearized.Holds n L ∧ (L, e.state) ∈ a.seen
  calls : s.calls = (a.below.map fun x => (x.1, x.2.config.2)).reverse
  longest : s.longest = recorded entries computePartial a.log

variable {computePartial : Bool} {s : Search σ} {a : State (Finset ℕ × σ) ℕ}

/-- The calls of the frames are nodes of linearized operations. -/
theorem Unwinds.node {links : Links ℕ} {below : List (ℕ × Frame (Finset ℕ × σ) ℕ)}
    {L : Finset ℕ} (h : Unwinds entries links below L) {x : ℕ × Frame (Finset ℕ × σ) ℕ}
    (hx : x ∈ below) :
    ((makeLinkedEntries entries).nodes[x.1]?).map Node.id = some (idAt entries x.1) ∧
      idAt entries x.1 ∈ L := by
  induction below generalizing links L with
  | nil => cases hx
  | cons y below ih =>
    obtain ⟨-, links₀, r, v, rfl, -, hnode, -, hbelow, -⟩ := h
    rcases List.mem_cons.mp hx with rfl | hx
    · rw [hnode]
      exact ⟨rfl, Finset.mem_insert_self _ _⟩
    · obtain ⟨hid, hmem⟩ := ih hbelow hx
      exact ⟨hid, Finset.mem_insert_of_mem hmem⟩

theorem Sim.callIds_eq (h : Sim entries n computePartial s a) :
    callIds (makeLinkedEntries entries).nodes s.calls = some (a.path.map (idAt entries)) := by
  have hnode : ∀ v ∈ s.calls, ((makeLinkedEntries entries).nodes[v.1]?).map Node.id =
      some (idAt entries v.1) := by
    intro v hv
    rw [h.calls, List.mem_reverse] at hv
    obtain ⟨x, hx, rfl⟩ := List.mem_map.mp hv
    exact (h.unwinds.node hx).1
  rw [callIds, mapM_eq_some_map hnode, h.calls, State.path, List.map_reverse, List.map_map,
    List.map_reverse, List.map_map]
  rfl

theorem Sim.recordPartial_eq (h : Sim entries n computePartial s a) (longest : Longest) :
    recordPartial (makeLinkedEntries entries).nodes n s.calls longest =
      some (record (a.path.map (idAt entries)) longest) := by
  refine Porcupine.recordPartial_eq h.callIds_eq ?_ (fun id hid => ?_) longest
  · rw [h.calls]
    simp [State.path]
  · obtain ⟨k, hk, rfl⟩ := List.mem_map.mp hid
    rw [State.path, List.mem_reverse] at hk
    obtain ⟨x, hx, rfl⟩ := List.mem_map.mp hk
    exact h.linearized.lt _ (h.unwinds.node hx).2

/-- The cache is searched like the table. -/
theorem Sim.cacheContains_iff (h : Sim entries n computePartial s a) {b : Bitset} {L : Finset ℕ}
    (hb : b.Holds n L) (state : σ) :
    cacheContains model s.cache ⟨b, state⟩ =
      a.seen.any ((problem model entries).same (L, state)) := by
  rw [Bool.eq_iff_iff]
  simp only [cacheContains, List.any_eq_true, Bool.and_eq_true, Bitset.equals_iff, problem,
    decide_eq_true_eq]
  constructor
  · rintro ⟨e, he, rfl, hequal⟩
    obtain ⟨L', hL', hseen⟩ := (h.cache e).mp he
    obtain rfl := hb.inj hL'
    exact ⟨_, hseen, rfl, hequal⟩
  · rintro ⟨⟨L', t⟩, hseen, rfl, hequal⟩
    exact ⟨⟨b, t⟩, (h.cache ⟨b, t⟩).mpr ⟨L, hb, hseen⟩, rfl, hequal⟩

/-- There is an entry to look at as long as some remain: the last of them is a return. -/
theorem Sim.exists_entry (hm : Matched entries n) (h : Sim entries n computePartial s a)
    (hgoal : remaining entries a.top.config.1 ≠ []) :
    ∃ pre k suf, remaining entries a.top.config.1 = pre ++ k :: suf ∧
      (∀ j ∈ pre, isCall entries j) ∧ s.entry = some k ∧
      a.top.todo = (k :: suf).takeWhile (isCall entries) := by
  obtain ⟨pre, suf, hrem, hpre, hentry, htodo⟩ := h.entry
  cases suf with
  | cons k suf => exact ⟨pre, k, suf, hrem, hpre, hentry, htodo⟩
  | nil =>
    exfalso
    rw [List.append_nil] at hrem
    have hall : ∀ j ∈ remaining entries a.top.config.1, isCall entries j := hrem ▸ hpre
    obtain ⟨j, rest, hj⟩ := List.exists_cons_of_ne_nil hgoal
    have hjmem : j ∈ remaining entries a.top.config.1 := by simp [hj]
    have hsplit : remaining entries a.top.config.1 = [] ++ j :: rest := hj
    obtain ⟨r, s₁, s₂, hr, rfl, -⟩ := hm.split_remaining hsplit (hall j hjmem)
    exact not_isCall_of_return hr (hall r (by simp [hj]))

/-- A call is passed. -/
theorem Sim.skip (h : Sim entries n computePartial s a) {pre suf : List ℕ} {k : ℕ}
    (hrem : remaining entries a.top.config.1 = pre ++ k :: suf)
    (hpre : ∀ j ∈ pre, isCall entries j) (hk : isCall entries k) :
    Sim entries n computePartial { s with entry := s.links.next k }
      { a with top := ⟨a.top.config, suf.takeWhile (isCall entries)⟩ } := by
  have hrep := h.unwinds.represents
  rw [hrem] at hrep
  refine ⟨h.unwinds, ⟨pre ++ [k], suf, by simp [hrem], ?_, hrep.drop.next, rfl⟩, h.state,
    h.linearized, h.cache, h.calls, h.longest⟩
  intro j hj
  rcases List.mem_append.mp hj with hj | hj
  · exact hpre j hj
  · obtain rfl := List.mem_singleton.mp hj
    exact hk

/-- A call is linearized. -/
theorem Sim.push (h : Sim entries n computePartial s a) {pre suf : List ℕ} {k r : ℕ} {v : ι ⊕ ο}
    (hrem : remaining entries a.top.config.1 = pre ++ k :: suf)
    (hpre : ∀ j ∈ pre, isCall entries j) (hk : isCall entries k)
    (hnode : (makeLinkedEntries entries).nodes[k]? = some ⟨v, some r, idAt entries k⟩)
    {b : Bitset} (hb : b.Holds n (insert (idAt entries k) a.top.config.1)) {links : Links ℕ}
    (hrep : links.Represents entries.length
      (remaining entries (insert (idAt entries k) a.top.config.1)))
    (hback : unlift links k r = some s.links) (newState : σ) :
    Sim entries n computePartial
      { links
        entry := links.next entries.length
        state := newState
        linearized := b
        cache := Function.update s.cache b.hash (s.cache b.hash ++ [⟨b, newState⟩])
        calls := s.calls ++ [(k, s.state)]
        longest := s.longest }
      ⟨⟨(insert (idAt entries k) a.top.config.1, newState),
          (remaining entries (insert (idAt entries k) a.top.config.1)).takeWhile (isCall entries)⟩,
        (k, ⟨a.top.config, suf.takeWhile (isCall entries)⟩) :: a.below,
        (insert (idAt entries k) a.top.config.1, newState) :: a.seen, a.log⟩ := by
  have hmem : k ∈ remaining entries a.top.config.1 := by simp [hrem]
  refine ⟨⟨hrep, s.links, r, v, rfl, (mem_remaining.mp hmem).2, hnode, hback, h.unwinds,
    (h.skip hrem hpre hk).entry⟩, ⟨[], _, rfl, by simp, hrep.next, rfl⟩, rfl, hb, fun e => ?_, ?_,
    h.longest⟩
  · -- the entries of the cache under the hash of the new one
    have hnew : (∃ L, e.linearized.Holds n L ∧
        (L, e.state) = (insert (idAt entries k) a.top.config.1, newState)) ↔
        e = ⟨b, newState⟩ := by
      constructor
      · rintro ⟨L, hL, he⟩
        obtain ⟨rfl, hstate⟩ := Prod.mk.inj he
        obtain ⟨lin, st⟩ := e
        obtain rfl : lin = b := hL.eq hb
        rw [show st = newState from hstate]
      · rintro rfl
        exact ⟨_, hb, rfl⟩
    have hor : (∃ L, e.linearized.Holds n L ∧
        (L, e.state) ∈ (insert (idAt entries k) a.top.config.1, newState) :: a.seen) ↔
        e = ⟨b, newState⟩ ∨ e ∈ s.cache e.linearized.hash := by
      rw [← hnew, h.cache e, ← exists_or]
      refine exists_congr fun L => ?_
      rw [List.mem_cons, and_or_left]
    refine Iff.trans ?_ hor.symm
    change e ∈ Function.update s.cache b.hash (s.cache b.hash ++ [⟨b, newState⟩])
      e.linearized.hash ↔ _
    by_cases hhash : e.linearized.hash = b.hash
    · rw [hhash, Function.update_self, List.mem_append, List.mem_singleton, or_comm]
    · rw [Function.update_of_ne hhash]
      refine (or_iff_right ?_).symm
      rintro rfl
      exact hhash rfl
  · rw [h.calls, h.state]
    simp

/-- The last call is taken back. -/
theorem Sim.pop (h : Sim entries n computePartial s a) {k : ℕ} {f : Frame (Finset ℕ × σ) ℕ}
    {below : List (ℕ × Frame (Finset ℕ × σ) ℕ)} (hbelow : a.below = (k, f) :: below) :
    ∃ v r b links longest,
      (makeLinkedEntries entries).nodes[k]? = some ⟨v, some r, idAt entries k⟩ ∧
      s.linearized.clear (idAt entries k) = some b ∧ unlift s.links k r = some links ∧
      s.calls.getLast? = some (k, f.config.2) ∧
      (if computePartial then recordPartial (makeLinkedEntries entries).nodes n s.calls s.longest
        else some s.longest) = some longest ∧
      Sim entries n computePartial
        { links
          entry := links.next k
          state := f.config.2
          linearized := b
          cache := s.cache
          calls := s.calls.dropLast
          longest }
        ⟨f, below, a.seen, a.log ++ [a.path]⟩ := by
  have hunw := h.unwinds
  rw [hbelow] at hunw
  obtain ⟨-, links, r, v, hL, hnot, hnode, hback, hunw, hat⟩ := hunw
  have hlt : idAt entries k < n := h.linearized.lt _ (by rw [hL]; exact Finset.mem_insert_self _ _)
  obtain ⟨b, hb, hholds⟩ := h.linearized.clear hlt
  rw [hL, Finset.erase_insert hnot] at hholds
  have hcalls : s.calls =
      (below.map fun x => (x.1, x.2.config.2)).reverse ++ [(k, f.config.2)] := by
    rw [h.calls, hbelow]
    simp
  refine ⟨v, r, b, links, recorded entries computePartial (a.log ++ [a.path]), hnode, hb, hback,
    by simp [hcalls], ?_, hunw, hat, rfl, hholds, h.cache, by simp [hcalls], rfl⟩
  have hlong := h.longest
  unfold recorded at hlong ⊢
  split_ifs at hlong ⊢ with hcp
  · rw [h.recordPartial_eq, hlong, List.foldl_append, List.foldl_cons, List.foldl_nil]
  · rw [hlong]

/-- The values of a call and of its return. -/
theorem Matched.nodes_of_call (hm : Matched entries n) {k : ℕ} (hk : isCall entries k) :
    ∃ v r w, EntryAt entries .returnEntry (idAt entries k) r ∧
      (makeLinkedEntries entries).nodes[k]? = some ⟨.inl v, some r, idAt entries k⟩ ∧
      (makeLinkedEntries entries).nodes[r]? = some ⟨.inr w, none, idAt entries k⟩ := by
  have hcall := isCall_iff.mp hk
  obtain ⟨r, hr⟩ := hm.exists_at .returnEntry _ (hm.id_lt hcall)
  obtain ⟨v, hv⟩ := hm.node_of_call hcall hr
  obtain ⟨w, hw⟩ := node_of_return hr
  exact ⟨v, r, w, hr, hv, hw⟩

theorem problem_next {c : Finset ℕ × σ} {k r id : ℕ} {v : ι} {w : ο}
    (hk : (makeLinkedEntries entries).nodes[k]? = some ⟨.inl v, some r, id⟩)
    (hr : (makeLinkedEntries entries).nodes[r]? = some ⟨.inr w, none, id⟩) :
    (problem model entries).next c k = if (model.step c.2 v w).1 then
      some (insert id c.1, (model.step c.2 v w).2) else none := by
  simp only [problem, hk, hr, Option.bind_eq_bind, Option.bind_some, Sum.getLeft?_inl,
    Sum.getRight?_inr]

section Round
variable {a' : State (Finset ℕ × σ) ℕ}

/-- What a round does at a call. -/
theorem round_call {nodes : List (Node ι ο)} {head k r id : ℕ} {v : ι} {w : ο}
    (hhead : s.links.next head ≠ none) (hentry : s.entry = some k)
    (hk : nodes[k]? = some ⟨.inl v, some r, id⟩) (hr : nodes[r]? = some ⟨.inr w, none, id⟩) :
    round model nodes head n computePartial false s =
      if (model.step s.state v w).1 then
        (s.linearized.set id).bind fun b =>
          if cacheContains model s.cache ⟨b, (model.step s.state v w).2⟩ then
            some (.inl { s with entry := s.links.next k })
          else
            (lift s.links k r).bind fun links =>
              some (.inl
                { links
                  entry := links.next head
                  state := (model.step s.state v w).2
                  linearized := b
                  cache := Function.update s.cache b.hash
                    (s.cache b.hash ++ [⟨b, (model.step s.state v w).2⟩])
                  calls := s.calls ++ [(k, s.state)]
                  longest := s.longest })
      else some (.inl { s with entry := s.links.next k }) := by
  obtain ⟨x, hx⟩ := Option.ne_none_iff_exists'.mp hhead
  simp only [round, hx, Bool.false_eq_true, if_false, hentry, Option.bind_eq_bind,
    Option.bind_some, hk, hr, Sum.getLeft?_inl, Sum.getRight?_inr]
  congr 1
  congr 1
  funext b
  cases cacheContains model s.cache ⟨b, (model.step s.state v w).2⟩ <;> rfl

theorem Sim.next_head_ne (h : Sim entries n computePartial s a)
    (hgoal : remaining entries a.top.config.1 ≠ []) :
    s.links.next entries.length ≠ none := by
  rw [h.unwinds.represents.next]
  simpa using hgoal

/-- Without moves left the loop stands at a return. -/
theorem Sim.node_of_no_moves (hm : Matched entries n) (h : Sim entries n computePartial s a)
    (hgoal : remaining entries a.top.config.1 ≠ []) (htodo : a.top.todo = []) :
    ∃ k w id, s.entry = some k ∧
      (makeLinkedEntries entries).nodes[k]? = some ⟨.inr w, none, id⟩ := by
  obtain ⟨pre, k, suf, hrem, hpre, hentry, htop⟩ := h.exists_entry hm hgoal
  have hk : ¬ isCall entries k := by
    intro hk
    rw [htop, List.takeWhile_cons_of_pos hk] at htodo
    cases htodo
  have hmem : k ∈ remaining entries a.top.config.1 := by simp [hrem]
  obtain ⟨w, hw⟩ := node_of_return (return_of_not_isCall (mem_remaining.mp hmem).1 hk)
  exact ⟨k, w, _, hentry, hw⟩

/-- A round of the search that goes on is a round of the loop that goes on. -/
theorem Sim.round_inl (hm : Matched entries n) (h : Sim entries n computePartial s a)
    (hs : (problem model entries).step a = .inl a') :
    ∃ s', round model (makeLinkedEntries entries).nodes entries.length n computePartial false s =
      some (.inl s') ∧ Sim entries n computePartial s' a' := by
  rcases Problem.step_cases hs with ⟨-, he⟩ | ⟨hgoal, hcases⟩
  · cases he
  have hgoal' : remaining entries a.top.config.1 ≠ [] := by
    simpa [problem] using hgoal
  have hhead := h.next_head_ne hgoal'
  obtain ⟨pre, k, suf, hrem, hpre, hentry, htop⟩ := h.exists_entry hm hgoal'
  -- a move of the search is a call at which the loop stands
  have hmove : ∀ x todo, a.top.todo = x :: todo →
      isCall entries k ∧ x = k ∧ todo = suf.takeWhile (isCall entries) := by
    intro x todo htodo
    rw [htop] at htodo
    by_cases hk : isCall entries k
    · rw [List.takeWhile_cons_of_pos hk] at htodo
      obtain ⟨rfl, rfl⟩ := List.cons.inj htodo
      exact ⟨hk, rfl, rfl⟩
    · rw [List.takeWhile_cons_of_neg hk] at htodo
      cases htodo
  rcases hcases with ⟨x, todo, htodo, hcov, he⟩ | ⟨x, todo, d, htodo, hnext, hnew, he⟩ |
    ⟨-, -, he⟩ | ⟨x, f, below, htodo, hbelow, he⟩
  · obtain rfl := Sum.inl.inj he
    obtain ⟨hk, rfl, rfl⟩ := hmove x todo htodo
    refine ⟨_, ?_, h.skip hrem hpre hk⟩
    obtain ⟨v, r, w, hr, hv, hw⟩ := hm.nodes_of_call hk
    rw [round_call hhead hentry hv hw]
    split_ifs with hok
    · obtain ⟨b, hb, hholds⟩ := h.linearized.set (hm.id_lt hr)
      rw [problem_next hv hw, ← h.state, if_pos hok] at hcov
      have hseen : a.seen.any ((problem model entries).same (insert (idAt entries x) a.top.config.1,
          (model.step s.state v w).2)) := List.any_eq_true.mpr (hcov _ rfl)
      rw [hb, Option.bind_some, h.cacheContains_iff hholds, if_pos hseen]
    · rfl
  · obtain rfl := Sum.inl.inj he
    obtain ⟨hk, rfl, rfl⟩ := hmove x todo htodo
    obtain ⟨v, r, w, hr, hv, hw⟩ := hm.nodes_of_call hk
    rw [problem_next hv hw, ← h.state] at hnext
    obtain ⟨hok, rfl⟩ := of_guarded hnext
    obtain ⟨b, hb, hholds⟩ := h.linearized.set (hm.id_lt hr)
    obtain ⟨r', s₁, s₂, hr', rfl, hrem'⟩ := hm.split_remaining hrem hk
    obtain rfl := hm.unique hr hr'
    have hrep := h.unwinds.represents
    have hnodup : (entries.length :: remaining entries a.top.config.1).Nodup := by
      refine List.nodup_cons.mpr ⟨fun hlen => ?_, remaining_nodup⟩
      exact absurd (mem_remaining.mp hlen).1 (lt_irrefl _)
    rw [hrem] at hrep hnodup
    obtain ⟨links, hlift, hrep', hback⟩ := lift_represents hrep hnodup
    rw [← hrem'] at hrep'
    refine ⟨_, ?_, h.push hrem hpre hk hv hholds hrep' hback _⟩
    have hnot : ¬ a.seen.any ((problem model entries).same (insert (idAt entries x) a.top.config.1,
        (model.step s.state v w).2)) := by
      rw [List.any_eq_true]
      rintro ⟨e, he, hsame⟩
      exact hnew e he hsame
    rw [round_call hhead hentry hv hw, if_pos hok, hb, Option.bind_some,
      h.cacheContains_iff hholds, if_neg hnot, hlift, Option.bind_some]
  · cases he
  · obtain rfl := Sum.inl.inj he
    obtain ⟨j, w, id, hentry, hw⟩ := h.node_of_no_moves hm hgoal' htodo
    obtain ⟨v, r, b, links, longest, hv, hb, hback, hlast, hlong, hsim⟩ := h.pop hbelow
    refine ⟨_, ?_, hsim⟩
    obtain ⟨y, hy⟩ := Option.ne_none_iff_exists'.mp hhead
    simp only [round, hy, Bool.false_eq_true, if_false, hentry, Option.bind_eq_bind,
      Option.bind_some, hw, hlast, hlong, hv, hb, hback]

/-- A round of the search that ends it ends the loop, with the same result. -/
theorem Sim.round_inr (hm : Matched entries n) (h : Sim entries n computePartial s a)
    {found : Bool} (hs : (problem model entries).step a = .inr found) :
    round model (makeLinkedEntries entries).nodes entries.length n computePartial false s =
      some (.inr (found, fun i => if found ∧ i < n then
        some (a.path.map (idAt entries)) else s.longest i)) := by
  rcases Problem.step_cases hs with ⟨hgoal, he⟩ | ⟨hgoal, hcases⟩
  · obtain rfl := Sum.inr.inj he
    have hnil : remaining entries a.top.config.1 = [] := by simpa [problem] using hgoal
    have hhead : s.links.next entries.length = none := by
      rw [h.unwinds.represents.next, hnil]
      rfl
    simp [round, hhead, h.callIds_eq]
  · have hgoal' : remaining entries a.top.config.1 ≠ [] := by
      simpa [problem] using hgoal
    rcases hcases with ⟨_, _, _, _, he⟩ | ⟨_, _, _, _, _, _, he⟩ | ⟨htodo, hbelow, he⟩ |
      ⟨_, _, _, _, _, he⟩
    · cases he
    · cases he
    · obtain rfl := Sum.inr.inj he
      obtain ⟨k, w, id, hentry, hw⟩ := h.node_of_no_moves hm hgoal' htodo
      have hcalls : s.calls = [] := by rw [h.calls, hbelow]; rfl
      obtain ⟨y, hy⟩ := Option.ne_none_iff_exists'.mp (h.next_head_ne hgoal')
      simp [round, hy, hentry, hw, hcalls]
    · cases he

end Round

/-- The result of the loop for the result of the search. -/
def resultOf (entries : List (Entry ι ο)) (n : ℕ) (computePartial : Bool)
    (r : Bool × State (Finset ℕ × σ) ℕ) : Bool × Longest :=
  (r.1, fun i => if r.1 ∧ i < n then some (r.2.path.map (idAt entries))
    else recorded entries computePartial r.2.log i)

/-- The loop ends with the result of the search, or with `false` because it is killed, after some
rounds of the search. -/
theorem Sim.loop (hm : Matched entries n) (kill : ℕ → Bool) {fuel k : ℕ}
    {r : Bool × State (Finset ℕ × σ) ℕ} (h : Sim entries n computePartial s a)
    (hr : (problem model entries).run fuel a = some r) :
    ∃ result, loop model (makeLinkedEntries entries).nodes entries.length n computePartial kill
      fuel k s = some result ∧
      (result = resultOf entries n computePartial r ∨
        (result.1 = false ∧ (∃ j, kill j) ∧
          ∃ a', Relation.ReflTransGen (fun b b' => (problem model entries).step b = .inl b') a a' ∧
            result.2 = recorded entries computePartial a'.log)) := by
  induction fuel generalizing s a k with
  | zero => cases hr
  | succ fuel ih =>
    simp only [Problem.run] at hr
    by_cases hkill : kill k = true ∧ s.links.next entries.length ≠ none
    · obtain ⟨hkill, hhead⟩ := hkill
      obtain ⟨y, hy⟩ := Option.ne_none_iff_exists'.mp hhead
      refine ⟨(false, s.longest), ?_, Or.inr ⟨rfl, ⟨k, hkill⟩, a, .refl, h.longest⟩⟩
      simp [Porcupine.loop, round, hy, hkill]
    · have hround : round model (makeLinkedEntries entries).nodes entries.length n computePartial
          (kill k) s = round model (makeLinkedEntries entries).nodes entries.length n
          computePartial false s := by
        cases hk : kill k with
        | false => rfl
        | true =>
          have hnone : s.links.next entries.length = none := by
            by_contra hne
            exact hkill ⟨hk, hne⟩
          simp [round, hnone]
      cases hs : (problem model entries).step a with
      | inl a' =>
        rw [hs] at hr
        obtain ⟨s', hs', hsim⟩ := h.round_inl hm hs
        obtain ⟨result, hresult, hor⟩ := ih (k := k + 1) hsim hr
        refine ⟨result, ?_, ?_⟩
        · simp only [Porcupine.loop, hround, hs', Option.bind_eq_bind, Option.bind_some]
          exact hresult
        · rcases hor with hfound | ⟨hno, hkilled, b, hb, hlong⟩
          · exact Or.inl hfound
          · exact Or.inr ⟨hno, hkilled, b, hb.head hs, hlong⟩
      | inr found =>
        rw [hs] at hr
        obtain rfl := Option.some.inj hr
        refine ⟨_, ?_, Or.inl rfl⟩
        simp only [Porcupine.loop, hround, h.round_inr hm hs, Option.bind_eq_bind,
          Option.bind_some, resultOf, h.longest]

theorem start_sim (hlen : entries.length = 2 * n) :
    Sim entries n computePartial (startSearch model entries)
      ((problem model entries).start (∅, model.init)) := by
  have hall : remaining entries ∅ = List.range entries.length := by simp [remaining]
  have hrep := startLinks_represents entries
  refine ⟨?_, ⟨[], _, rfl, by simp, ?_, rfl⟩, rfl, ?_, fun e => ?_, rfl, ?_⟩
  · change Links.Represents _ _ (remaining entries ∅)
    rw [hall]
    exact hrep
  · change (makeLinkedEntries entries).root = (remaining entries ∅).head?
    rw [(makeLinkedEntries_linkedFrom entries).root, hall]
    split_ifs with hnil
    · rw [hnil]
      rfl
    · rw [List.head?_range, if_neg (by simpa using hnil)]
  · have hn : (startSearch model entries).linearized = newBitset n := by
      simp only [startSearch, length_makeLinkedEntries]
      rw [hlen, Nat.mul_div_cancel_left n two_pos]
    rw [hn]
    exact Bitset.holds_newBitset n
  · simp [startSearch, Problem.start]
  · simp [startSearch, Problem.start, recorded]

end RaftLabs.Porcupine
