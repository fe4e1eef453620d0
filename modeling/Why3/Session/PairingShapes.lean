import Why3.Session.Pairing
import Mathlib.Data.List.Chain
import Mathlib.Data.Multiset.Basic

/-!
# Pairing by shapes loses no goal

The second phase of the pairing keeps a list of the live nodes.  Its invariant says
that the links of the nodes spell this list, that two neighbours of different kinds
are always in the queue, and that an entry of the queue whose nodes are both live
still names two neighbours.  So an empty queue leaves nodes of one kind only.
-/

namespace Why3

open List Function

namespace Pairing

/-! ## The doubly linked list -/

section Links

variable {p : ℕ}

/-- The links of `s` spell the list `l` of the valid nodes. -/
structure Links.Linked (s : Links p) (l : List (Fin p)) : Prop where
  nodup : l.Nodup
  chain : l.IsChain fun a b => s.next a = b ∧ s.prev b = a
  head : ∀ a ∈ l.head?, s.prev a = a
  last : ∀ a ∈ l.getLast?, s.next a = a
  valid : ∀ i, s.valid i = true ↔ i ∈ l

namespace Links

variable {s : Links p} {l₁ l₂ : List (Fin p)} {x : Fin p}

theorem Linked.prev_eq (h : s.Linked (l₁ ++ x :: l₂)) : s.prev x = l₁.getLast?.getD x := by
  cases l₁ using reverseRecOn with
  | nil => exact h.head x (by simp)
  | append_singleton l a =>
    have hchain := h.chain
    rw [append_assoc, singleton_append, isChain_append_cons_cons] at hchain
    simpa using hchain.2.1.2

theorem Linked.next_eq (h : s.Linked (l₁ ++ x :: l₂)) : s.next x = l₂.head?.getD x := by
  cases l₂ with
  | nil => exact h.last x (by simp)
  | cons b l =>
    have hchain := h.chain
    rw [isChain_append_cons_cons] at hchain
    simpa using hchain.2.1.1

theorem remove_next (s : Links p) (x w : Fin p) :
    (s.remove x).next w =
      if s.prev x ≠ x ∧ w = s.prev x then (if s.next x = x then s.prev x else s.next x)
      else s.next w := by
  unfold Links.remove
  simp only
  split_ifs <;> simp_all

theorem remove_prev (s : Links p) (x w : Fin p) :
    (s.remove x).prev w =
      if (s.prev x = x ∨ s.next x ≠ x) ∧ w = s.next x then
        (if s.prev x = x then s.next x else s.prev x)
      else s.prev w := by
  unfold Links.remove
  simp only
  split_ifs <;> simp_all

theorem remove_valid (s : Links p) (x : Fin p) :
    (s.remove x).valid = update s.valid x false := by
  unfold Links.remove
  simp only
  split_ifs <;> rfl

theorem Linked.next_prev (h : s.Linked (l₁ ++ x :: l₂)) (hx : s.prev x ≠ x) :
    s.prev x ∈ l₁ ∧ s.next (s.prev x) = x := by
  have hprev := h.prev_eq
  cases l₁ using reverseRecOn with
  | nil => exact absurd hprev hx
  | append_singleton l a =>
    have ha : s.prev x = a := by simpa using hprev
    have hchain := h.chain
    rw [append_assoc, singleton_append, isChain_append_cons_cons] at hchain
    rw [ha]
    exact ⟨by simp, hchain.2.1.1⟩

theorem Linked.prev_next (h : s.Linked (l₁ ++ x :: l₂)) (hx : s.next x ≠ x) :
    s.next x ∈ l₂ ∧ s.prev (s.next x) = x := by
  have hnext := h.next_eq
  cases l₂ with
  | nil => exact absurd hnext hx
  | cons b l =>
    have hb : s.next x = b := by simpa using hnext
    have hchain := h.chain
    rw [isChain_append_cons_cons] at hchain
    rw [hb]
    exact ⟨by simp, hchain.2.1.2⟩

theorem Linked.remove_next_of_ne (h : s.Linked (l₁ ++ x :: l₂)) {w : Fin p} (hw : s.next w ≠ x) :
    (s.remove x).next w = s.next w := by
  rw [remove_next, if_neg]
  rintro ⟨hx, rfl⟩
  exact hw (h.next_prev hx).2

/-- `remove` takes a node out of the list. -/
theorem Linked.remove (h : s.Linked (l₁ ++ x :: l₂)) : (s.remove x).Linked (l₁ ++ l₂) := by
  have hnodup := h.nodup
  rw [nodup_append, nodup_cons] at hnodup
  obtain ⟨hn₁, ⟨hx₂, hn₂⟩, hdisj⟩ := hnodup
  have hx₁ : x ∉ l₁ := fun hx => hdisj x hx x (by simp) rfl
  have hchain := h.chain
  rw [isChain_append] at hchain
  obtain ⟨hc₁, hc₂, -⟩ := hchain
  -- a pair of neighbours that are both different from `x` stays linked
  have hkeep : ∀ a b, a ≠ x → b ≠ x → s.next a = b ∧ s.prev b = a →
      (s.remove x).next a = b ∧ (s.remove x).prev b = a := by
    rintro a b ha hb ⟨hab, hba⟩
    refine ⟨(h.remove_next_of_ne (by rwa [hab])).trans hab, ?_⟩
    rw [remove_prev, if_neg, hba]
    rintro ⟨-, rfl⟩
    exact ha (hba.symm.trans (h.prev_next hb).2)
  constructor
  · rw [nodup_append]
    exact ⟨hn₁, hn₂, fun a ha b hb => hdisj a ha b (by simp [hb])⟩
  · rw [isChain_append]
    refine ⟨?_, ?_, ?_⟩
    · refine hc₁.imp_of_mem_imp fun a b ha hb => hkeep a b ?_ ?_
      · exact fun h => hx₁ (h ▸ ha)
      · exact fun h => hx₁ (h ▸ hb)
    · refine hc₂.tail.imp_of_mem_imp fun a b ha hb => hkeep a b ?_ ?_
      · exact fun h => hx₂ (h ▸ ha)
      · exact fun h => hx₂ (h ▸ hb)
    · -- the neighbours of `x` are linked to each other
      intro a ha b hb
      have hpa : s.prev x = a := by rw [h.prev_eq, ha]; rfl
      have hnb : s.next x = b := by rw [h.next_eq, hb]; rfl
      have hax : a ≠ x := fun h => hx₁ (h ▸ mem_of_getLast? ha)
      have hbx : b ≠ x := fun h => hx₂ (h ▸ mem_of_head? hb)
      rw [remove_next, remove_prev, hpa, hnb]
      simp [hax, hbx]
  · intro a ha
    rw [remove_prev]
    cases l₁ with
    | nil =>
      have hpx : s.prev x = x := h.prev_eq
      have hna : s.next x = a := by
        rw [h.next_eq]
        simp only [nil_append] at ha
        rw [ha]
        rfl
      simp [hpx, hna]
    | cons c l =>
      obtain rfl : c = a := by simpa using ha
      rw [if_neg, h.head c (by simp)]
      rintro ⟨hor, hc⟩
      by_cases hnx : s.next x = x
      · exact hx₁ ((hc.trans hnx) ▸ mem_cons_self)
      · exact hdisj c (by simp) c (by rw [hc]; simp [(h.prev_next hnx).1]) rfl
  · intro a ha
    rw [remove_next]
    cases l₂ using reverseRecOn with
    | nil =>
      have hnx : s.next x = x := h.next_eq
      have hpa : s.prev x = a := by
        rw [h.prev_eq]
        simp only [append_nil] at ha
        rw [ha]
        rfl
      split_ifs with h₁
      · exact hpa
      · have hax : a = x := by
          by_contra hne
          exact h₁ ⟨by rwa [hpa], hpa.symm⟩
        exact absurd (hax ▸ mem_of_getLast? (by simpa using ha)) hx₁
    | append_singleton l c =>
      obtain rfl : c = a := by simpa using ha
      have hlast : (l₁ ++ x :: (l ++ [c])).getLast? = some c := by
        rw [← cons_append, ← append_assoc, getLast?_concat]
      rw [if_neg, h.last c hlast]
      rintro ⟨hpx, hc⟩
      have hc₁ := (h.next_prev hpx).1
      rw [← hc] at hc₁
      exact hdisj c hc₁ c (by simp) rfl
  · intro i
    rw [remove_valid, update_apply]
    have hi := h.valid i
    rw [mem_append, mem_cons] at hi
    rw [mem_append]
    split_ifs with hix
    · subst hix
      simp [hx₁, hx₂]
    · rw [hi]
      simp [hix]

@[simp]
theorem link_next (x y w : Fin p) : (Links.link x y s).next w = if w = x then y else s.next w :=
  update_apply ..

@[simp]
theorem link_prev (x y w : Fin p) : (Links.link x y s).prev w = if w = y then x else s.prev w :=
  update_apply ..

/-- What linking the nodes of a list leaves: the links along the list, and the links
of the other nodes as they were. -/
theorem buildList_spec (l : List (Fin p)) (s : Links p) (hn : l.Nodup)
    (hs : ∀ i ∈ l, s.next i = i) :
    (l.IsChain fun a b => (s.buildList l).next a = b ∧ (s.buildList l).prev b = a) ∧
    (∀ a ∈ l.getLast?, (s.buildList l).next a = a) ∧
    (∀ i, i ∉ l → (s.buildList l).next i = s.next i) ∧
    (∀ i, i ∉ l.tail → (s.buildList l).prev i = s.prev i) ∧
    (s.buildList l).valid = s.valid := by
  induction l generalizing s with
  | nil => simp [buildList, iterPairs]
  | cons x l ih =>
    cases l with
    | nil => simpa [buildList, iterPairs] using hs
    | cons y l =>
      have hbuild : s.buildList (x :: y :: l) = (Links.link x y s).buildList (y :: l) := rfl
      rw [nodup_cons] at hn
      obtain ⟨hx, hn⟩ := hn
      have hs' : ∀ i ∈ y :: l, (Links.link x y s).next i = i := by
        intro i hi
        have hix : i ≠ x := fun h => hx (h ▸ hi)
        rw [link_next, if_neg hix]
        exact hs i (mem_cons_of_mem _ hi)
      obtain ⟨hchain, hlast, hnext, hprev, hvalid⟩ := ih (Links.link x y s) hn hs'
      rw [hbuild]
      refine ⟨?_, ?_, ?_, ?_, hvalid⟩
      · rw [isChain_cons_cons]
        refine ⟨⟨?_, ?_⟩, hchain⟩
        · rw [hnext x hx, link_next, if_pos rfl]
        · rw [hprev y (nodup_cons.1 hn).1, link_prev, if_pos rfl]
      · intro a ha
        exact hlast a (by simpa using ha)
      · intro i hi
        rw [mem_cons, not_or] at hi
        rw [hnext i hi.2, link_next, if_neg hi.1]
      · intro i hi
        rw [tail_cons, mem_cons, not_or] at hi
        rw [hprev i hi.2, link_prev, if_neg hi.1]

theorem linked_buildList : ((Links.mkNode p).buildList (finRange p)).Linked (finRange p) := by
  have hn := nodup_finRange p
  obtain ⟨hchain, hlast, -, hprev, hvalid⟩ :=
    buildList_spec (finRange p) (Links.mkNode p) hn (fun _ _ => rfl)
  refine ⟨hn, hchain, ?_, hlast, ?_⟩
  · intro a ha
    rw [hprev]
    · rfl
    · intro hmem
      cases hl : finRange p with
      | nil => rw [hl] at ha; cases ha
      | cons b l =>
        rw [hl] at ha hmem hn
        obtain rfl : b = a := by simpa using ha
        exact (nodup_cons.1 hn).1 hmem
  · intro i
    rw [hvalid]
    simp [Links.mkNode]

end Links

end Links

/-! ## The queue -/

section Queue

variable {α β : Type} {oldgoals : List α} {newgoals : List β}
variable {allgoals : List (GoalNode oldgoals newgoals)} {d : Entry allgoals.length}

variable (allgoals) in
/-- One of the nodes is an old goal and the other one a new goal. -/
def Mixed (x y : Fin allgoals.length) : Prop := ∃ o n, oldNew allgoals x y = some (o, n)

/-- The entry that `add` queues for two nodes. -/
def entry (x y : Fin allgoals.length) : Entry allgoals.length :=
  (lcpList (allgoals.get x).shape (allgoals.get y).shape, (x, y))

variable {pq : List (Entry allgoals.length)} {x : Fin allgoals.length} {y : Fin allgoals.length}

theorem add_perm
    (h : Mixed allgoals x y) : (add allgoals d x y pq).Perm (entry x y :: pq) := by
  obtain ⟨o, n, h⟩ := h
  unfold oldNew at h
  unfold add
  split at h
  · rename_i hx hy
    rw [hx, hy]
    exact Pqueue.insert_perm _ _
  · rename_i hx hy
    rw [hx, hy]
    exact Pqueue.insert_perm _ _
  · cases h

theorem add_of_not
    (h : ¬ Mixed allgoals x y) : add allgoals d x y pq = pq := by
  unfold Mixed oldNew at h
  unfold add
  cases hx : (allgoals.get x).elt <;> cases hy : (allgoals.get y).elt <;> simp_all

theorem mem_add
    {e : Entry allgoals.length} :
    e ∈ add allgoals d x y pq ↔ e ∈ pq ∨ (Mixed allgoals x y ∧ e = entry x y) := by
  by_cases h : Mixed allgoals x y
  · rw [(add_perm h).mem_iff, mem_cons]
    tauto
  · rw [add_of_not h]
    tauto

theorem length_add_le (x y : Fin allgoals.length) (pq : List (Entry allgoals.length)) :
    (add allgoals d x y pq).length ≤ pq.length + 1 := by
  by_cases h : Mixed allgoals x y
  · rw [(add_perm h).length_eq, length_cons]
  · rw [add_of_not h]
    exact Nat.le_succ _

/-- Queueing the neighbours of a list. -/
theorem iterPairs_add_spec (l : List (Fin allgoals.length)) (pq : List (Entry allgoals.length)) :
    (∀ e ∈ pq, e ∈ iterPairs (add allgoals d) l pq) ∧
    (l.IsChain fun a b => Mixed allgoals a b → entry a b ∈ iterPairs (add allgoals d) l pq) ∧
    ∀ e ∈ iterPairs (add allgoals d) l pq, e ∈ pq ∨
      ∃ a b, [a, b] <:+: l ∧ Mixed allgoals a b ∧ e = entry a b := by
  induction l generalizing pq with
  | nil => exact ⟨fun e he => he, isChain_nil, fun e he => .inl he⟩
  | cons x l ih =>
    cases l with
    | nil => exact ⟨fun e he => he, isChain_singleton x, fun e he => .inl he⟩
    | cons y l =>
      have hiter : iterPairs (add allgoals d) (x :: y :: l) pq =
        iterPairs (add allgoals d) (y :: l) (add allgoals d x y pq) := rfl
      obtain ⟨hsub, hchain, hmem⟩ := ih (add allgoals d x y pq)
      rw [hiter]
      refine ⟨fun e he => hsub e (mem_add.2 (.inl he)), ?_, ?_⟩
      · rw [isChain_cons_cons]
        exact ⟨fun h => hsub _ (mem_add.2 (.inr ⟨h, rfl⟩)), hchain⟩
      · intro e he
        rcases hmem e he with he | ⟨a, b, hab, h⟩
        · rcases mem_add.1 he with he | ⟨h, rfl⟩
          · exact .inl he
          · exact .inr ⟨x, y, ⟨[], l, rfl⟩, h, rfl⟩
        · exact .inr ⟨a, b, hab.trans (suffix_cons x _).isInfix, h⟩

end Queue

/-! ## What is paired and what is left -/

section Accounts

/-- Changing an entry that yields nothing into one that yields `v`. -/
theorem filterMap_perm_cons {ι γ : Type} {l : List ι} (hn : l.Nodup) {i : ι} (hi : i ∈ l)
    {f f' : ι → Option γ} {v : γ} (hf : ∀ j, j ≠ i → f' j = f j) (h : f i = none)
    (h' : f' i = some v) : (l.filterMap f').Perm (v :: l.filterMap f) := by
  obtain ⟨l₁, l₂, rfl⟩ := append_of_mem hi
  rw [nodup_append, nodup_cons] at hn
  obtain ⟨-, ⟨hi₂, -⟩, hdisj⟩ := hn
  have h₁ : l₁.filterMap f' = l₁.filterMap f := by
    apply filterMap_congr
    exact fun j hj => hf j (fun hji => hdisj j hj i (by simp) hji)
  have h₂ : l₂.filterMap f' = l₂.filterMap f := by
    apply filterMap_congr
    exact fun j hj => hf j (fun hji => hi₂ (hji ▸ hj))
  rw [filterMap_append, filterMap_append, filterMap_cons_some h',
    filterMap_cons_none h, h₁, h₂]
  exact perm_middle

variable {α β : Type} {oldgoals : List α} {newgoals : List β}
variable {allgoals : List (GoalNode oldgoals newgoals)} {d : Entry allgoals.length}

/-- The partners in a result. -/
def partners (r : Result α β newgoals.length) : List α :=
  (finRange newgoals.length).filterMap fun i => (r i).2.map Prod.fst

/-- The new goals without a partner. -/
def unpaired (r : Result α β newgoals.length) : List (Fin newgoals.length) :=
  (finRange newgoals.length).filterMap fun i => if (r i).2.isNone then some i else none

variable {i : Fin newgoals.length} {r : Result α β newgoals.length}

theorem mem_unpaired : i ∈ unpaired r ↔ (r i).2 = none := by
  simp [unpaired, mem_filterMap]

theorem partners_update (h : (r i).2 = none) (g : β) (o : α) (b : Bool) :
    (partners (update r i (g, some (o, b)))).Perm (o :: partners r) := by
  apply filterMap_perm_cons (nodup_finRange _) (mem_finRange i)
  · intro j hj
    rw [update_of_ne hj]
  · rw [h]
    rfl
  · rw [update_self]
    rfl

theorem unpaired_update (h : (r i).2 = none) (g : β) (q : α × Bool) :
    (unpaired r).Perm (i :: unpaired (update r i (g, some q))) := by
  apply filterMap_perm_cons (nodup_finRange _) (mem_finRange i)
  · intro j hj
    rw [update_of_ne hj]
  · rw [update_self]
    rfl
  · rw [h]
    rfl

/-- The goal of a node, when it is an old one. -/
def GoalIndex.old? : GoalIndex oldgoals.length newgoals.length → Option α
  | .old g => some (oldgoals.get g)
  | .new _ => none

/-- The index of the goal of a node, when it is a new one. -/
def GoalIndex.new? {n m : ℕ} : GoalIndex n m → Option (Fin m)
  | .old _ => none
  | .new g => some g

variable (allgoals) in
def liveOlds (l : List (Fin allgoals.length)) : List α :=
  l.filterMap fun x => (allgoals.get x).elt.old?

variable (allgoals) in
def liveNews (l : List (Fin allgoals.length)) : List (Fin newgoals.length) :=
  l.filterMap fun x => (allgoals.get x).elt.new?

theorem live_perm {x y : Fin allgoals.length} {o : Fin oldgoals.length} {n : Fin newgoals.length}
    (h : oldNew allgoals x y = some (o, n)) (l₁ l₂ : List (Fin allgoals.length)) :
    (liveOlds allgoals (l₁ ++ x :: y :: l₂)).Perm
      (oldgoals.get o :: liveOlds allgoals (l₁ ++ l₂)) ∧
    (liveNews allgoals (l₁ ++ x :: y :: l₂)).Perm (n :: liveNews allgoals (l₁ ++ l₂)) := by
  unfold oldNew at h
  unfold liveOlds liveNews
  simp only [filterMap_append, filterMap_cons]
  split at h
  · rename_i hx hy
    cases h
    rw [hx, hy]
    exact ⟨perm_middle, perm_middle⟩
  · rename_i hx hy
    cases h
    rw [hx, hy]
    exact ⟨perm_middle, perm_middle⟩
  · cases h

end Accounts

/-! ## The loop -/

section Loop

variable {α β K N : Type} [DecidableEq N] {New : S K N β}
variable {oldgoals : List α} {newgoals : List β}
variable {allgoals : List (GoalNode oldgoals newgoals)} {d : Entry allgoals.length}

theorem newGoalIndex_get (hnames : (newgoals.map New.name).Nodup) (i : Fin newgoals.length) :
    newGoalIndex New newgoals (newgoals.get i) = some i := by
  have hinj : ∀ j : Fin newgoals.length, New.name (newgoals.get j) = New.name (newgoals.get i) →
      j = i := by
    intro j hj
    have hget := nodup_iff_injective_get.1 hnames
    have := @hget ⟨j, by simp⟩ ⟨i, by simp⟩ (by simpa using hj)
    ext
    simpa using this
  have key : ∀ l : List (Fin newgoals.length), i ∈ l →
      (l.map fun j => (New.name (newgoals.get j), j)).lookup (New.name (newgoals.get i)) =
        some i := by
    intro l hi
    induction l with
    | nil => cases hi
    | cons j l ih =>
      rw [map_cons, List.lookup_cons]
      by_cases hj : New.name (newgoals.get j) = New.name (newgoals.get i)
      · rw [hj]
        simp [hinj j hj]
      · have hne : (New.name (newgoals.get i) == New.name (newgoals.get j)) = false := by
          simpa using fun h => hj h.symm
        rw [hne]
        apply ih
        rcases mem_cons.1 hi with rfl | hi
        · exact absurd rfl hj
        · exact hi
  exact key _ (by simp)

/-- The invariant of the second phase, with the list `l` of the live nodes and the
result `r₀` of the first phase. -/
structure PhaseTwo.Inv (r₀ : Result α β newgoals.length) (s : PhaseTwo oldgoals newgoals allgoals)
    (l : List (Fin allgoals.length)) : Prop where
  linked : s.links.Linked l
  queued : l.IsChain fun a b => Mixed allgoals a b → entry a b ∈ s.pq
  stale : ∀ e ∈ s.pq, ∃ a b, e = entry a b ∧ Mixed allgoals a b ∧
    (a ∈ l → b ∈ l → a ≠ b ∧ s.links.next a = b)
  goals : ∀ i, (s.result i).1 = newgoals.get i
  olds : (partners s.result ++ liveOlds allgoals l).Perm oldgoals
  news : (unpaired s.result).Perm (liveNews allgoals l)
  settled : ∀ i q, (s.result i).2 = some (q, false) ↔ (r₀ i).2 = some (q, false)

variable {r₀ : Result α β newgoals.length} {s : PhaseTwo oldgoals newgoals allgoals}
variable {l : List (Fin allgoals.length)}

/-- An entry with a node that is gone is dropped. -/
theorem PhaseTwo.Inv.drop (h : s.Inv r₀ l) {a b : Fin allgoals.length}
    {pq : List (Entry allgoals.length)} (hpq : s.pq.Perm (entry a b :: pq))
    (hdead : ¬ (a ∈ l ∧ b ∈ l)) : PhaseTwo.Inv r₀ { s with pq := pq } l := by
  refine ⟨h.linked, ?_, ?_, h.goals, h.olds, h.news, h.settled⟩
  · refine h.queued.imp_of_mem_imp fun a' b' ha hb hq hm => ?_
    rcases mem_cons.1 (hpq.mem_iff.1 (hq hm)) with he | he
    · have hab : (a', b') = (a, b) := congrArg Prod.snd he
      cases hab
      exact absurd ⟨ha, hb⟩ hdead
    · exact he
  · intro e he
    exact h.stale e (hpq.mem_iff.2 (mem_cons_of_mem _ he))

variable {a b : Fin allgoals.length}

/-- Two live nodes that are queued are neighbours. -/
theorem PhaseTwo.Inv.split (h : s.Inv r₀ l) (he : entry a b ∈ s.pq) (ha : a ∈ l) (hb : b ∈ l) :
    ∃ l₁ l₂, l = l₁ ++ a :: b :: l₂ := by
  obtain ⟨a', b', heq, -, hadj⟩ := h.stale _ he
  have hab : (a, b) = (a', b') := congrArg Prod.snd heq
  cases hab
  obtain ⟨hne, hnext⟩ := hadj ha hb
  obtain ⟨l₁, l', rfl⟩ := append_of_mem ha
  have hnext' := h.linked.next_eq
  cases l' with
  | nil => exact absurd (hnext'.symm.trans hnext) hne
  | cons c l₂ =>
    obtain rfl : c = b := by simpa [hnext] using hnext'.symm
    exact ⟨l₁, l₂, rfl⟩

/-- Pairing two neighbours keeps the invariant. -/
theorem PhaseTwo.Inv.pair {l₁ l₂ : List (Fin allgoals.length)} (h : s.Inv r₀ (l₁ ++ a :: b :: l₂))
    {pq : List (Entry allgoals.length)} (hpq : s.pq.Perm (entry a b :: pq))
    {o : Fin oldgoals.length} {n : Fin newgoals.length} (hon : oldNew allgoals a b = some (o, n)) :
    PhaseTwo.Inv r₀
      { result := update s.result n (newgoals.get n, some (oldgoals.get o, true))
        pq :=
          if s.links.prev a ≠ a ∧ s.links.next b ≠ b then
            add allgoals d (s.links.prev a) (s.links.next b) pq
          else pq
        links := (s.links.remove a).remove b } (l₁ ++ l₂) := by
  have hlinked₁ : (s.links.remove a).Linked (l₁ ++ b :: l₂) := h.linked.remove
  have hlinked₂ := hlinked₁.remove
  have hb : s.links.Linked ((l₁ ++ [a]) ++ b :: l₂) := by
    rw [append_assoc]
    exact h.linked
  have hprev := h.linked.prev_eq
  have hnext := hb.next_eq
  have hnodup := h.linked.nodup
  -- the old entries are still there, and the one for the new neighbours
  have hmem : ∀ e, e ∈ (if s.links.prev a ≠ a ∧ s.links.next b ≠ b then
      add allgoals d (s.links.prev a) (s.links.next b) pq else pq) ↔
      e ∈ pq ∨ ((s.links.prev a ≠ a ∧ s.links.next b ≠ b) ∧
        Mixed allgoals (s.links.prev a) (s.links.next b) ∧
        e = entry (s.links.prev a) (s.links.next b)) := by
    intro e
    split_ifs with hne
    · rw [mem_add]
      tauto
    · tauto
  have hnews := h.news.trans (live_perm hon l₁ l₂).2
  have hnone : (s.result n).2 = none := mem_unpaired.1 (hnews.mem_iff.2 mem_cons_self)
  have hout : a ∉ l₁ ++ l₂ ∧ b ∉ l₁ ++ l₂ := by
    rw [nodup_append] at hnodup
    grind
  have hqueued : ∀ a' b', a' ∈ l₁ ++ l₂ → (Mixed allgoals a' b' → entry a' b' ∈ s.pq) →
      Mixed allgoals a' b' → entry a' b' ∈ pq := by
    intro a' b' ha' hq hm
    rcases mem_cons.1 (hpq.mem_iff.1 (hq hm)) with he | he
    · have hab : (a', b') = (a, b) := congrArg Prod.snd he
      cases hab
      exact absurd ha' hout.1
    · exact he
  constructor
  · exact hlinked₂
  · have hchain := h.queued
    rw [isChain_append] at hchain
    obtain ⟨hc₁, hc₂, -⟩ := hchain
    rw [isChain_append]
    refine ⟨?_, ?_, ?_⟩
    · refine hc₁.imp_of_mem_imp fun a' b' ha' _ hq hm => (hmem _).2 (.inl ?_)
      exact hqueued a' b' (mem_append_left _ ha') hq hm
    · refine hc₂.tail.tail.imp_of_mem_imp fun a' b' ha' _ hq hm => (hmem _).2 (.inl ?_)
      exact hqueued a' b' (mem_append_right _ ha') hq hm
    · -- the two neighbours of the pair have just been queued
      intro a' ha' b' hb' hm
      have hpa : s.links.prev a = a' := by rw [hprev, ha']; rfl
      have hnb : s.links.next b = b' := by rw [hnext, hb']; rfl
      have hne₁ : a' ≠ a := fun h => hout.1 (h ▸ mem_append_left _ (mem_of_getLast? ha'))
      have hne₂ : b' ≠ b := fun h => hout.2 (h ▸ mem_append_right _ (mem_of_head? hb'))
      refine (hmem _).2 (.inr ?_)
      rw [hpa, hnb]
      exact ⟨⟨hne₁, hne₂⟩, hm, rfl⟩
  · intro e he
    rcases (hmem e).1 he with he | ⟨⟨hpa, hnb⟩, hm, rfl⟩
    · obtain ⟨a', b', rfl, hm, hadj⟩ := h.stale e (hpq.mem_iff.2 (mem_cons_of_mem _ he))
      refine ⟨a', b', rfl, hm, fun ha' hb' => ?_⟩
      have hsub : ∀ i, i ∈ l₁ ++ l₂ → i ∈ l₁ ++ a :: b :: l₂ := by
        intro i hi
        rw [mem_append] at hi ⊢
        rcases hi with hi | hi
        · exact .inl hi
        · exact .inr (mem_cons_of_mem _ (mem_cons_of_mem _ hi))
      obtain ⟨hne, hab⟩ := hadj (hsub a' ha') (hsub b' hb')
      have hn₁ : (s.links.remove a).next a' = b' := by
        rw [h.linked.remove_next_of_ne, hab]
        rw [hab]
        exact fun h => hout.1 (h ▸ hb')
      refine ⟨hne, ?_⟩
      rw [hlinked₁.remove_next_of_ne, hn₁]
      rw [hn₁]
      exact fun h => hout.2 (h ▸ hb')
    · refine ⟨_, _, rfl, hm, fun ha' hb' => ?_⟩
      have hmem₁ := (h.linked.next_prev hpa).1
      have hmem₂ := (hb.prev_next hnb).1
      refine ⟨?_, ?_⟩
      · have hn₂ := hlinked₂.nodup
        rw [nodup_append] at hn₂
        exact hn₂.2.2 _ hmem₁ _ hmem₂
      · -- the last live node before the pair is now linked to the first one after it
        cases l₁ using reverseRecOn with
        | nil => cases hmem₁
        | append_singleton l c =>
          cases l₂ with
          | nil => cases hmem₂
          | cons d l' =>
            have hc : s.links.prev a = c := by simpa using hprev
            have hd : s.links.next b = d := by simpa using hnext
            rw [hc, hd]
            rw [append_assoc] at hlinked₂
            exact hlinked₂.next_eq
  · intro i
    by_cases hi : i = n
    · subst hi
      simp
    · simp only [update_of_ne hi]
      exact h.goals i
  · refine List.Perm.trans ?_ h.olds
    refine ((partners_update hnone _ _ _).append_right _).trans ?_
    refine List.Perm.trans ?_ ((live_perm hon l₁ l₂).1.append_left _).symm
    rw [cons_append]
    exact perm_middle.symm
  · exact ((unpaired_update hnone _ _).symm.trans hnews).cons_inv
  · intro i q
    rw [← h.settled i q]
    by_cases hi : i = n
    · subst hi
      simp [hnone]
    · simp only [update_of_ne hi]

/-- One turn of the loop, on the pair taken from the queue. -/
theorem PhaseTwo.Inv.pairShape (hnames : (newgoals.map New.name).Nodup) (h : s.Inv r₀ l)
    {e : Entry allgoals.length} {pq : List (Entry allgoals.length)} (hpq : s.pq.Perm (e :: pq)) :
    ∃ s' l', pairShape New oldgoals newgoals allgoals d e.2.1 e.2.2 { s with pq := pq } =
      some s' ∧ s'.Inv r₀ l' ∧ s'.pq.length + l'.length ≤ pq.length + l.length := by
  have he : e ∈ s.pq := hpq.mem_iff.2 mem_cons_self
  obtain ⟨a, b, rfl, ⟨o, n, hon⟩, -⟩ := h.stale e he
  by_cases hlive : a ∈ l ∧ b ∈ l
  · obtain ⟨l₁, l₂, rfl⟩ := h.split he hlive.1 hlive.2
    have ha := (h.linked.valid a).2 hlive.1
    have hb := (h.linked.valid b).2 hlive.2
    refine ⟨_, l₁ ++ l₂, ?_, h.pair (d := d) hpq hon, ?_⟩
    · simp only [Pairing.pairShape, entry, ha, hb, hon, newGoalIndex_get hnames n, Bool.and_self,
        if_true, Option.bind_eq_bind, Option.bind_some]
      congr
    · have hlen := length_add_le (d := d) (s.links.prev a) (s.links.next b) pq
      simp only [length_append, length_cons]
      split_ifs <;> omega
  · refine ⟨_, l, ?_, h.drop hpq hlive, le_rfl⟩
    have hdead : ¬ (s.links.valid a = true ∧ s.links.valid b = true) := by
      rw [h.linked.valid, h.linked.valid]
      exact hlive
    simp [Pairing.pairShape, entry, hdead]

/-- The loop ends, with an empty queue. -/
theorem PhaseTwo.Inv.pairShapes (hnames : (newgoals.map New.name).Nodup) {fuel : ℕ}
    (h : s.Inv r₀ l) (hfuel : s.pq.length + l.length ≤ fuel) :
    ∃ s' l', pairShapes New oldgoals newgoals allgoals d fuel s = some s' ∧ s'.Inv r₀ l' ∧
      s'.pq = [] := by
  induction fuel generalizing s l with
  | zero =>
    have hnil : s.pq = [] := length_eq_zero_iff.1 (by omega)
    refine ⟨s, l, ?_, h, hnil⟩
    rw [Pairing.pairShapes, hnil]
    rfl
  | succ fuel ih =>
    by_cases hnil : s.pq = []
    · refine ⟨s, l, ?_, h, hnil⟩
      rw [Pairing.pairShapes, hnil]
      rfl
    obtain ⟨e, pq, hex, hpq⟩ := Pqueue.extractMinExn_perm compareEntries d hnil
    obtain ⟨s', l', hstep, hinv, hlen⟩ := h.pairShape (d := d) hnames hpq
    have hlen' := hpq.length_eq
    rw [length_cons] at hlen'
    obtain ⟨s'', l'', hrun, hend⟩ := ih hinv (by omega)
    refine ⟨s'', l'', ?_, hend⟩
    rw [Pairing.pairShapes, hex]
    simp only [hstep, Option.bind_eq_bind, Option.bind_some]
    exact hrun

theorem same_kind_of_not_mixed (h : ¬ Mixed allgoals a b) :
    ((allgoals.get b).elt.old? = none → (allgoals.get a).elt.old? = none) ∧
    ((allgoals.get b).elt.new? = none → (allgoals.get a).elt.new? = none) := by
  unfold Mixed oldNew at h
  cases ha : (allgoals.get a).elt <;> cases hb : (allgoals.get b).elt <;>
    simp_all [GoalIndex.old?, GoalIndex.new?]

theorem live_nil_of_chain (h : l.IsChain fun a b => ¬ Mixed allgoals a b) :
    liveOlds allgoals l = [] ∨ liveNews allgoals l = [] := by
  unfold liveOlds liveNews
  rw [filterMap_eq_nil_iff, filterMap_eq_nil_iff]
  induction l with
  | nil => simp
  | cons a l ih =>
    cases l with
    | nil => cases ha : (allgoals.get a).elt <;> simp_all [GoalIndex.old?, GoalIndex.new?]
    | cons b l =>
      rw [isChain_cons_cons] at h
      have hkind := same_kind_of_not_mixed h.1
      rcases ih h.2 with hl | hl
      · exact .inl (forall_mem_cons.2 ⟨hkind.1 (hl b mem_cons_self), hl⟩)
      · exact .inr (forall_mem_cons.2 ⟨hkind.2 (hl b mem_cons_self), hl⟩)

theorem detached_perm {links : Links allgoals.length} (h : links.Linked l) :
    (detached oldgoals newgoals allgoals links).Perm (liveOlds allgoals l) := by
  have hfold : ∀ (l : List (Fin allgoals.length)) (acc : List α),
      l.foldl (fun acc x =>
        if links.valid x then
          match (allgoals.get x).elt with
          | .old g => oldgoals.get g :: acc
          | .new _ => acc
        else acc) acc = (liveOlds allgoals (l.filter links.valid)).reverse ++ acc := by
    intro l
    induction l with
    | nil => exact fun acc => rfl
    | cons x l ih =>
      intro acc
      rw [foldl_cons, ih]
      cases hv : links.valid x with
      | false => simp [hv]
      | true =>
        unfold liveOlds
        rw [filter_cons_of_pos hv, filterMap_cons, if_pos rfl]
        cases (allgoals.get x).elt with
        | old g | new g => simp [GoalIndex.old?]
  have heq : detached oldgoals newgoals allgoals links = _ := hfold (finRange _) []
  rw [heq, append_nil]
  refine (reverse_perm _).trans (List.Perm.filterMap _ ?_)
  rw [perm_ext_iff_of_nodup ((nodup_finRange _).filter _) h.nodup]
  intro i
  rw [mem_filter, h.valid]
  simp

/-- The second phase, from a result and nodes that together hold every goal once. -/
theorem phaseTwo_spec (hnames : (newgoals.map New.name).Nodup)
    (hgoals : ∀ i, (r₀ i).1 = newgoals.get i)
    (holds : (partners r₀ ++ liveOlds allgoals (finRange _)).Perm oldgoals)
    (hnews : (unpaired r₀).Perm (liveNews allgoals (finRange _))) :
    ∃ s, phaseTwo New oldgoals newgoals allgoals r₀ = some s ∧
      (∀ i, (s.result i).1 = newgoals.get i) ∧
      (partners s.result ++ detached oldgoals newgoals allgoals s.links).Perm oldgoals ∧
      (∀ i, (s.result i).2 = none → detached oldgoals newgoals allgoals s.links = []) ∧
      ∀ i q, (s.result i).2 = some (q, false) ↔ (r₀ i).2 = some (q, false) := by
  -- what the end of the loop says, for an empty list of nodes too
  have hdone : ∀ (s : PhaseTwo oldgoals newgoals allgoals) l, s.Inv r₀ l → s.pq = [] →
      (∀ i, (s.result i).1 = newgoals.get i) ∧
      (partners s.result ++ detached oldgoals newgoals allgoals s.links).Perm oldgoals ∧
      (∀ i, (s.result i).2 = none → detached oldgoals newgoals allgoals s.links = []) ∧
      ∀ i q, (s.result i).2 = some (q, false) ↔ (r₀ i).2 = some (q, false) := by
    intro s l h hpq
    have hdet := detached_perm h.linked
    refine ⟨h.goals, ((hdet.append_left _).trans h.olds), ?_, h.settled⟩
    intro i hi
    have hmem := h.news.mem_iff.1 (mem_unpaired.2 hi)
    have hchain : l.IsChain fun a b => ¬ Mixed allgoals a b := by
      refine h.queued.imp fun a b hq hm => ?_
      have he := hq hm
      rw [hpq] at he
      cases he
    rcases live_nil_of_chain hchain with hnil | hnil
    · rw [hnil] at hdet
      exact hdet.eq_nil
    · rw [hnil] at hmem
      cases hmem
  unfold phaseTwo
  simp only
  split
  · rename_i hnil
    refine ⟨_, rfl, hdone _ [] ⟨?_, ?_, ?_, hgoals, ?_, ?_, fun i q => .rfl⟩ rfl⟩
    · rw [← hnil]
      exact Links.linked_buildList
    · exact isChain_nil
    · intro e he
      cases he
    · rwa [hnil] at holds
    · rwa [hnil] at hnews
  · rename_i n tl hnodes
    obtain ⟨-, hchain, hmem⟩ := iterPairs_add_spec (d := ((0, 0), (n, n)))
      (finRange allgoals.length) []
    have hlinked := Links.linked_buildList (p := allgoals.length)
    have hinv : PhaseTwo.Inv r₀ ⟨(Links.mkNode _).buildList (finRange allgoals.length),
        iterPairs (add allgoals ((0, 0), (n, n))) (finRange allgoals.length) [], r₀⟩
        (finRange allgoals.length) := by
      refine ⟨hlinked, hchain, ?_, hgoals, holds, hnews, fun i q => .rfl⟩
      intro e he
      rcases hmem e he with he | ⟨a, b, ⟨l₁, l₂, hab⟩, hm, rfl⟩
      · cases he
      · refine ⟨a, b, rfl, hm, fun _ _ => ?_⟩
        have hn := nodup_finRange allgoals.length
        rw [← hab] at hn
        have hlinked' : ((Links.mkNode _).buildList (finRange allgoals.length)).Linked
            (l₁ ++ a :: (b :: l₂)) := by
          rw [append_assoc] at hab
          exact hab.symm ▸ hlinked
        exact ⟨by grind, hlinked'.next_eq⟩
    obtain ⟨s, l, hrun, hend, hpq⟩ := hinv.pairShapes (d := ((0, 0), (n, n))) hnames le_rfl
    rw [hnodes] at hrun
    rw [hnodes]
    exact ⟨s, hrun, hdone s l hend hpq⟩

end Loop

end Pairing

end Why3
