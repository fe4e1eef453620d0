import Mathlib.Data.List.Pairwise
import Mathlib.Tactic

/-!
# Sorted association lists

Lists of bindings in increasing order of the keys, for a comparison function that
may identify different keys.  Such a list is a finite function; the lookup
returns the stored binding, since the stored key is only equivalent to the one
that is asked for.
-/

namespace SortedAssoc

open Std List TransCmp

variable {K α β : Type} (cmp : K → K → Ordering)

def Sorted (l : List (K × α)) : Prop :=
  l.Pairwise (fun p q => cmp p.1 q.1 = .lt)

/-- The binding of `k`. -/
def binding (k : K) (l : List (K × α)) : Option (K × α) :=
  l.find? (fun p => cmp k p.1 == .eq)

/-- The bindings of the keys smaller than `x`. -/
def below (x : K) (l : List (K × α)) : List (K × α) :=
  l.filter (fun p => cmp x p.1 == .gt)

/-- The bindings of the keys greater than `x`. -/
def above (x : K) (l : List (K × α)) : List (K × α) :=
  l.filter (fun p => cmp x p.1 == .lt)

variable {cmp}

/-! ## The order of the bindings -/

section Order

variable {A B : List (K × α)} {p : K × α}

@[simp] theorem sorted_nil : Sorted cmp ([] : List (K × α)) := List.Pairwise.nil

theorem sorted_cons : Sorted cmp (p :: B) ↔ (∀ q ∈ B, cmp p.1 q.1 = .lt) ∧ Sorted cmp B :=
  pairwise_cons

variable [TransCmp cmp]

theorem sorted_append_cons :
    Sorted cmp (A ++ p :: B) ↔ Sorted cmp A ∧ Sorted cmp B ∧
      (∀ q ∈ A, cmp q.1 p.1 = .lt) ∧ ∀ q ∈ B, cmp p.1 q.1 = .lt := by
  unfold Sorted
  rw [pairwise_append, pairwise_cons]
  constructor
  · rintro ⟨hA, ⟨hp, hB⟩, hAB⟩
    exact ⟨hA, hB, fun q hq => hAB q hq p mem_cons_self, hp⟩
  · rintro ⟨hA, hB, hAp, hpB⟩
    refine ⟨hA, ⟨hpB, hB⟩, ?_⟩
    intro a ha b hb
    rcases mem_cons.mp hb with rfl | hb
    · exact hAp a ha
    · exact lt_trans (hAp a ha) (hpB b hb)

omit [TransCmp cmp] in
theorem sorted_append : Sorted cmp (A ++ B) ↔
    Sorted cmp A ∧ Sorted cmp B ∧ ∀ a ∈ A, ∀ b ∈ B, cmp a.1 b.1 = .lt :=
  pairwise_append

/-- The keys after `x`'s are not before it. -/
theorem lt_of_append_cons {x : K} (h : Sorted cmp (A ++ p :: B)) (hx : cmp x p.1 ≠ .gt) :
    ∀ q ∈ B, cmp x q.1 = .lt := by
  intro q hq
  have hpq := (sorted_append_cons.mp h).2.2.2 q hq
  cases hxp : cmp x p.1 with
  | lt => exact lt_trans hxp hpq
  | eq => exact lt_of_eq_of_lt hxp hpq
  | gt => exact absurd hxp hx

theorem gt_of_append_cons {x : K} (h : Sorted cmp (A ++ p :: B)) (hx : cmp x p.1 ≠ .lt) :
    ∀ q ∈ A, cmp x q.1 = .gt := by
  intro q hq
  have hqp := OrientedCmp.gt_of_lt ((sorted_append_cons.mp h).2.2.1 q hq)
  cases hxp : cmp x p.1 with
  | lt => exact absurd hxp hx
  | eq => exact gt_of_eq_of_gt hxp hqp
  | gt => exact gt_trans hxp hqp

end Order

/-! ## Bindings -/

variable {l : List (K × α)}

section Bindings

theorem mem_of_binding {k : K} {p : K × α} (h : binding cmp k l = some p) :
    p ∈ l ∧ cmp k p.1 = .eq := by
  refine ⟨mem_of_find?_eq_some h, ?_⟩
  simpa using find?_some h

theorem binding_eq_none {k : K} :
    binding cmp k l = none ↔ ∀ p ∈ l, cmp k p.1 ≠ .eq := by
  simp [binding]

/-- A key before all those of a list is not bound in it. -/
theorem binding_none_of_lt {k : K} (h : ∀ q ∈ l, cmp k q.1 = .lt) :
    binding cmp k l = none :=
  binding_eq_none.mpr (fun q hq => by rw [h q hq]; decide)

theorem binding_cons_of_gt {k : K} {p : K × α} (h : cmp k p.1 = .gt) :
    binding cmp k (p :: l) = binding cmp k l := by
  rw [binding, find?_cons, h]
  rfl

theorem binding_cons_of_eq {k : K} {p : K × α} (h : cmp k p.1 = .eq) :
    binding cmp k (p :: l) = some p := by
  rw [binding, find?_cons, h]
  rfl

variable [TransCmp cmp] {A B l : List (K × α)} {p : K × α} {k x : K}

theorem binding_append_cons (h : Sorted cmp (A ++ p :: B)) :
    binding cmp k (A ++ p :: B) =
      match cmp k p.1 with
      | .lt => binding cmp k A
      | .eq => some p
      | .gt => binding cmp k B := by
  have hnone : ∀ {l : List (K × α)} {o : Ordering}, o ≠ .eq → (∀ q ∈ l, cmp k q.1 = o) →
      binding cmp k l = none := by
    intro l o ho hl
    exact binding_eq_none.mpr (fun q hq => by rw [hl q hq]; exact ho)
  unfold binding at hnone ⊢
  rw [find?_append, find?_cons]
  cases hkp : cmp k p.1 with
  | lt =>
    rw [hnone (by decide) (lt_of_append_cons h (by rw [hkp]; decide))]
    simp
  | eq | gt =>
    rw [hnone (by decide) (gt_of_append_cons h (by rw [hkp]; decide))]
    simp

theorem binding_eq_some (h : Sorted cmp l) :
    binding cmp k l = some p ↔ p ∈ l ∧ cmp k p.1 = .eq := by
  refine ⟨mem_of_binding, ?_⟩
  rintro ⟨hp, hk⟩
  obtain ⟨A, B, rfl⟩ := append_of_mem hp
  rw [binding_append_cons h, hk]

theorem binding_congr {k' : K} (hk : cmp k k' = .eq) : binding cmp k l = binding cmp k' l := by
  unfold binding
  congr 1
  funext q
  rw [congr_left hk]

end Bindings

/-! ## Maps that keep the keys -/

section FilterMap

variable {l : List (K × α)} {g : K × α → Option (K × β)}

theorem sorted_filterMap (hg : ∀ p q, g p = some q → q.1 = p.1) (h : Sorted cmp l) :
    Sorted cmp (l.filterMap g) := by
  refine pairwise_filterMap.mpr (h.imp ?_)
  intro a b hab p hp q hq
  rw [hg a p hp, hg b q hq]
  exact hab

theorem binding_filterMap [TransCmp cmp] (hg : ∀ p q, g p = some q → q.1 = p.1)
    (h : Sorted cmp l) (k : K) : binding cmp k (l.filterMap g) = (binding cmp k l).bind g := by
  ext q
  rw [binding_eq_some (sorted_filterMap hg h), mem_filterMap, Option.bind_eq_some_iff]
  constructor
  · rintro ⟨⟨p, hp, hpq⟩, hk⟩
    exact ⟨p, (binding_eq_some h).mpr ⟨hp, by rwa [← hg p q hpq]⟩, hpq⟩
  · rintro ⟨p, hp, hpq⟩
    obtain ⟨hmem, hk⟩ := (binding_eq_some h).mp hp
    exact ⟨⟨p, hmem, hpq⟩, by rwa [hg p q hpq]⟩

end FilterMap

/-! ## The two sides of a key -/

section Sides

variable {A B l : List (K × α)} {p : K × α} {k x : K}

theorem sorted_below (h : Sorted cmp l) : Sorted cmp (below cmp x l) := List.Pairwise.filter _ h

theorem sorted_above (h : Sorted cmp l) : Sorted cmp (above cmp x l) := List.Pairwise.filter _ h

theorem mem_below : p ∈ below cmp x l ↔ p ∈ l ∧ cmp x p.1 = .gt := by simp [below]

theorem mem_above : p ∈ above cmp x l ↔ p ∈ l ∧ cmp x p.1 = .lt := by simp [above]

variable [TransCmp cmp]

/-- The bindings that a test on the comparison with a key leaves of a sorted list. -/
theorem filter_append_cons (P : Ordering → Bool) (h : Sorted cmp (A ++ p :: B)) :
    (A ++ p :: B).filter (fun q => P (cmp x q.1)) =
      match cmp x p.1 with
      | .lt => A.filter (fun q => P (cmp x q.1)) ++ if P .lt then p :: B else []
      | .eq => (if P .gt then A else []) ++ (if P .eq then [p] else []) ++ if P .lt then B else []
      | .gt => (if P .gt then A ++ [p] else []) ++ B.filter (fun q => P (cmp x q.1)) := by
  have hone : ∀ {o : Ordering} {l : List (K × α)}, (∀ q ∈ l, cmp x q.1 = o) →
      l.filter (fun q => P (cmp x q.1)) = if P o then l else [] := by
    intro o l hl
    rw [filter_congr (fun q hq => by rw [hl q hq])]
    cases P o <;> simp
  have hA : cmp x p.1 ≠ .lt → A.filter (fun q => P (cmp x q.1)) = if P .gt then A else [] :=
    fun hx => hone (gt_of_append_cons h hx)
  have hB : cmp x p.1 ≠ .gt → B.filter (fun q => P (cmp x q.1)) = if P .lt then B else [] :=
    fun hx => hone (lt_of_append_cons h hx)
  rw [filter_append, filter_cons]
  cases hxp : cmp x p.1 with
  | lt => rw [hB (by rw [hxp]; decide)]; cases P .lt <;> simp
  | eq =>
    rw [hA (by rw [hxp]; decide), hB (by rw [hxp]; decide)]
    cases P .eq <;> simp
  | gt => rw [hA (by rw [hxp]; decide)]; cases P .gt <;> simp

theorem below_append_cons (h : Sorted cmp (A ++ p :: B)) :
    below cmp x (A ++ p :: B) =
      match cmp x p.1 with
      | .lt => below cmp x A
      | .eq => A
      | .gt => A ++ p :: below cmp x B := by
  refine (filter_append_cons (· == .gt) h).trans ?_
  cases cmp x p.1 <;> simp [below]

theorem above_append_cons (h : Sorted cmp (A ++ p :: B)) :
    above cmp x (A ++ p :: B) =
      match cmp x p.1 with
      | .lt => above cmp x A ++ p :: B
      | .eq => B
      | .gt => above cmp x B := by
  refine (filter_append_cons (· == .lt) h).trans ?_
  cases cmp x p.1 <;> simp [above]

/-- Two lists on both sides of a key, with a binding of it or none in between. -/
theorem sorted_middle {v : K} (hA : Sorted cmp A) (hB : Sorted cmp B)
    (hAv : ∀ q ∈ A, cmp q.1 v = .lt) (hvB : ∀ q ∈ B, cmp v q.1 = .lt) (o : Option α) :
    Sorted cmp (A ++ ((o.map (v, ·)).toList ++ B)) := by
  cases o with
  | none => exact sorted_append.mpr ⟨hA, hB, fun a ha b hb => lt_trans (hAv a ha) (hvB b hb)⟩
  | some d => exact sorted_append_cons.mpr ⟨hA, hB, hAv, hvB⟩

theorem binding_middle {v : K} (hA : Sorted cmp A) (hB : Sorted cmp B)
    (hAv : ∀ q ∈ A, cmp q.1 v = .lt) (hvB : ∀ q ∈ B, cmp v q.1 = .lt) (o : Option α) (k : K) :
    binding cmp k (A ++ ((o.map (v, ·)).toList ++ B)) =
      match cmp k v with
      | .lt => binding cmp k A
      | .eq => o.map (v, ·)
      | .gt => binding cmp k B := by
  cases o with
  | some d => exact binding_append_cons (sorted_append_cons.mpr ⟨hA, hB, hAv, hvB⟩)
  | none =>
    have hnoneA : cmp k v ≠ .lt → binding cmp k A = none := by
      intro hk
      refine binding_eq_none.mpr (fun q hq hkq => hk ?_)
      exact lt_of_eq_of_lt hkq (hAv q hq)
    have hnoneB : cmp k v ≠ .gt → binding cmp k B = none := by
      intro hk
      refine binding_eq_none.mpr (fun q hq hkq => hk ?_)
      exact gt_of_eq_of_gt hkq (OrientedCmp.gt_of_lt (hvB q hq))
    have happ : binding cmp k (A ++ ((none : Option α).map (v, ·)).toList ++ B) =
        (binding cmp k A).or (binding cmp k B) := by
      simp [binding]
    rw [← append_assoc, happ]
    cases hk : cmp k v with
    | lt => simp [hnoneB (by rw [hk]; decide)]
    | eq => simp [hnoneA (by rw [hk]; decide), hnoneB (by rw [hk]; decide)]
    | gt => simp [hnoneA (by rw [hk]; decide)]

theorem binding_below (h : Sorted cmp l) (hk : cmp k x = .lt) :
    binding cmp k (below cmp x l) = binding cmp k l := by
  ext q
  rw [binding_eq_some (sorted_below h), binding_eq_some h, mem_below]
  refine and_congr_left (fun hkq => and_iff_left ?_)
  exact OrientedCmp.gt_of_lt (lt_of_eq_of_lt (OrientedCmp.eq_symm hkq) hk)

theorem binding_above (h : Sorted cmp l) (hk : cmp x k = .lt) :
    binding cmp k (above cmp x l) = binding cmp k l := by
  ext q
  rw [binding_eq_some (sorted_above h), binding_eq_some h, mem_above]
  exact and_congr_left (fun hkq => and_iff_left (lt_of_lt_of_eq hk hkq))

end Sides

end SortedAssoc
