import Mathlib.Data.List.Perm.Basic
import Mathlib.Tactic

/-!
# Priority queues

The binary heaps of `util/pqueue.ml`: a growable array, here the list of its
elements, with the smallest element first.  The pairing of goals relies only on
what the queue holds: an insertion adds one element and an extraction takes one
away, whatever the comparison is.
-/

namespace Why3

open List

namespace Pqueue

variable {α : Type} (cmp : α → α → Ordering) (dummy : α)

/-- `move_up`: put `x` at the position `i` or above. -/
def moveUp (a : List α) (i : ℕ) (x : α) : List α :=
  if i = 0 then a.set i x
  else
    let j := (i - 1) / 2
    let y := a.getD j dummy
    if cmp y x = .gt then moveUp (a.set i y) j x else a.set i x
termination_by i

/-- The smaller one of the children of `i`. -/
def child (a : List α) (i : ℕ) : ℕ :=
  let j1 := 2 * i + 1
  if j1 + 1 < a.length ∧ cmp (a.getD (j1 + 1) dummy) (a.getD j1 dummy) = .lt then j1 + 1 else j1

/-- `move_down`: put `x` at the position `i` or below.  A position has a child
when it is at most `q`, that is when `2 * i + 2` is at most the length. -/
def moveDown (a : List α) (i : ℕ) (x : α) : List α :=
  if 2 * i + 2 ≤ a.length then
    let j := child cmp dummy a i
    if cmp (a.getD j dummy) x = .lt then moveDown (a.set i (a.getD j dummy)) j x else a.set i x
  else a.set i x
termination_by a.length - i
decreasing_by
  rw [length_set]
  have : i < child cmp dummy a i := by
    unfold child
    simp only
    split <;> omega
  omega

def insert (x : α) (h : List α) : List α :=
  let n := h.length
  if n = 0 then h ++ [x]
  else
    let j := (n - 1) / 2
    let y := h.getD j dummy
    if cmp y x = .gt then moveUp cmp dummy (h ++ [y]) j x else h ++ [x]

/-- `extract_min_exn`, with the queue that is left; `none` is the exception
`Empty`. -/
def extractMinExn (h : List α) : Option (α × List α) :=
  match h.getLast? with
  | none => none
  | some x =>
    let h := h.dropLast
    if h.length = 0 then some (x, h)
    else some (h.getD 0 dummy, moveDown cmp dummy h 0 x)

/-! ## What the queue holds -/

section Perm

variable {cmp dummy}

/-- Moving the element at `j` to `i` and putting `x` in its place. -/
theorem perm_set_set {a : List α} {i j : ℕ} {x : α} (hi : i < a.length) (hj : j < a.length)
    (hij : i ≠ j) : ((a.set i (a.getD j dummy)).set j x).Perm (a.set i x) := by
  have hget : a.getD j dummy = a[j] := by simp [hj]
  rw [hget]
  have hj' : j < (a.set i a[j]).length := by
    rw [length_set]
    exact hj
  -- both are `x` with the same remaining elements
  have hrest : ((a.set i a[j]).eraseIdx j).Perm (a.eraseIdx i) := by
    have h₁ := set_perm_cons_eraseIdx hi a[j]
    have h₂ := getElem_cons_eraseIdx_perm hj'
    rw [getElem_set_of_ne hij] at h₂
    exact (h₂.trans h₁).cons_inv
  exact ((set_perm_cons_eraseIdx hj' x).trans (hrest.cons x)).trans
    (set_perm_cons_eraseIdx hi x).symm

theorem moveUp_perm (a : List α) (i : ℕ) (x : α) (hi : i < a.length) :
    (moveUp cmp dummy a i x).Perm (a.set i x) := by
  induction a, i using moveUp.induct cmp dummy x with
  | case1 a =>
    rw [moveUp, if_pos rfl]
  | case2 a i h0 j y hgt ih =>
    have hj : j < i := by
      show (i - 1) / 2 < i
      omega
    rw [moveUp, if_neg h0]
    simp only
    rw [if_pos hgt]
    refine (ih ?_).trans (perm_set_set hi (by omega) (by omega))
    rw [length_set]
    omega
  | case3 a i h0 j y hgt =>
    rw [moveUp, if_neg h0]
    simp only
    rw [if_neg hgt]

theorem lt_child (a : List α) (i : ℕ) : i < child cmp dummy a i := by
  unfold child
  simp only
  split <;> omega

theorem child_lt {a : List α} {i : ℕ} (h : 2 * i + 2 ≤ a.length) :
    child cmp dummy a i < a.length := by
  unfold child
  simp only
  split <;> omega

theorem moveDown_perm (a : List α) (i : ℕ) (x : α) (hi : i < a.length) :
    (moveDown cmp dummy a i x).Perm (a.set i x) := by
  induction a, i using moveDown.induct cmp dummy x with
  | case1 a i h j hlt ih =>
    have hj : j < a.length := child_lt h
    have hij : i < j := lt_child a i
    rw [moveDown, if_pos h]
    simp only
    rw [if_pos hlt]
    refine (ih ?_).trans (perm_set_set hi hj (by omega))
    rw [length_set]
    exact hj
  | case2 a i h j hlt =>
    rw [moveDown, if_pos h]
    simp only
    rw [if_neg hlt]
  | case3 a i h =>
    rw [moveDown, if_neg h]

theorem insert_perm (x : α) (h : List α) : (insert cmp dummy x h).Perm (x :: h) := by
  have happ : (h ++ [x]).Perm (x :: h) := perm_append_singleton x h
  unfold insert
  simp only
  split
  · exact happ
  · rename_i hn
    split
    · -- the parent was copied to the new last position
      have hj : (h.length - 1) / 2 < h.length := by omega
      have hj' : (h.length - 1) / 2 < (h ++ [h.getD ((h.length - 1) / 2) dummy]).length := by
        rw [length_append]
        exact Nat.lt_add_right _ hj
      refine (moveUp_perm _ _ x hj').trans ?_
      refine (set_perm_cons_eraseIdx hj' x).trans (List.Perm.cons x ?_)
      rw [eraseIdx_append_of_lt_length hj]
      have hget : h.getD ((h.length - 1) / 2) dummy = h[(h.length - 1) / 2] := by simp [hj]
      rw [hget]
      exact (perm_append_singleton _ _).trans (getElem_cons_eraseIdx_perm hj)
    · exact happ

variable (cmp dummy) in
theorem extractMinExn_perm {h : List α} (hne : h ≠ []) :
    ∃ x h', extractMinExn cmp dummy h = some (x, h') ∧ h.Perm (x :: h') := by
  obtain ⟨l, y, rfl⟩ : ∃ l y, h = l ++ [y] := ⟨_, _, (dropLast_append_getLast hne).symm⟩
  unfold extractMinExn
  simp only [getLast?_concat, dropLast_concat]
  have happ : (l ++ [y]).Perm (y :: l) := perm_append_singleton y l
  cases l with
  | nil => exact ⟨y, [], rfl, happ⟩
  | cons z l =>
    rw [if_neg (by simp)]
    refine ⟨z, _, rfl, happ.trans ?_⟩
    refine List.Perm.trans ?_ ((moveDown_perm (z :: l) 0 y (by simp)).symm.cons z)
    exact List.Perm.swap z y l

end Perm

end Pqueue

end Why3
