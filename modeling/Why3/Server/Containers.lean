import Mathlib.Data.List.Perm.Basic
import Mathlib.Tactic

/-!
# The containers of the proof server

The association list of `server/arraylist.c` and the circular queue of
`server/queue.c`.  An array list is the list of its first `len` entries.  The cells
of a queue that were never written are `none`; a queue carries the fact that the
cells in use were written.
-/

namespace Why3.Server

open List Function

variable {α : Type}

/-! ## Array lists -/

def listLookup (l : List (ℤ × α)) (key : ℤ) : Option α :=
  (l.find? fun e => e.1 = key).map Prod.snd

/-- The last entry takes the place of the one removed. -/
def listRemove (l : List (ℤ × α)) (key : ℤ) : List (ℤ × α) :=
  match l.findIdx? (fun e => e.1 = key), l.getLast? with
  | some i, some e => (l.set i e).dropLast
  | _, _ => l

def listAppend (l : List (ℤ × α)) (key : ℤ) (elt : α) : List (ℤ × α) := l ++ [(key, elt)]

theorem mem_of_listLookup {l : List (ℤ × α)} {key : ℤ} {x : α} (h : listLookup l key = some x) :
    (key, x) ∈ l := by
  obtain ⟨e, he, rfl⟩ := Option.map_eq_some_iff.mp h
  have hkey : e.1 = key := by simpa using find?_some he
  have hmem := mem_of_find?_eq_some he
  rwa [← hkey]

theorem listLookup_eq_none {l : List (ℤ × α)} {key : ℤ} :
    listLookup l key = none ↔ key ∉ l.map Prod.fst := by
  rw [listLookup, Option.map_eq_none_iff, find?_eq_none]
  simp only [decide_eq_true_eq, mem_map, not_exists, not_and]

theorem listRemove_perm (l : List (ℤ × α)) (key : ℤ) :
    (listRemove l key).Perm (l.eraseP fun e => e.1 = key) := by
  rcases exists_or_eq_self_of_eraseP (fun e : ℤ × α => decide (e.1 = key)) l with
    hself | ⟨a, pre, post, hpre, ha, hl, herase⟩
  · -- the key is not there
    have hnone : l.findIdx? (fun e => e.1 = key) = none := by
      rw [List.findIdx?_eq_none_iff]
      intro e he
      by_contra hne
      have hp : decide (e.1 = key) = true := by simpa using hne
      have hlen := @List.length_eraseP_of_mem _ l e (fun e => decide (e.1 = key)) he hp
      rw [hself] at hlen
      have := length_pos_of_mem he
      omega
    rw [hself, listRemove, hnone]
  · have hidx : l.findIdx? (fun e => e.1 = key) = some pre.length := by
      have hnone : pre.findIdx? (fun e => e.1 = key) = none := by
        rw [List.findIdx?_eq_none_iff]
        intro e he
        simpa using hpre e he
      rw [hl, List.findIdx?_append, hnone, List.findIdx?_cons, if_pos ha]
      simp
    rw [herase, listRemove, hidx]
    rcases eq_nil_or_concat' post with rfl | ⟨post, e, rfl⟩
    · rw [hl]
      simp
    · rw [hl, ← cons_append, ← append_assoc, getLast?_concat]
      dsimp only
      rw [append_assoc, set_append_right _ _ le_rfl, Nat.sub_self, cons_append,
        set_cons_zero, ← cons_append, ← append_assoc, dropLast_concat,
        ← append_assoc]
      exact perm_middle.trans (perm_append_singleton _ _).symm

/-! ## The circular queue -/

/-- The `len` cells from `pointer` on, round the array, are in use. -/
structure Queue (α : Type) where
  capacity : ℕ
  len : ℕ
  pointer : ℕ
  data : ℕ → Option α
  pointer_lt : pointer < capacity
  len_le : len ≤ capacity
  written : ∀ i < len, (data ((pointer + i) % capacity)).isSome

namespace Queue

/-- The place of an element, counted from the head. -/
def place (q : Queue α) (i : ℕ) : ℕ := (q.pointer + i) % q.capacity

/-- The elements from the head on. -/
def toList (q : Queue α) : List α := (List.range q.len).filterMap fun i => q.data (q.place i)

theorem capacity_pos (q : Queue α) : 0 < q.capacity := (Nat.zero_le _).trans_lt q.pointer_lt

theorem mod_eq {p i c : ℕ} (hp : p < c) (hi : i ≤ c) :
    (p + i) % c = if p + i < c then p + i else p + i - c := by
  split_ifs with h
  · exact Nat.mod_eq_of_lt h
  · rw [Nat.mod_eq_sub_mod (by omega), Nat.mod_eq_of_lt (by omega)]

end Queue

def initQueue (capacity : ℕ) (h : 0 < capacity) : Queue α where
  capacity := capacity
  len := 0
  pointer := 0
  data := fun _ => none
  pointer_lt := h
  len_le := Nat.zero_le _
  written := fun _ h => absurd h (Nat.not_lt_zero _)

def queueIsEmpty (q : Queue α) : Bool := q.len = 0

/-- The head, and the queue without it; the source asserts that there is one. -/
def queuePop (q : Queue α) : Option (α × Queue α) :=
  if h : 0 < q.len then
    (q.data q.pointer).map fun x =>
      (x, { q with
        len := q.len - 1
        pointer := (q.pointer + 1) % q.capacity
        pointer_lt := Nat.mod_lt _ q.capacity_pos
        len_le := (Nat.sub_le _ _).trans q.len_le
        written := fun i hi => by
          rw [Nat.mod_add_mod, add_assoc, add_comm 1]
          exact q.written (i + 1) (by omega) })
  else none

/-- The element goes behind the last one. -/
def simplePush (q : Queue α) (elt : α) (h : q.len < q.capacity) : Queue α where
  capacity := q.capacity
  len := q.len + 1
  pointer := q.pointer
  data := update q.data ((q.pointer + q.len) % q.capacity) (some elt)
  pointer_lt := q.pointer_lt
  len_le := h
  written := fun i hi => by
    by_cases heq : (q.pointer + i) % q.capacity = (q.pointer + q.len) % q.capacity
    · rw [heq, update_self]
      rfl
    · rw [update_of_ne heq]
      apply q.written
      rcases Nat.lt_succ_iff_lt_or_eq.mp hi with hi | rfl
      · exact hi
      · exact absurd rfl heq

/-- The cells after `realloc` and `memcpy`: what stands from the head to the end of the
old array is moved to the end of the new one. -/
def resizeData (q : Queue α) (j : ℕ) : Option α :=
  let newP := 2 * q.capacity - q.capacity + q.pointer
  if newP ≤ j ∧ j < newP + (q.capacity - q.pointer) then q.data (j - newP + q.pointer)
  else q.data j

theorem resizeData_place (q : Queue α) {i : ℕ} (hi : i < q.len) :
    resizeData q ((2 * q.capacity - q.capacity + q.pointer + i) % (2 * q.capacity))
      = q.data (q.place i) := by
  have hp := q.pointer_lt
  have hl := q.len_le
  rw [Queue.place, Queue.mod_eq hp (by omega), Queue.mod_eq (by omega) (by omega), resizeData]
  by_cases h : q.pointer + i < q.capacity
  · rw [if_pos h, if_pos (show _ < _ by omega), if_pos ⟨by omega, by omega⟩]
    congr 1
    omega
  · rw [if_neg h, if_neg (show ¬ _ < _ by omega), if_neg (by omega)]
    congr 1
    omega

def resizeQueue (q : Queue α) : Queue α where
  capacity := 2 * q.capacity
  len := q.len
  pointer := 2 * q.capacity - q.capacity + q.pointer
  data := resizeData q
  pointer_lt := by
    have := q.pointer_lt
    omega
  len_le := q.len_le.trans (Nat.le_mul_of_pos_left _ (by norm_num))
  written := fun i hi => by
    rw [resizeData_place q hi]
    exact q.written i hi

def queuePush (q : Queue α) (elt : α) : Queue α :=
  if h : q.len = q.capacity then
    simplePush (resizeQueue q) elt (by
      have := q.capacity_pos
      show q.len < 2 * q.capacity
      omega)
  else simplePush q elt (lt_of_le_of_ne q.len_le h)

/-! ## A queue is a list -/

theorem toList_initQueue (capacity : ℕ) (h : 0 < capacity) :
    (initQueue capacity h : Queue α).toList = [] := rfl

theorem toList_simplePush (q : Queue α) (elt : α) (h : q.len < q.capacity) :
    (simplePush q elt h).toList = q.toList ++ [elt] := by
  have hlast : [q.len].filterMap (fun i => (simplePush q elt h).data ((simplePush q elt h).place i))
      = [elt] := by
    have : (simplePush q elt h).data ((simplePush q elt h).place q.len) = some elt :=
      update_self _ _ _
    simp [this]
  rw [Queue.toList, show (simplePush q elt h).len = q.len + 1 from rfl, range_succ,
    filterMap_append, hlast, Queue.toList]
  congr 1
  apply filterMap_congr
  intro i hi
  have hlt := mem_range.mp hi
  have hp := q.pointer_lt
  apply update_of_ne
  show (q.pointer + i) % q.capacity ≠ (q.pointer + q.len) % q.capacity
  rw [Queue.mod_eq hp (by omega), Queue.mod_eq hp (by omega)]
  split_ifs <;> omega

theorem toList_resizeQueue (q : Queue α) : (resizeQueue q).toList = q.toList := by
  apply filterMap_congr
  intro i hi
  exact resizeData_place q (mem_range.mp hi)

theorem toList_queuePush (q : Queue α) (elt : α) : (queuePush q elt).toList = q.toList ++ [elt] := by
  rw [queuePush]
  split_ifs
  · rw [toList_simplePush, toList_resizeQueue]
  · rw [toList_simplePush]

theorem queueIsEmpty_iff (q : Queue α) : queueIsEmpty q = true ↔ q.toList = [] := by
  rw [queueIsEmpty, decide_eq_true_iff]
  constructor
  · intro h
    rw [Queue.toList, h]
    rfl
  · intro h
    by_contra hne
    have hpos : 0 < q.len := by omega
    obtain ⟨x, hx⟩ := Option.isSome_iff_exists.mp (q.written 0 hpos)
    have hmem : x ∈ q.toList := mem_filterMap.mpr ⟨0, mem_range.mpr hpos, hx⟩
    rw [h] at hmem
    exact absurd hmem not_mem_nil

theorem queuePop_spec {q : Queue α} (h : queueIsEmpty q = false) :
    ∃ x q', queuePop q = some (x, q') ∧ q.toList = x :: q'.toList ∧ q'.len < q.len := by
  have hpos : 0 < q.len := by
    rw [queueIsEmpty, decide_eq_false_iff_not] at h
    omega
  have hplace : q.place 0 = q.pointer := Nat.mod_eq_of_lt q.pointer_lt
  obtain ⟨x, hx⟩ := Option.isSome_iff_exists.mp (q.written 0 hpos)
  have hx' : q.data q.pointer = some x := hplace ▸ hx
  rw [queuePop, dif_pos hpos, hx', Option.map_some]
  refine ⟨x, _, rfl, ?_, Nat.sub_lt hpos one_pos⟩
  have hrange : List.range q.len = 0 :: (List.range (q.len - 1)).map Nat.succ := by
    rw [← range_succ_eq_map, Nat.sub_add_cancel hpos]
  rw [Queue.toList, hrange, filterMap_cons, show q.data (q.place 0) = some x from hx]
  dsimp only
  rw [List.filterMap_map, Queue.toList]
  congr 1
  apply filterMap_congr
  intro i _
  show q.data ((q.pointer + (i + 1)) % q.capacity)
    = q.data (((q.pointer + 1) % q.capacity + i) % q.capacity)
  rw [Nat.mod_add_mod, add_assoc, add_comm 1 i]

end Why3.Server
