import Mathlib.Data.List.Basic
import Mathlib.Tactic

/-!
# Association lists

What `List.lookup` finds, and what it finds after bindings were added or removed.
-/

namespace Lookup

open List
open Prod (fst snd)

variable {K α : Type} {l : List (K × α)} {k : K} {x : α}

section Lawful

variable [BEq K] [LawfulBEq K]

theorem mem_of_lookup (h : l.lookup k = some x) : (k, x) ∈ l := by
  obtain ⟨l₁, l₂, rfl, _⟩ := lookup_eq_some_iff.1 h
  simp

theorem lookup_eq_none : l.lookup k = none ↔ k ∉ l.map fst := by
  rw [lookup_eq_none_iff]
  simp only [bne_iff_ne, mem_map, not_exists, not_and]
  exact forall_congr' fun e => forall_congr' fun _ => ne_comm

theorem lookup_of_mem (hnd : (l.map fst).Nodup) (h : (k, x) ∈ l) : l.lookup k = some x := by
  cases hl : l.lookup k with
  | none => exact absurd (mem_map_of_mem h) (lookup_eq_none.mp hl)
  | some y =>
    have hmem := inj_on_of_nodup_map hnd (mem_of_lookup hl) h rfl
    rw [(Prod.mk.inj hmem).2]

end Lawful

variable [DecidableEq K]

theorem lookup_cons (k' : K) (y : α) :
    ((k', y) :: l).lookup k = if k = k' then some y else l.lookup k := by
  rw [List.lookup_cons]
  split_ifs with h
  · subst h
    rw [beq_self_eq_true]
  · have hbeq : (k == k') = false := by simpa using h
    rw [hbeq]

theorem lookup_append {l' : List (K × α)} :
    (l ++ l').lookup k = (l.lookup k).or (l'.lookup k) := by
  induction l with
  | nil => rfl
  | cons e l ih =>
    rw [cons_append, lookup_cons, lookup_cons, ih]
    split_ifs <;> rfl

/-- Keys with different values are different. -/
theorem lookup_inj {k' : K} (hnd : (l.map snd).Nodup) (h : l.lookup k = some x)
    (h' : l.lookup k' = some x) : k = k' :=
  congrArg fst (inj_on_of_nodup_map hnd (mem_of_lookup h) (mem_of_lookup h') rfl)

theorem lookup_filter_ne (k' : K) :
    (l.filter fun e => decide (e.1 ≠ k')).lookup k = if k = k' then none else l.lookup k := by
  induction l with
  | nil => simp
  | cons e l ih =>
    rw [filter_cons]
    by_cases he : e.1 = k'
    · rw [if_neg (by simpa using he), ih]
      split_ifs with hk
      · rfl
      · rw [lookup_cons, if_neg (by rw [he]; exact hk)]
    · rw [if_pos (by simpa using he), lookup_cons, lookup_cons, ih]
      split_ifs with h₁ h₂ h₂
      · exact absurd (h₁.symm.trans h₂) he
      · rfl
      · rfl
      · rfl

theorem lookup_filter_map (p : K → Bool) (c : α → α) :
    ((l.filter fun e => p e.1).map fun e => (e.1, c e.2)).lookup k =
      if p k then (l.lookup k).map c else none := by
  induction l with
  | nil => simp
  | cons e l ih =>
    rw [filter_cons]
    by_cases he : p e.1 = true
    · rw [if_pos he, map_cons, lookup_cons, lookup_cons, ih]
      by_cases hk : k = e.1
      · rw [if_pos hk, if_pos hk, hk, if_pos he]
        rfl
      · rw [if_neg hk, if_neg hk]
    · rw [if_neg he, ih, lookup_cons]
      by_cases hk : k = e.1
      · rw [hk, if_neg he, if_neg he]
      · rw [if_neg hk]

/-! ## Tables with one binding for each key -/

def find (l : List (K × α)) (k : K) : Option α := l.lookup k

/-- The old binding of the key, if any, is replaced. -/
def replace (l : List (K × α)) (k : K) (x : α) : List (K × α) :=
  (k, x) :: l.filter fun e => decide (e.1 ≠ k)

def remove (l : List (K × α)) (k : K) : List (K × α) :=
  l.filter fun e => decide (e.1 ≠ k)

theorem find_replace (k' : K) (y : α) :
    find (replace l k' y) k = if k = k' then some y else find l k := by
  rw [find, replace, lookup_cons, lookup_filter_ne, find]
  split_ifs <;> rfl

theorem find_remove (k' : K) :
    find (remove l k') k = if k = k' then none else find l k :=
  lookup_filter_ne k'

theorem mem_of_find (h : find l k = some x) : (k, x) ∈ l := mem_of_lookup h

theorem find_isSome : (find l k).isSome = true ↔ k ∈ l.map fst := by
  rw [Option.isSome_iff_ne_none, find, ne_eq, lookup_eq_none, not_not]

theorem mem_keys_replace (k' : K) (y : α) :
    k ∈ (replace l k' y).map fst ↔ k = k' ∨ k ∈ l.map fst := by
  rw [← find_isSome, ← find_isSome, find_replace]
  by_cases h : k = k' <;> simp [h]

theorem mem_keys_remove (k' : K) :
    k ∈ (remove l k').map fst ↔ k ≠ k' ∧ k ∈ l.map fst := by
  rw [← find_isSome, ← find_isSome, find_remove]
  by_cases h : k = k' <;> simp [h]

end Lookup
