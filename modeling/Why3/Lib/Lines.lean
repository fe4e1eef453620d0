import Mathlib.Data.List.Basic
import Mathlib.Tactic

/-!
# The lines of a stream

A stream that arrives in pieces: its complete lines, each ended by a separator, and the
unfinished line behind the last separator.
-/

namespace Lines

open List

variable {α : Type} [DecidableEq α] {sep : α} {l s t : List α}

def complete (sep : α) (s : List α) : List (List α) := (s.splitOn sep).dropLast

def rest (sep : α) (s : List α) : List α := (s.splitOn sep).getLast (splitOn_ne_nil sep s)

theorem splitOn_eq (sep : α) (s : List α) : s.splitOn sep = complete sep s ++ [rest sep s] :=
  (dropLast_append_getLast (splitOn_ne_nil sep s)).symm

theorem complete_of_not_mem (h : sep ∉ s) : complete sep s = [] := by
  rw [complete, splitOn_eq_singleton h]
  rfl

theorem rest_of_not_mem (h : sep ∉ s) : rest sep s = s := by
  simp [rest, splitOn_eq_singleton h]

theorem splitOn_line (h : sep ∉ l) :
    (l ++ sep :: s).splitOn sep = (l :: complete sep s) ++ [rest sep s] := by
  rw [splitOn_append_cons_self_of_not_mem h, splitOn_eq, cons_append]

theorem complete_line (h : sep ∉ l) : complete sep (l ++ sep :: s) = l :: complete sep s := by
  rw [complete, splitOn_line h, dropLast_concat]

theorem rest_line (h : sep ∉ l) : rest sep (l ++ sep :: s) = rest sep s := by
  simp [rest, splitOn_line h]

/-- A stream is an unfinished line, or a line and a stream. -/
theorem induction (sep : α) {P : List α → Prop} (unfinished : ∀ s, sep ∉ s → P s)
    (line : ∀ l s, sep ∉ l → P s → P (l ++ sep :: s)) (s : List α) : P s := by
  by_cases h : sep ∈ s
  · obtain ⟨l, s', rfl, hl⟩ := eq_append_cons_of_mem h
    exact line l s' hl (induction sep unfinished line s')
  · exact unfinished s h
termination_by s.length
decreasing_by
  subst_vars
  rw [length_append, length_cons]
  omega

/-! ## Pieces -/

theorem complete_append (s t : List α) :
    complete sep (s ++ t) = complete sep s ++ complete sep (rest sep s ++ t) := by
  induction s using induction sep with
  | unfinished s h => rw [complete_of_not_mem h, rest_of_not_mem h, nil_append]
  | line l s h ih =>
    rw [append_assoc, cons_append, complete_line h, complete_line h, rest_line h, ih,
      cons_append]

theorem rest_append (s t : List α) : rest sep (s ++ t) = rest sep (rest sep s ++ t) := by
  induction s using induction sep with
  | unfinished s h => rw [rest_of_not_mem h]
  | line l s h ih => rw [append_assoc, cons_append, rest_line h, rest_line h, ih]

theorem not_mem_rest (sep : α) (s : List α) : sep ∉ rest sep s := by
  induction s using induction sep with
  | unfinished s h => rwa [rest_of_not_mem h]
  | line l s h ih => rwa [rest_line h]

theorem rest_suffix (sep : α) (s : List α) : rest sep s <:+ s := by
  induction s using induction sep with
  | unfinished s h => rw [rest_of_not_mem h]
  | line l s h ih =>
    rw [rest_line h]
    exact (ih.trans (suffix_cons sep s)).trans (suffix_append l _)

theorem complete_eq_nil : complete sep s = [] ↔ sep ∉ s := by
  constructor
  · intro h hmem
    obtain ⟨l, s', rfl, hl⟩ := eq_append_cons_of_mem hmem
    rw [complete_line hl] at h
    cases h
  · exact complete_of_not_mem

theorem length_rest_lt (h : sep ∈ s) : (rest sep s).length < s.length := by
  obtain ⟨l, s', rfl, hl⟩ := eq_append_cons_of_mem h
  have hle := (rest_suffix sep s').length_le
  rw [rest_line hl, length_append, length_cons]
  omega

theorem drop_length_sub_rest (sep : α) (s : List α) :
    s.drop (s.length - (rest sep s).length) = rest sep s :=
  (suffix_iff_eq_drop.mp (rest_suffix sep s)).symm

end Lines
