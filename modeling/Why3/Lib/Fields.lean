import Mathlib.Data.List.Basic
import Mathlib.Data.List.TakeWhile
import Mathlib.Tactic

/-!
# Fields of a separated line

A line is a list of fields with a separator between them.  A reader walks over it
with a cursor, field by field.
-/

namespace Fields

open List

variable {α : Type}

/-- The position of the field after those given. -/
def offset (fs : List (List α)) : ℕ := (fs.map fun f => f.length + 1).sum

theorem offset_append_singleton (pre : List (List α)) (f : List α) :
    offset (pre ++ [f]) = offset pre + f.length + 1 := by
  simp [offset]
  omega

/-- The line made of some fields. -/
def join (sep : α) (fs : List (List α)) : List α := [sep].intercalate fs

variable {sep : α}

@[simp]
theorem join_singleton (f : List α) : join sep [f] = f := intercalate_singleton

variable {f : List α} {fs : List (List α)}

theorem join_cons (h : fs ≠ []) : join sep (f :: fs) = f ++ sep :: join sep fs := by
  rw [join, intercalate_cons_of_ne_nil h, append_assoc]
  rfl

/-- A separator in front of every field but the first. -/
theorem join_eq_flatMap (f : List α) (fs : List (List α)) :
    join sep (f :: fs) = f ++ fs.flatMap fun g => sep :: g := by
  induction fs generalizing f with
  | nil => simp
  | cons g fs ih =>
    rw [join_cons (cons_ne_nil _ _), ih, flatMap_cons]
    rfl

/-! ## The cursor -/

theorem drop_offset (pre : List (List α)) {fs : List (List α)} (h : fs ≠ []) :
    (join sep (pre ++ fs)).drop (offset pre) = join sep fs := by
  induction pre with
  | nil => rfl
  | cons f pre ih =>
    have hne : pre ++ fs ≠ [] := append_ne_nil_of_right_ne_nil _ h
    rw [cons_append, join_cons hne, offset, map_cons, sum_cons, add_assoc,
      drop_length_add_append, add_comm 1, drop_succ_cons]
    exact ih

theorem length_join_lt (pre : List (List α)) (f : List α) {fs : List (List α)} (h : fs ≠ []) :
    offset pre + f.length < (join sep (pre ++ f :: fs)).length := by
  have hd := congrArg List.length (@drop_offset α sep pre _ (cons_ne_nil f fs))
  rw [length_drop, join_cons h, length_append, length_cons] at hd
  omega

/-! ## Splitting -/

variable [DecidableEq α]

theorem join_splitOn (l : List α) : join sep (l.splitOn sep) = l := intercalate_splitOn sep

theorem splitOn_join (hne : fs ≠ []) (h : ∀ f ∈ fs, sep ∉ f) :
    (join sep fs).splitOn sep = fs := splitOn_intercalate sep h hne

/-- No field holds the separator: every line is the line of some fields, and these are
what is read back from it. -/
theorem not_mem_of_mem_splitOn {l : List α} (hf : f ∈ l.splitOn sep) : sep ∉ f := by
  have hex : ∃ fs : List (List α), fs ≠ [] ∧ l = join sep fs ∧ ∀ g ∈ fs, sep ∉ g := by
    clear hf
    induction l with
    | nil => exact ⟨[[]], cons_ne_nil _ _, rfl, by simp⟩
    | cons a l ih =>
      obtain ⟨fs, hne, rfl, hfs⟩ := ih
      by_cases ha : a = sep
      · refine ⟨[] :: fs, cons_ne_nil _ _, ?_, ?_⟩
        · rw [join_cons hne, nil_append, ha]
        · intro g hg
          rcases mem_cons.mp hg with rfl | hg
          · exact not_mem_nil
          · exact hfs g hg
      · obtain ⟨g, gs, rfl⟩ := exists_cons_of_ne_nil hne
        refine ⟨(a :: g) :: gs, cons_ne_nil _ _, ?_, ?_⟩
        · by_cases hgs : gs = []
          · rw [hgs, join_singleton, join_singleton]
          · rw [join_cons hgs, join_cons hgs]
            rfl
        · intro x hx
          rcases mem_cons.mp hx with rfl | hx
          · rw [mem_cons, not_or]
            exact ⟨fun e => ha e.symm, hfs g mem_cons_self⟩
          · exact hfs x (mem_cons_of_mem _ hx)
  obtain ⟨fs, hne, rfl, hfs⟩ := hex
  rw [splitOn_join hne hfs] at hf
  exact hfs f hf

theorem count_join {fs : List (List α)} (hne : fs ≠ []) (h : ∀ f ∈ fs, sep ∉ f) :
    (join sep fs).count sep + 1 = fs.length := by
  induction fs with
  | nil => exact absurd rfl hne
  | cons f fs ih =>
    have hf : f.count sep = 0 := count_eq_zero.mpr (h f mem_cons_self)
    cases fs with
    | nil =>
      rw [join_singleton, hf]
      rfl
    | cons g fs =>
      have hrest := ih (cons_ne_nil _ _) fun x hx => h x (mem_cons_of_mem _ hx)
      rw [join_cons (cons_ne_nil _ _), count_append, count_cons_self, hf,
        zero_add, hrest, length_cons]
      rfl

theorem takeWhile_join (hf : sep ∉ f) : (join sep (f :: fs)).takeWhile (· ≠ sep) = f := by
  have hall : ∀ x ∈ f, decide (x ≠ sep) = true := fun x hx =>
    decide_eq_true fun e => hf (e ▸ hx)
  cases fs with
  | nil => rw [join_singleton, takeWhile_eq_self_iff.mpr hall]
  | cons g fs =>
    rw [join_cons (cons_ne_nil _ _), takeWhile_append_of_pos hall,
      takeWhile_cons_of_neg (by simp), append_nil]

end Fields
