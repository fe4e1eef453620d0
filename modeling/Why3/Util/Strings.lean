import Why3.Lib.Lines

/-!
# Splitting strings

`rev_split` and `split` of `util/strings.ml`.
-/

namespace Why3.Strings

open Lines List

def sub (s : List Char) (i n : ℕ) : List Char := (s.drop i).take n

/-- What `String.index_from` answers. -/
inductive Index
  | found (j : ℕ)
  | notFound
  | invalidArgument

def indexFrom (s : List Char) (i : ℕ) (c : Char) : Index :=
  if i ≤ s.length then
    match (s.drop i).findIdx? (· = c) with
    | some k => .found (i + k)
    | none => .notFound
  else .invalidArgument

theorem indexFrom_found {s : List Char} {i j : ℕ} {c : Char} (h : indexFrom s i c = .found j) :
    i ≤ j ∧ j < s.length := by
  rw [indexFrom] at h
  split_ifs at h
  split at h
  · next k hk =>
      obtain ⟨hlt, -⟩ := List.findIdx?_eq_some_iff_getElem.mp hk
      rw [length_drop] at hlt
      cases h
      omega
  · cases h

def revSplitAux (c : Char) (s : List Char) (acc : List (List Char)) (i : ℕ) : List (List Char) :=
  match h : indexFrom s i c with
  | .found j => revSplitAux c s (sub s i (j - i) :: acc) (j + 1)
  | .notFound => sub s i (s.length - i) :: acc
  | .invalidArgument => [] :: acc
termination_by s.length - i
decreasing_by
  have := indexFrom_found h
  omega

def revSplit (c : Char) (s : List Char) : List (List Char) := revSplitAux c s [] 0

def split (c : Char) (s : List Char) : List (List Char) := (revSplit c s).reverse

/-! ## The pieces -/

variable {c : Char} {s : List Char}

/-- The first separator from `i` on cuts the string there. -/
theorem drop_of_indexFrom {i j : ℕ} (h : indexFrom s i c = .found j) :
    s.drop i = sub s i (j - i) ++ c :: s.drop (j + 1) ∧ c ∉ sub s i (j - i) := by
  rw [indexFrom] at h
  split_ifs at h with hi
  split at h
  · next k hk =>
      obtain ⟨hlt, hc, hbefore⟩ := List.findIdx?_eq_some_iff_getElem.mp hk
      cases h
      have hget : (s.drop i)[k] = c := by simpa using hc
      rw [sub, Nat.add_sub_cancel_left]
      constructor
      · calc s.drop i = (s.drop i).take k ++ (s.drop i).drop k := (take_append_drop k _).symm
          _ = (s.drop i).take k ++ c :: (s.drop i).drop (k + 1) := by
            rw [drop_eq_getElem_cons hlt, hget]
          _ = (s.drop i).take k ++ c :: s.drop (i + k + 1) := by rw [drop_drop, add_assoc]
      · intro hmem
        obtain ⟨m, hm, hget'⟩ := mem_take_iff_getElem.mp hmem
        have hmk : m < k := by omega
        have := hbefore m hmk
        rw [hget'] at this
        simp at this
  · cases h

theorem not_mem_of_indexFrom {i : ℕ} (h : indexFrom s i c = .notFound) : c ∉ s.drop i := by
  rw [indexFrom] at h
  split_ifs at h with hi
  split at h
  · cases h
  · next hnone =>
      rw [List.findIdx?_eq_none_iff] at hnone
      intro hmem
      have := hnone c hmem
      simp at this

theorem revSplitAux_eq (acc : List (List Char)) (i : ℕ) (hi : i ≤ s.length) :
    revSplitAux c s acc i = ((s.drop i).splitOn c).reverse ++ acc := by
  fun_induction revSplitAux c s acc i with
  | case1 acc i j h ih =>
    have hj := (indexFrom_found h).2
    obtain ⟨hcut, hnot⟩ := drop_of_indexFrom h
    rw [ih (by omega), hcut, splitOn_append_cons_self_of_not_mem hnot, reverse_cons,
      append_assoc]
    rfl
  | case2 acc i h =>
    have hall : sub s i (s.length - i) = s.drop i := take_of_length_le (by simp)
    rw [splitOn_eq_singleton (not_mem_of_indexFrom h), hall]
    rfl
  | case3 acc i h =>
    rw [indexFrom, if_pos hi] at h
    split at h <;> cases h

theorem revSplit_eq (c : Char) (s : List Char) :
    revSplit c s = rest c s :: (complete c s).reverse := by
  rw [revSplit, revSplitAux_eq [] 0 (Nat.zero_le _), drop_zero, append_nil, splitOn_eq,
    reverse_append]
  rfl

theorem revSplit_eq_reverse (c : Char) (s : List Char) : revSplit c s = (s.splitOn c).reverse := by
  rw [revSplit_eq, splitOn_eq, reverse_append]
  rfl

theorem split_eq (c : Char) (s : List Char) : split c s = s.splitOn c := by
  rw [split, revSplit_eq_reverse, reverse_reverse]

end Why3.Strings
