import Why3.Lib.MachineInt

/-!
# Shapes as text

`string_of_shape` and `shape_of_string` of `session/termcode.ml`.  A bound shape
is a list of integers, written with the letter `H` between them.  The reader
keeps the last bound shape it returned and shares its longest common suffix with
the next one; the shape it keeps is an explicit state here.  A string is the list
of its characters.
-/

namespace Why3.Termcode

open MachineInt List Option

abbrev BoundShape := List Int63

inductive SumShapeVersion
  | sv1 | sv2 | sv3 | sv4 | sv5 | sv6
deriving DecidableEq, Repr

def isBoundSumShapeVersion : SumShapeVersion → Bool
  | .sv1 | .sv2 | .sv3 | .sv4 | .sv5 => false
  | .sv6 => true

inductive ShapeV
  | oldShape (s : List Char)
  | boundShape (l : BoundShape)
deriving DecidableEq

/-! ## Writing -/

variable {α : Type}

/-- `Pp.print_list_pre`: the separator stands before every element. -/
def printListPre (sep : List Char) (print : α → List Char) : List α → List Char
  | [] => []
  | x :: r => sep ++ (print x ++ printListPre sep print r)

/-- `Pp.print_list`. -/
def printList (sep : List Char) (print : α → List Char) : List α → List Char
  | [] => []
  | x :: r => print x ++ printListPre sep print r

def stringOfShape : ShapeV → List Char
  | .oldShape s => s
  | .boundShape l => printList ['H'] stringOfInt l

/-! ## Reading -/

/-- `Strings.rev_split`: `piece` is what was read of the current piece, last
character first. -/
def revSplitAux (c : Char) (acc : List (List Char)) (piece : List Char) :
    List Char → List (List Char)
  | [] => piece.reverse :: acc
  | x :: s =>
    if x = c then revSplitAux c (piece.reverse :: acc) [] s
    else revSplitAux c acc (x :: piece) s

def revSplit (c : Char) (s : List Char) : List (List Char) :=
  revSplitAux c [] [] s

/-- `Lists.chop`, with `none` for `Invalid_argument`. -/
def chop (n : ℤ) : List α → Option (List α)
  | [] => if n = 0 then some [] else none
  | x :: l => if n = 0 then some (x :: l) else if n < 0 then none else chop (n - 1) l

/-- The loop `aux` that counts the common elements.  A malformed piece is skipped. -/
def commonSuffix : List Int63 → List (List Char) → ℤ → ℤ × List (List Char)
  | hc :: tc, hs :: ts, n =>
    match intOfString hs with
    | some x => if x = hc then commonSuffix tc ts (n + 1) else (n, hs :: ts)
    | none => commonSuffix (hc :: tc) ts n
  | [], s, n => (n, s)
  | _ :: _, [], n => (n, [])

/-- The loop over the pieces that are not shared. -/
def consPieces (acc : BoundShape) (s : List (List Char)) : BoundShape :=
  s.foldl (fun acc x =>
    match intOfString x with
    | some n => n :: acc
    | none => acc) acc

/-- The part of the cache that is compared: it is cut to the number of pieces, so
that no uselessly long list is reversed. -/
def cutCache (cache : BoundShape) (ls : ℤ) : Option (BoundShape × ℤ) :=
  let lc : ℤ := cache.length
  if lc > ls then (chop (lc - ls) cache).map (·, ls) else some (cache, lc)

/-- `none` stands for an exception.  The second result is the new content of the
cache. -/
def shapeOfString (cache : BoundShape) (version : SumShapeVersion) (s : List Char) :
    Option (ShapeV × BoundShape) :=
  if isBoundSumShapeVersion version then do
    let s := revSplit 'H' s
    let (c, lc) ← cutCache cache s.length
    let (common, remaining) := commonSuffix c.reverse s 0
    let common ← chop (lc - common) c
    let s := consPieces common remaining
    some (.boundShape s, s)
  else some (.oldShape s, cache)

/-- The reader without the cache. -/
def shapeOfStringUncached (version : SumShapeVersion) (s : List Char) : ShapeV :=
  if isBoundSumShapeVersion version then .boundShape (consPieces [] (revSplit 'H' s))
  else .oldShape s

/-- A sequence of calls, each with the cache that the calls before it left. -/
def shapeCalls (cache : BoundShape) :
    List (SumShapeVersion × List Char) → Option (List ShapeV × BoundShape)
  | [] => some ([], cache)
  | (version, s) :: calls => do
    let (r, cache) ← shapeOfString cache version s
    let (rs, cache) ← shapeCalls cache calls
    some (r :: rs, cache)

/-! ## The shared suffix -/

theorem chop_eq_drop {n : ℕ} {l : List α} (h : n ≤ l.length) :
    chop (n : ℤ) l = some (l.drop n) := by
  induction l generalizing n with
  | nil =>
    obtain rfl : n = 0 := Nat.le_zero.mp h
    rfl
  | cons x l ih =>
    cases n with
    | zero => rfl
    | succ n =>
      have hsub : ((n + 1 : ℕ) : ℤ) - 1 = n := by push_cast; ring
      rw [chop, if_neg (by omega), if_neg (by omega), hsub, ih (Nat.le_of_succ_le_succ h),
        drop_succ_cons]

theorem cutCache_length (cache : BoundShape) (ls : ℕ) :
    ∃ c, cutCache cache ls = some (c, (c.length : ℤ)) := by
  simp only [cutCache]
  split_ifs with hlt
  · have hsub : (cache.length : ℤ) - ls = ((cache.length - ls : ℕ) : ℤ) := by omega
    refine ⟨cache.drop (cache.length - ls), ?_⟩
    rw [hsub, chop_eq_drop (Nat.sub_le _ _), map_some, length_drop]
    congr 2
    omega
  · exact ⟨cache, rfl⟩

theorem consPieces_cons (acc : BoundShape) (x : List Char) (s : List (List Char)) :
    consPieces acc (x :: s) = consPieces ((intOfString x).toList ++ acc) s := by
  rw [consPieces, foldl_cons, ← consPieces]
  cases intOfString x <;> rfl

/-- The elements counted as common are those that reading the skipped pieces
would have produced. -/
theorem commonSuffix_spec (c : List Int63) (s : List (List Char)) (n : ℤ) :
    ∃ k ≤ c.length, (commonSuffix c s n).1 = n + k ∧
      ∀ acc, consPieces acc s
        = consPieces ((c.take k).reverse ++ acc) (commonSuffix c s n).2 := by
  induction s generalizing c n with
  | nil =>
    refine ⟨0, Nat.zero_le _, ?_, fun acc => ?_⟩
    · cases c <;> simp [commonSuffix]
    · cases c <;> simp [commonSuffix]
  | cons hs ts ih =>
    cases c with
    | nil => exact ⟨0, Nat.zero_le _, by simp [commonSuffix], fun acc => by simp [commonSuffix]⟩
    | cons hc tc =>
      cases hx : intOfString hs with
      | none =>
        obtain ⟨k, hk, hn, hacc⟩ := ih (hc :: tc) n
        simp only [commonSuffix, hx]
        refine ⟨k, hk, hn, fun acc => ?_⟩
        rw [consPieces_cons, hx, ← hacc]
        rfl
      | some x =>
        by_cases heq : x = hc
        · subst heq
          obtain ⟨k, hk, hn, hacc⟩ := ih tc (n + 1)
          simp only [commonSuffix, hx, if_pos]
          refine ⟨k + 1, Nat.succ_le_succ hk, ?_, fun acc => ?_⟩
          · rw [hn]
            push_cast
            ring
          · rw [consPieces_cons, hx, toList_some, hacc, take_succ_cons,
              reverse_cons, append_assoc]
        · simp only [commonSuffix, hx, if_neg heq]
          exact ⟨0, Nat.zero_le _, by simp, fun acc => by simp⟩

/-- What is shared with the rest `c` of the cache, and what is read anew, is what
reading everything gives. -/
theorem consPieces_shared (c : BoundShape) (s : List (List Char)) :
    ∃ common, chop (c.length - (commonSuffix c.reverse s 0).1) c = some common ∧
      consPieces common (commonSuffix c.reverse s 0).2 = consPieces [] s := by
  obtain ⟨k, hk, hn, hacc⟩ := commonSuffix_spec c.reverse s 0
  rw [length_reverse] at hk
  have hlen : (c.length : ℤ) - (0 + k) = ((c.length - k : ℕ) : ℤ) := by omega
  refine ⟨c.drop (c.length - k), ?_, ?_⟩
  · rw [hn, hlen]
    exact chop_eq_drop (Nat.sub_le _ _)
  · rw [hacc, append_nil, take_reverse, reverse_reverse]

theorem shapeOfString_bound (cache : BoundShape) {version : SumShapeVersion} (s : List Char)
    (hv : isBoundSumShapeVersion version = true) :
    shapeOfString cache version s = some (.boundShape (consPieces [] (revSplit 'H' s)),
      consPieces [] (revSplit 'H' s)) := by
  obtain ⟨c, hc⟩ := cutCache_length cache (revSplit 'H' s).length
  obtain ⟨common, hchop, hread⟩ := consPieces_shared c (revSplit 'H' s)
  rw [shapeOfString, if_pos hv]
  show (cutCache cache (revSplit 'H' s).length).bind _ = _
  rw [hc, bind_some]
  show (chop _ c).bind _ = _
  rw [hchop, bind_some, hread]

/-- One call: it returns what the reader without the cache returns. -/
theorem shapeOfString_uncached (cache : BoundShape) (version : SumShapeVersion)
    (s : List Char) :
    ∃ cache', shapeOfString cache version s
      = some (shapeOfStringUncached version s, cache') := by
  rw [shapeOfStringUncached]
  split_ifs with hv
  · exact ⟨_, shapeOfString_bound cache s hv⟩
  · exact ⟨cache, by rw [shapeOfString, if_neg hv]⟩

theorem shapeCalls_uncached (cache : BoundShape) (calls : List (SumShapeVersion × List Char)) :
    ∃ cache', shapeCalls cache calls
      = some (calls.map fun c => shapeOfStringUncached c.1 c.2, cache') := by
  induction calls generalizing cache with
  | nil => exact ⟨cache, rfl⟩
  | cons call calls ih =>
    obtain ⟨version, s⟩ := call
    obtain ⟨cache₁, hcall⟩ := shapeOfString_uncached cache version s
    obtain ⟨cache₂, hcalls⟩ := ih cache₁
    refine ⟨cache₂, ?_⟩
    show (shapeOfString cache version s).bind _ = _
    rw [hcall, bind_some]
    show (shapeCalls cache₁ calls).bind _ = _
    rw [hcalls]
    rfl

/-! ## Reading what was written -/

theorem revSplitAux_append {c : Char} {p : List Char} (hp : c ∉ p) (acc : List (List Char))
    (piece s : List Char) :
    revSplitAux c acc piece (p ++ s) = revSplitAux c acc (p.reverse ++ piece) s := by
  induction p generalizing piece with
  | nil => rfl
  | cons x p ih =>
    rw [mem_cons, not_or] at hp
    rw [cons_append, revSplitAux, if_neg fun h => hp.1 h.symm, ih hp.2, reverse_cons,
      append_assoc, singleton_append]

theorem revSplitAux_printList {c : Char} {print : α → List Char} (hp : ∀ x, c ∉ print x)
    (x : α) (l : List α) (acc : List (List Char)) :
    revSplitAux c acc [] (print x ++ printListPre [c] print l)
      = ((x :: l).map print).reverse ++ acc := by
  induction l generalizing x acc with
  | nil =>
    rw [revSplitAux_append (hp x), append_nil, printListPre, revSplitAux]
    simp
  | cons y l ih =>
    rw [revSplitAux_append (hp x), append_nil, printListPre, singleton_append,
      revSplitAux, if_pos rfl, reverse_reverse, ih, map_cons, map_cons,
      map_cons, reverse_cons, reverse_cons, reverse_cons]
    simp

theorem notMem_stringOfInt (n : Int63) : 'H' ∉ stringOfInt n := by
  intro h
  rcases mem_stringOfInt h with h | h
  · exact absurd h (by decide)
  · exact absurd h (by decide)

theorem consPieces_printed (l acc : BoundShape) :
    consPieces acc (l.map stringOfInt).reverse = l ++ acc := by
  rw [consPieces, foldl_reverse, foldr_map]
  simp only [intOfString_stringOfInt]
  induction l with
  | nil => rfl
  | cons n l ih => rw [foldr_cons, ih, cons_append]

theorem consPieces_stringOfShape (l : BoundShape) :
    consPieces [] (revSplit 'H' (stringOfShape (.boundShape l))) = l := by
  rw [stringOfShape]
  cases l with
  | nil => rfl
  | cons n l =>
    rw [revSplit, printList, revSplitAux_printList notMem_stringOfInt, append_nil,
      consPieces_printed, append_nil]

/-- Whatever was read before, a call returns what the reader without the cache
returns, and a bound shape that was written is read back. -/
theorem shape_of_string_calls (calls : List (SumShapeVersion × List Char)) :
    (∃ cache, shapeCalls [] calls
      = some (calls.map fun c => shapeOfStringUncached c.1 c.2, cache)) ∧
    ∀ version, isBoundSumShapeVersion version = true → ∀ l : BoundShape,
      ∃ rs cache, shapeCalls [] (calls ++ [(version, stringOfShape (.boundShape l))])
        = some (rs ++ [.boundShape l], cache) := by
  refine ⟨shapeCalls_uncached [] calls, fun version hv l => ?_⟩
  obtain ⟨cache, hcache⟩ :=
    shapeCalls_uncached [] (calls ++ [(version, stringOfShape (.boundShape l))])
  refine ⟨calls.map fun c => shapeOfStringUncached c.1 c.2, cache, ?_⟩
  rw [hcache, map_append, map_singleton, shapeOfStringUncached, if_pos hv,
    consPieces_stringOfShape]

/-- A malformed text is read first. -/
theorem shape_of_string_after_malformed :
    ∃ rs cache, shapeCalls [] ([(SumShapeVersion.sv6, ['1', 'H', '_', 'H', '2'])] ++
        [(SumShapeVersion.sv6, stringOfShape (.boundShape [wrap 3, wrap (-2)]))])
      = some (rs ++ [.boundShape [wrap 3, wrap (-2)]], cache) :=
  (shape_of_string_calls [(.sv6, ['1', 'H', '_', 'H', '2'])]).2 .sv6 rfl [wrap 3, wrap (-2)]

end Why3.Termcode
