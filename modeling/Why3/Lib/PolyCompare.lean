import Mathlib.Tactic

/-!
# Polymorphic comparison

The comparison of two values by the way they are laid out in memory.  A value is an
immediate integer or the address of a block; blocks may be shared, and a block may be
reached from itself.  The comparison keeps the list of the pairs that are still to be
compared and stops at the first difference.  It refuses functions, and does not end on
some cyclic values: the fuel bounds its steps.
-/

namespace PolyCompare

inductive Value
  | imm (n : ℤ)
  | ptr (a : ℕ)

/-- The tags from 246 on are those of the blocks that have a meaning of their own. -/
inductive Block
  | fields (tag : Fin 246) (l : List Value)
  | closure
  | str (s : List (Fin 256))

def Block.tag : Block → ℕ
  | .fields tag _ => tag
  | .closure => 247
  | .str _ => 252

abbrev Memory := ℕ → Block

inductive CompareExn
  | functionalValue
  | outOfFuel

/-- How two blocks compare, and the pairs that decide when this is `eq`. -/
def compareBlocks (b b' : Block) : Except CompareExn (Ordering × List (Value × Value)) :=
  if b.tag ≠ b'.tag then .ok (compare b.tag b'.tag, [])
  else
    match b, b' with
    | .fields _ l, .fields _ l' =>
      if l.length ≠ l'.length then .ok (compare l.length l'.length, []) else .ok (.eq, l.zip l')
    | .str s, .str s' => .ok (compare s s', [])
    | _, _ => .error .functionalValue

def compareValues (H : Memory) : Value → Value → Except CompareExn (Ordering × List (Value × Value))
  | .imm n, .imm n' => .ok (compare n n', [])
  | .imm _, .ptr _ => .ok (.lt, [])
  | .ptr _, .imm _ => .ok (.gt, [])
  | .ptr a, .ptr a' => compareBlocks (H a) (H a')

def compareAll (H : Memory) : ℕ → List (Value × Value) → Except CompareExn Ordering
  | _, [] => .ok .eq
  | 0, _ :: _ => .error .outOfFuel
  | fuel + 1, (v, v') :: l =>
    match compareValues H v v' with
    | .error e => .error e
    | .ok (.eq, l') => compareAll H fuel (l' ++ l)
    | .ok (o, _) => .ok o

/-- `v >= v'`. -/
def ge (H : Memory) (fuel : ℕ) (v v' : Value) : Except CompareExn Bool :=
  (compareAll H fuel [(v, v')]).map Ordering.isGE

variable {H : Memory}

theorem compareAll_mono {fuel fuel' : ℕ} (hle : fuel ≤ fuel') {l : List (Value × Value)}
    {o : Ordering} (h : compareAll H fuel l = .ok o) : compareAll H fuel' l = .ok o := by
  induction fuel generalizing fuel' l with
  | zero =>
    cases l with
    | nil => simpa only [compareAll] using h
    | cons p l => cases h
  | succ fuel ih =>
    obtain ⟨fuel', rfl⟩ : ∃ n, fuel' = n + 1 := ⟨fuel' - 1, by omega⟩
    cases l with
    | nil => simpa only [compareAll] using h
    | cons p l =>
      rw [compareAll] at h ⊢
      split at h
      · cases h
      · exact ih (by omega) h
      · exact h

theorem ge_mono {fuel fuel' : ℕ} (hle : fuel ≤ fuel') {v v' : Value} {b : Bool}
    (h : ge H fuel v v' = .ok b) : ge H fuel' v v' = .ok b := by
  unfold ge at h ⊢
  cases hc : compareAll H fuel [(v, v')] with
  | error e => rw [hc] at h; cases h
  | ok o => rw [compareAll_mono hle hc, ← h, hc]

end PolyCompare
