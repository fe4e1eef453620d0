import Mathlib.Data.List.Basic
import Mathlib.Tactic

/-!
# Machine integers and their decimal text

The signed integers of 63 bits, the text `string_of_int` prints for them, and
`int_of_string`: an optional sign, an optional base, digits with underscores
between them, and an error when the number does not fit.
-/

namespace MachineInt

open List

variable {neg : Bool} {c : Char} {s : List Char}

def minInt : ℤ := -2 ^ 62

def maxInt : ℤ := 2 ^ 62 - 1

@[ext]
structure Int63 where
  val : ℤ
  inRange : minInt ≤ val ∧ val ≤ maxInt
deriving DecidableEq

/-- The low 63 bits of an integer, read as a signed number. -/
def wrap (n : ℤ) : Int63 :=
  ⟨(n + 2 ^ 62) % 2 ^ 63 - 2 ^ 62, by
    have h0 := Int.emod_nonneg (n + 2 ^ 62) (show (2 : ℤ) ^ 63 ≠ 0 by norm_num)
    have h1 := Int.emod_lt_of_pos (n + 2 ^ 62) (show (0 : ℤ) < 2 ^ 63 by norm_num)
    rw [minInt, maxInt]
    omega⟩

/-! ## Printing -/

def stringOfInt (n : Int63) : List Char :=
  if n.val < 0 then '-' :: Nat.toDigits 10 n.val.natAbs else Nat.toDigits 10 n.val.natAbs

/-! ## Parsing -/

def parseSign : List Char → Bool × List Char
  | '-' :: s => (true, s)
  | '+' :: s => (false, s)
  | s => (false, s)

/-- The base, and whether the number is read as a signed one. -/
def parseBase : List Char → ℕ × Bool × List Char
  | '0' :: 'x' :: s => (16, false, s)
  | '0' :: 'X' :: s => (16, false, s)
  | '0' :: 'o' :: s => (8, false, s)
  | '0' :: 'O' :: s => (8, false, s)
  | '0' :: 'b' :: s => (2, false, s)
  | '0' :: 'B' :: s => (2, false, s)
  | '0' :: 'u' :: s => (10, false, s)
  | '0' :: 'U' :: s => (10, false, s)
  | s => (10, true, s)

def parseDigit (c : Char) : Option ℕ :=
  if '0' ≤ c ∧ c ≤ '9' then some (c.toNat - '0'.toNat)
  else if 'A' ≤ c ∧ c ≤ 'F' then some (c.toNat - 'A'.toNat + 10)
  else if 'a' ≤ c ∧ c ≤ 'f' then some (c.toNat - 'a'.toNat + 10)
  else none

/-- The loop over the digits.  The machine stops as soon as the number exceeds a
word; it would then fail the range check at the end too. -/
def parseDigits (base : ℕ) (res : ℕ) : List Char → Option ℕ
  | [] => some res
  | c :: s =>
    if c = '_' then parseDigits base res s
    else
      match parseDigit c with
      | none => none
      | some d => if d < base then parseDigits base (base * res + d) s else none

/-- The range checks: an unsigned number may have 63 bits, and is then wrapped. -/
def ofSignedNat (neg signed : Bool) (res : ℕ) : Option Int63 :=
  let n : ℤ := if neg then -res else res
  if signed then
    if h : minInt ≤ n ∧ n ≤ maxInt then some ⟨n, h⟩ else none
  else
    if res < 2 ^ 63 then some (wrap n) else none

theorem ofSignedNat_val {res : ℕ} {n : Int63} (h : ofSignedNat neg true res = some n) :
    n.val = if neg then -(res : ℤ) else res := by
  rw [ofSignedNat, if_pos rfl] at h
  split_ifs at h with hneg hrange hrange
  · cases h
    exact (if_pos hneg).symm
  · cases h
    exact (if_neg hneg).symm

def intOfString (s : List Char) : Option Int63 :=
  let (neg, s) := parseSign s
  let (base, signed, s) := parseBase s
  match s with
  | [] => none
  | c :: s =>
    match parseDigit c with
    | none => none
    | some d =>
      if d < base then (parseDigits base d s).bind (ofSignedNat neg signed) else none

/-! ## Reading what was printed -/

theorem parseDigit_of_isDigit (h : c.isDigit) :
    parseDigit c = some (c.toNat - '0'.toNat) ∧ c.toNat - '0'.toNat < 10 := by
  have hd : '0' ≤ c ∧ c ≤ '9' := by
    simpa [Char.isDigit, Char.le_def] using h
  have hle : c.toNat ≤ '9'.toNat := hd.2
  refine ⟨by rw [parseDigit, if_pos hd], ?_⟩
  have h9 : '9'.toNat = 57 := rfl
  have h0 : '0'.toNat = 48 := rfl
  omega

theorem parseDigits_of_isDigit (res : ℕ) (h : ∀ c ∈ s, c.isDigit) :
    parseDigits 10 res s = some (Nat.ofDigitChars 10 s res) := by
  induction s generalizing res with
  | nil => rw [parseDigits, Nat.ofDigitChars_nil]
  | cons c s ih =>
    obtain ⟨hc, hlt⟩ := parseDigit_of_isDigit (h c mem_cons_self)
    have hund : c ≠ '_' := by
      rintro rfl
      exact absurd (h _ mem_cons_self) (by decide)
    rw [parseDigits, if_neg hund, hc]
    dsimp only
    rw [if_pos hlt, ih _ fun x hx => h x (mem_cons_of_mem _ hx), Nat.ofDigitChars_cons]

theorem parseSign_of_isDigit (h : c.isDigit) : parseSign (c :: s) = (false, c :: s) := by
  unfold parseSign
  split
  · next heq =>
      obtain ⟨rfl, -⟩ := cons.inj heq
      exact absurd h (by decide)
  · next heq =>
      obtain ⟨rfl, -⟩ := cons.inj heq
      exact absurd h (by decide)
  · rfl

theorem parseBase_of_isDigit (h : ∀ c ∈ s, c.isDigit) : parseBase s = (10, true, s) := by
  have hno : ∀ x : Char, ∀ y s', s = x :: y :: s' → y.isDigit := by
    rintro x y s' rfl
    exact h y (by simp)
  unfold parseBase
  split
  all_goals first | rfl | exact absurd (hno _ _ _ rfl) (by decide)

/-- A decimal text, after the sign was read. -/
theorem intOfString_digits {d : List Char} (hs : parseSign s = (neg, d)) (hne : d ≠ [])
    (hd : ∀ c ∈ d, c.isDigit) : intOfString s = ofSignedNat neg true (Nat.ofDigitChars 10 d 0) := by
  rw [intOfString, hs]
  dsimp only
  rw [parseBase_of_isDigit hd]
  dsimp only
  cases d with
  | nil => exact absurd rfl hne
  | cons c t =>
    obtain ⟨hc, hlt⟩ := parseDigit_of_isDigit (hd c mem_cons_self)
    dsimp only
    rw [hc]
    dsimp only
    rw [if_pos hlt, parseDigits_of_isDigit _ fun x hx => hd x (mem_cons_of_mem _ hx),
      Nat.ofDigitChars_cons, mul_zero, zero_add, Option.bind_some]

theorem intOfString_toDigits (k : ℕ) (hs : parseSign s = (neg, Nat.toDigits 10 k)) :
    intOfString s = ofSignedNat neg true k := by
  have hd : ∀ c ∈ Nat.toDigits 10 k, c.isDigit := fun c hc =>
    Nat.isDigit_of_mem_toDigits (by norm_num) (by norm_num) hc
  rw [intOfString_digits hs Nat.toDigits_ne_nil hd, Nat.ofDigitChars_ten_toDigits]

theorem intOfString_stringOfInt (n : Int63) : intOfString (stringOfInt n) = some n := by
  have hsigned : ∀ neg : Bool, (if neg then -(n.val.natAbs : ℤ) else n.val.natAbs) = n.val →
      ofSignedNat neg true n.val.natAbs = some n := by
    intro neg hneg
    rw [ofSignedNat, if_pos rfl]
    simp only [hneg]
    rw [dif_pos n.inRange]
  rw [stringOfInt]
  split_ifs with hlt
  · rw [intOfString_toDigits n.val.natAbs rfl]
    apply hsigned
    rw [if_pos rfl]
    omega
  · have hsign : parseSign (Nat.toDigits 10 n.val.natAbs)
        = (false, Nat.toDigits 10 n.val.natAbs) := by
      cases hdig : Nat.toDigits 10 n.val.natAbs with
      | nil => exact absurd hdig Nat.toDigits_ne_nil
      | cons c t =>
        apply parseSign_of_isDigit
        apply Nat.isDigit_of_mem_toDigits (b := 10) (n := n.val.natAbs)
        · norm_num
        · norm_num
        · rw [hdig]
          exact mem_cons_self
    rw [intOfString_toDigits n.val.natAbs hsign]
    apply hsigned
    rw [if_neg (by decide)]
    omega

/-- The characters of a printed integer. -/
theorem mem_stringOfInt {n : Int63} (h : c ∈ stringOfInt n) : c = '-' ∨ c.isDigit := by
  have hd : ∀ c ∈ Nat.toDigits 10 n.val.natAbs, c.isDigit := fun c hc =>
    Nat.isDigit_of_mem_toDigits (by norm_num) (by norm_num) hc
  rw [stringOfInt] at h
  split_ifs at h
  · rcases mem_cons.mp h with rfl | h
    · exact .inl rfl
    · exact .inr (hd c h)
  · exact .inr (hd c h)

end MachineInt
