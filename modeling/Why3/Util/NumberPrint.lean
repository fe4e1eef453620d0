import Why3.Util.FloatLiteral

/-!
# Printing numbers

The printers of integer and real constants of `util/number.ml`.  A record of the prover
says for each notation whether it is written by default, by a formatter of its own, or not
at all, and the printers fall back from one notation to the next.  A formatter is the text
it writes for its arguments; a printer returns the call of the formatter that it chose.
-/

namespace Why3

open List RealValue

namespace BigInt

open MachineInt

/-- `to_string`. -/
def toString (i : ℤ) : List Char :=
  if i < 0 then '-' :: Nat.toDigits 10 i.natAbs else Nat.toDigits 10 i.natAbs

def isInt (i : ℤ) : Bool := minInt ≤ i ∧ i ≤ maxInt

/-- `pow_int_pos_bigint`; no exponent is negative here. -/
def powIntPosBigint (b e : ℤ) : ℤ := b ^ e.toNat

end BigInt

namespace Number

open MachineInt
open BigInt (isInt powIntPosBigint)

/-- `int_constant`. -/
structure IntConstant where
  ilKind : IntLiteralKind
  ilInt : ℤ
deriving DecidableEq

/-! ## The support of a printer -/

abbrev DefaultFormat := List Char → List Char

abbrev IntegerFormat := ℤ → List Char

abbrev RealFormat := List Char → List Char → Option (List Char) → List Char

structure FracRealFormat where
  noDen : List Char → List Char
  withDen : List Char → List Char → List Char

/-- The argument is the text that the delayed printer writes. -/
abbrev DelayedFormat := List Char → List Char

inductive Forced (α : Type)
  | default
  | custom (f : α)

inductive Support (α : Type)
  | default
  | custom (f : α)
  | unsupported

inductive DecSupport
  | default
  | custom (f : IntegerFormat)
  | unsupported (f : DefaultFormat)

inductive FracSupport
  | custom (f : FracRealFormat)
  | unsupported (f : DefaultFormat)

structure NumberSupport where
  longIntSupport : Forced DefaultFormat
  negativeIntSupport : Forced DelayedFormat
  decIntSupport : DecSupport
  hexIntSupport : Support IntegerFormat
  octIntSupport : Support IntegerFormat
  binIntSupport : Support IntegerFormat
  negativeRealSupport : Forced DelayedFormat
  decRealSupport : Support RealFormat
  hexRealSupport : Support RealFormat
  fracRealSupport : FracSupport

/-- `check_support`, where no formatter stands for the default one. -/
def checkSupport {α β : Type} (support : Support α) (doIt : Option α → β) (tryNext : β) : β :=
  match support with
  | .unsupported => tryNext
  | .default => doIt none
  | .custom f => doIt (some f)

def forceSupport {α β : Type} (support : Forced α) (doIt : Option α → β) : β :=
  match support with
  | .default => doIt none
  | .custom f => doIt (some f)

/-! ## Calls of formatters -/

inductive PrintError
  | assertFailure
  /-- `BigInt.to_int` of an integer that is too large. -/
  | failure
deriving DecidableEq

inductive Radix
  | dec | hex | oct | bin
deriving DecidableEq

namespace Radix

def base : Radix → ℕ
  | dec => 10
  | hex => 16
  | oct => 8
  | bin => 2

/-- What the default notation writes before the digits. -/
def mark : Radix → List Char
  | dec => []
  | hex => ['0', 'x']
  | oct => ['0', 'o']
  | bin => ['0', 'b']

end Radix

inductive IntCall
  | long (f : DefaultFormat) (s : List Char)
  | default (r : Radix) (s : List Char)
  | custom (r : Radix) (f : IntegerFormat) (i : ℤ)
  | last (f : DefaultFormat) (s : List Char)

/-- No formatter stands for the default one. -/
inductive RealCall
  | hex (f : Option RealFormat) (int frac : List Char) (exp : Option (List Char))
  | dec (f : Option RealFormat) (int frac : List Char) (exp : Option (List Char))
  | frac (f : FracRealFormat) (num : List Char) (den : Option (List Char))
  | last (f : DefaultFormat) (s : List Char)

/-- A negative number is printed by the wrapper of the record around its absolute value. -/
inductive Wrapped (α : Type)
  | plain (c : α)
  | negative (f : Option DelayedFormat) (c : α)

namespace IntCall

def text : IntCall → List Char
  | long f s => f s
  | default _ s => s
  | custom _ f i => f i
  | last f s => f s

end IntCall

namespace RealCall

def text : RealCall → List Char
  | hex (some f) i fr e => f i fr e
  | hex none i fr e => ['0', 'x'] ++ i ++ ['.'] ++ fr ++ ['p'] ++ e.getD ['0']
  | dec (some f) i fr e => f i fr e
  | dec none i fr none => i ++ ['.'] ++ fr
  | dec none i fr (some e) => i ++ ['.'] ++ fr ++ ['e'] ++ e
  | frac f num none => f.noDen num
  | frac f num (some den) => f.withDen num den
  | last f s => f s

end RealCall

namespace Wrapped

variable {α : Type}

def call : Wrapped α → α
  | plain c => c
  | negative _ c => c

def text (t : α → List Char) : Wrapped α → List Char
  | plain c => t c
  | negative (some f) c => f (t c)
  | negative none c => ['(', '-', ' '] ++ t c ++ [')']

end Wrapped

/-! ## Integers -/

def charOfInt (i : ℕ) : Char :=
  if i < 10 then Char.ofNat (i + '0'.toNat) else Char.ofNat (i + 'A'.toNat - 10)

/-- The conversions `%0*o`, `%0*i` and `%0*X`, for an integer that is not negative. -/
def printfDigits (radix : ℕ) (digits : ℕ) (i : ℕ) : List Char :=
  let s := (Nat.toDigits radix i).map Char.toUpper
  replicate (digits - s.length) '0' ++ s

/-- The loop of `print_in_base`, for a radix from two on. -/
def printDigits (radix : ℕ) (digits : ℤ) (i : ℕ) : List Char :=
  if i = 0 ∨ radix < 2 then replicate digits.toNat '0'
  else printDigits radix (digits - 1) (i / radix) ++ [charOfInt (i % radix)]
termination_by i
decreasing_by exact Nat.div_lt_self (by omega) (by omega)

def printInBase (radix : ℕ) (digits : Option ℕ) (i : ℤ) : Except PrintError (List Char) :=
  if 0 ≤ i then
    let digits := digits.getD 1
    if isInt i ∧ radix = 8 then .ok (printfDigits 8 digits i.toNat)
    else if isInt i ∧ radix = 10 then .ok (printfDigits 10 digits i.toNat)
    else if isInt i ∧ radix = 16 then .ok (printfDigits 16 digits i.toNat)
    else .ok (printDigits radix digits i.toNat)
  else .error .assertFailure

def simplifyMaxInt : ℤ := 2147483646

def printDecInt (support : NumberSupport) (i : ℤ) : Except PrintError IntCall :=
  let short : Except PrintError IntCall :=
    match support.decIntSupport with
    | .default => .ok (.default .dec (BigInt.toString i))
    | .custom f => .ok (.custom .dec f i)
    | .unsupported f => .ok (.last f (BigInt.toString i))
  match support.longIntSupport with
  | .custom f => if simplifyMaxInt < i then .ok (.long f (BigInt.toString i)) else short
  | .default => short

/-- The default notation of a radix other than ten. -/
def defaultInt (support : NumberSupport) (r : Radix) (i : ℤ) : Except PrintError IntCall :=
  match support.longIntSupport with
  | .custom _ => .error .assertFailure
  | .default => do
    let s ← printInBase r.base none i
    .ok (.default r (r.mark ++ s))

/-- What the record says for a radix; the formatter of an unsupported decimal notation is
that of the last resort. -/
def NumberSupport.entry (support : NumberSupport) : Radix → Support IntegerFormat
  | .dec =>
    match support.decIntSupport with
    | .default => .default
    | .custom f => .custom f
    | .unsupported _ => .unsupported
  | .hex => support.hexIntSupport
  | .oct => support.octIntSupport
  | .bin => support.binIntSupport

/-- The printer of the radix `r`, which consults the entry of `asked`. -/
def printRadixInt (support : NumberSupport) (asked r : Radix)
    (tryNext : ℤ → Except PrintError IntCall) (i : ℤ) : Except PrintError IntCall :=
  checkSupport (support.entry asked)
    (fun
      | some f => .ok (.custom asked f i)
      | none => defaultInt support r i)
    (tryNext i)

def printHexInt (support : NumberSupport) : ℤ → Except PrintError IntCall :=
  printRadixInt support .hex .hex (printDecInt support)

def printOctInt (support : NumberSupport) : ℤ → Except PrintError IntCall :=
  printRadixInt support .oct .oct (printHexInt support)

-- the entry that is consulted is the octal one
def printBinInt (support : NumberSupport) : ℤ → Except PrintError IntCall :=
  printRadixInt support .oct .bin (printHexInt support)

def printIntLiteral (support : NumberSupport) (k : IntLiteralKind) (i : ℤ) :
    Except PrintError (Wrapped IntCall) :=
  let p :=
    match k with
    | .iLitUnk => printDecInt support
    | .iLitBin => printBinInt support
    | .iLitOct => printOctInt support
    | .iLitDec => printDecInt support
    | .iLitHex => printHexInt support
  if i < 0 then
    forceSupport support.negativeIntSupport fun f => do
      let c ← p |i|
      .ok (.negative f c)
  else do
    let c ← p i
    .ok (.plain c)

def printIntConstant (support : NumberSupport) (c : IntConstant) :
    Except PrintError (Wrapped IntCall) :=
  printIntLiteral support c.ilKind c.ilInt

/-! ## Reals -/

/-- `BigInt.to_int`. -/
def toInt (i : ℤ) : Except PrintError ℤ :=
  if isInt i then .ok i else .error .failure

/-- Numerator and denominator. -/
def fraction (r : RealValue) : ℤ × ℤ :=
  let fact := powIntPosBigint 2 |r.rvPow2|
  let (num, den) := if r.rvPow2 < 0 then (r.rvSig, fact) else (r.rvSig * fact, 1)
  let fact := powIntPosBigint 5 |r.rvPow5|
  if r.rvPow5 < 0 then (num, den * fact) else (num * fact, den)

def printFracReal (support : NumberSupport) (r : RealValue) : Except PrintError RealCall :=
  let (num, den) := fraction r
  match support.fracRealSupport with
  | .custom f =>
    if den = 1 then .ok (.frac f (BigInt.toString num) none)
    else .ok (.frac f (BigInt.toString num) (some (BigInt.toString den)))
  | .unsupported k => .ok (.last k (BigInt.toString num ++ '_' :: BigInt.toString den))

/-- The digits of the significand before and after the point, for `p` digits after it;
no fraction is written as zero. -/
def splitDigits (p : ℕ) (i : List Char) : List Char × List Char :=
  let n := i.length
  let (i, n) := if n ≤ p then (replicate (p + 1 - n) '0' ++ i, p + 1) else (i, n)
  let (i, f) := (i.take (n - p), (i.drop (n - p)).take p)
  (i, if f = [] then ['0'] else f)

def exponentText (k : ℤ) : Option (List Char) :=
  if k = 0 then none else some (BigInt.toString k)

/-- The function `do_it` of `print_dec_real`. -/
def decDoIt (k : ℤ) (r : RealValue) (custom : Option RealFormat) : Except PrintError RealCall := do
  let e := min (min r.rvPow2 r.rvPow5) k
  let i := r.rvSig * powIntPosBigint 2 (r.rvPow2 - e)
  let i := i * powIntPosBigint 5 (r.rvPow5 - e)
  let p ← toInt (k - e)
  let (i, f) := splitDigits p.toNat (BigInt.toString i)
  .ok (.dec custom i f (exponentText k))

def printDecReal (support : NumberSupport) (k : ℤ) (r : RealValue) : Except PrintError RealCall :=
  checkSupport support.decRealSupport (decDoIt k r) (printFracReal support r)

/-- The exponent of the last digit: it differs from `k` by a multiple of four. -/
def hexExponent (k p2 : ℤ) : ℤ := if p2 < k then p2 - (p2 - k) % 4 else k

/-- The function `do_it` of `print_hex_real`. -/
def hexDoIt (k : ℤ) (r : RealValue) (custom : Option RealFormat) : Except PrintError RealCall := do
  let e := hexExponent k r.rvPow2
  if r.rvPow5 < 0 then .error .assertFailure
  else do
    let i := r.rvSig * powIntPosBigint 2 (r.rvPow2 - e)
    let i := i * powIntPosBigint 5 r.rvPow5
    let i ← printInBase 16 none i
    let p ← toInt (k - e)
    if p % 4 ≠ 0 then .error .assertFailure
    else
      let (i, f) := splitDigits (p / 4).toNat i
      .ok (.hex custom i f (exponentText k))

def printHexReal (support : NumberSupport) (k : ℤ) (r : RealValue) : Except PrintError RealCall :=
  checkSupport support.hexRealSupport (hexDoIt k r)
    (printDecReal support (min r.rvPow2 r.rvPow5) r)

/-- The printer of a real constant that is not negative. -/
def printRealUnsigned (support : NumberSupport) (c : RealConstant) : Except PrintError RealCall :=
  let r := c.rlReal
  match c.rlKind with
  | .rLitDec e => printDecReal support e r
  | .rLitHex e => printHexReal support e r
  | .rLitUnk =>
    let e := min r.rvPow2 r.rvPow5
    -- a decimal exponent between 0 and 2 is not used
    printDecReal support (if isInt e ∧ 0 ≤ e ∧ e ≤ 2 then 0 else e) r

def printRealConstant (support : NumberSupport) (c : RealConstant) :
    Except PrintError (Wrapped RealCall) :=
  if c.rlReal.rvSig < 0 then
    let c := { c with rlReal := { c.rlReal with rvSig := -c.rlReal.rvSig } }
    forceSupport support.negativeRealSupport fun f => do
      let p ← printRealUnsigned support c
      .ok (.negative f p)
  else do
    let p ← printRealUnsigned support c
    .ok (.plain p)

/-! ## Digits -/

/-- Digits of the radix, at least one of them, that denote `n`. -/
def Digits (radix : ℕ) (s : List Char) (n : ℤ) : Prop :=
  s ≠ [] ∧ (∀ c ∈ s, ∃ v < radix, digitValue c = some v) ∧ digitsValue radix s = n

section Digits

variable {radix n : ℕ} {s : List Char} {c : Char} {f : Char → Char}

theorem digitsValue_concat (s : List Char) (c : Char) :
    digitsValue radix (s ++ [c]) = digitsValue radix s * radix + (digitValue c).getD 0 := by
  rw [digitsValue_append]
  simp [digitsValue]

theorem digitsValue_zeros (k : ℕ) : digitsValue radix (replicate k '0') = 0 := by
  induction k with
  | zero => rfl
  | succ k ih =>
    rw [replicate_succ', digitsValue_concat, ih, zero_mul, zero_add]
    rfl

theorem Digits.zeros_append {n : ℤ} (h : Digits radix s n) (hr : 0 < radix) (k : ℕ) :
    Digits radix (replicate k '0' ++ s) n := by
  obtain ⟨hne, hall, hn⟩ := h
  refine ⟨by simp [hne], fun c hc => ?_, ?_⟩
  · rcases mem_append.mp hc with hc | hc
    · rw [eq_of_mem_replicate hc]
      exact ⟨0, hr, rfl⟩
    · exact hall c hc
  · rw [digitsValue_append, digitsValue_zeros, zero_mul, zero_add, hn]

theorem Digits.concat {m : ℤ} {v : ℕ} (h : Digits radix s m) (hv : v < radix)
    (hc : digitValue c = some v) : Digits radix (s ++ [c]) (m * radix + v) := by
  obtain ⟨-, hall, hm⟩ := h
  refine ⟨by simp, fun d hd => ?_, ?_⟩
  · rcases mem_append.mp hd with hd | hd
    · exact hall d hd
    · obtain rfl := mem_singleton.mp hd
      exact ⟨v, hv, hc⟩
  · rw [digitsValue_concat, hc, Option.getD_some, ← hm]
    push_cast
    rfl

theorem digits_singleton {v : ℕ} (hv : v < radix) (hc : digitValue c = some v) :
    Digits radix [c] v := by
  refine ⟨by simp, fun d hd => ?_, ?_⟩
  · obtain rfl := mem_singleton.mp hd
    exact ⟨v, hv, hc⟩
  · simp [digitsValue, hc]

theorem digits_toDigits (hr : 1 < radix)
    (hf : ∀ v < radix, digitValue (f v.digitChar) = some v) (n : ℕ) :
    Digits radix ((Nat.toDigits radix n).map f) n := by
  induction n using Nat.strong_induction_on with
  | _ n ih =>
    rw [Nat.toDigits_eq_if hr]
    split_ifs with hlt
    · exact digits_singleton hlt (hf n hlt)
    · have hmod := Nat.mod_lt n (by omega : 0 < radix)
      have hrec := (ih _ (Nat.div_lt_self (by omega) hr)).concat hmod (hf _ hmod)
      have heq : ((n / radix : ℕ) : ℤ) * radix + (n % radix : ℕ) = n := by
        exact_mod_cast Nat.div_add_mod' n radix
      rw [map_append, ← heq]
      exact hrec

theorem digits_printDigits (hr : 1 < radix) (hle : radix ≤ 16) (n : ℕ) :
    ∀ digits : ℤ, n ≠ 0 ∨ 0 < digits → Digits radix (printDigits radix digits n) n := by
  have hchar : ∀ v < 16, digitValue (charOfInt v) = some v := by decide
  induction n using Nat.strong_induction_on with
  | _ n ih =>
    intro digits hpos
    rw [printDigits]
    split_ifs with h
    · obtain rfl : n = 0 := by omega
      obtain ⟨k, hk⟩ : ∃ k, digits.toNat = k + 1 := ⟨digits.toNat - 1, by omega⟩
      rw [hk, replicate_succ']
      exact (digits_singleton (by omega) rfl).zeros_append (by omega) k
    · have hn : n ≠ 0 := fun h0 => h (.inl h0)
      have hmod := Nat.mod_lt n (by omega : 0 < radix)
      have heq : ((n / radix : ℕ) : ℤ) * radix + (n % radix : ℕ) = n := by
        exact_mod_cast Nat.div_add_mod' n radix
      rw [← heq]
      by_cases hdiv : n / radix = 0
      · -- the first digit, after the zeros that are left of the width
        rw [hdiv, printDigits, if_pos (.inl rfl), Nat.cast_zero, zero_mul, zero_add]
        exact (digits_singleton hmod (hchar _ (by omega))).zeros_append (by omega) _
      · exact (ih _ (Nat.div_lt_self (by omega) hr) (digits - 1) (.inl hdiv)).concat hmod
          (hchar _ (by omega))

theorem digits_printfDigits (hr : 1 < radix) (hle : radix ≤ 16) (digits n : ℕ) :
    Digits radix (printfDigits radix digits n) n := by
  have hchar : ∀ v < 16, digitValue v.digitChar.toUpper = some v := by decide
  exact (digits_toDigits hr (fun v hv => hchar v (by omega)) n).zeros_append (by omega) _

theorem printInBase_digits (hr : 1 < radix) (hle : radix ≤ 16) {i : ℤ} (hi : 0 ≤ i)
    {digits : Option ℕ} (hd : i ≠ 0 ∨ digits ≠ some 0) :
    ∃ s, printInBase radix digits i = .ok s ∧ Digits radix s i := by
  have hcast : ((i.toNat : ℕ) : ℤ) = i := Int.toNat_of_nonneg hi
  have hd' : i.toNat ≠ 0 ∨ (0 : ℤ) < digits.getD 1 := by
    rcases digits with - | - | d <;> simp_all
    omega
  have hprintf := digits_printfDigits hr hle (digits.getD 1) i.toNat
  have hloop := digits_printDigits hr hle i.toNat (digits.getD 1) hd'
  rw [hcast] at hprintf hloop
  rw [printInBase, if_pos hi]
  dsimp only
  split_ifs with h8 h10 h16
  · obtain ⟨-, rfl⟩ := h8
    exact ⟨_, rfl, hprintf⟩
  · obtain ⟨-, rfl⟩ := h10
    exact ⟨_, rfl, hprintf⟩
  · obtain ⟨-, rfl⟩ := h16
    exact ⟨_, rfl, hprintf⟩
  · exact ⟨_, rfl, hloop⟩

theorem printInBase_spec (hr : 1 < radix) (hle : radix ≤ 16) {i : ℤ} (hi : 0 ≤ i) :
    ∃ s, printInBase radix none i = .ok s ∧ Digits radix s i :=
  printInBase_digits hr hle hi (.inr (by simp))

theorem parseInBase_of_digits {i : ℤ} (h : Digits radix s i) : parseInBase radix s = .ok i := by
  have hok : ∀ (t : List Char) (acc : ℤ), (∀ c ∈ t, ∃ v < radix, digitValue c = some v) →
      ∃ m, parseInBaseAux radix s acc t = .ok m := by
    intro t
    induction t with
    | nil => exact fun acc _ => ⟨acc, rfl⟩
    | cons c t ih =>
      intro acc ht
      obtain ⟨⟨v, hv, hc⟩, ht⟩ := forall_mem_cons.mp ht
      rw [parseInBaseAux, hc]
      dsimp only
      rw [if_neg (Nat.not_le.mpr hv)]
      exact ih _ ht
  obtain ⟨m, hm⟩ := hok s 0 h.2.1
  rw [parseInBase, hm, parseInBase_eq hm, h.2.2]

/-- What is printed in a base, padded or not, is read back in this base. -/
theorem parse_print_in_base (radix : ℕ) (hr : 1 < radix) (hle : radix ≤ 16) (digits : Option ℕ)
    (i : ℤ) (hi : 0 ≤ i) (hd : i ≠ 0 ∨ digits ≠ some 0) :
    ∃ t, printInBase radix digits i = .ok t ∧ parseInBase radix t = .ok i := by
  obtain ⟨t, ht, hdigits⟩ := printInBase_digits hr hle hi hd
  exact ⟨t, ht, parseInBase_of_digits hdigits⟩

theorem parse_print_in_base_two :
    ∃ t, printInBase 2 (some 4) 5 = .ok t ∧ parseInBase 2 t = .ok 5 :=
  parse_print_in_base 2 (by decide) (by decide) _ 5 (by decide) (.inl (by decide))

theorem digits_toString {i : ℤ} (hi : 0 ≤ i) : Digits 10 (BigInt.toString i) i := by
  have hdigits := @digits_toDigits 10 id (by norm_num) (by decide) i.natAbs
  rw [map_id] at hdigits
  rw [BigInt.toString, if_neg (by omega)]
  rwa [Int.natCast_natAbs, abs_of_nonneg hi] at hdigits

theorem expDenotes_exponentText (k : ℤ) : expDenotes (exponentText k) = k := by
  have hval : ∀ n : ℕ, Nat.ofDigitChars 10 (Nat.toDigits 10 n) 0 = n := fun n =>
    Nat.ofDigitChars_ten_toDigits
  rw [exponentText]
  split_ifs with hk
  · rw [hk]
    rfl
  rw [expDenotes, BigInt.toString]
  split_ifs with hneg hminus hminus
  · rw [tail_cons, hval]
    omega
  · simp at hminus
  · have hmem := mem_of_mem_head? hminus
    have := Nat.isDigit_of_mem_toDigits (by norm_num) le_rfl hmem
    cases this
  · rw [hval]
    omega

/-- The two texts are the digits of the quotient by the power of the radix. -/
theorem splitDigits_spec {m : ℤ} (hr : 0 < radix) (h : Digits radix s m) (p : ℕ) :
    (∃ a, Digits radix (splitDigits p s).1 a) ∧ (∃ b, Digits radix (splitDigits p s).2 b) ∧
      (digitsValue radix (splitDigits p s).1 : ℚ) +
        digitsValue radix (splitDigits p s).2 / radix ^ (splitDigits p s).2.length
          = m / radix ^ p := by
  have hpad : ∃ t, p < t.length ∧ Digits radix t m ∧
      splitDigits p s = (t.take (t.length - p), if (t.drop (t.length - p)).take p = [] then ['0']
        else (t.drop (t.length - p)).take p) := by
    by_cases hlen : s.length ≤ p
    · have hpadded : (replicate (p + 1 - s.length) '0' ++ s).length = p + 1 := by
        rw [length_append, length_replicate]
        omega
      refine ⟨replicate (p + 1 - s.length) '0' ++ s, by omega, h.zeros_append hr _, ?_⟩
      simp only [splitDigits, if_pos hlen, hpadded]
    · refine ⟨s, by omega, h, ?_⟩
      simp only [splitDigits, if_neg hlen]
  obtain ⟨t, hlt, ⟨-, hall, hm⟩, heq⟩ := hpad
  have htake : (t.drop (t.length - p)).take p = t.drop (t.length - p) :=
    take_of_length_le (by rw [length_drop]; omega)
  rw [htake] at heq
  have hlen : (t.drop (t.length - p)).length = p := by
    rw [length_drop]
    omega
  have hsplit := digitsValue_append radix (t.take (t.length - p)) (t.drop (t.length - p))
  rw [take_append_drop, hlen] at hsplit
  have hr0 : (radix : ℚ) ^ p ≠ 0 := by positivity
  have hfirst : t.take (t.length - p) ≠ [] := by
    intro hnil
    have := congrArg List.length hnil
    rw [length_take, length_nil] at this
    omega
  rw [heq]
  refine ⟨⟨_, hfirst, fun c hc => hall c (mem_of_mem_take hc), rfl⟩, ?_, ?_⟩
  · split_ifs with hnil
    · exact ⟨_, digits_singleton hr rfl⟩
    · exact ⟨_, hnil, fun c hc => hall c (mem_of_mem_drop hc), rfl⟩
  · rw [← hm, hsplit]
    split_ifs with hnil
    · have hp : p = 0 := by rw [← hlen, hnil]; rfl
      subst hp
      have hz : digitsValue radix ['0'] = 0 := digitsValue_zeros 1
      rw [hz, hnil]
      simp [digitsValue]
    · rw [hlen]
      push_cast
      field_simp

end Digits

/-! ## Calls the record allows -/

namespace IntCall

/-- A formatter is that of its entry, and the default notation of a radix is used only
when the record supports the radix. -/
def Respects (support : NumberSupport) : IntCall → Prop
  | long f _ => support.longIntSupport = .custom f
  | default r _ => support.entry r = .default ∨ ∃ f, support.entry r = .custom f
  | custom r f _ => support.entry r = .custom f
  | last f _ => support.decIntSupport = .unsupported f

def Denotes : IntCall → ℤ → Prop
  | long _ s, n => Digits 10 s n
  | default r s, n => ∃ d, s = r.mark ++ d ∧ Digits r.base d n
  | custom _ _ i, n => i = n
  | last _ s, n => Digits 10 s n

end IntCall

namespace RealCall

def Respects (support : NumberSupport) : RealCall → Prop
  | hex none _ _ _ => support.hexRealSupport = .default
  | hex (some f) _ _ _ => support.hexRealSupport = .custom f
  | dec none _ _ _ => support.decRealSupport = .default
  | dec (some f) _ _ _ => support.decRealSupport = .custom f
  | frac f _ _ => support.fracRealSupport = .custom f
  | last f _ => support.fracRealSupport = .unsupported f

def Denotes : RealCall → ℚ → Prop
  | hex _ i f e, q => (∃ a, Digits 16 i a) ∧ (∃ b, Digits 16 f b) ∧
      literalDenotes 16 false i f e = q
  | dec _ i f e, q => (∃ a, Digits 10 i a) ∧ (∃ b, Digits 10 f b) ∧
      literalDenotes 10 false i f e = q
  | frac _ num none, q => ∃ n, Digits 10 num n ∧ (n : ℚ) = q
  | frac _ num (some den), q => ∃ n d, Digits 10 num n ∧ Digits 10 den d ∧ 0 < d ∧ (n / d : ℚ) = q
  | last _ s, q => ∃ num den n d, s = num ++ '_' :: den ∧ Digits 10 num n ∧ Digits 10 den d ∧
      0 < d ∧ (n / d : ℚ) = q

end RealCall

namespace Wrapped

def Denotes {α K : Type} [AddGroup K] (D : α → K → Prop) : Wrapped α → K → Prop
  | plain c, n => D c n
  | negative _ c, n => D c (-n)

end Wrapped

variable {support : NumberSupport}

/-- A call that the record allows, and whose arguments denote `i`. -/
def GoodInt (support : NumberSupport) (i : ℤ) (x : Except PrintError IntCall) : Prop :=
  ∃ c, x = .ok c ∧ c.Respects support ∧ c.Denotes i

section Integers

variable {i : ℤ}

theorem good_printDecInt (hlong : support.longIntSupport = .default) (hi : 0 ≤ i) :
    GoodInt support i (printDecInt support i) := by
  have hdigits := digits_toString hi
  rw [printDecInt, hlong]
  cases hdec : support.decIntSupport with
  | default =>
    refine ⟨_, rfl, .inl ?_, ⟨_, rfl, hdigits⟩⟩
    rw [NumberSupport.entry, hdec]
  | custom f =>
    refine ⟨_, rfl, ?_, rfl⟩
    rw [IntCall.Respects, NumberSupport.entry, hdec]
  | unsupported f => exact ⟨_, rfl, hdec, hdigits⟩

theorem defaultInt_spec (hlong : support.longIntSupport = .default) (r : Radix) (hi : 0 ≤ i) :
    ∃ d, defaultInt support r i = .ok (.default r (r.mark ++ d)) ∧ Digits r.base d i := by
  have hbase : 1 < r.base ∧ r.base ≤ 16 := by cases r <;> decide
  obtain ⟨d, hd, hdigits⟩ := printInBase_spec hbase.1 hbase.2 hi
  refine ⟨d, ?_, hdigits⟩
  rw [defaultInt, hlong]
  exact Checks.bind_eq_ok.mpr ⟨d, hd, rfl⟩

/-- The radix that is written when the entry that is consulted is the default one has to
be supported. -/
theorem good_printRadixInt (hlong : support.longIntSupport = .default) (hi : 0 ≤ i)
    {asked r : Radix} {tryNext : ℤ → Except PrintError IntCall}
    (hr : support.entry asked = .default → support.entry r ≠ .unsupported)
    (hnext : GoodInt support i (tryNext i)) :
    GoodInt support i (printRadixInt support asked r tryNext i) := by
  rw [printRadixInt]
  cases hasked : support.entry asked with
  | unsupported => exact hnext
  | custom f => exact ⟨_, rfl, hasked, rfl⟩
  | default =>
    obtain ⟨d, hd, hdigits⟩ := defaultInt_spec hlong r hi
    refine ⟨_, hd, ?_, ⟨d, rfl, hdigits⟩⟩
    cases hentry : support.entry r with
    | default => exact .inl hentry
    | custom f => exact .inr ⟨f, hentry⟩
    | unsupported => exact absurd hentry (hr hasked)

theorem good_printHexInt (hlong : support.longIntSupport = .default) (hi : 0 ≤ i) :
    GoodInt support i (printHexInt support i) :=
  good_printRadixInt hlong hi (fun h => by rw [h]; nofun) (good_printDecInt hlong hi)

theorem good_printOctInt (hlong : support.longIntSupport = .default) (hi : 0 ≤ i) :
    GoodInt support i (printOctInt support i) :=
  good_printRadixInt hlong hi (fun h => by rw [h]; nofun) (good_printHexInt hlong hi)

/-- The defect of `print_bin_int`: the octal entry decides on the binary notation. -/
theorem good_printBinInt (hlong : support.longIntSupport = .default) (hi : 0 ≤ i) :
    GoodInt support i (printBinInt support i) ↔
      ¬ (support.octIntSupport = .default ∧ support.binIntSupport = .unsupported) := by
  constructor
  · rintro ⟨c, hc, hrespects, -⟩ ⟨hoct, hbin⟩
    obtain ⟨d, hd, -⟩ := defaultInt_spec hlong .bin hi
    have hrun : printBinInt support i = defaultInt support .bin i := by
      have hasked : support.entry .oct = .default := hoct
      rw [printBinInt, printRadixInt, hasked]
      rfl
    rw [hrun, hd] at hc
    cases hc
    have hentry : support.entry .bin = .unsupported := hbin
    rcases hrespects with h | ⟨f, h⟩
    · rw [hentry] at h
      cases h
    · rw [hentry] at h
      cases h
  · intro h
    exact good_printRadixInt hlong hi (fun hoct hbin => h ⟨hoct, hbin⟩) (good_printHexInt hlong hi)

/-- The wrapper keeps what the printer of the absolute value does. -/
theorem wrapped_iff (neg : Forced DelayedFormat) (p : ℤ → Except PrintError IntCall) :
    (∃ w, (if i < 0 then forceSupport neg fun f => do
      let c ← p |i|
      Except.ok (Wrapped.negative f c)
      else do
        let c ← p i
        .ok (.plain c)) = .ok w ∧ w.call.Respects support ∧ w.Denotes IntCall.Denotes i) ↔
      GoodInt support |i| (p |i|) := by
  split_ifs with hi
  · have habs : -i = |i| := (abs_of_neg hi).symm
    constructor
    · rintro ⟨w, hw, hrespects, hdenotes⟩
      obtain ⟨f, hf⟩ : ∃ f, (do let c ← p |i|; Except.ok (Wrapped.negative f c)) = .ok w := by
        cases neg with
        | default => exact ⟨none, hw⟩
        | custom f => exact ⟨some f, hw⟩
      obtain ⟨c, hc, hw'⟩ := Checks.bind_eq_ok.mp hf
      cases hw'
      exact ⟨c, hc, hrespects, habs ▸ hdenotes⟩
    · rintro ⟨c, hc, hrespects, hdenotes⟩
      rw [← habs] at hdenotes
      cases neg with
      | default =>
        exact ⟨.negative none c, Checks.bind_eq_ok.mpr ⟨c, hc, rfl⟩, hrespects, hdenotes⟩
      | custom f =>
        exact ⟨.negative (some f) c, Checks.bind_eq_ok.mpr ⟨c, hc, rfl⟩, hrespects, hdenotes⟩
  · rw [abs_of_nonneg (not_lt.mp hi)]
    constructor
    · rintro ⟨w, hw, hrespects, hdenotes⟩
      obtain ⟨c, hc, hw'⟩ := Checks.bind_eq_ok.mp hw
      cases hw'
      exact ⟨c, hc, hrespects, hdenotes⟩
    · rintro ⟨c, hc, hrespects, hdenotes⟩
      exact ⟨.plain c, Checks.bind_eq_ok.mpr ⟨c, hc, rfl⟩, hrespects, hdenotes⟩

/-- An integer constant is printed as the record says, except that a binary one is written
in binary where the record supports only the octal notation. -/
theorem printIntConstant_iff (hlong : support.longIntSupport = .default) (c : IntConstant) :
    (∃ w, printIntConstant support c = .ok w ∧ w.call.Respects support ∧
        w.Denotes IntCall.Denotes c.ilInt) ↔
      ¬ (c.ilKind = .iLitBin ∧ support.octIntSupport = .default ∧
        support.binIntSupport = .unsupported) := by
  have hi := abs_nonneg c.ilInt
  unfold printIntConstant printIntLiteral
  refine (wrapped_iff _ _).trans ?_
  cases hk : c.ilKind with
  | iLitUnk | iLitDec => exact iff_of_true (good_printDecInt hlong hi) (by simp)
  | iLitHex => exact iff_of_true (good_printHexInt hlong hi) (by simp)
  | iLitOct => exact iff_of_true (good_printOctInt hlong hi) (by simp)
  | iLitBin =>
    refine (good_printBinInt hlong hi).trans ?_
    simp

end Integers

section Reals

variable {r : RealValue} {k : ℤ}

theorem zpow_toNat {b : ℚ} {e : ℤ} (he : 0 ≤ e) : b ^ e.toNat = b ^ e := by
  rw [← zpow_natCast, Int.toNat_of_nonneg he]

theorem fraction_spec (hsig : 0 ≤ r.rvSig) :
    0 ≤ (fraction r).1 ∧ 0 < (fraction r).2 ∧
      ((fraction r).1 / (fraction r).2 : ℚ) = r.toField ℚ := by
  have hneg : ∀ (b : ℚ) {p : ℤ}, p < 0 → b ^ |p|.toNat = (b ^ p)⁻¹ := by
    intro b p hp
    rw [zpow_toNat (abs_nonneg p), abs_of_neg hp, zpow_neg]
  have hpos : ∀ (b : ℚ) {p : ℤ}, ¬ p < 0 → b ^ |p|.toNat = b ^ p := by
    intro b p hp
    rw [zpow_toNat (abs_nonneg p), abs_of_nonneg (not_lt.mp hp)]
  rw [fraction, toField]
  dsimp only [powIntPosBigint]
  split_ifs with h5 h2 h2
  · refine ⟨hsig, by positivity, ?_⟩
    push_cast
    rw [hneg 2 h2, hneg 5 h5]
    field_simp
  · refine ⟨by positivity, by positivity, ?_⟩
    push_cast
    rw [hpos 2 h2, hneg 5 h5]
    field_simp
  · refine ⟨by positivity, by positivity, ?_⟩
    push_cast
    rw [hneg 2 h2, hpos 5 h5]
    field_simp
  · refine ⟨by positivity, by positivity, ?_⟩
    push_cast
    rw [hpos 2 h2, hpos 5 h5]
    ring

theorem printFracReal_spec (support : NumberSupport) (hsig : 0 ≤ r.rvSig) :
    ∃ c, printFracReal support r = .ok c ∧ c.Respects support ∧ c.Denotes (r.toField ℚ) := by
  obtain ⟨hnum, hden, hval⟩ := fraction_spec hsig
  have hn := digits_toString hnum
  have hd := digits_toString hden.le
  rw [printFracReal]
  dsimp only
  cases hfrac : support.fracRealSupport with
  | unsupported f =>
    exact ⟨_, rfl, hfrac, _, _, _, _, rfl, hn, hd, hden, hval⟩
  | custom f =>
    dsimp only
    split_ifs with hone
    · refine ⟨_, rfl, hfrac, _, hn, ?_⟩
      rw [← hval, hone, Int.cast_one, div_one]
    · exact ⟨_, rfl, hfrac, _, _, hn, hd, hden, hval⟩

theorem literalDenotes_splitDigits {radix : ℕ} (hr : 0 < radix) {s : List Char} {m : ℤ}
    (h : Digits radix s m) (p : ℕ) :
    literalDenotes radix false (splitDigits p s).1 (splitDigits p s).2 (exponentText k)
      = m / radix ^ p * (if radix = 10 then 10 else 2) ^ k := by
  obtain ⟨-, -, heq⟩ := splitDigits_spec hr h p
  rw [literalDenotes, if_neg (by decide), one_mul, heq, expDenotes_exponentText]

theorem decDoIt_spec (hsig : 0 ≤ r.rvSig) (custom : Option RealFormat) :
    ((∃ c, decDoIt k r custom = .ok c) ↔ isInt (k - min (min r.rvPow2 r.rvPow5) k)) ∧
    ∀ c, decDoIt k r custom = .ok c → ∃ i f e, c = .dec custom i f e ∧
      RealCall.Denotes (.dec custom i f e) (r.toField ℚ) := by
  rw [decDoIt, toInt]
  dsimp only
  generalize he : min (min r.rvPow2 r.rvPow5) k = e
  have h2 : 0 ≤ r.rvPow2 - e := by omega
  have h5 : 0 ≤ r.rvPow5 - e := by omega
  have hk : 0 ≤ k - e := by omega
  have hdigits := digits_toString (i := r.rvSig * powIntPosBigint 2 (r.rvPow2 - e) *
    powIntPosBigint 5 (r.rvPow5 - e)) (by unfold powIntPosBigint; positivity)
  by_cases hint : isInt (k - e)
  · rw [if_pos hint]
    refine ⟨iff_of_true ⟨_, rfl⟩ hint, fun c hc => ?_⟩
    cases hc
    obtain ⟨ha, hb, -⟩ := splitDigits_spec (by norm_num) hdigits (k - e).toNat
    refine ⟨_, _, _, rfl, ha, hb, ?_⟩
    rw [literalDenotes_splitDigits (by norm_num) hdigits, if_pos rfl, toField]
    have hten : (10 : ℚ) ^ k = 10 ^ (k - e) * (2 ^ e * 5 ^ e) := by
      have h10 : (2 : ℚ) * 5 = 10 := by norm_num
      rw [← mul_zpow, h10, ← zpow_add₀ (by norm_num), sub_add_cancel]
    have hpow2 : (2 : ℚ) ^ r.rvPow2 = 2 ^ (r.rvPow2 - e) * 2 ^ e := by
      rw [← zpow_add₀ (by norm_num), sub_add_cancel]
    have hpow5 : (5 : ℚ) ^ r.rvPow5 = 5 ^ (r.rvPow5 - e) * 5 ^ e := by
      rw [← zpow_add₀ (by norm_num), sub_add_cancel]
    have hne : (10 : ℚ) ^ (k - e) ≠ 0 := by positivity
    unfold powIntPosBigint
    push_cast
    rw [zpow_toNat h2, zpow_toNat h5, zpow_toNat hk, hten, hpow2, hpow5]
    field_simp
  · rw [if_neg hint]
    refine ⟨iff_of_false (by rintro ⟨_, ⟨⟩⟩) hint, fun c hc => by cases hc⟩

theorem hexExponent_spec (k p2 : ℤ) :
    hexExponent k p2 ≤ p2 ∧ hexExponent k p2 ≤ k ∧ (k - hexExponent k p2) % 4 = 0 := by
  rw [hexExponent]
  split_ifs with h
  · omega
  · omega

theorem hexDoIt_spec (hsig : 0 ≤ r.rvSig) (custom : Option RealFormat) :
    ((∃ c, hexDoIt k r custom = .ok c) ↔
      0 ≤ r.rvPow5 ∧ isInt (k - hexExponent k r.rvPow2)) ∧
    ∀ c, hexDoIt k r custom = .ok c → ∃ i f e, c = .hex custom i f e ∧
      RealCall.Denotes (.hex custom i f e) (r.toField ℚ) := by
  obtain ⟨he2, hek, hmod⟩ := hexExponent_spec k r.rvPow2
  rw [hexDoIt, toInt]
  dsimp only
  generalize hexExponent k r.rvPow2 = e at he2 hek hmod ⊢
  by_cases hp5 : r.rvPow5 < 0
  · rw [if_pos hp5]
    refine ⟨iff_of_false (by rintro ⟨_, ⟨⟩⟩) (fun h => by omega), fun c hc => by cases hc⟩
  rw [if_neg hp5]
  obtain ⟨s, hs, hdigits⟩ := @printInBase_spec 16 (by norm_num) le_rfl
    (r.rvSig * powIntPosBigint 2 (r.rvPow2 - e) * powIntPosBigint 5 r.rvPow5)
    (by unfold powIntPosBigint; positivity)
  by_cases hint : isInt (k - e)
  · rw [if_pos hint]
    have hrun : (do
        let i ← printInBase 16 none
          (r.rvSig * powIntPosBigint 2 (r.rvPow2 - e) * powIntPosBigint 5 r.rvPow5)
        let p ← Except.ok (k - e)
        if p % 4 ≠ 0 then Except.error PrintError.assertFailure
        else Except.ok (RealCall.hex custom (splitDigits (p / 4).toNat i).1
          (splitDigits (p / 4).toNat i).2 (exponentText k))) =
        .ok (.hex custom (splitDigits ((k - e) / 4).toNat s).1
          (splitDigits ((k - e) / 4).toNat s).2 (exponentText k)) := by
      rw [hs]
      show (if (k - e) % 4 ≠ 0 then Except.error PrintError.assertFailure else _) = _
      rw [if_neg (by omega)]
    refine ⟨iff_of_true ⟨_, hrun⟩ ⟨not_lt.mp hp5, hint⟩, fun c hc => ?_⟩
    cases hrun.symm.trans hc
    obtain ⟨ha, hb, -⟩ := splitDigits_spec (by norm_num) hdigits ((k - e) / 4).toNat
    refine ⟨_, _, _, rfl, ha, hb, ?_⟩
    rw [literalDenotes_splitDigits (by norm_num) hdigits, if_neg (by norm_num), toField]
    have hsixteen : (16 : ℚ) ^ ((k - e) / 4).toNat = 2 ^ (k - e) := by
      have h4 : k - e = 4 * ((k - e) / 4) := by omega
      rw [zpow_toNat (by omega)]
      conv_rhs => rw [h4, zpow_mul]
      norm_num
    have hk : (2 : ℚ) ^ k = 2 ^ (k - e) * 2 ^ e := by
      rw [← zpow_add₀ (by norm_num), sub_add_cancel]
    have hpow2 : (2 : ℚ) ^ r.rvPow2 = 2 ^ (r.rvPow2 - e) * 2 ^ e := by
      rw [← zpow_add₀ (by norm_num), sub_add_cancel]
    unfold powIntPosBigint
    push_cast
    rw [hsixteen, zpow_toNat (by omega), zpow_toNat (by omega), hk, hpow2]
    field_simp
  · rw [if_neg hint]
    refine ⟨iff_of_false ?_ (fun h => hint h.2), fun c hc => ?_⟩
    · rintro ⟨c, hc⟩
      rw [hs] at hc
      cases hc
    · rw [hs] at hc
      cases hc

theorem printDecReal_spec (support : NumberSupport) (k : ℤ) (hsig : 0 ≤ r.rvSig) :
    ((∃ c, printDecReal support k r = .ok c) ↔
      support.decRealSupport = .unsupported ∨ isInt (k - min (min r.rvPow2 r.rvPow5) k)) ∧
    ∀ c, printDecReal support k r = .ok c → c.Respects support ∧ c.Denotes (r.toField ℚ) := by
  rw [printDecReal]
  cases hdec : support.decRealSupport with
  | unsupported =>
    obtain ⟨c, hc, hrespects, hdenotes⟩ := printFracReal_spec support hsig
    refine ⟨iff_of_true ⟨c, hc⟩ (.inl rfl), fun c' hc' => ?_⟩
    cases hc.symm.trans hc'
    exact ⟨hrespects, hdenotes⟩
  | default | custom f =>
    refine ⟨(decDoIt_spec (k := k) hsig _).1.trans (by simp), fun c hc => ?_⟩
    obtain ⟨i, f, e, rfl, hdenotes⟩ := (decDoIt_spec (k := k) hsig _).2 c hc
    exact ⟨hdec, hdenotes⟩

theorem printHexReal_spec (support : NumberSupport) (k : ℤ) (hsig : 0 ≤ r.rvSig) :
    ((∃ c, printHexReal support k r = .ok c) ↔
      support.hexRealSupport = .unsupported ∨
        0 ≤ r.rvPow5 ∧ isInt (k - hexExponent k r.rvPow2)) ∧
    ∀ c, printHexReal support k r = .ok c → c.Respects support ∧ c.Denotes (r.toField ℚ) := by
  rw [printHexReal]
  cases hhex : support.hexRealSupport with
  | unsupported =>
    obtain ⟨hok, hcall⟩ := printDecReal_spec support (min r.rvPow2 r.rvPow5) hsig
    refine ⟨iff_of_true (hok.mpr (.inr ?_)) (.inl rfl), hcall⟩
    rw [min_self, sub_self]
    decide
  | default | custom f =>
    refine ⟨(hexDoIt_spec (k := k) hsig _).1.trans (by simp), fun c hc => ?_⟩
    obtain ⟨i, f, e, rfl, hdenotes⟩ := (hexDoIt_spec (k := k) hsig _).2 c hc
    exact ⟨hhex, hdenotes⟩

/-- The printer raises no exception: a hexadecimal constant has no negative power of five,
and the number of digits after the point is an integer of the machine. -/
def Printable (support : NumberSupport) (c : RealConstant) : Prop :=
  match c.rlKind with
  | .rLitUnk => True
  | .rLitDec k => support.decRealSupport = .unsupported ∨
      isInt (k - min (min c.rlReal.rvPow2 c.rlReal.rvPow5) k)
  | .rLitHex k => support.hexRealSupport = .unsupported ∨
      0 ≤ c.rlReal.rvPow5 ∧ isInt (k - hexExponent k c.rlReal.rvPow2)

theorem printRealUnsigned_spec (support : NumberSupport) {c : RealConstant}
    (hsig : 0 ≤ c.rlReal.rvSig) :
    ((∃ p, printRealUnsigned support c = .ok p) ↔ Printable support c) ∧
    ∀ p, printRealUnsigned support c = .ok p →
      p.Respects support ∧ p.Denotes (c.rlReal.toField ℚ) := by
  unfold printRealUnsigned Printable
  cases hk : c.rlKind with
  | rLitDec k => exact printDecReal_spec support k hsig
  | rLitHex k => exact printHexReal_spec support k hsig
  | rLitUnk =>
    dsimp only
    split_ifs with hsmall
    · obtain ⟨hok, hcall⟩ := printDecReal_spec support 0 hsig
      refine ⟨iff_of_true (hok.mpr (.inr ?_)) trivial, hcall⟩
      rw [min_eq_right hsmall.2.1]
      decide
    · obtain ⟨hok, hcall⟩ :=
        printDecReal_spec support (min c.rlReal.rvPow2 c.rlReal.rvPow5) hsig
      refine ⟨iff_of_true (hok.mpr (.inr ?_)) trivial, hcall⟩
      rw [min_self, sub_self]
      decide

theorem printRealConstant_spec (support : NumberSupport) (c : RealConstant) :
    ((∃ w, printRealConstant support c = .ok w) ↔ Printable support c) ∧
    ∀ w, printRealConstant support c = .ok w →
      w.call.Respects support ∧ w.Denotes RealCall.Denotes (c.rlReal.toField ℚ) := by
  rw [printRealConstant]
  split_ifs with hneg
  · obtain ⟨hok, hcall⟩ := printRealUnsigned_spec support
      (c := { c with rlReal := { c.rlReal with rvSig := -c.rlReal.rvSig } }) (by dsimp only; omega)
    have hval : toField ℚ { c.rlReal with rvSig := -c.rlReal.rvSig }
        = -c.rlReal.toField ℚ := by
      rw [toField, toField]
      push_cast
      ring
    rw [hval] at hcall
    have hwrap : ∀ f w, (do
        let p ← printRealUnsigned support
          { c with rlReal := { c.rlReal with rvSig := -c.rlReal.rvSig } }
        Except.ok (Wrapped.negative f p)) = .ok w ↔
        ∃ p, printRealUnsigned support
          { c with rlReal := { c.rlReal with rvSig := -c.rlReal.rvSig } } = .ok p ∧
          w = .negative f p := by
      intro f w
      refine Checks.bind_eq_ok.trans ?_
      simp [eq_comm]
    obtain ⟨f, hf⟩ : ∃ f, forceSupport support.negativeRealSupport (fun f => do
      let p ← printRealUnsigned support
        { c with rlReal := { c.rlReal with rvSig := -c.rlReal.rvSig } }
      Except.ok (Wrapped.negative f p)) = (do
      let p ← printRealUnsigned support
        { c with rlReal := { c.rlReal with rvSig := -c.rlReal.rvSig } }
      Except.ok (Wrapped.negative f p)) := by
      cases support.negativeRealSupport with
      | default => exact ⟨none, rfl⟩
      | custom f => exact ⟨some f, rfl⟩
    dsimp only
    rw [hf]
    refine ⟨?_, fun w hw => ?_⟩
    · refine Iff.trans ?_ hok
      constructor
      · rintro ⟨w, hw⟩
        obtain ⟨p, hp, -⟩ := (hwrap f w).mp hw
        exact ⟨p, hp⟩
      · rintro ⟨p, hp⟩
        exact ⟨.negative f p, (hwrap f _).mpr ⟨p, hp, rfl⟩⟩
    · obtain ⟨p, hp, rfl⟩ := (hwrap f w).mp hw
      exact hcall p hp
  · obtain ⟨hok, hcall⟩ := printRealUnsigned_spec support (not_lt.mp hneg)
    refine ⟨?_, fun w hw => ?_⟩
    · refine Iff.trans ?_ hok
      constructor
      · rintro ⟨w, hw⟩
        obtain ⟨p, hp, -⟩ := Checks.bind_eq_ok.mp hw
        exact ⟨p, hp⟩
      · rintro ⟨p, hp⟩
        exact ⟨.plain p, Checks.bind_eq_ok.mpr ⟨p, hp, rfl⟩⟩
    · obtain ⟨p, hp, hw⟩ := Checks.bind_eq_ok.mp hw
      cases hw
      exact hcall p hp

end Reals

/-! ## Printing constants -/

/-- The constants are printed by the formatters of the notations that the record supports,
with arguments that denote them, unless a binary integer is written in binary because the
octal notation is the default one.  A real constant is refused only where it is not
`Printable`. -/
theorem print_constants (hlong : support.longIntSupport = .default) (c : IntConstant)
    (r : RealConstant) :
    (((∃ w, printIntConstant support c = .ok w ∧ w.call.Respects support ∧
          w.Denotes IntCall.Denotes c.ilInt) ∧
        ∀ w, printRealConstant support r = .ok w → w.call.Respects support ∧
          w.Denotes RealCall.Denotes (r.rlReal.toField ℚ)) ↔
      ¬ (c.ilKind = .iLitBin ∧ support.octIntSupport = .default ∧
        support.binIntSupport = .unsupported)) ∧
    ((∃ w, printRealConstant support r = .ok w) ↔ Printable support r) := by
  obtain ⟨hok, hreal⟩ := printRealConstant_spec support r
  refine ⟨?_, hok⟩
  rw [and_iff_left hreal]
  exact printIntConstant_iff hlong c

/-- Every notation other than the binary one is written by default. -/
def plainSupport (bin : Support IntegerFormat) : NumberSupport where
  longIntSupport := .default
  negativeIntSupport := .default
  decIntSupport := .default
  hexIntSupport := .default
  octIntSupport := .default
  binIntSupport := bin
  negativeRealSupport := .default
  decRealSupport := .default
  hexRealSupport := .default
  fracRealSupport := .unsupported id

theorem print_constants_five :
    ∃ w, printIntConstant (plainSupport .default) ⟨.iLitBin, -5⟩ = .ok w ∧
      w.call.Respects (plainSupport .default) ∧ w.Denotes IntCall.Denotes (-5) :=
  ((@print_constants (plainSupport .default) rfl ⟨.iLitBin, -5⟩ ⟨.rLitUnk, ⟨0, 0, 0⟩⟩).1.mpr
    (fun h => by cases h.2.2)).1

/-- The record of a prover without the binary notation, and the constant `0b0`. -/
theorem not_print_constants :
    ∃ w, printIntConstant (plainSupport .unsupported) ⟨.iLitBin, 0⟩ = .ok w ∧
      w.text IntCall.text = ['0', 'b', '0'] ∧ ¬ w.call.Respects (plainSupport .unsupported) := by
  refine ⟨.plain (.default .bin ['0', 'b', '0']), ?_, rfl, ?_⟩
  · have hdigits : printInBase 2 none 0 = .ok ['0'] := by
      rw [printInBase, if_pos le_rfl]
      dsimp only
      rw [if_neg (by decide), if_neg (by decide), if_neg (by decide), printDigits, if_pos (by simp)]
      rfl
    show (defaultInt (plainSupport .unsupported) .bin 0 >>= _) = _
    rw [defaultInt]
    show ((printInBase 2 none 0 >>= _) >>= _) = _
    rw [hdigits]
    rfl
  · rintro (h | ⟨f, h⟩)
    · cases h
    · cases h

end Number

end Why3
