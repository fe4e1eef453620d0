import Why3.Core.Number
import Why3.Lib.Checks
import Why3.Lib.Compare
import Why3.Lib.MachineInt
import Mathlib.NumberTheory.Padics.PadicVal.Basic

/-!
# Real literals

The comparison of real values and the reader of real literals of
`util/number.ml`.  A real value is a rational; its normal form has no factor two
or five in the significand, so that equal values are equal records.
-/

namespace Why3.Number

open MachineInt List RealValue

variable {p radix : ℕ} {s : List Char}

/-! ## Comparison -/

/-- `compare_real`; `BigInt.compare` returns the sign of the difference. -/
def compareReal (structural : Bool) (r₁ r₂ : RealValue) : ℤ :=
  if structural then
    let c := Compare.cmpOf r₁.rvSig r₂.rvSig
    if c ≠ 0 then c
    else
      let c := Compare.cmpOf r₁.rvPow2 r₂.rvPow2
      if c ≠ 0 then c else Compare.cmpOf r₁.rvPow5 r₂.rvPow5
  else
    let p2min := min r₁.rvPow2 r₂.rvPow2
    let p5min := min r₁.rvPow5 r₂.rvPow5
    let v₁ := r₁.rvSig * (2 ^ (r₁.rvPow2 - p2min).toNat * 5 ^ (r₁.rvPow5 - p5min).toNat)
    let v₂ := r₂.rvSig * (2 ^ (r₂.rvPow2 - p2min).toNat * 5 ^ (r₂.rvPow5 - p5min).toNat)
    Compare.cmpOf v₁ v₂

theorem compareReal_structural :
    Compare.TotalOrder (fun _ => True) (· = ·) (compareReal true) := by
  have hsig := (Compare.totalOrder_cmpOf fun _ => True).comap (Q := fun _ => True)
    rvSig fun _ _ => trivial
  have hpow2 := (Compare.totalOrder_cmpOf fun _ => True).comap (Q := fun _ => True)
    rvPow2 fun _ _ => trivial
  have hpow5 := (Compare.totalOrder_cmpOf fun _ => True).comap (Q := fun _ => True)
    rvPow5 fun _ _ => trivial
  have hlex := hsig.lex (hpow2.lex hpow5)
  refine ⟨fun a b ha hb => (hlex.zero ha hb).trans ?_, hlex.swap, hlex.trans⟩
  obtain ⟨s, p, q⟩ := a
  obtain ⟨s', p', q'⟩ := b
  simp

theorem compareReal_value (r₁ r₂ : RealValue) :
    compareReal false r₁ r₂ = Compare.cmpOf (r₁.toField ℚ) (r₂.toField ℚ) := by
  rw [compareReal, if_neg (by decide)]
  dsimp only
  have h₁ := toField_align (K := ℚ) (r := r₁) (min_le_left r₁.rvPow2 r₂.rvPow2)
    (min_le_left r₁.rvPow5 r₂.rvPow5)
  have h₂ := toField_align (K := ℚ) (r := r₂) (min_le_right r₁.rvPow2 r₂.rvPow2)
    (min_le_right r₁.rvPow5 r₂.rvPow5)
  rw [mul_assoc] at h₁ h₂
  have hpos : (0 : ℚ) < 2 ^ min r₁.rvPow2 r₂.rvPow2 * 5 ^ min r₁.rvPow5 r₂.rvPow5 := by positivity
  rw [← h₁, ← h₂, ← mul_assoc, ← mul_assoc]
  generalize (2 : ℚ) ^ min r₁.rvPow2 r₂.rvPow2 * 5 ^ min r₁.rvPow5 r₂.rvPow5 = m at hpos ⊢
  rw [Compare.cmpOf, Compare.cmpOf]
  simp only [mul_lt_mul_iff_left₀ hpos, mul_left_inj' hpos.ne', Int.cast_lt, Int.cast_inj]

/-! ## The normal form -/

/-- No factor two or five is left in the significand; zero has no exponents. -/
def Canonical (r : RealValue) : Prop :=
  (r.rvSig = 0 ∧ r.rvPow2 = 0 ∧ r.rvPow5 = 0) ∨ (¬ 2 ∣ r.rvSig ∧ ¬ 5 ∣ r.rvSig)

theorem canonical_realValue (pow2 pow5 i : ℤ) : Canonical (realValue pow2 pow5 i) := by
  unfold realValue
  split_ifs with hi
  · exact .inl ⟨rfl, rfl, rfl⟩
  · right
    obtain ⟨n, -, hn, h2⟩ := normalize_spec (b := 2) le_rfl hi le_rfl
    rw [pow_one, Nat.cast_one] at hn h2
    have hi' : (normalize i 2 1).1 ≠ 0 := by
      intro h0
      rw [h0] at h2
      exact h2 (dvd_zero 2)
    obtain ⟨m, -, hm, h5⟩ := normalize_spec (b := 5) (by norm_num) hi' le_rfl
    rw [pow_one, Nat.cast_one] at hm h5
    refine ⟨fun hdvd => h2 ?_, h5⟩
    rw [hm]
    exact Dvd.dvd.mul_right hdvd _

/-- The exponent of a prime in the value of a significand without it. -/
theorem padicValRat_sig [Fact p.Prime] {s : ℤ} (h : ¬ (p : ℤ) ∣ s) : padicValRat p (s : ℚ) = 0 := by
  rw [padicValRat.of_int, padicValInt.eq_zero_of_not_dvd h, Nat.cast_zero]

theorem padicValRat_zpow {q : ℕ} [Fact p.Prime] [Fact q.Prime] (n : ℤ) :
    padicValRat p ((q : ℚ) ^ n) = if p = q then n else 0 := by
  rw [padicValRat.zpow]
  split_ifs with h
  · subst h
    rw [padicValRat.self (Fact.out : p.Prime).one_lt, mul_one]
  · rw [padicValRat.of_nat, padicValNat_primes h, Nat.cast_zero, mul_zero]

theorem padicValRat_toField [Fact p.Prime] {r : RealValue} (h0 : r.rvSig ≠ 0)
    (hp : ¬ (p : ℤ) ∣ r.rvSig) : padicValRat p (r.toField ℚ)
      = (if p = 2 then r.rvPow2 else 0) + if p = 5 then r.rvPow5 else 0 := by
  have : Fact (Nat.Prime 5) := ⟨by norm_num⟩
  have h2 := padicValRat_zpow (p := p) (q := 2) r.rvPow2
  have h5 := padicValRat_zpow (p := p) (q := 5) r.rvPow5
  push_cast at h2 h5
  have hsig : (r.rvSig : ℚ) ≠ 0 := by exact_mod_cast h0
  rw [toField, padicValRat.mul (by positivity) (by positivity),
    padicValRat.mul hsig (by positivity), padicValRat_sig hp, h2, h5, zero_add]

/-- Values in normal form are equal as records when they are equal as numbers. -/
theorem canonical_unique {a b : RealValue} (ha : Canonical a) (hb : Canonical b)
    (h : a.toField ℚ = b.toField ℚ) : a = b := by
  have hzero : ∀ r : RealValue, r.toField ℚ = 0 ↔ r.rvSig = 0 := by
    intro r
    have h2 : (2 : ℚ) ^ r.rvPow2 ≠ 0 := by positivity
    have h5 : (5 : ℚ) ^ r.rvPow5 ≠ 0 := by positivity
    rw [toField, mul_eq_zero, mul_eq_zero, or_iff_left h5, or_iff_left h2, Int.cast_eq_zero]
  have hsig : a.rvSig = 0 ↔ b.rvSig = 0 := by rw [← hzero, h, hzero]
  by_cases h0 : a.rvSig = 0
  · have hcan : ∀ r : RealValue, Canonical r → r.rvSig = 0 → r = ⟨0, 0, 0⟩ := by
      rintro ⟨s, p, q⟩ (⟨rfl, rfl, rfl⟩ | ⟨h2, -⟩) hs
      · rfl
      · dsimp only at hs h2
        rw [hs] at h2
        exact absurd (dvd_zero 2) h2
    rw [hcan a ha h0, hcan b hb (hsig.mp h0)]
  · have h0' : b.rvSig ≠ 0 := fun hb0 => h0 (hsig.mpr hb0)
    obtain ⟨ha2, ha5⟩ := ha.resolve_left fun hz => h0 hz.1
    obtain ⟨hb2, hb5⟩ := hb.resolve_left fun hz => h0' hz.1
    have hpow2 : a.rvPow2 = b.rvPow2 := by
      have hval := congrArg (padicValRat 2) h
      rw [padicValRat_toField h0 (by exact_mod_cast ha2),
        padicValRat_toField h0' (by exact_mod_cast hb2)] at hval
      simpa using hval
    have hpow5 : a.rvPow5 = b.rvPow5 := by
      have : Fact (Nat.Prime 5) := ⟨by norm_num⟩
      have hval := congrArg (padicValRat 5) h
      rw [padicValRat_toField h0 (by exact_mod_cast ha5),
        padicValRat_toField h0' (by exact_mod_cast hb5)] at hval
      simpa using hval
    have hs : a.rvSig = b.rvSig := by
      rw [toField, toField, hpow2, hpow5] at h
      have h2 : (2 : ℚ) ^ b.rvPow2 ≠ 0 := by positivity
      have h5 : (5 : ℚ) ^ b.rvPow5 ≠ 0 := by positivity
      exact_mod_cast mul_right_cancel₀ h2 (mul_right_cancel₀ h5 h)
    obtain ⟨s, p, q⟩ := a
    obtain ⟨s', p', q'⟩ := b
    dsimp only at hs hpow2 hpow5
    rw [hs, hpow2, hpow5]

/-! ## Literals -/

inductive LiteralError
  | invalidConstantLiteral (n : ℕ) (s : List Char)
  | invalidArgument
  | failure
  | assertFalse

def isHex (c : Char) : Bool :=
  ('0' ≤ c ∧ c ≤ '9') ∨ ('A' ≤ c ∧ c ≤ 'F') ∨ ('a' ≤ c ∧ c ≤ 'f')

def isDec (c : Char) : Bool := '0' ≤ c ∧ c ≤ '9'

def checkIntegerLiteral (n : ℕ) (f : Char → Bool) (s : List Char) : Except LiteralError Unit :=
  if s.length = 0 then .error (.invalidConstantLiteral n s)
  else if s.all f then .ok () else .error (.invalidConstantLiteral n s)

def digitValue (c : Char) : Option ℕ :=
  if '0' ≤ c ∧ c ≤ '9' then some (c.toNat - '0'.toNat)
  else if 'A' ≤ c ∧ c ≤ 'Z' then some (10 + c.toNat - 'A'.toNat)
  else if 'a' ≤ c ∧ c ≤ 'z' then some (10 + c.toNat - 'a'.toNat)
  else none

/-- The loop of `parse_in_base`; `t` is what is left of `s`. -/
def parseInBaseAux (radix : ℕ) (s : List Char) (acc : ℤ) : List Char → Except LiteralError ℤ
  | [] => .ok acc
  | c :: t =>
    match digitValue c with
    | none => .error (.invalidConstantLiteral radix s)
    | some v =>
      if radix ≤ v then .error (.invalidConstantLiteral radix s)
      else parseInBaseAux radix s (v + radix * acc) t

def parseInBase (radix : ℕ) (s : List Char) : Except LiteralError ℤ :=
  parseInBaseAux radix s 0 s

/-- The first character of an empty text is out of bounds. -/
def checkExp (e : List Char) : Except LiteralError Unit :=
  match e with
  | [] => .error .invalidArgument
  | c :: t => checkIntegerLiteral 10 isDec (if c = '-' then t else e)

/-- The exponent, an integer of the machine. -/
def expValue : Option (List Char) → Except LiteralError ℤ
  | none => .ok 0
  | some e => do
    checkExp e
    match intOfString e with
    | some n => .ok n.val
    | none => .error .failure

def checkPart (radix : ℕ) (check : Char → Bool) (s : List Char) : Except LiteralError Unit :=
  if s = [] then .ok () else checkIntegerLiteral radix check s

/-- The real value of the significand, which is an integer, and the exponent. -/
def scaleReal (radix : ℕ) (e s : ℤ) : Except LiteralError RealValue :=
  match radix with
  | 10 => .ok (realValue e e s)
  | 16 => .ok (realValue e 0 s)
  | _ => .error .assertFalse

def literalKind (radix : ℕ) (e : ℤ) : Except LiteralError (RealLiteralKind × (Char → Bool)) :=
  match radix with
  | 10 => .ok (.rLitDec e, isDec)
  | 16 => .ok (.rLitHex e, isHex)
  | _ => .error .assertFalse

/-- `real_literal`. -/
def realLiteral (radix : ℕ) (neg : Bool) (int frac : List Char) (exp : Option (List Char)) :
    Except LiteralError (RealLiteralKind × RealValue) := do
  let e ← expValue exp
  let (k, check) ← literalKind radix e
  checkPart radix check int
  checkPart radix check frac
  let s ← parseInBase radix (int ++ frac)
  let s := if neg then -s else s
  let f : ℤ := -frac.length
  let f := if radix = 16 then 4 * f else f
  let r ← scaleReal radix (e + f) s
  .ok (k, r)

/-! ## The number a text denotes -/

/-- The integer that digits denote. -/
def digitsValue (radix : ℕ) (s : List Char) : ℕ :=
  s.foldl (fun acc c => radix * acc + (digitValue c).getD 0) 0

/-- A decimal integer with an optional minus sign. -/
def expDenotes : Option (List Char) → ℤ
  | none => 0
  | some e => if e.head? = some '-' then -(Nat.ofDigitChars 10 e.tail 0) else Nat.ofDigitChars 10 e 0

/-- The mantissa, times ten or two to the exponent. -/
def literalDenotes (radix : ℕ) (neg : Bool) (int frac : List Char) (exp : Option (List Char)) : ℚ :=
  (if neg then -1 else 1) *
    (digitsValue radix int + digitsValue radix frac / radix ^ frac.length) *
    (if radix = 10 then 10 else 2) ^ expDenotes exp

theorem digitsValue_append (radix : ℕ) (s t : List Char) :
    digitsValue radix (s ++ t) = digitsValue radix s * radix ^ t.length + digitsValue radix t := by
  rw [digitsValue, digitsValue, digitsValue, foldl_append]
  generalize s.foldl (fun acc c => radix * acc + (digitValue c).getD 0) 0 = n
  have hgen : ∀ (t : List Char) (n m : ℕ),
      t.foldl (fun acc c => radix * acc + (digitValue c).getD 0) (n + m)
        = n * radix ^ t.length +
          t.foldl (fun acc c => radix * acc + (digitValue c).getD 0) m := by
    intro t
    induction t with
    | nil =>
      intro n m
      simp
    | cons c t ih =>
      intro n m
      rw [foldl_cons, foldl_cons, mul_add, add_assoc, ih, length_cons, pow_succ]
      ring
  simpa using hgen t n 0

theorem parseInBaseAux_eq {t : List Char} {acc : ℕ} {n : ℤ}
    (h : parseInBaseAux radix s acc t = .ok n) :
    n = (t.foldl (fun acc c => radix * acc + (digitValue c).getD 0) acc : ℕ) := by
  induction t generalizing acc with
  | nil =>
    cases h
    rfl
  | cons c t ih =>
    rw [parseInBaseAux] at h
    split at h
    · cases h
    · next v hv =>
        split_ifs at h
        rw [foldl_cons, hv, Option.getD_some]
        apply ih
        rw [← h]
        push_cast
        rw [add_comm]

theorem parseInBase_eq {n : ℤ} (h : parseInBase radix s = .ok n) : n = digitsValue radix s := by
  have h0 : parseInBaseAux radix s ((0 : ℕ) : ℤ) s = .ok n := h
  exact parseInBaseAux_eq h0

theorem checkIntegerLiteral_ok {n : ℕ} {f : Char → Bool} (h : checkIntegerLiteral n f s = .ok ()) :
    s ≠ [] ∧ ∀ c ∈ s, f c = true := by
  rw [checkIntegerLiteral] at h
  split_ifs at h with hlen hall
  refine ⟨fun hnil => hlen (by rw [hnil]; rfl), ?_⟩
  simpa using hall

theorem expValue_eq {exp : Option (List Char)} {e : ℤ} (h : expValue exp = .ok e) :
    e = expDenotes exp := by
  cases exp with
  | none =>
    cases h
    rfl
  | some t =>
    obtain ⟨⟨⟩, hcheck, h⟩ := Checks.bind_eq_ok.mp h
    have hdigit : ∀ {d : List Char}, (∀ c ∈ d, isDec c = true) → ∀ c ∈ d, c.isDigit := by
      intro d hd c hc
      simpa [isDec, Char.isDigit, Char.le_def] using hd c hc
    have hval : ∀ {neg : Bool} {d : List Char}, parseSign t = (neg, d) → d ≠ [] →
        (∀ c ∈ d, isDec c = true) →
        e = if neg then -(Nat.ofDigitChars 10 d 0 : ℤ) else Nat.ofDigitChars 10 d 0 := by
      intro neg d hsign hne hd
      rw [intOfString_digits hsign hne (hdigit hd)] at h
      split at h
      · next n hn =>
          cases h
          exact ofSignedNat_val hn
      · cases h
    cases t with
    | nil => cases hcheck
    | cons c t =>
      unfold checkExp at hcheck
      dsimp only at hcheck
      split_ifs at hcheck with hc
      · subst hc
        obtain ⟨hne, hd⟩ := checkIntegerLiteral_ok hcheck
        have hsign : parseSign ('-' :: t) = (true, t) := rfl
        exact hval hsign hne hd
      · obtain ⟨hne, hd⟩ := checkIntegerLiteral_ok hcheck
        have hdig := hdigit hd c mem_cons_self
        rw [hval (parseSign_of_isDigit hdig) hne hd, expDenotes, if_neg (by decide),
          if_neg (by simpa using hc)]

theorem decimal_scale (x i f : ℚ) (n : ℕ) (e : ℤ) :
    x * (i * 10 ^ n + f) * 2 ^ (e + -(n : ℤ)) * 5 ^ (e + -(n : ℤ))
      = x * (i + f / 10 ^ n) * 10 ^ e := by
  rw [mul_assoc _ (2 ^ _ : ℚ), ← mul_zpow, zpow_add₀ (by norm_num), zpow_neg, zpow_natCast,
    show (2 * 5 : ℚ) = 10 by norm_num]
  field_simp

theorem hexadecimal_scale (x i f : ℚ) (n : ℕ) (e : ℤ) :
    x * (i * 16 ^ n + f) * 2 ^ (e + 4 * -(n : ℤ)) * 5 ^ (0 : ℤ) = x * (i + f / 16 ^ n) * 2 ^ e := by
  have h16 : (2 : ℚ) ^ (4 * -(n : ℤ)) = (16 ^ n)⁻¹ := by
    rw [zpow_mul, zpow_neg, zpow_natCast]
    norm_num
  rw [zpow_add₀ (by norm_num), h16, zpow_zero, mul_one]
  field_simp

theorem realLiteral_value {neg : Bool} {int frac : List Char} {exp : Option (List Char)}
    {k : RealLiteralKind} {r : RealValue} (h : realLiteral radix neg int frac exp = .ok (k, r)) :
    Canonical r ∧ r.toField ℚ = literalDenotes radix neg int frac exp := by
  obtain ⟨e, he, h⟩ := Checks.bind_eq_ok.mp h
  obtain ⟨⟨k', check⟩, hk, h⟩ := Checks.bind_eq_ok.mp h
  obtain ⟨-, -, h⟩ := Checks.bind_eq_ok.mp h
  obtain ⟨-, -, h⟩ := Checks.bind_eq_ok.mp h
  obtain ⟨s, hs, h⟩ := Checks.bind_eq_ok.mp h
  obtain ⟨r', hr, h⟩ := Checks.bind_eq_ok.mp h
  cases h
  rw [expValue_eq he] at hk hr
  rw [parseInBase_eq hs, digitsValue_append] at hr
  have hsign : ∀ x : ℤ, ((if neg then -x else x : ℤ) : ℚ) = (if neg then -1 else 1) * (x : ℚ) := by
    intro x
    cases neg <;> simp
  unfold literalKind at hk
  split at hk
  · cases hr
    refine ⟨canonical_realValue _ _ _, ?_⟩
    rw [toField_realValue, hsign]
    push_cast
    exact decimal_scale _ _ _ _ _
  · cases hr
    refine ⟨canonical_realValue _ _ _, ?_⟩
    rw [toField_realValue, hsign]
    push_cast
    exact hexadecimal_scale _ _ _ _ _
  · cases hk

/-- Real values in normal form: the value is kept, equal values are equal records,
the comparisons are total orders, and a literal has the value it denotes. -/
theorem real_value_canonical (hash : RealValue → ℕ) :
    (∀ pow2 pow5 i, (realValue pow2 pow5 i).toField ℚ = i * 2 ^ pow2 * 5 ^ pow5 ∧
      Canonical (realValue pow2 pow5 i)) ∧
    (∀ pow2 pow5 i pow2' pow5' i',
      let a := realValue pow2 pow5 i
      let b := realValue pow2' pow5' i'
      (a = b ↔ a.toField ℚ = b.toField ℚ) ∧
      (∀ structural, compareReal structural a b = 0 ↔ a.toField ℚ = b.toField ℚ) ∧
      (a.toField ℚ = b.toField ℚ → hash a = hash b)) ∧
    Compare.TotalOrder (fun _ => True) (· = ·) (compareReal true) ∧
    Compare.TotalOrder Canonical (· = ·) (compareReal false) ∧
    ∀ radix neg int frac exp k r, realLiteral radix neg int frac exp = .ok (k, r) →
      Canonical r ∧ r.toField ℚ = literalDenotes radix neg int frac exp := by
  have hunique : ∀ {a b : RealValue}, Canonical a → Canonical b →
      (a = b ↔ a.toField ℚ = b.toField ℚ) := by
    intro a b ha hb
    exact ⟨fun h => by rw [h], canonical_unique ha hb⟩
  refine ⟨fun pow2 pow5 i => ⟨toField_realValue ℚ pow2 pow5 i, canonical_realValue _ _ _⟩, ?_,
    compareReal_structural, ?_, fun _ _ _ _ _ _ _ => realLiteral_value⟩
  · intro pow2 pow5 i pow2' pow5' i' a b
    have hab : a = b ↔ a.toField ℚ = b.toField ℚ :=
      hunique (canonical_realValue _ _ _) (canonical_realValue _ _ _)
    refine ⟨hab, fun structural => ?_, fun h => by rw [hab.mpr h]⟩
    cases structural with
    | true => rw [compareReal_structural.zero trivial trivial, hab]
    | false => rw [compareReal_value, Compare.cmpOf_zero]
  · have hvalue := (Compare.totalOrder_cmpOf (α := ℚ) fun _ => True).comap (Q := Canonical)
      (fun r : RealValue => r.toField ℚ) fun _ _ => trivial
    simp only [← compareReal_value] at hvalue
    exact ⟨fun a b ha hb => (hvalue.zero ha hb).trans (hunique ha hb).symm, hvalue.swap,
      hvalue.trans⟩

/-- The literal `-0x1.F8p-3`. -/
theorem real_value_canonical_hex : ∃ k r,
    realLiteral 16 true "1".toList "F8".toList (some "-3".toList) = .ok (k, r) ∧ Canonical r ∧
      r.toField ℚ = literalDenotes 16 true "1".toList "F8".toList (some "-3".toList) := by
  obtain ⟨k, r, h⟩ : ∃ k r,
      realLiteral 16 true "1".toList "F8".toList (some "-3".toList) = .ok (k, r) := ⟨_, _, rfl⟩
  exact ⟨k, r, h, (real_value_canonical fun _ => 0).2.2.2.2 _ _ _ _ _ _ _ h⟩

end Why3.Number
