import Why3.Util.RealLiteral

/-!
# Float literals

The check of real literals against a float format of `util/number.ml`: a real value is
scaled until its significand has the digits of the format, and what cannot be
represented exactly is refused.
-/

namespace Why3.Number

/-- `real_constant`. -/
structure RealConstant where
  rlKind : RealLiteralKind
  rlReal : RealValue
deriving DecidableEq

/-- `compute_float` ends with an assertion. -/
inductive FloatError
  | nonRepresentableFloat (c : RealConstant)
  | assertFailure

/-! ## The format -/

/-- The `Float` case of `create_tysymbol`: other formats raise `BadFloatSpec`. -/
def checkFloatFormat (fp : FloatFormat) : Bool :=
  1 ≤ fp.fpExponentDigits && 1 ≤ fp.fpSignificandDigits

namespace Format

variable (fp : FloatFormat)

/-- The smallest normalized significand. -/
def smin : ℤ := 2 ^ (fp.fpSignificandDigits - 1)

/-- The largest significand. -/
def smax : ℤ := 2 ^ fp.fpSignificandDigits - 1

/-- The exponent of the infinities. -/
def emax : ℤ := 2 ^ (fp.fpExponentDigits - 1)

/-- The exponent of the denormalized numbers. -/
def eden : ℤ := 1 - emax fp

/-- The smallest exponent of an integer significand. -/
def emin : ℤ := 2 + eden fp - fp.fpSignificandDigits

end Format

open Format

variable {e s : ℤ}

/-! ## The computation -/

/-- `float_parser`: an integer and a power of two. -/
def floatParser (c : RealConstant) : Except FloatError (ℤ × ℤ) :=
  if c.rlReal.rvPow5 < 0 then .error (.nonRepresentableFloat c)
  else .ok (c.rlReal.rvSig * 5 ^ c.rlReal.rvPow5.toNat, c.rlReal.rvPow2)

/-- The first loop, which is entered with a positive `s`: zeros at the end are removed
while `s` is too big or `e` too small. -/
def removeZeros (c : RealConstant) (fp : FloatFormat) (s e : ℤ) : Except FloatError (ℤ × ℤ) :=
  if (smax fp < s ∨ e < emin fp) ∧ 0 < s then
    if s % 2 ≠ 0 then .error (.nonRepresentableFloat c)
    else removeZeros c fp (s / 2) (e + 1)
  else .ok (s, e)
termination_by s.toNat
decreasing_by omega

/-- The second loop: zeros are added while `s` is too small and `e` too big. -/
def addZeros (fp : FloatFormat) (s e : ℤ) : ℤ × ℤ :=
  if s < smin fp ∧ emin fp < e then addZeros fp (2 * s) (e - 1)
  else (s, e)
termination_by (e - emin fp).toNat
decreasing_by omega

/-- The end of `compute_float`, for the sign and the scaled value: the biased exponent
and the significand without its first digit. -/
def packFloat (c : RealConstant) (fp : FloatFormat) (sign : Bool) (s e : ℤ) :
    Except FloatError (Bool × ℤ × ℤ) :=
  if s < smin fp then .ok (sign, 0, s)
  else
    let fe := e + (fp.fpSignificandDigits - 1)
    if emax fp ≤ fe then .error (.nonRepresentableFloat c)
    else
      let fe := fe + (emax fp - 1)
      let fs := s - smin fp
      if 0 ≤ fs ∧ fs < 2 ^ (fp.fpSignificandDigits - 1) ∧ 0 ≤ fe ∧ fe < 2 ^ fp.fpExponentDigits - 1
      then .ok (sign, fe, fs)
      else .error .assertFailure

def computeFloat (c : RealConstant) (fp : FloatFormat) : Except FloatError (Bool × ℤ × ℤ) := do
  let (s, e) ← floatParser c
  if s = 0 then .ok (false, 0, 0)
  else do
    let (s', e) ← removeZeros c fp |s| e
    let (s', e) := addZeros fp s' e
    packFloat c fp (s < 0) s' e

/-! ## The values of a format -/

def signed (sign : Bool) (x : ℚ) : ℚ := if sign then -x else x

/-- The number that a sign, a biased exponent and a mantissa stand for. -/
def decode (fp : FloatFormat) (sign : Bool) (e m : ℤ) : ℚ :=
  let bias : ℤ := 2 ^ (fp.fpExponentDigits - 1) - 1
  let digits : ℤ := fp.fpSignificandDigits - 1
  signed sign (if e = 0 then m * 2 ^ (1 - bias - digits)
    else (2 ^ digits + m) * 2 ^ (e - bias - digits))

/-- The fields of a finite number: the last exponent is that of the infinities. -/
def Fields (fp : FloatFormat) (e m : ℤ) : Prop :=
  0 ≤ e ∧ e < 2 ^ fp.fpExponentDigits - 1 ∧ 0 ≤ m ∧ m < 2 ^ (fp.fpSignificandDigits - 1)

/-- The finite numbers of a format, normal or subnormal. -/
def Finite (fp : FloatFormat) (v : ℚ) : Prop :=
  ∃ sign e m, Fields fp e m ∧ decode fp sign e m = v

/-! ## The loops -/

theorem half_mul_zpow (h : s % 2 = 0) (e : ℤ) : ((s / 2 : ℤ) : ℚ) * 2 ^ (e + 1) = s * 2 ^ e := by
  have hs : (s / 2) * 2 = s := by omega
  have hs' : ((s / 2 : ℤ) : ℚ) * 2 = s := by exact_mod_cast hs
  rw [zpow_add_one₀ two_ne_zero, ← hs']
  ring

theorem double_mul_zpow (s e : ℤ) : ((2 * s : ℤ) : ℚ) * 2 ^ (e - 1) = s * 2 ^ e := by
  push_cast
  rw [zpow_sub_one₀ two_ne_zero]
  ring

section Loops

variable {c : RealConstant} {fp : FloatFormat}

theorem even_of_lt {n k : ℤ} (h : (n : ℚ) * 2 ^ k = s * 2 ^ e) (hlt : e < k) : s % 2 = 0 := by
  obtain ⟨d, rfl⟩ : ∃ d : ℕ, k = e + (d + 1) := ⟨(k - e - 1).toNat, by omega⟩
  have hs : (s : ℚ) = n * (2 ^ d * 2) := by
    have h2 : (2 : ℚ) ^ e ≠ 0 := by positivity
    rw [zpow_add₀ two_ne_zero, zpow_add_one₀ two_ne_zero, zpow_natCast] at h
    apply mul_right_cancel₀ h2
    rw [← h]
    ring
  have : s = n * (2 ^ d * 2) := by exact_mod_cast hs
  rw [this, ← mul_assoc]
  exact Int.mul_emod_left _ _

/-- The first loop keeps the number and reaches the bounds, and raises its exception
only for a number that no significand and exponent of the format give. -/
theorem removeZeros_spec {s e : ℤ} (hs : 0 < s) :
    (∀ s' e', removeZeros c fp s e = .ok (s', e') →
      (s' : ℚ) * 2 ^ e' = s * 2 ^ e ∧ 0 < s' ∧ s' ≤ smax fp ∧ emin fp ≤ e') ∧
    (∀ err, removeZeros c fp s e = .error err → err = .nonRepresentableFloat c ∧
      ¬ ∃ n k : ℤ, n ≤ smax fp ∧ emin fp ≤ k ∧ (n : ℚ) * 2 ^ k = s * 2 ^ e) := by
  induction s, e using removeZeros.induct fp with
  | case1 s e hloop hodd =>
    rw [removeZeros, if_pos hloop, if_pos hodd]
    refine ⟨fun s' e' h => (by cases h), fun err h => ?_⟩
    cases h
    refine ⟨rfl, ?_⟩
    rintro ⟨n, k, hn, hk, heq⟩
    apply hodd
    apply even_of_lt heq
    -- otherwise the exponent is large enough, and then the significand is too big
    by_contra hle
    push Not at hle
    obtain ⟨d, rfl⟩ : ∃ d : ℕ, e = k + d := ⟨(e - k).toNat, by omega⟩
    have hlarge : smax fp < s := hloop.1.resolve_right (by omega)
    have hns : n = s * 2 ^ d := by
      have h2 : (2 : ℚ) ^ k ≠ 0 := by positivity
      rw [zpow_add₀ two_ne_zero, zpow_natCast, mul_comm ((2 : ℚ) ^ k), ← mul_assoc] at heq
      exact_mod_cast mul_right_cancel₀ h2 heq
    have hd : (1 : ℤ) ≤ 2 ^ d := one_le_pow₀ (by norm_num)
    nlinarith
  | case2 s e hloop heven ih =>
    rw [removeZeros, if_pos hloop, if_neg heven]
    push Not at heven
    have hhalf : 0 < s / 2 := by omega
    obtain ⟨hok, herr⟩ := ih hhalf
    rw [half_mul_zpow heven] at hok herr
    exact ⟨hok, herr⟩
  | case3 s e hdone =>
    rw [removeZeros, if_neg hdone]
    refine ⟨fun s' e' h => ?_, fun err h => (by cases h)⟩
    cases h
    have hbounds : ¬ (smax fp < s ∨ e < emin fp) := fun h => hdone ⟨h, hs⟩
    push Not at hbounds
    exact ⟨rfl, hs, hbounds.1, hbounds.2⟩

/-- The second loop keeps the number and the bounds, and stops at a normalized
significand or at the smallest exponent. -/
theorem addZeros_spec (hmax : smax fp = 2 * smin fp - 1) (hs : 0 < s) (hle : s ≤ smax fp)
    (he : emin fp ≤ e) : let r := addZeros fp s e
    (r.1 : ℚ) * 2 ^ r.2 = s * 2 ^ e ∧ 0 < r.1 ∧ r.1 ≤ smax fp ∧ emin fp ≤ r.2 ∧
      (r.1 < smin fp → r.2 = emin fp) := by
  induction s, e using addZeros.induct fp with
  | case1 s e hloop ih =>
    rw [addZeros, if_pos hloop]
    have hrec := ih (by omega) (by omega) (by omega)
    rw [double_mul_zpow] at hrec
    exact hrec
  | case2 s e hdone =>
    rw [addZeros, if_neg hdone]
    exact ⟨rfl, hs, hle, he, fun hlt => by omega⟩

end Loops

/-! ## The fields -/

section Fields

variable {fp : FloatFormat}

theorem smax_eq (hsb : 1 ≤ fp.fpSignificandDigits) : smax fp = 2 * smin fp - 1 := by
  rw [smax, smin, ← pow_succ', Nat.sub_add_cancel hsb]

theorem smin_pos (fp : FloatFormat) : 0 < smin fp := by
  rw [smin]
  positivity

theorem emax_pos (fp : FloatFormat) : 0 < emax fp := by
  rw [emax]
  positivity

theorem top_exponent (heb : 1 ≤ fp.fpExponentDigits) :
    (2 : ℤ) ^ fp.fpExponentDigits - 1 = 2 * emax fp - 1 := by
  rw [emax, ← pow_succ', Nat.sub_add_cancel heb]

theorem cast_smin (hsb : 1 ≤ fp.fpSignificandDigits) :
    ((smin fp : ℤ) : ℚ) = 2 ^ ((fp.fpSignificandDigits : ℤ) - 1) := by
  rw [smin, show (fp.fpSignificandDigits : ℤ) - 1 = ((fp.fpSignificandDigits - 1 : ℕ) : ℤ) by omega,
    zpow_natCast]
  push_cast
  rfl

theorem abs_signed {sign : Bool} {x : ℚ} (hx : 0 ≤ x) : |signed sign x| = x := by
  cases sign with
  | true => rw [signed, if_pos rfl, abs_neg, abs_of_nonneg hx]
  | false => rw [signed, if_neg Bool.false_ne_true, abs_of_nonneg hx]

/-- A subnormal number: its significand has the smallest exponent. -/
theorem decode_zero (fp : FloatFormat) (sign : Bool) (m : ℤ) :
    decode fp sign 0 m = signed sign (m * 2 ^ emin fp) := by
  have hexp : 1 - (emax fp - 1) - ((fp.fpSignificandDigits : ℤ) - 1) = emin fp := by
    rw [emin, eden]
    ring
  rw [decode, if_pos rfl, ← hexp, emax]

theorem decode_normal (hsb : 1 ≤ fp.fpSignificandDigits) (sign : Bool)
    (he : e + ((fp.fpSignificandDigits : ℤ) - 1) + (emax fp - 1) ≠ 0) :
    decode fp sign (e + (fp.fpSignificandDigits - 1) + (emax fp - 1)) (s - smin fp)
      = signed sign (s * 2 ^ e) := by
  have hexp : e + ((fp.fpSignificandDigits : ℤ) - 1) + (emax fp - 1) - (emax fp - 1)
      - ((fp.fpSignificandDigits : ℤ) - 1) = e := by ring
  have hsig : (2 : ℚ) ^ ((fp.fpSignificandDigits : ℤ) - 1) + ((s - smin fp : ℤ) : ℚ) = s := by
    rw [← cast_smin hsb]
    push_cast
    ring
  rw [decode, if_neg he, hsig, show (2 : ℤ) ^ (fp.fpExponentDigits - 1) = emax fp from rfl, hexp]

/-- A significand of the format below the overflow. -/
def Representable (fp : FloatFormat) (v : ℚ) : Prop :=
  ∃ n k : ℤ, n ≤ smax fp ∧ emin fp ≤ k ∧ (n : ℚ) * 2 ^ k = v ∧ v < 2 ^ emax fp

theorem Finite.representable (hsb : 1 ≤ fp.fpSignificandDigits) (heb : 1 ≤ fp.fpExponentDigits)
    {v : ℚ} (h : Finite fp v) : Representable fp |v| := by
  obtain ⟨sign, e, m, ⟨he, htop, hm, hlt⟩, rfl⟩ := h
  rw [top_exponent heb] at htop
  have hlt' : m < smin fp := hlt
  have hmax := smax_eq hsb
  have hemax := emax_pos fp
  have hbound : ∀ n k : ℤ, n ≤ smax fp → k + fp.fpSignificandDigits ≤ emax fp →
      (n : ℚ) * 2 ^ k < 2 ^ emax fp := by
    intro n k hn hk
    have hn' : (n : ℚ) < 2 ^ (fp.fpSignificandDigits : ℤ) := by
      rw [zpow_natCast]
      have : n < 2 ^ fp.fpSignificandDigits := by
        rw [smax] at hn
        omega
      exact_mod_cast this
    calc (n : ℚ) * 2 ^ k < 2 ^ (fp.fpSignificandDigits : ℤ) * 2 ^ k :=
          mul_lt_mul_of_pos_right hn' (by positivity)
      _ = 2 ^ (k + fp.fpSignificandDigits) := by rw [← zpow_add₀ two_ne_zero, add_comm]
      _ ≤ 2 ^ emax fp := zpow_le_zpow_right₀ (by norm_num) hk
  by_cases h0 : e = 0
  · subst h0
    have hpos : (0 : ℚ) ≤ m * 2 ^ emin fp := by
      have : (0 : ℚ) ≤ m := by exact_mod_cast hm
      positivity
    rw [decode_zero, abs_signed hpos]
    refine ⟨m, emin fp, by omega, le_rfl, rfl, ?_⟩
    -- the significand of a subnormal number has one digit less
    by_cases hone : 2 ≤ emax fp
    · apply hbound m (emin fp) (by omega)
      rw [emin, eden]
      omega
    · have hm2 : ((2 * m : ℤ) : ℚ) * 2 ^ (emin fp - 1) < 2 ^ emax fp := by
        apply hbound _ _ (by omega)
        rw [emin, eden]
        omega
      rwa [double_mul_zpow] at hm2
  · obtain ⟨k, rfl⟩ : ∃ k, e = k + ((fp.fpSignificandDigits : ℤ) - 1) + (emax fp - 1) :=
      ⟨e - (fp.fpSignificandDigits - 1) - (emax fp - 1), by ring⟩
    have hdec := decode_normal hsb sign (s := m + smin fp) h0
    rw [add_sub_cancel_right] at hdec
    have hs := smin_pos fp
    have hpos : (0 : ℚ) ≤ ((m + smin fp : ℤ) : ℚ) * 2 ^ k := by
      have : (0 : ℚ) ≤ ((m + smin fp : ℤ) : ℚ) := by exact_mod_cast (by omega : 0 ≤ m + smin fp)
      positivity
    rw [hdec, abs_signed hpos]
    refine ⟨m + smin fp, k, by omega, ?_, rfl, hbound _ _ (by omega) (by omega)⟩
    rw [emin, eden]
    omega

/-- What is packed has the fields of a finite number with the value, and what is refused
is too big. -/
theorem packFloat_spec {c : RealConstant} (hsb : 1 ≤ fp.fpSignificandDigits)
    (heb : 1 ≤ fp.fpExponentDigits) {sign : Bool} {s e : ℤ} (hs : 0 < s) (hle : s ≤ smax fp)
    (he : emin fp ≤ e) (hsub : s < smin fp → e = emin fp) :
    (∀ sign' fe fs, packFloat c fp sign s e = .ok (sign', fe, fs) →
      sign' = sign ∧ Fields fp fe fs ∧
        decode fp sign' fe fs = signed sign (s * 2 ^ e)) ∧
    (∀ err, packFloat c fp sign s e = .error err →
      err = .nonRepresentableFloat c ∧ (2 : ℚ) ^ emax fp ≤ s * 2 ^ e) := by
  have hmax := smax_eq hsb
  have hemax := emax_pos fp
  rw [packFloat]
  split_ifs with hlt
  · constructor
    · intro sign' fe fs h
      cases h
      refine ⟨rfl, ⟨le_rfl, ?_, hs.le, hlt⟩, ?_⟩
      · rw [top_exponent heb]
        omega
      · rw [decode_zero, hsub hlt]
    · intro err h
      cases h
  · push Not at hlt
    dsimp only
    have hfe : 1 ≤ e + ((fp.fpSignificandDigits : ℤ) - 1) + (emax fp - 1) := by
      rw [emin, eden] at he
      omega
    split_ifs with hbig hassert
    · refine ⟨fun _ _ _ h => (by cases h), fun err h => ?_⟩
      cases h
      refine ⟨rfl, ?_⟩
      calc (2 : ℚ) ^ emax fp ≤ 2 ^ (e + ((fp.fpSignificandDigits : ℤ) - 1)) :=
            zpow_le_zpow_right₀ (by norm_num) hbig
        _ = ((smin fp : ℤ) : ℚ) * 2 ^ e := by
          rw [cast_smin hsb, ← zpow_add₀ two_ne_zero, add_comm]
        _ ≤ s * 2 ^ e := by
          apply mul_le_mul_of_nonneg_right ?_ (by positivity)
          exact_mod_cast hlt
    · refine ⟨fun sign' fe fs h => ?_, fun err h => (by cases h)⟩
      cases h
      exact ⟨rfl, ⟨hassert.2.2.1, hassert.2.2.2, hassert.1, hassert.2.1⟩,
        decode_normal hsb sign (by omega)⟩
    · -- the final assertion
      exfalso
      apply hassert
      refine ⟨by omega, ?_, by omega, ?_⟩
      · show s - smin fp < smin fp
        omega
      · rw [top_exponent heb]
        omega

end Fields

/-! ## The whole check -/

section Check

variable {c : RealConstant} {fp : FloatFormat}

theorem signed_abs (s : ℤ) (e : ℤ) :
    signed (decide (s < 0)) (((|s| : ℤ) : ℚ) * 2 ^ e) = (s : ℚ) * 2 ^ e := by
  rw [signed]
  by_cases hs : s < 0
  · rw [if_pos (decide_eq_true hs), abs_of_neg hs]
    push_cast
    ring
  · rw [if_neg (by simpa using hs), abs_of_nonneg (not_lt.mp hs)]

theorem abs_mul_zpow (s e : ℤ) : |(s : ℚ) * 2 ^ e| = ((|s| : ℤ) : ℚ) * 2 ^ e := by
  rw [abs_mul, abs_of_pos (by positivity : (0 : ℚ) < 2 ^ e), Int.cast_abs]

/-- A negative power of five is left in no number of a float format. -/
theorem not_representable_of_pow5 {r : RealValue} (hr : Canonical r) (h5 : r.rvPow5 < 0) :
    ¬ Representable fp |r.toField ℚ| := by
  have : Fact (Nat.Prime 5) := ⟨by norm_num⟩
  rintro ⟨n, k, -, -, heq, -⟩
  have hsig : r.rvSig ≠ 0 ∧ ¬ ((5 : ℕ) : ℤ) ∣ r.rvSig := by
    rcases hr with ⟨-, -, h0⟩ | ⟨-, hdvd⟩
    · omega
    · exact ⟨fun h0 => hdvd (h0 ▸ dvd_zero 5), by exact_mod_cast hdvd⟩
  have hval := padicValRat_toField (p := 5) hsig.1 hsig.2
  have hne : r.toField ℚ ≠ 0 := by
    intro h0
    rw [h0, padicValRat.zero] at hval
    simp at hval
    omega
  have hn : (n : ℚ) ≠ 0 := by
    intro h0
    rw [h0, zero_mul] at heq
    exact hne (abs_eq_zero.mp heq.symm)
  have habs : padicValRat 5 |r.toField ℚ| = padicValRat 5 (r.toField ℚ) := by
    rcases abs_choice (r.toField ℚ) with h | h
    · rw [h]
    · rw [h, padicValRat.neg]
  have hpow := padicValRat_zpow (p := 5) (q := 2) k
  push_cast at hpow
  rw [← heq, padicValRat.mul hn (by positivity), hpow, hval, padicValRat.of_int] at habs
  simp at habs
  omega

/-- A value without negative powers of five. -/
theorem toField_parsed {r : RealValue} (h5 : ¬ r.rvPow5 < 0) :
    r.toField ℚ = ((r.rvSig * 5 ^ r.rvPow5.toNat : ℤ) : ℚ) * 2 ^ r.rvPow2 := by
  have h : (5 : ℚ) ^ r.rvPow5 = 5 ^ r.rvPow5.toNat := by
    rw [← zpow_natCast, Int.toNat_of_nonneg (not_lt.mp h5)]
  rw [RealValue.toField, h]
  push_cast
  ring

theorem fields_zero (heb : 1 ≤ fp.fpExponentDigits) : Fields fp 0 0 := by
  refine ⟨le_rfl, ?_, le_rfl, smin_pos fp⟩
  have := emax_pos fp
  rw [top_exponent heb]
  omega

/-- The check is exact: what it returns are the fields of a finite number with the value
of the literal, and it raises its exception exactly for a value that is no finite number of
the format. -/
theorem compute_float_exact (hc : Canonical c.rlReal) (hfp : checkFloatFormat fp = true) :
    (∀ sign e m, computeFloat c fp = .ok (sign, e, m) →
      Fields fp e m ∧ decode fp sign e m = c.rlReal.toField ℚ) ∧
    ((∃ r, computeFloat c fp = .ok r) ↔ Finite fp (c.rlReal.toField ℚ)) ∧
    (computeFloat c fp = .error (.nonRepresentableFloat c) ↔
      ¬ Finite fp (c.rlReal.toField ℚ)) := by
  obtain ⟨heb, hsb⟩ : 1 ≤ fp.fpExponentDigits ∧ 1 ≤ fp.fpSignificandDigits := by
    simpa [checkFloatFormat] using hfp
  -- what is returned is right, and what is refused has no representation
  suffices h : (∀ sign e m, computeFloat c fp = .ok (sign, e, m) →
      Fields fp e m ∧ decode fp sign e m = c.rlReal.toField ℚ) ∧
      ∀ err, computeFloat c fp = .error err →
        err = .nonRepresentableFloat c ∧ ¬ Representable fp |c.rlReal.toField ℚ| by
    obtain ⟨hok, herr⟩ := h
    have hfin : ∀ r, computeFloat c fp = .ok r → Finite fp (c.rlReal.toField ℚ) := by
      rintro ⟨sign, e, m⟩ hr
      obtain ⟨hfields, hval⟩ := hok sign e m hr
      exact ⟨sign, e, m, hfields, hval⟩
    have hnot : ∀ err, computeFloat c fp = .error err → ¬ Finite fp (c.rlReal.toField ℚ) :=
      fun err he hf => (herr err he).2 (hf.representable hsb heb)
    refine ⟨hok, ⟨fun ⟨r, hr⟩ => hfin r hr, fun hf => ?_⟩, ⟨hnot _, fun hf => ?_⟩⟩
    · cases h : computeFloat c fp with
      | ok r => exact ⟨r, rfl⟩
      | error err => exact absurd hf (hnot err h)
    · cases h : computeFloat c fp with
      | ok r => exact absurd (hfin r h) hf
      | error err => rw [(herr err h).1]
  rw [computeFloat, floatParser]
  by_cases h5 : c.rlReal.rvPow5 < 0
  · rw [if_pos h5]
    refine ⟨fun _ _ _ h => (by cases h), fun err h => ?_⟩
    cases h
    exact ⟨rfl, not_representable_of_pow5 hc h5⟩
  rw [if_neg h5, toField_parsed h5]
  generalize c.rlReal.rvSig * 5 ^ c.rlReal.rvPow5.toNat = s
  generalize c.rlReal.rvPow2 = e
  show (∀ sign fe fs, (if s = 0 then _ else _) = _ → _) ∧ ∀ err, (if s = 0 then _ else _) = _ → _
  by_cases hs : s = 0
  · rw [if_pos hs, hs]
    refine ⟨fun sign fe fs h => ?_, fun err h => (by cases h)⟩
    cases h
    refine ⟨fields_zero heb, ?_⟩
    rw [decode_zero, signed]
    simp
  rw [if_neg hs]
  have hpos : 0 < |s| := abs_pos.mpr hs
  obtain ⟨hok, herr⟩ := @removeZeros_spec c fp _ e hpos
  rw [abs_mul_zpow]
  cases hrem : removeZeros c fp |s| e with
  | error err =>
    refine ⟨fun _ _ _ h => (by cases h), fun err' h => ?_⟩
    cases h
    obtain ⟨herr, hno⟩ := herr err hrem
    refine ⟨herr, fun ⟨n, k, hn, hk, heq, _⟩ => hno ⟨n, k, hn, hk, heq⟩⟩
  | ok r =>
    obtain ⟨s₁, e₁⟩ := r
    obtain ⟨hval₁, hpos₁, hle₁, hge₁⟩ := hok s₁ e₁ hrem
    obtain ⟨hval₂, hpos₂, hle₂, hge₂, hsub⟩ := addZeros_spec (smax_eq hsb) hpos₁ hle₁ hge₁
    show (∀ sign fe fs, packFloat c fp _ (addZeros fp s₁ e₁).1 (addZeros fp s₁ e₁).2 = _ → _) ∧
      ∀ err, packFloat c fp _ (addZeros fp s₁ e₁).1 (addZeros fp s₁ e₁).2 = _ → _
    obtain ⟨hpack, hrefuse⟩ := @packFloat_spec _ c hsb heb (decide (s < 0)) _ _ hpos₂ hle₂
      hge₂ hsub
    rw [hval₂, hval₁] at hpack hrefuse
    constructor
    · intro sign fe fs h
      obtain ⟨rfl, hfields, hdec⟩ := hpack _ _ _ h
      exact ⟨hfields, hdec.trans (signed_abs s e)⟩
    · intro err h
      obtain ⟨herr, hbig⟩ := hrefuse err h
      exact ⟨herr, fun ⟨_, _, _, _, _, hlt⟩ => absurd hlt (not_lt.mpr hbig)⟩

end Check

/-- One half, with three exponent bits and two significand bits. -/
theorem compute_float_exact_half :
    decode ⟨3, 2⟩ false 2 0 = RealValue.toField ℚ ⟨1, -1, 0⟩ := by
  have hrem : removeZeros ⟨.rLitUnk, ⟨1, -1, 0⟩⟩ ⟨3, 2⟩ 1 (-1) = .ok (1, -1) := by
    rw [removeZeros, if_neg (by decide)]
  have hadd : addZeros ⟨3, 2⟩ 1 (-1) = (2, -2) := by
    rw [addZeros, if_pos (by decide), addZeros, if_neg (by decide)]
    rfl
  have hrun : computeFloat ⟨.rLitUnk, ⟨1, -1, 0⟩⟩ ⟨3, 2⟩ = .ok (false, 2, 0) := by
    show (removeZeros ⟨.rLitUnk, ⟨1, -1, 0⟩⟩ ⟨3, 2⟩ 1 (-1) >>= _) = _
    rw [hrem]
    show packFloat _ _ _ (addZeros ⟨3, 2⟩ 1 (-1)).1 (addZeros ⟨3, 2⟩ 1 (-1)).2 = _
    rw [hadd]
    rfl
  exact ((@compute_float_exact ⟨.rLitUnk, ⟨1, -1, 0⟩⟩ ⟨3, 2⟩
    (.inr (by decide)) rfl).1 false 2 0 hrun).2

end Why3.Number
