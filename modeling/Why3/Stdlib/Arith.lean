import Why3.Core.Number

/-!
# Arithmetic of the standard library

Models of the theories of `stdlib/int.mlw` and `stdlib/real.mlw` that the
reduction engine computes with.  The type `int` is the type of the integers and
`real` an ordered field; the symbols of `int.Int`, `int.MinMax` and `real.Real`
have their usual meaning.  The other symbols are only known to satisfy the
axioms of their theory, which leave the division by zero open.
-/

namespace Why3

variable (K : Type) [Field K] [LinearOrder K]

/-- The symbols that are not fixed by the types, and their axioms. -/
structure StdModel where
  /-- `int.EuclideanDivision`. -/
  ediv : ℤ → ℤ → ℤ
  emod : ℤ → ℤ → ℤ
  ediv_mod : ∀ x y, y ≠ 0 → x = y * ediv x y + emod x y
  emod_bound : ∀ x y, y ≠ 0 → 0 ≤ emod x y ∧ emod x y < |y|
  /-- `int.ComputerDivision`. -/
  cdiv : ℤ → ℤ → ℤ
  cmod : ℤ → ℤ → ℤ
  cdiv_mod : ∀ x y, y ≠ 0 → x = y * cdiv x y + cmod x y
  cdiv_bound : ∀ x y, x ≥ 0 ∧ y > 0 → 0 ≤ cdiv x y ∧ cdiv x y ≤ x
  cmod_bound : ∀ x y, y ≠ 0 → -|y| < cmod x y ∧ cmod x y < |y|
  cdiv_sign_pos : ∀ x y, x ≥ 0 ∧ y > 0 → cdiv x y ≥ 0
  cdiv_sign_neg : ∀ x y, x ≤ 0 ∧ y > 0 → cdiv x y ≤ 0
  cmod_sign_pos : ∀ x y, x ≥ 0 ∧ y ≠ 0 → cmod x y ≥ 0
  cmod_sign_neg : ∀ x y, x ≤ 0 ∧ y ≠ 0 → cmod x y ≤ 0
  /-- `real.FromInt`. -/
  fromInt : ℤ → K
  fromInt_zero : fromInt 0 = 0
  fromInt_one : fromInt 1 = 1
  fromInt_add : ∀ x y, fromInt (x + y) = fromInt x + fromInt y
  fromInt_sub : ∀ x y, fromInt (x - y) = fromInt x - fromInt y
  fromInt_mul : ∀ x y, fromInt (x * y) = fromInt x * fromInt y
  fromInt_neg : ∀ x, fromInt (-x) = -fromInt x
  fromInt_monotonic : ∀ x y, x ≤ y → fromInt x ≤ fromInt y
  /-- `real.ExpLog`. -/
  exp : K → K
  exp_zero : exp 0 = 1
  exp_sum : ∀ x y, exp (x + y) = exp x * exp y
  exp_increasing : ∀ x y, x ≤ y → exp x ≤ exp y
  exp_positive : ∀ x, exp x > 0
  exp_inv : ∀ x, exp (-x) = (exp x)⁻¹
  log : K → K
  log_one : log 1 = 0
  log_mul : ∀ x y, x > 0 ∧ y > 0 → log (x * y) = log x + log y
  log_increasing : ∀ x y, 0 < x ∧ x ≤ y → log x ≤ log y
  log_exp : ∀ x, log (exp x) = x
  exp_log : ∀ x, x > 0 → exp (log x) = x
  /-- `real.PowerReal`. -/
  pow : K → K → K
  pow_def : ∀ x y, x > 0 → pow x y = exp (y * log x)

namespace StdModel

variable {K} (M : StdModel K)

/-! ## Divisions -/

/-- Two divisions with rests that are close are the same. -/
theorem div_unique {x y q r q' r' : ℤ} (h : x = y * q + r) (h' : x = y * q' + r')
    (hlt : |r - r'| < |y|) : q = q' ∧ r = r' := by
  have hr : r - r' = 0 := by
    apply Int.eq_zero_of_abs_lt_dvd ?_ hlt
    rw [abs_dvd]
    exact ⟨q' - q, by linarith [mul_sub y q' q]⟩
  have hy : y ≠ 0 := by
    rintro rfl
    simp [hr] at hlt
  have hr' : r = r' := by omega
  refine ⟨mul_left_cancel₀ hy ?_, hr'⟩
  omega

theorem ediv_eq {x y : ℤ} (hy : y ≠ 0) : M.ediv x y = x / y ∧ M.emod x y = x % y := by
  have hb := M.emod_bound x y hy
  have hpos := Int.emod_nonneg x hy
  have hlt : x % y < |y| := Int.emod_lt_abs x hy
  refine div_unique (M.ediv_mod x y hy) (Int.mul_ediv_add_emod x y).symm ?_
  rw [abs_lt]
  omega

theorem cdiv_eq {x y : ℤ} (hy : y ≠ 0) : M.cdiv x y = (BigInt.computerDivMod x y).1 ∧
    M.cmod x y = (BigInt.computerDivMod x y).2 := by
  obtain ⟨heq, hlt, hpos, hneg⟩ := BigInt.computerDivMod_spec (x := x) hy
  have hb := M.cmod_bound x y hy
  refine div_unique (M.cdiv_mod x y hy) heq ?_
  rw [abs_lt] at hlt ⊢
  rcases le_total 0 x with hx | hx
  · have h1 := M.cmod_sign_pos x y ⟨hx, hy⟩
    have h2 := hpos hx
    omega
  · have h1 := M.cmod_sign_neg x y ⟨hx, hy⟩
    have h2 := hneg hx
    omega

/-! ## Powers -/

theorem fromInt_eq (n : ℤ) : M.fromInt n = n := by
  let f : ℤ →+* K :=
    { toFun := M.fromInt
      map_one' := M.fromInt_one
      map_mul' := M.fromInt_mul
      map_zero' := M.fromInt_zero
      map_add' := M.fromInt_add }
  exact eq_intCast f n

theorem exp_nat_mul (x : K) (n : ℕ) : M.exp (n * x) = M.exp x ^ n := by
  induction n with
  | zero => simp [M.exp_zero]
  | succ n ih =>
    have hsucc : ((n + 1 : ℕ) : K) * x = n * x + x := by
      push_cast
      ring
    rw [hsucc, M.exp_sum, ih, pow_succ]

theorem exp_int_mul (x : K) (n : ℤ) : M.exp (n * x) = M.exp x ^ n := by
  cases n with
  | ofNat n => simpa using M.exp_nat_mul x n
  | negSucc n =>
    have hneg : ((Int.negSucc n : ℤ) : K) * x = -((n + 1 : ℕ) * x) := by
      rw [Int.cast_negSucc]
      ring
    rw [hneg, M.exp_inv, M.exp_nat_mul, zpow_negSucc]

/-- A power with an exponent that is an integer. -/
theorem pow_int {x : K} (hx : x > 0) (n : ℤ) : M.pow x n = x ^ n := by
  rw [M.pow_def x n hx, M.exp_int_mul, M.exp_log x hx]

theorem one_pow [IsStrictOrderedRing K] (y : K) : M.pow 1 y = 1 := by
  rw [M.pow_def 1 y one_pos, M.log_one, mul_zero, M.exp_zero]

end StdModel

end Why3
