import Mathlib.Data.Int.Log
import Mathlib.Data.Rat.Floor
import Mathlib.Data.List.DropRight
import Mathlib.Tactic

/-!
# Decimal text of a rational number

The conversion `%g` of `printf`: a number is rounded to `p` significant digits,
written with a decimal point or with an exponent, without trailing zeros.  A
floating-point number is a rational number here, and the rounding is exact, with
ties to even.
-/

namespace Decimal

open List Int

variable {k : ℤ}

/-- The nearest integer, ties to even. -/
def roundHalfEven (x : ℚ) : ℤ :=
  if x - ⌊x⌋ < 1 / 2 then ⌊x⌋
  else if 1 / 2 < x - ⌊x⌋ then ⌊x⌋ + 1
  else if ⌊x⌋ % 2 = 0 then ⌊x⌋
  else ⌊x⌋ + 1

theorem floor_le_roundHalfEven (x : ℚ) : ⌊x⌋ ≤ roundHalfEven x := by
  rw [roundHalfEven]
  split_ifs <;> omega

theorem le_roundHalfEven {x : ℚ} (h : (k : ℚ) ≤ x) : k ≤ roundHalfEven x :=
  (Int.le_floor.mpr h).trans (floor_le_roundHalfEven x)

theorem roundHalfEven_le {x : ℚ} (h : x ≤ k) : roundHalfEven x ≤ k := by
  have hfl : ⌊x⌋ ≤ k := by
    have := floor_le_floor h
    rwa [floor_intCast] at this
  rcases hfl.eq_or_lt with heq | hlt
  · -- no fraction is left above an integer
    have hx : x - ⌊x⌋ < 1 / 2 := by
      have h1 : x ≤ (⌊x⌋ : ℚ) := by rwa [heq]
      linarith
    rw [roundHalfEven, if_pos hx]
    exact heq.le
  · rw [roundHalfEven]
    split_ifs <;> omega

/-- The first `p` digits, and the exponent of the first of them.  The rounding may
carry to one digit more. -/
def significand (p : ℕ) (q : ℚ) : ℕ × ℤ :=
  let x := Int.log 10 q
  let m := (roundHalfEven (q * 10 ^ ((p : ℤ) - 1 - x))).toNat
  if m = 10 ^ p then (10 ^ (p - 1), x + 1) else (m, x)

/-- The number rounded to `p` significant digits. -/
def rounded (p : ℕ) (q : ℚ) : ℚ :=
  (significand p q).1 * 10 ^ ((significand p q).2 - ((p : ℤ) - 1))

/-! ## Text -/

def padded (d n : ℕ) : List Char :=
  replicate (d - (Nat.toDigits 10 n).length) '0' ++ Nat.toDigits 10 n

/-- A fraction loses its trailing zeros, and the point goes with the last digit. -/
def withFraction (int frac : List Char) : List Char :=
  if frac.rdropWhile (· = '0') = [] then int else int ++ '.' :: frac.rdropWhile (· = '0')

def exponent (x : ℤ) : List Char :=
  'e' :: (if x < 0 then '-' else '+') :: padded 2 x.natAbs

def formatPos (p : ℕ) (q : ℚ) : List Char :=
  let (m, x) := significand p q
  if -4 ≤ x ∧ x < p then
    let d := ((p : ℤ) - 1 - x).toNat
    withFraction (Nat.toDigits 10 (m / 10 ^ d)) (padded d (m % 10 ^ d))
  else
    withFraction (Nat.toDigits 10 (m / 10 ^ (p - 1))) (padded (p - 1) (m % 10 ^ (p - 1)))
      ++ exponent x

/-- The conversion `%.pg`. -/
def formatG (p : ℕ) (q : ℚ) : List Char :=
  if q < 0 then '-' :: formatPos p (-q) else formatPos p q

/-- The integer at the head of the text. -/
def leading (p : ℕ) (q : ℚ) : ℕ :=
  let (m, x) := significand p q
  if -4 ≤ x ∧ x < p then m / 10 ^ ((p : ℤ) - 1 - x).toNat else m / 10 ^ (p - 1)

/-! ## The significand -/

section Bounds

variable {p : ℕ} {q : ℚ}

theorem zpow_pred_eq (hp : 0 < p) : (10 : ℚ) ^ ((p : ℤ) - 1) = ((10 ^ (p - 1) : ℕ) : ℚ) := by
  rw [show (p : ℤ) - 1 = ((p - 1 : ℕ) : ℤ) by omega, zpow_natCast]
  push_cast
  rfl

theorem scaled_bounds (hq : 0 < q) :
    (10 : ℚ) ^ ((p : ℤ) - 1) ≤ q * 10 ^ ((p : ℤ) - 1 - Int.log 10 q) ∧
    q * 10 ^ ((p : ℤ) - 1 - Int.log 10 q) ≤ (10 : ℚ) ^ (p : ℤ) := by
  have h10 : (10 : ℚ) ≠ 0 := by norm_num
  have hpos : (0 : ℚ) < 10 ^ ((p : ℤ) - 1 - Int.log 10 q) := zpow_pos (by norm_num) _
  have hlow : (10 : ℚ) ^ Int.log 10 q ≤ q := by
    exact_mod_cast zpow_log_le_self (b := 10) (by norm_num) hq
  have hhigh : q < (10 : ℚ) ^ (Int.log 10 q + 1) := by
    exact_mod_cast lt_zpow_succ_log_self (b := 10) (by norm_num) q
  constructor
  · calc (10 : ℚ) ^ ((p : ℤ) - 1)
        = 10 ^ Int.log 10 q * 10 ^ ((p : ℤ) - 1 - Int.log 10 q) := by
          rw [← zpow_add₀ h10]
          congr 1
          ring
      _ ≤ _ := mul_le_mul_of_nonneg_right hlow hpos.le
  · calc q * 10 ^ ((p : ℤ) - 1 - Int.log 10 q)
        ≤ 10 ^ (Int.log 10 q + 1) * 10 ^ ((p : ℤ) - 1 - Int.log 10 q) :=
          mul_le_mul_of_nonneg_right hhigh.le hpos.le
      _ = _ := by
        rw [← zpow_add₀ h10]
        congr 1
        ring

/-- The digits before the carry. -/
theorem mantissa_bounds (hp : 0 < p) (hq : 0 < q) :
    10 ^ (p - 1) ≤ (roundHalfEven (q * 10 ^ ((p : ℤ) - 1 - Int.log 10 q))).toNat ∧
    (roundHalfEven (q * 10 ^ ((p : ℤ) - 1 - Int.log 10 q))).toNat ≤ 10 ^ p := by
  obtain ⟨hlow, hhigh⟩ := scaled_bounds (p := p) hq
  have h1 : ((10 ^ (p - 1) : ℕ) : ℤ) ≤ roundHalfEven (q * 10 ^ ((p : ℤ) - 1 - Int.log 10 q)) := by
    apply le_roundHalfEven
    rw [zpow_pred_eq hp] at hlow
    rwa [cast_natCast]
  have h2 : roundHalfEven (q * 10 ^ ((p : ℤ) - 1 - Int.log 10 q)) ≤ ((10 ^ p : ℕ) : ℤ) := by
    apply roundHalfEven_le
    rw [zpow_natCast] at hhigh
    rw [cast_natCast]
    exact_mod_cast hhigh
  exact ⟨by omega, Int.toNat_le.mpr h2⟩

theorem significand_bounds (hp : 0 < p) (hq : 0 < q) :
    10 ^ (p - 1) ≤ (significand p q).1 ∧ (significand p q).1 < 10 ^ p := by
  obtain ⟨hlow, hhigh⟩ := mantissa_bounds hp hq
  rw [significand]
  split_ifs with hm
  · exact ⟨le_refl _, Nat.pow_lt_pow_right (by norm_num) (by omega)⟩
  · exact ⟨hlow, lt_of_le_of_ne hhigh hm⟩

/-- The carry does not change the number. -/
theorem rounded_eq (hp : 0 < p) (hq : 0 < q) :
    rounded p q = (roundHalfEven (q * 10 ^ ((p : ℤ) - 1 - Int.log 10 q)) : ℚ)
      * 10 ^ (Int.log 10 q - ((p : ℤ) - 1)) := by
  have hlow := (mantissa_bounds hp hq).1
  set k := roundHalfEven (q * 10 ^ ((p : ℤ) - 1 - Int.log 10 q)) with hk
  have hpos : 0 < 10 ^ (p - 1) := Nat.pow_pos (by norm_num)
  have hcast : ((k.toNat : ℕ) : ℚ) = (k : ℚ) := by
    have : ((k.toNat : ℕ) : ℤ) = k := toNat_of_nonneg (by omega)
    exact_mod_cast this
  rw [rounded, significand, ← hk]
  split_ifs with hm
  · dsimp only
    have hsucc : (10 : ℚ) ^ p = 10 * 10 ^ (p - 1) := by
      rw [← pow_succ']
      congr 1
      omega
    rw [← hcast, hm]
    push_cast
    rw [hsucc, show Int.log 10 q + 1 - ((p : ℤ) - 1) = Int.log 10 q - ((p : ℤ) - 1) + 1 by ring,
      zpow_add_one₀ (by norm_num)]
    ring
  · dsimp only
    rw [hcast]

theorem rounded_bounds (hp : 0 < p) (hq : 0 < q) :
    (10 : ℚ) ^ (significand p q).2 ≤ rounded p q ∧
    rounded p q < (10 : ℚ) ^ ((significand p q).2 + 1) := by
  obtain ⟨hlow, hhigh⟩ := significand_bounds hp hq
  have h10 : (10 : ℚ) ≠ 0 := by norm_num
  have hpos : (0 : ℚ) < 10 ^ ((significand p q).2 - ((p : ℤ) - 1)) := zpow_pos (by norm_num) _
  have hl : (10 : ℚ) ^ ((p : ℤ) - 1) ≤ (significand p q).1 := by
    rw [zpow_pred_eq hp]
    exact_mod_cast hlow
  have hh : ((significand p q).1 : ℚ) < 10 ^ (p : ℤ) := by
    rw [zpow_natCast]
    exact_mod_cast hhigh
  rw [rounded]
  constructor
  · calc (10 : ℚ) ^ (significand p q).2
        = 10 ^ ((p : ℤ) - 1) * 10 ^ ((significand p q).2 - ((p : ℤ) - 1)) := by
          rw [← zpow_add₀ h10]
          congr 1
          ring
      _ ≤ _ := mul_le_mul_of_nonneg_right hl hpos.le
  · calc ((significand p q).1 : ℚ) * 10 ^ ((significand p q).2 - ((p : ℤ) - 1))
        < 10 ^ (p : ℤ) * 10 ^ ((significand p q).2 - ((p : ℤ) - 1)) :=
          mul_lt_mul_of_pos_right hh hpos
      _ = _ := by
        rw [← zpow_add₀ h10]
        congr 1
        ring

/-- Rounding does not pass an integer that has at most `p` digits. -/
theorem rounded_le {k : ℕ} (hp : 0 < p) (hq : 0 < q) (hk : k < 10 ^ p) (h : q ≤ k) :
    rounded p q ≤ k := by
  have h10 : (10 : ℚ) ≠ 0 := by norm_num
  have hlog : Int.log 10 q < p := by
    have hlt : q < ((10 : ℕ) : ℚ) ^ (p : ℤ) := by
      rw [zpow_natCast]
      exact lt_of_le_of_lt h (by exact_mod_cast hk)
    exact (lt_zpow_iff_log_lt (by norm_num) hq).mp hlt
  obtain ⟨d, hd⟩ : ∃ d : ℕ, (p : ℤ) - 1 - Int.log 10 q = d := ⟨_, (toNat_of_nonneg (by omega)).symm⟩
  have hround : roundHalfEven (q * 10 ^ ((p : ℤ) - 1 - Int.log 10 q)) ≤ ((k * 10 ^ d : ℕ) : ℤ) := by
    apply roundHalfEven_le
    rw [hd, zpow_natCast]
    push_cast
    exact mul_le_mul_of_nonneg_right h (by positivity)
  rw [rounded_eq hp hq, show Int.log 10 q - ((p : ℤ) - 1) = -(d : ℤ) by omega]
  calc (roundHalfEven (q * 10 ^ ((p : ℤ) - 1 - Int.log 10 q)) : ℚ) * 10 ^ (-(d : ℤ))
      ≤ ((k * 10 ^ d : ℕ) : ℚ) * 10 ^ (-(d : ℤ)) := by
        apply mul_le_mul_of_nonneg_right _ (by positivity)
        exact_mod_cast hround
    _ = k := by
      push_cast
      rw [zpow_neg, zpow_natCast, mul_assoc, mul_inv_cancel₀ (pow_ne_zero _ h10), mul_one]

/-- Rounding keeps or raises the exponent. -/
theorem lt_of_significand_lt (hq : 0 < q) (h : (significand p q).2 < k) : q < 10 ^ k := by
  have hlog : Int.log 10 q ≤ (significand p q).2 := by
    rw [significand]
    split_ifs
    · exact le_add_one le_rfl
    · exact le_rfl
  have := (lt_zpow_iff_log_lt (b := 10) (by norm_num) hq).mpr (lt_of_le_of_lt hlog h)
  exact_mod_cast this

/-! ## The leading integer -/

theorem significand_zero : significand p 0 = (0, 0) := by
  have hne : 0 ≠ 10 ^ p := (Nat.pow_pos (by norm_num)).ne
  rw [significand, zero_mul, show roundHalfEven 0 = 0 by norm_num [roundHalfEven],
    log_zero_right, toNat_zero, if_neg hne]

theorem leading_zero : leading p 0 = 0 := by
  rw [leading, significand_zero]
  dsimp only
  rw [Nat.zero_div, Nat.zero_div, ite_self]

theorem rounded_lt_iff (hp : 0 < p) (hq : 0 < q) :
    rounded p q < 10 ^ k ↔ (significand p q).2 < k := by
  obtain ⟨hlow, hhigh⟩ := rounded_bounds hp hq
  constructor
  · intro h
    by_contra hge
    have : (10 : ℚ) ^ k ≤ 10 ^ (significand p q).2 := zpow_le_zpow_right₀ (by norm_num) (by omega)
    linarith
  · intro h
    have : (10 : ℚ) ^ ((significand p q).2 + 1) ≤ 10 ^ k :=
      zpow_le_zpow_right₀ (by norm_num) (by omega)
    linarith

/-- With a decimal point, the integer part of the rounded number is read. -/
theorem leading_eq_floor (hx : -4 ≤ (significand p q).2)
    (hxp : (significand p q).2 < p) : (leading p q : ℤ) = ⌊rounded p q⌋ := by
  obtain ⟨d, hd⟩ : ∃ d : ℕ, (p : ℤ) - 1 - (significand p q).2 = d :=
    ⟨_, (toNat_of_nonneg (by omega)).symm⟩
  have hr : rounded p q = ((significand p q).1 : ℚ) / ((10 ^ d : ℕ) : ℚ) := by
    rw [rounded, show (significand p q).2 - ((p : ℤ) - 1) = -(d : ℤ) by omega, zpow_neg,
      zpow_natCast]
    push_cast
    rfl
  rw [hr, leading]
  dsimp only
  rw [if_pos ⟨hx, hxp⟩, hd, toNat_natCast, Rat.floor_natCast_div_natCast]
  push_cast
  rfl

/-- With an exponent, one digit is read. -/
theorem leading_of_lt (hp : 0 < p) (hq : 0 < q) (hx : (significand p q).2 < -4) :
    1 ≤ leading p q ∧ leading p q < 10 := by
  obtain ⟨hlow, hhigh⟩ := significand_bounds hp hq
  rw [leading]
  dsimp only
  rw [if_neg (by omega)]
  constructor
  · exact (Nat.one_le_div_iff (Nat.pow_pos (by norm_num))).mpr hlow
  · rw [Nat.div_lt_iff_lt_mul (Nat.pow_pos (by norm_num)), ← pow_succ']
    rwa [show p - 1 + 1 = p by omega]

end Bounds

/-! ## The characters of the text -/

theorem withFraction_eq (int frac : List Char) : ∃ t, withFraction int frac = int ++ t ∧
    (∀ c ∈ t.head?, c = '.') ∧ ∀ c ∈ t, c = '.' ∨ c ∈ frac := by
  rw [withFraction]
  split_ifs with h
  · exact ⟨[], (append_nil int).symm, by simp, by simp⟩
  · refine ⟨_, rfl, by simp, ?_⟩
    intro c hc
    rcases mem_cons.mp hc with rfl | hc
    · exact .inl rfl
    · exact .inr (( rdropWhile_prefix _ _).subset hc)

theorem isDigit_of_mem_padded {d n : ℕ} {c : Char} (h : c ∈ padded d n) : c.isDigit := by
  rcases mem_append.mp h with h | h
  · rw [eq_of_mem_replicate h]
    rfl
  · exact Nat.isDigit_of_mem_toDigits (by norm_num) (by norm_num) h

/-- The text starts with the leading integer, which a point or an exponent follows. -/
theorem formatPos_eq (p : ℕ) (q : ℚ) : ∃ t, formatPos p q = Nat.toDigits 10 (leading p q) ++ t ∧
    (∀ c ∈ t.head?, c = '.' ∨ c = 'e') ∧
    ∀ c ∈ t, c.isDigit ∨ c = '.' ∨ c = 'e' ∨ c = '-' ∨ c = '+' := by
  rw [formatPos, leading]
  dsimp only
  split_ifs with h
  · obtain ⟨t, ht, hhead, hmem⟩ := withFraction_eq
      (Nat.toDigits 10 ((significand p q).1 / 10 ^ ((p : ℤ) - 1 - (significand p q).2).toNat))
      (padded ((p : ℤ) - 1 - (significand p q).2).toNat
        ((significand p q).1 % 10 ^ ((p : ℤ) - 1 - (significand p q).2).toNat))
    refine ⟨t, ht, fun c hc => .inl (hhead c hc), ?_⟩
    intro c hc
    rcases hmem c hc with rfl | hc
    · exact .inr (.inl rfl)
    · exact .inl (isDigit_of_mem_padded hc)
  · obtain ⟨t, ht, hhead, hmem⟩ := withFraction_eq
      (Nat.toDigits 10 ((significand p q).1 / 10 ^ (p - 1)))
      (padded (p - 1) ((significand p q).1 % 10 ^ (p - 1)))
    refine ⟨t ++ exponent (significand p q).2, by rw [ht, append_assoc], ?_, ?_⟩
    · intro c hc
      cases t with
      | nil =>
        rw [nil_append, exponent, head?_cons, Option.mem_some_iff] at hc
        exact .inr hc.symm
      | cons b t => exact .inl (hhead c hc)
    · intro c hc
      rcases mem_append.mp hc with hc | hc
      · rcases hmem c hc with rfl | hc
        · exact .inr (.inl rfl)
        · exact .inl (isDigit_of_mem_padded hc)
      · rw [exponent, mem_cons, mem_cons] at hc
        rcases hc with rfl | hc | hc
        · exact .inr (.inr (.inl rfl))
        · split_ifs at hc with hneg
          · exact .inr (.inr (.inr (.inl hc)))
          · exact .inr (.inr (.inr (.inr hc)))
        · exact .inl (isDigit_of_mem_padded hc)

end Decimal
