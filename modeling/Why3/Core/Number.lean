import Why3.Core.Term
import Mathlib.Algebra.Order.Field.Basic
import Mathlib.Algebra.Order.Field.Power
import Mathlib.Tactic.FieldSimp
import Mathlib.Tactic.Ring
import Mathlib.Tactic.Positivity

/-!
# Literals

The integer divisions of `util/bigInt.ml` and the real values of
`util/number.ml`: an integer times powers of two and of five, with all factors
two and five moved into the powers.
-/

namespace Why3

/-! ## Integers -/

namespace BigInt

/-- `computer_div_mod`, from the Euclidean division; both raise `Division_by_zero`
for the divisor zero. -/
def computerDivMod (x y : ℤ) : ℤ × ℤ :=
  let (q, r) := (x / y, x % y)
  if 0 ≤ x ∨ r = 0 then (q, r)
  else if y < 0 then (q - 1, r + y)
  else (q + 1, r - y)

variable {x y : ℤ}

/-- The division is exact, and its rest has the sign of the dividend. -/
theorem computerDivMod_spec (hy : y ≠ 0) :
    x = y * (computerDivMod x y).1 + (computerDivMod x y).2 ∧
      |(computerDivMod x y).2| < |y| ∧ (0 ≤ x → 0 ≤ (computerDivMod x y).2) ∧
      (x ≤ 0 → (computerDivMod x y).2 ≤ 0) := by
  have hdiv := Int.mul_ediv_add_emod x y
  have hpos := Int.emod_nonneg x hy
  have hlt : x % y < |y| := Int.emod_lt_abs x hy
  simp only [computerDivMod]
  split_ifs with hx hneg
  · refine ⟨hdiv.symm, ?_, fun _ => hpos, fun hx0 => ?_⟩
    · rwa [abs_of_nonneg hpos]
    · rcases hx with hx | hr
      · obtain rfl : x = 0 := le_antisymm hx0 hx
        simp
      · exact hr.le
  · have hx' : x < 0 ∧ x % y ≠ 0 := by
      push Not at hx
      exact hx
    rw [abs_of_neg hneg] at hlt ⊢
    refine ⟨by linarith [mul_sub y (x / y) 1], ?_, fun h => absurd h (not_le.mpr hx'.1), fun _ => ?_⟩
    · rw [abs_lt]
      omega
    · omega
  · have hx' : x < 0 ∧ x % y ≠ 0 := by
      push Not at hx
      exact hx
    have hy0 : 0 < y := by omega
    rw [abs_of_pos hy0] at hlt ⊢
    refine ⟨by linarith [mul_add y (x / y) 1], ?_, fun h => absurd h (not_le.mpr hx'.1), fun _ => ?_⟩
    · rw [abs_lt]
      omega
    · omega

theorem computerDivMod_zero (x : ℤ) (hy : y ≠ 0) (h : (computerDivMod x y).2 = 0) :
    x = y * (computerDivMod x y).1 := by
  have := (computerDivMod_spec (x := x) hy).1
  rw [h, add_zero] at this
  exact this

theorem rest_of_dvd (hy : y ≠ 0) (h : y ∣ x) : (computerDivMod x y).2 = 0 := by
  obtain ⟨heq, hlt, -⟩ := computerDivMod_spec (x := x) hy
  apply Int.eq_zero_of_abs_lt_dvd ?_ hlt
  rw [abs_dvd]
  exact (Int.dvd_add_right (Dvd.intro _ rfl)).mp (heq ▸ h)

end BigInt

/-! ## Real values -/

namespace Number

open BigInt

/-- `normalize`: the powers of `p` are moved out of `v`, where `p` stands for the
power `e` of the base.  It is called for `v` other than zero and a base from two
on, and does not return for zero. -/
def normalize (v p e : ℤ) : ℤ × ℤ :=
  if (computerDivMod v p).2 = 0 ∧ v ≠ 0 ∧ 2 ≤ p then
    let e2 := e + e
    let vf := normalize (computerDivMod v p).1 (p * p) e2
    if (computerDivMod vf.1 p).2 = 0 then ((computerDivMod vf.1 p).1, vf.2 + e2)
    else (vf.1, vf.2 + e)
  else (v, 0)
termination_by v.natAbs
decreasing_by
  rename_i h
  obtain ⟨hm, hv, hp⟩ := h
  have hmul := computerDivMod_zero v (by omega) hm
  generalize (computerDivMod v p).1 = d at hmul
  subst hmul
  have hd : d ≠ 0 := by
    rintro rfl
    exact hv (mul_zero p)
  rw [Int.natAbs_mul]
  have h1 : 0 < d.natAbs := Int.natAbs_pos.mpr hd
  have h2 : 2 ≤ p.natAbs := by omega
  nlinarith

/-- The factors that are moved out, and those that remain. -/
theorem normalize_spec {b : ℤ} (hb : 2 ≤ b) {v : ℤ} : v ≠ 0 → ∀ {k : ℕ}, 1 ≤ k →
    ∃ n : ℕ, (normalize v (b ^ k) k).2 = n ∧ v = (normalize v (b ^ k) k).1 * b ^ n ∧
      ¬ b ^ k ∣ (normalize v (b ^ k) k).1 := by
  induction hn : v.natAbs using Nat.strong_induction_on generalizing v with
  | _ n ih =>
    intro hv k hk
    have hp : 2 ≤ b ^ k := le_trans hb (le_self_pow₀ (by omega) (by omega))
    have hp0 : b ^ k ≠ 0 := by omega
    rw [normalize]
    by_cases hm : (computerDivMod v (b ^ k)).2 = 0
    · rw [if_pos ⟨hm, hv, hp⟩]
      have hmul := computerDivMod_zero v hp0 hm
      generalize (computerDivMod v (b ^ k)).1 = d at hmul ⊢
      have hd : d ≠ 0 := by
        rintro rfl
        exact hv (by rw [hmul, mul_zero])
      have hlt : d.natAbs < n := by
        rw [← hn, hmul, Int.natAbs_mul]
        have h1 : 0 < d.natAbs := Int.natAbs_pos.mpr hd
        have h2 : 2 ≤ (b ^ k).natAbs := by omega
        nlinarith
      have hkk : ((k : ℤ) + k) = ((k + k : ℕ) : ℤ) := by push_cast; rfl
      obtain ⟨m, hf, hvf, hndvd⟩ := ih d.natAbs hlt rfl hd (show 1 ≤ k + k by omega)
      dsimp only
      rw [← pow_add, hkk]
      generalize normalize d (b ^ (k + k)) ((k + k : ℕ) : ℤ) = vf at hf hvf hndvd ⊢
      split_ifs with hm'
      · have hmul' := computerDivMod_zero vf.1 hp0 hm'
        generalize (computerDivMod vf.1 (b ^ k)).1 = d' at hmul' ⊢
        refine ⟨m + (k + k), by rw [hf]; push_cast; rfl, ?_, fun ⟨c, hc⟩ => hndvd ⟨c, ?_⟩⟩
        · rw [hmul, hvf, hmul', pow_add, pow_add]
          ring
        · rw [hmul', hc, pow_add]
          ring
      · refine ⟨m + k, by rw [hf]; push_cast; rfl, ?_, fun hdvd => hm' (rest_of_dvd hp0 hdvd)⟩
        rw [hmul, hvf, pow_add]
        ring
    · rw [if_neg (fun h => hm h.1)]
      exact ⟨0, rfl, by simp, fun hdvd => hm (rest_of_dvd hp0 hdvd)⟩

/-- `real_value`. -/
def realValue (pow2 pow5 i : ℤ) : RealValue :=
  if i = 0 then ⟨0, 0, 0⟩
  else
    let (i, p2) := normalize i 2 1
    let (i, p5) := normalize i 5 1
    ⟨i, pow2 + p2, pow5 + p5⟩

end Number

/-! ## Values in a field -/

section Field

variable (K : Type) [Field K] [LinearOrder K] [IsStrictOrderedRing K]

/-- The number that a real value stands for. -/
def RealValue.toField (r : RealValue) : K := r.rvSig * 2 ^ r.rvPow2 * 5 ^ r.rvPow5

namespace Number

theorem toField_realValue (pow2 pow5 i : ℤ) :
    (realValue pow2 pow5 i).toField K = i * 2 ^ pow2 * 5 ^ pow5 := by
  unfold realValue
  split_ifs with hi
  · simp [RealValue.toField, hi]
  · obtain ⟨n, h2, hn, -⟩ := normalize_spec (b := 2) le_rfl hi le_rfl
    rw [pow_one, Nat.cast_one] at h2 hn
    have hi' : (normalize i 2 1).1 ≠ 0 := by
      intro h0
      rw [h0, zero_mul] at hn
      exact hi hn
    obtain ⟨m, h5, hm, -⟩ := normalize_spec (b := 5) (by norm_num) hi' le_rfl
    rw [pow_one, Nat.cast_one] at h5 hm
    have hcast2 : (i : K) = (normalize i 2 1).1 * 2 ^ n := by exact_mod_cast hn
    have hcast5 : ((normalize i 2 1).1 : K) = (normalize (normalize i 2 1).1 5 1).1 * 5 ^ m := by
      exact_mod_cast hm
    simp only [RealValue.toField]
    rw [h2, h5, zpow_add₀ two_ne_zero, zpow_add₀ (by norm_num), zpow_natCast, zpow_natCast, hcast2,
      hcast5]
    ring

end Number

theorem RealValue.toField_align {r : RealValue} {pow2 pow5 : ℤ} (h2 : pow2 ≤ r.rvPow2)
    (h5 : pow5 ≤ r.rvPow5) :
    ((r.rvSig * 2 ^ (r.rvPow2 - pow2).toNat * 5 ^ (r.rvPow5 - pow5).toNat : ℤ) : K) *
      2 ^ pow2 * 5 ^ pow5 = r.toField K := by
  have e2 : (2 : K) ^ r.rvPow2 = 2 ^ (r.rvPow2 - pow2).toNat * 2 ^ pow2 := by
    rw [← zpow_natCast, ← zpow_add₀ two_ne_zero, Int.toNat_of_nonneg (by omega), sub_add_cancel]
  have e5 : (5 : K) ^ r.rvPow5 = 5 ^ (r.rvPow5 - pow5).toNat * 5 ^ pow5 := by
    rw [← zpow_natCast, ← zpow_add₀ (by norm_num), Int.toNat_of_nonneg (by omega), sub_add_cancel]
  rw [RealValue.toField, e2, e5]
  push_cast
  ring

end Field

end Why3
