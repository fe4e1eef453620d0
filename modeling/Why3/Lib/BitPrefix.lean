import Mathlib.Data.Nat.Bitwise
import Mathlib.Tactic

/-!
# Prefixes of bit vectors, from the lowest bit

The operations of little-endian Patricia trees on bit vectors: the lowest bit at
which two vectors differ, the bits below a given one, and the order in which the
lowest bit counts most.
-/

namespace BitPrefix

variable {w : ℕ}

def zeroBit (k m : BitVec w) : Bool := k &&& m == 0

def lowestBit (x : BitVec w) : BitVec w := x &&& -x

def branchingBit (p0 p1 : BitVec w) : BitVec w := lowestBit (p0 ^^^ p1)

def mask (p m : BitVec w) : BitVec w := p &&& (m - 1)

def matchPrefix (bk p m : BitVec w) : Bool := mask bk m == p

/-- The first `i` bits are the same. -/
def Agree (i : ℕ) (x y : BitVec w) : Prop := ∀ j < i, x.getLsbD j = y.getLsbD j

/-- The bits from `i` on are zero. -/
def Low (i : ℕ) (p : BitVec w) : Prop := ∀ j, i ≤ j → p.getLsbD j = false

/-- The bit `i` is the first one at which two vectors differ. -/
structure FirstDiff (i : ℕ) (x y : BitVec w) : Prop where
  lt : i < w
  agree : Agree i x y
  ne : x.getLsbD i ≠ y.getLsbD i

section Agree

variable {i j : ℕ} {x y z : BitVec w}

theorem Agree.symm (h : Agree i x y) : Agree i y x := fun k hk => (h k hk).symm

theorem Agree.trans (h : Agree i x y) (h' : Agree i y z) : Agree i x z :=
  fun k hk => (h k hk).trans (h' k hk)

theorem Agree.mono (h : Agree i x y) (hj : j ≤ i) : Agree j x y := fun k hk => h k (by omega)

theorem agree_self (i : ℕ) (x : BitVec w) : Agree i x x := fun _ _ => rfl

theorem FirstDiff.symm (h : FirstDiff i x y) : FirstDiff i y x :=
  ⟨h.lt, h.agree.symm, h.ne.symm⟩

theorem FirstDiff.unique (h : FirstDiff i x y) (h' : FirstDiff j x y) : i = j := by
  rcases Nat.lt_trichotomy i j with hlt | heq | hlt
  · exact absurd (h'.agree i hlt) h.ne
  · exact heq
  · exact absurd (h.agree j hlt) h'.ne

theorem exists_firstDiff_of_not_agree (h : ¬ Agree i x y) : ∃ j < i, FirstDiff j x y := by
  have hex : ∃ j, j < i ∧ x.getLsbD j ≠ y.getLsbD j := by
    rw [Agree] at h
    push Not at h
    exact h
  classical
  obtain ⟨hlt, hne⟩ := Nat.find_spec hex
  refine ⟨Nat.find hex, hlt, ?_, ?_, hne⟩
  · by_contra hw
    rw [BitVec.getLsbD_of_ge x _ (by omega), BitVec.getLsbD_of_ge y _ (by omega)] at hne
    exact hne rfl
  · intro k hk
    by_contra hk'
    exact Nat.find_min hex hk ⟨by omega, hk'⟩

theorem exists_firstDiff (h : x ≠ y) : ∃ i, FirstDiff i x y := by
  have hna : ¬ Agree w x y := fun hag => h (BitVec.eq_of_getLsbD_eq (fun j hj => hag j hj))
  obtain ⟨i, _, hi⟩ := exists_firstDiff_of_not_agree hna
  exact ⟨i, hi⟩

theorem FirstDiff.not_agree (h : FirstDiff i x y) (hj : i < j) : ¬ Agree j x y :=
  fun hag => h.ne (hag i hj)

theorem Low.eq_of_agree (hx : Low i x) (hy : Low i y) (h : Agree i x y) : x = y := by
  refine BitVec.eq_of_getLsbD_eq (fun j _ => ?_)
  by_cases hj : j < i
  · exact h j hj
  · rw [hx j (by omega), hy j (by omega)]

end Agree

/-! ## The operations, bit by bit -/

section Bits

variable {i : ℕ} {x y p : BitVec w}

theorem getLsbD_lowestBit (x : BitVec w) (i : ℕ) :
    (lowestBit x).getLsbD i = (x.getLsbD i && !decide (∃ j < i, x.getLsbD j = true)) := by
  rw [lowestBit, BitVec.getLsbD_and, BitVec.getLsbD_neg]
  by_cases hi : i < w
  · simp only [hi, decide_true, Bool.true_and]
    cases x.getLsbD i <;> simp
  · rw [BitVec.getLsbD_of_ge x i (by omega)]
    simp

theorem branchingBit_eq (h : FirstDiff i x y) : branchingBit x y = BitVec.twoPow w i := by
  have hxor : ∀ j, (x ^^^ y).getLsbD j = true ↔ x.getLsbD j ≠ y.getLsbD j := by
    intro j
    rw [BitVec.getLsbD_xor]
    cases x.getLsbD j <;> cases y.getLsbD j <;> simp
  refine BitVec.eq_of_getLsbD_eq (fun j hj => ?_)
  rw [branchingBit, getLsbD_lowestBit, BitVec.getLsbD_twoPow, Bool.eq_iff_iff]
  simp only [Bool.and_eq_true, hxor, Bool.not_eq_true', decide_eq_false_iff_not, decide_eq_true_eq,
    not_exists, not_and, ne_eq, not_not]
  constructor
  · rintro ⟨hne, hag⟩
    exact ⟨h.lt, h.unique ⟨hj, fun k hk => hag k hk, hne⟩⟩
  · rintro ⟨_, rfl⟩
    exact ⟨h.ne, fun k hk => h.agree k hk⟩

theorem zeroBit_twoPow (hi : i < w) : zeroBit x (BitVec.twoPow w i) = !x.getLsbD i := by
  rw [zeroBit, Bool.eq_iff_iff, beq_iff_eq, Bool.not_eq_true']
  constructor
  · intro h
    have hbit := congrArg (fun b => b.getLsbD i) h
    simpa [BitVec.getLsbD_twoPow, hi] using hbit
  · intro h
    refine BitVec.eq_of_getLsbD_eq (fun j _ => ?_)
    rw [BitVec.getLsbD_and, BitVec.getLsbD_twoPow]
    by_cases hij : i = j
    · subst hij
      simp [h]
    · simp [hij]

theorem getLsbD_mask (hi : i < w) (j : ℕ) :
    (mask x (BitVec.twoPow w i)).getLsbD j = (x.getLsbD j && decide (j < i)) := by
  have hpow : BitVec.twoPow w i - 1 = BitVec.ofNat w (2 ^ i - 1) := by
    refine BitVec.eq_of_toNat_eq ?_
    have hlt : 2 ^ i < 2 ^ w := Nat.pow_lt_pow_right (by omega) hi
    have hpos : 0 < 2 ^ i := Nat.two_pow_pos i
    have hone : (1 : BitVec w).toNat = 1 := by
      rw [show (1 : BitVec w) = 1#w from rfl, BitVec.toNat_ofNat]
      exact Nat.mod_eq_of_lt (Nat.one_lt_two_pow (by omega))
    rw [BitVec.toNat_sub, hone, BitVec.toNat_twoPow, BitVec.toNat_ofNat, Nat.mod_eq_of_lt hlt,
      Nat.mod_eq_of_lt (by omega : 2 ^ i - 1 < 2 ^ w), show 2 ^ w - 1 + 2 ^ i = 2 ^ w + (2 ^ i - 1) by
        omega, Nat.add_mod_left, Nat.mod_eq_of_lt (by omega)]
  rw [mask, BitVec.getLsbD_and, hpow, BitVec.getLsbD_ofNat, Nat.testBit_two_pow_sub_one]
  by_cases hj : j < w
  · simp [hj]
  · rw [BitVec.getLsbD_of_ge x j (by omega)]
    simp

theorem low_mask (hi : i < w) : Low i (mask x (BitVec.twoPow w i)) := by
  intro j hj
  rw [getLsbD_mask hi]
  simp [hj]

theorem agree_mask (hi : i < w) : Agree i (mask x (BitVec.twoPow w i)) x := by
  intro j hj
  rw [getLsbD_mask hi]
  simp [hj]

theorem matchPrefix_twoPow (hi : i < w) (hp : Low i p) :
    matchPrefix x p (BitVec.twoPow w i) = true ↔ Agree i x p := by
  rw [matchPrefix, beq_iff_eq]
  constructor
  · rintro rfl
    exact (agree_mask hi).symm
  · intro h
    exact (low_mask hi).eq_of_agree hp ((agree_mask hi).trans h)

end Bits

/-! ## The order -/

section Order

variable {i : ℕ} {x y : BitVec w}

/-- The place of a vector when the lowest bit counts most. -/
def rank (x : BitVec w) : ℕ := x.reverse.toNat

theorem rank_injective : Function.Injective (rank : BitVec w → ℕ) := by
  intro x y h
  have hrev := BitVec.eq_of_toNat_eq h
  rw [← BitVec.reverse_reverse_eq (x := x), hrev, BitVec.reverse_reverse_eq]

/-- The first different bit decides. -/
theorem rank_lt (h : FirstDiff i x y) (hx : x.getLsbD i = false) : rank x < rank y := by
  have hrev : ∀ (z : BitVec w) (j : ℕ), (rank z).testBit j =
      (decide (j < w) && z.getLsbD (w - 1 - j)) := by
    intro z j
    rw [rank, BitVec.testBit_toNat, BitVec.getLsbD_reverse, BitVec.getMsbD_eq_getLsbD]
  have hlt := h.lt
  have hy : y.getLsbD i = true := by
    have := h.ne
    rw [hx] at this
    simpa using this.symm
  have hi : w - 1 - (w - 1 - i) = i := by omega
  refine Nat.lt_of_testBit (w - 1 - i) ?_ ?_ ?_
  · rw [hrev, hi, hx, Bool.and_false]
  · rw [hrev, hi, hy]
    simp
    omega
  · intro j hj
    rw [hrev, hrev]
    by_cases hjw : j < w
    · rw [h.agree (w - 1 - j) (by omega)]
    · simp [hjw]

/-- The bits of a signed number, the sign first: smaller numbers come first. -/
def signedKey (x : BitVec w) : BitVec w := (x ^^^ BitVec.intMin w).reverse

theorem getLsbD_signedKey (hi : i < w) :
    (signedKey x).getLsbD i = (x.getMsbD i ^^ decide (i = 0)) := by
  rw [signedKey, BitVec.getLsbD_reverse, BitVec.getMsbD_xor, BitVec.getMsbD_intMin]
  simp [show 0 < w by omega]

theorem signedKey_injective : Function.Injective (signedKey : BitVec w → BitVec w) := by
  intro x y h
  have hxor : x ^^^ BitVec.intMin w = y ^^^ BitVec.intMin w := by
    rw [← BitVec.reverse_reverse_eq (x := x ^^^ BitVec.intMin w)]
    exact (congrArg BitVec.reverse h).trans BitVec.reverse_reverse_eq
  have h' := congrArg (· ^^^ BitVec.intMin w) hxor
  simpa [BitVec.xor_assoc] using h'

theorem toInt_lt (h : FirstDiff i (signedKey x) (signedKey y))
    (hx : (signedKey x).getLsbD i = false) : x.toInt < y.toInt := by
  have hlt := h.lt
  have hy : (signedKey y).getLsbD i = true := by
    have hne := h.ne
    rw [hx] at hne
    simpa using hne.symm
  rw [getLsbD_signedKey hlt] at hx hy
  rw [BitVec.toInt_eq_msb_cond, BitVec.toInt_eq_msb_cond]
  have hxw := x.isLt
  have hyw := y.isLt
  by_cases h0 : i = 0
  · -- the signs differ
    subst h0
    have hxm : x.msb = true := by rw [BitVec.msb]; simpa using hx
    have hym : y.msb = false := by rw [BitVec.msb]; simpa using hy
    rw [hxm, hym]
    simp only [if_true, Bool.false_eq_true, if_false]
    omega
  · have hmsb : x.msb = y.msb := by
      have h0' := h.agree 0 (by omega)
      rw [getLsbD_signedKey (by omega), getLsbD_signedKey (by omega)] at h0'
      rw [BitVec.msb, BitVec.msb]
      simpa using h0'
    have hnat : x.toNat < y.toNat := by
      refine Nat.lt_of_testBit (w - 1 - i) ?_ ?_ ?_
      · rw [BitVec.testBit_toNat]
        simpa [h0, BitVec.getMsbD_eq_getLsbD, hlt] using hx
      · rw [BitVec.testBit_toNat]
        simpa [h0, BitVec.getMsbD_eq_getLsbD, hlt] using hy
      · intro j hj
        rw [BitVec.testBit_toNat, BitVec.testBit_toNat]
        by_cases hjw : j < w
        · have hag := h.agree (w - 1 - j) (by omega)
          rw [getLsbD_signedKey (by omega), getLsbD_signedKey (by omega),
            BitVec.getMsbD_eq_getLsbD, BitVec.getMsbD_eq_getLsbD,
            show w - 1 - (w - 1 - j) = j by omega] at hag
          simpa [show w - 1 - j < w by omega] using hag
        · rw [BitVec.getLsbD_of_ge x j (by omega), BitVec.getLsbD_of_ge y j (by omega)]
    rw [hmsb]
    split <;> omega

end Order

end BitPrefix

/-!
# Reversing bits by swaps

A vector is reversed by swapping neighbouring bits, then neighbouring groups of
2, 4 and more bits, each time with a mask that selects every other group.
-/

namespace BitReversal

variable {w : ℕ}

/-- One swap of neighbouring groups of `s` bits; `M` selects the even ones. -/
def swapBits (s : ℕ) (M x : BitVec w) : BitVec w := ((x &&& M) <<< s) ||| ((x >>> s) &&& M)

/-- Where the bit at `i` comes from. -/
def swapIdx (s i : ℕ) : ℕ := if i / s % 2 = 0 then s + i else i - s

/-- The bits of `M` are the even groups of `s` bits below `n`, and their
neighbours are below `n`. -/
structure EvenGroups (n s : ℕ) (M : BitVec w) : Prop where
  mask : ∀ i < w, M.getLsbD i = decide (i < n ∧ i / s % 2 = 0)
  odd : ∀ i < w, (s ≤ i ∧ i - s < n ∧ (i - s) / s % 2 = 0) ↔ (i < n ∧ i / s % 2 = 1)

theorem getLsbD_swapBits {n s : ℕ} {M : BitVec w} (hM : EvenGroups n s M) (x : BitVec w) {i : ℕ}
    (hi : i < w) : (swapBits s M x).getLsbD i = (decide (i < n) && x.getLsbD (swapIdx s i)) := by
  have hodd := hM.odd i hi
  have hleft : (!decide (i < s) && (x.getLsbD (i - s) && decide (i - s < n ∧ (i - s) / s % 2 = 0))) =
      (x.getLsbD (i - s) && decide (i < n ∧ i / s % 2 = 1)) := by
    rw [show decide (i < n ∧ i / s % 2 = 1) = decide (s ≤ i ∧ i - s < n ∧ (i - s) / s % 2 = 0) from
      decide_eq_decide.mpr hodd.symm]
    by_cases hs : s ≤ i
    · simp [hs]
    · simp [hs, Nat.lt_of_not_le hs]
  rw [swapBits, BitVec.getLsbD_or, BitVec.getLsbD_shiftLeft, BitVec.getLsbD_and, BitVec.getLsbD_and,
    BitVec.getLsbD_ushiftRight, hM.mask (i - s) (by omega), hM.mask i hi, decide_eq_true hi,
    Bool.true_and, hleft, swapIdx]
  by_cases hn : i < n
  · rcases Nat.mod_two_eq_zero_or_one (i / s) with h | h
    · simp [hn, h]
    · simp [hn, h]
  · simp [hn]

theorem getLsbD_swaps {n : ℕ} {M₁ M₂ M₄ : BitVec w} (hn : n ≤ w) (h₁ : EvenGroups n 1 M₁)
    (h₂ : EvenGroups n 2 M₂) (h₄ : EvenGroups n 4 M₄)
    (hidx : ∀ i < n, swapIdx 4 i < n ∧ swapIdx 2 (swapIdx 4 i) < n) (x : BitVec w) {i : ℕ}
    (hi : i < w) : (swapBits 4 M₄ (swapBits 2 M₂ (swapBits 1 M₁ x))).getLsbD i =
      (decide (i < n) && x.getLsbD (swapIdx 1 (swapIdx 2 (swapIdx 4 i)))) := by
  rw [getLsbD_swapBits h₄ _ hi]
  by_cases hin : i < n
  · obtain ⟨hi4, hi2⟩ := hidx i hin
    rw [getLsbD_swapBits h₂ _ (by omega), getLsbD_swapBits h₁ _ (by omega), decide_eq_true hi4,
      decide_eq_true hi2, Bool.true_and, Bool.true_and]
  · simp [hin]

end BitReversal
