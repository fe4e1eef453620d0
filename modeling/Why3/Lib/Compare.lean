import Mathlib.Order.Defs.LinearOrder
import Mathlib.Tactic

/-!
# Comparison functions

A comparison function returns a negative number, zero or a positive number.  It
is a total order up to an equivalence, on the values that satisfy a predicate,
and such orders compose lexicographically.
-/

namespace Compare

variable {α β : Type}

structure TotalOrder (P : α → Prop) (eqv : α → α → Prop) (cmp : α → α → ℤ) : Prop where
  zero : ∀ ⦃a b⦄, P a → P b → (cmp a b = 0 ↔ eqv a b)
  swap : ∀ ⦃a b⦄, P a → P b → (cmp a b < 0 ↔ 0 < cmp b a)
  trans : ∀ ⦃a b c⦄, P a → P b → P c → cmp a b ≤ 0 → cmp b c ≤ 0 → cmp a c ≤ 0

namespace TotalOrder

variable {P : α → Prop} {e e₁ e₂ : α → α → Prop} {cmp c₁ c₂ : α → α → ℤ}

theorem nonpos_swap (h : TotalOrder P e cmp) {a b : α} (ha : P a) (hb : P b) :
    cmp a b ≤ 0 ↔ 0 ≤ cmp b a := by
  rw [← not_lt, ← not_lt, not_iff_not]
  exact (h.swap hb ha).symm

/-- A step down before or after steps that do not go up goes down. -/
theorem neg_of_neg_of_nonpos (h : TotalOrder P e cmp) {a b c : α} (ha : P a) (hb : P b)
    (hc : P c) (hab : cmp a b < 0) (hbc : cmp b c ≤ 0) : cmp a c < 0 := by
  by_contra hac
  have hca : cmp c a ≤ 0 := (h.nonpos_swap hc ha).mpr (not_lt.mp hac)
  have hba := h.trans hb hc ha hbc hca
  exact absurd ((h.swap ha hb).mp hab) (not_lt.mpr hba)

theorem neg_of_nonpos_of_neg (h : TotalOrder P e cmp) {a b c : α} (ha : P a) (hb : P b)
    (hc : P c) (hab : cmp a b ≤ 0) (hbc : cmp b c < 0) : cmp a c < 0 := by
  by_contra hac
  have hca : cmp c a ≤ 0 := (h.nonpos_swap hc ha).mpr (not_lt.mp hac)
  have hcb := h.trans hc ha hb hca hab
  exact absurd ((h.swap hb hc).mp hbc) (not_lt.mpr hcb)

/-- The second comparison decides where the first gives zero. -/
theorem lex (h₁ : TotalOrder P e₁ c₁) (h₂ : TotalOrder P e₂ c₂) :
    TotalOrder P (fun a b => e₁ a b ∧ e₂ a b)
      (fun a b => if c₁ a b ≠ 0 then c₁ a b else c₂ a b) where
  zero a b ha hb := by
    rw [← h₁.zero ha hb, ← h₂.zero ha hb]
    split_ifs with h <;> simp_all
  swap a b ha hb := by
    have hswap := h₁.swap ha hb
    have hswap' := h₁.swap hb ha
    split_ifs with hab hba hba
    · exact hswap
    · omega
    · omega
    · exact h₂.swap ha hb
  trans a b c ha hb hc hab hbc := by
    have hlt := h₁.neg_of_neg_of_nonpos ha hb hc
    have hlt' := h₁.neg_of_nonpos_of_neg ha hb hc
    have hle := h₁.trans ha hb hc
    split_ifs at hab hbc ⊢ with h h' h' h''
    all_goals first | omega | exact h₂.trans ha hb hc hab hbc

theorem comap {Q : β → Prop} (h : TotalOrder P e cmp) (f : β → α) (hf : ∀ b, Q b → P (f b)) :
    TotalOrder Q (fun a b => e (f a) (f b)) (fun a b => cmp (f a) (f b)) where
  zero _ _ ha hb := h.zero (hf _ ha) (hf _ hb)
  swap _ _ ha hb := h.swap (hf _ ha) (hf _ hb)
  trans _ _ _ ha hb hc := h.trans (hf _ ha) (hf _ hb) (hf _ hc)

/-- The order of the values `f b` is the one of the `b`. -/
theorem image {Q : β → Prop} {e' : β → β → Prop} {cmp' : β → β → ℤ} (h : TotalOrder Q e' cmp')
    (f : β → α) (hP : ∀ a, P a → ∃ b, Q b ∧ f b = a)
    (hcmp : ∀ b b', cmp (f b) (f b') = cmp' b b')
    (he : ∀ b b', Q b → Q b' → (e (f b) (f b') ↔ e' b b')) : TotalOrder P e cmp where
  zero a b ha hb := by
    obtain ⟨a, ha', rfl⟩ := hP a ha
    obtain ⟨b, hb', rfl⟩ := hP b hb
    rw [hcmp, he a b ha' hb']
    exact h.zero ha' hb'
  swap a b ha hb := by
    obtain ⟨a, ha', rfl⟩ := hP a ha
    obtain ⟨b, hb', rfl⟩ := hP b hb
    rw [hcmp, hcmp]
    exact h.swap ha' hb'
  trans a b c ha hb hc := by
    obtain ⟨a, ha', rfl⟩ := hP a ha
    obtain ⟨b, hb', rfl⟩ := hP b hb
    obtain ⟨c, hc', rfl⟩ := hP c hc
    rw [hcmp, hcmp, hcmp]
    exact h.trans ha' hb' hc'

theorem of_subsingleton (h : ∀ a b, P a → P b → a = b) (hz : ∀ a, P a → cmp a a = 0 ∧ e a a) :
    TotalOrder P e cmp where
  zero a b ha hb := by
    obtain rfl := h a b ha hb
    exact iff_of_true (hz a ha).1 (hz a ha).2
  swap a b ha hb := by
    obtain rfl := h a b ha hb
    simp [(hz a ha).1]
  trans a b c ha hb hc hab _ := by
    obtain rfl := h b c hb hc
    exact hab

theorem ranked (rank : α → ℕ) (hlt : ∀ a b, rank a < rank b → cmp a b < 0)
    (hgt : ∀ a b, rank b < rank a → 0 < cmp a b) (he : ∀ a b, e a b → rank a = rank b)
    (h : ∀ n, TotalOrder (fun a => P a ∧ rank a = n) e cmp) : TotalOrder P e cmp where
  zero a b ha hb := by
    by_cases heq : rank a = rank b
    · exact (h (rank b)).zero ⟨ha, heq⟩ ⟨hb, rfl⟩
    · refine iff_of_false ?_ (fun hab => heq (he a b hab))
      rcases Nat.lt_or_gt_of_ne heq with hr | hr
      · exact (hlt a b hr).ne
      · exact (hgt a b hr).ne'
  swap a b ha hb := by
    rcases Nat.lt_trichotomy (rank a) (rank b) with hr | hr | hr
    · exact iff_of_true (hlt a b hr) (hgt b a hr)
    · exact (h (rank b)).swap ⟨ha, hr⟩ ⟨hb, rfl⟩
    · exact iff_of_false (not_lt.mpr (hgt a b hr).le) (not_lt.mpr (hlt b a hr).le)
  trans a b c ha hb hc hab hbc := by
    have hrab : rank a ≤ rank b := by
      by_contra hr
      exact absurd hab (not_le.mpr (hgt a b (not_le.mp hr)))
    have hrbc : rank b ≤ rank c := by
      by_contra hr
      exact absurd hbc (not_le.mpr (hgt b c (not_le.mp hr)))
    by_cases hr : rank a < rank c
    · exact (hlt a c hr).le
    · exact (h (rank a)).trans ⟨ha, rfl⟩ ⟨hb, by omega⟩ ⟨hc, by omega⟩ hab hbc

end TotalOrder

/-- The comparison of a linear order. -/
def cmpOf [LinearOrder α] (x y : α) : ℤ := if x < y then -1 else if x = y then 0 else 1

theorem cmpOf_zero [LinearOrder α] {x y : α} : cmpOf x y = 0 ↔ x = y := by
  rw [cmpOf]
  split_ifs with hlt heq
  · simp [hlt.ne]
  · simp [heq]
  · simp [heq]

theorem cmpOf_neg [LinearOrder α] {x y : α} : cmpOf x y < 0 ↔ x < y := by
  rw [cmpOf]
  split_ifs with hlt heq
  · simp [hlt]
  · simp [heq]
  · simp [hlt]

theorem cmpOf_pos [LinearOrder α] {x y : α} : 0 < cmpOf x y ↔ y < x := by
  rw [cmpOf]
  split_ifs with hlt heq
  · simp [hlt.le]
  · simp [heq]
  · simp [lt_of_le_of_ne (not_lt.mp hlt) (Ne.symm heq)]

theorem cmpOf_nonpos [LinearOrder α] {x y : α} : cmpOf x y ≤ 0 ↔ x ≤ y := by
  rw [← not_lt, cmpOf_pos, not_lt]

theorem totalOrder_cmpOf [LinearOrder α] (P : α → Prop) :
    TotalOrder P (· = ·) (cmpOf : α → α → ℤ) where
  zero _ _ _ _ := cmpOf_zero
  swap _ _ _ _ := cmpOf_neg.trans cmpOf_pos.symm
  trans _ _ _ _ _ _ hab hbc :=
    cmpOf_nonpos.mpr ((cmpOf_nonpos.mp hab).trans (cmpOf_nonpos.mp hbc))

end Compare
