import Why3.Core.Replace

/-!
# The standard integers

An interpretation in which the values of the type of the integers are the integers, with
their literals and their order.
-/

namespace Why3

variable {sig : TySymbol → List LSymbol}

namespace PolyInterp

/-- The closed type of the integers. -/
def intTy (M : PolyInterp sig) : M.U := M.app tsInt []

/-- The integers are the standard ones, for the symbols of `<=` and `<`. -/
structure StandardInts (leInt ltInt : LSymbol) (M : PolyInterp sig) (P : M.Preds) where
  toInt : M.Val → ℤ
  inj : ∀ {d d'}, M.mem M.intTy d → M.mem M.intTy d' → toInt d = toInt d' → d = d'
  surj : ∀ n, ∃ d, M.mem M.intTy d ∧ toInt d = n
  const : ∀ kind n, toInt (M.const (.constInt kind n) M.intTy) = n
  le : ∀ {d d'}, M.mem M.intTy d → M.mem M.intTy d' →
    (P leInt [some M.intTy, some M.intTy] [d, d'] ↔ toInt d ≤ toInt d')
  lt : ∀ {d d'}, M.mem M.intTy d → M.mem M.intTy d' →
    (P ltInt [some M.intTy, some M.intTy] [d, d'] ↔ toInt d < toInt d')

variable {leInt ltInt : LSymbol} {M : PolyInterp sig} {P : M.Preds}

/-- The values of constants do not matter. -/
def StandardInts.withConsts (S : StandardInts leInt ltInt M P) (C : M.Consts) :
    StandardInts leInt ltInt (M.withConsts C) P where
  toInt := S.toInt
  inj := S.inj
  surj := S.surj
  const := S.const
  le := S.le
  lt := S.lt

end PolyInterp

/-- The goal of the task holds in all models of its declarations over the standard integers. -/
def Task.ValidInt (sig : TySymbol → List LSymbol) (leInt ltInt : LSymbol) (t : Task) : Prop :=
  ∃ pr f, t.findGoal = some (pr, f) ∧ ∀ (M : PolyInterp sig) (P : M.Preds),
    Nonempty (M.StandardInts leInt ltInt P) → (∀ d ∈ Task.declsOf t.tdecls, d.Sat M P) → M.Valid P f

end Why3
