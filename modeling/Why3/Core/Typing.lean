import Why3.Core.PatternMatch

/-!
# Well-typed terms

What the smart constructors of `core/term.ml` check: `pat_app`, `pat_or` and
`pat_as` for patterns, `t_app`, `t_if`, `t_let`, `t_case`, `t_eps` and
`t_quant` for terms.  Every term of the source is built through them.
-/

namespace Why3

mutual
/-- A pattern binds no variable twice, and the two sides of an or-pattern bind
the same ones. -/
def Pattern.Linear : Pattern → Prop
  | .pwild _ | .pvar _ => True
  | .papp _ pl _ => (pl.flatMap Pattern.patVars).Nodup ∧ Pattern.LinearList pl
  | .por p q => p.Linear ∧ q.Linear ∧ ∀ v, v ∈ p.patVars ↔ v ∈ q.patVars
  | .pas p v => p.Linear ∧ v ∉ p.patVars
def Pattern.LinearList : List Pattern → Prop
  | [] => True
  | p :: pl => p.Linear ∧ Pattern.LinearList pl
end

attribute [grind =] Pattern.Linear Pattern.LinearList

@[simp] theorem Pattern.linearList_iff (pl : List Pattern) :
    Pattern.LinearList pl ↔ ∀ p ∈ pl, p.Linear := by
  induction pl with
  | nil => simp [Pattern.LinearList]
  | cons p pl ih => simp [Pattern.LinearList, ih]

/-- `ls_app_inst`: the symbol takes terms of the types `tys` to a term of type
`ty` (a formula when `ty` is `none`). -/
def LSymbol.Takes (s : LSymbol) (tys : List (Option Ty)) (ty : Option Ty) : Prop :=
  ∃ m : Mtv, tys = s.lsArgs.map (fun a => some (a.inst m)) ∧ ty = s.lsValue.map (Ty.inst m)

theorem LSymbol.Takes.length {s : LSymbol} {tys : List (Option Ty)} {ty : Option Ty}
    (h : s.Takes tys ty) : tys.length = s.lsArgs.length := by
  obtain ⟨m, rfl, _⟩ := h
  rw [List.length_map]

namespace Term

variable (sig : TySymbol → List LSymbol)

mutual
def Wt : Term → Prop
  | .tvar _ _ | .tconst _ _ _ | .ttrue _ | .tfalse _ => True
  | .tapp _ s tl ty => s.Takes (tl.map tTy) ty ∧ WtList tl
  | .tif _ f t1 t2 => f.tTy = none ∧ t1.tTy = t2.tTy ∧ f.Wt ∧ t1.Wt ∧ t2.Wt
  | .tlet _ t v e => t.tTy = some v.vsTy ∧ t.Wt ∧ e.Wt
  | .tcase a t bl => bl ≠ [] ∧ t.Wt ∧ WtBranches t.tTy (Term.tcase a t bl).tTy bl
  | .teps _ _ f => f.tTy = none ∧ f.Wt
  | .tquant _ _ _ trl f => f.tTy = none ∧ WtTriggers trl ∧ f.Wt
  | .tbinop _ _ f g => f.tTy = none ∧ g.tTy = none ∧ f.Wt ∧ g.Wt
  | .tnot _ f => f.tTy = none ∧ f.Wt
def WtList : List Term → Prop
  | [] => True
  | t :: tl => t.Wt ∧ WtList tl
/-- Branches for a term of type `ty`, with bodies of type `ty'`. -/
def WtBranches (ty ty' : Option Ty) : List (Pattern × Term) → Prop
  | [] => True
  | (p, e) :: bl => some p.patTy = ty ∧ p.Ok sig ∧ p.Linear ∧ e.tTy = ty' ∧ e.Wt ∧
      WtBranches ty ty' bl
def WtTriggers : List (List Term) → Prop
  | [] => True
  | tr :: trl => WtList tr ∧ WtTriggers trl
end

attribute [grind =] Wt WtList WtBranches WtTriggers

@[simp] theorem wtList_iff (tl : List Term) : WtList sig tl ↔ ∀ t ∈ tl, t.Wt sig := by
  induction tl with
  | nil => simp [WtList]
  | cons t tl ih => simp [WtList, ih]

@[simp] theorem wtBranches_iff (ty ty' : Option Ty) (bl : List (Pattern × Term)) :
    WtBranches sig ty ty' bl ↔ ∀ b ∈ bl, some b.1.patTy = ty ∧ b.1.Ok sig ∧ b.1.Linear ∧
      b.2.tTy = ty' ∧ b.2.Wt sig := by
  induction bl with
  | nil => simp [WtBranches]
  | cons b bl ih =>
    rcases b with ⟨p, e⟩
    simp [WtBranches, ih, and_assoc]

@[simp] theorem wtTriggers_iff (trl : List (List Term)) :
    WtTriggers sig trl ↔ ∀ tr ∈ trl, ∀ t ∈ tr, t.Wt sig := by
  induction trl with
  | nil => simp [WtTriggers]
  | cons tr trl ih => simp [WtTriggers, ih]

end Term

end Why3
