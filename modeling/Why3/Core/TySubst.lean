import Why3.Core.Subst

/-!
# Substitution of types and terms

`t_ty_subst` of `core/term.ml`: the types of a term are instantiated and its free
variables replaced.  A free variable that is not replaced and whose type changes becomes
a variable of the new type, with its tag.
-/

namespace Why3

/-- The map under a binder of `vl`, whose types are instantiated. -/
def Mvs.bindTy (tsb : Mtv) (k : ℕ) (m : Mvs) : List VSymbol → Mvs
  | [] => m
  | v :: vl => Mvs.bindTy tsb (k + 1) ((v, .tvar [] ⟨k, v.vsTy.inst tsb⟩) :: m) vl

/-- Fresh variables from the tag `k` on, with the instantiated types. -/
def freshenTy (tsb : Mtv) (k : ℕ) (vl : List VSymbol) : List VSymbol :=
  freshen k (vl.map (fun v => { v with vsTy := v.vsTy.inst tsb }))

mutual
/-- `pat_gen_map`. -/
def Pattern.instTy (tsb : Mtv) (m : Mvs) : Pattern → Pattern
  | .pwild ty => .pwild (ty.inst tsb)
  | .pvar v => .pvar (m.var v)
  | .papp s pl ty => .papp s (Pattern.instTyList tsb m pl) (ty.inst tsb)
  | .por p q => .por (p.instTy tsb m) (q.instTy tsb m)
  | .pas p v => .pas (p.instTy tsb m) (m.var v)
def Pattern.instTyList (tsb : Mtv) (m : Mvs) : List Pattern → List Pattern
  | [] => []
  | p :: pl => p.instTy tsb m :: Pattern.instTyList tsb m pl
end

attribute [grind =] Pattern.instTy Pattern.instTyList

namespace Term

mutual
/-- `t_gen_map` for the types and `t_subst_unsafe` for the variables, in one pass. -/
def instTy (tsb : Mtv) (k : ℕ) (m : Mvs) : Term → Term
  | .tvar a v =>
    match m.lookup v with
    | some t => tAttrCopy (.tvar a v) t
    | none => .tvar a { v with vsTy := v.vsTy.inst tsb }
  | .tconst a c ty => .tconst a c (ty.inst tsb)
  | .tapp a s tl ty => .tapp a s (instTyList tsb k m tl) (ty.map (Ty.inst tsb))
  | .tif a f t1 t2 => .tif a (f.instTy tsb k m) (t1.instTy tsb k m) (t2.instTy tsb k m)
  | .tlet a t v e =>
    .tlet a (t.instTy tsb k m) ⟨k, v.vsTy.inst tsb⟩ (e.instTy tsb (k + 1) (m.bindTy tsb k [v]))
  | .tcase a t bl => .tcase a (t.instTy tsb k m) (instTyBranches tsb k m bl)
  | .teps a v f => .teps a ⟨k, v.vsTy.inst tsb⟩ (f.instTy tsb (k + 1) (m.bindTy tsb k [v]))
  | .tquant a q vl trl f =>
    .tquant a q (freshenTy tsb k vl)
      (instTyTriggers tsb (k + vl.length) (m.bindTy tsb k vl) trl)
      (f.instTy tsb (k + vl.length) (m.bindTy tsb k vl))
  | .tbinop a op f g => .tbinop a op (f.instTy tsb k m) (g.instTy tsb k m)
  | .tnot a f => .tnot a (f.instTy tsb k m)
  | .ttrue a => .ttrue a
  | .tfalse a => .tfalse a
def instTyList (tsb : Mtv) (k : ℕ) (m : Mvs) : List Term → List Term
  | [] => []
  | t :: tl => t.instTy tsb k m :: instTyList tsb k m tl
def instTyBranches (tsb : Mtv) (k : ℕ) (m : Mvs) :
    List (Pattern × Term) → List (Pattern × Term)
  | [] => []
  | (p, e) :: bl =>
    (p.instTy tsb (m.bindTy tsb k p.patVars),
      e.instTy tsb (k + p.patVars.length) (m.bindTy tsb k p.patVars)) ::
      instTyBranches tsb k m bl
def instTyTriggers (tsb : Mtv) (k : ℕ) (m : Mvs) : List (List Term) → List (List Term)
  | [] => []
  | tr :: trl => instTyList tsb k m tr :: instTyTriggers tsb k m trl
end

attribute [grind =] instTy instTyList instTyBranches instTyTriggers

end Term

end Why3
