import Why3.Core.Ty

/-!
# Patterns and terms

The syntax of `core/term.ml`.  A binder of the source is closed (its body is
kept under a deferred substitution) and every `t_open_*` renames the bound
variables to fresh ones.  Here a binder carries the variables it binds and its
body, so that opening it gives these very variables back: two terms that
differ only in the names of their bound variables stand for the same term of
the source.

The type of a node is stored where the source cannot recompute it (constants
and applications) and computed by `Term.tTy` elsewhere.  Locations are left
out.
-/

namespace Why3

open List

structure VSymbol where
  vsName : ℕ
  vsTy : Ty
deriving DecidableEq

structure LSymbol where
  lsName : ℕ
  lsArgs : List Ty
  lsValue : Option Ty
  lsConstr : ℕ
  lsProj : Bool
deriving DecidableEq

/-! ## Patterns -/

inductive Pattern : Type
  | pwild (ty : Ty)
  | pvar (v : VSymbol)
  | papp (s : LSymbol) (pl : List Pattern) (ty : Ty)
  | por (p q : Pattern)
  | pas (p : Pattern) (v : VSymbol)

namespace Pattern

@[induction_eliminator]
theorem induct {motive : Pattern → Prop} (pwild : ∀ ty, motive (.pwild ty))
    (pvar : ∀ v, motive (.pvar v))
    (papp : ∀ s pl ty, (∀ p ∈ pl, motive p) → motive (.papp s pl ty))
    (por : ∀ p q, motive p → motive q → motive (.por p q))
    (pas : ∀ p v, motive p → motive (.pas p v)) : ∀ p, motive p :=
  @Pattern.rec motive (fun l => ∀ p ∈ l, motive p) pwild pvar
    (fun s pl ty h => papp s pl ty h) por pas
    (fun _ h => by cases h)
    (fun p l hp hl q hq => by
      rcases mem_cons.mp hq with rfl | hq
      · exact hp
      · exact hl q hq)

/-- `pat_ty`. -/
def patTy : Pattern → Ty
  | .pwild ty => ty
  | .pvar v => v.vsTy
  | .papp _ _ ty => ty
  | .por p _ => p.patTy
  | .pas _ v => v.vsTy

mutual
/-- `pat_vars`, as the list of the variables from left to right; the two sides
of an or-pattern bind the same variables, and the left ones are listed. -/
def patVars : Pattern → List VSymbol
  | .pwild _ => []
  | .pvar v => [v]
  | .papp _ pl _ => patVarsList pl
  | .por p _ => p.patVars
  | .pas p v => v :: p.patVars
def patVarsList : List Pattern → List VSymbol
  | [] => []
  | p :: pl => p.patVars ++ patVarsList pl
end

attribute [grind =] patVars patVarsList

@[simp] theorem patVarsList_eq (pl : List Pattern) :
    patVarsList pl = pl.flatMap patVars := by
  induction pl with
  | nil => rfl
  | cons p pl ih => simp [patVarsList, ih]

mutual
/-- The types that `pat_gen_fold` visits. -/
def types : Pattern → List Ty
  | .pwild ty => [ty]
  | .pvar v => [v.vsTy]
  | .papp _ pl ty => ty :: typesList pl
  | .por p q => p.types ++ q.types
  | .pas p v => v.vsTy :: p.types
def typesList : List Pattern → List Ty
  | [] => []
  | p :: pl => p.types ++ typesList pl
end

attribute [grind =] types typesList

theorem typesList_eq (pl : List Pattern) : typesList pl = pl.flatMap types := by
  induction pl with
  | nil => rfl
  | cons p pl ih => simp [typesList, ih]

mutual
/-- The constructors of a pattern. -/
def symbols : Pattern → List LSymbol
  | .pwild _ | .pvar _ => []
  | .papp s pl _ => s :: symbolsList pl
  | .por p q => p.symbols ++ q.symbols
  | .pas p _ => p.symbols
def symbolsList : List Pattern → List LSymbol
  | [] => []
  | p :: pl => p.symbols ++ symbolsList pl
end

attribute [grind =] symbols symbolsList

end Pattern

/-! ## Terms -/

/-- `Number.int_literal_kind`. -/
inductive IntLiteralKind
  | iLitUnk | iLitDec | iLitHex | iLitOct | iLitBin
deriving DecidableEq

/-- `Number.real_literal_kind`. -/
inductive RealLiteralKind
  | rLitUnk | rLitDec (e : ℤ) | rLitHex (e : ℤ)
deriving DecidableEq

/-- `Number.real_value`: the rational `rvSig * 2 ^ rvPow2 * 5 ^ rvPow5`. -/
structure RealValue where
  rvSig : ℤ
  rvPow2 : ℤ
  rvPow5 : ℤ
deriving DecidableEq

/-- `Constant.constant`; a string of the source is a list of bytes. -/
inductive Constant
  | constInt (ilKind : IntLiteralKind) (ilInt : ℤ)
  | constReal (rlKind : RealLiteralKind) (rlReal : RealValue)
  | constStr (s : List UInt8)
deriving DecidableEq

inductive Quant
  | tforall | texists
deriving DecidableEq

inductive Binop
  | tand | tor | timplies | tiff
deriving DecidableEq

/-- `Sattr.t`; an attribute is identified with its string. -/
abbrev Sattr := List String

inductive Term : Type
  | tvar (a : Sattr) (v : VSymbol)
  | tconst (a : Sattr) (c : Constant) (ty : Ty)
  | tapp (a : Sattr) (s : LSymbol) (tl : List Term) (ty : Option Ty)
  | tif (a : Sattr) (f t1 t2 : Term)
  | tlet (a : Sattr) (t : Term) (v : VSymbol) (e : Term)
  | tcase (a : Sattr) (t : Term) (bl : List (Pattern × Term))
  | teps (a : Sattr) (v : VSymbol) (f : Term)
  | tquant (a : Sattr) (q : Quant) (vl : List VSymbol) (trl : List (List Term)) (f : Term)
  | tbinop (a : Sattr) (op : Binop) (f g : Term)
  | tnot (a : Sattr) (f : Term)
  | ttrue (a : Sattr)
  | tfalse (a : Sattr)

namespace Term

@[induction_eliminator]
theorem induct {motive : Term → Prop} (tvar : ∀ a v, motive (.tvar a v))
    (tconst : ∀ a c ty, motive (.tconst a c ty))
    (tapp : ∀ a s tl ty, (∀ t ∈ tl, motive t) → motive (.tapp a s tl ty))
    (tif : ∀ a f t1 t2, motive f → motive t1 → motive t2 → motive (.tif a f t1 t2))
    (tlet : ∀ a t v e, motive t → motive e → motive (.tlet a t v e))
    (tcase : ∀ a t bl, motive t → (∀ b ∈ bl, motive b.2) → motive (.tcase a t bl))
    (teps : ∀ a v f, motive f → motive (.teps a v f))
    (tquant : ∀ a q vl trl f, (∀ tr ∈ trl, ∀ t ∈ tr, motive t) → motive f →
      motive (.tquant a q vl trl f))
    (tbinop : ∀ a op f g, motive f → motive g → motive (.tbinop a op f g))
    (tnot : ∀ a f, motive f → motive (.tnot a f))
    (ttrue : ∀ a, motive (.ttrue a)) (tfalse : ∀ a, motive (.tfalse a)) :
    ∀ t, motive t :=
  @Term.rec motive (fun l => ∀ t ∈ l, motive t) (fun bl => ∀ b ∈ bl, motive b.2)
    (fun trl => ∀ tr ∈ trl, ∀ t ∈ tr, motive t) (fun b => motive b.2)
    tvar tconst (fun a s tl ty h => tapp a s tl ty h) tif tlet
    (fun a t bl ht hbl => tcase a t bl ht hbl) teps
    (fun a q vl trl f htr hf => tquant a q vl trl f htr hf) tbinop tnot ttrue tfalse
    (fun _ h => by cases h)
    (fun t l ht hl u hu => by
      rcases mem_cons.mp hu with rfl | hu
      · exact ht
      · exact hl u hu)
    (fun _ h => by cases h)
    (fun b l hb hl c hc => by
      rcases mem_cons.mp hc with rfl | hc
      · exact hb
      · exact hl c hc)
    (fun _ h => by cases h)
    (fun tr l htr hl tr' htr' => by
      rcases mem_cons.mp htr' with rfl | htr'
      · exact htr
      · exact hl tr' htr')
    (fun _ _ h => h)

/-- `t_attrs`. -/
def tAttrs : Term → Sattr
  | .tvar a _ | .tconst a _ _ | .tapp a _ _ _ | .tif a _ _ _ | .tlet a _ _ _
  | .tcase a _ _ | .teps a _ _ | .tquant a _ _ _ _ | .tbinop a _ _ _ | .tnot a _
  | .ttrue a | .tfalse a => a

/-- `t_ty`: the type of a term, and `none` for a formula. -/
def tTy : Term → Option Ty
  | .tvar _ v => some v.vsTy
  | .tconst _ _ ty => some ty
  | .tapp _ _ _ ty => ty
  | .tif _ _ _ t2 => t2.tTy
  | .tlet _ _ _ e => e.tTy
  | .tcase _ _ bl => tTyBranches bl
  | .teps _ v _ => some v.vsTy
  | .tquant .. | .tbinop .. | .tnot .. | .ttrue _ | .tfalse _ => none
where
  tTyBranches : List (Pattern × Term) → Option Ty
    | [] => none
    | (_, t) :: _ => t.tTy

mutual
/-- The free variables, with repetitions (the domain of `t_vars`, and those of
the triggers, which `t_close_quant` counts too). -/
def freeVars : Term → List VSymbol
  | .tvar _ v => [v]
  | .tconst _ _ _ | .ttrue _ | .tfalse _ => []
  | .tapp _ _ tl _ => freeVarsList tl
  | .tif _ f t1 t2 => f.freeVars ++ t1.freeVars ++ t2.freeVars
  | .tlet _ t v e => t.freeVars ++ e.freeVars.filter (· ≠ v)
  | .tcase _ t bl => t.freeVars ++ freeVarsBranches bl
  | .teps _ v f => f.freeVars.filter (· ≠ v)
  | .tquant _ _ vl trl f => (freeVarsTriggers trl ++ f.freeVars).filter (· ∉ vl)
  | .tbinop _ _ f g => f.freeVars ++ g.freeVars
  | .tnot _ f => f.freeVars
def freeVarsList : List Term → List VSymbol
  | [] => []
  | t :: tl => t.freeVars ++ freeVarsList tl
def freeVarsBranches : List (Pattern × Term) → List VSymbol
  | [] => []
  | (p, t) :: bl => t.freeVars.filter (· ∉ p.patVars) ++ freeVarsBranches bl
def freeVarsTriggers : List (List Term) → List VSymbol
  | [] => []
  | tr :: trl => freeVarsList tr ++ freeVarsTriggers trl
end

attribute [grind =] freeVars freeVarsList freeVarsBranches freeVarsTriggers

@[simp] theorem freeVarsList_eq (tl : List Term) : freeVarsList tl = tl.flatMap freeVars := by
  induction tl with
  | nil => rfl
  | cons t tl ih => simp [freeVarsList, ih]

@[simp] theorem freeVarsBranches_eq (bl : List (Pattern × Term)) :
    freeVarsBranches bl = bl.flatMap (fun b => b.2.freeVars.filter (· ∉ b.1.patVars)) := by
  induction bl with
  | nil => rfl
  | cons b bl ih => simp [freeVarsBranches, ih]

@[simp] theorem freeVarsTriggers_eq (trl : List (List Term)) :
    freeVarsTriggers trl = trl.flatMap (fun tr => tr.flatMap freeVars) := by
  induction trl with
  | nil => rfl
  | cons tr trl ih => simp [freeVarsTriggers, ih]

mutual
/-- The types that `t_gen_fold` visits. -/
def types : Term → List Ty
  | .tvar _ v => [v.vsTy]
  | .tconst _ _ ty => [ty]
  | .tapp _ _ tl ty => ty.toList ++ typesList tl
  | .tif _ f t1 t2 => t2.tTy.toList ++ f.types ++ t1.types ++ t2.types
  | .tlet _ t _ e => e.tTy.toList ++ t.types ++ e.types
  | .tcase a t bl => (Term.tcase a t bl).tTy.toList ++ t.types ++ typesBranches bl
  | .teps _ v f => v.vsTy :: f.types
  | .tquant _ _ vl trl f => vl.map VSymbol.vsTy ++ typesTriggers trl ++ f.types
  | .tbinop _ _ f g => f.types ++ g.types
  | .tnot _ f => f.types
  | .ttrue _ | .tfalse _ => []
def typesList : List Term → List Ty
  | [] => []
  | t :: tl => t.types ++ typesList tl
def typesBranches : List (Pattern × Term) → List Ty
  | [] => []
  | (p, t) :: bl => p.types ++ t.types ++ typesBranches bl
def typesTriggers : List (List Term) → List Ty
  | [] => []
  | tr :: trl => typesList tr ++ typesTriggers trl
end

attribute [grind =] types typesList typesBranches typesTriggers

theorem typesList_eq (tl : List Term) : typesList tl = tl.flatMap types := by
  induction tl with
  | nil => rfl
  | cons t tl ih => simp [typesList, ih]

theorem typesBranches_eq (bl : List (Pattern × Term)) :
    typesBranches bl = bl.flatMap (fun b => b.1.types ++ b.2.types) := by
  induction bl with
  | nil => rfl
  | cons b bl ih => simp [typesBranches, ih]

theorem typesTriggers_eq (trl : List (List Term)) :
    typesTriggers trl = trl.flatMap (fun tr => tr.flatMap types) := by
  induction trl with
  | nil => rfl
  | cons tr trl ih => simp [typesTriggers, ih, typesList_eq]

theorem mem_types_of_tTy {t : Term} {ty : Ty} (h : t.tTy = some ty) : ty ∈ t.types := by
  cases t <;> simp_all [types, tTy]

mutual
/-- The logic symbols that `t_gen_fold` visits. -/
def symbols : Term → List LSymbol
  | .tvar _ _ | .tconst _ _ _ | .ttrue _ | .tfalse _ => []
  | .tapp _ s tl _ => s :: symbolsList tl
  | .tif _ f t1 t2 => f.symbols ++ t1.symbols ++ t2.symbols
  | .tlet _ t _ e => t.symbols ++ e.symbols
  | .tcase _ t bl => t.symbols ++ symbolsBranches bl
  | .teps _ _ f => f.symbols
  | .tquant _ _ _ trl f => symbolsTriggers trl ++ f.symbols
  | .tbinop _ _ f g => f.symbols ++ g.symbols
  | .tnot _ f => f.symbols
def symbolsList : List Term → List LSymbol
  | [] => []
  | t :: tl => t.symbols ++ symbolsList tl
def symbolsBranches : List (Pattern × Term) → List LSymbol
  | [] => []
  | (p, t) :: bl => p.symbols ++ t.symbols ++ symbolsBranches bl
def symbolsTriggers : List (List Term) → List LSymbol
  | [] => []
  | tr :: trl => symbolsList tr ++ symbolsTriggers trl
end

attribute [grind =] symbols symbolsList symbolsBranches symbolsTriggers

theorem symbolsList_eq (tl : List Term) : symbolsList tl = tl.flatMap symbols := by
  induction tl with
  | nil => rfl
  | cons t tl ih => simp [symbolsList, ih]

theorem symbolsBranches_eq (bl : List (Pattern × Term)) :
    symbolsBranches bl = bl.flatMap (fun b => b.1.symbols ++ b.2.symbols) := by
  induction bl with
  | nil => rfl
  | cons b bl ih => simp [symbolsBranches, ih]

end Term

/-! ## Attributes -/

/-- `Sattr.union`. -/
def Sattr.union (s1 s2 : Sattr) : Sattr := s1 ++ s2.filter (· ∉ s1)

/-- `t_attr_set`. -/
def Term.setAttrs (a : Sattr) : Term → Term
  | .tvar _ v => .tvar a v
  | .tconst _ c ty => .tconst a c ty
  | .tapp _ s tl ty => .tapp a s tl ty
  | .tif _ f t1 t2 => .tif a f t1 t2
  | .tlet _ t v e => .tlet a t v e
  | .tcase _ t bl => .tcase a t bl
  | .teps _ v f => .teps a v f
  | .tquant _ q vl trl f => .tquant a q vl trl f
  | .tbinop _ op f g => .tbinop a op f g
  | .tnot _ f => .tnot a f
  | .ttrue _ => .ttrue a
  | .tfalse _ => .tfalse a

/-- `t_attr_add`. -/
def tAttrAdd (l : String) (t : Term) : Term := t.setAttrs (Sattr.union t.tAttrs [l])

/-- `t_attr_copy`: the attributes of `s` are added to those of `t`. -/
def tAttrCopy (s t : Term) : Term := t.setAttrs (Sattr.union s.tAttrs t.tAttrs)

/-! ## Built-in symbols -/

/-- `ps_equ`, the polymorphic equality. -/
def psEqu : LSymbol := ⟨8, [.tyvar ⟨7⟩, .tyvar ⟨7⟩], none, 0, false⟩

def tEqu (t1 t2 : Term) : Term := .tapp [] psEqu [t1, t2] none

def fsBoolTrue : LSymbol := ⟨11, [], some tyBool, 2, false⟩
def fsBoolFalse : LSymbol := ⟨12, [], some tyBool, 2, false⟩

def tBoolTrue : Term := .tapp [] fsBoolTrue [] (some tyBool)
def tBoolFalse : Term := .tapp [] fsBoolFalse [] (some tyBool)

/-- `fs_func_app`, the application `(@)` of a mapping. -/
def fsFuncApp : LSymbol :=
  ⟨15, [tyFunc (.tyvar ⟨13⟩) (.tyvar ⟨14⟩), .tyvar ⟨13⟩], some (.tyvar ⟨14⟩), 0, false⟩

/-- `t_func_app`: the type of the result is that of the mapping's results. -/
def tFuncApp (fn t : Term) : Term :=
  .tapp [] fsFuncApp [fn, t]
    (match fn.tTy with
    | some (.tyapp _ [_, b]) => some b
    | _ => none)

/-- `t_func_app_l`. -/
def tFuncAppL (fn : Term) (tl : List Term) : Term := tl.foldl tFuncApp fn

end Why3
