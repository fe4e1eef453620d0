import Why3.Core.Task
import Why3.Core.TermSimp

/-!
# Dequantification

The function `dequantify` of `transform/introduction.ml`, which takes the quantifiers out
of a formula.

The source opens a binder before it looks below, and keeps the bound variable of each
opened one.  Here the variables are renamed to fresh ones on the way, by the map `m`, and
the operands are visited from left to right.
-/

namespace Why3

namespace Introduction

open PropKind

/-- `t_map_sign` fails with `polarity`, `Mid.add_new` with `clash` and `Hvs.find` with
`notFound`. -/
inductive IntroExn
  | fmlaExpected (f : Term)
  | polarity
  | clash
  | notFound
  | decl (e : DeclExn)
  | task (e : TaskExn)

/-! ## Formulas -/

/-- The next free tag and `ht`: the opened variables with the bound ones, the last first. -/
structure Opened where
  next : ℕ
  ht : List (VSymbol × VSymbol)

/-- `t_open_quant`, and `Hvs.replace ht` for each variable. -/
def Opened.openVars (st : Opened) (vl : List VSymbol) : Opened :=
  ⟨st.next + vl.length, ((freshen st.next vl).zip vl).reverse ++ st.ht⟩

/-- The quantifiers that are opened. -/
def opens (pos : Bool) : Quant → Bool
  | .tforall => pos
  | .texists => !pos

/-- `Tiff` in `t_map_sign`. -/
def iffSign (pos : Bool) (f1p f1n f2p f2n : Term) : Term :=
  if tEqual f1p f1n && tEqual f2p f2n then .tbinop [] .tiff f1p f2p
  else if pos then
    .tbinop [] .tand (.tbinop [] .timplies f1n f2p) (.tbinop [] .timplies f2n f1p)
  else .tbinop [] .timplies (.tbinop [] .tor f1n f2n) (.tbinop [] .tand f1p f2p)

/-- `Tif` in `t_map_sign`. -/
def ifSign (pos : Bool) (f1p f1n f2 f3 : Term) : Term :=
  if tEqual f1p f1n then .tif [] f1p f2 f3
  else if pos then
    .tbinop [] .tand (.tbinop [] .timplies f1n f2) (.tbinop [] .timplies (.tnot [] f1p) f3)
  else .tbinop [] .tor (.tbinop [] .tand f1p f2) (.tbinop [] .tand (.tnot [] f1n) f3)

/-- The equation of a let, before its body. -/
def letSign (pos : Bool) : Term → Term → Term := if pos then tImpliesSimp else tAndSimp

mutual
/-- `dequantify ht pos`. -/
def dequantify (m : Mvs) (pos : Bool) (st : Opened) : Term → Except IntroExn (Term × Opened)
  | .tlet a t v e => do
    let (e', st') ← dequantify (m.bind st.next [v]) pos (st.openVars [v]) e
    if e'.tTy.isSome then .error (.fmlaExpected e')
    else
      .ok (tAttrCopy (.tlet a t v e)
        (letSign pos (tEqu (.tvar [] ⟨st.next, v.vsTy⟩) (t.subst st.next m)) e'), st')
  | .tquant a q vl trl f =>
    if opens pos q then do
      let (f', st') ← dequantify (m.bind st.next vl) pos (st.openVars vl) f
      .ok (tAttrCopy (.tquant a q vl trl f) f', st')
    else .ok ((Term.tquant a q vl trl f).subst st.next m, st)
  | .tif a f t1 t2 =>
    if t2.tTy.isSome then .error .polarity
    else do
      let (fp, st) ← dequantify m pos st f
      let (fn, st) ← dequantify m (!pos) st f
      let (t1', st) ← dequantify m pos st t1
      let (t2', st) ← dequantify m pos st t2
      .ok (tAttrCopy (.tif a f t1 t2) (ifSign pos fp fn t1' t2'), st)
  | .tcase a t bl => do
    let (t', st) ← dequantify m pos st t
    let (bl', st) ← dequantifyBranches m pos st bl
    .ok (.tcase a t' bl', st)
  | .tbinop a .timplies f g => do
    let (f', st) ← dequantify m (!pos) st f
    let (g', st) ← dequantify m pos st g
    .ok (.tbinop a .timplies f' g', st)
  | .tbinop a .tiff f g => do
    let (fp, st) ← dequantify m pos st f
    let (fn, st) ← dequantify m (!pos) st f
    let (gp, st) ← dequantify m pos st g
    let (gn, st) ← dequantify m (!pos) st g
    .ok (tAttrCopy (.tbinop a .tiff f g) (iffSign pos fp fn gp gn), st)
  | .tbinop a op f g => do
    let (f', st) ← dequantify m pos st f
    let (g', st) ← dequantify m pos st g
    .ok (.tbinop a op f' g', st)
  | .tnot a f => do
    let (f', st) ← dequantify m (!pos) st f
    .ok (.tnot a f', st)
  | .tvar a v => .ok ((Term.tvar a v).subst st.next m, st)
  | .tconst a c ty => .ok (.tconst a c ty, st)
  | .tapp a s tl ty => .ok ((Term.tapp a s tl ty).subst st.next m, st)
  | .teps a v f => .ok ((Term.teps a v f).subst st.next m, st)
  | .ttrue a => .ok (.ttrue a, st)
  | .tfalse a => .ok (.tfalse a, st)
def dequantifyBranches (m : Mvs) (pos : Bool) (st : Opened) :
    List (Pattern × Term) → Except IntroExn (List (Pattern × Term) × Opened)
  | [] => .ok ([], st)
  | (p, e) :: bl => do
    -- the variables of the pattern are renamed and stay bound
    let m' := m.bind st.next p.patVars
    let (e', st) ← dequantify m' pos ⟨st.next + p.patVars.length, st.ht⟩ e
    let (bl', st) ← dequantifyBranches m pos st bl
    .ok ((p.rename m'.var, e') :: bl', st)
end

attribute [grind =] dequantify dequantifyBranches

end Introduction

end Why3
