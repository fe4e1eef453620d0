import Why3.Core.TypedTask
import Why3.Transform.CondSubst
import Why3.Transform.Introduction
import Why3.Transform.Trans

/-!
# Elimination of conditional formulas

`eliminate_if_fmla` of `transform/eliminate_if.ml`: a conditional formula is written with the
connectives, as a conjunction or as a disjunction after its polarity.
-/

namespace Why3

open Term

namespace EliminateIfFmla

open CondSubst (tMapOpt)

theorem mem_one (f : Term) : f ∈ [f] := by simp
theorem mem_fst (f g : Term) : f ∈ [f, g] := by simp
theorem mem_snd (f g : Term) : g ∈ [f, g] := by simp
theorem mem_fst₃ (f g h : Term) : f ∈ [f, g, h] := by simp
theorem mem_snd₃ (f g h : Term) : g ∈ [f, g, h] := by simp
theorem mem_thd₃ (f g h : Term) : h ∈ [f, g, h] := by simp

/-- `t_map_sign`; `none` is its failure, where the polarity is not known. -/
def tMapSign (sign : Bool) (f : Term) (fn : Bool → (u : Term) → u ∈ f.children → Option Term) :
    Option Term :=
  match f, fn with
  | .tbinop a .timplies f1 f2, fn => do
    let g1 ← fn (!sign) f1 (mem_fst f1 f2)
    let g2 ← fn sign f2 (mem_snd f1 f2)
    some (tAttrCopy (.tbinop a .timplies f1 f2) (.tbinop [] .timplies g1 g2))
  | .tbinop a .tiff f1 f2, fn => do
    let f1p ← fn sign f1 (mem_fst f1 f2)
    let f1n ← fn (!sign) f1 (mem_fst f1 f2)
    let f2p ← fn sign f2 (mem_snd f1 f2)
    let f2n ← fn (!sign) f2 (mem_snd f1 f2)
    some (tAttrCopy (.tbinop a .tiff f1 f2) (Introduction.iffSign sign f1p f1n f2p f2n))
  | .tnot a f1, fn => do
    let g1 ← fn (!sign) f1 (mem_one f1)
    some (tAttrCopy (.tnot a f1) (.tnot [] g1))
  | .tif a f1 f2 f3, fn =>
    if f3.tTy = none then do
      let f1p ← fn sign f1 (mem_fst₃ f1 f2 f3)
      let f1n ← fn (!sign) f1 (mem_fst₃ f1 f2 f3)
      let g2 ← fn sign f2 (mem_snd₃ f1 f2 f3)
      let g3 ← fn sign f3 (mem_thd₃ f1 f2 f3)
      some (tAttrCopy (.tif a f1 f2 f3) (Introduction.ifSign sign f1p f1n g2 g3))
    else none
  | .teps _ _ _, _ => none
  | f, fn => (tMapOpt f (fn sign)).map (tAttrCopy f)

/-- A conditional formula, with its condition at the two polarities. -/
def ifFmla (sign : Bool) (f1p f1n f2 f3 : Term) : Term :=
  if sign then
    .tbinop [] .tand (.tbinop [] .timplies f1n f2) (.tbinop [] .timplies (.tnot [] f1p) f3)
  else .tbinop [] .tor (.tbinop [] .tand f1p f2) (.tbinop [] .tand (.tnot [] f1n) f3)

/-- The body of `elim_f`. -/
def elimFNode (sign : Bool) (f : Term) (fn : Bool → (u : Term) → u ∈ f.children → Option Term) :
    Option Term :=
  match f, fn with
  | .tif _ f1 f2 f3, fn => do
    let f1p ← fn sign f1 (mem_fst₃ f1 f2 f3)
    let f1n ← fn (!sign) f1 (mem_fst₃ f1 f2 f3)
    let g2 ← fn sign f2 (mem_snd₃ f1 f2 f3)
    let g3 ← fn sign f3 (mem_thd₃ f1 f2 f3)
    some (ifFmla sign f1p f1n g2 g3)
  | f, fn => tMapSign sign f fn

mutual
/-- `elim_t`. -/
def elimT (t : Term) : Option Term :=
  tMapOpt t (fun u _ => if u.tTy = none then elimF true u else elimT u)
termination_by sizeOf t
decreasing_by all_goals exact sizeOf_lt_of_mem_children ‹_›
/-- `elim_f`. -/
def elimF (sign : Bool) (f : Term) : Option Term :=
  elimFNode sign f (fun s u _ => if u.tTy = none then elimF s u else elimT u)
termination_by sizeOf f
decreasing_by all_goals exact sizeOf_lt_of_mem_children ‹_›
end

/-! ## Declarations and tasks -/

/-- `make_ls_defn`; `none` is any of its exceptions. -/
def makeLsDefn (ls : LSymbol) (vl : List VSymbol) (t : Term) : Option LsDefn :=
  let hd := tapp [] ls (vl.map (tvar [])) t.tTy
  if ls.lsConstr ≠ 0 ∨ ls.lsProj then none
  else if ¬ vl.Nodup then none
  else if (defnAxiom ls vl t).freeVars ≠ [] then none
  else if ((tTyFreevars t).filter (· ∉ tTyFreevars hd)) ≠ [] then none
  else if ls.lsArgs ≠ vl.map VSymbol.vsTy ∨ t.tTy ≠ ls.lsValue then none
  else some ⟨ls, defnAxiom ls vl t, []⟩

/-- The function `close` of `open_ls_defn_cb`, on the opened definition. -/
def closeLsDefn (ld : LSymbol × LsDefn) (vl : List VSymbol) (t t' : Term) :
    Option (LSymbol × LsDefn) :=
  if tEqualStrict t t' then some ld else (makeLsDefn ld.1 vl t').map (ld.1, ·)

/-- `decl_map`; `none` is any exception of the function or of the checks. -/
def declMap (fn : Term → Option Term) (d : Decl) : Option Decl :=
  match d.dNode with
  | .dtype _ | .ddata _ | .dparam _ => some d
  | .dlogic ldl => do
    let ldl ← ldl.mapM (fun ld => do
      let (vl, e) ← openLsDefn ld.2
      closeLsDefn ld vl e (← fn e))
    (createLogicDecl ldl).toOption
  | .dind s idl => do
    let idl ← idl.mapM (fun id => do
      let axs ← id.2.mapM (fun ax => (fn ax.2).map (ax.1, ·))
      some (id.1, axs))
    (createIndDecl s idl).toOption
  | .dprop k pr f => do
    let f ← fn f
    (createPropDecl k pr f).toOption

/-- `TermTF.t_select elim_t (elim_f true)`. -/
def elim (t : Term) : Option Term := if t.tTy = none then elimF true t else elimT t

/-- The function on the declarations. -/
def elimDecl (_ : Unit) (d : Decl) : Except Unit (Unit × List Decl) :=
  match declMap elim d with
  | some d => .ok ((), [d])
  | none => .error ()

/-- `eliminate_if_fmla`, a `Trans.rewriteTF`; `none` is any exception. -/
def eliminateIfFmla (k : ℕ) (task : Task) : Option Task :=
  (Trans.decl k (fun _ => ()) elimDecl () task).toOption

end EliminateIfFmla

end Why3
