import Why3.Core.Lambda
import Why3.Core.Replace
import Why3.Transform.Trans

/-!
# Induction on an integer

The transformation `induction` of `transform/ind_itp.ml`: a task about an integer
constant becomes the base case, up to a bound, and the recursive case, with the goal for
all smaller integers as a new hypothesis.  What stands between the constant and the goal
and shares constants with them is generalised in this hypothesis.

The tags from `k` on are free.
-/

namespace Why3

namespace IntInduction

open PropKind

/-- `Arg_trans` with its message, and the exceptions of `core/term.ml`, `core/decl.ml` and
`core/task.ml`. -/
inductive InductionExn
  | argTrans (msg : String)
  | application
  | decl (e : DeclExn)
  | task (e : TaskExn)

def ofDecl {α : Type} : Except DeclExn α → Except InductionExn α
  | .ok x => .ok x
  | .error e => .error (.decl e)

def ofApp {α : Type} : Option α → Except InductionExn α
  | some x => .ok x
  | none => .error .application

/-! ## Symbols of a declaration -/

mutual
/-- `add_ls_term`: the symbols that occur without arguments. -/
def addLsTerm : List LSymbol → Term → List LSymbol
  | s, .tvar _ _ | s, .tconst _ _ _ | s, .ttrue _ | s, .tfalse _ => s
  | s, .tapp _ ls tl _ => if tl.isEmpty then ls :: s else addLsList s tl
  | s, .tif _ f t1 t2 => addLsTerm (addLsTerm (addLsTerm s f) t1) t2
  | s, .tlet _ t _ e => addLsTerm (addLsTerm s t) e
  | s, .tcase _ t bl => addLsBranches (addLsTerm s t) bl
  | s, .teps _ _ f => addLsTerm s f
  | s, .tquant _ _ _ trl f => addLsTerm (addLsTriggers s trl) f
  | s, .tbinop _ _ f g => addLsTerm (addLsTerm s f) g
  | s, .tnot _ f => addLsTerm s f
def addLsList : List LSymbol → List Term → List LSymbol
  | s, [] => s
  | s, t :: tl => addLsList (addLsTerm s t) tl
def addLsBranches : List LSymbol → List (Pattern × Term) → List LSymbol
  | s, [] => s
  | s, (_, t) :: bl => addLsBranches (addLsTerm s t) bl
def addLsTriggers : List LSymbol → List (List Term) → List LSymbol
  | s, [] => s
  | s, tr :: trl => addLsTriggers (addLsList s tr) trl
end

attribute [grind =] addLsTerm addLsList addLsBranches addLsTriggers

/-- `add_lsymbol`. -/
def addLsymbol (s : List LSymbol) (ld : LsDefn) : List LSymbol :=
  match openLsDefn ld with
  | some (_, t) => addLsTerm s t
  | none => s

/-- `collect_lsymbol`. -/
def collectLsymbol (s : List LSymbol) (d : Decl) : List LSymbol :=
  match d.dNode with
  | .dtype _ | .ddata _ => s
  | .dparam ls => ls :: s
  | .dlogic ldl => ldl.foldl (fun s ld => addLsymbol (ld.1 :: s) ld.2) s
  | .dind _ idl => idl.foldl (fun s id => id.2.foldl (fun s ax => addLsTerm s ax.2) (id.1 :: s)) s
  | .dprop _ _ t => addLsTerm s t

/-! ## Generalisation -/

/-- `revert g d`, with a variable of tag `k` for a constant. -/
def revert (k : ℕ) (g : Term) (d : Decl) : Except InductionExn Term :=
  match d.dNode with
  | .dtype _ | .ddata _ => .error (.argTrans "revert: cannot revert type")
  | .dparam ls =>
    match ls.lsArgs, ls.lsValue with
    | [], some ty =>
      let newVar : VSymbol := ⟨k, ty⟩
      .ok (tQuant .tforall [newVar] [] (tReplace (constTerm ls) (.tvar [] newVar) g))
    | _, _ => .error (.argTrans "revert: cannot revert:")
  | .dlogic _ => .error (.argTrans "revert: cannot revert logic decls")
  | .dind _ _ => .error (.argTrans "revert: cannot revert induction decls")
  | .dprop pk _ t =>
    if pk ≠ pgoal then .ok (.tbinop [] .timplies t g)
    else .error (.argTrans "revert: cannot revert goal")

/-- A declaration shares a symbol with the set. -/
def meets (s : List LSymbol) (d : Decl) : Bool := (collectLsymbol [] d).any (· ∈ s)

/-- The formula, the symbols and the next free tag. -/
structure Chosen where
  g : Term
  s : List LSymbol
  k : ℕ

/-- `revert_chosen_decls`. -/
def revertChosenDecls (acc : Chosen) (d : Decl) : Except InductionExn Chosen :=
  if meets acc.s d then do
    let g ← revert acc.k acc.g d
    .ok ⟨g, acc.s ++ collectLsymbol [] d, acc.k + 1⟩
  else .ok acc

/-- `revert_chosen_decls_list s l g t`. -/
def revertChosenDeclsList (k : ℕ) (s : List LSymbol) (l : List Decl) (g : Decl) (t : Term) :
    Except InductionExn Chosen :=
  l.foldlM revertChosenDecls ⟨t, collectLsymbol s g, k⟩

/-! ## The two cases -/

def createGoal (expl : String) (pr : PrSymbol) (t : Term) : Except InductionExn Decl :=
  ofDecl (createPropDecl pgoal pr (tAttrAdd ("expl:" ++ expl) t))

/-- `init_trans` on a declaration. -/
def initDecl (leInt : LSymbol) (k : ℕ) (x bound : Term) (_ : Unit) (d : Decl) :
    Except InductionExn (Unit × List Decl) :=
  match d.dNode with
  | .dprop .pgoal pr t => do
    let nt ← ofApp (tAppInfer leInt [x, bound])
    let d ← createGoal "base case" pr t
    let prInit ← ofDecl (createPropDecl paxiom ⟨k⟩ nt)
    .ok ((), [prInit, d])
  | _ => .ok ((), [d])

/-- The references `x_is_passed` and `delta'`. -/
structure RecState where
  xIsPassed : Bool
  delta : List Decl

/-- A declaration that is kept for the generalisation. -/
def RecState.keep (st : RecState) (d : Decl) : RecState :=
  if st.xIsPassed then { st with delta := d :: st.delta } else st

/-- `rec_trans` on a declaration. -/
def recDecl (ltInt : LSymbol) (k : ℕ) (lsx : LSymbol) (x bound : Term) (st : RecState) (d : Decl) :
    Except InductionExn (RecState × List Decl) :=
  match d.dNode with
  | .dparam ls => if lsx = ls then .ok ({ st with xIsPassed := true }, [d]) else .ok (st.keep d, [d])
  | .dprop .pgoal pr t =>
    if !st.xIsPassed then .error (.argTrans "induction")
    else do
      let ⟨tDelta, _, k⟩ ← revertChosenDeclsList k [lsx] st.delta d t
      let n : VSymbol := ⟨k, tyInt⟩
      let ltN ← ofApp (tAppInfer ltInt [.tvar [] n, x])
      let tDelta := tQuant .tforall [n] []
        (.tbinop [] .timplies ltN (tReplace x (.tvar [] n) tDelta))
      let boundLtXT ← ofApp (tAppInfer ltInt [bound, x])
      let boundLtX ← ofDecl (createPropDecl paxiom ⟨k + 1⟩ boundLtXT)
      let hrec ← ofDecl (createPropDecl paxiom ⟨k + 2⟩ tDelta)
      let d ← createGoal "recursive case" pr t
      .ok (st, [boundLtX, hrec, d])
  | .dprop _ _ _ => .ok (st.keep d, [d])
  | .dind _ _ | .dlogic _ | .dtype _ | .ddata _ =>
    if st.xIsPassed then .error (.argTrans "induction Dlogic") else .ok (st, [d])

/-- The default bound is `t_nat_const 0`. -/
def boundTerm (bound : Option Term) : Term := bound.getD (.tconst [] (.constInt .iLitUnk 0) tyInt)

/-- `induction x bound`, with the order of the theory of integers. -/
def induction (leInt ltInt : LSymbol) (k : ℕ) (x : Term) (bound : Option Term) (t : Task) :
    Except InductionExn (Task × Task) :=
  let bound := boundTerm bound
  if x.tTy ≠ some tyInt ∨ bound.tTy ≠ some tyInt then .error (.argTrans "induction")
  else
    match x with
    | .tapp _ lsx [] _ => do
      let free := k + t.tdecls.length + 3
      let init ← Trans.decl free .task (initDecl leInt k x bound) () t
      let recursive ← Trans.decl free .task (recDecl ltInt k lsx x bound) ⟨false, []⟩ t
      .ok (init, recursive)
    | _ => .error (.argTrans "induction")

end IntInduction

end Why3
