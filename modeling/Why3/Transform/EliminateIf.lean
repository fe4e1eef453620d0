import Why3.Core.BoundNames

/-!
# Elimination of conditionals

`transform/eliminate_if.ml`.  `elim_t` takes a continuation from terms to formulas and puts
the conditionals, bindings and case analyses that it meets around the formula.

The source opens each binder with fresh variables.  Here they are those of the tags from
`n` on, and the map `m` says which terms the variables of the source term stand for.  A
continuation is given the next tag.  `elim_f` and `elim_tr` are always called with a
continuation that is applied once, to the result, and are written without it.
-/

namespace Why3

namespace EliminateIf

mutual
/-- `has_if`, on a term: the formulas below are not entered. -/
def hasIf : Term → Bool
  | .tif _ _ _ _ => true
  | .tapp _ _ tl _ => hasIfList tl
  | .tlet _ t _ e => hasIf t || hasIf e
  | .tcase _ t bl => hasIf t || hasIfBranches bl
  | _ => false
def hasIfList : List Term → Bool
  | [] => false
  | t :: tl => hasIf t || hasIfList tl
def hasIfBranches : List (Pattern × Term) → Bool
  | [] => false
  | (_, t) :: bl => hasIf t || hasIfBranches bl
end

attribute [grind =] hasIf hasIfList hasIfBranches

mutual
/-- `elim_t`. -/
def elimT (n : ℕ) (m : Mvs) (contT : ℕ → Term → Term) : Term → Term
  | .tlet a t1 u t2 =>
    if hasIf t2 then
      elimT n m (fun n t1' =>
        .tlet [] t1' ⟨n, u.vsTy⟩ (elimT (n + 1) (m.bind n [u]) contT t2)) t1
    else
      elimT n m (fun n t1' => elimT (n + 1) (m.bind n [u]) (fun n' t2' =>
        contT n' (tAttrCopy (.tlet a t1 u t2) (.tlet [] t1' ⟨n, u.vsTy⟩ t2'))) t2) t1
  | .tif _ f t1 t2 => .tif [] (elimF n m f) (elimT n m contT t1) (elimT n m contT t2)
  | .tcase a t1 bl =>
    if hasIfBranches bl then
      elimT n m (fun n t1' => .tcase [] t1' (elimBranchesF n m contT bl)) t1
    else
      elimT n m (fun n t1' => elimBranchesT n m (fun n bl' =>
        contT n (tAttrCopy (.tcase a t1 bl) (.tcase [] t1' bl'))) bl) t1
  | .tapp a s tl ty =>
    elimTList n m (fun n tl' => contT n (tAttrCopy (.tapp a s tl ty) (.tapp [] s tl' ty))) tl
  | .teps a v f =>
    contT n (tAttrCopy (.teps a v f) (.teps [] ⟨n, v.vsTy⟩ (elimF (n + 1) (m.bind n [v]) f)))
  | .tvar a v => contT n ((Term.tvar a v).subst n m)
  | .tconst a c ty => contT n (.tconst a c ty)
  | .tquant a q vl trl f =>
    contT n (.tquant a q (freshen n vl) (elimTriggers (n + vl.length) (m.bind n vl) trl)
      (elimF (n + vl.length) (m.bind n vl) f))
  | .tbinop a op f g => contT n (.tbinop a op (elimF n m f) (elimF n m g))
  | .tnot a f => contT n (.tnot a (elimF n m f))
  | .ttrue a => contT n (.ttrue a)
  | .tfalse a => contT n (.tfalse a)
/-- `list_map_cont elim_t`. -/
def elimTList (n : ℕ) (m : Mvs) (contL : ℕ → List Term → Term) : List Term → Term
  | [] => contL n []
  | t :: tl => elimT n m (fun n t' => elimTList n m (fun n tl' => contL n (t' :: tl')) tl) t
/-- The branches of `cont_case_f`. -/
def elimBranchesF (n : ℕ) (m : Mvs) (contT : ℕ → Term → Term) :
    List (Pattern × Term) → List (Pattern × Term)
  | [] => []
  | (p, t) :: bl =>
    (p.rename (m.bind n p.patVars).var,
      elimT (n + p.patVars.length) (m.bind n p.patVars) contT t) :: elimBranchesF n m contT bl
/-- `list_map_cont fnB` on the list of the branches, the last one first. -/
def elimBranchesT (n : ℕ) (m : Mvs) (contL : ℕ → List (Pattern × Term) → Term) :
    List (Pattern × Term) → Term
  | [] => contL n []
  | (p, t) :: bl =>
    elimBranchesT n m (fun n bl' =>
      elimT (n + p.patVars.length) (m.bind n p.patVars) (fun n' t' =>
        contL n' ((p.rename (m.bind n p.patVars).var, t') :: bl')) t) bl
/-- `elim_t_eps`, and with `tr` `elim_tr`, which keeps the conditionals of triggers. -/
def elimTerm (tr : Bool) (n : ℕ) (m : Mvs) : Term → Term
  | .tif a f t1 t2 =>
    match tr, t2.tTy with
    | false, some ty =>
      let z : VSymbol := ⟨n, ty⟩
      tAttrCopy (.tif a f t1 t2) (.teps [] z (.tif [] (elimF (n + 1) m f)
        (tEqu (.tvar [] z) (elimTerm tr (n + 1) m t1))
        (tEqu (.tvar [] z) (elimTerm tr (n + 1) m t2))))
    | _, _ => .tif a (elimF n m f) (elimTerm tr n m t1) (elimTerm tr n m t2)
  | .tapp a s tl ty => .tapp a s (elimTermList tr n m tl) ty
  | .tlet a t v e =>
    .tlet a (elimTerm tr n m t) ⟨n, v.vsTy⟩ (elimTerm tr (n + 1) (m.bind n [v]) e)
  | .tcase a t bl => .tcase a (elimTerm tr n m t) (elimTermBranches tr n m bl)
  | .teps a v f => .teps a ⟨n, v.vsTy⟩ (elimF (n + 1) (m.bind n [v]) f)
  | .tvar a v => (Term.tvar a v).subst n m
  | .tconst a c ty => .tconst a c ty
  | .tquant a q vl trl f =>
    .tquant a q (freshen n vl) (elimTriggers (n + vl.length) (m.bind n vl) trl)
      (elimF (n + vl.length) (m.bind n vl) f)
  | .tbinop a op f g => .tbinop a op (elimF n m f) (elimF n m g)
  | .tnot a f => .tnot a (elimF n m f)
  | .ttrue a => .ttrue a
  | .tfalse a => .tfalse a
def elimTermList (tr : Bool) (n : ℕ) (m : Mvs) : List Term → List Term
  | [] => []
  | t :: tl => elimTerm tr n m t :: elimTermList tr n m tl
def elimTermBranches (tr : Bool) (n : ℕ) (m : Mvs) :
    List (Pattern × Term) → List (Pattern × Term)
  | [] => []
  | (p, t) :: bl =>
    (p.rename (m.bind n p.patVars).var,
      elimTerm tr (n + p.patVars.length) (m.bind n p.patVars) t) :: elimTermBranches tr n m bl
/-- `elim_f`. -/
def elimF (n : ℕ) (m : Mvs) : Term → Term
  | .tapp a s tl ty =>
    elimTList n m (fun _ tl' => tAttrCopy (.tapp a s tl ty) (.tapp [] s tl' ty)) tl
  | .tlet a t v f =>
    .tlet a (elimTerm false n m t) ⟨n, v.vsTy⟩ (elimF (n + 1) (m.bind n [v]) f)
  | .tcase a t bl => .tcase a (elimTerm false n m t) (elimFBranches n m bl)
  | .tif a f1 f2 f3 => .tif a (elimF n m f1) (elimF n m f2) (elimF n m f3)
  | .tquant a q vl trl f =>
    .tquant a q (freshen n vl) (elimTriggers (n + vl.length) (m.bind n vl) trl)
      (elimF (n + vl.length) (m.bind n vl) f)
  | .tbinop a op f g => .tbinop a op (elimF n m f) (elimF n m g)
  | .tnot a f => .tnot a (elimF n m f)
  | .ttrue a => .ttrue a
  | .tfalse a => .tfalse a
  | .teps a v f => .teps a ⟨n, v.vsTy⟩ (elimF (n + 1) (m.bind n [v]) f)
  | .tvar a v => (Term.tvar a v).subst n m
  | .tconst a c ty => .tconst a c ty
def elimFBranches (n : ℕ) (m : Mvs) : List (Pattern × Term) → List (Pattern × Term)
  | [] => []
  | (p, t) :: bl =>
    (p.rename (m.bind n p.patVars).var,
      elimF (n + p.patVars.length) (m.bind n p.patVars) t) :: elimFBranches n m bl
def elimTriggers (n : ℕ) (m : Mvs) : List (List Term) → List (List Term)
  | [] => []
  | tr :: trl => elimTrigger n m tr :: elimTriggers n m trl
/-- `TermTF.t_select elim_tr elim_f` on the terms of a trigger. -/
def elimTrigger (n : ℕ) (m : Mvs) : List Term → List Term
  | [] => []
  | t :: tl =>
    (if t.tTy = none then elimF n m t else elimTerm true n m t) :: elimTrigger n m tl
end

attribute [grind =] elimT elimTList elimBranchesF elimBranchesT elimTermList elimTermBranches
  elimF elimFBranches elimTriggers elimTrigger

/-- `elim_f`, as the transformation `eliminate_if_term` uses it. -/
def eliminateIfTerm (f : Term) : Term := elimF (freshTag f.freeVars) [] f

end EliminateIf

end Why3

/-!
# Conditionals in inductive declarations

`transform/eliminate_if.ml`: `elim_d` on an inductive declaration.  The conditionals of the
arguments of a conclusion are put around it by `elim_f`, and `clause` splits the clause there.
What `clause` does not split is refused by `create_ind_decl`.
-/

namespace Why3

namespace EliminateIf

abbrev IndDecl := LSymbol × List (PrSymbol × Term)

/-- `clause`.  The branches of a conditional are clauses with a premise more. -/
def clause : Term → List Term
  | .tquant _ .tforall vs tr f => (clause f).map (tQuant .tforall vs tr)
  | .tbinop _ .timplies g f => (clause f).map (.tbinop [] .timplies g)
  | .tlet _ t v f => (clause f).map (.tlet [] t v)
  | .tif _ f1 f2 f3 =>
    (clause f2).map (.tbinop [] .timplies f1) ++
      (clause f3).map (.tbinop [] .timplies (.tnot [] f1))
  | f => [f]

/-- The symbols of the clauses: a clause that is not split keeps its own. -/
def nameClauses (k : ℕ) (pr : PrSymbol) : List Term → List (PrSymbol × Term)
  | [f] => [(pr, f)]
  | l => l.mapIdx (fun i f => (⟨k + i⟩, f))

/-- `fn` on the clauses of a predicate, with fresh symbols from `k` on. -/
def elimClauses : ℕ → List (PrSymbol × Term) → List (PrSymbol × Term) × ℕ
  | k, [] => ([], k)
  | k, (pr, f) :: al =>
    let l := clause (eliminateIfTerm f)
    let (al', k') := elimClauses (k + l.length) al
    (nameClauses k pr l ++ al', k')

/-- `fn` on the predicates of a declaration. -/
def elimInds : ℕ → List IndDecl → List IndDecl × ℕ
  | k, [] => ([], k)
  | k, (ps, al) :: idl =>
    let (al', k') := elimClauses k al
    let (idl', k'') := elimInds k' idl
    ((ps, al') :: idl', k'')

/-- `elim_d` on an inductive declaration, with fresh symbols from `k` on. -/
def elimDind (k : ℕ) (s : IndSign) (idl : List IndDecl) : Except DeclExn Decl :=
  createIndDecl s (elimInds k idl).1

/-! ## What can be split -/

mutual
/-- No case analysis has a conditional in a branch. -/
def branchFree : Term → Bool
  | .tif _ _ t1 t2 => branchFree t1 && branchFree t2
  | .tlet _ t1 _ t2 => branchFree t1 && branchFree t2
  | .tcase _ t bl => branchFree t && !hasIfBranches bl
  | .tapp _ _ tl _ => branchFreeList tl
  | _ => true
def branchFreeList : List Term → Bool
  | [] => true
  | t :: tl => branchFree t && branchFreeList tl
end

attribute [grind =] branchFree branchFreeList

/-- The type variables that stay in a conclusion, and those of its premises, when each
conditional is replaced by one of its branches. -/
structure Choice where
  head : List TvSymbol
  premises : List TvSymbol

/-- The choice of a term with others. -/
def Choice.add (c : Choice) (head premises : List TvSymbol) : Choice :=
  ⟨c.head ++ head, c.premises ++ premises⟩

mutual
/-- The choices of a term.  A binding whose body has a conditional is put around it. -/
def choices : Term → List Choice
  | .tif _ f t1 t2 => (choices t1 ++ choices t2).map (·.add [] (tTyFreevars f))
  | .tlet _ t1 _ t2 =>
    if hasIf t2 then
      (choices t1).flatMap (fun c1 => (choices t2).map (·.add [] (c1.head ++ c1.premises)))
    else (choices t1).map (·.add (tTyFreevars t2) [])
  | .tcase _ t bl =>
    (choices t).map (·.add ((Term.typesBranches bl).flatMap Ty.freevars) [])
  | .tapp _ _ tl ty => (choicesList tl).map (·.add (ty.toList.flatMap Ty.freevars) [])
  | t => [⟨tTyFreevars t, []⟩]
def choicesList : List Term → List Choice
  | [] => [⟨[], []⟩]
  | t :: tl => (choices t).flatMap (fun c => (choicesList tl).map (·.add c.head c.premises))
end

attribute [grind =] choices choicesList

/-- The type variables of the quantifiers, bindings and premises of a clause. -/
def outerTvs : Term → List TvSymbol
  | .tquant _ .tforall vl trl f =>
    (if vl = [] then [] else tTyFreevars (.tquant [] .tforall vl trl (.ttrue []))) ++ outerTvs f
  | .tbinop _ .timplies g f => tTyFreevars g ++ outerTvs f
  | .tlet _ t _ f => tTyFreevars t ++ outerTvs f
  | _ => []

/-- A clause that can be split: for every choice of branches in the arguments of its
conclusion, the type variables occur in what stays of the conclusion. -/
def Splits (f : Term) : Prop :=
  match (Why3.clause [] f).2 with
  | .tapp _ _ tl _ => branchFreeList tl ∧
      ∀ c ∈ choicesList tl, ∀ v ∈ outerTvs f ++ c.premises, v ∈ c.head
  | _ => False

instance (f : Term) : Decidable (Splits f) := by
  unfold Splits
  split <;> infer_instance

end EliminateIf

end Why3
