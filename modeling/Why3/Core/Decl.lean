import Why3.Core.Termination

/-!
# Declarations and the known map

`core/decl.ml`: the declarations of a theory, what the functions that create
them check, and `known_add_decl`, which adds a declaration to the map of known
identifiers after checking that it is positive, founded and exhaustive.

A set of identifiers is a list of tags.  The source tells a declaration that is
added twice (`KnownIdent`) from another one for the same identifier
(`RedeclaredIdent`) by physical equality; here both are `redeclaredIdent`.
-/

namespace Why3

structure PrSymbol where
  prName : ℕ
deriving DecidableEq

inductive IndSign
  | ind | coind
deriving DecidableEq

inductive PropKind
  | plemma | paxiom | pgoal
deriving DecidableEq

/-- `constructor`: the symbol and its projections. -/
abbrev Constructor := LSymbol × List (Option LSymbol)

abbrev DataDecl := TySymbol × List Constructor

inductive DeclNode
  | dtype (ts : TySymbol)
  | ddata (tdl : List DataDecl)
  | dparam (ls : LSymbol)
  | dlogic (ldl : List (LSymbol × LsDefn))
  | dind (s : IndSign) (idl : List (LSymbol × List (PrSymbol × Term)))
  | dprop (k : PropKind) (pr : PrSymbol) (f : Term)

structure Decl where
  dNode : DeclNode
  dNews : List ℕ

inductive DeclExn
  | emptyDecl
  | emptyAlgDecl (ts : TySymbol)
  | emptyIndDecl (ls : LSymbol)
  | illegalTypeAlias (ts : TySymbol)
  | clashIdent (id : ℕ)
  | badConstructor (fs : LSymbol)
  | badRecordField (ls : LSymbol)
  | recordFieldMissing (ls : LSymbol)
  | duplicateRecordField (ls : LSymbol)
  | badLogicDecl (ls ls' : LSymbol)
  | unexpectedProjOrConstr (ls : LSymbol)
  | predicateSymbolExpected (ls : LSymbol)
  | invalidIndDecl (ls : LSymbol) (pr : PrSymbol)
  | nonPositiveIndDecl (ls : LSymbol) (pr : PrSymbol) (ls' : LSymbol)
  | nonPositiveTypeDecl (ts : TySymbol) (fs : LSymbol) (ty : Ty)
  | nonFoundedTypeDecl (ts : TySymbol)
  | unboundVar (v : VSymbol)
  | unboundTypeVar (v : TvSymbol)
  | typeMismatch (ty1 ty2 : Ty)
  | formulaExpected (t : Term)
  | termExpected (t : Term)
  | invalidArgument
  | termination (e : TerminationExn)
  | pattern (e : PatternExn)
  | redeclaredIdent (id : ℕ)
  | unknownIdent (id : ℕ)

/-! ## Creation -/

/-- `news_id`. -/
def newsId (news : List ℕ) (id : ℕ) : Except DeclExn (List ℕ) :=
  if id ∈ news then .error (.clashIdent id) else .ok (id :: news)

def tyEqualCheck (ty1 ty2 : Ty) : Except DeclExn Unit :=
  if ty1 = ty2 then .ok () else .error (.typeMismatch ty1 ty2)

/-- `check_fvs`: a closed formula. -/
def checkFvs (f : Term) : Except DeclExn Term :=
  match f.freeVars with
  | v :: _ => .error (.unboundVar v)
  | [] => if f.tTy.isSome then .error (.formulaExpected f) else .ok f

def createTyDecl (ts : TySymbol) : Decl := ⟨.dtype ts, [ts.tsName]⟩

section Data

/-- `check_proj`, with the projections `s` seen so far. -/
def checkProj (tyv : Ty) (s : List LSymbol) (tya : Ty) : Option LSymbol →
    Except DeclExn (List LSymbol)
  | none => .ok s
  | some ls =>
    match ls.lsArgs, ls.lsValue, ls.lsConstr, ls.lsProj with
    | [ptyv], some ptya, 0, true => do
      tyEqualCheck tyv ptyv
      tyEqualCheck tya ptya
      if ls ∈ s then .error (.duplicateRecordField ls) else .ok (ls :: s)
    | _, _, _, _ => .error (.badRecordField ls)

/-- `List.fold_left2 (check_proj ty)`. -/
def checkProjs (fs : LSymbol) (ty : Ty) : List LSymbol → List Ty → List (Option LSymbol) →
    Except DeclExn (List LSymbol)
  | s, [], [] => .ok s
  | s, tya :: tyl, ls :: pl => do checkProjs fs ty (← checkProj ty s tya ls) tyl pl
  | _, _, _ => .error (.badConstructor fs)

variable (tss : List TySymbol) (vs : List TvSymbol)

mutual
/-- `check`: the type variables are bound, and no declared type occurs under
another one. -/
def checkArgTy (err : Ty → DeclExn) (seen : Bool) : Ty → Except DeclExn Unit
  | .tyvar v => if v ∈ vs then .ok () else .error (.unboundTypeVar v)
  | .tyapp ts tl =>
    let now := decide (ts ∈ tss)
    if seen && now then .error (err (.tyapp ts tl))
    else checkArgTyList err (seen || now) tl
def checkArgTyList (err : Ty → DeclExn) (seen : Bool) : List Ty → Except DeclExn Unit
  | [] => .ok ()
  | t :: l => do
    checkArgTy err seen t
    checkArgTyList err seen l
end

/-- `check_constr`. -/
def checkConstr (ts : TySymbol) (ty : Ty) (cll : ℕ) (pjs : List LSymbol) (news : List ℕ)
    (c : Constructor) : Except DeclExn (List ℕ) := do
  let fs := c.1
  match fs.lsValue with
  | none => .error (.badConstructor fs)
  | some value => do
    tyEqualCheck ty value
    let fsPjs ← checkProjs fs ty [] fs.lsArgs c.2
    match pjs.find? (· ∉ fsPjs) with
    | some pj => .error (.recordFieldMissing pj)
    | none =>
      if fs.lsConstr ≠ cll then .error (.badConstructor fs)
      else do
        checkArgTyList tss ty.freevars (.nonPositiveTypeDecl ts fs) false fs.lsArgs
        newsId news fs.lsName

/-- `check_decl`. -/
def checkDataDecl (news : List ℕ) (td : DataDecl) : Except DeclExn (List ℕ) :=
  let (ts, cl) := td
  if cl = [] then .error (.emptyAlgDecl ts)
  else if ts.tsDef ≠ .noDef then .error (.illegalTypeAlias ts)
  else do
    let news ← newsId news ts.tsName
    let pjs := slsOfList ((cl.flatMap (fun c => c.2.reduceOption)).dedup)
    let news ← pjs.foldlM (fun news pj => newsId news pj.lsName) news
    let ty := Ty.tyapp ts (ts.tsArgs.map .tyvar)
    cl.foldlM (checkConstr tss ts ty cl.length pjs) news

def createDataDecl (tdl : List DataDecl) : Except DeclExn Decl :=
  if tdl = [] then .error .emptyDecl
  else do
    let news ← tdl.foldlM (checkDataDecl (tdl.map Prod.fst)) []
    .ok ⟨.ddata tdl, news⟩

end Data

def createParamDecl (ls : LSymbol) : Except DeclExn Decl :=
  if ls.lsConstr ≠ 0 ∨ ls.lsProj then .error (.unexpectedProjOrConstr ls)
  else .ok ⟨.dparam ls, [ls.lsName]⟩

def checkLogicDecl (news : List ℕ) (ld : LSymbol × LsDefn) : Except DeclExn (List ℕ) :=
  if ld.2.ldLs ≠ ld.1 then .error (.badLogicDecl ld.1 ld.2.ldLs)
  else if ld.1.lsConstr ≠ 0 ∨ ld.1.lsProj then .error (.unexpectedProjOrConstr ld.1)
  else newsId news ld.1.lsName

def createLogicDecl (ldl : List (LSymbol × LsDefn)) : Except DeclExn Decl :=
  if ldl.isEmpty then .error .emptyDecl
  else do
    let news ← ldl.foldlM checkLogicDecl []
    match checkTermination ldl with
    | .ok ldl => .ok ⟨.dlogic ldl, news⟩
    | .error e => .error (.termination e)

section Inductive

variable (sps : List LSymbol)

/-- `t_pos_ps`: the first defined predicate that occurs in a term. -/
def tPosPs (t : Term) : Option LSymbol := t.symbols.find? (· ∈ sps)

mutual
/-- `f_pos_ps`: a defined predicate at a place that is not positive (the source
raises `Found`). -/
def fPosPs (pol : Option Bool) : Term → Option LSymbol
  | .tapp _ s tl _ =>
    if pol ≠ some true ∧ s ∈ sps then some s else fPosTerms tl
  | .tbinop _ .tiff f g => (fPosPs none f).or (fPosPs none g)
  | .tbinop _ .timplies f g => (fPosPs (pol.map not) f).or (fPosPs pol g)
  | .tbinop _ _ f g => (fPosPs pol f).or (fPosPs pol g)
  | .tnot _ f => fPosPs (pol.map not) f
  | .tif _ f g h => ((fPosPs none f).or (fPosPs pol g)).or (fPosPs pol h)
  | .tlet _ t _ f => (tPosPs sps t).or (fPosPs pol f)
  | .tcase _ t bl => (tPosPs sps t).or (fPosBranches pol bl)
  | .tquant _ _ _ trl f => (fPosPs pol f).or (fPosTriggers pol trl)
  | .tvar _ _ | .tconst _ _ _ | .teps _ _ _ | .ttrue _ | .tfalse _ => none
def fPosTerms : List Term → Option LSymbol
  | [] => none
  | t :: tl => (tPosPs sps t).or (fPosTerms tl)
def fPosBranches (pol : Option Bool) : List (Pattern × Term) → Option LSymbol
  | [] => none
  | (_, f) :: bl => (fPosPs pol f).or (fPosBranches pol bl)
/-- A trigger is a list of terms and formulas. -/
def fPosTriggers (pol : Option Bool) : List (List Term) → Option LSymbol
  | [] => none
  | tr :: trl => (fPosTrigger pol tr).or (fPosTriggers pol trl)
def fPosTrigger (pol : Option Bool) : List Term → Option LSymbol
  | [] => none
  | t :: tr => (if t.tTy.isSome then tPosPs sps t else fPosPs pol t).or (fPosTrigger pol tr)
end

attribute [grind =] fPosPs fPosTerms fPosBranches fPosTriggers fPosTrigger

/-- `clause`: the premises of a clause, the last one first, and its conclusion. -/
def clause (acc : List Term) : Term → List Term × Term
  | .tquant _ .tforall _ _ f => clause acc f
  | .tbinop _ .timplies g f => clause (g :: acc) f
  | .tlet _ t v f => clause (tEqu (.tvar [] v) t :: acc) f
  | f => (acc, f)

/-- `List.iter2 check_tl`. -/
def checkTl : List Ty → List Term → Except DeclExn Unit
  | [], [] => .ok ()
  | ty :: tyl, t :: tl =>
    match t.tTy with
    | none => .error (.termExpected t)
    | some ty' => do
      tyEqualCheck ty ty'
      checkTl tyl tl
  | _, _ => .error .invalidArgument

def tTyFreevars (t : Term) : List TvSymbol := t.types.flatMap Ty.freevars

/-- `check_ax`. -/
def checkAx (ps : LSymbol) (news : List ℕ) (ax : PrSymbol × Term) : Except DeclExn (List ℕ) := do
  let (pr, f) := ax
  let (cls, g) := clause [] (← checkFvs f)
  match g with
  | .tapp _ s tl _ =>
    if s ≠ ps then .error (.invalidIndDecl ps pr)
    else do
      checkTl ps.lsArgs tl
      match (g :: cls).findSome? (fPosPs sps (some true)) with
      | some ls => .error (.nonPositiveIndDecl ps pr ls)
      | none =>
        match (tTyFreevars f).find? (· ∉ tTyFreevars g) with
        | some v => .error (.unboundTypeVar v)
        | none => newsId news pr.prName
  | _ => .error (.invalidIndDecl ps pr)

def checkIndDecl (news : List ℕ) (id : LSymbol × List (PrSymbol × Term)) :
    Except DeclExn (List ℕ) :=
  if id.2.isEmpty then .error (.emptyIndDecl id.1)
  else if id.1.lsValue.isSome then .error (.predicateSymbolExpected id.1)
  else do
    let news ← newsId news id.1.lsName
    id.2.foldlM (checkAx sps id.1) news

def createIndDecl (s : IndSign) (idl : List (LSymbol × List (PrSymbol × Term))) :
    Except DeclExn Decl :=
  if idl.isEmpty then .error .emptyDecl
  else do
    let news ← idl.foldlM (checkIndDecl (idl.map Prod.fst)) []
    .ok ⟨.dind s idl, news⟩

end Inductive

def createPropDecl (k : PropKind) (p : PrSymbol) (f : Term) : Except DeclExn Decl := do
  let f ← checkFvs f
  .ok ⟨.dprop k p f, [p.prName]⟩

/-- The declarations that these functions create. -/
inductive Decl.Created : Decl → Prop
  | ty (ts) : Created (createTyDecl ts)
  | data {tdl d} : createDataDecl tdl = .ok d → Created d
  | param {ls d} : createParamDecl ls = .ok d → Created d
  | logic {ldl d} : createLogicDecl ldl = .ok d → Created d
  | ind {s idl d} : createIndDecl s idl = .ok d → Created d
  | prop {k p f d} : createPropDecl k p f = .ok d → Created d

/-! ## Used symbols -/

def symsTy (ty : Ty) : List ℕ := ty.symbols.map TySymbol.tsName

def symsTerm (t : Term) : List ℕ := t.types.flatMap symsTy ++ t.symbols.map LSymbol.lsName

/-- `get_used_syms_decl`. -/
def getUsedSymsDecl (d : Decl) : List ℕ :=
  match d.dNode with
  | .dtype ts =>
    match ts.tsDef with
    | .alias ty => symsTy ty
    | _ => []
  | .ddata tdl => tdl.flatMap (fun td => td.2.flatMap (fun c => c.1.lsArgs.flatMap symsTy))
  | .dparam ls => ls.lsValue.toList.flatMap symsTy ++ ls.lsArgs.flatMap symsTy
  | .dlogic ldl => ldl.flatMap (fun ld => ld.1.lsArgs.flatMap symsTy ++
      match openLsDefn ld.2 with
      | some (_, e) => symsTerm e
      | none => [])
  | .dind _ idl => idl.flatMap (fun id => id.2.flatMap (fun ax => symsTerm ax.2))
  | .dprop _ _ f => symsTerm f

/-! ## The known map -/

/-- `known_map`, the newest bindings first. -/
abbrev KnownMap := List (ℕ × Decl)

/-- `find_constructors`; a symbol that is not known, or not known as a type, has
none (the source does not get there: it checks that all symbols are known). -/
def findConstructors (kn : KnownMap) (ts : TySymbol) : List Constructor :=
  match kn.lookup ts.tsName with
  | some ⟨.ddata tdl, _⟩ => (tdl.lookup ts).getD []
  | _ => []

/-- The declared algebraic types, with repetitions. -/
def KnownMap.algebraic (kn : KnownMap) : List TySymbol :=
  kn.flatMap (fun e => match e.2.dNode with
    | .ddata tdl => tdl.map Prod.fst
    | _ => [])

/-- `known_add_decl` before the checks. -/
def knownAdd (kn : KnownMap) (d : Decl) : Except DeclExn KnownMap :=
  match d.dNews.find? (fun id => (kn.lookup id).isSome) with
  | some id => .error (.redeclaredIdent id)
  | none =>
    let kn' := d.dNews.map (·, d) ++ kn
    match (getUsedSymsDecl d).find? (fun id => (kn'.lookup id).isNone) with
    | some id => .error (.unknownIdent id)
    | none => .ok kn'

/-! ### Exhaustive matches -/

section Match

variable (k : ℕ) (kn : KnownMap)

mutual
/-- `check_match`; the tags from `k` on are free. -/
def checkMatch : Term → Except PatternExn Unit
  | .tvar _ _ | .tconst _ _ _ | .ttrue _ | .tfalse _ => .ok ()
  | .tapp _ _ tl _ => checkMatchList tl
  | .tif _ f t1 t2 => do
    checkMatch f
    checkMatch t1
    checkMatch t2
  | .tlet _ t _ e => do
    checkMatch t
    checkMatch e
  | .tcase _ t bl => do
    Pattern.checkCompile (fun ts => some ((findConstructors kn ts).map Prod.fst)) k [t]
      (bl.map (fun b => [b.1]))
    checkMatch t
    checkMatchBranches bl
  | .teps _ _ f => checkMatch f
  | .tquant _ _ _ trl f => do
    checkMatch f
    checkMatchTriggers trl
  | .tbinop _ _ f g => do
    checkMatch f
    checkMatch g
  | .tnot _ f => checkMatch f
def checkMatchList : List Term → Except PatternExn Unit
  | [] => .ok ()
  | t :: tl => do
    checkMatch t
    checkMatchList tl
def checkMatchBranches : List (Pattern × Term) → Except PatternExn Unit
  | [] => .ok ()
  | (_, t) :: bl => do
    checkMatch t
    checkMatchBranches bl
def checkMatchTriggers : List (List Term) → Except PatternExn Unit
  | [] => .ok ()
  | tr :: trl => do
    checkMatchList tr
    checkMatchTriggers trl
end

attribute [grind =] checkMatch checkMatchList checkMatchBranches checkMatchTriggers

/-- The terms that `decl_fold` visits. -/
def declTerms (d : Decl) : List Term :=
  match d.dNode with
  | .dtype _ | .ddata _ | .dparam _ => []
  | .dlogic ldl => ldl.filterMap (fun ld => (openLsDefn ld.2).map Prod.snd)
  | .dind _ idl => idl.flatMap (fun id => id.2.map Prod.snd)
  | .dprop _ _ f => [f]

end Match

/-! ### Foundness -/

section Foundness

variable (founded : List TvSymbol → TySymbol → Bool) (tvs : List TvSymbol)

mutual
/-- `check_type`: the type is inhabited, unless the variables `tvs` are. -/
def checkType : Ty → Bool
  | .tyvar tv => decide (tv ∉ tvs)
  | .tyapp ts tl => founded (emptyArgs ts.tsArgs tl) ts
/-- The parameters whose arguments are not inhabited. -/
def emptyArgs : List TvSymbol → List Ty → List TvSymbol
  | tv :: vl, ty :: tl => if checkType ty then emptyArgs vl tl else tv :: emptyArgs vl tl
  | _, _ => []
end

end Foundness

/-- `check_ts`. -/
def checkTs (kn : KnownMap) : ℕ → List TySymbol → List TvSymbol → TySymbol → Bool
  | 0, _, _, _ => false
  | fuel + 1, tss, tvs, ts =>
    if ts ∈ tss then false
    else
      match findConstructors kn ts with
      | [] => tvs.isEmpty
      | cl => cl.any (fun c => c.1.lsArgs.all (checkType (checkTs kn fuel (ts :: tss)) tvs))

def checkFoundness (kn : KnownMap) (d : Decl) : Except DeclExn Unit :=
  match d.dNode with
  | .ddata tdl =>
    match tdl.find? (fun td => !checkTs kn (kn.algebraic.length + 1) [] [] td.1) with
    | some td => .error (.nonFoundedTypeDecl td.1)
    | none => .ok ()
  | _ => .ok ()

/-! ### Positivity -/

section Positivity

variable (pos : TySymbol → List Bool)

mutual
/-- `get_ty`: the variables of a type that occur in an argument refused by
`pos`. -/
def getTy : Ty → List TvSymbol
  | .tyvar _ => []
  | .tyapp ts tl => getTyList (pos ts) tl
def getTyList : List Bool → List Ty → List TvSymbol
  | p :: pl, ty :: tl => (if p then getTy ty else ty.freevars) ++ getTyList pl tl
  | _, _ => []
end

mutual
/-- `check_ty`: the first refused argument in which a type of `tss` occurs. -/
def checkTy (tss : List TySymbol) : Ty → Option Ty
  | .tyvar _ => none
  | .tyapp ts tl => checkTyList tss (pos ts) tl
def checkTyList (tss : List TySymbol) : List Bool → List Ty → Option Ty
  | p :: pl, ty :: tl =>
    (if p then checkTy tss ty
      else if ty.symbols.any (· ∈ tss) then some ty else none).or (checkTyList tss pl tl)
  | _, _ => none
end

end Positivity

/-- `ts_extract_pos`, with the type symbols `sts` above. -/
def tsExtractPosAux (kn : KnownMap) : ℕ → List TySymbol → TySymbol → List Bool
  | 0, _, ts => ts.tsArgs.map (fun _ => false)
  | fuel + 1, sts, ts =>
    if ts = tsFunc then [false, true]
    else if ts ∈ sts then ts.tsArgs.map (fun _ => true)
    else
      match findConstructors kn ts with
      | [] => ts.tsArgs.map (fun _ => false)
      | csl =>
        let negs := csl.flatMap (fun c =>
          c.1.lsArgs.flatMap (getTy (tsExtractPosAux kn fuel (ts :: sts))))
        ts.tsArgs.map (fun v => decide (v ∉ negs))

/-- `ts_extract_pos kn Sts.empty`: only algebraic types are unfolded, each at most
once on a path. -/
def tsExtractPos (kn : KnownMap) (ts : TySymbol) : List Bool :=
  tsExtractPosAux kn (kn.algebraic.length + 1) [] ts

def checkPositivity (kn : KnownMap) (d : Decl) : Except DeclExn Unit :=
  match d.dNode with
  | .ddata tdl =>
    let bad := tdl.findSome? (fun td => td.2.findSome? (fun c =>
      (c.1.lsArgs.findSome? (checkTy (tsExtractPos kn) (tdl.map Prod.fst))).map
        (fun ty => DeclExn.nonPositiveTypeDecl td.1 c.1 ty)))
    match bad with
    | some e => .error e
    | none => .ok ()
  | _ => .ok ()

/-- `known_add_decl`. -/
def knownAddDecl (k : ℕ) (kn : KnownMap) (d : Decl) : Except DeclExn KnownMap := do
  let kn ← knownAdd kn d
  checkPositivity kn d
  checkFoundness kn d
  match checkMatchList k kn (declTerms d) with
  | .ok _ => .ok kn
  | .error e => .error (.pattern e)

end Why3
