import Mathlib.Computability.Primrec.List
import Why3.Core.Term

/-!
# Compilation of pattern matrices

`core/pattern.ml`.  A matrix is a list of rows, a row a list of patterns (one
for each matched term) and an action.  `compile` takes the leftmost column
apart: it collects the constructors at its head, gives every constructor the
rows that it may match, and builds a primitive case analysis with `mkCase`.

The source registers fresh variables in a global table of identifiers; here
the next free tag is passed along.  `Bare` is the `none` of `getConstructors`,
the other exceptions are the constructors of `PatternExn`.
-/

namespace Why3

/-- The exceptions of `Pattern.compile`; `outOfFuel` is not one of the source,
and `compile` never ends in it. -/
inductive PatternExn
  | constructorExpected (fs : LSymbol) (ty : Ty)
  | nonExhaustive (pl : List Pattern)
  | termExpected (t : Term)
  | assertFalse
  | outOfFuel

abbrev Row (α : Type) := List Pattern × α

/-- A map from the constructors at the head of a column to the arguments of
their first occurrence (`types` and `cslist`, which hold the same bindings),
the last one found first. -/
abbrev HeadMap := List (LSymbol × List Pattern)

/-- `cases` (the rows left for each head constructor) and `wilds` (the rows
left for a value with another head). -/
abbrev Dispatched (α : Type) := (LSymbol → List (Row α)) × List (Row α)

/-- The argument types of the constructor `cs` in a value of type `ty`. -/
def argTys (cs : LSymbol) (ty : Ty) : List Ty :=
  match cs.lsValue with
  | none => cs.lsArgs
  | some vty => cs.lsArgs.map (Ty.inst ((tyMatch [] vty ty).getD []))

/-- `Sls.of_list`: the elements in the order of their tags. -/
def slsOfList (l : List LSymbol) : List LSymbol :=
  l.insertionSort (fun a b => a.lsName ≤ b.lsName)

namespace Pattern

variable (getConstructors : TySymbol → Option (List LSymbol))

/-- `bare, css`: whether the constructors of `ty` are unknown, and the set of
its constructors when they are known. -/
def constructorSet : Ty → Bool × List LSymbol
  | .tyapp ts _ =>
    match getConstructors ts with
    | some csl => (false, slsOfList csl)
    | none => (true, [])
  | .tyvar _ => (false, [])

/-- `is_constr`: if bare, only check `ls_constr`. -/
def isConstr (ty : Ty) (fs : LSymbol) : Bool :=
  decide (0 < fs.lsConstr) &&
    ((constructorSet getConstructors ty).1 || decide (fs ∈ (constructorSet getConstructors ty).2))

/-- Map every constructor at the head of the pattern to the list of its
arguments. -/
def populate (ty : Ty) : Pattern → HeadMap → Except PatternExn HeadMap
  | .pwild _, acc | .pvar _, acc => .ok acc
  | .pas p _, acc => populate ty p acc
  | .por p q, acc => do populate ty q (← populate ty p acc)
  | .papp fs pl _, acc =>
    if isConstr getConstructors ty fs then
      if fs ∈ acc.map Prod.fst then .ok acc else .ok ((fs, pl) :: acc)
    else .error (.constructorExpected fs ty)

def populateRows {α : Type} (ty : Ty) : List (Row α) → HeadMap → Except PatternExn HeadMap
  | [], acc => .ok acc
  | ([], _) :: _, _ => .error .assertFalse
  | (p :: _, _) :: rl, acc => do populateRows ty rl (← populate getConstructors ty p acc)

section Dispatch

variable {α : Type} (mkLet : VSymbol → Term → α → α) (types : HeadMap) (t : Term)

def addCase (fs : LSymbol) (pl : List Pattern) (a : α) (cases : LSymbol → List (Row α)) :
    LSymbol → List (Row α) :=
  fun cs => if cs = fs then (pl, a) :: cases cs else cases cs

/-- A row whose head matches anything goes to every head constructor, with one
wildcard for each of its arguments. -/
def unionCases (pl : List Pattern) (a : α) (cases : LSymbol → List (Row α)) :
    LSymbol → List (Row α) :=
  fun cs =>
    match types.lookup cs with
    | some ql => (ql.foldl (fun pl q => .pwild q.patTy :: pl) pl, a) :: cases cs
    | none => cases cs

/-- Dispatch a row with head `p` to a primitive constructor or wild case. -/
def dispatch : Pattern → List Pattern → α → Dispatched α → Dispatched α
  | .papp fs pl' _, pl, a, (cases, wilds) => (addCase fs (pl'.reverse ++ pl) a cases, wilds)
  | .por p q, pl, a, acc => dispatch p pl a (dispatch q pl a acc)
  | .pas p x, pl, a, acc => dispatch p pl (mkLet x t a) acc
  | .pvar x, pl, a, (cases, wilds) =>
    (unionCases types pl (mkLet x t a) cases, (pl, mkLet x t a) :: wilds)
  | .pwild _, pl, a, (cases, wilds) => (unionCases types pl a cases, (pl, a) :: wilds)

def dispatchRows : List (Row α) → Dispatched α
  | [] => (fun _ => [], [])
  | ([], _) :: rl => dispatchRows rl
  | (p :: pl, a) :: rl => dispatch mkLet types t p pl a (dispatchRows rl)

end Dispatch

/-- `cont`: put the uncovered arguments of `cs` back under `cs`. -/
def cont (cs : LSymbol) (ty : Ty) : List Pattern → List Ty → List Pattern →
    Except PatternExn (List Pattern)
  | acc, _ :: vl, p :: pl => cont cs ty (p :: acc) vl pl
  | acc, [], pl => .ok (.papp cs acc ty :: pl)
  | _, _ :: _, [] => .error .assertFalse

/-- The head of an uncovered row: a constructor that heads no row if there is
one, a wildcard otherwise. -/
def uncoveredHead (css : List LSymbol) (types : HeadMap) (ty : Ty) : Pattern :=
  match css.find? (fun cs => decide (cs ∉ types.map Prod.fst)) with
  | some cs => .papp cs ((argTys cs ty).map .pwild) ty
  | none => .pwild ty

/-- Fresh variables for the arguments of a constructor, from the tag `k` on. -/
def freshVars (k : ℕ) : List Pattern → List VSymbol
  | [] => []
  | q :: ql => ⟨k, q.patTy⟩ :: freshVars (k + 1) ql

section Compile

variable {α : Type} (mkCase : Term → List (Pattern × α) → α) (mkLet : VSymbol → Term → α → α)

/-- `comp_cases`, from the result of compiling the rows left for `cs`. -/
def compCases (cs : LSymbol) (ty : Ty) (r : Except PatternExn (α × ℕ)) :
    Except PatternExn (α × ℕ) :=
  match r with
  | .error (.nonExhaustive pl) =>
    match cont cs ty [] cs.lsArgs pl with
    | .ok pl => .error (.nonExhaustive pl)
    | .error e => .error e
  | r => r

/-- `comp_wilds`, from the result of compiling the rows left for the other
heads. -/
def compWilds (css : List LSymbol) (types : HeadMap) (ty : Ty)
    (r : Except PatternExn (α × ℕ)) : Except PatternExn (α × ℕ) :=
  match r with
  | .error (.nonExhaustive pl) => .error (.nonExhaustive (uncoveredHead css types ty :: pl))
  | r => r

/-- One branch for each head constructor, in front of the branches `bl`. -/
def addBranches (comp : LSymbol → List Term → ℕ → Except PatternExn (α × ℕ)) (ty : Ty) :
    HeadMap → List (Pattern × α) → ℕ → Except PatternExn (List (Pattern × α) × ℕ)
  | [], bl, k => .ok (bl, k)
  | (cs, ql) :: csl, bl, k => do
    let vl := freshVars k ql
    let (a, k') ← comp cs (vl.map (.tvar [])) (k + ql.length)
    addBranches comp ty csl ((.papp cs (vl.map .pvar) ty, a) :: bl) k'

/-- Whether the head constructors cover the type of the column. -/
def noWilds (types : HeadMap) (ty : Ty) : Bool :=
  if (constructorSet getConstructors ty).1 then
    match types with
    | (cs, _) :: _ => types.length == cs.lsConstr
    | [] => false
  else (constructorSet getConstructors ty).2.all (fun cs => decide (cs ∈ types.map Prod.fst))

/-- `Tapp (cs, al)`, for the short cut of `compile` on such terms. -/
def appOf : Term → Option (LSymbol × List Term)
  | .tapp _ cs al _ => some (cs, al)
  | _ => none

/-- `compile`, with `fuel` bounding the depth of the recursion. -/
def compileAux : ℕ → ℕ → List Term → List (Row α) → Except PatternExn (α × ℕ)
  | 0, _, _, _ => .error .outOfFuel
  | _ + 1, _, tl, [] =>
    match tl.find? (fun t => t.tTy.isNone) with
    | some t => .error (.termExpected t)
    | none => .error (.nonExhaustive (tl.filterMap (fun t => t.tTy.map .pwild)))
  | _ + 1, k, [], (_, a) :: _ => .ok (a, k)
  | fuel + 1, k, t :: tl, r :: rl =>
    match t.tTy with
    | none => .error (.termExpected t)
    | some ty =>
      let css := (constructorSet getConstructors ty).2
      match populateRows getConstructors ty (r :: rl) [] with
      | .error e => .error e
      | .ok types =>
        let (cases, wilds) := dispatchRows mkLet types t (r :: rl)
        let compC := fun cs al k => compCases cs ty (compileAux fuel k (al.reverse ++ tl) (cases cs))
        let compW := fun k => compWilds css types ty (compileAux fuel k tl wilds)
        if types = [] then compW k
        else
          match (appOf t).filter (fun c => isConstr getConstructors ty c.1) with
          | some (cs, al) => if cs ∈ types.map Prod.fst then compC cs al k else compW k
          | none => do
            let (base, k) ←
              if noWilds getConstructors types ty then .ok ([], k)
              else do
                let (a, k') ← compW k
                .ok ([(.pwild ty, a)], k')
            let (bl, k) ← addBranches compC ty types base k
            .ok (mkCase t bl, k)

end Compile

/-! ## Fuel

Or-patterns are expanded while the matrix is compiled, so a row is weighed
together with all its expansions: `alts` counts the expansions of a pattern and
`cost` the constructors in all of them. -/

mutual
def alts : Pattern → ℕ
  | .pwild _ | .pvar _ => 1
  | .papp _ pl _ => rowAlts pl
  | .por p q => alts p + alts q
  | .pas p _ => alts p
def rowAlts : List Pattern → ℕ
  | [] => 1
  | p :: pl => alts p * rowAlts pl
end

attribute [grind =] alts rowAlts

mutual
def cost : Pattern → ℕ
  | .pwild _ | .pvar _ => 0
  | .papp _ pl _ => rowAlts pl + rowCost pl
  | .por p q => cost p + cost q
  | .pas p _ => cost p
def rowCost : List Pattern → ℕ
  | [] => 0
  | p :: pl => cost p * rowAlts pl + alts p * rowCost pl
end

attribute [grind =] cost rowCost

mutual
/-- The largest number of arguments of a constructor of the pattern. -/
def maxArity : Pattern → ℕ
  | .pwild _ | .pvar _ => 0
  | .papp _ pl _ => max pl.length (rowMaxArity pl)
  | .por p q => max (maxArity p) (maxArity q)
  | .pas p _ => maxArity p
def rowMaxArity : List Pattern → ℕ
  | [] => 0
  | p :: pl => max (maxArity p) (rowMaxArity pl)
end

attribute [grind =] maxArity rowMaxArity

def matrixCost {α : Type} (rl : List (Row α)) : ℕ :=
  (rl.map (fun r => rowCost r.1)).sum

def matrixArity {α : Type} (rl : List (Row α)) : ℕ :=
  (rl.map (fun r => rowMaxArity r.1)).foldr max 0

/-- As much fuel as compiling the matrix can use. -/
def compileFuel {α : Type} (tl : List Term) (rl : List (Row α)) : ℕ :=
  matrixCost rl * (matrixArity rl + 1) + tl.length + 1

/-- `Pattern.compile`, from the free tag `k` on. -/
def compile {α : Type} (mkCase : Term → List (Pattern × α) → α)
    (mkLet : VSymbol → Term → α → α) (k : ℕ) (tl : List Term) (rl : List (Row α)) :
    Except PatternExn (α × ℕ) :=
  compileAux getConstructors mkCase mkLet (compileFuel tl rl) k tl rl

/-- `compile_bare` does not compute non-covered patterns. -/
def compileBare {α : Type} (mkCase : Term → List (Pattern × α) → α)
    (mkLet : VSymbol → Term → α → α) (k : ℕ) (tl : List Term) (rl : List (Row α)) :
    Except PatternExn (α × ℕ) :=
  match compile (fun _ => none) mkCase mkLet k tl rl with
  | .error (.nonExhaustive _) => .error (.nonExhaustive [])
  | r => r

/-- The terms a matrix is checked for: fresh variables when none are given. -/
def checkTerms (k : ℕ) (tl : List Term) (pl : List Pattern) : List Term :=
  if tl.isEmpty then (freshVars k pl).map (.tvar []) else tl

/-- `check_compile`; `.ok ()` is a normal return. -/
def checkCompile (k : ℕ) (tl : List Term) : List (List Pattern) → Except PatternExn Unit
  | [] => .error (.nonExhaustive (tl.filterMap (fun t => t.tTy.map .pwild)))
  | pl :: ppl => do
    let _ ← compile getConstructors (fun _ _ => ()) (fun _ _ _ => ()) (k + pl.length)
      (checkTerms k tl pl) ((pl :: ppl).map (fun pl => (pl, ())))
    .ok ()

/-- `is_exhaustive`; only `NonExhaustive` is caught. -/
def isExhaustive (k : ℕ) (tl : List Term) : List (List Pattern) → Except PatternExn Bool
  | [] => .ok false
  | pl :: ppl =>
    match compile (fun _ => none) (fun _ _ => true) (fun _ _ _ => true) (k + pl.length)
      (checkTerms k tl pl) ((pl :: ppl).map (fun pl => (pl, true))) with
    | .ok (b, _) => .ok b
    | .error (.nonExhaustive _) => .ok false
    | .error e => .error e

end Pattern

end Why3

/-!
# The meaning of patterns

A `ValueSpace` is a universe of values in which the values of an algebraic
type can be taken apart: `dest ty d` is the constructor of `d` with its
arguments.  Constructor values are one such universe (`Value`, below), the
domains of an interpretation of the logic are others.
-/

namespace Why3

open List Function Pattern

/-- The constructors of a type, when `sig` gives those of every type symbol. -/
def constrsOf (sig : TySymbol → List LSymbol) : Ty → List LSymbol
  | .tyapp ts _ => sig ts
  | .tyvar _ => []

/-- Every constructor knows the number of constructors of its type. -/
def SigOk (sig : TySymbol → List LSymbol) : Prop :=
  ∀ ts, (sig ts).Nodup ∧ ∀ cs ∈ sig ts, cs.lsConstr = (sig ts).length

theorem constr_pos_of_mem {sig : TySymbol → List LSymbol} (hsig : SigOk sig) {ty : Ty}
    {cs : LSymbol} (h : cs ∈ constrsOf sig ty) :
    0 < cs.lsConstr := by
  cases ty with
  | tyvar v => simp [constrsOf] at h
  | tyapp ts l =>
    simp only [constrsOf] at h
    rw [(hsig ts).2 cs h]
    exact length_pos_of_mem h

structure ValueSpace (sig : TySymbol → List LSymbol) where
  Val : Type
  mem : Ty → Val → Prop
  dest : Ty → Val → Option (LSymbol × List Val)
  dest_mem : ∀ {ty d cs dl}, mem ty d → dest ty d = some (cs, dl) →
    cs ∈ constrsOf sig ty ∧ List.Forall₂ mem (argTys cs ty) dl
  dest_some : ∀ {ty d}, mem ty d → constrsOf sig ty ≠ [] → ∃ c, dest ty d = some c
  con : ∀ {ty cs dl}, cs ∈ constrsOf sig ty → List.Forall₂ mem (argTys cs ty) dl →
    ∃ d, mem ty d ∧ dest ty d = some (cs, dl)
  inhabited : ∀ ty, ∃ d, mem ty d

theorem constrsOf_nil (ty : Ty) : constrsOf (fun _ => []) ty = [] := by
  cases ty <;> rfl

/-! ## Matching -/

section Matching

variable {D : Type} (dest : Ty → D → Option (LSymbol × List D))

mutual
/-- The bindings that matching `d` against a pattern defines.  A pattern is
linear, so the order of the bindings plays no part; it is the one in which
`compile` nests its lets. -/
def Pattern.matchPat : Pattern → D → Option (List (VSymbol × D))
  | .pwild _, _ => some []
  | .pvar v, d => some [(v, d)]
  | .papp s pl ty, d =>
    match dest ty d with
    | some (cs, dl) => if cs = s then matchArgs pl dl else none
    | none => none
  | .por p q, d => (matchPat p d).or (matchPat q d)
  | .pas p v, d => (matchPat p d).map ((v, d) :: ·)
def Pattern.matchArgs : List Pattern → List D → Option (List (VSymbol × D))
  | [], [] => some []
  | p :: pl, d :: dl =>
    match matchPat p d, matchArgs pl dl with
    | some bs, some bs' => some (bs' ++ bs)
    | _, _ => none
  | _, _ => none
end

attribute [grind =] Pattern.matchPat Pattern.matchArgs

/-- Matching a tuple of values against a row of patterns. -/
def Pattern.matchRow : List Pattern → List D → Option (List (VSymbol × D))
  | [], [] => some []
  | p :: pl, d :: dl =>
    match matchPat dest p d, matchRow pl dl with
    | some bs, some bs' => some (bs ++ bs')
    | _, _ => none
  | _, _ => none

/-- The action of the first row that matches, with its bindings. -/
def Pattern.firstMatch {α : Type} (rl : List (Row α)) (dl : List D) :
    Option (α × List (VSymbol × D)) :=
  rl.findSome? (fun r => (matchRow dest r.1 dl).map (fun bs => (r.2, bs)))

end Matching

/-- The valuation `ρ` changed by the bindings `bs`. -/
def bindAll {D : Type} (ρ : VSymbol → D) (bs : List (VSymbol × D)) : VSymbol → D :=
  fun v => (bs.lookup v).getD (ρ v)

variable {D : Type}

@[simp] theorem bindAll_nil (ρ : VSymbol → D) : bindAll ρ [] = ρ := rfl

theorem bindAll_cons (ρ : VSymbol → D) (v : VSymbol) (d : D)
    (bs : List (VSymbol × D)) :
    bindAll ρ ((v, d) :: bs) = update (bindAll ρ bs) v d := by
  funext w
  by_cases h : w = v
  · subst h
    simp [bindAll, List.lookup]
  · have : (w == v) = false := by simpa using h
    simp [bindAll, List.lookup, this, update_of_ne h]

theorem bindAll_append (ρ : VSymbol → D) (b₁ b₂ : List (VSymbol × D)) :
    bindAll ρ (b₁ ++ b₂) = bindAll (bindAll ρ b₂) b₁ := by
  induction b₁ with
  | nil => rfl
  | cons b b₁ ih =>
    rcases b with ⟨v, d⟩
    rw [cons_append, bindAll_cons, bindAll_cons, ih]

variable {bs : List (VSymbol × D)}

theorem bindAll_of_not_mem {ρ : VSymbol → D}
    {v : VSymbol} (h : v ∉ bs.map Prod.fst) : bindAll ρ bs v = ρ v := by
  induction bs with
  | nil => rfl
  | cons b bs ih =>
    rcases b with ⟨w, d⟩
    rw [map_cons, mem_cons, not_or] at h
    rw [bindAll_cons, update_of_ne h.1, ih h.2]

theorem bindAll_update {ρ : VSymbol → D} {u : VSymbol}
    {x : D} (h : u ∉ bs.map Prod.fst) :
    bindAll (update ρ u x) bs = update (bindAll ρ bs) u x := by
  induction bs with
  | nil => rfl
  | cons b bs ih =>
    rcases b with ⟨w, d⟩
    rw [map_cons, mem_cons, not_or] at h
    rw [bindAll_cons, bindAll_cons, ih h.2, update_comm h.1]

theorem mem_bindAll_of_mem {v : VSymbol}
    (h : v ∈ bs.map Prod.fst) (ρ : VSymbol → D) : (v, bindAll ρ bs v) ∈ bs := by
  induction bs with
  | nil => simp at h
  | cons b bs ih =>
    rcases b with ⟨w, d⟩
    rw [bindAll_cons]
    by_cases hv : v = w
    · subst hv
      rw [update_self]
      exact mem_cons_self
    · rw [update_of_ne hv]
      rw [map_cons, mem_cons] at h
      exact mem_cons_of_mem _ (ih (h.resolve_left hv))

/-- The outcome of a case analysis: that of its first branch that matches. -/
def Pattern.runBranches {D α R : Type} (dest : Ty → D → Option (LSymbol × List D))
    (evA : α → (VSymbol → D) → R) (ρ : VSymbol → D) (d : D) (bl : List (Pattern × α)) :
    Option R :=
  bl.findSome? (fun b => (matchPat dest b.1 d).map (fun bs => evA b.2 (bindAll ρ bs)))

theorem Pattern.runBranches_cons {α R : Type} (dest : Ty → D → Option (LSymbol × List D))
    (evA : α → (VSymbol → D) → R) (ρ : VSymbol → D) (d : D) (b : Pattern × α)
    (bl : List (Pattern × α)) :
    runBranches dest evA ρ d (b :: bl) =
      ((matchPat dest b.1 d).map (fun bs => evA b.2 (bindAll ρ bs))).or
        (runBranches dest evA ρ d bl) := by
  rw [runBranches, findSome?_cons]
  cases matchPat dest b.1 d <;> rfl

/-! ## Well-typed patterns -/

variable (sig : TySymbol → List LSymbol)

mutual
/-- What `pat_app`, `pat_or` and `pat_as` check. -/
def Pattern.Ok : Pattern → Prop
  | .pwild _ | .pvar _ => True
  | .papp s pl ty => s ∈ constrsOf sig ty ∧ pl.map patTy = argTys s ty ∧
      Pattern.OkList pl
  | .por p q => p.Ok ∧ q.Ok ∧ p.patTy = q.patTy ∧ ∀ v, v ∈ p.patVars ↔ v ∈ q.patVars
  | .pas p v => p.Ok ∧ p.patTy = v.vsTy
def Pattern.OkList : List Pattern → Prop
  | [] => True
  | p :: pl => p.Ok ∧ Pattern.OkList pl
end

attribute [grind =] Pattern.Ok Pattern.OkList

@[simp] theorem Pattern.okList_iff (pl : List Pattern) :
    Pattern.OkList sig pl ↔ ∀ p ∈ pl, p.Ok sig := by
  induction pl with
  | nil => simp [Pattern.OkList]
  | cons p pl ih => simp [Pattern.OkList, ih]

/-! ## Evaluation of terms -/

variable {sig}

/-- A valuation that respects types. -/
def ValueSpace.Typed (V : ValueSpace sig) (ρ : VSymbol → V.Val) : Prop :=
  ∀ v, V.mem v.vsTy (ρ v)

/-- An evaluation of well-typed terms: all that is said about it is that a
constructor application denotes a value with this constructor. -/
structure TermSem (V : ValueSpace sig) where
  wt : Term → Prop
  ev : (VSymbol → V.Val) → Term → V.Val
  wt_var : ∀ a v, wt (.tvar a v)
  wt_constr : ∀ {a cs al ty}, wt (.tapp a cs al ty) → 0 < cs.lsConstr →
    ∃ ty', ty = some ty' ∧ cs ∈ constrsOf sig ty' ∧
      al.map Term.tTy = (argTys cs ty').map some ∧ ∀ t ∈ al, wt t
  ev_mem : ∀ {ρ t ty}, V.Typed ρ → wt t → t.tTy = some ty → V.mem ty (ev ρ t)
  ev_var : ∀ ρ a v, ev ρ (.tvar a v) = ρ v
  ev_constr : ∀ {ρ a cs al ty}, V.Typed ρ → wt (.tapp a cs al (some ty)) → 0 < cs.lsConstr →
    V.dest ty (ev ρ (.tapp a cs al (some ty))) = some (cs, al.map (ev ρ))
  ev_congr : ∀ {ρ ρ' t}, (∀ v ∈ t.freeVars, ρ v = ρ' v) → ev ρ t = ev ρ' t

/-- The values that a term can take, as far as its constructors tell. -/
inductive Compat (V : ValueSpace sig) : Term → V.Val → Prop
  | constr {a cs al ty d dl} : 0 < cs.lsConstr → V.mem ty d → V.dest ty d = some (cs, dl) →
      List.Forall₂ (Compat V) al dl → Compat V (.tapp a cs al (some ty)) d
  | other {t ty d} : (∀ cs al, appOf t = some (cs, al) → cs.lsConstr = 0) →
      t.tTy = some ty → V.mem ty d → Compat V t d

variable {V : ValueSpace sig}

theorem Compat.mem {t : Term} {ty : Ty} {d : V.Val} (h : Compat V t d) (hty : t.tTy = some ty) :
    V.mem ty d := by
  cases h with
  | constr _ hm _ _ => simp only [Term.tTy, Option.some.injEq] at hty; exact hty ▸ hm
  | other _ ht hm => rw [ht, Option.some.injEq] at hty; exact hty ▸ hm

theorem forall₂_compat_mem {al : List Term} {dl : List V.Val} (h : List.Forall₂ (Compat V) al dl) :
    ∀ {tys : List Ty}, al.map Term.tTy = tys.map some → List.Forall₂ V.mem tys dl := by
  induction h with
  | nil =>
    intro tys hty
    cases tys with
    | nil => exact .nil
    | cons ty tys => simp at hty
  | cons h _ ih =>
    intro tys hty
    cases tys with
    | nil => simp at hty
    | cons ty tys =>
      simp only [map_cons, List.cons.injEq] at hty
      exact .cons (h.mem hty.1) (ih hty.2)

/-- A list of witnesses from a witness for each element. -/
theorem exists_forall₂ {A B : Type*} {P : A → B → Prop} {l : List A} (h : ∀ a ∈ l, ∃ b, P a b) :
    ∃ bl, List.Forall₂ P l bl := by
  induction l with
  | nil => exact ⟨[], .nil⟩
  | cons a l ih =>
    obtain ⟨b, hb⟩ := h a mem_cons_self
    obtain ⟨bl, hbl⟩ := ih (fun a ha => h a (mem_cons_of_mem _ ha))
    exact ⟨b :: bl, .cons hb hbl⟩

theorem exists_append_of_forall₂ {A B : Type} {P : A → B → Prop} {l₁ l₂ : List A} {m : List B}
    (h : List.Forall₂ P (l₁ ++ l₂) m) :
    ∃ m₁ m₂, List.Forall₂ P l₁ m₁ ∧ List.Forall₂ P l₂ m₂ ∧ m = m₁ ++ m₂ := by
  refine ⟨m.take l₁.length, m.drop l₁.length, ?_, ?_, (take_append_drop _ _).symm⟩
  · simpa using forall₂_take l₁.length h
  · simpa using forall₂_drop l₁.length h

/-- Every well-typed term can take some value. -/
theorem compat_exists (E : TermSem V) {t : Term} : E.wt t →
    t.tTy ≠ none → ∃ d, Compat V t d := by
  have hother : ∀ {t : Term}, (∀ cs al, appOf t = some (cs, al) → cs.lsConstr = 0) →
      t.tTy ≠ none → ∃ d, Compat V t d := by
    intro t hn hty
    obtain ⟨ty, hty⟩ := Option.ne_none_iff_exists'.mp hty
    obtain ⟨d, hd⟩ := V.inhabited ty
    exact ⟨d, .other hn hty hd⟩
  induction t with
  | tapp a s tl ty ih =>
    intro hwt hty
    by_cases hs : 0 < s.lsConstr
    · obtain ⟨ty', rfl, hmem, htys, hal⟩ := E.wt_constr hwt hs
      have hsome : ∀ t ∈ tl, t.tTy ≠ none := by
        intro t ht
        have : t.tTy ∈ (argTys s ty').map some := htys ▸ mem_map_of_mem ht
        obtain ⟨u, _, hu⟩ := mem_map.mp this
        simp [← hu]
      obtain ⟨dl, hdl⟩ := exists_forall₂ (fun t ht => ih t ht (hal t ht) (hsome t ht))
      obtain ⟨d, hm, hd⟩ := V.con hmem (forall₂_compat_mem hdl htys)
      exact ⟨d, .constr hs hm hd hdl⟩
    · refine hother ?_ hty
      intro cs al h
      simp only [appOf, Option.some.injEq, Prod.mk.injEq] at h
      rw [← h.1]
      omega
  | _ => intro _ hty; exact hother (by simp [appOf]) hty

end Why3
