import Why3.Core.PatternMatch
import Mathlib.Logic.Relation

/-!
# Constructor values

The finite values: a constructor applied to values, or an element of a type
without constructors.  They form a value space as soon as every type has a
value, which the foundness check of data declarations is there to ensure.
-/

namespace Why3

open List

inductive Value : Type
  | con (cs : LSymbol) (dl : List Value)
  | atom (ty : Ty) (n : ℕ)

namespace Value

@[induction_eliminator]
theorem induct {motive : Value → Prop}
    (con : ∀ cs dl, (∀ d ∈ dl, motive d) → motive (.con cs dl))
    (atom : ∀ ty n, motive (.atom ty n)) : ∀ d, motive d :=
  @Value.rec motive (fun dl => ∀ d ∈ dl, motive d) (fun cs dl h => con cs dl h) atom
    (fun _ h => by cases h)
    (fun d l hd hl e he => by
      rcases mem_cons.mp he with rfl | he
      · exact hd
      · exact hl e he)

/-! ## The structural order -/

inductive Child : Value → Value → Prop
  | mk {cs dl d} : d ∈ dl → Child d (.con cs dl)

/-- The strict subterms of a value. -/
def Subterm : Value → Value → Prop := Relation.TransGen Child

theorem wellFounded_child : WellFounded Child := by
  constructor
  intro d
  induction d with
  | con cs dl ih =>
    constructor
    rintro e ⟨he⟩
    exact ih e he
  | atom ty n =>
    constructor
    rintro e ⟨⟩

theorem wellFounded_subterm : WellFounded Subterm := wellFounded_child.transGen

theorem Subterm.trans {d e f : Value} (h₁ : Subterm d e) (h₂ : Subterm e f) : Subterm d f :=
  Relation.TransGen.trans h₁ h₂

/-! ## Typed values -/

variable (sig : TySymbol → List LSymbol)

inductive HasTy : Ty → Value → Prop
  | con {ty cs dl} : cs ∈ constrsOf sig ty → List.Forall₂ HasTy (argTys cs ty) dl →
      HasTy ty (.con cs dl)
  | atom {ty n} : constrsOf sig ty = [] → HasTy ty (.atom ty n)

/-- The constructor of a value of type `ty`, with its arguments. -/
def dest (ty : Ty) : Value → Option (LSymbol × List Value)
  | .con cs dl => if cs ∈ constrsOf sig ty then some (cs, dl) else none
  | .atom _ _ => none

variable {sig}

theorem dest_hasTy {ty : Ty} {d : Value} {cs : LSymbol} {dl : List Value} (h : HasTy sig ty d)
    (hd : dest sig ty d = some (cs, dl)) :
    cs ∈ constrsOf sig ty ∧ List.Forall₂ (HasTy sig) (argTys cs ty) dl := by
  cases h with
  | con hcs hdl =>
    simp only [dest, hcs, if_true, Option.some.injEq, Prod.mk.injEq] at hd
    obtain ⟨rfl, rfl⟩ := hd
    exact ⟨hcs, hdl⟩
  | atom _ => simp [dest] at hd

end Value

/-- The space of constructor values. -/
def constructorSpace (sig : TySymbol → List LSymbol)
    (hinh : ∀ ty, ∃ d, Value.HasTy sig ty d) : ValueSpace sig where
  Val := Value
  mem := Value.HasTy sig
  dest := Value.dest sig
  dest_mem := Value.dest_hasTy
  dest_some := by
    intro ty d h hne
    cases h with
    | @con _ cs dl hcs _ => exact ⟨(cs, dl), by simp [Value.dest, hcs]⟩
    | atom hnil => exact absurd hnil hne
  con := by
    intro ty cs dl hcs hdl
    exact ⟨.con cs dl, .con hcs hdl, by simp [Value.dest, hcs]⟩
  inhabited := hinh

/-! ## Constructor terms -/

/-- Terms built from variables and constructors. -/
inductive ConstrTerm (sig : TySymbol → List LSymbol) : Term → Prop
  | var (a : Sattr) (v : VSymbol) : ConstrTerm sig (.tvar a v)
  | constr {a cs al ty} : cs ∈ constrsOf sig ty → al.map Term.tTy = (argTys cs ty).map some →
      (∀ t ∈ al, ConstrTerm sig t) → ConstrTerm sig (.tapp a cs al (some ty))

namespace Value

/-- The value of a constructor term. -/
def eval (ρ : VSymbol → Value) : Term → Value
  | .tvar _ v => ρ v
  | .tapp _ cs al _ => .con cs (evalList al)
  | _ => .atom tyInt 0
where
  evalList : List Term → List Value
    | [] => []
    | t :: tl => eval ρ t :: evalList tl

@[simp] theorem evalList_eq (ρ : VSymbol → Value) (tl : List Term) :
    eval.evalList ρ tl = tl.map (eval ρ) := by
  induction tl with
  | nil => rfl
  | cons t tl ih => simp [eval.evalList, ih]

theorem dest_eval {sig : TySymbol → List LSymbol} {cs : LSymbol} {ty : Ty} (ρ : VSymbol → Value)
    (a : Sattr) (al : List Term) (hcs : cs ∈ constrsOf sig ty) :
    dest sig ty (eval ρ (.tapp a cs al (some ty))) = some (cs, al.map (eval ρ)) := by
  simp [eval, dest, hcs]

theorem eval_congr {ρ ρ' : VSymbol → Value} {t : Term} (h : ∀ v ∈ t.freeVars, ρ v = ρ' v) :
    eval ρ t = eval ρ' t := by
  induction t with
  | tvar a v => exact h v (by simp [Term.freeVars])
  | tapp a s tl ty ih =>
    simp only [eval, evalList_eq, con.injEq, true_and]
    refine map_congr_left (fun t ht => ih t ht (fun v hv => h v ?_))
    simp only [Term.freeVars, Term.freeVarsList_eq, mem_flatMap]
    exact ⟨t, ht, hv⟩
  | _ => rfl

theorem eval_hasTy {sig : TySymbol → List LSymbol} {ρ : VSymbol → Value}
    (hρ : ∀ v : VSymbol, HasTy sig v.vsTy (ρ v)) {t : Term} {ty : Ty} (ht : ConstrTerm sig t)
    (hty : t.tTy = some ty) : HasTy sig ty (eval ρ t) := by
  induction ht generalizing ty with
  | var a v =>
    simp only [Term.tTy, Option.some.injEq] at hty
    exact hty ▸ hρ v
  | @constr a cs al ty' hcs htys _ ih =>
    simp only [Term.tTy, Option.some.injEq] at hty
    subst hty
    simp only [eval, evalList_eq]
    refine .con hcs ?_
    have hall : List.Forall₂ (fun ty t => HasTy sig ty (eval ρ t)) (argTys cs ty') al := by
      rw [forall₂_iff_get]
      have hlen : (argTys cs ty').length = al.length := by
        simpa using (congrArg List.length htys).symm
      refine ⟨hlen, fun i h₁ h₂ => ih _ (get_mem al ⟨i, h₂⟩) ?_⟩
      have := congrArg (fun l => l[i]?) htys
      simpa [h₁, h₂] using this
    exact forall₂_map_right_iff.mpr hall

end Value

/-- The evaluation of constructor terms by constructor values. -/
def constructorSem {sig : TySymbol → List LSymbol} (hinh : ∀ ty, ∃ d, Value.HasTy sig ty d) :
    TermSem (constructorSpace sig hinh) where
  wt := ConstrTerm sig
  ev := Value.eval
  wt_var := .var
  wt_constr := by
    intro a cs al ty h _
    cases h with
    | constr hcs htys hal => exact ⟨_, rfl, hcs, htys, hal⟩
  ev_mem := fun hρ ht hty => Value.eval_hasTy hρ ht hty
  ev_var := fun _ _ _ => rfl
  ev_constr := by
    intro ρ a cs al ty _ h _
    cases h with
    | constr hcs _ _ => exact Value.dest_eval ρ a al hcs
  ev_congr := Value.eval_congr

/-! ## Lists

The signature with one algebraic type, `type list 'a = Nil | Cons 'a (list 'a)`. -/

namespace Lists

def tsList : TySymbol := ⟨100, [⟨101⟩], .noDef⟩

def listTy (ty : Ty) : Ty := .tyapp tsList [ty]

def fsNil : LSymbol := ⟨102, [], some (listTy (.tyvar ⟨101⟩)), 2, false⟩

def fsCons : LSymbol :=
  ⟨103, [.tyvar ⟨101⟩, listTy (.tyvar ⟨101⟩)], some (listTy (.tyvar ⟨101⟩)), 2, false⟩

def listSig (ts : TySymbol) : List LSymbol := if ts = tsList then [fsNil, fsCons] else []

theorem sigOk_listSig : SigOk listSig := by
  intro ts
  by_cases h : ts = tsList
  · rw [h]
    decide
  · simp [listSig, h]

theorem exists_hasTy (ty : Ty) : ∃ d, Value.HasTy listSig ty d := by
  by_cases h : constrsOf listSig ty = []
  · exact ⟨.atom ty 0, .atom h⟩
  · cases ty with
    | tyvar v => exact absurd rfl h
    | tyapp ts l =>
      have hts : ts = tsList := by
        by_contra hne
        simp [constrsOf, listSig, hne] at h
      subst hts
      exact ⟨.con fsNil [], .con (by simp [constrsOf, listSig]) .nil⟩

end Lists

end Why3
