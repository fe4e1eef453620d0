import Mathlib.Tactic
import Mathlib.Data.List.Sort
import Mathlib.Data.List.Nodup

/-!
# Types of the logic

The types of `core/ty.ml`: type variables, type symbols and their definitions,
and types as trees of applications of type symbols.  An identifier is its tag
(`id_tag`), which is what the source compares; its string, its attributes and
its location play no part here.

Types, type symbols and type definitions are mutually recursive in the source
(an alias carries the type it stands for), and so they are here.
-/

namespace Why3

open List

structure TvSymbol where
  tvName : ℕ
deriving DecidableEq, Repr

/-- `Number.int_range`. -/
structure IntRange where
  irLower : ℤ
  irUpper : ℤ
deriving DecidableEq, Repr

/-- `Number.float_format`. -/
structure FloatFormat where
  fpExponentDigits : ℕ
  fpSignificandDigits : ℕ
deriving DecidableEq, Repr

mutual
inductive Ty : Type
  | tyvar (v : TvSymbol)
  | tyapp (s : TySymbol) (l : List Ty)
inductive TySymbol : Type
  | mk (tsName : ℕ) (tsArgs : List TvSymbol) (tsDef : TypeDef)
inductive TypeDef : Type
  | noDef
  | alias (ty : Ty)
  | range (ir : IntRange)
  | float (fp : FloatFormat)
end

namespace TySymbol

def tsName : TySymbol → ℕ
  | .mk n _ _ => n

def tsArgs : TySymbol → List TvSymbol
  | .mk _ a _ => a

def tsDef : TySymbol → TypeDef
  | .mk _ _ d => d

end TySymbol

/-! ## Decidable equality -/

mutual
def Ty.decEq : (a b : Ty) → Decidable (a = b)
  | .tyvar v, .tyvar w =>
    if h : v = w then isTrue (by rw [h]) else isFalse (by simp [h])
  | .tyvar _, .tyapp _ _ => isFalse (by simp)
  | .tyapp _ _, .tyvar _ => isFalse (by simp)
  | .tyapp s l, .tyapp s' l' =>
    match TySymbol.decEq s s', Ty.decEqList l l' with
    | isTrue h, isTrue h' => isTrue (by rw [h, h'])
    | isFalse h, _ => isFalse (by simp [h])
    | _, isFalse h => isFalse (by simp [h])
termination_by structural a => a
def Ty.decEqList : (a b : List Ty) → Decidable (a = b)
  | [], [] => isTrue rfl
  | [], _ :: _ => isFalse (by simp)
  | _ :: _, [] => isFalse (by simp)
  | t :: l, t' :: l' =>
    match Ty.decEq t t', Ty.decEqList l l' with
    | isTrue h, isTrue h' => isTrue (by rw [h, h'])
    | isFalse h, _ => isFalse (by simp [h])
    | _, isFalse h => isFalse (by simp [h])
termination_by structural a => a
def TySymbol.decEq : (a b : TySymbol) → Decidable (a = b)
  | .mk n a d, .mk n' a' d' =>
    if h : n = n' ∧ a = a' then
      match TypeDef.decEq d d' with
      | isTrue h' => isTrue (by rw [h.1, h.2, h'])
      | isFalse h' => isFalse (by simp [h'])
    else isFalse (by intro e; cases e; simp at h)
termination_by structural a => a
def TypeDef.decEq : (a b : TypeDef) → Decidable (a = b)
  | .noDef, .noDef => isTrue rfl
  | .alias t, .alias t' =>
    match Ty.decEq t t' with
    | isTrue h => isTrue (by rw [h])
    | isFalse h => isFalse (by simp [h])
  | .range r, .range r' => if h : r = r' then isTrue (by rw [h]) else isFalse (by simp [h])
  | .float f, .float f' => if h : f = f' then isTrue (by rw [h]) else isFalse (by simp [h])
  | .noDef, .alias _ | .noDef, .range _ | .noDef, .float _ => isFalse (by simp)
  | .alias _, .noDef | .alias _, .range _ | .alias _, .float _ => isFalse (by simp)
  | .range _, .noDef | .range _, .alias _ | .range _, .float _ => isFalse (by simp)
  | .float _, .noDef | .float _, .alias _ | .float _, .range _ => isFalse (by simp)
termination_by structural a => a
end

attribute [grind =] Ty.decEq Ty.decEqList TySymbol.decEq TypeDef.decEq

instance : DecidableEq Ty := Ty.decEq
instance : DecidableEq TySymbol := TySymbol.decEq
instance : DecidableEq TypeDef := TypeDef.decEq

/-- Induction on a type that does not look into its type symbols. -/
@[induction_eliminator]
theorem Ty.induct {motive : Ty → Prop} (tyvar : ∀ v, motive (.tyvar v))
    (tyapp : ∀ s l, (∀ t ∈ l, motive t) → motive (.tyapp s l)) : ∀ t, motive t :=
  @Ty.rec motive (fun _ => True) (fun _ => True) (fun l => ∀ t ∈ l, motive t)
    tyvar (fun s l _ hl => tyapp s l hl) (fun _ _ _ _ => trivial) trivial
    (fun _ _ => trivial) (fun _ => trivial) (fun _ => trivial)
    (fun _ h => by cases h)
    (fun t l ht hl u hu => by
      rcases mem_cons.mp hu with rfl | hu
      · exact ht
      · exact hl u hu)

/-! ## Traversals

Each traversal comes with the function it induces on a list of types; the
`simp` lemmas below turn the latter into the list operation it is. -/

mutual
/-- `ty_freevars`, as the list of occurrences from left to right. -/
def Ty.freevars : Ty → List TvSymbol
  | .tyvar v => [v]
  | .tyapp _ l => Ty.freevarsList l
def Ty.freevarsList : List Ty → List TvSymbol
  | [] => []
  | t :: l => t.freevars ++ Ty.freevarsList l
end

mutual
/-- The type symbols of a type, in the order of `ty_s_fold`. -/
def Ty.symbols : Ty → List TySymbol
  | .tyvar _ => []
  | .tyapp s l => s :: Ty.symbolsList l
def Ty.symbolsList : List Ty → List TySymbol
  | [] => []
  | t :: l => t.symbols ++ Ty.symbolsList l
end

mutual
/-- The occurrences of types in a type. -/
def Ty.subtypes : Ty → List Ty
  | .tyvar v => [.tyvar v]
  | .tyapp s l => .tyapp s l :: Ty.subtypesList l
def Ty.subtypesList : List Ty → List Ty
  | [] => []
  | t :: l => t.subtypes ++ Ty.subtypesList l
end

namespace Ty

@[simp] theorem subtypesList_eq (l : List Ty) : subtypesList l = l.flatMap subtypes := by
  induction l with
  | nil => rfl
  | cons t l ih => simp [subtypesList, ih]

/-- `ty_app` checks the number of arguments. -/
def Wf (ty : Ty) : Prop :=
  ∀ s l, .tyapp s l ∈ ty.subtypes → l.length = s.tsArgs.length

theorem self_mem_subtypes (ty : Ty) : ty ∈ ty.subtypes := by
  cases ty with
  | tyvar v => exact mem_singleton_self _
  | tyapp s l => exact mem_cons_self

theorem mem_subtypes_tyapp {s : TySymbol} {l : List Ty} {x : Ty} :
    x ∈ (Ty.tyapp s l).subtypes ↔ x = .tyapp s l ∨ ∃ t ∈ l, x ∈ t.subtypes := by
  simp [subtypes]

theorem Wf.tyapp {s : TySymbol} {l : List Ty} (h : (Ty.tyapp s l).Wf) :
    l.length = s.tsArgs.length ∧ ∀ t ∈ l, t.Wf :=
  ⟨h s l (self_mem_subtypes _), fun t ht s' l' hmem =>
    h s' l' (mem_subtypes_tyapp.mpr (.inr ⟨t, ht, hmem⟩))⟩

end Ty

/-- A map from type variables to types (`ty Mtv.t`), the newest binding first. -/
abbrev Mtv := List (TvSymbol × Ty)

mutual
/-- `ty_inst`: a variable outside the map stays itself. -/
def Ty.inst (m : Mtv) : Ty → Ty
  | .tyvar v => (m.lookup v).getD (.tyvar v)
  | .tyapp s l => .tyapp s (Ty.instList m l)
def Ty.instList (m : Mtv) : List Ty → List Ty
  | [] => []
  | t :: l => t.inst m :: Ty.instList m l
end

@[simp] theorem Ty.freevarsList_eq (l : List Ty) :
    Ty.freevarsList l = l.flatMap Ty.freevars := by
  induction l with
  | nil => rfl
  | cons t l ih => simp [Ty.freevarsList, ih]

@[simp] theorem Ty.symbolsList_eq (l : List Ty) :
    Ty.symbolsList l = l.flatMap Ty.symbols := by
  induction l with
  | nil => rfl
  | cons t l ih => simp [Ty.symbolsList, ih]

@[simp] theorem Ty.instList_eq (m : Mtv) (l : List Ty) :
    Ty.instList m l = l.map (Ty.inst m) := by
  induction l with
  | nil => rfl
  | cons t l ih => simp [Ty.instList, ih]

@[simp] theorem Ty.inst_nil (ty : Ty) : ty.inst [] = ty := by
  induction ty with
  | tyvar v => rfl
  | tyapp s l ih =>
    rw [Ty.inst, Ty.instList_eq, map_congr_left ih, map_id']

mutual
/-- `ty_match`: extend `m` so that `ty1` becomes `ty2`; `none` is the exception
`TypeMismatch`.  A variable already bound keeps its type. -/
def tyMatch (m : Mtv) : Ty → Ty → Option Mtv
  | .tyvar n, ty2 =>
    match m.lookup n with
    | none => some ((n, ty2) :: m)
    | some ty1 => if ty1 = ty2 then some m else none
  | .tyapp f1 l1, .tyapp f2 l2 => if f1 = f2 then tyMatchList m l1 l2 else none
  | .tyapp _ _, .tyvar _ => none
def tyMatchList (m : Mtv) : List Ty → List Ty → Option Mtv
  | [], [] => some m
  | t1 :: l1, t2 :: l2 =>
    match tyMatch m t1 t2 with
    | some m => tyMatchList m l1 l2
    | none => none
  | _, _ => none
end

attribute [grind =] tyMatch tyMatchList

/-- `ts_match_args`: the parameters of `s` bound to the arguments `tl`. -/
def TySymbol.matchArgs (s : TySymbol) (tl : List Ty) : Mtv :=
  s.tsArgs.zip tl

/-! ## Built-in symbols

The built-in identifiers take the first tags, in the order in which `ty.ml`
registers them. -/

def tsInt : TySymbol := .mk 0 [] .noDef
def tsReal : TySymbol := .mk 1 [] .noDef
def tsBool : TySymbol := .mk 2 [] .noDef

/-- The type symbol of functions, `(->) 'a 'b`. -/
def tsFunc : TySymbol := .mk 6 [⟨4⟩, ⟨5⟩] .noDef

def tyInt : Ty := .tyapp tsInt []
def tyReal : Ty := .tyapp tsReal []
def tyBool : Ty := .tyapp tsBool []
def tyFunc (a b : Ty) : Ty := .tyapp tsFunc [a, b]

end Why3
