import Why3.Core.Term

/-!
# Individual types and regions

The types of `mlw/ity.ml`.  A type of mutable records is a region; the type
symbol of a region lists its fields, and their types speak of the parameters of
the symbol and of its own regions (`its_regions`), which an instance replaces.

Types and regions are compared as a whole.  The source compares addresses: a
type is hash-consed, and a region is made once for its name, so the two agree.
Definitions of types (`its_def`) are left out: an application of an alias is
expanded when it is made.
-/

namespace Why3

/-- `its_flag`, for each parameter and each region of a type symbol. -/
structure ItsFlag where
  /-- cannot be updated -/
  itsFrozen : Bool
  /-- directly reachable from a field -/
  itsExposed : Bool
  /-- exposed in the type invariant -/
  itsLiable : Bool
  /-- exposed in a non-mutable field -/
  itsFixed : Bool
  /-- visible from the non-ghost code -/
  itsVisible : Bool
deriving DecidableEq

mutual
inductive Ity : Type
  | ityreg (r : Region)
  | ityapp (s : ItySymbol) (tl rl : List Ity)
  | ityvar (v : TvSymbol)
inductive Region : Type
  | mk (regName : ℕ) (regIts : ItySymbol) (regArgs regRegs : List Ity)
inductive PvSymbol : Type
  | mk (pvVs : VSymbol) (pvIty : Ity) (pvGhost : Bool)
inductive ItySymbol : Type
  | mk (itsTs : TySymbol) (itsNonfree itsPrivate itsMutable itsFragile : Bool)
      (itsMfields itsOfields : List PvSymbol) (itsRegions : List Region)
      (itsArgFlg itsRegFlg : List ItsFlag)
end

namespace Region

def regName : Region → ℕ
  | .mk n _ _ _ => n

def regIts : Region → ItySymbol
  | .mk _ s _ _ => s

def regArgs : Region → List Ity
  | .mk _ _ tl _ => tl

def regRegs : Region → List Ity
  | .mk _ _ _ rl => rl

end Region

namespace PvSymbol

def pvVs : PvSymbol → VSymbol
  | .mk v _ _ => v

def pvIty : PvSymbol → Ity
  | .mk _ t _ => t

def pvGhost : PvSymbol → Bool
  | .mk _ _ g => g

end PvSymbol

namespace ItySymbol

def itsTs : ItySymbol → TySymbol
  | .mk ts _ _ _ _ _ _ _ _ _ => ts

def itsNonfree : ItySymbol → Bool
  | .mk _ b _ _ _ _ _ _ _ _ => b

def itsPrivate : ItySymbol → Bool
  | .mk _ _ b _ _ _ _ _ _ _ => b

def itsMutable : ItySymbol → Bool
  | .mk _ _ _ b _ _ _ _ _ _ => b

def itsFragile : ItySymbol → Bool
  | .mk _ _ _ _ b _ _ _ _ _ => b

def itsMfields : ItySymbol → List PvSymbol
  | .mk _ _ _ _ _ l _ _ _ _ => l

def itsOfields : ItySymbol → List PvSymbol
  | .mk _ _ _ _ _ _ l _ _ _ => l

def itsRegions : ItySymbol → List Region
  | .mk _ _ _ _ _ _ _ l _ _ => l

def itsArgFlg : ItySymbol → List ItsFlag
  | .mk _ _ _ _ _ _ _ _ l _ => l

def itsRegFlg : ItySymbol → List ItsFlag
  | .mk _ _ _ _ _ _ _ _ _ l => l

/-- The arguments of an application with their flags, in the order of
`its_fold`. -/
def positions (s : ItySymbol) (tl rl : List Ity) : List (ItsFlag × Ity) :=
  s.itsArgFlg.zip tl ++ s.itsRegFlg.zip rl

end ItySymbol

/-! ## Decidable equality -/

mutual
def Ity.decEq : (a b : Ity) → Decidable (a = b)
  | .ityreg r, .ityreg r' =>
    match Region.decEq r r' with
    | isTrue h => isTrue (by rw [h])
    | isFalse h => isFalse (by simp [h])
  | .ityapp s tl rl, .ityapp s' tl' rl' =>
    match ItySymbol.decEq s s', Ity.decEqList tl tl', Ity.decEqList rl rl' with
    | isTrue h₁, isTrue h₂, isTrue h₃ => isTrue (by rw [h₁, h₂, h₃])
    | isFalse h, _, _ => isFalse (by simp [h])
    | _, isFalse h, _ => isFalse (by simp [h])
    | _, _, isFalse h => isFalse (by simp [h])
  | .ityvar v, .ityvar v' => if h : v = v' then isTrue (by rw [h]) else isFalse (by simp [h])
  | .ityreg _, .ityapp _ _ _ | .ityreg _, .ityvar _ => isFalse (by simp)
  | .ityapp _ _ _, .ityreg _ | .ityapp _ _ _, .ityvar _ => isFalse (by simp)
  | .ityvar _, .ityreg _ | .ityvar _, .ityapp _ _ _ => isFalse (by simp)
termination_by structural a => a
def Ity.decEqList : (a b : List Ity) → Decidable (a = b)
  | [], [] => isTrue rfl
  | [], _ :: _ => isFalse (by simp)
  | _ :: _, [] => isFalse (by simp)
  | t :: l, t' :: l' =>
    match Ity.decEq t t', Ity.decEqList l l' with
    | isTrue h, isTrue h' => isTrue (by rw [h, h'])
    | isFalse h, _ => isFalse (by simp [h])
    | _, isFalse h => isFalse (by simp [h])
termination_by structural a => a
def Region.decEq : (a b : Region) → Decidable (a = b)
  | .mk n s tl rl, .mk n' s' tl' rl' =>
    if hn : n = n' then
      match ItySymbol.decEq s s', Ity.decEqList tl tl', Ity.decEqList rl rl' with
      | isTrue h₁, isTrue h₂, isTrue h₃ => isTrue (by rw [hn, h₁, h₂, h₃])
      | isFalse h, _, _ => isFalse (by simp [h])
      | _, isFalse h, _ => isFalse (by simp [h])
      | _, _, isFalse h => isFalse (by simp [h])
    else isFalse (by simp [hn])
termination_by structural a => a
def Region.decEqList : (a b : List Region) → Decidable (a = b)
  | [], [] => isTrue rfl
  | [], _ :: _ => isFalse (by simp)
  | _ :: _, [] => isFalse (by simp)
  | t :: l, t' :: l' =>
    match Region.decEq t t', Region.decEqList l l' with
    | isTrue h, isTrue h' => isTrue (by rw [h, h'])
    | isFalse h, _ => isFalse (by simp [h])
    | _, isFalse h => isFalse (by simp [h])
termination_by structural a => a
def PvSymbol.decEq : (a b : PvSymbol) → Decidable (a = b)
  | .mk v t g, .mk v' t' g' =>
    if h : v = v' ∧ g = g' then
      match Ity.decEq t t' with
      | isTrue h' => isTrue (by rw [h.1, h.2, h'])
      | isFalse h' => isFalse (by simp [h'])
    else isFalse (by intro e; cases e; simp at h)
termination_by structural a => a
def PvSymbol.decEqList : (a b : List PvSymbol) → Decidable (a = b)
  | [], [] => isTrue rfl
  | [], _ :: _ => isFalse (by simp)
  | _ :: _, [] => isFalse (by simp)
  | t :: l, t' :: l' =>
    match PvSymbol.decEq t t', PvSymbol.decEqList l l' with
    | isTrue h, isTrue h' => isTrue (by rw [h, h'])
    | isFalse h, _ => isFalse (by simp [h])
    | _, isFalse h => isFalse (by simp [h])
termination_by structural a => a
def ItySymbol.decEq : (a b : ItySymbol) → Decidable (a = b)
  | .mk ts b₁ b₂ b₃ b₄ mf off rg af rf, .mk ts' b₁' b₂' b₃' b₄' mf' off' rg' af' rf' =>
    if h : (ts = ts' ∧ b₁ = b₁' ∧ b₂ = b₂' ∧ b₃ = b₃' ∧ b₄ = b₄') ∧ af = af' ∧ rf = rf' then
      match PvSymbol.decEqList mf mf', PvSymbol.decEqList off off', Region.decEqList rg rg' with
      | isTrue h₁, isTrue h₂, isTrue h₃ =>
        isTrue (by obtain ⟨⟨rfl, rfl, rfl, rfl, rfl⟩, rfl, rfl⟩ := h; rw [h₁, h₂, h₃])
      | isFalse h, _, _ => isFalse (by simp [h])
      | _, isFalse h, _ => isFalse (by simp [h])
      | _, _, isFalse h => isFalse (by simp [h])
    else isFalse (by intro e; cases e; simp at h)
termination_by structural a => a
end

attribute [grind =] Ity.decEq Ity.decEqList Region.decEq Region.decEqList PvSymbol.decEq
  PvSymbol.decEqList ItySymbol.decEq

instance : DecidableEq Ity := Ity.decEq
instance : DecidableEq Region := Region.decEq
instance : DecidableEq PvSymbol := PvSymbol.decEq
instance : DecidableEq ItySymbol := ItySymbol.decEq

/-- Induction on a type that looks into the arguments of its regions, but not
into the type symbols. -/
@[induction_eliminator]
theorem Ity.induct {motive : Ity → Prop}
    (ityreg : ∀ n s tl rl, (∀ t ∈ tl, motive t) → (∀ t ∈ rl, motive t) →
      motive (.ityreg (.mk n s tl rl)))
    (ityapp : ∀ s tl rl, (∀ t ∈ tl, motive t) → (∀ t ∈ rl, motive t) → motive (.ityapp s tl rl))
    (ityvar : ∀ v, motive (.ityvar v)) : ∀ t, motive t :=
  @Ity.rec motive (fun r => motive (.ityreg r)) (fun _ => True) (fun _ => True)
    (fun l => ∀ t ∈ l, motive t) (fun _ => True) (fun _ => True)
    (fun _ h => h) (fun s tl rl _ htl hrl => ityapp s tl rl htl hrl) ityvar
    (fun n s tl rl _ htl hrl => ityreg n s tl rl htl hrl) (fun _ _ _ _ => trivial)
    (fun _ _ _ _ _ _ _ _ _ _ _ _ _ => trivial)
    (fun _ h => by cases h)
    (fun t l ht hl u hu => by
      rcases List.mem_cons.mp hu with rfl | hu
      · exact ht
      · exact hl u hu)
    trivial (fun _ _ _ _ => trivial) trivial (fun _ _ _ _ => trivial)

/-! ## Types without regions -/

mutual
/-- `ty_of_ity`. -/
def tyOfIty : Ity → Ty
  | .ityreg (.mk _ s tl _) => .tyapp s.itsTs (tyOfItyList tl)
  | .ityapp s tl _ => .tyapp s.itsTs (tyOfItyList tl)
  | .ityvar v => .tyvar v
def tyOfItyList : List Ity → List Ty
  | [] => []
  | t :: tl => tyOfIty t :: tyOfItyList tl
end

/-! ## Traversals

A fold of the source is the list of what it visits, in order. -/

namespace Ity

mutual
/-- `ity_pure`: no region occurs. -/
def pure : Ity → Bool
  | .ityvar _ => true
  | .ityreg _ => false
  | .ityapp _ tl rl => pureList tl && pureList rl
def pureList : List Ity → Bool
  | [] => true
  | t :: tl => t.pure && pureList tl
end

mutual
/-- `ity_freevars`. -/
def freevars : Ity → List TvSymbol
  | .ityreg (.mk _ _ tl _) => freevarsList tl
  | .ityapp _ tl _ => freevarsList tl
  | .ityvar v => [v]
def freevarsList : List Ity → List TvSymbol
  | [] => []
  | t :: tl => t.freevars ++ freevarsList tl
end

/-- `ity_closed`. -/
def closed (t : Ity) : Bool := t.freevars.isEmpty

mutual
/-- `ity_top_regs`. -/
def topRegs : Ity → List Region
  | .ityreg r => [r]
  | .ityapp s tl rl =>
    if (Ity.ityapp s tl rl).pure then [] else topRegsList tl ++ topRegsList rl
  | .ityvar _ => []
def topRegsList : List Ity → List Region
  | [] => []
  | t :: tl => t.topRegs ++ topRegsList tl
end

mutual
/-- `ity_exp_fold`: the regions in exposed positions. -/
def expRegs : Ity → List Region
  | .ityreg r => [r]
  | .ityapp s tl rl =>
    if (Ity.ityapp s tl rl).pure then []
    else expRegsArgs s.itsArgFlg tl ++ expRegsArgs s.itsRegFlg rl
  | .ityvar _ => []
def expRegsArgs : List ItsFlag → List Ity → List Region
  | fl :: fll, t :: tl => (if fl.itsExposed then t.expRegs else []) ++ expRegsArgs fll tl
  | _, _ => []
end

mutual
/-- The walks through the positions that `sel` admits, into the regions too; it
ends at the regions of `stop`. -/
def walk (sel : ItsFlag → Bool) (stop : Region → Bool) : Ity → List Region
  | .ityreg (.mk n s tl rl) =>
    if stop (.mk n s tl rl) then []
    else .mk n s tl rl :: (walkArgs sel stop s.itsArgFlg tl ++ walkArgs sel stop s.itsRegFlg rl)
  | .ityapp s tl rl =>
    if (Ity.ityapp s tl rl).pure then []
    else walkArgs sel stop s.itsArgFlg tl ++ walkArgs sel stop s.itsRegFlg rl
  | .ityvar _ => []
def walkArgs (sel : ItsFlag → Bool) (stop : Region → Bool) : List ItsFlag → List Ity → List Region
  | fl :: fll, t :: tl => (if sel fl then t.walk sel stop else []) ++ walkArgs sel stop fll tl
  | _, _ => []
end

/-- `ity_rch_fold`: the reachable regions. -/
def rchRegs (t : Ity) : List Region := t.walk ItsFlag.itsExposed (fun _ => false)

/-- `ity_unc_fold`: the regions reachable without going through those of `cv`. -/
def uncRegs (cv : List Region) (t : Ity) : List Region :=
  t.walk ItsFlag.itsExposed (fun r => decide (r ∈ cv))

/-- `ity_vis_fold`: the regions visible from the non-ghost code. -/
def visRegs (t : Ity) : List Region := t.walk ItsFlag.itsVisible (fun _ => false)

mutual
/-- `ity_frz_fold`: the regions that cannot be updated. -/
def frzRegs : Ity → List Region
  | .ityreg (.mk _ s tl rl) => frzRegsArgs s.itsArgFlg tl ++ frzRegsArgs s.itsRegFlg rl
  | .ityapp s tl rl =>
    if (Ity.ityapp s tl rl).pure then []
    else if s.itsNonfree && s.itsMutable then (Ity.ityapp s tl rl).rchRegs
    else frzRegsArgs s.itsArgFlg tl ++ frzRegsArgs s.itsRegFlg rl
  | .ityvar _ => []
def frzRegsArgs : List ItsFlag → List Ity → List Region
  | fl :: fll, t :: tl =>
    (if fl.itsExposed then (if fl.itsFrozen then t.rchRegs else t.frzRegs) else []) ++
      frzRegsArgs fll tl
  | _, _ => []
end

/-- `ity_r_stale`. -/
def rStale (rs cv : List Region) (t : Ity) : Bool := (t.uncRegs cv).any (· ∈ rs)

/-- `ity_r_frozen`. -/
def rFrozen (rs : List Region) (t : Ity) : Bool := t.frzRegs.any (· ∈ rs)

mutual
/-- `ity_exp_vars`. -/
def expVars : Ity → List TvSymbol
  | .ityreg _ => []
  | .ityapp s tl rl => expVarsArgs s.itsArgFlg tl ++ expVarsArgs s.itsRegFlg rl
  | .ityvar v => [v]
def expVarsArgs : List ItsFlag → List Ity → List TvSymbol
  | fl :: fll, t :: tl => (if fl.itsExposed then t.expVars else []) ++ expVarsArgs fll tl
  | _, _ => []
end

mutual
/-- `ity_rch_vars`. -/
def rchVars : Ity → List TvSymbol
  | .ityreg (.mk _ s tl rl) | .ityapp s tl rl =>
    rchVarsArgs s.itsArgFlg tl ++ rchVarsArgs s.itsRegFlg rl
  | .ityvar v => [v]
def rchVarsArgs : List ItsFlag → List Ity → List TvSymbol
  | fl :: fll, t :: tl => (if fl.itsExposed then t.rchVars else []) ++ rchVarsArgs fll tl
  | _, _ => []
end

mutual
/-- `ity_frz_vars`. -/
def frzVars : Ity → List TvSymbol
  | .ityreg (.mk _ s tl rl) => frzVarsArgs s.itsArgFlg tl ++ frzVarsArgs s.itsRegFlg rl
  | .ityapp s tl rl =>
    if s.itsNonfree && s.itsMutable then (Ity.ityapp s tl rl).rchVars
    else frzVarsArgs s.itsArgFlg tl ++ frzVarsArgs s.itsRegFlg rl
  | .ityvar _ => []
def frzVarsArgs : List ItsFlag → List Ity → List TvSymbol
  | fl :: fll, t :: tl =>
    (if fl.itsExposed then (if fl.itsFrozen then t.rchVars else t.frzVars) else []) ++
      frzVarsArgs fll tl
  | _, _ => []
end

mutual
/-- `ity_vis_vars`. -/
def visVars : Ity → List TvSymbol
  | .ityreg (.mk _ s tl _) | .ityapp s tl _ => visVarsArgs s.itsArgFlg tl
  | .ityvar v => [v]
def visVarsArgs : List ItsFlag → List Ity → List TvSymbol
  | fl :: fll, t :: tl => (if fl.itsVisible then t.visVars else []) ++ visVarsArgs fll tl
  | _, _ => []
end

mutual
/-- `ity_fragile`. -/
def fragile (liquidVars liable : Bool) : Ity → Bool
  | .ityreg (.mk _ s tl rl) | .ityapp s tl rl =>
    if s.itsFragile then true
    else if liable && s.itsMutable then true
    else if s.itsNonfree && !s.itsMutable then false
    else fragileArgs liquidVars liable s.itsArgFlg tl ||
      fragileArgs liquidVars liable s.itsRegFlg rl
  | .ityvar _ => liable && liquidVars
def fragileArgs (liquidVars liable : Bool) : List ItsFlag → List Ity → Bool
  | fl :: fll, t :: tl =>
    (fl.itsExposed && !fl.itsFrozen && t.fragile liquidVars (liable || fl.itsLiable)) ||
      fragileArgs liquidVars liable fll tl
  | _, _ => false
end

end Ity

/-- `reg_exp_fold`. -/
def Region.expRegs (r : Region) : List Region :=
  Ity.expRegsArgs r.regIts.itsArgFlg r.regArgs ++ Ity.expRegsArgs r.regIts.itsRegFlg r.regRegs

/-! ## Matching and instantiation -/

/-- `ity_subst`. -/
structure ItySubst where
  isbVar : List (TvSymbol × Ity)
  isbReg : List (Region × Ity)

mutual
/-- `ity_match`; `none` is the exception `TypeMismatch`. -/
def ityMatch (sbs : ItySubst) : Ity → Ity → Option ItySubst
  | .ityapp s1 l1 r1, ity2 =>
    match ity2 with
    | .ityapp s2 l2 r2 =>
      if s1 = s2 then
        match ityMatchList sbs l1 l2 with
        | some sbs => ityMatchList sbs r1 r2
        | none => none
      else none
    | _ => none
  | .ityreg r1, ity2 => regMatch sbs r1 ity2
  | .ityvar v1, ity2 =>
    match sbs.isbVar.lookup v1 with
    | none => some { sbs with isbVar := (v1, ity2) :: sbs.isbVar }
    | some o => if o = ity2 then some sbs else none
/-- `reg_match`: a region that is already bound is not entered again. -/
def regMatch (sbs : ItySubst) : Region → Ity → Option ItySubst
  | .mk n s tl rl, ity2 =>
    match sbs.isbReg.lookup (.mk n s tl rl) with
    | some o => if o = ity2 then some sbs else none
    | none =>
      let sbs := { sbs with isbReg := (.mk n s tl rl, ity2) :: sbs.isbReg }
      match ity2 with
      | .ityreg (.mk _ s' tl' rl') | .ityapp s' tl' rl' =>
        if s = s' then
          match ityMatchList sbs tl tl' with
          | some sbs => ityMatchList sbs rl rl'
          | none => none
        else none
      | .ityvar _ => none
def ityMatchList (sbs : ItySubst) : List Ity → List Ity → Option ItySubst
  | [], [] => some sbs
  | t1 :: l1, t2 :: l2 =>
    match ityMatch sbs t1 t2 with
    | some sbs => ityMatchList sbs l1 l2
    | none => none
  | _, _ => none
end

attribute [grind =] ityMatch regMatch ityMatchList

/-- `List.fold_left2 reg_match`. -/
def regMatchList (sbs : ItySubst) : List Region → List Ity → Option ItySubst
  | [], [] => some sbs
  | r :: rl, t :: tl =>
    match regMatch sbs r t with
    | some sbs => regMatchList sbs rl tl
    | none => none
  | _, _ => none

/-- `its_match_args`; `none` is the exception `BadItyArity`. -/
def itsMatchArgs (s : ItySymbol) (tl : List Ity) : Option ItySubst :=
  if s.itsTs.tsArgs.length = tl.length then some ⟨s.itsTs.tsArgs.zip tl, []⟩ else none

/-- `its_match_regs`. -/
def itsMatchRegs (s : ItySymbol) (tl rl : List Ity) : Option ItySubst :=
  match itsMatchArgs s tl with
  | some sbs => regMatchList sbs s.itsRegions rl
  | none => none

mutual
/-- The function `inst` of `ity_full_inst`; `none` is the exception
`Not_found`. -/
def Ity.inst (sbs : ItySubst) : Ity → Option Ity
  | .ityreg r => sbs.isbReg.lookup r
  | .ityapp s tl rl =>
    match Ity.instList sbs tl, Ity.instList sbs rl with
    | some tl, some rl => some (.ityapp s tl rl)
    | _, _ => none
  | .ityvar v => sbs.isbVar.lookup v
def Ity.instList (sbs : ItySubst) : List Ity → Option (List Ity)
  | [] => some []
  | t :: tl =>
    match t.inst sbs, Ity.instList sbs tl with
    | some t, some tl => some (t :: tl)
    | _, _ => none
end

attribute [grind =] Ity.inst Ity.instList

/-- `ity_full_inst`. -/
def Ity.fullInst (sbs : ItySubst) (t : Ity) : Option Ity :=
  if t.pure && t.closed then some t else t.inst sbs

end Why3
