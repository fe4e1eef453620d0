import Mathlib.Order.FixedPoints
import Why3.Core.Equiv
import Why3.Core.Decl
import Why3.Lib.Checks
import Mathlib.Order.CompletePartialOrder

/-!
# Polymorphic interpretations

The symbols of the logic are polymorphic: a formula with type variables holds
when it does for all types in their place.  A polymorphic interpretation has a
universe of closed types, each with its domain; a valuation of the type
variables in this universe makes it an interpretation, in which a symbol is
interpreted at the types of its arguments.

The predicates are apart, as they are what an inductive declaration defines.
-/

namespace Why3

open List Interp Ty

/-! ## Closed types -/

mutual
/-- The closed type that a type stands for.  A type symbol that is not applied to
as many types as it has parameters, which `ty_app` refuses, is applied to the
values of its parameters. -/
def Ty.den {U : Type} (app : TySymbol → List U → U) (τ : TvSymbol → U) : Ty → U
  | .tyvar v => τ v
  | .tyapp s l =>
    if l.length = s.tsArgs.length then app s (denList app τ l) else app s (s.tsArgs.map τ)
def Ty.denList {U : Type} (app : TySymbol → List U → U) (τ : TvSymbol → U) : List Ty → List U
  | [] => []
  | t :: l => t.den app τ :: denList app τ l
end

@[simp] theorem Ty.denList_eq {U : Type} (app : TySymbol → List U → U) (τ : TvSymbol → U)
    (l : List Ty) : denList app τ l = l.map (den app τ) := by
  induction l with
  | nil => rfl
  | cons t l ih => rw [denList, ih, map_cons]

section Den

variable {U : Type} {app : TySymbol → List U → U} {τ τ' : TvSymbol → U}

theorem Ty.den_congr {ty : Ty} : ty.Wf → (∀ v ∈ ty.freevars, τ v = τ' v) →
    ty.den app τ = ty.den app τ' := by
  induction ty with
  | tyvar v => exact fun _ h => h v (mem_singleton_self v)
  | tyapp s l ih =>
    intro hwf h
    simp only [den, if_pos hwf.tyapp.1, denList_eq]
    refine congrArg (app s) (map_congr_left (fun t ht => ih t ht (hwf.tyapp.2 t ht) ?_))
    intro v hv
    apply h v
    rw [freevars, freevarsList_eq, mem_flatMap]
    exact ⟨t, ht, hv⟩

/-- Type symbols are injective, so that a closed type determines the values of
the variables. -/
theorem Ty.eq_of_den (hinj : ∀ s us us', app s us = app s us' → us = us') {ty : Ty} :
    ty.Wf → ty.den app τ = ty.den app τ' → ∀ v ∈ ty.freevars, τ v = τ' v := by
  induction ty with
  | tyvar v =>
    intro _ h w hw
    obtain rfl : w = v := mem_singleton.mp hw
    exact h
  | tyapp s l ih =>
    intro hwf h v hv
    simp only [den, if_pos hwf.tyapp.1, denList_eq] at h
    rw [freevars, freevarsList_eq, mem_flatMap] at hv
    obtain ⟨t, ht, hv⟩ := hv
    exact ih t ht (hwf.tyapp.2 t ht) (map_inj_left.mp (hinj s _ _ h) t ht) v hv

end Den

/-! ## Interpretations -/

structure PolyInterp (sig : TySymbol → List LSymbol) where
  U : Type
  Val : Type
  app : TySymbol → List U → U
  mem : U → Val → Prop
  dest : U → Val → Option (LSymbol × List Val)
  const : Constant → U → Val
  fn : LSymbol → List (Option U) → Option U → List Val → Val
  eps : U → (Val → Prop) → Val
  app_inj : ∀ s us us', app s us = app s us' → us = us'
  dest_mem : ∀ (τ : TvSymbol → U) {s l d cs dl}, mem (den app τ (.tyapp s l)) d →
    dest (den app τ (.tyapp s l)) d = some (cs, dl) → cs ∈ sig s ∧
      List.Forall₂ (fun ty d => mem (den app τ ty) d) (argTys cs (.tyapp s l)) dl
  dest_some : ∀ (τ : TvSymbol → U) {s l d}, mem (den app τ (.tyapp s l)) d → sig s ≠ [] →
    ∃ c, dest (den app τ (.tyapp s l)) d = some c
  dest_inj : ∀ {u d d' c}, mem u d → mem u d' → dest u d = some c → dest u d' = some c → d = d'
  const_mem : ∀ c u, mem u (const c u)
  const_ext : ∀ c c' u, Constant.equal c c' = true → const c u = const c' u
  fn_mem : ∀ (τ : TvSymbol → U) {s : LSymbol} {tys : List Ty} {ty dl},
    s.Takes (tys.map some) (some ty) →
    List.Forall₂ (fun ty d => mem (den app τ ty) d) tys dl →
    mem (den app τ ty) (fn s (tys.map (fun ty => some (den app τ ty)))
      (some (den app τ ty)) dl)
  fn_constr : ∀ (τ : TvSymbol → U) {cs s l dl}, cs ∈ sig s →
    List.Forall₂ (fun ty d => mem (den app τ ty) d) (argTys cs (.tyapp s l)) dl →
    let d := fn cs ((argTys cs (.tyapp s l)).map (fun ty => some (den app τ ty)))
      (some (den app τ (.tyapp s l))) dl
    mem (den app τ (.tyapp s l)) d ∧ dest (den app τ (.tyapp s l)) d = some (cs, dl)
  eps_mem : ∀ u P, mem u (eps u P)
  eps_spec : ∀ {u} {P : Val → Prop}, (∃ d, mem u d ∧ P d) → P (eps u P)
  eps_ext : ∀ u (P Q : Val → Prop), (∀ d, mem u d → (P d ↔ Q d)) → eps u P = eps u Q

namespace PolyInterp

variable {sig : TySymbol → List LSymbol} (M : PolyInterp sig)

/-- An interpretation of the predicates, at each instance of their types. -/
abbrev Preds := LSymbol → List (Option M.U) → List M.Val → Prop

/-- The closed type of a type. -/
def ty (τ : TvSymbol → M.U) (ty : Ty) : M.U := den M.app τ ty

/-- The interpretation for the values `τ` of the type variables. -/
@[reducible] def inst (P : M.Preds) (τ : TvSymbol → M.U) : Interp sig where
  Val := M.Val
  mem ty := M.mem (M.ty τ ty)
  dest
    | .tyvar _, _ => none
    | .tyapp s l, d => M.dest (M.ty τ (.tyapp s l)) d
  dest_mem := by
    rintro (v | ⟨s, l⟩) d cs dl hd h
    · cases h
    · exact M.dest_mem τ hd h
  dest_some := by
    rintro (v | ⟨s, l⟩) d hd h
    · exact absurd rfl h
    · exact M.dest_some τ hd h
  con := by
    rintro (v | ⟨s, l⟩) cs dl hcs hdl
    · cases hcs
    · exact ⟨_, M.fn_constr τ hcs hdl⟩
  inhabited := fun ty => ⟨_, M.eps_mem (M.ty τ ty) (fun _ => True)⟩
  const c ty := M.const c (M.ty τ ty)
  fn s tys ty dl := M.fn s (tys.map (Option.map (M.ty τ))) (ty.map (M.ty τ)) dl
  pr s tys dl := P s (tys.map (Option.map (M.ty τ))) dl
  eps ty := M.eps (M.ty τ ty)
  const_mem := fun c ty => M.const_mem c _
  fn_mem := by
    intro s tys ty dl hs hdl
    rw [map_map]
    exact M.fn_mem τ hs hdl
  fn_constr := by
    rintro cs (v | ⟨s, l⟩) dl hcs hdl
    · cases hcs
    · rw [map_map]
      exact (M.fn_constr τ hcs hdl).2
  dest_inj := by
    rintro (v | ⟨s, l⟩) d d' c hd hd' h h'
    · cases h
    · exact M.dest_inj hd hd' h h'
  eps_mem := fun ty P => M.eps_mem _ P
  eps_spec := fun h => M.eps_spec h

variable {M}

theorem litExt_inst (P : M.Preds) (τ : TvSymbol → M.U) : (M.inst P τ).LitExt :=
  fun c1 c2 _ h => M.const_ext c1 c2 _ h

theorem epsExt_inst (P : M.Preds) (τ : TvSymbol → M.U) : (M.inst P τ).EpsExt :=
  fun _ P Q h => M.eps_ext _ P Q h

/-- A formula holds for all types and all values. -/
def Valid (P : M.Preds) (f : Term) : Prop :=
  ∀ (τ : TvSymbol → M.U) (ρ : VSymbol → M.Val), (M.inst P τ).Typed ρ → (M.inst P τ).Holds ρ f

/-! ## Two instances

The meaning of a term depends on the closed types of its types and on the
predicates that occur in it. -/

theorem matchPat_congr {D : Type} {dest dest' : Ty → D → Option (LSymbol × List D)} {p : Pattern} :
    (∀ ty ∈ p.types, ∀ d, dest ty d = dest' ty d) →
      ∀ d, Pattern.matchPat dest p d = Pattern.matchPat dest' p d := by
  induction p with
  | pwild ty => intro _ d; rfl
  | pvar v => intro _ d; rfl
  | papp s pl ty ih =>
    intro h d
    rw [Pattern.types, Pattern.typesList_eq, forall_mem_cons] at h
    have hargs : ∀ dl, Pattern.matchArgs dest pl dl = Pattern.matchArgs dest' pl dl := by
      have hpl : ∀ p ∈ pl, ∀ d, Pattern.matchPat dest p d = Pattern.matchPat dest' p d :=
        fun p hp => ih p hp (fun ty hty => h.2 ty (mem_flatMap.mpr ⟨p, hp, hty⟩))
      clear ih h
      induction pl with
      | nil => intro dl; cases dl <;> rfl
      | cons p pl ihl =>
        intro dl
        cases dl with
        | nil => rfl
        | cons d dl =>
          rw [Pattern.matchArgs_cons, Pattern.matchArgs_cons, hpl p mem_cons_self d,
            ihl (fun q hq => hpl q (mem_cons_of_mem _ hq)) dl]
    simp only [Pattern.matchPat, h.1 d, hargs]
  | por p q hp hq =>
    intro h d
    rw [Pattern.types, forall_mem_append] at h
    simp only [Pattern.matchPat, hp h.1 d, hq h.2 d]
  | pas p v ih =>
    intro h d
    rw [Pattern.types, forall_mem_cons] at h
    simp only [Pattern.matchPat, ih h.2 d]

section Congr

variable {P P' : M.Preds} {τ τ' : TvSymbol → M.U}

theorem dest_inst_congr {ty : Ty} (h : M.ty τ ty = M.ty τ' ty) (d : M.Val) :
    (M.inst P τ).dest ty d = (M.inst P' τ').dest ty d := by
  cases ty with
  | tyvar v => rfl
  | tyapp s l => exact congrArg (fun u => M.dest u d) h

theorem mem_types_of_patVars {p : Pattern} {v : VSymbol} (h : v ∈ p.patVars) :
    v.vsTy ∈ p.types := by
  induction p with
  | pwild ty => cases h
  | pvar w =>
    obtain rfl : v = w := mem_singleton.mp h
    exact mem_singleton_self _
  | papp s pl ty ih =>
    rw [Pattern.patVars, Pattern.patVarsList_eq, mem_flatMap] at h
    obtain ⟨p, hp, hv⟩ := h
    rw [Pattern.types, Pattern.typesList_eq]
    exact mem_cons_of_mem _ (mem_flatMap.mpr ⟨p, hp, ih p hp hv⟩)
  | por p q hp _ => exact mem_append_left _ (hp h)
  | pas p w ih =>
    rcases mem_cons.mp h with rfl | h
    · exact mem_cons_self
    · exact mem_cons_of_mem _ (ih h)

theorem quant_inst_congr {q : Quant} {Q Q' : (VSymbol → M.Val) → Prop} (hQ : ∀ ρ, Q ρ ↔ Q' ρ)
    {vl : List VSymbol} : (∀ v ∈ vl, M.ty τ v.vsTy = M.ty τ' v.vsTy) → ∀ ρ : VSymbol → M.Val,
      (M.inst P τ).quant q vl Q ρ ↔ (M.inst P' τ').quant q vl Q' ρ := by
  induction vl with
  | nil =>
    intro _ ρ
    cases q <;> exact hQ ρ
  | cons v vl ih =>
    intro h ρ
    rw [forall_mem_cons] at h
    have hmem : ∀ d, (M.inst P τ).mem v.vsTy d ↔ (M.inst P' τ').mem v.vsTy d := by
      intro d
      show M.mem (M.ty τ v.vsTy) d ↔ M.mem (M.ty τ' v.vsTy) d
      rw [h.1]
    cases q with
    | tforall => exact forall_congr' fun d => imp_congr (hmem d) (ih h.2 _)
    | texists => exact exists_congr fun d => and_congr (hmem d) (ih h.2 _)

theorem branches_inst_rel {S : Den M.Val → Den M.Val → Prop} {bl : List (Pattern × Term)}
    (hty : ∀ b ∈ bl, ∀ ty ∈ b.1.types, M.ty τ ty = M.ty τ' ty)
    (hb : ∀ b ∈ bl, ∀ ρ : VSymbol → M.Val, S ((M.inst P τ).sem b.2 ρ) ((M.inst P' τ').sem b.2 ρ))
    {x : Den M.Val} (hx : S x x) (d : M.Val) (ρ : VSymbol → M.Val) :
    S ((M.inst P τ).branches (bl.map (fun b => (b.1, (M.inst P τ).sem b.2))) x d ρ)
      ((M.inst P' τ').branches (bl.map (fun b => (b.1, (M.inst P' τ').sem b.2))) x d ρ) := by
  induction bl with
  | nil => exact hx
  | cons b bl ih =>
    rw [forall_mem_cons] at hty hb
    rw [map_cons, map_cons, branches_cons, branches_cons]
    have hm : Pattern.matchPat (M.inst P τ).dest b.1 d =
        Pattern.matchPat (M.inst P' τ').dest b.1 d :=
      matchPat_congr (fun ty h d => dest_inst_congr (hty.1 ty h) d) d
    have hdflt : (M.inst P τ).dfltVars b.1 = (M.inst P' τ').dfltVars b.1 := by
      unfold dfltVars
      refine map_congr_left (fun v hv => ?_)
      show (v, M.eps (M.ty τ v.vsTy) (fun _ => True)) = (v, M.eps (M.ty τ' v.vsTy) (fun _ => True))
      rw [hty.1 v.vsTy (mem_types_of_patVars hv)]
    simp only [hm, hdflt]
    cases Pattern.matchPat (M.inst P' τ').dest b.1 d with
    | some bs => exact hb.1 _
    | none =>
      simp only [map_eq_nil_iff]
      split_ifs
      · exact hb.1 _
      · exact ih hty.2 hb.2

theorem sem_inst_congr {t : Term} : (∀ ty ∈ t.types, M.ty τ ty = M.ty τ' ty) →
    (∀ s ∈ t.symbols, P s = P' s) →
      ∀ ρ : VSymbol → M.Val, (M.inst P τ).sem t ρ = (M.inst P' τ').sem t ρ := by
  induction t with
  | tvar a v | ttrue a | tfalse a => intro _ _ ρ; rfl
  | tconst a c ty =>
    intro h _ ρ
    have hc : M.const c (M.ty τ ty) = M.const c (M.ty τ' ty) :=
      congrArg (M.const c) (h ty (mem_singleton_self ty))
    simp only [sem, hc]
  | tapp a s tl ty ih =>
    intro h hs ρ
    rw [Term.types, Term.typesList_eq, forall_mem_append] at h
    rw [Term.symbols, Term.symbolsList_eq, forall_mem_cons] at hs
    have htl : ∀ t ∈ tl, ∀ ty ∈ t.types, M.ty τ ty = M.ty τ' ty :=
      fun t ht ty hty => h.2 ty (mem_flatMap.mpr ⟨t, ht, hty⟩)
    have hvals : tl.map ((M.inst P τ).eval ρ) = tl.map ((M.inst P' τ').eval ρ) := by
      refine map_congr_left (fun t ht => ?_)
      rw [Interp.eval, Interp.eval, ih t ht (htl t ht)
        (fun s h => hs.2 s (mem_flatMap.mpr ⟨t, ht, h⟩)) ρ]
    have htys : (tl.map Term.tTy).map (Option.map (M.ty τ)) =
        (tl.map Term.tTy).map (Option.map (M.ty τ')) := by
      rw [map_map, map_map]
      refine map_congr_left (fun t ht => ?_)
      refine Option.map_congr (fun ty hty => htl t ht ty (Term.mem_types_of_tTy hty))
    have hty : ty.map (M.ty τ) = ty.map (M.ty τ') :=
      Option.map_congr (fun ty hty => h.1 ty (by simp [Option.mem_def.mp hty]))
    rw [sem_tapp, sem_tapp, hvals]
    simp only [htys, hty, hs.1]
  | tif a f t1 t2 ihf ih1 ih2 =>
    intro h hs ρ
    simp only [Term.types, forall_mem_append] at h
    simp only [Term.symbols, forall_mem_append] at hs
    rw [sem_tif, sem_tif, Interp.Holds, Interp.Holds, ihf h.1.1.2 hs.1.1 ρ,
      ih1 h.1.2 hs.1.2 ρ, ih2 h.2 hs.2 ρ]
  | tlet a t v e iht ihe =>
    intro h hs ρ
    simp only [Term.types, forall_mem_append] at h
    simp only [Term.symbols, forall_mem_append] at hs
    have ht : (M.inst P τ).eval ρ t = (M.inst P' τ').eval ρ t := by
      rw [Interp.eval, Interp.eval, iht h.1.2 hs.1 ρ]
    rw [sem_tlet, sem_tlet, ht]
    exact ihe h.2 hs.2 _
  | tcase a t bl iht ihb =>
    intro h hs ρ
    simp only [Term.types, Term.typesBranches_eq, forall_mem_append] at h
    simp only [Term.symbols, Term.symbolsBranches_eq, forall_mem_append] at hs
    have hty : ∀ b ∈ bl, ∀ ty ∈ b.1.types ++ b.2.types, M.ty τ ty = M.ty τ' ty :=
      fun b hb ty hty => h.2 ty (mem_flatMap.mpr ⟨b, hb, hty⟩)
    have hsym : ∀ b ∈ bl, ∀ s ∈ b.1.symbols ++ b.2.symbols, P s = P' s :=
      fun b hb s hsy => hs.2 s (mem_flatMap.mpr ⟨b, hb, hsy⟩)
    have ht : (M.inst P τ).eval ρ t = (M.inst P' τ').eval ρ t := by
      rw [Interp.eval, Interp.eval, iht h.1.2 hs.1 ρ]
    rw [sem_tcase, sem_tcase, ht]
    refine branches_inst_rel (S := fun r r' => r = r')
      (fun b hb => (forall_mem_append.mp (hty b hb)).1) (fun b hb => ?_) rfl _ ρ
    exact ihb b hb (forall_mem_append.mp (hty b hb)).2
      (forall_mem_append.mp (hsym b hb)).2
  | teps a v f ih =>
    intro h hs ρ
    rw [Term.types, forall_mem_cons] at h
    have hP : ∀ d : M.Val, (M.inst P τ).Holds (Function.update ρ v d) f =
        (M.inst P' τ').Holds (Function.update ρ v d) f := by
      intro d
      rw [Interp.Holds, Interp.Holds, ih h.2 hs]
    rw [sem_teps, sem_teps]
    simp only [hP, h.1]
  | tquant a q vl trl f _ ih =>
    intro h hs ρ
    simp only [Term.types, forall_mem_append] at h
    simp only [Term.symbols, forall_mem_append] at hs
    have hq : (M.inst P τ).quant q vl (fun ρ => ((M.inst P τ).sem f ρ).tr) ρ ↔
        (M.inst P' τ').quant q vl (fun ρ => ((M.inst P' τ').sem f ρ).tr) ρ := by
      refine quant_inst_congr (fun ρ => by rw [ih h.2 hs.2 ρ]) (fun v hv => ?_) ρ
      exact h.1.1 v.vsTy (mem_map_of_mem hv)
    simp only [sem, hq]
    rfl
  | tbinop a op f g ihf ihg =>
    intro h hs ρ
    simp only [Term.types, forall_mem_append] at h
    simp only [Term.symbols, forall_mem_append] at hs
    simp only [sem, ihf h.1 hs.1 ρ, ihg h.2 hs.2 ρ]
    rfl
  | tnot a f ih =>
    intro h hs ρ
    simp only [sem, ih h hs ρ]
    rfl

end Congr

end PolyInterp

end Why3

/-!
# Inductive predicates

What an inductive declaration stands for: its clauses define an operator on the
interpretations of the predicates, which derives in one step what the clauses
conclude.  An inductive declaration is the least fixed point of the operator, a
coinductive one the greatest.  The checks of `create_ind_decl` make the operator
monotone, so that both exist.
-/

namespace Why3

open List Option Interp

variable {sig : TySymbol → List LSymbol}

/-! ## The operator -/

/-- The clause `f` concludes with the arguments `dl`: they are the values of the
arguments of its conclusion for values that satisfy its premises. -/
def Interp.Fires (I : Interp sig) : Term → I.Env → List I.Val → Prop
  | .tquant _ .tforall vl _ f, ρ, dl => I.quant .texists vl (fun ρ => I.Fires f ρ dl) ρ
  | .tbinop _ .timplies g f, ρ, dl => I.Holds ρ g ∧ I.Fires f ρ dl
  | .tlet _ t v f, ρ, dl => I.Fires f (Function.update ρ v (I.eval ρ t)) dl
  | .tapp _ _ tl _, ρ, dl => tl.map (I.eval ρ) = dl
  | _, _, _ => False

namespace PolyInterp

variable (M : PolyInterp sig)

/-- The predicates `sps` as in `P`, the others as in `P₀`. -/
def extend (sps : List LSymbol) (P₀ P : M.Preds) : M.Preds := fun s => if s ∈ sps then P s else P₀ s

/-- The types of the arguments of a predicate, at an instance. -/
def args (τ : TvSymbol → M.U) (ps : LSymbol) : List (Option M.U) :=
  ps.lsArgs.map (fun ty => some (M.ty τ ty))

/-- What the clauses of a declaration conclude in one step. -/
def indStep (P₀ : M.Preds) (idl : List (LSymbol × List (PrSymbol × Term))) (P : M.Preds) :
    M.Preds := fun ps us dl =>
  ∃ al, (ps, al) ∈ idl ∧ ∃ ax ∈ al, ∃ (τ : TvSymbol → M.U) (ρ : VSymbol → M.Val),
    (M.inst (M.extend (idl.map Prod.fst) P₀ P) τ).Typed ρ ∧ us = M.args τ ps ∧
      (M.inst (M.extend (idl.map Prod.fst) P₀ P) τ).Fires ax.2 ρ dl

/-- The predicates of a declaration: the least fixed point of the operator, or
the greatest. -/
def indPreds (P₀ : M.Preds) (s : IndSign) (idl : List (LSymbol × List (PrSymbol × Term))) :
    M.Preds :=
  match s with
  | .ind => sInf { P | M.indStep P₀ idl P ≤ P }
  | .coind => sSup { P | P ≤ M.indStep P₀ idl P }

/-- The interpretation of all predicates after the declaration. -/
def indModel (P₀ : M.Preds) (s : IndSign) (idl : List (LSymbol × List (PrSymbol × Term))) :
    M.Preds := M.extend (idl.map Prod.fst) P₀ (M.indPreds P₀ s idl)

end PolyInterp

/-! ## Polarity -/

/-- How the truth of a formula follows the predicates, at a polarity. -/
def PolRel : Option Bool → Prop → Prop → Prop
  | some true, p, p' => p → p'
  | some false, p, p' => p' → p
  | none, p, p' => p ↔ p'

section PolRel

variable {pol : Option Bool} {p p' q q' : Prop}

theorem PolRel.of_iff (h : p ↔ p') : PolRel pol p p' := by
  rcases pol with _ | _ | _
  · exact h
  · exact h.mpr
  · exact h.mp

theorem PolRel.and (hp : PolRel pol p p') (hq : PolRel pol q q') : PolRel pol (p ∧ q) (p' ∧ q') := by
  rcases pol with _ | _ | _
  · exact and_congr hp hq
  · exact And.imp hp hq
  · exact And.imp hp hq

theorem PolRel.or (hp : PolRel pol p p') (hq : PolRel pol q q') : PolRel pol (p ∨ q) (p' ∨ q') := by
  rcases pol with _ | _ | _
  · exact or_congr hp hq
  · exact Or.imp hp hq
  · exact Or.imp hp hq

theorem PolRel.not (hp : PolRel (pol.map Bool.not) p p') : PolRel pol (¬ p) (¬ p') := by
  rcases pol with _ | _ | _
  · exact not_congr hp
  · exact mt hp
  · exact mt hp

theorem PolRel.imp (hp : PolRel (pol.map Bool.not) p p') (hq : PolRel pol q q') :
    PolRel pol (p → q) (p' → q') := by
  rcases pol with _ | _ | _
  · exact imp_congr hp hq
  · exact fun h hp' => hq (h (hp hp'))
  · exact fun h hp' => hq (h (hp hp'))

end PolRel

namespace PolyInterp

variable {M : PolyInterp sig} {sps : List LSymbol} {P P' : M.Preds} {τ : TvSymbol → M.U}

theorem quant_polRel {pol : Option Bool} {q : Quant} {Q Q' : (VSymbol → M.Val) → Prop}
    (h : ∀ ρ, PolRel pol (Q ρ) (Q' ρ)) {vl : List VSymbol} : ∀ ρ : VSymbol → M.Val,
      PolRel pol ((M.inst P τ).quant q vl Q ρ) ((M.inst P' τ).quant q vl Q' ρ) := by
  induction vl with
  | nil =>
    intro ρ
    cases q <;> exact h ρ
  | cons v vl ih =>
    intro ρ
    rcases pol with _ | _ | _
    · cases q with
      | tforall => exact forall_congr' fun d => imp_congr_right fun _ => ih _
      | texists => exact exists_congr fun d => and_congr_right fun _ => ih _
    all_goals
      cases q with
      | tforall => exact fun hall d hd => ih _ (hall d hd)
      | texists => exact fun ⟨d, hd, hex⟩ => ⟨d, hd, ih _ hex⟩

/-- The two interpretations differ in the predicates `sps`, and there in one
direction. -/
structure Grows (sps : List LSymbol) (P P' : M.Preds) : Prop where
  le : P ≤ P'
  eq : ∀ s, s ∉ sps → P s = P' s

/-- A term in which none of the predicates occurs. -/
theorem sem_of_tPosPs (h : Grows sps P P') {t : Term} (ht : tPosPs sps t = none)
    (ρ : VSymbol → M.Val) : (M.inst P τ).sem t ρ = (M.inst P' τ).sem t ρ := by
  refine sem_inst_congr (fun _ _ => rfl) (fun s hs => h.eq s ?_) ρ
  have := find?_eq_none.mp ht s hs
  simpa using this

theorem fPosTerms_none {tl : List Term} (h : fPosTerms sps tl = none) :
    ∀ t ∈ tl, tPosPs sps t = none := by
  induction tl with
  | nil => intro t ht; cases ht
  | cons t tl ih =>
    rw [fPosTerms, or_eq_none_iff] at h
    rw [forall_mem_cons]
    exact ⟨h.1, ih h.2⟩

theorem fPosBranches_none {pol : Option Bool} {bl : List (Pattern × Term)}
    (h : fPosBranches sps pol bl = none) : ∀ b ∈ bl, fPosPs sps pol b.2 = none := by
  induction bl with
  | nil => intro b hb; cases hb
  | cons b bl ih =>
    obtain ⟨p, f⟩ := b
    rw [fPosBranches, or_eq_none_iff] at h
    rw [forall_mem_cons]
    exact ⟨h.1, ih h.2⟩

/-- What `f_pos_ps` ensures: the truth of the formula grows with the predicates,
shrinks or does not change. -/
theorem polRel_of_fPosPs (h : Grows sps P P') {f : Term} : ∀ {pol : Option Bool},
    fPosPs sps pol f = none → ∀ ρ : VSymbol → M.Val,
      PolRel pol ((M.inst P τ).Holds ρ f) ((M.inst P' τ).Holds ρ f) := by
  induction f with
  | tvar a v | tconst a c ty | teps a v f _ | ttrue a | tfalse a => intro pol _ ρ; exact .of_iff .rfl
  | tapp a s tl ty _ =>
    intro pol hf ρ
    rw [fPosPs] at hf
    split_ifs at hf with hs
    have hvals : tl.map ((M.inst P τ).eval ρ) = tl.map ((M.inst P' τ).eval ρ) := by
      refine map_congr_left (fun t ht => ?_)
      rw [Interp.eval, Interp.eval, sem_of_tPosPs h (fPosTerms_none hf t ht) ρ]
    by_cases hequ : s = psEqu
    · rw [holds_psEqu (M.inst P τ) ρ a hequ, holds_psEqu (M.inst P' τ) ρ a hequ, hvals]
      exact .of_iff .rfl
    · rw [holds_tapp (M.inst P τ) ρ a hequ, holds_tapp (M.inst P' τ) ρ a hequ, hvals]
      by_cases hmem : s ∈ sps
      · obtain rfl : pol = some true := by
          by_contra hne
          exact hs ⟨hne, hmem⟩
        exact h.le s _ _
      · refine .of_iff ?_
        show P s _ _ ↔ P' s _ _
        rw [h.eq s hmem]
  | tif a f t1 t2 ihf ih1 ih2 =>
    intro pol hf ρ
    rw [fPosPs, or_eq_none_iff, or_eq_none_iff] at hf
    have hcond : (M.inst P τ).Holds ρ f ↔ (M.inst P' τ).Holds ρ f := ihf hf.1.1 ρ
    rw [holds_tif, holds_tif, hcond]
    refine .and (.imp (.of_iff .rfl) (ih1 hf.1.2 ρ)) (.imp (.of_iff .rfl) (ih2 hf.2 ρ))
  | tlet a t v e _ ihe =>
    intro pol hf ρ
    rw [fPosPs, or_eq_none_iff] at hf
    have ht : (M.inst P τ).eval ρ t = (M.inst P' τ).eval ρ t := by
      rw [Interp.eval, Interp.eval, sem_of_tPosPs h hf.1 ρ]
    rw [holds_tlet, holds_tlet, ht]
    exact ihe hf.2 _
  | tcase a t bl _ ihb =>
    intro pol hf ρ
    rw [fPosPs, or_eq_none_iff] at hf
    have ht : (M.inst P τ).eval ρ t = (M.inst P' τ).eval ρ t := by
      rw [Interp.eval, Interp.eval, sem_of_tPosPs h hf.1 ρ]
    rw [Interp.Holds, Interp.Holds, sem_tcase, sem_tcase, ht]
    exact branches_inst_rel (S := fun r r' => PolRel pol r.tr r'.tr) (fun _ _ _ _ => rfl)
      (fun b hb => ihb b hb (fPosBranches_none hf.2 b hb)) (.of_iff .rfl) _ ρ
  | tquant a q vl trl f _ ih =>
    intro pol hf ρ
    rw [fPosPs, or_eq_none_iff] at hf
    exact quant_polRel (ih hf.1) ρ
  | tbinop a op f g ihf ihg =>
    intro pol hf ρ
    rw [holds_tbinop, holds_tbinop]
    cases op with
    | tand =>
      rw [fPosPs, or_eq_none_iff] at hf
      · exact .and (ihf hf.1 ρ) (ihg hf.2 ρ)
      all_goals simp
    | tor =>
      rw [fPosPs, or_eq_none_iff] at hf
      · exact .or (ihf hf.1 ρ) (ihg hf.2 ρ)
      all_goals simp
    | timplies =>
      rw [fPosPs, or_eq_none_iff] at hf
      exact .imp (ihf hf.1 ρ) (ihg hf.2 ρ)
    | tiff =>
      rw [fPosPs, or_eq_none_iff] at hf
      exact .of_iff (iff_congr (ihf hf.1 ρ) (ihg hf.2 ρ))
  | tnot a f ih =>
    intro pol hf ρ
    rw [fPosPs] at hf
    exact .not (ih hf ρ)

end PolyInterp

/-! ## Clauses -/

/-- What `check_ax` ensures of the form of a clause for `ps`. -/
def IsClause (sps : List LSymbol) (ps : LSymbol) : Term → Prop
  | .tquant _ .tforall _ _ f => IsClause sps ps f
  | .tbinop _ .timplies g f => fPosPs sps (some true) g = none ∧ IsClause sps ps f
  | .tlet _ t _ f => tPosPs sps t = none ∧ IsClause sps ps f
  | .tapp _ s tl _ => s = ps ∧ tl.map Term.tTy = ps.lsArgs.map some ∧ ∀ t ∈ tl, tPosPs sps t = none
  | _ => False

theorem map_tTy_of_checkTl {tyl : List Ty} : ∀ {tl : List Term}, checkTl tyl tl = .ok () →
    tl.map Term.tTy = tyl.map some := by
  induction tyl with
  | nil =>
    intro tl h
    cases tl with
    | nil => rfl
    | cons t tl => simp [checkTl] at h
  | cons ty tyl ih =>
    intro tl h
    cases tl with
    | nil => simp [checkTl] at h
    | cons t tl =>
      rw [checkTl] at h
      split at h
      · cases h
      · next ty' hty =>
          by_cases heq : ty = ty'
          · subst heq
            rw [tyEqualCheck, if_pos rfl] at h
            rw [map_cons, map_cons, hty, ih h]
          · rw [tyEqualCheck, if_neg heq] at h
            cases h

variable {idl : List (LSymbol × List (PrSymbol × Term))}

section Clause

variable {sps : List LSymbol} {ps : LSymbol}

theorem isClause_of_clause {f : Term} : ∀ {acc cls : List Term} {a : Sattr} {tl : List Term}
    {ty : Option Ty}, clause acc f = (cls, .tapp a ps tl ty) →
      (∀ c ∈ cls, fPosPs sps (some true) c = none) →
      fPosPs sps (some true) (.tapp a ps tl ty) = none → tl.map Term.tTy = ps.lsArgs.map some →
      IsClause sps ps f ∧ ∀ c ∈ acc, fPosPs sps (some true) c = none := by
  induction f with
  | tquant a q vl trl f _ ih =>
    intro acc cls a' tl ty h hcls hg hty
    cases q with
    | tforall =>
      rw [clause] at h
      exact ih h hcls hg hty
    | texists => simp [clause] at h
  | tbinop a op g f _ ih =>
    intro acc cls a' tl ty h hcls hg hty
    cases op with
    | timplies =>
      rw [clause] at h
      obtain ⟨hf, hacc⟩ := ih h hcls hg hty
      rw [forall_mem_cons] at hacc
      exact ⟨⟨hacc.1, hf⟩, hacc.2⟩
    | _ => simp [clause] at h
  | tlet a t v f _ ih =>
    intro acc cls a' tl ty h hcls hg hty
    rw [clause] at h
    obtain ⟨hf, hacc⟩ := ih h hcls hg hty
    rw [forall_mem_cons] at hacc
    refine ⟨⟨?_, hf⟩, hacc.2⟩
    have hequ := hacc.1
    rw [tEqu, fPosPs, if_neg (by simp), fPosTerms, fPosTerms, or_eq_none_iff,
      or_eq_none_iff] at hequ
    exact hequ.2.1
  | tapp a s tl ty _ =>
    intro acc cls a' tl' ty' h hcls hg hty
    simp only [clause, Prod.mk.injEq, Term.tapp.injEq] at h
    obtain ⟨rfl, rfl, rfl, rfl, rfl⟩ := h
    rw [fPosPs, if_neg (by simp)] at hg
    exact ⟨⟨rfl, hty, PolyInterp.fPosTerms_none hg⟩, hcls⟩
  | _ =>
    intro acc cls a' tl ty h
    simp [clause] at h

/-- What `check_ax` ensures of an axiom of the declaration. -/
structure AxOk (sps : List LSymbol) (ps : LSymbol) (f : Term) : Prop where
  closed : f.freeVars = []
  formula : f.tTy = none
  isClause : IsClause sps ps f

variable {news news' : List ℕ}

theorem axOk_of_checkAx {ax : PrSymbol × Term} (h : checkAx sps ps news ax = .ok news') :
    AxOk sps ps ax.2 := by
  obtain ⟨pr, f⟩ := ax
  simp only [checkAx] at h
  cases hfv : checkFvs f with
  | error e =>
    rw [hfv] at h
    cases h
  | ok f' =>
    -- the formula is closed
    have hclosed : f.freeVars = [] ∧ f.tTy = none ∧ f' = f := by
      unfold checkFvs at hfv
      split at hfv
      · cases hfv
      · next hnil =>
          split_ifs at hfv with hty
          cases hfv
          exact ⟨hnil, by simpa using hty, rfl⟩
    obtain ⟨hclosed, hty, rfl⟩ := hclosed
    rw [hfv] at h
    simp only [bind, Except.bind] at h
    -- and its conclusion is the predicate
    rcases hcl : clause [] f' with ⟨cls, g⟩
    rw [hcl] at h
    simp only at h
    cases g with
    | tapp a s tl ty =>
      simp only at h
      split_ifs at h with hs
      simp only [ne_eq, not_not] at hs
      subst hs
      cases htl : checkTl s.lsArgs tl with
      | error e =>
        rw [htl] at h
        cases h
      | ok u =>
        rw [htl] at h
        simp only at h
        split at h
        · cases h
        · next hnone =>
            rw [findSome?_eq_none_iff, forall_mem_cons] at hnone
            have hcl' := isClause_of_clause hcl hnone.2 hnone.1 (map_tTy_of_checkTl htl)
            exact ⟨hclosed, hty, hcl'.1⟩
    | _ => simp at h

theorem newsId_eq_ok {id : ℕ} (h : newsId news id = .ok news') :
    id ∉ news ∧ news' = id :: news := by
  unfold newsId at h
  split_ifs at h with hid
  cases h
  exact ⟨hid, rfl⟩

theorem subset_of_checkAx {ax : PrSymbol × Term} (h : checkAx sps ps news ax = .ok news') :
    news ⊆ news' := by
  obtain ⟨pr, f⟩ := ax
  simp only [checkAx] at h
  obtain ⟨f', _, h⟩ := Checks.bind_eq_ok.mp h
  split at h
  · split_ifs at h with hs
    obtain ⟨_, _, h⟩ := Checks.bind_eq_ok.mp h
    split at h
    · cases h
    · split at h
      · cases h
      · rw [(newsId_eq_ok h).2]
        exact subset_cons_self _ _
  · cases h

/-- What `create_ind_decl` ensures of a predicate and its clauses. -/
structure IndOk (sps : List LSymbol) (id : LSymbol × List (PrSymbol × Term)) : Prop where
  nonempty : id.2 ≠ []
  predicate : id.1.lsValue = none
  axOk : ∀ ax ∈ id.2, AxOk sps id.1 ax.2

theorem indOk_of_checkIndDecl {id : LSymbol × List (PrSymbol × Term)}
    (h : checkIndDecl sps news id = .ok news') :
    IndOk sps id ∧ id.1.lsName ∉ news ∧ id.1.lsName ∈ news' ∧ news ⊆ news' := by
  unfold checkIndDecl at h
  split_ifs at h with hne hval
  obtain ⟨news₁, hid, h⟩ := Checks.bind_eq_ok.mp h
  obtain ⟨hnot, rfl⟩ := newsId_eq_ok hid
  obtain ⟨hsub, hax⟩ := Checks.foldlM_all (M := fun b b' => b ⊆ b')
    (P := fun (ax : PrSymbol × Term) _ => AxOk sps id.1 ax.2) (fun b => List.Subset.refl b)
    List.Subset.trans
    (fun h _ => h) (fun h => ⟨subset_of_checkAx h, axOk_of_checkAx h⟩) h
  refine ⟨⟨by simpa using hne, by simpa using hval, hax⟩, hnot, ?_, ?_⟩
  · exact hsub mem_cons_self
  · exact fun n hn => hsub (mem_cons_of_mem _ hn)

/-- The predicates are different. -/
theorem pairwise_of_foldlM :
    ∀ {news news' : List ℕ}, idl.foldlM (checkIndDecl sps) news = .ok news' →
      (∀ id ∈ idl, id.1.lsName ∉ news) ∧
        idl.Pairwise (fun id id' => id.1.lsName ≠ id'.1.lsName) := by
  induction idl with
  | nil => exact fun _ => ⟨by simp, List.Pairwise.nil⟩
  | cons id idl ih =>
    intro news news' h
    rw [foldlM_cons] at h
    obtain ⟨news₁, hid, h⟩ := Checks.bind_eq_ok.mp h
    obtain ⟨_, hnot, hmem, hsub⟩ := indOk_of_checkIndDecl hid
    obtain ⟨hnew, hpw⟩ := ih h
    refine ⟨?_, List.Pairwise.cons (fun id' hid' heq => ?_) hpw⟩
    · rw [forall_mem_cons]
      exact ⟨hnot, fun id' hid' hmem' => hnew id' hid' (hsub hmem')⟩
    · exact hnew id' hid' (heq ▸ hmem)

end Clause

/-- What `create_ind_decl` ensures of a declaration. -/
structure IndDeclOk (idl : List (LSymbol × List (PrSymbol × Term))) : Prop where
  indOk : ∀ id ∈ idl, IndOk (idl.map Prod.fst) id
  unique : ∀ ps al al', (ps, al) ∈ idl → (ps, al') ∈ idl → al = al'

theorem indDeclOk_of_createIndDecl {s : IndSign}
    {d : Decl} (h : createIndDecl s idl = .ok d) : d.dNode = .dind s idl ∧ IndDeclOk idl := by
  unfold createIndDecl at h
  split_ifs at h with hne
  obtain ⟨news, hfold, h⟩ := Checks.bind_eq_ok.mp h
  cases h
  obtain ⟨_, hok⟩ := Checks.foldlM_all (M := fun _ _ => True)
    (P := fun id _ => IndOk (idl.map Prod.fst) id) (fun _ => trivial) (fun _ _ => trivial)
    (fun h _ => h) (fun h => ⟨trivial, (indOk_of_checkIndDecl h).1⟩) hfold
  refine ⟨rfl, hok, fun ps al al' h₁ h₂ => ?_⟩
  have hnd : (idl.map (fun id => id.1.lsName)).Nodup :=
    pairwise_map.mpr (pairwise_of_foldlM hfold).2
  exact congrArg Prod.snd (inj_on_of_nodup_map hnd h₁ h₂ rfl)

namespace PolyInterp

variable {M : PolyInterp sig} {P₀ : M.Preds} {idl : List (LSymbol × List (PrSymbol × Term))}

/-! ## Fixed points -/

theorem fires_mono {sps : List LSymbol} {ps : LSymbol} {P P' : M.Preds} {τ : TvSymbol → M.U}
    (h : Grows sps P P') {f : Term} : IsClause sps ps f → ∀ {ρ : VSymbol → M.Val} {dl : List M.Val},
      (M.inst P τ).Fires f ρ dl → (M.inst P' τ).Fires f ρ dl := by
  induction f with
  | tquant a q vl trl f _ ih =>
    intro hc ρ dl hf
    cases q with
    | tforall =>
      simp only [Fires] at hf ⊢
      have hbody : ∀ ρ : VSymbol → M.Val, PolRel (some true) ((M.inst P τ).Fires f ρ dl)
          ((M.inst P' τ).Fires f ρ dl) := fun ρ hf => ih hc hf
      have hq : PolRel (some true)
          ((M.inst P τ).quant .texists vl (fun ρ => (M.inst P τ).Fires f ρ dl) ρ)
          ((M.inst P' τ).quant .texists vl (fun ρ => (M.inst P' τ).Fires f ρ dl) ρ) :=
        quant_polRel hbody ρ
      exact hq hf
    | texists => exact absurd hc (by simp [IsClause])
  | tbinop a op g f _ ih =>
    intro hc ρ dl hf
    cases op with
    | timplies =>
      simp only [Fires] at hf ⊢
      exact ⟨polRel_of_fPosPs h hc.1 ρ hf.1, ih hc.2 hf.2⟩
    | _ => exact absurd hc (by simp [IsClause])
  | tlet a t v f _ ih =>
    intro hc ρ dl hf
    simp only [Fires] at hf ⊢
    have ht : (M.inst P τ).eval ρ t = (M.inst P' τ).eval ρ t := by
      rw [Interp.eval, Interp.eval, sem_of_tPosPs h hc.1 ρ]
    rw [← ht]
    exact ih hc.2 hf
  | tapp a s tl ty _ =>
    intro hc ρ dl hf
    simp only [Fires] at hf ⊢
    rw [← hf]
    refine map_congr_left (fun t ht => ?_)
    rw [Interp.eval, Interp.eval, sem_of_tPosPs h (hc.2.2 t ht) ρ]
  | _ => exact fun hc => absurd hc (by simp [IsClause])

theorem grows_extend {sps : List LSymbol} {P P' : M.Preds} (h : P ≤ P') :
    Grows sps (M.extend sps P₀ P) (M.extend sps P₀ P') := by
  constructor
  · intro s us dl hs
    unfold extend at hs ⊢
    split_ifs at hs ⊢
    · exact h s us dl hs
    · exact hs
  · intro s hs
    unfold extend
    rw [if_neg hs, if_neg hs]

theorem indStep_mono (h : IndDeclOk idl) : Monotone (M.indStep P₀ idl) := by
  rintro P P' hle ps us dl ⟨al, hal, ax, hax, τ, ρ, hρ, hus, hf⟩
  refine ⟨al, hal, ax, hax, τ, ρ, hρ, hus, ?_⟩
  exact fires_mono (grows_extend hle) ((h.indOk _ hal).axOk ax hax).isClause hf

theorem indStep_indPreds (h : IndDeclOk idl) (s : IndSign) :
    M.indStep P₀ idl (M.indPreds P₀ s idl) = M.indPreds P₀ s idl := by
  let F : M.Preds →o M.Preds := ⟨M.indStep P₀ idl, indStep_mono h⟩
  cases s with
  | ind => exact F.map_lfp
  | coind => exact F.map_gfp

end PolyInterp

end Why3
