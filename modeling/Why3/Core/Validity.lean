import Why3.Core.Inductive
import Why3.Core.SubstVars
import Why3.Core.Task
import Mathlib.Data.List.ReduceOption

/-!
# Valid tasks

A polymorphic interpretation is a model of a declaration when it satisfies the
axioms of the definitions, of the propositions and of the projections, and gives
inductive predicates their fixed points.  A task is valid when its goal holds in
all models of its declarations.

New constants may be given any values: this changes nothing for the terms in which
they do not occur.
-/

namespace Why3

open List Interp Term

variable {sig : TySymbol → List LSymbol}

/-! ## New constants -/

namespace PolyInterp

/-- Values for some constants, at each closed type. -/
structure Consts (M : PolyInterp sig) where
  val : LSymbol → Option (M.U → M.Val)
  mem : ∀ {s f}, val s = some f → ∀ u, M.mem u (f u)
  not_constr : ∀ {s f}, val s = some f → ∀ ts, s ∉ sig ts

def Consts.fn {M : PolyInterp sig} (C : M.Consts) (s : LSymbol) (us : List (Option M.U))
    (u : Option M.U) (dl : List M.Val) : M.Val :=
  match C.val s, u with
  | some f, some u => f u
  | _, _ => M.fn s us u dl

/-- The interpretation with these values. -/
@[reducible] def withConsts (M : PolyInterp sig) (C : M.Consts) : PolyInterp sig where
  U := M.U
  Val := M.Val
  app := M.app
  mem := M.mem
  dest := M.dest
  const := M.const
  fn := C.fn
  eps := M.eps
  app_inj := M.app_inj
  dest_mem := M.dest_mem
  dest_some := M.dest_some
  dest_inj := M.dest_inj
  const_mem := M.const_mem
  const_ext := M.const_ext
  fn_mem := by
    intro τ s tys ty dl hs hdl
    unfold Consts.fn
    cases hc : C.val s with
    | none => exact M.fn_mem τ hs hdl
    | some f => exact C.mem hc _
  fn_constr := by
    intro τ cs s l dl hcs hdl
    unfold Consts.fn
    cases hc : C.val cs with
    | none => exact M.fn_constr τ hcs hdl
    | some f => exact absurd hcs (C.not_constr hc s)
  eps_mem := M.eps_mem
  eps_spec := M.eps_spec
  eps_ext := M.eps_ext

variable {M : PolyInterp sig} {C C' : M.Consts} {P : M.Preds} {τ : TvSymbol → M.U}

/-- No new value. -/
def noConsts (M : PolyInterp sig) : M.Consts where
  val _ := none
  mem h := by cases h
  not_constr h := by cases h

theorem quant_withConsts {q : Quant} {Q Q' : (VSymbol → M.Val) → Prop} (hQ : ∀ ρ, Q ρ ↔ Q' ρ)
    {vl : List VSymbol} : ∀ ρ : VSymbol → M.Val,
      ((M.withConsts C).inst P τ).quant q vl Q ρ ↔ ((M.withConsts C').inst P τ).quant q vl Q' ρ := by
  induction vl with
  | nil =>
    intro ρ
    cases q <;> exact hQ ρ
  | cons v vl ih =>
    intro ρ
    cases q with
    | tforall => exact forall_congr' fun d => imp_congr_right fun _ => ih _
    | texists => exact exists_congr fun d => and_congr_right fun _ => ih _

theorem dest_withConsts (C C' : M.Consts) :
    ((M.withConsts C).inst P τ).dest = ((M.withConsts C').inst P τ).dest := by
  ext ty d
  cases ty <;> rfl

theorem branches_withConsts {bl : List (Pattern × ((VSymbol → M.Val) → Den M.Val))} {x : Den M.Val}
    {d : M.Val} {ρ : VSymbol → M.Val} : ((M.withConsts C).inst P τ).branches bl x d ρ =
      ((M.withConsts C').inst P τ).branches bl x d ρ := by
  induction bl with
  | nil => rfl
  | cons b bl ih =>
    rw [branches_cons, branches_cons, ih, dest_withConsts C C']
    have hdflt : ((M.withConsts C).inst P τ).dfltVars b.1 =
      ((M.withConsts C').inst P τ).dfltVars b.1 := rfl
    cases Pattern.matchPat ((M.withConsts C').inst P τ).dest b.1 d with
    | some bs => rfl
    | none => simp only [hdflt]

/-- The meaning of a term depends on the constants that occur in it. -/
theorem sem_withConsts {t : Term} : (∀ s ∈ t.symbols, C.val s = C'.val s) →
    ∀ ρ : VSymbol → M.Val,
      ((M.withConsts C).inst P τ).sem t ρ = ((M.withConsts C').inst P τ).sem t ρ := by
  induction t with
  | tvar a v | tconst a c ty | ttrue a | tfalse a => intro _ ρ; rfl
  | tapp a s tl ty ih =>
    intro hs ρ
    rw [symbols, symbolsList_eq, forall_mem_cons] at hs
    have hvals : tl.map (((M.withConsts C).inst P τ).eval ρ) =
        tl.map (((M.withConsts C').inst P τ).eval ρ) := by
      refine map_congr_left (fun t ht => ?_)
      exact congrArg Den.val (ih t ht (fun s h => hs.2 s (mem_flatMap.mpr ⟨t, ht, h⟩)) ρ)
    have hfn : ∀ us u dl, C.fn s us u dl = C'.fn s us u dl := by
      intro us u dl
      unfold Consts.fn
      rw [hs.1]
    rw [sem_tapp, sem_tapp]
    simp only [hvals, hfn]
    rfl
  | tif a f t1 t2 ihf ih1 ih2 =>
    intro hs ρ
    simp only [symbols, forall_mem_append] at hs
    rw [sem_tif, sem_tif, Interp.Holds, Interp.Holds, ihf hs.1.1 ρ, ih1 hs.1.2 ρ,
      ih2 hs.2 ρ]
  | tlet a t v e iht ihe =>
    intro hs ρ
    simp only [symbols, forall_mem_append] at hs
    rw [sem_tlet, sem_tlet, Interp.eval, Interp.eval, iht hs.1 ρ]
    exact ihe hs.2 _
  | tcase a t bl iht ihb =>
    intro hs ρ
    simp only [symbols, symbolsBranches_eq, forall_mem_append] at hs
    have hbl : bl.map (fun b => (b.1, ((M.withConsts C).inst P τ).sem b.2)) =
        bl.map (fun b => (b.1, ((M.withConsts C').inst P τ).sem b.2)) := by
      refine map_congr_left (fun b hb => ?_)
      have hb' : ((M.withConsts C).inst P τ).sem b.2 = ((M.withConsts C').inst P τ).sem b.2 :=
        funext (ihb b hb (fun s h => hs.2 s
          (mem_flatMap.mpr ⟨b, hb, mem_append_right _ h⟩)))
      rw [hb']
    rw [sem_tcase, sem_tcase, Interp.eval, Interp.eval, iht hs.1 ρ, hbl]
    exact branches_withConsts
  | teps a v f ih =>
    intro hs ρ
    have hP : ∀ d : M.Val, ((M.withConsts C).inst P τ).Holds (Function.update ρ v d) f =
        ((M.withConsts C').inst P τ).Holds (Function.update ρ v d) f :=
      fun d => congrArg Den.tr (ih hs _)
    rw [sem_teps, sem_teps]
    simp only [hP]
    rfl
  | tquant a q vl trl f _ ih =>
    intro hs ρ
    simp only [symbols, forall_mem_append] at hs
    have hf : ∀ ρ, ((M.withConsts C).inst P τ).Holds ρ f ↔ ((M.withConsts C').inst P τ).Holds ρ f :=
      fun ρ => by rw [Interp.Holds, Interp.Holds, ih hs.2 ρ]
    have hq : ((M.withConsts C).inst P τ).Holds ρ (.tquant a q vl trl f) =
        ((M.withConsts C').inst P τ).Holds ρ (.tquant a q vl trl f) :=
      propext (quant_withConsts hf ρ)
    exact congrArg (Den.mk _) hq
  | tbinop a op f g ihf ihg =>
    intro hs ρ
    simp only [symbols, forall_mem_append] at hs
    simp only [sem, ihf hs.1 ρ, ihg hs.2 ρ]
    rfl
  | tnot a f ih =>
    intro hs ρ
    simp only [sem, ih hs ρ]
    rfl

/-! ### Inductive predicates -/

theorem fires_withConsts {f : Term} : (∀ s ∈ f.symbols, C.val s = C'.val s) →
    ∀ {ρ : VSymbol → M.Val} {dl : List M.Val}, ((M.withConsts C).inst P τ).Fires f ρ dl ↔
      ((M.withConsts C').inst P τ).Fires f ρ dl := by
  induction f with
  | tquant a q vl trl f _ ih =>
    intro hs ρ dl
    rw [symbols, forall_mem_append] at hs
    cases q with
    | tforall =>
      simp only [Fires]
      exact quant_withConsts (fun ρ => ih hs.2) ρ
    | texists => simp only [Fires]
  | tbinop a op g f _ ih =>
    intro hs ρ dl
    rw [symbols, forall_mem_append] at hs
    cases op with
    | timplies =>
      simp only [Fires]
      rw [Interp.Holds, Interp.Holds, sem_withConsts hs.1 ρ, ih hs.2]
    | _ => simp only [Fires]
  | tlet a t v f _ ih =>
    intro hs ρ dl
    rw [symbols, forall_mem_append] at hs
    simp only [Fires]
    rw [Interp.eval, Interp.eval, sem_withConsts hs.1 ρ]
    exact ih hs.2
  | tapp a s tl ty _ =>
    intro hs ρ dl
    rw [symbols, symbolsList_eq, forall_mem_cons] at hs
    simp only [Fires]
    have hvals : tl.map (((M.withConsts C).inst P τ).eval ρ) =
        tl.map (((M.withConsts C').inst P τ).eval ρ) := by
      refine map_congr_left (fun t ht => ?_)
      rw [Interp.eval, Interp.eval,
        sem_withConsts (fun s h => hs.2 s (mem_flatMap.mpr ⟨t, ht, h⟩)) ρ]
    rw [hvals]
  | _ =>
    intro _ ρ dl
    simp only [Fires]

theorem indPreds_withConsts {s : IndSign} {idl : List (LSymbol × List (PrSymbol × Term))}
    (h : ∀ id ∈ idl, ∀ ax ∈ id.2, ∀ s ∈ ax.2.symbols, C.val s = C'.val s) :
    (M.withConsts C).indPreds P s idl = (M.withConsts C').indPreds P s idl := by
  have hstep : (M.withConsts C).indStep P idl = (M.withConsts C').indStep P idl := by
    funext Q ps us dl
    apply propext
    unfold indStep
    refine exists_congr fun al => and_congr_right fun hal => exists_congr fun ax =>
      and_congr_right fun hax => exists_congr fun τ => exists_congr fun ρ =>
      and_congr_right fun _ => and_congr_right fun _ => ?_
    exact fires_withConsts (h _ hal ax hax)
  unfold indPreds
  rw [hstep]

end PolyInterp

/-! ## Models of declarations -/

/-- The type that a data declaration defines. -/
def dataTy (ts : TySymbol) : Ty := .tyapp ts (ts.tsArgs.map .tyvar)

/-- The projections of a constructor give its arguments back. -/
def PolyInterp.Projects (M : PolyInterp sig) (ts : TySymbol) (c : Constructor) : Prop :=
  ∀ (τ : TvSymbol → M.U) (dl : List M.Val),
    List.Forall₂ (fun ty d => M.mem (M.ty τ ty) d) c.1.lsArgs dl →
    ∀ x ∈ c.2.zip (c.1.lsArgs.zip dl), ∀ pj, x.1 = some pj →
      M.fn pj [some (M.ty τ (dataTy ts))] (some (M.ty τ x.2.1))
        [M.fn c.1 (c.1.lsArgs.map (fun ty => some (M.ty τ ty))) (some (M.ty τ (dataTy ts))) dl] =
          x.2.2

/-- The interpretation satisfies the declaration: its definitions, its fixed points and
its proposition, unless this is the goal. -/
def Decl.Sat (d : Decl) (M : PolyInterp sig) (P : M.Preds) : Prop :=
  match d.dNode with
  | .dtype _ | .dparam _ => True
  | .ddata tdl => ∀ td ∈ tdl, ∀ c ∈ td.2, M.Projects td.1 c
  | .dlogic ldl => ∀ ld ∈ ldl, M.Valid P ld.2.ldAxiom
  | .dind s idl => ∀ id ∈ idl, P id.1 = M.indPreds P s idl id.1
  | .dprop k _ f => k ≠ .pgoal → M.Valid P f

/-- The logic symbols of a declaration. -/
def Decl.lsymbols (d : Decl) : List LSymbol :=
  match d.dNode with
  | .dtype _ => []
  | .dparam ls => [ls]
  | .ddata tdl => tdl.flatMap (fun td => td.2.flatMap (fun c => c.1 :: c.2.reduceOption))
  | .dlogic ldl => ldl.flatMap (fun ld => ld.1 :: ld.2.ldAxiom.symbols)
  | .dind _ idl => idl.flatMap (fun id => id.1 :: id.2.flatMap (fun ax => ax.2.symbols))
  | .dprop _ _ f => f.symbols

section Sat

variable {M : PolyInterp sig} {C C' : M.Consts} {P : M.Preds}

theorem PolyInterp.valid_withConsts {f : Term} (h : ∀ s ∈ f.symbols, C.val s = C'.val s) :
    (M.withConsts C).Valid P f ↔ (M.withConsts C').Valid P f := by
  unfold PolyInterp.Valid
  refine forall_congr' fun τ => forall_congr' fun ρ => imp_congr_right fun _ => ?_
  rw [Interp.Holds, Interp.Holds, sem_withConsts h ρ]

theorem PolyInterp.projects_withConsts {ts : TySymbol} {c : Constructor}
    (h : ∀ s ∈ c.1 :: c.2.reduceOption, C.val s = C'.val s) :
    (M.withConsts C).Projects ts c ↔ (M.withConsts C').Projects ts c := by
  have hfn : ∀ s ∈ c.1 :: c.2.reduceOption, C.fn s = C'.fn s := by
    intro s hs
    unfold Consts.fn
    rw [h s hs]
  rw [forall_mem_cons] at hfn
  unfold PolyInterp.Projects
  refine forall_congr' fun τ => forall_congr' fun dl => imp_congr_right fun _ =>
    forall_congr' fun x => forall_congr' fun hx => forall_congr' fun pj => forall_congr' fun hpj => ?_
  have hpj' : pj ∈ c.2.reduceOption := by
    rw [reduceOption_mem_iff, ← hpj]
    exact (of_mem_zip hx).1
  show C.fn pj _ _ [C.fn c.1 _ _ dl] = _ ↔ C'.fn pj _ _ [C'.fn c.1 _ _ dl] = _
  rw [hfn.1, hfn.2 pj hpj']
  rfl

theorem Decl.sat_withConsts {d : Decl} (h : ∀ s ∈ d.lsymbols, C.val s = C'.val s) :
    d.Sat (M.withConsts C) P ↔ d.Sat (M.withConsts C') P := by
  obtain ⟨node, news⟩ := d
  cases node with
  | dtype ts => exact .rfl
  | dparam ls => exact .rfl
  | ddata tdl =>
    refine forall_congr' fun td => forall_congr' fun htd => forall_congr' fun c =>
      forall_congr' fun hc => PolyInterp.projects_withConsts (fun s hs => h s ?_)
    exact mem_flatMap.mpr ⟨td, htd, mem_flatMap.mpr ⟨c, hc, hs⟩⟩
  | dlogic ldl =>
    refine forall_congr' fun ld => forall_congr' fun hld =>
      PolyInterp.valid_withConsts (fun s hs => h s ?_)
    exact mem_flatMap.mpr ⟨ld, hld, mem_cons_of_mem _ hs⟩
  | dind s idl =>
    have hpreds : (M.withConsts C).indPreds P s idl = (M.withConsts C').indPreds P s idl := by
      refine PolyInterp.indPreds_withConsts (fun id hid ax hax s hs => h s ?_)
      exact mem_flatMap.mpr ⟨id, hid,
        mem_cons_of_mem _ (mem_flatMap.mpr ⟨ax, hax, hs⟩)⟩
    refine forall_congr' fun id => forall_congr' fun _ => ?_
    rw [hpreds]
  | dprop k pr f =>
    exact imp_congr_right fun _ => PolyInterp.valid_withConsts h

end Sat

/-! ## Valid tasks -/

/-- The goal of the task holds in all models of its declarations. -/
def Task.Valid (sig : TySymbol → List LSymbol) (t : Task) : Prop :=
  ∃ pr f, t.findGoal = some (pr, f) ∧ ∀ (M : PolyInterp sig) (P : M.Preds),
    (∀ d ∈ Task.declsOf t.tdecls, d.Sat M P) → M.Valid P f

end Why3
