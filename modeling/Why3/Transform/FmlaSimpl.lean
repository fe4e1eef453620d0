import Why3.Core.TermRebuild

/-!
# Propositional simplification

`fmla_simpl` of `transform/simplify_formula.ml`: the formulas inside of a term are rebuilt
with the simplifying constructors, and the terms with the plain ones.
-/

namespace Why3

section Code

variable (unused : ℕ → Bool)

mutual
/-- `fmla_simpl`, where `unused` says which names carry the attribute `unused_attr`. -/
def fmlaSimpl (f : Term) : Term :=
  tMapSimp unused (tAttrRemove asymSplit f) (fun u _ =>
    if u.tTy = none then fmlaSimpl u else tFmlaSimpl u)
termination_by sizeOf f
decreasing_by
  all_goals
    refine Term.sizeOf_lt_of_mem_children ?_
    rwa [tAttrRemove, Term.children_setAttrs] at *
/-- `t_fmla_simpl`. -/
def tFmlaSimpl (t : Term) : Term :=
  t.tMapMem (fun u _ => if u.tTy = none then fmlaSimpl u else tFmlaSimpl u)
termination_by sizeOf t
decreasing_by
  all_goals exact Term.sizeOf_lt_of_mem_children ‹_›
end

/-- `TermTF.t_select`. -/
def tFmlaSelect (u : Term) : Term := if u.tTy = none then fmlaSimpl unused u else tFmlaSimpl unused u

theorem fmlaSimpl_eq (f : Term) :
    fmlaSimpl unused f =
      tMapSimp unused (tAttrRemove asymSplit f) (fun u _ => tFmlaSelect unused u) := by
  rw [fmlaSimpl]
  rfl

theorem tFmlaSimpl_eq (t : Term) : tFmlaSimpl unused t = t.tMap (tFmlaSelect unused) := by
  rw [tFmlaSimpl]
  exact t.tMapMem_eq (tFmlaSelect unused)

theorem rebuilt_tFmlaSelect (t : Term) :
    Rebuilt unused t (fmlaSimpl unused t) ∧ Rebuilt unused t (tFmlaSelect unused t) := by
  induction t using Term.induct_children with
  | h t ih =>
    have hf : Rebuilt unused t (fmlaSimpl unused t) := by
      rw [fmlaSimpl_eq]
      apply Rebuilt.before
      apply Rebuilt.mapSimp
      intro u hu
      exact (ih u (by rwa [Term.children_setAttrs] at hu)).2
    refine ⟨hf, ?_⟩
    unfold tFmlaSelect
    split_ifs with hty
    · exact hf
    · rw [tFmlaSimpl_eq]
      exact .map _ (fun u hu => (ih u hu).2)

end Code

/-- A formula that is rebuilt with the simplifying constructors, as `fmla_simpl` does, is
well typed, has no new free variables and keeps its truth value. -/
theorem rebuilt_keeps_truth {sig : TySymbol → List LSymbol} (unused : ℕ → Bool) {f : Term}
    (hwt : f.Wt sig) (hf : f.tTy = none) :
    Rebuilt unused f (fmlaSimpl unused f) ∧
    ∀ g, Rebuilt unused f g → g.Wt sig ∧ g.tTy = none ∧ g.freeVars ⊆ f.freeVars ∧
      ∀ I : Interp sig, I.LitExt → I.EpsExt →
        ∀ ρ : I.Env, I.Typed ρ → (I.Holds ρ g ↔ I.Holds ρ f) := by
  refine ⟨(rebuilt_tFmlaSelect unused f).1, fun g hg => ?_⟩
  obtain ⟨hwtg, htyg⟩ := hg.wt hwt
  refine ⟨hwtg, htyg.trans hf, hg.freeVars, fun I hlit heps ρ hρ => ?_⟩
  exact (hg.equiv hlit heps hwt).tr hρ hf

namespace FmlaSimplExample

def unused (_ : ℕ) : Bool := false

def x : Term := .tvar [] ⟨300, tyInt⟩

/-- `true /\ x = x`. -/
def andEqu : Term := .tbinop [] .tand (.ttrue []) (tEqu x x)

theorem fmlaSimpl_andEqu : fmlaSimpl unused andEqu = .ttrue [] := by
  have htrue : tFmlaSelect unused (.ttrue []) = .ttrue [] := by
    rw [tFmlaSelect, if_pos (by decide), fmlaSimpl_eq]
    rfl
  have hx : tFmlaSelect unused x = x := by
    rw [tFmlaSelect, if_neg (by decide), tFmlaSimpl_eq]
    rfl
  have hequ : tFmlaSelect unused (tEqu x x) = .ttrue [] := by
    rw [tFmlaSelect, if_pos (by decide), fmlaSimpl_eq]
    have hmap : [x, x].attach.map (fun t => tFmlaSelect unused t.1) = [x, x] := by simp [hx]
    simp only [tAttrRemove, tEqu, Term.setAttrs, tMapSimp, hmap]
    rfl
  rw [fmlaSimpl_eq]
  simp only [tAttrRemove, andEqu, Term.setAttrs, tMapSimp]
  rw [htrue, hequ]
  rfl

theorem wt_andEqu : andEqu.Wt (fun _ => []) :=
  ⟨rfl, rfl, trivial, wt_tEqu rfl rfl trivial trivial⟩

theorem rebuilt_andEqu : Rebuilt unused andEqu (.ttrue []) ∧
    ∀ ρ : intInterp.Env, intInterp.Typed ρ →
      (intInterp.Holds ρ (.ttrue []) ↔ intInterp.Holds ρ andEqu) := by
  have hmain := rebuilt_keeps_truth unused wt_andEqu rfl
  rw [fmlaSimpl_andEqu] at hmain
  exact ⟨hmain.1, (hmain.2 _ hmain.1).2.2.2 intInterp litExt_intInterp epsExt_intInterp⟩

end FmlaSimplExample

end Why3
