import Why3.Core.Alpha
import Why3.Core.Subst

/-!
# Equivalent terms

When a transformation of `core/term.ml` may put one term in the place of
another: the two have the same type and, under every valuation, the same value
or the same truth.  The traversal `t_map` carries this from the subterms of a
term to the term.

The same under a condition, for the valuations of a property only, for instance those that
give two terms the same value.  Under a binder the property is that of the valuation outside.
-/

namespace Why3

open List Function Term

variable {f f' t t' : Term} {a : Sattr} {q : Quant} {vl : List VSymbol} {v : VSymbol}
  {g : Term → Term}

namespace Interp

variable {sig : TySymbol → List LSymbol} {I : Interp sig} {P : I.Env → Prop}

/-- Hilbert's choice sees only which values of the type have the property. -/
def EpsExt (I : Interp sig) : Prop :=
  ∀ ty (P Q : I.Val → Prop), (∀ d, I.mem ty d → (P d ↔ Q d)) → I.eps ty P = I.eps ty Q

/-- The term `t'` may stand for `t`. -/
structure Equiv (I : Interp sig) (t t' : Term) : Prop where
  wt : t'.Wt sig
  ty : t'.tTy = t.tTy
  val : ∀ {ρ : I.Env}, I.Typed ρ → t.tTy ≠ none → I.eval ρ t' = I.eval ρ t
  tr : ∀ {ρ : I.Env}, I.Typed ρ → t.tTy = none → (I.Holds ρ t' ↔ I.Holds ρ t)

theorem Equiv.refl (h : t.Wt sig) : I.Equiv t t :=
  ⟨h, rfl, fun _ _ => rfl, fun _ _ => .rfl⟩

theorem Equiv.trans {t'' : Term} (h : I.Equiv t t') (h' : I.Equiv t' t'') : I.Equiv t t'' := by
  refine ⟨h'.wt, h'.ty.trans h.ty, fun hρ hty => ?_, fun hρ hty => ?_⟩
  · exact (h'.val hρ (by rwa [h.ty])).trans (h.val hρ hty)
  · exact (h'.tr hρ (by rwa [h.ty])).trans (h.tr hρ hty)

/-- Formulas with the same truth. -/
theorem Equiv.of_formula (hf : f.tTy = none) (hwt : f'.Wt sig) (hty : f'.tTy = none)
    (h : ∀ {ρ : I.Env}, I.Typed ρ → (I.Holds ρ f' ↔ I.Holds ρ f)) : I.Equiv f f' :=
  ⟨hwt, hty.trans hf.symm, fun _ hne => absurd hf hne, fun hρ _ => h hρ⟩

/-- The attributes of a term are not seen. -/
theorem Equiv.attrs (h : I.Equiv t t') (a : Sattr) : I.Equiv (t.setAttrs a) t' := by
  refine ⟨h.wt, by simpa using h.ty, fun hρ hne => ?_, fun hρ hnone => ?_⟩
  · simpa using h.val hρ (by simpa using hne)
  · simpa using h.tr hρ (by simpa using hnone)

theorem Equiv.of_sem (hwt : t'.Wt sig) (hty : t'.tTy = t.tTy)
    (h : ∀ {ρ : I.Env}, I.Typed ρ → (t.tTy ≠ none → (I.sem t' ρ).val = (I.sem t ρ).val) ∧
      (t.tTy = none → ((I.sem t' ρ).tr ↔ (I.sem t ρ).tr))) : I.Equiv t t' :=
  ⟨hwt, hty, fun hρ => (h hρ).1, fun hρ => (h hρ).2⟩

/-! ## Under a condition -/

/-- The term `t'` may stand for `t` under the valuations of `P`. -/
structure EquivWhen (I : Interp sig) (P : I.Env → Prop) (t t' : Term) : Prop where
  wt : t'.Wt sig
  ty : t'.tTy = t.tTy
  val : ∀ {ρ : I.Env}, I.Typed ρ → P ρ → t.tTy ≠ none → I.eval ρ t' = I.eval ρ t
  tr : ∀ {ρ : I.Env}, I.Typed ρ → P ρ → t.tTy = none → (I.Holds ρ t' ↔ I.Holds ρ t)

/-- The valuations under a binder of `vl`. -/
def Under (vl : List VSymbol) (P : I.Env → Prop) (ρ' : I.Env) : Prop :=
  ∃ ρ, I.Typed ρ ∧ P ρ ∧ ∀ v, v ∉ vl → ρ' v = ρ v

theorem Equiv.when (h : I.Equiv t t') : I.EquivWhen P t t' :=
  ⟨h.wt, h.ty, fun hρ _ => h.val hρ, fun hρ _ => h.tr hρ⟩

theorem equiv_iff_when : I.Equiv t t' ↔ I.EquivWhen (fun _ => True) t t' :=
  ⟨Equiv.when, fun h => ⟨h.wt, h.ty, fun hρ => h.val hρ trivial, fun hρ => h.tr hρ trivial⟩⟩

theorem EquivWhen.trans {t'' : Term} (h : I.EquivWhen P t t') (h' : I.EquivWhen P t' t'') :
    I.EquivWhen P t t'' := by
  refine ⟨h'.wt, h'.ty.trans h.ty, fun hρ hP hty => ?_, fun hρ hP hty => ?_⟩
  · exact (h'.val hρ hP (by rwa [h.ty])).trans (h.val hρ hP hty)
  · exact (h'.tr hρ hP (by rwa [h.ty])).trans (h.tr hρ hP hty)

theorem EquivWhen.mono {Q : I.Env → Prop} (h : I.EquivWhen P t t')
    (hQ : ∀ ρ, I.Typed ρ → Q ρ → P ρ) : I.EquivWhen Q t t' :=
  ⟨h.wt, h.ty, fun hρ hq => h.val hρ (hQ _ hρ hq), fun hρ hq => h.tr hρ (hQ _ hρ hq)⟩

theorem EquivWhen.sem_eq (h : I.EquivWhen P t t') {ρ : I.Env} (hρ : I.Typed ρ) (hP : P ρ) :
    (t.tTy ≠ none → (I.sem t' ρ).val = (I.sem t ρ).val) ∧
      (t.tTy = none → ((I.sem t' ρ).tr ↔ (I.sem t ρ).tr)) :=
  ⟨h.val hρ hP, h.tr hρ hP⟩

theorem EquivWhen.of_sem (hwt : t'.Wt sig) (hty : t'.tTy = t.tTy)
    (h : ∀ {ρ : I.Env}, I.Typed ρ → P ρ → (t.tTy ≠ none → (I.sem t' ρ).val = (I.sem t ρ).val) ∧
      (t.tTy = none → ((I.sem t' ρ).tr ↔ (I.sem t ρ).tr))) : I.EquivWhen P t t' :=
  ⟨hwt, hty, fun hρ hP => (h hρ hP).1, fun hρ hP => (h hρ hP).2⟩

/-- Formulas with the same truth. -/
theorem EquivWhen.of_formula (hf : f.tTy = none) (hwt : f'.Wt sig) (hty : f'.tTy = none)
    (h : ∀ {ρ : I.Env}, I.Typed ρ → P ρ → (I.Holds ρ f' ↔ I.Holds ρ f)) : I.EquivWhen P f f' :=
  ⟨hwt, hty.trans hf.symm, fun _ _ hne => absurd hf hne, fun hρ hP _ => h hρ hP⟩

@[simp] theorem equivWhen_setAttrs : I.EquivWhen P t (t'.setAttrs a) ↔ I.EquivWhen P t t' := by
  constructor <;> rintro ⟨hwt, hty, hval, htr⟩ <;>
    refine ⟨by simpa using hwt, by simpa using hty, fun hρ hP hne => ?_, fun hρ hP hnone => ?_⟩
  · simpa using hval hρ hP hne
  · simpa using htr hρ hP hnone
  · simpa using hval hρ hP hne
  · simpa using htr hρ hP hnone

@[simp] theorem equivWhen_tAttrCopy {s : Term} :
    I.EquivWhen P t (tAttrCopy s t') ↔ I.EquivWhen P t t' :=
  equivWhen_setAttrs

@[simp] theorem equiv_setAttrs : I.Equiv t (t'.setAttrs a) ↔ I.Equiv t t' := by
  rw [equiv_iff_when, equiv_iff_when, equivWhen_setAttrs]

@[simp] theorem equiv_tAttrCopy {s : Term} : I.Equiv t (tAttrCopy s t') ↔ I.Equiv t t' :=
  equiv_setAttrs

end Interp

/-! ## Traversal -/

namespace Term

/-- The immediate subterms. -/
def children : Term → List Term
  | .tvar _ _ | .tconst _ _ _ | .ttrue _ | .tfalse _ => []
  | .tapp _ _ tl _ => tl
  | .tif _ f t1 t2 => [f, t1, t2]
  | .tlet _ t _ e => [t, e]
  | .tcase _ t bl => t :: bl.map Prod.snd
  | .teps _ _ f => [f]
  | .tquant _ _ _ trl f => f :: trl.flatten
  | .tbinop _ _ f g => [f, g]
  | .tnot _ f => [f]

/-- `t_map`. -/
def tMap (fn : Term → Term) : Term → Term
  | .tvar a v => .tvar a v
  | .tconst a c ty => .tconst a c ty
  | .tapp a s tl ty => .tapp a s (tl.map fn) ty
  | .tif a f t1 t2 => .tif a (fn f) (fn t1) (fn t2)
  | .tlet a t v e => .tlet a (fn t) v (fn e)
  | .tcase a t bl => .tcase a (fn t) (bl.map (fun b => (b.1, fn b.2)))
  | .teps a v f => .teps a v (fn f)
  | .tquant a q vl trl f => .tquant a q vl (trl.map (List.map fn)) (fn f)
  | .tbinop a op f g => .tbinop a op (fn f) (fn g)
  | .tnot a f => .tnot a (fn f)
  | .ttrue a => .ttrue a
  | .tfalse a => .tfalse a

/-- The immediate subterms, with the variables bound there. -/
def scopes : Term → List (List VSymbol × Term)
  | .tvar _ _ | .tconst _ _ _ | .ttrue _ | .tfalse _ => []
  | .tapp _ _ tl _ => tl.map ([], ·)
  | .tif _ f t1 t2 => [([], f), ([], t1), ([], t2)]
  | .tlet _ t v e => [([], t), ([v], e)]
  | .tcase _ t bl => ([], t) :: bl.map (fun b => (b.1.patVars, b.2))
  | .teps _ v f => [([v], f)]
  | .tquant _ _ vl trl f => (vl, f) :: trl.flatten.map (vl, ·)
  | .tbinop _ _ f g => [([], f), ([], g)]
  | .tnot _ f => [([], f)]

/-- `t_map`, where the function sees which variables are bound. -/
def tMapUnder (fn : List VSymbol → Term → Term) : Term → Term
  | .tvar a v => .tvar a v
  | .tconst a c ty => .tconst a c ty
  | .tapp a s tl ty => .tapp a s (tl.map (fn [])) ty
  | .tif a f t1 t2 => .tif a (fn [] f) (fn [] t1) (fn [] t2)
  | .tlet a t v e => .tlet a (fn [] t) v (fn [v] e)
  | .tcase a t bl => .tcase a (fn [] t) (bl.map (fun b => (b.1, fn b.1.patVars b.2)))
  | .teps a v f => .teps a v (fn [v] f)
  | .tquant a q vl trl f => .tquant a q vl (trl.map (List.map (fn vl))) (fn vl f)
  | .tbinop a op f g => .tbinop a op (fn [] f) (fn [] g)
  | .tnot a f => .tnot a (fn [] f)
  | .ttrue a => .ttrue a
  | .tfalse a => .tfalse a

theorem tMapUnder_const (g : Term → Term) (t : Term) : t.tMapUnder (fun _ => g) = t.tMap g := by
  cases t <;> rfl

/-- The subterms without the binders. -/
theorem map_snd_scopes (t : Term) : t.scopes.map Prod.snd = t.children := by
  cases t <;> simp [scopes, children, comp_def]

theorem sizeOf_lt_of_mem_children {u : Term} (h : u ∈ t.children) : sizeOf u < sizeOf t := by
  cases t with
  | tvar a v | tconst a c ty | ttrue a | tfalse a => cases h
  | tapp a s tl ty =>
    have := sizeOf_lt_of_mem (show u ∈ tl from h)
    simp only [Term.tapp.sizeOf_spec]
    omega
  | tif a f t1 t2 =>
    simp only [children, mem_cons, not_mem_nil, or_false] at h
    simp only [Term.tif.sizeOf_spec]
    rcases h with rfl | rfl | rfl <;> omega
  | tlet a t v e =>
    simp only [children, mem_cons, not_mem_nil, or_false] at h
    simp only [Term.tlet.sizeOf_spec]
    rcases h with rfl | rfl <;> omega
  | tcase a t bl =>
    simp only [Term.tcase.sizeOf_spec]
    rcases mem_cons.mp h with rfl | h
    · omega
    · obtain ⟨b, hb, rfl⟩ := mem_map.mp h
      have h1 := sizeOf_lt_of_mem hb
      have h2 : sizeOf b = 1 + sizeOf b.1 + sizeOf b.2 := rfl
      omega
  | teps a v f =>
    simp only [children, mem_singleton] at h
    subst h
    simp only [Term.teps.sizeOf_spec]
    omega
  | tquant a q vl trl f =>
    simp only [Term.tquant.sizeOf_spec]
    rcases mem_cons.mp h with rfl | h
    · omega
    · obtain ⟨tr, htr, ht⟩ := mem_flatten.mp h
      have h1 := sizeOf_lt_of_mem htr
      have h2 := sizeOf_lt_of_mem ht
      omega
  | tbinop a op f g =>
    simp only [children, mem_cons, not_mem_nil, or_false] at h
    simp only [Term.tbinop.sizeOf_spec]
    rcases h with rfl | rfl <;> omega
  | tnot a f =>
    simp only [children, mem_singleton] at h
    subst h
    simp only [Term.tnot.sizeOf_spec]
    omega

theorem induct_children {motive : Term → Prop}
    (h : ∀ t : Term, (∀ u ∈ t.children, motive u) → motive t) (t : Term) : motive t := by
  induction hn : sizeOf t using Nat.strong_induction_on generalizing t with
  | _ n ih =>
    subst hn
    exact h t (fun u hu => ih _ (sizeOf_lt_of_mem_children hu) u rfl)

end Term

namespace Interp

variable {sig : TySymbol → List LSymbol} {I : Interp sig} {P : I.Env → Prop}

theorem quant_agree {Q Q' : I.Env → Prop} : ∀ {ρ : I.Env},
    I.Typed ρ → (∀ ρ', I.Typed ρ' → (∀ v, v ∉ vl → ρ' v = ρ v) → (Q ρ' ↔ Q' ρ')) →
      (I.quant q vl Q ρ ↔ I.quant q vl Q' ρ) := by
  induction vl with
  | nil =>
    intro ρ hρ h
    cases q <;> exact h ρ hρ (fun _ _ => rfl)
  | cons v vl ih =>
    intro ρ hρ h
    have hstep : ∀ d, I.mem v.vsTy d →
        (I.quant q vl Q (update ρ v d) ↔ I.quant q vl Q' (update ρ v d)) := by
      intro d hd
      refine ih (typed_update hρ hd) (fun ρ' hρ' hag => h ρ' hρ' (fun w hw => ?_))
      rw [mem_cons, not_or] at hw
      rw [hag w hw.2, update_of_ne hw.1]
    cases q with
    | tforall => exact forall_congr' fun d => imp_congr_right fun hd => hstep d hd
    | texists => exact exists_congr fun d => and_congr_right fun hd => hstep d hd

theorem quant_typed {Q Q' : I.Env → Prop} (h : ∀ ρ, I.Typed ρ → (Q ρ ↔ Q' ρ)) {ρ : I.Env}
    (hρ : I.Typed ρ) : I.quant q vl Q ρ ↔ I.quant q vl Q' ρ :=
  quant_agree hρ fun ρ' hρ' _ => h ρ' hρ'

/-! ### The nodes -/

theorem under_update {ρ : I.Env} {d : I.Val} (hρ : I.Typed ρ) (hP : P ρ) :
    Under [v] P (update ρ v d) :=
  ⟨ρ, hρ, hP, fun w hw => by rw [update_of_ne (by simpa using hw)]⟩

theorem EquivWhen.here {t t' : Term} (h : I.EquivWhen (Under [] P) t t') : I.EquivWhen P t t' :=
  h.mono fun ρ hρ hP => ⟨ρ, hρ, hP, fun _ _ => rfl⟩

theorem equivWhen_tapp {h : Term → Term} {s : LSymbol} {tl : List Term} {ty : Option Ty}
    (hgh : ∀ t ∈ tl, I.EquivWhen P (g t) (h t)) (hwt : (tapp a s (tl.map g) ty).Wt sig) :
    I.EquivWhen P (.tapp a s (tl.map g) ty) (.tapp a s (tl.map h) ty) := by
  simp only [Wt, wtList_iff] at hwt
  have htys : (tl.map h).map tTy = (tl.map g).map tTy := by
    rw [map_map, map_map]
    exact map_congr_left (fun t ht => (hgh t ht).ty)
  refine .of_sem ?_ rfl (fun {ρ} hρ hP => ?_)
  · simp only [Wt, wtList_iff, htys]
    refine ⟨hwt.1, fun u hu => ?_⟩
    obtain ⟨t, ht, rfl⟩ := mem_map.mp hu
    exact (hgh t ht).wt
  · have hvals : (tl.map h).map (I.eval ρ) = (tl.map g).map (I.eval ρ) := by
      rw [map_map, map_map]
      refine map_congr_left (fun t ht => (hgh t ht).val hρ hP (fun hnone => ?_))
      -- the arguments of a symbol are terms
      obtain ⟨m, hm, _⟩ := hwt.1
      have hmem : (g t).tTy ∈ (tl.map g).map tTy := mem_map_of_mem (mem_map_of_mem ht)
      rw [hm, hnone] at hmem
      simp at hmem
    rw [sem_tapp, sem_tapp, hvals, htys]
    exact ⟨fun _ => rfl, fun _ => .rfl⟩

theorem equivWhen_tif {t1 t2 t1' t2' : Term} (hf : I.EquivWhen P f f') (h1 : I.EquivWhen P t1 t1')
    (h2 : I.EquivWhen P t2 t2') (hwt : (tif a f t1 t2).Wt sig) :
    I.EquivWhen P (.tif a f t1 t2) (.tif a f' t1' t2') := by
  obtain ⟨hfty, h12, _, _, _⟩ := hwt
  refine .of_sem ⟨hf.ty.trans hfty, ?_, hf.wt, h1.wt, h2.wt⟩ h2.ty (fun {ρ} hρ hP => ?_)
  · rw [h1.ty, h2.ty, h12]
  · have hcond := hf.tr hρ hP hfty
    rw [sem_tif, sem_tif]
    by_cases hc : I.Holds ρ f
    · rw [if_pos hc, if_pos (hcond.mpr hc)]
      show (t2.tTy ≠ none → _) ∧ (t2.tTy = none → _)
      rw [← h12]
      exact h1.sem_eq hρ hP
    · rw [if_neg hc, if_neg (fun h => hc (hcond.mp h))]
      exact h2.sem_eq hρ hP

theorem equivWhen_tlet {e e' : Term} (ht : I.EquivWhen P t t') (he : I.EquivWhen (Under [v] P) e e')
    (hwt : (tlet a t v e).Wt sig) : I.EquivWhen P (.tlet a t v e) (.tlet a t' v e') := by
  obtain ⟨htv, hwtt, _⟩ := hwt
  refine .of_sem ⟨ht.ty.trans htv, ht.wt, he.wt⟩ he.ty (fun {ρ} hρ hP => ?_)
  rw [sem_tlet, sem_tlet, ht.val hρ hP (by rw [htv]; exact Option.some_ne_none _)]
  exact he.sem_eq (typed_update hρ (eval_mem hwtt htv hρ)) (under_update hρ hP)

theorem equivWhen_tcase {p : Pattern × Term → Pattern} {g h : Pattern × Term → Term}
    {bl : List (Pattern × Term)} (ht : I.EquivWhen P t t')
    (hgh : ∀ b ∈ bl, I.EquivWhen (Under (p b).patVars P) (g b) (h b))
    (hwt : (tcase a t (bl.map (fun b => (p b, g b)))).Wt sig) :
    I.EquivWhen P (.tcase a t (bl.map (fun b => (p b, g b))))
      (.tcase a t' (bl.map (fun b => (p b, h b)))) := by
  have hwt' := hwt
  simp only [Wt, wtBranches_iff, forall_mem_map] at hwt'
  obtain ⟨hne, hwtt, hbl⟩ := hwt'
  have hty : (tcase a t' (bl.map (fun b => (p b, h b)))).tTy =
      (tcase a t (bl.map (fun b => (p b, g b)))).tTy := by
    cases bl with
    | nil => rfl
    | cons b bl => exact (hgh b mem_cons_self).ty
  have hne' : bl ≠ [] := by simpa using hne
  have hterm : t.tTy ≠ none := by
    intro hnone
    obtain ⟨b, hmem⟩ := exists_mem_of_ne_nil bl hne'
    rw [hnone] at hbl
    exact absurd (hbl b hmem).1 (Option.some_ne_none _)
  refine .of_sem ?_ hty (fun {ρ} hρ hP => ?_)
  · simp only [Wt, wtBranches_iff, forall_mem_map]
    refine ⟨by simpa using hne', ht.wt, fun b hb => ?_⟩
    obtain ⟨hpty, hok, hlin, hbty, _⟩ := hbl b hb
    exact ⟨by rw [hpty, ht.ty], hok, hlin, by rw [hty, (hgh b hb).ty, hbty], (hgh b hb).wt⟩
  · rw [sem_tcase, sem_tcase, ht.val hρ hP hterm, map_map, map_map]
    refine I.branches_sim (S := fun r r' : Den I.Val =>
      ((tcase a t (bl.map (fun b => (p b, g b)))).tTy ≠ none → r.val = r'.val) ∧
      ((tcase a t (bl.map (fun b => (p b, g b)))).tTy = none → (r.tr ↔ r'.tr))) ?_
      ⟨fun _ => rfl, fun _ => .rfl⟩
    rw [forall₂_map_left_iff, forall₂_map_right_iff, forall₂_same]
    intro b hb
    obtain ⟨hpty, hok, _, hbty, _⟩ := hbl b hb
    -- the valuation of the branch differs on the variables of the pattern only
    have hbody : ∀ {bs : List (VSymbol × I.Val)}, I.Typed (bindAll ρ bs) →
        (∀ v, v ∈ bs.map Prod.fst → v ∈ (p b).patVars) →
        ((tcase a t (bl.map (fun b => (p b, g b)))).tTy ≠ none →
          (I.sem (h b) (bindAll ρ bs)).val = (I.sem (g b) (bindAll ρ bs)).val) ∧
        ((tcase a t (bl.map (fun b => (p b, g b)))).tTy = none →
          ((I.sem (h b) (bindAll ρ bs)).tr ↔ (I.sem (g b) (bindAll ρ bs)).tr)) := by
      intro bs htyped hvars
      rw [← hbty]
      refine (hgh b hb).sem_eq htyped ⟨ρ, hρ, hP, fun v hv => ?_⟩
      exact bindAll_of_not_mem (fun hin => hv (hvars v hin))
    refine ⟨Iff.rfl, fun bs bs' hm hm' => ?_, ?_⟩
    · simp only [Function.comp] at hm hm'
      rw [hm, Option.some.injEq] at hm'
      subst hm'
      exact hbody (typed_bindAll hρ (matchPat_mem hok (eval_mem hwtt hpty.symm hρ) hm))
        (fun v => (Pattern.matchPat_keys I.dest hok hm v).mp)
    · exact hbody (typed_dfltVars hρ (p b)) (fun v hv => by simpa [dfltVars] using hv)

theorem equivWhen_teps (heps : I.EpsExt) (hf : I.EquivWhen (Under [v] P) f f')
    (hwt : (teps a v f).Wt sig) : I.EquivWhen P (.teps a v f) (.teps a v f') := by
  refine .of_sem ⟨hf.ty.trans hwt.1, hf.wt⟩ rfl
    (fun {ρ} hρ hP => ⟨fun _ => ?_, fun hnone => by cases hnone⟩)
  rw [sem_teps, sem_teps]
  exact heps _ _ _ (fun d hd => hf.tr (typed_update hρ hd) (under_update hρ hP) hwt.1)

theorem equivWhen_tquant {trl trl' : List (List Term)} (hf : I.EquivWhen (Under vl P) f f')
    (htr : ∀ tr ∈ trl', ∀ t ∈ tr, t.Wt sig) (hwt : (tquant a q vl trl f).Wt sig) :
    I.EquivWhen P (.tquant a q vl trl f) (.tquant a q vl trl' f') := by
  refine .of_formula rfl ⟨hf.ty.trans hwt.1, ?_, hf.wt⟩ rfl (fun {ρ} hρ hP => ?_)
  · rw [wtTriggers_iff]
    exact htr
  · rw [holds_tquant, holds_tquant]
    exact quant_agree hρ (fun ρ' hρ' hag => hf.tr hρ' ⟨ρ, hρ, hP, hag⟩ hwt.1)

theorem equivWhen_tbinop {op : Binop} {g g' : Term} (hf : I.EquivWhen P f f')
    (hg : I.EquivWhen P g g') (hwt : (tbinop a op f g).Wt sig) :
    I.EquivWhen P (.tbinop a op f g) (.tbinop a op f' g') := by
  refine .of_formula rfl ⟨hf.ty.trans hwt.1, hg.ty.trans hwt.2.1, hf.wt, hg.wt⟩ rfl
    (fun {ρ} hρ hP => ?_)
  rw [holds_tbinop, holds_tbinop, hf.tr hρ hP hwt.1, hg.tr hρ hP hwt.2.1]

theorem equivWhen_tnot (hf : I.EquivWhen P f f') (hwt : (tnot a f).Wt sig) :
    I.EquivWhen P (.tnot a f) (.tnot a f') := by
  refine .of_formula rfl ⟨hf.ty.trans hwt.1, hf.wt⟩ rfl (fun {ρ} hρ hP => ?_)
  rw [holds_tnot, holds_tnot, hf.tr hρ hP hwt.1]

/-! ### The traversals -/

section MapUnder

variable {fn : List VSymbol → Term → Term}

/-- A traversal that keeps the types of the subterms keeps that of the term. -/
theorem wt_tMapUnder
    (h : ∀ c ∈ t.scopes, c.2.Wt sig → (fn c.1 c.2).Wt sig ∧ (fn c.1 c.2).tTy = c.2.tTy)
    (hwt : t.Wt sig) : (t.tMapUnder fn).Wt sig ∧ (t.tMapUnder fn).tTy = t.tTy := by
  cases t with
  | tapp a s tl ty =>
    simp only [scopes, forall_mem_map] at h
    simp only [Wt, wtList_iff] at hwt
    have htys : (tl.map (fn [])).map tTy = tl.map tTy := by
      rw [map_map]
      exact map_congr_left (fun t ht => (h t ht (hwt.2 t ht)).2)
    simp only [tMapUnder, Wt, wtList_iff, htys, forall_mem_map]
    exact ⟨⟨hwt.1, fun t ht => (h t ht (hwt.2 t ht)).1⟩, rfl⟩
  | tif a f t1 t2 =>
    simp only [scopes, forall_mem_cons] at h
    obtain ⟨hfty, h12, wf, w1, w2⟩ := hwt
    have hf := h.1 wf
    have h1 := h.2.1 w1
    have h2 := h.2.2.1 w2
    exact ⟨⟨hf.2.trans hfty, h1.2.trans (h12.trans h2.2.symm), hf.1, h1.1, h2.1⟩, h2.2⟩
  | tlet a t v e =>
    simp only [scopes, forall_mem_cons] at h
    obtain ⟨htv, wt, we⟩ := hwt
    have ht := h.1 wt
    have he := h.2.1 we
    exact ⟨⟨ht.2.trans htv, ht.1, he.1⟩, he.2⟩
  | tcase a t bl =>
    simp only [scopes, forall_mem_cons, forall_mem_map] at h
    simp only [Wt, wtBranches_iff] at hwt
    obtain ⟨hne, wt, hbl⟩ := hwt
    have ht := h.1 wt
    have hb := fun b hb => h.2 b hb (hbl b hb).2.2.2.2
    have hty : ((tcase a t bl).tMapUnder fn).tTy = (tcase a t bl).tTy := by
      cases bl with
      | nil => rfl
      | cons b bl => exact (hb b mem_cons_self).2
    refine ⟨?_, hty⟩
    simp only [tMapUnder, Wt, wtBranches_iff, forall_mem_map]
    refine ⟨by simpa using hne, ht.1, fun b hmem => ?_⟩
    obtain ⟨hpty, hok, hlin, hbty, _⟩ := hbl b hmem
    exact ⟨by rw [hpty, ht.2], hok, hlin, (hb b hmem).2.trans (hbty.trans hty.symm),
      (hb b hmem).1⟩
  | teps a v f | tnot a f =>
    simp only [scopes, forall_mem_cons] at h
    have hf := h.1 hwt.2
    exact ⟨⟨hf.2.trans hwt.1, hf.1⟩, rfl⟩
  | tquant a q vl trl f =>
    simp only [scopes, forall_mem_cons, forall_mem_map] at h
    obtain ⟨hfty, htrl, wf⟩ := hwt
    have hf := h.1 wf
    rw [wtTriggers_iff] at htrl
    refine ⟨⟨hf.2.trans hfty, ?_, hf.1⟩, rfl⟩
    simp only [wtTriggers_iff, forall_mem_map]
    exact fun tr htr t ht =>
      (h.2 t (mem_flatten.mpr ⟨tr, htr, ht⟩) (htrl tr htr t ht)).1
  | tbinop a op f g =>
    simp only [scopes, forall_mem_cons] at h
    obtain ⟨hf, hg, wf, wg⟩ := hwt
    exact ⟨⟨(h.1 wf).2.trans hf, (h.2.1 wg).2.trans hg, (h.1 wf).1, (h.2.1 wg).1⟩, rfl⟩
  | _ => exact ⟨hwt, rfl⟩

/-- A traversal that replaces each subterm by one that may stand for it there. -/
theorem equivWhen_tMapUnder (heps : I.EpsExt)
    (h : ∀ c ∈ t.scopes, c.2.Wt sig → I.EquivWhen (Under c.1 P) c.2 (fn c.1 c.2)) (hwt : t.Wt sig) :
    I.EquivWhen P t (t.tMapUnder fn) := by
  have hwt₀ := hwt
  cases t with
  | tapp a s tl ty =>
    simp only [scopes, forall_mem_map] at h
    simp only [Wt, wtList_iff] at hwt
    have happ : I.EquivWhen P (.tapp a s (tl.map id) ty) (.tapp a s (tl.map (fn [])) ty) :=
      equivWhen_tapp (fun t ht => (h t ht (hwt.2 t ht)).here) (by rwa [map_id])
    rwa [map_id] at happ
  | tif a f t1 t2 =>
    obtain ⟨_, _, wf, w1, w2⟩ := hwt
    simp only [scopes, forall_mem_cons] at h
    exact equivWhen_tif (h.1 wf).here (h.2.1 w1).here (h.2.2.1 w2).here hwt₀
  | tlet a t v e =>
    simp only [scopes, forall_mem_cons] at h
    exact equivWhen_tlet (h.1 hwt.2.1).here (h.2.1 hwt.2.2) hwt
  | tcase a t bl =>
    simp only [Wt, wtBranches_iff] at hwt
    simp only [scopes, forall_mem_cons, forall_mem_map] at h
    have hid : bl.map (fun b => (b.1, b.2)) = bl := map_id bl
    have hcase := equivWhen_tcase (p := Prod.fst) (g := Prod.snd) (h.1 hwt.2.1).here
      (fun b hb => h.2 b hb (hwt.2.2 b hb).2.2.2.2) (by rwa [hid])
    rwa [hid] at hcase
  | teps a v f =>
    simp only [scopes, forall_mem_cons] at h
    exact equivWhen_teps heps (h.1 hwt.2) hwt
  | tquant a q vl trl f =>
    simp only [scopes, forall_mem_cons, forall_mem_map] at h
    have htrl := hwt.2.1
    rw [wtTriggers_iff] at htrl
    refine equivWhen_tquant (h.1 hwt.2.2) ?_ hwt
    simp only [forall_mem_map]
    exact fun tr htr t ht => (h.2 t (mem_flatten.mpr ⟨tr, htr, ht⟩) (htrl tr htr t ht)).wt
  | tbinop a op f g =>
    simp only [scopes, forall_mem_cons] at h
    exact equivWhen_tbinop (h.1 hwt.2.2.1).here (h.2.1 hwt.2.2.2).here hwt
  | tnot a f =>
    simp only [scopes, forall_mem_cons] at h
    exact equivWhen_tnot (h.1 hwt.2).here hwt
  | _ => exact (Equiv.refl hwt).when

end MapUnder

/-! ### Without a condition -/

section Map

variable {fn : Term → Term}

theorem equiv_tapp_map {h : Term → Term} {s : LSymbol} {tl : List Term} {ty : Option Ty}
    (hgh : ∀ t ∈ tl, I.Equiv (g t) (h t)) (hwt : (tapp a s (tl.map g) ty).Wt sig) :
    I.Equiv (.tapp a s (tl.map g) ty) (.tapp a s (tl.map h) ty) :=
  equiv_iff_when.mpr (equivWhen_tapp (fun t ht => (hgh t ht).when) hwt)

theorem equiv_tif {t1 t2 t1' t2' : Term} (hf : I.Equiv f f') (h1 : I.Equiv t1 t1')
    (h2 : I.Equiv t2 t2') (hwt : (tif a f t1 t2).Wt sig) :
    I.Equiv (.tif a f t1 t2) (.tif a f' t1' t2') :=
  equiv_iff_when.mpr (equivWhen_tif hf.when h1.when h2.when hwt)

theorem equiv_tlet {e e' : Term} (ht : I.Equiv t t') (he : I.Equiv e e')
    (hwt : (tlet a t v e).Wt sig) : I.Equiv (.tlet a t v e) (.tlet a t' v e') :=
  equiv_iff_when.mpr (equivWhen_tlet ht.when he.when hwt)

theorem equiv_tcase_map {p : Pattern × Term → Pattern} {g h : Pattern × Term → Term}
    {bl : List (Pattern × Term)} (ht : I.Equiv t t') (hgh : ∀ b ∈ bl, I.Equiv (g b) (h b))
    (hwt : (tcase a t (bl.map (fun b => (p b, g b)))).Wt sig) :
    I.Equiv (.tcase a t (bl.map (fun b => (p b, g b))))
      (.tcase a t' (bl.map (fun b => (p b, h b)))) :=
  equiv_iff_when.mpr (equivWhen_tcase ht.when (fun b hb => (hgh b hb).when) hwt)

theorem equiv_teps (heps : I.EpsExt) (hf : I.Equiv f f') (hwt : (teps a v f).Wt sig) :
    I.Equiv (.teps a v f) (.teps a v f') :=
  equiv_iff_when.mpr (equivWhen_teps heps hf.when hwt)

theorem equiv_tquant {trl trl' : List (List Term)} (hf : I.Equiv f f')
    (htr : ∀ tr ∈ trl', ∀ t ∈ tr, t.Wt sig) (hwt : (tquant a q vl trl f).Wt sig) :
    I.Equiv (.tquant a q vl trl f) (.tquant a q vl trl' f') :=
  equiv_iff_when.mpr (equivWhen_tquant hf.when htr hwt)

theorem equiv_tbinop {op : Binop} {g g' : Term} (hf : I.Equiv f f') (hg : I.Equiv g g')
    (hwt : (tbinop a op f g).Wt sig) : I.Equiv (.tbinop a op f g) (.tbinop a op f' g') :=
  equiv_iff_when.mpr (equivWhen_tbinop hf.when hg.when hwt)

theorem equiv_tnot (hf : I.Equiv f f') (hwt : (tnot a f).Wt sig) :
    I.Equiv (.tnot a f) (.tnot a f') :=
  equiv_iff_when.mpr (equivWhen_tnot hf.when hwt)

theorem equiv_tMap (heps : I.EpsExt) (h : ∀ u ∈ t.children, u.Wt sig → I.Equiv u (fn u))
    (hwt : t.Wt sig) : I.Equiv t (t.tMap fn) := by
  rw [equiv_iff_when, ← tMapUnder_const]
  refine equivWhen_tMapUnder heps (fun c hc hwc => (h c.2 ?_ hwc).when) hwt
  rw [← map_snd_scopes]
  exact mem_map_of_mem hc

end Map

end Interp

theorem wt_tMap {sig : TySymbol → List LSymbol}
    (h : ∀ u ∈ t.children, u.Wt sig → (g u).Wt sig ∧ (g u).tTy = u.tTy) (hwt : t.Wt sig) :
    (t.tMap g).Wt sig ∧ (t.tMap g).tTy = t.tTy := by
  rw [← tMapUnder_const]
  refine Interp.wt_tMapUnder (fun c hc => h c.2 ?_) hwt
  rw [← map_snd_scopes]
  exact mem_map_of_mem hc

end Why3
