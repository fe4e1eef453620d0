import Why3.Core.MappingCodes

/-!
# Applying lambdas

`t_app_beta_l` of `core/term.ml` applies a mapping to terms.  It substitutes the terms for
the variables of a lambda, as long as there are variables and terms; the variables that are
left make a lambda again, and the terms that are left are applied to the body.
-/

namespace Why3

open List Function Term Interp Mvs

variable {app h r t : Term} {ty : Ty}

/-! ## Application -/

/-- `t_func_app_l`; `none` is the exception of a wrong argument. -/
def tFuncAppLInfer (fn : Term) (tl : List Term) : Option Term :=
  tl.foldlM (fun h t => tAppInfer fsFuncApp [h, t]) fn

/-- `t_subst_unsafe`. -/
def tSubstUnsafe (m : Mvs) (t : Term) : Term :=
  t.subst (freshTag (t.freeVars ++ m.flatMap (fun b => b.2.freeVars))) m

/-- `add`: the variables that get an argument, and what is left of the two lists; `none` is
the exception of `vs_check`. -/
def betaArgs (m : Mvs) : List VSymbol → List Term → Option (Mvs × List VSymbol × List Term)
  | [], tl => some (m, [], tl)
  | vl, [] => some (m, vl, [])
  | v :: vl, t :: tl => if t.tTy = some v.vsTy then betaArgs ((v, t) :: m) vl tl else none

variable {vl : List VSymbol}

theorem length_betaArgs_le {vl' : List VSymbol} : ∀ {tl tl' : List Term} {m m' : Mvs},
    betaArgs m vl tl = some (m', vl', tl') → tl'.length ≤ tl.length := by
  induction vl with
  | nil =>
    intro tl tl' m m' h
    rw [betaArgs, Option.some.injEq, Prod.mk.injEq, Prod.mk.injEq] at h
    rw [h.2.2]
  | cons v vl ih =>
    intro tl tl' m m' h
    cases tl with
    | nil =>
      rw [betaArgs, Option.some.injEq, Prod.mk.injEq, Prod.mk.injEq] at h
      · rw [h.2.2]
      · exact fun h => by cases h
    | cons t tl =>
      rw [betaArgs] at h
      split_ifs at h
      exact Nat.le_succ_of_le (ih h)

theorem length_betaArgs_lt {vl' : List VSymbol} {tl tl' : List Term} {m m' : Mvs}
    (h : betaArgs m vl tl = some (m', vl', tl')) (hvl : vl ≠ []) (htl : tl ≠ []) :
    tl'.length < tl.length := by
  cases vl with
  | nil => exact absurd rfl hvl
  | cons v vl =>
    cases tl with
    | nil => exact absurd rfl htl
    | cons t tl =>
      rw [betaArgs] at h
      split_ifs at h
      exact Nat.lt_succ_of_le (length_betaArgs_le h)

/-- `lam` opened, with variables that are free in none of the terms. -/
def openFor (lam : Term) (tl : List Term) : List VSymbol × List (List Term) × Term :=
  tOpenLambda (freshTag (lam.freeVars ++ tl.flatMap freeVars)) lam

/-- `t_app_beta_l`. -/
def tAppBetaL (lam : Term) (tl : List Term) : Option Term :=
  if _htl : tl = [] then some lam
  else
    let p := openFor lam tl
    if _hvl : p.1 = [] then tFuncAppLInfer lam tl
    else
      match _h : betaArgs [] p.1 tl with
      | none => none
      | some (m, [], tl') => tAppBetaL (tSubstUnsafe m p.2.2) tl'
      | some (m, vl, _) =>
        some (tLambda vl (p.2.1.map (fun tr => tr.map (tSubstUnsafe m))) (tSubstUnsafe m p.2.2))
termination_by tl.length
decreasing_by exact length_betaArgs_lt _h _hvl _htl

section Equations

variable {lam : Term} {tl tl' : List Term} {m : Mvs} {vl : List VSymbol}

theorem tAppBetaL_nil (lam : Term) : tAppBetaL lam [] = some lam := by
  rw [tAppBetaL, dif_pos rfl]

theorem tAppBetaL_other (htl : tl ≠ []) (h : (openFor lam tl).1 = []) :
    tAppBetaL lam tl = tFuncAppLInfer lam tl := by
  rw [tAppBetaL, dif_neg htl]
  dsimp only
  rw [dif_pos h]

theorem tAppBetaL_full (htl : tl ≠ []) (h : (openFor lam tl).1 ≠ [])
    (hadd : betaArgs [] (openFor lam tl).1 tl = some (m, [], tl')) :
    tAppBetaL lam tl = tAppBetaL (tSubstUnsafe m (openFor lam tl).2.2) tl' := by
  rw [tAppBetaL, dif_neg htl]
  dsimp only
  rw [dif_neg h]
  split
  · next hnone => cases hnone.symm.trans hadd
  · next hsome => cases hsome.symm.trans hadd; rfl
  · next hvl hsome => cases hsome.symm.trans hadd; exact absurd rfl hvl

theorem tAppBetaL_fewer (htl : tl ≠ []) (h : (openFor lam tl).1 ≠ []) (hvl : vl ≠ [])
    (hadd : betaArgs [] (openFor lam tl).1 tl = some (m, vl, tl')) :
    tAppBetaL lam tl = some (tLambda vl ((openFor lam tl).2.1.map (fun tr => tr.map (tSubstUnsafe m)))
      (tSubstUnsafe m (openFor lam tl).2.2)) := by
  rw [tAppBetaL, dif_neg htl]
  dsimp only
  rw [dif_neg h]
  split
  · next hnone => cases hnone.symm.trans hadd
  · next hsome => cases hsome.symm.trans hadd; exact absurd rfl hvl
  · next hsome => cases hsome.symm.trans hadd; rfl

end Equations

/-- `t_func_app_beta_l`. -/
def tFuncAppBetaL (lam : Term) (tl : List Term) : Option Term := do
  let e ← tAppBetaL lam tl
  if e.tTy = none then some (.tif [] e tBoolTrue tBoolFalse) else some e

/-- `t_pred_app_beta_l`. -/
def tPredAppBetaL (lam : Term) (tl : List Term) : Option Term := do
  let e ← tAppBetaL lam tl
  if e.tTy = none then some e else psApp psEqu [e, tBoolTrue]

/-- The type of the mappings from values of these types. -/
def tyFuncs (tys : List Ty) (ty : Ty) : Ty := tys.foldr tyFunc ty

/-! ## Arguments of the right types -/

section Types

variable {sig : TySymbol → List LSymbol}

theorem tAppInfer_func {a b : Ty} (hh : h.tTy = some (tyFunc a b)) (ht : t.tTy = some a) :
    tAppInfer fsFuncApp [h, t] = some (tFuncApp h t) := by
  have hinst : lsArgInst fsFuncApp [h, t] = some [(⟨14⟩, b), (⟨13⟩, a)] := by
    have hne : ((⟨14⟩ : TvSymbol) == ⟨13⟩) = false := rfl
    have hne' : ((⟨13⟩ : TvSymbol) == ⟨14⟩) = false := rfl
    simp [lsArgInst, hh, ht, fsFuncApp, tyFunc, tyMatchList, tyMatch, List.lookup, hne, hne']
  rw [tAppInfer, hinst, tFuncApp, hh]
  rfl

theorem wt_tFuncApp {a b : Ty} (hwt : h.Wt sig) (hh : h.tTy = some (tyFunc a b)) (hwtt : t.Wt sig)
    (ht : t.tTy = some a) : (tFuncApp h t).Wt sig ∧ (tFuncApp h t).tTy = some b := by
  have happ : tFuncApp h t = .tapp [] fsFuncApp [h, t] (some b) := by
    rw [tFuncApp, hh]
    rfl
  rw [happ]
  simp only [Wt, wtList_iff, map_cons, map_nil, hh, ht]
  refine ⟨⟨takes_fsFuncApp a b, fun u hu => ?_⟩, rfl⟩
  rcases mem_pair.mp hu with rfl | rfl
  · exact hwt
  · exact hwtt

theorem wt_tFuncAppL_args {tys : List Ty} : ∀ {tl : List Term} {h : Term}, h.Wt sig →
    h.tTy = some (tyFuncs tys ty) → (∀ t ∈ tl, t.Wt sig) → tl.map tTy = tys.map some →
    tFuncAppLInfer h tl = some (tFuncAppL h tl) ∧ (tFuncAppL h tl).Wt sig ∧
      (tFuncAppL h tl).tTy = some ty := by
  induction tys with
  | nil =>
    intro tl h hwt hty _ htl
    rw [map_nil, map_eq_nil_iff] at htl
    subst htl
    exact ⟨rfl, hwt, hty⟩
  | cons a tys ih =>
    intro tl h hwt hty hwts htl
    cases tl with
    | nil => cases htl
    | cons t tl =>
      rw [map_cons, map_cons, List.cons.injEq] at htl
      rw [forall_mem_cons] at hwts
      have hty' : h.tTy = some (tyFunc a (tyFuncs tys ty)) := hty
      obtain ⟨h₁, h₂⟩ := wt_tFuncApp hwt hty' hwts.1 htl.1
      have hinfer : tFuncAppLInfer h (t :: tl) = tFuncAppLInfer (tFuncApp h t) tl := by
        rw [tFuncAppLInfer, foldlM_cons, tAppInfer_func hty' htl.1]
        rfl
      rw [hinfer]
      exact ih h₁ h₂ hwts.2 htl.2

/-- The variables that get an argument, and the argument that each of them gets. -/
theorem betaArgs_split {ety ty : Ty} : ∀ {tl : List Term} {tys : List Ty}
    {m : Mvs}, tyFuncL vl ety = tyFuncs tys ty → tl.map tTy = tys.map some →
    ∃ vl₁ vl₂ tl₁ tl₂ tys₁ tys₂, vl = vl₁ ++ vl₂ ∧ tl = tl₁ ++ tl₂ ∧
      List.Forall₂ (fun (v : VSymbol) (t : Term) => t.tTy = some v.vsTy) vl₁ tl₁ ∧
      tl₁.map tTy = tys₁.map some ∧ tl₂.map tTy = tys₂.map some ∧
      tyFuncs tys ty = tyFuncs tys₁ (tyFuncs tys₂ ty) ∧ tyFuncL vl₂ ety = tyFuncs tys₂ ty ∧
      (vl₂ = [] ∨ tl₂ = []) ∧ betaArgs m vl tl = some ((vl₁.zip tl₁).reverse ++ m, vl₂, tl₂) := by
  induction vl with
  | nil =>
    intro tl tys m hty htl
    exact ⟨[], [], [], tl, [], tys, rfl, rfl, .nil, rfl, htl, rfl, hty, .inl rfl, rfl⟩
  | cons v vl ih =>
    intro tl tys m hty htl
    cases tl with
    | nil =>
      exact ⟨[], v :: vl, [], [], [], tys, rfl, rfl, .nil, rfl, htl, rfl, hty, .inr rfl, rfl⟩
    | cons t tl =>
      cases tys with
      | nil => cases htl
      | cons a tys =>
        rw [map_cons, map_cons, List.cons.injEq] at htl
        have hfunc : tyFunc v.vsTy (tyFuncL vl ety) = tyFunc a (tyFuncs tys ty) := hty
        simp only [tyFunc, Ty.tyapp.injEq, List.cons.injEq, and_true, true_and] at hfunc
        obtain ⟨vl₁, vl₂, tl₁, tl₂, tys₁, tys₂, hvl, htl', hargs, h₁, h₂, h₃, h₄, h₅, hadd⟩ :=
          @ih tl tys ((v, t) :: m) hfunc.2 htl.2
        have ht : t.tTy = some v.vsTy := by rw [htl.1, hfunc.1]
        refine ⟨v :: vl₁, vl₂, t :: tl₁, tl₂, a :: tys₁, tys₂, by rw [hvl]; rfl,
          by rw [htl']; rfl, .cons ht hargs, by rw [map_cons, htl.1, h₁]; rfl, h₂, ?_, h₄,
          h₅, ?_⟩
        · exact congrArg (tyFunc a) h₃
        · rw [betaArgs, if_pos ht, hadd]
          simp

end Types

/-! ## The substitution of the arguments -/

section Subst

variable {sig : TySymbol → List LSymbol} {I : Interp sig}

/-- The valuation in which the variables have the values of what replaces them. -/
noncomputable def Interp.substEnv (I : Interp sig) (m : Mvs) (ρ : I.Env) : I.Env := fun v => I.eval ρ (m.get v)

/-- The map replaces variables by terms of their types. -/
def Mvs.Typed (sig : TySymbol → List LSymbol) (m : Mvs) : Prop :=
  ∀ v, (m.get v).Wt sig ∧ (m.get v).tTy = some v.vsTy

theorem Mvs.Typed.ok {m : Mvs} (hm : m.Typed sig) (t : Term) :
    m.Ok sig (freshTag (t.freeVars ++ m.flatMap (fun b => b.2.freeVars))) t.freeVars := by
  intro v hv
  refine ⟨(hm v).1, (hm v).2, fun w hw => lt_freshTag ?_⟩
  rw [mem_append]
  unfold get at hw
  cases hlook : m.lookup v with
  | none =>
    rw [hlook] at hw
    obtain rfl := mem_singleton.mp hw
    exact .inl hv
  | some u =>
    rw [hlook] at hw
    exact .inr (mem_flatMap.mpr ⟨(v, u), Lookup.mem_of_lookup hlook, hw⟩)

theorem wt_tSubstUnsafe {m : Mvs} (hm : m.Typed sig) (ht : t.Wt sig) :
    (tSubstUnsafe m t).Wt sig ∧ (tSubstUnsafe m t).tTy = t.tTy :=
  ⟨wt_subst (hm.ok t) ht, tTy_subst (hm.ok t)⟩

theorem Interp.gives_tSubstUnsafe {m : Mvs} (hm : m.Typed sig) (ht : t.Wt sig) {d : I.Val}
    {ρ : I.Env} : I.Gives (tSubstUnsafe m t) d ρ ↔ I.Gives t d (I.substEnv m ρ) := by
  obtain ⟨hval, htr⟩ := @sem_subst t sig I ht _ m ρ (I.substEnv m ρ) (hm.ok t) (fun _ _ => rfl)
  unfold Gives
  rw [(wt_tSubstUnsafe hm ht).2]
  cases hty : t.tTy with
  | some ty =>
    show d = (I.sem (tSubstUnsafe m t) ρ).val ↔ d = (I.sem t (I.substEnv m ρ)).val
    rw [tSubstUnsafe, hval]
  | none =>
    show (d = I.boolTrue ↔ (I.sem (tSubstUnsafe m t) ρ).tr) ↔
      (d = I.boolTrue ↔ (I.sem t (I.substEnv m ρ)).tr)
    rw [tSubstUnsafe, htr hty]

theorem Interp.typed_substEnv {m : Mvs} (hm : m.Typed sig) {ρ : I.Env} (hρ : I.Typed ρ) :
    I.Typed (I.substEnv m ρ) :=
  fun v => eval_mem (hm v).1 (hm v).2 hρ

theorem Mvs.get_zip_of_not_mem {v : VSymbol} (hv : v ∉ vl) :
    ∀ {tl : List Term} {m : Mvs}, get ((vl.zip tl).reverse ++ m) v = m.get v := by
  induction vl with
  | nil => exact fun {_ _} => rfl
  | cons w vl ih =>
    intro tl m
    rw [mem_cons, not_or] at hv
    cases tl with
    | nil => rfl
    | cons t tl =>
      rw [zip_cons_cons, reverse_cons, append_assoc, singleton_append,
        ih hv.2, get_cons_of_ne hv.1]

theorem Mvs.get_zip {R : VSymbol → Term → Prop} {tl : List Term}
    (h : List.Forall₂ R vl tl) : vl.Nodup → ∀ {m : Mvs},
      List.Forall₂ (fun v t => get ((vl.zip tl).reverse ++ m) v = t) vl tl := by
  induction h with
  | nil => exact fun _ {_} => .nil
  | @cons v t vl tl _ _ ih =>
    intro hnd m
    rw [nodup_cons] at hnd
    simp only [zip_cons_cons, reverse_cons, append_assoc, singleton_append]
    refine .cons ?_ (ih hnd.2)
    rw [get_zip_of_not_mem hnd.1, get_cons_self]

theorem Mvs.typed_zip {tl : List Term} (hnd : vl.Nodup)
    (h : List.Forall₂ (fun (v : VSymbol) (t : Term) => t.tTy = some v.vsTy) vl tl)
    (hwt : ∀ t ∈ tl, t.Wt sig) : Mvs.Typed sig ((vl.zip tl).reverse ++ []) := by
  intro v
  by_cases hv : v ∈ vl
  · obtain ⟨i, hi, rfl⟩ := mem_iff_getElem.mp hv
    have hi' : i < tl.length := h.length_eq ▸ hi
    have hget := (forall₂_iff_get.mp (get_zip h hnd (m := []))).2 i hi hi'
    have hty := (forall₂_iff_get.mp h).2 i hi hi'
    simp only [get_eq_getElem] at hget hty
    rw [hget]
    exact ⟨hwt _ (getElem_mem hi'), hty⟩
  · rw [get_zip_of_not_mem hv]
    exact ⟨trivial, rfl⟩

end Subst

/-! ## Meaning -/

namespace Interp

variable {sig : TySymbol → List LSymbol} {I : Interp sig} {ρ : I.Env}

theorem eval_tFuncApp_congr {h' : Term} (hty : h.tTy = h'.tTy) {ρ' : I.Env} {t' : Term}
    (heval : I.eval ρ h = I.eval ρ' h') (htty : t.tTy = t'.tTy) (ht : I.eval ρ t = I.eval ρ' t') :
    I.eval ρ (tFuncApp h t) = I.eval ρ' (tFuncApp h' t') := by
  simp only [tFuncApp, eval_tapp, map_cons, map_nil, hty, heval, htty, ht]

theorem eval_tFuncAppL_congr {tl : List Term} : ∀ {h h' : Term}, h.tTy = h'.tTy →
    I.eval ρ h = I.eval ρ h' → I.eval ρ (tFuncAppL h tl) = I.eval ρ (tFuncAppL h' tl) := by
  induction tl with
  | nil => exact fun _ h => h
  | cons t tl ih =>
    intro h h' hty heval
    refine ih ?_ (eval_tFuncApp_congr hty heval rfl rfl)
    simp only [tFuncApp, tTy, hty]

/-- The application to terms, in a valuation where the variables have their values. -/
theorem eval_tFuncAppL_args {tl : List Term} {ρ₁ : I.Env}
    (h : List.Forall₂ (fun (v : VSymbol) (t : Term) =>
      t.tTy = some v.vsTy ∧ ρ₁ v = I.eval ρ t) vl tl) :
    ∀ {f : Term}, f.tTy = some (tyFuncL vl ty) →
      I.eval ρ (tFuncAppL f tl) = I.appVars vl ty (I.eval ρ f) ρ₁ := by
  induction h with
  | nil => exact fun _ => rfl
  | @cons v t vl tl hv _ ih =>
    intro f hf
    have hf' : f.tTy = some (tyFunc v.vsTy (tyFuncL vl ty)) := hf
    have happ : tFuncApp f t = .tapp [] fsFuncApp [f, t] (some (tyFuncL vl ty)) := by
      rw [tFuncApp, hf']
      rfl
    show I.eval ρ (tFuncAppL (tFuncApp f t) tl) = _
    rw [ih (by rw [happ, tTy]), happ, eval_tapp]
    simp only [map_cons, map_nil, hf', hv.1, ← hv.2, appVars]
    rfl

/-- The same value, or mappings with the same results. -/
inductive SameMap (I : Interp sig) : Ty → I.Val → I.Val → Prop
  | refl (ty : Ty) (φ : I.Val) : SameMap I ty φ φ
  | ext {a b : Ty} {φ ψ : I.Val}
      (h : ∀ d, I.mem a d → SameMap I b (I.app a b φ d) (I.app a b ψ d)) :
      SameMap I (tyFunc a b) φ ψ

/-- Mappings with the same results are the same. -/
def Extensional (I : Interp sig) : Prop :=
  ∀ (a b : Ty) (φ ψ : I.Val), I.mem (tyFunc a b) φ → I.mem (tyFunc a b) ψ →
    (∀ d, I.mem a d → I.app a b φ d = I.app a b ψ d) → φ = ψ

theorem SameMap.eq (hext : I.Extensional) {φ ψ : I.Val} (h : I.SameMap ty φ ψ) :
    I.mem ty φ → I.mem ty ψ → φ = ψ := by
  induction h with
  | refl ty φ => exact fun _ _ => rfl
  | @ext a b φ ψ _ ih =>
    exact fun hφ hψ => hext a b φ ψ hφ hψ (fun d hd => ih d hd (app_mem hφ hd) (app_mem hψ hd))

theorem SameMap.eq_of_bool {φ ψ : I.Val} (h : I.SameMap ty φ ψ) (hty : ty = tyBool) : φ = ψ := by
  cases h with
  | refl => rfl
  | ext _ => cases hty

theorem sameMap_of_appVars : vl.Nodup → ∀ {φ ψ : I.Val} {ρ : I.Env},
    I.Typed ρ →
    (∀ ρ', I.Typed ρ' → (∀ v, v ∉ vl → ρ' v = ρ v) → I.appVars vl ty φ ρ' = I.appVars vl ty ψ ρ') →
    I.SameMap (tyFuncL vl ty) φ ψ := by
  induction vl with
  | nil =>
    intro _ φ ψ ρ hρ h
    have : φ = ψ := h ρ hρ (fun _ _ => rfl)
    rw [this]
    exact .refl _ _
  | cons v vl ih =>
    intro hnd φ ψ ρ hρ h
    rw [nodup_cons] at hnd
    refine .ext (fun d hd => ih hnd.2 (typed_update hρ hd) (fun ρ' hρ' hag => ?_))
    have hv : ρ' v = d := by rw [hag v hnd.1, update_self]
    have hext := h ρ' hρ' (fun w hw => by
      rw [mem_cons, not_or] at hw
      rw [hag w hw.2, update_of_ne hw.1])
    simp only [appVars, hv] at hext
    exact hext

theorem Gives.unique (htwo : I.TwoValued) {e : Term} {d d' : I.Val}
    (hd : I.mem (e.tTy.getD tyBool) d) (hd' : I.mem (e.tTy.getD tyBool) d')
    (h : I.Gives e d ρ) (h' : I.Gives e d' ρ) : d = d' := by
  unfold Gives at h h'
  cases hty : e.tTy with
  | some ty =>
    rw [hty] at h h'
    exact h.trans h'.symm
  | none =>
    rw [hty] at h h' hd hd'
    by_cases hf : I.Holds ρ e
    · exact (h.mpr hf).trans (h'.mpr hf).symm
    · rcases htwo d hd with hdt | hdf
      · exact absurd (h.mp hdt) hf
      · rcases htwo d' hd' with hdt' | hdf'
        · exact absurd (h'.mp hdt') hf
        · rw [hdf, hdf']

/-- The arguments run out inside a lambda, and `r` is the lambda of the variables that are
left: in the term itself, or in the body that its first arguments give. -/
inductive RunsOut : Term → List Term → Term → Prop
  | here {lam e tl vl₁ vl₂ trl} : openFor lam tl = (vl₁ ++ vl₂, trl, e) → tl ≠ [] →
      vl₁.length = tl.length → vl₂ ≠ [] →
      RunsOut lam tl (tLambda vl₂ (trl.map (List.map (tSubstUnsafe (vl₁.zip tl).reverse)))
        (tSubstUnsafe (vl₁.zip tl).reverse e))
  | body {lam e r vl trl tl₁ tl₂} : openFor lam (tl₁ ++ tl₂) = (vl, trl, e) → vl ≠ [] →
      vl.length = tl₁.length → RunsOut (tSubstUnsafe (vl.zip tl₁).reverse e) tl₂ r →
      RunsOut lam (tl₁ ++ tl₂) r

/-- The term `r` stands for the application of `lam` to `tl`, of type `ty`. -/
inductive Applies (I : Interp sig) (lam : Term) (tl : List Term) (ty : Ty) (r : Term) : Prop
  | value (hty : r.tTy = some ty) (h : ∀ ρ, I.Typed ρ → I.eval ρ r = I.eval ρ (tFuncAppL lam tl))
  | formula (hty : r.tTy = none) (hbool : ty = tyBool)
      (h : ∀ ρ, I.Typed ρ → (I.Holds ρ r ↔ I.eval ρ (tFuncAppL lam tl) = I.boolTrue))
  | lambda (hty : r.tTy = some ty) (hout : RunsOut lam tl r)
      (h : ∀ ρ, I.Typed ρ → I.SameMap ty (I.eval ρ r) (I.eval ρ (tFuncAppL lam tl)))

variable {lam lam' : Term} {tl tl' : List Term}

theorem Applies.congr (h : I.Applies lam tl ty r) (hout : RunsOut lam tl r → RunsOut lam' tl' r)
    (heq : ∀ ρ, I.Typed ρ → I.eval ρ (tFuncAppL lam tl) = I.eval ρ (tFuncAppL lam' tl')) :
    I.Applies lam' tl' ty r := by
  cases h with
  | value hty h => exact .value hty (fun ρ hρ => (h ρ hρ).trans (heq ρ hρ))
  | formula hty hbool h => exact .formula hty hbool (fun ρ hρ => by rw [h ρ hρ, heq ρ hρ])
  | lambda hty h₁ h => exact .lambda hty (hout h₁) (fun ρ hρ => heq ρ hρ ▸ h ρ hρ)

section Beta

/-- One lambda: the body, with the arguments in it, gives what the application to them
gives, at all values of the variables that are left. -/
theorem gives_beta (hlam : I.LambdaEqs) {k : ℕ} {a : Sattr} {v : VSymbol} {f e : Term}
    {vl₁ vl₂ : List VSymbol} {trl : List (List Term)} {tl₁ : List Term}
    (hwt : (teps a v f).Wt sig) (hk : ∀ w ∈ (teps a v f).freeVars, w.vsName < k)
    (hopen : tOpenLambda k (.teps a v f) = (vl₁ ++ vl₂, trl, e)) (hne : vl₁ ++ vl₂ ≠ [])
    (hargs : List.Forall₂ (fun (v : VSymbol) (t : Term) => t.tTy = some v.vsTy) vl₁ tl₁)
    (hwts : ∀ t ∈ tl₁, t.Wt sig) (hfresh : ∀ t ∈ tl₁, ∀ w ∈ t.freeVars, w.vsName < k)
    {ρ' : I.Env} (hρ : I.Typed ρ) (hρ' : I.Typed ρ') (hag : ∀ w, w ∉ vl₂ → ρ' w = ρ w) :
    I.Gives (tSubstUnsafe ((vl₁.zip tl₁).reverse ++ []) e) (I.appVars vl₂ (e.tTy.getD tyBool)
      (I.eval ρ (tFuncAppL (.teps a v f) tl₁)) ρ') ρ' := by
  have hspec : I.OpenedLambda k v f (vl₁ ++ vl₂) trl e := tOpenLambda_spec hwt hk hopen hne
  obtain ⟨hnd₁, hnd₂, hdisj⟩ := nodup_append'.mp hspec.nodup
  generalize hm : (vl₁.zip tl₁).reverse ++ [] = m
  have htyped : Mvs.Typed sig m := hm ▸ typed_zip hnd₁ hargs hwts
  -- the variables without an argument keep their values
  have hother : ∀ w, w ∉ vl₁ → I.substEnv m ρ' w = ρ' w := by
    intro w hw
    rw [substEnv, ← hm, get_zip_of_not_mem hw]
    rfl
  have hargs' : List.Forall₂ (fun (v : VSymbol) (t : Term) =>
    t.tTy = some v.vsTy ∧ I.substEnv m ρ' v = I.eval ρ t) vl₁ tl₁ := by
    have hget := get_zip hargs hnd₁ (m := [])
    rw [hm] at hget
    rw [forall₂_iff_get] at hargs hget ⊢
    refine ⟨hargs.1, fun i h₁ h₂ => ⟨hargs.2 i h₁ h₂, ?_⟩⟩
    have hmem : tl₁.get ⟨i, h₂⟩ ∈ tl₁ := get_mem _ _
    rw [substEnv, hget.2 i h₁ h₂]
    refine eval_congr (hwts _ hmem) (fun w hw => hag w (fun hw₂ => ?_))
    have h₃ := hspec.fresh w (mem_append_right _ hw₂)
    have h₄ := hfresh _ hmem w hw
    omega
  have heps : (teps a v f).tTy = some (tyFuncL vl₁ (tyFuncL vl₂ (e.tTy.getD tyBool))) := by
    rw [tTy, hspec.type, tyFuncL, tyFuncL, tyFuncL, foldr_append]
  have hmem := eval_mem hwt rfl hρ
  have hcomp := (hspec.hasBody ρ hρ _ hmem).mp
    (hlam k a v f hwt hk (by rw [hopen]; exact hne) ρ hρ)
  rw [HasBody, quant_forall_iff hρ] at hcomp
  have hgives := hcomp (I.substEnv m ρ') (typed_substEnv htyped hρ') (fun w hw => by
    rw [mem_append, not_or] at hw
    rw [hother w hw.1, hag w hw.2])
  rw [gives_tSubstUnsafe htyped hspec.wt, eval_tFuncAppL_args hargs' heps]
  rw [appVars_append] at hgives
  have hkeep : ∀ φ, I.appVars vl₂ (e.tTy.getD tyBool) φ ρ' =
      I.appVars vl₂ (e.tTy.getD tyBool) φ (I.substEnv m ρ') :=
    fun φ => appVars_congr (fun w hw => (hother w (fun hw₁ => hdisj hw₁ hw)).symm)
  rw [hkeep]
  exact hgives

theorem tAppBetaL_applies (hlam : I.LambdaEqs) (htwo : I.TwoValued) : ∀ {n : ℕ}
    {lam : Term} {tl : List Term} {tys : List Ty}, tl.length ≤ n → lam.Wt sig →
      (∀ t ∈ tl, t.Wt sig) → lam.tTy = some (tyFuncs tys ty) → tl.map tTy = tys.map some →
      ∃ r, tAppBetaL lam tl = some r ∧ r.Wt sig ∧ I.Applies lam tl ty r := by
  intro n
  induction n with
  | zero =>
    intro lam tl tys hn hwt _ hty htl
    obtain rfl : tl = [] := length_eq_zero_iff.mp (Nat.le_zero.mp hn)
    rw [map_nil, eq_comm, map_eq_nil_iff] at htl
    subst htl
    exact ⟨lam, tAppBetaL_nil lam, hwt, .value hty (fun _ _ => rfl)⟩
  | succ n ih =>
    intro lam tl tys hn hwt hwts hty htl
    by_cases hnil : tl = []
    · subst hnil
      rw [map_nil, eq_comm, map_eq_nil_iff] at htl
      subst htl
      exact ⟨lam, tAppBetaL_nil lam, hwt, .value hty (fun _ _ => rfl)⟩
    by_cases hopen : (openFor lam tl).1 = []
    · obtain ⟨hinfer, happwt, happty⟩ := wt_tFuncAppL_args hwt hty hwts htl
      exact ⟨_, (tAppBetaL_other hnil hopen).trans hinfer, happwt, .value happty (fun _ _ => rfl)⟩
    -- the term is a lambda
    obtain ⟨a, v, f, -, vl, trl, -, -, e, rfl, -, -, -, heq⟩ := tOpenLambda_cases hopen
    have hk : ∀ w ∈ (teps a v f).freeVars,
        w.vsName < freshTag ((teps a v f).freeVars ++ tl.flatMap freeVars) :=
      fun w hw => lt_freshTag (mem_append_left _ hw)
    have hfresh : ∀ t ∈ tl, ∀ w ∈ t.freeVars,
        w.vsName < freshTag ((teps a v f).freeVars ++ tl.flatMap freeVars) :=
      fun t ht w hw => lt_freshTag (mem_append_right _ (mem_flatMap.mpr ⟨t, ht, hw⟩))
    have hne : vl ≠ [] := by
      rw [openFor, heq] at hopen
      exact hopen
    have hspec : I.OpenedLambda _ v f vl trl e := tOpenLambda_spec hwt hk heq hne
    obtain ⟨vl₁, vl₂, tl₁, tl₂, tys₁, tys₂, rfl, rfl, hargs, h₁, h₂, h₃, h₄, hor, hadd⟩ :=
      @betaArgs_split vl (e.tTy.getD tyBool) ty tl tys []
        (hspec.type.symm.trans (Option.some.inj hty)) htl
    rw [forall_mem_append] at hwts
    rw [h₃] at hty
    obtain ⟨-, happwt, happty⟩ := wt_tFuncAppL_args hwt hty hwts.1 h₁
    have happ : tFuncAppL (.teps a v f) (tl₁ ++ tl₂) =
        tFuncAppL (tFuncAppL (.teps a v f) tl₁) tl₂ := foldl_append
    have hlen := length_betaArgs_lt hadd hne hnil
    have hgives := fun {ρ ρ' : I.Env} => @gives_beta sig I ρ hlam _ a v f e vl₁ vl₂ trl tl₁ hwt hk
      heq hne hargs hwts.1 (fun t ht => hfresh t (mem_append_left _ ht)) ρ'
    have htyped : Mvs.Typed sig ((vl₁.zip tl₁).reverse ++ []) :=
      typed_zip (nodup_append'.mp hspec.nodup).1 hargs hwts.1
    rw [append_nil] at hadd hgives htyped
    generalize hm : (vl₁.zip tl₁).reverse = m at hadd hgives htyped
    obtain ⟨hwtb, htyb⟩ := wt_tSubstUnsafe htyped hspec.wt
    have hadd' : betaArgs [] (openFor (.teps a v f) (tl₁ ++ tl₂)).1 (tl₁ ++ tl₂) =
        some (m, vl₂, tl₂) := by
      rw [openFor, heq]
      exact hadd
    have hbody : (openFor (.teps a v f) (tl₁ ++ tl₂)).2 = (trl, e) := by rw [openFor, heq]
    by_cases hvl₂ : vl₂ = []
    · subst hvl₂
      rw [append_nil] at heq
      rw [tAppBetaL_full hnil hopen hadd', hbody]
      cases hte : e.tTy with
      | some ety =>
        -- the terms that are left are applied to the body
        rw [hte] at h₄
        have hety : ety = tyFuncs tys₂ ty := h₄
        obtain ⟨r, hr, hwtr, hden⟩ := @ih _ _ tys₂ (Nat.le_of_lt_succ (hlen.trans_le hn))
          hwtb hwts.2 (by rw [htyb, hte, hety]) h₂
        refine ⟨r, hr, hwtr, hden.congr (fun hout => ?_) (fun ρ hρ => ?_)⟩
        · subst hm
          exact .body heq (by simpa using hne) hargs.length_eq hout
        rw [happ]
        refine eval_tFuncAppL_congr ?_ ?_
        · rw [htyb, hte, happty, hety]
        · have hg := hgives hρ hρ (fun _ _ => rfl)
          rw [Gives, htyb, hte] at hg
          exact hg.symm
      | none =>
        -- a formula is a value of type `bool`, and takes no arguments
        rw [hte] at h₄
        have hety : tyBool = tyFuncs tys₂ ty := h₄
        cases tys₂ with
        | cons b tys₂ => cases hety
        | nil =>
          rw [map_nil, map_eq_nil_iff] at h₂
          subst h₂
          refine ⟨_, tAppBetaL_nil _, hwtb, .formula (htyb.trans hte) hety.symm ?_⟩
          intro ρ hρ
          rw [happ]
          have hg := hgives hρ hρ (fun _ _ => rfl)
          rw [Gives, htyb, hte] at hg
          exact hg.symm
    · -- the variables that are left make a lambda
      obtain rfl := hor.resolve_left hvl₂
      rw [map_nil, eq_comm, map_eq_nil_iff] at h₂
      subst h₂
      have htrl : ∀ tr ∈ trl.map (fun tr => tr.map (tSubstUnsafe m)), ∀ t ∈ tr, t.Wt sig := by
        intro tr' htr' t' ht'
        obtain ⟨tr, htr, rfl⟩ := mem_map.mp htr'
        obtain ⟨t, ht, rfl⟩ := mem_map.mp ht'
        exact (wt_tSubstUnsafe htyped (hspec.wt_triggers tr htr t ht)).1
      obtain ⟨hwtr, htyr⟩ := wt_tLambda hvl₂ htrl hwtb
      have hnd₂ := (nodup_append'.mp hspec.nodup).2.1
      rw [htyb] at htyr
      have hout : RunsOut (teps a v f) (tl₁ ++ []) (tLambda vl₂
          (trl.map fun tr => tr.map (tSubstUnsafe m)) (tSubstUnsafe m e)) := by
        have hopened : openFor (.teps a v f) (tl₁ ++ []) = (vl₁ ++ vl₂, trl, e) := heq
        rw [append_nil] at hopened hnil ⊢
        subst hm
        exact .here hopened hnil hargs.length_eq hvl₂
      refine ⟨_, (tAppBetaL_fewer hnil hopen hvl₂ hadd').trans (by rw [hbody]), hwtr,
        .lambda (htyr.trans (congrArg some h₄)) hout (fun ρ hρ => ?_)⟩
      rw [happ]
      have happ := eval_mem happwt happty hρ
      have hr := eval_mem hwtr htyr hρ
      rw [← h₄] at happ
      show I.SameMap (tyFuncs [] ty) _ _
      rw [← h₄]
      refine sameMap_of_appVars hnd₂ hρ (fun ρ' hρ' hag => ?_)
      have hcomp := hasBody_tLambda hlam hvl₂ hnd₂ htrl hwtb hρ
      rw [HasBody, quant_forall_iff hρ, htyb] at hcomp
      refine Gives.unique htwo ?_ ?_ (hcomp ρ' hρ' hag) (hgives hρ hρ' hag)
      · rw [htyb]
        exact appVars_mem hρ' hr
      · rw [htyb]
        exact appVars_mem hρ' happ

end Beta

theorem Applies.eval_eq (hext : I.Extensional) (h : I.Applies lam tl ty r) (hwt : r.Wt sig)
    (hty : r.tTy = some ty) (happwt : (tFuncAppL lam tl).Wt sig)
    (happty : (tFuncAppL lam tl).tTy = some ty) (hρ : I.Typed ρ) :
    I.eval ρ r = I.eval ρ (tFuncAppL lam tl) := by
  cases h with
  | value _ h => exact h ρ hρ
  | formula hnone _ _ => cases hnone.symm.trans hty
  | lambda _ _ h =>
    exact (h ρ hρ).eq hext (eval_mem hwt hty hρ) (eval_mem happwt happty hρ)

theorem Applies.ofFormula (htwo : I.TwoValued) (h : I.Applies lam tl ty r) (hnone : r.tTy = none)
    (happwt : (tFuncAppL lam tl).Wt sig) (happty : (tFuncAppL lam tl).tTy = some ty) :
    I.Applies lam tl ty (.tif [] r tBoolTrue tBoolFalse) := by
  cases h with
  | value hty _ | lambda hty _ _ => cases hnone.symm.trans hty
  | formula _ hbool h =>
    subst hbool
    refine .value rfl (fun ρ hρ => ?_)
    rw [eval, sem_tif]
    by_cases hf : I.Holds ρ r
    · rw [if_pos hf]
      exact ((h ρ hρ).mp hf).symm
    · rw [if_neg hf]
      have hfalse := (htwo _ (eval_mem happwt happty hρ)).resolve_left
        (fun heq => hf ((h ρ hρ).mpr heq))
      exact hfalse.symm

/-- `r = True`, for a term `r` of type `bool`. -/
theorem Applies.toFormula (h : I.Applies lam tl tyBool r) (hty : r.tTy = some tyBool) :
    I.Applies lam tl tyBool (tEqu r tBoolTrue) := by
  refine .formula rfl rfl (fun ρ hρ => ?_)
  rw [holds_tEqu, eval_tBoolTrue]
  cases h with
  | value _ h => rw [h ρ hρ]
  | formula hnone _ _ => cases hnone.symm.trans hty
  | lambda _ _ h =>
    rw [(h ρ hρ).eq_of_bool rfl]

theorem wt_tBoolTrue : tBoolTrue.Wt sig := by
  simp only [tBoolTrue, Wt, wtList_iff]
  exact ⟨⟨[], rfl, rfl⟩, fun _ h => absurd h not_mem_nil⟩

theorem wt_tBoolFalse : tBoolFalse.Wt sig := by
  simp only [tBoolFalse, Wt, wtList_iff]
  exact ⟨⟨[], rfl, rfl⟩, fun _ h => absurd h not_mem_nil⟩

theorem psApp_tEqu {t1 t2 : Term} (h1 : t1.tTy = some ty) (h2 : t2.tTy = some ty) :
    psApp psEqu [t1, t2] = some (tEqu t1 t2) := by
  have hinst : lsArgInst psEqu [t1, t2] = some [(⟨7⟩, ty)] := by
    simp [lsArgInst, h1, h2, psEqu, tyMatchList, tyMatch, List.lookup]
  rw [psApp, hinst]
  rfl

end Interp

/-! ## The encoding of lambdas -/

section Encoding

variable {sig : TySymbol → List LSymbol}

/-- Opening a lambda gives back what was closed, up to a topmost `= True`; and the three
applications return terms that stand for the application of the mapping. -/
theorem lambda_encoding :
    (∀ (k : ℕ) (vl : List VSymbol) (trl : List (List Term)) (e : Term), vl ≠ [] → vl.Nodup →
      (∀ tr ∈ trl, ∀ t ∈ tr, t.Wt sig) → e.Wt sig →
      (∀ w ∈ (tLambda vl trl e).freeVars, w.vsName < k) →
      alphaEqLambda (tOpenLambda k (tLambda vl trl e)) (vl, trl, lambdaBody e) = true ∧
        (tOpenLambda k (tLambda vl trl e)).1.map VSymbol.vsTy = vl.map VSymbol.vsTy) ∧
    ∀ I : Interp sig, I.LambdaEqs → I.TwoValued →
      ∀ (lam : Term) (tl : List Term) (tys : List Ty) (ty : Ty), lam.Wt sig →
      (∀ t ∈ tl, t.Wt sig) → lam.tTy = some (tyFuncs tys ty) → tl.map tTy = tys.map some →
      (∃ r, tAppBetaL lam tl = some r ∧ r.Wt sig ∧ I.Applies lam tl ty r) ∧
      (∃ r, tFuncAppBetaL lam tl = some r ∧ r.Wt sig ∧ r.tTy = some ty ∧ I.Applies lam tl ty r ∧
        (I.Extensional → ∀ ρ, I.Typed ρ → I.eval ρ r = I.eval ρ (tFuncAppL lam tl))) ∧
      (ty = tyBool → ∃ r, tPredAppBetaL lam tl = some r ∧ r.Wt sig ∧ r.tTy = none ∧
        I.Applies lam tl ty r) := by
  constructor
  · intro k vl trl e hne hnd htrl he hk
    rw [tLambda_eq hne] at hk ⊢
    refine ⟨alphaEqLambda_tOpenLambda hne hnd htrl (wt_lambdaBody he).1 hk, ?_⟩
    rw [tOpenLambda_lambda hne hnd hk, map_vsTy_freshen]
  · intro I hlam htwo lam tl tys ty hwt hwts hty htl
    obtain ⟨r, hr, hwtr, hden⟩ := tAppBetaL_applies hlam htwo le_rfl hwt hwts hty htl
    obtain ⟨-, happwt, happty⟩ := wt_tFuncAppL_args hwt hty hwts htl
    refine ⟨⟨r, hr, hwtr, hden⟩, ?_, ?_⟩
    · rw [tFuncAppBetaL, hr]
      by_cases hnone : r.tTy = none
      · have hden' := hden.ofFormula htwo hnone happwt happty
        have hwt' : (tif [] r tBoolTrue tBoolFalse).Wt sig :=
          ⟨hnone, rfl, hwtr, wt_tBoolTrue, wt_tBoolFalse⟩
        have hty' : (tif [] r tBoolTrue tBoolFalse).tTy = some ty := by
          cases hden with
          | value hty _ | lambda hty _ _ => cases hnone.symm.trans hty
          | formula _ hbool _ => rw [hbool]; rfl
        exact ⟨_, if_pos hnone, hwt', hty', hden',
          fun hext ρ hρ => hden'.eval_eq hext hwt' hty' happwt happty hρ⟩
      · have hty' : r.tTy = some ty := by
          cases hden with
          | value hty _ => exact hty
          | lambda hty _ _ => exact hty
          | formula hty _ _ => exact absurd hty hnone
        exact ⟨_, if_neg hnone, hwtr, hty', hden,
          fun hext ρ hρ => hden.eval_eq hext hwtr hty' happwt happty hρ⟩
    · rintro rfl
      rw [tPredAppBetaL, hr]
      by_cases hnone : r.tTy = none
      · exact ⟨_, if_pos hnone, hwtr, hnone, hden⟩
      · have hty' : r.tTy = some tyBool := by
          cases hden with
          | value hty _ => exact hty
          | lambda hty _ _ => exact hty
          | formula hty _ _ => exact absurd hty hnone
        exact ⟨_, (if_neg hnone).trans (psApp_tEqu hty' rfl),
          wt_tEqu hty' rfl hwtr wt_tBoolTrue, rfl, hden.toFormula hty'⟩

end Encoding

/-- The function of two integers whose value is the second one. -/
def secondOfTwo : Term := tLambda [⟨0, tyInt⟩, ⟨1, tyInt⟩] [] (.tvar [] ⟨1, tyInt⟩)

theorem secondOfTwo_eq : secondOfTwo = lambda [⟨0, tyInt⟩, ⟨1, tyInt⟩] [] (.tvar [] ⟨1, tyInt⟩) := rfl

theorem wt_secondOfTwo : secondOfTwo.Wt (fun _ => []) ∧
    secondOfTwo.tTy = some (tyFuncs [tyInt] (tyFunc tyInt tyInt)) :=
  @Interp.wt_tLambda (fun _ => []) [⟨0, tyInt⟩, ⟨1, tyInt⟩] [] (.tvar [] ⟨1, tyInt⟩) (by simp)
    (by simp) trivial

/-- The function is opened again, and applied to one integer. -/
theorem lambda_encoding_secondOfTwo : alphaEqLambda (tOpenLambda 3 secondOfTwo)
      ([⟨0, tyInt⟩, ⟨1, tyInt⟩], [], .tvar [] ⟨1, tyInt⟩) = true ∧
    ∃ r, tAppBetaL secondOfTwo [.tvar [] ⟨2, tyInt⟩] = some r ∧ r.Wt (fun _ => []) ∧
      FunSpace.Coded.interp.Applies secondOfTwo [.tvar [] ⟨2, tyInt⟩] (tyFunc tyInt tyInt) r := by
  obtain ⟨hopen, happ⟩ := @lambda_encoding fun _ => []
  replace happ := happ FunSpace.Coded.interp FunSpace.Coded.fullFunctions.lambdaEqs
    FunSpace.Coded.twoValued_interp
  constructor
  · have hk : ∀ w ∈ secondOfTwo.freeVars, w.vsName < 3 := by
      have hnil : secondOfTwo.freeVars = [] := rfl
      rw [hnil]
      exact fun w hw => by cases hw
    exact (hopen 3 [⟨0, tyInt⟩, ⟨1, tyInt⟩] [] (.tvar [] ⟨1, tyInt⟩) (by simp) (by decide) (by simp)
      trivial hk).1
  · exact (happ secondOfTwo [.tvar [] ⟨2, tyInt⟩] [tyInt] (tyFunc tyInt tyInt) wt_secondOfTwo.1
      (fun t ht => by obtain rfl := mem_singleton.mp ht; trivial) wt_secondOfTwo.2 rfl).1

theorem tAppBetaL_secondOfTwo : tAppBetaL secondOfTwo [.tvar [] ⟨2, tyInt⟩] =
    some (lambda [⟨5, tyInt⟩] [] (.tvar [] ⟨5, tyInt⟩)) := by
  have hopen : (openFor secondOfTwo [.tvar [] ⟨2, tyInt⟩]).1 ≠ [] := by
    intro h
    cases h
  have hadd : betaArgs [] (openFor secondOfTwo [.tvar [] ⟨2, tyInt⟩]).1 [.tvar [] ⟨2, tyInt⟩] =
      some ([(⟨4, tyInt⟩, .tvar [] ⟨2, tyInt⟩)], [⟨5, tyInt⟩], []) := rfl
  exact (tAppBetaL_fewer (by simp) hopen (by simp) hadd).trans rfl

/-- The function applied to one integer is the identity with another code than the one that
is chosen for the lambda of the variable that is left. -/
theorem not_lambda_encoding : ¬ ∀ I : Interp (fun _ => []), I.LambdaEqs → I.TwoValued →
    ∀ (lam : Term) (tl : List Term) (tys : List Ty) (ty : Ty), lam.Wt (fun _ => []) →
      (∀ t ∈ tl, t.Wt (fun _ => [])) → lam.tTy = some (tyFuncs tys ty) →
      tl.map tTy = tys.map some →
      ∃ r, tAppBetaL lam tl = some r ∧ (r.tTy = some ty →
        ∀ ρ, I.Typed ρ → I.eval ρ r = I.eval ρ (tFuncAppL lam tl)) := by
  intro h
  obtain ⟨r, hr, heval⟩ := h FunSpace.Coded.interp FunSpace.Coded.fullFunctions.lambdaEqs
    FunSpace.Coded.twoValued_interp secondOfTwo [.tvar [] ⟨2, tyInt⟩] [tyInt] (tyFunc tyInt tyInt)
    wt_secondOfTwo.1 (fun t ht => by obtain rfl := mem_singleton.mp ht; trivial) wt_secondOfTwo.2 rfl
  rw [tAppBetaL_secondOfTwo] at hr
  obtain rfl := Option.some.inj hr
  -- a valuation in which the argument is 0
  have hρ₀ : FunSpace.Coded.interp.Typed (fun v => FunSpace.Coded.interp.dflt v.vsTy) :=
    fun v => dflt_mem v.vsTy
  have hρ := Interp.typed_update hρ₀ (v := ⟨2, tyInt⟩) (FunSpace.Coded.member_int 0)
  have heq := heval rfl _ hρ
  have happ : FunSpace.Coded.interp.eval (update
        (fun v : VSymbol => FunSpace.Coded.interp.dflt v.vsTy) ⟨2, tyInt⟩ (FunSpace.ofInt tyInt 0))
        (tFuncAppL secondOfTwo [.tvar [] ⟨2, tyInt⟩]) =
      FunSpace.Coded.interp.app tyInt (tyFunc tyInt tyInt)
        (FunSpace.Coded.interp.eval (update
          (fun v : VSymbol => FunSpace.Coded.interp.dflt v.vsTy) ⟨2, tyInt⟩
          (FunSpace.ofInt tyInt 0)) secondOfTwo) (FunSpace.ofInt tyInt 0) := by
    show FunSpace.Coded.interp.eval _ (.tapp [] fsFuncApp [secondOfTwo, .tvar [] ⟨2, tyInt⟩]
      (some (tyFunc tyInt tyInt))) = _
    rw [eval_tapp]
    simp only [map_cons, map_nil, eval_tvar]
    rfl
  rw [happ, secondOfTwo_eq] at heq
  have hone := FunSpace.Coded.identity_at_one (y := ⟨5, tyInt⟩) rfl hρ
  have hzero := FunSpace.Coded.second_at_zero (x := ⟨0, tyInt⟩) (y := ⟨1, tyInt⟩) rfl rfl
    (by decide) hρ
  rw [heq] at hone
  have := congrArg FunSpace.toInt (hone.symm.trans hzero)
  rw [FunSpace.toInt_ofInt FunSpace.dom_int, FunSpace.toInt_ofInt FunSpace.dom_int] at this
  cases this

end Why3
