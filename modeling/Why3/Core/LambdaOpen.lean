import Why3.Core.Lambda
import Why3.Core.AlphaSubst

/-!
# Opening lambdas

A lambda is the choice of a mapping with the right values (`t_lambda`), and nothing else
tells it from other choices: `t_open_lambda` of `core/term.ml` opens the choice and the
quantifier in it, and reads the equation back.
-/

namespace Why3

open List Function Term

variable {e : Term} {a : Sattr} {ty : Ty}

/-! ## Opening a lambda -/

/-- The two sides of the equation of a lambda; `t` stands for both when there is none. -/
def lambdaEquation (t : Term) : Term → Term × Term
  | .tapp _ ps [h, e] _ => if ps = psEqu then (h, e) else (t, t)
  | .tbinop _ .tiff (.tapp _ ps [h, .tapp _ fs [] _] _) e =>
    if ps = psEqu ∧ fs = fsBoolTrue then (h, e) else (t, t)
  | _ => (t, t)

/-- `check`: `h` is the mapping `fc` at the variables, of which the last one comes first. -/
def checkLambda (fc : VSymbol) (e : Term) : Term → List VSymbol → Bool
  | .tapp _ fs [h, .tvar _ u] _, x :: xl =>
    if fs = fsFuncApp ∧ u = x then checkLambda fc e h xl else false
  | .tvar _ u, [] => u = fc ∧ fc ∉ e.freeVars
  | _, _ => false

/-- `t_open_lambda`, with names from `k` on for what it opens. -/
def tOpenLambda (k : ℕ) (t : Term) : List VSymbol × List (List Term) × Term :=
  match t with
  | .teps _ v f =>
    match v.vsTy with
    | .tyapp ts _ =>
      if ts = tsFunc then
        let fc : VSymbol := ⟨k, v.vsTy⟩
        let (vl, trl, f) :=
          match f.subst (k + 1) (Mvs.bind k [] [v]) with
          | .tquant _ .tforall vl trl f => (vl, trl, f)
          | _ => ([], [], t)
        let (h, e) := lambdaEquation t f
        if checkLambda fc e h vl.reverse then (vl, trl, e) else ([], [], t)
      else ([], [], t)
    | .tyvar _ => ([], [], t)
  | t => ([], [], t)

theorem tOpenLambda_cases {k : ℕ} {t : Term} (hne : (tOpenLambda k t).1 ≠ []) :
    ∃ a v f a' vl trl body h e, t = .teps a v f ∧
      f.subst (k + 1) (Mvs.bind k [] [v]) = .tquant a' .tforall vl trl body ∧
      lambdaEquation t body = (h, e) ∧ checkLambda ⟨k, v.vsTy⟩ e h vl.reverse = true ∧
      tOpenLambda k t = (vl, trl, e) := by
  cases t with
  | teps a v f =>
    cases hty : v.vsTy with
    | tyvar n => simp [tOpenLambda, hty] at hne
    | tyapp ts l =>
      by_cases hts : ts = tsFunc
      · cases hf : f.subst (k + 1) (Mvs.bind k [] [v]) with
        | tquant a' q vl trl body =>
          cases q with
          | tforall =>
            have hopen : tOpenLambda k (.teps a v f) =
                if checkLambda ⟨k, v.vsTy⟩ (lambdaEquation (.teps a v f) body).2
                  (lambdaEquation (.teps a v f) body).1 vl.reverse
                then (vl, trl, (lambdaEquation (.teps a v f) body).2)
                else ([], [], .teps a v f) := by
              simp [tOpenLambda, hty, hts, hf]
            split_ifs at hopen with hcheck
            · exact ⟨a, v, f, a', vl, trl, body, _, _, rfl, hf, rfl, hcheck, hopen⟩
            · rw [hopen] at hne
              exact absurd rfl hne
          | texists => simp [tOpenLambda, hty, hts, hf, lambdaEquation, checkLambda] at hne
        | _ => simp [tOpenLambda, hty, hts, hf, lambdaEquation, checkLambda] at hne
      · simp [tOpenLambda, hty, hts] at hne
  | _ => simp [tOpenLambda] at hne

/-! ## A lambda that was closed -/

section Closed

variable {m : Mvs} {vl : List VSymbol}

theorem freshen_eq_map (hnd : vl.Nodup) : ∀ {k : ℕ} {m : Mvs},
    freshen k vl = vl.map (m.bind k vl).var := by
  induction vl with
  | nil => exact fun {_ _} => rfl
  | cons v vl ih =>
    intro k m
    rw [nodup_cons] at hnd
    have hvar : (m.bind k (v :: vl)).var v = ⟨k, v.vsTy⟩ := by
      have hget : (m.bind k (v :: vl)).get v = .tvar [] ⟨k, v.vsTy⟩ := by
        rw [Mvs.bind, Mvs.get_bind_of_not_mem hnd.1, Mvs.get_cons_self]
      have := (Mvs.get_bind (mem_cons_self : v ∈ v :: vl)).1.symm.trans hget
      exact (Term.tvar.inj this).2
    rw [freshen, map_cons, hvar]
    exact congrArg _ (ih hnd.2)

theorem lt_of_mem_freshen {k : ℕ} {w : VSymbol} (h : w ∈ freshen k vl) : k ≤ w.vsName := by
  induction vl generalizing k with
  | nil => cases h
  | cons v vl ih =>
    rcases mem_cons.mp h with rfl | h
    · exact le_rfl
    · exact le_of_lt (ih h)

theorem nodup_freshen (k : ℕ) (vl : List VSymbol) : (freshen k vl).Nodup := by
  induction vl generalizing k with
  | nil => exact nodup_nil
  | cons v vl ih =>
    rw [freshen, nodup_cons]
    exact ⟨fun h => absurd (lt_of_mem_freshen h) (Nat.not_succ_le_self k), ih (k + 1)⟩

/-- The left side of the equation passes the check after its variables were renamed. -/
theorem checkLambda_subst {K : ℕ} {fc fc' : VSymbol} {e : Term}
    (hfc : m.get fc = .tvar [] fc') (hfe : fc' ∉ e.freeVars)
    (hvl : ∀ v ∈ vl, m.get v = .tvar [] (m.var v)) :
    checkLambda fc' e ((tFuncAppL (.tvar [] fc) (vl.map (.tvar []))).subst K m)
      (vl.map m.var).reverse = true := by
  have hvar : ∀ {v w}, m.get v = .tvar [] w → ∃ a, Term.subst K m (.tvar [] v) = .tvar a w := by
    intro v w h
    obtain ⟨a, ha⟩ := subst_tvar K m [] v
    rw [h] at ha
    exact ⟨a, ha⟩
  induction vl using reverseRecOn with
  | nil =>
    obtain ⟨a, ha⟩ := hvar hfc
    show checkLambda fc' e (Term.subst K m (.tvar [] fc)) [] = true
    rw [ha, checkLambda]
    simpa using hfe
  | append_singleton vl v ih =>
    obtain ⟨a, ha⟩ := hvar (hvl v (mem_append_right _ (mem_singleton_self v)))
    rw [map_append, map_singleton, map_append, map_singleton,
      reverse_append, tFuncAppL, foldl_append]
    show checkLambda fc' e (Term.subst K m
      (tFuncApp (tFuncAppL (.tvar [] fc) (vl.map (.tvar []))) (.tvar [] v)))
      (m.var v :: (vl.map m.var).reverse) = true
    rw [tFuncApp, Term.subst, Term.substList_eq, map_cons, map_singleton, ha, checkLambda,
      if_pos ⟨rfl, rfl⟩]
    exact ih (fun w hw => hvl w (mem_append_left _ hw))

end Closed

section Closed

variable {vl : List VSymbol} {trl : List (List Term)} {t : Term} {k : ℕ}

/-- The renaming that opens the lambda whose mapping is `fc`. -/
def openMvs (k : ℕ) (fc : VSymbol) (vl : List VSymbol) : Mvs :=
  Mvs.bind (k + 1) (Mvs.bind k [] [fc]) vl

/-- The mapping that `t_lambda` chooses. -/
def lambdaVar (vl : List VSymbol) (trl : List (List Term)) (t : Term) : VSymbol :=
  ⟨freshTag (vl ++ freeVarsTriggers trl ++ t.freeVars), tyFuncL vl (t.tTy.getD tyBool)⟩

theorem lambdaVar_fresh : lambdaVar vl trl t ∉ vl ∧
    lambdaVar vl trl t ∉ freeVarsTriggers trl ∧ lambdaVar vl trl t ∉ t.freeVars := by
  have h : lambdaVar vl trl t ∉ vl ++ freeVarsTriggers trl ++ t.freeVars :=
    freshTag_notMem _ _
  simpa only [mem_append, not_or, and_assoc] using h

/-- The equation of a lambda. -/
def lambdaFormula (vl : List VSymbol) (trl : List (List Term)) (t : Term) : Term :=
  let h := tFuncAppL (.tvar [] (lambdaVar vl trl t)) (vl.map (.tvar []))
  match t.tTy with
  | some _ => tEqu h t
  | none => .tbinop [] .tiff (tEqu h tBoolTrue) t

theorem lambda_eq (hne : vl ≠ []) : lambda vl trl t =
    .teps [] (lambdaVar vl trl t) (.tquant [] .tforall vl trl (lambdaFormula vl trl t)) := by
  show teps [] (lambdaVar vl trl t) (tQuant .tforall vl trl (lambdaFormula vl trl t)) = _
  rw [tQuant, if_neg hne]

theorem tLambda_eq (hne : vl ≠ []) : tLambda vl trl t = lambda vl trl (lambdaBody t) := by
  rw [tLambda, if_pos hne]

theorem mem_freeVars_lambda {v : VSymbol} (hne : vl ≠ [])
    (hv : v ∈ freeVarsTriggers trl ++ t.freeVars) (hvl : v ∉ vl) :
    v ∈ (lambda vl trl t).freeVars := by
  obtain ⟨-, htrl, ht⟩ := @lambdaVar_fresh vl trl t
  rw [lambda_eq hne, freeVars, mem_filter, decide_eq_true_eq, freeVars,
    mem_filter, decide_eq_true_eq]
  refine ⟨⟨?_, hvl⟩, ?_⟩
  · rcases mem_append.mp hv with hv | hv
    · exact mem_append_left _ hv
    · refine mem_append_right _ ?_
      cases hty : t.tTy with
      | some ty => simp [lambdaFormula, hty, tEqu, freeVars, hv]
      | none => simp [lambdaFormula, hty, freeVars, hv]
  · rintro rfl
    exact (mem_append.mp hv).elim htrl ht

/-- Under the renaming the variables of the body stay different from the mapping. -/
theorem numbered_open (hne : vl ≠ []) (hk : ∀ w ∈ (lambda vl trl t).freeVars, w.vsName < k) :
    (Mvs.bind k [] [lambdaVar vl trl t]).Numbered (k + 1) [] []
      ((freeVarsTriggers trl ++ t.freeVars).filter (· ∉ vl)) := by
  intro v hv
  rw [mem_filter, decide_eq_true_eq] at hv
  have hlt := hk v (mem_freeVars_lambda hne hv.1 hv.2)
  have hfc : v ≠ lambdaVar vl trl t := by
    rintro rfl
    exact (mem_append.mp hv.1).elim lambdaVar_fresh.2.1 lambdaVar_fresh.2.2
  refine ⟨v, ?_, rfl, by omega, .inr ⟨rfl, rfl, rfl⟩⟩
  rw [Mvs.bind, Mvs.bind, Mvs.get_cons_of_ne hfc]
  rfl

theorem tOpenLambda_lambda (hne : vl ≠ []) (hnd : vl.Nodup)
    (hk : ∀ w ∈ (lambda vl trl t).freeVars, w.vsName < k) :
    tOpenLambda k (lambda vl trl t) = (freshen (k + 1) vl,
      trl.map (fun tr =>
        tr.map (Term.subst (k + 1 + vl.length) (openMvs k (lambdaVar vl trl t) vl))),
      t.subst (k + 1 + vl.length) (openMvs k (lambdaVar vl trl t) vl)) := by
  generalize hfc : lambdaVar vl trl t = fc
  generalize hm : openMvs k fc vl = m
  have hfresh := @lambdaVar_fresh vl trl t
  rw [hfc] at hfresh
  -- the mapping gets the name `k`, and the others do not
  have hget : m.get fc = .tvar [] ⟨k, fc.vsTy⟩ := by
    rw [← hm, openMvs, Mvs.get_bind_of_not_mem hfresh.1, Mvs.bind, Mvs.bind, Mvs.get_cons_self]
  have hfe : (⟨k, fc.vsTy⟩ : VSymbol) ∉ (t.subst (k + 1 + vl.length) m).freeVars := by
    intro hmem
    obtain ⟨v, hv, hw⟩ := mem_freeVars_subst hmem
    by_cases hvl : v ∈ vl
    · have hb := @Mvs.get_bind (Mvs.bind k [] [fc]) vl v hvl (k + 1)
      rw [← hm, openMvs, hb.1, freeVars, mem_singleton] at hw
      have := hb.2.1
      rw [← hw] at this
      exact absurd this (by simp)
    · have hvfc : v ≠ fc := fun h => hfresh.2.2 (h ▸ hv)
      rw [← hm, openMvs, Mvs.get_bind_of_not_mem hvl, Mvs.bind, Mvs.bind,
        Mvs.get_cons_of_ne hvfc] at hw
      obtain rfl := mem_singleton.mp hw
      exact absurd (hk _ (mem_freeVars_lambda hne (mem_append_right _ hv) hvl)) (lt_irrefl k)
  have hcheck := @checkLambda_subst m vl (k + 1 + vl.length) fc ⟨k, fc.vsTy⟩ _ hget hfe
    (fun v hv => by rw [← hm]; exact (Mvs.get_bind hv).1)
  rw [← hm, openMvs, ← freshen_eq_map hnd, ← openMvs, hm] at hcheck
  -- the equation is found again
  have hequation : ∀ t', lambdaEquation t' ((lambdaFormula vl trl t).subst (k + 1 + vl.length) m) =
      ((tFuncAppL (.tvar [] fc) (vl.map (.tvar []))).subst (k + 1 + vl.length) m,
        t.subst (k + 1 + vl.length) m) := by
    intro t'
    cases hty : t.tTy with
    | some ty => simp [lambdaFormula, hty, hfc, tEqu, Term.subst, lambdaEquation]
    | none => simp [lambdaFormula, hty, hfc, tEqu, tBoolTrue, Term.subst, lambdaEquation]
  have hfcty : ∃ l, fc.vsTy = .tyapp tsFunc l := by
    cases vl with
    | nil => exact absurd rfl hne
    | cons v vl =>
      rw [← hfc]
      exact ⟨_, rfl⟩
  obtain ⟨l, hl⟩ := hfcty
  rw [lambda_eq hne, hfc]
  have hsubst : Term.subst (k + 1) (Mvs.bind k [] [fc])
      (.tquant [] .tforall vl trl (lambdaFormula vl trl t)) =
      .tquant [] .tforall (freshen (k + 1) vl)
        (trl.map (fun tr => tr.map (Term.subst (k + 1 + vl.length) m)))
        ((lambdaFormula vl trl t).subst (k + 1 + vl.length) m) := by
    rw [Term.subst, substTriggers_eq, ← hm, openMvs]
  rw [hl] at hcheck
  simp only [tOpenLambda, hl, if_true, hsubst, hequation, hcheck]

end Closed

/-- The same variables, triggers and body up to the names of the variables. -/
def alphaEqLambda (p q : List VSymbol × List (List Term) × Term) : Bool :=
  match addQuant 0 [] [] p.1 q.1 with
  | some (n, vm1, vm2) =>
    alphaEqStrictTriggers n vm1 vm2 p.2.1 q.2.1 &&
      alphaEqStrict n vm1 vm2 p.2.2 q.2.2
  | none => false

section Closed

variable {sig : TySymbol → List LSymbol} {vl : List VSymbol} {trl : List (List Term)} {t : Term}
  {k : ℕ}

theorem alphaEqLambda_tOpenLambda (hne : vl ≠ []) (hnd : vl.Nodup)
    (htrl : ∀ tr ∈ trl, ∀ t ∈ tr, t.Wt sig) (ht : t.Wt sig)
    (hk : ∀ w ∈ (lambda vl trl t).freeVars, w.vsName < k) :
    alphaEqLambda (tOpenLambda k (lambda vl trl t)) (vl, trl, t) = true := by
  obtain ⟨n, vm1, vm2, hadd, hnum⟩ := @Mvs.Numbered.addQuant
    (freeVarsTriggers trl ++ t.freeVars) vl (k + 1) _ [] [] _ (numbered_open hne hk)
    (fun v hv hvl => mem_filter.mpr ⟨hv, decide_eq_true hvl⟩) 0
  rw [tOpenLambda_lambda hne hnd hk, alphaEqLambda]
  simp only [hadd, Bool.and_eq_true]
  constructor
  · refine alphaEqStrictTriggers_map (fun tr htr t ht => alphaEqStrict_subst
      (htrl tr htr t ht) (hnum.mono (fun v hv => mem_append_left _ ?_)))
    rw [freeVarsTriggers_eq, mem_flatMap]
    exact ⟨tr, htr, mem_flatMap.mpr ⟨t, ht, hv⟩⟩
  · exact alphaEqStrict_subst ht (hnum.mono (fun v hv => mem_append_right _ hv))

end Closed

/-! ## The meaning of a lambda -/

namespace Interp

variable {sig : TySymbol → List LSymbol} {I : Interp sig}

/-- The value `d` is that of the body `e`; a formula is a value of type `bool`. -/
def Gives (I : Interp sig) (e : Term) (d : I.Val) (ρ : I.Env) : Prop :=
  match e.tTy with
  | some _ => d = I.eval ρ e
  | none => d = I.boolTrue ↔ I.Holds ρ e

/-- The values of the mapping `φ` are those of the body. -/
def HasBody (I : Interp sig) (vl : List VSymbol) (e : Term) (φ : I.Val) (ρ : I.Env) : Prop :=
  I.quant .tforall vl (fun ρ' => I.Gives e (I.appVars vl (e.tTy.getD tyBool) φ ρ') ρ') ρ

/-- A choice that is a lambda is a mapping that satisfies its equation. -/
def LambdaEqs (I : Interp sig) : Prop :=
  ∀ (k : ℕ) (a : Sattr) (v : VSymbol) (f : Term), (teps a v f).Wt sig →
    (∀ w ∈ (teps a v f).freeVars, w.vsName < k) → (tOpenLambda k (.teps a v f)).1 ≠ [] →
    ∀ ρ, I.Typed ρ → I.Holds (update ρ v (I.eval ρ (.teps a v f))) f

/-- The truth values are `True` and `False`. -/
def TwoValued (I : Interp sig) : Prop :=
  ∀ d, I.mem tyBool d → d = I.boolTrue ∨ d = I.fn fsBoolFalse [] (some tyBool) []

variable {ρ : I.Env}

theorem Gives.congr (he : e.Wt sig) {ρ' : I.Env} (h : ∀ v ∈ e.freeVars, ρ v = ρ' v) (d : I.Val) :
    I.Gives e d ρ ↔ I.Gives e d ρ' := by
  unfold Gives
  cases e.tTy with
  | some ty => simp only [eval_congr he h]
  | none => simp only [holds_congr he h]

theorem gives_setAttrs {d : I.Val} : I.Gives (e.setAttrs a) d ρ ↔ I.Gives e d ρ := by
  unfold Gives
  rw [tTy_setAttrs]
  cases e.tTy with
  | some ty => simp only [eval_setAttrs]
  | none => simp only [holds_setAttrs]

theorem appVars_append {vl₁ vl₂ : List VSymbol} : ∀ {φ : I.Val} {ρ : I.Env},
    I.appVars (vl₁ ++ vl₂) ty φ ρ = I.appVars vl₂ ty (I.appVars vl₁ (tyFuncL vl₂ ty) φ ρ) ρ := by
  induction vl₁ with
  | nil => exact fun {_ _} => rfl
  | cons v vl₁ ih =>
    intro φ ρ
    rw [cons_append, appVars, appVars, ih, tyFuncL, tyFuncL, tyFuncL, foldr_append]

theorem appVars_mem {vl : List VSymbol} (hρ : I.Typed ρ) :
    ∀ {φ : I.Val}, I.mem (tyFuncL vl ty) φ → I.mem ty (I.appVars vl ty φ ρ) := by
  induction vl with
  | nil => exact fun h => h
  | cons v vl ih => exact fun h => ih (app_mem h (hρ v))

/-- A quantified equation, for a mapping in the place of the variable `fc`. -/
theorem holds_equation {fc : VSymbol} {vl : List VSymbol} {trl : List (List Term)} {body : Term}
    (hfc : fc ∉ vl) (he : e.Wt sig) (hfe : fc ∉ e.freeVars)
    (hbody : ∀ ρ : I.Env, I.Holds ρ body ↔ I.Gives e (I.appVars vl ty (ρ fc) ρ) ρ)
    (hρ : I.Typed ρ) {d : I.Val} (hd : I.mem fc.vsTy d) :
    I.Holds (update ρ fc d) (.tquant a .tforall vl trl body) ↔
      I.quant .tforall vl (fun ρ' => I.Gives e (I.appVars vl ty d ρ') ρ') ρ := by
  have hupd : ∀ (ρ' : I.Env) (x : I.Val), I.Gives e (I.appVars vl ty d (update ρ' fc x))
      (update ρ' fc x) ↔ I.Gives e (I.appVars vl ty d ρ') ρ' := by
    intro ρ' x
    rw [appVars_congr (fun v hv => update_of_ne (fun h : v = fc => hfc (h ▸ hv)) _ _)]
    exact Gives.congr he
      (fun v hv => update_of_ne (fun h : v = fc => hfe (h ▸ hv)) _ _) _
  rw [holds_tquant, quant_forall_iff (typed_update hρ hd), quant_forall_iff hρ]
  constructor
  · intro h ρ' hρ' hag
    have h' := h (update ρ' fc d) (typed_update hρ' hd) (fun v hv => by
      by_cases hvf : v = fc
      · rw [hvf, update_self, update_self]
      · rw [update_of_ne hvf, update_of_ne hvf, hag v hv])
    rwa [hbody, update_self, hupd] at h'
  · intro h ρ' hρ' hag
    have hd' : ρ' fc = d := by rw [hag fc hfc, update_self]
    have h' := h (update ρ' fc (ρ fc)) (typed_update hρ' (hρ fc)) (fun v hv => by
      by_cases hvf : v = fc
      · rw [hvf, update_self]
      · rw [update_of_ne hvf, hag v hv, update_of_ne hvf])
    rwa [hupd, ← hd', ← hbody] at h'

/-- What the check says: `h` is the mapping `fc` at the variables. -/
theorem checkLambda_spec {fc : VSymbol} {e : Term} {xl : List VSymbol} : ∀ {h : Term} {ty : Ty},
    checkLambda fc e h xl = true → h.Wt sig → h.tTy = some ty →
      fc.vsTy = tyFuncL xl.reverse ty ∧ fc ∉ e.freeVars ∧
        ∀ ρ : I.Env, I.eval ρ h = I.appVars xl.reverse ty (ρ fc) ρ := by
  induction xl with
  | nil =>
    intro h ty hcheck _ hty
    cases h with
    | tvar a u =>
      rw [checkLambda, decide_eq_true_eq] at hcheck
      obtain ⟨rfl, hfe⟩ := hcheck
      cases hty
      exact ⟨rfl, hfe, fun _ => rfl⟩
    | _ => simp [checkLambda] at hcheck
  | cons x xl ih =>
    intro h ty hcheck hwt hty
    unfold checkLambda at hcheck
    split at hcheck
    · next a fs h a' u ty' x' xl' heq =>
        cases heq
        split_ifs at hcheck with hfs
        obtain ⟨rfl, rfl⟩ := hfs
        simp only [Wt, wtList_iff, map_cons, map_nil, tTy] at hwt
        obtain ⟨⟨m, htys, hval⟩, hwts⟩ := hwt
        simp only [fsFuncApp, map_cons, map_nil, List.cons.injEq, Option.some.injEq,
          and_true, Option.map_some] at htys hval
        obtain rfl : ty' = some ty := hty
        rw [Option.some.injEq] at hval
        have hh : h.tTy = some (tyFunc u.vsTy ty) := by
          rw [htys.1, htys.2, hval]
          rfl
        obtain ⟨hfc, hfe, heval⟩ := ih hcheck (hwts h mem_cons_self) hh
        refine ⟨?_, hfe, fun ρ => ?_⟩
        · rw [hfc, reverse_cons, tyFuncL, tyFuncL, foldr_append]
          rfl
        · rw [reverse_cons, appVars_append, eval_tapp]
          simp only [map_cons, map_nil, hh, tTy, heval, eval_tvar]
          rfl
    · next heq => cases heq
    · cases hcheck

theorem lambdaEquation_spec {fc v : VSymbol} {a : Sattr} {f body h e : Term} {xl : List VSymbol}
    (heq : lambdaEquation (.teps a v f) body = (h, e)) (hcheck : checkLambda fc e h xl = true)
    (hwt : body.Wt sig) :
    h.Wt sig ∧ e.Wt sig ∧ h.tTy = some (e.tTy.getD tyBool) ∧
      ∀ ρ : I.Env, I.Holds ρ body ↔ I.Gives e (I.eval ρ h) ρ := by
  have hnone : ¬ ((.teps a v f, .teps a v f) : Term × Term) = (h, e) := by
    intro heq
    rw [Prod.mk.injEq] at heq
    rw [← heq.1] at hcheck
    simp [checkLambda] at hcheck
  unfold lambdaEquation at heq
  split at heq
  · next a' ps h' e' ty =>
      split_ifs at heq with hps
      · rw [Prod.mk.injEq] at heq
        obtain ⟨rfl, rfl⟩ := heq
        subst hps
        simp only [Wt, wtList_iff, map_cons, map_nil] at hwt
        obtain ⟨⟨m, htys, -⟩, hwts⟩ := hwt
        simp only [psEqu, map_cons, map_nil, List.cons.injEq, and_true] at htys
        refine ⟨hwts h' mem_cons_self, hwts e' (mem_cons_of_mem _ mem_cons_self),
          ?_, fun ρ => ?_⟩
        · rw [htys.1, htys.2, Option.getD_some]
        · rw [holds_equ, Gives, htys.2]
      · exact absurd heq hnone
  · next a' a'' ps h' a₃ fs ty ty' e' =>
      split_ifs at heq with hps
      · rw [Prod.mk.injEq] at heq
        obtain ⟨rfl, rfl⟩ := heq
        obtain ⟨rfl, rfl⟩ := hps
        obtain ⟨-, hnone', hequ, hwte⟩ := hwt
        simp only [Wt, wtList_iff, map_cons, map_nil, tTy] at hequ
        obtain ⟨⟨m, htys, -⟩, hwts⟩ := hequ
        simp only [psEqu, map_cons, map_nil, List.cons.injEq, and_true] at htys
        have htrue := hwts _ (mem_cons_of_mem _ mem_cons_self)
        simp only [Wt, wtList_iff, map_nil] at htrue
        obtain ⟨⟨m', -, hty⟩, -⟩ := htrue
        obtain rfl : ty = some tyBool := hty
        refine ⟨hwts h' mem_cons_self, hwte, ?_, fun ρ => ?_⟩
        · rw [htys.1, ← htys.2, hnone', Option.getD_none]
        · rw [holds_tbinop, Binop.tr, holds_equ, Gives, hnone']
          rfl
      · exact absurd heq hnone
  · exact absurd heq hnone

/-- What `t_open_lambda` finds in a choice, and what the chosen mapping satisfies. -/
structure OpenedLambda (I : Interp sig) (k : ℕ) (v : VSymbol) (f : Term) (vl : List VSymbol)
    (trl : List (List Term)) (e : Term) : Prop where
  nodup : vl.Nodup
  fresh : ∀ w ∈ vl, k < w.vsName
  type : v.vsTy = tyFuncL vl (e.tTy.getD tyBool)
  wt : e.Wt sig
  wt_triggers : ∀ tr ∈ trl, ∀ t ∈ tr, t.Wt sig
  hasBody : ∀ ρ, I.Typed ρ → ∀ φ, I.mem v.vsTy φ →
    (I.Holds (update ρ v φ) f ↔ I.HasBody vl e φ ρ)

theorem tOpenLambda_spec {k : ℕ} {v : VSymbol} {f : Term} {vl : List VSymbol}
    {trl : List (List Term)} (hwt : (teps a v f).Wt sig)
    (hk : ∀ w ∈ (teps a v f).freeVars, w.vsName < k)
    (h : tOpenLambda k (.teps a v f) = (vl, trl, e)) (hne : vl ≠ []) :
    I.OpenedLambda k v f vl trl e := by
  obtain ⟨a₁, v₁, f₁, a', vl₁, trl₁, body, lhs, e₁, heps, hf, hequation, hcheck, hopen⟩ :=
    tOpenLambda_cases (t := .teps a v f) (k := k) (by rw [h]; exact hne)
  rw [h] at hopen
  cases heps
  cases hopen
  obtain ⟨hnone, hwtf⟩ := hwt
  -- the variable is renamed to one that is not free
  have hok : Mvs.Ok sig k [] (f.freeVars.filter (· ≠ v)) := by
    intro w hw
    refine ⟨trivial, rfl, fun u hu => ?_⟩
    obtain rfl := mem_singleton.mp hu
    exact hk u hw
  have hF : ∀ w ∈ f.freeVars, w ∉ [v] → w ∈ f.freeVars.filter (· ≠ v) := by
    intro w hw hne
    exact mem_filter.mpr ⟨hw, by simpa using hne⟩
  have hok' : (Mvs.bind k [] [v]).Ok sig (k + 1) f.freeVars := hok.bind hF
  have hwt' := wt_subst hok' hwtf
  rw [hf] at hwt'
  simp only [Wt, wtTriggers_iff] at hwt'
  obtain ⟨hwth, hwte, hty, hgives⟩ := @lambdaEquation_spec _ I _ _ _ _ _ _ _ _ hequation hcheck
    hwt'.2.2
  obtain ⟨hfc, hfe, heval⟩ := @checkLambda_spec _ I _ _ _ _ _ hcheck hwth hty
  rw [reverse_reverse] at hfc heval
  obtain ⟨vl₀, rfl⟩ : ∃ vl₀, vl = freshen (k + 1) vl₀ := by
    cases f with
    | tquant a₀ q vl₀ trl₀ f₀ =>
      rw [Term.subst] at hf
      cases hf
      exact ⟨vl₀, rfl⟩
    | tvar a₀ u => cases hnone
    | _ => simp [Term.subst] at hf
  refine ⟨nodup_freshen _ _, fun w hw => lt_of_mem_freshen hw, hfc, hwte, hwt'.2.1, ?_⟩
  intro ρ hρ φ hφ
  have hag : Agree [] (f.freeVars.filter (· ≠ v)) ρ ρ := fun _ _ => rfl
  have hsame := (I.sem_subst hwtf hok' (hag.bind_one hok hF φ)).2 hnone
  rw [hf] at hsame
  rw [Holds, ← hsame]
  refine holds_equation ?_ hwte hfe (fun ρ' => ?_) hρ hφ
  · exact fun hmem => absurd (lt_of_mem_freshen hmem) (Nat.not_succ_le_self k)
  · rw [hgives, heval]

theorem holds_lambdaFormula {vl : List VSymbol} {trl : List (List Term)} {t : Term} (ρ : I.Env) :
    I.Holds ρ (lambdaFormula vl trl t) ↔
      I.Gives t (I.appVars vl (t.tTy.getD tyBool) (ρ (lambdaVar vl trl t)) ρ) ρ := by
  have hty : (tvar [] (lambdaVar vl trl t)).tTy = some (tyFuncL vl (t.tTy.getD tyBool)) := rfl
  unfold lambdaFormula Gives
  cases ht : t.tTy with
  | some ty =>
    rw [ht] at hty
    simp only [holds_tEqu, eval_tFuncAppL hty, eval_tvar]
  | none =>
    rw [ht] at hty
    simp only [holds_tbinop, Binop.tr, holds_tEqu, eval_tFuncAppL hty, eval_tvar,
      eval_tBoolTrue, Option.getD_none]

section TLambda

variable {vl : List VSymbol} {trl : List (List Term)} {t : Term}

theorem wt_lambda_of_ne (hne : vl ≠ []) (htrl : ∀ tr ∈ trl, ∀ t ∈ tr, t.Wt sig) (ht : t.Wt sig) :
    (lambda vl trl t).Wt sig ∧
      (lambda vl trl t).tTy = some (tyFuncL vl (t.tTy.getD tyBool)) := by
  have hwtfc : (tvar [] (lambdaVar vl trl t)).Wt sig := trivial
  obtain ⟨h₁, h₂⟩ := @wt_tFuncAppL sig (t.tTy.getD tyBool) vl _ hwtfc rfl
  have htrue : tBoolTrue.Wt sig := by
    simp only [tBoolTrue, Wt, wtList_iff]
    exact ⟨⟨[], rfl, rfl⟩, fun _ h => absurd h not_mem_nil⟩
  have hbody : (lambdaFormula vl trl t).Wt sig ∧ (lambdaFormula vl trl t).tTy = none := by
    unfold lambdaFormula
    cases hty : t.tTy with
    | some ty =>
      rw [hty] at h₂
      exact ⟨wt_tEqu h₂ hty h₁ ht, rfl⟩
    | none =>
      rw [hty] at h₂
      exact ⟨⟨rfl, hty, wt_tEqu h₂ rfl h₁ htrue, ht⟩, rfl⟩
  rw [lambda_eq hne]
  simp only [Wt, wtTriggers_iff]
  exact ⟨⟨rfl, hbody.2, htrl, hbody.1⟩, rfl⟩

/-- The property of the choice: the mapping has the values of the body. -/
theorem holds_lambda_iff (ht : t.Wt sig) (hρ : I.Typed ρ) {d : I.Val}
    (hd : I.mem (tyFuncL vl (t.tTy.getD tyBool)) d) :
    I.Holds (update ρ (lambdaVar vl trl t) d)
      (.tquant [] .tforall vl trl (lambdaFormula vl trl t)) ↔ I.HasBody vl t d ρ := by
  obtain ⟨h₁, -, h₂⟩ := @lambdaVar_fresh vl trl t
  exact holds_equation h₁ ht h₂ holds_lambdaFormula hρ hd

theorem hasBody_lambda (hlam : I.LambdaEqs) (hne : vl ≠ []) (hnd : vl.Nodup)
    (htrl : ∀ tr ∈ trl, ∀ t ∈ tr, t.Wt sig) (ht : t.Wt sig) (hρ : I.Typed ρ) :
    I.HasBody vl t (I.eval ρ (lambda vl trl t)) ρ := by
  obtain ⟨hwt, hty⟩ := wt_lambda_of_ne hne htrl ht
  have hmem := eval_mem hwt hty hρ
  have hk : ∀ w ∈ (lambda vl trl t).freeVars, w.vsName < freshTag (lambda vl trl t).freeVars :=
    fun w hw => lt_freshTag hw
  have hnonempty : (tOpenLambda (freshTag (lambda vl trl t).freeVars) (lambda vl trl t)).1 ≠ [] := by
    rw [tOpenLambda_lambda hne hnd hk, ← length_pos_iff_ne_nil, length_freshen]
    exact length_pos_iff_ne_nil.mpr hne
  rw [lambda_eq hne] at hwt hk hnonempty hmem ⊢
  have hholds := hlam _ _ _ _ hwt hk hnonempty ρ hρ
  exact (holds_lambda_iff ht hρ hmem).mp hholds

/-- The formula `l = True` stands for `l`, and nothing else is stripped. -/
theorem lambdaBody_cases (ht : t.Wt sig) : lambdaBody t = t ∨ ∃ a l a',
    t = .tapp a psEqu [l, .tapp a' fsBoolTrue [] (some tyBool)] none ∧ l.Wt sig ∧
      l.tTy = some tyBool ∧ lambdaBody t = tAttrCopy t l := by
  unfold lambdaBody
  split
  · next a ps tl ty =>
      split
      · next l a' fs ty' =>
          split_ifs with hps
          · obtain ⟨rfl, rfl⟩ := hps
            simp only [Wt, wtList_iff, map_cons, map_nil, tTy] at ht
            obtain ⟨⟨m, htys, hval⟩, hwts⟩ := ht
            obtain rfl : ty = none := hval
            simp only [psEqu, map_cons, map_nil, List.cons.injEq, and_true] at htys
            have htrue := hwts _ (mem_cons_of_mem _ mem_cons_self)
            simp only [Wt, wtList_iff, map_nil] at htrue
            obtain ⟨⟨m', -, hty⟩, -⟩ := htrue
            obtain rfl : ty' = some tyBool := hty
            exact .inr ⟨a, l, a', rfl, hwts l mem_cons_self, by rw [htys.1, ← htys.2], rfl⟩
          · exact .inl rfl
      · exact .inl rfl
  · exact .inl rfl

theorem wt_lambdaBody (ht : t.Wt sig) : (lambdaBody t).Wt sig ∧
    (lambdaBody t).tTy.getD tyBool = t.tTy.getD tyBool := by
  rcases lambdaBody_cases ht with h | ⟨a, l, a', rfl, hl, hty, h⟩
  · rw [h]
    exact ⟨ht, rfl⟩
  · rw [h, tTy_tAttrCopy, hty]
    exact ⟨(wt_setAttrs _ _).mpr hl, rfl⟩

theorem Gives.of_lambdaBody (ht : t.Wt sig) {d : I.Val}
    (h : I.Gives (lambdaBody t) d ρ) : I.Gives t d ρ := by
  rcases lambdaBody_cases ht with heq | ⟨a, l, a', rfl, -, hty, heq⟩
  · rwa [heq] at h
  · rw [heq, tAttrCopy, gives_setAttrs, Gives, hty] at h
    show d = I.boolTrue ↔ I.Holds ρ (.tapp a psEqu [l, .tapp a' fsBoolTrue [] _] none)
    rw [holds_equ, h]
    rfl

theorem wt_tLambda (hne : vl ≠ []) (htrl : ∀ tr ∈ trl, ∀ t ∈ tr, t.Wt sig) (ht : t.Wt sig) :
    (tLambda vl trl t).Wt sig ∧
      (tLambda vl trl t).tTy = some (tyFuncL vl (t.tTy.getD tyBool)) := by
  obtain ⟨hwt, hty⟩ := wt_lambdaBody ht
  rw [tLambda_eq hne, ← hty]
  exact wt_lambda_of_ne hne htrl hwt

theorem hasBody_tLambda (hlam : I.LambdaEqs) (hne : vl ≠ []) (hnd : vl.Nodup)
    (htrl : ∀ tr ∈ trl, ∀ t ∈ tr, t.Wt sig) (ht : t.Wt sig) (hρ : I.Typed ρ) :
    I.HasBody vl t (I.eval ρ (tLambda vl trl t)) ρ := by
  obtain ⟨hwt, hty⟩ := wt_lambdaBody ht
  have h := hasBody_lambda hlam hne hnd htrl hwt hρ
  rw [tLambda_eq hne]
  rw [HasBody, quant_forall_iff hρ] at h ⊢
  rw [hty] at h
  exact fun ρ' hρ' hag => Gives.of_lambdaBody ht (h ρ' hρ' hag)

end TLambda

/-- In an interpretation with a mapping for every function, the lambdas satisfy their
equations. -/
theorem FullFunctions.lambdaEqs (hfull : I.FullFunctions) : I.LambdaEqs := by
  intro k a v f hwt hk hne ρ hρ
  obtain ⟨⟨vl, trl, e⟩, hopen⟩ : ∃ p, tOpenLambda k (.teps a v f) = p := ⟨_, rfl⟩
  rw [hopen] at hne
  have hspec : I.OpenedLambda k v f vl trl e := tOpenLambda_spec hwt hk hopen hne
  obtain ⟨no, hno, hnot⟩ := hfull.two_values
  -- the values of the body
  obtain ⟨g, hg, hgives⟩ : ∃ g : I.Env → I.Val,
      (∀ ρ, I.Typed ρ → I.mem (e.tTy.getD tyBool) (g ρ)) ∧ ∀ ρ, I.Gives e (g ρ) ρ := by
    classical
    cases hty : e.tTy with
    | some ty =>
      refine ⟨fun ρ => I.eval ρ e, fun ρ hρ => eval_mem hspec.wt hty hρ, fun ρ => ?_⟩
      rw [Gives, hty]
    | none =>
      refine ⟨fun ρ => if I.Holds ρ e then I.boolTrue else no, fun ρ _ => ?_, fun ρ => ?_⟩
      · dsimp only
        split_ifs
        · exact boolTrue_mem
        · exact hno
      · rw [Gives, hty]
        dsimp only
        split_ifs with hf
        · simp [hf]
        · simp [hf, hnot]
  obtain ⟨φ, hφ, hq⟩ := exists_mapping hfull _ hg hspec.nodup hρ
  rw [← hspec.type] at hφ
  refine I.eps_spec (P := fun d => I.Holds (update ρ v d) f) ⟨φ, hφ, ?_⟩
  rw [hspec.hasBody ρ hρ φ hφ, HasBody, quant_forall_iff hρ]
  rw [quant_forall_iff hρ] at hq
  intro ρ' hρ' hag
  rw [hq ρ' hρ' hag]
  exact hgives ρ'

end Interp

end Why3
