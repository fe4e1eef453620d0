import Why3.Core.TermSimp
import Why3.Lib.OptionLoops

/-!
# Applications and mappings

The checks of `t_app` (`ls_app_inst`), and the mappings that a formula or a term
with variables stands for: `t_lambda` chooses a mapping with the right values,
and `t_closure` does so for a symbol.
-/

namespace Why3

open List Function Term Ty

variable {m m' : Mtv} {ty : Ty} {tl : List Term} {t : Term} {vl : List VSymbol}

/-! ## Instances of symbols -/

/-- The bindings of `m` are bindings of `m'`. -/
def Mtv.Sub (m m' : Mtv) : Prop := ∀ n ty, m.lookup n = some ty → m'.lookup n = some ty

theorem Mtv.Sub.trans {m'' : Mtv} (h : m.Sub m') (h' : m'.Sub m'') : m.Sub m'' :=
  fun n ty hn => h' n ty (h n ty hn)

theorem tyMatchList_sub {l1 : List Ty}
    (h : ∀ t ∈ l1, ∀ {m m' : Mtv} {t2 : Ty}, tyMatch m t t2 = some m' →
      m.Sub m' ∧ ∀ m'', m'.Sub m'' → t.inst m'' = t2) :
    ∀ {m m' : Mtv} {l2 : List Ty}, tyMatchList m l1 l2 = some m' →
      m.Sub m' ∧ ∀ m'', m'.Sub m'' → l1.map (inst m'') = l2 := by
  induction l1 with
  | nil =>
    intro m m' l2 hm
    cases l2 with
    | nil =>
      simp only [tyMatchList, Option.some.injEq] at hm
      subst hm
      exact ⟨fun _ _ h => h, fun _ _ => rfl⟩
    | cons t2 l2 => simp [tyMatchList] at hm
  | cons t l1 ih =>
    intro m m' l2 hm
    cases l2 with
    | nil => simp [tyMatchList] at hm
    | cons t2 l2 =>
      simp only [tyMatchList] at hm
      cases ht : tyMatch m t t2 with
      | none => simp [ht] at hm
      | some m₁ =>
        simp only [ht] at hm
        obtain ⟨hsub, hinst⟩ := h t mem_cons_self ht
        obtain ⟨hsub', hinst'⟩ := ih (fun u hu => h u (mem_cons_of_mem _ hu)) hm
        refine ⟨hsub.trans hsub', fun m'' hm'' => ?_⟩
        rw [map_cons, hinst m'' (hsub'.trans hm''), hinst' m'' hm'']

/-- A match makes its left side the right one. -/
theorem tyMatch_sub {t1 : Ty} : ∀ {m m' : Mtv} {t2 : Ty}, tyMatch m t1 t2 = some m' →
    m.Sub m' ∧ ∀ m'', m'.Sub m'' → t1.inst m'' = t2 := by
  induction t1 with
  | tyvar n =>
    intro m m' t2 h
    simp only [tyMatch] at h
    cases hn : m.lookup n with
    | none =>
      simp only [hn, Option.some.injEq] at h
      subst h
      constructor
      · intro k ty hk
        have hkn : (k == n) = false := by
          refine beq_false_of_ne ?_
          rintro rfl
          simp [hn] at hk
        simp only [List.lookup, hkn, hk]
      · intro m'' hm''
        simp only [inst, hm'' n t2 (by simp [List.lookup]), Option.getD_some]
    | some ty1 =>
      simp only [hn] at h
      split_ifs at h with heq
      obtain rfl := Option.some.inj h
      refine ⟨fun _ _ h => h, fun m'' hm'' => ?_⟩
      simp only [inst, hm'' n ty1 hn, Option.getD_some, heq]
  | tyapp s l ih =>
    intro m m' t2 h
    cases t2 with
    | tyvar v => simp [tyMatch] at h
    | tyapp s' l' =>
      simp only [tyMatch] at h
      split_ifs at h with hs
      obtain ⟨hsub, hinst⟩ := tyMatchList_sub ih h
      refine ⟨hsub, fun m'' hm'' => ?_⟩
      rw [inst, instList_eq, hinst m'' hm'', hs]

/-- `ls_arg_inst`: the instance at which the symbol takes these arguments. -/
def lsArgInst (ls : LSymbol) (tl : List Term) : Option Mtv := do
  let tys ← tl.mapM tTy
  tyMatchList [] ls.lsArgs tys

/-- `ps_app`; `none` is the exception of a wrong application. -/
def psApp (ps : LSymbol) (tl : List Term) : Option Term := do
  let _ ← lsArgInst ps tl
  if ps.lsValue = none then some (.tapp [] ps tl none) else none

/-- `fs_app`. -/
def fsApp (fs : LSymbol) (tl : List Term) (ty : Ty) : Option Term := do
  let m ← lsArgInst fs tl
  let vty ← fs.lsValue
  let _ ← tyMatch m vty ty
  some (.tapp [] fs tl (some ty))

/-- `t_app_infer`. -/
def tAppInfer (ls : LSymbol) (tl : List Term) : Option Term := do
  let m ← lsArgInst ls tl
  some (.tapp [] ls tl (ls.lsValue.map (inst m)))

theorem lsArgInst_spec {ls : LSymbol} (h : lsArgInst ls tl = some m) :
    ∀ m', m.Sub m' → tl.map tTy = ls.lsArgs.map (fun a => some (a.inst m')) := by
  simp only [lsArgInst, Option.bind_eq_bind, Option.bind_eq_some_iff] at h
  obtain ⟨tys, htys, hm⟩ := h
  intro m' hsub
  have hinst := (tyMatchList_sub (fun t _ => tyMatch_sub) hm).2 m' hsub
  rw [OptionLoops.map_of_mapM htys, ← hinst, map_map]
  rfl

theorem psApp_eq_some {ps : LSymbol} {f : Term} (h : psApp ps tl = some f) :
    f = .tapp [] ps tl none ∧ ps.Takes (tl.map tTy) none := by
  simp only [psApp, Option.bind_eq_bind, Option.bind_eq_some_iff] at h
  obtain ⟨m, hm, h⟩ := h
  split_ifs at h with hv
  refine ⟨(Option.some.inj h).symm, m, lsArgInst_spec hm m (fun _ _ h => h), ?_⟩
  rw [hv, Option.map_none]

theorem fsApp_eq_some {fs : LSymbol} (h : fsApp fs tl ty = some t) :
    t = .tapp [] fs tl (some ty) ∧ fs.Takes (tl.map tTy) (some ty) := by
  simp only [fsApp, Option.bind_eq_bind, Option.bind_eq_some_iff, Option.some.injEq] at h
  obtain ⟨m, hm, vty, hv, m', hm', rfl⟩ := h
  obtain ⟨hsub, hinst⟩ := tyMatch_sub hm'
  refine ⟨rfl, m', lsArgInst_spec hm m' hsub, ?_⟩
  rw [hv, Option.map_some, hinst m' (fun _ _ h => h)]

theorem wt_psApp {sig : TySymbol → List LSymbol} {ps : LSymbol} {f : Term}
    (h : psApp ps tl = some f) (htl : ∀ t ∈ tl, t.Wt sig) : f.Wt sig ∧ f.tTy = none := by
  obtain ⟨rfl, htakes⟩ := psApp_eq_some h
  exact ⟨by simpa [Wt] using ⟨htakes, htl⟩, rfl⟩

theorem wt_fsApp {sig : TySymbol → List LSymbol} {fs : LSymbol} (h : fsApp fs tl ty = some t)
    (htl : ∀ t ∈ tl, t.Wt sig) : t.Wt sig ∧ t.tTy = some ty := by
  obtain ⟨rfl, htakes⟩ := fsApp_eq_some h
  exact ⟨by simpa [Wt] using ⟨htakes, htl⟩, rfl⟩

/-! ## Mappings -/

/-- The type of the mappings from values of the variables to the type. -/
def tyFuncL (vl : List VSymbol) (ty : Ty) : Ty := vl.foldr (fun v ty => tyFunc v.vsTy ty) ty

/-- The first `t_lambda` of `core/term.ml`. -/
def lambda (vl : List VSymbol) (trl : List (List Term)) (t : Term) : Term :=
  let fc : VSymbol := ⟨freshTag (vl ++ freeVarsTriggers trl ++ t.freeVars),
    tyFuncL vl (t.tTy.getD tyBool)⟩
  let h := tFuncAppL (.tvar [] fc) (vl.map (.tvar []))
  let f := match t.tTy with
    | some _ => tEqu h t
    | none => .tbinop [] .tiff (tEqu h tBoolTrue) t
  .teps [] fc (tQuant .tforall vl trl f)

/-- The formula for which the term `l = True` stands. -/
def lambdaBody : Term → Term
  | .tapp a ps tl ty =>
    match tl with
    | [l, .tapp _ fs [] _] =>
      if ps = psEqu ∧ fs = fsBoolTrue then tAttrCopy (.tapp a ps tl ty) l else .tapp a ps tl ty
    | tl => .tapp a ps tl ty
  | t => t

/-- `t_lambda`. -/
def tLambda (vl : List VSymbol) (trl : List (List Term)) (t : Term) : Term :=
  let t := lambdaBody t
  if vl ≠ [] then lambda vl trl t
  else if t.tTy ≠ none then t
  else .tif [] t tBoolTrue tBoolFalse

/-- `t_closure`, for a predicate symbol. -/
def tClosure (ls : LSymbol) (tyl : List Ty) : Option Term := do
  let vl := tyl.mapIdx VSymbol.mk
  let t ← psApp ls (vl.map (.tvar []))
  some (tLambda vl [] t)

/-! ## Their meaning -/

section Meaning

variable {sig : TySymbol → List LSymbol}

namespace Interp

theorem quant_forall_iff {I : Interp sig} {P : I.Env → Prop} :
    ∀ {ρ : I.Env}, I.Typed ρ → (I.quant .tforall vl P ρ ↔
      ∀ ρ', I.Typed ρ' → (∀ v, v ∉ vl → ρ' v = ρ v) → P ρ') := by
  induction vl with
  | nil =>
    intro ρ hρ
    constructor
    · intro h ρ' _ hag
      obtain rfl : ρ' = ρ := funext fun v => hag v not_mem_nil
      exact h
    · exact fun h => h ρ hρ (fun _ _ => rfl)
  | cons v vl ih =>
    intro ρ hρ
    constructor
    · intro h ρ' hρ' hag
      refine (ih (typed_update hρ (hρ' v))).mp (h (ρ' v) (hρ' v)) ρ' hρ' (fun w hw => ?_)
      by_cases hwv : w = v
      · rw [hwv, update_self]
      · rw [update_of_ne hwv]
        exact hag w (by simp [hwv, hw])
    · intro h d hd
      refine (ih (typed_update hρ hd)).mpr (fun ρ' hρ' hag => h ρ' hρ' (fun w hw => ?_))
      rw [mem_cons, not_or] at hw
      rw [hag w hw.2, update_of_ne hw.1]

variable (I : Interp sig)

/-- A mapping applied to a value. -/
def app (a b : Ty) (φ d : I.Val) : I.Val := I.fn fsFuncApp [some (tyFunc a b), some a] (some b) [φ, d]

def boolTrue : I.Val := I.fn fsBoolTrue [] (some tyBool) []

/-- Every function is the one of a mapping, and there are two truth values. -/
structure FullFunctions : Prop where
  comprehension : ∀ (a b : Ty) (g : I.Val → I.Val), (∀ d, I.mem a d → I.mem b (g d)) →
    ∃ φ, I.mem (tyFunc a b) φ ∧ ∀ d, I.mem a d → I.app a b φ d = g d
  two_values : ∃ d, I.mem tyBool d ∧ d ≠ I.boolTrue

/-- A mapping applied to the values of the variables. -/
def appVars : List VSymbol → Ty → I.Val → I.Env → I.Val
  | [], _, φ, _ => φ
  | v :: vl, ty, φ, ρ => appVars vl ty (I.app v.vsTy (tyFuncL vl ty) φ (ρ v)) ρ

variable {I}

theorem takes_fsFuncApp (a b : Ty) : fsFuncApp.Takes [some (tyFunc a b), some a] (some b) :=
  ⟨[(⟨13⟩, a), (⟨14⟩, b)], rfl, rfl⟩

theorem app_mem {a b : Ty} {φ d : I.Val} (hφ : I.mem (tyFunc a b) φ) (hd : I.mem a d) :
    I.mem b (I.app a b φ d) :=
  @fn_mem sig I fsFuncApp [tyFunc a b, a] b [φ, d] (takes_fsFuncApp a b) (.cons hφ (.cons hd .nil))

theorem boolTrue_mem : I.mem tyBool I.boolTrue :=
  @fn_mem sig I fsBoolTrue [] tyBool [] ⟨[], rfl, rfl⟩ .nil

@[simp] theorem eval_tBoolTrue (ρ : I.Env) : I.eval ρ tBoolTrue = I.boolTrue := rfl

theorem tFuncApp_var {h : Term} {v : VSymbol} (hty : h.tTy = some (tyFunc v.vsTy ty)) :
    tFuncApp h (.tvar [] v) = .tapp [] fsFuncApp [h, .tvar [] v] (some ty) := by
  simp only [tFuncApp, hty, tyFunc]

/-- The application of a mapping to the variables. -/
theorem wt_tFuncAppL {ty : Ty} {vl : List VSymbol} : ∀ {h : Term}, h.Wt sig →
    h.tTy = some (tyFuncL vl ty) → (tFuncAppL h (vl.map (.tvar []))).Wt sig ∧
      (tFuncAppL h (vl.map (.tvar []))).tTy = some ty := by
  induction vl with
  | nil => exact fun hwt hty => ⟨hwt, hty⟩
  | cons v vl ih =>
    intro h hwt hty
    have hty' : h.tTy = some (tyFunc v.vsTy (tyFuncL vl ty)) := hty
    have hwt' : (tFuncApp h (.tvar [] v)).Wt sig := by
      simp only [tFuncApp_var hty', Wt, wtList_iff, map_cons, map_nil, hty',
        tTy]
      refine ⟨takes_fsFuncApp _ _, fun t ht => ?_⟩
      rcases mem_pair.mp ht with rfl | rfl
      · exact hwt
      · trivial
    exact ih hwt' (by rw [tFuncApp_var hty', tTy])

theorem eval_tFuncAppL : ∀ {h : Term},
    h.tTy = some (tyFuncL vl ty) → ∀ ρ : I.Env,
      I.eval ρ (tFuncAppL h (vl.map (.tvar []))) = I.appVars vl ty (I.eval ρ h) ρ := by
  induction vl with
  | nil => exact fun _ _ => rfl
  | cons v vl ih =>
    intro h hty ρ
    have hty' : h.tTy = some (tyFunc v.vsTy (tyFuncL vl ty)) := hty
    show I.eval ρ (tFuncAppL (tFuncApp h (.tvar [] v)) (vl.map (.tvar []))) = _
    rw [ih (by rw [tFuncApp_var hty', tTy]) ρ, tFuncApp_var hty', eval_tapp]
    simp only [map_cons, map_nil, hty', tTy, appVars, app, eval_tvar]

/-- There is a mapping for every function of the values of the variables. -/
theorem exists_mapping (hfull : I.FullFunctions) (ty : Ty) {g : I.Env → I.Val}
    (hg : ∀ ρ, I.Typed ρ → I.mem ty (g ρ)) (hnd : vl.Nodup) :
    ∀ {ρ : I.Env}, I.Typed ρ → ∃ φ, I.mem (tyFuncL vl ty) φ ∧
      I.quant .tforall vl (fun ρ' => I.appVars vl ty φ ρ' = g ρ') ρ := by
  induction vl with
  | nil => exact fun hρ => ⟨g _, hg _ hρ, rfl⟩
  | cons v vl ih =>
    intro ρ hρ
    rw [nodup_cons] at hnd
    have hex : ∀ d, ∃ φ, I.mem v.vsTy d → I.mem (tyFuncL vl ty) φ ∧
        I.quant .tforall vl (fun ρ' => I.appVars vl ty φ ρ' = g ρ') (update ρ v d) := by
      intro d
      by_cases hd : I.mem v.vsTy d
      · obtain ⟨φ, hφ⟩ := ih hnd.2 (typed_update hρ hd)
        exact ⟨φ, fun _ => hφ⟩
      · exact ⟨d, fun h => absurd h hd⟩
    choose F hF using hex
    obtain ⟨φ, hφ, happ⟩ := hfull.comprehension v.vsTy (tyFuncL vl ty) F (fun d hd => (hF d hd).1)
    refine ⟨φ, hφ, fun d hd => ?_⟩
    have hq := (hF d hd).2
    rw [quant_forall_iff (typed_update hρ hd)] at hq ⊢
    intro ρ' hρ' hag
    -- the variable keeps its value under the other ones
    have hv : ρ' v = d := by rw [hag v hnd.1, update_self]
    simp only [appVars, hv, happ d hd]
    exact hq ρ' hρ' hag

theorem appVars_congr : ∀ {φ : I.Val} {ρ ρ' : I.Env},
    (∀ v ∈ vl, ρ v = ρ' v) → I.appVars vl ty φ ρ = I.appVars vl ty φ ρ' := by
  induction vl with
  | nil => exact fun _ => rfl
  | cons v vl ih =>
    intro φ ρ ρ' h
    rw [appVars, appVars, h v mem_cons_self, ih (fun w hw => h w (mem_cons_of_mem _ hw))]

theorem holds_lambda (hfull : I.FullFunctions) (hnd : vl.Nodup) (hwt : t.Wt sig)
    (hty : t.tTy = none) {ρ : I.Env} (hρ : I.Typed ρ) : I.quant .tforall vl (fun ρ' =>
      I.appVars vl tyBool (I.eval ρ (lambda vl [] t)) ρ' = I.boolTrue ↔ I.Holds ρ' t) ρ := by
  simp only [lambda, hty, Option.getD_none, freeVarsTriggers, append_nil]
  generalize hfc : (⟨freshTag (vl ++ t.freeVars), tyFuncL vl tyBool⟩ : VSymbol) = fc
  have hfresh : fc ∉ vl ++ t.freeVars := hfc ▸ freshTag_notMem _ _
  rw [mem_append, not_or] at hfresh
  have hfcty : (tvar [] fc).tTy = some (tyFuncL vl tyBool) := by rw [← hfc, tTy]
  have happ : ∀ (φ : I.Val) (ρ' : I.Env) (d : I.Val),
      I.appVars vl tyBool φ (update ρ' fc d) = I.appVars vl tyBool φ ρ' :=
    fun φ ρ' d => appVars_congr (fun v hv =>
      update_of_ne (fun h : v = fc => hfresh.1 (h ▸ hv)) _ _)
  have hbody : ∀ (ρ' : I.Env) (d : I.Val), I.Holds (update ρ' fc d) t ↔ I.Holds ρ' t :=
    fun ρ' d => holds_congr hwt (fun v hv =>
      update_of_ne (fun h : v = fc => hfresh.2 (h ▸ hv)) _ _)
  -- what the chosen mapping satisfies, for a mapping in its place
  have hspec : ∀ d, I.mem fc.vsTy d →
      (I.Holds (update ρ fc d) (tQuant .tforall vl [] (.tbinop [] .tiff
        (tEqu (tFuncAppL (.tvar [] fc) (vl.map (.tvar []))) tBoolTrue) t)) ↔
      I.quant .tforall vl (fun ρ' => I.appVars vl tyBool d ρ' = I.boolTrue ↔ I.Holds ρ' t) ρ) := by
    intro d hd
    rw [holds_tQuant, quant_forall_iff (typed_update hρ hd), quant_forall_iff hρ]
    simp only [holds_tbinop, Binop.tr, holds_tEqu, eval_tFuncAppL hfcty, eval_tvar, eval_tBoolTrue]
    constructor
    · intro h ρ' hρ' hag
      have := h (update ρ' fc d) (typed_update hρ' hd) (fun v hv => by
        by_cases hvf : v = fc
        · rw [hvf, update_self, update_self]
        · rw [update_of_ne hvf, update_of_ne hvf, hag v hv])
      rwa [update_self, happ, hbody] at this
    · intro h ρ' hρ' hag
      have hd' : ρ' fc = d := by rw [hag fc hfresh.1, update_self]
      have hold : I.mem fc.vsTy (ρ fc) := hρ fc
      rw [hd']
      have := h (update ρ' fc (ρ fc)) (typed_update hρ' hold) (fun v hv => by
        by_cases hvf : v = fc
        · rw [hvf, update_self]
        · rw [update_of_ne hvf, hag v hv, update_of_ne hvf])
      rwa [happ, hbody] at this
  -- there is such a mapping
  obtain ⟨no, hno, hne⟩ := hfull.two_values
  obtain ⟨φ, hφ, hq⟩ := exists_mapping hfull tyBool
    (g := fun ρ' => open Classical in if I.Holds ρ' t then I.boolTrue else no) (fun ρ' _ => by
      split_ifs
      · exact boolTrue_mem
      · exact hno) hnd hρ
  have hφ' : I.mem fc.vsTy φ := hfc ▸ hφ
  rw [eval_teps, ← hspec _ (I.eps_mem _ _)]
  refine I.eps_spec (P := fun d => I.Holds (update ρ fc d) _)
    ⟨φ, hφ', (hspec φ hφ').mpr ?_⟩
  rw [quant_forall_iff hρ] at hq ⊢
  intro ρ' hρ' hag
  rw [hq ρ' hρ' hag]
  by_cases hf : I.Holds ρ' t
  · simp [hf]
  · simp [hf, hne]

theorem wt_lambda (hwt : t.Wt sig) (hty : t.tTy = none) :
    (lambda vl [] t).Wt sig ∧ (lambda vl [] t).tTy = some (tyFuncL vl tyBool) := by
  simp only [lambda, hty, Option.getD_none, freeVarsTriggers, append_nil]
  generalize hfc : (⟨freshTag (vl ++ t.freeVars), tyFuncL vl tyBool⟩ : VSymbol) = fc
  have hfcty : (tvar [] fc).tTy = some (tyFuncL vl tyBool) := by rw [← hfc, tTy]
  have hwtfc : (tvar [] fc).Wt sig := trivial
  obtain ⟨h₁, h₂⟩ := wt_tFuncAppL hwtfc hfcty
  have htrue : tBoolTrue.Wt sig := by
    simp only [tBoolTrue, Wt, wtList_iff]
    exact ⟨⟨[], rfl, rfl⟩, fun _ h => absurd h not_mem_nil⟩
  have hbody : (tbinop [] .tiff (tEqu (tFuncAppL (.tvar [] fc) (vl.map (.tvar []))) tBoolTrue)
      t).Wt sig := ⟨rfl, hty, wt_tEqu h₂ rfl h₁ htrue, hwt⟩
  obtain ⟨h₃, h₄⟩ : (tQuant .tforall vl [] _).Wt sig ∧ (tQuant .tforall vl [] _).tTy = none :=
    wt_tQuant hbody rfl
  exact ⟨⟨h₄, h₃⟩, by rw [tTy, ← hfc]⟩

end Interp

end Meaning

end Why3
