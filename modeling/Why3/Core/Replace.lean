import Why3.Core.Validity

/-!
# Replacing a constant

`t_replace` of `core/term.ml`, for a constant: the meaning of the result is the one of
the term where the constant has the value of what stands for it.
-/

namespace Why3

open List Function Term Interp

variable {t : Term} {ws : List VSymbol}

namespace Term

mutual
/-- All variables, bound ones included. -/
def vars : Term → List VSymbol
  | .tvar _ v => [v]
  | .tconst _ _ _ | .ttrue _ | .tfalse _ => []
  | .tapp _ _ tl _ => varsList tl
  | .tif _ f t1 t2 => f.vars ++ t1.vars ++ t2.vars
  | .tlet _ t v e => v :: (t.vars ++ e.vars)
  | .tcase _ t bl => t.vars ++ varsBranches bl
  | .teps _ v f => v :: f.vars
  | .tquant _ _ vl trl f => vl ++ varsTriggers trl ++ f.vars
  | .tbinop _ _ f g => f.vars ++ g.vars
  | .tnot _ f => f.vars
def varsList : List Term → List VSymbol
  | [] => []
  | t :: tl => t.vars ++ varsList tl
def varsBranches : List (Pattern × Term) → List VSymbol
  | [] => []
  | (p, t) :: bl => p.patVars ++ t.vars ++ varsBranches bl
def varsTriggers : List (List Term) → List VSymbol
  | [] => []
  | tr :: trl => varsList tr ++ varsTriggers trl
end

attribute [grind =] vars varsList varsBranches varsTriggers

theorem varsList_eq (tl : List Term) : varsList tl = tl.flatMap vars := by
  induction tl with
  | nil => rfl
  | cons t tl ih => simp [varsList, ih]

theorem varsBranches_eq (bl : List (Pattern × Term)) :
    varsBranches bl = bl.flatMap (fun b => b.1.patVars ++ b.2.vars) := by
  induction bl with
  | nil => rfl
  | cons b bl ih => simp [varsBranches, ih]

theorem varsTriggers_eq (trl : List (List Term)) :
    varsTriggers trl = trl.flatMap (fun tr => tr.flatMap vars) := by
  induction trl with
  | nil => rfl
  | cons tr trl ih => simp [varsTriggers, ih, varsList_eq]

end Term

/-! ## The value of a constant -/

namespace PolyInterp

variable {sig : TySymbol → List LSymbol} {M : PolyInterp sig}

open Classical in
/-- A new value for the constant, at one closed type. -/
noncomputable def Consts.set (C : M.Consts) (c : LSymbol) (hc : ∀ ts, c ∉ sig ts) (u : M.U)
    (d : M.Val) (hd : M.mem u d) : M.Consts where
  val s := if s = c then some (fun u' => if u' = u then d else M.eps u' (fun _ => True)) else C.val s
  mem := by
    intro s f hf u'
    split_ifs at hf with hs
    · obtain rfl := Option.some.inj hf
      show M.mem u' (if u' = u then d else M.eps u' (fun _ => True))
      by_cases hu : u' = u
      · rw [if_pos hu, hu]
        exact hd
      · rw [if_neg hu]
        exact M.eps_mem u' _
    · exact C.mem hf u'
  not_constr := by
    intro s f hf
    split_ifs at hf with hs
    · exact hs ▸ hc
    · exact C.not_constr hf

variable {C : M.Consts} {c : LSymbol} {hc : ∀ ts, c ∉ sig ts} {u : M.U} {d : M.Val} {hd : M.mem u d}

theorem Consts.fn_set (us : List (Option M.U)) (dl : List M.Val) :
    (C.set c hc u d hd).fn c us (some u) dl = d := by
  simp [Consts.fn, Consts.set]

theorem Consts.val_set_of_ne {s : LSymbol} (h : s ≠ c) : (C.set c hc u d hd).val s = C.val s :=
  if_neg h

end PolyInterp

/-! ## Replacement -/

section Replace

variable (t1 t2 : Term)

/-- One step of `t_replace`: the subterm itself, or its image. -/
def replaceOr (t t' : Term) : Term := if tEqual t t1 then t2 else t'

mutual
/-- `t_replace t1 t2`. -/
def tReplace : Term → Term
  | .tvar a v => replaceOr t1 t2 (.tvar a v) (.tvar a v)
  | .tconst a c ty => replaceOr t1 t2 (.tconst a c ty) (.tconst a c ty)
  | .tapp a s tl ty => replaceOr t1 t2 (.tapp a s tl ty) (.tapp a s (tReplaceList tl) ty)
  | .tif a f t e =>
    replaceOr t1 t2 (.tif a f t e) (.tif a (tReplace f) (tReplace t) (tReplace e))
  | .tlet a t v e => replaceOr t1 t2 (.tlet a t v e) (.tlet a (tReplace t) v (tReplace e))
  | .tcase a t bl =>
    replaceOr t1 t2 (.tcase a t bl) (.tcase a (tReplace t) (tReplaceBranches bl))
  | .teps a v f => replaceOr t1 t2 (.teps a v f) (.teps a v (tReplace f))
  | .tquant a q vl trl f => replaceOr t1 t2 (.tquant a q vl trl f)
      (.tquant a q vl (tReplaceTriggers trl) (tReplace f))
  | .tbinop a op f g =>
    replaceOr t1 t2 (.tbinop a op f g) (.tbinop a op (tReplace f) (tReplace g))
  | .tnot a f => replaceOr t1 t2 (.tnot a f) (.tnot a (tReplace f))
  | .ttrue a => replaceOr t1 t2 (.ttrue a) (.ttrue a)
  | .tfalse a => replaceOr t1 t2 (.tfalse a) (.tfalse a)
def tReplaceList : List Term → List Term
  | [] => []
  | t :: tl => tReplace t :: tReplaceList tl
def tReplaceBranches : List (Pattern × Term) → List (Pattern × Term)
  | [] => []
  | (p, t) :: bl => (p, tReplace t) :: tReplaceBranches bl
def tReplaceTriggers : List (List Term) → List (List Term)
  | [] => []
  | tr :: trl => tReplaceList tr :: tReplaceTriggers trl
end

attribute [grind =] tReplace tReplaceList tReplaceBranches tReplaceTriggers

@[simp] theorem tReplaceList_eq (tl : List Term) : tReplaceList t1 t2 tl = tl.map (tReplace t1 t2) := by
  induction tl with
  | nil => rfl
  | cons t tl ih => rw [tReplaceList, ih, map_cons]

@[simp] theorem tReplaceBranches_eq (bl : List (Pattern × Term)) :
    tReplaceBranches t1 t2 bl = bl.map (fun b => (b.1, tReplace t1 t2 b.2)) := by
  induction bl with
  | nil => rfl
  | cons b bl ih =>
    obtain ⟨p, t⟩ := b
    rw [tReplaceBranches, ih, map_cons]

@[simp] theorem tReplaceTriggers_eq (trl : List (List Term)) :
    tReplaceTriggers t1 t2 trl = trl.map (List.map (tReplace t1 t2)) := by
  induction trl with
  | nil => rfl
  | cons tr trl ih => rw [tReplaceTriggers, ih, map_cons, tReplaceList_eq]

end Replace

/-! ## Constants -/

/-- `t_app_infer ls []`, for a constant. -/
def constTerm (c : LSymbol) : Term := .tapp [] c [] c.lsValue

theorem Ty.inst_of_closed {ty : Ty} (h : ty.freevars = []) (m : Mtv) : ty.inst m = ty := by
  induction ty with
  | tyvar v => simp [Ty.freevars] at h
  | tyapp s l ih =>
    rw [Ty.freevars, Ty.freevarsList_eq, flatMap_eq_nil_iff] at h
    rw [Ty.inst, Ty.instList_eq, map_congr_left (fun t ht => ih t ht (h t ht)), map_id']

/-- A symbol without arguments, whose value has a type without variables. -/
structure LSymbol.IsConst (c : LSymbol) (ty : Ty) : Prop where
  args : c.lsArgs = []
  value : c.lsValue = some ty
  closed : ty.freevars = []

theorem tEqual_constTerm {c : LSymbol} :
    tEqual t (constTerm c) = true ↔ ∃ a, t = .tapp a c [] c.lsValue := by
  constructor
  · intro h
    cases t with
    | tapp a s tl ty =>
      simp only [tEqual, constTerm, alphaEq, Bool.and_eq_true, decide_eq_true_eq] at h
      obtain ⟨rfl, rfl, hl⟩ := h
      cases tl with
      | nil => exact ⟨a, rfl⟩
      | cons t tl => simp [alphaEqList] at hl
    | _ => simp [tEqual, constTerm, alphaEq] at h
  · rintro ⟨a, rfl⟩
    simp [tEqual, constTerm, alphaEq, alphaEqList]

theorem replaceOr_of_ne {c : LSymbol} {u t' : Term} (h : ∀ a s tl ty, t ≠ .tapp a s tl ty) :
    replaceOr (constTerm c) u t t' = t' := by
  refine if_neg fun heq => ?_
  obtain ⟨a, rfl⟩ := tEqual_constTerm.mp heq
  exact h _ _ _ _ rfl

theorem LSymbol.IsConst.tapp_eq {sig : TySymbol → List LSymbol} {c : LSymbol} {ty : Ty}
    (hc : c.IsConst ty) {a : Sattr} {tl : List Term} {oty : Option Ty}
    (hwt : (tapp a c tl oty).Wt sig) : tl = [] ∧ oty = c.lsValue := by
  obtain ⟨⟨m, hargs, hval⟩, -⟩ := hwt
  constructor
  · have hlen := congrArg List.length hargs
    rw [hc.args, length_map] at hlen
    exact length_eq_zero_iff.mp hlen
  · rw [hval, hc.value, Option.map_some]
    rw [Ty.inst_of_closed hc.closed]

section Const

variable {sig : TySymbol → List LSymbol} {c : LSymbol} {ty : Ty} {u : Term}

theorem tReplace_tapp_self (hc : c.IsConst ty) {a : Sattr} {tl : List Term} {oty : Option Ty}
    (hwt : (tapp a c tl oty).Wt sig) :
    tReplace (constTerm c) u (.tapp a c tl oty) = u := by
  obtain ⟨rfl, rfl⟩ := hc.tapp_eq hwt
  rw [tReplace, replaceOr, if_pos (tEqual_constTerm.mpr ⟨a, rfl⟩)]

theorem tReplace_tapp {s : LSymbol} (hs : s ≠ c) (a : Sattr) (tl : List Term) (oty : Option Ty) :
    tReplace (constTerm c) u (.tapp a s tl oty) =
      .tapp a s (tl.map (tReplace (constTerm c) u)) oty := by
  rw [tReplace, tReplaceList_eq]
  refine if_neg fun heq => ?_
  obtain ⟨a', h⟩ := tEqual_constTerm.mp heq
  cases h
  exact hs rfl

theorem tTy_tReplace (hc : c.IsConst ty) (hu : u.tTy = some ty) (hwt : t.Wt sig) :
    (tReplace (constTerm c) u t).tTy = t.tTy := by
  induction t with
  | tapp a s tl oty _ =>
    by_cases hs : s = c
    · subst hs
      rw [tReplace_tapp_self hc hwt, hu, ← hc.value, (hc.tapp_eq hwt).2]
      rfl
    · rw [tReplace_tapp hs]
      rfl
  | tif a f t1 t2 _ _ ih2 =>
    rw [tReplace, replaceOr_of_ne (by simp)]
    exact ih2 hwt.2.2.2.2
  | tlet a t v e _ ihe =>
    rw [tReplace, replaceOr_of_ne (by simp)]
    exact ihe hwt.2.2
  | tcase a t bl _ ihb =>
    rw [tReplace, replaceOr_of_ne (by simp), tReplaceBranches_eq]
    cases bl with
    | nil => rfl
    | cons b bl => exact ihb b mem_cons_self hwt.2.2.2.2.2.2.1
  | teps | tquant | tbinop | tnot =>
    rw [tReplace, replaceOr_of_ne (by simp)]
    rfl
  | tvar | tconst | ttrue | tfalse => rw [tReplace, replaceOr_of_ne (by simp)]

theorem wt_tReplace (hc : c.IsConst ty) (hu : u.tTy = some ty) (huwt : u.Wt sig) :
    t.Wt sig → (tReplace (constTerm c) u t).Wt sig := by
  have hty : ∀ {t : Term}, t.Wt sig → (tReplace (constTerm c) u t).tTy = t.tTy :=
    fun h => tTy_tReplace hc hu h
  induction t with
  | tapp a s tl oty ih =>
    intro hwt
    by_cases hs : s = c
    · subst hs
      rw [tReplace_tapp_self hc hwt]
      exact huwt
    · rw [tReplace_tapp hs]
      simp only [Wt, wtList_iff, forall_mem_map, map_map] at hwt ⊢
      refine ⟨?_, fun t ht => ih t ht (hwt.2 t ht)⟩
      have htys : tl.map (tTy ∘ tReplace (constTerm c) u) = tl.map tTy :=
        map_congr_left fun t ht => hty (hwt.2 t ht)
      rw [htys]
      exact hwt.1
  | tif a f t1 t2 ihf ih1 ih2 =>
    rintro ⟨hf, h12, hwf, hw1, hw2⟩
    rw [tReplace, replaceOr_of_ne (by simp)]
    exact ⟨(hty hwf).trans hf, (hty hw1).trans (h12.trans (hty hw2).symm), ihf hwf, ih1 hw1, ih2 hw2⟩
  | tlet a t v e iht ihe =>
    rintro ⟨htv, hwt, hwe⟩
    rw [tReplace, replaceOr_of_ne (by simp)]
    exact ⟨(hty hwt).trans htv, iht hwt, ihe hwe⟩
  | tcase a t bl iht ihb =>
    intro hwt
    have hcase := hty hwt
    rw [tReplace, replaceOr_of_ne (by simp), tReplaceBranches_eq] at hcase ⊢
    simp only [Wt, wtBranches_iff, forall_mem_map] at hwt ⊢
    refine ⟨by simpa using hwt.1, iht hwt.2.1, fun b hb => ?_⟩
    obtain ⟨hp, hok, hlin, hbty, hbwt⟩ := hwt.2.2 b hb
    rw [hty hwt.2.1, hcase]
    exact ⟨hp, hok, hlin, (hty hbwt).trans hbty, ihb b hb hbwt⟩
  | teps a v f ih | tnot a f ih =>
    rintro ⟨hf, hwf⟩
    rw [tReplace, replaceOr_of_ne (by simp)]
    exact ⟨(hty hwf).trans hf, ih hwf⟩
  | tquant a q vl trl f ihtr ih =>
    intro hwt
    simp only [Wt, wtTriggers_iff] at hwt
    rw [tReplace, replaceOr_of_ne (by simp), tReplaceTriggers_eq]
    simp only [Wt, wtTriggers_iff, forall_mem_map]
    exact ⟨(hty hwt.2.2).trans hwt.1, fun tr htr t ht => ihtr tr htr t ht (hwt.2.1 tr htr t ht),
      ih hwt.2.2⟩
  | tbinop a op f g ihf ihg =>
    rintro ⟨hf, hg, hwf, hwg⟩
    rw [tReplace, replaceOr_of_ne (by simp)]
    exact ⟨(hty hwf).trans hf, (hty hwg).trans hg, ihf hwf, ihg hwg⟩
  | _ =>
    intro _
    rw [tReplace, replaceOr_of_ne (by simp)]
    trivial

/-! ### Variables and symbols -/

theorem mem_vars_tReplace {v : VSymbol} :
    v ∈ (tReplace (constTerm c) u t).vars → v ∈ t.vars ∨ v ∈ u.vars := by
  induction t with
  | tapp a s tl oty ih =>
    intro h
    by_cases heq : tEqual (.tapp a s tl oty) (constTerm c) = true
    · rw [tReplace, replaceOr, if_pos heq] at h
      exact .inr h
    · rw [tReplace, replaceOr, if_neg heq, tReplaceList_eq] at h
      rw [Term.vars, varsList_eq, mem_flatMap] at h ⊢
      obtain ⟨_, hmem, hv⟩ := h
      obtain ⟨t, ht, rfl⟩ := mem_map.mp hmem
      exact (ih t ht hv).imp_left fun hv => ⟨t, ht, hv⟩
  | tif a f t1 t2 ihf ih1 ih2 | tbinop a op f g ihf ihg =>
    intro h
    rw [tReplace, replaceOr_of_ne (by simp)] at h
    simp only [Term.vars, mem_append] at h ⊢
    tauto
  | tlet a t w e iht ihe =>
    intro h
    rw [tReplace, replaceOr_of_ne (by simp)] at h
    simp only [Term.vars, mem_append, mem_cons] at h ⊢
    tauto
  | tcase a t bl iht ihb =>
    intro h
    rw [tReplace, replaceOr_of_ne (by simp), tReplaceBranches_eq] at h
    simp only [Term.vars, varsBranches_eq, mem_append, mem_flatMap,
      mem_map] at h ⊢
    rcases h with h | ⟨_, ⟨b, hb, rfl⟩, h | h⟩
    · exact (iht h).imp_left .inl
    · exact .inl (.inr ⟨b, hb, .inl h⟩)
    · exact (ihb b hb h).imp_left fun h => .inr ⟨b, hb, .inr h⟩
  | teps a w f ih =>
    intro h
    rw [tReplace, replaceOr_of_ne (by simp)] at h
    simp only [Term.vars, mem_cons] at h ⊢
    tauto
  | tquant a q vl trl f ihtr ih =>
    intro h
    rw [tReplace, replaceOr_of_ne (by simp), tReplaceTriggers_eq] at h
    simp only [Term.vars, varsTriggers_eq, mem_append, mem_flatMap,
      mem_map] at h ⊢
    rcases h with (h | ⟨_, ⟨tr, htr, rfl⟩, _, hmem, h⟩) | h
    · exact .inl (.inl (.inl h))
    · obtain ⟨t, ht, rfl⟩ := mem_map.mp hmem
      exact (ihtr tr htr t ht h).imp_left fun h => .inl (.inr ⟨tr, htr, t, ht, h⟩)
    · exact (ih h).imp_left .inr
  | tnot a f ih =>
    intro h
    rw [tReplace, replaceOr_of_ne (by simp)] at h
    exact ih h
  | _ =>
    intro h
    rw [tReplace, replaceOr_of_ne (by simp)] at h
    exact .inl h

/-! ### Meaning -/

namespace PolyInterp

variable {M : PolyInterp sig} {C C' : M.Consts} {P : M.Preds} {τ : TvSymbol → M.U}

/-- The term has the value of the constant, whatever the bound variables are. -/
def Stands (M : PolyInterp sig) (C C' : M.Consts) (P : M.Preds) (τ : TvSymbol → M.U) (c : LSymbol)
    (ty : Ty) (u : Term) (vl : List VSymbol) (ρ : VSymbol → M.Val) : Prop :=
  ∀ ρ' : VSymbol → M.Val, (∀ v, v ∉ vl → ρ' v = ρ v) →
    ((M.withConsts C).inst P τ).eval ρ' u = C'.fn c [] (some (M.ty τ ty)) []

theorem update_outside {D : Type} {ρ ρ₀ : VSymbol → D} {w : VSymbol} (hw : w ∈ ws)
    (hρ : ∀ v, v ∉ ws → ρ v = ρ₀ v) (d : D) : ∀ v, v ∉ ws → update ρ w d v = ρ₀ v := by
  intro v hv
  rw [update_of_ne, hρ v hv]
  rintro rfl
  exact hv hw

theorem bindAll_outside {D : Type} {ρ ρ₀ : VSymbol → D} {bs : List (VSymbol × D)}
    (hbs : ∀ v ∈ bs.map Prod.fst, v ∈ ws) (hρ : ∀ v, v ∉ ws → ρ v = ρ₀ v) :
    ∀ v, v ∉ ws → bindAll ρ bs v = ρ₀ v := by
  induction bs with
  | nil => exact hρ
  | cons b bs ih =>
    rw [map_cons, forall_mem_cons] at hbs
    rw [bindAll_cons]
    exact update_outside hbs.1 (ih hbs.2) _

theorem quant_replace {q : Quant} {Q Q' : (VSymbol → M.Val) → Prop} {vl : List VSymbol}
    {ρ₀ : VSymbol → M.Val} (hvl : ∀ v ∈ vl, v ∈ ws)
    (hQ : ∀ ρ, (∀ v, v ∉ ws → ρ v = ρ₀ v) → (Q ρ ↔ Q' ρ)) :
    ∀ ρ : VSymbol → M.Val, (∀ v, v ∉ ws → ρ v = ρ₀ v) →
      (((M.withConsts C).inst P τ).quant q vl Q ρ ↔
        ((M.withConsts C').inst P τ).quant q vl Q' ρ) := by
  induction vl with
  | nil =>
    intro ρ hρ
    cases q <;> exact hQ ρ hρ
  | cons v vl ih =>
    intro ρ hρ
    rw [forall_mem_cons] at hvl
    have hstep : ∀ d, ∀ w, w ∉ ws → update ρ v d w = ρ₀ w := update_outside hvl.1 hρ
    cases q with
    | tforall => exact forall_congr' fun d => imp_congr_right fun _ => ih hvl.2 _ (hstep d)
    | texists => exact exists_congr fun d => and_congr_right fun _ => ih hvl.2 _ (hstep d)

/-- The meaning of a term after the replacement of a constant. -/
theorem sem_tReplace (hc : c.IsConst ty) (hu : u.tTy = some ty) {ρ₀ : VSymbol → M.Val}
    (hst : Stands M C C' P τ c ty u ws ρ₀) : t.Wt sig →
    (∀ v ∈ t.vars, v ∈ ws) → (∀ s ∈ t.symbols, s ≠ c → C.val s = C'.val s) →
    ∀ ρ : VSymbol → M.Val, (∀ v, v ∉ ws → ρ v = ρ₀ v) →
      Interp.Same (I := (M.withConsts C').inst P τ) t.tTy
        (((M.withConsts C).inst P τ).sem (tReplace (constTerm c) u t) ρ)
        (((M.withConsts C').inst P τ).sem t ρ) := by
  induction t with
  | tvar a v | tconst a k oty | ttrue a | tfalse a =>
    intro _ _ _ ρ _
    rw [tReplace, replaceOr_of_ne (by simp)]
    exact ⟨rfl, fun _ => .rfl⟩
  | tapp a s tl oty ih =>
    intro hwt hvars hsym ρ hρ
    by_cases hs : s = c
    · subst hs
      rw [tReplace_tapp_self hc hwt]
      obtain ⟨rfl, rfl⟩ := hc.tapp_eq hwt
      have hval : ((M.withConsts C').inst P τ).eval ρ (.tapp a s [] s.lsValue) =
          C'.fn s [] (some (M.ty τ ty)) [] := by
        rw [eval_tapp, hc.value]
        rfl
      refine ⟨(hst ρ hρ).trans hval.symm, fun hnone => ?_⟩
      rw [tTy, hc.value] at hnone
      cases hnone
    · rw [tReplace_tapp hs]
      simp only [Wt, wtList_iff] at hwt
      simp only [Term.vars, varsList_eq] at hvars
      rw [Term.symbols, Term.symbolsList_eq, forall_mem_cons] at hsym
      have hvals : (tl.map (tReplace (constTerm c) u)).map (((M.withConsts C).inst P τ).eval ρ) =
          tl.map (((M.withConsts C').inst P τ).eval ρ) := by
        rw [map_map]
        refine map_congr_left fun t ht => ?_
        exact (ih t ht (hwt.2 t ht) (fun v hv => hvars v (mem_flatMap.mpr ⟨t, ht, hv⟩))
          (fun s hs => hsym.2 s (mem_flatMap.mpr ⟨t, ht, hs⟩)) ρ hρ).1
      have htys : (tl.map (tReplace (constTerm c) u)).map tTy = tl.map tTy := by
        rw [map_map]
        exact map_congr_left fun t ht => tTy_tReplace hc hu (hwt.2 t ht)
      have hfn : ∀ us u dl, C.fn s us u dl = C'.fn s us u dl := by
        intro us u dl
        unfold Consts.fn
        rw [hsym.1 hs]
      rw [sem_tapp, sem_tapp, hvals, htys]
      exact ⟨hfn _ _ _, fun _ => .rfl⟩
  | tif a f t1 t2 ihf ih1 ih2 =>
    rintro ⟨hfty, h12, hf, h1, h2⟩ hvars hsym ρ hρ
    simp only [Term.vars, forall_mem_append] at hvars
    simp only [Term.symbols, forall_mem_append] at hsym
    have hF := (ihf hf hvars.1.1 hsym.1.1 ρ hρ).2 hfty
    have hF1 := ih1 h1 hvars.1.2 hsym.1.2 ρ hρ
    have hF2 := ih2 h2 hvars.2 hsym.2 ρ hρ
    rw [h12] at hF1
    rw [tReplace, replaceOr_of_ne (by simp), sem_tif, sem_tif, Interp.Holds,
      Interp.Holds]
    by_cases hcond : (((M.withConsts C').inst P τ).sem f ρ).tr
    · rw [if_pos hcond, if_pos (hF.mpr hcond)]
      exact hF1
    · rw [if_neg hcond, if_neg (fun h => hcond (hF.mp h))]
      exact hF2
  | tlet a t w e iht ihe =>
    rintro ⟨_, ht, he⟩ hvars hsym ρ hρ
    rw [Term.vars, forall_mem_cons, forall_mem_append] at hvars
    rw [Term.symbols, forall_mem_append] at hsym
    have hval : ((M.withConsts C).inst P τ).eval ρ (tReplace (constTerm c) u t) =
        ((M.withConsts C').inst P τ).eval ρ t := (iht ht hvars.2.1 hsym.1 ρ hρ).1
    rw [tReplace, replaceOr_of_ne (by simp), sem_tlet, sem_tlet, hval]
    exact ihe he hvars.2.2 hsym.2 _ (update_outside hvars.1 hρ _)
  | tcase a t bl iht ihb =>
    intro hwt hvars hsym ρ hρ
    simp only [Wt, wtBranches_iff] at hwt
    rw [Term.vars, varsBranches_eq, forall_mem_append] at hvars
    rw [Term.symbols, symbolsBranches_eq, forall_mem_append] at hsym
    obtain ⟨_, ht, hbl⟩ := hwt
    have hval : ((M.withConsts C).inst P τ).eval ρ (tReplace (constTerm c) u t) =
        ((M.withConsts C').inst P τ).eval ρ t := (iht ht hvars.1 hsym.1 ρ hρ).1
    have hbranches : ∀ bl x d ρ, ((M.withConsts C).inst P τ).branches bl x d ρ =
        ((M.withConsts C').inst P τ).branches bl x d ρ := fun _ _ _ _ => branches_withConsts
    rw [tReplace, replaceOr_of_ne (by simp), sem_tcase, sem_tcase, hval,
      tReplaceBranches_eq, map_map, hbranches]
    refine branches_sim _ ?_ ⟨rfl, fun _ => .rfl⟩
    rw [forall₂_map_left_iff, forall₂_map_right_iff, forall₂_same]
    intro b hb
    obtain ⟨_, hok, _, hbty, hbwt⟩ := hbl b hb
    have hbvars : ∀ v ∈ b.1.patVars ++ b.2.vars, v ∈ ws :=
      fun v hv => hvars.2 v (mem_flatMap.mpr ⟨b, hb, hv⟩)
    rw [forall_mem_append] at hbvars
    have hbody : ∀ bs : List (VSymbol × M.Val), (∀ v ∈ bs.map Prod.fst, v ∈ b.1.patVars) →
        Interp.Same (I := (M.withConsts C').inst P τ) (tcase a t bl).tTy
          (((M.withConsts C).inst P τ).sem (tReplace (constTerm c) u b.2) (bindAll ρ bs))
          (((M.withConsts C').inst P τ).sem b.2 (bindAll ρ bs)) := by
      intro bs hbs
      rw [← hbty]
      refine ihb b hb hbwt hbvars.2 (fun s hs => hsym.2 s (mem_flatMap.mpr
        ⟨b, hb, mem_append_right _ hs⟩)) _ (bindAll_outside (fun v hv => ?_) hρ)
      exact hbvars.1 v (hbs v hv)
    refine ⟨.rfl, fun bs bs' hm hm' => ?_, ?_⟩
    · obtain rfl := Option.some.inj (hm.symm.trans hm')
      exact hbody bs fun v hv => (Pattern.matchPat_keys _ hok hm v).mp hv
    · exact hbody _ fun v hv => by simpa [dfltVars] using hv
  | teps a w f ih =>
    rintro ⟨hfty, hf⟩ hvars hsym ρ hρ
    rw [Term.vars, forall_mem_cons] at hvars
    refine ⟨?_, fun hnone => by cases hnone⟩
    have hP : ∀ d, ((M.withConsts C).inst P τ).Holds (update ρ w d)
        (tReplace (constTerm c) u f) =
          ((M.withConsts C').inst P τ).Holds (update ρ w d) f :=
      fun d => propext ((ih hf hvars.2 hsym _ (update_outside hvars.1 hρ d)).2 hfty)
    rw [tReplace, replaceOr_of_ne (by simp), sem_teps, sem_teps]
    simp only [hP]
    rfl
  | tquant a q vl trl f _ ih =>
    intro hwt hvars hsym ρ hρ
    simp only [Term.vars, forall_mem_append] at hvars
    simp only [Term.symbols, forall_mem_append] at hsym
    rw [tReplace, replaceOr_of_ne (by simp)]
    refine ⟨rfl, fun _ => ?_⟩
    exact quant_replace hvars.1.1
      (fun ρ hρ => (ih hwt.2.2 hvars.2 hsym.2 ρ hρ).2 hwt.1) ρ hρ
  | tbinop a op f g ihf ihg =>
    rintro ⟨hfty, hgty, hf, hg⟩ hvars hsym ρ hρ
    simp only [Term.vars, forall_mem_append] at hvars
    simp only [Term.symbols, forall_mem_append] at hsym
    have hF := (ihf hf hvars.1 hsym.1 ρ hρ).2 hfty
    have hG := (ihg hg hvars.2 hsym.2 ρ hρ).2 hgty
    rw [tReplace, replaceOr_of_ne (by simp)]
    refine ⟨rfl, fun _ => ?_⟩
    show op.tr (((M.withConsts C).inst P τ).sem _ ρ).tr (((M.withConsts C).inst P τ).sem _ ρ).tr ↔
      op.tr (((M.withConsts C').inst P τ).sem f ρ).tr (((M.withConsts C').inst P τ).sem g ρ).tr
    rw [hF, hG]
  | tnot a f ih =>
    rintro ⟨hfty, hf⟩ hvars hsym ρ hρ
    rw [tReplace, replaceOr_of_ne (by simp)]
    exact ⟨rfl, fun _ => not_congr ((ih hf hvars hsym ρ hρ).2 hfty)⟩

end PolyInterp

end Const

end Why3
