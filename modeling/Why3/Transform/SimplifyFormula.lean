import Why3.Core.TermSimp

/-!
# The value that a formula gives to a variable

`fmla_find_subst` and `equ_simp` of `transform/simplify_formula.ml`: `exists x. x = t /\ F`
gives `x` the value `t`, and so does `forall x. x <> t \/ F`.

The source opens a binder before it looks below, so that a variable bound there
differs from all others.  Here the variables keep their names, and a variable
that is bound again below is not the one that is looked for.
-/

namespace Why3

namespace SimplifyFormula

/-- `t_boundvars_in`. -/
def tBoundvarsIn (fvars : List VSymbol) (t : Term) : Bool := t.freeVars.any (· ∈ fvars)

/-- `test`: the equation of `vs` and `t` gives a value to the variable `var`. -/
def test (boundvars : List VSymbol) (var : VSymbol) (sign : Bool) (ls : LSymbol) (vs : VSymbol)
    (t tv : Term) : Bool :=
  sign && (decide (ls = psEqu) && (decide (vs = var) && (!tEqual t tv && !tBoundvarsIn boundvars t)))

/-- The first of the two sides that is `var` gives the other one. -/
def equSubst (boundvars : List VSymbol) (var : VSymbol) (sign : Bool) (ls : LSymbol) :
    List Term → Option Term
  | [t1, t2] =>
    match t1, t2 with
    | .tvar a1 v1, .tvar a2 v2 =>
      if test boundvars var sign ls v1 t2 (.tvar a1 v1) then some t2
      else if test boundvars var sign ls v2 t1 (.tvar a2 v2) then some t1
      else none
    | .tvar a1 v1, t2 => if test boundvars var sign ls v1 t2 (.tvar a1 v1) then some t2 else none
    | t1, .tvar a2 v2 => if test boundvars var sign ls v2 t1 (.tvar a2 v2) then some t1 else none
    | _, _ => none
  | _ => none

/-- `fmla_find_subst`: the term that `var` must be equal to when `f` is true (when
it is false, if `sign` is).  The exception `Subst_found` is `some`. -/
def fmlaFindSubst (boundvars : List VSymbol) (var : VSymbol) (sign : Bool) : Term → Option Term
  | .tapp _ ls tl _ => equSubst boundvars var sign ls tl
  | .tbinop _ .tor f1 f2 =>
    if sign then none
    else (fmlaFindSubst boundvars var sign f1).or (fmlaFindSubst boundvars var sign f2)
  | .tbinop _ .tand f1 f2 =>
    if sign then (fmlaFindSubst boundvars var sign f1).or (fmlaFindSubst boundvars var sign f2)
    else none
  | .tbinop _ .timplies f1 f2 =>
    if sign then none
    else (fmlaFindSubst boundvars var (!sign) f1).or (fmlaFindSubst boundvars var sign f2)
  | .tnot _ f1 => fmlaFindSubst boundvars var (!sign) f1
  | .tquant _ _ vsl trl f =>
    if trl.isEmpty && var ∉ vsl then fmlaFindSubst (vsl ++ boundvars) var sign f else none
  | .tlet _ _ vs f =>
    if var ≠ vs then fmlaFindSubst (vs :: boundvars) var sign f else none
  | _ => none

/-- The connectives of `equ_simp`, whose operands are already simplified. -/
def equBinop : Binop → Term → Term → Term
  | .tor, .tfalse _, f => f
  | .tor, f, .tfalse _ => f
  | .tand, .ttrue _, f => f
  | .tand, f, .ttrue _ => f
  | .timplies, .ttrue _, f => f
  | op, f1, f2 => .tbinop [] op f1 f2

mutual
/-- `equ_simp`, without the equation `eq`. -/
def equSimp : Term → Term
  | .tvar a v => .tvar a v
  | .tconst a c ty => .tconst a c ty
  | .tapp a s tl ty =>
    match equSimpList tl with
    | [t1, t2] =>
      if s = psEqu then tAttrCopy (.tapp a s tl ty) (tEquSimp t1 t2) else .tapp a s [t1, t2] ty
    | tl => .tapp a s tl ty
  | .tif a f t1 t2 => .tif a (equSimp f) (equSimp t1) (equSimp t2)
  | .tlet a t v e => .tlet a (equSimp t) v (equSimp e)
  | .tcase a t bl => .tcase a (equSimp t) (equSimpBranches bl)
  | .teps a v f => .teps a v (equSimp f)
  | .tquant a q vl trl f => .tquant a q vl (equSimpTriggers trl) (equSimp f)
  | .tbinop a op f g => tAttrCopy (.tbinop a op f g) (equBinop op (equSimp f) (equSimp g))
  | .tnot a f => .tnot a (equSimp f)
  | .ttrue a => .ttrue a
  | .tfalse a => .tfalse a
def equSimpList : List Term → List Term
  | [] => []
  | t :: tl => equSimp t :: equSimpList tl
def equSimpBranches : List (Pattern × Term) → List (Pattern × Term)
  | [] => []
  | (p, t) :: bl => (p, equSimp t) :: equSimpBranches bl
def equSimpTriggers : List (List Term) → List (List Term)
  | [] => []
  | tr :: trl => equSimpList tr :: equSimpTriggers trl
end

attribute [grind =] equSimp equSimpList equSimpBranches equSimpTriggers

@[simp] theorem equSimpList_eq (tl : List Term) : equSimpList tl = tl.map equSimp := by
  induction tl with
  | nil => rfl
  | cons t tl ih => rw [equSimpList, ih, List.map_cons]

@[simp] theorem equSimpBranches_eq (bl : List (Pattern × Term)) :
    equSimpBranches bl = bl.map (fun b => (b.1, equSimp b.2)) := by
  induction bl with
  | nil => rfl
  | cons b bl ih =>
    obtain ⟨p, t⟩ := b
    rw [equSimpBranches, ih, List.map_cons]

@[simp] theorem equSimpTriggers_eq (trl : List (List Term)) :
    equSimpTriggers trl = trl.map (List.map equSimp) := by
  induction trl with
  | nil => rfl
  | cons tr trl ih => rw [equSimpTriggers, ih, equSimpList_eq, List.map_cons]

end SimplifyFormula

end Why3

/-!
# Removing trivial quantifications keeps the meaning

An equation found by `fmla_find_subst` holds whenever the formula does, so that
the quantified variable has one possible value.  Variables that do not occur are
dropped because no type is empty.
-/

namespace Why3

open List Function Term Interp Binop

variable {g t : Term} {sign : Bool} {boundvars : List VSymbol} {var : VSymbol} {vl : List VSymbol}
variable {f : Term}

namespace SimplifyFormula

variable {sig : TySymbol → List LSymbol} {I : Interp sig}

/-! ## Simplification of equations -/

theorem equiv_equBinop {a : Sattr} {op : Binop} {f' g' : Term} (hf : I.Equiv f f')
    (hg : I.Equiv g g') (hwt : (tbinop a op f g).Wt sig) :
    I.Equiv (.tbinop a op f g) (equBinop op f' g') := by
  have htf : ∀ {ρ : I.Env}, I.Typed ρ → (I.Holds ρ f' ↔ I.Holds ρ f) := fun hρ => hf.tr hρ hwt.1
  have htg : ∀ {ρ : I.Env}, I.Typed ρ → (I.Holds ρ g' ↔ I.Holds ρ g) := fun hρ => hg.tr hρ hwt.2.1
  have hfty : f'.tTy = none := hf.ty.trans hwt.1
  have hgty : g'.tTy = none := hg.ty.trans hwt.2.1
  have hfw := hf.wt
  have hgw := hg.wt
  -- an operand is dropped when it is neutral
  unfold equBinop
  split
  · refine .of_formula rfl hgw hgty (fun {ρ} hρ => ?_)
    rw [I.holds_tbinop, tr, ← htf hρ, ← htg hρ, I.holds_tfalse, false_or]
  · refine .of_formula rfl hfw hfty (fun {ρ} hρ => ?_)
    rw [I.holds_tbinop, tr, ← htf hρ, ← htg hρ, I.holds_tfalse, or_false]
  · refine .of_formula rfl hgw hgty (fun {ρ} hρ => ?_)
    rw [I.holds_tbinop, tr, ← htf hρ, ← htg hρ, I.holds_ttrue, true_and]
  · refine .of_formula rfl hfw hfty (fun {ρ} hρ => ?_)
    rw [I.holds_tbinop, tr, ← htf hρ, ← htg hρ, I.holds_ttrue, and_true]
  · refine .of_formula rfl hgw hgty (fun {ρ} hρ => ?_)
    rw [I.holds_tbinop, tr, ← htf hρ, ← htg hρ, I.holds_ttrue, true_imp_iff]
  · refine .of_formula rfl ⟨hfty, hgty, hfw, hgw⟩ rfl (fun {ρ} hρ => ?_)
    rw [I.holds_tbinop, I.holds_tbinop, htf hρ, htg hρ]

theorem equiv_equSimp (hlit : I.LitExt) (heps : I.EpsExt) : t.Wt sig → I.Equiv t (equSimp t) := by
  induction t using induct_children with
  | h t ih =>
    intro hwt
    have hmap : I.Equiv t (t.tMap equSimp) := equiv_tMap heps ih hwt
    cases t with
    | tapp a s tl ty =>
      simp only [equSimp, equSimpList_eq]
      rw [tMap] at hmap
      split
      · next t1 t2 heq =>
          rw [heq] at hmap
          split_ifs with hs
          · subst hs
            rw [equiv_tAttrCopy]
            obtain ⟨rfl, u1, u2, tye, hu, h1, h2, w1, w2⟩ := wt_psEqu hmap.wt
            obtain ⟨rfl, rfl⟩ : t1 = u1 ∧ t2 = u2 := by simpa using hu
            have hequ : I.Equiv (.tapp a psEqu tl none) (tEqu t1 t2) := equiv_setAttrs.mpr hmap
            exact hequ.trans (equiv_tEquSimp hlit h1 h2 w1 w2)
          · exact hmap
      · exact hmap
    | tcase a t bl =>
      rw [equSimp, equSimpBranches_eq]
      exact hmap
    | tquant a q vl trl f =>
      rw [equSimp, equSimpTriggers_eq]
      exact hmap
    | tbinop a op f g =>
      rw [equSimp, equiv_tAttrCopy]
      exact equiv_equBinop (ih f (by simp [children]) hwt.2.2.1)
        (ih g (by simp [children]) hwt.2.2.2) hwt
    | _ => exact hmap

/-! ## Quantifiers as valuations -/

/-- The truth value is the one of the sign. -/
def Sat (sign : Bool) (p : Prop) : Prop := if sign then p else ¬ p

/-- The valuations agree outside the variables. -/
def AgreeOff (vl : List VSymbol) (ρ ρ' : I.Env) : Prop := ∀ v, v ∉ vl → ρ' v = ρ v

theorem agreeOff_cons {v : VSymbol} {ρ ρ' : I.Env} :
    AgreeOff (v :: vl) ρ ρ' ↔ ∃ d, AgreeOff vl (update ρ v d) ρ' := by
  constructor
  · intro h
    refine ⟨ρ' v, fun w hw => ?_⟩
    by_cases hwv : w = v
    · subst hwv
      rw [update_self]
    · rw [update_of_ne hwv]
      exact h w (by simp [hwv, hw])
  · rintro ⟨d, h⟩ w hw
    rw [mem_cons, not_or] at hw
    rw [h w hw.2, update_of_ne hw.1]

/-- A quantifier and its sign: some values of the variables give the body the
truth value of the sign. -/
theorem sat_quant {q : Quant} {P : I.Env → Prop} : ∀ {ρ : I.Env},
    I.Typed ρ → (Sat (decide (q = .texists)) (I.quant q vl P ρ) ↔
      ∃ ρ', I.Typed ρ' ∧ AgreeOff vl ρ ρ' ∧ Sat (decide (q = .texists)) (P ρ')) := by
  induction vl with
  | nil =>
    intro ρ hρ
    have hquant : I.quant q [] P ρ ↔ P ρ := by cases q <;> exact .rfl
    rw [hquant]
    constructor
    · exact fun h => ⟨ρ, hρ, fun _ _ => rfl, h⟩
    · rintro ⟨ρ', _, hag, h⟩
      obtain rfl : ρ' = ρ := funext fun v => hag v not_mem_nil
      exact h
  | cons v vl ih =>
    intro ρ hρ
    have hstep : Sat (decide (q = .texists)) (I.quant q (v :: vl) P ρ) ↔
        ∃ d, I.mem v.vsTy d ∧
          Sat (decide (q = .texists)) (I.quant q vl P (update ρ v d)) := by
      cases q with
      | tforall | texists => simp [Sat, Interp.quant]
    rw [hstep]
    constructor
    · rintro ⟨d, hd, h⟩
      obtain ⟨ρ', hρ', hag, h⟩ := (ih (Interp.typed_update hρ hd)).mp h
      exact ⟨ρ', hρ', agreeOff_cons.mpr ⟨d, hag⟩, h⟩
    · rintro ⟨ρ', hρ', hag, h⟩
      have hag' : AgreeOff vl (update ρ v (ρ' v)) ρ' := by
        intro w hw
        by_cases hwv : w = v
        · subst hwv
          rw [update_self]
        · rw [update_of_ne hwv]
          exact hag w (by simp [hwv, hw])
      exact ⟨ρ' v, hρ' v, (ih (Interp.typed_update hρ (hρ' v))).mpr ⟨ρ', hρ', hag', h⟩⟩

/-- Any sign: some values of the variables give the body the truth value of the
quantified formula. -/
theorem exists_sat {q : Quant} {P : I.Env → Prop} {ρ : I.Env} (hρ : I.Typed ρ)
    (h : Sat sign (I.quant q vl P ρ)) : ∃ ρ', I.Typed ρ' ∧ AgreeOff vl ρ ρ' ∧ Sat sign (P ρ') := by
  by_cases hs : sign = decide (q = .texists)
  · subst hs
    exact (sat_quant hρ).mp h
  · -- the body has the truth value everywhere
    by_contra hno
    push Not at hno
    have hs' : decide (q = .texists) = !sign := by
      cases sign <;> cases hq : decide (q = Quant.texists) <;> simp_all
    have hflip : ∀ p, Sat (!sign) p ↔ ¬ Sat sign p := by
      intro p
      cases sign <;> simp [Sat]
    have hdefault : Sat (!sign) (I.quant q vl P ρ) := by
      rw [← hs', sat_quant hρ]
      rw [hs']
      exact ⟨ρ, hρ, fun _ _ => rfl, (hflip _).mpr (hno ρ hρ (fun _ _ => rfl))⟩
    exact (hflip _).mp hdefault h

/-! ## The equation that is found -/

/-- The variable must be equal to the term, which does not use bound variables. -/
structure Found (I : Interp sig) (boundvars : List VSymbol) (var : VSymbol) (sign : Bool)
    (f t : Term) : Prop where
  wt : t.Wt sig
  ty : t.tTy = some var.vsTy
  notBound : ∀ w ∈ t.freeVars, w ∉ boundvars
  eq : ∀ {ρ : I.Env}, I.Typed ρ → Sat sign (I.Holds ρ f) → ρ var = I.eval ρ t

theorem found_of_test {vs : VSymbol} {ls : LSymbol} {tv : Term}
    (h : test boundvars var sign ls vs t tv = true) (hwt : t.Wt sig) (hty : t.tTy = some vs.vsTy)
    (hf : ∀ {ρ : I.Env}, ls = psEqu → I.Holds ρ f → ρ vs = I.eval ρ t) :
    Found I boundvars var sign f t := by
  simp only [test, tBoundvarsIn, Bool.and_eq_true, decide_eq_true_eq, Bool.not_eq_true',
    any_eq_false] at h
  obtain ⟨rfl, hls, rfl, _, hbound⟩ := h
  refine ⟨hwt, hty, fun w hw => by simpa using hbound w hw, fun _ hsat => ?_⟩
  exact hf hls (by simpa [Sat] using hsat)

theorem found_equSubst {a : Sattr} {ls : LSymbol} {tl : List Term} {ty : Option Ty}
    (hwt : (tapp a ls tl ty).Wt sig) (h : equSubst boundvars var sign ls tl = some t) :
    Found I boundvars var sign (.tapp a ls tl ty) t := by
  -- the symbol is the equality, or the test fails
  have hls : ls = psEqu := by
    by_contra hne
    have htest : ∀ vs u tv, test boundvars var sign ls vs u tv = false := by
      intro vs u tv
      simp [test, hne]
    unfold equSubst at h
    simp only [htest] at h
    split at h
    · split at h <;> simp at h
    · cases h
  subst hls
  obtain ⟨rfl, t1, t2, tye, rfl, h1, h2, w1, w2⟩ := wt_psEqu hwt
  -- the variable on the left, or the one on the right
  have hleft : ∀ {a1 v1}, t1 = .tvar a1 v1 →
      test boundvars var sign psEqu v1 t2 (.tvar a1 v1) = true →
      Found I boundvars var sign (.tapp a psEqu [t1, t2] none) t2 := by
    rintro a1 v1 rfl htest
    have hty : some v1.vsTy = some tye := h1
    refine found_of_test htest w2 (h2.trans hty.symm) (fun {ρ} _ hρ => ?_)
    exact (I.holds_equ ρ a _ t2 none).mp hρ
  have hright : ∀ {a2 v2}, t2 = .tvar a2 v2 →
      test boundvars var sign psEqu v2 t1 (.tvar a2 v2) = true →
      Found I boundvars var sign (.tapp a psEqu [t1, t2] none) t1 := by
    rintro a2 v2 rfl htest
    have hty : some v2.vsTy = some tye := h2
    refine found_of_test htest w1 (h1.trans hty.symm) (fun {ρ} _ hρ => ?_)
    exact ((I.holds_equ ρ a t1 _ none).mp hρ).symm
  unfold equSubst at h
  simp only at h
  split at h
  · next a1 v1 a2 v2 =>
      split_ifs at h with htest htest'
      · cases h
        exact hleft rfl htest
      · cases h
        exact hright rfl htest'
  · next a1 v1 _ =>
      split_ifs at h with htest
      cases h
      exact hleft rfl htest
  · next a2 v2 _ =>
      split_ifs at h with htest
      cases h
      exact hright rfl htest
  · cases h

theorem Found.of_binder
    (h : Found I (vl ++ boundvars) var sign g t) (hvar : var ∉ vl)
    (hstep : ∀ {ρ : I.Env}, I.Typed ρ → Sat sign (I.Holds ρ f) →
      ∃ ρ', I.Typed ρ' ∧ AgreeOff vl ρ ρ' ∧ Sat sign (I.Holds ρ' g)) :
    Found I boundvars var sign f t := by
  refine ⟨h.wt, h.ty, fun w hw hmem => h.notBound w hw (mem_append_right _ hmem), ?_⟩
  intro ρ hρ hsat
  obtain ⟨ρ', hρ', hag, hsat'⟩ := hstep hρ hsat
  rw [← hag var hvar, h.eq hρ' hsat']
  exact Interp.eval_congr h.wt (fun w hw =>
    hag w (fun hmem => h.notBound w hw (mem_append_left _ hmem)))

theorem Found.of_imp {sign' : Bool} (h : Found I boundvars var sign' g t)
    (hstep : ∀ {ρ : I.Env}, Sat sign (I.Holds ρ f) → Sat sign' (I.Holds ρ g)) :
    Found I boundvars var sign f t :=
  ⟨h.wt, h.ty, h.notBound, fun hρ hsat => h.eq hρ (hstep hsat)⟩

theorem found_of_findSubst : ∀ {boundvars : List VSymbol} {var : VSymbol} {sign : Bool}
    {t : Term}, f.Wt sig → fmlaFindSubst boundvars var sign f = some t →
      Found I boundvars var sign f t := by
  induction f with
  | tapp a ls tl ty _ =>
    intro boundvars var sign t hwt h
    rw [fmlaFindSubst] at h
    exact found_equSubst hwt h
  | tbinop a op f1 f2 ih1 ih2 =>
    intro boundvars var sign t hwt h
    obtain ⟨_, _, w1, w2⟩ := hwt
    cases op with
    | tand | tor | timplies =>
      simp only [fmlaFindSubst] at h
      split_ifs at h with hs
      rw [Option.or_eq_some_iff] at h
      rcases h with h | ⟨_, h⟩
      · exact (ih1 w1 h).of_imp (fun hsat => by simp_all [Sat, tr])
      · exact (ih2 w2 h).of_imp (fun hsat => by simp_all [Sat, tr])
    | tiff => simp [fmlaFindSubst] at h
  | tnot a f ih =>
    intro boundvars var sign t hwt h
    rw [fmlaFindSubst] at h
    refine (ih hwt.2 h).of_imp (fun hsat => ?_)
    cases sign <;> simpa [Sat] using hsat
  | tquant a q vl trl f _ ih =>
    intro boundvars var sign t hwt h
    rw [fmlaFindSubst] at h
    split_ifs at h with hcond
    simp only [Bool.and_eq_true, decide_eq_true_eq] at hcond
    exact (ih hwt.2.2 h).of_binder hcond.2 (fun hρ hsat => exists_sat hρ hsat)
  | tlet a t v f _ ih =>
    intro boundvars var sign u hwt h
    rw [fmlaFindSubst] at h
    split_ifs at h with hne
    have hin : Found I ([v] ++ boundvars) var sign f u := ih hwt.2.2 h
    refine hin.of_binder (by simpa using hne) (fun {ρ} hρ hsat => ?_)
    refine ⟨_, Interp.typed_update hρ (eval_mem hwt.2.1 hwt.1 hρ), fun w hw => ?_, hsat⟩
    rw [update_of_ne (by simpa using hw)]
  | _ =>
    intro boundvars var sign t _ h
    simp [fmlaFindSubst] at h

/-! ## Quantified variables -/

theorem sat_iff {sign : Bool} {p q : Prop} : (Sat sign p ↔ Sat sign q) ↔ (p ↔ q) := by
  cases sign with
  | true => simp [Sat]
  | false => simpa [Sat] using not_iff_not

/-- A variable with one possible value is replaced by it. -/
theorem quant_found {q : Quant} {vs : VSymbol} {vsl : List VSymbol} (hwt : f.Wt sig)
    (hty : f.tTy = none) (h : Found I [vs] vs (decide (q = .texists)) f t) {ρ : I.Env}
    (hρ : I.Typed ρ) : I.quant q vsl (fun ρ => I.Holds ρ (tSubstSingle vs t f)) ρ ↔
      I.quant q (vs :: vsl) (fun ρ => I.Holds ρ f) ρ := by
  have hsubst : ∀ ρ : I.Env, I.Holds ρ (tSubstSingle vs t f) ↔
      I.Holds (update ρ vs (I.eval ρ t)) f :=
    fun ρ => (I.sem_tSubstSingle h.wt h.ty hwt ρ).2 hty
  have hvs : vs ∉ t.freeVars := fun hmem => h.notBound vs hmem (mem_singleton_self vs)
  -- the variable plays no part in the term
  have hev : ∀ (ρ : I.Env) d, I.eval (update ρ vs d) t = I.eval ρ t := by
    intro ρ d
    refine Interp.eval_congr h.wt (fun w hw => ?_)
    rw [update_of_ne]
    rintro rfl
    exact hvs hw
  rw [← @sat_iff (decide (q = .texists)), sat_quant hρ, sat_quant hρ]
  constructor
  · rintro ⟨ρ', hρ', hag, hsat⟩
    refine ⟨update ρ' vs (I.eval ρ' t),
      Interp.typed_update hρ' (eval_mem h.wt h.ty hρ'), ?_, ?_⟩
    · intro w hw
      rw [mem_cons, not_or] at hw
      rw [update_of_ne hw.1]
      exact hag w hw.2
    · rwa [← hsubst]
  · rintro ⟨ρ', hρ', hag, hsat⟩
    refine ⟨update ρ' vs (ρ vs), Interp.typed_update hρ' (hρ vs), ?_, ?_⟩
    · intro w hw
      by_cases hwv : w = vs
      · subst hwv
        rw [update_self]
      · rw [update_of_ne hwv]
        exact hag w (by simp [hwv, hw])
    · have heq := h.eq hρ' hsat
      rw [hsubst, hev, update_idem, ← heq, update_eq_self]
      exact hsat

/-- The formula `g` under the variables `vsl` means the same as `f` under `vl`. -/
def QuantAs (I : Interp sig) (q : Quant) (vl : List VSymbol) (f : Term) (vsl : List VSymbol)
    (g : Term) : Prop :=
  g.Wt sig ∧ g.tTy = none ∧ ∀ {ρ : I.Env}, I.Typed ρ →
    (I.quant q vsl (fun ρ => I.Holds ρ g) ρ ↔ I.quant q vl (fun ρ => I.Holds ρ f) ρ)

section QuantAs

variable {q : Quant} {vs : VSymbol} {vl wsl : List VSymbol} {f f₁ : Term}

theorem QuantAs.keep (h : QuantAs I q vl f wsl f₁) : QuantAs I q (vs :: vl) f (vs :: wsl) f₁ := by
  refine ⟨h.1, h.2.1, fun {ρ} hρ => ?_⟩
  cases q with
  | tforall =>
    exact forall_congr' fun d => imp_congr_right fun hd => h.2.2 (Interp.typed_update hρ hd)
  | texists =>
    exact exists_congr fun d => and_congr_right fun hd => h.2.2 (Interp.typed_update hρ hd)

theorem QuantAs.unused (h : QuantAs I q vl f wsl f₁) (hocc : vs ∉ f₁.freeVars) :
    QuantAs I q (vs :: vl) f wsl f₁ :=
  ⟨h.1, h.2.1, fun {ρ} hρ => (quant_unused h.1 hocc ρ).trans (h.keep.2.2 hρ)⟩

/-- Whatever stands for the body where the variable is replaced. -/
theorem QuantAs.found (h : QuantAs I q vl f wsl f₁)
    (hfound : Found I [vs] vs (decide (q = .texists)) f₁ t)
    (hg : I.Equiv (tSubstSingle vs t f₁) g) : QuantAs I q (vs :: vl) f wsl g := by
  have hty := (tTy_tSubstSingle (t := f₁) hfound.wt hfound.ty).trans h.2.1
  refine ⟨hg.wt, hg.ty.trans hty, fun {ρ} hρ => ?_⟩
  have hbody : ∀ ρ, I.Typed ρ → (I.Holds ρ g ↔ I.Holds ρ (tSubstSingle vs t f₁)) :=
    fun ρ hρ => hg.tr hρ hty
  exact (quant_typed hbody hρ).trans ((quant_found h.1 h.2.1 hfound hρ).trans (h.keep.2.2 hρ))

end QuantAs

end SimplifyFormula

end Why3
