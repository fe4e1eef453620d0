import Why3.Core.TermSimp

/-!
# Equations on unused names

`remove_unused_in_term` of `core/term.ml`: an equation whose left side is a name
marked with `unused_attr` becomes false where the formula has to be proved and
true where it is assumed.  `unused` says which names are marked.
-/

namespace Why3

open List Function Term

variable {K : List VSymbol} {f f' t t' : Term} {g : Term → Term} {v : VSymbol}

section Code

variable (unused : ℕ → Bool)

/-- An equation with a marked variable or constant on its left. -/
def markedEqu (ls : LSymbol) : List Term → Bool
  | [.tvar _ v, _] => decide (ls = psEqu) && unused v.vsName
  | [.tapp _ s [] _, _] => decide (ls = psEqu) && unused s.lsName
  | _ => false

/-- `remove_unused_in_term`. -/
def removeUnusedInTerm (polarity : Bool) (t : Term) : Term :=
  tAttrCopy t (match t with
  | .tbinop _ .timplies t1 t2 =>
    tImpliesSimp (removeUnusedInTerm (!polarity) t1) (removeUnusedInTerm polarity t2)
  | .tbinop _ .tiff t1 t2 =>
    let t1p := removeUnusedInTerm polarity t1
    let t1n := removeUnusedInTerm (!polarity) t1
    let t2p := removeUnusedInTerm polarity t2
    let t2n := removeUnusedInTerm (!polarity) t2
    if tEqual t1p t1n && tEqual t2p t2n then tIffSimp t1p t2p
    else if polarity then tAndSimp (tImpliesSimp t1n t2p) (tImpliesSimp t2n t1p)
    else tImpliesSimp (tOrSimp t1n t2n) (tAndSimp t1p t2p)
  | .tnot _ t1 => tNotSimp (removeUnusedInTerm (!polarity) t1)
  | .tlet _ e vs t1 =>
    let t1 := tMapSimp unused t1 (fun u _ => removeUnusedInTerm polarity u)
    if unused vs.vsName then t1 else tLetSimpKeepVar unused true e vs t1
  | .tapp a ls tl ty =>
    if markedEqu unused ls tl then (if polarity then .tfalse [] else .ttrue [])
    else tMapSimp unused (.tapp a ls tl ty) (fun u _ => removeUnusedInTerm polarity u)
  | .tif _ t1 t2 t3 =>
    if t.tTy = none then
      let t1p := removeUnusedInTerm polarity t1
      let t1n := removeUnusedInTerm (!polarity) t1
      let t2 := removeUnusedInTerm polarity t2
      let t3 := removeUnusedInTerm polarity t3
      if tEqual t1p t1n then tIfSimp t1p t2 t3
      else if polarity then tAndSimp (tImpliesSimp t1n t2) (tImpliesSimp (tNotSimp t1p) t3)
      else tOrSimp (tAndSimp t1p t2) (tAndSimp (tNotSimp t1n) t3)
    else t
  | .teps _ _ _ => t
  | t => tMapSimp unused t (fun u _ => removeUnusedInTerm polarity u))
termination_by t
decreasing_by
  all_goals try have := sizeOf_lt_of_mem_children ‹_ ∈ children _›
  all_goals first | assumption | (simp_wf; try omega)

mutual
/-- The variables of a term that remain: those inside of marked equations are
dropped with them.  With `below`, those that remain when the subterms are
treated and the term itself is kept. -/
def keptVars (below : Bool) : Term → List VSymbol
  | .tvar _ v => [v]
  | .tconst _ _ _ | .ttrue _ | .tfalse _ => []
  | .tapp _ ls tl _ => if !below && markedEqu unused ls tl then [] else keptVarsList tl
  | .tif a f t1 t2 =>
    if !below && t2.tTy.isSome then (tif a f t1 t2).freeVars
    else keptVars false f ++ keptVars false t1 ++ keptVars false t2
  | .tlet _ e v t =>
    if below then keptVars false e ++ (keptVars false t).filter (· ≠ v)
    else if unused v.vsName then keptVars true t
    else e.freeVars ++ (keptVars true t).filter (· ≠ v)
  | .tcase _ t bl => keptVars false t ++ keptVarsBranches bl
  | .teps a v f =>
    if below then (keptVars false f).filter (· ≠ v) else (teps a v f).freeVars
  | .tquant _ _ vl _ f => (keptVars false f).filter (· ∉ vl)
  | .tbinop _ _ f g => keptVars false f ++ keptVars false g
  | .tnot _ f => keptVars false f
def keptVarsList : List Term → List VSymbol
  | [] => []
  | t :: tl => keptVars false t ++ keptVarsList tl
def keptVarsBranches : List (Pattern × Term) → List VSymbol
  | [] => []
  | (p, t) :: bl => (keptVars false t).filter (· ∉ p.patVars) ++ keptVarsBranches bl
end

attribute [grind =] keptVars keptVarsList keptVarsBranches

mutual
/-- The bindings are harmless: a marked variable occurs in removed equations
only, and no equation is removed on the wrong side of a connective that stands
right below a binding.  With `ex`, no equation is removed at all; with
`below`, the term stands right below a binding. -/
def letsOk (below ex : Bool) : Term → Bool
  | .tvar _ _ | .tconst _ _ _ | .ttrue _ | .tfalse _ => true
  | .tapp _ ls tl _ => if !below && markedEqu unused ls tl then !ex else letsOkList ex tl
  | .tif _ f t1 t2 =>
    if below then letsOk false true f && letsOk false ex t1 && letsOk false ex t2
    else if t2.tTy.isSome then true
    else letsOk false ex f && letsOk false ex t1 && letsOk false ex t2
  | .tlet _ e v t =>
    if below then letsOk false ex e && letsOk false ex t
    else (!unused v.vsName || decide (v ∉ keptVars unused true t)) && letsOk true ex t
  | .tcase _ t bl => letsOk false ex t && letsOkBranches ex bl
  | .teps _ _ f => !below || letsOk false true f
  | .tquant _ _ _ _ f => letsOk false ex f
  | .tbinop _ .timplies f g => letsOk false (ex || below) f && letsOk false ex g
  | .tbinop _ .tiff f g => letsOk false (ex || below) f && letsOk false (ex || below) g
  | .tbinop _ _ f g => letsOk false ex f && letsOk false ex g
  | .tnot _ f => letsOk false (ex || below) f
def letsOkList (ex : Bool) : List Term → Bool
  | [] => true
  | t :: tl => letsOk false ex t && letsOkList ex tl
def letsOkBranches (ex : Bool) : List (Pattern × Term) → Bool
  | [] => true
  | (_, t) :: bl => letsOk false ex t && letsOkBranches ex bl
end

attribute [grind =] letsOk letsOkList letsOkBranches

@[simp] theorem keptVarsList_eq (tl : List Term) :
    keptVarsList unused tl = tl.flatMap (keptVars unused false) := by
  induction tl with
  | nil => rfl
  | cons t tl ih => rw [keptVarsList, ih, flatMap_cons]

@[simp] theorem keptVarsBranches_eq (bl : List (Pattern × Term)) :
    keptVarsBranches unused bl =
      bl.flatMap (fun b => (keptVars unused false b.2).filter (· ∉ b.1.patVars)) := by
  induction bl with
  | nil => rfl
  | cons b bl ih =>
    obtain ⟨p, t⟩ := b
    rw [keptVarsBranches, ih, flatMap_cons]

@[simp] theorem letsOkList_iff (ex : Bool) (tl : List Term) :
    letsOkList unused ex tl = true ↔ ∀ t ∈ tl, letsOk unused false ex t = true := by
  induction tl with
  | nil => simp [letsOkList]
  | cons t tl ih => simp [letsOkList, ih]

@[simp] theorem letsOkBranches_iff (ex : Bool) (bl : List (Pattern × Term)) :
    letsOkBranches unused ex bl = true ↔ ∀ b ∈ bl, letsOk unused false ex b.2 = true := by
  induction bl with
  | nil => simp [letsOkBranches]
  | cons b bl ih =>
    obtain ⟨p, t⟩ := b
    simp [letsOkBranches, ih]

end Code

/-! ## Polarity -/

/-- The truth of `p'` in the place of `p`: stronger where it has to be proved,
weaker where it is assumed, and with `ex` the same. -/
structure Polar (ex pol : Bool) (p p' : Prop) : Prop where
  strong : (pol || ex) = true → p' → p
  weak : (!pol || ex) = true → p → p'

namespace Polar

variable {ex pol : Bool} {p p' q q' : Prop}

theorem of_iff (h : p' ↔ p) : Polar ex pol p p' := ⟨fun _ => h.mp, fun _ => h.mpr⟩

theorem iff (h : Polar true pol p p') : p' ↔ p :=
  ⟨h.strong (Bool.or_true _), h.weak (Bool.or_true _)⟩

theorem iff_of_both (h : Polar ex pol p p') (h' : Polar ex (!pol) p p') : p' ↔ p := by
  cases pol with
  | false => exact ⟨h'.strong rfl, h.weak rfl⟩
  | true => exact ⟨h.strong rfl, h'.weak rfl⟩

theorem congr {p₁ p₁' : Prop} (h : Polar ex pol p p') (hp : p ↔ p₁) (hp' : p' ↔ p₁') :
    Polar ex pol p₁ p₁' :=
  ⟨fun hs h₁ => hp.mp (h.strong hs (hp'.mpr h₁)), fun hw h₁ => hp'.mp (h.weak hw (hp.mpr h₁))⟩

theorem not (h : Polar ex (!pol) p p') : Polar ex pol (¬ p) (¬ p') := by
  refine ⟨fun hs hp' hp => hp' (h.weak ?_ hp), fun hw hp hp' => hp (h.strong hw hp')⟩
  simpa using hs

theorem and (h : Polar ex pol p p') (h' : Polar ex pol q q') :
    Polar ex pol (p ∧ q) (p' ∧ q') :=
  ⟨fun hs => And.imp (h.strong hs) (h'.strong hs), fun hw => And.imp (h.weak hw) (h'.weak hw)⟩

theorem or (h : Polar ex pol p p') (h' : Polar ex pol q q') :
    Polar ex pol (p ∨ q) (p' ∨ q') :=
  ⟨fun hs => Or.imp (h.strong hs) (h'.strong hs), fun hw => Or.imp (h.weak hw) (h'.weak hw)⟩

theorem imp (h : Polar ex (!pol) p p') (h' : Polar ex pol q q') :
    Polar ex pol (p → q) (p' → q') := by
  refine ⟨fun hs hpq hp => h'.strong hs (hpq (h.weak ?_ hp)), fun hw hpq hp' =>
    h'.weak hw (hpq (h.strong hw hp'))⟩
  simpa using hs

theorem ite {c c' : Prop} (hc : c' ↔ c) (h : Polar ex pol p p') (h' : Polar ex pol q q') :
    Polar ex pol ((c → p) ∧ (¬ c → q)) ((c' → p') ∧ (¬ c' → q')) :=
  (imp (of_iff hc) h).and (imp (of_iff (not_congr hc)) h')

end Polar

/-! ## One step of the traversal -/

variable {a : Sattr}

namespace Interp

variable {sig : TySymbol → List LSymbol} {I : Interp sig} {ex pol : Bool}

/-- The same value, and for a formula a truth that may stand for the other. -/
def DenPolar (ex pol : Bool) (o : Option Ty) (r r' : Den I.Val) : Prop :=
  (o ≠ none → r'.val = r.val) ∧ (o = none → Polar ex pol r.tr r'.tr)

/-- The term `t'` stands for `t`, whatever the valuation gives to the variables
outside of `K`. -/
def Sim (I : Interp sig) (K : List VSymbol) (ex pol : Bool) (t t' : Term) : Prop :=
  ∀ ⦃ρ ρ' : I.Env⦄, I.Typed ρ → I.Typed ρ' → (∀ v ∈ K, ρ v = ρ' v) →
    DenPolar ex pol t.tTy (I.sem t ρ) (I.sem t' ρ')

theorem DenPolar.of_eq {o : Option Ty} {r r' : Den I.Val} (h : r' = r) : DenPolar ex pol o r r' :=
  ⟨fun _ => by rw [h], fun _ => .of_iff (by rw [h])⟩

theorem DenPolar.of_formula {r r' : Den I.Val} (h : Polar ex pol r.tr r'.tr) :
    DenPolar ex pol none r r' :=
  ⟨fun hne => absurd rfl hne, fun _ => h⟩

theorem Sim.value (h : I.Sim K ex pol t t') (hty : t.tTy ≠ none) {ρ ρ' : I.Env} (hρ : I.Typed ρ)
    (hρ' : I.Typed ρ') (hK : ∀ v ∈ K, ρ v = ρ' v) : I.eval ρ' t' = I.eval ρ t :=
  (h hρ hρ' hK).1 hty

theorem Sim.polar (h : I.Sim K ex pol t t') (hty : t.tTy = none) {ρ ρ' : I.Env} (hρ : I.Typed ρ)
    (hρ' : I.Typed ρ') (hK : ∀ v ∈ K, ρ v = ρ' v) : Polar ex pol (I.Holds ρ t) (I.Holds ρ' t') :=
  (h hρ hρ' hK).2 hty

/-- A term stands for itself, and depends on its free variables. -/
theorem Sim.refl (hwt : t.Wt sig) : I.Sim t.freeVars ex pol t t :=
  fun _ _ _ _ hK => .of_eq (sem_congr hwt (fun v hv => (hK v hv).symm))

theorem Sim.trans_equiv {t'' : Term} (h : I.Sim K ex pol t t') (hty : t'.tTy = t.tTy)
    (h' : I.Equiv t' t'') : I.Sim K ex pol t t'' := by
  intro ρ ρ' hρ hρ' hK
  refine ⟨fun hne => ?_, fun hnone => ?_⟩
  · exact (h'.val hρ' (by rwa [hty])).trans (h.value hne hρ hρ' hK)
  · exact (h.polar hnone hρ hρ' hK).congr .rfl (h'.tr hρ' (by rwa [hty])).symm

theorem quant_polar {q : Quant} {P P' : I.Env → Prop} {vl : List VSymbol}
    (h : ∀ {ρ ρ' : I.Env}, I.Typed ρ → I.Typed ρ' → (∀ v ∈ K, ρ v = ρ' v) →
      Polar ex pol (P ρ) (P' ρ')) :
    ∀ {ρ ρ' : I.Env}, I.Typed ρ → I.Typed ρ' → (∀ v ∈ K, v ∉ vl → ρ v = ρ' v) →
      Polar ex pol (I.quant q vl P ρ) (I.quant q vl P' ρ') := by
  induction vl with
  | nil =>
    intro ρ ρ' hρ hρ' hK
    cases q <;> exact h hρ hρ' (fun v hv => hK v hv not_mem_nil)
  | cons w vl ih =>
    intro ρ ρ' hρ hρ' hK
    have hstep : ∀ d, I.mem w.vsTy d →
        Polar ex pol (I.quant q vl P (update ρ w d))
          (I.quant q vl P' (update ρ' w d)) := by
      intro d hd
      refine ih (typed_update hρ hd) (typed_update hρ' hd) (fun v hv hvl => ?_)
      exact update_agree rfl (fun hvw => hK v hv (by simp [hvw, hvl]))
    cases q with
    | tforall =>
      exact ⟨fun hs hq d hd => (hstep d hd).strong hs (hq d hd),
        fun hw hq d hd => (hstep d hd).weak hw (hq d hd)⟩
    | texists =>
      exact ⟨fun hs ⟨d, hd, hq⟩ => ⟨d, hd, (hstep d hd).strong hs hq⟩,
        fun hw ⟨d, hd, hq⟩ => ⟨d, hd, (hstep d hd).weak hw hq⟩⟩

section Step

variable {unused : ℕ → Bool}

theorem sim_tapp {s : LSymbol} {tl : List Term} {ty : Option Ty}
    {K : Term → List VSymbol} (h : ∀ t ∈ tl, I.Sim (K t) ex pol t (g t))
    (htys : ∀ t ∈ tl, (g t).tTy = t.tTy) (hwt : (tapp a s tl ty).Wt sig) :
    I.Sim (tl.flatMap K) ex pol (.tapp a s tl ty) (.tapp a s (tl.map g) ty) := by
  intro ρ ρ' hρ hρ' hK
  simp only [Wt] at hwt
  obtain ⟨m, hm, _⟩ := hwt.1
  have hvals : (tl.map g).map (I.eval ρ') = tl.map (I.eval ρ) := by
    rw [map_map]
    refine map_congr_left (fun t ht => ?_)
    refine (h t ht).value (fun hnone => ?_) hρ hρ' (fun v hv => hK v ?_)
    · -- the arguments of a symbol are terms
      have hmem : t.tTy ∈ tl.map tTy := mem_map_of_mem ht
      rw [hm, hnone] at hmem
      simp at hmem
    · exact mem_flatMap.mpr ⟨t, ht, hv⟩
  have htys' : (tl.map g).map tTy = tl.map tTy := by
    rw [map_map]
    exact map_congr_left htys
  apply DenPolar.of_eq
  rw [sem_tapp, sem_tapp, hvals, htys']

theorem sim_tif {t1 t2 t1' t2' : Term} {Kf K1 K2 : List VSymbol} {pol' : Bool}
    (hf : I.Sim Kf true pol' f f') (h1 : I.Sim K1 ex pol t1 t1') (h2 : I.Sim K2 ex pol t2 t2')
    (hwt : (tif a f t1 t2).Wt sig) :
    I.Sim (Kf ++ K1 ++ K2) ex pol (.tif a f t1 t2) (.tif a f' t1' t2') := by
  intro ρ ρ' hρ hρ' hK
  simp only [mem_append] at hK
  have hcond : I.Holds ρ' f' ↔ I.Holds ρ f :=
    (hf.polar hwt.1 hρ hρ' (fun v hv => hK v (.inl (.inl hv)))).iff
  rw [sem_tif, sem_tif]
  by_cases hc : I.Holds ρ f
  · rw [if_pos hc, if_pos (hcond.mpr hc)]
    show DenPolar ex pol t2.tTy _ _
    rw [← hwt.2.1]
    exact h1 hρ hρ' (fun v hv => hK v (.inl (.inr hv)))
  · rw [if_neg hc, if_neg (fun h => hc (hcond.mp h))]
    exact h2 hρ hρ' (fun v hv => hK v (.inr hv))

theorem sim_tlet {e e' : Term} {Kt Ke : List VSymbol} {a' : Sattr}
    (ht : I.Sim Kt ex pol t t') (he : I.Sim Ke ex pol e e') (hwt : (tlet a t v e).Wt sig) :
    I.Sim (Kt ++ Ke.filter (· ≠ v)) ex pol (.tlet a t v e) (.tlet a' t' v e') := by
  intro ρ ρ' hρ hρ' hK
  obtain ⟨htv, hwtt, _⟩ := hwt
  simp only [mem_append, mem_filter, decide_eq_true_eq] at hK
  have hval : I.eval ρ' t' = I.eval ρ t :=
    ht.value (by rw [htv]; exact Option.some_ne_none _) hρ hρ' (fun w hw => hK w (.inl hw))
  have hmem := eval_mem hwtt htv hρ
  rw [sem_tlet, sem_tlet, hval]
  refine he (typed_update hρ hmem) (typed_update hρ' hmem) (fun w hw => ?_)
  exact update_agree rfl (fun hwv => hK w (.inr ⟨hw, hwv⟩))

theorem sim_tcase {bl : List (Pattern × Term)} {Kt : List VSymbol}
    {K : Term → List VSymbol} (ht : I.Sim Kt ex pol t t')
    (hb : ∀ b ∈ bl, I.Sim (K b.2) ex pol b.2 (g b.2)) (hwt : (tcase a t bl).Wt sig) :
    I.Sim (Kt ++ bl.flatMap (fun b => (K b.2).filter (· ∉ b.1.patVars))) ex pol (.tcase a t bl)
      (.tcase a t' (bl.map (fun b => (b.1, g b.2)))) := by
  intro ρ ρ' hρ hρ' hK
  simp only [Wt, wtBranches_iff] at hwt
  obtain ⟨hne, hwtt, hbl⟩ := hwt
  simp only [mem_append, mem_flatMap, mem_filter, decide_eq_true_eq] at hK
  have hval : I.eval ρ' t' = I.eval ρ t := by
    refine ht.value (fun hnone => ?_) hρ hρ' (fun w hw => hK w (.inl hw))
    obtain ⟨b, hmem⟩ := exists_mem_of_ne_nil bl hne
    rw [hnone] at hbl
    exact absurd (hbl b hmem).1 (Option.some_ne_none _)
  rw [sem_tcase, sem_tcase, hval, map_map]
  refine I.branches_sim (S := DenPolar ex pol (tcase a t bl).tTy) ?_ (.of_eq rfl)
  rw [forall₂_map_left_iff, forall₂_map_right_iff, forall₂_same]
  intro b hmem
  obtain ⟨hpty, hok, hlin, hbty, _⟩ := hbl b hmem
  -- the two valuations give the variables of the pattern the same values
  have hbody : ∀ bs : List (VSymbol × I.Val), (∀ b ∈ bs, I.mem b.1.vsTy b.2) →
      (∀ v, v ∈ b.1.patVars → v ∈ bs.map Prod.fst) →
      DenPolar ex pol (tcase a t bl).tTy (I.sem b.2 (bindAll ρ bs))
        (I.sem (g b.2) (bindAll ρ' bs)) := by
    intro bs hbs hvars
    rw [← hbty]
    refine hb b hmem (typed_bindAll hρ hbs) (typed_bindAll hρ' hbs) (fun v hv => ?_)
    exact bindAll_agree (fun hnv => hK v (.inr ⟨b, hmem, hv, fun hp => hnv (hvars v hp)⟩))
  refine ⟨.rfl, fun bs bs' hm hm' => ?_, ?_⟩
  · simp only [Function.comp] at hm'
    rw [hm, Option.some.injEq] at hm'
    subst hm'
    exact hbody bs (matchPat_mem hok (eval_mem hwtt hpty.symm hρ) hm)
      (fun v => (Pattern.matchPat_keys I.dest hok hm v).mpr)
  · refine hbody _ (fun c hc => ?_) (fun v hv => by simpa [dfltVars] using hv)
    obtain ⟨v, _, rfl⟩ := mem_map.mp hc
    exact dflt_mem v.vsTy

theorem sim_teps (heps : I.EpsExt) {pol' : Bool} (hf : I.Sim K true pol' f f')
    (hwt : (teps a v f).Wt sig) : I.Sim (K.filter (· ≠ v)) ex pol (.teps a v f) (.teps a v f') := by
  intro ρ ρ' hρ hρ' hK
  simp only [mem_filter, decide_eq_true_eq] at hK
  apply DenPolar.of_eq
  rw [sem_teps, sem_teps]
  congr 1
  refine heps _ _ _ (fun d hd => (hf.polar hwt.1 (typed_update hρ hd) (typed_update hρ' hd) ?_).iff)
  exact fun w hw => update_agree rfl (fun hwv => hK w ⟨hw, hwv⟩)

theorem sim_tquant {q : Quant} {vl : List VSymbol} {trl trl' : List (List Term)}
    (hf : I.Sim K ex pol f f') (hty : f.tTy = none) :
    I.Sim (K.filter (· ∉ vl)) ex pol (.tquant a q vl trl f) (.tquant a q vl trl' f') := by
  intro ρ ρ' hρ hρ' hK
  simp only [mem_filter, decide_eq_true_eq] at hK
  apply DenPolar.of_formula
  exact quant_polar (fun hρ hρ' hK => hf.polar hty hρ hρ' hK) hρ hρ'
    (fun v hv hvl => hK v ⟨hv, hvl⟩)

/-- The meaning of a connective, whose operands are replaced. -/
theorem sim_tbinop {op : Binop} {g g' : Term} {Kf Kg : List VSymbol}
    (h : ∀ ⦃ρ ρ' : I.Env⦄, I.Typed ρ → I.Typed ρ' → (∀ v ∈ Kf, ρ v = ρ' v) →
      (∀ v ∈ Kg, ρ v = ρ' v) → Polar ex pol (op.tr (I.Holds ρ f) (I.Holds ρ g))
        (op.tr (I.Holds ρ' f') (I.Holds ρ' g'))) :
    I.Sim (Kf ++ Kg) ex pol (.tbinop a op f g) (.tbinop a op f' g') := by
  intro ρ ρ' hρ hρ' hK
  simp only [mem_append] at hK
  exact .of_formula (h hρ hρ' (fun v hv => hK v (.inl hv)) (fun v hv => hK v (.inr hv)))

end Step

end Interp

/-! ## Every term -/

namespace Interp

variable {sig : TySymbol → List LSymbol} {I : Interp sig} {unused : ℕ → Bool} {pol : Bool}

/-- What is proved of a term `t` and of what it becomes: the type is kept, and
the meaning if the bindings are harmless. -/
structure Good (I : Interp sig) (unused : ℕ → Bool) (below pol : Bool) (t t' : Term) : Prop where
  wt : t'.Wt sig
  ty : t'.tTy = t.tTy
  sim : ∀ {ex : Bool}, letsOk unused below ex t = true →
    I.Sim (keptVars unused below t) ex pol t t'

theorem Good.trans_equiv {below : Bool} {t'' : Term} (h : I.Good unused below pol t t')
    (h' : I.Equiv t' t'') : I.Good unused below pol t t'' :=
  ⟨h'.wt, h'.ty.trans h.ty, fun hok => (h.sim hok).trans_equiv h.ty h'⟩

theorem Good.attrs {below : Bool} (h : I.Good unused below pol t t') (s : Term) :
    I.Good unused below pol t (tAttrCopy s t') :=
  h.trans_equiv (equiv_tAttrCopy.mpr (.refl h.wt))

/-- Where the term is treated as its subterms are. -/
theorem Good.of_below (h : I.Good unused true pol t t')
    (hok : ∀ ex, letsOk unused false ex t = letsOk unused true ex t)
    (hK : keptVars unused false t = keptVars unused true t) : I.Good unused false pol t t' := by
  refine ⟨h.wt, h.ty, fun {ex} hex => ?_⟩
  rw [hK]
  exact h.sim (by rwa [hok] at hex)

theorem good_tMap (heps : I.EpsExt)
    (h : ∀ u ∈ t.children, u.Wt sig → I.Good unused false pol u (g u)) (hwt : t.Wt sig) :
    I.Good unused true pol t (t.tMap g) := by
  obtain ⟨hwt', hty'⟩ := wt_tMap (fun u hu hwu => ⟨(h u hu hwu).wt, (h u hu hwu).ty⟩) hwt
  refine ⟨hwt', hty', fun {ex} hok => ?_⟩
  cases t with
  | tvar a v =>
    intro ρ ρ' _ _ hK
    have hv : ρ v = ρ' v := hK v (by simp [keptVars])
    exact .of_eq (by simp [Term.tMap, sem, hv])
  | tconst a c ty | ttrue a | tfalse a => exact fun _ _ _ _ _ => .of_eq rfl
  | tapp a s tl ty =>
    have hwtl : ∀ t ∈ tl, t.Wt sig := by simpa only [Wt, wtList_iff] using hwt.2
    have hok' : ∀ t ∈ tl, letsOk unused false ex t = true := by simpa [letsOk] using hok
    have hsim : I.Sim (tl.flatMap (keptVars unused false)) ex pol (.tapp a s tl ty)
        (.tapp a s (tl.map g) ty) :=
      sim_tapp (fun t ht => (h t ht (hwtl t ht)).sim (hok' t ht))
        (fun t ht => (h t ht (hwtl t ht)).ty) hwt
    simpa [keptVars, Term.tMap] using hsim
  | tif a f t1 t2 =>
    obtain ⟨hfty, h12, wf, w1, w2⟩ := hwt
    simp only [letsOk, if_true, Bool.and_eq_true] at hok
    have hsim := sim_tif (a := a) ((h f (by simp [children]) wf).sim hok.1.1)
      ((h t1 (by simp [children]) w1).sim hok.1.2)
      ((h t2 (by simp [children]) w2).sim hok.2) ⟨hfty, h12, wf, w1, w2⟩
    simpa [keptVars, Term.tMap] using hsim
  | tlet a t v e =>
    simp only [letsOk, if_true, Bool.and_eq_true] at hok
    have hsim : I.Sim (keptVars unused false t ++ (keptVars unused false e).filter (· ≠ v)) ex pol
        (.tlet a t v e) (.tlet a (g t) v (g e)) :=
      sim_tlet ((h t (by simp [children]) hwt.2.1).sim hok.1)
        ((h e (by simp [children]) hwt.2.2).sim hok.2) hwt
    simpa [keptVars, Term.tMap] using hsim
  | tcase a t bl =>
    have hwt₀ := hwt
    simp only [Wt, wtBranches_iff] at hwt₀
    simp only [letsOk, Bool.and_eq_true, letsOkBranches_iff] at hok
    have hsim := sim_tcase (K := keptVars unused false) (g := g)
      ((h t mem_cons_self hwt₀.2.1).sim hok.1)
      (fun b hb => (h b.2 (mem_cons_of_mem _ (mem_map_of_mem hb))
        (hwt₀.2.2 b hb).2.2.2.2).sim (hok.2 b hb)) hwt
    simpa [keptVars, Term.tMap] using hsim
  | teps a v f =>
    have hsim : I.Sim ((keptVars unused false f).filter (· ≠ v)) ex pol (.teps a v f)
        (.teps a v (g f)) :=
      sim_teps heps ((h f mem_cons_self hwt.2).sim (by simpa [letsOk] using hok)) hwt
    simpa [keptVars, Term.tMap] using hsim
  | tquant a q vl trl f =>
    have hsim : I.Sim ((keptVars unused false f).filter (· ∉ vl)) ex pol (.tquant a q vl trl f)
        (.tquant a q vl (trl.map (List.map g)) (g f)) :=
      sim_tquant ((h f mem_cons_self hwt.2.2).sim (by simpa [letsOk] using hok)) hwt.1
    simpa [keptVars, Term.tMap] using hsim
  | tbinop a op f1 f2 =>
    have h1 := h f1 (by simp [children]) hwt.2.2.1
    have h2 := h f2 (by simp [children]) hwt.2.2.2
    refine sim_tbinop (fun ρ ρ' hρ hρ' hK1 hK2 => ?_)
    cases op with
    | tand =>
      simp only [letsOk, Bool.and_eq_true] at hok
      exact .and ((h1.sim hok.1).polar hwt.1 hρ hρ' hK1) ((h2.sim hok.2).polar hwt.2.1 hρ hρ' hK2)
    | tor =>
      simp only [letsOk, Bool.and_eq_true] at hok
      exact .or ((h1.sim hok.1).polar hwt.1 hρ hρ' hK1) ((h2.sim hok.2).polar hwt.2.1 hρ hρ' hK2)
    | timplies =>
      simp only [letsOk, Bool.or_true, Bool.and_eq_true] at hok
      exact .imp (.of_iff ((h1.sim hok.1).polar hwt.1 hρ hρ' hK1).iff)
        ((h2.sim hok.2).polar hwt.2.1 hρ hρ' hK2)
    | tiff =>
      simp only [letsOk, Bool.or_true, Bool.and_eq_true] at hok
      exact .of_iff (iff_congr ((h1.sim hok.1).polar hwt.1 hρ hρ' hK1).iff
        ((h2.sim hok.2).polar hwt.2.1 hρ hρ' hK2).iff)
  | tnot a f =>
    intro ρ ρ' hρ hρ' hK
    have hf : I.Sim (keptVars unused false f) true pol f (g f) :=
      (h f mem_cons_self hwt.2).sim (by simpa [letsOk] using hok)
    exact .of_formula (.of_iff (not_congr (hf.polar hwt.1 hρ hρ' hK).iff))

/-! ### The cases of `remove_unused_in_term` -/

section Cases

variable (hlit : I.LitExt) {a : Sattr} {f1 f2 f1p f1n f2p f2n : Term}

include hlit

theorem good_timplies (hwt : (tbinop a .timplies f1 f2).Wt sig)
    (h1 : I.Good unused false (!pol) f1 f1n) (h2 : I.Good unused false pol f2 f2p) :
    I.Good unused false pol (.tbinop a .timplies f1 f2) (tImpliesSimp f1n f2p) := by
  have hty1 : f1n.tTy = none := h1.ty.trans hwt.1
  have hty2 : f2p.tTy = none := h2.ty.trans hwt.2.1
  have hraw : I.Good unused false pol (.tbinop a .timplies f1 f2) (.tbinop [] .timplies f1n f2p) := by
    refine ⟨⟨hty1, hty2, h1.wt, h2.wt⟩, rfl, fun {ex} hok => ?_⟩
    simp only [letsOk, Bool.or_false, Bool.and_eq_true] at hok
    refine sim_tbinop (fun ρ ρ' hρ hρ' hK1 hK2 => ?_)
    exact .imp ((h1.sim hok.1).polar hwt.1 hρ hρ' hK1) ((h2.sim hok.2).polar hwt.2.1 hρ hρ' hK2)
  exact hraw.trans_equiv (equiv_tImpliesSimp hlit h1.wt h2.wt hty1 hty2)

omit hlit in
theorem good_tnot (hwt : (tnot a f1).Wt sig) (h1 : I.Good unused false (!pol) f1 f1n) :
    I.Good unused false pol (.tnot a f1) (tNotSimp f1n) := by
  have hty1 : f1n.tTy = none := h1.ty.trans hwt.1
  have hraw : I.Good unused false pol (.tnot a f1) (.tnot [] f1n) := by
    refine ⟨⟨hty1, h1.wt⟩, rfl, fun {ex} hok ρ ρ' hρ hρ' hK => ?_⟩
    simp only [letsOk, Bool.or_false] at hok
    exact .of_formula (.not ((h1.sim hok).polar hwt.1 hρ hρ' hK))
  exact hraw.trans_equiv (equiv_tNotSimp h1.wt hty1)

theorem iff_of_tEqual {fp fn : Term} {ex : Bool} (hp : fp.Wt sig) (hn : fn.Wt sig)
    (heq : tEqual fp fn = true) (hsp : I.Sim K ex pol f fp) (hsn : I.Sim K ex (!pol) f fn)
    (hty : f.tTy = none) {ρ ρ' : I.Env} (hρ : I.Typed ρ) (hρ' : I.Typed ρ')
    (hK : ∀ v ∈ K, ρ v = ρ' v) : I.Holds ρ' fp ↔ I.Holds ρ f := by
  have hn' := (hsn.polar hty hρ hρ' hK).congr .rfl (I.holds_tEqual hlit hp hn heq ρ').symm
  exact (hsp.polar hty hρ hρ' hK).iff_of_both hn'

theorem good_tiff (hwt : (tbinop a .tiff f1 f2).Wt sig) (h1p : I.Good unused false pol f1 f1p)
    (h1n : I.Good unused false (!pol) f1 f1n) (h2p : I.Good unused false pol f2 f2p)
    (h2n : I.Good unused false (!pol) f2 f2n) :
    I.Good unused false pol (.tbinop a .tiff f1 f2)
      (if tEqual f1p f1n && tEqual f2p f2n then tIffSimp f1p f2p
      else if pol then tAndSimp (tImpliesSimp f1n f2p) (tImpliesSimp f2n f1p)
      else tImpliesSimp (tOrSimp f1n f2n) (tAndSimp f1p f2p)) := by
  obtain ⟨hty1, hty2, -, -⟩ := hwt
  have ty1p : f1p.tTy = none := h1p.ty.trans hty1
  have ty1n : f1n.tTy = none := h1n.ty.trans hty1
  have ty2p : f2p.tTy = none := h2p.ty.trans hty2
  have ty2n : f2n.tTy = none := h2n.ty.trans hty2
  split_ifs with heq hpol
  · rw [Bool.and_eq_true] at heq
    have hwt' : (tbinop [] .tiff f1p f2p).Wt sig := ⟨ty1p, ty2p, h1p.wt, h2p.wt⟩
    refine Good.trans_equiv ⟨hwt', rfl, fun {ex} hok => ?_⟩
      (equiv_tIffSimp hlit h1p.wt h2p.wt ty1p ty2p)
    simp only [letsOk, Bool.or_false, Bool.and_eq_true] at hok
    refine sim_tbinop (fun ρ ρ' hρ hρ' hK1 hK2 => .of_iff (iff_congr ?_ ?_))
    · exact iff_of_tEqual hlit h1p.wt h1n.wt heq.1 (h1p.sim hok.1) (h1n.sim hok.1) hty1 hρ hρ' hK1
    · exact iff_of_tEqual hlit h2p.wt h2n.wt heq.2 (h2p.sim hok.2) (h2n.sim hok.2) hty2 hρ hρ' hK2
  · have e1 := equiv_tImpliesSimp hlit h1n.wt h2p.wt ty1n ty2p
    have e2 := equiv_tImpliesSimp hlit h2n.wt h1p.wt ty2n ty1p
    have hwt' : (tbinop [] .tand (.tbinop [] .timplies f1n f2p)
        (.tbinop [] .timplies f2n f1p)).Wt sig :=
      ⟨rfl, rfl, ⟨ty1n, ty2p, h1n.wt, h2p.wt⟩, ⟨ty2n, ty1p, h2n.wt, h1p.wt⟩⟩
    refine Good.trans_equiv ⟨hwt', rfl, fun {ex} hok ρ ρ' hρ hρ' hK => .of_formula ?_⟩
      ((equiv_tbinop e1 e2 hwt').trans (equiv_tAndSimp hlit e1.wt e2.wt e1.ty e2.ty))
    simp only [letsOk, Bool.or_false, Bool.and_eq_true] at hok
    simp only [keptVars, mem_append] at hK
    have hK1 := fun v hv => hK v (.inl hv)
    have hK2 := fun v hv => hK v (.inr hv)
    refine Polar.congr (.and (.imp ((h1n.sim hok.1).polar hty1 hρ hρ' hK1)
      ((h2p.sim hok.2).polar hty2 hρ hρ' hK2)) (.imp ((h2n.sim hok.2).polar hty2 hρ hρ' hK2)
        ((h1p.sim hok.1).polar hty1 hρ hρ' hK1))) ?_ .rfl
    exact iff_def.symm
  · have e1 := equiv_tOrSimp hlit h1n.wt h2n.wt ty1n ty2n
    have e2 := equiv_tAndSimp hlit h1p.wt h2p.wt ty1p ty2p
    have hwt' : (tbinop [] .timplies (.tbinop [] .tor f1n f2n)
        (.tbinop [] .tand f1p f2p)).Wt sig :=
      ⟨rfl, rfl, ⟨ty1n, ty2n, h1n.wt, h2n.wt⟩, ⟨ty1p, ty2p, h1p.wt, h2p.wt⟩⟩
    refine Good.trans_equiv ⟨hwt', rfl, fun {ex} hok ρ ρ' hρ hρ' hK => .of_formula ?_⟩
      ((equiv_tbinop e1 e2 hwt').trans (equiv_tImpliesSimp hlit e1.wt e2.wt e1.ty e2.ty))
    simp only [letsOk, Bool.or_false, Bool.and_eq_true] at hok
    simp only [keptVars, mem_append] at hK
    have hK1 := fun v hv => hK v (.inl hv)
    have hK2 := fun v hv => hK v (.inr hv)
    refine Polar.congr (.imp (.or ((h1n.sim hok.1).polar hty1 hρ hρ' hK1)
      ((h2n.sim hok.2).polar hty2 hρ hρ' hK2)) (.and ((h1p.sim hok.1).polar hty1 hρ hρ' hK1)
        ((h2p.sim hok.2).polar hty2 hρ hρ' hK2))) ?_ .rfl
    show (I.Holds ρ f1 ∨ I.Holds ρ f2 → I.Holds ρ f1 ∧ I.Holds ρ f2) ↔
      (I.Holds ρ f1 ↔ I.Holds ρ f2)
    tauto

theorem good_tif {f3 f3p : Term} (hwt : (tif a f1 f2 f3).Wt sig) (hty3 : f3.tTy = none)
    (h1p : I.Good unused false pol f1 f1p) (h1n : I.Good unused false (!pol) f1 f1n)
    (h2 : I.Good unused false pol f2 f2p) (h3 : I.Good unused false pol f3 f3p) :
    I.Good unused false pol (.tif a f1 f2 f3)
      (if tEqual f1p f1n then tIfSimp f1p f2p f3p
      else if pol then tAndSimp (tImpliesSimp f1n f2p) (tImpliesSimp (tNotSimp f1p) f3p)
      else tOrSimp (tAndSimp f1p f2p) (tAndSimp (tNotSimp f1n) f3p)) := by
  obtain ⟨hty1, h23, -, -, -⟩ := hwt
  have ty1p : f1p.tTy = none := h1p.ty.trans hty1
  have ty1n : f1n.tTy = none := h1n.ty.trans hty1
  have ty2p : f2p.tTy = none := h2.ty.trans (h23.trans hty3)
  have ty3p : f3p.tTy = none := h3.ty.trans hty3
  -- the three parts under the two valuations
  have hparts : ∀ {ex : Bool}, letsOk unused false ex (.tif a f1 f2 f3) = true →
      ∀ {ρ ρ' : I.Env}, I.Typed ρ → I.Typed ρ' →
      (∀ v ∈ keptVars unused false (.tif a f1 f2 f3), ρ v = ρ' v) →
      Polar ex pol (I.Holds ρ f1) (I.Holds ρ' f1p) ∧
      Polar ex (!pol) (I.Holds ρ f1) (I.Holds ρ' f1n) ∧
      Polar ex pol (I.Holds ρ f2) (I.Holds ρ' f2p) ∧
      Polar ex pol (I.Holds ρ f3) (I.Holds ρ' f3p) := by
    intro ex hok ρ ρ' hρ hρ' hK
    simp only [letsOk, hty3, Option.isSome_none, Bool.false_eq_true, if_false,
      Bool.and_eq_true] at hok
    simp only [keptVars, hty3, Option.isSome_none, Bool.and_false, Bool.false_eq_true, if_false,
      mem_append] at hK
    have hK1 := fun v hv => hK v (.inl (.inl hv))
    exact ⟨(h1p.sim hok.1.1).polar hty1 hρ hρ' hK1, (h1n.sim hok.1.1).polar hty1 hρ hρ' hK1,
      (h2.sim hok.1.2).polar (h23.trans hty3) hρ hρ' (fun v hv => hK v (.inl (.inr hv))),
      (h3.sim hok.2).polar hty3 hρ hρ' (fun v hv => hK v (.inr hv))⟩
  have hcond : ∀ (p q r : Prop), ((p → q) ∧ (¬ p → r) ↔ p ∧ q ∨ ¬ p ∧ r) := by
    intro p q r
    by_cases hp : p <;> simp [hp]
  split_ifs with heq hpol
  · have hwt' : (tif [] f1p f2p f3p).Wt sig :=
      ⟨ty1p, ty2p.trans ty3p.symm, h1p.wt, h2.wt, h3.wt⟩
    refine Good.trans_equiv ⟨hwt', ty3p.trans hty3.symm, fun {ex} hok ρ ρ' hρ hρ' hK => ?_⟩
      (equiv_tIfSimp hlit h1p.wt h2.wt h3.wt ty1p (ty2p.trans ty3p.symm))
    obtain ⟨hp, hn, hf2, hf3⟩ := hparts hok hρ hρ' hK
    have hc := hp.iff_of_both
      (hn.congr .rfl (I.holds_tEqual hlit h1p.wt h1n.wt heq ρ').symm)
    refine ⟨fun hne => absurd hty3 hne, fun _ => ?_⟩
    exact (Polar.ite hc hf2 hf3).congr (holds_tif I ρ a f1 f2 f3).symm
      (holds_tif I ρ' [] f1p f2p f3p).symm
  · have e0 := equiv_tNotSimp (I := I) h1p.wt ty1p
    have e1 := equiv_tImpliesSimp hlit h1n.wt h2.wt ty1n ty2p
    have e2 := equiv_tImpliesSimp hlit e0.wt h3.wt e0.ty ty3p
    have hwt2 : (tbinop [] .timplies (.tnot [] f1p) f3p).Wt sig :=
      ⟨rfl, ty3p, ⟨ty1p, h1p.wt⟩, h3.wt⟩
    have hwt' : (tbinop [] .tand (.tbinop [] .timplies f1n f2p)
        (.tbinop [] .timplies (.tnot [] f1p) f3p)).Wt sig :=
      ⟨rfl, rfl, ⟨ty1n, ty2p, h1n.wt, h2.wt⟩, hwt2⟩
    have e2' := (equiv_tbinop e0 (.refl h3.wt) hwt2).trans e2
    refine Good.trans_equiv ⟨hwt', hty3.symm, fun {ex} hok ρ ρ' hρ hρ' hK => ?_⟩
      ((equiv_tbinop e1 e2' hwt').trans (equiv_tAndSimp hlit e1.wt e2.wt e1.ty e2.ty))
    obtain ⟨hp, hn, hf2, hf3⟩ := hparts hok hρ hρ' hK
    refine ⟨fun hne => absurd hty3 hne, fun _ => ?_⟩
    refine Polar.congr (.and (.imp hn hf2) (.imp (.not ?_) hf3)) (holds_tif I ρ a f1 f2 f3).symm
      .rfl
    rwa [Bool.not_not]
  · have e0 := equiv_tNotSimp (I := I) h1n.wt ty1n
    have e1 := equiv_tAndSimp hlit h1p.wt h2.wt ty1p ty2p
    have e2 := equiv_tAndSimp hlit e0.wt h3.wt e0.ty ty3p
    have hwt2 : (tbinop [] .tand (.tnot [] f1n) f3p).Wt sig :=
      ⟨rfl, ty3p, ⟨ty1n, h1n.wt⟩, h3.wt⟩
    have hwt' : (tbinop [] .tor (.tbinop [] .tand f1p f2p)
        (.tbinop [] .tand (.tnot [] f1n) f3p)).Wt sig :=
      ⟨rfl, rfl, ⟨ty1p, ty2p, h1p.wt, h2.wt⟩, hwt2⟩
    have e2' := (equiv_tbinop e0 (.refl h3.wt) hwt2).trans e2
    refine Good.trans_equiv ⟨hwt', hty3.symm, fun {ex} hok ρ ρ' hρ hρ' hK => ?_⟩
      ((equiv_tbinop e1 e2' hwt').trans (equiv_tOrSimp hlit e1.wt e2.wt e1.ty e2.ty))
    obtain ⟨hp, hn, hf2, hf3⟩ := hparts hok hρ hρ' hK
    refine ⟨fun hne => absurd hty3 hne, fun _ => ?_⟩
    exact Polar.congr (.or (.and hp hf2) (.and (.not hn) hf3))
      ((hcond _ _ _).symm.trans (holds_tif I ρ a f1 f2 f3).symm) .rfl

omit hlit in
theorem good_tlet {e : Term} (hwt : (tlet a e v t).Wt sig) (h : I.Good unused true pol t t') :
    I.Good unused false pol (.tlet a e v t)
      (if unused v.vsName then t' else tLetSimpKeepVar unused true e v t') := by
  have hwt' : (tlet [] e v t').Wt sig := ⟨hwt.1, hwt.2.1, h.wt⟩
  split_ifs with hv
  · refine ⟨h.wt, h.ty, fun {ex} hok ρ ρ' hρ hρ' hK => ?_⟩
    simp only [letsOk, hv, Bool.false_eq_true, if_false, Bool.not_true, Bool.false_or,
      Bool.and_eq_true, decide_eq_true_eq] at hok
    simp only [keptVars, hv, Bool.false_eq_true, if_false, if_true] at hK
    -- the variable does not remain, and its value is not seen
    refine h.sim hok.2 (typed_update hρ (eval_mem hwt.2.1 hwt.1 hρ)) hρ' (fun w hw => ?_)
    rw [update_of_ne]
    · exact hK w hw
    · rintro rfl
      exact hok.1 hw
  · refine Good.trans_equiv ⟨hwt', h.ty, fun {ex} hok => ?_⟩
      (equiv_tLetSimpKeepVar (fun _ => .inl (by simpa using hv)) hwt')
    simp only [letsOk, hv, Bool.false_eq_true, if_false, Bool.not_false, Bool.true_or,
      Bool.true_and] at hok
    have hsim : I.Sim (e.freeVars ++ (keptVars unused true t).filter (· ≠ v)) ex pol
        (.tlet a e v t) (.tlet [] e v t') := sim_tlet (.refl hwt.2.1) (h.sim hok) hwt
    simpa [keptVars, hv] using hsim

omit hlit in
/-- A marked equation is removed on the side where this is sound. -/
theorem good_markedEqu {ls : LSymbol} {tl : List Term} {ty : Option Ty}
    (hm : markedEqu unused ls tl = true) (hwt : (tapp a ls tl ty).Wt sig) :
    I.Good unused false pol (.tapp a ls tl ty) (if pol then .tfalse [] else .ttrue []) := by
  have hls : ls = psEqu := by
    unfold markedEqu at hm
    split at hm
    · exact (by simpa using hm : ls = psEqu ∧ _).1
    · exact (by simpa using hm : ls = psEqu ∧ _).1
    · cases hm
  subst hls
  obtain ⟨rfl, -⟩ := wt_psEqu hwt
  refine ⟨by cases pol <;> trivial, by cases pol <;> rfl, fun {ex} hok ρ ρ' _ _ _ => ?_⟩
  obtain rfl : ex = false := by simpa [letsOk, hm] using hok
  refine .of_formula ?_
  cases pol with
  | false => exact ⟨fun h => absurd h Bool.false_ne_true, fun _ _ => trivial⟩
  | true => exact ⟨fun _ h => h.elim, fun h => absurd h Bool.false_ne_true⟩

/-- `remove_unused_in_term`, and its traversal of the subterms. -/
theorem good_removeUnusedInTerm (heps : I.EpsExt) (t : Term) : t.Wt sig → ∀ pol,
    I.Good unused false pol t (removeUnusedInTerm unused pol t) ∧
      I.Good unused true pol t
        (tMapSimp unused t (fun u _ => removeUnusedInTerm unused pol u)) := by
  induction t using induct_children with
  | h t ih =>
    intro hwt pol
    have hmap := good_tMap heps (fun u hu hwu => (ih u hu hwu pol).1) hwt
    have hequiv : I.Equiv _ (tMapSimp unused t (fun u _ => removeUnusedInTerm unused pol u)) :=
      equiv_tMapSimp hlit hmap.wt
    have hbelow := hmap.trans_equiv hequiv
    refine ⟨?_, hbelow⟩
    unfold removeUnusedInTerm
    refine Good.attrs ?_ t
    cases t with
    | tvar a v | tconst a c ty | tquant a q vl trl f | ttrue a | tfalse a => exact hbelow.of_below (fun _ => rfl) rfl
    | tapp a ls tl ty =>
      by_cases hm : markedEqu unused ls tl = true
      · simp only [if_pos hm]
        exact good_markedEqu hm hwt
      · simp only [if_neg hm]
        exact hbelow.of_below (fun _ => by simp [letsOk, hm]) (by simp [keptVars, hm])
    | tif a t1 t2 t3 =>
      by_cases hty : t3.tTy = none
      · have h1 := ih t1 (by simp [children]) hwt.2.2.1
        have h2 := ih t2 (by simp [children]) hwt.2.2.2.1
        have h3 := ih t3 (by simp [children]) hwt.2.2.2.2
        dsimp only
        rw [if_pos (show (tif a t1 t2 t3).tTy = none from hty)]
        exact good_tif hlit hwt hty (h1 pol).1 (h1 (!pol)).1 (h2 pol).1 (h3 pol).1
      · dsimp only
        rw [if_neg (show (tif a t1 t2 t3).tTy ≠ none from hty)]
        refine ⟨hwt, rfl, fun {ex} _ => ?_⟩
        rw [keptVars, if_pos (by simpa using Option.isSome_iff_ne_none.mpr hty)]
        exact .refl hwt
    | tlet a e v t => exact good_tlet hwt (ih t (by simp [children]) hwt.2.2 pol).2
    | tcase a t bl => exact hbelow.of_below (fun _ => by simp [letsOk]) (by simp [keptVars])
    | teps a v f => exact ⟨hwt, rfl, fun {ex} _ => .refl hwt⟩
    | tbinop a op f1 f2 =>
      have h1 := ih f1 (by simp [children]) hwt.2.2.1
      have h2 := ih f2 (by simp [children]) hwt.2.2.2
      cases op with
      | tand | tor => exact hbelow.of_below (fun _ => rfl) rfl
      | timplies => exact good_timplies hlit hwt (h1 (!pol)).1 (h2 pol).1
      | tiff => exact good_tiff hlit hwt (h1 pol).1 (h1 (!pol)).1 (h2 pol).1 (h2 (!pol)).1
    | tnot a f => exact good_tnot hwt (ih f (by simp [children]) hwt.2 (!pol)).1

end Cases

end Interp

/-- A formula may be replaced by the one without the equations on unused names:
by a stronger one where it has to be proved, by a weaker one where it is
assumed. -/
theorem remove_unused_in_term_polarity {sig : TySymbol → List LSymbol} {unused : ℕ → Bool}
    {f : Term} (hwt : f.Wt sig) (hf : f.tTy = none) (hlets : letsOk unused false false f = true)
    (I : Interp sig) (hlit : I.LitExt) (heps : I.EpsExt) (ρ : I.Env) (hρ : I.Typed ρ) :
    (I.Holds ρ (removeUnusedInTerm unused true f) → I.Holds ρ f) ∧
      (I.Holds ρ f → I.Holds ρ (removeUnusedInTerm unused false f)) := by
  have hgood : ∀ pol, I.Good unused false pol f (removeUnusedInTerm unused pol f) :=
    fun pol => (Interp.good_removeUnusedInTerm hlit heps f hwt pol).1
  have hpolar := fun pol => ((hgood pol).sim hlets).polar hf hρ hρ (fun _ _ => rfl)
  exact ⟨(hpolar true).strong rfl, (hpolar false).weak rfl⟩

/-! ## An implication below a binding -/

/-- Integers for the values of every type; a literal denotes its value. -/
noncomputable def intInterp : Interp (fun _ => []) where
  Val := ℤ
  mem _ _ := True
  dest _ _ := none
  const c _ := match c with
    | .constInt _ n => n
    | _ => 0
  fn _ _ _ _ := 0
  pr _ _ _ := False
  eps _ P := Classical.epsilon P
  dest_mem := fun _ h => by cases h
  dest_some := fun _ h => absurd (constrsOf_nil _) h
  con := fun h => absurd h (by simp [constrsOf_nil])
  inhabited := fun _ => ⟨0, trivial⟩
  const_mem := fun _ _ => trivial
  fn_mem := fun _ _ => trivial
  fn_constr := fun h => absurd h (by simp [constrsOf_nil])
  dest_inj := fun _ _ h => by cases h
  eps_mem := fun _ _ => trivial
  eps_spec := fun ⟨d, _, h⟩ => Classical.epsilon_spec ⟨d, h⟩

theorem litExt_intInterp : intInterp.LitExt := by
  intro c1 c2 ty h
  unfold Constant.equal at h
  split at h
  · simpa [intInterp] using h
  · rfl
  · rw [of_decide_eq_true h]

theorem epsExt_intInterp : intInterp.EpsExt :=
  fun _ _ _ h => congrArg (Classical.epsilon (α := ℤ)) (funext fun d => propext (h d trivial))

namespace LetImplies

def x : VSymbol := ⟨300, tyInt⟩
def y : VSymbol := ⟨301, tyInt⟩
def intConst (n : ℤ) : Term := .tconst [] (.constInt .iLitDec n) tyInt

/-- The variable `x` is marked. -/
def unused (n : ℕ) : Bool := n == 300

/-- `x = 1`. -/
def equX : Term := tEqu (.tvar [] x) (intConst 1)

/-- `let y = 0 in x = 1 -> false`. -/
def letImplies : Term := .tlet [] (intConst 0) y (.tbinop [] .timplies equX (.tfalse []))

/-- `let y = 0 in x = 1 /\ y = 0`. -/
def letAnd : Term := .tlet [] (intConst 0) y
  (.tbinop [] .tand equX (tEqu (.tvar [] y) (intConst 0)))

theorem wt_equX : equX.Wt (fun _ => []) := wt_tEqu rfl rfl trivial trivial

theorem remove_equX : removeUnusedInTerm unused true equX = .tfalse [] := by
  simp [removeUnusedInTerm, equX, tEqu, markedEqu, unused, x, tAttrCopy, Term.setAttrs,
    tAttrs, Sattr.union]

theorem remove_letImplies : removeUnusedInTerm unused true letImplies =
    .tlet [] (intConst 0) ⟨1, tyInt⟩ (.ttrue []) := by
  have hfalse : removeUnusedInTerm unused true (.tfalse []) = .tfalse [] := by
    simp [removeUnusedInTerm, tMapSimp, tAttrCopy, Term.setAttrs, tAttrs, Sattr.union]
  rw [letImplies, removeUnusedInTerm]
  simp only [tMapSimp, remove_equX, hfalse, tBinarySimp, tImpliesSimp]
  rfl

end LetImplies

open LetImplies in
/-- The conjunction below the binding becomes false. -/
theorem remove_unused_let_and :
    letsOk unused false false letAnd = true ∧
      (intInterp.Holds (fun _ => (0 : ℤ)) (removeUnusedInTerm unused true letAnd) →
        intInterp.Holds (fun _ => (0 : ℤ)) letAnd) ∧
      (intInterp.Holds (fun _ => (0 : ℤ)) letAnd →
        intInterp.Holds (fun _ => (0 : ℤ)) (removeUnusedInTerm unused false letAnd)) := by
  have hok : letsOk unused false false letAnd = true := by decide
  have hwt : letAnd.Wt (fun _ => []) :=
    ⟨rfl, trivial, rfl, rfl, wt_equX, wt_tEqu rfl rfl trivial trivial⟩
  exact ⟨hok, remove_unused_in_term_polarity hwt rfl hok intInterp litExt_intInterp epsExt_intInterp
    _ (fun _ => trivial)⟩

open LetImplies in
/-- The left side of an implication right below a binding is treated as if it had
to be proved: `let y = 0 in x = 1 -> false` becomes true. -/
theorem not_remove_unused_in_term_polarity :
    ¬ ∀ (sig : TySymbol → List LSymbol) (unused : ℕ → Bool) (f : Term), f.Wt sig → f.tTy = none →
      ∀ I : Interp sig, I.LitExt → I.EpsExt → ∀ ρ : I.Env, I.Typed ρ →
      (I.Holds ρ (removeUnusedInTerm unused true f) → I.Holds ρ f) ∧
        (I.Holds ρ f → I.Holds ρ (removeUnusedInTerm unused false f)) := by
  intro h
  have hwt : letImplies.Wt (fun _ => []) := ⟨rfl, trivial, rfl, rfl, wt_equX, trivial⟩
  have hr := (h (fun _ => []) unused letImplies hwt rfl intInterp litExt_intInterp epsExt_intInterp
    (fun _ => (1 : ℤ)) (fun _ => trivial)).1
  rw [remove_letImplies] at hr
  -- the variable `x` has the value 1
  have hx : intInterp.Holds (update (fun _ => (1 : ℤ)) y (0 : ℤ)) equX :=
    (intInterp.holds_tEqu _).mpr rfl
  exact hr trivial hx

end Why3
