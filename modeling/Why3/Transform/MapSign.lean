import Why3.Transform.EliminateIfFmla

/-!
# Polarity mapping

`t_map_sign` of `core/term.ml`: a function that makes formulas stronger at one polarity
and weaker at the other is applied to the immediate subformulas.  The place of each of
the images, two for the sides of an equivalence and for a condition, is such that the
result is stronger, or weaker, than the formula.
-/

namespace Why3

open List

namespace MapSign

open CondSubst EliminateIfFmla Interp Term

variable {sig : TySymbol → List LSymbol} {I : Interp sig}

/-- The first implies the second, or the second the first. -/
def Implies (forward : Bool) (p q : Prop) : Prop := if forward then p → q else q → p

theorem polar_iff {pol : Bool} {p p' : Prop} : Polar false pol p p' ↔ Implies pol p' p := by
  cases pol with
  | false => exact ⟨fun h => h.weak rfl, fun h => ⟨fun hs => (by cases hs), fun _ => h⟩⟩
  | true => exact ⟨fun h => h.strong rfl, fun h => ⟨fun _ => h, fun hw => (by cases hw)⟩⟩

/-- What stands for a term under every valuation depends on its free variables only. -/
theorem sim_of_same {pol : Bool} {t t' : Term} (hwt : t.Wt sig)
    (h : ∀ {ρ : I.Env}, I.Typed ρ → DenPolar false pol t.tTy (I.sem t ρ) (I.sem t' ρ)) :
    I.Sim t.freeVars false pol t t' := by
  intro ρ ρ' _ hρ' hK
  rw [sem_congr hwt hK]
  exact h hρ'

/-! ## The images of one subformula -/

/-- The image of a term: it has the type and the value of the term, and a formula implies
it or is implied by it. -/
structure Image (I : Interp sig) (pol : Bool) (t t' : Term) : Prop where
  wt : t'.Wt sig
  ty : t'.tTy = t.tTy
  den : ∀ {ρ : I.Env}, I.Typed ρ → DenPolar false pol t.tTy (I.sem t ρ) (I.sem t' ρ)

section Images

variable {pol sign : Bool} {a : Sattr} {f1 f2 f3 f1p f1n f2p f2n g1 g2 g3 : Term}

theorem Image.polar {f f' : Term} (h : Image I pol f f') (hf : f.tTy = none) {ρ : I.Env}
    (hρ : I.Typed ρ) : Polar false pol (I.Holds ρ f) (I.Holds ρ f') :=
  (h.den hρ).2 hf

theorem Image.of_formula {f f' : Term} (hf : f.tTy = none) (hwt : f'.Wt sig) (hty : f'.tTy = none)
    (h : ∀ {ρ : I.Env}, I.Typed ρ → Polar false pol (I.Holds ρ f) (I.Holds ρ f')) :
    Image I pol f f' :=
  ⟨hwt, hty.trans hf.symm, fun hρ => by rw [hf]; exact .of_formula (h hρ)⟩

theorem Image.attrs {f f' s : Term} (h : Image I pol f f') : Image I pol f (tAttrCopy s f') where
  wt := (wt_setAttrs _ f').mpr h.wt
  ty := (tTy_setAttrs _ f').trans h.ty
  den hρ := by
    refine ⟨fun hne => ?_, fun hnone => ?_⟩
    · exact (eval_setAttrs _ f' _).trans ((h.den hρ).1 hne)
    · exact ((h.den hρ).2 hnone).congr .rfl (holds_setAttrs _ f' _).symm

theorem Image.iff_of_tEqual (hlit : I.LitExt) {f fp fn : Term} (hp : Image I pol f fp)
    (hn : Image I (!pol) f fn) (heq : tEqual fp fn = true) (hf : f.tTy = none) {ρ : I.Env}
    (hρ : I.Typed ρ) : I.Holds ρ fp ↔ I.Holds ρ f :=
  (hp.polar hf hρ).iff_of_both
    ((hn.polar hf hρ).congr .rfl (I.holds_tEqual hlit hp.wt hn.wt heq ρ).symm)

theorem image_timplies (hwt : (Term.tbinop a .timplies f1 f2).Wt sig) (h1 : Image I (!pol) f1 g1)
    (h2 : Image I pol f2 g2) :
    Image I pol (.tbinop a .timplies f1 f2) (.tbinop [] .timplies g1 g2) := by
  have t1 := h1.ty.trans hwt.1
  have t2 := h2.ty.trans hwt.2.1
  refine Image.of_formula rfl ⟨t1, t2, h1.wt, h2.wt⟩ rfl (fun {ρ} hρ => ?_)
  exact .imp (h1.polar hwt.1 hρ) (h2.polar hwt.2.1 hρ)

theorem image_tnot (hwt : (Term.tnot a f1).Wt sig) (h1 : Image I (!pol) f1 g1) :
    Image I pol (.tnot a f1) (.tnot [] g1) := by
  refine Image.of_formula rfl ⟨h1.ty.trans hwt.1, h1.wt⟩ rfl (fun {ρ} hρ => ?_)
  exact .not (h1.polar hwt.1 hρ)

/-- An equivalence: each of its three forms has the images at the places of their
polarities. -/
theorem image_iffSign (hlit : I.LitExt) (hwt : (Term.tbinop a .tiff f1 f2).Wt sig)
    (h1p : Image I pol f1 f1p) (h1n : Image I (!pol) f1 f1n) (h2p : Image I pol f2 f2p)
    (h2n : Image I (!pol) f2 f2n) :
    Image I pol (.tbinop a .tiff f1 f2) (Introduction.iffSign sign f1p f1n f2p f2n) := by
  obtain ⟨hf1, hf2, -, -⟩ := hwt
  have t1p := h1p.ty.trans hf1
  have t1n := h1n.ty.trans hf1
  have t2p := h2p.ty.trans hf2
  have t2n := h2n.ty.trans hf2
  unfold Introduction.iffSign
  split_ifs with heq hsign
  · rw [Bool.and_eq_true] at heq
    refine Image.of_formula rfl ⟨t1p, t2p, h1p.wt, h2p.wt⟩ rfl (fun {ρ} hρ => ?_)
    exact .of_iff (iff_congr (h1p.iff_of_tEqual hlit h1n heq.1 hf1 hρ)
      (h2p.iff_of_tEqual hlit h2n heq.2 hf2 hρ))
  · refine Image.of_formula rfl
      ⟨rfl, rfl, ⟨t1n, t2p, h1n.wt, h2p.wt⟩, t2n, t1p, h2n.wt, h1p.wt⟩ rfl (fun {ρ} hρ => ?_)
    have hparts : Polar false pol
        ((I.Holds ρ f1 → I.Holds ρ f2) ∧ (I.Holds ρ f2 → I.Holds ρ f1))
        ((I.Holds ρ f1n → I.Holds ρ f2p) ∧ (I.Holds ρ f2n → I.Holds ρ f1p)) :=
      .and (.imp (h1n.polar hf1 hρ) (h2p.polar hf2 hρ)) (.imp (h2n.polar hf2 hρ) (h1p.polar hf1 hρ))
    exact hparts.congr iff_def.symm .rfl
  · refine Image.of_formula rfl
      ⟨rfl, rfl, ⟨t1n, t2n, h1n.wt, h2n.wt⟩, t1p, t2p, h1p.wt, h2p.wt⟩ rfl (fun {ρ} hρ => ?_)
    have hparts : Polar false pol
        (I.Holds ρ f1 ∨ I.Holds ρ f2 → I.Holds ρ f1 ∧ I.Holds ρ f2)
        (I.Holds ρ f1n ∨ I.Holds ρ f2n → I.Holds ρ f1p ∧ I.Holds ρ f2p) :=
      .imp (.or (h1n.polar hf1 hρ) (h2n.polar hf2 hρ)) (.and (h1p.polar hf1 hρ) (h2p.polar hf2 hρ))
    refine hparts.congr ?_ .rfl
    show (I.Holds ρ f1 ∨ I.Holds ρ f2 → I.Holds ρ f1 ∧ I.Holds ρ f2) ↔
      (I.Holds ρ f1 ↔ I.Holds ρ f2)
    tauto

/-- A conditional: its condition stands at both polarities. -/
theorem image_ifSign (hlit : I.LitExt) (hwt : (Term.tif a f1 f2 f3).Wt sig) (hf3 : f3.tTy = none)
    (h1p : Image I pol f1 f1p) (h1n : Image I (!pol) f1 f1n) (h2 : Image I pol f2 g2)
    (h3 : Image I pol f3 g3) :
    Image I pol (.tif a f1 f2 f3) (Introduction.ifSign sign f1p f1n g2 g3) := by
  obtain ⟨hf1, h23, -, -, -⟩ := hwt
  have hf2 := h23.trans hf3
  have t1p := h1p.ty.trans hf1
  have t1n := h1n.ty.trans hf1
  have t2 := h2.ty.trans hf2
  have t3 := h3.ty.trans hf3
  unfold Introduction.ifSign
  split_ifs with heq hsign
  · refine Image.of_formula (f := .tif a f1 f2 f3) hf3
      ⟨t1p, t2.trans t3.symm, h1p.wt, h2.wt, h3.wt⟩ t3 (fun {ρ} hρ => ?_)
    exact (Polar.ite (h1p.iff_of_tEqual hlit h1n heq hf1 hρ) (h2.polar hf2 hρ)
      (h3.polar hf3 hρ)).congr (holds_tif I ρ a f1 f2 f3).symm (holds_tif I ρ [] f1p g2 g3).symm
  · refine Image.of_formula hf3
      ⟨rfl, rfl, ⟨t1n, t2, h1n.wt, h2.wt⟩, rfl, t3, ⟨t1p, h1p.wt⟩, h3.wt⟩ rfl (fun {ρ} hρ => ?_)
    refine Polar.congr (.and (.imp (h1n.polar hf1 hρ) (h2.polar hf2 hρ))
      (.imp (.not ?_) (h3.polar hf3 hρ))) (holds_tif I ρ a f1 f2 f3).symm .rfl
    rw [Bool.not_not]
    exact h1p.polar hf1 hρ
  · refine Image.of_formula hf3
      ⟨rfl, rfl, ⟨t1p, t2, h1p.wt, h2.wt⟩, rfl, t3, ⟨t1n, h1n.wt⟩, h3.wt⟩ rfl (fun {ρ} hρ => ?_)
    refine Polar.congr (.or (.and (h1p.polar hf1 hρ) (h2.polar hf2 hρ))
      (.and (.not (h1n.polar hf1 hρ)) (h3.polar hf3 hρ))) ?_ .rfl
    rw [holds_tif]
    by_cases hc : I.Holds ρ f1 <;> simp [hc]

end Images

/-! ## The other nodes -/

/-- A traversal of a formula that is no negation, implication, equivalence or conditional. -/
theorem image_tMap {pol : Bool} {g : Term → Term} {f : Term} (hwt : f.Wt sig) (hf : f.tTy = none)
    (hif : ∀ a f1 f2 f3, f ≠ .tif a f1 f2 f3) (hnot : ∀ a f1, f ≠ .tnot a f1)
    (himp : ∀ a f1 f2, f ≠ .tbinop a .timplies f1 f2) (hiff : ∀ a f1 f2, f ≠ .tbinop a .tiff f1 f2)
    (h : ∀ u ∈ f.children, Image I pol u (g u)) : Image I pol f (f.tMap g) := by
  obtain ⟨hwt', hty'⟩ := wt_tMap (fun u hu _ => ⟨(h u hu).wt, (h u hu).ty⟩) hwt
  have hsim : ∀ u ∈ f.children, I.Sim u.freeVars false pol u (g u) :=
    fun u hu => sim_of_same (wt_of_mem_children hwt hu) (h u hu).den
  refine ⟨hwt', hty', fun {ρ} hρ => ?_⟩
  cases f with
  | tvar a v => cases hf
  | tconst a c ty => cases hf
  | teps a v f => cases hf
  | tif a f1 f2 f3 => exact absurd rfl (hif a f1 f2 f3)
  | tnot a f1 => exact absurd rfl (hnot a f1)
  | tapp a s tl ty =>
    exact sim_tapp hsim (fun t ht => (h t ht).ty) hwt hρ hρ (fun _ _ => rfl)
  | tlet a t v e =>
    exact sim_tlet (hsim t (by simp [children])) (hsim e (by simp [children])) hwt hρ hρ
      (fun _ _ => rfl)
  | tcase a t bl =>
    have hbl : ∀ b ∈ bl, I.Sim b.2.freeVars false pol b.2 (g b.2) := by
      intro b hb
      apply hsim
      exact mem_cons_of_mem _ (mem_map_of_mem hb)
    exact sim_tcase (K := Term.freeVars) (hsim t mem_cons_self) hbl hwt hρ hρ (fun _ _ => rfl)
  | tquant a q vl trl f =>
    exact sim_tquant (hsim f mem_cons_self) hwt.1 hρ hρ (fun _ _ => rfl)
  | tbinop a op f1 f2 =>
    have h1 := (h f1 (by simp [children])).polar hwt.1 hρ
    have h2 := (h f2 (by simp [children])).polar hwt.2.1 hρ
    cases op with
    | tand => exact .of_formula (.and h1 h2)
    | tor => exact .of_formula (.or h1 h2)
    | timplies => exact absurd rfl (himp a f1 f2)
    | tiff => exact absurd rfl (hiff a f1 f2)
  | ttrue a => exact .of_eq rfl
  | tfalse a => exact .of_eq rfl

/-! ## The mapping -/

section Map

variable {fn : Bool → Term → Option Term} {sign rev : Bool} {f : Term}

theorem image_tMapOpt {pol : Bool} (hwt : f.Wt sig) (hf : f.tTy = none)
    (hif : ∀ a f1 f2 f3, f ≠ .tif a f1 f2 f3) (hnot : ∀ a f1, f ≠ .tnot a f1)
    (himp : ∀ a f1 f2, f ≠ .tbinop a .timplies f1 f2) (hiff : ∀ a f1 f2, f ≠ .tbinop a .tiff f1 f2)
    (h : ∀ u ∈ f.children, ∀ u', fn sign u = some u' → Image I pol u u') {f' : Term}
    (hf' : (tMapOpt f (fun u _ => fn sign u)).map (tAttrCopy f) = some f') : Image I pol f f' := by
  obtain ⟨r, hr, rfl⟩ := Option.map_eq_some_iff.mp hf'
  have hall : ∀ u ∈ f.children, (fn sign u).isSome = true := by
    rw [tMapOpt] at hr
    split_ifs at hr with hall
    rw [all_eq_true] at hall
    exact fun u hu => hall ⟨u, hu⟩ (mem_attach _ _)
  rw [tMapOpt_eq hall] at hr
  cases hr
  refine (image_tMap hwt hf hif hnot himp hiff fun u hu => ?_).attrs
  obtain ⟨u', hu'⟩ := Option.isSome_iff_exists.mp (hall u hu)
  rw [hu']
  exact h u hu u' hu'

theorem image_tMapSign (hlit : I.LitExt) (hwt : f.Wt sig) (hf : f.tTy = none)
    (h : ∀ s, ∀ u ∈ f.children, ∀ u', fn s u = some u' → Image I (s != rev) u u') {f' : Term}
    (hf' : tMapSign sign f (fun s u _ => fn s u) = some f') : Image I (sign != rev) f f' := by
  have hneg : ∀ u ∈ f.children, ∀ u', fn (!sign) u = some u' →
      Image I (!(sign != rev)) u u' := by
    intro u hu u' hu'
    have heq : ((!sign) != rev) = !(sign != rev) := by cases sign <;> cases rev <;> rfl
    rw [← heq]
    exact h (!sign) u hu u' hu'
  cases f with
  | tvar a v => cases hf
  | tconst a c ty => cases hf
  | teps a v f => cases hf
  | tif a f1 f2 f3 =>
    have hf3 : f3.tTy = none := hf
    simp only [tMapSign, if_pos hf3, Option.bind_eq_bind, Option.bind_eq_some_iff,
      Option.some.injEq] at hf'
    obtain ⟨f1p, h1p, f1n, h1n, g2, h2, g3, h3, rfl⟩ := hf'
    exact (image_ifSign hlit hwt hf3 (h _ f1 (by simp [children]) _ h1p)
      (hneg f1 (by simp [children]) _ h1n) (h _ f2 (by simp [children]) _ h2)
      (h _ f3 (by simp [children]) _ h3)).attrs
  | tnot a f1 =>
    simp only [tMapSign, Option.bind_eq_bind, Option.bind_eq_some_iff, Option.some.injEq] at hf'
    obtain ⟨g1, h1, rfl⟩ := hf'
    exact (image_tnot hwt (hneg f1 (by simp [children]) _ h1)).attrs
  | tbinop a op f1 f2 =>
    cases op with
    | timplies =>
      simp only [tMapSign, Option.bind_eq_bind, Option.bind_eq_some_iff,
        Option.some.injEq] at hf'
      obtain ⟨g1, h1, g2, h2, rfl⟩ := hf'
      exact (image_timplies hwt (hneg f1 (by simp [children]) _ h1)
        (h _ f2 (by simp [children]) _ h2)).attrs
    | tiff =>
      simp only [tMapSign, Option.bind_eq_bind, Option.bind_eq_some_iff,
        Option.some.injEq] at hf'
      obtain ⟨f1p, h1p, f1n, h1n, f2p, h2p, f2n, h2n, rfl⟩ := hf'
      exact (image_iffSign hlit hwt (h _ f1 (by simp [children]) _ h1p)
        (hneg f1 (by simp [children]) _ h1n) (h _ f2 (by simp [children]) _ h2p)
        (hneg f2 (by simp [children]) _ h2n)).attrs
    | _ =>
      refine image_tMapOpt hwt hf ?_ ?_ ?_ ?_ (h sign) hf' <;> exact fun _ _ => by simp
  | _ => refine image_tMapOpt hwt hf ?_ ?_ ?_ ?_ (h sign) hf' <;> exact fun _ _ => by simp

theorem tMapSign_isSome (hf : f.tTy = none) (h : ∀ s, ∀ u ∈ f.children, (fn s u).isSome = true) :
    (tMapSign sign f (fun s u _ => fn s u)).isSome = true := by
  have hmap : ((tMapOpt f (fun u _ => fn sign u)).map (tAttrCopy f)).isSome = true := by
    rw [tMapOpt_eq (h sign)]
    rfl
  have hsome : ∀ s, ∀ u ∈ f.children, ∃ u', fn s u = some u' :=
    fun s u hu => Option.isSome_iff_exists.mp (h s u hu)
  cases f with
  | tvar a v => cases hf
  | tconst a c ty => cases hf
  | teps a v f => cases hf
  | tif a f1 f2 f3 =>
    have hf3 : f3.tTy = none := hf
    obtain ⟨f1p, h1p⟩ := hsome sign f1 (by simp [children])
    obtain ⟨f1n, h1n⟩ := hsome (!sign) f1 (by simp [children])
    obtain ⟨g2, h2⟩ := hsome sign f2 (by simp [children])
    obtain ⟨g3, h3⟩ := hsome sign f3 (by simp [children])
    simp [tMapSign, hf3, h1p, h1n, h2, h3]
  | tnot a f1 =>
    obtain ⟨g1, h1⟩ := hsome (!sign) f1 (by simp [children])
    simp [tMapSign, h1]
  | tbinop a op f1 f2 =>
    cases op with
    | timplies =>
      obtain ⟨g1, h1⟩ := hsome (!sign) f1 (by simp [children])
      obtain ⟨g2, h2⟩ := hsome sign f2 (by simp [children])
      simp [tMapSign, h1, h2]
    | tiff =>
      obtain ⟨f1p, h1p⟩ := hsome sign f1 (by simp [children])
      obtain ⟨f1n, h1n⟩ := hsome (!sign) f1 (by simp [children])
      obtain ⟨f2p, h2p⟩ := hsome sign f2 (by simp [children])
      obtain ⟨f2n, h2n⟩ := hsome (!sign) f2 (by simp [children])
      simp [tMapSign, h1p, h1n, h2p, h2n]
    | _ => exact hmap
  | _ => exact hmap

end Map

/-- The mapping is monotone: a function that keeps the values of terms and makes formulas
stronger at the sign `true` and weaker at `false`, or with `rev` the other way, does the
same to every formula through the mapping, which fails on none. -/
theorem t_map_sign_monotone (hlit : I.LitExt) {fn : Bool → Term → Option Term} {rev : Bool}
    (hty : ∀ s g g', g.Wt sig → fn s g = some g' → g'.Wt sig ∧ g'.tTy = g.tTy)
    (hval : ∀ s g g', g.Wt sig → fn s g = some g' → g.tTy ≠ none →
      ∀ ρ : I.Env, I.Typed ρ → I.eval ρ g' = I.eval ρ g)
    (himp : ∀ s g g', g.Wt sig → fn s g = some g' → g.tTy = none →
      ∀ ρ : I.Env, I.Typed ρ → Implies (s != rev) (I.Holds ρ g') (I.Holds ρ g))
    {f : Term} (hwt : f.Wt sig) (hf : f.tTy = none) (sign : Bool) :
    ((∀ s, ∀ u ∈ f.children, (fn s u).isSome = true) →
      (tMapSign sign f (fun s u _ => fn s u)).isSome = true) ∧
    ∀ f', tMapSign sign f (fun s u _ => fn s u) = some f' → f'.Wt sig ∧ f'.tTy = none ∧
      ∀ ρ : I.Env, I.Typed ρ → Implies (sign != rev) (I.Holds ρ f') (I.Holds ρ f) := by
  refine ⟨tMapSign_isSome hf, fun f' hf' => ?_⟩
  have himage := @image_tMapSign _ I _ sign rev f hlit hwt hf (fun s u hu u' hu' => by
    have hwtu := wt_of_mem_children hwt hu
    obtain ⟨hwt', hty'⟩ := hty s u u' hwtu hu'
    refine ⟨hwt', hty', fun {ρ} hρ => ⟨fun hne => hval s u u' hwtu hu' hne ρ hρ, fun hnone => ?_⟩⟩
    exact polar_iff.mpr (himp s u u' hwtu hu' hnone ρ hρ)) f' hf'
  refine ⟨himage.wt, himage.ty.trans hf, fun ρ hρ => ?_⟩
  exact polar_iff.mp (himage.polar hf hρ)

/-- `not (x = 1)`, where a formula becomes `false` at the sign `true` and `true` at
`false`. -/
theorem t_map_sign_monotone_not :
    Implies true (intInterp.Holds (fun _ => (0 : ℤ)) (.tnot [] (.ttrue [])))
      (intInterp.Holds (fun _ => (0 : ℤ)) (.tnot [] LetImplies.equX)) := by
  have hwt : (Term.tnot [] LetImplies.equX).Wt (fun _ => []) := ⟨rfl, LetImplies.wt_equX⟩
  refine ((@t_map_sign_monotone _ intInterp litExt_intInterp
    (fun s g => some (if g.tTy = none then if s then .tfalse [] else .ttrue [] else g)) false
    ?_ ?_ ?_ _ hwt rfl true).2 _ rfl).2.2 _ fun _ => trivial
  · intro s g g' hwt hg
    cases hg
    split_ifs with hty hs
    · exact ⟨trivial, hty.symm⟩
    · exact ⟨trivial, hty.symm⟩
    · exact ⟨hwt, rfl⟩
  · intro s g g' _ hg hne ρ _
    cases hg
    rw [if_neg hne]
  · intro s g g' _ hg hnone ρ _
    cases hg
    rw [if_pos hnone]
    cases s with
    | false => exact fun _ => trivial
    | true => exact fun h => h.elim

end MapSign

end Why3
