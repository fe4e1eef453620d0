import Why3.Mlw.Skeleton
import Mathlib.Logic.Relation

/-!
# Region transitions

What `stitch` and the second pass of `eff_assign` compute.  A pair of regions
`(rf, rt)` says that `rt` is found, after the assignments, where the types expect
`rf`; from there a mutable field or a fixed position leads to further pairs.  The
pairs of the surviving written regions form a bijection, and those that are not
the identity are reset.
-/

namespace Why3

open Checks Paired List TagMap

/-! ## One step from a pair of regions -/

variable {l : List Region}

section Step

/-- The type of a mutable field after the writes. -/
def newFieldTy (fs : Mpv Ity) (r : Region) (f : PvSymbol) : Option Ity :=
  match fs.find? f with
  | some t => some t
  | none => r.fieldTy f

def Region.positions (r : Region) : List (ItsFlag × Ity) :=
  r.regIts.positions r.regArgs r.regRegs

variable (writes : Mreg (Mpv Ity))

/-- Through a mutable field. -/
def MutStep (p q : Region × Region) : Prop :=
  ∃ f ∈ p.1.regIts.itsMfields, ∃ tf tt, p.1.fieldTy f = some tf ∧
    newFieldTy (writes.findD p.2 .empty) p.2 f = some tt ∧ q ∈ tf.expRegs.zip tt.expRegs

/-- Through a fixed position. -/
def FixStep (p q : Region × Region) : Prop :=
  ∃ x ∈ p.1.positions.zip p.2.positions, x.1.1.itsFixed ∧ q ∈ x.1.2.expRegs.zip x.2.2.expRegs

def PlaceStep (p q : Region × Region) : Prop := MutStep writes p q ∨ FixStep p q

/-- What the success of `reg_rexp` on both sides says. -/
structure Stitched (p : Region × Region) : Prop where
  same : p.1.erase = p.2.erase
  from' : ∃ fl, regRexp p.1 .empty = .ok fl
  to' : ∃ tl, regRexp p.2 (writes.findD p.2 .empty) = .ok tl

variable {writes} {fs : Mpv Ity} {r : Region}

theorem mfieldTy_ok {f : PvSymbol} {tt : Ity} (h : mfieldTy r fs f = .ok tt) :
    newFieldTy fs r f = some tt ∧ ∃ tf, r.fieldTy f = some tf ∧ tf.erase = tt.erase := by
  unfold mfieldTy at h
  split at h
  · cases h
  · next tf htf =>
      rw [bind_eq_ok] at h
      obtain ⟨_, hskel, h⟩ := h
      cases h
      refine ⟨?_, tf, htf, itySkelCheck_ok hskel⟩
      unfold newFieldTy findD
      split
      · next t ht => rw [ht]; rfl
      · next hnone => rw [hnone, htf]; rfl

theorem regRexp_ok (h : regRexp r fs = .ok l) :
    ∃ tl, List.Forall₂ (fun f t => mfieldTy r fs f = .ok t) r.regIts.itsMfields tl ∧
      l = (tl.flatMap Ity.expRegs ++ r.fixedRegs).reverse := by
  unfold regRexp at h
  split at h
  · cases h
  · rw [bind_eq_ok] at h
    obtain ⟨tl, htl, h⟩ := h
    cases h
    exact ⟨tl, mapM_eq_ok.mp htl, rfl⟩

theorem regRexp_match (h : regRexp r fs = .ok l) :
    ∃ sbs, itsMatchRegs r.regIts r.regArgs r.regRegs = some sbs := by
  unfold regRexp at h
  split at h
  · cases h
  · next sbs hsbs => exact ⟨sbs, hsbs⟩

theorem newFieldTy_empty (r : Region) (f : PvSymbol) :
    newFieldTy .empty r f = r.fieldTy f := rfl

theorem positions_erase (r : Region) :
    r.positions.map (fun x => (x.1, x.2.erase)) =
      r.regIts.positions (r.regArgs.map Ity.erase) (r.regRegs.map Ity.erase) := by
  unfold Region.positions ItySymbol.positions
  rw [map_append, zip_map_right, zip_map_right]
  rfl

theorem positions_of_erase {r' : Region} (h : r.erase = r'.erase) :
    r.positions.map (fun x => (x.1, x.2.erase)) = r'.positions.map (fun x => (x.1, x.2.erase)) := by
  rw [positions_erase, positions_erase, Region.regIts_of_erase h, Region.regArgs_of_erase h,
    Region.regRegs_of_erase h]

theorem length_expRegs_of_erase {t t' : Ity} (h : t.erase = t'.erase) :
    t.expRegs.length = t'.expRegs.length := by
  have := congrArg List.length (Ity.expRegs_of_erase h)
  simpa using this

variable {q : Region × Region}

theorem erase_of_mem_zip_expRegs {t t' : Ity} (h : t.erase = t'.erase)
    (hq : q ∈ t.expRegs.zip t'.expRegs) : q.1.erase = q.2.erase :=
  eq_of_mem_zip (Ity.expRegs_of_erase h) hq

variable {p : Region × Region}

theorem Stitched.field_erase (h : Stitched writes p) {f : PvSymbol} (hf : f ∈ p.1.regIts.itsMfields)
    {tf tt : Ity} (htf : p.1.fieldTy f = some tf)
    (htt : newFieldTy (writes.findD p.2 .empty) p.2 f = some tt) : tf.erase = tt.erase := by
  obtain ⟨tl, htl⟩ := h.to'
  obtain ⟨tyl, htyl, _⟩ := regRexp_ok htl
  rw [Region.regIts_of_erase h.same] at hf
  obtain ⟨t, _, ht⟩ := exists_of_mem_left htyl hf
  obtain ⟨hnew, tf', htf', hskel⟩ := mfieldTy_ok ht
  rw [htt, Option.some.injEq] at hnew
  subst hnew
  rw [fieldTy_erase h.same htf htf', hskel]

theorem MutStep.erase (hp : Stitched writes p) (h : MutStep writes p q) :
    q.1.erase = q.2.erase := by
  obtain ⟨f, hf, tf, tt, htf, htt, hq⟩ := h
  exact erase_of_mem_zip_expRegs (hp.field_erase hf htf htt) hq

theorem FixStep.erase (hp : p.1.erase = p.2.erase) (h : FixStep p q) : q.1.erase = q.2.erase := by
  obtain ⟨x, hx, _, hq⟩ := h
  have := eq_of_mem_zip (positions_of_erase hp) hx
  exact erase_of_mem_zip_expRegs (congrArg Prod.snd this) hq

theorem PlaceStep.erase (hp : Stitched writes p) (h : PlaceStep writes p q) :
    q.1.erase = q.2.erase := by
  rcases h with h | h
  · exact h.erase hp
  · exact h.erase hp.same

theorem PlaceStep.height (h : PlaceStep writes p q) : q.1.height < p.1.height := by
  rcases h with ⟨f, _, tf, tt, htf, _, hq⟩ | ⟨x, hx, hfix, hq⟩
  · exact lt_of_le_of_lt (height_of_mem_expRegs (of_mem_zip hq).1) (height_fieldTy htf)
  · apply height_fixedRegs
    refine mem_flatMap.mpr ⟨x.1, (of_mem_zip hx).1, ?_⟩
    rw [if_pos hfix]
    exact (of_mem_zip hq).1

theorem forall₂_field_types (hp : Stitched writes p) {tl₁ tl₂ : List Ity}
    (h₁ : List.Forall₂ (fun f t => p.1.fieldTy f = some t) p.1.regIts.itsMfields tl₁)
    (h₂ : List.Forall₂ (fun f t => newFieldTy (writes.findD p.2 .empty) p.2 f = some t)
      p.1.regIts.itsMfields tl₂) :
    List.Forall₂ (fun t t' => t.expRegs.length = t'.expRegs.length) tl₁ tl₂ := by
  rw [forall₂_iff_zip]
  refine ⟨h₁.length_eq.symm.trans h₂.length_eq, fun hx => ?_⟩
  obtain ⟨f, hf, htf, htt⟩ := (mem_zip_of_common h₁ h₂).mp hx
  exact length_expRegs_of_erase (hp.field_erase hf htf htt)

theorem mem_zip_mutable (hp : Stitched writes p) {tl₁ tl₂ : List Ity}
    (h₁ : List.Forall₂ (fun f t => p.1.fieldTy f = some t) p.1.regIts.itsMfields tl₁)
    (h₂ : List.Forall₂ (fun f t => newFieldTy (writes.findD p.2 .empty) p.2 f = some t)
      p.1.regIts.itsMfields tl₂) :
    q ∈ (tl₁.flatMap Ity.expRegs).zip (tl₂.flatMap Ity.expRegs) ↔ MutStep writes p q := by
  rw [mem_zip_flatMap (forall₂_field_types hp h₁ h₂)]
  constructor
  · rintro ⟨x, hx, hq⟩
    obtain ⟨f, hf, htf, htt⟩ := (mem_zip_of_common h₁ h₂).mp hx
    exact ⟨f, hf, x.1, x.2, htf, htt, hq⟩
  · rintro ⟨f, hf, tf, tt, htf, htt, hq⟩
    exact ⟨(tf, tt), (mem_zip_of_common h₁ h₂).mpr ⟨f, hf, htf, htt⟩, hq⟩

theorem fixedRegs_zip (hp : p.1.erase = p.2.erase) : p.1.fixedRegs.length = p.2.fixedRegs.length ∧
      ∀ q, q ∈ p.1.fixedRegs.zip p.2.fixedRegs ↔ FixStep p q := by
  have hpos := positions_of_erase hp
  have hlen : p.1.positions.length = p.2.positions.length := by
    have := congrArg List.length hpos
    simpa using this
  -- at one position the flags are the same and so is the number of regions
  have hall : List.Forall₂ (fun x y : ItsFlag × Ity =>
    (if x.1.itsFixed then x.2.expRegs else []).length =
      (if y.1.itsFixed then y.2.expRegs else []).length) p.1.positions p.2.positions := by
    rw [forall₂_iff_zip]
    refine ⟨hlen, fun hx => ?_⟩
    have heq := eq_of_mem_zip hpos hx
    simp only [Prod.mk.injEq] at heq
    rw [heq.1]
    split
    · exact length_expRegs_of_erase heq.2
    · rfl
  constructor
  · exact length_flatMap_eq hall
  · intro q
    show q ∈ (List.flatMap _ p.1.positions).zip (List.flatMap _ p.2.positions) ↔ _
    rw [mem_zip_flatMap hall]
    constructor
    · rintro ⟨x, hx, hq⟩
      have heq := congrArg Prod.fst (eq_of_mem_zip hpos hx)
      simp only at heq
      rw [← heq] at hq
      split at hq
      · next hfix => exact ⟨x, hx, hfix, hq⟩
      · cases hq
    · rintro ⟨x, hx, hfix, hq⟩
      have heq := congrArg Prod.fst (eq_of_mem_zip hpos hx)
      simp only at heq
      refine ⟨x, hx, ?_⟩
      rw [if_pos hfix, ← heq, if_pos hfix]
      exact hq

/-- The pairs that `stitch` links are the steps. -/
theorem Stitched.zip (hp : Stitched writes p) {fl tl : List Region}
    (hfl : regRexp p.1 .empty = .ok fl) (htl : regRexp p.2 (writes.findD p.2 .empty) = .ok tl) :
    fl.length = tl.length ∧ ∀ q, q ∈ fl.zip tl ↔ PlaceStep writes p q := by
  obtain ⟨tl₁, h₁, rfl⟩ := regRexp_ok hfl
  obtain ⟨tl₂, h₂, rfl⟩ := regRexp_ok htl
  rw [← Region.regIts_of_erase hp.same] at h₂
  have h₁' : List.Forall₂ (fun f t => p.1.fieldTy f = some t) p.1.regIts.itsMfields tl₁ :=
    h₁.imp (fun f t h => (mfieldTy_ok h).1)
  have h₂' : List.Forall₂ (fun f t => newFieldTy (writes.findD p.2 .empty) p.2 f = some t)
      p.1.regIts.itsMfields tl₂ := h₂.imp (fun f t h => (mfieldTy_ok h).1)
  have hmut := length_flatMap_eq (forall₂_field_types hp h₁' h₂')
  obtain ⟨hfix, hfixmem⟩ := fixedRegs_zip hp.same
  have hlen : (tl₁.flatMap Ity.expRegs ++ p.1.fixedRegs).length =
      (tl₂.flatMap Ity.expRegs ++ p.2.fixedRegs).length := by
    rw [length_append, length_append, hmut, hfix]
  constructor
  · rw [length_reverse, length_reverse, hlen]
  · intro q
    rw [mem_zip_reverse hlen, mem_zip_append hmut, mem_zip_mutable hp h₁' h₂', hfixmem]
    exact .rfl

end Step

/-! ## All steps from a written region -/

variable {r : Region} {pl : List (Region × Region)} {fs : Mpv Ity}

section Stitch

open Relation

variable {writes : Mreg (Mpv Ity)}

theorem stitch_succ {n : ℕ} {pl' : List (Region × Region)} {rf rt : Region}
    (h : stitch writes (n + 1) pl rf rt fs = .ok pl') :
    ∃ fl tl, regRexp rf .empty = .ok fl ∧ regRexp rt fs = .ok tl ∧ (fl.zip tl).foldlM
      (fun pl p => stitch writes n (p :: pl) p.1 p.2 (writes.findD p.2 .empty)) pl = .ok pl' := by
  unfold stitch at h
  simp only [bind_eq_ok] at h
  obtain ⟨fl, hfl, tl, htl, h⟩ := h
  split at h
  · exact ⟨fl, tl, hfl, htl, h⟩
  · cases h

/-- `stitch` adds all pairs that steps lead to. -/
theorem stitch_ok : ∀ (n : ℕ) {pl pl' : List (Region × Region)} {rf rt : Region},
    rf.erase = rt.erase → stitch writes n pl rf rt (writes.findD rt .empty) = .ok pl' →
    ∀ p, p ∈ pl' ↔ p ∈ pl ∨ TransGen (PlaceStep writes) (rf, rt) p := by
  intro n
  induction n with
  | zero => intro pl pl' rf rt _ h; cases h
  | succ n ih =>
    intro pl pl' rf rt hsame h p
    obtain ⟨fl, tl, hfl, htl, h⟩ := stitch_succ h
    have hst : Stitched writes (rf, rt) := ⟨hsame, ⟨fl, hfl⟩, ⟨tl, htl⟩⟩
    have hzip := (hst.zip hfl htl).2
    have hmem := foldlM_collect (H := fun pl p => p ∈ pl)
      (S := fun q p => p = q ∨ TransGen (PlaceStep writes) q p) (fun q hq pl pl' h p => by
        have := ih (((hzip q).mp hq).erase hst) h p
        rw [this, mem_cons]
        tauto) h p
    rw [hmem, TransGen.head'_iff]
    apply or_congr_right
    constructor
    · rintro ⟨q, hq, rfl | hp⟩
      · exact ⟨p, (hzip p).mp hq, .refl⟩
      · exact ⟨q, (hzip q).mp hq, hp.to_reflTransGen⟩
    · rintro ⟨q, hq, hp⟩
      refine ⟨q, (hzip q).mpr hq, ?_⟩
      exact reflTransGen_iff_eq_or_transGen.mp hp

/-- Its success says that `reg_rexp` succeeds at all these pairs. -/
theorem stitched_of_stitch : ∀ (n : ℕ) {pl pl' : List (Region × Region)} {rf rt : Region},
    rf.erase = rt.erase → stitch writes n pl rf rt (writes.findD rt .empty) = .ok pl' →
    ∀ p, ReflTransGen (PlaceStep writes) (rf, rt) p → Stitched writes p := by
  intro n
  induction n with
  | zero => intro pl pl' rf rt _ h; cases h
  | succ n ih =>
    intro pl pl' rf rt hsame h p hp
    obtain ⟨fl, tl, hfl, htl, h⟩ := stitch_succ h
    have hst : Stitched writes (rf, rt) := ⟨hsame, ⟨fl, hfl⟩, ⟨tl, htl⟩⟩
    have hzip := (hst.zip hfl htl).2
    rcases ReflTransGen.cases_head hp with rfl | ⟨q, hq, hp⟩
    · exact hst
    · have hall := (foldlM_all (M := fun _ _ => True)
        (P := fun q _ => q ∈ fl.zip tl → ∀ p, ReflTransGen (PlaceStep writes) q p →
          Stitched writes p) (fun _ => trivial) (fun _ _ => trivial) (fun h _ => h)
        (fun {_ q _} h => ⟨trivial, fun hq => ih (((hzip q).mp hq).erase hst) h⟩) h).2
      have hmem := (hzip q).mpr hq
      exact hall q hmem hmem p hp

/-! ### The height is enough -/

theorem itySkelCheckList_ne_outOfFuel {l1 : List Ity}
    (ih : ∀ t ∈ l1, ∀ t2, itySkelCheck t t2 ≠ .error .outOfFuel) :
    ∀ {l2 : List Ity}, itySkelCheckList l1 l2 ≠ .error .outOfFuel := by
  induction l1 with
  | nil =>
    intro l2 h
    cases l2 <;> cases h
  | cons t1 l1 ihl =>
    intro l2 h
    cases l2 with
    | nil => cases h
    | cons t2 l2 =>
      rw [itySkelCheckList, bind_eq_error] at h
      rcases h with h | ⟨_, _, h⟩
      · exact ih t1 mem_cons_self t2 h
      · exact ihl (fun t ht => ih t (mem_cons_of_mem _ ht)) h

theorem itySkelCheck_ne_outOfFuel {t1 : Ity} : ∀ {t2 : Ity},
    itySkelCheck t1 t2 ≠ .error .outOfFuel := by
  induction t1 with
  | ityreg n s tl rl ihtl ihrl | ityapp s tl rl ihtl ihrl =>
    intro t2 h
    unfold itySkelCheck at h
    split at h
    · cases h
    · split at h
      · split at h
        · rw [bind_eq_error] at h
          rcases h with h | ⟨_, _, h⟩
          · exact itySkelCheckList_ne_outOfFuel (fun t ht t2 => ihtl t ht) h
          · exact itySkelCheckList_ne_outOfFuel (fun t ht t2 => ihrl t ht) h
        · cases h
      · cases h
  | ityvar v =>
    intro t2 h
    unfold itySkelCheck at h
    split at h <;> cases h

theorem regRexp_ne_outOfFuel (r : Region) (fs : Mpv Ity) : regRexp r fs ≠ .error .outOfFuel := by
  intro h
  unfold regRexp at h
  split at h
  · cases h
  · rw [bind_eq_error] at h
    rcases h with h | ⟨_, _, h⟩
    · obtain ⟨f, _, hf⟩ := mapM_error h
      unfold mfieldTy at hf
      split at hf
      · cases hf
      · rw [bind_eq_error] at hf
        rcases hf with hf | ⟨_, _, hf⟩
        · exact itySkelCheck_ne_outOfFuel hf
        · cases hf
    · cases h

theorem height_of_mem_regRexp {x : Region} (h : regRexp r .empty = .ok l)
    (hx : x ∈ l) : x.height < r.height := by
  obtain ⟨tl, htl, rfl⟩ := regRexp_ok h
  rw [mem_reverse, mem_append] at hx
  rcases hx with hx | hx
  · obtain ⟨t, ht, hx⟩ := mem_flatMap.mp hx
    obtain ⟨f, _, hf⟩ := exists_of_mem_right htl ht
    have hft := (mfieldTy_ok hf).1
    rw [newFieldTy_empty] at hft
    exact lt_of_le_of_lt (height_of_mem_expRegs hx) (height_fieldTy hft)
  · exact height_fixedRegs hx

theorem stitch_ne_outOfFuel : ∀ (n : ℕ) {pl : List (Region × Region)} {rf rt : Region}
    {fs : Mpv Ity}, rf.height ≤ n → stitch writes n pl rf rt fs ≠ .error .outOfFuel := by
  intro n
  induction n with
  | zero =>
    intro pl rf rt fs hn
    obtain ⟨_, _, _, _⟩ := rf
    exact absurd hn (Nat.not_succ_le_zero _)
  | succ n ih =>
    intro pl rf rt fs hn h
    unfold stitch at h
    rw [bind_eq_error] at h
    rcases h with h | ⟨fl, hfl, h⟩
    · exact regRexp_ne_outOfFuel _ _ h
    · rw [bind_eq_error] at h
      rcases h with h | ⟨tl, _, h⟩
      · exact regRexp_ne_outOfFuel _ _ h
      · split at h
        · obtain ⟨q, hq, pl', h⟩ := foldlM_error h
          have hlt := height_of_mem_regRexp hfl (of_mem_zip hq).1
          exact ih (by omega) h
        · cases h

/-- `transitions` never runs out of fuel. -/
theorem transitions_ne_outOfFuel (r : Region) (fs : Mpv Ity) :
    transitions writes r fs ≠ .error .outOfFuel :=
  stitch_ne_outOfFuel r.height le_rfl

theorem transitions_ok
    (hr : writes.find? r = some fs) (h : transitions writes r fs = .ok pl) :
    (∀ p, p ∈ pl ↔ TransGen (PlaceStep writes) (r, r) p) ∧
      ∀ p, ReflTransGen (PlaceStep writes) (r, r) p → Stitched writes p := by
  have hfs : writes.findD r .empty = fs := by
    unfold findD
    rw [hr]
    rfl
  unfold transitions at h
  rw [← hfs] at h
  refine ⟨fun p => ?_, stitched_of_stitch r.height rfl h⟩
  rw [stitch_ok r.height rfl h p]
  simp

end Stitch

/-! ## The second pass -/

variable {p : Region × Region} {m : List (Region × List (Region × Region))} {acc : Resets}

section Resets

/-- The bindings of `m` are kept. -/
def Extends (m m' : Mreg Region) : Prop := ∀ k x, m.find? k = some x → m'.find? k = some x

theorem addBind_ok {r1 r2 : Region} {m m' : Mreg Region} (h : addBind r1 r2 m = .ok m') :
    m'.find? r1 = some r2 ∧ Extends m m' := by
  unfold addBind at h
  split at h
  · next r3 hr3 =>
      split at h
      · next heq =>
          cases h
          rw [heq]
          exact ⟨hr3, fun _ _ h => h⟩
      · cases h
  · next hnone =>
      cases h
      refine ⟨find?_add_self, fun k x hx => ?_⟩
      have hne : k ≠ r1 := by
        rintro rfl
        rw [hnone] at hx
        cases hx
      rw [find?_add_of_ne hne]
      exact hx

/-- A later state of the second pass. -/
structure Resets.Le (a b : Resets) : Prop where
  rst : a.rst ⊆ b.rst
  mt : Extends a.mt b.mt
  mf : Extends a.mf b.mf

theorem Resets.Le.refl (a : Resets) : a.Le a :=
  ⟨List.Subset.refl _, fun _ _ h => h, fun _ _ h => h⟩

theorem Resets.Le.trans {a b c : Resets} (h : a.Le b) (h' : b.Le c) : a.Le c :=
  ⟨List.Subset.trans h.rst h'.rst, fun k x hx => h'.mt k x (h.mt k x hx),
    fun k x hx => h'.mf k x (h.mf k x hx)⟩

/-- The pair is recorded. -/
structure Resets.Has (acc : Resets) (p : Region × Region) : Prop where
  mt : acc.mt.find? p.1 = some p.2
  mf : acc.mf.find? p.2 = some p.1
  rst : p.1 ≠ p.2 → p.1 ∈ acc.rst ∧ p.2 ∈ acc.rst

theorem Resets.Has.mono {a b : Resets} (h : a.Has p) (hle : a.Le b) :
    b.Has p :=
  ⟨hle.mt _ _ h.mt, hle.mf _ _ h.mf, fun hne => ⟨hle.rst (h.rst hne).1, hle.rst (h.rst hne).2⟩⟩

variable {acc' : Resets}

theorem addPair_ok (h : addPair acc p = .ok acc') :
    acc.Le acc' ∧ acc'.Has p := by
  unfold addPair at h
  simp only [bind_eq_ok] at h
  obtain ⟨mt, hmt, mf, hmf, h⟩ := h
  cases h
  obtain ⟨hmt, hmt'⟩ := addBind_ok hmt
  obtain ⟨hmf, hmf'⟩ := addBind_ok hmf
  refine ⟨⟨?_, hmt', hmf'⟩, hmt, hmf, fun hne => ?_⟩
  · show acc.rst ⊆ if p.1 = p.2 then acc.rst else p.1 :: p.2 :: acc.rst
    split
    · exact List.Subset.refl _
    · exact fun x hx => mem_cons_of_mem _ (mem_cons_of_mem _ hx)
  · simp [hne]

theorem addWrite_ok {w : Region × List (Region × Region)}
    (h : addWrite acc w = .ok acc') : acc.Le acc' ∧ (w.1 ∈ acc'.rst ∨ ∀ p ∈ w.2, acc'.Has p) := by
  unfold addWrite at h
  split at h
  · next hmem =>
      cases h
      exact ⟨.refl _, .inl hmem⟩
  · obtain ⟨hle, hall⟩ := foldlM_all (M := Resets.Le) (P := fun p acc => acc.Has p)
      Resets.Le.refl Resets.Le.trans Resets.Has.mono addPair_ok h
    exact ⟨hle, .inr hall⟩

theorem addWrites_ok
    (h : m.foldlM addWrite acc = .ok acc') : ∀ w ∈ m, w.1 ∈ acc'.rst ∨ ∀ p ∈ w.2, acc'.Has p := by
  refine (foldlM_all (M := Resets.Le)
    (P := fun (w : Region × List (Region × Region)) acc => w.1 ∈ acc.rst ∨ ∀ p ∈ w.2, acc.Has p)
    Resets.Le.refl Resets.Le.trans (fun hP hle => ?_) addWrite_ok h).2
  rcases hP with hmem | hall
  · exact .inl (hle.rst hmem)
  · exact .inr fun p hp => (hall p hp).mono hle

end Resets

/-! ## What acceptance says -/

section Accepted

/-- The effect of accepted assignments, with the writes and the transitions it
was computed from. -/
structure Accepted (asl : List Assign) (eff : Effekt) (writes : Mreg (Mpv Ity)) (acc : Resets) :
    Prop where
  collected : asl.foldlM addAssign .empty = .ok writes
  trans : ∀ r fs, writes.find? r = some fs → ∃ pl, transitions writes r fs = .ok pl ∧
    (r ∈ acc.rst ∨ ∀ p ∈ pl, acc.Has p)
  resets : eff.effResets = acc.rst
  covers : eff.effCovers = writes.keys.filter (· ∉ acc.rst)
  reads : ∀ a ∈ asl, a.1 ∈ eff.effReads.keys ∧ a.2.2 ∈ eff.effReads.keys

theorem mem_reads {asl : List Assign} {s : Spv} {x : PvSymbol} :
    x ∈ (asl.foldl (fun s a => (s.add a.2.2 ()).add a.1 ()) s).keys ↔
      x ∈ s.keys ∨ ∃ a ∈ asl, x = a.1 ∨ x = a.2.2 := by
  induction asl generalizing s with
  | nil => simp
  | cons a asl ih =>
    rw [foldl_cons, ih]
    have hadd : x ∈ ((s.add a.2.2 ()).add a.1 ()).keys ↔ x ∈ s.keys ∨ x = a.1 ∨ x = a.2.2 := by
      simp only [TagMap.mem_keys, find?_add]
      by_cases h₁ : x = a.1
      · simp [h₁]
      · by_cases h₂ : x = a.2.2
        · simp [h₂]
        · simp [h₁, h₂]
    rw [hadd]
    simp [or_assoc]

theorem transitionLevels_ok {writes : Mreg (Mpv Ity)}
    (h : transitionLevels writes = .ok m)
    (hr : writes.find? r = some fs) :
    ∃ pl, transitions writes r fs = .ok pl ∧ (r, pl) ∈ m := by
  unfold transitionLevels at h
  rw [bind_eq_ok] at h
  obtain ⟨m', hm', h⟩ := h
  cases h
  obtain ⟨w, hw, hpl⟩ := exists_of_mem_left (mapM_eq_ok.mp hm') (TagMap.find?_eq_some_iff.mp hr)
  rw [bind_eq_ok] at hpl
  obtain ⟨pl, hpl, h⟩ := hpl
  cases h
  exact ⟨pl, hpl, (mem_insertionSort _).mpr (of_mem_zip hw).2⟩

theorem effAssign_ok {asl : List Assign} {eff : Effekt} (h : effAssign asl = .ok eff) :
    ∃ writes acc, Accepted asl eff writes acc := by
  unfold effAssign at h
  simp only [bind_eq_ok] at h
  obtain ⟨writes, hwr, taint, _, _, _, m, hm, acc, hacc, _, _, h⟩ := h
  cases h
  refine ⟨writes, acc, hwr, fun r fs hr => ?_, rfl, rfl, fun a ha => ?_⟩
  · obtain ⟨pl, hpl, hmem⟩ := transitionLevels_ok hm hr
    exact ⟨pl, hpl, addWrites_ok hacc (r, pl) hmem⟩
  · exact ⟨mem_reads.mpr (.inr ⟨a, ha, .inl rfl⟩), mem_reads.mpr (.inr ⟨a, ha, .inr rfl⟩)⟩

variable {asl : List Assign} {eff : Effekt} {writes : Mreg (Mpv Ity)} {acc : Resets}

theorem Accepted.mem_covers (h : Accepted asl eff writes acc) :
    r ∈ eff.effCovers ↔ (∃ fs, writes.find? r = some fs) ∧ r ∉ eff.effResets := by
  rw [h.covers, h.resets, mem_filter, TagMap.mem_keys]
  simp

open Relation

/-- The pairs of the surviving written regions. -/
def CoveredPair (eff : Effekt) (writes : Mreg (Mpv Ity)) (p : Region × Region) : Prop :=
  ∃ r ∈ eff.effCovers, ReflTransGen (PlaceStep writes) (r, r) p

theorem Accepted.stitched (h : Accepted asl eff writes acc)
    (hp : CoveredPair eff writes p) : Stitched writes p := by
  obtain ⟨r, hr, hp⟩ := hp
  obtain ⟨⟨fs, hfs⟩, _⟩ := h.mem_covers.mp hr
  obtain ⟨pl, hpl, _⟩ := h.trans r fs hfs
  exact (transitions_ok hfs hpl).2 p hp

/-- A pair is recorded in the two maps, or it is a surviving region with itself. -/
theorem Accepted.has_or_refl (h : Accepted asl eff writes acc)
    (hp : CoveredPair eff writes p) : acc.Has p ∨ (p.1 = p.2 ∧ p.1 ∉ acc.rst) := by
  obtain ⟨r, hr, hp⟩ := hp
  obtain ⟨⟨fs, hfs⟩, hnot⟩ := h.mem_covers.mp hr
  rw [h.resets] at hnot
  obtain ⟨pl, hpl, hacc⟩ := h.trans r fs hfs
  rcases reflTransGen_iff_eq_or_transGen.mp hp with rfl | hp
  · exact .inr ⟨rfl, hnot⟩
  · exact .inl (hacc.resolve_left hnot p (((transitions_ok hfs hpl).1 p).mpr hp))

/-- The pairs that are not the identity are reset. -/
theorem Accepted.reset (h : Accepted asl eff writes acc)
    (hp : CoveredPair eff writes p) (hne : p.1 ≠ p.2) :
    p.1 ∈ eff.effResets ∧ p.2 ∈ eff.effResets := by
  rw [h.resets]
  rcases h.has_or_refl hp with hhas | ⟨heq, _⟩
  · exact hhas.rst hne
  · exact absurd heq hne

theorem Accepted.eq_of_not_reset (h : Accepted asl eff writes acc)
    (hp : CoveredPair eff writes p) (hnot : p.1 ∉ acc.rst ∨ p.2 ∉ acc.rst) : p.1 = p.2 := by
  by_contra hne
  have hreset := h.reset hp hne
  rw [h.resets] at hreset
  rcases hnot with hnot | hnot
  · exact hnot hreset.1
  · exact hnot hreset.2

theorem Accepted.pair_left (h : Accepted asl eff writes acc) {q : Region × Region}
    (hp : CoveredPair eff writes p) (hq : CoveredPair eff writes q) (heq : p.1 = q.1) :
    p.2 = q.2 := by
  rcases h.has_or_refl hp with hhp | ⟨hpp, hnot⟩
  · rcases h.has_or_refl hq with hhq | ⟨hqq, hnot⟩
    · have := hhp.mt
      rw [heq, hhq.mt, Option.some.injEq] at this
      exact this.symm
    · rw [← heq] at hnot
      rw [← h.eq_of_not_reset hp (.inl hnot), heq, hqq]
  · rw [heq] at hnot
    rw [← hpp, heq, h.eq_of_not_reset hq (.inl hnot)]

theorem Accepted.pair_right (h : Accepted asl eff writes acc) {q : Region × Region}
    (hp : CoveredPair eff writes p) (hq : CoveredPair eff writes q) (heq : p.2 = q.2) :
    p.1 = q.1 := by
  rcases h.has_or_refl hp with hhp | ⟨hpp, hnot⟩
  · rcases h.has_or_refl hq with hhq | ⟨hqq, hnot⟩
    · have := hhp.mf
      rw [heq, hhq.mf, Option.some.injEq] at this
      exact this.symm
    · rw [hqq, ← heq] at hnot
      rw [h.eq_of_not_reset hp (.inr hnot), heq, hqq]
  · rw [hpp, heq] at hnot
    rw [hpp, heq, h.eq_of_not_reset hq (.inr hnot)]

end Accepted

end Why3
