import Why3.Transform.EliminateIfCorrect
import Why3.Transform.EliminateIfFmla

/-!
# No conditional formula is left

The result has the truth value of the formula at either polarity, no conditional formula at
any place, and it has no other conditional than the formula has.
-/

namespace Why3

open List Option Bool Term Interp

variable {f t t' : Term}

/-! ## Conditional formulas -/

variable {a : Sattr}

namespace Term

/-- No conditional is a formula, in the triggers neither. -/
inductive NoFmlaIf : Term → Prop
  | mk {t : Term} (hif : ∀ {a f t1 t2}, t = .tif a f t1 t2 → t2.tTy ≠ none)
      (h : ∀ u ∈ t.children, NoFmlaIf u) : NoFmlaIf t

theorem NoFmlaIf.of_children (hne : ∀ a f t1 t2, t ≠ .tif a f t1 t2)
    (h : ∀ u ∈ t.children, NoFmlaIf u) : NoFmlaIf t :=
  ⟨fun heq => absurd heq (hne _ _ _ _), h⟩

theorem noFmlaIf_setAttrs (h : NoFmlaIf t) : NoFmlaIf (t.setAttrs a) := by
  obtain ⟨hif, h⟩ := h
  cases t with
  | tif b f t1 t2 =>
    refine ⟨fun heq => ?_, h⟩
    cases heq
    exact hif rfl
  | _ => exact .of_children (fun _ _ _ _ heq => by cases heq) h

theorem noFmlaIf_tbinop {op : Binop} {g : Term} (hf : NoFmlaIf f) (hg : NoFmlaIf g) :
    NoFmlaIf (.tbinop a op f g) :=
  .of_children (fun _ _ _ _ heq => by cases heq) (by simp [children, hf, hg])

theorem noFmlaIf_tnot (hf : NoFmlaIf f) : NoFmlaIf (.tnot a f) :=
  .of_children (fun _ _ _ _ heq => by cases heq) (by simp [children, hf])

theorem noTermIf_tbinop {op : Binop} {g : Term} (hf : NoTermIf f) (hg : NoTermIf g) :
    NoTermIf (.tbinop a op f g) :=
  .of_parts (fun _ _ _ _ heq => by cases heq) (by simp [Term.parts, children, hf, hg])

theorem noTermIf_tnot (hf : NoTermIf f) : NoTermIf (.tnot a f) :=
  .of_parts (fun _ _ _ _ heq => by cases heq) (by simp [Term.parts, children, hf])

theorem children_tMap (g : Term → Term) (t : Term) : (t.tMap g).children = t.children.map g := by
  cases t <;> simp [tMap, children, Function.comp_def, map_flatten]

theorem parts_tMap (g : Term → Term) (t : Term) : (t.tMap g).parts = t.parts.map g := by
  cases t <;> simp [tMap, Term.parts, children, Function.comp_def]

theorem mem_children_of_parts {u : Term} (h : u ∈ t.parts) : u ∈ t.children := by
  cases t with
  | tquant a q vl trl f => exact mem_cons.mpr (.inl (mem_singleton.mp h))
  | _ => exact h

end Term

namespace EliminateIfFmla

open CondSubst Term

variable {sig : TySymbol → List LSymbol}

/-- The term `t'` replaces `t`. -/
structure Removed (sig : TySymbol → List LSymbol) (t t' : Term) : Prop where
  wt : t'.Wt sig
  ty : t'.tTy = t.tTy
  clean : t'.NoFmlaIf
  keeps : t.NoTermIf → t'.NoTermIf
  equiv : ∀ I : Interp sig, I.EpsExt → I.Equiv t t'

theorem Removed.attrs {s : Term} (h : Removed sig t t') : Removed sig t (tAttrCopy s t') where
  wt := (wt_setAttrs _ t').mpr h.wt
  ty := (tTy_setAttrs _ t').trans h.ty
  clean := noFmlaIf_setAttrs h.clean
  keeps hkeep := noTermIf_setAttrs (h.keeps hkeep)
  equiv I heps := Interp.equiv_tAttrCopy.mpr (h.equiv I heps)

theorem removed_tMap {g : Term → Term} (hwt : t.Wt sig)
    (hne : ∀ {a f t1 t2}, t = .tif a f t1 t2 → t2.tTy ≠ none)
    (h : ∀ u ∈ t.children, Removed sig u (g u)) : Removed sig t (t.tMap g) := by
  obtain ⟨hwt', hty⟩ := wt_tMap (fun u hu _ => ⟨(h u hu).wt, (h u hu).ty⟩) hwt
  have hclean : ∀ u ∈ (t.tMap g).children, u.NoFmlaIf := by
    rw [children_tMap]
    exact forall_mem_map.mpr (fun u hu => (h u hu).clean)
  have hkeeps : t.NoTermIf → ∀ u ∈ (t.tMap g).parts, u.NoTermIf := by
    rw [parts_tMap]
    exact fun hkeep => forall_mem_map.mpr
      (fun u hu => (h u (mem_children_of_parts hu)).keeps (hkeep.parts u hu))
  refine ⟨hwt', hty, ?_, fun hkeep => ?_, fun I heps =>
    equiv_tMap heps (fun u hu _ => (h u hu).equiv I heps) hwt⟩
  · cases t with
    | tif a f t1 t2 =>
      refine ⟨fun heq => ?_, hclean⟩
      cases heq
      rw [(h t2 (by simp [children])).ty]
      exact hne rfl
    | _ => exact .of_children (fun _ _ _ _ heq => by cases heq) hclean
  · cases t with
    | tif a f t1 t2 =>
      obtain ⟨hif, _⟩ := hkeep
      exact absurd (hif rfl) (hne rfl)
    | _ => exact .of_parts (fun _ _ _ _ heq => by cases heq) (hkeeps hkeep)

section Signs

variable {sign : Bool} {a : Sattr} {f1 f2 f3 f1p f1n f2p f2n g2 g3 : Term}

theorem removed_ifFmla (hwt : (tif a f1 f2 f3).Wt sig) (hty : f3.tTy = none)
    (h1p : Removed sig f1 f1p) (h1n : Removed sig f1 f1n) (h2 : Removed sig f2 g2)
    (h3 : Removed sig f3 g3) : Removed sig (.tif a f1 f2 f3) (ifFmla sign f1p f1n g2 g3) := by
  obtain ⟨hty1, h23, _, _, _⟩ := hwt
  have hty2 : f2.tTy = none := h23.trans hty
  have hp := h1p.ty.trans hty1
  have hn := h1n.ty.trans hty1
  have hg2 := h2.ty.trans hty2
  have hg3 := h3.ty.trans hty
  have hwt' : (ifFmla sign f1p f1n g2 g3).Wt sig := by
    unfold ifFmla
    split_ifs
    · exact ⟨rfl, rfl, ⟨hn, hg2, h1n.wt, h2.wt⟩, rfl, hg3, ⟨hp, h1p.wt⟩, h3.wt⟩
    · exact ⟨rfl, rfl, ⟨hp, hg2, h1p.wt, h2.wt⟩, rfl, hg3, ⟨hn, h1n.wt⟩, h3.wt⟩
  have hty' : (ifFmla sign f1p f1n g2 g3).tTy = none := by
    unfold ifFmla
    split_ifs <;> rfl
  refine ⟨hwt', hty'.trans hty.symm, ?_, fun hkeep => ?_, fun I heps => ?_⟩
  · unfold ifFmla
    split_ifs
    · exact noFmlaIf_tbinop (noFmlaIf_tbinop h1n.clean h2.clean)
        (noFmlaIf_tbinop (noFmlaIf_tnot h1p.clean) h3.clean)
    · exact noFmlaIf_tbinop (noFmlaIf_tbinop h1p.clean h2.clean)
        (noFmlaIf_tbinop (noFmlaIf_tnot h1n.clean) h3.clean)
  · have hparts := hkeep.parts
    simp only [Term.parts, children, forall_mem_cons] at hparts
    obtain ⟨k1, k2, k3, _⟩ := hparts
    unfold ifFmla
    split_ifs
    · exact noTermIf_tbinop (noTermIf_tbinop (h1n.keeps k1) (h2.keeps k2))
        (noTermIf_tbinop (noTermIf_tnot (h1p.keeps k1)) (h3.keeps k3))
    · exact noTermIf_tbinop (noTermIf_tbinop (h1p.keeps k1) (h2.keeps k2))
        (noTermIf_tbinop (noTermIf_tnot (h1n.keeps k1)) (h3.keeps k3))
  · refine .of_formula hty hwt' hty' (fun {ρ} hρ => ?_)
    have ep := (h1p.equiv I heps).tr hρ hty1
    have en := (h1n.equiv I heps).tr hρ hty1
    have e2 := (h2.equiv I heps).tr hρ hty2
    have e3 := (h3.equiv I heps).tr hρ hty
    rw [holds_tif]
    unfold ifFmla
    split_ifs
    · simp only [holds_tbinop, holds_tnot, Binop.tr, ep, en, e2, e3]
    · simp only [holds_tbinop, holds_tnot, Binop.tr, ep, en, e2, e3]
      tauto

theorem removed_iffSign (hwt : (tbinop a .tiff f1 f2).Wt sig) (h1p : Removed sig f1 f1p)
    (h1n : Removed sig f1 f1n) (h2p : Removed sig f2 f2p) (h2n : Removed sig f2 f2n) :
    Removed sig (.tbinop a .tiff f1 f2) (Introduction.iffSign sign f1p f1n f2p f2n) := by
  obtain ⟨hty1, hty2, _, _⟩ := hwt
  have t1p := h1p.ty.trans hty1
  have t1n := h1n.ty.trans hty1
  have t2p := h2p.ty.trans hty2
  have t2n := h2n.ty.trans hty2
  have hwt' : (Introduction.iffSign sign f1p f1n f2p f2n).Wt sig := by
    unfold Introduction.iffSign
    split_ifs
    · exact ⟨t1p, t2p, h1p.wt, h2p.wt⟩
    · exact ⟨rfl, rfl, ⟨t1n, t2p, h1n.wt, h2p.wt⟩, t2n, t1p, h2n.wt, h1p.wt⟩
    · exact ⟨rfl, rfl, ⟨t1n, t2n, h1n.wt, h2n.wt⟩, t1p, t2p, h1p.wt, h2p.wt⟩
  have hty' : (Introduction.iffSign sign f1p f1n f2p f2n).tTy = none := by
    unfold Introduction.iffSign
    split_ifs <;> rfl
  refine ⟨hwt', hty', ?_, fun hkeep => ?_, fun I heps => ?_⟩
  · unfold Introduction.iffSign
    split_ifs
    · exact noFmlaIf_tbinop h1p.clean h2p.clean
    · exact noFmlaIf_tbinop (noFmlaIf_tbinop h1n.clean h2p.clean)
        (noFmlaIf_tbinop h2n.clean h1p.clean)
    · exact noFmlaIf_tbinop (noFmlaIf_tbinop h1n.clean h2n.clean)
        (noFmlaIf_tbinop h1p.clean h2p.clean)
  · have hparts := hkeep.parts
    simp only [Term.parts, children, forall_mem_cons] at hparts
    obtain ⟨k1, k2, _⟩ := hparts
    unfold Introduction.iffSign
    split_ifs
    · exact noTermIf_tbinop (h1p.keeps k1) (h2p.keeps k2)
    · exact noTermIf_tbinop (noTermIf_tbinop (h1n.keeps k1) (h2p.keeps k2))
        (noTermIf_tbinop (h2n.keeps k2) (h1p.keeps k1))
    · exact noTermIf_tbinop (noTermIf_tbinop (h1n.keeps k1) (h2n.keeps k2))
        (noTermIf_tbinop (h1p.keeps k1) (h2p.keeps k2))
  · refine .of_formula rfl hwt' hty' (fun {ρ} hρ => ?_)
    have e1p := (h1p.equiv I heps).tr hρ hty1
    have e1n := (h1n.equiv I heps).tr hρ hty1
    have e2p := (h2p.equiv I heps).tr hρ hty2
    have e2n := (h2n.equiv I heps).tr hρ hty2
    unfold Introduction.iffSign
    split_ifs
    · simp only [holds_tbinop, Binop.tr, e1p, e2p]
    · simp only [holds_tbinop, Binop.tr, e1p, e1n, e2p, e2n]
      tauto
    · simp only [holds_tbinop, Binop.tr, e1p, e1n, e2p, e2n]
      tauto

theorem removed_timplies {g1 : Term} (hwt : (tbinop a .timplies f1 f2).Wt sig)
    (h1 : Removed sig f1 g1) (h2 : Removed sig f2 g2) :
    Removed sig (.tbinop a .timplies f1 f2) (.tbinop [] .timplies g1 g2) := by
  have hwt' : (tbinop [] .timplies g1 g2).Wt sig :=
    ⟨h1.ty.trans hwt.1, h2.ty.trans hwt.2.1, h1.wt, h2.wt⟩
  refine ⟨hwt', rfl, noFmlaIf_tbinop h1.clean h2.clean, fun hkeep => ?_, fun I heps => ?_⟩
  · have hparts := hkeep.parts
    simp only [Term.parts, children, forall_mem_cons] at hparts
    exact noTermIf_tbinop (h1.keeps hparts.1) (h2.keeps hparts.2.1)
  · exact .of_formula rfl hwt' rfl (fun hρ => imp_congr ((h1.equiv I heps).tr hρ hwt.1)
      ((h2.equiv I heps).tr hρ hwt.2.1))

theorem removed_tnot {g1 : Term} (hwt : (tnot a f1).Wt sig) (h1 : Removed sig f1 g1) :
    Removed sig (.tnot a f1) (.tnot [] g1) := by
  have hwt' : (tnot [] g1).Wt sig := ⟨h1.ty.trans hwt.1, h1.wt⟩
  refine ⟨hwt', rfl, noFmlaIf_tnot h1.clean, fun hkeep => ?_, fun I heps => ?_⟩
  · have hparts := hkeep.parts
    simp only [Term.parts, children, forall_mem_cons] at hparts
    exact noTermIf_tnot (h1.keeps hparts.1)
  · exact .of_formula rfl hwt' rfl (fun hρ => not_congr ((h1.equiv I heps).tr hρ hwt.1))

end Signs

/-- A traversal by functions that give results for the subterms. -/
theorem tMapOpt_removed {g : Term → Option Term} (hwt : t.Wt sig)
    (hne : ∀ {a f t1 t2}, t = .tif a f t1 t2 → t2.tTy ≠ none)
    (h : ∀ u ∈ t.children, ∃ u', g u = some u' ∧ Removed sig u u') :
    ∃ t', tMapOpt t (fun u _ => g u) = some t' ∧ Removed sig t t' := by
  refine ⟨_, tMapOpt_eq (fun u hu => ?_), removed_tMap hwt hne (fun u hu => ?_)⟩
  · obtain ⟨u', hu', -⟩ := h u hu
    rw [hu']
    rfl
  · obtain ⟨u', hu', hrem⟩ := h u hu
    rw [hu']
    exact hrem

theorem elimFNode_removed {sign : Bool} {g : Bool → Term → Option Term} (hwt : f.Wt sig)
    (hf : f.tTy = none) (h : ∀ s, ∀ u ∈ f.children, ∃ u', g s u = some u' ∧ Removed sig u u') :
    ∃ f', elimFNode sign f (fun s u _ => g s u) = some f' ∧ Removed sig f f' := by
  have hmap : (∀ a f1 f2 f3, f ≠ .tif a f1 f2 f3) →
      ∃ f', (tMapOpt f (fun u _ => g sign u)).map (tAttrCopy f) = some f' ∧ Removed sig f f' := by
    intro hne
    obtain ⟨f', hf', hrem⟩ := tMapOpt_removed hwt
      (fun heq => absurd heq (hne _ _ _ _)) (h sign)
    exact ⟨tAttrCopy f f', by rw [hf', map_some], hrem.attrs⟩
  cases f with
  | tvar a v => cases hf
  | tconst a c ty => cases hf
  | teps a v f => cases hf
  | tif a f1 f2 f3 =>
    obtain ⟨f1p, hp, r1p⟩ := h sign f1 (by simp [children])
    obtain ⟨f1n, hn, r1n⟩ := h (!sign) f1 (by simp [children])
    obtain ⟨g2, h2, r2⟩ := h sign f2 (by simp [children])
    obtain ⟨g3, h3, r3⟩ := h sign f3 (by simp [children])
    exact ⟨ifFmla sign f1p f1n g2 g3, by simp [elimFNode, hp, hn, h2, h3],
      removed_ifFmla hwt hf r1p r1n r2 r3⟩
  | tbinop a op f1 f2 =>
    cases op with
    | timplies =>
      obtain ⟨g1, h1, r1⟩ := h (!sign) f1 (by simp [children])
      obtain ⟨g2, h2, r2⟩ := h sign f2 (by simp [children])
      have hrem := removed_timplies hwt r1 r2
      exact ⟨tAttrCopy (.tbinop a .timplies f1 f2) (.tbinop [] .timplies g1 g2),
        by simp [elimFNode, tMapSign, h1, h2], hrem.attrs⟩
    | tiff =>
      obtain ⟨f1p, h1p, r1p⟩ := h sign f1 (by simp [children])
      obtain ⟨f1n, h1n, r1n⟩ := h (!sign) f1 (by simp [children])
      obtain ⟨f2p, h2p, r2p⟩ := h sign f2 (by simp [children])
      obtain ⟨f2n, h2n, r2n⟩ := h (!sign) f2 (by simp [children])
      exact ⟨tAttrCopy (.tbinop a .tiff f1 f2) (Introduction.iffSign sign f1p f1n f2p f2n),
        by simp [elimFNode, tMapSign, h1p, h1n, h2p, h2n],
        (removed_iffSign hwt r1p r1n r2p r2n).attrs⟩
    | _ => exact hmap (fun _ _ _ _ heq => by cases heq)
  | tnot a f1 =>
    obtain ⟨g1, h1, r1⟩ := h (!sign) f1 (by simp [children])
    have hrem := removed_tnot hwt r1
    exact ⟨tAttrCopy (.tnot a f1) (.tnot [] g1), by simp [elimFNode, tMapSign, h1], hrem.attrs⟩
  | _ => exact hmap (fun _ _ _ _ heq => by cases heq)

/-! ## Every term -/

/-- No exception is raised, and each result replaces its argument. -/
theorem elim_removed (hwt : t.Wt sig) :
    (t.tTy ≠ none → ∃ t', elimT t = some t' ∧ Removed sig t t') ∧
      (t.tTy = none → ∀ sign, ∃ t', elimF sign t = some t' ∧ Removed sig t t') := by
  induction t using induct_children with
  | h t ih =>
    have hchild : ∀ s, ∀ u ∈ t.children,
        ∃ u', (if u.tTy = none then elimF s u else elimT u) = some u' ∧ Removed sig u u' := by
      intro s u hu
      obtain ⟨hterm, hfmla⟩ := ih u hu (wt_of_mem_children hwt hu)
      split_ifs with hty
      · exact hfmla hty s
      · exact hterm hty
    refine ⟨fun hty => ?_, fun hty sign => ?_⟩
    · rw [elimT]
      refine tMapOpt_removed hwt (fun {a f t1 t2} heq => ?_) (hchild true)
      rw [heq] at hty
      exact hty
    · rw [elimF]
      exact elimFNode_removed hwt hty hchild

/-! ## Declarations and tasks -/

section Strict

variable {n : ℕ} {vm1 vm2 : Numbering}

/-- Terms that are equal below some binders. -/
def StrictEq (t1 t2 : Term) : Prop := ∃ n vm1 vm2, alphaEqStrict n vm1 vm2 t1 t2 = true

theorem strictEq_list {l1 : List Term} : ∀ {l2 : List Term},
    alphaEqStrictList n vm1 vm2 l1 l2 = true → List.Forall₂ StrictEq l1 l2 := by
  induction l1 with
  | nil =>
    intro l2 h
    cases l2 with
    | nil => exact .nil
    | cons t l2 => simp [alphaEqStrictList] at h
  | cons t1 l1 ih =>
    intro l2 h
    cases l2 with
    | nil => simp [alphaEqStrictList] at h
    | cons t2 l2 =>
      rw [alphaEqStrictList, and_eq_true] at h
      exact .cons ⟨_, _, _, h.1⟩ (ih h.2)

theorem strictEq_branches {l1 : List (Pattern × Term)} : ∀ {l2 : List (Pattern × Term)},
    alphaEqStrictBranches n vm1 vm2 l1 l2 = true →
      List.Forall₂ StrictEq (l1.map Prod.snd) (l2.map Prod.snd) := by
  induction l1 with
  | nil =>
    intro l2 h
    cases l2 with
    | nil => exact .nil
    | cons b l2 => simp [alphaEqStrictBranches] at h
  | cons b1 l1 ih =>
    intro l2 h
    cases l2 with
    | nil => simp [alphaEqStrictBranches] at h
    | cons b2 l2 =>
      rw [alphaEqStrictBranches, and_eq_true] at h
      refine .cons ?_ (ih h.2)
      have hb := h.1
      cases hc : Pattern.patCompare ⟨n, [], []⟩ b1.1 b2.1 with
      | none => simp [hc] at hb
      | some st =>
        simp only [hc] at hb
        exact ⟨_, _, _, hb⟩

theorem strictEq_triggers {l1 : List (List Term)} : ∀ {l2 : List (List Term)},
    alphaEqStrictTriggers n vm1 vm2 l1 l2 = true →
      List.Forall₂ StrictEq l1.flatten l2.flatten := by
  induction l1 with
  | nil =>
    intro l2 h
    cases l2 with
    | nil => exact .nil
    | cons tl l2 => simp [alphaEqStrictTriggers] at h
  | cons tl1 l1 ih =>
    intro l2 h
    cases l2 with
    | nil => simp [alphaEqStrictTriggers] at h
    | cons tl2 l2 =>
      rw [alphaEqStrictTriggers, and_eq_true] at h
      exact rel_append (strictEq_list h.1) (ih h.2)

theorem strictEq_children {t1 t2 : Term} (h : alphaEqStrict n vm1 vm2 t1 t2 = true) :
    List.Forall₂ StrictEq t1.children t2.children := by
  cases t1 with
  | tvar a1 v1 => cases t2 with
    | tvar a2 v2 => exact .nil
    | _ => simp [alphaEqStrict] at h
  | tconst a1 c1 ty1 => cases t2 with
    | tconst a2 c2 ty2 => exact .nil
    | _ => simp [alphaEqStrict] at h
  | tapp a1 s1 l1 ty1 => cases t2 with
    | tapp a2 s2 l2 ty2 =>
      simp only [alphaEqStrict, and_eq_true] at h
      exact strictEq_list h.2.2.2
    | _ => simp [alphaEqStrict] at h
  | tif a1 f1 u1 e1 => cases t2 with
    | tif a2 f2 u2 e2 =>
      simp only [alphaEqStrict, and_eq_true] at h
      exact .cons ⟨_, _, _, h.2.1⟩ (.cons ⟨_, _, _, h.2.2.1⟩ (.cons ⟨_, _, _, h.2.2.2⟩ .nil))
    | _ => simp [alphaEqStrict] at h
  | tlet a1 u1 v1 e1 => cases t2 with
    | tlet a2 u2 v2 e2 =>
      simp only [alphaEqStrict, and_eq_true] at h
      exact .cons ⟨_, _, _, h.2.1⟩ (.cons ⟨_, _, _, h.2.2⟩ .nil)
    | _ => simp [alphaEqStrict] at h
  | tcase a1 u1 bl1 => cases t2 with
    | tcase a2 u2 bl2 =>
      simp only [alphaEqStrict, and_eq_true] at h
      exact .cons ⟨_, _, _, h.2.1⟩ (strictEq_branches h.2.2)
    | _ => simp [alphaEqStrict] at h
  | teps a1 v1 f1 => cases t2 with
    | teps a2 v2 f2 =>
      simp only [alphaEqStrict, and_eq_true] at h
      exact .cons ⟨_, _, _, h.2.2⟩ .nil
    | _ => simp [alphaEqStrict] at h
  | tquant a1 q1 vl1 trl1 f1 => cases t2 with
    | tquant a2 q2 vl2 trl2 f2 =>
      simp only [alphaEqStrict, and_eq_true] at h
      have hf := h.2.2
      cases hq : addQuant n vm1 vm2 vl1 vl2 with
      | none => simp [hq] at hf
      | some r =>
        simp only [hq, and_eq_true] at hf
        exact .cons ⟨_, _, _, hf.2⟩ (strictEq_triggers hf.1)
    | _ => simp [alphaEqStrict] at h
  | tbinop a1 op1 f1 g1 => cases t2 with
    | tbinop a2 op2 f2 g2 =>
      simp only [alphaEqStrict, and_eq_true] at h
      exact .cons ⟨_, _, _, h.2.2.2⟩ (.cons ⟨_, _, _, h.2.2.1⟩ .nil)
    | _ => simp [alphaEqStrict] at h
  | tnot a1 f1 => cases t2 with
    | tnot a2 f2 =>
      rw [alphaEqStrict, and_eq_true] at h
      exact .cons ⟨_, _, _, h.2⟩ .nil
    | _ => simp [alphaEqStrict] at h
  | ttrue a1 => cases t2 with
    | ttrue a2 => exact .nil
    | _ => simp [alphaEqStrict] at h
  | tfalse a1 => cases t2 with
    | tfalse a2 => exact .nil
    | _ => simp [alphaEqStrict] at h

/-- A definition that is kept has the shape of the one that would replace it. -/
theorem noFmlaIf_of_strictEq {t1 : Term} : ∀ {t2 : Term}, StrictEq t1 t2 → t2.NoFmlaIf →
    t1.NoFmlaIf := by
  induction t1 using induct_children with
  | h t1 ih =>
    intro t2 heq hclean
    obtain ⟨n, vm1, vm2, h⟩ := heq
    obtain ⟨hif, hchild⟩ := hclean
    refine ⟨fun {a f u1 e1} h1 => ?_, fun u1 hu1 => ?_⟩
    · subst h1
      cases t2 with
      | tif a2 f2 u2 e2 =>
        simp only [alphaEqStrict, and_eq_true] at h
        rw [tTy_of_alphaEq (alphaEq_of_strict h.2.2.2)]
        exact hif rfl
      | _ => simp [alphaEqStrict] at h
    · obtain ⟨u2, hu2, hstrict⟩ := Paired.exists_of_mem_right (strictEq_children h).flip hu1
      exact ih u1 hu1 hstrict (hchild u2 hu2)

end Strict

/-- No conditional formula is in the declaration. -/
def DeclNoFmlaIf (d : Decl) : Prop := ∀ t ∈ declTerms d, t.NoFmlaIf

section Decls

variable {fn : Term → Option Term}

theorem openLsDefn_closeLsDefn {ld ld' : LSymbol × LsDefn} {vl : List VSymbol}
    (hopen : openLsDefn ld.2 = some (vl, t)) (h : closeLsDefn ld vl t t' = some ld')
    (hclean : t'.NoFmlaIf) : ∃ u, openLsDefn ld'.2 = some (vl, u) ∧ u.NoFmlaIf := by
  unfold closeLsDefn at h
  split_ifs at h with heq
  · cases h
    exact ⟨t, hopen, noFmlaIf_of_strictEq ⟨0, [], [], heq⟩ hclean⟩
  · obtain ⟨def', hdef, rfl⟩ := map_eq_some_iff.mp h
    unfold makeLsDefn at hdef
    simp only at hdef
    split_ifs at hdef
    cases hdef
    exact ⟨t', openLsDefn_defnAxiom rfl, hclean⟩

theorem toOption_eq_some {ε α : Type} {x : Except ε α} {a : α} (h : x.toOption = some a) :
    x = .ok a := by
  cases x with
  | ok b =>
    cases h
    rfl
  | error e => cases h

theorem declMap_noFmlaIf {d d' : Decl} (h : declMap fn d = some d')
    (hfn : ∀ t ∈ declTerms d, ∀ t', fn t = some t' → t'.NoFmlaIf) : DeclNoFmlaIf d' := by
  obtain ⟨node, news⟩ := d
  unfold declMap at h
  cases node with
  | dtype ts | ddata tdl | dparam ls =>
    cases h
    exact fun t ht => absurd ht not_mem_nil
  | dlogic ldl =>
    obtain ⟨ldl', hldl, h⟩ := bind_eq_some_iff.mp h
    obtain ⟨ldl'', hnode, hsame⟩ := logic_ok (toOption_eq_some h)
    intro t ht
    unfold declTerms at ht
    rw [hnode] at ht
    obtain ⟨ld'', hld'', hopen⟩ := mem_filterMap.mp ht
    obtain ⟨ld', hld', -, hax⟩ := hsame ld'' hld''
    obtain ⟨ld, hld, hfn'⟩ := (OptionLoops.mem_of_mapM hldl).mp hld'
    obtain ⟨⟨vl, e⟩, he, hfn'⟩ := bind_eq_some_iff.mp hfn'
    obtain ⟨e', he', hclose⟩ := bind_eq_some_iff.mp hfn'
    have hmem : e ∈ declTerms ⟨.dlogic ldl, news⟩ :=
      mem_filterMap.mpr ⟨ld, hld, by rw [he, map_some]⟩
    obtain ⟨u, hu, hclean⟩ := openLsDefn_closeLsDefn he hclose (hfn e hmem e' he')
    have hopen' : openLsDefn ld''.2 = some (vl, u) := by
      rw [← hu]
      unfold openLsDefn
      rw [hax]
    rw [hopen', map_some, Option.some.injEq] at hopen
    rwa [← hopen]
  | dind s idl =>
    obtain ⟨idl', hidl, h⟩ := bind_eq_some_iff.mp h
    have hnode := (indDeclOk_of_createIndDecl (toOption_eq_some h)).1
    intro t ht
    unfold declTerms at ht
    rw [hnode] at ht
    obtain ⟨id', hid', ht⟩ := mem_flatMap.mp ht
    obtain ⟨ax', hax', rfl⟩ := mem_map.mp ht
    obtain ⟨id, hid, hfn'⟩ := (OptionLoops.mem_of_mapM hidl).mp hid'
    obtain ⟨axs, haxs, hfn'⟩ := bind_eq_some_iff.mp hfn'
    cases hfn'
    obtain ⟨ax, hax, hfn'⟩ := (OptionLoops.mem_of_mapM haxs).mp hax'
    obtain ⟨t', ht', rfl⟩ := map_eq_some_iff.mp hfn'
    exact hfn ax.2 (mem_flatMap.mpr ⟨id, hid, mem_map_of_mem hax⟩) t' ht'
  | dprop k pr f =>
    obtain ⟨f', hf', h⟩ := bind_eq_some_iff.mp h
    obtain ⟨g, hg, h⟩ := Checks.bind_eq_ok.mp (toOption_eq_some h)
    unfold checkFvs at hg
    split at hg
    · cases hg
    · split_ifs at hg
      cases hg
      cases h
      intro t ht
      obtain rfl := mem_singleton.mp ht
      exact hfn f (mem_singleton_self f) _ hf'

end Decls

theorem elim_noFmlaIf (hwt : t.Wt sig) (h : elim t = some t') : t'.NoFmlaIf := by
  obtain ⟨hterm, hfmla⟩ := elim_removed hwt
  unfold elim at h
  split_ifs at h with hty
  · obtain ⟨u, hu, hrem⟩ := hfmla hty true
    rw [hu, Option.some.injEq] at h
    exact h ▸ hrem.clean
  · obtain ⟨u, hu, hrem⟩ := hterm hty
    rw [hu, Option.some.injEq] at h
    exact h ▸ hrem.clean

theorem elimDecl_noFmlaIf {d : Decl} {dl : List Decl} {u u' : Unit}
    (hwt : ∀ t ∈ declTerms d, t.Wt sig) (h : elimDecl u d = .ok (u', dl)) :
    ∀ d' ∈ dl, DeclNoFmlaIf d' := by
  unfold elimDecl at h
  split at h
  · next d' hmap =>
      cases h
      intro c hc
      obtain rfl := mem_singleton.mp hc
      exact declMap_noFmlaIf hmap (fun t ht t' => elim_noFmlaIf (hwt t ht))
  · cases h

theorem outputs_noFmlaIf {ds : List Decl} : ∀ {u u' : Unit} {outs : List Decl},
    (∀ d ∈ ds, ∀ t ∈ declTerms d, t.Wt sig) → Trans.outputs elimDecl u ds = .ok (u', outs) →
      ∀ d' ∈ outs, DeclNoFmlaIf d' := by
  induction ds with
  | nil =>
    intro u u' outs hwt h
    cases h
    exact fun _ h => absurd h not_mem_nil
  | cons d ds ih =>
    intro u u' outs hwt h
    obtain ⟨⟨u₁, dl⟩, hd, h⟩ := Checks.bind_eq_ok.mp h
    obtain ⟨⟨u₂, rest⟩, hrest, h⟩ := Checks.bind_eq_ok.mp h
    cases h
    intro d' hd'
    rcases mem_append.mp hd' with hd' | hd'
    · exact elimDecl_noFmlaIf (hwt d mem_cons_self) hd d' hd'
    · exact ih (fun c hc => hwt c (mem_cons_of_mem _ hc)) hrest d' hd'

theorem eliminateIfFmla_noFmlaIf {k : ℕ} {task task' : Task}
    (hwt : ∀ d ∈ Task.declsOf task.tdecls, ∀ t ∈ declTerms d, t.Wt sig)
    (h : eliminateIfFmla k task = some task') :
    ∀ d' ∈ Task.declsOf task'.tdecls, DeclNoFmlaIf d' := by
  obtain ⟨⟨u, t'⟩, hfold, h⟩ := Checks.bind_eq_ok.mp (toOption_eq_some h)
  cases h
  obtain ⟨outs, houts, hdecls⟩ := Trans.foldlM_declStep hfold
  have hnil : Task.declsOf Task.empty.tdecls = [] := rfl
  rw [hdecls, hnil, append_nil]
  rw [Trans.declsOf_reverse] at houts
  intro d' hd'
  exact outputs_noFmlaIf (fun d hd => hwt d (mem_reverse.mp hd)) houts d'
    (mem_reverse.mp hd')

/-! ## Conditional elimination -/

/-- `elim_f` of `eliminate_if_term` gives a formula that is true when its argument is, with no
conditional of a value type outside of the triggers.  `eliminate_if_fmla` raises no exception
on a formula and gives an equivalent one without conditional formulas, and it leaves none in a
task.  That the results are well typed says that no constructor of terms fails. -/
theorem eliminate_if_exact {f : Term} (hwt : f.Wt sig) (hf : f.tTy = none) :
    ((EliminateIf.eliminateIfTerm f).Wt sig ∧ (EliminateIf.eliminateIfTerm f).tTy = none ∧
      (EliminateIf.eliminateIfTerm f).NoTermIf ∧
      ∀ I : Interp sig, I.EpsExt → ∀ ρ : I.Env, I.Typed ρ →
        (I.Holds ρ (EliminateIf.eliminateIfTerm f) ↔ I.Holds ρ f)) ∧
    (∀ sign, ∃ g, elimF sign f = some g ∧ g.Wt sig ∧ g.tTy = none ∧ g.NoFmlaIf ∧
      (f.NoTermIf → g.NoTermIf) ∧
      ∀ I : Interp sig, I.EpsExt → ∀ ρ : I.Env, I.Typed ρ → (I.Holds ρ g ↔ I.Holds ρ f)) ∧
    ∀ {k : ℕ} {task task' : Task}, (∀ d ∈ Task.declsOf task.tdecls, ∀ t ∈ declTerms d, t.Wt sig) →
      eliminateIfFmla k task = some task' →
        ∀ d' ∈ Task.declsOf task'.tdecls, ∀ t ∈ declTerms d', t.NoFmlaIf := by
  refine ⟨?_, fun sign => ?_, fun hwt h => eliminateIfFmla_noFmlaIf hwt h⟩
  · have hok : Mvs.Ok sig (freshTag f.freeVars) [] f.freeVars := by
      refine fun v hv => ⟨trivial, rfl, fun w hw => ?_⟩
      rw [mem_singleton.mp hw]
      exact lt_freshTag hv
    have helim := (EliminateIf.spec hwt).fmla Mvs.renames_nil hok hf
    refine ⟨helim.wt, helim.ty.trans hf, helim.clean rfl, fun I heps ρ hρ => ?_⟩
    exact helim.holds heps hwt hok hf hρ (fun _ _ => rfl)
  · obtain ⟨g, hg, hrem⟩ := (elim_removed hwt).2 hf sign
    exact ⟨g, hg, hrem.wt, hrem.ty.trans hf, hrem.clean, hrem.keeps,
      fun I heps ρ hρ => (hrem.equiv I heps).tr hρ hf⟩

section Goal

open LetImplies

/-- `(if x = 1 then x else 1) = 1`. -/
def equIf : Term := tEqu (.tif [] equX (.tvar [] x) (intConst 1)) (intConst 1)

theorem wt_equIf : equIf.Wt (fun _ => []) :=
  wt_tEqu rfl rfl ⟨rfl, rfl, wt_equX, trivial, trivial⟩ trivial

/-- The goal `if true then true else false`, and the one that replaces it. -/
def goalIf : Term := .tif [] (.ttrue []) (.ttrue []) (.tfalse [])

def goalDecl (f : Term) : Decl := ⟨.dprop .pgoal ⟨100⟩ f, [100]⟩

def goalTask (f : Term) : Task := ⟨[.decl (goalDecl f)], [(100, goalDecl f)]⟩

theorem elim_goalIf :
    elim goalIf = some (ifFmla true (.ttrue []) (.ttrue []) (.ttrue []) (.tfalse [])) := by
  have htrue : ∀ sign, elimF sign (.ttrue []) = some (.ttrue []) := by
    intro sign
    rw [elimF]
    rfl
  have hfalse : ∀ sign, elimF sign (.tfalse []) = some (.tfalse []) := by
    intro sign
    rw [elimF]
    rfl
  have hty : goalIf.tTy = none := rfl
  rw [elim, if_pos hty, goalIf, elimF]
  simp [elimFNode, htrue, hfalse, tTy]

theorem run_goalIf : eliminateIfFmla 101 (goalTask goalIf) =
    some (goalTask (ifFmla true (.ttrue []) (.ttrue []) (.ttrue []) (.tfalse []))) := by
  have hmap : declMap elim (goalDecl goalIf) =
      some (goalDecl (ifFmla true (.ttrue []) (.ttrue []) (.ttrue []) (.tfalse []))) := by
    simp only [declMap, goalDecl, elim_goalIf]
    rfl
  unfold eliminateIfFmla Trans.decl goalTask
  simp only [reverse_singleton, foldlM_cons, foldlM_nil, Trans.declStep, elimDecl,
    hmap]
  rfl

theorem eliminate_if_exact_goal :
    ((EliminateIf.eliminateIfTerm equIf).NoTermIf ∧ ∀ ρ : intInterp.Env, intInterp.Typed ρ →
      (intInterp.Holds ρ (EliminateIf.eliminateIfTerm equIf) ↔ intInterp.Holds ρ equIf)) ∧
    (∃ g, elimF true equIf = some g ∧ g.NoFmlaIf) ∧
    ∃ task', eliminateIfFmla 101 (goalTask goalIf) = some task' ∧
      ∀ d' ∈ Task.declsOf task'.tdecls, ∀ t ∈ declTerms d', t.NoFmlaIf := by
  obtain ⟨⟨-, -, hclean, hequiv⟩, hfmla, htask⟩ := eliminate_if_exact wt_equIf rfl
  refine ⟨⟨hclean, hequiv intInterp epsExt_intInterp⟩, ?_, _, run_goalIf, htask ?_ run_goalIf⟩
  · obtain ⟨g, hg, -, -, hnone, -⟩ := hfmla true
    exact ⟨g, hg, hnone⟩
  · intro d hd t ht
    obtain rfl := mem_singleton.mp hd
    obtain rfl := mem_singleton.mp ht
    exact ⟨rfl, rfl, trivial, trivial, trivial⟩

end Goal

end EliminateIfFmla

end Why3
