import Why3.Transform.EliminateIfCorrect

/-!
# The types and symbols of the results

The elimination of conditionals moves subterms and repeats them.  No type is lost or added, and
no symbol but the equality of `elim_t_eps`.
-/

namespace Why3

open List

variable {v : VSymbol} {tl : List Term} {f t : Term} {vl : List VSymbol}

/-- A type or a symbol occurs in a pattern. -/
def Pattern.Uses (x : Ty ⊕ LSymbol) (p : Pattern) : Prop :=
  match x with
  | .inl ty => ty ∈ p.types
  | .inr s => s ∈ p.symbols

namespace Term

/-- A type or a symbol occurs in a term. -/
def Uses (x : Ty ⊕ LSymbol) (t : Term) : Prop :=
  match x with
  | .inl ty => ty ∈ t.types
  | .inr s => s ∈ t.symbols

section Uses

variable {x : Ty ⊕ LSymbol} {a : Sattr}

theorem uses_tvar : Uses x (.tvar a v) ↔ x = .inl v.vsTy := by
  cases x <;> simp [Uses, types, symbols]

theorem uses_tapp {s : LSymbol} {ty : Option Ty} : Uses x (.tapp a s tl ty) ↔
    (x = .inr s ∨ ∃ ty', ty = some ty' ∧ x = .inl ty') ∨ ∃ t ∈ tl, Uses x t := by
  cases x with
  | inl y => simp [Uses, types, typesList_eq]
  | inr s' => simp [Uses, symbols, symbolsList_eq]

theorem uses_tif {t1 t2 : Term} : Uses x (.tif a f t1 t2) ↔ Uses x f ∨ Uses x t1 ∨ Uses x t2 := by
  cases x with
  | inl y =>
    have hty : y ∈ t2.tTy.toList → y ∈ t2.types :=
      fun h => mem_types_of_tTy (Option.mem_toList.mp h)
    simp only [Uses, types, mem_append]
    tauto
  | inr s =>
    simp only [Uses, symbols, mem_append]
    tauto

theorem uses_tlet {e : Term} : Uses x (.tlet a t v e) ↔ Uses x t ∨ Uses x e := by
  cases x with
  | inl y =>
    have hty : y ∈ e.tTy.toList → y ∈ e.types :=
      fun h => mem_types_of_tTy (Option.mem_toList.mp h)
    simp only [Uses, types, mem_append]
    tauto
  | inr s => simp only [Uses, symbols, mem_append]

theorem uses_tcase {bl : List (Pattern × Term)} : Uses x (.tcase a t bl) ↔
    Uses x t ∨ ∃ b ∈ bl, b.1.Uses x ∨ Uses x b.2 := by
  cases x with
  | inl y =>
    have hty : y ∈ (Term.tcase a t bl).tTy.toList → ∃ b ∈ bl, y ∈ b.2.types := by
      intro h
      cases bl with
      | nil => simp [tTy, tTy.tTyBranches] at h
      | cons b bl =>
        exact ⟨b, mem_cons_self, mem_types_of_tTy (Option.mem_toList.mp h)⟩
    simp only [Uses, Pattern.Uses, types, typesBranches_eq, mem_append, mem_flatMap]
    constructor
    · rintro ((h | h) | h)
      · obtain ⟨b, hb, h⟩ := hty h
        exact .inr ⟨b, hb, .inr h⟩
      · exact .inl h
      · exact .inr h
    · rintro (h | h)
      · exact .inl (.inr h)
      · exact .inr h
  | inr s =>
    simp only [Uses, Pattern.Uses, symbols, symbolsBranches_eq, mem_append,
      mem_flatMap]

theorem uses_teps : Uses x (.teps a v f) ↔ x = .inl v.vsTy ∨ Uses x f := by
  cases x <;> simp [Uses, types, symbols]

theorem uses_tquant {q : Quant} {trl : List (List Term)} : Uses x (.tquant a q vl trl f) ↔
      ((∃ v ∈ vl, x = .inl v.vsTy) ∨ ∃ tr ∈ trl, ∃ t ∈ tr, Uses x t) ∨ Uses x f := by
  cases x with
  | inl y => simp [Uses, types, typesTriggers_eq, eq_comm, or_assoc]
  | inr s => simp [Uses, symbols, symbolsTriggers_eq]

theorem uses_tbinop {op : Binop} {g : Term} : Uses x (.tbinop a op f g) ↔ Uses x f ∨ Uses x g := by
  cases x <;> simp [Uses, types, symbols]

theorem uses_tnot : Uses x (.tnot a f) ↔ Uses x f := by
  cases x <;> simp [Uses, types, symbols]

theorem uses_setAttrs : Uses x (t.setAttrs a) ↔ Uses x t := by
  cases x <;> cases t <;> rfl

theorem uses_tAttrCopy {s : Term} : Uses x (tAttrCopy s t) ↔ Uses x t := uses_setAttrs

end Uses

end Term

namespace EliminateIf

open Term

variable {x : Ty ⊕ LSymbol} {n : ℕ} {m : Mvs}

theorem uses_tvar_subst (hm : m.Renames) {a : Sattr} :
    Uses x ((Term.tvar a v).subst n m) ↔ Uses x (.tvar a v) := by
  obtain ⟨a', heq⟩ := subst_tvar_renames (k := n) hm a v
  rw [heq, uses_tvar, uses_tvar, (hm v).2]

theorem uses_patternAt (hm : m.Renames) {p : Pattern} : (patternAt n m p).Uses x ↔ p.Uses x := by
  have hr : ∀ v, ((m.bind n p.patVars).var v).vsTy = v.vsTy :=
    fun v => (hm.bind n p.patVars v).2
  cases x with
  | inl y => rw [Pattern.Uses, Pattern.Uses, patternAt, Pattern.types_rename hr]
  | inr s => rw [Pattern.Uses, Pattern.Uses, patternAt, Pattern.symbols_rename]

theorem mem_freshen_uses : ∀ {n : ℕ},
    (∃ v ∈ freshen n vl, x = .inl v.vsTy) ↔ ∃ v ∈ vl, x = .inl v.vsTy := by
  induction vl with
  | nil => exact .rfl
  | cons v vl ih =>
    intro n
    rw [freshen, exists_mem_cons_iff, exists_mem_cons_iff, ih]

/-- The elimination keeps the occurrences of `x` in the term. -/
structure Keeps (x : Ty ⊕ LSymbol) (t : Term) : Prop where
  cont : ∀ {n m} {X : Prop} {cont : ℕ → Term → Term}, m.Renames →
    (∀ k t', Uses x (cont k t') ↔ Uses x t' ∨ X) → (Uses x (elimT n m cont t) ↔ Uses x t ∨ X)
  term : ∀ (tr : Bool) {n m}, m.Renames → (Uses x (elimTerm tr n m t) ↔ Uses x t)
  fmla : ∀ {n m}, m.Renames → (Uses x (elimF n m t) ↔ Uses x t)

theorem keeps_list (h : ∀ t ∈ tl, Keeps x t) (hm : m.Renames) :
    ∀ {n : ℕ} {X : Prop} {contL : ℕ → List Term → Term},
      (∀ k tl', Uses x (contL k tl') ↔ (∃ t ∈ tl', Uses x t) ∨ X) →
      (Uses x (elimTList n m contL tl) ↔ (∃ t ∈ tl, Uses x t) ∨ X) := by
  induction tl with
  | nil => exact fun hcont => hcont _ _
  | cons t tl ih =>
    intro n X contL hcont
    rw [forall_mem_cons] at h
    rw [elimTList, exists_mem_cons_iff, or_assoc]
    refine h.1.cont hm (fun k t' => ?_)
    have hrest : Uses x (elimTList k m (fun n tl' => contL n (t' :: tl')) tl) ↔
        (∃ u ∈ tl, Uses x u) ∨ (Uses x t' ∨ X) := by
      refine ih h.2 (fun k tl' => ?_)
      rw [hcont, exists_mem_cons_iff]
      simp only [or_comm, or_assoc]
    rw [hrest]
    simp only [or_comm, or_left_comm, or_assoc]

theorem keeps_branches {bl : List (Pattern × Term)} (h : ∀ b ∈ bl, Keeps x b.2)
    (hm : m.Renames) : ∀ {n : ℕ} {X : Prop} {contL : ℕ → List (Pattern × Term) → Term},
      (∀ k bl', Uses x (contL k bl') ↔ (∃ b ∈ bl', b.1.Uses x ∨ Uses x b.2) ∨ X) →
      (Uses x (elimBranchesT n m contL bl) ↔ (∃ b ∈ bl, b.1.Uses x ∨ Uses x b.2) ∨ X) := by
  induction bl with
  | nil => exact fun hcont => hcont _ _
  | cons b bl ih =>
    intro n X contL hcont
    obtain ⟨p, t⟩ := b
    rw [forall_mem_cons] at h
    have hrest : ∀ k bl', Uses x (elimT (k + p.patVars.length) (m.bind k p.patVars)
        (fun n' t' => contL n' ((patternAt k m p, t') :: bl')) t) ↔
          (∃ b ∈ bl', b.1.Uses x ∨ Uses x b.2) ∨ ((p.Uses x ∨ Uses x t) ∨ X) := by
      intro k bl'
      refine (h.1.cont (X := (∃ b ∈ bl', b.1.Uses x ∨ Uses x b.2) ∨ (p.Uses x ∨ X))
        (hm.bind k _) (fun k' t' => ?_)).trans ?_
      · rw [hcont, exists_mem_cons_iff, uses_patternAt hm]
        simp only [or_comm, or_left_comm, or_assoc]
      · simp only [or_comm, or_left_comm, or_assoc]
    rw [elimBranchesT, exists_mem_cons_iff]
    refine (ih h.2 hrest).trans ?_
    simp only [or_comm, or_assoc]

theorem keeps_triggers (h : ∀ t ∈ tl, Keeps x t) (hm : m.Renames) :
    (∃ t ∈ tl.map (elimOfTrigger n m), Uses x t) ↔ ∃ t ∈ tl, Uses x t := by
  simp only [mem_map, exists_exists_and_eq_and]
  refine exists_congr (fun t => and_congr_right (fun ht => ?_))
  rw [elimOfTrigger]
  split_ifs
  · exact (h t ht).fmla hm
  · exact (h t ht).term true hm

theorem keeps_quant {a : Sattr} {q : Quant} {trl : List (List Term)}
    (htr : ∀ tr ∈ trl, ∀ t ∈ tr, Keeps x t) (hf : Keeps x f) (hm : m.Renames) :
    Uses x (.tquant a q (freshen n vl) (elimTriggers (n + vl.length) (m.bind n vl) trl)
      (elimF (n + vl.length) (m.bind n vl) f)) ↔ Uses x (.tquant a q vl trl f) := by
  rw [uses_tquant, uses_tquant, mem_freshen_uses, hf.fmla (hm.bind n vl), elimTriggers_eq]
  refine or_congr (or_congr_right ?_) .rfl
  simp only [mem_map, exists_exists_and_eq_and]
  refine exists_congr (fun tr => and_congr_right (fun h => ?_))
  simpa only [mem_map, exists_exists_and_eq_and] using
    keeps_triggers (n := n + vl.length) (htr tr h) (hm.bind n vl)

theorem uses_ifTerm (hx : x ≠ .inr psEqu) {z : VSymbol} {t1 t2 : Term}
    (hz : x = .inl z.vsTy → Uses x t2) :
    Uses x (ifTerm z f t1 t2) ↔ Uses x f ∨ Uses x t1 ∨ Uses x t2 := by
  simp only [ifTerm, tEqu, uses_teps, uses_tif, uses_tapp, exists_mem_cons_iff, uses_tvar]
  simp only [hx, reduceCtorEq, false_and, exists_false, not_mem_nil, or_false, false_or]
  tauto

theorem keeps_of_cont (hcont : ∀ {n m}, m.Renames → ∃ t', (Uses x t' ↔ Uses x t) ∧
      ∀ cont, elimT n m cont t = cont n t')
    (hterm : ∀ (tr : Bool) {n m}, m.Renames → (Uses x (elimTerm tr n m t) ↔ Uses x t))
    (hfmla : ∀ {n m}, m.Renames → (Uses x (elimF n m t) ↔ Uses x t)) : Keeps x t := by
  refine ⟨fun hm hc => ?_, hterm, hfmla⟩
  obtain ⟨t', ht', heq⟩ := hcont hm
  rw [heq, hc, ht']

theorem keeps (hx : x ≠ .inr psEqu) (t : Term) : Keeps x t := by
  induction t with
  | tvar a v =>
    exact keeps_of_cont (fun hm => ⟨_, uses_tvar_subst hm, fun _ => rfl⟩)
      (fun _ _ _ hm => uses_tvar_subst hm) (fun hm => uses_tvar_subst hm)
  | tconst a c ty | ttrue a | tfalse a =>
    exact keeps_of_cont (fun _ => ⟨_, .rfl, fun _ => rfl⟩) (fun _ _ _ _ => .rfl)
      (fun _ => .rfl)
  | tapp a s tl ty ih =>
    refine ⟨fun {n m X cont} hm hc => ?_, fun tr {n m} hm => ?_, fun {n m} hm => ?_⟩
    · rw [elimT, uses_tapp, or_comm (a := x = .inr s ∨ _), or_assoc]
      refine keeps_list ih hm (fun k tl' => ?_)
      rw [hc, uses_tAttrCopy, uses_tapp]
      simp only [or_comm, or_left_comm]
    · rw [elimTerm, elimTermList_eq, uses_tapp, uses_tapp]
      refine or_congr_right ?_
      simp only [mem_map, exists_exists_and_eq_and]
      exact exists_congr (fun t => and_congr_right (fun ht => (ih t ht).term tr hm))
    · rw [elimF, uses_tapp, or_comm (a := x = .inr s ∨ _)]
      refine keeps_list ih hm (fun k tl' => ?_)
      rw [uses_tAttrCopy, uses_tapp, or_comm]
  | tif a f t1 t2 ihf ih1 ih2 =>
    refine ⟨fun {n m X cont} hm hc => ?_, fun tr {n m} hm => ?_, fun {n m} hm => ?_⟩
    · rw [elimT, uses_tif, uses_tif, ihf.fmla hm, ih1.cont hm hc, ih2.cont hm hc]
      tauto
    · have hplain : Uses x (.tif a (elimF n m f) (elimTerm tr n m t1) (elimTerm tr n m t2)) ↔
          Uses x (.tif a f t1 t2) := by
        rw [uses_tif, uses_tif, ihf.fmla hm, ih1.term tr hm, ih2.term tr hm]
      cases tr with
      | true => rwa [elimTerm_true_tif]
      | false =>
        cases hty : t2.tTy with
        | none =>
          have heq : elimTerm false n m (.tif a f t1 t2) =
              .tif a (elimF n m f) (elimTerm false n m t1) (elimTerm false n m t2) := by
            simp only [elimTerm, hty]
          rwa [heq]
        | some ty =>
          rw [elimTerm_tif_value hty, uses_tAttrCopy, uses_ifTerm hx, uses_tif, ihf.fmla hm,
            ih1.term false hm, ih2.term false hm]
          rintro rfl
          exact (ih2.term false hm).mpr (mem_types_of_tTy hty)
    · rw [elimF, uses_tif, uses_tif, ihf.fmla hm, ih1.fmla hm, ih2.fmla hm]
  | tlet a t v e iht ihe =>
    refine ⟨fun {n m X cont} hm hc => ?_, fun tr {n m} hm => ?_, fun {n m} hm => ?_⟩
    · rw [elimT]
      split_ifs
      · rw [uses_tlet, or_assoc]
        refine iht.cont hm (fun k t' => ?_)
        rw [uses_tlet, ihe.cont (hm.bind k [v]) hc]
      · rw [uses_tlet, or_assoc]
        refine iht.cont hm (fun k t' => ?_)
        rw [or_left_comm]
        refine ihe.cont (hm.bind k [v]) (fun k' e' => ?_)
        rw [hc, uses_tAttrCopy, uses_tlet]
        simp only [or_comm, or_assoc]
    · rw [elimTerm, uses_tlet, uses_tlet, iht.term tr hm, ihe.term tr (hm.bind n [v])]
    · rw [elimF, uses_tlet, uses_tlet, iht.term false hm, ihe.fmla (hm.bind n [v])]
  | tcase a t bl iht ihb =>
    have hbr : ∀ {n : ℕ} {m : Mvs} {g : Pattern × Term → Term}, m.Renames →
        (∀ b ∈ bl, (Uses x (g b) ↔ Uses x b.2)) →
        ((∃ b ∈ bl.map (fun b => (patternAt n m b.1, g b)), b.1.Uses x ∨ Uses x b.2) ↔
          ∃ b ∈ bl, b.1.Uses x ∨ Uses x b.2) := by
      intro n m g hm hg
      simp only [mem_map, exists_exists_and_eq_and]
      exact exists_congr (fun b => and_congr_right (fun hb =>
        or_congr (uses_patternAt hm) (hg b hb)))
    refine ⟨fun {n m X cont} hm hc => ?_, fun tr {n m} hm => ?_, fun {n m} hm => ?_⟩
    · rw [elimT]
      split_ifs with hif
      · rw [uses_tcase, or_assoc]
        refine iht.cont hm (fun k t' => ?_)
        rw [uses_tcase, elimBranchesF_eq]
        refine or_congr_right ?_
        obtain ⟨b0, hb0⟩ : ∃ b, b ∈ bl := by
          cases bl with
          | nil => cases hif
          | cons b bl => exact ⟨b, mem_cons_self⟩
        have hstep : ∀ b ∈ bl, (Uses x (elimT (k + b.1.patVars.length)
            (m.bind k b.1.patVars) cont b.2) ↔ Uses x b.2 ∨ X) :=
          fun b hb => (ihb b hb).cont (hm.bind k _) hc
        simp only [mem_map, exists_exists_and_eq_and]
        constructor
        · rintro ⟨b, hb, h | h⟩
          · exact .inl ⟨b, hb, .inl ((uses_patternAt hm).mp h)⟩
          · exact ((hstep b hb).mp h).imp_left (fun h => ⟨b, hb, .inr h⟩)
        · rintro (⟨b, hb, h | h⟩ | h)
          · exact ⟨b, hb, .inl ((uses_patternAt hm).mpr h)⟩
          · exact ⟨b, hb, .inr ((hstep b hb).mpr (.inl h))⟩
          · exact ⟨b0, hb0, .inr ((hstep b0 hb0).mpr (.inr h))⟩
      · rw [uses_tcase, or_assoc]
        refine iht.cont hm (fun k t' => ?_)
        rw [or_left_comm]
        refine keeps_branches ihb hm (fun k' bl' => ?_)
        rw [hc, uses_tAttrCopy, uses_tcase]
        simp only [or_comm, or_assoc]
    · rw [elimTerm, elimTermBranches_eq, uses_tcase, uses_tcase, iht.term tr hm,
        hbr hm (fun b hb => (ihb b hb).term tr (hm.bind n _))]
    · rw [elimF, elimFBranches_eq, uses_tcase, uses_tcase, iht.term false hm,
        hbr hm (fun b hb => (ihb b hb).fmla (hm.bind n _))]
  | teps a v f ih =>
    have hstep : ∀ {n : ℕ} {m : Mvs} {a' : Sattr}, m.Renames →
        (Uses x (.teps a' ⟨n, v.vsTy⟩ (elimF (n + 1) (m.bind n [v]) f)) ↔
          Uses x (.teps a v f)) := by
      intro n m a' hm
      rw [uses_teps, uses_teps, ih.fmla (hm.bind n [v])]
    exact keeps_of_cont (fun hm => ⟨_, uses_tAttrCopy.trans (hstep hm), fun _ => rfl⟩)
      (fun _ _ _ hm => hstep hm) (fun hm => hstep hm)
  | tquant a q vl trl f htr ih =>
    exact keeps_of_cont (fun hm => ⟨_, keeps_quant htr ih hm, fun _ => rfl⟩)
      (fun _ _ _ hm => keeps_quant htr ih hm) (fun hm => keeps_quant htr ih hm)
  | tbinop a op f g ihf ihg =>
    have hstep : ∀ {n : ℕ} {m : Mvs}, m.Renames →
        (Uses x (.tbinop a op (elimF n m f) (elimF n m g)) ↔ Uses x (.tbinop a op f g)) := by
      intro n m hm
      rw [uses_tbinop, uses_tbinop, ihf.fmla hm, ihg.fmla hm]
    exact keeps_of_cont (fun hm => ⟨_, hstep hm, fun _ => rfl⟩) (fun _ _ _ hm => hstep hm)
      (fun hm => hstep hm)
  | tnot a f ih =>
    have hstep : ∀ {n : ℕ} {m : Mvs}, m.Renames → (Uses x (.tnot a (elimF n m f)) ↔ Uses x (.tnot a f)) := by
      intro n m hm
      rw [uses_tnot, uses_tnot, ih.fmla hm]
    exact keeps_of_cont (fun hm => ⟨_, hstep hm, fun _ => rfl⟩) (fun _ _ _ hm => hstep hm)
      (fun hm => hstep hm)

theorem uses_of_cont (hx : x ≠ .inr psEqu) (hm : m.Renames) {k : ℕ} {t' : Term}
    (heq : ∀ cont, elimT n m cont t = cont k t') : Uses x t' ↔ Uses x t := by
  have hk := @Keeps.cont x t (keeps hx t) n m False (fun _ t => t) hm
    (fun _ _ => (iff_of_eq (or_false _)).symm)
  rwa [heq, or_false] at hk

end EliminateIf

end Why3
