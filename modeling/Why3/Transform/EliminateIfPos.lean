import Why3.Transform.EliminateIfUses

/-!
# Positive formulas stay positive

The conditions that `elim_t` puts around a conclusion come from its arguments, in which none of
the declared predicates occurs.
-/

namespace Why3

open List

variable {tl : List Term} {bl : List (Pattern × Term)} {L : Term → Prop}

namespace EliminateIf

open Term

variable {sps : List LSymbol} {pol : Option Bool} {n : ℕ} {m : Mvs}

/-! ## Positive formulas -/

theorem tPosPs_eq_none {t : Term} : tPosPs sps t = none ↔ ∀ s ∈ sps, ¬ Uses (.inr s) t := by
  rw [tPosPs, find?_eq_none]
  simp only [decide_eq_true_eq, Uses]
  exact ⟨fun h s hs ht => h s ht hs, fun h s ht hs => h s hs ht⟩

theorem fPosTerms_eq_none :
    fPosTerms sps tl = none ↔ ∀ t ∈ tl, tPosPs sps t = none := by
  induction tl with
  | nil => simp [fPosTerms]
  | cons t tl ih => rw [fPosTerms, Option.or_eq_none_iff, ih, forall_mem_cons]

theorem fPosBranches_eq_none :
    fPosBranches sps pol bl = none ↔ ∀ b ∈ bl, fPosPs sps pol b.2 = none := by
  induction bl with
  | nil => simp [fPosBranches]
  | cons b bl ih =>
    obtain ⟨p, f⟩ := b
    rw [fPosBranches, Option.or_eq_none_iff, ih, forall_mem_cons]

/-- A term of a trigger, at a polarity. -/
def fPosOfTrigger (sps : List LSymbol) (pol : Option Bool) (t : Term) : Option LSymbol :=
  if t.tTy.isSome then tPosPs sps t else fPosPs sps pol t

theorem fPosTrigger_eq_none {tr : List Term} :
    fPosTrigger sps pol tr = none ↔ ∀ t ∈ tr, fPosOfTrigger sps pol t = none := by
  induction tr with
  | nil => simp [fPosTrigger]
  | cons t tr ih =>
    rw [fPosTrigger, Option.or_eq_none_iff, ih, forall_mem_cons, fPosOfTrigger]

theorem fPosTriggers_eq_none {trl : List (List Term)} : fPosTriggers sps pol trl = none ↔
    ∀ tr ∈ trl, ∀ t ∈ tr, fPosOfTrigger sps pol t = none := by
  induction trl with
  | nil => simp [fPosTriggers]
  | cons tr trl ih =>
    rw [fPosTriggers, Option.or_eq_none_iff, fPosTrigger_eq_none, ih, forall_mem_cons]

theorem fPosPs_setAttrs {a : Sattr} {f : Term} :
    fPosPs sps pol (f.setAttrs a) = fPosPs sps pol f := by
  cases f with
  | tbinop b op f g => cases op <;> simp only [setAttrs, fPosPs]
  | _ => simp only [setAttrs, fPosPs]

/-- A formula without the predicates is positive at every polarity. -/
theorem fPosPs_of_tPosPs {f : Term} : ∀ {pol : Option Bool}, tPosPs sps f = none →
    fPosPs sps pol f = none := by
  simp only [tPosPs_eq_none]
  induction f with
  | tvar a v | tconst a c ty | teps a v f _ | ttrue a | tfalse a => exact fun _ => rfl
  | tapp a s tl ty _ =>
    intro pol h
    rw [fPosPs, if_neg, fPosTerms_eq_none]
    · intro t ht
      exact tPosPs_eq_none.mpr (fun s hs hu => h s hs (uses_tapp.mpr (.inr ⟨t, ht, hu⟩)))
    · rintro ⟨_, hs⟩
      exact h s hs (uses_tapp.mpr (.inl (.inl rfl)))
  | tif a f t1 t2 ihf ih1 ih2 =>
    intro pol h
    simp only [uses_tif, not_or] at h
    rw [fPosPs, Option.or_eq_none_iff, Option.or_eq_none_iff]
    exact ⟨⟨ihf (fun s hs => (h s hs).1), ih1 (fun s hs => (h s hs).2.1)⟩,
      ih2 (fun s hs => (h s hs).2.2)⟩
  | tlet a t v e _ ihe =>
    intro pol h
    simp only [uses_tlet, not_or] at h
    rw [fPosPs, Option.or_eq_none_iff, tPosPs_eq_none]
    exact ⟨fun s hs => (h s hs).1, ihe (fun s hs => (h s hs).2)⟩
  | tcase a t bl _ ihb =>
    intro pol h
    simp only [uses_tcase, not_or] at h
    rw [fPosPs, Option.or_eq_none_iff, tPosPs_eq_none, fPosBranches_eq_none]
    exact ⟨fun s hs => (h s hs).1,
      fun b hb => ihb b hb (fun s hs hu => (h s hs).2 ⟨b, hb, .inr hu⟩)⟩
  | tquant a q vl trl f htr ih =>
    intro pol h
    simp only [uses_tquant, not_or] at h
    rw [fPosPs, Option.or_eq_none_iff, fPosTriggers_eq_none]
    refine ⟨ih (fun s hs => (h s hs).2), fun tr hmem t ht => ?_⟩
    have hno : ∀ s ∈ sps, ¬ Uses (.inr s) t := fun s hs hu => (h s hs).1.2 ⟨tr, hmem, t, ht, hu⟩
    rw [fPosOfTrigger]
    split_ifs
    · exact tPosPs_eq_none.mpr hno
    · exact htr tr hmem t ht hno
  | tbinop a op f g ihf ihg =>
    intro pol h
    simp only [uses_tbinop, not_or] at h
    have hf : ∀ {pol}, fPosPs sps pol f = none := ihf (fun s hs => (h s hs).1)
    have hg : ∀ {pol}, fPosPs sps pol g = none := ihg (fun s hs => (h s hs).2)
    cases op <;> simp only [fPosPs, hf, hg, Option.or_none]
  | tnot a f ih =>
    intro pol h
    simp only [uses_tnot] at h
    rw [fPosPs]
    exact ih h

/-! ## Formulas stay formulas -/

/-- The results are formulas where the continuation returns formulas. -/
structure ToFmla (t : Term) : Prop where
  cont : ∀ {n m} {cont : ℕ → Term → Term}, (∀ k t', (cont k t').tTy = none) →
    (elimT n m cont t).tTy = none
  fmla : ∀ {n m}, t.tTy = none → (elimF n m t).tTy = none

theorem toFmla_list (h : ∀ t ∈ tl, ToFmla t) :
    ∀ {n : ℕ} {contL : ℕ → List Term → Term}, (∀ k tl', (contL k tl').tTy = none) →
      (elimTList n m contL tl).tTy = none := by
  induction tl with
  | nil => exact fun hc => hc _ _
  | cons t tl ih =>
    intro n contL hc
    rw [forall_mem_cons] at h
    rw [elimTList]
    exact h.1.cont (fun k t' => ih h.2 (fun k' tl' => hc _ _))

theorem toFmla_branches (h : ∀ b ∈ bl, ToFmla b.2) :
    ∀ {n : ℕ} {contL : ℕ → List (Pattern × Term) → Term}, (∀ k bl', (contL k bl').tTy = none) →
      (elimBranchesT n m contL bl).tTy = none := by
  induction bl with
  | nil => exact fun hc => hc _ _
  | cons b bl ih =>
    intro n contL hc
    obtain ⟨p, t⟩ := b
    rw [forall_mem_cons] at h
    rw [elimBranchesT]
    exact ih h.2 (fun k bl' => h.1.cont (fun k' t' => hc _ _))

theorem toFmla (t : Term) : ToFmla t := by
  induction t with
  | tapp a s tl ty ih =>
    refine ⟨fun hc => ?_, fun hty => ?_⟩
    · rw [elimT]
      exact toFmla_list ih (fun k tl' => hc _ _)
    · rw [elimF]
      refine toFmla_list ih (fun k tl' => ?_)
      rw [tAttrCopy, tTy_setAttrs]
      exact hty
  | tif a f t1 t2 _ _ ih2 =>
    refine ⟨fun hc => ?_, fun hty => ?_⟩
    · rw [elimT]
      exact ih2.cont hc
    · rw [elimF]
      exact ih2.fmla hty
  | tlet a t v e iht ihe =>
    refine ⟨fun hc => ?_, fun hty => ?_⟩
    · rw [elimT]
      split_ifs
      · exact iht.cont (fun k t' => ihe.cont hc)
      · exact iht.cont (fun k t' => ihe.cont (fun k' e' => hc _ _))
    · rw [elimF]
      exact ihe.fmla hty
  | tcase a t bl iht ihb =>
    refine ⟨fun hc => ?_, fun hty => ?_⟩
    · rw [elimT]
      split_ifs
      · refine iht.cont (fun k t' => ?_)
        cases bl with
        | nil => rfl
        | cons b bl => exact (ihb b mem_cons_self).cont hc
      · exact iht.cont (fun k t' => toFmla_branches ihb (fun k' bl' => hc _ _))
    · rw [elimF]
      cases bl with
      | nil => rfl
      | cons b bl => exact (ihb b mem_cons_self).fmla hty
  | tvar a v | tconst a c ty | teps a v f _ => exact ⟨fun hc => hc _ _, fun hty => by cases hty⟩
  | _ => exact ⟨fun hc => hc _ _, fun _ => rfl⟩

/-! ## Positivity -/

/-- What `elim_t` puts around the formulas of its continuation: conditions and bindings
without the predicates.  With `free` there is no case analysis. -/
inductive Around (sps : List LSymbol) (free : Bool) (L : Term → Prop) : Term → Prop
  | leaf {f} : L f → Around sps free L f
  | tif {a f1 f2 f3} : tPosPs sps f1 = none → Around sps free L f2 → Around sps free L f3 →
      Around sps free L (.tif a f1 f2 f3)
  | tlet {a t v f} : tPosPs sps t = none → Around sps free L f → Around sps free L (.tlet a t v f)
  | tcase {a t bl} : free = false → tPosPs sps t = none → (∀ b ∈ bl, Around sps free L b.2) →
      Around sps free L (.tcase a t bl)

theorem Around.fPosPs {free : Bool} {f : Term} (h : Around sps free L f)
    (hL : ∀ f, L f → fPosPs sps pol f = none) : fPosPs sps pol f = none := by
  induction h with
  | leaf hf => exact hL _ hf
  | tif h1 _ _ ih2 ih3 =>
    rw [Why3.fPosPs, Option.or_eq_none_iff, Option.or_eq_none_iff]
    exact ⟨⟨fPosPs_of_tPosPs h1, ih2⟩, ih3⟩
  | tlet ht _ ih =>
    rw [Why3.fPosPs, Option.or_eq_none_iff]
    exact ⟨ht, ih⟩
  | tcase _ ht _ ihb =>
    rw [Why3.fPosPs, Option.or_eq_none_iff, fPosBranches_eq_none]
    exact ⟨ht, ihb⟩

/-- `elim_t` puts conditions, bindings and case analyses around. -/
def Puts (sps : List LSymbol) (free : Bool) (L : Term → Prop) (t : Term) : Prop :=
  ∀ {n m} {cont : ℕ → Term → Term}, m.Renames → tPosPs sps t = none →
    (free = true → branchFree t = true) →
    (∀ k t', tPosPs sps t' = none → Around sps free L (cont k t')) →
    Around sps free L (elimT n m cont t)

section Puts

variable {free : Bool} {L : Term → Prop}

theorem branchFreeList_eq_true :
    branchFreeList tl = true ↔ ∀ t ∈ tl, branchFree t = true := by
  induction tl with
  | nil => simp [branchFreeList]
  | cons t tl ih => rw [branchFreeList, Bool.and_eq_true, ih, forall_mem_cons]

theorem puts_list (h : ∀ t ∈ tl, Puts sps free L t) (hm : m.Renames) :
    ∀ {n : ℕ} {contL : ℕ → List Term → Term}, (∀ t ∈ tl, tPosPs sps t = none) →
      (free = true → ∀ t ∈ tl, branchFree t = true) →
      (∀ k tl', (∀ t ∈ tl', tPosPs sps t = none) → Around sps free L (contL k tl')) →
      Around sps free L (elimTList n m contL tl) := by
  induction tl with
  | nil => exact fun htl _ hc => hc _ _ htl
  | cons t tl ih =>
    intro n contL htl hfree hc
    simp only [forall_mem_cons] at h htl hfree
    rw [elimTList]
    refine h.1 hm htl.1 (fun hf => (hfree hf).1) (fun k t' ht' => ?_)
    refine ih h.2 htl.2 (fun hf => (hfree hf).2) (fun k' tl' htl' => hc _ _ ?_)
    exact forall_mem_cons.mpr ⟨ht', htl'⟩

theorem branchFree_of_hasIf {t : Term} : hasIf t = false → branchFree t = true := by
  induction t with
  | tapp a s tl ty ih =>
    intro h
    rw [hasIf, hasIfList_eq_false] at h
    rw [branchFree, branchFreeList_eq_true]
    exact fun t ht => ih t ht (h t ht)
  | tlet a t v e iht ihe =>
    intro h
    rw [hasIf, Bool.or_eq_false_iff] at h
    rw [branchFree, iht h.1, ihe h.2, Bool.and_self]
  | tcase a t bl iht _ =>
    intro h
    rw [hasIf, Bool.or_eq_false_iff] at h
    rw [branchFree, iht h.1, h.2, Bool.not_false, Bool.and_self]
  | tif a f t1 t2 _ _ _ => exact fun h => by cases h
  | _ => exact fun _ => rfl

theorem puts_branches (h : ∀ b ∈ bl, Puts sps free L b.2)
    (hm : m.Renames) : ∀ {n : ℕ} {contL : ℕ → List (Pattern × Term) → Term},
      (∀ b ∈ bl, tPosPs sps b.2 = none) → (∀ b ∈ bl, hasIf b.2 = false) →
      (∀ k bl', List.Forall₂ (fun b b' : Pattern × Term =>
        (∀ x, b'.1.Uses x ↔ b.1.Uses x) ∧ tPosPs sps b'.2 = none) bl bl' →
        Around sps free L (contL k bl')) →
      Around sps free L (elimBranchesT n m contL bl) := by
  induction bl with
  | nil => exact fun _ _ hc => hc _ _ .nil
  | cons b bl ih =>
    intro n contL hbl hif hc
    obtain ⟨p, t⟩ := b
    rw [forall_mem_cons] at h hbl hif
    rw [elimBranchesT]
    refine ih h.2 hbl.2 hif.2 (fun k bl' hbl' => ?_)
    refine h.1 (hm.bind k _) hbl.1 (fun _ => branchFree_of_hasIf hif.1) (fun k' t' ht' => ?_)
    exact hc _ _ (.cons ⟨fun x => uses_patternAt hm, ht'⟩ hbl')

end Puts

section Keep

variable (hequ : psEqu ∉ sps)

include hequ

theorem ne_of_mem {s : LSymbol} (hs : s ∈ sps) : (.inr s : Ty ⊕ LSymbol) ≠ .inr psEqu := by
  rintro heq
  exact hequ (Sum.inr.inj heq ▸ hs)

theorem tPosPs_elimTerm (hm : m.Renames) (tr : Bool) {t : Term} (h : tPosPs sps t = none) :
    tPosPs sps (elimTerm tr n m t) = none := by
  rw [tPosPs_eq_none] at h ⊢
  exact fun s hs hu => h s hs (((keeps (ne_of_mem hequ hs) t).term tr hm).mp hu)

theorem tPosPs_elimF (hm : m.Renames) {f : Term} (h : tPosPs sps f = none) :
    tPosPs sps (elimF n m f) = none := by
  rw [tPosPs_eq_none] at h ⊢
  exact fun s hs hu => h s hs (((keeps (ne_of_mem hequ hs) f).fmla hm).mp hu)

theorem tPosPs_of_cont (hm : m.Renames) {k : ℕ} {t t' : Term}
    (heq : ∀ cont, elimT n m cont t = cont k t') (h : tPosPs sps t = none) :
    tPosPs sps t' = none := by
  rw [tPosPs_eq_none] at h ⊢
  intro s hs hu
  exact h s hs ((uses_of_cont (ne_of_mem hequ hs) hm heq).mp hu)

theorem puts_of_cont {free : Bool} {t : Term}
    (h : ∀ n m, ∃ t', ∀ cont, elimT n m cont t = cont n t') : Puts sps free L t := by
  intro n m cont hm ht _ hc
  obtain ⟨t', heq⟩ := h n m
  rw [heq]
  exact hc _ _ (tPosPs_of_cont hequ hm heq ht)

theorem puts {free : Bool} (t : Term) : Puts sps free L t := by
  induction t with
  | tapp a s tl ty ih =>
    intro n m cont hm ht hfree hc
    rw [tPosPs_eq_none] at ht
    simp only [uses_tapp, not_or] at ht
    rw [elimT]
    refine puts_list ih hm ?_ (fun hf => branchFreeList_eq_true.mp (hfree hf))
      (fun k tl' htl' => hc _ _ ?_)
    · exact fun t hmem => tPosPs_eq_none.mpr (fun s hs hu => (ht s hs).2 ⟨t, hmem, hu⟩)
    · rw [tPosPs_eq_none]
      intro s' hs'
      rw [uses_tAttrCopy, uses_tapp, not_or]
      refine ⟨not_or.mpr (ht s' hs').1, ?_⟩
      rintro ⟨t, hmem, hu⟩
      exact tPosPs_eq_none.mp (htl' t hmem) s' hs' hu
  | tif a f t1 t2 _ ih1 ih2 =>
    intro n m cont hm ht hfree hc
    rw [tPosPs_eq_none] at ht
    simp only [uses_tif, not_or] at ht
    simp only [branchFree, Bool.and_eq_true] at hfree
    have hf : tPosPs sps f = none := tPosPs_eq_none.mpr (fun s hs => (ht s hs).1)
    rw [elimT]
    refine .tif (tPosPs_elimF hequ hm hf) (ih1 hm ?_ (fun h => (hfree h).1) hc)
      (ih2 hm ?_ (fun h => (hfree h).2) hc)
    · exact tPosPs_eq_none.mpr (fun s hs => (ht s hs).2.1)
    · exact tPosPs_eq_none.mpr (fun s hs => (ht s hs).2.2)
  | tlet a t v e iht ihe =>
    intro n m cont hm ht hfree hc
    rw [tPosPs_eq_none] at ht
    simp only [uses_tlet, not_or] at ht
    simp only [branchFree, Bool.and_eq_true] at hfree
    have ht1 : tPosPs sps t = none := tPosPs_eq_none.mpr (fun s hs => (ht s hs).1)
    have ht2 : tPosPs sps e = none := tPosPs_eq_none.mpr (fun s hs => (ht s hs).2)
    rw [elimT]
    split_ifs
    · exact iht hm ht1 (fun h => (hfree h).1) (fun k t' ht' =>
        .tlet ht' (ihe (hm.bind k [v]) ht2 (fun h => (hfree h).2) hc))
    · refine iht hm ht1 (fun h => (hfree h).1) (fun k t' ht' =>
        ihe (hm.bind k [v]) ht2 (fun h => (hfree h).2) (fun k' e' he' => hc _ _ ?_))
      rw [tPosPs_eq_none] at ht' he' ⊢
      intro s hs
      rw [uses_tAttrCopy, uses_tlet, not_or]
      exact ⟨ht' s hs, he' s hs⟩
  | tcase a t bl iht ihb =>
    intro n m cont hm ht hfree hc
    rw [tPosPs_eq_none] at ht
    simp only [uses_tcase, not_or] at ht
    simp only [branchFree, Bool.and_eq_true, Bool.not_eq_true'] at hfree
    have ht1 : tPosPs sps t = none := tPosPs_eq_none.mpr (fun s hs => (ht s hs).1)
    have htb : ∀ b ∈ bl, tPosPs sps b.2 = none := fun b hb =>
      tPosPs_eq_none.mpr (fun s hs hu => (ht s hs).2 ⟨b, hb, .inr hu⟩)
    rw [elimT]
    split_ifs with hif
    · have hno : free = false := by
        cases free with
        | false => rfl
        | true => exact absurd hif (by simp [(hfree rfl).2])
      refine iht hm ht1 (fun h => (hfree h).1) (fun k t' ht' => .tcase hno ht' ?_)
      rw [elimBranchesF_eq]
      refine forall_mem_map.mpr (fun b hb => ?_)
      exact ihb b hb (hm.bind k _) (htb b hb) (fun h => by simp [hno] at h) hc
    · have hif' := hasIfBranches_eq_false.mp (by simpa using hif)
      refine iht hm ht1 (fun h => (hfree h).1) (fun k t' ht' => ?_)
      refine puts_branches ihb hm htb hif' (fun k' bl' hbl' => hc _ _ ?_)
      rw [tPosPs_eq_none] at ht' ⊢
      intro s hs
      rw [uses_tAttrCopy, uses_tcase, not_or]
      refine ⟨ht' s hs, ?_⟩
      rintro ⟨b', hb', hu⟩
      obtain ⟨b, hb, hpat, hpos⟩ := Paired.exists_of_mem_right hbl' hb'
      rcases hu with hu | hu
      · exact (ht s hs).2 ⟨b, hb, .inl ((hpat _).mp hu)⟩
      · exact tPosPs_eq_none.mp hpos s hs hu
  | _ => exact puts_of_cont hequ (fun n m => ⟨_, fun _ => rfl⟩)

/-- The arguments of a predicate are put under conditions without the predicates. -/
theorem around_elimTList (free : Bool) (hm : m.Renames)
    (hpos : ∀ t ∈ tl, tPosPs sps t = none) (hfree : free = true → branchFreeList tl = true)
    {contL : ℕ → List Term → Term}
    (hc : ∀ k tl', (∀ t ∈ tl', tPosPs sps t = none) → L (contL k tl')) :
    Around sps free L (elimTList n m contL tl) :=
  puts_list (fun t _ => puts hequ t) hm hpos (fun h => branchFreeList_eq_true.mp (hfree h))
    (fun k tl' htl' => .leaf (hc k tl' htl'))

/-- The elimination keeps positive formulas positive. -/
theorem fPosPs_elimF {f : Term} : ∀ {n m pol}, m.Renames → fPosPs sps pol f = none →
    fPosPs sps pol (elimF n m f) = none := by
  induction f with
  | tvar a v =>
    intro n m pol hm _
    obtain ⟨a', heq⟩ := subst_tvar_renames (k := n) hm a v
    rw [elimF, heq]
    rfl
  | tapp a s tl ty _ =>
    intro n m pol hm hpos
    rw [fPosPs] at hpos
    split_ifs at hpos with hs
    rw [fPosTerms_eq_none] at hpos
    rw [elimF]
    refine (around_elimTList hequ false (L := fun f => fPosPs sps pol f = none) hm hpos
      nofun (fun k tl' htl' => ?_)).fPosPs (fun _ h => h)
    rw [tAttrCopy, fPosPs_setAttrs, fPosPs, if_neg hs, fPosTerms_eq_none]
    exact htl'
  | tif a f t1 t2 ihf ih1 ih2 =>
    intro n m pol hm hpos
    rw [fPosPs, Option.or_eq_none_iff, Option.or_eq_none_iff] at hpos
    rw [elimF, fPosPs, Option.or_eq_none_iff, Option.or_eq_none_iff]
    exact ⟨⟨ihf hm hpos.1.1, ih1 hm hpos.1.2⟩, ih2 hm hpos.2⟩
  | tlet a t v e _ ihe =>
    intro n m pol hm hpos
    rw [fPosPs, Option.or_eq_none_iff] at hpos
    rw [elimF, fPosPs, Option.or_eq_none_iff]
    exact ⟨tPosPs_elimTerm hequ hm false hpos.1, ihe (hm.bind n [v]) hpos.2⟩
  | tcase a t bl _ ihb =>
    intro n m pol hm hpos
    rw [fPosPs, Option.or_eq_none_iff, fPosBranches_eq_none] at hpos
    rw [elimF, fPosPs, Option.or_eq_none_iff, fPosBranches_eq_none, elimFBranches_eq]
    refine ⟨tPosPs_elimTerm hequ hm false hpos.1, forall_mem_map.mpr (fun b hb => ?_)⟩
    exact ihb b hb (hm.bind n _) (hpos.2 b hb)
  | tquant a q vl trl f htr ih =>
    intro n m pol hm hpos
    rw [fPosPs, Option.or_eq_none_iff, fPosTriggers_eq_none] at hpos
    rw [elimF, fPosPs, Option.or_eq_none_iff, fPosTriggers_eq_none, elimTriggers_eq]
    refine ⟨ih (hm.bind n vl) hpos.1, ?_⟩
    simp only [forall_mem_map]
    intro tr hmem t ht
    have hpt := hpos.2 tr hmem t ht
    rw [fPosOfTrigger] at hpt
    rw [elimOfTrigger]
    split_ifs with hty
    · rw [hty] at hpt
      rw [fPosOfTrigger, (toFmla t).fmla hty]
      exact htr tr hmem t ht (hm.bind n vl) hpt
    · rw [if_pos (Option.isSome_iff_ne_none.mpr hty)] at hpt
      have hno := tPosPs_elimTerm hequ (hm.bind n vl) (n := n + vl.length) true hpt
      rw [fPosOfTrigger]
      split_ifs
      · exact hno
      · exact fPosPs_of_tPosPs hno
  | tbinop a op f g ihf ihg =>
    intro n m pol hm hpos
    rw [elimF]
    cases op <;> simp only [fPosPs, Option.or_eq_none_iff] at hpos ⊢ <;>
      exact ⟨ihf hm hpos.1, ihg hm hpos.2⟩
  | tnot a f ih =>
    intro n m pol hm hpos
    rw [fPosPs] at hpos
    rw [elimF, fPosPs]
    exact ih hm hpos
  | teps a v f _ => exact fun _ _ => rfl
  | tconst a c ty | ttrue a | tfalse a => exact fun _ h => h

end Keep

end EliminateIf

end Why3
