import Why3.Core.RemoveUnusedInTerm

/-!
# Rebuilding a term

What the simplifying constructors of `core/term.ml` have in common: the result has the
meaning and the type of what the plain constructor builds, and no new free variables.  A
term that is rebuilt from its leaves up, at each node with a plain or a simplifying
constructor, keeps its meaning.
-/

namespace Why3

open List Term Interp

variable {r t t' : Term} {bl : List (Pattern × Term)} {a : Sattr}

/-! ## The traversal of the subterms -/

theorem Term.tMapMem_eq (t : Term) (g : Term → Term) : t.tMapMem (fun u _ => g u) = t.tMap g := by
  cases t with
  | tcase a t bl =>
    have hmap : bl.attach.map (fun b => (b.1.1, g b.1.2)) = bl.map (fun b => (b.1, g b.2)) :=
      attach_map_val (f := fun b : Pattern × Term => (b.1, g b.2))
    simp only [tMapMem, tMap, hmap]
  | _ => simp [tMapMem, tMap]

@[simp] theorem Term.children_setAttrs (a : Sattr) (t : Term) :
    (t.setAttrs a).children = t.children := by
  cases t <;> rfl

/-! ## The simplifying case analysis -/

/-- `is_e0`: the branch has the body of the first one. -/
def isE0 (e0 : Term) : Term → Bool
  | .ttrue _ =>
    match e0 with
    | .ttrue _ => true
    | _ => false
  | .tfalse _ =>
    match e0 with
    | .tfalse _ => true
    | _ => false
  | e => tEqual e e0

/-- `t_case_simp`; `none` is the exception `EmptyCase`. -/
def tCaseSimp (t : Term) : List (Pattern × Term) → Option Term
  | [] => none
  | (p, e0) :: tl =>
    some (if e0.freeVars.isEmpty && tl.all (fun b => isE0 e0 b.2) then e0
      else .tcase [] t ((p, e0) :: tl))

section Case

variable {sig : TySymbol → List LSymbol} {I : Interp sig}

theorem sem_isE0 (hlit : I.LitExt) {e0 e : Term} (w0 : e0.Wt sig) (w : e.Wt sig)
    (h : isE0 e0 e = true) (ρ : I.Env) : I.sem e ρ = I.sem e0 ρ := by
  unfold isE0 at h
  split at h
  · split at h
    · rfl
    · cases h
  · split at h
    · rfl
    · cases h
  · exact I.sem_tEqual hlit w w0 h ρ

theorem Interp.branches_const {R : Type} {bl : List (Pattern × (I.Env → R))} {r : R}
    (h : ∀ b ∈ bl, ∀ ρ, b.2 ρ = r) (hne : bl ≠ []) (x : R) (d : I.Val) (ρ : I.Env) :
    I.branches bl x d ρ = r := by
  induction bl with
  | nil => exact absurd rfl hne
  | cons b bl ih =>
    rw [forall_mem_cons] at h
    rw [branches_cons]
    cases Pattern.matchPat I.dest b.1 d with
    | some bs => exact h.1 _
    | none =>
      simp only
      split_ifs with hnil
      · exact h.1 _
      · exact ih h.2 hnil

theorem Interp.equiv_tCaseSimp (hlit : I.LitExt) (hwt : (tcase [] t bl).Wt sig)
    (hr : tCaseSimp t bl = some r) : I.Equiv (.tcase [] t bl) r := by
  cases bl with
  | nil => cases hr
  | cons b tl =>
    obtain ⟨p, e0⟩ := b
    rw [tCaseSimp, Option.some.injEq] at hr
    subst hr
    split_ifs with hsame
    · rw [Bool.and_eq_true, List.isEmpty_iff, all_eq_true] at hsame
      have hwt' := hwt
      simp only [Wt, wtBranches_iff, forall_mem_cons] at hwt'
      obtain ⟨-, -, h0, htl⟩ := hwt'
      have w0 := h0.2.2.2.2
      refine .of_sem w0 rfl fun {ρ} _ => ?_
      -- the body of the first branch is closed
      have hclosed : ∀ ρ', I.sem e0 ρ' = I.sem e0 ρ := fun ρ' =>
        sem_congr w0 (by rw [hsame.1]; simp)
      have hcase : I.sem (.tcase [] t ((p, e0) :: tl)) ρ = I.sem e0 ρ := by
        rw [I.sem_tcase]
        refine branches_const (fun b hb ρ' => ?_) (by simp) _ _ _
        obtain ⟨c, hc, rfl⟩ := mem_map.mp hb
        rcases mem_cons.mp hc with rfl | hc
        · exact hclosed ρ'
        · exact (sem_isE0 hlit w0 (htl c hc).2.2.2.2 (hsame.2 c hc) ρ').trans (hclosed ρ')
      rw [hcase]
      exact ⟨fun _ => rfl, fun _ => Iff.rfl⟩
    · exact .refl hwt

theorem freeVars_tCaseSimp (hr : tCaseSimp t bl = some r) :
    r.freeVars ⊆ (tcase [] t bl).freeVars := by
  cases bl with
  | nil => cases hr
  | cons b tl =>
    obtain ⟨p, e0⟩ := b
    rw [tCaseSimp, Option.some.injEq] at hr
    subst hr
    split_ifs with hsame
    · rw [Bool.and_eq_true, List.isEmpty_iff] at hsame
      rw [hsame.1]
      exact nil_subset _
    · exact List.Subset.refl _

end Case

/-! ## Types -/

section Types

variable {sig : TySymbol → List LSymbol} {f f1 f2 f3 : Term}

/-- A well-typed formula. -/
def IsFmla (sig : TySymbol → List LSymbol) (f : Term) : Prop := f.Wt sig ∧ f.tTy = none

theorem IsFmla.setAttrs (h : IsFmla sig f) (a : Sattr) : IsFmla sig (f.setAttrs a) := by
  simpa [IsFmla] using h

theorem IsFmla.attrCopy (h : IsFmla sig f) (s : Term) : IsFmla sig (tAttrCopy s f) := h.setAttrs _

theorem IsFmla.attrRemove (h : IsFmla sig f) (l : String) : IsFmla sig (tAttrRemove l f) :=
  h.setAttrs _

theorem IsFmla.true (a : Sattr) : IsFmla sig (.ttrue a) := ⟨trivial, rfl⟩

theorem IsFmla.false (a : Sattr) : IsFmla sig (.tfalse a) := ⟨trivial, rfl⟩

theorem IsFmla.binop {op : Binop} (h1 : IsFmla sig f1) (h2 : IsFmla sig f2) :
    IsFmla sig (.tbinop a op f1 f2) :=
  ⟨⟨h1.2, h2.2, h1.1, h2.1⟩, rfl⟩

theorem isFmla_tNotSimp (h : IsFmla sig f) : IsFmla sig (tNotSimp f) := by
  unfold tNotSimp
  split
  · exact (IsFmla.false _).attrCopy _
  · exact (IsFmla.true _).attrCopy _
  · exact IsFmla.attrCopy ⟨h.1.2, h.1.1⟩ _
  · exact ⟨⟨h.2, h.1⟩, rfl⟩

theorem isFmla_tAndSimp (h1 : IsFmla sig f1) (h2 : IsFmla sig f2) :
    IsFmla sig (tAndSimp f1 f2) := by
  unfold tAndSimp
  split
  · exact h2
  · exact h1.attrRemove _
  · exact h1.attrRemove _
  · exact h2
  · split_ifs
    · exact h1
    · exact h1.binop h2

theorem isFmla_tAndAsymSimp (h1 : IsFmla sig f1) (h2 : IsFmla sig f2) :
    IsFmla sig (tAndAsymSimp f1 f2) := by
  unfold tAndAsymSimp
  split
  · exact h2
  · exact h1.attrRemove _
  · exact h1.attrRemove _
  · exact h2
  · split_ifs
    · exact h1
    · exact (h1.setAttrs _).binop h2

theorem isFmla_tOrSimp (h1 : IsFmla sig f1) (h2 : IsFmla sig f2) :
    IsFmla sig (tOrSimp f1 f2) := by
  unfold tOrSimp
  split
  · exact h1.attrRemove _
  · exact h2
  · exact h2
  · exact h1.attrRemove _
  · split_ifs
    · exact h1
    · exact h1.binop h2

theorem isFmla_tImpliesSimp (h1 : IsFmla sig f1) (h2 : IsFmla sig f2) :
    IsFmla sig (tImpliesSimp f1 f2) := by
  unfold tImpliesSimp
  split
  · exact h2
  · exact h2
  · exact (IsFmla.true _).attrCopy _
  · exact isFmla_tNotSimp h1
  · split_ifs
    · exact (IsFmla.true _).attrCopy _
    · exact h1.binop h2

theorem isFmla_tIffSimp (h1 : IsFmla sig f1) (h2 : IsFmla sig f2) :
    IsFmla sig (tIffSimp f1 f2) := by
  unfold tIffSimp
  split
  · exact h2
  · exact h1
  · exact isFmla_tNotSimp h2
  · exact isFmla_tNotSimp h1
  · split_ifs
    · exact (IsFmla.true _).attrCopy _
    · exact h1.binop h2

theorem isFmla_tBinarySimp (op : Binop) (h1 : IsFmla sig f1) (h2 : IsFmla sig f2) :
    IsFmla sig (tBinarySimp op f1 f2) := by
  cases op with
  | tand => exact isFmla_tAndSimp h1 h2
  | tor => exact isFmla_tOrSimp h1 h2
  | timplies => exact isFmla_tImpliesSimp h1 h2
  | tiff => exact isFmla_tIffSimp h1 h2

/-- A conditional between terms or between formulas. -/
theorem wt_tIfSimp (hwt : (tif a f1 f2 f3).Wt sig) :
    (tIfSimp f1 f2 f3).Wt sig ∧ (tIfSimp f1 f2 f3).tTy = (tif a f1 f2 f3).tTy := by
  obtain ⟨hty, h23, w1, w2, w3⟩ := hwt
  have h1 : IsFmla sig f1 := ⟨w1, hty⟩
  have hn := isFmla_tNotSimp h1
  unfold tIfSimp
  split
  · exact ⟨w2, h23⟩
  · exact ⟨w3, rfl⟩
  · have h := isFmla_tImpliesSimp hn ⟨w3, h23.symm⟩
    exact ⟨h.1, h.2.trans h23⟩
  · have h := isFmla_tAndAsymSimp hn ⟨w3, h23.symm⟩
    exact ⟨h.1, h.2.trans h23⟩
  · exact isFmla_tImpliesSimp h1 ⟨w2, h23⟩
  · exact isFmla_tAndAsymSimp h1 ⟨w2, h23⟩
  · split_ifs
    · exact ⟨w2, h23⟩
    · exact ⟨⟨hty, h23, w1, w2, w3⟩, rfl⟩

theorem wt_tLetSimp {unused : ℕ → Bool} {e : Term} {v : VSymbol} (hwt : (tlet a e v t).Wt sig) :
    (tLetSimp unused e v t).Wt sig ∧ (tLetSimp unused e v t).tTy = t.tTy := by
  obtain ⟨hty, we, wt⟩ := hwt
  simp only [tLetSimp, tLetSimpKeepVar, Bool.false_eq_true, if_false]
  split_ifs
  · exact ⟨wt, rfl⟩
  · exact ⟨wt_tSubstSingle we hty wt, tTy_tSubstSingle we hty⟩
  · exact ⟨⟨hty, we, wt⟩, rfl⟩

theorem isFmla_tQuantSimp {q : Quant} {vl : List VSymbol} {trl : List (List Term)}
    (hwt : (tquant a q vl trl f).Wt sig) : IsFmla sig (tQuantSimp q vl trl f) := by
  obtain ⟨hty, htr, wf⟩ := hwt
  rw [wtTriggers_iff] at htr
  have hquant : ∀ vl trl', (∀ tr ∈ trl', ∀ t ∈ tr, Wt sig t) →
      IsFmla sig (tQuant q vl trl' f) := by
    intro vl trl' htr'
    rw [tQuant]
    split_ifs
    · exact ⟨wf, hty⟩
    · exact ⟨⟨hty, by rwa [wtTriggers_iff], wf⟩, rfl⟩
  simp only [tQuantSimp]
  split_ifs
  · exact hquant _ _ htr
  · exact ⟨wf, hty⟩
  · exact hquant _ _ (fun tr h => htr tr (mem_filter.mp h).1)

theorem wt_tMapSimp {unused : ℕ → Bool} {g : Term → Term} (hwt : (t.tMap g).Wt sig) :
    (tMapSimp unused t (fun u _ => g u)).Wt sig ∧
      (tMapSimp unused t (fun u _ => g u)).tTy = (t.tMap g).tTy := by
  cases t with
  | tapp a s tl ty =>
    have hmap : tl.attach.map (fun t => g t.1) = tl.map g := by simp
    simp only [tMapSimp, hmap, tAttrCopy, wt_setAttrs, tTy_setAttrs]
    simp only [Term.tMap] at hwt ⊢
    split
    · next t1 t2 htl =>
        rw [htl] at hwt ⊢
        split_ifs with hs
        · subst hs
          obtain ⟨rfl, t1', t2', tye, htl', h1, h2, w1, w2⟩ := wt_psEqu hwt
          obtain ⟨rfl, rfl⟩ : t1 = t1' ∧ t2 = t2' := by simpa using htl'
          unfold tEquSimp
          split_ifs
          · exact ⟨trivial, rfl⟩
          · exact ⟨wt_tEqu h1 h2 w1 w2, rfl⟩
        · exact ⟨hwt, rfl⟩
    · exact ⟨hwt, rfl⟩
  | tif a f t1 t2 =>
    have h := wt_tIfSimp hwt
    simp only [tMapSimp, tAttrCopy, wt_setAttrs, tTy_setAttrs]
    exact h
  | tlet a t v e =>
    have h : (tLetSimp unused (g t) v (g e)).Wt sig ∧ _ = _ := wt_tLetSimp hwt
    simp only [tMapSimp, tAttrCopy, wt_setAttrs, tTy_setAttrs]
    exact h
  | tcase a t bl =>
    have hmap : bl.attach.map (fun b => (b.1.1, g b.1.2)) = bl.map (fun b => (b.1, g b.2)) :=
      attach_map_val (f := fun b : Pattern × Term => (b.1, g b.2))
    rw [tMapSimp, hmap]
    exact ⟨hwt, rfl⟩
  | tquant a q vl trl f =>
    have hmap : trl.attach.map (fun tr => tr.1.attach.map (fun t => g t.1)) =
        trl.map (List.map g) := by simp
    rw [tMapSimp, hmap]
    exact (isFmla_tQuantSimp hwt).attrCopy _
  | tbinop a op f1 f2 =>
    obtain ⟨h1, h2, w1, w2⟩ := hwt
    rw [tMapSimp]
    exact (isFmla_tBinarySimp op ⟨w1, h1⟩ ⟨w2, h2⟩).attrCopy _
  | tnot a f =>
    rw [tMapSimp]
    exact (isFmla_tNotSimp ⟨hwt.2, hwt.1⟩).attrCopy _
  | _ => exact ⟨hwt, rfl⟩

theorem wt_tCaseSimp (hwt : (tcase [] t bl).Wt sig) (hr : tCaseSimp t bl = some r) :
    r.Wt sig ∧ r.tTy = (tcase [] t bl).tTy := by
  cases bl with
  | nil => cases hr
  | cons b tl =>
    obtain ⟨p, e0⟩ := b
    rw [tCaseSimp, Option.some.injEq] at hr
    subst hr
    split_ifs
    · simp only [Wt, wtBranches_iff, forall_mem_cons] at hwt
      exact ⟨hwt.2.2.1.2.2.2.2, rfl⟩
    · exact ⟨hwt, rfl⟩

end Types

/-! ## Free variables -/

section FreeVars

@[simp] theorem freeVars_tAttrCopy (s t : Term) : (tAttrCopy s t).freeVars = t.freeVars :=
  freeVars_setAttrs _ _

@[simp] theorem freeVars_tAttrRemove (l : String) (t : Term) :
    (tAttrRemove l t).freeVars = t.freeVars :=
  freeVars_setAttrs _ _

@[simp] theorem freeVars_tAttrAdd (l : String) (t : Term) : (tAttrAdd l t).freeVars = t.freeVars :=
  freeVars_setAttrs _ _

theorem freeVars_tNotSimp (f : Term) : (tNotSimp f).freeVars ⊆ f.freeVars := by
  unfold tNotSimp
  split <;> simp [freeVars]

theorem freeVars_tAndSimp (f1 f2 : Term) : (tAndSimp f1 f2).freeVars ⊆ f1.freeVars ++ f2.freeVars := by
  unfold tAndSimp
  split
  all_goals try split_ifs
  all_goals simp [freeVars]

theorem freeVars_tAndAsymSimp (f1 f2 : Term) :
    (tAndAsymSimp f1 f2).freeVars ⊆ f1.freeVars ++ f2.freeVars := by
  unfold tAndAsymSimp tAndAsym
  split
  all_goals try split_ifs
  all_goals simp [freeVars]

theorem freeVars_tOrSimp (f1 f2 : Term) : (tOrSimp f1 f2).freeVars ⊆ f1.freeVars ++ f2.freeVars := by
  unfold tOrSimp
  split
  all_goals try split_ifs
  all_goals simp [freeVars]

theorem freeVars_tImpliesSimp (f1 f2 : Term) :
    (tImpliesSimp f1 f2).freeVars ⊆ f1.freeVars ++ f2.freeVars := by
  unfold tImpliesSimp
  split
  all_goals try split_ifs
  all_goals try simp [freeVars]
  exact (freeVars_tNotSimp f1)

theorem freeVars_tIffSimp (f1 f2 : Term) : (tIffSimp f1 f2).freeVars ⊆ f1.freeVars ++ f2.freeVars := by
  unfold tIffSimp
  split
  · exact subset_append_right _ _
  · exact subset_append_left _ _
  · exact List.Subset.trans (freeVars_tNotSimp f2) (subset_append_right _ _)
  · exact List.Subset.trans (freeVars_tNotSimp f1) (subset_append_left _ _)
  · split_ifs <;> simp [freeVars]

theorem freeVars_tBinarySimp (op : Binop) (f1 f2 : Term) :
    (tBinarySimp op f1 f2).freeVars ⊆ f1.freeVars ++ f2.freeVars := by
  cases op with
  | tand => exact freeVars_tAndSimp f1 f2
  | tor => exact freeVars_tOrSimp f1 f2
  | timplies => exact freeVars_tImpliesSimp f1 f2
  | tiff => exact freeVars_tIffSimp f1 f2

theorem freeVars_tIfSimp (f1 f2 f3 : Term) :
    (tIfSimp f1 f2 f3).freeVars ⊆ f1.freeVars ++ f2.freeVars ++ f3.freeVars := by
  have hnot := freeVars_tNotSimp f1
  unfold tIfSimp
  split
  · exact fun v hv => by simp [hv]
  · exact fun v hv => by simp [hv]
  · intro v hv
    rcases mem_append.mp (freeVars_tImpliesSimp _ _ hv) with hv | hv
    · simp [hnot hv]
    · simp [hv]
  · intro v hv
    rcases mem_append.mp (freeVars_tAndAsymSimp _ _ hv) with hv | hv
    · simp [hnot hv]
    · simp [hv]
  · exact fun v hv => mem_append_left _ (freeVars_tImpliesSimp _ _ hv)
  · exact fun v hv => mem_append_left _ (freeVars_tAndAsymSimp _ _ hv)
  · split_ifs
    · exact fun v hv => by simp [hv]
    · exact List.Subset.refl _

theorem freeVars_tEquSimp (t1 t2 : Term) : (tEquSimp t1 t2).freeVars ⊆ (tEqu t1 t2).freeVars := by
  unfold tEquSimp
  split_ifs
  · exact nil_subset _
  · exact List.Subset.refl _

theorem freeVars_tLetSimp (unused : ℕ → Bool) (e : Term) (v : VSymbol) (t : Term) :
    (tLetSimp unused e v t).freeVars ⊆ (tlet [] e v t).freeVars := by
  intro w hw
  rw [freeVars, mem_append, mem_filter, decide_eq_true_eq]
  simp only [tLetSimp, tLetSimpKeepVar, Bool.false_eq_true, if_false] at hw
  split_ifs at hw with hn hsmall
  · refine .inr ⟨hw, ?_⟩
    rintro rfl
    exact count_eq_zero.mp hn hw
  · exact mem_freeVars_tSubstSingle hw
  · rwa [freeVars, mem_append, mem_filter, decide_eq_true_eq] at hw

theorem freeVars_tQuantSimp (q : Quant) (vl : List VSymbol) (trl : List (List Term)) (f : Term) :
    (tQuantSimp q vl trl f).freeVars ⊆ (tquant [] q vl trl f).freeVars := by
  have hquant : ∀ trl', (tQuant q vl trl' f).freeVars ⊆ (tquant [] q vl trl' f).freeVars := by
    intro trl'
    unfold tQuant
    split_ifs with hnil
    · subst hnil
      intro v hv
      simp [freeVars, hv]
    · exact List.Subset.refl _
  -- a variable of the formula that is bound stays bound
  have hbody : ∀ v ∈ f.freeVars, v ∉ vl.filter (· ∈ f.freeVars) →
      v ∈ (tquant [] q vl trl f).freeVars := by
    intro v hv hnot
    have hvl : v ∉ vl := fun hmem => hnot (mem_filter.mpr ⟨hmem, by simpa using hv⟩)
    rw [freeVars, mem_filter, decide_eq_true_eq]
    exact ⟨mem_append_right _ hv, hvl⟩
  simp only [tQuantSimp]
  split_ifs with hall hnil
  · exact hquant trl
  · exact fun v hv => hbody v hv (by rw [hnil]; exact not_mem_nil)
  · intro v hv
    rw [tQuant, if_neg hnil, freeVars, mem_filter, decide_eq_true_eq,
      freeVarsTriggers_eq] at hv
    refine hbody v ?_ hv.2
    rcases mem_append.mp hv.1 with htr | hv
    · obtain ⟨tr, htr, hv⟩ := mem_flatMap.mp htr
      obtain ⟨t, ht, hv⟩ := mem_flatMap.mp hv
      have hkept := all_eq_true.mp (mem_filter.mp htr).2 t ht
      simpa using all_eq_true.mp hkept v hv
    · exact hv

/-- A traversal that adds no free variables to the subterms adds none to the term. -/
theorem freeVars_tMap {g : Term → Term} (h : ∀ u ∈ t.children, (g u).freeVars ⊆ u.freeVars) :
    (t.tMap g).freeVars ⊆ t.freeVars := by
  cases t with
  | tapp a s tl ty =>
    intro v hv
    simp only [Term.tMap, freeVars, freeVarsList_eq, mem_flatMap] at hv ⊢
    obtain ⟨u, hu, hv⟩ := hv
    obtain ⟨t, ht, rfl⟩ := mem_map.mp hu
    exact ⟨t, ht, h t ht hv⟩
  | tif a f t1 t2 =>
    intro v hv
    simp only [children, forall_mem_cons] at h
    simp only [Term.tMap, freeVars, mem_append] at hv ⊢
    exact hv.imp (Or.imp (h.1 ·) (h.2.1 ·)) (h.2.2.1 ·)
  | tlet a t u e =>
    intro v hv
    simp only [children, forall_mem_cons] at h
    simp only [Term.tMap, freeVars, mem_append, mem_filter] at hv ⊢
    exact hv.imp (h.1 ·) (And.imp_left (h.2.1 ·))
  | tcase a t bl =>
    intro v hv
    simp only [children, forall_mem_cons, forall_mem_map] at h
    simp only [Term.tMap, freeVars, freeVarsBranches_eq, mem_append,
      mem_flatMap, mem_filter] at hv ⊢
    refine hv.imp (h.1 ·) ?_
    rintro ⟨c, hc, hv, hnot⟩
    obtain ⟨b, hb, rfl⟩ := mem_map.mp hc
    exact ⟨b, hb, h.2 b hb hv, hnot⟩
  | teps a u f =>
    intro v hv
    simp only [children, forall_mem_cons] at h
    simp only [Term.tMap, freeVars, mem_filter] at hv ⊢
    exact ⟨h.1 hv.1, hv.2⟩
  | tquant a q vl trl f =>
    intro v hv
    simp only [children, forall_mem_cons] at h
    simp only [Term.tMap, freeVars, freeVarsTriggers_eq, mem_filter,
      mem_append, mem_flatMap] at hv ⊢
    refine ⟨hv.1.imp ?_ (h.1 ·), hv.2⟩
    rintro ⟨tr', htr', u, hu, hv⟩
    obtain ⟨tr, htr, rfl⟩ := mem_map.mp htr'
    obtain ⟨t, ht, rfl⟩ := mem_map.mp hu
    exact ⟨tr, htr, t, ht, h.2 t (mem_flatten.mpr ⟨tr, htr, ht⟩) hv⟩
  | tbinop a op f1 f2 =>
    intro v hv
    simp only [children, forall_mem_cons] at h
    simp only [Term.tMap, freeVars, mem_append] at hv ⊢
    exact hv.imp (h.1 ·) (h.2.1 ·)
  | tnot a f => exact h f mem_cons_self
  | _ => exact List.Subset.refl _

theorem freeVars_tMapSimp (unused : ℕ → Bool) (g : Term → Term) (t : Term) :
    (tMapSimp unused t (fun u _ => g u)).freeVars ⊆ (t.tMap g).freeVars := by
  cases t with
  | tapp a s tl ty =>
    have hmap : tl.attach.map (fun t => g t.1) = tl.map g := by simp
    simp only [tMapSimp, hmap, freeVars_tAttrCopy, Term.tMap]
    split
    · next t1 t2 htl =>
        rw [htl]
        split_ifs
        · exact freeVars_tEquSimp t1 t2
        · exact List.Subset.refl _
    · exact List.Subset.refl _
  | tif a f t1 t2 =>
    rw [tMapSimp, freeVars_tAttrCopy]
    exact freeVars_tIfSimp _ _ _
  | tlet a t u e =>
    rw [tMapSimp, freeVars_tAttrCopy]
    exact freeVars_tLetSimp unused _ _ _
  | tcase a t bl =>
    have hmap : bl.attach.map (fun b => (b.1.1, g b.1.2)) = bl.map (fun b => (b.1, g b.2)) :=
      attach_map_val (f := fun b : Pattern × Term => (b.1, g b.2))
    rw [tMapSimp, hmap]
    exact List.Subset.refl _
  | tquant a q vl trl f =>
    have hmap : trl.attach.map (fun tr => tr.1.attach.map (fun t => g t.1)) =
        trl.map (List.map g) := by simp
    rw [tMapSimp, freeVars_tAttrCopy, hmap]
    exact freeVars_tQuantSimp _ _ _ _
  | tbinop a op f1 f2 =>
    rw [tMapSimp, freeVars_tAttrCopy]
    exact freeVars_tBinarySimp op _ _
  | tnot a f =>
    rw [tMapSimp, freeVars_tAttrCopy]
    exact freeVars_tNotSimp _
  | _ => exact List.Subset.refl _

end FreeVars

/-! ## Terms that are rebuilt -/

section Rebuilt

/-- The term is rebuilt from its leaves up: at each node with the plain constructor, the
simplifying one or, for a case analysis, `t_case_simp`; its attributes may be changed
before and after. -/
inductive Rebuilt (unused : ℕ → Bool) : Term → Term → Prop
  | map {t : Term} (g : Term → Term) (h : ∀ u ∈ t.children, Rebuilt unused u (g u)) :
      Rebuilt unused t (t.tMap g)
  | mapSimp {t : Term} (g : Term → Term) (h : ∀ u ∈ t.children, Rebuilt unused u (g u)) :
      Rebuilt unused t (tMapSimp unused t (fun u _ => g u))
  | caseSimp {a : Sattr} {t r : Term} {bl : List (Pattern × Term)} (g : Term → Term)
      (h : ∀ u ∈ (tcase a t bl).children, Rebuilt unused u (g u))
      (hr : tCaseSimp (g t) (bl.map (fun b => (b.1, g b.2))) = some r) :
      Rebuilt unused (.tcase a t bl) r
  | before {t t' : Term} (a : Sattr) (h : Rebuilt unused (t.setAttrs a) t') : Rebuilt unused t t'
  | after {t t' : Term} (a : Sattr) (h : Rebuilt unused t t') : Rebuilt unused t (t'.setAttrs a)

variable {sig : TySymbol → List LSymbol} {I : Interp sig} {unused : ℕ → Bool}

theorem Rebuilt.equiv (hlit : I.LitExt) (heps : I.EpsExt) (h : Rebuilt unused t t') :
    t.Wt sig → I.Equiv t t' := by
  induction h with
  | map g h ih => exact fun hwt => equiv_tMap heps ih hwt
  | mapSimp g h ih =>
    intro hwt
    have hmap := equiv_tMap heps ih hwt
    exact hmap.trans (equiv_tMapSimp hlit hmap.wt)
  | @caseSimp a t r bl g h hr ih =>
    intro hwt
    have hmap : I.Equiv (.tcase a t bl) (.tcase a (g t) (bl.map fun b => (b.1, g b.2))) :=
      equiv_tMap heps ih hwt
    -- the attributes of the case analysis are not seen
    have hplain := equiv_setAttrs (a := []) |>.mpr hmap
    exact hplain.trans (equiv_tCaseSimp hlit hplain.wt hr)
  | before a h ih =>
    intro hwt
    have hrefl : I.Equiv _ (Term.setAttrs a _) := Interp.equiv_setAttrs.mpr (.refl hwt)
    exact hrefl.trans (ih hrefl.wt)
  | after a h ih => exact fun hwt => Interp.equiv_setAttrs.mpr (ih hwt)

theorem Rebuilt.wt (h : Rebuilt unused t t') : t.Wt sig → t'.Wt sig ∧ t'.tTy = t.tTy := by
  induction h with
  | map g h ih => exact fun hwt => wt_tMap ih hwt
  | mapSimp g h ih =>
    intro hwt
    have hmap := wt_tMap ih hwt
    have hsimp : (tMapSimp unused _ (fun u _ => g u)).Wt sig ∧ _ = _ := wt_tMapSimp hmap.1
    exact ⟨hsimp.1, hsimp.2.trans hmap.2⟩
  | @caseSimp a t r bl g h hr ih =>
    intro hwt
    have hmap : (tcase a (g t) (bl.map fun b => (b.1, g b.2))).Wt sig ∧ _ = _ :=
      wt_tMap ih hwt
    have hsimp := wt_tCaseSimp ((wt_setAttrs [] (.tcase a _ _)).mpr hmap.1) hr
    exact ⟨hsimp.1, hsimp.2.trans hmap.2⟩
  | before a h ih => exact fun hwt => by simpa using ih (by simpa using hwt)
  | after a h ih => exact fun hwt => by simpa using ih hwt

theorem Rebuilt.freeVars (h : Rebuilt unused t t') : t'.freeVars ⊆ t.freeVars := by
  induction h with
  | map g h ih => exact freeVars_tMap ih
  | mapSimp g h ih => exact List.Subset.trans (freeVars_tMapSimp unused g _) (freeVars_tMap ih)
  | @caseSimp a t r bl g h hr ih =>
    have hmap : (tcase a (g t) (bl.map fun b => (b.1, g b.2))).freeVars ⊆ _ :=
      freeVars_tMap (t := .tcase a t bl) ih
    exact List.Subset.trans (freeVars_tCaseSimp hr) hmap
  | before a h ih => rwa [freeVars_setAttrs] at ih
  | after a h ih =>
    rw [freeVars_setAttrs]
    exact ih

end Rebuilt

end Why3
