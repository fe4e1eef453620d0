import Why3.Core.IndChecks
import Why3.Transform.EliminateIfPos

/-!
# The clauses that are left

The formula that `elim_f` makes of a clause is split into one clause for each choice of branches
in the arguments of the conclusion.  Which type variables stay in the conclusion, and which go
to the premises, is read off the choice.
-/

namespace Why3

open List Set

variable {f t : Term} {v : VSymbol} {tl : List Term} {bl : List (Pattern × Term)}

namespace EliminateIf

open Term

variable {sig : TySymbol → List LSymbol} {n : ℕ} {m : Mvs}

/-! ## Clauses and their conclusions -/

def tvSet (l : List TvSymbol) : Set TvSymbol := { v | v ∈ l }

theorem tvSet_append (l l' : List TvSymbol) : tvSet (l ++ l') = tvSet l ∪ tvSet l' := by
  ext v
  simp [tvSet]

@[simp] theorem tvSet_nil : tvSet [] = ∅ := by
  ext v
  simp [tvSet]

/-- The type variables of a term. -/
def tvs (t : Term) : Set TvSymbol := tvSet (tTyFreevars t)

theorem mem_tvs {v : TvSymbol} : v ∈ tvs t ↔ ∃ ty, Uses (.inl ty) t ∧ v ∈ ty.freevars := by
  simp only [tvs, tvSet, tTyFreevars, mem_ofPred_eq, mem_flatMap, Uses]

theorem tvs_congr {t' : Term} (h : ∀ ty, Uses (.inl ty) t' ↔ Uses (.inl ty) t) :
    tvs t' = tvs t := by
  ext v
  simp only [mem_tvs, h]

theorem tvs_elimF (hm : m.Renames) (f : Term) : tvs (elimF n m f) = tvs f :=
  tvs_congr (fun _ => (keeps (by simp) f).fmla hm)

theorem tvs_elimTerm (hm : m.Renames) (tr : Bool) (t : Term) : tvs (elimTerm tr n m t) = tvs t :=
  tvs_congr (fun _ => (keeps (by simp) t).term tr hm)

/-- What holds of the clauses that a formula is split into: of the type variables outside of
their conclusions, and of their conclusions. -/
def Every (S : Set TvSymbol → Term → Prop) (f : Term) : Prop :=
  ∀ c ∈ clause f, S (tvSet (outerTvs c)) (conclusion c)

section Every

variable {S : Set TvSymbol → Term → Prop} {a : Sattr}

theorem every_implies {g : Term} : (∀ c ∈ (clause f).map (Term.tbinop a .timplies g),
      S (tvSet (outerTvs c)) (conclusion c)) ↔ Every (fun o => S (tvs g ∪ o)) f := by
  rw [forall_mem_map]
  refine forall₂_congr (fun c _ => ?_)
  rw [outerTvs, tvSet_append, conclusion, Why3.clause, clause_acc]
  rfl

theorem every_tif {f1 f2 f3 : Term} : Every S (.tif a f1 f2 f3) ↔
    Every (fun o => S (tvs f1 ∪ o)) f2 ∧ Every (fun o => S (tvs f1 ∪ o)) f3 := by
  rw [Every, clause, forall_mem_append, every_implies, every_implies]
  rfl

theorem every_tbinop {g : Term} :
    Every S (.tbinop a .timplies g f) ↔ Every (fun o => S (tvs g ∪ o)) f := by
  rw [Every, clause]
  exact every_implies

theorem every_tlet : Every S (.tlet a t v f) ↔ Every (fun o => S (tvs t ∪ o)) f := by
  rw [Every, clause, forall_mem_map]
  refine forall₂_congr (fun c _ => ?_)
  rw [outerTvs, tvSet_append, conclusion, Why3.clause, clause_acc]
  rfl

/-- The type variables of a quantifier. -/
def quantTvs (vl : List VSymbol) (trl : List (List Term)) : List TvSymbol :=
  if vl = [] then [] else tTyFreevars (.tquant [] .tforall vl trl (.ttrue []))

theorem every_tquant {vl : List VSymbol} {trl : List (List Term)} :
    Every S (.tquant a .tforall vl trl f) ↔
      Every (fun o => S (tvSet (quantTvs vl trl) ∪ o)) f := by
  rw [Every, clause, forall_mem_map]
  refine forall₂_congr (fun c _ => ?_)
  rw [tQuant, quantTvs]
  split_ifs with hvl
  · simp only [tvSet_nil, empty_union]
  · rw [outerTvs, if_neg hvl, tvSet_append]
    rfl

theorem every_tapp {s : LSymbol} {ty : Option Ty} :
    Every S (.tapp a s tl ty) ↔ S ∅ (.tapp a s tl ty) := by
  have hone : Every S (.tapp a s tl ty) ↔ S (tvSet []) (.tapp a s tl ty) :=
    forall_mem_singleton
  rw [hone, tvSet_nil]

theorem every_tcase : Every S (.tcase a t bl) ↔ S ∅ (.tcase a t bl) := by
  have hone : Every S (.tcase a t bl) ↔ S (tvSet []) (.tcase a t bl) :=
    forall_mem_singleton
  rw [hone, tvSet_nil]

end Every

/-! ## The choices of a term -/

theorem tvSet_add_head (c : Choice) (h p : List TvSymbol) :
    tvSet (c.add h p).head = tvSet c.head ∪ tvSet h := tvSet_append _ _

theorem tvSet_add_premises (c : Choice) (h p : List TvSymbol) :
    tvSet (c.add h p).premises = tvSet c.premises ∪ tvSet p := tvSet_append _ _

/-- What `elim_t` returns is split into one clause of the continuation for each choice. -/
def Chooses (sig : TySymbol → List LSymbol) (S : Set TvSymbol → Term → Prop) (t : Term) : Prop :=
  ∀ {n m} {R : Set TvSymbol → Set TvSymbol → Prop} {cont : ℕ → Term → Term}, m.Renames →
    m.Ok sig n t.freeVars →
    (∀ {k t'} p, n ≤ k → t'.tTy = t.tTy →
      (Every (fun o => S (p ∪ o)) (cont k t') ↔ R (tvs t') p)) →
    ∀ p, Every (fun o => S (p ∪ o)) (elimT n m cont t) ↔
      ∀ c ∈ choices t, R (tvSet c.head) (p ∪ tvSet c.premises)

/-- The type variables of some terms. -/
def tvsList (tl : List Term) : Set TvSymbol := { v | ∃ t ∈ tl, v ∈ tvs t }

theorem tvsList_cons (t : Term) (tl : List Term) : tvsList (t :: tl) = tvs t ∪ tvsList tl := by
  ext v
  simp [tvsList]

theorem tvsList_nil : tvsList [] = ∅ := by
  ext v
  simp [tvsList]

variable {S : Set TvSymbol → Term → Prop} {a : Sattr}

theorem chooses_list (h : ∀ t ∈ tl, Chooses sig S t) (hm : m.Renames) :
    ∀ {n : ℕ} {R : Set TvSymbol → Set TvSymbol → Prop} {contL : ℕ → List Term → Term},
      (∀ t ∈ tl, m.Ok sig n t.freeVars) →
      (∀ {k tl'} p, n ≤ k → tl'.map tTy = tl.map tTy →
        (Every (fun o => S (p ∪ o)) (contL k tl') ↔ R (tvsList tl') p)) →
      ∀ p, Every (fun o => S (p ∪ o)) (elimTList n m contL tl) ↔
        ∀ c ∈ choicesList tl, R (tvSet c.head) (p ∪ tvSet c.premises) := by
  induction tl with
  | nil =>
    intro n R contL _ hc p
    rw [elimTList, choicesList, forall_mem_singleton, hc p le_rfl rfl, tvsList_nil,
      tvSet_nil, union_empty]
  | cons t tl ih =>
    intro n R contL hok hc p
    rw [forall_mem_cons] at h hok
    rw [elimTList, choicesList, forall_mem_flatMap]
    refine (h.1 (R := fun hd q => ∀ c ∈ choicesList tl, R (hd ∪ tvSet c.head)
      (q ∪ tvSet c.premises)) hm hok.1 ?_ p).trans ?_
    · intro k t' p hk hty
      refine ih (R := fun hd q => R (tvs t' ∪ hd) q) h.2 (fun u hu => (hok.2 u hu).le hk)
        (fun {k' tl'} q hk' htys => ?_) p
      rw [hc q (hk.trans hk') (by rw [map_cons, map_cons, hty, htys]), tvsList_cons]
    · refine forall₂_congr (fun c _ => ?_)
      rw [forall_mem_map]
      refine forall₂_congr (fun c' _ => ?_)
      rw [tvSet_add_head, tvSet_add_premises, union_comm (tvSet c'.head),
        union_comm (tvSet c'.premises), union_assoc]

theorem tvs_setAttrs (t : Term) : tvs (t.setAttrs a) = tvs t :=
  tvs_congr (fun _ => uses_setAttrs)

theorem tvs_tapp {s : LSymbol} {ty : Option Ty} :
    tvs (.tapp a s tl ty) = tvsList tl ∪ tvSet (ty.toList.flatMap Ty.freevars) := by
  simp only [tvs, tTyFreevars, types, typesList_eq, flatMap_append, tvSet_append]
  rw [union_comm]
  congr 1
  ext v
  simp only [tvSet, tvsList, tvs, tTyFreevars, flatMap_assoc, mem_flatMap,
    mem_ofPred_eq]

theorem tvs_tlet {e : Term} : tvs (.tlet a t v e) = tvs t ∪ tvs e := by
  ext u
  simp only [mem_tvs, uses_tlet, mem_union, or_and_right, exists_or]

theorem mem_branchTvs {v : TvSymbol} : v ∈ tvSet ((typesBranches bl).flatMap Ty.freevars) ↔
      ∃ ty, (∃ b ∈ bl, b.1.Uses (.inl ty) ∨ Uses (.inl ty) b.2) ∧ v ∈ ty.freevars := by
  simp only [tvSet, mem_ofPred_eq, typesBranches_eq, mem_flatMap, mem_append,
    Pattern.Uses, Uses]

theorem tvs_tcase :
    tvs (.tcase a t bl) = tvs t ∪ tvSet ((typesBranches bl).flatMap Ty.freevars) := by
  ext v
  simp only [mem_tvs, uses_tcase, mem_union, mem_branchTvs, or_and_right, exists_or]

theorem branchTvs_of_cont (hm : m.Renames) {k n' : ℕ} {bl' : List (Pattern × Term)}
    (heq : ∀ cont, elimBranchesT k m cont bl = cont n' bl') :
    tvSet ((typesBranches bl').flatMap Ty.freevars) =
      tvSet ((typesBranches bl).flatMap Ty.freevars) := by
  have huse : ∀ ty, (∃ b ∈ bl', b.1.Uses (.inl ty) ∨ Uses (.inl ty) b.2) ↔
      ∃ b ∈ bl, b.1.Uses (.inl ty) ∨ Uses (.inl ty) b.2 := by
    intro ty
    have htrue : ¬ Uses (.inl ty) (.ttrue []) := by simp [Uses, types]
    have hcont : ∀ (_ : ℕ) bl', Uses (.inl ty) (.tcase [] (.ttrue []) bl') ↔
        (∃ b ∈ bl', b.1.Uses (.inl ty) ∨ Uses (.inl ty) b.2) ∨ False := by
      intro _ bl'
      rw [uses_tcase, or_comm, or_congr_right (iff_false_intro htrue)]
    have hk := @keeps_branches (.inl ty) m bl (fun b _ => keeps (by simp) b.2) hm k False
      (fun _ bl' => .tcase [] (.ttrue []) bl') hcont
    rwa [heq, uses_tcase, or_false, or_iff_right htrue] at hk
  ext v
  simp only [mem_branchTvs, huse]

/-- A term without conditionals has one choice. -/
theorem chooses_leaf (hwt : t.Wt sig) (hty : t.tTy ≠ none) (hif : hasIf t = false)
    (hchoices : choices t = [⟨tTyFreevars t, []⟩]) : Chooses sig S t := by
  intro n m R cont hm hok hc p
  obtain ⟨n', t', h, heq⟩ := (spec hwt).plain hm hok hty hif
  have htvs : tvs t' = tvs t := tvs_congr (fun _ => uses_of_cont (by simp) hm heq)
  rw [heq, hc p h.le h.arg.ty, hchoices, forall_mem_singleton, tvSet_nil, union_empty,
    htvs]
  rfl

theorem chooses : t.Wt sig → t.tTy ≠ none → branchFree t = true → Chooses sig S t := by
  induction t with
  | tvar a v | tconst a c ty | teps a v f _ => exact fun hwt hty _ => chooses_leaf hwt hty rfl rfl
  | tapp a s tl ty ih =>
    intro hwt hty hfree n m R cont hm hok hc p
    have hbl : ∀ t ∈ tl, branchFree t = true := branchFreeList_eq_true.mp hfree
    have hwts : ∀ t ∈ tl, t.Wt sig := (wtList_iff sig tl).mp hwt.2
    rw [elimT, choices]
    refine (chooses_list (R := fun hd q => R (hd ∪ tvSet (ty.toList.flatMap Ty.freevars)) q)
      (fun t ht => ih t ht (hwts t ht) (tTy_of_mem_args hwt ht) (hbl t ht)) hm
      (fun t ht => hok.mono (fun v => mem_freeVars_tapp ht)) ?_ p).trans ?_
    · intro k tl' q hk _
      rw [hc q hk (by rw [tAttrCopy, tTy_setAttrs]; rfl), tAttrCopy, tvs_setAttrs, tvs_tapp]
    · rw [forall_mem_map]
      simp only [tvSet_add_head, tvSet_add_premises, tvSet_nil, union_empty]
  | tif a f t1 t2 _ ih1 ih2 =>
    intro hwt hty hfree n m R cont hm hok hc p
    obtain ⟨-, h12, -, h1wt, h2wt⟩ := hwt
    rw [branchFree, Bool.and_eq_true] at hfree
    have hty2 : t2.tTy ≠ none := hty
    have hok1 : m.Ok sig n t1.freeVars := hok.mono (fun v hv => by simp [freeVars, hv])
    have hok2 : m.Ok sig n t2.freeVars := hok.mono (fun v hv => by simp [freeVars, hv])
    rw [elimT, every_tif, choices, forall_mem_map, forall_mem_append, tvs_elimF hm]
    simp only [tvSet_add_head, tvSet_add_premises, tvSet_nil, union_empty,
      ← union_assoc]
    refine and_congr ((ih1 h1wt (h12 ▸ hty2) hfree.1 (R := R) hm hok1 ?_ (p ∪ tvs f)).trans ?_)
      ((ih2 h2wt hty2 hfree.2 (R := R) hm hok2 hc (p ∪ tvs f)).trans ?_)
    · exact fun q hk hty' => hc q hk (hty'.trans h12)
    · refine forall₂_congr (fun c _ => ?_)
      rw [union_right_comm]
      rfl
    · refine forall₂_congr (fun c _ => ?_)
      rw [union_right_comm]
      rfl
  | tlet a t v e iht ihe =>
    intro hwt hty hfree n m R cont hm hok hc p
    obtain ⟨htv, htwt, hewt⟩ := hwt
    rw [branchFree, Bool.and_eq_true] at hfree
    have hty1 : t.tTy ≠ none := by
      rw [htv]
      exact Option.some_ne_none _
    have htye : e.tTy ≠ none := hty
    have hokt : m.Ok sig n t.freeVars := hok.mono (fun v hv => mem_append_left _ hv)
    have hoke : ∀ {k}, n ≤ k → (m.bind k [v]).Ok sig (k + 1) e.freeVars :=
      fun hk => (hok.le hk).bind (fun v => mem_freeVars_tlet)
    rw [elimT, choices]
    split_ifs with hif
    · refine (iht htwt hty1 hfree.1 (R := fun hd q => ∀ c ∈ choices e, R (tvSet c.head)
        (q ∪ hd ∪ tvSet c.premises)) hm hokt ?_ p).trans ?_
      · intro k t' q hk _
        rw [every_tlet]
        simp only [← union_assoc]
        refine ihe hewt htye hfree.2 (hm.bind k [v]) (hoke hk) (fun q' hk' hty' => ?_) _
        exact hc q' ((Nat.le_succ_of_le hk).trans hk') hty'
      · rw [forall_mem_flatMap]
        refine forall₂_congr (fun c1 _ => ?_)
        rw [forall_mem_map]
        refine forall₂_congr (fun c2 _ => ?_)
        have hset : p ∪ tvSet c1.premises ∪ tvSet c1.head ∪ tvSet c2.premises =
            p ∪ tvSet (c2.add [] (c1.head ++ c1.premises)).premises := by
          rw [tvSet_add_premises, tvSet_append]
          ext v
          simp only [mem_union]
          tauto
        rw [hset, tvSet_add_head, tvSet_nil, union_empty]
    · have hif' : hasIf e = false := by simpa using hif
      refine (iht htwt hty1 hfree.1 (R := fun hd q => R (hd ∪ tvs e) q) hm hokt ?_ p).trans ?_
      · intro k t' q hk _
        obtain ⟨n', e', h, heq⟩ := (spec hewt).plain (hm.bind k [v]) (hoke hk) htye hif'
        have htvs : tvs e' = tvs e :=
          tvs_congr (fun _ => uses_of_cont (by simp) (hm.bind k [v]) heq)
        rw [heq, hc q (hk.trans ((Nat.le_succ k).trans h.le)), tAttrCopy, tvs_setAttrs, tvs_tlet,
          htvs]
        rw [tAttrCopy, tTy_setAttrs]
        exact h.arg.ty
      · rw [forall_mem_map]
        simp only [tvSet_add_head, tvSet_add_premises, tvSet_nil, union_empty]
        rfl
  | tcase a t bl iht ihb =>
    intro hwt hty hfree n m R cont hm hok hc p
    rw [branchFree, Bool.and_eq_true, Bool.not_eq_true'] at hfree
    have htwt : t.Wt sig := wt_of_mem_children hwt mem_cons_self
    have hokt : m.Ok sig n t.freeVars := hok.mono (fun v hv => by simp [freeVars, hv])
    rw [elimT, if_neg (by simp [hfree.2]), choices]
    refine (iht htwt (tTy_of_scrutinee hwt) hfree.1 (R := fun hd q =>
      R (hd ∪ tvSet ((typesBranches bl).flatMap Ty.freevars)) q) hm hokt ?_ p).trans ?_
    · intro k t' q hk _
      have hbr : ∀ b ∈ bl, ∀ k', k ≤ k' →
          IsPlain sig (k' + b.1.patVars.length) (m.bind k' b.1.patVars) b.2 := by
        intro b hb k' hk'
        refine (spec (wt_of_mem_children hwt (mem_children_branch hb))).plain (hm.bind k' _)
          ((hok.le (hk.trans hk')).bind (fun v => mem_freeVars_tcase hb)) ?_
          (hasIfBranches_eq_false.mp hfree.2 b hb)
        rwa [tTy_of_branch hwt hb]
      obtain ⟨n', bl', hle, hbl, heq⟩ := isPlain_branches hbr k le_rfl
      rw [heq, hc q (hk.trans hle), tAttrCopy, tvs_setAttrs, tvs_tcase,
        branchTvs_of_cont hm heq]
      rw [tAttrCopy, tTy_setAttrs]
      exact tTy_of_plainBranches a t t' hbl
    · rw [forall_mem_map]
      simp only [tvSet_add_head, tvSet_add_premises, tvSet_nil, union_empty]
  | _ => exact fun _ hty => absurd rfl hty

/-! ## What is not split -/

/-- Some clause of the formula does not have the property, whatever the premises around. -/
def Fails (S : Set TvSymbol → Term → Prop) (f : Term) : Prop :=
  ∀ p, ¬ Every (fun o => S (p ∪ o)) f

theorem fails_tif {f1 f2 f3 : Term} (h : Fails S f2 ∨ Fails S f3) : Fails S (.tif a f1 f2 f3) := by
  intro p hall
  rw [every_tif] at hall
  simp only [← union_assoc] at hall
  rcases h with h | h
  · exact h _ hall.1
  · exact h _ hall.2

theorem fails_tlet (h : Fails S f) : Fails S (.tlet a t v f) := by
  intro p hall
  rw [every_tlet] at hall
  simp only [← union_assoc] at hall
  exact h _ hall

/-- A case analysis whose branches have conditionals stays around the conclusion. -/
def Stuck (S : Set TvSymbol → Term → Prop) (t : Term) : Prop :=
  ∀ {n m} {cont : ℕ → Term → Term}, (branchFree t = false ∨ ∀ k t', Fails S (cont k t')) →
    Fails S (elimT n m cont t)

theorem stuck_list (h : ∀ t ∈ tl, Stuck S t) : ∀ {n : ℕ} {contL : ℕ → List Term → Term},
      (branchFreeList tl = false ∨ ∀ k tl', Fails S (contL k tl')) →
      Fails S (elimTList n m contL tl) := by
  induction tl with
  | nil =>
    intro n contL hc
    exact hc.resolve_left (by simp [branchFreeList]) _ _
  | cons t tl ih =>
    intro n contL hc
    rw [forall_mem_cons] at h
    rw [branchFreeList, Bool.and_eq_false_iff] at hc
    rw [elimTList]
    rcases hc with (hc | hc) | hc
    · exact h.1 (.inl hc)
    · exact h.1 (.inr (fun k t' => ih h.2 (.inl hc)))
    · exact h.1 (.inr (fun k t' => ih h.2 (.inr (fun k' tl' => hc _ _))))

theorem stuck_branches (h : ∀ b ∈ bl, Stuck S b.2) :
    ∀ {n : ℕ} {contL : ℕ → List (Pattern × Term) → Term}, (∀ k bl', Fails S (contL k bl')) →
      Fails S (elimBranchesT n m contL bl) := by
  induction bl with
  | nil => exact fun hc => hc _ _
  | cons b bl ih =>
    intro n contL hc
    obtain ⟨p, t⟩ := b
    rw [forall_mem_cons] at h
    rw [elimBranchesT]
    exact ih h.2 (fun k bl' => h.1 (.inr (fun k' t' => hc _ _)))

theorem stuck (hcase : ∀ o a t bl, ¬ S o (.tcase a t bl)) (t : Term) : Stuck S t := by
  induction t with
  | tapp a s tl ty ih =>
    intro n m cont hc
    rw [elimT]
    exact stuck_list ih (hc.imp_right (fun hc k tl' => hc _ _))
  | tif a f t1 t2 _ ih1 ih2 =>
    intro n m cont hc
    rw [branchFree, Bool.and_eq_false_iff] at hc
    rw [elimT]
    rcases hc with (hc | hc) | hc
    · exact fails_tif (.inl (ih1 (.inl hc)))
    · exact fails_tif (.inr (ih2 (.inl hc)))
    · exact fails_tif (.inl (ih1 (.inr hc)))
  | tlet a t v e iht ihe =>
    intro n m cont hc
    rw [branchFree, Bool.and_eq_false_iff] at hc
    rw [elimT]
    split_ifs
    · rcases hc with (hc | hc) | hc
      · exact iht (.inl hc)
      · exact iht (.inr (fun k t' => fails_tlet (ihe (.inl hc))))
      · exact iht (.inr (fun k t' => fails_tlet (ihe (.inr hc))))
    · rcases hc with (hc | hc) | hc
      · exact iht (.inl hc)
      · exact iht (.inr (fun k t' => ihe (.inl hc)))
      · exact iht (.inr (fun k t' => ihe (.inr (fun k' e' => hc _ _))))
  | tcase a t bl iht ihb =>
    intro n m cont hc
    rw [branchFree, Bool.and_eq_false_iff, Bool.not_eq_false'] at hc
    rw [elimT]
    split_ifs with hif
    · refine iht (.inr (fun k t' p hall => ?_))
      rw [every_tcase] at hall
      exact hcase _ _ _ _ hall
    · rcases hc with (hc | hc) | hc
      · exact iht (.inl hc)
      · exact absurd hc hif
      · exact iht (.inr (fun k t' => stuck_branches ihb (fun k' bl' => hc _ _)))
  | _ =>
    intro n m cont hc
    exact hc.resolve_left (by simp [branchFree]) _ _

/-! ## The clauses of a clause -/

/-- A clause for `ps`: outside of its conclusion it has only type variables of `o`. -/
def HeadOk (ps : LSymbol) (o : Set TvSymbol) (g : Term) : Prop :=
  ∃ a tl, g = .tapp a ps tl none ∧ tl.map tTy = ps.lsArgs.map some ∧ o ⊆ tvs g

theorem tvSet_quantTvs (hm : m.Renames) (vl : List VSymbol) (trl : List (List Term)) :
    tvSet (quantTvs (freshen n vl) (elimTriggers (n + vl.length) (m.bind n vl) trl)) =
      tvSet (quantTvs vl trl) := by
  have hnil : freshen n vl = [] ↔ vl = [] := by
    cases vl with
    | nil => simp [freshen]
    | cons v vl => simp [freshen]
  rw [quantTvs, quantTvs]
  simp only [hnil]
  split_ifs
  · rfl
  · exact tvs_congr (fun ty => keeps_quant (f := .ttrue [])
      (fun _ _ t _ => keeps (by simp) t) (keeps (by simp) _) hm)

theorem every_elimF {ps : LSymbol} : ∀ {n : ℕ} {m : Mvs} {p : Set TvSymbol} {a : Sattr}
    {tl : List Term}, f.Wt sig → m.Renames → m.Ok sig n f.freeVars →
      conclusion f = .tapp a ps tl none → tl.map tTy = ps.lsArgs.map some →
      (Every (fun o => HeadOk ps (p ∪ o)) (elimF n m f) ↔ branchFreeList tl = true ∧
        ∀ c ∈ choicesList tl, p ∪ tvSet (outerTvs f) ∪ tvSet c.premises ⊆ tvSet c.head) := by
  induction f with
  | tquant a q vl trl f _ ih =>
    intro n m p a' tl hwt hm hok hcl htys
    cases q with
    | texists => cases hcl
    | tforall =>
      rw [elimF, every_tquant, tvSet_quantTvs hm]
      simp only [← union_assoc]
      rw [ih hwt.2.2 (hm.bind n vl) (hok.bind (fun v hv hne => mem_freeVars_tquant hv hne)) hcl
        htys, outerTvs, tvSet_append, ← union_assoc]
      rfl
  | tbinop a op g f _ ih =>
    intro n m p a' tl hwt hm hok hcl htys
    cases op with
    | timplies =>
      rw [conclusion_tbinop rfl] at hcl
      rw [elimF, every_tbinop, tvs_elimF hm]
      simp only [← union_assoc]
      rw [ih hwt.2.2.2 hm (hok.mono (fun v hv => mem_append_right _ hv)) hcl htys,
        outerTvs, tvSet_append, ← union_assoc]
      rfl
    | _ => cases hcl
  | tlet a t v f _ ih =>
    intro n m p a' tl hwt hm hok hcl htys
    rw [conclusion_tlet] at hcl
    rw [elimF, every_tlet, tvs_elimTerm hm]
    simp only [← union_assoc]
    have hokf : (m.bind n [v]).Ok sig (n + 1) f.freeVars :=
      hok.bind (fun v => mem_freeVars_tlet)
    rw [ih hwt.2.2 (hm.bind n [v]) hokf hcl htys, outerTvs, tvSet_append, ← union_assoc]
    rfl
  | tapp a s tl ty _ =>
    intro n m p a' tl' hwt hm hok hcl htys
    cases hcl
    rw [elimF]
    cases hfree : branchFreeList tl with
    | false =>
      simp only [Bool.false_eq_true, false_and, iff_false]
      refine stuck_list (fun t _ => stuck ?_ t) (.inl hfree) p
      rintro o a t bl ⟨_, _, h, _⟩
      cases h
    | true =>
      simp only [true_and]
      have hbl : ∀ t ∈ tl, branchFree t = true := branchFreeList_eq_true.mp hfree
      have hwts : ∀ t ∈ tl, t.Wt sig := (wtList_iff sig tl).mp hwt.2
      refine (chooses_list (S := HeadOk ps) (R := fun hd q => q ⊆ hd)
        (fun t ht => chooses (hwts t ht) (tTy_of_mem_args hwt ht) (hbl t ht)) hm
        (fun t ht => hok.mono (fun v => mem_freeVars_tapp ht)) ?_ p).trans ?_
      · intro k tl' q _ htys'
        rw [tAttrCopy, setAttrs, every_tapp, union_empty, HeadOk, tvs_tapp]
        constructor
        · rintro ⟨_, _, _, _, hsub⟩
          simpa using hsub
        · intro hsub
          exact ⟨_, _, rfl, htys'.trans htys, by simpa using hsub⟩
      · simp only [outerTvs, tvSet_nil, union_empty]
  | _ =>
    intro n m p a' tl hwt hm hok hcl
    cases hcl

end EliminateIf

end Why3
