import Why3.Transform.EliminateIfFires

/-!
# Inductive declarations without conditionals

When `elim_d` returns an inductive declaration, and that it defines the same predicates then.
-/

namespace Why3

open List
open Prod (fst snd)

variable {a : Sattr} {k : ℕ} {al : List (PrSymbol × Term)} {f : Term} {idl : List IndDecl}

namespace EliminateIf

open Term

variable {sig : TySymbol → List LSymbol} {n : ℕ} {m : Mvs} {sps : List LSymbol}

/-! ## The clauses that are left pass the checks -/

section Clauses

/-- The premises and the conclusion of a clause are positive. -/
def Positive (sps : List LSymbol) (c : Term) : Prop :=
  ∀ g ∈ conclusion c :: (Why3.clause [] c).1, fPosPs sps (some true) g = none

theorem positive_tbinop {g : Term} : Positive sps (.tbinop a .timplies g f) ↔
    Positive sps f ∧ fPosPs sps (some true) g = none := by
  simp only [Positive, conclusion_tbinop, premises_tbinop, forall_mem_cons,
    forall_mem_append, and_assoc, not_mem_nil, false_implies, implies_true, and_true]

theorem fPosPs_tEqu (hequ : psEqu ∉ sps) {t1 t2 : Term} (h1 : tPosPs sps t1 = none)
    (h2 : tPosPs sps t2 = none) {pol : Option Bool} : fPosPs sps pol (tEqu t1 t2) = none := by
  rw [tEqu, fPosPs, if_neg (fun h => hequ h.2), fPosTerms, fPosTerms, fPosTerms, h1, h2]
  rfl

theorem positive_tlet (hequ : psEqu ∉ sps) {t : Term} {v : VSymbol} (ht : tPosPs sps t = none)
    (hf : Positive sps f) : Positive sps (.tlet a t v f) := by
  have hv : tPosPs sps (.tvar [] v) = none := rfl
  simp only [Positive, conclusion_tlet, premises_tlet, forall_mem_cons,
    forall_mem_append, not_mem_nil, false_implies, implies_true, and_true]
  rw [Positive, forall_mem_cons] at hf
  exact ⟨hf.1, hf.2, fPosPs_tEqu hequ hv ht⟩

theorem positive_around (hequ : psEqu ∉ sps) {L : Term → Prop}
    (h : Around sps true L f) (hL : ∀ f, L f → clause f = [f] ∧ Positive sps f) :
    ∀ c ∈ clause f, Positive sps c := by
  induction h with
  | leaf hf =>
    obtain ⟨hcl, hpos⟩ := hL _ hf
    rw [hcl, forall_mem_singleton]
    exact hpos
  | tif h1 _ _ ih2 ih3 =>
    rw [clause, forall_mem_append, forall_mem_map, forall_mem_map]
    refine ⟨fun c hc => positive_tbinop.mpr ⟨ih2 c hc, fPosPs_of_tPosPs h1⟩,
      fun c hc => positive_tbinop.mpr ⟨ih3 c hc, ?_⟩⟩
    rw [fPosPs]
    exact fPosPs_of_tPosPs h1
  | tlet ht _ ih =>
    rw [clause, forall_mem_map]
    exact fun c hc => positive_tlet hequ ht (ih c hc)
  | tcase hfree _ _ _ => cases hfree

theorem positive_elimF (hequ : psEqu ∉ sps) {ps : LSymbol} : ∀ {n : ℕ} {m : Mvs}
    {a : Sattr} {tl : List Term}, IsClause sps ps f → conclusion f = .tapp a ps tl none →
      branchFreeList tl = true → m.Renames → ∀ c ∈ clause (elimF n m f), Positive sps c := by
  induction f with
  | tquant a q vl trl f _ ih =>
    intro n m a' tl hc hcl hfree hm
    cases q with
    | texists => cases hcl
    | tforall =>
      rw [elimF, clause, forall_mem_map]
      intro c hmem
      rw [Positive, conclusion, clause_tQuant]
      exact ih hc hcl hfree (hm.bind n vl) c hmem
  | tbinop a op g f _ ih =>
    intro n m a' tl hc hcl hfree hm
    cases op with
    | timplies =>
      rw [conclusion_tbinop rfl] at hcl
      rw [elimF, clause, forall_mem_map]
      exact fun c hmem => positive_tbinop.mpr
        ⟨ih hc.2 hcl hfree hm c hmem, fPosPs_elimF hequ hm hc.1⟩
    | _ => cases hcl
  | tlet a t v f _ ih =>
    intro n m a' tl hc hcl hfree hm
    rw [conclusion_tlet] at hcl
    rw [elimF, clause, forall_mem_map]
    exact fun c hmem => positive_tlet hequ (tPosPs_elimTerm hequ hm false hc.1)
      (ih hc.2 hcl hfree (hm.bind n [v]) c hmem)
  | tapp a s tl ty _ =>
    intro n m a' tl' hc hcl hfree hm
    cases hcl
    rw [elimF]
    refine positive_around hequ (around_elimTList hequ true (L := fun g => clause g = [g] ∧
      Positive sps g) hm hc.2.2 (fun _ => hfree) (fun k tl' htl' => ⟨rfl, ?_⟩)) (fun _ h => h)
    have hone : ∀ b, Why3.clause [] (.tapp b ps tl' none) = ([], .tapp b ps tl' none) :=
      fun _ => rfl
    rw [Positive, conclusion, tAttrCopy, setAttrs, hone, forall_mem_singleton, fPosPs,
      if_neg (by simp), fPosTerms_eq_none]
    exact htl'
  | _ =>
    intro n m a' tl hc hcl
    cases hcl

/-- The clauses of a formula are formulas over its variables. -/
structure Part (sig : TySymbol → List LSymbol) (f c : Term) : Prop where
  wt : c.Wt sig
  ty : c.tTy = none
  vars : ∀ v ∈ c.freeVars, v ∈ f.freeVars

theorem part_implies {g c : Term} (hwt : g.Wt sig) (hty : g.tTy = none)
    (h : Part sig f c) {F : Term} (hF : ∀ v, v ∈ g.freeVars ∨ v ∈ f.freeVars → v ∈ F.freeVars) :
    Part sig F (.tbinop [] .timplies g c) := by
  refine ⟨⟨hty, h.ty, hwt, h.wt⟩, rfl, fun v hv => ?_⟩
  rw [freeVars, mem_append] at hv
  exact hF v (hv.imp_right (h.vars v))

theorem parts_of_clause : f.Wt sig → f.tTy = none → ∀ c ∈ clause f, Part sig f c := by
  induction f with
  | tquant a q vl trl f _ ih =>
    intro hwt _
    cases q with
    | texists => exact forall_mem_singleton.mpr ⟨hwt, rfl, fun _ h => h⟩
    | tforall =>
      rw [clause, forall_mem_map]
      intro c hc
      obtain ⟨hty, htrl, hfwt⟩ := hwt
      have h := ih hfwt hty c hc
      rw [tQuant]
      split_ifs with hvl
      · subst hvl
        refine ⟨h.wt, h.ty, fun v hv => mem_freeVars_tquant (h.vars v hv) not_mem_nil⟩
      · refine ⟨⟨h.ty, htrl, h.wt⟩, rfl, fun v hv => ?_⟩
        simp only [freeVars, mem_filter, mem_append] at hv ⊢
        exact ⟨hv.1.imp_right (h.vars v), hv.2⟩
  | tbinop a op g f _ ih =>
    intro hwt _
    cases op with
    | timplies =>
      rw [clause, forall_mem_map]
      obtain ⟨hg, hf, hgwt, hfwt⟩ := hwt
      refine fun c hc => part_implies hgwt hg (ih hfwt hf c hc) (fun v hv => ?_)
      rwa [freeVars, mem_append]
    | _ => exact forall_mem_singleton.mpr ⟨hwt, rfl, fun _ h => h⟩
  | tlet a t v f _ ih =>
    intro hwt hty
    rw [clause, forall_mem_map]
    intro c hc
    have h := ih hwt.2.2 hty c hc
    refine ⟨⟨hwt.1, hwt.2.1, h.wt⟩, h.ty, fun w hw => ?_⟩
    simp only [freeVars, mem_append, mem_filter] at hw ⊢
    exact hw.imp_right (fun hw => ⟨h.vars w hw.1, hw.2⟩)
  | tif a f1 f2 f3 _ ih2 ih3 =>
    intro hwt hty
    obtain ⟨h1, h23, h1wt, h2wt, h3wt⟩ := hwt
    have hty3 : f3.tTy = none := hty
    rw [clause, forall_mem_append, forall_mem_map, forall_mem_map]
    refine ⟨fun c hc => part_implies h1wt h1 (ih2 h2wt (h23.trans hty3) c hc) (fun v hv => ?_),
      fun c hc => part_implies (g := .tnot [] f1) ⟨h1, h1wt⟩ rfl (ih3 h3wt hty3 c hc)
        (fun v hv => ?_)⟩
    · simp only [freeVars, mem_append]
      exact .inl hv
    · simp only [freeVars, mem_append] at hv ⊢
      exact hv.imp_left .inl
  | _ => exact fun hwt hty => forall_mem_singleton.mpr ⟨hwt, hty, fun _ h => h⟩

/-- The type variables of a clause are those of its conclusion and those around it. -/
theorem mem_tTyFreevars_clause : ∀ c ∈ clause f, ∀ v,
    v ∈ tTyFreevars c ↔ v ∈ outerTvs c ∨ v ∈ tTyFreevars (conclusion c) := by
  have htvs : ∀ (t : Term) v, v ∈ tTyFreevars t ↔ v ∈ tvs t := fun _ _ => .rfl
  simp only [htvs]
  induction f with
  | tquant a q vl trl f _ ih =>
    cases q with
    | texists =>
      refine forall_mem_singleton.mpr (fun v => ?_)
      exact (or_iff_right not_mem_nil).symm
    | tforall =>
      rw [clause, forall_mem_map]
      intro c hc v
      rw [conclusion, clause_tQuant]
      have hih := ih c hc v
      rw [conclusion] at hih
      rw [tQuant]
      split_ifs with hvl
      · exact hih
      · rw [outerTvs, if_neg hvl, mem_append, htvs, or_assoc, ← hih]
        simp only [mem_tvs, uses_tquant, or_and_right, exists_or]
        simp [Uses, types]
  | tbinop a op g f _ ih =>
    cases op with
    | timplies =>
      rw [clause, forall_mem_map]
      intro c hc v
      rw [conclusion_tbinop rfl, outerTvs, mem_append, or_assoc, ← ih c hc v, htvs]
      simp only [mem_tvs, uses_tbinop, or_and_right, exists_or]
    | _ =>
      refine forall_mem_singleton.mpr (fun v => ?_)
      exact (or_iff_right not_mem_nil).symm
  | tlet a t u f _ ih =>
    rw [clause, forall_mem_map]
    intro c hc v
    rw [conclusion_tlet, outerTvs, mem_append, or_assoc, ← ih c hc v, htvs, tvs_tlet]
    exact .rfl
  | tif a f1 f2 f3 _ ih2 ih3 =>
    rw [clause, forall_mem_append, forall_mem_map, forall_mem_map]
    refine ⟨fun c hc v => ?_, fun c hc v => ?_⟩
    · rw [conclusion_tbinop rfl, outerTvs, mem_append, or_assoc, ← ih2 c hc v, htvs]
      simp only [mem_tvs, uses_tbinop, or_and_right, exists_or]
    · rw [conclusion_tbinop rfl, outerTvs, mem_append, or_assoc, ← ih3 c hc v, htvs]
      simp only [mem_tvs, uses_tbinop, or_and_right, exists_or]
  | _ =>
    refine forall_mem_singleton.mpr (fun v => ?_)
    exact (or_iff_right not_mem_nil).symm

end Clauses

/-! ## A clause -/

section Clause

variable {ps : LSymbol} {f : Term}

theorem elim_eliminateIfTerm (hwt : f.Wt sig) (hty : f.tTy = none) (hclosed : f.freeVars = []) :
    Elim sig false (freshTag f.freeVars) [] f (eliminateIfTerm f) :=
  (spec hwt).fmla Mvs.renames_nil (by simp [hclosed, Mvs.Ok]) hty

theorem splits_iff {tl : List Term} {ty : Option Ty} (hcl : conclusion f = .tapp a ps tl ty) :
    Splits f ↔ branchFreeList tl = true ∧
      ∀ c ∈ choicesList tl, ∀ v ∈ outerTvs f ++ c.premises, v ∈ c.head := by
  rw [conclusion] at hcl
  rw [Splits, hcl]

/-- The clauses that are left have conclusions that `create_ind_decl` accepts. -/
theorem every_headOk_iff (h : Checked sps ps f) (hwt : f.Wt sig) :
    Every (HeadOk ps) (eliminateIfTerm f) ↔ Splits f := by
  obtain ⟨a, tl, hcl, htys⟩ := h.head_none hwt
  have hok : Mvs.Ok sig (freshTag f.freeVars) [] f.freeVars := by simp [h.closed, Mvs.Ok]
  have heach := every_elimF (p := ∅) hwt Mvs.renames_nil hok hcl htys
  simp only [Set.empty_union] at heach
  rw [eliminateIfTerm, splits_iff hcl]
  refine heach.trans (and_congr_right (fun _ => forall₂_congr (fun c _ => ?_)))
  rw [← tvSet_append]
  exact .rfl

theorem checked_clauses_iff (hequ : psEqu ∉ sps) (h : Checked sps ps f) (hwt : f.Wt sig) :
    (∀ c ∈ clause (eliminateIfTerm f), Checked sps ps c) ↔ Splits f := by
  have helim := elim_eliminateIfTerm hwt h.formula h.closed
  have hparts := parts_of_clause helim.wt (helim.ty.trans h.formula)
  rw [← every_headOk_iff h hwt]
  constructor
  · intro hall c hc
    have hcheck := hall c hc
    obtain ⟨a, tl, hcl, htys⟩ := hcheck.head_none (hparts c hc).wt
    refine ⟨a, tl, hcl, htys, fun v hv => hcheck.bound v ?_⟩
    exact (mem_tTyFreevars_clause c hc v).mpr (.inl hv)
  · intro hall c hc
    obtain ⟨a, tl, hcl, htys, hsub⟩ := hall c hc
    obtain ⟨a₀, tl₀, hcl₀, -⟩ := h.head_none hwt
    have hfree := ((splits_iff hcl₀).mp ((every_headOk_iff h hwt).mp hall)).1
    refine ⟨?_, (hparts c hc).ty, ⟨a, tl, none, hcl, htys⟩, ?_, fun v hv => ?_⟩
    · refine eq_nil_iff_forall_not_mem.mpr (fun v hv => ?_)
      obtain ⟨u, hu, _⟩ := helim.vars v ((hparts c hc).vars v hv)
      rw [h.closed] at hu
      cases hu
    · exact positive_elimF hequ h.isClause hcl₀ hfree Mvs.renames_nil c hc
    · rcases (mem_tTyFreevars_clause c hc v).mp hv with hv | hv
      · exact hsub hv
      · exact hv

end Clause

theorem clause_ne_nil (f : Term) : clause f ≠ [] := by
  induction f with
  | tquant a q vl trl f _ ih =>
    cases q with
    | tforall => simpa [clause] using ih
    | texists => exact cons_ne_nil _ _
  | tbinop a op g f _ ih =>
    cases op with
    | timplies => simpa [clause] using ih
    | _ => exact cons_ne_nil _ _
  | tlet a t v f _ ih => simpa [clause] using ih
  | tif a f1 f2 f3 _ ih2 _ => simp [clause, ih2]
  | _ => exact cons_ne_nil _ _

/-! ## The names of the clauses -/

theorem nameClauses_of_two (k : ℕ) (pr : PrSymbol) (f g : Term) (l : List Term) :
    nameClauses k pr (f :: g :: l) = (f :: g :: l).mapIdx (fun i f => (⟨k + i⟩, f)) := rfl

theorem map_snd_nameClauses (k : ℕ) (pr : PrSymbol) (l : List Term) :
    (nameClauses k pr l).map snd = l := by
  rcases l with _ | ⟨f, _ | ⟨g, l⟩⟩
  · rfl
  · rfl
  · rw [nameClauses_of_two]
    exact ext_getElem (by simp) (fun i h1 h2 => by
      rw [getElem_map, getElem_mapIdx])

/-- The names of some clauses. -/
def prNames (al : List (PrSymbol × Term)) : List ℕ := al.map (fun ax => ax.1.prName)

theorem prNames_nameClauses (k : ℕ) (pr : PrSymbol) (l : List Term) :
    prNames (nameClauses k pr l) = [pr.prName] ∨
      prNames (nameClauses k pr l) = (List.range l.length).map (k + ·) := by
  rcases l with _ | ⟨f, _ | ⟨g, l⟩⟩
  · exact .inr rfl
  · exact .inl rfl
  · rw [nameClauses_of_two, prNames]
    exact .inr (ext_getElem (by simp) (fun i h1 h2 => by
      rw [getElem_map, getElem_mapIdx, getElem_map, getElem_range]))

theorem nodup_prNames_nameClauses (k : ℕ) (pr : PrSymbol) (l : List Term) :
    (prNames (nameClauses k pr l)).Nodup := by
  rcases prNames_nameClauses k pr l with h | h
  · rw [h]
    exact nodup_singleton _
  · rw [h]
    exact nodup_range.map (fun i j hij => Nat.add_left_cancel hij)

theorem mem_prNames_nameClauses {pr : PrSymbol} {l : List Term} {x : ℕ}
    (h : x ∈ prNames (nameClauses k pr l)) : x = pr.prName ∨ (k ≤ x ∧ x < k + l.length) := by
  rcases prNames_nameClauses k pr l with heq | heq
  · rw [heq] at h
    exact .inl (mem_singleton.mp h)
  · rw [heq, mem_map] at h
    obtain ⟨i, hi, rfl⟩ := h
    have hlt := mem_range.mp hi
    exact .inr ⟨by omega, by omega⟩

theorem elimClauses_cons (k : ℕ) (pr : PrSymbol) (f : Term) (al : List (PrSymbol × Term)) :
    elimClauses k ((pr, f) :: al) =
      (nameClauses k pr (clause (eliminateIfTerm f)) ++
        (elimClauses (k + (clause (eliminateIfTerm f)).length) al).1,
      (elimClauses (k + (clause (eliminateIfTerm f)).length) al).2) := rfl

theorem elimInds_cons (k : ℕ) (ps : LSymbol) (al : List (PrSymbol × Term)) (idl : List IndDecl) :
    elimInds k ((ps, al) :: idl) =
      ((ps, (elimClauses k al).1) :: (elimInds (elimClauses k al).2 idl).1,
        (elimInds (elimClauses k al).2 idl).2) := rfl

theorem mem_elimClauses : ∀ {k : ℕ} {c : Term},
    c ∈ (elimClauses k al).1.map snd ↔ ∃ ax ∈ al, c ∈ clause (eliminateIfTerm ax.2) := by
  induction al with
  | nil => simp [elimClauses]
  | cons ax al ih =>
    intro k c
    obtain ⟨pr, f⟩ := ax
    rw [elimClauses_cons, map_append, mem_append, map_snd_nameClauses, ih,
      exists_mem_cons_iff]

theorem le_elimClauses (al : List (PrSymbol × Term)) : ∀ k : ℕ, k ≤ (elimClauses k al).2 := by
  induction al with
  | nil => exact fun _ => le_rfl
  | cons ax al ih => exact fun k => (Nat.le_add_right k _).trans (ih _)

/-- A name of the source declaration or a fresh one. -/
def OldOrFresh (old : List ℕ) (k k' x : ℕ) : Prop := x ∈ old ∨ (k ≤ x ∧ x < k')

theorem mem_prNames_elimClauses : ∀ {k x : ℕ},
    x ∈ prNames (elimClauses k al).1 → OldOrFresh (prNames al) k (elimClauses k al).2 x := by
  induction al with
  | nil => exact fun h => by cases h
  | cons ax al ih =>
    intro k x h
    obtain ⟨pr, f⟩ := ax
    rw [elimClauses_cons, prNames, map_append, mem_append] at h
    have hle := le_elimClauses al (k + (clause (eliminateIfTerm f)).length)
    rw [elimClauses_cons]
    rcases h with h | h
    · rcases mem_prNames_nameClauses h with rfl | h
      · exact .inl mem_cons_self
      · exact .inr ⟨h.1, h.2.trans_le hle⟩
    · refine (ih h).imp (mem_cons_of_mem _) (fun h => ⟨?_, h.2⟩)
      exact (Nat.le_add_right _ _).trans h.1

theorem nodup_prNames_elimClauses : ∀ {k : ℕ}, (prNames al).Nodup →
    (∀ x ∈ prNames al, x < k) → (prNames (elimClauses k al).1).Nodup := by
  induction al with
  | nil => exact fun _ _ => nodup_nil
  | cons ax al ih =>
    intro k hnd hlt
    obtain ⟨pr, f⟩ := ax
    rw [prNames, map_cons, nodup_cons] at hnd
    rw [prNames, map_cons, forall_mem_cons] at hlt
    rw [elimClauses_cons, prNames, map_append, nodup_append']
    refine ⟨nodup_prNames_nameClauses k pr _,
      ih hnd.2 (fun x hx => (hlt.2 x hx).trans_le (Nat.le_add_right _ _)), fun x hx hx' => ?_⟩
    -- a name of the clause is not one of the others
    rcases mem_prNames_nameClauses hx with rfl | hx <;>
      rcases mem_prNames_elimClauses hx' with hx' | hx'
    · exact hnd.1 hx'
    · have hpr : pr.prName < k := hlt.1
      omega
    · have := hlt.2 x hx'
      omega
    · omega

theorem le_elimInds (idl : List IndDecl) : ∀ k : ℕ, k ≤ (elimInds k idl).2 := by
  induction idl with
  | nil => exact fun _ => le_rfl
  | cons id idl ih => exact fun k => (le_elimClauses id.2 k).trans (ih _)

theorem indNames_eq (ps : LSymbol) (al : List (PrSymbol × Term)) :
    indNames (ps, al) = ps.lsName :: prNames al := rfl

theorem mem_indNames_elimClauses {ps : LSymbol} {x : ℕ}
    (h : x ∈ indNames (ps, (elimClauses k al).1)) :
    OldOrFresh (indNames (ps, al)) k (elimClauses k al).2 x := by
  rcases mem_cons.mp h with rfl | h
  · exact .inl mem_cons_self
  · exact (mem_prNames_elimClauses h).imp_left (mem_cons_of_mem _)

theorem mem_indNames_elimInds : ∀ {k x : ℕ},
    x ∈ (elimInds k idl).1.flatMap indNames →
      OldOrFresh (idl.flatMap indNames) k (elimInds k idl).2 x := by
  induction idl with
  | nil => exact fun h => by cases h
  | cons id idl ih =>
    intro k x h
    obtain ⟨ps, al⟩ := id
    rw [elimInds_cons, flatMap_cons, mem_append] at h
    have hle := le_elimInds idl (elimClauses k al).2
    have hle' := le_elimClauses al k
    rw [elimInds_cons]
    rcases h with h | h
    · exact (mem_indNames_elimClauses h).imp (mem_append_left _)
        (fun h => ⟨h.1, h.2.trans_le hle⟩)
    · exact (ih h).imp (mem_append_right _) (fun h => ⟨hle'.trans h.1, h.2⟩)

theorem nodup_indNames_elimInds : ∀ {k : ℕ}, (idl.flatMap indNames).Nodup →
    (∀ x ∈ idl.flatMap indNames, x < k) → ((elimInds k idl).1.flatMap indNames).Nodup := by
  induction idl with
  | nil => exact fun _ _ => nodup_nil
  | cons id idl ih =>
    intro k hnd hlt
    obtain ⟨ps, al⟩ := id
    rw [flatMap_cons, nodup_append'] at hnd
    rw [flatMap_cons, forall_mem_append] at hlt
    rw [elimInds_cons, flatMap_cons, nodup_append']
    obtain ⟨hnd1, hnd2, hdisj⟩ := hnd
    have hle := le_elimClauses al k
    refine ⟨?_, ih hnd2 (fun x hx => (hlt.2 x hx).trans_le hle), fun x hx hx' => ?_⟩
    · rw [indNames_eq, nodup_cons] at hnd1 ⊢
      rw [indNames_eq, forall_mem_cons] at hlt
      refine ⟨fun hmem => ?_, nodup_prNames_elimClauses hnd1.2 hlt.1.2⟩
      rcases mem_prNames_elimClauses hmem with hmem | hmem
      · exact hnd1.1 hmem
      · have := hlt.1.1
        omega
    · rcases mem_indNames_elimClauses hx with hx | hx <;>
        rcases mem_indNames_elimInds hx' with hx' | hx'
      · exact hdisj hx hx'
      · have := hlt.1 x hx
        omega
      · have := hlt.2 x hx'
        omega
      · omega

/-! ## The declaration -/

/-- A predicate and its clauses, before and after. -/
def Split (id id' : IndDecl) : Prop :=
  id'.1 = id.1 ∧ ∀ c, c ∈ id'.2.map snd ↔ ∃ ax ∈ id.2, c ∈ clause (eliminateIfTerm ax.2)

theorem split_elimInds : ∀ {k : ℕ},
    List.Forall₂ Split idl (elimInds k idl).1 := by
  induction idl with
  | nil => exact .nil
  | cons id idl ih =>
    intro k
    obtain ⟨ps, al⟩ := id
    rw [elimInds_cons]
    exact .cons ⟨rfl, fun c => mem_elimClauses⟩ ih

theorem map_fst_elimInds : ∀ {k : ℕ},
    (elimInds k idl).1.map fst = idl.map fst := by
  induction idl with
  | nil => exact fun {k} => rfl
  | cons id idl ih =>
    intro k
    obtain ⟨ps, al⟩ := id
    rw [elimInds_cons, map_cons, map_cons, ih]

section Declaration

variable {s : IndSign} {idl idl' : List IndDecl}

/-- The clauses of `idl'` define the predicates of `idl` as those of `idl` do. -/
structure Redefines (sig : TySymbol → List LSymbol) (s : IndSign) (idl idl' : List IndDecl) :
    Prop where
  preds : idl'.map fst = idl.map fst
  wt : ∀ id ∈ idl', ∀ ax ∈ id.2, ax.2.Wt sig
  clauses : ∀ (I : Interp sig) (ρ : I.Env), I.EpsExt → I.Typed ρ →
    List.Forall₂ (fun id id' : IndDecl =>
      (∀ ax ∈ id'.2, I.Holds ρ ax.2) ↔ ∀ ax ∈ id.2, I.Holds ρ ax.2) idl idl'
  meaning : ∀ (M : PolyInterp sig) (P₀ : M.Preds), M.indPreds P₀ s idl' = M.indPreds P₀ s idl

theorem forall_mem_split {id id' : IndDecl} (h : Split id id') {Q : Term → Prop} :
    (∀ ax ∈ id'.2, Q ax.2) ↔ ∀ ax ∈ id.2, ∀ c ∈ clause (eliminateIfTerm ax.2), Q c := by
  constructor
  · intro hall ax hax c hc
    obtain ⟨ax', hax', rfl⟩ := mem_map.mp ((h.2 c).mpr ⟨ax, hax, hc⟩)
    exact hall ax' hax'
  · intro hall ax' hax'
    obtain ⟨ax, hax, hc⟩ := (h.2 ax'.2).mp (mem_map_of_mem hax')
    exact hall ax hax ax'.2 hc

theorem exists_mem_split {id id' : IndDecl} (h : Split id id') {Q : Term → Prop} :
    (∃ ax ∈ id'.2, Q ax.2) ↔ ∃ ax ∈ id.2, ∃ c ∈ clause (eliminateIfTerm ax.2), Q c := by
  constructor
  · rintro ⟨ax', hax', hQ⟩
    obtain ⟨ax, hax, hc⟩ := (h.2 ax'.2).mp (mem_map_of_mem hax')
    exact ⟨ax, hax, ax'.2, hc, hQ⟩
  · rintro ⟨ax, hax, c, hc, hQ⟩
    obtain ⟨ax', hax', rfl⟩ := mem_map.mp ((h.2 c).mpr ⟨ax, hax, hc⟩)
    exact ⟨ax', hax', hQ⟩

theorem indStep_elimInds (hequ : psEqu ∉ idl.map fst)
    (hchecked : ∀ id ∈ idl, ∀ ax ∈ id.2, Checked (idl.map fst) id.1 ax.2)
    (hwt : ∀ id ∈ idl, ∀ ax ∈ id.2, ax.2.Wt sig) (hsplits : ∀ id ∈ idl, ∀ ax ∈ id.2, Splits ax.2)
    {M : PolyInterp sig} {P₀ : M.Preds} : M.indStep P₀ (elimInds k idl).1 = M.indStep P₀ idl := by
  funext P ps us dl
  -- a predicate and its clauses, on both sides
  have hstep : ∀ {l : List IndDecl}, M.indStep P₀ l P ps us dl ↔ ∃ id ∈ l, ps = id.1 ∧
      ∃ ax ∈ id.2, ∃ τ ρ, (M.inst (M.extend (l.map fst) P₀ P) τ).Typed ρ ∧
        us = M.args τ ps ∧ (M.inst (M.extend (l.map fst) P₀ P) τ).Fires ax.2 ρ dl := by
    intro l
    constructor
    · rintro ⟨al, hal, h⟩
      exact ⟨(ps, al), hal, rfl, h⟩
    · rintro ⟨⟨_, al⟩, hal, rfl, h⟩
      exact ⟨al, hal, h⟩
  have hfires : ∀ id ∈ idl, ∀ ax ∈ id.2, ∀ τ (ρ : VSymbol → M.Val),
      (M.inst (M.extend (idl.map fst) P₀ P) τ).Typed ρ →
      ((∃ c ∈ clause (eliminateIfTerm ax.2),
        (M.inst (M.extend (idl.map fst) P₀ P) τ).Fires c ρ dl) ↔
          (M.inst (M.extend (idl.map fst) P₀ P) τ).Fires ax.2 ρ dl) := by
    intro id hid ax hax τ ρ hρ
    have hc := hchecked id hid ax hax
    obtain ⟨a, tl, hcl, -⟩ := hc.head_none (hwt id hid ax hax)
    have hfree := ((splits_iff hcl).mp (hsplits id hid ax hax)).1
    refine Splitting.firesSome_elimF (mem_map_of_mem hid) hequ (hwt id hid ax hax) hc.isClause
      hcl hfree Mvs.renames_nil ?_ hρ ?_
    · simp [hc.closed, Mvs.Ok]
    · simp [hc.closed, Interp.Agree]
  refine propext (hstep.trans (Iff.trans ?_ hstep.symm))
  rw [map_fst_elimInds]
  constructor
  · rintro ⟨id', hid', rfl, h⟩
    obtain ⟨id, hid, hs⟩ := Paired.exists_of_mem_right split_elimInds hid'
    obtain ⟨ax, hax, c, hc, τ, ρ, hρ, hus, hf⟩ := (exists_mem_split hs (Q := fun c => ∃ τ ρ,
      (M.inst (M.extend (idl.map fst) P₀ P) τ).Typed ρ ∧ us = M.args τ id'.1 ∧
        (M.inst (M.extend (idl.map fst) P₀ P) τ).Fires c ρ dl)).mp h
    exact ⟨id, hid, hs.1, ax, hax, τ, ρ, hρ, hus, (hfires id hid ax hax τ ρ hρ).mp ⟨c, hc, hf⟩⟩
  · rintro ⟨id, hid, rfl, ax, hax, τ, ρ, hρ, hus, hf⟩
    obtain ⟨id', hid', hs⟩ := Paired.exists_of_mem_left (split_elimInds (k := k)) hid
    obtain ⟨c, hc, hf⟩ := (hfires id hid ax hax τ ρ hρ).mpr hf
    refine ⟨id', (of_mem_zip hid').2, hs.1.symm, ?_⟩
    exact (exists_mem_split hs (Q := fun c => ∃ τ ρ,
      (M.inst (M.extend (idl.map fst) P₀ P) τ).Typed ρ ∧ us = M.args τ id.1 ∧
        (M.inst (M.extend (idl.map fst) P₀ P) τ).Fires c ρ dl)).mpr
      ⟨ax, hax, c, hc, τ, ρ, hρ, hus, hf⟩

theorem redefines_elimInds (hequ : psEqu ∉ idl.map fst)
    (hchecked : ∀ id ∈ idl, ∀ ax ∈ id.2, Checked (idl.map fst) id.1 ax.2)
    (hwt : ∀ id ∈ idl, ∀ ax ∈ id.2, ax.2.Wt sig) (hsplits : ∀ id ∈ idl, ∀ ax ∈ id.2, Splits ax.2)
    (k : ℕ) : Redefines sig s idl (elimInds k idl).1 where
  preds := map_fst_elimInds
  wt := by
    intro id' hid'
    obtain ⟨id, hid, hs⟩ := Paired.exists_of_mem_right split_elimInds hid'
    rw [forall_mem_split hs (Q := fun c => c.Wt sig)]
    intro ax hax c hc
    have hcheck := hchecked id hid ax hax
    have helim := elim_eliminateIfTerm (hwt id hid ax hax) hcheck.formula hcheck.closed
    exact (parts_of_clause helim.wt (helim.ty.trans hcheck.formula) c hc).wt
  clauses := by
    intro I ρ heps hρ
    refine forall₂_iff_zip.mpr ⟨(split_elimInds (k := k)).length_eq, fun {id id'} h => ?_⟩
    have hs := Paired.rel_of_mem_zip split_elimInds h
    have hid := (of_mem_zip h).1
    rw [forall_mem_split hs (Q := fun c => I.Holds ρ c)]
    refine forall₂_congr (fun ax hax => ?_)
    have hcheck := hchecked id hid ax hax
    exact holds_elimClause heps (hwt id hid ax hax) hcheck.formula hcheck.closed hρ
  meaning := by
    intro M P₀
    have hstep : M.indStep P₀ (elimInds k idl).1 = M.indStep P₀ idl :=
      indStep_elimInds hequ hchecked hwt hsplits
    cases s with
    | ind | coind => rw [PolyInterp.indPreds, PolyInterp.indPreds, hstep]

/-- `elim_d` returns a declaration of the same predicates exactly where the clauses can be
split. -/
theorem elimDind_redefines_iff {k : ℕ} {d : Decl} (hd : createIndDecl s idl = .ok d)
    (hwt : ∀ id ∈ idl, ∀ ax ∈ id.2, ax.2.Wt sig) (hequ : psEqu ∉ idl.map fst)
    (hk : ∀ x ∈ d.dNews, x < k) :
    (∃ d', elimDind k s idl = .ok d' ∧ ∃ idl', d'.dNode = .dind s idl' ∧
      Redefines sig s idl idl') ↔ ∀ id ∈ idl, ∀ ax ∈ id.2, Splits ax.2 := by
  obtain ⟨hne, hok, hnd, rfl⟩ := createIndDecl_eq_ok.mp hd
  have hlt : ∀ x ∈ idl.flatMap indNames, x < k := fun x hx => hk x (mem_reverse.mpr hx)
  have hclauses : ∀ id ∈ idl, ∀ ax ∈ id.2,
      ((∀ c ∈ clause (eliminateIfTerm ax.2), Checked (idl.map fst) id.1 c) ↔ Splits ax.2) :=
    fun id hid ax hax => checked_clauses_iff hequ ((hok id hid).2.2 ax hax) (hwt id hid ax hax)
  constructor
  · rintro ⟨d', hd', -⟩ id hid ax hax
    obtain ⟨-, hok', -⟩ := createIndDecl_eq_ok.mp hd'
    rw [map_fst_elimInds] at hok'
    obtain ⟨id', hmem, hs⟩ := Paired.exists_of_mem_left (split_elimInds (k := k)) hid
    have hall := (hok' id' (of_mem_zip hmem).2).2.2
    rw [hs.1, forall_mem_split hs (Q := Checked (idl.map fst) id.1)] at hall
    exact (hclauses id hid ax hax).mp (hall ax hax)
  · intro hsplits
    have hchecked := fun id hid => (hok id hid).2.2
    refine ⟨⟨.dind s (elimInds k idl).1, ((elimInds k idl).1.flatMap indNames).reverse⟩, ?_,
      (elimInds k idl).1, rfl, redefines_elimInds hequ hchecked hwt hsplits k⟩
    refine createIndDecl_eq_ok.mpr ⟨?_, fun id' hid' => ?_, nodup_indNames_elimInds hnd hlt, rfl⟩
    · intro hnil
      have hmap : (elimInds k idl).1.map fst = idl.map fst := map_fst_elimInds
      rw [hnil] at hmap
      exact hne (map_eq_nil_iff.mp hmap.symm)
    · obtain ⟨id, hid, hs⟩ := Paired.exists_of_mem_right split_elimInds hid'
      obtain ⟨hal, hval, -⟩ := hok id hid
      rw [hs.1, map_fst_elimInds, forall_mem_split hs (Q := Checked (idl.map fst) id.1)]
      refine ⟨fun hnil => ?_, hval, fun ax hax =>
        (hclauses id hid ax hax).mpr (hsplits id hid ax hax)⟩
      -- a clause leaves a clause
      obtain ⟨ax, hax⟩ := exists_mem_of_ne_nil _ hal
      obtain ⟨c, hc⟩ := exists_mem_of_ne_nil _ (clause_ne_nil (eliminateIfTerm ax.2))
      have hmem := (hs.2 c).mpr ⟨ax, hax, hc⟩
      rw [hnil] at hmem
      cases hmem

end Declaration

section Inputs

def psInt : LSymbol := ⟨100, [tyInt], none, 0, false⟩

def intZero : Term := .tconst [] (.constInt .iLitDec 0) tyInt

def ifZero : Term := .tif [] (.ttrue []) intZero intZero

/-- `inductive p int = c : p (if true then 0 else 0)`. -/
def indIf : List IndDecl := [(psInt, [(⟨101⟩, .tapp [] psInt [ifZero] none)])]

/-- `inductive p int = c : p (match 0 with _ -> if true then 0 else 0 end)`. -/
def indCase : List IndDecl :=
  [(psInt, [(⟨101⟩, .tapp [] psInt [.tcase [] intZero [(.pwild tyInt, ifZero)]] none)])]

theorem takes_psInt : psInt.Takes [some tyInt] none := ⟨[], by decide, by decide⟩

theorem wt_ifZero : ifZero.Wt (fun _ => []) := ⟨rfl, rfl, trivial, trivial, trivial⟩

theorem wt_indIf : ∀ id ∈ indIf, ∀ ax ∈ id.2, ax.2.Wt (fun _ => []) := by
  simp only [indIf, forall_mem_singleton]
  exact ⟨takes_psInt, wt_ifZero, trivial⟩

theorem wt_indCase : ∀ id ∈ indCase, ∀ ax ∈ id.2, ax.2.Wt (fun _ => []) := by
  simp only [indCase, forall_mem_singleton]
  exact ⟨takes_psInt,
    ⟨cons_ne_nil _ _, trivial, rfl, trivial, trivial, rfl, wt_ifZero, trivial⟩, trivial⟩

theorem elimDind_redefines_indIf : ∃ d', elimDind 102 .ind indIf = .ok d' ∧
    ∃ idl', d'.dNode = .dind .ind idl' ∧ Redefines (fun _ => []) .ind indIf idl' :=
  (elimDind_redefines_iff (d := ⟨.dind .ind indIf, [101, 100]⟩) rfl wt_indIf (by decide)
    (by decide)).mpr (by decide)

/-- The case analysis stays around the conclusion, and `create_ind_decl` refuses it. -/
theorem not_elimDind_redefines : ¬ ∀ (sig : TySymbol → List LSymbol) (s : IndSign)
    (idl : List IndDecl) (k : ℕ) (d : Decl), createIndDecl s idl = .ok d →
      (∀ id ∈ idl, ∀ ax ∈ id.2, ax.2.Wt sig) → psEqu ∉ idl.map fst →
      (∀ x ∈ d.dNews, x < k) → ∃ d', elimDind k s idl = .ok d' ∧
        ∃ idl', d'.dNode = .dind s idl' ∧ Redefines sig s idl idl' := by
  intro h
  obtain ⟨d', hd', -⟩ := h (fun _ => []) .ind indCase 102 ⟨.dind .ind indCase, [101, 100]⟩ rfl
    wt_indCase (by decide) (by decide)
  have herror : (elimDind 102 .ind indCase).toOption.isSome = false := by decide
  rw [hd'] at herror
  cases herror

end Inputs

end EliminateIf

end Why3
