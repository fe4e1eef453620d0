import Why3.Core.Inductive
import Why3.Core.TermSimp

/-!
# When an inductive declaration is accepted

The checks of `create_ind_decl`, read as conditions: on each clause, and on the names of the
declaration, which have to be different.
-/

namespace Why3

open Term List

variable {news news' : List ℕ}

/-- The conclusion of a clause. -/
def conclusion (f : Term) : Term := (clause [] f).2

variable {f : Term}

theorem clause_acc : ∀ {acc : List Term},
    clause acc f = ((clause [] f).1 ++ acc, conclusion f) := by
  induction f with
  | tquant a q vl trl f _ ih =>
    intro acc
    cases q with
    | tforall => exact ih
    | texists => rfl
  | tbinop a op g f _ ih =>
    intro acc
    cases op with
    | timplies =>
      rw [clause, conclusion, clause, ih, @ih [g]]
      simp
    | _ => rfl
  | tlet a t v f _ ih =>
    intro acc
    rw [clause, conclusion, clause, ih, @ih [tEqu (.tvar [] v) t]]
    simp
  | _ => exact fun {acc} => rfl

section Conclusion

variable {sig : TySymbol → List LSymbol} {a : Sattr}

theorem conclusion_tbinop {op : Binop} {g : Term} (hop : op = .timplies) :
    conclusion (.tbinop a op g f) = conclusion f := by
  subst hop
  rw [conclusion, clause, clause_acc]

theorem conclusion_tlet {t : Term} {v : VSymbol} :
    conclusion (.tlet a t v f) = conclusion f := by
  rw [conclusion, clause, clause_acc]

theorem premises_tbinop {a : Sattr} {g : Term} : (clause [] (.tbinop a .timplies g f)).1 =
    (clause [] f).1 ++ [g] := by
  rw [clause, clause_acc]

theorem premises_tlet {a : Sattr} {t : Term} {v : VSymbol} :
    (clause [] (.tlet a t v f)).1 = (clause [] f).1 ++ [tEqu (.tvar [] v) t] := by
  rw [clause, clause_acc]

theorem clause_tQuant {vl : List VSymbol} {trl : List (List Term)} :
    clause [] (tQuant .tforall vl trl f) = clause [] f := by
  rw [tQuant]
  split_ifs
  · rfl
  · rw [clause]

theorem tTy_conclusion : f.Wt sig → f.tTy = none → (conclusion f).tTy = none := by
  induction f with
  | tquant a q vl trl f _ ih =>
    intro hwt _
    cases q with
    | tforall => exact ih hwt.2.2 hwt.1
    | texists => rfl
  | tbinop a op g f _ ih =>
    intro hwt _
    cases op with
    | timplies =>
      rw [conclusion_tbinop rfl]
      exact ih hwt.2.2.2 hwt.2.1
    | _ => rfl
  | tlet a t v f _ ih =>
    intro hwt hty
    rw [conclusion_tlet]
    exact ih hwt.2.2 hty
  | _ => exact fun _ hty => hty

end Conclusion

/-! ## Checks -/

variable {sps : List LSymbol}

/-- What `check_ax` asks of a clause for `ps`, the name apart. -/
structure Checked (sps : List LSymbol) (ps : LSymbol) (f : Term) : Prop where
  closed : f.freeVars = []
  formula : f.tTy = none
  head : ∃ a tl ty, conclusion f = .tapp a ps tl ty ∧ tl.map tTy = ps.lsArgs.map some
  positive : ∀ g ∈ conclusion f :: (clause [] f).1, fPosPs sps (some true) g = none
  bound : ∀ v ∈ tTyFreevars f, v ∈ tTyFreevars (conclusion f)

section

variable {sig : TySymbol → List LSymbol} {ps : LSymbol} {f : Term}

theorem Checked.head_none (h : Checked sps ps f) (hwt : f.Wt sig) :
    ∃ a tl, conclusion f = .tapp a ps tl none ∧ tl.map tTy = ps.lsArgs.map some := by
  obtain ⟨a, tl, ty, hcl, htys⟩ := h.head
  have hty := tTy_conclusion hwt h.formula
  rw [hcl] at hty
  obtain rfl : ty = none := hty
  exact ⟨a, tl, hcl, htys⟩

theorem Checked.isClause (h : Checked sps ps f) : IsClause sps ps f := by
  obtain ⟨a, tl, ty, hcl, htys⟩ := h.head
  have hpos := h.positive
  rw [hcl, forall_mem_cons] at hpos
  have heq : clause [] f = ((clause [] f).1, .tapp a ps tl ty) := Prod.ext rfl hcl
  exact (isClause_of_clause heq hpos.2 hpos.1 htys).1

end

theorem checkTl_of_map_tTy {tyl : List Ty} : ∀ {tl : List Term}, tl.map tTy = tyl.map some →
    checkTl tyl tl = .ok () := by
  induction tyl with
  | nil =>
    intro tl h
    rw [map_nil, map_eq_nil_iff] at h
    subst h
    rfl
  | cons ty tyl ih =>
    intro tl h
    cases tl with
    | nil => cases h
    | cons t tl =>
      rw [map_cons, map_cons, List.cons.injEq] at h
      rw [checkTl, h.1]
      simp only [tyEqualCheck, if_true]
      exact ih h.2

theorem checkFvs_eq_ok {f' : Term} :
    checkFvs f = .ok f' ↔ (f.freeVars = [] ∧ f.tTy = none) ∧ f' = f := by
  unfold checkFvs
  split
  · next v l heq => simp [heq]
  · next heq =>
      rw [heq]
      split_ifs with hty
      · simp [Option.isSome_iff_ne_none.mp hty]
      · rw [Except.ok.injEq]
        simp only [Bool.not_eq_true, Option.isSome_eq_false_iff, Option.isNone_iff_eq_none] at hty
        simp [hty, eq_comm]

theorem newsId_iff {id : ℕ} : newsId news id = .ok news' ↔ id ∉ news ∧ news' = id :: news := by
  refine ⟨newsId_eq_ok, ?_⟩
  rintro ⟨hnot, rfl⟩
  rw [newsId, if_neg hnot]

theorem checkAx_eq_ok {ps : LSymbol} {ax : PrSymbol × Term} : checkAx sps ps news ax = .ok news' ↔
      Checked sps ps ax.2 ∧ ax.1.prName ∉ news ∧ news' = ax.1.prName :: news := by
  obtain ⟨pr, f⟩ := ax
  rcases hcl : clause [] f with ⟨cls, g⟩
  have hconc : conclusion f = g := congrArg Prod.snd hcl
  simp only [checkAx, Checks.bind_eq_ok, checkFvs_eq_ok]
  constructor
  · rintro ⟨f', ⟨hf, rfl⟩, h⟩
    rw [hcl] at h
    cases g with
    | tapp a s tl ty =>
      simp only [ne_eq, ite_not] at h
      split_ifs at h with hs
      subst hs
      obtain ⟨_, htl, h⟩ := Checks.bind_eq_ok.mp h
      split at h
      · cases h
      · next hpos =>
          split at h
          · cases h
          · next hbound =>
              refine ⟨⟨hf.1, hf.2, ⟨a, tl, ty, hconc, map_tTy_of_checkTl htl⟩, ?_, ?_⟩,
                newsId_iff.mp h⟩
              · rw [hconc, hcl]
                exact findSome?_eq_none_iff.mp hpos
              · rw [hconc]
                intro v hv
                simpa using find?_eq_none.mp hbound v hv
    | _ => simp at h
  · rintro ⟨⟨hclosed, hty, ⟨a, tl, ty, heq, htys⟩, hpos, hbound⟩, hname⟩
    rw [hconc] at heq hpos hbound
    rw [hcl] at hpos
    subst heq
    refine ⟨f, ⟨⟨hclosed, hty⟩, rfl⟩, ?_⟩
    have hbound' : (tTyFreevars f).find? (· ∉ tTyFreevars (.tapp a ps tl ty)) = none := by
      rw [find?_eq_none]
      intro v hv
      simpa using hbound v hv
    rw [hcl]
    simp only [ne_eq, not_true_eq_false, if_false]
    rw [Checks.bind_eq_ok]
    refine ⟨(), checkTl_of_map_tTy htys, ?_⟩
    rw [findSome?_eq_none_iff.mpr hpos, hbound']
    exact newsId_iff.mpr hname

/-- The names that a predicate and its clauses declare. -/
def indNames (id : LSymbol × List (PrSymbol × Term)) : List ℕ := id.1.lsName :: id.2.map (fun ax => ax.1.prName)

theorem checkIndDecl_eq_ok {id : LSymbol × List (PrSymbol × Term)} :
    checkIndDecl sps news id = .ok news' ↔
      (id.2 ≠ [] ∧ id.1.lsValue = none ∧ ∀ ax ∈ id.2, Checked sps id.1 ax.2) ∧
        (indNames id).Nodup ∧ (∀ x ∈ indNames id, x ∉ news) ∧
        news' = (indNames id).reverse ++ news := by
  have hloop : ∀ b b', id.2.foldlM (checkAx sps id.1) b = .ok b' ↔
      (∀ ax ∈ id.2, Checked sps id.1 ax.2) ∧ (id.2.map (fun ax => ax.1.prName)).Nodup ∧
        (∀ x ∈ id.2.map (fun ax => ax.1.prName), x ∉ b) ∧
        b' = (id.2.map (fun ax => ax.1.prName)).reverse ++ b := by
    intro b b'
    have hstep : ∀ b (ax : PrSymbol × Term) b', checkAx sps id.1 b ax = .ok b' ↔
        Checked sps id.1 ax.2 ∧ [ax.1.prName].Nodup ∧ (∀ x ∈ [ax.1.prName], x ∉ b) ∧
          b' = [ax.1.prName].reverse ++ b := by
      intro b ax b'
      rw [checkAx_eq_ok]
      simp
    rw [map_eq_flatMap]
    exact Checks.foldlM_names (fun ax : PrSymbol × Term => Checked sps id.1 ax.2)
      (fun ax => [ax.1.prName]) hstep
  rw [checkIndDecl, indNames]
  constructor
  · intro h
    split_ifs at h with hne hval
    obtain ⟨b, hb, h⟩ := Checks.bind_eq_ok.mp h
    obtain ⟨hnot, rfl⟩ := newsId_iff.mp hb
    obtain ⟨hax, hnd, hnew, rfl⟩ := (hloop _ _).mp h
    refine ⟨⟨by simpa using hne, by simpa using hval, hax⟩, ?_, ?_, by simp⟩
    · exact nodup_cons.mpr ⟨fun hmem => hnew _ hmem mem_cons_self, hnd⟩
    · exact forall_mem_cons.mpr
        ⟨hnot, fun x hx hmem => hnew x hx (mem_cons_of_mem _ hmem)⟩
  · rintro ⟨⟨hne, hval, hax⟩, hnd, hnew, rfl⟩
    rw [nodup_cons] at hnd
    rw [forall_mem_cons] at hnew
    rw [if_neg (by simpa using hne), if_neg (by simp [hval]), Checks.bind_eq_ok]
    refine ⟨_, newsId_iff.mpr ⟨hnew.1, rfl⟩, (hloop _ _).mpr ⟨hax, hnd.2, ?_, by simp⟩⟩
    intro x hx hmem
    rcases mem_cons.mp hmem with rfl | hmem
    · exact hnd.1 hx
    · exact hnew.2 x hx hmem

theorem createIndDecl_eq_ok {s : IndSign} {idl : List (LSymbol × List (PrSymbol × Term))} {d : Decl} :
    createIndDecl s idl = .ok d ↔ idl ≠ [] ∧
      (∀ id ∈ idl, id.2 ≠ [] ∧ id.1.lsValue = none ∧
        ∀ ax ∈ id.2, Checked (idl.map Prod.fst) id.1 ax.2) ∧
      (idl.flatMap indNames).Nodup ∧ d = ⟨.dind s idl, (idl.flatMap indNames).reverse⟩ := by
  have hloop := @Checks.foldlM_names _ _ _ (checkIndDecl (idl.map Prod.fst)) _ indNames
    (fun b id b' => checkIndDecl_eq_ok) idl []
  rw [createIndDecl]
  constructor
  · intro h
    split_ifs at h with hne
    obtain ⟨b, hb, h⟩ := Checks.bind_eq_ok.mp h
    obtain ⟨hall, hnd, _, rfl⟩ := hloop.mp hb
    cases h
    exact ⟨by simpa using hne, hall, hnd, by rw [append_nil]⟩
  · rintro ⟨hne, hall, hnd, rfl⟩
    rw [if_neg (by simpa using hne), Checks.bind_eq_ok]
    exact ⟨_, hloop.mpr ⟨hall, hnd, by simp, rfl⟩, by rw [append_nil]⟩

end Why3
