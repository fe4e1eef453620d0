import Why3.Transform.EliminateIfNodes

/-!
# Elimination of conditionals is exact

The four functions at every term: what `elim_t` does on a continuation, what it is called on
where there is no conditional, and what `elim_t_eps`, `elim_tr` and `elim_f` put in the place
of their argument.
-/

namespace Why3

open List Term

variable {s : LSymbol} {tl : List Term} {bl : List (Pattern × Term)} {f : Term} {t : Term}

namespace EliminateIf

open Term

variable {sig : TySymbol → List LSymbol}

structure Spec (sig : TySymbol → List LSymbol) (t : Term) : Prop where
  plain : ∀ {n m}, m.Renames → m.Ok sig n t.freeVars → t.tTy ≠ none → hasIf t = false →
    IsPlain sig n m t
  cps : ∀ {n m}, m.Renames → m.Ok sig n t.freeVars → t.tTy ≠ none → Cps sig n m t
  term : ∀ (tr : Bool) {n m}, m.Renames → m.Ok sig n t.freeVars → t.tTy ≠ none →
    Elim sig tr n m t (elimTerm tr n m t)
  fmla : ∀ {n m}, m.Renames → m.Ok sig n t.freeVars → t.tTy = none →
    Elim sig false n m t (elimF n m t)

section Nodes

variable {n : ℕ} {m : Mvs} {a : Sattr}

theorem tTy_of_mem_args {ty : Option Ty} (hwt : (tapp a s tl ty).Wt sig) (ht : t ∈ tl) :
    t.tTy ≠ none := by
  obtain ⟨⟨i, htys, _⟩, _⟩ := hwt
  have hmem : t.tTy ∈ tl.map tTy := mem_map_of_mem ht
  rw [htys] at hmem
  obtain ⟨ty, _, heq⟩ := mem_map.mp hmem
  rw [← heq]
  exact Option.some_ne_none _

theorem tTy_of_scrutinee (hwt : (tcase a t bl).Wt sig) : t.tTy ≠ none := by
  simp only [Wt, wtBranches_iff] at hwt
  obtain ⟨b, hb⟩ := exists_mem_of_ne_nil bl hwt.1
  rw [← (hwt.2.2 b hb).1]
  exact Option.some_ne_none _

theorem tTy_of_branch (hwt : (tcase a t bl).Wt sig) {b : Pattern × Term} (hb : b ∈ bl) :
    b.2.tTy = (tcase a t bl).tTy := by
  simp only [Wt, wtBranches_iff] at hwt
  exact (hwt.2.2 b hb).2.2.2.1

theorem elimTerm_true_tif {t1 t2 : Term} : elimTerm true n m (.tif a f t1 t2) =
      .tif a (elimF n m f) (elimTerm true n m t1) (elimTerm true n m t2) := by
  simp only [elimTerm]

theorem elimTerm_tif_value {t1 t2 : Term} {ty : Ty} (hty : t2.tTy = some ty) :
    elimTerm false n m (.tif a f t1 t2) = tAttrCopy (.tif a f t1 t2) (ifTerm ⟨n, ty⟩
      (elimF (n + 1) m f) (elimTerm false (n + 1) m t1) (elimTerm false (n + 1) m t2)) := by
  simp only [elimTerm, hty]
  rfl

theorem mem_children_branch {b : Pattern × Term} (hb : b ∈ bl) :
    b.2 ∈ (tcase a t bl).children :=
  mem_cons_of_mem _ (mem_map_of_mem hb)

/-- The body of a quantifier and its triggers. -/
theorem elim_tquant_of {q : Quant} {vl : List VSymbol} {trl : List (List Term)}
    (hwt : (tquant a q vl trl f).Wt sig) (hm : m.Renames)
    (hok : m.Ok sig n (tquant a q vl trl f).freeVars)
    (ih : ∀ u ∈ (tquant a q vl trl f).children, Spec sig u) :
    Elim sig false n m (.tquant a q vl trl f)
      (.tquant a q (freshen n vl) (elimTriggers (n + vl.length) (m.bind n vl) trl)
        (elimF (n + vl.length) (m.bind n vl) f)) := by
  rw [elimTriggers_eq]
  refine elim_tquant hok hwt (fun tr htr t ht => ?_) ?_
  · have hmem : t ∈ (tquant a q vl trl f).children :=
      mem_cons_of_mem _ (mem_flatten.mpr ⟨tr, htr, ht⟩)
    have hokt : (m.bind n vl).Ok sig (n + vl.length) t.freeVars := by
      refine hok.bind (fun v hv hne => ?_)
      rw [freeVars, mem_filter, decide_eq_true_eq, mem_append, freeVarsTriggers_eq,
        mem_flatMap]
      exact ⟨.inl ⟨tr, htr, mem_flatMap.mpr ⟨t, ht, hv⟩⟩, hne⟩
    rw [elimOfTrigger]
    split_ifs with hty
    · have h := (ih t hmem).fmla (hm.bind n vl) hokt hty
      exact ⟨h.wt, h.vars⟩
    · have h := (ih t hmem).term true (hm.bind n vl) hokt hty
      exact ⟨h.wt, h.vars⟩
  · exact (ih f mem_cons_self).fmla (hm.bind n vl)
      (hok.bind (fun v hv hne => mem_freeVars_tquant hv hne)) hwt.1

theorem holds_tapp_iff {I : Interp sig} {ρ : I.Env} {ty : Option Ty} : I.Holds ρ (.tapp a s tl ty) ↔
      if s = psEqu then ∃ d, tl.map (I.eval ρ) = [d, d]
      else I.pr s (tl.map tTy) (tl.map (I.eval ρ)) := by
  simp only [Interp.Holds, Interp.sem, Interp.semList_eq, map_map]
  rfl

/-- The arguments of an application of a predicate are put under the continuation that
applies it. -/
theorem elim_tapp_fmla (hm : m.Renames) (hwt : (tapp a s tl none).Wt sig)
    (hok : m.Ok sig n (tapp a s tl none).freeVars) (h : CpsList sig n m tl) :
    Elim sig false n m (.tapp a s tl none) (elimF n m (.tapp a s tl none)) := by
  have hres : Fmla sig (fun v => False ∨ ∃ t ∈ tl, Image m t v)
      (elimF n m (.tapp a s tl none)) := by
    rw [elimF]
    refine h.ok (V := fun _ => False) ?_
    intro k tl' _ hargs
    have harg := (arg_tapp hwt hargs).attrs (Sattr.union a [])
    refine ⟨harg.wt, harg.ty, harg.clean, fun v hv => .inr ?_⟩
    have hv' : v ∈ (tapp [] s tl' none).freeVars := by simpa [tAttrCopy] using hv
    rw [freeVars, freeVarsList_eq, mem_flatMap] at hv'
    exact hv'
  refine ⟨hres.wt, hres.ty, fun v hv => ?_, fun _ => hres.clean, fun I heps => ?_⟩
  · rcases hres.vars v hv with hfalse | ⟨t, ht, w, hw, hv⟩
    · exact hfalse.elim
    · exact ⟨w, mem_freeVars_tapp ht hw, hv⟩
  · have hty : ((tapp a s tl none).subst n m).tTy = none := tTy_subst hok
    refine ⟨hres.wt, hres.ty.trans hty.symm, fun _ hne => absurd hty hne, fun {ρ} hρ _ => ?_⟩
    refine Iff.trans ?_ ((sem_subst_get hwt hok ρ).2 rfl).symm
    rw [elimF]
    refine h.means heps (K := fun ds => if s = psEqu then ∃ d, ds = [d, d]
      else I.pr s (tl.map tTy) ds) hρ (typed_get hm hρ) (fun _ _ _ _ => rfl) ?_ |>.trans ?_
    · intro k tl' _ hargs ρ' _ _
      show I.Holds ρ' ((tapp [] s tl' none).setAttrs _) ↔ _
      rw [Interp.holds_setAttrs, holds_tapp_iff, map_tTy_of_args hargs]
    · exact holds_tapp_iff.symm

end Nodes

/-! ## Every term -/

section Steps

variable {t : Term} (hwt : t.Wt sig) (ih : ∀ u ∈ t.children, Spec sig u)

include hwt ih

theorem spec_plain {n : ℕ} {m : Mvs} (hm : m.Renames) (hok : m.Ok sig n t.freeVars)
    (hty : t.tTy ≠ none) (hif : hasIf t = false) : IsPlain sig n m t := by
  cases t with
  | tvar a v =>
    exact ⟨n, _, (elim_tvar a hok hm).plain hwt hok hty, fun _ => rfl⟩
  | tconst a c ty =>
    exact ⟨n, _, (elim_leaf rfl (fun _ _ h => by cases h) (fun _ _ _ _ h => by cases h) hwt
      rfl).plain hwt hok hty, fun _ => rfl⟩
  | tapp a s tl ty =>
    rw [hasIf, hasIfList_eq_false] at hif
    have harg : ∀ t ∈ tl, ∀ k, n ≤ k → IsPlain sig k m t := fun t ht k hk =>
      (ih t ht).plain hm ((hok.mono (fun v => mem_freeVars_tapp ht)).le hk)
        (tTy_of_mem_args hwt ht) (hif t ht)
    obtain ⟨n', tl', hle, htl, heq⟩ := isPlain_list harg n le_rfl
    refine ⟨n', tAttrCopy (.tapp a s tl ty) (.tapp [] s tl' ty),
      (plain_tapp hle hwt htl).attrs _, fun cont => ?_⟩
    rw [elimT, heq]
  | tif a f t1 t2 => exact absurd hif (by simp [hasIf])
  | tlet a t1 u t2 =>
    rw [hasIf, Bool.or_eq_false_iff] at hif
    obtain ⟨hif1, hif2⟩ := hif
    have hty1 : t1.tTy ≠ none := by
      rw [hwt.1]
      exact Option.some_ne_none _
    obtain ⟨n1, t1', h1, heq1⟩ := (ih t1 (by simp [children])).plain hm
      (hok.mono (fun v hv => mem_append_left _ hv)) hty1 hif1
    obtain ⟨n2, t2', h2, heq2⟩ := (ih t2 (by simp [children])).plain (hm.bind n1 [u])
      ((hok.le h1.le).bind (fun v => mem_freeVars_tlet)) hty hif2
    refine ⟨n2, tAttrCopy (.tlet a t1 u t2) (.tlet [] t1' ⟨n1, u.vsTy⟩ t2'),
      (plain_tlet hok hwt h1 h2).attrs _, fun cont => ?_⟩
    rw [elimT, if_neg (by simp [hif2]), heq1]
    exact heq2 _
  | tcase a t bl =>
    rw [hasIf, Bool.or_eq_false_iff] at hif
    obtain ⟨hif1, hif2⟩ := hif
    obtain ⟨n1, t', h1, heq1⟩ := (ih t mem_cons_self).plain hm
      (hok.mono (fun v hv => by simp [freeVars, hv])) (tTy_of_scrutinee hwt) hif1
    have hbr : ∀ b ∈ bl, ∀ k, n ≤ k →
        IsPlain sig (k + b.1.patVars.length) (m.bind k b.1.patVars) b.2 := by
      intro b hb k hk
      refine (ih b.2 (mem_children_branch hb)).plain (hm.bind k _)
        ((hok.le hk).bind (fun v => mem_freeVars_tcase hb)) ?_
        (hasIfBranches_eq_false.mp hif2 b hb)
      rwa [tTy_of_branch hwt hb]
    obtain ⟨n2, bl', hle, hbl, heq2⟩ := isPlain_branches hbr n1 h1.le
    refine ⟨n2, tAttrCopy (.tcase a t bl) (.tcase [] t' bl'),
      (plain_tcase hok hwt h1 hle hbl).attrs _, fun cont => ?_⟩
    rw [elimT, if_neg (by simp [hif2]), heq1]
    show elimBranchesT n1 m _ bl = _
    rw [heq2]
  | teps a v f =>
    have hf := (ih f mem_cons_self).fmla (hm.bind n [v])
      (hok.bind (fun w => mem_freeVars_teps)) hwt.1
    exact ⟨n, _, ((elim_teps hok hwt hf).attrs _).plain hwt hok hty, fun _ => rfl⟩
  | tquant a q vl trl f | tbinop a op f g | tnot a f | ttrue a | tfalse a => exact absurd rfl hty

theorem spec_cps {n : ℕ} {m : Mvs} (hm : m.Renames) (hok : m.Ok sig n t.freeVars)
    (hty : t.tTy ≠ none) : Cps sig n m t := by
  cases hif : hasIf t with
  | false => exact cps_of_plain (spec_plain hwt ih hm hok hty hif)
  | true =>
    cases t with
    | tapp a s tl ty =>
      have hokl : ∀ t ∈ tl, m.Ok sig n t.freeVars :=
        fun t ht => hok.mono (fun v => mem_freeVars_tapp ht)
      exact cps_tapp hwt (cpsList hokl (fun t ht k hk =>
        (ih t ht).cps hm ((hokl t ht).le hk) (tTy_of_mem_args hwt ht)) n le_rfl)
    | tif a f t1 t2 =>
      have hf := (ih f (by simp [children])).fmla hm
        (hok.mono (fun v hv => by simp [freeVars, hv])) hwt.1
      refine cps_tif hwt hok hf rfl ?_ ?_
      · refine (ih t1 (by simp [children])).cps hm
          (hok.mono (fun v hv => by simp [freeVars, hv])) ?_
        rwa [hwt.2.1]
      · exact (ih t2 (by simp [children])).cps hm
          (hok.mono (fun v hv => by simp [freeVars, hv])) hty
    | tlet a t1 u t2 =>
      have hty1 : t1.tTy ≠ none := by
        rw [hwt.1]
        exact Option.some_ne_none _
      have h1 := (ih t1 (by simp [children])).cps hm
        (hok.mono (fun v hv => mem_append_left _ hv)) hty1
      have hok2 : ∀ k, n ≤ k → (m.bind k [u]).Ok sig (k + 1) t2.freeVars :=
        fun k hk => (hok.le hk).bind (fun v => mem_freeVars_tlet)
      have h2 := ih t2 (by simp [children])
      cases hif2 : hasIf t2 with
      | false =>
        exact cps_tlet_plain hwt hok hif2 h1
          (fun k hk => h2.plain (hm.bind k [u]) (hok2 k hk) hty hif2)
      | true =>
        exact cps_tlet_if hwt hok hif2 h1
          (fun k hk => h2.cps (hm.bind k [u]) (hok2 k hk) hty)
    | tcase a t bl =>
      have h1 := (ih t mem_cons_self).cps hm
        (hok.mono (fun v hv => by simp [freeVars, hv])) (tTy_of_scrutinee hwt)
      have hok2 : ∀ b ∈ bl, ∀ k, n ≤ k →
          (m.bind k b.1.patVars).Ok sig (k + b.1.patVars.length) b.2.freeVars :=
        fun b hb k hk => (hok.le hk).bind (fun v => mem_freeVars_tcase hb)
      have hbty : ∀ b ∈ bl, b.2.tTy ≠ none := by
        intro b hb
        rwa [tTy_of_branch hwt hb]
      have h2 := fun b (hb : b ∈ bl) => ih b.2 (mem_children_branch hb)
      cases hif2 : hasIfBranches bl with
      | false =>
        exact cps_tcase_plain hwt hok hif2 h1 (fun b hb k hk =>
          (h2 b hb).plain (hm.bind k _) (hok2 b hb k hk) (hbty b hb)
            (hasIfBranches_eq_false.mp hif2 b hb))
      | true =>
        exact cps_tcase_if hwt hok hif2 h1 (fun b hb k hk =>
          (h2 b hb).cps (hm.bind k _) (hok2 b hb k hk) (hbty b hb))
    | _ => cases hif

theorem spec_term (tr : Bool) {n : ℕ} {m : Mvs} (hm : m.Renames) (hok : m.Ok sig n t.freeVars)
    (hty : t.tTy ≠ none) : Elim sig tr n m t (elimTerm tr n m t) := by
  cases t with
  | tvar a v => exact elim_tvar a hok hm
  | tconst a c ty => exact elim_leaf rfl nofun nofun hwt rfl
  | tapp a s tl ty =>
    rw [elimTerm, elimTermList_eq]
    exact elim_tapp hok hwt (fun t ht => (ih t ht).term tr hm
      (hok.mono (fun v => mem_freeVars_tapp ht)) (tTy_of_mem_args hwt ht))
  | tif a f t1 t2 =>
    have hokf : m.Ok sig n f.freeVars := hok.mono (fun v hv => by simp [freeVars, hv])
    have hok1 : m.Ok sig n t1.freeVars := hok.mono (fun v hv => by simp [freeVars, hv])
    have hok2 : m.Ok sig n t2.freeVars := hok.mono (fun v hv => by simp [freeVars, hv])
    have hf := ih f (by simp [children])
    have h1 := ih t1 (by simp [children])
    have h2 := ih t2 (by simp [children])
    have hty1 : t1.tTy ≠ none := by rwa [hwt.2.1]
    obtain ⟨ty, hty2⟩ := Option.ne_none_iff_exists'.mp hty
    have hty2' : t2.tTy = some ty := hty2
    cases tr with
    | true =>
      rw [elimTerm_true_tif]
      exact elim_tif hok hwt nofun (hf.fmla hm hokf hwt.1).weaken (h1.term true hm hok1 hty1)
        (h2.term true hm hok2 hty)
    | false =>
      rw [elimTerm_tif_value hty2']
      exact (elim_tif_value hm hok hwt hty2' (hf.fmla hm (hokf.le n.le_succ) hwt.1)
        (h1.term false hm (hok1.le n.le_succ) hty1)
        (h2.term false hm (hok2.le n.le_succ) hty)).attrs _
  | tlet a t v e =>
    have hty1 : t.tTy ≠ none := by
      rw [hwt.1]
      exact Option.some_ne_none _
    exact elim_tlet hok hwt
      ((ih t (by simp [children])).term tr hm
        (hok.mono (fun v hv => mem_append_left _ hv)) hty1)
      ((ih e (by simp [children])).term tr (hm.bind n [v])
        (hok.bind (fun v => mem_freeVars_tlet)) hty)
  | tcase a t bl =>
    rw [elimTerm, elimTermBranches_eq]
    refine elim_tcase hok hwt ?_ (fun b hb => ?_)
    · exact (ih t mem_cons_self).term tr hm (hok.mono (fun v hv => by simp [freeVars, hv]))
        (tTy_of_scrutinee hwt)
    · refine (ih b.2 (mem_children_branch hb)).term tr (hm.bind n _)
        (hok.bind (fun v => mem_freeVars_tcase hb)) ?_
      rwa [tTy_of_branch hwt hb]
  | teps a v f =>
    exact elim_teps hok hwt ((ih f mem_cons_self).fmla (hm.bind n [v])
      (hok.bind (fun w => mem_freeVars_teps)) hwt.1).weaken
  | tquant a q vl trl f | tbinop a op f g | tnot a f | ttrue a | tfalse a => exact absurd rfl hty

theorem spec_fmla {n : ℕ} {m : Mvs} (hm : m.Renames) (hok : m.Ok sig n t.freeVars)
    (hty : t.tTy = none) : Elim sig false n m t (elimF n m t) := by
  cases t with
  | tvar a v => cases hty
  | tconst a c ty => cases hty
  | teps a v f => cases hty
  | tapp a s tl ty =>
    obtain rfl : ty = none := hty
    have hokl : ∀ t ∈ tl, m.Ok sig n t.freeVars :=
      fun t ht => hok.mono (fun v => mem_freeVars_tapp ht)
    exact elim_tapp_fmla hm hwt hok (cpsList hokl (fun t ht k hk =>
      (ih t ht).cps hm ((hokl t ht).le hk) (tTy_of_mem_args hwt ht)) n le_rfl)
  | tif a f t1 t2 =>
    have hty2 : t2.tTy = none := hty
    have hty1 : t1.tTy = none := hwt.2.1.trans hty2
    exact elim_tif hok hwt (fun _ => hty2)
      ((ih f (by simp [children])).fmla hm (hok.mono (fun v hv => by simp [freeVars, hv])) hwt.1)
      ((ih t1 (by simp [children])).fmla hm (hok.mono (fun v hv => by simp [freeVars, hv])) hty1)
      ((ih t2 (by simp [children])).fmla hm (hok.mono (fun v hv => by simp [freeVars, hv])) hty2)
  | tlet a t v e =>
    have hty1 : t.tTy ≠ none := by
      rw [hwt.1]
      exact Option.some_ne_none _
    exact elim_tlet hok hwt
      ((ih t (by simp [children])).term false hm
        (hok.mono (fun v hv => mem_append_left _ hv)) hty1)
      ((ih e (by simp [children])).fmla (hm.bind n [v])
        (hok.bind (fun v => mem_freeVars_tlet)) hty)
  | tcase a t bl =>
    rw [elimF, elimFBranches_eq]
    refine elim_tcase hok hwt ?_ (fun b hb => ?_)
    · exact (ih t mem_cons_self).term false hm
        (hok.mono (fun v hv => by simp [freeVars, hv])) (tTy_of_scrutinee hwt)
    · refine (ih b.2 (mem_children_branch hb)).fmla (hm.bind n _)
        (hok.bind (fun v => mem_freeVars_tcase hb)) ?_
      rwa [tTy_of_branch hwt hb]
  | tquant a q vl trl f => exact elim_tquant_of hwt hm hok ih
  | tbinop a op f g =>
    exact elim_tbinop hok hwt
      ((ih f (by simp [children])).fmla hm
        (hok.mono (fun v hv => mem_append_left _ hv)) hwt.1)
      ((ih g (by simp [children])).fmla hm
        (hok.mono (fun v hv => mem_append_right _ hv)) hwt.2.1)
  | tnot a f => exact elim_tnot hok hwt ((ih f mem_cons_self).fmla hm hok hwt.1)
  | ttrue a | tfalse a => exact elim_leaf rfl nofun nofun hwt rfl

end Steps

theorem spec (hwt : t.Wt sig) : Spec sig t := by
  induction t using induct_children with
  | h t ih =>
    have ih' : ∀ u ∈ t.children, Spec sig u := fun u hu => ih u hu (wt_of_mem_children hwt hu)
    exact ⟨spec_plain hwt ih', spec_cps hwt ih', spec_term hwt ih', spec_fmla hwt ih'⟩

end EliminateIf

end Why3
