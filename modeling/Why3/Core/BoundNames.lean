import Why3.Core.TermRebuild
import Why3.Core.Replace

/-!
# Bound names that are apart from the free ones

The source opens a binder before it works below, so that the variables bound there differ
from all others.  Here the bound variables of a term are renamed once, from a tag on that
is above the free variables; then no replacement by a term with old variables captures.
-/

namespace Why3

open List

variable {t : Term}

namespace Term

theorem mem_freeVars_iff {v : VSymbol} :
    v ∈ t.freeVars ↔ (∃ a, t = .tvar a v) ∨ ∃ c ∈ t.scopes, v ∈ c.2.freeVars ∧ v ∉ c.1 := by
  cases t with
  | tvar a w =>
    simp only [freeVars, scopes, mem_singleton, not_mem_nil, false_and, exists_false,
      or_false, tvar.injEq]
    constructor
    · exact fun h => ⟨a, rfl, h.symm⟩
    · rintro ⟨_, _, h⟩
      exact h.symm
  | tcase a t bl =>
    simp only [freeVars, freeVarsBranches_eq, mem_append, mem_flatMap, mem_filter,
      decide_eq_true_eq, scopes, exists_mem_cons_iff, reduceCtorEq, exists_false, false_or,
      not_mem_nil, not_false_eq_true, and_true, mem_map]
    refine or_congr_right ⟨?_, ?_⟩
    · rintro ⟨b, hb, hv⟩
      exact ⟨_, ⟨b, hb, rfl⟩, hv⟩
    · rintro ⟨c, ⟨b, hb, rfl⟩, hv⟩
      exact ⟨b, hb, hv⟩
  | tquant a q vl trl f =>
    simp only [freeVars, freeVarsTriggers_eq, mem_filter, mem_append, mem_flatMap,
      decide_eq_true_eq, scopes, exists_mem_cons_iff, mem_map, mem_flatten,
      reduceCtorEq, exists_false, false_or]
    constructor
    · rintro ⟨⟨tr, htr, t, ht, hv⟩ | hv, hnot⟩
      · exact .inr ⟨_, ⟨t, ⟨tr, htr, ht⟩, rfl⟩, hv, hnot⟩
      · exact .inl ⟨hv, hnot⟩
    · rintro (⟨hv, hnot⟩ | ⟨c, ⟨t, ⟨tr, htr, ht⟩, rfl⟩, hv, hnot⟩)
      · exact ⟨.inr hv, hnot⟩
      · exact ⟨.inl ⟨tr, htr, t, ht, hv⟩, hnot⟩
  | _ => simp [freeVars, scopes]

theorem scopes_tMap (g : Term → Term) (t : Term) :
    (t.tMap g).scopes = t.scopes.map (fun c => (c.1, g c.2)) := by
  cases t <;> simp [tMap, scopes, Function.comp_def, map_flatten]

theorem mem_children_of_scopes {c : List VSymbol × Term} (h : c ∈ t.scopes) :
    c.2 ∈ t.children := by
  rw [← map_snd_scopes]
  exact mem_map_of_mem h

theorem wt_of_mem_children {sig : TySymbol → List LSymbol} {u : Term} (hwt : t.Wt sig)
    (hu : u ∈ t.children) : u.Wt sig := by
  cases t with
  | tapp a s tl ty =>
    simp only [Wt, wtList_iff] at hwt
    exact hwt.2 u hu
  | tif a f t1 t2 =>
    simp only [children, mem_cons, not_mem_nil, or_false] at hu
    rcases hu with rfl | rfl | rfl
    · exact hwt.2.2.1
    · exact hwt.2.2.2.1
    · exact hwt.2.2.2.2
  | tlet a t v e =>
    simp only [children, mem_cons, not_mem_nil, or_false] at hu
    rcases hu with rfl | rfl
    · exact hwt.2.1
    · exact hwt.2.2
  | tcase a t bl =>
    simp only [Wt, wtBranches_iff] at hwt
    rcases mem_cons.mp hu with rfl | hu
    · exact hwt.2.1
    · obtain ⟨b, hb, rfl⟩ := mem_map.mp hu
      exact (hwt.2.2 b hb).2.2.2.2
  | teps a v f | tnot a f =>
    rw [mem_singleton.mp hu]
    exact hwt.2
  | tquant a q vl trl f =>
    simp only [Wt, wtTriggers_iff] at hwt
    rcases mem_cons.mp hu with rfl | hu
    · exact hwt.2.2
    · obtain ⟨tr, htr, ht⟩ := mem_flatten.mp hu
      exact hwt.2.1 tr htr u ht
  | tbinop a op f g =>
    simp only [children, mem_cons, not_mem_nil, or_false] at hu
    rcases hu with rfl | rfl
    · exact hwt.2.2.1
    · exact hwt.2.2.2
  | tvar a v => cases hu
  | tconst a c ty => cases hu
  | ttrue a => cases hu
  | tfalse a => cases hu

/-- All bound variables have tags from `k` on. -/
inductive BoundFrom : ℕ → Term → Prop
  | mk {k : ℕ} {t : Term} (hv : ∀ c ∈ t.scopes, ∀ v ∈ c.1, k ≤ v.vsName)
      (h : ∀ c ∈ t.scopes, BoundFrom k c.2) : BoundFrom k t

/-- The tags of the bound variables go up from `k` on the way to the leaves. -/
inductive BoundUp : ℕ → Term → Prop
  | mk {k : ℕ} {t : Term}
      (hv : ∀ c ∈ t.scopes, ∀ v ∈ c.1, k ≤ v.vsName ∧ v.vsName < k + c.1.length)
      (h : ∀ c ∈ t.scopes, BoundUp (k + c.1.length) c.2) : BoundUp k t

theorem BoundFrom.mono {k n : ℕ} (h : BoundFrom n t) (hk : k ≤ n) : BoundFrom k t := by
  induction h with
  | mk hv h ih => exact .mk (fun c hc v hvc => hk.trans (hv c hc v hvc)) (fun c hc => ih c hc)

theorem BoundUp.from {k : ℕ} (h : BoundUp k t) : BoundFrom k t := by
  induction h with
  | mk hv h ih =>
    exact .mk (fun c hc v hvc => (hv c hc v hvc).1)
      (fun c hc => (ih c hc).mono (Nat.le_add_right _ _))

theorem BoundFrom.tMap {k : ℕ} {g : Term → Term} (h : BoundFrom k t)
    (hg : ∀ u ∈ t.children, BoundFrom k (g u)) : BoundFrom k (t.tMap g) := by
  obtain ⟨hv, -⟩ := h
  refine .mk ?_ ?_
  · rw [scopes_tMap]
    exact forall_mem_map.mpr hv
  · rw [scopes_tMap]
    exact forall_mem_map.mpr (fun c hc => hg c.2 (mem_children_of_scopes hc))

@[simp] theorem scopes_setAttrs (a : Sattr) (t : Term) : (t.setAttrs a).scopes = t.scopes := by
  cases t <;> rfl

theorem boundFrom_setAttrs {k : ℕ} {a : Sattr} :
    BoundFrom k (t.setAttrs a) ↔ BoundFrom k t := by
  constructor
  · rintro ⟨hv, h⟩
    rw [scopes_setAttrs] at hv h
    exact ⟨hv, h⟩
  · rintro ⟨hv, h⟩
    refine ⟨?_, ?_⟩
    · rwa [scopes_setAttrs]
    · rwa [scopes_setAttrs]

theorem lt_vsName_freshen {vl : List VSymbol} : ∀ {k : ℕ}, ∀ v ∈ freshen k vl,
    k ≤ v.vsName ∧ v.vsName < k + vl.length := by
  induction vl with
  | nil => exact fun v hv => absurd hv not_mem_nil
  | cons u vl ih =>
    intro k v hv
    rw [length_cons]
    rcases mem_cons.mp hv with rfl | hv
    · exact ⟨le_rfl, Nat.lt_add_of_pos_right (Nat.succ_pos _)⟩
    · have := ih v hv
      omega

theorem get_bind_tvar {m : Mvs} (hm : ∀ v, ∃ w, m.get v = .tvar [] w) (k : ℕ) (vl : List VSymbol)
    (v : VSymbol) : ∃ w, (m.bind k vl).get v = .tvar [] w := by
  by_cases hv : v ∈ vl
  · exact ⟨_, (Mvs.get_bind hv).1⟩
  · rw [Mvs.get_bind_of_not_mem hv]
    exact hm v

/-- The bound variables are renamed from the tag on. -/
theorem boundUp_subst : ∀ {k : ℕ} {m : Mvs}, (∀ v, ∃ w, m.get v = .tvar [] w) →
    BoundUp k (t.subst k m) := by
  have hleaf : ∀ {k : ℕ} {t : Term}, t.scopes = [] → BoundUp k t := by
    intro k t h
    refine .mk ?_ ?_ <;> simp [h]
  induction t with
  | tvar a v =>
    intro k m hm
    obtain ⟨a', heq⟩ := Term.subst_tvar k m a v
    obtain ⟨w, hw⟩ := hm v
    refine hleaf ?_
    rw [heq, hw, scopes_setAttrs]
    rfl
  | tapp a s tl ty ih =>
    intro k m hm
    refine .mk ?_ ?_
    · simp [subst, scopes]
    · simp only [subst, substList_eq, scopes, forall_mem_map]
      exact fun t ht => ih t ht hm
  | tif a f t1 t2 ihf ih1 ih2 =>
    intro k m hm
    refine .mk ?_ ?_
    · simp [subst, scopes]
    · simp only [subst, scopes, forall_mem_cons]
      exact ⟨ihf hm, ih1 hm, ih2 hm, fun _ h => absurd h not_mem_nil⟩
  | tlet a t v e iht ihe =>
    intro k m hm
    refine .mk ?_ ?_
    · simp [subst, scopes]
    · simp only [subst, scopes, forall_mem_cons]
      exact ⟨iht hm, ihe (get_bind_tvar hm k [v]), fun _ h => absurd h not_mem_nil⟩
  | tcase a t bl iht ihb =>
    intro k m hm
    have hlen : ∀ p : Pattern, (p.rename (m.bind k p.patVars).var).patVars.length =
        p.patVars.length := by
      intro p
      rw [Pattern.patVars_rename, length_map]
    refine .mk ?_ ?_
    · simp only [subst, substBranches_eq, scopes, forall_mem_cons, forall_mem_map, hlen]
      refine ⟨by simp, fun b hb v hv => ?_⟩
      rw [Pattern.patVars_rename] at hv
      obtain ⟨u, hu, rfl⟩ := mem_map.mp hv
      exact (Mvs.get_bind hu).2
    · simp only [subst, substBranches_eq, scopes, forall_mem_cons, forall_mem_map, hlen]
      exact ⟨iht hm, fun b hb => ihb b hb (get_bind_tvar hm k b.1.patVars)⟩
  | teps a v f ih =>
    intro k m hm
    refine .mk ?_ ?_
    · simp [subst, scopes]
    · simp only [subst, scopes, forall_mem_cons]
      exact ⟨ih (get_bind_tvar hm k [v]), fun _ h => absurd h not_mem_nil⟩
  | tquant a q vl trl f ihtr ih =>
    intro k m hm
    have hbind := get_bind_tvar hm k vl
    refine .mk ?_ ?_
    · simp only [subst, scopes, forall_mem_cons, forall_mem_map, length_freshen]
      exact ⟨lt_vsName_freshen, fun _ _ => lt_vsName_freshen⟩
    · simp only [subst, substTriggers_eq, scopes, forall_mem_cons, forall_mem_map,
        length_freshen, mem_flatten]
      refine ⟨ih hbind, ?_⟩
      rintro u ⟨tr', htr', hu⟩
      obtain ⟨tr, htr, rfl⟩ := mem_map.mp htr'
      obtain ⟨t, ht, rfl⟩ := mem_map.mp hu
      exact ihtr tr htr t ht hbind
  | tbinop a op f g ihf ihg =>
    intro k m hm
    refine .mk ?_ ?_
    · simp [subst, scopes]
    · simp only [subst, scopes, forall_mem_cons]
      exact ⟨ihf hm, ihg hm, fun _ h => absurd h not_mem_nil⟩
  | tnot a f ih =>
    intro k m hm
    refine .mk ?_ ?_
    · simp [subst, scopes]
    · simp only [subst, scopes, forall_mem_cons]
      exact ⟨ih hm, fun _ h => absurd h not_mem_nil⟩
  | _ => exact fun _ => hleaf rfl

/-- A term whose bound variables are renamed, from the tag `k` on. -/
def renameBound (k : ℕ) (t : Term) : Term := t.subst k []

theorem boundUp_renameBound (k : ℕ) (t : Term) : BoundUp k (t.renameBound k) :=
  boundUp_subst (fun v => ⟨v, rfl⟩)

section Renamed

variable {sig : TySymbol → List LSymbol} {I : Interp sig} {k : ℕ} {t : Term}

theorem equiv_renameBound (hk : ∀ v ∈ t.freeVars, v.vsName < k) (hwt : t.Wt sig) :
    I.Equiv t (t.renameBound k) := by
  have hok : Mvs.Ok sig k [] t.freeVars := by
    refine fun v hv => ⟨trivial, rfl, fun w hw => ?_⟩
    rw [mem_singleton.mp hw]
    exact hk v hv
  refine .of_sem (wt_subst hok hwt) (tTy_subst hok) (fun {ρ} _ => ?_)
  have hsem := I.sem_subst hwt hok (ρ := ρ) (fun v _ => rfl)
  exact ⟨fun _ => hsem.1, hsem.2⟩

theorem mem_freeVars_renameBound {v : VSymbol} (h : v ∈ (t.renameBound k).freeVars) :
    v ∈ t.freeVars := by
  obtain ⟨u, hu, hv⟩ := mem_freeVars_subst h
  rwa [mem_singleton.mp hv]

end Renamed

end Term

/-! ## Replacing a term -/

section Replace

open Term

variable {t1 t2 : Term}

theorem tReplace_eq (t : Term) :
    tReplace t1 t2 t = if tEqual t t1 then t2 else t.tMap (tReplace t1 t2) := by
  cases t <;> simp [tReplace, replaceOr, tMap]

theorem freeVars_tReplace : ∀ {v}, v ∈ (tReplace t1 t2 t).freeVars →
    v ∈ t.freeVars ∨ v ∈ t2.freeVars := by
  induction t using Term.induct_children with
  | h t ih =>
    intro v hv
    rw [tReplace_eq] at hv
    split_ifs at hv
    · exact .inr hv
    · rw [mem_freeVars_iff, scopes_tMap] at hv
      rcases hv with ⟨a, hvar⟩ | ⟨c, hc, hv, hnot⟩
      · refine .inl ?_
        cases t <;> simp_all [tMap, freeVars]
      · obtain ⟨d, hd, rfl⟩ := mem_map.mp hc
        rcases ih d.2 (mem_children_of_scopes hd) hv with hv | hv
        · exact .inl (mem_freeVars_iff.mpr (.inr ⟨d, hd, hv, hnot⟩))
        · exact .inr hv

theorem boundFrom_tReplace {k : ℕ} (h : BoundFrom k t) (h2 : BoundFrom k t2) :
    BoundFrom k (tReplace t1 t2 t) := by
  induction t using Term.induct_children with
  | h t ih =>
    rw [tReplace_eq]
    split_ifs
    · exact h2
    · have hbelow : ∀ u ∈ t.children, BoundFrom k u := by
        intro u hu
        rw [← map_snd_scopes] at hu
        obtain ⟨c, hc, rfl⟩ := mem_map.mp hu
        obtain ⟨-, hsub⟩ := h
        exact hsub c hc
      exact h.tMap (fun u hu => ih u hu (hbelow u hu))

variable {sig : TySymbol → List LSymbol} {I : Interp sig}

/-- A term may be replaced where it has the value of the other one. -/
theorem equivWhen_tReplace (hlit : I.LitExt) (heps : I.EpsExt) {k : ℕ} {ty : Ty}
    (w1 : t1.Wt sig) (w2 : t2.Wt sig) (h1 : t1.tTy = some ty) (h2 : t2.tTy = some ty)
    (hk1 : ∀ v ∈ t1.freeVars, v.vsName < k) (hk2 : ∀ v ∈ t2.freeVars, v.vsName < k) :
    BoundFrom k t → t.Wt sig →
      I.EquivWhen (fun ρ => I.eval ρ t1 = I.eval ρ t2) t (tReplace t1 t2 t) := by
  induction t using Term.induct_children with
  | h t ih =>
    rintro ⟨hv, hsub⟩ hwt
    rw [tReplace_eq]
    split_ifs with heq
    · have hty : t.tTy = some ty := (tTy_of_tEqual heq).trans h1
      refine ⟨w2, h2.trans hty.symm, fun {ρ} _ hval _ => ?_, fun _ _ hnone => ?_⟩
      · rw [← hval]
        exact congrArg Den.val (I.sem_tEqual hlit hwt w1 heq ρ).symm
      · rw [hty] at hnone
        cases hnone
    · rw [← tMapUnder_const]
      refine Interp.equivWhen_tMapUnder heps (fun c hc hwc => ?_) hwt
      refine (ih c.2 (mem_children_of_scopes hc) (hsub c hc) hwc).mono ?_
      -- the variables bound here are not those of the two terms
      rintro ρ' - ⟨ρ, _, hval, hag⟩
      have hout : ∀ {u : Term}, u.Wt sig → (∀ v ∈ u.freeVars, v.vsName < k) →
          I.eval ρ' u = I.eval ρ u := by
        intro u hwu hku
        refine Interp.eval_congr hwu (fun v hvu => hag v (fun hmem => ?_))
        exact absurd (hku v hvu) (not_lt.mpr (hv c hc v hmem))
      rw [hout w1 hk1, hout w2 hk2]
      exact hval

end Replace

end Why3
