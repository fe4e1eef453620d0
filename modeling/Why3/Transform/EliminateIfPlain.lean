import Why3.Lib.Paired
import Why3.Transform.EliminateIfOut

/-!
# Terms without conditionals under the continuations

The continuation of a term that has no conditional outside of its formulas is called on one
term, whatever the continuation; a conditional that stands in a value is replaced by a
choice.
-/

namespace Why3

open List Function Term Interp Pattern

variable {u v : VSymbol} {tl : List Term} {p : Pattern} {t1 : Term} {t2 : Term}

namespace EliminateIf

open Term

variable {sig : TySymbol → List LSymbol}

/-! ## A conditional as a choice -/

theorem mem_freeVars_tEqu :
    v ∈ (tEqu t1 t2).freeVars ↔ v ∈ t1.freeVars ∨ v ∈ t2.freeVars := by
  simp [tEqu, freeVars]

theorem noTermIf_tEqu (h1 : t1.NoTermIf) (h2 : t2.NoTermIf) :
    (tEqu t1 t2).NoTermIf := by
  refine .of_parts (fun _ _ _ _ heq => by cases heq) ?_
  simp only [tEqu, Term.parts, children, forall_mem_cons]
  exact ⟨h1, h2, fun _ h => absurd h not_mem_nil⟩

theorem noTermIf_tvar (a : Sattr) (v : VSymbol) : (tvar a v).NoTermIf :=
  .of_parts (fun _ _ _ _ heq => by cases heq) (fun u hu => by cases hu)

/-- The variable of the choice is equal to the one or to the other value. -/
def ifTerm (z : VSymbol) (f t1 t2 : Term) : Term :=
  .teps [] z (.tif [] f (tEqu (.tvar [] z) t1) (tEqu (.tvar [] z) t2))

section Choice

variable {tr : Bool} {n : ℕ} {m : Mvs} {a : Sattr} {f t1 t2 f' t1' t2' : Term} {ty : Ty}

theorem elim_tif_value (hm : m.Renames) (hok : m.Ok sig n (tif a f t1 t2).freeVars)
    (hwt : (tif a f t1 t2).Wt sig) (hty : t2.tTy = some ty)
    (hf : Elim sig false (n + 1) m f f') (h1 : Elim sig tr (n + 1) m t1 t1')
    (h2 : Elim sig tr (n + 1) m t2 t2') :
    Elim sig tr n m (.tif a f t1 t2) (ifTerm ⟨n, ty⟩ f' t1' t2') := by
  obtain ⟨hfty, h12, hfwt, h1wt, h2wt⟩ := hwt
  have hokf : m.Ok sig n f.freeVars := hok.mono (fun v hv => by simp [freeVars, hv])
  have hok1 : m.Ok sig n t1.freeVars := hok.mono (fun v hv => by simp [freeVars, hv])
  have hok2 : m.Ok sig n t2.freeVars := hok.mono (fun v hv => by simp [freeVars, hv])
  have hty1 : t1'.tTy = some ty := by rw [h1.ty, h12, hty]
  have hty2 : t2'.tTy = some ty := by rw [h2.ty, hty]
  have hwt' : (ifTerm ⟨n, ty⟩ f' t1' t2').Wt sig :=
    ⟨rfl, hf.ty.trans hfty, rfl, hf.wt, wt_tEqu rfl hty1 trivial h1.wt,
      wt_tEqu rfl hty2 trivial h2.wt⟩
  refine ⟨hwt', hty.symm, ?_, fun htr => ?_, fun I heps => ?_⟩
  · intro v hv
    rw [ifTerm, freeVars, mem_filter, decide_eq_true_eq, freeVars, mem_append,
      mem_append, mem_freeVars_tEqu, mem_freeVars_tEqu, freeVars, mem_singleton] at hv
    obtain ⟨(hv | hv | hv) | hv | hv, hne⟩ := hv
    · obtain ⟨u, hu, hv⟩ := hf.vars v hv
      exact ⟨u, by simp [freeVars, hu], hv⟩
    · exact absurd hv hne
    · obtain ⟨u, hu, hv⟩ := h1.vars v hv
      exact ⟨u, by simp [freeVars, hu], hv⟩
    · exact absurd hv hne
    · obtain ⟨u, hu, hv⟩ := h2.vars v hv
      exact ⟨u, by simp [freeVars, hu], hv⟩
  · refine .of_parts (fun _ _ _ _ heq => by cases heq) ?_
    simp only [ifTerm, Term.parts, children, forall_mem_cons]
    refine ⟨noTermIf_tif rfl (hf.clean rfl) ?_ ?_, fun _ h => absurd h not_mem_nil⟩
    · exact noTermIf_tEqu (noTermIf_tvar _ _) (h1.clean htr)
    · exact noTermIf_tEqu (noTermIf_tvar _ _) (h2.clean htr)
  · have hsty : ((tif a f t1 t2).subst n m).tTy = some ty := (tTy_subst hok).trans hty
    refine ⟨hwt', hsty.symm, fun {ρ} hρ _ => ?_, fun _ hnone => by rw [hsty] at hnone; cases hnone⟩
    have hwtif : (tif a f t1 t2).Wt sig := ⟨hfty, h12, hfwt, h1wt, h2wt⟩
    have hval : I.eval ρ ((tif a f t1 t2).subst n m) =
        I.eval (fun v => I.eval ρ (m.get v)) (.tif a f t1 t2) := (sem_subst_get hwtif hok ρ).1
    have hmem : I.mem ty (I.eval (fun v => I.eval ρ (m.get v)) (.tif a f t1 t2)) :=
      eval_mem hwtif hty (typed_get hm hρ)
    rw [hval, ifTerm, eval_teps]
    generalize hx : I.eval (fun v => I.eval ρ (m.get v)) (.tif a f t1 t2) = x at hmem ⊢
    -- the choice is among the values that are equal to the one of the conditional
    refine (heps ty _ (· = x) (fun d hd => ?_)).trans (I.eps_spec (P := (· = x)) ⟨x, hmem, rfl⟩)
    have hρ' : I.Typed (update ρ ⟨n, ty⟩ d) := Interp.typed_update hρ hd
    have hag : ∀ {F : List VSymbol}, m.Ok sig n F →
        Interp.Agree m F (update ρ ⟨n, ty⟩ d) (fun v => I.eval ρ (m.get v)) :=
      fun hok => agree_of_below (fun _ _ => rfl) hok (Below.update n ρ ty d)
    have hcond := hf.holds heps hfwt (hokf.le n.le_succ) hfty hρ' (hag hokf)
    have hv1 := h1.eval heps h1wt (hok1.le n.le_succ) (by simp [h12, hty]) hρ' (hag hok1)
    have hv2 := h2.eval heps h2wt (hok2.le n.le_succ) (by simp [hty]) hρ' (hag hok2)
    have hself : I.eval (update ρ ⟨n, ty⟩ d) (.tvar [] ⟨n, ty⟩) = d :=
      update_self ..
    rw [holds_tif, hcond]
    simp only [tEqu, holds_equ, hself, hv1, hv2]
    rw [← hx]
    by_cases hc : I.Holds (fun v => I.eval ρ (m.get v)) f
    · have hif : I.eval (fun v => I.eval ρ (m.get v)) (.tif a f t1 t2) =
          I.eval (fun v => I.eval ρ (m.get v)) t1 := congrArg Den.val (if_pos hc)
      simp [hc, hif]
    · have hif : I.eval (fun v => I.eval ρ (m.get v)) (.tif a f t1 t2) =
          I.eval (fun v => I.eval ρ (m.get v)) t2 := congrArg Den.val (if_neg hc)
      simp [hc, hif]

end Choice

/-! ## Arguments of continuations -/

section Args

variable {n n' : ℕ} {m : Mvs} {a : Sattr}

theorem Arg.attrs {o : Option Ty} {t : Term} (h : Arg sig n o t) (a : Sattr) :
    Arg sig n o (t.setAttrs a) where
  wt := (wt_setAttrs a t).mpr h.wt
  ty := (tTy_setAttrs a t).trans h.ty
  clean := noTermIf_setAttrs h.clean
  lt := by
    rw [freeVars_setAttrs]
    exact h.lt

theorem map_tTy_of_args {os : List (Option Ty)} (h : List.Forall₂ (Arg sig n) os tl) :
    tl.map tTy = os := by
  rw [← forall₂_eq_eq_eq, forall₂_map_left_iff]
  exact h.flip.imp (fun _ _ h => h.ty)

theorem forall_of_args {os : List (Option Ty)} (h : List.Forall₂ (Arg sig n) os tl) :
    ∀ t ∈ tl, ∃ o, Arg sig n o t := by
  induction h with
  | nil => exact fun t ht => absurd ht not_mem_nil
  | cons h _ ih => exact forall_mem_cons.mpr ⟨⟨_, h⟩, ih⟩

theorem arg_tapp {s : LSymbol} {tl' : List Term} {ty : Option Ty} (hwt : (tapp a s tl ty).Wt sig)
    (h : List.Forall₂ (Arg sig n) (tl.map tTy) tl') : Arg sig n ty (.tapp [] s tl' ty) := by
  have hall := forall_of_args h
  refine ⟨?_, rfl, .of_parts (fun _ _ _ _ heq => by cases heq) (fun t ht => ?_), fun v hv => ?_⟩
  · simp only [Wt, wtList_iff] at hwt ⊢
    rw [map_tTy_of_args h]
    exact ⟨hwt.1, fun t ht => (hall t ht).elim (fun _ h => h.wt)⟩
  · exact (hall t ht).elim (fun _ h => h.clean)
  · rw [freeVars, freeVarsList_eq, mem_flatMap] at hv
    obtain ⟨t, ht, hv⟩ := hv
    exact (hall t ht).elim (fun _ h => h.lt v hv)

theorem arg_tlet {o : Option Ty} (h1 : Arg sig n (some u.vsTy) t1)
    (h2 : Arg sig n' o t2) (hn : n ≤ n') : Arg sig n' o (.tlet [] t1 ⟨n, u.vsTy⟩ t2) := by
  refine ⟨⟨h1.ty, h1.wt, h2.wt⟩, h2.ty, .of_parts (fun _ _ _ _ heq => by cases heq) ?_,
    fun v hv => ?_⟩
  · simp only [Term.parts, children, forall_mem_cons]
    exact ⟨h1.clean, h2.clean, fun _ h => absurd h not_mem_nil⟩
  · rw [freeVars, mem_append, mem_filter] at hv
    rcases hv with hv | hv
    · exact (h1.lt v hv).trans_le hn
    · exact h2.lt v hv.1

end Args

/-! ## Terms that a continuation is called on -/

/-- The term `t'` with tags up to `n'` has the value of `t`. -/
structure Plain (sig : TySymbol → List LSymbol) (n : ℕ) (m : Mvs) (t : Term) (n' : ℕ)
    (t' : Term) : Prop where
  le : n ≤ n'
  arg : Arg sig n' t.tTy t'
  vars : From m t t'
  eval : ∀ I : Interp sig, I.EpsExt → ∀ {ρ ρ₀ : I.Env}, I.Typed ρ → I.Typed ρ₀ →
    Interp.Agree m t.freeVars ρ ρ₀ → I.eval ρ t' = I.eval ρ₀ t

section Plain

variable {n n' : ℕ} {m : Mvs} {a : Sattr} {t t' : Term}

theorem Elim.plain (h : Elim sig false n m t t') (hwt : t.Wt sig) (hok : m.Ok sig n t.freeVars)
    (hty : t.tTy ≠ none) : Plain sig n m t n t' where
  le := le_rfl
  arg := ⟨h.wt, h.ty, h.clean rfl, h.vars.lt hok⟩
  vars := h.vars
  eval _ heps _ _ hρ _ hag := h.eval heps hwt hok hty hρ hag

theorem Plain.attrs (h : Plain sig n m t n' t') (a : Sattr) :
    Plain sig n m t n' (t'.setAttrs a) where
  le := h.le
  arg := h.arg.attrs a
  vars := from_setAttrs.mpr h.vars
  eval I heps ρ ρ₀ hρ hρ₀ hag := by
    rw [eval_setAttrs]
    exact h.eval I heps hρ hρ₀ hag

theorem Plain.up {k k' : ℕ} (h : Plain sig n m t n' t') (hk : k ≤ n) (hk' : n' ≤ k') :
    Plain sig k m t k' t' :=
  { h with
    le := hk.trans (h.le.trans hk')
    arg := h.arg.le hk' }

theorem plain_tapp {s : LSymbol} {tl' : List Term} {ty : Option Ty} (hn : n ≤ n')
    (hwt : (tapp a s tl ty).Wt sig) (h : List.Forall₂ (fun t t' => Plain sig n m t n' t') tl tl') :
    Plain sig n m (.tapp a s tl ty) n' (.tapp [] s tl' ty) := by
  have hargs : List.Forall₂ (Arg sig n') (tl.map tTy) tl' := by
    rw [forall₂_map_left_iff]
    exact h.imp (fun _ _ h => h.arg)
  refine ⟨hn, arg_tapp hwt hargs, fun v hv => ?_, fun I heps ρ ρ₀ hρ hρ₀ hag => ?_⟩
  · rw [freeVars, freeVarsList_eq, mem_flatMap] at hv
    obtain ⟨t', ht', hv⟩ := hv
    clear hwt hargs
    induction h with
    | nil => cases ht'
    | @cons t u tl tl' h _ ih =>
      rcases mem_cons.mp ht' with rfl | ht'
      · obtain ⟨w, hw, hv⟩ := h.vars v hv
        exact ⟨w, mem_freeVars_tapp mem_cons_self hw, hv⟩
      · obtain ⟨w, hw, hv⟩ := ih ht'
        rw [freeVars, freeVarsList_eq] at hw
        refine ⟨w, ?_, hv⟩
        rw [freeVars, freeVarsList_eq, flatMap_cons]
        exact mem_append_right _ hw
  · have hvals : tl.map (I.eval ρ₀) = tl'.map (I.eval ρ) := by
      rw [← forall₂_eq_eq_eq, forall₂_map_left_iff, forall₂_map_right_iff]
      have hmem : ∀ t ∈ tl, Interp.Agree m t.freeVars ρ ρ₀ :=
        fun t ht v hv => hag v (mem_freeVars_tapp ht hv)
      exact ((forall₂_and_left tl tl').mpr ⟨hmem, h⟩).imp
        (fun _ _ h => (h.2.eval I heps hρ hρ₀ h.1).symm)
    rw [eval_tapp, eval_tapp, hvals, map_tTy_of_args hargs]

/-- A binding of a variable to an argument, over a term with the variable. -/
theorem eval_tlet_plain {t1' t2' : Term} {k : ℕ} {I : Interp sig} (heps : I.EpsExt)
    (hok : m.Ok sig n (tlet a t1 u t2).freeVars) (harg : Arg sig n (some u.vsTy) t1')
    (h2 : Plain sig k (m.bind n [u]) t2 n' t2') {ρ ρ₀ : I.Env} (hρ : I.Typed ρ) (hρ₀ : I.Typed ρ₀)
    (heq : I.eval ρ t1' = I.eval ρ₀ t1) (hag : Interp.Agree m (tlet a t1 u t2).freeVars ρ ρ₀) :
    I.eval ρ (.tlet [] t1' ⟨n, u.vsTy⟩ t2') = I.eval ρ₀ (.tlet a t1 u t2) := by
  have hd : I.mem u.vsTy (I.eval ρ t1') := eval_mem harg.wt harg.ty hρ
  have hbind := hag.bind_one hok (fun w => mem_freeVars_tlet (e := t2) (w := u)) (I.eval ρ t1')
  have hbody := h2.eval I heps (Interp.typed_update hρ (v := ⟨n, u.vsTy⟩) hd)
    (Interp.typed_update hρ₀ hd) hbind
  show I.eval (update ρ ⟨n, u.vsTy⟩ (I.eval ρ t1')) t2' =
    I.eval (update ρ₀ u (I.eval ρ₀ t1)) t2
  rw [hbody, heq]

theorem image_tlet_body (h : Image (m.bind n [u]) t2 v) (hne : v ≠ ⟨n, u.vsTy⟩) :
    Image m (.tlet a t1 u t2) v := by
  obtain ⟨w, hw, hv⟩ := h
  obtain ⟨hwu, hv⟩ := Mvs.mem_get_bind_of_freshen hv (fun h => hne (mem_singleton.mp h))
  exact ⟨w, mem_freeVars_tlet hw hwu, hv⟩

theorem plain_tlet {t1' t2' : Term} {n1 : ℕ} (hok : m.Ok sig n (tlet a t1 u t2).freeVars)
    (hwt : (tlet a t1 u t2).Wt sig) (h1 : Plain sig n m t1 n1 t1')
    (h2 : Plain sig (n1 + 1) (m.bind n1 [u]) t2 n' t2') :
    Plain sig n m (.tlet a t1 u t2) n' (.tlet [] t1' ⟨n1, u.vsTy⟩ t2') := by
  have hle := h1.le
  have hle' := h2.le
  have harg : Arg sig n1 (some u.vsTy) t1' := hwt.1 ▸ h1.arg
  refine ⟨by omega, arg_tlet harg h2.arg (by omega), fun v hv => ?_,
    fun I heps ρ ρ₀ hρ hρ₀ hag => ?_⟩
  · rw [freeVars, mem_append, mem_filter, decide_eq_true_eq] at hv
    rcases hv with hv | ⟨hv, hne⟩
    · obtain ⟨w, hw, hv⟩ := h1.vars v hv
      exact ⟨w, mem_append_left _ hw, hv⟩
    · exact image_tlet_body (h2.vars v hv) hne
  · have heq := h1.eval I heps hρ hρ₀ (fun v hv => hag v (mem_append_left _ hv))
    exact eval_tlet_plain heps (hok.le hle) harg h2 hρ hρ₀ heq hag

end Plain

/-! ## Branches -/

section Branch

variable {n k : ℕ} {m : Mvs} {I : Interp sig}

theorem patTy_patternAt (k : ℕ) (m : Mvs) (p : Pattern) : (patternAt k m p).patTy = p.patTy :=
  patTy_rename (fun _ hv => Mvs.vsTy_var_bind hv)

theorem patVars_patternAt (k : ℕ) (m : Mvs) (p : Pattern) :
    (patternAt k m p).patVars = p.patVars.map (m.bind k p.patVars).var := patVars_rename p

theorem ok_patternAt (h : p.Ok sig) : (patternAt k m p).Ok sig :=
  ok_rename h (fun _ hv => Mvs.vsTy_var_bind hv)

theorem linear_patternAt (h : p.Linear) : (patternAt k m p).Linear :=
  linear_rename h Mvs.var_injOn

/-- Two branches on the same value, the variables of the second one renamed: the valuations
below them agree. -/
theorem branch_corr {S : Den I.Val → Den I.Val → Prop} {F G : List VSymbol}
    {r q : I.Env → Den I.Val} {d : I.Val} {ρ ρ₀ : I.Env} (hok : m.Ok sig k F) (hp : p.Ok sig)
    (hF : ∀ w ∈ G, w ∉ p.patVars → w ∈ F) (hag : Interp.Agree m F ρ ρ₀) (hρ : I.Typed ρ)
    (hρ₀ : I.Typed ρ₀) (hd : I.mem p.patTy d)
    (h : ∀ {σ σ₀ : I.Env}, I.Typed σ → I.Typed σ₀ → Below k ρ σ →
      Interp.Agree (m.bind k p.patVars) G σ σ₀ → S (q σ) (r σ₀)) :
    (matchPat I.dest (patternAt k m p) d = none ↔ matchPat I.dest p d = none) ∧
    (∀ bs bs', matchPat I.dest (patternAt k m p) d = some bs →
      matchPat I.dest p d = some bs' → S (q (bindAll ρ bs)) (r (bindAll ρ₀ bs'))) ∧
    S (q (bindAll ρ (I.dfltVars (patternAt k m p)))) (r (bindAll ρ₀ (I.dfltVars p))) := by
  have hbody : ∀ bs : List (VSymbol × I.Val), (∀ v, v ∈ bs.map Prod.fst ↔ v ∈ p.patVars) →
      (∀ b ∈ bs, I.mem b.1.vsTy b.2) →
      S (q (bindAll ρ (bs.map (fun x => ((m.bind k p.patVars).var x.1, x.2)))))
        (r (bindAll ρ₀ bs)) := by
    intro bs hbs hmem
    have hvar : ∀ b ∈ bs, b.1 ∈ p.patVars := fun b hb => (hbs b.1).mp (mem_map_of_mem hb)
    refine h (typed_bindAll hρ ?_) (typed_bindAll hρ₀ hmem) ?_
      (hag.bind_pat hok hF hbs)
    · refine forall_mem_map.mpr (fun b hb => ?_)
      rw [Mvs.vsTy_var_bind (hvar b hb)]
      exact hmem b hb
    · intro w hw
      refine (bindAll_of_not_mem ?_).symm
      rw [map_map]
      intro hwb
      obtain ⟨b, hb, rfl⟩ := mem_map.mp hwb
      exact absurd hw (not_lt.mpr (Mvs.get_bind (m := m) (hvar b hb) (k := k)).2.1)
  refine ⟨?_, ?_, ?_⟩
  · rw [patternAt, matchPat_rename]
    exact Option.map_eq_none_iff
  · intro bs bs' hm hm'
    rw [patternAt, matchPat_rename, hm', Option.map_some, Option.some.injEq] at hm
    subst hm
    exact hbody bs' (matchPat_keys I.dest hp hm') (matchPat_mem hp hd hm')
  · rw [patternAt, dfltVars_rename (fun v hv => Mvs.vsTy_var_bind hv)]
    refine hbody _ (fun v => ?_) (fun b hb => ?_)
    · simp [dfltVars]
    · obtain ⟨v, _, rfl⟩ := mem_map.mp hb
      exact dflt_mem v.vsTy

theorem branches_default {R : Type} {bl : List (Pattern × (I.Env → R))} (h : bl ≠ []) (x y : R)
    (d : I.Val) (ρ : I.Env) : I.branches bl x d ρ = I.branches bl y d ρ := by
  induction bl with
  | nil => exact absurd rfl h
  | cons b bl ih =>
    rw [branches_cons, branches_cons]
    cases matchPat I.dest b.1 d with
    | some bs => rfl
    | none =>
      show (if bl = [] then _ else _) = (if bl = [] then _ else _)
      split_ifs with hbl
      · rfl
      · exact ih hbl

/-- A branch that is rebuilt without conditionals, at some tag. -/
def PlainBranch (sig : TySymbol → List LSymbol) (n : ℕ) (m : Mvs) (n' : ℕ)
    (b b' : Pattern × Term) : Prop :=
  ∃ k, n ≤ k ∧ b'.1 = patternAt k m b.1 ∧
    Plain sig (k + b.1.patVars.length) (m.bind k b.1.patVars) b.2 n' b'.2

variable {n' : ℕ} {a : Sattr} {t t' : Term} {bl bl' : List (Pattern × Term)}

theorem image_tcase_branch {b : Pattern × Term} (hb : b ∈ bl)
    (h : Image (m.bind k b.1.patVars) b.2 v) (hne : v ∉ (patternAt k m b.1).patVars) :
    Image m (.tcase a t bl) v := by
  rw [patVars_patternAt] at hne
  obtain ⟨w, hw, hv⟩ := h
  obtain ⟨hwb, hv⟩ := Mvs.mem_get_bind hv hne
  exact ⟨w, mem_freeVars_tcase hb hw hwb, hv⟩

theorem tTy_of_plainBranches (a : Sattr) (t t' : Term)
    (h : List.Forall₂ (PlainBranch sig n m n') bl bl') :
    (tcase [] t' bl').tTy = (tcase a t bl).tTy := by
  cases h with
  | nil => rfl
  | cons h _ =>
    obtain ⟨k, _, _, hbody⟩ := h
    exact hbody.arg.ty

theorem PlainBranch.up {b b' : Pattern × Term} {k' : ℕ} (h : PlainBranch sig n m n' b b')
    (hk : n' ≤ k') : PlainBranch sig n m k' b b' := by
  obtain ⟨k, hle, hpat, hbody⟩ := h
  exact ⟨k, hle, hpat, hbody.up le_rfl hk⟩

theorem arg_tcase (hwt : (tcase a t bl).Wt sig) (h1 : Arg sig n t.tTy t') (hn : n ≤ n')
    (h : List.Forall₂ (PlainBranch sig n m n') bl bl') :
    Arg sig n' (tcase a t bl).tTy (.tcase [] t' bl') := by
  have hty := tTy_of_plainBranches a t t' h
  have hwt' := hwt
  simp only [Wt, wtBranches_iff] at hwt'
  obtain ⟨hne, _, hbl⟩ := hwt'
  have hall : ∀ b' ∈ bl', ∃ b ∈ bl, PlainBranch sig n m n' b b' :=
    fun _ hb' => Paired.exists_of_mem_right h hb'
  refine ⟨?_, hty, .of_parts (fun _ _ _ _ heq => by cases heq) ?_, fun v hv => ?_⟩
  · simp only [Wt, wtBranches_iff]
    refine ⟨?_, h1.wt, fun b' hb' => ?_⟩
    · rintro rfl
      cases h
      exact hne rfl
    · obtain ⟨b, hb, k, _, hpat, hbody⟩ := hall b' hb'
      obtain ⟨hpty, hok', hlin, hbty, _⟩ := hbl b hb
      rw [hpat, patTy_patternAt, h1.ty]
      exact ⟨hpty, ok_patternAt hok', linear_patternAt hlin,
        by rw [hty, hbody.arg.ty, hbty], hbody.arg.wt⟩
  · simp only [Term.parts, children, forall_mem_cons, forall_mem_map]
    refine ⟨h1.clean, fun b' hb' => ?_⟩
    obtain ⟨b, _, k, _, _, hbody⟩ := hall b' hb'
    exact hbody.arg.clean
  · rw [freeVars, freeVarsBranches_eq, mem_append, mem_flatMap] at hv
    rcases hv with hv | ⟨b', hb', hv⟩
    · exact (h1.lt v hv).trans_le hn
    · obtain ⟨b, _, k, _, _, hbody⟩ := hall b' hb'
      exact hbody.arg.lt v (mem_filter.mp hv).1

/-- The case analysis `t` on the value of `t'`. -/
theorem eval_tcase_plain (heps : I.EpsExt) (hok : m.Ok sig n (tcase a t bl).freeVars)
    (hwt : (tcase a t bl).Wt sig) (h1 : Arg sig n t.tTy t')
    (h : List.Forall₂ (PlainBranch sig n m n') bl bl') {ρ ρ₀ : I.Env} (hρ : I.Typed ρ)
    (hρ₀ : I.Typed ρ₀) (hag : Interp.Agree m (tcase a t bl).freeVars ρ ρ₀) :
    I.eval ρ (.tcase [] t' bl') = (I.branches (bl.map (fun b => (b.1, I.sem b.2)))
      ⟨I.dflt tyInt, False⟩ (I.eval ρ t') ρ₀).val := by
  have hwt' := hwt
  simp only [Wt, wtBranches_iff] at hwt'
  obtain ⟨_, _, hbl⟩ := hwt'
  rw [Interp.eval, sem_tcase]
  refine I.branches_sim (S := fun r r' : Den I.Val => r.val = r'.val) ?_ rfl
  rw [forall₂_map_left_iff, forall₂_map_right_iff]
  have hmem : ∀ b ∈ bl, b ∈ bl := fun _ hb => hb
  refine List.Forall₂.flip (((forall₂_and_left bl bl').mpr ⟨hmem, h⟩).imp ?_)
  rintro b b' ⟨hb, k, hk, hpat, hbody⟩
  obtain ⟨hpty, hp, _, hbty, _⟩ := hbl b hb
  have hd : I.mem b.1.patTy (I.eval ρ t') := eval_mem h1.wt (h1.ty.trans hpty.symm) hρ
  have hcorr := branch_corr (S := fun r r' : Den I.Val => r.val = r'.val) (r := I.sem b.2)
    (q := I.sem b'.2) (hok.le hk) hp (fun w hw hne => mem_freeVars_tcase hb hw hne) hag hρ hρ₀ hd
    (fun hσ hσ₀ _ hag => hbody.eval I heps hσ hσ₀ hag)
  rw [← hpat] at hcorr
  exact hcorr

theorem plain_tcase {n1 : ℕ} (hok : m.Ok sig n (tcase a t bl).freeVars)
    (hwt : (tcase a t bl).Wt sig) (h1 : Plain sig n m t n1 t') (hn : n1 ≤ n')
    (h : List.Forall₂ (PlainBranch sig n1 m n') bl bl') :
    Plain sig n m (.tcase a t bl) n' (.tcase [] t' bl') := by
  have hle := h1.le
  refine ⟨by omega, arg_tcase hwt h1.arg hn h, fun v hv => ?_, fun I heps ρ ρ₀ hρ hρ₀ hag => ?_⟩
  · rw [freeVars, freeVarsBranches_eq, mem_append, mem_flatMap] at hv
    rcases hv with hv | ⟨b', hb', hv⟩
    · obtain ⟨w, hw, hv⟩ := h1.vars v hv
      exact ⟨w, by simp [freeVars, hw], hv⟩
    · obtain ⟨b, hb, k, _, hpat, hbody⟩ := Paired.exists_of_mem_right h hb'
      rw [mem_filter, decide_eq_true_eq, hpat] at hv
      exact image_tcase_branch hb (hbody.vars v hv.1) hv.2
  · have heq := h1.eval I heps hρ hρ₀ (fun v hv => hag v (by simp [freeVars, hv]))
    rw [eval_tcase_plain heps (hok.le hle) hwt h1.arg h hρ hρ₀ hag, heq, Interp.eval,
      Interp.eval, sem_tcase, Interp.eval]

end Branch

end EliminateIf

end Why3
