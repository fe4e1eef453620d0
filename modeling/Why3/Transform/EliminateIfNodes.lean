import Why3.Transform.EliminateIfPlain

/-!
# What `elim_t` returns

`elim_t` says of the value of its term what the continuation says of its argument.  The
lemmas below are about one node each, given the same of the subterms at every tag.
-/

namespace Why3

open List Term Interp

variable {tl : List Term}

namespace EliminateIf

open Term

variable {sig : TySymbol → List LSymbol}

/-! ## Equations -/

theorem elimTermList_eq (tr : Bool) (n : ℕ) (m : Mvs) (tl : List Term) :
    elimTermList tr n m tl = tl.map (elimTerm tr n m) := by
  induction tl with
  | nil => rfl
  | cons t tl ih => rw [elimTermList, ih, map_cons]

theorem elimTermBranches_eq (tr : Bool) (n : ℕ) (m : Mvs) (bl : List (Pattern × Term)) :
    elimTermBranches tr n m bl = bl.map (fun b => (patternAt n m b.1,
      elimTerm tr (n + b.1.patVars.length) (m.bind n b.1.patVars) b.2)) := by
  induction bl with
  | nil => rfl
  | cons b bl ih =>
    obtain ⟨p, t⟩ := b
    rw [elimTermBranches, ih, map_cons, patternAt]

theorem elimFBranches_eq (n : ℕ) (m : Mvs) (bl : List (Pattern × Term)) :
    elimFBranches n m bl = bl.map (fun b => (patternAt n m b.1,
      elimF (n + b.1.patVars.length) (m.bind n b.1.patVars) b.2)) := by
  induction bl with
  | nil => rfl
  | cons b bl ih =>
    obtain ⟨p, t⟩ := b
    rw [elimFBranches, ih, map_cons, patternAt]

theorem elimBranchesF_eq (n : ℕ) (m : Mvs) (contT : ℕ → Term → Term)
    (bl : List (Pattern × Term)) :
    elimBranchesF n m contT bl = bl.map (fun b => (patternAt n m b.1,
      elimT (n + b.1.patVars.length) (m.bind n b.1.patVars) contT b.2)) := by
  induction bl with
  | nil => rfl
  | cons b bl ih =>
    obtain ⟨p, t⟩ := b
    rw [elimBranchesF, ih, map_cons, patternAt]

/-- A term of a trigger, which may be a formula. -/
def elimOfTrigger (n : ℕ) (m : Mvs) (t : Term) : Term :=
  if t.tTy = none then elimF n m t else elimTerm true n m t

theorem elimTrigger_eq (n : ℕ) (m : Mvs) (tl : List Term) :
    elimTrigger n m tl = tl.map (elimOfTrigger n m) := by
  induction tl with
  | nil => rfl
  | cons t tl ih => rw [elimTrigger, ih, map_cons, elimOfTrigger]

theorem elimTriggers_eq (n : ℕ) (m : Mvs) (trl : List (List Term)) :
    elimTriggers n m trl = trl.map (List.map (elimOfTrigger n m)) := by
  induction trl with
  | nil => rfl
  | cons tl trl ih => rw [elimTriggers, ih, elimTrigger_eq, map_cons]

theorem hasIfList_eq_false : hasIfList tl = false ↔ ∀ t ∈ tl, hasIf t = false := by
  induction tl with
  | nil => simp [hasIfList]
  | cons t tl ih => rw [hasIfList, Bool.or_eq_false_iff, ih, forall_mem_cons]

theorem hasIfBranches_eq_false {bl : List (Pattern × Term)} :
    hasIfBranches bl = false ↔ ∀ b ∈ bl, hasIf b.2 = false := by
  induction bl with
  | nil => simp [hasIfBranches]
  | cons b bl ih =>
    obtain ⟨p, t⟩ := b
    rw [hasIfBranches, Bool.or_eq_false_iff, ih, forall_mem_cons]

/-! ## Terms without conditionals -/

/-- The continuation is called once, whatever it is. -/
def IsPlain (sig : TySymbol → List LSymbol) (n : ℕ) (m : Mvs) (t : Term) : Prop :=
  ∃ n' t', Plain sig n m t n' t' ∧ ∀ cont, elimT n m cont t = cont n' t'

theorem isPlain_list {n : ℕ} {m : Mvs} (h : ∀ t ∈ tl, ∀ k, n ≤ k → IsPlain sig k m t) :
    ∀ k, n ≤ k → ∃ n' tl', k ≤ n' ∧
      List.Forall₂ (fun t t' => Plain sig k m t n' t') tl tl' ∧
      ∀ cont, elimTList k m cont tl = cont n' tl' := by
  induction tl with
  | nil => exact fun k _ => ⟨k, [], le_rfl, .nil, fun _ => rfl⟩
  | cons t tl ih =>
    intro k hk
    obtain ⟨n1, t', h1, heq1⟩ := h t mem_cons_self k hk
    obtain ⟨n2, tl', hle, htl, heq2⟩ :=
      ih (fun u hu => h u (mem_cons_of_mem _ hu)) n1 (hk.trans h1.le)
    refine ⟨n2, t' :: tl', h1.le.trans hle, .cons (h1.up le_rfl hle) ?_, fun cont => ?_⟩
    · exact htl.imp (fun _ _ h => h.up h1.le le_rfl)
    · rw [elimTList, heq1, heq2]

theorem isPlain_branches {n : ℕ} {m : Mvs} {bl : List (Pattern × Term)}
    (h : ∀ b ∈ bl, ∀ k, n ≤ k →
      IsPlain sig (k + b.1.patVars.length) (m.bind k b.1.patVars) b.2) :
    ∀ k, n ≤ k → ∃ n' bl', k ≤ n' ∧ List.Forall₂ (PlainBranch sig k m n') bl bl' ∧
      ∀ cont, elimBranchesT k m cont bl = cont n' bl' := by
  induction bl with
  | nil => exact fun k _ => ⟨k, [], le_rfl, .nil, fun _ => rfl⟩
  | cons b bl ih =>
    intro k hk
    obtain ⟨p, t⟩ := b
    obtain ⟨n1, bl', hle, hbl, heq1⟩ := ih (fun c hc => h c (mem_cons_of_mem _ hc)) k hk
    obtain ⟨n2, t', h2, heq2⟩ := h (p, t) mem_cons_self n1 (hk.trans hle)
    have hle2 : n1 ≤ n2 := (Nat.le_add_right _ _).trans h2.le
    refine ⟨n2, (patternAt n1 m p, t') :: bl', hle.trans hle2, .cons ?_ ?_, fun cont => ?_⟩
    · exact ⟨n1, hle, rfl, h2⟩
    · exact hbl.imp (fun _ _ h => h.up hle2)
    · rw [elimBranchesT, heq1, heq2]
      rfl

/-! ## Continuations -/

/-- `elim_t` returns formulas, that say of the value of the term what its continuation
says. -/
structure Cps (sig : TySymbol → List LSymbol) (n : ℕ) (m : Mvs) (t : Term) : Prop where
  ok : ∀ {V : VSymbol → Prop} {cont : ℕ → Term → Term}, ContOk sig n t.tTy V cont →
    Fmla sig (fun v => V v ∨ Image m t v) (elimT n m cont t)
  means : ∀ {I : Interp sig}, I.EpsExt → ∀ {ρ ρ₀ : I.Env} {K : I.Val → Prop}
    {cont : ℕ → Term → Term}, I.Typed ρ → I.Typed ρ₀ → Interp.Agree m t.freeVars ρ ρ₀ →
    ContMeans n t.tTy ρ K cont → (I.Holds ρ (elimT n m cont t) ↔ K (I.eval ρ₀ t))

/-- The same, of `list_map_cont elim_t`. -/
structure CpsList (sig : TySymbol → List LSymbol) (n : ℕ) (m : Mvs) (tl : List Term) : Prop where
  ok : ∀ {V : VSymbol → Prop} {cont : ℕ → List Term → Term}, ContListOk sig n (tl.map tTy) V cont →
    Fmla sig (fun v => V v ∨ ∃ t ∈ tl, Image m t v) (elimTList n m cont tl)
  means : ∀ {I : Interp sig}, I.EpsExt → ∀ {ρ ρ₀ : I.Env} {K : List I.Val → Prop}
    {cont : ℕ → List Term → Term}, I.Typed ρ → I.Typed ρ₀ →
    (∀ t ∈ tl, Interp.Agree m t.freeVars ρ ρ₀) → ContListMeans n (tl.map tTy) ρ K cont →
    (I.Holds ρ (elimTList n m cont tl) ↔ K (tl.map (I.eval ρ₀)))

section Nodes

variable {n : ℕ} {m : Mvs} {a : Sattr}

theorem cps_of_plain {t : Term} (h : IsPlain sig n m t) : Cps sig n m t := by
  obtain ⟨n', t', h, heq⟩ := h
  refine ⟨fun {V cont} hok => ?_, fun {I} heps {ρ ρ₀ K cont} hρ hρ₀ hag hK => ?_⟩
  · rw [heq]
    exact (hok h.le h.arg).mono (fun v hv => hv.imp_right (h.vars v))
  · rw [heq, hK h.le h.arg hρ (Below.refl n ρ), h.eval I heps hρ hρ₀ hag]

theorem cpsList (hok : ∀ t ∈ tl, m.Ok sig n t.freeVars) (h : ∀ t ∈ tl, ∀ k, n ≤ k → Cps sig k m t) :
    ∀ k, n ≤ k → CpsList sig k m tl := by
  induction tl with
  | nil =>
    refine fun k hk => ⟨fun hcont => ?_, fun {I} _ {ρ _ _ _} hρ _ _ hK => ?_⟩
    · exact (hcont le_rfl .nil).mono (fun v hv => .inl (by simpa using hv))
    · exact hK le_rfl .nil hρ (Below.refl k ρ)
  | cons t tl ih =>
    intro k hk
    have h1 := h t mem_cons_self k hk
    have hrest : ∀ k', k ≤ k' → CpsList sig k' m tl := fun k' hk' =>
      ih (fun u hu => hok u (mem_cons_of_mem _ hu))
        (fun u hu => h u (mem_cons_of_mem _ hu)) k' (hk.trans hk')
    refine ⟨fun {V cont} hcont => ?_, fun {I} heps {ρ ρ₀ K cont} hρ hρ₀ hag hK => ?_⟩
    · refine (h1.ok (V := fun v => V v ∨ ∃ u ∈ tl, Image m u v) ?_).mono (fun v hv => ?_)
      · intro k' t' hk' harg
        refine ((hrest k' hk').ok (V := fun v => V v ∨ v ∈ t'.freeVars) ?_).mono
          (fun v hv => ?_)
        · intro k'' tl' hk'' hargs
          refine (hcont (hk'.trans hk'') (.cons (harg.le hk'') hargs)).mono (fun v hv => ?_)
          simpa [or_assoc] using hv
        · rcases hv with (hv | hv) | hv
          · exact .inl (.inl hv)
          · exact .inr hv
          · exact .inl (.inr hv)
      · simpa [or_assoc, or_comm, or_left_comm] using hv
    · refine h1.means heps (K := fun d => K (d :: tl.map (I.eval ρ₀))) hρ hρ₀
        (hag t mem_cons_self) ?_
      intro k' t' hk' harg ρ' hρ' hbelow
      refine (hrest k' hk').means heps (K := fun ds => K (I.eval ρ' t' :: ds)) hρ' hρ₀ ?_ ?_
      · intro u hu
        exact agree_of_below (hag u (mem_cons_of_mem _ hu))
          ((hok u (mem_cons_of_mem _ hu)).le hk) hbelow
      · intro k'' tl' hk'' hargs ρ'' hρ'' hbelow'
        rw [hK (hk'.trans hk'') (.cons (harg.le hk'') hargs) hρ''
          (hbelow.trans hbelow' hk'), map_cons, harg.eval_below hbelow']

theorem cps_tapp {s : LSymbol} {ty : Option Ty} (hwt : (tapp a s tl ty).Wt sig)
    (h : CpsList sig n m tl) : Cps sig n m (.tapp a s tl ty) := by
  refine ⟨fun {V cont} hcont => ?_, fun {I} heps {ρ ρ₀ K cont} hρ hρ₀ hag hK => ?_⟩
  · rw [elimT]
    refine (h.ok (V := V) ?_).mono (fun v hv => hv.imp_right ?_)
    · intro k tl' hk hargs
      refine (hcont hk ((arg_tapp hwt hargs).attrs _)).mono (fun v hv => hv.imp_right ?_)
      rw [freeVars_setAttrs, freeVars, freeVarsList_eq, mem_flatMap]
      exact id
    · rintro ⟨t, ht, w, hw, hv⟩
      exact ⟨w, mem_freeVars_tapp ht hw, hv⟩
  · rw [elimT, eval_tapp]
    refine h.means heps (K := fun ds => K (I.fn s (tl.map tTy) ty ds)) hρ hρ₀
      (fun t ht v hv => hag v (mem_freeVars_tapp ht hv)) ?_
    intro k tl' hk hargs ρ' hρ' hbelow
    refine (hK hk ((arg_tapp hwt hargs).attrs _) hρ' hbelow).trans ?_
    rw [eval_setAttrs, eval_tapp, map_tTy_of_args hargs]

theorem cps_tif {f f' t1 t2 : Term} (hwt : (tif a f t1 t2).Wt sig)
    (hok : m.Ok sig n (tif a f t1 t2).freeVars) (hf : Elim sig false n m f f')
    (heq : elimF n m f = f') (h1 : Cps sig n m t1) (h2 : Cps sig n m t2) :
    Cps sig n m (.tif a f t1 t2) := by
  obtain ⟨hfty, h12, hfwt, _, _⟩ := hwt
  refine ⟨fun {V cont} hcont => ?_, fun {I} heps {ρ ρ₀ K cont} hρ hρ₀ hag hK => ?_⟩
  · have hcont1 : ContOk sig n t1.tTy V cont := h12 ▸ hcont
    have r1 := h1.ok hcont1
    have r2 := h2.ok (V := V) hcont
    rw [elimT, heq]
    refine ⟨⟨hf.ty.trans hfty, r1.ty.trans r2.ty.symm, hf.wt, r1.wt, r2.wt⟩, r2.ty,
      noTermIf_tif r2.ty (hf.clean rfl) r1.clean r2.clean, fun v hv => ?_⟩
    rw [freeVars, mem_append, mem_append] at hv
    rcases hv with (hv | hv) | hv
    · obtain ⟨w, hw, hv⟩ := hf.vars v hv
      exact .inr ⟨w, by simp [freeVars, hw], hv⟩
    · refine (r1.vars v hv).imp_right ?_
      rintro ⟨w, hw, hv⟩
      exact ⟨w, by simp [freeVars, hw], hv⟩
    · refine (r2.vars v hv).imp_right ?_
      rintro ⟨w, hw, hv⟩
      exact ⟨w, by simp [freeVars, hw], hv⟩
  · have hK1 : ContMeans n t1.tTy ρ K cont := h12 ▸ hK
    have hokf : m.Ok sig n f.freeVars := hok.mono (fun v hv => by simp [freeVars, hv])
    have hcond := hf.holds heps hfwt hokf hfty hρ (fun v hv => hag v (by simp [freeVars, hv]))
    have r1 := h1.means heps hρ hρ₀ (fun v hv => hag v (by simp [freeVars, hv])) hK1
    have r2 := h2.means heps hρ hρ₀ (fun v hv => hag v (by simp [freeVars, hv])) hK
    rw [elimT, heq, holds_tif, hcond, r1, r2]
    by_cases hc : I.Holds ρ₀ f
    · have hif : I.eval ρ₀ (.tif a f t1 t2) = I.eval ρ₀ t1 := congrArg Den.val (if_pos hc)
      simp [hc, hif]
    · have hif : I.eval ρ₀ (.tif a f t1 t2) = I.eval ρ₀ t2 := congrArg Den.val (if_neg hc)
      simp [hc, hif]

theorem Cps.ok_operand {t e : Term} {V : VSymbol → Prop} {cont : ℕ → Term → Term}
    (h : Cps sig n m t) (hsub : ∀ w ∈ t.freeVars, w ∈ e.freeVars)
    (hcont : ContOk sig n t.tTy (fun v => V v ∨ Image m e v) cont) :
    Fmla sig (fun v => V v ∨ Image m e v) (elimT n m cont t) := by
  refine (h.ok (V := fun v => V v ∨ Image m e v) hcont).mono (fun v hv => ?_)
  rcases hv with hv | ⟨w, hw, hv⟩
  · exact hv
  · exact .inr ⟨w, hsub w hw, hv⟩

section Let

variable {u : VSymbol} {t1 t2 : Term}

/-- A conditional in the body: the binding is put around the formula of the body. -/
theorem cps_tlet_if (hwt : (tlet a t1 u t2).Wt sig)
    (hok : m.Ok sig n (tlet a t1 u t2).freeVars) (hif : hasIf t2 = true) (h1 : Cps sig n m t1)
    (h2 : ∀ k, n ≤ k → Cps sig (k + 1) (m.bind k [u]) t2) : Cps sig n m (.tlet a t1 u t2) := by
  have hty1 := hwt.1
  refine ⟨fun {V cont} hcont => ?_, fun {I} heps {ρ ρ₀ K cont} hρ hρ₀ hag hK => ?_⟩
  · rw [elimT, if_pos hif]
    refine h1.ok_operand (fun _ => mem_append_left _) ?_
    intro k t' hk harg
    have r2 := (h2 k hk).ok (V := V) (hcont.le (by omega))
    refine ⟨⟨harg.ty.trans hty1, harg.wt, r2.wt⟩, r2.ty,
      .of_parts (fun _ _ _ _ heq => by cases heq) ?_, fun v hv => ?_⟩
    · simp only [Term.parts, children, forall_mem_cons]
      exact ⟨harg.clean, r2.clean, fun _ h => absurd h not_mem_nil⟩
    · rw [freeVars, mem_append, mem_filter, decide_eq_true_eq] at hv
      rcases hv with hv | ⟨hv, hne⟩
      · exact .inr hv
      · exact .inl ((r2.vars v hv).imp_right (fun h => image_tlet_body h hne))
  · rw [elimT, if_pos hif]
    refine h1.means heps (K := fun d => K (I.eval (Function.update ρ₀ u d) t2)) hρ hρ₀
      (fun v hv => hag v (mem_append_left _ hv)) ?_
    intro k t' hk harg ρ' hρ' hbelow
    have hd : I.mem u.vsTy (I.eval ρ' t') := eval_mem harg.wt (harg.ty.trans hty1) hρ'
    have hbind := (agree_of_below hag hok hbelow).bind_one (hok.le hk)
      (fun w => mem_freeVars_tlet (e := t2) (w := u)) (I.eval ρ' t')
    refine (h2 k hk).means heps (Interp.typed_update hρ' (v := ⟨k, u.vsTy⟩) hd)
      (Interp.typed_update hρ₀ hd) hbind ?_
    exact ContMeans.le hK (by omega) (hbelow.trans (Below.update k ρ' u.vsTy _) hk)

theorem cps_tlet_plain (hwt : (tlet a t1 u t2).Wt sig)
    (hok : m.Ok sig n (tlet a t1 u t2).freeVars) (hif : hasIf t2 = false)
    (h1 : Cps sig n m t1) (h2 : ∀ k, n ≤ k → IsPlain sig (k + 1) (m.bind k [u]) t2) :
    Cps sig n m (.tlet a t1 u t2) := by
  have hty1 := hwt.1
  refine ⟨fun {V cont} hcont => ?_, fun {I} heps {ρ ρ₀ K cont} hρ hρ₀ hag hK => ?_⟩
  · rw [elimT, if_neg (by simp [hif])]
    refine h1.ok_operand (fun _ => mem_append_left _) ?_
    intro k t' hk harg
    obtain ⟨n', t2', hp, heq⟩ := h2 k hk
    have hle := hp.le
    have harg' := arg_tlet (hty1 ▸ harg) hp.arg (by omega)
    show Fmla sig _ (elimT (k + 1) (m.bind k [u]) _ t2)
    rw [heq]
    refine (hcont (by omega) (harg'.attrs _)).mono (fun v hv => ?_)
    rw [freeVars_setAttrs, freeVars, mem_append, mem_filter, decide_eq_true_eq] at hv
    rcases hv with hv | hv | ⟨hv, hne⟩
    · exact .inl (.inl hv)
    · exact .inr hv
    · exact .inl (.inr (image_tlet_body (hp.vars v hv) hne))
  · rw [elimT, if_neg (by simp [hif])]
    refine h1.means heps (K := fun d => K (I.eval (Function.update ρ₀ u d) t2)) hρ hρ₀
      (fun v hv => hag v (mem_append_left _ hv)) ?_
    intro k t' hk harg ρ' hρ' hbelow
    obtain ⟨n', t2', hp, heq⟩ := h2 k hk
    have hle := hp.le
    have hd : I.mem u.vsTy (I.eval ρ' t') := eval_mem harg.wt (harg.ty.trans hty1) hρ'
    have hbind := (agree_of_below hag hok hbelow).bind_one (hok.le hk)
      (fun w => mem_freeVars_tlet (e := t2) (w := u)) (I.eval ρ' t')
    have harg' := arg_tlet (hty1 ▸ harg) hp.arg (by omega)
    have hval := hp.eval I heps (Interp.typed_update hρ' (v := ⟨k, u.vsTy⟩) hd)
      (Interp.typed_update hρ₀ hd) hbind
    show I.Holds ρ' (elimT (k + 1) (m.bind k [u]) _ t2) ↔ K (I.eval _ t2)
    rw [heq, ← hval]
    refine (hK (by omega) (harg'.attrs _) hρ' hbelow).trans ?_
    rw [eval_setAttrs]
    rfl

end Let

section Case

variable {t : Term} {bl : List (Pattern × Term)}

/-- A conditional in a branch: the case analysis is put around the formulas of the
branches. -/
theorem cps_tcase_if (hwt : (tcase a t bl).Wt sig)
    (hok : m.Ok sig n (tcase a t bl).freeVars) (hif : hasIfBranches bl = true)
    (h1 : Cps sig n m t)
    (h2 : ∀ b ∈ bl, ∀ k, n ≤ k → Cps sig (k + b.1.patVars.length) (m.bind k b.1.patVars) b.2) :
    Cps sig n m (.tcase a t bl) := by
  have hwt' := hwt
  simp only [Wt, wtBranches_iff] at hwt'
  obtain ⟨hne, _, hbl⟩ := hwt'
  have hbty : ∀ b ∈ bl, b.2.tTy = (tcase a t bl).tTy := fun b hb => (hbl b hb).2.2.2.1
  refine ⟨fun {V cont} hcont => ?_, fun {I} heps {ρ ρ₀ K cont} hρ hρ₀ hag hK => ?_⟩
  · rw [elimT, if_pos hif]
    refine h1.ok_operand (fun _ hw => by simp [freeVars, hw]) ?_
    intro k t' hk harg
    -- the formula of each branch
    have hbr : ∀ b ∈ bl, Fmla sig (fun v => V v ∨ Image (m.bind k b.1.patVars) b.2 v)
        (elimT (k + b.1.patVars.length) (m.bind k b.1.patVars) cont b.2) := by
      intro b hb
      refine (h2 b hb k hk).ok ?_
      rw [hbty b hb]
      exact hcont.le (by omega)
    show Fmla sig _ (.tcase [] t' (elimBranchesF k m cont bl))
    rw [elimBranchesF_eq]
    have hty : (tcase [] t' (bl.map (fun b => (patternAt k m b.1,
        elimT (k + b.1.patVars.length) (m.bind k b.1.patVars) cont b.2)))).tTy = none := by
      cases bl with
      | nil => exact absurd rfl hne
      | cons b bl => exact (hbr b mem_cons_self).ty
    refine ⟨?_, hty, .of_parts (fun _ _ _ _ heq => by cases heq) ?_, fun v hv => ?_⟩
    · simp only [Wt, wtBranches_iff, forall_mem_map]
      refine ⟨by simpa using hne, harg.wt, fun b hb => ?_⟩
      obtain ⟨hpty, hp, hlin, _, _⟩ := hbl b hb
      rw [hty, patTy_patternAt, harg.ty]
      exact ⟨hpty, ok_patternAt hp, linear_patternAt hlin, (hbr b hb).ty, (hbr b hb).wt⟩
    · simp only [Term.parts, children, forall_mem_cons, map_map, forall_mem_map]
      exact ⟨harg.clean, fun b hb => (hbr b hb).clean⟩
    · rw [freeVars, freeVarsBranches_eq, mem_append, mem_flatMap] at hv
      rcases hv with hv | ⟨b', hb', hv⟩
      · exact .inr hv
      · obtain ⟨b, hb, rfl⟩ := mem_map.mp hb'
        rw [mem_filter, decide_eq_true_eq] at hv
        exact .inl (((hbr b hb).vars v hv.1).imp_right
          (fun h => image_tcase_branch hb h hv.2))
  · rw [elimT, if_pos hif]
    rw [Interp.eval, sem_tcase]
    refine h1.means heps (K := fun d => K (I.branches (bl.map (fun b => (b.1, I.sem b.2)))
      ⟨I.dflt tyInt, False⟩ d ρ₀).val) hρ hρ₀ (fun v hv => hag v (by simp [freeVars, hv])) ?_
    intro k t' hk harg ρ' hρ' hbelow
    show I.Holds ρ' (.tcase [] t' (elimBranchesF k m cont bl)) ↔ _
    have hag' := agree_of_below hag hok hbelow
    have hne' : bl.map (fun b => (patternAt k m b.1,
        I.sem (elimT (k + b.1.patVars.length) (m.bind k b.1.patVars) cont b.2))) ≠ [] := by
      simpa using hne
    rw [elimBranchesF_eq, Interp.Holds, sem_tcase, map_map]
    show (I.branches (bl.map (fun b => (patternAt k m b.1, I.sem (elimT (k + b.1.patVars.length)
      (m.bind k b.1.patVars) cont b.2)))) _ _ ρ').tr ↔ _
    rw [branches_default hne' _ ⟨I.dflt tyInt, K (I.dflt tyInt)⟩]
    refine I.branches_sim (S := fun r r' : Den I.Val => r.tr ↔ K r'.val) ?_ .rfl
    rw [forall₂_map_left_iff, forall₂_map_right_iff, forall₂_same]
    intro b hb
    obtain ⟨hpty, hp, _, _, _⟩ := hbl b hb
    have hd : I.mem b.1.patTy (I.eval ρ' t') :=
      eval_mem harg.wt (harg.ty.trans hpty.symm) hρ'
    refine branch_corr (S := fun r r' : Den I.Val => r.tr ↔ K r'.val) (r := I.sem b.2)
      (q := I.sem (elimT (k + b.1.patVars.length) (m.bind k b.1.patVars) cont b.2)) (hok.le hk) hp
      (fun w hw hne => mem_freeVars_tcase hb hw hne) hag' hρ' hρ₀ hd ?_
    intro σ σ₀ hσ hσ₀ hbelow' hagb
    refine (h2 b hb k hk).means heps hσ hσ₀ hagb ?_
    rw [hbty b hb]
    exact ContMeans.le hK (by omega) (hbelow.trans hbelow' hk)

theorem cps_tcase_plain (hwt : (tcase a t bl).Wt sig)
    (hok : m.Ok sig n (tcase a t bl).freeVars) (hif : hasIfBranches bl = false)
    (h1 : Cps sig n m t)
    (h2 : ∀ b ∈ bl, ∀ k, n ≤ k →
      IsPlain sig (k + b.1.patVars.length) (m.bind k b.1.patVars) b.2) :
    Cps sig n m (.tcase a t bl) := by
  refine ⟨fun {V cont} hcont => ?_, fun {I} heps {ρ ρ₀ K cont} hρ hρ₀ hag hK => ?_⟩
  · rw [elimT, if_neg (by simp [hif])]
    refine h1.ok_operand (fun _ hw => by simp [freeVars, hw]) ?_
    intro k t' hk harg
    obtain ⟨n', bl', hle, hp, heq⟩ := isPlain_branches h2 k hk
    have harg' := arg_tcase hwt harg hle hp
    show Fmla sig _ (elimBranchesT k m _ bl)
    rw [heq]
    refine (hcont (by omega) (harg'.attrs _)).mono (fun v hv => ?_)
    rw [freeVars_setAttrs, freeVars, freeVarsBranches_eq, mem_append, mem_flatMap] at hv
    rcases hv with hv | hv | ⟨b', hb', hv⟩
    · exact .inl (.inl hv)
    · exact .inr hv
    · obtain ⟨b, hb, l, _, hpat, hbody⟩ := Paired.exists_of_mem_right hp hb'
      rw [mem_filter, decide_eq_true_eq, hpat] at hv
      exact .inl (.inr (image_tcase_branch hb (hbody.vars v hv.1) hv.2))
  · rw [elimT, if_neg (by simp [hif])]
    rw [Interp.eval, sem_tcase]
    refine h1.means heps (K := fun d => K (I.branches (bl.map (fun b => (b.1, I.sem b.2)))
      ⟨I.dflt tyInt, False⟩ d ρ₀).val) hρ hρ₀ (fun v hv => hag v (by simp [freeVars, hv])) ?_
    intro k t' hk harg ρ' hρ' hbelow
    obtain ⟨n', bl', hle, hp, heq⟩ := isPlain_branches h2 k hk
    have harg' := arg_tcase hwt harg hle hp
    show I.Holds ρ' (elimBranchesT k m _ bl) ↔ K _
    rw [heq]
    refine (hK (by omega) (harg'.attrs _) hρ' hbelow).trans ?_
    rw [eval_setAttrs, eval_tcase_plain heps (hok.le hk) hwt harg hp hρ' hρ₀
      (agree_of_below hag hok hbelow)]

end Case

end Nodes

end EliminateIf

end Why3
