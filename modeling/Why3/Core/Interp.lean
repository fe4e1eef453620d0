import Why3.Core.PatternCorrect
import Why3.Core.Typing

/-!
# Interpretations

The meaning of the terms of `core/term.ml` in an interpretation of the types and
symbols.  An interpretation gives a non-empty domain to every type (a type
variable is a type like any other) and makes algebraic types free.  A symbol is
interpreted for each instance of its signature.
-/

namespace Why3

open List Function Term Pattern

variable {v : VSymbol} {t : Term}

/-- The value of a term, and the truth of a formula. -/
structure Den (D : Type) where
  val : D
  tr : Prop

structure Interp (sig : TySymbol → List LSymbol) extends ValueSpace sig where
  const : Constant → Ty → Val
  fn : LSymbol → List (Option Ty) → Option Ty → List Val → Val
  pr : LSymbol → List (Option Ty) → List Val → Prop
  /-- Hilbert's choice, for the property of the values of a type. -/
  eps : Ty → (Val → Prop) → Val
  const_mem : ∀ c ty, mem ty (const c ty)
  fn_mem : ∀ {s tys ty dl}, s.Takes (tys.map some) (some ty) → List.Forall₂ mem tys dl →
    mem ty (fn s (tys.map some) (some ty) dl)
  fn_constr : ∀ {cs ty dl}, cs ∈ constrsOf sig ty → List.Forall₂ mem (argTys cs ty) dl →
    dest ty (fn cs ((argTys cs ty).map some) (some ty) dl) = some (cs, dl)
  dest_inj : ∀ {ty d d' c}, mem ty d → mem ty d' → dest ty d = some c → dest ty d' = some c →
    d = d'
  eps_mem : ∀ ty P, mem ty (eps ty P)
  eps_spec : ∀ {ty} {P : Val → Prop}, (∃ d, mem ty d ∧ P d) → P (eps ty P)

/-- The meaning of a binary connective. -/
def Binop.tr : Binop → Prop → Prop → Prop
  | .tand, p, q => p ∧ q
  | .tor, p, q => p ∨ q
  | .timplies, p, q => p → q
  | .tiff, p, q => p ↔ q

namespace Interp

variable {sig : TySymbol → List LSymbol} (I : Interp sig)

abbrev Env := VSymbol → I.Val

/-- The first value is an argument of the constructor of the second one. -/
def Component (e d : Ty × I.Val) : Prop :=
  ∃ cs dl, I.mem d.1 d.2 ∧ I.dest d.1 d.2 = some (cs, dl) ∧ e ∈ (argTys cs d.1).zip dl

/-- Some value of a type. -/
def dflt (ty : Ty) : I.Val := I.eps ty (fun _ => True)

/-- The property holds for all values of the variables, or for some. -/
def quant : Quant → List VSymbol → (I.Env → Prop) → I.Env → Prop
  | _, [], P, ρ => P ρ
  | .tforall, v :: vl, P, ρ =>
    ∀ d, I.mem v.vsTy d → quant .tforall vl P (update ρ v d)
  | .texists, v :: vl, P, ρ =>
    ∃ d, I.mem v.vsTy d ∧ quant .texists vl P (update ρ v d)

/-- The first branch that matches.  Matches are checked to be exhaustive; when
no branch matches the last one is taken, with some values for its variables. -/
def branches {R : Type} (bl : List (Pattern × (I.Env → R))) (x : R) (d : I.Val) (ρ : I.Env) : R :=
  match runBranches I.dest (fun (a : I.Env → R) ρ => a ρ) ρ d bl with
  | some r => r
  | none =>
    match bl.getLast? with
    | some b => b.2 (bindAll ρ (b.1.patVars.map (fun v => (v, I.dflt v.vsTy))))
    | none => x

open Classical in
mutual
noncomputable def sem : Term → I.Env → Den I.Val
  | .tvar _ v => fun ρ => ⟨ρ v, False⟩
  | .tconst _ c ty => fun _ => ⟨I.const c ty, False⟩
  | .tapp _ s tl ty => fun ρ =>
    ⟨I.fn s (tl.map tTy) ty ((semList tl).map (fun d => (d ρ).val)),
      if s = psEqu then ∃ d, (semList tl).map (fun d => (d ρ).val) = [d, d]
      else I.pr s (tl.map tTy) ((semList tl).map (fun d => (d ρ).val))⟩
  | .tif _ f t1 t2 => fun ρ => if (sem f ρ).tr then sem t1 ρ else sem t2 ρ
  | .tlet _ t v e => fun ρ => sem e (update ρ v (sem t ρ).val)
  | .tcase _ t bl => fun ρ =>
    I.branches (semBranches bl) ⟨I.dflt tyInt, False⟩ (sem t ρ).val ρ
  | .teps _ v f => fun ρ =>
    ⟨I.eps v.vsTy (fun d => (sem f (update ρ v d)).tr), False⟩
  | .tquant _ q vl _ f => fun ρ => ⟨I.dflt tyInt, I.quant q vl (fun ρ => (sem f ρ).tr) ρ⟩
  | .tbinop _ op f g => fun ρ => ⟨I.dflt tyInt, op.tr (sem f ρ).tr (sem g ρ).tr⟩
  | .tnot _ f => fun ρ => ⟨I.dflt tyInt, ¬ (sem f ρ).tr⟩
  | .ttrue _ => fun _ => ⟨I.dflt tyInt, True⟩
  | .tfalse _ => fun _ => ⟨I.dflt tyInt, False⟩
noncomputable def semList : List Term → List (I.Env → Den I.Val)
  | [] => []
  | t :: tl => sem t :: semList tl
noncomputable def semBranches : List (Pattern × Term) → List (Pattern × (I.Env → Den I.Val))
  | [] => []
  | (p, t) :: bl => (p, sem t) :: semBranches bl
end

attribute [grind =] sem semList semBranches

/-- The value of a term. -/
noncomputable def eval (ρ : I.Env) (t : Term) : I.Val := (I.sem t ρ).val

/-- The truth of a formula. -/
def Holds (ρ : I.Env) (f : Term) : Prop := (I.sem f ρ).tr

@[simp] theorem semList_eq (tl : List Term) : I.semList tl = tl.map I.sem := by
  induction tl with
  | nil => rfl
  | cons t tl ih => rw [semList, ih, map_cons]

@[simp] theorem semBranches_eq (bl : List (Pattern × Term)) :
    I.semBranches bl = bl.map (fun b => (b.1, I.sem b.2)) := by
  induction bl with
  | nil => rfl
  | cons b bl ih =>
    obtain ⟨p, t⟩ := b
    rw [semBranches, ih, map_cons]

/-! ## Equations -/

section Equations

variable (ρ : I.Env) (a : Sattr)

@[simp] theorem eval_tvar (v : VSymbol) : I.eval ρ (.tvar a v) = ρ v := rfl

@[simp] theorem eval_tapp (s : LSymbol) (tl : List Term) (ty : Option Ty) :
    I.eval ρ (.tapp a s tl ty) = I.fn s (tl.map tTy) ty (tl.map (I.eval ρ)) := by
  simp only [eval, sem, semList_eq, map_map]
  rfl

open Classical in
theorem sem_tapp (s : LSymbol) (tl : List Term) (ty : Option Ty) :
    I.sem (.tapp a s tl ty) ρ = ⟨I.fn s (tl.map tTy) ty (tl.map (I.eval ρ)),
      if s = psEqu then ∃ d, tl.map (I.eval ρ) = [d, d]
      else I.pr s (tl.map tTy) (tl.map (I.eval ρ))⟩ := by
  simp only [sem, semList_eq, map_map]
  rfl

open Classical in
theorem sem_tif (f t1 t2 : Term) :
    I.sem (.tif a f t1 t2) ρ = if I.Holds ρ f then I.sem t1 ρ else I.sem t2 ρ := rfl

theorem sem_tlet (t : Term) (v : VSymbol) (e : Term) :
    I.sem (.tlet a t v e) ρ = I.sem e (update ρ v (I.eval ρ t)) := rfl

theorem sem_tcase (t : Term) (bl : List (Pattern × Term)) :
    I.sem (.tcase a t bl) ρ = I.branches (bl.map (fun b => (b.1, I.sem b.2)))
      ⟨I.dflt tyInt, False⟩ (I.eval ρ t) ρ := by
  rw [sem, semBranches_eq]
  rfl

theorem sem_teps (v : VSymbol) (f : Term) :
    I.sem (.teps a v f) ρ = ⟨I.eps v.vsTy (fun d => I.Holds (update ρ v d) f), False⟩ :=
  rfl

@[simp] theorem eval_teps (v : VSymbol) (f : Term) :
    I.eval ρ (.teps a v f) = I.eps v.vsTy (fun d => I.Holds (update ρ v d) f) := rfl

theorem holds_psEqu {s : LSymbol} (hs : s = psEqu) (tl : List Term) (ty : Option Ty) :
    I.Holds ρ (.tapp a s tl ty) ↔ ∃ d, tl.map (I.eval ρ) = [d, d] := by
  simp only [Holds, sem, if_pos hs, semList_eq, map_map]
  rfl

@[simp] theorem holds_equ (t1 t2 : Term) (ty : Option Ty) :
    I.Holds ρ (.tapp a psEqu [t1, t2] ty) ↔ I.eval ρ t1 = I.eval ρ t2 := by
  rw [holds_psEqu I ρ a rfl]
  simp only [map_cons, map_nil, List.cons.injEq, and_true]
  constructor
  · rintro ⟨d, h1, h2⟩
    exact h1.trans h2.symm
  · intro h
    exact ⟨_, rfl, h.symm⟩

theorem holds_tapp {s : LSymbol} (hs : s ≠ psEqu) (tl : List Term) (ty : Option Ty) :
    I.Holds ρ (.tapp a s tl ty) ↔ I.pr s (tl.map tTy) (tl.map (I.eval ρ)) := by
  simp only [Holds, sem, if_neg hs, semList_eq, map_map]
  rfl

@[simp] theorem holds_tif (f t1 t2 : Term) :
    I.Holds ρ (.tif a f t1 t2) ↔
      (I.Holds ρ f → I.Holds ρ t1) ∧ (¬ I.Holds ρ f → I.Holds ρ t2) := by
  rw [Holds, sem_tif]
  by_cases h : I.Holds ρ f
  · rw [if_pos h]
    simp only [h, forall_const, not_true_eq_false, false_implies, and_true]
    rfl
  · rw [if_neg h]
    simp only [h, not_false_eq_true, forall_const, false_implies, true_and]
    rfl

@[simp] theorem holds_tlet (t : Term) (v : VSymbol) (e : Term) :
    I.Holds ρ (.tlet a t v e) ↔ I.Holds (update ρ v (I.eval ρ t)) e := .rfl

@[simp] theorem holds_tquant (q : Quant) (vl : List VSymbol) (trl : List (List Term)) (f : Term) :
    I.Holds ρ (.tquant a q vl trl f) ↔ I.quant q vl (fun ρ => I.Holds ρ f) ρ := .rfl

@[simp] theorem holds_tbinop (op : Binop) (f g : Term) :
    I.Holds ρ (.tbinop a op f g) ↔ op.tr (I.Holds ρ f) (I.Holds ρ g) := .rfl

@[simp] theorem holds_tnot (f : Term) : I.Holds ρ (.tnot a f) ↔ ¬ I.Holds ρ f := .rfl

@[simp] theorem holds_ttrue : I.Holds ρ (.ttrue a) ↔ True := .rfl

@[simp] theorem holds_tfalse : I.Holds ρ (.tfalse a) ↔ False := .rfl

end Equations

/-! ## Branches -/

variable {ρ : I.Env} {ρ' : I.Env}

section Branches

variable {R R' : Type}

/-- Some values for the variables of a pattern. -/
def dfltVars (p : Pattern) : List (VSymbol × I.Val) :=
  p.patVars.map (fun v => (v, I.dflt v.vsTy))

theorem branches_cons (b : Pattern × (I.Env → R)) (bl : List (Pattern × (I.Env → R))) (x : R)
    (d : I.Val) (ρ : I.Env) :
    I.branches (b :: bl) x d ρ =
      match matchPat I.dest b.1 d with
      | some bs => b.2 (bindAll ρ bs)
      | none => if bl = [] then b.2 (bindAll ρ (I.dfltVars b.1)) else I.branches bl x d ρ := by
  unfold branches
  rw [runBranches_cons]
  cases hm : matchPat I.dest b.1 d with
  | some bs => simp
  | none =>
    cases bl with
    | nil => simp [runBranches, dfltVars]
    | cons b' bl => simp [getLast?_cons_cons]

/-- Two case analyses whose branches correspond have results that correspond. -/
theorem branches_sim {S : R → R' → Prop} {d : I.Val}
    {bl : List (Pattern × (I.Env → R))} {bl' : List (Pattern × (I.Env → R'))}
    (h : List.Forall₂ (fun b b' =>
      (matchPat I.dest b.1 d = none ↔ matchPat I.dest b'.1 d = none) ∧
      (∀ bs bs', matchPat I.dest b.1 d = some bs →
        matchPat I.dest b'.1 d = some bs' →
        S (b.2 (bindAll ρ bs)) (b'.2 (bindAll ρ' bs'))) ∧
      S (b.2 (bindAll ρ (I.dfltVars b.1))) (b'.2 (bindAll ρ' (I.dfltVars b'.1)))) bl bl')
    {x : R} {x' : R'} (hx : S x x') : S (I.branches bl x d ρ) (I.branches bl' x' d ρ') := by
  induction h with
  | nil => exact hx
  | @cons b b' bl bl' hb htl ih =>
    obtain ⟨hnone, hsome, hdflt⟩ := hb
    rw [branches_cons, branches_cons]
    cases hm : matchPat I.dest b.1 d with
    | none =>
      rw [hnone.mp hm]
      simp only
      cases htl with
      | nil => exact hdflt
      | cons _ _ => exact ih
    | some bs =>
      cases hm' : matchPat I.dest b'.1 d with
      | none => rw [hnone.mpr hm'] at hm; cases hm
      | some bs' => exact hsome bs bs' hm hm'

end Branches

/-! ## Free variables -/

section Free

variable {I}

theorem quant_congr {q : Quant} {P P' : I.Env → Prop} {F : List VSymbol}
    (h : ∀ ρ ρ' : I.Env, (∀ v ∈ F, ρ v = ρ' v) → (P ρ ↔ P' ρ')) {vl : List VSymbol} :
    ∀ {ρ ρ' : I.Env}, (∀ v ∈ F, v ∉ vl → ρ v = ρ' v) →
      (I.quant q vl P ρ ↔ I.quant q vl P' ρ') := by
  induction vl with
  | nil =>
    intro ρ ρ' hρ
    cases q <;> exact h ρ ρ' (fun v hv => hρ v hv (not_mem_nil))
  | cons w vl ih =>
    intro ρ ρ' hρ
    have hupd : ∀ d, ∀ v ∈ F, v ∉ vl →
        update ρ w d v = update ρ' w d v := by
      intro d v hv hvl
      by_cases hvw : v = w
      · subst hvw
        rw [update_self, update_self]
      · rw [update_of_ne hvw, update_of_ne hvw]
        exact hρ v hv (by simp [hvw, hvl])
    cases q with
    | tforall => exact forall_congr' fun d => imp_congr_right fun _ => ih (hupd d)
    | texists => exact exists_congr fun d => and_congr_right fun _ => ih (hupd d)

theorem bindAll_agree : ∀ {bs : List (VSymbol × I.Val)},
    (v ∉ bs.map Prod.fst → ρ v = ρ' v) → bindAll ρ bs v = bindAll ρ' bs v := by
  intro bs
  induction bs with
  | nil => intro h; exact h not_mem_nil
  | cons b bs ih =>
    intro h
    obtain ⟨w, d⟩ := b
    rw [bindAll_cons, bindAll_cons]
    by_cases hvw : v = w
    · subst hvw
      rw [update_self, update_self]
    · rw [update_of_ne hvw, update_of_ne hvw]
      exact ih (fun hv => h (by simp [hvw, hv]))

theorem update_agree {w : VSymbol} {d d' : I.Val} (hd : d = d')
    (h : v ≠ w → ρ v = ρ' v) : update ρ w d v = update ρ' w d' v := by
  by_cases hvw : v = w
  · subst hvw
    rw [update_self, update_self, hd]
  · rw [update_of_ne hvw, update_of_ne hvw, h hvw]

theorem sem_congr : t.Wt sig → ∀ {ρ ρ' : I.Env}, (∀ v ∈ t.freeVars, ρ v = ρ' v) →
    I.sem t ρ = I.sem t ρ' := by
  induction t with
  | tvar a v =>
    intro _ ρ ρ' h
    have := h v (mem_singleton_self v)
    simp only [sem, this]
  | tconst a c ty | ttrue a | tfalse a => intro _ ρ ρ' _; rfl
  | tapp a s tl ty ih =>
    intro hwt ρ ρ' h
    simp only [Wt, wtList_iff] at hwt
    have hmap : (I.semList tl).map (fun d => (d ρ).val) =
        (I.semList tl).map (fun d => (d ρ').val) := by
      rw [semList_eq, map_map, map_map]
      apply map_congr_left
      intro t ht
      show (I.sem t ρ).val = (I.sem t ρ').val
      rw [ih t ht (hwt.2 t ht) (fun v hv => h v ?_)]
      simp only [freeVars, freeVarsList_eq, mem_flatMap]
      exact ⟨t, ht, hv⟩
    simp only [sem, hmap]
  | tif a f t1 t2 ihf ih1 ih2 =>
    intro hwt ρ ρ' h
    obtain ⟨_, _, hf, h1, h2⟩ := hwt
    simp only [freeVars, mem_append] at h
    rw [sem_tif, sem_tif, Holds, Holds, ihf hf (fun v hv => h v (.inl (.inl hv))),
      ih1 h1 (fun v hv => h v (.inl (.inr hv))), ih2 h2 (fun v hv => h v (.inr hv))]
  | tlet a t v e iht ihe =>
    intro hwt ρ ρ' h
    obtain ⟨_, ht, he⟩ := hwt
    simp only [freeVars, mem_append, mem_filter, decide_eq_true_eq] at h
    rw [sem_tlet, sem_tlet]
    refine ihe he (fun w hw => update_agree ?_ (fun hwv => h w (.inr ⟨hw, hwv⟩)))
    rw [eval, eval, iht ht (fun w hw => h w (.inl hw))]
  | tcase a t bl iht ihb =>
    intro hwt ρ ρ' h
    simp only [Wt, wtBranches_iff] at hwt
    obtain ⟨_, ht, hbl⟩ := hwt
    simp only [freeVars, freeVarsBranches_eq, mem_append, mem_flatMap,
      mem_filter, decide_eq_true_eq] at h
    rw [sem_tcase, sem_tcase, eval, eval, iht ht (fun w hw => h w (.inl hw))]
    -- a match binds the variables of the pattern, the others keep their values
    have hbody : ∀ b ∈ bl, ∀ bs : List (VSymbol × I.Val),
        (∀ v, v ∈ b.1.patVars → v ∈ bs.map Prod.fst) →
        I.sem b.2 (bindAll ρ bs) = I.sem b.2 (bindAll ρ' bs) := by
      intro b hb bs hbs
      refine ihb b hb (hbl b hb).2.2.2.2 (fun v hv => bindAll_agree (fun hnot => ?_))
      exact h v (.inr ⟨b, hb, hv, fun hmem => hnot (hbs v hmem)⟩)
    refine I.branches_sim (S := fun r r' => r = r') ?_ rfl
    rw [forall₂_map_left_iff, forall₂_map_right_iff, forall₂_same]
    intro b hb
    refine ⟨.rfl, ?_, ?_⟩
    · intro bs bs' hm hm'
      rw [hm, Option.some.injEq] at hm'
      subst hm'
      exact hbody b hb bs (fun v => (matchPat_keys I.dest (hbl b hb).2.1 hm v).mpr)
    · apply hbody b hb
      intro v hv
      simpa [dfltVars] using hv
  | teps a v f ih =>
    intro hwt ρ ρ' h
    simp only [freeVars, mem_filter, decide_eq_true_eq] at h
    have hP : ∀ d, I.Holds (update ρ v d) f = I.Holds (update ρ' v d) f := by
      intro d
      rw [Holds, Holds, ih hwt.2 (fun w hw => update_agree rfl (fun hwv => h w ⟨hw, hwv⟩))]
    rw [sem_teps, sem_teps]
    simp only [hP]
  | tquant a q vl trl f _ ih =>
    intro hwt ρ ρ' h
    simp only [freeVars, mem_append, mem_filter, decide_eq_true_eq] at h
    have hq : I.quant q vl (fun ρ => I.Holds ρ f) ρ ↔ I.quant q vl (fun ρ => I.Holds ρ f) ρ' := by
      refine quant_congr (F := f.freeVars) ?_ (fun v hv hvl => h v ⟨.inr hv, hvl⟩)
      intro ρ ρ' hρ
      rw [Holds, Holds, ih hwt.2.2 hρ]
    have := propext hq
    simp only [Holds] at this
    simp only [sem, this]
  | tbinop a op f g ihf ihg =>
    intro hwt ρ ρ' h
    simp only [freeVars, mem_append] at h
    simp only [sem, ihf hwt.2.2.1 (fun v hv => h v (.inl hv)),
      ihg hwt.2.2.2 (fun v hv => h v (.inr hv))]
  | tnot a f ih =>
    intro hwt ρ ρ' h
    simp only [sem, ih hwt.2 h]

theorem eval_congr (hwt : t.Wt sig) (h : ∀ v ∈ t.freeVars, ρ v = ρ' v) :
    I.eval ρ t = I.eval ρ' t := by
  rw [eval, eval, sem_congr hwt h]

theorem holds_congr {f : Term} (hwt : f.Wt sig)
    (h : ∀ v ∈ f.freeVars, ρ v = ρ' v) : I.Holds ρ f ↔ I.Holds ρ' f := by
  rw [Holds, Holds, sem_congr hwt h]

end Free

/-! ## Typed values -/

section Typed

variable {I}

theorem matchArgs_mem {pl : List Pattern} (h : ∀ p ∈ pl, ∀ {d bs}, I.mem p.patTy d →
    matchPat I.dest p d = some bs → ∀ b ∈ bs, I.mem b.1.vsTy b.2) :
    ∀ {dl bs}, List.Forall₂ I.mem (pl.map patTy) dl →
      matchArgs I.dest pl dl = some bs → ∀ b ∈ bs, I.mem b.1.vsTy b.2 := by
  induction pl with
  | nil =>
    intro dl bs hdl hm b hb
    cases hdl
    simp only [matchArgs, Option.some.injEq] at hm
    subst hm
    cases hb
  | cons p pl ih =>
    intro dl bs hdl hm b hb
    cases hdl with
    | cons hd hdl =>
      rw [matchArgs_cons, Option.bind_eq_some_iff] at hm
      obtain ⟨b₁, hp, hm⟩ := hm
      obtain ⟨b₂, hpl, rfl⟩ := Option.map_eq_some_iff.mp hm
      rcases mem_append.mp hb with hb | hb
      · exact ih (fun q hq => h q (mem_cons_of_mem _ hq)) hdl hpl b hb
      · exact h p mem_cons_self hd hp b hb

/-- A match binds variables to values of their types. -/
theorem matchPat_mem {p : Pattern} : p.Ok sig → ∀ {d bs}, I.mem p.patTy d →
    matchPat I.dest p d = some bs → ∀ b ∈ bs, I.mem b.1.vsTy b.2 := by
  induction p with
  | pwild ty =>
    intro _ d bs _ hm b hb
    simp only [matchPat, Option.some.injEq] at hm
    subst hm
    cases hb
  | pvar v =>
    intro _ d bs hd hm b hb
    simp only [matchPat, Option.some.injEq] at hm
    subst hm
    rw [mem_singleton] at hb
    subst hb
    exact hd
  | papp s pl ty ih =>
    intro hok d bs hd hm
    simp only [Pattern.Ok, okList_iff] at hok
    simp only [matchPat] at hm
    split at hm
    · next cs dl hdest =>
        split at hm
        · next hs =>
            subst hs
            have hmem := (I.dest_mem hd hdest).2
            rw [patTy] at hmem
            rw [← hok.2.1] at hmem
            exact matchArgs_mem (fun p hp => ih p hp (hok.2.2 p hp)) hmem hm
        · cases hm
    · cases hm
  | por p q hp hq =>
    intro hok d bs hd hm
    simp only [matchPat, Option.or_eq_some_iff] at hm
    rcases hm with hm | ⟨_, hm⟩
    · exact hp hok.1 hd hm
    · refine hq hok.2.1 ?_ hm
      rw [← hok.2.2.1]
      exact hd
  | pas p v ih =>
    intro hok d bs hd hm b hb
    simp only [matchPat] at hm
    obtain ⟨bs', hbs', rfl⟩ := Option.map_eq_some_iff.mp hm
    rcases mem_cons.mp hb with rfl | hb
    · exact hd
    · refine ih hok.1 ?_ hbs' b hb
      rw [hok.2]
      exact hd

theorem dflt_mem (ty : Ty) : I.mem ty (I.dflt ty) := I.eps_mem ty _

theorem typed_update (hρ : I.Typed ρ) {d : I.Val} (hd : I.mem v.vsTy d) :
    I.Typed (update ρ v d) := by
  intro w
  by_cases hwv : w = v
  · subst hwv
    rw [update_self]
    exact hd
  · rw [update_of_ne hwv]
    exact hρ w

theorem typed_bindAll (hρ : I.Typed ρ) {bs : List (VSymbol × I.Val)}
    (h : ∀ b ∈ bs, I.mem b.1.vsTy b.2) : I.Typed (bindAll ρ bs) :=
  mem_bindAll (P := fun v d => I.mem v.vsTy d) hρ h

theorem typed_dfltVars (hρ : I.Typed ρ) (p : Pattern) :
    I.Typed (bindAll ρ (I.dfltVars p)) := by
  apply typed_bindAll hρ
  intro b hb
  obtain ⟨v, _, rfl⟩ := mem_map.mp hb
  exact dflt_mem v.vsTy

/-- A well-typed term has a value of its type. -/
theorem eval_mem : t.Wt sig → ∀ {ty : Ty}, t.tTy = some ty → ∀ {ρ : I.Env},
    I.Typed ρ → I.mem ty (I.eval ρ t) := by
  induction t with
  | tvar a v =>
    intro _ ty hty ρ hρ
    cases hty
    exact hρ v
  | tconst a c ty' =>
    intro _ ty hty ρ _
    cases hty
    exact I.const_mem c ty'
  | tapp a s tl ty' ih =>
    intro hwt ty hty ρ hρ
    simp only [Wt, wtList_iff] at hwt
    simp only [tTy] at hty
    subst hty
    obtain ⟨htakes, htl⟩ := hwt
    obtain ⟨tys, htys⟩ : ∃ tys : List Ty, tl.map tTy = tys.map some := by
      obtain ⟨m, hm, _⟩ := htakes
      exact ⟨s.lsArgs.map (Ty.inst m), by rw [hm, map_map]; rfl⟩
    rw [eval_tapp, htys]
    rw [htys] at htakes
    refine I.fn_mem htakes ?_
    rw [forall₂_map_right_iff]
    have hsame : List.Forall₂ (fun o (t : Term) => o = t.tTy) (tl.map tTy) tl := by
      rw [forall₂_map_left_iff, forall₂_same]
      exact fun t _ => rfl
    rw [htys, forall₂_map_left_iff] at hsame
    refine forall₂_iff_zip.mpr ⟨hsame.length_eq, fun {ty' t} hmem => ?_⟩
    have heq := forall₂_zip hsame hmem
    have ht := (of_mem_zip hmem).2
    exact ih t ht (htl t ht) heq.symm hρ
  | tif a f t1 t2 ihf ih1 ih2 =>
    intro hwt ty hty ρ hρ
    obtain ⟨_, h12, _, h1, h2⟩ := hwt
    simp only [tTy] at hty
    rw [eval, sem_tif]
    split
    · exact ih1 h1 (h12.trans hty) hρ
    · exact ih2 h2 hty hρ
  | tlet a t v e iht ihe =>
    intro hwt ty hty ρ hρ
    obtain ⟨htv, ht, he⟩ := hwt
    rw [eval, sem_tlet]
    exact ihe he hty (typed_update hρ (iht ht htv hρ))
  | tcase a t bl iht ihb =>
    intro hwt ty hty ρ hρ
    simp only [Wt, wtBranches_iff] at hwt
    obtain ⟨hne, ht, hbl⟩ := hwt
    rw [hty] at hbl
    have hd : ∀ b ∈ bl, I.mem b.1.patTy (I.eval ρ t) :=
      fun b hb => iht ht (hbl b hb).1.symm hρ
    rw [eval, sem_tcase]
    -- all branches give values of the type, and there is one
    have hcases : ∀ bl' : List (Pattern × Term), bl' ≠ [] → (∀ b ∈ bl', b ∈ bl) →
        I.mem ty (I.branches (bl'.map (fun b => (b.1, I.sem b.2))) ⟨I.dflt tyInt, False⟩
          (I.eval ρ t) ρ).val := by
      intro bl'
      induction bl' with
      | nil => intro h; exact absurd rfl h
      | cons b bl' ihl =>
        intro _ hsub
        have hb := hsub b mem_cons_self
        obtain ⟨_, hok, _, htyb, hwtb⟩ := hbl b hb
        rw [map_cons, branches_cons]
        split
        · next bs hm =>
            exact ihb b hb hwtb htyb (typed_bindAll hρ (matchPat_mem hok (hd b hb) hm))
        · split
          · exact ihb b hb hwtb htyb (typed_dfltVars hρ b.1)
          · next hnil =>
              refine ihl ?_ (fun b hb => hsub b (mem_cons_of_mem _ hb))
              rintro rfl
              exact hnil rfl
    exact hcases bl hne (fun _ h => h)
  | teps a v f ih =>
    intro _ ty hty ρ _
    cases hty
    exact I.eps_mem v.vsTy _
  | tquant a q vl trl f _ _ | tbinop a op f g _ _ | tnot a f _ | ttrue a | tfalse a => intro _ ty hty; cases hty

end Typed

end Interp

end Why3
