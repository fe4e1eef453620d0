import Why3.Core.BoundNames
import Why3.Lib.OptionLoops

/-!
# Conditional substitution

`fmla_flatten`, `fmla_unflatten` and `fmla_cond_subst` of `transform/simplify_formula.ml`.
The sides of an equation are exchanged in the formulas that stand beside it in a
conjunction, and those of a disequation beside it in a disjunction.

The array of subformulas is a list.  The source opens each binder with fresh variables;
here the bound variables are renamed once, at the start.
-/

namespace Why3

open List

namespace CondSubst

/-! ## Lists of subformulas -/

/-- `fmla_flatten`: the subformulas under the connectives of one kind, with their signs. -/
def fmlaFlatten (conj : Bool) (sign : Bool) : Term → List (Term × Bool)
  | .tnot _ f => fmlaFlatten conj (!sign) f
  | .tbinop a .tor f1 f2 =>
    if sign ≠ conj then fmlaFlatten conj sign f1 ++ fmlaFlatten conj sign f2
    else [(.tbinop a .tor f1 f2, sign)]
  | .tbinop a .tand f1 f2 =>
    if sign = conj then fmlaFlatten conj sign f1 ++ fmlaFlatten conj sign f2
    else [(.tbinop a .tand f1 f2, sign)]
  | .tbinop a .timplies f1 f2 =>
    if sign ≠ conj then fmlaFlatten conj (!sign) f1 ++ fmlaFlatten conj sign f2
    else [(.tbinop a .timplies f1 f2, sign)]
  | f => [(f, sign)]

/-- The next subformula; `none` is the failure of `assert (sign = s)`, or the end of the
array. -/
def nextFormula (sign : Bool) (f : Term) : List (Term × Bool) → Option (Term × List (Term × Bool))
  | [] => none
  | (t, s) :: formulas => if sign = s then some (tAttrCopy f t, formulas) else none

/-- `fmla_unflatten`, with the subformulas that are still to come. -/
def fmlaUnflatten (conj : Bool) (sign : Bool) :
    Term → List (Term × Bool) → Option (Term × List (Term × Bool))
  | .tnot a f, formulas => do
    let (f', formulas) ← fmlaUnflatten conj (!sign) f formulas
    some (tAttrCopy (.tnot a f) (.tnot [] f'), formulas)
  | .tbinop a .tor f1 f2, formulas =>
    if sign ≠ conj then do
      let (f1', formulas) ← fmlaUnflatten conj sign f1 formulas
      let (f2', formulas) ← fmlaUnflatten conj sign f2 formulas
      some (tAttrCopy (.tbinop a .tor f1 f2) (.tbinop [] .tor f1' f2'), formulas)
    else nextFormula sign (.tbinop a .tor f1 f2) formulas
  | .tbinop a .tand f1 f2, formulas =>
    if sign = conj then do
      let (f1', formulas) ← fmlaUnflatten conj sign f1 formulas
      let (f2', formulas) ← fmlaUnflatten conj sign f2 formulas
      some (tAttrCopy (.tbinop a .tand f1 f2) (.tbinop [] .tand f1' f2'), formulas)
    else nextFormula sign (.tbinop a .tand f1 f2) formulas
  | .tbinop a .timplies f1 f2, formulas =>
    if sign ≠ conj then do
      let (f1', formulas) ← fmlaUnflatten conj (!sign) f1 formulas
      let (f2', formulas) ← fmlaUnflatten conj sign f2 formulas
      some (tAttrCopy (.tbinop a .timplies f1 f2) (.tbinop [] .timplies f1' f2'), formulas)
    else nextFormula sign (.tbinop a .timplies f1 f2) formulas
  | f, formulas => nextFormula sign f formulas

/-! ## Substitutions -/

/-- `do_subst`: the subformulas other than the one of the index `i`. -/
def doSubst (i : ℕ) (t1 t2 : Term) (subf : List (Term × Bool)) : List (Term × Bool) :=
  subf.mapIdx (fun j x => if j ≠ i then (tReplace t1 t2 x.1, x.2) else x)

/-- The second loop, at the index `i`. -/
def substAt (filter : Term → Term → Bool) (conj : Bool) (subf : List (Term × Bool)) (i : ℕ) :
    List (Term × Bool) :=
  match subf[i]? with
  | some (.tapp _ ls [t1, t2] _, s) =>
    if ls = psEqu ∧ s = conj then
      if filter t1 t2 then doSubst i t1 t2 subf
      else if filter t2 t1 then doSubst i t2 t1 subf
      else subf
    else subf
  | _ => subf

/-- The second loop. -/
def substAll (filter : Term → Term → Bool) (conj : Bool) (subf : List (Term × Bool)) :
    List (Term × Bool) :=
  (List.range subf.length).foldl (substAt filter conj) subf

/-- The kind of the connectives, `conj`, unless it is an equivalence. -/
def connective : Term → Option Bool
  | .tbinop _ .tand _ _ => some true
  | .tbinop _ .tor _ _ | .tbinop _ .timplies _ _ => some false
  | _ => none

theorem sizeOf_le_of_mem_flatten {conj : Bool} {f : Term} : ∀ {sign : Bool} {x : Term × Bool},
    x ∈ fmlaFlatten conj sign f → sizeOf x.1 ≤ sizeOf f := by
  induction f with
  | tnot a f ih =>
    intro sign x h
    have := ih h
    simp only [Term.tnot.sizeOf_spec]
    omega
  | tbinop a op f1 f2 ih1 ih2 =>
    intro sign x h
    cases op with
    | tiff =>
      obtain rfl := mem_singleton.mp h
      exact le_rfl
    | _ =>
      rw [fmlaFlatten] at h
      simp only [Term.tbinop.sizeOf_spec]
      split_ifs at h
      · rcases mem_append.mp h with h | h
        · have := ih1 h
          omega
        · have := ih2 h
          omega
      · obtain rfl := mem_singleton.mp h
        simp
  | _ =>
    intro sign x h
    obtain rfl := mem_singleton.mp h
    exact le_rfl

/-- The subformulas are smaller. -/
theorem sizeOf_lt_of_connective {conj : Bool} {f : Term} (hf : connective f = some conj)
    {x : Term × Bool} (h : x ∈ fmlaFlatten conj true f) : sizeOf x.1 < sizeOf f := by
  unfold connective at hf
  split at hf
  · next a f1 f2 =>
      obtain rfl := Option.some.inj hf
      rw [fmlaFlatten, if_pos rfl] at h
      simp only [Term.tbinop.sizeOf_spec]
      rcases mem_append.mp h with h | h <;> have := sizeOf_le_of_mem_flatten h <;> omega
  · next a f1 f2 =>
      obtain rfl := Option.some.inj hf
      rw [fmlaFlatten, if_pos (by decide)] at h
      simp only [Term.tbinop.sizeOf_spec]
      rcases mem_append.mp h with h | h <;> have := sizeOf_le_of_mem_flatten h <;> omega
  · next a f1 f2 =>
      obtain rfl := Option.some.inj hf
      rw [fmlaFlatten, if_pos (by decide)] at h
      simp only [Term.tbinop.sizeOf_spec]
      rcases mem_append.mp h with h | h <;> have := sizeOf_le_of_mem_flatten h <;> omega
  · cases hf

/-- `t_map`, where an exception of the function is one of the traversal. -/
def tMapOpt (t : Term) (fn : (u : Term) → u ∈ t.children → Option Term) : Option Term :=
  if t.children.attach.all (fun u => (fn u.1 u.2).isSome) then
    some (t.tMapMem (fun u hu => (fn u hu).getD u))
  else none

section Code

variable (filter : Term → Term → Bool)

/-- `aux` of `fmla_cond_subst`; `none` is the failure of an assertion. -/
def condSubstAux (f : Term) : Option Term :=
  match _ : connective f with
  | some conj => do
    let subf ← (fmlaFlatten conj true f).attach.mapM (fun x =>
      (condSubstAux x.1.1).map (·, x.1.2))
    let r ← fmlaUnflatten conj true f (substAll filter conj subf)
    some r.1
  | none => tMapOpt f (fun u _ => condSubstAux u)
termination_by sizeOf f
decreasing_by
  · have hx := x.2
    exact sizeOf_lt_of_connective ‹_› hx
  · exact Term.sizeOf_lt_of_mem_children ‹_›

/-- `fmla_cond_subst`. -/
def fmlaCondSubst (f : Term) : Option Term :=
  condSubstAux filter (f.renameBound (freshTag f.freeVars))

end Code

end CondSubst

end Why3

/-!
# Conditional substitution keeps the meaning

A subformula is rewritten with an equation that stands beside it and stays there: where the
equation fails, a conjunction is false and a disjunction true whatever the others say.
-/

namespace Why3

open List

variable {F : List VSymbol} {l : List (Term × Bool)} {conj : Bool} {k : ℕ} {x : Term × Bool}

namespace CondSubst

variable {sig : TySymbol → List LSymbol} {I : Interp sig}

/-! ## The meaning of a list of subformulas -/

/-- The truth of a subformula under its sign. -/
def Lit (I : Interp sig) (ρ : I.Env) (x : Term × Bool) : Prop :=
  if x.2 then I.Holds ρ x.1 else ¬ I.Holds ρ x.1

/-- The conjunction or the disjunction of the subformulas. -/
def Joined (I : Interp sig) (conj : Bool) (ρ : I.Env) (l : List (Term × Bool)) : Prop :=
  if conj then ∀ x ∈ l, Lit I ρ x else ∃ x ∈ l, Lit I ρ x

variable {ρ : I.Env}

theorem joined_singleton : Joined I conj ρ [x] ↔ Lit I ρ x := by
  cases conj <;> simp [Joined]

variable {l' : List (Term × Bool)}

theorem joined_append : Joined I conj ρ (l ++ l') ↔
      if conj then Joined I conj ρ l ∧ Joined I conj ρ l'
      else Joined I conj ρ l ∨ Joined I conj ρ l' := by
  cases conj with
  | true => simp [Joined, or_imp, forall_and]
  | false =>
    simp only [Joined, Bool.false_eq_true, if_false, mem_append, or_and_right, exists_or]

/-- Subformulas with the same truth. -/
theorem joined_congr
    (h : List.Forall₂ (fun x y => Lit I ρ y ↔ Lit I ρ x) l l') :
    Joined I conj ρ l' ↔ Joined I conj ρ l := by
  induction h with
  | nil => exact .rfl
  | @cons x y l l' hxy _ ih =>
    have hcons : ∀ (z : Term × Bool) (m : List (Term × Bool)), z :: m = [z] ++ m := fun _ _ => rfl
    rw [hcons x, hcons y, joined_append, joined_append, joined_singleton, joined_singleton, hxy, ih]

variable {a : Sattr} {f : Term} {sign : Bool}

theorem lit_tnot : Lit I ρ (.tnot a f, sign) ↔ Lit I ρ (f, !sign) := by
  cases sign <;> simp [Lit]

variable {op : Binop}

/-- A connective of the kind, and the signs of its operands. -/
theorem lit_tbinop {f1 f2 : Term} {sign1 : Bool}
    (h : op = .tor ∧ sign ≠ conj ∧ sign1 = sign ∨ op = .tand ∧ sign = conj ∧ sign1 = sign ∨
      op = .timplies ∧ sign ≠ conj ∧ sign1 = !sign) :
    Lit I ρ (.tbinop a op f1 f2, sign) ↔
      if conj then Lit I ρ (f1, sign1) ∧ Lit I ρ (f2, sign)
      else Lit I ρ (f1, sign1) ∨ Lit I ρ (f2, sign) := by
  have himp : ∀ p q : Prop, (p → q) ↔ ¬ p ∨ q := fun p q => imp_iff_not_or
  rcases h with ⟨rfl, hs, rfl⟩ | ⟨rfl, rfl, rfl⟩ | ⟨rfl, hs, rfl⟩
  · cases sign1 <;> cases conj <;> simp_all [Lit, Binop.tr, not_or]
  · cases sign1 <;> simp [Lit, Binop.tr, himp]
  · cases sign <;> cases conj <;> simp_all [Lit, Binop.tr]

/-! ## Flattening -/

/-- What the operands of the connectives inherit, the subformulas have. -/
theorem forall_fmlaFlatten {P : Term → Prop} (hnot : ∀ a f, P (.tnot a f) → P f)
    (hbin : ∀ a op f g, P (.tbinop a op f g) → P f ∧ P g) :
    ∀ {sign : Bool}, P f → ∀ x ∈ fmlaFlatten conj sign f, P x.1 := by
  induction f with
  | tnot a f ih => exact fun h => ih (hnot a f h)
  | tbinop a op f1 f2 ih1 ih2 =>
    intro sign h x hx
    have hsame : x ∈ [(Term.tbinop a op f1 f2, sign)] → P x.1 := by
      intro hx
      rw [mem_singleton.mp hx]
      exact h
    cases op with
    | tiff => exact hsame hx
    | _ =>
      rw [fmlaFlatten] at hx
      split_ifs at hx
      · rcases mem_append.mp hx with hx | hx
        · exact ih1 (hbin _ _ _ _ h).1 x hx
        · exact ih2 (hbin _ _ _ _ h).2 x hx
      · exact hsame hx
  | _ =>
    intro sign h x hx
    rw [mem_singleton.mp hx]
    exact h

theorem joined_fmlaFlatten : ∀ {sign : Bool},
    Joined I conj ρ (fmlaFlatten conj sign f) ↔ Lit I ρ (f, sign) := by
  induction f with
  | tnot a f ih =>
    intro sign
    rw [fmlaFlatten, ih, lit_tnot]
  | tbinop a op f1 f2 ih1 ih2 =>
    intro sign
    cases op with
    | tiff => exact joined_singleton
    | tand =>
      rw [fmlaFlatten]
      split_ifs with hs
      · rw [joined_append, ih1, ih2, lit_tbinop (.inr (.inl ⟨rfl, hs, rfl⟩))]
      · exact joined_singleton
    | tor =>
      rw [fmlaFlatten]
      split_ifs with hs
      · rw [joined_append, ih1, ih2, lit_tbinop (.inl ⟨rfl, hs, rfl⟩)]
      · exact joined_singleton
    | timplies =>
      rw [fmlaFlatten]
      split_ifs with hs
      · rw [joined_append, ih1, ih2, lit_tbinop (.inr (.inr ⟨rfl, hs, rfl⟩))]
      · exact joined_singleton
  | _ => exact joined_singleton

/-! ## Putting the subformulas back -/

/-- The subformulas are typed formulas with variables in `F` and bound variables from `k` on. -/
structure Items (sig : TySymbol → List LSymbol) (k : ℕ) (F : List VSymbol)
    (l : List (Term × Bool)) : Prop where
  wt : ∀ x ∈ l, x.1.Wt sig
  ty : ∀ x ∈ l, x.1.tTy = none
  bound : ∀ x ∈ l, Term.BoundFrom k x.1
  vars : ∀ x ∈ l, ∀ v ∈ x.1.freeVars, v ∈ F

theorem Items.of_append
    (h : Items sig k F (l ++ l')) : Items sig k F l ∧ Items sig k F l' := by
  have hl : ∀ x ∈ l, x ∈ l ++ l' := fun x hx => mem_append_left _ hx
  have hl' : ∀ x ∈ l', x ∈ l ++ l' := fun x hx => mem_append_right _ hx
  exact ⟨⟨fun x hx => h.wt x (hl x hx), fun x hx => h.ty x (hl x hx),
      fun x hx => h.bound x (hl x hx), fun x hx => h.vars x (hl x hx)⟩,
    ⟨fun x hx => h.wt x (hl' x hx), fun x hx => h.ty x (hl' x hx),
      fun x hx => h.bound x (hl' x hx), fun x hx => h.vars x (hl' x hx)⟩⟩

/-- The formula `g` stands for the subformulas `l`. -/
structure Unflattened (sig : TySymbol → List LSymbol) (conj sign : Bool) (k : ℕ)
    (F : List VSymbol) (l : List (Term × Bool)) (g : Term) : Prop where
  items : Items sig k F [(g, sign)]
  lit : ∀ (I : Interp sig) (ρ : I.Env), Lit I ρ (g, sign) ↔ Joined I conj ρ l

theorem lit_setAttrs : Lit I ρ (f.setAttrs a, sign) ↔ Lit I ρ (f, sign) := by
  simp [Lit]

theorem Unflattened.attrCopy
    {g : Term} (h : Unflattened sig conj sign k F l g) (s : Term) :
    Unflattened sig conj sign k F l (tAttrCopy s g) := by
  obtain ⟨⟨hwt, hty, hbound, hvars⟩, hlit⟩ := h
  simp only [forall_mem_singleton] at hwt hty hbound hvars
  refine ⟨⟨?_, ?_, ?_, ?_⟩, fun I ρ => lit_setAttrs.trans (hlit I ρ)⟩
  · simpa [tAttrCopy] using hwt
  · simpa using hty
  · simpa [tAttrCopy, Term.boundFrom_setAttrs] using hbound
  · simpa [tAttrCopy] using hvars

theorem Unflattened.tbinop {sign1 : Bool}
    {l1 l2 : List (Term × Bool)} {f1 f2 : Term}
    (hop : op = .tor ∧ sign ≠ conj ∧ sign1 = sign ∨ op = .tand ∧ sign = conj ∧ sign1 = sign ∨
      op = .timplies ∧ sign ≠ conj ∧ sign1 = !sign)
    (h1 : Unflattened sig conj sign1 k F l1 f1) (h2 : Unflattened sig conj sign k F l2 f2) :
    Unflattened sig conj sign k F (l1 ++ l2) (.tbinop [] op f1 f2) := by
  obtain ⟨⟨w1, t1, b1, v1⟩, hlit1⟩ := h1
  obtain ⟨⟨w2, t2, b2, v2⟩, hlit2⟩ := h2
  simp only [forall_mem_singleton] at w1 t1 b1 v1 w2 t2 b2 v2
  refine ⟨⟨?_, ?_, ?_, ?_⟩, fun I ρ => ?_⟩
  · simpa using (show (Term.tbinop [] op f1 f2).Wt sig from ⟨t1, t2, w1, w2⟩)
  · simp [Term.tTy]
  · simp only [forall_mem_singleton]
    exact .mk (by simp [Term.scopes]) (by simp [Term.scopes, b1, b2])
  · simp only [forall_mem_singleton, Term.freeVars, mem_append]
    rintro v (hv | hv)
    · exact v1 v hv
    · exact v2 v hv
  · rw [lit_tbinop hop, joined_append, hlit1 I ρ, hlit2 I ρ]

theorem nextFormula_spec {rest : List (Term × Bool)}
    (hl : l.map Prod.snd = [sign]) (hitems : Items sig k F l) :
    ∃ g, nextFormula sign f (l ++ rest) = some (g, rest) ∧ Unflattened sig conj sign k F l g := by
  obtain ⟨x, rfl⟩ := length_eq_one_iff.mp (by simpa using congrArg List.length hl)
  obtain ⟨t, s⟩ := x
  obtain rfl : s = sign := by simpa using hl
  refine ⟨tAttrCopy f t, by simp [nextFormula], ?_⟩
  exact Unflattened.attrCopy ⟨hitems, fun I ρ => joined_singleton.symm⟩ f

theorem fmlaUnflatten_spec :
    ∀ {sign : Bool} {l : List (Term × Bool)} (rest : List (Term × Bool)),
      l.map Prod.snd = (fmlaFlatten conj sign f).map Prod.snd → Items sig k F l →
      ∃ g, fmlaUnflatten conj sign f (l ++ rest) = some (g, rest) ∧
        Unflattened sig conj sign k F l g := by
  induction f with
  | tnot a f ih =>
    intro sign l rest hl hitems
    obtain ⟨g, hg, hspec⟩ := ih rest hl hitems
    refine ⟨tAttrCopy (.tnot a f) (.tnot [] g), by simp [fmlaUnflatten, hg], ?_⟩
    apply Unflattened.attrCopy
    obtain ⟨⟨hwt, hty, hbound, hvars⟩, hlit⟩ := hspec
    simp only [forall_mem_singleton] at hwt hty hbound hvars
    refine ⟨⟨?_, ?_, ?_, ?_⟩, fun I ρ => lit_tnot.trans (hlit I ρ)⟩
    · simpa using (show (Term.tnot [] g).Wt sig from ⟨hty, hwt⟩)
    · simp [Term.tTy]
    · simp only [forall_mem_singleton]
      exact .mk (by simp [Term.scopes]) (by simpa [Term.scopes] using hbound)
    · simpa [Term.freeVars] using hvars
  | tbinop a op f1 f2 ih1 ih2 =>
    intro sign l rest hl hitems
    -- the operands of a connective of the kind take their subformulas in turn
    have hboth : ∀ {sign1 : Bool}, (op = .tor ∧ sign ≠ conj ∧ sign1 = sign ∨
        op = .tand ∧ sign = conj ∧ sign1 = sign ∨ op = .timplies ∧ sign ≠ conj ∧ sign1 = !sign) →
        l.map Prod.snd =
          (fmlaFlatten conj sign1 f1 ++ fmlaFlatten conj sign f2).map Prod.snd →
        ∃ g1 rest1 g2, fmlaUnflatten conj sign1 f1 (l ++ rest) = some (g1, rest1) ∧
          fmlaUnflatten conj sign f2 rest1 = some (g2, rest) ∧
          Unflattened sig conj sign k F l
            (tAttrCopy (.tbinop a op f1 f2) (.tbinop [] op g1 g2)) := by
      intro sign1 hop hl
      rw [map_append, map_eq_append_iff] at hl
      obtain ⟨l1, l2, rfl, hl1, hl2⟩ := hl
      obtain ⟨hitems1, hitems2⟩ := hitems.of_append
      obtain ⟨g1, hg1, hspec1⟩ := ih1 (l2 ++ rest) hl1 hitems1
      obtain ⟨g2, hg2, hspec2⟩ := ih2 rest hl2 hitems2
      refine ⟨g1, l2 ++ rest, g2, by rw [append_assoc, hg1], hg2, ?_⟩
      exact (Unflattened.tbinop hop hspec1 hspec2).attrCopy _
    cases op with
    | tiff => exact nextFormula_spec hl hitems
    | tand =>
      rw [fmlaFlatten] at hl
      rw [fmlaUnflatten]
      split_ifs at hl ⊢ with hs
      · obtain ⟨g1, rest1, g2, hg1, hg2, hspec⟩ := hboth (.inr (.inl ⟨rfl, hs, rfl⟩)) hl
        exact ⟨_, by simp [hg1, hg2], hspec⟩
      · exact nextFormula_spec hl hitems
    | tor =>
      rw [fmlaFlatten] at hl
      rw [fmlaUnflatten]
      split_ifs at hl ⊢ with hs
      · obtain ⟨g1, rest1, g2, hg1, hg2, hspec⟩ := hboth (.inl ⟨rfl, hs, rfl⟩) hl
        exact ⟨_, by simp [hg1, hg2], hspec⟩
      · exact nextFormula_spec hl hitems
    | timplies =>
      rw [fmlaFlatten] at hl
      rw [fmlaUnflatten]
      split_ifs at hl ⊢ with hs
      · obtain ⟨g1, rest1, g2, hg1, hg2, hspec⟩ := hboth (.inr (.inr ⟨rfl, hs, rfl⟩)) hl
        exact ⟨_, by simp [hg1, hg2], hspec⟩
      · exact nextFormula_spec hl hitems
  | _ =>
    intro sign l rest hl hitems
    exact nextFormula_spec hl hitems

/-! ## The two loops -/

section Loop

variable {conj : Bool} {k : ℕ} {F : List VSymbol} {l : List (Term × Bool)}

theorem joined_iff_getElem? {ρ : I.Env} : Joined I conj ρ l ↔
    if conj then ∀ (j : ℕ) x, l[j]? = some x → Lit I ρ x
    else ∃ (j : ℕ) (x : _), l[j]? = some x ∧ Lit I ρ x := by
  cases conj with
  | true =>
    simp only [Joined, if_true, mem_iff_getElem?]
    exact ⟨fun h j x hx => h x ⟨j, hx⟩, fun h x ⟨j, hx⟩ => h j x hx⟩
  | false =>
    simp only [Joined, Bool.false_eq_true, if_false, mem_iff_getElem?]
    exact ⟨fun ⟨x, ⟨j, hj⟩, hx⟩ => ⟨j, x, hj, hx⟩, fun ⟨j, x, hj, hx⟩ => ⟨x, ⟨j, hj⟩, hx⟩⟩

variable {t1 t2 : Term}

/-- The other subformulas are rewritten with an equation that is among them. -/
theorem joined_doSubst {i : ℕ} {ρ : I.Env}
    (hi : l[i]? = some x)
    (hx : ¬ I.eval ρ t1 = I.eval ρ t2 → (Lit I ρ x ↔ conj = false))
    (hother : I.eval ρ t1 = I.eval ρ t2 →
      ∀ y ∈ l, (Lit I ρ (tReplace t1 t2 y.1, y.2) ↔ Lit I ρ y)) :
    Joined I conj ρ (doSubst i t1 t2 l) ↔ Joined I conj ρ l := by
  have hget : ∀ j, (doSubst i t1 t2 l)[j]? =
      l[j]?.map (fun y => if j ≠ i then (tReplace t1 t2 y.1, y.2) else y) := fun j => by
    rw [doSubst, getElem?_mapIdx]
  by_cases hval : I.eval ρ t1 = I.eval ρ t2
  · refine joined_congr (forall₂_iff_get.mpr ⟨by simp [doSubst], fun j hj hj' => ?_⟩)
    simp only [doSubst, get_eq_getElem, getElem_mapIdx]
    split_ifs
    · exact hother hval _ (getElem_mem hj)
    · exact .rfl
  · -- the equation decides, in both lists
    have hi' : (doSubst i t1 t2 l)[i]? = some x := by simp [hget, hi]
    have hlit := hx hval
    rw [joined_iff_getElem?, joined_iff_getElem?]
    cases conj with
    | true =>
      have hfalse : ¬ Lit I ρ x := fun h => Bool.noConfusion (hlit.mp h)
      exact iff_of_false (fun h => hfalse (h i x hi')) (fun h => hfalse (h i x hi))
    | false => exact iff_of_true ⟨i, x, hi', hlit.mpr rfl⟩ ⟨i, x, hi, hlit.mpr rfl⟩

/-- What a turn of the loop keeps: the signs, the types and the truth of the whole. -/
structure Kept (sig : TySymbol → List LSymbol) (conj : Bool) (k : ℕ) (F : List VSymbol)
    (l l' : List (Term × Bool)) : Prop where
  signs : l'.map Prod.snd = l.map Prod.snd
  items : Items sig k F l'
  joined : ∀ I : Interp sig, I.LitExt → I.EpsExt → ∀ ρ : I.Env, I.Typed ρ →
    (Joined I conj ρ l' ↔ Joined I conj ρ l)

theorem Kept.refl (h : Items sig k F l) : Kept sig conj k F l l :=
  ⟨rfl, h, fun _ _ _ _ _ => .rfl⟩

theorem Kept.trans {l' l'' : List (Term × Bool)} (h : Kept sig conj k F l l')
    (h' : Kept sig conj k F l' l'') : Kept sig conj k F l l'' :=
  ⟨h'.signs.trans h.signs, h'.items, fun I hlit heps ρ hρ =>
    (h'.joined I hlit heps ρ hρ).trans (h.joined I hlit heps ρ hρ)⟩

/-- What is said of the terms of an equation that is used. -/
structure Sides (sig : TySymbol → List LSymbol) (k : ℕ) (F : List VSymbol) (ty : Ty)
    (t : Term) : Prop where
  wt : t.Wt sig
  ty : t.tTy = some ty
  bound : Term.BoundFrom k t
  vars : ∀ v ∈ t.freeVars, v ∈ F

theorem wt_tReplace_of {ty : Ty} (w2 : t2.Wt sig) (h1 : t1.tTy = some ty) (h2 : t2.tTy = some ty)
    {t : Term} : t.Wt sig → (tReplace t1 t2 t).Wt sig ∧ (tReplace t1 t2 t).tTy = t.tTy := by
  induction t using Term.induct_children with
  | h t ih =>
    intro hwt
    rw [tReplace_eq]
    split_ifs with heq
    · exact ⟨w2, h2.trans ((tTy_of_tEqual heq).trans h1).symm⟩
    · exact wt_tMap (fun u hu hwu => ih u hu hwu) hwt

theorem kept_doSubst (hF : ∀ v ∈ F, v.vsName < k) (hitems : Items sig k F l) {i : ℕ}
    {ty : Ty} (h1 : Sides sig k F ty t1) (h2 : Sides sig k F ty t2)
    (hi : l[i]? = some x)
    (hx : ∀ (I : Interp sig) (ρ : I.Env), ¬ I.eval ρ t1 = I.eval ρ t2 →
      (Lit I ρ x ↔ conj = false)) : Kept sig conj k F l (doSubst i t1 t2 l) := by
  have hmem : ∀ {P : Term × Bool → Prop}, (∀ y ∈ l, P y) →
      (∀ y ∈ l, P (tReplace t1 t2 y.1, y.2)) → ∀ y ∈ doSubst i t1 t2 l, P y := by
    intro P hold hnew y hy
    obtain ⟨j, hj, rfl⟩ := mem_mapIdx.mp hy
    split_ifs
    · exact hnew _ (getElem_mem hj)
    · exact hold _ (getElem_mem hj)
  have hwt : ∀ y ∈ l, (tReplace t1 t2 y.1).Wt sig ∧ (tReplace t1 t2 y.1).tTy = y.1.tTy :=
    fun y hy => wt_tReplace_of h2.wt h1.ty h2.ty (hitems.wt y hy)
  refine ⟨?_, ⟨?_, ?_, ?_, ?_⟩, fun I hlit heps ρ hρ => joined_doSubst hi (hx I ρ) ?_⟩
  · refine ext_getElem (by simp [doSubst]) (fun j hj hj' => ?_)
    simp only [doSubst, getElem_map, getElem_mapIdx]
    split_ifs <;> rfl
  · exact hmem hitems.wt (fun y hy => (hwt y hy).1)
  · exact hmem hitems.ty (fun y hy => (hwt y hy).2.trans (hitems.ty y hy))
  · exact hmem hitems.bound (fun y hy => boundFrom_tReplace (hitems.bound y hy) h2.bound)
  · refine hmem hitems.vars (fun y hy v hv => ?_)
    exact (freeVars_tReplace hv).elim (hitems.vars y hy v) (h2.vars v)
  · intro hval y hy
    have hequiv := equivWhen_tReplace hlit heps h1.wt h2.wt h1.ty h2.ty
      (fun v hv => hF v (h1.vars v hv)) (fun v hv => hF v (h2.vars v hv)) (hitems.bound y hy)
      (hitems.wt y hy)
    have htr := hequiv.tr hρ hval (hitems.ty y hy)
    unfold Lit
    split_ifs
    · exact htr
    · exact not_congr htr

theorem kept_substAt (filter : Term → Term → Bool) (hF : ∀ v ∈ F, v.vsName < k)
    (hitems : Items sig k F l) (i : ℕ) : Kept sig conj k F l (substAt filter conj l i) := by
  unfold substAt
  split
  · next a ls t1 t2 ty s hi =>
      by_cases hs : ls = psEqu ∧ s = conj
      · rw [if_pos hs]
        obtain ⟨rfl, rfl⟩ := hs
        have hmem : (Term.tapp a psEqu [t1, t2] ty, s) ∈ l := mem_of_getElem? hi
        obtain ⟨rfl, u1, u2, tye, hu, h1, h2, w1, w2⟩ := wt_psEqu (hitems.wt _ hmem)
        obtain ⟨rfl, rfl⟩ : t1 = u1 ∧ t2 = u2 := by simpa using hu
        have hbound : Term.BoundFrom k t1 ∧ Term.BoundFrom k t2 := by
          obtain ⟨-, h⟩ := hitems.bound _ hmem
          simpa [Term.scopes] using h
        have hvars : ∀ t ∈ [t1, t2], ∀ v ∈ t.freeVars, v ∈ F := fun t ht v hv =>
          hitems.vars _ hmem v (Term.mem_freeVars_tapp ht hv)
        have hs1 : Sides sig k F tye t1 := ⟨w1, h1, hbound.1, hvars t1 (by simp)⟩
        have hs2 : Sides sig k F tye t2 := ⟨w2, h2, hbound.2, hvars t2 (by simp)⟩
        have hdecides : ∀ (I : Interp sig) (ρ : I.Env), ¬ I.eval ρ t1 = I.eval ρ t2 →
            (Lit I ρ (.tapp a psEqu [t1, t2] none, s) ↔ s = false) := by
          intro I ρ hne
          cases s <;> simp [Lit, I.holds_equ, hne]
        split_ifs
        · exact kept_doSubst hF hitems hs1 hs2 hi hdecides
        · exact kept_doSubst hF hitems hs2 hs1 hi
            (fun I ρ hne => hdecides I ρ (fun heq => hne heq.symm))
        · exact .refl hitems
      · rw [if_neg hs]
        exact .refl hitems
  · exact .refl hitems

theorem kept_substAll (filter : Term → Term → Bool) (hF : ∀ v ∈ F, v.vsName < k)
    (hitems : Items sig k F l) : Kept sig conj k F l (substAll filter conj l) := by
  have hloop : ∀ (is : List ℕ) (l' : List (Term × Bool)), Kept sig conj k F l l' →
      Kept sig conj k F l (is.foldl (substAt filter conj) l') := by
    intro is
    induction is with
    | nil => exact fun l' h => h
    | cons i is ih => exact fun l' h => ih _ (h.trans (kept_substAt filter hF h.items i))
  exact hloop _ l (.refl hitems)

end Loop

/-! ## Every formula -/

theorem tMapOpt_eq {t : Term} {g : Term → Option Term} (h : ∀ u ∈ t.children, (g u).isSome) :
    tMapOpt t (fun u _ => g u) = some (t.tMap (fun u => (g u).getD u)) := by
  have hall : t.children.attach.all (fun u => (g u.1).isSome) = true :=
    all_eq_true.mpr (fun u _ => h u.1 u.2)
  rw [tMapOpt, if_pos hall, Term.tMapMem_eq]

/-- What `aux` gives for a term. -/
structure Substituted (sig : TySymbol → List LSymbol) (k : ℕ) (t t' : Term) : Prop where
  wt : t'.Wt sig
  ty : t'.tTy = t.tTy
  equiv : ∀ I : Interp sig, I.LitExt → I.EpsExt → I.Equiv t t'
  bound : Term.BoundFrom k t'
  vars : ∀ v ∈ t'.freeVars, v ∈ t.freeVars

theorem Substituted.tMap {t : Term} {g : Term → Term} (hwt : t.Wt sig)
    (hup : Term.BoundUp k t) (h : ∀ u ∈ t.children, Substituted sig k u (g u)) :
    Substituted sig k t (t.tMap g) := by
  obtain ⟨hwt', hty⟩ := wt_tMap (fun u hu _ => ⟨(h u hu).wt, (h u hu).ty⟩) hwt
  refine ⟨hwt', hty, fun I hlit heps => ?_, ?_, ?_⟩
  · exact Interp.equiv_tMap heps (fun u hu _ => (h u hu).equiv I hlit heps) hwt
  · exact hup.from.tMap (fun u hu => (h u hu).bound)
  · exact fun v hv => freeVars_tMap (fun u hu => (h u hu).vars) hv

/-- A subformula of a formula with the variables `F`, and what `aux` gives for it. -/
structure LeafOf (sig : TySymbol → List LSymbol) (k : ℕ) (F : List VSymbol)
    (x y : Term × Bool) : Prop where
  sign : y.2 = x.2
  ty : x.1.tTy = none
  vars : ∀ v ∈ x.1.freeVars, v ∈ F
  subst : Substituted sig k x.1 y.1

theorem LeafOf.items
    (h : List.Forall₂ (LeafOf sig k F) l l') :
    l'.map Prod.snd = l.map Prod.snd ∧ Items sig k F l' := by
  induction h with
  | nil => exact ⟨rfl, by constructor <;> simp⟩
  | cons hxy _ ih =>
    obtain ⟨hsigns, hwt, hty, hbound, hvars⟩ := ih
    refine ⟨by rw [map_cons, map_cons, hxy.sign, hsigns], ?_, ?_, ?_, ?_⟩
    · exact forall_mem_cons.mpr ⟨hxy.subst.wt, hwt⟩
    · exact forall_mem_cons.mpr ⟨hxy.subst.ty.trans hxy.ty, hty⟩
    · exact forall_mem_cons.mpr ⟨hxy.subst.bound, hbound⟩
    · exact forall_mem_cons.mpr ⟨fun v hv => hxy.vars v (hxy.subst.vars v hv), hvars⟩

theorem LeafOf.lit {y : Term × Bool} (h : LeafOf sig k F x y)
    (hlit : I.LitExt) (heps : I.EpsExt) (hρ : I.Typed ρ) : Lit I ρ y ↔ Lit I ρ x := by
  have htr := (h.subst.equiv I hlit heps).tr hρ h.ty
  unfold Lit
  rw [h.sign]
  split_ifs
  · exact htr
  · exact not_congr htr

/-- What the operands of a connective inherit. -/
structure Inherited (sig : TySymbol → List LSymbol) (k : ℕ) (F : List VSymbol) (u : Term) :
    Prop where
  wt : u.Wt sig
  ty : u.tTy = none
  up : Term.BoundUp k u
  vars : ∀ v ∈ u.freeVars, v ∈ F

theorem Inherited.tnot (h : Inherited sig k F (.tnot a f)) :
    Inherited sig k F f := by
  obtain ⟨hwt, -, ⟨-, hsub⟩, hvars⟩ := h
  exact ⟨hwt.2, hwt.1, hsub ([], f) (by simp [Term.scopes]), hvars⟩

theorem Inherited.tbinop {g : Term}
    (h : Inherited sig k F (.tbinop a op f g)) : Inherited sig k F f ∧ Inherited sig k F g := by
  obtain ⟨⟨hf, hg, wf, wg⟩, -, ⟨-, hsub⟩, hvars⟩ := h
  refine ⟨⟨wf, hf, hsub ([], f) (by simp [Term.scopes]), fun v hv => hvars v ?_⟩,
    wg, hg, hsub ([], g) (by simp [Term.scopes]), fun v hv => hvars v ?_⟩
  · simp [Term.freeVars, hv]
  · simp [Term.freeVars, hv]

theorem condSubstAux_spec (filter : Term → Term → Bool) (f : Term) : ∀ {k : ℕ}, f.Wt sig →
    Term.BoundUp k f → (∀ v ∈ f.freeVars, v.vsName < k) →
      ∃ g, condSubstAux filter f = some g ∧ Substituted sig k f g := by
  induction hn : sizeOf f using Nat.strong_induction_on generalizing f with
  | _ n ih =>
    subst hn
    intro k hwt hup hk
    rw [condSubstAux]
    split
    · next conj hconn =>
        have hty : f.tTy = none := by
          unfold connective at hconn
          split at hconn
          · rfl
          · rfl
          · rfl
          · cases hconn
        -- the subformulas inherit what is assumed of the formula
        have hleaf : ∀ x ∈ fmlaFlatten conj true f, Inherited sig k f.freeVars x.1 :=
          forall_fmlaFlatten (fun _ _ h => h.tnot) (fun _ _ _ _ h => h.tbinop)
            ⟨hwt, hty, hup, fun v hv => hv⟩
        obtain ⟨subf, hsubf, hall⟩ : ∃ subf, (fmlaFlatten conj true f).attach.mapM (fun x =>
          (condSubstAux filter x.1.1).map (·, x.1.2)) = some subf ∧
          List.Forall₂ (fun x y => LeafOf sig k f.freeVars x.1 y)
            (fmlaFlatten conj true f).attach subf := by
          refine OptionLoops.mapM_forall₂ (fun x _ => ?_)
          obtain ⟨hwtx, htyx, hupx, hvars⟩ := hleaf x.1 x.2
          obtain ⟨g, hg, hsub⟩ := ih _ (sizeOf_lt_of_connective hconn x.2) x.1.1 rfl hwtx hupx
            (fun v hv => hk v (hvars v hv))
          exact ⟨(g, x.1.2), by rw [hg]; rfl, rfl, htyx, hvars, hsub⟩
        have hforall : List.Forall₂ (LeafOf sig k f.freeVars) (fmlaFlatten conj true f) subf := by
          have hmap := forall₂_map_left_iff.mpr hall
          rwa [attach_map_subtype_val] at hmap
        obtain ⟨hsigns, hitems⟩ := LeafOf.items hforall
        have hkept : Kept sig conj k f.freeVars subf (substAll filter conj subf) :=
          kept_substAll filter hk hitems
        obtain ⟨g, hg, hun⟩ := fmlaUnflatten_spec (f := f) [] (hkept.signs.trans hsigns) hkept.items
        rw [append_nil] at hg
        obtain ⟨⟨hwtg, htyg, hbound, hvars⟩, hlitg⟩ := hun
        simp only [forall_mem_singleton] at hwtg htyg hbound hvars
        refine ⟨g, ?_, hwtg, htyg.trans hty.symm, fun I hlit heps => ?_, hbound, hvars⟩
        · simp only [Option.bind_eq_bind, hsubf, Option.bind_some, hg]
        · refine .of_formula hty hwtg htyg (fun {ρ} hρ => ?_)
          have hjoined : Joined I conj ρ subf ↔ Lit I ρ (f, true) :=
            (joined_congr (hforall.imp (fun x y h => h.lit hlit heps hρ))).trans
              joined_fmlaFlatten
          have hg := ((hlitg I ρ).trans (hkept.joined I hlit heps ρ hρ)).trans hjoined
          simpa [Lit] using hg
    · next hconn =>
        obtain ⟨hv, hsub⟩ := hup
        have hchild : ∀ u ∈ f.children, ∃ g, condSubstAux filter u = some g ∧
            Substituted sig k u g := by
          intro u hu
          have hmem := hu
          rw [← Term.map_snd_scopes] at hmem
          obtain ⟨c, hc, rfl⟩ := mem_map.mp hmem
          have hkc : ∀ v ∈ c.2.freeVars, v.vsName < k + c.1.length := by
            intro v hvf
            by_cases hvc : v ∈ c.1
            · exact (hv c hc v hvc).2
            · have := hk v (Term.mem_freeVars_iff.mpr (.inr ⟨c, hc, hvf, hvc⟩))
              omega
          obtain ⟨g, hg, hsubst⟩ := ih _ (Term.sizeOf_lt_of_mem_children hu) c.2 rfl
            (Term.wt_of_mem_children hwt hu) (hsub c hc) hkc
          exact ⟨g, hg, hsubst.wt, hsubst.ty, hsubst.equiv,
            hsubst.bound.mono (Nat.le_add_right _ _), hsubst.vars⟩
        refine ⟨_, tMapOpt_eq (fun u hu => ?_), Substituted.tMap hwt ⟨hv, hsub⟩ (fun u hu => ?_)⟩
        · obtain ⟨g, hg, -⟩ := hchild u hu
          rw [hg]
          rfl
        · obtain ⟨g, hg, hsubst⟩ := hchild u hu
          rw [hg]
          exact hsubst

/-- For every filter, conditional substitution gives a formula with the same truth value, and
no assertion fails. -/
theorem fmla_cond_subst_equiv (filter : Term → Term → Bool) {f : Term} (hwt : f.Wt sig)
    (hf : f.tTy = none) : ∃ g, fmlaCondSubst filter f = some g ∧ g.Wt sig ∧ g.tTy = none ∧
      ∀ I : Interp sig, I.LitExt → I.EpsExt → ∀ ρ : I.Env, I.Typed ρ →
        (I.Holds ρ g ↔ I.Holds ρ f) := by
  have hk : ∀ v ∈ f.freeVars, v.vsName < freshTag f.freeVars := fun v hv => lt_freshTag hv
  have hok : Mvs.Ok sig (freshTag f.freeVars) [] f.freeVars := by
    refine fun v hv => ⟨trivial, rfl, fun w hw => ?_⟩
    rw [mem_singleton.mp hw]
    exact hk v hv
  have hty' : (f.renameBound (freshTag f.freeVars)).tTy = f.tTy := Term.tTy_subst hok
  obtain ⟨g, hg, hsub⟩ := condSubstAux_spec filter (f.renameBound (freshTag f.freeVars))
    (Term.wt_subst hok hwt) (Term.boundUp_renameBound _ f)
    (fun v hv => hk v (Term.mem_freeVars_renameBound hv))
  refine ⟨g, hg, hsub.wt, hsub.ty.trans (hty'.trans hf), fun I hlit heps ρ hρ => ?_⟩
  exact ((Term.equiv_renameBound hk hwt).trans (hsub.equiv I hlit heps)).tr hρ hf

/-- `x = 1 /\ x = 1`, whose second equation becomes one of constants. -/
theorem fmla_cond_subst_equiv_and :
    ∃ g, fmlaCondSubst (fun _ _ => true)
        (.tbinop [] .tand LetImplies.equX LetImplies.equX) = some g ∧
      ∀ ρ : intInterp.Env, intInterp.Typed ρ → (intInterp.Holds ρ g ↔
        intInterp.Holds ρ (.tbinop [] .tand LetImplies.equX LetImplies.equX)) := by
  have hwt : (Term.tbinop [] .tand LetImplies.equX LetImplies.equX).Wt (fun _ => []) :=
    ⟨rfl, rfl, LetImplies.wt_equX, LetImplies.wt_equX⟩
  obtain ⟨g, hg, -, -, hequiv⟩ := fmla_cond_subst_equiv (fun _ _ => true) hwt rfl
  exact ⟨g, hg, hequiv intInterp litExt_intInterp epsExt_intInterp⟩

end CondSubst

end Why3
