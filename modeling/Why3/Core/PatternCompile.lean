import Why3.Core.PatternCorrect
import Why3.Core.Value

/-!
# `Pattern.compile` and its users

The correctness of `compile` on a whole matrix, and what it says about
`compile_bare`, `check_compile` and `is_exhaustive`.
-/

namespace Why3

open List

namespace Pattern

variable {sig : TySymbol → List LSymbol} {V : ValueSpace sig} {α R : Type}

/-- What the callers of `compile` provide: typed terms, rows of patterns well
typed for these, whose variables are fresh for the terms (every caller opens
its branches just before the call), and a tag `k` that is not in use yet. -/
structure Input (E : TermSem V) (evA : α → (VSymbol → V.Val) → R) (k : ℕ) (tl : List Term)
    (rl : List (Row α)) : Prop where
  wt : ∀ t ∈ tl, E.wt t
  typed : ∃ tys : List Ty, tl.map Term.tTy = tys.map some ∧
    ∀ r ∈ rl, r.1.map patTy = tys ∧ ∀ p ∈ r.1, p.Ok sig
  apart : ∀ r ∈ rl, ∀ p ∈ r.1, ∀ v ∈ p.patVars, ∀ t ∈ tl, v ∉ t.freeVars
  terms_below : ∀ t ∈ tl, ∀ v ∈ t.freeVars, v.vsName < k
  pats_below : ∀ r ∈ rl, ∀ p ∈ r.1, ∀ v ∈ p.patVars, v.vsName < k
  acts_below : ∀ r ∈ rl, Below evA k r.2

theorem le_matrixArity {rl : List (Row α)} {r : Row α} (hr : r ∈ rl) :
    rowMaxArity r.1 ≤ matrixArity rl := by
  induction rl with
  | nil => cases hr
  | cons r' rl ih =>
    simp only [matrixArity, map_cons, foldr_cons] at ih ⊢
    rcases mem_cons.mp hr with rfl | hr
    · exact le_max_left _ _
    · exact (ih hr).trans (le_max_right _ _)

theorem Input.matrixOk {E : TermSem V} {evA : α → (VSymbol → V.Val) → R} {k : ℕ}
    {tl : List Term} {rl : List (Row α)} (h : Input E evA k tl rl) :
    ∃ tys, MatrixOk E evA k (matrixArity rl) tl tys rl := by
  obtain ⟨tys, htl, hrows⟩ := h.typed
  refine ⟨tys, htl, h.wt, h.terms_below, fun r hr => ?_⟩
  exact ⟨(hrows r hr).1, (hrows r hr).2,
    fun p hp v hv => ⟨h.pats_below r hr p hp v hv, h.apart r hr p hp v hv⟩,
    rowMaxArity_le.mp (le_matrixArity hr), h.acts_below r hr⟩

/-- The actions play no part. -/
theorem Input.patterns {E : TermSem V} {evA : α → (VSymbol → V.Val) → R} {k : ℕ}
    {tl : List Term} {rl : List (Row α)} (h : Input E evA k tl rl) {β : Type} (b : β) :
    Input E (fun (_ : β) _ => ()) k tl ((rl.map Prod.fst).map (fun pl => (pl, b))) := by
  obtain ⟨tys, htl, hrows⟩ := h.typed
  exact ⟨h.wt, ⟨tys, htl, forall_mem_map.mpr (forall_mem_map.mpr hrows)⟩,
    forall_mem_map.mpr (forall_mem_map.mpr h.apart), h.terms_below,
    forall_mem_map.mpr (forall_mem_map.mpr h.pats_below), fun _ _ _ _ _ => rfl⟩

section Compile

variable {getConstructors : TySymbol → Option (List LSymbol)} (hsig : SigOk sig)
  (hmode : Mode sig getConstructors) (E : TermSem V) (evA : α → (VSymbol → V.Val) → R)
  {mkCase : Term → List (Pattern × α) → α} {mkLet : VSymbol → Term → α → α}
  (hlet : ∀ x t a ρ, evA (mkLet x t a) ρ = evA a (Function.update ρ x (E.ev ρ t)))
  (hcase : ∀ t bl ρ x, runBranches V.dest evA ρ (E.ev ρ t) bl = some x →
    evA (mkCase t bl) ρ = x)
  {k : ℕ} {tl : List Term} {rl : List (Row α)} (h : Input E evA k tl rl)
include hsig hmode hlet hcase h

theorem compile_ok {a : α} {k' : ℕ}
    (hc : compile getConstructors mkCase mkLet k tl rl = .ok (a, k')) {ρ : VSymbol → V.Val}
    (hρ : V.Typed ρ) :
    ∃ b bs, firstMatch V.dest rl (tl.map (E.ev ρ)) = some (b, bs) ∧
      evA a ρ = evA b (bindAll ρ bs) := by
  obtain ⟨tys, hM⟩ := h.matrixOk
  have hspec := compileAux_spec hsig hmode hlet hcase (compileFuel tl rl) hM
  rw [compile] at hc
  rw [hc] at hspec
  have hrun := hspec.2 ρ hρ
  rw [runRows_eq_firstMatch] at hrun
  obtain ⟨⟨b, bs⟩, hm, heq⟩ := Option.map_eq_some_iff.mp hrun
  exact ⟨b, bs, hm, heq.symm⟩

/-- The only exception is `NonExhaustive`; in particular the fuel is enough. -/
theorem compile_error {e : PatternExn}
    (hc : compile getConstructors mkCase mkLet k tl rl = .error e) :
    ∃ pl, e = .nonExhaustive pl ∧
      (∃ ds, List.Forall₂ (Compat V) tl ds ∧ NoMatch V.dest rl ds) ∧
      (getConstructors = (fun ts => some (sig ts)) → (∀ t ∈ tl, ∃ a v, t = .tvar a v) →
        ∀ ds, matchRow V.dest pl ds ≠ none → NoMatch V.dest rl ds) := by
  obtain ⟨tys, hM⟩ := h.matrixOk
  have hspec := compileAux_spec hsig hmode hlet hcase (compileFuel tl rl) hM
  rw [compile] at hc
  rw [hc] at hspec
  cases e with
  | nonExhaustive pl => exact ⟨pl, rfl, hspec.2⟩
  | outOfFuel =>
    simp only [Spec, ErrSpec, compileFuel] at hspec
    omega
  | constructorExpected fs ty | termExpected t | assertFalse => exact hspec.elim

/-- `compile` ends with a result or with `NonExhaustive`.  Its result does what
the first row that matches does, under the bindings of this match; after
`NonExhaustive` some values of the terms match no row, and, when the
constructors are known and the terms are variables, nothing that the returned
patterns match is matched by a row. -/
theorem compile_correct :
    match compile getConstructors mkCase mkLet k tl rl with
    | .ok (a, _) => ∀ ρ, V.Typed ρ → ∃ b bs,
        firstMatch V.dest rl (tl.map (E.ev ρ)) = some (b, bs) ∧ evA a ρ = evA b (bindAll ρ bs)
    | .error (.nonExhaustive pl) =>
      (∃ ds, List.Forall₂ (Compat V) tl ds ∧ NoMatch V.dest rl ds) ∧
      (getConstructors = (fun ts => some (sig ts)) → (∀ t ∈ tl, ∃ a v, t = .tvar a v) →
        ∀ ds, matchRow V.dest pl ds ≠ none → NoMatch V.dest rl ds)
    | .error _ => False := by
  cases hc : compile getConstructors mkCase mkLet k tl rl with
  | ok r => exact fun ρ hρ => compile_ok hsig hmode E evA hlet hcase h hc hρ
  | error e =>
    obtain ⟨pl, rfl, hpl⟩ := compile_error hsig hmode E evA hlet hcase h hc
    exact hpl

end Compile

/-! ## A matrix for lists

`Nil -> 0 | Cons h _ -> h`, with functions of the valuation as actions. -/

section Lists

open Why3.Lists

abbrev Action := (VSymbol → Value) → ℕ

def actLet (x : VSymbol) (t : Term) (a : Action) : Action :=
  fun ρ => a (Function.update ρ x (Value.eval ρ t))

def actCase (t : Term) (bl : List (Pattern × Action)) : Action :=
  fun ρ => (runBranches (Value.dest listSig) (fun (a : Action) ρ => a ρ) ρ
    (Value.eval ρ t) bl).getD 0

def number : Value → ℕ
  | .atom _ n => n
  | .con _ _ => 0

def headOr0 : List (Row Action) :=
  [([.papp fsNil [] (listTy tyInt)], fun _ => 0),
   ([.papp fsCons [.pvar ⟨105, tyInt⟩, .pwild (listTy tyInt)] (listTy tyInt)],
    fun ρ => number (ρ ⟨105, tyInt⟩))]

theorem headOr0_patVars : ∀ r ∈ headOr0, ∀ p ∈ r.1, ∀ v ∈ p.patVars, v = ⟨105, tyInt⟩ := by
  simp [headOr0, patVars]

theorem input_headOr0 : Input (constructorSem exists_hasTy) (fun (a : Action) ρ => a ρ) 106
    [.tvar [] ⟨104, listTy tyInt⟩] headOr0 where
  wt := forall_mem_singleton.mpr (.var _ _)
  typed := by
    refine ⟨[listTy tyInt], rfl, ?_⟩
    simp only [headOr0, forall_mem_cons, not_mem_nil, false_implies, implies_true,
      and_true, Ok, OkList]
    decide
  apart := by
    intro r hr p hp v hv
    rw [headOr0_patVars r hr p hp v hv]
    decide
  terms_below := by decide
  pats_below := by
    intro r hr p hp v hv
    rw [headOr0_patVars r hr p hp v hv]
    decide
  acts_below := by
    simp only [headOr0, forall_mem_cons, not_mem_nil, false_implies, implies_true,
      and_true]
    exact ⟨fun _ _ _ => rfl, fun ρ ρ' h => congrArg number (h ⟨105, tyInt⟩ (by decide))⟩

theorem compile_correct_headOr0 :
    ∃ a k', compile (fun ts => some (listSig ts)) actCase actLet 106
        [.tvar [] ⟨104, listTy tyInt⟩] headOr0 = .ok (a, k') ∧
      ∀ ρ, (constructorSpace listSig exists_hasTy).Typed ρ → ∃ b bs,
        firstMatch (Value.dest listSig) headOr0 [ρ ⟨104, listTy tyInt⟩] = some (b, bs) ∧
          a ρ = b (bindAll ρ bs) := by
  have hcase : ∀ t bl ρ x, runBranches (Value.dest listSig) (fun (a : Action) ρ => a ρ) ρ
      (Value.eval ρ t) bl = some x → actCase t bl ρ = x := by
    intro t bl ρ x hx
    rw [actCase, hx, Option.getD_some]
  exact ⟨_, _, rfl, compile_correct sigOk_listSig (.inl rfl) (constructorSem exists_hasTy)
    (fun (a : Action) ρ => a ρ) (fun _ _ _ _ => rfl) hcase input_headOr0⟩

end Lists

/-! ## Exhaustiveness checks -/

section Exhaustive

variable {E : TermSem V} {k : ℕ} {tl : List Term} {ppl : List (List Pattern)}

/-- Every value of the terms matches a row. -/
def Exhaustive (E : TermSem V) (tl : List Term) (ppl : List (List Pattern)) : Prop :=
  ∀ ρ, V.Typed ρ → ∃ pl ∈ ppl, matchRow V.dest pl (tl.map (E.ev ρ)) ≠ none

/-- No row matches. -/
def Missed (V : ValueSpace sig) (ppl : List (List Pattern)) (ds : List V.Val) : Prop :=
  ∀ pl ∈ ppl, matchRow V.dest pl ds = none

/-- Compiling for the sake of exhaustiveness only: the actions do not matter. -/
theorem exhaustive_of_compile (hsig : SigOk sig)
    {getConstructors : TySymbol → Option (List LSymbol)} (hmode : Mode sig getConstructors)
    {mkCase : Term → List (Pattern × α) → α} {mkLet : VSymbol → Term → α → α} {a : α}
    {r : α × ℕ} (h : Input E (fun (_ : α) _ => ()) k tl (ppl.map (fun pl => (pl, a))))
    (hc : compile getConstructors mkCase mkLet k tl (ppl.map (fun pl => (pl, a))) = .ok r) :
    Exhaustive E tl ppl := by
  intro ρ hρ
  obtain ⟨b, bs, hm, _⟩ := compile_ok hsig hmode E (fun (_ : α) _ => ())
    (fun _ _ _ _ => rfl) (fun _ _ _ _ _ => rfl) h hc hρ
  obtain ⟨row, hrow, hm⟩ := exists_of_findSome?_eq_some hm
  obtain ⟨pl, hpl, rfl⟩ := mem_map.mp hrow
  refine ⟨pl, hpl, fun hn => ?_⟩
  simp [hn] at hm

/-- `check_compile` returns on exhaustive matrices only; after `NonExhaustive pl`,
values of the terms match no row, and, for variables, no value that `pl` matches does. -/
theorem checkCompile_correct (ppl : List (List Pattern)) (hsig : SigOk sig) (hne : tl ≠ [])
    (h : Input E (fun (_ : Unit) _ => ()) (k + (ppl.headD []).length) tl
      (ppl.map (fun pl => (pl, ())))) :
    match checkCompile (fun ts => some (sig ts)) k tl ppl with
    | .ok _ => Exhaustive E tl ppl
    | .error (.nonExhaustive pl) =>
      (ppl = [] ∨ ∃ ds, Forall₂ (Compat V) tl ds ∧ Missed V ppl ds) ∧
      ((∀ t ∈ tl, ∃ a v, t = .tvar a v) → ∀ ds, matchRow V.dest pl ds ≠ none → Missed V ppl ds)
    | .error _ => False := by
  cases ppl with
  | nil => exact ⟨.inl rfl, by simp [Missed]⟩
  | cons pl ppl =>
    rw [checkCompile, checkTerms, if_neg (by simpa using hne)]
    cases hr : compile (fun ts => some (sig ts)) (fun _ _ => ()) (fun _ _ _ => ())
        (k + pl.length) tl ((pl :: ppl).map (fun pl => (pl, ()))) with
    | ok r => exact exhaustive_of_compile hsig (.inl rfl) h hr
    | error e =>
      obtain ⟨pl', rfl, ⟨ds, hds, hno⟩, hpl⟩ := compile_error hsig (.inl rfl) E
        (fun (_ : Unit) _ => ()) (fun _ _ _ _ => rfl) (fun _ _ _ _ _ => rfl) h hr
      exact ⟨.inr ⟨ds, hds, forall_mem_map.mp hno⟩,
        fun hv ds hm => forall_mem_map.mp (hpl rfl hv ds hm)⟩

open Why3.Lists in
theorem checkCompile_headOr0 : Exhaustive (constructorSem exists_hasTy)
    [.tvar [] ⟨104, listTy tyInt⟩] (headOr0.map Prod.fst) := by
  have h := checkCompile_correct (headOr0.map Prod.fst) sigOk_listSig (cons_ne_nil _ _)
    (show Input _ _ (105 + 1) _ _ from input_headOr0.patterns ())
  exact h

/-- `is_exhaustive` answers, and says yes only to exhaustive matrices. -/
theorem isExhaustive_spec (hsig : SigOk sig) (hne : tl ≠ [])
    (h : Input E (fun (_ : Bool) _ => ()) (k + (ppl.headD []).length) tl
      (ppl.map (fun pl => (pl, true)))) :
    ∃ b, isExhaustive k tl ppl = .ok b ∧ (b = true → Exhaustive E tl ppl) := by
  cases ppl with
  | nil => exact ⟨false, rfl, by simp⟩
  | cons pl ppl =>
    rw [isExhaustive, checkTerms, if_neg (by simpa using hne)]
    cases hr : compile (fun _ => none) (fun _ _ => true) (fun _ _ _ => true)
        (k + pl.length) tl ((pl :: ppl).map (fun pl => (pl, true))) with
    | ok r => exact ⟨r.1, rfl, fun _ => exhaustive_of_compile hsig (.inr rfl) h hr⟩
    | error e =>
      obtain ⟨pl', rfl, _⟩ := compile_error hsig (.inr rfl) E (fun (_ : Bool) _ => ())
        (fun _ _ _ _ => rfl) (fun _ _ _ _ _ => rfl) h hr
      exact ⟨false, rfl, by simp⟩

end Exhaustive

end Pattern

end Why3
