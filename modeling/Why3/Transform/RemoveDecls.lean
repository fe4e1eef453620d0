import Why3.Core.Validity
import Why3.Transform.RemoveUnusedCorrect
import Why3.Transform.Trans
import Why3.Util.RealLiteral

/-!
# Dropping declarations

`transform/eliminate_unknown_types.ml`, `transform/eliminate_symbol.ml` and
`eliminate_big_constants` of `transform/eliminate_literal.ml`: declarations that a prover
cannot read are dropped, and a goal that it cannot read becomes `false`.  Whether a
declaration uses one that was dropped is not always seen; the result can be built when none
that stays does.
-/

namespace Why3

namespace Term

mutual
/-- A subterm satisfies the predicate, the term itself included. -/
def anySub (p : Term → Bool) : Term → Bool
  | .tapp a s tl ty => p (.tapp a s tl ty) || anySubList p tl
  | .tif a f t1 t2 => p (.tif a f t1 t2) || f.anySub p || t1.anySub p || t2.anySub p
  | .tlet a t v e => p (.tlet a t v e) || t.anySub p || e.anySub p
  | .tcase a t bl => p (.tcase a t bl) || t.anySub p || anySubBranches p bl
  | .teps a v f => p (.teps a v f) || f.anySub p
  | .tquant a q vl trl f => p (.tquant a q vl trl f) || f.anySub p || anySubTriggers p trl
  | .tbinop a op f g => p (.tbinop a op f g) || f.anySub p || g.anySub p
  | .tnot a f => p (.tnot a f) || f.anySub p
  | t => p t
def anySubList (p : Term → Bool) : List Term → Bool
  | [] => false
  | t :: tl => t.anySub p || anySubList p tl
def anySubBranches (p : Term → Bool) : List (Pattern × Term) → Bool
  | [] => false
  | (_, t) :: bl => t.anySub p || anySubBranches p bl
def anySubTriggers (p : Term → Bool) : List (List Term) → Bool
  | [] => false
  | tr :: trl => anySubList p tr || anySubTriggers p trl
end

attribute [grind =] anySub anySubList anySubBranches anySubTriggers

end Term

variable {s : List LSymbol}

namespace RemoveDecls

open List Checks Why3.Task Why3.Trans

/-- `create_prop_decl Pgoal pr t_false`. -/
def goalFalse (pr : PrSymbol) : Decl := ⟨.dprop .pgoal pr (.tfalse []), [pr.prName]⟩

/-- The body of a definition satisfies the predicate. -/
def bodyAny (p : Term → Bool) (ld : LSymbol × LsDefn) : Bool :=
  (openLsDefn ld.2).any fun b => p b.2

/-! ## Unknown types -/

section UnknownTypes

variable (keep : TySymbol → Bool)

def keepTy (ty : Ty) : Bool := ty.symbols.all keep

def keepLs (ls : LSymbol) : Bool := ls.lsArgs.all (keepTy keep) && ls.lsValue.all (keepTy keep)

def keepTerm (t : Term) : Bool := t.types.all (keepTy keep) && t.tTy.all (keepTy keep)

/-- Only the immediate subterms are looked at, and only their heads. -/
def isRemoved (alreadyRemoved : List LSymbol) (t : Term) : Bool :=
  t.children.any fun
    | .tapp _ ls _ _ => decide (ls ∈ alreadyRemoved)
    | _ => false

def removeTerms (alreadyRemoved : List LSymbol) (d : Decl) : List LSymbol × List Decl :=
  let removed (t : Term) := !keepTerm keep t || isRemoved alreadyRemoved t
  match d.dNode with
  | .dtype ts => (alreadyRemoved, if keep ts then [d] else [])
  | .ddata tdl => (alreadyRemoved, if tdl.all (fun td => keep td.1) then [d] else [])
  | .dparam ls => if keepLs keep ls then (alreadyRemoved, [d]) else (ls :: alreadyRemoved, [])
  | .dlogic ldl =>
    if ldl.any (fun ld => !keepLs keep ld.1 || bodyAny removed ld) then
      (ldl.map Prod.fst ++ alreadyRemoved, [])
    else (alreadyRemoved, [d])
  | .dprop .pgoal pr f => (alreadyRemoved, if removed f then [goalFalse pr] else [d])
  | .dprop _ _ f => (alreadyRemoved, if removed f then [] else [d])
  | .dind _ _ => (alreadyRemoved, [d])

end UnknownTypes

/-! ## Tagged symbols -/

section Symbols

variable (elimLs : LSymbol → Bool)

def elim (t : Term) : Bool :=
  t.anySub fun
    | .tapp _ ls _ _ => elimLs ls
    | _ => false

def eliminateSymbol (d : Decl) : List Decl :=
  match d.dNode with
  | .dparam ls => if elimLs ls then [] else [d]
  | .dlogic ldl => if ldl.any (fun ld => elimLs ld.1 || bodyAny (elim elimLs) ld) then [] else [d]
  | .dprop .pgoal pr f => if elim elimLs f then [goalFalse pr] else [d]
  | .dprop _ _ f => if elim elimLs f then [] else [d]
  | _ => [d]

end Symbols

/-! ## Big constants -/

def maxReal : RealValue := Number.realValue 970 0 0x1FFFFFFFFFFFFF
def minReal : RealValue := Number.realValue (-1024) 0 1
def maxInt : ℤ := 0x80000000

def constantTooBig : Term → Bool
  | .tconst _ (.constReal _ r) _ =>
    let r := Number.realValue r.rvPow2 r.rvPow5 |r.rvSig|
    decide (Number.compareReal false r maxReal > 0) ||
      (decide (Number.compareReal false r minReal ≤ 0) && decide (r.rvSig ≠ 0))
  | .tconst _ (.constInt _ i) _ => decide (maxInt ≤ |i|)
  | _ => false

def eliminateBigConstants (d : Decl) : List Decl :=
  match d.dNode with
  | .dprop .pgoal _ _ => [d]
  | .dprop _ _ f => if f.children.any (Term.anySub constantTooBig) then [] else [d]
  | .dlogic ldl => if ldl.any (bodyAny (Term.anySub constantTooBig)) then [] else [d]
  | _ => [d]

/-! ## The transformations -/

inductive Elimination
  | unknownTypes (keep : TySymbol → Bool)
  | symbols (elimLs : LSymbol → Bool)
  | bigConstants

/-- What becomes of a declaration, and the symbols that are known to be removed. -/
def Elimination.step (e : Elimination) (removed : List LSymbol) (d : Decl) :
    List LSymbol × List Decl :=
  match e with
  | .unknownTypes keep => removeTerms keep removed d
  | .symbols elimLs => (removed, eliminateSymbol elimLs d)
  | .bigConstants => (removed, eliminateBigConstants d)

def Elimination.apply (e : Elimination) (k : ℕ) (t : Task) : Except TaskExn Task :=
  decl k id (fun s d => .ok (e.step s d)) [] t

/-- The state after the declarations of a list, the last one first, and those that stay. -/
def Elimination.run (e : Elimination) : List Decl → List LSymbol × List Decl
  | [] => ([], [])
  | d :: ds =>
    let (removed, kept) := e.run ds
    let (removed, dl) := e.step removed d
    (removed, dl ++ kept)

/-! ## What is dropped -/

/-- The symbols of a parameter or a definition. -/
def symbolsOf (d : Decl) : List LSymbol :=
  match d.dNode with
  | .dparam ls => [ls]
  | .dlogic ldl => ldl.map Prod.fst
  | _ => []

section Drops

variable (removed : LSymbol → Prop)

/-- A type symbol that the prover does not know. -/
def Elimination.BadTs : Elimination → TySymbol → Prop
  | .unknownTypes keep, ts => keep ts = false
  | .symbols _, _ | .bigConstants, _ => False

/-- A symbol with an unknown type, or a tagged one. -/
def Elimination.BadLs : Elimination → LSymbol → Prop
  | .unknownTypes keep, ls => keepLs keep ls = false
  | .symbols elimLs, ls => elimLs ls = true
  | .bigConstants, _ => False

/-- A term with an unknown type, or with a removed symbol at the head of an immediate
subterm; a term with a tagged symbol; a term with a big constant. -/
def Elimination.BadTerm : Elimination → Term → Prop
  | .unknownTypes keep, t => keepTerm keep t = false ∨
      ∃ a ls tl ty, .tapp a ls tl ty ∈ t.children ∧ removed ls
  | .symbols elimLs, t => elim elimLs t = true
  | .bigConstants, t => t.anySub constantTooBig = true

/-- The same for a formula, where a big constant is looked for below it. -/
def Elimination.BadFmla : Elimination → Term → Prop
  | .bigConstants, f => ∃ t ∈ f.children, t.anySub constantTooBig = true
  | e, f => e.BadTerm removed f

/-- A declaration that is dropped when `removed` are the symbols that were removed. -/
def Elimination.Drops (e : Elimination) (d : Decl) : Prop :=
  match d.dNode with
  | .dtype ts => e.BadTs ts
  | .ddata tdl => ∃ td ∈ tdl, e.BadTs td.1
  | .dparam ls => e.BadLs ls
  | .dlogic ldl => ∃ ld ∈ ldl, e.BadLs ld.1 ∨ ∃ b, openLsDefn ld.2 = some b ∧ e.BadTerm removed b.2
  | .dprop .pgoal _ _ => False
  | .dprop _ _ f => e.BadFmla removed f
  | .dind _ _ => False

/-- A goal that becomes `false`. -/
def Elimination.Falsifies : Elimination → Decl → Prop
  | .bigConstants, _ => False
  | e, d => ∃ pr f, d.dNode = .dprop .pgoal pr f ∧ e.BadTerm removed f

end Drops

/-- The symbols of the parameters and definitions that are dropped from a task, the last
declaration first. -/
def Elimination.Removed (e : Elimination) : List Decl → LSymbol → Prop
  | [], _ => False
  | d :: ds, ls => e.Removed ds ls ∨ (ls ∈ symbolsOf d ∧ e.Drops (e.Removed ds) d)

/-- A declaration that stays uses a type, logic or proposition symbol of an earlier one that
is dropped. -/
def Elimination.NeedsDropped (e : Elimination) (l : List Decl) : Prop :=
  ∃ ds₁ d ds₂ o ds₃, l = ds₁ ++ d :: (ds₂ ++ o :: ds₃) ∧
    ¬ e.Drops (e.Removed (ds₂ ++ o :: ds₃)) d ∧ ¬ e.Falsifies (e.Removed (ds₂ ++ o :: ds₃)) d ∧
    e.Drops (e.Removed ds₃) o ∧ ∃ id ∈ getUsedSymsDecl d, id ∈ o.dNews

theorem isRemoved_iff {t : Term} : isRemoved s t = true ↔
    ∃ a ls tl ty, .tapp a ls tl ty ∈ t.children ∧ ls ∈ s := by
  rw [isRemoved, any_eq_true]
  constructor
  · rintro ⟨u, hu, h⟩
    split at h
    · next a ls tl ty => exact ⟨a, ls, tl, ty, hu, of_decide_eq_true h⟩
    · cases h
  · rintro ⟨a, ls, tl, ty, hu, h⟩
    exact ⟨_, hu, decide_eq_true h⟩

theorem bodyAny_iff {p : Term → Bool} {ld : LSymbol × LsDefn} :
    bodyAny p ld = true ↔ ∃ b, openLsDefn ld.2 = some b ∧ p b.2 = true := by
  rw [bodyAny, Option.any_eq_true]

/-- The terms that `remove_terms` gives up. -/
theorem badTerm_iff {keep : TySymbol → Bool} {removed : LSymbol → Prop}
    (hs : ∀ ls, ls ∈ s ↔ removed ls) {t : Term} :
    (!keepTerm keep t || isRemoved s t) = true ↔
      (Elimination.unknownTypes keep).BadTerm removed t := by
  rw [Bool.or_eq_true, Bool.not_eq_true', isRemoved_iff]
  simp only [hs, Elimination.BadTerm]

section UnknownTypes

variable {keep : TySymbol → Bool} {removed : LSymbol → Prop} (hs : ∀ ls, ls ∈ s ↔ removed ls)
include hs

theorem logic_iff {ldl : List (LSymbol × LsDefn)} :
    ldl.any (fun ld => !keepLs keep ld.1 ||
      bodyAny (fun t => !keepTerm keep t || isRemoved s t) ld) = true ↔
    ∃ ld ∈ ldl, (Elimination.unknownTypes keep).BadLs ld.1 ∨
      ∃ b, openLsDefn ld.2 = some b ∧ (Elimination.unknownTypes keep).BadTerm removed b.2 := by
  simp only [any_eq_true, Bool.or_eq_true (!keepLs keep _), Bool.not_eq_true', bodyAny_iff,
    badTerm_iff hs, Elimination.BadLs]

theorem removeTerms_spec (d : Decl) :
    (∀ ls, ls ∈ (removeTerms keep s d).1 ↔ removed ls ∨
      (ls ∈ symbolsOf d ∧ (Elimination.unknownTypes keep).Drops removed d)) ∧
    (((Elimination.unknownTypes keep).Drops removed d ∧ (removeTerms keep s d).2 = []) ∨
    ((Elimination.unknownTypes keep).Falsifies removed d ∧ ∃ pr f, d.dNode = .dprop .pgoal pr f ∧
      (removeTerms keep s d).2 = [goalFalse pr]) ∨
    (¬ (Elimination.unknownTypes keep).Drops removed d ∧
      ¬ (Elimination.unknownTypes keep).Falsifies removed d ∧ (removeTerms keep s d).2 = [d])) := by
  simp only [removeTerms, symbolsOf, Elimination.Drops, Elimination.Falsifies]
  cases hd : d.dNode with
  | dtype ts => by_cases h : keep ts <;> simp [h, hs, Elimination.BadTs]
  | ddata tdl =>
    have hi : (∃ td ∈ tdl, keep td.1 = false) ↔ ¬ tdl.all (fun td => keep td.1) = true := by
      simp
    simp only [Elimination.BadTs, hi]
    split_ifs with h <;> simp [h, hs]
  | dparam ls => by_cases h : keepLs keep ls <;> simp [h, hs, Elimination.BadLs, or_comm]
  | dlogic ldl =>
    have hi := @logic_iff s keep removed hs ldl
    simp only [← hi]
    split_ifs with h <;> simp [h, hs, or_comm]
  | dprop k pr f =>
    have hi := @badTerm_iff s keep removed hs f
    by_cases h : (!keepTerm keep f || isRemoved s f) = true
    · cases k <;> simp [h, hs, hi.1 h, Elimination.BadFmla]
    · cases k <;> simp [h, hs, mt hi.2 h, Elimination.BadFmla]
  | dind k l => simp [hs]

end UnknownTypes

/-- The symbols that `eliminate_unknown_types` has collected. -/
theorem mem_run_state (keep : TySymbol → Bool) (ds : List Decl) (ls : LSymbol) :
    ls ∈ ((Elimination.unknownTypes keep).run ds).1 ↔
      (Elimination.unknownTypes keep).Removed ds ls := by
  induction ds generalizing ls with
  | nil => simp [Elimination.run, Elimination.Removed]
  | cons d ds ih => exact (removeTerms_spec ih d).1 ls

theorem step_spec (e : Elimination) (ds : List Decl) (d : Decl) :
    (e.Drops (e.Removed ds) d ∧ (e.step (e.run ds).1 d).2 = []) ∨
    (e.Falsifies (e.Removed ds) d ∧ ∃ pr f, d.dNode = .dprop .pgoal pr f ∧
      (e.step (e.run ds).1 d).2 = [goalFalse pr]) ∨
    (¬ e.Drops (e.Removed ds) d ∧ ¬ e.Falsifies (e.Removed ds) d ∧
      (e.step (e.run ds).1 d).2 = [d]) := by
  cases e with
  | unknownTypes keep => exact (removeTerms_spec (mem_run_state keep ds) d).2
  | symbols elimLs =>
    simp only [Elimination.step, eliminateSymbol, Elimination.Drops, Elimination.Falsifies]
    cases hd : d.dNode with
    | dparam ls => by_cases h : elimLs ls <;> simp [h, Elimination.BadLs]
    | dlogic ldl =>
      have hi : ldl.any (fun ld => elimLs ld.1 || bodyAny (elim elimLs) ld) = true ↔
          ∃ ld ∈ ldl, elimLs ld.1 = true ∨ ∃ b, openLsDefn ld.2 = some b ∧
            elim elimLs b.2 = true := by
        simp only [any_eq_true, Bool.or_eq_true, bodyAny_iff]
      simp only [Elimination.BadLs, Elimination.BadTerm, ← hi]
      split_ifs with h <;> simp [h]
    | dprop k pr f =>
      by_cases h : elim elimLs f = true <;>
        cases k <;> simp [h, Elimination.BadFmla, Elimination.BadTerm]
    | _ => simp [Elimination.BadTs]
  | bigConstants =>
    simp only [Elimination.step, eliminateBigConstants, Elimination.Drops, Elimination.Falsifies]
    cases hd : d.dNode with
    | dlogic ldl =>
      have hi : ldl.any (bodyAny (Term.anySub constantTooBig)) = true ↔
          ∃ ld ∈ ldl, ∃ b, openLsDefn ld.2 = some b ∧ b.2.anySub constantTooBig = true := by
        simp only [any_eq_true, bodyAny_iff]
      simp only [Elimination.BadLs, Elimination.BadTerm, false_or, ← hi]
      split_ifs with h <;> simp [h]
    | dprop k pr f =>
      have hi : f.children.any (Term.anySub constantTooBig) = true ↔
          ∃ t ∈ f.children, t.anySub constantTooBig = true := any_eq_true
      by_cases h : f.children.any (Term.anySub constantTooBig) = true
      · cases k <;> simp only [h, Elimination.BadFmla, hi.1 h] <;> simp
      · cases k <;> simp only [h, Elimination.BadFmla, mt hi.2 h] <;> simp
    | _ => simp [Elimination.BadTs, Elimination.BadLs]

/-- A declaration is dropped or kept, or is a goal that becomes `false`. -/
theorem step_cases (e : Elimination) (removed : List LSymbol) (d : Decl) :
    (e.step removed d).2 = [] ∨ (e.step removed d).2 = [d] ∨
      ∃ pr f, d.dNode = .dprop .pgoal pr f ∧ (e.step removed d).2 = [goalFalse pr] := by
  cases e with
  | unknownTypes keep =>
    simp only [Elimination.step, removeTerms]
    split <;> (try split_ifs) <;> simp_all
  | symbols elimLs =>
    simp only [Elimination.step, eliminateSymbol]
    split <;> (try split_ifs) <;> simp_all
  | bigConstants =>
    simp only [Elimination.step, eliminateBigConstants]
    split <;> (try split_ifs) <;> simp_all

theorem step_length (e : Elimination) (removed : List LSymbol) (d : Decl) :
    (e.step removed d).2 = [] ∨ ∃ x, (e.step removed d).2 = [x] := by
  rcases step_cases e removed d with h | h | ⟨pr, f, -, h⟩
  · exact .inl h
  · exact .inr ⟨d, h⟩
  · exact .inr ⟨goalFalse pr, h⟩

variable {e : Elimination} {k : ℕ} {t t' : Task} {sig : TySymbol → List LSymbol}

theorem run_cons (d : Decl) (ds : List Decl) : e.run (d :: ds) =
    ((e.step (e.run ds).1 d).1, (e.step (e.run ds).1 d).2 ++ (e.run ds).2) := rfl

theorem mem_run {ds : List Decl} {o : Decl} (ho : o ∈ (e.run ds).2) :
    o ∈ ds ∨ ∃ d ∈ ds, ∃ pr f, d.dNode = .dprop .pgoal pr f ∧ o = goalFalse pr := by
  induction ds with
  | nil => cases ho
  | cons d ds ih =>
    rw [run_cons] at ho
    rcases mem_append.1 ho with ho | ho
    · rcases step_cases e (e.run ds).1 d with h | h | ⟨pr, f, hd, h⟩
      · rw [h] at ho
        cases ho
      · rw [h, mem_singleton] at ho
        exact .inl (ho ▸ mem_cons_self)
      · rw [h, mem_singleton] at ho
        exact .inr ⟨d, mem_cons_self, pr, f, hd, ho⟩
    · rcases ih ho with h | ⟨d', hd', h⟩
      · exact .inl (mem_cons_of_mem _ h)
      · exact .inr ⟨d', mem_cons_of_mem _ hd', h⟩

/-- What is kept of declarations without a goal. -/
theorem mem_run_iff {ds : List Decl} (hds : ∀ d ∈ ds, ∀ pr f, d.dNode ≠ .dprop .pgoal pr f)
    {o : Decl} : o ∈ (e.run ds).2 ↔ ∃ ds₂ ds₃, ds = ds₂ ++ o :: ds₃ ∧ ¬ e.Drops (e.Removed ds₃) o := by
  induction ds with
  | nil => simp [Elimination.run]
  | cons d ds ih =>
    rw [run_cons, mem_append, ih fun d' hd' => hds d' (mem_cons_of_mem _ hd')]
    have hstep : o ∈ (e.step (e.run ds).1 d).2 ↔ o = d ∧ ¬ e.Drops (e.Removed ds) d := by
      rcases step_spec e ds d with ⟨h, heq⟩ | ⟨-, pr, f, hd, -⟩ | ⟨h, -, heq⟩
      · simp [heq, h]
      · exact absurd hd (hds d mem_cons_self pr f)
      · simp [heq, h]
    rw [hstep]
    constructor
    · rintro (⟨rfl, h⟩ | ⟨ds₂, ds₃, rfl, h⟩)
      · exact ⟨[], ds, rfl, h⟩
      · exact ⟨d :: ds₂, ds₃, rfl, h⟩
    · rintro ⟨ds₂, ds₃, heq, h⟩
      cases ds₂ with
      | nil =>
        cases heq
        exact .inl ⟨rfl, h⟩
      | cons d₂ ds₂ =>
        cases heq
        exact .inr ⟨ds₂, ds₃, rfl, h⟩

/-- The declaration stays and uses a symbol of one of `ds` that is dropped. -/
def Elimination.UsesDropped (e : Elimination) (ds : List Decl) (d : Decl) : Prop :=
  ¬ e.Drops (e.Removed ds) d ∧ ¬ e.Falsifies (e.Removed ds) d ∧ ∃ ds₂ o ds₃,
    ds = ds₂ ++ o :: ds₃ ∧ e.Drops (e.Removed ds₃) o ∧ ∃ id ∈ getUsedSymsDecl d, id ∈ o.dNews

theorem needsDropped_cons {d : Decl} {ds : List Decl} :
    e.NeedsDropped (d :: ds) ↔ e.NeedsDropped ds ∨ e.UsesDropped ds d := by
  constructor
  · rintro ⟨ds₁, d', ds₂, o, ds₃, heq, hkept, hgoal, ho, hid⟩
    cases ds₁ with
    | nil =>
      cases heq
      exact .inr ⟨hkept, hgoal, ds₂, o, ds₃, rfl, ho, hid⟩
    | cons d₁ ds₁ =>
      cases heq
      exact .inl ⟨ds₁, d', ds₂, o, ds₃, rfl, hkept, hgoal, ho, hid⟩
  · rintro (⟨ds₁, d', ds₂, o, ds₃, rfl, h⟩ | ⟨hkept, hgoal, ds₂, o, ds₃, rfl, h⟩)
    · exact ⟨d :: ds₁, d', ds₂, o, ds₃, rfl, h⟩
    · exact ⟨[], d, ds₂, o, ds₃, rfl, hkept, hgoal, h⟩

theorem usedSyms_goalFalse (pr : PrSymbol) : getUsedSymsDecl (goalFalse pr) = [] := by
  simp [goalFalse, getUsedSymsDecl, symsTerm, Term.types, Term.symbols]

/-- What stays of a declaration uses symbols of declarations that stay exactly when it uses
none of a dropped one. -/
theorem step_uses_iff {ds : List Decl} {d : Decl}
    (hds : ∀ d ∈ ds, ∀ pr f, d.dNode ≠ .dprop .pgoal pr f) (hlater : (d :: ds).Pairwise Later)
    (hbefore : ∀ id ∈ getUsedSymsDecl d, id ∈ d.dNews ∨ ∃ o ∈ ds, id ∈ o.dNews) :
    (∀ x ∈ (e.step (e.run ds).1 d).2, ∀ id ∈ getUsedSymsDecl x,
      id ∈ x.dNews ∨ ∃ o ∈ (e.run ds).2, id ∈ o.dNews) ↔ ¬ e.UsesDropped ds d := by
  rcases step_spec e ds d with ⟨h, heq⟩ | ⟨h, pr, f, -, heq⟩ | ⟨h, hgoal, heq⟩
  · simp [heq, Elimination.UsesDropped, h]
  · simp [heq, Elimination.UsesDropped, h, usedSyms_goalFalse]
  obtain ⟨hnew, hold⟩ := pairwise_cons.1 hlater
  rw [heq, forall_mem_singleton]
  constructor
  · rintro huse ⟨-, -, ds₂, o, ds₃, rfl, ho, id, hid, hio⟩
    rcases huse id hid with hmem | ⟨o', ho', hid'⟩
    · exact (hnew o (by simp) id hmem).2 hio
    · -- an identifier is declared once, so the declaration that stays is the dropped one
      obtain ⟨ds₂', ds₃', heq', hkept⟩ := (mem_run_iff hds).1 ho'
      rcases append_eq_append_iff.1 heq' with ⟨l, rfl, hl⟩ | ⟨l, rfl, hl⟩ <;>
        rcases l with _ | ⟨x, l⟩ <;> cases hl
      · exact hkept ho
      · have := (pairwise_append.1 hold).2.1
        exact ((pairwise_cons.1 this).1 o' (by simp) id hio).2 hid'
      · exact hkept ho
      · have := (pairwise_append.1 (append_assoc _ _ _ ▸ hold)).2.1
        exact ((pairwise_cons.1 this).1 o (by simp) id hid').2 hio
  · intro hnot id hid
    refine (hbefore id hid).imp_right fun ⟨o, ho, hio⟩ => ?_
    obtain ⟨ds₂, ds₃, rfl⟩ := append_of_mem ho
    refine ⟨o, (mem_run_iff hds).2 ⟨ds₂, ds₃, rfl, fun hdrop => ?_⟩, hio⟩
    exact hnot ⟨h, hgoal, ds₂, o, ds₃, rfl, hdrop, id, hid, hio⟩

/-! ## The fold -/

/-- The fold of the transformation, from the first element of the task on. -/
def fold (e : Elimination) (k : ℕ) (l : List Tdecl) : Except TaskExn (List LSymbol × Task) :=
  l.reverse.foldlM (declStep k id fun s d => .ok (e.step s d)) ([], empty)

theorem fold_cons (td : Tdecl) (l : List Tdecl) : fold e k (td :: l) =
    (fold e k l).bind fun x => declStep k id (fun s d => .ok (e.step s d)) x td := by
  unfold fold
  rw [reverse_cons, foldlM_append]
  refine congrArg _ (funext fun x => ?_)
  rw [foldlM_cons]
  cases declStep k id (fun s d => .ok (e.step s d)) x td <;> rfl

theorem addOr_id (t : Task) (td : Tdecl) : addOr k id t td = addTdecl k t td := by
  unfold addOr
  cases addTdecl k t td <;> rfl

theorem declStep_nil {d : Decl} (h : (e.step s d).2 = []) (t : Task) :
    declStep k id (fun s d => .ok (e.step s d)) (s, t) (.decl d) =
      .ok ((e.step s d).1, t) := by
  show Except.bind (foldlM _ t (e.step s d).2) _ = _
  rw [h]
  rfl

theorem declStep_one {d d' : Decl} (h : (e.step s d).2 = [d']) (t : Task) :
    declStep k id (fun s d => .ok (e.step s d)) (s, t) (.decl d) =
      (addTdecl k t (.decl d')).map fun t' => ((e.step s d).1, t') := by
  show Except.bind (foldlM _ t (e.step s d).2) _ = _
  rw [h, foldlM_cons, addOr_id]
  cases addTdecl k t (.decl d') <;> rfl

theorem declStep_other {td : Tdecl} (h : ¬ td.IsDecl) (t : Task) :
    declStep k id (fun s d => .ok (e.step s d)) (s, t) td =
      (addTdecl k t td).map fun t' => (s, t') := by
  cases td with
  | decl d => exact absurd ⟨d, rfl⟩ h
  | _ =>
    show Except.bind (addOr k id t _) _ = _
    rw [addOr_id]
    cases addTdecl k t _ <;> rfl

/-- What the fold has built. -/
structure Built (e : Elimination) (k : ℕ) (t t' : Task) (s : List LSymbol) : Prop where
  run : Task.Run k t'
  state : s = (e.run (declsOf t.tdecls)).1
  decls : declsOf t'.tdecls = (e.run (declsOf t.tdecls)).2
  uses : ∀ th, t'.hasUse th = t.hasUse th
  part : t.findGoal = none → t'.findGoal = none ∧ t'.known.Part t.known

theorem addTdecl_iff (hb : t'.known.Part t.known) (hrun : Task.Run k t') (hgoal : t'.findGoal = none)
    {d : Decl} {kn : KnownMap} (hd : d.Created) (hcheck : checkDecl d = .ok d)
    (hkn : knownAddDecl k t.known d = .ok kn) :
    (∃ t₁, addTdecl k t' (.decl d) = .ok t₁) ↔ ∀ id ∈ getUsedSymsDecl d,
      id ∈ d.dNews ∨ ∃ o ∈ declsOf t'.tdecls, id ∈ o.dNews := by
  have hinv := hrun.inv
  constructor
  · rintro ⟨t₁, h⟩ id hid
    obtain ⟨-, -, kn', hkn', -⟩ := Task.newDecl_ok.1 h
    have hadded := (knownAddDecl_ok hkn').1
    have hknown := hadded.known id hid
    rw [hadded.lookup] at hknown
    split_ifs at hknown with hnew
    · exact .inl hnew
    · obtain ⟨o, ho⟩ := Option.isSome_iff_exists.1 hknown
      obtain ⟨hid', hmem⟩ := hinv.known id o ho
      exact .inr ⟨o, hmem, hid'⟩
  · intro h
    obtain ⟨kn', hkn', -⟩ := knownAddDecl_part hb hd hkn fun id hid =>
      (h id hid).imp_right fun ⟨o, ho, hid'⟩ => hinv.news o ho id hid'
    exact ⟨_, Task.newDecl_ok.2 ⟨hcheck, hgoal, kn', hkn', rfl⟩⟩

theorem addTdecl_goalFalse (hgoal : t'.findGoal = none) {pr : PrSymbol}
    (hfresh : t'.known.lookup pr.prName = none) :
    ∃ t₁, addTdecl k t' (.decl (goalFalse pr)) = .ok t₁ := by
  have hadd : knownAdd t'.known (goalFalse pr) = .ok ((pr.prName, goalFalse pr) :: t'.known) := by
    unfold knownAdd
    simp [goalFalse, hfresh, getUsedSymsDecl, symsTerm, Term.types, Term.symbols]
  have hkn : knownAddDecl k t'.known (goalFalse pr) =
      .ok ((pr.prName, goalFalse pr) :: t'.known) := by
    unfold knownAddDecl
    rw [hadd]
    rfl
  exact ⟨_, Task.newDecl_ok.2 ⟨rfl, hgoal, _, hkn, rfl⟩⟩

theorem findGoal_decl (d : Decl) (l : List Tdecl) (kn : KnownMap) :
    findGoal ⟨.decl d :: l, kn⟩ = none ↔ ∀ pr f, d.dNode ≠ .dprop .pgoal pr f := by
  rw [findGoal_eq_none]
  constructor
  · intro h pr f hd
    exact h _ rfl ⟨pr, f, d.dNews, by rw [← hd]⟩
  · rintro h td htd ⟨pr, f, n, rfl⟩
    cases htd
    exact h pr f rfl

section Decl

variable {s : List LSymbol} {d x : Decl} {kn : KnownMap} (hb : Built e k t t' s)
  (hgoal : t.findGoal = none) (hd : d.Created) (hcheck : checkDecl d = .ok d)
  (hkn : knownAddDecl k t.known d = .ok kn)

include hb hgoal hd hcheck hkn

theorem add_iff (hx : (e.step s d).2 = [x]) :
    (∃ t₁, addTdecl k t' (.decl x) = .ok t₁) ↔ ∀ id ∈ getUsedSymsDecl x,
      id ∈ x.dNews ∨ ∃ o ∈ (e.run (declsOf t.tdecls)).2, id ∈ o.dNews := by
  obtain ⟨hgoal', hpart⟩ := hb.part hgoal
  rcases step_cases e s d with h | h | ⟨pr, f, hnode, h⟩
  · rw [h] at hx
    cases hx
  · rw [h] at hx
    obtain rfl : d = x := by simpa using hx
    rw [← hb.decls]
    exact addTdecl_iff hpart hb.run hgoal' hd hcheck hkn
  · rw [h] at hx
    obtain rfl : goalFalse pr = x := by simpa using hx
    refine iff_of_true (addTdecl_goalFalse hgoal' ?_) fun id hid => ?_
    · have hnews : pr.prName ∈ d.dNews := by
        have hcreate := hd.byNode
        unfold Decl.ByNode at hcreate
        rw [hnode] at hcreate
        obtain ⟨f', -, heq⟩ := bind_eq_ok.1 hcreate
        cases heq
        exact mem_singleton_self _
      have hfresh := (knownAddDecl_ok hkn).1.fresh pr.prName hnews
      cases hl : t'.known.lookup pr.prName with
      | none => rfl
      | some o => exact absurd ((hpart.sub _ _ hl).symm.trans hfresh) (by simp)
    · simp [goalFalse, getUsedSymsDecl, symsTerm, Term.types, Term.symbols] at hid

omit hd hcheck in
theorem Built.drop (hx : (e.step s d).2 = []) :
    Built e k ⟨.decl d :: t.tdecls, kn⟩ t' (e.step s d).1 where
  run := hb.run
  state := by
    rw [declsOf_decl, run_cons, hb.state]
  decls := by
    rw [declsOf_decl, run_cons, ← hb.state, hx, hb.decls]
    rfl
  uses := hb.uses
  part _ := by
    obtain ⟨hgoal', hpart⟩ := hb.part hgoal
    refine ⟨hgoal', fun id o ho => ?_, hpart.closed⟩
    have ho' := hpart.sub id o ho
    rw [(knownAddDecl_ok hkn).1.lookup_old (by rw [ho']; rfl)]
    exact ho'

theorem Built.keep (hx : (e.step s d).2 = [x]) {t₁ : Task}
    (h : addTdecl k t' (.decl x) = .ok t₁) :
    Built e k ⟨.decl d :: t.tdecls, kn⟩ t₁ (e.step s d).1 := by
  obtain ⟨-, -, kn', hkn', rfl⟩ := Task.newDecl_ok.1 h
  obtain ⟨hgoal', hpart⟩ := hb.part hgoal
  have hcreated : x.Created := by
    rcases step_cases e s d with h | h | ⟨pr, f, -, h⟩ <;> rw [h] at hx
    · cases hx
    · obtain rfl : d = x := by simpa using hx
      exact hd
    · obtain rfl : goalFalse pr = x := by simpa using hx
      exact .prop (rfl : createPropDecl .pgoal pr (.tfalse []) = _)
  refine ⟨hb.run.add (fun d' hd' => ?_) h, ?_, ?_, hb.uses, fun hnone => ?_⟩
  · cases hd'
    exact hcreated
  · rw [declsOf_decl, run_cons, hb.state]
  · rw [declsOf_decl, declsOf_decl, run_cons, ← hb.state, hx, hb.decls]
    rfl
  · have hnode := (findGoal_decl ..).1 hnone
    rcases step_cases e s d with h' | h' | ⟨pr, f, hnode', -⟩
    · rw [h'] at hx
      cases hx
    · rw [h'] at hx
      obtain rfl : d = x := by simpa using hx
      refine ⟨(findGoal_decl ..).2 hnode, ?_⟩
      have hused := (add_iff hb hgoal hd hcheck hkn h').1 ⟨_, h⟩
      obtain ⟨kn'', hkn'', hpart', -⟩ := knownAddDecl_part hpart hd hkn fun id hid =>
        (hused id hid).imp_right fun ⟨o, ho, hid'⟩ => hb.run.inv.news o (hb.decls ▸ ho) id hid'
      obtain rfl : kn'' = kn' := Except.ok.inj (hkn''.symm.trans hkn')
      exact hpart'
    · exact absurd hnode' (hnode pr f)

end Decl

theorem Built.other (hb : Built e k t t' s) (hgoal : t.findGoal = none)
    {td : Tdecl} (htd : ¬ td.IsDecl) (huse : ∀ th, td = .use th → t.hasUse th = false) :
    ∃ t₁, addTdecl k t' td = .ok t₁ ∧ Built e k ⟨td :: t.tdecls, t.known⟩ t₁ s := by
  obtain ⟨hgoal', hpart⟩ := hb.part hgoal
  have hadd : addTdecl k t' td = .ok ⟨td :: t'.tdecls, t'.known⟩ := by
    have hnew := Task.newOther_ok.2
      ⟨hgoal', (rfl : (⟨td :: t'.tdecls, t'.known⟩ : Task) = _)⟩
    cases td with
    | decl d => exact absurd ⟨d, rfl⟩ htd
    | use th =>
      rw [addTdecl, hb.uses, huse th rfl]
      exact hnew
    | clone th sm => exact hnew
    | metaDecl m al => exact hnew
  refine ⟨_, hadd, hb.run.add (fun d hd => absurd ⟨d, hd⟩ htd) hadd, ?_, ?_, fun th => ?_, fun _ => ⟨?_, hpart⟩⟩
  · rw [declsOf_other htd]
    exact hb.state
  · rw [declsOf_other htd, declsOf_other htd]
    exact hb.decls
  · show ((td :: t'.tdecls).any _) = ((td :: t.tdecls).any _)
    rw [any_cons, any_cons]
    exact congrArg _ (hb.uses th)
  · rw [findGoal_eq_none]
    rintro td' htd' ⟨pr, f, n, rfl⟩
    cases htd'
    exact htd ⟨_, rfl⟩

theorem noGoal_decls (hinv : t.Inv) (hgoal : t.findGoal = none) :
    ∀ d ∈ declsOf t.tdecls, ∀ pr f, d.dNode ≠ .dprop .pgoal pr f := by
  intro d hd pr f hnode
  obtain ⟨node, news⟩ := d
  obtain rfl : node = _ := hnode
  obtain ⟨td, htd, htd'⟩ := mem_filterMap.1 hd
  exact hinv.noGoal hgoal td htd ⟨pr, f, news, by cases td <;> simp_all⟩

/-- The fold ends without an exception when the declarations that stay use symbols of such
declarations only. -/
theorem built (hrun : Task.Run k t) :
    (¬ e.NeedsDropped (declsOf t.tdecls) → ∃ x, fold e k t.tdecls = .ok x) ∧
      ∀ s t', fold e k t.tdecls = .ok (s, t') →
        ¬ e.NeedsDropped (declsOf t.tdecls) ∧ Built e k t t' s := by
  induction hrun with
  | nil =>
    refine ⟨fun _ => ⟨_, rfl⟩, fun s t' h => ?_⟩
    cases h
    exact ⟨fun h => (by obtain ⟨ds₁, d, ds₂, o, ds₃, heq, -⟩ := h; cases ds₁ <;> cases heq),
      Task.Run.nil, rfl, rfl, fun _ => rfl,
      fun _ => ⟨rfl, ⟨fun _ _ h => (by cases h), fun _ _ h => (by cases h)⟩⟩⟩
  | @add t td t₂ hrun hcreated hadd ih =>
    rcases addTdecl_cases hadd with ⟨th, rfl, -, rfl⟩ | ⟨d, kn, rfl, hcheck, hgoal, hkn, rfl⟩ |
      ⟨htd, huse, hgoal, rfl⟩
    · exact ih
    · have hd := hcreated d rfl
      have hinv := (hrun.add hcreated hadd).inv
      have hiff := step_uses_iff (e := e) (noGoal_decls hrun.inv hgoal) hinv.later
        (hinv.before [] d t.tdecls rfl)
      constructor
      · intro h
        rw [declsOf_decl, needsDropped_cons, not_or, ← hiff] at h
        obtain ⟨hkeep, hused⟩ := h
        obtain ⟨⟨s, t'⟩, hx⟩ := ih.1 hkeep
        have hb := (ih.2 s t' hx).2
        rw [fold_cons, hx]
        change ∃ x, declStep k id (fun s d => .ok (e.step s d)) (s, t') (.decl d) = .ok x
        rw [← hb.state] at hused
        rcases step_length e s d with h | ⟨x, h⟩
        · exact ⟨_, declStep_nil h t'⟩
        · rw [h, forall_mem_singleton] at hused
          obtain ⟨t₁, ht₁⟩ := (add_iff hb hgoal hd hcheck hkn h).2 hused
          rw [declStep_one h, ht₁]
          exact ⟨_, rfl⟩
      · intro s₂ t₂ hfold
        rw [fold_cons] at hfold
        obtain ⟨⟨s, t'⟩, hx, hstep⟩ := bind_eq_ok.1 hfold
        obtain ⟨hkeep, hb⟩ := ih.2 s t' hx
        rw [declsOf_decl, needsDropped_cons, not_or, ← hiff, ← hb.state]
        rcases step_length e s d with h | ⟨x, h⟩
        · rw [declStep_nil h] at hstep
          cases hstep
          refine ⟨⟨hkeep, fun d' hd' => ?_⟩, hb.drop hgoal hkn h⟩
          rw [h] at hd'
          cases hd'
        · rw [declStep_one h] at hstep
          cases ht₁ : addTdecl k t' (.decl x) with
          | error exn => rw [ht₁] at hstep; cases hstep
          | ok t₁ =>
            rw [ht₁] at hstep
            cases hstep
            rw [h, forall_mem_singleton]
            exact ⟨⟨hkeep, (add_iff hb hgoal hd hcheck hkn h).1 ⟨_, ht₁⟩⟩,
              hb.keep hgoal hd hcheck hkn h ht₁⟩
    · constructor
      · intro hkeep
        rw [declsOf_other htd] at hkeep
        obtain ⟨⟨s, t'⟩, hx⟩ := ih.1 hkeep
        obtain ⟨t₁, ht₁, -⟩ := (ih.2 s t' hx).2.other hgoal htd huse
        rw [fold_cons, hx]
        change ∃ x, declStep k id (fun s d => .ok (e.step s d)) (s, t') td = .ok x
        rw [declStep_other htd, ht₁]
        exact ⟨_, rfl⟩
      · intro s₂ t₂ hfold
        rw [fold_cons] at hfold
        obtain ⟨⟨s, t'⟩, hx, hstep⟩ := bind_eq_ok.1 hfold
        obtain ⟨hkeep, hb⟩ := ih.2 s t' hx
        obtain ⟨t₁, ht₁, hb₁⟩ := hb.other hgoal htd huse
        rw [declStep_other htd, ht₁] at hstep
        cases hstep
        exact ⟨(declsOf_other htd _).symm ▸ hkeep, hb₁⟩

/-! ## The result -/

theorem findGoal_of_mem (hinv : t.Inv) {d : Decl} (hd : d ∈ declsOf t.tdecls) {pr : PrSymbol}
    {f : Term} (hnode : d.dNode = .dprop .pgoal pr f) : t.findGoal = some (pr, f) := by
  obtain ⟨node, news⟩ := d
  obtain rfl : node = _ := hnode
  obtain ⟨td, htd, htd'⟩ := mem_filterMap.1 hd
  obtain rfl : td = .decl ⟨.dprop .pgoal pr f, news⟩ := by
    cases td <;> simp_all
  cases hl : t.tdecls with
  | nil =>
    rw [hl] at htd
    cases htd
  | cons td' l =>
    rw [hl] at htd
    rcases mem_cons.1 htd with rfl | htd
    · unfold findGoal
      rw [hl]
    · exact absurd ⟨pr, f, news, rfl⟩ (hinv.goal _ (by rw [hl]; exact htd))

/-- The result has fewer hypotheses, and its goal is the one of the task or `false`. -/
theorem Built.valid (hb : Built e k t t' s) (hinv : t.Inv)
    (h : t'.Valid sig) : t.Valid sig := by
  obtain ⟨pr, f', hgoal, hvalid⟩ := h
  have hmem : ∃ n, (⟨.dprop .pgoal pr f', n⟩ : Decl) ∈ declsOf t'.tdecls := by
    unfold findGoal at hgoal
    split at hgoal
    · rename_i p f n l heq
      cases hgoal
      exact ⟨n, heq ▸ mem_cons_self⟩
    · cases hgoal
  obtain ⟨n, hmem⟩ := hmem
  rw [hb.decls] at hmem
  have hsat : ∀ (M : PolyInterp sig) (P : M.Preds), (∀ d ∈ declsOf t.tdecls, d.Sat M P) →
      M.Valid P f' := by
    intro M P hM
    refine hvalid M P fun o ho => ?_
    rw [hb.decls] at ho
    rcases mem_run ho with ho | ⟨d, -, pr, f, -, rfl⟩
    · exact hM o ho
    · exact fun hne => absurd rfl hne
  rcases mem_run hmem with hd | ⟨d, hd, pr', f, hnode, heq⟩
  · exact ⟨pr, f', findGoal_of_mem hinv hd rfl, hsat⟩
  · cases heq
    exact ⟨pr, f, findGoal_of_mem hinv hd hnode, fun M P hM τ ρ hρ => (hsat M P hM τ ρ hρ).elim⟩

end RemoveDecls

end Why3
