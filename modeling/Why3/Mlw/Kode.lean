import Why3.Lib.Outcomes
import Why3.Mlw.EffAssign
import Why3.Core.Lambda

/-!
# k-expressions

The simplified code of `mlw/vc.ml` and its executions.  A state gives a value to
every variable; the outcome zero is the normal one, the others are exceptions.  A
write effect relates states by a relation that is a parameter here.
-/

namespace Why3.Vc

open List

/-- `Mint.t`. -/
abbrev Mint := TagMap ℕ

instance : Tagged ℕ := ⟨id⟩

/-- The writes and assignments of an effect: the new value of a field, when it is known. -/
abbrev Writes := Mreg (Mpv (Option PvSymbol))

/-- `ktag`. -/
inductive KTag
  | kwp | ksp
  | kout (out : Mint Bool)
  | kpush (cl : Bool)
  | koff (expl : String)

/-- `kode`. -/
inductive Kode : Type
  | kseq (k1 : Kode) (i : ℕ) (k2 : Kode)
  | kpar (k1 k2 : Kode)
  | kif (v : PvSymbol) (k1 k2 : Kode)
  | kcase (v : PvSymbol) (bl : List (Pattern × Kode))
  | khavoc (wr : Writes) (attrs : Sattr)
  | klet (v : PvSymbol) (t f : Term)
  | kval (vl : List PvSymbol) (f : Term)
  | kcut (f : Term)
  | kstop (f : Term)
  | kcont (i : ℕ)
  | kAxiom (k : Kode)
  | ktag (tag : KTag) (k : Kode)

namespace Kode

@[induction_eliminator]
theorem induct {motive : Kode → Prop}
    (kseq : ∀ k1 i k2, motive k1 → motive k2 → motive (.kseq k1 i k2))
    (kpar : ∀ k1 k2, motive k1 → motive k2 → motive (.kpar k1 k2))
    (kif : ∀ v k1 k2, motive k1 → motive k2 → motive (.kif v k1 k2))
    (kcase : ∀ v bl, (∀ b ∈ bl, motive b.2) → motive (.kcase v bl))
    (khavoc : ∀ wr attrs, motive (.khavoc wr attrs)) (klet : ∀ v t f, motive (.klet v t f))
    (kval : ∀ vl f, motive (.kval vl f)) (kcut : ∀ f, motive (.kcut f))
    (kstop : ∀ f, motive (.kstop f)) (kcont : ∀ i, motive (.kcont i))
    (kAxiom : ∀ k, motive k → motive (.kAxiom k))
    (ktag : ∀ tag k, motive k → motive (.ktag tag k)) : ∀ k, motive k :=
  @Kode.rec motive (fun bl => ∀ b ∈ bl, motive b.2) (fun b => motive b.2)
    kseq kpar kif (fun v bl h => kcase v bl h) khavoc klet kval kcut kstop kcont kAxiom ktag
    (fun _ h => by cases h)
    (fun b l hb hl c hc => by
      rcases mem_cons.mp hc with rfl | hc
      · exact hb
      · exact hl c hc)
    (fun _ _ h => h)

mutual
/-- The outcomes of a kode. -/
def outs : Kode → List ℕ
  | .kseq k1 i k2 => k1.outs.filter (· ≠ i) ++ k2.outs
  | .kpar k1 k2 | .kif _ k1 k2 => k1.outs ++ k2.outs
  | .kcase _ bl => outsBranches bl
  | .khavoc _ _ | .klet _ _ _ | .kval _ _ | .kcut _ | .kAxiom _ => [0]
  | .kstop _ => []
  | .kcont i => [i]
  | .ktag _ k => k.outs
def outsBranches : List (Pattern × Kode) → List ℕ
  | [] => []
  | (_, k) :: bl => k.outs ++ outsBranches bl
end

attribute [grind =] outs outsBranches

@[simp] theorem outsBranches_eq (bl : List (Pattern × Kode)) :
    outsBranches bl = bl.flatMap (fun b => b.2.outs) := by
  induction bl with
  | nil => rfl
  | cons b bl ih => rw [outsBranches, ih, flatMap_cons]

end Kode

/-! ## Executions -/

open Outcomes

variable {sig : TySymbol → List LSymbol} {I : Interp sig}

/-- A state: a value for each variable. -/
abbrev State (I : Interp sig) : Type := {ρ : I.Env // I.Typed ρ}

mutual
/-- The executions of a kode, where `H` relates the states before and after a write. -/
def exec (H : Writes → State I → State I → Prop) : Kode → Prog (State I)
  | .kseq k1 i k2 => seq (exec H k1) i (exec H k2)
  | .kpar k1 k2 => choice (exec H k1) (exec H k2)
  | .kif v k1 k2 => branch (fun s => s.1 v.pvVs = I.boolTrue) (exec H k1) (exec H k2)
  | .kcase v bl => fun s r => execBranches H bl (s.1 v.pvVs) s r
  | .khavoc wr _ => step (H wr)
  | .klet v t f => step (fun s s' =>
    s'.1 = Function.update s.1 v.pvVs (I.eval s.1 t) ∧ I.Holds s'.1 f)
  | .kval vl f => step (fun s s' =>
    (∀ v, v ∉ vl.map PvSymbol.pvVs → s'.1 v = s.1 v) ∧ I.Holds s'.1 f)
  | .kcut f => cut (fun s => I.Holds s.1 f)
  | .kstop f => stop (fun s => I.Holds s.1 f)
  | .kcont i => cont i
  | .kAxiom k => step (fun s s' => s' = s ∧ wp (exec H k) (fun _ _ => True) s)
  | .ktag _ k => exec H k
/-- The first branch that matches the value. -/
def execBranches (H : Writes → State I → State I → Prop) :
    List (Pattern × Kode) → I.Val → Prog (State I)
  | [], _ => fun _ _ => False
  | (p, k) :: bl, d =>
    match Pattern.matchPat I.dest p d with
    | some bs => fun s r => ∃ s' : State I, s'.1 = bindAll s.1 bs ∧ exec H k s' r
    | none => execBranches H bl d
end

attribute [grind =] exec execBranches

variable (H : Writes → State I → State I → Prop)

theorem within_execBranches {O : Set ℕ} {bl : List (Pattern × Kode)}
    (h : ∀ b ∈ bl, Within (exec H b.2) O) (d : I.Val) : Within (execBranches H bl d) O := by
  induction bl with
  | nil => exact fun s i s' hr => absurd hr (by simp [execBranches])
  | cons b bl ih =>
    obtain ⟨p, k⟩ := b
    rw [forall_mem_cons] at h
    simp only [execBranches]
    cases Pattern.matchPat I.dest p d with
    | some bs => exact fun s i s' ⟨s₁, _, hr⟩ => h.1 s₁ i s' hr
    | none => exact ih h.2

/-- An execution ends with one of the outcomes of the kode. -/
theorem within_exec (k : Kode) : Within (exec H k) {i | i ∈ k.outs} := by
  induction k with
  | kseq k1 i k2 ih1 ih2 =>
    rw [exec]
    refine (within_seq ih1 ih2).mono ?_
    rintro j (⟨hj, hji⟩ | hj)
    · exact mem_append_left _ (mem_filter.mpr ⟨hj, by simpa using hji⟩)
    · exact mem_append_right _ hj
  | kpar k1 k2 ih1 ih2 =>
    rw [exec]
    refine (within_choice ih1 ih2).mono ?_
    rintro j (hj | hj)
    · exact mem_append_left _ hj
    · exact mem_append_right _ hj
  | kif v k1 k2 ih1 ih2 =>
    rw [exec]
    refine (within_branch ih1 ih2).mono ?_
    rintro j (hj | hj)
    · exact mem_append_left _ hj
    · exact mem_append_right _ hj
  | kcase v bl ih =>
    rw [exec]
    intro s i s' hr
    refine within_execBranches H (fun b hb => (ih b hb).mono (fun j hj => ?_)) _ s i s' hr
    show j ∈ Kode.outs (.kcase v bl)
    rw [Kode.outs, Kode.outsBranches_eq, mem_flatMap]
    exact ⟨b, hb, hj⟩
  | khavoc wr attrs | klet v t f | kval vl f | kAxiom k _ =>
    rw [exec]
    exact (within_step _).mono (by rintro j rfl; exact mem_singleton_self 0)
  | kcut f =>
    rw [exec]
    refine (within_choice (within_stop _) (within_step _)).mono ?_
    rintro j (hj | rfl)
    · exact absurd hj id
    · exact mem_singleton_self 0
  | kstop f =>
    rw [exec]
    exact (within_stop _).mono (fun j hj => absurd hj id)
  | kcont i =>
    rw [exec]
    exact (within_cont i).mono (by rintro j rfl; exact mem_singleton_self j)
  | ktag tag k ih =>
    rw [exec]
    exact ih

end Why3.Vc
