import Why3.Core.Interp
import Why3.Lib.Lookup

/-!
# Equality of terms

`t_equal` of `core/term.ml`: equality up to the names of bound variables,
attributes, triggers and the notation of literals.  `t_compare` walks two terms
in parallel and numbers the variables that are bound on the way; the types of
quantified variables are not compared, only those of their occurrences.
-/

namespace Why3

open List Function Bool Term Pattern
open Prod (fst snd)

variable {vl1 vl2 : List VSymbol} {l1 l2 : List Pattern} {p1 p2 : Pattern} {s : LSymbol} {ty : Ty}
  {n : ℕ} {t1 : Term}

/-! ## Literals -/

/-- `compare_real ~structural:false r1 r2 = 0`. -/
def RealValue.equal (r1 r2 : RealValue) : Bool :=
  let p2 := min r1.rvPow2 r2.rvPow2
  let p5 := min r1.rvPow5 r2.rvPow5
  r1.rvSig * (2 ^ (r1.rvPow2 - p2).toNat * 5 ^ (r1.rvPow5 - p5).toNat) =
    r2.rvSig * (2 ^ (r2.rvPow2 - p2).toNat * 5 ^ (r2.rvPow5 - p5).toNat)

/-- `compare_const ~structural:false c1 c2 = 0`. -/
def Constant.equal : Constant → Constant → Bool
  | .constInt _ i1, .constInt _ i2 => i1 = i2
  | .constReal _ r1, .constReal _ r2 => r1.equal r2
  | c1, c2 => c1 = c2

/-! ## Patterns -/

/-- The numbers of the bound variables (`int Mvs.t`), the newest first. -/
abbrev Numbering := List (VSymbol × ℕ)

variable {vm1 vm2 : Numbering}

namespace Pattern

/-- The next number, and the variables of the two patterns met so far. -/
structure AlphaState where
  bnd : ℕ
  bv1 : Numbering
  bv2 : Numbering

def AlphaState.add (st : AlphaState) (v1 v2 : VSymbol) : AlphaState :=
  ⟨st.bnd + 1, (v1, st.bnd) :: st.bv1, (v2, st.bnd) :: st.bv2⟩

mutual
/-- `or_cmp`: the right side of an or-pattern binds the variables of the left
one. -/
def orCmp (bv1 bv2 : Numbering) : Pattern → Pattern → Bool
  | .pwild _, .pwild _ => true
  | .pvar v1, .pvar v2 => (bv1.lookup v1).isSome && bv1.lookup v1 == bv2.lookup v2
  | .papp s1 l1 _, .papp s2 l2 _ => s1 = s2 && orCmpList bv1 bv2 l1 l2
  | .por p1 q1, .por p2 q2 => orCmp bv1 bv2 p1 p2 && orCmp bv1 bv2 q1 q2
  | .pas p1 v1, .pas p2 v2 =>
    orCmp bv1 bv2 p1 p2 && ((bv1.lookup v1).isSome && bv1.lookup v1 == bv2.lookup v2)
  | _, _ => false
def orCmpList (bv1 bv2 : Numbering) : List Pattern → List Pattern → Bool
  | [], [] => true
  | p1 :: l1, p2 :: l2 => orCmp bv1 bv2 p1 p2 && orCmpList bv1 bv2 l1 l2
  | _, _ => false
end

attribute [grind =] orCmp orCmpList

mutual
/-- `pat_compare`, when it finds no difference. -/
def patCompare (st : AlphaState) : Pattern → Pattern → Option AlphaState
  | .pwild _, .pwild _ => some st
  | .pvar v1, .pvar v2 => some (st.add v1 v2)
  | .papp s1 l1 _, .papp s2 l2 _ => if s1 = s2 then patCompareList st l1 l2 else none
  | .por p1 q1, .por p2 q2 =>
    match patCompare st p1 p2 with
    | some res => if orCmp res.bv1 res.bv2 q1 q2 then some res else none
    | none => none
  | .pas p1 v1, .pas p2 v2 => (patCompare st p1 p2).map (fun st => st.add v1 v2)
  | _, _ => none
def patCompareList (st : AlphaState) : List Pattern → List Pattern → Option AlphaState
  | [], [] => some st
  | p1 :: l1, p2 :: l2 =>
    match patCompare st p1 p2 with
    | some st => patCompareList st l1 l2
    | none => none
  | _, _ => none
end

attribute [grind =] patCompare patCompareList

end Pattern

/-! ## Terms -/

/-- `add`: the variables of two quantifiers, numbered from `bnd` on. -/
def addQuant (bnd : ℕ) (bv1 bv2 : Numbering) : List VSymbol → List VSymbol →
    Option (ℕ × Numbering × Numbering)
  | v1 :: vl1, v2 :: vl2 => addQuant (bnd + 1) ((v1, bnd) :: bv1) ((v2, bnd) :: bv2) vl1 vl2
  | [], [] => some (bnd, bv1, bv2)
  | _, _ => none

namespace Term

mutual
/-- `t_compare bnd vml1 vml2 t1 t2 = 0`.  The type of a node is compared where it
is not the type of a subterm. -/
def alphaEq (bnd : ℕ) (vm1 vm2 : Numbering) : Term → Term → Bool
  | .tvar _ v1, .tvar _ v2 =>
    v1.vsTy = v2.vsTy &&
      match vm1.lookup v1, vm2.lookup v2 with
      | some i1, some i2 => i1 = i2
      | none, none => v1 = v2
      | _, _ => false
  | .tconst _ c1 ty1, .tconst _ c2 ty2 => ty1 = ty2 && c1.equal c2
  | .tapp _ s1 l1 ty1, .tapp _ s2 l2 ty2 => ty1 = ty2 && (s1 = s2 && alphaEqList bnd vm1 vm2 l1 l2)
  | .tif _ f1 t1 e1, .tif _ f2 t2 e2 =>
    alphaEq bnd vm1 vm2 f1 f2 && (alphaEq bnd vm1 vm2 t1 t2 && alphaEq bnd vm1 vm2 e1 e2)
  | .tlet _ t1 v1 e1, .tlet _ t2 v2 e2 =>
    alphaEq bnd vm1 vm2 t1 t2 && alphaEq (bnd + 1) ((v1, bnd) :: vm1) ((v2, bnd) :: vm2) e1 e2
  | .tcase _ t1 bl1, .tcase _ t2 bl2 =>
    alphaEq bnd vm1 vm2 t1 t2 && alphaEqBranches bnd vm1 vm2 bl1 bl2
  | .teps _ v1 e1, .teps _ v2 e2 =>
    v1.vsTy = v2.vsTy && alphaEq (bnd + 1) ((v1, bnd) :: vm1) ((v2, bnd) :: vm2) e1 e2
  | .tquant _ q1 vl1 _ f1, .tquant _ q2 vl2 _ f2 =>
    q1 = q2 &&
      match addQuant bnd vm1 vm2 vl1 vl2 with
      | some (bnd, vm1, vm2) => alphaEq bnd vm1 vm2 f1 f2
      | none => false
  | .tbinop _ op1 f1 g1, .tbinop _ op2 f2 g2 =>
    op1 = op2 && (alphaEq bnd vm1 vm2 g1 g2 && alphaEq bnd vm1 vm2 f1 f2)
  | .tnot _ f1, .tnot _ f2 => alphaEq bnd vm1 vm2 f1 f2
  | .ttrue _, .ttrue _ => true
  | .tfalse _, .tfalse _ => true
  | _, _ => false
def alphaEqList (bnd : ℕ) (vm1 vm2 : Numbering) : List Term → List Term → Bool
  | [], [] => true
  | t1 :: l1, t2 :: l2 => alphaEq bnd vm1 vm2 t1 t2 && alphaEqList bnd vm1 vm2 l1 l2
  | _, _ => false
def alphaEqBranches (bnd : ℕ) (vm1 vm2 : Numbering) :
    List (Pattern × Term) → List (Pattern × Term) → Bool
  | [], [] => true
  | (p1, t1) :: bl1, (p2, t2) :: bl2 =>
    (match patCompare ⟨bnd, [], []⟩ p1 p2 with
      | some st => alphaEq st.bnd (st.bv1 ++ vm1) (st.bv2 ++ vm2) t1 t2
      | none => false) && alphaEqBranches bnd vm1 vm2 bl1 bl2
  | _, _ => false
end

attribute [grind =] alphaEq alphaEqList alphaEqBranches

end Term

/-- `t_equal`. -/
def tEqual (t1 t2 : Term) : Bool := alphaEq 0 [] [] t1 t2

/-! ## Corresponding patterns -/

namespace Pattern

theorem Linear.nodup_patVars {p : Pattern} (h : p.Linear) : p.patVars.Nodup := by
  induction p with
  | pwild ty => exact nodup_nil
  | pvar v => exact nodup_singleton v
  | papp s pl ty _ =>
    rw [patVars, patVarsList_eq]
    exact h.1
  | por p q hp _ => exact hp h.1
  | pas p v ih => exact nodup_cons.mpr ⟨h.2, ih h.1⟩

/-- What the walk adds to the numberings: the variables of the patterns, under
the next numbers. -/
structure AlphaState.Extends (st st' : AlphaState) (vl1 vl2 : List VSymbol) : Prop where
  le : st.bnd ≤ st'.bnd
  keys1 : (st'.bv1.map fst).Perm (vl1 ++ st.bv1.map fst)
  keys2 : (st'.bv2.map fst).Perm (vl2 ++ st.bv2.map fst)
  nums1 : st'.bv1.map snd =
    (List.range' st.bnd (st'.bnd - st.bnd)).reverse ++ st.bv1.map snd
  nums2 : st'.bv2.map snd =
    (List.range' st.bnd (st'.bnd - st.bnd)).reverse ++ st.bv2.map snd
  suffix1 : st.bv1 <:+ st'.bv1
  suffix2 : st.bv2 <:+ st'.bv2

theorem AlphaState.Extends.refl (st : AlphaState) : st.Extends st [] [] := by
  refine ⟨le_rfl, List.Perm.refl _, List.Perm.refl _, ?_, ?_, suffix_refl _,
    suffix_refl _⟩ <;> simp

theorem AlphaState.extends_add {st st' : AlphaState} (h : st.Extends st' vl1 vl2)
    (v1 v2 : VSymbol) : st.Extends (st'.add v1 v2) (v1 :: vl1) (v2 :: vl2) := by
  have hle := h.le
  have hnum : (List.range' st.bnd (st'.bnd + 1 - st.bnd)).reverse =
      st'.bnd :: (List.range' st.bnd (st'.bnd - st.bnd)).reverse := by
    have hlast : st.bnd + (st'.bnd - st.bnd) = st'.bnd := by omega
    rw [Nat.succ_sub hle, range'_1_concat, reverse_append, hlast]
    rfl
  refine ⟨Nat.le_succ_of_le hle, h.keys1.cons v1, h.keys2.cons v2, ?_, ?_,
    h.suffix1.trans (suffix_cons _ _), h.suffix2.trans (suffix_cons _ _)⟩
  · show st'.bnd :: st'.bv1.map snd = _
    rw [h.nums1, AlphaState.add, hnum, cons_append]
  · show st'.bnd :: st'.bv2.map snd = _
    rw [h.nums2, AlphaState.add, hnum, cons_append]

theorem AlphaState.Extends.trans {st st' st'' : AlphaState} {wl1 wl2 : List VSymbol}
    (h : st.Extends st' vl1 vl2) (h' : st'.Extends st'' wl1 wl2) :
    st.Extends st'' (vl1 ++ wl1) (vl2 ++ wl2) := by
  have hle := h.le
  have hle' := h'.le
  have hnum : (List.range' st.bnd (st''.bnd - st.bnd)).reverse =
      (List.range' st'.bnd (st''.bnd - st'.bnd)).reverse ++
        (List.range' st.bnd (st'.bnd - st.bnd)).reverse := by
    rw [← reverse_append]
    have hsum : st''.bnd - st.bnd = (st'.bnd - st.bnd) + (st''.bnd - st'.bnd) := by omega
    have hmid : st.bnd + (st'.bnd - st.bnd) = st'.bnd := by omega
    have happ : List.range' st.bnd (st'.bnd - st.bnd) ++
        List.range' (st.bnd + (st'.bnd - st.bnd)) (st''.bnd - st'.bnd) =
        List.range' st.bnd ((st'.bnd - st.bnd) + (st''.bnd - st'.bnd)) := range'_append_1
    rw [hmid, ← hsum] at happ
    rw [happ]
  refine ⟨hle.trans hle', ?_, ?_, ?_, ?_, h.suffix1.trans h'.suffix1,
    h.suffix2.trans h'.suffix2⟩
  · refine h'.keys1.trans ((h.keys1.append_left wl1).trans ?_)
    rw [← append_assoc]
    exact perm_append_comm.append_right _
  · refine h'.keys2.trans ((h.keys2.append_left wl2).trans ?_)
    rw [← append_assoc]
    exact perm_append_comm.append_right _
  · rw [h'.nums1, h.nums1, hnum, append_assoc]
  · rw [h'.nums2, h.nums2, hnum, append_assoc]

theorem patCompareList_extends (ih : ∀ p1 ∈ l1, ∀ {p2 : Pattern}
    {st st' : AlphaState}, patCompare st p1 p2 = some st' →
      st.Extends st' p1.patVars p2.patVars) :
    ∀ {l2 : List Pattern} {st st' : AlphaState}, patCompareList st l1 l2 = some st' →
      st.Extends st' (l1.flatMap patVars) (l2.flatMap patVars) := by
  induction l1 with
  | nil =>
    intro l2 st st' h
    cases l2 with
    | nil =>
      simp only [patCompareList, Option.some.injEq] at h
      subst h
      exact .refl st
    | cons p2 l2 => simp [patCompareList] at h
  | cons p1 l1 ihl =>
    intro l2 st st' h
    cases l2 with
    | nil => simp [patCompareList] at h
    | cons p2 l2 =>
      simp only [patCompareList] at h
      split at h
      · next st₁ h₁ =>
          exact (ih p1 mem_cons_self h₁).trans
            (ihl (fun q hq => ih q (mem_cons_of_mem _ hq)) h)
      · cases h

theorem patCompare_extends {p1 : Pattern} : ∀ {p2 : Pattern} {st st' : AlphaState},
    patCompare st p1 p2 = some st' → st.Extends st' p1.patVars p2.patVars := by
  induction p1 with
  | pwild ty =>
    intro p2 st st' h
    cases p2 with
    | pwild ty2 =>
      simp only [patCompare, Option.some.injEq] at h
      subst h
      exact .refl st
    | _ => simp [patCompare] at h
  | pvar v1 =>
    intro p2 st st' h
    cases p2 with
    | pvar v2 =>
      simp only [patCompare, Option.some.injEq] at h
      subst h
      exact AlphaState.extends_add (.refl st) v1 v2
    | _ => simp [patCompare] at h
  | papp s1 l1 ty ih =>
    intro p2 st st' h
    cases p2 with
    | papp s2 l2 ty2 =>
      simp only [patCompare] at h
      split at h
      · rw [patVars, patVars, patVarsList_eq, patVarsList_eq]
        exact patCompareList_extends ih h
      · cases h
    | _ => simp [patCompare] at h
  | por p1 q1 ih _ =>
    intro p2 st st' h
    cases p2 with
    | por p2 q2 =>
      simp only [patCompare] at h
      split at h
      · next res hres =>
          split at h
          · rw [Option.some.injEq] at h
            subst h
            show st.Extends res p1.patVars p2.patVars
            exact ih hres
          · cases h
      · cases h
    | _ => simp [patCompare] at h
  | pas p1 v1 ih =>
    intro p2 st st' h
    cases p2 with
    | pas p2 v2 =>
      simp only [patCompare, Option.map_eq_some_iff] at h
      obtain ⟨st₁, h₁, rfl⟩ := h
      exact AlphaState.extends_add (ih h₁) v1 v2
    | _ => simp [patCompare] at h

section Match

variable {D : Type} (dest : Ty → D → Option (LSymbol × List D)) {r1 r2 : VSymbol → Option ℕ}

/-- Two lists of bindings for corresponding variables. -/
def Corr (r1 r2 : VSymbol → Option ℕ) (b1 b2 : VSymbol × D) : Prop :=
  (∃ i, r1 b1.1 = some i ∧ r2 b2.1 = some i) ∧ (b1.1.vsTy = b2.1.vsTy → b1.2 = b2.2)

/-- The two matches fail together, or bind corresponding variables to the same
values. -/
def CorrMatch (r1 r2 : VSymbol → Option ℕ) (m1 m2 : Option (List (VSymbol × D))) : Prop :=
  Option.Rel (List.Forall₂ (Corr r1 r2)) m1 m2

variable {dest}

theorem CorrMatch.or {m1 m2 m1' m2' : Option (List (VSymbol × D))} (h : CorrMatch r1 r2 m1 m2)
    (h' : CorrMatch r1 r2 m1' m2') : CorrMatch r1 r2 (m1.or m1') (m2.or m2') := by
  cases h with
  | some h => exact .some h
  | none => exact h'

theorem CorrMatch.cons {m1 m2 : Option (List (VSymbol × D))} (h : CorrMatch r1 r2 m1 m2)
    {v1 v2 : VSymbol} {i : ℕ} (h1 : r1 v1 = some i) (h2 : r2 v2 = some i) (d : D) :
    CorrMatch r1 r2 (m1.map ((v1, d) :: ·)) (m2.map ((v2, d) :: ·)) := by
  cases h with
  | some h => exact .some (.cons ⟨⟨i, h1, h2⟩, fun _ => rfl⟩ h)
  | none => exact .none

theorem CorrMatch.append {m1 m2 m1' m2' : Option (List (VSymbol × D))}
    (h : CorrMatch r1 r2 m1 m2) (h' : CorrMatch r1 r2 m1' m2') :
    CorrMatch r1 r2 (m1.bind (fun bs => m1'.map (· ++ bs)))
      (m2.bind (fun bs => m2'.map (· ++ bs))) := by
  cases h with
  | none => exact .none
  | some h =>
    cases h' with
    | none => exact .none
    | some h' => exact .some (rel_append h' h)

theorem corrMatch_args
    (h : List.Forall₂ (fun p1 p2 => ∀ d, CorrMatch r1 r2 (matchPat dest p1 d) (matchPat dest p2 d))
      l1 l2) : ∀ dl, CorrMatch r1 r2 (matchArgs dest l1 dl) (matchArgs dest l2 dl) := by
  induction h with
  | nil =>
    intro dl
    cases dl with
    | nil => exact .some .nil
    | cons d dl => exact .none
  | cons hp _ ih =>
    intro dl
    cases dl with
    | nil => exact .none
    | cons d dl =>
      rw [matchArgs_cons, matchArgs_cons]
      exact (hp d).append (ih dl)

variable {sig : TySymbol → List LSymbol}

/-- The types of the arguments of a constructor pattern. -/
theorem Ok.patTy_args {l : List Pattern} (h : (papp s l ty).Ok sig) :
    l.map patTy = argTys s ty ∧ ∀ p ∈ l, p.Ok sig := by
  simp only [Ok, okList_iff] at h
  exact ⟨h.2.1, h.2.2⟩

theorem Ok.patTy_zip (h1 : (papp s l1 ty).Ok sig) (h2 : (papp s l2 ty).Ok sig)
    (hz : (p1, p2) ∈ l1.zip l2) : p1.patTy = p2.patTy := by
  have heq := h1.patTy_args.1.trans h2.patTy_args.1.symm
  rw [← forall₂_eq_eq_eq, forall₂_map_left_iff, forall₂_map_right_iff] at heq
  exact forall₂_zip heq hz

theorem orCmpList_iff {bv1 bv2 : Numbering} : ∀ {l2 : List Pattern},
    orCmpList bv1 bv2 l1 l2 = true ↔
      List.Forall₂ (fun p1 p2 => orCmp bv1 bv2 p1 p2 = true) l1 l2 := by
  induction l1 with
  | nil => intro l2; cases l2 <;> simp [orCmpList]
  | cons p1 l1 ih => intro l2; cases l2 <;> simp [orCmpList, ih]

theorem corrMatch_papp (h : ∀ dl, CorrMatch r1 r2 (matchArgs dest l1 dl) (matchArgs dest l2 dl))
    (d : D) :
    CorrMatch r1 r2 (matchPat dest (.papp s l1 ty) d) (matchPat dest (.papp s l2 ty) d) := by
  simp only [matchPat]
  split
  · split
    · exact h _
    · exact .none
  · exact .none

theorem orCmp_corr {bv1 bv2 : Numbering} (h1 : ∀ v i, bv1.lookup v = some i → r1 v = some i)
    (h2 : ∀ v i, bv2.lookup v = some i → r2 v = some i) : ∀ {p2 : Pattern},
    p1.Ok sig → p2.Ok sig → p1.patTy = p2.patTy → orCmp bv1 bv2 p1 p2 = true →
      ∀ d, CorrMatch r1 r2 (matchPat dest p1 d) (matchPat dest p2 d) := by
  -- a variable has the same number on both sides
  have hvar : ∀ {v1 v2 : VSymbol},
      ((bv1.lookup v1).isSome && bv1.lookup v1 == bv2.lookup v2) = true →
      ∃ i, r1 v1 = some i ∧ r2 v2 = some i := by
    intro v1 v2 h
    rw [and_eq_true, beq_iff_eq, Option.isSome_iff_exists] at h
    obtain ⟨⟨i, hi⟩, heq⟩ := h
    exact ⟨i, h1 v1 i hi, h2 v2 i (heq ▸ hi)⟩
  induction p1 with
  | pwild ty =>
    intro p2 _ _ _ h d
    cases p2 with
    | pwild ty2 => exact .some .nil
    | _ => simp [orCmp] at h
  | pvar v1 =>
    intro p2 _ _ _ h d
    cases p2 with
    | pvar v2 =>
      rw [orCmp] at h
      exact .some (.cons ⟨hvar h, fun _ => rfl⟩ .nil)
    | _ => simp [orCmp] at h
  | papp s1 l1 ty1 ih =>
    intro p2 ok1 ok2 hty h d
    cases p2 with
    | papp s2 l2 ty2 =>
      simp only [orCmp, and_eq_true, decide_eq_true_eq] at h
      obtain ⟨rfl, h⟩ := h
      obtain rfl : ty1 = ty2 := hty
      rw [orCmpList_iff] at h
      refine corrMatch_papp (corrMatch_args ?_) d
      refine forall₂_iff_zip.mpr ⟨h.length_eq, fun {p1 p2} hz => ?_⟩
      obtain ⟨hp1, hp2⟩ := of_mem_zip hz
      exact ih p1 hp1 (ok1.patTy_args.2 p1 hp1) (ok2.patTy_args.2 p2 hp2)
        (ok1.patTy_zip ok2 hz) (forall₂_zip h hz)
    | _ => simp [orCmp] at h
  | por p1 q1 ihp ihq =>
    intro p2 ok1 ok2 hty h d
    cases p2 with
    | por p2 q2 =>
      simp only [orCmp, and_eq_true] at h
      have htyq : q1.patTy = q2.patTy := by
        rw [← ok1.2.2.1, ← ok2.2.2.1]
        exact hty
      simp only [matchPat]
      exact (ihp ok1.1 ok2.1 hty h.1 d).or (ihq ok1.2.1 ok2.2.1 htyq h.2 d)
    | _ => simp [orCmp] at h
  | pas p1 v1 ih =>
    intro p2 ok1 ok2 hty h d
    cases p2 with
    | pas p2 v2 =>
      rw [orCmp, and_eq_true] at h
      obtain ⟨i, hi1, hi2⟩ := hvar h.2
      have htyp : p1.patTy = p2.patTy := by
        rw [ok1.2, ok2.2]
        exact hty
      simp only [matchPat]
      exact (ih ok1.1 ok2.1 htyp h.1 d).cons hi1 hi2 d
    | _ => simp [orCmp] at h

/-- The functions `r1` and `r2` know the numbers of a state. -/
def AlphaState.Knows (st : AlphaState) (r1 r2 : VSymbol → Option ℕ) : Prop :=
  (∀ v i, (v, i) ∈ st.bv1 → r1 v = some i) ∧ ∀ v i, (v, i) ∈ st.bv2 → r2 v = some i

theorem AlphaState.Knows.of_extends {st st' : AlphaState} (h : st'.Knows r1 r2)
    (hext : st.Extends st' vl1 vl2) : st.Knows r1 r2 :=
  ⟨fun v i hv => h.1 v i (hext.suffix1.subset hv), fun v i hv => h.2 v i (hext.suffix2.subset hv)⟩

/-- The last variables that were numbered. -/
theorem AlphaState.Knows.add {st : AlphaState} {v1 v2 : VSymbol} (h : (st.add v1 v2).Knows r1 r2) :
    r1 v1 = some st.bnd ∧ r2 v2 = some st.bnd :=
  ⟨h.1 v1 st.bnd mem_cons_self, h.2 v2 st.bnd mem_cons_self⟩

/-- Properties of the arguments, by the walk through them. -/
theorem patCompareList_zip {R : Pattern → Pattern → Prop} :
    ∀ {l2 : List Pattern} {st st' : AlphaState}, patCompareList st l1 l2 = some st' →
      st'.Knows r1 r2 →
      (∀ p1 p2 st st', (p1, p2) ∈ l1.zip l2 → patCompare st p1 p2 = some st' →
        st'.Knows r1 r2 → R p1 p2) → List.Forall₂ R l1 l2 := by
  induction l1 with
  | nil =>
    intro l2 st st' h _ _
    cases l2 with
    | nil => exact .nil
    | cons p2 l2 => simp [patCompareList] at h
  | cons p1 l1 ih =>
    intro l2 st st' h hk hR
    cases l2 with
    | nil => simp [patCompareList] at h
    | cons p2 l2 =>
      simp only [patCompareList] at h
      split at h
      · next st₁ h₁ =>
          have hext := patCompareList_extends (fun p _ => @patCompare_extends p) h
          refine .cons (hR p1 p2 st st₁ mem_cons_self h₁ (hk.of_extends hext)) ?_
          exact ih h hk (fun q1 q2 st st' hq => hR q1 q2 st st' (mem_cons_of_mem _ hq))
      · cases h

/-- Patterns that compare as equal match the same values. -/
theorem patCompare_corr : ∀ {p2 : Pattern} {st st' : AlphaState},
    p1.Ok sig → p2.Ok sig → p1.patTy = p2.patTy → patCompare st p1 p2 = some st' →
      st'.Knows r1 r2 → ∀ d, CorrMatch r1 r2 (matchPat dest p1 d) (matchPat dest p2 d) := by
  induction p1 with
  | pwild ty =>
    intro p2 st st' _ _ _ h _ d
    cases p2 with
    | pwild ty2 => exact .some .nil
    | _ => simp [patCompare] at h
  | pvar v1 =>
    intro p2 st st' _ _ _ h hk d
    cases p2 with
    | pvar v2 =>
      simp only [patCompare, Option.some.injEq] at h
      subst h
      exact .some (.cons ⟨⟨st.bnd, hk.add⟩, fun _ => rfl⟩ .nil)
    | _ => simp [patCompare] at h
  | papp s1 l1 ty1 ih =>
    intro p2 st st' ok1 ok2 hty h hk d
    cases p2 with
    | papp s2 l2 ty2 =>
      simp only [patCompare] at h
      split at h
      · next hs =>
          subst hs
          obtain rfl : ty1 = ty2 := hty
          refine corrMatch_papp (corrMatch_args (patCompareList_zip h hk ?_)) d
          intro p1 p2 st st' hz hp hk'
          obtain ⟨hp1, hp2⟩ := of_mem_zip hz
          exact ih p1 hp1 (ok1.patTy_args.2 p1 hp1) (ok2.patTy_args.2 p2 hp2)
            (ok1.patTy_zip ok2 hz) hp hk'
      · cases h
    | _ => simp [patCompare] at h
  | por p1 q1 ihp _ =>
    intro p2 st st' ok1 ok2 hty h hk d
    cases p2 with
    | por p2 q2 =>
      simp only [patCompare] at h
      split at h
      · next res hres =>
          split at h
          · next hor =>
              rw [Option.some.injEq] at h
              subst h
              have htyq : q1.patTy = q2.patTy := by
                rw [← ok1.2.2.1, ← ok2.2.2.1]
                exact hty
              have hq : CorrMatch r1 r2 (matchPat dest q1 d) (matchPat dest q2 d) :=
                orCmp_corr (fun v i hv => hk.1 v i (Lookup.mem_of_lookup hv))
                  (fun v i hv => hk.2 v i (Lookup.mem_of_lookup hv)) ok1.2.1 ok2.2.1 htyq hor d
              simp only [matchPat]
              exact (ihp ok1.1 ok2.1 hty hres hk d).or hq
          · cases h
      · cases h
    | _ => simp [patCompare] at h
  | pas p1 v1 ih =>
    intro p2 st st' ok1 ok2 hty h hk d
    cases p2 with
    | pas p2 v2 =>
      simp only [patCompare, Option.map_eq_some_iff] at h
      obtain ⟨st₁, h₁, rfl⟩ := h
      have htyp : p1.patTy = p2.patTy := by
        rw [ok1.2, ok2.2]
        exact hty
      have hk₁ := hk.of_extends (AlphaState.extends_add (.refl st₁) v1 v2)
      simp only [matchPat]
      exact (ih ok1.1 ok2.1 htyp h₁ hk₁ d).cons hk.add.1 hk.add.2 d
    | _ => simp [patCompare] at h

/-- They bind corresponding variables. -/
theorem patCompare_vars : ∀ {p2 : Pattern} {st st' : AlphaState},
    patCompare st p1 p2 = some st' → st'.Knows r1 r2 →
      List.Forall₂ (fun v1 v2 => ∃ i, r1 v1 = some i ∧ r2 v2 = some i) p1.patVars p2.patVars := by
  induction p1 with
  | pwild ty =>
    intro p2 st st' h _
    cases p2 with
    | pwild ty2 => exact .nil
    | _ => simp [patCompare] at h
  | pvar v1 =>
    intro p2 st st' h hk
    cases p2 with
    | pvar v2 =>
      simp only [patCompare, Option.some.injEq] at h
      subst h
      exact .cons ⟨st.bnd, hk.add⟩ .nil
    | _ => simp [patCompare] at h
  | papp s1 l1 ty1 ih =>
    intro p2 st st' h hk
    cases p2 with
    | papp s2 l2 ty2 =>
      simp only [patCompare] at h
      split at h
      · rw [patVars, patVars, patVarsList_eq, patVarsList_eq]
        refine rel_flatMap (patCompareList_zip (R := fun p1 p2 => List.Forall₂
          (fun v1 v2 => ∃ i, r1 v1 = some i ∧ r2 v2 = some i) p1.patVars p2.patVars) h hk ?_)
          (fun _ _ h => h)
        intro p1 p2 st st' hz hp hk'
        exact ih p1 (of_mem_zip hz).1 hp hk'
      · cases h
    | _ => simp [patCompare] at h
  | por p1 q1 ihp _ =>
    intro p2 st st' h hk
    cases p2 with
    | por p2 q2 =>
      simp only [patCompare] at h
      split at h
      · next res hres =>
          split at h
          · rw [Option.some.injEq] at h
            subst h
            show List.Forall₂ _ p1.patVars p2.patVars
            exact ihp hres hk
          · cases h
      · cases h
    | _ => simp [patCompare] at h
  | pas p1 v1 ih =>
    intro p2 st st' h hk
    cases p2 with
    | pas p2 v2 =>
      simp only [patCompare, Option.map_eq_some_iff] at h
      obtain ⟨st₁, h₁, rfl⟩ := h
      have hk₁ := hk.of_extends (AlphaState.extends_add (.refl st₁) v1 v2)
      exact .cons ⟨st₁.bnd, hk.add⟩ (ih h₁ hk₁)
    | _ => simp [patCompare] at h

end Match

end Pattern

/-! ## Meaning -/

namespace Interp

variable {sig : TySymbol → List LSymbol} {I : Interp sig}

/-- Literals denote their values, whatever their notation. -/
def LitExt (I : Interp sig) : Prop :=
  ∀ c1 c2 ty, Constant.equal c1 c2 = true → I.const c1 ty = I.const c2 ty

/-- Variables with the same number and the same type have the same value, and so
do variables that are free on both sides. -/
structure AlphaRel (vm1 vm2 : Numbering) (ρ1 ρ2 : I.Env) : Prop where
  bound : ∀ v1 v2 i, vm1.lookup v1 = some i → vm2.lookup v2 = some i → v1.vsTy = v2.vsTy →
    ρ1 v1 = ρ2 v2
  free : ∀ v, vm1.lookup v = none → vm2.lookup v = none → ρ1 v = ρ2 v

/-- The numbers from `n` on are not used. -/
def Below (n : ℕ) (vm : Numbering) : Prop := ∀ v i, vm.lookup v = some i → i < n

theorem Below.cons {n : ℕ} {vm : Numbering} (h : Below n vm) (v : VSymbol) :
    Below (n + 1) ((v, n) :: vm) := by
  intro w i hi
  rw [Lookup.lookup_cons] at hi
  split_ifs at hi with hw
  · rw [Option.some.injEq] at hi
    omega
  · have := h w i hi
    omega

theorem AlphaRel.bind {vm1 vm2 : Numbering} {ρ1 ρ2 : I.Env} {n : ℕ} (h : AlphaRel vm1 vm2 ρ1 ρ2)
    (h1 : Below n vm1) (h2 : Below n vm2) {v1 v2 : VSymbol} {d1 d2 : I.Val}
    (hd : v1.vsTy = v2.vsTy → d1 = d2) :
    AlphaRel ((v1, n) :: vm1) ((v2, n) :: vm2) (update ρ1 v1 d1)
      (update ρ2 v2 d2) := by
  constructor
  · intro w1 w2 i hw1 hw2 hty
    rw [Lookup.lookup_cons] at hw1 hw2
    split_ifs at hw1 hw2 with e1 e2 e2
    · subst e1 e2
      rw [update_self, update_self, hd hty]
    · rw [Option.some.injEq] at hw1
      have := h2 w2 i hw2
      omega
    · rw [Option.some.injEq] at hw2
      have := h1 w1 i hw1
      omega
    · rw [update_of_ne e1, update_of_ne e2]
      exact h.bound w1 w2 i hw1 hw2 hty
  · intro w hw1 hw2
    rw [Lookup.lookup_cons] at hw1 hw2
    split_ifs at hw1 hw2 with e1 e2
    rw [update_of_ne e1, update_of_ne e2]
    exact h.free w hw1 hw2

/-- A quantified variable whose type differs on the two sides does not occur: its
value plays no part, and there is one. -/
theorem quant_alpha {q : Quant} {P1 P2 : I.Env → Prop} :
    ∀ {vl2 : List VSymbol} {n n' : ℕ} {vm1 vm2 vm1' vm2' : Numbering} {ρ1 ρ2 : I.Env},
      addQuant n vm1 vm2 vl1 vl2 = some (n', vm1', vm2') → AlphaRel vm1 vm2 ρ1 ρ2 →
      Below n vm1 → Below n vm2 →
      (Below n' vm1' → Below n' vm2' → ∀ ρ1 ρ2 : I.Env, AlphaRel vm1' vm2' ρ1 ρ2 →
        (P1 ρ1 ↔ P2 ρ2)) →
      (I.quant q vl1 P1 ρ1 ↔ I.quant q vl2 P2 ρ2) := by
  induction vl1 with
  | nil =>
    intro vl2 n n' vm1 vm2 vm1' vm2' ρ1 ρ2 ha h h1 h2 hP
    cases vl2 with
    | nil =>
      simp only [addQuant, Option.some.injEq, Prod.mk.injEq] at ha
      obtain ⟨rfl, rfl, rfl⟩ := ha
      cases q <;> exact hP h1 h2 ρ1 ρ2 h
    | cons v2 vl2 => simp [addQuant] at ha
  | cons v1 vl1 ih =>
    intro vl2 n n' vm1 vm2 vm1' vm2' ρ1 ρ2 ha h h1 h2 hP
    cases vl2 with
    | nil => simp [addQuant] at ha
    | cons v2 vl2 =>
      rw [addQuant] at ha
      have hstep : ∀ d1 d2, (v1.vsTy = v2.vsTy → d1 = d2) →
          (I.quant q vl1 P1 (update ρ1 v1 d1) ↔
            I.quant q vl2 P2 (update ρ2 v2 d2)) :=
        fun d1 d2 hd => ih ha (h.bind h1 h2 hd) (h1.cons v1) (h2.cons v2) hP
      by_cases hty : v1.vsTy = v2.vsTy
      · cases q with
        | tforall =>
          refine forall_congr' fun d => ?_
          rw [hty]
          exact imp_congr_right fun _ => hstep d d (fun _ => rfl)
        | texists =>
          refine exists_congr fun d => ?_
          rw [hty]
          exact and_congr_right fun _ => hstep d d (fun _ => rfl)
      · have hany := fun d1 d2 => hstep d1 d2 (fun heq => absurd heq hty)
        have hd1 := I.dflt_mem v1.vsTy
        have hd2 := I.dflt_mem v2.vsTy
        cases q with
        | tforall =>
          constructor
          · intro hall d _
            exact (hany _ d).mp (hall _ hd1)
          · intro hall d _
            exact (hany d _).mpr (hall _ hd2)
        | texists =>
          constructor
          · rintro ⟨d, _, hd⟩
            exact ⟨_, hd2, (hany d _).mp hd⟩
          · rintro ⟨d, _, hd⟩
            exact ⟨_, hd1, (hany _ d).mpr hd⟩

open Pattern in
theorem bindAll_corr {r1 r2 : VSymbol → Option ℕ} {bs1 bs2 : List (VSymbol × I.Val)}
    (h : List.Forall₂ (Corr r1 r2) bs1 bs2) {v1 v2 : VSymbol} {i : ℕ} (h1 : r1 v1 = some i)
    (h2 : r2 v2 = some i) (hinj1 : ∀ v, r1 v = some i → v = v1)
    (hinj2 : ∀ v, r2 v = some i → v = v2) (hty : v1.vsTy = v2.vsTy) (ρ1 ρ2 : I.Env)
    (hmem : v1 ∈ bs1.map fst) : bindAll ρ1 bs1 v1 = bindAll ρ2 bs2 v2 := by
  induction h with
  | nil => cases hmem
  | @cons b1 b2 bs1 bs2 hb _ ih =>
    obtain ⟨w1, d1⟩ := b1
    obtain ⟨w2, d2⟩ := b2
    obtain ⟨⟨j, hj1, hj2⟩, hval⟩ := hb
    simp only at hj1 hj2 hval
    rw [bindAll_cons, bindAll_cons]
    by_cases hw : v1 = w1
    · subst hw
      have hij : j = i := by rwa [hj1, Option.some.injEq] at h1
      subst hij
      obtain rfl := hinj2 w2 hj2
      rw [update_self, update_self, hval hty]
    · have hw2 : v2 ≠ w2 := by
        rintro rfl
        have hij : j = i := by rwa [hj2, Option.some.injEq] at h2
        subst hij
        exact hw (hinj1 w1 hj1).symm
      rw [update_of_ne hw, update_of_ne hw2]
      rw [map_cons, mem_cons] at hmem
      exact ih (hmem.resolve_left hw)

variable {st : Pattern.AlphaState}

/-- The numbering of the variables of two patterns. -/
theorem knows_lookup (h : patCompare ⟨n, [], []⟩ p1 p2 = some st) (h1 : p1.Linear)
    (h2 : p2.Linear) : st.Knows (fun v => st.bv1.lookup v) (fun v => st.bv2.lookup v) := by
  have hext := patCompare_extends h
  have hk1 := hext.keys1
  have hk2 := hext.keys2
  simp only [map_nil, append_nil] at hk1 hk2
  exact ⟨fun v i hv => Lookup.lookup_of_mem (hk1.nodup_iff.mpr h1.nodup_patVars) hv,
    fun v i hv => Lookup.lookup_of_mem (hk2.nodup_iff.mpr h2.nodup_patVars) hv⟩

theorem below_pat {vm : Numbering} (h : Below n vm) (hp : patCompare ⟨n, [], []⟩ p1 p2 = some st) :
    Below st.bnd (st.bv1 ++ vm) ∧ Below st.bnd (st.bv2 ++ vm) := by
  have hext := patCompare_extends hp
  have hle := hext.le
  have hlt : ∀ bv : Numbering, bv.map snd = (List.range' n (st.bnd - n)).reverse →
      Below st.bnd (bv ++ vm) := by
    intro bv hbv v i hi
    rw [Lookup.lookup_append] at hi
    rcases Option.or_eq_some_iff.mp hi with hi | ⟨_, hi⟩
    · have hmem : i ∈ bv.map snd := mem_map.mpr ⟨_, Lookup.mem_of_lookup hi, rfl⟩
      rw [hbv, mem_reverse, mem_range'_1] at hmem
      simp only at hle
      omega
    · exact (h v i hi).trans_le hle
  exact ⟨hlt _ (by simpa using hext.nums1), hlt _ (by simpa using hext.nums2)⟩

/-- Under two patterns that compare as equal. -/
theorem AlphaRel.bind_pat {ρ1 ρ2 : I.Env}
    (h : AlphaRel vm1 vm2 ρ1 ρ2) (h1 : Below n vm1) (h2 : Below n vm2)
    (hp : patCompare ⟨n, [], []⟩ p1 p2 = some st)
    {bs1 bs2 : List (VSymbol × I.Val)}
    (hbs : List.Forall₂ (Pattern.Corr (fun v => st.bv1.lookup v) (fun v => st.bv2.lookup v)) bs1 bs2)
    (hk1 : ∀ v, v ∈ bs1.map fst ↔ v ∈ p1.patVars)
    (hk2 : ∀ v, v ∈ bs2.map fst ↔ v ∈ p2.patVars) :
    AlphaRel (st.bv1 ++ vm1) (st.bv2 ++ vm2) (bindAll ρ1 bs1) (bindAll ρ2 bs2) := by
  have hext := patCompare_extends hp
  have hkeys1 := hext.keys1
  have hkeys2 := hext.keys2
  have hnum1 := hext.nums1
  have hnum2 := hext.nums2
  simp only [map_nil, append_nil] at hkeys1 hkeys2 hnum1 hnum2
  -- the variables that are numbered are those the patterns bind
  have hnone1 : ∀ v, st.bv1.lookup v = none → v ∉ bs1.map fst := by
    intro v hv
    rw [hk1, ← hkeys1.mem_iff]
    exact Lookup.lookup_eq_none.mp hv
  have hnone2 : ∀ v, st.bv2.lookup v = none → v ∉ bs2.map fst := by
    intro v hv
    rw [hk2, ← hkeys2.mem_iff]
    exact Lookup.lookup_eq_none.mp hv
  -- and their numbers are new
  have hnew : ∀ (bv : Numbering) v i, bv.map snd = (List.range' n (st.bnd - n)).reverse →
      bv.lookup v = some i → n ≤ i := by
    intro bv v i hbv hv
    have hmem : i ∈ bv.map snd := mem_map.mpr ⟨_, Lookup.mem_of_lookup hv, rfl⟩
    rw [hbv, mem_reverse, mem_range'_1] at hmem
    exact hmem.1
  have hnd : (List.range' n (st.bnd - n)).reverse.Nodup :=
    nodup_reverse.mpr nodup_range'
  constructor
  · intro v1 v2 i hv1 hv2 hty
    rw [Lookup.lookup_append] at hv1 hv2
    cases e1 : st.bv1.lookup v1 with
    | none =>
      rw [e1, Option.none_or] at hv1
      cases e2 : st.bv2.lookup v2 with
      | none =>
        rw [e2, Option.none_or] at hv2
        rw [bindAll_of_not_mem (hnone1 v1 e1), bindAll_of_not_mem (hnone2 v2 e2)]
        exact h.bound v1 v2 i hv1 hv2 hty
      | some j =>
        rw [e2, Option.some_or, Option.some.injEq] at hv2
        subst hv2
        exact absurd (h1 v1 j hv1) (not_lt.mpr (hnew _ _ _ hnum2 e2))
    | some j =>
      rw [e1, Option.some_or, Option.some.injEq] at hv1
      subst hv1
      cases e2 : st.bv2.lookup v2 with
      | none =>
        rw [e2, Option.none_or] at hv2
        exact absurd (h2 v2 j hv2) (not_lt.mpr (hnew _ _ _ hnum1 e1))
      | some j' =>
        rw [e2, Option.some_or, Option.some.injEq] at hv2
        subst hv2
        refine bindAll_corr hbs e1 e2 ?_ ?_ hty ρ1 ρ2 ?_
        · exact fun v hv => Lookup.lookup_inj (hnum1 ▸ hnd) hv e1
        · exact fun v hv => Lookup.lookup_inj (hnum2 ▸ hnd) hv e2
        · rw [hk1, ← hkeys1.mem_iff]
          exact mem_map.mpr ⟨_, Lookup.mem_of_lookup e1, rfl⟩
  · intro v hv1 hv2
    rw [Lookup.lookup_append, Option.or_eq_none_iff] at hv1 hv2
    rw [bindAll_of_not_mem (hnone1 v hv1.1), bindAll_of_not_mem (hnone2 v hv2.1)]
    exact h.free v hv1.2 hv2.2

end Interp

namespace Term

theorem alphaEqList_iff {l1 : List Term} : ∀ {l2 : List Term},
    alphaEqList n vm1 vm2 l1 l2 = true ↔
      List.Forall₂ (fun t1 t2 => alphaEq n vm1 vm2 t1 t2 = true) l1 l2 := by
  induction l1 with
  | nil => intro l2; cases l2 <;> simp [alphaEqList]
  | cons t1 l1 ih => intro l2; cases l2 <;> simp [alphaEqList, ih]

/-- Two branches that compare as equal. -/
def AlphaBranch (n : ℕ) (vm1 vm2 : Numbering) (b1 b2 : Pattern × Term) : Prop :=
  ∃ st, patCompare ⟨n, [], []⟩ b1.1 b2.1 = some st ∧
    alphaEq st.bnd (st.bv1 ++ vm1) (st.bv2 ++ vm2) b1.2 b2.2 = true

theorem alphaEqBranches_iff {bl1 : List (Pattern × Term)} :
    ∀ {bl2 : List (Pattern × Term)}, alphaEqBranches n vm1 vm2 bl1 bl2 = true ↔
      List.Forall₂ (AlphaBranch n vm1 vm2) bl1 bl2 := by
  induction bl1 with
  | nil => intro bl2; cases bl2 <;> simp [alphaEqBranches]
  | cons b1 bl1 ih =>
    intro bl2
    cases bl2 with
    | nil => simp [alphaEqBranches]
    | cons b2 bl2 =>
      obtain ⟨p1, t1⟩ := b1
      obtain ⟨p2, t2⟩ := b2
      rw [alphaEqBranches, and_eq_true, ih, forall₂_cons]
      refine and_congr_left fun _ => ?_
      unfold AlphaBranch
      cases patCompare ⟨n, [], []⟩ p1 p2 with
      | none => simp
      | some st => simp

/-- Equal terms have the same type. -/
theorem tTy_of_alphaEq : ∀ {t2 : Term} {n : ℕ} {vm1 vm2 : Numbering},
    alphaEq n vm1 vm2 t1 t2 = true → t1.tTy = t2.tTy := by
  induction t1 with
  | tvar a v1 =>
    intro t2 n vm1 vm2 h
    cases t2 with
    | tvar a2 v2 =>
      simp only [alphaEq, and_eq_true, decide_eq_true_eq] at h
      rw [tTy, tTy, h.1]
    | _ => simp [alphaEq] at h
  | tconst a c ty =>
    intro t2 n vm1 vm2 h
    cases t2 with
    | tconst a2 c2 ty2 =>
      simp only [alphaEq, and_eq_true, decide_eq_true_eq] at h
      rw [tTy, tTy, h.1]
    | _ => simp [alphaEq] at h
  | tapp a s tl ty _ =>
    intro t2 n vm1 vm2 h
    cases t2 with
    | tapp a2 s2 tl2 ty2 =>
      simp only [alphaEq, and_eq_true, decide_eq_true_eq] at h
      rw [tTy, tTy, h.1]
    | _ => simp [alphaEq] at h
  | tif a f t e _ _ ih =>
    intro t2 n vm1 vm2 h
    cases t2 with
    | tif a2 f2 u2 e2 =>
      simp only [alphaEq, and_eq_true] at h
      show e.tTy = e2.tTy
      exact ih h.2.2
    | _ => simp [alphaEq] at h
  | tlet a t v e _ ih =>
    intro t2 n vm1 vm2 h
    cases t2 with
    | tlet a2 u2 v2 e2 =>
      simp only [alphaEq, and_eq_true] at h
      show e.tTy = e2.tTy
      exact ih h.2
    | _ => simp [alphaEq] at h
  | tcase a t bl _ ih =>
    intro t2 n vm1 vm2 h
    cases t2 with
    | tcase a2 u2 bl2 =>
      rw [alphaEq, and_eq_true, alphaEqBranches_iff] at h
      cases h.2 with
      | nil => rfl
      | @cons b1 b2 _ _ hb _ =>
        obtain ⟨st, _, hb⟩ := hb
        show b1.2.tTy = b2.2.tTy
        exact ih b1 mem_cons_self hb
    | _ => simp [alphaEq] at h
  | teps a v f _ =>
    intro t2 n vm1 vm2 h
    cases t2 with
    | teps a2 v2 f2 =>
      simp only [alphaEq, and_eq_true, decide_eq_true_eq] at h
      rw [tTy, tTy, h.1]
    | _ => simp [alphaEq] at h
  | tquant a q vl trl f _ _ =>
    intro t2 n vm1 vm2 h
    cases t2 with
    | tquant a2 q2 vl2 trl2 f2 => rfl
    | _ => simp [alphaEq] at h
  | tbinop a op f g _ _ =>
    intro t2 n vm1 vm2 h
    cases t2 with
    | tbinop a2 op2 f2 g2 => rfl
    | _ => simp [alphaEq] at h
  | tnot a f _ =>
    intro t2 n vm1 vm2 h
    cases t2 with
    | tnot a2 f2 => rfl
    | _ => simp [alphaEq] at h
  | ttrue a =>
    intro t2 n vm1 vm2 h
    cases t2 with
    | ttrue a2 => rfl
    | _ => simp [alphaEq] at h
  | tfalse a =>
    intro t2 n vm1 vm2 h
    cases t2 with
    | tfalse a2 => rfl
    | _ => simp [alphaEq] at h

end Term

namespace Interp

variable {sig : TySymbol → List LSymbol} {I : Interp sig}

/-- Equal terms have the same meaning. -/
theorem sem_alphaEq (hlit : I.LitExt) : ∀ {t2 : Term} {n : ℕ} {vm1 vm2 : Numbering}
    {ρ1 ρ2 : I.Env}, t1.Wt sig → t2.Wt sig → alphaEq n vm1 vm2 t1 t2 = true →
      AlphaRel vm1 vm2 ρ1 ρ2 → Below n vm1 → Below n vm2 → I.sem t1 ρ1 = I.sem t2 ρ2 := by
  induction t1 with
  | tvar a v1 =>
    intro t2 n vm1 vm2 ρ1 ρ2 _ _ h hr _ _
    cases t2 with
    | tvar a2 v2 =>
      simp only [alphaEq, and_eq_true, decide_eq_true_eq] at h
      have hv : ρ1 v1 = ρ2 v2 := by
        obtain ⟨hty, h⟩ := h
        split at h
        · next i1 i2 h1 h2 =>
            rw [decide_eq_true_eq] at h
            subst h
            exact hr.bound v1 v2 i1 h1 h2 hty
        · next h1 h2 =>
            rw [decide_eq_true_eq] at h
            subst h
            exact hr.free v1 h1 h2
        · cases h
      simp only [sem, hv]
    | _ => simp [alphaEq] at h
  | tconst a c1 ty1 =>
    intro t2 n vm1 vm2 ρ1 ρ2 _ _ h _ _ _
    cases t2 with
    | tconst a2 c2 ty2 =>
      simp only [alphaEq, and_eq_true, decide_eq_true_eq] at h
      obtain ⟨rfl, h⟩ := h
      simp only [sem, hlit c1 c2 ty1 h]
    | _ => simp [alphaEq] at h
  | tapp a s1 l1 ty1 ih =>
    intro t2 n vm1 vm2 ρ1 ρ2 w1 w2 h hr b1 b2
    cases t2 with
    | tapp a2 s2 l2 ty2 =>
      simp only [alphaEq, and_eq_true, decide_eq_true_eq] at h
      obtain ⟨rfl, rfl, h⟩ := h
      rw [alphaEqList_iff] at h
      simp only [Wt, wtList_iff] at w1 w2
      have htys : l1.map tTy = l2.map tTy := by
        rw [← forall₂_eq_eq_eq, forall₂_map_left_iff, forall₂_map_right_iff]
        exact h.imp (fun _ _ => tTy_of_alphaEq)
      have hvals : l1.map (I.eval ρ1) = l2.map (I.eval ρ2) := by
        rw [← forall₂_eq_eq_eq, forall₂_map_left_iff, forall₂_map_right_iff]
        refine forall₂_iff_zip.mpr ⟨h.length_eq, fun {t1 t2} hz => ?_⟩
        obtain ⟨ht1, ht2⟩ := of_mem_zip hz
        rw [eval, eval, ih t1 ht1 (w1.2 t1 ht1) (w2.2 t2 ht2) (forall₂_zip h hz) hr b1 b2]
      have hsem : ∀ (l : List Term) (ρ : I.Env),
          (I.semList l).map (fun d => (d ρ).val) = l.map (I.eval ρ) := by
        intro l ρ
        rw [semList_eq, map_map]
        rfl
      simp only [sem, hsem, hvals, htys]
    | _ => simp [alphaEq] at h
  | tif a f1 u1 e1 ihf iht ihe =>
    intro t2 n vm1 vm2 ρ1 ρ2 w1 w2 h hr b1 b2
    cases t2 with
    | tif a2 f2 u2 e2 =>
      simp only [alphaEq, and_eq_true] at h
      obtain ⟨_, _, wf1, wt1, we1⟩ := w1
      obtain ⟨_, _, wf2, wt2, we2⟩ := w2
      rw [sem_tif, sem_tif, Holds, Holds, ihf wf1 wf2 h.1 hr b1 b2,
        iht wt1 wt2 h.2.1 hr b1 b2, ihe we1 we2 h.2.2 hr b1 b2]
    | _ => simp [alphaEq] at h
  | tlet a u1 v1 e1 iht ihe =>
    intro t2 n vm1 vm2 ρ1 ρ2 w1 w2 h hr b1 b2
    cases t2 with
    | tlet a2 u2 v2 e2 =>
      simp only [alphaEq, and_eq_true] at h
      obtain ⟨_, wt1, we1⟩ := w1
      obtain ⟨_, wt2, we2⟩ := w2
      have hval : I.eval ρ1 u1 = I.eval ρ2 u2 := by
        rw [eval, eval, iht wt1 wt2 h.1 hr b1 b2]
      rw [sem_tlet, sem_tlet]
      exact ihe we1 we2 h.2 (hr.bind b1 b2 (fun _ => hval)) (b1.cons v1) (b2.cons v2)
    | _ => simp [alphaEq] at h
  | tcase a u1 bl1 iht ihb =>
    intro t2 n vm1 vm2 ρ1 ρ2 w1 w2 h hr b1 b2
    cases t2 with
    | tcase a2 u2 bl2 =>
      rw [alphaEq, and_eq_true, alphaEqBranches_iff] at h
      obtain ⟨htt, h⟩ := h
      simp only [Wt, wtBranches_iff] at w1 w2
      have hval : I.eval ρ1 u1 = I.eval ρ2 u2 := by
        rw [eval, eval, iht w1.2.1 w2.2.1 htt hr b1 b2]
      rw [sem_tcase, sem_tcase, hval]
      refine I.branches_sim (S := fun r r' => r = r') ?_ rfl
      rw [forall₂_map_left_iff, forall₂_map_right_iff]
      refine forall₂_iff_zip.mpr ⟨h.length_eq, fun {c1 c2} hz => ?_⟩
      obtain ⟨hc1, hc2⟩ := of_mem_zip hz
      obtain ⟨st, hst, hbody⟩ := forall₂_zip h hz
      obtain ⟨hty1, ok1, lin1, _, wb1⟩ := w1.2.2 c1 hc1
      obtain ⟨hty2, ok2, lin2, _, wb2⟩ := w2.2.2 c2 hc2
      have hpty : c1.1.patTy = c2.1.patTy := by
        have := (hty1.trans (tTy_of_alphaEq htt)).trans hty2.symm
        rwa [Option.some.injEq] at this
      have hk := knows_lookup hst lin1 lin2
      have hcorr : Pattern.CorrMatch _ _ (matchPat I.dest c1.1 (I.eval ρ2 u2))
          (matchPat I.dest c2.1 (I.eval ρ2 u2)) :=
        patCompare_corr ok1 ok2 hpty hst hk (I.eval ρ2 u2)
      have hsem : ∀ bs1 bs2, List.Forall₂ (Pattern.Corr (fun v => st.bv1.lookup v)
          (fun v => st.bv2.lookup v)) bs1 bs2 → (∀ v, v ∈ bs1.map fst ↔ v ∈ c1.1.patVars) →
          (∀ v, v ∈ bs2.map fst ↔ v ∈ c2.1.patVars) →
          I.sem c1.2 (bindAll ρ1 bs1) = I.sem c2.2 (bindAll ρ2 bs2) := by
        intro bs1 bs2 hbs hk1 hk2
        exact ihb c1 hc1 wb1 wb2 hbody (hr.bind_pat b1 b2 hst hbs hk1 hk2)
          (below_pat b1 hst).1 (below_pat b2 hst).2
      refine ⟨?_, ?_, ?_⟩
      · generalize matchPat I.dest c1.1 (I.eval ρ2 u2) = m1 at hcorr
        generalize matchPat I.dest c2.1 (I.eval ρ2 u2) = m2 at hcorr
        cases hcorr with
        | none => exact .rfl
        | some _ => simp
      · intro bs1 bs2 hm1 hm2
        rw [hm1, hm2] at hcorr
        cases hcorr with
        | some hbs =>
          exact hsem bs1 bs2 hbs (matchPat_keys I.dest ok1 hm1)
            (matchPat_keys I.dest ok2 hm2)
      · apply hsem
        · unfold dfltVars
          rw [forall₂_map_left_iff, forall₂_map_right_iff]
          refine (patCompare_vars hst hk).imp (fun v1 v2 hv => ⟨hv, fun hty => ?_⟩)
          exact congrArg I.dflt hty
        · intro v
          simp [dfltVars]
        · intro v
          simp [dfltVars]
    | _ => simp [alphaEq] at h
  | teps a v1 f1 ih =>
    intro t2 n vm1 vm2 ρ1 ρ2 w1 w2 h hr b1 b2
    cases t2 with
    | teps a2 v2 f2 =>
      simp only [alphaEq, and_eq_true, decide_eq_true_eq] at h
      have hP : ∀ d, I.Holds (update ρ1 v1 d) f1 =
          I.Holds (update ρ2 v2 d) f2 := by
        intro d
        rw [Holds, Holds, ih w1.2 w2.2 h.2 (hr.bind b1 b2 (fun _ => rfl)) (b1.cons v1)
          (b2.cons v2)]
      rw [sem_teps, sem_teps]
      simp only [hP, h.1]
    | _ => simp [alphaEq] at h
  | tquant a q1 vl1 trl1 f1 _ ih =>
    intro t2 n vm1 vm2 ρ1 ρ2 w1 w2 h hr b1 b2
    cases t2 with
    | tquant a2 q2 vl2 trl2 f2 =>
      simp only [alphaEq, and_eq_true, decide_eq_true_eq] at h
      obtain ⟨rfl, h⟩ := h
      split at h
      · next n' vm1' vm2' hadd =>
          have hq : I.quant q1 vl1 (fun ρ => (I.sem f1 ρ).tr) ρ1 ↔
              I.quant q1 vl2 (fun ρ => (I.sem f2 ρ).tr) ρ2 := by
            refine quant_alpha hadd hr b1 b2 (fun b1' b2' ρ1' ρ2' hr' => ?_)
            rw [ih w1.2.2 w2.2.2 h hr' b1' b2']
          simp only [sem, hq]
      · cases h
    | _ => simp [alphaEq] at h
  | tbinop a op1 f1 g1 ihf ihg =>
    intro t2 n vm1 vm2 ρ1 ρ2 w1 w2 h hr b1 b2
    cases t2 with
    | tbinop a2 op2 f2 g2 =>
      simp only [alphaEq, and_eq_true, decide_eq_true_eq] at h
      simp only [sem, h.1, ihf w1.2.2.1 w2.2.2.1 h.2.2 hr b1 b2,
        ihg w1.2.2.2 w2.2.2.2 h.2.1 hr b1 b2]
    | _ => simp [alphaEq] at h
  | tnot a f1 ih =>
    intro t2 n vm1 vm2 ρ1 ρ2 w1 w2 h hr b1 b2
    cases t2 with
    | tnot a2 f2 =>
      rw [alphaEq] at h
      simp only [sem, ih w1.2 w2.2 h hr b1 b2]
    | _ => simp [alphaEq] at h
  | ttrue a =>
    intro t2 n vm1 vm2 ρ1 ρ2 _ _ h _ _ _
    cases t2 with
    | ttrue a2 => rfl
    | _ => simp [alphaEq] at h
  | tfalse a =>
    intro t2 n vm1 vm2 ρ1 ρ2 _ _ h _ _ _
    cases t2 with
    | tfalse a2 => rfl
    | _ => simp [alphaEq] at h

theorem sem_tEqual (hlit : I.LitExt) {t2 : Term} (w1 : t1.Wt sig) (w2 : t2.Wt sig)
    (h : tEqual t1 t2 = true) (ρ : I.Env) : I.sem t1 ρ = I.sem t2 ρ :=
  sem_alphaEq hlit w1 w2 h ⟨fun _ _ _ h => (by cases h), fun _ _ _ => rfl⟩
    (fun _ _ h => by cases h) (fun _ _ h => by cases h)

end Interp

/-! ## Strict equality -/

/-- `Sattr.equal`. -/
def Sattr.equal (s1 s2 : Sattr) : Bool := s1.all (· ∈ s2) && s2.all (· ∈ s1)

namespace Term

mutual
/-- `t_compare ~trigger:true ~attr:true ~const:true bnd vml1 vml2 t1 t2 = 0`. -/
def alphaEqStrict (bnd : ℕ) (vm1 vm2 : Numbering) : Term → Term → Bool
  | .tvar a1 v1, .tvar a2 v2 =>
    a1.equal a2 && alphaEq bnd vm1 vm2 (.tvar a1 v1) (.tvar a2 v2)
  | .tconst a1 c1 ty1, .tconst a2 c2 ty2 =>
    a1.equal a2 && (decide (c1 = c2) && alphaEq bnd vm1 vm2 (.tconst a1 c1 ty1) (.tconst a2 c2 ty2))
  | .tapp a1 s1 l1 ty1, .tapp a2 s2 l2 ty2 =>
    a1.equal a2 && (ty1 = ty2 && (s1 = s2 && alphaEqStrictList bnd vm1 vm2 l1 l2))
  | .tif a1 f1 t1 e1, .tif a2 f2 t2 e2 =>
    a1.equal a2 && (alphaEqStrict bnd vm1 vm2 f1 f2 &&
      (alphaEqStrict bnd vm1 vm2 t1 t2 && alphaEqStrict bnd vm1 vm2 e1 e2))
  | .tlet a1 t1 v1 e1, .tlet a2 t2 v2 e2 =>
    a1.equal a2 && (alphaEqStrict bnd vm1 vm2 t1 t2 &&
      alphaEqStrict (bnd + 1) ((v1, bnd) :: vm1) ((v2, bnd) :: vm2) e1 e2)
  | .tcase a1 t1 bl1, .tcase a2 t2 bl2 =>
    a1.equal a2 && (alphaEqStrict bnd vm1 vm2 t1 t2 && alphaEqStrictBranches bnd vm1 vm2 bl1 bl2)
  | .teps a1 v1 e1, .teps a2 v2 e2 =>
    a1.equal a2 && (v1.vsTy = v2.vsTy &&
      alphaEqStrict (bnd + 1) ((v1, bnd) :: vm1) ((v2, bnd) :: vm2) e1 e2)
  | .tquant a1 q1 vl1 tr1 f1, .tquant a2 q2 vl2 tr2 f2 =>
    a1.equal a2 && (q1 = q2 &&
      match addQuant bnd vm1 vm2 vl1 vl2 with
      | some (bnd, vm1, vm2) =>
        alphaEqStrictTriggers bnd vm1 vm2 tr1 tr2 && alphaEqStrict bnd vm1 vm2 f1 f2
      | none => false)
  | .tbinop a1 op1 f1 g1, .tbinop a2 op2 f2 g2 =>
    a1.equal a2 && (op1 = op2 &&
      (alphaEqStrict bnd vm1 vm2 g1 g2 && alphaEqStrict bnd vm1 vm2 f1 f2))
  | .tnot a1 f1, .tnot a2 f2 => a1.equal a2 && alphaEqStrict bnd vm1 vm2 f1 f2
  | .ttrue a1, .ttrue a2 => a1.equal a2
  | .tfalse a1, .tfalse a2 => a1.equal a2
  | _, _ => false
def alphaEqStrictList (bnd : ℕ) (vm1 vm2 : Numbering) : List Term → List Term → Bool
  | [], [] => true
  | t1 :: l1, t2 :: l2 => alphaEqStrict bnd vm1 vm2 t1 t2 && alphaEqStrictList bnd vm1 vm2 l1 l2
  | _, _ => false
def alphaEqStrictBranches (bnd : ℕ) (vm1 vm2 : Numbering) :
    List (Pattern × Term) → List (Pattern × Term) → Bool
  | [], [] => true
  | (p1, t1) :: bl1, (p2, t2) :: bl2 =>
    (match patCompare ⟨bnd, [], []⟩ p1 p2 with
      | some st => alphaEqStrict st.bnd (st.bv1 ++ vm1) (st.bv2 ++ vm2) t1 t2
      | none => false) && alphaEqStrictBranches bnd vm1 vm2 bl1 bl2
  | _, _ => false
def alphaEqStrictTriggers (bnd : ℕ) (vm1 vm2 : Numbering) :
    List (List Term) → List (List Term) → Bool
  | [], [] => true
  | tr1 :: l1, tr2 :: l2 =>
    alphaEqStrictList bnd vm1 vm2 tr1 tr2 && alphaEqStrictTriggers bnd vm1 vm2 l1 l2
  | _, _ => false
end

attribute [grind =] alphaEqStrict alphaEqStrictList alphaEqStrictBranches alphaEqStrictTriggers

end Term

/-- `t_equal_strict`; locations are left out. -/
def tEqualStrict (t1 t2 : Term) : Bool := alphaEqStrict 0 [] [] t1 t2

namespace Term

/-- The strict equality compares more. -/
theorem alphaEq_of_strict : ∀ {t2 : Term} {n : ℕ} {vm1 vm2 : Numbering},
    alphaEqStrict n vm1 vm2 t1 t2 = true → alphaEq n vm1 vm2 t1 t2 = true := by
  induction t1 with
  | tvar a1 v1 =>
    intro t2 n vm1 vm2 h
    cases t2 with
    | tvar a2 v2 =>
      rw [alphaEqStrict, and_eq_true] at h
      exact h.2
    | _ => simp [alphaEqStrict] at h
  | tconst a1 c1 ty1 =>
    intro t2 n vm1 vm2 h
    cases t2 with
    | tconst a2 c2 ty2 =>
      rw [alphaEqStrict, and_eq_true, and_eq_true] at h
      exact h.2.2
    | _ => simp [alphaEqStrict] at h
  | tapp a1 s1 l1 ty1 ih =>
    intro t2 n vm1 vm2 h
    cases t2 with
    | tapp a2 s2 l2 ty2 =>
      have hlist : ∀ {l2 : List Term}, alphaEqStrictList n vm1 vm2 l1 l2 = true →
          alphaEqList n vm1 vm2 l1 l2 = true := by
        clear h
        induction l1 with
        | nil =>
          intro l2 h
          cases l2 with
          | nil => rfl
          | cons t l2 => simp [alphaEqStrictList] at h
        | cons t1 l1 ihl =>
          intro l2 h
          cases l2 with
          | nil => simp [alphaEqStrictList] at h
          | cons t2 l2 =>
            rw [alphaEqStrictList, and_eq_true] at h
            rw [alphaEqList, and_eq_true]
            exact ⟨ih t1 mem_cons_self h.1,
              ihl (fun t ht => ih t (mem_cons_of_mem _ ht)) h.2⟩
      simp only [alphaEqStrict, and_eq_true] at h
      simp only [alphaEq, and_eq_true]
      exact ⟨h.2.1, h.2.2.1, hlist h.2.2.2⟩
    | _ => simp [alphaEqStrict] at h
  | tif a1 f1 t1 e1 ihf iht ihe =>
    intro t2 n vm1 vm2 h
    cases t2 with
    | tif a2 f2 t2 e2 =>
      simp only [alphaEqStrict, and_eq_true] at h
      simp only [alphaEq, and_eq_true]
      exact ⟨ihf h.2.1, iht h.2.2.1, ihe h.2.2.2⟩
    | _ => simp [alphaEqStrict] at h
  | tlet a1 t1 v1 e1 iht ihe =>
    intro t2 n vm1 vm2 h
    cases t2 with
    | tlet a2 t2 v2 e2 =>
      simp only [alphaEqStrict, and_eq_true] at h
      simp only [alphaEq, and_eq_true]
      exact ⟨iht h.2.1, ihe h.2.2⟩
    | _ => simp [alphaEqStrict] at h
  | tcase a1 t1 bl1 iht ihb =>
    intro t2 n vm1 vm2 h
    cases t2 with
    | tcase a2 t2 bl2 =>
      have hbl : ∀ {bl2 : List (Pattern × Term)}, alphaEqStrictBranches n vm1 vm2 bl1 bl2 = true →
          alphaEqBranches n vm1 vm2 bl1 bl2 = true := by
        clear h
        induction bl1 with
        | nil =>
          intro bl2 h
          cases bl2 with
          | nil => rfl
          | cons b bl2 => simp [alphaEqStrictBranches] at h
        | cons b1 bl1 ihl =>
          intro bl2 h
          cases bl2 with
          | nil => simp [alphaEqStrictBranches] at h
          | cons b2 bl2 =>
            rw [alphaEqStrictBranches, and_eq_true] at h
            rw [alphaEqBranches, and_eq_true]
            refine ⟨?_, ihl (fun b hb => ihb b (mem_cons_of_mem _ hb)) h.2⟩
            have hb := h.1
            cases hc : patCompare ⟨n, [], []⟩ b1.1 b2.1 with
            | none => simp [hc] at hb
            | some st =>
              simp only [hc] at hb ⊢
              exact ihb b1 mem_cons_self hb
      simp only [alphaEqStrict, and_eq_true] at h
      simp only [alphaEq, and_eq_true]
      exact ⟨iht h.2.1, hbl h.2.2⟩
    | _ => simp [alphaEqStrict] at h
  | teps a1 v1 f1 ih =>
    intro t2 n vm1 vm2 h
    cases t2 with
    | teps a2 v2 f2 =>
      simp only [alphaEqStrict, and_eq_true] at h
      simp only [alphaEq, and_eq_true]
      exact ⟨h.2.1, ih h.2.2⟩
    | _ => simp [alphaEqStrict] at h
  | tquant a1 q1 vl1 trl1 f1 _ ih =>
    intro t2 n vm1 vm2 h
    cases t2 with
    | tquant a2 q2 vl2 trl2 f2 =>
      simp only [alphaEqStrict, and_eq_true] at h
      simp only [alphaEq, and_eq_true]
      refine ⟨h.2.1, ?_⟩
      have hf := h.2.2
      cases hq : addQuant n vm1 vm2 vl1 vl2 with
      | none => simp [hq] at hf
      | some r =>
        simp only [hq, and_eq_true] at hf ⊢
        exact ih hf.2
    | _ => simp [alphaEqStrict] at h
  | tbinop a1 op1 f1 g1 ihf ihg =>
    intro t2 n vm1 vm2 h
    cases t2 with
    | tbinop a2 op2 f2 g2 =>
      simp only [alphaEqStrict, and_eq_true] at h
      simp only [alphaEq, and_eq_true]
      exact ⟨h.2.1, ihg h.2.2.1, ihf h.2.2.2⟩
    | _ => simp [alphaEqStrict] at h
  | tnot a1 f1 ih =>
    intro t2 n vm1 vm2 h
    cases t2 with
    | tnot a2 f2 =>
      rw [alphaEqStrict, and_eq_true] at h
      exact ih h.2
    | _ => simp [alphaEqStrict] at h
  | ttrue a1 =>
    intro t2 n vm1 vm2 h
    cases t2 with
    | ttrue a2 => rfl
    | _ => simp [alphaEqStrict] at h
  | tfalse a1 =>
    intro t2 n vm1 vm2 h
    cases t2 with
    | tfalse a2 => rfl
    | _ => simp [alphaEqStrict] at h

end Term

theorem tTy_of_tEqual {t2 : Term} (h : tEqual t1 t2 = true) : t1.tTy = t2.tTy :=
  tTy_of_alphaEq h

end Why3
