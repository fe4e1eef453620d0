import Why3.Lib.LexMeasure
import Why3.Core.FunctionSpaces
import Why3.Core.Lambda
import Why3.Core.Validity

/-!
# Decreasing variants

`decrease` of `mlw/vc.ml`: the formula that the variants of a call are smaller than
those of the caller.  The values are compared in turn, by the relation that comes
with them or by the order of their type, until one has decreased.
-/

namespace Why3

/-- `ps_acc`. -/
def psAcc : LSymbol :=
  ⟨17, [tyFunc (.tyvar ⟨16⟩) (tyFunc (.tyvar ⟨16⟩) tyBool), .tyvar ⟨16⟩], none, 0, false⟩

namespace Vc

/-- `rs_logic`, less what the generator does not look at. -/
inductive RsLogic
  | rlNone | rlPv | rlLs (ls : LSymbol) | rlLemma

/-- What `decrease` reads of the environment of the generator. -/
structure VcEnv where
  /-- `itd_constructors` of the definition of a type symbol. -/
  itdConstructors : TySymbol → Option (List RsLogic)
  /-- The projections of the range types. -/
  tsRanges : TySymbol → Option LSymbol
  provedWf : List LSymbol
  psIntLe : LSymbol
  psIntLt : LSymbol

/-! ## Explanations -/

def stopSplit : String := "stop_split"
def annotAttr : String := "vc:annotation"

def annotAttrs : Sattr := [stopSplit, annotAttr]

/-- `attrs_has_expl`. -/
def attrsHasExpl (attrs : Sattr) : Bool := attrs.any (fun a => "expl:".toList.isPrefixOf a.toList)

/-- `vc_expl`. -/
def vcExpl (attrs : Sattr) (expl : String) (f : Term) : Term :=
  let attrs := annotAttrs.union (attrs.union f.tAttrs)
  f.setAttrs (if attrsHasExpl attrs then attrs else attrs.union [expl])

/-! ## The formula -/

/-- A variant with its relation. -/
abbrev Variant := Term × Option LSymbol

/-- `accessible`. -/
def accessible (r : LSymbol) (t : Term) : Option Term := do
  let ty ← t.tTy
  let r ← tClosure r [ty, ty]
  psApp psAcc [r, t]

/-- `get_cs`. -/
def getCs : RsLogic → Option LSymbol
  | .rlLs cs => some cs
  | _ => none

/-- `add_arg`, for the arguments of a constructor from the right: a new variable in
the place of those of the type of `t`, one of which is `t`. -/
def addArgs (nty : Ty) (t : Term) : ℕ → List Ty → List Pattern × Term
  | _, [] => ([], .tfalse [])
  | n, fty :: l =>
    let (pl, acc) := addArgs nty t (n + 1) l
    if fty = nty then
      let vs : VSymbol := ⟨n, nty⟩
      (.pvar vs :: pl, tOrSimp (tEqu (.tvar [] vs) t) acc)
    else (.pwild fty :: pl, acc)

/-- `add_cs`. -/
def addCs (sbs : Mtv) (oty nty : Ty) (t : Term) (cs : LSymbol) : Pattern × Term :=
  let (pl, f) := addArgs nty t (freshTag t.freeVars) (cs.lsArgs.map (Ty.inst sbs))
  (.papp cs pl oty, f)

/-- `decrease_alg`. -/
def decreaseAlg (env : VcEnv) (oldT t : Term) : Option Term := do
  let oty ← oldT.tTy
  let nty ← t.tTy
  match oty with
  | .tyvar _ => none
  | .tyapp ts _ => do
    let rsl ← env.itdConstructors ts
    let csl ← rsl.mapM getCs
    if csl = [] then none
    else do
      let sbs ← tyMatch [] (dataTy ts) oty
      some (.tcase [] oldT (csl.map (addCs sbs oty nty t)))

/-- `t_nat_const`. -/
def tNatConst (n : ℕ) : Term := .tconst [] (.constInt .iLitUnk n) tyInt

/-- `int_of_range`. -/
def intOfRange (env : VcEnv) (ts : TySymbol) : Option LSymbol := env.tsRanges ts

/-- The order of the integers. -/
def decreaseInt (env : VcEnv) (oldT t : Term) : Option Term := do
  let f1 ← psApp env.psIntLe [tNatConst 0, oldT]
  let f2 ← psApp env.psIntLt [t, oldT]
  some (.tbinop [] .tand f1 f2)

/-- The order of a range type. -/
def decreaseRange (env : VcEnv) (ts : TySymbol) (oldT t : Term) : Option Term := do
  let ls ← intOfRange env ts
  let projT ← fsApp ls [t] tyInt
  let projOld ← fsApp ls [oldT] tyInt
  psApp env.psIntLt [projT, projOld]

/-- `decrease_def`. -/
def decreaseDef (env : VcEnv) (oldT t : Term) : Option Term := do
  let ty ← t.tTy
  let oty ← oldT.tTy
  let f ← (if oty = ty then
      match ty with
      | .tyapp ts _ =>
        if ts = tsInt then decreaseInt env oldT t
        else
          match ts.tsDef with
          | .range _ => decreaseRange env ts oldT t
          | _ => decreaseAlg env oldT t
      | .tyvar _ => decreaseAlg env oldT t
    else decreaseAlg env oldT t : Option Term)
  some (tAttrCopy t f)

/-- `t_equ`, with its check. -/
def equ (t1 t2 : Term) : Option Term := psApp psEqu [t1, t2]

/-- The order of a relation, in which the old value has to be accessible. -/
def decreaseRel (env : VcEnv) (r : LSymbol) (oldT t : Term) : Option Term := do
  let dt ← psApp r [t, oldT]
  if r ∈ env.provedWf then some dt
  else do
    let acc ← accessible r oldT
    some (.tbinop [] .tand dt acc)

/-- `decr`. -/
def decr (env : VcEnv) : List Variant → List Variant → Option Term
  | (oldT, some oldR) :: olds, (t, some r) :: news =>
    if oldR = r then
      if tEqual oldT t then decr env olds news
      else do
        let dt ← decreaseRel env r oldT t
        let eq ← equ oldT t
        let f ← decr env olds news
        some (tOrSimp (tAttrCopy t dt) (tAndSimp eq f))
    else some (.tfalse [])
  | (oldT, none) :: olds, (t, none) :: news =>
    if oldT.tTy = t.tTy then
      if tEqual oldT t then decr env olds news
      else do
        let dt ← decreaseDef env oldT t
        let eq ← equ oldT t
        let f ← decr env olds news
        some (tOrSimp dt (tAndSimp eq f))
    else decreaseDef env oldT t
  | _ :: _, [] => some (.ttrue [])
  | _, _ => some (.tfalse [])

/-- `decrease`. -/
def decrease (env : VcEnv) (attrs : Sattr) (expl : String) (olds news : List Variant) :
    Option Term :=
  if olds = [] ∧ news = [] then some (.ttrue [])
  else do
    let f ← decr env olds news
    some (vcExpl attrs expl f)

end Vc

end Why3

/-!
# The order of the variants is well founded

In a standard interpretation (the integers, ranges bounded below, finite algebraic
values, accessibility as the least predicate of its clause) a value is only smaller
than another one of the same relation, of the same type, or of a type of which it
is a component.  Each of these orders is well founded, a chain that has left the
algebraic values does not come back to them, and the tuples are compared in the
order of the dictionary.
-/

namespace Why3

open List Option Function Term Pattern

variable {r : LSymbol} {f f1 f2 oldT t t1 t2 : Term} {nty oty ty : Ty} {ts : TySymbol} {l : List Ty}

variable {sig : TySymbol → List LSymbol}

namespace Interp

variable (I : Interp sig)

/-- A binary predicate on the values of a type. -/
def Rel (r : LSymbol) (ty : Ty) (y x : I.Val) : Prop :=
  (r = psEqu ∧ y = x) ∨ (r ≠ psEqu ∧ I.pr r [some ty, some ty] [y, x])

/-- The values below `x` for a mapping that stands for a relation. -/
def Precedes (ty : Ty) (φ : I.Val) (y x : I.Val) : Prop :=
  I.mem ty y ∧ I.app ty tyBool (I.app ty (tyFunc ty tyBool) φ y) x = I.boolTrue

variable {I}

theorem holds_psApp (h : psApp r [t1, t2] = some f) (h1 : t1.tTy = some ty) (h2 : t2.tTy = some ty)
    (ρ : I.Env) : I.Holds ρ f ↔ I.Rel r ty (I.eval ρ t1) (I.eval ρ t2) := by
  obtain ⟨rfl, -⟩ := psApp_eq_some h
  by_cases hr : r = psEqu
  · subst hr
    simp [Rel]
  · rw [I.holds_tapp ρ [] hr]
    simp [Rel, hr, h1, h2]

end Interp

namespace Vc

open Interp

/-! ## Standard interpretations -/

/-- The types and symbols that the generator knows have their usual meaning, and the
relations of `proved_wf` are well founded. -/
structure Standard (env : VcEnv) (I : Interp sig) where
  toInt : I.Val → ℤ
  litExt : I.LitExt
  full : I.FullFunctions
  le_args : env.psIntLe.lsArgs = [tyInt, tyInt]
  lt_args : env.psIntLt.lsArgs = [tyInt, tyInt]
  int_const : ∀ k n, toInt (I.const (.constInt k n) tyInt) = n
  int_le : ∀ x y, I.mem tyInt x → I.mem tyInt y →
    (I.Rel env.psIntLe tyInt x y ↔ toInt x ≤ toInt y)
  int_lt : ∀ x y, I.mem tyInt x → I.mem tyInt y →
    (I.Rel env.psIntLt tyInt x y ↔ toInt x < toInt y)
  int_constrs : sig tsInt = []
  range_constrs : ∀ ts ir, ts.tsDef = .range ir → sig ts = []
  /-- The projection of a range type gives integers of the range. -/
  range_lower : ∀ ts ir ls l v, ts.tsDef = .range ir → env.tsRanges ts = some ls →
    I.mem (.tyapp ts l) v → ir.irLower ≤ toInt (I.fn ls [some (.tyapp ts l)] (some tyInt) [v])
  /-- The constructors of a type are the ones of the logic. -/
  constrs : ∀ ts rsl csl, env.itdConstructors ts = some rsl → rsl.mapM getCs = some csl →
    csl ≠ [] → csl = sig ts ∧ ∀ cs ∈ csl, cs.lsValue = some (dataTy ts)
  /-- Algebraic values are finite. -/
  finite : WellFounded I.Component
  /-- `acc` is the least predicate closed under its clause. -/
  acc_iff : ∀ ty φ x, I.mem (tyFunc ty (tyFunc ty tyBool)) φ → I.mem ty x →
    (I.pr psAcc [some (tyFunc ty (tyFunc ty tyBool)), some ty] [φ, x] ↔ Acc (I.Precedes ty φ) x)
  proved_wf : ∀ r ∈ env.provedWf, ∀ ty, WellFounded (fun y x =>
    I.mem ty y ∧ I.mem ty x ∧ I.Rel r ty y x)

/-! ## The order of the values -/

/-- A value of a variant, with its type and relation. -/
structure Entry (I : Interp sig) where
  rel : Option LSymbol
  ty : Ty
  val : I.Val

/-- The values below `x` for a relation. -/
def RelBelow (I : Interp sig) (r : LSymbol) (ty : Ty) (y x : I.Val) : Prop :=
  I.mem ty y ∧ I.mem ty x ∧ I.Rel r ty y x

variable {env : VcEnv} {I : Interp sig}

/-- The ways in which a value decreases. -/
inductive Smaller (S : Standard env I) : Entry I → Entry I → Prop
  | rel {r ty y x} : RelBelow I r ty y x → Acc (RelBelow I r ty) x →
      Smaller S ⟨some r, ty, y⟩ ⟨some r, ty, x⟩
  | int {y x} : 0 ≤ S.toInt x → S.toInt y < S.toInt x →
      Smaller S ⟨none, tyInt, y⟩ ⟨none, tyInt, x⟩
  | range {ts ir ls l y x} : ts.tsDef = .range ir → env.tsRanges ts = some ls →
      I.mem (.tyapp ts l) y → S.toInt (I.fn ls [some (.tyapp ts l)] (some tyInt) [y]) <
        S.toInt (I.fn ls [some (.tyapp ts l)] (some tyInt) [x]) →
      Smaller S ⟨none, .tyapp ts l, y⟩ ⟨none, .tyapp ts l, x⟩
  | component {nty oty y x} : I.Component (nty, y) (oty, x) →
      Smaller S ⟨none, nty, y⟩ ⟨none, oty, x⟩

section WellFounded

variable (S : Standard env I)

theorem not_component {e : Ty × I.Val} {x : I.Val} (hts : sig ts = []) :
    ¬ I.Component e (.tyapp ts l, x) := by
  rintro ⟨cs, dl, hx, hd, -⟩
  have := (I.dest_mem hx hd).1
  rw [constrsOf, hts] at this
  cases this

theorem acc_rel {x : I.Val} : Acc (Smaller S) ⟨some r, ty, x⟩ := by
  have hacc : ∀ x, Acc (RelBelow I r ty) x → Acc (Smaller S) ⟨some r, ty, x⟩ := by
    intro x hx
    induction hx with
    | intro x _ ih =>
      refine ⟨_, fun e he => ?_⟩
      cases he with
      | rel hyx _ => exact ih _ hyx
  refine ⟨_, fun e he => ?_⟩
  cases he with
  | rel hyx hx => exact hacc _ (hx.inv hyx)

/-- Integers decrease down to the first negative one. -/
theorem acc_int {x : I.Val} : Acc (Smaller S) ⟨none, tyInt, x⟩ := by
  induction hn : (S.toInt x + 1).toNat using Nat.strong_induction_on generalizing x with
  | _ n ih =>
    refine ⟨_, fun e he => ?_⟩
    generalize hd : (⟨none, tyInt, x⟩ : Entry I) = d at he
    cases he with
    | rel _ _ => cases hd
    | int h0 hlt =>
      cases hd
      exact ih _ (by omega) rfl
    | range hdef _ _ _ =>
      cases hd
      cases hdef
    | component hc =>
      cases hd
      exact absurd hc (not_component S.int_constrs)

theorem acc_range {ir : IntRange} {ls : LSymbol} {x : I.Val} (hdef : ts.tsDef = .range ir)
    (hls : env.tsRanges ts = some ls) (hx : I.mem (.tyapp ts l) x) :
    Acc (Smaller S) ⟨none, .tyapp ts l, x⟩ := by
  induction hn : (S.toInt (I.fn ls [some (.tyapp ts l)] (some tyInt) [x]) - ir.irLower).toNat
    using Nat.strong_induction_on generalizing x with
  | _ n ih =>
    refine ⟨_, fun e he => ?_⟩
    generalize hd : (⟨none, .tyapp ts l, x⟩ : Entry I) = d at he
    cases he with
    | rel _ _ => cases hd
    | int _ _ =>
      cases hd
      cases hdef
    | range hdef' hls' hy hlt =>
      cases hd
      obtain rfl : ls = _ := some.inj (hls.symm.trans hls')
      have hlow := S.range_lower _ _ _ _ _ hdef hls hy
      exact ih _ (by omega) hy rfl
    | component hc =>
      cases hd
      exact absurd hc (not_component (S.range_constrs _ _ hdef))

theorem acc_none (d : Ty × I.Val) : Acc (Smaller S) ⟨none, d.1, d.2⟩ := by
  induction d using S.finite.induction with
  | _ d ih =>
    obtain ⟨ty, x⟩ := d
    refine ⟨_, fun e he => ?_⟩
    cases he with
    | int _ _ => exact acc_int S
    | range hdef hls hy _ => exact acc_range S hdef hls hy
    | component hc => exact ih _ hc

theorem wellFounded_smaller : WellFounded (Smaller S) := by
  constructor
  rintro ⟨_ | r, ty, x⟩
  · exact acc_none S (ty, x)
  · exact acc_rel S

end WellFounded

/-! ## What the formulas say -/

section Formulas

variable {ρ : I.Env}

theorem holds_tOrSimp (h : I.Holds ρ (tOrSimp f1 f2)) : I.Holds ρ f1 ∨ I.Holds ρ f2 := by
  unfold tOrSimp at h
  split at h
  · exact .inl trivial
  · exact .inr trivial
  · exact .inr h
  · exact .inl (by simpa [tAttrRemove] using h)
  · split_ifs at h with heq
    · exact .inl h
    · exact h

theorem wt_tOrSimp (h1 : f1.Wt sig ∧ f1.tTy = none) (h2 : f2.Wt sig ∧ f2.tTy = none) :
    (tOrSimp f1 f2).Wt sig ∧ (tOrSimp f1 f2).tTy = none := by
  unfold tOrSimp
  split
  · exact ⟨trivial, rfl⟩
  · exact ⟨trivial, rfl⟩
  · exact h2
  · exact ⟨by simpa [tAttrRemove] using h1.1, by simpa [tAttrRemove] using h1.2⟩
  · split_ifs
    · exact h1
    · exact ⟨⟨h1.2, h2.2, h1.1, h2.1⟩, rfl⟩

/-- The mapping that stands for a relation has the relation's chains. -/
theorem holds_accessible (S : Standard env I) (hρ : I.Typed ρ) (h : accessible r t = some f)
    (hwt : t.Wt sig) (hty : t.tTy = some ty) :
    (f.Wt sig ∧ f.tTy = none) ∧ (I.Holds ρ f → Acc (RelBelow I r ty) (I.eval ρ t)) := by
  simp only [accessible, hty, bind_eq_bind, bind_some, bind_eq_some_iff] at h
  obtain ⟨lam, hlam, hf⟩ := h
  simp only [tClosure, bind_eq_bind, bind_eq_some_iff, Option.some.injEq] at hlam
  obtain ⟨b, hb, rfl⟩ := hlam
  let y : VSymbol := ⟨0, ty⟩
  let x : VSymbol := ⟨1, ty⟩
  have hvl : [ty, ty].mapIdx VSymbol.mk = [y, x] := rfl
  rw [hvl] at hf hb
  have hbwt : b.Wt sig ∧ b.tTy = none := wt_psApp hb (by
    intro u hu
    obtain ⟨v, _, rfl⟩ := mem_map.mp hu
    trivial)
  have hbody : lambdaBody b = b := by
    obtain ⟨rfl, -⟩ := psApp_eq_some hb
    rfl
  have hlam : tLambda [y, x] [] b = lambda [y, x] [] b := by simp [tLambda, hbody]
  rw [hlam] at hf
  obtain ⟨hlwt, hlty⟩ : (lambda [y, x] [] b).Wt sig ∧
      (lambda [y, x] [] b).tTy = some (tyFuncL [y, x] tyBool) := wt_lambda hbwt.1 hbwt.2
  have hxy : y ≠ x := by simp [y, x]
  have hnd : [y, x].Nodup := by simpa using hxy
  have hspec := holds_lambda S.full hnd hbwt.1 hbwt.2 hρ
  refine ⟨wt_psApp hf (by
    intro u hu
    rcases mem_pair.mp hu with rfl | rfl
    · exact hlwt
    · exact hwt), fun hholds => ?_⟩
  have hφ := eval_mem hlwt hlty hρ
  have hx := eval_mem hwt hty hρ
  obtain ⟨rfl, -⟩ := psApp_eq_some hf
  rw [I.holds_tapp ρ [] (by decide)] at hholds
  simp only [map_cons, map_nil, hlty, hty] at hholds
  generalize I.eval ρ (lambda [y, x] [] b) = φ at hspec hφ hholds
  -- the mapping and the relation agree
  have hrel : ∀ d e, I.mem ty d → I.mem ty e → I.Rel r ty d e →
      I.app ty tyBool (I.app ty (tyFunc ty tyBool) φ d) e = I.boolTrue := by
    intro d e hd he hde
    have := (hspec d hd e he).mpr
    rw [holds_psApp hb rfl rfl, eval_tvar, eval_tvar, update_self,
      update_of_ne hxy, update_self] at this
    have happ := this hde
    simp only [appVars, tyFuncL, update_self, update_of_ne hxy,
      foldr_cons, foldr_nil] at happ
    exact happ
  have hacc := (S.acc_iff ty φ (I.eval ρ t) hφ hx).mp hholds
  clear hholds hx
  generalize I.eval ρ t = x at hacc
  induction hacc with
  | intro x _ ih =>
    refine ⟨_, fun y hy => ?_⟩
    exact ih y ⟨hy.1, hrel y x hy.1 hy.2.1 hy.2.2⟩

/-- The pattern and the formula that a constructor gets. -/
theorem wt_addArgs (hwt : t.Wt sig) (hty : t.tTy = some nty) (tys : List Ty) : ∀ {n : ℕ},
      ((addArgs nty t n tys).2.Wt sig ∧ (addArgs nty t n tys).2.tTy = none) ∧
      (addArgs nty t n tys).1.map patTy = tys ∧
      (∀ p ∈ (addArgs nty t n tys).1, p.Ok sig ∧ p.Linear) ∧
      ((addArgs nty t n tys).1.flatMap patVars).Nodup ∧
      ∀ v ∈ (addArgs nty t n tys).1.flatMap patVars, n ≤ v.vsName := by
  induction tys with
  | nil => simp [addArgs, Wt, tTy]
  | cons fty tys ih =>
    intro n
    obtain ⟨hf, hpty, hok, hnd, hle⟩ := ih (n := n + 1)
    simp only [addArgs]
    split_ifs with heq
    · subst heq
      refine ⟨wt_tOrSimp ⟨wt_tEqu rfl hty trivial hwt, rfl⟩ hf, ?_, ?_, ?_, ?_⟩
      · rw [map_cons, hpty, patTy]
      · rw [forall_mem_cons]
        exact ⟨⟨trivial, trivial⟩, hok⟩
      · rw [flatMap_cons, patVars, singleton_append, nodup_cons]
        refine ⟨fun hmem => ?_, hnd⟩
        have := hle _ hmem
        simp at this
      · rw [flatMap_cons, patVars, singleton_append, forall_mem_cons]
        exact ⟨le_rfl, fun v hv => (Nat.le_succ n).trans (hle v hv)⟩
    · refine ⟨hf, ?_, ?_, ?_, ?_⟩
      · rw [map_cons, hpty, patTy]
      · rw [forall_mem_cons]
        exact ⟨⟨trivial, trivial⟩, hok⟩
      · rwa [flatMap_cons, patVars, nil_append]
      · rw [flatMap_cons, patVars, nil_append]
        exact fun v hv => (Nat.le_succ n).trans (hle v hv)

/-- The pattern matches, and the formula says that `t` is one of the arguments. -/
theorem match_addArgs (nty : Ty) (hwt : t.Wt sig) {tys : List Ty} :
    ∀ {n : ℕ} {dl : List I.Val}, dl.length = tys.length → (∀ v ∈ t.freeVars, v.vsName < n) →
      ∃ bs, matchArgs I.dest (addArgs nty t n tys).1 dl = some bs ∧
        (∀ b ∈ bs, n ≤ b.1.vsName) ∧
        ∀ ρ : I.Env, I.Holds (bindAll ρ bs) (addArgs nty t n tys).2 →
          (nty, I.eval ρ t) ∈ tys.zip dl := by
  induction tys with
  | nil =>
    intro n dl hlen _
    obtain rfl := length_eq_zero_iff.mp hlen
    exact ⟨[], rfl, by simp, fun _ h => by simp [addArgs] at h⟩
  | cons fty tys ih =>
    intro n dl hlen hfree
    obtain ⟨d, dl, rfl⟩ := exists_cons_of_length_eq_add_one hlen
    have hlen' : dl.length = tys.length := by simpa using hlen
    obtain ⟨bs, hbs, hle, hin⟩ := ih (n := n + 1) hlen' (fun v hv => (hfree v hv).trans (Nat.lt_succ_self n))
    simp only [addArgs]
    split_ifs with heq
    · subst heq
      refine ⟨bs ++ [(⟨n, fty⟩, d)], ?_, ?_, fun ρ h => ?_⟩
      · rw [matchArgs_cons, hbs]
        rfl
      · intro b hb
        rcases mem_append.mp hb with hb | hb
        · exact (Nat.le_succ n).trans (hle b hb)
        · rw [mem_singleton.mp hb]
      · -- the variable does not occur in `t`, nor is it bound again
        have hvs : (⟨n, fty⟩ : VSymbol) ∉ bs.map Prod.fst := by
          intro hmem
          obtain ⟨b, hb, hbn⟩ := mem_map.mp hmem
          have := hle b hb
          rw [hbn] at this
          simp at this
        have hupd : bindAll ρ [((⟨n, fty⟩ : VSymbol), d)] = update ρ ⟨n, fty⟩ d := by
          rw [bindAll_cons, bindAll_nil]
        rw [bindAll_append, hupd] at h
        have hsame : ∀ v ∈ t.freeVars, update ρ ⟨n, fty⟩ d v = ρ v := by
          intro v hv
          rw [update_of_ne]
          rintro rfl
          exact absurd (hfree _ hv) (lt_irrefl n)
        rcases holds_tOrSimp h with h | h
        · rw [holds_tEqu, eval_tvar, bindAll_of_not_mem hvs, update_self] at h
          have ht : I.eval (bindAll (update ρ ⟨n, fty⟩ d) bs) t = I.eval ρ t := by
            refine eval_congr hwt (fun v hv => ?_)
            rw [bindAll_of_not_mem, hsame v hv]
            intro hmem
            obtain ⟨b, hb, hbn⟩ := mem_map.mp hmem
            have := hle b hb
            rw [hbn] at this
            exact absurd (hfree v hv) (by omega)
          rw [← ht, ← h]
          exact mem_cons_self
        · have := hin _ h
          rw [eval_congr hwt hsame] at this
          exact mem_cons_of_mem _ this
    · refine ⟨bs, ?_, fun b hb => (Nat.le_succ n).trans (hle b hb), fun ρ h => ?_⟩
      · rw [matchArgs_cons, hbs, matchPat]
        simp
      · exact mem_cons_of_mem _ (hin ρ h)

theorem branch_of_holds {bl : List (Pattern × Term)} {d : I.Val} {x : Den I.Val}
    (h : (I.branches (bl.map (fun b => (b.1, I.sem b.2))) x d ρ).tr)
    (hm : ∃ b ∈ bl, matchPat I.dest b.1 d ≠ none) :
    ∃ b ∈ bl, ∃ bs, matchPat I.dest b.1 d = some bs ∧ I.Holds (bindAll ρ bs) b.2 := by
  induction bl with
  | nil =>
    obtain ⟨b, hb, -⟩ := hm
    cases hb
  | cons b bl ih =>
    rw [map_cons, branches_cons] at h
    cases hbm : matchPat I.dest b.1 d with
    | some bs =>
      simp only [hbm] at h
      exact ⟨b, mem_cons_self, bs, hbm, h⟩
    | none =>
      have hm' : ∃ b ∈ bl, matchPat I.dest b.1 d ≠ none := by
        obtain ⟨c, hc, hcm⟩ := hm
        rcases mem_cons.mp hc with rfl | hc
        · exact absurd hbm hcm
        · exact ⟨c, hc, hcm⟩
      have hne : bl.map (fun b => (b.1, I.sem b.2)) ≠ [] := by
        obtain ⟨c, hc, -⟩ := hm'
        rw [ne_eq, map_eq_nil_iff]
        exact ne_nil_of_mem hc
      simp only [hbm, if_neg hne] at h
      obtain ⟨c, hc, bs, hbs, hh⟩ := ih h hm'
      exact ⟨c, mem_cons_of_mem _ hc, bs, hbs, hh⟩

theorem component_of_decreaseAlg (S : Standard env I) (hρ : I.Typed ρ)
    (h : decreaseAlg env oldT t = some f) (hwo : oldT.Wt sig) (hto : oldT.tTy = some oty)
    (hwt : t.Wt sig) (hty : t.tTy = some nty) : (f.Wt sig ∧ f.tTy = none) ∧
      (I.Holds ρ f → I.Component (nty, I.eval ρ t) (oty, I.eval ρ oldT)) := by
  simp only [decreaseAlg, hto, hty, bind_eq_bind, bind_some] at h
  cases oty with
  | tyvar v => cases h
  | tyapp ts l =>
    simp only [bind_eq_some_iff] at h
    obtain ⟨rsl, hrsl, csl, hcsl, h⟩ := h
    split_ifs at h with hne
    simp only [bind_eq_some_iff, Option.some.injEq] at h
    obtain ⟨sbs, hsbs, rfl⟩ := h
    obtain ⟨hsig, hval⟩ := S.constrs ts rsl csl hrsl hcsl hne
    -- the arguments of a constructor have the types of the source
    have hargs : ∀ cs ∈ csl, argTys cs (.tyapp ts l) = cs.lsArgs.map (Ty.inst sbs) := by
      intro cs hcs
      simp only [argTys, hval cs hcs, hsbs, getD_some]
    have hfree : ∀ v ∈ t.freeVars, v.vsName < freshTag t.freeVars := fun v hv => lt_freshTag hv
    constructor
    · refine ⟨?_, ?_⟩
      · have htcase : (tcase [] oldT
            (csl.map (addCs sbs (.tyapp ts l) nty t))).tTy = none := by
          cases csl with
          | nil => exact absurd rfl hne
          | cons cs csl => exact (wt_addArgs hwt hty _).1.2
        simp only [Wt, wtBranches_iff, htcase]
        refine ⟨by simpa using hne, hwo, fun b hb => ?_⟩
        obtain ⟨cs, hcs, rfl⟩ := mem_map.mp hb
        obtain ⟨hf, hpty, hok, hnd, -⟩ := wt_addArgs hwt hty (cs.lsArgs.map (Ty.inst sbs))
          (n := freshTag t.freeVars)
        refine ⟨hto.symm, ?_, ?_, hf.2, hf.1⟩
        · simp only [addCs, Pattern.Ok, okList_iff]
          exact ⟨by rwa [constrsOf, ← hsig], hpty.trans (hargs cs hcs).symm, fun p hp => (hok p hp).1⟩
        · simp only [addCs, Pattern.Linear, linearList_iff]
          exact ⟨hnd, fun p hp => (hok p hp).2⟩
      · cases csl with
        | nil => exact absurd rfl hne
        | cons cs csl => exact (wt_addArgs hwt hty _).1.2
    · intro hholds
      have hd := eval_mem hwo hto hρ
      obtain ⟨⟨cs, dl⟩, hdest⟩ := I.dest_some hd (by rw [constrsOf, ← hsig]; exact hne)
      obtain ⟨hcs, hdl⟩ := I.dest_mem hd hdest
      rw [constrsOf, ← hsig] at hcs
      rw [Holds, sem_tcase] at hholds
      -- only the branch of the constructor matches
      have hmatch : ∀ cs' ∈ csl, ∀ bs, matchPat I.dest
          (addCs sbs (.tyapp ts l) nty t cs').1 (I.eval ρ oldT) = some bs → cs' = cs := by
        intro cs' _ bs hbs
        simp only [addCs, matchPat, hdest] at hbs
        split_ifs at hbs with heq
        exact heq.symm
      have hlen : dl.length = (cs.lsArgs.map (Ty.inst sbs)).length := by
        rw [← hdl.length_eq, hargs cs hcs]
      obtain ⟨bs, hbs, -, hin⟩ := match_addArgs nty hwt hlen hfree
      have hpat : matchPat I.dest (addCs sbs (.tyapp ts l) nty t cs).1 (I.eval ρ oldT) =
          some bs := by
        simp only [addCs, matchPat, hdest, if_true, hbs]
      obtain ⟨b, hb, bs', hbs', hh⟩ := branch_of_holds hholds
        ⟨_, mem_map_of_mem hcs, by rw [hpat]; exact some_ne_none bs⟩
      obtain ⟨cs', hcs', rfl⟩ := mem_map.mp hb
      obtain rfl := hmatch cs' hcs' bs' hbs'
      obtain rfl : bs = bs' := some.inj (hpat.symm.trans hbs')
      refine ⟨cs', dl, hd, hdest, ?_⟩
      rw [hargs cs' hcs]
      exact hin ρ hh

theorem forall_mem_pair {P : Term → Prop} (h1 : P t1) (h2 : P t2) : ∀ t ∈ [t1, t2], P t := by
  intro t ht
  rcases mem_pair.mp ht with rfl | rfl
  · exact h1
  · exact h2

/-- The formula `f` says that the new value is smaller. -/
structure Says (S : Standard env I) (ρ : I.Env) (f : Term) (o : Option LSymbol) (oldT t : Term)
    (oty nty : Ty) : Prop where
  wt : f.Wt sig
  ty : f.tTy = none
  smaller : I.Holds ρ f → Smaller S ⟨o, nty, I.eval ρ t⟩ ⟨o, oty, I.eval ρ oldT⟩

theorem tyInt_of_psApp {ps : LSymbol} {ty1 ty2 : Ty} (hargs : ps.lsArgs = [tyInt, tyInt])
    (h : psApp ps [t1, t2] = some f) (h1 : t1.tTy = some ty1) (h2 : t2.tTy = some ty2) :
    ty1 = tyInt ∧ ty2 = tyInt := by
  obtain ⟨m, htys, -⟩ := (psApp_eq_some h).2
  have hinst : tyInt.inst m = tyInt := rfl
  simpa [hargs, h1, h2, hinst] using htys

theorem says_decreaseInt (S : Standard env I) (hρ : I.Typed ρ) (h : decreaseInt env oldT t = some f)
    (hwo : oldT.Wt sig) (hto : oldT.tTy = some oty) (hwt : t.Wt sig) (hty : t.tTy = some nty) :
    Says S ρ f none oldT t oty nty := by
  simp only [decreaseInt, bind_eq_bind, bind_eq_some_iff, Option.some.injEq] at h
  obtain ⟨f1, hf1, f2, hf2, rfl⟩ := h
  obtain ⟨rfl, rfl⟩ := tyInt_of_psApp S.lt_args hf2 hty hto
  obtain ⟨hw1, ht1⟩ : f1.Wt sig ∧ f1.tTy = none := wt_psApp hf1 (forall_mem_pair trivial hwo)
  obtain ⟨hw2, ht2⟩ := wt_psApp hf2 (forall_mem_pair hwt hwo)
  refine ⟨⟨ht1, ht2, hw1, hw2⟩, rfl, fun hh => ?_⟩
  have hmo := eval_mem hwo hto hρ
  have hmt := eval_mem hwt hty hρ
  have hle := (holds_psApp hf1 rfl hto ρ).mp hh.1
  have hlt := (holds_psApp hf2 hty hto ρ).mp hh.2
  have hconst : S.toInt (I.eval ρ (tNatConst 0)) = 0 := S.int_const _ _
  have hmz : I.mem tyInt (I.eval ρ (tNatConst 0)) := I.const_mem _ _
  rw [S.int_le _ _ hmz hmo, hconst] at hle
  exact .int hle ((S.int_lt _ _ hmt hmo).mp hlt)

theorem says_decreaseRange (S : Standard env I) (hρ : I.Typed ρ) {ir : IntRange}
    (hdef : ts.tsDef = .range ir) (h : decreaseRange env ts oldT t = some f) (hwo : oldT.Wt sig)
    (hto : oldT.tTy = some (.tyapp ts l)) (hwt : t.Wt sig) (hty : t.tTy = some (.tyapp ts l)) :
    Says S ρ f none oldT t (.tyapp ts l) (.tyapp ts l) := by
  simp only [decreaseRange, intOfRange, bind_eq_bind, bind_eq_some_iff] at h
  obtain ⟨ls, hls, projT, hp, projOld, hpo, hf⟩ := h
  have hmem : ∀ {u : Term}, u.Wt sig → ∀ v ∈ [u], v.Wt sig := by
    intro u hu v hv
    rwa [mem_singleton.mp hv]
  obtain ⟨hwp, htp⟩ := wt_fsApp hp (hmem hwt)
  obtain ⟨hwpo, htpo⟩ := wt_fsApp hpo (hmem hwo)
  obtain ⟨hwf, htf⟩ := wt_psApp hf (forall_mem_pair hwp hwpo)
  refine ⟨hwf, htf, fun hh => ?_⟩
  have hlt := (holds_psApp hf htp htpo ρ).mp hh
  rw [S.int_lt _ _ (eval_mem hwp htp hρ) (eval_mem hwpo htpo hρ)] at hlt
  obtain ⟨rfl, -⟩ := fsApp_eq_some hp
  obtain ⟨rfl, -⟩ := fsApp_eq_some hpo
  simp only [eval_tapp, map_cons, map_nil, hto, hty] at hlt
  exact .range hdef hls (eval_mem hwt hty hρ) hlt

theorem says_decreaseDef (S : Standard env I) (hρ : I.Typed ρ) (h : decreaseDef env oldT t = some f)
    (hwo : oldT.Wt sig) (hto : oldT.tTy = some oty) (hwt : t.Wt sig) (hty : t.tTy = some nty) :
    Says S ρ f none oldT t oty nty := by
  simp only [decreaseDef, hto, hty, bind_eq_bind, bind_some,
    bind_eq_some_iff, Option.some.injEq] at h
  obtain ⟨f, hf, rfl⟩ := h
  have halg : decreaseAlg env oldT t = some f → Says S ρ f none oldT t oty nty := by
    intro halg
    obtain ⟨⟨hwf, htf⟩, hc⟩ := component_of_decreaseAlg S hρ halg hwo hto hwt hty
    exact ⟨hwf, htf, fun hh => .component (hc hh)⟩
  have hsays : Says S ρ f none oldT t oty nty := by
    split_ifs at hf with heq
    · subst heq
      cases oty with
      | tyvar v => exact halg hf
      | tyapp ts l =>
        simp only at hf
        split_ifs at hf with hint
        · exact says_decreaseInt S hρ hf hwo hto hwt hty
        · split at hf
          · next hdef => exact says_decreaseRange S hρ hdef hf hwo hto hwt hty
          · exact halg hf
    · exact halg hf
  exact ⟨by simpa [tAttrCopy] using hsays.wt, by simpa [tAttrCopy] using hsays.ty,
    fun hh => hsays.smaller (by simpa [tAttrCopy] using hh)⟩

theorem says_decreaseRel (S : Standard env I) (hρ : I.Typed ρ)
    (h : decreaseRel env r oldT t = some f) (hwo : oldT.Wt sig) (hto : oldT.tTy = some ty)
    (hwt : t.Wt sig) (hty : t.tTy = some ty) : Says S ρ f (some r) oldT t ty ty := by
  simp only [decreaseRel, bind_eq_bind, bind_eq_some_iff] at h
  obtain ⟨dt, hdt, h⟩ := h
  obtain ⟨hwd, htd⟩ := wt_psApp hdt (forall_mem_pair hwt hwo)
  have hmo := eval_mem hwo hto hρ
  have hmt := eval_mem hwt hty hρ
  have hbelow : I.Holds ρ dt → RelBelow I r ty (I.eval ρ t) (I.eval ρ oldT) :=
    fun hh => ⟨hmt, hmo, (holds_psApp hdt hty hto ρ).mp hh⟩
  split_ifs at h with hwf
  · obtain rfl := some.inj h
    exact ⟨hwd, htd, fun hh => .rel (hbelow hh) ((S.proved_wf r hwf ty).apply _)⟩
  · simp only [bind_eq_some_iff, Option.some.injEq] at h
    obtain ⟨acc, hacc, rfl⟩ := h
    obtain ⟨⟨hwa, hta⟩, hspec⟩ := holds_accessible S hρ hacc hwo hto
    exact ⟨⟨htd, hta, hwd, hwa⟩, rfl, fun hh => .rel (hbelow hh.1) (hspec hh.2)⟩

/-! ## The tuples -/

/-- The variant has this value. -/
def Denotes (ρ : I.Env) (v : Variant) (e : Entry I) : Prop :=
  v.1.Wt sig ∧ v.1.tTy = some e.ty ∧ I.eval ρ v.1 = e.val ∧ v.2 = e.rel

theorem holds_tAndSimp (hlit : I.LitExt) (h1 : f1.Wt sig ∧ f1.tTy = none)
    (h2 : f2.Wt sig ∧ f2.tTy = none) (hρ : I.Typed ρ) :
    I.Holds ρ (tAndSimp f1 f2) ↔ I.Holds ρ f1 ∧ I.Holds ρ f2 :=
  (equiv_tAndSimp hlit h1.1 h2.1 h1.2 h2.2).tr hρ rfl

/-- A decrease, or equal values and what follows. -/
theorem lex_of_or (S : Standard env I) (hρ : I.Typed ρ) {dt eq : Term} {o : Option LSymbol}
    {os ns : List (Entry I)} (hdt : Says S ρ dt o oldT t ty ty) (heq : equ oldT t = some eq)
    (hwo : oldT.Wt sig) (hwt : t.Wt sig)
    (hf : (f.Wt sig ∧ f.tTy = none) ∧ (I.Holds ρ f → List.Lex (Smaller S) ns os)) :
    ((tOrSimp dt (tAndSimp eq f)).Wt sig ∧ (tOrSimp dt (tAndSimp eq f)).tTy = none) ∧
      (I.Holds ρ (tOrSimp dt (tAndSimp eq f)) →
        List.Lex (Smaller S) (⟨o, ty, I.eval ρ t⟩ :: ns) (⟨o, ty, I.eval ρ oldT⟩ :: os)) := by
  have hweq := wt_psApp heq (forall_mem_pair hwo hwt)
  have hand := equiv_tAndSimp S.litExt hweq.1 hf.1.1 hweq.2 hf.1.2
  refine ⟨wt_tOrSimp ⟨hdt.wt, hdt.ty⟩ ⟨hand.wt, hand.ty⟩, fun hh => ?_⟩
  rcases holds_tOrSimp hh with hh | hh
  · exact .rel (hdt.smaller hh)
  · rw [holds_tAndSimp S.litExt hweq hf.1 hρ] at hh
    obtain ⟨rfl, -⟩ := psApp_eq_some heq
    have hval := (I.holds_equ ρ [] oldT t none).mp hh.1
    rw [← hval]
    exact .cons (hf.2 hh.2)

/-- The formula of the tuples says that the new one comes first. -/
theorem lex_of_decr (S : Standard env I) (hρ : I.Typed ρ) {olds : List Variant} :
    ∀ {news : List Variant} {os ns : List (Entry I)} {f : Term},
      List.Forall₂ (Denotes ρ) olds os → List.Forall₂ (Denotes ρ) news ns →
      decr env olds news = some f → (f.Wt sig ∧ f.tTy = none) ∧
        (I.Holds ρ f → List.Lex (Smaller S) ns os) := by
  induction olds with
  | nil =>
    intro news os ns f _ _ h
    obtain rfl : tfalse [] = f := by cases news <;> simpa [decr] using h
    exact ⟨⟨trivial, rfl⟩, fun hh => absurd hh id⟩
  | cons v olds ih =>
    intro news os ns f hos hns h
    obtain ⟨oldT, oldR⟩ := v
    cases hos with
    | @cons _ o _ os hv hos =>
    obtain ⟨hwo, hto, hvo, hro⟩ := hv
    cases news with
    | nil =>
      cases hns
      have hf : f = .ttrue [] := by cases oldR <;> simpa [decr, eq_comm] using h
      subst hf
      exact ⟨⟨trivial, rfl⟩, fun _ => .nil⟩
    | cons w news =>
      obtain ⟨t, r⟩ := w
      cases hns with
      | @cons _ n _ ns hw hns =>
      obtain ⟨hwt, htt, hvt, hrt⟩ := hw
      obtain ⟨orel, oty, oval⟩ := o
      obtain ⟨nrel, nty, nval⟩ := n
      simp only at hto hvo hro htt hvt hrt
      subst hvo hro hvt hrt
      -- values of equal terms are equal, and so are their types
      have hequal : tEqual oldT t = true → oty = nty ∧ I.eval ρ oldT = I.eval ρ t := by
        intro he
        have hty := tTy_of_tEqual he
        rw [hto, htt, Option.some.injEq] at hty
        exact ⟨hty, by rw [Interp.eval, Interp.eval, sem_tEqual S.litExt hwo hwt he]⟩
      cases oldR with
      | none =>
        cases r with
        | some r =>
          obtain rfl : tfalse [] = f := by simpa [decr] using h
          exact ⟨⟨trivial, rfl⟩, fun hh => absurd hh id⟩
        | none =>
          simp only [decr] at h
          split_ifs at h with hty he
          · obtain ⟨rfl, hval⟩ := hequal he
            obtain ⟨hwf, hlex⟩ := ih hos hns h
            exact ⟨hwf, fun hh => hval ▸ .cons (hlex hh)⟩
          · rw [hto, htt, Option.some.injEq] at hty
            subst hty
            simp only [bind_eq_bind, bind_eq_some_iff, Option.some.injEq] at h
            obtain ⟨dt, hdt, eq, heq, f, hf, rfl⟩ := h
            exact lex_of_or S hρ (says_decreaseDef S hρ hdt hwo hto hwt htt) heq hwo hwt
              (ih hos hns hf)
          · have hs := says_decreaseDef S hρ h hwo hto hwt htt
            exact ⟨⟨hs.wt, hs.ty⟩, fun hh => .rel (hs.smaller hh)⟩
      | some oldR =>
        cases r with
        | none =>
          obtain rfl : tfalse [] = f := by simpa [decr] using h
          exact ⟨⟨trivial, rfl⟩, fun hh => absurd hh id⟩
        | some r =>
          simp only [decr] at h
          split_ifs at h with hr he
          · subst hr
            obtain ⟨rfl, hval⟩ := hequal he
            obtain ⟨hwf, hlex⟩ := ih hos hns h
            exact ⟨hwf, fun hh => hval ▸ .cons (hlex hh)⟩
          · subst hr
            simp only [bind_eq_bind, bind_eq_some_iff, Option.some.injEq] at h
            obtain ⟨dt, hdt, eq, heq, f, hf, rfl⟩ := h
            -- an equation has two sides of one type
            obtain ⟨-, t1, t2, tye, htl, h1, h2, -, -⟩ :=
              wt_psEqu ((psApp_eq_some heq).1 ▸ (wt_psApp heq (forall_mem_pair hwo hwt)).1)
            obtain ⟨rfl, rfl⟩ : oldT = t1 ∧ t = t2 := by simpa using htl
            obtain rfl : oty = tye := some.inj (hto.symm.trans h1)
            obtain rfl : oty = nty := some.inj (h2.symm.trans htt)
            have hs := says_decreaseRel S hρ hdt hwo hto hwt htt
            have hs' : Says S ρ (tAttrCopy t dt) (some oldR) oldT t oty oty :=
              ⟨by simpa [tAttrCopy] using hs.wt, by simpa [tAttrCopy] using hs.ty,
                fun hh => hs.smaller (by simpa [tAttrCopy] using hh)⟩
            exact lex_of_or S hρ hs' heq hwo hwt (ih hos hns hf)
          · obtain rfl := some.inj h
            exact ⟨⟨trivial, rfl⟩, fun hh => absurd hh id⟩

end Formulas

/-! ## Infinite runs -/

/-- The generator's formula for some variants with these values holds. -/
def Decreases (env : VcEnv) (I : Interp sig) (os ns : List (Entry I)) : Prop :=
  ∃ (ρ : I.Env) (olds news : List Variant) (attrs : Sattr) (expl : String) (f : Term),
    I.Typed ρ ∧ List.Forall₂ (Denotes ρ) olds os ∧ List.Forall₂ (Denotes ρ) news ns ∧
    decrease env attrs expl olds news = some f ∧ I.Holds ρ f

/-- The new tuple comes first, unless there are no variants at all. -/
theorem lex_of_decreases (S : Standard env I) {os ns : List (Entry I)}
    (h : Decreases env I os ns) : (os = [] ∧ ns = []) ∨ List.Lex (Smaller S) ns os := by
  obtain ⟨ρ, olds, news, attrs, expl, f, hρ, hos, hns, hf, hh⟩ := h
  by_cases hne : olds = [] ∧ news = []
  · obtain ⟨rfl, rfl⟩ := hne
    cases hos
    cases hns
    exact .inl ⟨rfl, rfl⟩
  · simp only [decrease, if_neg hne, bind_eq_bind, bind_eq_some_iff,
      Option.some.injEq] at hf
    obtain ⟨f, hf, rfl⟩ := hf
    exact .inr ((lex_of_decr S hρ hos hns hf).2 (by simpa [vcExpl] using hh))

/-- A tuple without variants is followed by such tuples only. -/
theorem nil_of_decreases (S : Standard env I) {s : ℕ → List (Entry I)}
    (h : ∀ n, Decreases env I (s n) (s (n + 1))) {n : ℕ} (hn : s n = []) {m : ℕ} (hm : n ≤ m) :
    s m = [] := by
  induction hm with
  | refl => exact hn
  | @step m _ ih =>
    rcases lex_of_decreases S (h m) with ⟨-, h'⟩ | hlex
    · exact h'
    · rw [ih] at hlex
      exact absurd hlex not_lex_nil

/-- A chain of decreasing tuples of bounded length ends in tuples without variants: no chain of
tuples with variants is infinite. -/
theorem decrease_wellFounded (S : Standard env I) (s : ℕ → List (Entry I)) (N : ℕ)
    (hN : ∀ n, (s n).length ≤ N) (h : ∀ n, Decreases env I (s n) (s (n + 1))) :
    ∃ n, ∀ m, n ≤ m → s m = [] := by
  by_contra hno
  have hne : ∀ n, s n ≠ [] := fun n hn => hno ⟨n, fun m hm => nil_of_decreases S h hn hm⟩
  refine LexMeasure.not_descending (LexMeasure.wellFounded_listLex (wellFounded_smaller S) N) s
    (fun n => ⟨hN _, hN _, ?_⟩)
  rcases lex_of_decreases S (h n) with ⟨hnil, -⟩ | hlex
  · exact absurd hnil (hne n)
  · exact hlex

/-! ## An environment over the integers -/

namespace Ints

open FunSpace

def psLe : LSymbol := ⟨700, [tyInt, tyInt], none, 0, false⟩
def psLt : LSymbol := ⟨701, [tyInt, tyInt], none, 0, false⟩

/-- A relation with the meta `vc:proved_wf`. -/
def psDown : LSymbol := ⟨702, [tyInt, tyInt], none, 0, false⟩

def intEnv : VcEnv where
  itdConstructors _ := none
  tsRanges _ := none
  provedWf := [psDown]
  psIntLe := psLe
  psIntLt := psLt

/-- The predicates of the environment, and accessibility. -/
def preds (s : LSymbol) (tys : List (Option Ty)) : List FunSpace.Val → Prop
  | [x, y] =>
    (s = psLe ∧ toInt x ≤ toInt y) ∨ (s = psLt ∧ toInt x < toInt y) ∨
    (s = psDown ∧ 0 ≤ toInt x ∧ toInt x < toInt y) ∨
    (s = psAcc ∧ ∀ ty, tys = [some (tyFunc ty (tyFunc ty tyBool)), some ty] →
      Acc ((FunSpace.interp (fun _ _ _ => False)).Precedes ty x) y)
  | _ => False

noncomputable def interp : Interp (fun _ => []) := FunSpace.interp preds

theorem rel_down {y x : FunSpace.Val} (h : interp.Rel psDown ty y x) :
    0 ≤ toInt y ∧ toInt y < toInt x := by
  obtain ⟨heq, -⟩ | ⟨-, hpr⟩ := h
  · exact absurd heq (by decide)
  · obtain ⟨heq, -⟩ | ⟨heq, -⟩ | ⟨-, h⟩ | ⟨heq, -⟩ := hpr
    · exact absurd heq (by decide)
    · exact absurd heq (by decide)
    · exact h
    · exact absurd heq (by decide)

theorem toNat_lt_toNat {y x : FunSpace.Val} (h : interp.Rel psDown ty y x) :
    (toInt y).toNat < (toInt x).toNat := by
  have := rel_down h
  omega

noncomputable def standard : Standard intEnv interp where
  toInt := toInt
  litExt := litExt_interp _
  full := fullFunctions_interp _
  le_args := rfl
  lt_args := rfl
  int_const := fun _ n => toInt_ofInt dom_int n
  int_le := by
    intro x y _ _
    simp [Interp.Rel, interp, FunSpace.interp, preds, intEnv, psLe, psLt, psDown, psAcc, psEqu]
  int_lt := by
    intro x y _ _
    simp [Interp.Rel, interp, FunSpace.interp, preds, intEnv, psLe, psLt, psDown, psAcc, psEqu]
  int_constrs := rfl
  range_constrs := fun _ _ _ => rfl
  range_lower := fun _ _ _ _ _ _ h => by cases h
  constrs := fun _ _ _ h => by cases h
  finite := ⟨fun d => ⟨d, fun e he => by
    obtain ⟨cs, dl, -, hd, -⟩ := he
    cases hd⟩⟩
  acc_iff := by
    intro ty φ x _ _
    constructor
    · rintro (⟨heq, -⟩ | ⟨heq, -⟩ | ⟨heq, -⟩ | ⟨-, h⟩)
      · exact absurd heq (by decide)
      · exact absurd heq (by decide)
      · exact absurd heq (by decide)
      · exact h ty rfl
    · intro h
      refine .inr (.inr (.inr ⟨rfl, fun ty' hty => ?_⟩))
      simp only [List.cons.injEq, Option.some.injEq, and_true] at hty
      rw [← hty.2]
      exact h
  proved_wf := by
    intro r hr ty
    obtain rfl : r = psDown := by simpa [intEnv] using hr
    refine Subrelation.wf (r := InvImage (· < ·) (fun x : FunSpace.Val => (toInt x).toNat)) ?_
      (InvImage.wf _ Nat.lt_wfRel.wf)
    rintro y x ⟨-, -, h⟩
    exact toNat_lt_toNat h

end Ints

namespace Ints

open FunSpace

def x : VSymbol := ⟨703, tyInt⟩
def y : VSymbol := ⟨704, tyInt⟩

/-- Variants with a relation and an integer: the integer decreases below the same first
component, then the first component decreases and the integer grows, and then comes a function
without variants. -/
noncomputable def chain : ℕ → List (Entry interp)
  | 0 => [⟨some psDown, tyInt, ofInt tyInt 5⟩, ⟨none, tyInt, ofInt tyInt 5⟩]
  | 1 => [⟨some psDown, tyInt, ofInt tyInt 5⟩, ⟨none, tyInt, ofInt tyInt 3⟩]
  | 2 => [⟨some psDown, tyInt, ofInt tyInt 3⟩, ⟨none, tyInt, ofInt tyInt 5⟩]
  | _ => []

noncomputable def val (v : VSymbol) : FunSpace.Val :=
  if v = x then ofInt tyInt 5 else if v = y then ofInt tyInt 3 else ⟨v.vsTy, dflt v.vsTy⟩

theorem typed_val : interp.Typed val := by
  intro v
  show (val v).1 = v.vsTy
  unfold val
  split_ifs with h1 h2
  · rw [h1]
    rfl
  · rw [h2]
    rfl
  · rfl

theorem denotes_x (r : Option LSymbol) :
    Denotes val (.tvar [] x, r) (⟨r, tyInt, ofInt tyInt 5⟩ : Entry interp) := by
  refine ⟨trivial, rfl, ?_, rfl⟩
  show val x = _
  simp [val]

theorem denotes_y (r : Option LSymbol) :
    Denotes val (.tvar [] y, r) (⟨r, tyInt, ofInt tyInt 3⟩ : Entry interp) := by
  refine ⟨trivial, rfl, ?_, rfl⟩
  show val y = _
  have hyx : y ≠ x := by decide
  simp [val, hyx]

theorem length_chain (n : ℕ) : (chain n).length ≤ 2 := by
  match n with
  | 0 | 1 | 2 => exact le_rfl
  | n + 3 => exact Nat.zero_le 2

theorem decreases_chain (n : ℕ) : Decreases intEnv interp (chain n) (chain (n + 1)) := by
  have hyx : y ≠ x := by decide
  have hpair : ∀ {e e' : Entry interp} {v v' : Variant}, Denotes val v e → Denotes val v' e' →
      List.Forall₂ (Denotes val) [v, v'] [e, e'] := fun h h' => .cons h (.cons h' .nil)
  match n with
  | 0 =>
    refine ⟨val, _, _, [], "", vcExpl [] "" (tAttrRemove asymSplit (.tbinop [] .tand
      (.tapp [] psLe [tNatConst 0, .tvar [] x] none)
      (.tapp [] psLt [.tvar [] y, .tvar [] x] none))), typed_val,
      hpair (denotes_x _) (denotes_x _), hpair (denotes_x _) (denotes_y _), rfl, ?_⟩
    have hle : interp.Holds val (.tapp [] psLe [tNatConst 0, .tvar [] x] none) := by
      rw [interp.holds_tapp val [] (by decide)]
      refine .inl ⟨rfl, ?_⟩
      show toInt (ofInt tyInt 0) ≤ toInt (val x)
      simp [val, toInt_ofInt dom_int]
    have hlt : interp.Holds val (.tapp [] psLt [.tvar [] y, .tvar [] x] none) := by
      rw [interp.holds_tapp val [] (by decide)]
      refine .inr (.inl ⟨rfl, ?_⟩)
      show toInt (val y) < toInt (val x)
      simp [val, hyx, toInt_ofInt dom_int]
    simpa [vcExpl, tAttrRemove] using ⟨hle, hlt⟩
  | 1 =>
    refine ⟨val, _, _, [], "", vcExpl [] "" (.tbinop [] .tor
      (.tapp [] psDown [.tvar [] y, .tvar [] x] none)
      (.tbinop [] .tand (tEqu (.tvar [] x) (.tvar [] y)) (.tbinop [] .tand
        (.tapp [] psLe [tNatConst 0, .tvar [] y] none)
        (.tapp [] psLt [.tvar [] x, .tvar [] y] none)))), typed_val,
      hpair (denotes_x _) (denotes_y _), hpair (denotes_y _) (denotes_x _), rfl, ?_⟩
    have hdown : interp.Holds val (.tapp [] psDown [.tvar [] y, .tvar [] x] none) := by
      rw [interp.holds_tapp val [] (by decide)]
      refine .inr (.inr (.inl ⟨rfl, ?_⟩))
      show 0 ≤ toInt (val y) ∧ toInt (val y) < toInt (val x)
      simp [val, hyx, toInt_ofInt dom_int]
    simpa [vcExpl] using .inl hdown
  | 2 =>
    exact ⟨val, _, [], [], "", _, typed_val, hpair (denotes_y _) (denotes_x _), .nil, rfl, trivial⟩
  | n + 3 => exact ⟨val, [], [], [], "", .ttrue [], typed_val, .nil, .nil, rfl, trivial⟩

end Ints

open Ints in
theorem decrease_wellFounded_pairs : ∃ n, ∀ m, n ≤ m → chain m = [] :=
  decrease_wellFounded standard chain 2 length_chain decreases_chain

open Ints FunSpace in
/-- A call from a function without variants to another one always decreases. -/
theorem decreases_nil_forever :
    ¬ ∀ (sig : TySymbol → List LSymbol) (env : VcEnv) (I : Interp sig), Nonempty (Standard env I) →
      ∀ (s : ℕ → List (Entry I)) (N : ℕ), (∀ n, (s n).length ≤ N) →
        ¬ ∀ n, Decreases env I (s n) (s (n + 1)) := by
  intro h
  refine h _ intEnv interp ⟨standard⟩ (fun _ => []) 0 (fun _ => le_rfl) (fun _ => ?_)
  exact ⟨val, [], [], [], "", .ttrue [], typed_val, .nil, .nil, rfl,
    trivial⟩

end Vc

end Why3
