import Why3.Core.Decl
import Why3.Core.TySubst
import Why3.Mlw.Effect

/-!
# Types of computations

`create_cty` and `cty_apply` of `mlw/ity.ml`.  A computation type hides the effects on
the regions that its caller cannot know, and turns the writes that the resets have
invalidated into no effect at all; applying it instantiates its effect.
-/

namespace Why3

inductive Mask
  | maskVisible
  | maskTuple (l : List Mask)
  | maskGhost

namespace Mask

def isVisible : Mask → Bool
  | .maskVisible => true
  | _ => false

def isGhost : Mask → Bool
  | .maskGhost => true
  | _ => false

mutual
/-- `mask_reduce`. -/
def reduce : Mask → Mask
  | .maskVisible => .maskVisible
  | .maskGhost => .maskGhost
  | .maskTuple l =>
    let l := reduceList l
    if l.all isVisible then .maskVisible
    else if l.all isGhost then .maskGhost
    else .maskTuple l
def reduceList : List Mask → List Mask
  | [] => []
  | m :: l => m.reduce :: reduceList l
end

end Mask

/-- What the functions read of their environment: the symbols of the tuples and the
variables made by `create_pvsymbol`. -/
structure ItyEnv where
  /-- `its_tuple`. -/
  itsTuple : ℕ → ItySymbol
  restorePv : VSymbol → Option PvSymbol

namespace ItyEnv

variable (env : ItyEnv)

/-- `is_ts_tuple`. -/
def isTsTuple (ts : TySymbol) : Bool := decide (ts = (env.itsTuple ts.tsArgs.length).itsTs)

/-- `ity_unit`. -/
def ityUnit : Ity := .ityapp (env.itsTuple 0) [] []

end ItyEnv

/-- `cty`. -/
structure Cty where
  ctyArgs : List PvSymbol
  ctyPre : List Term
  ctyPost : List Term
  ctyXpost : Mxs (List Term)
  ctyOldies : Mpv PvSymbol
  ctyEffect : Effect
  ctyResult : Ity
  ctyMask : Mask
  ctyFreeze : ItySubst

mutual
/-- `ity_purify`. -/
def Ity.purify : Ity → Ity
  | .ityreg (.mk _ s tl rl) => .ityapp s (Ity.purifyList tl) (Ity.purifyList rl)
  | .ityapp s tl rl => .ityapp s (Ity.purifyList tl) (Ity.purifyList rl)
  | .ityvar v => .ityvar v
def Ity.purifyList : List Ity → List Ity
  | [] => []
  | t :: tl => t.purify :: Ity.purifyList tl
end

namespace Cty

open Effect

variable (env : ItyEnv)

mutual
/-- `mask_check`. -/
def maskCheck (t : Ity) : Mask → Except EffectExn Unit
  | .maskVisible | .maskGhost => .ok ()
  | .maskTuple l =>
    match t with
    | .ityapp s tl _ =>
      if env.isTsTuple s.itsTs && tl.length == l.length then maskCheckList tl l
      else .error .invalidArgument
    | _ => .error .invalidArgument
def maskCheckList : List Ity → List Mask → Except EffectExn Unit
  | t :: tl, m :: l => do
    maskCheck t m
    maskCheckList tl l
  | _, _ => .ok ()
end

attribute [grind =] maskCheck maskCheckList

/-- `mask_adjust`. -/
def maskAdjust (eff : Effect) (t : Ity) (mask : Mask) : Mask :=
  if eff.effGhost then .maskGhost
  else if t = env.ityUnit then .maskVisible
  else mask

/-- `cty_unsafe`. -/
def ctyUnsafe (args : List PvSymbol) (pre post : List Term) (xpost : Mxs (List Term))
    (oldies : Mpv PvSymbol) (effekt : Effect) (result : Ity) (mask : Mask) (freeze : ItySubst) :
    Cty where
  ctyArgs := args
  ctyPre := pre
  ctyPost := post
  ctyXpost := xpost
  ctyOldies := oldies
  ctyEffect := effekt
  ctyResult := result
  ctyMask := maskAdjust env effekt result mask
  ctyFreeze := freeze

/-! ## Checks on specifications -/

/-- `ity_match`, with its exception. -/
def tryMatch (sbs : ItySubst) (t1 t2 : Ity) : Except EffectExn ItySubst :=
  match ityMatch sbs t1 t2 with
  | some sbs => .ok sbs
  | none => .error (.ityMismatch t1 t2)

/-- `ity_freeze`. -/
def ityFreeze (sbs : ItySubst) (t : Ity) : Except EffectExn ItySubst := tryMatch sbs t t

/-- `isb_empty`. -/
def isbEmpty : ItySubst := ⟨[], []⟩

/-- The formulas that `spec_t_fold` visits. -/
def specTerms (pre post : List Term) (xpost : Mxs (List Term)) : List Term :=
  pre ++ post ++ xpost.entries.flatMap Prod.snd

/-- `t_freepvs`. -/
def tFreepvs (pvs : Spv) (t : Term) : Except EffectExn Spv :=
  t.freeVars.foldlM (fun s vs =>
    match env.restorePv vs with
    | some v => .ok (s.add v ())
    | none => .error .notFound) pvs

/-- `check_tvs`. -/
def checkTvs (reads : Spv) (raises : Sxs) (result : Ity) (spec : List Term) :
    Except EffectExn Unit :=
  let tvs := result.freevars ++ reads.keys.flatMap (fun v => v.pvIty.freevars) ++
    raises.keys.flatMap (fun xs => xs.xsIty.freevars)
  spec.forM (fun t =>
    match (tTyFreevars t).find? (· ∉ tvs) with
    | some v => .error (.unboundTypeVar v)
    | none => .ok ())

/-- `check_pre`. -/
def checkPre (pre : List Term) : Except EffectExn Unit :=
  pre.forM (fun p => if p.tTy ≠ none then .error (.fmlaExpected p) else .ok ())

/-- `check_post`. -/
def checkPost (t : Ity) (post : List Term) : Except EffectExn Unit :=
  post.forM (fun q =>
    match q with
    | .teps _ v _ => if tyOfIty t = v.vsTy then .ok () else .error (.tyMismatch (tyOfIty t) v.vsTy)
    | _ => .error .invalidArgument)

/-- `is_false`. -/
def isFalse : Term → Bool
  | .teps _ _ (.tfalse _) => true
  | _ => false

/-- Whether the only postcondition of the exception is false. -/
def neverRaised (xpost : Mxs (List Term)) (xs : Xsymbol) : Bool :=
  match xpost.find? xs with
  | some [q] => isFalse q
  | _ => false

/-- `eff_escape`. -/
def effEscape (eff : Effect) (t : Ity) : Except EffectExn (List Ity) := do
  let written ← eff.effWrites.entries.mapM (fun w => w.2.mapM (fun f =>
    match w.1.fieldTy f with
    | some t => .ok t
    | none => .error (.assign (.badRegion w.1))))
  .ok (t :: eff.effRaises.keys.map Xsymbol.xsIty ++ written.flatten)

/-! ## Creation -/

/-- The arguments are pairwise distinct. -/
def argSet (args : List PvSymbol) : Except EffectExn Spv :=
  args.foldrM (fun v s =>
    match s.find? v with
    | some _ => .error .invalidArgument
    | none => .ok (s.add v ())) .empty

/-- The writes that no reset has invalidated. -/
def keepCovered (e : Effect) : Effect :=
  { e with
    effWrites := e.effWrites.filterKeys (· ∈ e.effCovers)
    effTaints := e.effTaints.filter (· ∈ e.effCovers) }

/-- The effects on the regions that are known, to the reads for the writes and to the reads
and the results for the resets. -/
def keepKnown (rknown vknown : List Region) (e : Effect) : Effect :=
  { e with
    effWrites := e.effWrites.filterKeys (· ∈ rknown)
    effCovers := e.effCovers.filter (· ∈ rknown)
    effResets := e.effResets.filter (· ∈ vknown) }

/-- The effect of an abstract function: whatever is in its results may be stale. -/
def beDefensive (defensive : Bool) (rknown vknown : List Region) (escape : List TvSymbol)
    (e : Effect) : Effect :=
  if defensive then
    { e with
      effResets := e.effResets ++ vknown.filter (· ∉ rknown)
      effSpoils := escape }
  else e

/-- `create_cty`. -/
def createCty (mask : Mask) (defensive : Bool) (args : List PvSymbol) (pre post : List Term)
    (xpost : Mxs (List Term)) (oldies : Mpv PvSymbol) (effekt : Effect) (result : Ity) :
    Except EffectExn Cty := do
  checkPre pre
  checkPost result post
  xpost.entries.forM (fun x => checkPost x.1.xsIty x.2)
  maskCheck env result mask
  let mask := mask.reduce
  let sarg ← argSet args
  oldies.entries.forM (fun o =>
    if o.1.pvGhost && decide (o.1.pvIty = o.2.pvIty.purify) then .ok ()
    else .error .invalidArgument)
  let preads ← pre.foldlM (tFreepvs env) sarg
  let qreads ← (specTerms [] post xpost).foldlM (tFreepvs env) .empty
  let effekt ← effReadPost effekt qreads
  let oldies := oldies.inter effekt.effReads
  let effekt := effBind oldies effekt
  let preads : Spv := oldies.entries.foldl (fun s o => s.add o.2 ()) preads
  if preads.keys.any (fun v => (oldies.find? v).isSome) then .error .invalidArgument
  else do
    let effekt ← effReadPre preads effekt
    let xreads := effekt.effReads.diff sarg
    let freeze ← xreads.keys.foldlM (fun s v => ityFreeze s v.pvIty) isbEmpty
    let freeze ← effekt.effRaises.keys.foldlM (fun s xs => ityFreeze s xs.xsIty) freeze
    checkTvs effekt.effReads effekt.effRaises result (specTerms pre post xpost)
    let raises := effekt.effRaises.filterKeys (fun xs => !neverRaised xpost xs)
    let effekt := keepCovered { effekt with effRaises := raises }
    let rknown := readRegs effekt.effReads
    let vknown := rknown ++ result.rchRegs ++ raises.keys.flatMap (fun xs => xs.xsIty.rchRegs)
    let effekt ← resetTaints (keepKnown rknown vknown effekt)
    let escape ← effEscape effekt result
    let escape := escape.flatMap Ity.rchVars
    let effekt := { effekt with effSpoils := effekt.effSpoils.filter (· ∈ escape) }
    let effekt := beDefensive defensive rknown vknown escape effekt
    let effekt := { effekt with effReads := xreads }
    .ok (ctyUnsafe env args pre post xpost oldies effekt result mask freeze)

/-! ## Application -/

/-- A map from the variables of the signature to those that replace them. -/
abbrev Vsb := List (VSymbol × PvSymbol)

/-- `vsb_add`. -/
def vsbAdd (vsb : Vsb) (u v : PvSymbol) : Vsb :=
  if u.pvVs = v.pvVs then vsb else (u.pvVs, v) :: vsb

/-- `match_v`. -/
def matchV (isb : ItySubst) (u v : PvSymbol) : Except EffectExn ItySubst :=
  tryMatch isb u.pvIty v.pvIty

/-- What the first stage gives: whether a ghost value is passed for a regular argument,
whether all types are the same, the substitutions and the arguments that are left. -/
structure Applied where
  ghost : Bool
  same : Bool
  isb : ItySubst
  vsb : Vsb
  cargs : List PvSymbol

/-- `apply`. -/
def applyArgs (gh same : Bool) (isb : ItySubst) (vsb : Vsb) :
    List PvSymbol → List PvSymbol → Except EffectExn Applied
  | u :: ul, v :: vl => do
    let isb ← matchV isb u v
    applyArgs (gh || (v.pvGhost && !u.pvGhost)) (same && decide (u.pvIty = v.pvIty)) isb
      (vsbAdd vsb u v) ul vl
  | ul, [] => .ok ⟨gh, same, isb, vsb, ul⟩
  | [], _ :: _ => .error .invalidArgument

/-- `create_pvsymbol`, with the next tag. -/
def createPv (n : ℕ) (ghost : Bool) (t : Ity) : PvSymbol := .mk ⟨n, tyOfIty t⟩ t ghost

/-- What the second stage gives: the arguments that are left and those that replace them,
and the next tag. -/
structure Cut where
  same : Bool
  args : List PvSymbol
  vsb : Vsb
  next : ℕ

/-- `cut`. -/
def cutArgs (n : ℕ) (same : Bool) (rvl : List PvSymbol) (vsb : Vsb) :
    List PvSymbol → List Ity → Except EffectExn Cut
  | u :: ul, vt :: tl =>
    let same := same && decide (u.pvIty = vt)
    if same && vsb.isEmpty then cutArgs n same (u :: rvl) (vsbAdd vsb u u) ul tl
    else
      let v := createPv n u.pvGhost vt
      cutArgs (n + 1) same (v :: rvl) (vsbAdd vsb u v) ul tl
  | [], [] => .ok ⟨same, rvl.reverse, vsb, n⟩
  | _, _ => .error .invalidArgument

/-- The old values, renamed when a variable is. -/
def cutOldies (vsb : Vsb) (n : ℕ) (oldies : Mpv PvSymbol) : Vsb × Mpv PvSymbol × ℕ :=
  if vsb.isEmpty then (vsb, oldies, n)
  else
    oldies.entries.foldl (fun acc o =>
      let v := (vsb.lookup o.2.pvVs).getD o.2
      let new := createPv acc.2.2 true v.pvIty.purify
      ((o.1.pvVs, new) :: acc.1, acc.2.1.add new v, acc.2.2 + 1)) (vsb, .empty, n)

/-- `vs_check`. -/
def vsCheck (b : VSymbol × Term) : Except EffectExn Unit :=
  match b.2.tTy with
  | some ty => if b.1.vsTy = ty then .ok () else .error (.tyMismatch b.1.vsTy ty)
  | none => .error (.termExpected b.2)

/-- `t_subst`. -/
def tSubst (k : ℕ) (m : Mvs) (t : Term) : Except EffectExn Term := do
  m.forM vsCheck
  .ok (t.subst k m)

/-- `t_ty_subst`. -/
def tTySubst (tsb : Mtv) (k : ℕ) (m : Mvs) (t : Term) : Except EffectExn Term := do
  (m.filter (fun b => decide (b.1 ∈ t.freeVars))).forM (fun b =>
    vsCheck ({ b.1 with vsTy := b.1.vsTy.inst tsb }, b.2))
  .ok (t.instTy tsb k m)

/-- `List.fold_left2 match_v`. -/
def matchVs (isb : ItySubst) : List PvSymbol → List PvSymbol → Except EffectExn ItySubst
  | u :: ul, v :: vl => do
    let isb ← matchV isb u v
    matchVs isb ul vl
  | [], [] => .ok isb
  | _, _ => .error .invalidArgument

/-- `subst_l` on the postconditions of the exceptions. -/
def substXpost (substL : List Term → Except EffectExn (List Term)) (xpost : Mxs (List Term)) :
    Except EffectExn (Mxs (List Term)) :=
  xpost.entries.foldlM (fun acc x => do
    let l ← substL x.2
    .ok (acc.add x.1 l)) .empty

/-- The types frozen by the arguments: the variables of the arguments that are passed are
now known, unless their types are those of the signature. -/
def applyFreeze (c : Cty) (a : Applied) (vl : List PvSymbol) : Except EffectExn ItySubst :=
  if a.same then .ok a.isb
  else vl.reverse.foldlM (fun s v => ityFreeze s v.pvIty) c.ctyFreeze

/-- The type substitution of the second stage. -/
def applyIsb (same : Bool) (c : Cty) (a : Applied) (b : Cut) (res : Ity) :
    Except EffectExn ItySubst :=
  if same then .ok isbEmpty
  else do
    let isb ← tryMatch a.isb c.ctyResult res
    matchVs isb a.cargs.reverse b.args.reverse

/-- The third stage: the effect is instantiated. -/
def applyEff (same : Bool) (isb : ItySubst) (eff : Effect) : Except EffectExn Effect :=
  if same then .ok eff else effInst isb eff

/-- `cty_apply`, from the tag `n` on. -/
def ctyApply (n : ℕ) (c : Cty) (vl : List PvSymbol) (args : List Ity) (res : Ity) :
    Except EffectExn Cty := do
  let a ← applyArgs c.ctyEffect.effGhost true c.ctyFreeze [] c.ctyArgs vl
  let freeze ← applyFreeze c a vl
  let b ← cutArgs n a.same [] a.vsb a.cargs args
  let (vsb, oldies, k) := cutOldies b.vsb b.next c.ctyOldies
  let vsb : Mvs := vsb.map (fun e => (e.1, .tvar [] e.2.pvVs))
  let same := b.same && decide (c.ctyResult = res)
  if same && vl.isEmpty then .ok c
  else do
    let isb ← applyIsb same c a b res
    let eff ← applyEff same isb c.ctyEffect
    let eff ← effGhostify a.ghost eff
    let eff ← effReadPre (TagMap.ofKeys vl) eff
    let tsb : Mtv := isb.isbVar.map (fun b => (b.1, tyOfIty b.2))
    let same := same || tsb.all (fun b => decide (b.2 = .tyvar b.1))
    let substT := if same then tSubst k vsb else tTySubst tsb k vsb
    let substL := fun l : List Term => l.mapM substT
    let pre ← substL c.ctyPre
    let post ← substL c.ctyPost
    let xpost ← substXpost substL c.ctyXpost
    .ok (ctyUnsafe env b.args pre post xpost oldies eff res c.ctyMask freeze)

end Cty

end Why3
