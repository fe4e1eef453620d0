import Why3.Mlw.EffAssign

/-!
# Operations on effects

The operations on `effekt` of `mlw/ity.ml`.  The covers are the written regions
whose contents are known afterwards; the resets are the regions that only a
cover keeps away from being stale: a variable of a type from which a reset
region can be reached without crossing a cover cannot be used any more.
-/

namespace Why3

/-- `xsymbol`. -/
structure Xsymbol where
  xsName : ℕ
  xsIty : Ity
deriving DecidableEq

instance : Tagged Xsymbol := ⟨Xsymbol.xsName⟩

abbrev Mxs := TagMap Xsymbol
abbrev Sxs := TagMap Xsymbol Unit

/-- `effekt`, with the raised exceptions. -/
structure Effect extends Effekt where
  effRaises : Sxs

inductive EffectExn
  | assign (e : EffExn)
  | ghostDivergence
  | impureVariable (v : TvSymbol) (t : Ity)
  | illegalSnapshot (t : Ity)
  | illegalAlias (r : Region)
  | fmlaExpected (t : Term)
  | termExpected (t : Term)
  | tyMismatch (ty1 ty2 : Ty)
  | ityMismatch (t1 t2 : Ity)
  | unboundTypeVar (v : TvSymbol)
  | notFound
  | invalidArgument
  | assertFailure

/-- `oneway_union`. -/
def Oneway.union : Oneway → Oneway → Oneway
  | .total, .total => .total
  | _, .diverges | .diverges, _ => .diverges
  | _, _ => .partiality

/-- `Spv.union`. -/
def Spv.union (s s' : Spv) : Spv := TagMap.union (fun _ _ _ => ()) s s'

/-- `Spv.subset`. -/
def Spv.subset (s s' : Spv) : Bool := s.keys.all (fun v => (s'.find? v).isSome)

/-- `Sreg.equal`. -/
def sregEqual (s s' : List Region) : Bool := s.all (· ∈ s') && s'.all (· ∈ s)

/-- `reg_r_stale`. -/
def Region.rStale (rs cv : List Region) (r : Region) : Bool := (Ity.ityreg r).rStale rs cv

/-- `reg_r_reachable`: the region `r` is reached from `reg`. -/
def Region.rReachable (r reg : Region) : Bool := decide (r ∈ (Ity.ityreg reg).rchRegs)

/-- `read_regs`. -/
def readRegs (rd : Spv) : List Region := rd.keys.flatMap (fun v => v.pvIty.rchRegs)

namespace Effect

/-- The checks of `EffAssign`. -/
def check {α : Type} : Except EffExn α → Except EffectExn α
  | .ok x => .ok x
  | .error e => .error (.assign e)

def effEmpty : Effect where
  effReads := .empty
  effWrites := .empty
  effTaints := []
  effCovers := []
  effResets := []
  effRaises := .empty
  effSpoils := []
  effOneway := .total
  effGhost := false

/-! ## Ghost effects -/

/-- `visible_writes`. -/
def visibleWrites (e : Effect) : List Region :=
  (e.effWrites.entries.filter (fun w =>
    w.1.regIts.itsPrivate || w.2.any (fun fd => !fd.pvGhost))).map Prod.fst

/-- The taints that `reset_taints` computes. -/
def newTaints (e : Effect) : Except EffectExn (List Region) :=
  let vwr := visibleWrites e
  if e.effGhost || vwr.isEmpty then do
    check (checkTaints vwr e.effReads)
    .ok vwr
  else
    .ok (e.effReads.keys.foldl (fun tnt v =>
      if v.pvGhost then tnt else tnt.filter (· ∉ v.pvIty.visRegs)) vwr)

/-- `reset_taints`. -/
def resetTaints (e : Effect) : Except EffectExn Effect := do
  let tnt ← newTaints e
  .ok { e with effTaints := tnt }

/-- `eff_ghostify`. -/
def effGhostify (gh : Bool) (e : Effect) : Except EffectExn Effect :=
  if !gh || e.effGhost then .ok e
  else if e.effOneway ≠ .total then .error .ghostDivergence
  else resetTaints { e with effGhost := true }

/-- `eff_ghostify_weak`. -/
def effGhostifyWeak (gh : Bool) (e : Effect) : Except EffectExn Effect :=
  if !gh || e.effGhost then .ok e
  else if ¬ (e.effOneway = .total ∧ e.effRaises.isEmpty) then .ok e
  else if !sregEqual e.effTaints (visibleWrites e) then .ok e
  else effGhostify gh e

/-! ## Reads -/

/-- `eff_read_pre`. -/
def effReadPre (rd : Spv) (e : Effect) : Except EffectExn Effect :=
  if rd.subset e.effReads then .ok e
  else do
    check (checkTaints e.effTaints rd)
    .ok { e with effReads := e.effReads.union rd }

/-- `eff_read_post`. -/
def effReadPost (e : Effect) (rd : Spv) : Except EffectExn Effect := do
  check (checkWrites e.effWrites.keys rd)
  check (checkCovers e.toEffekt rd)
  effReadPre rd e

/-- `eff_bind`. -/
def effBind {α : Type} (rd : Mpv α) (e : Effect) : Effect :=
  if rd.isEmpty then e else { e with effReads := e.effReads.diff rd }

/-- `eff_read`. -/
def effRead (rd : Spv) : Effect :=
  if rd.isEmpty then effEmpty else { effEmpty with effReads := rd }

/-! ## Writes and resets -/

/-- `check_mutable_field`. -/
def checkMutableField (r : Region) (f : PvSymbol) : Except EffectExn Unit :=
  if f ∉ r.regIts.itsMfields then .error (.assign (.writeImmutable r f)) else .ok ()

/-- `eff_write`. -/
def effWrite (rd : Spv) (wr : Mreg (List PvSymbol)) : Except EffectExn Effect :=
  if wr.isEmpty then .ok (effRead rd)
  else do
    let kn := readRegs rd
    wr.entries.forM (fun w =>
      if w.2.isEmpty && !w.1.regIts.itsPrivate then .error .invalidArgument
      else w.2.forM (checkMutableField w.1))
    let wr := wr.filterKeys (fun r => decide (r ∈ kn))
    resetTaints { effEmpty with effReads := rd, effWrites := wr, effCovers := wr.keys }

/-- `eff_assign`. -/
def effAssign (asl : List Assign) : Except EffectExn Effect := do
  let e ← check (Why3.effAssign asl)
  .ok { e with effRaises := .empty }

/-- `add_mfld`: what can be reached from a field without crossing a written region is
new if the field is written, and survives otherwise. -/
def addMfld (wr : List Region) (r : Region) (fs : List PvSymbol)
    (acc : List Region × List Region) (f : PvSymbol) :
    Except EffectExn (List Region × List Region) :=
  match r.fieldTy f with
  | none => .error (.assign (.badRegion r))
  | some t =>
    if f ∈ fs then .ok (acc.1, acc.2 ++ t.uncRegs wr)
    else .ok (acc.1 ++ t.uncRegs wr, acc.2)

/-- `add_write` of `eff_reset_overwritten`. -/
def addOverwritten (wr : List Region) (acc : List Region × List Region)
    (w : Region × List PvSymbol) : Except EffectExn (List Region × List Region) :=
  match itsMatchRegs w.1.regIts w.1.regArgs w.1.regRegs with
  | none => .error (.assign (.badRegion w.1))
  | some _ =>
    let fixed := (w.1.regIts.positions w.1.regArgs w.1.regRegs).flatMap (fun p =>
      if p.1.itsFixed then p.2.uncRegs wr else [])
    w.1.regIts.itsMfields.foldlM (addMfld wr w.1 w.2) (w.1 :: acc.1 ++ fixed, acc.2)

/-- `eff_reset_overwritten`. -/
def effResetOverwritten (e : Effect) : Except EffectExn Effect :=
  if !e.effResets.isEmpty then .error .invalidArgument
  else do
    let acc ← e.effWrites.entries.foldlM (addOverwritten e.effWrites.keys) ([], [])
    .ok { e with effResets := acc.2.filter (· ∉ acc.1) }

/-! ## Exceptions -/

/-- `eff_raise`. -/
def effRaise (e : Effect) (x : Xsymbol) : Effect := { e with effRaises := e.effRaises.add x () }

/-- `eff_catch`. -/
def effCatch (e : Effect) (x : Xsymbol) : Effect := { e with effRaises := e.effRaises.remove x }

/-! ## Union -/

/-- The test of `remove_stale`. -/
def isStale (e : Effect) (r : Region) : Bool := r.rStale e.effResets e.effCovers

/-- `remove_stale`. -/
def removeStale (e : Effect) (srg : List Region) : List Region := srg.filter (fun r => !isStale e r)

/-- `merge_fields`. -/
def mergeFields (_ : Region) (f1 f2 : List PvSymbol) : List PvSymbol := f1 ∪ f2

/-- The first `eff_union`. -/
def effJoin (e1 e2 : Effect) : Effect where
  effReads := e1.effReads.union e2.effReads
  effWrites := e1.effWrites.union mergeFields e2.effWrites
  effTaints := e1.effTaints ++ e2.effTaints
  effCovers := removeStale e2 e1.effCovers ++ removeStale e1 e2.effCovers
  effResets := e1.effResets ++ e2.effResets
  effRaises := e1.effRaises.union (fun _ _ _ => ()) e2.effRaises
  effSpoils := e1.effSpoils ++ e2.effSpoils
  effOneway := e1.effOneway.union e2.effOneway
  effGhost := e1.effGhost && e2.effGhost

/-- `eff_union`: the last one, which makes the checks of the second one and then asserts
that the invariant holds. -/
def effUnion (e1 e2 : Effect) : Except EffectExn Effect := do
  check (checkTaints e1.effTaints e2.effReads)
  check (checkTaints e2.effTaints e1.effReads)
  let e := effJoin e1 e2
  if e.effCovers.any (· ∈ e.effResets) then .error .assertFailure
  else if !(e.effWrites.keys.filter (· ∉ e.effCovers)).all (isStale e) then .error .assertFailure
  else .ok e

/-- `eff_fusion`. -/
def effFusion (e1 e2 : Effect) : Except EffectExn Effect := do
  let e ← effUnion e1 e2
  .ok { e with
    effWrites := e.effWrites.filterKeys (· ∈ e.effCovers)
    effTaints := e.effTaints.filter (· ∈ e.effCovers) }

/-- `eff_contaminate`. -/
def effContaminate (e1 e2 : Effect) : Except EffectExn Effect :=
  if !e1.effGhost then .ok e2
  else if e1.effRaises.isEmpty then .ok e2
  else effGhostify true e2

/-- `eff_contaminate_weak`. -/
def effContaminateWeak (e1 e2 : Effect) : Except EffectExn Effect :=
  if !e1.effGhost then .ok e2
  else if e1.effRaises.isEmpty then effGhostifyWeak true e2
  else effGhostify true e2

/-- `eff_union_par`. -/
def effUnionPar (e1 e2 : Effect) : Except EffectExn Effect := do
  let e2' ← effContaminateWeak e1 e2
  let e1' ← effContaminateWeak e2 e1
  effUnion e1' e2'

/-- `eff_union_seq`. -/
def effUnionSeq (e1 e2 : Effect) : Except EffectExn Effect := do
  check (checkWrites e1.effWrites.keys e2.effReads)
  check (checkCovers e1.toEffekt e2.effReads)
  let e2' ← effContaminate e1 e2
  let e1' ← effContaminateWeak e2 e1
  effUnion e1' e2'

/-! ## Instantiation -/

/-- One region `p` of `src` against one binding of the substitution, in `inst` of
`eff_inst`. -/
def instBinding {α : Type} (p : Region) (v : α) (acc : Mreg α) (b : Region × Ity) :
    Except EffectExn (Mreg α) :=
  match b.2 with
  | .ityapp s tl rl =>
    if p.rReachable b.1 then .error (.illegalSnapshot (.ityapp s tl rl)) else .ok acc
  | .ityreg r =>
    if p = b.1 then
      match acc.find? r with
      | some _ => .error (.illegalAlias r)
      | none => .ok (acc.add r v)
    else .ok acc
  | .ityvar _ => .ok acc

/-- The function `inst` of `eff_inst`. -/
def instRegs {α : Type} (sbs : ItySubst) (src : Mreg α) : Except EffectExn (Mreg α) :=
  src.entries.foldlM (fun acc e => sbs.isbReg.foldlM (instBinding e.1 e.2) acc) .empty

/-- The bindings of the regions that the effect does not modify. -/
def safeBindings (sbs : ItySubst) (e : Effect) : List (Region × Ity) :=
  sbs.isbReg.filter (fun b => decide (b.1 ∉ e.effCovers) && !isStale e b.1)

/-- `eff_inst`. -/
def effInst (sbs : ItySubst) (e : Effect) : Except EffectExn Effect := do
  let spoils ← (sbs.isbVar.filter (fun b => decide (b.1 ∈ e.effSpoils))).foldlM (fun s b =>
    if b.2.pure then .ok (s ++ b.2.rchVars) else .error (.impureVariable b.1 b.2)) []
  let safe := safeBindings sbs e
  let writes ← instRegs sbs e.effWrites
  let resets ← instRegs sbs (TagMap.ofKeys e.effResets)
  let taints ← instRegs sbs (TagMap.ofKeys e.effTaints)
  let covers ← instRegs sbs (TagMap.ofKeys e.effCovers)
  let impact ← instRegs sbs (TagMap.ofKeys
    ((sbs.isbReg.map Prod.fst).filter (· ∉ safe.map Prod.fst)))
  let dst := safe.filterMap (fun b => match b.2 with | .ityreg r => some r | _ => none) ++
    sbs.isbVar.flatMap (fun b => b.2.rchRegs)
  match dst.find? (fun r => (impact.find? r).isSome) with
  | some r => .error (.illegalAlias r)
  | none =>
    .ok { e with
      effWrites := writes
      effTaints := taints.keys
      effCovers := covers.keys
      effResets := resets.keys
      effSpoils := spoils }

end Effect

end Why3
