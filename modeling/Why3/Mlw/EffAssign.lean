import Why3.Lib.TagMap
import Why3.Mlw.Ity

/-!
# Effects of assignments

`eff_assign` of `mlw/ity.ml` computes the effect of simultaneous assignments
`r.f <- v`.  An assigned value brings regions of its own under the region it is
stored in, where the type of the latter expects other ones; the pairs of regions
that come to share a place are the region transitions, and all regions of a
transition that is not the identity are reset.
-/

namespace Why3

instance : Tagged Region := ⟨Region.regName⟩
instance : Tagged PvSymbol := ⟨fun v => v.pvVs.vsName⟩

abbrev Mreg := TagMap Region
abbrev Mpv := TagMap PvSymbol
abbrev Spv := TagMap PvSymbol Unit

inductive Oneway
  | total | partiality | diverges
deriving DecidableEq

/-- `effekt`; a set of regions is a list. -/
structure Effekt where
  effReads : Spv
  effWrites : Mreg (List PvSymbol)
  effTaints : List Region
  effCovers : List Region
  effResets : List Region
  effSpoils : List TvSymbol
  effOneway : Oneway
  effGhost : Bool

inductive EffExn
  | assignSnapshot (t : Ity)
  | assignPrivate (r : Region)
  | writeImmutable (r : Region) (f : PvSymbol)
  | duplicateField (r : Region) (f : PvSymbol)
  | badGhostWrite (v : PvSymbol) (r : Region)
  | illegalAssign (r1 r2 r3 : Region)
  | illegalUpdate (v : PvSymbol) (r : Region)
  | staleVariable (v : PvSymbol) (r : Region)
  | typeMismatch (t1 t2 : Ity)
  | badRegion (r : Region)
  | invalidArgument
  | outOfFuel
deriving DecidableEq

/-! ## Checks on variables -/

/-- `check_writes`. -/
def checkWrites (wrt : List Region) (pvs : Spv) : Except EffExn Unit :=
  match pvs.keys.findSome? (fun v =>
    (wrt.find? (fun r => v.pvIty.rFrozen [r])).map (fun r => EffExn.illegalUpdate v r)) with
  | some e => .error e
  | none => .ok ()

/-- `check_covers`. -/
def checkCovers (e : Effekt) (pvs : Spv) : Except EffExn Unit :=
  match pvs.keys.findSome? (fun v =>
    (e.effResets.find? (fun r => v.pvIty.rStale [r] e.effCovers)).map
      (fun r => EffExn.staleVariable v r)) with
  | some e => .error e
  | none => .ok ()

/-- `check_taints`. -/
def checkTaints (tnt : List Region) (pvs : Spv) : Except EffExn Unit :=
  match pvs.keys.findSome? (fun v =>
    if v.pvGhost then none
    else (v.pvIty.visRegs.find? (· ∈ tnt)).map (fun r => EffExn.badGhostWrite v r)) with
  | some e => .error e
  | none => .ok ()

mutual
/-- `ity_skel_check`: the types differ in their regions only. -/
def itySkelCheck : Ity → Ity → Except EffExn Unit
  | .ityreg (.mk n1 s1 tl1 rl1), t2 =>
    if .ityreg (.mk n1 s1 tl1 rl1) = t2 then .ok ()
    else
      match t2 with
      | .ityreg (.mk _ s2 tl2 rl2) =>
        if s1 = s2 then do
          itySkelCheckList tl1 tl2
          itySkelCheckList rl1 rl2
        else .error (.typeMismatch (.ityreg (.mk n1 s1 tl1 rl1)) t2)
      | _ => .error (.typeMismatch (.ityreg (.mk n1 s1 tl1 rl1)) t2)
  | .ityapp s1 tl1 rl1, t2 =>
    if .ityapp s1 tl1 rl1 = t2 then .ok ()
    else
      match t2 with
      | .ityapp s2 tl2 rl2 =>
        if s1 = s2 then do
          itySkelCheckList tl1 tl2
          itySkelCheckList rl1 rl2
        else .error (.typeMismatch (.ityapp s1 tl1 rl1) t2)
      | _ => .error (.typeMismatch (.ityapp s1 tl1 rl1) t2)
  | .ityvar v, t2 => if .ityvar v = t2 then .ok () else .error (.typeMismatch (.ityvar v) t2)
/-- `List.iter2 ity_skel_check`. -/
def itySkelCheckList : List Ity → List Ity → Except EffExn Unit
  | [], [] => .ok ()
  | t1 :: l1, t2 :: l2 => do
    itySkelCheck t1 t2
    itySkelCheckList l1 l2
  | _, _ => .error .invalidArgument
end

attribute [grind =] itySkelCheck itySkelCheckList

/-! ## Region transitions -/

/-- The type of a field for the region. -/
def Region.fieldTy (r : Region) (f : PvSymbol) : Option Ity :=
  match itsMatchRegs r.regIts r.regArgs r.regRegs with
  | some sbs => f.pvIty.fullInst sbs
  | none => none

/-- The regions of the fixed positions, those of the non-mutable fields. -/
def Region.fixedRegs (r : Region) : List Region :=
  (r.regIts.positions r.regArgs r.regRegs).flatMap
    (fun p => if p.1.itsFixed then p.2.expRegs else [])

/-- `mfield`: the type of a mutable field after the writes `fs`. -/
def mfieldTy (r : Region) (fs : Mpv Ity) (f : PvSymbol) : Except EffExn Ity :=
  match r.fieldTy f with
  | none => .error (.badRegion r)
  | some tf => do
    let tt := fs.findD f tf
    itySkelCheck tf tt
    .ok tt

/-- `reg_rexp`: the regions exposed in the fields of `r` after the writes `fs`,
the last one first. -/
def regRexp (r : Region) (fs : Mpv Ity) : Except EffExn (List Region) :=
  match itsMatchRegs r.regIts r.regArgs r.regRegs with
  | none => .error (.badRegion r)
  | some _ => do
    let tl ← r.regIts.itsMfields.mapM (mfieldTy r fs)
    .ok (tl.flatMap Ity.expRegs ++ r.fixedRegs).reverse

mutual
/-- The number of nested regions. -/
def Ity.height : Ity → ℕ
  | .ityreg (.mk _ _ tl rl) => max (Ity.heightList tl) (Ity.heightList rl) + 1
  | .ityapp _ tl rl => max (Ity.heightList tl) (Ity.heightList rl)
  | .ityvar _ => 0
def Ity.heightList : List Ity → ℕ
  | [] => 0
  | t :: tl => max t.height (Ity.heightList tl)
end

def Region.height (r : Region) : ℕ := (Ity.ityreg r).height

/-- `stitch`: the regions of `rt`, under the writes, come where those of `rf`
are expected. -/
def stitch (writes : Mreg (Mpv Ity)) : ℕ → List (Region × Region) → Region → Region → Mpv Ity →
    Except EffExn (List (Region × Region))
  | 0, _, _, _, _ => .error .outOfFuel
  | n + 1, pl, rf, rt, fs => do
    let fl ← regRexp rf .empty
    let tl ← regRexp rt fs
    if fl.length = tl.length then
      (fl.zip tl).foldlM
        (fun pl p => stitch writes n (p :: pl) p.1 p.2 (writes.findD p.2 .empty)) pl
    else .error .invalidArgument

/-- The region transitions of a written region: only the regions inside it are
met, so its height is enough. -/
def transitions (writes : Mreg (Mpv Ity)) (r : Region) (fs : Mpv Ity) :
    Except EffExn (List (Region × Region)) :=
  stitch writes r.height [] r r fs

/-! ## The effect -/

abbrev Assign := PvSymbol × PvSymbol × PvSymbol

def getReg (v : PvSymbol) : Except EffExn Region :=
  match v.pvIty with
  | .ityreg r => .ok r
  | t => .error (.assignSnapshot t)

/-- One step of the fold that collects the writes. -/
def addAssign (wr : Mreg (Mpv Ity)) (a : Assign) : Except EffExn (Mreg (Mpv Ity)) := do
  let (r, f, v) := a
  let r ← getReg r
  if f ∉ r.regIts.itsMfields then .error (.writeImmutable r f)
  else if r.regIts.itsPrivate then .error (.assignPrivate r)
  else
    match wr.find? r with
    | none => .ok (wr.add r (TagMap.empty.add f v.pvIty))
    | some fs =>
      match fs.find? f with
      | some _ => .error (.duplicateField r f)
      | none => .ok (wr.add r (fs.add f v.pvIty))

/-- `add_bind`. -/
def addBind (r1 r2 : Region) (m : Mreg Region) : Except EffExn (Mreg Region) :=
  match m.find? r1 with
  | some r3 => if r2 = r3 then .ok m else .error (.illegalAssign r1 r2 r3)
  | none => .ok (m.add r1 r2)

/-- The resets, and the transitions in both directions. -/
structure Resets where
  rst : List Region
  mt : Mreg Region
  mf : Mreg Region

/-- `add_pair`. -/
def addPair (acc : Resets) (p : Region × Region) : Except EffExn Resets := do
  let rst := if p.1 = p.2 then acc.rst else p.1 :: p.2 :: acc.rst
  let mt ← addBind p.1 p.2 acc.mt
  let mf ← addBind p.2 p.1 acc.mf
  .ok ⟨rst, mt, mf⟩

/-- `add_write` of the second pass: a written region that is reset is skipped. -/
def addWrite (acc : Resets) (w : Region × List (Region × Region)) : Except EffExn Resets :=
  if w.1 ∈ acc.rst then .ok acc else w.2.foldlM addPair acc

/-- The transitions of the written regions, those with most transitions first
(`Mint` with the opposite of their number as key, `Mreg` for each number). -/
def transitionLevels (writes : Mreg (Mpv Ity)) :
    Except EffExn (List (Region × List (Region × Region))) := do
  let m ← writes.entries.mapM (fun e => do
    let pl ← transitions writes e.1 e.2
    .ok (e.1, pl))
  .ok (m.insertionSort (fun a b => b.2.length ≤ a.2.length))

/-- `eff_assign`. -/
def effAssign (asl : List Assign) : Except EffExn Effekt := do
  let writes ← asl.foldlM addAssign .empty
  let ghost := asl.all (fun a => a.1.pvGhost || a.2.1.pvGhost || a.2.2.pvGhost)
  let taint ← asl.foldlM (fun s a =>
    if (a.1.pvGhost || a.2.2.pvGhost) && !a.2.1.pvGhost then do
      let r ← getReg a.1
      .ok (r :: s)
    else .ok s) []
  let reads : Spv := asl.foldl (fun s a => (s.add a.2.2 ()).add a.1 ()) .empty
  checkTaints taint reads
  let m ← transitionLevels writes
  let acc ← m.foldlM addWrite ⟨[], .empty, .empty⟩
  let effekt : Effekt :=
    { effReads := reads
      effWrites := writes.map TagMap.keys
      effTaints := taint
      effCovers := writes.keys.filter (· ∉ acc.rst)
      effResets := acc.rst
      effSpoils := []
      effOneway := .total
      effGhost := ghost }
  checkWrites writes.keys reads
  .ok effekt

end Why3
