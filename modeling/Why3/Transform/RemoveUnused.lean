import Why3.Core.Task
import Why3.Lib.Lookup

/-!
# Removing unused symbols

`transform/remove_unused.ml`.  A first pass goes through the task from its last
declaration to its first one and collects the identifiers that are used.  A hypothesis
with declared dependencies, none of them used so far, is parked: `closure` maps each of
its dependencies to the identifiers to add when that dependency gets used.  A second
pass goes forward and keeps the declarations of used identifiers.

A set of identifiers is a list, as in the model of declarations; a fold over it takes
the elements in the order of the list.
-/

namespace Why3

namespace RemoveUnused

/-- `Mid.t`: finite maps on identifiers. -/
abbrev Mid (α : Type) := List (ℕ × α)

def Mid.add {α : Type} (x : ℕ) (v : α) (m : Mid α) : Mid α :=
  (x, v) :: m.filter fun e => decide (e.1 ≠ x)

def Mid.remove {α : Type} (x : ℕ) (m : Mid α) : Mid α :=
  m.filter fun e => decide (e.1 ≠ x)

/-- `Sid.t`: sets of identifiers. -/
abbrev Sid := List ℕ

def Sid.add (x : ℕ) (s : Sid) : Sid := if x ∈ s then s else x :: s

def Sid.union (s s' : Sid) : Sid := s ++ s'.filter (· ∉ s)

/-- The intersection is not empty. -/
def Sid.meets (s s' : Sid) : Bool := s.any (· ∈ s')

structure UsedSymbols where
  keepConstants : Bool
  depends : Mid Sid
  closure : Mid Sid
  constantsToRemove : Sid
  symbolsToKeep : Sid
  usedIds : Sid

/-- What the fold of `add_used_ids` does with one identifier. -/
def findClosure (acc : Sid × Mid Sid) (x : ℕ) : Sid × Mid Sid :=
  match acc.2.lookup x with
  | some ids => (acc.1.union ids, acc.2.remove x)
  | none => acc

/-- `add_used_ids`, with a bound on the number of recursive calls. -/
def addUsedIdsAux : ℕ → UsedSymbols → Sid → UsedSymbols
  | fuel, usedSymbols, ids =>
    let uids := usedSymbols.usedIds.union ids
    let (newIds, closure) := ids.foldl findClosure ([], usedSymbols.closure)
    let r := { usedSymbols with usedIds := uids, closure := closure }
    match fuel with
    | 0 => r
    | fuel + 1 => if newIds.isEmpty then r else addUsedIdsAux fuel r newIds

/-- `add_used_ids`.  A recursive call has fewer identifiers in its closure. -/
def addUsedIds (usedSymbols : UsedSymbols) (ids : Sid) : UsedSymbols :=
  addUsedIdsAux usedSymbols.closure.length usedSymbols ids

def initial (keepConstants : Bool) : UsedSymbols where
  keepConstants := keepConstants
  depends := []
  closure := []
  constantsToRemove := []
  symbolsToKeep := []
  usedIds := [psEqu.lsName, tsInt.tsName]

/-- `add_dependency`; the metas are well typed. -/
def addDependency (usymb : UsedSymbols) : List MetaArg → UsedSymbols
  | [.maPr pr, .maLs ls] =>
    let s := ((usymb.depends.lookup pr.prName).map (Sid.add ls.lsName)).getD [ls.lsName]
    { usymb with depends := usymb.depends.add pr.prName s }
  | _ => usymb

def addRemovedConstant (usymb : UsedSymbols) : List MetaArg → UsedSymbols
  | [.maLs ls] =>
    { usymb with constantsToRemove := usymb.constantsToRemove.add ls.lsName }
  | _ => usymb

def addKeptSymbol (usymb : UsedSymbols) : List MetaArg → UsedSymbols
  | [.maLs ls] => { usymb with symbolsToKeep := usymb.symbolsToKeep.add ls.lsName }
  | _ => usymb

/-! ## The second pass -/

def metasKeepIfAtLeastOneArgIsUsed : List Meta := [.range, .float]

def keptArg (usymb : UsedSymbols) (atLeastOne : Bool) : MetaArg → Bool
  | .maPr pr => decide (pr.prName ∈ usymb.usedIds)
  | .maTy ty =>
    let s : Sid := symsTy ty
    if atLeastOne then s.meets usymb.usedIds else s.all (· ∈ usymb.usedIds)
  | .maTs ts => decide (ts.tsName ∈ usymb.usedIds)
  | .maLs ls => decide (ls.lsName ∈ usymb.usedIds)
  | .maStr _ | .maInt _ | .maId _ => true

def keptMeta (usymb : UsedSymbols) (mt : Meta) (margs : List MetaArg) : Bool :=
  match mt, margs with
  | .depends, [.maPr pr, .maLs _] => decide (pr.prName ∈ usymb.usedIds)
  | _, _ =>
    if mt ∈ metasKeepIfAtLeastOneArgIsUsed then margs.any (keptArg usymb true)
    else margs.all (keptArg usymb false)

def keptDecl (usymb : UsedSymbols) (d : Decl) : Bool :=
  match d.dNode with
  | .dprop _ pr _ => decide (pr.prName ∈ usymb.usedIds)
  | .ddata _ | .dlogic _ | .dtype _ | .dparam _ | .dind _ _ =>
    Sid.meets d.dNews usymb.usedIds

def doRemovalUnusedDecl (usymb : UsedSymbols) (td : Tdecl) : Option Tdecl :=
  match td with
  | .metaDecl mt margs => if keptMeta usymb mt margs then some td else none
  | .use _ | .clone _ _ => some td
  | .decl d => if keptDecl usymb d then some td else none

/-! ## The first pass -/

/-- A symbol is kept if it is explicitly marked, or if it is a constant, constants are
kept and it is not marked for removal. -/
def keepSymbol (usymb : UsedSymbols) (ls : LSymbol) : Bool :=
  decide (ls.lsName ∈ usymb.symbolsToKeep) ||
    (ls.lsArgs.isEmpty && usymb.keepConstants && !decide (ls.lsName ∈ usymb.constantsToRemove))

def declaresANeededSymbol (usymb : UsedSymbols) (d : Decl) : Bool :=
  match d.dNode with
  | .dparam ls => keepSymbol usymb ls
  | .dlogic dl => dl.any fun ld => keepSymbol usymb ld.1
  | .dprop _ _ _ | .ddata _ | .dtype _ | .dind _ _ => false

def isNeeded (usymb : UsedSymbols) (d : Decl) : Bool :=
  declaresANeededSymbol usymb d || Sid.meets d.dNews usymb.usedIds

/-- The dependencies of a hypothesis that is parked: it has some, and none is used. -/
def parkedOn (usymb : UsedSymbols) (pr : PrSymbol) : Option Sid :=
  (usymb.depends.lookup pr.prName).filter fun s => !s.meets usymb.usedIds

/-- Record what a parked hypothesis needs under one of its dependencies. -/
def recordClosure (ids : Sid) (acc : Mid Sid) (x : ℕ) : Mid Sid :=
  match acc.lookup x with
  | some ids' => acc.add x (ids'.union ids)
  | none => acc.add x ids

def useDecl (usymb : UsedSymbols) (d : Decl) : UsedSymbols :=
  match d.dNode with
  | .dprop _ pr _ =>
    match parkedOn usymb pr with
    | some s =>
      let ids := Sid.add pr.prName (getUsedSymsDecl d)
      { usymb with closure := s.foldl (recordClosure ids) usymb.closure }
    | none =>
      let usymb := addUsedIds usymb (getUsedSymsDecl d)
      { usymb with usedIds := usymb.usedIds.add pr.prName }
  | .ddata _ | .dlogic _ | .dtype _ | .dparam _ | .dind _ _ =>
    if isNeeded usymb d then addUsedIds usymb (Sid.union (getUsedSymsDecl d) d.dNews) else usymb

def useTdecl (usymb : UsedSymbols) : Tdecl → UsedSymbols
  | .decl d => useDecl usymb d
  | .use _ | .clone _ _ | .metaDecl _ _ => usymb

/-- `compute_used_ids`, from the last declaration on. -/
def computeUsedIds (usymb : UsedSymbols) (tdecls : List Tdecl) : UsedSymbols :=
  tdecls.foldl useTdecl usymb

/-- What the metas of the task say. -/
def readMetas (keepConstants : Bool) (t : Task) : UsedSymbols :=
  let usymb := t.onMeta .depends addDependency (initial keepConstants)
  let usymb := t.onMeta .removeConstant addRemovedConstant usymb
  t.onMeta .removeUnusedKeep addKeptSymbol usymb

/-- The second pass on one element; the tags from `k` on are free. -/
def removalStep (k : ℕ) (usymb : UsedSymbols) (t : Task) (td : Tdecl) : Except TaskExn Task :=
  match doRemovalUnusedDecl usymb td with
  | none => .ok t
  | some td => Task.addTdecl k t td

/-- `do_removal_wrapper`: a fold from the first element of the task on. -/
def doRemoval (k : ℕ) (usymb : UsedSymbols) (t : Task) : Except TaskExn Task :=
  t.tdecls.reverse.foldlM (removalStep k usymb) Task.empty

/-- `remove_unused_wrapper`. -/
def removeUnused (k : ℕ) (keepConstants : Bool) (t : Task) : Except TaskExn Task :=
  doRemoval k (computeUsedIds (readMetas keepConstants t) t.tdecls) t

end RemoveUnused

end Why3
