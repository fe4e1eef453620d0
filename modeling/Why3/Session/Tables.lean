import Why3.Session.Pairing

/-!
# Sessions as tables

The record `session` of `session/session_itp.ml` with the operations that build it,
read it and keep its proved statuses.  Nodes are named by numbers and found in tables.
A theory is a mutable record; its address is a number too, which no other theory gets.
A missing node (`BadID`, `Not_found`) and a failed assertion are `none`.  The shapes,
which are only read where goals are paired, are left to that place.
-/

namespace Why3.Itp

open Function

abbrev Str := List Char

/-- An identifier: its string and its unique tag. -/
structure Ident where
  idString : Str
  idTag : ℕ
deriving DecidableEq

structure Prover where
  proverName : Str
  proverVersion : Str
  proverAltern : Str
deriving DecidableEq

inductive Answer
  | valid | invalid | timeout | outOfMemory | stepLimitExceeded
  | unknown (s : Str) | failure (s : Str) | highFailure (s : Str)
deriving DecidableEq

structure ProverResult where
  prAnswer : Answer
  prTime : ℚ
  prSteps : ℤ
  prOutput : Str
deriving DecidableEq

structure ResourceLimits where
  limitTime : ℚ
  limitSteps : ℤ
  limitMem : ℤ
deriving DecidableEq

abbrev FilePath := List Str

abbrev Checksum := Str

/-! ## The tables -/

structure ProofAttemptNode where
  parent : ℕ
  prover : Prover
  limits : ResourceLimits
  proofState : Option ProverResult
  proofObsolete : Bool
  proofScript : Option FilePath

inductive ProofParent
  | trans (t : ℕ)
  | theory (r : ℕ)
deriving DecidableEq

structure ProofNode where
  proofnName : Ident
  proofnExpl : Str
  proofnParent : ProofParent
  proofnAttempts : List (Prover × ℕ)
  proofnTransformations : List ℕ

structure TransformationNode where
  transfName : Str
  transfArgs : List Str
  transfSubtasks : List ℕ
  transfParent : ℕ
  transfIsDetached : Bool

structure Theory where
  theoryName : Ident
  theoryGoals : List ℕ
  theoryParentName : ℕ
  theoryIsDetached : Bool

structure File where
  fileId : ℕ
  filePath : FilePath
  fileFormat : Str
  fileIsDetached : Bool
  fileTheories : List ℕ

/-- The last five tables hold the tasks of the attached goals and the cached statuses.
The newest file comes first. -/
structure Session (Task : Type) where
  proofAttemptTable : ℕ → Option ProofAttemptNode
  nextProofAttemptID : ℕ
  proofNodeTable : ℕ → Option ProofNode
  nextProofNodeID : ℕ
  transTable : ℕ → Option TransformationNode
  nextTransID : ℕ
  theoryTable : ℕ → Option Theory
  nextTheory : ℕ
  sessionFiles : List (ℕ × File)
  nextFileID : ℕ
  hasShapes : Bool
  sumTable : ℕ → Option Checksum
  rawTasks : ℕ → Option Task
  fileState : ℕ → Option Bool
  thState : Ident → Option Bool
  tnState : ℕ → Option Bool
  pnState : ℕ → Option Bool

variable {Task : Type}

namespace Session

variable (s : Session Task)

def goalIsDetached (id : ℕ) : Bool := (s.rawTasks id).isNone

def findFile (fid : ℕ) : Option File := s.sessionFiles.lookup fid

def setFileTheories (fid : ℕ) (ths : List ℕ) : Session Task :=
  { s with sessionFiles := s.sessionFiles.map fun b =>
    if b.1 = fid then (b.1, { b.2 with fileTheories := ths }) else b }

def setAttempt (id : ℕ) (pa : Option ProofAttemptNode) : Session Task :=
  { s with proofAttemptTable := update s.proofAttemptTable id pa }

def setProofNode (id : ℕ) (pn : Option ProofNode) : Session Task :=
  { s with proofNodeTable := update s.proofNodeTable id pn }

def setTransf (id : ℕ) (tn : Option TransformationNode) : Session Task :=
  { s with transTable := update s.transTable id tn }

def setTheory (r : ℕ) (th : Option Theory) : Session Task :=
  { s with theoryTable := update s.theoryTable r th }

def setPnState (id : ℕ) (b : Bool) : Session Task :=
  { s with pnState := update s.pnState id (some b) }

def setTnState (id : ℕ) (b : Bool) : Session Task :=
  { s with tnState := update s.tnState id (some b) }

def setThState (name : Ident) (b : Bool) : Session Task :=
  { s with thState := update s.thState name (some b) }

def setFileState (fid : ℕ) (b : Bool) : Session Task :=
  { s with fileState := update s.fileState fid (some b) }

/-! ## Proved statuses -/

def tnProved (tid : ℕ) : Bool := (s.tnState tid).getD false

def pnProved (pid : ℕ) : Bool := (s.pnState pid).getD false

/-- The status is stored when it is read for the first time. -/
def thProved (th : Theory) : Bool × Session Task :=
  match s.thState th.theoryName with
  | some b => (b, s)
  | none => (th.theoryGoals.isEmpty, s.setThState th.theoryName th.theoryGoals.isEmpty)

def fileProved (f : File) : Bool × Session Task :=
  match s.fileState f.fileId with
  | some b => (b, s)
  | none => (f.fileTheories.isEmpty, s.setFileState f.fileId f.fileTheories.isEmpty)

end Session

def paOk (pa : ProofAttemptNode) : Bool :=
  !pa.proofObsolete && decide (pa.proofState.map ProverResult.prAnswer = some .valid)

/-- The test on the theories of a file, which stops at the first one that fails. -/
def theoriesProved : List ℕ → Session Task → Option (Bool × Session Task)
  | [], s => some (true, s)
  | r :: rs, s => do
    let th ← s.theoryTable r
    if th.theoryIsDetached then theoriesProved rs s
    else
      let (b, s) := s.thProved th
      if b then theoriesProved rs s else some (false, s)

def updateFileNode (s : Session Task) (f : File) : Option (Session Task) :=
  if f.fileTheories = [] then some s
  else do
    let (proved, s) ← theoriesProved f.fileTheories s
    let (b, s) := s.fileProved f
    some (if proved = b then s else s.setFileState f.fileId proved)

def updateTheoryNode (s : Session Task) (r : ℕ) : Option (Session Task) := do
  let th ← s.theoryTable r
  let proved := th.theoryGoals.all fun pn => s.goalIsDetached pn || s.pnProved pn
  let (b, s) := s.thProved th
  if proved = b then some s
  else
    let s := s.setThState th.theoryName proved
    let f ← s.findFile th.theoryParentName
    updateFileNode s f

/-- The status a goal should have, from its transformations and its attempts. -/
def goalStatus (s : Session Task) (id : ℕ) : Option Bool := do
  let pn ← s.proofNodeTable id
  let pas ← pn.proofnAttempts.mapM fun a => s.proofAttemptTable a.2
  let tns ← pn.proofnTransformations.mapM fun t => (s.transTable t).map fun tn => (t, tn)
  some ((tns.any fun t => !t.2.transfIsDetached && s.tnProved t.1) ||
    pas.any fun pa => !s.goalIsDetached pa.parent && paOk pa)

def transStatus (s : Session Task) (tn : TransformationNode) : Bool :=
  tn.transfSubtasks.all fun pn => s.goalIsDetached pn || s.pnProved pn

mutual

/-- The fuel bounds the number of nodes above the goal. -/
def updateGoalNode : ℕ → Session Task → ℕ → Option (Session Task)
  | 0, _, _ => none
  | fuel + 1, s, id => do
    let pn ← s.proofNodeTable id
    let proved ← goalStatus s id
    if proved = s.pnProved id then some s
    else
      let s := s.setPnState id proved
      match pn.proofnParent with
      | .trans t => updateTransNode fuel s t
      | .theory r => updateTheoryNode s r

/-- The goal above is updated in any case when the transformation has no subtasks. -/
def updateTransNode : ℕ → Session Task → ℕ → Option (Session Task)
  | 0, _, _ => none
  | fuel + 1, s, trid => do
    let tn ← s.transTable trid
    let proved := transStatus s tn
    let s ←
      if proved = s.tnProved trid then some s
      else updateGoalNode fuel (s.setTnState trid proved) tn.transfParent
    if tn.transfSubtasks = [] then updateGoalNode fuel s tn.transfParent else some s

end

attribute [grind =] updateGoalNode updateTransNode

/-- A goal has fewer than twice its number of goals and transformations above it. -/
def updateFuel (s : Session Task) : ℕ := 2 * s.nextProofNodeID + 2

/-! ## Removing a subtree -/

inductive Any
  | file (fid : ℕ)
  | th (r : ℕ)
  | tn (t : ℕ)
  | pn (g : ℕ)
  | pa (a : ℕ)

section Fold

variable {σ : Type} (view : σ → Session Task) (f : σ → Any → Option σ)

/-- The functions `fold_all_any_of`: what is folded may change the session that is read. -/
def foldAllAnyOfProofn : ℕ → σ → ℕ → Option σ
  | 0, _, _ => none
  | fuel + 1, acc, pnid => do
    let pn ← (view acc).proofNodeTable pnid
    let acc ← pn.proofnTransformations.foldlM (fun acc trid => do
      let tr ← (view acc).transTable trid
      let acc ← tr.transfSubtasks.foldlM (foldAllAnyOfProofn fuel) acc
      f acc (.tn trid)) acc
    let acc ← pn.proofnAttempts.foldlM (fun acc a => f acc (.pa a.2)) acc
    f acc (.pn pnid)

def foldAllAnyOfTransn (fuel : ℕ) (acc : σ) (trid : ℕ) : Option σ := do
  let tr ← (view acc).transTable trid
  let acc ← tr.transfSubtasks.foldlM (foldAllAnyOfProofn view f fuel) acc
  f acc (.tn trid)

def foldAllAnyOfTheory (fuel : ℕ) (acc : σ) (r : ℕ) : Option σ := do
  let th ← (view acc).theoryTable r
  let acc ← th.theoryGoals.foldlM (foldAllAnyOfProofn view f fuel) acc
  f acc (.th r)

def foldAllAnyOfFile (fuel : ℕ) (acc : σ) (fid : ℕ) : Option σ := do
  let file ← (view acc).findFile fid
  let acc ← file.fileTheories.foldlM (foldAllAnyOfTheory view f fuel) acc
  f acc (.file fid)

def foldAllAny (fuel : ℕ) (acc : σ) : Any → Option σ
  | .file fid => foldAllAnyOfFile view f fuel acc fid
  | .th r => foldAllAnyOfTheory view f fuel acc r
  | .pn g => foldAllAnyOfProofn view f fuel acc g
  | .tn t => foldAllAnyOfTransn view f fuel acc t
  | .pa a => f acc (.pa a)

end Fold

/-- A goal is lower than the goals above it, so a fold never goes deeper than their
number. -/
def foldFuel (s : Session Task) : ℕ := s.nextProofNodeID + 1

def isDetached (s : Session Task) : Any → Option Bool
  | .file fid => (s.findFile fid).map File.fileIsDetached
  | .th r => (s.theoryTable r).map Theory.theoryIsDetached
  | .tn t => (s.transTable t).map TransformationNode.transfIsDetached
  | .pn g => some (s.goalIsDetached g)
  | .pa a => (s.proofAttemptTable a).map fun pa => s.goalIsDetached pa.parent

def removeTransformation (s : Session Task) (id : ℕ) : Option (Session Task) := do
  let nt ← s.transTable id
  let s := s.setTransf id none
  let pn ← s.proofNodeTable nt.transfParent
  some (s.setProofNode nt.transfParent
    (some { pn with proofnTransformations := pn.proofnTransformations.filter (· ≠ id) }))

def removeProofAttemptPa (s : Session Task) (id : ℕ) : Option (Session Task) := do
  let pa ← s.proofAttemptTable id
  let pn ← s.proofNodeTable pa.parent
  let found ← pn.proofnAttempts.lookup pa.prover
  let s := s.setProofNode pa.parent
    (some { pn with proofnAttempts := Pairing.hashtblRemove pa.prover pn.proofnAttempts })
  some (s.setAttempt found none)

def removeProofNode (s : Session Task) (pn : ℕ) : Option (Session Task) := do
  let node ← s.proofNodeTable pn
  let s := s.setProofNode pn none
  match node.proofnParent with
  | .theory r => do
    let th ← s.theoryTable r
    some (s.setTheory r (some { th with theoryGoals := th.theoryGoals.filter (· ≠ pn) }))
  | .trans tr => do
    let nt ← s.transTable tr
    some (s.setTransf tr (some { nt with transfSubtasks := nt.transfSubtasks.filter (· ≠ pn) }))

/-- The record of a theory that no file lists any more is not kept. -/
def removeTheory (s : Session Task) (r : ℕ) : Option (Session Task) := do
  let th ← s.theoryTable r
  let f ← s.findFile th.theoryParentName
  let s := s.setFileTheories th.theoryParentName (f.fileTheories.filter (· ≠ r))
  some (s.setTheory r none)

/-- The function `remove` of `remove_subtree`. -/
def removeAny (s : Session Task) : Any → Option (Session Task)
  | .tn t => removeTransformation s t
  | .pa a => removeProofAttemptPa s a
  | .file fid => some { s with sessionFiles := s.sessionFiles.filter fun b => b.1 ≠ fid }
  | .pn g => removeProofNode s g
  | .th r => removeTheory s r

def getAnyParent (s : Session Task) : Any → Option (Option Any)
  | .file _ => some none
  | .th r => do
    let th ← s.theoryTable r
    let f ← s.findFile th.theoryParentName
    some (some (.file f.fileId))
  | .tn t => (s.transTable t).map fun tn => some (.pn tn.transfParent)
  | .pn g => (s.proofNodeTable g).map fun pn =>
    match pn.proofnParent with
    | .theory r => some (.th r)
    | .trans t => some (.tn t)
  | .pa a => (s.proofAttemptTable a).map fun pa => some (.pn pa.parent)

def updateAnyNode (s : Session Task) : Any → Option (Session Task)
  | .pn g => updateGoalNode (updateFuel s) s g
  | .tn t => updateTransNode (updateFuel s) s t
  | .pa _ => none
  | .file fid => do
    let f ← s.findFile fid
    updateFileNode s f
  | .th r => updateTheoryNode s r

/-- Attached files, theories and goals are not removed: `RemoveError`. -/
def removable (s : Session Task) (n : Any) : Option Bool :=
  match n with
  | .file _ | .pn _ | .th _ => isDetached s n
  | .tn _ | .pa _ => some true

def removeSubtree (s : Session Task) (n : Any) : Option (Session Task) := do
  if (← removable s n) then
    let p ← getAnyParent s n
    let s ← foldAllAny id removeAny (foldFuel s) s n
    match p with
    | none => some s
    | some p => updateAnyNode s p
  else none

end Why3.Itp
