import Why3.Session.Tables
import Why3.Lib.OptionLoops
import Why3.Lib.Parents

/-!
# The forest of a session

The tables of a session name each node in the list of its parent and the parent in each
node.  `Forest` says that the two agree, for goals that are announced and not made yet
too.
-/

namespace Why3.Itp

open Parents Session

variable {Task : Type}

namespace Session

variable (s : Session Task)

/-! ## Children and parents -/

def attemptKids : ℕ → List ℕ :=
  rows (fun pn : ProofNode => pn.proofnAttempts.map Prod.snd) s.proofNodeTable

def transfKids : ℕ → List ℕ := rows ProofNode.proofnTransformations s.proofNodeTable

def goalKids : ProofParent → List ℕ
  | .theory r => rows Theory.theoryGoals s.theoryTable r
  | .trans t => rows TransformationNode.transfSubtasks s.transTable t

def theoryKids : ℕ → List ℕ := rows File.fileTheories s.findFile

def attemptParent (a : ℕ) : Option ℕ := (s.proofAttemptTable a).map ProofAttemptNode.parent

def transfParent (t : ℕ) : Option ℕ := (s.transTable t).map TransformationNode.transfParent

def theoryParent (r : ℕ) : Option ℕ := (s.theoryTable r).map Theory.theoryParentName

variable {s} in
theorem attemptKids_of_some {g : ℕ} {pn : ProofNode} (h : s.proofNodeTable g = some pn) :
    s.attemptKids g = pn.proofnAttempts.map Prod.snd :=
  rows_of_some h

variable {s} in
theorem transfKids_of_some {g : ℕ} {pn : ProofNode} (h : s.proofNodeTable g = some pn) :
    s.transfKids g = pn.proofnTransformations :=
  rows_of_some h

/-- The node is in its table. -/
def Has : Any → Prop
  | .file fid => (s.findFile fid).isSome
  | .th r => (s.theoryTable r).isSome
  | .tn t => (s.transTable t).isSome
  | .pn g => (s.proofNodeTable g).isSome
  | .pa a => (s.proofAttemptTable a).isSome

end Session

/-- The goals have parents by `par`, also those that are not made yet; the nodes outside
`U` are listed by their parents.  A goal has at most one attempt by a prover, and is lower
than the goals above it. -/
structure Forest (par : ℕ → Option ProofParent) (U : Set Any) (s : Session Task) : Prop where
  attempts : Linked s.attemptKids s.attemptParent {a | Any.pa a ∈ U}
  transfs : Linked s.transfKids s.transfParent {t | Any.tn t ∈ U}
  goals : Linked s.goalKids par {g | Any.pn g ∈ U}
  theories : Linked s.theoryKids s.theoryParent {r | Any.th r ∈ U}
  made : ∀ {g pn}, s.proofNodeTable g = some pn → par g = some pn.proofnParent
  provers : ∀ {g pn}, s.proofNodeTable g = some pn → (pn.proofnAttempts.map Prod.fst).Nodup
  prover : ∀ {g pn p a pa}, s.proofNodeTable g = some pn → (p, a) ∈ pn.proofnAttempts →
    s.proofAttemptTable a = some pa → pa.prover = p
  lower : ∀ {g t tn}, s.transTable t = some tn → par g = some (.trans t) → tn.transfParent < g
  untasked : ∀ {g}, s.proofNodeTable g = none → (par g).isSome ∨ s.nextProofNodeID ≤ g →
    s.rawTasks g = none
  fileKeys : (s.sessionFiles.map Prod.fst).Nodup
  fileId : ∀ {fid f}, s.findFile fid = some f → f.fileId = fid
  goal_lt : ∀ {g p}, par g = some p → g < s.nextProofNodeID
  attempt_lt : ∀ {a pa}, s.proofAttemptTable a = some pa → a < s.nextProofAttemptID
  transf_lt : ∀ {t tn}, s.transTable t = some tn → t < s.nextTransID
  theory_lt : ∀ {r th}, s.theoryTable r = some th → r < s.nextTheory
  file_lt : ∀ {fid f}, s.findFile fid = some f → fid < s.nextFileID

/-- The session without its cached statuses. -/
def Session.withoutStatus (s : Session Task) : Session Task :=
  { s with
    fileState := fun _ => none
    thState := fun _ => none
    tnState := fun _ => none
    pnState := fun _ => none }

section SameTables

variable {s s' : Session Task} (hs : s'.withoutStatus = s.withoutStatus)

include hs

theorem proofNodeTable_eq : s'.proofNodeTable = s.proofNodeTable := by
  have := congrArg proofNodeTable hs
  exact this

theorem transTable_eq : s'.transTable = s.transTable := by
  have := congrArg transTable hs
  exact this

theorem proofAttemptTable_eq : s'.proofAttemptTable = s.proofAttemptTable := by
  have := congrArg proofAttemptTable hs
  exact this

theorem theoryTable_eq : s'.theoryTable = s.theoryTable := by
  have := congrArg theoryTable hs
  exact this

theorem findFile_eq : s'.findFile = s.findFile := by
  have := congrArg findFile hs
  exact this

theorem rawTasks_eq : s'.rawTasks = s.rawTasks := by
  have := congrArg rawTasks hs
  exact this

theorem nextProofNodeID_eq : s'.nextProofNodeID = s.nextProofNodeID := by
  have := congrArg nextProofNodeID hs
  exact this

theorem nextFileID_eq : s'.nextFileID = s.nextFileID := by
  have := congrArg nextFileID hs
  exact this

end SameTables

theorem forest_withoutStatus {par : ℕ → Option ProofParent} {U : Set Any} {s : Session Task} :
    Forest par U s.withoutStatus ↔ Forest par U s := by
  constructor
  all_goals
    intro h
    exact ⟨h.attempts, h.transfs, h.goals, h.theories, h.made, h.provers, h.prover, h.lower,
      h.untasked, h.fileKeys, h.fileId, h.goal_lt, h.attempt_lt, h.transf_lt, h.theory_lt,
      h.file_lt⟩

theorem Forest.congr {par : ℕ → Option ProofParent} {U : Set Any} {s s' : Session Task}
    (h : Forest par U s) (hs : s'.withoutStatus = s.withoutStatus) : Forest par U s' := by
  rw [← forest_withoutStatus, hs, forest_withoutStatus]
  exact h

/-- Every goal that is announced is made. -/
def Complete (par : ℕ → Option ProofParent) (s : Session Task) : Prop :=
  ∀ g, (par g).isSome → (s.proofNodeTable g).isSome

end Why3.Itp
