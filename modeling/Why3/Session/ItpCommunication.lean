import Why3.Util.Json

/-!
# The messages between the server and the interfaces

The types of `session/itp_communication.ml`, and the positions of `util/loc.ml`.  A
character is a byte.  Counterexample models, exceptions and floating-point numbers are
parameters `M`, `E` and `F`.
-/

namespace Why3.ItpCommunication

open MachineInt
open JsonBase (Byte)

/-- A string that stands in the source: the file is read as UTF-8. -/
def utf8 (s : String) : List Byte := s.toByteArray.data.toList.map UInt8.toFin

theorem utf8_injective : Function.Injective utf8 := by
  intro s t h
  have hlist := List.map_injective_iff.mpr (fun _ _ => UInt8.toFin_inj.mp) h
  apply String.toByteArray_inj.mp
  exact ByteArray.ext (Array.toList_inj.mp hlist)

/-! ## Positions -/

/-- `Loc.position`.  The table of `FileTags` has one tag for each file name, and the name
stands for the tag.  A line and a column are packed in one machine word. -/
structure Position where
  posFile : List Byte
  posStart : BitVec 63
  posEnd : BitVec 63
deriving DecidableEq

def bitsCol : ℕ := 16

def maskCol : BitVec 63 := (1 <<< bitsCol) - 1

/-- `(1 lsl (Sys.word_size - bits_col - 1)) - 1`. -/
def maxLine : ℤ := 2 ^ (64 - bitsCol - 1) - 1

/-- A machine word, read as a signed number. -/
def intOf (b : BitVec 63) : Int63 := wrap b.toInt

def wordOf (n : Int63) : BitVec 63 := BitVec.ofInt 63 n.val

/-- `Loc.get`. -/
def Position.get (p : Position) : List Byte × Int63 × Int63 × Int63 × Int63 :=
  (p.posFile, intOf (p.posStart >>> bitsCol), intOf (p.posStart &&& maskCol),
    intOf (p.posEnd >>> bitsCol), intOf (p.posEnd &&& maskCol))

/-- `Loc.user_position`, with the text of its failure.  The warning about a column that
overflows on the next line is left out. -/
def userPosition (f : List Byte) (bl bc el ec : Int63) : Except (List Byte) Position :=
  let outOfBounds (what : String) (n : Int63) : List Byte :=
    utf8 "Loc.user_position: " ++ utf8 what ++ utf8 " number `" ++
      (stringOfInt n).map JsonBase.byte ++ utf8 "` out of bounds"
  if bl.val < 0 ∨ bl.val > maxLine then .error (outOfBounds "start line" bl)
  else if bc.val < 0 then .error (outOfBounds "start char" bc)
  else if el.val < 0 ∨ el.val > maxLine then .error (outOfBounds "end line" el)
  else if ec.val < 0 then .error (outOfBounds "end char" ec)
  else .ok ⟨f, (wordOf bl <<< bitsCol) ||| wordOf bc, (wordOf el <<< bitsCol) ||| wordOf ec⟩

/-! ## Results of provers -/

inductive ProverAnswer
  | valid | invalid | timeout | outOfMemory | stepLimitExceeded
  | unknown (s : List Byte) | failure (s : List Byte) | highFailure (s : List Byte)
deriving DecidableEq

inductive ProcessStatus
  | wexited (n : Int63) | wsignaled (n : Int63) | wstopped (n : Int63)
deriving DecidableEq

structure ProverResult (F M : Type) where
  prAnswer : ProverAnswer
  prStatus : ProcessStatus
  prOutput : List Byte
  prTime : F
  prSteps : Int63
  prModels : List (ProverAnswer × M)

structure ResourceLimits (F : Type) where
  limitTime : F
  limitMem : Int63
  limitSteps : Int63

structure Prover where
  proverName : List Byte
  proverVersion : List Byte
  proverAltern : List Byte
deriving DecidableEq

inductive ProverUpgradePolicy
  | cpuKeep | cpuUpgrade (p : Prover) | cpuDuplicate (p : Prover) | cpuRemove
deriving DecidableEq

/-- `Controller_itp.proof_attempt_status`. -/
inductive ProofAttemptStatus (F M E : Type)
  | undone | scheduled | running | done (r : ProverResult F M) | interrupted | detached
  | internalFailure (e : E) | uninstalled (p : Prover) | upgradeProver (p : Prover)
  | removed (p : Prover)

/-! ## Messages -/

abbrev NodeID := Int63

structure GlobalInformation where
  provers : List (List Byte × List Byte × List Byte)
  transformations : List (List Byte × List Byte)
  strategies : List (List Byte × List Byte)
  commands : List (List Byte)
deriving DecidableEq

inductive MessageNotification
  | proofError (id : NodeID) (s : List Byte)
  | transfError (fatal : Bool) (id : NodeID) (tr arg : List Byte) (loc : Position)
      (s doc : List Byte)
  | stratError (id : NodeID) (s : List Byte)
  | replayInfo (s : List Byte)
  | queryInfo (id : NodeID) (s : List Byte)
  | queryError (id : NodeID) (s : List Byte)
  | information (s : List Byte)
  | taskMonitor (n k p : Int63)
  | parseOrTypeError (loc relLoc : Position) (s : List Byte)
  | fileSaved (s : List Byte)
  | error (s : List Byte)
  | openFileError (s : List Byte)
deriving DecidableEq

inductive NodeType
  | nRoot | nFile | nTheory | nTransformation | nGoal | nProofAttempt
deriving DecidableEq

inductive Color
  | negPremiseColor | premiseColor | goalColor | errorColor | errorLineColor | errorFontColor
  | searchColor
deriving DecidableEq

inductive UpdateInfo (F M E : Type)
  | proved (b : Bool)
  | nameChange (s : List Byte)
  | proofStatusChange (pas : ProofAttemptStatus F M E) (obsolete : Bool) (l : ResourceLimits F)

inductive Notification (F M E : Type)
  | resetWholeTree
  | newNode (id parent : NodeID) (type : NodeType) (name : List Byte) (detached : Bool)
  | nodeChange (id : NodeID) (u : UpdateInfo F M E)
  | remove (id : NodeID)
  | nextUnprovenNodeId (id id' : NodeID)
  | initialized (infos : GlobalInformation)
  | savingNeeded (b : Bool)
  | saved
  | message (m : MessageNotification)
  | dead (s : List Byte)
  | task (id : NodeID) (s : List Byte) (locs : List (Position × Color))
      (goalLoc : Option Position) (lang : List Byte)
  | fileContents (f s format : List Byte) (readOnly : Bool)
  | sourceAndCe (s : List Byte) (locs : List (Position × Color)) (goalLoc : Option Position)
      (format : List Byte)
  | identNotifLoc (loc : Position)

inductive NextUnprovedNodeStrat
  | prev | next | clever
deriving DecidableEq

inductive ConfigParam (F : Type)
  | maxTasks (m : Int63) | timelimit (f : F) | memlimit (m : Int63)

inductive IdeRequest (F : Type)
  | commandReq (id : NodeID) (s : List Byte)
  | addFileReq (f : List Byte)
  | setConfigParam (p : ConfigParam F)
  | setProverPolicy (p : Prover) (u : ProverUpgradePolicy)
  | getFileContents (f : List Byte)
  | getTask (id : NodeID) (full showMetas loc : Bool)
  | removeSubtree (id : NodeID)
  | copyPaste (fromId toId : NodeID)
  | saveFileReq (f s : List Byte)
  | getFirstUnprovenNode (strat : NextUnprovedNodeStrat) (id : NodeID)
  | findIdentReq (loc : Position)
  | unfocusReq | saveReq | exportAsZip | reloadReq | checkNeedSavingReq | exitReq | interruptReq
  | resetProofsReq | getGlobalInfos

end Why3.ItpCommunication
