import Why3.Session.ItpCommunication

/-!
# Messages as JSON values

`session/json_util.ml`, with the readers of fields of `util/json_base.ml`.  The server and
the interfaces convert each message to a JSON value, and parse the value that they receive.
-/

namespace Why3.JsonUtil

open MachineInt ItpCommunication
open JsonBase (Byte Json)

/-- The exceptions of the parsers.  `failure` is that of `Loc.user_position`. -/
inductive ParseExn
  | notFound | assertFailure | failure (s : List Byte)
  | notColor | notPosition | notProver | notLimit | notRequest (s : List Byte)
  | notNodeType | notProofAttempt | notUpdate | notInfos (s : List Byte) | notMessage
  | notNotification (s : List Byte)
deriving DecidableEq

abbrev Parsed (α : Type) := Except ParseExn α

/-- What the conversions take from elsewhere: `float_of_int`, and the texts of models, of
exceptions and of JSON values. -/
structure Printers (F M E : Type) where
  floatOfInt : Int63 → F
  modelText : M → List Byte
  exnText : E → List Byte
  jsonText : Json F → List Byte

variable {F M E α : Type}

/-- `match s with "k1" -> a1 | ... | _ -> d`. -/
def stringCase (s : List Byte) : List (String × α) → α → α
  | [], d => d
  | (k, a) :: l, d => if s = utf8 k then a else stringCase s l d

/-- `try x with Not_found -> raise e`. -/
def onNotFound (e : ParseExn) : Parsed α → Parsed α
  | .error .notFound => .error e
  | x => x

/-- `try x with Not_found -> d`. -/
def withDefault (d : α) : Parsed α → Parsed α
  | .error .notFound => .ok d
  | x => x

/-! ## Fields -/

def field (k : String) (v : Json F) : List Byte × Json F := (utf8 k, v)

/-- A string that stands in the source. -/
def lit (s : String) : Json F := .string (utf8 s)

/-- `List.assoc s r`. -/
def assoc (s : List Byte) : List (List Byte × α) → Parsed α
  | [] => .error .notFound
  | (k, v) :: r => if s = k then .ok v else assoc s r

def getField (j : Json F) (s : String) : Parsed (Json F) :=
  match j with
  | .record r => assoc (utf8 s) r
  | _ => .error .notFound

def getString : Json F → Parsed (List Byte)
  | .string s => .ok s
  | _ => .error .notFound

def getInt : Json F → Parsed Int63
  | .int n => .ok n
  | _ => .error .notFound

def getList : Json F → Parsed (List (Json F))
  | .list l => .ok l
  | _ => .error .notFound

def getFloat (P : Printers F M E) : Json F → Parsed F
  | .int n => .ok (P.floatOfInt n)
  | .float f => .ok f
  | _ => .error .notFound

def getBool : Json F → Parsed Bool
  | .bool b => .ok b
  | _ => .error .notFound

def getBoolOpt (j : Json F) (d : Bool) : Bool :=
  match j with
  | .bool b => b
  | _ => d

def getStringField (j : Json F) (s : String) : Parsed (List Byte) := getField j s >>= getString
def getIntField (j : Json F) (s : String) : Parsed Int63 := getField j s >>= getInt
def getListField (j : Json F) (s : String) : Parsed (List (Json F)) := getField j s >>= getList
def getFloatField (P : Printers F M E) (j : Json F) (s : String) : Parsed F :=
  getField j s >>= getFloat P
def getBoolField (j : Json F) (s : String) : Parsed Bool := getField j s >>= getBool

/-! ## Converting -/

def convertProverAux (pre : String) (p : Prover) : List (List Byte × Json F) :=
  [field (pre ++ "name") (.string p.proverName),
    field (pre ++ "version") (.string p.proverVersion),
    field (pre ++ "altern") (.string p.proverAltern)]

def convertProver (pre : String) (p : Prover) : Json F := .record (convertProverAux pre p)

def convertInfos (i : GlobalInformation) : Json F :=
  .record
    [field "provers" (.list (i.provers.map fun p => .record
      [field "prover_shortcut" (.string p.1), field "prover_name" (.string p.2.1),
        field "prover_parseable_name" (.string p.2.2)])),
    field "transformations" (.list (i.transformations.map fun t => .record
      [field "name_t" (.string t.1), field "desc_t" (.string t.2)])),
    field "strategies" (.list (i.strategies.map fun s => .record
      [field "strategy_shortcut" (.string s.1), field "strategy_name" (.string s.2)])),
    field "commands" (.list (i.commands.map .string))]

def convertProverAnswer : ProverAnswer → String × List Byte
  | .valid => ("Valid", [])
  | .invalid => ("Invalid", [])
  | .timeout => ("Timeout", [])
  | .outOfMemory => ("OutOfMemory", [])
  | .stepLimitExceeded => ("StepLimitExceeded", [])
  | .unknown s => ("Unknown", s)
  | .failure s => ("Failure", s)
  | .highFailure s => ("HighFailure", s)

def convertLimit (l : ResourceLimits F) : Json F :=
  .record [field "limit_time" (.float l.limitTime), field "limit_mem" (.int l.limitMem),
    field "limit_steps" (.int l.limitSteps)]

def convertUnixProcess : ProcessStatus → String × Int63
  | .wexited n => ("WEXITED", n)
  | .wsignaled n => ("WSIGNALED", n)
  | .wstopped n => ("WSTOPPED", n)

def convertModel (P : Printers F M E) (m : M) : Json F := .string (P.modelText m)

def convertModels (P : Printers F M E) (ml : List M) : Json F := .list (ml.map (convertModel P))

def convertProofResult (P : Printers F M E) (pr : ProverResult F M) : Json F :=
  .record
    [field "pr_answer" (lit (convertProverAnswer pr.prAnswer).1),
    field "pr_answer_arg" (.string (convertProverAnswer pr.prAnswer).2),
    field "pr_status" (lit (convertUnixProcess pr.prStatus).1),
    field "pr_status_arg" (.int (convertUnixProcess pr.prStatus).2),
    field "pr_output" (.string pr.prOutput),
    field "pr_time" (.float pr.prTime),
    field "pr_steps" (.int pr.prSteps),
    field "pr_models" (convertModels P (pr.prModels.map Prod.snd))]

def convertProofAttempt (P : Printers F M E) (pas : ProofAttemptStatus F M E) : Json F :=
  .record (match pas with
    | .undone => [field "proof_attempt" (lit "Undone")]
    | .interrupted => [field "proof_attempt" (lit "Interrupted")]
    | .scheduled => [field "proof_attempt" (lit "Scheduled")]
    | .detached => [field "proof_attempt" (lit "Detached")]
    | .running => [field "proof_attempt" (lit "Running")]
    | .done pr =>
      [field "proof_attempt" (lit "Done"), field "prover_result" (convertProofResult P pr)]
    | .internalFailure e =>
      [field "proof_attempt" (lit "InternalFailure"),
        field "exception" (.string (P.exnText e))]
    | .uninstalled p =>
      [field "proof_attempt" (lit "Uninstalled"), field "prover" (convertProver "prover_" p)]
    | .removed p =>
      [field "proof_attempt" (lit "Removed"), field "prover" (convertProver "prover_" p)]
    | .upgradeProver p =>
      [field "proof_attempt" (lit "UpgradeProver"),
        field "prover" (convertProver "prover_" p)])

def convertUpdate (P : Printers F M E) (u : UpdateInfo F M E) : Json F :=
  .record (match u with
    | .proved b => [field "update_info" (lit "Proved"), field "proved" (.bool b)]
    | .nameChange n => [field "update_info" (lit "Name_change"), field "name" (.string n)]
    | .proofStatusChange pas b l =>
      [field "update_info" (lit "Proof_status_change"),
        field "proof_attempt" (convertProofAttempt P pas),
        field "obsolete" (.bool b),
        field "limit" (convertLimit l)])

def convertNodeType (nt : NodeType) : Json F :=
  lit (match nt with
    | .nRoot => "NRoot"
    | .nFile => "NFile"
    | .nTheory => "NTheory"
    | .nTransformation => "NTransformation"
    | .nGoal => "NGoal"
    | .nProofAttempt => "NProofAttempt")

def convertLoc (loc : Position) : Json F :=
  let (file, sline, scol, eline, ecol) := loc.get
  .record [field "file-name" (.string file), field "start-line" (.int sline),
    field "start-col" (.int scol), field "end-line" (.int eline), field "end-col" (.int ecol)]

def convertPolicy : ProverUpgradePolicy → List (List Byte × Json F)
  | .cpuRemove => [field "policy" (lit "remove")]
  | .cpuKeep => [field "policy" (lit "keep")]
  | .cpuUpgrade p => field "policy" (lit "upgrade") :: convertProverAux "target_" p
  | .cpuDuplicate p => field "policy" (lit "duplicate") :: convertProverAux "target_" p

def convertStrat (str : NextUnprovedNodeStrat) : Json F :=
  lit (match str with
    | .next => "Next"
    | .prev => "Prev"
    | .clever => "Clever")

def convertConfigParam : ConfigParam F → List (List Byte × Json F)
  | .maxTasks m => [field "param" (lit "max_tasks"), field "value" (.int m)]
  | .timelimit f => [field "param" (lit "timelimit"), field "value" (.float f)]
  | .memlimit m => [field "param" (lit "memlimit"), field "value" (.int m)]

def convertRequest (r : IdeRequest F) : Json F :=
  .record (match r with
    | .commandReq nid s =>
      [field "ide_request" (lit "Command_req"), field "node_ID" (.int nid),
        field "command" (.string s)]
    | .addFileReq f => [field "ide_request" (lit "Add_file_req"), field "file" (.string f)]
    | .saveFileReq f _ => [field "ide_request" (lit "Save_file_req"), field "file" (.string f)]
    | .setConfigParam p =>
      field "ide_request" (lit "Set_config_param") :: convertConfigParam p
    | .setProverPolicy p u =>
      field "ide_request" (lit "Set_prover_policy") :: (convertProverAux "" p ++ convertPolicy u)
    | .getTask n b showUsesClonesMetas loc =>
      [field "ide_request" (lit "Get_task"), field "node_ID" (.int n),
        field "full_context" (.bool b),
        field "show_uses_clones_metas" (.bool showUsesClonesMetas), field "loc" (.bool loc)]
    | .getFileContents s =>
      [field "ide_request" (lit "Get_file_contents"), field "file" (.string s)]
    | .findIdentReq loc =>
      [field "ide_request" (lit "Find_ident_req"), field "loc" (convertLoc loc)]
    | .removeSubtree n =>
      [field "ide_request" (lit "Remove_subtree"), field "node_ID" (.int n)]
    | .copyPaste fromId toId =>
      [field "ide_request" (lit "Copy_paste"), field "node_ID1" (.int fromId),
        field "node_ID2" (.int toId)]
    | .getFirstUnprovenNode str id =>
      [field "ide_request" (lit "Get_first_unproven_node"), field "node_ID" (.int id),
        field "strat" (convertStrat str)]
    | .checkNeedSavingReq => [field "ide_request" (lit "Check_need_saving_req")]
    | .unfocusReq => [field "ide_request" (lit "Unfocus_req")]
    | .saveReq => [field "ide_request" (lit "Save_req")]
    | .exportAsZip => [field "ide_request" (lit "Export_as_zip")]
    | .reloadReq => [field "ide_request" (lit "Reload_req")]
    | .exitReq => [field "ide_request" (lit "Exit_req")]
    | .interruptReq => [field "ide_request" (lit "Interrupt_req")]
    | .resetProofsReq => [field "ide_request" (lit "Reset_proofs_req")]
    | .getGlobalInfos => [field "ide_request" (lit "Get_global_infos")])

def convertOptionLoc (loc : Option Position) : Json F :=
  .list (match loc with
    | none => []
    | some loc => [convertLoc loc])

def convertMessage (m : MessageNotification) : Json F :=
  .record (match m with
    | .proofError nid s =>
      [field "mess_notif" (lit "Proof_error"), field "node_ID" (.int nid),
        field "error" (.string s)]
    | .transfError fatal nid tr arg loc s doc =>
      [field "mess_notif" (lit "Transf_error"), field "is_fatal" (.bool fatal),
        field "node_ID" (.int nid), field "tr_name" (.string tr),
        field "failing_arg" (.string arg), field "loc" (convertLoc loc),
        field "error" (.string s), field "doc" (.string doc)]
    | .stratError nid s =>
      [field "mess_notif" (lit "Strat_error"), field "node_ID" (.int nid),
        field "error" (.string s)]
    | .replayInfo s =>
      [field "mess_notif" (lit "Replay_Info"), field "replay_info" (.string s)]
    | .queryInfo nid s =>
      [field "mess_notif" (lit "Query_Info"), field "node_ID" (.int nid),
        field "qinfo" (.string s)]
    | .queryError nid s =>
      [field "mess_notif" (lit "Query_Error"), field "node_ID" (.int nid),
        field "qerror" (.string s)]
    | .information s =>
      [field "mess_notif" (lit "Information"), field "information" (.string s)]
    | .taskMonitor n k p =>
      [field "mess_notif" (lit "Task_Monitor"), field "monitor" (.list [.int n, .int k, .int p])]
    | .parseOrTypeError loc relLoc s =>
      [field "mess_notif" (lit "Parse_Or_Type_Error"), field "loc" (convertLoc loc),
        field "rel_loc" (convertLoc relLoc), field "error" (.string s)]
    | .error s => [field "mess_notif" (lit "Error"), field "error" (.string s)]
    | .openFileError s =>
      [field "mess_notif" (lit "Open_File_Error"), field "open_error" (.string s)]
    | .fileSaved s =>
      [field "mess_notif" (lit "File_Saved"), field "information" (.string s)])

def convertColor (color : Color) : Json F :=
  lit (match color with
    | .negPremiseColor => "Neg_premise_color"
    | .premiseColor => "Premise_color"
    | .goalColor => "Goal_color"
    | .errorColor => "Error_color"
    | .errorLineColor => "Error_line_color"
    | .errorFontColor => "Error_font_color"
    | .searchColor => "Search_color")

def convertLocColor (lc : Position × Color) : Json F :=
  .record [field "loc" (convertLoc lc.1), field "color" (convertColor lc.2)]

def convertListLoc (l : List (Position × Color)) : Json F := .list (l.map convertLocColor)

def convertNotification (P : Printers F M E) (n : Notification F M E) : Json F :=
  .record (match n with
    | .resetWholeTree => [field "notification" (lit "Reset_whole_tree")]
    | .newNode nid parent nodeType name detached =>
      [field "notification" (lit "New_node"), field "node_ID" (.int nid),
        field "parent_ID" (.int parent), field "node_type" (convertNodeType nodeType),
        field "name" (.string name), field "detached" (.bool detached)]
    | .nodeChange nid update =>
      [field "notification" (lit "Node_change"), field "node_ID" (.int nid),
        field "update" (convertUpdate P update)]
    | .remove nid => [field "notification" (lit "Remove"), field "node_ID" (.int nid)]
    | .nextUnprovenNodeId fromId unprovedId =>
      [field "notification" (lit "Next_Unproven_Node_Id"), field "node_ID1" (.int fromId),
        field "node_ID2" (.int unprovedId)]
    | .initialized infos =>
      [field "notification" (lit "Initialized"), field "infos" (convertInfos infos)]
    | .saved => [field "notification" (lit "Saved")]
    | .savingNeeded b =>
      [field "notification" (lit "Saving_needed"), field "need_saving" (.bool b)]
    | .message m =>
      [field "notification" (lit "Message"), field "message" (convertMessage m)]
    | .dead s => [field "notification" (lit "Dead"), field "message" (.string s)]
    | .task nid s listLoc goalLoc lang =>
      [field "notification" (lit "Task"), field "node_ID" (.int nid), field "task" (.string s),
        field "loc_list" (convertListLoc listLoc), field "goal_loc" (convertOptionLoc goalLoc),
        field "lang" (.string lang)]
    | .fileContents f s fFormat readOnly =>
      [field "notification" (lit "File_contents"), field "file" (.string f),
        field "content" (.string s), field "file_format" (.string fFormat),
        field "read_only" (.bool readOnly)]
    | .sourceAndCe s listLoc goalLoc fFormat =>
      [field "notification" (lit "Source_and_ce"), field "content" (.string s),
        field "loc_list" (convertListLoc listLoc), field "goal_loc" (convertOptionLoc goalLoc),
        field "file_format" (.string fFormat)]
    | .identNotifLoc loc =>
      [field "notification" (lit "Ident_notif_loc"), field "ident_loc" (convertLoc loc)])

/-! ## Parsing -/

def parseStrat : Json F → Parsed NextUnprovedNodeStrat
  | .string s => stringCase s
      [("Next", .ok .next), ("Prev", .ok .prev), ("Clever", .ok .clever)] (.error .assertFailure)
  | _ => .error .assertFailure

def parseColor : Json F → Parsed Color
  | .string s => stringCase s
      [("Neg_premise_color", .ok .negPremiseColor), ("Premise_color", .ok .premiseColor),
        ("Goal_color", .ok .goalColor), ("Error_color", .ok .errorColor),
        ("Error_line_color", .ok .errorLineColor), ("Error_font_color", .ok .errorFontColor),
        ("Search_color", .ok .searchColor)] (.error .notColor)
  | _ => .error .notColor

def parseLoc (j : Json F) : Parsed Position :=
  onNotFound .notPosition do
    let file ← getStringField j "file-name"
    let sline ← getIntField j "start-line"
    let scol ← getIntField j "start-col"
    let eline ← getIntField j "end-line"
    let ecol ← getIntField j "end-col"
    (userPosition file sline scol eline ecol).mapError .failure

def parseLocColor (j : Json F) : Parsed (Position × Color) :=
  onNotFound .notPosition do
    let loc ← getField j "loc" >>= parseLoc
    let color ← getField j "color" >>= parseColor
    return (loc, color)

def parseListLoc : Json F → Parsed (List (Position × Color))
  | .list l => l.mapM parseLocColor
  | _ => .error .notPosition

def parseOptLoc : Json F → Parsed (Option Position)
  | .list [] => .ok none
  | .list [loc] => (parseLoc loc).map some
  | _ => .ok none

def parseProverFromJson (pre : String) (j : Json F) : Parsed Prover :=
  onNotFound .notProver do
    let pn ← getStringField j (pre ++ "name")
    let pv ← getStringField j (pre ++ "version")
    let pa ← getStringField j (pre ++ "altern")
    return ⟨pn, pv, pa⟩

def parseLimitFromJson (P : Printers F M E) (j : Json F) : Parsed (ResourceLimits F) :=
  onNotFound .notLimit do
    let t ← getFloatField P j "limit_time"
    let m ← getIntField j "limit_mem"
    let s ← getIntField j "limit_steps"
    return ⟨t, m, s⟩

def parseConfigParam (P : Printers F M E) (constr : List Byte) (j : Json F) :
    Parsed (ConfigParam F) := do
  let s ← getStringField j "param"
  stringCase s
    [("max_tasks", .maxTasks <$> getIntField j "value"),
      ("timelimit", .timelimit <$> getFloatField P j "value"),
      ("memlimit", .memlimit <$> getIntField j "value")] (.error (.notRequest constr))

/-- The policies that `Set_prover_policy` accepts. -/
def parsePolicy (j : Json F) : Parsed ProverUpgradePolicy := do
  let u ← getStringField j "policy"
  stringCase u
    [("keep", .ok .cpuKeep),
      ("upgrade", .cpuUpgrade <$> parseProverFromJson "target_" j),
      ("duplicate", .cpuDuplicate <$> parseProverFromJson "target_" j)]
    (.error (.notRequest []))

def parseRequest (P : Printers F M E) (constr : List Byte) (j : Json F) :
    Parsed (IdeRequest F) :=
  stringCase constr
    [("Command_req", do
        let nid ← getIntField j "node_ID"
        let s ← getStringField j "command"
        return .commandReq nid s),
    ("Get_first_unproven_node", do
        let nid ← getIntField j "node_ID"
        let str ← getField j "strat" >>= parseStrat
        return .getFirstUnprovenNode str nid),
    ("Add_file_req", .addFileReq <$> getStringField j "file"),
    ("Set_config_param", .setConfigParam <$> parseConfigParam P constr j),
    ("Set_prover_policy", do
        let p ← parseProverFromJson "" j
        let u ← parsePolicy j
        return .setProverPolicy p u),
    ("Find_ident_req", .findIdentReq <$> (getField j "loc" >>= parseLoc)),
    ("Get_task", do
        let n ← getIntField j "node_ID"
        let b ← getField j "full_context"
        let showUsesClonesMetas ← getField j "show_uses_clones_metas"
        let loc ← getField j "loc"
        return .getTask n (getBoolOpt b false) (getBoolOpt showUsesClonesMetas false)
          (getBoolOpt loc false)),
    ("Remove_subtree", .removeSubtree <$> getIntField j "node_ID"),
    ("Copy_paste", do
        let fromId ← getIntField j "node_ID1"
        let toId ← getIntField j "node_ID2"
        return .copyPaste fromId toId),
    ("Unfocus_req", .ok .unfocusReq),
    ("Interrupt_req", .ok .interruptReq),
    ("Save_req", .ok .saveReq),
    ("Export_as_zip", .ok .exportAsZip),
    ("Reload_req", .ok .reloadReq),
    ("Reset_proofs_req", .ok .resetProofsReq),
    ("Exit_req", .ok .exitReq),
    ("Check_need_saving_req", .ok .checkNeedSavingReq),
    ("Get_global_infos", .ok .getGlobalInfos)]
    (.error (.notRequest constr))

/-- `with _ -> raise (NotRequest s)`: every exception becomes the same one. -/
def parseRequestJson (P : Printers F M E) (j : Json F) : Parsed (IdeRequest F) :=
  (do
    let constr ← getStringField j "ide_request"
    parseRequest P constr j).mapError fun _ => .notRequest (P.jsonText j)

def parseNodeTypeFromJson : Json F → Parsed NodeType
  | .string s => stringCase s
      [("NRoot", .ok .nRoot), ("NFile", .ok .nFile), ("NTheory", .ok .nTheory),
        ("NTransformation", .ok .nTransformation), ("NGoal", .ok .nGoal),
        ("NProofAttempt", .ok .nProofAttempt)] (.error .notNodeType)
  | _ => .error .notNodeType

def parseProverAnswer (a d : List Byte) : ProverAnswer :=
  stringCase a
    [("Valid", .valid), ("Invalid", .invalid), ("Timeout", .timeout),
      ("OutOfMemory", .outOfMemory), ("StepLimitExceeded", .stepLimitExceeded),
      ("Unknown", .unknown d), ("Failure", .failure d), ("HighFailure", .highFailure d)]
    (.highFailure d)

def parseUnixProcess (j : List Byte) (arg : Int63) : ProcessStatus :=
  stringCase j
    [("WEXITED", .wexited arg), ("WSIGNALED", .wsignaled arg), ("WSTOPPED", .wstopped arg)]
    (.wsignaled (wrap (-1)))

/-- The models are not read.  The default time is the float of `-1`. -/
def parseProverResult (P : Printers F M E) (j : Json F) : Parsed (ProverResult F M) := do
  let answerArg ← withDefault [] (getStringField j "pr_answer_arg")
  let answer ← withDefault (.highFailure (utf8 "unparsed prover answer (JSON)"))
    ((parseProverAnswer · answerArg) <$> getStringField j "pr_answer")
  let statusArg ← withDefault (wrap (-1)) (getIntField j "pr_status_arg")
  let status ← withDefault (.wsignaled (wrap (-1)))
    ((parseUnixProcess · statusArg) <$> getStringField j "pr_status")
  let output ← withDefault [] (getStringField j "pr_output")
  let time ← withDefault (P.floatOfInt (wrap (-1))) (getFloatField P j "pr_time")
  let steps ← withDefault (wrap (-1)) (getIntField j "pr_steps")
  return ⟨answer, status, output, time, steps, []⟩

def parseProofAttempt (P : Printers F M E) (j : Json F) :
    Parsed (ProofAttemptStatus F M E) := do
  let s ← getStringField j "proof_attempt"
  stringCase s
    [("Undone", .ok .undone), ("Detached", .ok .detached), ("Interrupted", .ok .interrupted),
      ("Scheduled", .ok .scheduled), ("Running", .ok .running),
      ("Done", .done <$> (getField j "prover_result" >>= parseProverResult P)),
      ("InternalFailure", .error .notProofAttempt),
      ("Uninstalled", .uninstalled <$> (getField j "prover" >>= parseProverFromJson "prover_")),
      ("UpgradeProver",
        .upgradeProver <$> (getField j "prover" >>= parseProverFromJson "prover_"))]
    (.error .notProofAttempt)

def parseUpdate (P : Printers F M E) (j : Json F) : Parsed (UpdateInfo F M E) := do
  let update ← getStringField j "update_info"
  stringCase update
    [("Proved", .proved <$> getBoolField j "proved"),
      ("Name_change", .nameChange <$> getStringField j "name"),
      ("Proof_status_change", do
        let pas ← getField j "proof_attempt"
        let b ← getBoolField j "obsolete"
        let l ← getField j "limit"
        let limits ← parseLimitFromJson P l
        let status ← parseProofAttempt P pas
        return .proofStatusChange status b limits)]
    (.error .notUpdate)

/-- The elements of `transformations` turn every exception into `NotInfos`. -/
def parseInfos (j : Json F) : Parsed GlobalInformation :=
  onNotFound (.notInfos (utf8 "infos")) do
    let pr ← getListField j "provers"
    let tr ← getListField j "transformations"
    let tr ← tr.mapM fun j =>
      (do
        let a ← getStringField j "name_t"
        let b ← getStringField j "desc_t"
        return (a, b) : Parsed _).mapError fun _ => .notInfos (utf8 "transformations")
    let str ← getListField j "strategies"
    let com ← getListField j "commands"
    let pr ← pr.mapM fun j => onNotFound (.notInfos (utf8 "provers")) do
      let s ← getStringField j "prover_shortcut"
      let h ← getStringField j "prover_name"
      let p ← getStringField j "prover_parseable_name"
      return (s, h, p)
    let str ← str.mapM fun j => onNotFound (.notInfos (utf8 "strategies")) do
      let s ← getStringField j "strategy_shortcut"
      let p ← getStringField j "strategy_name"
      return (s, p)
    let com ← com.mapM fun
      | .string x => .ok x
      | _ => .error (.notInfos (utf8 "commands"))
    return ⟨pr, tr, str, com⟩

def parseMessage (j : Json F) : Parsed MessageNotification := do
  let constr ← getStringField j "mess_notif"
  stringCase constr
    [("Proof_error", do
        let nid ← getIntField j "node_ID"
        let s ← getStringField j "error"
        return .proofError nid s),
    ("Transf_error", do
        let nid ← getIntField j "node_ID"
        let fatal ← getBoolField j "is_fatal"
        let trName ← getStringField j "tr_name"
        let arg ← getStringField j "failing_arg"
        let loc ← getField j "loc" >>= parseLoc
        let error ← getStringField j "error"
        let doc ← getStringField j "doc"
        return .transfError fatal nid trName arg loc error doc),
    ("Strat_error", do
        let nid ← getIntField j "node_ID"
        let s ← getStringField j "error"
        return .stratError nid s),
    ("Replay_Info", .replayInfo <$> getStringField j "replay_info"),
    ("Query_Info", do
        let nid ← getIntField j "node_ID"
        let s ← getStringField j "qinfo"
        return .queryInfo nid s),
    ("Query_Error", do
        let nid ← getIntField j "node_ID"
        let s ← getStringField j "qerror"
        return .queryError nid s),
    ("Information", .information <$> getStringField j "information"),
    ("Task_Monitor", do
        match ← getListField j "monitor" with
        | [.int n, .int k, .int p] => return .taskMonitor n k p
        | _ => .error .notMessage),
    ("Error", .error <$> getStringField j "error"),
    ("Open_File_Error", .openFileError <$> getStringField j "open_error"),
    ("Parse_Or_Type_Error", do
        let loc ← getField j "loc" >>= parseLoc
        let relLoc ← getField j "rel_loc" >>= parseLoc
        let error ← getStringField j "error"
        return .parseOrTypeError loc relLoc error)]
    (.error .notMessage)

def parseNotification (P : Printers F M E) (constr : List Byte) (j : Json F) :
    Parsed (Notification F M E) :=
  stringCase constr
    [("Reset_whole_tree", .ok .resetWholeTree),
    ("New_node", do
        let nid ← getIntField j "node_ID"
        let parent ← getIntField j "parent_ID"
        let nodeType ← getField j "node_type"
        let name ← getStringField j "name"
        let detached ← getBoolField j "detached"
        let nodeType ← parseNodeTypeFromJson nodeType
        return .newNode nid parent nodeType name detached),
    ("Node_change", do
        let nid ← getIntField j "node_ID"
        let update ← getField j "update"
        let update ← parseUpdate P update
        return .nodeChange nid update),
    ("Remove", .remove <$> getIntField j "node_ID"),
    ("Initialized", .initialized <$> (getField j "infos" >>= parseInfos)),
    ("Saved", .ok .saved),
    ("Message", .message <$> (getField j "message" >>= parseMessage)),
    ("Dead", .dead <$> getStringField j "message"),
    ("Task", do
        let nid ← getIntField j "node_ID"
        let s ← getStringField j "task"
        let l ← getField j "loc_list"
        let gl ← getField j "goal_loc"
        let lang ← getStringField j "lang"
        let goalLoc ← parseOptLoc gl
        let listLoc ← parseListLoc l
        return .task nid s listLoc goalLoc lang),
    ("Next_Unproven_Node_Id", do
        let nid1 ← getIntField j "node_ID1"
        let nid2 ← getIntField j "node_ID2"
        return .nextUnprovenNodeId nid1 nid2),
    ("File_contents", do
        let f ← getStringField j "file"
        let s ← getStringField j "content"
        let fFormat ← getStringField j "file_format"
        let readOnly ← getBoolField j "read_only"
        return .fileContents f s fFormat readOnly),
    ("Source_and_ce", do
        let s ← getStringField j "content"
        let l ← getField j "loc_list"
        let gl ← getField j "goal_loc"
        let fFormat ← getStringField j "file_format"
        let goalLoc ← parseOptLoc gl
        let listLoc ← parseListLoc l
        return .sourceAndCe s listLoc goalLoc fFormat),
    ("Ident_notif_loc", .identNotifLoc <$> (getField j "ident_loc" >>= parseLoc)),
    ("Saving_needed", .savingNeeded <$> getBoolField j "need_saving")]
    (.error (.notNotification (utf8 "<from parse_notification> " ++ constr)))

def parseNotificationJson (P : Printers F M E) (j : Json F) : Parsed (Notification F M E) :=
  onNotFound (.notNotification (utf8 "<from parse_notification_json>")) do
    let constr ← getStringField j "notification"
    parseNotification P constr j

end Why3.JsonUtil
