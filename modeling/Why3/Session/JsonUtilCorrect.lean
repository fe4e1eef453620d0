import Why3.Session.JsonUtil

/-!
# What the parsers rebuild

Each parser of `session/json_util.ml` is run on what the converter of the same type returns.
-/

namespace Why3.ItpCommunication

open MachineInt BitVec
open JsonBase (Byte)

/-! ## Positions -/

theorem intOf_val {b : BitVec 63} (h : b.toNat < 2 ^ 62) : (intOf b).val = b.toNat := by
  have hint : b.toInt = b.toNat := toInt_eq_toNat_of_lt (by omega)
  rw [intOf, wrap, hint]
  show ((b.toNat : ℤ) + 2 ^ 62) % 2 ^ 63 - 2 ^ 62 = b.toNat
  omega

theorem wordOf_intOf {b : BitVec 63} (h : b.toNat < 2 ^ 62) : wordOf (intOf b) = b := by
  rw [wordOf, intOf_val h]
  exact eq_of_toNat_eq (by simp)

theorem toNat_line_lt (b : BitVec 63) : (b >>> bitsCol).toNat < 2 ^ 47 := by
  have hb := b.isLt
  rw [toNat_ushiftRight, Nat.shiftRight_eq_div_pow, bitsCol]
  omega

theorem toNat_col_lt (b : BitVec 63) : (b &&& maskCol).toNat < 2 ^ 16 := by
  have hle : (b &&& maskCol).toNat ≤ maskCol.toNat := by
    rw [toNat_and]
    exact Nat.and_le_right
  have hmask : maskCol.toNat = 65535 := by decide
  omega

theorem line_or_col (b : BitVec 63) :
    ((b >>> bitsCol) <<< bitsCol) ||| (b &&& maskCol) = b := by
  have hmask : ∀ i : Fin 63, maskCol.getLsbD i = decide (i.val < 16) := by decide
  ext i hi
  have hi' := hmask ⟨i, hi⟩
  rw [getLsbD_eq_getElem hi] at hi'
  simp only [getElem_or, getElem_and, getElem_shiftLeft,
    hi', bitsCol]
  by_cases h16 : i < 16
  · simp [h16]
  · have hsum : 16 + (i - 16) = i := by omega
    simp [h16, hsum, getLsbD_eq_getElem hi]

/-- A position is built back from what `get` reads of it. -/
theorem userPosition_get (p : Position) :
    userPosition p.get.1 p.get.2.1 p.get.2.2.1 p.get.2.2.2.1 p.get.2.2.2.2 = .ok p := by
  have hlt : ∀ b : BitVec 63, (intOf (b >>> bitsCol)).val = (b >>> bitsCol).toNat ∧
      (intOf (b &&& maskCol)).val = (b &&& maskCol).toNat := by
    intro b
    have hline := toNat_line_lt b
    have hcol := toNat_col_lt b
    exact ⟨intOf_val (by omega), intOf_val (by omega)⟩
  have hword : ∀ b : BitVec 63, (wordOf (intOf (b >>> bitsCol)) <<< bitsCol) |||
      wordOf (intOf (b &&& maskCol)) = b := by
    intro b
    have hline := toNat_line_lt b
    have hcol := toNat_col_lt b
    rw [wordOf_intOf (by omega), wordOf_intOf (by omega)]
    exact line_or_col b
  have hmax : maxLine = 2 ^ 47 - 1 := by decide
  have hs := toNat_line_lt p.posStart
  have he := toNat_line_lt p.posEnd
  simp only [Position.get, userPosition, (hlt _).1, (hlt _).2, hmax]
  rw [if_neg (by omega), if_neg (by omega), if_neg (by omega), if_neg (by omega), hword, hword]

end Why3.ItpCommunication

namespace Why3.JsonUtil

open MachineInt ItpCommunication
open JsonBase (Byte Json)

variable {F M E α β : Type}

/-! ## Reading what was written -/

@[simp] theorem ok_bind (a : α) (f : α → Parsed β) : (Except.ok a >>= f : Parsed β) = f a := rfl

@[simp] theorem map_ok (f : α → β) (a : α) : (f <$> (Except.ok a : Parsed α)) = .ok (f a) := rfl

@[simp] theorem onNotFound_ok (e : ParseExn) (a : α) : onNotFound e (.ok a) = .ok a := rfl

@[simp] theorem withDefault_ok (d a : α) : withDefault d (.ok a) = .ok a := rfl

@[simp] theorem stringCase_self (k : String) (a d : α) (l : List (String × α)) :
    stringCase (utf8 k) ((k, a) :: l) d = a := by
  rw [stringCase, if_pos rfl]

theorem stringCase_skip {s k : String} {a d : α} {l : List (String × α)} (h : s ≠ k) :
    stringCase (utf8 s) ((k, a) :: l) d = stringCase (utf8 s) l d := by
  rw [stringCase, if_neg (utf8_injective.ne h)]

@[simp] theorem stringCase_nil (s : List Byte) (d : α) : stringCase s [] d = d := rfl

@[simp] theorem getField_self (k : String) (v : Json F) (r : List (List Byte × Json F)) :
    getField (.record (field k v :: r)) k = .ok v := by
  rw [getField, field, assoc, if_pos rfl]

theorem getField_skip {s k : String} {v : Json F} {r : List (List Byte × Json F)}
    (h : s ≠ k) :
    getField (.record (field k v :: r)) s = getField (.record r) s := by
  rw [getField, field, assoc, if_neg (utf8_injective.ne h), getField]

theorem mapM_map_ok {f : β → Parsed α} {g : α → β} (h : ∀ a, f (g a) = .ok a) (l : List α) :
    (l.map g).mapM f = .ok l := by
  induction l with
  | nil => rfl
  | cons a l ih =>
    rw [List.map_cons, List.mapM_cons, h, ih]
    rfl

/-! ## The parts of messages -/

theorem parse_convert_nodeType (nt : NodeType) :
    parseNodeTypeFromJson (convertNodeType nt : Json F) = .ok nt := by
  cases nt <;>
    simp (disch := simp) only [convertNodeType, lit, parseNodeTypeFromJson,
      stringCase_self, stringCase_skip]

theorem parse_convert_color (c : Color) : parseColor (convertColor c : Json F) = .ok c := by
  cases c <;>
    simp (disch := simp) only [convertColor, lit, parseColor, stringCase_self,
      stringCase_skip]

theorem parse_convert_strat (str : NextUnprovedNodeStrat) :
    parseStrat (convertStrat str : Json F) = .ok str := by
  cases str <;>
    simp (disch := simp) only [convertStrat, lit, parseStrat, stringCase_self,
      stringCase_skip]

theorem parse_convert_loc (loc : Position) : parseLoc (convertLoc loc : Json F) = .ok loc := by
  have h := userPosition_get loc
  simp (disch := simp) only [parseLoc, convertLoc, getStringField, getIntField,
    getField_self, getField_skip, ok_bind, getString, getInt, h, Except.mapError, onNotFound_ok]

theorem parse_convert_locColor (lc : Position × Color) :
    parseLocColor (convertLocColor lc : Json F) = .ok lc := by
  simp (disch := simp) only [parseLocColor, convertLocColor, getField_self,
    getField_skip, ok_bind, parse_convert_loc, parse_convert_color]
  rfl

theorem parse_convert_listLoc (l : List (Position × Color)) :
    parseListLoc (convertListLoc l : Json F) = .ok l :=
  mapM_map_ok parse_convert_locColor l

theorem parse_convert_optionLoc (loc : Option Position) :
    parseOptLoc (convertOptionLoc loc : Json F) = .ok loc := by
  cases loc with
  | none => rfl
  | some loc =>
    have h := parse_convert_loc (F := F) loc
    rw [convertOptionLoc, parseOptLoc, h]
    rfl

theorem parse_convert_prover (p : Prover) :
    parseProverFromJson "prover_" (convertProver "prover_" p : Json F) = .ok p := by
  simp only [parseProverFromJson, convertProver, convertProverAux, String.reduceAppend]
  simp (disch := simp) only [getStringField, getField_self, getField_skip, ok_bind, getString]
  rfl

theorem parse_convert_limit (P : Printers F M E) (l : ResourceLimits F) :
    parseLimitFromJson P (convertLimit l) = .ok l := by
  simp (disch := simp) only [parseLimitFromJson, convertLimit, getIntField,
    getFloatField, getField_self, getField_skip, ok_bind, getInt, getFloat]
  rfl

theorem parse_convert_proverAnswer (a : ProverAnswer) :
    parseProverAnswer (utf8 (convertProverAnswer a).1) (convertProverAnswer a).2 = a := by
  cases a <;>
    simp (disch := simp) only [convertProverAnswer, parseProverAnswer,
      stringCase_self, stringCase_skip]

theorem parse_convert_unixProcess (ps : ProcessStatus) :
    parseUnixProcess (utf8 (convertUnixProcess ps).1) (convertUnixProcess ps).2 = ps := by
  cases ps <;>
    simp (disch := simp) only [convertUnixProcess, parseUnixProcess,
      stringCase_self, stringCase_skip]

theorem parse_convert_proofResult (P : Printers F M E) (pr : ProverResult F M) :
    parseProverResult P (convertProofResult P pr) = .ok { pr with prModels := [] } := by
  simp (disch := simp) only [parseProverResult, convertProofResult, lit,
    getStringField, getIntField, getFloatField, getField_self, getField_skip, ok_bind, getString,
    getInt, getFloat, withDefault_ok, map_ok, parse_convert_proverAnswer,
    parse_convert_unixProcess]
  rfl

theorem parse_convert_infos (i : GlobalInformation) :
    parseInfos (convertInfos i : Json F) = .ok i := by
  simp (disch := simp) only [parseInfos, convertInfos, getListField, getField_self,
    getField_skip, ok_bind, getList]
  rw [mapM_map_ok, ok_bind, mapM_map_ok, ok_bind, mapM_map_ok, ok_bind, mapM_map_ok, ok_bind]
  · rfl
  · exact fun _ => rfl
  · intro s
    simp (disch := simp) only [getStringField, getField_self, getField_skip, ok_bind,
      getString]
    rfl
  · intro p
    simp (disch := simp) only [getStringField, getField_self, getField_skip, ok_bind,
      getString]
    rfl
  · intro t
    simp (disch := simp) only [getStringField, getField_self, getField_skip, ok_bind,
      getString]
    rfl

end Why3.JsonUtil

/-! ## Up to models and exceptions -/

namespace Why3.ItpCommunication

variable {F M E : Type}

def ProverResult.kind (pr : ProverResult F M) : ProverResult F Unit :=
  ⟨pr.prAnswer, pr.prStatus, pr.prOutput, pr.prTime, pr.prSteps, []⟩

/-- A status without its models and without its exception. -/
def ProofAttemptStatus.kind : ProofAttemptStatus F M E → ProofAttemptStatus F Unit Unit
  | .undone => .undone
  | .scheduled => .scheduled
  | .running => .running
  | .done r => .done r.kind
  | .interrupted => .interrupted
  | .detached => .detached
  | .internalFailure _ => .internalFailure ()
  | .uninstalled p => .uninstalled p
  | .upgradeProver p => .upgradeProver p
  | .removed p => .removed p

def UpdateInfo.kind : UpdateInfo F M E → UpdateInfo F Unit Unit
  | .proved b => .proved b
  | .nameChange s => .nameChange s
  | .proofStatusChange pas obsolete l => .proofStatusChange pas.kind obsolete l

def Notification.kind : Notification F M E → Notification F Unit Unit
  | .resetWholeTree => .resetWholeTree
  | .newNode id parent type name detached => .newNode id parent type name detached
  | .nodeChange id u => .nodeChange id u.kind
  | .remove id => .remove id
  | .nextUnprovenNodeId id id' => .nextUnprovenNodeId id id'
  | .initialized infos => .initialized infos
  | .savingNeeded b => .savingNeeded b
  | .saved => .saved
  | .message m => .message m
  | .dead s => .dead s
  | .task id s locs goalLoc lang => .task id s locs goalLoc lang
  | .fileContents f s format readOnly => .fileContents f s format readOnly
  | .sourceAndCe s locs goalLoc format => .sourceAndCe s locs goalLoc format
  | .identNotifLoc loc => .identNotifLoc loc

/-- The policies, statuses, messages, requests and notifications that have no case in the
parser. -/
def ProverUpgradePolicy.Lost : ProverUpgradePolicy → Prop
  | .cpuRemove => True
  | _ => False

def ProofAttemptStatus.Lost : ProofAttemptStatus F M E → Prop
  | .internalFailure _ => True
  | .removed _ => True
  | _ => False

def MessageNotification.Lost : MessageNotification → Prop
  | .fileSaved _ => True
  | _ => False

def UpdateInfo.Lost : UpdateInfo F M E → Prop
  | .proofStatusChange pas _ _ => pas.Lost
  | _ => False

def IdeRequest.Lost : IdeRequest F → Prop
  | .getFileContents _ => True
  | .saveFileReq _ _ => True
  | .setProverPolicy _ u => u.Lost
  | _ => False

def Notification.Lost : Notification F M E → Prop
  | .nodeChange _ u => u.Lost
  | .message m => m.Lost
  | _ => False

end Why3.ItpCommunication

namespace Why3.JsonUtil

open MachineInt ItpCommunication List
open JsonBase (Byte Json)

variable {F M E : Type}

/-! ## Requests -/

theorem parse_convert_configParam (P : Printers F M E) (constr : List Byte) (p : ConfigParam F)
    (v : Json F) :
    parseConfigParam P constr (.record (field "ide_request" v :: convertConfigParam p)) =
      .ok p := by
  cases p <;>
    simp (disch := simp) only [parseConfigParam,
      convertConfigParam, lit, getStringField, getIntField, getFloatField, getField_self,
      getField_skip, ok_bind, getString, getInt, getFloat, map_ok, stringCase_self,
      stringCase_skip]

theorem parse_convert_policyProver (p : Prover) (v : Json F) (r : List (List Byte × Json F)) :
    parseProverFromJson "" (.record (field "ide_request" v :: (convertProverAux "" p ++ r))) =
      .ok p := by
  simp only [parseProverFromJson, convertProverAux, String.reduceAppend, cons_append,
    nil_append]
  simp (disch := simp) only [getStringField, getField_self, getField_skip, ok_bind, getString]
  rfl

theorem parse_convert_targetProver (p p' : Prover) (v w : Json F) :
    parseProverFromJson "target_" (.record (field "ide_request" v ::
      (convertProverAux "" p ++ field "policy" w :: convertProverAux "target_" p'))) =
      .ok p' := by
  simp only [parseProverFromJson, convertProverAux, String.reduceAppend, cons_append,
    nil_append]
  simp (disch := simp) only [getStringField, getField_self, getField_skip, ok_bind, getString]
  rfl

theorem getField_policy (p : Prover) (v w : Json F) (r : List (List Byte × Json F)) :
    getField (.record (field "ide_request" v :: (convertProverAux "" p ++ field "policy" w :: r)))
      "policy" = .ok w := by
  simp only [convertProverAux, String.reduceAppend, cons_append, nil_append]
  simp (disch := simp) only [getField_skip, getField_self]

theorem parse_convert_policy (p : Prover) (v : Json F) {u : ProverUpgradePolicy} (h : ¬ u.Lost) :
    parsePolicy (.record (field "ide_request" v :: (convertProverAux "" p ++ convertPolicy u))) =
      .ok u := by
  cases u with
  | cpuRemove => exact absurd trivial h
  | _ =>
    simp (disch := simp) only [parsePolicy, convertPolicy, lit, getStringField, getField_policy,
      ok_bind, getString, stringCase_self, stringCase_skip, parse_convert_targetProver, map_ok]

theorem parse_convert_policy_lost (p : Prover) (v : Json F) {u : ProverUpgradePolicy}
    (h : u.Lost) :
    parsePolicy (.record (field "ide_request" v :: (convertProverAux "" p ++ convertPolicy u))) =
      .error (.notRequest []) := by
  cases u with
  | cpuRemove =>
    simp (disch := simp) only [parsePolicy, convertPolicy, lit, getStringField, getField_policy,
      ok_bind, getString, stringCase_skip, stringCase_nil]
  | _ => exact absurd h not_false

theorem parse_convert_request (P : Printers F M E) {r : IdeRequest F} (h : ¬ r.Lost) :
    parseRequestJson P (convertRequest r) = .ok r := by
  cases r with
  | getFileContents f => exact absurd trivial h
  | saveFileReq f s => exact absurd trivial h
  | setProverPolicy p u =>
    have hu : ¬ u.Lost := h
    simp (disch := simp) only [parseRequestJson, convertRequest, lit, getStringField,
      getField_self, ok_bind, getString, parseRequest, stringCase_skip, stringCase_self,
      parse_convert_policyProver]
    rw [parse_convert_policy p _ hu]
    rfl
  | setConfigParam p =>
    simp (disch := simp) only [parseRequestJson, convertRequest, lit, getStringField,
      getField_self, ok_bind, getString, parseRequest, stringCase_skip, stringCase_self,
      parse_convert_configParam, map_ok]
    rfl
  | _ =>
    simp (disch := simp) only [parseRequestJson, convertRequest, lit, getStringField,
      getIntField, getField_self, getField_skip, ok_bind, getString, getInt, getBoolOpt,
      parseRequest, stringCase_skip, stringCase_self, map_ok, parse_convert_strat,
      parse_convert_loc]
    rfl

/-- The others are refused, whatever they carry. -/
theorem parse_convert_request_lost (P : Printers F M E) {r : IdeRequest F} (h : r.Lost) :
    parseRequestJson P (convertRequest r) =
      .error (.notRequest (P.jsonText (convertRequest r))) := by
  cases r with
  | setProverPolicy p u =>
    have hu : u.Lost := h
    simp (disch := simp) only [parseRequestJson, convertRequest, lit, getStringField,
      getField_self, ok_bind, getString, parseRequest, stringCase_skip, stringCase_self,
      parse_convert_policyProver]
    rw [parse_convert_policy_lost p _ hu]
    rfl
  | getFileContents | saveFileReq =>
    simp (disch := simp) only [parseRequestJson, convertRequest, lit,
      getStringField, getField_self, ok_bind, getString, parseRequest, stringCase_skip,
      stringCase_nil]
    rfl
  | _ => exact absurd h not_false

/-! ## Notifications -/

theorem parse_convert_message {m : MessageNotification} (h : ¬ m.Lost) :
    parseMessage (convertMessage m : Json F) = .ok m := by
  cases m with
  | fileSaved s => exact absurd trivial h
  | _ =>
    simp (disch := simp) only [parseMessage, convertMessage, lit, getStringField,
      getIntField, getBoolField, getListField, getField_self, getField_skip, ok_bind, getString,
      getInt, getBool, getList, stringCase_skip, stringCase_self, map_ok, parse_convert_loc]
    try rfl

theorem parse_convert_message_lost {m : MessageNotification} (h : m.Lost) :
    parseMessage (convertMessage m : Json F) = .error .notMessage := by
  cases m with
  | fileSaved s =>
    simp (disch := simp) only [parseMessage, convertMessage, lit, getStringField,
      getField_self, ok_bind, getString, stringCase_skip, stringCase_nil]
  | _ => exact absurd h not_false

theorem parse_convert_proofAttempt (P : Printers F M E) (pas : ProofAttemptStatus F M E)
    (h : ¬ pas.Lost) :
    ∃ pas', parseProofAttempt P (convertProofAttempt P pas) = .ok pas' ∧ pas'.kind = pas.kind := by
  cases pas with
  | internalFailure | removed => exact absurd trivial h
  | done pr =>
    refine ⟨.done { pr with prModels := [] }, ?_, rfl⟩
    simp (disch := simp) only [parseProofAttempt, convertProofAttempt, lit,
      getStringField, getField_self, getField_skip, ok_bind, getString, stringCase_skip,
      stringCase_self, map_ok, parse_convert_proofResult]
  | _ =>
    refine ⟨_, ?_, rfl⟩
    simp (disch := simp) only [parseProofAttempt, convertProofAttempt, lit,
      getStringField, getField_self, getField_skip, ok_bind, getString, stringCase_skip,
      stringCase_self, map_ok, parse_convert_prover]

theorem parse_convert_proofAttempt_lost (P : Printers F M E) (pas : ProofAttemptStatus F M E)
    (h : pas.Lost) :
    parseProofAttempt P (convertProofAttempt P pas) = .error .notProofAttempt := by
  cases pas with
  | internalFailure | removed =>
    simp (disch := simp) only [parseProofAttempt, convertProofAttempt, lit,
      getStringField, getField_self, ok_bind, getString, stringCase_skip, stringCase_self,
      stringCase_nil]
  | _ => exact absurd h not_false

theorem parse_convert_update (P : Printers F M E) {u : UpdateInfo F M E} (h : ¬ u.Lost) :
    ∃ u', parseUpdate P (convertUpdate P u) = .ok u' ∧ u'.kind = u.kind := by
  cases u with
  | proofStatusChange pas b l =>
    obtain ⟨pas', hpas, hkind⟩ := parse_convert_proofAttempt P pas h
    refine ⟨.proofStatusChange pas' b l, ?_, ?_⟩
    · simp (disch := simp) only [parseUpdate, convertUpdate, lit, getStringField, getBoolField,
        getField_self, getField_skip, ok_bind, getString, getBool, stringCase_skip,
        stringCase_self, hpas, parse_convert_limit]
      rfl
    · rw [UpdateInfo.kind, UpdateInfo.kind, hkind]
  | proved | nameChange =>
    refine ⟨_, ?_, rfl⟩
    simp (disch := simp) only [parseUpdate, convertUpdate, lit, getStringField, getBoolField,
      getField_self, getField_skip, ok_bind, getString, getBool, stringCase_skip,
      stringCase_self, map_ok]

theorem parse_convert_update_lost (P : Printers F M E) {u : UpdateInfo F M E} (h : u.Lost) :
    parseUpdate P (convertUpdate P u) = .error .notProofAttempt := by
  cases u with
  | proofStatusChange pas b l =>
    have hpas := parse_convert_proofAttempt_lost P pas h
    simp (disch := simp) only [parseUpdate, convertUpdate, lit, getStringField, getBoolField,
      getField_self, getField_skip, ok_bind, getString, getBool, stringCase_skip,
      stringCase_self, hpas, parse_convert_limit]
    rfl
  | proved | nameChange => exact absurd h not_false

theorem parse_convert_notification (P : Printers F M E) {n : Notification F M E}
    (h : ¬ n.Lost) :
    ∃ n', parseNotificationJson P (convertNotification P n) = .ok n' ∧ n'.kind = n.kind := by
  cases n with
  | nodeChange id u =>
    obtain ⟨u', hu, hkind⟩ := parse_convert_update P (u := u) h
    refine ⟨.nodeChange id u', ?_, ?_⟩
    · simp (disch := simp) only [parseNotificationJson, convertNotification, lit,
        getStringField, getIntField, getField_self, getField_skip, ok_bind, getString, getInt,
        parseNotification, stringCase_skip, stringCase_self, hu]
      rfl
    · rw [Notification.kind, Notification.kind, hkind]
  | message m =>
    have hm := parse_convert_message (F := F) (m := m) h
    refine ⟨.message m, ?_, rfl⟩
    simp (disch := simp) only [parseNotificationJson, convertNotification, lit, getStringField,
      getField_self, getField_skip, ok_bind, getString, parseNotification, stringCase_skip,
      stringCase_self, hm, map_ok, onNotFound_ok]
  | _ =>
    refine ⟨_, ?_, rfl⟩
    simp (disch := simp) only [parseNotificationJson, convertNotification, lit, getStringField,
      getIntField, getBoolField, getField_self, getField_skip, ok_bind, getString, getInt,
      getBool, parseNotification, stringCase_skip, stringCase_self, map_ok, onNotFound_ok,
      parse_convert_nodeType, parse_convert_infos, parse_convert_listLoc,
      parse_convert_optionLoc, parse_convert_loc]
    try rfl

theorem parse_convert_notification_lost (P : Printers F M E) {n : Notification F M E}
    (h : n.Lost) : ∃ e, parseNotificationJson P (convertNotification P n) = .error e := by
  cases n with
  | nodeChange id u =>
    have hu := parse_convert_update_lost P (u := u) h
    refine ⟨.notProofAttempt, ?_⟩
    simp (disch := simp) only [parseNotificationJson, convertNotification, lit, getStringField,
      getIntField, getField_self, getField_skip, ok_bind, getString, getInt, parseNotification,
      stringCase_skip, stringCase_self, hu]
    rfl
  | message m =>
    have hm := parse_convert_message_lost (F := F) (m := m) h
    refine ⟨.notMessage, ?_⟩
    simp (disch := simp) only [parseNotificationJson, convertNotification, lit, getStringField,
      getField_self, getField_skip, ok_bind, getString, parseNotification, stringCase_skip,
      stringCase_self, hm]
    rfl
  | _ => exact absurd h not_false

/-! ## The protocol -/

/-- A request is rebuilt exactly when the parser has its case, and so is a notification, up to
its models and its exception. -/
theorem protocol_roundtrip (P : Printers F M E) :
    (∀ r : IdeRequest F, parseRequestJson P (convertRequest r) = .ok r ↔ ¬ r.Lost) ∧
    ∀ n : Notification F M E,
      (∃ n', parseNotificationJson P (convertNotification P n) = .ok n' ∧ n'.kind = n.kind) ↔
        ¬ n.Lost := by
  constructor
  · intro r
    refine ⟨fun hr h => ?_, parse_convert_request P⟩
    rw [parse_convert_request_lost P h] at hr
    cases hr
  · intro n
    refine ⟨fun ⟨n', hn, _⟩ h => ?_, parse_convert_notification P⟩
    obtain ⟨e, he⟩ := parse_convert_notification_lost P h
    rw [he] at hn
    cases hn

/-- Floats that are integers, and empty texts. -/
def intPrinters : Printers ℤ Unit Unit where
  floatOfInt n := n.val
  modelText _ := []
  exnText _ := []
  jsonText _ := []

/-- The request for the contents of a file, and the notification of a removed prover. -/
theorem protocol_loses :
    parseRequestJson intPrinters (convertRequest (.getFileContents (utf8 "a.mlw"))) ≠
        .ok (.getFileContents (utf8 "a.mlw")) ∧
      ¬ ∃ n', parseNotificationJson intPrinters (convertNotification intPrinters
          (.nodeChange (wrap 3) (.proofStatusChange
            (.removed ⟨utf8 "Alt-Ergo", utf8 "2.4.0", []⟩) false ⟨5, wrap 1000, wrap 0⟩))) =
            .ok n' ∧
          n'.kind = (Notification.nodeChange (wrap 3) (.proofStatusChange
            (.removed ⟨utf8 "Alt-Ergo", utf8 "2.4.0", []⟩) false ⟨5, wrap 1000, wrap 0⟩) :
              Notification ℤ Unit Unit).kind := by
  constructor
  · rw [parse_convert_request_lost intPrinters (r := .getFileContents (utf8 "a.mlw")) trivial]
    exact nofun
  · rintro ⟨n', hn, _⟩
    obtain ⟨e, he⟩ := parse_convert_notification_lost intPrinters
      (n := .nodeChange (wrap 3) (.proofStatusChange
        (.removed ⟨utf8 "Alt-Ergo", utf8 "2.4.0", []⟩) false ⟨5, wrap 1000, wrap 0⟩)) trivial
    rw [he] at hn
    cases hn

end Why3.JsonUtil
