import Why3.Session.JsonUtilCorrect
import Why3.Util.JsonRoundtrip

/-!
# Requests as text

A request reaches the server as text: `convert_request`, the printer and the parser of
JSON, then `parse_request_json`.  The text has the bindings of a record in the order of
their keys; the parsers of `session/json_util.ml` look for a key and do not see it.
-/

namespace Why3.JsonUtil

open List MachineInt ItpCommunication
open JsonBase (Byte Json Layout NoFloat printJson parse parse_printJson reread)

variable {F M E α : Type}

/-! ## Values that were read again -/

theorem assoc_eq_find (s : List Byte) (r : List (List Byte × α)) :
    assoc s r = (Lookup.find r s).elim (.error .notFound) .ok := by
  induction r with
  | nil => rfl
  | cons b r ih =>
    rw [assoc, Lookup.find, Lookup.lookup_cons]
    split_ifs
    · rfl
    · exact ih

theorem getField_reread (j : Json F) (s : String) :
    getField (reread j) s = reread <$> getField j s := by
  cases j with
  | record r =>
    cases r with
    | nil => rfl
    | cons b r =>
      rw [reread, if_neg (by simp), JsonBase.rereadBindings_eq, JsonBase.sortBindings_map,
        getField, getField, assoc_eq_find, assoc_eq_find, JsonBase.find_map,
        JsonBase.find_sortBindings]
      cases Lookup.find (b :: r) (utf8 s) with
      | none | some v => rfl
  | _ => rfl

/-- A reader that takes records for `Null`, and does not look into lists. -/
theorem plain_reread {f : Json F → α} (hrecord : ∀ r, f (.record r) = f .null)
    (hlist : ∀ l l', f (.list l) = f (.list l')) (j : Json F) : f (reread j) = f j := by
  cases j with
  | record r =>
    rw [reread]
    split_ifs
    · exact (hrecord r).symm
    · rw [hrecord, hrecord]
  | list l => exact hlist _ l
  | _ => rfl

theorem getString_reread (j : Json F) : getString (reread j) = getString j :=
  plain_reread (fun _ => rfl) (fun _ _ => rfl) j

theorem getInt_reread (j : Json F) : getInt (reread j) = getInt j :=
  plain_reread (fun _ => rfl) (fun _ _ => rfl) j

theorem getFloat_reread (P : Printers F M E) (j : Json F) : getFloat P (reread j) = getFloat P j :=
  plain_reread (fun _ => rfl) (fun _ _ => rfl) j

theorem getBoolOpt_reread (j : Json F) (d : Bool) : getBoolOpt (reread j) d = getBoolOpt j d :=
  plain_reread (f := fun j => getBoolOpt j d) (fun _ => rfl) (fun _ _ => rfl) j

theorem parseStrat_reread (j : Json F) : parseStrat (reread j) = parseStrat j :=
  plain_reread (fun _ => rfl) (fun _ _ => rfl) j

theorem parseLoc_reread (j : Json F) : parseLoc (reread j) = parseLoc j := by
  simp only [parseLoc, getStringField, getIntField, getField_reread, bind_map_left,
    getString_reread, getInt_reread]

theorem parseRequest_reread (P : Printers F M E) (constr : List Byte) (j : Json F) :
    parseRequest P constr (reread j) = parseRequest P constr j := by
  simp only [parseRequest, parseConfigParam, parsePolicy, parseProverFromJson, getStringField,
    getIntField, getFloatField, getField_reread, bind_map_left, getString_reread, getInt_reread,
    getFloat_reread, getBoolOpt_reread, parseStrat_reread, parseLoc_reread]

theorem parseRequestJson_reread (P : Printers F M E) (j : Json F) (r : IdeRequest F) :
    parseRequestJson P (reread j) = .ok r ↔ parseRequestJson P j = .ok r := by
  have hread : (getStringField (reread j) "ide_request" >>= fun constr =>
      parseRequest P constr (reread j)) =
        getStringField j "ide_request" >>= fun constr => parseRequest P constr j := by
    simp only [getStringField, getField_reread, bind_map_left, getString_reread,
      parseRequest_reread]
  rw [parseRequestJson, parseRequestJson, hread]
  cases (getStringField j "ide_request" >>= fun constr => parseRequest P constr j) with
  | error e => simp [Except.mapError]
  | ok r' => rfl

/-! ## Requests -/

theorem noFloat_convertRequest {r : IdeRequest F}
    (hr : ∀ f, r ≠ .setConfigParam (.timelimit f)) : NoFloat (convertRequest r) := by
  refine .record ?_
  cases r with
  | setConfigParam p =>
    cases p with
    | timelimit f => exact absurd rfl (hr f)
    | maxTasks m | memlimit m => simp [convertConfigParam, field, lit, NoFloat.string, NoFloat.int]
  | setProverPolicy p u =>
    cases u <;> simp [convertProverAux, convertPolicy, field, lit, NoFloat.string]
  | findIdentReq loc =>
    have hloc : NoFloat (F := F) (convertLoc loc) :=
      .record (by simp [field, NoFloat.string, NoFloat.int])
    simp [field, lit, NoFloat.string, hloc]
  | _ => simp [field, lit, convertStrat, NoFloat.string, NoFloat.int, NoFloat.bool]

/-- The text of a request, in any layout, is parsed to its end; the request is rebuilt from
what was parsed exactly when the parser of requests has its case. -/
theorem request_text (P : Printers F M E) (printFloat : F → List Byte)
    (floatOfString : List Byte → Option F) (r : IdeRequest F)
    (hr : ∀ f, r ≠ .setConfigParam (.timelimit f)) (t : List Byte)
    (ht : Layout (printJson printFloat (convertRequest r)) t) :
    ∃ j, parse floatOfString t = some (j, []) ∧ (parseRequestJson P j = .ok r ↔ ¬ r.Lost) := by
  refine ⟨reread (convertRequest r), parse_printJson printFloat (noFloat_convertRequest hr) ht, ?_⟩
  rw [parseRequestJson_reread]
  refine ⟨fun h hlost => ?_, parse_convert_request P⟩
  rw [parse_convert_request_lost P hlost] at h
  cases h

theorem request_text_flat : ∃ j, parse (fun _ => none) (JsonBase.flat (printJson (fun _ => [])
      (convertRequest (.removeSubtree (wrap 3) : IdeRequest ℤ)))) = some (j, []) ∧
    (parseRequestJson intPrinters j = .ok (.removeSubtree (wrap 3)) ↔
      ¬ (.removeSubtree (wrap 3) : IdeRequest ℤ).Lost) :=
  request_text intPrinters _ _ _ (by simp) _ (JsonBase.layout_flat _)

end Why3.JsonUtil
