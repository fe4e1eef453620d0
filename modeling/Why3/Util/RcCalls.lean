import Why3.Util.Rc

/-!
# Successive readings of configuration files

The section that the lexer of `util/rc.mll` is reading stands in global references,
which an exception leaves as they are; `from_channel` resets one of the three.  The
lexer reads the same headers and fields from a text in every state, so a reading is a
fold over them, and what the texts of some calls leave open is a matter of the headers
and fields that stand in them.
-/

namespace Why3.Rc

open JsonBase MachineInt List

variable {F : Type}

/-! ## The state after an exception -/

section Calls

variable (floatOfString : List Byte → Option F)

/-- The rule `record`, with the state of the references when it returns or raises. -/
def recordState : ℕ → List Byte → LexState F → Except (LexState F) (LexState F)
  | 0, _, st => .error st
  | _ + 1, [], st => .ok (pushRecord st)
  | fuel + 1, c :: t, st =>
    if isSpace c then recordState fuel (t.dropWhile isSpace) st
    else if c = byte '#' then recordState fuel ((t.dropWhile (· ≠ byte '\n')).drop 1) st
    else if c = byte '[' ∧ 0 < identLength t then
      let n := identLength t
      match header t.length [t.take n] ((t.drop n).dropWhile isSpace) with
      | none => .error st
      | some (keylist, rest) =>
        recordState fuel rest { pushRecord st with currentRec := keylist }
    else
      let n := identLength (c :: t)
      match ((c :: t).drop n).dropWhile isSpace with
      | [] => .error st
      | e :: rest =>
        if 0 < n ∧ e = byte '=' then
          match value floatOfString (rest.dropWhile isSpace) with
          | none => .error st
          | some (v, rest) => recordState fuel rest (pushField st ((c :: t).take n) v)
        else .error st

/-- `from_channel` in the state `st`: the table, or `none` for an exception, and the
state that the next call finds. -/
def fromChannelIn (st : LexState F) (s : List Byte) : Option (Table F) × LexState F :=
  match recordState floatOfString (s.length + 1) s { st with current := [] } with
  | .error st => (none, st)
  | .ok st => (makeT st.current, st)

/-- The state after the calls on the texts `ins`. -/
def calls (ins : List (List Byte)) : LexState F :=
  ins.foldl (fun st s => (fromChannelIn floatOfString st s).2) .init

end Calls

/-! ## What is read from a text -/

section Events

/-- A header or a field, read to its end. -/
inductive Event (F : Type)
  | header (keylist : List Str)
  | field (key : Str) (v : RcValue F)

def LexState.read (st : LexState F) : Event F → LexState F
  | .header keylist => { pushRecord st with currentRec := keylist }
  | .field key v => pushField st key v

variable (floatOfString : List Byte → Option F)

/-- The headers and fields of a text up to its end or to the first error, and whether
its end was reached. -/
def events : ℕ → List Byte → List (Event F) × Bool
  | 0, _ => ([], false)
  | _ + 1, [] => ([], true)
  | fuel + 1, c :: t =>
    if isSpace c then events fuel (t.dropWhile isSpace)
    else if c = byte '#' then events fuel ((t.dropWhile (· ≠ byte '\n')).drop 1)
    else if c = byte '[' ∧ 0 < identLength t then
      let n := identLength t
      match header t.length [t.take n] ((t.drop n).dropWhile isSpace) with
      | none => ([], false)
      | some (keylist, rest) =>
        ((.header keylist :: (events fuel rest).1), (events fuel rest).2)
    else
      let n := identLength (c :: t)
      match ((c :: t).drop n).dropWhile isSpace with
      | [] => ([], false)
      | e :: rest =>
        if 0 < n ∧ e = byte '=' then
          match value floatOfString (rest.dropWhile isSpace) with
          | none => ([], false)
          | some (v, rest) =>
            (.field ((c :: t).take n) v :: (events fuel rest).1, (events fuel rest).2)
        else ([], false)

/-- The result of a lexer that has read the events and stops. -/
def finish (e : List (Event F) × Bool) (st : LexState F) : Except (LexState F) (LexState F) :=
  if e.2 then .ok (pushRecord (e.1.foldl LexState.read st)) else .error (e.1.foldl LexState.read st)

theorem recordState_eq (fuel : ℕ) (s : List Byte) (st : LexState F) :
    recordState floatOfString fuel s st = finish (events floatOfString fuel s) st := by
  induction fuel generalizing s st with
  | zero => rfl
  | succ fuel ih =>
    cases s with
    | nil => rfl
    | cons c t =>
      rw [recordState, events]
      split
      · exact ih _ _
      · split
        · exact ih _ _
        · split
          · dsimp only
            split
            · rfl
            · exact ih _ _
          · dsimp only
            split
            · rfl
            · split
              · split
                · rfl
                · exact ih _ _
              · rfl

/-- `record` is `recordState` without the state of an exception. -/
theorem record_eq (fuel : ℕ) (s : List Byte) (st : LexState F) :
    record floatOfString fuel s st = (recordState floatOfString fuel s st).toOption := by
  induction fuel generalizing s st with
  | zero => rfl
  | succ fuel ih =>
    cases s with
    | nil => rfl
    | cons c t =>
      rw [record, recordState]
      split
      · exact ih _ _
      · split
        · exact ih _ _
        · split
          · dsimp only
            cases header t.length [take (identLength t) t]
                (dropWhile isSpace (drop (identLength t) t)) with
            | none => rfl
            | some x => exact ih _ _
          · dsimp only
            cases dropWhile isSpace (drop (identLength (c :: t)) (c :: t)) with
            | nil => rfl
            | cons e rest =>
              dsimp only
              split
              · cases value floatOfString (dropWhile isSpace rest) with
                | none => rfl
                | some x => exact ih _ _
              · rfl

theorem fromChannel_eq (s : List Byte) :
    fromChannel floatOfString s = (fromChannelIn floatOfString .init s).1 := by
  rw [fromChannel, record_eq, fromChannelIn]
  have hinit : ({ LexState.init with current := [] } : LexState F) = .init := rfl
  rw [hinit]
  cases recordState floatOfString (s.length + 1) s .init <;> rfl

end Events

/-! ## What texts leave open -/

section Open

variable (floatOfString : List Byte → Option F)

/-- What stands in a text up to its end or to the first error, and whether the end was
reached. -/
def reads (s : List Byte) : List (Event F) × Bool := events floatOfString (s.length + 1) s

def Event.ofField (f : Str × RcValue F) : Event F := .field f.1 f.2

/-- The last of the texts that has a header breaks off in the section of this header, and
the texts after it (the last one stands first) break off before any header.  The fields
of all of them are those of the section. -/
inductive LeavesOpen : List (List Byte) → List Str → List (Str × RcValue F) → Prop
  | header {s : List Byte} {ss : List (List Byte)} {es : List (Event F)} {keylist : List Str}
      {fields : List (Str × RcValue F)} :
      reads floatOfString s = (es ++ .header keylist :: fields.map Event.ofField, false) →
      LeavesOpen (s :: ss) keylist fields
  | fields {s : List Byte} {ss : List (List Byte)} {keylist : List Str}
      {l fields : List (Str × RcValue F)} :
      LeavesOpen ss keylist l → reads floatOfString s = (fields.map Event.ofField, false) →
      LeavesOpen (s :: ss) keylist (l ++ fields)

/-- The headers that `make_t` accepts. -/
def Nameable (keylist : List Str) : Prop := keylist.length = 1 ∨ keylist.length = 2

/-- Every header with a field has a length that `make_t` accepts. -/
def Accepted (es : List (Event F)) : Prop :=
  ∀ keylist key v, [.header keylist, .field key v] <:+: es → Nameable keylist

/-- The text is read to its end, with headers that are accepted, and goes on with a section
that the texts before it leave open: fields of this section were read, or the text
begins with one. -/
def Mixes (before : List (List Byte)) (s : List Byte) : Prop :=
  ∃ es keylist l, LeavesOpen floatOfString before keylist l ∧ Nameable keylist ∧
    reads floatOfString s = (es, true) ∧ Accepted es ∧
    (l ≠ [] ∨ ∃ key v es', es = .field key v :: es')

end Open

/-! ## The state after some calls -/

section State

variable {st : LexState F}

theorem foldl_fields (fields : List (Str × RcValue F)) (st : LexState F) :
    (fields.map Event.ofField).foldl LexState.read st =
      { st with currentList := fields.reverse ++ st.currentList } := by
  induction fields generalizing st with
  | nil => rfl
  | cons f fields ih =>
    rw [map_cons, foldl_cons, ih, reverse_cons, append_assoc]
    rfl

/-- The fields after the last header, or all of them. -/
theorem last_header (es : List (Event F)) : ∃ fields : List (Str × RcValue F),
    es = fields.map Event.ofField ∨
    ∃ es' keylist, es = es' ++ .header keylist :: fields.map Event.ofField := by
  induction es using reverseRecOn with
  | nil => exact ⟨[], .inl rfl⟩
  | append_singleton es e ih =>
    cases e with
    | header keylist => exact ⟨[], .inr ⟨es, keylist, rfl⟩⟩
    | field key v =>
      obtain ⟨fields, rfl | ⟨es', keylist, rfl⟩⟩ := ih
      · exact ⟨fields ++ [(key, v)], .inl (by rw [map_append]; rfl)⟩
      · exact ⟨fields ++ [(key, v)], .inr ⟨es', keylist, by rw [map_append, append_assoc]; rfl⟩⟩

/-- The fields before the first header. -/
theorem first_header (es : List (Event F)) : ∃ (fields : List (Str × RcValue F)) (rest : List (Event F)),
    es = fields.map Event.ofField ++ rest ∧
    (rest = [] ∨ ∃ keylist es', rest = .header keylist :: es') := by
  induction es with
  | nil => exact ⟨[], [], rfl, .inl rfl⟩
  | cons e es ih =>
    cases e with
    | header keylist => exact ⟨[], _, rfl, .inr ⟨keylist, es, rfl⟩⟩
    | field key v =>
      obtain ⟨fields, rest, rfl, hrest⟩ := ih
      exact ⟨(key, v) :: fields, rest, rfl, hrest⟩

theorem foldl_header (es : List (Event F)) (keylist : List Str)
    (fields : List (Str × RcValue F)) (st : LexState F) :
    let st' := (es ++ .header keylist :: fields.map Event.ofField).foldl LexState.read st
    st'.currentRec = keylist ∧ st'.currentList = fields.reverse := by
  intro st'
  have hlist : ∀ st : LexState F, (pushRecord st).currentList = [] := by
    intro st
    unfold pushRecord
    split <;> rfl
  have hst' : st' = { es.foldl LexState.read st |>.read (.header keylist) with
      currentList := fields.reverse ++ (pushRecord (es.foldl LexState.read st)).currentList } := by
    show (es ++ .header keylist :: fields.map Event.ofField).foldl LexState.read st = _
    rw [foldl_append, foldl_cons, foldl_fields]
    rfl
  rw [hst', hlist, append_nil]
  exact ⟨rfl, rfl⟩

variable {floatOfString : List Byte → Option F}

theorem fromChannelIn_state (st : LexState F) (s : List Byte) :
    (fromChannelIn floatOfString st s).2 =
      let st' := (reads floatOfString s).1.foldl LexState.read { st with current := [] }
      if (reads floatOfString s).2 then pushRecord st' else st' := by
  rw [fromChannelIn, recordState_eq, finish, reads]
  split_ifs <;> rfl

theorem calls_append (ins : List (List Byte)) (s : List Byte) :
    calls floatOfString (ins ++ [s]) =
      (fromChannelIn floatOfString (calls floatOfString ins) s).2 := by
  rw [calls, foldl_append]
  rfl

theorem calls_of_leavesOpen {keylist : List Str} {l : List (Str × RcValue F)}
    {ins : List (List Byte)} (h : LeavesOpen floatOfString ins.reverse keylist l) :
    (calls floatOfString ins).currentRec = keylist ∧
      (calls floatOfString ins).currentList = l.reverse := by
  induction ins using reverseRecOn generalizing l with
  | nil => cases h
  | append_singleton ins s ih =>
    rw [reverse_append] at h
    rw [calls_append, fromChannelIn_state]
    cases h with
    | header hs =>
      rw [hs]
      exact foldl_header ..
    | @fields _ _ _ l fields hopen hs =>
      obtain ⟨hrec, hlist⟩ := ih hopen
      rw [hs]
      dsimp only
      rw [if_neg (by decide), foldl_fields, hlist, reverse_append]
      exact ⟨hrec, rfl⟩

theorem leavesOpen_calls (ins : List (List Byte))
    (h : (calls floatOfString ins).currentRec ≠ []) :
    LeavesOpen floatOfString ins.reverse (calls floatOfString ins).currentRec
      (calls floatOfString ins).currentList.reverse := by
  induction ins using reverseRecOn with
  | nil => exact absurd rfl h
  | append_singleton ins s ih =>
    rw [reverse_append]
    rw [calls_append, fromChannelIn_state] at h ⊢
    rcases hreads : reads floatOfString s with ⟨es, ended⟩
    rw [hreads] at h
    dsimp only at h ⊢
    cases ended with
    | true =>
      refine absurd ?_ h
      rw [if_pos rfl, pushRecord]
      split <;> rfl
    | false =>
      rw [if_neg (by decide)] at h ⊢
      obtain ⟨fields, rfl | ⟨es', keylist, rfl⟩⟩ := last_header es
      · rw [foldl_fields] at h ⊢
        dsimp only at h ⊢
        rw [reverse_append, reverse_reverse]
        exact .fields (ih h) hreads
      · obtain ⟨hrec, hlist⟩ := foldl_header es' keylist fields
          { calls floatOfString ins with current := [] }
        rw [hrec, hlist, reverse_reverse]
        exact .header hreads

end State

/-! ## The tables -/

section Tables

/-- More sections were recorded before. -/
def LexState.onto (tl : List (Record F)) (st : LexState F) : LexState F :=
  { st with current := st.current ++ tl }

theorem pushRecord_onto (tl : List (Record F)) (st : LexState F) :
    pushRecord (st.onto tl) = (pushRecord st).onto tl := by
  obtain ⟨keylist, l, current⟩ := st
  cases l <;> rfl

theorem foldl_onto (tl : List (Record F)) (es : List (Event F)) (st : LexState F) :
    es.foldl LexState.read (st.onto tl) = (es.foldl LexState.read st).onto tl := by
  induction es generalizing st with
  | nil => rfl
  | cons e es ih =>
    rw [foldl_cons, foldl_cons, ← ih]
    congr 1
    cases e with
    | field key v => rfl
    | header keylist =>
      rw [LexState.read, LexState.read, pushRecord_onto]
      rfl

theorem accepted_field {key : Str} {v : RcValue F} {es : List (Event F)} :
    Accepted (.field key v :: es) ↔ Accepted es := by
  simp only [Accepted, infix_cons_iff, cons_prefix_cons, reduceCtorEq, false_and, false_or]

theorem accepted_fields (fields : List (Str × RcValue F)) {es : List (Event F)} :
    Accepted (fields.map Event.ofField ++ es) ↔ Accepted es := by
  induction fields with
  | nil => rfl
  | cons f fields ih => exact accepted_field.trans ih

theorem accepted_header {keylist : List Str} {es : List (Event F)} :
    Accepted (.header keylist :: es) ↔
      ((∃ key v es', es = .field key v :: es') → Nameable keylist) ∧ Accepted es := by
  constructor
  · intro h
    refine ⟨?_, fun keylist' key v hin => h keylist' key v (hin.trans (suffix_cons _ _).isInfix)⟩
    rintro ⟨key, v, es', rfl⟩
    exact h keylist key v (prefix_append [.header keylist, .field key v] es').isInfix
  · rintro ⟨hhead, htail⟩ keylist' key v hin
    rcases infix_cons_iff.1 hin with hpre | hin
    · obtain ⟨heq, es', rfl⟩ := cons_prefix_cons.1 hpre
      cases heq
      exact hhead ⟨key, v, es', rfl⟩
    · exact htail keylist' key v hin

/-- Which sections are recorded. -/
theorem nameable_foldl (es : List (Event F)) (st : LexState F) :
    (∀ r ∈ (pushRecord (es.foldl LexState.read st)).current, Nameable r.1) ↔
      (∀ r ∈ st.current, Nameable r.1) ∧
      ((st.currentList ≠ [] ∨ ∃ key v es', es = .field key v :: es') → Nameable st.currentRec) ∧
      Accepted es := by
  induction es generalizing st with
  | nil =>
    have hnil : Accepted ([] : List (Event F)) := fun _ _ _ h => by simp at h
    obtain ⟨keylist, l, current⟩ := st
    cases l <;> simp [pushRecord, hnil, and_comm]
  | cons e es ih =>
    rw [foldl_cons, ih]
    cases e with
    | field key v =>
      rw [accepted_field]
      simp [LexState.read, pushField]
    | header keylist =>
      rw [accepted_header]
      obtain ⟨keylist', l, current⟩ := st
      cases l <;> simp [LexState.read, pushRecord]
      tauto

theorem addSection_isSome (t : Table F) (r : Record F) :
    (addSection t r).isSome ↔ Nameable r.1 := by
  obtain ⟨keylist, fields⟩ := r
  match keylist with
  | [] | [_] | [_, _] | _ :: _ :: _ :: _ => simp [addSection, Nameable]

theorem makeT_isSome (tl : List (Record F)) :
    (makeT tl).isSome ↔ ∀ r ∈ tl, Nameable r.1 := by
  suffices hfold : ∀ t, (tl.foldlM addSection t).isSome ↔ ∀ r ∈ tl, Nameable r.1 from hfold []
  induction tl with
  | nil => simp
  | cons r tl ih =>
    intro t
    rw [foldlM_cons, forall_mem_cons, ← addSection_isSome t r]
    cases addSection t r with
    | none => simp
    | some t' => simpa using ih t'

theorem makeT_append (tl : List (Record F)) (r : Record F) :
    makeT (tl ++ [r]) = (makeT tl).bind fun t => addSection t r := by
  rw [makeT, makeT, foldlM_append]
  simp

theorem findDef_add {α : Type} (d : α) (k : Str) (v : α) (m : Mstr α) :
    findDef d k (add k v m) = v := by
  induction m with
  | nil => simp [findDef, add]
  | cons b m ih =>
    unfold findDef at ih
    rw [add]
    split_ifs with heq hlt
    · simp [findDef]
    · simp [findDef]
    · rw [findDef, find?_cons_of_neg (by simpa using fun h => heq h.symm), ih]

/-- A family has one more section afterwards. -/
theorem addSection_ne {t t' : Table F} {r : Record F} (h : addSection t r = some t') : t' ≠ t := by
  have hlen : ∀ sname (x : Option Str × Sect F),
      add sname (x :: findDef [] sname t) t ≠ t := by
    intro sname x heq
    have hdef := findDef_add [] sname (x :: findDef [] sname t) t
    rw [heq] at hdef
    simpa using congrArg length hdef
  obtain ⟨keylist, fields⟩ := r
  match keylist with
  | [] | _ :: _ :: _ :: _ => cases h
  | [sname] | [sname, arg] =>
    cases h
    exact hlen _ _

end Tables

/-! ## Calls -/

section OwnInput

variable {floatOfString : List Byte → Option F}

theorem fromChannelIn_broken {es : List (Event F)} {s : List Byte}
    (hs : reads floatOfString s = (es, false)) (st : LexState F) :
    (fromChannelIn floatOfString st s).1 = none := by
  rw [reads] at hs
  rw [fromChannelIn, recordState_eq, hs]
  rfl

/-- The table of a text, when a section is open. -/
theorem fromChannelIn_table {es : List (Event F)} {s : List Byte}
    {fields : List (Str × RcValue F)} (hs : reads floatOfString s = (fields.map Event.ofField ++ es, true))
    (hes : es = [] ∨ ∃ keylist es', es = .header keylist :: es') (st : LexState F) :
    (fromChannelIn floatOfString st s).1 =
      makeT ((pushRecord (es.foldl LexState.read .init)).current ++
        if fields.reverse ++ st.currentList = [] then []
        else [(st.currentRec, (fields.reverse ++ st.currentList).reverse)]) := by
  have hpush : ∀ tl st' : LexState F, pushRecord st' = LexState.onto tl.current .init →
      pushRecord (es.foldl LexState.read st') =
        (pushRecord (es.foldl LexState.read .init)).onto tl.current := by
    intro tl st' hst'
    rcases hes with rfl | ⟨keylist, es', rfl⟩
    · exact hst'
    · rw [foldl_cons, foldl_cons, ← pushRecord_onto, ← foldl_onto, LexState.read, hst']
      rfl
  rw [reads] at hs
  rw [fromChannelIn, recordState_eq, hs, finish, if_pos rfl]
  dsimp only
  rw [foldl_append, foldl_fields]
  generalize fields.reverse ++ st.currentList = l
  cases l with
  | nil =>
    rw [hpush .init _ rfl]
    rfl
  | cons f l =>
    rw [hpush ⟨[], [], [(st.currentRec, (f :: l).reverse)]⟩ _ rfl]
    rfl

theorem call_ownInput_iff (ins : List (List Byte)) (s : List Byte) :
    (∀ r, (fromChannelIn floatOfString (calls floatOfString ins) s).1 = some r →
      fromChannel floatOfString s = some r) ↔ ¬ Mixes floatOfString ins.reverse s := by
  rcases hreads : reads floatOfString s with ⟨es, ended⟩
  cases ended with
  | false =>
    refine iff_of_true (fun r hr => ?_) ?_
    · rw [fromChannelIn_broken hreads] at hr
      cases hr
    · rintro ⟨es', keylist, l, -, -, hs, -⟩
      rw [hreads] at hs
      cases hs
  | true =>
    obtain ⟨fields, rest, rfl, hrest⟩ := first_header es
    have htable := fromChannelIn_table hreads hrest
    have hsome : (makeT (pushRecord (rest.foldl LexState.read .init)).current).isSome ↔
        Accepted rest := by
      rw [makeT_isSome, nameable_foldl]
      rcases hrest with rfl | ⟨keylist, es', rfl⟩ <;> simp [LexState.init]
    have hown : fromChannel floatOfString s = makeT ((pushRecord
        (rest.foldl LexState.read .init)).current ++ if fields.reverse = [] then []
          else [([], fields)]) := by
      rw [fromChannel_eq, htable]
      simp [LexState.init]
    rw [hown, htable]
    generalize (pushRecord (rest.foldl LexState.read .init)).current = tl at hsome
    by_cases hl : fields.reverse ++ (calls floatOfString ins).currentList = []
    · -- no field of the open section
      obtain ⟨hfields, hlist⟩ := append_eq_nil_iff.1 hl
      refine iff_of_true (fun r hr => ?_) ?_
      · rw [if_pos hl] at hr
        rw [if_pos hfields]
        exact hr
      · obtain rfl := reverse_eq_nil_iff.1 hfields
        rintro ⟨es', keylist, l, hopen, -, hs, -, hl' | ⟨key, v, es'', rfl⟩⟩
        · rw [(calls_of_leavesOpen hopen).2, reverse_eq_nil_iff] at hlist
          exact hl' hlist
        · rw [hreads] at hs
          rcases hrest with rfl | ⟨keylist, es', rfl⟩ <;> cases hs
    · rw [if_neg hl, makeT_append]
      by_cases hgood : Nameable (calls floatOfString ins).currentRec ∧ Accepted rest
      · -- the open section is in the table, or its fields belong to no section
        obtain ⟨hname, hacc⟩ := hgood
        have hrec : (calls floatOfString ins).currentRec ≠ [] := by
          intro hnil
          rw [hnil] at hname
          rcases hname with h | h <;> cases h
        obtain ⟨t, ht⟩ := Option.isSome_iff_exists.1 (hsome.2 hacc)
        obtain ⟨r, hr⟩ := Option.isSome_iff_exists.1 ((addSection_isSome t
          ((calls floatOfString ins).currentRec,
            (fields.reverse ++ (calls floatOfString ins).currentList).reverse)).2 hname)
        refine iff_of_false (fun h => ?_) (not_not_intro ⟨_, _, _, leavesOpen_calls ins hrec, hname,
          hreads, (accepted_fields fields).2 hacc, ?_⟩)
        · have hsame := h r (by rw [ht]; exact hr)
          split_ifs at hsame with hnil
          · rw [append_nil, ht] at hsame
            cases hsame
            exact addSection_ne hr rfl
          · rw [makeT_append, ht] at hsame
            cases hsame
        · cases fields with
          | nil => exact .inl fun h => hl (reverse_eq_nil_iff.1 h)
          | cons f fields => exact .inr ⟨f.1, f.2, _, rfl⟩
      · refine iff_of_true (fun r hr => ?_) ?_
        · obtain ⟨t, ht, hr⟩ := Option.bind_eq_some_iff.1 hr
          have hname := (addSection_isSome t _).1 (Option.isSome_of_eq_some hr)
          exact absurd ⟨hname, hsome.1 (Option.isSome_of_eq_some ht)⟩ hgood
        · rintro ⟨es', keylist, l, hopen, hname, hs, hacc, -⟩
          rw [hreads] at hs
          cases hs
          rw [(calls_of_leavesOpen hopen).1] at hgood
          exact hgood ⟨hname, (accepted_fields fields).1 hacc⟩

/-- In a sequence of calls, every call that succeeds returns what its own text gives in a
program that made no call before, exactly when no text goes on with a section that the
texts before it leave open. -/
theorem calls_ownInput_iff (floatOfString : List Byte → Option F) (ins : List (List Byte)) :
    (∀ before s after, ins = before ++ s :: after →
      ∀ r, (fromChannelIn floatOfString (calls floatOfString before) s).1 = some r →
        fromChannel floatOfString s = some r) ↔
    ∀ before s after, ins = before ++ s :: after → ¬ Mixes floatOfString before.reverse s :=
  forall_congr' fun before => forall_congr' fun s => forall_congr' fun _ =>
    imp_congr_right fun _ => call_ownInput_iff before s

/-- A text that ends in the middle of a field. -/
def brokenText : List Byte := bytes "[a]b=c
d"

/-- The section of the broken text appears in the table of the empty text. -/
theorem not_calls_ownInput :
    (fromChannelIn (fun _ => (none : Option Unit)) .init brokenText).1 = none ∧
      (fromChannelIn (fun _ => (none : Option Unit))
        (calls (fun _ => (none : Option Unit)) [brokenText]) []).1 =
          some [(bytes "a", [(none, [(bytes "b", [.ident (bytes "c")])])])] ∧
      fromChannel (fun _ => (none : Option Unit)) [] = some [] ∧
      ¬ ∀ before s after, [brokenText, []] = before ++ s :: after →
        ∀ r, (fromChannelIn (fun _ => (none : Option Unit))
            (calls (fun _ => (none : Option Unit)) before) s).1 = some r →
          fromChannel (fun _ => (none : Option Unit)) s = some r := by
  refine ⟨rfl, rfl, rfl, fun h => ?_⟩
  have hnone := h [brokenText] [] [] rfl _ rfl
  cases hnone

end OwnInput

end Why3.Rc
