import Mathlib.Data.List.Induction

/-!
# Command lines

`cmdline_split` of `util/cmdline.ml` reads a string with a machine of seven states, and a
blank behind it.  It follows the quoting rules unless the string ends in the middle of an
escape, which this blank completes.
-/

namespace Why3.Cmdline

open List

inductive CmdExn
  | badEscape (s : List Char) (c : Char)
  | unfinishedEscape (s : List Char)
  | unclosedQuote (s : List Char)
  | unclosedDQuote (s : List Char)
  | emptyCommandLine
  | assertFailure

def isBlank : Char → Bool
  | ' ' | '\t' | '\n' | '\r' => true
  | _ => false

/-- The table of `escape`. -/
def escaped : Char → Option Char
  | 't' => some '\t'
  | 'n' => some '\n'
  | 'r' => some '\r'
  | '\'' => some '\''
  | '"' => some '"'
  | '\\' => some '\\'
  | ' ' => some ' '
  | _ => none

def escape (s : List Char) (c : Char) : Except CmdExn Char :=
  match escaped c with
  | some d => .ok d
  | none => .error (.badEscape s c)

inductive FsmState
  | normal | blank | quote | dquote | escape | qescape | dqescape

/-- The references of `cmdline_split`: the words, the last one first, and the word being
read. -/
structure Fsm where
  argv : List (List Char)
  curArg : List Char
  cstate : FsmState

def Fsm.add (m : Fsm) (c : Char) : Fsm := { m with curArg := m.curArg ++ [c] }

/-- The first cases of `normal` and `blank`. -/
def opening (m : Fsm) (c : Char) (other : Fsm) : Fsm :=
  if c = '\'' then { m with cstate := .quote }
  else if c = '"' then { m with cstate := .dquote }
  else if c = '\\' then { m with cstate := .escape }
  else other

def normal (m : Fsm) (c : Char) : Fsm :=
  opening m c (if isBlank c then ⟨m.curArg :: m.argv, [], .blank⟩ else m.add c)

def blank (m : Fsm) (c : Char) : Fsm :=
  opening m c (if isBlank c then m else { m.add c with cstate := .normal })

def quoted (q : Char) (st : FsmState) (m : Fsm) (c : Char) : Fsm :=
  if c = q then { m with cstate := .normal }
  else if c = '\\' then { m with cstate := st }
  else m.add c

def quote : Fsm → Char → Fsm := quoted '\'' .qescape

def dquote : Fsm → Char → Fsm := quoted '"' .dqescape

def fsm (s : List Char) (m : Fsm) (c : Char) : Except CmdExn Fsm :=
  match m.cstate with
  | .normal => .ok (normal m c)
  | .blank => .ok (blank m c)
  | .quote => .ok (quote m c)
  | .dquote => .ok (dquote m c)
  | .escape => (escape s c).map fun d => { m.add d with cstate := .normal }
  | .qescape => (escape s c).map fun d => { m.add d with cstate := .quote }
  | .dqescape => (escape s c).map fun d => { m.add d with cstate := .dquote }

/-- The end of `cmdline_split`. -/
def finish (s : List Char) (m : Fsm) : Except CmdExn (List (List Char)) :=
  match m.cstate with
  | .normal => .error .assertFailure
  | .blank => if m.argv = [] then .error .emptyCommandLine else .ok m.argv.reverse
  | .quote => .error (.unclosedQuote s)
  | .dquote => .error (.unclosedDQuote s)
  | .escape | .qescape | .dqescape => .error (.unfinishedEscape s)

def cmdlineSplit (s : List Char) : Except CmdExn (List (List Char)) := do
  let m ← s.foldlM (fsm s) ⟨[], [], .blank⟩
  finish s (← fsm s m ' ')

/-! ## The quoting rules -/

def IsQuote (q : Char) : Prop := q = '\'' ∨ q = '"'

/-- A character that stands for itself, outside of quotes or inside of quotes `q`. -/
def Plain (q : Option Char) (c : Char) : Prop :=
  c ≠ '\\' ∧ match q with
    | none => ¬ IsQuote c ∧ isBlank c = false
    | some q => c ≠ q

/-- The quotes that are open at the end of a text, its words, and the word that is not ended
yet: adjacent pieces join, and an empty pair of quotes makes a word too. -/
inductive Reads : Option Char → List Char → List (List Char) → Option (List Char) → Prop
  | nil : Reads none [] [] none
  | blank {t ws cur c} : Reads none t ws cur → isBlank c = true →
      Reads none (t ++ [c]) (ws ++ cur.toList) none
  | char {q t ws cur c} : Reads q t ws cur → Plain q c →
      Reads q (t ++ [c]) ws (some (cur.getD [] ++ [c]))
  | esc {q t ws cur c d} : Reads q t ws cur → escaped c = some d →
      Reads q (t ++ ['\\', c]) ws (some (cur.getD [] ++ [d]))
  | opened {t ws cur q} : Reads none t ws cur → IsQuote q →
      Reads (some q) (t ++ [q]) ws (some (cur.getD []))
  | closed {t ws w q} : Reads (some q) t ws (some w) → Reads none (t ++ [q]) ws (some w)

def EndsInEscape (s : List Char) : Prop :=
  ∃ pre q ws cur, s = pre ++ ['\\'] ∧ Reads q pre ws cur

def unclosed (q : Char) (s : List Char) : CmdExn :=
  if q = '\'' then .unclosedQuote s else .unclosedDQuote s

/-- What the rules say about a string. -/
inductive Rules (s : List Char) : Except CmdExn (List (List Char)) → Prop
  | words {ws cur} : Reads none s ws cur → ws ++ cur.toList ≠ [] →
      Rules s (.ok (ws ++ cur.toList))
  | emptyCommandLine : Reads none s [] none → Rules s (.error .emptyCommandLine)
  | badEscape {pre q ws cur c post} : Reads q pre ws cur → escaped c = none →
      s = pre ++ '\\' :: c :: post → Rules s (.error (.badEscape s c))
  | unfinishedEscape : EndsInEscape s → Rules s (.error (.unfinishedEscape s))
  | unclosed {q ws cur} : Reads (some q) s ws cur → Rules s (.error (unclosed q s))

section Reads

variable {q : Option Char} {s t : List Char} {ws : List (List Char)} {cur : Option (List Char)}

theorem Reads.quoted (h : Reads q t ws cur) :
    ∀ q', q = some q' → IsQuote q' ∧ ∃ w, cur = some w := by
  induction h with
  | nil => nofun
  | blank _ _ _ => nofun
  | char _ _ ih | esc _ _ ih => exact fun q' hq => ⟨(ih q' hq).1, _, rfl⟩
  | opened _ hq _ =>
    intro q' heq
    obtain rfl := Option.some.inj heq
    exact ⟨hq, _, rfl⟩
  | closed _ _ => nofun

/-- Every string is read to its end, ends in an escape, or has a bad escape. -/
theorem status (s : List Char) : (∃ q ws cur, Reads q s ws cur) ∨ EndsInEscape s ∨
    ∃ pre q ws cur c post, Reads q pre ws cur ∧ escaped c = none ∧
      s = pre ++ '\\' :: c :: post := by
  induction s using List.reverseRecOn with
  | nil => exact .inl ⟨_, _, _, .nil⟩
  | append_singleton s c ih =>
    rcases ih with ⟨q, ws, cur, h⟩ | ⟨pre, q, ws, cur, rfl, h⟩ |
      ⟨pre, q, ws, cur, c', post, h, hc', rfl⟩
    · by_cases hbs : c = '\\'
      · exact .inr (.inl ⟨s, q, ws, cur, by rw [hbs], h⟩)
      left
      cases q with
      | none =>
        by_cases hq : IsQuote c
        · exact ⟨_, _, _, h.opened hq⟩
        · cases hb : isBlank c with
          | true => exact ⟨_, _, _, h.blank hb⟩
          | false => exact ⟨_, _, _, h.char ⟨hbs, hq, hb⟩⟩
      | some q =>
        by_cases hc : c = q
        · obtain ⟨-, w, rfl⟩ := h.quoted q rfl
          exact ⟨_, _, _, hc ▸ h.closed⟩
        · exact ⟨_, _, _, h.char ⟨hbs, hc⟩⟩
    · rw [append_assoc]
      cases hd : escaped c with
      | some d => exact .inl ⟨_, _, _, h.esc hd⟩
      | none => exact .inr (.inr ⟨pre, q, ws, cur, c, [], h, hd, rfl⟩)
    · exact .inr (.inr ⟨pre, q, ws, cur, c', post ++ [c], h, hc', by simp⟩)

theorem Reads.append {ws' : List (List Char)} (h : Reads none s ws' none)
    (ht : Reads q t ws cur) : Reads q (s ++ t) (ws' ++ ws) cur := by
  induction ht with
  | nil => simpa using h
  | blank _ hb ih =>
    rw [← append_assoc, ← append_assoc]
    exact ih.blank hb
  | char _ hc ih =>
    rw [← append_assoc]
    exact ih.char hc
  | esc _ hd ih =>
    rw [← append_assoc]
    exact ih.esc hd
  | opened _ hq ih =>
    rw [← append_assoc]
    exact ih.opened hq
  | closed _ ih =>
    rw [← append_assoc]
    exact ih.closed

/-- The texts of some words, separated by a blank. -/
theorem reads_intercalate {c : Char} (hc : isBlank c = true) {ts ws : List (List Char)}
    (h : Forall₂ (fun t w => Reads none t [] (some w)) ts ws) :
    ∃ ws' cur, Reads none ([c].intercalate ts) ws' cur ∧ ws' ++ cur.toList = ws := by
  induction h with
  | nil => exact ⟨_, _, .nil, rfl⟩
  | @cons t w ts ws ht hrest ih =>
    cases hrest with
    | nil => exact ⟨[], some w, by simpa [intercalate] using ht, rfl⟩
    | cons _ _ =>
      obtain ⟨ws', cur, hreads, heq⟩ := ih
      refine ⟨w :: ws', cur, ?_, congrArg (w :: ·) heq⟩
      simpa [intercalate, intersperse] using (ht.blank hc).append hreads

theorem exists_quoted (w : List Char) : ∃ t, Reads none t [] (some w) := by
  obtain ⟨u, hu⟩ : ∃ u, Reads (some '"') u [] (some w) := by
    induction w using List.reverseRecOn with
    | nil => exact ⟨_, Reads.nil.opened (.inr rfl)⟩
    | append_singleton w c ih =>
      obtain ⟨u, hu⟩ := ih
      by_cases hq : c = '"'
      · exact ⟨_, hu.esc (c := c) (by rw [hq]; rfl)⟩
      · by_cases hb : c = '\\'
        · exact ⟨_, hu.esc (c := c) (by rw [hb]; rfl)⟩
        · exact ⟨_, hu.char ⟨hb, hq⟩⟩
  exact ⟨_, hu.closed⟩

end Reads

/-! ## The machine follows the rules -/

section Run

variable {q : Option Char} {s t : List Char} {ws : List (List Char)} {cur : Option (List Char)}

def stateOf : Option Char → Option (List Char) → FsmState
  | none, none => .blank
  | none, some _ => .normal
  | some q, _ => if q = '\'' then .quote else .dquote

/-- The machine behind a text. -/
def machine (q : Option Char) (ws : List (List Char)) (cur : Option (List Char)) : Fsm :=
  ⟨ws.reverse, cur.getD [], stateOf q cur⟩

theorem fsm_blank {c : Char} (hc : isBlank c = true) :
    fsm s (machine none ws cur) c = .ok (machine none (ws ++ cur.toList) none) := by
  have hne : c ≠ '\'' ∧ c ≠ '"' ∧ c ≠ '\\' := by
    refine ⟨?_, ?_, ?_⟩ <;>
    · rintro rfl
      exact absurd hc (by decide)
  cases cur <;> simp [fsm, machine, stateOf, blank, normal, opening, hc, hne]

theorem fsm_escape (h : Reads q t ws cur) :
    ∃ m, fsm s (machine q ws cur) '\\' = .ok m ∧
      (m.cstate = .escape ∨ m.cstate = .qescape ∨ m.cstate = .dqescape) ∧
      ∀ c, fsm s m c = (escape s c).map fun d => machine q ws (some (cur.getD [] ++ [d])) := by
  cases q with
  | none => cases cur <;> exact ⟨_, rfl, .inl rfl, fun _ => rfl⟩
  | some q =>
    obtain rfl | rfl := (h.quoted q rfl).1
    · exact ⟨_, rfl, .inr (.inl rfl), fun _ => rfl⟩
    · exact ⟨_, rfl, .inr (.inr rfl), fun _ => rfl⟩

theorem run_reads (h : Reads q t ws cur) :
    t.foldlM (fsm s) ⟨[], [], .blank⟩ = .ok (machine q ws cur) := by
  have hone : ∀ {m : Fsm} {c : Char}, [c].foldlM (fsm s) m = fsm s m c := fun {m c} => by
    rw [foldlM_cons]
    exact bind_pure _
  induction h with
  | nil => rfl
  | blank _ hb ih =>
    rw [foldlM_append, ih]
    exact hone.trans (fsm_blank hb)
  | @char q t ws cur c h hc ih =>
    rw [foldlM_append, ih]
    refine hone.trans ?_
    obtain ⟨hb, hc⟩ := hc
    cases q with
    | none =>
      obtain ⟨hq, hbl⟩ := hc
      rw [IsQuote, not_or] at hq
      cases cur <;> simp [fsm, machine, stateOf, blank, normal, opening, Fsm.add, hq, hb, hbl]
    | some q =>
      obtain rfl | rfl := (h.quoted q rfl).1
      · simp [fsm, machine, stateOf, quote, quoted, Fsm.add, hb, show c ≠ '\'' from hc]
      · simp [fsm, machine, stateOf, dquote, quoted, Fsm.add, hb, show c ≠ '"' from hc]
  | @esc q t ws cur c d h hd ih =>
    obtain ⟨m, hm, -, hnext⟩ := fsm_escape (s := s) h
    rw [foldlM_append, ih]
    show fsm s _ '\\' >>= _ = _
    rw [hm]
    refine hone.trans ?_
    rw [hnext, escape, hd]
    rfl
  | @opened t ws cur q _ hq ih =>
    rw [foldlM_append, ih]
    refine hone.trans ?_
    rcases hq with rfl | rfl <;> cases cur <;> rfl
  | @closed t ws w q h ih =>
    rw [foldlM_append, ih]
    refine hone.trans ?_
    obtain rfl | rfl := (h.quoted q rfl).1 <;> rfl

theorem cmdlineSplit_of_run {m m' : Fsm} (h : s.foldlM (fsm s) ⟨[], [], .blank⟩ = .ok m)
    (h' : fsm s m ' ' = .ok m') : cmdlineSplit s = finish s m' := by
  rw [cmdlineSplit, h]
  show (fsm s m ' ' >>= _) = _
  rw [h']
  rfl

theorem cmdlineSplit_words (h : Reads none s ws cur) : cmdlineSplit s =
    if ws ++ cur.toList = [] then .error .emptyCommandLine else .ok (ws ++ cur.toList) := by
  rw [cmdlineSplit_of_run (run_reads h) (fsm_blank (c := ' ') rfl)]
  simp [finish, machine, stateOf, and_comm]

theorem cmdlineSplit_unclosed {q : Char} (h : Reads (some q) s ws cur) :
    cmdlineSplit s = .error (unclosed q s) := by
  obtain rfl | rfl := (h.quoted q rfl).1
  · exact cmdlineSplit_of_run (run_reads h) rfl
  · exact cmdlineSplit_of_run (run_reads h) rfl

theorem cmdlineSplit_badEscape {pre post : List Char} {c : Char} (h : Reads q pre ws cur)
    (hc : escaped c = none) (hs : s = pre ++ '\\' :: c :: post) :
    cmdlineSplit s = .error (.badEscape s c) := by
  obtain ⟨m, hm, -, hnext⟩ := fsm_escape (s := s) h
  have hrun : s.foldlM (fsm s) ⟨[], [], .blank⟩ = .error (.badEscape s c) := by
    nth_rewrite 2 [hs]
    rw [foldlM_append, run_reads h]
    show fsm s _ '\\' >>= _ = _
    rw [hm]
    show fsm s m c >>= _ = _
    rw [hnext, escape, hc]
    rfl
  rw [cmdlineSplit, hrun]
  rfl

theorem run_endsInEscape (h : EndsInEscape s) :
    ∃ m, s.foldlM (fsm s) ⟨[], [], .blank⟩ = .ok m ∧
      (m.cstate = .escape ∨ m.cstate = .qescape ∨ m.cstate = .dqescape) := by
  obtain ⟨pre, q, ws, cur, hs, h⟩ := h
  obtain ⟨m, hm, hst, -⟩ := fsm_escape (s := s) h
  refine ⟨m, ?_, hst⟩
  nth_rewrite 2 [hs]
  rw [foldlM_append, run_reads h]
  show fsm s _ '\\' >>= _ = _
  rw [hm]
  rfl

theorem not_rules_of_endsInEscape (h : EndsInEscape s) : ¬ Rules s (cmdlineSplit s) := by
  obtain ⟨⟨argv, w, _⟩, hrun, hst⟩ := run_endsInEscape h
  have hbad : ∃ e, cmdlineSplit s = .error e ∧
      (e = .assertFailure ∨ e = .unclosedQuote s ∨ e = .unclosedDQuote s) := by
    rcases hst with rfl | rfl | rfl
    · exact ⟨_, cmdlineSplit_of_run hrun rfl, .inl rfl⟩
    · exact ⟨_, cmdlineSplit_of_run hrun rfl, .inr (.inl rfl)⟩
    · exact ⟨_, cmdlineSplit_of_run hrun rfl, .inr (.inr rfl)⟩
  obtain ⟨e, hsplit, he⟩ := hbad
  intro hr
  rw [hsplit] at hr
  cases hr with
  | @unclosed q ws cur h =>
    -- behind such a text the machine is in another state
    have heq := congrArg Fsm.cstate (Except.ok.inj ((run_reads h).symm.trans hrun))
    rcases (h.quoted q rfl).1 with rfl | rfl <;> rcases hst with rfl | rfl | rfl <;> cases heq
  | _ => simp at he

end Run

/-- The machine follows the quoting rules exactly on the strings that do not end in an
escape, and words that are quoted come back. -/
theorem cmdlineSplit_rules (s w : List Char) (c : Char) (ts ws : List (List Char)) :
    (Rules s (cmdlineSplit s) ↔ ¬ EndsInEscape s) ∧ (∃ t, Reads none t [] (some w)) ∧
    (isBlank c = true → Forall₂ (fun t w => Reads none t [] (some w)) ts ws →
      cmdlineSplit ([c].intercalate ts) =
        if ws = [] then .error .emptyCommandLine else .ok ws) := by
  refine ⟨⟨fun hr hend => not_rules_of_endsInEscape hend hr, fun hend => ?_⟩,
    exists_quoted w, fun hc h => ?_⟩
  · rcases status s with ⟨_ | q, ws, cur, h⟩ | h | ⟨pre, q, ws, cur, c, post, h, hc, hs⟩
    · rw [cmdlineSplit_words h]
      split_ifs with hws
      · rw [append_eq_nil_iff, Option.toList_eq_nil_iff] at hws
        obtain ⟨rfl, rfl⟩ := hws
        exact .emptyCommandLine h
      · exact .words h hws
    · rw [cmdlineSplit_unclosed h]
      exact .unclosed h
    · exact absurd h hend
    · rw [cmdlineSplit_badEscape h hc hs]
      exact .badEscape h hc hs
  · obtain ⟨ws', cur, hreads, rfl⟩ := reads_intercalate hc h
    exact cmdlineSplit_words hreads

/-- A backslash alone fails the assertion. -/
theorem cmdlineSplit_backslash : cmdlineSplit ['\\'] = .error .assertFailure ∧
    ¬ ∀ s, Rules s (cmdlineSplit s) := by
  refine ⟨rfl, fun h => ?_⟩
  exact not_rules_of_endsInEscape ⟨[], none, [], none, rfl, .nil⟩ (h ['\\'])

end Why3.Cmdline
