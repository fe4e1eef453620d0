import Why3.Util.Rc
import Why3.Util.JsonRoundtrip

/-!
# Lexing a printed configuration

What the lexer makes of the text of a string, of a value, of a line, of a header and
of a whole table: the records of the sections that have fields.
-/

namespace Why3.Rc

open JsonBase MachineInt List

variable {c : Byte} {rest sep : List Byte}

variable {F : Type}

/-! ## Strings -/

/-- A byte that `String.escaped` writes in a form the lexer knows. -/
def Good (c : Byte) : Bool :=
  c = byte '\n' ∨ c = byte '\t' ∨ c = byte '\r' ∨ (32 ≤ c ∧ c ≤ 126)

/-- What is read for one byte of a string written by `String.escaped`. -/
def readBackChar (c : Byte) : List Byte := if Good c then [c] else escapedChar c

/-- The value that is read for a value. -/
def RcValue.parsed : RcValue F → RcValue F
  | .string s true => .string (s.flatMap readBackChar) (s.any (· = byte '\n'))
  | .string s false => .string s false
  | v => v

/-- A string is compared by its contents. -/
def RcValue.contents : RcValue F → RcValue F
  | .string s _ => .string s false
  | v => v

theorem stringVal_quote (buf : Str) (flag : Bool) (rest : List Byte) :
    stringVal buf flag (byte '"' :: rest) = some (buf, flag, rest) := by
  unfold stringVal
  rw [if_pos rfl]

theorem stringVal_plain (h1 : c ≠ byte '"') (h2 : c ≠ byte '\\') (buf : Str) (flag : Bool)
    (rest : List Byte) : stringVal buf flag (c :: rest) = stringVal (buf ++ [c]) flag rest := by
  conv_lhs => unfold stringVal
  rw [if_neg h1, if_neg h2]

theorem stringVal_backslash (e : Byte) (buf : Str) (flag : Bool) (rest : List Byte) :
    stringVal buf flag (byte '\\' :: e :: rest)
      = if e = byte '\\' ∨ e = byte '"' then stringVal (buf ++ [e]) flag rest
        else if e = byte 'n' then stringVal (buf ++ [byte '\n']) true rest
        else if e = byte 'r' then stringVal (buf ++ [byte '\r']) flag rest
        else if e = byte 't' then stringVal (buf ++ [byte '\t']) flag rest
        else if e = byte '\n' then stringVal buf flag rest
        else stringVal (buf ++ [byte '\\', e]) flag rest := by
  conv_lhs => unfold stringVal
  rw [if_neg (by decide), if_pos rfl]

theorem stringVal_escapeChar (c : Byte) (buf : Str) (flag : Bool) (rest : List Byte) :
    stringVal buf flag (escapeChar c ++ rest) = stringVal (buf ++ [c]) flag rest := by
  rw [escapeChar]
  split_ifs with h1 h2 h3 h4
  · subst h1
    exact stringVal_backslash _ _ _ _
  · subst h2
    exact stringVal_backslash _ _ _ _
  · subst h3
    exact stringVal_backslash _ _ _ _
  · subst h4
    exact stringVal_backslash _ _ _ _
  · exact stringVal_plain h1 h2 buf flag rest

theorem decimalDigit_plain : ∀ n < 10,
    decimalDigit n ≠ byte '"' ∧ decimalDigit n ≠ byte '\\' ∧ decimalDigit n ≠ byte 'n' ∧
    decimalDigit n ≠ byte 'r' ∧ decimalDigit n ≠ byte 't' ∧ decimalDigit n ≠ byte '\n' := by
  decide

theorem stringVal_unknown {d : Byte} (hd : d ≠ byte '"' ∧ d ≠ byte '\\' ∧ d ≠ byte 'n' ∧
    d ≠ byte 'r' ∧ d ≠ byte 't' ∧ d ≠ byte '\n') (buf : Str) (flag : Bool) (rest : List Byte) :
    stringVal buf flag (byte '\\' :: d :: rest) = stringVal (buf ++ [byte '\\', d]) flag rest := by
  obtain ⟨h1, h2, h3, h4, h5, h6⟩ := hd
  rw [stringVal_backslash, if_neg (by simp [h1, h2]), if_neg h3, if_neg h4, if_neg h5, if_neg h6]

/-- The escapes of `String.escaped`: the lexer knows those of one letter except that of
the backspace, and keeps the others as they are. -/
theorem stringVal_escapedChar (c : Byte) (buf : Str) (flag : Bool) (rest : List Byte) :
    stringVal buf flag (escapedChar c ++ rest)
      = stringVal (buf ++ readBackChar c) (flag || decide (c = byte '\n')) rest := by
  by_cases h1 : c = byte '"'
  · subst h1
    rw [show decide (byte '"' = byte '\n') = false from rfl, Bool.or_false]
    exact stringVal_backslash _ _ _ _
  by_cases h2 : c = byte '\\'
  · subst h2
    rw [show decide (byte '\\' = byte '\n') = false from rfl, Bool.or_false]
    exact stringVal_backslash _ _ _ _
  by_cases h3 : c = byte '\n'
  · subst h3
    rw [show decide (byte '\n' = byte '\n') = true from rfl, Bool.or_true]
    exact stringVal_backslash _ _ _ _
  rw [decide_eq_false h3, Bool.or_false]
  by_cases h4 : c = byte '\t'
  · subst h4
    exact stringVal_backslash _ _ _ _
  by_cases h5 : c = byte '\r'
  · subst h5
    exact stringVal_backslash _ _ _ _
  by_cases h6 : c = 8
  · subst h6
    exact stringVal_unknown (d := byte 'b') (by decide) buf flag rest
  by_cases h7 : 32 ≤ c ∧ c ≤ 126
  · have hesc : escapedChar c = [c] := by
      rw [escapedChar, if_neg h1, if_neg h2, if_neg h3, if_neg h4, if_neg h5, if_neg h6, if_pos h7]
    rw [readBackChar, hesc, ite_self]
    exact stringVal_plain h1 h2 buf flag rest
  · have hbad : readBackChar c = escapedChar c := by
      rw [readBackChar, Good, if_neg]
      simp [h3, h4, h5, h7]
    have hesc : escapedChar c = [byte '\\', decimalDigit (c / 100), decimalDigit (c / 10 % 10),
        decimalDigit (c % 10)] := by
      rw [escapedChar, if_neg h1, if_neg h2, if_neg h3, if_neg h4, if_neg h5, if_neg h6, if_neg h7]
    have hd1 := decimalDigit_plain (c / 100) (by omega)
    have hd2 := decimalDigit_plain (c / 10 % 10) (by omega)
    have hd3 := decimalDigit_plain (c % 10) (by omega)
    rw [hbad, hesc]
    simp only [cons_append, nil_append]
    rw [stringVal_unknown hd1, stringVal_plain hd2.1 hd2.2.1, stringVal_plain hd3.1 hd3.2.1]
    simp

theorem stringVal_flatMap {esc dec : Byte → List Byte} {nl : Byte → Bool}
    (h : ∀ c buf flag rest,
      stringVal buf flag (esc c ++ rest) = stringVal (buf ++ dec c) (flag || nl c) rest)
    (s : Str) (buf : Str) (flag : Bool) (rest : List Byte) :
    stringVal buf flag (s.flatMap esc ++ byte '"' :: rest)
      = some (buf ++ s.flatMap dec, flag || s.any nl, rest) := by
  induction s generalizing buf flag with
  | nil => simp [stringVal_quote]
  | cons c s ih =>
    rw [flatMap_cons, append_assoc, h, ih, flatMap_cons, append_assoc,
      any_cons, Bool.or_assoc]

theorem stringVal_escapeString (s : Str) (rest : List Byte) :
    stringVal [] false (escapeString s ++ byte '"' :: rest) = some (s, false, rest) := by
  have h := @stringVal_flatMap escapeChar (fun c => [c]) (fun _ => false)
    (fun c buf flag rest => by rw [stringVal_escapeChar, Bool.or_false]) s [] false rest
  have hany : (s.any fun _ => false) = false := any_eq_false.mpr fun _ _ => Bool.false_ne_true
  rw [hany] at h
  simpa [escapeString] using h

theorem stringVal_escaped (s : Str) (rest : List Byte) :
    stringVal [] false (escaped s ++ byte '"' :: rest)
      = some (s.flatMap readBackChar, s.any (· = byte '\n'), rest) := by
  have h := stringVal_flatMap stringVal_escapedChar s [] false rest
  rwa [nil_append, Bool.false_or] at h

/-! ## Values -/

/-- The lexical form of names. -/
def isIdent : Str → Bool
  | [] => false
  | c :: s => isIdentStart c && s.all isIdentChar

/-- A value that the lexer reads back: no floating-point number, and an identifier that has the
form of a name. -/
def RcValue.Lexical : RcValue F → Prop
  | .float _ => False
  | .ident s => isIdent s ∧ s ≠ bytes "true" ∧ s ≠ bytes "false"
  | _ => True

instance : DecidablePred (RcValue.Lexical (F := F))
  | .int _ | .bool _ | .string _ _ => instDecidableTrue
  | .float _ => instDecidableFalse
  | .ident s => inferInstanceAs (Decidable (isIdent s ∧ s ≠ bytes "true" ∧ s ≠ bytes "false"))

/-- What may follow a value: the end of the line or of the text. -/
def Ends (rest : List Byte) : Prop := ∀ c ∈ rest.head?, c = byte '\n'

theorem identLength_append {s : List Byte} (h : isIdent s)
    (hrest : ∀ c ∈ rest.head?, isIdentChar c = false) : identLength (s ++ rest) = s.length := by
  cases s with
  | nil => exact absurd h Bool.false_ne_true
  | cons c s =>
    rw [isIdent, Bool.and_eq_true, all_eq_true] at h
    rw [cons_append, identLength, if_pos h.1, takeWhile_append_of_pos h.2]
    cases rest with
    | nil => simp
    | cons d rest => simp [hrest d rfl]

theorem Ends.not_identChar (h : Ends rest) : ∀ c ∈ rest.head?, isIdentChar c = false := by
  intro c hc
  rw [h c hc]
  rfl

theorem wordLength_lt {w s : List Byte} (hw : byte '\n' ∉ w) (hs : s ≠ []) (hne : s ≠ w)
    (hrest : Ends rest) : wordLength w (s ++ rest) < s.length := by
  rw [wordLength]
  split_ifs with h
  · have hpre : w <+: s := by
      rcases prefix_or_prefix_of_prefix h (prefix_append s rest) with h' | h'
      · exact h'
      · obtain ⟨t, rfl⟩ := h'
        rw [prefix_append_right_inj] at h
        cases t with
        | nil => rw [append_nil]
        | cons c t =>
          obtain ⟨u, hu⟩ := h
          have hc : c = byte '\n' := hrest c (by rw [← hu]; rfl)
          exact absurd (hc ▸ mem_append_right _ mem_cons_self) hw
    rcases hpre.length_le.lt_or_eq with hlt | heq
    · exact hlt
    · exact absurd (hpre.eq_of_length heq).symm hne
  · exact length_pos_of_ne_nil hs

/-- In front of a letter no rule for numbers or strings matches. -/
theorem lengths_of_identStart (hc : isIdentStart c) (s : List Byte) :
    integerLength (c :: s) = 0 ∧ realLength (c :: s) = 0 ∧ wordLength (bytes "\"") (c :: s) = 0 := by
  have hfacts : isDigit c = false ∧ c ≠ byte '-' ∧ c ≠ byte '+' ∧ c ≠ byte '.' ∧ c ≠ byte '"' := by
    revert c
    decide +kernel
  obtain ⟨h1, h2, h3, h4, h5⟩ := hfacts
  have hsign : signLength (c :: s) = 0 := by
    rw [signLength, if_neg (by simp [h2, h3])]
  have hdig : digits ((c :: s).drop (signLength (c :: s))) = 0 := by
    rw [hsign, drop_zero, digits_cons h1]
  refine ⟨?_, ?_, ?_⟩
  · rw [integerLength, if_pos hdig]
  · rw [realLength, hdig, hsign, Nat.add_zero, drop_zero]
    exact if_neg h4
  · rw [wordLength, if_neg]
    rintro ⟨t, ht⟩
    exact h5 (cons.inj ht).1.symm

section Value

variable (floatOfString : List Byte → Option F)

theorem value_ident {s : List Byte} (hs : isIdent s) (ht : s ≠ bytes "true")
    (hf : s ≠ bytes "false") (hrest : Ends rest) :
    value floatOfString (s ++ rest) = some (.ident s, rest) := by
  have hld := identLength_append hs hrest.not_identChar
  cases s with
  | nil => exact absurd hs Bool.false_ne_true
  | cons c s =>
    have hc : isIdentStart c := by
      rw [isIdent, Bool.and_eq_true] at hs
      exact hs.1
    have hlt := wordLength_lt (by decide) (cons_ne_nil c s) ht hrest
    have hlf := wordLength_lt (by decide) (cons_ne_nil c s) hf hrest
    obtain ⟨h1, h2, h3⟩ := lengths_of_identStart hc (s ++ rest)
    rw [length_cons] at hlt hlf hld
    have hmax : max 0 (max 0 (max 0 (max (wordLength (bytes "true") (c :: s ++ rest))
        (max (wordLength (bytes "false") (c :: s ++ rest)) (s.length + 1))))) = s.length + 1 := by
      omega
    rw [value, hld, cons_append, h1, h2, h3, ← cons_append, hmax, if_neg (by omega),
      if_neg (by omega), if_neg (by omega), if_neg (by omega), if_neg (by omega),
      if_neg (by omega), ← length_cons (a := c), take_left, drop_left]

/-- A word that is printed, not one of the numbers or strings. -/
theorem value_true (hrest : Ends rest) :
    value floatOfString (bytes "true" ++ rest) = some (.bool true, rest) := by
  have hld := identLength_append (s := bytes "true") rfl hrest.not_identChar
  have hlt : wordLength (bytes "true") (bytes "true" ++ rest) = 4 := by
    rw [wordLength, if_pos (prefix_append _ _)]
    rfl
  have hlf := wordLength_lt (s := bytes "true") (w := bytes "false") (by decide) (by decide)
    (by decide) hrest
  obtain ⟨h1, h2, h3⟩ := lengths_of_identStart (c := byte 't') rfl (bytes "rue" ++ rest)
  have hlen : (bytes "true").length = 4 := rfl
  rw [hlen] at hld hlf
  have hmax : max 0 (max 0 (max 0 (max 4 (max (wordLength (bytes "false") (bytes "true" ++ rest)) 4))))
      = 4 := by omega
  rw [value, hld, hlt, show integerLength (bytes "true" ++ rest) = 0 from h1,
    show realLength (bytes "true" ++ rest) = 0 from h2,
    show wordLength (bytes "\"") (bytes "true" ++ rest) = 0 from h3, hmax, if_neg (by omega),
    if_neg (by omega), if_neg (by omega), if_neg (by omega), if_pos rfl, ← hlen, drop_left]

theorem value_false (hrest : Ends rest) :
    value floatOfString (bytes "false" ++ rest) = some (.bool false, rest) := by
  have hld := identLength_append (s := bytes "false") rfl hrest.not_identChar
  have hlf : wordLength (bytes "false") (bytes "false" ++ rest) = 5 := by
    rw [wordLength, if_pos (prefix_append _ _)]
    rfl
  have hlt : wordLength (bytes "true") (bytes "false" ++ rest) = 0 := by
    rw [wordLength, if_neg]
    rintro ⟨t, ht⟩
    exact absurd (cons.inj ht).1 (by decide)
  obtain ⟨h1, h2, h3⟩ := lengths_of_identStart (c := byte 'f') rfl (bytes "alse" ++ rest)
  have hlen : (bytes "false").length = 5 := rfl
  rw [hlen] at hld
  rw [value, hld, hlt, hlf, show integerLength (bytes "false" ++ rest) = 0 from h1,
    show realLength (bytes "false" ++ rest) = 0 from h2,
    show wordLength (bytes "\"") (bytes "false" ++ rest) = 0 from h3]
  have hdrop : (bytes "false" ++ rest).drop 5 = rest := by
    rw [← hlen, drop_left]
  simp [hdrop]

theorem value_quote (s : List Byte) :
    value floatOfString (byte '"' :: s)
      = (stringVal [] false s).map fun x => (.string x.1 x.2.1, x.2.2) := by
  have hsign : signLength (byte '"' :: s) = 0 := rfl
  have hdig : digits ((byte '"' :: s).drop (signLength (byte '"' :: s))) = 0 := by
    rw [hsign, drop_zero, digits_cons (by decide)]
  have h1 : integerLength (byte '"' :: s) = 0 := by rw [integerLength, if_pos hdig]
  have h2 : realLength (byte '"' :: s) = 0 := by
    rw [realLength, hdig, hsign, Nat.add_zero, drop_zero]
    exact if_neg (by decide)
  have h3 : wordLength (bytes "\"") (byte '"' :: s) = 1 := by
    rw [wordLength, if_pos ⟨s, rfl⟩]
    rfl
  have hword : ∀ c w, c ≠ byte '"' → wordLength (c :: w) (byte '"' :: s) = 0 := by
    intro c w hc
    rw [wordLength, if_neg]
    rintro ⟨t, ht⟩
    exact hc (cons.inj ht).1
  have h4 : wordLength (bytes "true") (byte '"' :: s) = 0 := hword _ _ (by decide)
  have h5 : wordLength (bytes "false") (byte '"' :: s) = 0 := hword _ _ (by decide)
  have h6 : identLength (byte '"' :: s) = 0 := rfl
  rw [value, h1, h2, h3, h4, h5, h6]
  rfl

/-- The text of an integer: a sign `p`, and digits `d`. -/
theorem value_intText {p d : List Byte} {n : Int63} (hp : p = [] ∨ p = [byte '-'])
    (hd : ∀ c ∈ d, isDigit c = true) (hne : d ≠ []) (hrest : Ends rest)
    (hval : intOfString ((p ++ d).map charOf) = some n) :
    value floatOfString (p ++ d ++ rest) = some (.int n, rest) := by
  have hnum : NumEnd rest := by
    rintro c t rfl
    rw [hrest c rfl]
    decide
  obtain ⟨x, d', rfl⟩ := exists_cons_of_ne_nil hne
  have hx : isDigit x = true := hd x mem_cons_self
  have hfacts : x ≠ byte '-' ∧ x ≠ byte '+' := by
    constructor <;>
    · rintro rfl
      exact absurd hx (by decide)
  -- the first character, which starts none of the other values
  obtain ⟨c, t, hct, hc⟩ : ∃ c t, p ++ x :: d' = c :: t ∧ (c = byte '-' ∨ isDigit c = true) := by
    rcases hp with rfl | rfl
    · exact ⟨x, d', rfl, .inr hx⟩
    · exact ⟨byte '-', x :: d', rfl, .inl rfl⟩
  have hother : isIdentStart c = false ∧ c ≠ byte '"' ∧ c ≠ byte 't' ∧ c ≠ byte 'f' := by
    rcases hc with rfl | hc
    · decide
    · have hrange : byte '0' ≤ c ∧ c ≤ byte '9' := of_decide_eq_true hc
      refine ⟨?_, ?_, ?_, ?_⟩
      · rw [isIdentStart, decide_eq_false_iff_not, isLetter, decide_eq_true_iff]
        have h0 : (48 : ℕ) ≤ c := hrange.1
        have h9 : (c : ℕ) ≤ 57 := hrange.2
        rintro ((⟨h, -⟩ | ⟨h, -⟩) | h)
        · have : (97 : ℕ) ≤ c := h
          omega
        · have : (65 : ℕ) ≤ c := h
          omega
        · rw [h] at h9
          exact absurd h9 (by decide)
      all_goals
        rintro rfl
        exact absurd hc (by decide)
  have hsign : signLength (p ++ x :: d' ++ rest) = p.length := by
    rcases hp with rfl | rfl
    · exact if_neg (by simp [hfacts])
    · rfl
  have hdig : digits ((p ++ x :: d' ++ rest).drop (signLength (p ++ x :: d' ++ rest)))
      = (x :: d').length := by
    rw [hsign, append_assoc, drop_left, digits_append hd hnum]
  have hlen : p.length + (x :: d').length = (p ++ x :: d').length := (length_append).symm
  have h1 : integerLength (p ++ x :: d' ++ rest) = (p ++ x :: d').length := by
    rw [integerLength, hdig, if_neg (by simp), hsign, hlen]
  have h2 : realLength (p ++ x :: d' ++ rest) = 0 := by
    rw [realLength, hdig, hsign, hlen, drop_left]
    cases rest with
    | nil => rfl
    | cons e r => exact if_neg (hnum e r rfl).2.1
  have hword : ∀ a w, c ≠ a → wordLength (a :: w) (p ++ x :: d' ++ rest) = 0 := by
    intro a w ha
    rw [wordLength, if_neg]
    rintro ⟨u, hu⟩
    rw [hct] at hu
    exact ha (cons.inj hu).1.symm
  have h6 : identLength (p ++ x :: d' ++ rest) = 0 := by
    rw [hct, cons_append, identLength, if_neg (by simp [hother.1])]
  rw [value, h1, h2, h6, show wordLength (bytes "\"") _ = 0 from hword _ _ hother.2.1,
    show wordLength (bytes "true") _ = 0 from hword _ _ hother.2.2.1,
    show wordLength (bytes "false") _ = 0 from hword _ _ hother.2.2.2]
  simp only [Nat.max_zero, Nat.max_self]
  rw [if_neg (by rw [hct]; simp), if_pos trivial, take_left, drop_left, hval, Option.map_some]

theorem value_int (n : Int63) (hrest : Ends rest) :
    value floatOfString ((stringOfInt n).map byte ++ rest) = some (.int n, rest) := by
  have hval := intOfString_map_byte n
  obtain ⟨hd, hne⟩ := isDigit_toDigits n.val.natAbs
  rw [stringOfInt] at hval ⊢
  split_ifs at hval ⊢ with hneg
  · exact value_intText floatOfString (p := [byte '-']) (.inr rfl) hd hne hrest hval
  · exact value_intText floatOfString (p := []) (.inl rfl) hd hne hrest hval

theorem value_print (printFloat : F → List Byte) {v : RcValue F} (hv : v.Lexical)
    (hrest : Ends rest) :
    value floatOfString (printRcValue printFloat v ++ rest) = some (v.parsed, rest) := by
  match v with
  | .int n => exact value_int floatOfString n hrest
  | .bool true => exact value_true floatOfString hrest
  | .bool false => exact value_false floatOfString hrest
  | .float _ => exact absurd hv id
  | .string s false =>
    rw [printRcValue, cons_append, append_assoc, value_quote, singleton_append,
      stringVal_escapeString]
    rfl
  | .string s true =>
    rw [printRcValue, cons_append, append_assoc, value_quote, singleton_append,
      stringVal_escaped]
    rfl
  | .ident s => exact value_ident floatOfString hv.1 hv.2.1 hv.2.2 hrest

end Value

/-! ## Lines, headers and the end of the text -/

section Record

variable (floatOfString : List Byte → Option F) (printFloat : F → List Byte)

/-- From a state the lexer reads a text to a result, with any fuel that is enough. -/
def Reads (st : LexState F) (s : List Byte) (r : Option (LexState F)) : Prop :=
  ∀ fuel, s.length < fuel → record floatOfString fuel s st = r

variable {floatOfString} {st : LexState F} {s : List Byte} {r : Option (LexState F)}

theorem reads_eof : Reads floatOfString st [] (some (pushRecord st)) := by
  intro fuel h
  obtain ⟨n, rfl⟩ := Nat.exists_eq_succ_of_ne_zero (by omega : fuel ≠ 0)
  rfl

theorem reads_space (hc : isSpace c) (h : Reads floatOfString st s r) :
    Reads floatOfString st (c :: s) r := by
  intro fuel hfuel
  rw [length_cons] at hfuel
  obtain ⟨n, rfl⟩ := Nat.exists_eq_succ_of_ne_zero (by omega : fuel ≠ 0)
  rw [record, if_pos hc]
  cases s with
  | nil => exact h n (by simp at hfuel ⊢; omega)
  | cons d t =>
    rw [length_cons] at hfuel
    by_cases hd : isSpace d
    · -- the two spaces are one token
      have := h (n + 1) (by rw [length_cons]; omega)
      rw [record, if_pos hd] at this
      rw [dropWhile_cons_of_pos hd]
      exact this
    · rw [dropWhile_cons_of_neg hd]
      exact h n (by rw [length_cons]; omega)

theorem isIdentStart_plain (hc : isIdentStart c) :
    isSpace c = false ∧ c ≠ byte '#' ∧ c ≠ byte '[' := by
  revert c
  decide +kernel

theorem isIdent_cons {k : Str} (hk : isIdent k) :
    ∃ c t, k = c :: t ∧ isIdentStart c = true := by
  cases k with
  | nil => exact absurd hk Bool.false_ne_true
  | cons c t =>
    rw [isIdent, Bool.and_eq_true] at hk
    exact ⟨c, t, rfl, hk.1⟩

theorem printRcValue_cons {v : RcValue F} (hv : v.Lexical) :
    ∃ c t, printRcValue printFloat v = c :: t ∧ isSpace c = false := by
  match v with
  | .int n =>
    cases hs : stringOfInt n with
    | nil =>
      have := intOfString_stringOfInt n
      rw [hs] at this
      cases this
    | cons c t =>
      refine ⟨byte c, t.map byte, by rw [printRcValue, hs, map_cons], ?_⟩
      rcases mem_stringOfInt (hs ▸ mem_cons_self : c ∈ stringOfInt n) with rfl | hc
      · rfl
      · have hd := (isDigit_byte hc).1
        rw [isSpace, decide_eq_false_iff_not]
        rintro (h | h | h | h) <;>
        · rw [h] at hd
          exact absurd hd (by decide)
  | .bool true => exact ⟨byte 't', bytes "rue", rfl, rfl⟩
  | .bool false => exact ⟨byte 'f', bytes "alse", rfl, rfl⟩
  | .float _ => exact absurd hv id
  | .string s false => exact ⟨_, _, rfl, rfl⟩
  | .string s true => exact ⟨_, _, rfl, rfl⟩
  | .ident s =>
    obtain ⟨c, t, hct, hc⟩ := isIdent_cons hv.1
    exact ⟨c, t, hct, (isIdentStart_plain hc).1⟩

theorem reads_field {k : Str} {v : RcValue F} (hk : isIdent k) (hv : v.Lexical)
    (hrest : Ends s) (h : Reads floatOfString (pushField st k v.parsed) s r) :
    Reads floatOfString st (printKv printFloat k v ++ s) r := by
  intro fuel hfuel
  obtain ⟨n, rfl⟩ := Nat.exists_eq_succ_of_ne_zero (by omega : fuel ≠ 0)
  obtain ⟨c, t, rfl, hc⟩ := isIdent_cons hk
  obtain ⟨h1, h2, h3⟩ := isIdentStart_plain hc
  obtain ⟨x, u, hxu, hx⟩ := printRcValue_cons printFloat hv
  have hlen : identLength (c :: t ++ (bytes " = " ++ (printRcValue printFloat v ++ s)))
      = (c :: t).length := identLength_append hk (by rintro d hd; cases hd; rfl)
  have hval := value_print floatOfString printFloat hv hrest
  have hskip : (byte ' ' :: (printRcValue printFloat v ++ s)).dropWhile isSpace
      = printRcValue printFloat v ++ s := by
    rw [hxu, cons_append, dropWhile_cons_of_pos rfl,
      dropWhile_cons_of_neg (by simp [hx])]
  have hafter : (c :: t ++ (bytes " = " ++ (printRcValue printFloat v ++ s))).drop (c :: t).length
      = bytes " = " ++ (printRcValue printFloat v ++ s) := drop_left
  have htake : (c :: t ++ (bytes " = " ++ (printRcValue printFloat v ++ s))).take (c :: t).length
      = c :: t := take_left
  rw [printKv, append_assoc, append_assoc] at hfuel ⊢
  rw [cons_append, record, if_neg (by simp [h1]), if_neg h2, if_neg (by simp [h3]),
    ← cons_append, hlen]
  dsimp only
  rw [hafter, htake]
  have hdrop : (bytes " = " ++ (printRcValue printFloat v ++ s)).dropWhile isSpace
      = byte '=' :: byte ' ' :: (printRcValue printFloat v ++ s) := rfl
  rw [hdrop]
  dsimp only
  rw [if_pos ⟨Nat.succ_pos _, rfl⟩, hskip, hval]
  apply h
  simp only [length_append, length_cons] at hfuel
  omega

theorem header_close (fuel : ℕ) (keylist : List Str) (s : List Byte) :
    header (fuel + 1) keylist (byte ']' :: s) = some (keylist.reverse, s) := by
  have hlen : identLength (byte ']' :: s) = 0 := rfl
  rw [header, hlen]
  rfl

theorem header_word {a : Str} (ha : isIdent a) (fuel : ℕ) (keylist : List Str) (s : List Byte) :
    header (fuel + 1) keylist (a ++ byte ']' :: s) = header fuel (a :: keylist) (byte ']' :: s) := by
  have hlen : identLength (a ++ byte ']' :: s) = a.length :=
    identLength_append ha (by rintro d hd; cases hd; rfl)
  have hpos : 0 < a.length := by
    obtain ⟨c, t, rfl, -⟩ := isIdent_cons ha
    exact Nat.succ_pos _
  conv_lhs => unfold header
  dsimp only
  rw [hlen, if_pos hpos, take_left, drop_left]
  rfl

/-- What a header has after the name of the section. -/
def argText : Option Str → List Byte
  | none => []
  | some arg => byte ' ' :: arg

theorem printHeader_append (sname : Str) (h : Option Str) (s : List Byte) :
    printHeader sname h ++ s = byte '[' :: (sname ++ (argText h ++ byte ']' :: s)) := by
  cases h <;>
  · unfold printHeader argText
    simp

theorem header_words {sname : Str} {h : Option Str} (hh : ∀ a ∈ h, isIdent a) {fuel : ℕ}
    (hfuel : 2 ≤ fuel) (s : List Byte) :
    header fuel [sname] ((argText h ++ byte ']' :: s).dropWhile isSpace)
      = some (sname :: h.toList, s) := by
  obtain ⟨n, rfl⟩ : ∃ n, fuel = n + 2 := ⟨fuel - 2, by omega⟩
  cases h with
  | none =>
    exact header_close (n + 1) [sname] s
  | some arg =>
    have harg := hh arg rfl
    have hskip : (byte ' ' :: arg ++ byte ']' :: s).dropWhile isSpace = arg ++ byte ']' :: s := by
      obtain ⟨c, t, rfl, hc⟩ := isIdent_cons harg
      rw [cons_append, dropWhile_cons_of_pos rfl, cons_append,
        dropWhile_cons_of_neg (by simp [(isIdentStart_plain hc).1])]
    show header (n + 1 + 1) [sname] ((byte ' ' :: arg ++ byte ']' :: s).dropWhile isSpace) = _
    rw [hskip, header_word harg, header_close]
    rfl

theorem reads_header {sname : Str} {h : Option Str} (hs : isIdent sname) (hh : ∀ a ∈ h, isIdent a)
    (hr : Reads floatOfString { pushRecord st with currentRec := sname :: h.toList } s r) :
    Reads floatOfString st (printHeader sname h ++ s) r := by
  intro fuel hfuel
  obtain ⟨n, rfl⟩ := Nat.exists_eq_succ_of_ne_zero (by omega : fuel ≠ 0)
  have hlen : identLength (sname ++ (argText h ++ byte ']' :: s)) = sname.length := by
    refine identLength_append hs ?_
    cases h <;>
    · rintro d hd
      cases hd
      rfl
  have hpos : 0 < sname.length := by
    obtain ⟨c, t, rfl, -⟩ := isIdent_cons hs
    exact Nat.succ_pos _
  rw [printHeader_append] at hfuel ⊢
  rw [record, if_neg (by decide), if_neg (by decide), hlen, if_pos ⟨rfl, hpos⟩]
  dsimp only
  rw [take_left, drop_left,
    header_words hh (by simp only [length_append, length_cons]; omega)]
  apply hr
  simp only [length_append, length_cons] at hfuel
  omega

/-! ### Texts with separators -/

theorem sepBy_singleton (a : List Byte) : sepBy sep [a] = a :=
  intercalate_singleton

theorem sepBy_cons (a : List Byte) {l : List (List Byte)} (hl : l ≠ []) :
    sepBy sep (a :: l) = a ++ sep ++ sepBy sep l := intercalate_cons_of_ne_nil hl

theorem sepBy_append {l l' : List (List Byte)} (hl : l ≠ []) (hl' : l' ≠ []) :
    sepBy sep (l ++ l') = sepBy sep l ++ sep ++ sepBy sep l' := by
  induction l with
  | nil => exact absurd rfl hl
  | cons a l ih =>
    by_cases h : l = []
    · subst h
      rw [singleton_append, sepBy_cons a hl', sepBy_singleton]
    · rw [cons_append, sepBy_cons a (append_ne_nil_of_right_ne_nil l hl'), ih h,
        sepBy_cons a h]
      simp

/-- Groups with a separator between them and inside them. -/
theorem sepBy_flatten {sep : List Byte} {gs : List (List (List Byte))} (hgs : ∀ g ∈ gs, g ≠ []) :
    sepBy sep (gs.map (sepBy sep)) = sepBy sep gs.flatten := by
  induction gs with
  | nil => rfl
  | cons g gs ih =>
    have ih := ih fun g' hg' => hgs g' (mem_cons_of_mem _ hg')
    by_cases h : gs = []
    · subst h
      rw [map_singleton, sepBy_singleton, flatten_cons,
        flatten_nil, append_nil]
    · have hflat : gs.flatten ≠ [] := by
        obtain ⟨g', gs', rfl⟩ := exists_cons_of_ne_nil h
        rw [flatten_cons]
        exact append_ne_nil_of_left_ne_nil (hgs g' (by simp)) _
      rw [map_cons, sepBy_cons _ (by simpa using h), ih, flatten_cons,
        sepBy_append (hgs g mem_cons_self) hflat]

/-! ### Sections -/

/-- The lines of a section. -/
def fields (m : Sect F) : List (Str × RcValue F) :=
  m.flatMap fun kvl => kvl.2.map fun v => (kvl.1, v)

def parsedField (kv : Str × RcValue F) : Str × RcValue F := (kv.1, kv.2.parsed)

/-- The sections of a table in the order of the file. -/
def sections (t : Table F) : List (Str × Option Str × Sect F) :=
  t.flatMap fun f => f.2.map fun s => (f.1, s)

structure Sect.WellFormed (m : Sect F) : Prop where
  sorted : m.Pairwise fun p q => p.1 < q.1
  keys : ∀ kvl ∈ m, isIdent kvl.1
  nonempty : ∀ kvl ∈ m, kvl.2 ≠ []
  values : ∀ kvl ∈ m, ∀ v ∈ kvl.2, v.Lexical

instance (m : Sect F) : Decidable m.WellFormed :=
  decidable_of_iff ((m.Pairwise fun p q => p.1 < q.1) ∧ (∀ kvl ∈ m, isIdent kvl.1) ∧
      (∀ kvl ∈ m, kvl.2.length ≠ 0) ∧ ∀ kvl ∈ m, ∀ v ∈ kvl.2, v.Lexical)
    ⟨fun ⟨h1, h2, h3, h4⟩ => ⟨h1, h2, fun kvl h => length_eq_zero_iff.not.mp (h3 kvl h), h4⟩,
      fun ⟨h1, h2, h3, h4⟩ => ⟨h1, h2, fun kvl h => length_eq_zero_iff.not.mpr (h3 kvl h), h4⟩⟩

/-- A table made by the functions that set sections and families, with names that the
lexer accepts. -/
structure Table.WellFormed (t : Table F) : Prop where
  sorted : t.Pairwise fun p q => p.1 < q.1
  names : ∀ f ∈ t, isIdent f.1
  nonempty : ∀ f ∈ t, f.2 ≠ []
  args : ∀ f ∈ t, ∀ s ∈ f.2, ∀ a ∈ s.1, isIdent a
  sects : ∀ f ∈ t, ∀ s ∈ f.2, Sect.WellFormed s.2

theorem Sect.WellFormed.fields_lexical {m : Sect F} (hm : m.WellFormed) :
    ∀ kv ∈ fields m, isIdent kv.1 ∧ kv.2.Lexical := by
  intro kv hkv
  obtain ⟨kvl, hkvl, hkv⟩ := mem_flatMap.mp hkv
  obtain ⟨v, hv, rfl⟩ := mem_map.mp hkv
  exact ⟨hm.keys kvl hkvl, hm.values kvl hkvl v hv⟩

/-- The keys of a section give a line for each of their values. -/
theorem Sect.WellFormed.print {m : Sect F} (hm : m.WellFormed) :
    sepBy newline (m.map (printKvl printFloat))
      = sepBy newline ((fields m).map fun kv => printKv printFloat kv.1 kv.2) := by
  have hgs : ∀ g ∈ m.map (fun kvl => kvl.2.map (printKv printFloat kvl.1)), g ≠ [] := by
    intro g hg
    obtain ⟨kvl, hkvl, rfl⟩ := mem_map.mp hg
    simpa using hm.nonempty kvl hkvl
  have h := @sepBy_flatten newline _ hgs
  rw [map_map] at h
  refine h.trans ?_
  rw [fields, map_flatMap, flatMap_def]
  congr 2
  apply map_congr_left
  intro kvl _
  rw [map_map]
  rfl

theorem Table.WellFormed.print {t : Table F} (ht : t.WellFormed) :
    toChannel printFloat t
      = sepBy newline2 ((sections t).map fun s => printSection printFloat s.1 s.2) ++ newline := by
  have hgs : ∀ g ∈ t.map (fun f => f.2.map (printSection printFloat f.1)), g ≠ [] := by
    intro g hg
    obtain ⟨f, hf, rfl⟩ := mem_map.mp hg
    simpa using ht.nonempty f hf
  have h := @sepBy_flatten newline2 _ hgs
  rw [map_map] at h
  rw [toChannel, sections, map_flatMap, flatMap_def]
  refine congrArg (· ++ newline) (h.trans ?_)
  congr 2
  apply map_congr_left
  intro f _
  rw [map_map]
  rfl

/-- The state after the lines of a section. -/
def pushFields (st : LexState F) (fs : List (Str × RcValue F)) : LexState F :=
  { st with currentList := (fs.map parsedField).reverse ++ st.currentList }

theorem reads_fields {fs : List (Str × RcValue F)} (hfs : ∀ kv ∈ fs, isIdent kv.1 ∧ kv.2.Lexical)
    (hs : Ends s) (h : Reads floatOfString (pushFields st fs) s r) :
    Reads floatOfString st (sepBy newline (fs.map fun kv => printKv printFloat kv.1 kv.2) ++ s) r := by
  induction fs generalizing st with
  | nil => exact h
  | cons kv fs ih =>
    obtain ⟨hk, hv⟩ := hfs kv mem_cons_self
    have hpush : pushFields st (kv :: fs) = pushFields (pushField st kv.1 kv.2.parsed) fs := by
      simp [pushFields, pushField, parsedField]
    rw [hpush] at h
    have hrest := ih (fun kv' hkv' => hfs kv' (mem_cons_of_mem _ hkv')) h
    by_cases hnil : fs = []
    · subst hnil
      rw [map_singleton, sepBy_singleton]
      exact reads_field printFloat hk hv hs hrest
    · rw [map_cons, sepBy_cons _ (by simpa using hnil), append_assoc, append_assoc]
      apply reads_field printFloat hk hv (by rintro c hc; cases hc; rfl)
      exact reads_space rfl hrest

/-- The state after a section. -/
def pushSection (st : LexState F) (sec : Str × Option Str × Sect F) : LexState F :=
  pushFields { pushRecord st with currentRec := sec.1 :: sec.2.1.toList } (fields sec.2.2)

theorem reads_section {sec : Str × Option Str × Sect F} (hname : isIdent sec.1)
    (harg : ∀ a ∈ sec.2.1, isIdent a) (hm : sec.2.2.WellFormed) (hs : Ends s)
    (h : Reads floatOfString (pushSection st sec) s r) :
    Reads floatOfString st (printSection printFloat sec.1 sec.2 ++ s) r := by
  rw [printSection, append_assoc, append_assoc, hm.print]
  apply reads_header hname harg
  apply reads_space rfl
  exact reads_fields printFloat hm.fields_lexical hs h

theorem reads_sections {secs : List (Str × Option Str × Sect F)}
    (hsecs : ∀ sec ∈ secs, isIdent sec.1 ∧ (∀ a ∈ sec.2.1, isIdent a) ∧ sec.2.2.WellFormed)
    (hs : Ends s) (h : Reads floatOfString (secs.foldl pushSection st) s r) :
    Reads floatOfString st
      (sepBy newline2 (secs.map fun sec => printSection printFloat sec.1 sec.2) ++ s) r := by
  induction secs generalizing st with
  | nil => exact h
  | cons sec secs ih =>
    obtain ⟨hname, harg, hm⟩ := hsecs sec mem_cons_self
    have hrest := ih (fun sec' hsec' => hsecs sec' (mem_cons_of_mem _ hsec')) h
    by_cases hnil : secs = []
    · subst hnil
      rw [map_singleton, sepBy_singleton]
      exact reads_section printFloat hname harg hm hs hrest
    · rw [map_cons, sepBy_cons _ (by simpa using hnil), append_assoc, append_assoc]
      apply reads_section printFloat hname harg hm (by rintro c hc; cases hc; rfl)
      exact reads_space rfl (reads_space rfl hrest)

/-- The record that is kept of a section. -/
def recordOf (sec : Str × Option Str × Sect F) : Record F :=
  (sec.1 :: sec.2.1.toList, (fields sec.2.2).map parsedField)

/-- The records of the sections that have fields, the last one first. -/
theorem current_pushSections (secs : List (Str × Option Str × Sect F)) (st : LexState F) :
    (pushRecord (secs.foldl pushSection st)).current
      = ((secs.filter fun sec => !(fields sec.2.2).isEmpty).map recordOf).reverse
        ++ (pushRecord st).current := by
  induction secs generalizing st with
  | nil => rfl
  | cons sec secs ih =>
    have hcur : (pushRecord (pushSection st sec)).current
        = (if (fields sec.2.2).isEmpty then [] else [recordOf sec]) ++ (pushRecord st).current := by
      have hlist : (pushSection st sec).currentList
          = ((fields sec.2.2).map parsedField).reverse := by
        rw [pushSection, pushFields, pushRecord]
        split <;> exact append_nil _
      by_cases hnil : fields sec.2.2 = []
      · rw [pushRecord, hlist, hnil]
        rfl
      · rw [pushRecord, hlist, if_neg (by simpa using hnil)]
        split
        · rename_i heq
          simp [hnil] at heq
        · rw [reverse_reverse]
          rfl
    rw [foldl_cons, ih, hcur, filter_cons]
    cases (fields sec.2.2).isEmpty with
    | true => rfl
    | false => simp

end Record

end Why3.Rc
