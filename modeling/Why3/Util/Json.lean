import Why3.Lib.MachineInt

/-!
# JSON values as text

The printer of `util/json_base.ml`, the lexer of `util/json_lexer.mll` and the
grammar of `util/json_parser.mly`.  A character is a byte.  The printer writes
into a formatter; what it writes is a list of pieces, and a text is a layout of
them: the formatter decides where a break becomes a new line.

Floating-point numbers, with their printer and their reader, are parameters.
-/

namespace Why3.JsonBase

open MachineInt

abbrev Byte := Fin 256

scoped instance neZeroByte : NeZero 256 := ⟨by decide⟩

def byte (c : Char) : Byte := Fin.ofNat 256 c.toNat

def bytes (s : String) : List Byte := s.toList.map byte

def charOf (b : Byte) : Char := Char.ofNat b

inductive Json (F : Type) : Type
  | record (r : List (List Byte × Json F))
  | list (l : List (Json F))
  | string (s : List Byte)
  | int (n : Int63)
  | float (f : F)
  | bool (b : Bool)
  | null

variable {F : Type}

/-! ## Printing -/

/-- What is written into a formatter: text, the break hint of width one, and boxes. -/
inductive Piece
  | text (s : List Byte)
  | brk
  | openBox
  | closeBox
deriving DecidableEq

/-- The layouts of what was written.  A break is a space or a new line with some
indentation; a box that opens too far to the right starts on a new line as well. -/
inductive Layout : List Piece → List Byte → Prop
  | nil : Layout [] []
  | text {s t : List Byte} {d : List Piece} : Layout d t → Layout (.text s :: d) (s ++ t)
  | space {t : List Byte} {d : List Piece} : Layout d t → Layout (.brk :: d) (byte ' ' :: t)
  | newline {t : List Byte} {d : List Piece} (n : ℕ) : Layout d t →
      Layout (.brk :: d) (byte '\n' :: (List.replicate n (byte ' ') ++ t))
  | openBox {t : List Byte} {d : List Piece} : Layout d t → Layout (.openBox :: d) t
  | openBoxNewline {t : List Byte} {d : List Piece} (n : ℕ) : Layout d t →
      Layout (.openBox :: d) (byte '\n' :: (List.replicate n (byte ' ') ++ t))
  | closeBox {t : List Byte} {d : List Piece} : Layout d t → Layout (.closeBox :: d) t

def hexDigit (n : ℕ) : Byte := if n < 10 then Fin.ofNat 256 (48 + n) else Fin.ofNat 256 (87 + n)

/-- The escape `\b` is 8, and `\012` is the decimal code of the form feed. -/
def char (c : Byte) : List Byte :=
  if c = byte '"' then bytes "\\\""
  else if c = byte '\\' then bytes "\\\\"
  else if c = 8 then bytes "\\b"
  else if c = byte '\n' then bytes "\\n"
  else if c = byte '\r' then bytes "\\r"
  else if c = byte '\t' then bytes "\\t"
  else if c = 12 then bytes "\\f"
  else if 32 ≤ c ∧ c ≤ 126 then [c]
  else bytes "\\u00" ++ [hexDigit (c.val / 16), hexDigit (c.val % 16)]

def string (s : List Byte) : List Byte :=
  byte '"' :: (s.flatMap char ++ [byte '"'])

def seq {α : Type} (pr : α → List Piece) : List α → List Piece
  | [] => []
  | [v] => pr v
  | h :: t => pr h ++ ([.text (bytes ","), .brk] ++ seq pr t)

def list {α : Type} (pr : α → List Piece) (l : List α) : List Piece :=
  [.openBox, .text (bytes "[")] ++ seq pr l ++ [.text (bytes "]"), .closeBox]

/-- The bindings in the order of their keys; the sort is stable. -/
def sortBindings {α : Type} (r : List (List Byte × α)) : List (List Byte × α) :=
  r.mergeSort fun a b => decide (a.1 ≤ b.1)

def mapBinding (b : List Byte × List Piece) : List Piece :=
  [.openBox, .text (string b.1), .text (bytes ":"), .brk] ++ b.2 ++ [.closeBox]

def mapBindings (r : List (List Byte × List Piece)) : List Piece :=
  [.openBox, .text (bytes "\x7b")] ++ seq mapBinding r ++ [.text (bytes "\x7d"), .closeBox]

section Print

variable (printFloat : F → List Byte)

-- The values of a record are printed before the bindings are sorted; the
-- comparison reads the keys only.
mutual
def printJson : Json F → List Piece
  | .record r => mapBindings (sortBindings (printBindings r))
  | .list l => list id (printList l)
  | .string s => [.text (string s)]
  | .int n => [.text ((stringOfInt n).map byte)]
  | .float f => [.text (printFloat f)]
  | .bool true => [.text (bytes "true")]
  | .bool false => [.text (bytes "false")]
  | .null => [.text (bytes "null")]
def printList : List (Json F) → List (List Piece)
  | [] => []
  | v :: l => printJson v :: printList l
def printBindings : List (List Byte × Json F) → List (List Byte × List Piece)
  | [] => []
  | (k, v) :: r => (k, printJson v) :: printBindings r
end

attribute [grind =] printJson printList printBindings

end Print

/-! ## The lexer -/

inductive Token (F : Type)
  | int (n : Int63)
  | float (f : F)
  | string (s : List Byte)
  | tTrue
  | tFalse
  | tNull
  | leftbrc
  | rightbrc
  | leftsq
  | rightsq
  | colon
  | comma
  | eof

def isDigit (c : Byte) : Bool := byte '0' ≤ c ∧ c ≤ byte '9'

/-- The length of the longest prefix of digits. -/
def digits (s : List Byte) : ℕ := (s.takeWhile isDigit).length

/-- The length of the longest prefix that is an `int`, zero when there is none. -/
def intLength (s : List Byte) : ℕ :=
  match s with
  | [] => 0
  | c :: t =>
    if c = byte '-' then
      if digits t = 0 then 0 else digits t + 1
    else digits s

/-- The length of `frac?`. -/
def fracLength (s : List Byte) : ℕ :=
  match s with
  | [] => 0
  | c :: t => if c = byte '.' then digits t + 1 else 0

/-- The length of `exp?`. -/
def expLength (s : List Byte) : ℕ :=
  match s with
  | [] => 0
  | c :: t =>
    if c = byte 'e' ∨ c = byte 'E' then
      let sign := match t with
        | [] => 0
        | x :: _ => if x = byte '-' ∨ x = byte '+' then 1 else 0
      if digits (t.drop sign) = 0 then 0 else 1 + sign + digits (t.drop sign)
    else 0

/-- The length of the longest prefix that is a `float`, which may be empty. -/
def floatLength (s : List Byte) : ℕ :=
  let n := digits s
  let f := fracLength (s.drop n)
  n + f + expLength (s.drop (n + f))

def hexVal (c : Byte) : Option ℕ := parseDigit (charOf c)

/-- The character an escape of one letter stands for. -/
def unescape (c : Byte) : Option Byte :=
  if c = byte '"' then some (byte '"')
  else if c = byte '/' then some (byte '/')
  else if c = byte '\\' then some (byte '\\')
  else if c = byte 'b' then some 8
  else if c = byte 'f' then some 12
  else if c = byte 'n' then some (byte '\n')
  else if c = byte 'r' then some (byte '\r')
  else if c = byte 't' then some (byte '\t')
  else none

/-- The rule `read_string`; `buf` is the content of the buffer. -/
def readString (buf : List Byte) (s : List Byte) : Option (List Byte × List Byte) :=
  match s with
  | [] => none
  | c :: s =>
    if c = byte '"' then some (buf, s)
    else if c = byte '\\' then
      match s with
      | [] => none
      | e :: s =>
        match unescape e with
        | some x => readString (buf ++ [x]) s
        | none =>
          match s with
          | z :: z' :: h :: h' :: s =>
            if e = byte 'u' ∧ z = byte '0' ∧ z' = byte '0' then
              match hexVal h, hexVal h' with
              | some a, some b => readString (buf ++ [Fin.ofNat 256 (16 * a + b)]) s
              | _, _ => none
            else none
          | _ => none
    else readString (buf ++ [c]) s
termination_by s.length

section Parse

variable (floatOfString : List Byte → Option F)

/-- The tokens of one character. -/
def punctuation (c : Byte) : Option (Token F) :=
  if c = byte '\x7b' then some .leftbrc
  else if c = byte '\x7d' then some .rightbrc
  else if c = byte '[' then some .leftsq
  else if c = byte ']' then some .rightsq
  else if c = byte ':' then some .colon
  else if c = byte ',' then some .comma
  else none

/-- The rule `read`: the longest match, and among those the first rule.  Only the
rule for floats matches the empty prefix, and it loses to the rule for any
character and to `eof`.  `none` stands for an exception. -/
def read : List Byte → Option (Token F × List Byte)
  | [] => some (.eof, [])
  | c :: s =>
    if c = byte ' ' ∨ c = byte '\t' ∨ c = byte '\r' ∨ c = byte '\n' then read s
    else if 0 < intLength (c :: s) ∧ floatLength (c :: s) ≤ intLength (c :: s) then
      (intOfString (((c :: s).take (intLength (c :: s))).map charOf)).map fun n =>
        (.int n, (c :: s).drop (intLength (c :: s)))
    else if 0 < floatLength (c :: s) then
      (floatOfString ((c :: s).take (floatLength (c :: s)))).map fun f =>
        (.float f, (c :: s).drop (floatLength (c :: s)))
    else if bytes "true" <+: c :: s then some (.tTrue, (c :: s).drop 4)
    else if bytes "false" <+: c :: s then some (.tFalse, (c :: s).drop 5)
    else if bytes "null" <+: c :: s then some (.tNull, (c :: s).drop 4)
    else if c = byte '"' then (readString [] s).map fun p => (.string p.1, p.2)
    else (punctuation c).map fun t => (t, s)

/-! ## The grammar -/

-- One function for each of `value`, `elements` and `members`; the lists are built
-- in reverse, as by the left-recursive rules.  The first argument bounds the
-- nesting of the calls.
mutual
def value : ℕ → List Byte → Option (Json F × List Byte)
  | 0, _ => none
  | fuel + 1, s =>
    match read floatOfString s with
    | some (.string x, s) => some (.string x, s)
    | some (.int n, s) => some (.int n, s)
    | some (.float f, s) => some (.float f, s)
    | some (.eof, s) => some (.null, s)
    | some (.leftbrc, s) =>
      match read floatOfString s with
      | some (.rightbrc, s) => some (.null, s)
      | _ => members fuel [] s
    | some (.leftsq, s) =>
      match read floatOfString s with
      | some (.rightsq, s) => some (.list [], s)
      | _ => elements fuel [] s
    | some (.tTrue, s) => some (.bool true, s)
    | some (.tFalse, s) => some (.bool false, s)
    | some (.tNull, s) => some (.null, s)
    | _ => none
def elements : ℕ → List (Json F) → List Byte → Option (Json F × List Byte)
  | 0, _, _ => none
  | fuel + 1, acc, s =>
    match value fuel s with
    | none => none
    | some (v, s) =>
      match read floatOfString s with
      | some (.comma, s) => elements fuel (v :: acc) s
      | some (.rightsq, s) => some (.list (v :: acc).reverse, s)
      | _ => none
def members : ℕ → List (List Byte × Json F) → List Byte → Option (Json F × List Byte)
  | 0, _, _ => none
  | fuel + 1, acc, s =>
    match read floatOfString s with
    | some (.string k, s) =>
      match read floatOfString s with
      | some (.colon, s) =>
        match value fuel s with
        | none => none
        | some (v, s) =>
          match read floatOfString s with
          | some (.comma, s) => members fuel ((k, v) :: acc) s
          | some (.rightbrc, s) => some (.record ((k, v) :: acc).reverse, s)
          | _ => none
      | _ => none
    | _ => none
end

attribute [grind =] value elements members

/-- The parser: it stops after one value and leaves the rest of the text. -/
def parse (s : List Byte) : Option (Json F × List Byte) :=
  value floatOfString (s.length + 1) s

end Parse

end Why3.JsonBase
