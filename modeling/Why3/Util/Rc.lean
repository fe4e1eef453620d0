import Why3.Util.Json

/-!
# Configuration files

The printer and the lexer of `util/rc.mll`.  A character is a byte.  A map on
strings is the list of its bindings in the order of the keys.  The printer opens no
box and gives no break hint, so its text is fixed.  Floating-point numbers, with
their printer and their reader, are parameters; `none` stands for an exception.
-/

namespace Why3.Rc

open JsonBase MachineInt

abbrev Str := List Byte

/-! ## Maps on strings -/

abbrev Mstr (α : Type) := List (Str × α)

section Maps

variable {α : Type}

def findDef (d : α) (k : Str) (m : Mstr α) : α :=
  ((m.find? fun p => p.1 = k).map Prod.snd).getD d

def add (k : Str) (v : α) : Mstr α → Mstr α
  | [] => [(k, v)]
  | (k', v') :: m =>
    if k = k' then (k, v) :: m
    else if k < k' then (k, v) :: (k', v') :: m
    else (k', v') :: add k v m

def mapValues {β : Type} (f : α → β) (m : Mstr α) : Mstr β := m.map fun p => (p.1, f p.2)

end Maps

/-! ## Tables -/

inductive RcValue (F : Type)
  | int (n : Int63)
  | bool (b : Bool)
  | float (f : F)
  | string (s : Str) (escapeEol : Bool)
  | ident (s : Str)

variable {F : Type}

abbrev Sect (F : Type) := Mstr (List (RcValue F))

abbrev Table (F : Type) := Mstr (List (Option Str × Sect F))

/-- A section as it stands in the file: its header, and its fields. -/
abbrev Record (F : Type) := List Str × List (Str × RcValue F)

def addKey (acc : Sect F) (kv : Str × RcValue F) : Sect F :=
  add kv.1 (kv.2 :: findDef [] kv.1 acc) acc

/-- A header of more than two words raises `ExtraParameters`; one without words fails an
assertion. -/
def addSection (t : Table F) (r : Record F) : Option (Table F) :=
  let m := mapValues List.reverse (r.2.foldl addKey [])
  match r.1 with
  | [sname] => some (add sname ((none, m) :: findDef [] sname t) t)
  | [sname, arg] => some (add sname ((some arg, m) :: findDef [] sname t) t)
  | _ => none

def makeT (tl : List (Record F)) : Option (Table F) := tl.foldlM addSection []

/-! ## Printing -/

/-- The bytes that stand for one byte of a string; `escape_string` counts first whether
there is anything to escape. -/
def escapeChar (c : Byte) : List Byte :=
  if c = byte '"' then bytes "\\\""
  else if c = byte '\\' then bytes "\\\\"
  else if c = byte '\r' then bytes "\\r"
  else if c = byte '\t' then bytes "\\t"
  else [c]

def escapeString (s : Str) : Str := s.flatMap escapeChar

def decimalDigit (n : ℕ) : Byte := Fin.ofNat 256 (48 + n)

/-- The same for `String.escaped` of the standard library. -/
def escapedChar (c : Byte) : List Byte :=
  if c = byte '"' then bytes "\\\""
  else if c = byte '\\' then bytes "\\\\"
  else if c = byte '\n' then bytes "\\n"
  else if c = byte '\t' then bytes "\\t"
  else if c = byte '\r' then bytes "\\r"
  else if c = 8 then bytes "\\b"
  else if 32 ≤ c ∧ c ≤ 126 then [c]
  else [byte '\\', decimalDigit (c / 100), decimalDigit (c / 10 % 10), decimalDigit (c % 10)]

def escaped (s : Str) : Str := s.flatMap escapedChar

section Print

variable (printFloat : F → List Byte)

def printRcValue : RcValue F → List Byte
  | .int n => (stringOfInt n).map byte
  | .bool true => bytes "true"
  | .bool false => bytes "false"
  | .float f => printFloat f
  | .string s false => byte '"' :: (escapeString s ++ [byte '"'])
  | .string s true => byte '"' :: (escaped s ++ [byte '"'])
  | .ident s => s

/-- The texts with a separator between them. -/
def sepBy (sep : List Byte) (l : List (List Byte)) : List Byte := sep.intercalate l

def newline : List Byte := [byte '\n']

def newline2 : List Byte := [byte '\n', byte '\n']

def printKv (k : Str) (v : RcValue F) : List Byte := k ++ bytes " = " ++ printRcValue printFloat v

def printKvl (kvl : Str × List (RcValue F)) : List Byte :=
  sepBy newline (kvl.2.map (printKv printFloat kvl.1))

def printHeader (sname : Str) (h : Option Str) : List Byte :=
  byte '[' :: (sname ++ (match h with
    | none => []
    | some arg => byte ' ' :: arg) ++ [byte ']'])

def printSection (sname : Str) (s : Option Str × Sect F) : List Byte :=
  printHeader sname s.1 ++ newline ++ sepBy newline (s.2.map (printKvl printFloat))

def printSectionl (f : Str × List (Option Str × Sect F)) : List Byte :=
  sepBy newline2 (f.2.map (printSection printFloat f.1))

def toChannel (t : Table F) : List Byte :=
  sepBy newline2 (t.map (printSectionl printFloat)) ++ newline

end Print

/-! ## The lexer -/

def isSpace (c : Byte) : Bool :=
  c = byte ' ' ∨ c = byte '\t' ∨ c = byte '\r' ∨ c = byte '\n'

def isLetter (c : Byte) : Bool :=
  (byte 'a' ≤ c ∧ c ≤ byte 'z') ∨ (byte 'A' ≤ c ∧ c ≤ byte 'Z')

def isIdentStart (c : Byte) : Bool := isLetter c ∨ c = byte '_'

def isIdentChar (c : Byte) : Bool :=
  isLetter c ∨ isDigit c ∨ c = byte '_' ∨ c = byte '-' ∨ c = byte '+' ∨ c = byte '.'

/-- The length of the longest prefix that is an `ident`, zero when there is none; the
same for the next ones. -/
def identLength : List Byte → ℕ
  | [] => 0
  | c :: s => if isIdentStart c then (s.takeWhile isIdentChar).length + 1 else 0

def signLength : List Byte → ℕ
  | [] => 0
  | c :: _ => if c = byte '-' ∨ c = byte '+' then 1 else 0

def integerLength (s : List Byte) : ℕ :=
  if digits (s.drop (signLength s)) = 0 then 0
  else signLength s + digits (s.drop (signLength s))

def realLength (s : List Byte) : ℕ :=
  let n := signLength s + digits (s.drop (signLength s))
  match s.drop n with
  | [] => 0
  | c :: t =>
    if c = byte '.' then n + 1 + digits t + expLength (t.drop (digits t)) else 0

def wordLength (w s : List Byte) : ℕ := if w <+: s then w.length else 0

/-- The rule `string_val`. -/
def stringVal (buf : Str) (escapeEol : Bool) (s : List Byte) : Option (Str × Bool × List Byte) :=
  match s with
  | [] => none
  | c :: s =>
    if c = byte '"' then some (buf, escapeEol, s)
    else if c = byte '\\' then
      match s with
      | [] => none
      | e :: s =>
        if e = byte '\\' ∨ e = byte '"' then stringVal (buf ++ [e]) escapeEol s
        else if e = byte 'n' then stringVal (buf ++ [byte '\n']) true s
        else if e = byte 'r' then stringVal (buf ++ [byte '\r']) escapeEol s
        else if e = byte 't' then stringVal (buf ++ [byte '\t']) escapeEol s
        else if e = byte '\n' then stringVal buf escapeEol s
        else stringVal (buf ++ [c, e]) escapeEol s
    else stringVal (buf ++ [c]) escapeEol s
termination_by s.length

/-- The rule `header`, after its first word. -/
def header : ℕ → List Str → List Byte → Option (List Str × List Byte)
  | 0, _, _ => none
  | fuel + 1, keylist, s =>
    let n := identLength s
    if 0 < n then header fuel (s.take n :: keylist) ((s.drop n).dropWhile isSpace)
    else
      match s with
      | [] => none
      | c :: t => if c = byte ']' then some (keylist.reverse, t) else none

structure LexState (F : Type) where
  currentRec : List Str
  currentList : List (Str × RcValue F)
  current : List (Record F)

def LexState.init : LexState F := ⟨[], [], []⟩

def pushField (st : LexState F) (key : Str) (v : RcValue F) : LexState F :=
  { st with currentList := (key, v) :: st.currentList }

/-- A section without fields is not recorded. -/
def pushRecord (st : LexState F) : LexState F :=
  match st.currentList with
  | [] => ⟨[], [], st.current⟩
  | _ :: _ => ⟨[], [], (st.currentRec, st.currentList.reverse) :: st.current⟩

section Lex

variable (floatOfString : List Byte → Option F)

/-- The rule `value`: the longest match, and among those the first rule. -/
def value (s : List Byte) : Option (RcValue F × List Byte) :=
  let li := integerLength s
  let lr := realLength s
  let lq := wordLength (bytes "\"") s
  let lt := wordLength (bytes "true") s
  let lf := wordLength (bytes "false") s
  let ld := identLength s
  let n := max li (max lr (max lq (max lt (max lf ld))))
  if n = 0 then none
  else if li = n then
    (intOfString ((s.take n).map charOf)).map fun i => (.int i, s.drop n)
  else if lr = n then (floatOfString (s.take n)).map fun f => (.float f, s.drop n)
  else if lq = n then
    (stringVal [] false (s.drop n)).map fun x => (.string x.1 x.2.1, x.2.2)
  else if lt = n then some (.bool true, s.drop n)
  else if lf = n then some (.bool false, s.drop n)
  else some (.ident (s.take n), s.drop n)

/-- The rule `record`. -/
def record : ℕ → List Byte → LexState F → Option (LexState F)
  | 0, _, _ => none
  | _ + 1, [], st => some (pushRecord st)
  | fuel + 1, c :: t, st =>
    if isSpace c then record fuel (t.dropWhile isSpace) st
    else if c = byte '#' then record fuel ((t.dropWhile (· ≠ byte '\n')).drop 1) st
    else if c = byte '[' ∧ 0 < identLength t then
      let n := identLength t
      match header t.length [t.take n] ((t.drop n).dropWhile isSpace) with
      | none => none
      | some (keylist, rest) =>
        record fuel rest { pushRecord st with currentRec := keylist }
    else
      let n := identLength (c :: t)
      match ((c :: t).drop n).dropWhile isSpace with
      | [] => none
      | e :: rest =>
        if 0 < n ∧ e = byte '=' then
          match value floatOfString (rest.dropWhile isSpace) with
          | none => none
          | some (v, rest) => record fuel rest (pushField st ((c :: t).take n) v)
        else none

def fromChannel (s : List Byte) : Option (Table F) :=
  (record floatOfString (s.length + 1) s .init).bind fun st => makeT st.current

end Lex

end Why3.Rc
