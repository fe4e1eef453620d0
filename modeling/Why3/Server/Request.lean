import Why3.Lib.MachineInt
import Why3.Lib.Decimal
import Why3.Lib.Fields

/-!
# Requests to the proof server

The lines that `driver/prove_client.ml` writes and that `server/request.c` reads.
A character is a byte.  A pointer to characters denotes the string before the
first NUL; a time limit is a rational number, of which the floating-point numbers
are some.
-/

namespace Why3.Server

open MachineInt

/-! ## The C library -/

def nul : Char := Char.ofNat 0

/-- The string a pointer denotes. -/
def cstring (s : List Char) : List Char := s.takeWhile (· ≠ nul)

/-- Whether `strncmp` answers zero. -/
def strncmpEq (a b : List Char) (n : ℕ) : Bool :=
  (cstring a ++ [nul]).take n = (cstring b ++ [nul]).take n

def intMax : ℤ := 2 ^ 31 - 1

def longMin : ℤ := -2 ^ 63

def longMax : ℤ := 2 ^ 63 - 1

/-- The conversion of a `long` to an `int`. -/
def toInt (n : ℤ) : ℤ := (n + 2 ^ 31) % 2 ^ 32 - 2 ^ 31

/-- The conversion of an `int` to an `unsigned int`. -/
def toUnsigned (n : ℤ) : ℕ := (n % 2 ^ 32).toNat

def isSpace (c : Char) : Bool :=
  c = ' ' ∨ (9 ≤ c.toNat ∧ c.toNat ≤ 13)

def strtol (s : List Char) : ℤ :=
  let (neg, s) := parseSign (s.dropWhile isSpace)
  let n : ℤ := Nat.ofDigitChars 10 (s.takeWhile Char.isDigit) 0
  max longMin (min longMax (if neg then -n else n))

def atoi (s : List Char) : ℤ := toInt (strtol s)

/-! ## The client -/

/-- A text of digits only gets a point. -/
def validFloatLexem (s : List Char) : List Char :=
  if s.all fun c => c.isDigit || c = '-' then s ++ ['.'] else s

def stringOfFloat (q : ℚ) : List Char := validFloatLexem (Decimal.formatG 12 q)

def sendRequest (id : Int63) (timelimit : ℚ) (memlimit : Int63) (useStdin : Option (List Char))
    (cmd : List (List Char)) : List Char :=
  let servercommand := if useStdin.isSome then "runstdin;".toList else "run;".toList
  servercommand ++ stringOfInt id ++ [';'] ++ stringOfFloat timelimit ++ [';']
    ++ stringOfInt memlimit ++ cmd.flatMap (fun x => ';' :: x)
    ++ (match useStdin with
      | none => []
      | some s => ';' :: s)
    ++ ['\n']

def sendInterrupt (id : Int63) : List Char :=
  "interrupt;".toList ++ stringOfInt id ++ ['\n']

/-- The request `set_max_running_provers` sends. -/
def sendParallel (x : Int63) : List Char :=
  "parallel;".toList ++ stringOfInt x ++ ['\n']

/-! ## The server -/

structure RunRequest where
  key : ℤ
  id : List Char
  timeout : ℤ
  memlimit : ℕ
  usestdin : Bool
  cmd : List Char
  args : List (List Char)
deriving DecidableEq

inductive Request
  | run (r : RunRequest)
  | interrupt (key : ℤ) (id : List Char)
deriving DecidableEq

def countSemicolons (buf : List Char) : ℕ := buf.count ';'

/-- The field that starts at a position, and the position of the next one: 0 at the
end of the line. -/
def copyUpToSemicolon (buf : List Char) (start : ℕ) : List Char × ℕ :=
  let field := (buf.drop start).takeWhile (· ≠ ';')
  (cstring field, if start + field.length = buf.length then 0 else start + field.length + 1)

/-- The loop over the arguments. -/
def copyArgs (buf : List Char) : ℕ → ℕ → List (List Char)
  | 0, _ => []
  | n + 1, pos =>
    let (arg, pos) := copyUpToSemicolon buf pos
    arg :: copyArgs buf n pos

/-- The request of a line, and the new value of the global `parallel`. -/
def parseRequest (strReq : List Char) (key parallel : ℤ) : Option Request × ℤ :=
  let semic := countSemicolons strReq
  if semic = 0 then (none, parallel)
  else if semic = 1 then
    -- might be a 'parallel' or an 'interrupt' command
    let (tmp, pos) := copyUpToSemicolon strReq 0
    if strncmpEq tmp "parallel".toList pos then
      let (tmp, _) := copyUpToSemicolon strReq pos
      let parallelArg := atoi tmp
      (none, if 1 ≤ parallelArg then parallelArg else parallel)
    else if strncmpEq tmp "interrupt".toList pos then
      let (id, _) := copyUpToSemicolon strReq pos
      (some (.interrupt key id), parallel)
    else (none, parallel)
  else
    let numargs : ℤ := semic - 4
    if numargs < 0 then (none, parallel)
    else
      let (tmp, pos) := copyUpToSemicolon strReq 0
      if strncmpEq tmp "run".toList pos ∨ strncmpEq tmp "runstdin".toList pos then
        let runstdin := !strncmpEq tmp "run".toList pos
        let (id, pos) := copyUpToSemicolon strReq pos
        let (timeout, pos) := copyUpToSemicolon strReq pos
        let (memlimit, pos) := copyUpToSemicolon strReq pos
        let (cmd, pos) := copyUpToSemicolon strReq pos
        let args := copyArgs strReq numargs.toNat pos
        (some (.run ⟨key, id, atoi timeout, toUnsigned (atoi memlimit), runstdin, cmd, args⟩),
          parallel)
      else (none, parallel)

end Why3.Server
