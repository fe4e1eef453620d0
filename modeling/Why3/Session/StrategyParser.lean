import Why3.Driver.FilterProver
import Why3.Lib.MachineInt

/-!
# Parsing strategies

`session/strategy_parser.mll`.  The rules of the lexer are functions on the text that is
left.  In each of them a part of the expression ends where a character comes that the part
cannot hold, or that the next part cannot start with, so the longest match takes from the
text as much as it can, part after part; no two rules of `scan` but the one for a single
character match at one place.
-/

namespace Why3.Strategy

open MachineInt List Option

/-! ## The lexer -/

def isSpace (c : Char) : Bool := c = ' ' ∨ c = '\t' ∨ c = '\r' ∨ c = '\n'

def isIdent (c : Char) : Bool := !isSpace c && c ≠ ':' && c ≠ '#'

/-- `space+`. -/
def spaces (s : List Char) : Option (List Char) :=
  if s.takeWhile isSpace = [] then none else some (s.dropWhile isSpace)

def ident (s : List Char) : Option (List Char × List Char) :=
  if s.takeWhile isIdent = [] then none else some (s.takeWhile isIdent, s.dropWhile isIdent)

inductive Token
  | blank (rest : List Char)
  | label (id rest : List Char)
  | goto (id rest : List Char)
  | call (rest : List Char)
  | transform (t l rest : List Char)
  | char (c : Char)
  | eof

def Token.rest : Token → Option (List Char)
  | .blank rest => some rest
  | .label _ rest => some rest
  | .goto _ rest => some rest
  | .call rest => some rest
  | .transform _ _ rest => some rest
  | .char _ => none
  | .eof => none

/-- A keyword and the spaces behind it. -/
def keyword (short long s : List Char) : Option (List Char) :=
  (ident s).bind fun (w, s) => if w = short ∨ w = long then spaces s else none

def spaceRule (s : List Char) : Option Token := (spaces s).map .blank

def commentRule : List Char → Option Token
  | '#' :: s => some (.blank ((s.dropWhile (· ≠ '\n')).drop 1))
  | _ => none

def labelRule (s : List Char) : Option Token :=
  (ident s).bind fun (id, s) =>
    match s with
    | ':' :: s => some (.label id s)
    | _ => none

def gotoRule (s : List Char) : Option Token :=
  (keyword ['g'] ['g', 'o', 't', 'o'] s).bind fun s => (ident s).map fun (id, s) => .goto id s

def callRule (s : List Char) : Option Token := (keyword ['c'] ['c', 'a', 'l', 'l'] s).map .call

def transformRule (s : List Char) : Option Token :=
  (keyword ['t'] ['t', 'r', 'a', 'n', 's', 'f', 'o', 'r', 'm'] s).bind fun s =>
    (ident s).bind fun (t, s) =>
      (spaces s).bind fun s => (ident s).map fun (l, s) => .transform t l s

/-- What the rules of `scan` find at the start of a text. -/
def scanToken (s : List Char) : Token :=
  let rules := [spaceRule, commentRule, labelRule, gotoRule, callRule, transformRule]
  match rules.findSome? fun rule => rule s with
  | some token => token
  | none =>
    match s with
    | [] => .eof
    | c :: _ => .char c

/-- `sign?`. -/
def dropSign : List Char → List Char
  | '-' :: s => s
  | '+' :: s => s
  | s => s

def isInteger (s : List Char) : Bool := s ≠ [] && s.all Char.isDigit

def isReal (s : List Char) : Bool :=
  match (dropSign s).dropWhile Char.isDigit with
  | '.' :: s =>
    match s.dropWhile Char.isDigit with
    | [] => true
    | c :: s => (c = 'e' ∨ c = 'E') && isInteger (dropSign s)
  | _ => false

/-- A time limit ends where a space comes. -/
def timelimit (s : List Char) : Option (List Char × List Char) :=
  let t := s.takeWhile fun c => !isSpace c
  if isReal t ∨ isInteger t ∨ t = ['%', 't'] ∨ t = ['%', '.', 't'] ∨ t = ['%', 'T'] then
    some (t, s.dropWhile fun c => !isSpace c)
  else none

/-- `integer | "%m"` and `integer | "%s"`. -/
def limit (c : Char) (s : List Char) : Option (List Char × List Char) :=
  if s.takeWhile Char.isDigit ≠ [] then some (s.takeWhile Char.isDigit, s.dropWhile Char.isDigit)
  else if s.take 2 = ['%', c] then some (s.take 2, s.drop 2)
  else none

structure Args where
  prover : List Char
  timelimit : List Char
  memlimit : List Char
  steplimit : List Char
  sep : Bool

/-- The optional step limit. -/
def steplimit (s : List Char) : List Char × List Char :=
  ((spaces s).bind (limit 's')).getD (['%', 's'], s)

/-- The optional separator. -/
def separator (s : List Char) : Bool × List Char :=
  let sep := (spaces s).bind fun s =>
    match s with
    | '|' :: s => spaces s
    | _ => none
  match sep with
  | some s => (true, s)
  | none => (false, s)

/-- What the rule of `invok` finds; `none` is the exception of a lexer without a match. -/
def invokToken (s : List Char) : Option (Args × List Char) :=
  (ident s).bind fun (p, s) => (spaces s).bind fun s =>
    (timelimit s).bind fun (t, s) => (spaces s).bind fun s =>
      (limit 'm' s).map fun (m, s) =>
        let (st, s) := steplimit s
        let (sep, s) := separator s
        (⟨p, t, m, st, sep⟩, s)

/-! ## The lexer advances -/

section Advances

variable {s s' w p : List Char}

theorem length_dropWhile_lt {f : Char → Bool} (h : s.takeWhile f ≠ []) :
    (s.dropWhile f).length < s.length := by
  have hcat := congrArg List.length (@List.takeWhile_append_dropWhile _ f s)
  have hpos := length_pos_of_ne_nil h
  rw [length_append] at hcat
  omega

theorem spaces_lt (h : spaces s = some s') : s'.length < s.length := by
  rw [spaces] at h
  split_ifs at h with hnil
  obtain rfl := some.inj h
  exact length_dropWhile_lt hnil

theorem ident_lt (h : ident s = some (w, s')) : s'.length < s.length := by
  rw [ident] at h
  split_ifs at h with hnil
  cases h
  exact length_dropWhile_lt hnil

theorem keyword_lt {short long : List Char} (h : keyword short long s = some s') :
    s'.length < s.length := by
  obtain ⟨⟨w, s₁⟩, hw, h⟩ := bind_eq_some_iff.mp h
  have h₁ := ident_lt hw
  dsimp only at h
  split_ifs at h
  have h₂ := spaces_lt h
  omega

theorem transformRule_lt {token : Token} (h : transformRule s = some token)
    (hr : token.rest = some s') : s'.length < s.length := by
  obtain ⟨s₁, h₁, h⟩ := bind_eq_some_iff.mp h
  obtain ⟨⟨t, s₂⟩, h₂, h⟩ := bind_eq_some_iff.mp h
  obtain ⟨s₃, h₃, h⟩ := bind_eq_some_iff.mp h
  obtain ⟨⟨l, s₄⟩, h₄, rfl⟩ := map_eq_some_iff.mp h
  cases hr
  have := keyword_lt h₁
  have := ident_lt h₂
  have := spaces_lt h₃
  have := ident_lt h₄
  omega

theorem labelRule_lt {token : Token} (h : labelRule s = some token)
    (hr : token.rest = some s') : s'.length < s.length := by
  obtain ⟨⟨id, s₁⟩, h₁, h⟩ := bind_eq_some_iff.mp h
  have hlt := ident_lt h₁
  dsimp only at h
  split at h
  · next s₂ =>
      cases h
      cases hr
      rw [length_cons] at hlt
      omega
  · cases h

theorem scanToken_lt (h : (scanToken s).rest = some s') : s'.length < s.length := by
  rw [scanToken.eq_def] at h
  dsimp only at h
  split at h
  · next token htoken =>
      obtain ⟨rule, hmem, hrule⟩ := exists_of_findSome?_eq_some htoken
      simp only [mem_cons, not_mem_nil, or_false] at hmem
      rcases hmem with rfl | rfl | rfl | rfl | rfl | rfl
      · obtain ⟨s₁, h₁, rfl⟩ := map_eq_some_iff.mp hrule
        cases h
        exact spaces_lt h₁
      · rw [commentRule.eq_def] at hrule
        split at hrule
        · next s₁ =>
            cases hrule
            cases h
            have := (dropWhile_suffix (p := (· ≠ '\n')) (l := s₁)).length_le
            rw [length_drop, length_cons]
            omega
        · cases hrule
      · exact labelRule_lt hrule h
      · obtain ⟨s₁, h₁, hrule⟩ := bind_eq_some_iff.mp hrule
        obtain ⟨⟨id, s₂⟩, h₂, rfl⟩ := map_eq_some_iff.mp hrule
        cases h
        exact (ident_lt h₂).trans (keyword_lt h₁)
      · obtain ⟨s₁, h₁, rfl⟩ := map_eq_some_iff.mp hrule
        cases h
        exact keyword_lt h₁
      · exact transformRule_lt hrule h
  · split at h <;> cases h

theorem timelimit_le (h : timelimit s = some (w, s')) : s'.length ≤ s.length := by
  rw [timelimit] at h
  split_ifs at h
  cases h
  exact (dropWhile_suffix _).length_le

theorem limit_le {c : Char} (h : limit c s = some (w, s')) : s'.length ≤ s.length := by
  rw [limit] at h
  split_ifs at h
  · cases h
    exact (dropWhile_suffix _).length_le
  · cases h
    exact (drop_suffix 2 s).length_le

theorem steplimit_le (s : List Char) : (steplimit s).2.length ≤ s.length := by
  rw [steplimit]
  rcases h : (spaces s).bind (limit 's') with - | ⟨st, s'⟩
  · exact le_rfl
  · obtain ⟨s₁, h₁, h₂⟩ := bind_eq_some_iff.mp h
    have := spaces_lt h₁
    have := limit_le h₂
    dsimp only [getD_some]
    omega

theorem separator_le (s : List Char) : (separator s).2.length ≤ s.length := by
  rw [separator]
  split
  · next s' h =>
      obtain ⟨s₁, h₁, h⟩ := bind_eq_some_iff.mp h
      have hlt := spaces_lt h₁
      split at h
      · next s₂ =>
          have := spaces_lt h
          rw [length_cons] at hlt
          dsimp only
          omega
      · cases h
  · exact le_rfl

theorem invokToken_lt {a : Args} (h : invokToken s = some (a, s')) : s'.length < s.length := by
  obtain ⟨⟨p, s₁⟩, h₁, h⟩ := bind_eq_some_iff.mp h
  obtain ⟨s₂, h₂, h⟩ := bind_eq_some_iff.mp h
  obtain ⟨⟨t, s₃⟩, h₃, h⟩ := bind_eq_some_iff.mp h
  obtain ⟨s₄, h₄, h⟩ := bind_eq_some_iff.mp h
  obtain ⟨⟨m, s₅⟩, h₅, h⟩ := map_eq_some_iff.mp h
  cases h
  have := ident_lt h₁
  have := spaces_lt h₂
  have := timelimit_le h₃
  have := spaces_lt h₄
  have := limit_le h₅
  have := steplimit_le s₅
  have := separator_le (steplimit s₅).2
  show (separator (steplimit s₅).2).2.length < s.length
  omega

end Advances

/-! ## The code -/

/-- The limits of a call may be those of the configuration, `none`. -/
abbrev Call (F : Type) := Whyconf.Prover × Option F × Option Int63 × Option Int63

/-- Targets are temporary numbers of labels first, of type `T`, and places at the end. -/
inductive Instruction (F T : Type)
  | callProver (calls : List (Call F))
  | transform (t : List Char) (n : T)
  | goto (n : T)

structure Label where
  defined : Option ℤ
  temporary : ℕ

/-- Of `instr` the first `next` cells are in use. -/
structure Code (F : Type) where
  instr : List (Instruction F ℕ)
  next : ℕ
  labels : List (List Char × Label)
  temp : ℕ

inductive Message (F : Type)
  | duplicateLabel (l : List Char)
  | undefinedLabel (l : List Char)
  | notInstalled (p : List Char)
  | ambiguous (p : List Char)
  | unableToParse (msg : String) (s : List Char)
  | timelimitInvalid (t : F)
  | memlimitInvalid (m : Int63)
  | steplimitInvalid (s : Int63)
  | unknownTransformation (t : List Char)
  | syntaxError (c : Char) (position : ℕ)

/-- `failure` is raised by a lexer without a match, `transformation` by the code of a
transformation that is looked up. -/
inductive Exn (F : Type)
  | syntaxError (msg : Message F)
  | failure
  | whyconf (e : Whyconf.Exn)
  | transformation
  | indexOutOfBounds

/-- What looking up a transformation answers: it may also raise `UnknownTrans`, or some
other exception when the environment is given to it. -/
inductive TransLookup
  | found
  | unknownTrans
  | raises

/-- What the parser runs with: the standard library on floating-point numbers, the
iteration of a hash table in any order, the configuration and the transformations. -/
structure Env (F R : Type) where
  floatOfString : List Char → Option F
  notPositive : F → Bool
  hashtblIter : List (List Char × Label) → List (List Char × Label)
  hashtblIter_perm : ∀ l, (hashtblIter l).Perm l
  regexps : Whyconf.RegexpLib R
  whyconf : Whyconf.Config
  lookupTransform : List Char → TransLookup
  lookupTransformL : List Char → TransLookup

def exitLabel : List Char := ['e', 'x', 'i', 't']

def createCode (F : Type) : Code F where
  instr := replicate 10 (.goto 0)
  next := 0
  labels := [(exitLabel, ⟨some (-1), 0⟩)]
  temp := 1

section Actions

variable {F R : Type}

def enlargeCode (code : Code F) : Code F :=
  { code with instr := code.instr ++ replicate code.instr.length (.goto 0) }

def addInstr (code : Code F) (i : Instruction F ℕ) : Code F :=
  let n := code.next
  let code := if n = code.instr.length then enlargeCode code else code
  { code with instr := code.instr.set n i, next := n + 1 }

/-- The assignment to the field `defined` of the label that is in the table. -/
def setDefined (labels : List (List Char × Label)) (l : List Char) (n : ℤ) :
    List (List Char × Label) :=
  labels.map fun e => if e.1 = l then (e.1, { e.2 with defined := some n }) else e

def defineLabel (code : Code F) (l : List Char) : Except (Exn F) (Code F) :=
  match code.labels.lookup l with
  | some lab =>
    if lab.defined = none then .ok { code with labels := setDefined code.labels l code.next }
    else .error (.syntaxError (.duplicateLabel l))
  | none =>
    .ok { code with
      labels := (l, ⟨some code.next, code.temp⟩) :: code.labels
      temp := code.temp + 1 }

def findLabel (code : Code F) (l : List Char) : ℕ × Code F :=
  match code.labels.lookup l with
  | some lab => (lab.temporary, code)
  | none =>
    (code.temp, { code with
      labels := (l, ⟨none, code.temp⟩) :: code.labels
      temp := code.temp + 1 })

variable (E : Env F R)

def prover (p : List Char) : Except (Exn F) Whyconf.Prover :=
  match Whyconf.findProver E.regexps E.whyconf p with
  | .ok prover => .ok prover
  | .error .proverNotFound => .error (.syntaxError (.notInstalled p))
  | .error .proverAmbiguity => .error (.syntaxError (.ambiguous p))
  | .error e => .error (.whyconf e)

/-- The names of limits that `integer` and `real` both take. -/
def limitNames : List (List Char) :=
  [['%', 't'], ['%', '.', 't'], ['%', 'T'], ['%', 'm'], ['%', 's']]

local instance lawfulBEqName : LawfulBEq (List Char) := inferInstance

def integer (msg : String) (s : List Char) : Except (Exn F) (Option Int63) :=
  match intOfString s with
  | some n => .ok (some n)
  | none =>
    if s ∈ limitNames then .ok none else .error (.syntaxError (.unableToParse msg s))

def real (msg : String) (s : List Char) : Except (Exn F) (Option F) :=
  match E.floatOfString s with
  | some x => .ok (some x)
  | none =>
    if s ∈ ['%', 'S'] :: limitNames then .ok none
    else .error (.syntaxError (.unableToParse msg s))

/-- A limit that is given and does not pass the check is an error. -/
def checkLimit {A : Type} (bad : A → Bool) (msg : A → Message F) (x : Option A) :
    Except (Exn F) (Option A) :=
  match x with
  | some a => if bad a then .error (.syntaxError (msg a)) else .ok x
  | none => .ok x

/-- The action of `invok`, on one call. -/
def callOf (a : Args) : Except (Exn F) (Call F) := do
  let p ← prover E a.prover
  let t ← real E "timelimit" a.timelimit
  let t ← checkLimit E.notPositive .timelimitInvalid t
  let m ← integer "memlimit" a.memlimit
  let m ← checkLimit (fun n => n.val ≤ 0) .memlimitInvalid m
  let s ← integer "steplimit" a.steplimit
  let s ← checkLimit (fun n => n.val < 0) .steplimitInvalid s
  .ok (p, t, m, s)

/-- The calls, and the text behind them. -/
def invok (s : List Char) : Except (Exn F) (List (Call F) × List Char) :=
  match _h : invokToken s with
  | none => .error .failure
  | some (a, rest) =>
    match callOf E a with
    | .error e => .error e
    | .ok call =>
      if a.sep then (invok rest).map fun (calls, rest) => (call :: calls, rest)
      else .ok ([call], rest)
termination_by s.length
decreasing_by exact invokToken_lt _h

def transform (t : List Char) : Except (Exn F) Unit :=
  match E.lookupTransform t with
  | .found => .ok ()
  | .raises => .error .transformation
  | .unknownTrans =>
    match E.lookupTransformL t with
    | .found => .ok ()
    | .raises => .error .transformation
    | .unknownTrans => .error (.syntaxError (.unknownTransformation t))

/-- One match of `scan` in a text of the given length, and its action; nothing is left to
do at the end of the text. -/
def scanStep (length : ℕ) (code : Code F) (s : List Char) :
    Except (Exn F) (Option (Code F × List Char)) :=
  match scanToken s with
  | .blank rest => .ok (some (code, rest))
  | .label id rest => (defineLabel code id).map fun code => some (code, rest)
  | .goto id rest =>
    let (n, code) := findLabel code id
    .ok (some (addInstr code (.goto n), rest))
  | .call rest =>
    (invok E rest).map fun (i, rest) => some (addInstr code (.callProver i), rest)
  | .transform t l rest =>
    (transform E t).map fun _ =>
      let (n, code) := findLabel code l
      some (addInstr code (.transform t n), rest)
  | .char c => .error (.syntaxError (.syntaxError c (length - s.length)))
  | .eof => .ok none

theorem invok_lt {E : Env F R} {s s' : List Char} {calls : List (Call F)}
    (h : invok E s = .ok (calls, s')) : s'.length < s.length := by
  fun_induction invok E s generalizing calls with
  | case1 => cases h
  | case2 => cases h
  | case3 s a rest hi call hc hsep ih =>
    have hlt := invokToken_lt hi
    cases hr : invok E rest with
    | error e =>
      rw [hr] at h
      cases h
    | ok x =>
      obtain ⟨calls', s''⟩ := x
      rw [hr] at h
      cases h
      exact (ih hr).trans hlt
  | case4 s a rest hi call hc hsep =>
    cases h
    exact invokToken_lt hi

theorem scanStep_lt {E : Env F R} {length : ℕ} {code code' : Code F} {s s' : List Char}
    (h : scanStep E length code s = .ok (some (code', s'))) : s'.length < s.length := by
  rw [scanStep.eq_def] at h
  split at h
  · next rest ht =>
      cases h
      exact scanToken_lt (ht ▸ rfl)
  · next id rest ht =>
      cases hd : defineLabel code id with
      | error e =>
        rw [hd] at h
        cases h
      | ok code₁ =>
        rw [hd] at h
        cases h
        exact scanToken_lt (ht ▸ rfl)
  · next id rest ht =>
      cases h
      exact scanToken_lt (ht ▸ rfl)
  · next rest ht =>
      have hlt : rest.length < s.length := scanToken_lt (ht ▸ rfl)
      cases hi : invok E rest with
      | error e =>
        rw [hi] at h
        cases h
      | ok x =>
        rw [hi] at h
        cases h
        exact (invok_lt hi).trans hlt
  · next t l rest ht =>
      cases htr : transform E t with
      | error e =>
        rw [htr] at h
        cases h
      | ok u =>
        rw [htr] at h
        cases h
        exact scanToken_lt (ht ▸ rfl)
  · cases h
  · cases h

def scan (length : ℕ) (code : Code F) (s : List Char) : Except (Exn F) (Code F) :=
  match _h : scanStep E length code s with
  | .error e => .error e
  | .ok none => .ok code
  | .ok (some (code, rest)) => scan length code rest
termination_by s.length
decreasing_by exact scanStep_lt _h

/-! ## The end of the text -/

def fill (label : List ℤ) (e : List Char × Label) : Except (Exn F) (List ℤ) :=
  match e.2.defined with
  | none => .error (.syntaxError (.undefinedLabel e.1))
  | some n => .ok (label.set e.2.temporary n)

/-- The array `label`, from temporary numbers to places. -/
def labelArray (code : Code F) : Except (Exn F) (List ℤ) :=
  (E.hashtblIter code.labels).foldlM fill (replicate code.temp 0)

def solve (label : List ℤ) : Instruction F ℕ → Except (Exn F) (Instruction F ℤ)
  | .callProver calls => .ok (.callProver calls)
  | .transform t n =>
    match label[n]? with
    | some n => .ok (.transform t n)
    | none => .error .indexOutOfBounds
  | .goto n =>
    match label[n]? with
    | some n => .ok (.goto n)
    | none => .error .indexOutOfBounds

def parse (s : List Char) : Except (Exn F) (List (Instruction F ℤ)) :=
  match scan E s.length (createCode F) s with
  | .error e => .error e
  | .ok code =>
    match labelArray E code with
    | .error e => .error e
    | .ok label => (code.instr.take code.next).mapM (solve label)

end Actions

end Why3.Strategy
