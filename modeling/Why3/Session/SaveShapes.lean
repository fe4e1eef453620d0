import Mathlib
import Why3.Session.Gshape
import Why3.Session.ShapeString

/-!
# Saving and loading the shapes of a session

What `save` and `load_session` of `session/session_itp.ml` do with checksums and
shapes: they stand in a file of their own, one line for each goal in the order of the
session file, after a header with the global shapes.  The session file is the tree of
its elements.  Provers, proof attempts and file paths, which have no line in the
shape file, are left out.
-/

namespace Why3.SessionItp

open Termcode MachineInt

/-! ## Elements of the session file -/

/-- The attributes are those the lexer returns, the last one first. -/
inductive Element
  | mk (name : Str) (attributes : List (Str × Str)) (elements : List Element)

def Element.name : Element → Str
  | .mk name _ _ => name

def assoc (key : Str) (attrs : List (Str × Str)) : Option Str :=
  (attrs.find? fun a => a.1 = key).map Prod.snd

def why3sessionTag : Str := "why3session".toList
def fileTag : Str := "file".toList
def theoryTag : Str := "theory".toList
def goalTag : Str := "goal".toList
def transfTag : Str := "transf".toList

def nameKey : Str := "name".toList
def explKey : Str := "expl".toList
def provedKey : Str := "proved".toList
def sumKey : Str := "sum".toList
def shapeKey : Str := "shape".toList
def shapeVersionKey : Str := "shape_version".toList
def formatKey : Str := "format".toList

/-! ## Sessions -/

mutual

/-- A proof node, with what the tables of checksums and of bound shapes hold for it. -/
inductive Goal
  | mk (name expl : Str) (proved : Bool) (sum : Option Str) (shape : Option BoundShape)
      (transformations : List Transf)

inductive Transf
  | mk (name : Str) (args : List Str) (proved : Bool) (subtasks : List Goal)

end

structure Theory where
  name : Str
  proved : Bool
  goals : List Goal

structure File where
  format : Str
  proved : Bool
  theories : List Theory

/-- A session with a version of bound shapes.  The files are in the order in which the
table of files gives them. -/
structure Session where
  shapeVersion : SumShapeVersion
  bound : isBoundSumShapeVersion shapeVersion
  globalShapes : Gshape
  files : List File

def dumbChecksum : Str := []

def findSum (sum : Option Str) : Str := sum.getD dumbChecksum

def getShape (shape : Option BoundShape) : ShapeV := .boundShape (shape.getD [])

def Transf.name : Transf → Str
  | .mk name _ _ _ => name

def transfLe (t1 t2 : Transf) : Bool := decide (t1.name ≤ t2.name)

mutual

/-- The tree in the order of `save_goal`, which collects the transformations in
reverse and sorts them by their names. -/
def Goal.sorted : Goal → Goal
  | .mk name expl proved sum shape ts =>
    .mk name expl proved sum shape ((sortedTransfs ts).reverse.mergeSort transfLe)

def sortedTransfs : List Transf → List Transf
  | [] => []
  | t :: ts => t.sorted :: sortedTransfs ts

def Transf.sorted : Transf → Transf
  | .mk name args proved gs => .mk name args proved (sortedGoals gs)

def sortedGoals : List Goal → List Goal
  | [] => []
  | g :: gs => g.sorted :: sortedGoals gs

end

attribute [grind =] Goal.sorted sortedTransfs Transf.sorted sortedGoals

/-! ## Saving -/

def stringOfSumShapeVersion : SumShapeVersion → Str
  | .sv1 => ['1'] | .sv2 => ['2'] | .sv3 => ['3'] | .sv4 => ['4'] | .sv5 => ['5'] | .sv6 => ['6']

def saveStringAttrib (key s : Str) : List (Str × Str) := if s = [] then [] else [(key, s)]

def saveProved (b : Bool) : List (Str × Str) :=
  if b then [(provedKey, "true".toList)] else []

/-- `arg1`, `arg2` and so on. -/
def saveArgs : ℕ → List Str → List (Str × Str)
  | _, [] => []
  | n, s :: args => saveArgs (n + 1) args ++ [("arg".toList ++ Nat.toDigits 10 (n + 1), s)]

def goalAttributes (name expl : Str) (proved : Bool) : List (Str × Str) :=
  saveProved proved ++ saveStringAttrib explKey expl ++ [(nameKey, name)]

def saveLine (sum : Str) (shape : ShapeV) : List Char :=
  sum ++ ' ' :: (stringOfShape shape ++ ['\n'])

mutual

def Goal.element : Goal → Element
  | .mk name expl proved _ _ ts => .mk goalTag (goalAttributes name expl proved) (transfElements ts)

def transfElements : List Transf → List Element
  | [] => []
  | t :: ts => t.element :: transfElements ts

def Transf.element : Transf → Element
  | .mk name args proved gs =>
    .mk transfTag (saveArgs 0 args ++ saveProved proved ++ [(nameKey, name)]) (goalElements gs)

def goalElements : List Goal → List Element
  | [] => []
  | g :: gs => g.element :: goalElements gs

end

attribute [grind =] Goal.element transfElements Transf.element goalElements

mutual

/-- The lines that are written for a goal and for the goals below it. -/
def Goal.lines : Goal → List Char
  | .mk _ _ _ sum shape ts => saveLine (findSum sum) (getShape shape) ++ transfLines ts

def transfLines : List Transf → List Char
  | [] => []
  | t :: ts => t.lines ++ transfLines ts

def Transf.lines : Transf → List Char
  | .mk _ _ _ gs => goalLines gs

def goalLines : List Goal → List Char
  | [] => []
  | g :: gs => g.lines ++ goalLines gs

end

attribute [grind =] Goal.lines transfLines Transf.lines goalLines

def Theory.element (t : Theory) : Element :=
  .mk theoryTag (saveProved t.proved ++ [(nameKey, t.name)]) (goalElements (sortedGoals t.goals))

/-- An empty theory is not saved. -/
def File.element (f : File) : Element :=
  .mk fileTag (saveProved f.proved ++ saveStringAttrib formatKey f.format)
    ((f.theories.filter fun t => !t.goals.isEmpty).map Theory.element)

def File.lines (f : File) : List Char :=
  f.theories.flatMap fun t => goalLines (sortedGoals t.goals)

def shapeHeader (s : Session) : List Char :=
  "(* shapes version: ".toList ++ stringOfSumShapeVersion s.shapeVersion ++ " *)\n".toList
    ++ s.globalShapes.writeShapeToFile ++ ['\n']

/-- The root element of the session file, and the shape file. -/
def save (s : Session) : Element × List Char :=
  (.mk why3sessionTag [(shapeVersionKey, stringOfSumShapeVersion s.shapeVersion)]
      (s.files.map File.element),
    shapeHeader s ++ s.files.flatMap File.lines)

/-! ## Reading the shape file -/

def stringToSumShapeVersion (n : Str) : Option SumShapeVersion :=
  if n = ['1'] then some .sv1
  else if n = ['2'] then some .sv2
  else if n = ['3'] then some .sv3
  else if n = ['4'] then some .sv4
  else if n = ['5'] then some .sv5
  else if n = ['6'] then some .sv6
  else none

/-- `none` is `ShapesFileError`; the same for the next one. -/
def inputLine : List Char → Option (Str × List Char)
  | [] => none
  | c :: ch => if c = '\n' then some ([], ch) else (inputLine ch).map fun r => (c :: r.1, r.2)

def readSumAndShape (ch : List Char) : Option (Str × Str × List Char) :=
  if ch.length < 32 then none
  else
    match ch.drop 32 with
    | [] => none
    | c :: rest =>
      if c = ' ' then (inputLine rest).map fun r => (ch.take 32, r.1, r.2) else none

/-- The table is filled up to the place of an error. -/
def readGlobalBuffer : ℕ → Gshape → List Char → Gshape × Option (List Char)
  | 0, gs, _ => (gs, none)
  | fuel + 1, gs, ch =>
    match inputLine ch with
    | none => (gs, none)
    | some (gShape, ch) =>
      if gShape = [] then (gs, some ch)
      else if ['(', '*'] <+: gShape then readGlobalBuffer fuel gs ch
      else readGlobalBuffer fuel (gs.addShapeG gShape) ch

/-- The references that `fix_attributes` reads and changes. -/
structure ReadState where
  gs : Gshape
  ch : List Char
  sumShapeVersion : Option SumShapeVersion

def fixAttributes (name : Str) (attrs : List (Str × Str)) (st : ReadState) :
    List (Str × Str) × ReadState :=
  if name = why3sessionTag then
    match (assoc shapeVersionKey attrs).bind stringToSumShapeVersion with
    | none => (attrs, st)
    | some sv =>
      if isBoundSumShapeVersion sv then
        match readGlobalBuffer (st.ch.length + 1) st.gs st.ch with
        | (gs, none) => (attrs, ⟨gs, st.ch, none⟩)
        | (gs, some ch) => (attrs, ⟨gs, ch, some sv⟩)
      else (attrs, { st with sumShapeVersion := some sv })
  else if name = goalTag ∧ st.sumShapeVersion.isSome then
    match readSumAndShape st.ch with
    | none => (attrs, { st with sumShapeVersion := none })
    | some (sum, shape, ch) =>
      match assoc sumKey attrs with
      | none => ((shapeKey, shape) :: (sumKey, sum) :: attrs, { st with ch := ch })
      | some oldSum =>
        if sum = oldSum then ((shapeKey, shape) :: attrs, { st with ch := ch })
        else (attrs, ⟨st.gs, ch, none⟩)
  else (attrs, st)

mutual

/-- The lexer calls `fix_attributes` on each element before it reads what is in it. -/
def fixElement : Element → ReadState → Element × ReadState
  | .mk name attrs elements, st =>
    let (attrs, st) := fixAttributes name attrs st
    let (elements, st) := fixElements elements st
    (.mk name attrs elements, st)

def fixElements : List Element → ReadState → List Element × ReadState
  | [], st => ([], st)
  | e :: es, st =>
    let (e, st) := fixElement e st
    let (es, st) := fixElements es st
    (e :: es, st)

end

/-! ## Loading -/

/-- What a loaded goal is made of, its shape still a text. -/
structure GoalText where
  name : Str
  expl : Str
  sum : Str
  shape : Str

mutual

/-- The goals of an element in the order in which they are loaded; `none` stands for
an exception.  Elements that are no goals are skipped. -/
def loadGoal : Element → Option (List GoalText)
  | .mk name attrs elements =>
    if name = goalTag then do
      let gname ← assoc nameKey attrs
      let below ← loadTransfs elements
      some (⟨gname, (assoc explKey attrs).getD [], (assoc sumKey attrs).getD [],
        (assoc shapeKey attrs).getD []⟩ :: below)
    else some []

def loadGoals : List Element → Option (List GoalText)
  | [] => some []
  | e :: es => do
    let gs ← loadGoal e
    let gs' ← loadGoals es
    some (gs ++ gs')

/-- `List.iter2` fails where an element is no goal. -/
def loadTransf : Element → Option (List GoalText)
  | .mk name attrs elements =>
    if name = transfTag then do
      let _ ← assoc nameKey attrs
      let gs ← loadGoals elements
      if elements.all fun e => e.name = goalTag then some gs else none
    else some []

def loadTransfs : List Element → Option (List GoalText)
  | [] => some []
  | e :: es => do
    let gs ← loadTransf e
    let gs' ← loadTransfs es
    some (gs ++ gs')

end

attribute [grind =] loadGoal loadGoals loadTransf loadTransfs

def loadTheory : Element → Option (List GoalText)
  | .mk name attrs elements =>
    if name = theoryTag then do
      let _ ← assoc nameKey attrs
      let gs ← loadGoals elements
      if elements.all fun e => e.name = goalTag then some gs else none
    else some []

def loadTheories : List Element → Option (List GoalText)
  | [] => some []
  | e :: es => do
    let gs ← loadTheory e
    let gs' ← loadTheories es
    some (gs ++ gs')

def loadFile : Element → Option (List GoalText)
  | .mk name _ elements => if name = fileTag then loadTheories elements else some []

def loadFiles : List Element → Option (List GoalText)
  | [] => some []
  | e :: es => do
    let gs ← loadFile e
    let gs' ← loadFiles es
    some (gs ++ gs')

/-- The name of a goal, its explanation, its checksum and its shape. -/
structure GoalRecord where
  name : Str
  expl : Str
  sum : Str
  shape : ShapeV
deriving DecidableEq

/-- A loaded session: the table of global shapes, and the goals in the order of the
file. -/
structure Loaded where
  globalShapes : Gshape
  goals : List GoalRecord

def currentSumShapeVersion : SumShapeVersion := .sv6

def loadSession (xml : Element) (shapes : List Char) : Option Loaded :=
  let (.mk name _ elements, st) := fixElement xml ⟨.create, shapes, none⟩
  if name = why3sessionTag then do
    let gs ← loadFiles elements
    let version := st.sumShapeVersion.getD currentSumShapeVersion
    let (shapes, _) ← shapeCalls [] (gs.map fun g => (version, g.shape))
    some ⟨st.gs, gs.zipWith (fun g shape => ⟨g.name, g.expl, g.sum, shape⟩) shapes⟩
  else some ⟨st.gs, []⟩

end Why3.SessionItp
