import Why3.Session.Pqueue
import Mathlib.Data.Fintype.Basic

/-!
# Pairing the goals of two sessions

The functor `Pairing` of `session/termcode.ml`.  The arrays of the old and of the
new goals are lists with indices of type `Fin`; a node of the doubly linked list is
named by its position in `allgoals`, so that `==` on nodes is equality of positions,
and the mutable fields of the nodes are the functions of `Links`.
-/

namespace Why3

open Function

namespace Pairing

/-- The argument of the functor, `module type S`.  A shape is a string, that is a
list of bytes, with a list of integers. -/
structure S (K N γ : Type) where
  checksum : γ → Option K
  shape : γ → List UInt8 × List ℤ
  name : γ → N

/-! ## Shapes -/

def lcpFrom (n : ℕ) (s₁ s₂ : List UInt8) : ℕ :=
  if h : s₁.length ≤ n ∨ s₂.length ≤ n then n
  else if s₁[n] = s₂[n] then lcpFrom (n + 1) s₁ s₂
  else n
termination_by s₁.length - n

def lcp : List UInt8 → List UInt8 → ℕ := lcpFrom 0

def countSameSorted (n : ℕ) : List ℤ → List ℤ → ℕ
  | hd₁ :: tl₁, hd₂ :: tl₂ =>
    if hd₁ < hd₂ then countSameSorted n tl₁ (hd₂ :: tl₂)
    else if hd₁ > hd₂ then countSameSorted n (hd₁ :: tl₁) tl₂
    else countSameSorted (n + 1) tl₁ tl₂
  | _, _ => n
termination_by l₁ l₂ => l₁.length + l₂.length

def countCommon (sl₁ sl₂ : List ℤ) : ℕ := countSameSorted 0 sl₁ sl₂

def lcpList (s₁ s₂ : List UInt8 × List ℤ) : ℕ × ℕ :=
  (lcp s₁.1 s₂.1, countCommon s₁.2 s₂.2)

/-! ## Nodes and their links -/

/-- An index into the table of the old goals or into that of the new ones. -/
inductive GoalIndex (n m : ℕ) where
  | old (g : Fin n)
  | new (g : Fin m)
deriving DecidableEq

/-- The fields of a node that never change. -/
structure Node (n m : ℕ) where
  shape : List UInt8 × List ℤ
  elt : GoalIndex n m

/-- The mutable fields of `p` nodes.  The left and right bounds of the list point to
themselves. -/
structure Links (p : ℕ) where
  prev : Fin p → Fin p
  next : Fin p → Fin p
  valid : Fin p → Bool

/-- The nodes as `mk_node` leaves them. -/
def Links.mkNode (p : ℕ) : Links p := ⟨id, id, fun _ => true⟩

def iterPairs {γ σ : Type} (f : γ → γ → σ → σ) : List γ → σ → σ
  | x :: y :: l, s => iterPairs f (y :: l) (f x y s)
  | _, s => s

variable {p : ℕ}

def Links.link (x y : Fin p) (s : Links p) : Links p :=
  { s with next := update s.next x y, prev := update s.prev y x }

def Links.buildList (l : List (Fin p)) (s : Links p) : Links p := iterPairs Links.link l s

def Links.remove (s : Links p) (x : Fin p) : Links p :=
  let s := { s with valid := update s.valid x false }
  if s.prev x = x then
    -- left bound
    { s with prev := update s.prev (s.next x) (s.next x) }
  else if s.next x = x then
    -- right bound
    { s with next := update s.next (s.prev x) (s.prev x) }
  else
    { s with
      next := update s.next (s.prev x) (s.next x)
      prev := update s.prev (s.next x) (s.prev x) }

/-- An entry of the queue: the likeness of the two nodes, and the nodes. -/
abbrev Entry (p : ℕ) := (ℕ × ℕ) × (Fin p × Fin p)

/-- The comparison of the queue puts the greatest likeness first. -/
def compareEntries (e₁ e₂ : Entry p) : Ordering :=
  (compare e₂.1.1 e₁.1.1).then (compare e₂.1.2 e₁.1.2)

/-- `Hashtbl.fold` takes the bindings in an order of its own. -/
structure FoldOrder (K V : Type) where
  order : List (K × V) → List (K × V)
  perm : ∀ l, (order l).Perm l

/-! ## The two phases -/

section Associate

variable {α β K N : Type} [DecidableEq K] [DecidableEq N]
variable (Old : S K N α) (New : S K N β) (fold : ∀ n, FoldOrder K (Fin n))
variable (oldgoals : List α) (newgoals : List β)

/-- The array `result`: each new goal with its partner, and whether the pairing is
obsolete. -/
abbrev Result (α β : Type) (m : ℕ) := Fin m → β × Option (α × Bool)

abbrev GoalNode := Node oldgoals.length newgoals.length

def mkNode (g : GoalIndex oldgoals.length newgoals.length) : GoalNode oldgoals newgoals :=
  let s := match g with
    | .old g => Old.shape (oldgoals.get g)
    | .new g => New.shape (newgoals.get g)
  ⟨(s.1, s.2.mergeSort), g⟩

/-- The table behind `new_goal_index`, newest binding first: `none` is the failed
assertion. -/
def newGoalIndex (newg : β) : Option (Fin newgoals.length) :=
  ((List.finRange newgoals.length).reverse.map fun i => (New.name (newgoals.get i), i)).lookup
    (New.name newg)

/-- The result array before the first phase. -/
def initialResult : Result α β newgoals.length := fun i => (newgoals.get i, none)

/-- One turn of the loop that sorts the old goals out: those with a checksum go to a hash
table, newest binding first, and the nodes of the others to a list. -/
def addOldChecksum (s : List (K × Fin oldgoals.length) × List (GoalNode oldgoals newgoals))
    (oldg : Fin oldgoals.length) :
    List (K × Fin oldgoals.length) × List (GoalNode oldgoals newgoals) :=
  match Old.checksum (oldgoals.get oldg) with
  | none => (s.1, mkNode Old New oldgoals newgoals (.old oldg) :: s.2)
  | some c => ((c, oldg) :: s.1, s.2)

/-- `old_checksums` and `old_goals_without_checksum`. -/
def oldChecksums : List (K × Fin oldgoals.length) × List (GoalNode oldgoals newgoals) :=
  (List.finRange oldgoals.length).foldl (addOldChecksum Old New oldgoals newgoals) ([], [])

/-- `Hashtbl.remove`: the newest binding of the key goes away. -/
def hashtblRemove {V : Type} (c : K) : List (K × V) → List (K × V)
  | [] => []
  | (k, v) :: l => if k = c then l else (k, v) :: hashtblRemove c l

structure PhaseOne where
  tbl : List (K × Fin oldgoals.length)
  result : Result α β newgoals.length
  acc : List (GoalNode oldgoals newgoals)

/-- One turn of the loop that pairs the goals with identical checksums. -/
def pairChecksum (newi : Fin newgoals.length) (s : PhaseOne (K := K) oldgoals newgoals) :
    Option (PhaseOne (K := K) oldgoals newgoals) :=
  let newg := newgoals.get newi
  let unpaired := { s with acc := mkNode Old New oldgoals newgoals (.new newi) :: s.acc }
  match New.checksum newg with
  | none => some unpaired
  | some c =>
    match s.tbl.lookup c with
    | none => some unpaired
    | some oldi => do
      let i ← newGoalIndex New newgoals newg
      some { s with
        tbl := hashtblRemove c s.tbl
        result := update s.result i (newg, some (oldgoals.get oldi, false)) }

/-- The first phase: the new goals are taken from the last to the first. -/
def pairChecksums : Option (PhaseOne (K := K) oldgoals newgoals) :=
  let (tbl, acc) := oldChecksums Old New oldgoals newgoals
  (List.finRange newgoals.length).foldr
    (fun newi s => s.bind (pairChecksum Old New oldgoals newgoals newi))
    (some ⟨tbl, initialResult newgoals, acc⟩)

variable {oldgoals newgoals} in
/-- `Stdlib.compare` on the shapes of two nodes. -/
def compareNodes (e₁ e₂ : GoalNode oldgoals newgoals) : Bool :=
  ((compare e₁.shape.1 e₂.shape.1).then (compare e₁.shape.2 e₂.shape.2)).isLE

/-- The goals that are left, sorted by their shapes. -/
def allGoals (s : PhaseOne (K := K) oldgoals newgoals) : List (GoalNode oldgoals newgoals) :=
  ((((fold oldgoals.length).order s.tbl).foldl
    (fun acc b => mkNode Old New oldgoals newgoals (.old b.2) :: acc) s.acc)).mergeSort compareNodes

section Shapes

variable (allgoals : List (GoalNode oldgoals newgoals))

structure PhaseTwo where
  links : Links allgoals.length
  pq : List (Entry allgoals.length)
  result : Result α β newgoals.length

variable (dummy : Entry allgoals.length)

variable {oldgoals newgoals} in
/-- The function `add`: two nodes of different kinds are queued. -/
def add (x y : Fin allgoals.length) (pq : List (Entry allgoals.length)) :
    List (Entry allgoals.length) :=
  match (allgoals.get x).elt, (allgoals.get y).elt with
  | .old _, .new _ | .new _, .old _ =>
    Pqueue.insert compareEntries dummy
      (lcpList (allgoals.get x).shape (allgoals.get y).shape, (x, y)) pq
  | .old _, .old _ | .new _, .new _ => pq

variable {oldgoals newgoals} in
/-- The old and the new goal of two nodes of different kinds. -/
def oldNew (x y : Fin allgoals.length) : Option (Fin oldgoals.length × Fin newgoals.length) :=
  match (allgoals.get x).elt, (allgoals.get y).elt with
  | .new n, .old o | .old o, .new n => some (o, n)
  | _, _ => none

/-- The body of the `while` loop on the pair taken from the queue; `none` is a failed
assertion. -/
def pairShape (x y : Fin allgoals.length) (s : PhaseTwo oldgoals newgoals allgoals) :
    Option (PhaseTwo oldgoals newgoals allgoals) :=
  if s.links.valid x && s.links.valid y then do
    let (o, n) ← oldNew allgoals x y
    let newg := newgoals.get n
    let i ← newGoalIndex New newgoals newg
    some
      { result := update s.result i (newg, some (oldgoals.get o, true))
        pq :=
          if s.links.prev x ≠ x ∧ s.links.next y ≠ y then
            add allgoals dummy (s.links.prev x) (s.links.next y) s.pq
          else s.pq
        links := (s.links.remove x).remove y }
  else some s

/-- The `while` loop, with a bound on the number of its turns; `none` also says that
the bound was too small. -/
def pairShapes : ℕ → PhaseTwo oldgoals newgoals allgoals →
    Option (PhaseTwo oldgoals newgoals allgoals)
  | fuel, s =>
    match Pqueue.extractMinExn compareEntries dummy s.pq with
    | none => some s
    | some ((_, (x, y)), pq) =>
      match fuel with
      | 0 => none
      | fuel + 1 => do
        let s ← pairShape New oldgoals newgoals allgoals dummy x y { s with pq := pq }
        pairShapes fuel s

/-- The second phase.  Each turn of the loop takes one entry from the queue, and adds
one only when it removes two nodes. -/
def phaseTwo (result : Result α β newgoals.length) :
    Option (PhaseTwo oldgoals newgoals allgoals) :=
  let nodes := List.finRange allgoals.length
  let links := (Links.mkNode _).buildList nodes
  match nodes with
  | [] => some ⟨links, [], result⟩
  | n :: _ =>
    let dummy : Entry allgoals.length := ((0, 0), (n, n))
    let pq := iterPairs (add allgoals dummy) nodes []
    pairShapes New oldgoals newgoals allgoals dummy (pq.length + nodes.length)
      ⟨links, pq, result⟩

/-- The old goals whose node is still valid. -/
def detached (links : Links allgoals.length) : List α :=
  (List.finRange allgoals.length).foldl
    (fun acc x =>
      if links.valid x then
        match (allgoals.get x).elt with
        | .old g => oldgoals.get g :: acc
        | .new _ => acc
      else acc)
    []

end Shapes

/-- The first `associate` of the source: checksums, then shapes. -/
def shapeAssociate : Option (List (β × Option (α × Bool)) × List α) := do
  let s ← pairChecksums Old New oldgoals newgoals
  let allgoals := allGoals Old New fold oldgoals newgoals s
  let s ← phaseTwo New oldgoals newgoals allgoals s.result
  some (List.ofFn s.result, detached oldgoals newgoals allgoals s.links)

def simpleAssociateAux (acc : List (β × Option (α × Bool))) :
    List α → List β → List (β × Option (α × Bool)) × List α
  | old, [] => (acc, old)
  | [], n :: remN => simpleAssociateAux ((n, none) :: acc) [] remN
  | o :: remO, n :: remN =>
    let obs := match Old.checksum o, New.checksum n with
      | some oc, some nc => !decide (oc = nc)
      | _, _ => true
    simpleAssociateAux ((n, some (o, obs)) :: acc) remO remN

def simpleAssociate : List (β × Option (α × Bool)) × List α :=
  simpleAssociateAux Old New [] oldgoals newgoals

def associate (useShapes : Bool) : Option (List (β × Option (α × Bool)) × List α) :=
  if useShapes then shapeAssociate Old New fold oldgoals newgoals
  else some (simpleAssociate Old New oldgoals newgoals)

end Associate

end Pairing

end Why3
