import Why3.Lib.BitPrefix
import Why3.Lib.Compare

/-!
# Hash-consed Patricia trees

The trees of `Hcpt.MakeMap`.  A node is a block in memory: it has an address,
which physical equality compares, and the number that `hashcons` gives it.  The
table of nodes and the two counters are the state; the table keeps all nodes.
The order in which the arguments of a call are evaluated only changes the
numbers of the nodes.
-/

namespace Why3.Hcpt

open BitPrefix

/-! ## Machine integers -/

/-- `Sys.word_size`. -/
inductive WordSize
  | ws32
  | ws64

/-- The size of a native integer. -/
def WordSize.intSize : WordSize → ℕ
  | .ws32 => 31
  | .ws64 => 63

abbrev Word (ws : WordSize) := BitVec ws.intSize

section BitReversal

def bitReversal16 (x : BitVec 31) : BitVec 31 :=
  let x := ((x &&& 0x5555#31) <<< 1) ||| ((x >>> 1) &&& 0x5555#31)
  let x := ((x &&& 0x3333#31) <<< 2) ||| ((x >>> 2) &&& 0x3333#31)
  let x := ((x &&& 0x0F0F#31) <<< 4) ||| ((x >>> 4) &&& 0x0F0F#31)
  ((x &&& 0xFF#31) <<< 8) ||| (x >>> 8)

def bitReversal31 (x : BitVec 31) : BitVec 31 :=
  (bitReversal16 (x &&& 0xFFFF#31) <<< 15) ||| (bitReversal16 (x >>> 16) >>> 1)

def bitReversal32 (x : BitVec 63) : BitVec 63 :=
  let ox55555555 := (0x5555#63 <<< 16) ||| 0x5555#63
  let x := ((x &&& ox55555555) <<< 1) ||| ((x >>> 1) &&& ox55555555)
  let x := ((x &&& 0x33333333#63) <<< 2) ||| ((x >>> 2) &&& 0x33333333#63)
  let x := ((x &&& 0x0F0F0F0F#63) <<< 4) ||| ((x >>> 4) &&& 0x0F0F0F0F#63)
  ((x &&& 0xFF#63) <<< 24) ||| ((x &&& 0xFF00#63) <<< 8) |||
    ((x >>> 8) &&& 0xFF00#63) ||| (x >>> 24)

def bitReversal63 (x : BitVec 63) : BitVec 63 :=
  let oxFFFFFFFF := (0xFFFF#63 <<< 16) ||| 0xFFFF#63
  (bitReversal32 (x &&& oxFFFFFFFF) <<< 31) ||| (bitReversal32 (x >>> 32) >>> 1)

def bitReversal : (ws : WordSize) → Word ws → Word ws
  | .ws32 => bitReversal31
  | .ws64 => bitReversal63

end BitReversal

/-! ## Trees -/

/-- The argument of the functor. -/
structure Params (ws : WordSize) (K V : Type) where
  id : K → Word ws
  hash : V → Word ws
  equal : V → V → Bool

/-- A node starts with its address and its number. -/
inductive Tree (ws : WordSize) (K V : Type)
  | empty
  | leaf (addr uid : ℕ) (k : K) (v : V)
  | branch (addr uid : ℕ) (p m : Word ws) (t0 t1 : Tree ws K V)

section HashConsing

variable {ws : WordSize} {K V : Type}

def hash : Tree ws K V → ℕ
  | .empty => 0
  | .leaf _ uid _ _ => uid
  | .branch _ uid _ _ _ _ => uid

def id : Tree ws K V → ℕ := hash

def addr : Tree ws K V → Option ℕ
  | .empty => none
  | .leaf a _ _ _ => some a
  | .branch a _ _ _ _ _ => some a

/-- Physical equality. -/
def equal (t0 t1 : Tree ws K V) : Bool := addr t0 == addr t1

variable (X : Params ws K V)

/-- The hash function of the table. -/
def hHash : Tree ws K V → Word ws
  | .empty => 0
  | .leaf _ _ k v => 31 * X.id k + X.hash v
  | .branch _ _ p _ t0 t1 =>
    19 * (19 * p + BitVec.ofNat _ (hash t0)) + BitVec.ofNat _ (hash t1)

/-- The equality of the table. -/
def hEqual : Tree ws K V → Tree ws K V → Bool
  | .empty, .empty => true
  | .leaf _ _ k0 v0, .leaf _ _ k1 v1 => X.id k0 == X.id k1 && X.equal v0 v1
  | .branch _ _ p0 m0 t00 t01, .branch _ _ p1 m1 t10 t11 =>
    p0 == p1 && m0 == m1 && equal t00 t10 && equal t01 t11
  | _, _ => false

structure State (ws : WordSize) (K V : Type) where
  table : List (Tree ws K V)
  nextid : ℕ
  nextaddr : ℕ

def State.init : State ws K V := ⟨[], 1, 0⟩

def hashcons (s : State ws K V) (n : Tree ws K V) : Tree ws K V × State ws K V :=
  match s.table.find? (fun n' => hHash X n == hHash X n' && hEqual X n n') with
  | some n' => (n', s)
  | none => (n, { s with nextid := s.nextid + 1, table := n :: s.table })

def leaf (s : State ws K V) (k : K) (v : V) : Tree ws K V × State ws K V :=
  hashcons X { s with nextaddr := s.nextaddr + 1 } (.leaf s.nextaddr s.nextid k v)

def branch (s : State ws K V) (p m : Word ws) (t0 t1 : Tree ws K V) :
    Tree ws K V × State ws K V :=
  hashcons X { s with nextaddr := s.nextaddr + 1 } (.branch s.nextaddr s.nextid p m t0 t1)

end HashConsing

/-! ## Operations -/

section Operations

variable {ws : WordSize} {K V : Type} (X : Params ws K V)

def bits (k : K) : Word ws := bitReversal ws (X.id k ^^^ BitVec.intMin _)

def memAux (bk : Word ws) : Tree ws K V → Bool
  | .empty => false
  | .leaf _ _ j _ => bk == bits X j
  | .branch _ _ p m l r =>
    matchPrefix bk p m && (if zeroBit bk m then memAux bk l else memAux bk r)

def mem (k : K) (t : Tree ws K V) : Bool := memAux X (bits X k) t

def findAux (bk : Word ws) : Tree ws K V → Option V
  | .empty => none
  | .leaf _ _ j x => if bk = bits X j then some x else none
  | .branch _ _ p m l r =>
    if matchPrefix bk p m then (if zeroBit bk m then findAux bk l else findAux bk r) else none

def findOpt (k : K) (t : Tree ws K V) : Option V := findAux X (bits X k) t

def join (s : State ws K V) (p0 : Word ws) (t0 : Tree ws K V) (p1 : Word ws) (t1 : Tree ws K V) :
    Tree ws K V × State ws K V :=
  let m := branchingBit p0 p1
  if zeroBit p0 m then branch X s (mask p0 m) m t0 t1 else branch X s (mask p0 m) m t1 t0

def ins (k : K) (x : V) (s : State ws K V) : Tree ws K V → Tree ws K V × State ws K V
  | .empty => leaf X s k x
  | .leaf a u j v =>
    if bits X j = bits X k then leaf X s k x
    else
      let l := leaf X s k x
      join X l.2 (bits X k) l.1 (bits X j) (.leaf a u j v)
  | .branch a u p m t0 t1 =>
    if matchPrefix (bits X k) p m then
      if zeroBit (bits X k) m then
        let t := ins k x s t0
        branch X t.2 p m t.1 t1
      else
        let t := ins k x s t1
        branch X t.2 p m t0 t.1
    else
      let l := leaf X s k x
      join X l.2 (bits X k) l.1 p (.branch a u p m t0 t1)

def add (k : K) (x : V) (s : State ws K V) (t : Tree ws K V) : Tree ws K V × State ws K V :=
  ins X k x s t

def singleton (k : K) (v : V) (s : State ws K V) : Tree ws K V × State ws K V :=
  add X k v s .empty

/-- The second `branch`. -/
def smartBranch (s : State ws K V) (p m : Word ws) (t0 t1 : Tree ws K V) :
    Tree ws K V × State ws K V :=
  match t0, t1 with
  | .empty, t => (t, s)
  | t, .empty => (t, s)
  | t0, t1 => branch X s p m t0 t1

def rmv (k : K) (s : State ws K V) : Tree ws K V → Tree ws K V × State ws K V
  | .empty => (.empty, s)
  | .leaf a u j v => (if bits X k = bits X j then .empty else .leaf a u j v, s)
  | .branch a u p m t0 t1 =>
    if matchPrefix (bits X k) p m then
      if zeroBit (bits X k) m then
        let t := rmv k s t0
        smartBranch X t.2 p m t.1 t1
      else
        let t := rmv k s t1
        smartBranch X t.2 p m t0 t.1
    else (.branch a u p m t0 t1, s)

def remove (k : K) (s : State ws K V) (t : Tree ws K V) : Tree ws K V × State ws K V :=
  rmv X k s t

def filter (pr : K → V → Bool) (s : State ws K V) : Tree ws K V → Tree ws K V × State ws K V
  | .empty => (.empty, s)
  | .leaf a u k v => (if pr k v then .leaf a u k v else .empty, s)
  | .branch _ _ p m t0 t1 =>
    let r0 := filter pr s t0
    let r1 := filter pr r0.2 t1
    smartBranch X r1.2 p m r0.1 r1.1

def filterMap (pr : K → V → Option V) (s : State ws K V) :
    Tree ws K V → Tree ws K V × State ws K V
  | .empty => (.empty, s)
  | .leaf _ _ k v =>
    match pr k v with
    | some v' => leaf X s k v'
    | none => (.empty, s)
  | .branch _ _ p m t0 t1 =>
    let r0 := filterMap pr s t0
    let r1 := filterMap pr r0.2 t1
    smartBranch X r1.2 p m r0.1 r1.1

/-- `part`; the pair holds the bindings that satisfy `p` and the others. -/
def part (p : K → V → Bool) (acc : (Tree ws K V × Tree ws K V) × State ws K V) :
    Tree ws K V → (Tree ws K V × Tree ws K V) × State ws K V
  | .empty => acc
  | .leaf _ _ k v =>
    if p k v then
      let t := add X k v acc.2 acc.1.1
      ((t.1, acc.1.2), t.2)
    else
      let f := add X k v acc.2 acc.1.2
      ((acc.1.1, f.1), f.2)
  | .branch _ _ _ _ t0 t1 => part p (part p acc t0) t1

def partition (p : K → V → Bool) (s : State ws K V) (t : Tree ws K V) :
    (Tree ws K V × Tree ws K V) × State ws K V :=
  part X p ((.empty, .empty), s) t

/-- `prefix`, whose assertion fails on `Empty`. -/
def treePrefix : (t : Tree ws K V) → t ≠ .empty → Word ws
  | .empty, h => absurd rfl h
  | .leaf _ _ k _, _ => bits X k
  | .branch _ _ p _ _ _, _ => p

/-- `none` when the assertion fails. -/
def concat (s : State ws K V) (t0 t1 : Tree ws K V) : Option (Tree ws K V × State ws K V) :=
  if h0 : addr t0 = none then some (t1, s)
  else if h1 : addr t1 = none then some (t0, s)
  else
    let p0 := treePrefix X t0 (fun h => h0 (by rw [h]; rfl))
    let p1 := treePrefix X t1 (fun h => h1 (by rw [h]; rfl))
    if p0 = p1 then none
    else
      let m := branchingBit p0 p1
      some (smartBranch X s (mask p0 m) m t0 t1)

/-- `Stdlib.compare` on integers. -/
def compareInt (a b : Word ws) : ℤ := Compare.cmpOf a.toInt b.toInt

def splitAux (x : K) (s : State ws K V) :
    Tree ws K V → Option ((Tree ws K V × Option V × Tree ws K V) × State ws K V)
  | .empty => some ((.empty, none, .empty), s)
  | .leaf a u k v =>
    let c := compareInt (X.id x) (X.id k)
    if c < 0 then some ((.empty, none, .leaf a u k v), s)
    else if c = 0 then some ((.empty, some v, .empty), s)
    else some ((.leaf a u k v, none, .empty), s)
  | .branch a u p m t0 t1 =>
    if matchPrefix (bits X x) p m then
      if zeroBit (bits X x) m then do
        let r ← splitAux x s t0
        let c ← concat X r.2 r.1.2.2 t1
        some ((r.1.1, r.1.2.1, c.1), c.2)
      else do
        let r ← splitAux x s t1
        let c ← concat X r.2 t0 r.1.1
        some ((c.1, r.1.2.1, r.1.2.2), c.2)
    else
      let m' := branchingBit (bits X x) p
      if zeroBit (bits X x) m' then some ((.empty, none, .branch a u p m t0 t1), s)
      else some ((.branch a u p m t0 t1, none, .empty), s)

def split (x : K) (s : State ws K V) (t : Tree ws K V) :
    Option ((Tree ws K V × Option V × Tree ws K V) × State ws K V) :=
  splitAux X x s t

/-- `bindings`: from left to right. -/
def bindings : Tree ws K V → List (K × V)
  | .empty => []
  | .leaf _ _ k v => [(k, v)]
  | .branch _ _ _ _ t0 t1 => bindings t0 ++ bindings t1

def compareBits (b1 b2 : Word ws) : ℤ :=
  if b1 = b2 then 0
  else
    let m := branchingBit b1 b2
    if zeroBit b1 m then -1 else 1

def compare (cmp : V → V → ℤ) : Tree ws K V → Tree ws K V → ℤ
  | .empty, .empty => 0
  | .empty, _ => -1
  | _, .empty => 1
  | .leaf _ _ k1 x1, .leaf _ _ k2 x2 =>
    let c := compareInt (X.id k1) (X.id k2)
    if c ≠ 0 then c else cmp x1 x2
  | .leaf _ _ _ _, .branch _ _ _ _ _ _ => -1
  | .branch _ _ _ _ _ _, .leaf _ _ _ _ => 1
  | .branch _ _ p1 m1 l1 r1, .branch _ _ p2 m2 l2 r2 =>
    let c := compareBits p1 p2
    if c ≠ 0 then c else
    let c := compareBits m1 m2
    if c ≠ 0 then c else
    let c := compare cmp l1 l2
    if c ≠ 0 then c else compare cmp r1 r2

def addSeq (l : List (K × V)) (s : State ws K V) (m : Tree ws K V) : Tree ws K V × State ws K V :=
  l.foldl (fun r p => add X p.1 p.2 r.2 r.1) (m, s)

def ofSeq (l : List (K × V)) (s : State ws K V) : Tree ws K V × State ws K V :=
  l.foldl (fun r p => add X p.1 p.2 r.2 r.1) (.empty, s)

end Operations

/-- The argument that `MakeSet` gives to `MakeMap`. -/
def setParams {ws : WordSize} {K : Type} (id : K → Word ws) : Params ws K Unit where
  id := id
  hash := fun _ => 42
  equal := fun _ _ => true

end Why3.Hcpt
