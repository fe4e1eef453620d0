import Mathlib.Data.List.Basic
import Mathlib.Tactic

/-!
# Extended maps

The balanced trees of `Extmap.Make` and the operations that Why3 adds to those of
the standard library.  A node stores the height of its tree; the trees of two
brothers may differ by two.  Exceptions that a function given by the caller
raises pass through `change`; `translate` raises `Invalid_argument`.
-/

namespace Why3.Extmap

inductive Tree (K α : Type)
  | empty
  | node (l : Tree K α) (v : K) (d : α) (r : Tree K α) (h : ℕ)

section Balance

variable {K α : Type}

def height : Tree K α → ℕ
  | .empty => 0
  | .node _ _ _ _ h => h

def create (l : Tree K α) (x : K) (d : α) (r : Tree K α) : Tree K α :=
  let hl := height l
  let hr := height r
  .node l x d r (if hl ≥ hr then hl + 1 else hr + 1)

def singleton (x : K) (d : α) : Tree K α := .node .empty x d .empty 1

/-- The calls of `invalid_arg` are the cases that contradict a test: the height
of `Empty` is 0. -/
def bal (l : Tree K α) (x : K) (d : α) (r : Tree K α) : Tree K α :=
  if hlr : height l > height r + 2 then
    match l, hlr with
    | .empty, hlr => absurd hlr (Nat.not_lt_zero _)
    | .node ll lv ld lr _, _ =>
      if hll : height ll ≥ height lr then create ll lv ld (create lr x d r)
      else
        match lr, hll with
        | .empty, hll => absurd (Nat.zero_le _) hll
        | .node lrl lrv lrd lrr _, _ =>
          create (create ll lv ld lrl) lrv lrd (create lrr x d r)
  else if hrl : height r > height l + 2 then
    match r, hrl with
    | .empty, hrl => absurd hrl (Nat.not_lt_zero _)
    | .node rl rv rd rr _, _ =>
      if hrr : height rr ≥ height rl then create (create l x d rl) rv rd rr
      else
        match rl, hrr with
        | .empty, hrr => absurd (Nat.zero_le _) hrr
        | .node rll rlv rld rlr _, _ =>
          create (create l x d rll) rlv rld (create rlr rv rd rr)
  else
    .node l x d r (if height l ≥ height r then height l + 1 else height r + 1)

/-- `min_binding`, which raises `Not_found` on `Empty`. -/
def minBinding : (t : Tree K α) → t ≠ .empty → K × α
  | .empty, h => absurd rfl h
  | .node .empty x d _ _, _ => (x, d)
  | .node (.node ll lv ld lr lh) _ _ _ _, _ => minBinding (.node ll lv ld lr lh) (by simp)

/-- `remove_min_binding`, which raises `Invalid_argument` on `Empty`. -/
def removeMinBinding : (t : Tree K α) → t ≠ .empty → Tree K α
  | .empty, h => absurd rfl h
  | .node .empty _ _ r _, _ => r
  | .node (.node ll lv ld lr lh) x d r _, _ =>
    bal (removeMinBinding (.node ll lv ld lr lh) (by simp)) x d r

/-- The first `merge`. -/
def mergeBal (t1 t2 : Tree K α) : Tree K α :=
  match t1, t2 with
  | .empty, t => t
  | t, .empty => t
  | t1, .node l2 v2 d2 r2 h2 =>
    let t2 := Tree.node l2 v2 d2 r2 h2
    let xd := minBinding t2 (by simp [t2])
    bal t1 xd.1 xd.2 (removeMinBinding t2 (by simp [t2]))

def addMinBinding (k : K) (v : α) : Tree K α → Tree K α
  | .empty => singleton k v
  | .node l x d r _ => bal (addMinBinding k v l) x d r

def addMaxBinding (k : K) (v : α) : Tree K α → Tree K α
  | .empty => singleton k v
  | .node l x d r _ => bal l x d (addMaxBinding k v r)

def join (l : Tree K α) (v : K) (d : α) (r : Tree K α) : Tree K α :=
  match l, r with
  | .empty, r => addMinBinding v d r
  | l, .empty => addMaxBinding v d l
  | .node ll lv ld lr lh, .node rl rv rd rr rh =>
    if lh > rh + 2 then bal ll lv ld (join lr v d (.node rl rv rd rr rh))
    else if rh > lh + 2 then bal (join (.node ll lv ld lr lh) v d rl) rv rd rr
    else create (.node ll lv ld lr lh) v d (.node rl rv rd rr rh)
  termination_by sizeOf l + sizeOf r

def concat (t1 t2 : Tree K α) : Tree K α :=
  match t1, t2 with
  | .empty, t => t
  | t, .empty => t
  | t1, .node l2 v2 d2 r2 h2 =>
    let t2 := Tree.node l2 v2 d2 r2 h2
    let xd := minBinding t2 (by simp [t2])
    join t1 xd.1 xd.2 (removeMinBinding t2 (by simp [t2]))

def concatOrJoin (t1 : Tree K α) (v : K) (d : Option α) (t2 : Tree K α) : Tree K α :=
  match d with
  | some d => join t1 v d t2
  | none => concat t1 t2

def fold {γ : Type} (f : K → α → γ → γ) (m : Tree K α) (accu : γ) : γ :=
  match m with
  | .empty => accu
  | .node l v d r _ => fold f r (f v d (fold f l accu))

def cardinal : Tree K α → ℕ
  | .empty => 0
  | .node l _ _ r _ => cardinal l + 1 + cardinal r

end Balance

/-! ## The number of bindings

The rotations keep it; the recursions on two trees below descend on it. -/

section Cardinal

variable {K α : Type}

@[simp] theorem cardinal_empty : cardinal (.empty : Tree K α) = 0 := rfl

@[simp] theorem cardinal_node (l : Tree K α) (v : K) (d : α) (r : Tree K α) (h : ℕ) :
    cardinal (.node l v d r h) = cardinal l + 1 + cardinal r := rfl

@[simp] theorem cardinal_create (l : Tree K α) (x : K) (d : α) (r : Tree K α) :
    cardinal (create l x d r) = cardinal l + 1 + cardinal r := rfl

theorem bal_cases {motive : Tree K α → Prop} (l : Tree K α) (x : K) (d : α) (r : Tree K α)
    (right : ∀ ll lv ld lr lh, l = .node ll lv ld lr lh → height l > height r + 2 →
      height ll ≥ height lr → motive (create ll lv ld (create lr x d r)))
    (leftRight : ∀ ll lv ld lrl lrv lrd lrr lrh lh,
      l = .node ll lv ld (.node lrl lrv lrd lrr lrh) lh → height l > height r + 2 →
      height ll < lrh → motive (create (create ll lv ld lrl) lrv lrd (create lrr x d r)))
    (left : ∀ rl rv rd rr rh, r = .node rl rv rd rr rh → height r > height l + 2 →
      height rr ≥ height rl → motive (create (create l x d rl) rv rd rr))
    (rightLeft : ∀ rll rlv rld rlr rlh rv rd rr rh,
      r = .node (.node rll rlv rld rlr rlh) rv rd rr rh → height r > height l + 2 →
      height rr < rlh → motive (create (create l x d rll) rlv rld (create rlr rv rd rr)))
    (node : height l ≤ height r + 2 → height r ≤ height l + 2 → motive (create l x d r)) :
    motive (bal l x d r) := by
  unfold bal
  split
  · next hlr =>
      cases l with
      | empty => exact absurd hlr (Nat.not_lt_zero _)
      | node ll lv ld lr lh =>
        dsimp only
        split
        · next hll => exact right _ _ _ _ _ rfl hlr hll
        · next hll =>
            cases lr with
            | empty => exact absurd (Nat.zero_le _) hll
            | node lrl lrv lrd lrr lrh =>
              exact leftRight _ _ _ _ _ _ _ _ _ rfl hlr (Nat.lt_of_not_le hll)
  · next hlr =>
      split
      · next hrl =>
          cases r with
          | empty => exact absurd hrl (Nat.not_lt_zero _)
          | node rl rv rd rr rh =>
            dsimp only
            split
            · next hrr => exact left _ _ _ _ _ rfl hrl hrr
            · next hrr =>
                cases rl with
                | empty => exact absurd (Nat.zero_le _) hrr
                | node rll rlv rld rlr rlh =>
                  exact rightLeft _ _ _ _ _ _ _ _ _ rfl hrl (Nat.lt_of_not_le hrr)
      · next hrl => exact node (Nat.le_of_not_lt hlr) (Nat.le_of_not_lt hrl)

@[simp] theorem cardinal_bal (l : Tree K α) (x : K) (d : α) (r : Tree K α) :
    cardinal (bal l x d r) = cardinal l + 1 + cardinal r := by
  refine bal_cases (motive := fun t => cardinal t = cardinal l + 1 + cardinal r) l x d r ?_ ?_ ?_ ?_ ?_
  · rintro ll lv ld lr lh rfl _ _
    simp only [cardinal_create, cardinal_node]
    omega
  · rintro ll lv ld lrl lrv lrd lrr lrh lh rfl _ _
    simp only [cardinal_create, cardinal_node]
    omega
  · rintro rl rv rd rr rh rfl _ _
    simp only [cardinal_create, cardinal_node]
    omega
  · rintro rll rlv rld rlr rlh rv rd rr rh rfl _ _
    simp only [cardinal_create, cardinal_node]
    omega
  · intro _ _
    rw [cardinal_create]

theorem cardinal_addMinBinding (k : K) (v : α) (t : Tree K α) :
    cardinal (addMinBinding k v t) = cardinal t + 1 := by
  induction t with
  | empty => rfl
  | node l x d r h ihl _ =>
    rw [addMinBinding, cardinal_bal, ihl, cardinal_node]
    omega

theorem cardinal_addMaxBinding (k : K) (v : α) (t : Tree K α) :
    cardinal (addMaxBinding k v t) = cardinal t + 1 := by
  induction t with
  | empty => rfl
  | node l x d r h _ ihr =>
    rw [addMaxBinding, cardinal_bal, ihr, cardinal_node]
    omega

@[simp] theorem cardinal_join (l : Tree K α) (v : K) (d : α) (r : Tree K α) :
    cardinal (join l v d r) = cardinal l + 1 + cardinal r := by
  fun_induction join l v d r with
  | case1 => rw [cardinal_addMinBinding, cardinal_empty]; omega
  | case2 => rw [cardinal_addMaxBinding, cardinal_empty]
  | case3 _ _ _ _ _ _ _ _ _ _ _ ih | case4 _ _ _ _ _ _ _ _ _ _ _ _ ih =>
    rw [cardinal_bal, ih]
    simp only [cardinal_node]
    omega
  | case5 => rfl

end Cardinal

/-! ## Searching and splitting -/

section Search

variable {K α : Type} (cmp : K → K → Ordering)

def findOpt (x : K) : Tree K α → Option α
  | .empty => none
  | .node l v d r _ =>
    match cmp x v with
    | .eq => some d
    | .lt => findOpt x l
    | .gt => findOpt x r

def split (x : K) : Tree K α → Tree K α × Option α × Tree K α
  | .empty => (.empty, none, .empty)
  | .node l v d r _ =>
    match cmp x v with
    | .eq => (l, some d, r)
    | .lt =>
      let s := split x l
      (s.1, s.2.1, join s.2.2 v d r)
    | .gt =>
      let s := split x r
      (join l v d s.1, s.2.1, s.2.2)

theorem cardinal_split (x : K) (t : Tree K α) :
    cardinal (split cmp x t).1 + cardinal (split cmp x t).2.2 ≤ cardinal t := by
  induction t with
  | empty => exact Nat.le_refl _
  | node l v d r h ihl ihr =>
    rw [split, cardinal_node]
    split
    · dsimp only
      omega
    · dsimp only
      rw [cardinal_join]
      omega
    · dsimp only
      rw [cardinal_join]
      omega

end Search

/-! ## Two trees at once -/

section Pairs

variable {K α β γ : Type} (cmp : K → K → Ordering)

def union (f : K → α → α → Option α) (s1 s2 : Tree K α) : Tree K α :=
  match s1, s2 with
  | .empty, s => s
  | s, .empty => s
  | .node l1 v1 d1 r1 h1, .node l2 v2 d2 r2 h2 =>
    if h1 ≥ h2 then
      let s := split cmp v1 (.node l2 v2 d2 r2 h2)
      let l := union f l1 s.1
      let r := union f r1 s.2.2
      match s.2.1 with
      | none => join l v1 d1 r
      | some d2 => concatOrJoin l v1 (f v1 d1 d2) r
    else
      let s := split cmp v2 (.node l1 v1 d1 r1 h1)
      let l := union f s.1 l2
      let r := union f s.2.2 r2
      match s.2.1 with
      | none => join l v2 d2 r
      | some d1 => concatOrJoin l v2 (f v2 d1 d2) r
  termination_by cardinal s1 + cardinal s2
  decreasing_by
    all_goals
      have h2 := cardinal_split cmp v1 (.node l2 v2 d2 r2 h2)
      have h1 := cardinal_split cmp v2 (.node l1 v1 d1 r1 h1)
      simp only [cardinal_node] at h1 h2 ⊢
      omega

def inter (f : K → α → β → Option γ) : Tree K α → Tree K β → Tree K γ
  | .empty, _ => .empty
  | _, .empty => .empty
  | .node l1 v1 d1 r1 _, t2 =>
    match split cmp v1 t2 with
    | (l2, none, r2) => concat (inter f l1 l2) (inter f r1 r2)
    | (l2, some d2, r2) =>
      concatOrJoin (inter f l1 l2) v1 (f v1 d1 d2) (inter f r1 r2)

def diff (f : K → α → β → Option α) : Tree K α → Tree K β → Tree K α
  | .empty, _ => .empty
  | t1, .empty => t1
  | .node l1 v1 d1 r1 _, t2 =>
    match split cmp v1 t2 with
    | (l2, none, r2) => join (diff f l1 l2) v1 d1 (diff f r1 r2)
    | (l2, some d2, r2) =>
      concatOrJoin (diff f l1 l2) v1 (f v1 d1 d2) (diff f r1 r2)

/-- The nodes of height 0 stand for a part of the first tree. -/
def submap (pr : K → α → β → Bool) (s1 : Tree K α) (s2 : Tree K β) : Bool :=
  match s1, s2 with
  | .empty, _ => true
  | _, .empty => false
  | .node l1 v1 d1 r1 _, .node l2 v2 d2 r2 h2 =>
    match cmp v1 v2 with
    | .eq => pr v1 d1 d2 && submap pr l1 l2 && submap pr r1 r2
    | .lt => submap pr (.node l1 v1 d1 .empty 0) l2 && submap pr r1 (.node l2 v2 d2 r2 h2)
    | .gt => submap pr (.node .empty v1 d1 r1 0) r2 && submap pr l1 (.node l2 v2 d2 r2 h2)
  termination_by cardinal s1 + cardinal s2
  decreasing_by all_goals simp only [cardinal_node, cardinal_empty]; omega

def disjoint (pr : K → α → β → Bool) (s1 : Tree K α) (s2 : Tree K β) : Bool :=
  match s1, s2 with
  | .empty, _ => true
  | _, .empty => true
  | .node l1 v1 d1 r1 _, .node l2 v2 d2 r2 h2 =>
    match cmp v1 v2 with
    | .eq => pr v1 d1 d2 && disjoint pr l1 l2 && disjoint pr r1 r2
    | .lt =>
      disjoint pr (.node l1 v1 d1 .empty 0) l2 && disjoint pr r1 (.node l2 v2 d2 r2 h2)
    | .gt =>
      disjoint pr (.node .empty v1 d1 r1 0) r2 && disjoint pr l1 (.node l2 v2 d2 r2 h2)
  termination_by cardinal s1 + cardinal s2
  decreasing_by all_goals simp only [cardinal_node, cardinal_empty]; omega

end Pairs

/-! ## Enumerations -/

section Enumeration

inductive Enumeration (K α : Type)
  | done
  | more (v : K) (d : α) (r : Tree K α) (e : Enumeration K α)

variable {K α β γ : Type}

def consEnum (m : Tree K α) (e : Enumeration K α) : Enumeration K α :=
  match m with
  | .empty => e
  | .node l v d r _ => consEnum l (.more v d r e)

/-- The number of bindings left. -/
def Enumeration.size : Enumeration K α → ℕ
  | .done => 0
  | .more _ _ r e => 1 + cardinal r + e.size

@[simp] theorem size_consEnum (m : Tree K α) (e : Enumeration K α) :
    (consEnum m e).size = cardinal m + e.size := by
  induction m generalizing e with
  | empty => simp [consEnum]
  | node l v d r h ihl _ =>
    rw [consEnum, ihl, cardinal_node, Enumeration.size]
    omega

variable (cmp : K → K → Ordering)

def compareAux (c : α → β → Ordering) (e1 : Enumeration K α) (e2 : Enumeration K β) : Ordering :=
  match e1, e2 with
  | .done, .done => .eq
  | .done, _ => .lt
  | _, .done => .gt
  | .more v1 d1 r1 e1, .more v2 d2 r2 e2 =>
    match cmp v1 v2 with
    | .eq =>
      match c d1 d2 with
      | .eq => compareAux c (consEnum r1 e1) (consEnum r2 e2)
      | o => o
    | o => o
  termination_by e1.size + e2.size
  decreasing_by simp only [size_consEnum, Enumeration.size]; omega

def compare (c : α → β → Ordering) (m1 : Tree K α) (m2 : Tree K β) : Ordering :=
  compareAux cmp c (consEnum m1 .done) (consEnum m2 .done)

def equalAux (c : α → β → Bool) (e1 : Enumeration K α) (e2 : Enumeration K β) : Bool :=
  match e1, e2 with
  | .done, .done => true
  | .done, _ => false
  | _, .done => false
  | .more v1 d1 r1 e1, .more v2 d2 r2 e2 =>
    cmp v1 v2 == .eq && c d1 d2 && equalAux c (consEnum r1 e1) (consEnum r2 e2)
  termination_by e1.size + e2.size
  decreasing_by simp only [size_consEnum, Enumeration.size]; omega

def equal (c : α → β → Bool) (m1 : Tree K α) (m2 : Tree K β) : Bool :=
  equalAux cmp c (consEnum m1 .done) (consEnum m2 .done)

def fold2InterAux (f : K → α → β → γ → γ) (acc : γ) (e1 : Enumeration K α)
    (e2 : Enumeration K β) : γ :=
  match e1, e2 with
  | .done, _ => acc
  | _, .done => acc
  | .more v1 d1 r1 e1, .more v2 d2 r2 e2 =>
    match cmp v1 v2 with
    | .eq => fold2InterAux f (f v1 d1 d2 acc) (consEnum r1 e1) (consEnum r2 e2)
    | .lt => fold2InterAux f acc (consEnum r1 e1) (.more v2 d2 r2 e2)
    | .gt => fold2InterAux f acc (.more v1 d1 r1 e1) (consEnum r2 e2)
  termination_by e1.size + e2.size
  decreasing_by all_goals simp only [size_consEnum, Enumeration.size]; omega

def fold2Inter (f : K → α → β → γ → γ) (m1 : Tree K α) (m2 : Tree K β) (acc : γ) : γ :=
  fold2InterAux cmp f acc (consEnum m1 .done) (consEnum m2 .done)

def fold2UnionAux (f : K → Option α → Option β → γ → γ) (acc : γ) (e1 : Enumeration K α)
    (e2 : Enumeration K β) : γ :=
  match e1, e2 with
  | .done, .done => acc
  | .done, .more v2 d2 r2 e2 => fold2UnionAux f (f v2 none (some d2) acc) .done (consEnum r2 e2)
  | .more v1 d1 r1 e1, .done => fold2UnionAux f (f v1 (some d1) none acc) (consEnum r1 e1) .done
  | .more v1 d1 r1 e1, .more v2 d2 r2 e2 =>
    match cmp v1 v2 with
    | .eq =>
      fold2UnionAux f (f v1 (some d1) (some d2) acc) (consEnum r1 e1) (consEnum r2 e2)
    | .lt => fold2UnionAux f (f v1 (some d1) none acc) (consEnum r1 e1) (.more v2 d2 r2 e2)
    | .gt => fold2UnionAux f (f v2 none (some d2) acc) (.more v1 d1 r1 e1) (consEnum r2 e2)
  termination_by e1.size + e2.size
  decreasing_by all_goals simp only [size_consEnum, Enumeration.size]; omega

def fold2Union (f : K → Option α → Option β → γ → γ) (m1 : Tree K α) (m2 : Tree K β)
    (acc : γ) : γ :=
  fold2UnionAux cmp f acc (consEnum m1 .done) (consEnum m2 .done)

def startEnum (s : Tree K α) : Enumeration K α := consEnum s .done

def valEnum : Enumeration K α → Option (K × α)
  | .done => none
  | .more v d _ _ => some (v, d)

def nextEnum : Enumeration K α → Enumeration K α
  | .done => .done
  | .more _ _ r e => consEnum r e

def consGeEnum (k : K) (m : Tree K α) (e : Enumeration K α) : Enumeration K α :=
  match m with
  | .empty => e
  | .node l v d r _ =>
    match cmp k v with
    | .eq => .more v d r e
    | .lt => consGeEnum k l (.more v d r e)
    | .gt => consGeEnum k r e

def startGeEnum (k : K) (m : Tree K α) : Enumeration K α := consGeEnum cmp k m .done

/-- The first `next_ge_enum`; `r0` holds what comes before the enumeration. -/
def nextGeEnumAux (k : K) (r0 : Tree K α) (e0 : Enumeration K α) : Enumeration K α :=
  match e0 with
  | .done => startGeEnum cmp k r0
  | .more v d r e =>
    match cmp k v with
    | .eq => .more v d r e
    | .lt => consGeEnum cmp k r0 (.more v d r e)
    | .gt => nextGeEnumAux k r e

def nextGeEnum (k : K) (e : Enumeration K α) : Enumeration K α := nextGeEnumAux cmp k .empty e

end Enumeration

/-! ## The other added operations -/

section Added

variable {K α β γ ε : Type} (cmp : K → K → Ordering)

/-- The function may raise an exception. -/
def change (f : Option α → Except ε (Option α)) (x : K) : Tree K α → Except ε (Tree K α)
  | .empty => do
    match ← f none with
    | none => pure .empty
    | some d => pure (.node .empty x d .empty 1)
  | .node l v d r h =>
    match cmp x v with
    | .eq => do
      match ← f (some d) with
      | none => pure (mergeBal l r)
      | some d => pure (.node l x d r h)
    | .lt => do
      let l ← change f x l
      pure (bal l v d r)
    | .gt => do
      let r ← change f x r
      pure (bal l v d r)

def setUnion (m1 m2 : Tree K α) : Tree K α := union cmp (fun _ x _ => some x) m1 m2
def setInter (m1 : Tree K α) (m2 : Tree K β) : Tree K α := inter cmp (fun _ x _ => some x) m1 m2
def setDiff (m1 : Tree K α) (m2 : Tree K β) : Tree K α := diff cmp (fun _ _ _ => none) m1 m2
def setSubmap (m1 : Tree K α) (m2 : Tree K β) : Bool := submap cmp (fun _ _ _ => true) m1 m2
def setDisjoint (m1 : Tree K α) (m2 : Tree K β) : Bool := disjoint cmp (fun _ _ _ => false) m1 m2
def setCompare (m1 : Tree K α) (m2 : Tree K β) : Ordering := compare cmp (fun _ _ => .eq) m1 m2
def setEqual (m1 : Tree K α) (m2 : Tree K β) : Bool := equal cmp (fun _ _ => true) m1 m2

def mapFilter (f : α → Option β) : Tree K α → Tree K β
  | .empty => .empty
  | .node l v d r _ => concatOrJoin (mapFilter f l) v (f d) (mapFilter f r)

def mapiFilter (f : K → α → Option β) : Tree K α → Tree K β
  | .empty => .empty
  | .node l v d r _ => concatOrJoin (mapiFilter f l) v (f v d) (mapiFilter f r)

def mapiFold (f : K → α → γ → γ × β) (m : Tree K α) (acc : γ) : γ × Tree K β :=
  match m with
  | .empty => (acc, .empty)
  | .node l v d r h =>
    let (acc, l') := mapiFold f l acc
    let (acc, d') := f v d acc
    let (acc, r') := mapiFold f r acc
    (acc, .node l' v d' r' h)

def mapiFilterFold (f : K → α → γ → γ × Option β) (m : Tree K α) (acc : γ) : γ × Tree K β :=
  match m with
  | .empty => (acc, .empty)
  | .node l v d r _ =>
    let (acc, l') := mapiFilterFold f l acc
    let (acc, d') := f v d acc
    let (acc, r') := mapiFilterFold f r acc
    (acc, concatOrJoin l' v d' r')

/-- `Invalid_argument`. -/
structure InvalidArg where
  text : String
  deriving DecidableEq

def checkLast (last : Option K) (v : K) : Except InvalidArg Unit :=
  match last with
  | none => .ok ()
  | some last =>
    if cmp last v ≠ .lt then .error ⟨"Map.translate: invalid function parameter"⟩ else .ok ()

def translateAux (f : K → K) (last : Option K) :
    Tree K α → Except InvalidArg (Tree K α × Option K)
  | .empty => .ok (.empty, last)
  | .node l v d r h => do
    let (l, last) ← translateAux f last l
    let v := f v
    checkLast cmp last v
    let (r, last) ← translateAux f (some v) r
    .ok (.node l v d r h, last)

def translate (f : K → K) (m : Tree K α) : Except InvalidArg (Tree K α) := do
  let (m, _) ← translateAux cmp f none m
  .ok m

def addNew (e : ε) (x : K) (v : α) (m : Tree K α) : Except ε (Tree K α) :=
  change cmp (fun o => match o with
    | some _ => .error e
    | none => .ok (some v)) x m

def replace (e : ε) (x : K) (v : α) (m : Tree K α) : Except ε (Tree K α) :=
  change cmp (fun o => match o with
    | some _ => .ok (some v)
    | none => .error e) x m

/-- `raise Exit` ends the fold: `none` stands for it. -/
def isNumElt (n : ℤ) (m : Tree K α) : Bool :=
  fold (fun _ _ n => n.bind (fun n => if n < 0 then none else some (n - 1))) m (some n) == some 0

end Added

end Why3.Extmap
