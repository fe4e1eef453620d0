import Why3.Util.ExtmapRefines

/-!
# Difference maps

`util/diffmap.ml`: maps that share one mutable map.  A handle is a reference to the map
itself or to a difference with another handle; `get` moves the map to the handle that is
read, and reverses the differences on the way.

A reference is an address of the heap.  The functor `MakeOfMap` takes the maps and their
operations as an argument, and so do the definitions below.
-/

namespace Why3.Diffmap

open List Option Function

/-- `exception Duplicate`. -/
inductive Duplicate
  | duplicate
deriving DecidableEq

/-- What `MakeOfMap` uses of its argument; `union` is `M.union (fun _ _ _ -> raise Duplicate)`. -/
structure Maps (K V : Type) where
  T : Type
  find : T → K → Option V
  empty : T
  isEmpty : T → Bool
  union : T → T → Except Duplicate T
  setDiff : T → T → T
  find_empty : ∀ k, find empty k = none
  isEmpty_iff : ∀ m, isEmpty m = true ↔ ∀ k, find m k = none
  union_error : ∀ m d, (∃ e, union m d = .error e) ↔ ∃ k, (find m k).isSome ∧ (find d k).isSome
  find_union : ∀ {m d u}, union m d = .ok u → ∀ k, find u k = (find m k).or (find d k)
  find_setDiff : ∀ m d k, find (setDiff m d) k = if (find d k).isSome then none else find m k

variable {K V : Type}

section Code

variable (M : Maps K V)

/-- `diff`. -/
inductive Diff
  | madd (d : M.T) (y : ℕ)
  | msub (d : M.T) (y : ℕ)
  | mmap (m : M.T)

/-- The references, at the addresses below `size`. -/
structure Heap where
  size : ℕ
  cells : ℕ → Diff M

end Code

variable {M : Maps K V}

/-- `x.diff <- c`. -/
def Heap.set (h : Heap M) (x : ℕ) (c : Diff M) : Heap M :=
  { h with cells := update h.cells x c }

/-- `{ diff = c }`. -/
def Heap.alloc (h : Heap M) (c : Diff M) : Heap M × ℕ :=
  (⟨h.size + 1, update h.cells h.size c⟩, h.size)

/-- `get`; `none` is a recursion that does not end within the fuel. -/
def getAux : ℕ → Heap M → ℕ → Option (Heap M × Except Duplicate M.T)
  | 0, _, _ => none
  | fuel + 1, h, x =>
    match h.cells x with
    | .madd d y =>
      match getAux fuel h y with
      | some (h, .ok my) =>
        match M.union my d with
        | .ok mx => some ((h.set y (.msub d x)).set x (.mmap mx), .ok mx)
        | .error e => some (h, .error e)
      | r => r
    | .msub d y =>
      match getAux fuel h y with
      | some (h, .ok my) =>
        let mx := M.setDiff my d
        some ((h.set y (.madd d x)).set x (.mmap mx), .ok mx)
      | r => r
    | .mmap mx => some (h, .ok mx)

/-- The recursion of `get` is not deeper than there are references. -/
def get (h : Heap M) (x : ℕ) : Option (Heap M × Except Duplicate M.T) := getAux h.size h x

def union (h : Heap M) (x : ℕ) (d : M.T) : Option (Heap M × Except Duplicate ℕ) :=
  if M.isEmpty d then some (h, .ok x)
  else
    match get h x with
    | some (h, .ok mx) =>
      match M.union mx d with
      | .ok my =>
        let (h, y) := h.alloc (.mmap my)
        some (h.set x (.msub d y), .ok y)
      | .error e => some (h, .error e)
    | some (h, .error e) => some (h, .error e)
    | none => none

/-! ## Runs -/

section Runs

variable (M)

/-- A call, on handles returned before. -/
inductive Op
  | empty
  | create (m : M.T)
  | union (x : ℕ) (d : M.T)
  | get (x : ℕ)

/-- A result: a handle, a map or the exception. -/
inductive Res (T : Type)
  | handle (x : ℕ)
  | map (m : T)
  | raised (e : Duplicate)

end Runs

/-- One call; `none` is one that does not end, or whose handle does not exist. -/
def step (h : Heap M) : Op M → Option (Heap M × Res M.T)
  | .empty =>
    let (h, x) := h.alloc (.mmap M.empty)
    some (h, .handle x)
  | .create m =>
    let (h, x) := h.alloc (.mmap m)
    some (h, .handle x)
  | .union x d =>
    if x < h.size then
      match union h x d with
      | some (h, .ok y) => some (h, .handle y)
      | some (h, .error e) => some (h, .raised e)
      | none => none
    else none
  | .get x =>
    if x < h.size then
      match get h x with
      | some (h, .ok m) => some (h, .map m)
      | some (h, .error e) => some (h, .raised e)
      | none => none
    else none

/-- The results of a sequence of calls. -/
def run : Heap M → List (Op M) → Option (List (Res M.T))
  | _, [] => some []
  | h, op :: ops =>
    match step h op with
    | some (h, r) => (run h ops).map (r :: ·)
    | none => none

variable (M) in
def Heap.init : Heap M := ⟨0, fun _ => .mmap M.empty⟩

/-! ## What the handles denote -/

/-- The maps denoted by the handles below `size`, as functions. -/
structure Meaning (K V : Type) where
  size : ℕ
  den : ℕ → K → Option V

variable (K V) in
def Meaning.init : Meaning K V := ⟨0, fun _ _ => none⟩

/-- A new handle denotes `g`. -/
def Meaning.alloc (s : Meaning K V) (g : K → Option V) : Meaning K V × Res (K → Option V) :=
  (⟨s.size + 1, update s.den s.size g⟩, .handle s.size)

/-- The two maps share a key. -/
def Shares (g g' : K → Option V) : Prop := ∃ k, (g k).isSome ∧ (g' k).isSome

/-- The map with the bindings of both. -/
def both (g g' : K → Option V) (k : K) : Option V := (g k).or (g' k)

open Classical in
/-- What a call is for: only `empty`, `create` and a `union` without shared key make a new
handle, and no call changes what a handle denotes. -/
noncomputable def Meaning.step (s : Meaning K V) :
    Op M → Option (Meaning K V × Res (K → Option V))
  | .empty => some (s.alloc (fun _ => none))
  | .create m => some (s.alloc (M.find m))
  | .union x d =>
    if x < s.size then
      if ∀ k, M.find d k = none then some (s, .handle x)
      else if Shares (s.den x) (M.find d) then some (s, .raised .duplicate)
      else some (s.alloc (both (s.den x) (M.find d)))
    else none
  | .get x => if x < s.size then some (s, .map (s.den x)) else none

/-- The results that the calls are to have. -/
noncomputable def Meaning.run : Meaning K V → List (Op M) → Option (List (Res (K → Option V)))
  | _, [] => some []
  | s, op :: ops =>
    match s.step op with
    | some (s, r) => (Meaning.run s ops).map (r :: ·)
    | none => none

/-- A map is compared with a function by its bindings. -/
def Res.Is : Res M.T → Res (K → Option V) → Prop
  | .handle x, .handle y => x = y
  | .map m, .map g => ∀ k, M.find m k = g k
  | .raised e, .raised e' => e = e'
  | _, _ => False

/-! ## The invariant -/

/-- The handle that a difference refers to. -/
def Diff.next : Diff M → Option ℕ
  | .madd _ y | .msub _ y => some y
  | .mmap _ => none

/-- From `x` the map is reached in `n` steps. -/
inductive Reaches (h : Heap M) : ℕ → ℕ → Prop
  | here {x} : (h.cells x).next = none → Reaches h x 0
  | step {x y n} : (h.cells x).next = some y → Reaches h y n → Reaches h x (n + 1)

/-- The reference at `x` stands for what the handle denotes. -/
def CellOk (s : Meaning K V) (x : ℕ) : Diff M → Prop
  | .madd d y => y < s.size ∧ ¬ Shares (s.den y) (M.find d) ∧ s.den x = both (s.den y) (M.find d)
  | .msub d y => y < s.size ∧ ¬ Shares (s.den x) (M.find d) ∧ s.den y = both (s.den x) (M.find d)
  | .mmap m => M.find m = s.den x

structure Inv (h : Heap M) (s : Meaning K V) : Prop where
  size : h.size = s.size
  cell : ∀ x < s.size, CellOk s x (h.cells x)
  reaches : ∀ x < s.size, ∃ n, Reaches h x n

variable {h : Heap M} {x : ℕ}

theorem Reaches.unique {n : ℕ} (hr : Reaches h x n) : ∀ {n'}, Reaches h x n' → n' = n := by
  induction hr with
  | here hx =>
    intro n' hr'
    cases hr' with
    | here _ => rfl
    | step hy _ => rw [hx] at hy; cases hy
  | step hx _ ih =>
    intro n' hr'
    cases hr' with
    | here hx' => rw [hx] at hx'; cases hx'
    | step hx' hr' =>
      rw [hx, Option.some.injEq] at hx'
      subst hx'
      rw [ih hr']

variable {c : Diff M} {s : Meaning K V}

theorem CellOk.next_lt {y : ℕ} (h : CellOk s x c) (hy : c.next = some y) : y < s.size := by
  cases c with
  | madd d z => cases hy; exact h.1
  | msub d z => cases hy; exact h.1
  | mmap m => cases hy

/-- The references on the way are different, so that there are not more of them than
references. -/
theorem Reaches.lt_size (hinv : Inv h s) {n : ℕ} (hr : Reaches h x n) (hx : x < s.size) :
    n < h.size := by
  have hpath : ∃ l : List ℕ, l.length = n + 1 ∧ l.Nodup ∧
      ∀ z ∈ l, z < s.size ∧ ∃ j ≤ n, Reaches h z j := by
    induction hr with
    | @here x hnext =>
      refine ⟨[x], rfl, nodup_singleton x, ?_⟩
      intro z hz
      obtain rfl := mem_singleton.mp hz
      exact ⟨hx, 0, le_rfl, .here hnext⟩
    | @step x y n hnext hr ih =>
      obtain ⟨l, hlen, hnd, hl⟩ := ih ((hinv.cell x hx).next_lt hnext)
      refine ⟨x :: l, by rw [length_cons, hlen], ?_, ?_⟩
      · refine nodup_cons.mpr ⟨fun hmem => ?_, hnd⟩
        obtain ⟨_, j, hj, hrj⟩ := hl x hmem
        have := Reaches.unique (.step hnext hr) hrj
        omega
      · rw [forall_mem_cons]
        refine ⟨⟨hx, n + 1, le_rfl, .step hnext hr⟩, fun z hz => ?_⟩
        obtain ⟨hzs, j, hj, hrj⟩ := hl z hz
        exact ⟨hzs, j, by omega, hrj⟩
  obtain ⟨l, hlen, hnd, hl⟩ := hpath
  have hsub : l ⊆ List.range s.size := fun z hz => mem_range.mpr (hl z hz).1
  have hle := (List.Nodup.subperm hnd hsub).length_le
  rw [length_range, hlen] at hle
  rw [hinv.size]
  omega

/-! ## Moving the map -/

@[simp] theorem Heap.set_size (h : Heap M) (x : ℕ) (c : Diff M) : (h.set x c).size = h.size := rfl

theorem Heap.set_cells (h : Heap M) (x : ℕ) (c : Diff M) :
    (h.set x c).cells = update h.cells x c := rfl

/-- The map moves from `y` to `x`, and `y` becomes a difference with `x`. -/
theorem Inv.move (hinv : Inv h s) {y : ℕ} {mx : M.T} (hxy : y ≠ x) (hc : CellOk s y c)
    (hnext : c.next = some x) (hmx : M.find mx = s.den x) :
    Inv ((h.set y c).set x (.mmap mx)) s := by
  have hcx : ((h.set y c).set x (.mmap mx)).cells x = .mmap mx := by
    rw [Heap.set_cells, update_self]
  have hcy : ((h.set y c).set x (.mmap mx)).cells y = c := by
    rw [Heap.set_cells, update_of_ne hxy, Heap.set_cells, update_self]
  have hother : ∀ z, z ≠ x → z ≠ y → ((h.set y c).set x (.mmap mx)).cells z = h.cells z := by
    intro z hzx hzy
    rw [Heap.set_cells, update_of_ne hzx, Heap.set_cells, update_of_ne hzy]
  have hroot : Reaches ((h.set y c).set x (.mmap mx)) x 0 := .here (by rw [hcx]; rfl)
  have hy1 : Reaches ((h.set y c).set x (.mmap mx)) y 1 := .step (by rw [hcy, hnext]) hroot
  refine ⟨hinv.size, ?_, ?_⟩
  · intro z hz
    by_cases hzx : z = x
    · subst hzx
      rw [hcx]
      exact hmx
    · by_cases hzy : z = y
      · subst hzy
        rw [hcy]
        exact hc
      · rw [hother z hzx hzy]
        exact hinv.cell z hz
  · intro z hz
    obtain ⟨n, hr⟩ := hinv.reaches z hz
    clear hz
    -- a way that does not meet `x` ends at `y` or does not change
    induction hr with
    | @here z hz =>
      by_cases hzx : z = x
      · subst hzx
        exact ⟨0, hroot⟩
      · by_cases hzy : z = y
        · subst hzy
          exact ⟨1, hy1⟩
        · exact ⟨0, .here (by rw [hother z hzx hzy, hz])⟩
    | @step z w n hz _ ih =>
      by_cases hzx : z = x
      · subst hzx
        exact ⟨0, hroot⟩
      · by_cases hzy : z = y
        · subst hzy
          exact ⟨1, hy1⟩
        · obtain ⟨n', hr'⟩ := ih
          exact ⟨n' + 1, .step (by rw [hother z hzx hzy, hz]) hr'⟩

variable {d m : M.T}

theorem find_setDiff_both {g : K → Option V} (hd : ¬ Shares g (M.find d))
    (hm : M.find m = both g (M.find d)) : M.find (M.setDiff m d) = g := by
  funext k
  rw [M.find_setDiff, hm, both]
  split_ifs with hk
  · cases hg : g k with
    | none => rfl
    | some v => exact absurd ⟨k, by rw [hg]; rfl, hk⟩ hd
  · cases hf : M.find d k with
    | none => rw [or_none]
    | some v => rw [hf] at hk; exact absurd rfl hk

theorem union_ok (h : ¬ Shares (M.find m) (M.find d)) :
    ∃ u, M.union m d = .ok u ∧ M.find u = both (M.find m) (M.find d) := by
  cases hu : M.union m d with
  | error e => exact absurd ((M.union_error m d).mp ⟨e, hu⟩) h
  | ok u => exact ⟨u, rfl, funext (M.find_union hu)⟩

/-- `get` returns what the handle denotes, and keeps the invariant. -/
theorem getAux_spec {fuel : ℕ} : ∀ {h : Heap M} {x n : ℕ}, Inv h s →
    x < s.size → Reaches h x n → n < fuel → ∃ h' m, getAux fuel h x = some (h', .ok m) ∧
      M.find m = s.den x ∧ Inv h' s := by
  induction fuel with
  | zero => intro h x n _ _ _ hn; exact absurd hn (Nat.not_lt_zero n)
  | succ fuel ih =>
    intro h x n hinv hx hr hn
    have hcell := hinv.cell x hx
    rw [getAux]
    cases hc : h.cells x with
    | mmap m =>
      rw [hc] at hcell
      exact ⟨h, m, rfl, hcell, hinv⟩
    | madd d y =>
      rw [hc] at hcell
      obtain ⟨hy, hshare, hden⟩ := hcell
      cases hr with
      | here hnext => rw [hc] at hnext; cases hnext
      | @step _ z n hnext hr =>
        rw [hc] at hnext
        cases hnext
        have hne : y ≠ x := by
          rintro rfl
          have := Reaches.unique hr (.step (by rw [hc]; rfl) hr)
          omega
        obtain ⟨h', my, hget, hmy, hinv'⟩ := ih hinv hy hr (by omega)
        rw [← hmy] at hshare
        obtain ⟨mx, hmx, hfind⟩ := union_ok hshare
        simp only [hget, hmx]
        rw [hmy] at hshare hfind
        refine ⟨_, mx, rfl, hfind.trans hden.symm, ?_⟩
        exact hinv'.move hne ⟨hx, hshare, hden⟩ rfl (hfind.trans hden.symm)
    | msub d y =>
      rw [hc] at hcell
      obtain ⟨hy, hshare, hden⟩ := hcell
      cases hr with
      | here hnext => rw [hc] at hnext; cases hnext
      | @step _ z n hnext hr =>
        rw [hc] at hnext
        cases hnext
        have hne : y ≠ x := by
          rintro rfl
          have := Reaches.unique hr (.step (by rw [hc]; rfl) hr)
          omega
        obtain ⟨h', my, hget, hmy, hinv'⟩ := ih hinv hy hr (by omega)
        have hfind := find_setDiff_both hshare (hmy.trans hden)
        simp only [hget]
        refine ⟨_, _, rfl, hfind, ?_⟩
        exact hinv'.move hne ⟨hx, hshare, hden⟩ rfl hfind

theorem get_spec (hinv : Inv h s) (hx : x < s.size) :
    ∃ h' m, get h x = some (h', .ok m) ∧ M.find m = s.den x ∧ Inv h' s := by
  obtain ⟨n, hr⟩ := hinv.reaches x hx
  exact getAux_spec hinv hx hr (hr.lt_size hinv hx)

/-! ## New handles -/

theorem CellOk.alloc (hx : x < s.size) (h : CellOk s x c) (g : K → Option V) :
    CellOk (s.alloc g).1 x c := by
  have hold : ∀ z < s.size, (s.alloc g).1.den z = s.den z :=
    fun z hz => update_of_ne (Nat.ne_of_lt hz) _ _
  have hsize : (s.alloc g).1.size = s.size + 1 := rfl
  cases c with
  | mmap m => exact h.trans (hold x hx).symm
  | madd d y | msub d y =>
    obtain ⟨hy, h⟩ := h
    refine ⟨by omega, ?_⟩
    rw [hold x hx, hold y hy]
    exact h

theorem Inv.alloc (hinv : Inv h s) {g : K → Option V} (hm : M.find m = g) :
    Inv (h.alloc (.mmap m)).1 (s.alloc g).1 := by
  have hsize := hinv.size
  have hnew : (h.alloc (.mmap m)).1.cells s.size = .mmap m := by
    rw [← hsize]
    exact update_self _ _ _
  have hold : ∀ z < s.size, (h.alloc (.mmap m)).1.cells z = h.cells z := by
    intro z hz
    exact update_of_ne (by omega) _ _
  refine ⟨congrArg (· + 1) hsize, ?_, ?_⟩
  · intro x hx
    rcases Nat.lt_succ_iff_lt_or_eq.mp hx with hx | rfl
    · rw [hold x hx]
      exact (hinv.cell x hx).alloc hx g
    · rw [hnew]
      show M.find m = update s.den s.size g s.size
      rw [update_self, hm]
  · intro x hx
    rcases Nat.lt_succ_iff_lt_or_eq.mp hx with hx | rfl
    · obtain ⟨n, hr⟩ := hinv.reaches x hx
      refine ⟨n, ?_⟩
      clear * - hr hx hold hinv
      induction hr with
      | @here x hnext => exact .here (by rw [hold x hx, hnext])
      | @step x y n hnext _ ih =>
        exact .step (by rw [hold x hx, hnext]) (ih ((hinv.cell x hx).next_lt hnext))
    · exact ⟨0, .here (by rw [hnew]; rfl)⟩

theorem isEmpty_iff : M.isEmpty d = true ↔ ∀ k, M.find d k = none := M.isEmpty_iff d

/-! ## Every run -/

/-- A call has the result that it is to have, and keeps the invariant. -/
theorem step_spec {s' : Meaning K V} (hinv : Inv h s) {op : Op M} {r : Res (K → Option V)}
    (hs : s.step op = some (s', r)) : ∃ h' r', step h op = some (h', r') ∧ r'.Is r ∧ Inv h' s' := by
  have hsize := hinv.size
  cases op with
  | empty =>
    cases hs
    exact ⟨_, _, rfl, hsize, hinv.alloc (funext M.find_empty)⟩
  | create m =>
    cases hs
    exact ⟨_, _, rfl, hsize, hinv.alloc rfl⟩
  | get x =>
    simp only [Meaning.step] at hs
    split_ifs at hs with hx
    cases hs
    obtain ⟨h', m, hget, hm, hinv'⟩ := get_spec hinv hx
    refine ⟨h', .map m, ?_, fun k => congrFun hm k, hinv'⟩
    simp only [step, hsize, if_pos hx, hget]
  | union x d =>
    simp only [Meaning.step] at hs
    split_ifs at hs with hx hempty hshare
    · cases hs
      refine ⟨h, .handle x, ?_, rfl, hinv⟩
      simp only [step, hsize, if_pos hx, union, if_pos (isEmpty_iff.mpr hempty)]
    · cases hs
      obtain ⟨h', m, hget, hm, hinv'⟩ := get_spec hinv hx
      obtain ⟨e, he⟩ := (M.union_error m d).mpr (by rw [hm]; exact hshare)
      refine ⟨h', .raised e, ?_, rfl, hinv'⟩
      simp only [step, hsize, if_pos hx, union, if_neg (mt isEmpty_iff.mp hempty), hget, he]
    · cases hs
      obtain ⟨h', m, hget, hm, hinv'⟩ := get_spec hinv hx
      rw [← hm] at hshare
      obtain ⟨u, hu, hfind⟩ := union_ok hshare
      rw [hm] at hshare hfind
      have hne : x ≠ h'.size := by rw [hinv'.size]; omega
      refine ⟨(h'.alloc (.mmap u)).1.set x (.msub d h'.size), .handle h'.size, ?_, hinv'.size, ?_⟩
      · simp only [step, hsize, if_pos hx, union, if_neg (mt isEmpty_iff.mp hempty), hget, hu]
        rfl
      · -- the new handle gets the map, the old one becomes a difference with it
        have halloc := hinv'.alloc hfind
        have hden : (s.alloc (both (s.den x) (M.find d))).1.den x = s.den x :=
          update_of_ne (Nat.ne_of_lt hx) _ _
        have hden' : (s.alloc (both (s.den x) (M.find d))).1.den h'.size =
            both (s.den x) (M.find d) := by
          rw [hinv'.size]
          exact update_self _ _ _
        have hcells : ((h'.alloc (.mmap u)).1.set x (.msub d h'.size)).set h'.size (.mmap u) =
            (h'.alloc (.mmap u)).1.set x (.msub d h'.size) := by
          unfold Heap.set Heap.alloc
          simp only [Heap.mk.injEq, true_and]
          rw [update_comm hne, update_idem]
        rw [← hcells]
        refine halloc.move hne ⟨?_, ?_, ?_⟩ rfl (hfind.trans hden'.symm)
        · show h'.size < s.size + 1
          rw [hinv'.size]
          exact Nat.lt_succ_self _
        · rw [hden]
          exact hshare
        · rw [hden, hden']

theorem run_spec {ops : List (Op M)} : ∀ {h : Heap M} {s : Meaning K V}, Inv h s →
    ∀ {rs : List (Res (K → Option V))}, s.run ops = some rs →
      ∃ rs', run h ops = some rs' ∧ List.Forall₂ Res.Is rs' rs := by
  induction ops with
  | nil =>
    intro h s _ rs hs
    cases hs
    exact ⟨[], rfl, .nil⟩
  | cons op ops ih =>
    intro h s hinv rs hs
    rw [Meaning.run] at hs
    cases hstep : s.step op with
    | none => rw [hstep] at hs; cases hs
    | some sr =>
      obtain ⟨s', r⟩ := sr
      rw [hstep] at hs
      obtain ⟨rs₁, hrs₁, rfl⟩ := map_eq_some_iff.mp hs
      obtain ⟨h', r', hr', his, hinv'⟩ := step_spec hinv hstep
      obtain ⟨rs', hrun, hall⟩ := ih hinv' hrs₁
      refine ⟨r' :: rs', ?_, .cons his hall⟩
      simp only [run, hr', hrun, map_some]

theorem inv_init : Inv (Heap.init M) (Meaning.init K V) :=
  ⟨rfl, fun x hx => absurd hx (Nat.not_lt_zero x), fun x hx => absurd hx (Nat.not_lt_zero x)⟩

/-! ## The maps of Extmap -/

section OfMap

open Extmap

/-- `is_empty`. -/
def treeIsEmpty {α : Type} : Tree K α → Bool
  | .empty => true
  | .node .. => false

variable (V)

/-- `Diffmap.Make`: the maps are those of `Extmap.Make`.  The function given to `M.union` is
called for the shared keys, so that it raises when there is one. -/
def Maps.ofExtmap (cmp : K → K → Ordering) [Std.TransCmp cmp] : Maps K V where
  T := { m : Tree K V // Valid cmp m }
  find m k := findOpt cmp k m.1
  empty := ⟨.empty, ⟨trivial, trivial⟩⟩
  isEmpty m := treeIsEmpty m.1
  union m d :=
    if setDisjoint cmp m.1 d.1 then
      .ok ⟨setUnion cmp m.1 d.1, (pairOps.setUnion m.2 d.2).1⟩
    else .error .duplicate
  setDiff m d := ⟨Extmap.setDiff cmp m.1 d.1, (pairOps.setDiff m.2 d.2).valid⟩
  find_empty k := rfl
  isEmpty_iff := by
    rintro ⟨m, hm⟩
    cases m with
    | empty => exact ⟨fun _ k => rfl, fun _ => rfl⟩
    | node l x v r n =>
      refine ⟨fun h => (by cases h), fun h => ?_⟩
      have hx := h x
      simp only [findOpt, Std.ReflCmp.compare_self] at hx
      cases hx
  union_error := by
    intro m d
    have hfind : ∀ (m : { m : Tree K V // Valid cmp m }) k,
        (findOpt cmp k m.1).isSome = (lookup cmp m.1 k).isSome := by
      intro m k
      rw [findOpt_eq_lookup m.2, isSome_map]
    simp only [hfind]
    have hdisj := testOps.setDisjoint m.2 d.2
    by_cases h : setDisjoint cmp m.1 d.1 = true
    · rw [if_pos h]
      refine ⟨fun ⟨e, he⟩ => (by cases he), fun ⟨k, hk⟩ => absurd hk (hdisj.mp h k)⟩
    · rw [if_neg h]
      refine ⟨fun _ => ?_, fun _ => ⟨_, rfl⟩⟩
      by_contra hno
      exact h (hdisj.mpr fun k hk => hno ⟨k, hk⟩)
  find_union := by
    intro m d u h k
    split_ifs at h with hdisj
    cases h
    obtain ⟨hvalid, hlookup, -⟩ := pairOps.setUnion m.2 d.2
    rw [findOpt_eq_lookup hvalid, hlookup, findOpt_eq_lookup m.2, findOpt_eq_lookup d.2, map_or]
  find_setDiff := by
    intro m d k
    have hrep := pairOps.setDiff m.2 d.2
    rw [findOpt_eq_lookup hrep.valid, hrep.lookup, findOpt_eq_lookup m.2, findOpt_eq_lookup d.2,
      isSome_map]
    split_ifs <;> rfl

end OfMap

/-! ## The theorem -/

/-- Every sequence of calls ends, and its results are those of maps that never change:
`get` returns what the handle was made for, `union` raises exactly when a key is shared, and
what the handles denote stays. -/
theorem diffmap_persistent (M : Maps K V) (ops : List (Op M)) {rs : List (Res (K → Option V))}
    (h : (Meaning.init K V).run ops = some rs) :
    ∃ rs', run (Heap.init M) ops = some rs' ∧ List.Forall₂ Res.Is rs' rs :=
  run_spec inv_init h

/-- The map with one binding. -/
def one (k v : ℕ) : (Maps.ofExtmap ℕ (Ord.compare : ℕ → ℕ → Ordering)).T :=
  ⟨.node .empty k v .empty 1, by
    refine ⟨⟨trivial, trivial, by simp, by simp⟩, ⟨trivial, trivial, rfl, by decide, by decide⟩⟩⟩

theorem find_one (k v j : ℕ) : Maps.find _ (one k v) j = if j = k then some v else none := by
  show Extmap.findOpt Ord.compare j (.node .empty k v .empty 1) = _
  unfold Extmap.findOpt
  split_ifs with h
  · subst h
    simp
  · rcases Nat.lt_or_gt_of_ne h with h | h
    · simp [Nat.compare_eq_lt.mpr h, Extmap.findOpt]
    · simp [Nat.compare_eq_gt.mpr h, Extmap.findOpt]

/-- The first handle is read after a second one was made of it, and a key that it has
cannot be added. -/
theorem diffmap_persistent_one : ∃ rs',
    run (Heap.init (Maps.ofExtmap ℕ (Ord.compare : ℕ → ℕ → Ordering)))
      [.create (one 1 10), .union 0 (one 2 20), .get 0, .union 0 (one 1 5), .get 1] = some rs' ∧
    List.Forall₂ Res.Is rs' [.handle 0, .handle 1, .map (Maps.find _ (one 1 10)),
      .raised .duplicate, .map (both (Maps.find _ (one 1 10)) (Maps.find _ (one 2 20)))] := by
  refine diffmap_persistent _ _ ?_
  have hne : ∀ k v, ¬ ∀ j, Maps.find _ (one k v) j = none := fun k v h => by
    have hk := h k
    rw [find_one, if_pos rfl] at hk
    cases hk
  have hshare : Shares (Maps.find _ (one 1 10)) (Maps.find _ (one 1 5)) :=
    ⟨1, by rw [find_one]; rfl, by rw [find_one]; rfl⟩
  have hnot : ¬ Shares (Maps.find _ (one 1 10)) (Maps.find _ (one 2 20)) := by
    rintro ⟨k, hk₁, hk₂⟩
    rw [find_one] at hk₁ hk₂
    split_ifs at hk₁ hk₂ with h₁ h₂ <;> simp_all
  simp [Meaning.run, Meaning.step, Meaning.alloc, Meaning.init, hne, hshare, hnot]

end Why3.Diffmap
