import Why3.Lib.SortedAssoc
import Why3.Util.Extmap

/-!
# Balanced search trees

A tree lists its bindings from left to right; it is a search tree when the list
is sorted.  The functions that rebuild a node keep the list, whatever the
heights, so what they do for the heights can be proved apart.
-/

namespace Why3.Extmap

open SortedAssoc List

variable {K α β : Type}

/-! ## The bindings of a tree -/

section Lists

def toList : Tree K α → List (K × α)
  | .empty => []
  | .node l v d r _ => toList l ++ (v, d) :: toList r

@[simp] theorem toList_empty : toList (.empty : Tree K α) = [] := rfl

@[simp] theorem toList_node (l : Tree K α) (v : K) (d : α) (r : Tree K α) (h : ℕ) :
    toList (.node l v d r h) = toList l ++ (v, d) :: toList r := rfl

@[simp] theorem toList_create (l : Tree K α) (x : K) (d : α) (r : Tree K α) :
    toList (create l x d r) = toList l ++ (x, d) :: toList r := rfl

@[simp] theorem toList_bal (l : Tree K α) (x : K) (d : α) (r : Tree K α) :
    toList (bal l x d r) = toList l ++ (x, d) :: toList r := by
  refine bal_cases (motive := fun t => toList t = toList l ++ (x, d) :: toList r)
    l x d r ?_ ?_ ?_ ?_ ?_
  · rintro ll lv ld lr lh rfl _ _
    simp
  · rintro ll lv ld lrl lrv lrd lrr lrh lh rfl _ _
    simp
  · rintro rl rv rd rr rh rfl _ _
    simp
  · rintro rll rlv rld rlr rlh rv rd rr rh rfl _ _
    simp
  · intro _ _
    simp

theorem toList_removeMinBinding (t : Tree K α) (h : t ≠ .empty) :
    toList t = minBinding t h :: toList (removeMinBinding t h) := by
  fun_induction minBinding t h with
  | case1 => simp [removeMinBinding]
  | case2 ll lv ld lr lh _ _ _ _ _ ih =>
    rw [removeMinBinding, toList_bal, toList_node, ih]
    rfl

@[simp] theorem toList_mergeBal (t1 t2 : Tree K α) :
    toList (mergeBal t1 t2) = toList t1 ++ toList t2 := by
  unfold mergeBal
  split
  · simp
  · simp
  · rw [toList_bal, ← toList_removeMinBinding]

@[simp] theorem toList_addMinBinding (k : K) (v : α) (t : Tree K α) :
    toList (addMinBinding k v t) = (k, v) :: toList t := by
  induction t with
  | empty => rfl
  | node l x d r h ihl _ => rw [addMinBinding, toList_bal, ihl]; rfl

@[simp] theorem toList_addMaxBinding (k : K) (v : α) (t : Tree K α) :
    toList (addMaxBinding k v t) = toList t ++ [(k, v)] := by
  induction t with
  | empty => rfl
  | node l x d r h _ ihr => rw [addMaxBinding, toList_bal, ihr]; simp

@[simp] theorem toList_join (l : Tree K α) (v : K) (d : α) (r : Tree K α) :
    toList (join l v d r) = toList l ++ (v, d) :: toList r := by
  fun_induction join l v d r with
  | case1 => simp
  | case2 => simp
  | case3 _ _ _ _ _ _ _ _ _ _ _ ih | case4 _ _ _ _ _ _ _ _ _ _ _ _ ih => rw [toList_bal, ih]; simp
  | case5 => simp

@[simp] theorem toList_concat (t1 t2 : Tree K α) :
    toList (concat t1 t2) = toList t1 ++ toList t2 := by
  unfold concat
  split
  · simp
  · simp
  · rw [toList_join, ← toList_removeMinBinding]

@[simp] theorem toList_concatOrJoin (t1 : Tree K α) (v : K) (d : Option α) (t2 : Tree K α) :
    toList (concatOrJoin t1 v d t2) = toList t1 ++ ((d.map (v, ·)).toList ++ toList t2) := by
  cases d with
  | none => simp [concatOrJoin]
  | some d => simp [concatOrJoin]

theorem length_toList (t : Tree K α) : (toList t).length = cardinal t := by
  induction t with
  | empty => rfl
  | node l v d r h ihl ihr =>
    rw [toList_node, length_append, length_cons, ihl, ihr, cardinal_node]
    omega

theorem fold_eq_foldl {γ : Type} (f : K → α → γ → γ) (m : Tree K α) (accu : γ) :
    fold f m accu = (toList m).foldl (fun acc p => f p.1 p.2 acc) accu := by
  induction m generalizing accu with
  | empty => rfl
  | node l v d r h ihl ihr => rw [fold, ihl, ihr, toList_node, foldl_append, foldl_cons]

end Lists

/-! ## Heights -/

section Heights

/-- The stored heights are right, and those of two brothers differ by two at
most. -/
def Balanced : Tree K α → Prop
  | .empty => True
  | .node l _ _ r h => Balanced l ∧ Balanced r ∧ h = max (height l) (height r) + 1 ∧
      height l ≤ height r + 2 ∧ height r ≤ height l + 2

@[simp] theorem height_empty : height (.empty : Tree K α) = 0 := rfl

@[simp] theorem height_node (l : Tree K α) (v : K) (d : α) (r : Tree K α) (h : ℕ) :
    height (.node l v d r h) = h := rfl

@[simp] theorem height_create (l : Tree K α) (v : K) (d : α) (r : Tree K α) :
    height (create l v d r) = max (height l) (height r) + 1 := by
  rw [create, height_node]
  split <;> omega

variable {d : α} {l r : Tree K α} {v : K}

theorem Balanced.create (hl : Balanced l) (hr : Balanced r) (h₁ : height l ≤ height r + 2)
    (h₂ : height r ≤ height l + 2) : Balanced (create l v d r) :=
  ⟨hl, hr, height_create l v d r, h₁, h₂⟩

variable {t : Tree K α}

/-- `t` is balanced and is at most one higher than `n`. -/
structure Grows (t : Tree K α) (n : ℕ) : Prop where
  balanced : Balanced t
  lower : n ≤ height t
  upper : height t ≤ n + 1

theorem grows_create (hl : Balanced l) (hr : Balanced r) (h₁ : height l ≤ height r + 2)
    (h₂ : height r ≤ height l + 2) : Grows (create l v d r) (max (height l) (height r)) :=
  ⟨hl.create hr h₁ h₂, by rw [height_create]; omega, by rw [height_create]⟩

/-- Brothers that differ by three are balanced again. -/
theorem grows_bal {x : K} (hl : Balanced l) (hr : Balanced r) (h₁ : height l ≤ height r + 3)
    (h₂ : height r ≤ height l + 3) : Grows (bal l x d r) (max (height l) (height r)) := by
  refine bal_cases (motive := fun t => Grows t (max (height l) (height r))) l x d r ?_ ?_ ?_ ?_ ?_
  · rintro ll lv ld lr lh rfl hlr hll
    obtain ⟨hll', hlr', hlh, hb₁, hb₂⟩ := hl
    rw [height_node] at h₁ h₂ hlr ⊢
    have hin : Balanced (create lr x d r) := hlr'.create hr (by omega) (by omega)
    refine ⟨hll'.create hin ?_ ?_, ?_, ?_⟩
    all_goals simp only [height_create]; omega
  · rintro ll lv ld lrl lrv lrd lrr lrh lh rfl hlr hll
    obtain ⟨hll', ⟨hlrl, hlrr, hlrh, hc₁, hc₂⟩, hlh, hb₁, hb₂⟩ := hl
    rw [height_node] at h₁ h₂ hlr ⊢
    rw [height_node] at hlh hb₁ hb₂
    have hin₁ : Balanced (create ll lv ld lrl) := hll'.create hlrl (by omega) (by omega)
    have hin₂ : Balanced (create lrr x d r) := hlrr.create hr (by omega) (by omega)
    refine ⟨hin₁.create hin₂ ?_ ?_, ?_, ?_⟩
    all_goals simp only [height_create]; omega
  · rintro rl rv rd rr rh rfl hrl hrr
    obtain ⟨hrl', hrr', hrh, hb₁, hb₂⟩ := hr
    rw [height_node] at h₁ h₂ hrl ⊢
    have hin : Balanced (create l x d rl) := hl.create hrl' (by omega) (by omega)
    refine ⟨hin.create hrr' ?_ ?_, ?_, ?_⟩
    all_goals simp only [height_create]; omega
  · rintro rll rlv rld rlr rlh rv rd rr rh rfl hrl hrr
    obtain ⟨⟨hrll, hrlr, hrlh, hc₁, hc₂⟩, hrr', hrh, hb₁, hb₂⟩ := hr
    rw [height_node] at h₁ h₂ hrl ⊢
    rw [height_node] at hrh hb₁ hb₂
    have hin₁ : Balanced (create l x d rll) := hl.create hrll (by omega) (by omega)
    have hin₂ : Balanced (create rlr rv rd rr) := hrlr.create hrr' (by omega) (by omega)
    refine ⟨hin₁.create hin₂ ?_ ?_, ?_, ?_⟩
    all_goals simp only [height_create]; omega
  · intro hlr hrl
    exact grows_create hl hr hlr hrl

theorem height_bal {x : K} (h₁ : height l ≤ height r + 2) (h₂ : height r ≤ height l + 2) :
    height (bal l x d r) = max (height l) (height r) + 1 := by
  refine bal_cases (motive := fun t => height t = max (height l) (height r) + 1) l x d r
    ?_ ?_ ?_ ?_ ?_
  · intro _ _ _ _ _ _ h _; omega
  · intro _ _ _ _ _ _ _ _ _ _ h _; omega
  · intro _ _ _ _ _ _ h _; omega
  · intro _ _ _ _ _ _ _ _ _ _ h _; omega
  · intro _ _; exact height_create l x d r

theorem grows_addMinBinding {k : K} {v : α} (h : Balanced t) :
    Grows (addMinBinding k v t) (height t) := by
  induction t with
  | empty => exact ⟨⟨trivial, trivial, rfl, by simp, by simp⟩, by simp, Nat.le_refl 1⟩
  | node l x d r th ihl _ =>
    obtain ⟨hl, hr, hh, hb₁, hb₂⟩ := h
    obtain ⟨hl', hlow, hupp⟩ := ihl hl
    have hg := grows_bal (x := x) (d := d) hl' hr (by omega) (by omega)
    have hn := height_bal (l := addMinBinding k v l) (r := r) (x := x) (d := d)
    rw [addMinBinding, height_node]
    exact ⟨hg.balanced, by have := hg.lower; omega, by have := hg.upper; omega⟩

theorem grows_addMaxBinding {k : K} {v : α} (h : Balanced t) :
    Grows (addMaxBinding k v t) (height t) := by
  induction t with
  | empty => exact ⟨⟨trivial, trivial, rfl, by simp, by simp⟩, by simp, Nat.le_refl 1⟩
  | node l x d r th _ ihr =>
    obtain ⟨hl, hr, hh, hb₁, hb₂⟩ := h
    obtain ⟨hr', hlow, hupp⟩ := ihr hr
    have hg := grows_bal (x := x) (d := d) hl hr' (by omega) (by omega)
    have hn := height_bal (l := l) (r := addMaxBinding k v r) (x := x) (d := d)
    rw [addMaxBinding, height_node]
    exact ⟨hg.balanced, by have := hg.lower; omega, by have := hg.upper; omega⟩

theorem grows_join (hl : Balanced l) (hr : Balanced r) :
    Grows (join l v d r) (max (height l) (height r)) := by
  fun_induction join l v d r with
  | case1 =>
    rw [height_empty, Nat.zero_max]
    exact grows_addMinBinding hr
  | case2 =>
    rw [height_empty, Nat.max_zero]
    exact grows_addMaxBinding hl
  | case3 ll lv ld lr lh rl rv rd rr rh hlt ih =>
    obtain ⟨hll, hlr, hlh, hb₁, hb₂⟩ := hl
    obtain ⟨hj, hlow, hupp⟩ := ih hlr hr
    simp only [height_node] at hlow hupp ⊢
    have hg := grows_bal (x := lv) (d := ld) hll hj (by omega) (by omega)
    have hn := height_bal (l := ll) (r := join lr v d (.node rl rv rd rr rh)) (x := lv) (d := ld)
    exact ⟨hg.balanced, by have := hg.lower; omega, by have := hg.upper; omega⟩
  | case4 ll lv ld lr lh rl rv rd rr rh _ hlt ih =>
    obtain ⟨hrl, hrr, hrh, hb₁, hb₂⟩ := hr
    obtain ⟨hj, hlow, hupp⟩ := ih hl hrl
    simp only [height_node] at hlow hupp ⊢
    have hg := grows_bal (x := rv) (d := rd) hj hrr (by omega) (by omega)
    have hn := height_bal (l := join (.node ll lv ld lr lh) v d rl) (r := rr) (x := rv) (d := rd)
    exact ⟨hg.balanced, by have := hg.lower; omega, by have := hg.upper; omega⟩
  | case5 ll lv ld lr lh rl rv rd rr rh hlr hrl =>
    exact grows_create hl hr (by simp only [height_node]; omega) (by simp only [height_node]; omega)

/-- `t` is balanced and is at most one lower than `n`. -/
structure Shrinks (t : Tree K α) (n : ℕ) : Prop where
  balanced : Balanced t
  lower : n ≤ height t + 1
  upper : height t ≤ n

theorem shrinks_removeMinBinding (ht : Balanced t) (h : t ≠ .empty) :
    Shrinks (removeMinBinding t h) (height t) := by
  fun_induction removeMinBinding t h with
  | case1 =>
    obtain ⟨_, hr, hh, hb₁, hb₂⟩ := ht
    simp only [height_empty, height_node] at hh hb₁ hb₂ ⊢
    exact ⟨hr, by omega, by omega⟩
  | case2 ll lv ld lr lh x d r th _ ih =>
    obtain ⟨hl, hr, hh, hb₁, hb₂⟩ := ht
    obtain ⟨hl', hlow, hupp⟩ := ih hl
    rw [height_node] at hh hb₁ hb₂ hlow hupp ⊢
    have hg := grows_bal (x := x) (d := d) hl' hr (by omega) (by omega)
    have hn := height_bal (l := removeMinBinding (.node ll lv ld lr lh) (by simp)) (r := r)
      (x := x) (d := d)
    exact ⟨hg.balanced, by have := hg.lower; omega, by have := hg.upper; omega⟩

variable {t1 t2 : Tree K α}

/-- Brothers without the node between them. -/
theorem grows_mergeBal (ht1 : Balanced t1) (ht2 : Balanced t2) (h₁ : height t1 ≤ height t2 + 2)
    (h₂ : height t2 ≤ height t1 + 2) : Grows (mergeBal t1 t2) (max (height t1) (height t2)) := by
  unfold mergeBal
  split
  · exact ⟨ht2, by simp, by simp⟩
  · exact ⟨ht1, by simp, by simp⟩
  · next l2 v2 d2 r2 h2 _ =>
      obtain ⟨hb, hlow, hupp⟩ := shrinks_removeMinBinding ht2 (by simp)
      dsimp only
      rw [height_node] at h₁ h₂ hlow hupp ⊢
      set xd := minBinding (.node l2 v2 d2 r2 h2) (by simp)
      set t := removeMinBinding (.node l2 v2 d2 r2 h2) (by simp)
      have hg := grows_bal (x := xd.1) (d := xd.2) ht1 hb (by omega) (by omega)
      have hn := height_bal (l := t1) (r := t) (x := xd.1) (d := xd.2)
      exact ⟨hg.balanced, by have := hg.lower; omega, by have := hg.upper; omega⟩

theorem Balanced.concat (ht1 : Balanced t1) (ht2 : Balanced t2) : Balanced (concat t1 t2) := by
  unfold Extmap.concat
  split
  · exact ht2
  · exact ht1
  · exact (grows_join ht1 (shrinks_removeMinBinding ht2 (by simp)).balanced).balanced

theorem Balanced.concatOrJoin {d : Option α} (ht1 : Balanced t1) (ht2 : Balanced t2) :
    Balanced (concatOrJoin t1 v d t2) := by
  cases d with
  | none => exact ht1.concat ht2
  | some d => exact (grows_join ht1 ht2).balanced

end Heights

/-! ## Search trees -/

section SearchTrees

variable (cmp : K → K → Ordering)

/-- The keys on the left of a node are smaller, those on the right greater. -/
def SearchTree : Tree K α → Prop
  | .empty => True
  | .node l v _ r _ => SearchTree l ∧ SearchTree r ∧
      (∀ p ∈ toList l, cmp p.1 v = .lt) ∧ ∀ p ∈ toList r, cmp v p.1 = .lt

/-- A balanced search tree. -/
structure Valid (m : Tree K α) : Prop where
  search : SearchTree cmp m
  balanced : Balanced m

variable {cmp} [Std.TransCmp cmp]

variable {m : Tree K α}

theorem searchTree_iff : SearchTree cmp m ↔ Sorted cmp (toList m) := by
  induction m with
  | empty => simp [SearchTree]
  | node l v d r h ihl ihr => rw [SearchTree, ihl, ihr, toList_node, sorted_append_cons]

theorem Valid.sorted (h : Valid cmp m) : Sorted cmp (toList m) :=
  searchTree_iff.mp h.search

theorem valid_of_sorted (hs : Sorted cmp (toList m)) (hb : Balanced m) : Valid cmp m :=
  ⟨searchTree_iff.mpr hs, hb⟩

theorem findOpt_eq (h : Sorted cmp (toList m)) (k : K) :
    findOpt cmp k m = (binding cmp k (toList m)).map Prod.snd := by
  induction m with
  | empty => rfl
  | node l v d r th ihl ihr =>
    rw [toList_node] at h
    obtain ⟨hl, hr, _, _⟩ := sorted_append_cons.mp h
    rw [findOpt, toList_node, binding_append_cons h, ihl hl, ihr hr]
    dsimp only
    cases cmp k v <;> rfl

theorem split_spec {x : K} {t : Tree K α} (h : Sorted cmp (toList t)) :
    toList (split cmp x t).1 = below cmp x (toList t) ∧
      (split cmp x t).2.1 = (binding cmp x (toList t)).map Prod.snd ∧
      toList (split cmp x t).2.2 = above cmp x (toList t) := by
  induction t with
  | empty => exact ⟨rfl, rfl, rfl⟩
  | node l v d r th ihl ihr =>
    rw [toList_node] at h
    obtain ⟨hl, hr, _, _⟩ := sorted_append_cons.mp h
    obtain ⟨hl₁, hl₂, hl₃⟩ := ihl hl
    obtain ⟨hr₁, hr₂, hr₃⟩ := ihr hr
    rw [split, toList_node, below_append_cons h, above_append_cons h, binding_append_cons h]
    dsimp only
    cases cmp x v with
    | lt => exact ⟨hl₁, hl₂, by simp [hl₃]⟩
    | eq => exact ⟨rfl, rfl, rfl⟩
    | gt => exact ⟨by simp [hr₁], hr₂, hr₃⟩

omit [Std.TransCmp cmp] in
theorem Balanced.split {x : K} {t : Tree K α} (h : Balanced t) :
    Balanced (split cmp x t).1 ∧ Balanced (split cmp x t).2.2 := by
  induction t with
  | empty => exact ⟨trivial, trivial⟩
  | node l v d r th ihl ihr =>
    obtain ⟨hl, hr, _⟩ := h
    rw [Extmap.split]
    cases cmp x v with
    | lt => exact ⟨(ihl hl).1, (grows_join (ihl hl).2 hr).balanced⟩
    | eq => exact ⟨hl, hr⟩
    | gt => exact ⟨(grows_join hl (ihr hr).1).balanced, (ihr hr).2⟩

end SearchTrees

end Why3.Extmap
