import Why3.Util.ExtmapBalance

/-!
# The added operations on maps

Each operation is described on the sorted lists of bindings first.  The lists
then give its meaning on finite functions: the binding that the result has for a
key, in terms of the bindings of the arguments.
-/

namespace Why3.Extmap

open SortedAssoc Std List OrientedCmp

variable {K α β γ ε : Type} {cmp : K → K → Ordering}

/-- The finite function that a map stands for: the binding of a key, with the
key as it is stored. -/
def lookup (cmp : K → K → Ordering) (m : Tree K α) (k : K) : Option (K × α) :=
  binding cmp k (toList m)

def keys (m : Tree K α) : List K := (toList m).map Prod.fst

theorem findOpt_eq_lookup [TransCmp cmp] {m : Tree K α} (h : Valid cmp m) (k : K) :
    findOpt cmp k m = (lookup cmp m k).map Prod.snd :=
  findOpt_eq h.sorted k

/-! ## change -/

section Change

variable [TransCmp cmp] {f : Option α → Except ε (Option α)} {x : K} {m : Tree K α}

theorem change_error {e : ε} (hs : Sorted cmp (toList m)) (hf : f (findOpt cmp x m) = .error e) :
    change cmp f x m = .error e := by
  induction m with
  | empty =>
    rw [findOpt] at hf
    rw [change, hf]
    rfl
  | node l v d r h ihl ihr =>
    obtain ⟨hl, hr, _, _⟩ := sorted_append_cons.mp hs
    rw [findOpt] at hf
    rw [change]
    cases hx : cmp x v with
    | lt =>
      rw [hx] at hf
      simp only
      rw [ihl hl hf]
      rfl
    | eq =>
      rw [hx] at hf
      simp only
      rw [hf]
      rfl
    | gt =>
      rw [hx] at hf
      simp only
      rw [ihr hr hf]
      rfl

/-- The list is cut at the key, and the new binding put in between. -/
theorem change_ok {o : Option α} (hs : Sorted cmp (toList m)) (hb : Balanced m)
    (hf : f (findOpt cmp x m) = .ok o) : ∃ m', change cmp f x m = .ok m' ∧
      toList m' = below cmp x (toList m) ++ ((o.map (x, ·)).toList ++ above cmp x (toList m)) ∧
      Balanced m' ∧ height m ≤ height m' + 1 ∧ height m' ≤ height m + 1 := by
  induction m with
  | empty =>
    rw [findOpt] at hf
    rw [change, hf]
    cases o with
    | none => exact ⟨.empty, rfl, rfl, trivial, by simp, by simp⟩
    | some d =>
      exact ⟨_, rfl, rfl, ⟨trivial, trivial, rfl, by simp, by simp⟩, by simp, by simp⟩
  | node l v d r h ihl ihr =>
    rw [toList_node] at hs
    obtain ⟨hl, hr, _, _⟩ := sorted_append_cons.mp hs
    obtain ⟨hbl, hbr, hh, hb₁, hb₂⟩ := hb
    rw [findOpt] at hf
    rw [change, toList_node, below_append_cons hs, above_append_cons hs, height_node]
    dsimp only
    cases hx : cmp x v with
    | lt =>
      rw [hx] at hf
      obtain ⟨l', hl', hlist, hbl', hlow, hupp⟩ := ihl hl hbl hf
      have hg := grows_bal (x := v) (d := d) hbl' hbr (by omega) (by omega)
      have hn := height_bal (l := l') (r := r) (x := v) (d := d)
      refine ⟨bal l' v d r, by simp only [hl']; rfl, by simp [hlist], hg.balanced, ?_, ?_⟩
      · have := hg.lower; omega
      · have := hg.upper; omega
    | eq =>
      rw [hx] at hf
      simp only
      rw [hf]
      cases o with
      | none =>
        have hg := grows_mergeBal hbl hbr hb₁ hb₂
        refine ⟨mergeBal l r, rfl, by simp, hg.balanced, ?_, ?_⟩
        · have := hg.lower; omega
        · have := hg.upper; omega
      | some d' =>
        exact ⟨.node l x d' r h, rfl, by simp, ⟨hbl, hbr, hh, hb₁, hb₂⟩, by simp, by simp⟩
    | gt =>
      rw [hx] at hf
      obtain ⟨r', hr', hlist, hbr', hlow, hupp⟩ := ihr hr hbr hf
      have hg := grows_bal (x := v) (d := d) hbl hbr' (by omega) (by omega)
      have hn := height_bal (l := l) (r := r') (x := v) (d := d)
      refine ⟨bal l v d r', by simp only [hr']; rfl, by simp [hlist], hg.balanced, ?_, ?_⟩
      · have := hg.lower; omega
      · have := hg.upper; omega

variable {l : List (K × α)}

theorem lt_of_mem_below : ∀ p ∈ below cmp x l, cmp p.1 x = .lt :=
  fun _ hp => lt_of_gt (mem_below.mp hp).2

omit [TransCmp cmp] in
theorem lt_of_mem_above : ∀ p ∈ above cmp x l, cmp x p.1 = .lt :=
  fun _ hp => (mem_above.mp hp).2

theorem sorted_cut (h : Sorted cmp l) (o : Option α) :
    Sorted cmp (below cmp x l ++ ((o.map (x, ·)).toList ++ above cmp x l)) :=
  sorted_middle (sorted_below h) (sorted_above h) lt_of_mem_below lt_of_mem_above o

theorem binding_cut (h : Sorted cmp l) (o : Option α) (k : K) :
    binding cmp k (below cmp x l ++ ((o.map (x, ·)).toList ++ above cmp x l)) =
      if cmp k x = .eq then o.map (x, ·) else binding cmp k l := by
  rw [binding_middle (sorted_below h) (sorted_above h) lt_of_mem_below lt_of_mem_above]
  cases hk : cmp k x with
  | lt => exact binding_below h hk
  | eq => rfl
  | gt => exact binding_above h (lt_of_gt hk)

theorem change_spec (h : Valid cmp m) : match f (findOpt cmp x m) with
    | .error e => change cmp f x m = .error e
    | .ok o => ∃ m', change cmp f x m = .ok m' ∧ Valid cmp m' ∧
        ∀ k, lookup cmp m' k = if cmp k x = .eq then o.map (x, ·) else lookup cmp m k := by
  cases hf : f (findOpt cmp x m) with
  | error e => exact change_error h.sorted hf
  | ok o =>
    obtain ⟨m', hm', hlist, hb, _, _⟩ := change_ok h.sorted h.balanced hf
    refine ⟨m', hm', valid_of_sorted ?_ hb, fun k => ?_⟩
    · rw [hlist]
      exact sorted_cut h.sorted o
    · rw [lookup, hlist, binding_cut h.sorted o k]
      rfl

end Change

/-! ## Bindings kept one by one

`inter`, `diff`, `map_filter` and `mapi_filter` decide for each binding of their
first map what becomes of it, from the value that the second map gives to the
key. -/

variable {s1 : Tree K α} {l : List (K × β)}

section Kept

/-- The binding that `g` makes of `p`, given the value of its key in `l`. -/
def keep (cmp : K → K → Ordering) (g : K → α → Option β → Option γ) (l : List (K × β))
    (p : K × α) : Option (K × γ) :=
  (g p.1 p.2 ((binding cmp p.1 l).map Prod.snd)).map (p.1, ·)

variable {g : K → α → Option β → Option γ}

theorem keep_fst {p : K × α} {q : K × γ} (h : keep cmp g l p = some q) :
    q.1 = p.1 := by
  obtain ⟨d, _, rfl⟩ := Option.map_eq_some_iff.mp h
  rfl

theorem filterMap_node (f : K × α → Option (K × γ)) (l : Tree K α) (v : K) (d : α) (r : Tree K α)
    (h : ℕ) : (toList (.node l v d r h)).filterMap f =
      (toList l).filterMap f ++ ((f (v, d)).toList ++ (toList r).filterMap f) := by
  rw [toList_node, filterMap_append, filterMap_cons]
  cases f (v, d) <;> rfl

variable [TransCmp cmp]

theorem filterMap_keep_below {A : List (K × α)} {v : K} (hl : Sorted cmp l)
    (hA : ∀ p ∈ A, cmp p.1 v = .lt) :
    A.filterMap (keep cmp g (below cmp v l)) = A.filterMap (keep cmp g l) :=
  filterMap_congr (fun p hp => by rw [keep, keep, binding_below hl (hA p hp)])

theorem filterMap_keep_above {B : List (K × α)} {v : K} (hl : Sorted cmp l)
    (hB : ∀ p ∈ B, cmp v p.1 = .lt) :
    B.filterMap (keep cmp g (above cmp v l)) = B.filterMap (keep cmp g l) :=
  filterMap_congr (fun p hp => by rw [keep, keep, binding_above hl (hB p hp)])

variable {s2 : Tree K β}

theorem filterMap_keep_split {l1 r1 : Tree K α} {v1 : K} {d1 : α} {h1 : ℕ}
    (hs1 : Sorted cmp (toList (.node l1 v1 d1 r1 h1))) (hs2 : Sorted cmp (toList s2)) :
    (toList (.node l1 v1 d1 r1 h1)).filterMap (keep cmp g (toList s2)) =
      (toList l1).filterMap (keep cmp g (toList (split cmp v1 s2).1)) ++
        (((g v1 d1 (split cmp v1 s2).2.1).map (v1, ·)).toList ++
          (toList r1).filterMap (keep cmp g (toList (split cmp v1 s2).2.2))) := by
  obtain ⟨_, _, hlv, hvr⟩ := sorted_append_cons.mp hs1
  obtain ⟨hlow, hmid, hupp⟩ := split_spec (x := v1) hs2
  rw [hlow, hupp, hmid, filterMap_keep_below hs2 hlv, filterMap_keep_above hs2 hvr, filterMap_node]
  rfl

theorem sorted_split {x : K} {t : Tree K α} (h : Sorted cmp (toList t)) :
    Sorted cmp (toList (split cmp x t).1) ∧ Sorted cmp (toList (split cmp x t).2.2) := by
  obtain ⟨hlow, _, hupp⟩ := split_spec (x := x) h
  rw [hlow, hupp]
  exact ⟨sorted_below h, sorted_above h⟩

/-- A map whose list is made binding by binding. -/
theorem kept_spec {m : Tree K α} {m' : Tree K γ} (h : Valid cmp m)
    (hb : Balanced m') (hlist : toList m' = (toList m).filterMap (keep cmp g l)) :
    Valid cmp m' ∧ ∀ k, lookup cmp m' k = (lookup cmp m k).bind (keep cmp g l) := by
  refine ⟨valid_of_sorted ?_ hb, fun k => ?_⟩
  · rw [hlist]
    exact sorted_filterMap (fun _ _ => keep_fst) h.sorted
  · rw [lookup, hlist, binding_filterMap (fun _ _ => keep_fst) h.sorted]
    rfl

/-! ### inter and diff -/

/-- What `inter f` keeps. -/
def interKeep (f : K → α → β → Option γ) (k : K) (d1 : α) (o : Option β) : Option γ :=
  o.bind (f k d1)

/-- What `diff f` keeps. -/
def diffKeep (f : K → α → β → Option α) (k : K) (d1 : α) (o : Option β) : Option α :=
  match o with
  | none => some d1
  | some d2 => f k d1 d2

section Equations

omit [TransCmp cmp]

theorem inter_empty (f : K → α → β → Option γ) (t2 : Tree K β) : inter cmp f .empty t2 = .empty := by
  rw [inter]

theorem inter_empty_right (f : K → α → β → Option γ) (t1 : Tree K α) :
    inter cmp f t1 .empty = .empty := by
  cases t1 with
  | empty => rw [inter]
  | node l1 v1 d1 r1 h1 => rw [inter]; simp

theorem inter_node (f : K → α → β → Option γ) (l1 : Tree K α) (v1 : K) (d1 : α) (r1 : Tree K α)
    (h1 : ℕ) {t2 : Tree K β} (ht2 : t2 ≠ .empty) :
    inter cmp f (.node l1 v1 d1 r1 h1) t2 =
      concatOrJoin (inter cmp f l1 (split cmp v1 t2).1) v1
        (interKeep f v1 d1 (split cmp v1 t2).2.1) (inter cmp f r1 (split cmp v1 t2).2.2) := by
  rw [inter]
  · split
    · next hs => rw [hs]; rfl
    · next hs => rw [hs]; rfl
  · exact ht2

theorem diff_empty (f : K → α → β → Option α) (t2 : Tree K β) : diff cmp f .empty t2 = .empty := by
  rw [diff]

theorem diff_empty_right (f : K → α → β → Option α) (t1 : Tree K α) :
    diff cmp f t1 .empty = t1 := by
  cases t1 with
  | empty => rw [diff]
  | node l1 v1 d1 r1 h1 => rw [diff]; simp

theorem diff_node (f : K → α → β → Option α) (l1 : Tree K α) (v1 : K) (d1 : α) (r1 : Tree K α)
    (h1 : ℕ) {t2 : Tree K β} (ht2 : t2 ≠ .empty) :
    diff cmp f (.node l1 v1 d1 r1 h1) t2 =
      concatOrJoin (diff cmp f l1 (split cmp v1 t2).1) v1
        (diffKeep f v1 d1 (split cmp v1 t2).2.1) (diff cmp f r1 (split cmp v1 t2).2.2) := by
  rw [diff]
  · split
    · next hs => rw [hs]; rfl
    · next hs => rw [hs]; rfl
  · exact ht2

theorem balanced_inter (f : K → α → β → Option γ) (s1 : Tree K α) (s2 : Tree K β) :
    Balanced (inter cmp f s1 s2) := by
  induction s1 generalizing s2 with
  | empty => rw [inter_empty]; trivial
  | node l1 v1 d1 r1 th ihl ihr =>
    by_cases hs2 : s2 = .empty
    · rw [hs2, inter_empty_right]
      trivial
    · rw [inter_node f l1 v1 d1 r1 th hs2]
      exact (ihl _).concatOrJoin (ihr _)

theorem balanced_diff (f : K → α → β → Option α) (h : Balanced s1) (s2 : Tree K β) :
    Balanced (diff cmp f s1 s2) := by
  induction s1 generalizing s2 with
  | empty => rw [diff_empty]; trivial
  | node l1 v1 d1 r1 th ihl ihr =>
    by_cases hs2 : s2 = .empty
    · rw [hs2, diff_empty_right]
      exact h
    · rw [diff_node f l1 v1 d1 r1 th hs2]
      exact (ihl h.1 _).concatOrJoin (ihr h.2.1 _)

end Equations

theorem toList_inter (f : K → α → β → Option γ) (h1 : Sorted cmp (toList s1))
    (h2 : Sorted cmp (toList s2)) :
    toList (inter cmp f s1 s2) = (toList s1).filterMap (keep cmp (interKeep f) (toList s2)) := by
  induction s1 generalizing s2 with
  | empty => rw [inter_empty]; rfl
  | node l1 v1 d1 r1 th ihl ihr =>
    by_cases hs2 : s2 = .empty
    · subst hs2
      rw [inter_empty_right]
      exact (filterMap_eq_nil_iff.mpr (fun p _ => rfl)).symm
    · obtain ⟨hl, hr, _, _⟩ := sorted_append_cons.mp h1
      obtain ⟨hlow, hupp⟩ := sorted_split (x := v1) h2
      rw [inter_node f l1 v1 d1 r1 th hs2, toList_concatOrJoin, ihl hl hlow, ihr hr hupp,
        filterMap_keep_split h1 h2]

theorem toList_diff (f : K → α → β → Option α) (h1 : Sorted cmp (toList s1))
    (h2 : Sorted cmp (toList s2)) :
    toList (diff cmp f s1 s2) = (toList s1).filterMap (keep cmp (diffKeep f) (toList s2)) := by
  induction s1 generalizing s2 with
  | empty => rw [diff_empty]; rfl
  | node l1 v1 d1 r1 th ihl ihr =>
    by_cases hs2 : s2 = .empty
    · subst hs2
      rw [diff_empty_right]
      exact (filterMap_some).symm
    · obtain ⟨hl, hr, _, _⟩ := sorted_append_cons.mp h1
      obtain ⟨hlow, hupp⟩ := sorted_split (x := v1) h2
      rw [diff_node f l1 v1 d1 r1 th hs2, toList_concatOrJoin, ihl hl hlow, ihr hr hupp,
        filterMap_keep_split h1 h2]

/-! ### map_filter and mapi_filter -/

omit [TransCmp cmp] in
theorem mapFilter_eq (f : α → Option β) (m : Tree K α) :
    mapFilter f m = mapiFilter (fun _ => f) m := by
  induction m with
  | empty => rfl
  | node l v d r h ihl ihr => rw [mapFilter, mapiFilter, ihl, ihr]

omit [TransCmp cmp] in
theorem toList_mapiFilter (f : K → α → Option β) (m : Tree K α) :
    toList (mapiFilter f m) =
      (toList m).filterMap (keep cmp (fun k d (_ : Option Unit) => f k d) []) := by
  induction m with
  | empty => rfl
  | node l v d r h ihl ihr =>
    rw [mapiFilter, toList_concatOrJoin, ihl, ihr, filterMap_node]
    rfl

omit [TransCmp cmp] in
theorem balanced_mapiFilter (f : K → α → Option β) (m : Tree K α) : Balanced (mapiFilter f m) := by
  induction m with
  | empty => trivial
  | node l v d r h ihl ihr => exact ihl.concatOrJoin ihr

end Kept

/-! ## union -/

section Union

/-- The value of a key in a map. -/
def value (cmp : K → K → Ordering) (k : K) (m : Tree K α) : Option α :=
  (binding cmp k (toList m)).map Prod.snd

/-- The value of a key in `union f m1 m2`. -/
def unionValue (f : K → α → α → Option α) (k : K) (o1 o2 : Option α) : Option α :=
  match o1, o2 with
  | some d1, some d2 => f k d1 d2
  | some d1, none => some d1
  | none, o2 => o2

theorem union_node (f : K → α → α → Option α) (l1 : Tree K α) (v1 : K) (d1 : α) (r1 : Tree K α)
    (h1 : ℕ) (l2 : Tree K α) (v2 : K) (d2 : α) (r2 : Tree K α) (h2 : ℕ) :
    union cmp f (.node l1 v1 d1 r1 h1) (.node l2 v2 d2 r2 h2) =
      if h1 ≥ h2 then
        let s := split cmp v1 (.node l2 v2 d2 r2 h2)
        concatOrJoin (union cmp f l1 s.1) v1 (unionValue f v1 (some d1) s.2.1)
          (union cmp f r1 s.2.2)
      else
        let s := split cmp v2 (.node l1 v1 d1 r1 h1)
        concatOrJoin (union cmp f s.1 l2) v2 (unionValue f v2 s.2.1 (some d2))
          (union cmp f s.2.2 r2) := by
  rw [union]
  split
  · dsimp only
    split
    · next hs => rw [hs]; rfl
    · next hs => rw [hs]; rfl
  · dsimp only
    split
    · next hs => rw [hs]; rfl
    · next hs => rw [hs]; rfl

/-- The higher tree gives the key at which both are cut. -/
theorem union_rec (cmp : K → K → Ordering) {motive : Tree K α → Tree K α → Prop} (empty : ∀ s, motive .empty s)
    (empty_right : ∀ s, s ≠ .empty → motive s .empty)
    (first : ∀ l1 v1 d1 r1 h1 l2 v2 d2 r2 h2, h1 ≥ h2 →
      motive l1 (split cmp v1 (.node l2 v2 d2 r2 h2)).1 →
      motive r1 (split cmp v1 (.node l2 v2 d2 r2 h2)).2.2 →
      motive (.node l1 v1 d1 r1 h1) (.node l2 v2 d2 r2 h2))
    (second : ∀ l1 v1 d1 r1 h1 l2 v2 d2 r2 h2, ¬ h1 ≥ h2 →
      motive (split cmp v2 (.node l1 v1 d1 r1 h1)).1 l2 →
      motive (split cmp v2 (.node l1 v1 d1 r1 h1)).2.2 r2 →
      motive (.node l1 v1 d1 r1 h1) (.node l2 v2 d2 r2 h2)) (s1 s2 : Tree K α) :
    motive s1 s2 := by
  induction s1, s2 using union.induct cmp (fun _ _ _ => none) with
  | case1 s => exact empty s
  | case2 s hs => exact empty_right s hs
  | case3 _ _ _ _ _ _ _ _ _ _ hge _ _ ihl ihr | case4 _ _ _ _ _ _ _ _ _ _ hge _ _ _ ihl ihr => exact first _ _ _ _ _ _ _ _ _ _ hge ihl ihr
  | case5 _ _ _ _ _ _ _ _ _ _ hlt _ _ ihl ihr => exact second _ _ _ _ _ _ _ _ _ _ hlt ihl ihr
  | case6 _ _ _ _ _ _ _ _ _ _ hlt _ _ _ ihl ihr => exact second _ _ _ _ _ _ _ _ _ _ hlt ihl ihr

/-- The parts `a`, `o` and `b` of a map at the key `v`. -/
structure Cut (cmp : K → K → Ordering) (v : K) (s a : Tree K α) (o : Option α) (b : Tree K α) :
    Prop where
  lower : ∀ p ∈ toList a, cmp p.1 v = .lt
  upper : ∀ p ∈ toList b, cmp v p.1 = .lt
  keys : ∀ k, k ∈ keys a ∨ k ∈ keys b → k ∈ keys s
  value : ∀ k, value cmp k s =
    match cmp k v with
    | .lt => value cmp k a
    | .eq => o
    | .gt => value cmp k b

/-- What `union` is for two sorted lists. -/
structure UnionOf (cmp : K → K → Ordering) (f : K → α → α → Option α) (s1 s2 s : Tree K α) :
    Prop where
  sorted : Sorted cmp (toList s)
  keys : ∀ p ∈ toList s, p.1 ∈ keys s1 ∨ p.1 ∈ keys s2
  value : ∀ k, value cmp k s = unionValue f k (value cmp k s1) (value cmp k s2)

variable [TransCmp cmp] {v : K}

theorem cut_node {l r : Tree K α} {d : α} {h : ℕ} (hs : Sorted cmp (toList (.node l v d r h))) :
    Cut cmp v (.node l v d r h) l (some d) r where
  lower := (sorted_append_cons.mp hs).2.2.1
  upper := (sorted_append_cons.mp hs).2.2.2
  keys := by
    intro k hk
    simp only [keys, toList_node, map_append, map_cons, mem_append, mem_cons]
    exact hk.imp_right .inr
  value := by
    intro k
    rw [value, toList_node, binding_append_cons hs]
    cases cmp k v <;> rfl

theorem cut_split {s : Tree K α} (hs : Sorted cmp (toList s)) :
    Cut cmp v s (split cmp v s).1 (split cmp v s).2.1 (split cmp v s).2.2 := by
  obtain ⟨hlow, hmid, hupp⟩ := split_spec (x := v) hs
  refine ⟨?_, ?_, ?_, ?_⟩
  · rw [hlow]; exact lt_of_mem_below
  · rw [hupp]; exact lt_of_mem_above
  · intro k
    rw [keys, keys, hlow, hupp]
    rintro (hk | hk)
    · exact map_subset _ (filter_subset_self _) hk
    · exact map_subset _ (filter_subset_self _) hk
  · intro k
    rw [value, value, value, hlow, hmid, hupp]
    cases hk : cmp k v with
    | lt => rw [binding_below hs hk]
    | eq => rw [binding_congr hk]
    | gt => rw [binding_above hs (lt_of_gt hk)]

/-- The unions of the parts of two maps at a key, put together. -/
theorem unionOf_cut {f : K → α → α → Option α} (hf : ∀ k k', cmp k k' = .eq → f k = f k')
    {s2 a1 a2 b1 b2 a b s : Tree K α} {o1 o2 : Option α} (h1 : Cut cmp v s1 a1 o1 b1)
    (h2 : Cut cmp v s2 a2 o2 b2) (ha : UnionOf cmp f a1 a2 a) (hb : UnionOf cmp f b1 b2 b)
    (hv : v ∈ keys s1 ∨ v ∈ keys s2)
    (hs : toList s = toList a ++ (((unionValue f v o1 o2).map (v, ·)).toList ++ toList b)) :
    UnionOf cmp f s1 s2 s := by
  have hmem : ∀ {p : K × α} {m : Tree K α}, p.1 ∈ keys m → ∃ q ∈ toList m, q.1 = p.1 :=
    fun hp => mem_map.mp hp
  have hav : ∀ p ∈ toList a, cmp p.1 v = .lt := by
    intro p hp
    rcases ha.keys p hp with hk | hk
    · obtain ⟨q, hq, heq⟩ := hmem hk
      exact heq ▸ h1.lower q hq
    · obtain ⟨q, hq, heq⟩ := hmem hk
      exact heq ▸ h2.lower q hq
  have hvb : ∀ p ∈ toList b, cmp v p.1 = .lt := by
    intro p hp
    rcases hb.keys p hp with hk | hk
    · obtain ⟨q, hq, heq⟩ := hmem hk
      exact heq ▸ h1.upper q hq
    · obtain ⟨q, hq, heq⟩ := hmem hk
      exact heq ▸ h2.upper q hq
  refine ⟨?_, ?_, ?_⟩
  · rw [hs]
    exact sorted_middle ha.sorted hb.sorted hav hvb _
  · intro p hp
    rw [hs, mem_append, mem_append] at hp
    rcases hp with hp | hp | hp
    · exact (ha.keys p hp).imp (fun hk => h1.keys _ (.inl hk)) (fun hk => h2.keys _ (.inl hk))
    · obtain ⟨d, _, rfl⟩ := Option.map_eq_some_iff.mp (Option.mem_toList.mp hp)
      exact hv
    · exact (hb.keys p hp).imp (fun hk => h1.keys _ (.inr hk)) (fun hk => h2.keys _ (.inr hk))
  · intro k
    rw [h1.value, h2.value, value, hs, binding_middle ha.sorted hb.sorted hav hvb]
    cases hk : cmp k v with
    | lt => exact ha.value k
    | eq =>
      dsimp only
      rw [Option.map_map, unionValue.eq_def f k, hf k v hk, ← unionValue.eq_def]
      exact Option.map_id'
    | gt => exact hb.value k

theorem unionOf_union {f : K → α → α → Option α} (hf : ∀ k k', cmp k k' = .eq → f k = f k')
    (s1 s2 : Tree K α) (h1 : Sorted cmp (toList s1)) (h2 : Sorted cmp (toList s2)) :
    UnionOf cmp f s1 s2 (union cmp f s1 s2) := by
  induction s1, s2 using union_rec cmp with
  | empty s =>
    rw [union]
    exact ⟨h2, fun p hp => .inr (mem_map_of_mem hp), fun k => rfl⟩
  | empty_right s hs =>
    rw [union]
    · refine ⟨h1, fun p hp => .inl (mem_map_of_mem hp), fun k => ?_⟩
      cases value cmp k s <;> rfl
    · exact hs
  | first l1 v1 d1 r1 th1 l2 v2 d2 r2 th2 hge ihl ihr =>
    obtain ⟨hl, hr, _, _⟩ := sorted_append_cons.mp h1
    obtain ⟨hlow, hupp⟩ := sorted_split (x := v1) h2
    rw [union_node, if_pos hge]
    refine unionOf_cut hf (cut_node h1) (cut_split h2) (ihl hl hlow) (ihr hr hupp) ?_
      (toList_concatOrJoin _ _ _ _)
    simp [keys]
  | second l1 v1 d1 r1 th1 l2 v2 d2 r2 th2 hlt ihl ihr =>
    obtain ⟨hl, hr, _, _⟩ := sorted_append_cons.mp h2
    obtain ⟨hlow, hupp⟩ := sorted_split (x := v2) h1
    rw [union_node, if_neg hlt]
    refine unionOf_cut hf (cut_split h1) (cut_node h2) (ihl hlow hl) (ihr hupp hr) ?_
      (toList_concatOrJoin _ _ _ _)
    simp [keys]

omit [TransCmp cmp] in
theorem balanced_union (f : K → α → α → Option α) (s1 s2 : Tree K α) (h1 : Balanced s1)
    (h2 : Balanced s2) : Balanced (union cmp f s1 s2) := by
  induction s1, s2 using union_rec cmp with
  | empty s =>
    rw [union]
    exact h2
  | empty_right s hs =>
    rw [union]
    · exact h1
    · exact hs
  | first l1 v1 d1 r1 th1 l2 v2 d2 r2 th2 hge ihl ihr =>
    rw [union_node, if_pos hge]
    exact (ihl h1.1 h2.split.1).concatOrJoin (ihr h1.2.1 h2.split.2)
  | second l1 v1 d1 r1 th1 l2 v2 d2 r2 th2 hlt ihl ihr =>
    rw [union_node, if_neg hlt]
    exact (ihl h1.split.1 h2.1).concatOrJoin (ihr h1.split.2 h2.2.1)

end Union

/-! ## submap and disjoint -/

variable {g : K → α → Option β → Bool}

section Tests

/-- `g` holds of every binding of `A`, given the value of its key in `l`. -/
def allKeys (cmp : K → K → Ordering) (g : K → α → Option β → Bool) (l : List (K × β))
    (A : List (K × α)) : Bool :=
  A.all (fun p => g p.1 p.2 ((binding cmp p.1 l).map Prod.snd))

theorem allKeys_append (g : K → α → Option β → Bool) (l : List (K × β)) (A B : List (K × α)) :
    allKeys cmp g l (A ++ B) = (allKeys cmp g l A && allKeys cmp g l B) := all_append

theorem allKeys_cons (g : K → α → Option β → Bool) (l : List (K × β)) (p : K × α)
    (B : List (K × α)) : allKeys cmp g l (p :: B) =
      (g p.1 p.2 ((binding cmp p.1 l).map Prod.snd) && allKeys cmp g l B) := rfl

variable [TransCmp cmp]

theorem allKeys_left {L R : List (K × β)} {q : K × β}
    {A : List (K × α)} (h : Sorted cmp (L ++ q :: R)) (hA : ∀ p ∈ A, cmp p.1 q.1 = .lt) :
    allKeys cmp g (L ++ q :: R) A = allKeys cmp g L A := by
  rw [Bool.eq_iff_iff, allKeys, allKeys, all_eq_true, all_eq_true]
  refine forall₂_congr (fun p hp => ?_)
  rw [binding_append_cons h, hA p hp]

theorem allKeys_right {L R : List (K × β)} {q : K × β}
    {A : List (K × α)} (h : Sorted cmp (L ++ q :: R)) (hA : ∀ p ∈ A, cmp p.1 q.1 = .gt) :
    allKeys cmp g (L ++ q :: R) A = allKeys cmp g R A := by
  rw [Bool.eq_iff_iff, allKeys, allKeys, all_eq_true, all_eq_true]
  refine forall₂_congr (fun p hp => ?_)
  rw [binding_append_cons h, hA p hp]

/-- The three ways to descend in both trees. -/
theorem allKeys_node {l1 r1 : Tree K α} {v1 : K} {d1 : α} {h1 : ℕ}
    {l2 r2 : Tree K β} {v2 : K} {d2 : β} {h2 : ℕ}
    (hs1 : Sorted cmp (toList (.node l1 v1 d1 r1 h1)))
    (hs2 : Sorted cmp (toList (.node l2 v2 d2 r2 h2))) :
    allKeys cmp g (toList (.node l2 v2 d2 r2 h2)) (toList (.node l1 v1 d1 r1 h1)) =
      match cmp v1 v2 with
      | .eq => g v1 d1 (some d2) && allKeys cmp g (toList l2) (toList l1) &&
          allKeys cmp g (toList r2) (toList r1)
      | .lt => allKeys cmp g (toList l2) (toList (.node l1 v1 d1 .empty 0)) &&
          allKeys cmp g (toList (.node l2 v2 d2 r2 h2)) (toList r1)
      | .gt => allKeys cmp g (toList r2) (toList (.node .empty v1 d1 r1 0)) &&
          allKeys cmp g (toList (.node l2 v2 d2 r2 h2)) (toList l1) := by
  obtain ⟨_, _, hlv, hvr⟩ := sorted_append_cons.mp hs1
  simp only [toList_node, toList_empty, allKeys_append, allKeys_cons, nil_append] at hs2 ⊢
  cases hv : cmp v1 v2 with
  | eq =>
    have hl : ∀ p ∈ toList l1, cmp p.1 v2 = .lt := fun p hp =>
      TransCmp.lt_of_lt_of_eq (hlv p hp) hv
    have hr : ∀ p ∈ toList r1, cmp p.1 v2 = .gt := fun p hp =>
      TransCmp.gt_of_gt_of_eq (gt_of_lt (hvr p hp)) hv
    rw [allKeys_left hs2 hl, allKeys_right hs2 hr, binding_append_cons hs2, hv]
    rw [Option.map_some, ← Bool.and_assoc, Bool.and_comm (allKeys cmp g (toList l2) (toList l1))]
  | lt =>
    have hl : ∀ p ∈ toList l1, cmp p.1 v2 = .lt := fun p hp => TransCmp.lt_trans (hlv p hp) hv
    rw [allKeys_left hs2 hl, binding_append_cons hs2, hv]
    simp only [allKeys, all_nil, Bool.and_true, Bool.and_assoc]
  | gt =>
    have hr : ∀ p ∈ toList r1, cmp p.1 v2 = .gt := fun p hp =>
      TransCmp.gt_trans (gt_of_lt (hvr p hp)) hv
    rw [allKeys_right hs2 hr, binding_append_cons hs2, hv]
    simp only [Bool.and_comm]

/-- The keys of `m1` are in `m2`, with values that satisfy `pr`. -/
def submapTest (pr : K → α → β → Bool) (k : K) (d1 : α) (o : Option β) : Bool :=
  match o with
  | none => false
  | some d2 => pr k d1 d2

def disjointTest (pr : K → α → β → Bool) (k : K) (d1 : α) (o : Option β) : Bool :=
  match o with
  | none => true
  | some d2 => pr k d1 d2

theorem submap_eq (pr : K → α → β → Bool) {s2 : Tree K β}
    (h1 : Sorted cmp (toList s1)) (h2 : Sorted cmp (toList s2)) :
    submap cmp pr s1 s2 = allKeys cmp (submapTest pr) (toList s2) (toList s1) := by
  fun_induction submap cmp pr s1 s2 with
  | case1 => rfl
  | case2 s1 hne =>
    cases s1 with
    | empty => exact absurd rfl hne
    | node l1 v1 d1 r1 th =>
      rw [toList_node, allKeys_append, allKeys_cons]
      simp [binding, submapTest]
  | case3 l1 v1 d1 r1 th l2 v2 d2 r2 th2 hv ihl ihr =>
    obtain ⟨hl1, hr1, _, _⟩ := sorted_append_cons.mp h1
    obtain ⟨hl2, hr2, _, _⟩ := sorted_append_cons.mp h2
    rw [allKeys_node h1 h2, hv, ihl hl1 hl2, ihr hr1 hr2]
    rfl
  | case4 l1 v1 d1 r1 th l2 v2 d2 r2 th2 hv ihl ihr =>
    obtain ⟨hl1, hr1, hlv, _⟩ := sorted_append_cons.mp h1
    obtain ⟨hl2, _, _, _⟩ := sorted_append_cons.mp h2
    rw [allKeys_node h1 h2, hv,
      ihl (sorted_append_cons.mpr ⟨hl1, sorted_nil, hlv, by simp⟩) hl2, ihr hr1 h2]
  | case5 l1 v1 d1 r1 th l2 v2 d2 r2 th2 hv ihr ihl =>
    obtain ⟨hl1, hr1, _, hvr⟩ := sorted_append_cons.mp h1
    obtain ⟨_, hr2, _, _⟩ := sorted_append_cons.mp h2
    rw [allKeys_node h1 h2, hv,
      ihr (sorted_append_cons.mpr ⟨sorted_nil, hr1, by simp, hvr⟩) hr2, ihl hl1 h2]

theorem disjoint_eq (pr : K → α → β → Bool) {s2 : Tree K β}
    (h1 : Sorted cmp (toList s1)) (h2 : Sorted cmp (toList s2)) :
    disjoint cmp pr s1 s2 = allKeys cmp (disjointTest pr) (toList s2) (toList s1) := by
  fun_induction disjoint cmp pr s1 s2 with
  | case1 => rfl
  | case2 s1 hne =>
    simp [allKeys, binding, disjointTest]
  | case3 l1 v1 d1 r1 th l2 v2 d2 r2 th2 hv ihl ihr =>
    obtain ⟨hl1, hr1, _, _⟩ := sorted_append_cons.mp h1
    obtain ⟨hl2, hr2, _, _⟩ := sorted_append_cons.mp h2
    rw [allKeys_node h1 h2, hv, ihl hl1 hl2, ihr hr1 hr2]
    rfl
  | case4 l1 v1 d1 r1 th l2 v2 d2 r2 th2 hv ihl ihr =>
    obtain ⟨hl1, hr1, hlv, _⟩ := sorted_append_cons.mp h1
    obtain ⟨hl2, _, _, _⟩ := sorted_append_cons.mp h2
    rw [allKeys_node h1 h2, hv,
      ihl (sorted_append_cons.mpr ⟨hl1, sorted_nil, hlv, by simp⟩) hl2, ihr hr1 h2]
  | case5 l1 v1 d1 r1 th l2 v2 d2 r2 th2 hv ihr ihl =>
    obtain ⟨hl1, hr1, _, hvr⟩ := sorted_append_cons.mp h1
    obtain ⟨_, hr2, _, _⟩ := sorted_append_cons.mp h2
    rw [allKeys_node h1 h2, hv,
      ihr (sorted_append_cons.mpr ⟨sorted_nil, hr1, by simp, hvr⟩) hr2, ihl hl1 h2]

end Tests

end Why3.Extmap
