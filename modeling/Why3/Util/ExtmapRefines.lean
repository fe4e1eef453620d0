import Why3.Util.ExtmapFold

/-!
# The operations on maps refine those on finite functions

A balanced search tree stands for the finite function `lookup`, which gives the
binding of a key.  The statements below say, for each added operation, what
function its result stands for, and that the result is a balanced search tree
again.
-/

namespace Why3.Extmap

open SortedAssoc Std
open Prod (fst snd)

variable {K : Type} {cmp : K → K → Ordering}

/-! ## What the operations are for -/

section Statements

/-- `m` is a balanced search tree that stands for `g`. -/
structure Represents {α : Type} (cmp : K → K → Ordering) (m : Tree K α)
    (g : K → Option (K × α)) : Prop where
  valid : Valid cmp m
  lookup : ∀ k, lookup cmp m k = g k

/-- The operations that change one binding. -/
structure BindingOps (cmp : K → K → Ordering) : Prop where
  change : ∀ {α ε : Type} (f : Option α → Except ε (Option α)) (x : K) {m : Tree K α}, Valid cmp m →
    match f ((lookup cmp m x).map snd) with
    | .error e => change cmp f x m = .error e
    | .ok o => ∃ m', change cmp f x m = .ok m' ∧ Represents cmp m' (fun k =>
      if cmp k x = .eq then o.map (x, ·) else lookup cmp m k)
  addNew : ∀ {α ε : Type} (e : ε) (x : K) (v : α) {m : Tree K α}, Valid cmp m →
    if (lookup cmp m x).isSome then addNew cmp e x v m = .error e
    else ∃ m', addNew cmp e x v m = .ok m' ∧ Represents cmp m' (fun k =>
      if cmp k x = .eq then some (x, v) else lookup cmp m k)
  replace : ∀ {α ε : Type} (e : ε) (x : K) (v : α) {m : Tree K α}, Valid cmp m →
    if (lookup cmp m x).isSome then ∃ m', replace cmp e x v m = .ok m' ∧ Represents cmp m' (fun k =>
      if cmp k x = .eq then some (x, v) else lookup cmp m k)
    else replace cmp e x v m = .error e

/-- The operations on two maps that return a map. -/
structure PairOps (cmp : K → K → Ordering) : Prop where
  inter : ∀ {α β γ : Type} (f : K → α → β → Option γ) {m1 : Tree K α} {m2 : Tree K β},
    Valid cmp m1 → Valid cmp m2 → Represents cmp (inter cmp f m1 m2) (fun k =>
      match lookup cmp m1 k, lookup cmp m2 k with
      | some p, some q => (f p.1 p.2 q.2).map (p.1, ·)
      | _, _ => none)
  diff : ∀ {α β : Type} (f : K → α → β → Option α) {m1 : Tree K α} {m2 : Tree K β},
    Valid cmp m1 → Valid cmp m2 → Represents cmp (diff cmp f m1 m2) (fun k =>
      match lookup cmp m1 k, lookup cmp m2 k with
      | some p, some q => (f p.1 p.2 q.2).map (p.1, ·)
      | o, none => o
      | none, _ => none)
  setInter : ∀ {α β : Type} {m1 : Tree K α} {m2 : Tree K β}, Valid cmp m1 → Valid cmp m2 →
    Represents cmp (setInter cmp m1 m2) (fun k =>
      if (lookup cmp m2 k).isSome then lookup cmp m1 k else none)
  setDiff : ∀ {α β : Type} {m1 : Tree K α} {m2 : Tree K β}, Valid cmp m1 → Valid cmp m2 →
    Represents cmp (setDiff cmp m1 m2) (fun k =>
      if (lookup cmp m2 k).isSome then none else lookup cmp m1 k)
  /-- The key of a binding of both maps is that of one of them. -/
  setUnion : ∀ {α : Type} {m1 m2 : Tree K α}, Valid cmp m1 → Valid cmp m2 →
    Valid cmp (setUnion cmp m1 m2) ∧ (∀ k, (lookup cmp (setUnion cmp m1 m2) k).map snd =
      ((lookup cmp m1 k).or (lookup cmp m2 k)).map snd) ∧
    ∀ k ∈ keys (setUnion cmp m1 m2), k ∈ keys m1 ∨ k ∈ keys m2

/-- The tests on two maps, and their comparison. -/
structure TestOps (cmp : K → K → Ordering) : Prop where
  submap : ∀ {α β : Type} (pr : K → α → β → Bool) {m1 : Tree K α} {m2 : Tree K β},
    Valid cmp m1 → Valid cmp m2 → (submap cmp pr m1 m2 = true ↔
      ∀ k p, lookup cmp m1 k = some p → ∃ q, lookup cmp m2 k = some q ∧ pr p.1 p.2 q.2 = true)
  disjoint : ∀ {α β : Type} (pr : K → α → β → Bool) {m1 : Tree K α} {m2 : Tree K β},
    Valid cmp m1 → Valid cmp m2 → (disjoint cmp pr m1 m2 = true ↔
      ∀ k p q, lookup cmp m1 k = some p → lookup cmp m2 k = some q → pr p.1 p.2 q.2 = true)
  setSubmap : ∀ {α β : Type} {m1 : Tree K α} {m2 : Tree K β}, Valid cmp m1 → Valid cmp m2 →
    (setSubmap cmp m1 m2 = true ↔ ∀ k, (lookup cmp m1 k).isSome → (lookup cmp m2 k).isSome)
  setDisjoint : ∀ {α β : Type} {m1 : Tree K α} {m2 : Tree K β}, Valid cmp m1 → Valid cmp m2 →
    (setDisjoint cmp m1 m2 = true ↔
      ∀ k, ¬ ((lookup cmp m1 k).isSome ∧ (lookup cmp m2 k).isSome))
  setEqual : ∀ {α β : Type} {m1 : Tree K α} {m2 : Tree K β}, Valid cmp m1 → Valid cmp m2 →
    (setEqual cmp m1 m2 = true ↔ ∀ k, (lookup cmp m1 k).isSome ↔ (lookup cmp m2 k).isSome)
  setCompare_eq : ∀ {α β : Type} {m1 : Tree K α} {m2 : Tree K β}, Valid cmp m1 → Valid cmp m2 →
    (setCompare cmp m1 m2 = .eq ↔ ∀ k, (lookup cmp m1 k).isSome ↔ (lookup cmp m2 k).isSome)
  setCompare_swap : ∀ {α β : Type} (m1 : Tree K α) (m2 : Tree K β),
    setCompare cmp m2 m1 = (setCompare cmp m1 m2).swap
  setCompare_trans : ∀ {α β γ : Type} (m1 : Tree K α) (m2 : Tree K β) (m3 : Tree K γ),
    (setCompare cmp m1 m2).isLE → (setCompare cmp m2 m3).isLE → (setCompare cmp m1 m3).isLE
  isNumElt : ∀ {α : Type} (n : ℤ) (m : Tree K α), isNumElt n m = true ↔ n = (toList m).length

/-- The operations that go through a map. -/
structure MapOps (cmp : K → K → Ordering) : Prop where
  mapFilter : ∀ {α β : Type} (f : α → Option β) {m : Tree K α}, Valid cmp m →
    Represents cmp (mapFilter f m) (fun k =>
      (lookup cmp m k).bind (fun p => (f p.2).map (p.1, ·)))
  mapiFilter : ∀ {α β : Type} (f : K → α → Option β) {m : Tree K α}, Valid cmp m →
    Represents cmp (mapiFilter f m) (fun k =>
      (lookup cmp m k).bind (fun p => (f p.1 p.2).map (p.1, ·)))
  /-- The function meets the bindings in increasing order of the keys. -/
  mapiFold : ∀ {α β γ : Type} (f : K → α → γ → γ × β) {m : Tree K α} (acc : γ), Valid cmp m →
    (mapiFold f m acc).1 = (toList m).foldl (fun acc p => (f p.1 p.2 acc).1) acc ∧
    Represents cmp (mapiFold f m acc).2 (fun k => (lookup cmp m k).map (fun p =>
      (p.1, (f p.1 p.2 (accBefore cmp (fun k d acc => (f k d acc).1) (toList m) acc p.1)).2)))
  mapiFilterFold : ∀ {α β γ : Type} (f : K → α → γ → γ × Option β) {m : Tree K α} (acc : γ),
    Valid cmp m →
    (mapiFilterFold f m acc).1 = (toList m).foldl (fun acc p => (f p.1 p.2 acc).1) acc ∧
    Represents cmp (mapiFilterFold f m acc).2 (fun k => (lookup cmp m k).bind (fun p =>
      (f p.1 p.2 (accBefore cmp (fun k d acc => (f k d acc).1) (toList m) acc p.1)).2.map (p.1, ·)))
  translate : ∀ {α : Type} (f : K → K) {m : Tree K α}, Valid cmp m →
    ((∀ k ∈ keys m, ∀ k' ∈ keys m, cmp k k' = .lt → cmp (f k) (f k') = .lt) →
      ∃ m', translate cmp f m = .ok m' ∧ Valid cmp m' ∧
        toList m' = (toList m).map (fun p => (f p.1, p.2))) ∧
    ((¬ ∀ k ∈ keys m, ∀ k' ∈ keys m, cmp k k' = .lt → cmp (f k) (f k') = .lt) →
      translate cmp f m = .error ⟨"Map.translate: invalid function parameter"⟩)
  fold2Inter : ∀ {α β γ : Type} (f : K → α → β → γ → γ) {m1 : Tree K α} {m2 : Tree K β} (acc : γ),
    Valid cmp m1 → Valid cmp m2 → fold2Inter cmp f m1 m2 acc = (toList m1).foldl (fun acc p =>
      match lookup cmp m2 p.1 with
      | none => acc
      | some q => f p.1 p.2 q.2 acc) acc
  fold2Union : ∀ {α β γ : Type} (f : K → Option α → Option β → γ → γ) {m1 : Tree K α}
    {m2 : Tree K β} (acc : γ), Valid cmp m1 → Valid cmp m2 →
    ∃ ks : List K, ks.Pairwise (fun k k' => cmp k k' = .lt) ∧
      (∀ k, k ∈ ks ↔ k ∈ keys m1 ∨ (k ∈ keys m2 ∧ lookup cmp m1 k = none)) ∧
      fold2Union cmp f m1 m2 acc = ks.foldl (fun acc k =>
        f k ((lookup cmp m1 k).map snd) ((lookup cmp m2 k).map snd) acc) acc

/-- The enumerations: the bindings that are left, in increasing order. -/
structure EnumOps (cmp : K → K → Ordering) : Prop where
  startEnum : ∀ {α : Type} (m : Tree K α), (startEnum m).toList = toList m
  valEnum : ∀ {α : Type} (e : Enumeration K α), valEnum e = e.toList.head?
  nextEnum : ∀ {α : Type} (e : Enumeration K α), (nextEnum e).toList = e.toList.tail
  startGeEnum : ∀ {α : Type} (k : K) {m : Tree K α}, Valid cmp m →
    (startGeEnum cmp k m).toList = fromKey cmp k (toList m)
  nextGeEnum : ∀ {α : Type} (k : K) {e : Enumeration K α}, Sorted cmp e.toList →
    (nextGeEnum cmp k e).toList = fromKey cmp k e.toList

end Statements

/-! ## Proofs -/

section Proofs

variable [TransCmp cmp]

theorem lookup_congr {α : Type} {m : Tree K α} {k k' : K} (h : cmp k k' = .eq) :
    lookup cmp m k = lookup cmp m k' :=
  binding_congr h

omit [TransCmp cmp] in
theorem eq_of_lookup {α : Type} {m : Tree K α} {k : K} {p : K × α} (h : lookup cmp m k = some p) :
    cmp k p.1 = .eq :=
  (mem_of_binding h).2

theorem bindingOps : BindingOps cmp := by
  have hchange : ∀ {α ε : Type} (f : Option α → Except ε (Option α)) (x : K) {m : Tree K α},
      Valid cmp m →
      match f ((lookup cmp m x).map snd) with
      | .error e => change cmp f x m = .error e
      | .ok o => ∃ m', change cmp f x m = .ok m' ∧ Represents cmp m' (fun k =>
        if cmp k x = .eq then o.map (x, ·) else lookup cmp m k) := by
    intro α ε f x m h
    have hspec := change_spec (f := f) (x := x) h
    rw [findOpt_eq_lookup h] at hspec
    cases hf : f ((lookup cmp m x).map snd) with
    | error e => rwa [hf] at hspec
    | ok o =>
      rw [hf] at hspec
      obtain ⟨m', hm', hv, hl⟩ := hspec
      exact ⟨m', hm', hv, hl⟩
  refine ⟨hchange, ?_, ?_⟩
  · intro α ε e x v m h
    obtain ⟨f, hf, hsome, hnone⟩ : ∃ f : Option α → Except ε (Option α),
        addNew cmp e x v m = change cmp f x m ∧ (∀ w, f (some w) = .error e) ∧
          f none = .ok (some v) := ⟨_, rfl, fun _ => rfl, rfl⟩
    have hspec := hchange f x h
    rw [← hf] at hspec
    cases hl : lookup cmp m x with
    | none => rw [hl, Option.map_none, hnone] at hspec; exact hspec
    | some p => rw [hl, Option.map_some, hsome] at hspec; exact hspec
  · intro α ε e x v m h
    obtain ⟨f, hf, hsome, hnone⟩ : ∃ f : Option α → Except ε (Option α),
        replace cmp e x v m = change cmp f x m ∧ (∀ w, f (some w) = .ok (some v)) ∧
          f none = .error e := ⟨_, rfl, fun _ => rfl, rfl⟩
    have hspec := hchange f x h
    rw [← hf] at hspec
    cases hl : lookup cmp m x with
    | none => rw [hl, Option.map_none, hnone] at hspec; exact hspec
    | some p => rw [hl, Option.map_some, hsome] at hspec; exact hspec

theorem pairOps : PairOps cmp := by
  have hinter : ∀ {α β γ : Type} (f : K → α → β → Option γ) {m1 : Tree K α} {m2 : Tree K β},
      Valid cmp m1 → Valid cmp m2 → Represents cmp (inter cmp f m1 m2) (fun k =>
        match lookup cmp m1 k, lookup cmp m2 k with
        | some p, some q => (f p.1 p.2 q.2).map (p.1, ·)
        | _, _ => none) := by
    intro α β γ f m1 m2 h1 h2
    obtain ⟨hv, hl⟩ := kept_spec h1 (balanced_inter f m1 m2) (toList_inter f h1.sorted h2.sorted)
    refine ⟨hv, fun k => ?_⟩
    rw [hl k]
    cases hp : lookup cmp m1 k with
    | none => rfl
    | some p =>
      rw [lookup_congr (eq_of_lookup hp), Option.bind_some, keep, ← lookup]
      cases lookup cmp m2 p.1 <;> rfl
  have hdiff : ∀ {α β : Type} (f : K → α → β → Option α) {m1 : Tree K α} {m2 : Tree K β},
      Valid cmp m1 → Valid cmp m2 → Represents cmp (diff cmp f m1 m2) (fun k =>
        match lookup cmp m1 k, lookup cmp m2 k with
        | some p, some q => (f p.1 p.2 q.2).map (p.1, ·)
        | o, none => o
        | none, _ => none) := by
    intro α β f m1 m2 h1 h2
    obtain ⟨hv, hl⟩ := kept_spec h1 (balanced_diff f h1.balanced m2)
      (toList_diff f h1.sorted h2.sorted)
    refine ⟨hv, fun k => ?_⟩
    rw [hl k]
    cases hp : lookup cmp m1 k with
    | none => cases lookup cmp m2 k <;> rfl
    | some p =>
      rw [lookup_congr (eq_of_lookup hp), Option.bind_some, keep, ← lookup]
      cases lookup cmp m2 p.1 <;> rfl
  refine ⟨hinter, hdiff, ?_, ?_, ?_⟩
  · intro α β m1 m2 h1 h2
    obtain ⟨hv, hl⟩ := hinter (fun _ x _ => some x) h1 h2
    refine ⟨hv, fun k => (hl k).trans ?_⟩
    cases lookup cmp m1 k <;> cases lookup cmp m2 k <;> rfl
  · intro α β m1 m2 h1 h2
    obtain ⟨hv, hl⟩ := hdiff (fun _ _ _ => none) h1 h2
    refine ⟨hv, fun k => (hl k).trans ?_⟩
    cases lookup cmp m1 k <;> cases lookup cmp m2 k <;> rfl
  · intro α m1 m2 h1 h2
    obtain ⟨hs, hkeys, hval⟩ := unionOf_union (f := fun _ x _ => some x) (fun _ _ _ => rfl) m1 m2
      h1.sorted h2.sorted
    refine ⟨valid_of_sorted hs (balanced_union _ m1 m2 h1.balanced h2.balanced), fun k => ?_, ?_⟩
    · refine (hval k).trans ?_
      rw [value, value, ← lookup, ← lookup]
      cases lookup cmp m1 k <;> cases lookup cmp m2 k <;> rfl
    · intro k hk
      obtain ⟨p, hp, rfl⟩ := List.mem_map.mp hk
      exact hkeys p hp

theorem allKeys_iff {α β : Type} {g : K → α → Option β → Bool} {m1 : Tree K α} {m2 : Tree K β}
    (h1 : Valid cmp m1) : allKeys cmp g (toList m2) (toList m1) = true ↔
      ∀ k p, lookup cmp m1 k = some p → g p.1 p.2 ((lookup cmp m2 k).map snd) = true := by
  have hself : ∀ k : K, cmp k k = .eq := fun _ => ReflCmp.compare_self
  rw [allKeys, List.all_eq_true]
  constructor
  · intro h k p hp
    rw [lookup_congr (eq_of_lookup hp)]
    exact h p (mem_of_binding hp).1
  · intro h p hp
    exact h p.1 p ((binding_eq_some h1.sorted).mpr ⟨hp, hself p.1⟩)

theorem testOps : TestOps cmp := by
  have hsubmap : ∀ {α β : Type} (pr : K → α → β → Bool) {m1 : Tree K α} {m2 : Tree K β},
      Valid cmp m1 → Valid cmp m2 → (submap cmp pr m1 m2 = true ↔
        ∀ k p, lookup cmp m1 k = some p →
          ∃ q, lookup cmp m2 k = some q ∧ pr p.1 p.2 q.2 = true) := by
    intro α β pr m1 m2 h1 h2
    rw [submap_eq pr h1.sorted h2.sorted, allKeys_iff h1]
    refine forall₃_congr (fun k p _ => ?_)
    cases lookup cmp m2 k with
    | none => simp [submapTest]
    | some q => simp [submapTest]
  have hdisjoint : ∀ {α β : Type} (pr : K → α → β → Bool) {m1 : Tree K α} {m2 : Tree K β},
      Valid cmp m1 → Valid cmp m2 → (disjoint cmp pr m1 m2 = true ↔
        ∀ k p q, lookup cmp m1 k = some p → lookup cmp m2 k = some q →
          pr p.1 p.2 q.2 = true) := by
    intro α β pr m1 m2 h1 h2
    rw [disjoint_eq pr h1.sorted h2.sorted, allKeys_iff h1]
    refine forall₂_congr (fun k p => ?_)
    cases lookup cmp m2 k with
    | none => simp [disjointTest]
    | some q => simp [disjointTest]
  refine ⟨hsubmap, hdisjoint, ?_, ?_, ?_, setCompare_eq_iff, ?_, ?_, ?_⟩
  · intro α β m1 m2 h1 h2
    rw [setSubmap, hsubmap _ h1 h2]
    simp only [Option.isSome_iff_exists, and_true, forall_exists_index]
  · intro α β m1 m2 h1 h2
    rw [setDisjoint, hdisjoint _ h1 h2]
    simp only [Option.isSome_iff_exists]
    constructor
    · rintro h k ⟨⟨p, hp⟩, q, hq⟩
      cases h k p q hp hq
    · intro h k p q hp hq
      exact absurd ⟨⟨p, hp⟩, q, hq⟩ (h k)
  · intro α β m1 m2 h1 h2
    rw [setEqual_eq, beq_iff_eq, setCompare_eq_iff h1 h2]
  · intro α β m1 m2
    rw [setCompare_eq, setCompare_eq]
    exact OrientedCmp.eq_swap
  · intro α β γ m1 m2 m3
    rw [setCompare_eq, setCompare_eq, setCompare_eq]
    exact TransCmp.isLE_trans
  · intro α n m
    rw [isNumElt_eq, decide_eq_true_iff, length_toList]

theorem mapOps : MapOps cmp := by
  have hmapi : ∀ {α β : Type} (f : K → α → Option β) {m : Tree K α}, Valid cmp m →
      Represents cmp (mapiFilter f m) (fun k =>
        (lookup cmp m k).bind (fun p => (f p.1 p.2).map (p.1, ·))) := by
    intro α β f m h
    obtain ⟨hv, hl⟩ := kept_spec h (balanced_mapiFilter f m) (toList_mapiFilter f m)
    exact ⟨hv, hl⟩
  refine ⟨?_, hmapi, ?_, ?_, fun f _ => translate_spec, ?_, ?_⟩
  · intro α β f m h
    rw [mapFilter_eq]
    exact hmapi (fun _ => f) h
  · intro α β γ f m acc h
    obtain ⟨h₁, h₂⟩ := mapiFold_eq f m acc
    obtain ⟨hv, hl⟩ := accumulated_spec h (balanced_mapiFold f h.balanced acc).1 h₂
    refine ⟨by rw [h₁, mapAccum_fst], hv, fun k => (hl k).trans ?_⟩
    cases lookup cmp m k <;> rfl
  · intro α β γ f m acc h
    obtain ⟨h₁, h₂⟩ := mapiFilterFold_eq f m acc
    obtain ⟨hv, hl⟩ := accumulated_spec h (balanced_mapiFilterFold f m acc) h₂
    exact ⟨by rw [h₁, mapAccum_fst], hv, hl⟩
  · intro α β γ f m1 m2 acc h1 h2
    have hlist : ∀ {δ : Type} (m : Tree K δ), (consEnum m .done).toList = toList m := toList_startEnum
    rw [fold2Inter, fold2InterAux_eq f acc (by rw [hlist]; exact h1.sorted)
      (by rw [hlist]; exact h2.sorted), hlist, hlist]
    rfl
  · intro α β γ f m1 m2 acc h1 h2
    have hlist : ∀ {δ : Type} (m : Tree K δ), (consEnum m .done).toList = toList m := toList_startEnum
    have hs1 : Sorted cmp (consEnum m1 .done).toList := by rw [hlist]; exact h1.sorted
    have hs2 : Sorted cmp (consEnum m2 .done).toList := by rw [hlist]; exact h2.sorted
    obtain ⟨ks, hks, heq⟩ := fold2UnionAux_eq f acc hs1 hs2
    rw [hlist, hlist] at hks heq
    exact ⟨ks, hks.sorted, hks.mem, heq⟩

theorem enumOps : EnumOps cmp :=
  ⟨toList_startEnum, valEnum_eq, toList_nextEnum, fun _ _ h => toList_startGeEnum h.sorted,
    fun _ _ h => toList_nextGeEnum h⟩

end Proofs

/-- Each added operation computes its finite function, and returns balanced search
trees; `find_opt` reads the function. -/
theorem extmap_refines (cmp : K → K → Ordering) [TransCmp cmp] :
    (∀ {α : Type} {m : Tree K α}, Valid cmp m →
      ∀ k, findOpt cmp k m = (lookup cmp m k).map snd) ∧
    BindingOps cmp ∧ PairOps cmp ∧ TestOps cmp ∧ MapOps cmp ∧ EnumOps cmp :=
  ⟨findOpt_eq_lookup, bindingOps, pairOps, testOps, mapOps, enumOps⟩

/-- The keys 1 and 2. -/
def sampleMap : Tree ℕ ℕ := .node .empty 1 10 (.node .empty 2 20 .empty 1) 2

theorem extmap_refines_nat :
    ∃ m', change Ord.compare (fun o => (.ok (o.map (· + 1)) : Except Unit (Option ℕ))) 2 sampleMap =
      .ok m' ∧ Represents Ord.compare m' (fun k =>
        if Ord.compare k 2 = .eq then some (2, 21) else lookup Ord.compare sampleMap k) := by
  have hvalid : Valid (Ord.compare : ℕ → ℕ → Ordering) sampleMap := by
    refine ⟨⟨trivial, ⟨trivial, trivial, by simp, by simp⟩, by simp, by decide⟩, ?_⟩
    exact ⟨trivial, ⟨trivial, trivial, rfl, by decide, by decide⟩, rfl, by decide, by decide⟩
  exact (extmap_refines (Ord.compare : ℕ → ℕ → Ordering)).2.1.change
    (fun o => (.ok (o.map (· + 1)) : Except Unit (Option ℕ))) 2 hvalid

end Why3.Extmap
