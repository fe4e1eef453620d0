import Why3.Util.ExtmapCorrect

/-!
# Folds and enumerations of maps

A fold goes through the bindings in increasing order of the keys.  Two maps are
folded together through enumerations, which hold the bindings that are left.
-/

namespace Why3.Extmap

open SortedAssoc Std List OrientedCmp TransCmp

variable {K α β γ ε : Type} {cmp : K → K → Ordering}

/-! ## Maps with an accumulator -/

variable {m : Tree K α} {l : List (K × α)} {f : K → α → γ → γ × Option β}

section Accumulator

/-- Goes through the bindings in order; the function updates the accumulator and
says what becomes of the binding. -/
def mapAccum (f : K → α → γ → γ × Option β) : List (K × α) → γ → γ × List (K × β)
  | [], acc => (acc, [])
  | p :: l, acc =>
    let r := f p.1 p.2 acc
    let s := mapAccum f l r.1
    (s.1, (r.2.map (p.1, ·)).toList ++ s.2)

theorem mapAccum_append (f : K → α → γ → γ × Option β) (A B : List (K × α)) (acc : γ) :
    mapAccum f (A ++ B) acc =
      ((mapAccum f B (mapAccum f A acc).1).1,
        (mapAccum f A acc).2 ++ (mapAccum f B (mapAccum f A acc).1).2) := by
  induction A generalizing acc with
  | nil => rfl
  | cons p A ih =>
    rw [cons_append, mapAccum, mapAccum, ih]
    simp only [append_assoc]

theorem mapiFilterFold_eq (f : K → α → γ → γ × Option β) (m : Tree K α) (acc : γ) :
    (mapiFilterFold f m acc).1 = (mapAccum f (toList m) acc).1 ∧
      toList (mapiFilterFold f m acc).2 = (mapAccum f (toList m) acc).2 := by
  induction m generalizing acc with
  | empty => exact ⟨rfl, rfl⟩
  | node l v d r h ihl ihr =>
    obtain ⟨hl₁, hl₂⟩ := ihl acc
    rw [mapiFilterFold, toList_node, mapAccum_append, mapAccum]
    simp only
    rw [toList_concatOrJoin, hl₂, ← hl₁]
    obtain ⟨hr₁, hr₂⟩ := ihr (f v d (mapiFilterFold f l acc).1).1
    exact ⟨hr₁, by rw [hr₂]⟩

theorem balanced_mapiFilterFold (f : K → α → γ → γ × Option β) (m : Tree K α) (acc : γ) :
    Balanced (mapiFilterFold f m acc).2 := by
  induction m generalizing acc with
  | empty => trivial
  | node l v d r h ihl ihr =>
    rw [mapiFilterFold]
    exact (ihl acc).concatOrJoin (ihr _)

theorem mapiFold_eq (f : K → α → γ → γ × β) (m : Tree K α) (acc : γ) :
    (mapiFold f m acc).1 = (mapAccum (fun k d acc => ((f k d acc).1, some (f k d acc).2))
        (toList m) acc).1 ∧
      toList (mapiFold f m acc).2 = (mapAccum (fun k d acc => ((f k d acc).1, some (f k d acc).2))
        (toList m) acc).2 := by
  induction m generalizing acc with
  | empty => exact ⟨rfl, rfl⟩
  | node l v d r h ihl ihr =>
    obtain ⟨hl₁, hl₂⟩ := ihl acc
    rw [mapiFold, toList_node, mapAccum_append, mapAccum]
    simp only
    rw [toList_node, hl₂, ← hl₁]
    obtain ⟨hr₁, hr₂⟩ := ihr (f v d (mapiFold f l acc).1).1
    exact ⟨hr₁, by rw [hr₂]; rfl⟩

/-- The tree keeps its shape. -/
theorem balanced_mapiFold (f : K → α → γ → γ × β) (h : Balanced m) (acc : γ) :
    Balanced (mapiFold f m acc).2 ∧ height (mapiFold f m acc).2 = height m := by
  induction m generalizing acc with
  | empty => exact ⟨trivial, rfl⟩
  | node l v d r th ihl ihr =>
    obtain ⟨hl, hr, hh⟩ := h
    rw [mapiFold]
    obtain ⟨hl₁, hl₂⟩ := ihl hl acc
    obtain ⟨hr₁, hr₂⟩ := ihr hr (f v d (mapiFold f l acc).1).1
    refine ⟨⟨hl₁, hr₁, ?_⟩, rfl⟩
    rw [hl₂, hr₂]
    exact hh

theorem mapAccum_fst (f : K → α → γ → γ × Option β) (l : List (K × α)) (acc : γ) :
    (mapAccum f l acc).1 = l.foldl (fun acc p => (f p.1 p.2 acc).1) acc := by
  induction l generalizing acc with
  | nil => rfl
  | cons p l ih => exact ih _

/-- The accumulator when the fold comes to the key `k`. -/
def accBefore (cmp : K → K → Ordering) (g : K → α → γ → γ) (l : List (K × α)) (acc : γ) (k : K) : γ :=
  (below cmp k l).foldl (fun acc p => g p.1 p.2 acc) acc

/-- What becomes of a binding. -/
def keepAcc (cmp : K → K → Ordering) (f : K → α → γ → γ × Option β) (l : List (K × α)) (acc : γ)
    (p : K × α) : Option (K × β) :=
  (f p.1 p.2 (accBefore cmp (fun k d acc => (f k d acc).1) l acc p.1)).2.map (p.1, ·)

theorem keepAcc_fst {acc : γ} {p : K × α}
    {q : K × β} (h : keepAcc cmp f l acc p = some q) : q.1 = p.1 := by
  obtain ⟨d, _, rfl⟩ := Option.map_eq_some_iff.mp h
  rfl

theorem mapAccum_snd [TransCmp cmp] (f : K → α → γ → γ × Option β)
    (h : Sorted cmp l) (acc : γ) :
    (mapAccum f l acc).2 = l.filterMap (keepAcc cmp f l acc) := by
  -- `A` is the part already gone through
  have key : ∀ (B A : List (K × α)), Sorted cmp (A ++ B) →
      (mapAccum f B (A.foldl (fun acc p => (f p.1 p.2 acc).1) acc)).2 =
        B.filterMap (keepAcc cmp f (A ++ B) acc) := by
    intro B
    induction B with
    | nil => intro A _; rfl
    | cons p B ih =>
      intro A hs
      have hp : cmp p.1 p.1 = .eq := ReflCmp.compare_self
      have hlow : below cmp p.1 (A ++ p :: B) = A := by
        rw [below_append_cons hs, hp]
      have hrest := ih (A ++ [p]) (by rwa [append_assoc])
      rw [foldl_append, append_assoc] at hrest
      rw [mapAccum, filterMap_cons, keepAcc, accBefore, hlow]
      dsimp only
      rw [show mapAccum f B (f p.1 p.2 (A.foldl (fun acc p => (f p.1 p.2 acc).1) acc)).1 =
        mapAccum f B ([p].foldl (fun acc p => (f p.1 p.2 acc).1)
          (A.foldl (fun acc p => (f p.1 p.2 acc).1) acc)) from rfl, hrest]
      cases (f p.1 p.2 (A.foldl (fun acc p => (f p.1 p.2 acc).1) acc)).2 <;> rfl
  exact key l [] h

theorem accumulated_spec [TransCmp cmp]
    {m' : Tree K β} {acc : γ} (h : Valid cmp m) (hb : Balanced m')
    (hlist : toList m' = (mapAccum f (toList m) acc).2) :
    Valid cmp m' ∧ ∀ k, lookup cmp m' k = (lookup cmp m k).bind (keepAcc cmp f (toList m) acc) := by
  rw [mapAccum_snd f h.sorted] at hlist
  refine ⟨valid_of_sorted ?_ hb, fun k => ?_⟩
  · rw [hlist]
    exact sorted_filterMap (fun _ _ => keepAcc_fst) h.sorted
  · rw [lookup, hlist, binding_filterMap (fun _ _ => keepAcc_fst) h.sorted]
    rfl

end Accumulator

/-! ## Enumerations -/

section Enumerations

/-- The bindings left. -/
def Enumeration.toList : Enumeration K α → List (K × α)
  | .done => []
  | .more v d r e => (v, d) :: (Extmap.toList r ++ e.toList)

@[simp] theorem toList_consEnum (m : Tree K α) (e : Enumeration K α) :
    (consEnum m e).toList = toList m ++ e.toList := by
  induction m generalizing e with
  | empty => rfl
  | node l v d r h ihl _ => rw [consEnum, ihl, toList_node]; simp [Enumeration.toList]

theorem toList_startEnum (m : Tree K α) : (startEnum m).toList = toList m := by
  rw [startEnum, toList_consEnum, Enumeration.toList, append_nil]

theorem valEnum_eq (e : Enumeration K α) : valEnum e = e.toList.head? := by
  cases e <;> rfl

theorem toList_nextEnum (e : Enumeration K α) : (nextEnum e).toList = e.toList.tail := by
  cases e with
  | done => rfl
  | more v d r e => exact toList_consEnum r e

/-- The bindings from the key `k` on. -/
def fromKey (cmp : K → K → Ordering) (k : K) (l : List (K × α)) : List (K × α) :=
  l.filter (fun p => cmp k p.1 != .gt)

variable [TransCmp cmp] {k : K}

theorem fromKey_append_cons {A B : List (K × α)} {p : K × α} (h : Sorted cmp (A ++ p :: B)) :
    fromKey cmp k (A ++ p :: B) =
      match cmp k p.1 with
      | .lt => fromKey cmp k A ++ p :: B
      | .eq => p :: B
      | .gt => fromKey cmp k B := by
  refine (filter_append_cons (· != .gt) h).trans ?_
  cases cmp k p.1 <;> simp [fromKey]

theorem toList_consGeEnum (h : Sorted cmp (toList m)) (e : Enumeration K α) :
    (consGeEnum cmp k m e).toList = fromKey cmp k (toList m) ++ e.toList := by
  induction m generalizing e with
  | empty => rfl
  | node l v d r th ihl ihr =>
    rw [toList_node] at h
    obtain ⟨hl, hr, _, _⟩ := sorted_append_cons.mp h
    rw [consGeEnum, toList_node, fromKey_append_cons h]
    dsimp only
    cases cmp k v with
    | lt =>
      dsimp only
      rw [ihl hl]
      simp [Enumeration.toList]
    | eq => simp [Enumeration.toList]
    | gt => exact ihr hr e

theorem toList_startGeEnum (h : Sorted cmp (toList m)) :
    (startGeEnum cmp k m).toList = fromKey cmp k (toList m) := by
  rw [startGeEnum, toList_consGeEnum h, Enumeration.toList, append_nil]

theorem toList_nextGeEnumAux {r0 : Tree K α} {e : Enumeration K α}
    (h : Sorted cmp (toList r0 ++ e.toList)) :
    (nextGeEnumAux cmp k r0 e).toList = fromKey cmp k (toList r0 ++ e.toList) := by
  induction e generalizing r0 with
  | done =>
    rw [Enumeration.toList, append_nil] at h ⊢
    exact toList_startGeEnum h
  | more v d r e ih =>
    rw [Enumeration.toList] at h ⊢
    obtain ⟨hr0, hrest, _, _⟩ := sorted_append_cons.mp h
    rw [nextGeEnumAux, fromKey_append_cons h]
    dsimp only
    cases cmp k v with
    | lt => exact toList_consGeEnum hr0 _
    | eq => rfl
    | gt => exact ih hrest

theorem toList_nextGeEnum {e : Enumeration K α} (h : Sorted cmp e.toList) :
    (nextGeEnum cmp k e).toList = fromKey cmp k e.toList := by
  rw [nextGeEnum, toList_nextGeEnumAux h, toList_empty, nil_append]

end Enumerations

/-! ## Two maps at once -/

variable {k : K}

section Pairs

variable [TransCmp cmp]

/-- One step of `fold2_inter`. -/
def interStep (cmp : K → K → Ordering) (f : K → α → β → γ → γ) (l : List (K × β)) (acc : γ)
    (p : K × α) : γ :=
  match binding cmp p.1 l with
  | none => acc
  | some q => f p.1 p.2 q.2 acc

omit [TransCmp cmp] in
theorem foldl_interStep_cons {f : K → α → β → γ → γ} {l : List (K × β)} {q : K × β}
    {A : List (K × α)} (h : ∀ p ∈ A, cmp p.1 q.1 = .gt) (acc : γ) :
    A.foldl (interStep cmp f (q :: l)) acc = A.foldl (interStep cmp f l) acc := by
  refine foldl_ext _ _ acc (fun acc p hp => ?_)
  rw [interStep, interStep, binding_cons_of_gt (h p hp)]

theorem fold2InterAux_eq (f : K → α → β → γ → γ) (acc : γ) {e1 : Enumeration K α}
    {e2 : Enumeration K β} (h1 : Sorted cmp e1.toList) (h2 : Sorted cmp e2.toList) :
    fold2InterAux cmp f acc e1 e2 = e1.toList.foldl (interStep cmp f e2.toList) acc := by
  fun_induction fold2InterAux cmp f acc e1 e2 with
  | case1 => rfl
  | case2 acc e1 _ =>
    induction e1.toList with
    | nil => rfl
    | cons p l ih => exact ih
  | case3 acc v1 d1 r1 e1 v2 d2 r2 e2 hv ih =>
    obtain ⟨h1', h1⟩ := sorted_cons.mp h1
    obtain ⟨h2', h2⟩ := sorted_cons.mp h2
    rw [ih (by rwa [toList_consEnum]) (by rwa [toList_consEnum])]
    rw [toList_consEnum, toList_consEnum, Enumeration.toList, Enumeration.toList, foldl_cons]
    rw [foldl_interStep_cons (fun p hp =>
      TransCmp.gt_of_gt_of_eq (OrientedCmp.gt_of_lt (h1' p hp)) hv), interStep,
      binding_cons_of_eq hv]
  | case4 acc v1 d1 r1 e1 v2 d2 r2 e2 hv ih =>
    obtain ⟨_, h1⟩ := sorted_cons.mp h1
    have h2' := sorted_cons.mp h2
    have hnone : binding cmp v1 (Enumeration.more v2 d2 r2 e2).toList = none := by
      refine binding_none_of_lt (fun q hq => ?_)
      rcases mem_cons.mp hq with rfl | hq
      · exact hv
      · exact TransCmp.lt_trans hv (h2'.1 q hq)
    rw [ih (by rwa [toList_consEnum]) h2, toList_consEnum, Enumeration.toList.eq_2 v1,
      foldl_cons, interStep, hnone]
  | case5 acc v1 d1 r1 e1 v2 d2 r2 e2 hv ih =>
    obtain ⟨h1', _⟩ := sorted_cons.mp h1
    obtain ⟨_, h2⟩ := sorted_cons.mp h2
    rw [ih h1 (by rwa [toList_consEnum]), toList_consEnum, Enumeration.toList.eq_2 v2]
    rw [foldl_interStep_cons]
    intro p hp
    rcases mem_cons.mp hp with rfl | hp
    · exact hv
    · exact TransCmp.gt_trans (OrientedCmp.gt_of_lt (h1' p hp)) hv

/-- The keys of two lists in increasing order; a key of both is that of the
first. -/
structure UnionKeys (cmp : K → K → Ordering) (L1 : List (K × α)) (L2 : List (K × β))
    (ks : List K) : Prop where
  sorted : ks.Pairwise (fun k k' => cmp k k' = .lt)
  mem : ∀ k, k ∈ ks ↔
    k ∈ L1.map Prod.fst ∨ (k ∈ L2.map Prod.fst ∧ binding cmp k L1 = none)

/-- One step of `fold2_union`. -/
def unionStep (cmp : K → K → Ordering) (f : K → Option α → Option β → γ → γ) (L1 : List (K × α))
    (L2 : List (K × β)) (acc : γ) (k : K) : γ :=
  f k ((binding cmp k L1).map Prod.snd) ((binding cmp k L2).map Prod.snd) acc

/-- The key `k0` comes first: `h1` and `h2` are its bindings. -/
structure FirstKey (cmp : K → K → Ordering) (k0 : K) (h1 : Option (K × α)) (h2 : Option (K × β))
    (L1 : List (K × α)) (L2 : List (K × β)) : Prop where
  first : ∀ p ∈ h1, p.1 = k0
  second : ∀ q ∈ h2, cmp k0 q.1 = .eq
  only : h1 = none → ∃ q ∈ h2, q.1 = k0
  lt_first : ∀ p ∈ L1, cmp k0 p.1 = .lt
  lt_second : ∀ q ∈ L2, cmp k0 q.1 = .lt

section FirstKey

variable {k0 : K} {h1 : Option (K × α)} {h2 : Option (K × β)} {L1 : List (K × α)}
  {L2 : List (K × β)} {ks : List K}

theorem binding_option_append {o : Option (K × α)}
    (ho : ∀ p ∈ o, cmp k0 p.1 = .eq) (hk : cmp k0 k = .lt) :
    binding cmp k (o.toList ++ l) = binding cmp k l := by
  cases o with
  | none => rfl
  | some p =>
    exact binding_cons_of_gt (gt_of_gt_of_eq (gt_of_lt hk) (ho p rfl))

omit [TransCmp cmp] in
theorem binding_first {o : Option (K × α)} (ho : ∀ p ∈ o, cmp k0 p.1 = .eq)
    (hl : ∀ p ∈ l, cmp k0 p.1 = .lt) : binding cmp k0 (o.toList ++ l) = o := by
  cases o with
  | none => exact binding_none_of_lt hl
  | some p => exact binding_cons_of_eq (ho p rfl)

theorem FirstKey.eq_first (h : FirstKey cmp k0 h1 h2 L1 L2) : ∀ p ∈ h1, cmp k0 p.1 = .eq := by
  intro p hp
  rw [h.first p hp]
  exact ReflCmp.compare_self

omit [TransCmp cmp] in
theorem FirstKey.lt_keys (h : FirstKey cmp k0 h1 h2 L1 L2) (hks : UnionKeys cmp L1 L2 ks) :
    ∀ k ∈ ks, cmp k0 k = .lt := by
  intro k hk
  rcases (hks.mem k).mp hk with hk | ⟨hk, _⟩
  · obtain ⟨p, hp, rfl⟩ := mem_map.mp hk
    exact h.lt_first p hp
  · obtain ⟨q, hq, rfl⟩ := mem_map.mp hk
    exact h.lt_second q hq

theorem FirstKey.unionKeys (h : FirstKey cmp k0 h1 h2 L1 L2) (hks : UnionKeys cmp L1 L2 ks) :
    UnionKeys cmp (h1.toList ++ L1) (h2.toList ++ L2) (k0 :: ks) where
  sorted := pairwise_cons.mpr ⟨h.lt_keys hks, hks.sorted⟩
  mem := by
    intro k
    simp only [mem_cons, map_append, mem_append, hks.mem]
    constructor
    · rintro (rfl | hk | ⟨hk, hnone⟩)
      · cases ho : h1 with
        | some p => exact .inl (.inl (by simp [h.first p ho]))
        | none =>
          obtain ⟨q, hq, heq⟩ := h.only ho
          refine .inr ⟨.inl ?_, binding_none_of_lt h.lt_first⟩
          rw [Option.mem_def] at hq
          simp [hq, heq]
      · exact .inl (.inr hk)
      · obtain ⟨q, hq, rfl⟩ := mem_map.mp hk
        exact .inr ⟨.inr hk, by rw [binding_option_append h.eq_first (h.lt_second q hq), hnone]⟩
    · rintro ((hk | hk) | ⟨hk | hk, hnone⟩)
      · obtain ⟨p, hp, rfl⟩ := mem_map.mp hk
        exact .inl (h.first p (Option.mem_toList.mp hp))
      · exact .inr (.inl hk)
      · obtain ⟨q, hq, rfl⟩ := mem_map.mp hk
        rw [Option.mem_toList] at hq
        have hk0 := binding_first h.eq_first h.lt_first
        rw [binding_congr (h.second q hq), hnone] at hk0
        obtain ⟨q', hq', heq⟩ := h.only hk0.symm
        rw [Option.mem_def.mp hq, Option.mem_some_iff] at hq'
        exact .inl (by rw [hq', heq])
      · obtain ⟨q, hq, rfl⟩ := mem_map.mp hk
        rw [binding_option_append h.eq_first (h.lt_second q hq)] at hnone
        exact .inr (.inr ⟨hk, hnone⟩)

theorem FirstKey.foldl (h : FirstKey cmp k0 h1 h2 L1 L2) (hks : UnionKeys cmp L1 L2 ks)
    (f : K → Option α → Option β → γ → γ) (acc : γ) :
    (k0 :: ks).foldl (unionStep cmp f (h1.toList ++ L1) (h2.toList ++ L2)) acc =
      ks.foldl (unionStep cmp f L1 L2) (f k0 (h1.map Prod.snd) (h2.map Prod.snd) acc) := by
  rw [foldl_cons, unionStep, binding_first h.eq_first h.lt_first,
    binding_first h.second h.lt_second]
  refine foldl_ext _ _ _ (fun acc k hk => ?_)
  have hlt := h.lt_keys hks k hk
  rw [unionStep, unionStep, binding_option_append h.eq_first hlt, binding_option_append h.second hlt]

end FirstKey

theorem fold2UnionAux_eq (f : K → Option α → Option β → γ → γ) (acc : γ) {e1 : Enumeration K α}
    {e2 : Enumeration K β} (h1 : Sorted cmp e1.toList) (h2 : Sorted cmp e2.toList) :
    ∃ ks, UnionKeys cmp e1.toList e2.toList ks ∧
      fold2UnionAux cmp f acc e1 e2 = ks.foldl (unionStep cmp f e1.toList e2.toList) acc := by
  have hself : ∀ k : K, cmp k k = .eq := fun _ => ReflCmp.compare_self
  fun_induction fold2UnionAux cmp f acc e1 e2 with
  | case1 => exact ⟨[], ⟨.nil, by simp [Enumeration.toList]⟩, rfl⟩
  | case2 acc v2 d2 r2 e2 ih =>
    obtain ⟨hlt, h2⟩ := sorted_cons.mp h2
    obtain ⟨ks, hks, heq⟩ := ih h1 (by rwa [toList_consEnum])
    rw [toList_consEnum] at hks heq
    have hfirst : FirstKey cmp v2 (none : Option (K × α)) (some (v2, d2)) []
        (toList r2 ++ e2.toList) :=
      ⟨by simp, by simpa using hself v2, fun _ => ⟨_, rfl, rfl⟩, by simp, hlt⟩
    exact ⟨v2 :: ks, hfirst.unionKeys hks, by rw [heq]; exact (hfirst.foldl hks f acc).symm⟩
  | case3 acc v1 d1 r1 e1 ih =>
    obtain ⟨hlt, h1⟩ := sorted_cons.mp h1
    obtain ⟨ks, hks, heq⟩ := ih (by rwa [toList_consEnum]) h2
    rw [toList_consEnum] at hks heq
    have hfirst : FirstKey cmp v1 (some (v1, d1)) (none : Option (K × β))
        (toList r1 ++ e1.toList) [] :=
      ⟨by simp, by simp, by simp, hlt, by simp⟩
    exact ⟨v1 :: ks, hfirst.unionKeys hks, by rw [heq]; exact (hfirst.foldl hks f acc).symm⟩
  | case4 acc v1 d1 r1 e1 v2 d2 r2 e2 hv ih =>
    obtain ⟨hlt1, h1⟩ := sorted_cons.mp h1
    obtain ⟨hlt2, h2⟩ := sorted_cons.mp h2
    obtain ⟨ks, hks, heq⟩ := ih (by rwa [toList_consEnum]) (by rwa [toList_consEnum])
    rw [toList_consEnum, toList_consEnum] at hks heq
    have hfirst : FirstKey cmp v1 (some (v1, d1)) (some (v2, d2))
        (toList r1 ++ e1.toList) (toList r2 ++ e2.toList) :=
      ⟨by simp, by simpa using hv, by simp, hlt1,
        fun q hq => lt_of_eq_of_lt hv (hlt2 q hq)⟩
    exact ⟨v1 :: ks, hfirst.unionKeys hks, by rw [heq]; exact (hfirst.foldl hks f acc).symm⟩
  | case5 acc v1 d1 r1 e1 v2 d2 r2 e2 hv ih =>
    obtain ⟨hlt1, h1⟩ := sorted_cons.mp h1
    obtain ⟨hlt2, _⟩ := sorted_cons.mp h2
    obtain ⟨ks, hks, heq⟩ := ih (by rwa [toList_consEnum]) h2
    rw [toList_consEnum] at hks heq
    have hfirst : FirstKey cmp v1 (some (v1, d1)) (none : Option (K × β))
        (toList r1 ++ e1.toList) (Enumeration.more v2 d2 r2 e2).toList := by
      refine ⟨by simp, by simp, by simp, hlt1, fun q hq => ?_⟩
      rcases mem_cons.mp hq with rfl | hq
      · exact hv
      · exact lt_trans hv (hlt2 q hq)
    exact ⟨v1 :: ks, hfirst.unionKeys hks, by rw [heq]; exact (hfirst.foldl hks f acc).symm⟩
  | case6 acc v1 d1 r1 e1 v2 d2 r2 e2 hv ih =>
    obtain ⟨hlt1, _⟩ := sorted_cons.mp h1
    obtain ⟨hlt2, h2⟩ := sorted_cons.mp h2
    obtain ⟨ks, hks, heq⟩ := ih h1 (by rwa [toList_consEnum])
    rw [toList_consEnum] at hks heq
    have hfirst : FirstKey cmp v2 (none : Option (K × α)) (some (v2, d2))
        (Enumeration.more v1 d1 r1 e1).toList (toList r2 ++ e2.toList) := by
      refine ⟨by simp, by simpa using hself v2, fun _ => ⟨_, rfl, rfl⟩, fun p hp => ?_, hlt2⟩
      rcases mem_cons.mp hp with rfl | hp
      · exact lt_of_gt hv
      · exact lt_trans (lt_of_gt hv) (hlt1 p hp)
    exact ⟨v2 :: ks, hfirst.unionKeys hks, by rw [heq]; exact (hfirst.foldl hks f acc).symm⟩

end Pairs

/-! ## set_compare, set_equal and is_num_elt -/

variable {ks : List K}

section Sets

theorem compareAux_eq (e1 : Enumeration K α) (e2 : Enumeration K β) :
    compareAux cmp (fun _ _ => .eq) e1 e2 =
      List.compareLex cmp (e1.toList.map Prod.fst) (e2.toList.map Prod.fst) := by
  fun_induction compareAux cmp (fun (_ : α) (_ : β) => .eq) e1 e2 with
  | case1 => rfl
  | case2 e2 hne | case3 e2 hne =>
    cases e2 with
    | done => exact absurd rfl hne
    | more => rfl
  | case4 v1 d1 r1 e1 v2 d2 r2 e2 hv _ ih =>
    rw [ih, toList_consEnum, toList_consEnum]
    simp only [Enumeration.toList, map_cons, List.compareLex_cons_cons, hv, Ordering.then]
  | case5 _ _ _ _ _ _ _ _ _ hne => exact absurd rfl hne
  | case6 v1 d1 r1 e1 v2 d2 r2 e2 hne =>
    simp only [Enumeration.toList, map_cons, List.compareLex_cons_cons]
    cases hv : cmp v1 v2 with
    | lt => rfl
    | eq => exact absurd hv hne
    | gt => rfl

theorem setCompare_eq (m1 : Tree K α) (m2 : Tree K β) :
    setCompare cmp m1 m2 = List.compareLex cmp (keys m1) (keys m2) := by
  rw [setCompare, compare, compareAux_eq, toList_consEnum, toList_consEnum, Enumeration.toList,
    Enumeration.toList, append_nil, append_nil]
  rfl

theorem equalAux_eq (e1 : Enumeration K α) (e2 : Enumeration K β) :
    equalAux cmp (fun _ _ => true) e1 e2 =
      (List.compareLex cmp (e1.toList.map Prod.fst) (e2.toList.map Prod.fst) == .eq) := by
  fun_induction equalAux cmp (fun (_ : α) (_ : β) => true) e1 e2 with
  | case1 => rfl
  | case2 e2 hne | case3 e2 hne =>
    cases e2 with
    | done => exact absurd rfl hne
    | more => rfl
  | case4 v1 d1 r1 e1 v2 d2 r2 e2 ih =>
    rw [ih, toList_consEnum, toList_consEnum]
    simp only [Enumeration.toList, map_cons, List.compareLex_cons_cons, Bool.and_true]
    cases cmp v1 v2 <;> simp [Ordering.then]

theorem setEqual_eq (m1 : Tree K α) (m2 : Tree K β) :
    setEqual cmp m1 m2 = (setCompare cmp m1 m2 == .eq) := by
  rw [setEqual, equal, equalAux_eq, setCompare, compare, compareAux_eq]

variable [TransCmp cmp]

/-- The key `k` is in the list, up to equivalence. -/
def InKeys (cmp : K → K → Ordering) (k : K) (ks : List K) : Prop := ∃ k' ∈ ks, cmp k k' = .eq

variable {x : K}

omit [TransCmp cmp] in
theorem inKeys_cons :
    InKeys cmp x (k :: ks) ↔ cmp x k = .eq ∨ InKeys cmp x ks := by
  simp [InKeys]

theorem lt_of_inKeys (h : ∀ a ∈ ks, cmp k a = .lt) (hx : InKeys cmp x ks) :
    cmp k x = .lt := by
  obtain ⟨a, ha, hxa⟩ := hx
  exact lt_of_lt_of_eq (h a ha) (eq_symm hxa)

theorem inKeys_of_cons {k' : K} {ks' : List K} (hk : cmp k k' = .eq)
    (hlt : ∀ a ∈ ks, cmp k a = .lt) (h : InKeys cmp x (k :: ks) → InKeys cmp x (k' :: ks'))
    (hx : InKeys cmp x ks) : InKeys cmp x ks' := by
  rcases inKeys_cons.mp (h (inKeys_cons.mpr (.inr hx))) with hxk | hx'
  · have hkx := lt_of_inKeys hlt hx
    rw [eq_trans hk (eq_symm hxk)] at hkx
    cases hkx
  · exact hx'

/-- Two sorted lists with the same keys agree key by key. -/
theorem compareLex_eq_iff {ks' : List K} (h : ks.Pairwise (fun k k' => cmp k k' = .lt))
    (h' : ks'.Pairwise (fun k k' => cmp k k' = .lt)) :
    List.compareLex cmp ks ks' = .eq ↔ ∀ k, InKeys cmp k ks ↔ InKeys cmp k ks' := by
  have hself : ∀ k : K, cmp k k = .eq := fun _ => ReflCmp.compare_self
  induction ks generalizing ks' with
  | nil =>
    cases ks' with
    | nil => simp [List.compareLex]
    | cons k' ks' =>
      refine ⟨(nomatch ·), fun h => ?_⟩
      obtain ⟨_, hk, _⟩ := (h k').mpr (inKeys_cons.mpr (.inl (hself k')))
      cases hk
  | cons k ks ih =>
    cases ks' with
    | nil =>
      refine ⟨(nomatch ·), fun h => ?_⟩
      obtain ⟨_, hk, _⟩ := (h k).mp (inKeys_cons.mpr (.inl (hself k)))
      cases hk
    | cons k' ks' =>
      obtain ⟨hlt, h⟩ := pairwise_cons.mp h
      obtain ⟨hlt', h'⟩ := pairwise_cons.mp h'
      rw [List.compareLex_cons_cons, Ordering.then_eq_eq]
      refine (and_congr_right (fun _ => ih h h')).trans ?_
      constructor
      · rintro ⟨hk, hsame⟩ x
        rw [inKeys_cons, inKeys_cons, hsame x, congr_right hk]
      · intro hsame
        have hk : cmp k k' = .eq := by
          rcases inKeys_cons.mp ((hsame k).mp (inKeys_cons.mpr (.inl (hself k)))) with hk | hk
          · exact hk
          · rcases inKeys_cons.mp ((hsame k').mpr (inKeys_cons.mpr (.inl (hself k')))) with
              hk' | hk'
            · exact eq_symm hk'
            · have h₁ := lt_of_inKeys hlt hk'
              have h₂ := lt_of_inKeys hlt' hk
              rw [gt_of_lt h₁] at h₂
              cases h₂
        refine ⟨hk, fun x => ⟨?_, ?_⟩⟩
        · exact inKeys_of_cons hk hlt (hsame x).mp
        · exact inKeys_of_cons (eq_symm hk) hlt' (hsame x).mpr

omit [TransCmp cmp] in
theorem inKeys_keys : InKeys cmp k (keys m) ↔ (lookup cmp m k).isSome := by
  rw [← not_iff_not, Bool.not_eq_true, Option.isSome_eq_false_iff, Option.isNone_iff_eq_none, lookup,
    binding_eq_none]
  simp [InKeys, keys]

theorem Valid.keys_sorted (h : Valid cmp m) :
    (keys m).Pairwise (fun k k' => cmp k k' = .lt) :=
  pairwise_map.mpr h.sorted

theorem setCompare_eq_iff {m1 : Tree K α} {m2 : Tree K β} (h1 : Valid cmp m1) (h2 : Valid cmp m2) :
    setCompare cmp m1 m2 = .eq ↔ ∀ k, (lookup cmp m1 k).isSome ↔ (lookup cmp m2 k).isSome := by
  rw [setCompare_eq, compareLex_eq_iff h1.keys_sorted h2.keys_sorted]
  simp only [inKeys_keys]

end Sets

section NumElt

/-- The fold counts down from `n`; it raises `Exit` below zero. -/
theorem isNumElt_eq (n : ℤ) (m : Tree K α) : isNumElt n m = decide (n = cardinal m) := by
  have hnone : ∀ l : List (K × α), l.foldl (fun (acc : Option ℤ) _ =>
    acc.bind (fun n => if n < 0 then none else some (n - 1))) none = none := by
    intro l
    induction l with
    | nil => rfl
    | cons p l ih => exact ih
  have hcount : ∀ (l : List (K × α)) (n : ℤ), (l.foldl (fun (acc : Option ℤ) _ =>
    acc.bind (fun n => if n < 0 then none else some (n - 1))) (some n) = some 0) ↔ n = l.length := by
    intro l
    induction l with
    | nil => intro n; simp
    | cons p l ih =>
      intro n
      rw [foldl_cons, Option.bind_some, length_cons]
      split
      · next hn =>
          rw [hnone]
          refine ⟨(nomatch ·), fun h => ?_⟩
          omega
      · rw [ih]
        omega
  rw [isNumElt, fold_eq_foldl, Bool.eq_iff_iff, beq_iff_eq, decide_eq_true_iff, hcount, length_toList]

end NumElt

/-! ## translate -/

section Translate

/-- The tree with its keys renamed. -/
def mapKeys (f : K → K) : Tree K α → Tree K α
  | .empty => .empty
  | .node l v d r h => .node (mapKeys f l) (f v) d (mapKeys f r) h

theorem toList_mapKeys (f : K → K) (m : Tree K α) :
    toList (mapKeys f m) = (toList m).map (fun p => (f p.1, p.2)) := by
  induction m with
  | empty => rfl
  | node l v d r h ihl ihr => rw [mapKeys, toList_node, ihl, ihr, toList_node, map_append]; rfl

variable {m : Tree K α}

theorem balanced_mapKeys (f : K → K) (h : Balanced m) :
    Balanced (mapKeys f m) ∧ height (mapKeys f m) = height m := by
  induction m with
  | empty => exact ⟨trivial, rfl⟩
  | node l v d r th ihl ihr =>
    obtain ⟨hl, hr, hh⟩ := h
    refine ⟨⟨(ihl hl).1, (ihr hr).1, ?_⟩, rfl⟩
    rw [(ihl hl).2, (ihr hr).2]
    exact hh

/-- The last key after those of a list. -/
def lastKey (last : Option K) (ks : List K) : Option K := ks.getLast?.or last

/-- The keys increase, from the last one met on. -/
def Increasing (cmp : K → K → Ordering) (last : Option K) (ks : List K) : Prop :=
  (last.toList ++ ks).IsChain (fun k k' => cmp k k' = .lt)

theorem increasing_append {last : Option K} {A B : List K} :
    Increasing cmp last (A ++ k :: B) ↔ Increasing cmp last A ∧
      (∀ k' ∈ lastKey last A, cmp k' k = .lt) ∧ Increasing cmp (some k) B := by
  rw [Increasing, Increasing, Increasing, ← append_assoc, isChain_append]
  have hlast : (last.toList ++ A).getLast? = lastKey last A := by
    rw [getLast?_append, lastKey]
    cases last <;> rfl
  rw [hlast]
  simp only [head?_cons, Option.mem_some_iff, Option.toList_some, singleton_append]
  constructor
  · rintro ⟨hA, hB, hk⟩
    exact ⟨hA, fun k' hk' => hk k' hk' k rfl, hB⟩
  · rintro ⟨hA, hk, hB⟩
    exact ⟨hA, hB, fun k' hk' y hy => hy ▸ hk k' hk'⟩

theorem checkLast_eq (last : Option K) (v : K) :
    ((∀ k' ∈ last, cmp k' v = .lt) → checkLast cmp last v = .ok ()) ∧
    ((¬ ∀ k' ∈ last, cmp k' v = .lt) → checkLast cmp last v =
      .error ⟨"Map.translate: invalid function parameter"⟩) := by
  cases last with
  | none => simp [checkLast]
  | some k => simp [checkLast]

theorem lastKey_append (last : Option K) (A B : List K) (k : K) :
    lastKey last (A ++ k :: B) = lastKey (some k) B := by
  rw [lastKey, lastKey, getLast?_append, getLast?_cons]
  cases B.getLast? <;> rfl

theorem translateAux_spec (f : K → K) (m : Tree K α) (last : Option K) :
    (Increasing cmp last ((keys m).map f) → translateAux cmp f last m =
      .ok (mapKeys f m, lastKey last ((keys m).map f))) ∧
    (¬ Increasing cmp last ((keys m).map f) → translateAux cmp f last m =
      .error ⟨"Map.translate: invalid function parameter"⟩) := by
  induction m generalizing last with
  | empty =>
    refine ⟨fun _ => rfl, fun h => absurd ?_ h⟩
    rw [Increasing, keys, toList_empty, map_nil, map_nil, append_nil]
    cases last with
    | none => exact isChain_nil
    | some k => exact isChain_singleton k
  | node l v d r h ihl ihr =>
    have hkeys : (keys (.node l v d r h)).map f = (keys l).map f ++ f v :: (keys r).map f := by
      simp [keys]
    rw [hkeys, increasing_append, translateAux]
    obtain ⟨hl, hl'⟩ := ihl last
    obtain ⟨hr, hr'⟩ := ihr (some (f v))
    by_cases hincl : Increasing cmp last ((keys l).map f)
    · rw [hl hincl]
      by_cases hk : ∀ k' ∈ lastKey last ((keys l).map f), cmp k' (f v) = .lt
      · have hcheck := (checkLast_eq _ _).1 hk
        by_cases hincr : Increasing cmp (some (f v)) ((keys r).map f)
        · refine ⟨fun _ => ?_, fun h => absurd ⟨hincl, hk, hincr⟩ h⟩
          simp only [bind, Except.bind, hcheck, hr hincr, mapKeys, lastKey_append]
        · refine ⟨fun h => absurd h.2.2 hincr, fun _ => ?_⟩
          simp only [bind, Except.bind, hcheck, hr' hincr]
      · refine ⟨fun h => absurd h.2.1 hk, fun _ => ?_⟩
        simp only [bind, Except.bind, (checkLast_eq _ _).2 hk]
    · refine ⟨fun h => absurd h.1 hincl, fun _ => ?_⟩
      rw [hl' hincl]
      rfl

variable [TransCmp cmp]

theorem increasing_iff {f : K → K} (h : Valid cmp m) : Increasing cmp none ((keys m).map f) ↔
      ∀ k ∈ keys m, ∀ k' ∈ keys m, cmp k k' = .lt → cmp (f k) (f k') = .lt := by
  have htrans : IsTrans K (fun k k' => cmp k k' = .lt) := ⟨fun _ _ _ => lt_trans⟩
  rw [Increasing, Option.toList_none, nil_append, isChain_iff_pairwise,
    pairwise_map]
  have hs := h.keys_sorted
  generalize keys m = ks at hs
  induction ks with
  | nil => simp
  | cons k ks ih =>
    obtain ⟨hlt, hs⟩ := pairwise_cons.mp hs
    have hself : cmp k k = .eq := ReflCmp.compare_self
    rw [pairwise_cons]
    refine (and_congr_right (fun _ => ih hs)).trans ?_
    constructor
    · rintro ⟨hk, hrest⟩ a ha b hb hab
      rcases mem_cons.mp ha with rfl | hak
      · rcases mem_cons.mp hb with rfl | hbk
        · rw [hself] at hab; cases hab
        · exact hk b hbk
      · rcases mem_cons.mp hb with rfl | hbk
        · rw [gt_of_lt (hlt a hak)] at hab; cases hab
        · exact hrest a hak b hbk hab
    · intro hall
      refine ⟨fun b hb => ?_, fun a ha b hb => ?_⟩
      · exact hall k mem_cons_self b (mem_cons_of_mem _ hb) (hlt b hb)
      · exact hall a (mem_cons_of_mem _ ha) b (mem_cons_of_mem _ hb)

theorem translate_spec {f : K → K} (h : Valid cmp m) :
    ((∀ k ∈ keys m, ∀ k' ∈ keys m, cmp k k' = .lt → cmp (f k) (f k') = .lt) →
      ∃ m', translate cmp f m = .ok m' ∧ Valid cmp m' ∧
        toList m' = (toList m).map (fun p => (f p.1, p.2))) ∧
    ((¬ ∀ k ∈ keys m, ∀ k' ∈ keys m, cmp k k' = .lt → cmp (f k) (f k') = .lt) →
      translate cmp f m = .error ⟨"Map.translate: invalid function parameter"⟩) := by
  rw [← increasing_iff h]
  obtain ⟨hok, herr⟩ := @translateAux_spec _ _ cmp f m none
  constructor
  · intro hinc
    refine ⟨mapKeys f m, by rw [translate, hok hinc]; rfl,
      valid_of_sorted ?_ (balanced_mapKeys f h.balanced).1, toList_mapKeys f m⟩
    have htrans : IsTrans K (fun k k' => cmp k k' = .lt) := ⟨fun _ _ _ => lt_trans⟩
    rw [Increasing, Option.toList_none, nil_append, isChain_iff_pairwise] at hinc
    rw [toList_mapKeys, Sorted, pairwise_map]
    rw [keys, map_map, pairwise_map] at hinc
    exact hinc
  · intro hinc
    rw [translate, herr hinc]
    rfl

end Translate

end Why3.Extmap
