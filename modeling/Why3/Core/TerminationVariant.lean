import Why3.Core.TerminationCorrect

/-!
# Call vectors and variants

The search of `build_call_list` covers every path of calls from a symbol back
to itself, in spite of the pruning, and it ends; the positions found by
`find_variant` decrease lexicographically for every call vector.
-/

namespace Why3

open LexMeasure List
open Prod (fst snd)

variable {ls s : LSymbol} {i n : ℕ}

/-! ## Paths of calls -/

variable {e : LSymbol × List Descent} {v : List Descent} {a : List Value} {x : List Value}
variable {lc' : List (List Descent)}

section Paths

variable {cgr : CallSet} {id : LSymbol}

/-- One call that the call graph describes. -/
def Covered (cgr : CallSet) (c c' : LSymbol × List Value) : Prop :=
  ∃ v, (c'.1, c.1, v) ∈ cgr ∧ VecHolds c.2 v c'.2

theorem mem_findAll {s' : LSymbol} :
    (s', v) ∈ cgr.findAll s ↔ (s, s', v) ∈ cgr := by
  simp only [CallSet.findAll, mem_filterMap, Option.ite_none_right_eq_some,
    Option.some.injEq]
  constructor
  · rintro ⟨⟨s₁, c⟩, hc, rfl, rfl⟩
    exact hc
  · intro h
    exact ⟨_, h, rfl, rfl⟩

/-- The call `e` needs no more work. -/
def Done (id : LSymbol) (htb : Resolved) (lc : List (List Descent))
    (e : LSymbol × List Descent) : Prop :=
  if e.1 = id then localVec e.2 ∈ lc else ∃ c, (e.1, c) ∈ htb ∧ subsumes e.2 c = true

/-- Every call that the search must look at is done or still in the work list;
`n` is the number of arguments of the symbol searched for. -/
structure SearchInv (cgr : CallSet) (id : LSymbol) (n : ℕ) (htb : Resolved)
    (lc : List (List Descent)) (work : List (LSymbol × List Descent)) : Prop where
  start : ∀ e ∈ cgr.findAll id, e ∈ work ∨ Done id htb lc e
  closed : ∀ r ∈ htb, ∀ e ∈ resolve cgr r.1 r.2, e ∈ work ∨ Done id htb lc e
  work_len : ∀ e ∈ work, e.2.length = n
  htb_len : ∀ e ∈ htb, e.2.length = n

theorem sbs_self (d : Descent) : sbs d d = true := by
  cases d <;> simp [sbs]

theorem subsumes_self (v : List Descent) : subsumes v v = true := by
  rw [subsumes, all_eq_true]
  rintro ⟨d, i⟩ h
  rw [mk_mem_zipIdx_iff_getElem?] at h
  simp only [getD_eq_getElem?_getD, h, Option.getD_some]
  exact sbs_self d

theorem length_multiply (v1 v2 : List Descent) : (multiply v1 v2).length = v1.length := by
  simp [multiply]

variable {htb : Resolved}

theorem subsumed_iff {c : List Descent} :
    subsumed htb s c = true ↔ ∃ c', (s, c') ∈ htb ∧ subsumes c c' = true := by
  simp only [subsumed, any_eq_true, Bool.and_eq_true, decide_eq_true_eq]
  constructor
  · rintro ⟨⟨s', c'⟩, h, rfl, hs⟩
    exact ⟨c', h, hs⟩
  · rintro ⟨c', h, hs⟩
    exact ⟨(s, c'), h, rfl, hs⟩

variable {lc : List (List Descent)}

theorem Done.mono {htb' : Resolved}
    (h : Done id htb lc e) (hh : ∀ r ∈ htb, r ∈ htb') (hl : ∀ l ∈ lc, l ∈ lc') :
    Done id htb' lc' e := by
  unfold Done at *
  by_cases he : e.1 = id
  · rw [if_pos he] at h ⊢
    exact hl _ h
  · rw [if_neg he] at h ⊢
    obtain ⟨c, hc, hs⟩ := h
    exact ⟨c, hh _ hc, hs⟩

/-- The first call of the work list is taken off. -/
theorem SearchInv.pop {htb' : Resolved}
    {work new : List (LSymbol × List Descent)} (h : SearchInv cgr id n htb lc (e :: work))
    (hh : ∀ r ∈ htb, r ∈ htb') (hl : ∀ l ∈ lc, l ∈ lc') (he : Done id htb' lc' e)
    (hnew : ∀ r ∈ htb', r ∈ htb ∨ (r = e ∧ new = resolve cgr e.1 e.2))
    (hlen : ∀ e ∈ new, e.2.length = n) : SearchInv cgr id n htb' lc' (new ++ work) := by
  have hpend : ∀ c, c ∈ e :: work ∨ Done id htb lc c → c ∈ new ++ work ∨ Done id htb' lc' c := by
    rintro c (hc | hc)
    · rcases mem_cons.mp hc with rfl | hc
      · exact .inr he
      · exact .inl (mem_append_right _ hc)
    · exact .inr (hc.mono hh hl)
  refine ⟨fun c hc => hpend c (h.start c hc), ?_, ?_, ?_⟩
  · intro r hr c hc
    rcases hnew r hr with hr | ⟨rfl, rfl⟩
    · exact hpend c (h.closed r hr c hc)
    · exact .inl (mem_append_left _ hc)
  · intro c hc
    rcases mem_append.mp hc with hc | hc
    · exact hlen c hc
    · exact h.work_len c (mem_cons_of_mem _ hc)
  · intro r hr
    rcases hnew r hr with hr | ⟨rfl, _⟩
    · exact h.htb_len r hr
    · exact h.work_len r mem_cons_self

theorem addCall_inv : ∀ (fuel : ℕ) {htb lc work lc'},
    SearchInv cgr id n htb lc work → addCall cgr id fuel htb lc work = some lc' →
    ∃ htb', SearchInv cgr id n htb' lc' [] := by
  intro fuel
  induction fuel with
  | zero =>
    intro htb lc work lc' h hr
    cases work with
    | nil =>
      simp only [addCall, Option.some.injEq] at hr
      exact ⟨htb, hr ▸ h⟩
    | cons e work => simp [addCall] at hr
  | succ fuel ih =>
    intro htb lc work lc' h hr
    cases work with
    | nil =>
      simp only [addCall, Option.some.injEq] at hr
      exact ⟨htb, hr ▸ h⟩
    | cons e work =>
      rcases e with ⟨s, c⟩
      rw [addCall] at hr
      split at hr
      · next hs =>
          have hinv : SearchInv cgr id n htb (localVec c :: lc) ([] ++ work) := by
            refine h.pop (fun _ hr => hr) (fun _ hl => mem_cons_of_mem _ hl) ?_
              (fun r hr => .inl hr) (by simp)
            simp [Done, hs]
          exact ih hinv hr
      · next hs =>
          split at hr
          · next hsub =>
              have hinv : SearchInv cgr id n htb lc ([] ++ work) := by
                refine h.pop (fun _ hr => hr) (fun _ hl => hl) ?_
                  (fun r hr => .inl hr) (by simp)
                simpa [Done, hs] using subsumed_iff.mp hsub
              exact ih hinv hr
          · refine ih (h.pop (fun _ hr => mem_cons_of_mem _ hr) (fun _ hl => hl) ?_
              (fun r hr => ?_) ?_) hr
            · simp only [Done, hs, if_false]
              exact ⟨c, mem_cons_self, subsumes_self c⟩
            · exact (mem_cons.mp hr).symm.imp_right (fun he => ⟨he, rfl⟩)
            · intro e he
              obtain ⟨e', _, rfl⟩ := mem_map.mp he
              rw [length_multiply]
              exact h.work_len (s, c) mem_cons_self

/-- The vectors of the search cover every path from `id` back to `id`. -/
theorem buildCallList_covers (harity : ∀ e ∈ cgr, e.2.2.length = e.1.lsArgs.length)
    (h : buildCallList cgr id = some lc)
    (hback : Back (Covered cgr) id x (id, a)) : ∃ c, localVec c ∈ lc ∧ VecHolds a c x := by
  obtain ⟨htb, hinv⟩ := addCall_inv (n := id.lsArgs.length) cgr.fuel
    ⟨fun e he => .inl he, by simp, fun e he => harity (id, e) (mem_findAll.mp he), by simp⟩ h
  have hdone : ∀ s c b, c.length = id.lsArgs.length → Done id htb lc (s, c) → VecHolds b c x →
      if s = id then ∃ c, localVec c ∈ lc ∧ VecHolds b c x
      else ∃ c, (s, c) ∈ htb ∧ VecHolds b c x := by
    intro s c b hlen hd hv
    unfold Done at hd
    split
    · next hs =>
        rw [if_pos hs] at hd
        exact ⟨c, hd, hv⟩
    · next hs =>
        rw [if_neg hs] at hd
        obtain ⟨c', hc', hsub⟩ := hd
        refine ⟨c', hc', VecHolds.of_subsumes hsub ?_ hv⟩
        rw [hinv.htb_len _ hc', hlen]
  -- the induction is on the path, from its end
  have key : ∀ c, Back (Covered cgr) id x c →
      if c.1 = id then ∃ v, localVec v ∈ lc ∧ VecHolds c.2 v x
      else ∃ v, (c.1, v) ∈ htb ∧ VecHolds c.2 v x := by
    intro c hc
    induction hc with
    | @last c hstep =>
      obtain ⟨v, hv, hh⟩ := hstep
      refine hdone c.1 v c.2 (harity _ hv) ?_ hh
      exact (hinv.start _ (mem_findAll.mpr hv)).resolve_left (by simp)
    | @next c d hstep hd _ ih =>
      obtain ⟨v, hv, hh⟩ := hstep
      rw [if_neg hd] at ih
      obtain ⟨w, hw, hwh⟩ := ih
      refine hdone c.1 (multiply w v) c.2 ?_ ?_ (hwh.multiply hh)
      · rw [length_multiply, hinv.htb_len _ hw]
      · refine (hinv.closed _ hw _ ?_).resolve_left (by simp)
        exact mem_map.mpr ⟨(c.1, v), mem_findAll.mpr hv, rfl⟩
  simpa using key (id, a) hback

end Paths

/-! ## The search ends -/

section Fuel

/-- The descents that refer to parameters below `J`. -/
def descents (J : ℕ) : List Descent :=
  .unknown :: ((List.range J).map .less ++ (List.range J).map .equal)

theorem mem_descents {J : ℕ} {d : Descent} (h : d.bound ≤ J) : d ∈ descents J := by
  cases d with
  | unknown => exact mem_cons_self
  | less i | equal i =>
    have hi : i < J := h
    simp [descents, hi]

def vectorsOf (A : List Descent) : ℕ → List (List Descent)
  | 0 => [[]]
  | n + 1 => (vectorsOf A n).flatMap (fun v => A.map (· :: v))

theorem length_vectorsOf (A : List Descent) (n : ℕ) : (vectorsOf A n).length = A.length ^ n := by
  induction n with
  | zero => rfl
  | succ n ih => simp [vectorsOf, length_flatMap, ih, pow_succ]

variable {v : List Descent}

theorem mem_vectorsOf {A : List Descent} (h : ∀ d ∈ v, d ∈ A) : v ∈ vectorsOf A v.length := by
  induction v with
  | nil => exact mem_singleton_self _
  | cons d v ih =>
    simp only [length_cons, vectorsOf, mem_flatMap, mem_map]
    exact ⟨v, ih (fun e he => h e (mem_cons_of_mem _ he)), d, h d mem_cons_self, rfl⟩

variable {cgr : CallSet} {id : LSymbol}

/-- All calls that the search can meet. -/
def callsOf (cgr : CallSet) : List (LSymbol × List Descent) :=
  (cgr.map (fun c => c.2.1)).flatMap (fun s =>
    ((List.range (cgr.lenBound + 1)).flatMap (vectorsOf (descents cgr.idxBound))).map (s, ·))

theorem length_callsOf (cgr : CallSet) : (callsOf cgr).length = cgr.length * cgr.vectors := by
  have hlen : (descents cgr.idxBound).length = 2 * cgr.idxBound + 1 := by
    simp only [descents, length_cons, length_append, length_map, length_range]
    omega
  simp [callsOf, length_flatMap, CallSet.vectors, length_vectorsOf, hlen,
    Function.comp_def]

structure Bounded (cgr : CallSet) (e : LSymbol × List Descent) : Prop where
  caller : e.1 ∈ cgr.map (fun c => c.2.1)
  len : e.2.length ≤ cgr.lenBound
  idx : ∀ d ∈ e.2, d.bound ≤ cgr.idxBound

theorem Bounded.mem (h : Bounded cgr e) : e ∈ callsOf cgr := by
  refine mem_flatMap.mpr ⟨e.1, h.caller, mem_map.mpr ⟨e.2, ?_, rfl⟩⟩
  refine mem_flatMap.mpr ⟨e.2.length, mem_range.mpr (by have := h.len; omega), ?_⟩
  exact mem_vectorsOf (fun d hd => mem_descents (h.idx d hd))

theorem le_foldr_max {l : List ℕ} (h : n ∈ l) : n ≤ l.foldr max 0 := by
  induction l with
  | nil => cases h
  | cons m l ih =>
    rw [foldr_cons]
    rcases mem_cons.mp h with rfl | h
    · exact le_max_left _ _
    · exact (ih h).trans (le_max_right _ _)

theorem bounded_of_mem {s' : LSymbol} (h : (s, s', v) ∈ cgr) : Bounded cgr (s', v) := by
  refine ⟨mem_map.mpr ⟨_, h, rfl⟩, le_foldr_max (mem_map.mpr ⟨_, h, rfl⟩), ?_⟩
  intro d hd
  exact (le_foldr_max (mem_map_of_mem hd)).trans
    (le_foldr_max (mem_map.mpr ⟨_, h, rfl⟩))

theorem bound_toLess (d : Descent) : d.toLess.bound = d.bound := by
  cases d <;> rfl

theorem bound_getD_le {J : ℕ} (h : ∀ d ∈ v, d.bound ≤ J) (i : ℕ) :
    (v.getD i .unknown).bound ≤ J := by
  rw [getD_eq_getElem?_getD]
  cases hi : v[i]? with
  | none => exact Nat.zero_le _
  | some d => exact h d (mem_of_getElem? hi)

theorem Bounded.resolve {r : LSymbol × List Descent} (hr : Bounded cgr r)
    (he : e ∈ resolve cgr r.1 r.2) : Bounded cgr e := by
  obtain ⟨⟨s, v⟩, hv, rfl⟩ := mem_map.mp he
  have hb := bounded_of_mem (mem_findAll.mp hv)
  refine ⟨hb.caller, by rw [length_multiply]; exact hr.len, ?_⟩
  intro d hd
  obtain ⟨d', _, rfl⟩ := mem_map.mp hd
  cases d' with
  | unknown => exact Nat.zero_le _
  | equal i => exact bound_getD_le hb.idx i
  | less i =>
    show (v.getD i .unknown).toLess.bound ≤ _
    rw [bound_toLess]
    exact bound_getD_le hb.idx i

theorem length_resolve_le (s : LSymbol) (c : List Descent) :
    (resolve cgr s c).length ≤ cgr.length := by
  rw [Why3.resolve, length_map]
  exact length_filterMap_le _ _

/-- A call is resolved at most once, so the search ends. -/
theorem addCall_ne_none : ∀ (fuel : ℕ) {htb : Resolved} {lc : List (List Descent)}
    {work : List (LSymbol × List Descent)}, htb.Nodup → (∀ r ∈ htb, Bounded cgr r) →
    (∀ e ∈ work, Bounded cgr e) →
    work.length + (cgr.length * cgr.vectors - htb.length) * (cgr.length + 1) ≤ fuel →
    addCall cgr id fuel htb lc work ≠ none := by
  intro fuel
  induction fuel with
  | zero =>
    intro htb lc work _ _ _ hf
    cases work with
    | nil => simp [addCall]
    | cons e work => simp at hf
  | succ fuel ih =>
    intro htb lc work hnd hhtb hwork hf
    cases work with
    | nil => simp [addCall]
    | cons e work =>
      rcases e with ⟨s, c⟩
      rw [length_cons] at hf
      have htail : ∀ e ∈ work, Bounded cgr e := fun e he => hwork e (mem_cons_of_mem _ he)
      rw [addCall]
      split
      · exact ih hnd hhtb htail (by omega)
      · split
        · exact ih hnd hhtb htail (by omega)
        · next hsub =>
            have hnew : (s, c) ∉ htb := fun hmem =>
              hsub (subsumed_iff.mpr ⟨c, hmem, subsumes_self c⟩)
            have hsc := hwork (s, c) mem_cons_self
            have hnd' : ((s, c) :: htb).Nodup := nodup_cons.mpr ⟨hnew, hnd⟩
            have hhtb' : ∀ r ∈ (s, c) :: htb, Bounded cgr r :=
              forall_mem_cons.mpr ⟨hsc, hhtb⟩
            -- there is room for one more resolved call
            have hroom : htb.length + 1 ≤ cgr.length * cgr.vectors := by
              rw [← length_callsOf, ← length_cons (a := (s, c))]
              exact (hnd'.subperm (fun r hr => (hhtb' r hr).mem)).length_le
            have hstep : (cgr.length * cgr.vectors - htb.length) * (cgr.length + 1) =
                (cgr.length * cgr.vectors - (htb.length + 1)) * (cgr.length + 1) +
                  (cgr.length + 1) := by
              rw [← Nat.succ_mul]
              congr 1
              omega
            refine ih hnd' hhtb' ?_ ?_
            · intro e he
              rcases mem_append.mp he with he | he
              · exact hsc.resolve he
              · exact htail e he
            · have hres : (resolve cgr s c).length ≤ cgr.length := length_resolve_le s c
              rw [length_append, length_cons]
              omega

theorem buildCallList_ne_none : buildCallList cgr id ≠ none := by
  refine addCall_ne_none _ nodup_nil (by simp) ?_ ?_
  · rintro ⟨s, v⟩ he
    exact bounded_of_mem (mem_findAll.mp he)
  · have : (cgr.findAll id).length ≤ cgr.length := length_filterMap_le _ _
    simp only [length_nil, Nat.sub_zero, CallSet.fuel]
    omega

end Fuel

/-! ## Variants -/

variable {args : List Value} {xs : List Value} {cgr : CallSet}

section Variant

/-- A vector that only speaks of each position itself. -/
def IsLocal (v : List Descent) : Prop :=
  ∀ i, v.getD i .unknown = .less i ∨ v.getD i .unknown = .equal i ∨ v.getD i .unknown = .unknown

theorem getD_localVec (v : List Descent) (i : ℕ) :
    (localVec v).getD i .unknown =
      if v.getD i .unknown = .less i ∨ v.getD i .unknown = .equal i then v.getD i .unknown
      else .unknown := by
  rw [localVec, getD_eq_getElem?_getD, getD_eq_getElem?_getD, getElem?_map,
    getElem?_zipIdx]
  cases v[i]? with
  | none => rfl
  | some d => simp

theorem isLocal_localVec (v : List Descent) : IsLocal (localVec v) := by
  intro i
  rw [getD_localVec]
  split
  · next h => exact h.imp_right .inl
  · exact .inr (.inr rfl)

theorem addCall_local {id : LSymbol} : ∀ (fuel : ℕ) {htb lc work lc'},
    (∀ v ∈ lc, IsLocal v) → addCall cgr id fuel htb lc work = some lc' → ∀ v ∈ lc', IsLocal v := by
  intro fuel
  induction fuel with
  | zero =>
    intro htb lc work lc' h hr
    cases work with
    | nil =>
      simp only [addCall, Option.some.injEq] at hr
      exact hr ▸ h
    | cons e work => simp [addCall] at hr
  | succ fuel ih =>
    intro htb lc work lc' h hr
    cases work with
    | nil =>
      simp only [addCall, Option.some.injEq] at hr
      exact hr ▸ h
    | cons e work =>
      rw [addCall] at hr
      split at hr
      · exact ih (forall_mem_cons.mpr ⟨isLocal_localVec _, h⟩) hr
      · split at hr
        · exact ih h hr
        · exact ih h hr

theorem getD_meetVec (v1 v2 : List Descent) (i : ℕ) :
    (meetVec v1 v2).getD i .unknown = (v1.getD i .unknown).meet (v2.getD i .unknown) := by
  rw [meetVec, getD_eq_getElem?_getD, getElem?_map, getElem?_zipIdx,
    getD_eq_getElem?_getD (l := v1)]
  cases v1[i]? with
  | none => rfl
  | some d => simp

theorem meet_eq_or (d1 d2 : Descent) : d1.meet d2 = d1 ∨ d1.meet d2 = d2 := by
  cases d1 <;> cases d2 <;> simp [Descent.meet]

theorem meet_ne_unknown {d1 d2 : Descent} (h : d1.meet d2 ≠ .unknown) :
    d1 ≠ .unknown ∧ d2 ≠ .unknown := by
  cases d1 <;> cases d2 <;> simp [Descent.meet] at h ⊢

theorem foldl_meetVec (i : ℕ) (a : List Descent) (r : List (List Descent)) :
    (∃ v ∈ a :: r, (r.foldl meetVec a).getD i .unknown = v.getD i .unknown) ∧
    ((r.foldl meetVec a).getD i .unknown ≠ .unknown →
      ∀ v ∈ a :: r, v.getD i .unknown ≠ .unknown) := by
  induction r generalizing a with
  | nil => simp
  | cons b r ih =>
    obtain ⟨⟨v, hv, hfold⟩, hne⟩ := ih (meetVec a b)
    rw [foldl_cons]
    constructor
    · rcases mem_cons.mp hv with rfl | hv
      · rw [hfold, getD_meetVec]
        rcases meet_eq_or (a.getD i .unknown) (b.getD i .unknown) with h | h
        · exact ⟨a, by simp, h⟩
        · exact ⟨b, by simp, h⟩
      · exact ⟨v, by simp [hv], hfold⟩
    · intro h v hv
      have hab := hne h (meetVec a b) mem_cons_self
      rw [getD_meetVec] at hab
      have hab' := meet_ne_unknown hab
      rcases mem_cons.mp hv with rfl | hv
      · exact hab'.1
      rcases mem_cons.mp hv with rfl | hv
      · exact hab'.2
      · exact hne h v (mem_cons_of_mem _ hv)

theorem mem_decreasing {p : List Descent} : i ∈ decreasing p ↔ .less i ∈ p := by
  obtain ⟨f, hdec, hless, hequal, hunk⟩ : ∃ f : List ℕ → Descent → List ℕ,
      (∀ p, decreasing p = p.foldl f []) ∧ (∀ l j, f l (.less j) = j :: l) ∧
      (∀ l j, f l (.equal j) = l) ∧ ∀ l, f l .unknown = l :=
    ⟨_, fun _ => rfl, fun _ _ => rfl, fun _ _ => rfl, fun _ => rfl⟩
  have key : ∀ (p : List Descent) (l : List ℕ), i ∈ p.foldl f l ↔ i ∈ l ∨ .less i ∈ p := by
    intro p
    induction p with
    | nil => simp
    | cons d p ih =>
      intro l
      rw [foldl_cons, ih]
      cases d with
      | less j => simp only [hless, mem_cons, Descent.less.injEq]; tauto
      | equal j => simp [hequal]
      | unknown => simp [hunk]
  rw [hdec, key p []]
  simp

/-- A position that the minimum calls decreasing: some vector decreases there,
and none is unknown. -/
theorem mem_decreasing_meet {a : List Descent} {r : List (List Descent)}
    (hloc : ∀ v ∈ a :: r, IsLocal v) (hi : i ∈ decreasing (r.foldl meetVec a)) :
    (∃ v ∈ a :: r, v.getD i .unknown = .less i) ∧
    ∀ v ∈ a :: r, v.getD i .unknown = .less i ∨ v.getD i .unknown = .equal i := by
  obtain ⟨k, hk⟩ := mem_iff_getElem?.mp (mem_decreasing.mp hi)
  have hkd : (r.foldl meetVec a).getD k .unknown = .less i := by
    rw [getD_eq_getElem?_getD, hk, Option.getD_some]
  obtain ⟨⟨v, hv, hfold⟩, hne⟩ := foldl_meetVec k a r
  have hki : k = i := by
    have hvk := hkd ▸ hfold.symm
    rcases hloc v hv k with h | h | h <;> rw [hvk] at h <;> cases h
    rfl
  subst hki
  refine ⟨⟨v, hv, hfold.symm.trans hkd⟩, fun w hw => ?_⟩
  have hw' := hne (by rw [hkd]; simp) w hw
  rcases hloc w hw k with h | h | h
  · exact .inl h
  · exact .inr h
  · exact absurd h hw'

/-- The vector `v` decreases lexicographically at the positions `ps`. -/
def DecreasesAt (ps : List ℕ) (v : List Descent) : Prop :=
  ∃ pre i post, ps = pre ++ i :: post ∧ v.getD i .unknown = .less i ∧
    ∀ j ∈ pre, v.getD j .unknown = .less j ∨ v.getD j .unknown = .equal j

theorem checkVectors_spec : ∀ (fuel : ℕ) {acc : List ℕ} {mx : List (List Descent)}
    {ps : List ℕ}, (∀ v ∈ mx, IsLocal v) → checkVectors ls fuel acc mx = .ok ps →
    ∃ rest, ps = acc.reverse ++ rest ∧ ∀ v ∈ mx, DecreasesAt rest v := by
  intro fuel
  induction fuel with
  | zero =>
    intro acc mx ps _ h
    cases mx with
    | nil =>
      simp only [checkVectors, Except.ok.injEq] at h
      exact ⟨[], by simp [h], by simp⟩
    | cons a r => simp [checkVectors] at h
  | succ fuel ih =>
    intro acc mx ps hloc h
    cases mx with
    | nil =>
      simp only [checkVectors, Except.ok.injEq] at h
      exact ⟨[], by simp [h], by simp⟩
    | cons a r =>
      simp only [checkVectors] at h
      split at h
      · cases h
      · obtain ⟨rest, rfl, hrest⟩ := ih (fun v hv => hloc v (mem_filter.mp hv).1) h
        refine ⟨decreasing (r.foldl meetVec a) ++ rest, by simp, ?_⟩
        intro v hv
        by_cases hless : ∃ i ∈ decreasing (r.foldl meetVec a), v.getD i .unknown = .less i
        · -- eliminated in this round
          obtain ⟨i, hi, hvi⟩ := hless
          obtain ⟨pre, post, hsplit⟩ := append_of_mem hi
          refine ⟨pre, i, post ++ rest, by rw [hsplit]; simp, hvi, fun j hj => ?_⟩
          exact (mem_decreasing_meet hloc (by rw [hsplit]; simp [hj])).2 v hv
        · -- kept for the next rounds, and equal at the positions of this one
          obtain ⟨pre, i, post, rfl, hvi, hpre⟩ := hrest v (mem_filter.mpr ⟨hv, by
            rw [all_eq_true]
            intro i hi
            simp only [ne_eq, decide_not, Bool.not_eq_true', decide_eq_false_iff_not]
            exact fun hvi => hless ⟨i, hi, hvi⟩⟩)
          refine ⟨decreasing (r.foldl meetVec a) ++ pre, i, post, by simp, hvi, fun j hj => ?_⟩
          rcases mem_append.mp hj with hj | hj
          · exact (mem_decreasing_meet hloc hj).2 v hv
          · exact hpre j hj

/-- Each round eliminates a vector. -/
theorem checkVectors_ne_outOfFuel : ∀ (fuel : ℕ) {acc : List ℕ}
    {mx : List (List Descent)}, (∀ v ∈ mx, IsLocal v) → mx.length ≤ fuel →
    checkVectors ls fuel acc mx ≠ .error .outOfFuel := by
  intro fuel
  induction fuel with
  | zero =>
    intro acc mx _ hf
    have hnil : mx = [] := length_eq_zero_iff.mp (by omega)
    simp [hnil, checkVectors]
  | succ fuel ih =>
    intro acc mx hloc hf
    cases mx with
    | nil => simp [checkVectors]
    | cons a r =>
      simp only [checkVectors]
      split
      · simp
      · next hres =>
          refine ih (fun v hv => hloc v (mem_filter.mp hv).1) ?_
          obtain ⟨i, rest, hi⟩ := exists_cons_of_ne_nil hres
          have himem : i ∈ decreasing (r.foldl meetVec a) := by simp [hi]
          obtain ⟨v, hv, hvi⟩ := (mem_decreasing_meet hloc himem).1
          refine Nat.le_of_lt_succ (lt_of_lt_of_le (length_filter_lt_length_iff_exists.mpr
            ⟨v, hv, ?_⟩) hf)
          simp only [all_eq_true, not_forall]
          exact ⟨i, himem, by rw [hvi]; simp⟩

theorem VecHolds.localVec (h : VecHolds args v xs) :
    VecHolds args (localVec v) xs := by
  refine VecHolds.of_get ?_ (fun i x hx => ?_)
  · simpa [Why3.localVec] using h.length_eq
  · rw [getD_localVec]
    split
    · exact h.get hx
    · trivial

theorem VecHolds.exists_get (h : VecHolds args v xs)
    (hi : v.getD i .unknown ≠ .unknown) :
    ∃ x, xs[i]? = some x ∧ (v.getD i .unknown).Holds args x := by
  have hlt : i < xs.length := by
    rw [← h.length_eq]
    by_contra hge
    rw [getD_eq_getElem?_getD, getElem?_eq_none (by omega)] at hi
    exact hi rfl
  exact ⟨xs.get ⟨i, hlt⟩, by simp [hlt], h.get (by simp [hlt])⟩

theorem lexLt_of_decreasesAt {ps : List ℕ}
    (h : DecreasesAt ps v) (hh : VecHolds a v x) : LexLt Value.Subterm ps x a := by
  obtain ⟨pre, i, post, rfl, hvi, hpre⟩ := h
  have hlt : ∀ j, v.getD j .unknown = .less j → OptLt Value.Subterm x[j]? a[j]? := by
    intro j hj
    obtain ⟨y, hy, hyh⟩ := hh.exists_get (i := j) (by rw [hj]; simp)
    rw [hj] at hyh
    obtain ⟨z, hz, hyz⟩ := hyh
    exact ⟨y, z, hy, hz, hyz⟩
  refine lexLt_of_prefix (fun j hj => ?_) (hlt i hvi)
  rcases hpre j hj with hj | hj
  · exact .inr (hlt j hj)
  · obtain ⟨y, hy, hyh⟩ := hh.exists_get (i := j) (by rw [hj]; simp)
    rw [hj] at hyh
    obtain ⟨z, hz, rfl | hyz⟩ := hyh
    · exact .inl (hy.trans hz.symm)
    · exact .inr ⟨y, z, hy, hz, hyz⟩

theorem findVariant_spec (harity : ∀ e ∈ cgr, e.2.2.length = e.1.lsArgs.length)
    {ps : List ℕ} (h : findVariant cgr ls = .ok ps)
    (hpath : Relation.TransGen (Covered cgr) (ls, a) (ls, x)) : LexLt Value.Subterm ps x a := by
  unfold findVariant at h
  split at h
  · cases h
  · next cl hcl =>
      refine of_back (r := LexLt Value.Subterm ps)
        (fun _ _ _ h₁ h₂ => h₁.trans (fun _ _ _ h h' => h.trans h') h₂) ?_ hpath
      intro a x hback
      obtain ⟨c, hc, hh⟩ := buildCallList_covers harity hcl hback
      obtain ⟨rest, rfl, hrest⟩ := checkVectors_spec cl.length (addCall_local _ (by simp) hcl) h
      exact lexLt_of_decreasesAt (hrest _ hc) hh.localVec

end Variant

/-! ## The group of definitions -/

section Group

variable {sig : TySymbol → List LSymbol} {ldl : List (LSymbol × LsDefn)}

/-- One call: `c.1`, applied to the values `c.2`, calls `c'.1` on `c'.2`. -/
def CallStep (ldl : List (LSymbol × LsDefn)) (c c' : LSymbol × List Value) : Prop :=
  ∃ ld vl e, (c.1, ld) ∈ ldl ∧ openLsDefn ld = some (vl, e) ∧
    ∃ (E : CallEval) (ρ : VSymbol → Value), vl.map ρ = c.2 ∧
      Calls E (fun s => decide (s ∈ ldl.map fst)) ρ e c'.1 c'.2

theorem Calls.syms {E : CallEval} {syms : LSymbol → Bool} {ρ : VSymbol → Value} {t : Term}
    (h : Calls E syms ρ t s xs) : syms s = true := by
  induction h with
  | app hs => exact hs
  | _ => assumption

theorem createVsGraph_holds {vl : List VSymbol} {ρ : VSymbol → Value}
    (h : vl.map ρ = args) : GraphHolds args (createVsGraph vl) ρ := by
  have key : ∀ (l : List (VSymbol × ℕ)) (vm : Vm),
      (∀ v ∈ l, args[v.2]? = some (ρ v.1)) → VmHolds args vm ρ →
      VmHolds args (l.foldl (fun vm v => Function.update vm v.1 (some (.equal v.2))) vm) ρ := by
    intro l
    induction l with
    | nil => exact fun _ _ h => h
    | cons v l ih =>
      intro vm hl hvm
      refine ih _ (fun w hw => hl w (mem_cons_of_mem _ hw)) ?_
      rw [← Function.update_eq_self v.1 ρ]
      refine hvm.update ?_
      rintro d ⟨⟩
      exact ⟨_, hl v mem_cons_self, .inl rfl⟩
  refine ⟨_, mem_singleton_self _, key vl.zipIdx _ ?_ (by intro v d hd; cases hd)⟩
  rintro ⟨v, i⟩ hv
  rw [mk_mem_zipIdx_iff_getElem?] at hv
  rw [← h, getElem?_map, hv, Option.map_some]

theorem mem_add {β : Type} {ls : LSymbol} {b : β} {m : Mls β} :
    (ls, b) ∈ Mls.add ls b m ∧ (∀ e ∈ m, e.1 ≠ ls → e ∈ Mls.add ls b m) ∧
      ∀ e ∈ Mls.add ls b m, e = (ls, b) ∨ e ∈ m := by
  induction m with
  | nil => simp [Mls.add]
  | cons e m ih =>
    rcases e with ⟨k, c⟩
    rw [Mls.add]
    split
    · next hk =>
        subst hk
        refine ⟨mem_cons_self, ?_, ?_⟩
        · intro e he hne
          rcases mem_cons.mp he with rfl | he
          · exact absurd rfl hne
          · exact mem_cons_of_mem _ he
        · intro e he
          exact (mem_cons.mp he).imp_right (mem_cons_of_mem _)
    · split
      · refine ⟨mem_cons_self, fun e he _ => mem_cons_of_mem _ he, ?_⟩
        intro e he
        exact mem_cons.mp he
      · refine ⟨mem_cons_of_mem _ ih.1, ?_, ?_⟩
        · intro e he hne
          rcases mem_cons.mp he with rfl | he
          · exact mem_cons_self
          · exact mem_cons_of_mem _ (ih.2.1 e he hne)
        · intro e he
          rcases mem_cons.mp he with rfl | he
          · exact .inr mem_cons_self
          · exact (ih.2.2 e he).imp_right (mem_cons_of_mem _)

/-- `syms` holds the opened definitions. -/
theorem openDefns_spec : ∀ {ldl : List (LSymbol × LsDefn)} {acc syms},
    (ldl.map fst).Nodup → openDefns ldl acc = .ok syms →
    (∀ d ∈ ldl, ∃ b, openLsDefn d.2 = some b ∧ (d.1, b) ∈ syms) ∧
    (∀ e ∈ acc, e.1 ∉ ldl.map fst → e ∈ syms) ∧
    ∀ e ∈ syms, e ∈ acc ∨ ∃ d ∈ ldl, d.1 = e.1 ∧ openLsDefn d.2 = some e.2 := by
  intro ldl
  induction ldl with
  | nil =>
    intro acc syms _ h
    simp only [openDefns, Except.ok.injEq] at h
    subst h
    simp
  | cons d ldl ih =>
    intro acc syms hnd h
    rcases d with ⟨ls, ld⟩
    rw [map_cons, nodup_cons] at hnd
    rw [openDefns] at h
    cases hb : openLsDefn ld with
    | none => simp [hb] at h
    | some b =>
      simp only [hb] at h
      obtain ⟨h₁, h₂, h₃⟩ := ih hnd.2 h
      have hadd := @mem_add _ ls b acc
      refine ⟨?_, ?_, ?_⟩
      · intro d hd
        rcases mem_cons.mp hd with rfl | hd
        · exact ⟨b, hb, h₂ _ hadd.1 hnd.1⟩
        · exact h₁ d hd
      · intro e he hne
        rw [map_cons, mem_cons, not_or] at hne
        exact h₂ e (hadd.2.1 e he hne.1) hne.2
      · intro e he
        rcases h₃ e he with he | ⟨d, hd, hde⟩
        · rcases hadd.2.2 e he with rfl | he
          · exact .inr ⟨(ls, ld), mem_cons_self, rfl, hb⟩
          · exact .inl he
        · exact .inr ⟨d, mem_cons_of_mem _ hd, hde⟩

/-- The body of a well-typed definition is well typed. -/
theorem openLsDefn_wt {ld : LsDefn} {vl : List VSymbol} {e : Term} (hwt : ld.ldAxiom.Wt sig)
    (h : openLsDefn ld = some (vl, e)) : e.Wt sig := by
  unfold openLsDefn at h
  split at h
  next vl' f hopen =>
    have hf : f.Wt sig := by
      split at hopen
      next hax =>
        rw [hax] at hwt
        cases hopen
        exact hwt.2.2
      next =>
        cases hopen
        exact hwt
    split at h
    · simp only [Option.some.injEq, Prod.mk.injEq] at h
      rw [← h.2]
      exact ((Term.wtList_iff sig _).mp hf.2) _ (by simp)
    · simp only [Option.some.injEq, Prod.mk.injEq] at h
      rw [← h.2]
      exact hf.2.2.2
    · cases h

theorem mem_foldl_buildCallGraph {syms : LSymbol → Bool} :
    ∀ {l : Mls (List VSymbol × Term)} {cgr : CallSet} {d : LSymbol × List VSymbol × Term},
    d ∈ l → ∃ cgr', ∀ e ∈ buildCallGraph syms d.1 cgr' d.2,
      e ∈ l.foldl (fun cgr d => buildCallGraph syms d.1 cgr d.2) cgr := by
  have hmono : ∀ (l : Mls (List VSymbol × Term)) (cgr : CallSet), ∀ e ∈ cgr,
      e ∈ l.foldl (fun cgr d => buildCallGraph syms d.1 cgr d.2) cgr := by
    intro l
    induction l with
    | nil => exact fun _ _ he => he
    | cons d l ih => exact fun cgr e he => ih _ e (callTerm_mono _ _ _ e he)
  intro l
  induction l with
  | nil => intro cgr d hd; cases hd
  | cons d' l ih =>
    intro cgr d hd
    rcases mem_cons.mp hd with rfl | hd
    · exact ⟨cgr, hmono l _⟩
    · exact ih hd

theorem callSet_arity {syms : Mls (List VSymbol × Term)} (hwt : ∀ d ∈ syms, d.2.2.Wt sig) :
    ∀ e ∈ callSet syms, e.2.2.length = e.1.lsArgs.length := by
  have key : ∀ (l : Mls (List VSymbol × Term)) (cgr : CallSet), (∀ d ∈ l, d.2.2.Wt sig) →
      (∀ e ∈ cgr, e.2.2.length = e.1.lsArgs.length) →
      ∀ e ∈ l.foldl (fun cgr d => buildCallGraph syms.mem d.1 cgr d.2) cgr,
        e.2.2.length = e.1.lsArgs.length := by
    intro l
    induction l with
    | nil => exact fun _ _ h => h
    | cons d l ih =>
      intro cgr hl h
      refine ih _ (fun d hd => hl d (mem_cons_of_mem _ hd)) ?_
      exact callTerm_forall (fun s tl vm _ hlen => by rw [length_map]; exact hlen) _
        (hl d mem_cons_self) _ _ h
  exact key syms [] hwt (by simp)

theorem covered_of_callStep (hsig : SigOk sig) {syms : Mls (List VSymbol × Term)}
    (hnd : (ldl.map fst).Nodup) (hopen : openDefns ldl [] = .ok syms)
    (hwt : ∀ d ∈ syms, d.2.2.Wt sig) {c c' : LSymbol × List Value} (h : CallStep ldl c c') :
    Covered (callSet syms) c c' := by
  obtain ⟨ld, vl, e, hmem, hld, E, ρ, hρ, hcall⟩ := h
  obtain ⟨h₁, _, h₃⟩ := openDefns_spec hnd hopen
  obtain ⟨b, hb, hsyms⟩ := h₁ _ hmem
  have hbe : b = (vl, e) := by
    rw [hld, Option.some.injEq] at hb
    exact hb.symm
  subst hbe
  have hkeys : (fun s => decide (s ∈ ldl.map fst)) = syms.mem := by
    funext s
    simp only [Mls.mem, decide_eq_decide]
    constructor
    · intro hs
      obtain ⟨d, hd, rfl⟩ := mem_map.mp hs
      obtain ⟨b, _, hb⟩ := h₁ d hd
      exact mem_map.mpr ⟨_, hb, rfl⟩
    · intro hs
      obtain ⟨d, hd, rfl⟩ := mem_map.mp hs
      rcases h₃ d hd with hd | ⟨d', hd', heq, _⟩
      · cases hd
      · exact mem_map.mpr ⟨d', hd', heq⟩
  rw [hkeys] at hcall
  obtain ⟨cgr', hsub⟩ : ∃ cgr', ∀ d ∈ buildCallGraph syms.mem c.1 cgr' (vl, e),
      d ∈ callSet syms := mem_foldl_buildCallGraph hsyms
  obtain ⟨v, hv, hh⟩ := callTerm_sound hsig hcall (hwt _ hsyms) (createVsGraph_holds hρ) cgr'
  exact ⟨v, hsub _ hv, hh⟩

theorem findVariants_lookup : ∀ {l : List LSymbol} {m : Mls (List ℕ)},
    findVariants cgr l = .ok m → ∀ ls ∈ l, ∃ v, m.lookup ls = some v ∧
      findVariant cgr ls = .ok v := by
  intro l
  induction l with
  | nil => intro m _ ls hls; cases hls
  | cons s l ih =>
    intro m h ls hls
    rw [findVariants] at h
    cases hv : findVariant cgr s with
    | error e => simp [hv, bind, Except.bind] at h
    | ok v =>
      cases hm : findVariants cgr l with
      | error e => simp [hv, hm, bind, Except.bind] at h
      | ok m' =>
        simp only [hv, hm, bind, Except.bind, Except.ok.injEq] at h
        subst h
        rw [List.lookup_cons]
        by_cases hs : ls = s
        · subst hs
          exact ⟨v, by simp, hv⟩
        · have hbeq : (ls == s) = false := by simpa using hs
          rw [hbeq]
          exact ih hm ls ((mem_cons.mp hls).resolve_left hs)

/-- The search never runs out of fuel: a group is refused only for want of a
termination proof (or when a definition axiom has no body to open). -/
theorem checkTermination_ne_outOfFuel : checkTermination ldl ≠ .error .outOfFuel := by
  have hfind : ∀ (cgr : CallSet) (ls : LSymbol), findVariant cgr ls ≠ .error .outOfFuel := by
    intro cgr ls
    unfold findVariant
    cases hcl : buildCallList cgr ls with
    | none => exact absurd hcl buildCallList_ne_none
    | some cl => exact checkVectors_ne_outOfFuel _ (addCall_local _ (by simp) hcl) (le_refl _)
  have hfinds : ∀ (cgr : CallSet) (l : List LSymbol), findVariants cgr l ≠ .error .outOfFuel := by
    intro cgr l
    induction l with
    | nil => simp [findVariants]
    | cons ls l ih =>
      rw [findVariants]
      cases hv : findVariant cgr ls with
      | error e =>
        intro he
        simp only [bind, Except.bind, Except.error.injEq] at he
        exact hfind cgr ls (hv.trans (congrArg _ he))
      | ok v =>
        cases hm : findVariants cgr l with
        | error e =>
          intro he
          simp only [bind, Except.bind, Except.error.injEq] at he
          exact ih (hm.trans (congrArg _ he))
        | ok m => simp [bind, Except.bind]
  have hopen : ∀ (l : List (LSymbol × LsDefn)) acc, openDefns l acc ≠ .error .outOfFuel := by
    intro l
    induction l with
    | nil => simp [openDefns]
    | cons d l ih =>
      intro acc
      rw [openDefns]
      cases openLsDefn d.2 with
      | none => simp
      | some b => exact ih _
  unfold checkTermination
  cases hsyms : openDefns ldl [] with
  | error e =>
    intro he
    simp only [bind, Except.bind, Except.error.injEq] at he
    exact hopen ldl [] (hsyms.trans (congrArg _ he))
  | ok syms =>
    cases hm : findVariants (callSet syms) (syms.map fst) with
    | error e =>
      intro he
      simp only [hm, bind, Except.bind, Except.error.injEq] at he
      exact hfinds _ _ (hm.trans (congrArg _ he))
    | ok m => simp [hm, bind, Except.bind]

/-- Along every path of accepted calls from a symbol back to itself the
positions of its variant decrease lexicographically, in the order of strict
subterms; so no sequence of calls is infinite. -/
theorem checkTermination_terminates (hsig : SigOk sig) (hnd : (ldl.map fst).Nodup)
    (hwt : ∀ d ∈ ldl, d.2.ldAxiom.Wt sig) {res : List (LSymbol × LsDefn)}
    (h : checkTermination ldl = .ok res) :
    (∀ d ∈ res, ∀ a x, Relation.TransGen (CallStep ldl) (d.1, a) (d.1, x) →
      LexLt Value.Subterm d.2.ldVariant x a) ∧
    ¬ ∃ run : ℕ → LSymbol × List Value, ∀ n, CallStep ldl (run n) (run (n + 1)) := by
  unfold checkTermination at h
  cases hsyms : openDefns ldl [] with
  | error e => simp [hsyms, bind, Except.bind] at h
  | ok syms =>
    cases hm : findVariants (callSet syms) (syms.map fst) with
    | error e => simp [hsyms, hm, bind, Except.bind] at h
    | ok m =>
      simp only [hsyms, hm, bind, Except.bind, Except.ok.injEq] at h
      subst h
      obtain ⟨h₁, _, h₃⟩ := openDefns_spec hnd hsyms
      have hwt' : ∀ d ∈ syms, d.2.2.Wt sig := by
        intro e he
        rcases h₃ e he with he | ⟨d, hd, _, hb⟩
        · cases he
        · exact openLsDefn_wt (hwt d hd) hb
      have hsub : CallStep ldl ≤ Covered (callSet syms) :=
        fun _ _ hstep => covered_of_callStep hsig hnd hsyms hwt' hstep
      have hdec : ∀ ls ∈ ldl.map fst, ∀ a x,
          Relation.TransGen (CallStep ldl) (ls, a) (ls, x) →
          LexLt Value.Subterm ((m.lookup ls).getD []) x a := by
        intro ls hls a x hpath
        obtain ⟨d, hd, rfl⟩ := mem_map.mp hls
        obtain ⟨b, _, hb⟩ := h₁ d hd
        obtain ⟨v, hv, hfind⟩ := findVariants_lookup hm d.1 (mem_map.mpr ⟨_, hb, rfl⟩)
        rw [hv, Option.getD_some]
        exact findVariant_spec (callSet_arity hwt') hfind
          (Relation.TransGen.mono hsub _ _ hpath)
      refine ⟨?_, ?_⟩
      · intro d hd
        obtain ⟨d', hd', rfl⟩ := mem_map.mp hd
        exact hdec d'.1 (mem_map_of_mem hd')
      · refine no_infinite_run (T := {s | s ∈ ldl.map fst}) (finite_toSet _) ?_
          (fun s => LexLt Value.Subterm ((m.lookup s).getD []))
          (fun s _ => wellFounded_lexLt Value.wellFounded_subterm _) hdec
        rintro c c' ⟨_, _, _, _, _, _, _, _, hcall⟩
        exact decide_eq_true_eq.mp hcall.syms

end Group

/-! ### The length of a list -/

section Length

open Why3.Lists

def fsLength : LSymbol := ⟨110, [listTy tyInt], some tyInt, 0, false⟩

/-- `forall l. length l = match l with Nil -> 0 | Cons _ r -> length r end`. -/
def lengthDefn : LsDefn where
  ldLs := fsLength
  ldAxiom := .tquant [] .tforall [⟨111, listTy tyInt⟩] []
    (tEqu (.tapp [] fsLength [.tvar [] ⟨111, listTy tyInt⟩] (some tyInt))
      (.tcase [] (.tvar [] ⟨111, listTy tyInt⟩)
        [(.papp fsNil [] (listTy tyInt), .tconst [] (.constInt .iLitDec 0) tyInt),
         (.papp fsCons [.pwild tyInt, .pvar ⟨112, listTy tyInt⟩] (listTy tyInt),
          .tapp [] fsLength [.tvar [] ⟨112, listTy tyInt⟩] (some tyInt))]))
  ldVariant := []

theorem lengthDefn_wt : lengthDefn.ldAxiom.Wt listSig := by
  have htakes : fsLength.Takes [some (listTy tyInt)] (some tyInt) := ⟨[], rfl, rfl⟩
  have hequ : psEqu.Takes [some tyInt, some tyInt] none := ⟨[(⟨7⟩, tyInt)], rfl, rfl⟩
  refine ⟨rfl, trivial, hequ, ⟨htakes, trivial, trivial⟩, ⟨by simp, trivial, ?_⟩, trivial⟩
  refine ⟨rfl, ⟨by decide, rfl, trivial⟩, ⟨by simp, trivial⟩, rfl, trivial, ?_⟩
  refine ⟨rfl, ⟨by decide, by decide, trivial, trivial, trivial⟩, ⟨by decide, trivial, trivial,
    trivial⟩, rfl, ⟨htakes, trivial, trivial⟩, trivial⟩

theorem checkTermination_terminates_length :
    ∃ res, checkTermination [(fsLength, lengthDefn)] = .ok res ∧
      (∀ d ∈ res, ∀ a x,
        Relation.TransGen (CallStep [(fsLength, lengthDefn)]) (d.1, a) (d.1, x) →
        LexLt Value.Subterm d.2.ldVariant x a) ∧
      ¬ ∃ run : ℕ → LSymbol × List Value,
        ∀ n, CallStep [(fsLength, lengthDefn)] (run n) (run (n + 1)) := by
  have h : checkTermination [(fsLength, lengthDefn)] =
      .ok [(fsLength, ⟨fsLength, lengthDefn.ldAxiom, [0]⟩)] := rfl
  exact ⟨_, h, checkTermination_terminates sigOk_listSig (by simp)
    (forall_mem_singleton.mpr lengthDefn_wt) h⟩

end Length

end Why3
