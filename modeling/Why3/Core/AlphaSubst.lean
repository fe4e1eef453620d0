import Why3.Core.Alpha
import Why3.Core.Subst

/-!
# Substitution of variables for variables

`t_subst` renames the variables that a term binds, and those that the map replaces by
variables.  The result is the same term up to these names: `t_equal_strict` accepts the
two, when the numberings say which free variables correspond.
-/

namespace Why3

open List Pattern
open Prod (fst snd)

variable {bv : Numbering} {v : VSymbol} {p : Pattern}

/-! ## Patterns -/

namespace Pattern

section Rename

variable {r : VSymbol → VSymbol}

/-- The numbering of the renamed variables. -/
def renumber (r : VSymbol → VSymbol) (bv : Numbering) : Numbering :=
  bv.map (fun b => (r b.1, b.2))

theorem lookup_renumber (h : ∀ w ∈ bv.map fst, r w = r v → w = v) :
    (renumber r bv).lookup (r v) = bv.lookup v := by
  induction bv with
  | nil => rfl
  | cons b bv ih =>
    obtain ⟨w, n⟩ := b
    rw [map_cons, forall_mem_cons] at h
    rw [renumber, map_cons, Lookup.lookup_cons, Lookup.lookup_cons]
    by_cases hvw : v = w
    · rw [if_pos (congrArg r hvw), if_pos hvw]
    · have hr : r v ≠ r w := fun heq => hvw (h.1 heq.symm).symm
      rw [if_neg hr, if_neg hvw]
      exact ih h.2

theorem exists_lookup (h : v ∈ bv.map fst) : ∃ i, bv.lookup v = some i := by
  rw [← Option.ne_none_iff_exists', ne_eq, Lookup.lookup_eq_none, not_not]
  exact h

theorem orCmp_rename (hinj : Set.InjOn r { v | v ∈ bv.map fst }) :
    p.Linear → (∀ v ∈ p.patVars, v ∈ bv.map fst) →
      orCmp (renumber r bv) bv (p.rename r) p = true := by
  have hvar : ∀ {v}, v ∈ bv.map fst → (((renumber r bv).lookup (r v)).isSome &&
      (renumber r bv).lookup (r v) == bv.lookup v) = true := by
    intro v hv
    rw [lookup_renumber (fun w hw heq => hinj hw hv heq)]
    obtain ⟨i, hi⟩ := exists_lookup hv
    simp [hi]
  induction p with
  | pwild ty => exact fun _ _ => rfl
  | pvar v =>
    intro _ h
    rw [rename, orCmp]
    exact hvar (h v (mem_singleton_self v))
  | papp s pl ty ih =>
    intro hlin h
    simp only [Linear, linearList_iff] at hlin
    simp only [patVars, patVarsList_eq, mem_flatMap] at h
    simp only [rename, renameList_eq, orCmp, decide_true, Bool.true_and]
    rw [orCmpList_iff, forall₂_map_left_iff, forall₂_same]
    exact fun p hp => ih p hp (hlin.2 p hp) (fun v hv => h v ⟨p, hp, hv⟩)
  | por p q hp hq =>
    intro hlin h
    rw [rename, orCmp, Bool.and_eq_true]
    exact ⟨hp hlin.1 h, hq hlin.2.1 (fun v hv => h v ((hlin.2.2 v).mpr hv))⟩
  | pas p v ih =>
    intro hlin h
    rw [rename, orCmp, Bool.and_eq_true]
    exact ⟨ih hlin.1 (fun w hw => h w (mem_cons_of_mem _ hw)), hvar (h v mem_cons_self)⟩

/-- What the comparison of a renamed pattern with the pattern adds to the numberings. -/
def Renumbers (r : VSymbol → VSymbol) (bv : Numbering) (vl : List VSymbol)
    (st : Option AlphaState) : Prop :=
  ∃ n bv', st = some ⟨n, renumber r bv', bv'⟩ ∧
    ∀ v, v ∈ bv'.map fst ↔ v ∈ vl ∨ v ∈ bv.map fst

theorem patCompareList_rename {pl : List Pattern} (ih : ∀ p ∈ pl, ∀ {n : ℕ} {bv : Numbering},
    Set.InjOn r { v | v ∈ p.patVars ∨ v ∈ bv.map fst } →
      Renumbers r bv p.patVars (patCompare ⟨n, renumber r bv, bv⟩ (p.rename r) p)) :
    ∀ {n : ℕ} {bv : Numbering},
      Set.InjOn r { v | v ∈ pl.flatMap patVars ∨ v ∈ bv.map fst } →
      Renumbers r bv (pl.flatMap patVars)
        (patCompareList ⟨n, renumber r bv, bv⟩ (pl.map (rename r)) pl) := by
  induction pl with
  | nil =>
    intro n bv _
    exact ⟨n, bv, rfl, by simp⟩
  | cons p pl ihl =>
    intro n bv hinj
    simp only [flatMap_cons, mem_append] at hinj
    obtain ⟨n₁, bv₁, h₁, hkeys₁⟩ := @ih p mem_cons_self n bv
      (hinj.mono (fun v hv => hv.imp_left .inl))
    obtain ⟨n₂, bv₂, h₂, hkeys₂⟩ := @ihl (fun q hq => ih q (mem_cons_of_mem _ hq))
      n₁ bv₁ (hinj.mono (fun v hv => by
        rcases hv with hv | hv
        · exact .inl (.inr hv)
        · exact ((hkeys₁ v).mp hv).imp_left .inl))
    refine ⟨n₂, bv₂, ?_, fun v => ?_⟩
    · rw [map_cons, patCompareList, h₁]
      exact h₂
    · rw [hkeys₂, hkeys₁, flatMap_cons, mem_append]
      tauto

theorem patCompare_rename : p.Linear → ∀ {n : ℕ} {bv : Numbering},
    Set.InjOn r { v | v ∈ p.patVars ∨ v ∈ bv.map fst } →
      Renumbers r bv p.patVars (patCompare ⟨n, renumber r bv, bv⟩ (p.rename r) p) := by
  induction p with
  | pwild ty =>
    intro _ n bv _
    exact ⟨n, bv, rfl, by simp [patVars]⟩
  | pvar v =>
    intro _ n bv _
    exact ⟨n + 1, (v, n) :: bv, rfl, by simp [patVars]⟩
  | papp s pl ty ih =>
    intro hlin n bv hinj
    simp only [Linear, linearList_iff] at hlin
    rw [patVars, patVarsList_eq] at hinj ⊢
    simp only [rename, renameList_eq, patCompare, if_true]
    exact patCompareList_rename (fun p hp => ih p hp (hlin.2 p hp)) hinj
  | por p q hp _ =>
    intro hlin n bv hinj
    obtain ⟨n₁, bv₁, h₁, hkeys₁⟩ := hp hlin.1 (n := n) hinj
    -- the right side has the variables of the left one
    have hq : orCmp (renumber r bv₁) bv₁ (q.rename r) q = true :=
      orCmp_rename (hinj.mono (fun v hv => (hkeys₁ v).mp hv)) hlin.2.1
        (fun v hv => (hkeys₁ v).mpr (.inl ((hlin.2.2 v).mpr hv)))
    refine ⟨n₁, bv₁, ?_, hkeys₁⟩
    simp only [rename, patCompare, h₁, hq, if_true]
  | pas p v ih =>
    intro hlin n bv hinj
    obtain ⟨n₁, bv₁, h₁, hkeys₁⟩ := @ih hlin.1 n bv
      (hinj.mono (fun w hw => hw.imp_left (mem_cons_of_mem _)))
    refine ⟨n₁ + 1, (v, n₁) :: bv₁, ?_, fun w => ?_⟩
    · simp only [rename, patCompare, h₁]
      rfl
    · rw [map_cons, mem_cons, hkeys₁, patVars, mem_cons]
      tauto

end Rename

end Pattern

/-! ## Terms -/

/-- The map replaces the variables of `F` by those that correspond to them, with names
below `k`. -/
def Mvs.Numbered (k : ℕ) (m : Mvs) (vm1 vm2 : Numbering) (F : List VSymbol) : Prop :=
  ∀ v ∈ F, ∃ w : VSymbol, m.get v = .tvar [] w ∧ w.vsTy = v.vsTy ∧ w.vsName < k ∧
    ((∃ i, vm1.lookup w = some i ∧ vm2.lookup v = some i) ∨
      (vm1.lookup w = none ∧ vm2.lookup v = none ∧ w = v))

section Numbered

variable {k : ℕ} {m : Mvs} {vm1 vm2 : Numbering} {F G : List VSymbol}

theorem Mvs.Numbered.mono (h : m.Numbered k vm1 vm2 F) (hF : ∀ v ∈ G, v ∈ F) : m.Numbered k vm1 vm2 G :=
  fun v hv => h v (hF v hv)

/-- Under a binder: the variables that it binds get numbers, and the new ones, which have
names from `k` on, get the same. -/
theorem Mvs.Numbered.bind {vl : List VSymbol} {bv1 bv2 : Numbering} (h : m.Numbered k vm1 vm2 F)
    (hF : ∀ v ∈ G, v ∉ vl → v ∈ F)
    (h1 : ∀ w ∈ bv1.map fst, k ≤ w.vsName)
    (h2 : ∀ v, v ∈ bv2.map fst → v ∈ vl)
    (hvl : ∀ v ∈ vl, ∃ i, bv1.lookup ((m.bind k vl).var v) = some i ∧ bv2.lookup v = some i) :
    (m.bind k vl).Numbered (k + vl.length) (bv1 ++ vm1) (bv2 ++ vm2) G := by
  intro v hv
  by_cases hmem : v ∈ vl
  · obtain ⟨hget, -, hlt⟩ := Mvs.get_bind (m := m) hmem (k := k)
    obtain ⟨i, hi₁, hi₂⟩ := hvl v hmem
    refine ⟨_, hget, Mvs.vsTy_var_bind hmem, hlt, .inl ⟨i, ?_, ?_⟩⟩
    · rw [Lookup.lookup_append, hi₁, Option.some_or]
    · rw [Lookup.lookup_append, hi₂, Option.some_or]
  · obtain ⟨w, hget, hty, hlt, hnum⟩ := h v (hF v hv hmem)
    have hw : bv1.lookup w = none :=
      Lookup.lookup_eq_none.mpr (fun hw => absurd (h1 w hw) (not_le.mpr hlt))
    have hv' : bv2.lookup v = none :=
      Lookup.lookup_eq_none.mpr (fun hv' => hmem (h2 v hv'))
    refine ⟨w, by rw [Mvs.get_bind_of_not_mem hmem, hget], hty, by omega, ?_⟩
    rwa [Lookup.lookup_append, Lookup.lookup_append, hw, hv', Option.none_or, Option.none_or]

theorem Mvs.Numbered.bind_one (h : m.Numbered k vm1 vm2 F) (hF : ∀ w ∈ G, w ∉ [v] → w ∈ F) (n : ℕ) :
    (m.bind k [v]).Numbered (k + 1) ((⟨k, v.vsTy⟩, n) :: vm1) ((v, n) :: vm2) G := by
  have hvar : (m.bind k [v]).var v = ⟨k, v.vsTy⟩ := by
    unfold Mvs.var Mvs.bind Mvs.bind
    rw [lookup_cons_self]
  refine @Mvs.Numbered.bind k m vm1 vm2 F G [v] [(⟨k, v.vsTy⟩, n)] [(v, n)] h hF ?_ ?_ ?_
  · intro w hw
    rw [map_singleton, mem_singleton] at hw
    rw [hw]
  · exact fun w hw => hw
  · intro w hw
    obtain rfl := mem_singleton.mp hw
    rw [hvar]
    exact ⟨n, lookup_cons_self, lookup_cons_self⟩

theorem Mvs.Numbered.addQuant {vl : List VSymbol} : ∀ {k : ℕ} {m : Mvs} {vm1 vm2 : Numbering}
    {F : List VSymbol}, m.Numbered k vm1 vm2 F → (∀ v ∈ G, v ∉ vl → v ∈ F) → ∀ n,
      ∃ n' vm1' vm2', addQuant n vm1 vm2 (freshen k vl) vl = some (n', vm1', vm2') ∧
        (m.bind k vl).Numbered (k + vl.length) vm1' vm2' G := by
  induction vl with
  | nil =>
    intro k m vm1 vm2 F h hF n
    exact ⟨n, vm1, vm2, rfl, h.mono (fun v hv => hF v hv not_mem_nil)⟩
  | cons v vl ih =>
    intro k m vm1 vm2 F h hF n
    have hF₁ : ∀ w ∈ G.filter (· ∉ vl), w ∉ [v] → w ∈ F := by
      intro w hw hne
      rw [mem_filter, decide_eq_true_eq] at hw
      exact hF w hw.1 (by simpa using ⟨by simpa using hne, hw.2⟩)
    obtain ⟨n', vm1', vm2', hadd, hren⟩ := ih (h.bind_one hF₁ n) (fun w hw hne => by
      rw [mem_filter, decide_eq_true_eq]
      exact ⟨hw, hne⟩) (n + 1)
    refine ⟨n', vm1', vm2', hadd, ?_⟩
    rw [length_cons, add_comm vl.length 1, ← add_assoc]
    exact hren

theorem Mvs.Numbered.bind_pat (h : m.Numbered k vm1 vm2 F) (hlin : p.Linear)
    (hF : ∀ v ∈ G, v ∉ p.patVars → v ∈ F) (n : ℕ) :
    ∃ st, patCompare ⟨n, [], []⟩ (p.rename (m.bind k p.patVars).var) p = some st ∧
      (m.bind k p.patVars).Numbered (k + p.patVars.length) (st.bv1 ++ vm1) (st.bv2 ++ vm2) G := by
  have hinj : Set.InjOn (m.bind k p.patVars).var
      { v | v ∈ p.patVars ∨ v ∈ (([] : Numbering).map fst) } :=
    Mvs.var_injOn.mono (fun v hv => hv.resolve_right (by simp))
  obtain ⟨n', bv, hst, hkeys⟩ := patCompare_rename hlin (n := n) hinj
  have hkeys' : ∀ v, v ∈ bv.map fst ↔ v ∈ p.patVars := by simpa using hkeys
  refine ⟨_, hst, h.bind hF ?_ (fun v hv => (hkeys' v).mp hv) ?_⟩
  · intro w hw
    simp only [renumber, map_map, mem_map, Function.comp] at hw
    obtain ⟨b, hb, rfl⟩ := hw
    exact (Mvs.get_bind (m := m) ((hkeys' b.1).mp (mem_map_of_mem hb)) (k := k)).2.1
  · intro v hv
    obtain ⟨i, hi⟩ := exists_lookup ((hkeys' v).mpr hv)
    refine ⟨i, ?_, hi⟩
    rw [lookup_renumber, hi]
    exact fun w hw heq => Mvs.var_injOn ((hkeys' w).mp hw) hv heq

end Numbered

namespace Term

variable {n : ℕ} {vm1 vm2 : Numbering}

theorem Sattr.equal_refl (a : Sattr) : a.equal a = true := by
  simp [Sattr.equal]

theorem alphaEqStrictList_map {f : Term → Term} {tl : List Term}
    (h : ∀ t ∈ tl, alphaEqStrict n vm1 vm2 (f t) t = true) :
    alphaEqStrictList n vm1 vm2 (tl.map f) tl = true := by
  induction tl with
  | nil => rw [map_nil, alphaEqStrictList]
  | cons t tl ih =>
    rw [forall_mem_cons] at h
    rw [map_cons, alphaEqStrictList, Bool.and_eq_true]
    exact ⟨h.1, ih h.2⟩

theorem alphaEqStrictTriggers_map {f : Term → Term} {trl : List (List Term)}
    (h : ∀ tr ∈ trl, ∀ t ∈ tr, alphaEqStrict n vm1 vm2 (f t) t = true) :
    alphaEqStrictTriggers n vm1 vm2 (trl.map (fun tr => tr.map f)) trl = true := by
  induction trl with
  | nil => rw [map_nil, alphaEqStrictTriggers]
  | cons tr trl ih =>
    rw [forall_mem_cons] at h
    rw [map_cons, alphaEqStrictTriggers, Bool.and_eq_true]
    exact ⟨alphaEqStrictList_map h.1, ih h.2⟩

theorem alphaEqStrictBranches_map {f : Pattern × Term → Pattern × Term}
    {bl : List (Pattern × Term)}
    (h : ∀ b ∈ bl, (match patCompare ⟨n, [], []⟩ (f b).1 b.1 with
      | some st => alphaEqStrict st.bnd (st.bv1 ++ vm1) (st.bv2 ++ vm2) (f b).2 b.2
      | none => false) = true) : alphaEqStrictBranches n vm1 vm2 (bl.map f) bl = true := by
  induction bl with
  | nil => rw [map_nil, alphaEqStrictBranches]
  | cons b bl ih =>
    rw [forall_mem_cons] at h
    rw [map_cons, alphaEqStrictBranches, Bool.and_eq_true]
    exact ⟨h.1, ih h.2⟩

variable {sig : TySymbol → List LSymbol}

/-- Renaming the variables of a term gives the same term up to their names. -/
theorem alphaEqStrict_subst {t : Term} : t.Wt sig → ∀ {n k : ℕ} {m : Mvs} {vm1 vm2 : Numbering},
    m.Numbered k vm1 vm2 t.freeVars → alphaEqStrict n vm1 vm2 (t.subst k m) t = true := by
  induction t with
  | tvar a v =>
    intro _ n k m vm1 vm2 h
    obtain ⟨w, hget, hty, -, hnum⟩ := h v (mem_singleton_self v)
    have hsubst : Term.subst k m (.tvar a v) = .tvar a w := by
      unfold Term.subst
      unfold Mvs.get at hget
      cases hlook : m.lookup v with
      | none =>
        rw [hlook, Option.getD_none, Term.tvar.injEq] at hget
        rw [hget.2]
      | some t =>
        rw [hlook, Option.getD_some] at hget
        subst hget
        simp [tAttrCopy, setAttrs, tAttrs, Sattr.union]
    rw [hsubst]
    simp only [alphaEqStrict, alphaEq, Bool.and_eq_true, Sattr.equal_refl, true_and,
      decide_eq_true_eq]
    refine ⟨hty, ?_⟩
    rcases hnum with ⟨i, h₁, h₂⟩ | ⟨h₁, h₂, rfl⟩
    · simp [h₁, h₂]
    · simp [h₁, h₂]
  | tconst a c ty =>
    intro _ n k m vm1 vm2 _
    simp only [subst, alphaEqStrict, alphaEq, Sattr.equal_refl, decide_true, Bool.true_and]
    cases c <;> simp [Constant.equal, RealValue.equal]
  | tapp a s tl ty ih =>
    intro hwt n k m vm1 vm2 h
    simp only [Wt, wtList_iff] at hwt
    simp only [subst, substList_eq, alphaEqStrict, Sattr.equal_refl, decide_true, Bool.true_and]
    exact alphaEqStrictList_map (fun t ht => ih t ht (hwt.2 t ht)
      (h.mono (fun v hv => mem_freeVars_tapp ht hv)))
  | tif a f t1 t2 ihf ih1 ih2 =>
    intro hwt n k m vm1 vm2 h
    obtain ⟨_, _, hf, h1, h2⟩ := hwt
    simp only [subst, alphaEqStrict, Sattr.equal_refl, Bool.true_and, Bool.and_eq_true]
    refine ⟨ihf hf (h.mono (fun v hv => ?_)), ih1 h1 (h.mono (fun v hv => ?_)),
      ih2 h2 (h.mono (fun v hv => ?_))⟩
    · simp [freeVars, hv]
    · simp [freeVars, hv]
    · simp [freeVars, hv]
  | tlet a t v e iht ihe =>
    intro hwt n k m vm1 vm2 h
    obtain ⟨_, ht, he⟩ := hwt
    simp only [subst, alphaEqStrict, Sattr.equal_refl, Bool.true_and, Bool.and_eq_true]
    refine ⟨iht ht (h.mono (fun w hw => ?_)), ihe he (h.bind_one (fun w => mem_freeVars_tlet) n)⟩
    simp [freeVars, hw]
  | tcase a t bl iht ihb =>
    intro hwt n k m vm1 vm2 h
    simp only [Wt, wtBranches_iff] at hwt
    obtain ⟨_, ht, hbl⟩ := hwt
    simp only [subst, substBranches_eq, alphaEqStrict, Sattr.equal_refl, Bool.true_and,
      Bool.and_eq_true]
    refine ⟨iht ht (h.mono (fun w hw => ?_)), ?_⟩
    · simp [freeVars, hw]
    · have hbranch : ∀ b ∈ bl, (match patCompare ⟨n, [], []⟩
            (b.1.rename (m.bind k b.1.patVars).var) b.1 with
        | some st => alphaEqStrict st.bnd (st.bv1 ++ vm1) (st.bv2 ++ vm2)
            (b.2.subst (k + b.1.patVars.length) (m.bind k b.1.patVars)) b.2
        | none => false) = true := by
        intro b hb
        obtain ⟨_, _, hlin, _, hwtb⟩ := hbl b hb
        obtain ⟨st, hst, hren⟩ := h.bind_pat hlin (fun w hw hne => mem_freeVars_tcase hb hw hne) n
        rw [hst]
        exact ihb b hb hwtb hren
      exact alphaEqStrictBranches_map hbranch
  | teps a v f ih =>
    intro hwt n k m vm1 vm2 h
    simp only [subst, alphaEqStrict, Sattr.equal_refl, decide_true, Bool.true_and]
    exact ih hwt.2 (h.bind_one (fun w => mem_freeVars_teps) n)
  | tquant a q vl trl f ihtr ih =>
    intro hwt n k m vm1 vm2 h
    simp only [Wt, wtTriggers_iff] at hwt
    -- the triggers and the body under one numbering
    obtain ⟨n', vm1', vm2', hadd, hren⟩ := @Mvs.Numbered.addQuant
      (freeVarsTriggers trl ++ f.freeVars) vl k m vm1 vm2 _ h (fun v hv hne => by
        rw [freeVars, mem_filter, decide_eq_true_eq]
        exact ⟨hv, hne⟩) n
    simp only [subst, substTriggers_eq, alphaEqStrict, Sattr.equal_refl, decide_true,
      Bool.true_and, hadd, Bool.and_eq_true]
    refine ⟨alphaEqStrictTriggers_map (fun tr htr t ht => ihtr tr htr t ht (hwt.2.1 tr htr t ht)
      (hren.mono (fun v hv => mem_append_left _ ?_))),
      ih hwt.2.2 (hren.mono (fun v hv => mem_append_right _ hv))⟩
    rw [freeVarsTriggers_eq, mem_flatMap]
    exact ⟨tr, htr, mem_flatMap.mpr ⟨t, ht, hv⟩⟩
  | tbinop a op f g ihf ihg =>
    intro hwt n k m vm1 vm2 h
    simp only [subst, alphaEqStrict, Sattr.equal_refl, decide_true, Bool.true_and,
      Bool.and_eq_true]
    refine ⟨ihg hwt.2.2.2 (h.mono (fun v hv => ?_)), ihf hwt.2.2.1 (h.mono (fun v hv => ?_))⟩
    · simp [freeVars, hv]
    · simp [freeVars, hv]
  | tnot a f ih =>
    intro hwt n k m vm1 vm2 h
    simp only [subst, alphaEqStrict, Sattr.equal_refl, Bool.true_and]
    exact ih hwt.2 h
  | ttrue a | tfalse a =>
    intro _ n k m vm1 vm2 _
    rw [subst, alphaEqStrict]
    exact Sattr.equal_refl a

end Term

end Why3
