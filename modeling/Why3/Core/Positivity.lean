import Why3.Core.Decl
import Mathlib.Logic.Relation

/-!
# Positivity of algebraic types

The positivity check of `core/decl.ml` is meant to refuse every data
declaration whose types, unfolded any number of times, occur to the left of an
arrow or in an argument of an abstract type.  `ts_extract_pos` computes the
polarity of the parameters in one pass that takes every recursive occurrence to
be harmless, so it misses the parameters that reach a refused position only
through a type symbol met twice.  Here: the meaning of unfolding, what the check
does ensure, and the declarations for which that is enough.
-/

namespace Why3

open List

variable {s : TySymbol} {l : List Ty} {v : TvSymbol} {t t' ty : Ty} {m : Mtv} {k : ℕ}

/-! ## Types and their parts -/

namespace Ty

theorem mem_symbols_tyapp {x : TySymbol} :
    x ∈ (Ty.tyapp s l).symbols ↔ x = s ∨ ∃ t ∈ l, x ∈ t.symbols := by
  simp [symbols]

theorem mem_freevars_tyapp : v ∈ (Ty.tyapp s l).freevars ↔ ∃ t ∈ l, v ∈ t.freevars := by
  simp [freevars]

theorem symbols_of_subtype {x : Ty} (hx : x ∈ ty.subtypes) : ∀ s ∈ x.symbols, s ∈ ty.symbols := by
  induction ty with
  | tyvar v =>
    rw [subtypes, mem_singleton] at hx
    subst hx
    exact fun _ h => h
  | tyapp s l ih =>
    rcases mem_subtypes_tyapp.mp hx with rfl | ⟨t, ht, hx⟩
    · exact fun _ h => h
    · exact fun s' h => mem_symbols_tyapp.mpr (.inr ⟨t, ht, ih t ht hx s' h⟩)

theorem freevars_of_subtype {x : Ty} (hx : x ∈ ty.subtypes) :
    ∀ v ∈ x.freevars, v ∈ ty.freevars := by
  induction ty with
  | tyvar v =>
    rw [subtypes, mem_singleton] at hx
    subst hx
    exact fun _ h => h
  | tyapp s l ih =>
    rcases mem_subtypes_tyapp.mp hx with rfl | ⟨t, ht, hx⟩
    · exact fun _ h => h
    · exact fun v h => mem_freevars_tyapp.mpr ⟨t, ht, ih t ht hx v h⟩

theorem Wf.arg {s : TySymbol} {l : List Ty} {t : Ty} (h : (Ty.tyapp s l).Wf) (ht : t ∈ l) : t.Wf :=
  fun s' l' hx => h s' l' (mem_subtypes_tyapp.mpr (.inr ⟨t, ht, hx⟩))

theorem Wf.length (h : (Ty.tyapp s l).Wf) : l.length = s.tsArgs.length :=
  h s l (self_mem_subtypes _)

/-- What a variable stands for. -/
def instVar (m : Mtv) (v : TvSymbol) : Ty := (m.lookup v).getD (.tyvar v)

theorem symbols_inst :
    s ∈ (ty.inst m).symbols ↔ s ∈ ty.symbols ∨ ∃ v ∈ ty.freevars, s ∈ (instVar m v).symbols := by
  induction ty with
  | tyvar v => simp [inst, instVar, symbols, freevars]
  | tyapp s' l ih =>
    simp only [inst, instList_eq, mem_symbols_tyapp, mem_freevars_tyapp, mem_map]
    constructor
    · rintro (rfl | ⟨t, ⟨t', ht', rfl⟩, hs⟩)
      · exact .inl (.inl rfl)
      · rcases (ih t' ht').mp hs with hs | ⟨v, hv, hs⟩
        · exact .inl (.inr ⟨t', ht', hs⟩)
        · exact .inr ⟨v, ⟨t', ht', hv⟩, hs⟩
    · rintro ((rfl | ⟨t, ht, hs⟩) | ⟨v, ⟨t, ht, hv⟩, hs⟩)
      · exact .inl rfl
      · exact .inr ⟨_, ⟨t, ht, rfl⟩, (ih t ht).mpr (.inl hs)⟩
      · exact .inr ⟨_, ⟨t, ht, rfl⟩, (ih t ht).mpr (.inr ⟨v, hv, hs⟩)⟩

theorem freevars_inst {w : TvSymbol} :
    w ∈ (ty.inst m).freevars ↔ ∃ v ∈ ty.freevars, w ∈ (instVar m v).freevars := by
  induction ty with
  | tyvar v => simp [inst, instVar, freevars]
  | tyapp s' l ih =>
    simp only [inst, instList_eq, mem_freevars_tyapp, mem_map]
    constructor
    · rintro ⟨t, ⟨t', ht', rfl⟩, hw⟩
      obtain ⟨v, hv, hw⟩ := (ih t' ht').mp hw
      exact ⟨v, ⟨t', ht', hv⟩, hw⟩
    · rintro ⟨v, ⟨t, ht, hv⟩, hw⟩
      exact ⟨_, ⟨t, ht, rfl⟩, (ih t ht).mpr ⟨v, hv, hw⟩⟩

/-- A part of an instance is an instance of a part, or lies in what a variable
stands for. -/
theorem subtypes_inst (h : .tyapp s l ∈ (ty.inst m).subtypes) :
    (∃ l', .tyapp s l' ∈ ty.subtypes ∧ l = l'.map (inst m)) ∨
      ∃ v ∈ ty.freevars, .tyapp s l ∈ (instVar m v).subtypes := by
  induction ty with
  | tyvar v => exact .inr ⟨v, mem_singleton_self _, h⟩
  | tyapp s' l' ih =>
    simp only [inst, instList_eq] at h
    rcases mem_subtypes_tyapp.mp h with heq | ⟨t, ht, hx⟩
    · cases heq
      exact .inl ⟨l', self_mem_subtypes _, rfl⟩
    · obtain ⟨t', ht', rfl⟩ := mem_map.mp ht
      rcases ih t' ht' hx with ⟨l'', hl, rfl⟩ | ⟨v, hv, hx⟩
      · exact .inl ⟨l'', mem_subtypes_tyapp.mpr (.inr ⟨t', ht', hl⟩), rfl⟩
      · exact .inr ⟨v, mem_freevars_tyapp.mpr ⟨t', ht', hv⟩, hx⟩

end Ty

/-- A parameter stands for the argument at its first position. -/
theorem instVar_matchArgs {ts : TySymbol} {tl : List Ty} (hlen : tl.length = ts.tsArgs.length)
    (hv : v ∈ ts.tsArgs) :
    ∃ (j : ℕ) (t : Ty), ts.tsArgs[j]? = some v ∧ tl[j]? = some t ∧ Ty.instVar (ts.matchArgs tl) v = t := by
  have key : ∀ (vl : List TvSymbol) (tl : List Ty), tl.length = vl.length → v ∈ vl →
      ∃ (j : ℕ) (t : Ty), vl[j]? = some v ∧ tl[j]? = some t ∧ ((vl.zip tl).lookup v).getD (.tyvar v) = t := by
    intro vl
    induction vl with
    | nil => intro tl _ hv; cases hv
    | cons w vl ih =>
      intro tl hlen hv
      cases tl with
      | nil => simp at hlen
      | cons t tl =>
        rw [zip_cons_cons, List.lookup_cons]
        by_cases hw : v = w
        · subst hw
          exact ⟨0, t, rfl, rfl, by simp⟩
        · have hbeq : (v == w) = false := by simpa using hw
          rw [hbeq]
          obtain ⟨j, t', hj, ht', he⟩ := ih tl (by simpa using hlen)
            ((mem_cons.mp hv).resolve_left hw)
          exact ⟨j + 1, t', by simpa using hj, by simpa using ht', he⟩
  exact key ts.tsArgs tl hlen hv

/-! ## Unfolding -/

section Unfold

variable (kn : KnownMap)

/-- One unfolding: somewhere in the type an application of an algebraic type is
replaced by an argument type of one of its constructors. -/
inductive Unfold : Ty → Ty → Prop
  | head {ts tl c a} : c ∈ findConstructors kn ts → a ∈ c.1.lsArgs →
      Unfold (.tyapp ts tl) (a.inst (ts.matchArgs tl))
  | arg {s l₁ l₂ t t'} : Unfold t t' →
      Unfold (.tyapp s (l₁ ++ t :: l₂)) (.tyapp s (l₁ ++ t' :: l₂))

/-- The arguments in which the declared types must not occur: the first one of
an arrow, and all those of an abstract type. -/
def Refused (s : TySymbol) (k : ℕ) : Prop :=
  (s = tsFunc ∧ k = 0) ∨ (s ≠ tsFunc ∧ findConstructors kn s = [])

/-- A type symbol of `S` or a type variable of `X` occurs in the type. -/
def Ty.Has (S : TySymbol → Prop) (X : TvSymbol → Prop) (ty : Ty) : Prop :=
  (∃ s ∈ ty.symbols, S s) ∨ ∃ v ∈ ty.freevars, X v

/-- A marked symbol or variable occurs in a refused argument. -/
def BadTy (S : TySymbol → Prop) (X : TvSymbol → Prop) (ty : Ty) : Prop :=
  ∃ s l, .tyapp s l ∈ ty.subtypes ∧ ∃ (k : ℕ) (u : Ty), l[k]? = some u ∧ Refused kn s k ∧ u.Has S X

/-- The parameter `j` of `ts` flows into a refused argument: it occurs, in an
argument type of a constructor, in an argument from which this holds. -/
inductive Neg : TySymbol → ℕ → Prop
  | func : Neg tsFunc 0
  | abstract {ts j} : ts ≠ tsFunc → findConstructors kn ts = [] → j < ts.tsArgs.length → Neg ts j
  | flow {ts c a s l v} {j k : ℕ} {u : Ty} : c ∈ findConstructors kn ts → a ∈ c.1.lsArgs →
      .tyapp s l ∈ a.subtypes → l[k]? = some u → v ∈ u.freevars → ts.tsArgs[j]? = some v →
      Neg s k → Neg ts j

/-- The same along a path that meets no type symbol twice, and none of `sts`. -/
inductive SimpleNeg : List TySymbol → TySymbol → ℕ → Prop
  | func {sts} : SimpleNeg sts tsFunc 0
  | abstract {sts ts j} : ts ∉ sts → ts ≠ tsFunc → findConstructors kn ts = [] →
      j < ts.tsArgs.length → SimpleNeg sts ts j
  | flow {sts ts c a s l v} {j k : ℕ} {u : Ty} : ts ∉ sts → ts ≠ tsFunc →
      c ∈ findConstructors kn ts → a ∈ c.1.lsArgs → .tyapp s l ∈ a.subtypes → l[k]? = some u →
      v ∈ u.freevars → ts.tsArgs[j]? = some v → SimpleNeg (ts :: sts) s k → SimpleNeg sts ts j

/-- What unfolding relies on, for the types with a name in `K` and the marked
type symbols `S`. -/
structure Fits (K : ℕ → Prop) (S : TySymbol → Prop) : Prop where
  wf : ∀ ts, K ts.tsName → ∀ c ∈ findConstructors kn ts, ∀ a ∈ c.1.lsArgs, a.Wf
  bound : ∀ ts, K ts.tsName → ∀ c ∈ findConstructors kn ts, ∀ a ∈ c.1.lsArgs,
    ∀ v ∈ a.freevars, v ∈ ts.tsArgs
  known : ∀ ts, K ts.tsName → ∀ c ∈ findConstructors kn ts, ∀ a ∈ c.1.lsArgs,
    ∀ s ∈ a.symbols, K s.tsName
  outside : ∀ ts, K ts.tsName → ¬ S ts → ∀ c ∈ findConstructors kn ts, ∀ a ∈ c.1.lsArgs,
    ∀ s ∈ a.symbols, ¬ S s
  inside : ∀ ts, K ts.tsName → ∀ c ∈ findConstructors kn ts, ∀ a ∈ c.1.lsArgs,
    ∀ s l, .tyapp s l ∈ a.subtypes → ∀ (k : ℕ) (u : Ty), l[k]? = some u → Neg kn s k →
      ∀ x ∈ u.symbols, ¬ S x

/-- The invariant of unfolding: no mark in an argument that flows into a refused
one. -/
structure Marked (K : ℕ → Prop) (S : TySymbol → Prop) (X : TvSymbol → Prop) (ty : Ty) : Prop where
  wf : ty.Wf
  known : ∀ s ∈ ty.symbols, K s.tsName
  unmarked : ∀ s l, .tyapp s l ∈ ty.subtypes → ∀ (k : ℕ) (u : Ty), l[k]? = some u → Neg kn s k →
    ¬ u.Has S X

variable {kn} {K : ℕ → Prop} {S : TySymbol → Prop} {X : TvSymbol → Prop}

theorem neg_of_refused (h : Refused kn s k) (hk : k < s.tsArgs.length) : Neg kn s k := by
  rcases h with ⟨rfl, rfl⟩ | ⟨hne, hnil⟩
  · exact .func
  · exact .abstract hne hnil hk

theorem Marked.not_bad (h : Marked kn K S X ty) : ¬ BadTy kn S X ty := by
  rintro ⟨s, l, hmem, k, u, hu, href, hhas⟩
  have hk : k < s.tsArgs.length := by
    rw [← h.wf s l hmem]
    exact (List.getElem?_eq_some_iff.mp hu).1
  exact h.unmarked s l hmem k u hu (neg_of_refused href hk) hhas

theorem Marked.arg {s : TySymbol} {l : List Ty} {t : Ty} (h : Marked kn K S X (.tyapp s l))
    (ht : t ∈ l) : Marked kn K S X t where
  wf := h.wf.arg ht
  known := fun s' hs => h.known s' (Ty.mem_symbols_tyapp.mpr (.inr ⟨t, ht, hs⟩))
  unmarked := fun s' l' hx => h.unmarked s' l' (Ty.mem_subtypes_tyapp.mpr (.inr ⟨t, ht, hx⟩))

/-- Unfolding brings no new marks. -/
theorem Unfold.has (hfits : Fits kn K S) (h : Unfold kn t t') :
    t.Wf → (∀ s ∈ t.symbols, K s.tsName) → t'.Has S X → t.Has S X := by
  induction h with
  | @head ts tl c a hc ha =>
    intro hwf hknown hhas
    have hts : K ts.tsName := hknown ts (Ty.mem_symbols_tyapp.mpr (.inl rfl))
    -- what a variable of `a` stands for is an argument of `ts`
    have harg : ∀ v ∈ a.freevars, ∃ t ∈ tl, Ty.instVar (ts.matchArgs tl) v = t := by
      intro v hv
      obtain ⟨j, t, _, ht, he⟩ := instVar_matchArgs hwf.length (hfits.bound ts hts c hc a ha v hv)
      exact ⟨t, mem_of_getElem? ht, he⟩
    rcases hhas with ⟨s, hs, hS⟩ | ⟨w, hw, hX⟩
    · rcases Ty.symbols_inst.mp hs with hs | ⟨v, hv, hs⟩
      · by_cases hts' : S ts
        · exact .inl ⟨ts, Ty.mem_symbols_tyapp.mpr (.inl rfl), hts'⟩
        · exact absurd hS (hfits.outside ts hts hts' c hc a ha s hs)
      · obtain ⟨t, ht, he⟩ := harg v hv
        rw [he] at hs
        exact .inl ⟨s, Ty.mem_symbols_tyapp.mpr (.inr ⟨t, ht, hs⟩), hS⟩
    · obtain ⟨v, hv, hw⟩ := Ty.freevars_inst.mp hw
      obtain ⟨t, ht, he⟩ := harg v hv
      rw [he] at hw
      exact .inr ⟨w, Ty.mem_freevars_tyapp.mpr ⟨t, ht, hw⟩, hX⟩
  | @arg s l₁ l₂ t t' _ ih =>
    intro hwf hknown hhas
    have hmem : t ∈ l₁ ++ t :: l₂ := by simp
    have ht : t'.Has S X → t.Has S X := ih (hwf.arg hmem)
      (fun x hx => hknown x (Ty.mem_symbols_tyapp.mpr (.inr ⟨t, hmem, hx⟩)))
    have hother : ∀ u ∈ l₁ ++ t' :: l₂, u.Has S X → ∃ u' ∈ l₁ ++ t :: l₂, u'.Has S X := by
      intro u hu huh
      rw [mem_append, mem_cons] at hu
      rcases hu with hu | rfl | hu
      · exact ⟨u, by simp [hu], huh⟩
      · exact ⟨t, hmem, ht huh⟩
      · exact ⟨u, by simp [hu], huh⟩
    have hlift : ∀ u ∈ l₁ ++ t :: l₂, u.Has S X → (Ty.tyapp s (l₁ ++ t :: l₂)).Has S X := by
      rintro u hu (⟨x, hx, hS⟩ | ⟨v, hv, hX⟩)
      · exact .inl ⟨x, Ty.mem_symbols_tyapp.mpr (.inr ⟨u, hu, hx⟩), hS⟩
      · exact .inr ⟨v, Ty.mem_freevars_tyapp.mpr ⟨u, hu, hv⟩, hX⟩
    rcases hhas with ⟨x, hx, hS⟩ | ⟨v, hv, hX⟩
    · rcases Ty.mem_symbols_tyapp.mp hx with rfl | ⟨u, hu, hx⟩
      · exact .inl ⟨x, Ty.mem_symbols_tyapp.mpr (.inl rfl), hS⟩
      · obtain ⟨u', hu', huh⟩ := hother u hu (.inl ⟨x, hx, hS⟩)
        exact hlift u' hu' huh
    · obtain ⟨u, hu, hv⟩ := Ty.mem_freevars_tyapp.mp hv
      obtain ⟨u', hu', huh⟩ := hother u hu (.inr ⟨v, hv, hX⟩)
      exact hlift u' hu' huh

/-- Unfolding keeps the invariant. -/
theorem Marked.unfold (hfits : Fits kn K S) (h : Unfold kn t t') :
    Marked kn K S X t → Marked kn K S X t' := by
  induction h with
  | @head ts tl c a hc ha =>
    intro hm
    have hts : K ts.tsName := hm.known ts (Ty.mem_symbols_tyapp.mpr (.inl rfl))
    have harg : ∀ v ∈ a.freevars, ∃ (j : ℕ) (t : Ty), ts.tsArgs[j]? = some v ∧
        tl[j]? = some t ∧ Ty.instVar (ts.matchArgs tl) v = t :=
      fun v hv => instVar_matchArgs hm.wf.length (hfits.bound ts hts c hc a ha v hv)
    refine ⟨?_, ?_, ?_⟩
    · intro s l hx
      rcases Ty.subtypes_inst hx with ⟨l', hl', rfl⟩ | ⟨v, hv, hx⟩
      · rw [length_map]
        exact hfits.wf ts hts c hc a ha s l' hl'
      · obtain ⟨j, t, _, ht, he⟩ := harg v hv
        rw [he] at hx
        exact (hm.arg (mem_of_getElem? ht)).wf s l hx
    · intro s hs
      rcases Ty.symbols_inst.mp hs with hs | ⟨v, hv, hs⟩
      · exact hfits.known ts hts c hc a ha s hs
      · obtain ⟨j, t, _, ht, he⟩ := harg v hv
        rw [he] at hs
        exact (hm.arg (mem_of_getElem? ht)).known s hs
    · intro s l hx k u hu hneg
      rcases Ty.subtypes_inst hx with ⟨l', hl', rfl⟩ | ⟨v, hv, hx⟩
      · obtain ⟨u', hu', rfl⟩ : ∃ u', l'[k]? = some u' ∧ u'.inst (ts.matchArgs tl) = u := by
          rw [List.getElem?_map] at hu
          exact Option.map_eq_some_iff.mp hu
        -- the parameters of `ts` that occur in `u'` flow through `s`
        have hpar : ∀ v ∈ u'.freevars, ∃ t, Ty.instVar (ts.matchArgs tl) v = t ∧
            ¬ t.Has S X := by
          intro v hv
          have hva : v ∈ a.freevars := Ty.freevars_of_subtype hl' v
            (Ty.mem_freevars_tyapp.mpr ⟨u', mem_of_getElem? hu', hv⟩)
          obtain ⟨j, t, hj, ht, he⟩ := harg v hva
          refine ⟨t, he, hm.unmarked ts tl (Ty.self_mem_subtypes _) j t ht ?_⟩
          exact .flow hc ha hl' hu' hv hj hneg
        rintro (⟨x, hx, hS⟩ | ⟨w, hw, hX⟩)
        · rcases Ty.symbols_inst.mp hx with hx | ⟨v, hv, hx⟩
          · exact hfits.inside ts hts c hc a ha s l' hl' k u' hu' hneg x hx hS
          · obtain ⟨t, he, hno⟩ := hpar v hv
            rw [he] at hx
            exact hno (.inl ⟨x, hx, hS⟩)
        · obtain ⟨v, hv, hw⟩ := Ty.freevars_inst.mp hw
          obtain ⟨t, he, hno⟩ := hpar v hv
          rw [he] at hw
          exact hno (.inr ⟨w, hw, hX⟩)
      · obtain ⟨j, t, _, ht, he⟩ := harg v hv
        rw [he] at hx
        exact (hm.arg (mem_of_getElem? ht)).unmarked s l hx k u hu hneg
  | @arg s l₁ l₂ t t' hu ih =>
    intro hm
    have hmem : t ∈ l₁ ++ t :: l₂ := by simp
    have ht := hm.arg hmem
    have ht' := ih ht
    -- an argument of the new type is an old one or `t'`
    have hargs : ∀ u ∈ l₁ ++ t' :: l₂, Marked kn K S X u := by
      intro u hu
      rw [mem_append, mem_cons] at hu
      rcases hu with hu | rfl | hu
      · exact hm.arg (by simp [hu])
      · exact ht'
      · exact hm.arg (by simp [hu])
    refine ⟨?_, ?_, ?_⟩
    · intro s' l' hx
      rcases Ty.mem_subtypes_tyapp.mp hx with heq | ⟨u, hu, hx⟩
      · cases heq
        have := hm.wf.length
        simpa using this
      · exact (hargs u hu).wf s' l' hx
    · intro x hx
      rcases Ty.mem_symbols_tyapp.mp hx with rfl | ⟨u, hu, hx⟩
      · exact hm.known x (Ty.mem_symbols_tyapp.mpr (.inl rfl))
      · exact (hargs u hu).known x hx
    · intro s' l' hx k u hk hneg
      rcases Ty.mem_subtypes_tyapp.mp hx with heq | ⟨w, hw, hx⟩
      · cases heq
        have hold := hm.unmarked s _ (Ty.self_mem_subtypes _) k
        by_cases hkt : k = l₁.length
        · subst hkt
          have hut : u = t' := by simpa using hk.symm
          subst hut
          intro hhas
          exact hold t (by simp) hneg (hu.has hfits ht.wf ht.known hhas)
        · refine hold u ?_ hneg
          rw [← hk]
          rcases Nat.lt_or_gt_of_ne hkt with hlt | hgt
          · rw [List.getElem?_append_left hlt, List.getElem?_append_left hlt]
          · rw [List.getElem?_append_right (by omega), List.getElem?_append_right (by omega)]
            obtain ⟨n, hn⟩ : ∃ n, k - l₁.length = n + 1 := ⟨k - l₁.length - 1, by omega⟩
            rw [hn, List.getElem?_cons_succ, List.getElem?_cons_succ]
      · exact (hargs w hw).unmarked s' l' hx k u hk hneg

theorem Marked.unfolds (hfits : Fits kn K S) (h : Relation.ReflTransGen (Unfold kn) t t')
    (hm : Marked kn K S X t) : Marked kn K S X t' := by
  induction h with
  | refl => exact hm
  | tail _ hstep ih => exact ih.unfold hfits hstep

end Unfold

/-! ## What the polarities say -/

section Polarity

variable {kn : KnownMap} {pos : TySymbol → List Bool}

theorem mem_getTyList : ∀ {pl : List Bool} {l : List Ty},
    v ∈ getTyList pos pl l ↔ ∃ (j : ℕ) (p : Bool) (t : Ty), pl[j]? = some p ∧ l[j]? = some t ∧
      v ∈ (if p then getTy pos t else t.freevars) := by
  intro pl
  induction pl with
  | nil => simp [getTyList]
  | cons p pl ih =>
    intro l
    cases l with
    | nil => simp [getTyList]
    | cons t l =>
      rw [getTyList, mem_append, ih]
      constructor
      · rintro (h | ⟨j, p', t', hp, ht, h⟩)
        · exact ⟨0, p, t, rfl, rfl, h⟩
        · exact ⟨j + 1, p', t', by simpa using hp, by simpa using ht, h⟩
      · rintro ⟨j, p', t', hp, ht, h⟩
        cases j with
        | zero =>
          simp only [getElem?_cons_zero, Option.some.injEq] at hp ht
          subst hp ht
          exact .inl h
        | succ j => exact .inr ⟨j, p', t', by simpa using hp, by simpa using ht, h⟩

theorem checkTyList_eq_none {tss : List TySymbol} : ∀ {pl : List Bool} {l : List Ty},
    checkTyList pos tss pl l = none ↔ ∀ (j : ℕ) (p : Bool) (t : Ty), pl[j]? = some p →
      l[j]? = some t → (if p then checkTy pos tss t = none else ∀ s ∈ t.symbols, s ∉ tss) := by
  intro pl
  induction pl with
  | nil => simp [checkTyList]
  | cons p pl ih =>
    intro l
    cases l with
    | nil => simp [checkTyList]
    | cons t l =>
      rw [checkTyList, Option.or_eq_none_iff, ih]
      have hhead : (if p = true then checkTy pos tss t
          else if t.symbols.any (· ∈ tss) then some t else none) = none ↔
          (if p = true then checkTy pos tss t = none else ∀ s ∈ t.symbols, s ∉ tss) := by
        cases p <;> simp
      rw [hhead]
      constructor
      · rintro ⟨h₀, h⟩ j p' t' hp ht
        cases j with
        | zero =>
          simp only [getElem?_cons_zero, Option.some.injEq] at hp ht
          subst hp ht
          exact h₀
        | succ j => exact h j p' t' (by simpa using hp) (by simpa using ht)
      · intro h
        exact ⟨h 0 p t rfl rfl, fun j p' t' hp ht =>
          h (j + 1) p' t' (by simpa using hp) (by simpa using ht)⟩

variable (hlen : ∀ s, (pos s).length = s.tsArgs.length)
include hlen

theorem exists_pos (hwf : (Ty.tyapp s l).Wf) (ht : t ∈ l) :
    ∃ (j : ℕ) (p : Bool), (pos s)[j]? = some p ∧ l[j]? = some t := by
  obtain ⟨j, hj⟩ := mem_iff_getElem?.mp ht
  have hlt : j < (pos s).length := by
    rw [hlen, ← hwf.length]
    exact (List.getElem?_eq_some_iff.mp hj).1
  exact ⟨j, (pos s)[j], List.getElem?_eq_getElem hlt, hj⟩

theorem mem_getTy {a : Ty} (hwf : a.Wf) {u : Ty} (hs : .tyapp s l ∈ a.subtypes)
    (hu : l[k]? = some u) (hv : v ∈ u.freevars) (hpos : (pos s)[k]? = some false) :
    v ∈ getTy pos a := by
  induction a with
  | tyvar w => simp [Ty.subtypes] at hs
  | tyapp s' l' ih =>
    rw [getTy, mem_getTyList]
    rcases Ty.mem_subtypes_tyapp.mp hs with heq | ⟨t, ht, hs⟩
    · cases heq
      exact ⟨k, false, u, hpos, hu, by simpa using hv⟩
    · obtain ⟨j, p, hp, hj⟩ := exists_pos hlen hwf ht
      refine ⟨j, p, t, hp, hj, ?_⟩
      cases p with
      | true => simpa using ih t ht (hwf.arg ht) hs
      | false =>
        have := Ty.freevars_of_subtype hs v
          (Ty.mem_freevars_tyapp.mpr ⟨u, mem_of_getElem? hu, hv⟩)
        simpa using this

theorem not_mem_of_checkTy {tss : List TySymbol} {a : Ty} (hwf : a.Wf)
    (hcheck : checkTy pos tss a = none) {u : Ty} (hs : .tyapp s l ∈ a.subtypes)
    (hu : l[k]? = some u) (hpos : (pos s)[k]? = some false) : ∀ x ∈ u.symbols, x ∉ tss := by
  induction a with
  | tyvar w => simp [Ty.subtypes] at hs
  | tyapp s' l' ih =>
    rw [checkTy, checkTyList_eq_none] at hcheck
    rcases Ty.mem_subtypes_tyapp.mp hs with heq | ⟨t, ht, hs⟩
    · cases heq
      simpa using hcheck k false u hpos hu
    · obtain ⟨j, p, hp, hj⟩ := exists_pos hlen hwf ht
      have hc := hcheck j p t hp hj
      cases p with
      | true => exact ih t ht (hwf.arg ht) (by simpa using hc) hs
      | false =>
        intro x hx
        simp only [Bool.false_eq_true, if_false] at hc
        refine hc x (Ty.symbols_of_subtype hs x ?_)
        exact Ty.mem_symbols_tyapp.mpr (.inr ⟨u, mem_of_getElem? hu, hx⟩)

end Polarity

section Extract

variable {kn : KnownMap}

theorem length_tsExtractPosAux (fuel : ℕ) (sts : List TySymbol) (ts : TySymbol) :
    (tsExtractPosAux kn fuel sts ts).length = ts.tsArgs.length := by
  cases fuel with
  | zero => simp [tsExtractPosAux]
  | succ fuel =>
    rw [tsExtractPosAux]
    split
    · next h => rw [h]; rfl
    · split
      · simp
      · split <;> simp

theorem getElem?_map_false {vl : List TvSymbol} {j : ℕ} (h : j < vl.length) :
    (vl.map (fun _ => false))[j]? = some false := by
  simp [h]

/-- A parameter that flows into a refused argument along a path without
repetition is refused. -/
theorem tsExtractPosAux_of_simpleNeg
    (hwf : ∀ ts, ∀ c ∈ findConstructors kn ts, ∀ a ∈ c.1.lsArgs, a.Wf)
    {sts : List TySymbol} {ts : TySymbol} {j : ℕ} (h : SimpleNeg kn sts ts j) :
    ∀ fuel, (tsExtractPosAux kn fuel sts ts)[j]? = some false := by
  induction h with
  | func =>
    intro fuel
    cases fuel with
    | zero => rfl
    | succ fuel => simp [tsExtractPosAux]
  | abstract hsts hne hnil hj =>
    intro fuel
    cases fuel with
    | zero => exact getElem?_map_false hj
    | succ fuel =>
      rw [tsExtractPosAux, if_neg hne, if_neg hsts, hnil]
      exact getElem?_map_false hj
  | @flow sts ts c a s l v j k u hsts hne hc ha hs hu hv hj _ ih =>
    intro fuel
    cases fuel with
    | zero => exact getElem?_map_false (List.getElem?_eq_some_iff.mp hj).1
    | succ fuel =>
      have hneg : v ∈ (findConstructors kn ts).flatMap (fun c =>
        c.1.lsArgs.flatMap (getTy (tsExtractPosAux kn fuel (ts :: sts)))) := by
        refine mem_flatMap.mpr ⟨c, hc, mem_flatMap.mpr ⟨a, ha, ?_⟩⟩
        exact mem_getTy (length_tsExtractPosAux fuel (ts :: sts)) (hwf ts c hc a ha) hs hu hv
          (ih fuel)
      rw [tsExtractPosAux, if_neg hne, if_neg hsts]
      split
      · next hnil => rw [hnil] at hc; cases hc
      · rw [List.getElem?_map, hj, Option.map_some, decide_eq_false (not_not.mpr hneg)]

end Extract

end Why3
