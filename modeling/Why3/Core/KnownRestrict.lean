import Why3.Core.KnownRun
import Why3.Core.PatternDispatch
import Why3.Lib.Lookup

/-!
# Declarations over a part of the known map

The checks of `known_add_decl` look only at the symbols that the declaration uses, and
at those that the declarations of these symbols use.  So a declaration that is accepted
over a known map is accepted over any part of it that is closed under the use of symbols
and has what the declaration uses.
-/

namespace Why3

open Checks List

variable {tl : List Ty} {k : ℕ} {tss : List TySymbol} {ts : TySymbol} {d : Decl}

/-! ## Exhaustive matches -/

variable {ty : Ty}

namespace Pattern

section Congr

variable {P : TySymbol → Prop}

/-- The head of the type is one of the symbols `P`. -/
def HeadIn (P : TySymbol → Prop) : Ty → Prop
  | .tyapp ts _ => P ts
  | .tyvar _ => True

/-- The types of the pattern have heads in `P`. -/
def TypesIn (P : TySymbol → Prop) (p : Pattern) : Prop := ∀ ty ∈ p.types, HeadIn P ty

theorem patTy_mem_types (p : Pattern) : p.patTy ∈ p.types := by
  induction p with
  | pwild ty | pvar v | papp s pl ty _ | pas p v _ => simp [types, patTy]
  | por p q hp _ => simp [types, patTy, hp]

theorem TypesIn.papp {s : LSymbol} {pl : List Pattern} (h : TypesIn P (.papp s pl ty)) :
    ∀ p ∈ pl, TypesIn P p := by
  intro p hp ty' hty'
  apply h
  rw [types, typesList_eq]
  exact mem_cons_of_mem _ (mem_flatMap.2 ⟨p, hp, hty'⟩)

theorem TypesIn.wild {q : Pattern} (h : TypesIn P q) : TypesIn P (.pwild q.patTy) := by
  intro ty hty
  rw [types, mem_singleton] at hty
  exact hty ▸ h _ (patTy_mem_types q)

theorem TypesIn.headArgs {p : Pattern} (h : TypesIn P p) :
    ∀ c ∈ headArgs p, ∀ q ∈ c.2, TypesIn P q := by
  induction p with
  | pwild ty => simp [Pattern.headArgs]
  | pvar v => simp [Pattern.headArgs]
  | papp s pl ty _ =>
    intro c hc
    rw [Pattern.headArgs, mem_singleton] at hc
    subst hc
    exact h.papp
  | por p q hp hq =>
    intro c hc
    rw [Pattern.headArgs, mem_append] at hc
    rcases hc with hc | hc
    · exact hp (fun ty hty => h ty (by simp [types, hty])) c hc
    · exact hq (fun ty hty => h ty (by simp [types, hty])) c hc
  | pas p v ih =>
    exact ih fun ty hty => h ty (by simp [types, hty])

variable {g₁ g₂ : TySymbol → Option (List LSymbol)} (hg : ∀ ts, P ts → g₁ ts = g₂ ts)
include hg

theorem constructorSet_congr (hty : HeadIn P ty) :
    constructorSet g₁ ty = constructorSet g₂ ty := by
  cases ty with
  | tyvar v => rfl
  | tyapp ts tl => rw [constructorSet, constructorSet, hg ts hty]

theorem isConstr_congr (hty : HeadIn P ty) : isConstr g₁ ty = isConstr g₂ ty := by
  funext fs
  rw [isConstr, isConstr, constructorSet_congr hg hty]

theorem populate_congr (hty : HeadIn P ty) (p : Pattern) :
    populate g₁ ty p = populate g₂ ty p := by
  induction p with
  | pwild ty => rfl
  | pvar v => rfl
  | papp s pl ty' _ =>
    funext acc
    rw [populate, populate, isConstr_congr hg hty]
  | por p q hp hq =>
    funext acc
    rw [populate, populate, hp, hq]
  | pas p v ih =>
    funext acc
    rw [populate, populate, ih]

theorem populateRows_congr {α : Type} (hty : HeadIn P ty) (rl : List (Row α)) :
    populateRows g₁ ty rl = populateRows g₂ ty rl := by
  induction rl with
  | nil => rfl
  | cons r rl ih =>
    rcases r with ⟨_ | ⟨p, pl⟩, a⟩
    · rfl
    · funext acc
      rw [populateRows, populateRows, populate_congr hg hty, ih]

theorem noWilds_congr (hty : HeadIn P ty) (types : HeadMap) :
    noWilds g₁ types ty = noWilds g₂ types ty := by
  unfold noWilds
  rw [constructorSet_congr hg hty]

end Congr

/-! The matrix only ever has types that it had at the start. -/

section Rows

variable {P : TySymbol → Prop} {α : Type} {g : TySymbol → Option (List LSymbol)}

theorem populate_mem {p : Pattern} {acc acc' : HeadMap}
    (h : populate g ty p acc = .ok acc') : ∀ e ∈ acc', e ∈ acc ∨ e ∈ headArgs p := by
  induction p generalizing acc acc' with
  | pwild ty' | pvar v => cases h; exact fun e he => .inl he
  | papp s pl ty' _ =>
    rw [populate] at h
    split_ifs at h
    · cases h
      exact fun e he => .inl he
    · cases h
      intro e he
      rw [headArgs, mem_singleton]
      exact (mem_cons.1 he).symm
  | por p q hp hq =>
    rw [populate] at h
    obtain ⟨acc₁, h₁, h₂⟩ := bind_eq_ok.1 h
    intro e he
    rw [headArgs, mem_append]
    rcases hq h₂ e he with he | he
    · rcases hp h₁ e he with he | he
      · exact .inl he
      · exact .inr (.inl he)
    · exact .inr (.inr he)
  | pas p v ih => exact ih h

theorem populateRows_mem {rl : List (Row α)} {acc acc' : HeadMap}
    (h : populateRows g ty rl acc = .ok acc') :
    (∀ r ∈ rl, r.1 ≠ []) ∧ ∀ e ∈ acc', e ∈ acc ∨ ∃ r ∈ rl, e ∈ rowHeadArgs r := by
  induction rl generalizing acc with
  | nil => cases h; exact ⟨by simp, fun e he => .inl he⟩
  | cons r rl ih =>
    rcases r with ⟨_ | ⟨p, pl⟩, a⟩
    · cases h
    · rw [populateRows] at h
      obtain ⟨acc₁, h₁, h₂⟩ := bind_eq_ok.1 h
      obtain ⟨hne, hmem⟩ := ih h₂
      refine ⟨forall_mem_cons.2 ⟨cons_ne_nil _ _, hne⟩, fun e he => ?_⟩
      rw [exists_mem_cons_iff]
      rcases hmem e he with he | he
      · rcases populate_mem h₁ e he with he | he
        · exact .inl he
        · exact .inr (.inl he)
      · exact .inr (.inr he)

/-- The types of all rows have heads in `P`. -/
def RowsIn (P : TySymbol → Prop) (rl : List (Row α)) : Prop :=
  ∀ r ∈ rl, ∀ p ∈ r.1, TypesIn P p

variable {mkLet : VSymbol → Term → α → α} {t : Term} {ty : Ty} {rl : List (Row α)} {types : HeadMap}

theorem RowsIn.heads (h : RowsIn P rl) (htypes : populateRows g ty rl [] = .ok types) :
    ∀ e ∈ types, ∀ q ∈ e.2, TypesIn P q := by
  intro e he
  rcases (populateRows_mem htypes).2 e he with he | ⟨⟨pl, a⟩, hr, he⟩
  · cases he
  · cases pl with
    | nil => cases he
    | cons p pl => exact (h _ hr p (by simp)).headArgs e he

variable (mkLet t) in
theorem RowsIn.dispatchRows (h : RowsIn P rl) (htypes : populateRows g ty rl [] = .ok types) :
    (∀ cs, RowsIn P ((dispatchRows mkLet types t rl).1 cs)) ∧
      RowsIn P (dispatchRows mkLet types t rl).2 := by
  have hne := (populateRows_mem htypes).1
  have hheads := h.heads htypes
  show (∀ cs, ∀ r ∈ (Pattern.dispatchRows mkLet types t rl).1 cs, ∀ q ∈ r.1, TypesIn P q) ∧
    ∀ r ∈ (Pattern.dispatchRows mkLet types t rl).2, ∀ q ∈ r.1, TypesIn P q
  refine dispatchRows_forall (Q := fun p pl _ => ∀ q ∈ p :: pl, TypesIn P q) ?_ ?_ ?_ ?_ ?_ ?_ ?_
  · intro p q pl a hQ
    rw [forall_mem_cons] at hQ
    exact ⟨forall_mem_cons.2 ⟨fun ty hty => hQ.1 ty (by simp [Pattern.types, hty]), hQ.2⟩,
      forall_mem_cons.2 ⟨fun ty hty => hQ.1 ty (by simp [Pattern.types, hty]), hQ.2⟩⟩
  · intro p x pl a hQ
    rw [forall_mem_cons] at hQ
    exact forall_mem_cons.2 ⟨fun ty hty => hQ.1 ty (by simp [Pattern.types, hty]), hQ.2⟩
  · intro x pl a hQ
    rw [forall_mem_cons] at hQ
    exact forall_mem_cons.2 ⟨hQ.1.wild, hQ.2⟩
  · intro fs pl' ty pl a hQ
    rw [forall_mem_cons] at hQ
    intro q hq
    rw [mem_append, mem_reverse] at hq
    rcases hq with hq | hq
    · exact hQ.1.papp q hq
    · exact hQ.2 q hq
  · intro ty pl a cs ql hQ hlookup q hq
    rw [forall_mem_cons] at hQ
    rw [mem_append, mem_reverse, mem_map] at hq
    rcases hq with ⟨q', hq', rfl⟩ | hq
    · exact (hheads (cs, ql) (Lookup.mem_of_lookup hlookup) q' hq').wild
    · exact hQ.2 q hq
  · intro ty pl a hQ
    exact (forall_mem_cons.1 hQ).2
  · intro r hr
    obtain ⟨p, pl, hp⟩ := exists_cons_of_ne_nil (hne r hr)
    exact ⟨p, pl, hp, fun q hq => h r hr q (hp ▸ hq)⟩

end Rows

section Compile

variable {P : TySymbol → Prop} {α : Type} {g₁ g₂ : TySymbol → Option (List LSymbol)}
variable {mkCase : Term → List (Pattern × α) → α} {mkLet : VSymbol → Term → α → α}

/-- The types of the terms have heads in `P`. -/
def TermsIn (P : TySymbol → Prop) (tl : List Term) : Prop := ∀ t ∈ tl, ∀ ty ∈ t.types, HeadIn P ty

theorem TermsIn.append {tl₁ tl₂ : List Term} (h₁ : TermsIn P tl₁) (h₂ : TermsIn P tl₂) :
    TermsIn P (tl₁ ++ tl₂) := by
  intro t ht
  rcases mem_append.1 ht with ht | ht
  · exact h₁ t ht
  · exact h₂ t ht

theorem TermsIn.reverse {tl : List Term} (h : TermsIn P tl) : TermsIn P tl.reverse :=
  fun t ht => h t (mem_reverse.1 ht)

theorem termsIn_freshVars {ql : List Pattern} (h : ∀ q ∈ ql, TypesIn P q) (k : ℕ) :
    TermsIn P ((freshVars k ql).map (.tvar [])) := by
  induction ql generalizing k with
  | nil => exact fun t ht => by cases ht
  | cons q ql ih =>
    rw [forall_mem_cons] at h
    intro t ht
    rw [freshVars, map_cons] at ht
    rcases mem_cons.1 ht with rfl | ht
    · intro ty hty
      rw [Term.types, mem_singleton] at hty
      exact hty ▸ h.1 _ (patTy_mem_types q)
    · exact ih h.2 (k + 1) t ht

theorem addBranches_congr {comp₁ comp₂ : LSymbol → List Term → ℕ → Except PatternExn (α × ℕ)}
    {csl : HeadMap} (hcsl : ∀ e ∈ csl, ∀ q ∈ e.2, TypesIn P q)
    (hcomp : ∀ cs al k, TermsIn P al → comp₁ cs al k = comp₂ cs al k) :
    addBranches comp₁ ty csl = addBranches comp₂ ty csl := by
  induction csl with
  | nil => rfl
  | cons e csl ih =>
    obtain ⟨cs, ql⟩ := e
    rw [forall_mem_cons] at hcsl
    funext bl k
    rw [addBranches, addBranches, ih hcsl.2, hcomp cs _ _ (termsIn_freshVars hcsl.1 k)]

theorem termsIn_appOf {t : Term} {c : LSymbol × List Term} (h : ∀ ty ∈ t.types, HeadIn P ty)
    (hc : appOf t = some c) : TermsIn P c.2 := by
  cases t <;> simp only [appOf, Option.some.injEq, reduceCtorEq] at hc
  subst hc
  intro u hu ty hty
  apply h
  rw [Term.types, Term.typesList_eq]
  exact mem_append_right _ (mem_flatMap.2 ⟨u, hu, hty⟩)

/-- Compilation looks only at the constructors of the types at hand. -/
theorem compileAux_congr (hg : ∀ ts, P ts → g₁ ts = g₂ ts) (fuel k : ℕ) (tl : List Term)
    (rl : List (Row α)) (htl : TermsIn P tl) (hrl : RowsIn P rl) :
    compileAux g₁ mkCase mkLet fuel k tl rl = compileAux g₂ mkCase mkLet fuel k tl rl := by
  induction fuel generalizing k tl rl with
  | zero => rfl
  | succ fuel ih =>
    cases rl with
    | nil => rfl
    | cons r rl =>
      cases tl with
      | nil => rfl
      | cons t tl =>
        rw [compileAux, compileAux]
        cases hty : t.tTy with
        | none => rfl
        | some ty =>
          have htl' : TermsIn P tl := fun u hu => htl u (mem_cons_of_mem _ hu)
          have hhead : HeadIn P ty := htl t mem_cons_self ty (Term.mem_types_of_tTy hty)
          simp only
          rw [constructorSet_congr hg hhead, populateRows_congr hg hhead,
            isConstr_congr hg hhead]
          cases htypes : populateRows g₂ ty (r :: rl) [] with
          | error e => rfl
          | ok types =>
            simp only
            rw [noWilds_congr hg hhead]
            have hrows := hrl.dispatchRows mkLet t htypes
            have hwilds : ∀ k, compileAux g₁ mkCase mkLet fuel k tl
                  (dispatchRows mkLet types t (r :: rl)).2 =
                compileAux g₂ mkCase mkLet fuel k tl
                  (dispatchRows mkLet types t (r :: rl)).2 :=
              fun k => ih k tl _ htl' hrows.2
            have hcases : ∀ cs al k, TermsIn P al →
                compileAux g₁ mkCase mkLet fuel k (al.reverse ++ tl)
                  ((dispatchRows mkLet types t (r :: rl)).1 cs) =
                compileAux g₂ mkCase mkLet fuel k (al.reverse ++ tl)
                  ((dispatchRows mkLet types t (r :: rl)).1 cs) :=
              fun cs al k hal => ih k _ _ (hal.reverse.append htl') (hrows.1 cs)
            simp only [hwilds]
            by_cases hnil : types = []
            · simp only [if_pos hnil]
            · simp only [if_neg hnil]
              cases happ : (appOf t).filter fun c => isConstr g₂ ty c.1 with
              | none =>
                simp only
                rw [addBranches_congr (hrl.heads htypes)
                  (fun cs al k hal => by rw [hcases cs al k hal])]
              | some c =>
                have hc := termsIn_appOf (htl t mem_cons_self)
                  (Option.filter_eq_some_iff.1 happ).1
                simp only
                rw [hcases c.1 c.2 k hc]

end Compile

end Pattern

/-! ## A closed part of a known map -/

/-- `kn₁` is a part of `kn₂` that has all the symbols its declarations use. -/
structure KnownMap.Part (kn₁ kn₂ : KnownMap) : Prop where
  sub : ∀ id d, kn₁.lookup id = some d → kn₂.lookup id = some d
  closed : ∀ id d, kn₁.lookup id = some d → ∀ u ∈ getUsedSymsDecl d, (kn₁.lookup u).isSome

/-- The type symbol is known. -/
def KnownMap.Knows (kn : KnownMap) (ts : TySymbol) : Prop := (kn.lookup ts.tsName).isSome

variable {kn₁ : KnownMap} {kn₂ : KnownMap}

theorem checkMatchList_congr {tl : List Term}
    (ih : ∀ t ∈ tl, checkMatch k kn₁ t = checkMatch k kn₂ t) :
    checkMatchList k kn₁ tl = checkMatchList k kn₂ tl := by
  induction tl with
  | nil => rfl
  | cons t tl ih' =>
    rw [forall_mem_cons] at ih
    rw [checkMatchList, checkMatchList, ih.1, ih' ih.2]

theorem checkMatchBranches_congr {bl : List (Pattern × Term)}
    (ih : ∀ b ∈ bl, checkMatch k kn₁ b.2 = checkMatch k kn₂ b.2) :
    checkMatchBranches k kn₁ bl = checkMatchBranches k kn₂ bl := by
  induction bl with
  | nil => rfl
  | cons b bl ih' =>
    rw [forall_mem_cons] at ih
    rw [checkMatchBranches, checkMatchBranches, ih.1, ih' ih.2]

theorem checkMatchTriggers_congr {trl : List (List Term)}
    (ih : ∀ tr ∈ trl, ∀ t ∈ tr, checkMatch k kn₁ t = checkMatch k kn₂ t) :
    checkMatchTriggers k kn₁ trl = checkMatchTriggers k kn₂ trl := by
  induction trl with
  | nil => rfl
  | cons tr trl ih' =>
    rw [forall_mem_cons] at ih
    rw [checkMatchTriggers, checkMatchTriggers, checkMatchList_congr ih.1, ih' ih.2]

theorem headIn_of_symbols {P : TySymbol → Prop} (h : ∀ s ∈ ty.symbols, P s) :
    Pattern.HeadIn P ty := by
  cases ty with
  | tyvar v => trivial
  | tyapp ts tl => exact h ts (by simp [Ty.symbols])

theorem checkCompile_congr {P : TySymbol → Prop} {g₁ g₂ : TySymbol → Option (List LSymbol)}
    (hg : ∀ ts, P ts → g₁ ts = g₂ ts) {t : Term} {ppl : List (List Pattern)}
    (ht : ∀ ty ∈ t.types, Pattern.HeadIn P ty) (hppl : ∀ pl ∈ ppl, ∀ p ∈ pl, Pattern.TypesIn P p) :
    Pattern.checkCompile g₁ k [t] ppl = Pattern.checkCompile g₂ k [t] ppl := by
  cases ppl with
  | nil => rfl
  | cons pl ppl =>
    rw [Pattern.checkCompile, Pattern.checkCompile, Pattern.compile, Pattern.compile,
      Pattern.compileAux_congr hg]
    · intro u hu
      obtain rfl : u = t := by simpa [Pattern.checkTerms] using hu
      exact ht
    · intro r hr
      obtain ⟨pl', hpl', rfl⟩ := mem_map.1 hr
      exact hppl pl' hpl'

theorem findSome?_congr_mem {α β : Type} {f g : α → Option β} {l : List α}
    (h : ∀ x ∈ l, f x = g x) : l.findSome? f = l.findSome? g := by
  induction l with
  | nil => rfl
  | cons x l ih =>
    rw [forall_mem_cons] at h
    rw [findSome?_cons, findSome?_cons, h.1, ih h.2]

/-! The walks through a type ask about its symbols only. -/

section Walks

variable {pos₁ pos₂ : TySymbol → List Bool}

theorem getTyList_congr (ih : ∀ ty ∈ tl, getTy pos₁ ty = getTy pos₂ ty) (bl : List Bool) :
    getTyList pos₁ bl tl = getTyList pos₂ bl tl := by
  induction tl generalizing bl with
  | nil => cases bl <;> rfl
  | cons ty tl ih' =>
    rw [forall_mem_cons] at ih
    cases bl with
    | nil => rfl
    | cons b bl => rw [getTyList, getTyList, ih.1, ih' ih.2]

theorem getTy_congr (h : ∀ s ∈ ty.symbols, pos₁ s = pos₂ s) :
    getTy pos₁ ty = getTy pos₂ ty := by
  induction ty with
  | tyvar v => rfl
  | tyapp ts tl ih =>
    rw [Ty.symbols, Ty.symbolsList_eq, forall_mem_cons] at h
    rw [getTy, getTy, h.1]
    refine getTyList_congr (fun ty hty => ih ty hty fun s hs => h.2 s ?_) _
    exact mem_flatMap.2 ⟨ty, hty, hs⟩

theorem checkTyList_congr (ih : ∀ ty ∈ tl, checkTy pos₁ tss ty = checkTy pos₂ tss ty)
    (bl : List Bool) : checkTyList pos₁ tss bl tl = checkTyList pos₂ tss bl tl := by
  induction tl generalizing bl with
  | nil => cases bl <;> rfl
  | cons ty tl ih' =>
    rw [forall_mem_cons] at ih
    cases bl with
    | nil => rfl
    | cons b bl => rw [checkTyList, checkTyList, ih.1, ih' ih.2]

theorem checkTy_congr (h : ∀ s ∈ ty.symbols, pos₁ s = pos₂ s) :
    checkTy pos₁ tss ty = checkTy pos₂ tss ty := by
  induction ty with
  | tyvar v => rfl
  | tyapp ts tl ih =>
    rw [Ty.symbols, Ty.symbolsList_eq, forall_mem_cons] at h
    rw [checkTy, checkTy, h.1]
    refine checkTyList_congr (fun ty hty => ih ty hty fun s hs => h.2 s ?_) _
    exact mem_flatMap.2 ⟨ty, hty, hs⟩

variable {founded₁ founded₂ : List TvSymbol → TySymbol → Bool} {tvs : List TvSymbol}

theorem emptyArgs_congr (ih : ∀ ty ∈ tl, checkType founded₁ tvs ty = checkType founded₂ tvs ty)
    (vl : List TvSymbol) : emptyArgs founded₁ tvs vl tl = emptyArgs founded₂ tvs vl tl := by
  induction tl generalizing vl with
  | nil => cases vl <;> rfl
  | cons ty tl ih' =>
    rw [forall_mem_cons] at ih
    cases vl with
    | nil => rfl
    | cons v vl => rw [emptyArgs, emptyArgs, ih.1, ih' ih.2]

theorem checkType_congr_symbols (h : ∀ s ∈ ty.symbols, ∀ vl, founded₁ vl s = founded₂ vl s) :
    checkType founded₁ tvs ty = checkType founded₂ tvs ty := by
  induction ty with
  | tyvar v => rfl
  | tyapp ts tl ih =>
    rw [Ty.symbols, Ty.symbolsList_eq, forall_mem_cons] at h
    rw [checkType, checkType, h.1]
    congr 1
    refine emptyArgs_congr (fun ty hty => ih ty hty fun s hs => h.2 s ?_) _
    exact mem_flatMap.2 ⟨ty, hty, hs⟩

end Walks

namespace KnownMap.Part

variable {kn₁ kn₂ : KnownMap} (h : kn₁.Part kn₂)
include h

theorem findConstructors_eq (hts : kn₁.Knows ts) :
    findConstructors kn₁ ts = findConstructors kn₂ ts := by
  obtain ⟨d, hd⟩ := Option.isSome_iff_exists.1 hts
  rw [findConstructors, findConstructors, hd, h.sub _ _ hd]

theorem knows_args {c : Constructor} (hc : c ∈ findConstructors kn₁ ts) :
    ∀ a ∈ c.1.lsArgs, ∀ s ∈ a.symbols, kn₁.Knows s := by
  intro a ha s hs
  obtain ⟨d, tdl, cl, hd, hnode, hmem, hcl, -⟩ := mem_findConstructors hc
  apply h.closed _ _ hd
  rw [getUsedSymsDecl, hnode]
  refine mem_flatMap.2 ⟨_, hmem, mem_flatMap.2 ⟨c, hcl, ?_⟩⟩
  exact mem_flatMap.2 ⟨a, ha, mem_map.2 ⟨s, hs, rfl⟩⟩

/-- The check for exhaustive matches. -/
theorem checkMatch_eq (k : ℕ) {t : Term} (ht : ∀ ty ∈ t.types, ∀ s ∈ ty.symbols, kn₁.Knows s) :
    checkMatch k kn₁ t = checkMatch k kn₂ t := by
  induction t with
  | tvar a v => rfl
  | tconst a c ty => rfl
  | tapp a s tl ty ih =>
    rw [checkMatch, checkMatch]
    apply checkMatchList_congr
    intro t htl
    apply ih t htl
    intro ty' hty'
    apply ht
    rw [Term.types, Term.typesList_eq]
    exact mem_append_right _ (mem_flatMap.2 ⟨t, htl, hty'⟩)
  | tif a f t1 t2 hf h1 h2 =>
    simp only [Term.types, mem_append] at ht
    rw [checkMatch, checkMatch, hf fun ty hty => ht ty (by tauto),
      h1 fun ty hty => ht ty (by tauto), h2 fun ty hty => ht ty (by tauto)]
  | tlet a t v e iht ihe =>
    simp only [Term.types, mem_append] at ht
    rw [checkMatch, checkMatch, iht fun ty hty => ht ty (by tauto),
      ihe fun ty hty => ht ty (by tauto)]
  | tcase a t bl iht ihb =>
    rw [Term.types, Term.typesBranches_eq] at ht
    have hb : ∀ b ∈ bl, ∀ ty ∈ b.1.types ++ b.2.types, ∀ s ∈ ty.symbols, kn₁.Knows s :=
      fun b hb ty hty => ht ty (mem_append_right _ (mem_flatMap.2 ⟨b, hb, hty⟩))
    have ht' : ∀ ty ∈ t.types, ∀ s ∈ ty.symbols, kn₁.Knows s :=
      fun ty hty => ht ty (mem_append_left _ (mem_append_right _ hty))
    have hcheck : Pattern.checkCompile (fun ts => some ((findConstructors kn₁ ts).map Prod.fst)) k
          [t] (bl.map fun b => [b.1]) =
        Pattern.checkCompile (fun ts => some ((findConstructors kn₂ ts).map Prod.fst)) k
          [t] (bl.map fun b => [b.1]) := by
      refine checkCompile_congr (P := kn₁.Knows) ?_ ?_ ?_
      · intro ts hts
        rw [h.findConstructors_eq hts]
      · exact fun ty hty => headIn_of_symbols (ht' ty hty)
      · intro pl hpl p hp ty hty
        obtain ⟨b, hbl, rfl⟩ := mem_map.1 hpl
        rw [mem_singleton] at hp
        subst hp
        exact headIn_of_symbols (hb b hbl ty (mem_append_left _ hty))
    rw [checkMatch, checkMatch, hcheck, iht ht', checkMatchBranches_congr fun b hbl =>
      ihb b hbl fun ty hty => hb b hbl ty (mem_append_right _ hty)]
  | teps a v f ih =>
    rw [checkMatch, checkMatch, ih fun ty hty => ht ty (mem_cons_of_mem _ hty)]
  | tquant a q vl trl f ihtr ihf =>
    rw [Term.types, Term.typesTriggers_eq] at ht
    rw [checkMatch, checkMatch, ihf fun ty hty => ht ty (mem_append_right _ hty),
      checkMatchTriggers_congr fun tr htr t htl => ihtr tr htr t htl fun ty hty => ?_]
    refine ht ty (mem_append_left _ (mem_append_right _ ?_))
    exact mem_flatMap.2 ⟨tr, htr, mem_flatMap.2 ⟨t, htl, hty⟩⟩
  | tbinop a op f g hf hg =>
    simp only [Term.types, mem_append] at ht
    rw [checkMatch, checkMatch, hf fun ty hty => ht ty (.inl hty),
      hg fun ty hty => ht ty (.inr hty)]
  | tnot a f ih => rw [checkMatch, checkMatch, ih ht]
  | ttrue a => rfl
  | tfalse a => rfl

/-- The polarities of the parameters of a type. -/
theorem tsExtractPosAux_eq (fuel : ℕ) {sts : List TySymbol} (hts : kn₁.Knows ts) :
    tsExtractPosAux kn₁ fuel sts ts = tsExtractPosAux kn₂ fuel sts ts := by
  induction fuel generalizing sts ts with
  | zero => rfl
  | succ fuel ih =>
    have hargs := fun c (hc : c ∈ findConstructors kn₁ ts) => h.knows_args hc
    rw [tsExtractPosAux, tsExtractPosAux, ← h.findConstructors_eq hts]
    cases hcl : findConstructors kn₁ ts with
    | nil => rfl
    | cons c cl =>
      rw [hcl] at hargs
      have hnegs : ∀ c' ∈ c :: cl,
          c'.1.lsArgs.flatMap (getTy (tsExtractPosAux kn₁ fuel (ts :: sts))) =
            c'.1.lsArgs.flatMap (getTy (tsExtractPosAux kn₂ fuel (ts :: sts))) := by
        intro c' hc'
        apply flatMap_congr
        exact fun a ha => getTy_congr fun s hs => ih (hargs c' hc' a ha s hs)
      simp only
      rw [flatMap_congr hnegs]

theorem tsExtractPos_eq (hts : kn₁.Knows ts) : tsExtractPos kn₁ ts = tsExtractPos kn₂ ts := by
  rw [← tsExtractPos_eq_of_le (Nat.le_max_left _ (kn₂.algebraic.length + 1)),
    ← @tsExtractPos_eq_of_le kn₂ _ (Nat.le_max_right (kn₁.algebraic.length + 1) _),
    h.tsExtractPosAux_eq _ hts]

theorem checkTs_eq (fuel : ℕ) {tvs : List TvSymbol} (hts : kn₁.Knows ts) :
    checkTs kn₁ fuel tss tvs ts = checkTs kn₂ fuel tss tvs ts := by
  induction fuel generalizing tss tvs ts with
  | zero => rfl
  | succ fuel ih =>
    have hargs := fun c (hc : c ∈ findConstructors kn₁ ts) => h.knows_args hc
    rw [checkTs, checkTs, ← h.findConstructors_eq hts]
    cases hcl : findConstructors kn₁ ts with
    | nil => rfl
    | cons c cl =>
      rw [hcl] at hargs
      have hall : ∀ c' ∈ c :: cl, ∀ a ∈ c'.1.lsArgs,
          checkType (checkTs kn₁ fuel (ts :: tss)) tvs a =
            checkType (checkTs kn₂ fuel (ts :: tss)) tvs a :=
        fun c' hc' a ha => checkType_congr_symbols fun s hs vl => ih (hargs c' hc' a ha s hs)
      have hany : ((c :: cl).any fun c' =>
            c'.1.lsArgs.all (checkType (checkTs kn₁ fuel (ts :: tss)) tvs)) =
          (c :: cl).any fun c' =>
            c'.1.lsArgs.all (checkType (checkTs kn₂ fuel (ts :: tss)) tvs) := by
        rw [Bool.eq_iff_iff]
        simp only [any_eq_true, all_eq_true]
        refine exists_congr fun c' => and_congr_right fun hc' => ?_
        exact forall₂_congr fun a ha => by rw [hall c' hc' a ha]
      simp only
      rw [hany]

theorem checkPositivity_eq (hd : ∀ u ∈ getUsedSymsDecl d, (kn₁.lookup u).isSome) :
    checkPositivity kn₁ d = checkPositivity kn₂ d := by
  unfold checkPositivity
  cases hnode : d.dNode with
  | ddata tdl =>
    rw [getUsedSymsDecl, hnode] at hd
    have hty : ∀ td ∈ tdl, ∀ c ∈ td.2, ∀ a ∈ c.1.lsArgs,
        checkTy (tsExtractPos kn₁) (tdl.map Prod.fst) a =
          checkTy (tsExtractPos kn₂) (tdl.map Prod.fst) a := by
      intro td htd c hc a ha
      refine checkTy_congr fun s hs => h.tsExtractPos_eq (hd s.tsName ?_)
      refine mem_flatMap.2 ⟨td, htd, mem_flatMap.2 ⟨c, hc, ?_⟩⟩
      exact mem_flatMap.2 ⟨a, ha, mem_map.2 ⟨s, hs, rfl⟩⟩
    simp only
    rw [findSome?_congr_mem fun td htd => findSome?_congr_mem fun c hc => by
      rw [findSome?_congr_mem fun a ha => hty td htd c hc a ha]]
  | _ => rfl

theorem checkFoundness_eq (hd : ∀ tdl, d.dNode = .ddata tdl → ∀ td ∈ tdl, kn₁.Knows td.1) :
    checkFoundness kn₁ d = checkFoundness kn₂ d := by
  unfold checkFoundness
  cases hnode : d.dNode with
  | ddata tdl =>
    have hts : ∀ td ∈ tdl, (!checkTs kn₁ (kn₁.algebraic.length + 1) [] [] td.1) =
        !checkTs kn₂ (kn₂.algebraic.length + 1) [] [] td.1 := by
      intro td htd
      rw [← checkTs_eq_of_le (Nat.le_max_left _ (kn₂.algebraic.length + 1)),
        ← @checkTs_eq_of_le kn₂ _ (Nat.le_max_right (kn₁.algebraic.length + 1) _),
        h.checkTs_eq _ (hd tdl hnode td htd)]
    simp only
    rw [find?_congr hts]
  | _ => rfl

end KnownMap.Part

theorem symsTerm_subset_used {t : Term} (ht : t ∈ declTerms d) :
    symsTerm t ⊆ getUsedSymsDecl d := by
  intro id hid
  unfold declTerms at ht
  unfold getUsedSymsDecl
  split at ht
  · cases ht
  · cases ht
  · cases ht
  · rename_i ldl hnode
    obtain ⟨ld, hld, heq⟩ := mem_filterMap.1 ht
    obtain ⟨⟨vl, e⟩, hopen, rfl⟩ := Option.map_eq_some_iff.1 heq
    refine mem_flatMap.2 ⟨ld, hld, mem_append_right _ ?_⟩
    rw [hopen]
    exact hid
  · rename_i s idl hnode
    obtain ⟨ps, hps, hax⟩ := mem_flatMap.1 ht
    obtain ⟨ax, hmem, rfl⟩ := mem_map.1 hax
    exact mem_flatMap.2 ⟨ps, hps, mem_flatMap.2 ⟨ax, hmem, hid⟩⟩
  · rename_i k pr f hnode
    rw [mem_singleton] at ht
    exact ht ▸ hid

theorem knownAddDecl_part {kn₂' : KnownMap} (h : kn₁.Part kn₂) (hd : d.Created)
    (hadd : knownAddDecl k kn₂ d = .ok kn₂')
    (hused : ∀ u ∈ getUsedSymsDecl d, u ∈ d.dNews ∨ (kn₁.lookup u).isSome) :
    ∃ kn₁', knownAddDecl k kn₁ d = .ok kn₁' ∧ kn₁'.Part kn₂' ∧
      kn₁' = d.dNews.map (·, d) ++ kn₁ := by
  have hadded := (knownAddDecl_ok hadd).1
  obtain ⟨kn₁', hkn₁'⟩ : ∃ kn₁' : KnownMap, kn₁' = d.dNews.map (·, d) ++ kn₁ := ⟨_, rfl⟩
  have hlookup : ∀ id, kn₁'.lookup id = if id ∈ d.dNews then some d else kn₁.lookup id := by
    intro id
    rw [hkn₁', lookup_add]
  have hknown : ∀ u ∈ getUsedSymsDecl d, (kn₁'.lookup u).isSome := by
    intro u hu
    rw [hlookup]
    split_ifs with hnew
    · rfl
    · exact (hused u hu).resolve_left hnew
  have hpart : kn₁'.Part kn₂' := by
    constructor
    · intro id d' hd'
      rw [hlookup] at hd'
      rw [hadded.lookup]
      split_ifs at hd' ⊢ with hnew
      · exact hd'
      · exact h.sub id d' hd'
    · intro id d' hd' u hu
      rw [hlookup] at hd'
      split_ifs at hd' with hnew
      · cases hd'
        exact hknown u hu
      · rw [hlookup]
        split_ifs
        · rfl
        · exact h.closed id d' hd' u hu
  -- the new identifiers are new for the part too
  have hknownAdd : knownAdd kn₁ d = .ok kn₁' := by
    have hfresh : d.dNews.find? (fun id => (kn₁.lookup id).isSome) = none := by
      rw [find?_eq_none]
      intro id hid hsome
      obtain ⟨d', hd'⟩ := Option.isSome_iff_exists.1 hsome
      have := h.sub id d' hd'
      rw [hadded.fresh id hid] at this
      cases this
    have hnone : (getUsedSymsDecl d).find? (fun id => (kn₁'.lookup id).isNone) = none := by
      rw [find?_eq_none]
      intro id hid
      have hsome := hknown id hid
      rw [Option.isSome_iff_exists] at hsome
      obtain ⟨d', hd'⟩ := hsome
      simp [hd']
    unfold knownAdd
    rw [hfresh]
    simp only
    rw [← hkn₁', hnone]
  have hdata : ∀ tdl, d.dNode = .ddata tdl → ∀ td ∈ tdl, kn₁'.Knows td.1 := by
    intro tdl hnode td htd
    have hnew := ((createDataDecl_ok (hd.data_inv hnode)).2 td htd).1
    rw [KnownMap.Knows, hlookup, if_pos hnew]
    rfl
  have hterms : ∀ t ∈ declTerms d, ∀ ty ∈ t.types, ∀ s ∈ ty.symbols, kn₁'.Knows s := by
    intro t ht ty hty s hs
    apply hknown
    apply symsTerm_subset_used ht
    refine mem_append_left _ (mem_flatMap.2 ⟨ty, hty, ?_⟩)
    exact mem_map.2 ⟨s, hs, rfl⟩
  refine ⟨kn₁', ?_, hpart, hkn₁'⟩
  unfold knownAddDecl at hadd ⊢
  simp only [bind_eq_ok] at hadd
  obtain ⟨kn, hkn, u, hpos, u', hfound, hmatch⟩ := hadd
  obtain rfl : kn = kn₂' := by
    split at hmatch <;> cases hmatch
    rfl
  simp only [bind_eq_ok]
  refine ⟨kn₁', hknownAdd, u, ?_, u', ?_, ?_⟩
  · rw [hpart.checkPositivity_eq hknown]
    exact hpos
  · rw [hpart.checkFoundness_eq hdata]
    exact hfound
  · rw [checkMatchList_congr fun t ht => hpart.checkMatch_eq k (hterms t ht)]
    split at hmatch
    · rfl
    · cases hmatch


end Why3
