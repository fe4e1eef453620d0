import Why3.Core.KnownRun

/-!
# Accepted algebraic types are inhabited

`check_foundness` searches, for each type of a data declaration, a constructor
all of whose arguments have values, without passing twice through one type
symbol.  The search ends on every declaration; when it succeeds the type has a
finite constructor value, as soon as the type variables, the parameters and the
types without constructors have elements.
-/

namespace Why3

open Checks List

/-! ## Finite constructor values -/

section Values

/-- The sets that stand for the type variables and for the types without
constructors. -/
structure TyInterp (α : Type*) where
  var : TvSymbol → Set α
  abs : TySymbol → List Ty → Set α

/-- A finite tree of constructors over elements of `α`. -/
inductive FValue (α : Type*)
  | atom (a : α)
  | con (cs : LSymbol) (dl : List (FValue α))

variable {α : Type*} (kn : KnownMap) (I : TyInterp α)

/-- The values of a type. -/
inductive InTy : Ty → FValue α → Prop
  | var {tv a} : a ∈ I.var tv → InTy (.tyvar tv) (.atom a)
  | abs {ts tl a} : findConstructors kn ts = [] → a ∈ I.abs ts tl → InTy (.tyapp ts tl) (.atom a)
  | con {ts tl c dl} : c ∈ findConstructors kn ts →
      List.Forall₂ InTy (c.1.lsArgs.map (Ty.inst (ts.matchArgs tl))) dl →
      InTy (.tyapp ts tl) (.con c.1 dl)

def Inhabited (ty : Ty) : Prop := ∃ d, InTy kn I ty d

/-- Every type variable has an element, and every abstract type applied to
inhabited types. -/
structure TyInterp.NonEmpty : Prop where
  var : ∀ tv, (I.var tv).Nonempty
  abs : ∀ ts tl, findConstructors kn ts = [] → (∀ t ∈ tl, Inhabited kn I t) → (I.abs ts tl).Nonempty

end Values

/-! ## The search ends -/

section Termination

variable (kn : KnownMap)

/-- The recursive calls of `check_ts`: the type symbols in the arguments of the
constructors of `ts`, with `ts` added to those above.  Any set of variables may
come with them. -/
inductive CheckCall : List TySymbol × List TvSymbol × TySymbol →
    List TySymbol × List TvSymbol × TySymbol → Prop
  | mk {tss tvs ts c a s l tvs'} : ts ∉ tss → c ∈ findConstructors kn ts → a ∈ c.1.lsArgs →
      .tyapp s l ∈ a.subtypes → CheckCall (ts :: tss, tvs', s) (tss, tvs, ts)

theorem wellFounded_checkCall : WellFounded (CheckCall kn) := by
  refine Subrelation.wf ?_ (measure (fun x => (kn.unmet x.1).card)).wf
  rintro _ _ ⟨hts, hc, _, _⟩
  exact card_unmet_lt hts (ne_nil_of_mem hc)

/-- The result of the search, as `check_foundness` starts it. -/
def founded (tss : List TySymbol) (tvs : List TvSymbol) (ts : TySymbol) : Bool :=
  checkTs kn (kn.algebraic.length + 1) tss tvs ts

variable {kn}

theorem card_unmet_le (tss : List TySymbol) : (kn.unmet tss).card < kn.algebraic.length + 1 := by
  refine Nat.lt_of_le_of_lt (Finset.card_le_card (?_ : _ ⊆ kn.unmet [])) card_unmet_nil
  intro x hx
  simp only [KnownMap.unmet, Finset.mem_sdiff, toFinset_nil, Finset.notMem_empty,
    not_false_eq_true, and_true] at hx ⊢
  exact hx.1

/-- The fuel of the model is never used up: the result satisfies the equation of
`check_ts`. -/
theorem founded_eq (tss : List TySymbol) (tvs : List TvSymbol) (ts : TySymbol) :
    founded kn tss tvs ts =
      if ts ∈ tss then false
      else if findConstructors kn ts = [] then tvs.isEmpty
      else (findConstructors kn ts).any
        (fun c => c.1.lsArgs.all (checkType (founded kn (ts :: tss)) tvs)) := by
  rw [founded, ← checkTs_succ (kn.algebraic.length + 1) tss tvs ts (card_unmet_le tss), checkTs]
  split
  · rfl
  · split
    · next hnil => rw [if_pos hnil]
    · next hne =>
        rw [if_neg hne]
        rfl

end Termination

/-! ## Success means a value -/

section Soundness

variable {α : Type*} {kn : KnownMap} {I : TyInterp α}

/-- A type symbol has values at all arguments, but perhaps those of the
parameters `tvs`. -/
def FoundedAt (kn : KnownMap) (I : TyInterp α) (tvs : List TvSymbol) (ts : TySymbol) : Prop :=
  ∀ tl : List Ty, tl.length = ts.tsArgs.length →
    (∀ (j : ℕ) (v : TvSymbol) (t : Ty), ts.tsArgs[j]? = some v → tl[j]? = some t → v ∉ tvs →
      Inhabited kn I t) →
    Inhabited kn I (.tyapp ts tl)

section CheckType

variable {search : List TvSymbol → TySymbol → Bool} {tvs : List TvSymbol}

theorem checkType_of_not_mem_emptyArgs {v : TvSymbol} {t : Ty} :
    ∀ {vl : List TvSymbol} {tl : List Ty} {j : ℕ}, vl[j]? = some v → tl[j]? = some t →
      v ∉ emptyArgs search tvs vl tl → checkType search tvs t = true := by
  intro vl
  induction vl with
  | nil => intro tl j hv; simp at hv
  | cons w vl ih =>
    intro tl j hv ht hmem
    cases tl with
    | nil => simp at ht
    | cons u tl =>
      rw [emptyArgs] at hmem
      cases j with
      | zero =>
        simp only [getElem?_cons_zero, Option.some.injEq] at hv ht
        subst hv ht
        by_contra hu
        rw [if_neg hu] at hmem
        exact hmem mem_cons_self
      | succ j =>
        simp only [getElem?_cons_succ] at hv ht
        refine ih hv ht (fun hin => hmem ?_)
        split
        · exact hin
        · exact mem_cons_of_mem _ hin

/-- What `check_type` accepts is inhabited in every instance that gives values to
the variables outside `tvs`. -/
theorem inhabited_of_checkType (hsearch : ∀ vs s, search vs s = true → FoundedAt kn I vs s)
    {m : Mtv} (hm : ∀ v, v ∉ tvs → Inhabited kn I (Ty.instVar m v)) {ty : Ty} :
    ty.Wf → checkType search tvs ty = true → Inhabited kn I (ty.inst m) := by
  induction ty with
  | tyvar v =>
    intro _ h
    rw [checkType, decide_eq_true_eq] at h
    exact hm v h
  | tyapp s l ih =>
    intro hwf h
    rw [checkType] at h
    rw [Ty.inst, Ty.instList_eq]
    refine hsearch _ s h (l.map (Ty.inst m)) (by rw [length_map]; exact hwf.length) ?_
    intro j v t hv ht hmem
    rw [getElem?_map, Option.map_eq_some_iff] at ht
    obtain ⟨u, hu, rfl⟩ := ht
    have hul : u ∈ l := mem_of_getElem? hu
    exact ih u hul (hwf.arg hul) (checkType_of_not_mem_emptyArgs hv hu hmem)

end CheckType

theorem foundedAt_abstract (hI : I.NonEmpty kn) {ts : TySymbol} (hnil : findConstructors kn ts = []) :
    FoundedAt kn I [] ts := by
  intro tl hlen hargs
  have hall : ∀ t ∈ tl, Inhabited kn I t := by
    intro t ht
    obtain ⟨j, hj⟩ := mem_iff_getElem?.mp ht
    have hlt : j < ts.tsArgs.length := by
      rw [← hlen]
      exact (List.getElem?_eq_some_iff.mp hj).1
    exact hargs j _ t (List.getElem?_eq_getElem hlt) hj (by simp)
  obtain ⟨a, ha⟩ := hI.abs ts tl hnil hall
  exact ⟨.atom a, .abs hnil ha⟩

/-- One successful step of the search builds a value from values of the arguments. -/
theorem foundedAt_constr (hI : I.NonEmpty kn) (hcl : kn.Closed)
    {search : List TvSymbol → TySymbol → Bool}
    (hsearch : ∀ vs s, search vs s = true → FoundedAt kn I vs s)
    {ts : TySymbol} {c : Constructor} {tvs : List TvSymbol} (hc : c ∈ findConstructors kn ts)
    (hargs : ∀ a ∈ c.1.lsArgs, checkType search tvs a = true) : FoundedAt kn I tvs ts := by
  intro tl hlen htl
  have hm : ∀ v, v ∉ tvs → Inhabited kn I (Ty.instVar (ts.matchArgs tl) v) := by
    intro v hv
    by_cases hmem : v ∈ ts.tsArgs
    · obtain ⟨j, t, hj, ht, heq⟩ := instVar_matchArgs hlen hmem
      rw [heq]
      exact htl j v t hj ht hv
    · have hnone : (ts.matchArgs tl).lookup v = none := by
        rw [lookup_eq_none_iff]
        intro p hp
        have hne : v ≠ p.1 := fun h => hmem (h ▸ (of_mem_zip hp).1)
        simpa using hne
      obtain ⟨a, ha⟩ := hI.var v
      rw [Ty.instVar, hnone]
      exact ⟨.atom a, .var ha⟩
  have hinst : ∀ t ∈ c.1.lsArgs.map (Ty.inst (ts.matchArgs tl)), ∃ d, InTy kn I t d := by
    intro t ht
    obtain ⟨a, ha, rfl⟩ := mem_map.mp ht
    exact inhabited_of_checkType hsearch hm (hcl.wf ts c hc a ha) (hargs a ha)
  obtain ⟨dl, hdl⟩ := exists_forall₂ hinst
  exact ⟨.con c.1 dl, .con hc hdl⟩

theorem foundedAt_of_checkTs (hI : I.NonEmpty kn) (hcl : kn.Closed) (fuel : ℕ) :
    ∀ (tss : List TySymbol) (tvs : List TvSymbol) (ts : TySymbol),
      checkTs kn fuel tss tvs ts = true → FoundedAt kn I tvs ts := by
  induction fuel with
  | zero => intro tss tvs ts h; cases h
  | succ fuel ih =>
    intro tss tvs ts h
    rw [checkTs] at h
    split at h
    · cases h
    · split at h
      · next hnil =>
          rw [List.isEmpty_iff] at h
          subst h
          exact foundedAt_abstract hI hnil
      · rw [any_eq_true] at h
        obtain ⟨c, hc, hall⟩ := h
        exact foundedAt_constr hI hcl (ih (ts :: tss)) hc (all_eq_true.mp hall)

end Soundness

/-! ## Runs -/

section Runs

variable {kn kn' : KnownMap} {d : Decl}

theorem checkType_congr {f g : List TvSymbol → TySymbol → Bool} {tvs : List TvSymbol} {ty : Ty} :
    (∀ s ∈ ty.symbols, ∀ vs, f vs s = g vs s) → checkType f tvs ty = checkType g tvs ty := by
  induction ty with
  | tyvar v => intro _; rfl
  | tyapp s l ih =>
    intro h
    have hargs : ∀ (vl : List TvSymbol) (l' : List Ty), l' ⊆ l →
        emptyArgs f tvs vl l' = emptyArgs g tvs vl l' := by
      intro vl
      induction vl with
      | nil => intro l' _; rw [emptyArgs, emptyArgs] <;> simp
      | cons v vl ihv =>
        intro l' hl'
        cases l' with
        | nil => rw [emptyArgs, emptyArgs] <;> simp
        | cons t l' =>
          have ht : t ∈ l := hl' mem_cons_self
          have heq := ih t ht (fun s hs =>
            h s (Ty.mem_symbols_tyapp.mpr (.inr ⟨t, ht, hs⟩)))
          rw [emptyArgs, emptyArgs, heq, ihv l' (fun x hx => hl' (mem_cons_of_mem _ hx))]
    rw [checkType, checkType, hargs _ l (List.Subset.refl l)]
    exact h s (Ty.mem_symbols_tyapp.mpr (.inl rfl)) _

/-- The search from a known type never leaves the known types, so later
declarations do not change it. -/
theorem Added.checkTs_old (h : Added kn d kn') (hcl : kn.Closed) (fuel : ℕ) :
    ∀ (tss : List TySymbol) (tvs : List TvSymbol) (ts : TySymbol), (kn.lookup ts.tsName).isSome →
      checkTs kn' fuel tss tvs ts = checkTs kn fuel tss tvs ts := by
  induction fuel with
  | zero => intro tss tvs ts _; rfl
  | succ fuel ih =>
    intro tss tvs ts hts
    rw [checkTs, checkTs, h.findConstructors_old hts]
    split
    · rfl
    · split
      · rfl
      · rw [Bool.eq_iff_iff, any_eq_true, any_eq_true]
        refine exists_congr (fun c => and_congr_right (fun hc => ?_))
        rw [all_eq_true, all_eq_true]
        refine forall₂_congr (fun a ha => ?_)
        rw [checkType_congr (fun s hs vs => ih _ vs s (hcl.known ts c hc a ha s hs))]

theorem checkFoundness_ok {tdl : List DataDecl} (h : checkFoundness kn d = .ok ())
    (hd : d.dNode = .ddata tdl) {td : DataDecl} (htd : td ∈ tdl) :
    founded kn [] [] td.1 = true := by
  unfold checkFoundness at h
  rw [hd] at h
  simp only at h
  split at h
  · cases h
  · next hnone =>
      have := find?_eq_none.mp hnone td htd
      simpa [founded] using this

/-- What holds after each accepted declaration. -/
structure KnownMap.Founded (kn : KnownMap) : Prop where
  closed : kn.Closed
  founded : ∀ ts, findConstructors kn ts ≠ [] → ∃ fuel, checkTs kn fuel [] [] ts = true

theorem Added.founded (h : Added kn d kn') (hf : kn.Founded) (hd : d.Created)
    (hwf : ∀ a ∈ d.argTypes, a.Wf) (hcheck : checkFoundness kn' d = .ok ()) : kn'.Founded where
  closed := h.closed hf.closed hd hwf
  founded := by
    intro ts hts
    obtain ⟨c, hc⟩ := exists_mem_of_ne_nil _ hts
    rcases h.findConstructors_cases hc with ⟨hold, hc⟩ | ⟨tdl, cl, hnode, hmem, _⟩
    · obtain ⟨fuel, hfuel⟩ := hf.founded ts (ne_nil_of_mem hc)
      exact ⟨fuel, by rwa [h.checkTs_old hf.closed fuel [] [] ts hold]⟩
    · exact ⟨_, checkFoundness_ok hcheck hnode hmem⟩

theorem KnownRun.founded {P : KnownMap → Decl → Prop} (h : KnownRun P kn) : kn.Founded := by
  induction h with
  | nil => exact ⟨KnownMap.closed_nil, fun ts hts => absurd rfl hts⟩
  | add _ hd hwf _ hok ih =>
    obtain ⟨hadd, _, hcheck⟩ := knownAddDecl_ok hok
    exact hadd.founded ih hd hwf hcheck

/-- The search of `check_foundness` makes no infinite sequence of calls, whatever
the declarations, and computes what the equation of the source says.  After any
accepted declarations every algebraic type applied to inhabited types has a
finite constructor value. -/
theorem accepted_types_inhabited :
    (∀ kn, WellFounded (CheckCall kn)) ∧
    (∀ kn tss tvs ts, founded kn tss tvs ts =
      if ts ∈ tss then false
      else if findConstructors kn ts = [] then tvs.isEmpty
      else (findConstructors kn ts).any
        (fun c => c.1.lsArgs.all (checkType (founded kn (ts :: tss)) tvs))) ∧
    ∀ kn, KnownRun (fun _ _ => True) kn → ∀ {α : Type*} (I : TyInterp α), I.NonEmpty kn →
      ∀ ts, findConstructors kn ts ≠ [] → ∀ tl : List Ty, tl.length = ts.tsArgs.length →
        (∀ t ∈ tl, Inhabited kn I t) → Inhabited kn I (.tyapp ts tl) := by
  refine ⟨wellFounded_checkCall, @founded_eq, ?_⟩
  intro kn hrun α I hI ts hts tl hlen htl
  have hf := hrun.founded
  obtain ⟨fuel, hfuel⟩ := hf.founded ts hts
  refine foundedAt_of_checkTs hI hf.closed fuel [] [] ts hfuel tl hlen ?_
  intro j v t _ ht _
  exact htl t (mem_of_getElem? ht)

end Runs

namespace Lists

/-- The type variables and the abstract types with one element each. -/
def unitInterp : TyInterp Unit where
  var := fun _ => Set.univ
  abs := fun _ _ => Set.univ

theorem accepted_types_inhabited_list :
    Inhabited (listDecl.dNews.map (·, listDecl) ++ []) unitInterp (listTy (listTy (.tyvar ⟨7⟩))) := by
  have hrun : KnownRun (fun _ _ => True) (listDecl.dNews.map (·, listDecl) ++ []) :=
    .add (k := 200) .nil (.data createDataDecl_list) wf_of_argTypes_list trivial rfl
  have hI : unitInterp.NonEmpty (listDecl.dNews.map (·, listDecl) ++ []) :=
    ⟨fun _ => Set.univ_nonempty, fun _ _ _ _ => Set.univ_nonempty⟩
  have hlist : ∀ t, Inhabited (listDecl.dNews.map (·, listDecl) ++ []) unitInterp t →
      Inhabited (listDecl.dNews.map (·, listDecl) ++ []) unitInterp (listTy t) := by
    intro t ht
    refine accepted_types_inhabited.2.2 _ hrun unitInterp hI tsList (by decide) [t] rfl ?_
    intro u hu
    rw [mem_singleton] at hu
    rwa [hu]
  exact hlist _ (hlist _ ⟨.atom (), .var trivial⟩)

end Lists

end Why3
