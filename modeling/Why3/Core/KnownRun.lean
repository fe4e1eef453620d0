import Why3.Lib.Checks
import Why3.Core.Value
import Why3.Core.Positivity

/-!
# Known maps built by successive declarations

A known map of the program is the result of successive calls of
`known_add_decl`.  A call only adds identifiers, so what is known of a type when
it is declared stays true of it later; positivity of all declared types is an
invariant of the calls whose declarations hide no flow of a parameter.
-/

namespace Why3

open Checks List

variable {news news' : List ℕ} {id j : ℕ} {l : List Ty} {ty : Ty} {ts : TySymbol} {K : ℕ → Prop}

/-! ## What the creation of a data declaration ensures -/

variable {c : Constructor}

section Creation

theorem newsId_ok (h : newsId news id = .ok news') : news' = id :: news := by
  unfold newsId at h
  split at h
  · cases h
  · cases h; rfl

variable {tss : List TySymbol}

theorem checkArgTyList_ok {vs : List TvSymbol} {err : Ty → DeclExn} :
    ∀ {seen : Bool}, checkArgTyList tss vs err seen l = .ok () →
      ∀ t ∈ l, ∃ seen', checkArgTy tss vs err seen' t = .ok () := by
  induction l with
  | nil => intro _ _ t ht; cases ht
  | cons t l ih =>
    intro seen h t' ht'
    rw [checkArgTyList, bind_eq_ok] at h
    obtain ⟨u, hb, h⟩ := h
    rcases mem_cons.mp ht' with rfl | ht'
    · exact ⟨seen, hb⟩
    · exact ih h t' ht'

/-- The variables of an accepted argument type are bound. -/
theorem checkArgTy_freevars {vs : List TvSymbol} {err : Ty → DeclExn} :
    ∀ {seen : Bool}, checkArgTy tss vs err seen ty = .ok () → ∀ v ∈ ty.freevars, v ∈ vs := by
  induction ty with
  | tyvar w =>
    intro seen h v hv
    rw [Ty.freevars, mem_singleton] at hv
    subst hv
    rw [checkArgTy] at h
    split at h
    · assumption
    · cases h
  | tyapp s l ih =>
    intro seen h v hv
    obtain ⟨t, ht, hv⟩ := Ty.mem_freevars_tyapp.mp hv
    rw [checkArgTy] at h
    split at h
    · cases h
    · obtain ⟨seen', hs⟩ := checkArgTyList_ok h t ht
      exact ih t ht hs v hv

theorem checkConstr_ok {cll : ℕ} {pjs : List LSymbol}
    (h : checkConstr tss ts ty cll pjs news c = .ok news') :
    news ⊆ news' ∧ c.1.lsValue = some ty ∧ ∀ a ∈ c.1.lsArgs, ∀ v ∈ a.freevars, v ∈ ty.freevars := by
  unfold checkConstr at h
  simp only at h
  split at h
  · cases h
  · next value hvalue =>
      simp only [bind_eq_ok] at h
      obtain ⟨u, hu, fsPjs, _, h⟩ := h
      have hty : ty = value := by
        unfold tyEqualCheck at hu
        split_ifs at hu with heq
        exact heq
      split at h
      · cases h
      · split at h
        · cases h
        · rw [bind_eq_ok] at h
          obtain ⟨u, ha, h⟩ := h
          rw [newsId_ok h]
          refine ⟨subset_cons_self _ _, hty ▸ hvalue, fun a hmem v hv => ?_⟩
          obtain ⟨seen, hs⟩ := checkArgTyList_ok ha a hmem
          exact checkArgTy_freevars hs v hv

theorem checkDataDecl_ok {td : DataDecl} (h : checkDataDecl tss news td = .ok news') :
    news ⊆ news' ∧ td.1.tsName ∈ news' ∧
      ∀ c ∈ td.2, c.1.lsValue = some (.tyapp td.1 (td.1.tsArgs.map .tyvar)) ∧
        ∀ a ∈ c.1.lsArgs, ∀ v ∈ a.freevars, v ∈ td.1.tsArgs := by
  obtain ⟨ts, cl⟩ := td
  unfold checkDataDecl at h
  simp only at h
  split at h
  · cases h
  · split at h
    · cases h
    · simp only [bind_eq_ok] at h
      obtain ⟨news₁, hn, news₂, hp, h⟩ := h
      have h₁ := newsId_ok hn
      have h₂ : news₁ ⊆ news₂ :=
        (foldlM_all (M := (· ⊆ ·)) (P := fun _ _ => True) List.Subset.refl List.Subset.trans
          (fun _ _ => trivial) (fun hstep => ⟨by
            rw [newsId_ok hstep]; exact subset_cons_self _ _, trivial⟩) hp).1
      obtain ⟨h₃, hall⟩ := foldlM_all (M := (· ⊆ ·))
        (P := fun (c : Constructor) _ => c.1.lsValue = some (.tyapp ts (ts.tsArgs.map .tyvar)) ∧
          ∀ a ∈ c.1.lsArgs, ∀ v ∈ a.freevars, v ∈ (Ty.tyapp ts (ts.tsArgs.map .tyvar)).freevars)
        List.Subset.refl List.Subset.trans (fun h _ => h) checkConstr_ok h
      subst h₁
      refine ⟨?_, h₃ (h₂ mem_cons_self), fun c hc => ⟨(hall c hc).1, fun a ha v hv => ?_⟩⟩
      · exact fun x hx => h₃ (h₂ (mem_cons_of_mem _ hx))
      · obtain ⟨t, ht, hvt⟩ := Ty.mem_freevars_tyapp.mp ((hall c hc).2 a ha v hv)
        obtain ⟨w, hw, rfl⟩ := mem_map.mp ht
        rw [Ty.freevars, mem_singleton] at hvt
        rwa [hvt]

/-- A created data declaration names its types, and its constructors use the
parameters of their type only. -/
theorem createDataDecl_ok {tdl : List DataDecl} {d : Decl} (h : createDataDecl tdl = .ok d) :
    d.dNode = .ddata tdl ∧ ∀ td ∈ tdl, td.1.tsName ∈ d.dNews ∧
      ∀ c ∈ td.2, c.1.lsValue = some (.tyapp td.1 (td.1.tsArgs.map .tyvar)) ∧
        ∀ a ∈ c.1.lsArgs, ∀ v ∈ a.freevars, v ∈ td.1.tsArgs := by
  unfold createDataDecl at h
  split at h
  · cases h
  · rw [bind_eq_ok] at h
    obtain ⟨news, hf, h⟩ := h
    cases h
    exact ⟨rfl, (foldlM_all (M := (· ⊆ ·))
      (P := fun (td : DataDecl) news => td.1.tsName ∈ news ∧ ∀ c ∈ td.2,
        c.1.lsValue = some (.tyapp td.1 (td.1.tsArgs.map .tyvar)) ∧
          ∀ a ∈ c.1.lsArgs, ∀ v ∈ a.freevars, v ∈ td.1.tsArgs) List.Subset.refl List.Subset.trans
      (fun hP hM => ⟨hM hP.1, hP.2⟩) checkDataDecl_ok hf).2⟩

/-- The function that creates a declaration with this node. -/
def Decl.ByNode (d : Decl) : Prop :=
  match d.dNode with
  | .dtype ts => d = createTyDecl ts
  | .ddata tdl => createDataDecl tdl = .ok d
  | .dparam ls => createParamDecl ls = .ok d
  | .dlogic _ => ∃ ldl, createLogicDecl ldl = .ok d
  | .dind s idl => createIndDecl s idl = .ok d
  | .dprop k p f => createPropDecl k p f = .ok d

theorem Decl.Created.byNode {d : Decl} (h : d.Created) : d.ByNode := by
  unfold Decl.ByNode
  cases h with
  | ty ts => exact rfl
  | data h =>
    rw [(createDataDecl_ok h).1]
    exact h
  | param h =>
    have hcreate := h
    unfold createParamDecl at h
    split at h <;> cases h
    exact hcreate
  | @logic ldl _ h =>
    have hcreate := h
    unfold createLogicDecl at h
    split at h
    · cases h
    · rw [bind_eq_ok] at h
      obtain ⟨news, _, h⟩ := h
      split at h <;> cases h
      exact ⟨ldl, hcreate⟩
  | ind h =>
    have hcreate := h
    unfold createIndDecl at h
    split at h
    · cases h
    · rw [bind_eq_ok] at h
      obtain ⟨news, _, h⟩ := h
      cases h
      exact hcreate
  | @prop k p f _ h =>
    obtain ⟨g, hg, hd⟩ := bind_eq_ok.1 h
    obtain rfl : g = f := by
      unfold checkFvs at hg
      split at hg
      · cases hg
      · split_ifs at hg
        cases hg
        rfl
    cases hd
    exact h

theorem Decl.Created.data_inv {d : Decl} (h : d.Created) {tdl : List DataDecl}
    (hd : d.dNode = .ddata tdl) : createDataDecl tdl = .ok d := by
  have hby := h.byNode
  unfold Decl.ByNode at hby
  rwa [hd] at hby

end Creation

/-! ## Adding a declaration -/

section Add

variable {kn kn' : KnownMap} {d : Decl}

theorem lookup_map_pair {ids : List ℕ} :
    (ids.map (·, d)).lookup id = if id ∈ ids then some d else none := by
  induction ids with
  | nil => rfl
  | cons x ids ih =>
    rw [map_cons, List.lookup_cons]
    by_cases hx : id = x
    · subst hx; simp
    · have hbeq : (id == x) = false := by simpa using hx
      rw [hbeq, ih]
      simp [hx]

theorem lookup_add :
    (d.dNews.map (·, d) ++ kn).lookup id = if id ∈ d.dNews then some d else kn.lookup id := by
  rw [List.lookup_append, lookup_map_pair]
  split <;> simp

/-- What `known_add_decl` checks before the positivity of the declaration. -/
structure Added (kn : KnownMap) (d : Decl) (kn' : KnownMap) : Prop where
  eq : kn' = d.dNews.map (·, d) ++ kn
  fresh : ∀ id ∈ d.dNews, kn.lookup id = none
  known : ∀ id ∈ getUsedSymsDecl d, (kn'.lookup id).isSome

theorem knownAdd_ok (h : knownAdd kn d = .ok kn') : Added kn d kn' := by
  unfold knownAdd at h
  split at h
  · cases h
  · next hfresh =>
      simp only at h
      split at h
      · cases h
      · next hknown =>
          cases h
          refine ⟨rfl, fun id hid => ?_, fun id hid => ?_⟩
          · have := find?_eq_none.mp hfresh id hid
            rwa [Option.not_isSome_iff_eq_none] at this
          · have := find?_eq_none.mp hknown id hid
            rwa [Option.isNone_iff_eq_none, ← ne_eq, Option.ne_none_iff_isSome] at this

theorem knownAddDecl_ok {k : ℕ} (h : knownAddDecl k kn d = .ok kn') :
    Added kn d kn' ∧ checkPositivity kn' d = .ok () ∧ checkFoundness kn' d = .ok () := by
  unfold knownAddDecl at h
  simp only [bind_eq_ok] at h
  obtain ⟨kn₁, hadd, u, hpos, u', hfound, h⟩ := h
  split at h <;> cases h
  exact ⟨knownAdd_ok hadd, hpos, hfound⟩

theorem Added.lookup (h : Added kn d kn') (id : ℕ) :
    kn'.lookup id = if id ∈ d.dNews then some d else kn.lookup id := by
  rw [h.eq, lookup_add]

theorem Added.not_mem_news (h : Added kn d kn') (hid : (kn.lookup id).isSome) : id ∉ d.dNews := by
  intro hmem
  rw [h.fresh id hmem] at hid
  cases hid

theorem Added.lookup_old (h : Added kn d kn') (hid : (kn.lookup id).isSome) :
    kn'.lookup id = kn.lookup id := by
  rw [h.lookup, if_neg (h.not_mem_news hid)]

theorem mem_findConstructors (h : c ∈ findConstructors kn ts) :
    ∃ d tdl cl, kn.lookup ts.tsName = some d ∧ d.dNode = .ddata tdl ∧ (ts, cl) ∈ tdl ∧ c ∈ cl ∧
      findConstructors kn ts = cl := by
  unfold findConstructors at h ⊢
  split at h
  · next tdl news hl =>
      rw [hl]
      cases htdl : tdl.lookup ts with
      | none => rw [htdl] at h; cases h
      | some cl =>
        rw [htdl] at h
        obtain ⟨l₁, l₂, rfl, _⟩ := lookup_eq_some_iff.mp htdl
        exact ⟨_, _, cl, rfl, rfl, by simp, h, by simp only [Option.getD_some]⟩
  · cases h

theorem Added.findConstructors_old (h : Added kn d kn') (hts : (kn.lookup ts.tsName).isSome) :
    findConstructors kn' ts = findConstructors kn ts := by
  unfold findConstructors
  rw [h.lookup_old hts]

theorem Added.findConstructors_cases (h : Added kn d kn')
    (hc : c ∈ findConstructors kn' ts) :
    ((kn.lookup ts.tsName).isSome ∧ c ∈ findConstructors kn ts) ∨
      ∃ tdl cl, d.dNode = .ddata tdl ∧ (ts, cl) ∈ tdl ∧ c ∈ cl := by
  obtain ⟨d', tdl, cl, hd', hnode, hmem, hcl, _⟩ := mem_findConstructors hc
  rw [h.lookup] at hd'
  split at hd'
  · cases hd'
    exact .inr ⟨tdl, cl, hnode, hmem, hcl⟩
  · have hsome : (kn.lookup ts.tsName).isSome := by rw [hd']; rfl
    refine .inl ⟨hsome, ?_⟩
    rwa [← h.findConstructors_old hsome]

end Add

/-! ## The depth of unfolding

`ts_extract_pos` and `check_ts` unfold an algebraic type at most once on a path,
so a fuel above the number of the algebraic types makes no difference. -/

section Depth

variable {kn : KnownMap}

/-- The algebraic types that a path through `sts` may still meet. -/
def KnownMap.unmet (kn : KnownMap) (sts : List TySymbol) : Finset TySymbol :=
  kn.algebraic.toFinset \ sts.toFinset

theorem mem_algebraic (h : c ∈ findConstructors kn ts) : ts ∈ kn.algebraic := by
  obtain ⟨d, tdl, cl, hd, hnode, hmem, _⟩ := mem_findConstructors h
  obtain ⟨l₁, l₂, rfl, _⟩ := lookup_eq_some_iff.mp hd
  refine mem_flatMap.mpr ⟨(ts.tsName, d), by simp, ?_⟩
  simp only [hnode]
  exact mem_map.mpr ⟨_, hmem, rfl⟩

theorem card_unmet_lt {sts : List TySymbol} (hsts : ts ∉ sts) (h : findConstructors kn ts ≠ []) :
    (kn.unmet (ts :: sts)).card < (kn.unmet sts).card := by
  obtain ⟨c, hc⟩ := exists_mem_of_ne_nil _ h
  refine Finset.card_lt_card (Finset.ssubset_iff_of_subset ?_ |>.mpr ⟨ts, ?_, ?_⟩)
  · intro x hx
    simp only [KnownMap.unmet, Finset.mem_sdiff, mem_toFinset, mem_cons, not_or] at hx ⊢
    exact ⟨hx.1, hx.2.2⟩
  · simpa [KnownMap.unmet] using ⟨mem_algebraic hc, hsts⟩
  · simp [KnownMap.unmet]

theorem card_unmet_nil : (kn.unmet []).card < kn.algebraic.length + 1 := by
  have h : kn.unmet [] = kn.algebraic.toFinset := by simp [KnownMap.unmet]
  rw [h]
  exact Nat.lt_succ_of_le (toFinset_card_le _)

theorem tsExtractPosAux_succ : ∀ (fuel : ℕ) (sts : List TySymbol) (ts : TySymbol),
    (kn.unmet sts).card < fuel →
      tsExtractPosAux kn (fuel + 1) sts ts = tsExtractPosAux kn fuel sts ts := by
  intro fuel
  induction fuel with
  | zero => intro sts ts h; exact absurd h (Nat.not_lt_zero _)
  | succ fuel ih =>
    intro sts ts h
    rw [tsExtractPosAux, tsExtractPosAux]
    split
    · rfl
    · split
      · rfl
      · next hsts =>
          split
          · rfl
          · next hcsl =>
              have hlt := card_unmet_lt hsts hcsl
              have heq : tsExtractPosAux kn (fuel + 1) (ts :: sts) =
                  tsExtractPosAux kn fuel (ts :: sts) := by
                funext s
                exact ih (ts :: sts) s (by omega)
              rw [heq]

theorem checkTs_succ : ∀ (fuel : ℕ) (tss : List TySymbol) (tvs : List TvSymbol) (ts : TySymbol),
    (kn.unmet tss).card < fuel → checkTs kn (fuel + 1) tss tvs ts = checkTs kn fuel tss tvs ts := by
  intro fuel
  induction fuel with
  | zero => intro tss tvs ts h; exact absurd h (Nat.not_lt_zero _)
  | succ fuel ih =>
    intro tss tvs ts h
    rw [checkTs, checkTs]
    split
    · rfl
    · next htss =>
        split
        · rfl
        · next hcl =>
            have hlt := card_unmet_lt htss hcl
            have heq : checkTs kn (fuel + 1) (ts :: tss) = checkTs kn fuel (ts :: tss) := by
              funext tvs s
              exact ih (ts :: tss) tvs s (by omega)
            rw [heq]

/-- More fuel does not change the polarities. -/
theorem tsExtractPos_eq_of_le {fuel : ℕ} (h : kn.algebraic.length + 1 ≤ fuel) (ts : TySymbol) :
    tsExtractPosAux kn fuel [] ts = tsExtractPos kn ts := by
  induction fuel, h using Nat.le_induction with
  | base => rfl
  | succ n hn ih =>
    rw [tsExtractPosAux_succ n [] ts (Nat.lt_of_lt_of_le card_unmet_nil hn), ih]

/-- Nor what is founded. -/
theorem checkTs_eq_of_le {fuel : ℕ} (h : kn.algebraic.length + 1 ≤ fuel) (ts : TySymbol) :
    checkTs kn fuel [] [] ts = checkTs kn (kn.algebraic.length + 1) [] [] ts := by
  induction fuel, h using Nat.le_induction with
  | base => rfl
  | succ n hn ih =>
    rw [checkTs_succ n [] [] ts (Nat.lt_of_lt_of_le card_unmet_nil hn), ih]

end Depth

/-! ## Runs -/

/-- The argument types of the constructors that a declaration introduces. -/
def Decl.argTypes (d : Decl) : List Ty :=
  match d.dNode with
  | .ddata tdl => tdl.flatMap (fun td => td.2.flatMap (fun c => c.1.lsArgs))
  | _ => []

/-- The known maps obtained by successive successful calls of `known_add_decl`,
each on a declaration that satisfies `P`.  The types come from `ty_app`, which
checks the number of arguments. -/
inductive KnownRun (P : KnownMap → Decl → Prop) : KnownMap → Prop
  | nil : KnownRun P []
  | add {k kn d kn'} : KnownRun P kn → d.Created → (∀ a ∈ d.argTypes, a.Wf) → P kn d →
      knownAddDecl k kn d = .ok kn' → KnownRun P kn'

/-- Unfolding never brings a declared type into a refused argument, and the
polarities say which parameters may get there. -/
structure Positive (kn : KnownMap) : Prop where
  types : ∀ id d tdl, kn.lookup id = some d → d.dNode = .ddata tdl →
    ∀ a ∈ d.argTypes, ∀ ty, Relation.ReflTransGen (Unfold kn) a ty →
      ¬ BadTy kn (· ∈ tdl.map Prod.fst) (fun _ => False) ty
  polarity : ∀ ts : TySymbol, ts.tsArgs.Nodup → ∀ (j : ℕ) (v : TvSymbol), ts.tsArgs[j]? = some v →
    (tsExtractPos kn ts)[j]? = some true →
      ∀ ty, Relation.ReflTransGen (Unfold kn) (.tyapp ts (ts.tsArgs.map .tyvar)) ty →
        ¬ BadTy kn (fun _ => False) (· = v) ty

/-- A parameter of a declared type that flows into a refused argument does so
along a path that meets no type symbol twice. -/
def SimpleFlow (kn : KnownMap) (d : Decl) : Prop :=
  ∀ tdl, d.dNode = .ddata tdl → ∀ td ∈ tdl, ∀ j,
    Neg (d.dNews.map (·, d) ++ kn) td.1 j → SimpleNeg (d.dNews.map (·, d) ++ kn) [] td.1 j

/-! ## The invariant of a run -/

section Invariant

/-- The constructors of all types use the parameters of their type and known
symbols only. -/
structure KnownMap.Closed (kn : KnownMap) : Prop where
  wf : ∀ ts, ∀ c ∈ findConstructors kn ts, ∀ a ∈ c.1.lsArgs, a.Wf
  bound : ∀ ts, ∀ c ∈ findConstructors kn ts, ∀ a ∈ c.1.lsArgs, ∀ v ∈ a.freevars, v ∈ ts.tsArgs
  known : ∀ ts, ∀ c ∈ findConstructors kn ts, ∀ a ∈ c.1.lsArgs,
    ∀ s ∈ a.symbols, (kn.lookup s.tsName).isSome

/-- What is known of the group `tdl` since it was declared; `K` are the names
known at that time. -/
structure GroupFits (kn : KnownMap) (d : Decl) (tdl : List DataDecl) (K : ℕ → Prop) : Prop where
  old : ∀ n, K n → (kn.lookup n).isSome
  fits : Fits kn K (· ∈ tdl.map Prod.fst)
  marked : ∀ a ∈ d.argTypes, Marked kn K (· ∈ tdl.map Prod.fst) (fun _ => False) a

structure KnownMap.Sound (kn : KnownMap) : Prop where
  closed : kn.Closed
  simple : ∀ ts j, Neg kn ts j → SimpleNeg kn [] ts j
  groups : ∀ id d tdl, kn.lookup id = some d → d.dNode = .ddata tdl → ∃ K, GroupFits kn d tdl K

variable {kn kn' : KnownMap} {d : Decl} {tdl : List DataDecl}

theorem Decl.mem_argTypes (hd : d.dNode = .ddata tdl) {a : Ty} :
    a ∈ d.argTypes ↔ ∃ td ∈ tdl, ∃ c ∈ td.2, a ∈ c.1.lsArgs := by
  simp only [Decl.argTypes, hd, mem_flatMap]

theorem symbol_mem_of_subtype {s : TySymbol} (h : .tyapp s l ∈ ty.subtypes) : s ∈ ty.symbols :=
  Ty.symbols_of_subtype h s (Ty.mem_symbols_tyapp.mpr (.inl rfl))

/-! ### A new declaration leaves the known types alone -/

theorem Added.neg_old (h : Added kn d kn') (hcl : kn.Closed) (hneg : Neg kn' ts j) :
    (kn.lookup ts.tsName).isSome → Neg kn ts j := by
  induction hneg with
  | func => exact fun _ => .func
  | abstract hne hnil hj =>
    intro hts
    rw [h.findConstructors_old hts] at hnil
    exact .abstract hne hnil hj
  | flow hc ha hs hu hv hj _ ih =>
    intro hts
    rw [h.findConstructors_old hts] at hc
    exact .flow hc ha hs hu hv hj (ih (hcl.known _ _ hc _ ha _ (symbol_mem_of_subtype hs)))

theorem Added.simpleNeg_new (h : Added kn d kn') (hcl : kn.Closed) {sts : List TySymbol}
    (hneg : SimpleNeg kn sts ts j) : (kn.lookup ts.tsName).isSome → SimpleNeg kn' sts ts j := by
  induction hneg with
  | func => exact fun _ => .func
  | abstract hsts hne hnil hj =>
    intro hts
    rw [← h.findConstructors_old hts] at hnil
    exact .abstract hsts hne hnil hj
  | flow hsts hne hc ha hs hu hv hj _ ih =>
    intro hts
    have hknown := hcl.known _ _ hc _ ha _ (symbol_mem_of_subtype hs)
    rw [← h.findConstructors_old hts] at hc
    exact .flow hsts hne hc ha hs hu hv hj (ih hknown)

theorem Added.marked (h : Added kn d kn') (hcl : kn.Closed) (hK : ∀ n, K n → (kn.lookup n).isSome)
    {S : TySymbol → Prop} {X : TvSymbol → Prop} (hm : Marked kn K S X ty) :
    Marked kn' K S X ty where
  wf := hm.wf
  known := hm.known
  unmarked := fun s l hs k u hu hneg =>
    hm.unmarked s l hs k u hu
      (h.neg_old hcl hneg (hK _ (hm.known s (symbol_mem_of_subtype hs))))

theorem Added.fits (h : Added kn d kn') (hcl : kn.Closed) (hK : ∀ n, K n → (kn.lookup n).isSome)
    {S : TySymbol → Prop} (hf : Fits kn K S) : Fits kn' K S := by
  have heq : ∀ ts : TySymbol, K ts.tsName → findConstructors kn' ts = findConstructors kn ts :=
    fun ts hts => h.findConstructors_old (hK _ hts)
  refine ⟨?_, ?_, ?_, ?_, ?_⟩
  · intro ts hts
    rw [heq ts hts]
    exact hf.wf ts hts
  · intro ts hts
    rw [heq ts hts]
    exact hf.bound ts hts
  · intro ts hts
    rw [heq ts hts]
    exact hf.known ts hts
  · intro ts hts
    rw [heq ts hts]
    exact hf.outside ts hts
  · intro ts hts
    rw [heq ts hts]
    intro c hc a ha s l hs k u hu hneg
    have hknown := hK _ (hf.known ts hts c hc a ha s (symbol_mem_of_subtype hs))
    exact hf.inside ts hts c hc a ha s l hs k u hu (h.neg_old hcl hneg hknown)

theorem Added.groupFits (h : Added kn d kn') (hcl : kn.Closed) {d' : Decl}
    (hg : GroupFits kn d' tdl K) : GroupFits kn' d' tdl K where
  old := fun n hn => by
    rw [h.lookup_old (hg.old n hn)]
    exact hg.old n hn
  fits := h.fits hcl hg.old hg.fits
  marked := fun a ha => h.marked hcl hg.old (hg.marked a ha)

/-! ### The new declaration -/

theorem KnownMap.closed_nil : KnownMap.Closed [] := by
  refine ⟨?_, ?_, ?_⟩
  · intro ts c hc; cases hc
  · intro ts c hc; cases hc
  · intro ts c hc; cases hc

theorem Added.closed (h : Added kn d kn') (hcl : kn.Closed) (hd : d.Created)
    (hwf : ∀ a ∈ d.argTypes, a.Wf) : kn'.Closed := by
  have hnew : ∀ {ts : TySymbol} {tdl : List DataDecl} {cl : List Constructor} {c : Constructor}
      {a : Ty}, d.dNode = .ddata tdl → (ts, cl) ∈ tdl → c ∈ cl → a ∈ c.1.lsArgs → a ∈ d.argTypes :=
    fun hnode hmem hcl ha => (Decl.mem_argTypes hnode).mpr ⟨_, hmem, _, hcl, ha⟩
  refine ⟨?_, ?_, ?_⟩
  · intro ts c hc a ha
    rcases h.findConstructors_cases hc with ⟨_, hc⟩ | ⟨tdl, cl, hnode, hmem, hccl⟩
    · exact hcl.wf ts c hc a ha
    · exact hwf a (hnew hnode hmem hccl ha)
  · intro ts c hc a ha
    rcases h.findConstructors_cases hc with ⟨_, hc⟩ | ⟨tdl, cl, hnode, hmem, hccl⟩
    · exact hcl.bound ts c hc a ha
    · exact (((createDataDecl_ok (hd.data_inv hnode)).2 _ hmem).2 c hccl).2 a ha
  · intro ts c hc a ha s hs
    rcases h.findConstructors_cases hc with ⟨_, hc⟩ | ⟨tdl, cl, hnode, hmem, hccl⟩
    · have hold := hcl.known ts c hc a ha s hs
      rwa [h.lookup_old hold]
    · refine h.known s.tsName ?_
      simp only [getUsedSymsDecl, hnode, mem_flatMap, symsTy, mem_map]
      exact ⟨_, hmem, c, hccl, a, ha, s, hs, rfl⟩

theorem neg_of_no_constructors (hnil : findConstructors kn ts = []) (hneg : Neg kn ts j) :
    SimpleNeg kn [] ts j := by
  cases hneg with
  | func => exact .func
  | abstract hne _ hj => exact .abstract not_mem_nil hne hnil hj
  | flow hc =>
    rw [hnil] at hc
    cases hc

theorem Added.simple (h : Added kn d kn') (hs : kn.Sound) (hflow : SimpleFlow kn d)
    (ts : TySymbol) (j : ℕ) (hneg : Neg kn' ts j) : SimpleNeg kn' [] ts j := by
  by_cases hnil : findConstructors kn' ts = []
  · exact neg_of_no_constructors hnil hneg
  · obtain ⟨c, hc⟩ := exists_mem_of_ne_nil _ hnil
    rcases h.findConstructors_cases hc with ⟨hold, _⟩ | ⟨tdl, cl, hnode, hmem, _⟩
    · exact h.simpleNeg_new hs.closed (hs.simple ts j (h.neg_old hs.closed hneg hold)) hold
    · rw [h.eq] at hneg ⊢
      exact hflow tdl hnode _ hmem j hneg

theorem checkPositivity_ok (h : checkPositivity kn d = .ok ()) (hd : d.dNode = .ddata tdl) :
    ∀ a ∈ d.argTypes, checkTy (tsExtractPos kn) (tdl.map Prod.fst) a = none := by
  intro a ha
  obtain ⟨td, htd, c, hc, ha⟩ := (Decl.mem_argTypes hd).mp ha
  unfold checkPositivity at h
  simp only [hd] at h
  split at h
  · cases h
  · next hbad =>
      have htd := findSome?_eq_none_iff.mp hbad td htd
      have hc := findSome?_eq_none_iff.mp htd c hc
      rw [Option.map_eq_none_iff] at hc
      exact findSome?_eq_none_iff.mp hc a ha

theorem tsExtractPos_of_neg (hcl : kn.Closed) (hsimple : ∀ ts j, Neg kn ts j → SimpleNeg kn [] ts j)
    (hneg : Neg kn ts j) : (tsExtractPos kn ts)[j]? = some false :=
  tsExtractPosAux_of_simpleNeg hcl.wf (hsimple ts j hneg) _

theorem Added.group (h : Added kn d kn') (hs : kn.Sound) (hd : d.Created)
    (hwf : ∀ a ∈ d.argTypes, a.Wf) (hflow : SimpleFlow kn d) (hpos : checkPositivity kn' d = .ok ())
    (hnode : d.dNode = .ddata tdl) : GroupFits kn' d tdl (fun n => (kn'.lookup n).isSome) := by
  have hcl := h.closed hs.closed hd hwf
  have hnames := (createDataDecl_ok (hd.data_inv hnode)).2
  -- a declared type is not known before
  have hS : ∀ s : TySymbol, s ∈ tdl.map Prod.fst → ¬ (kn.lookup s.tsName).isSome := by
    intro s hs hold
    obtain ⟨td, htd, rfl⟩ := mem_map.mp hs
    exact h.not_mem_news hold (hnames td htd).1
  -- the check on the new argument types, in terms of flows
  have hcheck : ∀ a ∈ d.argTypes, ∀ s l, .tyapp s l ∈ a.subtypes → ∀ (k : ℕ) (u : Ty),
      l[k]? = some u → Neg kn' s k → ∀ x ∈ u.symbols, x ∉ tdl.map Prod.fst := by
    intro a ha s l hsub k u hu hneg
    exact not_mem_of_checkTy (fun s => length_tsExtractPosAux _ [] s) (hwf a ha)
      (checkPositivity_ok hpos hnode a ha) hsub hu
      (tsExtractPos_of_neg hcl (h.simple hs hflow) hneg)
  have hnew : ∀ {ts : TySymbol} {c : Constructor}, c ∈ findConstructors kn' ts →
      (∀ a ∈ c.1.lsArgs, ∀ s ∈ a.symbols, (kn.lookup s.tsName).isSome) ∨
        (ts ∈ tdl.map Prod.fst ∧ ∀ a ∈ c.1.lsArgs, a ∈ d.argTypes) := by
    intro ts c hc
    rcases h.findConstructors_cases hc with ⟨_, hc⟩ | ⟨tdl', cl, hnode', hmem, hccl⟩
    · exact .inl (hs.closed.known ts c hc)
    · rw [hnode] at hnode'
      cases hnode'
      refine .inr ⟨mem_map.mpr ⟨_, hmem, rfl⟩, fun a ha => ?_⟩
      exact (Decl.mem_argTypes hnode).mpr ⟨_, hmem, c, hccl, ha⟩
  refine ⟨fun n hn => hn, ⟨?_, ?_, ?_, ?_, ?_⟩, fun a ha => ⟨hwf a ha, ?_, ?_⟩⟩
  · exact fun ts _ => hcl.wf ts
  · exact fun ts _ => hcl.bound ts
  · exact fun ts _ => hcl.known ts
  · intro ts _ hts c hc a ha s hsym hmem
    rcases hnew hc with hold | ⟨hts', _⟩
    · exact hS s hmem (hold a ha s hsym)
    · exact hts hts'
  · intro ts _ c hc a ha s l hsub k u hu hneg x hx
    rcases hnew hc with hold | ⟨_, hargs⟩
    · have hxa : x ∈ a.symbols := Ty.symbols_of_subtype hsub x
        (Ty.mem_symbols_tyapp.mpr (.inr ⟨u, mem_of_getElem? hu, hx⟩))
      exact fun hmem => hS x hmem (hold a ha x hxa)
    · exact hcheck a (hargs a ha) s l hsub k u hu hneg x hx
  · intro s hsym
    obtain ⟨td, htd, c, hc, ha⟩ := (Decl.mem_argTypes hnode).mp ha
    refine h.known s.tsName ?_
    simp only [getUsedSymsDecl, hnode, mem_flatMap, symsTy, mem_map]
    exact ⟨td, htd, c, hc, a, ha, s, hsym, rfl⟩
  · rintro s l hsub k u hu hneg (⟨x, hx, hmem⟩ | ⟨_, _, hF⟩)
    · exact hcheck a ha s l hsub k u hu hneg x hx hmem
    · exact hF

theorem Added.sound (h : Added kn d kn') (hs : kn.Sound) (hd : d.Created)
    (hwf : ∀ a ∈ d.argTypes, a.Wf) (hflow : SimpleFlow kn d)
    (hpos : checkPositivity kn' d = .ok ()) : kn'.Sound where
  closed := h.closed hs.closed hd hwf
  simple := h.simple hs hflow
  groups := by
    intro id d' tdl hl hnode
    rw [h.lookup] at hl
    split at hl
    · cases hl
      exact ⟨_, h.group hs hd hwf hflow hpos hnode⟩
    · obtain ⟨K, hg⟩ := hs.groups id d' tdl hl hnode
      exact ⟨K, h.groupFits hs.closed hg⟩

theorem KnownRun.sound (h : KnownRun SimpleFlow kn) : kn.Sound := by
  induction h with
  | nil =>
    have hnil : ∀ ts, findConstructors [] ts = [] := fun _ => rfl
    refine ⟨KnownMap.closed_nil, fun ts j => neg_of_no_constructors (hnil ts), ?_⟩
    intro id d tdl hl; cases hl
  | add _ hd hwf hflow hok ih =>
    obtain ⟨hadd, hpos, _⟩ := knownAddDecl_ok hok
    exact hadd.sound ih hd hwf hflow hpos

/-! ### The invariant gives positivity -/

theorem subtypes_vars {s : TySymbol} {w : List TvSymbol}
    (h : .tyapp s l ∈ (Ty.tyapp ts (w.map .tyvar)).subtypes) : s = ts ∧ l = w.map .tyvar := by
  rcases Ty.mem_subtypes_tyapp.mp h with heq | ⟨t, ht, h⟩
  · cases heq
    exact ⟨rfl, rfl⟩
  · obtain ⟨v, _, rfl⟩ := mem_map.mp ht
    simp [Ty.subtypes] at h

/-- The type that `ts_extract_pos` looks at, with a parameter marked that it does
not refuse. -/
theorem KnownMap.Sound.marked_param (hs : kn.Sound) (hnd : ts.tsArgs.Nodup) {v : TvSymbol}
    (hj : ts.tsArgs[j]? = some v) (hpos : (tsExtractPos kn ts)[j]? = some true) :
    Marked kn (fun _ => True) (fun _ => False) (· = v) (.tyapp ts (ts.tsArgs.map .tyvar)) := by
  refine ⟨?_, fun _ _ => trivial, ?_⟩
  · intro s l h
    obtain ⟨rfl, rfl⟩ := subtypes_vars h
    exact length_map ..
  · intro s l h k u hu hneg
    obtain ⟨rfl, rfl⟩ := subtypes_vars h
    rintro (⟨_, _, hF⟩ | ⟨w, hw, rfl⟩)
    · exact hF
    · rw [List.getElem?_map, Option.map_eq_some_iff] at hu
      obtain ⟨x, hx, rfl⟩ := hu
      rw [Ty.freevars, mem_singleton] at hw
      subst hw
      have hkj : k = j := by
        refine (List.getElem?_inj (List.getElem?_eq_some_iff.mp hx).1 hnd).mp ?_
        rw [hx, hj]
      subst hkj
      rw [tsExtractPos_of_neg hs.closed hs.simple hneg] at hpos
      cases hpos

theorem KnownMap.Sound.positive (hs : kn.Sound) : Positive kn where
  types := by
    intro id d tdl hl hnode a ha ty hty
    obtain ⟨K, hg⟩ := hs.groups id d tdl hl hnode
    exact (Marked.unfolds hg.fits hty (hg.marked a ha)).not_bad
  polarity := by
    intro ts hnd j v hj hpos ty hty
    have hfits : Fits kn (fun _ => True) (fun _ => False) := by
      refine ⟨fun ts _ => hs.closed.wf ts, fun ts _ => hs.closed.bound ts, ?_, ?_, ?_⟩
      · exact fun _ _ _ _ _ _ _ _ => trivial
      · exact fun _ _ _ _ _ _ _ _ _ => id
      · exact fun _ _ _ _ _ _ _ _ _ _ _ _ _ _ _ => id
    exact (Marked.unfolds hfits hty (hs.marked_param hnd hj hpos)).not_bad

end Invariant

/-- When no declaration hides a flow, all the declared types are positive. -/
theorem positive_of_simpleFlow {kn : KnownMap} (h : KnownRun SimpleFlow kn) : Positive kn :=
  h.sound.positive

namespace Lists

def listDecl : Decl :=
  ⟨.ddata [(tsList, [(fsNil, []), (fsCons, [none, none])])], [103, 102, 100]⟩

theorem createDataDecl_list :
    createDataDecl [(tsList, [(fsNil, []), (fsCons, [none, none])])] = .ok listDecl := rfl

theorem argTypes_list : listDecl.argTypes = fsCons.lsArgs := rfl

theorem wf_of_argTypes_list : ∀ a ∈ listDecl.argTypes, a.Wf := by
  intro a ha s l hs
  rw [argTypes_list] at ha
  simp only [fsCons, mem_cons, not_mem_nil, or_false] at ha
  rcases ha with rfl | rfl
  · simp [Ty.subtypes] at hs
  · obtain ⟨rfl, rfl⟩ := subtypes_vars (w := tsList.tsArgs) hs
    rfl

end Lists

/-! ## A hidden flow

`type t 'a 'b = A (t 'b 'a) | B ('a -> int)` and `type u = K (t int u)` are
accepted: the second parameter of `t` flows to the left of an arrow, but only
through `t` itself, with the parameters exchanged. -/

namespace Swap

def tvA : TvSymbol := ⟨101⟩
def tvB : TvSymbol := ⟨102⟩
def tsT : TySymbol := ⟨100, [tvA, tvB], .noDef⟩
def tyT (a b : Ty) : Ty := .tyapp tsT [a, b]
def csA : LSymbol :=
  ⟨103, [tyT (.tyvar tvB) (.tyvar tvA)], some (tyT (.tyvar tvA) (.tyvar tvB)), 2, false⟩
def csB : LSymbol :=
  ⟨104, [tyFunc (.tyvar tvA) tyInt], some (tyT (.tyvar tvA) (.tyvar tvB)), 2, false⟩
def tsU : TySymbol := ⟨105, [], .noDef⟩
def tyU : Ty := .tyapp tsU []
def csK : LSymbol := ⟨106, [tyT tyInt tyU], some tyU, 1, false⟩

def declT : Decl := ⟨.ddata [(tsT, [(csA, [none]), (csB, [none])])], [104, 103, 100]⟩
def declU : Decl := ⟨.ddata [(tsU, [(csK, [none])])], [106, 105]⟩

/-- The known map after `int`, the arrow, `t` and `u`. -/
def known : KnownMap :=
  [(106, declU), (105, declU), (104, declT), (103, declT), (100, declT),
    (6, createTyDecl tsFunc), (0, createTyDecl tsInt)]

def headOk : Ty → Bool
  | .tyvar _ => true
  | .tyapp s l => decide (l.length = s.tsArgs.length)

/-- Every type in the argument types of the two declarations has the right
number of arguments. -/
theorem wf_args {a : Ty} (ha : a ∈ declT.argTypes ++ declU.argTypes) : a.Wf := by
  have hall : ∀ a ∈ declT.argTypes ++ declU.argTypes, ∀ x ∈ a.subtypes, headOk x = true := by
    decide
  intro s l hs
  exact of_decide_eq_true (hall a ha _ hs)

theorem createDataDecl_t :
    createDataDecl [(tsT, [(csA, [none]), (csB, [none])])] = .ok declT := rfl

theorem createDataDecl_u : createDataDecl [(tsU, [(csK, [none])])] = .ok declU := rfl

theorem knownRun_swap : KnownRun (fun _ _ => True) known := by
  have h₁ : KnownRun (fun _ _ => True) _ :=
    .add (k := 200) .nil (.ty tsInt) (fun a ha => by cases ha) trivial rfl
  have h₂ : KnownRun (fun _ _ => True) _ :=
    .add (k := 200) h₁ (.ty tsFunc) (fun a ha => by cases ha) trivial rfl
  have h₃ : KnownRun (fun _ _ => True) _ :=
    .add (k := 200) h₂ (.data createDataDecl_t)
      (fun a ha => wf_args (mem_append_left _ ha)) trivial rfl
  exact .add (k := 200) h₃ (.data createDataDecl_u)
      (fun a ha => wf_args (mem_append_right _ ha)) trivial rfl

theorem not_positive_of_hidden_flow : ¬ ∀ kn, KnownRun (fun _ _ => True) kn → Positive kn := by
  intro h
  have hpos := (h known knownRun_swap).types 105 declU _ rfl rfl (tyT tyInt tyU)
    mem_cons_self (tyFunc tyU tyInt) ?_
  · refine hpos ⟨tsFunc, [tyU, tyInt], Ty.self_mem_subtypes _, 0, tyU, rfl, .inl ⟨rfl, rfl⟩, ?_⟩
    exact .inl ⟨tsU, by decide, by decide⟩
  · -- `t int u`, then `t u int` by `A`, then `u -> int` by `B`
    have hA : Unfold known (tyT tyInt tyU) (tyT tyU tyInt) :=
      .head (c := (csA, [none])) (a := tyT (.tyvar tvB) (.tyvar tvA)) (by decide) (by decide)
    have hB : Unfold known (tyT tyU tyInt) (tyFunc tyU tyInt) :=
      .head (c := (csB, [none])) (a := tyFunc (.tyvar tvA) tyInt) (by decide) (by decide)
    exact (Relation.ReflTransGen.single hA).tail hB

/-! When `A` does not exchange the parameters, only the first one is refused, along a path that
does not come back to `t`, and the declaration of `u` is positive. -/

def csStraight : LSymbol :=
  ⟨103, [tyT (.tyvar tvA) (.tyvar tvB)], some (tyT (.tyvar tvA) (.tyvar tvB)), 2, false⟩

def declStraight : Decl := ⟨.ddata [(tsT, [(csStraight, [none]), (csB, [none])])], [104, 103, 100]⟩

def declared : KnownMap :=
  [(104, declStraight), (103, declStraight), (100, declStraight),
    (6, createTyDecl tsFunc), (0, createTyDecl tsInt)]

def knownStraight : KnownMap := (106, declU) :: (105, declU) :: declared

theorem createDataDecl_straight :
    createDataDecl [(tsT, [(csStraight, [none]), (csB, [none])])] = .ok declStraight := rfl

theorem wf_argsStraight {a : Ty} (ha : a ∈ declStraight.argTypes) : a.Wf := by
  have hall : ∀ a ∈ declStraight.argTypes, ∀ x ∈ a.subtypes, headOk x = true := by decide
  intro s l hs
  exact of_decide_eq_true (hall a ha _ hs)

section Straight

variable {kn : KnownMap} {ts : TySymbol} {j : ℕ}

theorem straight_neg (hkn : findConstructors kn tsT = [(csStraight, [none]), (csB, [none])])
    (h : Neg kn ts j) : ts = tsT → j = 0 := by
  induction h with
  | func => exact fun _ => rfl
  | abstract _ hnil _ =>
    rintro rfl
    rw [hkn] at hnil
    cases hnil
  | @flow ts c a s l v j k u hc ha hs hu hv hj _ ih =>
    rintro rfl
    rw [hkn] at hc
    simp only [mem_cons, not_mem_nil, or_false] at hc
    rcases hc with rfl | rfl
    · obtain rfl := mem_singleton.mp ha
      obtain ⟨rfl, rfl⟩ := subtypes_vars (w := [tvA, tvB]) hs
      obtain rfl := ih rfl
      cases hu
      obtain rfl := mem_singleton.mp hv
      exact (List.getElem?_inj (List.getElem?_eq_some_iff.mp hj).1 (by decide)).mp hj
    · obtain rfl := mem_singleton.mp ha
      rcases Ty.mem_subtypes_tyapp.mp hs with heq | ⟨t, ht, hs⟩
      · cases heq
        match k, hu with
        | 0, hu =>
          cases hu
          obtain rfl := mem_singleton.mp hv
          exact (List.getElem?_inj (List.getElem?_eq_some_iff.mp hj).1 (by decide)).mp hj
        | 1, hu =>
          cases hu
          cases hv
      · simp only [mem_cons, not_mem_nil, or_false] at ht
        rcases ht with rfl | rfl
        · simp [Ty.subtypes] at hs
        · obtain ⟨-, rfl⟩ := subtypes_vars (w := []) hs
          cases hu

theorem straight_simple
    (hkn : findConstructors kn tsT = [(csStraight, [none]), (csB, [none])]) :
    SimpleNeg kn [] tsT 0 := by
  refine .flow (c := (csB, [none])) (a := tyFunc (.tyvar tvA) tyInt) (v := tvA) (k := 0)
    (by simp) (by decide) ?_ (by decide) (Ty.self_mem_subtypes _) rfl (mem_singleton_self _) rfl
    .func
  rw [hkn]
  decide

theorem simpleFlow_straight : SimpleFlow [(6, createTyDecl tsFunc), (0, createTyDecl tsInt)]
    declStraight := by
  intro tdl htdl td htd j hneg
  cases htdl
  obtain rfl := mem_singleton.mp htd
  obtain rfl := straight_neg (by decide) hneg rfl
  exact straight_simple (by decide)

theorem simpleFlow_u : SimpleFlow declared declU := by
  intro tdl htdl td htd j hneg
  cases htdl
  obtain rfl := mem_singleton.mp htd
  -- `u` has no parameter
  cases hneg with
  | abstract _ _ hj => cases hj
  | flow _ _ _ _ _ hj => cases hj

end Straight

theorem positive_straight : Positive knownStraight := by
  have h₁ : KnownRun SimpleFlow _ :=
    .add (k := 200) .nil (.ty tsInt) (fun a ha => by cases ha) (fun _ h => by cases h) rfl
  have h₂ : KnownRun SimpleFlow _ :=
    .add (k := 200) h₁ (.ty tsFunc) (fun a ha => by cases ha) (fun _ h => by cases h) rfl
  have h₃ : KnownRun SimpleFlow declared :=
    .add (k := 200) h₂ (.data createDataDecl_straight)
      (fun a ha => wf_argsStraight ha) simpleFlow_straight rfl
  have h₄ : KnownRun SimpleFlow knownStraight :=
    .add (k := 200) h₃ (.data createDataDecl_u) (fun a ha => wf_args (mem_append_right _ ha))
      simpleFlow_u rfl
  exact positive_of_simpleFlow h₄

end Swap

end Why3
