import Why3.Core.TaskRun
import Why3.Core.TermSimp
import Why3.Core.Validity

/-!
# Typed tasks

The terms of a task are built with the constructors of terms, and its definitions by
`make_ls_defn`.  The symbols of a declaration are its own or those that it uses, so that a
symbol does not occur before its declaration.
-/

namespace Why3

open Checks List

variable {ls s : LSymbol} {d : Decl} {f : Term}

/-- The axiom of a definition, as `make_ls_defn` builds it. -/
def defnAxiom (ls : LSymbol) (vl : List VSymbol) (e : Term) : Term :=
  let hd := Term.tapp [] ls (vl.map (Term.tvar [])) e.tTy
  tQuant .tforall vl [] (match e.tTy with
    | some _ => tEqu hd e
    | none => .tbinop [] .tiff hd e)

structure Decl.Typed (sig : TySymbol → List LSymbol) (d : Decl) : Prop where
  wt : ∀ f ∈ declTerms d, f.Wt sig
  wf : ∀ f ∈ declTerms d, ∀ ty ∈ f.types, ty.Wf
  defn : ∀ ldl, d.dNode = .dlogic ldl → ∀ ld ∈ ldl, ∃ vl e, ld.2.ldAxiom = defnAxiom ld.1 vl e

theorem openLsDefn_defnAxiom {ld : LsDefn} {vl : List VSymbol} {e : Term}
    (h : ld.ldAxiom = defnAxiom ls vl e) : openLsDefn ld = some (vl, e) := by
  unfold openLsDefn
  rw [h, defnAxiom, tQuant]
  by_cases hvl : vl = []
  · rw [if_pos hvl, hvl]
    cases e.tTy <;> rfl
  · rw [if_neg hvl]
    cases e.tTy <;> rfl

theorem symbols_defnAxiom {vl : List VSymbol} {e : Term} (h : s ∈ (defnAxiom ls vl e).symbols) :
    s = ls ∨ s = psEqu ∨ s ∈ e.symbols := by
  have hvars : Term.symbolsList (vl.map (Term.tvar [])) = [] := by
    rw [Term.symbolsList_eq, flatMap_eq_nil_iff]
    intro t ht
    obtain ⟨v, -, rfl⟩ := mem_map.mp ht
    rfl
  have hbody : (defnAxiom ls vl e).symbols = (match e.tTy with
    | some _ => psEqu :: ls :: e.symbols
    | none => ls :: e.symbols) := by
    unfold defnAxiom tQuant
    split_ifs <;> cases e.tTy <;>
      simp [tEqu, Term.symbols, Term.symbolsList, Term.symbolsTriggers, hvars]
  rw [hbody] at h
  cases hty : e.tTy with
  | none =>
    rw [hty] at h
    rcases mem_cons.mp h with h | h
    · exact .inl h
    · exact .inr (.inr h)
  | some ty =>
    rw [hty] at h
    simp only [mem_cons] at h
    tauto

/-! ## The symbols of a declaration -/

section Data

variable {tss : List TySymbol}

theorem checkConstr_news {ts : TySymbol} {ty : Ty} {cll : ℕ} {pjs : List LSymbol}
    {news news' : List ℕ} {c : Constructor} (h : checkConstr tss ts ty cll pjs news c = .ok news') :
    news' = c.1.lsName :: news := by
  unfold checkConstr at h
  simp only at h
  split at h
  · cases h
  · simp only [bind_eq_ok] at h
    obtain ⟨u, _, fsPjs, _, h⟩ := h
    split at h
    · cases h
    · split at h
      · cases h
      · rw [bind_eq_ok] at h
        obtain ⟨u, _, h⟩ := h
        exact newsId_ok h

/-- The constructors and projections of a type get names. -/
theorem checkDataDecl_news {news news' : List ℕ} {td : DataDecl}
    (h : checkDataDecl tss news td = .ok news') : news ⊆ news' ∧
      ∀ c ∈ td.2, ∀ s ∈ c.1 :: c.2.reduceOption, s.lsName ∈ news' := by
  obtain ⟨ts, cl⟩ := td
  unfold checkDataDecl at h
  simp only at h
  split at h
  · cases h
  · split at h
    · cases h
    · simp only [bind_eq_ok] at h
      obtain ⟨news₁, hn, news₂, hp, h⟩ := h
      obtain ⟨h₂, hpj⟩ := foldlM_all (M := (· ⊆ ·)) (P := fun (pj : LSymbol) news => pj.lsName ∈ news)
        List.Subset.refl List.Subset.trans (fun h hM => hM h) (fun hstep => by
          rw [newsId_ok hstep]
          exact ⟨subset_cons_self _ _, mem_cons_self⟩) hp
      obtain ⟨h₃, hcs⟩ := foldlM_all (M := (· ⊆ ·))
        (P := fun (c : Constructor) news => c.1.lsName ∈ news)
        List.Subset.refl List.Subset.trans (fun h hM => hM h) (fun hstep => by
          rw [checkConstr_news hstep]
          exact ⟨subset_cons_self _ _, mem_cons_self⟩) h
      obtain rfl := newsId_ok hn
      refine ⟨fun x hx => h₃ (h₂ (mem_cons_of_mem _ hx)), fun c hc s hs => ?_⟩
      rcases mem_cons.mp hs with rfl | hs
      · exact hcs c hc
      · refine h₃ (hpj s ?_)
        rw [slsOfList, mem_insertionSort, mem_dedup]
        exact mem_flatMap.mpr ⟨c, hc, hs⟩

theorem data_news {tdl : List DataDecl} (h : createDataDecl tdl = .ok d) :
    ∀ td ∈ tdl, ∀ c ∈ td.2, ∀ s ∈ c.1 :: c.2.reduceOption, s.lsName ∈ d.dNews := by
  unfold createDataDecl at h
  split at h
  · cases h
  · rw [bind_eq_ok] at h
    obtain ⟨news, hf, h⟩ := h
    cases h
    exact (foldlM_all (M := (· ⊆ ·))
      (P := fun (td : DataDecl) news => ∀ c ∈ td.2, ∀ s ∈ c.1 :: c.2.reduceOption, s.lsName ∈ news)
      List.Subset.refl List.Subset.trans (fun hP hM c hc s hs => hM (hP c hc s hs))
      checkDataDecl_news hf).2

end Data

theorem logic_news {ldl : List (LSymbol × LsDefn)} (h : createLogicDecl ldl = .ok d)
    {ldl' : List (LSymbol × LsDefn)} (hnode : d.dNode = .dlogic ldl') :
    ∀ ld ∈ ldl', ld.1.lsName ∈ d.dNews := by
  unfold createLogicDecl at h
  split at h
  · cases h
  · obtain ⟨news, hf, h⟩ := bind_eq_ok.1 h
    split at h
    · next ldl₁ hterm =>
        cases h
        cases hnode
        have hnews := (foldlM_all (M := (· ⊆ ·))
          (P := fun (ld : LSymbol × LsDefn) news => ld.1.lsName ∈ news)
          List.Subset.refl List.Subset.trans (fun h hM => hM h) (fun hstep => by
            unfold checkLogicDecl at hstep
            split_ifs at hstep
            rw [newsId_ok hstep]
            exact ⟨subset_cons_self _ _, mem_cons_self⟩) hf).2
        obtain ⟨syms, _, hterm⟩ := bind_eq_ok.1 hterm
        obtain ⟨res, _, hterm⟩ := bind_eq_ok.1 hterm
        cases hterm
        intro ld hld
        obtain ⟨ld₀, hld₀, rfl⟩ := mem_map.mp hld
        exact hnews ld₀ hld₀
    · cases h

theorem createPropDecl_ok {k k' : PropKind} {p p' : PrSymbol} {f' : Term}
    (h : createPropDecl k p f = .ok d) (hnode : d.dNode = .dprop k' p' f') :
    f'.freeVars = [] ∧ f'.tTy = none := by
  obtain ⟨g, hg, h⟩ := bind_eq_ok.1 h
  cases h
  cases hnode
  unfold checkFvs at hg
  split at hg
  · cases hg
  · next hfv =>
      split_ifs at hg with hty
      cases hg
      exact ⟨hfv, by simpa using hty⟩

theorem ind_values {s : IndSign} {idl : List (LSymbol × List (PrSymbol × Term))}
    (h : createIndDecl s idl = .ok d) : ∀ id ∈ idl, id.1.lsValue = none := by
  unfold createIndDecl at h
  split at h
  · cases h
  · obtain ⟨news, hf, h⟩ := bind_eq_ok.1 h
    exact (foldlM_all (M := fun _ _ => True)
      (P := fun (id : LSymbol × List (PrSymbol × Term)) _ => id.1.lsValue = none)
      (fun _ => trivial) (fun _ _ => trivial) (fun h _ => h) (fun hstep => by
        unfold checkIndDecl at hstep
        split_ifs at hstep with _ hval
        exact ⟨trivial, by simpa using hval⟩) hf).2

theorem symsTerm_symbols (h : s ∈ f.symbols) : s.lsName ∈ symsTerm f :=
  mem_append_right _ (mem_map_of_mem h)

/-- A function symbol of a declaration is the equality, one that it uses, or its own. -/
theorem symbol_known {sig : TySymbol → List LSymbol} (hd : d.Created) (hty : d.Typed sig)
    (hval : s.lsValue ≠ none) (hs : s ∈ d.lsymbols) :
    s = psEqu ∨ s.lsName ∈ getUsedSymsDecl d ∨ s.lsName ∈ d.dNews := by
  cases hd with
  | ty ts => cases hs
  | data h =>
    have hnode := (createDataDecl_ok h).1
    unfold Decl.lsymbols at hs
    rw [hnode] at hs
    obtain ⟨td, htd, hs⟩ := mem_flatMap.mp hs
    obtain ⟨c, hc, hs⟩ := mem_flatMap.mp hs
    exact .inr (.inr (data_news h td htd c hc s hs))
  | @param ls _ h =>
    unfold createParamDecl at h
    split_ifs at h
    cases h
    obtain rfl := mem_singleton.mp hs
    exact .inr (.inr (mem_singleton_self _))
  | logic h =>
    obtain ⟨node, news⟩ := d
    have hlogic : ∃ ldl, node = .dlogic ldl := by
      unfold createLogicDecl at h
      split at h
      · cases h
      · obtain ⟨news, -, h⟩ := bind_eq_ok.1 h
        split at h <;> cases h
        exact ⟨_, rfl⟩
    obtain ⟨ldl, rfl⟩ := hlogic
    obtain ⟨ld, hld, hs⟩ := mem_flatMap.mp hs
    have hown : ld.1.lsName ∈ news := logic_news h rfl ld hld
    rcases mem_cons.mp hs with rfl | hs
    · exact .inr (.inr hown)
    · obtain ⟨vl, e, hax⟩ := hty.defn ldl rfl ld hld
      rw [hax] at hs
      rcases symbols_defnAxiom hs with rfl | rfl | hs
      · exact .inr (.inr hown)
      · exact .inl rfl
      · refine .inr (.inl (mem_flatMap.mpr ⟨ld, hld, mem_append_right _ ?_⟩))
        rw [openLsDefn_defnAxiom hax]
        exact symsTerm_symbols hs
  | @ind sg idl _ h =>
    have hvals := ind_values h
    unfold createIndDecl at h
    split at h
    · cases h
    · obtain ⟨news, -, h⟩ := bind_eq_ok.1 h
      cases h
      obtain ⟨id, hid, hs⟩ := mem_flatMap.mp hs
      rcases mem_cons.mp hs with rfl | hs
      · exact absurd (hvals id hid) hval
      · obtain ⟨ax, hax, hs⟩ := mem_flatMap.mp hs
        exact .inr (.inl (mem_flatMap.mpr ⟨id, hid,
          mem_flatMap.mpr ⟨ax, hax, symsTerm_symbols hs⟩⟩))
  | prop h =>
    obtain ⟨f, _, h⟩ := bind_eq_ok.1 h
    cases h
    exact .inr (.inl (symsTerm_symbols hs))

/-- A function symbol does not occur before its declaration. -/
theorem Later.not_mem {sig : TySymbol → List LSymbol} {d₀ : Decl} (h : Later d d₀)
    (hd₀ : d₀.Created) (hty : d₀.Typed sig) (hval : s.lsValue ≠ none) (hne : s ≠ psEqu)
    (hs : s.lsName ∈ d.dNews) : s ∉ d₀.lsymbols := by
  intro hmem
  rcases symbol_known hd₀ hty hval hmem with h' | h' | h'
  · exact hne h'
  · exact (h _ hs).1 h'
  · exact (h _ hs).2 h'

/-! ## Typed tasks -/

structure Task.Typed (sig : TySymbol → List LSymbol) (t : Task) : Prop where
  decls : ∀ d ∈ Task.declsOf t.tdecls, d.Typed sig
  /-- The constructors are marked as such. -/
  constr : ∀ ts, ∀ s ∈ sig ts, s.lsConstr ≠ 0

theorem param_eq (hd : d.Created) (hnode : d.dNode = .dparam ls) :
    d.dNews = [ls.lsName] ∧ ls.lsConstr = 0 := by
  have hby := hd.byNode
  unfold Decl.ByNode at hby
  rw [hnode] at hby
  have h : createParamDecl ls = .ok d := hby
  unfold createParamDecl at h
  split_ifs at h with hls
  cases h
  exact ⟨rfl, not_not.mp (not_or.mp hls).1⟩

theorem prop_eq (hd : d.Created) {k : PropKind} {pr : PrSymbol} (hnode : d.dNode = .dprop k pr f) :
    f.freeVars = [] ∧ f.tTy = none := by
  have h := hd.byNode
  unfold Decl.ByNode at h
  rw [hnode] at h
  exact createPropDecl_ok h hnode

/-- The termination check keeps the definitions. -/
theorem logic_ok {ldl : List (LSymbol × LsDefn)} (h : createLogicDecl ldl = .ok d) :
    ∃ ldl', d.dNode = .dlogic ldl' ∧
      ∀ ld' ∈ ldl', ∃ ld ∈ ldl, ld'.1 = ld.1 ∧ ld'.2.ldAxiom = ld.2.ldAxiom := by
  unfold createLogicDecl at h
  split at h
  · cases h
  · obtain ⟨news, -, h⟩ := bind_eq_ok.1 h
    split at h
    · next ldl' hterm =>
        cases h
        obtain ⟨syms, -, hterm⟩ := bind_eq_ok.1 hterm
        obtain ⟨res, -, hterm⟩ := bind_eq_ok.1 hterm
        cases hterm
        refine ⟨_, rfl, fun ld' hld' => ?_⟩
        obtain ⟨ld, hld, rfl⟩ := mem_map.mp hld'
        exact ⟨ld, hld, rfl, rfl⟩
    · cases h

end Why3
