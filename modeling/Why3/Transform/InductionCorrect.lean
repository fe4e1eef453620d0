import Why3.Transform.Induction
import Why3.Core.StandardInts
import Why3.Core.TypedTask

/-!
# Induction on an integer is sound where it generalises enough

The induction hypothesis generalises the constants of some declarations and has these
declarations as premises.  It holds where the goal holds in every model that differs in
the integer and in these constants only: the bound and the other declarations must not
mention them.
-/

namespace Why3

open List Function Term Interp PolyInterp Why3.Task Why3.Trans

variable {α : Type} {d : Decl} {g : Term} {dl ds : List Decl} {fixed : List LSymbol} {init : Task}
variable {goal : Term} {f : Term} {s : List LSymbol} {l : List Decl} {st : RecState}

namespace IntInduction

open PropKind Checks

/-! ## The collected symbols -/

theorem addLsList_eq (s : List LSymbol) (tl : List Term) : addLsList s tl = tl.foldl addLsTerm s := by
  induction tl generalizing s with
  | nil => rfl
  | cons t tl ih => rw [addLsList, ih, foldl_cons]

theorem addLsBranches_eq (s : List LSymbol) (bl : List (Pattern × Term)) :
    addLsBranches s bl = bl.foldl (fun s b => addLsTerm s b.2) s := by
  induction bl generalizing s with
  | nil => rfl
  | cons b bl ih => rw [addLsBranches, ih, foldl_cons]

theorem addLsTriggers_eq (s : List LSymbol) (trl : List (List Term)) :
    addLsTriggers s trl = trl.foldl (fun s tr => tr.foldl addLsTerm s) s := by
  induction trl generalizing s with
  | nil => rfl
  | cons tr trl ih => rw [addLsTriggers, ih, addLsList_eq, foldl_cons]

theorem foldl_collects {f : List LSymbol → α → List LSymbol} {c : LSymbol} {Q : α → Prop}
    {l : List α} (h : ∀ a ∈ l, ∀ s, c ∈ s ∨ Q a → c ∈ f s a) :
    ∀ s, (c ∈ s ∨ ∃ a ∈ l, Q a) → c ∈ l.foldl f s := by
  induction l with
  | nil =>
    rintro s (hs | ⟨a, ha, -⟩)
    · exact hs
    · cases ha
  | cons a l ih =>
    rw [forall_mem_cons] at h
    intro s hs
    refine ih h.2 (f s a) ?_
    rcases hs with hs | ⟨b, hb, hq⟩
    · exact .inl (h.1 s (.inl hs))
    · rcases mem_cons.mp hb with rfl | hb
      · exact .inl (h.1 s (.inr hq))
      · exact .inr ⟨b, hb, hq⟩

theorem patternSymbolsList_eq (pl : List Pattern) :
    Pattern.symbolsList pl = pl.flatMap Pattern.symbols := by
  induction pl with
  | nil => rfl
  | cons p pl ih => rw [Pattern.symbolsList, ih, flatMap_cons]

theorem not_mem_pattern {sig : TySymbol → List LSymbol} {c : LSymbol} (hsig : ∀ ts, c ∉ sig ts)
    {p : Pattern} : p.Ok sig → c ∉ p.symbols := by
  induction p with
  | pwild ty | pvar v => exact fun _ => not_mem_nil
  | papp s pl ty ih =>
    intro hok hc
    simp only [Pattern.Ok, Pattern.okList_iff] at hok
    rw [Pattern.symbols, patternSymbolsList_eq, mem_cons, mem_flatMap] at hc
    rcases hc with rfl | ⟨p, hp, hc⟩
    · cases ty with
      | tyvar v => cases hok.1
      | tyapp ts l => exact hsig ts hok.1
    · exact ih p hp (hok.2.2 p hp) hc
  | por p q hp hq =>
    intro hok hc
    rcases mem_append.mp hc with hc | hc
    · exact hp hok.1 hc
    · exact hq hok.2.1 hc
  | pas p v ih => exact fun hok hc => ih hok.1 hc

theorem mem_addLsTerm {sig : TySymbol → List LSymbol} {c : LSymbol} (hc : c.lsArgs = [])
    (hsig : ∀ ts, c ∉ sig ts) {t : Term} : t.Wt sig → ∀ s, (c ∈ s ∨ c ∈ t.symbols) →
      c ∈ addLsTerm s t := by
  induction t with
  | tapp a ls tl ty ih =>
    intro hwt s hs
    simp only [Wt, wtList_iff] at hwt
    rw [Term.symbols, Term.symbolsList_eq, mem_cons, mem_flatMap] at hs
    rw [addLsTerm]
    split
    · next hnil =>
        rw [isEmpty_iff.mp hnil] at hs
        rcases hs with hs | rfl | ⟨t, ht, -⟩
        · exact mem_cons_of_mem _ hs
        · exact mem_cons_self
        · cases ht
    · next hnil =>
        rw [addLsList_eq]
        refine foldl_collects (fun t ht s hs => ih t ht (hwt.2 t ht) s hs) s ?_
        rcases hs with hs | rfl | ht
        · exact .inl hs
        · have hlen := hwt.1.length
          rw [hc, length_map, length_nil, length_eq_zero_iff] at hlen
          exact absurd (by rw [hlen]; rfl) hnil
        · exact .inr ht
  | tif a f t1 t2 ihf ih1 ih2 =>
    rintro ⟨-, -, hf, h1, h2⟩ s hs
    simp only [Term.symbols, mem_append] at hs
    rw [addLsTerm]
    refine ih2 h2 _ ?_
    rcases hs with hs | (hs | hs) | hs
    · exact .inl (ih1 h1 _ (.inl (ihf hf _ (.inl hs))))
    · exact .inl (ih1 h1 _ (.inl (ihf hf _ (.inr hs))))
    · exact .inl (ih1 h1 _ (.inr hs))
    · exact .inr hs
  | tlet a t v e iht ihe =>
    rintro ⟨-, ht, he⟩ s hs
    rw [Term.symbols, mem_append] at hs
    rw [addLsTerm]
    refine ihe he _ ?_
    rcases hs with hs | hs | hs
    · exact .inl (iht ht _ (.inl hs))
    · exact .inl (iht ht _ (.inr hs))
    · exact .inr hs
  | tcase a t bl iht ihb =>
    intro hwt s hs
    simp only [Wt, wtBranches_iff] at hwt
    rw [Term.symbols, symbolsBranches_eq, mem_append, mem_flatMap] at hs
    rw [addLsTerm, addLsBranches_eq]
    refine foldl_collects (Q := fun b => c ∈ b.2.symbols)
      (fun b hb s hs => ihb b hb (hwt.2.2 b hb).2.2.2.2 s hs) _ ?_
    rcases hs with hs | hs | ⟨b, hb, hs⟩
    · exact .inl (iht hwt.2.1 _ (.inl hs))
    · exact .inl (iht hwt.2.1 _ (.inr hs))
    · rcases mem_append.mp hs with hs | hs
      · exact absurd hs (not_mem_pattern hsig (hwt.2.2 b hb).2.1)
      · exact .inr ⟨b, hb, hs⟩
  | teps a v f ih | tnot a f ih => exact fun hwt s hs => ih hwt.2 s hs
  | tquant a q vl trl f ihtr ih =>
    intro hwt s hs
    simp only [Wt, wtTriggers_iff] at hwt
    rw [Term.symbols, symbolsTriggers_eq, mem_append, mem_flatMap] at hs
    rw [addLsTerm, addLsTriggers_eq]
    refine ih hwt.2.2 _ ?_
    have htr : c ∈ s ∨ (∃ tr ∈ trl, ∃ t ∈ tr, c ∈ t.symbols) →
        c ∈ trl.foldl (fun s tr => tr.foldl addLsTerm s) s :=
      foldl_collects (Q := fun tr => ∃ t ∈ tr, c ∈ t.symbols) (fun tr htr s hs =>
        foldl_collects (Q := fun t => c ∈ t.symbols)
          (fun t ht s hs => ihtr tr htr t ht (hwt.2.1 tr htr t ht) s hs) s hs) s
    rcases hs with hs | ⟨tr, hmem, hs⟩ | hs
    · exact .inl (htr (.inl hs))
    · exact .inl (htr (.inr ⟨tr, hmem, mem_flatMap.mp hs⟩))
    · exact .inr hs
  | tbinop a op f g ihf ihg =>
    rintro ⟨-, -, hf, hg⟩ s hs
    rw [Term.symbols, mem_append] at hs
    rw [addLsTerm]
    refine ihg hg _ ?_
    rcases hs with hs | hs | hs
    · exact .inl (ihf hf _ (.inl hs))
    · exact .inl (ihf hf _ (.inr hs))
    · exact .inr hs
  | _ =>
    rintro - s (hs | hs)
    · exact hs
    · cases hs

/-! ## The generalised declarations -/

/-- The declarations that are generalised, and those that are left out. -/
def choose (s : List LSymbol) : List Decl → List Decl × List Decl
  | [] => ([], [])
  | d :: l =>
    if meets s d then
      let r := choose (s ++ collectLsymbol [] d) l
      (d :: r.1, r.2)
    else
      let r := choose s l
      (r.1, d :: r.2)

def paramOf (d : Decl) : Option LSymbol :=
  match d.dNode with
  | .dparam ls => some ls
  | _ => none

def hypOf (d : Decl) : Option Term :=
  match d.dNode with
  | .dprop _ _ f => some f
  | _ => none

theorem paramOf_eq {c : LSymbol} : paramOf d = some c ↔ d.dNode = .dparam c := by
  unfold paramOf
  cases d.dNode <;> simp

theorem hypOf_eq : hypOf d = some f ↔ ∃ pk pr, d.dNode = .dprop pk pr f := by
  unfold hypOf
  cases d.dNode <;> simp

theorem mem_choose :
    d ∈ l ↔ d ∈ (choose s l).1 ∨ d ∈ (choose s l).2 := by
  induction l generalizing s with
  | nil => simp [choose]
  | cons d' l ih =>
    rw [choose]
    split
    · simp only [mem_cons, ih (s := s ++ collectLsymbol [] d')]
      tauto
    · simp only [mem_cons, ih (s := s)]
      tauto

/-- What is left out has none of the symbols from the start. -/
theorem not_meets_of_choose (h : d ∈ (choose s l).2) :
    ∀ c ∈ s, c ∉ collectLsymbol [] d := by
  induction l generalizing s with
  | nil => cases h
  | cons d' l ih =>
    rw [choose] at h
    split at h
    · exact fun c hc => ih h c (mem_append_left _ hc)
    · next hmeets =>
        rcases mem_cons.mp h with rfl | h
        · intro c hc hmem
          exact hmeets (any_eq_true.mpr ⟨c, hmem, by simpa using hc⟩)
        · exact ih h

/-- The terms of a declaration after the constant. -/
structure Revertible (sig : TySymbol → List LSymbol) (k : ℕ) (d : Decl) : Prop where
  hyp : ∀ f, hypOf d = some f → f.Wt sig ∧ f.tTy = none ∧ f.freeVars = [] ∧ ∀ v ∈ f.vars, v.vsName < k
  param : ∀ c, paramOf d = some c → ∀ ts, c ∉ sig ts

/-- A formula whose variables have tags below `k`. -/
structure Chosen.Ok (sig : TySymbol → List LSymbol) (acc : Chosen) : Prop where
  wt : acc.g.Wt sig
  ty : acc.g.tTy = none
  vars : ∀ v ∈ acc.g.vars, v.vsName < acc.k

variable {sig : TySymbol → List LSymbol}

/-- A generalised declaration is a closed constant or a hypothesis. -/
theorem revert_cases {k : ℕ} {g' : Term} (h : revert k g d = .ok g') :
    (∃ c ty, paramOf d = some c ∧ hypOf d = none ∧ c.lsArgs = [] ∧ c.lsValue = some ty ∧
      g' = .tquant [] .tforall [⟨k, ty⟩] [] (tReplace (constTerm c) (.tvar [] ⟨k, ty⟩) g)) ∨
    ∃ f, paramOf d = none ∧ hypOf d = some f ∧ g' = .tbinop [] .timplies f g := by
  unfold revert at h
  cases hnode : d.dNode with
  | dparam c =>
    rw [hnode] at h
    simp only at h
    split at h
    · next ty hargs hval =>
        cases h
        exact .inl ⟨c, ty, paramOf_eq.mpr hnode, by rw [hypOf, hnode], hargs, hval, rfl⟩
    · cases h
  | dprop pk pr f =>
    rw [hnode] at h
    simp only at h
    split_ifs at h
    cases h
    exact .inr ⟨f, by rw [paramOf, hnode], hypOf_eq.mpr ⟨pk, pr, hnode⟩, rfl⟩
  | _ =>
    rw [hnode] at h
    cases h

/-- A closed type for the constants that are generalised. -/
def ClosedParams (l : List Decl) : Prop :=
  ∀ d ∈ l, ∀ c, paramOf d = some c → ∀ ty, c.lsValue = some ty → ty.freevars = []

theorem Chosen.Ok.revert {acc : Chosen} (h : acc.Ok sig) {k : ℕ} (hk : k ≤ acc.k)
    (hd : Revertible sig k d) (hcl : ClosedParams [d]) (hg : revert acc.k acc.g d = .ok g)
    (s : List LSymbol) : Chosen.Ok sig ⟨g, s, acc.k + 1⟩ := by
  rcases revert_cases hg with ⟨c, ty, hp, -, hargs, hval, rfl⟩ | ⟨f, -, hf, rfl⟩
  · have hc : c.IsConst ty := ⟨hargs, hval, hcl d (mem_singleton_self d) c hp ty hval⟩
    refine ⟨?_, rfl, ?_⟩
    · simp only [Wt, wtTriggers_iff]
      exact ⟨(tTy_tReplace hc rfl h.wt).trans h.ty, by simp,
        wt_tReplace hc rfl (show (tvar [] ⟨acc.k, ty⟩).Wt sig from trivial) h.wt⟩
    · intro v hv
      simp only [Term.vars, varsTriggers, append_nil, mem_append,
        mem_singleton] at hv
      rcases hv with rfl | hv
      · exact Nat.lt_succ_self _
      · rcases mem_vars_tReplace hv with hv | hv
        · exact Nat.lt_succ_of_lt (h.vars v hv)
        · obtain rfl := mem_singleton.mp hv
          exact Nat.lt_succ_self _
  · obtain ⟨hwt, hty, -, hvars⟩ := hd.hyp f hf
    refine ⟨⟨hty, h.ty, hwt, h.wt⟩, rfl, fun v hv => ?_⟩
    rcases mem_append.mp hv with hv | hv
    · exact Nat.lt_succ_of_lt (lt_of_lt_of_le (hvars v hv) hk)
    · exact Nat.lt_succ_of_lt (h.vars v hv)

section Meaning

variable {M : PolyInterp sig} {P : M.Preds} {τ : TvSymbol → M.U}

/-- The values of the other constants are the same. -/
def Varies (gen : List LSymbol) (C₀ C : M.Consts) : Prop := ∀ s, s ∉ gen → C.val s = C₀.val s

/-- The generalised formula holds if the formula does for all values of the constants for
which the generalised hypotheses hold. -/
theorem holds_of_revertChosenDecls : ∀ {acc acc' : Chosen} {k : ℕ},
    l.foldlM revertChosenDecls acc = .ok acc' → acc.Ok sig → k ≤ acc.k →
    (∀ d ∈ l, Revertible sig k d) → ClosedParams (choose acc.s l).1 →
    l.Pairwise (fun d d' => ∀ c, paramOf d = some c → ∀ f, hypOf d' = some f → c ∉ f.symbols) →
    acc'.Ok sig ∧ acc.k ≤ acc'.k ∧ acc'.k ≤ acc.k + l.length ∧
    ∀ (C₀ : M.Consts) (ρ : VSymbol → M.Val), (M.inst P τ).Typed ρ →
      (∀ (C : M.Consts) (ρ' : VSymbol → M.Val), (M.inst P τ).Typed ρ' →
        Varies ((choose acc.s l).1.filterMap paramOf) C₀ C →
        (∀ f ∈ (choose acc.s l).1.filterMap hypOf, ((M.withConsts C).inst P τ).Holds ρ' f) →
        ((M.withConsts C).inst P τ).Holds ρ' acc.g) →
      ((M.withConsts C₀).inst P τ).Holds ρ acc'.g := by
  induction l with
  | nil =>
    intro acc acc' k h hok _ _ _ _
    cases h
    refine ⟨hok, le_rfl, le_rfl, fun C₀ ρ hρ hall => ?_⟩
    exact hall C₀ ρ hρ (fun _ _ => rfl) (by simp [choose])
  | cons d l ih =>
    intro acc acc' k h hok hk hrev hcl hlater
    rw [foldlM_cons] at h
    obtain ⟨acc₁, h₁, h⟩ := bind_eq_ok.1 h
    rw [forall_mem_cons] at hrev
    obtain ⟨hlater₁, hlater⟩ := pairwise_cons.mp hlater
    unfold revertChosenDecls at h₁
    rw [choose] at hcl ⊢
    split at h₁
    · next hmeets =>
        rw [if_pos hmeets] at hcl ⊢
        obtain ⟨g, hg, h₁⟩ := bind_eq_ok.1 h₁
        cases h₁
        have hcl₁ : ClosedParams [d] := by
          intro d' hd'
          obtain rfl := mem_singleton.mp hd'
          exact hcl d' mem_cons_self
        have hok₁ := hok.revert hk hrev.1 hcl₁ hg (acc.s ++ collectLsymbol [] d)
        obtain ⟨hok', hlow, hhigh, hsem⟩ := ih h hok₁ (Nat.le_succ_of_le hk) hrev.2
          (fun d' hd' => hcl d' (mem_cons_of_mem _ hd')) hlater
        refine ⟨hok', ?_, ?_, fun C₀ ρ hρ hall => ?_⟩
        · exact (Nat.le_succ _).trans hlow
        · rw [length_cons]
          simp only at hhigh
          omega
        refine hsem C₀ ρ hρ fun C ρ' hρ' hvar hhyps => ?_
        rcases revert_cases hg with ⟨c, ty, hp, hnone, hargs, hval, rfl⟩ | ⟨f, hnone, hf, rfl⟩
        · -- the variable has a value, which the constant takes
          intro d₀ hd₀
          have hc : c.IsConst ty := ⟨hargs, hval, hcl₁ d (mem_singleton_self d) c hp ty hval⟩
          have hnc := hrev.1.param c hp
          have hd₁ : M.mem (M.ty τ ty) d₀ := hd₀
          set v : VSymbol := ⟨acc.k, ty⟩
          set C' := C.set c hnc (M.ty τ ty) d₀ hd₁ with hC'
          have hfresh : v ∉ acc.g.vars := fun hmem => lt_irrefl _ (hok.vars v hmem)
          have hρ'' : (M.inst P τ).Typed (update ρ' v d₀) :=
            Interp.typed_update (I := M.inst P τ) hρ' hd₀
          have hst : PolyInterp.Stands M C C' P τ c ty (.tvar [] v) acc.g.vars
              (update ρ' v d₀) := by
            intro ρ₁ hρ₁
            rw [eval_tvar, hρ₁ v hfresh, update_self, hC', PolyInterp.Consts.fn_set]
          have hsame := (sem_tReplace hc rfl hst hok.wt (fun _ h => h)
            (fun s _ hs => (PolyInterp.Consts.val_set_of_ne hs).symm) _ (fun _ _ => rfl)).2 hok.ty
          refine hsame.mpr (hall C' _ hρ'' ?_ ?_)
          · intro s hs
            rw [filterMap_cons, hp] at hs
            simp only [mem_cons, not_or] at hs
            rw [hC', PolyInterp.Consts.val_set_of_ne hs.1]
            exact hvar s hs.2
          · intro f hf
            rw [filterMap_cons, hnone] at hf
            obtain ⟨d', hd', hf'⟩ := mem_filterMap.mp hf
            have hdl : d' ∈ l := mem_choose.mpr (.inl hd')
            have hnot := hlater₁ d' hdl c hp f hf'
            obtain ⟨hwt, -, hfv, -⟩ := (hrev.2 d' hdl).hyp f hf'
            have hcongr : ((M.withConsts C').inst P τ).Holds (update ρ' v d₀) f ↔
                ((M.withConsts C').inst P τ).Holds ρ' f :=
              holds_congr hwt (by rw [hfv]; simp)
            rw [hcongr, Interp.Holds, sem_withConsts (fun s hs => ?_)]
            · exact hhyps f hf
            · refine PolyInterp.Consts.val_set_of_ne ?_
              rintro rfl
              exact hnot hs
        · intro hfh
          refine hall C ρ' hρ' ?_ ?_
          · rw [filterMap_cons, hnone]
            exact hvar
          · rw [filterMap_cons, hf]
            exact forall_mem_cons.mpr ⟨hfh, hhyps⟩
    · next hmeets =>
        rw [if_neg hmeets] at hcl ⊢
        cases h₁
        obtain ⟨hok', hlow, hhigh, hsem⟩ := ih h hok hk hrev.2 hcl hlater
        exact ⟨hok', hlow, hhigh.trans (by simp), hsem⟩

end Meaning

/-! ## The two tasks -/

theorem ofDecl_ok {x : Except DeclExn α} {y : α} (h : ofDecl x = .ok y) : x = .ok y := by
  cases x with
  | ok z =>
    cases h
    rfl
  | error e => cases h

theorem ofApp_ok {x : Option α} {y : α} (h : ofApp x = .ok y) : x = some y := by
  cases x with
  | some z =>
    cases h
    rfl
  | none => cases h

theorem createPropDecl_eq {pk : PropKind} {pr : PrSymbol}
    (h : createPropDecl pk pr f = .ok d) : d = ⟨.dprop pk pr f, [pr.prName]⟩ ∧ f.freeVars = [] := by
  obtain ⟨g, hg, h⟩ := bind_eq_ok.1 h
  unfold checkFvs at hg
  split at hg
  · cases hg
  · next hfv =>
      split_ifs at hg
      cases hg
      cases h
      exact ⟨rfl, hfv⟩

def Decl.IsGoal (d : Decl) : Prop := ∃ pr f, d.dNode = .dprop .pgoal pr f

section Tasks

variable {leInt ltInt lsx : LSymbol} {k : ℕ} {x bound : Term}

theorem initDecl_eq (hd : ¬ Decl.IsGoal d) : initDecl leInt k x bound () d = .ok ((), [d]) := by
  unfold initDecl
  split
  · next pr f hnode => exact absurd ⟨pr, f, hnode⟩ hd
  · rfl

theorem outputs_init {outs : List Decl} (hds : ∀ d ∈ ds, ¬ Decl.IsGoal d)
    (h : outputs (initDecl leInt k x bound) () ds = .ok ((), outs)) : outs = ds := by
  induction ds generalizing outs with
  | nil =>
    cases h
    rfl
  | cons d ds ih =>
    rw [forall_mem_cons] at hds
    obtain ⟨⟨u, dl⟩, hfn, h'⟩ := bind_eq_ok.1 h
    obtain ⟨⟨u', outs'⟩, hrest, h''⟩ := bind_eq_ok.1 h'
    rw [initDecl_eq hds.1, Except.ok.injEq, Prod.mk.injEq] at hfn
    rw [Except.ok.injEq, Prod.mk.injEq] at h''
    rw [← h''.2, ← hfn.2, ih hds.2 hrest]
    rfl

/-- The declarations after that of the constant, the last one first. -/
def after (lsx : LSymbol) (ds : List Decl) : List Decl := ds.takeWhile (fun d => paramOf d ≠ some lsx)

/-- What the recursive case has seen: the constant, or not. -/
def Seen (lsx : LSymbol) (ds : List Decl) (st : RecState) : Prop :=
  if st.xIsPassed then
    ∃ ds₂ dx, paramOf dx = some lsx ∧ ds = st.delta ++ dx :: ds₂ ∧
      ∀ d ∈ st.delta, paramOf d ≠ some lsx ∧ ((paramOf d).isSome ∨ (hypOf d).isSome)
  else st.delta = [] ∧ ∀ d ∈ ds, paramOf d ≠ some lsx

theorem Seen.keep (h : Seen lsx ds st) (hd : paramOf d ≠ some lsx)
    (hkind : (paramOf d).isSome ∨ (hypOf d).isSome) : Seen lsx (d :: ds) (st.keep d) := by
  unfold Seen RecState.keep at *
  by_cases hp : st.xIsPassed = true
  · rw [if_pos hp] at h ⊢
    obtain ⟨ds₂, dx, hdx, rfl, hdelta⟩ := h
    rw [if_pos hp]
    exact ⟨ds₂, dx, hdx, rfl, forall_mem_cons.mpr ⟨⟨hd, hkind⟩, hdelta⟩⟩
  · rw [if_neg hp] at h ⊢
    rw [if_neg hp]
    exact ⟨h.1, forall_mem_cons.mpr ⟨hd, h.2⟩⟩

/-- A step of the recursive case on a declaration that is not the goal. -/
theorem Seen.recDecl {st' : RecState} (h : Seen lsx ds st) (hgoal : ¬ Decl.IsGoal d)
    (hnew : ∀ d' ∈ ds, paramOf d = some lsx → paramOf d' ≠ some lsx)
    (hfn : recDecl ltInt k lsx x bound st d = .ok (st', dl)) :
    dl = [d] ∧ Seen lsx (d :: ds) st' := by
  unfold IntInduction.recDecl at hfn
  cases hnode : d.dNode with
  | dparam ls =>
    rw [hnode] at hfn
    simp only at hfn
    have hp : paramOf d = some ls := paramOf_eq.mpr hnode
    split_ifs at hfn with hls
    · subst hls
      cases hfn
      refine ⟨rfl, ?_⟩
      unfold Seen at *
      by_cases hpass : st.xIsPassed = true
      · rw [if_pos hpass] at h
        obtain ⟨ds₂, dx, hdx, rfl, -⟩ := h
        exact absurd hdx (hnew dx (by simp) hp)
      · rw [if_neg hpass] at h
        rw [if_pos rfl]
        exact ⟨ds, d, hp, by rw [h.1]; rfl, by simp [h.1]⟩
    · cases hfn
      refine ⟨rfl, h.keep (by rw [hp]; simpa using Ne.symm hls) (by simp [hp])⟩
  | dprop pk pr f =>
    have hf : hypOf d = some f := hypOf_eq.mpr ⟨pk, pr, hnode⟩
    have hp : paramOf d ≠ some lsx := by simp [paramOf, hnode]
    rw [hnode] at hfn
    cases pk with
    | pgoal => exact absurd ⟨pr, f, hnode⟩ hgoal
    | _ =>
      cases hfn
      exact ⟨rfl, h.keep hp (by simp [hf])⟩
  | _ =>
    rw [hnode] at hfn
    simp only at hfn
    split_ifs at hfn with hpass
    cases hfn
    refine ⟨rfl, ?_⟩
    unfold Seen at *
    rw [if_neg hpass] at h ⊢
    exact ⟨h.1, forall_mem_cons.mpr ⟨by simp [paramOf, hnode], h.2⟩⟩

theorem outputs_rec : ∀ {ds : List Decl} {st : RecState} {outs : List Decl},
    (∀ d ∈ ds, ¬ Decl.IsGoal d) →
    ds.Pairwise (fun d d' => paramOf d = some lsx → paramOf d' ≠ some lsx) →
    outputs (recDecl ltInt k lsx x bound) ⟨false, []⟩ ds.reverse = .ok (st, outs) →
      outs = ds.reverse ∧ Seen lsx ds st := by
  intro ds
  induction ds with
  | nil =>
    intro st outs _ _ h
    cases h
    exact ⟨rfl, rfl, by simp⟩
  | cons d ds ih =>
    intro st outs hgoal hnew h
    rw [forall_mem_cons] at hgoal
    obtain ⟨hnew₁, hnew⟩ := pairwise_cons.mp hnew
    rw [reverse_cons] at h ⊢
    obtain ⟨st₀, outs₀, dl, houts, hfn, rfl⟩ := outputs_append h
    obtain ⟨rfl, hseen⟩ := ih hgoal.2 hnew houts
    obtain ⟨rfl, hseen'⟩ := hseen.recDecl hgoal.1 hnew₁ hfn
    exact ⟨rfl, hseen'⟩

theorem Seen.after (h : Seen lsx ds st) (hpass : st.xIsPassed = true) :
    st.delta = after lsx ds ∧
      (∃ ds₂ dx, paramOf dx = some lsx ∧ ds = IntInduction.after lsx ds ++ dx :: ds₂) ∧
      ∀ d ∈ IntInduction.after lsx ds, (paramOf d).isSome ∨ (hypOf d).isSome := by
  unfold Seen at h
  rw [if_pos hpass] at h
  obtain ⟨ds₂, dx, hdx, hds, hdelta⟩ := h
  have hafter : IntInduction.after lsx ds = st.delta := by
    rw [hds, IntInduction.after, takeWhile_append_of_pos]
    · simp [hdx]
    · intro d hd
      simpa using (hdelta d hd).1
  rw [hafter]
  exact ⟨rfl, ⟨ds₂, dx, hdx, hds⟩, fun d hd => (hdelta d hd).2⟩

end Tasks

/-! ## Models that differ in the generalised constants -/

section Models

variable {M : PolyInterp sig} {P : M.Preds} {τ τ' : TvSymbol → M.U}

theorem sem_closed {t : Term} (hwt : t.Wt sig) (hwf : ∀ ty ∈ t.types, ty.Wf)
    (hfv : t.freeVars = []) (htv : tTyFreevars t = []) (ρ ρ' : VSymbol → M.Val) :
    (M.inst P τ).sem t ρ = (M.inst P τ').sem t ρ' := by
  have hty : ∀ ty ∈ t.types, M.ty τ ty = M.ty τ' ty := by
    intro ty hmem
    refine Ty.den_congr (hwf ty hmem) fun v hv => ?_
    have hmem' : v ∈ tTyFreevars t := mem_flatMap.mpr ⟨ty, hmem, hv⟩
    rw [htv] at hmem'
    cases hmem'
  rw [sem_inst_congr hty (fun _ _ => rfl) ρ]
  exact sem_congr hwt (by rw [hfv]; simp)

theorem const_of_choose : ∀ {acc acc' : Chosen},
    l.foldlM revertChosenDecls acc = .ok acc' →
      ∀ d ∈ (choose acc.s l).1, ∀ c, paramOf d = some c → c.lsArgs = [] ∧ c.lsValue ≠ none := by
  induction l with
  | nil =>
    intro acc acc' _ d hd
    cases hd
  | cons d l ih =>
    intro acc acc' h
    rw [foldlM_cons] at h
    obtain ⟨acc₁, h₁, h⟩ := bind_eq_ok.1 h
    unfold revertChosenDecls at h₁
    rw [choose]
    split at h₁
    · next hmeets =>
        rw [if_pos hmeets]
        obtain ⟨g, hg, h₁⟩ := bind_eq_ok.1 h₁
        cases h₁
        refine forall_mem_cons.mpr ⟨fun c hc => ?_, ih h⟩
        rcases revert_cases hg with ⟨c', ty, hp, -, hargs, hval, -⟩ | ⟨f, hnone, -⟩
        · rw [hp] at hc
          cases hc
          exact ⟨hargs, by rw [hval]; simp⟩
        · rw [hnone] at hc
          cases hc
    · next hmeets =>
        rw [if_neg hmeets]
        cases h₁
        exact ih h

/-- The declarations up to the goal, with the constant between the others. -/
structure Context (sig : TySymbol → List LSymbol) (lsx : LSymbol) (s : List LSymbol)
    (A : List Decl) (dx : Decl) (B : List Decl) : Prop where
  created : ∀ d ∈ A ++ dx :: B, d.Created
  typed : ∀ d ∈ A ++ dx :: B, d.Typed sig
  later : (A ++ dx :: B).Pairwise Later
  param : paramOf dx = some lsx
  start : lsx ∈ s
  kind : ∀ d ∈ A, (paramOf d).isSome ∨ (hypOf d).isSome
  const : ∀ c ∈ lsx :: (choose s A).1.filterMap paramOf,
    c.lsArgs = [] ∧ c.lsValue ≠ none ∧ ∀ ts, c ∉ sig ts
  /-- The other declarations do not mention what is generalised. -/
  left : ∀ d ∈ (choose s A).2, ∀ c ∈ (choose s A).1.filterMap paramOf, c ∉ collectLsymbol [] d
  mono : ∀ d ∈ (choose s A).1, ∀ f, hypOf d = some f →
    (∃ c ∈ lsx :: (choose s A).1.filterMap paramOf, c ∈ f.symbols) → tTyFreevars f = []

theorem sat_of_paramOf {c : LSymbol} (h : paramOf d = some c) : d.Sat M P := by
  unfold Decl.Sat
  rw [paramOf_eq.mp h]
  trivial

theorem param_once {d' : Decl} (h : Later d d') (hd : d.Created) (hd' : d'.Created) {c : LSymbol}
    (hc : paramOf d = some c) : paramOf d' ≠ some c := by
  intro hc'
  have hnews := (param_eq hd (paramOf_eq.mp hc)).1
  have hnews' := (param_eq hd' (paramOf_eq.mp hc')).1
  refine (h c.lsName ?_).2 ?_
  · rw [hnews]
    exact mem_singleton_self _
  · rw [hnews']
    exact mem_singleton_self _

theorem Context.not_generalised {lsx : LSymbol} {A B : List Decl} {dx : Decl}
    (h : Context sig lsx s A dx B) : lsx ∉ (choose s A).1.filterMap paramOf := by
  intro hmem
  obtain ⟨dc, hdc, hpc⟩ := mem_filterMap.mp hmem
  have hA : dc ∈ A := mem_choose.mpr (.inl hdc)
  have hlater := (pairwise_append.mp h.later).2.2 dc hA dx mem_cons_self
  exact param_once hlater (h.created dc (mem_append_left _ hA)) (h.created dx (by simp)) hpc
    h.param

/-- A change of the generalised constants that keeps the generalised hypotheses gives a model
of all declarations. -/
theorem Context.sat {lsx : LSymbol} {A B : List Decl} {dx : Decl}
    (h : Context sig lsx s A dx B) (hall : ∀ d ∈ A ++ dx :: B, d.Sat M P) {C : M.Consts}
    (hvar : Varies (lsx :: (choose s A).1.filterMap paramOf) M.noConsts C) {ρ : VSymbol → M.Val}
    (hhyps : ∀ f ∈ (choose s A).1.filterMap hypOf, ((M.withConsts C).inst P τ).Holds ρ f) :
    ∀ d ∈ A ++ dx :: B, d.Sat (M.withConsts C) P := by
  have hsame : ∀ d ∈ A ++ dx :: B,
      (∀ c ∈ lsx :: (choose s A).1.filterMap paramOf, c ∉ d.lsymbols) →
        d.Sat (M.withConsts C) P := by
    intro d hd hnot
    refine (Decl.sat_withConsts (C := M.noConsts) fun s hs => ?_).mp (hall d hd)
    exact (hvar s fun hmem => hnot s hmem hs).symm
  intro d hd
  rcases mem_append.mp hd with hdA | hd'
  · rcases h.kind d hdA with hp | hf
    · obtain ⟨c, hp⟩ := Option.isSome_iff_exists.mp hp
      exact sat_of_paramOf hp
    · obtain ⟨f, hf⟩ := Option.isSome_iff_exists.mp hf
      obtain ⟨pk, pr, hnode⟩ := hypOf_eq.mp hf
      have hterm : f ∈ declTerms d := by
        unfold declTerms
        rw [hnode]
        exact mem_singleton_self f
      have hwt := (h.typed d hd).wt f hterm
      rcases mem_choose.mp hdA with hc | hl
      · by_cases hmeets : ∃ c ∈ lsx :: (choose s A).1.filterMap paramOf, c ∈ f.symbols
        · -- a generalised hypothesis has no type variables, so it holds everywhere
          have hholds := hhyps f (mem_filterMap.mpr ⟨d, hc, hf⟩)
          unfold Decl.Sat
          rw [hnode]
          intro _ τ' ρ' _
          rw [Interp.Holds, sem_closed hwt ((h.typed d hd).wf f hterm)
            (prop_eq (h.created d hd) hnode).1 (h.mono d hc f hf hmeets) ρ' ρ]
          exact hholds
        · refine hsame d hd fun c hc hmem => hmeets ⟨c, hc, ?_⟩
          unfold Decl.lsymbols at hmem
          rwa [hnode] at hmem
      · refine hsame d hd fun c hc hmem => ?_
        have hcollect : c ∈ collectLsymbol [] d := by
          unfold Decl.lsymbols at hmem
          unfold collectLsymbol
          rw [hnode] at hmem ⊢
          exact mem_addLsTerm (h.const c hc).1 (h.const c hc).2.2 hwt [] (.inr hmem)
        rcases mem_cons.mp hc with rfl | hc
        · exact not_meets_of_choose hl c h.start hcollect
        · exact h.left d hl c hc hcollect
  · rcases mem_cons.mp hd' with rfl | hdB
    · exact sat_of_paramOf h.param
    · refine hsame d hd fun c hc hmem => ?_
      -- the constant is declared after `d`
      obtain ⟨dc, hdc, hpc⟩ : ∃ dc ∈ A ++ [dx], paramOf dc = some c := by
        rcases mem_cons.mp hc with rfl | hc
        · exact ⟨dx, by simp, h.param⟩
        · obtain ⟨dc, hdc, hpc⟩ := mem_filterMap.mp hc
          exact ⟨dc, mem_append_left _ (mem_choose.mpr (.inl hdc)), hpc⟩
      have hlater : Later dc d := by
        have hpw := h.later
        rw [show A ++ dx :: B = (A ++ [dx]) ++ B by simp] at hpw
        exact (pairwise_append.mp hpw).2.2 dc hdc d hdB
      have hdc' : dc ∈ A ++ dx :: B := by
        rcases mem_append.mp hdc with hA | hx
        · exact mem_append_left _ hA
        · rw [mem_singleton.mp hx]
          simp
      have hnews := (param_eq (h.created dc hdc') (paramOf_eq.mp hpc)).1
      have hconst := h.const c hc
      refine hlater.not_mem (h.created d hd) (h.typed d hd) hconst.2.1 ?_ ?_ hmem
      · rintro rfl
        exact absurd hconst.1 (by simp [psEqu])
      · rw [hnews]
        exact mem_singleton_self _

end Models

/-! ## Strong induction -/

/-- A predicate on two integers. -/
structure IsOrder (ls : LSymbol) : Prop where
  args : ls.lsArgs = [tyInt, tyInt]
  value : ls.lsValue = none

theorem tAppInfer_order {ls : LSymbol} (h : IsOrder ls) {t1 t2 : Term}
    (hf : tAppInfer ls [t1, t2] = some f) : f = .tapp [] ls [t1, t2] none := by
  simp only [tAppInfer, Option.bind_eq_bind, Option.bind_eq_some_iff, Option.some.injEq] at hf
  obtain ⟨m, -, rfl⟩ := hf
  rw [h.value]
  rfl

section Order

variable {M : PolyInterp sig} {P : M.Preds} {τ : TvSymbol → M.U} {ls : LSymbol} {t1 t2 : Term}

theorem holds_order (h : IsOrder ls) (h1 : t1.tTy = some tyInt) (h2 : t2.tTy = some tyInt)
    (ρ : VSymbol → M.Val) : (M.inst P τ).Holds ρ (.tapp [] ls [t1, t2] none) ↔
      P ls [some M.intTy, some M.intTy] [(M.inst P τ).eval ρ t1, (M.inst P τ).eval ρ t2] := by
  have hne : ls ≠ psEqu := by
    rintro rfl
    exact absurd h.args (by decide)
  rw [holds_tapp _ _ _ hne, map_cons, map_cons, map_nil, h1, h2]
  rfl

end Order

/-- The declarations that the induction hypothesis generalises, and those after the constant
that it leaves out. -/
def chosen (lsx : LSymbol) (t : Task) : List Decl × List Decl :=
  match t.findGoal with
  | some (_, g) => choose (addLsTerm [lsx] g) (after lsx (declsOf t.tdecls.tail))
  | none => ([], [])

/-- The constants that the induction hypothesis generalises. -/
def generalised (lsx : LSymbol) (t : Task) : List LSymbol := (chosen lsx t).1.filterMap paramOf

/-- The induction hypothesis generalises all that depends on the integer and on what it
generalises. -/
structure Generalises (lsx : LSymbol) (bound : Term) (t : Task) : Prop where
  boundMono : tTyFreevars bound = []
  boundConst : ∀ c ∈ lsx :: generalised lsx t, c ∉ bound.symbols
  left : ∀ d ∈ (chosen lsx t).2, ∀ c ∈ generalised lsx t, c ∉ collectLsymbol [] d
  hypMono : ∀ d ∈ (chosen lsx t).1, ∀ f, hypOf d = some f →
    (∃ c ∈ lsx :: generalised lsx t, c ∈ f.symbols) → tTyFreevars f = []
  paramMono : ClosedParams (chosen lsx t).1

section Descent

variable {leInt ltInt lsx : LSymbol} {x bound goal : Term} {s : List LSymbol} {A B : List Decl}
  {dx : Decl} {acc : Chosen} {k : ℕ}

/-- The value of the constant. -/
def constVal (M : PolyInterp sig) (lsx : LSymbol) : M.Val := M.fn lsx [] (some M.intTy) []

/-- Some types and some values of the variables. -/
def someTys (M : PolyInterp sig) : TvSymbol → M.U := fun _ => M.intTy

def someVals (M : PolyInterp sig) : VSymbol → M.Val := fun v => M.eps (M.ty (someTys M) v.vsTy) (fun _ => True)

/-- The value of a closed term without type variables. -/
noncomputable def termVal (M : PolyInterp sig) (P : M.Preds) (t : Term) : M.Val :=
  (M.inst P (someTys M)).eval (someVals M) t

/-- What is asked of the bound. -/
structure BoundOk (sig : TySymbol → List LSymbol) (bound : Term) (fixed : List LSymbol) : Prop where
  wt : bound.Wt sig
  wf : ∀ ty ∈ bound.types, ty.Wf
  ty : bound.tTy = some tyInt
  closed : bound.freeVars = []
  mono : tTyFreevars bound = []
  const : ∀ c ∈ fixed, c ∉ bound.symbols

theorem BoundOk.eval (h : BoundOk sig bound fixed) (M : PolyInterp sig) (P : M.Preds)
    (τ : TvSymbol → M.U) (ρ : VSymbol → M.Val) : (M.inst P τ).eval ρ bound = termVal M P bound :=
  congrArg Den.val (sem_closed h.wt h.wf h.closed h.mono ρ _)

theorem BoundOk.mem (h : BoundOk sig bound fixed) (M : PolyInterp sig) (P : M.Preds) :
    M.mem M.intTy (termVal M P bound) :=
  eval_mem (I := M.inst P (someTys M)) h.wt h.ty fun _ => M.eps_mem _ _

theorem BoundOk.withConsts (h : BoundOk sig bound fixed) {M : PolyInterp sig} {P : M.Preds}
    {C : M.Consts} (hvar : Varies fixed M.noConsts C) :
    termVal (M.withConsts C) P bound = termVal M P bound := by
  have hsem : ((M.withConsts C).inst P (someTys M)).sem bound (someVals M) =
      ((M.withConsts M.noConsts).inst P (someTys M)).sem bound (someVals M) :=
    sem_withConsts (fun s hs => hvar s fun hmem => h.const s hmem hs) (someVals M)
  exact congrArg Den.val hsem

/-- The goal holds up to the bound, and where the induction hypothesis does above it. -/
theorem goal_valid (hctx : Context sig lsx s A dx B)
    (hfold : A.foldlM revertChosenDecls ⟨goal, s, k⟩ = .ok acc)
    (hok : Chosen.Ok sig ⟨goal, s, k⟩) (hrev : ∀ d ∈ A, Revertible sig k d)
    (hcl : ClosedParams (choose s A).1)
    (hlater : A.Pairwise (fun d d' => ∀ c, paramOf d = some c → ∀ f, hypOf d' = some f →
      c ∉ f.symbols))
    (hb : BoundOk sig bound (lsx :: (choose s A).1.filterMap paramOf))
    (hbase : ∀ (M : PolyInterp sig) (P : M.Preds) (S : M.StandardInts leInt ltInt P),
      (∀ d ∈ A ++ dx :: B, d.Sat M P) →
      S.toInt (constVal M lsx) ≤ S.toInt (termVal M P bound) → M.Valid P goal)
    (hstep : ∀ (M : PolyInterp sig) (P : M.Preds) (S : M.StandardInts leInt ltInt P),
      (∀ d ∈ A ++ dx :: B, d.Sat M P) →
      S.toInt (termVal M P bound) < S.toInt (constVal M lsx) →
      (∀ (τ : TvSymbol → M.U) (ρ : VSymbol → M.Val), (M.inst P τ).Typed ρ →
        ∀ (hnc : ∀ ts, lsx ∉ sig ts) (d₀ : M.Val) (hd₀ : M.mem M.intTy d₀),
          S.toInt d₀ < S.toInt (constVal M lsx) →
          ((M.withConsts (M.noConsts.set lsx hnc M.intTy d₀ hd₀)).inst P τ).Holds ρ acc.g) →
      M.Valid P goal) :
    ∀ (n : ℕ) (M : PolyInterp sig) (P : M.Preds) (S : M.StandardInts leInt ltInt P),
      (∀ d ∈ A ++ dx :: B, d.Sat M P) →
      (S.toInt (constVal M lsx) - S.toInt (termVal M P bound)).toNat < n → M.Valid P goal := by
  intro n
  induction n with
  | zero => exact fun _ _ _ _ h => absurd h (Nat.not_lt_zero _)
  | succ n ih =>
    intro M P S hall hn
    by_cases hle : S.toInt (constVal M lsx) ≤ S.toInt (termVal M P bound)
    · exact hbase M P S hall hle
    rw [not_le] at hle
    refine hstep M P S hall hle fun τ ρ hρ hnc d₀ hd₀ hlt => ?_
    -- a smaller integer, and any values of the generalised constants
    refine (holds_of_revertChosenDecls hfold hok le_rfl hrev hcl hlater).2.2.2 _ ρ hρ ?_
    intro C ρ' hρ' hvar hhyps
    have hvar' : Varies (lsx :: (choose s A).1.filterMap paramOf) M.noConsts C := by
      intro c hc
      rw [mem_cons, not_or] at hc
      rw [hvar c hc.2, PolyInterp.Consts.val_set_of_ne hc.1]
    have hsat := hctx.sat hall hvar' hhyps
    have hgen := hctx.not_generalised
    have hval : constVal (M.withConsts C) lsx = d₀ := by
      have hC := hvar lsx hgen
      show C.fn lsx [] (some M.intTy) [] = d₀
      unfold PolyInterp.Consts.fn
      rw [hC]
      exact PolyInterp.Consts.fn_set (C := M.noConsts) [] []
    refine ih (M.withConsts C) P (S.withConsts C) hsat ?_ τ ρ' hρ'
    have hbv := hb.withConsts (P := P) hvar'
    rw [hval, hbv]
    show (S.toInt d₀ - S.toInt (termVal M P bound)).toNat < n
    omega

end Descent

/-! ## The goals of the two tasks -/

section Goals

variable {leInt ltInt lsx : LSymbol} {k free : ℕ} {x bound f : Term} {pr : PrSymbol} {news : List ℕ}

theorem initDecl_goal {u u' : Unit}
    (h : initDecl leInt k x bound u ⟨.dprop .pgoal pr f, news⟩ = .ok (u', dl)) :
    ∃ nt, tAppInfer leInt [x, bound] = some nt ∧ nt.freeVars = [] ∧
      dl = [⟨.dprop paxiom ⟨k⟩ nt, [k]⟩,
        ⟨.dprop .pgoal pr (tAttrAdd ("expl:" ++ "base case") f), [pr.prName]⟩] := by
  obtain ⟨nt, hnt, h⟩ := bind_eq_ok.1 h
  obtain ⟨d, hd, h⟩ := bind_eq_ok.1 h
  obtain ⟨prInit, hpr, h⟩ := bind_eq_ok.1 h
  obtain ⟨rfl, -⟩ := createPropDecl_eq (ofDecl_ok hd)
  obtain ⟨rfl, hfv⟩ := createPropDecl_eq (ofDecl_ok hpr)
  cases h
  exact ⟨nt, ofApp_ok hnt, hfv, rfl⟩

/-- The induction hypothesis, for a variable of tag `n`. -/
def inductionHyp (x ltN g : Term) (n : ℕ) : Term :=
  tQuant .tforall [⟨n, tyInt⟩] []
    (.tbinop [] .timplies ltN (tReplace x (.tvar [] ⟨n, tyInt⟩) g))

theorem recDecl_goal {st' : RecState}
    (h : recDecl ltInt k lsx x bound st ⟨.dprop .pgoal pr f, news⟩ = .ok (st', dl)) :
    st.xIsPassed = true ∧ ∃ (acc : Chosen) (ltN lt : Term),
      st.delta.foldlM revertChosenDecls ⟨f, addLsTerm [lsx] f, k⟩ = .ok acc ∧
      tAppInfer ltInt [.tvar [] ⟨acc.k, tyInt⟩, x] = some ltN ∧ tAppInfer ltInt [bound, x] = some lt ∧
      dl = [⟨.dprop paxiom ⟨acc.k + 1⟩ lt, [acc.k + 1]⟩,
        ⟨.dprop paxiom ⟨acc.k + 2⟩ (inductionHyp x ltN acc.g acc.k), [acc.k + 2]⟩,
        ⟨.dprop .pgoal pr (tAttrAdd ("expl:" ++ "recursive case") f), [pr.prName]⟩] := by
  unfold recDecl at h
  simp only at h
  split_ifs at h with hpass
  obtain ⟨acc, hacc, h⟩ := bind_eq_ok.1 h
  obtain ⟨ltN, hltN, h⟩ := bind_eq_ok.1 h
  obtain ⟨lt, hlt, h⟩ := bind_eq_ok.1 h
  obtain ⟨d₁, hd₁, h⟩ := bind_eq_ok.1 h
  obtain ⟨d₂, hd₂, h⟩ := bind_eq_ok.1 h
  obtain ⟨d₃, hd₃, h⟩ := bind_eq_ok.1 h
  obtain ⟨rfl, -⟩ := createPropDecl_eq (ofDecl_ok hd₁)
  obtain ⟨rfl, -⟩ := createPropDecl_eq (ofDecl_ok hd₂)
  obtain ⟨rfl, -⟩ := createPropDecl_eq (ofDecl_ok hd₃)
  cases h
  exact ⟨by simpa using hpass, acc, ltN, lt, hacc, ofApp_ok hltN, ofApp_ok hlt, rfl⟩

theorem findGoal_of_last {t : Task} {pr : PrSymbol} (h : t.findGoal = some (pr, f)) :
    ∃ news l, t.tdecls = .decl ⟨.dprop .pgoal pr f, news⟩ :: l := by
  unfold findGoal at h
  split at h
  · next pr' f' news l hl =>
      cases h
      exact ⟨news, l, hl⟩
  · cases h

theorem not_isGoal {l : List Tdecl} (h : ∀ td ∈ l, ¬ td.IsGoal) :
    ∀ d ∈ declsOf l, ¬ Decl.IsGoal d := by
  rintro ⟨node, news⟩ hd ⟨pr, f, hnode⟩
  obtain ⟨td, htd, htd'⟩ := mem_filterMap.mp hd
  cases td with
  | decl d =>
    cases htd'
    simp only at hnode
    subst hnode
    exact h _ htd ⟨pr, f, news, rfl⟩
  | _ => cases htd'

theorem findGoal_of_init {t : Task} (hinv : t.Inv)
    (h : decl free .task (initDecl leInt k x bound) () t = .ok init)
    (hgoal : init.findGoal ≠ none) : t.findGoal ≠ none := by
  intro hnone
  obtain ⟨⟨u, init'⟩, hfold, h⟩ := bind_eq_ok.1 h
  cases h
  obtain ⟨outs, houts, hdecls⟩ := foldlM_declStep hfold
  have hnot := not_isGoal (hinv.noGoal hnone)
  rw [declsOf_reverse] at houts
  have hsame := outputs_init (fun d hd => hnot d (mem_reverse.mp hd)) houts
  obtain ⟨⟨pr, f⟩, hsome⟩ := Option.ne_none_iff_exists'.mp hgoal
  obtain ⟨news, l, hl⟩ := findGoal_of_last hsome
  have hmem : (⟨.dprop .pgoal pr f, news⟩ : Decl) ∈ declsOf init.tdecls := by
    rw [hl, declsOf_decl]
    exact mem_cons_self
  rw [hdecls, hsame, reverse_reverse] at hmem
  exact hnot _ (by simpa [declsOf, empty] using hmem) ⟨pr, f, rfl⟩

end Goals

/-! ## Soundness -/

theorem replaceOr_congr {t1 t1' u : Term} (h : ∀ t, tEqual t t1 = tEqual t t1') :
    replaceOr t1 u = replaceOr t1' u := by
  funext t t'
  unfold replaceOr
  rw [h]

theorem tReplace_congr {t1 t1' u : Term} (h : ∀ t, tEqual t t1 = tEqual t t1') (t : Term) :
    tReplace t1 u t = tReplace t1' u t := by
  have hor := replaceOr_congr (u := u) h
  induction t with
  | tapp a s tl ty ih =>
    rw [tReplace, tReplace, hor, tReplaceList_eq, tReplaceList_eq, map_congr_left ih]
  | tcase a t bl iht ihb =>
    have hbl : bl.map (fun b => (b.1, tReplace t1 u b.2)) =
        bl.map (fun b => (b.1, tReplace t1' u b.2)) :=
      map_congr_left fun b hb => by rw [ihb b hb]
    rw [tReplace, tReplace, hor, tReplaceBranches_eq, tReplaceBranches_eq, iht, hbl]
  | tquant a q vl trl f ihtr ih =>
    have htrl : trl.map (List.map (tReplace t1 u)) = trl.map (List.map (tReplace t1' u)) :=
      map_congr_left fun tr htr => map_congr_left (ihtr tr htr)
    rw [tReplace, tReplace, hor, tReplaceTriggers_eq, tReplaceTriggers_eq, htrl, ih]
  | tif a f t e ihf iht ihe => rw [tReplace, tReplace, hor, ihf, iht, ihe]
  | tlet a t v e iht ihe => rw [tReplace, tReplace, hor, iht, ihe]
  | teps a v f ih | tnot a f ih => rw [tReplace, tReplace, hor, ih]
  | tbinop a op f g ihf ihg => rw [tReplace, tReplace, hor, ihf, ihg]
  | _ => rw [tReplace, tReplace, hor]

section Sound

variable {leInt ltInt lsx : LSymbol} {a : Sattr} {bound f : Term} {M : PolyInterp sig} {P : M.Preds}

theorem valid_tAttrAdd {s : String} (h : M.Valid P (tAttrAdd s f)) : M.Valid P f :=
  fun τ ρ hρ => (holds_setAttrs (I := M.inst P τ) _ f ρ).mp (h τ ρ hρ)

theorem constVal_mem (hx : lsx.IsConst tyInt) : M.mem M.intTy (constVal M lsx) := by
  have hwt : (constTerm lsx).Wt sig := by
    simp only [constTerm, Wt, wtList_iff]
    refine ⟨⟨[], ?_, ?_⟩, by simp⟩
    · rw [hx.args]
      rfl
    · rw [hx.value]
      rfl
  have hmem : M.mem M.intTy ((M.inst (fun _ _ _ => False) (someTys M)).eval (someVals M)
      (constTerm lsx)) :=
    eval_mem (I := M.inst (fun _ _ _ => False) (someTys M)) hwt hx.value
      fun _ => M.eps_mem _ _
  rw [constTerm, hx.value] at hmem
  exact hmem

/-- The induction hypothesis holds where the generalised goal does for all smaller values. -/
theorem inductionHyp_valid {ltN : Term} {n : ℕ} (hlt : IsOrder ltInt) (hx : lsx.IsConst tyInt)
    (hnc : ∀ ts, lsx ∉ sig ts) (S : M.StandardInts leInt ltInt P) (hg : Chosen.Ok sig ⟨g, [], n⟩)
    (hltN : tAppInfer ltInt [.tvar [] ⟨n, tyInt⟩, .tapp a lsx [] (some tyInt)] = some ltN)
    (hall : ∀ (τ : TvSymbol → M.U) (ρ : VSymbol → M.Val), (M.inst P τ).Typed ρ →
      ∀ (d : M.Val) (hd : M.mem M.intTy d), S.toInt d < S.toInt (constVal M lsx) →
        ((M.withConsts (M.noConsts.set lsx hnc M.intTy d hd)).inst P τ).Holds ρ g) :
    M.Valid P (inductionHyp (.tapp a lsx [] (some tyInt)) ltN g n) := by
  obtain rfl := tAppInfer_order hlt hltN
  intro τ ρ hρ d hd hless
  set v : VSymbol := ⟨n, tyInt⟩
  have hless : (M.inst P τ).Holds (update ρ v d)
      (.tapp [] ltInt [.tvar [] v, .tapp a lsx [] (some tyInt)] none) := hless
  have hd' : M.mem M.intTy d := hd
  rw [holds_order hlt rfl rfl, eval_tvar, update_self] at hless
  have hlow : S.toInt d < S.toInt (constVal M lsx) := (S.lt hd' (constVal_mem hx)).mp hless
  have hρ' : (M.inst P τ).Typed (update ρ v d) :=
    Interp.typed_update (I := M.inst P τ) hρ hd
  have hst : PolyInterp.Stands M M.noConsts (M.noConsts.set lsx hnc M.intTy d hd') P τ lsx tyInt
      (.tvar [] v) g.vars (update ρ v d) := by
    intro ρ₁ hρ₁
    have hfresh : v ∉ g.vars := fun hmem => lt_irrefl _ (hg.vars v hmem)
    rw [eval_tvar, hρ₁ v hfresh, update_self]
    exact (PolyInterp.Consts.fn_set [] []).symm
  have hattrs : ∀ t, tEqual t (.tapp a lsx [] (some tyInt)) = tEqual t (constTerm lsx) := by
    intro t
    rw [constTerm, hx.value]
    cases t <;> rfl
  have hsame := (sem_tReplace hx rfl hst hg.wt (fun _ h => h)
    (fun s _ hs => (PolyInterp.Consts.val_set_of_ne hs).symm) _ (fun _ _ => rfl)).2 hg.ty
  rw [tReplace_congr hattrs]
  exact hsame.mpr (hall τ _ hρ' d hd' hlow)

end Sound

/-- What the transformation is called on. -/
structure Input (sig : TySymbol → List LSymbol) (leInt ltInt lsx : LSymbol) (k : ℕ)
    (bound : Option Term) (t : Task) : Prop where
  run : Task.Run k t
  typed : t.Typed sig
  /-- The variables of the task have tags below the fresh ones. -/
  vars : ∀ d ∈ declsOf t.tdecls, ∀ f ∈ declTerms d, ∀ v ∈ f.vars, v.vsName < k
  le : IsOrder leInt
  lt : IsOrder ltInt
  const : lsx.IsConst tyInt
  bound : ∀ b, bound = some b → b.Wt sig ∧ ∀ ty ∈ b.types, ty.Wf

section Whole

variable {leInt ltInt lsx : LSymbol} {k : ℕ} {bound : Option Term} {t : Task}

theorem hyp_mem_declTerms (h : hypOf d = some f) : f ∈ declTerms d := by
  obtain ⟨pk, pr, hnode⟩ := hypOf_eq.mp h
  unfold declTerms
  rw [hnode]
  exact mem_singleton_self f

theorem Input.revertible (h : Input sig leInt ltInt lsx k bound t) (hd : d ∈ declsOf t.tdecls) :
    Revertible sig k d where
  hyp f hf := by
    obtain ⟨pk, pr, hnode⟩ := hypOf_eq.mp hf
    obtain ⟨hfv, hty⟩ := prop_eq (h.run.inv.created d hd) hnode
    have hterm := hyp_mem_declTerms hf
    exact ⟨(h.typed.decls d hd).wt f hterm, hty, hfv, h.vars d hd f hterm⟩
  param c hc ts hmem :=
    h.typed.constr ts c hmem (param_eq (h.run.inv.created d hd) (paramOf_eq.mp hc)).2

theorem not_mem_of_later {d' : Decl} (h : Later d d') (hd : d.Created) {c : LSymbol}
    (hc : paramOf d = some c) (hf : hypOf d' = some f) : c ∉ f.symbols := by
  intro hmem
  obtain ⟨pk, pr, hnode⟩ := hypOf_eq.mp hf
  have hnews := (param_eq hd (paramOf_eq.mp hc)).1
  refine (h c.lsName (by rw [hnews]; exact mem_singleton_self _)).1 ?_
  unfold getUsedSymsDecl
  rw [hnode]
  exact symsTerm_symbols hmem

variable {pr : PrSymbol} {f : Term} {A B : List Decl} {dx : Decl}

theorem chosen_eq (hgoal : t.findGoal = some (pr, f))
    (hA : after lsx (declsOf t.tdecls.tail) = A) :
    chosen lsx t = choose (addLsTerm [lsx] f) A := by
  unfold chosen
  rw [hgoal, ← hA]

theorem mem_addLsTerm_start (hc : lsx.lsArgs = []) (hsig : ∀ ts, lsx ∉ sig ts) (hwt : f.Wt sig) :
    lsx ∈ addLsTerm [lsx] f :=
  mem_addLsTerm hc hsig hwt [lsx] (.inl (mem_singleton_self lsx))

theorem Input.context {acc : Chosen} (h : Input sig leInt ltInt lsx k bound t)
    (hgen : Generalises lsx (boundTerm bound) t) (hgoal : t.findGoal = some (pr, f))
    (hwt : f.Wt sig) (hA : after lsx (declsOf t.tdecls.tail) = A)
    (hsub : ∀ d ∈ A ++ dx :: B, d ∈ declsOf t.tdecls)
    (hlater : (A ++ dx :: B).Pairwise Later) (hdx : paramOf dx = some lsx)
    (hkind : ∀ d ∈ A, (paramOf d).isSome ∨ (hypOf d).isSome)
    (hfold : A.foldlM revertChosenDecls ⟨f, addLsTerm [lsx] f, k⟩ = .ok acc) :
    Context sig lsx (addLsTerm [lsx] f) A dx B where
  created d hd := h.run.inv.created d (hsub d hd)
  typed d hd := h.typed.decls d (hsub d hd)
  later := hlater
  param := hdx
  start := mem_addLsTerm_start h.const.args
    ((h.revertible (hsub dx (by simp))).param lsx hdx) hwt
  kind := hkind
  const := by
    refine forall_mem_cons.mpr ⟨⟨h.const.args, ?_, ?_⟩, fun c hc => ?_⟩
    · rw [h.const.value]
      exact Option.some_ne_none _
    · exact (h.revertible (hsub dx (by simp))).param lsx hdx
    · obtain ⟨d, hd, hc⟩ := mem_filterMap.mp hc
      have hdA : d ∈ A := mem_choose.mpr (.inl hd)
      obtain ⟨hargs, hval⟩ := const_of_choose hfold d hd c hc
      exact ⟨hargs, hval, (h.revertible (hsub d (mem_append_left _ hdA))).param c hc⟩
  left := by
    have hleft := hgen.left
    unfold generalised at hleft
    rwa [chosen_eq hgoal hA] at hleft
  mono := by
    have hmono := hgen.hypMono
    unfold generalised at hmono
    rwa [chosen_eq hgoal hA] at hmono

theorem wf_tyInt : tyInt.Wf := by
  intro s l h
  simp only [tyInt, tsInt, Ty.subtypes, Ty.subtypesList, mem_singleton] at h
  cases h
  rfl

theorem Input.boundOk (h : Input sig leInt ltInt lsx k bound t)
    (hgen : Generalises lsx (boundTerm bound) t) (hty : (boundTerm bound).tTy = some tyInt)
    (hfv : (boundTerm bound).freeVars = []) (hfixed : ∀ c ∈ fixed, c ∈ lsx :: generalised lsx t) :
    BoundOk sig (boundTerm bound) fixed where
  wt := by
    cases hb : bound with
    | none => trivial
    | some b => exact (h.bound b hb).1
  wf := by
    cases hb : bound with
    | none =>
      intro ty hmem
      obtain rfl := mem_singleton.mp hmem
      exact wf_tyInt
    | some b => exact (h.bound b hb).2
  ty := hty
  closed := hfv
  mono := hgen.boundMono
  const c hc := hgen.boundConst c (hfixed c hc)

variable {a : Sattr} {x b : Term} {news : List ℕ} {l : List Tdecl} {kn : KnownMap} {free : ℕ}

theorem closed_of_init (hle : IsOrder leInt)
    (hi : decl free .task (initDecl leInt k x b) () ⟨.decl ⟨.dprop .pgoal pr f, news⟩ :: l, kn⟩ =
      .ok init) : b.freeVars = [] := by
  obtain ⟨u, outs, u', dl, rest, -, hfn, -, -⟩ := decl_last hi
  obtain ⟨nt, hnt, hfv, -⟩ := initDecl_goal hfn
  rw [tAppInfer_order hle hnt] at hfv
  simp only [freeVars, freeVarsList, append_eq_nil_iff] at hfv
  exact hfv.2.1

theorem base_valid (hle : IsOrder leInt)
    (hx : lsx.IsConst tyInt) (hb : BoundOk sig b fixed)
    (hi : decl free .task (initDecl leInt k (.tapp a lsx [] (some tyInt)) b) ()
      ⟨.decl ⟨.dprop .pgoal pr f, news⟩ :: l, kn⟩ = .ok init)
    (hl : ∀ d ∈ declsOf l, ¬ Decl.IsGoal d) (hinit : init.ValidInt sig leInt ltInt)
    {M : PolyInterp sig} {P : M.Preds} (S : M.StandardInts leInt ltInt P)
    (hall : ∀ d ∈ declsOf l, d.Sat M P)
    (hlow : S.toInt (constVal M lsx) ≤ S.toInt (termVal M P b)) : M.Valid P f := by
  obtain ⟨u, outs, u', dl, rest, houts, hfn, htd, hrest⟩ := decl_last hi
  obtain ⟨nt, hnt, -, rfl⟩ := initDecl_goal hfn
  have hsame := outputs_init (fun d hd => hl d (mem_reverse.mp hd)) houts
  rw [hsame, reverse_reverse] at hrest
  simp only [map_cons, map_nil, reverse_cons, reverse_nil, nil_append,
    cons_append] at htd
  obtain ⟨pi, fi, hgi, hvi⟩ := hinit
  rw [findGoal, htd] at hgi
  cases hgi
  refine valid_tAttrAdd (hvi M P ⟨S⟩ ?_)
  rw [htd, declsOf_decl, declsOf_decl, hrest]
  refine forall_mem_cons.mpr ⟨fun h => absurd rfl h, forall_mem_cons.mpr ⟨?_, hall⟩⟩
  intro _ τ ρ _
  rw [tAppInfer_order hle hnt, holds_order hle rfl hb.ty, hb.eval]
  exact (S.le (constVal_mem hx) (hb.mem M P)).mpr hlow

/-- The recursive case gives the goal above the bound, with the induction hypothesis. -/
theorem step_valid {recursive : Task} {acc : Chosen} {ltN lt : Term}
    {rest : List Tdecl} (hlt : IsOrder ltInt) (hx : lsx.IsConst tyInt)
    (hnc : ∀ ts, lsx ∉ sig ts) (hb : BoundOk sig b fixed) (hacc : acc.Ok sig)
    (hltN : tAppInfer ltInt [.tvar [] ⟨acc.k, tyInt⟩, .tapp a lsx [] (some tyInt)] = some ltN)
    (hltB : tAppInfer ltInt [b, .tapp a lsx [] (some tyInt)] = some lt)
    (htd : recursive.tdecls = .decl ⟨.dprop .pgoal pr (tAttrAdd ("expl:" ++ "recursive case") f),
        [pr.prName]⟩ ::
      .decl ⟨.dprop paxiom ⟨acc.k + 2⟩
        (inductionHyp (.tapp a lsx [] (some tyInt)) ltN acc.g acc.k), [acc.k + 2]⟩ ::
      .decl ⟨.dprop paxiom ⟨acc.k + 1⟩ lt, [acc.k + 1]⟩ :: rest)
    (hrest : declsOf rest = declsOf l) (hrec : recursive.ValidInt sig leInt ltInt)
    {M : PolyInterp sig} {P : M.Preds} (S : M.StandardInts leInt ltInt P)
    (hall : ∀ d ∈ declsOf l, d.Sat M P)
    (hhigh : S.toInt (termVal M P b) < S.toInt (constVal M lsx))
    (hih : ∀ (τ : TvSymbol → M.U) (ρ : VSymbol → M.Val), (M.inst P τ).Typed ρ →
      ∀ (d : M.Val) (hd : M.mem M.intTy d), S.toInt d < S.toInt (constVal M lsx) →
        ((M.withConsts (M.noConsts.set lsx hnc M.intTy d hd)).inst P τ).Holds ρ acc.g) :
    M.Valid P f := by
  obtain ⟨pr', fr, hgr, hvr⟩ := hrec
  rw [findGoal, htd] at hgr
  cases hgr
  refine valid_tAttrAdd (hvr M P ⟨S⟩ ?_)
  rw [htd, declsOf_decl, declsOf_decl, declsOf_decl, hrest]
  refine forall_mem_cons.mpr ⟨fun h => absurd rfl h, forall_mem_cons.mpr
    ⟨fun _ => ?_, forall_mem_cons.mpr ⟨fun _ => ?_, hall⟩⟩⟩
  · exact inductionHyp_valid hlt hx hnc S ⟨hacc.wt, hacc.ty, hacc.vars⟩ hltN hih
  · intro τ ρ _
    rw [tAppInfer_order hlt hltB, holds_order hlt hb.ty rfl, hb.eval]
    exact (S.lt (hb.mem M P) (constVal_mem hx)).mpr hhigh

/-- Integer induction is sound where the induction hypothesis generalises enough. -/
theorem induction_sound {init recursive : Task} (h : Input sig leInt ltInt lsx k bound t)
    (hind : induction leInt ltInt k (.tapp a lsx [] (some tyInt)) bound t = .ok (init, recursive))
    (hgen : Generalises lsx (boundTerm bound) t) (hinit : init.ValidInt sig leInt ltInt)
    (hrec : recursive.ValidInt sig leInt ltInt) : t.ValidInt sig leInt ltInt := by
  unfold induction at hind
  simp only at hind
  split_ifs at hind with hty
  rw [not_or, not_not, not_not] at hty
  obtain ⟨init', hi, hind⟩ := bind_eq_ok.1 hind
  obtain ⟨rec', hr, hind⟩ := bind_eq_ok.1 hind
  cases hind
  have hinv := h.run.inv
  obtain ⟨⟨pr, f⟩, hgoal⟩ := Option.ne_none_iff_exists'.mp (findGoal_of_init hinv hi (by
    obtain ⟨pi, fi, hgi, -⟩ := hinit
    rw [hgi]
    exact Option.some_ne_none _))
  obtain ⟨news, l, hl⟩ := findGoal_of_last hgoal
  obtain ⟨tdecls, kn⟩ := t
  simp only at hl
  subst hl
  have hnogoal : ∀ d ∈ declsOf l, ¬ Decl.IsGoal d := not_isGoal hinv.goal
  have hcons : ∀ d ∈ declsOf l,
      d ∈ declsOf (.decl ⟨.dprop .pgoal pr f, news⟩ :: l) := fun d hd => mem_cons_of_mem _ hd
  have hlater : (declsOf l).Pairwise Later := (pairwise_cons.mp hinv.later).2
  have hwt : f.Wt sig := (h.typed.decls _ mem_cons_self).wt f (mem_singleton_self f)
  have hfty : f.tTy = none := (prop_eq (hinv.created _ mem_cons_self) rfl).2
  have hfvars : ∀ v ∈ f.vars, v.vsName < k :=
    h.vars _ mem_cons_self f (mem_singleton_self f)
  -- the recursive case
  obtain ⟨st, outs, st', dl, rest, houts, hfn, htd, hrest⟩ := decl_last hr
  obtain ⟨hpass, acc, ltN, lt, hfold, hltN, hltB, rfl⟩ := recDecl_goal hfn
  obtain ⟨hsame, hseen⟩ := outputs_rec hnogoal (hlater.imp_of_mem fun hd hd' hlater hp =>
    param_once hlater (hinv.created _ (hcons _ hd)) (hinv.created _ (hcons _ hd')) hp) houts
  rw [hsame, reverse_reverse] at hrest
  obtain ⟨hdelta, ⟨B, dx, hdx, hsplit⟩, hkind⟩ := hseen.after hpass
  rw [hdelta] at hfold
  have hsub : ∀ d ∈ after lsx (declsOf l) ++ dx :: B,
      d ∈ declsOf (.decl ⟨.dprop .pgoal pr f, news⟩ :: l) := by
    intro d hd
    rw [← hsplit] at hd
    exact hcons d hd
  have hlater' : (after lsx (declsOf l) ++ dx :: B).Pairwise Later := hsplit ▸ hlater
  have hctx := h.context hgen hgoal hwt rfl hsub hlater' hdx hkind hfold
  have hchosen : generalised lsx _ =
      (choose (addLsTerm [lsx] f) (after lsx (declsOf l))).1.filterMap paramOf :=
    congrArg (fun r => r.1.filterMap paramOf) (chosen_eq hgoal rfl)
  have hb := h.boundOk hgen hty.2 (closed_of_init h.le hi) (fun c hc => hc)
  rw [hchosen] at hb
  have hcl := hgen.paramMono
  rw [chosen_eq hgoal rfl] at hcl
  have hrev : ∀ d ∈ after lsx (declsOf l), Revertible sig k d :=
    fun d hd => h.revertible (hsub d (mem_append_left _ hd))
  have hnc : ∀ ts, lsx ∉ sig ts := (h.revertible (hsub dx (by simp))).param lsx hdx
  have hok : Chosen.Ok sig ⟨f, addLsTerm [lsx] f, k⟩ := ⟨hwt, hfty, hfvars⟩
  have hbefore : (after lsx (declsOf l)).Pairwise
      (fun d d' => ∀ c, paramOf d = some c → ∀ f, hypOf d' = some f → c ∉ f.symbols) :=
    (pairwise_append.mp hlater').1.imp_of_mem fun hd _ hl c hc f hf =>
      not_mem_of_later hl (hinv.created _ (hsub _ (mem_append_left _ hd))) hc hf
  refine ⟨pr, f, hgoal, fun M P ⟨S⟩ hall => ?_⟩
  refine goal_valid hctx hfold hok hrev hcl hbefore hb (fun M P S hall hlow => ?_)
    (fun M P S hall hhigh hih => ?_) _ M P S (fun d hd => hall d (hsub d hd)) (Nat.lt_succ_self _)
  · have hall' : ∀ d ∈ declsOf l, d.Sat M P := fun d hd => hall d (hsplit ▸ hd)
    exact base_valid h.le h.const hb hi hnogoal hinit S hall' hlow
  · have hall' : ∀ d ∈ declsOf l, d.Sat M P := fun d hd => hall d (hsplit ▸ hd)
    have hacc := (holds_of_revertChosenDecls (P := P) (τ := someTys M) hfold hok le_rfl hrev hcl
      hbefore).1
    exact step_valid h.lt h.const hnc hb hacc hltN hltB htd hrest hrec S hall' hhigh
      fun τ ρ hρ d hd hlt => hih τ ρ hρ hnc d hd hlt

end Whole

/-! ## A constant below the integer -/

theorem tyapp_inj : ∀ s us us', Ty.tyapp s us = Ty.tyapp s us' → us = us' :=
  fun _ _ _ h => (Ty.tyapp.inj h).2

theorem none_inj : ∀ {_ : Ty} {d d' : ℤ} {c : LSymbol × List ℤ},
    True → True → none = some c → none = some c → d = d' :=
  fun _ _ h => by cases h

theorem of_epsilon : ∀ {_ : Ty} {P : ℤ → Prop}, (∃ d, True ∧ P d) → P (Classical.epsilon P) := by
  rintro _ P ⟨d, -, hd⟩
  exact Classical.epsilon_spec ⟨d, hd⟩

/-- The integers, with the value `1` of the constant `one` and `0` of the others. -/
noncomputable def intInterp (one : LSymbol) : PolyInterp (fun _ => []) where
  U := Ty
  Val := ℤ
  app := Ty.tyapp
  mem _ _ := True
  dest _ _ := none
  const c _ :=
    match c with
    | .constInt _ n => n
    | _ => 0
  fn s _ _ _ := if s = one then 1 else 0
  eps _ P := Classical.epsilon P
  app_inj := tyapp_inj
  dest_mem := fun _ _ _ _ _ _ _ h => by cases h
  dest_some := fun _ _ _ _ _ h => absurd rfl h
  dest_inj := @none_inj
  const_mem := fun _ _ => trivial
  const_ext := by
    intro c c' _ h
    cases c <;> cases c' <;> simp_all [Constant.equal]
  fn_mem := by
    intros
    trivial
  fn_constr := by
    intro _ _ _ _ _ h
    cases h
  eps_mem := fun _ _ => trivial
  eps_spec := @of_epsilon
  eps_ext := fun _ P Q h => congrArg Classical.epsilon (funext fun d => propext (h d trivial))

/-- The order of the integers, for the symbol `le` and all others. -/
def intPreds (le : LSymbol) : LSymbol → List (Option Ty) → List ℤ → Prop
  | ls, _, [d, d'] => if ls = le then d ≤ d' else d < d'
  | _, _, _ => False

theorem standardInts_intInterp {one le lt : LSymbol} (h : lt ≠ le) :
    Nonempty ((intInterp one).StandardInts le lt (intPreds le)) :=
  ⟨{ toInt := id
     inj := fun _ _ h => h
     surj := fun n => ⟨n, trivial, rfl⟩
     const := fun _ _ => rfl
     le := fun _ _ => by simp [intPreds]
     lt := fun _ _ => by simp [intPreds, h] }⟩

namespace Below

def le : LSymbol := ⟨100, [tyInt, tyInt], none, 0, false⟩
def lt : LSymbol := ⟨101, [tyInt, tyInt], none, 0, false⟩
def x : LSymbol := ⟨102, [], some tyInt, 0, false⟩
def c : LSymbol := ⟨103, [], some tyInt, 0, false⟩

def cLtX : Term := .tapp [] lt [constTerm c, constTerm x] none
def cLeX : Term := .tapp [] le [constTerm c, constTerm x] none

/-- The constants `x` and `c` and the hypothesis `c < x`. -/
def context : List Tdecl :=
  [.decl (createTyDecl tsInt), .decl ⟨.dparam le, [100]⟩, .decl ⟨.dparam lt, [101]⟩,
    .decl ⟨.dparam x, [102]⟩, .decl ⟨.dparam c, [103]⟩, .decl ⟨.dprop paxiom ⟨104⟩ cLtX, [104]⟩]

def propDecl (k : PropKind) (pr : ℕ) (f : Term) : Tdecl := .decl ⟨.dprop k ⟨pr⟩ f, [pr]⟩

/-- The task with more hypotheses and a goal. -/
def task (hyps : List (ℕ × Term)) (goal : Term) : Task :=
  let l := context ++ hyps.map (fun h => propDecl paxiom h.1 h.2) ++ [propDecl pgoal 105 goal]
  ⟨l.reverse, (declsOf l.reverse).flatMap fun d => d.dNews.map (·, d)⟩

theorem declsOf_task (hyps : List (ℕ × Term)) (goal : Term) :
    declsOf (task hyps goal).tdecls = ⟨.dprop pgoal ⟨105⟩ goal, [105]⟩ ::
      ((hyps.map fun h => (⟨.dprop paxiom ⟨h.1⟩ h.2, [h.1]⟩ : Decl)).reverse ++
        [⟨.dprop paxiom ⟨104⟩ cLtX, [104]⟩, ⟨.dparam c, [103]⟩, ⟨.dparam x, [102]⟩,
          ⟨.dparam lt, [101]⟩, ⟨.dparam le, [100]⟩, createTyDecl tsInt]) := by
  have hmap : hyps.reverse.map (fun h => Tdecl.decl ⟨.dprop paxiom ⟨h.1⟩ h.2, [h.1]⟩) =
      (hyps.reverse.map fun h => (⟨.dprop paxiom ⟨h.1⟩ h.2, [h.1]⟩ : Decl)).map Tdecl.decl := by
    rw [map_map]
    rfl
  simp only [task, reverse_append, reverse_cons, reverse_nil, nil_append,
    cons_append, propDecl, declsOf_decl, ← map_reverse]
  rw [hmap, declsOf_map]
  rfl

theorem created (hg : createPropDecl pgoal ⟨105⟩ goal =
    .ok ⟨.dprop pgoal ⟨105⟩ goal, [105]⟩) {td : Tdecl}
    (htd : td ∈ context ++ [propDecl pgoal 105 goal]) : ∀ d, td = .decl d → d.Created := by
  simp only [context, propDecl, cons_append, nil_append, mem_cons,
    not_mem_nil, or_false] at htd
  rintro d rfl
  rcases htd with h | h | h | h | h | h | h <;> cases h
  · exact .ty tsInt
  · exact .param (rfl : createParamDecl le = _)
  · exact .param (rfl : createParamDecl lt = _)
  · exact .param (rfl : createParamDecl x = _)
  · exact .param (rfl : createParamDecl c = _)
  · exact .prop (rfl : createPropDecl paxiom ⟨104⟩ cLtX = _)
  · exact .prop hg

theorem run_task (hg : createPropDecl pgoal ⟨105⟩ goal =
    .ok ⟨.dprop pgoal ⟨105⟩ goal, [105]⟩)
    (hadd : (context ++ [propDecl pgoal 105 goal]).foldlM (addTdecl 200) empty =
      .ok (task [] goal)) : Task.Run 200 (task [] goal) :=
  Task.Run.nil.foldlM (fun _ h => created hg h) hadd

theorem wt_cLtX : cLtX.Wt (fun _ => []) :=
  ⟨⟨[], rfl, rfl⟩, ⟨⟨[], rfl, rfl⟩, trivial⟩, ⟨⟨[], rfl, rfl⟩, trivial⟩, trivial⟩

theorem wt_cLeX : cLeX.Wt (fun _ => []) :=
  ⟨⟨[], rfl, rfl⟩, ⟨⟨[], rfl, rfl⟩, trivial⟩, ⟨⟨[], rfl, rfl⟩, trivial⟩, trivial⟩

/-- The only terms of the task are the hypothesis and the goal. -/
theorem node_cases (hd : d ∈ declsOf (task [] goal).tdecls) :
    d.dNode = .dprop pgoal ⟨105⟩ goal ∨ d.dNode = .dprop paxiom ⟨104⟩ cLtX ∨
      (∃ ls, d.dNode = .dparam ls) ∨ d.dNode = .dtype tsInt := by
  rw [declsOf_task] at hd
  simp only [map_nil, reverse_nil, nil_append, mem_cons, not_mem_nil,
    or_false] at hd
  rcases hd with rfl | rfl | rfl | rfl | rfl | rfl | rfl
  · exact .inl rfl
  · exact .inr (.inl rfl)
  · exact .inr (.inr (.inl ⟨c, rfl⟩))
  · exact .inr (.inr (.inl ⟨x, rfl⟩))
  · exact .inr (.inr (.inl ⟨lt, rfl⟩))
  · exact .inr (.inr (.inl ⟨le, rfl⟩))
  · exact .inr (.inr (.inr rfl))

theorem mem_declTerms (hd : d ∈ declsOf (task [] goal).tdecls)
    (hf : f ∈ declTerms d) : f = goal ∨ f = cLtX := by
  unfold declTerms at hf
  rcases node_cases hd with h | h | ⟨ls, h⟩ | h
  · rw [h] at hf
    exact .inl (mem_singleton.mp hf)
  · rw [h] at hf
    exact .inr (mem_singleton.mp hf)
  · rw [h] at hf
    cases hf
  · rw [h] at hf
    cases hf

theorem input {bound : Option Term} (hrun : Task.Run 200 (task [] goal))
    (hwt : goal.Wt (fun _ => [])) (hvars : goal.vars = []) (htypes : ∀ ty ∈ goal.types, ty = tyInt)
    (hbound : ∀ b, bound = some b → b.Wt (fun _ => []) ∧ ∀ ty ∈ b.types, ty.Wf) :
    Input (fun _ => []) le lt x 200 bound (task [] goal) where
  run := hrun
  typed := by
    refine ⟨fun d hd => ⟨fun f hf => ?_, fun f hf ty hty => ?_, fun ldl hnode ld hld => ?_⟩,
      fun ts s hs => by cases hs⟩
    · rcases mem_declTerms hd hf with rfl | rfl
      · exact hwt
      · exact wt_cLtX
    · have hint : ty = tyInt := by
        rcases mem_declTerms hd hf with rfl | rfl
        · exact htypes ty hty
        · revert ty
          decide
      exact hint ▸ wf_tyInt
    · rcases node_cases hd with h | h | ⟨ls, h⟩ | h <;> rw [h] at hnode <;> cases hnode
  vars := by
    intro d hd f hf v hv
    rcases mem_declTerms hd hf with rfl | rfl
    · rw [hvars] at hv
      cases hv
    · cases hv
  le := ⟨rfl, rfl⟩
  lt := ⟨rfl, rfl⟩
  const := ⟨rfl, rfl, rfl⟩
  bound := hbound

/-! ### The bound is the constant -/

def fls (expl : String) : Term := tAttrAdd ("expl:" ++ expl) (.tfalse [])

def initFalse : Task :=
  task [(200, .tapp [] le [constTerm x, constTerm c] none)] (fls "base case")

/-- `forall n. n < x -> forall c'. c' < n -> false`. -/
def hrecFalse : Term :=
  let n := tvar [] ⟨202, tyInt⟩
  .tquant [] .tforall [⟨202, tyInt⟩] [] (.tbinop [] .timplies (.tapp [] lt [n, constTerm x] none)
    (.tquant [] .tforall [⟨201, tyInt⟩] [] (.tbinop [] .timplies
      (.tapp [] lt [.tvar [] ⟨201, tyInt⟩, n] none) (.tfalse []))))

def recFalse : Task := task [(203, cLtX), (204, hrecFalse)] (fls "recursive case")

theorem induction_false : induction le lt 200 (constTerm x) (some (constTerm c))
    (task [] (.tfalse [])) = .ok (initFalse, recFalse) := by rfl

theorem valid_task {hyps : List (ℕ × Term)}
    (h : ∀ (M : PolyInterp (fun _ => [])) (P : M.Preds), Nonempty (M.StandardInts le lt P) →
      M.Valid P cLtX → (∀ h ∈ hyps, M.Valid P h.2) → M.Valid P goal) :
    (task hyps goal).ValidInt (fun _ => []) le lt := by
  refine ⟨⟨105⟩, goal, ?_, fun M P hS hall => ?_⟩
  · simp [task, findGoal, propDecl]
  · rw [declsOf_task] at hall
    refine h M P hS ?_ fun hyp hmem => ?_
    · exact hall ⟨.dprop paxiom ⟨104⟩ cLtX, [104]⟩ (by simp) (by decide)
    · refine hall ⟨.dprop paxiom ⟨hyp.1⟩ hyp.2, [hyp.1]⟩ ?_ (by decide)
      simp only [mem_cons, mem_append, mem_reverse, mem_map]
      exact .inr (.inl ⟨hyp, hmem, rfl⟩)

section Truth

variable {M : PolyInterp (fun _ => [])} {P : M.Preds} (S : M.StandardInts le lt P)

theorem toInt_lt (h : M.Valid P cLtX) : S.toInt (constVal M c) < S.toInt (constVal M x) := by
  have hlt := h (someTys M) (someVals M) fun _ => M.eps_mem _ _
  rw [cLtX, holds_order ⟨rfl, rfl⟩ rfl rfl] at hlt
  exact (S.lt (constVal_mem ⟨rfl, rfl, rfl⟩) (constVal_mem ⟨rfl, rfl, rfl⟩)).mp hlt

end Truth

theorem initFalse_valid : initFalse.ValidInt (fun _ => []) le lt := by
  refine valid_task fun M P ⟨S⟩ hlt hhyps => ?_
  have hle := hhyps _ (mem_singleton_self _) (someTys M) (someVals M) fun _ => M.eps_mem _ _
  rw [holds_order ⟨rfl, rfl⟩ rfl rfl] at hle
  have hle' : S.toInt (constVal M x) ≤ S.toInt (constVal M c) :=
    (S.le (constVal_mem ⟨rfl, rfl, rfl⟩) (constVal_mem ⟨rfl, rfl, rfl⟩)).mp hle
  exact absurd (toInt_lt S hlt) (not_lt.mpr hle')

theorem recFalse_valid : recFalse.ValidInt (fun _ => []) le lt := by
  refine valid_task fun M P ⟨S⟩ hlt hhyps => ?_
  have hrec := hhyps (204, hrecFalse) (by simp) (someTys M) (someVals M) fun _ => M.eps_mem _ _
  obtain ⟨d, hd, hdn⟩ := S.surj (S.toInt (constVal M x) - 1)
  obtain ⟨d', hd', hdn'⟩ := S.surj (S.toInt (constVal M x) - 2)
  -- the hypothesis for two integers below `x`
  have hless : (M.inst P (someTys M)).Holds (update (someVals M) ⟨202, tyInt⟩ d)
      (.tapp [] lt [.tvar [] ⟨202, tyInt⟩, constTerm x] none) := by
    rw [holds_order ⟨rfl, rfl⟩ rfl rfl, eval_tvar, update_self]
    exact (S.lt hd (constVal_mem ⟨rfl, rfl, rfl⟩)).mpr (by omega)
  refine (hrec d hd hless d' hd' ?_).elim
  show (M.inst P (someTys M)).Holds _
    (.tapp [] lt [.tvar [] ⟨201, tyInt⟩, .tvar [] ⟨202, tyInt⟩] none)
  rw [holds_order ⟨rfl, rfl⟩ rfl rfl, eval_tvar, eval_tvar, update_self,
    update_of_ne (by decide), update_self]
  exact (S.lt hd' hd).mpr (by omega)

theorem task_not_valid : ¬ (task [] (.tfalse [])).ValidInt (fun _ => []) le lt := by
  rintro ⟨pr, f, hgoal, hvalid⟩
  have hf : f = .tfalse [] := by
    have h : (task [] (.tfalse [])).findGoal = some (⟨105⟩, .tfalse []) := rfl
    rw [h] at hgoal
    exact (Prod.mk.inj (Option.some.inj hgoal)).2.symm
  subst hf
  refine hvalid (intInterp x) (intPreds le) (standardInts_intInterp (by decide)) ?_
    (fun _ => tyInt) (fun _ => (0 : ℤ)) (fun _ => trivial)
  intro d hd
  unfold Decl.Sat
  rcases node_cases hd with h | h | ⟨ls, h⟩ | h
  · rw [h]
    exact fun hk => absurd rfl hk
  · rw [h]
    intro _ τ ρ _
    show (0 : ℤ) < 1
    decide
  · rw [h]
    trivial
  · rw [h]
    trivial

/-- With the bound `c` the base case contradicts `c < x`, and so does the induction hypothesis
for all values of `c`. -/
theorem not_induction_sound :
    ¬ ∀ (sig : TySymbol → List LSymbol) (leInt ltInt lsx : LSymbol) (k : ℕ) (a : Sattr)
      (bound : Option Term) (t init recursive : Task), Input sig leInt ltInt lsx k bound t →
      induction leInt ltInt k (.tapp a lsx [] (some tyInt)) bound t = .ok (init, recursive) →
      init.ValidInt sig leInt ltInt → recursive.ValidInt sig leInt ltInt →
        t.ValidInt sig leInt ltInt := by
  intro h
  have hbound : ∀ b, some (constTerm c) = some b → b.Wt (fun _ => []) ∧ ∀ ty ∈ b.types, ty.Wf := by
    rintro b hb
    obtain rfl := Option.some.inj hb
    refine ⟨⟨⟨[], rfl, rfl⟩, trivial⟩, fun ty hty => ?_⟩
    obtain rfl : ty = tyInt := by
      revert ty
      decide
    exact wf_tyInt
  have hrun : Task.Run 200 (task [] (.tfalse [])) := run_task rfl rfl
  have hinput := input hrun trivial rfl (by decide) hbound
  exact task_not_valid (h _ le lt x 200 [] _ _ _ _ hinput induction_false initFalse_valid
    recFalse_valid)

/-! ### The bound is zero -/

def below (expl : String) : Term := tAttrAdd ("expl:" ++ expl) cLeX

def zero : Term := .tconst [] (.constInt .iLitUnk 0) tyInt

def initBelow : Task := task [(200, .tapp [] le [constTerm x, zero] none)] (below "base case")

/-- `forall n. n < x -> forall c'. c' < n -> c' <= n`. -/
def hrecBelow : Term :=
  let n := tvar [] ⟨202, tyInt⟩
  .tquant [] .tforall [⟨202, tyInt⟩] [] (.tbinop [] .timplies (.tapp [] lt [n, constTerm x] none)
    (.tquant [] .tforall [⟨201, tyInt⟩] [] (.tbinop [] .timplies
      (.tapp [] lt [.tvar [] ⟨201, tyInt⟩, n] none)
      (.tapp [] le [.tvar [] ⟨201, tyInt⟩, n] none))))

def recBelow : Task :=
  task [(203, .tapp [] lt [zero, constTerm x] none), (204, hrecBelow)] (below "recursive case")

theorem induction_below : induction le lt 200 (constTerm x) none (task [] cLeX) =
    .ok (initBelow, recBelow) := by rfl

theorem below_valid (hyps : List (ℕ × Term)) (expl : String) :
    (task hyps (below expl)).ValidInt (fun _ => []) le lt := by
  refine valid_task fun M P ⟨S⟩ hlt _ τ ρ _ => ?_
  refine (holds_setAttrs (I := M.inst P τ) _ cLeX ρ).mpr ?_
  rw [cLeX, holds_order ⟨rfl, rfl⟩ rfl rfl]
  exact (S.le (constVal_mem ⟨rfl, rfl, rfl⟩) (constVal_mem ⟨rfl, rfl, rfl⟩)).mpr (toInt_lt S hlt).le

theorem chosen_below : chosen x (task [] cLeX) =
    ([⟨.dprop paxiom ⟨104⟩ cLtX, [104]⟩, ⟨.dparam c, [103]⟩], []) := by rfl

theorem generalises_below : Generalises x (boundTerm none) (task [] cLeX) where
  boundMono := rfl
  boundConst := by decide
  left := by decide
  hypMono := by
    intro d hd f hf _
    rw [chosen_below] at hd
    simp only [mem_cons, not_mem_nil, or_false] at hd
    rcases hd with rfl | rfl <;> cases hf
    rfl
  paramMono := by
    intro d hd s hs ty hty
    rw [chosen_below] at hd
    simp only [mem_cons, not_mem_nil, or_false] at hd
    rcases hd with rfl | rfl <;> cases hs
    cases hty
    rfl

/-- The induction on `x` up to zero, where `c` is generalised. -/
theorem induction_sound_below : (task [] cLeX).ValidInt (fun _ => []) le lt :=
  induction_sound (input (run_task rfl rfl) wt_cLeX rfl (by decide) (fun _ h => by cases h))
    induction_below generalises_below (below_valid _ _) (below_valid _ _)

end Below

end IntInduction

end Why3
