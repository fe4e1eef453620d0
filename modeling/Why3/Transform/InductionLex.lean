import Why3.Core.Lambda
import Why3.Core.SubstVars
import Why3.Core.TaskRun
import Why3.Core.Validity
import Why3.Core.TermSimp
import Why3.Lib.LexMeasure

/-!
# Lexicographic induction

The induction scheme that `induction_ty_lex` of `transform/induction.ml` builds for some
variables of a quantified formula.  A hypothesis generalises the variables that come later in
the formula and those that come later in the lexicographic order; it is one of a well-founded
induction on the values in this order.

The tags from `k` on are free.
-/

namespace Why3

open List Pattern Interp

variable {lexl : List Vlex}

namespace InductionLex

/-- `tyscheme`. -/
abbrev Tyscheme := List (Pattern × List VSymbol)

/-- `vlex`. -/
structure Vlex where
  vs : VSymbol
  lq : List VSymbol
  rq : List VSymbol
  ts : Tyscheme

/-! ## Schemes of types -/

/-- `List.map ty_vs`. -/
def tyVs (sigma : Mtv) : ℕ → List Ty → List VSymbol
  | _, [] => []
  | k, ty :: l => ⟨k, ty.inst sigma⟩ :: tyVs sigma (k + 1) l

def tyschemeConstructor (sigma : Mtv) (x : VSymbol) (k : ℕ) (ls : LSymbol) :
    Pattern × List VSymbol :=
  let vlst := tyVs sigma k ls.lsArgs
  (.papp ls (vlst.map .pvar) x.vsTy, vlst.filter (fun v => x.vsTy = v.vsTy))

/-- `List.map tyscheme_constructor`, with the next free tag. -/
def tyschemeConstructors (sigma : Mtv) (x : VSymbol) : ℕ → List Constructor → Tyscheme × ℕ
  | k, [] => ([], k)
  | k, (ls, _) :: cl =>
    let (ts, k') := tyschemeConstructors sigma x (k + ls.lsArgs.length) cl
    (tyschemeConstructor sigma x k ls :: ts, k')

/-- `none` is `assert false`. -/
def vsTyscheme (km : KnownMap) (k : ℕ) (x : VSymbol) : Option (Tyscheme × ℕ) :=
  match x.vsTy with
  | .tyvar _ => none
  | .tyapp ts l =>
    if Ty.tyapp ts l = tyInt then none
    else
      let sigma := (tyMatch [] (dataTy ts) (.tyapp ts l)).getD []
      some (tyschemeConstructors sigma x k (findConstructors km ts))

/-! ## The variables -/

/-- `aux` of `qsplit`, for the variables `vl` in lexicographic order. -/
def qsplitAux (km : KnownMap) (vl : List VSymbol) : ℕ → List VSymbol → List VSymbol →
    List VSymbol → List VSymbol → List Vlex → Option (List Vlex × List VSymbol)
  | _, _, [], lql, _, acc => some (acc.reverse, lql)
  | k, ivs, q :: tl, lql, lvl, acc =>
    if q ∈ ivs then do
      let rleft := lvl.filter (fun v => vl.idxOf q < vl.idxOf v)
      let rright := tl.filter (fun v => if v ∈ vl then vl.idxOf q < vl.idxOf v else true)
      let (ts, k) ← vsTyscheme km k q
      qsplitAux km vl k (ivs.filter (· ≠ q)) tl [] (q :: lvl)
        (⟨q, lql.reverse, rleft.reverse ++ rright, ts⟩ :: acc)
    else if ivs = [] then some (acc.reverse, q :: tl)
    else qsplitAux km vl k ivs tl (q :: lql) lvl acc

def qsplit (km : KnownMap) (k : ℕ) (vl qvl : List VSymbol) :
    Option (List Vlex × List VSymbol) :=
  qsplitAux km vl k vl qvl [] [] []

/-! ## The formula -/

/-- The induction hypothesis for `x` in the place of the variable. -/
def hypothesis (t : Term) (v : Vlex) (x : VSymbol) : Term :=
  tQuant .tforall v.rq [] (tSubstSingle v.vs (.tvar [] x) t)

def makeH (t : Term) (v : Vlex) (vset : List VSymbol) (timp : Term) : Term :=
  vset.foldl (fun timp x => .tbinop [] .timplies (hypothesis t v x) timp) timp

/-- `aux` of `make_induction_lex`. -/
def aux (t : Term) : List Vlex → Term → Term
  | [], timp => timp
  | v :: vl, timp =>
    tQuant .tforall (v.lq ++ [v.vs]) []
      (.tcase [] (.tvar [] v.vs) (v.ts.map fun b => (b.1, aux t vl (makeH t v b.2 timp))))

def makeInductionLex (lexl : List Vlex) (rql : List VSymbol) (t : Term) : Term :=
  aux t lexl (tQuant .tforall rql [] t)

/-- The new goal of `induction_ty_lex`, for the chosen variables. -/
def inductionTyLex (km : KnownMap) (k : ℕ) (vl qvl : List VSymbol) (t : Term) : Option Term := do
  let (lexl, rql) ← qsplit km k vl qvl
  some (makeInductionLex lexl rql t)

/-! ## What a split gives -/

/-- The variables that are quantified before the leaves. -/
def bound (lexl : List Vlex) : List VSymbol := lexl.flatMap fun v => v.lq ++ [v.vs]

/-- The schemes are those of the types, with tags that increase. -/
def Schemes (km : KnownMap) : ℕ → List Vlex → Prop
  | _, [] => True
  | k, v :: lexl => ∃ k', vsTyscheme km k v.vs = some (v.ts, k') ∧ Schemes km k' lexl

/-- The induction hypotheses of a variable generalise the variables that are left over, and no
variable that is as heavy. -/
structure Splits (k : ℕ) (vl rql : List VSymbol) (v : Vlex) : Prop where
  mem : v.vs ∈ vl
  rest : ∀ w ∈ rql, w ∉ vl → w ∈ v.rq
  lighter : ∀ w ∈ v.rq, w ∈ vl → vl.idxOf v.vs < vl.idxOf w
  tags : ∀ w ∈ v.rq, w.vsName < k

variable {km : KnownMap} {vl : List VSymbol}

/-- The type of an induction variable. -/
def Algebraic (km : KnownMap) (v : VSymbol) : Prop :=
  ∃ ts l, v.vsTy = .tyapp ts l ∧ v.vsTy ≠ tyInt ∧ findConstructors km ts ≠ []

theorem vsTyscheme_some {k : ℕ} {x : VSymbol} (h : Algebraic km x) :
    ∃ ts l, x.vsTy = .tyapp ts l ∧ vsTyscheme km k x = some (tyschemeConstructors
      ((tyMatch [] (dataTy ts) x.vsTy).getD []) x k (findConstructors km ts)) := by
  obtain ⟨ts, l, hty, hint, -⟩ := h
  refine ⟨ts, l, hty, ?_⟩
  unfold vsTyscheme
  rw [hty] at hint ⊢
  simp only [if_neg hint]

theorem qsplitAux_spec (k₀ : ℕ) (halg : ∀ v ∈ vl, Algebraic km v) {qvl : List VSymbol} :
    ∀ (k : ℕ) (ivs lql lvl : List VSymbol) (acc : List Vlex), (∀ v ∈ ivs, v ∈ vl ∧ v ∈ qvl) →
      (ivs = [] → lql = []) → (∀ w ∈ lvl ++ qvl, w.vsName < k₀) →
      ∃ lexl rql, qsplitAux km vl k ivs qvl lql lvl acc = some (acc.reverse ++ lexl, rql) ∧
        bound lexl ++ rql = lql.reverse ++ qvl ∧ (∀ v ∈ ivs, v ∈ lexl.map Vlex.vs) ∧
        Schemes km k lexl ∧ ∀ v ∈ lexl, Splits k₀ vl rql v := by
  induction qvl with
  | nil =>
    intro k ivs lql lvl acc hivs hlql htags
    have hnil : ivs = [] := eq_nil_iff_forall_not_mem.mpr fun v hv => by
      cases (hivs v hv).2
    subst hnil
    exact ⟨[], lql, by simp [qsplitAux], by simp [bound, hlql rfl], by simp, trivial, by simp⟩
  | cons q tl ih =>
    intro k ivs lql lvl acc hivs hlql htags
    rw [qsplitAux]
    by_cases hq : q ∈ ivs
    · obtain ⟨ts, l, hty, hscheme⟩ := vsTyscheme_some (k := k) (halg q (hivs q hq).1)
      obtain ⟨lexl, rql, heq, hb, hmem, hs, hsp⟩ := ih
        (tyschemeConstructors ((tyMatch [] (dataTy ts) q.vsTy).getD []) q k
          (findConstructors km ts)).2 (ivs.filter (· ≠ q)) [] (q :: lvl)
        (⟨q, lql.reverse, (lvl.filter (fun v => vl.idxOf q < vl.idxOf v)).reverse ++
          tl.filter (fun v => if v ∈ vl then vl.idxOf q < vl.idxOf v else true),
          (tyschemeConstructors ((tyMatch [] (dataTy ts) q.vsTy).getD []) q k
            (findConstructors km ts)).1⟩ :: acc)
        (fun v hv => by
          obtain ⟨hv, hne⟩ := mem_filter.mp hv
          exact ⟨(hivs v hv).1, (mem_cons.mp (hivs v hv).2).resolve_left (by simpa using hne)⟩)
        (fun _ => rfl) (fun w hw => htags w (by simp at hw ⊢; tauto))
      rw [reverse_nil, nil_append] at hb
      rw [if_pos hq, hscheme]
      refine ⟨_ :: lexl, rql, heq.trans (by rw [reverse_cons, append_assoc]; rfl), ?_, ?_,
        ⟨_, hscheme, hs⟩, forall_mem_cons.mpr ⟨?_, hsp⟩⟩
      · rw [← hb]
        simp [bound]
      · intro v hv
        by_cases hvq : v = q
        · exact mem_cons.mpr (.inl hvq)
        · exact mem_cons_of_mem _ (hmem v (mem_filter.mpr ⟨hv, by simpa using hvq⟩))
      · refine ⟨(hivs q hq).1, fun w hw hvl => ?_, fun w hw hvl => ?_, fun w hw => ?_⟩
        · refine mem_append_right _ (mem_filter.mpr ⟨hb ▸ mem_append_right _ hw, ?_⟩)
          rw [if_neg hvl]
        · rcases mem_append.mp hw with hw | hw
          · simpa using (mem_filter.mp (mem_reverse.mp hw)).2
          · have h := (mem_filter.mp hw).2
            rw [if_pos hvl] at h
            simpa using h
        · rcases mem_append.mp hw with hw | hw
          · exact htags w (mem_append_left _ (mem_filter.mp (mem_reverse.mp hw)).1)
          · exact htags w (mem_append_right _ (mem_cons_of_mem _ (mem_filter.mp hw).1))
    · rw [if_neg hq]
      by_cases hnil : ivs = []
      · subst hnil
        rw [if_pos rfl, hlql rfl]
        exact ⟨[], q :: tl, by simp, by simp [bound], by simp, trivial, by simp⟩
      · rw [if_neg hnil]
        obtain ⟨lexl, rql, heq, hb, hmem, hs, hsp⟩ := ih k ivs (q :: lql) lvl acc
          (fun v hv => ⟨(hivs v hv).1, (mem_cons.mp (hivs v hv).2).resolve_left
            (fun h => hq (h ▸ hv))⟩) (fun h => absurd h hnil)
          (fun w hw => htags w (by simp at hw ⊢; tauto))
        exact ⟨lexl, rql, heq, by simpa using hb, hmem, hs, hsp⟩

/-! ## Schemes -/

theorem mem_tyVs {sigma : Mtv} {l : List Ty} : ∀ {k : ℕ} {v : VSymbol}, v ∈ tyVs sigma k l →
    k ≤ v.vsName ∧ v.vsName < k + l.length := by
  induction l with
  | nil =>
    intro k v h
    cases h
  | cons ty l ih =>
    intro k v h
    rw [length_cons]
    rcases mem_cons.mp h with rfl | h
    · exact ⟨le_rfl, by simp⟩
    · have := ih h
      omega

theorem nodup_tyVs (sigma : Mtv) (l : List Ty) : ∀ k, (tyVs sigma k l).Nodup := by
  induction l with
  | nil => exact fun _ => nodup_nil
  | cons ty l ih =>
    intro k
    refine nodup_cons.mpr ⟨fun h => ?_, ih (k + 1)⟩
    have : k + 1 ≤ k := (mem_tyVs h).1
    omega

theorem map_vsTy_tyVs (sigma : Mtv) (l : List Ty) :
    ∀ k, (tyVs sigma k l).map VSymbol.vsTy = l.map (Ty.inst sigma) := by
  induction l with
  | nil => exact fun _ => rfl
  | cons ty l ih => exact fun k => congrArg _ (ih (k + 1))

theorem patVars_constructor (sigma : Mtv) (x : VSymbol) (k : ℕ) (ls : LSymbol) :
    (tyschemeConstructor sigma x k ls).1.patVars = tyVs sigma k ls.lsArgs := by
  simp only [tyschemeConstructor, patVars, patVarsList_eq, flatMap_map]
  exact flatMap_singleton' _

section Constructors

variable {sigma : Mtv} {x : VSymbol}

theorem le_tyschemeConstructors (cl : List Constructor) :
    ∀ k, k ≤ (tyschemeConstructors sigma x k cl).2 := by
  induction cl with
  | nil => exact fun _ => le_rfl
  | cons c cl ih => exact fun k => (Nat.le_add_right _ _).trans (ih _)

/-- A branch of a scheme. -/
theorem mem_tyschemeConstructors {cl : List Constructor} : ∀ {k : ℕ} {b : Pattern × List VSymbol},
    b ∈ (tyschemeConstructors sigma x k cl).1 → ∃ k' ls, k ≤ k' ∧
      k' + ls.lsArgs.length ≤ (tyschemeConstructors sigma x k cl).2 ∧
      b = tyschemeConstructor sigma x k' ls := by
  induction cl with
  | nil =>
    intro k b h
    cases h
  | cons c cl ih =>
    intro k b h
    rcases mem_cons.mp h with rfl | h
    · exact ⟨k, c.1, le_rfl, le_tyschemeConstructors _ _, rfl⟩
    · obtain ⟨k', ls, hk, hk', rfl⟩ := ih h
      exact ⟨k', ls, (Nat.le_add_right _ _).trans hk, hk', rfl⟩

variable {sig : TySymbol → List LSymbol} {I : Interp sig}

/-- A value of a constructor takes the branch of the constructor. -/
theorem branches_scheme {R : Type} {r : R} {cs : LSymbol} (body : Pattern × List VSymbol → I.Env → R)
    {dl : List I.Val} {d : I.Val} {ρ : I.Env} (hd : I.dest x.vsTy d = some (cs, dl))
    (hlen : cs.lsArgs.length = dl.length) {cl : List Constructor} :
    ∀ {k : ℕ}, cs ∈ cl.map Prod.fst → ∃ k', k ≤ k' ∧
      k' + cs.lsArgs.length ≤ (tyschemeConstructors sigma x k cl).2 ∧
      tyschemeConstructor sigma x k' cs ∈ (tyschemeConstructors sigma x k cl).1 ∧
      I.branches ((tyschemeConstructors sigma x k cl).1.map fun b => (b.1, body b)) r d ρ =
        body (tyschemeConstructor sigma x k' cs)
          (bindAll ρ ((tyVs sigma k' cs.lsArgs).zip dl).reverse) := by
  induction cl with
  | nil =>
    intro k h
    cases h
  | cons c cl ih =>
    intro k h
    have hmatch : matchPat I.dest (tyschemeConstructor sigma x k c.1).1 d =
        if cs = c.1 then matchArgs I.dest ((tyVs sigma k c.1.lsArgs).map .pvar) dl
        else none := by
      rw [tyschemeConstructor, matchPat, hd]
    have hlen' : (tyVs sigma k cs.lsArgs).length = dl.length := by
      rw [← hlen, ← length_map (f := VSymbol.vsTy), map_vsTy_tyVs, length_map]
    by_cases hc : cs = c.1
    · subst hc
      rw [if_pos rfl, matchArgs_vars I.dest hlen'] at hmatch
      refine ⟨k, le_rfl, le_tyschemeConstructors _ _, mem_cons_self, ?_⟩
      show I.branches ((_, _) :: _) r d ρ = _
      rw [branches_cons, hmatch]
    · rw [if_neg hc] at hmatch
      have hmem := (mem_cons.mp h).resolve_left hc
      obtain ⟨k', hk, hk', hb, heq⟩ := ih (k := k + c.1.lsArgs.length) hmem
      refine ⟨k', (Nat.le_add_right _ _).trans hk, hk', mem_cons_of_mem _ hb, ?_⟩
      show I.branches ((_, _) :: _) r d ρ = _
      rw [branches_cons, hmatch]
      have hne : ((tyschemeConstructors sigma x (k + c.1.lsArgs.length) cl).1.map
          fun b => (b.1, body b)) ≠ [] := by
        intro hnil
        rw [map_eq_nil_iff] at hnil
        rw [hnil] at hb
        cases hb
      simp only [if_neg hne]
      exact heq

end Constructors

/-! ## The formula is closed -/

theorem mem_freeVars_tQuant {q : Quant} {vl : List VSymbol} {f : Term} {w : VSymbol} :
    w ∈ (tQuant q vl [] f).freeVars ↔ w ∈ f.freeVars ∧ w ∉ vl := by
  rw [tQuant]
  split_ifs with hvl
  · subst hvl
    simp
  · simp [Term.freeVars, Term.freeVarsTriggers]

section Closed

variable {t : Term} {w : VSymbol}

theorem mem_freeVars_makeH {v : Vlex} {vset : List VSymbol} : ∀ timp : Term,
    w ∈ (makeH t v vset timp).freeVars →
      w ∈ vset ∨ (w ∈ t.freeVars ∧ w ∉ v.rq) ∨ w ∈ timp.freeVars := by
  induction vset with
  | nil => exact fun _ h => .inr (.inr h)
  | cons x vset ih =>
    intro timp h
    rcases ih (.tbinop [] .timplies (hypothesis t v x) timp) h with h | h | h
    · exact .inl (mem_cons_of_mem _ h)
    · exact .inr (.inl h)
    · rcases mem_append.mp h with h | h
      · obtain ⟨h, hrq⟩ := mem_freeVars_tQuant.mp h
        rcases mem_freeVars_tSubstSingle h with h | ⟨h, -⟩
        · obtain rfl := mem_singleton.mp h
          exact .inl mem_cons_self
        · exact .inr (.inl ⟨h, hrq⟩)
      · exact .inr (.inr h)

theorem mem_freeVars_aux : ∀ {timp : Term},
    (∀ v ∈ lexl, ∀ b ∈ v.ts, b.2 ⊆ b.1.patVars) → w ∈ (aux t lexl timp).freeVars →
      w ∉ bound lexl ∧ (w ∈ timp.freeVars ∨ ∃ v ∈ lexl, w ∈ t.freeVars ∧ w ∉ v.rq) := by
  induction lexl with
  | nil => exact fun _ h => ⟨not_mem_nil, .inl h⟩
  | cons v lexl ih =>
    intro timp hsub h
    rw [forall_mem_cons] at hsub
    obtain ⟨h, hv⟩ := mem_freeVars_tQuant.mp h
    simp only [Term.freeVars, Term.freeVarsBranches_eq, mem_append, mem_flatMap, mem_map,
      mem_filter, decide_eq_true_eq] at h
    rcases h with h | ⟨_, ⟨b, hb, rfl⟩, h, hpat⟩
    · exact absurd (mem_append_right _ h) hv
    · obtain ⟨hbound, h⟩ := ih hsub.2 h
      refine ⟨fun hmem => (mem_append.mp hmem).elim hv hbound, ?_⟩
      rcases h with h | ⟨v', hv', h⟩
      · rcases mem_freeVars_makeH _ h with h | h | h
        · exact absurd (hsub.1 b hb h) hpat
        · exact .inr ⟨v, mem_cons_self, h⟩
        · exact .inl h
      · exact .inr ⟨v', mem_cons_of_mem _ hv', h⟩

end Closed

theorem Schemes.subset : ∀ {k : ℕ}, Schemes km k lexl →
    ∀ v ∈ lexl, ∀ b ∈ v.ts, b.2 ⊆ b.1.patVars := by
  induction lexl with
  | nil => exact fun _ => by simp
  | cons v lexl ih =>
    rintro k ⟨k', hts, hs⟩
    refine forall_mem_cons.mpr ⟨fun b hb => ?_, ih hs⟩
    unfold vsTyscheme at hts
    split at hts
    · cases hts
    · split_ifs at hts
      have hts' := (Prod.mk.inj (Option.some.inj hts)).1
      rw [← hts'] at hb
      obtain ⟨k₁, ls, -, -, rfl⟩ := mem_tyschemeConstructors hb
      rw [patVars_constructor]
      exact fun y hy => (mem_filter.mp hy).1

/-! ## The formula is sound -/

section Sound

/-- The constructors of the known types. -/
abbrev constructors (km : KnownMap) (ts : TySymbol) : List LSymbol :=
  (findConstructors km ts).map Prod.fst

variable {I : Interp (constructors km)} {t : Term}

theorem holds_makeH {v : Vlex} {σ : I.Env} {vset : List VSymbol} : ∀ timp : Term,
    I.Holds σ (makeH t v vset timp) → (∀ x ∈ vset, I.Holds σ (hypothesis t v x)) →
      I.Holds σ timp := by
  induction vset with
  | nil => exact fun _ h _ => h
  | cons x vset ih =>
    intro timp h hx
    rw [forall_mem_cons] at hx
    exact ih (.tbinop [] .timplies (hypothesis t v x) timp) h hx.2 hx.1

/-- A valuation with the values of another one for some variables. -/
def override (ρ ρ' : I.Env) (vl : List VSymbol) : I.Env := fun w => if w ∈ vl then ρ' w else ρ w

theorem typed_override {ρ ρ' : I.Env} (hρ : I.Typed ρ) (hρ' : I.Typed ρ') (vl : List VSymbol) :
    I.Typed (override ρ ρ' vl) := by
  intro w
  unfold override
  split_ifs
  · exact hρ' w
  · exact hρ w

theorem holds_override {ρ ρ' : I.Env} (hρ : I.Typed ρ) (hρ' : I.Typed ρ') {vl : List VSymbol}
    {f : Term} (h : I.Holds ρ (tQuant .tforall vl [] f)) : I.Holds (override ρ ρ' vl) f :=
  (quant_forall_iff hρ).mp ((I.holds_tQuant ..).mp h) _ (typed_override hρ hρ' vl)
    fun _ hw => if_neg hw

/-- The constructors have the type that they construct. -/
def DataTyped (km : KnownMap) : Prop :=
  ∀ ts, ∀ c ∈ findConstructors km ts, c.1.lsValue = some (dataTy ts)

theorem map_vsTy_scheme (hkm : DataTyped km) {x : VSymbol} {ts : TySymbol} {cs : LSymbol}
    (hcs : cs ∈ constructors km ts) (k : ℕ) :
    (tyVs ((tyMatch [] (dataTy ts) x.vsTy).getD []) k cs.lsArgs).map VSymbol.vsTy =
      argTys cs x.vsTy := by
  obtain ⟨c, hc, rfl⟩ := mem_map.mp hcs
  rw [map_vsTy_tyVs, argTys, hkm ts c hc]

/-- A match on the variable takes a branch, whose variables are components of its value. -/
theorem holds_case (hkm : DataTyped km) {k k' : ℕ} {x : VSymbol} {ts : Tyscheme}
    (halg : Algebraic km x) (hts : vsTyscheme km k x = some (ts, k'))
    {body : Pattern × List VSymbol → Term} {ρ : I.Env} (hρ : I.Typed ρ)
    (h : I.Holds ρ (.tcase [] (.tvar [] x) (ts.map fun b => (b.1, body b)))) :
    k ≤ k' ∧ ∃ vlst ρ', I.Typed ρ' ∧ (∀ w ∈ vlst, k ≤ w.vsName ∧ w.vsName < k') ∧
      (∀ w ∉ vlst, ρ' w = ρ w) ∧ (∀ y ∈ vlst, I.Component (y.vsTy, ρ' y) (x.vsTy, ρ x)) ∧
      ∃ b ∈ ts, b.2 ⊆ vlst ∧ (∀ y ∈ b.2, y.vsTy = x.vsTy) ∧ I.Holds ρ' (body b) := by
  obtain ⟨s, l, hty, hscheme⟩ := vsTyscheme_some (k := k) halg
  obtain ⟨rfl, rfl⟩ := Prod.mk.inj (Option.some.inj (hts.symm.trans hscheme))
  have hmem : I.mem x.vsTy (ρ x) := hρ x
  have hne : constrsOf (constructors km) x.vsTy ≠ [] := by
    obtain ⟨s', l', hty', -, hcl⟩ := halg
    rw [hty']
    exact fun hnil => hcl (map_eq_nil_iff.mp hnil)
  obtain ⟨⟨cs, dl⟩, hdest⟩ := I.dest_some hmem hne
  obtain ⟨hcs, hdl⟩ := I.dest_mem hmem hdest
  rw [hty] at hcs
  have htys := map_vsTy_scheme (x := x) hkm hcs
  have hlen : cs.lsArgs.length = dl.length := by
    rw [← hdl.length_eq, ← htys 0, map_vsTy_tyVs, length_map]
  obtain ⟨k₁, hk₁, hk₁', hb, hbranch⟩ := branches_scheme (k := k) (fun b => I.sem (body b))
    (r := ⟨I.dflt tyInt, False⟩) (ρ := ρ) hdest hlen hcs
  set sigma := (tyMatch [] (dataTy s) x.vsTy).getD []
  set vlst := tyVs sigma k₁ cs.lsArgs with hvlst
  have hlen' : vlst.length = dl.length := by
    rw [← length_map (f := VSymbol.vsTy), htys, hdl.length_eq]
  set ρ' := bindAll ρ (vlst.zip dl).reverse with hρ'
  have hvals : dl = vlst.map ρ' := (map_bindAll_zip (nodup_tyVs ..) hlen').symm
  refine ⟨le_tyschemeConstructors .., vlst, ρ', typed_bindAll hρ fun c hc => ?_,
    fun w hw => ?_, fun w hw => bindAll_of_not_mem fun hzip => hw ?_, fun y hy => ?_, _, hb,
    fun y hy => (mem_filter.mp hy).1, fun y hy => ?_, ?_⟩
  · rw [← htys k₁, forall₂_map_left_iff] at hdl
    exact forall₂_zip hdl (mem_reverse.mp hc)
  · obtain ⟨hlow, hhigh⟩ := mem_tyVs hw
    exact ⟨hk₁.trans hlow, hhigh.trans_le hk₁'⟩
  · rw [map_reverse, mem_reverse, map_fst_zip hlen'.le] at hzip
    exact hzip
  · refine ⟨cs, dl, hmem, hdest, ?_⟩
    rw [← htys k₁, hvals, zip_map']
    exact mem_map.mpr ⟨y, hy, rfl⟩
  · exact (of_decide_eq_true (mem_filter.mp hy).2).symm
  · show (I.sem (body _) ρ').tr
    rw [← hbranch]
    rw [Interp.Holds, sem_tcase, map_map] at h
    exact h

/-- The values at the leaf that the values `ρt` of the variables lead to, when the induction
hypotheses hold on the way. -/
theorem holds_aux (hkm : DataTyped km) {ρt : I.Env} (hρt : I.Typed ρt) :
    ∀ {k : ℕ} {timp : Term} {ρ : I.Env}, Schemes km k lexl → (∀ v ∈ lexl, Algebraic km v.vs) →
      (∀ w ∈ bound lexl ++ vl, w.vsName < k) → I.Typed ρ →
      (∀ w ∈ vl, w ∉ bound lexl → ρ w = ρt w) →
      (∀ v ∈ lexl, ∀ (x : VSymbol) (σ : I.Env), k ≤ x.vsName → x.vsTy = v.vs.vsTy → I.Typed σ →
        (∀ w ∈ vl, σ w = ρt w) → I.Component (x.vsTy, σ x) (v.vs.vsTy, ρt v.vs) →
        I.Holds σ (hypothesis t v x)) →
      I.Holds ρ (aux t lexl timp) →
      ∃ σ, I.Typed σ ∧ (∀ w ∈ bound lexl, σ w = ρt w) ∧
        (∀ w, w ∉ bound lexl → w.vsName < k → σ w = ρ w) ∧ I.Holds σ timp := by
  induction lexl with
  | nil =>
    intro k timp ρ _ _ _ hρ _ _ h
    exact ⟨ρ, hρ, by simp [bound], fun _ _ _ => rfl, h⟩
  | cons v lexl ih =>
    rintro k timp ρ ⟨k', hts, hs⟩ halg htags hρ hvl hhyp h
    rw [forall_mem_cons] at halg hhyp
    have hlt : ∀ w ∈ v.lq ++ [v.vs], w.vsName < k := fun w hw =>
      htags w (mem_append_left _ (mem_append_left _ hw))
    -- the quantified variables take their values
    have h₁ := holds_override hρ hρt h
    have hvs : override ρ ρt (v.lq ++ [v.vs]) v.vs = ρt v.vs :=
      if_pos (mem_append_right _ (mem_singleton_self _))
    obtain ⟨hkk', vlst, ρ₂, hρ₂, hnew, hold, hcomp, b, hb, hsub, hbty, h₂⟩ :=
      holds_case hkm halg.1 hts (typed_override hρ hρt _) h₁
    have hρ₂old : ∀ w, w.vsName < k → ρ₂ w = override ρ ρt (v.lq ++ [v.vs]) w := fun w hw =>
      hold w fun hmem => absurd (hnew w hmem).1 (Nat.not_le.mpr hw)
    have htags' : ∀ w ∈ bound lexl ++ vl, w.vsName < k := fun w hw => htags w (by
      rcases mem_append.mp hw with hw | hw
      · exact mem_append_left _ (mem_append_right _ hw)
      · exact mem_append_right _ hw)
    have hagree : ∀ w ∈ vl, w ∉ bound lexl → ρ₂ w = ρt w := by
      intro w hw hnot
      rw [hρ₂old w (htags' w (mem_append_right _ hw))]
      by_cases hmem : w ∈ v.lq ++ [v.vs]
      · exact if_pos hmem
      · exact (if_neg hmem).trans (hvl w hw fun h => (mem_append.mp h).elim hmem hnot)
    obtain ⟨σ, hσ, hbound, hrest, hholds⟩ := ih hs halg.2
      (fun w hw => (htags' w hw).trans_le hkk') hρ₂ hagree
      (fun v' hv' x σ' hx => hhyp.2 v' hv' x σ' (hkk'.trans hx)) h₂
    have hkeep : ∀ w, w ∉ bound lexl → w.vsName < k → σ w = override ρ ρt (v.lq ++ [v.vs]) w :=
      fun w hw hwk => (hrest w hw (hwk.trans_le hkk')).trans (hρ₂old w hwk)
    have hσbound : ∀ w ∈ bound (v :: lexl), σ w = ρt w := by
      intro w hw
      by_cases hw' : w ∈ bound lexl
      · exact hbound w hw'
      · have hmem := (mem_append.mp hw).resolve_right hw'
        exact (hkeep w hw' (hlt w hmem)).trans (if_pos hmem)
    have hσvl : ∀ w ∈ vl, σ w = ρt w := by
      intro w hw
      by_cases hw' : w ∈ bound lexl
      · exact hbound w hw'
      · exact (hrest w hw' ((htags' w (mem_append_right _ hw)).trans_le hkk')).trans
          (hagree w hw hw')
    refine ⟨σ, hσ, hσbound, fun w hw hwk => ?_, holds_makeH _ hholds fun x hx => ?_⟩
    · have hnot : w ∉ v.lq ++ [v.vs] ∧ w ∉ bound lexl := by
        rwa [← not_or, ← mem_append]
      exact (hkeep w hnot.2 hwk).trans (if_neg hnot.1)
    · have hx' := hnew x (hsub hx)
      have hσx : σ x = ρ₂ x := hrest x (fun hmem =>
        absurd (htags' x (mem_append_left _ hmem)) (Nat.not_lt.mpr hx'.1)) hx'.2
      refine hhyp.1 x σ hx'.1 (hbty x hx) hσ hσvl ?_
      rw [hσx, ← hvs]
      exact hcomp x (hsub hx)

/-- The variables before a variable in the list are before it in the order. -/
theorem exists_split {v : VSymbol} (hv : v ∈ vl) :
    ∃ pre post, vl = pre ++ v :: post ∧ ∀ w ∈ pre, w ∈ vl ∧ vl.idxOf w < vl.idxOf v := by
  obtain ⟨pre, post, rfl, hnot⟩ := eq_append_cons_of_mem hv
  refine ⟨pre, post, rfl, fun w hw => ⟨mem_append_left _ hw, ?_⟩⟩
  rw [idxOf_append_of_mem hw, idxOf_append_of_notMem hnot]
  exact (idxOf_lt_length_of_mem hw).trans_le (Nat.le_add_right _ _)

/-- The values of the variables, in lexicographic order. -/
def measure (vl : List VSymbol) (ρ : I.Env) : List (Ty × I.Val) := vl.map fun v => (v.vsTy, ρ v)

theorem holds_of_makeInductionLex (hkm : DataTyped km) (hfin : WellFounded I.Component)
    (halg : ∀ v ∈ vl, Algebraic km v) (ht : t.Wt (constructors km)) (hty : t.tTy = none) {k : ℕ}
    {rql : List VSymbol} (hs : Schemes km k lexl)
    (hsp : ∀ v ∈ lexl, Splits k vl rql v) (hvl : ∀ v ∈ vl, v ∈ bound lexl)
    (htags : ∀ w ∈ bound lexl ++ vl, w.vsName < k) (hfv : ∀ w ∈ t.freeVars, w ∈ bound lexl ++ rql)
    {ρ : I.Env} (hρ : I.Typed ρ) (h : I.Holds ρ (makeInductionLex lexl rql t)) (ρt : I.Env) :
    I.Typed ρt → I.Holds ρt t := by
  induction ρt using (InvImage.wf (measure vl)
    (LexMeasure.wellFounded_listLex hfin vl.length)).induction with
  | _ ρt ih =>
    intro hρt
    -- the hypotheses for smaller values
    have hhyp : ∀ v ∈ lexl, ∀ (x : VSymbol) (σ : I.Env), k ≤ x.vsName → x.vsTy = v.vs.vsTy →
        I.Typed σ → (∀ w ∈ vl, σ w = ρt w) → I.Component (x.vsTy, σ x) (v.vs.vsTy, ρt v.vs) →
        I.Holds σ (hypothesis t v x) := by
      intro v hv x σ hx hxty hσ hσvl hcomp
      refine (I.holds_tQuant ..).mpr ((quant_forall_iff hσ).mpr fun σ' hσ' hag => ?_)
      have hx' : σ' x = σ x := hag x fun hmem => absurd ((hsp v hv).tags x hmem) (Nat.not_lt.mpr hx)
      have hwt : (Term.tvar [] x).Wt (constructors km) := by
        unfold Term.Wt
        trivial
      have hsub := (sem_tSubstSingle hwt (congrArg some hxty) ht σ').2 hty
      rw [eval_tvar, hx'] at hsub
      refine hsub.mpr (ih _ ⟨by simp [measure], by simp [measure], ?_⟩
        (typed_update hσ' (hxty ▸ hσ x)))
      obtain ⟨pre, post, hsplit, hpre⟩ := exists_split (hsp v hv).mem
      have hsame : measure pre (Function.update σ' v.vs (σ x)) = measure pre ρt := by
        refine map_congr_left fun w hw => ?_
        obtain ⟨hwvl, hlt⟩ := hpre w hw
        have hne : w ≠ v.vs := fun h => lt_irrefl _ (h ▸ hlt)
        rw [Function.update_of_ne hne, hag w fun hmem =>
          lt_asymm hlt ((hsp v hv).lighter w hmem hwvl), hσvl w hwvl]
      have happ : ∀ ρ₁ : I.Env, measure vl ρ₁ =
          measure pre ρ₁ ++ (v.vs.vsTy, ρ₁ v.vs) :: measure post ρ₁ := by
        intro ρ₁
        rw [hsplit]
        exact map_append
      rw [happ, happ, hsame, Function.update_self]
      exact Lex.append_left _ (.rel (hxty ▸ hcomp)) _
    obtain ⟨σ, hσ, hbound, -, hleaf⟩ := holds_aux hkm hρt hs
      (fun v hv => halg _ (hsp v hv).mem) htags hρ (fun w hw hnot => absurd (hvl w hw) hnot) hhyp h
    refine (holds_congr ht fun w hw => ?_).mp (holds_override hσ hρt hleaf)
    unfold override
    split_ifs with hmem
    · rfl
    · exact hbound w ((mem_append.mp (hfv w hw)).resolve_right hmem)

end Sound

/-! ## The new goal -/

theorem dataTyped {n : ℕ} {task : Task} (h : Task.Run n task) : DataTyped task.known := by
  intro ts c hc
  obtain ⟨d, tdl, cl, hd, hnode, hmem, hcl, -⟩ := mem_findConstructors hc
  have hcreated := h.inv.created d (h.inv.known _ d hd).2
  exact (((createDataDecl_ok (hcreated.data_inv hnode)).2 _ hmem).2 c hcl).1

theorem inductionTyLex_sound {n : ℕ} {task : Task} (hrun : Task.Run n task) {qvl : List VSymbol}
    {t : Term} {k : ℕ} (hvl : ∀ v ∈ vl, v ∈ qvl) (halg : ∀ v ∈ vl, Algebraic task.known v)
    (ht : t.Wt (constructors task.known)) (hty : t.tTy = none) (hfv : ∀ w ∈ t.freeVars, w ∈ qvl)
    (htags : ∀ w ∈ qvl, w.vsName < k) :
    ∃ f, inductionTyLex task.known k vl qvl t = some f ∧ f.freeVars = [] ∧
      ∀ I : Interp (constructors task.known), WellFounded I.Component → ∀ ρ, I.Typed ρ →
        I.Holds ρ f → I.Holds ρ (tQuant .tforall qvl [] t) := by
  obtain ⟨lexl, rql, hsplit, hbound, hmem, hs, hsp⟩ := qsplitAux_spec k halg k vl [] [] []
    (fun v hv => ⟨hv, hvl v hv⟩) (fun _ => rfl) (by simpa using htags)
  rw [reverse_nil, nil_append] at hsplit hbound
  have hvlb : ∀ v ∈ vl, v ∈ bound lexl := by
    intro v hv
    obtain ⟨e, he, rfl⟩ := mem_map.mp (hmem v hv)
    exact mem_flatMap.mpr ⟨e, he, mem_append_right _ (mem_singleton_self _)⟩
  refine ⟨makeInductionLex lexl rql t, ?_, ?_, fun I hfin ρ hρ h => ?_⟩
  · unfold inductionTyLex qsplit
    rw [hsplit]
    rfl
  · refine eq_nil_iff_forall_not_mem.mpr fun w hw => ?_
    obtain ⟨hnot, h⟩ := mem_freeVars_aux hs.subset hw
    have hrql : ∀ w ∈ t.freeVars, w ∉ bound lexl → w ∈ rql := fun w hw hnot =>
      (mem_append.mp (hbound ▸ hfv w hw)).resolve_left hnot
    rcases h with h | ⟨v, hv, h, hrq⟩
    · obtain ⟨h, hrest⟩ := mem_freeVars_tQuant.mp h
      exact hrest (hrql w h hnot)
    · exact hrq ((hsp v hv).rest w (hrql w h hnot) fun hw => hnot (hvlb w hw))
  · refine (I.holds_tQuant ..).mpr ((quant_forall_iff hρ).mpr fun ρt hρt _ => ?_)
    refine holds_of_makeInductionLex (dataTyped hrun) hfin halg ht hty hs hsp hvlb ?_
      (hbound ▸ hfv) hρ h ρt hρt
    intro w hw
    rcases mem_append.mp hw with hw | hw
    · exact htags w (hbound ▸ mem_append_left _ hw)
    · exact htags w (hvl w hw)

/-- A task with the lists of the integers. -/
def listTask : Task :=
  ⟨[.decl Lists.listDecl], Lists.listDecl.dNews.map (·, Lists.listDecl)⟩

theorem run_listTask : Task.Run 200 listTask := by
  have hadd : Task.addTdecl 200 Task.empty (.decl Lists.listDecl) = .ok listTask := rfl
  refine Task.Run.nil.add (fun d hd => ?_) hadd
  cases hd
  exact .data Lists.createDataDecl_list

def listX : VSymbol := ⟨110, Lists.listTy tyInt⟩
def listY : VSymbol := ⟨111, Lists.listTy tyInt⟩

/-- `x = y -> y = x`. -/
def symmetry : Term :=
  .tbinop [] .timplies (tEqu (.tvar [] listX) (.tvar [] listY))
    (tEqu (.tvar [] listY) (.tvar [] listX))

/-- The first variable of the formula is the second one of the lexicographic order. -/
theorem inductionTyLex_sound_lists :
    ∃ f, inductionTyLex listTask.known 300 [listY, listX] [listX, listY] symmetry = some f ∧
      f.freeVars = [] ∧ ∀ I : Interp (constructors listTask.known), WellFounded I.Component →
        ∀ ρ, I.Typed ρ → I.Holds ρ f → I.Holds ρ (tQuant .tforall [listX, listY] [] symmetry) := by
  apply inductionTyLex_sound run_listTask
  · simp
  · simp only [forall_mem_cons, not_mem_nil, false_imp_iff, implies_true, and_true]
    exact ⟨⟨_, _, rfl, by decide, by decide⟩, _, _, rfl, by decide, by decide⟩
  · exact ⟨rfl, rfl, wt_tEqu rfl rfl trivial trivial, wt_tEqu rfl rfl trivial trivial⟩
  · rfl
  · decide
  · decide

end InductionLex

end Why3
