import Why3.Mlw.Transition

/-!
# Exposed regions and the fields of a record

The flags of a type symbol say which of its parameters and regions the fields
of a record expose.  For the symbols that `create_plain_record_itysymbol` makes
they are computed from the fields, so that following the exposed positions of a
region and following the types of its fields is the same.
-/

namespace Why3

open Checks Paired Relation List

/-! ## Positions -/

variable {r : Region}

section Positions

theorem expRegs_of_pure {t : Ity} (h : t.pure = true) : t.expRegs = [] := by
  cases t with
  | ityreg r => cases h
  | ityapp s tl rl => rw [Ity.expRegs, if_pos h]
  | ityvar v => rfl

variable {rl tl : List Ity} {s : ItySymbol}

theorem pure_ityapp :
    (Ity.ityapp s tl rl).pure = true ↔ (∀ t ∈ tl, t.pure = true) ∧ ∀ t ∈ rl, t.pure = true := by
  rw [Ity.pure, Ity.pureList_eq, Ity.pureList_eq, Bool.and_eq_true, all_eq_true,
    all_eq_true]

theorem mem_positions_snd {x : ItsFlag × Ity} (h : x ∈ s.positions tl rl) :
    x.2 ∈ tl ∨ x.2 ∈ rl := by
  rcases mem_append.mp h with h | h
  · exact .inl (of_mem_zip h).2
  · exact .inr (of_mem_zip h).2

/-- The regions exposed in the positions of `l`. -/
def exposedIn (l : List (ItsFlag × Ity)) : List Region :=
  l.flatMap (fun x => if x.1.itsExposed then x.2.expRegs else [])

theorem mem_exposedIn {l : List (ItsFlag × Ity)} :
    r ∈ exposedIn l ↔ ∃ x ∈ l, x.1.itsExposed = true ∧ r ∈ x.2.expRegs := by
  unfold exposedIn
  rw [mem_flatMap]
  refine exists_congr fun x => and_congr_right fun _ => ?_
  split <;> simp_all

theorem expRegs_ityapp : (Ity.ityapp s tl rl).expRegs = exposedIn (s.positions tl rl) := by
  rw [Ity.expRegs]
  split
  · next hp =>
      rw [pure_ityapp] at hp
      symm
      rw [eq_nil_iff_forall_not_mem]
      intro r hr
      obtain ⟨x, hx, _, hr⟩ := mem_exposedIn.mp hr
      have hpx : x.2.pure = true := by
        rcases mem_positions_snd hx with h | h
        · exact hp.1 _ h
        · exact hp.2 _ h
      rw [expRegs_of_pure hpx] at hr
      cases hr
  · rw [Ity.expRegsArgs_eq, Ity.expRegsArgs_eq, exposedIn, ItySymbol.positions, flatMap_append]

theorem Region.expRegs_eq (r : Region) : r.expRegs = exposedIn r.positions := by
  unfold Region.expRegs Region.positions exposedIn ItySymbol.positions
  rw [Ity.expRegsArgs_eq, Ity.expRegsArgs_eq, flatMap_append]

theorem expVarsArgs_eq (fll : List ItsFlag) (tl : List Ity) :
    Ity.expVarsArgs fll tl =
      (fll.zip tl).flatMap (fun p => if p.1.itsExposed then p.2.expVars else []) := by
  induction fll generalizing tl with
  | nil => simp [Ity.expVarsArgs]
  | cons fl fll ih =>
    cases tl with
    | nil => simp [Ity.expVarsArgs]
    | cons t tl => simp [Ity.expVarsArgs, ih]

theorem mem_expVars_ityapp {v : TvSymbol} : v ∈ (Ity.ityapp s tl rl).expVars ↔
      ∃ x ∈ s.positions tl rl, x.1.itsExposed = true ∧ v ∈ x.2.expVars := by
  rw [Ity.expVars, expVarsArgs_eq, expVarsArgs_eq, ← flatMap_append, mem_flatMap]
  refine exists_congr fun x => and_congr_right fun _ => ?_
  split <;> simp_all

end Positions

/-! ## Walks

The walks of `ity_rch_fold` and `ity_unc_fold` are the paths along exposed
regions. -/

variable {s : ItySymbol} {tl : List Ity} {rl : List Ity}

section Walk

variable {stop : Region → Bool}

/-- One step of a walk that ends at the regions of `stop`. -/
def ExpStep (stop : Region → Bool) (r r' : Region) : Prop := r' ∈ r.expRegs ∧ stop r' = false

theorem walkArgs_eq (sel : ItsFlag → Bool) (fll : List ItsFlag) (tl : List Ity) :
    Ity.walkArgs sel stop fll tl =
      (fll.zip tl).flatMap (fun p => if sel p.1 then p.2.walk sel stop else []) := by
  induction fll generalizing tl with
  | nil => simp [Ity.walkArgs]
  | cons fl fll ih =>
    cases tl with
    | nil => simp [Ity.walkArgs]
    | cons t tl => simp [Ity.walkArgs, ih]

theorem mem_walkArgs :
    r ∈ Ity.walkArgs ItsFlag.itsExposed stop s.itsArgFlg tl ++
        Ity.walkArgs ItsFlag.itsExposed stop s.itsRegFlg rl ↔
      ∃ x ∈ s.positions tl rl, x.1.itsExposed = true ∧ r ∈ x.2.walk ItsFlag.itsExposed stop := by
  rw [walkArgs_eq, walkArgs_eq, ← flatMap_append, mem_flatMap]
  refine exists_congr fun x => and_congr_right fun _ => ?_
  split <;> simp_all

theorem walk_of_pure {sel : ItsFlag → Bool} {t : Ity} (h : t.pure = true) :
    t.walk sel stop = [] := by
  cases t with
  | ityreg r => cases h
  | ityapp s tl rl => rw [Ity.walk, if_pos h]
  | ityvar v => rfl

theorem mem_walk_ityapp :
    r ∈ (Ity.ityapp s tl rl).walk ItsFlag.itsExposed stop ↔
      ∃ x ∈ s.positions tl rl, x.1.itsExposed = true ∧ r ∈ x.2.walk ItsFlag.itsExposed stop := by
  rw [Ity.walk]
  split
  · next hp =>
      rw [pure_ityapp] at hp
      constructor
      · intro h
        cases h
      · rintro ⟨x, hx, _, hr⟩
        have hpx : x.2.pure = true := by
          rcases mem_positions_snd hx with h | h
          · exact hp.1 _ h
          · exact hp.2 _ h
        rw [walk_of_pure hpx] at hr
        cases hr
  · exact mem_walkArgs

theorem mem_walk {t : Ity} : ∀ {r : Region}, r ∈ t.walk ItsFlag.itsExposed stop ↔
    ∃ r₀ ∈ t.expRegs, stop r₀ = false ∧ ReflTransGen (ExpStep stop) r₀ r := by
  -- what holds of the arguments, read at a position
  have hpos : ∀ {s : ItySymbol} {tl rl : List Ity} {r : Region},
      (∀ t ∈ tl, ∀ {r : Region}, r ∈ t.walk ItsFlag.itsExposed stop ↔
        ∃ r₀ ∈ t.expRegs, stop r₀ = false ∧ ReflTransGen (ExpStep stop) r₀ r) →
      (∀ t ∈ rl, ∀ {r : Region}, r ∈ t.walk ItsFlag.itsExposed stop ↔
        ∃ r₀ ∈ t.expRegs, stop r₀ = false ∧ ReflTransGen (ExpStep stop) r₀ r) →
      ((∃ x ∈ s.positions tl rl, x.1.itsExposed = true ∧ r ∈ x.2.walk ItsFlag.itsExposed stop) ↔
        ∃ r₀ ∈ exposedIn (s.positions tl rl), stop r₀ = false ∧
          ReflTransGen (ExpStep stop) r₀ r) := by
    intro s tl rl r ihtl ihrl
    have ih : ∀ x ∈ s.positions tl rl, (r ∈ x.2.walk ItsFlag.itsExposed stop ↔
        ∃ r₀ ∈ x.2.expRegs, stop r₀ = false ∧ ReflTransGen (ExpStep stop) r₀ r) := by
      intro x hx
      rcases mem_positions_snd hx with h | h
      · exact ihtl _ h
      · exact ihrl _ h
    simp only [mem_exposedIn]
    constructor
    · rintro ⟨x, hx, he, hr⟩
      obtain ⟨r₀, hr₀, hs, hp⟩ := (ih x hx).mp hr
      exact ⟨r₀, ⟨x, hx, he, hr₀⟩, hs, hp⟩
    · rintro ⟨r₀, ⟨x, hx, he, hr₀⟩, hs, hp⟩
      exact ⟨x, hx, he, (ih x hx).mpr ⟨r₀, hr₀, hs, hp⟩⟩
  induction t with
  | ityreg n s tl rl ihtl ihrl =>
    intro r
    rw [Ity.walk, Ity.expRegs]
    simp only [mem_singleton, exists_eq_left]
    have hstep : (∃ r₀ ∈ exposedIn (s.positions tl rl), stop r₀ = false ∧
        ReflTransGen (ExpStep stop) r₀ r) ↔
        ∃ r₀, ExpStep stop (.mk n s tl rl) r₀ ∧ ReflTransGen (ExpStep stop) r₀ r := by
      unfold ExpStep
      rw [Region.expRegs_eq]
      simp only [and_assoc]
      exact .rfl
    split
    · next hs => simp [hs]
    · next hs =>
        rw [mem_cons, mem_walkArgs, hpos ihtl ihrl, hstep, ReflTransGen.cases_head_iff]
        simp only [Bool.not_eq_true] at hs
        simp only [hs, true_and]
        exact or_congr_left eq_comm
  | ityapp s tl rl ihtl ihrl =>
    intro r
    rw [mem_walk_ityapp, expRegs_ityapp, hpos ihtl ihrl]
  | ityvar v =>
    intro r
    simp [Ity.walk, Ity.expRegs]

end Walk

/-! ## What a substitution binds -/

section Lookup

/-- The bindings of `sbs` are kept. -/
def ItySubst.Le (sbs sbs' : ItySubst) : Prop :=
  (∀ v t, sbs.isbVar.lookup v = some t → sbs'.isbVar.lookup v = some t) ∧
    ∀ r t, sbs.isbReg.lookup r = some t → sbs'.isbReg.lookup r = some t

theorem ItySubst.Le.refl (sbs : ItySubst) : sbs.Le sbs :=
  ⟨fun _ _ h => h, fun _ _ h => h⟩

theorem ItySubst.Le.trans {a b c : ItySubst} (h : a.Le b) (h' : b.Le c) : a.Le c :=
  ⟨fun v t ht => h'.1 v t (h.1 v t ht), fun r t ht => h'.2 r t (h.2 r t ht)⟩

theorem lookup_cons_of_none {K : Type} [DecidableEq K] {l : List (K × Ity)} {k k' : K} {x y : Ity}
    (hk : l.lookup k = none) (h : l.lookup k' = some x) : ((k, y) :: l).lookup k' = some x := by
  have hne : (k' == k) = false := by
    rw [beq_eq_false_iff_ne]
    rintro rfl
    rw [hk] at h
    cases h
  rw [List.lookup_cons, hne]
  exact h

theorem ityMatchList_le
    (ih : ∀ t ∈ tl, ∀ {sbs r : ItySubst} {u : Ity}, ityMatch sbs t u = some r → sbs.Le r) :
    ∀ {sbs r : ItySubst} {ul : List Ity}, ityMatchList sbs tl ul = some r → sbs.Le r := by
  induction tl with
  | nil =>
    intro sbs r ul h
    cases ul with
    | nil =>
      cases h
      exact .refl _
    | cons u ul => cases h
  | cons t tl ihl =>
    intro sbs r ul h
    cases ul with
    | nil => cases h
    | cons u ul =>
      rw [ityMatchList] at h
      split at h
      · next s₁ hs₁ =>
          exact (ih t mem_cons_self hs₁).trans
            (ihl (fun t ht => ih t (mem_cons_of_mem _ ht)) h)
      · cases h

theorem ityMatch_le {t : Ity} : ∀ {sbs r : ItySubst} {u : Ity}, ityMatch sbs t u = some r →
    sbs.Le r := by
  induction t with
  | ityreg n s tl rl ihtl ihrl =>
    intro sbs r u h
    rw [ityMatch] at h
    cases hl : sbs.isbReg.lookup (.mk n s tl rl) with
    | some o =>
      obtain ⟨rfl, _⟩ := regMatch_old hl h
      exact .refl _
    | none =>
      obtain ⟨tl₁, rl₁, s₁, _, htl₁, hrl₁⟩ := regMatch_new hl h
      have h₀ : sbs.Le { sbs with isbReg := (.mk n s tl rl, u) :: sbs.isbReg } :=
        ⟨fun _ _ h => h, fun _ _ h => lookup_cons_of_none hl h⟩
      have h₁ := ityMatchList_le (fun t ht => ihtl t ht) htl₁
      exact (h₀.trans h₁).trans (ityMatchList_le (fun t ht => ihrl t ht) hrl₁)
  | ityapp s tl rl ihtl ihrl =>
    intro sbs r u h
    obtain ⟨tl₁, rl₁, s₁, rfl, htl₁, hrl₁⟩ := ityMatch_ityapp h
    exact (ityMatchList_le (fun t ht => ihtl t ht) htl₁).trans
      (ityMatchList_le (fun t ht => ihrl t ht) hrl₁)
  | ityvar v =>
    intro sbs r u h
    rw [ityMatch] at h
    split at h
    · next hl =>
        cases h
        exact ⟨fun _ _ h => lookup_cons_of_none hl h, fun _ _ h => h⟩
    · split at h
      · cases h
        exact .refl _
      · cases h

variable {sbs : ItySubst}

theorem regMatch_lookup {r : ItySubst} {x : Region} {u : Ity} (h : regMatch sbs x u = some r) :
    sbs.Le r ∧ r.isbReg.lookup x = some u := by
  have hle : sbs.Le r := by
    apply ityMatch_le (t := .ityreg x)
    rw [ityMatch]
    exact h
  refine ⟨hle, ?_⟩
  cases hl : sbs.isbReg.lookup x with
  | some o =>
    obtain ⟨rfl, rfl⟩ := regMatch_old hl h
    exact hl
  | none =>
    obtain ⟨n, s, tl, rl⟩ := x
    obtain ⟨tl₁, rl₁, s₁, _, htl₁, hrl₁⟩ := regMatch_new hl h
    have h₁ := ityMatchList_le (fun t _ => ityMatch_le) htl₁
    have h₂ := ityMatchList_le (fun t _ => ityMatch_le) hrl₁
    exact (h₁.trans h₂).2 _ _ lookup_cons_self

theorem regMatchList_lookup {rl : List Region} : ∀ {sbs r : ItySubst} {ul : List Ity},
    regMatchList sbs rl ul = some r →
    sbs.Le r ∧ ∀ x ∈ rl.zip ul, r.isbReg.lookup x.1 = some x.2 := by
  induction rl with
  | nil =>
    intro sbs r ul h
    cases ul with
    | nil =>
      cases h
      exact ⟨.refl _, fun x hx => by cases hx⟩
    | cons u ul => cases h
  | cons y rl ih =>
    intro sbs r ul h
    cases ul with
    | nil => cases h
    | cons u ul =>
      rw [regMatchList] at h
      split at h
      · next s₁ hs₁ =>
          obtain ⟨hle, hall⟩ := ih h
          obtain ⟨hle₁, hy⟩ := regMatch_lookup hs₁
          refine ⟨hle₁.trans hle, fun x hx => ?_⟩
          rcases mem_cons.mp hx with rfl | hx
          · exact hle.2 _ _ hy
          · exact hall x hx
      · cases h

/-- The parameters and the regions of the symbol stand for the arguments. -/
theorem itsMatchRegs_lookup
    (h : itsMatchRegs s tl rl = some sbs) : tl.length = s.itsTs.tsArgs.length ∧
      (∀ v t, (s.itsTs.tsArgs.zip tl).lookup v = some t → sbs.isbVar.lookup v = some t) ∧
      ∀ x ∈ s.itsRegions.zip rl, sbs.isbReg.lookup x.1 = some x.2 := by
  unfold itsMatchRegs itsMatchArgs at h
  split at h
  · next sbs₀ hsbs =>
      split at hsbs
      · next hlen =>
          cases hsbs
          obtain ⟨hle, hall⟩ := regMatchList_lookup h
          exact ⟨hlen.symm, hle.1, hall⟩
      · cases hsbs
  · cases h

theorem regMatchList_length {rl : List Region} : ∀ {sbs r : ItySubst} {ul : List Ity},
    regMatchList sbs rl ul = some r → rl.length = ul.length := by
  induction rl with
  | nil =>
    intro sbs r ul h
    cases ul with
    | nil => rfl
    | cons u ul => cases h
  | cons y rl ih =>
    intro sbs r ul h
    cases ul with
    | nil => cases h
    | cons u ul =>
      rw [regMatchList] at h
      split at h
      · rw [length_cons, length_cons, ih h]
      · cases h

theorem itsMatchRegs_length
    (h : itsMatchRegs s tl rl = some sbs) : s.itsRegions.length = rl.length := by
  unfold itsMatchRegs at h
  split at h
  · exact regMatchList_length h
  · cases h

/-- The place of a key in a list of keys. -/
theorem exists_index_of_lookup_zip {K α : Type} [DecidableEq K] {k : K} {x : α} :
    ∀ {l : List K} {a : List α}, (l.zip a).lookup k = some x →
      ∃ i : ℕ, l[i]? = some k ∧ a[i]? = some x ∧ ∀ {β : Type} (b : List β),
        b.length = l.length → (l.zip b).lookup k = b[i]? := by
  intro l
  induction l with
  | nil => intro a h; cases h
  | cons k' l ih =>
    intro a h
    cases a with
    | nil => cases h
    | cons y a =>
      rw [zip_cons_cons, List.lookup_cons] at h
      by_cases hk : k = k'
      · subst hk
        rw [beq_self_eq_true] at h
        refine ⟨0, rfl, by simpa using h, fun b hb => ?_⟩
        cases b with
        | nil => cases hb
        | cons z b => simp
      · have hbeq : (k == k') = false := by simpa using hk
        rw [hbeq] at h
        obtain ⟨i, hi, ha, hb⟩ := ih h
        refine ⟨i + 1, by simpa using hi, by simpa using ha, fun b hlen => ?_⟩
        cases b with
        | nil => cases hlen
        | cons z b =>
          rw [zip_cons_cons, List.lookup_cons, hbeq, getElem?_cons_succ]
          exact hb b (by simpa using hlen)

end Lookup

/-! ## Flags and fields -/

section Flags

namespace ItySymbol

def fields (s : ItySymbol) : List PvSymbol := s.itsMfields ++ s.itsOfields

def argFlag (s : ItySymbol) (v : TvSymbol) : Option ItsFlag :=
  (s.itsTs.tsArgs.zip s.itsArgFlg).lookup v

def regFlag (s : ItySymbol) (r : Region) : Option ItsFlag :=
  (s.itsRegions.zip s.itsRegFlg).lookup r

/-- The flags say what the fields expose. -/
structure Wf (s : ItySymbol) : Prop where
  nodup : s.itsTs.tsArgs.Nodup
  args : s.itsArgFlg.length = s.itsTs.tsArgs.length
  regs : s.itsRegFlg.length = s.itsRegions.length
  fixed_exposed : ∀ fl ∈ s.itsArgFlg ++ s.itsRegFlg, fl.itsFixed = true → fl.itsExposed = true
  exposed_var : ∀ f ∈ s.fields, ∀ v ∈ f.pvIty.expVars,
    ∃ fl, s.argFlag v = some fl ∧ fl.itsExposed = true
  exposed_reg : ∀ f ∈ s.fields, ∀ r ∈ f.pvIty.expRegs,
    ∃ fl, s.regFlag r = some fl ∧ fl.itsExposed = true
  fixed_var : ∀ f ∈ s.itsOfields, ∀ v ∈ f.pvIty.expVars, ∀ fl, s.argFlag v = some fl →
    fl.itsFixed = true
  fixed_reg : ∀ f ∈ s.itsOfields, ∀ r ∈ f.pvIty.expRegs, ∀ fl, s.regFlag r = some fl →
    fl.itsFixed = true
  covered_var : ∀ x ∈ s.itsTs.tsArgs.zip s.itsArgFlg, x.2.itsExposed = true →
    x.2.itsFixed = true ∨ ∃ f ∈ s.itsMfields, x.1 ∈ f.pvIty.expVars ∧ x.1 ∈ f.pvIty.freevars
  covered_reg : ∀ x ∈ s.itsRegions.zip s.itsRegFlg, x.2.itsExposed = true →
    x.2.itsFixed = true ∨ ∃ f ∈ s.itsMfields, x.1 ∈ f.pvIty.expRegs

theorem var_position {v : TvSymbol} {fl : ItsFlag} (h : s.argFlag v = some fl) :
    ∃ p : ℕ, ∀ {tl rl : List Ity} {sbs : ItySubst}, itsMatchRegs s tl rl = some sbs →
      ∃ u, sbs.isbVar.lookup v = some u ∧ (s.positions tl rl)[p]? = some (fl, u) := by
  obtain ⟨i, hi, hfl, hb⟩ := exists_index_of_lookup_zip h
  refine ⟨i, fun {tl rl sbs} hm => ?_⟩
  obtain ⟨hlen, hvar, _⟩ := itsMatchRegs_lookup hm
  have hlt : i < tl.length := by
    rw [hlen]
    exact (List.getElem?_eq_some_iff.mp hi).1
  refine ⟨tl[i], hvar v _ ?_, ?_⟩
  · rw [hb tl hlen, List.getElem?_eq_getElem hlt]
  · unfold positions
    have hz : (s.itsArgFlg.zip tl)[i]? = some (fl, tl[i]) := by
      rw [List.getElem?_zip_eq_some]
      exact ⟨hfl, List.getElem?_eq_getElem hlt⟩
    rw [List.getElem?_append_left (List.getElem?_eq_some_iff.mp hz).1, hz]

theorem reg_position {fl : ItsFlag} (h : s.regFlag r = some fl) :
    ∃ p : ℕ, ∀ {tl rl : List Ity} {sbs : ItySubst}, itsMatchRegs s tl rl = some sbs →
      ∃ u, sbs.isbReg.lookup r = some u ∧ (s.positions tl rl)[p]? = some (fl, u) := by
  obtain ⟨i, hi, hfl, _⟩ := exists_index_of_lookup_zip h
  refine ⟨min s.itsArgFlg.length s.itsTs.tsArgs.length + i, fun {tl rl sbs} hm => ?_⟩
  obtain ⟨hlen, _, hreg⟩ := itsMatchRegs_lookup hm
  have hlt : i < rl.length := by
    rw [← itsMatchRegs_length hm]
    exact (List.getElem?_eq_some_iff.mp hi).1
  refine ⟨rl[i], hreg (r, rl[i]) ?_, ?_⟩
  · apply mem_of_getElem? (i := i)
    rw [List.getElem?_zip_eq_some]
    exact ⟨hi, List.getElem?_eq_getElem hlt⟩
  · unfold positions
    rw [List.getElem?_append_right (by rw [length_zip, hlen]; omega), length_zip, hlen,
      Nat.add_sub_cancel_left, List.getElem?_zip_eq_some]
    exact ⟨hfl, List.getElem?_eq_getElem hlt⟩

end ItySymbol

theorem forall₂_positions {R : Ity → Ity → Prop} {tl' rl' : List Ity}
    (htl : List.Forall₂ R tl tl') (hrl : List.Forall₂ R rl rl') :
    List.Forall₂ (fun x y : ItsFlag × Ity => x.1 = y.1 ∧ R x.2 y.2) (s.positions tl rl)
      (s.positions tl' rl') := by
  have hzip : ∀ {fll : List ItsFlag} {l l' : List Ity}, List.Forall₂ R l l' →
      List.Forall₂ (fun x y : ItsFlag × Ity => x.1 = y.1 ∧ R x.2 y.2) (fll.zip l) (fll.zip l') := by
    intro fll l l' h
    induction h generalizing fll with
    | nil => simp
    | cons hab _ ih =>
      cases fll with
      | nil => simp
      | cons fl fll => exact .cons ⟨rfl, hab⟩ ih
  unfold ItySymbol.positions
  exact rel_append (hzip htl) (hzip hrl)

variable {t : Ity}

/-- The regions of an instance come from the parameters and the regions that are
replaced. -/
theorem mem_expRegs_inst {sbs : ItySubst} : ∀ {t' : Ity} {r : Region},
    t.inst sbs = some t' → (r ∈ t'.expRegs ↔
      (∃ k ∈ t.expRegs, ∃ u, sbs.isbReg.lookup k = some u ∧ r ∈ u.expRegs) ∨
        ∃ v ∈ t.expVars, ∃ u, sbs.isbVar.lookup v = some u ∧ r ∈ u.expRegs) := by
  induction t with
  | ityreg n s tl rl | ityvar v =>
    intro t' r h
    rw [Ity.inst] at h
    simp [Ity.expRegs, Ity.expVars, h]
  | ityapp s tl rl ihtl ihrl =>
    intro t' r h
    rw [Ity.inst] at h
    split at h
    · next tl' rl' htl hrl =>
        cases h
        have hall := forall₂_positions (s := s) (instList_eq_some htl) (instList_eq_some hrl)
        have ih : ∀ x ∈ s.positions tl rl, ∀ {t' : Ity}, x.2.inst sbs = some t' →
            (r ∈ t'.expRegs ↔
              (∃ k ∈ x.2.expRegs, ∃ u, sbs.isbReg.lookup k = some u ∧ r ∈ u.expRegs) ∨
                ∃ v ∈ x.2.expVars, ∃ u, sbs.isbVar.lookup v = some u ∧ r ∈ u.expRegs) := by
          intro x hx t' ht'
          rcases mem_positions_snd hx with h | h
          · exact ihtl _ h ht'
          · exact ihrl _ h ht'
        simp only [expRegs_ityapp, mem_exposedIn, mem_expVars_ityapp]
        constructor
        · rintro ⟨y, hy, hexp, hr⟩
          obtain ⟨x, hx, hfl, hin⟩ := exists_of_mem_right hall hy
          rw [← hfl] at hexp
          rcases (ih x hx hin).mp hr with ⟨k, hk, h⟩ | ⟨v, hv, h⟩
          · exact .inl ⟨k, ⟨x, hx, hexp, hk⟩, h⟩
          · exact .inr ⟨v, ⟨x, hx, hexp, hv⟩, h⟩
        · rintro (⟨k, ⟨x, hx, hexp, hk⟩, h⟩ | ⟨v, ⟨x, hx, hexp, hv⟩, h⟩)
          · obtain ⟨y, hy, hfl, hin⟩ := exists_of_mem_left hall hx
            rw [hfl] at hexp
            exact ⟨y, (of_mem_zip hy).2, hexp, (ih x hx hin).mpr (.inl ⟨k, hk, h⟩)⟩
          · obtain ⟨y, hy, hfl, hin⟩ := exists_of_mem_left hall hx
            rw [hfl] at hexp
            exact ⟨y, (of_mem_zip hy).2, hexp, (ih x hx hin).mpr (.inr ⟨v, hv, h⟩)⟩
    · cases h

variable {f : PvSymbol}

theorem fieldTy_inst (h : r.fieldTy f = some t) :
    ∃ sbs, itsMatchRegs r.regIts r.regArgs r.regRegs = some sbs ∧
      ((f.pvIty.pure = true ∧ f.pvIty.closed = true ∧ t = f.pvIty) ∨
        f.pvIty.inst sbs = some t) := by
  unfold Region.fieldTy at h
  split at h
  · next sbs hsbs =>
      refine ⟨sbs, hsbs, ?_⟩
      unfold Ity.fullInst at h
      split at h
      · next hp =>
          rw [Bool.and_eq_true] at hp
          cases h
          exact .inl ⟨hp.1, hp.2, rfl⟩
      · exact .inr h
  · cases h

variable {x : Region}

theorem expRegs_fieldTy (hwf : r.regIts.Wf) (hf : f ∈ r.regIts.fields)
    (h : r.fieldTy f = some t) (hx : x ∈ t.expRegs) : x ∈ r.expRegs := by
  obtain ⟨sbs, hsbs, ⟨hp, _, rfl⟩ | hin⟩ := fieldTy_inst h
  · rw [expRegs_of_pure hp] at hx
    cases hx
  · rw [Region.expRegs_eq, mem_exposedIn]
    rcases (mem_expRegs_inst hin).mp hx with ⟨k, hk, u, hu, hx⟩ | ⟨v, hv, u, hu, hx⟩
    · obtain ⟨fl, hfl, hexp⟩ := hwf.exposed_reg f hf k hk
      obtain ⟨p, hp⟩ := ItySymbol.reg_position hfl
      obtain ⟨u', hu', hpos⟩ := hp hsbs
      rw [hu, Option.some.injEq] at hu'
      subst hu'
      exact ⟨_, mem_of_getElem? hpos, hexp, hx⟩
    · obtain ⟨fl, hfl, hexp⟩ := hwf.exposed_var f hf v hv
      obtain ⟨p, hp⟩ := ItySymbol.var_position hfl
      obtain ⟨u', hu', hpos⟩ := hp hsbs
      rw [hu, Option.some.injEq] at hu'
      subst hu'
      exact ⟨_, mem_of_getElem? hpos, hexp, hx⟩

theorem lookup_zip_of_nodup {K α : Type} [DecidableEq K] {k : K} {x : α} :
    ∀ {l : List K} {a : List α}, l.Nodup → (k, x) ∈ l.zip a → (l.zip a).lookup k = some x := by
  intro l
  induction l with
  | nil => intro a _ h; cases h
  | cons k' l ih =>
    intro a hnd h
    rw [nodup_cons] at hnd
    cases a with
    | nil => cases h
    | cons y a =>
      rw [zip_cons_cons, List.lookup_cons]
      rcases mem_cons.mp h with heq | hmem
      · cases heq
        simp
      · have hne : (k == k') = false := by
          rw [beq_eq_false_iff_ne]
          rintro rfl
          exact hnd.1 (of_mem_zip hmem).1
        rw [hne]
        exact ih hnd.2 hmem

variable {writes : Mreg (Mpv Ity)} {p : Region × Region}

theorem Stitched.fieldTy (h : Stitched writes p) (hf : f ∈ p.1.regIts.itsMfields) :
    ∃ tf tt, p.1.fieldTy f = some tf ∧
      newFieldTy (writes.findD p.2 .empty) p.2 f = some tt := by
  obtain ⟨l₁, hl₁⟩ := h.from'
  obtain ⟨l₂, hl₂⟩ := h.to'
  obtain ⟨tl₁, h₁, _⟩ := regRexp_ok hl₁
  obtain ⟨tl₂, h₂, _⟩ := regRexp_ok hl₂
  obtain ⟨tf, _, htf⟩ := exists_of_mem_left h₁ hf
  rw [Region.regIts_of_erase h.same] at hf
  obtain ⟨tt, _, htt⟩ := exists_of_mem_left h₂ hf
  exact ⟨tf, tt, (mfieldTy_ok htf).1, (mfieldTy_ok htt).1⟩

/-- A region exposed in a mutable field is moved. -/
theorem Stitched.mutStep (h : Stitched writes p) (hf : f ∈ p.1.regIts.itsMfields) {tf : Ity}
    (htf : p.1.fieldTy f = some tf) (hx : x ∈ tf.expRegs) : ∃ y, PlaceStep writes p (x, y) := by
  obtain ⟨tf', tt, htf', htt⟩ := h.fieldTy hf
  rw [htf, Option.some.injEq] at htf'
  subst htf'
  obtain ⟨y, hy⟩ := exists_mem_zip (length_expRegs_of_erase (h.field_erase hf htf htt)) hx
  exact ⟨y, .inl ⟨f, hf, tf, tt, htf, htt, hy⟩⟩

/-- A region exposed in a fixed position is moved. -/
theorem Stitched.fixStep (h : Stitched writes p) {pos : ItsFlag × Ity} (hpos : pos ∈ p.1.positions)
    (hfix : pos.1.itsFixed = true) (hx : x ∈ pos.2.expRegs) : ∃ y, PlaceStep writes p (x, y) := by
  have herase := positions_of_erase h.same
  have hlen : p.1.positions.length = p.2.positions.length := by
    have := congrArg List.length herase
    simpa using this
  obtain ⟨pos', hpos'⟩ := exists_mem_zip hlen hpos
  have heq := congrArg Prod.snd (eq_of_mem_zip herase hpos')
  obtain ⟨y, hy⟩ := exists_mem_zip (length_expRegs_of_erase heq) hx
  exact ⟨y, .inr ⟨(pos, pos'), hpos', hfix, hy⟩⟩

/-- What stands at the place of a flag and of a value. -/
theorem exists_mem_zip {α β γ : Type} {names : List α} {flags : List β} {vals : List γ} {b : β}
    {c : γ} (hlen : flags.length = names.length) (h : (b, c) ∈ flags.zip vals) :
    ∃ a, (a, b) ∈ names.zip flags ∧ (a, c) ∈ names.zip vals := by
  obtain ⟨i, hi⟩ := mem_iff_getElem?.mp h
  obtain ⟨hb, hc⟩ := List.getElem?_zip_eq_some.mp hi
  have hlt : i < names.length := by
    rw [← hlen]
    exact (List.getElem?_eq_some_iff.mp hb).1
  have ha := List.getElem?_eq_getElem hlt
  exact ⟨names[i], mem_of_getElem? (List.getElem?_zip_eq_some.mpr ⟨ha, hb⟩),
    mem_of_getElem? (List.getElem?_zip_eq_some.mpr ⟨ha, hc⟩)⟩

theorem Stitched.exposed_step (h : Stitched writes p) (hwf : p.1.regIts.Wf) (hx : x ∈ p.1.expRegs) :
    ∃ y, PlaceStep writes p (x, y) := by
  obtain ⟨l, hl⟩ := h.from'
  obtain ⟨sbs, hsbs⟩ := regRexp_match hl
  obtain ⟨hlen, hvar, hreg⟩ := itsMatchRegs_lookup hsbs
  have hlen' := itsMatchRegs_length hsbs
  rw [Region.expRegs_eq, mem_exposedIn] at hx
  obtain ⟨⟨fl, u⟩, hpos, hexp, hx⟩ := hx
  rcases mem_append.mp hpos with hmem | hmem
  · obtain ⟨v, hvfl, hvu⟩ := exists_mem_zip hwf.args hmem
    have hlook := hvar _ _ (lookup_zip_of_nodup hwf.nodup hvu)
    rcases hwf.covered_var _ hvfl hexp with hfix | ⟨f, hf, hfv, hfree⟩
    · exact h.fixStep hpos hfix hx
    · obtain ⟨tf, _, htf, _⟩ := h.fieldTy hf
      refine h.mutStep hf htf ?_
      obtain ⟨sbs', hsbs', ⟨_, hclosed, _⟩ | hin⟩ := fieldTy_inst htf
      · unfold Ity.closed at hclosed
        rw [List.isEmpty_iff] at hclosed
        rw [hclosed] at hfree
        cases hfree
      · rw [hsbs, Option.some.injEq] at hsbs'
        subst hsbs'
        exact (mem_expRegs_inst hin).mpr (.inr ⟨_, hfv, u, hlook, hx⟩)
  · obtain ⟨k, hkfl, hku⟩ := exists_mem_zip hwf.regs hmem
    have hlook := hreg _ hku
    rcases hwf.covered_reg _ hkfl hexp with hfix | ⟨f, hf, hfk⟩
    · exact h.fixStep hpos hfix hx
    · obtain ⟨tf, _, htf, _⟩ := h.fieldTy hf
      refine h.mutStep hf htf ?_
      obtain ⟨sbs', hsbs', ⟨hpure, _, _⟩ | hin⟩ := fieldTy_inst htf
      · rw [expRegs_of_pure hpure] at hfk
        cases hfk
      · rw [hsbs, Option.some.injEq] at hsbs'
        subst hsbs'
        exact (mem_expRegs_inst hin).mpr (.inl ⟨_, hfk, u, hlook, hx⟩)

end Flags

end Why3
