import Why3.Lib.Checks
import Why3.Lib.Paired
import Why3.Mlw.EffAssign

/-!
# Types up to the names of their regions

Two types with the same skeleton differ only in the names of their regions; this
is what `ity_skel_check` ensures of a field and the value assigned to it.  They
expose as many regions, at the same places, and so do the fields of two regions
with the same skeleton.
-/

namespace Why3

open Checks List

variable {K : Type} {h : ℕ}

/-! ## Skeletons -/

mutual
/-- The type with all its regions given the same name. -/
def Ity.erase : Ity → Ity
  | .ityreg (.mk _ s tl rl) => .ityreg (.mk 0 s (Ity.eraseList tl) (Ity.eraseList rl))
  | .ityapp s tl rl => .ityapp s (Ity.eraseList tl) (Ity.eraseList rl)
  | .ityvar v => .ityvar v
def Ity.eraseList : List Ity → List Ity
  | [] => []
  | t :: tl => t.erase :: Ity.eraseList tl
end

@[simp] theorem Ity.eraseList_eq (l : List Ity) : Ity.eraseList l = l.map Ity.erase := by
  induction l with
  | nil => rfl
  | cons t l ih => simp [Ity.eraseList, ih]

def Region.erase (r : Region) : Region :=
  .mk 0 r.regIts (r.regArgs.map Ity.erase) (r.regRegs.map Ity.erase)

theorem Ity.erase_ityreg (r : Region) : (Ity.ityreg r).erase = .ityreg r.erase := by
  obtain ⟨n, s, tl, rl⟩ := r
  simp [Ity.erase, Region.erase, Region.regIts, Region.regArgs, Region.regRegs]

theorem Ity.erase_ityapp (s : ItySymbol) (tl rl : List Ity) :
    (Ity.ityapp s tl rl).erase = .ityapp s (tl.map Ity.erase) (rl.map Ity.erase) := by
  simp [Ity.erase]

variable {r r' : Region}

theorem Region.regIts_of_erase (h : r.erase = r'.erase) : r.regIts = r'.regIts := by
  unfold Region.erase at h
  injection h

theorem Region.regArgs_of_erase (h : r.erase = r'.erase) :
    r.regArgs.map Ity.erase = r'.regArgs.map Ity.erase := by
  unfold Region.erase at h
  injection h

theorem Region.regRegs_of_erase (h : r.erase = r'.erase) :
    r.regRegs.map Ity.erase = r'.regRegs.map Ity.erase := by
  unfold Region.erase at h
  injection h

/-! ### What is compared -/

theorem itySkelCheckList_ok {l1 : List Ity}
    (ih : ∀ t ∈ l1, ∀ t2, itySkelCheck t t2 = .ok () → t.erase = t2.erase) :
    ∀ {l2 : List Ity}, itySkelCheckList l1 l2 = .ok () → l1.map Ity.erase = l2.map Ity.erase := by
  induction l1 with
  | nil =>
    intro l2 h
    cases l2 with
    | nil => rfl
    | cons t2 l2 => cases h
  | cons t1 l1 ihl =>
    intro l2 h
    cases l2 with
    | nil => cases h
    | cons t2 l2 =>
      rw [itySkelCheckList, bind_eq_ok] at h
      obtain ⟨_, h₁, h₂⟩ := h
      rw [map_cons, map_cons, ih t1 mem_cons_self t2 h₁,
        ihl (fun t ht => ih t (mem_cons_of_mem _ ht)) h₂]

theorem itySkelCheck_ok {t1 : Ity} : ∀ {t2 : Ity}, itySkelCheck t1 t2 = .ok () →
    t1.erase = t2.erase := by
  induction t1 with
  | ityreg n s tl rl ihtl ihrl | ityapp s tl rl ihtl ihrl =>
    intro t2 h
    unfold itySkelCheck at h
    split at h
    · next heq => rw [heq]
    · split at h
      · split at h
        · next hs =>
            rw [bind_eq_ok] at h
            obtain ⟨_, htl, hrl⟩ := h
            subst hs
            simp only [Ity.erase, Ity.eraseList_eq,
              itySkelCheckList_ok (fun t ht t2 => ihtl t ht) htl,
              itySkelCheckList_ok (fun t ht t2 => ihrl t ht) hrl]
        · cases h
      · cases h
  | ityvar v =>
    intro t2 h
    unfold itySkelCheck at h
    split at h
    · next heq => rw [heq]
    · cases h

/-! ### What skeletons keep -/

variable {tl : List Ity} {t : Ity}

namespace Ity

theorem pureList_eq (l : List Ity) : pureList l = l.all pure := by
  induction l with
  | nil => rfl
  | cons t l ih => simp [pureList, ih]

theorem pure_erase (t : Ity) : t.erase.pure = t.pure := by
  induction t with
  | ityreg n s tl rl => rfl
  | ityapp s tl rl ihtl ihrl =>
    have hall : ∀ l : List Ity, (∀ t ∈ l, t.erase.pure = t.pure) →
        (l.map erase).all pure = l.all pure := by
      intro l hl
      rw [all_map, Bool.eq_iff_iff, all_eq_true, all_eq_true]
      refine forall₂_congr fun t ht => ?_
      rw [Function.comp_apply, hl t ht]
    simp only [erase, eraseList_eq, pure, pureList_eq, hall tl ihtl, hall rl ihrl]
  | ityvar v => rfl

theorem expRegsArgs_eq (fll : List ItsFlag) (tl : List Ity) :
    expRegsArgs fll tl =
      (fll.zip tl).flatMap (fun p => if p.1.itsExposed then p.2.expRegs else []) := by
  induction fll generalizing tl with
  | nil => simp [expRegsArgs]
  | cons fl fll ih =>
    cases tl with
    | nil => simp [expRegsArgs]
    | cons t tl => simp [expRegsArgs, ih]

theorem expRegsArgs_erase {fll : List ItsFlag}
    (ih : ∀ t ∈ tl, t.erase.expRegs = t.expRegs.map Region.erase) :
    expRegsArgs fll (tl.map erase) = (expRegsArgs fll tl).map Region.erase := by
  induction tl generalizing fll with
  | nil => cases fll <;> rfl
  | cons t tl ihl =>
    cases fll with
    | nil => rfl
    | cons fl fll =>
      rw [map_cons, expRegsArgs, expRegsArgs, map_append,
        ihl (fun t ht => ih t (mem_cons_of_mem _ ht))]
      congr 1
      split
      · exact ih t mem_cons_self
      · rfl

theorem expRegs_erase (t : Ity) : t.erase.expRegs = t.expRegs.map Region.erase := by
  induction t with
  | ityreg n s tl rl => simp [erase_ityreg, expRegs]
  | ityapp s tl rl ihtl ihrl =>
    have hpure := pure_erase (.ityapp s tl rl)
    rw [erase_ityapp] at hpure ⊢
    rw [expRegs, expRegs, hpure]
    split
    · rfl
    · rw [map_append, expRegsArgs_erase ihtl, expRegsArgs_erase ihrl]
  | ityvar v => rfl

theorem expRegs_of_erase {t' : Ity} (h : t.erase = t'.erase) :
    t.expRegs.map Region.erase = t'.expRegs.map Region.erase := by
  rw [← expRegs_erase, ← expRegs_erase, h]

end Ity

/-! ### Instances -/

/-- Substitutions with the same skeleton. -/
def ItySubst.Similar (sbs sbs' : ItySubst) : Prop :=
  sbs.isbVar.map (fun e => (e.1, e.2.erase)) = sbs'.isbVar.map (fun e => (e.1, e.2.erase)) ∧
    sbs.isbReg.map (fun e => (e.1, e.2.erase)) = sbs'.isbReg.map (fun e => (e.1, e.2.erase))

theorem lookup_map_erase [DecidableEq K] {l : List (K × Ity)} {k : K} :
    (l.map (fun e => (e.1, e.2.erase))).lookup k = (l.lookup k).map Ity.erase := by
  induction l with
  | nil => rfl
  | cons e l ih =>
    rw [map_cons, List.lookup_cons, List.lookup_cons, ih]
    cases k == e.1 <;> rfl

theorem lookup_similar [DecidableEq K] {l l' : List (K × Ity)}
    (h : l.map (fun e => (e.1, e.2.erase)) = l'.map (fun e => (e.1, e.2.erase))) (k : K) :
    (l.lookup k).map Ity.erase = (l'.lookup k).map Ity.erase := by
  rw [← lookup_map_erase, ← lookup_map_erase, h]

variable {sbs : ItySubst}

theorem instList_eq_some {tl' : List Ity} (h : Ity.instList sbs tl = some tl') :
    List.Forall₂ (fun t t' => t.inst sbs = some t') tl tl' := by
  induction tl generalizing tl' with
  | nil =>
    cases h
    exact .nil
  | cons t tl ih =>
    rw [Ity.instList] at h
    split at h
    · next t' tl'' ht htl =>
        cases h
        exact .cons ht (ih htl)
    · cases h

variable {sbs' : ItySubst}

theorem map_erase_of_instList {tl₁ tl₂ : List Ity}
    (ih : ∀ t ∈ tl, ∀ t₁ t₂, t.inst sbs = some t₁ → t.inst sbs' = some t₂ → t₁.erase = t₂.erase)
    (h₁ : List.Forall₂ (fun t t' => t.inst sbs = some t') tl tl₁)
    (h₂ : List.Forall₂ (fun t t' => t.inst sbs' = some t') tl tl₂) :
    tl₁.map Ity.erase = tl₂.map Ity.erase := by
  induction h₁ generalizing tl₂ with
  | nil =>
    cases h₂
    rfl
  | cons ht _ ihl =>
    cases h₂ with
    | cons ht' htl' =>
      rw [map_cons, map_cons, ih _ mem_cons_self _ _ ht ht',
        ihl (fun t ht => ih t (mem_cons_of_mem _ ht)) htl']

theorem inst_erase (hsim : sbs.Similar sbs') :
    ∀ {t₁ t₂ : Ity}, t.inst sbs = some t₁ → t.inst sbs' = some t₂ → t₁.erase = t₂.erase := by
  induction t with
  | ityreg n s tl rl =>
    intro t₁ t₂ h₁ h₂
    rw [Ity.inst] at h₁ h₂
    have h := lookup_similar hsim.2 (.mk n s tl rl)
    rw [h₁, h₂] at h
    simpa using h
  | ityapp s tl rl ihtl ihrl =>
    intro t₁ t₂ h₁ h₂
    rw [Ity.inst] at h₁ h₂
    split at h₁
    · next tl₁ rl₁ htl₁ hrl₁ =>
        split at h₂
        · next tl₂ rl₂ htl₂ hrl₂ =>
            cases h₁
            cases h₂
            rw [Ity.erase_ityapp, Ity.erase_ityapp,
              map_erase_of_instList (fun t ht _ _ => ihtl t ht) (instList_eq_some htl₁)
                (instList_eq_some htl₂),
              map_erase_of_instList (fun t ht _ _ => ihrl t ht) (instList_eq_some hrl₁)
                (instList_eq_some hrl₂)]
        · cases h₂
    · cases h₁
  | ityvar v =>
    intro t₁ t₂ h₁ h₂
    rw [Ity.inst] at h₁ h₂
    have h := lookup_similar hsim.1 v
    rw [h₁, h₂] at h
    simpa using h

theorem fullInst_erase (hsim : sbs.Similar sbs') {t₁ t₂ : Ity} (h₁ : t.fullInst sbs = some t₁)
    (h₂ : t.fullInst sbs' = some t₂) : t₁.erase = t₂.erase := by
  unfold Ity.fullInst at h₁ h₂
  split at h₁
  · next h =>
      rw [if_pos h] at h₂
      cases h₁
      cases h₂
      rfl
  · next h =>
      rw [if_neg h] at h₂
      exact inst_erase hsim h₁ h₂

/-! ### Matching -/

section Match

theorem lookup_isSome_similar [DecidableEq K] {l l' : List (K × Ity)}
    (h : l.map (fun e => (e.1, e.2.erase)) = l'.map (fun e => (e.1, e.2.erase))) (k : K) :
    (l.lookup k).isSome = (l'.lookup k).isSome := by
  have := congrArg Option.isSome (lookup_similar h k)
  simpa using this

variable {tl : List Ity}

theorem ityMatchList_similar
    (ih : ∀ t ∈ tl, ∀ {sbs sbs' r r' : ItySubst} {u u' : Ity}, sbs.Similar sbs' →
      u.erase = u'.erase → ityMatch sbs t u = some r → ityMatch sbs' t u' = some r' →
      r.Similar r') :
    ∀ {sbs sbs' r r' : ItySubst} {ul ul' : List Ity}, sbs.Similar sbs' →
      ul.map Ity.erase = ul'.map Ity.erase → ityMatchList sbs tl ul = some r →
      ityMatchList sbs' tl ul' = some r' → r.Similar r' := by
  induction tl with
  | nil =>
    intro sbs sbs' r r' ul ul' hsim _ h h'
    cases ul with
    | nil =>
      cases ul' with
      | nil =>
        cases h
        cases h'
        exact hsim
      | cons u' ul' => cases h'
    | cons u ul => cases h
  | cons t tl ihl =>
    intro sbs sbs' r r' ul ul' hsim hul h h'
    cases ul with
    | nil => cases h
    | cons u ul =>
      cases ul' with
      | nil => cases h'
      | cons u' ul' =>
        rw [map_cons, map_cons, List.cons.injEq] at hul
        rw [ityMatchList] at h h'
        split at h
        · next s₁ hs₁ =>
            split at h'
            · next s₂ hs₂ =>
                have hsim' := ih t mem_cons_self hsim hul.1 hs₁ hs₂
                exact ihl (fun t ht => ih t (mem_cons_of_mem _ ht)) hsim' hul.2 h h'
            · cases h'
        · cases h

variable {rl : List Ity} {s : ItySymbol} {u : Ity}

theorem regMatch_new {sbs r : ItySubst} {n : ℕ} (hl : sbs.isbReg.lookup (.mk n s tl rl) = none)
    (h : regMatch sbs (.mk n s tl rl) u = some r) :
    ∃ tl' rl' sbs₁, ((∃ n', u = .ityreg (.mk n' s tl' rl')) ∨ u = .ityapp s tl' rl') ∧
      ityMatchList { sbs with isbReg := (.mk n s tl rl, u) :: sbs.isbReg } tl tl' = some sbs₁ ∧
      ityMatchList sbs₁ rl rl' = some r := by
  unfold regMatch at h
  rw [hl] at h
  simp only at h
  split at h
  · next n' s' tl' rl' =>
      split at h
      · next hs =>
          subst hs
          split at h
          · next sbs₁ h₁ => exact ⟨tl', rl', sbs₁, .inl ⟨n', rfl⟩, h₁, h⟩
          · cases h
      · cases h
  · next s' tl' rl' =>
      split at h
      · next hs =>
          subst hs
          split at h
          · next sbs₁ h₁ => exact ⟨tl', rl', sbs₁, .inr rfl, h₁, h⟩
          · cases h
      · cases h
  · cases h

theorem regMatch_old {sbs r : ItySubst} {x : Region} {o : Ity} (hl : sbs.isbReg.lookup x = some o)
    (h : regMatch sbs x u = some r) : r = sbs ∧ o = u := by
  obtain ⟨n, s, tl, rl⟩ := x
  unfold regMatch at h
  rw [hl] at h
  simp only at h
  split at h
  · next ho =>
      cases h
      exact ⟨rfl, ho⟩
  · cases h

theorem ityMatch_ityapp {sbs r : ItySubst} (h : ityMatch sbs (.ityapp s tl rl) u = some r) :
    ∃ tl' rl' s₁, u = .ityapp s tl' rl' ∧ ityMatchList sbs tl tl' = some s₁ ∧
      ityMatchList s₁ rl rl' = some r := by
  unfold ityMatch at h
  split at h
  · split at h
    · next hs =>
        subst hs
        split at h
        · next s₁ h₁ => exact ⟨_, _, s₁, rfl, h₁, h⟩
        · cases h
    · cases h
  · cases h

/-- Matching the same type with types of one skeleton gives similar
substitutions. -/
theorem ityMatch_similar : ∀ {sbs sbs' r r' : ItySubst} {u u' : Ity},
    sbs.Similar sbs' → u.erase = u'.erase → ityMatch sbs t u = some r →
    ityMatch sbs' t u' = some r' → r.Similar r' := by
  induction t with
  | ityreg n s tl rl ihtl ihrl =>
    intro sbs sbs' r r' u u' hsim hu h h'
    rw [ityMatch] at h h'
    have hbound := lookup_isSome_similar hsim.2 (.mk n s tl rl)
    cases hl : sbs.isbReg.lookup (.mk n s tl rl) with
    | some o =>
      rw [hl] at hbound
      obtain ⟨o', hl'⟩ := Option.isSome_iff_exists.mp hbound.symm
      obtain ⟨rfl, _⟩ := regMatch_old hl h
      obtain ⟨rfl, _⟩ := regMatch_old hl' h'
      exact hsim
    | none =>
      rw [hl] at hbound
      have hl' : sbs'.isbReg.lookup (.mk n s tl rl) = none := by
        simpa using hbound.symm
      obtain ⟨tl₁, rl₁, s₁, hu₁, htl₁, hrl₁⟩ := regMatch_new hl h
      obtain ⟨tl₂, rl₂, s₂, hu₂, htl₂, hrl₂⟩ := regMatch_new hl' h'
      have hsim' : ItySubst.Similar
          { sbs with isbReg := (.mk n s tl rl, u) :: sbs.isbReg }
          { sbs' with isbReg := (.mk n s tl rl, u') :: sbs'.isbReg } := by
        refine ⟨hsim.1, ?_⟩
        simp only [map_cons, hu, hsim.2]
      have hargs : tl₁.map Ity.erase = tl₂.map Ity.erase ∧
          rl₁.map Ity.erase = rl₂.map Ity.erase := by
        rcases hu₁ with ⟨n₁, rfl⟩ | rfl
        · rcases hu₂ with ⟨n₂, rfl⟩ | rfl
          · simpa [Ity.erase] using hu
          · simp [Ity.erase] at hu
        · rcases hu₂ with ⟨n₂, rfl⟩ | rfl
          · simp [Ity.erase] at hu
          · simpa [Ity.erase] using hu
      have h₁ := ityMatchList_similar (fun t ht => ihtl t ht) hsim' hargs.1 htl₁ htl₂
      exact ityMatchList_similar (fun t ht => ihrl t ht) h₁ hargs.2 hrl₁ hrl₂
  | ityapp s tl rl ihtl ihrl =>
    intro sbs sbs' r r' u u' hsim hu h h'
    obtain ⟨tl₁, rl₁, s₁, rfl, htl₁, hrl₁⟩ := ityMatch_ityapp h
    obtain ⟨tl₂, rl₂, s₂, rfl, htl₂, hrl₂⟩ := ityMatch_ityapp h'
    rw [Ity.erase_ityapp, Ity.erase_ityapp, Ity.ityapp.injEq] at hu
    have h₁ := ityMatchList_similar (fun t ht => ihtl t ht) hsim hu.2.1 htl₁ htl₂
    exact ityMatchList_similar (fun t ht => ihrl t ht) h₁ hu.2.2 hrl₁ hrl₂
  | ityvar v =>
    intro sbs sbs' r r' u u' hsim hu h h'
    rw [ityMatch] at h h'
    have hbound := lookup_isSome_similar hsim.1 v
    split at h
    · next hl =>
        rw [hl] at hbound
        have hl' : sbs'.isbVar.lookup v = none := by simpa using hbound.symm
        rw [hl'] at h'
        cases h
        cases h'
        refine ⟨?_, hsim.2⟩
        simp only [map_cons, hu, hsim.1]
    · next o hl =>
        rw [hl] at hbound
        obtain ⟨o', hl'⟩ := Option.isSome_iff_exists.mp hbound.symm
        rw [hl'] at h'
        simp only at h'
        split at h
        · split at h'
          · cases h
            cases h'
            exact hsim
          · cases h'
        · cases h

theorem regMatchList_similar {rl : List Region} : ∀ {sbs sbs' r r' : ItySubst} {ul ul' : List Ity},
    sbs.Similar sbs' → ul.map Ity.erase = ul'.map Ity.erase → regMatchList sbs rl ul = some r →
    regMatchList sbs' rl ul' = some r' → r.Similar r' := by
  induction rl with
  | nil =>
    intro sbs sbs' r r' ul ul' hsim _ h h'
    cases ul with
    | nil =>
      cases ul' with
      | nil =>
        cases h
        cases h'
        exact hsim
      | cons u' ul' => cases h'
    | cons u ul => cases h
  | cons x rl ih =>
    intro sbs sbs' r r' ul ul' hsim hul h h'
    cases ul with
    | nil => cases h
    | cons u ul =>
      cases ul' with
      | nil => cases h'
      | cons u' ul' =>
        rw [map_cons, map_cons, List.cons.injEq] at hul
        rw [regMatchList] at h h'
        split at h
        · next s₁ hs₁ =>
            split at h'
            · next s₂ hs₂ =>
                have hsim' : s₁.Similar s₂ := by
                  apply ityMatch_similar (t := .ityreg x) hsim hul.1
                  · rw [ityMatch]; exact hs₁
                  · rw [ityMatch]; exact hs₂
                exact ih hsim' hul.2 h h'
            · cases h'
        · cases h

theorem itsMatchRegs_similar {tl' rl' : List Ity} {r r' : ItySubst}
    (htl : tl.map Ity.erase = tl'.map Ity.erase) (hrl : rl.map Ity.erase = rl'.map Ity.erase)
    (h : itsMatchRegs s tl rl = some r) (h' : itsMatchRegs s tl' rl' = some r') : r.Similar r' := by
  unfold itsMatchRegs itsMatchArgs at h h'
  split at h
  · next sbs hsbs =>
      split at h'
      · next sbs' hsbs' =>
          split at hsbs <;> cases hsbs
          split at hsbs' <;> cases hsbs'
          have hzip : ∀ l : List Ity, (s.itsTs.tsArgs.zip l).map (fun e => (e.1, e.2.erase)) =
              s.itsTs.tsArgs.zip (l.map Ity.erase) := by
            intro l
            rw [zip_map_right]
            rfl
          have hsim : ItySubst.Similar ⟨s.itsTs.tsArgs.zip tl, []⟩ ⟨s.itsTs.tsArgs.zip tl', []⟩ := by
            constructor
            · simp only [hzip, htl]
            · rfl
          exact regMatchList_similar hsim hrl h h'
      · cases h'
  · cases h

/-! ### What is bound

A substitution binds parts of the types that are matched. -/

section Bound

variable {P : Ity → Prop}
  (hreg : ∀ {n s tl rl}, P (.ityreg (.mk n s tl rl)) → (∀ t ∈ tl, P t) ∧ ∀ t ∈ rl, P t)
  (happ : ∀ {s tl rl}, P (.ityapp s tl rl) → (∀ t ∈ tl, P t) ∧ ∀ t ∈ rl, P t)

def ItySubst.All (P : Ity → Prop) (sbs : ItySubst) : Prop :=
  (∀ e ∈ sbs.isbVar, P e.2) ∧ ∀ e ∈ sbs.isbReg, P e.2

theorem ityMatchList_all
    (ih : ∀ t ∈ tl, ∀ {sbs r : ItySubst} {u : Ity}, sbs.All P → P u →
      ityMatch sbs t u = some r → r.All P) :
    ∀ {sbs r : ItySubst} {ul : List Ity}, sbs.All P → (∀ u ∈ ul, P u) →
      ityMatchList sbs tl ul = some r → r.All P := by
  induction tl with
  | nil =>
    intro sbs r ul hall _ h
    cases ul with
    | nil =>
      cases h
      exact hall
    | cons u ul => cases h
  | cons t tl ihl =>
    intro sbs r ul hall hul h
    cases ul with
    | nil => cases h
    | cons u ul =>
      rw [ityMatchList] at h
      split at h
      · next s₁ hs₁ =>
          have h₁ := ih t mem_cons_self hall (hul u mem_cons_self) hs₁
          exact ihl (fun t ht => ih t (mem_cons_of_mem _ ht)) h₁
            (fun u hu => hul u (mem_cons_of_mem _ hu)) h
      · cases h

include hreg happ

theorem ityMatch_all : ∀ {sbs r : ItySubst} {u : Ity}, sbs.All P → P u →
    ityMatch sbs t u = some r → r.All P := by
  induction t with
  | ityreg n s tl rl ihtl ihrl =>
    intro sbs r u hall hu h
    rw [ityMatch] at h
    cases hl : sbs.isbReg.lookup (.mk n s tl rl) with
    | some o =>
      obtain ⟨rfl, _⟩ := regMatch_old hl h
      exact hall
    | none =>
      obtain ⟨tl₁, rl₁, s₁, hu₁, htl₁, hrl₁⟩ := regMatch_new hl h
      have hall' : ItySubst.All P { sbs with isbReg := (.mk n s tl rl, u) :: sbs.isbReg } := by
        refine ⟨hall.1, ?_⟩
        rintro e he
        rcases mem_cons.mp he with rfl | he
        · exact hu
        · exact hall.2 e he
      have hargs : (∀ t ∈ tl₁, P t) ∧ ∀ t ∈ rl₁, P t := by
        rcases hu₁ with ⟨n₁, rfl⟩ | rfl
        · exact hreg hu
        · exact happ hu
      have h₁ := ityMatchList_all (fun t ht => ihtl t ht) hall' hargs.1 htl₁
      exact ityMatchList_all (fun t ht => ihrl t ht) h₁ hargs.2 hrl₁
  | ityapp s tl rl ihtl ihrl =>
    intro sbs r u hall hu h
    obtain ⟨tl₁, rl₁, s₁, rfl, htl₁, hrl₁⟩ := ityMatch_ityapp h
    have h₁ := ityMatchList_all (fun t ht => ihtl t ht) hall (happ hu).1 htl₁
    exact ityMatchList_all (fun t ht => ihrl t ht) h₁ (happ hu).2 hrl₁
  | ityvar v =>
    intro sbs r u hall hu h
    rw [ityMatch] at h
    split at h
    · cases h
      refine ⟨?_, hall.2⟩
      rintro e he
      rcases mem_cons.mp he with rfl | he
      · exact hu
      · exact hall.1 e he
    · split at h
      · cases h
        exact hall
      · cases h

theorem regMatchList_all {rl : List Region} : ∀ {sbs r : ItySubst} {ul : List Ity},
    sbs.All P → (∀ u ∈ ul, P u) → regMatchList sbs rl ul = some r → r.All P := by
  induction rl with
  | nil =>
    intro sbs r ul hall _ h
    cases ul with
    | nil =>
      cases h
      exact hall
    | cons u ul => cases h
  | cons x rl ih =>
    intro sbs r ul hall hul h
    cases ul with
    | nil => cases h
    | cons u ul =>
      rw [regMatchList] at h
      split at h
      · next s₁ hs₁ =>
          have h₁ : s₁.All P := by
            apply ityMatch_all (t := .ityreg x) hreg happ hall (hul u mem_cons_self)
            rw [ityMatch]
            exact hs₁
          exact ih h₁ (fun u hu => hul u (mem_cons_of_mem _ hu)) h
      · cases h

theorem itsMatchRegs_all {s : ItySymbol} {rl : List Ity} {r : ItySubst}
    (htl : ∀ t ∈ tl, P t) (hrl : ∀ t ∈ rl, P t) (h : itsMatchRegs s tl rl = some r) :
    r.All P := by
  unfold itsMatchRegs itsMatchArgs at h
  split at h
  · next sbs hsbs =>
      split at hsbs <;> cases hsbs
      refine regMatchList_all hreg happ ⟨?_, ?_⟩ hrl h
      · exact fun e he => htl _ (of_mem_zip he).2
      · intro e he
        cases he
  · cases h

end Bound

end Match

theorem fieldTy_erase (hr : r.erase = r'.erase) {f : PvSymbol} {t' : Ity}
    (h : r.fieldTy f = some t) (h' : r'.fieldTy f = some t') : t.erase = t'.erase := by
  unfold Region.fieldTy at h h'
  rw [← Region.regIts_of_erase hr] at h'
  split at h
  · next sbs hsbs =>
      split at h'
      · next sbs' hsbs' =>
          exact fullInst_erase (itsMatchRegs_similar (Region.regArgs_of_erase hr)
            (Region.regRegs_of_erase hr) hsbs hsbs') h h'
      · cases h'
  · cases h

/-! ## Nested regions -/

section Height

theorem heightList_le {l : List Ity} : Ity.heightList l ≤ h ↔ ∀ t ∈ l, t.height ≤ h := by
  induction l with
  | nil => simp [Ity.heightList]
  | cons t l ih => simp [Ity.heightList, ih]

theorem height_ityreg_le {r : Region} (hr : r.height ≤ h + 1) :
    (∀ t ∈ r.regArgs, t.height ≤ h) ∧ ∀ t ∈ r.regRegs, t.height ≤ h := by
  obtain ⟨n, s, tl, rl⟩ := r
  unfold Region.height Ity.height at hr
  constructor
  · apply heightList_le.mp
    show Ity.heightList tl ≤ h
    omega
  · apply heightList_le.mp
    show Ity.heightList rl ≤ h
    omega

theorem height_ityapp_le {s : ItySymbol} {rl : List Ity} :
    (Ity.ityapp s tl rl).height ≤ h ↔ (∀ t ∈ tl, t.height ≤ h) ∧ ∀ t ∈ rl, t.height ≤ h := by
  rw [Ity.height, max_le_iff, heightList_le, heightList_le]

variable {t : Ity}

theorem height_of_mem_expRegs : ∀ {r : Region}, r ∈ t.expRegs → r.height ≤ t.height := by
  induction t with
  | ityreg n s tl rl =>
    intro r hr
    rw [Ity.expRegs, mem_singleton] at hr
    rw [hr]
    exact le_rfl
  | ityapp s tl rl ihtl ihrl =>
    intro r hr
    rw [Ity.expRegs] at hr
    split at hr
    · cases hr
    · have key : ∀ {fll : List ItsFlag} {l : List Ity},
          (∀ t ∈ l, ∀ {r : Region}, r ∈ t.expRegs → r.height ≤ t.height) →
          r ∈ Ity.expRegsArgs fll l → r.height ≤ Ity.heightList l := by
        intro fll l ih hr
        rw [Ity.expRegsArgs_eq, mem_flatMap] at hr
        obtain ⟨p, hp, hr⟩ := hr
        have hmem := (of_mem_zip hp).2
        split at hr
        · exact (ih _ hmem hr).trans (heightList_le.mp le_rfl _ hmem)
        · cases hr
      rw [Ity.height]
      rcases mem_append.mp hr with hr | hr
      · exact (key ihtl hr).trans (le_max_left _ _)
      · exact (key ihrl hr).trans (le_max_right _ _)
  | ityvar v =>
    intro r hr
    cases hr

theorem height_of_pure (h : t.pure = true) : t.height = 0 := by
  induction t with
  | ityreg n s tl rl => cases h
  | ityapp s tl rl ihtl ihrl =>
    rw [Ity.pure, Ity.pureList_eq, Ity.pureList_eq, Bool.and_eq_true, all_eq_true,
      all_eq_true] at h
    apply Nat.le_zero.mp
    apply height_ityapp_le.mpr
    constructor
    · intro t ht
      exact (ihtl t ht (h.1 t ht)).le
    · intro t ht
      exact (ihrl t ht (h.2 t ht)).le
  | ityvar v => rfl

theorem height_inst {sbs : ItySubst} (hall : sbs.All (fun t => t.height ≤ h)) :
    ∀ {t' : Ity}, t.inst sbs = some t' → t'.height ≤ h := by
  induction t with
  | ityreg n s tl rl =>
    intro t' ht
    rw [Ity.inst] at ht
    obtain ⟨l₁, l₂, heq, _⟩ := lookup_eq_some_iff.mp ht
    exact hall.2 (.mk n s tl rl, t') (by rw [heq]; simp)
  | ityapp s tl rl ihtl ihrl =>
    intro t' ht
    rw [Ity.inst] at ht
    split at ht
    · next tl' rl' htl hrl =>
        cases ht
        have key : ∀ {l l' : List Ity}, (∀ t ∈ l, ∀ {t' : Ity}, t.inst sbs = some t' →
            t'.height ≤ h) → List.Forall₂ (fun t t' => t.inst sbs = some t') l l' →
            ∀ t ∈ l', t.height ≤ h := by
          intro l l' ih hl t ht
          obtain ⟨u, hu, hut⟩ := Paired.exists_of_mem_right hl ht
          exact ih u hu hut
        apply height_ityapp_le.mpr
        exact ⟨key ihtl (instList_eq_some htl), key ihrl (instList_eq_some hrl)⟩
    · cases ht
  | ityvar v =>
    intro t' ht
    rw [Ity.inst] at ht
    obtain ⟨l₁, l₂, heq, _⟩ := lookup_eq_some_iff.mp ht
    exact hall.1 (v, t') (by rw [heq]; simp)

theorem height_fieldTy {r : Region} {f : PvSymbol} (h : r.fieldTy f = some t) :
    t.height < r.height := by
  obtain ⟨m, hm⟩ : ∃ m, r.height = m + 1 := by
    obtain ⟨n, s, tl, rl⟩ := r
    exact ⟨_, rfl⟩
  obtain ⟨htl, hrl⟩ := height_ityreg_le hm.le
  unfold Region.fieldTy at h
  split at h
  · next sbs hsbs =>
      have hall : sbs.All (fun t => t.height ≤ m) := by
        refine itsMatchRegs_all ?_ ?_ htl hrl hsbs
        · intro n s tl rl hP
          exact height_ityreg_le (r := .mk n s tl rl) (hP.trans (Nat.le_succ m))
        · intro s tl rl hP
          exact height_ityapp_le.mp hP
      unfold Ity.fullInst at h
      rw [hm, Nat.lt_succ_iff]
      split at h
      · next hp =>
          cases h
          rw [Bool.and_eq_true] at hp
          rw [height_of_pure hp.1]
          exact Nat.zero_le m
      · exact height_inst hall h
  · cases h

theorem height_fixedRegs {r x : Region} (h : x ∈ r.fixedRegs) : x.height < r.height := by
  obtain ⟨m, hm⟩ : ∃ m, r.height = m + 1 := by
    obtain ⟨n, s, tl, rl⟩ := r
    exact ⟨_, rfl⟩
  obtain ⟨htl, hrl⟩ := height_ityreg_le hm.le
  unfold Region.fixedRegs ItySymbol.positions at h
  obtain ⟨p, hp, hx⟩ := mem_flatMap.mp h
  split at hx
  · have hle := height_of_mem_expRegs hx
    have hpm : p.2.height ≤ m := by
      rcases mem_append.mp hp with hp | hp
      · exact htl _ (of_mem_zip hp).2
      · exact hrl _ (of_mem_zip hp).2
    omega
  · cases hx

end Height

end Why3
