import Why3.Mlw.VcAssign

/-!
# Regions as locations

A store in which each region denotes one record.  A value is a location or the
components of an immutable value, each at a position of its type.  A variable is
consistent with its type when following the exposed positions reaches, at each
region, the location of the region, and so on through the fields of the record
found there.
-/

namespace Why3

open Checks Paired Relation List Ity

/-! ## Values and stores -/

inductive Val : Type
  | loc (l : ℕ)
  | node (comps : List (ℕ × Val))

/-- The fields of the record at each location. -/
abbrev Heap := ℕ → PvSymbol → Val

/-- Following the exposed positions of the type in the value reaches the region
at the given place. -/
inductive At : Ity → Val → Region → Val → Prop
  | reg {r v} : At (.ityreg r) v r v
  | app {s tl rl comps p fl t c r v} : (s.positions tl rl)[p]? = some (fl, t) →
      fl.itsExposed = true → (p, c) ∈ comps → At t c r v → At (.ityapp s tl rl) (.node comps) r v

/-- The same, through the fields of the records that are reached. -/
inductive Follow (H : Heap) (t : Ity) (v : Val) : Region → Val → Prop
  | here {r w} : At t v r w → Follow H t v r w
  | field {r l f tf r' w} : Follow H t v r (.loc l) → f ∈ r.regIts.fields →
      r.fieldTy f = some tf → At tf (H l f) r' w → Follow H t v r' w

/-- Each region is found at its location. -/
def Consistent (rho : Region → ℕ) (H : Heap) (t : Ity) (v : Val) : Prop :=
  ∀ r w, Follow H t v r w → w = .loc (rho r)

/-- One assignment, with the values of the variables. -/
def execAssign (env : PvSymbol → Val) (H : Heap) (a : Assign) : Heap := fun l' f =>
  match env a.1 with
  | .loc l => if l' = l ∧ f = a.2.1 then env a.2.2 else H l' f
  | .node _ => H l' f

/-- All of them: the values are those of the variables before. -/
def execAssigns (env : PvSymbol → Val) (H : Heap) (asl : List Assign) : Heap :=
  asl.foldl (execAssign env) H

variable {f : PvSymbol}

theorem execAssigns_of_not {env : PvSymbol → Val} {asl : List Assign} {l : ℕ} :
    ∀ {H : Heap}, (∀ a ∈ asl, env a.1 = .loc l → a.2.1 ≠ f) →
      execAssigns env H asl l f = H l f := by
  induction asl with
  | nil => intro H _; rfl
  | cons a asl ih =>
    intro H h
    show execAssigns env (execAssign env H a) asl l f = H l f
    rw [ih (fun x hx => h x (mem_cons_of_mem _ hx))]
    unfold execAssign
    split
    · next l' hl' =>
        rw [if_neg]
        rintro ⟨rfl, rfl⟩
        exact h a mem_cons_self hl' rfl
    · rfl

theorem execAssigns_of_mem {env : PvSymbol → Val} {asl : List Assign} {l : ℕ}
    {c : Val} : ∀ {H : Heap}, (∃ a ∈ asl, env a.1 = .loc l ∧ a.2.1 = f) →
      (∀ a ∈ asl, env a.1 = .loc l → a.2.1 = f → env a.2.2 = c) →
      execAssigns env H asl l f = c := by
  induction asl with
  | nil =>
    rintro H ⟨a, ha, _⟩
    cases ha
  | cons a asl ih =>
    intro H hex hall
    show execAssigns env (execAssign env H a) asl l f = c
    by_cases hlater : ∃ x ∈ asl, env x.1 = .loc l ∧ x.2.1 = f
    · exact ih hlater (fun x hx => hall x (mem_cons_of_mem _ hx))
    · have hno : ∀ x ∈ asl, env x.1 = .loc l → x.2.1 ≠ f :=
        fun x hx hl hf => hlater ⟨x, hx, hl, hf⟩
      obtain ⟨x, hx, hl, hf⟩ := hex
      rcases mem_cons.mp hx with rfl | hx
      · rw [execAssigns_of_not hno]
        unfold execAssign
        rw [hl]
        simp only
        rw [if_pos ⟨trivial, hf.symm⟩]
        exact hall x mem_cons_self hl hf
      · exact absurd hf (hno x hx hl)

/-! ## Places and skeletons -/

theorem At.mem_expRegs {t : Ity} {v w : Val} {r : Region} (h : At t v r w) : r ∈ t.expRegs := by
  induction h with
  | reg => exact mem_singleton_self _
  | app hp he _ _ ih =>
    rw [expRegs_ityapp, mem_exposedIn]
    exact ⟨_, mem_of_getElem? hp, he, ih⟩

theorem getElem?_forall₂ {α β : Type} {R : α → β → Prop} {l : List α} {l' : List β}
    (h : List.Forall₂ R l l') : ∀ {i : ℕ} {a : α}, l[i]? = some a →
      ∃ b, l'[i]? = some b ∧ R a b := by
  induction h with
  | nil => intro i a hi; simp at hi
  | cons hab _ ih =>
    intro i a hi
    cases i with
    | zero =>
      simp only [getElem?_cons_zero, Option.some.injEq] at hi
      subst hi
      exact ⟨_, rfl, hab⟩
    | succ i => exact ih (by simpa using hi)

theorem forall₂_of_map_erase {tl tl' : List Ity} (h : tl.map erase = tl'.map erase) :
    List.Forall₂ (fun t t' => t.erase = t'.erase) tl tl' := by
  rw [← forall₂_eq_eq_eq] at h
  exact forall₂_map_left_iff.mp (forall₂_map_right_iff.mp h)

theorem mem_zip_exposedIn {l l' : List (ItsFlag × Ity)}
    (h : List.Forall₂ (fun x y : ItsFlag × Ity => x.1 = y.1 ∧ x.2.erase = y.2.erase) l l')
    {i : ℕ} {x y : ItsFlag × Ity} (hx : l[i]? = some x) (hy : l'[i]? = some y)
    (he : x.1.itsExposed = true) {q : Region × Region} (hq : q ∈ x.2.expRegs.zip y.2.expRegs) :
    q ∈ (exposedIn l).zip (exposedIn l') := by
  unfold exposedIn
  rw [mem_zip_flatMap (h.imp (fun x y hxy => by
    rw [hxy.1]
    split
    · exact length_expRegs_of_erase hxy.2
    · rfl))]
  have hmem : (x, y) ∈ l.zip l' := mem_of_getElem? (getElem?_zip_eq_some.mpr ⟨hx, hy⟩)
  refine ⟨(x, y), hmem, ?_⟩
  have hfl := (rel_of_mem_zip h hmem).1
  simp only at hfl ⊢
  rw [if_pos he, ← hfl, if_pos he]
  exact hq

/-- Two types of one skeleton reach the same places, at regions that stand at the
same place in the types. -/
theorem At.erase {t₁ t₂ : Ity} {v w : Val} {r₁ : Region} (h : At t₁ v r₁ w) :
    t₁.erase = t₂.erase → ∃ r₂, At t₂ v r₂ w ∧ (r₁, r₂) ∈ t₁.expRegs.zip t₂.expRegs := by
  induction h generalizing t₂ with
  | @reg r v =>
    intro heq
    rw [Ity.erase_ityreg] at heq
    cases t₂ with
    | ityreg r' => exact ⟨r', .reg, mem_singleton_self _⟩
    | ityapp s tl rl | ityvar v => simp [Ity.erase] at heq
  | @app s tl rl comps p fl t c r w hp he hc _ ih =>
    intro heq
    rw [Ity.erase_ityapp] at heq
    cases t₂ with
    | ityreg r' => simp [Ity.erase_ityreg] at heq
    | ityvar v => simp [Ity.erase] at heq
    | ityapp s' tl' rl' =>
      rw [Ity.erase_ityapp, Ity.ityapp.injEq] at heq
      obtain ⟨rfl, htl, hrl⟩ := heq
      have hall := forall₂_positions (s := s) (forall₂_of_map_erase htl)
        (forall₂_of_map_erase hrl)
      obtain ⟨⟨fl', t'⟩, hp', hfl, ht⟩ := getElem?_forall₂ hall hp
      simp only at hfl ht
      subst hfl
      obtain ⟨r₂, hr₂, hzip⟩ := ih ht
      refine ⟨r₂, .app hp' he hc hr₂, ?_⟩
      rw [expRegs_ityapp, expRegs_ityapp]
      exact mem_zip_exposedIn hall hp hp' he hzip

variable {sbs₁ sbs₂ : ItySubst}

theorem instList_isSome {tl : List Ity}
    (ih : ∀ t ∈ tl, ∀ {t₁ : Ity}, t.inst sbs₁ = some t₁ → ∃ t₂, t.inst sbs₂ = some t₂) :
    ∀ {tl₁ : List Ity}, instList sbs₁ tl = some tl₁ →
      ∃ tl₂, instList sbs₂ tl = some tl₂ := by
  induction tl with
  | nil => intro tl₁ _; exact ⟨[], rfl⟩
  | cons t tl ihl =>
    intro tl₁ h
    rw [instList] at h
    split at h
    · next t₁ tl₁' ht htl =>
        obtain ⟨t₂, ht₂⟩ := ih t mem_cons_self ht
        obtain ⟨tl₂, htl₂⟩ := ihl (fun t ht => ih t (mem_cons_of_mem _ ht)) htl
        refine ⟨t₂ :: tl₂, ?_⟩
        rw [instList, ht₂, htl₂]
    · cases h

theorem inst_isSome (hsim : sbs₁.Similar sbs₂) {t : Ity} :
    ∀ {t₁ : Ity}, t.inst sbs₁ = some t₁ → ∃ t₂, t.inst sbs₂ = some t₂ := by
  induction t with
  | ityreg n s tl rl =>
    intro t₁ h
    rw [inst] at h ⊢
    have := lookup_isSome_similar hsim.2 (.mk n s tl rl)
    rw [h] at this
    exact Option.isSome_iff_exists.mp this.symm
  | ityapp s tl rl ihtl ihrl =>
    intro t₁ h
    rw [inst] at h
    split at h
    · next tl₁ rl₁ htl hrl =>
        obtain ⟨tl₂, htl₂⟩ := instList_isSome (fun t ht => ihtl t ht) htl
        obtain ⟨rl₂, hrl₂⟩ := instList_isSome (fun t ht => ihrl t ht) hrl
        refine ⟨.ityapp s tl₂ rl₂, ?_⟩
        rw [inst, htl₂, hrl₂]
    · cases h
  | ityvar v =>
    intro t₁ h
    rw [inst] at h ⊢
    have := lookup_isSome_similar hsim.1 v
    rw [h] at this
    exact Option.isSome_iff_exists.mp this.symm

/-- The same for two instances of one type, at the parameter or the region that
is replaced. -/
theorem At.inst (hsim : sbs₁.Similar sbs₂) {t : Ity} :
    ∀ {t₁ t₂ : Ity} {v w : Val} {r₁ : Region}, t.inst sbs₁ = some t₁ → t.inst sbs₂ = some t₂ →
      At t₁ v r₁ w → ∃ r₂ u₁ u₂, At t₂ v r₂ w ∧ (r₁, r₂) ∈ u₁.expRegs.zip u₂.expRegs ∧
        ((∃ k ∈ t.expRegs, sbs₁.isbReg.lookup k = some u₁ ∧ sbs₂.isbReg.lookup k = some u₂) ∨
          ∃ a ∈ t.expVars, sbs₁.isbVar.lookup a = some u₁ ∧ sbs₂.isbVar.lookup a = some u₂) := by
  induction t with
  | ityreg n s tl rl =>
    intro t₁ t₂ v w r₁ h₁ h₂ hat
    obtain ⟨r₂, hr₂, hzip⟩ := hat.erase (inst_erase hsim h₁ h₂)
    exact ⟨r₂, t₁, t₂, hr₂, hzip, .inl ⟨_, mem_singleton_self _, h₁, h₂⟩⟩
  | ityapp s tl rl ihtl ihrl =>
    intro t₁ t₂ v w r₁ h₁ h₂ hat
    rw [Ity.inst] at h₁ h₂
    split at h₁
    · next tl₁ rl₁ htl₁ hrl₁ =>
        split at h₂
        · next tl₂ rl₂ htl₂ hrl₂ =>
            cases h₁
            cases h₂
            have hall₁ := forall₂_positions (s := s) (instList_eq_some htl₁)
              (instList_eq_some hrl₁)
            have hall₂ := forall₂_positions (s := s) (instList_eq_some htl₂)
              (instList_eq_some hrl₂)
            cases hat with
            | @app _ _ _ comps p fl t c _ _ hp he hc hat =>
              obtain ⟨⟨fl', t'⟩, hp', hfl, ht⟩ := getElem?_forall₂ hall₁.flip hp
              obtain ⟨⟨fl₂, t₂⟩, hp₂, hfl₂, ht₂⟩ := getElem?_forall₂ hall₂ hp'
              simp only at hfl ht hfl₂ ht₂
              subst hfl hfl₂
              have hmem := mem_of_getElem? hp'
              have ih : ∃ r₂ u₁ u₂, At t₂ c r₂ w ∧ (r₁, r₂) ∈ u₁.expRegs.zip u₂.expRegs ∧
                  ((∃ k ∈ t'.expRegs, sbs₁.isbReg.lookup k = some u₁ ∧
                    sbs₂.isbReg.lookup k = some u₂) ∨ ∃ a ∈ t'.expVars,
                    sbs₁.isbVar.lookup a = some u₁ ∧ sbs₂.isbVar.lookup a = some u₂) := by
                rcases mem_positions_snd hmem with h | h
                · exact ihtl _ h ht ht₂ hat
                · exact ihrl _ h ht ht₂ hat
              obtain ⟨r₂, u₁, u₂, hr₂, hzip, hkey⟩ := ih
              refine ⟨r₂, u₁, u₂, .app hp₂ he hc hr₂, hzip, ?_⟩
              rcases hkey with ⟨k, hk, hu⟩ | ⟨a, ha, hu⟩
              · refine .inl ⟨k, ?_, hu⟩
                rw [expRegs_ityapp, mem_exposedIn]
                exact ⟨_, hmem, he, hk⟩
              · refine .inr ⟨a, ?_, hu⟩
                rw [mem_expVars_ityapp]
                exact ⟨_, hmem, he, ha⟩
        · cases h₂
    · cases h₁
  | ityvar a =>
    intro t₁ t₂ v w r₁ h₁ h₂ hat
    obtain ⟨r₂, hr₂, hzip⟩ := hat.erase (inst_erase hsim h₁ h₂)
    exact ⟨r₂, t₁, t₂, hr₂, hzip, .inr ⟨a, mem_singleton_self _, h₁, h₂⟩⟩

/-! ## One field of a pair of regions -/

section Field

variable {writes : Mreg (Mpv Ity)} {p : Region × Region}

theorem mem_zip_positions {r r' : Region} (hits : r.regIts = r'.regIts) {i : ℕ} {fl : ItsFlag}
    {u u' : Ity} (h : (r.regIts.positions r.regArgs r.regRegs)[i]? = some (fl, u))
    (h' : (r.regIts.positions r'.regArgs r'.regRegs)[i]? = some (fl, u')) :
    ((fl, u), (fl, u')) ∈ r.positions.zip r'.positions := by
  apply mem_of_getElem? (i := i)
  rw [getElem?_zip_eq_some]
  refine ⟨h, ?_⟩
  show (r'.regIts.positions r'.regArgs r'.regRegs)[i]? = some (fl, u')
  rw [← hits]
  exact h'

/-- What is reached in a non-mutable field is moved through a fixed position. -/
theorem Stitched.ofield_at (hp : Stitched writes p) (hwf : p.1.regIts.Wf)
    (hf : f ∈ p.1.regIts.itsOfields) {tf : Ity} (htf : p.1.fieldTy f = some tf) {c w : Val}
    {x : Region} (hat : At tf c x w) :
    ∃ tt y, p.2.fieldTy f = some tt ∧ At tt c y w ∧ FixStep p (x, y) := by
  obtain ⟨sbs, hsbs, ⟨hpure, _, rfl⟩ | hin⟩ := fieldTy_inst htf
  · have := hat.mem_expRegs
    rw [expRegs_of_pure hpure] at this
    cases this
  · obtain ⟨l, hl⟩ := hp.to'
    obtain ⟨sbs', hsbs'⟩ := regRexp_match hl
    have hits := Region.regIts_of_erase hp.same
    rw [← hits] at hsbs'
    have hsim := itsMatchRegs_similar (Region.regArgs_of_erase hp.same)
      (Region.regRegs_of_erase hp.same) hsbs hsbs'
    obtain ⟨tt, htt⟩ := inst_isSome hsim hin
    obtain ⟨y, u₁, u₂, hy, hzip, hkey⟩ := hat.inst hsim hin htt
    refine ⟨tt, y, ?_, hy, ?_⟩
    · unfold Region.fieldTy fullInst
      rw [← hits, hsbs']
      simp only
      split
      · next hpc =>
          -- a pure type exposes no region
          rw [Bool.and_eq_true] at hpc
          have hx := hat.mem_expRegs
          unfold Region.fieldTy fullInst at htf
          rw [hsbs] at htf
          simp only [hpc, Bool.and_self, if_true, Option.some.injEq] at htf
          rw [← htf, expRegs_of_pure hpc.1] at hx
          cases hx
      · exact htt
    · have hf' : f ∈ p.1.regIts.fields := mem_append_right _ hf
      rcases hkey with ⟨k, hk, hu₁, hu₂⟩ | ⟨a, ha, hu₁, hu₂⟩
      · obtain ⟨fl, hfl, _⟩ := hwf.exposed_reg f hf' k hk
        obtain ⟨i, hi⟩ := ItySymbol.reg_position hfl
        obtain ⟨u, hu, hpos⟩ := hi hsbs
        obtain ⟨u', hu', hpos'⟩ := hi hsbs'
        rw [hu₁, Option.some.injEq] at hu
        rw [hu₂, Option.some.injEq] at hu'
        subst hu hu'
        exact ⟨_, mem_zip_positions hits hpos hpos', hwf.fixed_reg f hf k hk fl hfl, hzip⟩
      · obtain ⟨fl, hfl, _⟩ := hwf.exposed_var f hf' a ha
        obtain ⟨i, hi⟩ := ItySymbol.var_position hfl
        obtain ⟨u, hu, hpos⟩ := hi hsbs
        obtain ⟨u', hu', hpos'⟩ := hi hsbs'
        rw [hu₁, Option.some.injEq] at hu
        rw [hu₂, Option.some.injEq] at hu'
        subst hu hu'
        exact ⟨_, mem_zip_positions hits hpos hpos', hwf.fixed_var f hf a ha fl hfl, hzip⟩

/-- What is reached in a mutable field is moved through it. -/
theorem Stitched.mfield_at (hp : Stitched writes p)
    (hf : f ∈ p.1.regIts.itsMfields) {tf : Ity} (htf : p.1.fieldTy f = some tf) {c w : Val}
    {x : Region} (hat : At tf c x w) :
    ∃ tt y, newFieldTy (writes.findD p.2 .empty) p.2 f = some tt ∧ At tt c y w ∧
      MutStep writes p (x, y) := by
  obtain ⟨tf', tt, htf', htt⟩ := hp.fieldTy hf
  rw [htf, Option.some.injEq] at htf'
  subst htf'
  obtain ⟨y, hy, hzip⟩ := hat.erase (hp.field_erase hf htf htt)
  exact ⟨tt, y, htt, hy, f, hf, tf, tt, htf, htt, hzip⟩

end Field

/-! ## Regions that are reached -/

section Reach

variable {r : Region} {t : Ity}

theorem rchRegs_of_expRegs (h : r ∈ t.expRegs) : r ∈ t.rchRegs :=
  mem_walk.mpr ⟨r, h, rfl, .refl⟩

theorem rchRegs_step {r' : Region} (h : r ∈ t.rchRegs) (h' : r' ∈ r.expRegs) : r' ∈ t.rchRegs := by
  obtain ⟨r₀, hr₀, hs, hp⟩ := mem_walk.mp h
  exact mem_walk.mpr ⟨r₀, hr₀, hs, hp.tail ⟨h', rfl⟩⟩

variable {cv : List Region}

theorem uncRegs_of_expRegs (h : r ∈ t.expRegs) (hcv : r ∉ cv) : r ∈ t.uncRegs cv :=
  mem_walk.mpr ⟨r, h, decide_eq_false hcv, .refl⟩

theorem uncRegs_step {r' : Region} (h : r ∈ t.uncRegs cv) (h' : r' ∈ r.expRegs) (hcv : r' ∉ cv) :
    r' ∈ t.uncRegs cv := by
  obtain ⟨r₀, hr₀, hs, hp⟩ := mem_walk.mp h
  exact mem_walk.mpr ⟨r₀, hr₀, hs, hp.tail ⟨h', decide_eq_false hcv⟩⟩

theorem not_mem_of_uncRegs (h : r ∈ t.uncRegs cv) : r ∉ cv := by
  obtain ⟨r₀, _, hs, hp⟩ := mem_walk.mp h
  rcases ReflTransGen.cases_tail hp with rfl | ⟨_, _, hstep⟩
  · exact of_decide_eq_false hs
  · exact of_decide_eq_false hstep.2

/-- The regions found in a store are those of the type. -/
theorem Follow.rchRegs {H : Heap} {v w : Val} (h : Follow H t v r w) :
    (∀ r ∈ t.rchRegs, r.regIts.Wf) → r ∈ t.rchRegs := by
  intro hwf
  induction h with
  | here hat => exact rchRegs_of_expRegs hat.mem_expRegs
  | field _ hf htf hat ih =>
    exact rchRegs_step ih (expRegs_fieldTy (hwf _ ih) hf htf hat.mem_expRegs)

theorem not_reset_of_checkCovers {eff : Effekt} {x : PvSymbol}
    (h : checkCovers eff (TagMap.empty.add x ()) = .ok ())
    (hr : r ∈ x.pvIty.uncRegs eff.effCovers) : r ∉ eff.effResets := by
  intro hreset
  unfold checkCovers at h
  split at h
  · cases h
  · next hnone =>
      have hx := findSome?_eq_none_iff.mp hnone x
        (TagMap.mem_keys.mpr ⟨(), TagMap.find?_add_self⟩)
      rw [Option.map_eq_none_iff] at hx
      have := find?_eq_none.mp hx r hreset
      apply this
      unfold rStale
      rw [any_eq_true]
      exact ⟨r, hr, by simp⟩

end Reach

end Why3
