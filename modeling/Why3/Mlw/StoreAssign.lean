import Why3.Mlw.Store

/-!
# Accepted assignments keep region types truthful

After assignments that `eff_assign` accepts, the variables that `check_covers`
accepts are again consistent, with the locations of the regions moved along the
region transitions: under a surviving written region, `rf` denotes the location
that `rt` denoted before.
-/

namespace Why3

open Checks Paired Relation List

/-! ## Stores that agree with the types -/

/-- The regions reachable from the types of the variables. -/
def reachableRegs (vars : Set PvSymbol) : Set Region :=
  { r | ∃ x ∈ vars, r ∈ x.pvIty.rchRegs }

/-- All variables are consistent, and different regions are different records. -/
structure StoreOk (vars : Set PvSymbol) (env : PvSymbol → Val) (H : Heap) (rho : Region → ℕ) :
    Prop where
  consistent : ∀ x ∈ vars, Consistent rho H x.pvIty (env x)
  inj : Set.InjOn rho (reachableRegs vars)

/-- The region is found, at its location, from a variable. -/
def Found (vars : Set PvSymbol) (env : PvSymbol → Val) (H : Heap) (rho : Region → ℕ)
    (r : Region) : Prop :=
  ∃ x ∈ vars, Follow H x.pvIty (env x) r (.loc (rho r))

section Assign

variable {asl : List Assign} {eff : Effekt} {writes : Mreg (Mpv Ity)} {acc : Resets}
  {vars : Set PvSymbol} {env : PvSymbol → Val} {H : Heap} {rho : Region → ℕ}

variable {r : Region}

theorem Found.reachable (hwf : ∀ r ∈ reachableRegs vars, r.regIts.Wf) (h : Found vars env H rho r) :
    r ∈ reachableRegs vars := by
  obtain ⟨x, hx, hfollow⟩ := h
  exact ⟨x, hx, hfollow.rchRegs (fun r hr => hwf r ⟨x, hx, hr⟩)⟩

variable {w : Val} {x : PvSymbol}

theorem StoreOk.at_var (hs : StoreOk vars env H rho) (hx : x ∈ vars) (h : At x.pvIty (env x) r w) :
    w = .loc (rho r) ∧ Found vars env H rho r := by
  have hw := hs.consistent x hx r w (.here h)
  subst hw
  exact ⟨rfl, x, hx, .here h⟩

variable {f : PvSymbol}

theorem StoreOk.at_field (hs : StoreOk vars env H rho) (hr : Found vars env H rho r)
    (hf : f ∈ r.regIts.fields) {tf : Ity} (htf : r.fieldTy f = some tf) {r' : Region}
    (h : At tf (H (rho r) f) r' w) : w = .loc (rho r') ∧ Found vars env H rho r' := by
  obtain ⟨x, hx, hfollow⟩ := hr
  have hnext := Follow.field hfollow hf htf h
  have hw := hs.consistent x hx r' w hnext
  subst hw
  exact ⟨rfl, x, hx, hnext⟩

/-- The assigned variables are regions of the store. -/
theorem Accepted.assigned (h : Accepted asl eff writes acc) {a : Assign} (ha : a ∈ asl) :
    ∃ r, a.1.pvIty = .ityreg r ∧ a.2.1 ∈ r.regIts.itsMfields := by
  have hall := foldlM_all (M := fun _ _ => True)
    (P := fun (a : Assign) _ => ∃ r, a.1.pvIty = .ityreg r ∧ a.2.1 ∈ r.regIts.itsMfields)
    (fun _ => trivial) (fun _ _ => trivial) (fun h _ => h)
    (fun {_ a _} h => by
      obtain ⟨x, f, v⟩ := a
      obtain ⟨r, hx, hf, _, _⟩ := addAssign_ok h
      exact ⟨trivial, r, hx, hf⟩) h.collected
  exact hall.2 a ha

theorem Accepted.writeOf_eq (h : Accepted asl eff writes acc) (r : Region) (f : PvSymbol) :
    (∀ v, Assigned asl r f v → writeOf writes r f = some v.pvIty) ∧
      ((∀ v, ¬ Assigned asl r f v) → writeOf writes r f = none) := by
  obtain ⟨wr, _, hsame, _, hval⟩ := collected_ok h.collected
  rw [hsame.fields]
  constructor
  · intro v hv
    rw [(hval r f v).mpr hv]
    rfl
  · intro hno
    cases hw : writeOf wr r f with
    | none => rfl
    | some v => exact absurd ((hval r f v).mp hw) (hno v)

variable {v : PvSymbol}

theorem Accepted.assigned_unique (h : Accepted asl eff writes acc) {v' : PvSymbol}
    (hv : Assigned asl r f v) (hv' : Assigned asl r f v') : v = v' := by
  obtain ⟨wr, _, _, _, hval⟩ := collected_ok h.collected
  have := (hval r f v).mpr hv
  rw [(hval r f v').mpr hv', Option.some.injEq] at this
  exact this.symm

theorem Accepted.assigned_written (h : Accepted asl eff writes acc) (hv : Assigned asl r f v) :
    ∃ fs, writes.find? r = some fs := by
  obtain ⟨wr, _, hsame, hkeys, _⟩ := collected_ok h.collected
  exact TagMap.mem_keys.mp ((hsame.keys r).mpr ((hkeys r).mpr ⟨f, v, hv⟩))

variable (hacc : Accepted asl eff writes acc) (hs : StoreOk vars env H rho)
  (hwf : ∀ r ∈ reachableRegs vars, r.regIts.Wf) (hreads : ∀ x ∈ eff.effReads.keys, x ∈ vars)

include hacc hs hreads in
theorem loc_of_assign {a : Assign} (ha : a ∈ asl) (hr : a.1.pvIty = .ityreg r) :
    env a.1 = .loc (rho r) ∧ r ∈ reachableRegs vars := by
  have hx := hreads a.1 (hacc.reads a ha).1
  have hat : At a.1.pvIty (env a.1) r (env a.1) := by
    rw [hr]
    exact .reg
  refine ⟨(hs.at_var hx hat).1, a.1, hx, rchRegs_of_expRegs ?_⟩
  exact hat.mem_expRegs

include hacc hs hwf hreads in
theorem exec_assigned (hr : Found vars env H rho r) (hv : Assigned asl r f v) :
    execAssigns env H asl (rho r) f = env v := by
  apply execAssigns_of_mem
  · obtain ⟨x, hx, hxr⟩ := hv
    exact ⟨(x, f, v), hx, (loc_of_assign hacc hs hreads hx hxr).1, rfl⟩
  · intro a ha hl hf
    obtain ⟨r', hr', _⟩ := hacc.assigned ha
    obtain ⟨hl', hreach⟩ := loc_of_assign hacc hs hreads ha hr'
    rw [hl', Val.loc.injEq] at hl
    have heq := hs.inj hreach (hr.reachable hwf) hl
    subst heq
    have hv' : Assigned asl r' f a.2.2 := by
      refine ⟨a.1, ?_, hr'⟩
      rw [← hf]
      exact ha
    rw [hacc.assigned_unique hv hv']

include hacc hs hwf hreads in
theorem exec_not_assigned (hr : Found vars env H rho r) (hno : ∀ v, ¬ Assigned asl r f v) :
    execAssigns env H asl (rho r) f = H (rho r) f := by
  apply execAssigns_of_not
  rintro a ha hl rfl
  obtain ⟨r', hr', _⟩ := hacc.assigned ha
  obtain ⟨hl', hreach⟩ := loc_of_assign hacc hs hreads ha hr'
  rw [hl', Val.loc.injEq] at hl
  have heq := hs.inj hreach (hr.reachable hwf) hl
  subst heq
  exact hno a.2.2 ⟨a.1, ha, hr'⟩

/-! ## One step after the assignments -/

include hacc hs hwf hreads in
/-- From a pair under a surviving region, the fields lead to further pairs. -/
theorem covered_field_step {rf rt : Region} (hp : CoveredPair eff writes (rf, rt))
    (hrf : rf.regIts.Wf) (hrt : Found vars env H rho rt) (hf : f ∈ rf.regIts.fields) {tf : Ity}
    (htf : rf.fieldTy f = some tf) {x : Region}
    (hat : At tf (execAssigns env H asl (rho rt) f) x w) :
    ∃ y, CoveredPair eff writes (x, y) ∧ w = .loc (rho y) ∧ Found vars env H rho y := by
  have hst := hacc.stitched hp
  have hits : rf.regIts = rt.regIts := Region.regIts_of_erase hst.same
  have hstep : ∀ {y}, PlaceStep writes (rf, rt) (x, y) → CoveredPair eff writes (x, y) := by
    intro y hy
    obtain ⟨r, hr, hp⟩ := hp
    exact ⟨r, hr, hp.tail hy⟩
  by_cases hm : f ∈ rf.regIts.itsMfields
  · by_cases hassigned : ∃ v, Assigned asl rt f v
    · -- the assigned variable is consistent
      obtain ⟨v, hv⟩ := hassigned
      rw [exec_assigned hacc hs hwf hreads hrt hv] at hat
      obtain ⟨tt, y, htt, hy, hmut⟩ := hst.mfield_at hm htf hat
      have htv : newFieldTy (writes.findD rt .empty) rt f = some v.pvIty := by
        unfold newFieldTy
        have := (hacc.writeOf_eq rt f).1 v hv
        unfold writeOf at this
        rw [this]
      simp only at htt
      rw [htv, Option.some.injEq] at htt
      subst htt
      obtain ⟨x', hx', hxr⟩ := hv
      have hvvars := hreads v (hacc.reads _ hx').2
      obtain ⟨hw, hfound⟩ := hs.at_var hvvars hy
      exact ⟨y, hstep (.inl hmut), hw, hfound⟩
    · have hno : ∀ v, ¬ Assigned asl rt f v := fun v hv => hassigned ⟨v, hv⟩
      rw [exec_not_assigned hacc hs hwf hreads hrt hno] at hat
      obtain ⟨tt, y, htt, hy, hmut⟩ := hst.mfield_at hm htf hat
      have htv : newFieldTy (writes.findD rt .empty) rt f = rt.fieldTy f := by
        unfold newFieldTy
        have := (hacc.writeOf_eq rt f).2 hno
        unfold writeOf at this
        rw [this]
      simp only at htt
      rw [htv] at htt
      obtain ⟨hw, hfound⟩ := hs.at_field hrt (hits ▸ hf) htt hy
      exact ⟨y, hstep (.inl hmut), hw, hfound⟩
  · -- a field that is not mutable is not assigned
    have hno : ∀ v, ¬ Assigned asl rt f v := by
      rintro v ⟨x', hx', hxr⟩
      obtain ⟨r', hr', hfm⟩ := hacc.assigned hx'
      rw [hxr, Ity.ityreg.injEq] at hr'
      subst hr'
      rw [← hits] at hfm
      exact hm hfm
    rw [exec_not_assigned hacc hs hwf hreads hrt hno] at hat
    have hof : f ∈ rf.regIts.itsOfields := (mem_append.mp hf).resolve_left hm
    obtain ⟨tt, y, htt, hy, hfix⟩ := hst.ofield_at hrf hof htf hat
    obtain ⟨hw, hfound⟩ := hs.at_field hrt (hits ▸ hf) htt hy
    exact ⟨y, hstep (.inr hfix), hw, hfound⟩

/-- Where a region is found after the assignments: the region is not reset and
stays, or it is under a surviving region and takes the place of another. -/
def FoundAfter (eff : Effekt) (writes : Mreg (Mpv Ity)) (vars : Set PvSymbol)
    (env : PvSymbol → Val) (H : Heap) (rho : Region → ℕ) (t : Ity) (r : Region) (w : Val) : Prop :=
  (r ∈ t.uncRegs eff.effCovers ∧ w = .loc (rho r) ∧ Found vars env H rho r) ∨
    ∃ rt, CoveredPair eff writes (r, rt) ∧ w = .loc (rho rt) ∧ Found vars env H rho rt

theorem foundAfter_of_expRegs {t : Ity}
    (h : r ∈ t.expRegs ∨ ∃ r₀ ∈ t.uncRegs eff.effCovers, r ∈ r₀.expRegs) (hw : w = .loc (rho r))
    (hfound : Found vars env H rho r) : FoundAfter eff writes vars env H rho t r w := by
  by_cases hcv : r ∈ eff.effCovers
  · exact .inr ⟨r, ⟨r, hcv, .refl⟩, hw, hfound⟩
  · refine .inl ⟨?_, hw, hfound⟩
    rcases h with h | ⟨r₀, hr₀, h⟩
    · exact uncRegs_of_expRegs h hcv
    · exact uncRegs_step hr₀ h hcv

include hacc hs hwf hreads in
theorem Follow.foundAfter (hx : x ∈ vars)
    (hcovers : checkCovers eff (TagMap.empty.add x ()) = .ok ())
    (h : Follow (execAssigns env H asl) x.pvIty (env x) r w) :
    FoundAfter eff writes vars env H rho x.pvIty r w := by
  have hwfx : ∀ r ∈ x.pvIty.rchRegs, r.regIts.Wf := fun r hr => hwf r ⟨x, hx, hr⟩
  induction h with
  | here hat =>
    obtain ⟨hw, hfound⟩ := hs.at_var hx hat
    exact foundAfter_of_expRegs (.inl hat.mem_expRegs) hw hfound
  | @field r l f tf r' w hfollow hf htf hat ih =>
    have hrwf := hwfx r (hfollow.rchRegs hwfx)
    rcases ih with ⟨hunc, hl, hfound⟩ | ⟨rt, hp, hl, hfound⟩
    · -- a region that is neither covered nor reset is not written
      rw [Val.loc.injEq] at hl
      subst hl
      have hno : ∀ v, ¬ Assigned asl r f v := by
        intro v hv
        exact not_mem_of_uncRegs hunc (hacc.mem_covers.mpr
          ⟨hacc.assigned_written hv, not_reset_of_checkCovers hcovers hunc⟩)
      rw [exec_not_assigned hacc hs hwf hreads hfound hno] at hat
      obtain ⟨hw, hfound'⟩ := hs.at_field hfound hf htf hat
      exact foundAfter_of_expRegs
        (.inr ⟨r, hunc, expRegs_fieldTy hrwf hf htf hat.mem_expRegs⟩) hw hfound'
    · rw [Val.loc.injEq] at hl
      subst hl
      exact .inr (covered_field_step hacc hs hwf hreads hp hrwf hfound hf htf hat)

/-! ## The new locations -/

open Classical in
/-- Under the surviving written regions a region denotes what takes its place. -/
noncomputable def movedRho (eff : Effekt) (writes : Mreg (Mpv Ity)) (rho : Region → ℕ)
    (r : Region) : ℕ :=
  if h : ∃ rt, CoveredPair eff writes (r, rt) then rho h.choose else rho r

include hacc in
theorem movedRho_pair {rf rt : Region} (h : CoveredPair eff writes (rf, rt)) :
    movedRho eff writes rho rf = rho rt := by
  have hex : ∃ rt, CoveredPair eff writes (rf, rt) := ⟨rt, h⟩
  have heq : hex.choose = rt := hacc.pair_left hex.choose_spec h rfl
  unfold movedRho
  rw [dif_pos hex, heq]

include hacc in
theorem movedRho_of_not_reset (h : r ∉ eff.effResets) : movedRho eff writes rho r = rho r := by
  by_cases hex : ∃ rt, CoveredPair eff writes (r, rt)
  · obtain ⟨rt, hp⟩ := hex
    rw [hacc.resets] at h
    have heq : r = rt := hacc.eq_of_not_reset hp (.inl h)
    rw [movedRho_pair hacc hp, heq]
  · unfold movedRho
    rw [dif_neg hex]

include hacc hwf hreads in
/-- The regions of the types, seen in the same way. -/
theorem reachable_cases (hx : x ∈ vars) (h : r ∈ x.pvIty.rchRegs) :
    r ∈ x.pvIty.uncRegs eff.effCovers ∨
      ∃ rt, CoveredPair eff writes (r, rt) ∧ rt ∈ reachableRegs vars := by
  obtain ⟨r₀, hr₀, _, hp⟩ := mem_walk.mp h
  induction hp with
  | refl =>
    by_cases hcv : r₀ ∈ eff.effCovers
    · exact .inr ⟨r₀, ⟨r₀, hcv, .refl⟩, x, hx, rchRegs_of_expRegs hr₀⟩
    · exact .inl (uncRegs_of_expRegs hr₀ hcv)
  | @tail r₁ r hpath hstep ih =>
    have hr₁ : r₁ ∈ x.pvIty.rchRegs := mem_walk.mpr ⟨r₀, hr₀, rfl, hpath⟩
    rcases ih hr₁ with hunc | ⟨rt, hp, hrt⟩
    · by_cases hcv : r ∈ eff.effCovers
      · exact .inr ⟨r, ⟨r, hcv, .refl⟩, x, hx, rchRegs_step hr₁ hstep.1⟩
      · exact .inl (uncRegs_step hunc hstep.1 hcv)
    · have hst := hacc.stitched hp
      have hits : r₁.regIts = rt.regIts := Region.regIts_of_erase hst.same
      have hwf₁ := hwf r₁ ⟨x, hx, hr₁⟩
      obtain ⟨y, hy⟩ := hst.exposed_step hwf₁ hstep.1
      obtain ⟨z, hz, hrtz⟩ := hrt
      refine .inr ⟨y, ?_, ?_⟩
      · obtain ⟨r', hr', hp⟩ := hp
        exact ⟨r', hr', hp.tail hy⟩
      · rcases hy with ⟨f, hf, tf, tt, _, htt, hq⟩ | ⟨pos, hpos, hfix, hq⟩
        · have hyt := (of_mem_zip hq).2
          by_cases hassigned : ∃ v, Assigned asl rt f v
          · obtain ⟨v, hv⟩ := hassigned
            have := (hacc.writeOf_eq rt f).1 v hv
            unfold writeOf at this
            unfold newFieldTy at htt
            simp only [this, Option.some.injEq] at htt
            subst htt
            obtain ⟨x', hx', _⟩ := hv
            exact ⟨v, hreads v (hacc.reads _ hx').2, rchRegs_of_expRegs hyt⟩
          · have := (hacc.writeOf_eq rt f).2 (fun v hv => hassigned ⟨v, hv⟩)
            unfold writeOf at this
            unfold newFieldTy at htt
            simp only [this] at htt
            have hf' : f ∈ rt.regIts.fields := by
              rw [← hits]
              exact mem_append_left _ hf
            exact ⟨z, hz, rchRegs_step hrtz (expRegs_fieldTy (hits ▸ hwf₁) hf' htt hyt)⟩
        · -- a fixed position is exposed
          refine ⟨z, hz, rchRegs_step hrtz ?_⟩
          rw [Region.expRegs_eq, mem_exposedIn]
          have hfl := congrArg Prod.fst (eq_of_mem_zip (positions_of_erase hst.same) hpos)
          simp only at hfl
          refine ⟨pos.2, (of_mem_zip hpos).2, ?_, (of_mem_zip hq).2⟩
          have hmem : pos.1.1 ∈ r₁.regIts.itsArgFlg ++ r₁.regIts.itsRegFlg := by
            rcases mem_append.mp (of_mem_zip hpos).1 with h | h
            · exact mem_append_left _ (of_mem_zip h).1
            · exact mem_append_right _ (of_mem_zip h).1
          rw [← hfl]
          exact hwf₁.fixed_exposed _ hmem hfix

end Assign

/-- Accepted assignments keep the types of the surviving variables truthful. -/
theorem effAssign_keeps_consistent (asl : List Assign) (eff : Effekt) (h : effAssign asl = .ok eff)
    (vars : Set PvSymbol) (hreads : ∀ x ∈ eff.effReads.keys, x ∈ vars)
    (hwf : ∀ r ∈ reachableRegs vars, r.regIts.Wf) (env : PvSymbol → Val) (H : Heap)
    (rho : Region → ℕ) (hs : StoreOk vars env H rho) :
    ∃ rho' : Region → ℕ, (∀ r, r ∉ eff.effResets → rho' r = rho r) ∧
      StoreOk { x ∈ vars | checkCovers eff (TagMap.empty.add x ()) = .ok () } env
        (execAssigns env H asl) rho' := by
  obtain ⟨writes, acc, hacc⟩ := effAssign_ok h
  refine ⟨movedRho eff writes rho, fun r => movedRho_of_not_reset hacc, ?_, ?_⟩
  · rintro x ⟨hx, hcovers⟩ r w hfollow
    rcases hfollow.foundAfter hacc hs hwf hreads hx hcovers with ⟨hunc, hw, _⟩ | ⟨rt, hp, hw, _⟩
    · rw [hw, movedRho_of_not_reset hacc (not_reset_of_checkCovers hcovers hunc)]
    · rw [hw, movedRho_pair hacc hp]
  · rintro r₁ ⟨x₁, ⟨hx₁, hc₁⟩, hr₁⟩ r₂ ⟨x₂, ⟨hx₂, hc₂⟩, hr₂⟩ heq
    rcases reachable_cases hacc hwf hreads hx₁ hr₁ with hunc₁ | ⟨rt₁, hp₁, hrt₁⟩
    · have hn₁ := not_reset_of_checkCovers hc₁ hunc₁
      rw [movedRho_of_not_reset hacc hn₁] at heq
      rcases reachable_cases hacc hwf hreads hx₂ hr₂ with hunc₂ | ⟨rt₂, hp₂, hrt₂⟩
      · rw [movedRho_of_not_reset hacc (not_reset_of_checkCovers hc₂ hunc₂)] at heq
        exact hs.inj ⟨x₁, hx₁, hr₁⟩ ⟨x₂, hx₂, hr₂⟩ heq
      · rw [movedRho_pair hacc hp₂] at heq
        have hrt := hs.inj ⟨x₁, hx₁, hr₁⟩ hrt₂ heq
        subst hrt
        rw [hacc.resets] at hn₁
        exact (hacc.eq_of_not_reset hp₂ (.inr hn₁)).symm
    · rw [movedRho_pair hacc hp₁] at heq
      rcases reachable_cases hacc hwf hreads hx₂ hr₂ with hunc₂ | ⟨rt₂, hp₂, hrt₂⟩
      · have hn₂ := not_reset_of_checkCovers hc₂ hunc₂
        rw [movedRho_of_not_reset hacc hn₂] at heq
        have hrt := hs.inj hrt₁ ⟨x₂, hx₂, hr₂⟩ heq
        subst hrt
        rw [hacc.resets] at hn₂
        exact hacc.eq_of_not_reset hp₁ (.inr hn₂)
      · rw [movedRho_pair hacc hp₂] at heq
        have hrt := hs.inj hrt₁ hrt₂ heq
        subst hrt
        exact hacc.pair_right hp₁ hp₂ rfl

namespace Refs

/-! A box whose cell holds a reference, another cell with its reference, and a
number; the regions are their own locations. -/

def vars : Set PvSymbol := {x, y, z, n}

def env (v : PvSymbol) : Val :=
  match v.pvIty with
  | .ityreg r => .loc r.regName
  | _ => .node []

def heap (l : ℕ) (f : PvSymbol) : Val :=
  if f = item then .loc 2 else if f = inner then .loc (l + 1) else .node []

theorem reachable_vars {r : Region} (h : r ∈ reachableRegs vars) :
    r ∈ [box 1 2 3, cell 2 3, ref 3, cell 4 5, ref 5] := by
  obtain ⟨v, rfl | rfl | rfl | rfl, hr⟩ := h
  · have hr : r ∈ [box 1 2 3, cell 2 3, ref 3] := hr
    fin_cases hr <;> simp
  · have hr : r ∈ [cell 4 5, ref 5] := hr
    fin_cases hr <;> simp
  · have hr : r ∈ [ref 5] := hr
    fin_cases hr
    simp
  · cases hr

theorem wf_vars {r : Region} (h : r ∈ reachableRegs vars) : r.regIts.Wf := by
  have hbox : itsBox.Wf := createPlainRecordItysymbol_wf (by decide) itsBox_created
  have hcell : itsCell.Wf := createPlainRecordItysymbol_wf (by decide) itsCell_created
  have href : itsRef.Wf := createPlainRecordItysymbol_wf (by decide) itsRef_created
  have hmem := reachable_vars h
  fin_cases hmem <;> assumption

theorem not_at_int {v w : Val} {r : Region} (h : At ityInt v r w) : False := by
  cases h.mem_expRegs

/-- Each field of the records leads to the location of its region. -/
theorem heap_field {r r' : Region} {f : PvSymbol} {tf : Ity} {w : Val}
    (hr : r ∈ [box 1 2 3, cell 2 3, ref 3, cell 4 5, ref 5]) (hf : f ∈ r.regIts.fields)
    (htf : r.fieldTy f = some tf) (hat : At tf (heap r.regName f) r' w) :
    r' ∈ [box 1 2 3, cell 2 3, ref 3, cell 4 5, ref 5] ∧ w = .loc r'.regName := by
  have hcell : ∀ {k l : ℕ}, l = k + 1 → f ∈ (cell k l).regIts.fields →
      (cell k l).fieldTy f = some tf → At tf (heap k f) r' w → r' = ref l ∧ w = .loc l := by
    rintro k l rfl hf htf hat
    rcases mem_cons.mp hf with rfl | hf
    · cases htf
      exact (not_at_int hat).elim
    · cases mem_singleton.mp hf
      cases htf
      cases hat
      exact ⟨rfl, rfl⟩
  have href : ∀ {k : ℕ}, f ∈ (ref k).regIts.fields → (ref k).fieldTy f = some tf → False := by
    intro k hf htf
    cases mem_singleton.mp hf
    cases htf
    exact not_at_int hat
  fin_cases hr
  · cases mem_singleton.mp hf
    cases htf
    cases hat
    exact ⟨by simp, rfl⟩
  · obtain ⟨rfl, rfl⟩ := hcell rfl hf htf hat
    exact ⟨by simp, rfl⟩
  · exact (href hf htf).elim
  · obtain ⟨rfl, rfl⟩ := hcell rfl hf htf hat
    exact ⟨by simp, rfl⟩
  · exact (href hf htf).elim

theorem storeOk_vars : StoreOk vars env heap Region.regName := by
  constructor
  · intro v hv r w hfollow
    suffices h : r ∈ [box 1 2 3, cell 2 3, ref 3, cell 4 5, ref 5] ∧ w = .loc r.regName from h.2
    induction hfollow with
    | here hat =>
      obtain rfl | rfl | rfl | rfl := hv
      · cases hat
        exact ⟨by simp, rfl⟩
      · cases hat
        exact ⟨by simp, rfl⟩
      · cases hat
        exact ⟨by simp, rfl⟩
      · exact (not_at_int hat).elim
    | field _ hf htf hat ih =>
      obtain ⟨hmem, hl⟩ := ih
      rw [Val.loc.injEq] at hl
      subst hl
      exact heap_field hmem hf htf hat
  · intro r₁ h₁ r₂ h₂ heq
    have h₁ := reachable_vars h₁
    have h₂ := reachable_vars h₂
    fin_cases h₁ <;> fin_cases h₂ <;> first | rfl | cases heq

theorem reads_vars : ∀ v ∈ aslEff.effReads.keys, v ∈ vars := by
  intro v hv
  have hv : v ∈ [x, y, z, n] := hv
  simpa [vars] using hv

theorem effAssign_keeps_consistent_vars :
    ∃ rho' : Region → ℕ, (∀ r, r ∉ aslEff.effResets → rho' r = r.regName) ∧
      StoreOk { v ∈ vars | checkCovers aslEff (TagMap.empty.add v ()) = .ok () } env
        (execAssigns env heap asl) rho' :=
  effAssign_keeps_consistent asl aslEff effAssign_asl vars reads_vars (fun _ => wf_vars) env heap
    Region.regName storeOk_vars

end Refs

end Why3
