import Why3.Core.TermRebuild
import Why3.Lib.Checks
import Why3.Transform.Introduction

/-!
# When dequantification fails

`dequantify` of `transform/introduction.ml` leaves variables, constants, applications and
`epsilon` terms alone, and handles the other nodes as formulas.  The scrutinee of a match
is visited too, and it is a value: a conditional or a let there raises an exception.
-/

namespace Why3

open List Term

variable {bl : List (Pattern × Term)} {vl : List VSymbol} {a : Sattr}

namespace Introduction

open Checks

mutual
/-- No conditional and no let is met where the head of a value is visited. -/
def plain : Term → Bool
  | .tif _ _ _ _ => false
  | .tlet _ _ _ _ => false
  | .tcase _ t bl => plain t && plainBranches bl
  | _ => true
def plainBranches : List (Pattern × Term) → Bool
  | [] => true
  | (_, e) :: bl => plain e && plainBranches bl
end

attribute [grind =] plain plainBranches

mutual
/-- The scrutinees of the matches that are visited are plain. -/
def plainMatches (pos : Bool) : Term → Bool
  | .tlet _ _ _ e => plainMatches pos e
  | .tquant _ q _ _ f => if opens pos q then plainMatches pos f else true
  | .tif _ f t1 t2 =>
    plainMatches pos f && (plainMatches (!pos) f && (plainMatches pos t1 && plainMatches pos t2))
  | .tcase _ t bl => plain t && plainMatchesBranches pos bl
  | .tbinop _ .timplies f g => plainMatches (!pos) f && plainMatches pos g
  | .tbinop _ .tiff f g =>
    plainMatches pos f && (plainMatches (!pos) f && (plainMatches pos g && plainMatches (!pos) g))
  | .tbinop _ _ f g => plainMatches pos f && plainMatches pos g
  | .tnot _ f => plainMatches (!pos) f
  | _ => true
def plainMatchesBranches (pos : Bool) : List (Pattern × Term) → Bool
  | [] => true
  | (_, e) :: bl => plainMatches pos e && plainMatchesBranches pos bl
end

attribute [grind =] plainMatches plainMatchesBranches

/-- The condition for a formula or for a value. -/
def fine (pos : Bool) (t : Term) : Bool := if t.tTy = none then plainMatches pos t else plain t

theorem fine_of_none {pos : Bool} {t : Term} (h : t.tTy = none) : fine pos t = plainMatches pos t :=
  if_pos h

theorem fine_of_ne {pos : Bool} {t : Term} (h : t.tTy ≠ none) : fine pos t = plain t := if_neg h

def fineBranches (pos : Bool) (bl : List (Pattern × Term)) : Bool := bl.all fun b => fine pos b.2

theorem fineBranches_eq {pos : Bool} {o : Option Ty} (h : ∀ b ∈ bl, b.2.tTy = o) :
    fineBranches pos bl = if o = none then plainMatchesBranches pos bl else plainBranches bl := by
  induction bl with
  | nil =>
    rw [plainMatchesBranches, plainBranches, ite_self]
    rfl
  | cons b bl ih =>
    obtain ⟨p, e⟩ := b
    have he : e.tTy = o := h _ mem_cons_self
    have hrest := ih fun b hb => h b (mem_cons_of_mem _ hb)
    rw [fineBranches] at hrest
    rw [fineBranches, all_cons, hrest, fine, he, plainMatchesBranches, plainBranches]
    split_ifs <;> rfl

/-! ## What is kept -/

section Kept

variable {sig : TySymbol → List LSymbol} {m : Mvs} {st st' st'' : Opened} {t t' : Term}
  {F G : List VSymbol} {w : VSymbol}

/-- The variable stands for one of `F`, or is an opened one. -/
def FreeIn (m : Mvs) (F : List VSymbol) (st : Opened) (w : VSymbol) : Prop :=
  (∃ v ∈ F, w ∈ (m.get v).freeVars) ∨ w ∈ st.ht.map Prod.fst

/-- The tables only grow. -/
structure Grows (st st' : Opened) : Prop where
  next : st.next ≤ st'.next
  ht : ∀ v ∈ st.ht, v ∈ st'.ht

theorem Grows.refl (st : Opened) : Grows st st := ⟨le_rfl, fun _ h => h⟩

theorem Grows.trans (h : Grows st st') (h' : Grows st' st'') : Grows st st'' :=
  ⟨h.next.trans h'.next, fun v hv => h'.ht v (h.ht v hv)⟩

theorem FreeIn.mono (h : FreeIn m F st w) (hF : ∀ v ∈ F, v ∈ G) (hst : Grows st st') :
    FreeIn m G st' w := by
  rcases h with ⟨v, hv, hw⟩ | hw
  · exact .inl ⟨v, hF v hv, hw⟩
  · obtain ⟨x, hx, rfl⟩ := mem_map.mp hw
    exact .inr (mem_map_of_mem (hst.ht x hx))

theorem grows_openVars (st : Opened) (vl : List VSymbol) : Grows st (st.openVars vl) :=
  ⟨Nat.le_add_right _ _, fun _ hv => mem_append_right _ hv⟩

theorem freshen_mem_openVars {u : VSymbol} (h : u ∈ freshen st.next vl) :
    u ∈ (st.openVars vl).ht.map Prod.fst := by
  have hlen : (freshen st.next vl).length ≤ vl.length := (length_freshen st.next vl).le
  rw [Opened.openVars, map_append, map_reverse, map_fst_zip hlen]
  exact mem_append_left _ (mem_reverse.mpr h)

theorem FreeIn.of_bind (h : FreeIn (m.bind st.next vl) F st' w) (hF : ∀ v ∈ F, v ∉ vl → v ∈ G)
    (hst : Grows (st.openVars vl) st') : FreeIn m G st' w := by
  rcases h with ⟨v, hv, hw⟩ | hw
  · by_cases hvl : w ∈ vl.map (m.bind st.next vl).var
    · obtain ⟨u, hu, rfl⟩ := mem_map.mp hvl
      have hmem := freshen_mem_openVars (Mvs.var_mem_freshen (m := m) (k := st.next) hu)
      obtain ⟨x, hx, hxw⟩ := mem_map.mp hmem
      exact .inr (mem_map.mpr ⟨x, hst.ht x hx, hxw⟩)
    · obtain ⟨hnot, hw⟩ := Mvs.mem_get_bind hw hvl
      exact .inl ⟨v, hF v hv hnot, hw⟩
  · exact .inr hw

/-- What a run on `t` returns. -/
structure Kept (sig : TySymbol → List LSymbol) (m : Mvs) (st : Opened) (t t' : Term)
    (st' : Opened) : Prop where
  wt : t'.Wt sig
  ty : t'.tTy = t.tTy
  grows : Grows st st'
  free : ∀ w ∈ t'.freeVars, FreeIn m t.freeVars st' w

theorem Kept.isFmla (h : Kept sig m st t t' st') (ht : t.tTy = none) : IsFmla sig t' :=
  ⟨h.wt, h.ty.trans ht⟩

/-- In a later state, as a part of a term with the variables `F`. -/
theorem Kept.free_in (h : Kept sig m st t t' st') (hF : ∀ v ∈ t.freeVars, v ∈ F)
    (hst : Grows st' st'') (hw : w ∈ t'.freeVars) : FreeIn m F st'' w :=
  (h.free w hw).mono hF hst

theorem kept_subst (hm : m.Ok sig st.next t.freeVars) (ht : t.Wt sig) :
    Kept sig m st t (t.subst st.next m) st := by
  refine ⟨wt_subst hm ht, tTy_subst hm, Grows.refl st, fun w hw => ?_⟩
  exact .inl (mem_freeVars_subst hw)

theorem Kept.attrCopy (h : Kept sig m st t t' st') (s : Term) :
    Kept sig m st t (tAttrCopy s t') st' := by
  refine ⟨?_, ?_, h.grows, fun w hw => ?_⟩
  · rw [tAttrCopy, wt_setAttrs]
    exact h.wt
  · rw [tTy_tAttrCopy]
    exact h.ty
  · rw [freeVars_tAttrCopy] at hw
    exact h.free w hw

theorem ok_grows (hm : m.Ok sig st.next F) (hst : Grows st st') : m.Ok sig st'.next F := by
  intro v hv
  obtain ⟨hwt, hty, hlt⟩ := hm v hv
  exact ⟨hwt, hty, fun w hw => (hlt w hw).trans_le hst.next⟩

/-- The branches of a match: their patterns are renamed. -/
structure KeptBranches (sig : TySymbol → List LSymbol) (m : Mvs) (st : Opened)
    (bl bl' : List (Pattern × Term)) (st' : Opened) : Prop where
  nil : bl' = [] → bl = []
  branch : ∀ b' ∈ bl', ∃ b ∈ bl, b'.1.patTy = b.1.patTy ∧ b'.1.Ok sig ∧ b'.1.Linear ∧
    b'.2.tTy = b.2.tTy ∧ b'.2.Wt sig
  grows : Grows st st'
  free : ∀ w ∈ freeVarsBranches bl', FreeIn m (freeVarsBranches bl) st' w

end Kept

/-! ## The nodes of `t_map_sign` -/

section Nodes

variable {sig : TySymbol → List LSymbol} {pos : Bool} {f1p f1n f2p f2n f2 f3 : Term} {w : VSymbol}

theorem isFmla_not {f : Term} (h : IsFmla sig f) : IsFmla sig (.tnot a f) :=
  ⟨⟨h.2, h.1⟩, rfl⟩

theorem isFmla_iffSign (h1p : IsFmla sig f1p) (h1n : IsFmla sig f1n) (h2p : IsFmla sig f2p)
    (h2n : IsFmla sig f2n) : IsFmla sig (iffSign pos f1p f1n f2p f2n) := by
  rw [iffSign]
  split_ifs
  · exact h1p.binop h2p
  · exact (h1n.binop h2p).binop (h2n.binop h1p)
  · exact (h1n.binop h2n).binop (h1p.binop h2p)

theorem mem_freeVars_iffSign (h : w ∈ (iffSign pos f1p f1n f2p f2n).freeVars) :
    w ∈ f1p.freeVars ∨ w ∈ f1n.freeVars ∨ w ∈ f2p.freeVars ∨ w ∈ f2n.freeVars := by
  rw [iffSign] at h
  split_ifs at h <;> simp only [freeVars, mem_append] at h <;> tauto

theorem isFmla_ifSign (h1p : IsFmla sig f1p) (h1n : IsFmla sig f1n) (h2 : IsFmla sig f2)
    (h3 : IsFmla sig f3) : IsFmla sig (ifSign pos f1p f1n f2 f3) := by
  rw [ifSign]
  split_ifs
  · exact ⟨⟨h1p.2, h2.2.trans h3.2.symm, h1p.1, h2.1, h3.1⟩, h3.2⟩
  · exact (h1n.binop h2).binop ((isFmla_not h1p).binop h3)
  · exact (h1p.binop h2).binop ((isFmla_not h1n).binop h3)

theorem mem_freeVars_ifSign (h : w ∈ (ifSign pos f1p f1n f2 f3).freeVars) :
    w ∈ f1p.freeVars ∨ w ∈ f1n.freeVars ∨ w ∈ f2.freeVars ∨ w ∈ f3.freeVars := by
  rw [ifSign] at h
  split_ifs at h <;> simp only [freeVars, mem_append] at h <;> tauto

theorem isFmla_letSign (h1 : IsFmla sig f1p) (h2 : IsFmla sig f2) :
    IsFmla sig (letSign pos f1p f2) := by
  rw [letSign]
  split_ifs
  · exact isFmla_tImpliesSimp h1 h2
  · exact isFmla_tAndSimp h1 h2

theorem mem_freeVars_letSign (h : w ∈ (letSign pos f1p f2).freeVars) :
    w ∈ f1p.freeVars ∨ w ∈ f2.freeVars := by
  rw [letSign] at h
  split_ifs at h
  · exact mem_append.mp (freeVars_tImpliesSimp _ _ h)
  · exact mem_append.mp (freeVars_tAndSimp _ _ h)

end Nodes

/-! ## The traversal -/

section Traversal

variable {sig : TySymbol → List LSymbol}

/-- What holds of the run of `dequantify` on `t`. -/
def Runs (sig : TySymbol → List LSymbol) (t : Term) : Prop :=
  t.Wt sig → ∀ (m : Mvs) (pos : Bool) (st : Opened), m.Ok sig st.next t.freeVars →
    Meets (fine pos t) (fun r => Kept sig m st t r.1 r.2) (dequantify m pos st t)

theorem runs_subst {t : Term}
    (hrun : ∀ m pos st, dequantify m pos st t = .ok (t.subst st.next m, st))
    (hfine : ∀ pos, fine pos t = true) : Runs sig t := by
  intro hwt m pos st hm
  rw [hrun, hfine]
  exact meets_ok (kept_subst hm hwt)

theorem tlet_freeVars {t e e' : Term} {v w : VSymbol} {m : Mvs} {pos : Bool} {st st' : Opened}
    (hkept : Kept sig (m.bind st.next [v]) (st.openVars [v]) e e' st')
    (hw : w ∈ (letSign pos (tEqu (.tvar [] ⟨st.next, v.vsTy⟩) (t.subst st.next m)) e').freeVars) :
    FreeIn m (tlet a t v e).freeVars st' w := by
  rcases mem_freeVars_letSign hw with hw | hw
  · simp only [tEqu, freeVars, freeVarsList_eq, flatMap_cons, flatMap_nil,
      append_nil, mem_append, mem_singleton] at hw
    rcases hw with rfl | hw
    · -- the opened variable
      have hmem : (⟨st.next, v.vsTy⟩ : VSymbol) ∈ (st.openVars [v]).ht.map Prod.fst :=
        freshen_mem_openVars (mem_singleton_self _)
      obtain ⟨x, hx, hxw⟩ := mem_map.mp hmem
      exact .inr (mem_map.mpr ⟨x, hkept.grows.ht x hx, hxw⟩)
    · obtain ⟨u, hu, hw⟩ := mem_freeVars_subst hw
      exact .inl ⟨u, mem_append_left _ hu, hw⟩
  · exact (hkept.free w hw).of_bind (fun u hu hne => mem_freeVars_tlet hu hne) hkept.grows

theorem runs_tlet {t e : Term} {v : VSymbol} (ih : Runs sig e) : Runs sig (.tlet a t v e) := by
  intro hwt m pos st hm
  obtain ⟨hty, hwtt, hwte⟩ := hwt
  have hmt := hm.mono (G := t.freeVars) (fun w hw => by simp [freeVars, hw])
  have hme : (m.bind st.next [v]).Ok sig (st.openVars [v]).next e.freeVars :=
    hm.bind (fun w => mem_freeVars_tlet)
  have hrun := ih hwte _ pos _ hme
  rw [dequantify]
  by_cases he : e.tTy = none
  · have hfine : fine pos (.tlet a t v e) = (fine pos e && true) := by
      rw [Bool.and_true, fine_of_none he, fine_of_none (t := .tlet a t v e) he, plainMatches]
    rw [hfine]
    refine hrun.bind ?_
    rintro ⟨e', st'⟩ hkept
    have hfmla := hkept.isFmla he
    have hsome : ¬ e'.tTy.isSome := by rw [hfmla.2]; decide
    dsimp only
    rw [if_neg hsome]
    have hequ : IsFmla sig (tEqu (.tvar [] ⟨st.next, v.vsTy⟩) (t.subst st.next m)) := by
      refine ⟨wt_tEqu rfl ?_ trivial (wt_subst hmt hwtt), rfl⟩
      rw [tTy_subst hmt, hty]
    have hlet := @isFmla_letSign sig pos _ _ hequ hfmla
    have hgrows : Grows st st' := (grows_openVars st [v]).trans hkept.grows
    have hres : Kept sig m st (.tlet a t v e)
        (letSign pos (tEqu (.tvar [] ⟨st.next, v.vsTy⟩) (t.subst st.next m)) e') st' := by
      refine ⟨hlet.1, hlet.2.trans he.symm, hgrows, fun w hw => ?_⟩
      exact tlet_freeVars hkept hw
    exact meets_ok (hres.attrCopy _)
  · have hfine : fine pos (.tlet a t v e) = (fine pos e && false) := by
      rw [Bool.and_false, fine_of_ne (t := .tlet a t v e) he, plain]
    rw [hfine]
    refine hrun.bind ?_
    rintro ⟨e', st'⟩ hkept
    have hsome : e'.tTy.isSome := by
      rw [hkept.ty]
      exact Option.isSome_iff_ne_none.mpr he
    dsimp only
    rw [if_pos hsome]
    exact meets_error _

theorem runs_tquant {q : Quant} {trl : List (List Term)} {f : Term} (ih : Runs sig f) :
    Runs sig (.tquant a q vl trl f) := by
  intro hwt m pos st hm
  have hf : f.tTy = none := hwt.1
  rw [dequantify, fine_of_none (t := .tquant a q vl trl f) rfl, plainMatches]
  split_ifs with hopen
  · have hmf : (m.bind st.next vl).Ok sig (st.openVars vl).next f.freeVars :=
      hm.bind (fun w hw hne => mem_freeVars_tquant hw hne)
    rw [← fine_of_none hf, ← Bool.and_true (fine pos f)]
    refine (ih hwt.2.2 _ pos _ hmf).bind ?_
    rintro ⟨f', st'⟩ hkept
    have hres : Kept sig m st (.tquant a q vl trl f) f' st' := by
      refine ⟨hkept.wt, hkept.ty.trans hf, (grows_openVars st vl).trans hkept.grows, fun w hw => ?_⟩
      exact (hkept.free w hw).of_bind (fun u hu hne => mem_freeVars_tquant hu hne) hkept.grows
    exact meets_ok (hres.attrCopy _)
  · exact meets_ok (kept_subst hm hwt)

theorem runs_tif {f t1 t2 : Term} (ihf : Runs sig f) (ih1 : Runs sig t1) (ih2 : Runs sig t2) :
    Runs sig (.tif a f t1 t2) := by
  intro hwt m pos st hm
  obtain ⟨hf, h12, hwtf, hwt1, hwt2⟩ := hwt
  rw [dequantify]
  by_cases h2 : t2.tTy = none
  · have hF : ∀ v, v ∈ f.freeVars ∨ v ∈ t1.freeVars ∨ v ∈ t2.freeVars →
        v ∈ (tif a f t1 t2).freeVars := by
      intro v hv
      simpa [freeVars] using hv
    have hsome : ¬ t2.tTy.isSome := by rw [h2]; decide
    have h1 : t1.tTy = none := h12.trans h2
    have hFf := fun v hv => hF v (.inl hv)
    have hF1 := fun v hv => hF v (.inr (.inl hv))
    have hF2 := fun v hv => hF v (.inr (.inr hv))
    rw [if_neg hsome, fine_of_none (t := .tif a f t1 t2) h2, plainMatches, ← fine_of_none hf,
      ← fine_of_none hf, ← fine_of_none h1, ← fine_of_none h2, ← Bool.and_true (fine pos t2)]
    refine (ihf hwtf _ pos _ (hm.mono hFf)).bind ?_
    rintro ⟨fp, st₁⟩ hkp
    have hst₁ := hkp.grows
    refine (ihf hwtf _ (!pos) _ (ok_grows (hm.mono hFf) hst₁)).bind ?_
    rintro ⟨fn, st₂⟩ hkn
    have hst₂ := hst₁.trans hkn.grows
    refine (ih1 hwt1 _ pos _ (ok_grows (hm.mono hF1) hst₂)).bind ?_
    rintro ⟨t1', st₃⟩ hk1
    have hst₃ := hst₂.trans hk1.grows
    refine (ih2 hwt2 _ pos _ (ok_grows (hm.mono hF2) hst₃)).bind ?_
    rintro ⟨t2', st₄⟩ hk2
    have hfmla := @isFmla_ifSign sig pos _ _ _ _ (hkp.isFmla hf) (hkn.isFmla hf) (hk1.isFmla h1)
      (hk2.isFmla h2)
    have hres : Kept sig m st (.tif a f t1 t2) (ifSign pos fp fn t1' t2') st₄ := by
      refine ⟨hfmla.1, hfmla.2.trans h2.symm, hst₃.trans hk2.grows, fun w hw => ?_⟩
      rcases mem_freeVars_ifSign hw with hw | hw | hw | hw
      · exact hkp.free_in hFf (hkn.grows.trans (hk1.grows.trans hk2.grows)) hw
      · exact hkn.free_in hFf (hk1.grows.trans hk2.grows) hw
      · exact hk1.free_in hF1 hk2.grows hw
      · exact hk2.free_in hF2 (Grows.refl _) hw
    exact meets_ok (hres.attrCopy _)
  · have hsome : t2.tTy.isSome := Option.isSome_iff_ne_none.mpr h2
    rw [if_pos hsome, fine_of_ne (t := .tif a f t1 t2) h2, plain]
    exact meets_error _

theorem runs_tnot {f : Term} (ih : Runs sig f) : Runs sig (.tnot a f) := by
  intro hwt m pos st hm
  rw [dequantify, fine_of_none (t := .tnot a f) rfl, plainMatches, ← fine_of_none hwt.1,
    ← Bool.and_true (fine (!pos) f)]
  refine (ih hwt.2 _ (!pos) _ hm).bind ?_
  rintro ⟨f', st'⟩ hkept
  exact meets_ok ⟨⟨hkept.ty.trans hwt.1, hkept.wt⟩, rfl, hkept.grows, hkept.free⟩

theorem runs_tbinop {op : Binop} {f g : Term} (ihf : Runs sig f) (ihg : Runs sig g) :
    Runs sig (.tbinop a op f g) := by
  intro hwt m pos st hm
  obtain ⟨hf, hg, hwtf, hwtg⟩ := hwt
  have hFf : ∀ v ∈ f.freeVars, v ∈ (tbinop a op f g).freeVars :=
    fun v hv => mem_append_left _ hv
  have hFg : ∀ v ∈ g.freeVars, v ∈ (tbinop a op f g).freeVars :=
    fun v hv => mem_append_right _ hv
  -- a connective that is kept
  have hkeep : ∀ op' : Binop, ∀ pos' : Bool, Meets (plainMatches pos' f && plainMatches pos g)
      (fun r => Kept sig m st (.tbinop a op f g) r.1 r.2)
        (dequantify m pos' st f >>= fun r => dequantify m pos r.2 g >>= fun r' =>
          .ok (tbinop a op' r.1 r'.1, r'.2)) := by
    intro op' pos'
    rw [← fine_of_none hf, ← fine_of_none hg, ← Bool.and_true (fine pos g)]
    refine (ihf hwtf _ pos' _ (hm.mono hFf)).bind ?_
    rintro ⟨f', st₁⟩ hkf
    refine (ihg hwtg _ pos _ (ok_grows (hm.mono hFg) hkf.grows)).bind ?_
    rintro ⟨g', st₂⟩ hkg
    have hfmla : IsFmla sig (.tbinop a op' f' g') := (hkf.isFmla hf).binop (hkg.isFmla hg)
    refine meets_ok ⟨hfmla.1, rfl, hkf.grows.trans hkg.grows, fun w hw => ?_⟩
    rcases mem_append.mp hw with hw | hw
    · exact hkf.free_in hFf hkg.grows hw
    · exact hkg.free_in hFg (Grows.refl _) hw
  rw [fine_of_none (t := .tbinop a op f g) rfl]
  cases op with
  | tand =>
    rw [dequantify, plainMatches]
    · exact hkeep .tand pos
    all_goals simp
  | tor =>
    rw [dequantify, plainMatches]
    · exact hkeep .tor pos
    all_goals simp
  | timplies =>
    rw [dequantify, plainMatches]
    exact hkeep .timplies (!pos)
  | tiff =>
    rw [dequantify, plainMatches, ← fine_of_none hf, ← fine_of_none hf, ← fine_of_none hg,
      ← fine_of_none hg, ← Bool.and_true (fine (!pos) g)]
    refine (ihf hwtf _ pos _ (hm.mono hFf)).bind ?_
    rintro ⟨fp, st₁⟩ hfp
    have hst₁ := hfp.grows
    refine (ihf hwtf _ (!pos) _ (ok_grows (hm.mono hFf) hst₁)).bind ?_
    rintro ⟨fn, st₂⟩ hfn
    have hst₂ := hst₁.trans hfn.grows
    refine (ihg hwtg _ pos _ (ok_grows (hm.mono hFg) hst₂)).bind ?_
    rintro ⟨gp, st₃⟩ hgp
    have hst₃ := hst₂.trans hgp.grows
    refine (ihg hwtg _ (!pos) _ (ok_grows (hm.mono hFg) hst₃)).bind ?_
    rintro ⟨gn, st₄⟩ hgn
    have hfmla := @isFmla_iffSign sig pos _ _ _ _ (hfp.isFmla hf) (hfn.isFmla hf) (hgp.isFmla hg)
      (hgn.isFmla hg)
    have hres : Kept sig m st (.tbinop a .tiff f g) (iffSign pos fp fn gp gn) st₄ := by
      refine ⟨hfmla.1, hfmla.2, hst₃.trans hgn.grows, fun w hw => ?_⟩
      rcases mem_freeVars_iffSign hw with hw | hw | hw | hw
      · exact hfp.free_in hFf (hfn.grows.trans (hgp.grows.trans hgn.grows)) hw
      · exact hfn.free_in hFf (hgp.grows.trans hgn.grows) hw
      · exact hgp.free_in hFg hgn.grows hw
      · exact hgn.free_in hFg (Grows.refl _) hw
    exact meets_ok (hres.attrCopy _)

/-! ## Matches -/

theorem meets_branches {o : Option Ty} {m : Mvs} {pos : Bool} :
    ∀ {st : Opened}, (∀ b ∈ bl, Runs sig b.2) →
      (∀ b ∈ bl, some b.1.patTy = o ∧ b.1.Ok sig ∧ b.1.Linear ∧ b.2.Wt sig) →
      m.Ok sig st.next (freeVarsBranches bl) →
      Meets (fineBranches pos bl) (fun r => KeptBranches sig m st bl r.1 r.2)
        (dequantifyBranches m pos st bl) := by
  induction bl with
  | nil =>
    intro st _ _ _
    exact meets_ok ⟨fun _ => rfl, fun b hb => (by cases hb), Grows.refl st,
      fun w hw => (by cases hw)⟩
  | cons b bl ih =>
    obtain ⟨p, e⟩ := b
    intro st hrun hok hm
    have hbody := hrun (p, e) mem_cons_self
    obtain ⟨-, hpok, hlin, hwte⟩ := hok (p, e) mem_cons_self
    have hme : (m.bind st.next p.patVars).Ok sig (st.next + p.patVars.length) e.freeVars := by
      refine hm.bind fun v hv hne => ?_
      rw [freeVarsBranches]
      refine mem_append_left _ (mem_filter.mpr ⟨hv, ?_⟩)
      simpa using hne
    have hmbl : m.Ok sig st.next (freeVarsBranches bl) :=
      hm.mono fun v hv => mem_append_right _ hv
    have hr : ∀ v ∈ p.patVars, ((m.bind st.next p.patVars).var v).vsTy = v.vsTy :=
      fun v hv => Mvs.vsTy_var_bind hv
    rw [dequantifyBranches, fineBranches, all_cons]
    refine (hbody hwte _ pos ⟨st.next + p.patVars.length, st.ht⟩ hme).bind ?_
    rintro ⟨e', st₁⟩ hke
    have hopen : Grows st ⟨st.next + p.patVars.length, st.ht⟩ :=
      ⟨Nat.le_add_right _ _, fun _ h => h⟩
    have hst₁ := hopen.trans hke.grows
    rw [← Bool.and_true (bl.all _)]
    refine (ih (fun b hb => hrun b (mem_cons_of_mem _ hb))
      (fun b hb => hok b (mem_cons_of_mem _ hb)) (ok_grows hmbl hst₁)).bind ?_
    rintro ⟨bl', st₂⟩ hkbl
    refine meets_ok ⟨fun h => (by cases h), fun b' hb' => ?_, hst₁.trans hkbl.grows, fun w hw => ?_⟩
    · rcases mem_cons.mp hb' with rfl | hb'
      · refine ⟨(p, e), mem_cons_self, Pattern.patTy_rename hr, Pattern.ok_rename hpok hr,
          Pattern.linear_rename hlin Mvs.var_injOn, hke.ty, hke.wt⟩
      · obtain ⟨b, hb, h⟩ := hkbl.branch b' hb'
        exact ⟨b, mem_cons_of_mem _ hb, h⟩
    · rw [freeVarsBranches, mem_append, mem_filter, decide_eq_true_eq,
        Pattern.patVars_rename] at hw
      rcases hw with ⟨hw, hnot⟩ | hw
      · rcases hke.free w hw with ⟨u, hu, hw⟩ | hw
        · obtain ⟨hup, hw⟩ := Mvs.mem_get_bind hw hnot
          refine .inl ⟨u, mem_append_left _ (mem_filter.mpr ⟨hu, ?_⟩), hw⟩
          simpa using hup
        · obtain ⟨x, hx, hxw⟩ := mem_map.mp hw
          exact .inr (mem_map.mpr ⟨x, hkbl.grows.ht x hx, hxw⟩)
      · exact (hkbl.free w hw).mono (fun v hv => mem_append_right _ hv) (Grows.refl _)

theorem runs_tcase {t : Term} (iht : Runs sig t) (ihb : ∀ b ∈ bl, Runs sig b.2) :
    Runs sig (.tcase a t bl) := by
  intro hwt m pos st hm
  obtain ⟨hne, hwtt, hbl⟩ := hwt
  rw [wtBranches_iff] at hbl
  have htt : t.tTy ≠ none := by
    obtain ⟨b, hb⟩ := exists_mem_of_ne_nil bl hne
    rw [← (hbl b hb).1]
    nofun
  have hfine : fine pos (.tcase a t bl) = (fine pos t && fineBranches pos bl) := by
    rw [fineBranches_eq fun b hb => (hbl b hb).2.2.2.1, fine_of_ne htt, fine, plainMatches, plain]
    split_ifs <;> rfl
  rw [dequantify, hfine]
  have hmt := hm.mono (G := t.freeVars) (fun w hw => mem_append_left _ hw)
  refine (iht hwtt _ pos _ hmt).bind ?_
  rintro ⟨t', st₁⟩ hkt
  have hmbl := hm.mono (G := freeVarsBranches bl) (fun w hw => mem_append_right _ hw)
  rw [← Bool.and_true (fineBranches pos bl)]
  refine (meets_branches (o := t.tTy) ihb
    (fun b hb => ⟨(hbl b hb).1, (hbl b hb).2.1, (hbl b hb).2.2.1, (hbl b hb).2.2.2.2⟩)
    (ok_grows hmbl hkt.grows)).bind ?_
  rintro ⟨bl', st₂⟩ hkbl
  have hbranch : ∀ b' ∈ bl', some b'.1.patTy = t.tTy ∧ b'.1.Ok sig ∧ b'.1.Linear ∧
      b'.2.tTy = (tcase a t bl).tTy ∧ b'.2.Wt sig := by
    intro b' hb'
    obtain ⟨b, hb, hpty, hok, hlin, hty, hwt⟩ := hkbl.branch b' hb'
    obtain ⟨hpt, -, -, hbt, -⟩ := hbl b hb
    exact ⟨hpty ▸ hpt, hok, hlin, hty.trans hbt, hwt⟩
  have hne' : bl' ≠ [] := fun h => hne (hkbl.nil h)
  have hty : (tcase a t' bl').tTy = (tcase a t bl).tTy := by
    cases bl' with
    | nil => exact absurd rfl hne'
    | cons b' bl' => exact (hbranch b' mem_cons_self).2.2.2.1
  refine meets_ok ⟨⟨hne', hkt.wt, ?_⟩, hty, hkt.grows.trans hkbl.grows, fun w hw => ?_⟩
  · rw [wtBranches_iff, hkt.ty, hty]
    exact hbranch
  · rcases mem_append.mp hw with hw | hw
    · exact hkt.free_in (fun v hv => mem_append_left _ hv) hkbl.grows hw
    · exact (hkbl.free w hw).mono (fun v hv => mem_append_right _ hv) (Grows.refl _)

theorem runs (t : Term) : Runs sig t := by
  have hplain : ∀ {t : Term} {pos : Bool}, plainMatches pos t = true → plain t = true →
      fine pos t = true := by
    intro t pos h1 h2
    rw [fine]
    split_ifs
    · exact h1
    · exact h2
  induction t with
  | tvar a v | tconst a c ty | tapp a s tl ty _ | teps a v f _ | ttrue a | tfalse a => exact runs_subst (fun _ _ _ => rfl) fun _ => hplain rfl rfl
  | tif a f t1 t2 ihf ih1 ih2 => exact runs_tif ihf ih1 ih2
  | tlet a t v e _ ihe => exact runs_tlet ihe
  | tcase a t bl iht ihb => exact runs_tcase iht ihb
  | tquant a q vl trl f _ ih => exact runs_tquant ih
  | tbinop a op f g ihf ihg => exact runs_tbinop ihf ihg
  | tnot a f ih => exact runs_tnot ih

end Traversal

/-! ## Formulas -/

section Formulas

variable {sig : TySymbol → List LSymbol} {f : Term} {st : Opened}

/-- Dequantification of a formula returns a formula, whose free variables are free in the
given one or were opened, exactly when no scrutinee that it visits has a conditional or a
let at its head. -/
theorem dequantify_total_iff (hwt : f.Wt sig) (hf : f.tTy = none)
    (hfresh : ∀ v ∈ f.freeVars, v.vsName < st.next) (pos : Bool) :
    (∃ f' st', dequantify [] pos st f = .ok (f', st') ∧ f'.Wt sig ∧ f'.tTy = none ∧
      ∀ w ∈ f'.freeVars, w ∈ f.freeVars ∨ w ∈ st'.ht.map Prod.fst) ↔ plainMatches pos f = true := by
  have hok : Mvs.Ok sig st.next [] f.freeVars := by
    intro v hv
    refine ⟨trivial, rfl, fun w hw => ?_⟩
    rw [mem_singleton.mp hw]
    exact hfresh v hv
  have hrun := runs f hwt [] pos st hok
  rw [fine_of_none hf] at hrun
  rw [← meets_iff hrun]
  constructor
  · rintro ⟨f', st', heq, -⟩
    rw [heq] at hrun
    cases hplain : plainMatches pos f with
    | true =>
      rw [hplain] at hrun
      obtain ⟨r, hr, hkept⟩ := hrun
      exact ⟨r, heq.trans hr, hkept⟩
    | false =>
      rw [hplain] at hrun
      obtain ⟨e, he⟩ := hrun
      cases he
  · rintro ⟨⟨f', st'⟩, heq, hkept⟩
    refine ⟨f', st', heq, hkept.wt, hkept.ty.trans hf, fun w hw => ?_⟩
    rcases hkept.free w hw with ⟨v, hv, hw⟩ | hw
    · obtain rfl := mem_singleton.mp hw
      exact .inl hv
    · exact .inr hw

/-- `match t with _ -> true end`, for an integer. -/
def matchAny (t : Term) : Term := .tcase [] t [(.pwild tyInt, .ttrue [])]

theorem wt_matchAny {t : Term} (ht : t.Wt sig) (hty : t.tTy = some tyInt) : (matchAny t).Wt sig :=
  ⟨cons_ne_nil _ _, ht, hty.symm, trivial, trivial, rfl, trivial, trivial⟩

theorem dequantify_total_iff_var :
    ∃ f' st', dequantify [] true ⟨1, []⟩ (matchAny (.tvar [] ⟨0, tyInt⟩)) = .ok (f', st') ∧
      f'.Wt (fun _ => []) ∧ f'.tTy = none ∧
      ∀ w ∈ f'.freeVars, w ∈ (matchAny (.tvar [] ⟨0, tyInt⟩)).freeVars ∨ w ∈ st'.ht.map Prod.fst :=
  (dequantify_total_iff (@wt_matchAny (fun _ => []) (.tvar [] ⟨0, tyInt⟩) trivial rfl) rfl (by
    intro v hv
    obtain rfl : v = ⟨0, tyInt⟩ := by simpa [matchAny, freeVars, freeVarsBranches] using hv
    decide) true).mpr rfl

/-- `match (if true then x else x) with _ -> true end`. -/
theorem not_dequantify_total :
    (matchAny (.tif [] (.ttrue []) (.tvar [] ⟨0, tyInt⟩) (.tvar [] ⟨0, tyInt⟩))).Wt (fun _ => []) ∧
      dequantify [] true ⟨1, []⟩
        (matchAny (.tif [] (.ttrue []) (.tvar [] ⟨0, tyInt⟩) (.tvar [] ⟨0, tyInt⟩)))
        = .error .polarity :=
  ⟨wt_matchAny ⟨rfl, rfl, trivial, trivial, trivial⟩ rfl, rfl⟩

end Formulas

end Introduction

end Why3
