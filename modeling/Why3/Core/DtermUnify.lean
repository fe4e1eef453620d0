import Why3.Core.Ty
import Why3.Lib.Acyclic
import Why3.Lib.Checks

/-!
# Unification of types

The types of type inference of `core/dterm.ml` and their unification.  A reference of the
source is an address in a store, which holds the number of an unknown type or the type
that was assigned to it; an assignment changes the store.  The recursion follows the links
of the store, and takes a bound on its depth here.
-/

namespace Why3

open List Function

namespace Dterm

open Relation

/-! ## Types and stores -/

inductive Dty : Type
  | dvar (r : ℕ)
  | dapp (ts : TySymbol) (dl : List Dty)
  | duty (ty : Ty)

/-- The contents of a reference. -/
inductive Dvar : Type
  | dind (i : ℕ)
  | dval (d : Dty)

/-- The references below `size` are allocated; `next` is the counter of `dty_fresh`. -/
structure Store where
  cell : ℕ → Dvar
  size : ℕ
  next : ℕ

inductive UnifyError
  | exit
  | invalidArgument
  | outOfFuel
deriving DecidableEq

variable {dl : List Dty} {ts : TySymbol}

namespace Dty

@[induction_eliminator]
theorem induct {motive : Dty → Prop} (dvar : ∀ r, motive (.dvar r))
    (dapp : ∀ ts dl, (∀ d ∈ dl, motive d) → motive (.dapp ts dl))
    (duty : ∀ ty, motive (.duty ty)) : ∀ d, motive d :=
  @Dty.rec motive (fun l => ∀ d ∈ l, motive d) dvar (fun ts dl h => dapp ts dl h) duty
    (fun _ h => by cases h)
    (fun d l hd hl e he => by
      rcases mem_cons.mp he with rfl | he
      · exact hd
      · exact hl e he)

mutual
/-- The references that occur in a type. -/
def refs : Dty → List ℕ
  | dvar r => [r]
  | dapp _ dl => refsList dl
  | duty _ => []
def refsList : List Dty → List ℕ
  | [] => []
  | d :: dl => d.refs ++ refsList dl
end

attribute [grind =] refs refsList

theorem mem_refsList {r : ℕ} : r ∈ refsList dl ↔ ∃ d ∈ dl, r ∈ d.refs := by
  induction dl with
  | nil => simp [refsList]
  | cons d dl ih => simp [refsList, ih]

mutual
/-- `dty_app` checks the number of arguments. -/
def Arity : Dty → Prop
  | dvar _ => True
  | dapp ts dl => dl.length = ts.tsArgs.length ∧ ArityList dl
  | duty ty => ty.Wf
def ArityList : List Dty → Prop
  | [] => True
  | d :: dl => d.Arity ∧ ArityList dl
end

attribute [grind =] Arity ArityList

theorem arityList_iff : ArityList dl ↔ ∀ d ∈ dl, d.Arity := by
  induction dl with
  | nil => simp [ArityList]
  | cons d dl ih => simp [ArityList, ih]

/-- The references are allocated and the applications have their arguments. -/
structure Ok (n : ℕ) (d : Dty) : Prop where
  refs : ∀ r ∈ d.refs, r < n
  arity : d.Arity

theorem Ok.of_mem {n : ℕ} (h : (dapp ts dl).Ok n) {d : Dty} (hd : d ∈ dl) : d.Ok n :=
  ⟨fun r hr => h.refs r (by rw [Dty.refs]; exact mem_refsList.mpr ⟨d, hd, hr⟩),
    arityList_iff.mp h.arity.2 d hd⟩

end Dty

namespace Store

/-- The assignment `r := Dval d`. -/
def set (st : Store) (r : ℕ) (d : Dty) : Store :=
  { st with cell := update st.cell r (.dval d) }

@[simp] theorem set_size (st : Store) (r : ℕ) (d : Dty) : (st.set r d).size = st.size := rfl

@[simp] theorem set_next (st : Store) (r : ℕ) (d : Dty) : (st.set r d).next = st.next := rfl

@[simp] theorem set_self (st : Store) (r : ℕ) (d : Dty) : (st.set r d).cell r = .dval d := by
  simp [set]

theorem set_ne (st : Store) {r s : ℕ} (d : Dty) (h : s ≠ r) :
    (st.set r d).cell s = st.cell s := by
  simp [set, h]

end Store

/-- `dty_fresh`. -/
def dtyFresh (st : Store) : Store × Dty :=
  ({ cell := update st.cell st.size (.dind (st.next + 1)), size := st.size + 1,
     next := st.next + 1 }, .dvar st.size)

/-! ## Unification -/

/-- What the patterns of the source see of a type: a variable is read in the store. -/
inductive View
  | val (d : Dty)
  | ind (r i : ℕ)
  | app (ts : TySymbol) (dl : List Dty)
  | ty (ty : Ty)

def Store.view (st : Store) : Dty → View
  | .dvar r =>
    match st.cell r with
    | .dval d => .val d
    | .dind i => .ind r i
  | .dapp ts dl => .app ts dl
  | .duty ty => .ty ty

def occurCheck : ℕ → Store → ℕ → Dty → Except UnifyError Unit
  | 0, _, _, _ => .error .outOfFuel
  | n + 1, st, i, d =>
    match st.view d with
    | .val d => occurCheck n st i d
    | .ind _ j => if i = j then .error .exit else .ok ()
    | .app _ dl => forM dl (occurCheck n st i)
    | .ty _ => .ok ()

/-- `List.iter2`, for a function that changes the store. -/
def iter2 {α β : Type} (f : Store → α → β → Except UnifyError Store) :
    Store → List α → List β → Except UnifyError Store
  | st, [], [] => .ok st
  | st, a :: l, b :: m => do
    let st ← f st a b
    iter2 f st l m
  | _, _, _ => .error .invalidArgument

def dtyMatch : ℕ → Store → Dty → Ty → Except UnifyError Store
  | 0, _, _, _ => .error .outOfFuel
  | n + 1, st, dty, ty =>
    match st.view dty, ty with
    | .val dty, _ => dtyMatch n st dty ty
    | .ind r _, _ => .ok (st.set r (.duty ty))
    | .ty ty1, _ => if ty1 = ty then .ok st else .error .exit
    | .app ts1 dl, .tyapp ts2 tl =>
      if ts1 = ts2 then iter2 (dtyMatch n) st dl tl else .error .exit
    | .app _ _, .tyvar _ => .error .exit

def dtyUnify : ℕ → Store → Dty → Dty → Except UnifyError Store
  | 0, _, _, _ => .error .outOfFuel
  | n + 1, st, dty1, dty2 =>
    match st.view dty1, st.view dty2 with
    | .val dty1, _ => dtyUnify n st dty1 dty2
    | _, .val dty2 => dtyUnify n st dty1 dty2
    | .ind r i, .ind _ j =>
      if i = j then .ok st
      else do
        occurCheck n st i dty2
        .ok (st.set r dty2)
    | .ind r i, _ => do
      occurCheck n st i dty2
      .ok (st.set r dty2)
    | _, .ind r i => do
      occurCheck n st i dty1
      .ok (st.set r dty1)
    | _, .ty ty => dtyMatch n st dty1 ty
    | .ty ty, _ => dtyMatch n st dty2 ty
    | .app ts1 dl1, .app ts2 dl2 =>
      if ts1 = ts2 then iter2 (dtyUnify n) st dl1 dl2 else .error .exit

/-! ## What types denote -/

/-- Types over unknowns. -/
inductive RTy : Type
  | ind (i : ℕ)
  | var (v : TvSymbol)
  | app (ts : TySymbol) (l : List RTy)

namespace RTy

mutual
def ofTy : Ty → RTy
  | .tyvar v => var v
  | .tyapp ts l => app ts (ofTyList l)
def ofTyList : List Ty → List RTy
  | [] => []
  | t :: l => ofTy t :: ofTyList l
end

attribute [grind =] ofTy ofTyList

theorem ofTyList_eq (l : List Ty) : ofTyList l = l.map ofTy := by
  induction l with
  | nil => rfl
  | cons t l ih => simp [ofTyList, ih]

mutual
def subst (τ : ℕ → RTy) : RTy → RTy
  | ind i => τ i
  | var v => var v
  | app ts l => app ts (substList τ l)
def substList (τ : ℕ → RTy) : List RTy → List RTy
  | [] => []
  | t :: l => t.subst τ :: substList τ l
end

attribute [grind =] subst substList

theorem substList_eq (τ : ℕ → RTy) (l : List RTy) : substList τ l = l.map (subst τ) := by
  induction l with
  | nil => rfl
  | cons t l ih => simp [substList, ih]

theorem ofTy_injective : Function.Injective ofTy := by
  intro a
  induction a with
  | tyvar v =>
    intro b h
    cases b with
    | tyvar w =>
      simp only [ofTy, var.injEq] at h
      rw [h]
    | tyapp ts l => cases h
  | tyapp ts l ih =>
    intro b h
    cases b with
    | tyvar w => cases h
    | tyapp ts' l' =>
      simp only [ofTy, ofTyList_eq, app.injEq] at h
      obtain ⟨rfl, hl⟩ := h
      congr 1
      induction l generalizing l' with
      | nil =>
        rw [map_nil, eq_comm, map_eq_nil_iff] at hl
        rw [hl]
      | cons a l ihl =>
        cases l' with
        | nil => cases hl
        | cons b l' =>
          rw [map_cons, map_cons, List.cons.injEq] at hl
          rw [ih a mem_cons_self hl.1,
            ihl (fun t ht => ih t (mem_cons_of_mem _ ht)) l' hl.2]

theorem subst_ofTy (τ : ℕ → RTy) (ty : Ty) : (ofTy ty).subst τ = ofTy ty := by
  induction ty with
  | tyvar v => rfl
  | tyapp ts l ih =>
    rw [ofTy, subst, substList_eq, ofTyList_eq, List.map_map]
    congr 1
    exact map_congr_left ih

end RTy

mutual
/-- The type that is denoted when each reference denotes its value. -/
def Dty.eval (σ : ℕ → RTy) : Dty → RTy
  | .dvar r => σ r
  | .dapp ts dl => .app ts (evalList σ dl)
  | .duty ty => .ofTy ty
def Dty.evalList (σ : ℕ → RTy) : List Dty → List RTy
  | [] => []
  | d :: dl => d.eval σ :: evalList σ dl
end

attribute [grind =] Dty.eval Dty.evalList

theorem Dty.evalList_eq (σ : ℕ → RTy) (dl : List Dty) : evalList σ dl = dl.map (eval σ) := by
  induction dl with
  | nil => rfl
  | cons d dl ih => simp [evalList, ih]

namespace Store

/-- Values of the references that agree with the assignments made so far. -/
def Models (st : Store) (σ : ℕ → RTy) : Prop :=
  ∀ r < st.size, ∀ d, st.cell r = .dval d → σ r = d.eval σ

/-- The values that the assignments give, the unknowns being themselves. -/
structure Assigns (st : Store) (ρ : ℕ → RTy) : Prop where
  models : st.Models ρ
  unknown : ∀ r < st.size, ∀ i, st.cell r = .dind i → ρ r = .ind i

/-- The type assigned to `r` contains `s`. -/
def Linked (st : Store) (s r : ℕ) : Prop :=
  r < st.size ∧ ∃ d, st.cell r = .dval d ∧ s ∈ d.refs

/-- A store that `dty_fresh` and unifications can build: types are well formed, the
numbers of the unknowns differ, and no type is assigned to a variable that it contains. -/
structure Wf (st : Store) : Prop where
  ok : ∀ r < st.size, ∀ d, st.cell r = .dval d → d.Ok st.size
  inj : ∀ r < st.size, ∀ s < st.size, ∀ i, st.cell r = .dind i → st.cell s = .dind i → r = s
  le_next : ∀ r < st.size, ∀ i, st.cell r = .dind i → i ≤ st.next
  acyclic : Links.Acyclic st.Linked

end Store

/-! ## Values along the links -/

section Values

variable {st : Store} {d : Dty} {σ σ' ρ : ℕ → RTy} {r s : ℕ}

theorem Dty.eval_congr (h : ∀ r ∈ d.refs, σ r = σ' r) : d.eval σ = d.eval σ' := by
  induction d with
  | dvar r => exact h r (by simp [refs])
  | duty ty => rfl
  | dapp ts dl ih =>
    rw [eval, eval, evalList_eq, evalList_eq]
    congr 1
    refine map_congr_left fun d hd => ih d hd fun r hr => h r ?_
    rw [refs]
    exact mem_refsList.mpr ⟨d, hd, hr⟩

theorem Dty.subst_eval (τ : ℕ → RTy) (ρ : ℕ → RTy) (d : Dty) :
    (d.eval ρ).subst τ = d.eval fun r => (ρ r).subst τ := by
  induction d with
  | dvar r => rfl
  | duty ty => exact RTy.subst_ofTy τ ty
  | dapp ts dl ih =>
    rw [eval, eval, RTy.subst, RTy.substList_eq, evalList_eq, evalList_eq, List.map_map]
    congr 1
    exact map_congr_left ih

/-- A variable denotes a part of what the type denotes. -/
theorem Dty.sizeOf_le (hr : r ∈ d.refs) : sizeOf (σ r) ≤ sizeOf (d.eval σ) := by
  induction d with
  | dvar s =>
    obtain rfl : r = s := by simpa [refs] using hr
    exact le_rfl
  | duty ty => cases hr
  | dapp ts dl ih =>
    rw [refs] at hr
    obtain ⟨d, hd, hr⟩ := mem_refsList.mp hr
    have hmem : d.eval σ ∈ evalList σ dl := by
      rw [evalList_eq]
      exact mem_map_of_mem hd
    have hlt := sizeOf_lt_of_mem hmem
    have hle := ih d hd hr
    rw [eval, RTy.app.sizeOf_spec]
    omega

theorem Dty.sizeOf_lt (hr : r ∈ (Dty.dapp ts dl).refs) :
    sizeOf (σ r) < sizeOf ((Dty.dapp ts dl).eval σ) := by
  rw [refs] at hr
  obtain ⟨d, hd, hr⟩ := mem_refsList.mp hr
  have hmem : d.eval σ ∈ evalList σ dl := by
    rw [evalList_eq]
    exact mem_map_of_mem hd
  have hlt := sizeOf_lt_of_mem hmem
  have hle := sizeOf_le (σ := σ) hr
  rw [eval, RTy.app.sizeOf_spec]
  omega

namespace Store

theorem Models.sizeOf_le (hσ : st.Models σ) (h : ReflTransGen st.Linked r s) :
    sizeOf (σ r) ≤ sizeOf (σ s) := by
  induction h with
  | refl => exact le_rfl
  | tail _ hst ih =>
    obtain ⟨hlt, d, hd, hs⟩ := hst
    rw [hσ _ hlt d hd]
    exact ih.trans (Dty.sizeOf_le hs)

theorem Wf.linked_lt (hst : st.Wf) (h : st.Linked s r) : s < st.size ∧ r < st.size := by
  obtain ⟨hlt, d, hd, hs⟩ := h
  exact ⟨(hst.ok r hlt d hd).refs s hs, hlt⟩

theorem Wf.wellFounded (hst : st.Wf) : WellFounded st.Linked :=
  Links.wellFounded_of_acyclic (fun _ _ => hst.linked_lt) hst.acyclic

theorem Wf.exists_assigns (hst : st.Wf) : ∃ ρ, st.Assigns ρ := by
  have hne : Nonempty RTy := ⟨.ind 0⟩
  obtain ⟨ρ, hρ⟩ := Links.exists_solution (β := RTy) hst.wellFounded
    (F := fun r ρ => match st.cell r with
      | .dval d => if r < st.size then d.eval ρ else .ind 0
      | .dind i => .ind i) (by
    intro r ρ ρ' h
    cases hcell : st.cell r with
    | dind i => rfl
    | dval d =>
        dsimp only
        split_ifs with hlt
        · exact Dty.eval_congr fun s hs => h s ⟨hlt, d, hcell, hs⟩
        · rfl)
  refine ⟨ρ, fun r hlt d hd => ?_, fun r hlt i hi => ?_⟩
  · rw [hρ r, hd]
    exact if_pos hlt
  · rw [hρ r, hi]

theorem Assigns.factors (hst : st.Wf) (hρ : st.Assigns ρ) (hσ : st.Models σ) :
    ∃ τ, ∀ r < st.size, σ r = (ρ r).subst τ := by
  classical
  let τ : ℕ → RTy := fun i =>
    if h : ∃ r, r < st.size ∧ st.cell r = .dind i then σ h.choose else .ind i
  refine ⟨τ, fun r => ?_⟩
  induction r using hst.wellFounded.induction with
  | _ r ih =>
    intro hlt
    cases hcell : st.cell r with
    | dind i =>
      have h : ∃ r, r < st.size ∧ st.cell r = .dind i := ⟨r, hlt, hcell⟩
      have heq : h.choose = r :=
        hst.inj _ h.choose_spec.1 r hlt i h.choose_spec.2 hcell
      rw [hρ.unknown r hlt i hcell, RTy.subst]
      show σ r = if h : ∃ r, r < st.size ∧ st.cell r = .dind i then σ h.choose else .ind i
      rw [dif_pos h, heq]
    | dval d =>
      rw [hρ.models r hlt d hcell, hσ r hlt d hcell, Dty.subst_eval]
      apply Dty.eval_congr
      intro s hs
      exact ih s ⟨hlt, d, hcell, hs⟩ ((hst.ok r hlt d hcell).refs s hs)

end Store

end Values

/-! ## One assignment -/

def Dvar.isInd : Dvar → Bool
  | .dind _ => true
  | .dval _ => false

namespace Store

/-- The number of unknowns. -/
def unbound (st : Store) : ℕ := ((Finset.range st.size).filter fun r => (st.cell r).isInd).card

/-- The assignments of `st` are kept, and each new one takes an unknown. -/
structure Step (st st' : Store) : Prop where
  size : st'.size = st.size
  kept : ∀ r d, st.cell r = .dval d → st'.cell r = .dval d
  unbound : st' = st ∨ st'.unbound < st.unbound

variable {st st' st'' : Store} {d : Dty} {r i : ℕ}

theorem Step.refl (st : Store) : st.Step st := ⟨rfl, fun _ _ h => h, .inl rfl⟩

theorem Step.trans (h : st.Step st') (h' : st'.Step st'') : st.Step st'' := by
  refine ⟨h'.size.trans h.size, fun r d hd => h'.kept r d (h.kept r d hd), ?_⟩
  rcases h.unbound with rfl | hlt
  · exact h'.unbound
  · rcases h'.unbound with rfl | hlt'
    · exact .inr hlt
    · exact .inr (hlt'.trans hlt)

theorem step_set (hr : r < st.size) (hcell : st.cell r = .dind i) : st.Step (st.set r d) := by
  refine ⟨rfl, fun s e hs => ?_, .inr ?_⟩
  · have hne : s ≠ r := by
      rintro rfl
      rw [hcell] at hs
      cases hs
    rw [set_ne st d hne, hs]
  · apply Finset.card_lt_card
    refine (Finset.ssubset_iff_of_subset fun s hs => ?_).mpr ⟨r, ?_, ?_⟩
    · obtain ⟨hlt, hind⟩ := Finset.mem_filter.mp hs
      by_cases hsr : s = r
      · rw [hsr, set_self] at hind
        cases hind
      · rw [set_ne st d hsr] at hind
        exact Finset.mem_filter.mpr ⟨hlt, hind⟩
    · rw [Finset.mem_filter, hcell]
      exact ⟨Finset.mem_range.mpr hr, rfl⟩
    · rw [Finset.mem_filter, set_self]
      rintro ⟨-, h⟩
      cases h

/-- An unknown that does not occur in a type may be assigned that type. -/
theorem Wf.set (hst : st.Wf) (hr : r < st.size) (hcell : st.cell r = .dind i)
    (hd : d.Ok st.size) (hocc : ∀ s ∈ d.refs, ¬ ReflTransGen st.Linked r s) : (st.set r d).Wf := by
  have hind : ∀ s j, (st.set r d).cell s = .dind j → st.cell s = .dind j := by
    intro s j hs
    by_cases hsr : s = r
    · rw [hsr, set_self] at hs
      cases hs
    · rwa [set_ne st d hsr] at hs
  have hval : ∀ s e, (st.set r d).cell s = .dval e → st.cell s = .dval e ∨ e = d ∧ s = r := by
    intro s e hs
    by_cases hsr : s = r
    · rw [hsr, set_self] at hs
      cases hs
      exact .inr ⟨rfl, hsr⟩
    · rw [set_ne st d hsr] at hs
      exact .inl hs
  refine ⟨fun s hs e he => ?_, fun s hs t ht j hj hj' => ?_, fun s hs j hj => ?_, ?_⟩
  · rcases hval s e he with he | ⟨rfl, rfl⟩
    · exact hst.ok s hs e he
    · exact hd
  · exact hst.inj s hs t ht j (hind s j hj) (hind t j hj')
  · exact hst.le_next s hs j (hind s j hj)
  · refine Links.acyclic_link (S := {s | s ∈ d.refs}) (r := r) (fun a b hab => ?_) hst.acyclic hocc
    obtain ⟨hlt, e, he, ha⟩ := hab
    rcases hval b e he with he | ⟨rfl, rfl⟩
    · exact .inl ⟨hlt, e, he, ha⟩
    · exact .inr ⟨ha, rfl⟩

theorem models_set (hr : r < st.size) (hcell : st.cell r = .dind i) (σ : ℕ → RTy) :
    (st.set r d).Models σ ↔ st.Models σ ∧ σ r = d.eval σ := by
  constructor
  · intro h
    refine ⟨fun s hs e he => ?_, h r hr d (set_self st r d)⟩
    exact h s hs e ((step_set hr hcell).kept s e he)
  · rintro ⟨h, hrd⟩ s hs e he
    by_cases hsr : s = r
    · subst hsr
      rw [set_self] at he
      cases he
      exact hrd
    · rw [set_ne st d hsr] at he
      exact h s hs e he

end Store

/-! ## The occurs check -/

section Occurs

variable {st : Store} {r i : ℕ}

theorem occurCheck_ok (hst : st.Wf) (hr : r < st.size) (hcell : st.cell r = .dind i) (n : ℕ) :
    ∀ d : Dty, d.Ok st.size → occurCheck n st i d = .ok () →
      ∀ s ∈ d.refs, ¬ ReflTransGen st.Linked r s := by
  induction n with
  | zero =>
    intro d _ h
    cases h
  | succ n ih =>
    intro d hd h s hs hreach
    cases d with
    | dvar t =>
      obtain rfl : s = t := by simpa [Dty.refs] using hs
      have hlt : s < st.size := hd.refs s hs
      rw [occurCheck, Store.view] at h
      rcases ReflTransGen.cases_tail hreach with rfl | ⟨u, hu, hus⟩
      · rw [hcell] at h
        simp at h
      · obtain ⟨-, e, he, hue⟩ := hus
        rw [he] at h
        exact ih e (hst.ok s hlt e he) h u hue hu
    | dapp ts dl =>
      rw [Dty.refs] at hs
      obtain ⟨e, he, hs⟩ := Dty.mem_refsList.mp hs
      exact ih e (hd.of_mem he) (Checks.forM_eq_ok.mp h e he) s hs hreach
    | duty ty => cases hs

theorem occurCheck_exit (hst : st.Wf) (hr : r < st.size) (hcell : st.cell r = .dind i) (n : ℕ) :
    ∀ d : Dty, d.Ok st.size → occurCheck n st i d = .error .exit →
      ∃ s ∈ d.refs, ReflTransGen st.Linked r s := by
  induction n with
  | zero =>
    intro d _ h
    cases h
  | succ n ih =>
    intro d hd h
    cases d with
    | dvar t =>
      have ht : t ∈ (Dty.dvar t).refs := by simp [Dty.refs]
      have hlt : t < st.size := hd.refs t ht
      refine ⟨t, ht, ?_⟩
      rw [occurCheck, Store.view] at h
      cases hcell' : st.cell t with
      | dval e =>
        rw [hcell'] at h
        obtain ⟨s, hs, hreach⟩ := ih e (hst.ok t hlt e hcell') h
        exact hreach.tail ⟨hlt, e, hcell', hs⟩
      | dind j =>
        rw [hcell'] at h
        by_cases hij : i = j
        · subst hij
          rw [hst.inj r hr t hlt i hcell hcell']
        · simp [hij] at h
    | dapp ts dl =>
      obtain ⟨e, he, h⟩ := Checks.forM_eq_error h
      obtain ⟨s, hs, hreach⟩ := ih e (hd.of_mem he) h
      refine ⟨s, ?_, hreach⟩
      rw [Dty.refs]
      exact Dty.mem_refsList.mpr ⟨e, he, hs⟩
    | duty ty => cases h

theorem occurCheck_ne_invalid (n : ℕ) :
    ∀ d : Dty, occurCheck n st i d ≠ .error .invalidArgument := by
  induction n with
  | zero =>
    intro d h
    cases h
  | succ n ih =>
    intro d h
    rw [occurCheck] at h
    split at h
    · exact ih _ h
    · split_ifs at h
      cases h
    · obtain ⟨e, -, h⟩ := Checks.forM_eq_error h
      exact ih e h
    · cases h

end Occurs

/-! ## Solving equations -/

/-- What a unification may return for the equations `E`: a store whose values are the
solutions of `E` among those of `st`, or `Exit` when there is no solution. -/
structure Solves (st : Store) (E : (ℕ → RTy) → Prop) (res : Except UnifyError Store) : Prop where
  ok : ∀ st', res = .ok st' → st'.Wf ∧ st.Step st' ∧ ∀ σ, st'.Models σ ↔ st.Models σ ∧ E σ
  exit : res = .error .exit → ∀ σ, st.Models σ → ¬ E σ
  valid : res ≠ .error .invalidArgument

section Solves

variable {st : Store} {E E' : (ℕ → RTy) → Prop} {res : Except UnifyError Store} {r i : ℕ} {d : Dty}

theorem Solves.congr (h : Solves st E res) (hE : ∀ σ, st.Models σ → (E σ ↔ E' σ)) :
    Solves st E' res := by
  refine ⟨fun st' hst' => ?_, fun hexit σ hσ => ?_, h.valid⟩
  · obtain ⟨hwf, hstep, hiff⟩ := h.ok st' hst'
    refine ⟨hwf, hstep, fun σ => (hiff σ).trans ?_⟩
    exact and_congr_right fun hσ => hE σ hσ
  · rw [← hE σ hσ]
    exact h.exit hexit σ hσ

theorem solves_self (hst : st.Wf) (hE : ∀ σ, st.Models σ → E σ) : Solves st E (.ok st) := by
  refine ⟨fun st' hst' => ?_, (by rintro ⟨⟩), (by rintro ⟨⟩)⟩
  cases hst'
  refine ⟨hst, Store.Step.refl st, fun σ => ?_⟩
  exact ⟨fun h => ⟨h, hE σ h⟩, And.left⟩

theorem solves_exit (hE : ∀ σ, st.Models σ → ¬ E σ) : Solves st E (.error .exit) :=
  ⟨(by rintro _ ⟨⟩), fun _ => hE, (by rintro ⟨⟩)⟩

theorem solves_outOfFuel : Solves st E (.error .outOfFuel) :=
  ⟨(by rintro _ ⟨⟩), (by rintro ⟨⟩), (by rintro ⟨⟩)⟩

/-- A unification, and another one in the store that it leaves. -/
theorem Solves.bind {f : Store → Except UnifyError Store} (h : Solves st E res)
    (hf : ∀ st', st'.Wf → st'.size = st.size → Solves st' E' (f st')) :
    Solves st (fun σ => E σ ∧ E' σ) (res >>= f) := by
  cases res with
  | error e =>
    refine ⟨(by rintro _ ⟨⟩), fun hexit σ hσ hE => ?_, fun hinv => h.valid hinv⟩
    exact h.exit hexit σ hσ hE.1
  | ok st' =>
    obtain ⟨hwf, hstep, hiff⟩ := h.ok st' rfl
    have h' := hf st' hwf hstep.size
    refine ⟨fun st'' hst'' => ?_, fun hexit σ hσ hE => ?_, h'.valid⟩
    · obtain ⟨hwf', hstep', hiff'⟩ := h'.ok st'' hst''
      refine ⟨hwf', hstep.trans hstep', fun σ => ?_⟩
      rw [hiff', hiff, and_assoc]
    · exact h'.exit hexit σ ((hiff σ).mpr ⟨hσ, hE.1⟩) hE.2

theorem solves_set (hst : st.Wf) (hr : r < st.size) (hcell : st.cell r = .dind i)
    (hd : d.Ok st.size) (hocc : ∀ s ∈ d.refs, ¬ ReflTransGen st.Linked r s) :
    Solves st (fun σ => σ r = d.eval σ) (.ok (st.set r d)) := by
  refine ⟨fun st' hst' => ?_, (by rintro ⟨⟩), (by rintro ⟨⟩)⟩
  cases hst'
  exact ⟨hst.set hr hcell hd hocc, Store.step_set hr hcell, Store.models_set hr hcell⟩

/-- The occurs check refuses only types that no value of the variable can equal: it is
not called for the variable itself. -/
theorem solves_assign (hst : st.Wf) (hr : r < st.size) (hcell : st.cell r = .dind i)
    (hd : d.Ok st.size) (hval : ∀ e, st.view d ≠ .val e) (hind : ∀ s, st.view d ≠ .ind s i) (n : ℕ) :
    Solves st (fun σ => σ r = d.eval σ) (do
      occurCheck n st i d
      .ok (st.set r d)) := by
  cases hcheck : occurCheck n st i d with
  | ok u =>
    cases u
    exact solves_set hst hr hcell hd (occurCheck_ok hst hr hcell n d hd hcheck)
  | error e =>
    cases e with
    | outOfFuel => exact solves_outOfFuel
    | invalidArgument => exact absurd hcheck (occurCheck_ne_invalid n d)
    | exit =>
      apply solves_exit
      intro σ hσ heq
      obtain ⟨s, hs, hreach⟩ := occurCheck_exit hst hr hcell n d hd hcheck
      cases d with
      | dvar t =>
        -- an unknown other than `r`
        obtain rfl : s = t := by simpa [Dty.refs] using hs
        rcases ReflTransGen.cases_tail hreach with rfl | ⟨u, -, -, e, he, -⟩
        · exact hind s (by rw [Store.view, hcell])
        · exact hval e (by rw [Store.view, he])
      | duty ty => cases hs
      | dapp ts dl =>
        have hle := hσ.sizeOf_le hreach
        have hlt := Dty.sizeOf_lt (σ := σ) hs
        rw [heq] at hle
        omega

theorem iter2_solves {α β : Type} {f : Store → α → β → Except UnifyError Store}
    {E : α → β → (ℕ → RTy) → Prop} {l : List α} :
    ∀ {m : List β} {st : Store}, l.length = m.length → st.Wf →
      (∀ a ∈ l, ∀ b ∈ m, ∀ st', st'.Wf → st'.size = st.size → Solves st' (E a b) (f st' a b)) →
      Solves st (fun σ => List.Forall₂ (fun a b => E a b σ) l m) (iter2 f st l m) := by
  induction l with
  | nil =>
    intro m st hlen hst _
    cases m with
    | nil => exact solves_self hst fun σ _ => .nil
    | cons b m => cases hlen
  | cons a l ih =>
    intro m st hlen hst hf
    cases m with
    | nil => cases hlen
    | cons b m =>
      have hhead := hf a mem_cons_self b mem_cons_self st hst rfl
      have hrest : ∀ st', st'.Wf → st'.size = st.size →
          Solves st' (fun σ => List.Forall₂ (fun a b => E a b σ) l m) (iter2 f st' l m) := by
        intro st' hst' hsize
        apply ih (by simpa using hlen) hst'
        intro c hc e he st'' hst'' hsize'
        exact hf c (mem_cons_of_mem _ hc) e (mem_cons_of_mem _ he) st'' hst''
          (hsize'.trans hsize)
      exact (hhead.bind hrest).congr fun σ _ => by rw [List.forall₂_cons]

end Solves

section Unify

variable {st : Store} {d d1 d2 : Dty} {r i : ℕ}

/-- What a type denotes, and where its variables are, by what the patterns see of it. -/
theorem view_val (hst : st.Wf) (hd : d.Ok st.size) {e : Dty} (h : st.view d = .val e) :
    e.Ok st.size ∧ ∀ σ, st.Models σ → d.eval σ = e.eval σ := by
  cases d with
  | dvar r =>
    have hr : r < st.size := hd.refs r (by simp [Dty.refs])
    rw [Store.view] at h
    cases hcell : st.cell r with
    | dind i =>
      rw [hcell] at h
      cases h
    | dval e' =>
      rw [hcell] at h
      cases h
      exact ⟨hst.ok r hr _ hcell, fun σ hσ => hσ r hr _ hcell⟩
  | dapp ts dl => cases h
  | duty ty => cases h

theorem view_ind (hd : d.Ok st.size) (h : st.view d = .ind r i) :
    d = .dvar r ∧ r < st.size ∧ st.cell r = .dind i := by
  cases d with
  | dvar s =>
    rw [Store.view] at h
    cases hcell : st.cell s with
    | dval e =>
      rw [hcell] at h
      cases h
    | dind j =>
      rw [hcell] at h
      cases h
      exact ⟨rfl, hd.refs r (by simp [Dty.refs]), hcell⟩
  | dapp ts dl => cases h
  | duty ty => cases h

theorem view_app (h : st.view d = .app ts dl) : d = .dapp ts dl := by
  cases d with
  | dvar r =>
    rw [Store.view] at h
    split at h <;> cases h
  | dapp ts' dl' =>
    cases h
    rfl
  | duty ty => cases h

theorem view_ty {ty : Ty} (h : st.view d = .ty ty) : d = .duty ty := by
  cases d with
  | dvar r =>
    rw [Store.view] at h
    split at h <;> cases h
  | dapp ts dl => cases h
  | duty ty' =>
    cases h
    rfl

theorem dtyMatch_solves (n : ℕ) : ∀ {st : Store} {d : Dty} {ty : Ty}, st.Wf → d.Ok st.size →
    ty.Wf → Solves st (fun σ => d.eval σ = .ofTy ty) (dtyMatch n st d ty) := by
  induction n with
  | zero =>
    intro st d ty _ _ _
    exact solves_outOfFuel
  | succ n ih =>
    intro st d ty hst hd hty
    unfold dtyMatch
    cases hview : st.view d with
    | val e =>
      obtain ⟨he, heval⟩ := view_val hst hd hview
      exact (ih hst he hty).congr fun σ hσ => by rw [heval σ hσ]
    | ind r i =>
      obtain ⟨rfl, hr, hcell⟩ := view_ind hd hview
      have hok : (Dty.duty ty).Ok st.size := ⟨(by intro s hs; cases hs), hty⟩
      exact solves_set hst hr hcell hok (by intro s hs; cases hs)
    | ty ty1 =>
      obtain rfl := view_ty hview
      dsimp only
      split_ifs with heq
      · exact solves_self hst fun σ _ => by rw [heq, Dty.eval]
      · exact solves_exit fun σ _ h => heq (RTy.ofTy_injective h)
    | app ts1 dl =>
      obtain rfl := view_app hview
      cases ty with
      | tyvar v => exact solves_exit fun σ _ h => by cases h
      | tyapp ts2 tl =>
        dsimp only
        split_ifs with hts
        · subst hts
          obtain ⟨hlen, htl⟩ := hty.tyapp
          have hiter := iter2_solves (E := fun d ty σ => d.eval σ = .ofTy ty)
            (hd.arity.1.trans hlen.symm) hst fun e he u hu st' hst' hsize =>
              ih hst' (hsize ▸ hd.of_mem he) (htl u hu)
          refine hiter.congr fun σ _ => ?_
          rw [Dty.eval, RTy.ofTy, Dty.evalList_eq, RTy.ofTyList_eq, RTy.app.injEq,
            ← List.forall₂_eq_eq_eq, List.forall₂_map_left_iff, List.forall₂_map_right_iff]
          simp
        · refine solves_exit fun σ _ h => hts ?_
          rw [Dty.eval, RTy.ofTy, RTy.app.injEq] at h
          exact h.1

theorem dtyUnify_solves (n : ℕ) : ∀ {st : Store} {d1 d2 : Dty}, st.Wf → d1.Ok st.size →
    d2.Ok st.size → Solves st (fun σ => d1.eval σ = d2.eval σ) (dtyUnify n st d1 d2) := by
  induction n with
  | zero =>
    intro st d1 d2 _ _ _
    exact solves_outOfFuel
  | succ n ih =>
    intro st d1 d2 hst h1 h2
    unfold dtyUnify
    have hsymm : ∀ {res}, Solves st (fun σ => d2.eval σ = d1.eval σ) res →
        Solves st (fun σ => d1.eval σ = d2.eval σ) res :=
      fun h => h.congr fun σ _ => eq_comm
    have hright : ∀ e, st.view d2 = .val e →
        Solves st (fun σ => d1.eval σ = d2.eval σ) (dtyUnify n st d1 e) := by
      intro e hview
      obtain ⟨he, heval⟩ := view_val hst h2 hview
      exact (ih hst h1 he).congr fun σ hσ => by rw [heval σ hσ]
    cases hv1 : st.view d1 with
    | val e1 =>
      obtain ⟨he, heval⟩ := view_val hst h1 hv1
      exact (ih hst he h2).congr fun σ hσ => by rw [heval σ hσ]
    | ind r i =>
      obtain ⟨rfl, hr, hcell⟩ := view_ind h1 hv1
      cases hv2 : st.view d2 with
      | val e2 => exact hright e2 hv2
      | ind s j =>
        dsimp only
        split_ifs with hij
        · subst hij
          obtain ⟨rfl, hs, hcell'⟩ := view_ind h2 hv2
          obtain rfl := hst.inj r hr s hs i hcell hcell'
          exact solves_self hst fun σ _ => rfl
        · exact solves_assign hst hr hcell h2 (by rw [hv2]; nofun)
            (by rw [hv2]; intro t h; cases h; exact hij rfl) n
      | app ts dl | ty ty =>
        exact solves_assign hst hr hcell h2 (by rw [hv2]; nofun) (by rw [hv2]; nofun) n
    | app ts1 dl1 =>
      cases hv2 : st.view d2 with
      | val e2 => exact hright e2 hv2
      | ind r i =>
        obtain ⟨rfl, hr, hcell⟩ := view_ind h2 hv2
        exact hsymm (solves_assign hst hr hcell h1 (by rw [hv1]; nofun)
          (by rw [hv1]; nofun) n)
      | ty ty =>
        obtain rfl := view_ty hv2
        exact dtyMatch_solves n hst h1 h2.arity
      | app ts2 dl2 =>
        obtain rfl := view_app hv1
        obtain rfl := view_app hv2
        dsimp only
        split_ifs with hts
        · subst hts
          have hiter := iter2_solves (E := fun d1 d2 σ => d1.eval σ = d2.eval σ)
            (h1.arity.1.trans h2.arity.1.symm) hst fun e he u hu st' hst' hsize =>
              ih hst' (hsize ▸ h1.of_mem he) (hsize ▸ h2.of_mem hu)
          refine hiter.congr fun σ _ => ?_
          rw [Dty.eval, Dty.eval, Dty.evalList_eq, Dty.evalList_eq, RTy.app.injEq,
            ← List.forall₂_eq_eq_eq, List.forall₂_map_left_iff, List.forall₂_map_right_iff]
          simp
        · refine solves_exit fun σ _ h => hts ?_
          rw [Dty.eval, Dty.eval, RTy.app.injEq] at h
          exact h.1
    | ty ty1 =>
      obtain rfl := view_ty hv1
      cases hv2 : st.view d2 with
      | val e2 => exact hright e2 hv2
      | ind r i =>
        obtain ⟨rfl, hr, hcell⟩ := view_ind h2 hv2
        exact hsymm (solves_assign hst hr hcell h1 (by rw [hv1]; nofun)
          (by rw [hv1]; nofun) n)
      | ty ty =>
        obtain rfl := view_ty hv2
        exact dtyMatch_solves n hst h1 h2.arity
      | app ts dl =>
        exact hsymm (dtyMatch_solves n hst h2 h1.arity)

end Unify

/-! ## Termination -/

section Fuel

variable {st : Store} {i : ℕ}

theorem occurCheck_mono (n : ℕ) : ∀ {d : Dty}, occurCheck n st i d ≠ .error .outOfFuel →
    occurCheck (n + 1) st i d = occurCheck n st i d := by
  induction n with
  | zero =>
    intro d h
    exact absurd rfl h
  | succ n ih =>
    intro d h
    unfold occurCheck at h ⊢
    cases hview : st.view d with
    | val e =>
      rw [hview] at h
      exact ih h
    | ind s j => rfl
    | ty ty => rfl
    | app ts dl =>
      rw [hview] at h
      clear hview
      -- up to the first application that raises, all of them have enough fuel
      revert h
      dsimp only
      induction dl with
      | nil => exact fun _ => rfl
      | cons e dl ihl =>
        intro h
        rw [forM_cons] at h
        rw [forM_cons, forM_cons]
        cases he : occurCheck n st i e with
        | error err =>
          rw [he] at h
          rw [ih (by rw [he]; exact h), he]
          rfl
        | ok u =>
          rw [he] at h
          rw [ih (by rw [he]; nofun), he]
          exact ihl h

theorem iter2_mono {α β : Type} {f g : Store → α → β → Except UnifyError Store}
    (hfg : ∀ st a b, f st a b ≠ .error .outOfFuel → g st a b = f st a b) {l : List α} :
    ∀ {m : List β} {st : Store}, iter2 f st l m ≠ .error .outOfFuel →
      iter2 g st l m = iter2 f st l m := by
  induction l with
  | nil =>
    intro m st _
    cases m <;> rfl
  | cons a l ih =>
    intro m st h
    cases m with
    | nil => rfl
    | cons b m =>
      rw [iter2] at h
      rw [iter2, iter2]
      cases hf : f st a b with
      | error err =>
        rw [hf] at h
        rw [hfg st a b (by rw [hf]; exact h), hf]
        rfl
      | ok st' =>
        rw [hf] at h
        rw [hfg st a b (by rw [hf]; nofun), hf]
        exact ih h

theorem dtyMatch_mono (n : ℕ) : ∀ {st : Store} {d : Dty} {ty : Ty},
    dtyMatch n st d ty ≠ .error .outOfFuel → dtyMatch (n + 1) st d ty = dtyMatch n st d ty := by
  induction n with
  | zero =>
    intro st d ty h
    exact absurd rfl h
  | succ n ih =>
    intro st d ty h
    unfold dtyMatch at h ⊢
    cases hview : st.view d with
    | val e =>
      rw [hview] at h
      exact ih h
    | ind r i => rfl
    | ty ty1 => rfl
    | app ts1 dl =>
      cases ty with
      | tyvar v => rfl
      | tyapp ts2 tl =>
        rw [hview] at h
        dsimp only at h ⊢
        split_ifs with hts
        · rw [if_pos hts] at h
          exact iter2_mono (fun st a b => ih) h
        · rfl

theorem assign_mono {n : ℕ} {d : Dty} {st' : Store} (h : (do
      occurCheck n st i d
      Except.ok st') ≠ .error .outOfFuel) : (do
      occurCheck (n + 1) st i d
      Except.ok st') = (do
      occurCheck n st i d
      Except.ok st') := by
  rw [occurCheck_mono n fun hfuel => h (by rw [hfuel]; rfl)]

theorem dtyUnify_mono (n : ℕ) : ∀ {st : Store} {d1 d2 : Dty},
    dtyUnify n st d1 d2 ≠ .error .outOfFuel → dtyUnify (n + 1) st d1 d2 = dtyUnify n st d1 d2 := by
  induction n with
  | zero =>
    intro st d1 d2 h
    exact absurd rfl h
  | succ n ih =>
    intro st d1 d2 h
    unfold dtyUnify at h ⊢
    cases hv1 : st.view d1 with
    | val e1 =>
      rw [hv1] at h
      exact ih h
    | ind r i =>
      rw [hv1] at h
      cases hv2 : st.view d2 with
      | val e2 =>
        rw [hv2] at h
        exact ih h
      | ind s j =>
        rw [hv2] at h
        dsimp only at h ⊢
        split_ifs with hij
        · rfl
        · rw [if_neg hij] at h
          exact assign_mono h
      | app ts dl | ty ty =>
        rw [hv2] at h
        exact assign_mono h
    | app ts1 dl1 =>
      rw [hv1] at h
      cases hv2 : st.view d2 with
      | val e2 =>
        rw [hv2] at h
        exact ih h
      | ind s j =>
        rw [hv2] at h
        exact assign_mono h
      | ty ty =>
        rw [hv2] at h
        exact dtyMatch_mono n h
      | app ts2 dl2 =>
        rw [hv2] at h
        dsimp only at h ⊢
        split_ifs with hts
        · rw [if_pos hts] at h
          exact iter2_mono (fun st a b => ih) h
        · rfl
    | ty ty1 =>
      rw [hv1] at h
      cases hv2 : st.view d2 with
      | val e2 =>
        rw [hv2] at h
        exact ih h
      | ind s j =>
        rw [hv2] at h
        exact assign_mono h
      | ty ty | app ts dl =>
        rw [hv2] at h
        exact dtyMatch_mono n h

end Fuel

mutual
/-- The number of nodes of a type when a variable counts as `w` says. -/
def Dty.weight (w : ℕ → ℕ) : Dty → ℕ
  | .dvar r => w r
  | .dapp _ dl => 1 + weightList w dl
  | .duty _ => 1
def Dty.weightList (w : ℕ → ℕ) : List Dty → ℕ
  | [] => 0
  | d :: dl => d.weight w + weightList w dl
end

attribute [grind =] Dty.weight Dty.weightList

theorem Dty.weight_le {w : ℕ → ℕ} {d : Dty} (hd : d ∈ dl) : d.weight w ≤ weightList w dl := by
  induction dl with
  | nil => cases hd
  | cons e dl ih =>
    rw [weightList]
    rcases mem_cons.mp hd with rfl | hd
    · omega
    · have := ih hd
      omega

theorem Dty.weight_congr {w w' : ℕ → ℕ} {d : Dty} (h : ∀ r ∈ d.refs, w r = w' r) :
    d.weight w = d.weight w' := by
  have hlist : ∀ dl : List Dty, (∀ d ∈ dl, d.weight w = d.weight w') →
      weightList w dl = weightList w' dl := by
    intro dl hdl
    induction dl with
    | nil => rfl
    | cons d dl ih =>
      rw [weightList, weightList, hdl d mem_cons_self,
        ih fun e he => hdl e (mem_cons_of_mem _ he)]
  induction d with
  | dvar r => exact h r (by simp [refs])
  | duty ty => rfl
  | dapp ts dl ih =>
    rw [weight, weight, hlist dl fun d hd => ih d hd fun r hr => h r ?_]
    rw [refs]
    exact mem_refsList.mpr ⟨d, hd, hr⟩

namespace Store

/-- A variable counts more than the type that is assigned to it. -/
def Weighs (st : Store) (w : ℕ → ℕ) : Prop :=
  ∀ r < st.size, (∀ d, st.cell r = .dval d → d.weight w < w r) ∧ 0 < w r

theorem Wf.exists_weight {st : Store} (hst : st.Wf) : ∃ w, st.Weighs w := by
  obtain ⟨w, hw⟩ := Links.exists_solution (β := ℕ) hst.wellFounded
    (F := fun r w => match st.cell r with
      | .dval d => if r < st.size then 1 + d.weight w else 1
      | .dind _ => 1) (by
    intro r w w' h
    cases hcell : st.cell r with
    | dind i => rfl
    | dval d =>
        dsimp only
        split_ifs with hlt
        · rw [Dty.weight_congr fun s hs => h s ⟨hlt, d, hcell, hs⟩]
        · rfl)
  refine ⟨w, fun r hlt => ?_⟩
  have hr := hw r
  constructor
  · intro d hd
    rw [hd] at hr
    dsimp only at hr
    rw [if_pos hlt] at hr
    omega
  · cases hcell : st.cell r with
    | dind i =>
      rw [hcell] at hr
      dsimp only at hr
      omega
    | dval d =>
      rw [hcell] at hr
      dsimp only at hr
      rw [if_pos hlt] at hr
      omega

end Store

section Halts

variable {st : Store} {w : ℕ → ℕ} {d e : Dty}

theorem weight_pos (hw : st.Weighs w) (hd : d.Ok st.size) : 0 < d.weight w := by
  cases d with
  | dvar r => exact (hw r (hd.refs r (by simp [Dty.refs]))).2
  | dapp ts dl =>
    rw [Dty.weight]
    omega
  | duty ty => exact Nat.one_pos

theorem view_weight (hw : st.Weighs w) (hd : d.Ok st.size) (h : st.view d = .val e) :
    e.weight w < d.weight w := by
  cases d with
  | dvar r =>
    rw [Store.view] at h
    cases hcell : st.cell r with
    | dind i =>
      rw [hcell] at h
      cases h
    | dval e' =>
      rw [hcell] at h
      cases h
      exact (hw r (hd.refs r (by simp [Dty.refs]))).1 _ hcell
  | dapp ts dl => cases h
  | duty ty => cases h

theorem occurCheck_halts (hst : st.Wf) (hw : st.Weighs w) {i : ℕ} (n : ℕ) :
    ∀ {d : Dty}, d.Ok st.size → d.weight w ≤ n → occurCheck n st i d ≠ .error .outOfFuel := by
  induction n with
  | zero =>
    intro d hd hle
    have := weight_pos hw hd
    omega
  | succ n ih =>
    intro d hd hle
    unfold occurCheck
    cases hview : st.view d with
    | val e =>
      have hlt := view_weight hw hd hview
      exact ih (view_val hst hd hview).1 (by omega)
    | ind s j =>
      dsimp only
      split_ifs <;> nofun
    | ty ty => nofun
    | app ts dl =>
      obtain rfl := view_app hview
      intro h
      obtain ⟨e, he, h⟩ := Checks.forM_eq_error h
      have hle' := Dty.weight_le (w := w) he
      rw [Dty.weight] at hle
      exact ih (hd.of_mem he) (by omega) h

/-- A loop halts when each of its calls does, in the store of its start and in every one
with fewer unknowns. -/
theorem iter2_halts {α β : Type} {f : ℕ → Store → α → β → Except UnifyError Store}
    (hmono : ∀ n st a b, f n st a b ≠ .error .outOfFuel → f (n + 1) st a b = f n st a b)
    {l : List α} : ∀ {m : List β} {st' : Store}, st'.Wf → st.Step st' →
    (∀ a ∈ l, ∀ b ∈ m, ∀ n st' st'', st'.Wf → st'.size = st.size → f n st' a b = .ok st'' →
      st''.Wf ∧ st'.Step st'') →
    (∀ a ∈ l, ∀ b ∈ m, ∀ st', st'.Wf → st.Step st' → ∃ n, f n st' a b ≠ .error .outOfFuel) →
    ∃ n, iter2 (f n) st' l m ≠ .error .outOfFuel := by
  have hmono' : ∀ n k st a b, f n st a b ≠ .error .outOfFuel → f (n + k) st a b = f n st a b := by
    intro n k st a b h
    induction k with
    | zero => rfl
    | succ k ih =>
      rw [← ih]
      exact hmono (n + k) st a b (by rw [ih]; exact h)
  induction l with
  | nil =>
    intro m st' _ _ _ _
    refine ⟨0, ?_⟩
    cases m <;> nofun
  | cons a l ih =>
    intro m st' hwf hstep hkeep hhalt
    cases m with
    | nil => exact ⟨0, nofun⟩
    | cons b m =>
      obtain ⟨n, hn⟩ := hhalt a mem_cons_self b mem_cons_self st' hwf hstep
      cases hf : f n st' a b with
      | error err =>
        refine ⟨n, ?_⟩
        rw [hf] at hn
        rw [iter2, hf]
        exact hn
      | ok st'' =>
        obtain ⟨hwf'', hstep''⟩ := hkeep a mem_cons_self b mem_cons_self n st' st''
          hwf hstep.size hf
        obtain ⟨k, hk⟩ := ih hwf'' (hstep.trans hstep'')
          (fun c hc e he => hkeep c (mem_cons_of_mem _ hc) e (mem_cons_of_mem _ he))
          (fun c hc e he => hhalt c (mem_cons_of_mem _ hc) e (mem_cons_of_mem _ he))
        refine ⟨n + k, ?_⟩
        have hrest : iter2 (f (k + n)) st'' l m = iter2 (f k) st'' l m :=
          iter2_mono (fun st a b h => hmono' k n st a b h) hk
        rw [iter2, hmono' n k st' a b hn, hf, Nat.add_comm n k]
        show iter2 (f (k + n)) st'' l m ≠ _
        rw [hrest]
        exact hk

/-- Matching ends: a step follows a link or enters the arguments, and the next argument is
met in the same store or in one with fewer unknowns. -/
theorem dtyMatch_halts (k : ℕ) : ∀ {st : Store}, st.Wf → st.unbound = k → ∀ {w : ℕ → ℕ},
    st.Weighs w → ∀ (W : ℕ) {d : Dty} {ty : Ty}, d.Ok st.size → ty.Wf → d.weight w = W →
    ∃ n, dtyMatch n st d ty ≠ .error .outOfFuel := by
  induction k using Nat.strong_induction_on with
  | _ k ihk =>
    intro st hst hk w hw W
    induction W using Nat.strong_induction_on with
    | _ W ihW =>
      intro d ty hd hty hW
      cases hview : st.view d with
      | val e =>
        have hlt := view_weight hw hd hview
        obtain ⟨n, hn⟩ := ihW _ (by omega) (view_val hst hd hview).1 hty rfl
        refine ⟨n + 1, ?_⟩
        unfold dtyMatch
        rw [hview]
        exact hn
      | ind r i =>
        refine ⟨1, ?_⟩
        unfold dtyMatch
        rw [hview]
        nofun
      | ty ty1 =>
        refine ⟨1, ?_⟩
        unfold dtyMatch
        rw [hview]
        dsimp only
        split_ifs <;> nofun
      | app ts1 dl =>
        obtain rfl := view_app hview
        cases ty with
        | tyvar v => exact ⟨1, nofun⟩
        | tyapp ts2 tl =>
          have hiter := @iter2_halts st Dty Ty dtyMatch (fun n _ _ _ => dtyMatch_mono n) dl tl
            st hst (Store.Step.refl st) (fun a ha b hb n st' st'' hst' hsize h => by
              have hok : a.Ok st'.size := hsize ▸ hd.of_mem ha
              have hsolves := @dtyMatch_solves n st' a b hst' hok (hty.tyapp.2 b hb)
              obtain ⟨hwf, hstep, -⟩ := hsolves.ok st'' h
              exact ⟨hwf, hstep⟩) (fun a ha b hb st' hst' hstep => by
              have hok : a.Ok st'.size := hstep.size ▸ hd.of_mem ha
              rcases hstep.unbound with rfl | hlt
              · have hle := Dty.weight_le (w := w) ha
                rw [Dty.weight] at hW
                exact ihW (a.weight w) (by omega) hok (hty.tyapp.2 b hb) rfl
              · obtain ⟨w', hw'⟩ := hst'.exists_weight
                exact ihk _ (hk ▸ hlt) hst' rfl hw' _ hok (hty.tyapp.2 b hb) rfl)
          obtain ⟨n, hn⟩ := hiter
          refine ⟨n + 1, ?_⟩
          unfold dtyMatch
          rw [hview]
          dsimp only
          split_ifs
          · exact hn
          · nofun

theorem assign_halts (hst : st.Wf) (hw : st.Weighs w) (hd : d.Ok st.size) (i : ℕ) (st' : Store) :
    ∃ n, (do
      occurCheck n st i d
      Except.ok st') ≠ .error .outOfFuel := by
  refine ⟨d.weight w, fun h => ?_⟩
  have hhalt := occurCheck_halts hst hw (i := i) (d.weight w) hd le_rfl
  cases hcheck : occurCheck (d.weight w) st i d with
  | ok u =>
    rw [hcheck] at h
    cases h
  | error e =>
    rw [hcheck] at h hhalt
    cases h
    exact hhalt rfl

theorem dtyUnify_halts (k : ℕ) : ∀ {st : Store}, st.Wf → st.unbound = k → ∀ {w : ℕ → ℕ},
    st.Weighs w → ∀ (W : ℕ) {d1 d2 : Dty}, d1.Ok st.size → d2.Ok st.size →
    d1.weight w + d2.weight w = W → ∃ n, dtyUnify n st d1 d2 ≠ .error .outOfFuel := by
  induction k using Nat.strong_induction_on with
  | _ k ihk =>
    intro st hst hk w hw W
    induction W using Nat.strong_induction_on with
    | _ W ihW =>
      intro d1 d2 h1 h2 hW
      -- a link on either side
      have hleft : ∀ e, st.view d1 = .val e → ∃ n, dtyUnify n st e d2 ≠ .error .outOfFuel := by
        intro e hv
        have hlt := view_weight hw h1 hv
        exact ihW _ (by omega) (view_val hst h1 hv).1 h2 rfl
      have hright : ∀ e, st.view d2 = .val e → ∃ n, dtyUnify n st d1 e ≠ .error .outOfFuel := by
        intro e hv
        have hlt := view_weight hw h2 hv
        exact ihW _ (by omega) h1 (view_val hst h2 hv).1 rfl
      suffices h : ∃ n, dtyUnify (n + 1) st d1 d2 ≠ .error .outOfFuel by
        obtain ⟨n, hn⟩ := h
        exact ⟨n + 1, hn⟩
      unfold dtyUnify
      cases hv1 : st.view d1 with
      | val e1 => exact hleft e1 hv1
      | ind r i =>
        cases hv2 : st.view d2 with
        | val e2 => exact hright e2 hv2
        | ind s j =>
          dsimp only
          split_ifs with hij
          · exact ⟨0, nofun⟩
          · exact assign_halts hst hw h2 i _
        | app ts dl | ty ty => exact assign_halts hst hw h2 i _
      | app ts1 dl1 =>
        cases hv2 : st.view d2 with
        | val e2 => exact hright e2 hv2
        | ind s j => exact assign_halts hst hw h1 j _
        | ty ty =>
          obtain rfl := view_ty hv2
          exact dtyMatch_halts _ hst rfl hw _ h1 h2.arity rfl
        | app ts2 dl2 =>
          obtain rfl := view_app hv1
          obtain rfl := view_app hv2
          dsimp only
          split_ifs
          · exact @iter2_halts st Dty Dty dtyUnify (fun n _ _ _ => dtyUnify_mono n) dl1 dl2
              st hst (Store.Step.refl st) (fun a ha b hb n st' st'' hst' hsize h => by
                have hoka : a.Ok st'.size := hsize ▸ h1.of_mem ha
                have hokb : b.Ok st'.size := hsize ▸ h2.of_mem hb
                have hsolves := @dtyUnify_solves n st' a b hst' hoka hokb
                obtain ⟨hwf, hstep, -⟩ := hsolves.ok st'' h
                exact ⟨hwf, hstep⟩) (fun a ha b hb st' hst' hstep => by
                have hoka : a.Ok st'.size := hstep.size ▸ h1.of_mem ha
                have hokb : b.Ok st'.size := hstep.size ▸ h2.of_mem hb
                rcases hstep.unbound with rfl | hlt
                · have hlea := Dty.weight_le (w := w) ha
                  have hleb := Dty.weight_le (w := w) hb
                  rw [Dty.weight, Dty.weight] at hW
                  exact ihW (a.weight w + b.weight w) (by omega) hoka hokb rfl
                · obtain ⟨w', hw'⟩ := hst'.exists_weight
                  exact ihk _ (hk ▸ hlt) hst' rfl hw' _ hoka hokb rfl)
          · exact ⟨0, nofun⟩
      | ty ty1 =>
        obtain rfl := view_ty hv1
        cases hv2 : st.view d2 with
        | val e2 => exact hright e2 hv2
        | ind s j => exact assign_halts hst hw h1 j _
        | ty ty =>
          obtain rfl := view_ty hv2
          exact dtyMatch_halts _ hst rfl hw _ h1 h2.arity rfl
        | app ts dl => exact dtyMatch_halts _ hst rfl hw _ h2 h1.arity rfl

end Halts

/-! ## Most general unifiers -/

section Unifier

variable {st : Store} {d1 d2 : Dty}

/-- `dty_fresh` makes a variable that is in no type, and keeps the store well formed. -/
theorem wf_dtyFresh (hst : st.Wf) :
    (dtyFresh st).1.Wf ∧ (dtyFresh st).2.Ok (dtyFresh st).1.size := by
  have hcell : ∀ r < st.size, (dtyFresh st).1.cell r = st.cell r := by
    intro r hr
    exact update_of_ne hr.ne _ _
  have hnew : (dtyFresh st).1.cell st.size = .dind (st.next + 1) := update_self _ _ _
  have hsize : ∀ {r}, r < (dtyFresh st).1.size → r < st.size ∨ r = st.size := by
    intro r hr
    have hr' : r < st.size + 1 := hr
    omega
  have hold : ∀ {r d}, r < (dtyFresh st).1.size → (dtyFresh st).1.cell r = .dval d →
      r < st.size ∧ st.cell r = .dval d := by
    intro r d hr hd
    rcases hsize hr with hr | rfl
    · rw [hcell r hr] at hd
      exact ⟨hr, hd⟩
    · rw [hnew] at hd
      cases hd
  have hle : ∀ {r i}, r < st.size → st.cell r = .dind i → i ≠ st.next + 1 := by
    intro r i hr hi
    have := hst.le_next r hr i hi
    omega
  refine ⟨⟨fun r hr d hd => ?_, fun r hr s hs i hri hsi => ?_, fun r hr i hi => ?_, ?_⟩, ?_, ?_⟩
  · obtain ⟨hlt, hd⟩ := hold hr hd
    obtain ⟨hrefs, harity⟩ := hst.ok r hlt d hd
    exact ⟨fun s hs => (hrefs s hs).trans (Nat.lt_succ_self _), harity⟩
  · rcases hsize hr with hr | rfl
    · rw [hcell r hr] at hri
      rcases hsize hs with hs | rfl
      · rw [hcell s hs] at hsi
        exact hst.inj r hr s hs i hri hsi
      · rw [hnew] at hsi
        cases hsi
        exact absurd rfl (hle hr hri)
    · rw [hnew] at hri
      cases hri
      rcases hsize hs with hs | rfl
      · rw [hcell s hs] at hsi
        exact absurd rfl (hle hs hsi)
      · rfl
  · rcases hsize hr with hr | rfl
    · rw [hcell r hr] at hi
      exact (hst.le_next r hr i hi).trans (Nat.le_succ _)
    · rw [hnew] at hi
      cases hi
      exact le_rfl
  · have hlinks : ∀ a b, (dtyFresh st).1.Linked a b → st.Linked a b := by
      rintro a b ⟨hb, d, hd, ha⟩
      obtain ⟨hlt, hd⟩ := hold hb hd
      exact ⟨hlt, d, hd, ha⟩
    intro r hr
    exact hst.acyclic r (TransGen.mono hlinks r r hr)
  · intro r hr
    obtain rfl : r = st.size := by simpa [dtyFresh, Dty.refs] using hr
    exact Nat.lt_succ_self _
  · exact trivial

/-- Unification ends.  The store it returns keeps the assignments made so far, has no
variable in the type assigned to it, and makes the two types equal; all values that extend
the assignments made so far and make the types equal are instances of the values that the
new assignments give.  It raises `Exit` only when no such values exist. -/
theorem dty_unify_mgu (hst : st.Wf) (h1 : d1.Ok st.size) (h2 : d2.Ok st.size) :
    ∃ n, (∀ k, dtyUnify (n + k) st d1 d2 = dtyUnify n st d1 d2) ∧
      ((∃ st', dtyUnify n st d1 d2 = .ok st' ∧ st'.Wf ∧ st'.size = st.size ∧
          (∀ r d, st.cell r = .dval d → st'.cell r = .dval d) ∧ Links.Acyclic st'.Linked ∧
          ∃ ρ, st'.Assigns ρ ∧ d1.eval ρ = d2.eval ρ ∧
            ∀ σ, st.Models σ → d1.eval σ = d2.eval σ →
              ∃ τ, ∀ r < st.size, σ r = (ρ r).subst τ) ∨
        dtyUnify n st d1 d2 = .error .exit ∧
          ∀ σ, st.Models σ → d1.eval σ ≠ d2.eval σ) := by
  obtain ⟨w, hw⟩ := hst.exists_weight
  obtain ⟨n, hn⟩ := dtyUnify_halts _ hst rfl hw _ h1 h2 rfl
  refine ⟨n, fun k => ?_, ?_⟩
  · induction k with
    | zero => rfl
    | succ k ih =>
      rw [← ih]
      exact dtyUnify_mono (n + k) (by rw [ih]; exact hn)
  have hsolves := dtyUnify_solves n hst h1 h2
  cases hres : dtyUnify n st d1 d2 with
  | error e =>
    cases e with
    | outOfFuel => exact absurd hres hn
    | invalidArgument => exact absurd hres hsolves.valid
    | exit => exact .inr ⟨rfl, hsolves.exit hres⟩
  | ok st' =>
    obtain ⟨hwf, hstep, hiff⟩ := hsolves.ok st' hres
    obtain ⟨ρ, hρ⟩ := hwf.exists_assigns
    refine .inl ⟨st', rfl, hwf, hstep.size, hstep.kept, hwf.acyclic, ρ, hρ,
      ((hiff ρ).mp hρ.models).2, fun σ hσ heq => ?_⟩
    obtain ⟨τ, hτ⟩ := hρ.factors hwf ((hiff σ).mpr ⟨hσ, heq⟩)
    exact ⟨τ, fun r hr => hτ r (hstep.size ▸ hr)⟩

def emptyStore : Store := ⟨fun _ => .dind 0, 0, 0⟩

theorem wf_emptyStore : emptyStore.Wf := by
  refine ⟨fun r hr => ?_, fun r hr => ?_, fun r hr => ?_, fun r hr => ?_⟩
  · exact absurd hr (Nat.not_lt_zero r)
  · exact absurd hr (Nat.not_lt_zero r)
  · exact absurd hr (Nat.not_lt_zero r)
  · obtain ⟨s, -, hs, -⟩ := TransGen.tail'_iff.mp hr
    exact absurd hs (Nat.not_lt_zero r)

def tsOption : TySymbol := ⟨100, [⟨101⟩], .noDef⟩

def option (d : Dty) : Dty := .dapp tsOption [d]

theorem ok_option {n : ℕ} {d : Dty} (h : d.Ok n) : (option d).Ok n := by
  refine ⟨fun r hr => h.refs r ?_, rfl, h.arity, trivial⟩
  simpa [option, Dty.refs, Dty.refsList] using hr

theorem ok_dvar {n r : ℕ} (h : r < n) : (Dty.dvar r).Ok n := by
  refine ⟨fun s hs => ?_, trivial⟩
  obtain rfl : s = r := by simpa [Dty.refs] using hs
  exact h

/-- Three fresh variables, the first of them unified with an option of the second, and the
second with an option of the third. -/
def chain : Store :=
  (((dtyFresh (dtyFresh (dtyFresh emptyStore).1).1).1.set 0 (option (.dvar 1))).set 1
    (option (.dvar 2)))

theorem wf_chain : chain.Wf := by
  have h₀ := (wf_dtyFresh (wf_dtyFresh (wf_dtyFresh wf_emptyStore).1).1).1
  have h₁ := (dtyUnify_solves 3 h₀ (ok_dvar (r := 0) (by decide))
    (ok_option (ok_dvar (r := 1) (by decide)))).ok _ rfl
  exact ((dtyUnify_solves 3 h₁.1 (ok_dvar (r := 1) (by decide))
    (ok_option (ok_dvar (r := 2) (by decide)))).ok _ rfl).1

def chainInts : ℕ → RTy
  | 0 => (option (option (.duty tyInt))).eval fun _ => .ind 0
  | 1 => (option (.duty tyInt)).eval fun _ => .ind 0
  | _ => .ofTy tyInt

/-- Unification follows the links of the chain to its last variable. -/
theorem dty_unify_mgu_chain :
    ∃ n st' ρ, dtyUnify n chain (.dvar 0) (option (option (.duty tyInt))) = .ok st' ∧
      Links.Acyclic st'.Linked ∧ st'.cell 0 = .dval (option (.dvar 1)) ∧ st'.Assigns ρ ∧
      ρ 0 = (option (option (.duty tyInt))).eval ρ := by
  have hint : (Dty.duty tyInt).Ok chain.size := by
    refine ⟨nofun, fun s l h => ?_⟩
    obtain ⟨rfl, rfl⟩ : s = tsInt ∧ l = [] := by simpa [tyInt, Ty.subtypes] using h
    rfl
  obtain ⟨n, -, ⟨st', hst', -, -, hkept, hacyc, ρ, hρ, heq, -⟩ | ⟨-, hno⟩⟩ :=
    dty_unify_mgu wf_chain (ok_dvar (r := 0) (by decide)) (ok_option (ok_option hint))
  · exact ⟨n, st', ρ, hst', hacyc, hkept 0 _ rfl, hρ, heq⟩
  · -- the third variable may be an integer
    refine absurd rfl (hno chainInts fun r hr d hd => ?_)
    have hlt : r < 3 := hr
    interval_cases r <;> cases hd <;> rfl

end Unifier

end Dterm

end Why3
