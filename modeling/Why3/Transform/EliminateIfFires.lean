import Why3.Transform.EliminateIfClauses
import Why3.Transform.EliminateInductive

/-!
# What the clauses that are left say

Together they hold where the clause holds, and they conclude what it concludes: the formula
around a conclusion fails for a predicate that holds of all arguments but those concluded.
-/

namespace Why3

open List Interp

variable {vl : List VSymbol} {trl : List (List Term)} {f : Term} {tl : List Term}

namespace EliminateIf

open Term

variable {sig : TySymbol → List LSymbol} {n : ℕ} {m : Mvs}

/-! ## The clauses hold together -/

section Holds

variable {I : Interp sig}

theorem quant_forall_list {α : Type} {l : List α} {Q : α → I.Env → Prop} :
    ∀ {ρ : I.Env}, I.quant .tforall vl (fun ρ => ∀ c ∈ l, Q c ρ) ρ ↔
      ∀ c ∈ l, I.quant .tforall vl (Q c) ρ := by
  induction vl with
  | nil => exact .rfl
  | cons v vl ih =>
    intro ρ
    simp only [Interp.quant, ih]
    exact ⟨fun h c hc d hd => h d hd c hc, fun h d hd c hc => h c hc d hd⟩

theorem quant_exists_list {α : Type} {l : List α} {Q : α → I.Env → Prop} :
    ∀ {ρ : I.Env}, I.quant .texists vl (fun ρ => ∃ c ∈ l, Q c ρ) ρ ↔
      ∃ c ∈ l, I.quant .texists vl (Q c) ρ := by
  induction vl with
  | nil => exact .rfl
  | cons v vl ih =>
    intro ρ
    simp only [Interp.quant, ih]
    constructor
    · rintro ⟨d, hd, c, hc, h⟩
      exact ⟨c, hc, d, hd, h⟩
    · rintro ⟨c, hc, d, hd, h⟩
      exact ⟨d, hd, c, hc, h⟩

theorem holds_tQuant {q : Quant} {ρ : I.Env} :
    I.Holds ρ (tQuant q vl trl f) ↔ I.quant q vl (fun ρ => I.Holds ρ f) ρ := by
  rw [tQuant]
  split_ifs with hvl
  · subst hvl
    cases q <;> exact .rfl
  · rw [holds_tquant]

theorem holds_clause : ∀ {ρ : I.Env},
    I.Holds ρ f ↔ ∀ c ∈ clause f, I.Holds ρ c := by
  induction f with
  | tquant a q vl trl f _ ih =>
    intro ρ
    cases q with
    | tforall =>
      rw [clause, forall_mem_map, holds_tquant]
      simp only [holds_tQuant, ih, quant_forall_list]
    | texists => exact forall_mem_singleton.symm
  | tbinop a op g f _ ih =>
    intro ρ
    cases op with
    | timplies =>
      rw [clause, forall_mem_map, holds_tbinop]
      simp only [holds_tbinop, ih]
      exact ⟨fun h c hc hg => h hg c hc, fun h hg c hc => h c hc hg⟩
    | _ => exact forall_mem_singleton.symm
  | tlet a t v f _ ih =>
    intro ρ
    rw [clause, forall_mem_map, holds_tlet, ih]
    simp only [holds_tlet]
  | tif a f1 f2 f3 _ ih2 ih3 =>
    intro ρ
    rw [clause, forall_mem_append, forall_mem_map, forall_mem_map,
      holds_tif, ih2, ih3]
    simp only [holds_tbinop, holds_tnot]
    refine and_congr ?_ ?_
    · exact ⟨fun h c hc h1 => h h1 c hc, fun h h1 c hc => h c hc h1⟩
    · exact ⟨fun h c hc h1 => h h1 c hc, fun h h1 c hc => h c hc h1⟩
  | _ => exact forall_mem_singleton.symm

theorem holds_elimClause (heps : I.EpsExt) (hwt : f.Wt sig) (hty : f.tTy = none)
    (hclosed : f.freeVars = []) {ρ : I.Env} (hρ : I.Typed ρ) :
    (∀ c ∈ clause (eliminateIfTerm f), I.Holds ρ c) ↔ I.Holds ρ f := by
  rw [← holds_clause, eliminateIfTerm]
  have hok : Mvs.Ok sig (freshTag f.freeVars) [] f.freeVars := by simp [hclosed, Mvs.Ok]
  have h := (spec hwt).fmla Mvs.renames_nil hok hty
  exact h.holds heps hwt hok hty hρ (by simp [hclosed, Interp.Agree])

end Holds

/-! ## What the clauses conclude -/

section Fires

variable {I : Interp sig}

/-- Some clause of the formula concludes with the arguments. -/
def FiresSome (I : Interp sig) (f : Term) (ρ : I.Env) (dl : List I.Val) : Prop :=
  ∃ c ∈ clause f, I.Fires c ρ dl

theorem fires_tQuant {ρ : I.Env} {dl : List I.Val} : I.Fires (tQuant .tforall vl trl f) ρ dl ↔
      I.quant .texists vl (fun ρ => I.Fires f ρ dl) ρ := by
  rw [tQuant]
  split_ifs with hvl
  · subst hvl
    exact .rfl
  · rw [Fires]

variable {a : Sattr} {ρ : I.Env} {dl : List I.Val}

theorem firesSome_tquant : FiresSome I (.tquant a .tforall vl trl f) ρ dl ↔
      I.quant .texists vl (fun ρ => FiresSome I f ρ dl) ρ := by
  simp only [FiresSome, clause, mem_map, exists_exists_and_eq_and, fires_tQuant,
    quant_exists_list]

theorem firesSome_tbinop {g : Term} : FiresSome I (.tbinop a .timplies g f) ρ dl ↔
    I.Holds ρ g ∧ FiresSome I f ρ dl := by
  simp only [FiresSome, clause, mem_map, exists_exists_and_eq_and, Fires]
  constructor
  · rintro ⟨c, hc, hg, hf⟩
    exact ⟨hg, c, hc, hf⟩
  · rintro ⟨hg, c, hc, hf⟩
    exact ⟨c, hc, hg, hf⟩

theorem firesSome_tlet {t : Term} {v : VSymbol} : FiresSome I (.tlet a t v f) ρ dl ↔
    FiresSome I f (Function.update ρ v (I.eval ρ t)) dl := by
  simp only [FiresSome, clause, mem_map, exists_exists_and_eq_and, Fires]

theorem firesSome_tif {f1 f2 f3 : Term} : FiresSome I (.tif a f1 f2 f3) ρ dl ↔
    (I.Holds ρ f1 ∧ FiresSome I f2 ρ dl) ∨ (¬ I.Holds ρ f1 ∧ FiresSome I f3 ρ dl) := by
  simp only [FiresSome, clause, mem_append, mem_map, or_and_right, exists_or]
  refine or_congr ?_ ?_
  · simp only [exists_exists_and_eq_and, Fires]
    constructor
    · rintro ⟨c, hc, hg, hf⟩
      exact ⟨hg, c, hc, hf⟩
    · rintro ⟨hg, c, hc, hf⟩
      exact ⟨c, hc, hg, hf⟩
  · simp only [exists_exists_and_eq_and, Fires, holds_tnot]
    constructor
    · rintro ⟨c, hc, hg, hf⟩
      exact ⟨hg, c, hc, hf⟩
    · rintro ⟨hg, c, hc, hf⟩
      exact ⟨c, hc, hg, hf⟩

theorem firesSome_tapp {s : LSymbol} {ty : Option Ty} :
    FiresSome I (.tapp a s tl ty) ρ dl ↔ tl.map (I.eval ρ) = dl := by
  have h : FiresSome I (.tapp a s tl ty) ρ dl ↔
      ∃ c ∈ [Term.tapp a s tl ty], I.Fires c ρ dl := .rfl
  rw [h]
  simp only [mem_singleton, exists_eq_left, Fires]

end Fires

namespace Splitting

open EliminateInductive (fires_congr)

variable {M : PolyInterp sig} {sps : List LSymbol} {ps : LSymbol} {P : M.Preds}
  {τ : TvSymbol → M.U} {dl : List M.Val}

/-- The predicate `ps` holds of all arguments but `dl`. -/
def except (P : M.Preds) (ps : LSymbol) (dl : List M.Val) : M.Preds :=
  fun s us ds => if s = ps then ds ≠ dl else P s us ds

theorem sem_except (dl : List M.Val) (hps : ps ∈ sps) {t : Term} (ht : tPosPs sps t = none) (ρ : VSymbol → M.Val) :
    (M.inst (except P ps dl) τ).sem t ρ = (M.inst P τ).sem t ρ := by
  refine PolyInterp.sem_inst_congr (fun _ _ => rfl) (fun s hs => ?_) ρ
  have hne : s ≠ ps := by
    rintro rfl
    exact tPosPs_eq_none.mp ht s hps hs
  funext us ds
  rw [except, if_neg hne]

theorem eval_except (hps : ps ∈ sps) (htl : ∀ t ∈ tl, tPosPs sps t = none) (ρ : VSymbol → M.Val) :
    tl.map ((M.inst (except P ps dl) τ).eval ρ) = tl.map ((M.inst P τ).eval ρ) :=
  map_congr_left (fun t ht => congrArg Den.val (sem_except dl hps (htl t ht) ρ))

theorem holds_except_tapp (hps : ps ∈ sps) (hequ : psEqu ∉ sps) {a : Sattr} {ty : Option Ty}
    (htl : ∀ t ∈ tl, tPosPs sps t = none) (ρ : VSymbol → M.Val) :
    (M.inst (except P ps dl) τ).Holds ρ (.tapp a ps tl ty) ↔ tl.map ((M.inst P τ).eval ρ) ≠ dl := by
  have hne : ps ≠ psEqu := by
    rintro rfl
    exact hequ hps
  rw [holds_tapp (M.inst (except P ps dl) τ) ρ a hne, eval_except hps htl]
  show except P ps dl ps _ _ ↔ _
  rw [except, if_pos rfl]

/-- The formulas around a conclusion: it is not reached with the arguments `dl` exactly where
the formula holds of all other arguments. -/
theorem firesSome_around (hps : ps ∈ sps) (hequ : psEqu ∉ sps)
    (h : Around sps true (fun g => ∃ a tl ty, g = .tapp a ps tl ty ∧
      ∀ t ∈ tl, tPosPs sps t = none) f) : ∀ ρ : VSymbol → M.Val,
    FiresSome (M.inst P τ) f ρ dl ↔ ¬ (M.inst (except P ps dl) τ).Holds ρ f := by
  induction h with
  | leaf hf =>
    intro ρ
    obtain ⟨a, tl, ty, rfl, htl⟩ := hf
    rw [firesSome_tapp, holds_except_tapp hps hequ htl, not_not]
  | tif h1 _ _ ih2 ih3 =>
    intro ρ
    have hcond := iff_of_eq (congrArg Den.tr (sem_except (P := P) (τ := τ) dl hps h1 ρ))
    rw [firesSome_tif, holds_tif, ih2, ih3]
    rw [show (M.inst (except P ps dl) τ).Holds ρ _ ↔ (M.inst P τ).Holds ρ _ from hcond]
    tauto
  | tlet ht _ ih =>
    intro ρ
    have hval := congrArg Den.val (sem_except (P := P) (τ := τ) dl hps ht ρ)
    rw [firesSome_tlet, holds_tlet, ih]
    rw [show (M.inst (except P ps dl) τ).eval ρ _ = (M.inst P τ).eval ρ _ from hval]
  | tcase hfree _ _ _ => cases hfree

/-- The clauses that the elimination leaves conclude what the clause concludes. -/
theorem firesSome_elimF (hps : ps ∈ sps) (hequ : psEqu ∉ sps) :
    ∀ {n : ℕ} {m : Mvs} {a : Sattr} {tl : List Term} {ρ ρ₀ : VSymbol → M.Val}, f.Wt sig →
      IsClause sps ps f → conclusion f = .tapp a ps tl none → branchFreeList tl = true →
      m.Renames → m.Ok sig n f.freeVars → (M.inst P τ).Typed ρ →
      Interp.Agree (I := M.inst P τ) m f.freeVars ρ ρ₀ →
      (FiresSome (M.inst P τ) (elimF n m f) ρ dl ↔ (M.inst P τ).Fires f ρ₀ dl) := by
  induction f with
  | tquant a q vl trl f _ ih =>
    intro n m a' tl ρ ρ₀ hwt hc hcl hfree hm hok hρ hag
    cases q with
    | texists => cases hcl
    | tforall =>
      have hmem : ∀ v ∈ f.freeVars, v ∉ vl → v ∈ (Term.tquant a .tforall vl trl f).freeVars :=
        fun v hv hne => mem_freeVars_tquant hv hne
      -- the values of the bound variables are read from the map
      have hbody : ∀ ρ : VSymbol → M.Val, (M.inst P τ).Typed ρ →
          (FiresSome (M.inst P τ) (elimF (n + vl.length) (m.bind n vl) f) ρ dl ↔
            (M.inst P τ).Fires f (fun v => (M.inst P τ).eval ρ ((m.bind n vl).get v)) dl) :=
        fun ρ hρ => ih hwt.2.2 hc hcl hfree (hm.bind n vl) (hok.bind hmem) hρ (fun _ _ => rfl)
      rw [elimF, firesSome_tquant, quant_typed hbody hρ, Fires]
      refine quant_subst hag hok hmem (fun ρ ρ₀ hag => ?_)
      exact fires_congr hwt.2.2 (fun v hv => (hag v hv).symm)
  | tbinop a op g f _ ih =>
    intro n m a' tl ρ ρ₀ hwt hc hcl hfree hm hok hρ hag
    cases op with
    | timplies =>
      rw [conclusion_tbinop rfl] at hcl
      have hokg : m.Ok sig n g.freeVars := hok.mono (fun v hv => mem_append_left _ hv)
      have hokf : m.Ok sig n f.freeVars := hok.mono (fun v hv => mem_append_right _ hv)
      have hg := (spec hwt.2.2.1).fmla hm hokg hwt.1
      rw [elimF, firesSome_tbinop, Fires,
        hg.holds (PolyInterp.epsExt_inst P τ) hwt.2.2.1 hokg hwt.1 hρ
          (fun v hv => hag v (mem_append_left _ hv)),
        ih hwt.2.2.2 hc.2 hcl hfree hm hokf hρ
          (fun v hv => hag v (mem_append_right _ hv))]
    | _ => cases hcl
  | tlet a t v f _ ih =>
    intro n m a' tl ρ ρ₀ hwt hc hcl hfree hm hok hρ hag
    rw [conclusion_tlet] at hcl
    have hty : t.tTy ≠ none := by
      rw [hwt.1]
      exact Option.some_ne_none _
    have hokt : m.Ok sig n t.freeVars := hok.mono (fun v hv => mem_append_left _ hv)
    have ht := (spec hwt.2.1).term false hm hokt hty
    have hval := ht.eval (PolyInterp.epsExt_inst P τ) hwt.2.1 hokt hty hρ
      (fun v hv => hag v (mem_append_left _ hv))
    have hd : (M.inst P τ).mem v.vsTy ((M.inst P τ).eval ρ (elimTerm false n m t)) :=
      eval_mem ht.wt (ht.ty.trans hwt.1) hρ
    rw [elimF, firesSome_tlet, Fires, ← hval]
    exact ih hwt.2.2 hc.2 hcl hfree (hm.bind n [v]) (hok.bind (fun v => mem_freeVars_tlet))
      (Interp.typed_update hρ hd) (hag.bind_one hok (fun w => mem_freeVars_tlet) _)
  | tapp a s tl ty _ =>
    intro n m a' tl' ρ ρ₀ hwt hc hcl hfree hm hok hρ hag
    cases hcl
    have hpos := hc.2.2
    have haround : Around sps true (fun g => ∃ a tl ty, g = .tapp a ps tl ty ∧
        ∀ t ∈ tl, tPosPs sps t = none) (elimF n m (.tapp a ps tl none)) := by
      rw [elimF]
      exact around_elimTList hequ true hm hpos (fun _ => hfree)
        (fun k tl' htl' => ⟨_, tl', none, rfl, htl'⟩)
    have helim := (spec hwt).fmla hm hok rfl
    -- the conclusion, where the predicate holds of all other arguments
    have hag' : Interp.Agree (I := M.inst (except P ps dl) τ) m
        (Term.tapp a ps tl none).freeVars ρ ρ₀ := by
      intro v hv
      rw [hag v hv, (hm v).1]
      rfl
    have hρ' : (M.inst (except P ps dl) τ).Typed ρ := hρ
    rw [firesSome_around hps hequ haround,
      helim.holds (PolyInterp.epsExt_inst _ τ) hwt hok rfl hρ' hag',
      holds_except_tapp hps hequ hpos, not_not]
    rfl
  | _ =>
    intro n m a' tl ρ ρ₀ hwt hc hcl
    cases hcl

end Splitting

end EliminateIf

end Why3
