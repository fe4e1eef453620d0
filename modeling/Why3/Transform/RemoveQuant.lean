import Why3.Core.TermRebuild
import Why3.Transform.QuantRank

/-!
# Trivial quantifications

`fmla_remove_quant` of `transform/simplify_formula.ml`, for both values of `keep_model_vars`.  When a variable that a counterexample shows is eliminated, a binding of
it is kept, and only the equation that gave its value becomes true.
-/

namespace Why3

open List Term

variable {f t : Term}

namespace SimplifyFormula

/-! ## One equation becomes true -/

section Equation

variable (vs : VSymbol) (ts : Term)

/-- The variable `vs`. -/
def isVar : Term → Bool
  | .tvar _ v => decide (v = vs)
  | _ => false

/-- The equation of `vs` and `ts`, either way round. -/
def isEqu : List Term → Bool
  | [f1, f2] => (isVar vs f1 && tEqual ts f2) || (isVar vs f2 && tEqual ts f1)
  | _ => false

/-- Below a binder of `vs` or of a variable of `ts` the equation does not occur. -/
def hidden (vl : List VSymbol) : Bool := decide (vs ∈ vl) || ts.freeVars.any (· ∈ vl)

mutual
/-- `equ_simp ~eq:(vs, ts)`. -/
def equSimpEq : Term → Term
  | .tvar a v => .tvar a v
  | .tconst a c ty => .tconst a c ty
  | .tapp a s tl ty =>
    match equSimpEqList tl with
    | [t1, t2] =>
      if s = psEqu then
        tAttrCopy (.tapp a s tl ty) (if isEqu vs ts tl then .ttrue [] else tEquSimp t1 t2)
      else .tapp a s [t1, t2] ty
    | tl => .tapp a s tl ty
  | .tif a f t1 t2 => .tif a (equSimpEq f) (equSimpEq t1) (equSimpEq t2)
  | .tlet a t v e =>
    .tlet a (equSimpEq t) v (if hidden vs ts [v] then equSimp e else equSimpEq e)
  | .tcase a t bl => .tcase a (equSimpEq t) (equSimpEqBranches bl)
  | .teps a v f => .teps a v (if hidden vs ts [v] then equSimp f else equSimpEq f)
  | .tquant a q vl trl f =>
    .tquant a q vl (if hidden vs ts vl then equSimpTriggers trl else equSimpEqTriggers trl)
      (if hidden vs ts vl then equSimp f else equSimpEq f)
  | .tbinop a op f g => tAttrCopy (.tbinop a op f g) (equBinop op (equSimpEq f) (equSimpEq g))
  | .tnot a f => .tnot a (equSimpEq f)
  | .ttrue a => .ttrue a
  | .tfalse a => .tfalse a
def equSimpEqList : List Term → List Term
  | [] => []
  | t :: tl => equSimpEq t :: equSimpEqList tl
def equSimpEqBranches : List (Pattern × Term) → List (Pattern × Term)
  | [] => []
  | (p, t) :: bl =>
    (p, if hidden vs ts p.patVars then equSimp t else equSimpEq t) :: equSimpEqBranches bl
def equSimpEqTriggers : List (List Term) → List (List Term)
  | [] => []
  | tr :: trl => equSimpEqList tr :: equSimpEqTriggers trl
end

attribute [grind =] equSimpEq equSimpEqList equSimpEqBranches equSimpEqTriggers

/-- Below a binder. -/
def equSimpUnder (vl : List VSymbol) (t : Term) : Term :=
  if hidden vs ts vl then equSimp t else equSimpEq vs ts t

@[simp] theorem equSimpEqList_eq (tl : List Term) :
    equSimpEqList vs ts tl = tl.map (equSimpEq vs ts) := by
  induction tl with
  | nil => rfl
  | cons t tl ih => rw [equSimpEqList, ih, map_cons]

@[simp] theorem equSimpEqBranches_eq (bl : List (Pattern × Term)) :
    equSimpEqBranches vs ts bl = bl.map (fun b => (b.1, equSimpUnder vs ts b.1.patVars b.2)) := by
  induction bl with
  | nil => rfl
  | cons b bl ih =>
    obtain ⟨p, t⟩ := b
    rw [equSimpEqBranches, ih, map_cons]
    rfl

@[simp] theorem equSimpEqTriggers_eq (trl : List (List Term)) :
    equSimpEqTriggers vs ts trl = trl.map (List.map (equSimpEq vs ts)) := by
  induction trl with
  | nil => rfl
  | cons tr trl ih => rw [equSimpEqTriggers, ih, equSimpEqList_eq, map_cons]

@[simp] theorem hidden_nil : hidden vs ts [] = false := by
  simp [hidden]

@[simp] theorem equSimpUnder_nil : equSimpUnder vs ts [] = equSimpEq vs ts := by
  funext t
  simp [equSimpUnder]

theorem equSimpEq_tquant (a : Sattr) (q : Quant) (vl : List VSymbol) (trl : List (List Term))
    (f : Term) : equSimpEq vs ts (.tquant a q vl trl f) =
      .tquant a q vl (trl.map (List.map (equSimpUnder vs ts vl))) (equSimpUnder vs ts vl f) := by
  rw [equSimpEq, equSimpTriggers_eq, equSimpEqTriggers_eq]
  by_cases h : hidden vs ts vl = true
  · have hun : equSimpUnder vs ts vl = equSimp := funext fun t => if_pos h
    rw [if_pos h, if_pos h, hun]
  · have hun : equSimpUnder vs ts vl = equSimpEq vs ts := funext fun t => if_neg h
    rw [if_neg h, if_neg h, hun]

end Equation

/-! ## Quantified variables -/

section Code

variable (keepModelVars : Bool) (hasAModelAttr : ℕ → Bool)

/-- `fmla_quant ~keep_model_vars`, where `hasAModelAttr` says which names a counterexample
shows. -/
def fmlaQuant (sign : Bool) (f : Term) : List VSymbol → List VSymbol × Term
  | [] => ([], f)
  | vs :: l =>
    let (vsl, f) := fmlaQuant sign f l
    if vs ∉ f.freeVars then (vsl, f)
    else
      match fmlaFindSubst [vs] vs sign f with
      | none => (vs :: vsl, f)
      | some t =>
        if keepModelVars && hasAModelAttr vs.vsName then
          (vsl, .tlet [] t vs (equSimpEq vs t f))
        else (vsl, equSimp (tSubstSingle vs t f))

/-! ## The rank goes down -/

theorem rank_equBinop_le (op : Binop) (f g : Term) (e : VSymbol → ℕ) :
    rank (equBinop op f g) e ≤ max (rank f e) (rank g e) := by
  unfold equBinop
  split <;> simp [rank]

theorem rank_tEquSimp_le (t1 t2 : Term) (e : VSymbol → ℕ) :
    rank (tEquSimp t1 t2) e ≤ max (rank t1 e) (rank t2 e) := by
  unfold tEquSimp
  split_ifs
  · exact Nat.zero_le _
  · simp [tEqu, rank, rankList]

/-- A traversal that does not make the subterms deeper. -/
theorem rank_tMapUnder_le {fn : List VSymbol → Term → Term}
    (h : ∀ c ∈ t.scopes, ∀ e, rank (fn c.1 c.2) e ≤ rank c.2 e) (e : VSymbol → ℕ) :
    rank (t.tMapUnder fn) e ≤ rank t e := by
  cases t with
  | tapp a s tl ty =>
    simp only [scopes, forall_mem_map] at h
    simp only [tMapUnder, rank, rankList_le_iff, forall_mem_map]
    exact fun t ht => (h t ht e).trans (rank_le_rankList ht)
  | tif a f t1 t2 =>
    simp only [scopes, forall_mem_cons] at h
    exact max_le_max (h.1 e) (max_le_max (h.2.1 e) (h.2.2.1 e))
  | tlet a t v f =>
    simp only [scopes, forall_mem_cons] at h
    refine max_le_max (h.1 e) ((h.2.1 _).trans ?_)
    exact rank_setRank_mono f e [v] (h.1 e)
  | tcase a t bl =>
    simp only [scopes, forall_mem_cons, forall_mem_map] at h
    simp only [tMapUnder, rank]
    refine max_le_max (h.1 e) (rankBranches_le_iff.mpr (forall_mem_map.mpr (fun b hb => ?_)))
    exact (h.2 b hb _).trans (rank_le_rankBranches hb)
  | teps a v f =>
    simp only [scopes, forall_mem_cons] at h
    exact h.1 _
  | tquant a q vl trl f =>
    simp only [scopes, forall_mem_cons] at h
    exact Nat.succ_le_succ (blockRank_le (rank_setRank_mono f e vl) (fun w => h.1 _) _ 0)
  | tbinop a op f g =>
    simp only [scopes, forall_mem_cons] at h
    exact max_le_max (h.1 e) (h.2.1 e)
  | tnot a f =>
    simp only [scopes, forall_mem_cons] at h
    exact h.1 e
  | _ => exact le_rfl

theorem rank_equSimp_le (t : Term) : ∀ e, rank (equSimp t) e ≤ rank t e := by
  induction t using induct_children with
  | h t ih =>
    intro e
    have hmap : rank (t.tMapUnder (fun _ => equSimp)) e ≤ rank t e := by
      refine rank_tMapUnder_le (fun c hc => ih c.2 ?_) e
      rw [← map_snd_scopes]
      exact mem_map_of_mem hc
    cases t with
    | tapp a s tl ty =>
      rw [equSimp, equSimpList_eq]
      refine le_trans ?_ hmap
      rw [tMapUnder, rank]
      split
      · next t1 t2 heq =>
          rw [heq]
          split_ifs
          · rw [rank_tAttrCopy]
            simpa [rankList] using rank_tEquSimp_le t1 t2 e
          · exact le_rfl
      · exact le_rfl
    | tcase a t bl =>
      rw [equSimp, equSimpBranches_eq]
      exact hmap
    | tquant a q vl trl f =>
      rw [equSimp, equSimpTriggers_eq]
      exact hmap
    | tbinop a op f g =>
      rw [equSimp, rank_tAttrCopy]
      exact (rank_equBinop_le op _ _ e).trans hmap
    | _ => exact hmap

theorem rank_equSimpEq_le (vs : VSymbol) (ts t : Term) : ∀ e,
    rank (equSimpEq vs ts t) e ≤ rank t e := by
  induction t using induct_children with
  | h t ih =>
    intro e
    have hmap : rank (t.tMapUnder (equSimpUnder vs ts)) e ≤ rank t e := by
      refine rank_tMapUnder_le (fun c hc e => ?_) e
      have hmem : c.2 ∈ t.children := by
        rw [← map_snd_scopes]
        exact mem_map_of_mem hc
      unfold equSimpUnder
      split_ifs
      · exact rank_equSimp_le c.2 e
      · exact ih c.2 hmem e
    cases t with
    | tapp a s tl ty =>
      rw [equSimpEq, equSimpEqList_eq]
      refine le_trans ?_ hmap
      rw [tMapUnder, rank, equSimpUnder_nil]
      split
      · next t1 t2 heq =>
          rw [heq]
          split_ifs
          · exact Nat.zero_le _
          · rw [rank_tAttrCopy]
            simpa [rankList] using rank_tEquSimp_le t1 t2 e
          · exact le_rfl
      · exact le_rfl
    | tif a f t1 t2 | tcase a t bl | tnot a f => simpa [equSimpEq, tMapUnder] using hmap
    | tlet a t v f => simpa [equSimpEq, tMapUnder, equSimpUnder] using hmap
    | tquant a q vl trl f =>
      rw [equSimpEq_tquant]
      exact hmap
    | tbinop a op f g =>
      rw [equSimpEq, rank_tAttrCopy]
      refine (rank_equBinop_le op _ _ e).trans ?_
      simpa [tMapUnder, rank] using hmap
    | _ => exact hmap

/-- The term that is found stands below the formula, and outside of its binders. -/
theorem findSubst_below : ∀ {boundvars : List VSymbol} {var : VSymbol} {sign : Bool}
    {t : Term}, fmlaFindSubst boundvars var sign f = some t →
      (∀ w ∈ t.freeVars, w ∉ boundvars ∧ w ∈ f.freeVars) ∧ ∀ e, rank t e ≤ rank f e := by
  induction f with
  | tapp a ls tl ty ih =>
    clear ih
    intro boundvars var sign t h
    rw [fmlaFindSubst] at h
    obtain ⟨t1, t2, rfl, ht, hbound⟩ : ∃ t1 t2, tl = [t1, t2] ∧ (t = t1 ∨ t = t2) ∧
        tBoundvarsIn boundvars t = false := by
      have htest : ∀ {vs u tv}, test boundvars var sign ls vs u tv = true →
          tBoundvarsIn boundvars u = false := by
        intro vs u tv htest
        simp only [test, Bool.and_eq_true, Bool.not_eq_true'] at htest
        exact htest.2.2.2.2
      unfold equSubst at h
      split at h
      · next t1 t2 =>
          refine ⟨t1, t2, rfl, ?_⟩
          split at h
          · split_ifs at h with h1 h2
            · cases h
              exact ⟨.inr rfl, htest h1⟩
            · cases h
              exact ⟨.inl rfl, htest h2⟩
          · split_ifs at h with h1
            cases h
            exact ⟨.inr rfl, htest h1⟩
          · split_ifs at h with h1
            cases h
            exact ⟨.inl rfl, htest h1⟩
          · cases h
      · cases h
    have hmem : t ∈ [t1, t2] := by simpa using ht
    simp only [tBoundvarsIn, any_eq_false, decide_eq_true_eq] at hbound
    exact ⟨fun w hw => ⟨hbound w hw, mem_freeVars_tapp hmem hw⟩,
      fun e => rank_le_rankList hmem⟩
  | tbinop a op f1 f2 ih1 ih2 =>
    intro boundvars var sign t h
    -- one of the two sides
    obtain ⟨g, hg, sign', hfind⟩ : ∃ g, (g = f1 ∨ g = f2) ∧ ∃ sign',
        fmlaFindSubst boundvars var sign' g = some t := by
      cases op with
      | tiff => simp [fmlaFindSubst] at h
      | _ =>
        simp only [fmlaFindSubst] at h
        split_ifs at h
        rw [Option.or_eq_some_iff] at h
        rcases h with h | ⟨_, h⟩
        · exact ⟨f1, .inl rfl, _, h⟩
        · exact ⟨f2, .inr rfl, _, h⟩
    rcases hg with rfl | rfl
    · obtain ⟨hvars, hrank⟩ := ih1 hfind
      exact ⟨fun w hw => ⟨(hvars w hw).1, by simp [freeVars, (hvars w hw).2]⟩,
        fun e => (hrank e).trans (le_max_left _ _)⟩
    · obtain ⟨hvars, hrank⟩ := ih2 hfind
      exact ⟨fun w hw => ⟨(hvars w hw).1, by simp [freeVars, (hvars w hw).2]⟩,
        fun e => (hrank e).trans (le_max_right _ _)⟩
  | tnot a f ih =>
    intro boundvars var sign t h
    exact ih h
  | tquant a q vl trl f _ ih =>
    intro boundvars var sign t h
    rw [fmlaFindSubst] at h
    split_ifs at h
    obtain ⟨hvars, hrank⟩ := ih h
    have hout : ∀ w ∈ t.freeVars, w ∉ vl := fun w hw hmem =>
      (hvars w hw).1 (mem_append_left _ hmem)
    refine ⟨fun w hw => ⟨?_, mem_freeVars_tquant (hvars w hw).2 (hout w hw)⟩, fun e => ?_⟩
    · exact fun hmem => (hvars w hw).1 (mem_append_right _ hmem)
    · rw [← rank_setRank_eq hout (w := 0)]
      exact (hrank _).trans rank_lt_tquant.le
  | tlet a s v f _ ih =>
    intro boundvars var sign t h
    rw [fmlaFindSubst] at h
    split_ifs at h
    obtain ⟨hvars, hrank⟩ := ih h
    have hout : ∀ w ∈ t.freeVars, w ∉ [v] := fun w hw hmem =>
      (hvars w hw).1 (mem_cons.mpr (.inl (mem_singleton.mp hmem)))
    refine ⟨fun w hw => ⟨?_, mem_freeVars_tlet (hvars w hw).2 (hout w hw)⟩, fun e => ?_⟩
    · exact fun hmem => (hvars w hw).1 (mem_cons_of_mem _ hmem)
    · rw [← rank_setRank_eq hout (w := rank s e)]
      exact (hrank _).trans (le_max_right _ _)
  | _ =>
    intro boundvars var sign t h
    simp [fmlaFindSubst] at h

/-- One variable at a time. -/
theorem rank_fmlaQuant_le (sign : Bool) (f : Term) (vl : List VSymbol) : ∀ {V : List VSymbol},
    (∀ v ∈ vl, v ∈ V) → ∀ e w, rank (fmlaQuant keepModelVars hasAModelAttr sign f vl).2
      (setRank e V w) ≤ blockRank vl.length (fun w => rank f (setRank e V w)) w := by
  induction vl with
  | nil => exact fun _ e w => le_rfl
  | cons vs vl ih =>
    intro V hV e w
    rw [forall_mem_cons] at hV
    have hrec := ih hV.2 e
    obtain ⟨vsl, g, hg⟩ : ∃ vsl g, fmlaQuant keepModelVars hasAModelAttr sign f vl = (vsl, g) :=
      ⟨_, _, rfl⟩
    rw [hg] at hrec
    have hmono := rank_setRank_mono f e V
    have hsame : rank g (setRank e V w) ≤
        blockRank (vs :: vl).length (fun w => rank f (setRank e V w)) w :=
      (hrec w).trans (le_blockRank_succ hmono _ _)
    simp only [fmlaQuant, hg]
    by_cases hocc : vs ∉ g.freeVars
    · rw [if_pos hocc]
      exact hsame
    · rw [if_neg hocc]
      split
      · exact hsame
      · next t hfind =>
          -- the term has no greater rank than the body where it is found
          have ht : rank t (setRank e V w) ≤
              blockRank vl.length (fun w => rank f (setRank e V w)) w :=
            ((findSubst_below hfind).2 _).trans (hrec w)
          have hvar : rank g (setRank (setRank e V w) [vs] (rank t (setRank e V w))) ≤
              blockRank (vs :: vl).length (fun w => rank f (setRank e V w)) w := by
            refine le_trans (rank_le (fun v _ => ?_)) (hrec _)
            by_cases hv : v ∈ V
            · rw [setRank_mem hv]
              by_cases hvs : v ∈ [vs]
              · rw [setRank_mem hvs]
                exact ht.trans (le_max_right _ _)
              · rw [setRank_of_notMem hvs, setRank_mem hv]
                exact le_max_left _ _
            · have hvs : v ∉ [vs] := fun hmem => hv (by rw [mem_singleton.mp hmem]; exact hV.1)
              rw [setRank_of_notMem hvs, setRank_of_notMem hv, setRank_of_notMem hv]
          split_ifs
          · exact max_le (ht.trans (le_blockRank_succ hmono _ _))
              ((rank_le (fun v _ => le_rfl)).trans
                ((rank_equSimpEq_le vs t g _).trans hvar))
          · exact (rank_equSimp_le _ _).trans ((rank_tSubstSingle_le _).trans hvar)

/-- The rank of a closed term. -/
def rank₀ (t : Term) : ℕ := rank t (fun _ => 0)

theorem setRank_zero (vl : List VSymbol) : setRank (fun _ => 0) vl 0 = fun _ => 0 := by
  funext v
  simp [setRank]

theorem rank₀_fmlaQuant_lt {a : Sattr} {q : Quant} {vl : List VSymbol} {trl : List (List Term)}
    {sign : Bool} : rank₀ (fmlaQuant keepModelVars hasAModelAttr sign f vl).2 <
      rank₀ (.tquant a q vl trl f) := by
  have hle := rank_fmlaQuant_le keepModelVars hasAModelAttr sign f vl (fun _ hv => hv)
    (fun _ => 0) 0
  rw [setRank_zero] at hle
  exact Nat.lt_succ_of_le hle

/-- The subterms of a term that is not a quantified formula. -/
theorem rank₀_children_le {u : Term} (hq : ∀ a q vl trl f, t ≠ .tquant a q vl trl f)
    (hu : u ∈ t.children) : rank₀ u ≤ rank₀ t := by
  cases t with
  | tvar a v | tconst a c ty | ttrue a | tfalse a => cases hu
  | tapp a s tl ty => exact rank_le_rankList hu
  | tif a f t1 t2 =>
    simp only [children, mem_cons, not_mem_nil, or_false] at hu
    rcases hu with rfl | rfl | rfl <;> simp [rank₀, rank]
  | tlet a t v e =>
    simp only [children, mem_cons, not_mem_nil, or_false] at hu
    rcases hu with rfl | rfl
    · exact le_max_left _ _
    · exact (rank_le (fun _ _ => Nat.zero_le _)).trans (le_max_right _ _)
  | tcase a t bl =>
    rcases mem_cons.mp hu with rfl | hu
    · exact le_max_left _ _
    · obtain ⟨b, hb, rfl⟩ := mem_map.mp hu
      refine le_trans ?_ ((rank_le_rankBranches hb).trans (le_max_right _ _))
      exact rank_le (fun _ _ => Nat.zero_le _)
  | teps a v f =>
    obtain rfl : u = f := by simpa [children] using hu
    exact rank_le (fun _ _ => Nat.zero_le _)
  | tquant a q vl trl f => exact absurd rfl (hq a q vl trl f)
  | tbinop a op f g =>
    simp only [children, mem_cons, not_mem_nil, or_false] at hu
    rcases hu with rfl | rfl <;> simp [rank₀, rank]
  | tnot a f =>
    obtain rfl : u = f := by simpa [children] using hu
    exact le_rfl

/-- The parts of a quantified formula. -/
def asQuant : Term → Option (Quant × List VSymbol × List (List Term) × Term)
  | .tquant _ q vl trl f => some (q, vl, trl, f)
  | _ => none

theorem asQuant_eq_some {q : Quant} {vl : List VSymbol} {trl : List (List Term)}
    (h : asQuant t = some (q, vl, trl, f)) : ∃ a, t = .tquant a q vl trl f := by
  unfold asQuant at h
  split at h
  · next a _ _ _ _ =>
      simp only [Option.some.injEq, Prod.mk.injEq] at h
      obtain ⟨rfl, rfl, rfl, rfl⟩ := h
      exact ⟨a, rfl⟩
  · cases h

theorem ne_tquant_of_asQuant (h : asQuant t = none) (a : Sattr) (q : Quant) (vl : List VSymbol)
    (trl : List (List Term)) (f : Term) : t ≠ .tquant a q vl trl f := by
  rintro rfl
  cases h

/-- `fmla_remove_quant ~keep_model_vars`. -/
def fmlaRemoveQuant (f : Term) : Term :=
  match _ : asQuant f with
  | some (q, vl, trl, f') =>
    if trl ≠ [] then f
    else
      let r := fmlaQuant keepModelVars hasAModelAttr (decide (q = .texists)) f' vl
      tAttrCopy f (tQuant q r.1 [] (fmlaRemoveQuant r.2))
  | none => f.tMapMem (fun u _ => fmlaRemoveQuant u)
termination_by (rank₀ f, sizeOf f)
decreasing_by
  · obtain ⟨a, rfl⟩ := asQuant_eq_some ‹asQuant _ = some _›
    exact Prod.Lex.left _ _ (rank₀_fmlaQuant_lt _ _)
  · have hu := ‹_ ∈ children _›
    rcases (rank₀_children_le (ne_tquant_of_asQuant ‹asQuant _ = none›) hu).lt_or_eq with hlt | heq
    · exact Prod.Lex.left _ _ hlt
    · rw [heq]
      exact Prod.Lex.right _ (sizeOf_lt_of_mem_children hu)

theorem fmlaRemoveQuant_tquant (a : Sattr) (q : Quant) (vl : List VSymbol)
    (trl : List (List Term)) (f : Term) :
    fmlaRemoveQuant keepModelVars hasAModelAttr (.tquant a q vl trl f) =
      if trl ≠ [] then .tquant a q vl trl f
      else
        let r := fmlaQuant keepModelVars hasAModelAttr (decide (q = .texists)) f vl
        tAttrCopy (.tquant a q vl trl f)
          (tQuant q r.1 [] (fmlaRemoveQuant keepModelVars hasAModelAttr r.2)) := by
  rw [fmlaRemoveQuant]
  rfl

theorem fmlaRemoveQuant_of_notQuant (h : asQuant f = none) :
    fmlaRemoveQuant keepModelVars hasAModelAttr f =
      f.tMap (fmlaRemoveQuant keepModelVars hasAModelAttr) := by
  rw [fmlaRemoveQuant]
  split
  · next heq =>
      rw [h] at heq
      cases heq
  · exact f.tMapMem_eq _

theorem fmlaRemoveQuant_tvar (a : Sattr) (v : VSymbol) :
    fmlaRemoveQuant keepModelVars hasAModelAttr (.tvar a v) = .tvar a v :=
  fmlaRemoveQuant_of_notQuant _ _ rfl

theorem fmlaRemoveQuant_tapp (a : Sattr) (s : LSymbol) (tl : List Term) (ty : Option Ty) :
    fmlaRemoveQuant keepModelVars hasAModelAttr (.tapp a s tl ty) =
      .tapp a s (tl.map (fmlaRemoveQuant keepModelVars hasAModelAttr)) ty :=
  fmlaRemoveQuant_of_notQuant _ _ rfl

theorem fmlaRemoveQuant_tbinop (a : Sattr) (op : Binop) (f g : Term) :
    fmlaRemoveQuant keepModelVars hasAModelAttr (.tbinop a op f g) =
      .tbinop a op (fmlaRemoveQuant keepModelVars hasAModelAttr f)
        (fmlaRemoveQuant keepModelVars hasAModelAttr g) :=
  fmlaRemoveQuant_of_notQuant _ _ rfl

end Code

end SimplifyFormula

end Why3

/-!
# Removing trivial quantifications keeps the meaning, for both settings

Where the binding of an eliminated variable is kept, the variable has the value of the term
below the binding, and there the equation holds.
-/

namespace Why3

open Term Interp

namespace SimplifyFormula

variable {sig : TySymbol → List LSymbol} {I : Interp sig}

/-! ## The equation that becomes true -/

section Equation

variable {vs : VSymbol} {ts : Term}

/-- The variable has the value of the term. -/
def HasValue (I : Interp sig) (vs : VSymbol) (ts : Term) (ρ : I.Env) : Prop := ρ vs = I.eval ρ ts

theorem HasValue.of_under (hts : ts.Wt sig) {vl : List VSymbol} (h : hidden vs ts vl = false)
    {ρ : I.Env} (hu : Under vl (HasValue I vs ts) ρ) : HasValue I vs ts ρ := by
  simp only [hidden, Bool.or_eq_false_iff, decide_eq_false_iff_not, List.any_eq_false,
    decide_eq_true_eq] at h
  obtain ⟨ρ₀, _, hval, hag⟩ := hu
  unfold HasValue
  rw [hag vs h.1, hval]
  exact Interp.eval_congr hts (fun w hw => (hag w (h.2 w hw)).symm)

theorem holds_of_isEqu (hlit : I.LitExt) (hts : ts.Wt sig) {a : Sattr} {tl : List Term}
    {ty : Option Ty} (hwt : (tapp a psEqu tl ty).Wt sig) (h : isEqu vs ts tl = true)
    {ρ : I.Env} (hρ : HasValue I vs ts ρ) : I.Holds ρ (.tapp a psEqu tl ty) := by
  obtain ⟨rfl, t1, t2, tye, rfl, h1, h2, w1, w2⟩ := wt_psEqu hwt
  have hside : ∀ {u u' : Term}, u'.Wt sig → isVar vs u = true → tEqual ts u' = true →
      I.eval ρ u = I.eval ρ u' := by
    intro u u' hwu hvar heq
    unfold isVar at hvar
    split at hvar
    · obtain rfl := of_decide_eq_true hvar
      rw [I.eval_tvar, hρ]
      exact congrArg Den.val (I.sem_tEqual hlit hts hwu heq ρ)
    · cases hvar
  rw [I.holds_equ]
  simp only [isEqu, Bool.or_eq_true, Bool.and_eq_true] at h
  rcases h with h | h
  · exact hside w2 h.1 h.2
  · exact (hside w1 h.1 h.2).symm

theorem equivWhen_equSimpEq (hlit : I.LitExt) (heps : I.EpsExt) (hts : ts.Wt sig) (t : Term) :
    t.Wt sig → I.EquivWhen (HasValue I vs ts) t (equSimpEq vs ts t) := by
  induction t using induct_children with
  | h t ih =>
    intro hwt
    have hmap : I.EquivWhen (HasValue I vs ts) t (t.tMapUnder (equSimpUnder vs ts)) := by
      refine equivWhen_tMapUnder heps (fun c hc hwc => ?_) hwt
      have hmem : c.2 ∈ t.children := by
        rw [← map_snd_scopes]
        exact List.mem_map_of_mem hc
      unfold equSimpUnder
      split_ifs with hh
      · exact (equiv_equSimp hlit heps hwc).when
      · exact (ih c.2 hmem hwc).mono (fun _ _ hu => .of_under hts (by simpa using hh) hu)
    cases t with
    | tapp a s tl ty =>
      rw [equSimpEq, equSimpEqList_eq]
      rw [tMapUnder, equSimpUnder_nil] at hmap
      split
      · next t1 t2 heq =>
          rw [heq] at hmap
          split_ifs with hs hequ
          · subst hs
            have hty : (tapp a psEqu tl ty).tTy = none := (wt_psEqu hwt).1
            rw [equivWhen_tAttrCopy]
            refine ⟨trivial, hty.symm, fun _ _ hne => absurd hty hne, fun {ρ} _ hval _ => ?_⟩
            exact iff_of_true trivial (holds_of_isEqu hlit hts hwt hequ hval)
          · subst hs
            rw [equivWhen_tAttrCopy]
            obtain ⟨rfl, u1, u2, tye, hu, h1, h2, w1, w2⟩ := wt_psEqu hmap.wt
            obtain ⟨rfl, rfl⟩ : t1 = u1 ∧ t2 = u2 := by simpa using hu
            have hequ : I.EquivWhen (HasValue I vs ts) (.tapp a psEqu tl none) (tEqu t1 t2) :=
              Interp.equivWhen_setAttrs.mpr hmap
            exact hequ.trans (equiv_tEquSimp hlit h1 h2 w1 w2).when
          · exact hmap
      · exact hmap
    | tif a f t1 t2 | tcase a t bl | tnot a f => simpa [equSimpEq, tMapUnder] using hmap
    | tlet a t v f => simpa [equSimpEq, tMapUnder, equSimpUnder] using hmap
    | tquant a q vl trl f =>
      rw [equSimpEq_tquant]
      exact hmap
    | tbinop a op f g =>
      rw [tMapUnder, equSimpUnder_nil] at hmap
      rw [equSimpEq, equivWhen_tAttrCopy]
      obtain ⟨_, _, wf, wg⟩ := hmap.wt
      exact hmap.trans (equiv_equBinop (.refl wf) (.refl wg) hmap.wt).when
    | _ => exact hmap

/-- The binding that is kept: the body has the meaning of the one where the variable is
replaced. -/
theorem equiv_tlet_equSimpEq (hlit : I.LitExt) (heps : I.EpsExt) {f : Term} (hts : ts.Wt sig)
    (hty : ts.tTy = some vs.vsTy) (hvs : vs ∉ ts.freeVars) (hwt : f.Wt sig) :
    I.Equiv (tSubstSingle vs ts f) (.tlet [] ts vs (equSimpEq vs ts f)) := by
  have hsimp : I.EquivWhen (HasValue I vs ts) f (equSimpEq vs ts f) :=
    equivWhen_equSimpEq hlit heps hts f hwt
  have hsty := tTy_tSubstSingle (t := f) hts hty
  refine .of_sem ⟨hty, hts, hsimp.wt⟩ (hsimp.ty.trans hsty.symm) (fun {ρ} hρ => ?_)
  have hval : HasValue I vs ts (Function.update ρ vs (I.eval ρ ts)) := by
    unfold HasValue
    rw [Function.update_self]
    refine Interp.eval_congr hts (fun w hw => ?_)
    rw [Function.update_of_ne]
    rintro rfl
    exact hvs hw
  have hρ' := Interp.typed_update hρ (eval_mem hts hty hρ)
  have hsubst := I.sem_tSubstSingle hts hty hwt ρ
  rw [I.sem_tlet, hsty]
  refine ⟨fun hne => ?_, fun hnone => ?_⟩
  · exact (hsimp.val hρ' hval hne).trans hsubst.1.symm
  · exact (hsimp.tr hρ' hval hnone).trans (hsubst.2 hnone).symm

end Equation

/-! ## Quantified variables -/

section Quant

variable {keepModelVars : Bool} {hasAModelAttr : ℕ → Bool}

theorem quant_fmlaQuant (hlit : I.LitExt) (heps : I.EpsExt) {q : Quant} {f : Term}
    (hwt : f.Wt sig) (hty : f.tTy = none) {vl : List VSymbol} : ∀ {vsl : List VSymbol} {g : Term},
    fmlaQuant keepModelVars hasAModelAttr (decide (q = .texists)) f vl = (vsl, g) →
      QuantAs I q vl f vsl g := by
  induction vl with
  | nil =>
    intro vsl g h
    cases h
    exact ⟨hwt, hty, fun _ => .rfl⟩
  | cons vs vl ih =>
    intro vsl g h
    obtain ⟨wsl, f₁, hrec⟩ : ∃ wsl f₁, fmlaQuant keepModelVars hasAModelAttr
        (decide (q = .texists)) f vl = (wsl, f₁) := ⟨_, _, rfl⟩
    have hq := ih hrec
    simp only [fmlaQuant, hrec] at h
    by_cases hocc : vs ∉ f₁.freeVars
    · rw [if_pos hocc] at h
      cases h
      exact hq.unused hocc
    · rw [if_neg hocc] at h
      cases hfind : fmlaFindSubst [vs] vs (decide (q = .texists)) f₁ with
      | none =>
        simp only [hfind] at h
        cases h
        exact hq.keep
      | some t =>
        have hfound : Found I [vs] vs (decide (q = .texists)) f₁ t :=
          found_of_findSubst hq.1 hfind
        simp only [hfind] at h
        split_ifs at h
        · cases h
          refine hq.found hfound (equiv_tlet_equSimpEq hlit heps hfound.wt hfound.ty ?_ hq.1)
          exact fun hmem => hfound.notBound vs hmem (List.mem_singleton_self vs)
        · cases h
          exact hq.found hfound (equiv_equSimp hlit heps (wt_tSubstSingle hfound.wt hfound.ty hq.1))

theorem equiv_fmlaRemoveQuant (hlit : I.LitExt) (heps : I.EpsExt) (f : Term) :
    f.Wt sig → I.Equiv f (fmlaRemoveQuant keepModelVars hasAModelAttr f) := by
  induction f using fmlaRemoveQuant.induct keepModelVars hasAModelAttr with
  | case1 f q vl trl f' hf htrl =>
    intro hwt
    obtain ⟨a, rfl⟩ := asQuant_eq_some hf
    rw [fmlaRemoveQuant_tquant, if_pos htrl]
    exact .refl hwt
  | case2 f q vl trl f' hf htrl r ih =>
    intro hwt
    obtain ⟨a, rfl⟩ := asQuant_eq_some hf
    rw [fmlaRemoveQuant_tquant, if_neg htrl]
    obtain ⟨hwtg, htyg, hq⟩ := quant_fmlaQuant hlit heps hwt.2.2 hwt.1 (show
      fmlaQuant keepModelVars hasAModelAttr (decide (q = .texists)) f' vl = (r.1, r.2) from rfl)
    have hrec := ih hwtg
    have hrty := hrec.ty.trans htyg
    rw [equiv_tAttrCopy]
    refine .of_formula rfl (wt_tQuant hrec.wt hrty).1 (wt_tQuant hrec.wt hrty).2
      (fun {ρ} hρ => ?_)
    rw [I.holds_tQuant, I.holds_tquant, ← hq hρ]
    exact quant_typed (fun ρ hρ => hrec.tr hρ htyg) hρ
  | case3 f hf ih =>
    intro hwt
    rw [fmlaRemoveQuant_of_notQuant _ _ hf]
    exact equiv_tMap heps (fun u hu => ih u hu) hwt

end Quant

/-- The result of `fmla_remove_quant` has the truth value of the formula.  A variable is
replaced by a term without the variables bound on the way to its equation, where the body
that has the truth value of the sign gives the variable the value of the term. -/
theorem fmla_remove_quant_equiv {f : Term} (hwt : f.Wt sig) (hf : f.tTy = none)
    (keepModelVars : Bool) (hasAModelAttr : ℕ → Bool) (I : Interp sig) (hlit : I.LitExt)
    (heps : I.EpsExt) :
    (∀ ρ : I.Env, I.Typed ρ →
      (I.Holds ρ (fmlaRemoveQuant keepModelVars hasAModelAttr f) ↔ I.Holds ρ f)) ∧
    ∀ (vs : VSymbol) (sign : Bool) (g t : Term), g.Wt sig → fmlaFindSubst [vs] vs sign g = some t →
      (∀ w ∈ t.freeVars, w ≠ vs ∧ w ∈ g.freeVars) ∧
        ∀ ρ : I.Env, I.Typed ρ → Sat sign (I.Holds ρ g) → ρ vs = I.eval ρ t := by
  refine ⟨fun ρ hρ => (equiv_fmlaRemoveQuant hlit heps f hwt).tr hρ hf, ?_⟩
  intro vs sign g t hwtg hfind
  refine ⟨fun w hw => ?_, fun ρ hρ hsat => (found_of_findSubst hwtg hfind).eq hρ hsat⟩
  obtain ⟨hbound, hfree⟩ := (findSubst_below hfind).1 w hw
  exact ⟨by simpa using hbound, hfree⟩

/-- `exists x. x = 1`, with the binding of `x` kept. -/
theorem fmla_remove_quant_equiv_keep :
    intInterp.Holds (fun _ => (0 : ℤ)) (fmlaRemoveQuant true (fun _ => true)
        (.tquant [] .texists [LetImplies.x] [] LetImplies.equX)) ↔
      intInterp.Holds (fun _ => (0 : ℤ)) (.tquant [] .texists [LetImplies.x] [] LetImplies.equX) := by
  have hwt : (tquant [] .texists [LetImplies.x] [] LetImplies.equX).Wt (fun _ => []) :=
    ⟨rfl, trivial, LetImplies.wt_equX⟩
  exact (fmla_remove_quant_equiv hwt rfl true (fun _ => true) intInterp litExt_intInterp
    epsExt_intInterp).1 _ fun _ => trivial

end SimplifyFormula

end Why3
