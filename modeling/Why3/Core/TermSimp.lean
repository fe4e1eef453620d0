import Why3.Core.Equiv
import Why3.Core.SubstVars

/-!
# Simplifying constructors

The constructors of `core/term.ml` that look at their operands: `t_quant`, which
leaves out an empty quantifier, and the `t_*_simp`, which drop neutral operands
and recognise equal ones.
-/

namespace Why3

open List Function Term Interp Binop

variable {q : Quant} {vl : List VSymbol} {e f f1 f2 t : Term} {v : VSymbol}

/-- `t_equ_simp`. -/
def tEquSimp (t1 t2 : Term) : Term := if tEqual t1 t2 then .ttrue [] else tEqu t1 t2

/-- `t_quant`: a quantifier without variables is left out. -/
def tQuant (q : Quant) (vl : List VSymbol) (trl : List (List Term)) (f : Term) : Term :=
  if vl = [] then f else .tquant [] q vl trl f

/-- The attribute `asym_split`. -/
def asymSplit : String := "asym_split"

/-- `t_attr_remove`. -/
def tAttrRemove (l : String) (t : Term) : Term := t.setAttrs (t.tAttrs.filter (· ≠ l))

/-- `t_and_simp`. -/
def tAndSimp : Term → Term → Term
  | .ttrue _, f2 => f2
  | f1, .ttrue _ => tAttrRemove asymSplit f1
  | .tfalse a, _ => tAttrRemove asymSplit (.tfalse a)
  | _, .tfalse a => .tfalse a
  | f1, f2 => if tEqual f1 f2 then f1 else .tbinop [] .tand f1 f2

/-- `t_not_simp`. -/
def tNotSimp : Term → Term
  | .ttrue a => tAttrCopy (.ttrue a) (.tfalse [])
  | .tfalse a => tAttrCopy (.tfalse a) (.ttrue [])
  | .tnot a g => tAttrCopy (.tnot a g) g
  | f => .tnot [] f

/-- `t_or_simp`. -/
def tOrSimp : Term → Term → Term
  | .ttrue a, _ => tAttrRemove asymSplit (.ttrue a)
  | _, .ttrue a => .ttrue a
  | .tfalse _, f2 => f2
  | f1, .tfalse _ => tAttrRemove asymSplit f1
  | f1, f2 => if tEqual f1 f2 then f1 else .tbinop [] .tor f1 f2

/-- `t_and_asym`. -/
def tAndAsym (f1 f2 : Term) : Term := .tbinop [] .tand (tAttrAdd asymSplit f1) f2

/-- `t_and_asym_simp`. -/
def tAndAsymSimp : Term → Term → Term
  | .ttrue _, f2 => f2
  | f1, .ttrue _ => tAttrRemove asymSplit f1
  | .tfalse a, _ => tAttrRemove asymSplit (.tfalse a)
  | _, .tfalse a => .tfalse a
  | f1, f2 => if tEqual f1 f2 then f1 else tAndAsym f1 f2

/-- `t_implies_simp`. -/
def tImpliesSimp : Term → Term → Term
  | .ttrue _, f2 => f2
  | _, .ttrue a => .ttrue a
  | .tfalse a, _ => tAttrCopy (.tfalse a) (.ttrue [])
  | f1, .tfalse _ => tNotSimp f1
  | f1, f2 => if tEqual f1 f2 then tAttrCopy f1 (.ttrue []) else .tbinop [] .timplies f1 f2

/-- `t_iff_simp`. -/
def tIffSimp : Term → Term → Term
  | .ttrue _, f2 => f2
  | f1, .ttrue _ => f1
  | .tfalse _, f2 => tNotSimp f2
  | f1, .tfalse _ => tNotSimp f1
  | f1, f2 => if tEqual f1 f2 then tAttrCopy f1 (.ttrue []) else .tbinop [] .tiff f1 f2

/-- `t_binary_simp`. -/
def tBinarySimp : Binop → Term → Term → Term
  | .tand => tAndSimp
  | .tor => tOrSimp
  | .timplies => tImpliesSimp
  | .tiff => tIffSimp

/-- `t_if_simp`. -/
def tIfSimp : Term → Term → Term → Term
  | .ttrue _, f2, _ => f2
  | .tfalse _, _, f3 => f3
  | f1, .ttrue _, f3 => tImpliesSimp (tNotSimp f1) f3
  | f1, .tfalse _, f3 => tAndAsymSimp (tNotSimp f1) f3
  | f1, f2, .ttrue _ => tImpliesSimp f1 f2
  | f1, f2, .tfalse _ => tAndAsymSimp f1 f2
  | f1, f2, f3 => if tEqual f2 f3 then f2 else .tif [] f1 f2 f3

/-- `small`. -/
def small : Term → Bool
  | .tvar _ _ | .tconst _ _ _ => true
  | _ => false

/-- `v_copy_unused`: a variable marked as unused is kept, and any other one is
copied under a name that is new for the terms around. -/
def vCopyUnused (unused : ℕ → Bool) (vl : List VSymbol) (v : VSymbol) : VSymbol :=
  if unused v.vsName then v else ⟨freshTag vl, v.vsTy⟩

/-- `t_let_simp_keep_var`, where `unused` says which names carry the attribute
`unused_attr`. -/
def tLetSimpKeepVar (unused : ℕ → Bool) (keep : Bool) (e : Term) (v : VSymbol) (t : Term) : Term :=
  let n := t.freeVars.count v
  if n = 0 then
    if keep then .tlet [] e (vCopyUnused unused t.freeVars v) t else t
  else if n = 1 || small e then
    let t := tSubstSingle v e t
    if keep then .tlet [] e (vCopyUnused unused t.freeVars v) t else t
  else .tlet [] e v t

/-- `t_let_simp`. -/
def tLetSimp (unused : ℕ → Bool) : Term → VSymbol → Term → Term := tLetSimpKeepVar unused false

/-- `t_quant_simp`: the variables that do not occur in the formula are left out,
and the triggers with a variable that does not. -/
def tQuantSimp (q : Quant) (vl : List VSymbol) (trl : List (List Term)) (f : Term) : Term :=
  if vl.all (· ∈ f.freeVars) then tQuant q vl trl f
  else
    let vl := vl.filter (· ∈ f.freeVars)
    if vl = [] then f
    else tQuant q vl (trl.filter (fun tr => tr.all (fun t => t.freeVars.all (· ∈ f.freeVars)))) f

/-- `t_map_simp`, where `fn` is applied to the immediate subterms. -/
def tMapSimp (unused : ℕ → Bool) :
    (f : Term) → ((t : Term) → t ∈ f.children → Term) → Term
  | .tapp a p tl ty, fn =>
    tAttrCopy (.tapp a p tl ty)
      (match tl.attach.map (fun t => fn t.1 t.2) with
      | [t1, t2] => if p = psEqu then tEquSimp t1 t2 else .tapp a p [t1, t2] ty
      | tl => .tapp a p tl ty)
  | .tif a f1 f2 f3, fn =>
    tAttrCopy (.tif a f1 f2 f3)
      (tIfSimp (fn f1 (by simp [children])) (fn f2 (by simp [children]))
        (fn f3 (by simp [children])))
  | .tlet a t u t2, fn =>
    tAttrCopy (.tlet a t u t2)
      (tLetSimp unused (fn t (by simp [children])) u (fn t2 (by simp [children])))
  | .tcase a t bl, fn =>
    .tcase a (fn t mem_cons_self) (bl.attach.map (fun b =>
      (b.1.1, fn b.1.2 (mem_cons_of_mem _ (mem_map_of_mem b.2)))))
  | .teps a v f, fn => .teps a v (fn f mem_cons_self)
  | .tquant a q vl trl f1, fn =>
    tAttrCopy (.tquant a q vl trl f1)
      (tQuantSimp q vl (trl.attach.map (fun tr => tr.1.attach.map (fun t =>
        fn t.1 (mem_cons_of_mem _ (mem_flatten.mpr ⟨tr.1, tr.2, t.2⟩)))))
        (fn f1 mem_cons_self))
  | .tbinop a op f1 f2, fn =>
    tAttrCopy (.tbinop a op f1 f2)
      (tBinarySimp op (fn f1 (by simp [children])) (fn f2 (by simp [children])))
  | .tnot a f1, fn => tAttrCopy (.tnot a f1) (tNotSimp (fn f1 mem_cons_self))
  | .tvar a v, _ => .tvar a v
  | .tconst a c ty, _ => .tconst a c ty
  | .ttrue a, _ => .ttrue a
  | .tfalse a, _ => .tfalse a

/-- `t_map`, where `fn` is applied to the immediate subterms. -/
def Term.tMapMem : (t : Term) → ((u : Term) → u ∈ t.children → Term) → Term
  | .tapp a s tl ty, fn => .tapp a s (tl.attach.map (fun t => fn t.1 t.2)) ty
  | .tif a f t1 t2, fn =>
    .tif a (fn f (by simp [children])) (fn t1 (by simp [children])) (fn t2 (by simp [children]))
  | .tlet a t v e, fn => .tlet a (fn t (by simp [children])) v (fn e (by simp [children]))
  | .tcase a t bl, fn =>
    .tcase a (fn t mem_cons_self) (bl.attach.map (fun b =>
      (b.1.1, fn b.1.2 (mem_cons_of_mem _ (mem_map_of_mem b.2)))))
  | .teps a v f, fn => .teps a v (fn f mem_cons_self)
  | .tquant a q vl trl f, fn =>
    .tquant a q vl (trl.attach.map (fun tr => tr.1.attach.map (fun t =>
      fn t.1 (mem_cons_of_mem _ (mem_flatten.mpr ⟨tr.1, tr.2, t.2⟩)))))
      (fn f mem_cons_self)
  | .tbinop a op f g, fn => .tbinop a op (fn f (by simp [children])) (fn g (by simp [children]))
  | .tnot a f, fn => .tnot a (fn f mem_cons_self)
  | .tvar a v, _ => .tvar a v
  | .tconst a c ty, _ => .tconst a c ty
  | .ttrue a, _ => .ttrue a
  | .tfalse a, _ => .tfalse a

/-! ## Equations -/

section Equations

variable {sig : TySymbol → List LSymbol} {I : Interp sig} {a : Sattr} {t1 t2 : Term}

/-- The sides of an equation are terms of one type. -/
theorem wt_psEqu {tl : List Term} {ty : Option Ty} (h : (tapp a psEqu tl ty).Wt sig) :
    ty = none ∧ ∃ t1 t2 : Term, ∃ tye : Ty, tl = [t1, t2] ∧ t1.tTy = some tye ∧
      t2.tTy = some tye ∧ t1.Wt sig ∧ t2.Wt sig := by
  simp only [Wt, wtList_iff] at h
  obtain ⟨⟨m, htys, hty⟩, hwt⟩ := h
  have hlen : tl.length = 2 := by
    have := congrArg List.length htys
    simpa [psEqu] using this
  obtain ⟨t1, t2, rfl⟩ := length_eq_two.mp hlen
  simp only [map_cons, map_nil, psEqu, List.cons.injEq, and_true] at htys
  exact ⟨hty, t1, t2, _, rfl, htys.1, htys.2, hwt t1 (by simp), hwt t2 (by simp)⟩

theorem wt_tEqu {tye : Ty} (h1 : t1.tTy = some tye) (h2 : t2.tTy = some tye) (w1 : t1.Wt sig)
    (w2 : t2.Wt sig) : (tEqu t1 t2).Wt sig := by
  simp only [tEqu, Wt, wtList_iff, map_cons, map_nil, h1, h2]
  refine ⟨⟨[(⟨7⟩, tye)], rfl, rfl⟩, ?_⟩
  intro t ht
  rcases mem_pair.mp ht with rfl | rfl
  · exact w1
  · exact w2

@[simp] theorem Interp.holds_tEqu (ρ : I.Env) :
    I.Holds ρ (tEqu t1 t2) ↔ I.eval ρ t1 = I.eval ρ t2 :=
  I.holds_equ ρ [] t1 t2 none

theorem Interp.equiv_tEquSimp (hlit : I.LitExt) {tye : Ty} (h1 : t1.tTy = some tye)
    (h2 : t2.tTy = some tye) (w1 : t1.Wt sig) (w2 : t2.Wt sig) :
    I.Equiv (tEqu t1 t2) (tEquSimp t1 t2) := by
  unfold tEquSimp
  split_ifs with h
  · refine .of_formula rfl trivial rfl (fun {ρ} _ => ?_)
    have hsem := I.sem_tEqual hlit w1 w2 h ρ
    rw [I.holds_ttrue, I.holds_tEqu, Interp.eval, Interp.eval, hsem]
    simp
  · exact .refl (wt_tEqu h1 h2 w1 w2)

theorem Interp.holds_tQuant (ρ : I.Env) (q : Quant) (vl : List VSymbol) (trl : List (List Term))
    (f : Term) : I.Holds ρ (tQuant q vl trl f) ↔ I.quant q vl (fun ρ => I.Holds ρ f) ρ := by
  unfold tQuant
  split_ifs with h
  · subst h
    cases q <;> exact .rfl
  · exact .rfl

theorem wt_tQuant (hf : f.Wt sig) (hty : f.tTy = none) :
    (tQuant q vl [] f).Wt sig ∧ (tQuant q vl [] f).tTy = none := by
  unfold tQuant
  split_ifs
  · exact ⟨hf, hty⟩
  · exact ⟨⟨hty, trivial, hf⟩, rfl⟩

end Equations

section Simp

variable {sig : TySymbol → List LSymbol} {I : Interp sig}

theorem Interp.holds_tEqual (hlit : I.LitExt) (w1 : f1.Wt sig) (w2 : f2.Wt sig)
    (h : tEqual f1 f2 = true) (ρ : I.Env) : I.Holds ρ f1 ↔ I.Holds ρ f2 := by
  rw [Interp.Holds, Interp.Holds, I.sem_tEqual hlit w1 w2 h]

theorem Interp.equiv_tNotSimp (w : f.Wt sig) (h : f.tTy = none) :
    I.Equiv (.tnot [] f) (tNotSimp f) := by
  unfold tNotSimp
  split
  · exact .of_formula rfl trivial rfl (fun _ => by simp [tAttrCopy, Term.setAttrs])
  · exact .of_formula rfl trivial rfl (fun _ => by simp [tAttrCopy, Term.setAttrs])
  · next a g =>
      rw [equiv_tAttrCopy]
      exact .of_formula rfl w.2 w.1 (fun _ => by simp)
  · exact .refl ⟨h, w⟩

section Binary

variable (hlit : I.LitExt) (w1 : f1.Wt sig) (w2 : f2.Wt sig)
variable (h1 : f1.tTy = none) (h2 : f2.tTy = none)

include hlit w1 w2 h1 h2

theorem Interp.equiv_tAndSimp :
    I.Equiv (.tbinop [] .tand f1 f2) (tAndSimp f1 f2) := by
  unfold tAndSimp
  split
  · exact .of_formula rfl w2 h2 (fun _ => by simp [tr])
  · exact equiv_setAttrs.mpr (.of_formula rfl w1 h1 (fun _ => by simp [tr]))
  · exact .of_formula rfl trivial rfl (fun _ => by simp [tr, tAttrRemove, Term.setAttrs])
  · exact .of_formula rfl trivial rfl (fun _ => by simp [tr])
  · split_ifs with heq
    · refine .of_formula rfl w1 h1 (fun {ρ} _ => ?_)
      simp [tr, I.holds_tEqual hlit w1 w2 heq ρ]
    · exact .refl ⟨h1, h2, w1, w2⟩

theorem Interp.equiv_tAndAsymSimp :
    I.Equiv (.tbinop [] .tand f1 f2) (tAndAsymSimp f1 f2) := by
  unfold tAndAsymSimp
  split
  · exact .of_formula rfl w2 h2 (fun _ => by simp [tr])
  · exact equiv_setAttrs.mpr (.of_formula rfl w1 h1 (fun _ => by simp [tr]))
  · exact .of_formula rfl trivial rfl (fun _ => by simp [tr, tAttrRemove, Term.setAttrs])
  · exact .of_formula rfl trivial rfl (fun _ => by simp [tr])
  · split_ifs with heq
    · refine .of_formula rfl w1 h1 (fun {ρ} _ => ?_)
      simp [tr, I.holds_tEqual hlit w1 w2 heq ρ]
    · refine .of_formula rfl ⟨by simpa [tAttrAdd] using h1, h2, by simpa [tAttrAdd] using w1, w2⟩
        rfl (fun _ => by simp [tr, tAndAsym, tAttrAdd])

theorem Interp.equiv_tOrSimp :
    I.Equiv (.tbinop [] .tor f1 f2) (tOrSimp f1 f2) := by
  have hwt : (tbinop [] .tor f1 f2).Wt sig := ⟨h1, h2, w1, w2⟩
  unfold tOrSimp
  split
  · exact .of_formula rfl trivial rfl (fun _ => by simp [tr, tAttrRemove, Term.setAttrs])
  · exact .of_formula rfl trivial rfl (fun _ => by simp [tr])
  · exact .of_formula rfl w2 h2 (fun _ => by simp [tr])
  · exact equiv_setAttrs.mpr (.of_formula rfl w1 h1 (fun _ => by simp [tr]))
  · split_ifs with heq
    · refine .of_formula rfl w1 h1 (fun {ρ} _ => ?_)
      simp [tr, I.holds_tEqual hlit w1 w2 heq ρ]
    · exact .refl hwt

theorem Interp.equiv_tImpliesSimp :
    I.Equiv (.tbinop [] .timplies f1 f2) (tImpliesSimp f1 f2) := by
  have hwt : (tbinop [] .timplies f1 f2).Wt sig := ⟨h1, h2, w1, w2⟩
  unfold tImpliesSimp
  split
  · exact .of_formula rfl w2 h2 (fun _ => by simp [tr])
  · exact .of_formula rfl trivial rfl (fun _ => by simp [tr])
  · exact .of_formula rfl trivial rfl (fun _ => by simp [tr, tAttrCopy, Term.setAttrs])
  · refine .trans ?_ (equiv_tNotSimp w1 h1)
    exact .of_formula rfl ⟨h1, w1⟩ rfl (fun _ => by simp [tr])
  · split_ifs with heq
    · refine .of_formula rfl trivial rfl (fun {ρ} _ => ?_)
      simp [tr, tAttrCopy, Term.setAttrs, I.holds_tEqual hlit w1 w2 heq ρ]
    · exact .refl hwt

theorem Interp.equiv_tIffSimp :
    I.Equiv (.tbinop [] .tiff f1 f2) (tIffSimp f1 f2) := by
  have hwt : (tbinop [] .tiff f1 f2).Wt sig := ⟨h1, h2, w1, w2⟩
  unfold tIffSimp
  split
  · exact .of_formula rfl w2 h2 (fun _ => by simp [tr])
  · exact .of_formula rfl w1 h1 (fun _ => by simp [tr])
  · refine .trans ?_ (equiv_tNotSimp w2 h2)
    exact .of_formula rfl ⟨h2, w2⟩ rfl (fun _ => by simp [tr])
  · refine .trans ?_ (equiv_tNotSimp w1 h1)
    exact .of_formula rfl ⟨h1, w1⟩ rfl (fun _ => by simp [tr])
  · split_ifs with heq
    · refine .of_formula rfl trivial rfl (fun {ρ} _ => ?_)
      simp [tr, tAttrCopy, Term.setAttrs, I.holds_tEqual hlit w1 w2 heq ρ]
    · exact .refl hwt

theorem Interp.equiv_tBinarySimp (op : Binop) :
    I.Equiv (.tbinop [] op f1 f2) (tBinarySimp op f1 f2) := by
  cases op with
  | tand => exact equiv_tAndSimp hlit w1 w2 h1 h2
  | tor => exact equiv_tOrSimp hlit w1 w2 h1 h2
  | timplies => exact equiv_tImpliesSimp hlit w1 w2 h1 h2
  | tiff => exact equiv_tIffSimp hlit w1 w2 h1 h2

end Binary

/-- The conditional, in the cases where it becomes a connective. -/
theorem Interp.equiv_tIfSimp (hlit : I.LitExt) {f3 : Term} (w1 : f1.Wt sig) (w2 : f2.Wt sig)
    (w3 : f3.Wt sig) (h1 : f1.tTy = none) (h23 : f2.tTy = f3.tTy) :
    I.Equiv (.tif [] f1 f2 f3) (tIfSimp f1 f2 f3) := by
  have hwt : (tif [] f1 f2 f3).Wt sig := ⟨h1, h23, w1, w2, w3⟩
  have hnot : I.Equiv (.tnot [] f1) (tNotSimp f1) := equiv_tNotSimp w1 h1
  unfold tIfSimp
  split
  · refine .of_sem w2 h23 (fun {ρ} _ => ?_)
    rw [sem_tif, if_pos (by simp)]
    exact ⟨fun _ => rfl, fun _ => .rfl⟩
  · refine .of_sem w3 rfl (fun {ρ} _ => ?_)
    rw [sem_tif, if_neg (by simp)]
    exact ⟨fun _ => rfl, fun _ => .rfl⟩
  · have h3 := h23.symm
    refine .trans ?_ (equiv_tImpliesSimp hlit hnot.wt w3 (hnot.ty.trans rfl) h3)
    refine .of_formula h3 ⟨hnot.ty, h3, hnot.wt, w3⟩ rfl (fun hρ => ?_)
    simp [tr, hnot.tr hρ rfl]
  · have h3 := h23.symm
    refine .trans ?_ (equiv_tAndAsymSimp hlit hnot.wt w3 (hnot.ty.trans rfl) h3)
    refine .of_formula h3 ⟨hnot.ty, h3, hnot.wt, w3⟩ rfl (fun {ρ} hρ => ?_)
    by_cases hc : I.Holds ρ f1 <;> simp [tr, hnot.tr hρ rfl, hc]
  · refine .trans ?_ (equiv_tImpliesSimp hlit w1 w2 h1 h23)
    exact .of_formula rfl ⟨h1, h23, w1, w2⟩ rfl (fun _ => by simp [tr])
  · refine .trans ?_ (equiv_tAndAsymSimp hlit w1 w2 h1 h23)
    refine .of_formula rfl ⟨h1, h23, w1, w2⟩ rfl (fun {ρ} _ => ?_)
    by_cases hc : I.Holds ρ f1 <;> simp [tr, hc]
  · split_ifs with heq
    · refine .of_sem w2 h23 (fun {ρ} _ => ?_)
      have hsem : I.sem (.tif [] f1 f2 f3) ρ = I.sem f2 ρ := by
        rw [sem_tif, I.sem_tEqual hlit w2 w3 heq, ite_self]
      rw [hsem]
      exact ⟨fun _ => rfl, fun _ => .rfl⟩
    · exact .refl hwt

end Simp

/-! ## Binders -/

section Binders

variable {sig : TySymbol → List LSymbol} {I : Interp sig}

theorem freshTag_notMem (vl : List VSymbol) (ty : Ty) : (⟨freshTag vl, ty⟩ : VSymbol) ∉ vl :=
  fun h => absurd (lt_freshTag h) (lt_irrefl _)

theorem Interp.sem_update_of_notMem (hwt : t.Wt sig) (h : v ∉ t.freeVars) (ρ : I.Env) (d : I.Val) :
    I.sem t (update ρ v d) = I.sem t ρ := by
  refine sem_congr hwt (fun w hw => ?_)
  rw [update_of_ne]
  rintro rfl
  exact h hw

/-- A binding of a variable that does not occur, kept or not. -/
theorem Interp.equiv_tlet_unused (keep : Bool) (he : e.Wt sig) (hty : e.tTy = some v.vsTy)
    (ht : t.Wt sig) (hv : v ∉ t.freeVars) : I.Equiv t (if keep then .tlet [] e v t else t) := by
  split_ifs
  · refine .of_sem ⟨hty, he, ht⟩ rfl (fun {ρ} _ => ?_)
    rw [sem_tlet, sem_update_of_notMem ht hv]
    exact ⟨fun _ => rfl, fun _ => .rfl⟩
  · exact .refl ht

theorem mem_freeVars_tSubstSingle {w : VSymbol} (h : w ∈ (tSubstSingle v e t).freeVars) :
    w ∈ e.freeVars ∨ (w ∈ t.freeVars ∧ w ≠ v) := by
  obtain ⟨u, hu, hw⟩ := mem_freeVars_subst h
  by_cases huv : u = v
  · rw [huv, Mvs.get_cons_self] at hw
    exact .inl hw
  · rw [Mvs.get_cons_of_ne huv] at hw
    obtain rfl := mem_singleton.mp hw
    exact .inr ⟨hu, huv⟩

theorem Interp.equiv_tLetSimpKeepVar {unused : ℕ → Bool} {keep : Bool}
    (hkeep : keep = true → unused v.vsName = false ∨ v ∉ e.freeVars)
    (hwt : (tlet [] e v t).Wt sig) :
    I.Equiv (.tlet [] e v t) (tLetSimpKeepVar unused keep e v t) := by
  obtain ⟨hty, he, ht⟩ := hwt
  -- a binding that is kept gets a name that does not occur
  have hcopy : ∀ u : Term, u.Wt sig → (v ∈ u.freeVars → v ∈ e.freeVars) →
      I.Equiv u (if keep then .tlet [] e (vCopyUnused unused u.freeVars v) u else u) := by
    intro u hu hve
    cases keep with
    | false => exact .refl hu
    | true =>
      rw [vCopyUnused]
      by_cases hunused : unused v.vsName = true
      · have hv := (hkeep rfl).resolve_left (by simp [hunused])
        rw [if_pos hunused]
        exact equiv_tlet_unused true he hty hu (fun hmem => hv (hve hmem))
      · rw [if_neg hunused]
        exact equiv_tlet_unused true he hty hu (freshTag_notMem _ _)
  simp only [tLetSimpKeepVar]
  by_cases hn : t.freeVars.count v = 0
  · rw [if_pos hn]
    refine .trans ?_ (hcopy t ht fun hmem => absurd hmem (count_eq_zero.mp hn))
    refine .of_sem ht rfl (fun {ρ} _ => ?_)
    rw [sem_tlet, sem_update_of_notMem ht (count_eq_zero.mp hn)]
    exact ⟨fun _ => rfl, fun _ => .rfl⟩
  by_cases hsmall : (decide (t.freeVars.count v = 1) || small e) = true
  · rw [if_neg hn, if_pos hsmall]
    refine .trans ?_ (hcopy _ (wt_tSubstSingle he hty ht) fun hmem =>
      (mem_freeVars_tSubstSingle hmem).resolve_right fun h => h.2 rfl)
    refine .of_sem (wt_tSubstSingle he hty ht) (tTy_tSubstSingle he hty) (fun {ρ} _ => ?_)
    have hsame := sem_tSubstSingle he hty ht ρ
    rw [sem_tlet]
    exact ⟨fun _ => hsame.1, hsame.2⟩
  · rw [if_neg hn, if_neg hsmall]
    exact .refl ⟨hty, he, ht⟩

/-- A variable that does not occur is dropped. -/
theorem Interp.quant_unused {vs : VSymbol} {vsl : List VSymbol} (hwt : f.Wt sig)
    (h : vs ∉ f.freeVars) (ρ : I.Env) :
    I.quant q vsl (fun ρ => I.Holds ρ f) ρ ↔ I.quant q (vs :: vsl) (fun ρ => I.Holds ρ f) ρ := by
  have hstep : ∀ d, I.quant q vsl (fun ρ => I.Holds ρ f) (update ρ vs d) ↔
      I.quant q vsl (fun ρ => I.Holds ρ f) ρ := by
    intro d
    refine quant_congr (F := f.freeVars) (fun ρ ρ' hρ => holds_congr hwt hρ) ?_
    intro w hw _
    rw [update_of_ne]
    rintro rfl
    exact h hw
  have hd := I.dflt_mem vs.vsTy
  cases q with
  | tforall => exact ⟨fun hq d _ => (hstep d).mpr hq, fun hq => (hstep _).mp (hq _ hd)⟩
  | texists => exact ⟨fun hq => ⟨_, hd, (hstep _).mpr hq⟩, fun ⟨d, _, hq⟩ => (hstep d).mp hq⟩

/-- The variables that do not occur are dropped. -/
theorem Interp.quant_filter (hwt : f.Wt sig) :
    ∀ ρ : I.Env, I.quant q (vl.filter (· ∈ f.freeVars)) (fun ρ => I.Holds ρ f) ρ ↔
      I.quant q vl (fun ρ => I.Holds ρ f) ρ := by
  induction vl with
  | nil => exact fun _ => .rfl
  | cons v vl ih =>
    intro ρ
    by_cases hv : v ∈ f.freeVars
    · rw [filter_cons_of_pos (by simpa using hv)]
      cases q with
      | tforall => exact forall_congr' fun d => imp_congr_right fun _ => ih _
      | texists => exact exists_congr fun d => and_congr_right fun _ => ih _
    · rw [filter_cons_of_neg (by simpa using hv), ih ρ]
      exact quant_unused hwt hv ρ

theorem Interp.equiv_tQuantSimp {trl : List (List Term)} (hwt : (tquant [] q vl trl f).Wt sig) :
    I.Equiv (.tquant [] q vl trl f) (tQuantSimp q vl trl f) := by
  obtain ⟨hty, htrl, hf⟩ := hwt
  rw [wtTriggers_iff] at htrl
  -- what `t_quant` makes of some of the triggers
  have hquant : ∀ vl' trl', (∀ tr ∈ trl', tr ∈ trl) →
      (tQuant q vl' trl' f).Wt sig ∧ (tQuant q vl' trl' f).tTy = none := by
    intro vl' trl' hsub
    unfold tQuant
    split_ifs
    · exact ⟨hf, hty⟩
    · refine ⟨⟨hty, ?_, hf⟩, rfl⟩
      rw [wtTriggers_iff]
      exact fun tr htr => htrl tr (hsub tr htr)
  simp only [tQuantSimp]
  split_ifs with hall hnil
  · obtain ⟨hwt', hty'⟩ := hquant vl trl (fun _ h => h)
    refine .of_formula rfl hwt' hty' (fun {ρ} _ => ?_)
    rw [holds_tQuant, holds_tquant]
  · refine .of_formula rfl hf hty (fun {ρ} _ => ?_)
    rw [holds_tquant, ← quant_filter hf, hnil]
    cases q <;> exact .rfl
  · obtain ⟨hwt', hty'⟩ := hquant (vl.filter (· ∈ f.freeVars)) _
      (fun tr htr => (mem_filter.mp htr).1)
    refine .of_formula rfl hwt' hty' (fun {ρ} _ => ?_)
    rw [holds_tQuant, holds_tquant, quant_filter hf]

end Binders

/-! ## Traversal -/

section Traversal

variable {sig : TySymbol → List LSymbol} {I : Interp sig} {g : Term → Term}

theorem Interp.equiv_tMapSimp (hlit : I.LitExt) {unused : ℕ → Bool} (hwt : (t.tMap g).Wt sig) :
    I.Equiv (t.tMap g) (tMapSimp unused t (fun u _ => g u)) := by
  cases t with
  | tvar a v | tconst a c ty | teps a v f | ttrue a | tfalse a => exact .refl hwt
  | tapp a s tl ty =>
    have hmap : tl.attach.map (fun t => g t.1) = tl.map g := by simp
    simp only [tMapSimp, hmap, equiv_tAttrCopy]
    simp only [Term.tMap] at hwt ⊢
    split
    · next t1 t2 htl =>
        rw [htl] at hwt ⊢
        split_ifs with hs
        · subst hs
          obtain ⟨rfl, t1', t2', tye, htl', h1, h2, w1, w2⟩ := wt_psEqu hwt
          obtain ⟨rfl, rfl⟩ : t1 = t1' ∧ t2 = t2' := by simpa using htl'
          refine .trans ?_ (equiv_tEquSimp hlit h1 h2 w1 w2)
          exact .of_formula rfl (wt_tEqu h1 h2 w1 w2) rfl (fun _ => by simp)
        · exact .refl hwt
    · exact .refl hwt
  | tif a f t1 t2 =>
    obtain ⟨hfty, h12, wf, w1, w2⟩ := hwt
    rw [tMapSimp, equiv_tAttrCopy]
    exact (equiv_tIfSimp hlit wf w1 w2 hfty h12).attrs a
  | tlet a t v e =>
    rw [tMapSimp, equiv_tAttrCopy]
    exact (equiv_tLetSimpKeepVar (fun h => absurd h Bool.false_ne_true) hwt).attrs a
  | tcase a t bl =>
    have hmap : bl.attach.map (fun b => (b.1.1, g b.1.2)) = bl.map (fun b => (b.1, g b.2)) :=
      attach_map_val (f := fun b : Pattern × Term => (b.1, g b.2))
    rw [tMapSimp, hmap]
    exact .refl hwt
  | tquant a q vl trl f =>
    have hmap : trl.attach.map (fun tr => tr.1.attach.map (fun t => g t.1)) =
        trl.map (List.map g) := by simp
    rw [tMapSimp, equiv_tAttrCopy, hmap]
    exact (equiv_tQuantSimp hwt).attrs a
  | tbinop a op f1 f2 =>
    obtain ⟨h1, h2, w1, w2⟩ := hwt
    rw [tMapSimp, equiv_tAttrCopy]
    exact (equiv_tBinarySimp hlit w1 w2 h1 h2 op).attrs a
  | tnot a f =>
    rw [tMapSimp, equiv_tAttrCopy]
    exact (equiv_tNotSimp hwt.2 hwt.1).attrs a

end Traversal

end Why3
