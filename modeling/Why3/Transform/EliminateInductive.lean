import Why3.Core.Inductive
import Why3.Transform.RemoveQuant

/-!
# Elimination of inductive predicates

`transform/eliminate_inductive.ml`: an inductive declaration is replaced by the
declarations of its predicates, its clauses as axioms, and an inversion axiom
for each predicate, which says that the predicate holds only where one of its
clauses concludes it.
-/

namespace Why3.EliminateInductive

open PropKind

inductive ElimExn
  | decl (e : DeclExn)
  | assertFalse
  | invalidArgument

/-- An exception of `core/decl.ml`. -/
def ofDecl {α : Type} : Except DeclExn α → Except ElimExn α
  | .ok x => .ok x
  | .error e => .error (.decl e)

abbrev IndDecl := LSymbol × List (PrSymbol × Term)

def log (acc : List Decl) (id : IndDecl) : Except ElimExn (List Decl) := do
  .ok ((← ofDecl (createParamDecl id.1)) :: acc)

def axm (acc : List Decl) (ax : PrSymbol × Term) : Except ElimExn (List Decl) := do
  .ok ((← ofDecl (createPropDecl paxiom ax.1 ax.2)) :: acc)

def imp (acc : List Decl) (id : IndDecl) : Except ElimExn (List Decl) := id.2.foldlM axm acc

/-- `List.fold_left2 marry`. -/
def marry (acc : Term) : List Term → List Term → Except ElimExn Term
  | [], [] => .ok acc
  | v :: vl, t :: tl => marry (tAndSimp acc (tEqu v t)) vl tl
  | _, _ => .error .invalidArgument

/-- `exi`: the clause concludes with the arguments `vl`. -/
def exi (vl : List Term) : Term → Except ElimExn Term
  | .tquant _ .tforall vs trl f => do .ok (tQuant .texists vs trl (← exi vl f))
  | .tbinop _ .timplies g f => do .ok (.tbinop [] .tand g (← exi vl f))
  | .tapp _ _ tl _ => marry (.ttrue []) vl tl
  | .tlet _ t v f => do .ok (.tlet [] t v (← exi vl f))
  | _ => .error .assertFalse

/-- `Lists.map_join_left (exi tl) t_or`. -/
def joinOr (vl : List Term) : List (PrSymbol × Term) → Except ElimExn Term
  | [] => .error .invalidArgument
  | ax :: al => do
    al.foldlM (fun acc ax => do .ok (.tbinop [] .tor acc (← exi vl ax.2))) (← exi vl ax.2)

/-- Fresh variables of the types `tyl`, from the tag `k` on. -/
def createVsymbols (k : ℕ) : List Ty → List VSymbol
  | [] => []
  | ty :: tyl => ⟨k, ty⟩ :: createVsymbols (k + 1) tyl

/-- The inversion axiom of a predicate; the tags from `k` on are free. -/
def inversion (k : ℕ) (id : IndDecl) : Except ElimExn Term := do
  let vl := createVsymbols k id.1.lsArgs
  let tl := vl.map (Term.tvar [])
  let hd := Term.tapp [] id.1 tl none
  let dj ← joinOr tl id.2
  let hsdj := SimplifyFormula.fmlaRemoveQuant false (fun _ => false) (.tbinop [] .timplies hd dj)
  .ok (tQuant .tforall vl [] hsdj)

/-- `inv`, with the next free tag. -/
def inv (acc : ℕ × List Decl) (id : IndDecl) : Except ElimExn (ℕ × List Decl) := do
  let ax ← inversion acc.1 id
  let k := acc.1 + id.1.lsArgs.length
  .ok (k + 1, (← ofDecl (createPropDecl paxiom ⟨k⟩ ax)) :: acc.2)

/-- `elim`. -/
def elim (k : ℕ) (d : Decl) : Except ElimExn (List Decl) :=
  match d.dNode with
  | .dind _ il => do
    let dl ← il.foldlM log []
    let dl ← il.foldlM imp dl
    let (_, dl) ← il.foldlM inv (k, dl)
    .ok dl.reverse
  | _ => .ok [d]

end Why3.EliminateInductive

/-!
# The axioms of an inductive declaration hold at its fixed point

The clauses hold because the predicates are closed under them, the inversion
axioms because nothing else is derived.  A clause is used at any instance of its
type variables while an inversion axiom is stated at the instance of the
predicate, so that the latter needs the type variables of the clauses to be
among those of the predicate.
-/

namespace Why3.EliminateInductive

open PropKind List Term Interp SimplifyFormula

variable {sig : TySymbol → List LSymbol}

/-! ## Clauses and their meaning -/

/-- The variables that a clause binds above its conclusion. -/
def clauseVars : Term → List VSymbol
  | .tquant _ .tforall vl _ f => vl ++ clauseVars f
  | .tbinop _ .timplies _ f => clauseVars f
  | .tlet _ _ v f => v :: clauseVars f
  | _ => []

section Fires

variable {I : Interp sig} {vl : List VSymbol}

theorem quant_forall_of {Q : I.Env → Prop} (h : ∀ ρ, I.Typed ρ → Q ρ) :
    ∀ {ρ : I.Env}, I.Typed ρ → I.quant .tforall vl Q ρ := by
  induction vl with
  | nil => exact fun hρ => h _ hρ
  | cons v vl ih => exact fun hρ d hd => ih (Interp.typed_update hρ hd)

theorem quant_exists_iff {Q : I.Env → Prop} {ρ : I.Env} (hρ : I.Typed ρ) : I.quant .texists vl Q ρ ↔
      ∃ ρ', I.Typed ρ' ∧ SimplifyFormula.AgreeOff vl ρ ρ' ∧ Q ρ' := by
  have h : SimplifyFormula.Sat (decide (Quant.texists = .texists)) (I.quant .texists vl Q ρ) ↔ _ :=
    SimplifyFormula.sat_quant hρ
  simpa [SimplifyFormula.Sat] using h

/-- What a clause concludes for some values of its variables. -/
theorem quant_forall_of_exists {A : I.Env → List I.Val → Prop} {B : List I.Val → Prop}
    {H : I.Env → Prop} (hA : ∀ ρ, (∀ dl, A ρ dl → B dl) → H ρ) : ∀ {ρ : I.Env},
      (∀ dl, I.quant .texists vl (fun ρ => A ρ dl) ρ → B dl) → I.quant .tforall vl H ρ := by
  induction vl with
  | nil => exact fun h => hA _ h
  | cons v vl ih => exact fun h d hd => ih (fun dl hq => h dl ⟨d, hd, hq⟩)

/-- A clause depends on its free variables only. -/
theorem fires_congr {f : Term} : f.Wt sig → ∀ {ρ ρ' : I.Env} {dl : List I.Val},
    (∀ v ∈ f.freeVars, ρ v = ρ' v) → (I.Fires f ρ dl ↔ I.Fires f ρ' dl) := by
  induction f with
  | tquant a q vl trl f _ ih =>
    intro hwt ρ ρ' dl h
    cases q with
    | tforall =>
      simp only [Fires]
      refine quant_congr (F := f.freeVars) (fun ρ ρ' hρ => ih hwt.2.2 hρ) ?_
      exact fun v hv hvl => h v (mem_freeVars_tquant hv hvl)
    | texists => simp [Fires]
  | tbinop a op g f _ ih =>
    intro hwt ρ ρ' dl h
    simp only [freeVars, mem_append] at h
    cases op with
    | timplies =>
      simp only [Fires]
      exact and_congr (holds_congr hwt.2.2.1 (fun v hv => h v (.inl hv)))
        (ih hwt.2.2.2 (fun v hv => h v (.inr hv)))
    | _ => simp [Fires]
  | tlet a t v f _ ih =>
    intro hwt ρ ρ' dl h
    simp only [freeVars, mem_append, mem_filter, decide_eq_true_eq] at h
    simp only [Fires]
    refine ih hwt.2.2 (fun w hw => update_agree ?_ (fun hne => h w (.inr ⟨hw, hne⟩)))
    exact Interp.eval_congr hwt.2.1 (fun w hw => h w (.inl hw))
  | tapp a s tl ty _ =>
    intro hwt ρ ρ' dl h
    simp only [Wt, wtList_iff] at hwt
    simp only [Fires]
    rw [map_congr_left (fun t ht =>
      Interp.eval_congr (hwt.2 t ht) (fun v hv => h v (mem_freeVars_tapp ht hv)))]
  | _ =>
    intro _ ρ ρ' dl _
    simp [Fires]

end Fires

/-! ## What a clause concludes, as a formula -/

variable {al : List (PrSymbol × Term)}

section Exi

variable {I : Interp sig} {sps : List LSymbol} {ps : LSymbol}

/-- The formula `g` says `Q` of the typed valuations. -/
structure Says (I : Interp sig) (g : Term) (Q : I.Env → Prop) : Prop where
  wt : g.Wt sig
  formula : g.tTy = none
  iff : ∀ {ρ : I.Env}, I.Typed ρ → (I.Holds ρ g ↔ Q ρ)

theorem says_marry (hlit : I.LitExt) {vl : List Term} : ∀ {acc g : Term} {tl : List Term}
    {Q : I.Env → Prop}, Says I acc Q → (∀ t ∈ vl, t.Wt sig) → (∀ t ∈ tl, t.Wt sig) →
      (∃ tys : List Ty, vl.map tTy = tys.map some ∧ tl.map tTy = tys.map some) →
      marry acc vl tl = .ok g →
      Says I g (fun ρ => Q ρ ∧ tl.map (I.eval ρ) = vl.map (I.eval ρ)) := by
  induction vl with
  | nil =>
    intro acc g tl Q hacc _ _ _ h
    cases tl with
    | nil =>
      rw [marry] at h
      cases h
      exact ⟨hacc.wt, hacc.formula, fun hρ => by simpa using hacc.iff hρ⟩
    | cons t tl => simp [marry] at h
  | cons v vl ih =>
    intro acc g tl Q hacc hvl htl htys h
    cases tl with
    | nil => simp [marry] at h
    | cons t tl =>
      rw [marry] at h
      rw [forall_mem_cons] at hvl htl
      obtain ⟨tys, htv, htt⟩ := htys
      cases tys with
      | nil => simp at htv
      | cons ty tys =>
        simp only [map_cons, List.cons.injEq] at htv htt
        have hand := I.equiv_tAndSimp hlit hacc.wt (wt_tEqu htv.1 htt.1 hvl.1 htl.1)
          hacc.formula rfl
        have hstep : Says I (tAndSimp acc (tEqu v t))
            (fun ρ => Q ρ ∧ I.eval ρ v = I.eval ρ t) := by
          refine ⟨hand.wt, hand.ty, fun {ρ} hρ => ?_⟩
          rw [hand.tr hρ rfl, I.holds_tbinop, Binop.tr, hacc.iff hρ, I.holds_tEqu]
        have hrec := ih hstep hvl.2 htl.2 ⟨tys, htv.2, htt.2⟩ h
        refine ⟨hrec.wt, hrec.formula, fun {ρ} hρ => ?_⟩
        rw [hrec.iff hρ, map_cons, map_cons, List.cons.injEq, and_assoc]
        exact and_congr_right fun _ => and_congr_left fun _ => eq_comm

theorem says_exi (hlit : I.LitExt) {zs : List VSymbol} (hzs : zs.map VSymbol.vsTy = ps.lsArgs)
    {f : Term} : ∀ {g : Term}, f.Wt sig → IsClause sps ps f → (∀ v ∈ clauseVars f, v ∉ zs) →
      exi (zs.map (tvar [])) f = .ok g → Says I g (fun ρ => I.Fires f ρ (zs.map ρ)) := by
  induction f with
  | tquant a q vl trl f _ ih =>
    intro g hwt hc hvars h
    cases q with
    | tforall =>
      rw [clauseVars, forall_mem_append] at hvars
      rw [exi] at h
      obtain ⟨g', hg', h⟩ := Checks.bind_eq_ok.mp h
      cases h
      have hsub := ih hwt.2.2 hc hvars.2 hg'
      refine ⟨?_, ?_, fun {ρ} hρ => ?_⟩
      · unfold tQuant
        split_ifs
        · exact hsub.wt
        · exact ⟨hsub.formula, hwt.2.1, hsub.wt⟩
      · unfold tQuant
        split_ifs
        · exact hsub.formula
        · rfl
      · rw [I.holds_tQuant]
        simp only [Fires]
        rw [quant_exists_iff hρ, quant_exists_iff hρ]
        refine exists_congr fun ρ' => and_congr_right fun hρ' => and_congr_right fun hag => ?_
        -- the variables of the inversion axiom keep their values
        have hkeep : zs.map ρ' = zs.map ρ := by
          refine map_congr_left (fun z hz => hag z (fun hmem => ?_))
          exact hvars.1 z hmem hz
        rw [hsub.iff hρ', hkeep]
    | texists => exact absurd hc (by simp [IsClause])
  | tbinop a op g f _ ih =>
    intro g' hwt hc hvars h
    cases op with
    | timplies =>
      rw [exi] at h
      obtain ⟨f', hf', h⟩ := Checks.bind_eq_ok.mp h
      cases h
      have hsub := ih hwt.2.2.2 hc.2 hvars hf'
      refine ⟨⟨hwt.1, hsub.formula, hwt.2.2.1, hsub.wt⟩, rfl, fun {ρ} hρ => ?_⟩
      rw [I.holds_tbinop, Binop.tr, hsub.iff hρ]
      exact .rfl
    | _ => exact absurd hc (by simp [IsClause])
  | tlet a t v f _ ih =>
    intro g hwt hc hvars h
    rw [clauseVars, forall_mem_cons] at hvars
    rw [exi] at h
    obtain ⟨f', hf', h⟩ := Checks.bind_eq_ok.mp h
    cases h
    have hsub := ih hwt.2.2 hc.2 hvars.2 hf'
    refine ⟨⟨hwt.1, hwt.2.1, hsub.wt⟩, hsub.formula, fun {ρ} hρ => ?_⟩
    have hkeep : zs.map (Function.update ρ v (I.eval ρ t)) = zs.map ρ := by
      refine map_congr_left (fun z hz => ?_)
      rw [Function.update_of_ne]
      rintro rfl
      exact hvars.1 hz
    rw [I.holds_tlet, hsub.iff (Interp.typed_update hρ (eval_mem hwt.2.1 hwt.1 hρ)), hkeep]
    exact .rfl
  | tapp a s tl ty _ =>
    intro g hwt hc _ h
    obtain ⟨rfl, hty, _⟩ := hc
    rw [exi] at h
    simp only [Wt, wtList_iff] at hwt
    have htrue : Says I (.ttrue []) (fun _ => True) :=
      ⟨trivial, rfl, fun {ρ} _ => I.holds_ttrue ρ []⟩
    have htys : (zs.map (tvar [])).map tTy = s.lsArgs.map some := by
      rw [← hzs, map_map, map_map]
      rfl
    have hzwt : ∀ t ∈ zs.map (tvar []), t.Wt sig := by
      intro t ht
      obtain ⟨z, _, rfl⟩ := mem_map.mp ht
      trivial
    have hm := says_marry hlit htrue hzwt hwt.2 ⟨s.lsArgs, htys, hty⟩ h
    refine ⟨hm.wt, hm.formula, fun {ρ} hρ => ?_⟩
    rw [hm.iff hρ, true_and, map_map]
    exact .rfl
  | _ => exact fun _ hc => absurd hc (by simp [IsClause])

/-- The disjunction of the clauses. -/
theorem says_joinOr (hlit : I.LitExt) {zs : List VSymbol} (hzs : zs.map VSymbol.vsTy = ps.lsArgs)
    (hwt : ∀ ax ∈ al, ax.2.Wt sig)
    (hc : ∀ ax ∈ al, IsClause sps ps ax.2) (hvars : ∀ ax ∈ al, ∀ v ∈ clauseVars ax.2, v ∉ zs)
    {g : Term} (h : joinOr (zs.map (tvar [])) al = .ok g) :
    Says I g (fun ρ => ∃ ax ∈ al, I.Fires ax.2 ρ (zs.map ρ)) := by
  -- the clauses already joined, and those to come
  have hfold : ∀ (al : List (PrSymbol × Term)), (∀ ax ∈ al, ax.2.Wt sig) →
      (∀ ax ∈ al, IsClause sps ps ax.2) → (∀ ax ∈ al, ∀ v ∈ clauseVars ax.2, v ∉ zs) →
      ∀ (acc g : Term) (Q : I.Env → Prop), Says I acc Q →
      al.foldlM (fun acc ax => do
        .ok (.tbinop [] .tor acc (← exi (zs.map (tvar [])) ax.2))) acc = .ok g →
      Says I g (fun ρ => Q ρ ∨ ∃ ax ∈ al, I.Fires ax.2 ρ (zs.map ρ)) := by
    intro al
    induction al with
    | nil =>
      intro _ _ _ acc g Q hacc h
      cases h
      exact ⟨hacc.wt, hacc.formula, fun hρ => by simpa using hacc.iff hρ⟩
    | cons ax al ih =>
      intro hwt hc hvars acc g Q hacc h
      rw [forall_mem_cons] at hwt hc hvars
      rw [foldlM_cons] at h
      obtain ⟨acc', hacc', h⟩ := Checks.bind_eq_ok.mp h
      obtain ⟨e, he, hacc'⟩ := Checks.bind_eq_ok.mp hacc'
      cases hacc'
      have hax := says_exi (I := I) hlit hzs hwt.1 hc.1 hvars.1 he
      have hor : Says I (.tbinop [] .tor acc e)
          (fun ρ => Q ρ ∨ I.Fires ax.2 ρ (zs.map ρ)) := by
        refine ⟨⟨hacc.formula, hax.formula, hacc.wt, hax.wt⟩, rfl, fun {ρ} hρ => ?_⟩
        rw [I.holds_tbinop, Binop.tr, hacc.iff hρ, hax.iff hρ]
      have hrec := ih hwt.2 hc.2 hvars.2 _ g _ hor h
      refine ⟨hrec.wt, hrec.formula, fun {ρ} hρ => ?_⟩
      rw [hrec.iff hρ, exists_mem_cons_iff, or_assoc]
  cases al with
  | nil => simp [joinOr] at h
  | cons ax al =>
    rw [joinOr] at h
    obtain ⟨e, he, h⟩ := Checks.bind_eq_ok.mp h
    rw [forall_mem_cons] at hwt hc hvars
    have hax := says_exi (I := I) hlit hzs hwt.1 hc.1 hvars.1 he
    have hrec := hfold al hwt.2 hc.2 hvars.2 e g _ hax h
    refine ⟨hrec.wt, hrec.formula, fun {ρ} hρ => ?_⟩
    rw [hrec.iff hρ, exists_mem_cons_iff]

end Exi

/-! ## Polymorphic clauses -/

section Poly

variable {M : PolyInterp sig} {sps : List LSymbol} {ps : LSymbol} {P : M.Preds}
  {τ τ' : TvSymbol → M.U}

/-- A clause at two instances of its types. -/
theorem fires_inst_congr {f : Term} : (∀ ty ∈ f.types, M.ty τ ty = M.ty τ' ty) →
    ∀ {ρ : VSymbol → M.Val} {dl : List M.Val},
      (M.inst P τ).Fires f ρ dl ↔ (M.inst P τ').Fires f ρ dl := by
  induction f with
  | tquant a q vl trl f _ ih =>
    intro h ρ dl
    simp only [Term.types, forall_mem_append] at h
    cases q with
    | tforall =>
      simp only [Fires]
      exact PolyInterp.quant_inst_congr (fun ρ => ih h.2)
        (fun v hv => h.1.1 v.vsTy (mem_map_of_mem hv)) ρ
    | texists => simp [Fires]
  | tbinop a op g f _ ih =>
    intro h ρ dl
    simp only [Term.types, forall_mem_append] at h
    cases op with
    | timplies =>
      simp only [Fires]
      have hg : (M.inst P τ).Holds ρ g ↔ (M.inst P τ').Holds ρ g := by
        rw [Interp.Holds, Interp.Holds, PolyInterp.sem_inst_congr h.1 (fun _ _ => rfl) ρ]
      exact and_congr hg (ih h.2)
    | _ => simp [Fires]
  | tlet a t v f _ ih =>
    intro h ρ dl
    simp only [Term.types, forall_mem_append] at h
    have ht : (M.inst P τ).eval ρ t = (M.inst P τ').eval ρ t := by
      rw [Interp.eval, Interp.eval, PolyInterp.sem_inst_congr h.1.2 (fun _ _ => rfl) ρ]
    simp only [Fires]
    rw [ht]
    exact ih h.2
  | tapp a s tl ty _ =>
    intro h ρ dl
    rw [Term.types, Term.typesList_eq, forall_mem_append] at h
    simp only [Fires]
    have htl : tl.map ((M.inst P τ).eval ρ) = tl.map ((M.inst P τ').eval ρ) := by
      refine map_congr_left (fun t ht => ?_)
      rw [Interp.eval, Interp.eval, PolyInterp.sem_inst_congr
        (fun ty hty => h.2 ty (mem_flatMap.mpr ⟨t, ht, hty⟩)) (fun _ _ => rfl) ρ]
    rw [htl]
  | _ =>
    intro _ ρ dl
    simp [Fires]

theorem holds_pred (hps : ps ≠ psEqu) {a : Sattr} {tl : List Term}
    (hty : tl.map tTy = ps.lsArgs.map some) (ty : Option Ty) (ρ : VSymbol → M.Val) :
    (M.inst P τ).Holds ρ (.tapp a ps tl ty) ↔
      P ps (M.args τ ps) (tl.map ((M.inst P τ).eval ρ)) := by
  rw [holds_tapp (M.inst P τ) ρ a hps, hty]
  show P ps ((ps.lsArgs.map some).map (Option.map (M.ty τ))) _ ↔ _
  rw [map_map]
  exact .rfl

theorem holds_clause (hps : ps ≠ psEqu) {f : Term} : IsClause sps ps f →
    ∀ {ρ : VSymbol → M.Val}, (∀ dl, (M.inst P τ).Fires f ρ dl → P ps (M.args τ ps) dl) →
      (M.inst P τ).Holds ρ f := by
  induction f with
  | tquant a q vl trl f _ ih =>
    intro hc ρ h
    cases q with
    | tforall =>
      simp only [Fires] at h
      rw [holds_tquant]
      exact quant_forall_of_exists (fun ρ hρ => ih hc hρ) h
    | texists => exact absurd hc (by simp [IsClause])
  | tbinop a op g f _ ih =>
    intro hc ρ h
    cases op with
    | timplies =>
      simp only [Fires] at h
      rw [holds_tbinop]
      exact fun hg => ih hc.2 (fun dl hf => h dl ⟨hg, hf⟩)
    | _ => exact absurd hc (by simp [IsClause])
  | tlet a t v f _ ih =>
    intro hc ρ h
    simp only [Fires] at h
    rw [holds_tlet]
    exact ih hc.2 h
  | tapp a s tl ty _ =>
    intro hc ρ h
    obtain ⟨rfl, hty, _⟩ := hc
    simp only [Fires] at h
    rw [holds_pred hps hty]
    exact h _ rfl
  | _ => exact fun hc => absurd hc (by simp [IsClause])

end Poly

/-! ## The axioms -/

/-- A clause built with the constructors of terms and types. -/
structure ClauseOk (sig : TySymbol → List LSymbol) (f : Term) : Prop where
  wt : f.Wt sig
  tyWf : ∀ ty ∈ f.types, ty.Wf

/-- The type variables of the clause occur in the types of the arguments of the
predicate. -/
def TvBound (ps : LSymbol) (f : Term) : Prop :=
  ∀ v ∈ tTyFreevars f, v ∈ ps.lsArgs.flatMap Ty.freevars

instance (ps : LSymbol) (f : Term) : Decidable (TvBound ps f) :=
  inferInstanceAs (Decidable (∀ v ∈ tTyFreevars f, v ∈ ps.lsArgs.flatMap Ty.freevars))

section Axioms

variable {M : PolyInterp sig} {P₀ : M.Preds} {s : IndSign} {idl : List IndDecl}

theorem indModel_eq {ps : LSymbol} (h : (ps, al) ∈ idl) :
    M.indModel P₀ s idl ps = M.indPreds P₀ s idl ps := by
  unfold PolyInterp.indModel PolyInterp.extend
  rw [if_pos (mem_map.mpr ⟨_, h, rfl⟩)]

/-- What a predicate of the declaration holds of is what its clauses conclude. -/
theorem indModel_iff (hok : IndDeclOk idl) {ps : LSymbol}
    (h : (ps, al) ∈ idl) {us : List (Option M.U)} {dl : List M.Val} :
    M.indModel P₀ s idl ps us dl ↔ ∃ ax ∈ al, ∃ (τ : TvSymbol → M.U) (ρ : VSymbol → M.Val),
      (M.inst (M.indModel P₀ s idl) τ).Typed ρ ∧ us = M.args τ ps ∧
        (M.inst (M.indModel P₀ s idl) τ).Fires ax.2 ρ dl := by
  rw [indModel_eq h, ← PolyInterp.indStep_indPreds hok s]
  constructor
  · rintro ⟨al', hal', ax, hax, τ, ρ, hρ⟩
    rw [hok.unique ps al' al hal' h] at hax
    exact ⟨ax, hax, τ, ρ, hρ⟩
  · rintro ⟨ax, hax, τ, ρ, hρ⟩
    exact ⟨al, h, ax, hax, τ, ρ, hρ⟩

theorem valid_clause (hok : IndDeclOk idl) (hequ : psEqu ∉ idl.map Prod.fst) {id : IndDecl}
    (hid : id ∈ idl) {ax : PrSymbol × Term} (hax : ax ∈ id.2) :
    PolyInterp.Valid (M.indModel P₀ s idl) ax.2 := by
  obtain ⟨ps, al⟩ := id
  have hps : ps ≠ psEqu := by
    rintro rfl
    exact hequ (mem_map.mpr ⟨_, hid, rfl⟩)
  intro τ ρ hρ
  refine holds_clause hps ((hok.indOk _ hid).axOk ax hax).isClause (fun dl hf => ?_)
  exact (indModel_iff hok hid).mpr ⟨ax, hax, τ, ρ, hρ, rfl, hf⟩

theorem map_vsTy_createVsymbols (k : ℕ) (tyl : List Ty) :
    (createVsymbols k tyl).map VSymbol.vsTy = tyl := by
  induction tyl generalizing k with
  | nil => rfl
  | cons ty tyl ih => rw [createVsymbols, map_cons, ih]

theorem le_of_mem_createVsymbols {tyl : List Ty} {v : VSymbol} : ∀ {k : ℕ},
    v ∈ createVsymbols k tyl → k ≤ v.vsName := by
  induction tyl with
  | nil => intro k h; cases h
  | cons ty tyl ih =>
    intro k h
    rcases mem_cons.mp h with rfl | h
    · exact le_rfl
    · have := ih h
      omega

variable {f : Term}

/-- The clause that concludes a fact at an instance of the predicate does so at
this instance. -/
theorem fires_of_args {ps : LSymbol} (hpsWf : ∀ ty ∈ ps.lsArgs, ty.Wf) (hc : ClauseOk sig f)
    (hclosed : f.freeVars = []) (htv : TvBound ps f) {P : M.Preds} {τ τ' : TvSymbol → M.U}
    (hargs : M.args τ ps = M.args τ' ps) {ρ ρ' : VSymbol → M.Val} {dl : List M.Val}
    (h : (M.inst P τ').Fires f ρ' dl) : (M.inst P τ).Fires f ρ dl := by
  -- the instances agree on the type variables of the predicate, so on those of the clause
  have hτ : ∀ ty ∈ ps.lsArgs, ∀ v ∈ ty.freevars, τ v = τ' v := by
    intro ty hty
    have heq : some (M.ty τ ty) = some (M.ty τ' ty) := map_inj_left.mp hargs ty hty
    exact Ty.eq_of_den M.app_inj (hpsWf ty hty) (Option.some.inj heq)
  have htypes : ∀ ty ∈ f.types, M.ty τ ty = M.ty τ' ty := by
    intro ty hty
    refine Ty.den_congr (hc.tyWf ty hty) (fun v hv => ?_)
    obtain ⟨ty', hty', hv'⟩ := mem_flatMap.mp (htv v (mem_flatMap.mpr ⟨ty, hty, hv⟩))
    exact hτ ty' hty' v hv'
  rw [fires_inst_congr htypes]
  refine (fires_congr hc.wt (fun v hv => ?_)).mp h
  rw [hclosed] at hv
  cases hv

/-- The inversion axiom of a predicate holds. -/
theorem valid_inversion (hok : IndDeclOk idl) (hequ : psEqu ∉ idl.map Prod.fst) {id : IndDecl}
    (hid : id ∈ idl) (hpsWf : ∀ ty ∈ id.1.lsArgs, ty.Wf) (hc : ∀ ax ∈ id.2, ClauseOk sig ax.2)
    (htv : ∀ ax ∈ id.2, TvBound id.1 ax.2) {k : ℕ}
    (hk : ∀ ax ∈ id.2, ∀ v ∈ clauseVars ax.2, v.vsName < k) (h : inversion k id = .ok f) :
    PolyInterp.Valid (M.indModel P₀ s idl) f := by
  obtain ⟨ps, al⟩ := id
  simp only at hpsWf hc htv hk
  have hps : ps ≠ psEqu := by
    rintro rfl
    exact hequ (mem_map.mpr ⟨_, hid, rfl⟩)
  have hind := hok.indOk _ hid
  unfold inversion at h
  obtain ⟨dj, hdj, h⟩ := Checks.bind_eq_ok.mp h
  cases h
  intro τ ρ hρ
  set I := M.inst (M.indModel P₀ s idl) τ with hI
  set zs := createVsymbols k ps.lsArgs with hzs
  have hlit : I.LitExt := PolyInterp.litExt_inst _ τ
  have heps : I.EpsExt := PolyInterp.epsExt_inst _ τ
  have hzty : zs.map VSymbol.vsTy = ps.lsArgs := map_vsTy_createVsymbols k ps.lsArgs
  have hfresh : ∀ ax ∈ al, ∀ v ∈ clauseVars ax.2, v ∉ zs := by
    intro ax hax v hv hmem
    exact absurd (hk ax hax v hv) (not_lt.mpr (le_of_mem_createVsymbols hmem))
  have hdjs : Says I dj (fun ρ => ∃ ax ∈ al, I.Fires ax.2 ρ (zs.map ρ)) :=
    says_joinOr hlit hzty (fun ax hax => (hc ax hax).wt)
      (fun ax hax => (hind.axOk ax hax).isClause) hfresh hdj
  -- the predicate applied to the new variables
  have htys : (zs.map (tvar [])).map tTy = ps.lsArgs.map some := by
    rw [← hzty, map_map, map_map]
    rfl
  have hhd : (tapp [] ps (zs.map (tvar [])) none).Wt sig := by
    simp only [Wt, wtList_iff, htys]
    refine ⟨⟨[], by simp, by simp [show ps.lsValue = none from hind.predicate]⟩, ?_⟩
    intro t ht
    obtain ⟨z, _, rfl⟩ := mem_map.mp ht
    trivial
  have hequiv := @equiv_fmlaRemoveQuant _ I false (fun _ => false) hlit heps
    (.tbinop [] .timplies (.tapp [] ps (zs.map (tvar [])) none) dj)
    ⟨rfl, hdjs.formula, hhd, hdjs.wt⟩
  rw [I.holds_tQuant]
  refine quant_forall_of (fun ρ hρ => ?_) hρ
  rw [hequiv.tr hρ rfl, I.holds_tbinop]
  intro hpred
  rw [hdjs.iff hρ]
  -- some clause concludes it, at some instance
  have hval := (holds_pred hps htys none ρ).mp hpred
  rw [map_map] at hval
  obtain ⟨ax, hax, τ', ρ', _, hargs, hf⟩ := (indModel_iff hok hid).mp hval
  exact ⟨ax, hax, fires_of_args hpsWf (hc ax hax) (hind.axOk ax hax).closed (htv ax hax) hargs hf⟩

/-- A declaration built with the constructors of terms and types, and of other
predicates than the equality. -/
structure DeclTyped (sig : TySymbol → List LSymbol) (idl : List IndDecl) : Prop where
  argsWf : ∀ id ∈ idl, ∀ ty ∈ id.1.lsArgs, ty.Wf
  clauseOk : ∀ id ∈ idl, ∀ ax ∈ id.2, ClauseOk sig ax.2
  notEqu : psEqu ∉ idl.map Prod.fst

/-- The variables of the clauses have tags below `k`. -/
def TagsBelow (k : ℕ) (idl : List IndDecl) : Prop :=
  ∀ id ∈ idl, ∀ ax ∈ id.2, ∀ v ∈ clauseVars ax.2, v.vsName < k

instance (k : ℕ) (idl : List IndDecl) : Decidable (TagsBelow k idl) :=
  inferInstanceAs (Decidable (∀ id ∈ idl, ∀ ax ∈ id.2, ∀ v ∈ clauseVars ax.2, v.vsName < k))

/-- The axioms among some declarations hold. -/
def AxiomsValid (P : M.Preds) (dl : List Decl) : Prop :=
  ∀ d ∈ dl, ∀ pr f, d.dNode = .dprop paxiom pr f → PolyInterp.Valid P f

theorem axiomsValid_cons {P : M.Preds} {pr : PrSymbol} {d : Decl} {dl : List Decl}
    (hd : ofDecl (createPropDecl paxiom pr f) = .ok d) (hf : PolyInterp.Valid P f)
    (h : AxiomsValid P dl) : AxiomsValid P (d :: dl) := by
  have hnode : d.dNode = .dprop paxiom pr f := by
    unfold createPropDecl checkFvs at hd
    split at hd
    · cases hd
    · split_ifs at hd
      · cases hd
      · cases hd
        rfl
  intro d' hd' pr' f' hnode'
  rcases mem_cons.mp hd' with rfl | hd'
  · rw [hnode, DeclNode.dprop.injEq] at hnode'
    exact hnode'.2.2 ▸ hf
  · exact h d' hd' pr' f' hnode'

theorem axiomsValid_elim (hok : IndDeclOk idl) (hty : DeclTyped sig idl)
    (htv : ∀ id ∈ idl, ∀ ax ∈ id.2, TvBound id.1 ax.2) {k : ℕ} (hk : TagsBelow k idl) {d : Decl}
    (hd : d.dNode = .dind s idl) {dl : List Decl} (h : elim k d = .ok dl) :
    AxiomsValid (M.indModel P₀ s idl) dl := by
  unfold elim at h
  rw [hd] at h
  obtain ⟨dl₁, h₁, h⟩ := Checks.bind_eq_ok.mp h
  obtain ⟨dl₂, h₂, h⟩ := Checks.bind_eq_ok.mp h
  obtain ⟨⟨k', dl₃⟩, h₃, h⟩ := Checks.bind_eq_ok.mp h
  cases h
  have hlog : AxiomsValid (M.indModel P₀ s idl) dl₁ := by
    refine Checks.foldlM_inv (fun id _ {b b'} hb hinv => ?_) h₁ (fun d hd => by cases hd)
    obtain ⟨d, hd, hb⟩ := Checks.bind_eq_ok.mp hb
    cases hb
    intro d' hd' pr f hnode
    rcases mem_cons.mp hd' with rfl | hd'
    · unfold createParamDecl at hd
      split_ifs at hd
      · cases hd
      · cases hd
        cases hnode
    · exact hinv d' hd' pr f hnode
  have himp : AxiomsValid (M.indModel P₀ s idl) dl₂ := by
    refine Checks.foldlM_inv (fun id hid {b b'} hb hinv => ?_) h₂ hlog
    refine Checks.foldlM_inv (fun ax hax {b b'} hb hinv => ?_) hb hinv
    obtain ⟨d, hd, hb⟩ := Checks.bind_eq_ok.mp hb
    cases hb
    exact axiomsValid_cons hd (valid_clause hok hty.notEqu hid hax) hinv
  -- the variables of the next inversion axiom are above those of the clauses
  have hinv : k ≤ k' ∧ AxiomsValid (M.indModel P₀ s idl) dl₃ := by
    refine Checks.foldlM_inv (I := fun (b : ℕ × List Decl) =>
      k ≤ b.1 ∧ AxiomsValid (M.indModel P₀ s idl) b.2) (fun id hid {b b'} hb hinv => ?_) h₃
      ⟨le_rfl, himp⟩
    unfold inv at hb
    obtain ⟨f, hf, hb⟩ := Checks.bind_eq_ok.mp hb
    obtain ⟨d, hd, hb⟩ := Checks.bind_eq_ok.mp hb
    cases hb
    refine ⟨?_, axiomsValid_cons hd ?_ hinv.2⟩
    · have := hinv.1
      show k ≤ b.1 + id.1.lsArgs.length + 1
      omega
    · exact valid_inversion hok hty.notEqu hid (hty.argsWf id hid) (hty.clauseOk id hid)
        (htv id hid) (fun ax hax v hv => (hk id hid ax hax v hv).trans_le hinv.1) hf
  exact fun d hd => hinv.2 d (mem_reverse.mp hd)

/-- The predicates of a declaration are the fixed point that its sign names. -/
def IsIndFixedPoint (M : PolyInterp sig) (P₀ : M.Preds) (s : IndSign) (idl : List IndDecl)
    (P : M.Preds) : Prop :=
  match s with
  | .ind => IsLeast (Function.fixedPoints (M.indStep P₀ idl)) P
  | .coind => IsGreatest (Function.fixedPoints (M.indStep P₀ idl)) P

theorem isIndFixedPoint_indPreds (hok : IndDeclOk idl) :
    IsIndFixedPoint M P₀ s idl (M.indPreds P₀ s idl) := by
  let F : M.Preds →o M.Preds := ⟨M.indStep P₀ idl, PolyInterp.indStep_mono hok⟩
  cases s with
  | ind => exact F.isLeast_lfp
  | coind => exact F.isGreatest_gfp

/-- An accepted declaration whose clauses have no other type variables than the
predicates: the operator of the clauses is monotone, and at its least fixed
point (the greatest one for a coinductive declaration) the axioms that replace
the declaration hold. -/
theorem elim_axioms_valid {d : Decl} (hd : createIndDecl s idl = .ok d) (hty : DeclTyped sig idl)
    (htv : ∀ id ∈ idl, ∀ ax ∈ id.2, TvBound id.1 ax.2) (M : PolyInterp sig) (P₀ : M.Preds)
    {k : ℕ} (hk : TagsBelow k idl) :
    Monotone (M.indStep P₀ idl) ∧ IsIndFixedPoint M P₀ s idl (M.indPreds P₀ s idl) ∧
      ∀ dl, elim k d = .ok dl → AxiomsValid (M.indModel P₀ s idl) dl := by
  obtain ⟨hnode, hok⟩ := indDeclOk_of_createIndDecl hd
  exact ⟨PolyInterp.indStep_mono hok, isIndFixedPoint_indPreds hok,
    fun dl h => axiomsValid_elim hok hty htv hk hnode h⟩

end Axioms

/-! ## Two declarations -/

/-- Closed types are the types themselves, with two values in each; a function
applied to one integer is true, and false elsewhere. -/
noncomputable def boolInterp : PolyInterp (fun _ => []) where
  U := Ty
  Val := Bool
  app := Ty.tyapp
  mem _ _ := True
  dest _ _ := none
  const _ _ := false
  fn _ us _ _ := decide (us = [some tyInt])
  eps _ P := Classical.epsilon P
  app_inj := fun _ _ _ h => (Ty.tyapp.inj h).2
  dest_mem := fun _ _ _ _ _ _ _ h => by cases h
  dest_some := fun _ _ _ _ _ h => absurd rfl h
  dest_inj := fun _ _ h => by cases h
  const_mem := fun _ _ => trivial
  const_ext := fun _ _ _ _ => rfl
  fn_mem := by
    intros
    trivial
  fn_constr := by
    intro _ _ _ _ _ h
    cases h
  eps_mem := fun _ _ => trivial
  eps_spec := fun ⟨d, _, h⟩ => Classical.epsilon_spec ⟨d, h⟩
  eps_ext := fun _ P Q h => congrArg Classical.epsilon (funext fun d => propext (h d trivial))

namespace Same

def tyA : Ty := .tyvar ⟨500⟩
def same : LSymbol := ⟨501, [tyA, tyA], none, 0, false⟩
def x : VSymbol := ⟨502, tyA⟩

/-- `forall x : 'a. same x x`. -/
def clauseSame : Term :=
  .tquant [] .tforall [x] [] (.tapp [] same [.tvar [] x, .tvar [] x] none)

def idl : List IndDecl := [(same, [(⟨503⟩, clauseSame)])]

/-- `forall z1 z2 : 'a. same z1 z2 -> z2 = z1`. -/
def inversionSame : Term :=
  .tquant [] .tforall [⟨600, tyA⟩, ⟨601, tyA⟩] []
    (.tbinop [] .timplies (.tapp [] same [.tvar [] ⟨600, tyA⟩, .tvar [] ⟨601, tyA⟩] none)
      (tEqu (.tvar [] ⟨601, tyA⟩) (.tvar [] ⟨600, tyA⟩)))

def decl : Decl := ⟨.dind .ind idl, [503, 501]⟩

def elimDecl : List Decl :=
  [⟨.dparam same, [501]⟩, ⟨.dprop paxiom ⟨503⟩ clauseSame, [503]⟩,
    ⟨.dprop paxiom ⟨602⟩ inversionSame, [602]⟩]

theorem inversion_same : inversion 600 (same, [(⟨503⟩, clauseSame)]) = .ok inversionSame := by
  -- `x` is the second argument
  have hrem : fmlaRemoveQuant false (fun _ => false)
      (.tbinop [] .timplies (.tapp [] same [.tvar [] ⟨600, tyA⟩, .tvar [] ⟨601, tyA⟩] none)
        (.tquant [] .texists [x] [] (.tbinop [] .tand (tEqu (.tvar [] ⟨600, tyA⟩) (.tvar [] x))
          (tEqu (.tvar [] ⟨601, tyA⟩) (.tvar [] x))))) =
      .tbinop [] .timplies (.tapp [] same [.tvar [] ⟨600, tyA⟩, .tvar [] ⟨601, tyA⟩] none)
        (tEqu (.tvar [] ⟨601, tyA⟩) (.tvar [] ⟨600, tyA⟩)) := by
    rw [fmlaRemoveQuant_tbinop, fmlaRemoveQuant_tapp, fmlaRemoveQuant_tquant,
      if_neg (fun h => h rfl)]
    show tbinop _ _ _ (tAttrCopy _ (fmlaRemoveQuant false (fun _ => false)
      (tapp [] psEqu [.tvar [] ⟨601, tyA⟩, .tvar [] ⟨600, tyA⟩] none))) = _
    rw [fmlaRemoveQuant_tapp]
    simp only [map_cons, map_nil, fmlaRemoveQuant_tvar]
    rfl
  exact congrArg (fun f => Except.ok (tQuant .tforall [⟨600, tyA⟩, ⟨601, tyA⟩] [] f)) hrem

theorem elim_decl : elim 600 decl = .ok elimDecl := by
  simp only [elim, decl, idl, foldlM_cons, foldlM_nil, inv, inversion_same]
  rfl

theorem declTyped_idl : DeclTyped (fun _ => []) idl := by
  refine ⟨?_, ?_, by decide⟩
  · intro id hid ty hty s l h
    simp only [idl, mem_singleton] at hid
    subst hid
    simp [same, tyA] at hty
    subst hty
    simp [Ty.subtypes] at h
  · intro id hid ax hax
    simp only [idl, mem_singleton] at hid
    subst hid
    rw [mem_singleton] at hax
    subst hax
    refine ⟨⟨rfl, trivial, ⟨[], rfl, rfl⟩, trivial, trivial, trivial⟩, ?_⟩
    intro ty hty s l h
    simp [clauseSame, Term.types, Term.typesList_eq, typesTriggers, x, tyA] at hty
    subst hty
    simp [Ty.subtypes] at h

/-- Two arguments of which `same` holds are equal. -/
theorem same_inversion_valid :
    createIndDecl .ind idl = .ok decl ∧ elim 600 decl = .ok elimDecl ∧
    PolyInterp.Valid (boolInterp.indModel (fun _ _ _ => False) .ind idl) inversionSame := by
  refine ⟨rfl, elim_decl, ?_⟩
  have hvalid := (elim_axioms_valid (d := decl) rfl declTyped_idl (by decide) boolInterp
    (fun _ _ _ => False) (k := 600) (by decide)).2.2 elimDecl elim_decl
  exact hvalid ⟨.dprop paxiom ⟨602⟩ inversionSame, [602]⟩ (by simp [elimDecl]) ⟨602⟩ inversionSame rfl

end Same

namespace Image

def tyA : Ty := .tyvar ⟨500⟩
def code : LSymbol := ⟨501, [tyA], some tyInt, 0, false⟩
def image : LSymbol := ⟨502, [tyInt], none, 0, false⟩
def x : VSymbol := ⟨503, tyA⟩

/-- `forall x : 'a. image (code x)`. -/
def clauseImage : Term :=
  .tquant [] .tforall [x] [] (.tapp [] image [.tapp [] code [.tvar [] x] (some tyInt)] none)

def idl : List IndDecl := [(image, [(⟨504⟩, clauseImage)])]

def decl : Decl := ⟨.dind .ind idl, [504, 502]⟩

/-- `forall z : int. image z -> exists x : 'a. z = code x`. -/
def inversionImage : Term :=
  .tquant [] .tforall [⟨600, tyInt⟩] []
    (.tbinop [] .timplies (.tapp [] image [.tvar [] ⟨600, tyInt⟩] none)
      (.tquant [] .texists [x] []
        (tEqu (.tvar [] ⟨600, tyInt⟩) (.tapp [] code [.tvar [] x] (some tyInt)))))

theorem inversion_image : inversion 600 (image, [(⟨504⟩, clauseImage)]) = .ok inversionImage := by
  have hrem : fmlaRemoveQuant false (fun _ => false)
      (.tbinop [] .timplies (.tapp [] image [.tvar [] ⟨600, tyInt⟩] none)
        (.tquant [] .texists [x] []
          (tEqu (.tvar [] ⟨600, tyInt⟩) (.tapp [] code [.tvar [] x] (some tyInt))))) =
      .tbinop [] .timplies (.tapp [] image [.tvar [] ⟨600, tyInt⟩] none)
        (.tquant [] .texists [x] []
          (tEqu (.tvar [] ⟨600, tyInt⟩) (.tapp [] code [.tvar [] x] (some tyInt)))) := by
    rw [fmlaRemoveQuant_tbinop, fmlaRemoveQuant_tapp, fmlaRemoveQuant_tquant,
      if_neg (fun h => h rfl)]
    show tbinop _ _ _ (tAttrCopy _ (.tquant [] .texists [x] [] (fmlaRemoveQuant false (fun _ => false)
      (tapp [] psEqu [.tvar [] ⟨600, tyInt⟩, .tapp [] code [.tvar [] x] (some tyInt)] none)))) = _
    rw [fmlaRemoveQuant_tapp]
    simp only [map_cons, map_nil, fmlaRemoveQuant_tapp, fmlaRemoveQuant_tvar]
    rfl
  exact congrArg (fun f => Except.ok (tQuant .tforall [⟨600, tyInt⟩] [] f)) hrem

theorem elim_decl : elim 600 decl = .ok [⟨.dparam image, [502]⟩,
    ⟨.dprop paxiom ⟨504⟩ clauseImage, [504]⟩, ⟨.dprop paxiom ⟨601⟩ inversionImage, [601]⟩] := by
  simp only [elim, decl, idl, foldlM_cons, foldlM_nil, inv, inversion_image]
  rfl

theorem declTyped_idl : DeclTyped (fun _ => []) idl := by
  have hint : tyInt.Wf := by
    intro s l h
    simp [tyInt, Ty.subtypes] at h
    simp [h, tsInt, TySymbol.tsArgs]
  have hvar : tyA.Wf := by
    intro s l h
    simp [tyA, Ty.subtypes] at h
  refine ⟨?_, ?_, by decide⟩
  · intro id hid ty hty
    simp only [idl, mem_singleton] at hid
    subst hid
    simp only [image, mem_singleton] at hty
    subst hty
    exact hint
  · intro id hid ax hax
    simp only [idl, mem_singleton] at hid
    subst hid
    rw [mem_singleton] at hax
    subst hax
    refine ⟨⟨rfl, trivial, ⟨[], rfl, rfl⟩, ⟨⟨[], rfl, rfl⟩, trivial, trivial⟩, trivial⟩, ?_⟩
    intro ty hty
    simp [clauseImage, Term.types, Term.typesList_eq, typesTriggers, x] at hty
    rcases hty with rfl | rfl | rfl
    · exact hvar
    · exact hint
    · exact hvar

/-- The codes of the integers are not those of the booleans, but the inversion
axiom says at every type that its codes are all there is. -/
theorem not_elim_axioms_valid :
    ¬ ∀ (sig : TySymbol → List LSymbol) (s : IndSign) (idl : List IndDecl) (d : Decl),
      createIndDecl s idl = .ok d → DeclTyped sig idl →
      ∀ (M : PolyInterp sig) (P₀ : M.Preds) (k : ℕ), TagsBelow k idl →
        Monotone (M.indStep P₀ idl) ∧ IsIndFixedPoint M P₀ s idl (M.indPreds P₀ s idl) ∧
          ∀ dl, elim k d = .ok dl → AxiomsValid (M.indModel P₀ s idl) dl := by
  intro h
  have hdecl : createIndDecl .ind idl = .ok decl := rfl
  have hok := (indDeclOk_of_createIndDecl hdecl).2
  have hvalid := (h _ .ind idl decl hdecl declTyped_idl boolInterp (fun _ _ _ => False) 600
    (by decide)).2.2 _ elim_decl
  have hinv : PolyInterp.Valid (boolInterp.indModel (fun _ _ _ => False) .ind idl) inversionImage :=
    hvalid ⟨.dprop paxiom ⟨601⟩ inversionImage, [601]⟩ (by simp) ⟨601⟩ inversionImage rfl
  -- the clause at the type of the integers
  have himage : boolInterp.indModel (fun _ _ _ => False) .ind idl image
      (boolInterp.args (fun _ => tyBool) image) [true] := by
    refine (indModel_iff hok (mem_singleton_self _)).mpr
      ⟨(⟨504⟩, clauseImage), mem_singleton_self _, fun _ => tyInt, fun _ => true,
        fun _ => trivial, rfl, ?_⟩
    simp only [clauseImage, Fires]
    exact ⟨true, trivial, rfl⟩
  -- the inversion axiom at the type of the booleans
  have hz := hinv (fun _ => tyBool) (fun _ => true) (fun _ => trivial) true trivial himage
  obtain ⟨d, _, hd⟩ := hz
  have hcode : (true : Bool) = decide ([some tyBool] = [some tyInt]) :=
    (holds_tEqu _).mp hd
  exact absurd hcode (by decide)

end Image

end Why3.EliminateInductive
