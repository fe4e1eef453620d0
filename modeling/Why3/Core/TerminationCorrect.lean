import Why3.Core.Termination
import Why3.Core.Value
import Why3.Core.PatternDispatch
import Why3.Lib.LexMeasure

/-!
# Accepted recursive definitions terminate

Definitions are evaluated on constructor values.  The descents that the check
computes tell the truth about the values of the arguments in every call
(`VecHolds`); the call vectors kept by `build_call_list` cover every path of
calls from a symbol back to itself, and the positions of `find_variant`
decrease lexicographically along each of them.
-/

namespace Why3

open List Function Pattern

variable {u : VSymbol} {pl : List Pattern} {p : Pattern} {t : Term}

open Pattern (matchPat matchArgs)

/-! ## The meaning of descents -/

namespace Descent

variable {args : List Value} {x y : Value} {d d1 d2 : Descent}

/-- What a descent says of the value `x`, for a caller with arguments `args`.
`Equal` also stands for smaller values: subsumption takes it that way. -/
def Holds (args : List Value) (x : Value) : Descent → Prop
  | .less i => ∃ y, args[i]? = some y ∧ x.Subterm y
  | .equal i => ∃ y, args[i]? = some y ∧ (x = y ∨ x.Subterm y)
  | .unknown => True

theorem Holds.toLess (h : d.Holds args x) (hy : y.Subterm x) : d.toLess.Holds args y := by
  cases d with
  | less i =>
    obtain ⟨z, hz, hxz⟩ := h
    exact ⟨z, hz, hy.trans hxz⟩
  | equal i =>
    obtain ⟨z, hz, rfl | hxz⟩ := h
    · exact ⟨x, hz, hy⟩
    · exact ⟨z, hz, hy.trans hxz⟩
  | unknown => trivial

theorem Holds.mono (h : d.Holds args x) (hy : y.Subterm x) : d.Holds args y := by
  cases d with
  | less i => exact h.toLess hy
  | equal i =>
    obtain ⟨z, hz, hyz⟩ := h.toLess hy
    exact ⟨z, hz, .inr hyz⟩
  | unknown => trivial

theorem Holds.of_sbs (hs : sbs d1 d2 = true) (h : d1.Holds args x) : d2.Holds args x := by
  cases d1 <;> cases d2 <;> simp only [sbs, beq_iff_eq, Bool.false_eq_true] at hs
  case less.less => exact hs ▸ h
  case less.equal =>
    subst hs
    obtain ⟨y, hy, hxy⟩ := h
    exact ⟨y, hy, .inr hxy⟩
  case equal.equal => exact hs ▸ h
  all_goals trivial

end Descent

/-- The descents of `v` hold of the values `xs`. -/
def VecHolds (args : List Value) (v : List Descent) (xs : List Value) : Prop :=
  List.Forall₂ (fun d x => d.Holds args x) v xs

variable {x : Value}

namespace VecHolds

variable {args mid xs : List Value} {v v1 v2 : List Descent}

theorem get (h : VecHolds args v xs) {i : ℕ} (hx : xs[i]? = some x) :
    (v.getD i .unknown).Holds args x := by
  induction h generalizing i with
  | nil => simp at hx
  | cons hd _ ih =>
    cases i with
    | zero =>
      simp only [getElem?_cons_zero, Option.some.injEq] at hx
      exact hx ▸ hd
    | succ i => exact ih (by simpa using hx)

theorem of_get (hlen : v.length = xs.length)
    (h : ∀ i x, xs[i]? = some x → (v.getD i .unknown).Holds args x) : VecHolds args v xs := by
  refine forall₂_iff_get.mpr ⟨hlen, fun i h₁ h₂ => ?_⟩
  have := h i (xs.get ⟨i, h₂⟩) (by simp [h₂])
  simpa [getD_eq_getElem?_getD, h₁] using this

theorem multiply (h₁ : VecHolds mid v1 xs) (h₂ : VecHolds args v2 mid) :
    VecHolds args (multiply v1 v2) xs := by
  refine forall₂_map_left_iff.mpr (List.Forall₂.imp ?_ h₁)
  intro d x hd
  cases d with
  | unknown => trivial
  | equal i =>
    obtain ⟨y, hy, rfl | hxy⟩ := hd
    · exact h₂.get hy
    · exact (h₂.get hy).mono hxy
  | less i =>
    obtain ⟨y, hy, hxy⟩ := hd
    exact (h₂.get hy).toLess hxy

theorem of_subsumes (hs : subsumes v1 v2 = true) (hlen : v2.length = v1.length)
    (h : VecHolds args v1 xs) : VecHolds args v2 xs := by
  have hl : v1.length = xs.length := h.length_eq
  refine of_get (hlen.trans hl) (fun i x hx => ?_)
  have hi : i < v1.length := by
    rw [hl]
    exact (List.getElem?_eq_some_iff.mp hx).1
  rw [subsumes, all_eq_true] at hs
  have hsbs := hs (v1.get ⟨i, hi⟩, i) (mk_mem_zipIdx_iff_getElem?.mpr (by simp [hi]))
  refine Descent.Holds.of_sbs hsbs ?_
  have := h.get hx
  simpa [getD_eq_getElem?_getD, hi] using this

end VecHolds

/-! ## Matching -/

/-- The constructor of a value, whatever its type. -/
def Value.head (_ : Ty) : Value → Option (LSymbol × List Value)
  | .con cs dl => some (cs, dl)
  | .atom _ _ => none

/-- The map tells the truth about the valuation. -/
def VmHolds (args : List Value) (vm : Vm) (ρ : VSymbol → Value) : Prop :=
  ∀ v d, vm v = some d → d.Holds args (ρ v)

namespace VmHolds

variable {args : List Value} {vm : Vm} {ρ : VSymbol → Value}

theorem update (h : VmHolds args vm ρ) {o : Option Descent}
    (ho : ∀ d, o = some d → d.Holds args x) : VmHolds args (update vm u o) (update ρ u x) := by
  intro v d hd
  by_cases hv : v = u
  · subst hv
    rw [update_self] at hd ⊢
    exact ho d hd
  · rw [update_of_ne hv] at hd ⊢
    exact h v d hd

theorem setAll (h : VmHolds args vm ρ) {vl : List VSymbol} {o : Option Descent}
    {ρ' : VSymbol → Value} (ho : ∀ v ∈ vl, ∀ d, o = some d → d.Holds args (ρ' v))
    (hρ : ∀ v, v ∉ vl → ρ' v = ρ v) : VmHolds args (vm.setAll vl o) ρ' := by
  intro v d hd
  rw [Vm.setAll] at hd
  split at hd
  · next hv => exact ho v hv d hd
  · next hv =>
      rw [hρ v hv]
      exact h v d hd

end VmHolds

/-- One of the maps tells the truth. -/
def GraphHolds (args : List Value) (vsg : VsGraph) (ρ : VSymbol → Value) : Prop :=
  ∃ vm ∈ vsg, VmHolds args vm ρ

namespace GraphHolds

variable {args : List Value} {vsg vsg' : VsGraph} {ρ ρ' : VSymbol → Value}

theorem map (h : GraphHolds args vsg ρ) {f : Vm → Vm}
    (hf : ∀ vm, VmHolds args vm ρ → VmHolds args (f vm) ρ') : GraphHolds args (vsg.map f) ρ' := by
  obtain ⟨vm, hvm, hh⟩ := h
  exact ⟨f vm, mem_map_of_mem hvm, hf vm hh⟩

theorem reverse (h : GraphHolds args vsg ρ) : GraphHolds args vsg.reverse ρ := by
  obtain ⟨vm, hvm, hh⟩ := h
  exact ⟨vm, mem_reverse.mpr hvm, hh⟩

theorem append_left (h : GraphHolds args vsg ρ) : GraphHolds args (vsg ++ vsg') ρ := by
  obtain ⟨vm, hvm, hh⟩ := h
  exact ⟨vm, mem_append_left _ hvm, hh⟩

theorem append_right (h : GraphHolds args vsg ρ) : GraphHolds args (vsg' ++ vsg) ρ := by
  obtain ⟨vm, hvm, hh⟩ := h
  exact ⟨vm, mem_append_right _ hvm, hh⟩

end GraphHolds

variable {vsg : VsGraph}

section Match

variable {sig : TySymbol → List LSymbol} {args : List Value} {ρ : VSymbol → Value}

theorem matchArgs_bound
    (h : ∀ p ∈ pl, ∀ {x bs}, matchPat Value.head p x = some bs →
      ∀ b ∈ bs, b.2 = x ∨ b.2.Subterm x) :
    ∀ {dl bs}, matchArgs Value.head pl dl = some bs →
      ∀ b ∈ bs, ∃ x ∈ dl, b.2 = x ∨ b.2.Subterm x := by
  induction pl with
  | nil =>
    intro dl bs hm b hb
    cases dl with
    | nil => simp only [matchArgs, Option.some.injEq] at hm; subst hm; cases hb
    | cons x dl => simp [matchArgs] at hm
  | cons p pl ih =>
    intro dl bs hm b hb
    cases dl with
    | nil => simp [matchArgs] at hm
    | cons x dl =>
      rw [matchArgs_cons, Option.bind_eq_some_iff] at hm
      obtain ⟨b₁, hp, hm⟩ := hm
      obtain ⟨b₂, hpl, rfl⟩ := Option.map_eq_some_iff.mp hm
      rcases mem_append.mp hb with hb | hb
      · obtain ⟨y, hy, hby⟩ := ih (fun q hq => h q (mem_cons_of_mem _ hq)) hpl b hb
        exact ⟨y, mem_cons_of_mem _ hy, hby⟩
      · exact ⟨x, mem_cons_self, h p mem_cons_self hp b hb⟩

variable {bs : List (VSymbol × Value)}

theorem matchPat_papp_bound {s : LSymbol} {ty : Ty}
    (h : ∀ p ∈ pl, ∀ {x bs}, matchPat Value.head p x = some bs →
      ∀ b ∈ bs, b.2 = x ∨ b.2.Subterm x)
    (hm : matchPat Value.head (.papp s pl ty) x = some bs) : ∀ b ∈ bs, b.2.Subterm x := by
  intro b hb
  cases x with
  | atom ty' n => simp [matchPat, Value.head] at hm
  | con cs dl =>
    simp only [matchPat, Value.head] at hm
    split at hm
    · obtain ⟨y, hy, rfl | hby⟩ := matchArgs_bound h hm b hb
      · exact .single ⟨hy⟩
      · exact Value.Subterm.trans hby (.single ⟨hy⟩)
    · cases hm

theorem matchPat_bound : ∀ {x bs}, matchPat Value.head p x = some bs →
    ∀ b ∈ bs, b.2 = x ∨ b.2.Subterm x := by
  induction p with
  | pwild ty =>
    intro x bs hm b hb
    simp only [matchPat, Option.some.injEq] at hm
    subst hm
    cases hb
  | pvar w =>
    intro x bs hm b hb
    simp only [matchPat, Option.some.injEq] at hm
    subst hm
    rw [mem_singleton] at hb
    subst hb
    exact .inl rfl
  | papp s pl ty ih =>
    intro x bs hm b hb
    exact .inr (matchPat_papp_bound ih hm b hb)
  | por p q hp hq =>
    intro x bs hm b hb
    simp only [matchPat, Option.or_eq_some_iff] at hm
    rcases hm with hm | ⟨_, hm⟩
    · exact hp hm b hb
    · exact hq hm b hb
  | pas p w ih =>
    intro x bs hm b hb
    simp only [matchPat] at hm
    obtain ⟨b', hb', rfl⟩ := Option.map_eq_some_iff.mp hm
    rcases mem_cons.mp hb with rfl | hb
    · exact .inl rfl
    · exact ih hb' b hb

theorem matchVar_holds (hok : p.Ok sig) : ∀ {x bs link acc},
    matchPat Value.head p x = some bs → Descent.Holds args x link → GraphHolds args acc ρ →
    GraphHolds args (matchVar link p acc) (bindAll ρ bs) := by
  induction p with
  | pwild ty =>
    intro x bs link acc hm _ hacc
    simp only [matchPat, Option.some.injEq] at hm
    subst hm
    exact hacc
  | pvar u =>
    intro x bs link acc hm hlink hacc
    simp only [matchPat, Option.some.injEq] at hm
    subst hm
    rw [bindAll_cons, bindAll_nil]
    refine (hacc.map (fun vm hvm => hvm.update ?_)).reverse
    rintro d ⟨⟩
    exact hlink
  | papp s pl ty _ =>
    intro x bs link acc hm hlink hacc
    have hkeys := matchPat_keys Value.head hok hm
    refine (hacc.map (fun vm hvm => hvm.setAll ?_ ?_)).reverse
    · rintro v hv d ⟨⟩
      have hb := mem_bindAll_of_mem ((hkeys v).mpr hv) ρ
      exact hlink.toLess (matchPat_papp_bound (fun _ _ => matchPat_bound) hm _ hb)
    · intro v hv
      exact bindAll_of_not_mem (fun hmem => hv ((hkeys v).mp hmem))
  | por p q hp hq =>
    intro x bs link acc hm hlink hacc
    simp only [matchPat, Option.or_eq_some_iff] at hm
    rcases hm with hm | ⟨_, hm⟩
    · exact (hp hok.1 hm hlink hacc).reverse.append_left
    · exact (hq hok.2.1 hm hlink hacc).append_right
  | pas p u ih =>
    intro x bs link acc hm hlink hacc
    simp only [matchPat] at hm
    obtain ⟨bs', hm', rfl⟩ := Option.map_eq_some_iff.mp hm
    rw [bindAll_cons]
    refine ((ih hok.1 hm' hlink hacc).map (fun vm hvm => hvm.update ?_)).reverse
    rintro d ⟨⟩
    exact hlink

theorem forget_holds {acc : VsGraph} (hok : p.Ok sig)
    (hm : matchPat Value.head p x = some bs) (hacc : GraphHolds args acc ρ) :
    GraphHolds args (forget p acc) (bindAll ρ bs) := by
  refine (hacc.map (fun vm hvm => hvm.setAll ?_ ?_)).reverse
  · rintro v _ d ⟨⟩
  · intro v hv
    exact bindAll_of_not_mem
      (fun hmem => hv ((matchPat_keys Value.head hok hm v).mp hmem))

/-! ### Evaluation -/

/-- An evaluation of terms by constructor values: all that is said about it is
how it treats variables and constructors. -/
structure CallEval where
  ev : (VSymbol → Value) → Term → Value
  ev_var : ∀ ρ a v, ev ρ (.tvar a v) = ρ v
  ev_constr : ∀ ρ a cs al ty, 0 < cs.lsConstr →
    ev ρ (.tapp a cs al ty) = .con cs (al.map (ev ρ))

variable {E : CallEval} {ρ₀ : VSymbol → Value} {vm : Vm}

theorem linkOf_holds (hvm : VmHolds args vm ρ₀) {link : Descent} (h : linkOf vm t = some link) :
    link.Holds args (E.ev ρ₀ t) := by
  cases t with
  | tvar a v =>
    rw [E.ev_var]
    exact hvm v link h
  | _ => simp [linkOf] at h

theorem vsGraphDrop_holds {acc : VsGraph} (hacc : GraphHolds args acc ρ) :
    GraphHolds args (vsGraphDrop acc u) (update ρ u x) := by
  refine (hacc.map (fun vm hvm => hvm.update ?_)).reverse
  rintro d ⟨⟩

theorem matchTermList_holds
    (h : ∀ p ∈ pl, ∀ {t bs acc ρ}, matchPat Value.head p (E.ev ρ₀ t) = some bs →
      GraphHolds args acc ρ → GraphHolds args (matchTerm vm p t acc) (bindAll ρ bs)) :
    ∀ {tl bs acc ρ}, matchArgs Value.head pl (tl.map (E.ev ρ₀)) = some bs →
      GraphHolds args acc ρ → GraphHolds args (matchTermList vm pl tl acc) (bindAll ρ bs) := by
  induction pl with
  | nil =>
    intro tl bs acc ρ hm hacc
    cases tl with
    | nil =>
      simp only [map_nil, matchArgs, Option.some.injEq] at hm
      subst hm
      exact hacc
    | cons t tl => simp [matchArgs] at hm
  | cons p pl ih =>
    intro tl bs acc ρ hm hacc
    cases tl with
    | nil => simp [matchArgs] at hm
    | cons t tl =>
      rw [map_cons, matchArgs_cons, Option.bind_eq_some_iff] at hm
      obtain ⟨b₁, hp, hm⟩ := hm
      obtain ⟨b₂, hpl, rfl⟩ := Option.map_eq_some_iff.mp hm
      rw [bindAll_append]
      exact ih (fun q hq => h q (mem_cons_of_mem _ hq)) hpl
        (h p mem_cons_self hp hacc)

theorem matchTerm_holds (hsig : SigOk sig) (hvm : VmHolds args vm ρ₀) (hok : p.Ok sig)
    (hlin : p.Linear) : ∀ {t bs acc ρ},
    matchPat Value.head p (E.ev ρ₀ t) = some bs → GraphHolds args acc ρ →
    GraphHolds args (matchTerm vm p t acc) (bindAll ρ bs) := by
  induction p with
  | pwild ty =>
    intro t bs acc ρ hm hacc
    simp only [matchPat, Option.some.injEq] at hm
    subst hm
    exact hacc
  | pvar u =>
    intro t bs acc ρ hm hacc
    rw [matchTerm]
    cases hl : linkOf vm t with
    | some link => exact matchVar_holds hok hm (linkOf_holds hvm hl) hacc
    | none =>
      simp only
      split
      · simp only [matchPat, Option.some.injEq] at hm
        subst hm
        rw [bindAll_cons, bindAll_nil]
        exact vsGraphDrop_holds hacc
      · exact forget_holds hok hm hacc
  | papp s pl ty ih =>
    intro t bs acc ρ hm hacc
    rw [matchTerm]
    cases hl : linkOf vm t with
    | some link => exact matchVar_holds hok hm (linkOf_holds hvm hl) hacc
    | none =>
      simp only
      cases happ : appOf t with
      | none => exact forget_holds hok hm hacc
      | some c =>
        rcases c with ⟨c, tl⟩
        simp only
        split
        · next hc =>
            -- the matched term is an application of the same constructor
            subst hc
            cases t with
            | tapp a s' tl' ty' =>
              simp only [appOf, Option.some.injEq, Prod.mk.injEq] at happ
              obtain ⟨rfl, rfl⟩ := happ
              simp only [Pattern.Ok, okList_iff] at hok
              simp only [Pattern.Linear, linearList_iff] at hlin
              rw [E.ev_constr _ _ _ _ _ (constr_pos_of_mem hsig hok.1)] at hm
              simp only [matchPat, Value.head, if_true] at hm
              exact matchTermList_holds
                (fun q hq => ih q hq (hok.2.2 q hq) (hlin.2 q hq)) hm hacc
            | _ => simp [appOf] at happ
        · exact forget_holds hok hm hacc
  | por p q hp hq =>
    intro t bs acc ρ hm hacc
    rw [matchTerm]
    cases hl : linkOf vm t with
    | some link => exact matchVar_holds hok hm (linkOf_holds hvm hl) hacc
    | none =>
      simp only
      split
      · simp only [matchPat, Option.or_eq_some_iff] at hm
        rcases hm with hm | ⟨_, hm⟩
        · exact (hp hok.1 hlin.1 hm hacc).reverse.append_left
        · exact (hq hok.2.1 hlin.2.1 hm hacc).append_right
      · exact forget_holds hok hm hacc
  | pas p u ih =>
    intro t bs acc ρ hm hacc
    rw [matchTerm]
    cases hl : linkOf vm t with
    | some link => exact matchVar_holds hok hm (linkOf_holds hvm hl) hacc
    | none =>
      simp only
      split
      · simp only [matchPat] at hm
        obtain ⟨bs', hm', rfl⟩ := Option.map_eq_some_iff.mp hm
        have hu : u ∉ bs'.map Prod.fst := fun hu =>
          hlin.2 ((matchPat_keys Value.head hok.1 hm' u).mp hu)
        rw [bindAll_cons, ← bindAll_update hu]
        exact ih hok.1 hlin.1 hm' (vsGraphDrop_holds hacc)
      · exact forget_holds hok hm hacc

theorem vsGraphPat_holds (hsig : SigOk sig) (hok : p.Ok sig) (hlin : p.Linear)
    (hm : matchPat Value.head p (E.ev ρ t) = some bs) (hg : GraphHolds args vsg ρ) :
    GraphHolds args (vsGraphPat vsg t p) (bindAll ρ bs) := by
  have key : ∀ (l : VsGraph) (acc : VsGraph),
      (GraphHolds args l ρ ∨ GraphHolds args acc (bindAll ρ bs)) →
      GraphHolds args (l.foldl (fun acc vm => (matchTerm vm p t [vm]).reverse ++ acc) acc)
        (bindAll ρ bs) := by
    intro l
    induction l with
    | nil =>
      rintro acc (⟨vm, hvm, _⟩ | h)
      · cases hvm
      · exact h
    | cons vm l ih =>
      rintro acc (⟨vm', hvm', hh⟩ | h)
      · rcases mem_cons.mp hvm' with rfl | hvm'
        · exact ih _ (.inr (matchTerm_holds hsig hh hok hlin hm
            ⟨_, mem_singleton_self _, hh⟩).reverse.append_left)
        · exact ih _ (.inl ⟨vm', hvm', hh⟩)
      · exact ih _ (.inr h.append_right)
  exact key vsg [] (.inl hg)

end Match

/-! ## Calls -/

variable {ρ : VSymbol → Value} {args : List Value} {tl : List Term} {bl : List (Pattern × Term)}

section Calls

variable (E : CallEval) (syms : LSymbol → Bool)

/-- `s` is called on the values `xs` in the evaluation of a term.  Both sides of
a conditional count, and all branches that match; a variable bound by an
epsilon or a quantifier takes any value. -/
inductive Calls : (VSymbol → Value) → Term → LSymbol → List Value → Prop
  | app {ρ a s tl ty} : syms s = true → Calls ρ (.tapp a s tl ty) s (tl.map (E.ev ρ))
  | arg {ρ a s' tl ty t s xs} : t ∈ tl → Calls ρ t s xs → Calls ρ (.tapp a s' tl ty) s xs
  | ifCond {ρ a f t1 t2 s xs} : Calls ρ f s xs → Calls ρ (.tif a f t1 t2) s xs
  | ifThen {ρ a f t1 t2 s xs} : Calls ρ t1 s xs → Calls ρ (.tif a f t1 t2) s xs
  | ifElse {ρ a f t1 t2 s xs} : Calls ρ t2 s xs → Calls ρ (.tif a f t1 t2) s xs
  | letTerm {ρ a t v e s xs} : Calls ρ t s xs → Calls ρ (.tlet a t v e) s xs
  | letBody {ρ a t v e s xs} : Calls (update ρ v (E.ev ρ t)) e s xs →
      Calls ρ (.tlet a t v e) s xs
  | caseTerm {ρ a t bl s xs} : Calls ρ t s xs → Calls ρ (.tcase a t bl) s xs
  | caseBranch {ρ a t bl p e bs s xs} : (p, e) ∈ bl →
      matchPat Value.head p (E.ev ρ t) = some bs → Calls (bindAll ρ bs) e s xs →
      Calls ρ (.tcase a t bl) s xs
  | eps {ρ a v f x s xs} : Calls (update ρ v x) f s xs → Calls ρ (.teps a v f) s xs
  | quant {ρ a q vl trl f s xs} (ρ' : VSymbol → Value) : (∀ v, v ∉ vl → ρ' v = ρ v) →
      Calls ρ' f s xs → Calls ρ (.tquant a q vl trl f) s xs
  | binLeft {ρ a op f g s xs} : Calls ρ f s xs → Calls ρ (.tbinop a op f g) s xs
  | binRight {ρ a op f g s xs} : Calls ρ g s xs → Calls ρ (.tbinop a op f g) s xs
  | not {ρ a f s xs} : Calls ρ f s xs → Calls ρ (.tnot a f) s xs

variable {E syms} {ls : LSymbol}

theorem mem_registerCall {cgr : CallSet} {s : LSymbol}
    {e : LSymbol × LSymbol × List Descent} :
    e ∈ registerCall cgr ls vsg s tl ↔
      e ∈ cgr ∨ ∃ vm ∈ vsg, e = (s, ls, tl.map (describe vm)) := by
  unfold registerCall
  induction vsg generalizing cgr with
  | nil => simp
  | cons vm vsg ih =>
    rw [foldl_cons, ih, mem_cons]
    simp only [mem_cons, exists_eq_or_imp]
    tauto

/-! ### Rules for the traversal

`callTerm` only adds edges, and every edge it adds is registered for a
saturated call. -/

theorem callTermList_mono
    (h : ∀ t ∈ tl, ∀ vsg cgr e, e ∈ cgr → e ∈ callTerm syms ls t vsg cgr) :
    ∀ vsg cgr e, e ∈ cgr → e ∈ callTermList syms ls tl vsg cgr := by
  induction tl with
  | nil => exact fun _ _ _ he => he
  | cons t tl ih =>
    intro vsg cgr e he
    exact ih (fun u hu => h u (mem_cons_of_mem _ hu)) _ _ _
      (h t mem_cons_self _ _ _ he)

theorem callBranches_mono
    (h : ∀ b ∈ bl, ∀ vsg cgr e, e ∈ cgr → e ∈ callTerm syms ls b.2 vsg cgr) :
    ∀ vsg cgr e, e ∈ cgr → e ∈ callBranches syms ls t bl vsg cgr := by
  induction bl with
  | nil => exact fun _ _ _ he => he
  | cons b bl ih =>
    intro vsg cgr e he
    exact ih (fun u hu => h u (mem_cons_of_mem _ hu)) _ _ _
      (h b mem_cons_self _ _ _ he)

theorem callTerm_mono (t : Term) : ∀ vsg cgr e, e ∈ cgr → e ∈ callTerm syms ls t vsg cgr := by
  induction t with
  | tvar a v | tconst a c ty | ttrue a | tfalse a => exact fun _ _ _ he => he
  | tapp a s tl ty ih =>
    intro vsg cgr e he
    have hl := callTermList_mono ih vsg cgr e he
    rw [callTerm]
    split
    · exact mem_registerCall.mpr (.inl hl)
    · exact hl
  | tif a f t1 t2 hf h1 h2 => exact fun _ _ _ he => h2 _ _ _ (h1 _ _ _ (hf _ _ _ he))
  | tlet a t v e ht he' => exact fun _ _ _ he => he' _ _ _ (ht _ _ _ he)
  | tcase a t bl ht hbl => exact fun _ _ _ he => callBranches_mono hbl _ _ _ (ht _ _ _ he)
  | teps a v f hf => exact fun _ _ _ he => hf _ _ _ he
  | tquant a q vl trl f _ hf => exact fun _ _ _ he => hf _ _ _ he
  | tbinop a op f g hf hg => exact fun _ _ _ he => hg _ _ _ (hf _ _ _ he)
  | tnot a f hf => exact fun _ _ _ he => hf _ _ _ he

theorem mem_callTermList (ht : t ∈ tl) (vsg : VsGraph) :
    ∀ cgr, ∃ cgr', ∀ e ∈ callTerm syms ls t vsg cgr', e ∈ callTermList syms ls tl vsg cgr := by
  induction tl with
  | nil => cases ht
  | cons u tl ih =>
    intro cgr
    rcases mem_cons.mp ht with rfl | ht
    · exact ⟨cgr, callTermList_mono (fun u _ => callTerm_mono u) vsg _⟩
    · exact ih ht _

theorem mem_callBranches {b : Pattern × Term} (hb : b ∈ bl)
    (vsg : VsGraph) : ∀ cgr, ∃ cgr', ∀ e ∈ callTerm syms ls b.2 (vsGraphPat vsg t b.1) cgr',
      e ∈ callBranches syms ls t bl vsg cgr := by
  induction bl with
  | nil => cases hb
  | cons c bl ih =>
    intro cgr
    rcases mem_cons.mp hb with rfl | hb
    · exact ⟨cgr, callBranches_mono (fun u _ => callTerm_mono u.2) vsg _⟩
    · exact ih hb _

section Rule

variable {sig : TySymbol → List LSymbol} {P : LSymbol × LSymbol × List Descent → Prop}
  (hreg : ∀ (s : LSymbol) (tl : List Term) (vm : Vm), syms s = true → tl.length = s.lsArgs.length →
    P (s, ls, tl.map (describe vm)))
include hreg

theorem callTerm_forall (t : Term) : t.Wt sig → ∀ vsg cgr, (∀ e ∈ cgr, P e) →
    ∀ e ∈ callTerm syms ls t vsg cgr, P e := by
  induction t with
  | tvar a v | tconst a c ty | ttrue a | tfalse a => exact fun _ _ _ h => h
  | tapp a s tl ty ih =>
    intro hwt vsg cgr h
    have hl : ∀ (l : List Term), (∀ t ∈ l, t ∈ tl) → ∀ cgr, (∀ e ∈ cgr, P e) →
        ∀ e ∈ callTermList syms ls l vsg cgr, P e := by
      intro l
      induction l with
      | nil => exact fun _ _ h => h
      | cons t l ihl =>
        intro hsub cgr h
        have ht := hsub t mem_cons_self
        exact ihl (fun u hu => hsub u (mem_cons_of_mem _ hu)) _
          (ih t ht ((Term.wtList_iff sig tl).mp hwt.2 t ht) vsg cgr h)
    have hargs := hl tl (fun _ ht => ht) cgr h
    rw [callTerm]
    split
    · next hs =>
        intro e he
        rcases mem_registerCall.mp he with he | ⟨vm, _, rfl⟩
        · exact hargs e he
        · exact hreg s tl vm hs (by simpa using hwt.1.length)
    · exact hargs
  | tif a f t1 t2 hf h1 h2 =>
    intro hwt vsg cgr h
    exact h2 hwt.2.2.2.2 _ _ (h1 hwt.2.2.2.1 _ _ (hf hwt.2.2.1 _ _ h))
  | tlet a t v e ht he =>
    intro hwt vsg cgr h
    exact he hwt.2.2 _ _ (ht hwt.2.1 _ _ h)
  | tcase a t bl ht hbl =>
    intro hwt vsg cgr h
    have hb : ∀ (l : List (Pattern × Term)), (∀ b ∈ l, b ∈ bl) → ∀ cgr, (∀ e ∈ cgr, P e) →
        ∀ e ∈ callBranches syms ls t l vsg cgr, P e := by
      intro l
      induction l with
      | nil => exact fun _ _ h => h
      | cons b l ihl =>
        intro hsub cgr h
        have hb := hsub b mem_cons_self
        exact ihl (fun u hu => hsub u (mem_cons_of_mem _ hu)) _
          (hbl b hb ((Term.wtBranches_iff sig _ _ bl).mp hwt.2.2 b hb).2.2.2.2 _ cgr h)
    exact hb bl (fun _ hb => hb) _ (ht hwt.2.1 vsg cgr h)
  | teps a v f hf => exact fun hwt _ _ h => hf hwt.2 _ _ h
  | tquant a q vl trl f _ hf => exact fun hwt _ _ h => hf hwt.2.2 _ _ h
  | tbinop a op f g hf hg =>
    exact fun hwt _ _ h => hg hwt.2.2.2 _ _ (hf hwt.2.2.1 _ _ h)
  | tnot a f hf => exact fun hwt _ _ h => hf hwt.2 _ _ h

end Rule

theorem describe_holds {vm : Vm}
    (hvm : VmHolds args vm ρ) (t : Term) : (describe vm t).Holds args (E.ev ρ t) := by
  cases t with
  | tvar a v =>
    rw [describe, E.ev_var]
    cases h : vm v with
    | none => trivial
    | some d => exact hvm v d h
  | _ => trivial

theorem vsGraphLet_holds
    (hg : GraphHolds args vsg ρ) :
    GraphHolds args (vsGraphLet vsg t u) (update ρ u (E.ev ρ t)) := by
  cases t with
  | tvar a v =>
    refine (hg.map (fun vm hvm => hvm.update (fun d hd => ?_))).reverse
    rw [E.ev_var]
    exact hvm v d hd
  | _ => exact vsGraphDrop_holds hg

/-- Every call is registered, with descents that hold of its arguments. -/
theorem callTerm_sound {sig : TySymbol → List LSymbol} (hsig : SigOk sig)
    {s : LSymbol} {xs : List Value} (h : Calls E syms ρ t s xs) :
    t.Wt sig → ∀ {vsg}, GraphHolds args vsg ρ → ∀ cgr,
      ∃ v, (s, ls, v) ∈ callTerm syms ls t vsg cgr ∧ VecHolds args v xs := by
  induction h with
  | @app ρ a s tl ty hs =>
    rintro _ vsg ⟨vm, hvm, hh⟩ cgr
    refine ⟨tl.map (describe vm), ?_, ?_⟩
    · rw [callTerm]
      simp only [hs, if_true]
      exact mem_registerCall.mpr (.inr ⟨vm, hvm, rfl⟩)
    · refine forall₂_map_left_iff.mpr (forall₂_map_right_iff.mpr ?_)
      exact forall₂_same.mpr (fun t _ => describe_holds hh t)
  | @arg ρ a s' tl ty t s xs ht _ ih =>
    intro hwt vsg hg cgr
    obtain ⟨cgr', hsub⟩ : ∃ cgr', ∀ e ∈ callTerm syms ls t vsg cgr',
        e ∈ callTermList syms ls tl vsg cgr := mem_callTermList ht vsg cgr
    obtain ⟨v, hv, hh⟩ := ih ((Term.wtList_iff sig tl).mp hwt.2 t ht) hg cgr'
    refine ⟨v, ?_, hh⟩
    rw [callTerm]
    split
    · exact mem_registerCall.mpr (.inl (hsub _ hv))
    · exact hsub _ hv
  | @ifCond ρ a f t1 t2 s xs _ ih =>
    intro hwt vsg hg cgr
    obtain ⟨v, hv, hh⟩ := ih hwt.2.2.1 hg cgr
    exact ⟨v, callTerm_mono t2 _ _ _ (callTerm_mono t1 _ _ _ hv), hh⟩
  | @ifThen ρ a f t1 t2 s xs _ ih =>
    intro hwt vsg hg cgr
    obtain ⟨v, hv, hh⟩ := ih hwt.2.2.2.1 hg (callTerm syms ls f vsg cgr)
    exact ⟨v, callTerm_mono t2 _ _ _ hv, hh⟩
  | ifElse _ ih => exact fun hwt _ hg _ => ih hwt.2.2.2.2 hg _
  | @letTerm ρ a t u e s xs _ ih =>
    intro hwt vsg hg cgr
    obtain ⟨v, hv, hh⟩ := ih hwt.2.1 hg cgr
    exact ⟨v, callTerm_mono e _ _ _ hv, hh⟩
  | @letBody ρ a t v e s xs _ ih =>
    intro hwt vsg hg cgr
    exact ih hwt.2.2 (vsGraphLet_holds hg) _
  | caseTerm _ ih =>
    intro hwt vsg hg cgr
    obtain ⟨v, hv, hh⟩ := ih hwt.2.1 hg cgr
    exact ⟨v, callBranches_mono (fun b _ => callTerm_mono b.2) _ _ _ hv, hh⟩
  | @caseBranch ρ a t bl p e bs s xs hb hm _ ih =>
    intro hwt vsg hg cgr
    obtain ⟨_, hok, hlin, _, hwte⟩ := (Term.wtBranches_iff sig _ _ bl).mp hwt.2.2 (p, e) hb
    obtain ⟨cgr', hsub⟩ : ∃ cgr', ∀ c ∈ callTerm syms ls e (vsGraphPat vsg t p) cgr',
        c ∈ callBranches syms ls t bl vsg (callTerm syms ls t vsg cgr) :=
      mem_callBranches hb vsg _
    obtain ⟨v, hv, hh⟩ := ih hwte (vsGraphPat_holds hsig hok hlin hm hg) cgr'
    exact ⟨v, hsub _ hv, hh⟩
  | @eps ρ a v f x s xs _ ih =>
    intro hwt vsg hg cgr
    refine ih hwt.2 (hg.map (fun vm hvm => hvm.setAll ?_ ?_)) cgr
    · rintro w _ d ⟨⟩
    · intro w hw
      rw [mem_singleton] at hw
      exact update_of_ne hw _ _
  | @quant ρ a q vl trl f s xs ρ' hρ _ ih =>
    intro hwt vsg hg cgr
    refine ih hwt.2.2 (hg.map (fun vm hvm => hvm.setAll ?_ hρ)) cgr
    rintro w _ d ⟨⟩
  | @binLeft ρ a op f g s xs _ ih =>
    intro hwt vsg hg cgr
    obtain ⟨v, hv, hh⟩ := ih hwt.2.2.1 hg cgr
    exact ⟨v, callTerm_mono g _ _ _ hv, hh⟩
  | binRight _ ih => exact fun hwt _ hg _ => ih hwt.2.2.2 hg _
  | not _ ih => exact fun hwt _ hg _ => ih hwt.2 hg _

end Calls

end Why3
