import Why3.Core.PatternDispatch

/-!
# Correctness of pattern-matrix compilation

`compile` terminates; when it returns, its result behaves as the first row that
matches, and when it raises `NonExhaustive`, some values match no row.  The
invariant of the recursion is `MatrixOk`, its outcome is `Spec`; the theorem
for whole matrices is `compile_correct`.
-/

namespace Why3

open List Function Term
open Prod (fst snd)

variable {p : Pattern} {pl : List Pattern} {cs : LSymbol} {ql : List Pattern} {tys : List Ty}

namespace Pattern

variable {sig : TySymbol → List LSymbol} {V : ValueSpace sig}

/-- The two modes of `compile`: the complete constructor lists are given, or
none are (bare mode). -/
def Mode (sig : TySymbol → List LSymbol) (getConstructors : TySymbol → Option (List LSymbol)) :
    Prop :=
  getConstructors = (fun ts => some (sig ts)) ∨ getConstructors = fun _ => none

/-! ## The constructors of the column -/

section Column

variable {getConstructors : TySymbol → Option (List LSymbol)} {ty : Ty}

theorem mem_slsOfList {l : List LSymbol} : cs ∈ slsOfList l ↔ cs ∈ l := by
  simp [slsOfList]

theorem isConstr_of_mem (hsig : SigOk sig) (hmode : Mode sig getConstructors)
    (h : cs ∈ constrsOf sig ty) : isConstr getConstructors ty cs = true := by
  have hpos := constr_pos_of_mem hsig h
  cases ty with
  | tyvar v => simp [constrsOf] at h
  | tyapp ts l =>
    simp only [constrsOf] at h
    rcases hmode with rfl | rfl
    · simp [isConstr, constructorSet, hpos, mem_slsOfList, h]
    · simp [isConstr, constructorSet, hpos]

theorem constr_pos_of_isConstr (h : isConstr getConstructors ty cs = true) :
    0 < cs.lsConstr := by
  simp only [isConstr, Bool.and_eq_true, decide_eq_true_eq] at h
  exact h.1

theorem all_mem_of_length {l₁ l₂ : List LSymbol} (hnd : l₁.Nodup) (hsub : ∀ c ∈ l₁, c ∈ l₂)
    (hlen : l₂.length ≤ l₁.length) : ∀ c ∈ l₂, c ∈ l₁ := by
  intro c hc
  have hperm : l₁.Perm l₂ := (hnd.subperm hsub).perm_of_length_le hlen
  exact hperm.mem_iff.mpr hc

/-- `no_wilds` says whether some constructor heads no row. -/
theorem noWilds_iff (hsig : SigOk sig) (hmode : Mode sig getConstructors) {types : HeadMap}
    (hne : types ≠ []) (hnd : (types.map fst).Nodup)
    (hmem : ∀ s ∈ types.map fst, s ∈ constrsOf sig ty) :
    noWilds getConstructors types ty = true ↔
      ∀ cs ∈ constrsOf sig ty, cs ∈ types.map fst := by
  cases ty with
  | tyvar v =>
    obtain ⟨e, rest, rfl⟩ := exists_cons_of_ne_nil hne
    have := hmem e.1 (by simp)
    simp [constrsOf] at this
  | tyapp ts l =>
    rcases hmode with rfl | rfl
    · simp only [noWilds, constructorSet, Bool.false_eq_true, if_false, all_eq_true,
        mem_slsOfList, decide_eq_true_eq, constrsOf]
    · obtain ⟨⟨cs, ql⟩, rest, rfl⟩ := exists_cons_of_ne_nil hne
      have hcs : cs.lsConstr = (sig ts).length := (hsig ts).2 cs (hmem cs (by simp))
      simp only [noWilds, constructorSet, if_true, beq_iff_eq, constrsOf, hcs]
      constructor
      · intro hlen
        exact all_mem_of_length hnd hmem (by rw [length_map, hlen])
      · intro hall
        have h₁ : (((cs, ql) :: rest).map fst).Subperm (sig ts) := hnd.subperm hmem
        have h₂ : (sig ts).Subperm (((cs, ql) :: rest).map fst) :=
          (hsig ts).1.subperm hall
        have e₁ := h₁.length_le
        have e₂ := h₂.length_le
        rw [length_map] at e₁ e₂
        omega

theorem uncoveredHead_spec (hmode : getConstructors = fun ts => some (sig ts)) {types : HeadMap}
    (h : types = [] ∨ ∃ cs ∈ constrsOf sig ty, cs ∉ types.map fst) {d : V.Val}
    (hm : matchPat V.dest
      (uncoveredHead (constructorSet getConstructors ty).2 types ty) d ≠ none) :
    ∀ s ∈ types.map fst, ∀ dl, V.dest ty d ≠ some (s, dl) := by
  intro s hs dl hd
  rcases h with rfl | ⟨cs, hcs, hno⟩
  · simp at hs
  · have hset : cs ∈ (constructorSet getConstructors ty).2 := by
      subst hmode
      cases ty with
      | tyvar v => simp [constrsOf] at hcs
      | tyapp ts l => simpa [constructorSet, mem_slsOfList, constrsOf] using hcs
    unfold uncoveredHead at hm
    split at hm
    · next cs' heq =>
        have hcs' := find?_some heq
        simp only [decide_eq_true_eq] at hcs'
        simp only [matchPat, hd] at hm
        split at hm
        · next hs' => exact hcs' (hs' ▸ hs)
        · exact hm rfl
    · next heq =>
        rw [find?_eq_none] at heq
        have := heq cs hset
        simp only [decide_eq_true_eq, not_not] at this
        exact hno this

end Column

/-! ## The invariant of the recursion -/

section Invariant

variable {α R : Type} (E : TermSem V) (evA : α → (VSymbol → V.Val) → R)

/-- The action does not look at variables from the tag `k` on. -/
def Below (k : ℕ) (a : α) : Prop :=
  ∀ ρ ρ' : VSymbol → V.Val, (∀ v : VSymbol, v.vsName < k → ρ v = ρ' v) → evA a ρ = evA a ρ'

structure RowOk (k A : ℕ) (tl : List Term) (tys : List Ty) (r : Row α) : Prop where
  tys : r.1.map patTy = tys
  ok : ∀ p ∈ r.1, p.Ok sig
  vars : ∀ p ∈ r.1, ∀ v ∈ p.patVars, v.vsName < k ∧ ∀ t ∈ tl, v ∉ t.freeVars
  arity : ∀ p ∈ r.1, maxArity p ≤ A
  act : Below evA k r.2

/-- The rows are well typed for the terms `tl`; the tags from `k` on are free;
`A` bounds the number of arguments of the constructors. -/
structure MatrixOk (k A : ℕ) (tl : List Term) (tys : List Ty) (rl : List (Row α)) : Prop where
  ttys : tl.map tTy = tys.map some
  wt : ∀ t ∈ tl, E.wt t
  below : ∀ t ∈ tl, ∀ v ∈ t.freeVars, v.vsName < k
  rows : ∀ r ∈ rl, RowOk evA k A tl tys r

variable {E evA} {k k' A : ℕ} {t : Term} {tl al : List Term} {ty : Ty} {tys : List Ty}
  {cs : LSymbol} {ql : List Pattern} {types : HeadMap} {rl : List (Row α)}
  {mkLet : VSymbol → Term → α → α}

variable {a : α}

theorem Below.mono (h : Below evA k a) (hk : k ≤ k') : Below evA k' a :=
  fun ρ ρ' hρ => h ρ ρ' (fun v hv => hρ v (by omega))

theorem Below.let_ (hlet : ∀ x t a ρ, evA (mkLet x t a) ρ = evA a (update ρ x (E.ev ρ t)))
    {x : VSymbol} (h : Below evA k a) (ht : ∀ v ∈ t.freeVars, v.vsName < k) :
    Below evA k (mkLet x t a) := by
  intro ρ ρ' hρ
  rw [hlet, hlet, E.ev_congr (fun v hv => hρ v (ht v hv))]
  refine h _ _ (fun v hv => ?_)
  by_cases hvx : v = x
  · rw [hvx, update_self, update_self]
  · rw [update_of_ne hvx, update_of_ne hvx, hρ v hv]

theorem MatrixOk.columnOk (h : MatrixOk E evA k A (t :: tl) (ty :: tys) rl) :
    ColumnOk sig t ty rl := by
  intro r hr
  obtain ⟨htys, hok, hvars, _, _⟩ := h.rows r hr
  obtain ⟨p, pl, hpl⟩ : ∃ p pl, r.1 = p :: pl := by
    apply exists_cons_of_ne_nil
    intro hnil
    simp [hnil] at htys
  rw [hpl] at htys hok hvars
  simp only [map_cons, List.cons.injEq] at htys
  exact ⟨p, pl, hpl, htys.1, fun q hq => ⟨hok q hq, fun v hv =>
    (hvars q hq v hv).2 t mem_cons_self⟩⟩

/-- The arguments of a constructor, as terms of new columns: subterms of the
matched term or fresh variables. -/
structure ArgsOk (E : TermSem V) (k k' : ℕ) (t : Term) (cs : LSymbol) (ty : Ty)
    (al : List Term) : Prop where
  ttys : al.map tTy = (argTys cs ty).map some
  wt : ∀ u ∈ al, E.wt u
  below : ∀ u ∈ al, ∀ v ∈ u.freeVars, v.vsName < k' ∧ (v ∈ t.freeVars ∨ k ≤ v.vsName)

theorem ArgsOk.length (h : ArgsOk E k k' t cs ty al) : al.length = (argTys cs ty).length := by
  simpa using congrArg List.length h.ttys

theorem RowOk.por {q : Pattern} (h : RowOk evA k A tl tys (.por p q :: pl, a)) :
    RowOk evA k A tl tys (p :: pl, a) ∧ RowOk evA k A tl tys (q :: pl, a) := by
  obtain ⟨htys, hok, hvars, harity, hact⟩ := h
  have hpq := hok _ mem_cons_self
  have hvpq := hvars _ mem_cons_self
  have hapq := harity _ mem_cons_self
  simp only [maxArity, max_le_iff] at hapq
  constructor
  · refine ⟨by simpa [patTy] using htys, ?_, ?_, ?_, hact⟩
    · exact forall_mem_cons.mpr ⟨hpq.1, fun r hr => hok r (mem_cons_of_mem _ hr)⟩
    · exact forall_mem_cons.mpr ⟨fun v hv => hvpq v (by simpa [patVars] using hv),
        fun r hr => hvars r (mem_cons_of_mem _ hr)⟩
    · exact forall_mem_cons.mpr ⟨hapq.1, fun r hr => harity r (mem_cons_of_mem _ hr)⟩
  · refine ⟨by simpa [patTy, hpq.2.2.1] using htys, ?_, ?_, ?_, hact⟩
    · exact forall_mem_cons.mpr ⟨hpq.2.1, fun r hr => hok r (mem_cons_of_mem _ hr)⟩
    · exact forall_mem_cons.mpr
        ⟨fun v hv => hvpq v (by simpa [patVars] using (hpq.2.2.2 v).mpr hv),
          fun r hr => hvars r (mem_cons_of_mem _ hr)⟩
    · exact forall_mem_cons.mpr ⟨hapq.2, fun r hr => harity r (mem_cons_of_mem _ hr)⟩

theorem RowOk.pas {x : VSymbol} {b : α} (h : RowOk evA k A tl tys (.pas p x :: pl, a))
    (hb : Below evA k b) : RowOk evA k A tl tys (p :: pl, b) := by
  obtain ⟨htys, hok, hvars, harity, _⟩ := h
  have hpx := hok _ mem_cons_self
  refine ⟨by simpa [patTy, hpx.2] using htys, ?_, ?_, ?_, hb⟩
  · exact forall_mem_cons.mpr ⟨hpx.1, fun r hr => hok r (mem_cons_of_mem _ hr)⟩
  · exact forall_mem_cons.mpr
      ⟨fun v hv => hvars _ mem_cons_self v (by simp [patVars, hv]),
        fun r hr => hvars r (mem_cons_of_mem _ hr)⟩
  · exact forall_mem_cons.mpr
      ⟨by simpa [maxArity] using harity _ mem_cons_self,
        fun r hr => harity r (mem_cons_of_mem _ hr)⟩

/-- The head of a row replaced by the columns `pl'` of the arguments `al`. -/
theorem RowOk.expand {pl' : List Pattern}
    (h : RowOk evA k A (t :: tl) (ty :: tys) (p :: pl, a)) (hal : ArgsOk E k k' t cs ty al)
    (hk : k ≤ k') (htys : pl'.map patTy = argTys cs ty) (hok : ∀ q ∈ pl', q.Ok sig)
    (hvars : ∀ q ∈ pl', ∀ v ∈ q.patVars, v ∈ p.patVars) (harity : ∀ q ∈ pl', maxArity q ≤ A) :
    RowOk evA k' A (al.reverse ++ tl) ((argTys cs ty).reverse ++ tys) (pl'.reverse ++ pl, a) := by
  obtain ⟨h₁, h₂, h₃, h₄, h₅⟩ := h
  simp only [map_cons, List.cons.injEq] at h₁
  -- a variable of the row is neither one of `t` nor a fresh one
  have key : ∀ v : VSymbol, (v.vsName < k ∧ ∀ u ∈ t :: tl, v ∉ u.freeVars) →
      v.vsName < k' ∧ ∀ u ∈ al.reverse ++ tl, v ∉ u.freeVars := by
    intro v hv
    refine ⟨by omega, fun u hu => ?_⟩
    rcases mem_append.mp hu with hu | hu
    · intro hvu
      rcases (hal.below u (mem_reverse.mp hu) v hvu).2 with hvt | hvk
      · exact hv.2 t mem_cons_self hvt
      · omega
    · exact hv.2 u (mem_cons_of_mem _ hu)
  refine ⟨?_, ?_, ?_, ?_, h₅.mono hk⟩
  · rw [map_append, map_reverse, htys, h₁.2]
  · intro q hq
    rcases mem_append.mp hq with hq | hq
    · exact hok q (mem_reverse.mp hq)
    · exact h₂ q (mem_cons_of_mem _ hq)
  · intro q hq v hv
    rcases mem_append.mp hq with hq | hq
    · exact key v (h₃ p mem_cons_self v (hvars q (mem_reverse.mp hq) v hv))
    · exact key v (h₃ q (mem_cons_of_mem _ hq) v hv)
  · intro q hq
    rcases mem_append.mp hq with hq | hq
    · exact harity q (mem_reverse.mp hq)
    · exact h₄ q (mem_cons_of_mem _ hq)

theorem RowOk.tail {p : Pattern} {pl : List Pattern}
    (h : RowOk evA k A (t :: tl) (ty :: tys) (p :: pl, a)) : RowOk evA k A tl tys (pl, a) := by
  obtain ⟨h₁, h₂, h₃, h₄, h₅⟩ := h
  simp only [map_cons, List.cons.injEq] at h₁
  exact ⟨h₁.2, fun q hq => h₂ q (mem_cons_of_mem _ hq),
    fun q hq v hv => ⟨(h₃ q (mem_cons_of_mem _ hq) v hv).1, fun u hu =>
      (h₃ q (mem_cons_of_mem _ hq) v hv).2 u (mem_cons_of_mem _ hu)⟩,
    fun q hq => h₄ q (mem_cons_of_mem _ hq), h₅⟩

/-- The bindings of the heads are well typed, as the heads are. -/
def TypesOk (A : ℕ) (ty : Ty) (types : HeadMap) : Prop :=
  ∀ e ∈ types, e.2.map patTy = argTys e.1 ty ∧ e.2.length ≤ A

theorem mem_of_lookup (h : types.lookup cs = some ql) : (cs, ql) ∈ types := by
  induction types with
  | nil => simp at h
  | cons e types ih =>
    rcases e with ⟨s, pl⟩
    rw [List.lookup_cons] at h
    by_cases hs : cs = s
    · subst hs
      simp only [beq_self_eq_true, Option.some.injEq] at h
      rw [h]
      exact mem_cons_self
    · have hbeq : (cs == s) = false := by simpa using hs
      rw [hbeq] at h
      exact mem_cons_of_mem _ (ih h)

theorem MatrixOk.dispatch
    (hlet : ∀ x t a ρ, evA (mkLet x t a) ρ = evA a (update ρ x (E.ev ρ t)))
    (h : MatrixOk E evA k A (t :: tl) (ty :: tys) rl) (htypes : TypesOk A ty types)
    (hal : ArgsOk E k k' t cs ty al) (hk : k ≤ k') :
    (∀ r ∈ (dispatchRows mkLet types t rl).1 cs,
      RowOk evA k' A (al.reverse ++ tl) ((argTys cs ty).reverse ++ tys) r) ∧
    ∀ r ∈ (dispatchRows mkLet types t rl).2, RowOk evA k A tl tys r := by
  have hb : ∀ {x : VSymbol} {a : α}, Below evA k a → Below evA k (mkLet x t a) :=
    fun ha => ha.let_ hlet (h.below t mem_cons_self)
  have hall := @dispatchRows_forall α mkLet types t
    (fun p pl a => RowOk evA k A (t :: tl) (ty :: tys) (p :: pl, a))
    (fun s r => s = cs →
      RowOk evA k' A (al.reverse ++ tl) ((argTys cs ty).reverse ++ tys) r)
    (fun r => RowOk evA k A tl tys r)
    (fun hQ => hQ.por)
    (fun hQ => hQ.pas (hb hQ.act))
    (fun hQ => ⟨hQ.tys, forall_mem_cons.mpr
        ⟨trivial, fun q hq => hQ.ok q (mem_cons_of_mem _ hq)⟩,
      forall_mem_cons.mpr
        ⟨by simp [patVars], fun q hq => hQ.vars q (mem_cons_of_mem _ hq)⟩,
      forall_mem_cons.mpr
        ⟨by simp [maxArity], fun q hq => hQ.arity q (mem_cons_of_mem _ hq)⟩, hb hQ.act⟩)
    (by
      rintro s pl' ty' pl a hQ rfl
      have hp := hQ.ok _ mem_cons_self
      simp only [Ok, okList_iff] at hp
      have hty : ty' = ty := by
        have := hQ.tys
        simp only [map_cons, List.cons.injEq, patTy] at this
        exact this.1
      subst hty
      refine hQ.expand hal hk hp.2.1 hp.2.2 ?_ ?_
      · intro q hq v hv
        simp only [patVars, patVarsList_eq, mem_flatMap]
        exact ⟨q, hq, hv⟩
      · have := hQ.arity _ mem_cons_self
        simp only [maxArity, max_le_iff] at this
        exact rowMaxArity_le.mp this.2)
    (by
      rintro ty' pl a s ql hQ hl rfl
      refine hQ.expand hal hk ?_ ?_ ?_ ?_
      · have := (htypes _ (mem_of_lookup hl)).1
        simpa [comp_def, patTy] using this
      · intro q hq
        obtain ⟨q', _, rfl⟩ := mem_map.mp hq
        trivial
      · intro q hq v hv
        obtain ⟨q', _, rfl⟩ := mem_map.mp hq
        simp [patVars] at hv
      · intro q hq
        obtain ⟨q', _, rfl⟩ := mem_map.mp hq
        simp [maxArity])
    (fun hQ => hQ.tail)
    rl
    (by
      intro r hr
      obtain ⟨p, pl, hpl, _⟩ := h.columnOk r hr
      refine ⟨p, pl, hpl, ?_⟩
      have := h.rows r hr
      rcases r with ⟨pl', a⟩
      simp only at hpl
      subst hpl
      exact this)
  exact ⟨fun r hr => hall.1 cs r hr rfl, hall.2⟩

theorem MatrixOk.cases
    (hlet : ∀ x t a ρ, evA (mkLet x t a) ρ = evA a (update ρ x (E.ev ρ t)))
    (h : MatrixOk E evA k A (t :: tl) (ty :: tys) rl) (htypes : TypesOk A ty types)
    (hal : ArgsOk E k k' t cs ty al) (hk : k ≤ k') :
    MatrixOk E evA k' A (al.reverse ++ tl) ((argTys cs ty).reverse ++ tys)
      ((dispatchRows mkLet types t rl).1 cs) := by
  have ht := h.ttys
  simp only [map_cons, List.cons.injEq] at ht
  refine ⟨?_, ?_, ?_, (h.dispatch hlet htypes hal hk).1⟩
  · rw [map_append, map_append, map_reverse, map_reverse, hal.ttys, ht.2]
  · intro u hu
    rcases mem_append.mp hu with hu | hu
    · exact hal.wt u (mem_reverse.mp hu)
    · exact h.wt u (mem_cons_of_mem _ hu)
  · intro u hu v hv
    rcases mem_append.mp hu with hu | hu
    · exact (hal.below u (mem_reverse.mp hu) v hv).1
    · have := h.below u (mem_cons_of_mem _ hu) v hv
      omega

end Invariant

/-! ## The outcome of the recursion -/

variable {ρ : VSymbol → V.Val}

section Outcome

variable {α R : Type} {E : TermSem V} {evA : α → (VSymbol → V.Val) → R}
  {getConstructors : TySymbol → Option (List LSymbol)}

/-- What an exception tells: some values of the terms match no row, and the
uncovered patterns (when the constructors are known and the terms are
variables) match nothing that a row matches; the fuel runs out only if it was
less than `compileFuel`. -/
def ErrSpec (V : ValueSpace sig) (getConstructors : TySymbol → Option (List LSymbol))
    (fuel A : ℕ) (tl : List Term) (rl : List (Row α)) : PatternExn → Prop
  | .nonExhaustive pl => pl.length = tl.length ∧
      (∃ ds, List.Forall₂ (Compat V) tl ds ∧ NoMatch V.dest rl ds) ∧
      (getConstructors = (fun ts => some (sig ts)) → (∀ t ∈ tl, ∃ a v, t = .tvar a v) →
        ∀ ds, matchRow V.dest pl ds ≠ none → NoMatch V.dest rl ds)
  | .outOfFuel => fuel < matrixCost rl * (A + 1) + tl.length + 1
  | _ => False

/-- A result does what the first row that matches does. -/
def OkSpec (E : TermSem V) (evA : α → (VSymbol → V.Val) → R) (k : ℕ) (tl : List Term)
    (rl : List (Row α)) (r : α × ℕ) : Prop :=
  k ≤ r.2 ∧ ∀ ρ, V.Typed ρ → runRows V.dest evA ρ (tl.map (E.ev ρ)) rl = some (evA r.1 ρ)

variable {k k' A fuel : ℕ} {t : Term} {tl al : List Term} {ty : Ty} {tys : List Ty}
  {cs : LSymbol} {ql : List Pattern} {types : HeadMap} {rl : List (Row α)}
  {mkLet : VSymbol → Term → α → α}

theorem cont_eq {acc : List Pattern} : ∀ {vl : List Ty} {pl : List Pattern},
    vl.length ≤ pl.length →
    cont cs ty acc vl pl =
      .ok (.papp cs ((pl.take vl.length).reverse ++ acc) ty :: pl.drop vl.length) := by
  intro vl
  induction vl generalizing acc with
  | nil => intro pl _; cases pl <;> rfl
  | cons v vl ih =>
    intro pl h
    cases pl with
    | nil => simp at h
    | cons p pl =>
      rw [cont, ih (by simpa using h)]
      simp

theorem matchArgs_length {D : Type} {dest : Ty → D → Option (LSymbol × List D)} :
    ∀ {dl : List D}, matchArgs dest pl dl ≠ none → pl.length = dl.length := by
  induction pl with
  | nil =>
    intro dl h
    cases dl with
    | nil => rfl
    | cons d dl => simp [matchArgs] at h
  | cons p pl ih =>
    intro dl h
    cases dl with
    | nil => simp [matchArgs] at h
    | cons d dl =>
      rw [matchArgs_cons] at h
      have : matchArgs dest pl dl ≠ none := by
        intro hn
        rw [hn] at h
        cases hp : matchPat dest p d <;> simp [hp] at h
      simp [ih this]

theorem length_argTys (cs : LSymbol) (ty : Ty) : (argTys cs ty).length = cs.lsArgs.length := by
  unfold argTys
  split <;> simp

/-- The facts about the leftmost column that the proof uses. -/
structure ColumnCtx (E : TermSem V) (evA : α → (VSymbol → V.Val) → R)
    (mkLet : VSymbol → Term → α → α) (k A : ℕ) (t : Term) (tl : List Term) (ty : Ty)
    (tys : List Ty) (rl : List (Row α)) (types : HeadMap) : Prop where
  hlet : ∀ x t a ρ, evA (mkLet x t a) ρ = evA a (update ρ x (E.ev ρ t))
  matrix : MatrixOk E evA k A (t :: tl) (ty :: tys) rl
  typesOk : TypesOk A ty types
  nodup : (types.map fst).Nodup
  heads : ∀ s, s ∈ types.map fst ↔ ∃ r ∈ rl, s ∈ (rowHeadArgs r).map fst
  constr : ∀ s ∈ types.map fst, s ∈ constrsOf sig ty

theorem lookup_of_mem_keys (h : cs ∈ types.map fst) : ∃ ql, types.lookup cs = some ql := by
  induction types with
  | nil => simp at h
  | cons e types ih =>
    rcases e with ⟨s, pl⟩
    rw [List.lookup_cons]
    by_cases hs : cs = s
    · subst hs
      exact ⟨pl, by simp⟩
    · have hbeq : (cs == s) = false := by simpa using hs
      rw [hbeq]
      simp only [map_cons, mem_cons, hs, false_or] at h
      exact ih h

theorem lookup_of_mem_nodup (hnd : (types.map fst).Nodup) (h : (cs, ql) ∈ types) :
    types.lookup cs = some ql := by
  induction types with
  | nil => cases h
  | cons e types ih =>
    rcases e with ⟨s, pl⟩
    rw [map_cons, nodup_cons] at hnd
    rw [List.lookup_cons]
    rcases mem_cons.mp h with heq | h
    · cases heq
      simp
    · have hkey : cs ∈ types.map fst := mem_map_of_mem h
      have hs : cs ≠ s := fun hs => hnd.1 (hs ▸ hkey)
      have hbeq : (cs == s) = false := by simpa using hs
      rw [hbeq]
      exact ih hnd.2 h

theorem ColumnCtx.head_ty (C : ColumnCtx E evA mkLet k A t tl ty tys rl types) :
    t.tTy = some ty := by
  have := C.matrix.ttys
  simp only [map_cons, List.cons.injEq] at this
  exact this.1

theorem ColumnCtx.not_head (C : ColumnCtx E evA mkLet k A t tl ty tys rl types) {d : V.Val}
    (h : ∀ s ∈ types.map fst, ∀ dl, V.dest ty d ≠ some (s, dl)) :
    ∀ r ∈ rl, ∀ s ∈ (rowHeadArgs r).map fst, ∀ dl, V.dest ty d ≠ some (s, dl) :=
  fun r hr s hs => h s ((C.heads s).mpr ⟨r, hr, hs⟩)

theorem ColumnCtx.errSpec_wilds (C : ColumnCtx E evA mkLet k A t tl ty tys rl types)
    (hcompat : ∃ d, Compat V t d ∧ ∀ s ∈ types.map fst, ∀ dl, V.dest ty d ≠ some (s, dl))
    (hunc : (∃ a v, t = .tvar a v) →
      types = [] ∨ ∃ cs ∈ constrsOf sig ty, cs ∉ types.map fst)
    {e e' : PatternExn}
    (hrec : ErrSpec V getConstructors fuel A tl (dispatchRows mkLet types t rl).2 e)
    (he : compWilds (α := α) (constructorSet getConstructors ty).2 types ty (.error e) = .error e') :
    ErrSpec V getConstructors (fuel + 1) A (t :: tl) rl e' := by
  have hcol := C.matrix.columnOk
  cases e with
  | nonExhaustive pl =>
    simp only [compWilds, Except.error.injEq] at he
    subst he
    obtain ⟨hlen, ⟨ds, hds, hno⟩, hvars⟩ := hrec
    obtain ⟨d, hd, hdno⟩ := hcompat
    refine ⟨by simp [hlen], ⟨d :: ds, .cons hd hds, ?_⟩, ?_⟩
    · exact (noMatch_dispatchRows_wilds V.dest (C.not_head hdno) hcol).mp hno
    · intro hmode hvar ds' hm
      cases ds' with
      | nil => simp [matchRow] at hm
      | cons d' ds' =>
        rw [matchRow_cons] at hm
        have hhead : matchPat V.dest
            (uncoveredHead (constructorSet getConstructors ty).2 types ty) d' ≠ none := by
          intro hn
          simp [hn] at hm
        have htail : matchRow V.dest pl ds' ≠ none := by
          intro hn
          cases hp : matchPat V.dest
            (uncoveredHead (constructorSet getConstructors ty).2 types ty) d' <;>
            simp [hn, hp] at hm
        have hspec := uncoveredHead_spec hmode (hunc (hvar t mem_cons_self)) hhead
        have hno' := hvars hmode (fun u hu => hvar u (mem_cons_of_mem _ hu)) ds' htail
        exact (noMatch_dispatchRows_wilds V.dest (C.not_head hspec) hcol).mp hno'
  | outOfFuel =>
    simp only [compWilds, Except.error.injEq] at he
    subst he
    have hle := Nat.mul_le_mul_right (A + 1) (matrixCost_wilds_le mkLet types t rl)
    simp only [ErrSpec, length_cons] at hrec ⊢
    omega
  | constructorExpected fs ty' | termExpected u | assertFalse => exact hrec.elim

theorem ColumnCtx.okSpec_wilds (C : ColumnCtx E evA mkLet k A t tl ty tys rl types)
    {a : α}
    (hdno : ∀ s ∈ types.map fst, ∀ dl, V.dest ty (E.ev ρ t) ≠ some (s, dl))
    (hrec : runRows V.dest evA ρ (tl.map (E.ev ρ)) (dispatchRows mkLet types t rl).2 =
      some (evA a ρ)) :
    runRows V.dest evA ρ ((t :: tl).map (E.ev ρ)) rl = some (evA a ρ) := by
  rw [← hrec, map_cons]
  refine (runRows_dispatchRows_wilds V.dest E.ev C.hlet ?_ (C.not_head hdno)
    C.matrix.columnOk).symm
  intro bs hbs
  exact E.ev_congr (fun v hv => bindAll_of_not_mem (fun hmem => hbs v hmem hv))

theorem ColumnCtx.errSpec_cases (C : ColumnCtx E evA mkLet k A t tl ty tys rl types)
    (hcs : types.lookup cs = some ql) (hal : ArgsOk E k k' t cs ty al)
    (hcompat : ∀ d dl, V.mem ty d → V.dest ty d = some (cs, dl) →
      List.Forall₂ (Compat V) al dl → Compat V t d)
    (hvar : (∃ a v, t = .tvar a v) → ∀ u ∈ al, ∃ a v, u = .tvar a v) {e e' : PatternExn}
    (hrec : ErrSpec V getConstructors fuel A (al.reverse ++ tl)
      ((dispatchRows mkLet types t rl).1 cs) e)
    (he : compCases (α := α) cs ty (.error e) = .error e') :
    ErrSpec V getConstructors (fuel + 1) A (t :: tl) rl e' := by
  have hcol := C.matrix.columnOk
  have hmem := mem_of_lookup hcs
  have hkey : cs ∈ types.map fst := mem_map_of_mem hmem
  have hql : ql.length = (argTys cs ty).length := by
    rw [← (C.typesOk _ hmem).1, length_map]
  have hallen := hal.length
  cases e with
  | nonExhaustive pl =>
    obtain ⟨hlen, ⟨ds, hds, hno⟩, hvars⟩ := hrec
    rw [length_append, length_reverse] at hlen
    have hle : cs.lsArgs.length ≤ pl.length := by
      rw [← length_argTys cs ty, ← hallen]
      omega
    simp only [compCases, cont_eq hle, Except.error.injEq, append_nil] at he
    subst he
    rw [← length_argTys cs ty, ← hallen]
    refine ⟨by simp only [length_cons, length_drop]; omega, ?_, ?_⟩
    · -- the values of the arguments go back under the constructor
      obtain ⟨ds₁, ds₂, h₁, h₂, rfl⟩ := exists_append_of_forall₂ hds
      have h₁' : List.Forall₂ (Compat V) al ds₁.reverse := by
        rw [← forall₂_reverse_iff, reverse_reverse]
        exact h₁
      obtain ⟨d, hd, hdest⟩ := V.con (C.constr cs hkey) (forall₂_compat_mem h₁' hal.ttys)
      refine ⟨d :: ds₂, .cons (hcompat d _ hd hdest h₁') h₂, ?_⟩
      have hdl : al.length = ds₁.reverse.length := h₁'.length_eq
      rw [← reverse_reverse ds₁] at hno
      exact (noMatch_dispatchRows_cases V.dest hdest hcs (by omega) (by omega) hcol).mp hno
    · intro hmode hv ds' hm
      cases ds' with
      | nil => simp [matchRow] at hm
      | cons d' ds' =>
        rw [matchRow_cons] at hm
        have hhead : matchPat V.dest (.papp cs (pl.take al.length).reverse ty) d' ≠ none := by
          intro hn
          simp [hn] at hm
        have htail : matchRow V.dest (pl.drop al.length) ds' ≠ none := by
          intro hn
          cases hp : matchPat V.dest (.papp cs (pl.take al.length).reverse ty) d' <;>
            simp [hn, hp] at hm
        simp only [matchPat] at hhead
        split at hhead
        · next cs' dl hdest =>
            split at hhead
            · next hs =>
                subst hs
                have hl := matchArgs_length hhead
                rw [length_reverse, length_take] at hl
                have hrow : matchRow V.dest pl (dl.reverse ++ ds') ≠ none := by
                  have hsplit : pl = (pl.take al.length).reverse.reverse ++
                      pl.drop al.length := by
                    rw [reverse_reverse, take_append_drop]
                  rw [hsplit, matchRow_reverse_append V.dest
                    (by rw [length_reverse, length_take]; exact hl)]
                  intro hn
                  cases hA : matchArgs V.dest (pl.take al.length).reverse dl with
                  | none => exact hhead hA
                  | some bs =>
                    cases hB : matchRow V.dest (pl.drop al.length) ds' with
                    | none => exact htail hB
                    | some bs' => simp [hA, hB] at hn
                have hno' := hvars hmode (by
                  intro u hu
                  rcases mem_append.mp hu with hu | hu
                  · exact hvar (hv t mem_cons_self) u (mem_reverse.mp hu)
                  · exact hv u (mem_cons_of_mem _ hu)) _ hrow
                exact (noMatch_dispatchRows_cases V.dest hdest hcs (by omega) (by omega)
                  hcol).mp hno'
            · exact absurd rfl hhead
        · exact absurd rfl hhead
  | outOfFuel =>
    simp only [compCases, Except.error.injEq] at he
    subst he
    have hlt := matrixCost_cases_lt mkLet types t ((C.heads cs).mp hkey)
    have hA : ql.length ≤ A := (C.typesOk _ hmem).2
    have hmul := Nat.mul_le_mul_right (A + 1) (Nat.succ_le_of_lt hlt)
    rw [Nat.succ_mul] at hmul
    simp only [ErrSpec, length_cons, length_append, length_reverse] at hrec ⊢
    omega
  | constructorExpected fs ty' | termExpected u | assertFalse => exact hrec.elim

theorem ColumnCtx.okSpec_cases (C : ColumnCtx E evA mkLet k A t tl ty tys rl types)
    (hcs : types.lookup cs = some ql) {dl : List V.Val} {r : R}
    (hdest : V.dest ty (E.ev ρ t) = some (cs, dl)) (hlen : dl.length = (argTys cs ty).length)
    (hrec : runRows V.dest evA ρ (dl.reverse ++ tl.map (E.ev ρ))
      ((dispatchRows mkLet types t rl).1 cs) = some r) :
    runRows V.dest evA ρ ((t :: tl).map (E.ev ρ)) rl = some r := by
  have hmem := mem_of_lookup hcs
  have hql : ql.length = (argTys cs ty).length := by
    rw [← (C.typesOk _ hmem).1, length_map]
  rw [← hrec, map_cons]
  refine (runRows_dispatchRows_cases V.dest E.ev C.hlet ?_ hdest hcs (by omega) (by omega)
    C.matrix.columnOk).symm
  intro bs hbs
  exact E.ev_congr (fun v hv => bindAll_of_not_mem (fun hmem => hbs v hmem hv))

end Outcome

/-! ## Fresh variables -/

section Fresh

variable {D : Type} {k : ℕ} {ql : List Pattern}

theorem length_freshVars (k : ℕ) (ql : List Pattern) : (freshVars k ql).length = ql.length := by
  induction ql generalizing k with
  | nil => rfl
  | cons q ql ih => simp [freshVars, ih]

theorem map_vsTy_freshVars (k : ℕ) (ql : List Pattern) :
    (freshVars k ql).map VSymbol.vsTy = ql.map patTy := by
  induction ql generalizing k with
  | nil => rfl
  | cons q ql ih => simp [freshVars, ih]

theorem freshVars_name {v : VSymbol} (h : v ∈ freshVars k ql) :
    k ≤ v.vsName ∧ v.vsName < k + ql.length := by
  induction ql generalizing k with
  | nil => simp [freshVars] at h
  | cons q ql ih =>
    rw [freshVars, mem_cons] at h
    rcases h with rfl | h
    · simp
    · have := ih h
      simp only [length_cons]
      omega

theorem nodup_freshVars (k : ℕ) (ql : List Pattern) : (freshVars k ql).Nodup := by
  induction ql generalizing k with
  | nil => exact nodup_nil
  | cons q ql ih =>
    rw [freshVars, nodup_cons]
    refine ⟨fun h => ?_, ih (k + 1)⟩
    have h' : k + 1 ≤ k := (freshVars_name h).1
    omega

theorem matchArgs_vars (dest : Ty → D → Option (LSymbol × List D)) {vl : List VSymbol} :
    ∀ {dl : List D}, vl.length = dl.length →
      matchArgs dest (vl.map .pvar) dl = some (vl.zip dl).reverse := by
  induction vl with
  | nil =>
    intro dl h
    have hdl : dl = [] := length_eq_zero_iff.mp h.symm
    subst hdl
    rfl
  | cons v vl ih =>
    intro dl h
    cases dl with
    | nil => simp at h
    | cons d dl =>
      rw [map_cons, matchArgs_cons, ih (by simpa using h), matchPat]
      simp

/-- Distinct variables bound to values take these values. -/
theorem map_bindAll_zip {vl : List VSymbol} (hnd : vl.Nodup) : ∀ {ρ : VSymbol → D} {dl : List D},
    vl.length = dl.length → vl.map (bindAll ρ (vl.zip dl).reverse) = dl := by
  induction vl with
  | nil =>
    intro ρ dl h
    have hdl : dl = [] := length_eq_zero_iff.mp h.symm
    subst hdl
    rfl
  | cons v vl ih =>
    intro ρ dl h
    cases dl with
    | nil => simp at h
    | cons d dl =>
      have hlen : vl.length = dl.length := by simpa using h
      rw [zip_cons_cons, reverse_cons, bindAll_append, map_cons,
        ih (nodup_cons.mp hnd).2 hlen]
      congr 1
      have hv : v ∉ ((vl.zip dl).reverse).map fst := by
        rw [map_reverse, mem_reverse, map_fst_zip (by omega)]
        exact (nodup_cons.mp hnd).1
      rw [bindAll_of_not_mem hv, bindAll_cons, update_self]

theorem mem_bindAll {P : VSymbol → D → Prop} {ρ : VSymbol → D} (hρ : ∀ v, P v (ρ v))
    {bs : List (VSymbol × D)} (h : ∀ b ∈ bs, P b.1 b.2) : ∀ v, P v (bindAll ρ bs v) := by
  induction bs with
  | nil => exact hρ
  | cons b bs ih =>
    intro v
    rcases b with ⟨w, d⟩
    rw [bindAll_cons]
    by_cases hv : v = w
    · subst hv
      rw [update_self]
      exact h _ mem_cons_self
    · rw [update_of_ne hv]
      exact ih (fun b hb => h b (mem_cons_of_mem _ hb)) v

end Fresh

/-! ## The branches of a case analysis -/

section Branches

variable {α R : Type} {E : TermSem V} {evA : α → (VSymbol → V.Val) → R}
  {getConstructors : TySymbol → Option (List LSymbol)}

variable {k A fuel : ℕ} {t : Term} {tl : List Term} {ty : Ty} {tys : List Ty}
  {types : HeadMap} {rl : List (Row α)} {mkLet : VSymbol → Term → α → α}

theorem runRows_congr_of {D : Type} {dest : Ty → D → Option (LSymbol × List D)}
    {evA : α → (VSymbol → D) → R} {ρ ρ' : VSymbol → D} {dl : List D} {rl : List (Row α)}
    (h : ∀ r ∈ rl, runRow dest evA ρ dl r = runRow dest evA ρ' dl r) :
    runRows dest evA ρ dl rl = runRows dest evA ρ' dl rl := by
  induction rl with
  | nil => rfl
  | cons r rl ih =>
    rw [runRows_cons, runRows_cons, h r mem_cons_self,
      ih (fun r hr => h r (mem_cons_of_mem _ hr))]

theorem MatrixOk.runRows_congr (h : MatrixOk E evA k A tl tys rl) {ρ' : VSymbol → V.Val}
    (hρ : ∀ v : VSymbol, v.vsName < k → ρ v = ρ' v) :
    runRows V.dest evA ρ (tl.map (E.ev ρ)) rl = runRows V.dest evA ρ' (tl.map (E.ev ρ')) rl := by
  have htl : tl.map (E.ev ρ) = tl.map (E.ev ρ') :=
    map_congr_left (fun t ht => E.ev_congr (fun v hv => hρ v (h.below t ht v hv)))
  have hrow : ∀ r ∈ rl, runRow V.dest evA ρ (tl.map (E.ev ρ')) r =
      runRow V.dest evA ρ' (tl.map (E.ev ρ')) r := by
    intro r hr
    simp only [runRow]
    cases matchRow V.dest r.1 (tl.map (E.ev ρ')) with
    | none => rfl
    | some bs =>
      simp only [Option.map_some, Option.some.injEq]
      refine (h.rows r hr).act _ _ (fun v hv => ?_)
      simp only [bindAll, hρ v hv]
  rw [htl]
  exact runRows_congr_of hrow

/-- What the branch of the constructor `cs` must do. -/
def BranchOk (E : TermSem V) (evA : α → (VSymbol → V.Val) → R) (t : Term) (tl : List Term)
    (ty : Ty) (rl : List (Row α)) (cs : LSymbol) (vl : List VSymbol) (a : α) : Prop :=
  ∀ ρ, V.Typed ρ → ∀ dl, V.dest ty (E.ev ρ t) = some (cs, dl) →
    ∃ bs, matchPat V.dest (.papp cs (vl.map .pvar) ty) (E.ev ρ t) = some bs ∧
      runRows V.dest evA ρ ((t :: tl).map (E.ev ρ)) rl = some (evA a (bindAll ρ bs))

theorem ColumnCtx.branchOk (C : ColumnCtx E evA mkLet k A t tl ty tys rl types)
    {k₁ : ℕ} (hk : k ≤ k₁) (hcs : types.lookup cs = some ql) {r : α × ℕ}
    (hrec : OkSpec E evA (k₁ + ql.length) (((freshVars k₁ ql).map (.tvar [])).reverse ++ tl)
      ((dispatchRows mkLet types t rl).1 cs) r) :
    BranchOk E evA t tl ty rl cs (freshVars k₁ ql) r.1 := by
  intro ρ hρ dl hdest
  have hmem := V.dest_mem (E.ev_mem hρ (C.matrix.wt t mem_cons_self) C.head_ty) hdest
  have hqty : ql.map patTy = argTys cs ty := (C.typesOk _ (mem_of_lookup hcs)).1
  have hlen : (freshVars k₁ ql).length = dl.length := by
    rw [length_freshVars, ← hmem.2.length_eq, ← hqty, length_map]
  refine ⟨((freshVars k₁ ql).zip dl).reverse, ?_, ?_⟩
  · rw [matchPat, hdest]
    simp [matchArgs_vars V.dest hlen]
  · -- the fresh variables take the arguments as values and touch nothing else
    have hagree : ∀ v : VSymbol, v.vsName < k →
        ρ v = bindAll ρ ((freshVars k₁ ql).zip dl).reverse v := by
      intro v hv
      refine (bindAll_of_not_mem ?_).symm
      rw [map_reverse, mem_reverse, map_fst_zip (by omega)]
      intro hvf
      have := freshVars_name hvf
      omega
    have htyped : V.Typed (bindAll ρ ((freshVars k₁ ql).zip dl).reverse) := by
      have hforall : List.Forall₂ (fun (v : VSymbol) d => V.mem v.vsTy d) (freshVars k₁ ql) dl := by
        have := hmem.2
        rwa [← hqty, ← map_vsTy_freshVars k₁ ql, forall₂_map_left_iff] at this
      refine mem_bindAll (P := fun v d => V.mem v.vsTy d) hρ ?_
      rintro ⟨v, d⟩ hb
      exact forall₂_zip hforall (mem_reverse.mp hb)
    have hev : E.ev (bindAll ρ ((freshVars k₁ ql).zip dl).reverse) t = E.ev ρ t :=
      (E.ev_congr (fun v hv => hagree v (C.matrix.below t mem_cons_self v hv))).symm
    have hrows := hrec.2 _ htyped
    rw [map_append, map_reverse, map_map] at hrows
    have hargs : (freshVars k₁ ql).map
        (E.ev (bindAll ρ ((freshVars k₁ ql).zip dl).reverse) ∘ tvar []) = dl := by
      have : E.ev (bindAll ρ ((freshVars k₁ ql).zip dl).reverse) ∘ tvar [] =
          bindAll ρ ((freshVars k₁ ql).zip dl).reverse := by
        funext v
        exact E.ev_var _ _ _
      rw [this]
      exact map_bindAll_zip (nodup_freshVars k₁ ql) hlen
    rw [hargs] at hrows
    rw [C.matrix.runRows_congr hagree]
    exact C.okSpec_cases hcs (hev ▸ hdest) hmem.2.length_eq.symm hrows

theorem argsOk_freshVars {k₁ : ℕ} (hk : k ≤ k₁)
    (hqty : ql.map patTy = argTys cs ty) :
    ArgsOk E k (k₁ + ql.length) t cs ty ((freshVars k₁ ql).map (.tvar [])) := by
  refine ⟨?_, ?_, ?_⟩
  · rw [← hqty, ← map_vsTy_freshVars k₁ ql, map_map, map_map]
    rfl
  · intro u hu
    obtain ⟨v, _, rfl⟩ := mem_map.mp hu
    exact E.wt_var _ _
  · intro u hu v hv
    obtain ⟨w, hw, rfl⟩ := mem_map.mp hu
    simp only [freeVars, mem_singleton] at hv
    subst hv
    have := freshVars_name hw
    exact ⟨this.2, .inr (by omega)⟩

/-- The outcome of compiling the rows left for `cs`, its arguments being `vl`. -/
def BranchSpec (E : TermSem V) (evA : α → (VSymbol → V.Val) → R) (Err : PatternExn → Prop)
    (t : Term) (tl : List Term) (ty : Ty) (rl : List (Row α)) (k : ℕ) (cs : LSymbol)
    (vl : List VSymbol) : Except PatternExn (α × ℕ) → Prop
  | .ok r => k ≤ r.2 ∧ BranchOk E evA t tl ty rl cs vl r.1
  | .error e => Err e

/-- The loop over the head constructors. -/
theorem addBranches_spec (comp : LSymbol → List Term → ℕ → Except PatternExn (α × ℕ))
    {Err : PatternExn → Prop} {csl : HeadMap} : ∀ (bl : List (Pattern × α)) {k₁ : ℕ}, k ≤ k₁ →
    (∀ e ∈ csl, ∀ k₁, k ≤ k₁ →
      BranchSpec E evA Err t tl ty rl (k₁ + e.2.length) e.1 (freshVars k₁ e.2)
        (comp e.1 ((freshVars k₁ e.2).map (.tvar [])) (k₁ + e.2.length))) →
    match addBranches comp ty csl bl k₁ with
    | .ok (bl', k₂) => k₁ ≤ k₂ ∧ ∀ ρ, V.Typed ρ → ∀ cs dl, V.dest ty (E.ev ρ t) = some (cs, dl) →
        if cs ∈ csl.map fst then
          runBranches V.dest evA ρ (E.ev ρ t) bl' =
            runRows V.dest evA ρ ((t :: tl).map (E.ev ρ)) rl ∧
          runRows V.dest evA ρ ((t :: tl).map (E.ev ρ)) rl ≠ none
        else runBranches V.dest evA ρ (E.ev ρ t) bl' = runBranches V.dest evA ρ (E.ev ρ t) bl
    | .error e => Err e := by
  induction csl with
  | nil => intro bl k₁ _ _; simp [addBranches]
  | cons e csl ih =>
    intro bl k₁ hk hcomp
    rcases e with ⟨c, ql⟩
    have hc := hcomp (c, ql) mem_cons_self k₁ hk
    rw [addBranches]
    cases hr : comp c ((freshVars k₁ ql).map (.tvar [])) (k₁ + ql.length) with
    | error e =>
      rw [hr] at hc
      exact hc
    | ok r =>
      rcases r with ⟨a, k₂⟩
      rw [hr] at hc
      have hk₂ : k₁ + ql.length ≤ k₂ := hc.1
      have hrest := ih ((.papp c ((freshVars k₁ ql).map .pvar) ty, a) :: bl) (by omega : k ≤ k₂)
        (fun e he => hcomp e (mem_cons_of_mem _ he))
      simp only [bind, Except.bind]
      cases hb : addBranches comp ty csl
          ((.papp c ((freshVars k₁ ql).map .pvar) ty, a) :: bl) k₂ with
      | error e => simp only [hb] at hrest; exact hrest
      | ok r' =>
        rcases r' with ⟨bl', k₃⟩
        simp only [hb] at hrest
        refine ⟨by omega, ?_⟩
        intro ρ hρ cs dl hdest
        have hcs := hrest.2 ρ hρ cs dl hdest
        by_cases hin : cs ∈ csl.map fst
        · rw [if_pos hin] at hcs
          rw [if_pos (by simp only [map_cons, mem_cons]; exact .inr hin)]
          exact hcs
        · rw [if_neg hin] at hcs
          by_cases hcc : cs = c
          · subst hcc
            obtain ⟨bs, hm, hrun⟩ := hc.2 ρ hρ dl hdest
            rw [if_pos (by simp), hcs, runBranches_cons, hm, hrun]
            exact ⟨rfl, by simp⟩
          · rw [if_neg (by simp only [map_cons, mem_cons, not_or]; exact ⟨hcc, hin⟩),
              hcs, runBranches_cons, matchPat, hdest]
            simp [hcc]

end Branches

/-! ## Compilation is correct -/

section Main

variable {α R : Type} {E : TermSem V} {evA : α → (VSymbol → V.Val) → R}
  {getConstructors : TySymbol → Option (List LSymbol)}
  {mkCase : Term → List (Pattern × α) → α} {mkLet : VSymbol → Term → α → α}

/-- The outcome of `compileAux`: a result that does what the first row that
matches does, or an exception that tells the truth. -/
def Spec (E : TermSem V) (evA : α → (VSymbol → V.Val) → R)
    (getConstructors : TySymbol → Option (List LSymbol)) (fuel k A : ℕ) (tl : List Term)
    (rl : List (Row α)) : Except PatternExn (α × ℕ) → Prop
  | .ok r => OkSpec E evA k tl rl r
  | .error e => ErrSpec V getConstructors fuel A tl rl e

theorem spec_no_rows {fuel k A : ℕ} {tl : List Term}
    (h : MatrixOk E evA k A tl tys []) :
    Spec E evA getConstructors (fuel + 1) k A tl []
      (compileAux getConstructors mkCase mkLet (fuel + 1) k tl []) := by
  have hty : ∀ t ∈ tl, t.tTy ≠ none := by
    intro t ht
    have : t.tTy ∈ tys.map some := h.ttys ▸ mem_map_of_mem ht
    obtain ⟨ty, _, hty⟩ := mem_map.mp this
    simp [← hty]
  have hfind : tl.find? (fun t => t.tTy.isNone) = none := by
    rw [find?_eq_none]
    intro t ht
    simpa using hty t ht
  rw [compileAux, hfind]
  refine ⟨?_, ?_, fun _ _ _ _ => by simp [NoMatch]⟩
  · have : tl.filterMap (fun t => t.tTy.map Pattern.pwild) =
        tys.map Pattern.pwild := by
      have := congrArg (fun l => l.filterMap (fun o => o.map Pattern.pwild)) h.ttys
      simpa [List.filterMap_map, comp_def] using this
    rw [this, length_map]
    simpa using (congrArg List.length h.ttys).symm
  · obtain ⟨ds, hds⟩ := exists_forall₂ (fun t ht => compat_exists E (h.wt t ht) (hty t ht))
    exact ⟨ds, hds, by simp [NoMatch]⟩

theorem spec_no_terms {fuel k A : ℕ} {r : Row α} {rl : List (Row α)}
    (h : MatrixOk E evA k A [] tys (r :: rl)) :
    Spec E evA getConstructors (fuel + 1) k A [] (r :: rl)
      (compileAux getConstructors mkCase mkLet (fuel + 1) k [] (r :: rl)) := by
  rcases r with ⟨pl, a⟩
  have htys : tys = [] := by simpa using h.ttys.symm
  have hpl : pl = [] := by
    have := (h.rows _ mem_cons_self).tys
    simpa [htys] using this
  subst hpl
  rw [compileAux]
  exact ⟨le_refl k, fun ρ _ => by rw [runRows_cons]; simp [runRow, matchRow]⟩

/-- The head constructors of a well-typed column. -/
theorem columnCtx_of_matrixOk (hsig : SigOk sig) (hmode : Mode sig getConstructors)
    (hlet : ∀ x t a ρ, evA (mkLet x t a) ρ = evA a (update ρ x (E.ev ρ t)))
    {k A : ℕ} {t : Term} {tl : List Term} {ty : Ty} {rl : List (Row α)}
    (h : MatrixOk E evA k A (t :: tl) (ty :: tys) rl) :
    ∃ types, populateRows getConstructors ty rl [] = .ok types ∧
      ColumnCtx E evA mkLet k A t tl ty tys rl types := by
  -- a head of a well-typed pattern is a constructor of the column, with typed arguments
  have hhead : ∀ p : Pattern, p.Ok sig → p.patTy = ty → maxArity p ≤ A →
      ∀ c ∈ headArgs p, c.1 ∈ constrsOf sig ty ∧ c.2.map patTy = argTys c.1 ty ∧
        c.2.length ≤ A := by
    intro p
    induction p with
    | pwild ty' | pvar v => intro _ _ _ c hc; simp [headArgs] at hc
    | papp s pl ty' _ =>
      intro hok hty hA c hc
      simp only [headArgs, mem_singleton] at hc
      simp only [patTy] at hty
      simp only [maxArity, max_le_iff] at hA
      subst hc hty
      exact ⟨hok.1, hok.2.1, hA.1⟩
    | por p q hp hq =>
      intro hok hty hA c hc
      simp only [patTy] at hty
      simp only [maxArity, max_le_iff] at hA
      rcases mem_append.mp hc with hc | hc
      · exact hp hok.1 hty hA.1 c hc
      · exact hq hok.2.1 (hok.2.2.1 ▸ hty) hA.2 c hc
    | pas p v ih =>
      intro hok hty hA c hc
      exact ih hok.1 (hok.2.trans hty) hA c hc
  have hrow : ∀ r ∈ rl, ∀ c ∈ rowHeadArgs r, c.1 ∈ constrsOf sig ty ∧
      c.2.map patTy = argTys c.1 ty ∧ c.2.length ≤ A := by
    intro r hr c hc
    obtain ⟨p, pl, hpl, hpty, hcl⟩ := h.columnOk r hr
    have harity := (h.rows r hr).arity
    rcases r with ⟨pl', a⟩
    simp only at hpl
    subst hpl
    exact hhead p (hcl p mem_cons_self).1 hpty (harity p mem_cons_self) c hc
  have hne : ∀ r ∈ rl, r.1 ≠ [] := by
    intro r hr
    obtain ⟨p, pl, hpl, _⟩ := h.columnOk r hr
    simp [hpl]
  obtain ⟨types, hpop, hnd, hkeys, hmem⟩ := @populateRows_ok getConstructors ty α rl [] hne
    (fun r hr c hc => isConstr_of_mem hsig hmode (hrow r hr c hc).1) nodup_nil
  have hin : ∀ e ∈ types, ∃ r ∈ rl, e ∈ rowHeadArgs r := by
    intro e he
    rcases hmem e he with he | he
    · cases he
    · exact he
  refine ⟨types, hpop, hlet, h, ?_, hnd, fun s => by simpa using hkeys s, ?_⟩
  · intro e he
    obtain ⟨r, hr, hc⟩ := hin e he
    exact (hrow r hr e hc).2
  · intro s hs
    obtain ⟨e, he, rfl⟩ := mem_map.mp hs
    obtain ⟨r, hr, hc⟩ := hin e he
    exact (hrow r hr e hc).1

variable {k A fuel : ℕ} {t : Term} {tl : List Term} {ty : Ty} {tys : List Ty}
  {types : HeadMap} {rl : List (Row α)}

variable {r : Except PatternExn (α × ℕ)}

theorem ColumnCtx.spec_wilds (C : ColumnCtx E evA mkLet k A t tl ty tys rl types)
    (hcompat : ∃ d, Compat V t d ∧ ∀ s ∈ types.map fst, ∀ dl, V.dest ty d ≠ some (s, dl))
    (hunc : (∃ a v, t = .tvar a v) →
      types = [] ∨ ∃ cs ∈ constrsOf sig ty, cs ∉ types.map fst)
    (hev : ∀ ρ, V.Typed ρ → ∀ s ∈ types.map fst, ∀ dl, V.dest ty (E.ev ρ t) ≠ some (s, dl))

    (hrec : Spec E evA getConstructors fuel k A tl (dispatchRows mkLet types t rl).2 r) :
    Spec E evA getConstructors (fuel + 1) k A (t :: tl) rl
      (compWilds (constructorSet getConstructors ty).2 types ty r) := by
  cases r with
  | ok r => exact ⟨hrec.1, fun ρ hρ => C.okSpec_wilds (hev ρ hρ) (hrec.2 ρ hρ)⟩
  | error e =>
    cases he : compWilds (constructorSet getConstructors ty).2 types ty (.error e) with
    | ok r => cases e <;> simp [compWilds] at he
    | error e' => exact C.errSpec_wilds hcompat hunc hrec he

theorem ColumnCtx.spec_constr (C : ColumnCtx E evA mkLet k A t tl ty tys rl types)
    {at' : Sattr} {al : List Term}
    (ht : t = .tapp at' cs al (some ty)) (hpos : 0 < cs.lsConstr)
    (hcs : types.lookup cs = some ql) (hal : ArgsOk E k k t cs ty al)

    (hrec : Spec E evA getConstructors fuel k A (al.reverse ++ tl)
      ((dispatchRows mkLet types t rl).1 cs) r) :
    Spec E evA getConstructors (fuel + 1) k A (t :: tl) rl (compCases cs ty r) := by
  cases r with
  | ok r =>
    refine ⟨hrec.1, fun ρ hρ => ?_⟩
    have hrow := hrec.2 ρ hρ
    rw [map_append, map_reverse] at hrow
    have hdest : V.dest ty (E.ev ρ t) = some (cs, al.map (E.ev ρ)) := by
      have hwt := C.matrix.wt t mem_cons_self
      subst ht
      exact E.ev_constr hρ hwt hpos
    exact C.okSpec_cases hcs hdest (by rw [length_map, hal.length]) hrow
  | error e =>
    cases he : compCases cs ty (.error e) with
    | ok r =>
      cases e with
      | nonExhaustive pl =>
        simp only [compCases] at he
        cases hc : cont cs ty [] cs.lsArgs pl <;> simp [hc] at he
      | _ => simp [compCases] at he
    | error e' =>
      refine C.errSpec_cases hcs hal ?_ ?_ hrec he
      · intro d dl hm hd hdl
        subst ht
        exact .constr hpos hm hd hdl
      · rintro ⟨a, v, hv⟩
        rw [ht] at hv
        cases hv

/-- The case analysis on a term that is no constructor application. -/
theorem ColumnCtx.spec_case (C : ColumnCtx E evA mkLet k A t tl ty tys rl types)
    (hcase : ∀ t bl ρ x, runBranches V.dest evA ρ (E.ev ρ t) bl = some x →
      evA (mkCase t bl) ρ = x)
    (happ : ∀ cs al, appOf t = some (cs, al) → cs.lsConstr = 0) (hne : types ≠ [])
    (hnow : noWilds getConstructors types ty = true ↔
      ∀ cs ∈ constrsOf sig ty, cs ∈ types.map fst)
    (hrecC : ∀ cs ql, types.lookup cs = some ql → ∀ k₁, k ≤ k₁ →
      Spec E evA getConstructors fuel (k₁ + ql.length) A
        (((freshVars k₁ ql).map (.tvar [])).reverse ++ tl)
        ((dispatchRows mkLet types t rl).1 cs)
        (compileAux getConstructors mkCase mkLet fuel (k₁ + ql.length)
          (((freshVars k₁ ql).map (.tvar [])).reverse ++ tl)
          ((dispatchRows mkLet types t rl).1 cs)))
    (hrecW : Spec E evA getConstructors fuel k A tl (dispatchRows mkLet types t rl).2
      (compileAux getConstructors mkCase mkLet fuel k tl (dispatchRows mkLet types t rl).2)) :
    Spec E evA getConstructors (fuel + 1) k A (t :: tl) rl (do
      let (base, k) ←
        if noWilds getConstructors types ty then .ok ([], k)
        else do
          let (a, k') ← compWilds (constructorSet getConstructors ty).2 types ty
            (compileAux getConstructors mkCase mkLet fuel k tl (dispatchRows mkLet types t rl).2)
          .ok ([(.pwild ty, a)], k')
      let (bl, k) ← addBranches (fun cs al k => compCases cs ty
        (compileAux getConstructors mkCase mkLet fuel k (al.reverse ++ tl)
          ((dispatchRows mkLet types t rl).1 cs))) ty types base k
      .ok (mkCase t bl, k)) := by
  -- each head constructor gets a correct branch
  have hcomp : ∀ e ∈ types, ∀ k₁, k ≤ k₁ →
      BranchSpec E evA (ErrSpec V getConstructors (fuel + 1) A (t :: tl) rl) t tl ty rl
        (k₁ + e.2.length) e.1 (freshVars k₁ e.2)
        ((fun cs al k => compCases cs ty (compileAux getConstructors mkCase mkLet fuel k
          (al.reverse ++ tl) ((dispatchRows mkLet types t rl).1 cs))) e.1
          ((freshVars k₁ e.2).map (.tvar [])) (k₁ + e.2.length)) := by
    rintro ⟨cs, ql⟩ he k₁ hk
    have hcs : types.lookup cs = some ql := lookup_of_mem_nodup C.nodup he
    have hrec := hrecC cs ql hcs k₁ hk
    simp only
    cases hr : compileAux getConstructors mkCase mkLet fuel (k₁ + ql.length)
        (((freshVars k₁ ql).map (.tvar [])).reverse ++ tl)
        ((dispatchRows mkLet types t rl).1 cs) with
    | ok r =>
      rw [hr] at hrec
      exact ⟨hrec.1, C.branchOk hk hcs hrec⟩
    | error e =>
      rw [hr] at hrec
      cases hcc : compCases (α := α) cs ty (.error e) with
      | ok r =>
        cases e with
        | nonExhaustive pl =>
          simp only [compCases] at hcc
          cases hc : cont cs ty [] cs.lsArgs pl <;> simp [hc] at hcc
        | _ => simp [compCases] at hcc
      | error e' =>
        refine C.errSpec_cases hcs (argsOk_freshVars hk (C.typesOk _ he).1) ?_ ?_ hrec hcc
        · intro d dl hm _ _
          exact .other happ C.head_ty hm
        · intro _ u hu
          obtain ⟨v, _, rfl⟩ := mem_map.mp hu
          exact ⟨[], v, rfl⟩
  have hconstrs : constrsOf sig ty ≠ [] := by
    obtain ⟨e, rest, he⟩ := exists_cons_of_ne_nil hne
    exact ne_nil_of_mem (C.constr e.1 (by simp [he]))
  have hdest : ∀ ρ, V.Typed ρ → ∃ c, V.dest ty (E.ev ρ t) = some c := fun ρ hρ =>
    V.dest_some (E.ev_mem hρ (C.matrix.wt t mem_cons_self) C.head_ty) hconstrs
  by_cases hw : noWilds getConstructors types ty = true
  · -- all constructors head a row
    rw [if_pos hw]
    simp only [bind, Except.bind]
    have hloop := addBranches_spec (fun cs al k => compCases cs ty
      (compileAux getConstructors mkCase mkLet fuel k (al.reverse ++ tl)
        ((dispatchRows mkLet types t rl).1 cs))) [] (le_refl k) hcomp
    cases hb : addBranches (fun cs al k => compCases cs ty
        (compileAux getConstructors mkCase mkLet fuel k (al.reverse ++ tl)
          ((dispatchRows mkLet types t rl).1 cs))) ty types [] k with
    | error e => rw [hb] at hloop; exact hloop
    | ok r =>
      rcases r with ⟨bl, k₂⟩
      rw [hb] at hloop
      refine ⟨hloop.1, fun ρ hρ => ?_⟩
      obtain ⟨⟨cs, dl⟩, hd⟩ := hdest ρ hρ
      have hmem := V.dest_mem
        (E.ev_mem hρ (C.matrix.wt t mem_cons_self) C.head_ty) hd
      have h := hloop.2 ρ hρ cs dl hd
      rw [if_pos (hnow.mp hw cs hmem.1)] at h
      obtain ⟨x, hx⟩ := Option.ne_none_iff_exists'.mp h.2
      rw [hx, hcase t bl ρ x (h.1.trans hx)]
  · -- some constructor heads no row: the wild rows make the last branch
    rw [if_neg hw]
    obtain ⟨cs₀, hcs₀, hno₀⟩ : ∃ cs ∈ constrsOf sig ty, cs ∉ types.map fst := by
      by_contra hcon
      push Not at hcon
      exact hw (hnow.mpr hcon)
    have hcompat : ∃ d, Compat V t d ∧
        ∀ s ∈ types.map fst, ∀ dl, V.dest ty d ≠ some (s, dl) := by
      obtain ⟨dl, hdl⟩ := exists_forall₂ (l := argTys cs₀ ty) (fun ty' _ => V.inhabited ty')
      obtain ⟨d, hd, hdd⟩ := V.con hcs₀ hdl
      refine ⟨d, .other happ C.head_ty hd, ?_⟩
      intro s hs dl' hd'
      rw [hdd] at hd'
      simp only [Option.some.injEq, Prod.mk.injEq] at hd'
      exact hno₀ (hd'.1 ▸ hs)
    simp only [bind, Except.bind]
    cases hr : compileAux getConstructors mkCase mkLet fuel k tl
        (dispatchRows mkLet types t rl).2 with
    | error e =>
      rw [hr] at hrecW
      cases hcw : compWilds (α := α) (constructorSet getConstructors ty).2 types ty (.error e) with
      | ok r => cases e <;> simp [compWilds] at hcw
      | error e' =>
        exact C.errSpec_wilds hcompat (fun _ => .inr ⟨cs₀, hcs₀, hno₀⟩) hrecW hcw
    | ok r =>
      rcases r with ⟨a, k₁⟩
      rw [hr] at hrecW
      simp only [compWilds]
      have hloop := addBranches_spec (fun cs al k => compCases cs ty
    (compileAux getConstructors mkCase mkLet fuel k (al.reverse ++ tl)
      ((dispatchRows mkLet types t rl).1 cs))) [(.pwild ty, a)] hrecW.1 hcomp
      cases hb : addBranches (fun cs al k => compCases cs ty
          (compileAux getConstructors mkCase mkLet fuel k (al.reverse ++ tl)
            ((dispatchRows mkLet types t rl).1 cs))) ty types [(.pwild ty, a)] k₁ with
      | error e => rw [hb] at hloop; exact hloop
      | ok r =>
        rcases r with ⟨bl, k₂⟩
        rw [hb] at hloop
        refine ⟨hrecW.1.trans hloop.1, fun ρ hρ => ?_⟩
        obtain ⟨⟨cs, dl⟩, hd⟩ := hdest ρ hρ
        have h := hloop.2 ρ hρ cs dl hd
        by_cases hin : cs ∈ types.map fst
        · rw [if_pos hin] at h
          obtain ⟨x, hx⟩ := Option.ne_none_iff_exists'.mp h.2
          rw [hx, hcase t bl ρ x (h.1.trans hx)]
        · rw [if_neg hin] at h
          have hwild := C.okSpec_wilds (ρ := ρ) (a := a) (by
            intro s hs dl' hd'
            rw [hd] at hd'
            simp only [Option.some.injEq, Prod.mk.injEq] at hd'
            exact hin (hd'.1 ▸ hs)) (hrecW.2 ρ hρ)
          have hbase : runBranches V.dest evA ρ (E.ev ρ t) [(.pwild ty, a)] =
              some (evA a ρ) := by
            rw [runBranches_cons, matchPat]
            rfl
          rw [hwild, hcase t bl ρ _ (h.trans hbase)]

theorem MatrixOk.wilds
    (hlet : ∀ x t a ρ, evA (mkLet x t a) ρ = evA a (update ρ x (E.ev ρ t)))
    (h : MatrixOk E evA k A (t :: tl) (ty :: tys) rl) (htypes : TypesOk A ty types) :
    MatrixOk E evA k A tl tys (dispatchRows mkLet types t rl).2 := by
  have ht := h.ttys
  simp only [map_cons, List.cons.injEq] at ht
  -- the wild rows are the same whatever constructor is looked at
  have hal : ArgsOk E k k t ⟨0, [], none, 0, false⟩ ty [] := ⟨rfl, by simp, by simp⟩
  exact ⟨ht.2, fun u hu => h.wt u (mem_cons_of_mem _ hu),
    fun u hu => h.below u (mem_cons_of_mem _ hu), (h.dispatch hlet htypes hal (le_refl k)).2⟩

theorem ColumnCtx.argsOk_constr (C : ColumnCtx E evA mkLet k A t tl ty tys rl types)
    {al : List Term} (happ : appOf t = some (cs, al)) (hpos : 0 < cs.lsConstr) :
    ∃ a, t = .tapp a cs al (some ty) ∧ cs ∈ constrsOf sig ty ∧ ArgsOk E k k t cs ty al := by
  have hwt := C.matrix.wt t mem_cons_self
  have hbelow := C.matrix.below t mem_cons_self
  have hty := C.head_ty
  cases t with
  | tapp a s tl' ty' =>
    simp only [appOf, Option.some.injEq, Prod.mk.injEq] at happ
    obtain ⟨rfl, rfl⟩ := happ
    obtain ⟨ty₁, rfl, hmem, htys, hal⟩ := E.wt_constr hwt hpos
    simp only [tTy, Option.some.injEq] at hty
    subst hty
    refine ⟨a, rfl, hmem, htys, hal, fun u hu v hv => ?_⟩
    have hv' : v ∈ (tapp a s tl' (some ty₁)).freeVars := by
      simp only [freeVars, freeVarsList_eq, mem_flatMap]
      exact ⟨u, hu, hv⟩
    exact ⟨hbelow v hv', .inl hv'⟩
  | _ => simp [appOf] at happ

theorem compileAux_spec (hsig : SigOk sig) (hmode : Mode sig getConstructors)
    (hlet : ∀ x t a ρ, evA (mkLet x t a) ρ = evA a (update ρ x (E.ev ρ t)))
    (hcase : ∀ t bl ρ x, runBranches V.dest evA ρ (E.ev ρ t) bl = some x →
      evA (mkCase t bl) ρ = x) :
    ∀ (fuel : ℕ) {k : ℕ} {tl : List Term} {tys : List Ty} {rl : List (Row α)},
      MatrixOk E evA k A tl tys rl →
      Spec E evA getConstructors fuel k A tl rl
        (compileAux getConstructors mkCase mkLet fuel k tl rl) := by
  intro fuel
  induction fuel with
  | zero => intro k tl tys rl _; simp [compileAux, Spec, ErrSpec]
  | succ fuel ih =>
    intro k tl tys rl h
    rcases rl with _ | ⟨r, rl⟩
    · exact spec_no_rows h
    rcases tl with _ | ⟨t, tl⟩
    · exact spec_no_terms h
    obtain ⟨ty, tys, rfl⟩ : ∃ ty tys', tys = ty :: tys' := by
      apply exists_cons_of_ne_nil
      rintro rfl
      simpa using h.ttys
    obtain ⟨types, hpop, C⟩ := columnCtx_of_matrixOk hsig hmode hlet h
    have hrecW := ih (h.wilds hlet C.typesOk)
    rw [compileAux]
    simp only [C.head_ty, hpop]
    by_cases hnil : types = []
    · -- no row is headed by a constructor
      rw [if_pos hnil]
      have hnone : ∀ s ∈ types.map fst, ∀ (d : V.Val) dl, V.dest ty d ≠ some (s, dl) := by
        simp [hnil]
      obtain ⟨d, hd⟩ := compat_exists E (h.wt t mem_cons_self) (by simp [C.head_ty])
      exact C.spec_wilds ⟨d, hd, fun s hs => hnone s hs d⟩ (fun _ => .inl hnil)
        (fun ρ _ s hs => hnone s hs _) hrecW
    rw [if_neg hnil]
    cases happ : (appOf t).filter (fun c => isConstr getConstructors ty c.1) with
    | some c =>
      -- the term is a constructor application: only one case can arise
      rcases c with ⟨cs, al⟩
      obtain ⟨happ, hcon⟩ := Option.filter_eq_some_iff.mp happ
      have hpos : 0 < cs.lsConstr := constr_pos_of_isConstr hcon
      obtain ⟨a, rfl, _, hal⟩ := C.argsOk_constr happ hpos
      simp only
      by_cases hin : cs ∈ types.map fst
      · rw [if_pos hin]
        obtain ⟨ql, hql⟩ := lookup_of_mem_keys hin
        exact C.spec_constr rfl hpos hql hal (ih (h.cases hlet C.typesOk hal (le_refl k)))
      · rw [if_neg hin]
        have hne : ∀ {d : V.Val} {dl}, V.dest ty d = some (cs, dl) →
            ∀ s ∈ types.map fst, ∀ dl', V.dest ty d ≠ some (s, dl') := by
          intro d dl hd s hs dl' hd'
          rw [hd, Option.some.injEq, Prod.mk.injEq] at hd'
          exact hin (hd'.1 ▸ hs)
        obtain ⟨d, hd⟩ := compat_exists E (h.wt _ mem_cons_self) (by simp [C.head_ty])
        refine C.spec_wilds ⟨d, hd, ?_⟩ (by rintro ⟨a, v, hv⟩; cases hv) ?_ hrecW
        · cases hd with
          | constr _ _ hdest _ => exact hne hdest
          | other hno _ _ =>
            have : cs.lsConstr = 0 := hno cs al rfl
            omega
        · intro ρ hρ
          exact hne (E.ev_constr hρ (h.wt _ mem_cons_self) hpos)
    | none =>
      have happ' : ∀ cs al, appOf t = some (cs, al) → cs.lsConstr = 0 := by
        intro cs al heq
        by_contra hne
        obtain ⟨_, _, hmem, _⟩ := C.argsOk_constr heq (by omega)
        rw [heq, Option.filter_eq_none_iff] at happ
        exact happ (cs, al) rfl (isConstr_of_mem hsig hmode hmem)
      refine C.spec_case hcase happ' hnil
        (noWilds_iff hsig hmode hnil C.nodup C.constr) ?_ hrecW
      intro cs ql hql k₁ hk
      have hqty := (C.typesOk _ (mem_of_lookup hql)).1
      exact ih (h.cases hlet C.typesOk (argsOk_freshVars hk hqty) (by omega))

end Main

end Pattern

end Why3
