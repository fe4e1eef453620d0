import Why3.Core.PatternMatch

/-!
# Dispatching the rows of a matrix

One step of `compileAux`: the rows are dispatched on the leftmost column.  This
keeps the first match (`runRows_dispatchRows_cases`,
`runRows_dispatchRows_wilds`) and lowers the cost of the matrix
(`matrixCost_cases_lt`), which bounds the depth of the recursion.
-/

namespace Why3

open List Pattern
open Prod (fst snd)

variable {pl ql : List Pattern} {p q : Pattern} {x : VSymbol} {cs : LSymbol} {t : Term}

namespace Pattern

/-! ## The cost of a matrix -/

theorem rowAlts_append (pl ql : List Pattern) :
    rowAlts (pl ++ ql) = rowAlts pl * rowAlts ql := by
  induction pl with
  | nil => simp [rowAlts]
  | cons p pl ih => simp [rowAlts, ih, Nat.mul_assoc]

theorem rowCost_append (pl ql : List Pattern) :
    rowCost (pl ++ ql) = rowCost pl * rowAlts ql + rowAlts pl * rowCost ql := by
  induction pl with
  | nil => simp [rowAlts, rowCost]
  | cons p pl ih =>
    simp only [cons_append, rowCost, rowAlts_append, rowAlts, ih]
    ring

theorem rowAlts_reverse (pl : List Pattern) : rowAlts pl.reverse = rowAlts pl := by
  induction pl with
  | nil => rfl
  | cons p pl ih => simp [rowAlts_append, rowAlts, ih, Nat.mul_comm]

theorem rowCost_reverse (pl : List Pattern) : rowCost pl.reverse = rowCost pl := by
  induction pl with
  | nil => rfl
  | cons p pl ih =>
    simp only [reverse_cons, rowCost_append, rowCost, rowAlts, rowAlts_reverse, ih]
    ring

theorem rowAlts_pos_of (h : ∀ p ∈ pl, 0 < alts p) : 0 < rowAlts pl := by
  induction pl with
  | nil => simp [rowAlts]
  | cons p pl ih =>
    have hp := h p mem_cons_self
    have hpl := ih (fun q hq => h q (mem_cons_of_mem _ hq))
    simpa [rowAlts] using Nat.mul_pos hp hpl

theorem alts_pos (p : Pattern) : 0 < alts p := by
  induction p with
  | pwild ty => simp [alts]
  | pvar v => simp [alts]
  | papp s pl ty ih => simpa [alts] using rowAlts_pos_of ih
  | por p q hp hq => simp only [alts]; omega
  | pas p v ih => simpa [alts] using ih

theorem rowAlts_pos (pl : List Pattern) : 0 < rowAlts pl :=
  rowAlts_pos_of (fun p _ => alts_pos p)

theorem rowMaxArity_le {A : ℕ} : rowMaxArity pl ≤ A ↔ ∀ p ∈ pl, maxArity p ≤ A := by
  induction pl with
  | nil => simp [rowMaxArity]
  | cons p pl ih => simp [rowMaxArity, ih]

theorem foldl_wilds (ql pl : List Pattern) :
    ql.foldl (fun pl q => .pwild q.patTy :: pl) pl =
      (ql.map (fun q => pwild q.patTy)).reverse ++ pl := by
  induction ql generalizing pl with
  | nil => rfl
  | cons q ql ih => simp [ih]

theorem rowAlts_wilds (ql : List Pattern) :
    rowAlts (ql.map (fun q => pwild q.patTy)) = 1 := by
  induction ql with
  | nil => rfl
  | cons q ql ih => simp [rowAlts, alts, ih]

theorem rowCost_wilds (ql : List Pattern) :
    rowCost (ql.map (fun q => pwild q.patTy)) = 0 := by
  induction ql with
  | nil => rfl
  | cons q ql ih => simp [rowCost, cost, ih]

/-! ## Heads of a column -/

/-- The constructors at the head of a pattern, with their arguments. -/
def headArgs : Pattern → List (LSymbol × List Pattern)
  | .pwild _ | .pvar _ => []
  | .papp s pl _ => [(s, pl)]
  | .por p q => headArgs p ++ headArgs q
  | .pas p _ => headArgs p

def rowHeadArgs {α : Type} : Row α → List (LSymbol × List Pattern)
  | ([], _) => []
  | (p :: _, _) => headArgs p

section Populate

variable {getConstructors : TySymbol → Option (List LSymbol)} {ty : Ty}

theorem populate_ok : ∀ {acc : HeadMap},
    (∀ c ∈ headArgs p, isConstr getConstructors ty c.1 = true) → (acc.map fst).Nodup →
    ∃ acc', populate getConstructors ty p acc = .ok acc' ∧ (acc'.map fst).Nodup ∧
      (∀ s, s ∈ acc'.map fst ↔ s ∈ acc.map fst ∨ s ∈ (headArgs p).map fst) ∧
      ∀ e ∈ acc', e ∈ acc ∨ e ∈ headArgs p := by
  induction p with
  | pwild ty' | pvar v => intro acc _ hnd; exact ⟨acc, rfl, hnd, by simp [headArgs], fun e he => .inl he⟩
  | papp s pl ty' _ =>
    intro acc h hnd
    have hs : isConstr getConstructors ty s = true := h (s, pl) (by simp [headArgs])
    by_cases hmem : s ∈ acc.map fst
    · refine ⟨acc, by simp only [populate, if_pos hs, if_pos hmem], hnd, ?_, fun e he => .inl he⟩
      intro u
      simp only [headArgs, map_cons, map_nil, mem_singleton]
      constructor
      · exact .inl
      · rintro (hu | rfl)
        · exact hu
        · exact hmem
    · refine ⟨(s, pl) :: acc, by simp only [populate, if_pos hs, if_neg hmem], ?_, ?_, ?_⟩
      · rw [map_cons]
        exact nodup_cons.mpr ⟨hmem, hnd⟩
      · intro u
        simp [headArgs, or_comm]
      · intro e he
        simp only [headArgs, mem_singleton]
        exact (mem_cons.mp he).symm
  | por p q hp hq =>
    intro acc h hnd
    simp only [headArgs, mem_append] at h
    obtain ⟨acc₁, e₁, nd₁, k₁, m₁⟩ := hp (fun c hc => h c (.inl hc)) hnd
    obtain ⟨acc₂, e₂, nd₂, k₂, m₂⟩ := hq (fun c hc => h c (.inr hc)) nd₁
    refine ⟨acc₂, by simp only [populate, e₁]; exact e₂, nd₂, ?_, ?_⟩
    · intro s
      rw [k₂, k₁, headArgs, map_append, mem_append, or_assoc]
    · intro e he
      rw [headArgs, mem_append]
      rcases m₂ e he with he | he
      · rcases m₁ e he with he | he
        · exact .inl he
        · exact .inr (.inl he)
      · exact .inr (.inr he)
  | pas p v ih => intro acc h hnd; exact ih h hnd

theorem populateRows_ok {α : Type} {rl : List (Row α)} : ∀ {acc : HeadMap},
    (∀ r ∈ rl, r.1 ≠ []) →
    (∀ r ∈ rl, ∀ c ∈ rowHeadArgs r, isConstr getConstructors ty c.1 = true) →
    (acc.map fst).Nodup →
    ∃ acc', populateRows getConstructors ty rl acc = .ok acc' ∧ (acc'.map fst).Nodup ∧
      (∀ s, s ∈ acc'.map fst ↔
        s ∈ acc.map fst ∨ ∃ r ∈ rl, s ∈ (rowHeadArgs r).map fst) ∧
      ∀ e ∈ acc', e ∈ acc ∨ ∃ r ∈ rl, e ∈ rowHeadArgs r := by
  induction rl with
  | nil =>
    intro acc _ _ hnd
    exact ⟨acc, rfl, hnd, by simp, fun e he => .inl he⟩
  | cons r rl ih =>
    rcases r with ⟨_ | ⟨p, pl⟩, a⟩
    · intro acc hne
      exact absurd rfl (hne _ mem_cons_self)
    · intro acc hne h hnd
      obtain ⟨acc₁, e₁, nd₁, k₁, m₁⟩ := populate_ok (p := p)
        (h _ mem_cons_self) hnd
      obtain ⟨acc₂, e₂, nd₂, k₂, m₂⟩ := ih
        (fun r hr => hne r (mem_cons_of_mem _ hr))
        (fun r hr => h r (mem_cons_of_mem _ hr)) nd₁
      refine ⟨acc₂, by simp only [populateRows, e₁]; exact e₂, nd₂, ?_, ?_⟩
      · intro s
        rw [k₂, k₁, or_assoc]
        simp only [exists_mem_cons_iff]
        rfl
      · intro e he
        rw [exists_mem_cons_iff]
        rcases m₂ e he with he | he
        · rcases m₁ e he with he | he
          · exact .inl he
          · exact .inr (.inl he)
        · exact .inr (.inr he)

end Populate

/-! ## Dispatching keeps the first match -/

section Rows

variable {D : Type} (dest : Ty → D → Option (LSymbol × List D)) {dl : List D} {d : D}

theorem matchRow_cons : matchRow dest (p :: pl) (d :: dl) =
      (matchPat dest p d).bind (fun bs => (matchRow dest pl dl).map (bs ++ ·)) := by
  rw [matchRow]
  cases matchPat dest p d <;> cases matchRow dest pl dl <;> rfl

theorem matchArgs_cons : matchArgs dest (p :: pl) (d :: dl) =
      (matchPat dest p d).bind (fun bs => (matchArgs dest pl dl).map (· ++ bs)) := by
  rw [matchArgs]
  cases matchPat dest p d <;> cases matchArgs dest pl dl <;> rfl

theorem matchRow_reverse_append {pl' : List Pattern} : ∀ {dl : List D} {pl : List Pattern}
    {ds : List D}, pl'.length = dl.length →
    matchRow dest (pl'.reverse ++ pl) (dl.reverse ++ ds) =
      (matchArgs dest pl' dl).bind (fun bs => (matchRow dest pl ds).map (bs ++ ·)) := by
  induction pl' with
  | nil =>
    intro dl pl ds h
    have hdl : dl = [] := length_eq_zero_iff.mp h.symm
    subst hdl
    cases hm : matchRow dest pl ds <;> simp [matchArgs, hm]
  | cons p pl' ih =>
    intro dl pl ds h
    cases dl with
    | nil => simp at h
    | cons d dl =>
      rw [reverse_cons, reverse_cons, append_assoc, append_assoc,
        singleton_append, singleton_append, ih (by simpa using h),
        matchArgs_cons, matchRow_cons]
      cases matchPat dest p d <;> cases matchArgs dest pl' dl <;>
        cases matchRow dest pl ds <;> simp

theorem matchArgs_wilds : ∀ {dl : List D}, ql.length = dl.length →
    matchArgs dest (ql.map (fun q => pwild q.patTy)) dl = some [] := by
  induction ql with
  | nil =>
    intro dl h
    have hdl : dl = [] := length_eq_zero_iff.mp h.symm
    subst hdl
    rfl
  | cons q ql ih =>
    intro dl h
    cases dl with
    | nil => simp at h
    | cons d dl =>
      rw [map_cons, matchArgs_cons, ih (by simpa using h)]
      rfl

variable {sig : TySymbol → List LSymbol}

theorem matchArgs_keys
    (h : ∀ p ∈ pl, ∀ {d bs}, matchPat dest p d = some bs → ∀ v, v ∈ bs.map fst ↔ v ∈ p.patVars) :
    ∀ {dl bs}, matchArgs dest pl dl = some bs →
      ∀ v, v ∈ bs.map fst ↔ v ∈ pl.flatMap patVars := by
  induction pl with
  | nil =>
    intro dl bs hm v
    cases dl with
    | nil => simp only [matchArgs, Option.some.injEq] at hm; subst hm; simp
    | cons d dl => simp [matchArgs] at hm
  | cons p pl ih =>
    intro dl bs hm v
    cases dl with
    | nil => simp [matchArgs] at hm
    | cons d dl =>
      rw [matchArgs_cons, Option.bind_eq_some_iff] at hm
      obtain ⟨b₁, hp, hm⟩ := hm
      obtain ⟨b₂, hpl, rfl⟩ := Option.map_eq_some_iff.mp hm
      rw [flatMap_cons, mem_append, map_append, mem_append,
        ih (fun q hq => h q (mem_cons_of_mem _ hq)) hpl v, h p mem_cons_self hp v,
        or_comm]

theorem matchPat_keys : p.Ok sig → ∀ {d bs}, matchPat dest p d = some bs →
    ∀ v, v ∈ bs.map fst ↔ v ∈ p.patVars := by
  induction p with
  | pwild ty | pvar w =>
    intro _ d bs hm v
    simp only [matchPat, Option.some.injEq] at hm
    subst hm
    simp [patVars]
  | papp s pl ty ih =>
    intro hok d bs hm v
    simp only [Ok, okList_iff] at hok
    simp only [matchPat] at hm
    split at hm
    · split at hm
      · rw [patVars, patVarsList_eq]
        exact matchArgs_keys dest (fun p hp => ih p hp (hok.2.2 p hp)) hm v
      · cases hm
    · cases hm
  | por p q hp hq =>
    intro hok d bs hm v
    simp only [matchPat, Option.or_eq_some_iff] at hm
    rcases hm with hm | ⟨_, hm⟩
    · exact hp hok.1 hm v
    · exact (hq hok.2.1 hm v).trans (hok.2.2.2 v).symm
  | pas p w ih =>
    intro hok d bs hm v
    simp only [matchPat] at hm
    obtain ⟨b, hb, rfl⟩ := Option.map_eq_some_iff.mp hm
    rw [map_cons, mem_cons, patVars, mem_cons, ih hok.1 hb v]

theorem matchRow_keys (hok : ∀ p ∈ pl, p.Ok sig) : ∀ {dl bs}, matchRow dest pl dl = some bs →
      ∀ v ∈ bs.map fst, ∃ p ∈ pl, v ∈ p.patVars := by
  induction pl with
  | nil =>
    intro dl bs hm v hv
    cases dl with
    | nil => simp only [matchRow, Option.some.injEq] at hm; subst hm; simp at hv
    | cons d dl => simp [matchRow] at hm
  | cons p pl ih =>
    intro dl bs hm v hv
    cases dl with
    | nil => simp [matchRow] at hm
    | cons d dl =>
      rw [matchRow_cons, Option.bind_eq_some_iff] at hm
      obtain ⟨b₁, hp, hm⟩ := hm
      obtain ⟨b₂, hpl, rfl⟩ := Option.map_eq_some_iff.mp hm
      rw [map_append, mem_append] at hv
      rcases hv with hv | hv
      · exact ⟨p, mem_cons_self, (matchPat_keys dest (hok p mem_cons_self) hp v).mp hv⟩
      · obtain ⟨q, hq, hvq⟩ := ih (fun q hq => hok q (mem_cons_of_mem _ hq)) hpl v hv
        exact ⟨q, mem_cons_of_mem _ hq, hvq⟩

/-- The patterns of a row are well typed and bind no variable of the matched
term `t`. -/
def RowClosed (sig : TySymbol → List LSymbol) (t : Term) (pl : List Pattern) : Prop :=
  ∀ p ∈ pl, p.Ok sig ∧ ∀ v ∈ p.patVars, v ∉ t.freeVars

theorem RowClosed.keys (h : RowClosed sig t pl) {bs : List (VSymbol × D)}
    (hm : matchRow dest pl dl = some bs) : ∀ v ∈ bs.map fst, v ∉ t.freeVars := by
  intro v hv
  obtain ⟨q, hq, hvq⟩ := matchRow_keys dest (fun p hp => (h p hp).1) hm v hv
  exact (h q hq).2 v hvq

theorem RowClosed.tail {p : Pattern} {pl : List Pattern}
    (h : RowClosed sig t (p :: pl)) : RowClosed sig t pl :=
  fun q hq => h q (mem_cons_of_mem _ hq)

theorem RowClosed.por_left (h : RowClosed sig t (.por p q :: pl)) :
    RowClosed sig t (p :: pl) := by
  intro r hr
  rcases mem_cons.mp hr with rfl | hr
  · obtain ⟨hok, hv⟩ := h _ mem_cons_self
    exact ⟨hok.1, fun v hvr => hv v (by simpa [patVars] using hvr)⟩
  · exact h r (mem_cons_of_mem _ hr)

theorem RowClosed.por_right (h : RowClosed sig t (.por p q :: pl)) :
    RowClosed sig t (q :: pl) := by
  intro r hr
  rcases mem_cons.mp hr with rfl | hr
  · obtain ⟨hok, hv⟩ := h _ mem_cons_self
    exact ⟨hok.2.1, fun v hvr => hv v (by simpa [patVars] using (hok.2.2.2 v).mpr hvr)⟩
  · exact h r (mem_cons_of_mem _ hr)

theorem RowClosed.pas (h : RowClosed sig t (.pas p x :: pl)) :
    RowClosed sig t (p :: pl) := by
  intro r hr
  rcases mem_cons.mp hr with rfl | hr
  · obtain ⟨hok, hv⟩ := h _ mem_cons_self
    exact ⟨hok.1, fun v hvr => hv v (by simp [patVars, hvr])⟩
  · exact h r (mem_cons_of_mem _ hr)

variable {ρ : VSymbol → D}

section Run

variable {α R : Type} (evA : α → (VSymbol → D) → R)

/-- The outcome of a row: its action under the bindings of its match. -/
def runRow (ρ : VSymbol → D) (dl : List D) (r : Row α) : Option R :=
  (matchRow dest r.1 dl).map (fun bs => evA r.2 (bindAll ρ bs))

/-- The outcome of a matrix: that of its first row that matches. -/
def runRows (ρ : VSymbol → D) (dl : List D) (rl : List (Row α)) : Option R :=
  rl.findSome? (runRow dest evA ρ dl)

theorem runRows_cons (ρ : VSymbol → D) (dl : List D) (r : Row α) (rl : List (Row α)) :
    runRows dest evA ρ dl (r :: rl) =
      (runRow dest evA ρ dl r).or (runRows dest evA ρ dl rl) := by
  rw [runRows, findSome?_cons]
  cases runRow dest evA ρ dl r <;> rfl

theorem runRows_eq_firstMatch (ρ : VSymbol → D) (dl : List D) (rl : List (Row α)) :
    runRows dest evA ρ dl rl =
      (firstMatch dest rl dl).map (fun m => evA m.1 (bindAll ρ m.2)) := by
  induction rl with
  | nil => rfl
  | cons r rl ih =>
    rw [runRows_cons, ih]
    simp only [firstMatch, findSome?_cons, runRow]
    cases matchRow dest r.1 dl <;> rfl

variable {mkLet : VSymbol → Term → α → α} {ev : (VSymbol → D) → Term → D}
  (hlet : ∀ x t a ρ, evA (mkLet x t a) ρ = evA a (Function.update ρ x (ev ρ t)))
include hlet

variable {a : α}

/-- Binding `x` to the matched term in the action is binding it in the row. -/
theorem evA_let {bs : List (VSymbol × D)}
    (ht : ev (bindAll ρ bs) t = d) :
    evA (mkLet x t a) (bindAll ρ bs) = evA a (bindAll ρ ((x, d) :: bs)) := by
  rw [hlet, ht, bindAll_cons]

theorem runRow_let {ds : List D}
    (hcl : RowClosed sig t (p :: pl))
    (ht : ∀ bs : List (VSymbol × D), (∀ v ∈ bs.map fst, v ∉ t.freeVars) → ev (bindAll ρ bs) t = d) :
    runRow dest evA ρ (d :: ds) (p :: pl, mkLet x t a) =
      runRow dest evA ρ (d :: ds) (.pas p x :: pl, a) := by
  simp only [runRow]
  have hrow : matchRow dest (.pas p x :: pl) (d :: ds) =
      (matchRow dest (p :: pl) (d :: ds)).map ((x, d) :: ·) := by
    rw [matchRow_cons, matchRow_cons, matchPat]
    cases matchPat dest p d <;> cases matchRow dest pl ds <;> simp
  rw [hrow]
  cases hm : matchRow dest (p :: pl) (d :: ds) with
  | none => rfl
  | some bs => simp only [Option.map_some, evA_let evA hlet (ht bs (hcl.keys dest hm))]

theorem runRow_var {ds : List D} (hcl : RowClosed sig t pl)
    (ht : ∀ bs : List (VSymbol × D), (∀ v ∈ bs.map fst, v ∉ t.freeVars) → ev (bindAll ρ bs) t = d) :
    runRow dest evA ρ ds (pl, mkLet x t a) =
      runRow dest evA ρ (d :: ds) (.pvar x :: pl, a) := by
  simp only [runRow]
  rw [matchRow_cons, matchPat]
  cases hm : matchRow dest pl ds with
  | none => rfl
  | some bs =>
    simp only [Option.map_some, Option.bind_some, singleton_append]
    rw [evA_let evA hlet (ht bs (hcl.keys dest hm))]

end Run

section Dispatch

variable {α R : Type} {evA : α → (VSymbol → D) → R} {types : HeadMap} {ds : List D}

theorem runRow_wild {a : α} {ty : Ty} :
    runRow dest evA ρ ds (pl, a) = runRow dest evA ρ (d :: ds) (.pwild ty :: pl, a) := by
  rw [runRow, runRow, matchRow_cons, matchPat]
  cases matchRow dest pl ds <;> rfl

theorem runRow_por {a : α} :
    runRow dest evA ρ (d :: ds) (.por p q :: pl, a) =
      (runRow dest evA ρ (d :: ds) (p :: pl, a)).or
        (runRow dest evA ρ (d :: ds) (q :: pl, a)) := by
  rw [runRow, runRow, runRow, matchRow_cons, matchRow_cons, matchRow_cons, matchPat]
  cases matchPat dest p d <;> cases matchPat dest q d <;> cases matchRow dest pl ds <;> rfl

/-- The row that a variable or a wildcard gives to a head constructor. -/
theorem runRows_unionCases {dl : List D} (hq : types.lookup cs = some ql)
    (hlen : ql.length = dl.length) {a : α} {cases : LSymbol → List (Row α)} :
    runRows dest evA ρ (dl.reverse ++ ds) (unionCases types pl a cases cs) =
      (runRow dest evA ρ ds (pl, a)).or (runRows dest evA ρ (dl.reverse ++ ds) (cases cs)) := by
  simp only [unionCases, hq, foldl_wilds]
  rw [runRows_cons]
  congr 1
  have hwilds := matchArgs_wilds dest hlen
  have hlen' : (ql.map (fun q => pwild q.patTy)).length = dl.length := by
    rw [length_map, hlen]
  rw [runRow, runRow, matchRow_reverse_append dest hlen', hwilds]
  cases matchRow dest pl ds <;> rfl

variable {mkLet : VSymbol → Term → α → α} {ev : (VSymbol → D) → Term → D}
  {t : Term} {ty : Ty} {d : D} {ρ : VSymbol → D}
  (hlet : ∀ x t a ρ, evA (mkLet x t a) ρ = evA a (Function.update ρ x (ev ρ t)))
  (ht : ∀ bs : List (VSymbol × D), (∀ v ∈ bs.map fst, v ∉ t.freeVars) →
    ev (bindAll ρ bs) t = d)
include hlet ht

/-- A value whose constructor heads a row: the rows left for this constructor
give what the matrix gives. -/
theorem runRows_dispatch_cases {dl : List D} (hd : dest ty d = some (cs, dl))
    (hq : types.lookup cs = some ql) (hlen : ql.length = dl.length)
    (harg : (argTys cs ty).length = dl.length) (hpty : p.patTy = ty)
    (hcl : RowClosed sig t (p :: pl)) (a : α) (acc : Dispatched α) :
    runRows dest evA ρ (dl.reverse ++ ds) ((dispatch mkLet types t p pl a acc).1 cs) =
      (runRow dest evA ρ (d :: ds) (p :: pl, a)).or
        (runRows dest evA ρ (dl.reverse ++ ds) (acc.1 cs)) := by
  induction p generalizing a acc with
  | pwild ty' =>
    rcases acc with ⟨cases, wilds⟩
    simp only [dispatch]
    rw [runRows_unionCases dest hq hlen, runRow_wild dest]
  | pvar x =>
    rcases acc with ⟨cases, wilds⟩
    simp only [dispatch]
    rw [runRows_unionCases dest hq hlen, runRow_var dest evA hlet hcl.tail ht]
  | papp s pl' ty' _ =>
    rcases acc with ⟨cases, wilds⟩
    have hp := (hcl _ mem_cons_self).1
    simp only [Ok] at hp
    simp only [patTy] at hpty
    subst hpty
    simp only [dispatch, addCase]
    by_cases hs : cs = s
    · subst hs
      have hl : pl'.length = dl.length := by
        rw [← harg, ← hp.2.1, length_map]
      rw [if_pos rfl, runRows_cons]
      congr 1
      rw [runRow, runRow, matchRow_reverse_append dest hl, matchRow_cons, matchPat, hd]
      simp
    · rw [if_neg hs]
      have hnone : matchPat dest (.papp s pl' ty') d = none := by
        rw [matchPat, hd]
        simp [hs]
      rw [runRow, matchRow_cons, hnone]
      rfl
  | por p q hp hq =>
    have hpq := (hcl _ mem_cons_self).1
    simp only [Ok] at hpq
    simp only [patTy] at hpty
    simp only [dispatch]
    rw [hp hpty hcl.por_left, hq (hpq.2.2.1 ▸ hpty) hcl.por_right, ← Option.or_assoc,
      runRow_por dest]
  | pas p x ih =>
    have hpx := (hcl _ mem_cons_self).1
    simp only [Ok] at hpx
    simp only [patTy] at hpty
    simp only [dispatch]
    rw [ih (hpx.2.trans hpty) hcl.pas, runRow_let dest evA hlet hcl.pas ht]

/-- A value whose constructor heads no row: the wild rows give what the matrix
gives. -/
theorem runRows_dispatch_wilds (hd : ∀ s ∈ (headArgs p).map fst, ∀ dl, dest ty d ≠ some (s, dl))
    (hpty : p.patTy = ty) (hcl : RowClosed sig t (p :: pl)) (a : α) (acc : Dispatched α) :
    runRows dest evA ρ ds (dispatch mkLet types t p pl a acc).2 =
      (runRow dest evA ρ (d :: ds) (p :: pl, a)).or (runRows dest evA ρ ds acc.2) := by
  induction p generalizing a acc with
  | pwild ty' =>
    rcases acc with ⟨cases, wilds⟩
    simp only [dispatch]
    rw [runRows_cons, runRow_wild dest]
  | pvar x =>
    rcases acc with ⟨cases, wilds⟩
    simp only [dispatch]
    rw [runRows_cons, runRow_var dest evA hlet hcl.tail ht]
  | papp s pl' ty' _ =>
    rcases acc with ⟨cases, wilds⟩
    simp only [patTy] at hpty
    subst hpty
    have hnone : matchPat dest (.papp s pl' ty') d = none := by
      rw [matchPat]
      split
      · next cs dl heq =>
          split
          · next hs => exact absurd (hs ▸ heq) (hd s (by simp [headArgs]) dl)
          · rfl
      · rfl
    simp only [dispatch]
    rw [runRow, matchRow_cons, hnone]
    rfl
  | por p q hp hq =>
    have hpq := (hcl _ mem_cons_self).1
    simp only [Ok] at hpq
    simp only [patTy] at hpty
    simp only [headArgs, map_append, mem_append] at hd
    simp only [dispatch]
    rw [hp (fun s hs => hd s (.inl hs)) hpty hcl.por_left,
      hq (fun s hs => hd s (.inr hs)) (hpq.2.2.1 ▸ hpty) hcl.por_right, ← Option.or_assoc,
      runRow_por dest]
  | pas p x ih =>
    have hpx := (hcl _ mem_cons_self).1
    simp only [Ok] at hpx
    simp only [patTy] at hpty
    simp only [dispatch]
    rw [ih hd (hpx.2.trans hpty) hcl.pas, runRow_let dest evA hlet hcl.pas ht]

variable (ev)

/-- The rows of a matrix whose first column has type `ty`. -/
def ColumnOk (sig : TySymbol → List LSymbol) (t : Term) (ty : Ty) (rl : List (Row α)) : Prop :=
  ∀ r ∈ rl, ∃ p pl, r.1 = p :: pl ∧ p.patTy = ty ∧ RowClosed sig t (p :: pl)

theorem runRows_dispatchRows_cases {dl : List D} (hd : dest ty d = some (cs, dl))
    (hq : types.lookup cs = some ql) (hlen : ql.length = dl.length)
    (harg : (argTys cs ty).length = dl.length) {rl : List (Row α)} (hcol : ColumnOk sig t ty rl) :
    runRows dest evA ρ (dl.reverse ++ ds) ((dispatchRows mkLet types t rl).1 cs) =
      runRows dest evA ρ (d :: ds) rl := by
  induction rl with
  | nil => rfl
  | cons r rl ih =>
    obtain ⟨p, pl, hr, hpty, hcl⟩ := hcol r mem_cons_self
    rcases r with ⟨pl', a⟩
    simp only at hr
    subst hr
    rw [dispatchRows, runRows_dispatch_cases dest hlet ht hd hq hlen harg hpty hcl,
      ih (fun r hr => hcol r (mem_cons_of_mem _ hr)), runRows_cons]

theorem runRows_dispatchRows_wilds {rl : List (Row α)}
    (hd : ∀ r ∈ rl, ∀ s ∈ (rowHeadArgs r).map fst, ∀ dl, dest ty d ≠ some (s, dl))
    (hcol : ColumnOk sig t ty rl) : runRows dest evA ρ ds (dispatchRows mkLet types t rl).2 =
      runRows dest evA ρ (d :: ds) rl := by
  induction rl with
  | nil => rfl
  | cons r rl ih =>
    obtain ⟨p, pl, hr, hpty, hcl⟩ := hcol r mem_cons_self
    rcases r with ⟨pl', a⟩
    simp only at hr
    subst hr
    rw [dispatchRows, runRows_dispatch_wilds dest hlet ht (hd _ mem_cons_self) hpty hcl,
      ih (fun r hr => hd r (mem_cons_of_mem _ hr))
        (fun r hr => hcol r (mem_cons_of_mem _ hr)), runRows_cons]

end Dispatch

/-! ### No match

Whether some row matches does not depend on the actions, so the lemmas above
apply with the trivial action. -/

/-- No row of the matrix matches. -/
def NoMatch {α : Type} (rl : List (Row α)) (dl : List D) : Prop :=
  ∀ r ∈ rl, matchRow dest r.1 dl = none

theorem noMatch_iff {α : Type} {rl : List (Row α)} (ρ : VSymbol → D) :
    NoMatch dest rl dl ↔ runRows dest (fun (_ : α) _ => ()) ρ dl rl = none := by
  simp only [NoMatch, runRows, runRow, findSome?_eq_none_iff, Option.map_eq_none_iff]

section NoMatch

variable {α : Type} {mkLet : VSymbol → Term → α → α} {types : HeadMap} {t : Term} {ty : Ty} {d : D}

theorem noMatch_dispatchRows_cases {dl : List D} (hd : dest ty d = some (cs, dl))
    (hq : types.lookup cs = some ql) (hlen : ql.length = dl.length)
    (harg : (argTys cs ty).length = dl.length) {rl : List (Row α)} {ds : List D}
    (hcol : ColumnOk sig t ty rl) :
    NoMatch dest ((dispatchRows mkLet types t rl).1 cs) (dl.reverse ++ ds) ↔
      NoMatch dest rl (d :: ds) := by
  rw [noMatch_iff dest (fun _ => d), noMatch_iff dest (fun _ => d),
    runRows_dispatchRows_cases dest (fun _ _ => d) (fun _ _ _ _ => rfl)
      (fun _ _ => rfl) hd hq hlen harg hcol]

theorem noMatch_dispatchRows_wilds {rl : List (Row α)} {ds : List D}
    (hd : ∀ r ∈ rl, ∀ s ∈ (rowHeadArgs r).map fst, ∀ dl, dest ty d ≠ some (s, dl))
    (hcol : ColumnOk sig t ty rl) :
    NoMatch dest (dispatchRows mkLet types t rl).2 ds ↔ NoMatch dest rl (d :: ds) := by
  rw [noMatch_iff dest (fun _ => d), noMatch_iff dest (fun _ => d),
    runRows_dispatchRows_wilds dest (fun _ _ => d) (fun _ _ _ _ => rfl)
      (fun _ _ => rfl) hd hcol]

end NoMatch

end Rows

/-! ## Dispatching lowers the cost -/

section Cost

variable {α : Type} (mkLet : VSymbol → Term → α → α) (types : HeadMap) (t : Term)

theorem matrixCost_cons (r : Row α) (rl : List (Row α)) :
    matrixCost (r :: rl) = rowCost r.1 + matrixCost rl := by
  simp [matrixCost]

theorem matrixCost_unionCases (pl : List Pattern) (a : α) (cases : LSymbol → List (Row α))
    (cs : LSymbol) :
    matrixCost (unionCases types pl a cases cs) ≤ rowCost pl + matrixCost (cases cs) := by
  unfold unionCases
  cases types.lookup cs with
  | none => exact Nat.le_add_left _ _
  | some ql =>
    rw [matrixCost_cons, foldl_wilds, rowCost_append, rowCost_reverse, rowAlts_reverse,
      rowCost_wilds, rowAlts_wilds]
    omega

theorem rowCost_wild (ty : Ty) (pl : List Pattern) : rowCost (.pwild ty :: pl) = rowCost pl := by
  simp [rowCost, cost, alts]

theorem rowCost_var (x : VSymbol) (pl : List Pattern) : rowCost (.pvar x :: pl) = rowCost pl := by
  simp [rowCost, cost, alts]

theorem rowCost_por (p q : Pattern) (pl : List Pattern) :
    rowCost (.por p q :: pl) = rowCost (p :: pl) + rowCost (q :: pl) := by
  simp only [rowCost, cost, alts]
  ring

theorem rowCost_papp (s : LSymbol) (pl' : List Pattern) (ty : Ty) (pl : List Pattern) :
    rowCost (.papp s pl' ty :: pl) = rowAlts pl' * rowAlts pl + rowCost (pl'.reverse ++ pl) := by
  simp only [rowCost, cost, alts, rowCost_append, rowCost_reverse, rowAlts_reverse]
  ring

theorem matrixCost_dispatch_cases (cs : LSymbol) (p : Pattern) (pl : List Pattern) (a : α)
    (acc : Dispatched α) :
    matrixCost ((dispatch mkLet types t p pl a acc).1 cs) +
        (if cs ∈ (headArgs p).map fst then 1 else 0) ≤
      rowCost (p :: pl) + matrixCost (acc.1 cs) := by
  induction p generalizing a acc with
  | pwild ty =>
    rcases acc with ⟨cases, wilds⟩
    have h := matrixCost_unionCases types pl a cases cs
    simpa [dispatch, headArgs, rowCost_wild] using h
  | pvar x =>
    rcases acc with ⟨cases, wilds⟩
    have h := matrixCost_unionCases types pl (mkLet x t a) cases cs
    simpa [dispatch, headArgs, rowCost_var] using h
  | papp s pl' ty _ =>
    rcases acc with ⟨cases, wilds⟩
    have hpos : 0 < rowAlts pl' * rowAlts pl := Nat.mul_pos (rowAlts_pos _) (rowAlts_pos _)
    rw [rowCost_papp]
    by_cases hs : cs = s
    · subst hs
      simp only [dispatch, addCase, if_true, matrixCost_cons, headArgs, map_cons,
        map_nil, mem_singleton]
      omega
    · simp only [dispatch, addCase, if_neg hs, headArgs, map_cons, map_nil,
        mem_singleton]
      omega
  | por p q hp hq =>
    have h₁ := hp a (dispatch mkLet types t q pl a acc)
    have h₂ := hq a acc
    simp only [dispatch, rowCost_por, headArgs, map_append, mem_append]
    split
    · next h =>
        rcases h with h | h
        · rw [if_pos h] at h₁
          omega
        · rw [if_pos h] at h₂
          omega
    · omega
  | pas p x ih => exact ih (mkLet x t a) acc

theorem matrixCost_dispatch_wilds (p : Pattern) (pl : List Pattern) (a : α)
    (acc : Dispatched α) :
    matrixCost (dispatch mkLet types t p pl a acc).2 ≤ rowCost (p :: pl) + matrixCost acc.2 := by
  induction p generalizing a acc with
  | pwild ty =>
    rcases acc with ⟨cases, wilds⟩
    simp [dispatch, matrixCost_cons, rowCost_wild]
  | pvar x =>
    rcases acc with ⟨cases, wilds⟩
    simp [dispatch, matrixCost_cons, rowCost_var]
  | papp s pl' ty _ =>
    rcases acc with ⟨cases, wilds⟩
    exact Nat.le_add_left _ _
  | por p q hp hq =>
    have h₁ := hp a (dispatch mkLet types t q pl a acc)
    have h₂ := hq a acc
    simp only [dispatch, rowCost_por]
    omega
  | pas p x ih => exact ih (mkLet x t a) acc

theorem matrixCost_cases_lt {rl : List (Row α)} (h : ∃ r ∈ rl, cs ∈ (rowHeadArgs r).map fst) :
    matrixCost ((dispatchRows mkLet types t rl).1 cs) < matrixCost rl := by
  have hle : ∀ rl : List (Row α),
      matrixCost ((dispatchRows mkLet types t rl).1 cs) ≤ matrixCost rl := by
    intro rl
    induction rl with
    | nil => exact Nat.zero_le _
    | cons r rl ih =>
      rcases r with ⟨_ | ⟨p, pl⟩, a⟩
      · simpa [dispatchRows, matrixCost_cons, rowCost] using ih
      · have h := matrixCost_dispatch_cases mkLet types t cs p pl a (dispatchRows mkLet types t rl)
        simp only [matrixCost_cons, dispatchRows]
        omega
  induction rl with
  | nil => obtain ⟨r, hr, _⟩ := h; cases hr
  | cons r rl ih =>
    rcases r with ⟨_ | ⟨p, pl⟩, a⟩
    · obtain ⟨r, hr, hs⟩ := h
      rcases mem_cons.mp hr with rfl | hr
      · simp [rowHeadArgs] at hs
      · simpa [dispatchRows, matrixCost_cons, rowCost] using ih ⟨r, hr, hs⟩
    · have h' := matrixCost_dispatch_cases mkLet types t cs p pl a (dispatchRows mkLet types t rl)
      simp only [matrixCost_cons, dispatchRows]
      obtain ⟨r, hr, hs⟩ := h
      rcases mem_cons.mp hr with rfl | hr
      · simp only [rowHeadArgs] at hs
        rw [if_pos hs] at h'
        have := hle rl
        omega
      · have := ih ⟨r, hr, hs⟩
        omega

theorem matrixCost_wilds_le (rl : List (Row α)) :
    matrixCost (dispatchRows mkLet types t rl).2 ≤ matrixCost rl := by
  induction rl with
  | nil => exact Nat.zero_le _
  | cons r rl ih =>
    rcases r with ⟨_ | ⟨p, pl⟩, a⟩
    · simpa [dispatchRows, matrixCost_cons, rowCost] using ih
    · have h := matrixCost_dispatch_wilds mkLet types t p pl a (dispatchRows mkLet types t rl)
      simp only [matrixCost_cons, dispatchRows]
      omega

end Cost

/-! ## A rule for the dispatched rows

To show a property of every row that dispatching produces, show that it follows
from a property `Q` of the row it comes from which or- and as-patterns hand
down. -/

section Forall

variable {α : Type} {mkLet : VSymbol → Term → α → α} {types : HeadMap} {t : Term}
  {Q : Pattern → List Pattern → α → Prop} {Pc : LSymbol → Row α → Prop} {Pw : Row α → Prop}
  (hpor : ∀ {p q pl a}, Q (.por p q) pl a → Q p pl a ∧ Q q pl a)
  (hpas : ∀ {p x pl a}, Q (.pas p x) pl a → Q p pl (mkLet x t a))
  (hvar : ∀ {x pl a}, Q (.pvar x) pl a → Q (.pwild x.vsTy) pl (mkLet x t a))
  (happ : ∀ {fs pl' ty pl a}, Q (.papp fs pl' ty) pl a → Pc fs (pl'.reverse ++ pl, a))
  (hcase : ∀ {ty pl a cs ql}, Q (.pwild ty) pl a → types.lookup cs = some ql →
    Pc cs ((ql.map (fun q => pwild q.patTy)).reverse ++ pl, a))
  (hwild : ∀ {ty pl a}, Q (.pwild ty) pl a → Pw (pl, a))
include hcase

theorem unionCases_forall {ty : Ty} {a : α} {cases : LSymbol → List (Row α)}
    (hQ : Q (.pwild ty) pl a) (h : ∀ cs, ∀ r ∈ cases cs, Pc cs r) :
    ∀ cs, ∀ r ∈ unionCases types pl a cases cs, Pc cs r := by
  intro cs r hr
  unfold unionCases at hr
  cases hl : types.lookup cs with
  | none => rw [hl] at hr; exact h cs r hr
  | some ql =>
    rw [hl] at hr
    simp only [foldl_wilds] at hr
    rcases mem_cons.mp hr with rfl | hr
    · exact hcase hQ hl
    · exact h cs r hr

include hpor hpas hvar happ hwild

theorem dispatch_forall {a : α} {acc : Dispatched α} (hQ : Q p pl a)
    (hc : ∀ cs, ∀ r ∈ acc.1 cs, Pc cs r) (hw : ∀ r ∈ acc.2, Pw r) :
    (∀ cs, ∀ r ∈ (dispatch mkLet types t p pl a acc).1 cs, Pc cs r) ∧
      ∀ r ∈ (dispatch mkLet types t p pl a acc).2, Pw r := by
  induction p generalizing a acc with
  | pwild ty =>
    rcases acc with ⟨cases, wilds⟩
    refine ⟨unionCases_forall hcase hQ hc, ?_⟩
    intro r hr
    rcases mem_cons.mp hr with rfl | hr
    · exact hwild hQ
    · exact hw r hr
  | pvar x =>
    rcases acc with ⟨cases, wilds⟩
    refine ⟨unionCases_forall hcase (hvar hQ) hc, ?_⟩
    intro r hr
    rcases mem_cons.mp hr with rfl | hr
    · exact hwild (hvar hQ)
    · exact hw r hr
  | papp s pl' ty _ =>
    rcases acc with ⟨cases, wilds⟩
    refine ⟨?_, hw⟩
    intro cs r hr
    simp only [dispatch, addCase] at hr
    split at hr
    · next hs =>
        subst hs
        rcases mem_cons.mp hr with rfl | hr
        · exact happ hQ
        · exact hc cs r hr
    · exact hc cs r hr
  | por p q hp hq =>
    have h₁ := hq (hpor hQ).2 hc hw
    exact hp (hpor hQ).1 h₁.1 h₁.2
  | pas p x ih => exact ih (hpas hQ) hc hw

theorem dispatchRows_forall {rl : List (Row α)}
    (hQ : ∀ r ∈ rl, ∃ p pl, r.1 = p :: pl ∧ Q p pl r.2) :
    (∀ cs, ∀ r ∈ (dispatchRows mkLet types t rl).1 cs, Pc cs r) ∧
      ∀ r ∈ (dispatchRows mkLet types t rl).2, Pw r := by
  induction rl with
  | nil => simp [dispatchRows]
  | cons r rl ih =>
    obtain ⟨p, pl, hr, hQr⟩ := hQ r mem_cons_self
    rcases r with ⟨pl', a⟩
    simp only at hr
    subst hr
    have h := ih (fun r hr => hQ r (mem_cons_of_mem _ hr))
    exact dispatch_forall hpor hpas hvar happ hcase hwild hQr h.1 h.2

end Forall

end Pattern

end Why3
