import Why3.Core.Interp

/-!
# Substitution

`t_subst` of `core/term.ml`.  The source defers the substitution in the body of
a binder until the binder is opened, when its variables are renamed to fresh
ones.  Here they are renamed on the way, to variables from the tag `k` on.
-/

namespace Why3

open List Function Term

variable {p : Pattern} {w : VSymbol} {F G vl : List VSymbol} {k : ℕ} {f : Term} {q : Quant}

/-! ## Renaming of patterns -/

namespace Pattern

mutual
def rename (r : VSymbol → VSymbol) : Pattern → Pattern
  | .pwild ty => .pwild ty
  | .pvar v => .pvar (r v)
  | .papp s pl ty => .papp s (renameList r pl) ty
  | .por p q => .por (p.rename r) (q.rename r)
  | .pas p v => .pas (p.rename r) (r v)
def renameList (r : VSymbol → VSymbol) : List Pattern → List Pattern
  | [] => []
  | p :: pl => p.rename r :: renameList r pl
end

attribute [grind =] rename renameList

@[simp] theorem renameList_eq (r : VSymbol → VSymbol) (pl : List Pattern) :
    renameList r pl = pl.map (rename r) := by
  induction pl with
  | nil => rfl
  | cons p pl ih => rw [renameList, ih, map_cons]

variable {r : VSymbol → VSymbol}

theorem patVars_rename (p : Pattern) : (p.rename r).patVars = p.patVars.map r := by
  induction p with
  | pwild ty => rfl
  | pvar v => rfl
  | papp s pl ty ih =>
    simp only [rename, renameList_eq, patVars, patVarsList_eq, map_flatMap,
      flatMap_map]
    exact flatMap_congr ih
  | por p q hp _ => exact hp
  | pas p v ih => rw [rename, patVars, patVars, ih, map_cons]

theorem patTy_rename (hr : ∀ v ∈ p.patVars, (r v).vsTy = v.vsTy) :
    (p.rename r).patTy = p.patTy := by
  induction p with
  | pwild ty => rfl
  | pvar v => exact hr v (mem_singleton_self v)
  | papp s pl ty _ => rfl
  | por p q hp _ => exact hp hr
  | pas p v _ => exact hr v mem_cons_self

theorem ok_rename {sig : TySymbol → List LSymbol} : p.Ok sig →
    (∀ v ∈ p.patVars, (r v).vsTy = v.vsTy) → (p.rename r).Ok sig := by
  induction p with
  | pwild ty => intro h _; exact h
  | pvar v => intro h _; exact h
  | papp s pl ty ih =>
    intro hok hr
    simp only [Ok, okList_iff] at hok
    simp only [rename, renameList_eq, Ok, okList_iff, map_map]
    have hr' : ∀ p ∈ pl, ∀ v ∈ p.patVars, (r v).vsTy = v.vsTy := by
      intro p hp v hv
      apply hr v
      rw [patVars, patVarsList_eq, mem_flatMap]
      exact ⟨p, hp, hv⟩
    refine ⟨hok.1, ?_, ?_⟩
    · rw [← hok.2.1]
      exact map_congr_left (fun p hp => patTy_rename (hr' p hp))
    · intro q hq
      obtain ⟨p, hp, rfl⟩ := mem_map.mp hq
      exact ih p hp (hok.2.2 p hp) (hr' p hp)
  | por p q hp hq =>
    intro hok hr
    have hr' : ∀ v ∈ q.patVars, (r v).vsTy = v.vsTy :=
      fun v hv => hr v ((hok.2.2.2 v).mpr hv)
    refine ⟨hp hok.1 hr, hq hok.2.1 hr', ?_, ?_⟩
    · rw [patTy_rename (p := p) hr, patTy_rename (p := q) hr', hok.2.2.1]
    · intro v
      rw [patVars_rename, patVars_rename, mem_map, mem_map]
      simp only [hok.2.2.2]
  | pas p v ih =>
    intro hok hr
    have hr' : ∀ w ∈ p.patVars, (r w).vsTy = w.vsTy :=
      fun w hw => hr w (mem_cons_of_mem _ hw)
    refine ⟨ih hok.1 hr', ?_⟩
    rw [patTy_rename (p := p) hr', hok.2, hr v mem_cons_self]

theorem linear_rename : p.Linear → Set.InjOn r { v | v ∈ p.patVars } →
    (p.rename r).Linear := by
  induction p with
  | pwild ty => intro h _; exact h
  | pvar v => intro h _; exact h
  | papp s pl ty ih =>
    intro h hinj
    simp only [Linear, linearList_iff] at h
    simp only [rename, renameList_eq, Linear, linearList_iff]
    have hvars : (pl.map (rename r)).flatMap patVars = (pl.flatMap patVars).map r := by
      rw [flatMap_map, map_flatMap]
      exact flatMap_congr (fun p _ => patVars_rename p)
    have hmem : ∀ p ∈ pl, ∀ v ∈ p.patVars, v ∈ (Pattern.papp s pl ty).patVars := by
      intro p hp v hv
      rw [patVars, patVarsList_eq, mem_flatMap]
      exact ⟨p, hp, hv⟩
    refine ⟨?_, ?_⟩
    · rw [hvars]
      refine List.Nodup.map_on ?_ h.1
      intro v hv w hw heq
      refine hinj ?_ ?_ heq
      · show v ∈ (Pattern.papp s pl ty).patVars
        rw [patVars, patVarsList_eq]
        exact hv
      · show w ∈ (Pattern.papp s pl ty).patVars
        rw [patVars, patVarsList_eq]
        exact hw
    · intro q hq
      obtain ⟨p, hp, rfl⟩ := mem_map.mp hq
      exact ih p hp (h.2 p hp) (hinj.mono (fun v hv => hmem p hp v hv))
  | por p q hp hq =>
    intro h hinj
    have hq' : Set.InjOn r { v | v ∈ q.patVars } :=
      hinj.mono (fun v hv => (h.2.2 v).mpr hv)
    refine ⟨hp h.1 hinj, hq h.2.1 hq', ?_⟩
    intro v
    rw [patVars_rename, patVars_rename, mem_map, mem_map]
    simp only [h.2.2]
  | pas p v ih =>
    intro h hinj
    refine ⟨ih h.1 (hinj.mono (fun w hw => mem_cons_of_mem _ hw)), ?_⟩
    rw [patVars_rename, mem_map]
    rintro ⟨w, hw, heq⟩
    have := hinj (mem_cons_of_mem v hw) (mem_cons_self) heq
    subst this
    exact h.2 hw

section Match

variable {D : Type} {dest : Ty → D → Option (LSymbol × List D)}

theorem matchArgs_rename {pl : List Pattern} (h : ∀ p ∈ pl, ∀ d, matchPat dest (p.rename r) d =
    (matchPat dest p d).map (List.map (fun b => (r b.1, b.2)))) :
    ∀ dl, matchArgs dest (pl.map (rename r)) dl =
      (matchArgs dest pl dl).map (List.map (fun b => (r b.1, b.2))) := by
  induction pl with
  | nil =>
    intro dl
    cases dl <;> rfl
  | cons p pl ih =>
    intro dl
    cases dl with
    | nil => rfl
    | cons d dl =>
      rw [map_cons, matchArgs, matchArgs, h p mem_cons_self d,
        ih (fun q hq => h q (mem_cons_of_mem _ hq)) dl]
      cases matchPat dest p d with
      | none => rfl
      | some bs =>
        cases matchArgs dest pl dl with
        | none => rfl
        | some bs' => simp

theorem matchPat_rename (p : Pattern) : ∀ d, matchPat dest (p.rename r) d =
    (matchPat dest p d).map (List.map (fun b => (r b.1, b.2))) := by
  induction p with
  | pwild ty => intro d; rfl
  | pvar v => intro d; rfl
  | papp s pl ty ih =>
    intro d
    rw [rename, renameList_eq, matchPat, matchPat]
    cases dest ty d with
    | none => rfl
    | some c =>
      obtain ⟨cs, dl⟩ := c
      simp only
      split
      · exact matchArgs_rename ih dl
      · rfl
  | por p q hp hq =>
    intro d
    rw [rename, matchPat, matchPat, hp, hq]
    cases matchPat dest p d <;> rfl
  | pas p v ih =>
    intro d
    rw [rename, matchPat, matchPat, ih]
    cases matchPat dest p d <;> rfl

end Match

end Pattern

/-! ## Substitution -/

/-- `term Mvs.t`, the newest binding first. -/
abbrev Mvs := List (VSymbol × Term)

variable {m : Mvs}

/-- What a variable is replaced by. -/
def Mvs.get (m : Mvs) (v : VSymbol) : Term := (m.lookup v).getD (.tvar [] v)

/-- The variable that a bound variable is renamed to. -/
def Mvs.var (m : Mvs) (v : VSymbol) : VSymbol :=
  match m.lookup v with
  | some (.tvar _ w) => w
  | _ => v

/-- Fresh variables from the tag `k` on, for those of `vl`. -/
def freshen (k : ℕ) : List VSymbol → List VSymbol
  | [] => []
  | v :: vl => ⟨k, v.vsTy⟩ :: freshen (k + 1) vl

/-- The map under a binder of `vl`. -/
def Mvs.bind (k : ℕ) (m : Mvs) : List VSymbol → Mvs
  | [] => m
  | v :: vl => Mvs.bind (k + 1) ((v, .tvar [] ⟨k, v.vsTy⟩) :: m) vl

namespace Term

mutual
/-- `t_subst_unsafe`. -/
def subst (k : ℕ) (m : Mvs) : Term → Term
  | .tvar a v =>
    match m.lookup v with
    | some t => tAttrCopy (.tvar a v) t
    | none => .tvar a v
  | .tconst a c ty => .tconst a c ty
  | .tapp a s tl ty => .tapp a s (substList k m tl) ty
  | .tif a f t1 t2 => .tif a (f.subst k m) (t1.subst k m) (t2.subst k m)
  | .tlet a t v e => .tlet a (t.subst k m) ⟨k, v.vsTy⟩ (e.subst (k + 1) (m.bind k [v]))
  | .tcase a t bl => .tcase a (t.subst k m) (substBranches k m bl)
  | .teps a v f => .teps a ⟨k, v.vsTy⟩ (f.subst (k + 1) (m.bind k [v]))
  | .tquant a q vl trl f =>
    .tquant a q (freshen k vl) (substTriggers (k + vl.length) (m.bind k vl) trl)
      (f.subst (k + vl.length) (m.bind k vl))
  | .tbinop a op f g => .tbinop a op (f.subst k m) (g.subst k m)
  | .tnot a f => .tnot a (f.subst k m)
  | .ttrue a => .ttrue a
  | .tfalse a => .tfalse a
def substList (k : ℕ) (m : Mvs) : List Term → List Term
  | [] => []
  | t :: tl => t.subst k m :: substList k m tl
def substBranches (k : ℕ) (m : Mvs) : List (Pattern × Term) → List (Pattern × Term)
  | [] => []
  | (p, e) :: bl =>
    (p.rename (m.bind k p.patVars).var, e.subst (k + p.patVars.length) (m.bind k p.patVars)) ::
      substBranches k m bl
def substTriggers (k : ℕ) (m : Mvs) : List (List Term) → List (List Term)
  | [] => []
  | tr :: trl => substList k m tr :: substTriggers k m trl
end

attribute [grind =] subst substList substBranches substTriggers

@[simp] theorem substList_eq (k : ℕ) (m : Mvs) (tl : List Term) :
    substList k m tl = tl.map (subst k m) := by
  induction tl with
  | nil => rfl
  | cons t tl ih => rw [substList, ih, map_cons]

@[simp] theorem substBranches_eq (k : ℕ) (m : Mvs) (bl : List (Pattern × Term)) :
    substBranches k m bl = bl.map (fun b => (b.1.rename (m.bind k b.1.patVars).var,
      b.2.subst (k + b.1.patVars.length) (m.bind k b.1.patVars))) := by
  induction bl with
  | nil => rfl
  | cons b bl ih =>
    obtain ⟨p, e⟩ := b
    rw [substBranches, ih, map_cons]

@[simp] theorem substTriggers_eq (k : ℕ) (m : Mvs) (trl : List (List Term)) :
    substTriggers k m trl = trl.map (fun tr => tr.map (subst k m)) := by
  induction trl with
  | nil => rfl
  | cons tr trl ih => rw [substTriggers, ih, substList_eq, map_cons]

end Term

/-! ## Binding -/

variable {t : Term} {v : VSymbol}

section Bind

theorem length_freshen (k : ℕ) (vl : List VSymbol) : (freshen k vl).length = vl.length := by
  induction vl generalizing k with
  | nil => rfl
  | cons v vl ih => rw [freshen, length_cons, ih, length_cons]

theorem Mvs.get_cons_self : Mvs.get ((v, t) :: m) v = t := by
  unfold Mvs.get
  rw [lookup_cons_self]
  rfl

theorem Mvs.get_cons_of_ne (h : w ≠ v) :
    Mvs.get ((v, t) :: m) w = m.get w := by
  have hbeq : (w == v) = false := by simpa using h
  unfold Mvs.get
  rw [List.lookup_cons, hbeq]

theorem Mvs.get_bind_of_not_mem (h : w ∉ vl) : ∀ {k : ℕ}, (m.bind k vl).get w = m.get w := by
  induction vl generalizing m with
  | nil => intro k; rfl
  | cons v vl ih =>
    intro k
    rw [mem_cons, not_or] at h
    rw [Mvs.bind, ih h.2, Mvs.get_cons_of_ne h.1]

/-- A bound variable is renamed to a fresh one. -/
theorem Mvs.lookup_bind (h : w ∈ vl) : ∀ {k : ℕ}, ∃ j, k ≤ j ∧ j < k + vl.length ∧ ∀ m : Mvs,
      (m.bind k vl).lookup w = some (.tvar [] ⟨j, w.vsTy⟩) := by
  induction vl with
  | nil => cases h
  | cons v vl ih =>
    intro k
    by_cases hw : w ∈ vl
    · obtain ⟨j, hj₁, hj₂, hj⟩ := ih hw (k := k + 1)
      refine ⟨j, by omega, ?_, fun m => hj _⟩
      rw [length_cons]
      omega
    · have hwv : w = v := (mem_cons.mp h).resolve_right hw
      subst hwv
      refine ⟨k, le_rfl, ?_, fun m => ?_⟩
      · rw [length_cons]
        omega
      · rw [Mvs.bind]
        -- the variables after it are others
        have hkeep : ∀ (vl : List VSymbol) (m : Mvs) (k : ℕ), w ∉ vl →
            (m.bind k vl).lookup w = m.lookup w := by
          intro vl
          induction vl with
          | nil => intro m k _; rfl
          | cons u vl ih' =>
            intro m k hu
            rw [mem_cons, not_or] at hu
            have hbeq : (w == u) = false := by simpa using hu.1
            rw [Mvs.bind, ih' _ _ hu.2, List.lookup_cons, hbeq]
        rw [hkeep vl _ _ hw, lookup_cons_self]

theorem Mvs.get_bind {m : Mvs} {vl : List VSymbol} {w : VSymbol} (h : w ∈ vl) {k : ℕ} :
    (m.bind k vl).get w = .tvar [] ((m.bind k vl).var w) ∧ k ≤ ((m.bind k vl).var w).vsName ∧
      ((m.bind k vl).var w).vsName < k + vl.length := by
  obtain ⟨j, hj₁, hj₂, hj⟩ := Mvs.lookup_bind h (k := k)
  have hvar : (m.bind k vl).var w = ⟨j, w.vsTy⟩ := by
    unfold Mvs.var
    rw [hj m]
  rw [hvar]
  refine ⟨?_, hj₁, hj₂⟩
  unfold Mvs.get
  rw [hj m]
  rfl

/-- Different bound variables get different names. -/
theorem Mvs.var_injOn : ∀ {k : ℕ} {m : Mvs},
    Set.InjOn (m.bind k vl).var { v | v ∈ vl } := by
  induction vl with
  | nil => intro k m v hv; cases hv
  | cons u vl ih =>
    intro k m v hv w hw heq
    -- the first variable, when it is not bound again, has the tag `k`
    have hfirst : u ∉ vl → (m.bind k (u :: vl)).var u = ⟨k, u.vsTy⟩ := by
      intro hu
      have hget : (m.bind k (u :: vl)).get u = .tvar [] ⟨k, u.vsTy⟩ := by
        rw [Mvs.bind, Mvs.get_bind_of_not_mem hu, Mvs.get_cons_self]
      have := (Mvs.get_bind (m := m) (mem_cons_self : u ∈ u :: vl) (k := k)).1
      rw [hget, Term.tvar.injEq] at this
      exact this.2.symm
    have hlater : ∀ x ∈ vl, k + 1 ≤ ((m.bind k (u :: vl)).var x).vsName := by
      intro x hx
      exact (Mvs.get_bind (m := (u, .tvar [] ⟨k, u.vsTy⟩) :: m) hx (k := k + 1)).2.1
    by_cases hvl : v ∈ vl
    · by_cases hwl : w ∈ vl
      · exact ih hvl hwl heq
      · have hwu : w = u := (mem_cons.mp hw).resolve_right hwl
        subst hwu
        have h₁ := hlater v hvl
        rw [heq, hfirst hwl] at h₁
        simp only at h₁
        omega
    · have hvu : v = u := (mem_cons.mp hv).resolve_right hvl
      subst hvu
      by_cases hwl : w ∈ vl
      · have h₁ := hlater w hwl
        rw [← heq, hfirst hvl] at h₁
        simp only at h₁
        omega
      · exact ((mem_cons.mp hw).resolve_right hwl).symm

theorem Mvs.vsTy_var_bind (h : w ∈ vl) : ((m.bind k vl).var w).vsTy = w.vsTy := by
  obtain ⟨j, _, _, hj⟩ := Mvs.lookup_bind h (k := k)
  unfold Mvs.var
  rw [hj m]

variable {sig : TySymbol → List LSymbol}

/-- The map replaces the variables of `F` by terms of their types, whose
variables are below the tag `k`. -/
def Mvs.Ok (sig : TySymbol → List LSymbol) (k : ℕ) (m : Mvs) (F : List VSymbol) : Prop :=
  ∀ v ∈ F, (m.get v).Wt sig ∧ (m.get v).tTy = some v.vsTy ∧
    ∀ w ∈ (m.get v).freeVars, w.vsName < k

theorem Mvs.Ok.mono (h : m.Ok sig k F) (hF : ∀ v ∈ G, v ∈ F) : m.Ok sig k G :=
  fun v hv => h v (hF v hv)

theorem Mvs.Ok.bind {k : ℕ} {m : Mvs} {F G vl : List VSymbol} (h : m.Ok sig k F)
    (hF : ∀ v ∈ G, v ∉ vl → v ∈ F) : (m.bind k vl).Ok sig (k + vl.length) G := by
  intro v hv
  by_cases hvl : v ∈ vl
  · obtain ⟨hget, _, hlt⟩ := Mvs.get_bind (m := m) hvl (k := k)
    rw [hget]
    refine ⟨trivial, ?_, ?_⟩
    · show some ((m.bind k vl).var v).vsTy = some v.vsTy
      rw [Mvs.vsTy_var_bind hvl]
    · intro w hw
      rw [freeVars, mem_singleton] at hw
      subst hw
      exact hlt
  · rw [Mvs.get_bind_of_not_mem hvl]
    obtain ⟨hwt, hty, hbelow⟩ := h v (hF v hv hvl)
    refine ⟨hwt, hty, fun w hw => ?_⟩
    have := hbelow w hw
    omega

end Bind

/-! ## Free variables under a binder -/

namespace Term

variable {a : Sattr} {v : VSymbol}

theorem mem_freeVars_tapp {s : LSymbol} {tl : List Term} {ty : Option Ty} (ht : t ∈ tl)
    (h : v ∈ t.freeVars) : v ∈ (tapp a s tl ty).freeVars := by
  rw [freeVars, freeVarsList_eq, mem_flatMap]
  exact ⟨t, ht, h⟩

theorem mem_freeVars_tlet {e : Term} (h : v ∈ e.freeVars) (hne : v ∉ [w]) :
    v ∈ (tlet a t w e).freeVars := by
  rw [freeVars, mem_append, mem_filter, decide_eq_true_eq]
  exact .inr ⟨h, by simpa using hne⟩

theorem mem_freeVars_tcase {bl : List (Pattern × Term)} {b : Pattern × Term}
    (hb : b ∈ bl) (h : v ∈ b.2.freeVars) (hne : v ∉ b.1.patVars) :
    v ∈ (tcase a t bl).freeVars := by
  rw [freeVars, freeVarsBranches_eq, mem_append, mem_flatMap]
  refine .inr ⟨b, hb, ?_⟩
  rw [mem_filter, decide_eq_true_eq]
  exact ⟨h, hne⟩

theorem mem_freeVars_teps (h : v ∈ f.freeVars) (hne : v ∉ [w]) : v ∈ (teps a w f).freeVars := by
  rw [freeVars, mem_filter, decide_eq_true_eq]
  exact ⟨h, by simpa using hne⟩

theorem mem_freeVars_tquant {trl : List (List Term)} (h : v ∈ f.freeVars) (hne : v ∉ vl) :
    v ∈ (tquant a q vl trl f).freeVars := by
  rw [freeVars, mem_filter, decide_eq_true_eq]
  exact ⟨mem_append_right _ h, hne⟩

theorem mem_freeVars_trigger {trl : List (List Term)} {tr : List Term} (htr : tr ∈ trl)
    (ht : t ∈ tr) (h : v ∈ t.freeVars) (hne : v ∉ vl) : v ∈ (tquant a q vl trl f).freeVars := by
  rw [freeVars, mem_filter, decide_eq_true_eq]
  refine ⟨mem_append_left _ ?_, hne⟩
  rw [freeVarsTriggers_eq, mem_flatMap]
  exact ⟨tr, htr, mem_flatMap.mpr ⟨t, ht, h⟩⟩

end Term

/-! ## Types -/

section Types

variable {sig : TySymbol → List LSymbol}

@[simp] theorem Term.tTy_setAttrs (a : Sattr) (t : Term) : (t.setAttrs a).tTy = t.tTy := by
  cases t with
  | tcase a t bl => rw [Term.setAttrs, tTy, tTy]
  | _ => rfl

@[simp] theorem tTy_tAttrCopy (s t : Term) : (tAttrCopy s t).tTy = t.tTy :=
  tTy_setAttrs _ t

@[simp] theorem Term.wt_setAttrs (a : Sattr) (t : Term) : (t.setAttrs a).Wt sig ↔ t.Wt sig := by
  cases t with
  | tcase a t bl => simp only [Term.setAttrs, Wt, tTy]
  | _ => exact .rfl

@[simp] theorem Term.freeVars_setAttrs (a : Sattr) (t : Term) :
    (t.setAttrs a).freeVars = t.freeVars := by
  cases t <;> rfl

theorem Term.subst_tvar (k : ℕ) (m : Mvs) (a : Sattr) (v : VSymbol) :
    ∃ a', Term.subst k m (.tvar a v) = (m.get v).setAttrs a' := by
  unfold Term.subst Mvs.get
  cases m.lookup v with
  | none => exact ⟨a, rfl⟩
  | some t => exact ⟨_, rfl⟩

theorem Term.tTy_subst : ∀ {k : ℕ} {m : Mvs}, m.Ok sig k t.freeVars →
    (t.subst k m).tTy = t.tTy := by
  induction t with
  | tvar a v =>
    intro k m hm
    obtain ⟨a', h⟩ := subst_tvar k m a v
    rw [h, tTy_setAttrs, (hm v (mem_singleton_self v)).2.1, tTy]
  | tconst a c ty | tapp a s tl ty _ | teps a v f _ | tquant a q vl trl f _ _
  | tbinop a op f g _ _ | tnot a f _ | ttrue a | tfalse a => intro k m _; rfl
  | tif a f t1 t2 _ _ ih =>
    intro k m hm
    exact ih (hm.mono (fun v hv => mem_append_right _ hv))
  | tlet a t v e _ ih =>
    intro k m hm
    exact ih (hm.bind (fun w hw hne => mem_freeVars_tlet hw hne))
  | tcase a t bl _ ih =>
    intro k m hm
    cases bl with
    | nil => rfl
    | cons b bl =>
      exact ih b mem_cons_self
        (hm.bind (fun w hw hne => mem_freeVars_tcase mem_cons_self hw hne))

theorem Term.map_tTy_subst {tl : List Term} (h : ∀ t ∈ tl, m.Ok sig k t.freeVars) :
    (tl.map (Term.subst k m)).map tTy = tl.map tTy := by
  rw [map_map]
  exact map_congr_left (fun t ht => tTy_subst (h t ht))

theorem Term.wt_subst : ∀ {k : ℕ} {m : Mvs}, m.Ok sig k t.freeVars → t.Wt sig →
    (t.subst k m).Wt sig := by
  induction t with
  | tvar a v =>
    intro k m hm _
    obtain ⟨a', h⟩ := subst_tvar k m a v
    rw [h, wt_setAttrs]
    exact (hm v (mem_singleton_self v)).1
  | tconst a c ty | ttrue a | tfalse a => intro k m _ h; exact h
  | tapp a s tl ty ih =>
    intro k m hm h
    simp only [Wt, wtList_iff] at h
    have hok : ∀ t ∈ tl, m.Ok sig k t.freeVars :=
      fun t ht => hm.mono (fun v hv => mem_freeVars_tapp ht hv)
    simp only [Term.subst, Term.substList_eq, Wt, wtList_iff]
    refine ⟨?_, ?_⟩
    · rw [map_tTy_subst hok]
      exact h.1
    · intro u hu
      obtain ⟨t, ht, rfl⟩ := mem_map.mp hu
      exact ih t ht (hok t ht) (h.2 t ht)
  | tif a f t1 t2 ihf ih1 ih2 =>
    intro k m hm h
    have hokf := hm.mono (G := f.freeVars) (fun v hv => by simp [freeVars, hv])
    have hok1 := hm.mono (G := t1.freeVars) (fun v hv => by simp [freeVars, hv])
    have hok2 := hm.mono (G := t2.freeVars) (fun v hv => by simp [freeVars, hv])
    refine ⟨?_, ?_, ihf hokf h.2.2.1, ih1 hok1 h.2.2.2.1, ih2 hok2 h.2.2.2.2⟩
    · rw [tTy_subst hokf, h.1]
    · rw [tTy_subst hok1, tTy_subst hok2, h.2.1]
  | tlet a t v e iht ihe =>
    intro k m hm h
    have hokt := hm.mono (G := t.freeVars) (fun v hv => by simp [freeVars, hv])
    refine ⟨?_, iht hokt h.2.1, ihe (hm.bind (fun w => mem_freeVars_tlet)) h.2.2⟩
    rw [tTy_subst hokt, h.1]
  | tcase a t bl iht ihb =>
    intro k m hm h
    have hokt := hm.mono (G := t.freeVars) (fun v hv => by simp [freeVars, hv])
    have hty := tTy_subst hm
    simp only [Wt, wtBranches_iff] at h
    simp only [Term.subst, substBranches_eq] at hty
    simp only [Term.subst, substBranches_eq, Wt, wtBranches_iff]
    refine ⟨by simpa using h.1, iht hokt h.2.1, ?_⟩
    intro b' hb'
    obtain ⟨b, hb, rfl⟩ := mem_map.mp hb'
    obtain ⟨hpty, hok, hlin, hbty, hwt⟩ := h.2.2 b hb
    have hokb := hm.bind (fun w hw hne => mem_freeVars_tcase hb hw hne)
    have hr : ∀ v ∈ b.1.patVars, ((m.bind k b.1.patVars).var v).vsTy = v.vsTy :=
      fun v hv => Mvs.vsTy_var_bind hv
    refine ⟨?_, Pattern.ok_rename hok hr, Pattern.linear_rename hlin Mvs.var_injOn, ?_,
      ihb b hb hokb hwt⟩
    · rw [Pattern.patTy_rename hr, hpty, tTy_subst hokt]
    · rw [tTy_subst hokb, hbty, hty]
  | teps a v f ih =>
    intro k m hm h
    have hokf := hm.bind (fun w => mem_freeVars_teps (a := a) (f := f) (w := v))
    exact ⟨(tTy_subst hokf).trans h.1, ih hokf h.2⟩
  | tquant a q vl trl f ihtr ih =>
    intro k m hm h
    simp only [Wt, wtTriggers_iff] at h
    simp only [Term.subst, substTriggers_eq, Wt, wtTriggers_iff]
    have hokf := hm.bind (fun w => mem_freeVars_tquant (a := a) (f := f))
    refine ⟨by rw [tTy_subst hokf, h.1], ?_, ih hokf h.2.2⟩
    intro tr' htr' u hu
    obtain ⟨tr, htr, rfl⟩ := mem_map.mp htr'
    obtain ⟨t, ht, rfl⟩ := mem_map.mp hu
    exact ihtr tr htr t ht (hm.bind (fun w => mem_freeVars_trigger htr ht)) (h.2.1 tr htr t ht)
  | tbinop a op f g ihf ihg =>
    intro k m hm h
    have hokf := hm.mono (G := f.freeVars) (fun v hv => by simp [freeVars, hv])
    have hokg := hm.mono (G := g.freeVars) (fun v hv => by simp [freeVars, hv])
    refine ⟨?_, ?_, ihf hokf h.2.2.1, ihg hokg h.2.2.2⟩
    · rw [tTy_subst hokf, h.1]
    · rw [tTy_subst hokg, h.2.1]
  | tnot a f ih =>
    intro k m hm h
    exact ⟨(tTy_subst (t := f) hm).trans h.1, ih hm h.2⟩

end Types

/-! ## Meaning -/

namespace Interp

variable {sig : TySymbol → List LSymbol} {I : Interp sig}

/-- The same value, and for a formula the same truth. -/
def Same (o : Option Ty) (r r' : Den I.Val) : Prop :=
  r.val = r'.val ∧ (o = none → (r.tr ↔ r'.tr))

/-- The valuation `ρ₀` gives to the variables of `F` the values of what replaces
them. -/
def Agree (m : Mvs) (F : List VSymbol) (ρ ρ₀ : I.Env) : Prop :=
  ∀ v ∈ F, ρ₀ v = I.eval ρ (m.get v)

@[simp] theorem sem_setAttrs (a : Sattr) (t : Term) (ρ : I.Env) :
    I.sem (t.setAttrs a) ρ = I.sem t ρ := by
  cases t <;> rfl

@[simp] theorem eval_setAttrs (a : Sattr) (t : Term) (ρ : I.Env) :
    I.eval ρ (t.setAttrs a) = I.eval ρ t := by
  rw [eval, sem_setAttrs, eval]

@[simp] theorem holds_setAttrs (a : Sattr) (f : Term) (ρ : I.Env) :
    I.Holds ρ (f.setAttrs a) ↔ I.Holds ρ f := by
  rw [Holds, sem_setAttrs, Holds]

variable {ρ : I.Env}

theorem eval_get_of_fresh (hm : m.Ok sig k F) (hv : v ∈ F) {ρ' : I.Env}
    (h : ∀ w : VSymbol, w.vsName < k → ρ w = ρ' w) : I.eval ρ (m.get v) = I.eval ρ' (m.get v) := by
  obtain ⟨hwt, _, hbelow⟩ := hm v hv
  exact eval_congr hwt (fun w hw => h w (hbelow w hw))

/-- Under a binder: the fresh variables take the values of the bound ones. -/
theorem Agree.bind {k : ℕ} {m : Mvs} {F G vl : List VSymbol} {ρ₀ ρ' ρ₀' : I.Env}
    (h : Agree m F ρ ρ₀) (hm : m.Ok sig k F) (hF : ∀ v ∈ G, v ∉ vl → v ∈ F)
    (hρ : ∀ w : VSymbol, w.vsName < k → ρ w = ρ' w) (hρ₀ : ∀ v, v ∉ vl → ρ₀' v = ρ₀ v)
    (hvl : ∀ v ∈ vl, ρ₀' v = ρ' ((m.bind k vl).var v)) : Agree (m.bind k vl) G ρ' ρ₀' := by
  intro v hv
  by_cases hmem : v ∈ vl
  · rw [(Mvs.get_bind hmem).1, eval_tvar]
    exact hvl v hmem
  · rw [Mvs.get_bind_of_not_mem hmem, hρ₀ v hmem, h v (hF v hv hmem)]
    exact eval_get_of_fresh hm (hF v hv hmem) hρ

theorem update_of_lt {ty : Ty} {d : I.Val} (hw : w.vsName < k) :
    ρ w = update ρ ⟨k, ty⟩ d w := by
  rw [update_of_ne]
  rintro rfl
  exact absurd hw (lt_irrefl k)

theorem Agree.bind_one {ρ₀ : I.Env} (h : Agree m F ρ ρ₀) (hm : m.Ok sig k F)
    (hF : ∀ w ∈ G, w ∉ [v] → w ∈ F) (d : I.Val) :
    Agree (m.bind k [v]) G (update ρ ⟨k, v.vsTy⟩ d) (update ρ₀ v d) := by
  refine h.bind hm hF (fun w hw => update_of_lt hw) ?_ ?_
  · intro w hw
    rw [update_of_ne (by simpa using hw)]
  · intro w hw
    rw [mem_singleton] at hw
    subst hw
    have hvar : (m.bind k [w]).var w = ⟨k, w.vsTy⟩ := by
      unfold Mvs.var Mvs.bind Mvs.bind
      rw [lookup_cons_self]
    rw [hvar, update_self, update_self]

theorem quant_subst {P P₀ : I.Env → Prop} :
    ∀ {k : ℕ} {m : Mvs} {F : List VSymbol} {ρ ρ₀ : I.Env}, Agree m F ρ ρ₀ → m.Ok sig k F →
      (∀ v ∈ G, v ∉ vl → v ∈ F) →
      (∀ ρ ρ₀ : I.Env, Agree (m.bind k vl) G ρ ρ₀ → (P ρ ↔ P₀ ρ₀)) →
      (I.quant q (freshen k vl) P ρ ↔ I.quant q vl P₀ ρ₀) := by
  induction vl with
  | nil =>
    intro k m F ρ ρ₀ h _ hF hP
    have hP' := hP ρ ρ₀ (fun v hv => h v (hF v hv not_mem_nil))
    cases q <;> exact hP'
  | cons v vl ih =>
    intro k m F ρ ρ₀ h hm hF hP
    -- one variable is bound, the others follow
    have hstep : ∀ d, I.quant q (freshen (k + 1) vl) P (update ρ ⟨k, v.vsTy⟩ d) ↔
        I.quant q vl P₀ (update ρ₀ v d) := by
      intro d
      have hF₁ : ∀ w ∈ G.filter (· ∉ vl), w ∉ [v] → w ∈ F := by
        intro w hw hne
        rw [mem_filter, decide_eq_true_eq] at hw
        exact hF w hw.1 (by simpa using ⟨by simpa using hne, hw.2⟩)
      refine ih (h.bind_one hm hF₁ d) (hm.bind hF₁) (fun w hw hne => ?_) hP
      rw [mem_filter, decide_eq_true_eq]
      exact ⟨hw, hne⟩
    cases q with
    | tforall => exact forall_congr' fun d => imp_congr_right fun _ => hstep d
    | texists => exact exists_congr fun d => and_congr_right fun _ => hstep d

theorem bindAll_rename {r : VSymbol → VSymbol} {bs : List (VSymbol × I.Val)}
    (hv : v ∈ bs.map Prod.fst) (hr : Set.InjOn r { w | w ∈ bs.map Prod.fst }) (ρ ρ₀ : I.Env) :
    bindAll ρ₀ bs v = bindAll ρ (bs.map (fun b => (r b.1, b.2))) (r v) := by
  induction bs with
  | nil => cases hv
  | cons b bs ih =>
    obtain ⟨w, d⟩ := b
    rw [map_cons, bindAll_cons, bindAll_cons]
    by_cases hvw : v = w
    · subst hvw
      rw [update_self, update_self]
    · have hrw : r v ≠ r w := fun heq => hvw (hr hv mem_cons_self heq)
      rw [update_of_ne hvw, update_of_ne hrw]
      have hv' : v ∈ bs.map Prod.fst := (mem_cons.mp hv).resolve_left hvw
      exact ih hv' (hr.mono (fun u hu => mem_cons_of_mem _ hu))

/-- Under a pattern. -/
theorem Agree.bind_pat {ρ₀ : I.Env} (h : Agree m F ρ ρ₀) (hm : m.Ok sig k F)
    (hF : ∀ w ∈ G, w ∉ p.patVars → w ∈ F) {bs : List (VSymbol × I.Val)}
    (hbs : ∀ v, v ∈ bs.map Prod.fst ↔ v ∈ p.patVars) : Agree (m.bind k p.patVars) G
      (bindAll ρ (bs.map (fun b => ((m.bind k p.patVars).var b.1, b.2)))) (bindAll ρ₀ bs) := by
  refine h.bind hm hF ?_ ?_ ?_
  · intro w hw
    refine (bindAll_of_not_mem ?_).symm
    rw [map_map]
    intro hmem
    obtain ⟨b, hb, rfl⟩ := mem_map.mp hmem
    have hb' := (hbs b.1).mp (mem_map_of_mem hb)
    exact absurd hw (not_lt.mpr (Mvs.get_bind (m := m) hb' (k := k)).2.1)
  · intro v hv
    exact bindAll_of_not_mem (fun hmem => hv ((hbs v).mp hmem))
  · intro v hv
    refine bindAll_rename ((hbs v).mpr hv) ?_ ρ ρ₀
    exact Mvs.var_injOn.mono (fun w hw => (hbs w).mp hw)

theorem dfltVars_rename {r : VSymbol → VSymbol} (hr : ∀ v ∈ p.patVars, (r v).vsTy = v.vsTy) :
    I.dfltVars (p.rename r) = (I.dfltVars p).map (fun b => (r b.1, b.2)) := by
  unfold dfltVars
  rw [Pattern.patVars_rename, map_map, map_map]
  apply map_congr_left
  intro v hv
  show (r v, I.dflt (r v).vsTy) = (r v, I.dflt v.vsTy)
  rw [hr v hv]

/-- The meaning of a term after a substitution. -/
theorem sem_subst : t.Wt sig → ∀ {k : ℕ} {m : Mvs} {ρ ρ₀ : I.Env},
    m.Ok sig k t.freeVars → Agree m t.freeVars ρ ρ₀ →
      Same t.tTy (I.sem (t.subst k m) ρ) (I.sem t ρ₀) := by
  induction t with
  | tvar a v =>
    intro _ k m ρ ρ₀ hm h
    obtain ⟨a', heq⟩ := subst_tvar k m a v
    refine ⟨?_, fun hnone => by cases hnone⟩
    rw [heq, sem_setAttrs]
    exact (h v (mem_singleton_self v)).symm
  | tconst a c ty | ttrue a | tfalse a => intro _ k m ρ ρ₀ _ _; exact ⟨rfl, fun _ => Iff.rfl⟩
  | tapp a s tl ty ih =>
    intro hwt k m ρ ρ₀ hm h
    simp only [Wt, wtList_iff] at hwt
    have hok : ∀ t ∈ tl, m.Ok sig k t.freeVars :=
      fun t ht => hm.mono (fun v hv => mem_freeVars_tapp ht hv)
    have hvals : (tl.map (Term.subst k m)).map (I.eval ρ) = tl.map (I.eval ρ₀) := by
      rw [map_map]
      apply map_congr_left
      intro t ht
      exact (ih t ht (hwt.2 t ht) (hok t ht)
        (fun v hv => h v (mem_freeVars_tapp ht hv))).1
    have htys := map_tTy_subst hok
    refine ⟨?_, fun _ => ?_⟩
    · show I.eval ρ (.tapp a s (Term.substList k m tl) ty) = I.eval ρ₀ (.tapp a s tl ty)
      rw [Term.substList_eq, eval_tapp, eval_tapp, hvals, htys]
    · show I.Holds ρ (.tapp a s (Term.substList k m tl) ty) ↔ I.Holds ρ₀ (.tapp a s tl ty)
      rw [Term.substList_eq]
      by_cases hs : s = psEqu
      · rw [holds_psEqu I ρ a hs, holds_psEqu I ρ₀ a hs, hvals]
      · rw [holds_tapp I ρ a hs, holds_tapp I ρ₀ a hs, hvals, htys]
  | tif a f t1 t2 ihf ih1 ih2 =>
    intro hwt k m ρ ρ₀ hm h
    obtain ⟨hfty, h12, hf, h1, h2⟩ := hwt
    have hsub : ∀ u, u = f ∨ u = t1 ∨ u = t2 → ∀ v ∈ u.freeVars,
        v ∈ (tif a f t1 t2).freeVars := by
      rintro u (rfl | rfl | rfl) v hv <;> simp [freeVars, hv]
    have hFf := (ihf hf (hm.mono (hsub f (.inl rfl))) (fun v hv => h v (hsub f (.inl rfl) v hv))).2
      hfty
    have hF1 := ih1 h1 (hm.mono (hsub t1 (.inr (.inl rfl))))
      (fun v hv => h v (hsub t1 (.inr (.inl rfl)) v hv))
    have hF2 := ih2 h2 (hm.mono (hsub t2 (.inr (.inr rfl))))
      (fun v hv => h v (hsub t2 (.inr (.inr rfl)) v hv))
    rw [h12] at hF1
    rw [Term.subst, sem_tif, sem_tif, Holds, Holds]
    by_cases hc : (I.sem f ρ₀).tr
    · rw [if_pos hc, if_pos (hFf.mpr hc)]
      exact hF1
    · rw [if_neg hc, if_neg (fun h => hc (hFf.mp h))]
      exact hF2
  | tlet a t v e iht ihe =>
    intro hwt k m ρ ρ₀ hm h
    obtain ⟨_, ht, he⟩ := hwt
    have hsub : ∀ w ∈ t.freeVars, w ∈ (tlet a t v e).freeVars := by
      intro w hw
      simp [freeVars, hw]
    have hval := (iht ht (hm.mono hsub) (fun w hw => h w (hsub w hw))).1
    rw [Term.subst, sem_tlet, sem_tlet]
    have heq : I.eval ρ (t.subst k m) = I.eval ρ₀ t := hval
    rw [heq]
    exact ihe he (hm.bind (fun w => mem_freeVars_tlet))
      (h.bind_one hm (fun w => mem_freeVars_tlet) _)
  | tcase a t bl iht ihb =>
    intro hwt k m ρ ρ₀ hm h
    have hsub : ∀ w ∈ t.freeVars, w ∈ (tcase a t bl).freeVars := by
      intro w hw
      simp [freeVars, hw]
    simp only [Wt, wtBranches_iff] at hwt
    obtain ⟨_, ht, hbl⟩ := hwt
    have heq : I.eval ρ (t.subst k m) = I.eval ρ₀ t :=
      (iht ht (hm.mono hsub) (fun w hw => h w (hsub w hw))).1
    rw [Term.subst, sem_tcase, sem_tcase, heq, substBranches_eq, map_map]
    refine I.branches_sim ?_ ⟨rfl, fun _ => Iff.rfl⟩
    rw [List.forall₂_map_left_iff, List.forall₂_map_right_iff, List.forall₂_same]
    intro b hb
    obtain ⟨_, hok, _, hbty, hbwt⟩ := hbl b hb
    have hbody : ∀ bs : List (VSymbol × I.Val), (∀ v, v ∈ bs.map Prod.fst ↔ v ∈ b.1.patVars) →
        Same (tcase a t bl).tTy
          (I.sem (b.2.subst (k + b.1.patVars.length) (m.bind k b.1.patVars))
            (bindAll ρ (bs.map (fun x => ((m.bind k b.1.patVars).var x.1, x.2)))))
          (I.sem b.2 (bindAll ρ₀ bs)) := by
      intro bs hbs
      rw [← hbty]
      exact ihb b hb hbwt (hm.bind (fun w => mem_freeVars_tcase hb))
        (h.bind_pat hm (fun w => mem_freeVars_tcase hb) hbs)
    simp only [Function.comp]
    rw [Pattern.matchPat_rename]
    refine ⟨Option.map_eq_none_iff, ?_, ?_⟩
    · intro bs bs' hm' hm₀
      rw [hm₀, Option.map_some, Option.some.injEq] at hm'
      subst hm'
      exact hbody bs' (Pattern.matchPat_keys I.dest hok hm₀)
    · rw [dfltVars_rename (fun v hv => Mvs.vsTy_var_bind hv)]
      apply hbody
      intro v
      simp [dfltVars]
  | teps a v f ih =>
    intro hwt k m ρ ρ₀ hm h
    refine ⟨?_, fun hnone => by cases hnone⟩
    have hP : ∀ d, I.Holds (update ρ ⟨k, v.vsTy⟩ d) (f.subst (k + 1) (m.bind k [v])) =
        I.Holds (update ρ₀ v d) f := by
      intro d
      apply propext
      exact (ih hwt.2 (hm.bind (fun w => mem_freeVars_teps))
        (h.bind_one hm (fun w => mem_freeVars_teps) d)).2 hwt.1
    rw [Term.subst, sem_teps, sem_teps]
    simp only [hP]
  | tquant a q vl trl f _ ih =>
    intro hwt k m ρ ρ₀ hm h
    refine ⟨rfl, fun _ => ?_⟩
    refine quant_subst h hm (fun w => mem_freeVars_tquant) (fun ρ ρ₀ hag => ?_)
    exact (ih hwt.2.2 (hm.bind (fun w => mem_freeVars_tquant)) hag).2 hwt.1
  | tbinop a op f g ihf ihg =>
    intro hwt k m ρ ρ₀ hm h
    have hsubf : ∀ w ∈ f.freeVars, w ∈ (tbinop a op f g).freeVars := by
      intro w hw
      simp [freeVars, hw]
    have hsubg : ∀ w ∈ g.freeVars, w ∈ (tbinop a op f g).freeVars := by
      intro w hw
      simp [freeVars, hw]
    have hf := (ihf hwt.2.2.1 (hm.mono hsubf) (fun w hw => h w (hsubf w hw))).2 hwt.1
    have hg := (ihg hwt.2.2.2 (hm.mono hsubg) (fun w hw => h w (hsubg w hw))).2 hwt.2.1
    refine ⟨rfl, fun _ => ?_⟩
    show op.tr (I.sem (f.subst k m) ρ).tr (I.sem (g.subst k m) ρ).tr ↔
      op.tr (I.sem f ρ₀).tr (I.sem g ρ₀).tr
    rw [hf, hg]
  | tnot a f ih =>
    intro hwt k m ρ ρ₀ hm h
    have hf := (ih hwt.2 hm h).2 hwt.1
    exact ⟨rfl, fun _ => not_congr hf⟩

end Interp

/-! ## One variable -/

/-- A tag above those of the variables. -/
def freshTag (vl : List VSymbol) : ℕ := (vl.map VSymbol.vsName).foldr max 0 + 1

/-- `t_subst_single`. -/
def tSubstSingle (v : VSymbol) (t1 t : Term) : Term :=
  t.subst (freshTag (t1.freeVars ++ t.freeVars)) [(v, t1)]

theorem lt_freshTag (h : v ∈ vl) : v.vsName < freshTag vl := by
  have hle : v.vsName ≤ (vl.map VSymbol.vsName).foldr max 0 :=
    le_max_of_le' 0 (mem_map_of_mem h) le_rfl
  unfold freshTag
  omega

section Single

variable {sig : TySymbol → List LSymbol} {v : VSymbol} {t1 t : Term}

theorem ok_single (hwt : t1.Wt sig) (hty : t1.tTy = some v.vsTy) :
    Mvs.Ok sig (freshTag (t1.freeVars ++ t.freeVars)) [(v, t1)] t.freeVars := by
  intro w hw
  by_cases hwv : w = v
  · subst hwv
    rw [Mvs.get_cons_self]
    exact ⟨hwt, hty, fun u hu => lt_freshTag (mem_append_left _ hu)⟩
  · rw [Mvs.get_cons_of_ne hwv]
    refine ⟨trivial, rfl, fun u hu => ?_⟩
    obtain rfl : u = w := mem_singleton.mp hu
    exact lt_freshTag (mem_append_right _ hw)

theorem wt_tSubstSingle (hwt : t1.Wt sig) (hty : t1.tTy = some v.vsTy) (ht : t.Wt sig) :
    (tSubstSingle v t1 t).Wt sig :=
  wt_subst (ok_single hwt hty) ht

theorem tTy_tSubstSingle (hwt : t1.Wt sig) (hty : t1.tTy = some v.vsTy) :
    (tSubstSingle v t1 t).tTy = t.tTy :=
  tTy_subst (ok_single hwt hty)

theorem Interp.sem_tSubstSingle {I : Interp sig} (hwt : t1.Wt sig) (hty : t1.tTy = some v.vsTy)
    (ht : t.Wt sig) (ρ : I.Env) :
    Interp.Same t.tTy (I.sem (tSubstSingle v t1 t) ρ)
      (I.sem t (update ρ v (I.eval ρ t1))) := by
  refine I.sem_subst ht (ok_single hwt hty) (fun w _ => ?_)
  by_cases hwv : w = v
  · subst hwv
    rw [update_self, Mvs.get_cons_self]
  · rw [update_of_ne hwv, Mvs.get_cons_of_ne hwv]
    rfl

end Single

end Why3
