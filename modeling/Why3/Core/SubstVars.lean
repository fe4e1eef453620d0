import Why3.Core.Subst

/-!
# What a substitution leaves in a term

The variables, the symbols and the types of a term after a substitution.
-/

namespace Why3

open List Mvs

/-! ## Under a binder -/

namespace Mvs

variable {m : Mvs} {k : ℕ} {vl : List VSymbol} {u w : VSymbol}

theorem var_mem_freshen (h : u ∈ vl) : (m.bind k vl).var u ∈ freshen k vl := by
  suffices hlook : ∃ j, (⟨j, u.vsTy⟩ : VSymbol) ∈ freshen k vl ∧
      (m.bind k vl).lookup u = some (.tvar [] ⟨j, u.vsTy⟩) by
    obtain ⟨j, hj, hlook⟩ := hlook
    unfold var
    rw [hlook]
    exact hj
  induction vl generalizing m k with
  | nil => cases h
  | cons v vl ih =>
    rw [freshen, bind]
    by_cases hu : u ∈ vl
    · obtain ⟨j, hj, hlook⟩ := ih (m := (v, .tvar [] ⟨k, v.vsTy⟩) :: m) (k := k + 1) hu
      exact ⟨j, mem_cons_of_mem _ hj, hlook⟩
    · obtain rfl : u = v := (mem_cons.mp h).resolve_right hu
      have hlookup : ∀ {m : Mvs} {k : ℕ} {vl : List VSymbol}, u ∉ vl →
          (m.bind k vl).lookup u = m.lookup u := by
        intro m k vl hnot
        induction vl generalizing m k with
        | nil => rfl
        | cons v vl ih =>
          rw [mem_cons, not_or] at hnot
          have hne : (u == v) = false := by simpa using hnot.1
          rw [bind, ih hnot.2, List.lookup_cons, hne]
      refine ⟨k, mem_cons_self, ?_⟩
      rw [hlookup hu, lookup_cons_self]

theorem mem_get_bind (h : w ∈ ((m.bind k vl).get u).freeVars)
    (hw : w ∉ vl.map (m.bind k vl).var) : u ∉ vl ∧ w ∈ (m.get u).freeVars := by
  by_cases hu : u ∈ vl
  · rw [(get_bind hu).1, Term.freeVars, mem_singleton] at h
    exact absurd (h ▸ mem_map_of_mem hu) hw
  · rw [get_bind_of_not_mem hu] at h
    exact ⟨hu, h⟩

theorem mem_get_bind_of_freshen (h : w ∈ ((m.bind k vl).get u).freeVars)
    (hw : w ∉ freshen k vl) : u ∉ vl ∧ w ∈ (m.get u).freeVars := by
  refine mem_get_bind h (fun hmem => hw ?_)
  obtain ⟨x, hx, rfl⟩ := mem_map.mp hmem
  exact var_mem_freshen hx

/-- A renaming that keeps the types. -/
def Renames (m : Mvs) : Prop :=
  ∀ v, m.get v = .tvar [] (m.var v) ∧ (m.var v).vsTy = v.vsTy

theorem renames_nil : Renames [] := fun _ => ⟨rfl, rfl⟩

theorem Renames.bind (h : m.Renames) (k : ℕ) (vl : List VSymbol) : (m.bind k vl).Renames := by
  intro v
  by_cases hv : v ∈ vl
  · exact ⟨(get_bind hv).1, vsTy_var_bind hv⟩
  · have hget := get_bind_of_not_mem (m := m) (k := k) hv
    rw [(h v).1] at hget
    have hvar : (m.bind k vl).var v = m.var v := by
      unfold get at hget
      unfold var
      cases hl : (m.bind k vl).lookup v with
      | none =>
        rw [hl] at hget
        injection hget
      | some t =>
        rw [hl, Option.getD_some] at hget
        subst hget
        rfl
    rw [hget, hvar]
    exact ⟨rfl, (h v).2⟩

end Mvs

namespace Pattern

variable {r : VSymbol → VSymbol}

theorem symbols_rename (p : Pattern) : (p.rename r).symbols = p.symbols := by
  induction p with
  | pwild ty => rfl
  | pvar v => rfl
  | papp s pl ty ih =>
    rw [rename, symbols, symbols, renameList_eq]
    refine congrArg (s :: ·) ?_
    induction pl with
    | nil => rfl
    | cons p pl ihl =>
      rw [map_cons, symbolsList, symbolsList, ih p mem_cons_self,
        ihl (fun q hq => ih q (mem_cons_of_mem _ hq))]
  | por p q hp hq => rw [rename, symbols, symbols, hp, hq]
  | pas p v ih => rw [rename, symbols, symbols, ih]

theorem types_rename (hr : ∀ v, (r v).vsTy = v.vsTy) (p : Pattern) :
    (p.rename r).types = p.types := by
  induction p with
  | pwild ty => rfl
  | pvar v => rw [rename, types, types, hr]
  | papp s pl ty ih =>
    rw [rename, types, types, renameList_eq, typesList_eq, typesList_eq, flatMap_map]
    exact congrArg (ty :: ·) (flatMap_congr ih)
  | por p q hp hq => rw [rename, types, types, hp, hq]
  | pas p v ih => rw [rename, types, types, ih, hr]

end Pattern

/-! ## Free variables -/

namespace Term

theorem mem_freeVars_subst {t : Term} : ∀ {k : ℕ} {m : Mvs} {w : VSymbol},
    w ∈ (t.subst k m).freeVars → ∃ v ∈ t.freeVars, w ∈ (m.get v).freeVars := by
  induction t with
  | tvar a v =>
    intro k m w hw
    obtain ⟨a', h⟩ := Term.subst_tvar k m a v
    rw [h, freeVars_setAttrs] at hw
    exact ⟨v, mem_singleton_self v, hw⟩
  | tconst a c ty | ttrue a | tfalse a => intro k m w hw; cases hw
  | tapp a s tl ty ih =>
    intro k m w hw
    simp only [subst, substList_eq, freeVars, freeVarsList_eq, mem_flatMap,
      mem_map] at hw
    obtain ⟨_, ⟨t, ht, rfl⟩, hw⟩ := hw
    obtain ⟨v, hv, hw⟩ := ih t ht hw
    exact ⟨v, mem_freeVars_tapp ht hv, hw⟩
  | tif a f t1 t2 ihf ih1 ih2 =>
    intro k m w hw
    simp only [subst, freeVars, mem_append] at hw ⊢
    rcases hw with (hw | hw) | hw
    · obtain ⟨v, hv, hw⟩ := ihf hw
      exact ⟨v, .inl (.inl hv), hw⟩
    · obtain ⟨v, hv, hw⟩ := ih1 hw
      exact ⟨v, .inl (.inr hv), hw⟩
    · obtain ⟨v, hv, hw⟩ := ih2 hw
      exact ⟨v, .inr hv, hw⟩
  | tlet a t v e iht ihe =>
    intro k m w hw
    simp only [subst, freeVars, mem_append, mem_filter, decide_eq_true_eq] at hw
    rcases hw with hw | ⟨hw, hne⟩
    · obtain ⟨u, hu, hw⟩ := iht hw
      exact ⟨u, mem_append_left _ hu, hw⟩
    · obtain ⟨u, hu, hw⟩ := ihe hw
      obtain ⟨huv, hw⟩ := mem_get_bind_of_freshen hw (fun h => hne (mem_singleton.mp h))
      exact ⟨u, mem_freeVars_tlet hu huv, hw⟩
  | tcase a t bl iht ihb =>
    intro k m w hw
    simp only [subst, substBranches_eq, freeVars, freeVarsBranches_eq, mem_append,
      mem_flatMap, mem_map] at hw
    rcases hw with hw | ⟨_, ⟨b, hb, rfl⟩, hw⟩
    · obtain ⟨u, hu, hw⟩ := iht hw
      exact ⟨u, mem_append_left _ hu, hw⟩
    · rw [mem_filter, decide_eq_true_eq, Pattern.patVars_rename] at hw
      obtain ⟨u, hu, hw'⟩ := ihb b hb hw.1
      obtain ⟨hub, hw'⟩ := mem_get_bind hw' hw.2
      exact ⟨u, mem_freeVars_tcase hb hu hub, hw'⟩
  | teps a v f ih =>
    intro k m w hw
    simp only [subst, freeVars, mem_filter, decide_eq_true_eq] at hw
    obtain ⟨u, hu, hw'⟩ := ih hw.1
    obtain ⟨huv, hw'⟩ := mem_get_bind_of_freshen hw' (fun h => hw.2 (mem_singleton.mp h))
    exact ⟨u, mem_freeVars_teps hu huv, hw'⟩
  | tquant a q vl trl f ihtr ih =>
    intro k m w hw
    simp only [subst, freeVars, mem_filter, decide_eq_true_eq, mem_append,
      freeVarsTriggers_eq, substTriggers_eq, mem_flatMap, mem_map] at hw
    obtain ⟨hw, hnot⟩ := hw
    rcases hw with ⟨_, ⟨tr, htr, rfl⟩, _, hmem, hw⟩ | hw
    · obtain ⟨t, ht, rfl⟩ := mem_map.mp hmem
      obtain ⟨u, hu, hw⟩ := ihtr tr htr t ht hw
      obtain ⟨huv, hw⟩ := mem_get_bind_of_freshen hw hnot
      exact ⟨u, mem_freeVars_trigger htr ht hu huv, hw⟩
    · obtain ⟨u, hu, hw⟩ := ih hw
      obtain ⟨huv, hw⟩ := mem_get_bind_of_freshen hw hnot
      exact ⟨u, mem_freeVars_tquant hu huv, hw⟩
  | tbinop a op f g ihf ihg =>
    intro k m w hw
    simp only [subst, freeVars, mem_append] at hw ⊢
    rcases hw with hw | hw
    · obtain ⟨v, hv, hw⟩ := ihf hw
      exact ⟨v, .inl hv, hw⟩
    · obtain ⟨v, hv, hw⟩ := ihg hw
      exact ⟨v, .inr hv, hw⟩
  | tnot a f ih => intro k m w hw; exact ih hw

/-! ## Symbols -/

theorem symbolsTriggers_eq (trl : List (List Term)) :
    symbolsTriggers trl = trl.flatMap (fun tr => tr.flatMap symbols) := by
  induction trl with
  | nil => rfl
  | cons tr trl ih => rw [symbolsTriggers, ih, symbolsList_eq, flatMap_cons]

/-! ## Types -/

theorem map_vsTy_freshen (k : ℕ) (vl : List VSymbol) :
    (freshen k vl).map VSymbol.vsTy = vl.map VSymbol.vsTy := by
  induction vl generalizing k with
  | nil => rfl
  | cons v vl ih => rw [freshen, map_cons, map_cons, ih]

theorem subst_tvar_renames {k : ℕ} {m : Mvs} (hm : m.Renames) (a : Sattr) (v : VSymbol) :
    ∃ a', subst k m (.tvar a v) = .tvar a' (m.var v) := by
  obtain ⟨a', h⟩ := Term.subst_tvar k m a v
  rw [(hm v).1] at h
  exact ⟨a', h⟩

end Term

end Why3
