import Why3.Transform.EliminateIf

/-!
# What replaces a term

The result of an elimination, related to the source term under the map of its variables.
Each constructor of terms carries the relation from the subterms to the term.
-/

namespace Why3

open List Term Interp

variable {a : Sattr} {f f' : Term} {v : VSymbol}

/-! ## Terms without conditionals -/

variable {t : Term}

namespace Term

/-- The immediate subterms, the triggers apart. -/
def parts : Term → List Term
  | .tquant _ _ _ _ f => [f]
  | t => t.children

/-- No term of a value type is a conditional, outside of the triggers. -/
inductive NoTermIf : Term → Prop
  | mk {t : Term} (hif : ∀ {a f t1 t2}, t = .tif a f t1 t2 → t2.tTy = none)
      (h : ∀ u ∈ t.parts, NoTermIf u) : NoTermIf t

theorem NoTermIf.of_parts (hne : ∀ a f t1 t2, t ≠ .tif a f t1 t2)
    (h : ∀ u ∈ t.parts, NoTermIf u) : NoTermIf t :=
  ⟨fun heq => absurd heq (hne _ _ _ _), h⟩

theorem NoTermIf.parts (h : NoTermIf t) : ∀ u ∈ t.parts, NoTermIf u := by
  obtain ⟨-, h⟩ := h
  exact h

theorem noTermIf_tif {t1 t2 : Term} (h2 : t2.tTy = none) (hf : NoTermIf f) (h1 : NoTermIf t1)
    (ht2 : NoTermIf t2) : NoTermIf (.tif a f t1 t2) := by
  refine ⟨?_, ?_⟩
  · intro a' f' t1' t2' heq
    cases heq
    exact h2
  · simp only [Term.parts, children, forall_mem_cons]
    exact ⟨hf, h1, ht2, fun _ h => absurd h not_mem_nil⟩

theorem noTermIf_setAttrs (h : NoTermIf t) : NoTermIf (t.setAttrs a) := by
  obtain ⟨hif, hparts⟩ := h
  cases t with
  | tif b f t1 t2 =>
    simp only [Term.parts, children, forall_mem_cons] at hparts
    exact noTermIf_tif (hif rfl) hparts.1 hparts.2.1 hparts.2.2.1
  | _ => exact .of_parts (fun _ _ _ _ heq => by cases heq) hparts

end Term

/-! ## Free variables -/

variable {t' : Term}

namespace Term

variable {n : ℕ} {m : Mvs}

/-- The free variables of `t'` are those that the map gives to the ones of `t`. -/
def From (m : Mvs) (t t' : Term) : Prop :=
  ∀ v ∈ t'.freeVars, ∃ u ∈ t.freeVars, v ∈ (m.get u).freeVars

theorem from_of_scopes (hvar : ∀ a v, t' ≠ .tvar a v)
    (h : ∀ c' ∈ t'.scopes, ∃ c ∈ t.scopes, (∀ u ∈ c.1, (m.bind n c.1).var u ∈ c'.1) ∧
      From (m.bind n c.1) c.2 c'.2) : From m t t' := by
  intro v hv
  rcases mem_freeVars_iff.mp hv with ⟨a, rfl⟩ | ⟨c', hc', hv, hnot⟩
  · exact absurd rfl (hvar a v)
  · obtain ⟨c, hc, hbound, hfrom⟩ := h c' hc'
    obtain ⟨u, hu, hv⟩ := hfrom v hv
    have hnot' : v ∉ c.1.map (m.bind n c.1).var := by
      rintro hmem
      obtain ⟨w, hw, rfl⟩ := mem_map.mp hmem
      exact hnot (hbound w hw)
    obtain ⟨huc, hv⟩ := Mvs.mem_get_bind hv hnot'
    exact ⟨u, mem_freeVars_iff.mpr (.inr ⟨c, hc, hu, huc⟩), hv⟩

@[simp] theorem from_setAttrs : From m t (t'.setAttrs a) ↔ From m t t' := by
  rw [From, From, freeVars_setAttrs]

/-- The variables of the result are below the tag. -/
theorem From.lt {sig : TySymbol → List LSymbol} (h : From m t t')
    (hok : m.Ok sig n t.freeVars) : ∀ v ∈ t'.freeVars, v.vsName < n := by
  intro v hv
  obtain ⟨u, hu, hv⟩ := h v hv
  exact (hok u hu).2.2 v hv

end Term

/-! ## Replacements -/

namespace EliminateIf

open Term

/-- The term `t'` replaces `t`, whose variables the map `m` renames.  With `tr`, as in
triggers, conditionals may be left. -/
structure Elim (sig : TySymbol → List LSymbol) (tr : Bool) (n : ℕ) (m : Mvs) (t t' : Term) :
    Prop where
  wt : t'.Wt sig
  ty : t'.tTy = t.tTy
  vars : From m t t'
  clean : tr = false → t'.NoTermIf
  equiv : ∀ I : Interp sig, I.EpsExt → I.Equiv (t.subst n m) t'

variable {sig : TySymbol → List LSymbol} {tr : Bool} {n : ℕ} {m : Mvs}

theorem Elim.weaken (h : Elim sig false n m t t') : Elim sig tr n m t t' :=
  { h with clean := fun _ => h.clean rfl }

theorem Elim.attrs (h : Elim sig tr n m t t') (a : Sattr) :
    Elim sig tr n m t (t'.setAttrs a) where
  wt := (wt_setAttrs a t').mpr h.wt
  ty := (tTy_setAttrs a t').trans h.ty
  vars := from_setAttrs.mpr h.vars
  clean htr := noTermIf_setAttrs (h.clean htr)
  equiv I heps := Interp.equiv_setAttrs.mpr (h.equiv I heps)

theorem elim_leaf (hparts : t.scopes = []) (hvar : ∀ a v, t ≠ .tvar a v)
    (hif : ∀ a f t1 t2, t ≠ .tif a f t1 t2) (hwt : t.Wt sig) (hsub : t.subst n m = t) :
    Elim sig tr n m t t where
  wt := hwt
  ty := rfl
  vars := from_of_scopes (n := n) hvar (by simp [hparts])
  clean _ := by
    refine .of_parts hif (fun u hu => ?_)
    have hchild : u ∈ t.children := by
      cases t with
      | tquant => cases hparts
      | _ => exact hu
    rw [← map_snd_scopes, hparts] at hchild
    cases hchild
  equiv I _ := by
    rw [hsub]
    exact .refl hwt

theorem elim_tvar (a : Sattr) (hok : m.Ok sig n (tvar a v).freeVars) (hm : m.Renames) :
    Elim sig tr n m (.tvar a v) ((tvar a v).subst n m) where
  wt := wt_subst hok trivial
  ty := tTy_subst hok
  vars _ := mem_freeVars_subst
  clean _ := by
    obtain ⟨a', heq⟩ := subst_tvar_renames (k := n) hm a v
    rw [heq]
    exact .of_parts (fun _ _ _ _ h => by cases h) (fun u hu => by cases hu)
  equiv I _ := .refl (wt_subst hok trivial)

theorem elim_tapp {g : Term → Term} {s : LSymbol} {tl : List Term} {ty : Option Ty}
    (hok : m.Ok sig n (tapp a s tl ty).freeVars) (hwt : (tapp a s tl ty).Wt sig)
    (h : ∀ t ∈ tl, Elim sig tr n m t (g t)) :
    Elim sig tr n m (.tapp a s tl ty) (.tapp a s (tl.map g) ty) where
  wt := by
    simp only [Wt, wtList_iff] at hwt ⊢
    have htys : (tl.map g).map tTy = tl.map tTy := by
      rw [map_map]
      exact map_congr_left (fun t ht => (h t ht).ty)
    rw [htys]
    exact ⟨hwt.1, forall_mem_map.mpr (fun t ht => (h t ht).wt)⟩
  ty := rfl
  vars := by
    refine from_of_scopes (n := n) (fun _ _ heq => by cases heq) ?_
    simp only [scopes, map_map, forall_mem_map]
    exact fun t ht => ⟨_, mem_map_of_mem ht, fun _ hu => absurd hu not_mem_nil,
      (h t ht).vars⟩
  clean htr := by
    refine .of_parts (fun _ _ _ _ heq => by cases heq) ?_
    exact forall_mem_map.mpr (fun t ht => (h t ht).clean htr)
  equiv I heps := by
    have hwts := wt_subst hok hwt
    rw [subst, substList_eq] at hwts ⊢
    exact equiv_tapp_map (fun t ht => (h t ht).equiv I heps) hwts

theorem elim_tif {t1 t2 t1' t2' : Term} (hok : m.Ok sig n (tif a f t1 t2).freeVars)
    (hwt : (tif a f t1 t2).Wt sig) (htr : tr = false → t2.tTy = none) (hf : Elim sig tr n m f f')
    (h1 : Elim sig tr n m t1 t1') (h2 : Elim sig tr n m t2 t2') :
    Elim sig tr n m (.tif a f t1 t2) (.tif a f' t1' t2') where
  wt := ⟨hf.ty.trans hwt.1, by rw [h1.ty, h2.ty, hwt.2.1], hf.wt, h1.wt, h2.wt⟩
  ty := h2.ty
  vars := by
    refine from_of_scopes (n := n) (fun _ _ heq => by cases heq) ?_
    simp only [scopes, forall_mem_cons, exists_mem_cons_iff]
    refine ⟨.inl ⟨?_, hf.vars⟩, .inr (.inl ⟨?_, h1.vars⟩), .inr (.inr (.inl ⟨?_, h2.vars⟩)), ?_⟩ <;>
      exact fun _ h => absurd h not_mem_nil
  clean h := noTermIf_tif (h2.ty.trans (htr h)) (hf.clean h) (h1.clean h) (h2.clean h)
  equiv I heps := equiv_tif (hf.equiv I heps) (h1.equiv I heps) (h2.equiv I heps)
    (wt_subst hok hwt)

theorem elim_tlet {e e' : Term} (hok : m.Ok sig n (tlet a t v e).freeVars)
    (hwt : (tlet a t v e).Wt sig) (ht : Elim sig tr n m t t')
    (he : Elim sig tr (n + 1) (m.bind n [v]) e e') :
    Elim sig tr n m (.tlet a t v e) (.tlet a t' ⟨n, v.vsTy⟩ e') where
  wt := ⟨ht.ty.trans hwt.1, ht.wt, he.wt⟩
  ty := he.ty
  vars := by
    refine from_of_scopes (n := n) (fun _ _ heq => by cases heq) ?_
    simp only [scopes, forall_mem_cons, exists_mem_cons_iff]
    refine ⟨.inl ⟨fun _ h => absurd h not_mem_nil, ht.vars⟩,
      .inr (.inl ⟨⟨?_, fun _ h => absurd h not_mem_nil⟩, he.vars⟩),
      fun _ h => absurd h not_mem_nil⟩
    exact Mvs.var_mem_freshen (mem_singleton_self v)
  clean h := by
    refine .of_parts (fun _ _ _ _ heq => by cases heq) ?_
    simp only [Term.parts, children, forall_mem_cons]
    exact ⟨ht.clean h, he.clean h, fun _ h => absurd h not_mem_nil⟩
  equiv I heps := equiv_tlet (ht.equiv I heps) (he.equiv I heps) (wt_subst hok hwt)

/-- The pattern of a branch, with the fresh variables. -/
def patternAt (n : ℕ) (m : Mvs) (p : Pattern) : Pattern := p.rename (m.bind n p.patVars).var

theorem elim_tcase {g : Pattern × Term → Term} {bl : List (Pattern × Term)}
    (hok : m.Ok sig n (tcase a t bl).freeVars) (hwt : (tcase a t bl).Wt sig)
    (ht : Elim sig tr n m t t')
    (h : ∀ b ∈ bl, Elim sig tr (n + b.1.patVars.length) (m.bind n b.1.patVars) b.2 (g b)) :
    Elim sig tr n m (.tcase a t bl)
      (.tcase a t' (bl.map (fun b => (patternAt n m b.1, g b)))) := by
  have hwts := wt_subst hok hwt
  have htys := tTy_subst hok
  rw [subst, substBranches_eq] at hwts htys
  have hty : (tcase a t' (bl.map (fun b => (patternAt n m b.1, g b)))).tTy =
      (tcase a t bl).tTy := by
    cases bl with
    | nil => rfl
    | cons b bl => exact (h b mem_cons_self).ty
  have hwt' := hwt
  have hwts' := hwts
  simp only [Wt, wtBranches_iff, forall_mem_map] at hwt' hwts'
  refine ⟨?_, hty, ?_, fun htr => ?_, fun I heps => ?_⟩
  · simp only [Wt, wtBranches_iff, forall_mem_map]
    refine ⟨by simpa using hwt'.1, ht.wt, fun b hb => ?_⟩
    obtain ⟨hpty, hok', hlin, _, _⟩ := hwts'.2.2 b hb
    have hscr : (t.subst n m).tTy = t.tTy :=
      tTy_subst (hok.mono (fun v hv => by simp [freeVars, hv]))
    refine ⟨?_, hok', hlin, ?_, (h b hb).wt⟩
    · rw [ht.ty, ← hscr]
      exact hpty
    · rw [hty, (h b hb).ty, (hwt'.2.2 b hb).2.2.2.1]
  · refine from_of_scopes (n := n) (fun _ _ heq => by cases heq) ?_
    simp only [scopes, map_map, forall_mem_cons, forall_mem_map]
    refine ⟨⟨_, mem_cons_self, fun _ hu => absurd hu not_mem_nil, ht.vars⟩,
      fun b hb => ⟨_, mem_cons_of_mem _ (mem_map_of_mem hb), ?_, (h b hb).vars⟩⟩
    intro u hu
    have hmem : u ∈ b.1.patVars := hu
    show (m.bind n b.1.patVars).var u ∈ (patternAt n m b.1).patVars
    rw [patternAt, Pattern.patVars_rename]
    exact mem_map_of_mem hmem
  · refine .of_parts (fun _ _ _ _ heq => by cases heq) ?_
    simp only [Term.parts, children, forall_mem_cons, map_map, forall_mem_map]
    exact ⟨ht.clean htr, fun b hb => (h b hb).clean htr⟩
  · rw [subst, substBranches_eq]
    exact equiv_tcase_map (ht.equiv I heps) (fun b hb => (h b hb).equiv I heps) hwts

theorem elim_teps (hok : m.Ok sig n (teps a v f).freeVars) (hwt : (teps a v f).Wt sig)
    (hf : Elim sig tr (n + 1) (m.bind n [v]) f f') :
    Elim sig tr n m (.teps a v f) (.teps a ⟨n, v.vsTy⟩ f') where
  wt := ⟨hf.ty.trans hwt.1, hf.wt⟩
  ty := rfl
  vars := by
    refine from_of_scopes (n := n) (fun _ _ heq => by cases heq) ?_
    simp only [scopes, forall_mem_cons, exists_mem_cons_iff]
    refine ⟨.inl ⟨⟨?_, fun _ h => absurd h not_mem_nil⟩, hf.vars⟩,
      fun _ h => absurd h not_mem_nil⟩
    exact Mvs.var_mem_freshen (mem_singleton_self v)
  clean h := by
    refine .of_parts (fun _ _ _ _ heq => by cases heq) ?_
    simp only [Term.parts, children, forall_mem_cons]
    exact ⟨hf.clean h, fun _ h => absurd h not_mem_nil⟩
  equiv I heps := equiv_teps heps (hf.equiv I heps) (wt_subst hok hwt)

/-- The triggers keep their types; what they mean plays no part. -/
theorem elim_tquant {g : Term → Term} {q : Quant} {vl : List VSymbol} {trl : List (List Term)}
    (hok : m.Ok sig n (tquant a q vl trl f).freeVars) (hwt : (tquant a q vl trl f).Wt sig)
    (hg : ∀ tr ∈ trl, ∀ t ∈ tr, (g t).Wt sig ∧ From (m.bind n vl) t (g t))
    (hf : Elim sig tr (n + vl.length) (m.bind n vl) f f') : Elim sig tr n m (.tquant a q vl trl f)
      (.tquant a q (freshen n vl) (trl.map (List.map g)) f') := by
  have htrig : ∀ tr ∈ trl.map (List.map g), ∀ t ∈ tr, t.Wt sig := by
    intro tr' htr' u hu
    obtain ⟨tr, htr, rfl⟩ := mem_map.mp htr'
    obtain ⟨t, ht, rfl⟩ := mem_map.mp hu
    exact (hg tr htr t ht).1
  refine ⟨⟨hf.ty.trans hwt.1, (wtTriggers_iff sig _).mpr htrig, hf.wt⟩, rfl, ?_, fun htr => ?_,
    fun I heps => equiv_tquant (hf.equiv I heps) htrig (wt_subst hok hwt)⟩
  · refine from_of_scopes (n := n) (fun _ _ heq => by cases heq) ?_
    simp only [scopes, forall_mem_cons, forall_mem_map, mem_flatten]
    refine ⟨⟨_, mem_cons_self, fun u hu => Mvs.var_mem_freshen hu, hf.vars⟩, ?_⟩
    rintro u ⟨tr', htr', hu⟩
    obtain ⟨tr, htr, rfl⟩ := mem_map.mp htr'
    obtain ⟨t, ht, rfl⟩ := mem_map.mp hu
    have hmem : (vl, t) ∈ trl.flatten.map (vl, ·) :=
      mem_map_of_mem (mem_flatten.mpr ⟨tr, htr, ht⟩)
    exact ⟨_, mem_cons_of_mem _ hmem, fun u hu => Mvs.var_mem_freshen hu, (hg tr htr t ht).2⟩
  · refine .of_parts (fun _ _ _ _ heq => by cases heq) ?_
    simp only [Term.parts, forall_mem_cons]
    exact ⟨hf.clean htr, fun _ h => absurd h not_mem_nil⟩

theorem elim_tbinop {op : Binop} {g g' : Term} (hok : m.Ok sig n (tbinop a op f g).freeVars)
    (hwt : (tbinop a op f g).Wt sig) (hf : Elim sig tr n m f f') (hg : Elim sig tr n m g g') :
    Elim sig tr n m (.tbinop a op f g) (.tbinop a op f' g') where
  wt := ⟨hf.ty.trans hwt.1, hg.ty.trans hwt.2.1, hf.wt, hg.wt⟩
  ty := rfl
  vars := by
    refine from_of_scopes (n := n) (fun _ _ heq => by cases heq) ?_
    simp only [scopes, forall_mem_cons, exists_mem_cons_iff]
    refine ⟨.inl ⟨?_, hf.vars⟩, .inr (.inl ⟨?_, hg.vars⟩), ?_⟩ <;>
      exact fun _ h => absurd h not_mem_nil
  clean h := by
    refine .of_parts (fun _ _ _ _ heq => by cases heq) ?_
    simp only [Term.parts, children, forall_mem_cons]
    exact ⟨hf.clean h, hg.clean h, fun _ h => absurd h not_mem_nil⟩
  equiv I heps := equiv_tbinop (hf.equiv I heps) (hg.equiv I heps) (wt_subst hok hwt)

theorem elim_tnot (hok : m.Ok sig n (tnot a f).freeVars) (hwt : (tnot a f).Wt sig)
    (hf : Elim sig tr n m f f') : Elim sig tr n m (.tnot a f) (.tnot a f') where
  wt := ⟨hf.ty.trans hwt.1, hf.wt⟩
  ty := rfl
  vars := by
    refine from_of_scopes (n := n) (fun _ _ heq => by cases heq) ?_
    simp only [scopes, forall_mem_cons, exists_mem_cons_iff]
    exact ⟨.inl ⟨fun _ h => absurd h not_mem_nil, hf.vars⟩,
      fun _ h => absurd h not_mem_nil⟩
  clean h := by
    refine .of_parts (fun _ _ _ _ heq => by cases heq) ?_
    simp only [Term.parts, children, forall_mem_cons]
    exact ⟨hf.clean h, fun _ h => absurd h not_mem_nil⟩
  equiv I heps := equiv_tnot (hf.equiv I heps) (wt_subst hok hwt)

end EliminateIf

end Why3

/-!
# Continuations

What is asked of the continuations of `elim_t`, and what the formulas are that it returns.
A continuation may be called below binders that `elim_t` puts around: they bind variables
from the tag on, so the valuation there is the one outside on all variables below the tag.
-/

namespace Why3

variable {n : ℕ}

theorem Mvs.Ok.le {sig : TySymbol → List LSymbol} {n' : ℕ} {m : Mvs} {F : List VSymbol}
    (h : m.Ok sig n F) (hn : n ≤ n') : m.Ok sig n' F :=
  fun v hv => ⟨(h v hv).1, (h v hv).2.1, fun w hw => ((h v hv).2.2 w hw).trans_le hn⟩

variable {o : Option Ty}

namespace EliminateIf

open Term

variable {sig : TySymbol → List LSymbol}

/-- A term that may be given to a continuation. -/
structure Arg (sig : TySymbol → List LSymbol) (n : ℕ) (o : Option Ty) (t : Term) : Prop where
  wt : t.Wt sig
  ty : t.tTy = o
  clean : t.NoTermIf
  lt : ∀ v ∈ t.freeVars, v.vsName < n

/-- A formula without conditionals of a value type, over the variables of `V`. -/
structure Fmla (sig : TySymbol → List LSymbol) (V : VSymbol → Prop) (f : Term) : Prop where
  wt : f.Wt sig
  ty : f.tTy = none
  clean : f.NoTermIf
  vars : ∀ v ∈ f.freeVars, V v

theorem Arg.le {n' : ℕ} {t : Term} (h : Arg sig n o t) (hn : n ≤ n') :
    Arg sig n' o t :=
  { h with lt := fun v hv => (h.lt v hv).trans_le hn }

theorem Fmla.mono {V V' : VSymbol → Prop} {f : Term} (h : Fmla sig V f) (hV : ∀ v, V v → V' v) :
    Fmla sig V' f :=
  { h with vars := fun v hv => hV v (h.vars v hv) }

/-- The variables that the map gives to those of a term. -/
def Image (m : Mvs) (t : Term) (v : VSymbol) : Prop := ∃ u ∈ t.freeVars, v ∈ (m.get u).freeVars

/-- A continuation that returns formulas, over `V` and the variables of its argument. -/
def ContOk (sig : TySymbol → List LSymbol) (n : ℕ) (o : Option Ty) (V : VSymbol → Prop)
    (cont : ℕ → Term → Term) : Prop :=
  ∀ {n' t}, n ≤ n' → Arg sig n' o t → Fmla sig (fun v => V v ∨ v ∈ t.freeVars) (cont n' t)

/-- The same, of a continuation on lists. -/
def ContListOk (sig : TySymbol → List LSymbol) (n : ℕ) (os : List (Option Ty))
    (V : VSymbol → Prop) (cont : ℕ → List Term → Term) : Prop :=
  ∀ {n' tl}, n ≤ n' → List.Forall₂ (Arg sig n') os tl →
    Fmla sig (fun v => V v ∨ ∃ t ∈ tl, v ∈ t.freeVars) (cont n' tl)

theorem ContOk.le {n' : ℕ} {V : VSymbol → Prop} {cont : ℕ → Term → Term}
    (h : ContOk sig n o V cont) (hn : n ≤ n') : ContOk sig n' o V cont :=
  fun hle harg => h (hn.trans hle) harg

section Meaning

variable {I : Interp sig}

/-- Two valuations with the same values below the tag. -/
def Below (n : ℕ) (ρ ρ' : I.Env) : Prop := ∀ w : VSymbol, w.vsName < n → ρ w = ρ' w

theorem Below.refl (n : ℕ) (ρ : I.Env) : Below n ρ ρ := fun _ _ => rfl

theorem Below.trans {n' : ℕ} {ρ ρ' ρ'' : I.Env} (h : Below n ρ ρ') (h' : Below n' ρ' ρ'')
    (hn : n ≤ n') : Below n ρ ρ'' :=
  fun w hw => (h w hw).trans (h' w (hw.trans_le hn))

theorem Below.update (n : ℕ) (ρ : I.Env) (ty : Ty) (d : I.Val) :
    Below n ρ (Function.update ρ ⟨n, ty⟩ d) :=
  fun _ hw => Interp.update_of_lt hw

/-- The formula that a continuation returns says `K` of the value of its argument. -/
def ContMeans (n : ℕ) (o : Option Ty) (ρ : I.Env) (K : I.Val → Prop) (cont : ℕ → Term → Term) :
    Prop :=
  ∀ {n' t}, n ≤ n' → Arg sig n' o t → ∀ {ρ' : I.Env}, I.Typed ρ' → Below n ρ ρ' →
    (I.Holds ρ' (cont n' t) ↔ K (I.eval ρ' t))

def ContListMeans (n : ℕ) (os : List (Option Ty)) (ρ : I.Env) (K : List I.Val → Prop)
    (cont : ℕ → List Term → Term) : Prop :=
  ∀ {n' tl}, n ≤ n' → List.Forall₂ (Arg sig n') os tl → ∀ {ρ' : I.Env}, I.Typed ρ' →
    Below n ρ ρ' → (I.Holds ρ' (cont n' tl) ↔ K (tl.map (I.eval ρ')))

theorem ContMeans.le {n' : ℕ} {ρ ρ' : I.Env} {K : I.Val → Prop}
    {cont : ℕ → Term → Term} (h : ContMeans n o ρ K cont) (hn : n ≤ n') (hρ : Below n ρ ρ') :
    ContMeans n' o ρ' K cont :=
  fun hle harg _ hty hbelow => h (hn.trans hle) harg hty (hρ.trans hbelow hn)

theorem agree_of_below {m : Mvs} {F : List VSymbol} {ρ ρ' ρ₀ : I.Env}
    (h : Interp.Agree m F ρ ρ₀) (hok : m.Ok sig n F) (hρ : Below n ρ ρ') :
    Interp.Agree m F ρ' ρ₀ :=
  fun v hv => (h v hv).trans (Interp.eval_get_of_fresh hok hv hρ)

theorem Arg.eval_below {t : Term} (h : Arg sig n o t) {ρ ρ' : I.Env}
    (hρ : Below n ρ ρ') : I.eval ρ t = I.eval ρ' t :=
  Interp.eval_congr h.wt (fun v hv => hρ v (h.lt v hv))

end Meaning

/-! ## Replacements, under valuations -/

section Sem

variable {I : Interp sig} {tr : Bool} {n : ℕ} {m : Mvs} {t t' : Term} {ρ ρ₀ : I.Env}

theorem Elim.eval (h : Elim sig tr n m t t') (heps : I.EpsExt) (hwt : t.Wt sig)
    (hok : m.Ok sig n t.freeVars) (hty : t.tTy ≠ none) (hρ : I.Typed ρ)
    (hag : Interp.Agree m t.freeVars ρ ρ₀) : I.eval ρ t' = I.eval ρ₀ t := by
  have hsub := (I.sem_subst hwt hok hag).1
  exact ((h.equiv I heps).val hρ (by rwa [tTy_subst hok])).trans hsub

theorem Elim.holds (h : Elim sig tr n m t t') (heps : I.EpsExt) (hwt : t.Wt sig)
    (hok : m.Ok sig n t.freeVars) (hty : t.tTy = none) (hρ : I.Typed ρ)
    (hag : Interp.Agree m t.freeVars ρ ρ₀) : I.Holds ρ t' ↔ I.Holds ρ₀ t := by
  have hsub := (I.sem_subst hwt hok hag).2 hty
  exact ((h.equiv I heps).tr hρ (by rwa [tTy_subst hok])).trans hsub

/-- What the renamed term means, when the values of its variables are read from the map. -/
theorem sem_subst_get (hwt : t.Wt sig) (hok : m.Ok sig n t.freeVars) (ρ : I.Env) :
    Interp.Same t.tTy (I.sem (t.subst n m) ρ) (I.sem t (fun v => I.eval ρ (m.get v))) :=
  I.sem_subst hwt hok (fun _ _ => rfl)

theorem typed_get (hm : m.Renames) (hρ : I.Typed ρ) :
    I.Typed (fun v => I.eval ρ (m.get v)) := by
  intro v
  have hget := (hm v).1
  show I.mem v.vsTy (I.eval ρ (m.get v))
  rw [hget, ← (hm v).2]
  exact hρ (m.var v)

end Sem

end EliminateIf

end Why3
