import Why3.Core.TermRebuild
import Why3.Transform.SimplifyFormula

/-!
# How deep quantifiers can get

The nesting of the quantifiers of a formula, when the variables of a quantifier may be
replaced by terms that stand below it and have quantifiers themselves.  The removal of
trivial quantifications goes down in this rank.
-/

namespace Why3

open List Term Mvs

variable {A : ℕ → ℕ} {e : VSymbol → ℕ} {vl : List VSymbol} {w : ℕ} {v : VSymbol} {t : Term}

namespace SimplifyFormula

/-! ## The variables of one quantifier -/

/-- The rank of a body `A` after `n` of its variables were replaced by terms of the body;
`w` is the rank of the variables. -/
def blockRank : ℕ → (ℕ → ℕ) → ℕ → ℕ
  | 0, A, w => A w
  | n + 1, A, w => blockRank n A (max w (blockRank n A w))

theorem blockRank_mono (hA : Monotone A) (n : ℕ) : Monotone (blockRank n A) := by
  induction n with
  | zero => exact hA
  | succ n ih => exact fun v w hvw => ih (max_le_max hvw (ih hvw))

theorem blockRank_le {B : ℕ → ℕ} (hB : Monotone B) (h : ∀ w, A w ≤ B w) (n : ℕ) :
    ∀ w, blockRank n A w ≤ blockRank n B w := by
  induction n with
  | zero => exact h
  | succ n ih =>
    intro w
    exact (ih _).trans (blockRank_mono hB n (max_le_max le_rfl (ih w)))

theorem le_blockRank_succ (hA : Monotone A) (n w : ℕ) : blockRank n A w ≤ blockRank (n + 1) A w :=
  blockRank_mono hA n (le_max_left _ _)

theorem le_blockRank (hA : Monotone A) (n w : ℕ) : A w ≤ blockRank n A w := by
  induction n with
  | zero => exact le_rfl
  | succ n ih => exact ih.trans (le_blockRank_succ hA n w)

/-- The variables of a list get the rank `w`. -/
def setRank (e : VSymbol → ℕ) (vl : List VSymbol) (w : ℕ) (v : VSymbol) : ℕ :=
  if v ∈ vl then w else e v

theorem setRank_mem (h : v ∈ vl) : setRank e vl w v = w :=
  if_pos h

theorem setRank_of_notMem (h : v ∉ vl) : setRank e vl w v = e v :=
  if_neg h

theorem setRank_le {e' : VSymbol → ℕ} {w' : ℕ} (hw : w ≤ w') (h : v ∉ vl → e v ≤ e' v) :
    setRank e vl w v ≤ setRank e' vl w' v := by
  unfold setRank
  split_ifs with hv
  · exact hw
  · exact h hv

/-! ## The rank of a term -/

mutual
/-- The rank, where `e` gives those of the free variables.  Triggers are left out. -/
def rank : Term → (VSymbol → ℕ) → ℕ
  | .tvar _ v, e => e v
  | .tconst _ _ _, _ | .ttrue _, _ | .tfalse _, _ => 0
  | .tapp _ _ tl _, e => rankList tl e
  | .tif _ f t1 t2, e => max (rank f e) (max (rank t1 e) (rank t2 e))
  | .tlet _ t v f, e => max (rank t e) (rank f (setRank e [v] (rank t e)))
  | .tcase _ t bl, e => max (rank t e) (rankBranches bl e)
  | .teps _ v f, e => rank f (setRank e [v] 0)
  | .tquant _ _ vl _ f, e => blockRank vl.length (fun w => rank f (setRank e vl w)) 0 + 1
  | .tbinop _ _ f g, e => max (rank f e) (rank g e)
  | .tnot _ f, e => rank f e
def rankList : List Term → (VSymbol → ℕ) → ℕ
  | [], _ => 0
  | t :: tl, e => max (rank t e) (rankList tl e)
def rankBranches : List (Pattern × Term) → (VSymbol → ℕ) → ℕ
  | [], _ => 0
  | (p, t) :: bl, e => max (rank t (setRank e p.patVars 0)) (rankBranches bl e)
end

attribute [grind =] rank rankList rankBranches

theorem rankList_le_iff {tl : List Term} {n : ℕ} : rankList tl e ≤ n ↔ ∀ t ∈ tl, rank t e ≤ n := by
  induction tl with
  | nil => simp [rankList]
  | cons t tl ih => simp [rankList, ih]

theorem rankBranches_le_iff {bl : List (Pattern × Term)} {n : ℕ} :
    rankBranches bl e ≤ n ↔ ∀ b ∈ bl, rank b.2 (setRank e b.1.patVars 0) ≤ n := by
  induction bl with
  | nil => simp [rankBranches]
  | cons b bl ih => simp [rankBranches, ih]

theorem rank_le_rankList {tl : List Term} (h : t ∈ tl) : rank t e ≤ rankList tl e :=
  rankList_le_iff.mp le_rfl t h

theorem rank_le_rankBranches {bl : List (Pattern × Term)} {b : Pattern × Term} (h : b ∈ bl) :
    rank b.2 (setRank e b.1.patVars 0) ≤ rankBranches bl e :=
  rankBranches_le_iff.mp le_rfl b h

@[simp] theorem rank_setAttrs (a : Sattr) (t : Term) (e : VSymbol → ℕ) :
    rank (t.setAttrs a) e = rank t e := by
  cases t <;> rfl

@[simp] theorem rank_tAttrCopy (s t : Term) (e : VSymbol → ℕ) : rank (tAttrCopy s t) e = rank t e :=
  rank_setAttrs _ t e

/-- The rank is that of the free variables, and grows with it. -/
theorem rank_le : ∀ {e e' : VSymbol → ℕ}, (∀ v ∈ t.freeVars, e v ≤ e' v) →
    rank t e ≤ rank t e' := by
  induction t with
  | tvar a v => exact fun h => h v (mem_singleton_self v)
  | tapp a s tl ty ih =>
    intro e e' h
    refine rankList_le_iff.mpr (fun t ht => ?_)
    exact (ih t ht (fun v hv => h v (mem_freeVars_tapp ht hv))).trans (rank_le_rankList ht)
  | tif a f t1 t2 ihf ih1 ih2 =>
    intro e e' h
    have hf : rank f e ≤ rank f e' := ihf (fun v hv => h v (by simp [freeVars, hv]))
    have h1 : rank t1 e ≤ rank t1 e' := ih1 (fun v hv => h v (by simp [freeVars, hv]))
    have h2 : rank t2 e ≤ rank t2 e' := ih2 (fun v hv => h v (by simp [freeVars, hv]))
    exact max_le_max hf (max_le_max h1 h2)
  | tlet a t v f iht ihf =>
    intro e e' h
    have ht : rank t e ≤ rank t e' := iht (fun v hv => h v (by simp [freeVars, hv]))
    refine max_le_max ht (ihf (fun w hw => setRank_le ht (fun hne => ?_)))
    exact h w (mem_freeVars_tlet hw hne)
  | tcase a t bl iht ihb =>
    intro e e' h
    have ht : rank t e ≤ rank t e' := iht (fun v hv => h v (by simp [freeVars, hv]))
    refine max_le_max ht (rankBranches_le_iff.mpr (fun b hb => ?_))
    refine (ihb b hb (fun w hw => ?_)).trans (rank_le_rankBranches hb)
    exact setRank_le le_rfl (fun hne => h w (mem_freeVars_tcase hb hw hne))
  | teps a v f ih =>
    intro e e' h
    refine ih (fun w hw => setRank_le le_rfl (fun hne => ?_))
    exact h w (mem_freeVars_teps hw hne)
  | tquant a q vl trl f _ ih =>
    intro e e' h
    have hbody : ∀ {w w'}, w ≤ w' → rank f (setRank e vl w) ≤ rank f (setRank e' vl w') :=
      fun hw => ih (fun v hv => setRank_le hw (fun hne => h v (mem_freeVars_tquant hv hne)))
    have hmono : Monotone (fun w => rank f (setRank e' vl w)) :=
      fun w w' hw => ih (fun v _ => setRank_le hw (fun _ => le_rfl))
    exact Nat.succ_le_succ (blockRank_le hmono (fun w => hbody le_rfl) _ 0)
  | tbinop a op f g ihf ihg =>
    intro e e' h
    have hf : rank f e ≤ rank f e' := ihf (fun v hv => h v (by simp [freeVars, hv]))
    have hg : rank g e ≤ rank g e' := ihg (fun v hv => h v (by simp [freeVars, hv]))
    exact max_le_max hf hg
  | tnot a f ih => exact fun h => ih h
  | _ => exact fun _ => le_rfl

theorem rank_setRank_mono (f : Term) (e : VSymbol → ℕ) (vl : List VSymbol) :
    Monotone (fun w => rank f (setRank e vl w)) :=
  fun _ _ hw => rank_le (fun _ _ => setRank_le hw (fun _ => le_rfl))

/-- Variables that do not occur play no part. -/
theorem rank_setRank_eq (h : ∀ v ∈ t.freeVars, v ∉ vl) : rank t (setRank e vl w) = rank t e :=
  le_antisymm (rank_le (fun v hv => (setRank_of_notMem (h v hv)).le))
    (rank_le (fun v hv => (setRank_of_notMem (h v hv)).ge))

/-- Below a quantifier. -/
theorem rank_lt_tquant {a : Sattr} {q : Quant} {trl : List (List Term)} {f : Term} :
    rank f (setRank e vl 0) < rank (.tquant a q vl trl f) e :=
  Nat.lt_succ_of_le (le_blockRank (rank_setRank_mono f e vl) _ 0)

/-! ## Substitutions -/

/-- What a substitution puts in the place of the variables has no greater rank than they. -/
structure RankAgree (k : ℕ) (m : Mvs) (F : List VSymbol) (e e₀ : VSymbol → ℕ) : Prop where
  below : ∀ v ∈ F, ∀ w ∈ (m.get v).freeVars, w.vsName < k
  le : ∀ v ∈ F, rank (m.get v) e ≤ e₀ v

theorem RankAgree.mono {k : ℕ} {m : Mvs} {F G : List VSymbol} {e₀ : VSymbol → ℕ}
    (h : RankAgree k m F e e₀) (hF : ∀ v ∈ G, v ∈ F) : RankAgree k m G e e₀ :=
  ⟨fun v hv => h.below v (hF v hv), fun v hv => h.le v (hF v hv)⟩

/-- Under a binder: `L` has the fresh variables. -/
theorem RankAgree.bind {k : ℕ} {m : Mvs} {F G vl L : List VSymbol} {e e₀ : VSymbol → ℕ}
    {w w₀ : ℕ} (h : RankAgree k m F e e₀) (hF : ∀ v ∈ G, v ∉ vl → v ∈ F)
    (hL : ∀ v ∈ vl, (m.bind k vl).var v ∈ L) (hk : ∀ v ∈ L, k ≤ v.vsName) (hw : w ≤ w₀) :
    RankAgree (k + vl.length) (m.bind k vl) G (setRank e L w) (setRank e₀ vl w₀) := by
  refine ⟨fun v hv u hu => ?_, fun v hv => ?_⟩
  · by_cases hvl : v ∈ vl
    · obtain ⟨hget, _, hlt⟩ := get_bind (m := m) hvl (k := k)
      rw [hget, freeVars, mem_singleton] at hu
      exact hu ▸ hlt
    · rw [get_bind_of_not_mem hvl] at hu
      have := h.below v (hF v hv hvl) u hu
      omega
  · by_cases hvl : v ∈ vl
    · rw [(get_bind hvl).1, setRank_mem hvl]
      exact (setRank_mem (hL v hvl)).le.trans hw
    · rw [get_bind_of_not_mem hvl, setRank_of_notMem hvl, rank_setRank_eq]
      · exact h.le v (hF v hv hvl)
      · intro u hu hmem
        exact absurd (h.below v (hF v hv hvl) u hu) (not_lt.mpr (hk u hmem))

theorem le_vsName_freshen : ∀ {k : ℕ}, ∀ v ∈ freshen k vl, k ≤ v.vsName := by
  induction vl with
  | nil => exact fun v hv => absurd hv not_mem_nil
  | cons u vl ih =>
    intro k v hv
    rcases mem_cons.mp hv with rfl | hv
    · exact le_rfl
    · exact (Nat.le_succ k).trans (ih v hv)

theorem rank_subst_le : ∀ {k : ℕ} {m : Mvs} {e e₀ : VSymbol → ℕ},
    RankAgree k m t.freeVars e e₀ → rank (t.subst k m) e ≤ rank t e₀ := by
  induction t with
  | tvar a v =>
    intro k m e e₀ h
    obtain ⟨a', heq⟩ := subst_tvar k m a v
    rw [heq, rank_setAttrs]
    exact h.le v (mem_singleton_self v)
  | tapp a s tl ty ih =>
    intro k m e e₀ h
    simp only [Term.subst, Term.substList_eq, rank, rankList_le_iff, forall_mem_map]
    intro t ht
    exact (ih t ht (h.mono (fun v hv => mem_freeVars_tapp ht hv))).trans
      (rank_le_rankList ht)
  | tif a f t1 t2 ihf ih1 ih2 =>
    intro k m e e₀ h
    have hf := ihf (h.mono (G := f.freeVars) (fun v hv => by simp [freeVars, hv]))
    have h1 := ih1 (h.mono (G := t1.freeVars) (fun v hv => by simp [freeVars, hv]))
    have h2 := ih2 (h.mono (G := t2.freeVars) (fun v hv => by simp [freeVars, hv]))
    exact max_le_max hf (max_le_max h1 h2)
  | tlet a t v f iht ihf =>
    intro k m e e₀ h
    have ht := iht (h.mono (G := t.freeVars) (fun v hv => by simp [freeVars, hv]))
    refine max_le_max ht (ihf (h.bind (fun w => mem_freeVars_tlet) ?_ ?_ ht))
    · exact fun w hw => var_mem_freshen hw
    · exact fun w hw => le_vsName_freshen w (show w ∈ freshen _ [v] from hw)
  | tcase a t bl iht ihb =>
    intro k m e e₀ h
    have ht := iht (h.mono (G := t.freeVars) (fun v hv => by simp [freeVars, hv]))
    simp only [Term.subst, substBranches_eq, rank]
    refine max_le_max ht (rankBranches_le_iff.mpr (forall_mem_map.mpr (fun b hb => ?_)))
    refine (ihb b hb (h.bind (fun w => mem_freeVars_tcase hb) ?_ ?_ le_rfl)).trans
      (rank_le_rankBranches hb)
    · intro w hw
      rw [Pattern.patVars_rename]
      exact mem_map_of_mem hw
    · intro w hw
      rw [Pattern.patVars_rename] at hw
      obtain ⟨u, hu, rfl⟩ := mem_map.mp hw
      exact (get_bind hu).2.1
  | teps a v f ih =>
    intro k m e e₀ h
    refine ih (h.bind (fun w => mem_freeVars_teps (a := a)) ?_ ?_ le_rfl)
    · exact fun w hw => var_mem_freshen hw
    · exact fun w hw => le_vsName_freshen w (show w ∈ freshen _ [v] from hw)
  | tquant a q vl trl f _ ih =>
    intro k m e e₀ h
    simp only [Term.subst, rank, length_freshen]
    refine Nat.succ_le_succ (blockRank_le (rank_setRank_mono f e₀ vl) (fun w => ?_) _ 0)
    exact ih (h.bind (fun w => mem_freeVars_tquant) (fun w => var_mem_freshen)
      le_vsName_freshen le_rfl)
  | tbinop a op f g ihf ihg =>
    intro k m e e₀ h
    have hf := ihf (h.mono (G := f.freeVars) (fun v hv => by simp [freeVars, hv]))
    have hg := ihg (h.mono (G := g.freeVars) (fun v hv => by simp [freeVars, hv]))
    exact max_le_max hf hg
  | tnot a f ih => exact fun h => ih h
  | _ => exact fun _ => le_rfl

/-- One variable is replaced. -/
theorem rank_tSubstSingle_le {vs : VSymbol} {f : Term} (e : VSymbol → ℕ) :
    rank (tSubstSingle vs t f) e ≤ rank f (setRank e [vs] (rank t e)) := by
  refine rank_subst_le ⟨fun v hv w hw => ?_, fun v hv => ?_⟩
  · by_cases hvs : v = vs
    · rw [hvs, get_cons_self] at hw
      exact lt_freshTag (mem_append_left _ hw)
    · rw [get_cons_of_ne hvs] at hw
      obtain rfl := mem_singleton.mp hw
      exact lt_freshTag (mem_append_right _ hv)
  · by_cases hvs : v = vs
    · rw [hvs, get_cons_self, setRank_mem (mem_singleton_self vs)]
    · rw [get_cons_of_ne hvs, setRank_of_notMem (by simpa using hvs)]
      exact le_rfl

end SimplifyFormula

end Why3
