import Why3.Lib.Trees
import Why3.Session.Status

/-!
# Walks through a session

The nodes of a session are one forest.  A fold over a subtree visits what lies below a
node before the node; it goes on as if nothing had changed when what is folded only takes
away nodes it has visited.
-/

namespace Why3.Itp

open Parents Trees List Option Session

variable {Task : Type} {s : Session Task} {par : ℕ → Option ProofParent} {U : Set Any}

namespace Session

variable (s : Session Task)

def kids : Any → List Any
  | .file fid => (s.theoryKids fid).map .th
  | .th r => (s.goalKids (.theory r)).map .pn
  | .tn t => (s.goalKids (.trans t)).map .pn
  | .pn g => (s.transfKids g).map .tn ++ (s.attemptKids g).map .pa
  | .pa _ => []

def above (par : ℕ → Option ProofParent) : Any → Option Any
  | .file _ => none
  | .th r => (s.theoryParent r).map .file
  | .tn t => (s.transfParent t).map .pn
  | .pn g => (par g).map ProofParent.any
  | .pa a => (s.attemptParent a).map .pn

/-- What stands on a goal comes between this goal and the next one. -/
def rank : Any → ℕ
  | .file _ => 0
  | .th _ => 1
  | .pn g => 2 * g + 2
  | .tn t => 2 * (s.transfParent t).getD 0 + 3
  | .pa a => 2 * (s.attemptParent a).getD 0 + 3

end Session

variable {p x : Any}

theorem Forest.above_of_mem (hF : Forest par U s) (hx : x ∈ s.kids p) : s.above par x = some p := by
  cases p with
  | file fid =>
    obtain ⟨r, hr, rfl⟩ := mem_map.1 hx
    rw [above, hF.theories.down hr]
    rfl
  | th r | tn t =>
    obtain ⟨g, hg, rfl⟩ := mem_map.1 hx
    rw [above, hF.goals.down hg]
    rfl
  | pn g =>
    rcases mem_append.1 hx with hx | hx
    · obtain ⟨t, ht, rfl⟩ := mem_map.1 hx
      rw [above, hF.transfs.down ht]
      rfl
    · obtain ⟨a, ha, rfl⟩ := mem_map.1 hx
      rw [above, hF.attempts.down ha]
      rfl
  | pa a => cases hx

theorem Forest.mem_of_above (hF : Forest par ∅ s) (hx : s.above par x = some p) : x ∈ s.kids p := by
  cases x with
  | file fid => cases hx
  | th r =>
    obtain ⟨fid, hr, rfl⟩ := map_eq_some_iff.1 hx
    exact mem_map_of_mem (hF.theories.up hr (Set.notMem_empty _))
  | tn t =>
    obtain ⟨g, ht, rfl⟩ := map_eq_some_iff.1 hx
    exact mem_append_left _ (mem_map_of_mem (hF.transfs.up ht (Set.notMem_empty _)))
  | pn g =>
    obtain ⟨q, hg, rfl⟩ := map_eq_some_iff.1 hx
    have hmem := hF.goals.up hg (Set.notMem_empty _)
    cases q with
    | trans t | theory r => exact mem_map_of_mem hmem
  | pa a =>
    obtain ⟨g, ha, rfl⟩ := map_eq_some_iff.1 hx
    exact mem_append_right _ (mem_map_of_mem (hF.attempts.up ha (Set.notMem_empty _)))

theorem Forest.isForest (hF : Forest par U s) : IsForest s.kids s.rank where
  unique hp hq := some.inj ((hF.above_of_mem hp).symm.trans (hF.above_of_mem hq))
  nodup p := by
    cases p with
    | file fid => exact (hF.theories.nodup fid).map fun _ _ h => Any.th.inj h
    | th r => exact (hF.goals.nodup (.theory r)).map fun _ _ h => Any.pn.inj h
    | tn t => exact (hF.goals.nodup (.trans t)).map fun _ _ h => Any.pn.inj h
    | pn g =>
      refine nodup_append.2 ⟨?_, ?_, ?_⟩
      · exact (hF.transfs.nodup g).map fun _ _ h => Any.tn.inj h
      · exact (hF.attempts.nodup g).map fun _ _ h => Any.pa.inj h
      · intro x hx y hy
        obtain ⟨t, -, rfl⟩ := mem_map.1 hx
        obtain ⟨a, -, rfl⟩ := mem_map.1 hy
        simp
    | pa a => exact nodup_nil
  rank_lt {p x} hx := by
    have habove := hF.above_of_mem hx
    cases x with
    | file fid => cases habove
    | th r =>
      obtain ⟨fid, -, rfl⟩ := map_eq_some_iff.1 habove
      exact Nat.zero_lt_one
    | tn t =>
      obtain ⟨g, ht, rfl⟩ := map_eq_some_iff.1 habove
      rw [rank, rank, ht, getD_some]
      omega
    | pn g =>
      obtain ⟨q, hg, rfl⟩ := map_eq_some_iff.1 habove
      cases q with
      | theory r =>
        show 1 < 2 * g + 2
        omega
      | trans t =>
        obtain ⟨g', hg', heq⟩ := mem_map.1 hx
        obtain ⟨tn, ht, -⟩ := mem_rows.1 hg'
        have hlow := hF.lower ht hg
        show 2 * (s.transfParent t).getD 0 + 3 < 2 * g + 2
        rw [transfParent, ht, map_some, getD_some]
        omega
    | pa a =>
      obtain ⟨g, ha, rfl⟩ := map_eq_some_iff.1 habove
      rw [rank, rank, ha, getD_some]
      omega

theorem Forest.has_of_mem (hF : Forest par U s) (hC : Complete par s) (hx : x ∈ s.kids p) :
    s.Has x := by
  have habove := hF.above_of_mem hx
  have hsome : ∀ {X : Type} {o : Option X} {k : X → ℕ} {i : ℕ}, o.map k = some i →
      o.isSome = true := by
    intro X o k i h
    cases o with
    | none => cases h
    | some _ => rfl
  cases x with
  | file fid => cases habove
  | th r =>
    obtain ⟨fid, hr, -⟩ := map_eq_some_iff.1 habove
    exact hsome hr
  | tn t =>
    obtain ⟨g, ht, -⟩ := map_eq_some_iff.1 habove
    exact hsome ht
  | pn g =>
    obtain ⟨q, hg, -⟩ := map_eq_some_iff.1 habove
    exact hC g (isSome_iff_exists.2 ⟨q, hg⟩)
  | pa a =>
    obtain ⟨g, ha, -⟩ := map_eq_some_iff.1 habove
    exact hsome ha

/-! ## Folds -/

section Fold

variable {σ : Type} {view : σ → Session Task} {f : σ → Any → Option σ} {fuel : ℕ} {acc : σ}

theorem foldAllAny_goal {g : ℕ} (hg : (view acc).Has (.pn g)) :
    foldAllAny view f (fuel + 1) acc (.pn g) =
      (((view acc).kids (.pn g)).foldlM (foldAllAny view f fuel) acc).bind
        fun acc => f acc (.pn g) := by
  obtain ⟨pn, hpn⟩ := isSome_iff_exists.1 hg
  show foldAllAnyOfProofn view f (fuel + 1) acc g = _
  rw [foldAllAnyOfProofn, hpn, kids, transfKids_of_some hpn,
    attemptKids_of_some hpn]
  simp only [foldlM_append, foldlM_map, bind_eq_bind, bind_some,
    bind_assoc]
  rfl

/-- The fuel counts goals only. -/
theorem foldAllAny_node {n : Any} (hn : ∀ g, n ≠ .pn g) (h : (view acc).Has n) :
    foldAllAny view f fuel acc n =
      (((view acc).kids n).foldlM (foldAllAny view f fuel) acc).bind fun acc => f acc n := by
  cases n with
  | pn g => exact absurd rfl (hn g)
  | pa a => rfl
  | tn t =>
    obtain ⟨tn, ht⟩ := isSome_iff_exists.1 h
    show foldAllAnyOfTransn view f fuel acc t = _
    rw [foldAllAnyOfTransn, ht, kids, goalKids, rows_of_some ht,
      foldlM_map]
    rfl
  | th r =>
    obtain ⟨th, hr⟩ := isSome_iff_exists.1 h
    show foldAllAnyOfTheory view f fuel acc r = _
    rw [foldAllAnyOfTheory, hr, kids, goalKids, rows_of_some hr,
      foldlM_map]
    rfl
  | file fid =>
    obtain ⟨file, hf⟩ := isSome_iff_exists.1 h
    show foldAllAnyOfFile view f fuel acc fid = _
    rw [foldAllAnyOfFile, hf, kids, theoryKids, rows_of_some hf,
      foldlM_map]
    rfl

/-- With the nodes of `V` visited, `I V` holds; the nodes that are still to come are as in
`s`. -/
structure Visits (s : Session Task) (view : σ → Session Task) (f : σ → Any → Option σ)
    (I : Set Any → σ → Prop) : Prop where
  rows : ∀ {V acc n}, I V acc → s.Has n → Disjoint (subtree s.kids n) V →
    (view acc).Has n ∧ (view acc).kids n = s.kids n
  visit : ∀ {V acc n}, I V acc → s.Has n → n ∉ V → (∀ k ∈ s.kids n, k ∈ V) →
    ∃ acc', f acc n = some acc' ∧ I (insert n V) acc'

variable {I : Set Any → σ → Prop}

/-- The fold from a node ends, with its subtree visited. -/
def Walked (s : Session Task) (view : σ → Session Task) (f : σ → Any → Option σ)
    (I : Set Any → σ → Prop) (fuel : ℕ) (n : Any) : Prop :=
  ∀ V acc, I V acc → Disjoint (subtree s.kids n) V →
    ∃ acc', foldAllAny view f fuel acc n = some acc' ∧ I (V ∪ subtree s.kids n) acc'

namespace Visits

variable (h : Visits s view f I) (hF : Forest par U s)

include h hF

variable {n : Any}

theorem walked_of_kids {fuel fuel' : ℕ} (hn : s.Has n)
    (hstep : ∀ acc, (view acc).Has n → foldAllAny view f fuel acc n =
      (((view acc).kids n).foldlM (foldAllAny view f fuel') acc).bind fun acc => f acc n)
    (hkids : ∀ k ∈ s.kids n, Walked s view f I fuel' k) : Walked s view f I fuel n := by
  intro V acc hI hV
  obtain ⟨hhas, heq⟩ := h.rows hI hn hV
  obtain ⟨acc₁, acc', h₁, h', hI'⟩ := foldlM_node hF.isForest (fun k hk => hkids k hk)
    (fun V acc hI hp hk => h.visit hI hn hp hk) hI hV
  refine ⟨acc', ?_, hI'⟩
  rw [hstep acc hhas, heq, h₁]
  exact h'

theorem walked_node (hne : ∀ g, n ≠ .pn g) (hn : s.Has n)
    (hkids : ∀ k ∈ s.kids n, Walked s view f I fuel k) : Walked s view f I fuel n :=
  h.walked_of_kids hF hn (fun _ => foldAllAny_node hne) hkids

variable (hC : Complete par s)

include hC

theorem walked_goal {g : ℕ} (hg : s.Has (.pn g)) (hfuel : s.nextProofNodeID ≤ g + fuel) :
    Walked s view f I fuel (.pn g) := by
  induction fuel generalizing g with
  | zero =>
    obtain ⟨pn, hpn⟩ := isSome_iff_exists.1 hg
    have hlt := hF.goal_lt (hF.made hpn)
    omega
  | succ fuel ih =>
    refine h.walked_of_kids hF hg (fun _ => foldAllAny_goal) fun k hk => ?_
    have hlt := hF.isForest.rank_lt hk
    have hhas := hF.has_of_mem hC hk
    rcases mem_append.1 hk with hk | hk
    · obtain ⟨t, -, rfl⟩ := mem_map.1 hk
      refine h.walked_node hF (by simp) hhas fun k hk => ?_
      have hlt' := hF.isForest.rank_lt hk
      have hhas' := hF.has_of_mem hC hk
      obtain ⟨g', -, rfl⟩ := mem_map.1 hk
      refine ih hhas' ?_
      have hrank : s.rank (.pn g) = 2 * g + 2 := rfl
      have hrank' : s.rank (.pn g') = 2 * g' + 2 := rfl
      omega
    · obtain ⟨a, -, rfl⟩ := mem_map.1 hk
      exact h.walked_node hF (by simp) hhas fun _ hk => by cases hk

theorem walked (hn : s.Has n) (hfuel : s.nextProofNodeID ≤ fuel) : Walked s view f I fuel n := by
  have hgoal : ∀ {p k}, k ∈ s.kids p → (∃ g, k = .pn g) → Walked s view f I fuel k := by
    rintro p k hk ⟨g, rfl⟩
    exact h.walked_goal hF hC (hF.has_of_mem hC hk) (by omega)
  have hth : ∀ r, s.Has (.th r) → Walked s view f I fuel (.th r) := by
    intro r hr
    refine h.walked_node hF (by simp) hr fun k hk => hgoal hk ?_
    obtain ⟨g, -, rfl⟩ := mem_map.1 hk
    exact ⟨g, rfl⟩
  cases n with
  | pn g => exact h.walked_goal hF hC hn (by omega)
  | pa a => exact h.walked_node hF (by simp) hn fun _ hk => by cases hk
  | th r => exact hth r hn
  | tn t =>
    refine h.walked_node hF (by simp) hn fun k hk => hgoal hk ?_
    obtain ⟨g, -, rfl⟩ := mem_map.1 hk
    exact ⟨g, rfl⟩
  | file fid =>
    refine h.walked_node hF (by simp) hn fun k hk => ?_
    have hhas := hF.has_of_mem hC hk
    obtain ⟨r, -, rfl⟩ := mem_map.1 hk
    exact hth r hhas

end Visits

end Fold

end Why3.Itp
