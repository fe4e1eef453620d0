import Mathlib

/-!
# Walks through a forest

A forest given by the lists of children, with a rank that grows downwards.  A walk
handles the children of a node before the node; the nodes handled so far are whole
subtrees, and the subtrees of two children have no node in common.
-/

namespace Trees

open Relation List ReflTransGen

variable {N : Type} {kids : N → List N} {rank : N → ℕ}

structure IsForest (kids : N → List N) (rank : N → ℕ) : Prop where
  unique : ∀ {p q x}, x ∈ kids p → x ∈ kids q → p = q
  nodup : ∀ p, (kids p).Nodup
  rank_lt : ∀ {p x}, x ∈ kids p → rank p < rank x

/-- The node and the nodes below it. -/
def subtree (kids : N → List N) (p : N) : Set N := {x | ReflTransGen (fun a b => b ∈ kids a) p x}

theorem mem_subtree_self (p : N) : p ∈ subtree kids p := refl

theorem subtree_of_mem {p k : N} (h : k ∈ kids p) : subtree kids k ⊆ subtree kids p :=
  fun _ hx => head h hx

theorem mem_subtree_of_kid {p x y : N} (hx : x ∈ subtree kids p) (hy : y ∈ kids x) :
    y ∈ subtree kids p :=
  tail hx hy

theorem subtree_trans {p q : N} (h : q ∈ subtree kids p) : subtree kids q ⊆ subtree kids p :=
  fun _ hx => ReflTransGen.trans h hx

theorem subtree_mono {kids' : N → List N} (h : ∀ {x k}, k ∈ kids' x → k ∈ kids x) {p : N} :
    subtree kids' p ⊆ subtree kids p := by
  intro x hx
  induction hx with
  | refl => exact mem_subtree_self p
  | tail _ hk ih => exact mem_subtree_of_kid ih (h hk)

theorem subtree_eq (p : N) : subtree kids p = insert p (⋃ k ∈ kids p, subtree kids k) := by
  ext x
  simp only [Set.mem_insert_iff, Set.mem_iUnion, exists_prop]
  constructor
  · intro hx
    rcases cases_head hx with rfl | ⟨k, hk, hkx⟩
    · exact .inl rfl
    · exact .inr ⟨k, hk, hkx⟩
  · rintro (rfl | ⟨k, hk, hkx⟩)
    · exact mem_subtree_self x
    · exact subtree_of_mem hk hkx

namespace IsForest

variable (h : IsForest kids rank)

include h

theorem rank_le {p x : N} (hx : x ∈ subtree kids p) : rank p ≤ rank x := by
  induction hx with
  | refl => exact le_rfl
  | tail _ hy ih => exact ih.trans (h.rank_lt hy).le

/-- A node is not below its children. -/
theorem not_mem_subtree {p k : N} (hk : k ∈ kids p) : p ∉ subtree kids k := fun hp => by
  have h₁ := h.rank_lt hk
  have h₂ := h.rank_le hp
  omega

/-- Two nodes above a third one are one above the other. -/
theorem total {p q x : N} (hp : x ∈ subtree kids p) (hq : x ∈ subtree kids q) :
    q ∈ subtree kids p ∨ p ∈ subtree kids q := by
  have hunique : Relator.RightUnique (Function.swap fun a b => b ∈ kids a) :=
    fun _ _ _ h₁ h₂ => h.unique h₁ h₂
  have hp' := reflTransGen_swap.mpr hp
  have hq' := reflTransGen_swap.mpr hq
  rcases total_of_right_unique hunique hp' hq' with h₁ | h₁
  · exact .inr (reflTransGen_swap.mp h₁)
  · exact .inl (reflTransGen_swap.mp h₁)

theorem disjoint_kids {p k k' : N} (hk : k ∈ kids p) (hk' : k' ∈ kids p) (hne : k ≠ k') :
    Disjoint (subtree kids k) (subtree kids k') := by
  -- a child below another child would have its parent there too
  have hnot : ∀ {k k' : N}, k ∈ kids p → k' ∈ kids p → k ≠ k' → k' ∉ subtree kids k := by
    intro k k' hk hk' hne hmem
    rcases cases_tail hmem with heq | ⟨q, hq, hqk⟩
    · exact hne heq.symm
    · rw [h.unique hqk hk'] at hq
      exact h.not_mem_subtree hk hq
  rw [Set.disjoint_left]
  intro x hx hx'
  rcases h.total hx hx' with hmem | hmem
  · exact hnot hk hk' hne hmem
  · exact hnot hk' hk hne.symm hmem

theorem pairwise_kids (p : N) :
    (kids p).Pairwise fun k k' => Disjoint (subtree kids k) (subtree kids k') :=
  (h.nodup p).imp_of_mem fun hk hk' hne => h.disjoint_kids hk hk' hne

end IsForest

/-! ## Walks -/

/-- The nodes of the set come with everything below them. -/
def Closed (kids : N → List N) (V : Set N) : Prop := ∀ x ∈ V, ∀ y ∈ kids x, y ∈ V

theorem Closed.subtree_subset {V : Set N} (h : Closed kids V) {x : N} (hx : x ∈ V) :
    subtree kids x ⊆ V := by
  intro y hy
  induction hy with
  | refl => exact hx
  | tail _ hz ih => exact h _ ih _ hz

variable {σ : Type} {F : σ → N → Option σ} {I : Set N → σ → Prop}

/-- A walk through trees without common nodes. -/
theorem foldlM_subtrees {ks : List N}
    (hks : ks.Pairwise fun k k' => Disjoint (subtree kids k) (subtree kids k'))
    (hF : ∀ k ∈ ks, ∀ V acc, I V acc → Disjoint (subtree kids k) V →
      ∃ acc', F acc k = some acc' ∧ I (V ∪ subtree kids k) acc') {V : Set N} {acc : σ}
    (hI : I V acc) (hV : ∀ k ∈ ks, Disjoint (subtree kids k) V) :
    ∃ acc', ks.foldlM F acc = some acc' ∧ I (V ∪ ⋃ k ∈ ks, subtree kids k) acc' := by
  induction ks generalizing V acc with
  | nil =>
    refine ⟨acc, rfl, ?_⟩
    simpa using hI
  | cons k ks ih =>
    rw [pairwise_cons] at hks
    obtain ⟨acc₁, h₁, hI₁⟩ := hF k mem_cons_self V acc hI (hV k mem_cons_self)
    have hV₁ : ∀ k' ∈ ks, Disjoint (subtree kids k') (V ∪ subtree kids k) := by
      intro k' hk'
      rw [Set.disjoint_union_right]
      exact ⟨hV k' (mem_cons_of_mem _ hk'), (hks.1 k' hk').symm⟩
    obtain ⟨acc', h', hI'⟩ :=
      ih hks.2 (fun k' hk' => hF k' (mem_cons_of_mem _ hk')) hI₁ hV₁
    refine ⟨acc', ?_, ?_⟩
    · rw [foldlM_cons, h₁]
      exact h'
    · have hunion : V ∪ ⋃ k' ∈ k :: ks, subtree kids k'
          = V ∪ subtree kids k ∪ ⋃ k' ∈ ks, subtree kids k' := by
        rw [Set.union_assoc]
        congr 1
        simp [Set.iUnion_or, Set.iUnion_union_distrib]
      rw [hunion]
      exact hI'

theorem foldlM_node (h : IsForest kids rank) {f : σ → N → Option σ} {p : N}
    (hF : ∀ k ∈ kids p, ∀ V acc, I V acc → Disjoint (subtree kids k) V →
      ∃ acc', F acc k = some acc' ∧ I (V ∪ subtree kids k) acc')
    (hf : ∀ V acc, I V acc → p ∉ V → (∀ k ∈ kids p, k ∈ V) →
      ∃ acc', f acc p = some acc' ∧ I (insert p V) acc') {V : Set N} {acc : σ}
    (hI : I V acc) (hV : Disjoint (subtree kids p) V) :
    ∃ acc₁ acc', (kids p).foldlM F acc = some acc₁ ∧ f acc₁ p = some acc' ∧
      I (V ∪ subtree kids p) acc' := by
  obtain ⟨acc₁, h₁, hI₁⟩ := foldlM_subtrees (h.pairwise_kids p) hF hI fun k hk =>
    hV.mono_left (subtree_of_mem hk)
  have hp : p ∉ V ∪ ⋃ k ∈ kids p, subtree kids k := by
    rintro (hp | hp)
    · exact Set.disjoint_left.mp hV (mem_subtree_self p) hp
    · obtain ⟨k, hk, hpk⟩ := Set.mem_iUnion₂.mp hp
      exact h.not_mem_subtree hk hpk
  have hkids : ∀ k ∈ kids p, k ∈ V ∪ ⋃ k ∈ kids p, subtree kids k := fun k hk =>
    .inr (Set.mem_iUnion₂.mpr ⟨k, hk, mem_subtree_self k⟩)
  obtain ⟨acc', h', hI'⟩ := hf _ acc₁ hI₁ hp hkids
  refine ⟨acc₁, acc', h₁, h', ?_⟩
  rw [subtree_eq, Set.union_insert]
  exact hI'

end Trees
