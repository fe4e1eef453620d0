import Mathlib.Data.List.Nodup
import Mathlib.Data.Set.Basic
import Mathlib.Tactic

/-!
# Lists of children and their parents

A forest kept in both directions: each parent has the list of its children, and each
child the name of its parent.  The children in a set `U` may be missing from the list
of their parent, which is how a forest looks while it is being built.
-/

namespace Parents

variable {κ ι : Type}

structure Linked (kids : κ → List ι) (par : ι → Option κ) (U : Set ι) : Prop where
  down : ∀ {k i}, i ∈ kids k → par i = some k
  nodup : ∀ k, (kids k).Nodup
  up : ∀ {i k}, par i = some k → i ∉ U → i ∈ kids k

variable {kids : κ → List ι} {par : ι → Option κ} {U U' : Set ι}

namespace Linked

theorem congr {kids' : κ → List ι} {par' : ι → Option κ} (h : Linked kids par U)
    (hk : kids' = kids) (hp : par' = par) : Linked kids' par' U := by
  rwa [hk, hp]

/-- Some children go away, and with them some parents, which have no others. -/
theorem restrict (h : Linked kids par U) {p : ι → Bool} {q : κ → Bool}
    (hpq : ∀ k, q k = false → ∀ i ∈ kids k, p i = false) :
    Linked (fun k => if q k then (kids k).filter p else []) (fun i => if p i then par i else none)
      U where
  down {k i} hi := by
    split_ifs at hi with hk
    · rw [List.mem_filter] at hi
      rw [if_pos hi.2]
      exact h.down hi.1
    · cases hi
  nodup k := by
    split_ifs
    · exact (h.nodup k).filter _
    · exact List.nodup_nil
  up {i k} hp hi := by
    split_ifs at hp with hpi
    have hmem := h.up hp hi
    have hk : q k = true := by
      by_contra hk
      rw [hpq k (Bool.eq_false_of_not_eq_true hk) i hmem] at hpi
      exact Bool.false_ne_true hpi
    rw [if_pos hk, List.mem_filter]
    exact ⟨hmem, hpi⟩

end Linked

/-! ## Rows of a table -/

section Rows

variable {X : Type} (f : X → List ι) (t : κ → Option X)

/-- The children of a row, and none where there is no row. -/
def rows (k : κ) : List ι := ((t k).map f).getD []

variable {f t}

theorem rows_of_some {k : κ} {x : X} (h : t k = some x) : rows f t k = f x := by
  rw [rows, h]
  rfl

theorem mem_rows {k : κ} {i : ι} : i ∈ rows f t k ↔ ∃ x, t k = some x ∧ i ∈ f x := by
  unfold rows
  cases t k <;> simp

end Rows

end Parents
