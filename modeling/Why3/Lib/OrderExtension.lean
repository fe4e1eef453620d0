import Mathlib.Order.Defs.Unbundled
import Mathlib.Tactic

/-!
# Adding an edge to a strict order

A strict order with one more edge, transitively closed at once: everything at or
below the source of the edge comes below everything at or above its target.
-/

namespace OrderExtension

variable {α : Type} {r : α → α → Prop} {a b : α}

def extend (r : α → α → Prop) (a b s t : α) : Prop :=
  r s t ∨ (s = a ∨ r s a) ∧ (t = b ∨ r b t)

/-- The edge would close a cycle. -/
theorem target_below_source (htrans : ∀ x y z, r x y → r y z → r x z) {s : α}
    (hs : s = a ∨ r s a) (ht : s = b ∨ r b s) : a = b ∨ r b a := by
  rcases hs with rfl | hs
  · exact ht
  · rcases ht with rfl | ht
    · exact .inr hs
    · exact .inr (htrans _ _ _ ht hs)

theorem extend_trans (htrans : ∀ x y z, r x y → r y z → r x z) (hab : a ≠ b) (hba : ¬ r b a)
    {x y z : α} (hxy : extend r a b x y) (hyz : extend r a b y z) : extend r a b x z := by
  rcases hxy with hxy | ⟨hx, hy⟩
  · rcases hyz with hyz | ⟨hy, hz⟩
    · exact .inl (htrans _ _ _ hxy hyz)
    · refine .inr ⟨.inr ?_, hz⟩
      rcases hy with rfl | hy
      · exact hxy
      · exact htrans _ _ _ hxy hy
  · rcases hyz with hyz | ⟨hy', hz⟩
    · refine .inr ⟨hx, .inr ?_⟩
      rcases hy with rfl | hy
      · exact hyz
      · exact htrans _ _ _ hy hyz
    · rcases target_below_source htrans hy' hy with h | h
      · exact absurd h hab
      · exact absurd h hba

theorem extend_irrefl (htrans : ∀ x y z, r x y → r y z → r x z) (hirr : ∀ x, ¬ r x x)
    (hab : a ≠ b) (hba : ¬ r b a) (x : α) : ¬ extend r a b x x := by
  rintro (h | ⟨hs, ht⟩)
  · exact hirr x h
  · rcases target_below_source htrans hs ht with h | h
    · exact hab h
    · exact hba h

end OrderExtension
