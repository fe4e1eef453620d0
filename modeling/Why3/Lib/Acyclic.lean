import Mathlib.Data.Fintype.Card
import Mathlib.Logic.Relation
import Mathlib.Order.WellFounded
import Mathlib.Tactic

/-!
# Links without cycles

A finite graph of links without a cycle is well founded, so that equations along its
links have exactly one solution; new links into a node keep it without cycles when the
node is not below their sources.
-/

namespace Links

open Relation

/-- No node is reached from itself. -/
def Acyclic {α : Type} (R : α → α → Prop) : Prop := ∀ a, ¬ TransGen R a a

variable {α β : Type} {R R' : α → α → Prop}

/-- Links between the numbers below a bound. -/
theorem wellFounded_of_acyclic {R : ℕ → ℕ → Prop} {n : ℕ} (hbound : ∀ s r, R s r → s < n ∧ r < n)
    (hR : Acyclic R) : WellFounded R := by
  let T : Fin n → Fin n → Prop := fun a b => TransGen R a b
  have htrans : IsTrans (Fin n) T := ⟨fun a b c hab hbc => TransGen.trans hab hbc⟩
  have hirrefl : Std.Irrefl T := ⟨fun a h => hR a h⟩
  have hwf : WellFounded T := Finite.wellFounded_of_trans_of_irrefl T
  have hbelow : ∀ a : Fin n, Acc R a := by
    intro a
    induction a using hwf.induction with
    | _ a ih =>
      refine Acc.intro _ fun s hs => ?_
      exact ih ⟨s, (hbound s a hs).1⟩ (TransGen.single hs)
  refine ⟨fun r => Acc.intro r fun s hs => ?_⟩
  exact hbelow ⟨s, (hbound s r hs).1⟩

/-- Values given by equations along the links. -/
theorem exists_solution [Nonempty β] (hR : WellFounded R) {F : α → (α → β) → β}
    (hF : ∀ r ρ ρ', (∀ s, R s r → ρ s = ρ' s) → F r ρ = F r ρ') : ∃ ρ, ∀ r, ρ r = F r ρ := by
  classical
  obtain ⟨b⟩ := ‹Nonempty β›
  let ρ : α → β := hR.fix fun r ih => F r fun s => if h : R s r then ih s h else b
  refine ⟨ρ, fun r => ?_⟩
  have heq : ρ r = F r fun s => if R s r then ρ s else b := hR.fix_eq _ r
  rw [heq]
  apply hF
  intro s hs
  rw [if_pos hs]

/-- A path with links from `S` to `r` among those of `R` uses none of them, or goes from
its start to a source in `S` and from `r` to its end. -/
theorem path_cases {S : Set α} {r : α} (hR' : ∀ a b, R' a b → R a b ∨ a ∈ S ∧ b = r) {a b : α}
    (h : TransGen R' a b) :
    TransGen R a b ∨ (∃ s ∈ S, ReflTransGen R a s) ∧ ReflTransGen R r b := by
  induction h with
  | single hab =>
    rcases hR' _ _ hab with hab | ⟨ha, rfl⟩
    · exact .inl (TransGen.single hab)
    · exact .inr ⟨⟨_, ha, ReflTransGen.refl⟩, ReflTransGen.refl⟩
  | tail hab hbc ih =>
    rcases hR' _ _ hbc with hbc | ⟨hb, rfl⟩
    · rcases ih with hab | ⟨hstart, hend⟩
      · exact .inl (hab.tail hbc)
      · exact .inr ⟨hstart, hend.tail hbc⟩
    · rcases ih with hab | ⟨hstart, -⟩
      · exact .inr ⟨⟨_, hb, hab.to_reflTransGen⟩, ReflTransGen.refl⟩
      · exact .inr ⟨hstart, ReflTransGen.refl⟩

theorem acyclic_link {S : Set α} {r : α} (hR' : ∀ a b, R' a b → R a b ∨ a ∈ S ∧ b = r)
    (hR : Acyclic R) (hS : ∀ s ∈ S, ¬ ReflTransGen R r s) : Acyclic R' := by
  intro a ha
  rcases path_cases hR' ha with ha | ⟨⟨s, hs, has⟩, hra⟩
  · exact hR a ha
  · exact hS s hs (hra.trans has)

end Links
