import Mathlib.Logic.Relation
import Mathlib.Tactic

/-!
# Reaching a target without crossing a cover

Elements that step to others, some of which are covers and some of which are targets.
An element is exposed when a target can be reached from it, no element on the way being
a cover.  A set of marked elements is guarded by its covers when each marked element
either is a cover, and then not a target, or is exposed.

Joining two such situations keeps the covers of each side that the other one does not
expose, and the result is guarded again.
-/

namespace Avoiding

open Relation

variable {α : Type*} {step : α → α → Prop}

/-- A target is reached from the element, which like the others on the way is no cover. -/
inductive Exposed (step : α → α → Prop) (cover target : α → Prop) : α → Prop
  | here {a} : ¬ cover a → target a → Exposed step cover target a
  | there {a b} : ¬ cover a → step a b → Exposed step cover target b → Exposed step cover target a

section Exposed

variable {cover cover' target target' : α → Prop} {a : α}

theorem Exposed.not_cover (h : Exposed step cover target a) : ¬ cover a := by
  cases h with
  | here hc _ => exact hc
  | there hc _ _ => exact hc

/-- A way that no cover of the other kind crosses. -/
theorem Exposed.mono (h : Exposed step cover target a) (htarget : ∀ b, target b → target' b)
    (hcover : ∀ b, Exposed step cover target b → ¬ cover' b) : Exposed step cover' target' a := by
  induction h with
  | here hc ht => exact .here (hcover _ (.here hc ht)) (htarget _ ht)
  | there hc hs h ih => exact .there (hcover _ (.there hc hs h)) hs ih

/-- The way as a chain of steps to elements that are no covers. -/
theorem exposed_iff : Exposed step cover target a ↔
    ¬ cover a ∧ ∃ b, target b ∧ ReflTransGen (fun x y => step x y ∧ ¬ cover y) a b := by
  constructor
  · intro h
    induction h with
    | here hc ht => exact ⟨hc, _, ht, .refl⟩
    | there hc hs _ ih =>
      obtain ⟨hb, c, ht, hchain⟩ := ih
      exact ⟨hc, c, ht, .head ⟨hs, hb⟩ hchain⟩
  · rintro ⟨hc, b, ht, hchain⟩
    induction hchain using ReflTransGen.head_induction_on with
    | refl => exact .here hc ht
    | head hstep _ ih => exact .there hc hstep.1 (ih hstep.2)

end Exposed

/-- The covers are marked and no targets, and what is marked and no cover is exposed. -/
structure Guarded (step : α → α → Prop) (marked cover target : α → Prop) : Prop where
  disjoint : ∀ a, cover a → ¬ target a
  covered : ∀ a, cover a → marked a
  exposed : ∀ a, marked a → ¬ cover a → Exposed step cover target a

theorem Guarded.of_marked {marked cover target : α → Prop} (hdisj : ∀ a, cover a → ¬ target a)
    (hmarked : ∀ a, marked a ↔ cover a) : Guarded step marked cover target where
  disjoint := hdisj
  covered := fun a ha => (hmarked a).mpr ha
  exposed := fun a ha hnot => absurd ((hmarked a).mp ha) hnot

section Join

variable {marked₁ marked₂ cover₁ cover₂ target₁ target₂ : α → Prop}

/-- The covers of each side that the other one does not expose. -/
def keptCover (step : α → α → Prop) (cover₁ target₁ cover₂ target₂ : α → Prop) (a : α) : Prop :=
  (cover₁ a ∧ ¬ Exposed step cover₂ target₂ a) ∨ (cover₂ a ∧ ¬ Exposed step cover₁ target₁ a)

/-- What one side exposes stays exposed: a cover of the other side on the way is exposed
by this one, and is not kept. -/
theorem Exposed.join_left {a : α} (h : Exposed step cover₁ target₁ a) :
    Exposed step (keptCover step cover₁ target₁ cover₂ target₂) (fun b => target₁ b ∨ target₂ b)
      a := by
  refine h.mono (fun b hb => .inl hb) fun b hb hkept => ?_
  rcases hkept with ⟨hc, _⟩ | ⟨_, hnot⟩
  · exact hb.not_cover hc
  · exact hnot hb

theorem Exposed.join_right {a : α} (h : Exposed step cover₂ target₂ a) :
    Exposed step (keptCover step cover₁ target₁ cover₂ target₂) (fun b => target₁ b ∨ target₂ b)
      a := by
  refine h.mono (fun b hb => .inr hb) fun b hb hkept => ?_
  rcases hkept with ⟨_, hnot⟩ | ⟨hc, _⟩
  · exact hnot hb
  · exact hb.not_cover hc

/-- The union of two guarded sets is guarded by the covers that are kept. -/
theorem Guarded.join (h₁ : Guarded step marked₁ cover₁ target₁)
    (h₂ : Guarded step marked₂ cover₂ target₂) :
    Guarded step (fun a => marked₁ a ∨ marked₂ a)
      (keptCover step cover₁ target₁ cover₂ target₂) (fun a => target₁ a ∨ target₂ a) where
  disjoint := by
    rintro a (⟨hc, hnot⟩ | ⟨hc, hnot⟩) (ht | ht)
    · exact h₁.disjoint a hc ht
    · by_cases hc₂ : cover₂ a
      · exact h₂.disjoint a hc₂ ht
      · exact hnot (.here hc₂ ht)
    · by_cases hc₁ : cover₁ a
      · exact h₁.disjoint a hc₁ ht
      · exact hnot (.here hc₁ ht)
    · exact h₂.disjoint a hc ht
  covered := by
    rintro a (⟨hc, _⟩ | ⟨hc, _⟩)
    · exact .inl (h₁.covered a hc)
    · exact .inr (h₂.covered a hc)
  exposed := by
    rintro a (hm | hm) hnot
    · by_cases hc : cover₁ a
      · by_contra hex
        exact hnot (.inl ⟨hc, fun h => hex h.join_right⟩)
      · exact (h₁.exposed a hm hc).join_left
    · by_cases hc : cover₂ a
      · by_contra hex
        exact hnot (.inr ⟨hc, fun h => hex h.join_left⟩)
      · exact (h₂.exposed a hm hc).join_right

end Join

end Avoiding
