import Mathlib.Data.Option.Basic
import Mathlib.Tactic

/-!
# Loops that may fail

What a traversal in the option monad returns, and when it returns.
-/

namespace OptionLoops

open List Option

variable {α β : Type} {l : List α} {g : α → Option β}

theorem mem_of_mapM {l' : List β} (h : l.mapM g = some l') {b : β} :
    b ∈ l' ↔ ∃ a ∈ l, g a = some b := by
  induction l generalizing l' with
  | nil =>
    obtain rfl : [] = l' := by simpa using h
    simp
  | cons a l ih =>
    rw [mapM_cons, bind_eq_bind, bind_eq_some_iff] at h
    obtain ⟨c, hc, h⟩ := h
    rw [bind_eq_bind, bind_eq_some_iff] at h
    obtain ⟨l₁, hl₁, h⟩ := h
    obtain rfl : c :: l₁ = l' := by simpa using h
    rw [mem_cons, exists_mem_cons_iff, ih hl₁, hc, Option.some.injEq, eq_comm]

theorem map_of_mapM : ∀ {l' : List β}, l.mapM g = some l' →
    l.map g = l'.map some := by
  induction l with
  | nil =>
    intro l' h
    obtain rfl : [] = l' := by simpa using h
    rfl
  | cons a l ih =>
    intro l' h
    rw [mapM_cons, bind_eq_bind, bind_eq_some_iff] at h
    obtain ⟨b, hb, h⟩ := h
    rw [bind_eq_bind, bind_eq_some_iff] at h
    obtain ⟨l₁, hl, h⟩ := h
    obtain rfl := some.inj h
    rw [map_cons, map_cons, hb, ih hl]

theorem mapM_total (h : ∀ a ∈ l, (g a).isSome) : ∃ l', l.mapM g = some l' := by
  induction l with
  | nil => exact ⟨[], rfl⟩
  | cons a l ih =>
    obtain ⟨b, hb⟩ := isSome_iff_exists.1 (h a mem_cons_self)
    obtain ⟨l', hl'⟩ := ih fun a ha => h a (mem_cons_of_mem _ ha)
    refine ⟨b :: l', ?_⟩
    rw [mapM_cons, hb, hl']
    rfl

/-- The results of a traversal whose turns all end. -/
theorem mapM_forall₂ {R : α → β → Prop} (h : ∀ a ∈ l, ∃ b, g a = some b ∧ R a b) :
    ∃ l', l.mapM g = some l' ∧ List.Forall₂ R l l' := by
  induction l with
  | nil => exact ⟨[], rfl, .nil⟩
  | cons a l ih =>
    obtain ⟨b, hb, hR⟩ := h a mem_cons_self
    obtain ⟨l', hl', hRs⟩ := ih fun a ha => h a (mem_cons_of_mem _ ha)
    refine ⟨b :: l', ?_, .cons hR hRs⟩
    rw [mapM_cons, hb, hl']
    rfl

end OptionLoops
