import Mathlib.Data.List.Forall2
import Mathlib.Tactic

/-!
# Lists walked together

What two lists of the same length hold at the same places is `l.zip l'`.  How
this behaves under the list operations, when the lengths agree piece by piece.
-/

namespace Paired

open List

variable {α β γ δ : Type*}

variable {R : α → β → Prop} {l : List α} {l' : List β}

theorem exists_of_mem_right (h : List.Forall₂ R l l') {b : β} (hb : b ∈ l') : ∃ a ∈ l, R a b := by
  induction h with
  | nil => cases hb
  | cons hab _ ih =>
    rcases mem_cons.mp hb with rfl | hb
    · exact ⟨_, mem_cons_self, hab⟩
    · obtain ⟨a, ha, hR⟩ := ih hb
      exact ⟨a, mem_cons_of_mem _ ha, hR⟩

theorem exists_of_mem_left (h : List.Forall₂ R l l') {a : α} (ha : a ∈ l) :
    ∃ b, (a, b) ∈ l.zip l' ∧ R a b := by
  induction h with
  | nil => cases ha
  | cons hab _ ih =>
    rcases mem_cons.mp ha with rfl | ha
    · exact ⟨_, mem_cons_self, hab⟩
    · obtain ⟨b, hb, hR⟩ := ih ha
      exact ⟨b, mem_cons_of_mem _ hb, hR⟩

theorem exists_mem_zip (h : l.length = l'.length) {a : α} (ha : a ∈ l) :
    ∃ b, (a, b) ∈ l.zip l' := by
  have htriv : List.Forall₂ (fun _ _ => True) l l' :=
    forall₂_iff_zip.mpr ⟨h, fun _ => trivial⟩
  obtain ⟨b, hb, _⟩ := exists_of_mem_left htriv ha
  exact ⟨b, hb⟩

variable {p : α × β}

theorem rel_of_mem_zip (h : List.Forall₂ R l l') (hp : p ∈ l.zip l') : R p.1 p.2 := by
  induction h with
  | nil => cases hp
  | cons hab _ ih =>
    rcases mem_cons.mp hp with rfl | hp
    · exact hab
    · exact ih hp

theorem eq_of_mem_zip {f : α → γ} {g : β → γ} (h : l.map f = l'.map g) (hp : p ∈ l.zip l') :
    f p.1 = g p.2 := by
  have hall : List.Forall₂ (fun a b => f a = g b) l l' := by
    rw [← forall₂_eq_eq_eq] at h
    exact forall₂_map_left_iff.mp (forall₂_map_right_iff.mp h)
  exact rel_of_mem_zip hall hp

/-- Two lists computed from one. -/
theorem mem_zip_of_common {F : γ → Option α} {G : γ → Option β} {l : List γ} {l₁ : List α}
    {l₂ : List β} (h₁ : List.Forall₂ (fun c a => F c = some a) l l₁)
    (h₂ : List.Forall₂ (fun c b => G c = some b) l l₂) :
    p ∈ l₁.zip l₂ ↔ ∃ c ∈ l, F c = some p.1 ∧ G c = some p.2 := by
  induction h₁ generalizing l₂ with
  | nil => simp
  | cons ha _ ih =>
    cases h₂ with
    | cons hb hl =>
      rw [zip_cons_cons, mem_cons, ih hl]
      constructor
      · rintro (rfl | ⟨c, hc, h⟩)
        · exact ⟨_, mem_cons_self, ha, hb⟩
        · exact ⟨c, mem_cons_of_mem _ hc, h⟩
      · rintro ⟨c, hc, hF, hG⟩
        rcases mem_cons.mp hc with rfl | hc
        · rw [ha, Option.some.injEq] at hF
          rw [hb, Option.some.injEq] at hG
          exact .inl (Prod.ext hF.symm hG.symm)
        · exact .inr ⟨c, hc, hF, hG⟩

theorem mem_zip_append {l₁ l₂ : List α} {l₁' l₂' : List β} (h : l₁.length = l₁'.length) :
    p ∈ (l₁ ++ l₂).zip (l₁' ++ l₂') ↔ p ∈ l₁.zip l₁' ∨ p ∈ l₂.zip l₂' := by
  rw [zip_append h, mem_append]

theorem mem_zip_reverse (h : l.length = l'.length) :
    p ∈ l.reverse.zip l'.reverse ↔ p ∈ l.zip l' := by
  rw [List.zip, ← reverse_zipWith h, mem_reverse]

theorem length_flatMap_eq {f : α → List γ} {g : β → List δ}
    (h : List.Forall₂ (fun a b => (f a).length = (g b).length) l l') :
    (l.flatMap f).length = (l'.flatMap g).length := by
  induction h with
  | nil => rfl
  | cons hab _ ih =>
    rw [flatMap_cons, flatMap_cons, length_append, length_append, hab, ih]

theorem mem_zip_flatMap {f : α → List γ} {g : β → List δ}
    (h : List.Forall₂ (fun a b => (f a).length = (g b).length) l l') {p : γ × δ} :
    p ∈ (l.flatMap f).zip (l'.flatMap g) ↔ ∃ q ∈ l.zip l', p ∈ (f q.1).zip (g q.2) := by
  induction h with
  | nil => simp
  | cons hab _ ih =>
    rw [flatMap_cons, flatMap_cons, mem_zip_append hab, ih]
    simp

end Paired
