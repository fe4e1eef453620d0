import Mathlib.Data.List.Forall2
import Mathlib.Tactic

/-!
# Checks in the exception monad

A checking function returns what it has collected or raises an exception.  What
its success says is read off its binds one by one, and off a loop by one step of
the loop.
-/

namespace Checks

open List

variable {γ : Type} {α β ε : Type} {x : Except ε α}

theorem bind_eq_ok {f : α → Except ε β} {b : β} :
    x >>= f = .ok b ↔ ∃ a, x = .ok a ∧ f a = .ok b := by
  cases x with
  | error e =>
    constructor
    · intro h; cases h
    · rintro ⟨a, ha, _⟩; cases ha
  | ok a =>
    constructor
    · intro h; exact ⟨a, rfl, h⟩
    · rintro ⟨a', ha, h⟩; cases ha; exact h

variable {f : β → α → Except ε β}

/-- A loop that keeps what it has found (`M`) establishes `P` for each element
it has met. -/
theorem foldlM_all {M : β → β → Prop} {P : α → β → Prop} (hrefl : ∀ b, M b b)
    (htrans : ∀ {a b c}, M a b → M b c → M a c) (hmono : ∀ {a b c}, P a b → M b c → P a c)
    (hstep : ∀ {b a b'}, f b a = .ok b' → M b b' ∧ P a b') :
    ∀ {l : List α} {b b' : β}, l.foldlM f b = .ok b' → M b b' ∧ ∀ a ∈ l, P a b' := by
  intro l
  induction l with
  | nil =>
    intro b b' h
    cases h
    exact ⟨hrefl b, fun a ha => by cases ha⟩
  | cons a l ih =>
    intro b b' h
    rw [foldlM_cons, bind_eq_ok] at h
    obtain ⟨b₁, hb, h⟩ := h
    obtain ⟨hM, hP⟩ := hstep hb
    obtain ⟨hM', hP'⟩ := ih h
    refine ⟨htrans hM hM', fun x hx => ?_⟩
    rcases mem_cons.mp hx with rfl | hx
    · exact hmono hP hM'
    · exact hP' x hx

variable {I : β → Prop}

/-- What a loop collects, from what one step adds to it. -/
theorem foldlM_inv : ∀ {l : List α} {b b' : β},
    (∀ a ∈ l, ∀ {b b'}, f b a = .ok b' → I b → I b') → l.foldlM f b = .ok b' → I b → I b' := by
  intro l
  induction l with
  | nil =>
    intro b b' _ h hb
    cases h
    exact hb
  | cons a l ih =>
    intro b b' hstep h hb
    rw [foldlM_cons] at h
    obtain ⟨b₁, h₁, h⟩ := bind_eq_ok.mp h
    exact ih (fun x hx => hstep x (mem_cons_of_mem _ hx)) h
      (hstep a mem_cons_self h₁ hb)

variable {H : β → γ → Prop} {S : α → γ → Prop}

theorem foldlM_collect : ∀ {l : List α} {b b' : β},
      (∀ a ∈ l, ∀ {b b'}, f b a = .ok b' → ∀ p, H b' p ↔ H b p ∨ S a p) →
      l.foldlM f b = .ok b' → ∀ p, H b' p ↔ H b p ∨ ∃ a ∈ l, S a p := by
  intro l
  induction l with
  | nil =>
    intro b b' _ h p
    cases h
    simp
  | cons a l ih =>
    intro b b' hstep h p
    rw [foldlM_cons, bind_eq_ok] at h
    obtain ⟨b₁, hb, h⟩ := h
    rw [ih (fun x hx => hstep x (mem_cons_of_mem _ hx)) h p,
      hstep a mem_cons_self hb p]
    simp [or_assoc]

/-- The same for a loop with an invariant. -/
theorem foldlM_collect_inv : ∀ {l : List α} {b b' : β},
      (∀ a ∈ l, ∀ {b b'}, f b a = .ok b' → I b → I b' ∧ ∀ p, H b' p ↔ H b p ∨ S a p) →
      l.foldlM f b = .ok b' → I b → I b' ∧ ∀ p, H b' p ↔ H b p ∨ ∃ a ∈ l, S a p := by
  intro l
  induction l with
  | nil =>
    intro b b' _ h hI
    cases h
    exact ⟨hI, by simp⟩
  | cons a l ih =>
    intro b b' hstep h hI
    rw [foldlM_cons, bind_eq_ok] at h
    obtain ⟨b₁, hb, h⟩ := h
    obtain ⟨hI₁, hp₁⟩ := hstep a mem_cons_self hb hI
    obtain ⟨hI', hp'⟩ := ih (fun x hx => hstep x (mem_cons_of_mem _ hx)) h hI₁
    refine ⟨hI', fun p => ?_⟩
    rw [hp', hp₁]
    simp [or_assoc]

/-- The same for a loop with an invariant, which also succeeds. -/
theorem foldlM_collect_total : ∀ {l : List α} {b : β}, I b →
      (∀ a ∈ l, ∀ {b}, I b → ∃ b', f b a = .ok b' ∧ I b' ∧ ∀ p, H b' p ↔ H b p ∨ S a p) →
      ∃ b', l.foldlM f b = .ok b' ∧ I b' ∧ ∀ p, H b' p ↔ H b p ∨ ∃ a ∈ l, S a p := by
  intro l
  induction l with
  | nil =>
    intro b hI _
    exact ⟨b, rfl, hI, by simp⟩
  | cons a l ih =>
    intro b hI hstep
    obtain ⟨b₁, hb, hI₁, hp₁⟩ := hstep a mem_cons_self hI
    obtain ⟨b', hb', hI', hp'⟩ := ih hI₁ (fun x hx => hstep x (mem_cons_of_mem _ hx))
    refine ⟨b', ?_, hI', fun p => ?_⟩
    · rw [foldlM_cons, bind_eq_ok]
      exact ⟨b₁, hb, hb'⟩
    · rw [hp', hp₁]
      simp [or_assoc]

/-- A loop whose steps succeed from the states of an invariant. -/
theorem foldlM_total : ∀ {l : List α} {b : β}, I b →
    (∀ a ∈ l, ∀ {b}, I b → ∃ b', f b a = .ok b' ∧ I b') →
    ∃ b', l.foldlM f b = .ok b' ∧ I b' := by
  intro l
  induction l with
  | nil =>
    intro b hI _
    exact ⟨b, rfl, hI⟩
  | cons a l ih =>
    intro b hI hstep
    obtain ⟨b₁, hb, hI₁⟩ := hstep a mem_cons_self hI
    obtain ⟨b', hb', hI'⟩ := ih hI₁ (fun x hx => hstep x (mem_cons_of_mem _ hx))
    refine ⟨b', ?_, hI'⟩
    rw [foldlM_cons, bind_eq_ok]
    exact ⟨b₁, hb, hb'⟩

/-- A loop succeeds exactly when each step does, where the condition of a step speaks of the
elements before it and the invariant of these too. -/
theorem foldlM_ok_iff {J : List α → β → Prop} {P : List α → α → Prop} {l : List α}
    (hstep : ∀ l₁ a l₂ b, l = l₁ ++ a :: l₂ → J l₁ b →
      ((∃ b', f b a = .ok b') ↔ P l₁ a) ∧ ∀ b', f b a = .ok b' → J (l₁ ++ [a]) b')
    {b : β} (hb : J [] b) :
    (∃ b', l.foldlM f b = .ok b') ↔ ∀ l₁ a l₂, l = l₁ ++ a :: l₂ → P l₁ a := by
  suffices h : ∀ (rest done : List α) (b : β), l = done ++ rest → J done b →
      ((∃ b', rest.foldlM f b = .ok b') ↔
        ∀ l₁ a l₂, rest = l₁ ++ a :: l₂ → P (done ++ l₁) a) from h l [] b rfl hb
  intro rest
  induction rest with
  | nil =>
    intro done b _ _
    exact iff_of_true ⟨b, rfl⟩ fun l₁ a l₂ h => by cases l₁ <;> cases h
  | cons a rest ih =>
    intro done b hl hJ
    obtain ⟨hiff, hkeep⟩ := hstep done a rest b hl hJ
    have hl' : l = (done ++ [a]) ++ rest := by rw [hl, append_assoc, cons_append, nil_append]
    constructor
    · rintro ⟨b', h⟩ l₁ a' l₂ heq
      rw [foldlM_cons, bind_eq_ok] at h
      obtain ⟨b₁, hb₁, h⟩ := h
      cases l₁ with
      | nil =>
        cases heq
        rw [append_nil]
        exact hiff.mp ⟨b₁, hb₁⟩
      | cons _ l₁ =>
        cases heq
        rw [append_cons]
        exact (ih _ b₁ hl' (hkeep b₁ hb₁)).mp ⟨b', h⟩ l₁ a' l₂ rfl
    · intro h
      obtain ⟨b₁, hb₁⟩ := hiff.mpr (append_nil done ▸ h [] a rest rfl)
      have hrest : ∀ l₁ a' l₂, rest = l₁ ++ a' :: l₂ → P (done ++ [a] ++ l₁) a' := by
        rintro l₁ a' l₂ rfl
        rw [← append_cons]
        exact h (a :: l₁) a' l₂ rfl
      obtain ⟨b', hb'⟩ := (ih _ b₁ hl' (hkeep b₁ hb₁)).mpr hrest
      exact ⟨b', foldlM_cons.trans (bind_eq_ok.mpr ⟨b₁, hb₁, hb'⟩)⟩

variable {e : ε}

theorem bind_eq_error {f : α → Except ε β} :
    x >>= f = .error e ↔ x = .error e ∨ ∃ a, x = .ok a ∧ f a = .error e := by
  cases x with
  | error e' =>
    constructor
    · intro h; cases h; exact .inl rfl
    · rintro (h | ⟨a, ha, _⟩)
      · cases h; rfl
      · cases ha
  | ok a =>
    constructor
    · intro h; exact .inr ⟨a, rfl, h⟩
    · rintro (h | ⟨a', ha, h⟩)
      · cases h
      · cases ha; exact h

/-- A loop fails where one of its steps does. -/
theorem foldlM_error : ∀ {l : List α} {b : β},
    l.foldlM f b = .error e → ∃ a ∈ l, ∃ b', f b' a = .error e := by
  intro l
  induction l with
  | nil => intro b h; cases h
  | cons a l ih =>
    intro b h
    rw [foldlM_cons, bind_eq_error] at h
    rcases h with h | ⟨b₁, _, h⟩
    · exact ⟨a, mem_cons_self, b, h⟩
    · obtain ⟨x, hx, b', h⟩ := ih h
      exact ⟨x, mem_cons_of_mem _ hx, b', h⟩

theorem mapM_error {f : α → Except ε β} : ∀ {l : List α},
    l.mapM f = .error e → ∃ a ∈ l, f a = .error e := by
  intro l
  induction l with
  | nil => intro h; cases h
  | cons a l ih =>
    intro h
    rw [mapM_cons, bind_eq_error] at h
    rcases h with h | ⟨b, _, h⟩
    · exact ⟨a, mem_cons_self, h⟩
    · rw [bind_eq_error] at h
      rcases h with h | ⟨bl, _, h⟩
      · obtain ⟨x, hx, h⟩ := ih h
        exact ⟨x, mem_cons_of_mem _ hx, h⟩
      · cases h

theorem mapM_eq_ok {f : α → Except ε β} : ∀ {l : List α} {l' : List β}, l.mapM f = .ok l' ↔
    List.Forall₂ (fun a b => f a = .ok b) l l' := by
  intro l
  induction l with
  | nil =>
    intro l'
    constructor
    · intro h
      cases h
      exact .nil
    · intro h
      cases h
      rfl
  | cons a l ih =>
    intro l'
    rw [mapM_cons, bind_eq_ok]
    constructor
    · rintro ⟨b, hb, h⟩
      rw [bind_eq_ok] at h
      obtain ⟨bl, hbl, h⟩ := h
      cases h
      exact .cons hb (ih.mp hbl)
    · intro h
      cases h with
      | cons hb hbl =>
        refine ⟨_, hb, ?_⟩
        rw [bind_eq_ok]
        exact ⟨_, ih.mpr hbl, rfl⟩

theorem forM_eq_ok {f : α → Except ε Unit} {l : List α} :
    forM l f = .ok () ↔ ∀ a ∈ l, f a = .ok () := by
  induction l with
  | nil =>
    constructor
    · intro _ a ha
      cases ha
    · intro _
      rfl
  | cons a l ih =>
    rw [forM_cons, bind_eq_ok, forall_mem_cons, ← ih]
    constructor
    · rintro ⟨⟨⟩, ha, hl⟩
      exact ⟨ha, hl⟩
    · rintro ⟨ha, hl⟩
      exact ⟨(), ha, hl⟩

theorem forM_eq_error {f : α → Except ε Unit} {l : List α} (h : forM l f = .error e) :
    ∃ a ∈ l, f a = .error e := by
  induction l with
  | nil => cases h
  | cons a l ih =>
    rw [forM_cons] at h
    cases ha : f a with
    | error e' =>
      rw [ha] at h
      exact ⟨a, mem_cons_self, ha.trans h⟩
    | ok u =>
      rw [ha] at h
      obtain ⟨b, hb, hf⟩ := ih h
      exact ⟨b, mem_cons_of_mem _ hb, hf⟩

/-- A loop that collects names, each at most once. -/
theorem foldlM_names {ν : Type} {f : List ν → α → Except ε (List ν)} (P : α → Prop)
    (names : α → List ν) (hstep : ∀ b a b', f b a = .ok b' ↔
      P a ∧ (names a).Nodup ∧ (∀ x ∈ names a, x ∉ b) ∧ b' = (names a).reverse ++ b) {l : List α} :
    ∀ {b b' : List ν}, l.foldlM f b = .ok b' ↔ (∀ a ∈ l, P a) ∧ (l.flatMap names).Nodup ∧
      (∀ x ∈ l.flatMap names, x ∉ b) ∧ b' = (l.flatMap names).reverse ++ b := by
  induction l with
  | nil =>
    intro b b'
    simp [pure, Except.pure, eq_comm]
  | cons a l ih =>
    intro b b'
    rw [foldlM_cons, bind_eq_ok]
    simp only [hstep, ih, flatMap_cons, nodup_append', forall_mem_cons,
      forall_mem_append, reverse_append, append_assoc]
    constructor
    · rintro ⟨_, ⟨hP, hnd, hnew, rfl⟩, hPl, hndl, hnewl, rfl⟩
      refine ⟨⟨hP, hPl⟩, ⟨hnd, hndl, ?_⟩, ⟨hnew, ?_⟩, rfl⟩
      · exact fun x hx hxl => hnewl x hxl (mem_append_left _ (mem_reverse.mpr hx))
      · exact fun x hx hb => hnewl x hx (mem_append_right _ hb)
    · rintro ⟨⟨hP, hPl⟩, ⟨hnd, hndl, hdisj⟩, ⟨hnew, hnewl⟩, rfl⟩
      refine ⟨_, ⟨hP, hnd, hnew, rfl⟩, hPl, hndl, fun x hx hmem => ?_, rfl⟩
      rw [mem_append, mem_reverse] at hmem
      rcases hmem with hmem | hmem
      · exact hdisj hmem hx
      · exact hnewl x hx hmem

/-! ## Total checks -/

/-- A computation that returns exactly under a condition, and then something with `Q`. -/
def Meets (C : Bool) (Q : α → Prop) (x : Except ε α) : Prop :=
  if C then ∃ a, x = .ok a ∧ Q a else ∃ e, x = .error e

section Meets

variable {C D : Bool} {Q : α → Prop} {R : β → Prop}

theorem meets_ok {a : α} (h : Q a) : Meets true Q (.ok a : Except ε α) := ⟨a, rfl, h⟩

theorem meets_error (e : ε) : Meets false Q (.error e : Except ε α) := ⟨e, rfl⟩

theorem Meets.bind {f : α → Except ε β} (h : Meets C Q x)
    (hf : ∀ a, Q a → Meets D R (f a)) : Meets (C && D) R (x >>= f) := by
  cases C with
  | false =>
    obtain ⟨e, rfl⟩ := h
    exact ⟨e, rfl⟩
  | true =>
    obtain ⟨a, rfl, ha⟩ := h
    rw [Bool.true_and]
    exact hf a ha

theorem meets_iff (h : Meets C Q x) : (∃ a, x = .ok a ∧ Q a) ↔ C = true := by
  cases C with
  | false =>
    obtain ⟨e, rfl⟩ := h
    simp
  | true => exact iff_of_true h rfl

end Meets

end Checks
