import Mathlib.Logic.Function.Basic
import Mathlib.Data.Set.Basic
import Mathlib.Tactic

/-!
# Programs with numbered outcomes

A program relates the states in which it starts to its results: it fails, or it ends
with a number and a state.  The normal end is the number zero, the others are
exceptions.  Programs form a monad in which the number says what comes next, and
the weakest precondition of a program maps the conditions on its results to the one
on its start.
-/

namespace Outcomes

open Function

variable {O O' : Set ℕ}

/-- How an execution ends. -/
inductive Res (S : Type)
  | fail
  | done (i : ℕ) (s : S)

/-- The results of the executions from a state. -/
abbrev Prog (S : Type) := S → Res S → Prop

variable {S : Type}

/-! ## Constructs -/

/-- Ends at once. -/
def cont (i : ℕ) : Prog S := fun s r => r = .done i s

/-- A step to a related state. -/
def step (R : S → S → Prop) : Prog S := fun s r => ∃ s', R s s' ∧ r = .done 0 s'

/-- Checks a condition, and goes no further. -/
def stop (P : S → Prop) : Prog S := fun s r => ¬ P s ∧ r = .fail

def choice (p q : Prog S) : Prog S := fun s r => p s r ∨ q s r

/-- Checks a condition, and assumes it. -/
def cut (P : S → Prop) : Prog S := choice (stop P) (step (fun s s' => P s ∧ s' = s))

def branch (c : S → Prop) (p q : Prog S) : Prog S := fun s r => (c s ∧ p s r) ∨ (¬ c s ∧ q s r)

/-- Every outcome of the program is followed by the program of its number. -/
def handle (h : ℕ → Prog S) (p : Prog S) : Prog S := fun s r =>
  (p s .fail ∧ r = .fail) ∨ ∃ i s', p s (.done i s') ∧ h i s' r

/-- One outcome is followed by a program, the others stay. -/
def seq (p : Prog S) (i : ℕ) (q : Prog S) : Prog S := handle (update cont i q) p

/-! ## Laws -/

@[simp] theorem handle_cont (p : Prog S) : handle cont p = p := by
  funext s r
  refine propext ⟨?_, fun h => ?_⟩
  · rintro (⟨h, rfl⟩ | ⟨i, s', h, rfl⟩)
    · exact h
    · exact h
  · cases r with
    | fail => exact .inl ⟨h, rfl⟩
    | done i s' => exact .inr ⟨i, s', h, rfl⟩

@[simp] theorem handle_of_cont (h : ℕ → Prog S) (i : ℕ) : handle h (cont i) = h i := by
  funext s r
  refine propext ⟨?_, fun hr => .inr ⟨i, s, rfl, hr⟩⟩
  rintro (⟨hf, -⟩ | ⟨j, s', hj, hr⟩)
  · cases hf
  · cases hj
    exact hr

theorem handle_handle (h g : ℕ → Prog S) (p : Prog S) :
    handle h (handle g p) = handle (fun i => handle h (g i)) p := by
  funext s r
  refine propext ⟨?_, ?_⟩
  · rintro (⟨⟨hp, -⟩ | ⟨i, s', hp, hg⟩, rfl⟩ | ⟨j, s'', ⟨-, hf⟩ | ⟨i, s', hp, hg⟩, hh⟩)
    · exact .inl ⟨hp, rfl⟩
    · exact .inr ⟨i, s', hp, .inl ⟨hg, rfl⟩⟩
    · cases hf
    · exact .inr ⟨i, s', hp, .inr ⟨j, s'', hg, hh⟩⟩
  · rintro (⟨hp, rfl⟩ | ⟨i, s', hp, ⟨hg, rfl⟩ | ⟨j, s'', hg, hh⟩⟩)
    · exact .inl ⟨.inl ⟨hp, rfl⟩, rfl⟩
    · exact .inl ⟨.inr ⟨i, s', hp, hg⟩, rfl⟩
    · exact .inr ⟨j, s'', .inr ⟨i, s', hp, hg⟩, hh⟩

@[simp] theorem handle_stop (h : ℕ → Prog S) (P : S → Prop) : handle h (stop P) = stop P := by
  funext s r
  refine propext ⟨?_, fun hr => .inl ⟨⟨hr.1, rfl⟩, hr.2⟩⟩
  rintro (⟨hp, rfl⟩ | ⟨i, s', ⟨-, hf⟩, -⟩)
  · exact hp
  · cases hf

@[simp] theorem handle_choice (h : ℕ → Prog S) (p q : Prog S) :
    handle h (choice p q) = choice (handle h p) (handle h q) := by
  funext s r
  refine propext ⟨?_, ?_⟩
  · rintro (⟨hp | hp, hr⟩ | ⟨i, s', hp | hp, hh⟩)
    · exact .inl (.inl ⟨hp, hr⟩)
    · exact .inr (.inl ⟨hp, hr⟩)
    · exact .inl (.inr ⟨i, s', hp, hh⟩)
    · exact .inr (.inr ⟨i, s', hp, hh⟩)
  · rintro ((⟨hp, hr⟩ | ⟨i, s', hp, hh⟩) | (⟨hp, hr⟩ | ⟨i, s', hp, hh⟩))
    · exact .inl ⟨.inl hp, hr⟩
    · exact .inr ⟨i, s', .inl hp, hh⟩
    · exact .inl ⟨.inr hp, hr⟩
    · exact .inr ⟨i, s', .inr hp, hh⟩

@[simp] theorem handle_branch (h : ℕ → Prog S) (c : S → Prop) (p q : Prog S) :
    handle h (branch c p q) = branch c (handle h p) (handle h q) := by
  funext s r
  refine propext ⟨?_, ?_⟩
  · rintro (⟨⟨hc, hp⟩ | ⟨hc, hp⟩, hr⟩ | ⟨i, s', ⟨hc, hp⟩ | ⟨hc, hp⟩, hh⟩)
    · exact .inl ⟨hc, .inl ⟨hp, hr⟩⟩
    · exact .inr ⟨hc, .inl ⟨hp, hr⟩⟩
    · exact .inl ⟨hc, .inr ⟨i, s', hp, hh⟩⟩
    · exact .inr ⟨hc, .inr ⟨i, s', hp, hh⟩⟩
  · rintro (⟨hc, ⟨hp, hr⟩ | ⟨i, s', hp, hh⟩⟩ | ⟨hc, ⟨hp, hr⟩ | ⟨i, s', hp, hh⟩⟩)
    · exact .inl ⟨.inl ⟨hc, hp⟩, hr⟩
    · exact .inr ⟨i, s', .inl ⟨hc, hp⟩, hh⟩
    · exact .inl ⟨.inr ⟨hc, hp⟩, hr⟩
    · exact .inr ⟨i, s', .inr ⟨hc, hp⟩, hh⟩

/-! ## Outcomes -/

/-- The program only ends with numbers of the set. -/
def Within (p : Prog S) (O : Set ℕ) : Prop := ∀ s i s', p s (.done i s') → i ∈ O

variable {p : Prog S}

theorem Within.mono (h : Within p O) (hO : O ⊆ O') : Within p O' :=
  fun s i s' hp => hO (h s i s' hp)

variable {h : ℕ → Prog S}

/-- Programs for the outcomes that do occur are all that matters. -/
theorem handle_congr {g : ℕ → Prog S} (hp : Within p O) (hgh : ∀ i ∈ O, h i = g i) :
    handle h p = handle g p := by
  funext s r
  refine propext (or_congr_right (exists_congr fun i => exists_congr fun s' => ?_))
  refine and_congr_right fun hr => ?_
  rw [hgh i (hp s i s' hr)]

theorem handle_eq_self (hp : Within p O) (hh : ∀ i ∈ O, h i = cont i) : handle h p = p :=
  (handle_congr hp hh).trans (handle_cont p)

theorem within_cont (i : ℕ) : Within (cont i : Prog S) {i} := by
  intro s j s' h
  cases h
  rfl

theorem within_step (R : S → S → Prop) : Within (step R) {0} := by
  rintro s j s' ⟨s'', -, h⟩
  cases h
  rfl

theorem within_stop (P : S → Prop) : Within (stop P) ∅ := by
  rintro s j s' ⟨-, h⟩
  cases h

variable {q : Prog S}

theorem within_choice (hp : Within p O) (hq : Within q O') : Within (choice p q) (O ∪ O') := by
  rintro s i s' (h | h)
  · exact .inl (hp s i s' h)
  · exact .inr (hq s i s' h)

theorem within_branch {c : S → Prop} (hp : Within p O) (hq : Within q O') :
    Within (branch c p q) (O ∪ O') := by
  rintro s i s' (⟨-, h⟩ | ⟨-, h⟩)
  · exact .inl (hp s i s' h)
  · exact .inr (hq s i s' h)

theorem within_handle {O' : ℕ → Set ℕ} (hp : Within p O) (hh : ∀ i ∈ O, Within (h i) (O' i)) :
    Within (handle h p) (⋃ i ∈ O, O' i) := by
  rintro s j s' (⟨-, hf⟩ | ⟨i, s'', hi, hj⟩)
  · cases hf
  · exact Set.mem_biUnion (hp s i s'' hi) (hh i (hp s i s'' hi) s'' j s' hj)

theorem within_seq {i : ℕ} (hp : Within p O) (hq : Within q O') :
    Within (seq p i q) (O \ {i} ∪ O') := by
  rintro s j s' (⟨-, hf⟩ | ⟨k, s'', hk, hj⟩)
  · cases hf
  · by_cases hki : k = i
    · rw [hki, update_self] at hj
      exact .inr (hq s'' j s' hj)
    · rw [update_of_ne hki] at hj
      have hjk := within_cont k s'' j s' hj
      obtain rfl : j = k := hjk
      exact .inl ⟨hp s j s'' hk, hki⟩

/-! ## Weakest preconditions -/

/-- The result is not a failure, and satisfies the condition of its number. -/
def Sat (Q : ℕ → S → Prop) : Res S → Prop
  | .fail => False
  | .done i s => Q i s

/-- No execution fails, and all end in the conditions of their numbers. -/
def wp (p : Prog S) (Q : ℕ → S → Prop) (s : S) : Prop := ∀ r, p s r → Sat Q r

theorem wp_handle (h : ℕ → Prog S) (p : Prog S) (Q : ℕ → S → Prop) (s : S) :
    wp (handle h p) Q s ↔ wp p (fun i => wp (h i) Q) s := by
  constructor
  · intro hw r hr
    cases r with
    | fail => exact hw .fail (.inl ⟨hr, rfl⟩)
    | done i s' => exact fun r' hr' => hw r' (.inr ⟨i, s', hr, hr'⟩)
  · rintro hw r (⟨hp, rfl⟩ | ⟨i, s', hp, hh⟩)
    · exact hw .fail hp
    · exact hw (.done i s') hp r hh

@[simp] theorem wp_cont (i : ℕ) (Q : ℕ → S → Prop) (s : S) : wp (cont i) Q s ↔ Q i s :=
  ⟨fun h => h _ rfl, fun h _ hr => hr ▸ h⟩

theorem wp_seq (p q : Prog S) (i : ℕ) (Q : ℕ → S → Prop) (s : S) :
    wp (seq p i q) Q s ↔ wp p (update Q i (wp q Q)) s := by
  rw [seq, wp_handle]
  have hQ : (fun j => wp (update cont i q j) Q) = update Q i (wp q Q) := by
    funext j s
    by_cases hj : j = i
    · subst hj
      rw [update_self, update_self]
    · rw [update_of_ne hj, update_of_ne hj]
      exact propext (wp_cont j Q s)
  rw [hQ]

@[simp] theorem wp_choice (p q : Prog S) (Q : ℕ → S → Prop) (s : S) :
    wp (choice p q) Q s ↔ wp p Q s ∧ wp q Q s :=
  ⟨fun h => ⟨fun r hr => h r (.inl hr), fun r hr => h r (.inr hr)⟩,
    fun h r hr => hr.elim (h.1 r) (h.2 r)⟩

end Outcomes
