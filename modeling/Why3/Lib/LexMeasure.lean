import Mathlib.Tactic
import Mathlib.Data.Fintype.Pigeonhole
import Mathlib.Order.OrderIsoNat
import Mathlib.Logic.Relation

/-!
# Lexicographic measures and infinite runs

Tuples are lists.  `LexLt lt ps x a` compares two of them at the positions
`ps`, the first position being the heaviest.  A system with finitely many
control points has no infinite run when every cycle at a control point
decreases a well-founded relation of its own.
-/

namespace LexMeasure

/-! ## The lexicographic order at chosen positions -/

section Lex

variable {D : Type*} {lt : D → D → Prop}

/-- Both sides are there, and they are related. -/
def OptLt (lt : D → D → Prop) (o o' : Option D) : Prop :=
  ∃ u v, o = some u ∧ o' = some v ∧ lt u v

def LexLt (lt : D → D → Prop) : List ℕ → List D → List D → Prop
  | [], _, _ => False
  | i :: ps, x, a => OptLt lt x[i]? a[i]? ∨ (x[i]? = a[i]? ∧ LexLt lt ps x a)

theorem OptLt.trans (htrans : ∀ u v w, lt u v → lt v w → lt u w) {o₁ o₂ o₃ : Option D}
    (h₁ : OptLt lt o₁ o₂) (h₂ : OptLt lt o₂ o₃) : OptLt lt o₁ o₃ := by
  obtain ⟨u, v, rfl, rfl, huv⟩ := h₁
  obtain ⟨v', w, hv, rfl, hvw⟩ := h₂
  cases hv
  exact ⟨u, w, rfl, rfl, htrans u v w huv hvw⟩

theorem wellFounded_optLt (hwf : WellFounded lt) : WellFounded (OptLt lt) := by
  have hnone : Acc (OptLt lt) none := by
    constructor
    rintro o ⟨u, v, _, hv, _⟩
    cases hv
  have hsome : ∀ v, Acc (OptLt lt) (some v) := by
    intro v
    induction v using hwf.induction with
    | _ v ih =>
      constructor
      rintro o ⟨u, v', rfl, hv, huv⟩
      cases hv
      exact ih u huv
  constructor
  rintro (_ | v)
  · exact hnone
  · exact hsome v

theorem LexLt.trans (htrans : ∀ u v w, lt u v → lt v w → lt u w) {ps : List ℕ}
    {x y z : List D} (h₁ : LexLt lt ps x y) (h₂ : LexLt lt ps y z) : LexLt lt ps x z := by
  induction ps with
  | nil => exact h₁
  | cons i ps ih =>
    rcases h₁ with h₁ | ⟨e₁, h₁⟩
    · rcases h₂ with h₂ | ⟨e₂, _⟩
      · exact .inl (h₁.trans htrans h₂)
      · exact .inl (e₂ ▸ h₁)
    · rcases h₂ with h₂ | ⟨e₂, h₂⟩
      · exact .inl (e₁ ▸ h₂)
      · exact .inr ⟨e₁.trans e₂, ih h₁ h₂⟩

theorem wellFounded_lexLt (hwf : WellFounded lt) (ps : List ℕ) : WellFounded (LexLt lt ps) := by
  induction ps with
  | nil => exact ⟨fun a => ⟨a, fun _ h => h.elim⟩⟩
  | cons i ps ih =>
    have hprod : WellFounded (InvImage (Prod.Lex (OptLt lt) (LexLt lt ps))
        (fun a : List D => (a[i]?, a))) :=
      InvImage.wf _ ((wellFounded_optLt hwf).prod_lex ih)
    refine Subrelation.wf ?_ hprod
    intro x a h
    rcases h with h | ⟨e, h⟩
    · exact Prod.Lex.left _ _ h
    · show Prod.Lex _ _ (x[i]?, x) (a[i]?, a)
      rw [e]
      exact Prod.Lex.right _ h

/-- Equal or smaller at the first positions, smaller at the next one. -/
theorem lexLt_of_prefix {pre post : List ℕ} {i : ℕ} {x a : List D}
    (hpre : ∀ j ∈ pre, x[j]? = a[j]? ∨ OptLt lt x[j]? a[j]?) (hi : OptLt lt x[i]? a[i]?) :
    LexLt lt (pre ++ i :: post) x a := by
  induction pre with
  | nil => exact .inl hi
  | cons j pre ih =>
    rcases hpre j List.mem_cons_self with hj | hj
    · exact .inr ⟨hj, ih (fun k hk => hpre k (List.mem_cons_of_mem _ hk))⟩
    · exact .inl hj

/-! ## Lists of bounded length -/

/-- The order of the dictionary, in which a prefix comes first, is well founded on the lists
of bounded length. -/
theorem wellFounded_listLex (hwf : WellFounded lt) (N : ℕ) : WellFounded (fun l' l : List D =>
  l'.length ≤ N ∧ l.length ≤ N ∧ List.Lex lt l' l) := by
  induction N with
  | zero =>
    refine ⟨fun l => ⟨l, fun l' h => ?_⟩⟩
    obtain ⟨-, hl, hlex⟩ := h
    obtain rfl : l = [] := List.length_eq_zero_iff.mp (Nat.le_zero.mp hl)
    cases hlex
  | succ N ih =>
    -- the first element and the others
    have hpair : ∀ p : D × List D, p.2.length ≤ N →
        Acc (fun l' l : List D => l'.length ≤ N + 1 ∧ l.length ≤ N + 1 ∧ List.Lex lt l' l)
          (p.1 :: p.2) := by
      intro p
      induction p using (hwf.prod_lex ih).induction with
      | _ p hp =>
        obtain ⟨a, l⟩ := p
        intro hl
        refine ⟨_, fun l' h => ?_⟩
        obtain ⟨hl', -, hlex⟩ := h
        cases hlex with
        | nil =>
          refine ⟨_, fun l'' h => ?_⟩
          cases h.2.2
        | @rel a' l' _ _ hlt =>
          have hlen : l'.length ≤ N := by simpa using hl'
          exact hp (a', l') (.left _ _ hlt) hlen
        | @cons _ l' _ hlex =>
          have hlen : l'.length ≤ N := by simpa using hl'
          exact hp (a, l') (.right _ ⟨hlen, hl, hlex⟩) hlen
    refine ⟨fun l => ⟨l, fun l' h => ?_⟩⟩
    cases l' with
    | nil =>
      refine ⟨_, fun l'' h => ?_⟩
      cases h.2.2
    | cons a l' => exact hpair (a, l') (by simpa using h.1)

end Lex

/-! ## Infinite runs -/

section Runs

variable {S A : Type*} {step : S × A → S × A → Prop}

theorem transGen_of_run {run : ℕ → S × A} (h : ∀ n, step (run n) (run (n + 1))) {m n : ℕ}
    (hmn : m < n) : Relation.TransGen step (run m) (run n) := by
  induction n with
  | zero => omega
  | succ n ih =>
    rcases Nat.lt_succ_iff_lt_or_eq.mp hmn with hlt | rfl
    · exact (ih hlt).tail (h n)
    · exact .single (h m)

theorem not_descending {r : A → A → Prop} (hwf : WellFounded r) (f : ℕ → A) :
    ¬ ∀ n, r (f (n + 1)) (f n) := by
  intro h
  obtain ⟨a, ⟨n, rfl⟩, hmin⟩ := hwf.has_min (Set.range f) ⟨f 0, 0, rfl⟩
  exact hmin (f (n + 1)) ⟨n + 1, rfl⟩ (h n)

theorem no_infinite_run {T : Set S} (hfin : T.Finite)
    (hT : ∀ c c', step c c' → c'.1 ∈ T) (r : S → A → A → Prop)
    (hwf : ∀ s ∈ T, WellFounded (r s))
    (hdec : ∀ s ∈ T, ∀ a x, Relation.TransGen step (s, a) (s, x) → r s x a) :
    ¬ ∃ run : ℕ → S × A, ∀ n, step (run n) (run (n + 1)) := by
  rintro ⟨run, hrun⟩
  have : Finite T := hfin
  -- some control point is met infinitely often
  obtain ⟨⟨s, hs⟩, hinf⟩ := Finite.exists_infinite_fiber
    (fun n => (⟨(run (n + 1)).1, hT _ _ (hrun n)⟩ : T))
  have hset : Set.Infinite {n | (run (n + 1)).1 = s} := by
    rw [← Set.infinite_coe_iff]
    convert hinf using 3
    ext n
    simp [Subtype.ext_iff]
  have hmore : ∀ N, ∃ n > N, (run (n + 1)).1 = s := fun N => by
    obtain ⟨n, hn, hlt⟩ := hset.exists_gt N
    exact ⟨n, hlt, hn⟩
  obtain ⟨φ, hφ, hs'⟩ := Nat.exists_strictMono_subsequence hmore
  refine not_descending (hwf s hs) (fun k => (run (φ k + 1)).2) (fun k => ?_)
  have hpath := transGen_of_run hrun (Nat.succ_lt_succ (hφ (Nat.lt_succ_self k)))
  refine hdec s hs _ _ ?_
  have e : ∀ k, run (φ k + 1) = (s, (run (φ k + 1)).2) := fun k => by rw [← hs' k]
  rw [← e k, ← e (k + 1)]
  exact hpath

/-- The state `c` leads to `(s, x)` along a path that does not meet the control
point `s` in between. -/
inductive Back (step : S × A → S × A → Prop) (s : S) (x : A) : S × A → Prop
  | last {c} : step c (s, x) → Back step s x c
  | next {c d} : step c d → d.1 ≠ s → Back step s x d → Back step s x c

/-- What decreases between two consecutive visits of a control point decreases
along every cycle. -/
theorem of_back {r : A → A → Prop} (htrans : ∀ x y z, r x y → r y z → r x z) {s : S}
    (hback : ∀ a x, Back step s x (s, a) → r x a) {a x : A}
    (h : Relation.TransGen step (s, a) (s, x)) : r x a := by
  -- the first visit on the way is either the last one or decreases to it
  have key : ∀ c, Relation.TransGen step c (s, x) →
      Back step s x c ∨ ∃ y, Back step s y c ∧ r x y := by
    intro c hc
    induction hc using Relation.TransGen.head_induction_on with
    | single hstep => exact .inl (.last hstep)
    | @head c d hstep _ ih =>
      by_cases hd : d.1 = s
      · obtain ⟨s', y⟩ := d
        subst hd
        refine .inr ⟨y, .last hstep, ?_⟩
        rcases ih with hb | ⟨z, hb, hz⟩
        · exact hback y x hb
        · exact htrans _ _ _ hz (hback y z hb)
      · rcases ih with hb | ⟨y, hb, hy⟩
        · exact .inl (.next hstep hd hb)
        · exact .inr ⟨y, .next hstep hd hb, hy⟩
  rcases key (s, a) h with hb | ⟨y, hb, hy⟩
  · exact hback a x hb
  · exact htrans _ _ _ hy (hback a y hb)

end Runs

end LexMeasure
