import Why3.Core.Task
import Why3.Core.KnownRun

/-!
# What holds of every task

Every task built by `add_tdecl` declares its symbols before it uses them, declares each
identifier once, and has a goal at its end only.
-/

namespace Why3

open Checks List

/-- The declaration `d` stands after `d₀` in a task: `d₀` does not know its identifiers. -/
def Later (d d₀ : Decl) : Prop := ∀ id ∈ d.dNews, id ∉ getUsedSymsDecl d₀ ∧ id ∉ d₀.dNews

def Tdecl.IsGoal (td : Tdecl) : Prop := ∃ pr f n, td = .decl ⟨.dprop .pgoal pr f, n⟩

def Tdecl.IsDecl (td : Tdecl) : Prop := ∃ d, td = .decl d

namespace Task

variable {k : ℕ} {t t' : Task} {td : Tdecl}

/-! ## One addition -/

theorem findGoal_eq_none : t.findGoal = none ↔ ∀ td ∈ t.tdecls.head?, ¬ td.IsGoal := by
  unfold findGoal
  split
  · rename_i p f n l h
    rw [h]
    simp [Tdecl.IsGoal]
  · rename_i h
    simp only [true_iff]
    rintro td htd ⟨pr, f, n, rfl⟩
    cases hl : t.tdecls with
    | nil => rw [hl] at htd; cases htd
    | cons td l =>
      rw [hl] at htd
      simp only [head?_cons, Option.mem_def, Option.some.injEq] at htd
      subst htd
      exact h _ _ _ _ hl

theorem checkTask_ok : checkTask t = .ok t' ↔ t.findGoal = none ∧ t' = t := by
  unfold checkTask
  cases t.findGoal with
  | some g => simp
  | none => simp [eq_comm]

/-- A declaration is added when it is no lemma, when `known_add_decl` accepts it and when the
task has no goal. -/
theorem newDecl_ok {d : Decl} : newDecl k t d = .ok t' ↔
    checkDecl d = .ok d ∧ t.findGoal = none ∧
      ∃ kn, knownAddDecl k t.known d = .ok kn ∧ t' = ⟨.decl d :: t.tdecls, kn⟩ := by
  have hcheck : ∀ d', checkDecl d = .ok d' → d' = d := by
    intro d' h
    unfold checkDecl at h
    split at h <;> cases h
    rfl
  unfold newDecl
  constructor
  · intro h
    obtain ⟨d', hd', hadd⟩ := bind_eq_ok.1 h
    obtain rfl := hcheck d' hd'
    split at hadd
    · cases hadd
    · rename_i kn hkn
      obtain ⟨t₁, ht₁, heq⟩ := bind_eq_ok.1 hadd
      obtain ⟨hgoal, rfl⟩ := checkTask_ok.1 ht₁
      cases heq
      exact ⟨hd', hgoal, kn, hkn, rfl⟩
  · rintro ⟨hd, hgoal, kn, hkn, rfl⟩
    refine bind_eq_ok.2 ⟨d, hd, ?_⟩
    rw [hkn]
    exact bind_eq_ok.2 ⟨t, checkTask_ok.2 ⟨hgoal, rfl⟩, rfl⟩

theorem newOther_ok : newOther t td = .ok t' ↔
    t.findGoal = none ∧ t' = ⟨td :: t.tdecls, t.known⟩ := by
  unfold newOther
  constructor
  · intro h
    obtain ⟨t₁, ht₁, heq⟩ := bind_eq_ok.1 h
    obtain ⟨hgoal, rfl⟩ := checkTask_ok.1 ht₁
    cases heq
    exact ⟨hgoal, rfl⟩
  · rintro ⟨hgoal, rfl⟩
    exact bind_eq_ok.2 ⟨t, checkTask_ok.2 ⟨hgoal, rfl⟩, rfl⟩

/-- Everything that `add_tdecl` can do: nothing for a theory already used, and an addition
to a task without a goal otherwise. -/
theorem addTdecl_cases (h : addTdecl k t td = .ok t') :
    (∃ th, td = .use th ∧ t.hasUse th = true ∧ t' = t) ∨
    (∃ d kn, td = .decl d ∧ checkDecl d = .ok d ∧ t.findGoal = none ∧
      knownAddDecl k t.known d = .ok kn ∧ t' = ⟨td :: t.tdecls, kn⟩) ∨
    (¬ td.IsDecl ∧ (∀ th, td = .use th → t.hasUse th = false) ∧ t.findGoal = none ∧
      t' = ⟨td :: t.tdecls, t.known⟩) := by
  unfold addTdecl at h
  split at h
  · rename_i d
    obtain ⟨hd, hgoal, kn, hkn, rfl⟩ := newDecl_ok.1 h
    exact .inr (.inl ⟨d, kn, rfl, hd, hgoal, hkn, rfl⟩)
  · rename_i th
    split_ifs at h with huse
    · cases h
      exact .inl ⟨th, rfl, huse, rfl⟩
    · obtain ⟨hgoal, rfl⟩ := newOther_ok.1 h
      refine .inr (.inr ⟨?_, ?_, hgoal, rfl⟩)
      · rintro ⟨d, hd⟩
        cases hd
      · rintro th' hth
        cases hth
        simpa using huse
  all_goals
    obtain ⟨hgoal, rfl⟩ := newOther_ok.1 h
    refine .inr (.inr ⟨?_, ?_, hgoal, rfl⟩)
    · rintro ⟨d, hd⟩
      cases hd
    · rintro th' hth
      cases hth

/-! ## Whole tasks -/

/-- Every symbol that a declaration uses is its own or one declared before it. -/
def DeclaredBeforeUse (l : List Tdecl) : Prop :=
  ∀ l₁ d l₂, l = l₁ ++ .decl d :: l₂ → ∀ id ∈ getUsedSymsDecl d,
    id ∈ d.dNews ∨ ∃ d' ∈ declsOf l₂, id ∈ d'.dNews

structure Inv (t : Task) : Prop where
  created : ∀ d ∈ declsOf t.tdecls, d.Created
  known : ∀ id d, t.known.lookup id = some d → id ∈ d.dNews ∧ d ∈ declsOf t.tdecls
  news : ∀ d ∈ declsOf t.tdecls, ∀ id ∈ d.dNews, (t.known.lookup id).isSome
  used : ∀ d ∈ declsOf t.tdecls, ∀ id ∈ getUsedSymsDecl d, (t.known.lookup id).isSome
  later : (declsOf t.tdecls).Pairwise Later
  before : DeclaredBeforeUse t.tdecls
  goal : ∀ td ∈ t.tdecls.tail, ¬ td.IsGoal

theorem inv_empty : empty.Inv where
  created d h := by cases h
  known id d h := by cases h
  news d h := by cases h
  used d h := by cases h
  later := List.Pairwise.nil
  before l₁ d l₂ h := by cases l₁ <;> cases h
  goal td h := by cases h

theorem declsOf_decl (d : Decl) (l : List Tdecl) : declsOf (.decl d :: l) = d :: declsOf l := rfl

theorem declsOf_other (h : ¬ td.IsDecl) (l : List Tdecl) : declsOf (td :: l) = declsOf l := by
  cases td with
  | decl d => exact absurd ⟨d, rfl⟩ h
  | _ => rfl

theorem Inv.noGoal (h : t.Inv) (hgoal : t.findGoal = none) : ∀ td ∈ t.tdecls, ¬ td.IsGoal := by
  intro td htd
  cases hl : t.tdecls with
  | nil => rw [hl] at htd; cases htd
  | cons td' l =>
    rw [hl] at htd
    rcases mem_cons.1 htd with rfl | htd
    · exact findGoal_eq_none.1 hgoal td (by rw [hl]; rfl)
    · exact h.goal td (by rw [hl]; exact htd)

theorem DeclaredBeforeUse.cons_other {l : List Tdecl} (h : DeclaredBeforeUse l)
    (htd : ¬ td.IsDecl) : DeclaredBeforeUse (td :: l) := by
  intro l₁ d l₂ heq id hid
  cases l₁ with
  | nil =>
    rw [nil_append, List.cons.injEq] at heq
    exact absurd ⟨d, heq.1⟩ htd
  | cons td' l₁ =>
    rw [cons_append, List.cons.injEq] at heq
    exact h l₁ d l₂ heq.2 id hid

theorem Inv.decl (h : t.Inv) (hgoal : t.findGoal = none) {d : Decl} (hd : d.Created)
    {kn : KnownMap} (hkn : knownAddDecl k t.known d = .ok kn) :
    Inv ⟨.decl d :: t.tdecls, kn⟩ := by
  have hadded := (knownAddDecl_ok hkn).1
  have hold : ∀ id, (t.known.lookup id).isSome → (kn.lookup id).isSome := by
    intro id hid
    rw [hadded.lookup_old hid]
    exact hid
  constructor
  · exact forall_mem_cons.2 ⟨hd, h.created⟩
  · intro id d' hd'
    rw [hadded.lookup] at hd'
    split_ifs at hd' with hnew
    · cases hd'
      exact ⟨hnew, mem_cons_self⟩
    · obtain ⟨hid, hmem⟩ := h.known id d' hd'
      exact ⟨hid, mem_cons_of_mem _ hmem⟩
  · refine forall_mem_cons.2 ⟨?_, fun d' hd' id hid => hold id (h.news d' hd' id hid)⟩
    intro id hid
    rw [hadded.lookup, if_pos hid]
    rfl
  · exact forall_mem_cons.2
      ⟨hadded.known, fun d' hd' id hid => hold id (h.used d' hd' id hid)⟩
  · refine pairwise_cons.2 ⟨?_, h.later⟩
    intro d₀ hd₀ id hid
    have hfresh := hadded.fresh id hid
    refine ⟨fun hsym => ?_, fun hnew => ?_⟩
    · have := h.used d₀ hd₀ id hsym
      rw [hfresh] at this
      cases this
    · have := h.news d₀ hd₀ id hnew
      rw [hfresh] at this
      cases this
  · intro l₁ d' l₂ heq id hid
    cases l₁ with
    | nil =>
      rw [nil_append, List.cons.injEq] at heq
      obtain ⟨heq₁, rfl⟩ := heq
      cases heq₁
      have hknown := hadded.known id hid
      rw [hadded.lookup] at hknown
      split_ifs at hknown with hnew
      · exact .inl hnew
      · obtain ⟨d', hd'⟩ := Option.isSome_iff_exists.1 hknown
        obtain ⟨hid', hmem⟩ := h.known id d' hd'
        exact .inr ⟨d', hmem, hid'⟩
    | cons td l₁ =>
      rw [cons_append, List.cons.injEq] at heq
      exact h.before l₁ d' l₂ heq.2 id hid
  · exact h.noGoal hgoal

theorem Inv.other (h : t.Inv) (hgoal : t.findGoal = none) (htd : ¬ td.IsDecl) :
    Inv ⟨td :: t.tdecls, t.known⟩ := by
  have hdecls := declsOf_other htd t.tdecls
  constructor
  · rw [hdecls]
    exact h.created
  · rw [hdecls]
    exact h.known
  · rw [hdecls]
    exact h.news
  · rw [hdecls]
    exact h.used
  · rw [hdecls]
    exact h.later
  · exact h.before.cons_other htd
  · exact h.noGoal hgoal

theorem Run.inv (h : Run k t) : t.Inv := by
  induction h with
  | nil => exact inv_empty
  | add _ hcreated hadd ih =>
    rcases addTdecl_cases hadd with ⟨th, rfl, -, rfl⟩ | ⟨d, kn, rfl, -, hgoal, hkn, rfl⟩ |
      ⟨htd, -, hgoal, rfl⟩
    · exact ih
    · exact ih.decl hgoal (hcreated d rfl) hkn
    · exact ih.other hgoal htd

/-- A list of additions. -/
theorem Run.foldlM {l : List Tdecl} (h : Run k t) (hl : ∀ td ∈ l, ∀ d, td = .decl d → d.Created)
    (hadd : l.foldlM (addTdecl k) t = .ok t') : Run k t' := by
  induction l generalizing t with
  | nil =>
    cases hadd
    exact h
  | cons td l ih =>
    rw [foldlM_cons] at hadd
    obtain ⟨t₁, ht₁, hadd⟩ := bind_eq_ok.1 hadd
    rw [forall_mem_cons] at hl
    exact ih (h.add hl.1 ht₁) hl.2 hadd

end Task

end Why3
