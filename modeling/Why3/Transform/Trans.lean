import Why3.Core.TaskRun

/-!
# Transformations of tasks

`Trans.decl` of `core/trans.ml`: a fold from the first element of a task on, which gives
declarations for a declaration and keeps the other elements.
-/

namespace Why3

open List Why3.Task

variable {t' task task' : Task} {td : Tdecl} {d : Decl}

namespace Trans

variable {σ ε : Type}

/-- `add_tdecl`, with its exceptions. -/
def addOr (k : ℕ) (exn : TaskExn → ε) (task : Task) (td : Tdecl) : Except ε Task :=
  match addTdecl k task td with
  | .ok task => .ok task
  | .error e => .error (exn e)

/-- A step of `Trans.decl`, where the function has a state. -/
def declStep (k : ℕ) (exn : TaskExn → ε) (fn : σ → Decl → Except ε (σ × List Decl))
    (acc : σ × Task) (td : Tdecl) : Except ε (σ × Task) :=
  match td with
  | .decl d => do
    let (s, dl) ← fn acc.1 d
    let task ← dl.foldlM (fun task d => addOr k exn task (.decl d)) acc.2
    .ok (s, task)
  | td => do
    let task ← addOr k exn acc.2 td
    .ok (acc.1, task)

/-- `Trans.decl`: a fold from the first element of the task on. -/
def decl (k : ℕ) (exn : TaskExn → ε) (fn : σ → Decl → Except ε (σ × List Decl)) (s : σ)
    (t : Task) : Except ε Task := do
  let (_, task) ← t.tdecls.reverse.foldlM (declStep k exn fn) (s, empty)
  .ok task

/-! ## Declarations of the result -/

open Checks

variable {k : ℕ} {exn : TaskExn → ε} {fn : σ → Decl → Except ε (σ × List Decl)}

/-- The declarations that the function gives one after the other. -/
def outputs (fn : σ → Decl → Except ε (σ × List Decl)) : σ → List Decl → Except ε (σ × List Decl)
  | s, [] => .ok (s, [])
  | s, d :: ds => do
    let (s, dl) ← fn s d
    let (s, dl') ← outputs fn s ds
    .ok (s, dl ++ dl')

theorem addOr_ok (h : addOr k exn task td = .ok task') : addTdecl k task td = .ok task' := by
  unfold addOr at h
  split at h
  · next task h' =>
      cases h
      exact h'
  · cases h

theorem tdecls_addDecl {t : Task} (h : addTdecl k t (.decl d) = .ok t') :
    t'.tdecls = .decl d :: t.tdecls := by
  rcases addTdecl_cases h with ⟨th, hth, -⟩ | ⟨d', kn, -, -, -, -, rfl⟩ | ⟨hnot, -⟩
  · cases hth
  · rfl
  · exact absurd ⟨d, rfl⟩ hnot

theorem declsOf_addOther {t : Task} (htd : ¬ td.IsDecl) (h : addTdecl k t td = .ok t') :
    declsOf t'.tdecls = declsOf t.tdecls := by
  rcases addTdecl_cases h with ⟨th, -, -, rfl⟩ | ⟨d, kn, rfl, -⟩ | ⟨-, -, -, rfl⟩
  · rfl
  · exact absurd ⟨d, rfl⟩ htd
  · exact declsOf_other htd _

theorem addDecls {dl : List Decl}
    (h : dl.foldlM (fun task d => addOr k exn task (.decl d)) task = .ok task') :
    task'.tdecls = (dl.map Tdecl.decl).reverse ++ task.tdecls := by
  induction dl generalizing task with
  | nil =>
    cases h
    rfl
  | cons d dl ih =>
    rw [foldlM_cons] at h
    obtain ⟨t₁, h₁, h⟩ := bind_eq_ok.1 h
    rw [ih h, tdecls_addDecl (addOr_ok h₁), map_cons, reverse_cons, append_assoc]
    rfl

theorem declStep_decl {s s' : σ} (h : declStep k exn fn (s, task) (.decl d) = .ok (s', task')) :
    ∃ dl, fn s d = .ok (s', dl) ∧
      task'.tdecls = (dl.map Tdecl.decl).reverse ++ task.tdecls := by
  obtain ⟨⟨s₁, dl⟩, hfn, h⟩ := bind_eq_ok.1 h
  obtain ⟨t₁, hadd, h⟩ := bind_eq_ok.1 h
  cases h
  exact ⟨dl, hfn, addDecls hadd⟩

theorem declStep_other {s s' : σ} (htd : ¬ td.IsDecl)
    (h : declStep k exn fn (s, task) td = .ok (s', task')) :
    s' = s ∧ declsOf task'.tdecls = declsOf task.tdecls := by
  cases td with
  | decl d => exact absurd ⟨d, rfl⟩ htd
  | _ =>
    obtain ⟨t₁, hadd, h⟩ := bind_eq_ok.1 h
    cases h
    exact ⟨rfl, declsOf_addOther htd (addOr_ok hadd)⟩

theorem declsOf_map (dl : List Decl) (l : List Tdecl) :
    declsOf ((dl.map Tdecl.decl) ++ l) = dl ++ declsOf l := by
  induction dl with
  | nil => rfl
  | cons d dl ih => rw [map_cons, cons_append, declsOf_decl, ih, cons_append]

theorem foldlM_declStep {l : List Tdecl} : ∀ {s s' : σ} {task task' : Task},
    l.foldlM (declStep k exn fn) (s, task) = .ok (s', task') →
      ∃ outs, outputs fn s (declsOf l) = .ok (s', outs) ∧
        declsOf task'.tdecls = outs.reverse ++ declsOf task.tdecls := by
  induction l with
  | nil =>
    intro s s' task task' h
    cases h
    exact ⟨[], rfl, rfl⟩
  | cons td l ih =>
    intro s s' task task' h
    rw [foldlM_cons] at h
    obtain ⟨⟨s₁, t₁⟩, h₁, h⟩ := bind_eq_ok.1 h
    obtain ⟨outs, houts, hdecls⟩ := ih h
    by_cases htd : td.IsDecl
    · obtain ⟨d, rfl⟩ := htd
      obtain ⟨dl, hfn, ht₁⟩ := declStep_decl h₁
      refine ⟨dl ++ outs, ?_, ?_⟩
      · rw [declsOf_decl]
        exact bind_eq_ok.2 ⟨(s₁, dl), hfn, bind_eq_ok.2 ⟨(s', outs), houts, rfl⟩⟩
      · rw [hdecls, ht₁, ← map_reverse, declsOf_map, reverse_append, append_assoc]
    · obtain ⟨rfl, ht₁⟩ := declStep_other htd h₁
      exact ⟨outs, by rwa [declsOf_other htd], by rw [hdecls, ht₁]⟩

theorem declsOf_reverse (l : List Tdecl) :
    declsOf l.reverse = (declsOf l).reverse := filterMap_reverse

theorem decl_last {s : σ} {l : List Tdecl} {kn : KnownMap}
    (h : Trans.decl k exn fn s ⟨.decl d :: l, kn⟩ = .ok t') :
    ∃ s₁ outs s₂ dl rest, outputs fn s (declsOf l).reverse = .ok (s₁, outs) ∧
      fn s₁ d = .ok (s₂, dl) ∧ t'.tdecls = (dl.map Tdecl.decl).reverse ++ rest ∧
        declsOf rest = outs.reverse := by
  obtain ⟨⟨s₂, t₂⟩, hfold, h⟩ := bind_eq_ok.1 h
  cases h
  rw [reverse_cons, foldlM_append] at hfold
  obtain ⟨⟨s₁, t₁⟩, h₁, hlast⟩ := bind_eq_ok.1 hfold
  rw [foldlM_cons] at hlast
  obtain ⟨x, hx, hnil⟩ := bind_eq_ok.1 hlast
  cases hnil
  obtain ⟨dl, hfn, ht'⟩ := declStep_decl hx
  obtain ⟨outs, houts, hdecls⟩ := foldlM_declStep h₁
  rw [declsOf_reverse] at houts
  exact ⟨s₁, outs, s₂, dl, t₁.tdecls, houts, hfn, ht', hdecls.trans (append_nil _)⟩

/-- One more declaration at the end. -/
theorem outputs_append {s s₁ : σ} {ds : List Decl} {outs : List Decl}
    (h : outputs fn s (ds ++ [d]) = .ok (s₁, outs)) : ∃ s₀ outs₀ dl,
      outputs fn s ds = .ok (s₀, outs₀) ∧ fn s₀ d = .ok (s₁, dl) ∧ outs = outs₀ ++ dl := by
  induction ds generalizing s outs with
  | nil =>
    obtain ⟨⟨s', dl⟩, hfn, h⟩ := bind_eq_ok.1 h
    cases h
    exact ⟨s, [], dl, rfl, hfn, by simp⟩
  | cons d' ds ih =>
    obtain ⟨⟨s', dl'⟩, hfn', h⟩ := bind_eq_ok.1 h
    obtain ⟨⟨s'', outs'⟩, hrest, h⟩ := bind_eq_ok.1 h
    cases h
    obtain ⟨s₀, outs₀, dl, houts, hfn, rfl⟩ := ih hrest
    exact ⟨s₀, dl' ++ outs₀, dl, bind_eq_ok.2 ⟨_, hfn', bind_eq_ok.2 ⟨_, houts, rfl⟩⟩, hfn,
      (append_assoc _ _ _).symm⟩

end Trans

end Why3
