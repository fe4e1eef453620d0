import Why3.Mlw.Kode
import Why3.Core.FunctionSpaces

/-!
# Moving code to the exit points

`reflow` of `mlw/vc.ml`.  A first pass counts the exit points of every outcome,
removes the code that follows none, and marks the code that follows a single one;
a second pass moves the marked code to that point.
-/

namespace Why3.Vc

inductive ReflowExn
  /-- `Cannot switch to the classical WP procedure`. -/
  | cannotSwitch
  | assertFalse
deriving DecidableEq

/-- `Mint.union join`: an outcome of both sides has several exit points. -/
def joinOuts (out1 out2 : Mint Bool) : Mint Bool := out1.union (fun _ _ _ => false) out2

/-- The kodes that end normally in one way. -/
def Kode.isStep : Kode → Bool
  | .khavoc _ _ | .klet _ _ _ | .kval _ _ | .kcut _ => true
  | _ => false

/-- The tag is the one of the current generator. -/
def KTag.isVc : KTag → KTag → Bool
  | .kwp, .kwp | .ksp, .ksp => true
  | _, _ => false

mutual
/-- `mark`: for each outcome, whether there is a single exit point. -/
def mark (vcTag : KTag) : Kode → Except ReflowExn (Kode × Mint Bool)
  | .kseq k1 i k2 =>
    if k1.isStep && i = 0 then do
      let (k2, out2) ← mark vcTag k2
      .ok (.kseq k1 0 k2, out2)
    else do
      let (k1, out1) ← mark vcTag k1
      match out1.find? i with
      | some push => do
        let (k2, out2) ← mark vcTag k2
        let k2 := if !push then k2 else .ktag (.kpush (out2.find? 0).isNone) k2
        .ok (.kseq k1 i k2, joinOuts (out1.remove i) out2)
      | none => .ok (k1, out1)
  | .kpar k1 k2 => do
    let (k1, out1) ← mark vcTag k1
    let (k2, out2) ← mark vcTag k2
    .ok (.kpar k1 k2, joinOuts out1 out2)
  | .kif v k1 k2 => do
    let (k1, out1) ← mark vcTag k1
    let (k2, out2) ← mark vcTag k2
    .ok (.kif v k1 k2, joinOuts out1 out2)
  | .kcase v bl => do
    let (bl, out) ← markBranches vcTag bl
    .ok (.kcase v bl, out)
  | .khavoc wr attrs => .ok (.khavoc wr attrs, .singleton 0 true)
  | .klet v t f => .ok (.klet v t f, .singleton 0 true)
  | .kval vl f => .ok (.kval vl f, .singleton 0 true)
  | .kcut f => .ok (.kcut f, .singleton 0 true)
  | .kstop f => .ok (.kstop f, .empty)
  | .kcont i => .ok (.kcont i, .singleton i true)
  | .kAxiom k => do
    let (k, _) ← mark .kwp k
    .ok (.kAxiom k, .singleton 0 true)
  | .ktag (.koff expl) k => do
    let (k, out) ← mark vcTag k
    .ok (.ktag (.koff expl) k, out)
  | .ktag .kwp k =>
    if KTag.kwp.isVc vcTag then mark vcTag k
    else do
      let (k, out) ← mark .kwp k
      if out.entries ≠ [] then .error .cannotSwitch
      else .ok (.ktag (.kout out) (.ktag .kwp k), out.map (fun _ => false))
  | .ktag .ksp k =>
    if KTag.ksp.isVc vcTag then mark vcTag k
    else do
      let (k, out) ← mark .ksp k
      .ok (.ktag (.kout out) (.ktag .ksp k), out.map (fun _ => false))
  | .ktag (.kout _) _ | .ktag (.kpush _) _ => .error .assertFalse
def markBranches (vcTag : KTag) :
    List (Pattern × Kode) → Except ReflowExn (List (Pattern × Kode) × Mint Bool)
  | [] => .ok ([], .empty)
  | (p, k1) :: bl => do
    let (bl, out2) ← markBranches vcTag bl
    let (k1, out1) ← mark vcTag k1
    .ok ((p, k1) :: bl, joinOuts out1 out2)
end

attribute [grind =] mark markBranches

/-- The code after a step that ends normally. -/
def pushStep (k : Kode) (q : Mint (Kode × Bool)) : Kode :=
  match q.find? 0 with
  | some (q, _) => .kseq k 0 q
  | none => k

/-- The pushed code is closed: it does not end normally. -/
def isClosed (cl : Bool) (q : Mint (Kode × Bool)) : Bool :=
  cl || match q.find? 0 with
    | some (_, cl) => cl
    | none => false

mutual
/-- `push`: `q` gives the code to move for an outcome, and whether it is closed. -/
def push (k : Kode) (q : Mint (Kode × Bool)) : Except ReflowExn Kode :=
  match k with
  | .kseq k1 i (.ktag (.kpush cl) k2) => do
    let cl := isClosed cl q
    let k2 ← push k2 q
    let q := q.add i (k2, cl)
    let k1 ← push k1 q
    -- an open handler ends by raising its outcome again, which is caught here
    if i = 0 || cl then .ok k1 else .ok (.kseq k1 i (.kcont 0))
  | .kseq k1 i k2 => do
    let k1 ← push k1 (q.remove i)
    let k2 ← push k2 q
    .ok (.kseq k1 i k2)
  | .kpar k1 k2 => do
    let k1 ← push k1 q
    let k2 ← push k2 q
    .ok (.kpar k1 k2)
  | .kif v k1 k2 => do
    let k1 ← push k1 q
    let k2 ← push k2 q
    .ok (.kif v k1 k2)
  | .kcase v bl => do
    let bl ← pushBranches bl q
    .ok (.kcase v bl)
  | .khavoc wr attrs => .ok (pushStep (.khavoc wr attrs) q)
  | .klet v t f => .ok (pushStep (.klet v t f) q)
  | .kval vl f => .ok (pushStep (.kval vl f) q)
  | .kcut f => .ok (pushStep (.kcut f) q)
  | .kstop f => .ok (.kstop f)
  | .kcont i =>
    match q.find? i with
    | some (q, cl) => .ok (if i = 0 || cl then q else .kseq q 0 (.kcont i))
    | none => .ok (.kcont i)
  | .kAxiom k => do
    let k ← push k .empty
    .ok (pushStep (.kAxiom k) q)
  | .ktag (.koff expl) k => do
    let k ← push k q
    .ok (.ktag (.koff expl) k)
  | .ktag .kwp k => do
    let k ← push k .empty
    .ok (.ktag .kwp k)
  | .ktag .ksp k => do
    let k ← push k .empty
    .ok (.ktag .ksp k)
  | .ktag (.kout out) k => do
    let k ← push k .empty
    .ok (.ktag (.kout out) k)
  | .ktag (.kpush _) _ => .error .assertFalse
def pushBranches (bl : List (Pattern × Kode)) (q : Mint (Kode × Bool)) :
    Except ReflowExn (List (Pattern × Kode)) :=
  match bl with
  | [] => .ok []
  | (p, k) :: bl => do
    let k ← push k q
    let bl ← pushBranches bl q
    .ok ((p, k) :: bl)
end

attribute [grind =] push pushBranches

/-- `reflow`. -/
def reflow (vcWp : Bool) (k : Kode) : Except ReflowExn Kode := do
  let k := if vcWp then k else .ktag .ksp k
  let (k, _) ← mark .kwp k
  push k .empty

end Why3.Vc

/-!
# Moving code keeps the executions

The code that a kode is followed by is given, for each outcome, by a map; pushing
this code into the kode is the same as handling its outcomes with it.  A handler
is caught by nothing on its way, as its outcomes are not those of other handlers.
-/

namespace Why3.Vc

open Outcomes List Option Function TagMap

variable {i j : ℕ} {O : Set ℕ}

/-! ## Numbers of handlers -/

namespace Kode

mutual
/-- The outcomes that are handled inside a kode. -/
def handlers : Kode → List ℕ
  | .kseq k1 i k2 => i :: (k1.handlers ++ k2.handlers)
  | .kpar k1 k2 | .kif _ k1 k2 => k1.handlers ++ k2.handlers
  | .kcase _ bl => handlersBranches bl
  | .kAxiom k | .ktag _ k => k.handlers
  | .khavoc _ _ | .klet _ _ _ | .kval _ _ | .kcut _ | .kstop _ | .kcont _ => []
def handlersBranches : List (Pattern × Kode) → List ℕ
  | [] => []
  | (_, k) :: bl => k.handlers ++ handlersBranches bl
end

attribute [grind =] handlers handlersBranches

mutual
/-- An exception is raised in the code that its handler handles only. -/
def Scoped : Kode → Prop
  | .kseq k1 i k2 => k1.Scoped ∧ k2.Scoped ∧ ∀ j ∈ i :: k1.handlers, j ≠ 0 → j ∉ k2.outs
  | .kpar k1 k2 | .kif _ k1 k2 => k1.Scoped ∧ k2.Scoped
  | .kcase _ bl => ScopedBranches bl
  | .kAxiom k | .ktag _ k => k.Scoped
  | .khavoc _ _ | .klet _ _ _ | .kval _ _ | .kcut _ | .kstop _ | .kcont _ => True
def ScopedBranches : List (Pattern × Kode) → Prop
  | [] => True
  | (_, k) :: bl => k.Scoped ∧ ScopedBranches bl
end

attribute [grind =] Scoped ScopedBranches

mutual
/-- A kode before the first pass: without the tags that the passes add. -/
def Source : Kode → Prop
  | .kseq k1 _ k2 | .kpar k1 k2 | .kif _ k1 k2 => k1.Source ∧ k2.Source
  | .kcase _ bl => SourceBranches bl
  | .kAxiom k | .ktag (.koff _) k | .ktag .kwp k | .ktag .ksp k => k.Source
  | .ktag (.kout _) _ | .ktag (.kpush _) _ => False
  | .khavoc _ _ | .klet _ _ _ | .kval _ _ | .kcut _ | .kstop _ | .kcont _ => True
def SourceBranches : List (Pattern × Kode) → Prop
  | [] => True
  | (_, k) :: bl => k.Source ∧ SourceBranches bl
end

attribute [grind =] Source SourceBranches

mutual
/-- A kode without the mark of code to move. -/
def NoPush : Kode → Prop
  | .kseq k1 _ k2 | .kpar k1 k2 | .kif _ k1 k2 => k1.NoPush ∧ k2.NoPush
  | .kcase _ bl => NoPushBranches bl
  | .kAxiom k | .ktag (.koff _) k | .ktag .kwp k | .ktag .ksp k | .ktag (.kout _) k => k.NoPush
  | .ktag (.kpush _) _ => False
  | .khavoc _ _ | .klet _ _ _ | .kval _ _ | .kcut _ | .kstop _ | .kcont _ => True
def NoPushBranches : List (Pattern × Kode) → Prop
  | [] => True
  | (_, k) :: bl => k.NoPush ∧ NoPushBranches bl
end

attribute [grind =] NoPush NoPushBranches

/-- The kode is not code to move. -/
def IsPush (k : Kode) : Prop := ∃ cl k', k = .ktag (.kpush cl) k'

end Kode

/-! ## Joined outcomes -/

variable {out1 out2 : Mint Bool}

theorem find?_joinOuts : (joinOuts out1 out2).find? j = match out1.find? j, out2.find? j with
      | none, o => o
      | some x, none => some x
      | some _, some _ => some false := by
  rw [joinOuts, find?_union]
  cases out1.find? j <;> cases out2.find? j <;> rfl

theorem joinOuts_ne_false (h : (joinOuts out1 out2).find? j ≠ some false) :
    out1.find? j ≠ some false ∧ out2.find? j ≠ some false := by
  rw [find?_joinOuts] at h
  cases h1 : out1.find? j <;> cases h2 : out2.find? j <;> simp_all

theorem joinOuts_isSome :
    ((joinOuts out1 out2).find? j).isSome ↔ (out1.find? j).isSome ∨ (out2.find? j).isSome := by
  rw [find?_joinOuts]
  cases out1.find? j <;> cases out2.find? j <;> simp

/-- The outcomes that are counted. -/
def counted (out : Mint Bool) : Set ℕ := {j | (out.find? j).isSome}

theorem counted_joinOuts (out1 out2 : Mint Bool) :
    counted (joinOuts out1 out2) = counted out1 ∪ counted out2 := by
  ext j
  exact joinOuts_isSome

theorem counted_singleton (i : ℕ) (b : Bool) : counted (.singleton i b) = {i} := by
  ext j
  show ((TagMap.singleton i b).find? j).isSome = true ↔ j = i
  rw [TagMap.find?_singleton]
  split <;> simp_all

theorem counted_remove (i : ℕ) (out : Mint Bool) : counted (out.remove i) = counted out \ {i} := by
  ext j
  show ((out.remove i).find? j).isSome = true ↔ (out.find? j).isSome = true ∧ j ≠ i
  rw [find?_remove]
  split <;> simp_all

theorem counted_map (out : Mint Bool) (f : Bool → Bool) : counted (out.map f) = counted out := by
  ext j
  show ((out.map f).find? j).isSome = true ↔ (out.find? j).isSome = true
  rw [TagMap.find?_map, isSome_map]

/-! ## Code to move -/

/-- Nothing that is moved is marked. -/
def Clean (q : Mint (Kode × Bool)) : Prop := ∀ j x, q.find? j = some x → x.1.NoPush

theorem clean_empty : Clean .empty := fun _ _ h => by cases h

variable {q : Mint (Kode × Bool)}

theorem Clean.remove (h : Clean q) (i : ℕ) : Clean (q.remove i) := by
  intro j x hj
  rw [find?_remove] at hj
  split at hj
  · cases hj
  · exact h j x hj

theorem Clean.add {q : Mint (Kode × Bool)} (h : Clean q) {i : ℕ} {k : Kode} {cl : Bool}
    (hk : k.NoPush) : Clean (q.add i (k, cl)) := by
  intro j x hj
  rw [find?_add] at hj
  split at hj
  · obtain rfl := some.inj hj
    exact hk
  · exact h j x hj

/-- Only outcomes with a single exit point are moved to. -/
def Allowed (q : Mint (Kode × Bool)) (out : Mint Bool) : Prop :=
  ∀ j x, q.find? j = some x → out.find? j ≠ some false

theorem allowed_empty (out : Mint Bool) : Allowed .empty out := fun _ _ h => by cases h

theorem Allowed.join (h : Allowed q (joinOuts out1 out2)) : Allowed q out1 ∧ Allowed q out2 :=
  ⟨fun j x hj => (joinOuts_ne_false (h j x hj)).1, fun j x hj => (joinOuts_ne_false (h j x hj)).2⟩

variable {sig : TySymbol → List LSymbol} {I : Interp sig} (H : Writes → State I → State I → Prop)

/-- The moved code ends with the given outcomes, and not normally where it is closed. -/
structure Movable (q : Mint (Kode × Bool)) (O : Set ℕ) : Prop where
  within : ∀ j x, q.find? j = some x → Within (exec H x.1) O
  closed : ∀ j x, q.find? j = some x → x.2 = true → Within (exec H x.1) {0}ᶜ

/-- What follows an outcome: an open handler raises its outcome again at its end. -/
def after (q : Mint (Kode × Bool)) (j : ℕ) : Prog (State I) :=
  match q.find? j with
  | none => cont j
  | some (c, cl) => if j = 0 ∨ cl = true then exec H c else seq (exec H c) 0 (cont j)

theorem after_of_none (h : q.find? j = none) : after H q j = cont j := by
  rw [after, h]

theorem after_empty : after H .empty = cont := funext fun j => after_of_none H (find?_empty j)

variable {H}

theorem movable_empty : Movable H .empty ∅ where
  within := by
    rintro j x ⟨⟩
  closed := by
    rintro j x ⟨⟩

theorem Movable.remove (h : Movable H q O) (i : ℕ) : Movable H (q.remove i) O := by
  have hof : ∀ j x, (q.remove i).find? j = some x → q.find? j = some x := by
    intro j x hj
    rw [find?_remove] at hj
    split at hj
    · cases hj
    · exact hj
  exact ⟨fun j x hj => h.within j x (hof j x hj), fun j x hj => h.closed j x (hof j x hj)⟩

theorem Movable.add {q : Mint (Kode × Bool)} {O O' : Set ℕ} (h : Movable H q O) {i : ℕ} {c : Kode}
    {cl : Bool} (hO : O ⊆ O') (hc : Within (exec H c) O')
    (hcl : cl = true → Within (exec H c) {0}ᶜ) : Movable H (q.add i (c, cl)) O' := by
  refine ⟨fun j x hj => ?_, fun j x hj => ?_⟩
  · rw [find?_add] at hj
    split at hj
    · obtain rfl := some.inj hj
      exact hc
    · exact (h.within j x hj).mono hO
  · rw [find?_add] at hj
    split at hj
    · obtain rfl := some.inj hj
      exact hcl
    · exact h.closed j x hj

theorem within_after (h : Movable H q O) (j : ℕ) : Within (after H q j) (insert j O) := by
  unfold after
  split
  · exact (within_cont j).mono (fun i hi => .inl hi)
  · next c cl hc =>
      have hw := h.within j (c, cl) hc
      split
      · exact hw.mono (Set.subset_insert j O)
      · refine (within_seq hw (within_cont j)).mono ?_
        rintro i (hi | hi)
        · exact .inr hi.1
        · exact .inl hi

theorem within_after_exn (h : Movable H q O) (hj : j = 0 → ∃ x, q.find? 0 = some x ∧ x.2 = true) :
    Within (after H q j) {0}ᶜ := by
  unfold after
  split
  · next hn =>
      refine (within_cont j).mono ?_
      rintro i rfl rfl
      obtain ⟨x, hx, -⟩ := hj rfl
      rw [hn] at hx
      cases hx
  · next c cl hc =>
      split
      · next hcl =>
          refine h.closed j (c, cl) hc ?_
          rcases hcl with rfl | hcl
          · obtain ⟨x, hx, hcl⟩ := hj rfl
            rw [hc] at hx
            exact (some.inj hx) ▸ hcl
          · exact hcl
      · next hcl =>
          refine (within_seq (h.within j (c, cl) hc) (within_cont j)).mono ?_
          rintro i (hi | rfl) rfl
          · exact hi.2 rfl
          · exact hcl (.inl rfl)

/-! ## The second pass -/

variable {k1 k2 : Kode}

/-- Code that is not marked is not moved. -/
theorem push_kseq (h : ¬ k2.IsPush) : push (.kseq k1 i k2) q = (do
      let k1 ← push k1 (q.remove i)
      let k2 ← push k2 q
      .ok (.kseq k1 i k2)) := by
  cases k2 with
  | ktag tag k2 =>
    cases tag with
    | kpush cl => exact absurd ⟨cl, k2, rfl⟩ h
    | _ => simp only [push]
  | _ => simp only [push]

variable {k : Kode}

theorem push_step (h : k.isStep = true) (q : Mint (Kode × Bool)) :
    push k q = .ok (pushStep k q) := by
  cases k <;> first | exact absurd h Bool.false_ne_true | simp only [push]

theorem noPush_of_isStep (h : k.isStep = true) : k.NoPush ∧ ¬ k.IsPush := by
  refine ⟨?_, ?_⟩
  · cases k <;> first | exact absurd h Bool.false_ne_true | exact trivial
  · rintro ⟨cl, k', rfl⟩
    cases h

theorem noPush_pushStep (h : Clean q) (hk : k.NoPush) : (pushStep k q).NoPush := by
  unfold pushStep
  split
  · next c _ hc => exact ⟨hk, h 0 _ hc⟩
  · exact hk

theorem exec_pushStep (q : Mint (Kode × Bool)) (hk : Within (exec H k) {0}) :
    exec H (pushStep k q) = handle (after H q) (exec H k) := by
  unfold pushStep
  cases hq : q.find? 0 with
  | none =>
    refine (handle_eq_self hk ?_).symm
    rintro j rfl
    exact after_of_none H hq
  | some x =>
    rw [exec, seq]
    refine handle_congr hk ?_
    rintro j rfl
    rw [update_self, after, hq]
    exact (if_pos (.inl rfl)).symm

/-! ## Both passes -/

/-- The moved code does not raise what the kode handles. -/
def Fresh (k : Kode) (O : Set ℕ) : Prop := ∀ j ∈ k.handlers, j ≠ 0 → j ∉ O

theorem Fresh.mono {k' : Kode} (h : Fresh k O) (hk : ∀ j ∈ k'.handlers, j ∈ k.handlers) :
    Fresh k' O :=
  fun j hj hj0 => h j (hk j hj) hj0

/-- The first pass gives `m` with the outcomes `out`, and the second one moves code into it. -/
structure Reflowed (k m : Kode) (out : Mint Bool) : Prop where
  outs : ∀ j ∈ counted out, j ∈ k.outs
  within : ∀ {sig} {I : Interp sig} (H), Within (exec (I := I) H k) (counted out)
  notPush : ¬ m.IsPush
  push : ∀ q, Clean q → ∃ m', push m q = .ok m' ∧ m'.NoPush ∧
    ∀ {sig} {I : Interp sig} (H) (O), Movable (I := I) H q O → Allowed q out → Fresh k O →
      exec H m' = handle (after H q) (exec H k)

variable {m : Kode} {out : Mint Bool}

theorem Reflowed.push_empty (h : Reflowed k m out) : ∃ m', Vc.push m .empty = .ok m' ∧ m'.NoPush ∧
      ∀ {sig} {I : Interp sig} (H), exec (I := I) H m' = exec H k := by
  obtain ⟨m', hm, hno, he⟩ := h.push .empty clean_empty
  refine ⟨m', hm, hno, fun H => ?_⟩
  rw [he H ∅ movable_empty (allowed_empty out) (fun j _ _ => id), after_empty, handle_cont]

theorem not_isPush (h : ∀ tag k', k ≠ .ktag tag k') : ¬ k.IsPush := by
  rintro ⟨cl, k', rfl⟩
  exact h _ _ rfl

theorem within_exec_step (h : k.isStep = true) : Within (exec H k) {0} := by
  refine (within_exec H k).mono ?_
  intro j hj
  cases k <;> first | exact absurd h Bool.false_ne_true | exact mem_singleton.mp hj

theorem reflowed_step (h : k.isStep = true) : Reflowed k k (.singleton 0 true) where
  outs := by
    rw [counted_singleton]
    rintro j rfl
    cases k <;> first | exact absurd h Bool.false_ne_true | exact mem_singleton_self 0
  within := by
    intro sig I H
    rw [counted_singleton]
    exact within_exec_step h
  notPush := (noPush_of_isStep h).2
  push := by
    intro q hq
    refine ⟨_, push_step h q, noPush_pushStep hq (noPush_of_isStep h).1, ?_⟩
    intro sig I H O _ _ _
    exact exec_pushStep q (within_exec_step h)

theorem reflowed_kstop (f : Term) : Reflowed (.kstop f) (.kstop f) .empty where
  outs := by
    rintro j ⟨⟩
  within := by
    intro sig I H
    rw [exec]
    exact (within_stop _).mono (Set.empty_subset _)
  notPush := not_isPush (by rintro _ _ ⟨⟩)
  push := by
    intro q _
    refine ⟨.kstop f, by rw [Vc.push], trivial, ?_⟩
    intro sig I H O _ _ _
    rw [exec, handle_stop]

theorem reflowed_kcont (i : ℕ) : Reflowed (.kcont i) (.kcont i) (.singleton i true) where
  outs := by
    rw [counted_singleton]
    rintro j rfl
    exact mem_singleton_self j
  within := by
    intro sig I H
    rw [counted_singleton, exec]
    exact within_cont i
  notPush := not_isPush (by rintro _ _ ⟨⟩)
  push := by
    intro q hq
    rw [Vc.push]
    cases hi : q.find? i with
    | none =>
      refine ⟨_, rfl, trivial, ?_⟩
      intro sig I H O _ _ _
      rw [exec, handle_of_cont, after_of_none H hi]
    | some x =>
      obtain ⟨c, cl⟩ := x
      refine ⟨_, rfl, ?_, ?_⟩
      · have hc := hq i _ hi
        split
        · exact hc
        · rw [Kode.NoPush]
          exact ⟨hc, by rw [Kode.NoPush]; trivial⟩
      · intro sig I H O _ _ _
        rw [exec, handle_of_cont, after, hi]
        simp only [Bool.or_eq_true, decide_eq_true_eq]
        split
        · rfl
        · rw [exec, exec]

theorem reflowed_kAxiom (h : Reflowed k m out) :
    Reflowed (.kAxiom k) (.kAxiom m) (.singleton 0 true) where
  outs := by
    rw [counted_singleton]
    rintro j rfl
    exact mem_singleton_self 0
  within := by
    intro sig I H
    rw [counted_singleton, exec]
    exact within_step _
  notPush := not_isPush (by rintro _ _ ⟨⟩)
  push := by
    intro q hq
    obtain ⟨m', hm, hno, he⟩ := h.push_empty
    refine ⟨pushStep (.kAxiom m') q, ?_, noPush_pushStep hq hno, ?_⟩
    · rw [Vc.push, hm]
      rfl
    · intro sig I H O _ _ _
      have hk : exec H (.kAxiom m') = exec H (.kAxiom k) := by
        rw [exec, exec, he H]
      rw [exec_pushStep q, hk]
      rw [exec]
      exact within_step _

/-- Nothing is moved under another generator. -/
theorem reflowed_switch {tag : KTag} (h : Reflowed k m out) (htag : tag = .kwp ∨ tag = .ksp) :
    Reflowed (.ktag tag k) (.ktag (.kout out) (.ktag tag m)) (out.map (fun _ => false)) where
  outs := by
    rw [counted_map]
    exact h.outs
  within := by
    intro sig I H
    rw [counted_map, exec]
    exact h.within H
  notPush := by
    rintro ⟨cl, k', hk⟩
    cases hk
  push := by
    intro q hq
    obtain ⟨m', hm, hno, he⟩ := h.push_empty
    refine ⟨.ktag (.kout out) (.ktag tag m'), ?_, ?_, ?_⟩
    · rcases htag with rfl | rfl <;>
      · rw [Vc.push, Vc.push, hm]
        rfl
    · rcases htag with rfl | rfl <;> exact hno
    · intro sig I H O _ hall _
      rw [exec, exec, exec, he H]
      refine (handle_eq_self (h.within H) fun j hj => ?_).symm
      cases hq : q.find? j with
      | none => exact after_of_none H hq
      | some x =>
        refine absurd ?_ (hall j x hq)
        obtain ⟨b, hb⟩ := isSome_iff_exists.mp hj
        rw [TagMap.find?_map, hb]
        rfl

theorem reflowed_tag (tag : KTag) (h : Reflowed k m out) : Reflowed (.ktag tag k) m out where
  outs := h.outs
  within := by
    intro sig I H
    rw [exec]
    exact h.within H
  notPush := h.notPush
  push := by
    intro q hq
    obtain ⟨m', hm, hno, he⟩ := h.push q hq
    refine ⟨m', hm, hno, ?_⟩
    intro sig I H O hmov hall hfresh
    rw [exec, he H O hmov hall (hfresh.mono fun j hj => hj)]

theorem reflowed_koff (expl : String) (h : Reflowed k m out) :
    Reflowed (.ktag (.koff expl) k) (.ktag (.koff expl) m) out where
  outs := h.outs
  within := by
    intro sig I H
    rw [exec]
    exact h.within H
  notPush := by
    rintro ⟨cl, k', hk⟩
    cases hk
  push := by
    intro q hq
    obtain ⟨m', hm, hno, he⟩ := h.push q hq
    refine ⟨.ktag (.koff expl) m', ?_, hno, ?_⟩
    · rw [Vc.push, hm]
      rfl
    · intro sig I H O hmov hall hfresh
      rw [exec, exec]
      exact he H O hmov hall (hfresh.mono fun j hj => hj)

variable {m1 m2 : Kode}

theorem outs_joinOuts {l1 l2 : List ℕ} (h1 : ∀ j ∈ counted out1, j ∈ l1)
    (h2 : ∀ j ∈ counted out2, j ∈ l2) : ∀ j ∈ counted (joinOuts out1 out2), j ∈ l1 ++ l2 := by
  rw [counted_joinOuts]
  rintro j (hj | hj)
  · exact mem_append_left _ (h1 j hj)
  · exact mem_append_right _ (h2 j hj)

theorem reflowed_kpar (h1 : Reflowed k1 m1 out1) (h2 : Reflowed k2 m2 out2) :
    Reflowed (.kpar k1 k2) (.kpar m1 m2) (joinOuts out1 out2) where
  outs := outs_joinOuts h1.outs h2.outs
  within := by
    intro sig I H
    rw [counted_joinOuts, exec]
    exact within_choice (h1.within H) (h2.within H)
  notPush := not_isPush (by rintro _ _ ⟨⟩)
  push := by
    intro q hq
    obtain ⟨m1', hm1, hno1, he1⟩ := h1.push q hq
    obtain ⟨m2', hm2, hno2, he2⟩ := h2.push q hq
    refine ⟨.kpar m1' m2', ?_, ⟨hno1, hno2⟩, ?_⟩
    · rw [Vc.push, hm1, hm2]
      rfl
    · intro sig I H O hmov hall hfresh
      rw [exec, exec, handle_choice,
        he1 H O hmov hall.join.1 (hfresh.mono fun j hj => mem_append_left _ hj),
        he2 H O hmov hall.join.2 (hfresh.mono fun j hj => mem_append_right _ hj)]

theorem reflowed_kif (v : PvSymbol) (h1 : Reflowed k1 m1 out1) (h2 : Reflowed k2 m2 out2) :
    Reflowed (.kif v k1 k2) (.kif v m1 m2) (joinOuts out1 out2) where
  outs := outs_joinOuts h1.outs h2.outs
  within := by
    intro sig I H
    rw [counted_joinOuts, exec]
    exact within_branch (h1.within H) (h2.within H)
  notPush := not_isPush (by rintro _ _ ⟨⟩)
  push := by
    intro q hq
    obtain ⟨m1', hm1, hno1, he1⟩ := h1.push q hq
    obtain ⟨m2', hm2, hno2, he2⟩ := h2.push q hq
    refine ⟨.kif v m1' m2', ?_, ⟨hno1, hno2⟩, ?_⟩
    · rw [Vc.push, hm1, hm2]
      rfl
    · intro sig I H O hmov hall hfresh
      rw [exec, exec, handle_branch,
        he1 H O hmov hall.join.1 (hfresh.mono fun j hj => mem_append_left _ hj),
        he2 H O hmov hall.join.2 (hfresh.mono fun j hj => mem_append_right _ hj)]

/-! ## Sequences -/

theorem counted_kseq (i : ℕ) (out1 out2 : Mint Bool) :
    counted (joinOuts (out1.remove i) out2) = counted out1 \ {i} ∪ counted out2 := by
  rw [counted_joinOuts, counted_remove]

theorem outs_kseq (h1 : Reflowed k1 m1 out1) (h2 : Reflowed k2 m2 out2) :
    ∀ j ∈ counted (joinOuts (out1.remove i) out2), j ∈ (Kode.kseq k1 i k2).outs := by
  rw [counted_kseq]
  rintro j (⟨hj, hji⟩ | hj)
  · exact mem_append_left _ (mem_filter.mpr ⟨h1.outs j hj, by simpa using hji⟩)
  · exact mem_append_right _ (h2.outs j hj)

theorem Fresh.left (h : Fresh (.kseq k1 i k2) O) :
    Fresh k1 O := h.mono fun _ hj => mem_cons_of_mem i (mem_append_left _ hj)

theorem Fresh.right (h : Fresh (.kseq k1 i k2) O) :
    Fresh k2 O := h.mono fun _ hj => mem_cons_of_mem i (mem_append_right _ hj)

theorem Allowed.left (h : Allowed q (joinOuts (out1.remove i) out2)) {x : Kode × Bool}
    (hj : q.find? j = some x) (hji : j ≠ i) : out1.find? j ≠ some false := by
  have hne := h.join.1 j x hj
  rwa [find?_remove, if_neg hji] at hne

/-- What follows an outcome of a sequence does not meet its handler. -/
theorem within_after_ne (hmov : Movable H q O) (hi : i ≠ 0 → i ∉ O) (hj : j ≠ i) :
    Within (after H q j) {i}ᶜ := by
  by_cases hi0 : i = 0
  · subst hi0
    exact within_after_exn hmov (fun hj0 => absurd hj0 hj)
  · refine (within_after hmov j).mono ?_
    rintro l (rfl | hl) rfl
    · exact hj rfl
    · exact hi hi0 hl

variable {p : Prog (State I)}

theorem seq_eq_self {q : Prog (State I)} (h : Within p {i}ᶜ) : seq p i q = p :=
  handle_eq_self h fun _ hj => update_of_ne hj _ _

theorem handle_after_seq (p1 p2 : Prog (State I)) (i : ℕ) : handle (after H q) (seq p1 i p2) =
      handle (update (after H q) i (handle (after H q) p2)) p1 := by
  rw [seq, handle_handle]
  congr 1
  funext j
  by_cases hj : j = i
  · subst hj
    rw [update_self, update_self]
  · rw [update_of_ne hj, update_of_ne hj, handle_of_cont]

theorem reflowed_kseq_step (hstep : k1.isStep = true) (h2 : Reflowed k2 m2 out2) :
    Reflowed (.kseq k1 0 k2) (.kseq k1 0 m2) out2 where
  outs := fun j hj => mem_append_right _ (h2.outs j hj)
  within := by
    intro sig I H
    rw [exec]
    refine (within_seq (within_exec_step hstep) (h2.within H)).mono ?_
    rintro j (hj | hj)
    · exact absurd hj.1 hj.2
    · exact hj
  notPush := not_isPush (by rintro _ _ ⟨⟩)
  push := by
    intro q hq
    obtain ⟨m2', hm2, hno2, he2⟩ := h2.push q hq
    have hid : pushStep k1 (q.remove 0) = k1 := by
      rw [pushStep, find?_remove, if_pos rfl]
    refine ⟨.kseq k1 0 m2', ?_, ⟨(noPush_of_isStep hstep).1, hno2⟩, ?_⟩
    · rw [push_kseq h2.notPush, push_step hstep, hid, hm2]
      rfl
    · intro sig I H O hmov hall hfresh
      rw [exec, exec, handle_after_seq, he2 H O hmov hall hfresh.right, seq]
      refine handle_congr (within_exec_step hstep) ?_
      rintro j rfl
      rw [update_self, update_self]

/-- Code that follows no exit point is removed. -/
theorem reflowed_kseq_dead (h1 : Reflowed k1 m1 out1) (hi : out1.find? i = none) :
    Reflowed (.kseq k1 i k2) m1 out1 := by
  have hne : counted out1 ⊆ {i}ᶜ := by
    rintro j hj rfl
    rw [counted, Set.mem_ofPred_eq, hi] at hj
    cases hj
  have he : ∀ {sig} {I : Interp sig} (H), exec (I := I) H (.kseq k1 i k2) = exec H k1 := by
    intro sig I H
    rw [exec]
    exact seq_eq_self ((h1.within H).mono hne)
  refine ⟨fun j hj => ?_, fun H => ?_, h1.notPush, fun q hq => ?_⟩
  · exact mem_append_left _ (mem_filter.mpr ⟨h1.outs j hj, by simpa using hne hj⟩)
  · rw [he]
    exact h1.within H
  · obtain ⟨m1', hm1, hno1, he1⟩ := h1.push q hq
    refine ⟨m1', hm1, hno1, ?_⟩
    intro sig I H O hmov hall hfresh
    rw [he, he1 H O hmov hall hfresh.left]

/-- Code that follows several exit points stays. -/
theorem reflowed_kseq_stay (h1 : Reflowed k1 m1 out1) (h2 : Reflowed k2 m2 out2) :
    Reflowed (.kseq k1 i k2) (.kseq m1 i m2) (joinOuts (out1.remove i) out2) where
  outs := outs_kseq h1 h2
  within := by
    intro sig I H
    rw [exec, counted_kseq]
    exact within_seq (h1.within H) (h2.within H)
  notPush := not_isPush (by rintro _ _ ⟨⟩)
  push := by
    intro q hq
    obtain ⟨m1', hm1, hno1, he1⟩ := h1.push _ (hq.remove i)
    obtain ⟨m2', hm2, hno2, he2⟩ := h2.push q hq
    refine ⟨.kseq m1' i m2', ?_, ⟨hno1, hno2⟩, ?_⟩
    · rw [push_kseq h2.notPush, hm1, hm2]
      rfl
    · intro sig I H O hmov hall hfresh
      have hallr : Allowed (q.remove i) out1 := by
        intro j x hj
        rw [find?_remove] at hj
        split at hj
        · cases hj
        · next hji => exact hall.left hj hji
      rw [exec, he1 H O (hmov.remove i) hallr hfresh.left, he2 H O hmov hall.join.2 hfresh.right,
        exec, handle_after_seq, seq, handle_handle]
      congr 1
      funext j
      by_cases hj : j = i
      · subst hj
        rw [update_self, after_of_none H, handle_of_cont, update_self]
        rw [find?_remove, if_pos rfl]
      · have hsame : after H (q.remove i) j = after H q j := by
          rw [after, after, find?_remove, if_neg hj]
        rw [update_of_ne hj, hsame]
        exact seq_eq_self (within_after_ne hmov (hfresh i mem_cons_self) hj)

theorem within_handle_after (hmov : Movable H q O) {O' : Set ℕ} (hp : Within p O') :
    Within (handle (after H q) p) (O ∪ O') := by
  refine (within_handle hp fun j _ => within_after hmov j).mono ?_
  intro l hl
  obtain ⟨j, hj, rfl | hl⟩ := Set.mem_iUnion₂.mp hl
  · exact .inr hj
  · exact .inl hl

theorem within_closed (hmov : Movable H q O) (hp : Within p (counted out))
    (hcl : isClosed (out.find? 0).isNone q = true) : Within (handle (after H q) p) {0}ᶜ := by
  have hj : ∀ j ∈ counted out, Within (after H q j) {0}ᶜ := by
    intro j hj
    refine within_after_exn hmov ?_
    rintro rfl
    rw [isClosed, Bool.or_eq_true, isNone_iff_eq_none] at hcl
    rcases hcl with hn | hcl
    · rw [counted, Set.mem_ofPred_eq, hn] at hj
      cases hj
    · cases hq : q.find? 0 with
      | none => rw [hq] at hcl; cases hcl
      | some x =>
        rw [hq] at hcl
        exact ⟨x, rfl, hcl⟩
  refine (within_handle hp hj).mono ?_
  intro l hl
  obtain ⟨j, -, hl⟩ := Set.mem_iUnion₂.mp hl
  exact hl

/-- Code that follows a single exit point is moved there. -/
theorem reflowed_kseq_push (h1 : Reflowed k1 m1 out1) (h2 : Reflowed k2 m2 out2)
    (hi : out1.find? i = some true) (hscope : ∀ j ∈ i :: k1.handlers, j ≠ 0 → j ∉ k2.outs) :
    Reflowed (.kseq k1 i k2) (.kseq m1 i (.ktag (.kpush (out2.find? 0).isNone) m2))
      (joinOuts (out1.remove i) out2) where
  outs := outs_kseq h1 h2
  within := by
    intro sig I H
    rw [exec, counted_kseq]
    exact within_seq (h1.within H) (h2.within H)
  notPush := not_isPush (by rintro _ _ ⟨⟩)
  push := by
    intro q hq
    obtain ⟨m2', hm2, hno2, he2⟩ := h2.push q hq
    set cl := isClosed (out2.find? 0).isNone q with hcl
    obtain ⟨m1', hm1, hno1, he1⟩ := h1.push (q.add i (m2', cl)) (hq.add hno2)
    refine ⟨if i = 0 || cl then m1' else .kseq m1' i (.kcont 0), ?_, ?_, ?_⟩
    · rw [Vc.push, hm2]
      simp only [Bind.bind, Except.bind]
      rw [← hcl, hm1]
      simp only
      split <;> rfl
    · split
      · exact hno1
      · exact ⟨hno1, trivial⟩
    · intro sig I H O hmov hall hfresh
      have hX := he2 H O hmov hall.join.2 hfresh.right
      have hin : Within (exec H m2') (O ∪ counted out2) := by
        rw [hX]
        exact within_handle_after hmov (h2.within H)
      have hout : ∀ j ∈ i :: k1.handlers, j ≠ 0 → j ∉ O ∪ counted out2 := by
        rintro j hj hj0 (hjO | hj2)
        · refine hfresh j ?_ hj0 hjO
          rcases mem_cons.mp hj with rfl | hj
          · exact mem_cons_self
          · exact mem_cons_of_mem i (mem_append_left _ hj)
        · exact hscope j hj hj0 (h2.outs j hj2)
      have hmov' : Movable H (q.add i (m2', cl)) (O ∪ counted out2) := by
        refine hmov.add Set.subset_union_left hin fun hc => ?_
        rw [hX]
        exact within_closed hmov (h2.within H) (hcl ▸ hc)
      have hall' : Allowed (q.add i (m2', cl)) out1 := by
        intro j x hj
        rw [find?_add] at hj
        split at hj
        · next hji =>
            rw [hji, hi]
            rintro ⟨⟩
        · next hji => exact hall.left hj hji
      have he := he1 H _ hmov' hall' fun j hj => hout j (mem_cons_of_mem i hj)
      have hold : ∀ {j}, j ≠ i → after H (q.add i (m2', cl)) j = after H q j := by
        intro j hj
        rw [after, after, find?_add_of_ne hj]
      have hnew : after H (q.add i (m2', cl)) i =
          if i = 0 ∨ cl = true then exec H m2' else seq (exec H m2') 0 (cont i) := by
        rw [after, find?_add_self]
      rw [exec, handle_after_seq, ← hX]
      by_cases hopen : i = 0 ∨ cl = true
      · rw [if_pos (by simpa using hopen), he]
        congr 1
        funext j
        by_cases hj : j = i
        · subst hj
          rw [hnew, if_pos hopen, update_self]
        · rw [hold hj, update_of_ne hj]
      · -- the handler raises again, and the outcome becomes the normal one
        rw [if_neg (by simpa using hopen), exec, exec, he, seq, handle_handle]
        congr 1
        funext j
        by_cases hj : j = i
        · subst hj
          rw [hnew, if_neg hopen, update_self, seq, handle_handle]
          refine handle_eq_self hin fun l hl => ?_
          by_cases hl0 : l = 0
          · subst hl0
            rw [update_self, handle_of_cont, update_self]
          · rw [update_of_ne hl0, handle_of_cont, update_of_ne]
            rintro rfl
            exact hout l mem_cons_self hl0 hl
        · rw [hold hj, update_of_ne hj]
          exact seq_eq_self (within_after_ne hmov (hfresh i mem_cons_self) hj)

/-! ## Matchings -/

/-- As for a kode, for the branches of a matching. -/
structure ReflowedBranches (bl bm : List (Pattern × Kode)) (out : Mint Bool) : Prop where
  outs : ∀ j ∈ counted out, j ∈ Kode.outsBranches bl
  within : ∀ {sig} {I : Interp sig} (H) (d), Within (execBranches (I := I) H bl d) (counted out)
  push : ∀ q, Clean q → ∃ bm', pushBranches bm q = .ok bm' ∧ Kode.NoPushBranches bm' ∧
    ∀ {sig} {I : Interp sig} (H) (O), Movable (I := I) H q O → Allowed q out →
      (∀ j ∈ Kode.handlersBranches bl, j ≠ 0 → j ∉ O) →
        ∀ d, execBranches H bm' d = handle (after H q) (execBranches H bl d)

theorem reflowedBranches_nil : ReflowedBranches [] [] .empty where
  outs := by
    rintro j ⟨⟩
  within := by
    intro sig I H d s i s' h
    rw [execBranches] at h
    exact absurd h id
  push := by
    intro q _
    refine ⟨[], by rw [pushBranches], by rw [Kode.NoPushBranches]; trivial, ?_⟩
    intro sig I H O _ _ _ d
    rw [execBranches]
    funext s r
    simp [handle]

theorem handle_exists (h : ℕ → Prog (State I)) (R : State I → State I → Prop) (p : Prog (State I)) :
    handle h (fun s r => ∃ s', R s s' ∧ p s' r) = fun s r => ∃ s', R s s' ∧ handle h p s' r := by
  funext s r
  refine propext ⟨?_, ?_⟩
  · rintro (⟨⟨s₁, hR, hp⟩, hr⟩ | ⟨i, s', ⟨s₁, hR, hp⟩, hh⟩)
    · exact ⟨s₁, hR, .inl ⟨hp, hr⟩⟩
    · exact ⟨s₁, hR, .inr ⟨i, s', hp, hh⟩⟩
  · rintro ⟨s₁, hR, ⟨hp, hr⟩ | ⟨i, s', hp, hh⟩⟩
    · exact .inl ⟨⟨s₁, hR, hp⟩, hr⟩
    · exact .inr ⟨i, s', ⟨s₁, hR, hp⟩, hh⟩

theorem reflowedBranches_cons {p : Pattern} {bl bm : List (Pattern × Kode)} (h1 : Reflowed k m out1)
    (h2 : ReflowedBranches bl bm out2) :
    ReflowedBranches ((p, k) :: bl) ((p, m) :: bm) (joinOuts out1 out2) where
  outs := outs_joinOuts h1.outs h2.outs
  within := by
    intro sig I H d
    rw [counted_joinOuts, execBranches]
    split
    · rintro s i s' ⟨s₁, -, hr⟩
      exact .inl (h1.within H s₁ i s' hr)
    · exact (h2.within H d).mono Set.subset_union_right
  push := by
    intro q hq
    obtain ⟨m', hm, hno1, he1⟩ := h1.push q hq
    obtain ⟨bm', hbm, hno2, he2⟩ := h2.push q hq
    refine ⟨(p, m') :: bm', ?_, ⟨hno1, hno2⟩, ?_⟩
    · rw [pushBranches, hm, hbm]
      rfl
    · intro sig I H O hmov hall hfresh d
      rw [execBranches, execBranches]
      split
      · next bs _ =>
          rw [handle_exists _ (fun s s' => s'.1 = bindAll s.1 bs),
            he1 H O hmov hall.join.1 fun j hj => hfresh j (mem_append_left _ hj)]
      · exact he2 H O hmov hall.join.2 (fun j hj => hfresh j (mem_append_right _ hj)) d

theorem reflowed_kcase {bl bm : List (Pattern × Kode)} (v : PvSymbol)
    (h : ReflowedBranches bl bm out) : Reflowed (.kcase v bl) (.kcase v bm) out where
  outs := h.outs
  within := by
    intro sig I H s i s' hr
    rw [exec] at hr
    exact h.within H (s.1 v.pvVs) s i s' hr
  notPush := not_isPush (by rintro _ _ ⟨⟩)
  push := by
    intro q hq
    obtain ⟨bm', hbm, hno, he⟩ := h.push q hq
    refine ⟨.kcase v bm', ?_, hno, ?_⟩
    · rw [Vc.push, hbm]
      rfl
    · intro sig I H O hmov hall hfresh
      funext s r
      rw [exec, exec]
      simp only [he H O hmov hall hfresh]
      rfl

/-! ## The passes together -/

/-- The first pass refuses to switch, or gives a kode that can be reflowed. -/
theorem mark_reflowed : k.Source → k.Scoped → ∀ vcTag,
    mark vcTag k = .error .cannotSwitch ∨
      ∃ m out, mark vcTag k = .ok (m, out) ∧ Reflowed k m out := by
  induction k with
  | kseq k1 i k2 ih1 ih2 =>
    rintro ⟨h1, h2⟩ ⟨hs1, hs2, hscope⟩ vcTag
    rw [mark]
    split
    · next hstep =>
        rw [Bool.and_eq_true, decide_eq_true_eq] at hstep
        obtain ⟨hk1, rfl⟩ := hstep
        obtain h | ⟨m2, out2, h, hm2⟩ := ih2 h2 hs2 vcTag
        · exact .inl (by rw [h]; rfl)
        · exact .inr ⟨_, _, by rw [h]; rfl, reflowed_kseq_step hk1 hm2⟩
    · obtain h | ⟨m1, out1, h, hm1⟩ := ih1 h1 hs1 vcTag
      · exact .inl (by rw [h]; rfl)
      · simp only [h, Bind.bind, Except.bind]
        cases hout : out1.find? i with
        | none => exact .inr ⟨m1, out1, rfl, reflowed_kseq_dead hm1 hout⟩
        | some b =>
          obtain h | ⟨m2, out2, h, hm2⟩ := ih2 h2 hs2 vcTag
          · exact .inl (by simp only [h])
          · simp only [h]
            cases b with
            | false => exact .inr ⟨_, _, rfl, reflowed_kseq_stay hm1 hm2⟩
            | true => exact .inr ⟨_, _, rfl, reflowed_kseq_push hm1 hm2 hout hscope⟩
  | kpar k1 k2 ih1 ih2 =>
    rintro ⟨h1, h2⟩ ⟨hs1, hs2⟩ vcTag
    rw [mark]
    obtain h | ⟨m1, out1, h, hm1⟩ := ih1 h1 hs1 vcTag
    · exact .inl (by rw [h]; rfl)
    · obtain h' | ⟨m2, out2, h', hm2⟩ := ih2 h2 hs2 vcTag
      · exact .inl (by rw [h, h']; rfl)
      · exact .inr ⟨_, _, by rw [h, h']; rfl, reflowed_kpar hm1 hm2⟩
  | kif v k1 k2 ih1 ih2 =>
    rintro ⟨h1, h2⟩ ⟨hs1, hs2⟩ vcTag
    rw [mark]
    obtain h | ⟨m1, out1, h, hm1⟩ := ih1 h1 hs1 vcTag
    · exact .inl (by rw [h]; rfl)
    · obtain h' | ⟨m2, out2, h', hm2⟩ := ih2 h2 hs2 vcTag
      · exact .inl (by rw [h, h']; rfl)
      · exact .inr ⟨_, _, by rw [h, h']; rfl, reflowed_kif v hm1 hm2⟩
  | kcase v bl ih =>
    intro hsrc hscope vcTag
    have hbl : markBranches vcTag bl = .error .cannotSwitch ∨
        ∃ bm out, markBranches vcTag bl = .ok (bm, out) ∧ ReflowedBranches bl bm out := by
      rw [Kode.Source] at hsrc
      rw [Kode.Scoped] at hscope
      induction bl with
      | nil => exact .inr ⟨[], .empty, by rw [markBranches], reflowedBranches_nil⟩
      | cons b bl ihl =>
        obtain ⟨p, k⟩ := b
        rw [forall_mem_cons] at ih
        rw [markBranches]
        obtain h | ⟨bm, out2, h, hbm⟩ := ihl ih.2 hsrc.2 hscope.2
        · exact .inl (by rw [h]; rfl)
        · obtain h' | ⟨m, out1, h', hm⟩ := ih.1 hsrc.1 hscope.1 vcTag
          · exact .inl (by rw [h, h']; rfl)
          · exact .inr ⟨_, _, by rw [h, h']; rfl, reflowedBranches_cons hm hbm⟩
    rw [mark]
    obtain h | ⟨bm, out, h, hbm⟩ := hbl
    · exact .inl (by rw [h]; rfl)
    · exact .inr ⟨_, _, by rw [h]; rfl, reflowed_kcase v hbm⟩
  | khavoc wr attrs | klet v t f | kval vl f | kcut f => exact fun _ _ vcTag => .inr ⟨_, _, by rw [mark], reflowed_step rfl⟩
  | kstop f => exact fun _ _ vcTag => .inr ⟨_, _, by rw [mark], reflowed_kstop f⟩
  | kcont i => exact fun _ _ vcTag => .inr ⟨_, _, by rw [mark], reflowed_kcont i⟩
  | kAxiom k ih =>
    intro hsrc hscope vcTag
    rw [mark]
    obtain h | ⟨m, out, h, hm⟩ := ih hsrc hscope .kwp
    · exact .inl (by rw [h]; rfl)
    · exact .inr ⟨_, _, by rw [h]; rfl, reflowed_kAxiom hm⟩
  | ktag tag k ih =>
    intro hsrc hscope vcTag
    cases tag with
    | koff expl =>
      rw [mark]
      obtain h | ⟨m, out, h, hm⟩ := ih hsrc hscope vcTag
      · exact .inl (by rw [h]; rfl)
      · exact .inr ⟨_, _, by rw [h]; rfl, reflowed_koff expl hm⟩
    | kwp =>
      rw [mark]
      split
      · obtain h | ⟨m, out, h, hm⟩ := ih hsrc hscope vcTag
        · exact .inl h
        · exact .inr ⟨m, out, h, reflowed_tag .kwp hm⟩
      · obtain h | ⟨m, out, h, hm⟩ := ih hsrc hscope .kwp
        · exact .inl (by rw [h]; rfl)
        · simp only [h, Bind.bind, Except.bind]
          split
          · exact .inl rfl
          · exact .inr ⟨_, _, rfl, reflowed_switch hm (.inl rfl)⟩
    | ksp =>
      rw [mark]
      split
      · obtain h | ⟨m, out, h, hm⟩ := ih hsrc hscope vcTag
        · exact .inl h
        · exact .inr ⟨m, out, h, reflowed_tag .ksp hm⟩
      · obtain h | ⟨m, out, h, hm⟩ := ih hsrc hscope .ksp
        · exact .inl (by rw [h]; rfl)
        · exact .inr ⟨_, _, by rw [h]; rfl, reflowed_switch hm (.inr rfl)⟩
    | kout out => exact absurd hsrc id
    | kpush cl => exact absurd hsrc id

/-- `reflow` refuses to switch to the classical procedure, or gives a kode without
marks that has the same executions, whatever a write does. -/
theorem reflow_correct (vcWp : Bool) (k : Kode) (hsrc : k.Source) (hscope : k.Scoped) :
    reflow vcWp k = .error .cannotSwitch ∨
      ∃ k', reflow vcWp k = .ok k' ∧ k'.NoPush ∧
        ∀ {sig : TySymbol → List LSymbol} {I : Interp sig}
          (H : Writes → State I → State I → Prop),
          exec H k' = exec H k ∧
            ∀ (Q : ℕ → State I → Prop) (s : State I), wp (exec H k') Q s ↔ wp (exec H k) Q s := by
  have hstart : ∃ k0 : Kode, (if vcWp then k else .ktag .ksp k) = k0 ∧ k0.Source ∧ k0.Scoped ∧
      ∀ {sig} {I : Interp sig} (H), exec (I := I) H k0 = exec H k := by
    cases vcWp with
    | true => exact ⟨k, rfl, hsrc, hscope, fun _ => rfl⟩
    | false => exact ⟨.ktag .ksp k, rfl, hsrc, hscope, fun H => by rw [exec]⟩
  obtain ⟨k0, hk0, hsrc0, hscope0, he0⟩ := hstart
  have hrun : reflow vcWp k = (do
      let (k, _) ← mark .kwp k0
      push k .empty) := by
    rw [reflow, hk0]
  rw [hrun]
  obtain h | ⟨m, out, h, hm⟩ := mark_reflowed hsrc0 hscope0 .kwp
  · exact .inl (by rw [h]; rfl)
  · obtain ⟨k', hk', hno, he⟩ := hm.push_empty
    refine .inr ⟨k', ?_, hno, fun H => ?_⟩
    · rw [h]
      exact hk'
    · have hkk := (he H).trans (he0 H)
      exact ⟨hkk, fun Q s => by rw [hkk]⟩

/-- A handler with a single exit point, which ends by raising the outcome again. -/
def openHandler : Kode :=
  .kseq (.kpar (.kseq (.kcont 5) 0 (.kcont 0)) (.kcont 0)) 5 (.kcut (.ttrue []))

theorem reflow_openHandler : ∃ k', reflow true openHandler = .ok k' ∧ k'.NoPush ∧
    ∀ {sig : TySymbol → List LSymbol} {I : Interp sig} (H : Writes → State I → State I → Prop),
      exec H k' = exec H openHandler := by
  have hscope : openHandler.Scoped := by
    simp [openHandler, Kode.Scoped, Kode.handlers, Kode.outs]
  obtain h | ⟨k', h, hno, he⟩ := reflow_correct true openHandler
    ⟨⟨⟨trivial, trivial⟩, trivial⟩, trivial⟩ hscope
  · have hok : reflow true openHandler = .ok _ := rfl
    rw [hok] at h
    cases h
  · exact ⟨k', h, hno, fun H => (he H).1⟩

theorem nonempty_state (I : Interp sig) : Nonempty (State I) :=
  ⟨fun v => (I.inhabited v.vsTy).choose, fun v => (I.inhabited v.vsTy).choose_spec⟩

/-- The outcome 7 is handled inside and raised by the code that is moved there. -/
def captured : Kode := .kseq (.kseq (.kpar (.kcont 5) (.kcont 7)) 7 (.kcont 0)) 5 (.kcont 7)

/-- Code that raises an outcome can be moved under a handler of this outcome. -/
theorem reflow_captures : ¬ ∀ (vcWp : Bool) (k : Kode), k.Source →
    reflow vcWp k = .error .cannotSwitch ∨ ∃ k', reflow vcWp k = .ok k' ∧ k'.NoPush ∧
      ∀ {sig : TySymbol → List LSymbol} {I : Interp sig} (H : Writes → State I → State I → Prop)
        (Q : ℕ → State I → Prop) (s : State I), wp (exec H k') Q s ↔ wp (exec H k) Q s := by
  intro hall
  have hrun : reflow true captured =
      .ok (.kseq (.kpar (.kcont 7) (.kseq (.kcont 0) 0 (.kcont 7))) 7 (.kcont 0)) := rfl
  obtain h | ⟨k', h, -, he⟩ := hall true captured ⟨⟨⟨trivial, trivial⟩, trivial⟩, trivial⟩
  · rw [hrun] at h
    cases h
  · rw [hrun] at h
    cases h
    obtain ⟨s⟩ := nonempty_state (FunSpace.interp (fun _ _ _ => False))
    have hw := he (fun _ _ _ => False) (fun i _ => i = 0) s
    simp [captured, exec, wp_seq] at hw

end Why3.Vc
