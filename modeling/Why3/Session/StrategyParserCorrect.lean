import Why3.Lib.Lookup
import Why3.Session.StrategyParser

/-!
# Parsed strategies

The labels of a text and the instructions between them, and what the parser makes of
them.  The table of labels knows for each label met so far the place of its definition, or
that there is none yet; temporary numbers are different for different labels.
-/

namespace Why3.Strategy

open Lookup Whyconf List

variable {F R : Type} {E : Env F R}

/-! ## The text -/

/-- An instruction as it is written. -/
inductive Written
  | goto (l : List Char)
  | call (args : List Args)
  | transform (t l : List Char)

inductive Item
  | label (l : List Char)
  | instr (w : Written)

def invokTokens (s : List Char) : Option (List Args × List Char) :=
  match _h : invokToken s with
  | none => none
  | some (a, rest) =>
    if a.sep then (invokTokens rest).map fun (args, rest) => (a :: args, rest)
    else some ([a], rest)
termination_by s.length
decreasing_by exact invokToken_lt _h

theorem invokTokens_lt {s s' : List Char} {args : List Args}
    (h : invokTokens s = some (args, s')) : s'.length < s.length := by
  fun_induction invokTokens s generalizing args with
  | case1 => cases h
  | case2 s a rest hi hsep ih =>
    obtain ⟨⟨args', s''⟩, hr, heq⟩ := Option.map_eq_some_iff.mp h
    cases heq
    exact (ih hr).trans (invokToken_lt hi)
  | case3 s a rest hi hsep =>
    cases h
    exact invokToken_lt hi

/-- The labels and the instructions of a text; `none` where the lexer finds neither. -/
def items (s : List Char) : Option (List Item) :=
  match _h : scanToken s with
  | .blank rest => items rest
  | .label id rest => (items rest).map (.label id :: ·)
  | .goto id rest => (items rest).map (.instr (.goto id) :: ·)
  | .call rest =>
    match _hi : invokTokens rest with
    | some (args, rest) => (items rest).map (.instr (.call args) :: ·)
    | none => none
  | .transform t l rest => (items rest).map (.instr (.transform t l) :: ·)
  | .char _ => none
  | .eof => some []
termination_by s.length
decreasing_by
  · exact scanToken_lt (_h ▸ rfl)
  · exact scanToken_lt (_h ▸ rfl)
  · exact scanToken_lt (_h ▸ rfl)
  · exact (invokTokens_lt _hi).trans (scanToken_lt (_h ▸ rfl))
  · exact scanToken_lt (_h ▸ rfl)

def labelsOf (its : List Item) : List (List Char) :=
  its.filterMap fun
    | .label l => some l
    | .instr _ => none

def instrsOf (its : List Item) : List Written :=
  its.filterMap fun
    | .label _ => none
    | .instr w => some w

/-- The place a label stands for: the number of the instruction behind its definition,
which is the only one. -/
def Target (its : List Item) (l : List Char) (n : ℤ) : Prop :=
  if l = exitLabel then n = -1
  else ∃ pre post, its = pre ++ .label l :: post ∧ l ∉ labelsOf pre ∧ l ∉ labelsOf post ∧
    n = (instrsOf pre).length

def Resolves (E : Env F R) (its : List Item) : Written → Instruction F ℤ → Prop
  | .goto l, .goto n => Target its l n
  | .call args, .callProver calls => args.map (callOf E) = calls.map .ok
  | .transform t l, .transform t' n => t = t' ∧ Target its l n
  | _, _ => False

/-- A syntax error, or the instructions of the text with their labels resolved. -/
def ParsesWell (E : Env F R) (s : List Char) : Prop :=
  (∃ msg, parse E s = .error (.syntaxError msg)) ∨
    ∃ its instrs, items s = some its ∧ parse E s = .ok instrs ∧
      List.Forall₂ (Resolves E its) (instrsOf its) instrs

section Items

variable {its : List Item} {l l' : List Char} {n : ℤ} {w : Written}

@[simp] theorem labelsOf_append_label : labelsOf (its ++ [.label l]) = labelsOf its ++ [l] := by
  simp [labelsOf]

@[simp] theorem labelsOf_append_instr : labelsOf (its ++ [.instr w]) = labelsOf its := by
  simp [labelsOf]

@[simp] theorem instrsOf_append_label : instrsOf (its ++ [.label l]) = instrsOf its := by
  simp [instrsOf]

@[simp] theorem instrsOf_append_instr : instrsOf (its ++ [.instr w]) = instrsOf its ++ [w] := by
  simp [instrsOf]

theorem Target.instr (h : Target its l n) (w : Written) : Target (its ++ [.instr w]) l n := by
  rw [Target] at h ⊢
  split_ifs at h ⊢ with hexit
  · exact h
  · obtain ⟨pre, post, rfl, hpre, hpost, hn⟩ := h
    refine ⟨pre, post ++ [.instr w], by simp, hpre, ?_, hn⟩
    rwa [labelsOf_append_instr]

theorem Target.label (h : Target its l n) (hne : l ≠ l') : Target (its ++ [.label l']) l n := by
  rw [Target] at h ⊢
  split_ifs at h ⊢ with hexit
  · exact h
  · obtain ⟨pre, post, rfl, hpre, hpost, hn⟩ := h
    refine ⟨pre, post ++ [.label l'], by simp, hpre, ?_, hn⟩
    rw [labelsOf_append_label, mem_append, mem_singleton, not_or]
    exact ⟨hpost, hne⟩

/-- A label that is defined where the text ends. -/
theorem target_last (hl : l ∉ labelsOf its) (hexit : l ≠ exitLabel) :
    Target (its ++ [.label l]) l (instrsOf its).length := by
  rw [Target, if_neg hexit]
  exact ⟨its, [], rfl, hl, not_mem_nil, rfl⟩

end Items

/-! ## The table of labels -/

/-- What the table says of a label, after some items. -/
def DefinedAs (its : List Item) (l : List Char) : Option ℤ → Prop
  | none => l ≠ exitLabel ∧ l ∉ labelsOf its
  | some n => Target its l n

/-- A temporary number in an instruction is the one of its label. -/
def HasTemporary (labels : List (List Char × Label)) (l : List Char) (t : ℕ) : Prop :=
  ∃ lab, (l, lab) ∈ labels ∧ lab.temporary = t

def Temporaries (E : Env F R) (labels : List (List Char × Label)) :
    Written → Instruction F ℕ → Prop
  | .goto l, .goto n => HasTemporary labels l n
  | .call args, .callProver calls => args.map (callOf E) = calls.map .ok
  | .transform t l, .transform t' n => t = t' ∧ HasTemporary labels l n
  | _, _ => False

structure CodeInv (E : Env F R) (its : List Item) (code : Code F) : Prop where
  next_eq : code.next = (instrsOf its).length
  next_le : code.next ≤ code.instr.length
  length_pos : 0 < code.instr.length
  instrs : List.Forall₂ (Temporaries E code.labels) (instrsOf its) (code.instr.take code.next)
  keys : (code.labels.map Prod.fst).Nodup
  temporaries : (code.labels.map fun e => e.2.temporary).Nodup
  temporary_lt : ∀ e ∈ code.labels, e.2.temporary < code.temp
  defined : ∀ e ∈ code.labels, DefinedAs its e.1 e.2.defined
  known : ∀ l ∈ labelsOf its, l ∈ code.labels.map Prod.fst
  exit_known : exitLabel ∈ code.labels.map Prod.fst

variable {its : List Item} {code code' : Code F} {l : List Char} {w : Written}

theorem codeInv_createCode : CodeInv E [] (createCode F) where
  next_eq := rfl
  next_le := Nat.zero_le _
  length_pos := by simp [createCode]
  instrs := .nil
  keys := nodup_singleton _
  temporaries := nodup_singleton _
  temporary_lt := by
    rintro e he
    rw [mem_singleton.mp he]
    exact one_pos
  defined := by
    rintro e he
    rw [mem_singleton.mp he]
    show Target [] exitLabel (-1)
    rw [Target, if_pos rfl]
  known _ h := absurd h not_mem_nil
  exit_known := mem_singleton_self _

variable {labels : List (List Char × Label)}

theorem Temporaries.mono {labels' : List (List Char × Label)} {i : Instruction F ℕ}
    (hmono : ∀ l t, HasTemporary labels l t → HasTemporary labels' l t)
    (h : Temporaries E labels w i) : Temporaries E labels' w i := by
  cases w <;> cases i
  case goto.goto => exact hmono _ _ h
  case call.callProver => exact h
  case transform.transform => exact ⟨h.1, hmono _ _ h.2⟩
  all_goals exact h

theorem CodeInv.addInstr {i : Instruction F ℕ} (h : CodeInv E its code)
    (hi : Temporaries E code.labels w i) : CodeInv E (its ++ [.instr w]) (addInstr code i) := by
  have hroom : code.next < (if code.next = code.instr.length then enlargeCode code
      else code).instr.length := by
    have := h.next_le
    have := h.length_pos
    split_ifs with hfull
    · rw [enlargeCode, length_append, length_replicate]
      omega
    · omega
  have htake : (if code.next = code.instr.length then enlargeCode code else code).instr.take
      code.next = code.instr.take code.next := by
    split_ifs with hfull
    · exact take_append_of_le_length h.next_le
    · rfl
  have hlabels : (Strategy.addInstr code i).labels = code.labels := by
    rw [Strategy.addInstr]
    dsimp only
    split_ifs <;> rfl
  have htemp : (Strategy.addInstr code i).temp = code.temp := by
    rw [Strategy.addInstr]
    dsimp only
    split_ifs <;> rfl
  constructor
  case next_eq =>
    rw [instrsOf_append_instr, length_append, length_singleton, ← h.next_eq]
    rfl
  case next_le =>
    rw [Strategy.addInstr]
    dsimp only
    rw [length_set]
    omega
  case length_pos =>
    rw [Strategy.addInstr]
    dsimp only
    rw [length_set]
    omega
  case instrs =>
    rw [hlabels, instrsOf_append_instr, Strategy.addInstr]
    dsimp only
    rw [take_add_one, take_set_of_le le_rfl, htake, getElem?_set_self hroom]
    exact rel_append h.instrs (.cons hi .nil)
  case keys => exact hlabels ▸ h.keys
  case temporaries => exact hlabels ▸ h.temporaries
  case temporary_lt =>
    rw [hlabels, htemp]
    exact h.temporary_lt
  case defined =>
    rw [hlabels]
    intro e he
    have hd := h.defined e he
    cases hdef : e.2.defined with
    | none =>
      rw [hdef] at hd
      exact ⟨hd.1, by rw [labelsOf_append_instr]; exact hd.2⟩
    | some n =>
      rw [hdef] at hd
      exact Target.instr hd w
  case known =>
    rw [hlabels, labelsOf_append_instr]
    exact h.known
  case exit_known => exact hlabels ▸ h.exit_known

/-- A label that is not in the table gets the next temporary number. -/
theorem CodeInv.addLabel {its' : List Item} {d : Option ℤ} (h : CodeInv E its code)
    (hl : l ∉ code.labels.map Prod.fst) (hinstrs : instrsOf its' = instrsOf its)
    (hlabels : ∀ l' ∈ labelsOf its', l' = l ∨ l' ∈ labelsOf its)
    (hdefined : ∀ e ∈ code.labels, DefinedAs its' e.1 e.2.defined) (hd : DefinedAs its' l d) :
    CodeInv E its' { code with
      labels := (l, ⟨d, code.temp⟩) :: code.labels
      temp := code.temp + 1 } where
  next_eq := hinstrs ▸ h.next_eq
  next_le := h.next_le
  length_pos := h.length_pos
  instrs := by
    rw [hinstrs]
    refine h.instrs.imp fun w i hi => hi.mono ?_
    rintro l' t ⟨lab, hmem, ht⟩
    exact ⟨lab, mem_cons_of_mem _ hmem, ht⟩
  keys := nodup_cons.mpr ⟨hl, h.keys⟩
  temporaries := by
    refine nodup_cons.mpr ⟨?_, h.temporaries⟩
    intro hmem
    obtain ⟨e, he, ht⟩ := mem_map.mp hmem
    exact absurd ht (h.temporary_lt e he).ne
  temporary_lt := by
    rintro e he
    rcases mem_cons.mp he with rfl | he
    · exact Nat.lt_succ_self _
    · exact (h.temporary_lt e he).trans (Nat.lt_succ_self _)
  defined := by
    rintro e he
    rcases mem_cons.mp he with rfl | he
    · exact hd
    · exact hdefined e he
  known := by
    intro l' hl'
    rcases hlabels l' hl' with rfl | hl'
    · exact mem_cons_self
    · exact mem_cons_of_mem _ (h.known l' hl')
  exit_known := mem_cons_of_mem _ h.exit_known

theorem CodeInv.findLabel (h : CodeInv E its code) (l : List Char) :
    CodeInv E its (findLabel code l).2 ∧
      HasTemporary (findLabel code l).2.labels l (findLabel code l).1 := by
  rw [Strategy.findLabel]
  cases hl : code.labels.lookup l with
  | some lab => exact ⟨h, lab, mem_of_lookup hl, rfl⟩
  | none =>
    have hnot := lookup_eq_none.mp hl
    refine ⟨h.addLabel hnot rfl (fun _ hl' => .inr hl') h.defined ⟨?_, ?_⟩,
      _, mem_cons_self, rfl⟩
    · rintro rfl
      exact hnot h.exit_known
    · exact fun hmem => hnot (h.known l hmem)

theorem mem_setDefined {n : ℤ} {e : List Char × Label} :
    e ∈ setDefined labels l n ↔ (e ∈ labels ∧ e.1 ≠ l) ∨
      ∃ lab, (l, lab) ∈ labels ∧ e = (l, { lab with defined := some n }) := by
  rw [setDefined, mem_map]
  constructor
  · rintro ⟨e', he', rfl⟩
    by_cases heq : e'.1 = l
    · subst heq
      exact .inr ⟨e'.2, he', if_pos rfl⟩
    · rw [if_neg heq]
      exact .inl ⟨he', heq⟩
  · rintro (⟨he, hne⟩ | ⟨lab, hlab, rfl⟩)
    · exact ⟨e, he, if_neg hne⟩
    · exact ⟨(l, lab), hlab, if_pos rfl⟩

theorem map_setDefined {A : Type} (f : List Char × Label → A) {n : ℤ}
    (hf : ∀ l lab, f (l, { lab with defined := some n }) = f (l, lab)) :
    (setDefined labels l n).map f = labels.map f := by
  rw [setDefined, map_map]
  apply map_congr_left
  intro e _
  dsimp only [Function.comp_apply]
  split_ifs
  · exact hf _ _
  · rfl

theorem DefinedAs.label {l' : List Char} {d : Option ℤ} (h : DefinedAs its l' d) (hne : l' ≠ l) :
    DefinedAs (its ++ [.label l]) l' d := by
  cases d with
  | none =>
    refine ⟨h.1, ?_⟩
    rw [labelsOf_append_label, mem_append, mem_singleton, not_or]
    exact ⟨h.2, hne⟩
  | some n => exact Target.label h hne

/-- The first definition of a label, which may have been met before. -/
theorem CodeInv.defineLabel (h : CodeInv E its code) (hd : defineLabel code l = .ok code') :
    CodeInv E (its ++ [.label l]) code' := by
  rw [Strategy.defineLabel] at hd
  cases hl : code.labels.lookup l with
  | none =>
    rw [hl] at hd
    obtain rfl := Except.ok.inj hd
    have hnot := lookup_eq_none.mp hl
    have hexit : l ≠ exitLabel := by
      rintro rfl
      exact hnot h.exit_known
    refine h.addLabel hnot instrsOf_append_label ?_ ?_ ?_
    · intro l' hl'
      rw [labelsOf_append_label, mem_append, mem_singleton] at hl'
      exact hl'.symm
    · intro e he
      exact (h.defined e he).label fun heq => hnot (heq ▸ mem_map_of_mem he)
    · rw [h.next_eq]
      exact target_last (fun hmem => hnot (h.known l hmem)) hexit
  | some lab =>
    rw [hl] at hd
    dsimp only at hd
    split_ifs at hd with hnone
    obtain rfl := Except.ok.inj hd
    have hmem := mem_of_lookup hl
    have hunique : ∀ lab', (l, lab') ∈ code.labels → lab' = lab := fun lab' h' =>
      Option.some.inj ((lookup_of_mem h.keys h').symm.trans hl)
    have hbefore := h.defined _ hmem
    rw [hnone] at hbefore
    have hkeys : (setDefined code.labels l code.next).map Prod.fst = code.labels.map Prod.fst :=
      map_setDefined _ fun _ _ => rfl
    have htemps : (setDefined code.labels l code.next).map (fun e => e.2.temporary)
        = code.labels.map fun e => e.2.temporary := map_setDefined _ fun _ _ => rfl
    constructor
    case next_eq =>
      rw [instrsOf_append_label]
      exact h.next_eq
    case next_le => exact h.next_le
    case length_pos => exact h.length_pos
    case instrs =>
      rw [instrsOf_append_label]
      refine h.instrs.imp fun w i hi => hi.mono ?_
      rintro l' t ⟨lab', hlab', ht⟩
      by_cases heq : l' = l
      · subst heq
        exact ⟨_, mem_setDefined.mpr (.inr ⟨lab', hlab', rfl⟩), ht⟩
      · exact ⟨lab', mem_setDefined.mpr (.inl ⟨hlab', heq⟩), ht⟩
    case keys => exact hkeys ▸ h.keys
    case temporaries => exact htemps ▸ h.temporaries
    case temporary_lt =>
      intro e he
      have hmem' := mem_map_of_mem (f := fun e : List Char × Label => e.2.temporary) he
      rw [htemps] at hmem'
      obtain ⟨e', he', heq⟩ := mem_map.mp hmem'
      exact heq ▸ h.temporary_lt e' he'
    case defined =>
      intro e he
      rcases mem_setDefined.mp he with ⟨he, hne⟩ | ⟨lab', -, rfl⟩
      · exact (h.defined e he).label hne
      · have := target_last hbefore.2 hbefore.1
        rwa [← h.next_eq] at this
    case known =>
      intro l' hl'
      show l' ∈ (setDefined code.labels l code.next).map Prod.fst
      rw [hkeys]
      rw [labelsOf_append_label, mem_append, mem_singleton] at hl'
      rcases hl' with hl' | rfl
      · exact h.known l' hl'
      · exact mem_map_of_mem hmem
    case exit_known => exact hkeys ▸ h.exit_known

/-! ## What a scan without an exception leaves -/

variable {s s' : List Char} {calls : List (Call F)}

theorem invok_ok (h : invok E s = .ok (calls, s')) :
    ∃ args, invokTokens s = some (args, s') ∧ args.map (callOf E) = calls.map .ok := by
  fun_induction invok E s generalizing calls with
  | case1 => cases h
  | case2 => cases h
  | case3 s a rest hi call hc hsep ih =>
    cases hr : invok E rest with
    | error e =>
      rw [hr] at h
      cases h
    | ok x =>
      obtain ⟨calls', s''⟩ := x
      rw [hr] at h
      cases h
      obtain ⟨args, hargs, hcalls⟩ := ih hr
      refine ⟨a :: args, ?_, ?_⟩
      · rw [invokTokens.eq_def, hi]
        dsimp only
        rw [if_pos hsep, hargs]
        rfl
      · rw [map_cons, map_cons, hc, hcalls]
  | case4 s a rest hi call hc hsep =>
    cases h
    refine ⟨[a], ?_, ?_⟩
    · rw [invokTokens.eq_def, hi]
      dsimp only
      rw [if_neg hsep]
    · rw [map_singleton, map_singleton, hc]

variable {length : ℕ}

/-- One step reads some items, and the code is that of the items read so far. -/
theorem scanStep_ok (hinv : CodeInv E its code)
    (h : scanStep E length code s = .ok (some (code', s'))) :
    ∃ new, items s = (items s').map (new ++ ·) ∧ CodeInv E (its ++ new) code' := by
  rw [items.eq_def]
  rw [scanStep.eq_def] at h
  split at h
  · next rest ht =>
      cases h
      refine ⟨[], ?_, by rwa [append_nil]⟩
      rw [ht]
      simp
  · next id rest ht =>
      cases hd : defineLabel code id with
      | error e =>
        rw [hd] at h
        cases h
      | ok code₁ =>
        rw [hd] at h
        cases h
        refine ⟨[.label id], ?_, hinv.defineLabel hd⟩
        rw [ht]
        rfl
  · next id rest ht =>
      cases h
      obtain ⟨hinv', htemp⟩ := hinv.findLabel id
      refine ⟨[.instr (.goto id)], ?_, hinv'.addInstr htemp⟩
      rw [ht]
      rfl
  · next rest ht =>
      cases hi : invok E rest with
      | error e =>
        rw [hi] at h
        cases h
      | ok x =>
        obtain ⟨calls, s''⟩ := x
        rw [hi] at h
        cases h
        obtain ⟨args, hargs, hcalls⟩ := invok_ok hi
        refine ⟨[.instr (.call args)], ?_, hinv.addInstr hcalls⟩
        rw [ht]
        dsimp only
        rw [hargs]
        rfl
  · next t l rest ht =>
      cases htr : transform E t with
      | error e =>
        rw [htr] at h
        cases h
      | ok u =>
        rw [htr] at h
        cases h
        obtain ⟨hinv', htemp⟩ := hinv.findLabel l
        refine ⟨[.instr (.transform t l)], ?_, hinv'.addInstr ⟨rfl, htemp⟩⟩
        rw [ht]
        rfl
  · cases h
  · cases h

theorem scanStep_none (h : scanStep E length code s = .ok none) : scanToken s = .eof := by
  rw [scanStep.eq_def] at h
  split at h
  · cases h
  · next id rest ht =>
      cases hd : defineLabel code id <;> rw [hd] at h <;> cases h
  · cases h
  · next rest ht =>
      cases hi : invok E rest <;> rw [hi] at h <;> cases h
  · next t l rest ht =>
      cases htr : transform E t <;> rw [htr] at h <;> cases h
  · cases h
  · next ht => exact ht

theorem scan_ok (hinv : CodeInv E its code) (h : scan E length code s = .ok code') :
    ∃ more, items s = some more ∧ CodeInv E (its ++ more) code' := by
  fun_induction scan E length code s generalizing its with
  | case1 => cases h
  | case2 code s hs =>
    cases h
    refine ⟨[], ?_, by rwa [append_nil]⟩
    rw [items.eq_def, scanStep_none hs]
  | case3 code s code₁ rest hs ih =>
    obtain ⟨new, hnew, hinv₁⟩ := scanStep_ok hinv hs
    obtain ⟨more, hmore, hinv'⟩ := ih hinv₁ h
    refine ⟨new ++ more, ?_, ?_⟩
    · rw [hnew, hmore, Option.map_some]
    · rwa [← append_assoc]

/-! ## Labels resolved -/

variable {label : List ℤ}

/-- What the array holds for each label of a table. -/
theorem foldlM_fill {label' : List ℤ} (hnd : (labels.map fun e => e.2.temporary).Nodup)
    (hlt : ∀ e ∈ labels, e.2.temporary < label.length)
    (h : (labels.foldlM fill label : Except (Exn F) (List ℤ)) = .ok label') :
    (∀ e ∈ labels, ∃ n, e.2.defined = some n ∧ label'[e.2.temporary]? = some n) ∧
      ∀ t, (∀ e ∈ labels, e.2.temporary ≠ t) → label'[t]? = label[t]? := by
  induction labels generalizing label with
  | nil =>
    cases h
    exact ⟨fun e he => absurd he not_mem_nil, fun t _ => rfl⟩
  | cons e labels ih =>
    obtain ⟨l, lab⟩ := e
    rw [map_cons, nodup_cons] at hnd
    rw [foldlM_cons, fill] at h
    dsimp only at h
    cases hd : lab.defined with
    | none =>
      rw [hd] at h
      cases h
    | some n =>
      rw [hd] at h
      have hlt' : ∀ e ∈ labels, e.2.temporary < (label.set lab.temporary n).length := by
        intro e he
        rw [length_set]
        exact hlt e (mem_cons_of_mem _ he)
      obtain ⟨hall, hother⟩ := ih hnd.2 hlt' h
      have hne : ∀ e ∈ labels, e.2.temporary ≠ lab.temporary := fun e he heq =>
        hnd.1 (heq ▸ mem_map_of_mem (f := fun e : List Char × Label => e.2.temporary) he)
      constructor
      · intro e he
        rcases mem_cons.mp he with rfl | he
        · refine ⟨n, hd, ?_⟩
          rw [hother _ hne, getElem?_set_self (hlt _ mem_cons_self)]
        · exact hall e he
      · intro t ht
        rw [hother t fun e he => ht e (mem_cons_of_mem _ he),
          getElem?_set_ne (ht _ mem_cons_self)]

theorem labelArray_ok (hinv : CodeInv E its code) (h : labelArray E code = .ok label) :
    ∀ e ∈ code.labels, ∃ n, Target its e.1 n ∧ label[e.2.temporary]? = some n := by
  have hperm := E.hashtblIter_perm code.labels
  obtain ⟨hall, -⟩ := foldlM_fill ((hperm.map _).nodup_iff.mpr hinv.temporaries) (fun e he => by
    rw [length_replicate]
    exact hinv.temporary_lt e (hperm.mem_iff.mp he)) h
  intro e he
  obtain ⟨n, hn, hget⟩ := hall e (hperm.mem_iff.mpr he)
  have hd := hinv.defined e he
  rw [hn] at hd
  exact ⟨n, hd, hget⟩

theorem mapM_solve {ws : List Written} {instrs : List (Instruction F ℕ)}
    (hlabel : ∀ e ∈ labels, ∃ n, Target its e.1 n ∧ label[e.2.temporary]? = some n)
    (h : List.Forall₂ (Temporaries E labels) ws instrs) :
    ∃ instrs', instrs.mapM (solve label) = .ok instrs' ∧
      List.Forall₂ (Resolves E its) ws instrs' := by
  have hsolve : ∀ w i, Temporaries E labels w i →
      ∃ i', solve label i = .ok i' ∧ Resolves E its w i' := by
    intro w i hi
    cases w <;> cases i
    case goto.goto l t =>
      obtain ⟨lab, hmem, rfl⟩ := hi
      obtain ⟨n, hn, hget⟩ := hlabel _ hmem
      refine ⟨.goto n, ?_, hn⟩
      rw [solve, hget]
    case call.callProver args calls => exact ⟨_, rfl, hi⟩
    case transform.transform t l t' k =>
      obtain ⟨rfl, lab, hmem, rfl⟩ := hi
      obtain ⟨n, hn, hget⟩ := hlabel _ hmem
      refine ⟨.transform t n, ?_, rfl, hn⟩
      rw [solve, hget]
    all_goals exact hi.elim
  induction h with
  | nil => exact ⟨[], rfl, .nil⟩
  | cons hi _ ih =>
    obtain ⟨i', hi', hr⟩ := hsolve _ _ hi
    obtain ⟨instrs', hm, hrs⟩ := ih
    refine ⟨i' :: instrs', ?_, .cons hr hrs⟩
    rw [mapM_cons, hi', hm]
    rfl

/-! ## Exceptions -/

/-- The arguments of a call at the start of a text. -/
def WellFormedCall (E : Env F R) (s : List Char) : Prop :=
  ∃ a rest, invokToken s = some (a, rest) ∧ DescriptionOk E.regexps E.whyconf a.prover

/-- The texts at which the arguments of a call are read, one call after the other. -/
inductive InvokReaches (E : Env F R) : List Char → List Char → Prop
  | refl (s : List Char) : InvokReaches E s s
  | sep {s rest s' : List Char} {a : Args} {call : Call F} :
      invokToken s = some (a, rest) → a.sep = true → callOf E a = .ok call →
      InvokReaches E rest s' → InvokReaches E s s'

/-- Looking the transformation up raises nothing but `UnknownTrans`. -/
def LookupOk (E : Env F R) (t : List Char) : Prop :=
  E.lookupTransform t ≠ .raises ∧
    (E.lookupTransform t = .unknownTrans → E.lookupTransformL t ≠ .raises)

/-- What stands where the next instruction is read. -/
def PlaceOk (E : Env F R) (s : List Char) : Prop :=
  (∀ rest, scanToken s = .call rest → ∀ s', InvokReaches E rest s' → WellFormedCall E s') ∧
    ∀ t l rest, scanToken s = .transform t l rest → LookupOk E t

/-- The texts that the scan of a text reaches. -/
inductive Scans (E : Env F R) (length : ℕ) : Code F → List Char → List Char → Prop
  | refl (code : Code F) (s : List Char) : Scans E length code s s
  | step {code code' : Code F} {s rest s' : List Char} :
      scanStep E length code s = .ok (some (code', rest)) → Scans E length code' rest s' →
      Scans E length code s s'

/-- Every call that the parser reaches has well-formed arguments, and every transformation
it reaches can be looked up. -/
def CallsOk (E : Env F R) (s : List Char) : Prop :=
  ∀ s', Scans E s.length (createCode F) s s' → PlaceOk E s'

/-- No exception but a syntax error. -/
def OnlySyntax {A : Type} (x : Except (Exn F) A) : Prop :=
  ∀ e, x = .error e → ∃ msg, e = .syntaxError msg

section OnlySyntax

variable {A B : Type} {x : Except (Exn F) A}

theorem onlySyntax_ok {a : A} : OnlySyntax (.ok a : Except (Exn F) A) := by
  rintro e ⟨⟩

theorem onlySyntax_error {e : Exn F} :
    OnlySyntax (.error e : Except (Exn F) A) ↔ ∃ msg, e = .syntaxError msg := by
  constructor
  · exact fun h => h e rfl
  · rintro h e' ⟨⟩
    exact h

theorem onlySyntax_syntaxError {msg : Message F} :
    OnlySyntax (.error (.syntaxError msg) : Except (Exn F) A) := onlySyntax_error.mpr ⟨msg, rfl⟩

theorem onlySyntax_bind {f : A → Except (Exn F) B} :
    OnlySyntax (x >>= f) ↔ OnlySyntax x ∧ ∀ a, x = .ok a → OnlySyntax (f a) := by
  cases x with
  | error e =>
    have herror : (.error e >>= f : Except (Exn F) B) = .error e := rfl
    rw [herror, onlySyntax_error, onlySyntax_error]
    exact (and_iff_left nofun).symm
  | ok a =>
    constructor
    · rintro h
      refine ⟨onlySyntax_ok, ?_⟩
      rintro a' ⟨⟩
      exact h
    · exact fun h => h.2 a rfl

theorem onlySyntax_map {f : A → B} : OnlySyntax (x.map f) ↔ OnlySyntax x := by
  cases x with
  | error e =>
    have herror : (Except.error e : Except (Exn F) A).map f = .error e := rfl
    rw [herror, onlySyntax_error, onlySyntax_error]
  | ok a => exact iff_of_true onlySyntax_ok onlySyntax_ok

theorem prover_onlySyntax {p : List Char} :
    OnlySyntax (prover E p) ↔ DescriptionOk E.regexps E.whyconf p := by
  rw [← findProver_fine, prover]
  split
  · next h =>
      refine iff_of_true onlySyntax_ok ?_
      rw [h]
      exact fine_ok
  · next h =>
      refine iff_of_true onlySyntax_syntaxError ?_
      rw [h]
      rintro e ⟨⟩
      rfl
  · next h =>
      refine iff_of_true onlySyntax_syntaxError ?_
      rw [h]
      rintro e ⟨⟩
      rfl
  · next e hnot hamb h =>
      rw [h]
      constructor
      · intro hf
        obtain ⟨msg, hmsg⟩ := hf _ rfl
        cases hmsg
      · intro hf
        have hunique := hf e rfl
        cases e
        case proverNotFound => exact absurd rfl hnot
        case proverAmbiguity => exact absurd rfl hamb
        all_goals cases hunique

theorem integer_onlySyntax {msg : String} {s : List Char} :
    OnlySyntax (integer msg s : Except (Exn F) _) := by
  rw [integer]
  split
  · exact onlySyntax_ok
  · split_ifs
    · exact onlySyntax_ok
    · exact onlySyntax_syntaxError

theorem real_onlySyntax {msg : String} {s : List Char} : OnlySyntax (real E msg s) := by
  rw [real]
  split
  · exact onlySyntax_ok
  · split_ifs
    · exact onlySyntax_ok
    · exact onlySyntax_syntaxError

theorem checkLimit_onlySyntax {bad : A → Bool} {msg : A → Message F} {o : Option A} :
    OnlySyntax (checkLimit bad msg o) := by
  rw [checkLimit.eq_def]
  split
  · split_ifs
    · exact onlySyntax_syntaxError
    · exact onlySyntax_ok
  · exact onlySyntax_ok

theorem callOf_onlySyntax {a : Args} :
    OnlySyntax (callOf E a) ↔ DescriptionOk E.regexps E.whyconf a.prover := by
  rw [callOf, onlySyntax_bind, prover_onlySyntax]
  refine and_iff_left fun p _ => ?_
  rw [onlySyntax_bind]
  refine ⟨real_onlySyntax, fun t _ => ?_⟩
  rw [onlySyntax_bind]
  refine ⟨checkLimit_onlySyntax, fun t _ => ?_⟩
  rw [onlySyntax_bind]
  refine ⟨integer_onlySyntax, fun m _ => ?_⟩
  rw [onlySyntax_bind]
  refine ⟨checkLimit_onlySyntax, fun m _ => ?_⟩
  rw [onlySyntax_bind]
  refine ⟨integer_onlySyntax, fun st _ => ?_⟩
  rw [onlySyntax_bind]
  exact ⟨checkLimit_onlySyntax, fun _ _ => onlySyntax_ok⟩

theorem wellFormedCall_iff {a : Args} {rest : List Char} (h : invokToken s = some (a, rest)) :
    WellFormedCall E s ↔ DescriptionOk E.regexps E.whyconf a.prover := by
  constructor
  · rintro ⟨a', rest', h', hok⟩
    rw [h] at h'
    cases h'
    exact hok
  · exact fun hok => ⟨a, rest, h, hok⟩

theorem invok_onlySyntax :
    OnlySyntax (invok E s) ↔ ∀ s', InvokReaches E s s' → WellFormedCall E s' := by
  fun_induction invok E s with
  | case1 s hi =>
    rw [onlySyntax_error]
    refine iff_of_false ?_ ?_
    · rintro ⟨msg, hmsg⟩
      cases hmsg
    · intro h
      obtain ⟨a, rest, hi', -⟩ := h s (.refl s)
      rw [hi] at hi'
      cases hi'
  | case2 s a rest hi e hc =>
    have hcall := callOf_onlySyntax (E := E) (a := a)
    rw [hc, onlySyntax_error] at hcall
    rw [onlySyntax_error, hcall, ← wellFormedCall_iff hi]
    constructor
    · intro h s' hreach
      cases hreach with
      | refl => exact h
      | sep hi' hsep hc' _ =>
        rw [hi] at hi'
        cases hi'
        rw [hc] at hc'
        cases hc'
    · exact fun h => h s (.refl s)
  | case3 s a rest hi call hc hsep ih =>
    have hok : WellFormedCall E s := by
      rw [wellFormedCall_iff hi, ← callOf_onlySyntax, hc]
      exact onlySyntax_ok
    rw [onlySyntax_map, ih]
    constructor
    · intro h s' hreach
      cases hreach with
      | refl => exact hok
      | sep hi' _ _ hrest =>
        rw [hi] at hi'
        cases hi'
        exact h s' hrest
    · exact fun h s' hreach => h s' (.sep hi hsep hc hreach)
  | case4 s a rest hi call hc hsep =>
    refine iff_of_true onlySyntax_ok ?_
    intro s' hreach
    cases hreach with
    | refl =>
      rw [wellFormedCall_iff hi, ← callOf_onlySyntax, hc]
      exact onlySyntax_ok
    | sep hi' hsep' _ _ =>
      rw [hi] at hi'
      cases hi'
      exact absurd hsep' hsep

theorem transform_onlySyntax {t : List Char} : OnlySyntax (transform E t) ↔ LookupOk E t := by
  have hno : ¬ OnlySyntax (.error .transformation : Except (Exn F) Unit) := fun h => by
    obtain ⟨msg, hmsg⟩ := h _ rfl
    cases hmsg
  rw [transform, LookupOk]
  cases h : E.lookupTransform t with
  | found => exact iff_of_true onlySyntax_ok ⟨nofun, nofun⟩
  | raises => exact iff_of_false hno fun h => h.1 rfl
  | unknownTrans =>
    dsimp only
    cases h' : E.lookupTransformL t with
    | found => exact iff_of_true onlySyntax_ok ⟨nofun, nofun⟩
    | raises => exact iff_of_false hno fun h => h.2 rfl rfl
    | unknownTrans => exact iff_of_true onlySyntax_syntaxError ⟨nofun, nofun⟩

theorem defineLabel_onlySyntax {l : List Char} : OnlySyntax (defineLabel code l) := by
  rw [defineLabel]
  split
  · split_ifs
    · exact onlySyntax_ok
    · exact onlySyntax_syntaxError
  · exact onlySyntax_ok

theorem scanStep_onlySyntax (length : ℕ) (code : Code F) (s : List Char) :
    OnlySyntax (scanStep E length code s) ↔ PlaceOk E s := by
  rw [scanStep.eq_def, PlaceOk]
  cases ht : scanToken s with
  | blank rest | goto id rest | eof => exact iff_of_true onlySyntax_ok ⟨by simp, by simp⟩
  | label id rest =>
    dsimp only
    rw [onlySyntax_map]
    exact iff_of_true defineLabel_onlySyntax ⟨by simp, by simp⟩
  | call rest =>
    dsimp only
    rw [onlySyntax_map, invok_onlySyntax]
    constructor
    · intro h
      refine ⟨?_, by simp⟩
      rintro rest' ⟨⟩
      exact h
    · exact fun h => h.1 rest rfl
  | transform t l rest =>
    dsimp only
    rw [onlySyntax_map, transform_onlySyntax]
    constructor
    · intro h
      refine ⟨by simp, ?_⟩
      rintro t' l' rest' ⟨⟩
      exact h
    · exact fun h => h.2 t l rest rfl
  | char c => exact iff_of_true onlySyntax_syntaxError ⟨by simp, by simp⟩

theorem scan_onlySyntax {length : ℕ} :
    OnlySyntax (scan E length code s) ↔ ∀ s', Scans E length code s s' → PlaceOk E s' := by
  fun_induction scan E length code s with
  | case1 code s e hs =>
    have hstep := scanStep_onlySyntax (E := E) length code s
    rw [hs, onlySyntax_error] at hstep
    rw [onlySyntax_error, hstep]
    constructor
    · intro h s' hscan
      cases hscan with
      | refl => exact h
      | step hs' _ =>
        rw [hs] at hs'
        cases hs'
    · exact fun h => h s (.refl code s)
  | case2 code s hs =>
    refine iff_of_true onlySyntax_ok ?_
    intro s' hscan
    cases hscan with
    | refl =>
      rw [← scanStep_onlySyntax length code, hs]
      exact onlySyntax_ok
    | step hs' _ =>
      rw [hs] at hs'
      cases hs'
  | case3 code s code₁ rest hs ih =>
    rw [ih]
    constructor
    · intro h s' hscan
      cases hscan with
      | refl =>
        rw [← scanStep_onlySyntax length code, hs]
        exact onlySyntax_ok
      | step hs' hrest =>
        rw [hs] at hs'
        cases hs'
        exact h s' hrest
    · exact fun h s' hscan => h s' (.step hs hscan)

theorem labelArray_onlySyntax : OnlySyntax (labelArray E code) := by
  rw [labelArray]
  generalize E.hashtblIter code.labels = labels
  generalize replicate code.temp (0 : ℤ) = label
  induction labels generalizing label with
  | nil => exact onlySyntax_ok
  | cons e labels ih =>
    rw [foldlM_cons, onlySyntax_bind]
    refine ⟨?_, fun label' _ => ih label'⟩
    rw [fill]
    split
    · exact onlySyntax_syntaxError
    · exact onlySyntax_ok

end OnlySyntax

/-! ## The parser -/

theorem callsOk_of_parsesWell (h : ParsesWell E s) : CallsOk E s := by
  rw [CallsOk, ← scan_onlySyntax]
  intro e he
  rcases h with ⟨msg, hmsg⟩ | ⟨its, instrs, -, hok, -⟩
  · rw [parse, he] at hmsg
    cases hmsg
    exact ⟨msg, rfl⟩
  · rw [parse, he] at hok
    cases hok

/-- A strategy is parsed, or a syntax error is raised, exactly when the arguments of every
call that is reached are well formed. -/
theorem parsesWell_iff (E : Env F R) (s : List Char) : ParsesWell E s ↔ CallsOk E s := by
  constructor
  · exact callsOk_of_parsesWell
  · intro hscan
    rw [CallsOk, ← scan_onlySyntax] at hscan
    rw [ParsesWell, parse]
    cases hcode : scan E s.length (createCode F) s with
    | error e =>
      obtain ⟨msg, rfl⟩ := hscan e hcode
      exact .inl ⟨msg, rfl⟩
    | ok code =>
      obtain ⟨its, hits, hinv⟩ := scan_ok codeInv_createCode hcode
      dsimp only
      cases hlabel : labelArray E code with
      | error e =>
        obtain ⟨msg, rfl⟩ := labelArray_onlySyntax e hlabel
        exact .inl ⟨msg, rfl⟩
      | ok label =>
        obtain ⟨instrs, hsolve, hr⟩ := mapM_solve (labelArray_ok hinv hlabel) hinv.instrs
        exact .inr ⟨its, instrs, hits, hsolve, hr⟩

/-- A call without limits, in any environment. -/
theorem not_parsesWell : ¬ ∀ (F R : Type) (E : Env F R) (s : List Char), ParsesWell E s := by
  intro hall
  let E : Env ℚ Unit :=
    { floatOfString := fun _ => none
      notPositive := fun _ => false
      hashtblIter := id
      hashtblIter_perm := fun _ => .refl _
      regexps := ⟨fun _ => some (), id, fun _ _ => false, rfl, fun _ => rfl⟩
      whyconf := ⟨[], fun _ => none⟩
      lookupTransform := fun _ => .unknownTrans
      lookupTransformL := fun _ => .unknownTrans }
  have hplace := callsOk_of_parsesWell (hall ℚ Unit E ['c', ' ', 'x']) _ (.refl _ _)
  obtain ⟨a, rest, hi, -⟩ := hplace.1 ['x'] rfl ['x'] (.refl _)
  cases hi

end Why3.Strategy
