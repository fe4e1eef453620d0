import Why3.Session.SaveShapes

/-!
# Each goal reads back its own checksum and shape

The goals of a session are matched to the lines of the shape file by their position.
Reading the session file with the shape file comes down to reading the lines one by
one; from that follows when the goals and the global shapes are those that were saved.
-/

namespace Why3.SessionItp

open Termcode MachineInt List

/-! ## The goals of a session -/

mutual

/-- A goal and the goals below it, with the checksum and the shape that the session
has for them. -/
def Goal.records : Goal → List GoalRecord
  | .mk name expl _ sum shape ts => ⟨name, expl, findSum sum, getShape shape⟩ :: transfRecords ts

def transfRecords : List Transf → List GoalRecord
  | [] => []
  | t :: ts => t.records ++ transfRecords ts

def Transf.records : Transf → List GoalRecord
  | .mk _ _ _ gs => goalRecords gs

def goalRecords : List Goal → List GoalRecord
  | [] => []
  | g :: gs => g.records ++ goalRecords gs

end

attribute [grind =] Goal.records transfRecords Transf.records goalRecords

def Theory.records (t : Theory) : List GoalRecord := goalRecords (sortedGoals t.goals)

def File.records (f : File) : List GoalRecord := f.theories.flatMap Theory.records

/-- The goals of a session in the order in which they are saved. -/
def Session.records (s : Session) : List GoalRecord := s.files.flatMap File.records

def GoalRecord.line (r : GoalRecord) : List Char := saveLine r.sum r.shape

mutual

theorem Goal.lines_eq : ∀ g : Goal, g.lines = g.records.flatMap GoalRecord.line
  | .mk _ _ _ _ _ ts => by
    rw [Goal.lines, Goal.records, flatMap_cons, transfLines_eq ts]
    rfl

theorem transfLines_eq : ∀ ts, transfLines ts = (transfRecords ts).flatMap GoalRecord.line
  | [] => rfl
  | t :: ts => by
    rw [transfLines, transfRecords, flatMap_append, Transf.lines_eq t, transfLines_eq ts]

theorem Transf.lines_eq : ∀ t : Transf, t.lines = t.records.flatMap GoalRecord.line
  | .mk _ _ _ gs => by
    rw [Transf.lines, Transf.records, goalLines_eq gs]

theorem goalLines_eq : ∀ gs, goalLines gs = (goalRecords gs).flatMap GoalRecord.line
  | [] => rfl
  | g :: gs => by
    rw [goalLines, goalRecords, flatMap_append, Goal.lines_eq g, goalLines_eq gs]

end

theorem Session.lines_eq (s : Session) :
    s.files.flatMap File.lines = s.records.flatMap GoalRecord.line := by
  rw [Session.records, flatMap_assoc]
  congr 1
  funext f
  rw [File.lines, File.records, flatMap_assoc]
  congr 1
  funext t
  exact goalLines_eq _

/-! ## Reading goal by goal -/

/-- What is read for a goal, and the state afterwards. -/
def readText (r : GoalRecord) (st : ReadState) : GoalText × ReadState :=
  if st.sumShapeVersion.isSome then
    match readSumAndShape st.ch with
    | none => (⟨r.name, r.expl, [], []⟩, { st with sumShapeVersion := none })
    | some (sum, shape, ch) => (⟨r.name, r.expl, sum, shape⟩, { st with ch := ch })
  else (⟨r.name, r.expl, [], []⟩, st)

def readTexts : List GoalRecord → ReadState → List GoalText × ReadState
  | [], st => ([], st)
  | r :: rs, st =>
    ((readText r st).1 :: (readTexts rs (readText r st).2).1, (readTexts rs (readText r st).2).2)

theorem readTexts_append (rs rs' : List GoalRecord) (st : ReadState) :
    readTexts (rs ++ rs') st
      = ((readTexts rs st).1 ++ (readTexts rs' (readTexts rs st).2).1,
        (readTexts rs' (readTexts rs st).2).2) := by
  induction rs generalizing st with
  | nil => rfl
  | cons r rs ih =>
    rw [cons_append, readTexts, ih, readTexts]
    rfl

theorem assoc_goalAttributes (name expl : Str) (proved : Bool) :
    assoc nameKey (goalAttributes name expl proved) = some name ∧
    (assoc explKey (goalAttributes name expl proved)).getD [] = expl ∧
    assoc sumKey (goalAttributes name expl proved) = none ∧
    assoc shapeKey (goalAttributes name expl proved) = none := by
  by_cases h : expl = []
  · subst h
    cases proved <;> exact ⟨rfl, rfl, rfl, rfl⟩
  · rw [goalAttributes, saveStringAttrib, if_neg h]
    cases proved <;> exact ⟨rfl, rfl, rfl, rfl⟩

theorem assoc_cons_ne {k k' : Str} (h : k' ≠ k) (v : Str) (attrs : List (Str × Str)) :
    assoc k ((k', v) :: attrs) = assoc k attrs := by
  rw [assoc, find?_cons_of_neg (by simpa using h), ← assoc]

theorem assoc_cons_self (k v : Str) (attrs : List (Str × Str)) :
    assoc k ((k, v) :: attrs) = some v := by
  rw [assoc, find?_cons_of_pos (by simp)]
  rfl

/-- The text of a goal from its attributes. -/
def goalText (attrs : List (Str × Str)) : Option GoalText :=
  (assoc nameKey attrs).map fun gname => ⟨gname, (assoc explKey attrs).getD [],
    (assoc sumKey attrs).getD [], (assoc shapeKey attrs).getD []⟩

theorem fixAttributes_goal (r : GoalRecord) (proved : Bool) (st : ReadState) :
    goalText (fixAttributes goalTag (goalAttributes r.name r.expl proved) st).1
        = some (readText r st).1 ∧
      (fixAttributes goalTag (goalAttributes r.name r.expl proved) st).2 = (readText r st).2 := by
  obtain ⟨h1, h2, h3, h4⟩ := assoc_goalAttributes r.name r.expl proved
  have hplain : goalText (goalAttributes r.name r.expl proved) = some ⟨r.name, r.expl, [], []⟩ := by
    rw [goalText, h1, h2, h3, h4]
    rfl
  have htag : goalTag ≠ why3sessionTag := by decide
  rw [fixAttributes, if_neg htag, readText]
  by_cases hv : st.sumShapeVersion.isSome
  · rw [if_pos ⟨rfl, hv⟩, if_pos hv]
    cases hread : readSumAndShape st.ch with
    | none => exact ⟨hplain, rfl⟩
    | some x =>
      obtain ⟨sum, shape, ch⟩ := x
      dsimp only
      rw [h3]
      dsimp only
      refine ⟨?_, rfl⟩
      have hkeep : ∀ k, shapeKey ≠ k → sumKey ≠ k → ∀ attrs : List (Str × Str),
          assoc k ((shapeKey, shape) :: (sumKey, sum) :: attrs) = assoc k attrs := by
        intro k hk hk' attrs
        rw [assoc_cons_ne hk, assoc_cons_ne hk']
      rw [goalText, hkeep nameKey (by decide) (by decide), h1,
        hkeep explKey (by decide) (by decide), h2, assoc_cons_ne (by decide : shapeKey ≠ sumKey),
        assoc_cons_self, assoc_cons_self]
      rfl
  · rw [if_neg fun h => hv h.2, if_neg hv]
    exact ⟨hplain, rfl⟩

theorem fixAttributes_other {name : Str} (h : name ≠ why3sessionTag) (h' : name ≠ goalTag)
    (attrs : List (Str × Str)) (st : ReadState) : fixAttributes name attrs st = (attrs, st) := by
  rw [fixAttributes, if_neg h, if_neg fun h'' => h' h''.1]

theorem loadGoal_goal (attrs : List (Str × Str)) (elements : List Element) :
    loadGoal (.mk goalTag attrs elements)
      = (goalText attrs).bind fun t => (loadTransfs elements).map fun below => t :: below := by
  rw [loadGoal, if_pos rfl, goalText]
  cases assoc nameKey attrs with
  | none => rfl
  | some gname =>
    cases loadTransfs elements with
    | none => simp
    | some below => simp

theorem assoc_name (l : List (Str × Str)) (hl : ∀ a ∈ l, a.1 ≠ nameKey) (name : Str) :
    assoc nameKey (l ++ [(nameKey, name)]) = some name := by
  induction l with
  | nil => rfl
  | cons a l ih =>
    rw [cons_append, assoc_cons_ne (hl a mem_cons_self)]
    exact ih fun a' ha' => hl a' (mem_cons_of_mem _ ha')

theorem transf_name (name : Str) (args : List Str) (proved : Bool) :
    assoc nameKey (saveArgs 0 args ++ saveProved proved ++ [(nameKey, name)]) = some name := by
  have hargs : ∀ (l : List Str) (n : ℕ), ∀ a ∈ saveArgs n l, a.1 ≠ nameKey := by
    intro l
    induction l with
    | nil => simp [saveArgs]
    | cons s l ih =>
      intro n a ha
      rw [saveArgs, mem_append, mem_singleton] at ha
      rcases ha with ha | rfl
      · exact ih (n + 1) a ha
      · intro h
        exact absurd (cons.inj h).1 (by decide)
  apply assoc_name
  intro a ha
  rcases mem_append.mp ha with ha | ha
  · exact hargs args 0 a ha
  · cases proved with
    | false => exact absurd ha not_mem_nil
    | true =>
      rw [mem_singleton.mp ha]
      decide

/-! ## The tree of elements -/

mutual

theorem fix_goal : ∀ (g : Goal) (st : ReadState),
    loadGoal (fixElement g.element st).1 = some (readTexts g.records st).1 ∧
    (fixElement g.element st).2 = (readTexts g.records st).2 ∧
    (fixElement g.element st).1.name = goalTag
  | .mk name expl proved sum shape ts, st => by
    obtain ⟨htext, hst⟩ :=
      fixAttributes_goal ⟨name, expl, findSum sum, getShape shape⟩ proved st
    obtain ⟨hload, hstate⟩ :=
      fix_transfs ts (readText ⟨name, expl, findSum sum, getShape shape⟩ st).2
    rw [Goal.element, fixElement, Goal.records, readTexts]
    dsimp only at htext hst ⊢
    rw [hst, loadGoal_goal, htext, hload]
    exact ⟨rfl, hstate, rfl⟩

theorem fix_transfs : ∀ (ts : List Transf) (st : ReadState),
    loadTransfs (fixElements (transfElements ts) st).1 = some (readTexts (transfRecords ts) st).1 ∧
    (fixElements (transfElements ts) st).2 = (readTexts (transfRecords ts) st).2
  | [], st => ⟨rfl, rfl⟩
  | t :: ts, st => by
    obtain ⟨hload, hstate⟩ := fix_transf t st
    obtain ⟨hloads, hstates⟩ := fix_transfs ts (readTexts t.records st).2
    rw [transfElements, fixElements, transfRecords, readTexts_append]
    dsimp only
    rw [hstate, loadTransfs, hload, hloads]
    exact ⟨rfl, hstates⟩

theorem fix_transf : ∀ (t : Transf) (st : ReadState),
    loadTransf (fixElement t.element st).1 = some (readTexts t.records st).1 ∧
    (fixElement t.element st).2 = (readTexts t.records st).2
  | .mk name args proved gs, st => by
    obtain ⟨hload, hstate, hnames⟩ := fix_goals gs st
    rw [Transf.element, fixElement, fixAttributes_other (by decide) (by decide), Transf.records]
    dsimp only
    rw [loadTransf, if_pos rfl, transf_name, hload]
    refine ⟨?_, hstate⟩
    show (if _ then some _ else none) = _
    rw [if_pos hnames]

theorem fix_goals : ∀ (gs : List Goal) (st : ReadState),
    loadGoals (fixElements (goalElements gs) st).1 = some (readTexts (goalRecords gs) st).1 ∧
    (fixElements (goalElements gs) st).2 = (readTexts (goalRecords gs) st).2 ∧
    (fixElements (goalElements gs) st).1.all fun e => e.name = goalTag
  | [], st => ⟨rfl, rfl, rfl⟩
  | g :: gs, st => by
    obtain ⟨hload, hstate, hname⟩ := fix_goal g st
    obtain ⟨hloads, hstates, hnames⟩ := fix_goals gs (readTexts g.records st).2
    rw [goalElements, fixElements, goalRecords, readTexts_append]
    dsimp only
    rw [hstate, loadGoals, hload, hloads, all_cons, hname, hnames]
    exact ⟨rfl, hstates, rfl⟩

end

theorem fix_theory (t : Theory) (st : ReadState) :
    loadTheory (fixElement t.element st).1 = some (readTexts t.records st).1 ∧
    (fixElement t.element st).2 = (readTexts t.records st).2 := by
  obtain ⟨hload, hstate, hnames⟩ := fix_goals (sortedGoals t.goals) st
  have hname : assoc nameKey (saveProved t.proved ++ [(nameKey, t.name)]) = some t.name := by
    cases t.proved <;> rfl
  rw [Theory.element, fixElement, fixAttributes_other (by decide) (by decide), Theory.records]
  dsimp only
  rw [loadTheory, if_pos rfl, hname, hload]
  refine ⟨?_, hstate⟩
  show (if _ then some _ else none) = _
  rw [if_pos hnames]

theorem fix_theories (ts : List Theory) (st : ReadState) :
    loadTheories (fixElements (ts.map Theory.element) st).1
        = some (readTexts (ts.flatMap Theory.records) st).1 ∧
      (fixElements (ts.map Theory.element) st).2 = (readTexts (ts.flatMap Theory.records) st).2 := by
  induction ts generalizing st with
  | nil => exact ⟨rfl, rfl⟩
  | cons t ts ih =>
    obtain ⟨hload, hstate⟩ := fix_theory t st
    obtain ⟨hloads, hstates⟩ := ih (readTexts t.records st).2
    rw [map_cons, fixElements, flatMap_cons, readTexts_append]
    dsimp only
    rw [hstate, loadTheories, hload, hloads]
    exact ⟨rfl, hstates⟩

/-- A theory that is not saved has no goals. -/
theorem records_filter (ts : List Theory) :
    (ts.filter fun t => !t.goals.isEmpty).flatMap Theory.records = ts.flatMap Theory.records := by
  induction ts with
  | nil => rfl
  | cons t ts ih =>
    cases hgoals : t.goals with
    | nil =>
      have hnil : t.records = [] := by
        rw [Theory.records, hgoals]
        rfl
      rw [filter_cons_of_neg (by simp [hgoals]), ih, flatMap_cons, hnil,
        nil_append]
    | cons g gs =>
      rw [filter_cons_of_pos (by simp [hgoals]), flatMap_cons, ih, flatMap_cons]

theorem fix_file (f : File) (st : ReadState) :
    loadFile (fixElement f.element st).1 = some (readTexts f.records st).1 ∧
    (fixElement f.element st).2 = (readTexts f.records st).2 := by
  obtain ⟨hload, hstate⟩ := fix_theories (f.theories.filter fun t => !t.goals.isEmpty) st
  rw [records_filter] at hload hstate
  rw [File.element, fixElement, fixAttributes_other (by decide) (by decide), File.records]
  dsimp only
  rw [loadFile, if_pos rfl]
  exact ⟨hload, hstate⟩

theorem fix_files (fs : List File) (st : ReadState) :
    loadFiles (fixElements (fs.map File.element) st).1
        = some (readTexts (fs.flatMap File.records) st).1 ∧
      (fixElements (fs.map File.element) st).2 = (readTexts (fs.flatMap File.records) st).2 := by
  induction fs generalizing st with
  | nil => exact ⟨rfl, rfl⟩
  | cons f fs ih =>
    obtain ⟨hload, hstate⟩ := fix_file f st
    obtain ⟨hloads, hstates⟩ := ih (readTexts f.records st).2
    rw [map_cons, fixElements, flatMap_cons, readTexts_append]
    dsimp only
    rw [hstate, loadFiles, hload, hloads]
    exact ⟨rfl, hstates⟩

/-! ## The lines -/

theorem inputLine_append {l : Str} (hl : '\n' ∉ l) (ch : List Char) :
    inputLine (l ++ '\n' :: ch) = some (l, ch) := by
  induction l with
  | nil => rfl
  | cons c l ih =>
    rw [mem_cons, not_or] at hl
    rw [cons_append, inputLine, if_neg fun h => hl.1 h.symm, ih hl.2]
    rfl

theorem notMem_stringOfShape (l : BoundShape) : '\n' ∉ stringOfShape (.boundShape l) := by
  have hint : ∀ n : Int63, '\n' ∉ stringOfInt n := by
    intro n h
    rcases mem_stringOfInt h with h | h
    · exact absurd h (by decide)
    · exact absurd h (by decide)
  have hpre : ∀ l : BoundShape, '\n' ∉ printListPre ['H'] stringOfInt l := by
    intro l
    induction l with
    | nil => exact not_mem_nil
    | cons n l ih =>
      rw [printListPre, mem_append, mem_append]
      rintro (h | h | h)
      · exact absurd h (by decide)
      · exact hint n h
      · exact ih h
  cases l with
  | nil => exact not_mem_nil
  | cons n l =>
    rw [stringOfShape, printList, mem_append]
    rintro (h | h)
    · exact hint n h
    · exact hpre l h

theorem readSumAndShape_line {sum : Str} (h : sum.length = 32) (l : BoundShape) (ch : List Char) :
    readSumAndShape (saveLine sum (.boundShape l) ++ ch)
      = some (sum, stringOfShape (.boundShape l), ch) := by
  have htext : saveLine sum (.boundShape l) ++ ch
      = sum ++ ' ' :: (stringOfShape (.boundShape l) ++ '\n' :: ch) := by
    rw [saveLine, append_assoc, cons_append, append_assoc, singleton_append]
  have hdrop : (sum ++ ' ' :: (stringOfShape (.boundShape l) ++ '\n' :: ch)).drop 32
      = ' ' :: (stringOfShape (.boundShape l) ++ '\n' :: ch) := by
    rw [← h, drop_left]
  have htake : (sum ++ ' ' :: (stringOfShape (.boundShape l) ++ '\n' :: ch)).take 32 = sum := by
    rw [← h, take_left]
  rw [htext, readSumAndShape, if_neg (by rw [length_append, h]; omega), hdrop, htake]
  dsimp only
  rw [if_pos rfl, inputLine_append (notMem_stringOfShape l)]
  rfl

theorem length_of_readSumAndShape {ch ch' : List Char} {sum shape : Str}
    (h : readSumAndShape ch = some (sum, shape, ch')) : sum.length = 32 := by
  rw [readSumAndShape] at h
  split_ifs at h with hlen
  split at h
  · exact absurd h nofun
  · split_ifs at h
    obtain ⟨r, -, heq⟩ := Option.map_eq_some_iff.mp h
    rw [← (Prod.mk.inj heq).1, length_take]
    omega

/-! ## Goals that have nothing stored -/

/-- A goal without checksum and without shape. -/
def GoalRecord.Bare (r : GoalRecord) : Prop := r.sum = dumbChecksum ∧ r.shape = .boundShape []

/-- The lines of `n` such goals. -/
def bareLines (n : ℕ) : List Char := (replicate n [' ', '\n']).flatten

theorem length_bareLines (n : ℕ) : (bareLines n).length = 2 * n := by
  rw [bareLines, length_flatten, map_replicate, sum_replicate_nat]
  exact mul_comm _ _

variable {rs : List GoalRecord}

theorem flatMap_line_of_bare (h : ∀ r ∈ rs, r.Bare) :
    rs.flatMap GoalRecord.line = bareLines rs.length := by
  induction rs with
  | nil => rfl
  | cons r rs ih =>
    obtain ⟨hsum, hshape⟩ := h r mem_cons_self
    have hline : r.line = [' ', '\n'] := by
      rw [GoalRecord.line, hsum, hshape]
      rfl
    rw [flatMap_cons, hline, ih fun r' hr' => h r' (mem_cons_of_mem _ hr')]
    rfl

theorem readSumAndShape_bareLines (n : ℕ) : readSumAndShape (bareLines n) = none ↔ n ≤ 16 := by
  rcases lt_trichotomy n 16 with h | rfl | h
  · rw [readSumAndShape, if_pos (by rw [length_bareLines]; omega)]
    exact iff_of_true rfl h.le
  · exact iff_of_true rfl le_rfl
  · obtain ⟨m, rfl⟩ : ∃ m, n = 16 + (1 + m) := ⟨n - 17, by omega⟩
    have htext : bareLines (16 + (1 + m))
        = saveLine (bareLines 16) (.boundShape []) ++ bareLines m := by
      rw [bareLines, replicate_add, flatten_append, replicate_add,
        flatten_append, saveLine, append_assoc]
      rfl
    rw [htext, readSumAndShape_line (length_bareLines 16)]
    exact iff_of_false nofun (by omega)

/-! ## The goals that read back -/

def GoalText.record (t : GoalText) : GoalRecord :=
  ⟨t.name, t.expl, t.sum, shapeOfStringUncached .sv6 t.shape⟩

theorem shapeOfStringUncached_stringOfShape (l : BoundShape) :
    shapeOfStringUncached .sv6 (stringOfShape (.boundShape l)) = .boundShape l := by
  have hv : isBoundSumShapeVersion .sv6 = true := rfl
  rw [shapeOfStringUncached, if_pos hv, consPieces_stringOfShape]

/-- Every goal has a checksum of 32 characters, but for at most sixteen goals at the
end that have neither checksum nor shape. -/
def Matched (rs : List GoalRecord) : Prop :=
  ∃ pre post, rs = pre ++ post ∧ (∀ r ∈ pre, r.sum.length = 32) ∧ post.length ≤ 16 ∧
    ∀ r ∈ post, r.Bare

theorem matched_cons {r : GoalRecord} (h : r.sum.length = 32) : Matched (r :: rs) ↔ Matched rs := by
  constructor
  · rintro ⟨pre, post, heq, hpre, hlen, hpost⟩
    cases pre with
    | nil =>
      rw [nil_append] at heq
      have hbare := hpost r (heq ▸ mem_cons_self)
      rw [hbare.1] at h
      exact absurd h (by decide)
    | cons r' pre =>
      obtain ⟨rfl, rfl⟩ := cons.inj heq
      exact ⟨pre, post, rfl, fun r hr => hpre r (mem_cons_of_mem _ hr), hlen, hpost⟩
  · rintro ⟨pre, post, rfl, hpre, hlen, hpost⟩
    exact ⟨r :: pre, post, rfl, forall_mem_cons.mpr ⟨h, hpre⟩, hlen, hpost⟩

theorem matched_cons_of_ne {r : GoalRecord} (h : r.sum.length ≠ 32) :
    Matched (r :: rs) ↔ (r :: rs).length ≤ 16 ∧ ∀ r' ∈ r :: rs, r'.Bare := by
  constructor
  · rintro ⟨pre, post, heq, hpre, hlen, hpost⟩
    cases pre with
    | nil =>
      rw [nil_append] at heq
      rw [heq]
      exact ⟨hlen, hpost⟩
    | cons r' pre =>
      obtain ⟨rfl, -⟩ := cons.inj heq
      exact absurd (hpre r mem_cons_self) h
  · rintro ⟨hlen, hbare⟩
    exact ⟨[], r :: rs, rfl, by simp, hlen, hbare⟩

variable {st : ReadState}

theorem readTexts_none (rs : List GoalRecord) (h : st.sumShapeVersion = none) :
    readTexts rs st = (rs.map fun r => ⟨r.name, r.expl, [], []⟩, st) := by
  induction rs with
  | nil => rfl
  | cons r rs ih =>
    have hr : readText r st = (⟨r.name, r.expl, [], []⟩, st) := by
      rw [readText, h]
      rfl
    rw [readTexts, hr, ih]
    rfl

theorem record_empty (r : GoalRecord) :
    GoalText.record ⟨r.name, r.expl, [], []⟩ = r ↔ r.Bare := by
  obtain ⟨name, expl, sum, shape⟩ := r
  have hshape := shapeOfStringUncached_stringOfShape []
  show GoalRecord.mk name expl [] (shapeOfStringUncached .sv6 (stringOfShape (.boundShape []))) = _ ↔ _
  rw [hshape, GoalRecord.mk.injEq, GoalRecord.Bare]
  constructor
  · rintro ⟨-, -, rfl, rfl⟩
    exact ⟨rfl, rfl⟩
  · rintro ⟨h1, h2⟩
    exact ⟨rfl, rfl, h1.symm, h2.symm⟩

theorem records_empty (rs : List GoalRecord) :
    (rs.map fun r => (⟨r.name, r.expl, [], []⟩ : GoalText)).map GoalText.record = rs ↔
      ∀ r ∈ rs, r.Bare := by
  conv_lhs => rhs; rw [← map_id rs]
  rw [map_map, map_inj_left]
  exact forall₂_congr fun r _ => record_empty r

/-- The goals whose lines are read, one after the other. -/
theorem readTexts_iff (hrs : ∀ r ∈ rs, ∃ l, r.shape = .boundShape l)
    (hv : st.sumShapeVersion.isSome) (hch : st.ch = rs.flatMap GoalRecord.line) :
    (readTexts rs st).1.map GoalText.record = rs ↔ Matched rs := by
  induction rs generalizing st with
  | nil => exact iff_of_true rfl ⟨[], [], rfl, by simp, by simp, by simp⟩
  | cons r rs ih =>
    obtain ⟨l, hl⟩ := hrs r mem_cons_self
    have hrs' : ∀ r' ∈ rs, ∃ l, r'.shape = .boundShape l :=
      fun r' hr' => hrs r' (mem_cons_of_mem _ hr')
    by_cases h32 : r.sum.length = 32
    · have hread : readSumAndShape st.ch
          = some (r.sum, stringOfShape (.boundShape l), rs.flatMap GoalRecord.line) := by
        rw [hch, flatMap_cons, GoalRecord.line, hl, readSumAndShape_line h32]
      have htext : readText r st = (⟨r.name, r.expl, r.sum, stringOfShape (.boundShape l)⟩,
          { st with ch := rs.flatMap GoalRecord.line }) := by
        rw [readText, if_pos hv, hread]
      have hrecord : GoalText.record ⟨r.name, r.expl, r.sum, stringOfShape (.boundShape l)⟩ = r := by
        rw [GoalText.record, shapeOfStringUncached_stringOfShape, ← hl]
      rw [readTexts, htext, map_cons, hrecord, matched_cons h32]
      simp only [List.cons.injEq, true_and]
      exact ih hrs' hv rfl
    · rw [matched_cons_of_ne h32]
      cases hread : readSumAndShape st.ch with
      | some x =>
        obtain ⟨sum, shape, ch⟩ := x
        have htext : (readText r st).1 = ⟨r.name, r.expl, sum, shape⟩ := by
          rw [readText, if_pos hv, hread]
        apply iff_of_false
        · rw [readTexts, map_cons, htext]
          intro h
          have hsum : sum = r.sum := congrArg GoalRecord.sum (cons.inj h).1
          exact h32 (hsum ▸ length_of_readSumAndShape hread)
        · rintro ⟨hlen, hbare⟩
          rw [hch, flatMap_line_of_bare hbare, (readSumAndShape_bareLines _).mpr hlen] at hread
          exact absurd hread nofun
      | none =>
        have htext : readText r st
            = (⟨r.name, r.expl, [], []⟩, { st with sumShapeVersion := none }) := by
          rw [readText, if_pos hv, hread]
        have hall : (readTexts (r :: rs) st).1
            = (r :: rs).map fun r => ⟨r.name, r.expl, [], []⟩ := by
          rw [readTexts, htext, readTexts_none rs rfl]
          rfl
        rw [hall, records_empty]
        constructor
        · intro hbare
          rw [hch, flatMap_line_of_bare hbare, readSumAndShape_bareLines] at hread
          exact ⟨hread, hbare⟩
        · exact And.right

/-! ## The header -/

/-- A string that stands on a line of its own, which is neither empty nor a comment. -/
def Clean (s : Str) : Prop := s ≠ [] ∧ '\n' ∉ s ∧ ¬['(', '*'] <+: s

instance : DecidablePred Clean := fun s =>
  inferInstanceAs (Decidable (s ≠ [] ∧ '\n' ∉ s ∧ ¬['(', '*'] <+: s))

theorem notMem_inputLine {ch ch' : List Char} {l : Str} (h : inputLine ch = some (l, ch')) :
    '\n' ∉ l := by
  induction ch generalizing l ch' with
  | nil => exact absurd h nofun
  | cons c ch ih =>
    rw [inputLine] at h
    split_ifs at h with hc
    · rw [← (Prod.mk.inj (Option.some.inj h)).1]
      exact not_mem_nil
    · obtain ⟨⟨l', rest⟩, hr, heq⟩ := Option.map_eq_some_iff.mp h
      rw [← (Prod.mk.inj heq).1, mem_cons, not_or]
      exact ⟨fun h => hc h.symm, ih hr⟩

theorem readGlobalBuffer_clean (fuel : ℕ) {gs : Gshape} {l : List Str} (h : gs.Ranked l)
    (hl : ∀ s ∈ l, Clean s) (ch : List Char) :
    ∃ l', (readGlobalBuffer fuel gs ch).1.Ranked l' ∧ ∀ s ∈ l', Clean s := by
  induction fuel generalizing gs l ch with
  | zero => exact ⟨l, h, hl⟩
  | succ fuel ih =>
    rw [readGlobalBuffer]
    cases hline : inputLine ch with
    | none => exact ⟨l, h, hl⟩
    | some x =>
      obtain ⟨s, ch'⟩ := x
      dsimp only
      split_ifs with hnil hcomment
      · exact ⟨l, h, hl⟩
      · exact ih h hl ch'
      · by_cases hs : s ∈ l
        · rw [h.addShapeG_of_mem hs]
          exact ih h hl ch'
        · apply ih (h.addShapeG_of_notMem hs)
          intro s' hs'
          rcases mem_append.mp hs' with hs' | hs'
          · exact hl s' hs'
          · rw [mem_singleton.mp hs']
            exact ⟨hnil, notMem_inputLine hline, hcomment⟩

theorem readGlobalBuffer_strings {l l' : List Str} {gs : Gshape} (h : gs.Ranked l)
    (hnodup : (l ++ l').Nodup) (hl : ∀ s ∈ l', Clean s) {fuel : ℕ} (hfuel : l'.length < fuel)
    (ch : List Char) :
    ∃ gs', readGlobalBuffer fuel gs ((l'.flatMap fun s => s ++ ['\n']) ++ '\n' :: ch)
      = (gs', some ch) ∧ gs'.Ranked (l ++ l') := by
  induction l' generalizing l gs fuel with
  | nil =>
    obtain ⟨n, rfl⟩ := Nat.exists_eq_succ_of_ne_zero (by omega : fuel ≠ 0)
    rw [append_nil]
    exact ⟨gs, rfl, h⟩
  | cons s l' ih =>
    obtain ⟨n, rfl⟩ := Nat.exists_eq_succ_of_ne_zero (by omega : fuel ≠ 0)
    obtain ⟨hne, hnl, hcomment⟩ := hl s mem_cons_self
    have hs : s ∉ l := fun hs => (nodup_append.mp hnodup).2.2 s hs s mem_cons_self rfl
    have hassoc : l ++ s :: l' = l ++ [s] ++ l' := by simp
    obtain ⟨gs', hgs', hranked⟩ := ih (h.addShapeG_of_notMem hs) (hassoc ▸ hnodup)
      (fun s' hs' => hl s' (mem_cons_of_mem _ hs'))
      (Nat.lt_of_succ_lt_succ hfuel)
    refine ⟨gs', ?_, hassoc ▸ hranked⟩
    rw [flatMap_cons, append_assoc, append_assoc, singleton_append,
      readGlobalBuffer, inputLine_append hnl]
    dsimp only
    rw [if_neg hne, if_neg hcomment]
    exact hgs'

/-- The first line is a comment. -/
def headerLine : Str := "(* shapes version: 6 *)".toList

theorem Session.shapeVersion_eq (s : Session) : s.shapeVersion = .sv6 := by
  have h := s.bound
  cases hv : s.shapeVersion <;> rw [hv] at h
  all_goals first
    | rfl
    | exact absurd h Bool.false_ne_true

theorem headerLine_eq :
    "(* shapes version: ".toList ++ stringOfSumShapeVersion .sv6 ++ " *)\n".toList
      = headerLine ++ ['\n'] := by
  decide +kernel

theorem shapeHeader_eq (s : Session) :
    shapeHeader s = headerLine ++ ['\n'] ++ s.globalShapes.writeShapeToFile ++ ['\n'] := by
  have hhead := headerLine_eq
  rw [← s.shapeVersion_eq] at hhead
  exact congrArg (fun line => line ++ s.globalShapes.writeShapeToFile ++ ['\n']) hhead

theorem save_text (s : Session) :
    (save s).2 = headerLine ++ '\n' :: (s.globalShapes.writeShapeToFile ++
      '\n' :: s.records.flatMap GoalRecord.line) := by
  have hsave : (save s).2 = shapeHeader s ++ s.files.flatMap File.lines := rfl
  rw [hsave, shapeHeader_eq, s.lines_eq]
  generalize headerLine = line
  simp

theorem readGlobalBuffer_header (fuel : ℕ) (gs : Gshape) (ch : List Char) :
    readGlobalBuffer (fuel + 1) gs (headerLine ++ '\n' :: ch) = readGlobalBuffer fuel gs ch := by
  have hnl : '\n' ∉ headerLine := by decide +kernel
  have hne : headerLine ≠ [] := by decide +kernel
  have hcomment : ['(', '*'] <+: headerLine := by decide +kernel
  rw [readGlobalBuffer, inputLine_append hnl]
  dsimp only
  rw [if_neg hne, if_pos hcomment]

/-! ## Sessions -/

/-- The state after the root element. -/
def readHeader (s : Session) : ReadState :=
  (fixAttributes why3sessionTag [(shapeVersionKey, stringOfSumShapeVersion s.shapeVersion)]
    ⟨.create, (save s).2, none⟩).2

theorem readHeader_eq (s : Session) :
    readHeader s = match readGlobalBuffer ((save s).2.length + 1) .create (save s).2 with
      | (gs, none) => ⟨gs, (save s).2, none⟩
      | (gs, some ch) => ⟨gs, ch, some .sv6⟩ := by
  have hversion : (assoc shapeVersionKey
      [(shapeVersionKey, stringOfSumShapeVersion .sv6)]).bind stringToSumShapeVersion
      = some .sv6 := by decide
  have hbound : isBoundSumShapeVersion .sv6 = true := rfl
  rw [readHeader, s.shapeVersion_eq, fixAttributes, if_pos rfl, hversion]
  dsimp only
  rw [if_pos hbound]
  rcases readGlobalBuffer ((save s).2.length + 1) .create (save s).2 with ⟨gs, _ | ch⟩
  · rfl
  · rfl

theorem readTexts_state (rs : List GoalRecord)
    (h : st.sumShapeVersion.getD currentSumShapeVersion = .sv6) :
    (readTexts rs st).2.sumShapeVersion.getD currentSumShapeVersion = .sv6 ∧
      (readTexts rs st).2.gs = st.gs := by
  induction rs generalizing st with
  | nil => exact ⟨h, rfl⟩
  | cons r rs ih =>
    have hr : (readText r st).2.sumShapeVersion.getD currentSumShapeVersion = .sv6 ∧
        (readText r st).2.gs = st.gs := by
      rw [readText]
      split_ifs
      · cases readSumAndShape st.ch with
        | none => exact ⟨rfl, rfl⟩
        | some x => exact ⟨h, rfl⟩
      · exact ⟨h, rfl⟩
    rw [readTexts, ← hr.2]
    exact ih hr.1

theorem readHeader_version (s : Session) :
    (readHeader s).sumShapeVersion.getD currentSumShapeVersion = .sv6 := by
  rw [readHeader_eq]
  split <;> rfl

theorem loadSession_save (s : Session) :
    loadSession (save s).1 (save s).2
      = some ⟨(readHeader s).gs,
          (readTexts s.records (readHeader s)).1.map GoalText.record⟩ := by
  obtain ⟨hload, hstate⟩ := fix_files s.files (readHeader s)
  obtain ⟨hversion, hgs⟩ := readTexts_state s.records (readHeader_version s)
  obtain ⟨cache, hcalls⟩ := shapeCalls_uncached []
    ((readTexts s.records (readHeader s)).1.map fun g => (SumShapeVersion.sv6, g.shape))
  rw [← Session.records] at hload hstate
  have hfix : fixElement (save s).1 ⟨.create, (save s).2, none⟩
      = (.mk why3sessionTag
          (fixAttributes why3sessionTag
            [(shapeVersionKey, stringOfSumShapeVersion s.shapeVersion)]
            ⟨.create, (save s).2, none⟩).1
          (fixElements (s.files.map File.element) (readHeader s)).1,
        (fixElements (s.files.map File.element) (readHeader s)).2) := rfl
  rw [loadSession, hfix]
  dsimp only
  rw [if_pos rfl, hload, hstate]
  show (shapeCalls [] ((readTexts s.records (readHeader s)).1.map
    fun g => (Option.getD _ currentSumShapeVersion, g.shape))).bind _ = _
  rw [hversion, hcalls, Option.bind_some, hgs, map_map, zipWith_map_right,
    zipWith_self]
  rfl

/-- The loaded goals are those that were saved, each with its checksum and its shape,
and every rank stands for the same string. -/
def ReadsBack (s : Session) : Prop :=
  ∃ r, loadSession (save s).1 (save s).2 = some r ∧ r.goals = s.records ∧
    ∀ i, r.globalShapes.indexSh i = s.globalShapes.indexSh i

mutual

theorem Goal.records_shape : ∀ g : Goal, ∀ r ∈ g.records, ∃ l, r.shape = .boundShape l
  | .mk _ _ _ _ _ ts => by
    rw [Goal.records]
    exact forall_mem_cons.mpr ⟨⟨_, rfl⟩, transfRecords_shape ts⟩

theorem transfRecords_shape : ∀ ts, ∀ r ∈ transfRecords ts, ∃ l, r.shape = .boundShape l
  | [] => by simp [transfRecords]
  | t :: ts => by
    rw [transfRecords]
    exact forall_mem_append.mpr ⟨Transf.records_shape t, transfRecords_shape ts⟩

theorem Transf.records_shape : ∀ t : Transf, ∀ r ∈ t.records, ∃ l, r.shape = .boundShape l
  | .mk _ _ _ gs => by
    rw [Transf.records]
    exact goalRecords_shape gs

theorem goalRecords_shape : ∀ gs, ∀ r ∈ goalRecords gs, ∃ l, r.shape = .boundShape l
  | [] => by simp [goalRecords]
  | g :: gs => by
    rw [goalRecords]
    exact forall_mem_append.mpr ⟨Goal.records_shape g, goalRecords_shape gs⟩

end

theorem Session.records_shape (s : Session) : ∀ r ∈ s.records, ∃ l, r.shape = .boundShape l := by
  intro r hr
  obtain ⟨f, -, hr⟩ := mem_flatMap.mp hr
  obtain ⟨t, -, hr⟩ := mem_flatMap.mp hr
  exact goalRecords_shape _ r hr

theorem clean_of_index {s : Session} (hs : s.globalShapes.Filled)
    (h : ∀ i, (readHeader s).gs.indexSh i = s.globalShapes.indexSh i) :
    ∀ str ∈ s.globalShapes.strings, Clean str := by
  obtain ⟨l, hl⟩ := hs
  obtain ⟨l', hranked, hclean⟩ := readGlobalBuffer_clean ((save s).2.length + 1)
    Gshape.ranked_create (by simp) (save s).2
  have hgs : (readHeader s).gs
      = (readGlobalBuffer ((save s).2.length + 1) .create (save s).2).1 := by
    rw [readHeader_eq]
    split <;> rename_i heq <;> rw [heq]
  have heq : l' = l := by
    apply ext_getElem?
    intro i
    rw [← hranked.index, ← hl.index, ← hgs]
    exact h i
  rw [hl.strings, ← heq]
  exact hclean

theorem length_le_flatMap_lines (l : List Str) :
    l.length ≤ (l.flatMap fun str => str ++ ['\n']).length := by
  induction l with
  | nil => exact Nat.zero_le _
  | cons str l ih =>
    rw [flatMap_cons, length_append, length_append, length_singleton,
      length_cons]
    omega

/-- With clean strings the table is read back, and the goals stand next. -/
theorem readHeader_of_clean {s : Session} (hs : s.globalShapes.Filled)
    (h : ∀ str ∈ s.globalShapes.strings, Clean str) :
    (∀ i, (readHeader s).gs.indexSh i = s.globalShapes.indexSh i) ∧
      (readHeader s).sumShapeVersion = some .sv6 ∧
      (readHeader s).ch = s.records.flatMap GoalRecord.line := by
  obtain ⟨l, hl⟩ := hs
  rw [hl.strings] at h
  have htext : s.globalShapes.writeShapeToFile = l.flatMap fun str => str ++ ['\n'] := by
    rw [Gshape.writeShapeToFile, hl.strings]
  have hlong : l.length < (save s).2.length := by
    rw [save_text, htext, length_append, length_cons, length_append,
      length_cons]
    have hle := length_le_flatMap_lines l
    omega
  obtain ⟨gs', hread, hranked⟩ := readGlobalBuffer_strings Gshape.ranked_create
    (by rw [nil_append]; exact hl.nodup) h hlong (s.records.flatMap GoalRecord.line)
  have hbuffer : readGlobalBuffer ((save s).2.length + 1) .create (save s).2
      = (gs', some (s.records.flatMap GoalRecord.line)) := by
    conv_lhs => arg 3; rw [save_text, htext]
    rw [readGlobalBuffer_header]
    exact hread
  rw [readHeader_eq, hbuffer]
  refine ⟨fun i => ?_, rfl, rfl⟩
  rw [hl.index]
  exact hranked.index i

/-- A table of two strings, and a goal of a shape made of both. -/
def exampleShapes (expl : Str) : Gshape := (Gshape.create.addShapeG ['a', 'x']).addShapeG expl

theorem exampleShapes_ranked {expl : Str} (h : expl ≠ ['a', 'x']) :
    (exampleShapes expl).Ranked [['a', 'x'], expl] := by
  have hfirst : (Gshape.create.addShapeG ['a', 'x']).Ranked [['a', 'x']] :=
    Gshape.ranked_create.addShapeG_of_notMem not_mem_nil
  exact hfirst.addShapeG_of_notMem (by simpa using h)

/-- A goal, and below it a goal that has nothing stored. -/
def exampleSession (expl : Str) : Session where
  shapeVersion := .sv6
  bound := rfl
  globalShapes := exampleShapes expl
  files := [⟨[], false, [⟨['T'], false,
    [.mk ['g'] expl false (some (replicate 32 'c')) (some [wrap 1, wrap 0])
      [.mk ['t'] [] false [.mk ['g', '.', '0'] [] false none none []]]]⟩]⟩]

theorem exampleSession_records (expl : Str) :
    (exampleSession expl).records =
      [⟨['g'], expl, List.replicate 32 'c', .boundShape [wrap 1, wrap 0]⟩,
       ⟨['g', '.', '0'], [], [], .boundShape []⟩] := by
  have hsorted : sortedGoals [.mk ['g'] expl false (some (List.replicate 32 'c'))
        (some [wrap 1, wrap 0]) [.mk ['t'] [] false [.mk ['g', '.', '0'] [] false none none []]]]
      = [.mk ['g'] expl false (some (List.replicate 32 'c')) (some [wrap 1, wrap 0])
        [.mk ['t'] [] false [.mk ['g', '.', '0'] [] false none none []]]] := by
    simp [sortedGoals, Goal.sorted, sortedTransfs, Transf.sorted]
  rw [Session.records, exampleSession, flatMap_singleton, File.records, flatMap_singleton,
    Theory.records, hsorted]
  rfl

/-- A session reads back exactly when the strings of its global shapes are lines of
their own, and no line of a goal without a checksum is taken for another one. -/
theorem readsBack_iff (s : Session) (hs : s.globalShapes.Filled) :
    ReadsBack s ↔ (∀ str ∈ s.globalShapes.strings, Clean str) ∧ Matched s.records := by
  have hrs := s.records_shape
  constructor
  · rintro ⟨r, hr, hgoals, hindex⟩
    rw [loadSession_save, Option.some_inj] at hr
    subst hr
    have hclean := clean_of_index hs hindex
    obtain ⟨-, hversion, hch⟩ := readHeader_of_clean hs hclean
    exact ⟨hclean, (readTexts_iff hrs (by rw [hversion]; rfl) hch).mp hgoals⟩
  · rintro ⟨hclean, hmatched⟩
    obtain ⟨hindex, hversion, hch⟩ := readHeader_of_clean hs hclean
    exact ⟨_, loadSession_save s, (readTexts_iff hrs (by rw [hversion]; rfl) hch).mpr hmatched,
      hindex⟩

theorem readsBack_iff_plain :
    (exampleSession ['V', 'C']).globalShapes.Filled ∧ ReadsBack (exampleSession ['V', 'C']) := by
  have hranked := exampleShapes_ranked (by decide : ['V', 'C'] ≠ ['a', 'x'])
  refine ⟨⟨_, hranked⟩, (readsBack_iff (exampleSession ['V', 'C']) ⟨_, hranked⟩).mpr ⟨?_, ?_⟩⟩
  · show ∀ str ∈ (exampleShapes ['V', 'C']).strings, Clean str
    rw [hranked.strings]
    decide
  · exact ⟨[_], [_], exampleSession_records _, by simp, by decide,
      fun r hr => by rw [mem_singleton.mp hr]; exact ⟨rfl, rfl⟩⟩

/-- An explanation that looks like a comment is skipped. -/
theorem comment_not_readBack :
    (exampleSession ['(', '*', ')']).globalShapes.Filled ∧
    ¬ReadsBack (exampleSession ['(', '*', ')']) := by
  have hranked := exampleShapes_ranked (by decide : ['(', '*', ')'] ≠ ['a', 'x'])
  refine ⟨⟨_, hranked⟩, ?_⟩
  rintro ⟨r, hr, -, hindex⟩
  rw [loadSession_save, Option.some_inj] at hr
  subst hr
  have hclean := clean_of_index ⟨_, hranked⟩ hindex ['(', '*', ')'] (by
    show _ ∈ (exampleShapes ['(', '*', ')']).strings
    rw [hranked.strings]
    decide)
  exact absurd hclean (by decide)

end Why3.SessionItp
