import Why3.Util.Strings

/-!
# Finding a prover by its description

`parse_filter_prover` and `filter_one_prover` of `driver/whyconf.ml`.
-/

namespace Why3.Whyconf

open Strings

/-- The regular expressions of the library, of type `R`.  A text that is quoted is always
one; any other may be rejected with an exception, `none`. -/
structure RegexpLib (R : Type) where
  regexp : List Char → Option R
  quote : List Char → List Char
  stringMatch : R → List Char → Bool
  regexp_empty : (regexp ['^', '$']).isSome
  regexp_quote : ∀ s, (regexp ('^' :: quote s ++ ['$'])).isSome

structure Prover where
  name : List Char
  version : List Char
  altern : List Char
deriving DecidableEq

structure Config where
  provers : List Prover
  proverShortcuts : List Char → Option Prover

structure RegexpDesc (R : Type) where
  reg : R
  desc : List Char

structure FilterProver (R : Type) where
  name : RegexpDesc R
  version : Option (RegexpDesc R)
  altern : Option (RegexpDesc R)

inductive Exn
  | parseFilterProver (s : List Char)
  | invalidArg
  | regexp (s : List Char)
  | proverNotFound
  | proverAmbiguity

variable {R : Type} (L : RegexpLib R) (conf : Config)

def why3RegexpOfString (s : List Char) : Option R :=
  if s = [] then L.regexp ['^', '$']
  else if s.head? = some '^' then L.regexp s
  else L.regexp ('^' :: L.quote s ++ ['$'])

def mkRegexp (s : List Char) : Except Exn (RegexpDesc R) :=
  match why3RegexpOfString L s with
  | some reg => .ok ⟨reg, s⟩
  | none => .error (.regexp s)

def mkRegexpOption : Option (List Char) → Except Exn (Option (RegexpDesc R))
  | none => .ok none
  | some s => (mkRegexp L s).map some

def mkFilterProver (version altern : Option (List Char)) (name : List Char) :
    Except Exn (FilterProver R) :=
  if version = some [] then .error .invalidArg
  else do
    let altern ← mkRegexpOption L altern
    let version ← mkRegexpOption L version
    let name ← mkRegexp L name
    .ok ⟨name, version, altern⟩

def filterFromProver (pr : Prover) : Except Exn (FilterProver R) := do
  let altern ← mkRegexp L pr.altern
  let version ← mkRegexp L pr.version
  let name ← mkRegexp L pr.name
  .ok ⟨name, some version, some altern⟩

/-- The pieces come in the reverse order. -/
def parseFilterProver (s : List Char) : Except Exn (FilterProver R) :=
  match revSplit ',' s with
  | [name] => mkFilterProver L none none name
  | [version, name] => mkFilterProver L (some version) (some []) name
  | [altern, [], name] => mkFilterProver L none (some altern) name
  | [altern, version, name] => mkFilterProver L (some version) (some altern) name
  | _ => .error (.parseFilterProver s)

def filterProver (fp : FilterProver R) (p : Prover) : Bool :=
  let check s schema := L.stringMatch (RegexpDesc.reg schema) s
  check p.name fp.name && fp.version.elim true (check p.version) &&
    fp.altern.elim true (check p.altern)

def filterProverWithShortcut (fp : FilterProver R) : Except Exn (FilterProver R) :=
  if fp.version.isNone ∧ fp.altern.isNone then
    match conf.proverShortcuts fp.name.desc with
    | some prover => filterFromProver L prover
    | none => .ok fp
  else .ok fp

def filterOneProver (fp : FilterProver R) : Except Exn Prover :=
  match filterProverWithShortcut L conf fp with
  | .error e => .error e
  | .ok fp =>
    match conf.provers.filter (filterProver L fp) with
    | [prover] => .ok prover
    | [] => .error .proverNotFound
    | _ => .error .proverAmbiguity

/-! ## What raises -/

/-- The exceptions that mean that the description names no prover, or several. -/
def Exn.notUnique : Exn → Bool
  | .proverNotFound => true
  | .proverAmbiguity => true
  | _ => false

def RegexpOk (s : List Char) : Prop := s.head? = some '^' → (L.regexp s).isSome

/-- A description of one, two or three pieces that are no wrong regular expressions, with a
version unless there are three; a shortcut gives the pieces of its prover. -/
def DescriptionOk (p : List Char) : Prop :=
  match p.splitOn ',' with
  | [name] =>
    RegexpOk L name ∧ ∀ prover, conf.proverShortcuts name = some prover →
      RegexpOk L prover.name ∧ RegexpOk L prover.version ∧ RegexpOk L prover.altern
  | [name, version] => RegexpOk L name ∧ version ≠ [] ∧ RegexpOk L version
  | [name, version, altern] => RegexpOk L name ∧ RegexpOk L version ∧ RegexpOk L altern
  | _ => False

/-- What `prover` of the strategy parser calls. -/
def findProver (p : List Char) : Except Exn Prover :=
  match parseFilterProver L p with
  | .error e => .error e
  | .ok fp => filterOneProver L conf fp

variable {L conf}

theorem why3RegexpOfString_isSome {s : List Char} :
    (why3RegexpOfString L s).isSome ↔ RegexpOk L s := by
  rw [why3RegexpOfString, RegexpOk]
  split_ifs with hnil hhat
  · simp [hnil, L.regexp_empty]
  · simp [hhat]
  · exact iff_of_true (L.regexp_quote s) fun h => absurd h hhat

theorem mkRegexp_cases (L : RegexpLib R) (s : List Char) :
    (RegexpOk L s ∧ ∃ reg, mkRegexp L s = .ok ⟨reg, s⟩) ∨
      (¬ RegexpOk L s ∧ mkRegexp L s = .error (.regexp s)) := by
  rw [← why3RegexpOfString_isSome, mkRegexp]
  cases why3RegexpOfString L s with
  | none => exact .inr ⟨Bool.false_ne_true, rfl⟩
  | some reg => exact .inl ⟨rfl, reg, rfl⟩

/-- No exception, or one that says that the prover is not unique. -/
def Fine {A : Type} (x : Except Exn A) : Prop := ∀ e, x = .error e → e.notUnique = true

theorem fine_ok {A : Type} {x : A} : Fine (.ok x : Except Exn A) := by
  rintro e ⟨⟩

theorem not_fine {A : Type} {e : Exn} (h : e.notUnique = false) :
    ¬ Fine (.error e : Except Exn A) := fun hf => by
  rw [hf e rfl] at h
  cases h

theorem filterFromProver_fine {pr : Prover} :
    Fine (filterFromProver L pr) ↔
      RegexpOk L pr.name ∧ RegexpOk L pr.version ∧ RegexpOk L pr.altern := by
  rw [filterFromProver]
  rcases mkRegexp_cases L pr.altern with ⟨ha, ra, hra⟩ | ⟨ha, hra⟩
  · rcases mkRegexp_cases L pr.version with ⟨hv, rv, hrv⟩ | ⟨hv, hrv⟩
    · rcases mkRegexp_cases L pr.name with ⟨hn, rn, hrn⟩ | ⟨hn, hrn⟩
      · rw [hra, hrv, hrn]
        exact iff_of_true fine_ok ⟨hn, hv, ha⟩
      · rw [hra, hrv, hrn]
        exact iff_of_false (not_fine rfl) fun h => hn h.1
    · rw [hra, hrv]
      exact iff_of_false (not_fine rfl) fun h => hv h.2.1
  · rw [hra]
    exact iff_of_false (not_fine rfl) fun h => ha h.2.2

theorem filterOneProver_fine {fp : FilterProver R} :
    Fine (filterOneProver L conf fp) ↔ Fine (filterProverWithShortcut L conf fp) := by
  rw [filterOneProver]
  cases filterProverWithShortcut L conf fp with
  | error e =>
    constructor
    · rintro h e' ⟨⟩
      exact h e rfl
    · rintro h e' ⟨⟩
      exact h e rfl
  | ok fp =>
    refine iff_of_true ?_ fine_ok
    dsimp only
    split
    · exact fine_ok
    · rintro e ⟨⟩
      rfl
    · rintro e ⟨⟩
      rfl

theorem mkFilterProver_cases (L : RegexpLib R) (version altern : Option (List Char))
    (name : List Char) :
    ((version ≠ some [] ∧ RegexpOk L name ∧ (∀ v ∈ version, RegexpOk L v) ∧
        ∀ a ∈ altern, RegexpOk L a) ∧
      ∃ fp, mkFilterProver L version altern name = .ok fp ∧ fp.name.desc = name ∧
        fp.version.isNone = version.isNone ∧ fp.altern.isNone = altern.isNone) ∨
    (¬ (version ≠ some [] ∧ RegexpOk L name ∧ (∀ v ∈ version, RegexpOk L v) ∧
        ∀ a ∈ altern, RegexpOk L a) ∧
      ∃ e, mkFilterProver L version altern name = .error e ∧ e.notUnique = false) := by
  rw [mkFilterProver]
  by_cases hempty : version = some []
  · right
    rw [if_pos hempty]
    exact ⟨fun h => h.1 hempty, _, rfl, rfl⟩
  rw [if_neg hempty]
  have hoption : ∀ o : Option (List Char),
      ((∀ s ∈ o, RegexpOk L s) ∧ ∃ r, mkRegexpOption L o = .ok r ∧ r.isNone = o.isNone) ∨
        ((¬ ∀ s ∈ o, RegexpOk L s) ∧ ∃ s, mkRegexpOption L o = .error (.regexp s)) := by
    rintro (- | s)
    · exact .inl ⟨nofun, none, rfl, rfl⟩
    · rw [mkRegexpOption]
      rcases mkRegexp_cases L s with ⟨hok, reg, hreg⟩ | ⟨hbad, hreg⟩
      · left
        rw [hreg]
        exact ⟨fun s' hs' => Option.mem_some_iff.mp hs' ▸ hok, _, rfl, rfl⟩
      · right
        rw [hreg]
        exact ⟨fun h => hbad (h s rfl), s, rfl⟩
  rcases hoption altern with ⟨ha, ra, hra, hna⟩ | ⟨ha, s, hra⟩
  · rcases hoption version with ⟨hv, rv, hrv, hnv⟩ | ⟨hv, s, hrv⟩
    · rcases mkRegexp_cases L name with ⟨hn, rn, hrn⟩ | ⟨hn, hrn⟩
      · left
        rw [hra, hrv, hrn]
        exact ⟨⟨hempty, hn, hv, ha⟩, _, rfl, rfl, hnv, hna⟩
      · right
        rw [hra, hrv, hrn]
        exact ⟨fun h => hn h.2.1, _, rfl, rfl⟩
    · right
      rw [hra, hrv]
      exact ⟨fun h => hv h.2.2.1, _, rfl, rfl⟩
  · right
    rw [hra]
    exact ⟨fun h => ha h.2.2.2, _, rfl, rfl⟩

/-- A filter with a version or an alternative is looked up as it is. -/
theorem findProver_of_mk {p name : List Char} {version altern : Option (List Char)}
    (h : parseFilterProver L p = mkFilterProver L version altern name)
    (hne : ¬ (version.isNone ∧ altern.isNone)) :
    Fine (findProver L conf p) ↔
      version ≠ some [] ∧ RegexpOk L name ∧ (∀ v ∈ version, RegexpOk L v) ∧
        ∀ a ∈ altern, RegexpOk L a := by
  rw [findProver, h]
  rcases mkFilterProver_cases L version altern name with
    ⟨hok, fp, hfp, -, hnv, hna⟩ | ⟨hbad, e, he, hnot⟩
  · rw [hfp]
    refine iff_of_true ?_ hok
    rw [← hnv, ← hna] at hne
    rw [filterOneProver_fine, filterProverWithShortcut, if_neg hne]
    exact fine_ok
  · rw [he]
    exact iff_of_false (not_fine hnot) hbad

/-- The descriptions for which the only exceptions are that no prover fits, or several. -/
theorem findProver_fine {p : List Char} :
    Fine (findProver L conf p) ↔ DescriptionOk L conf p := by
  rw [DescriptionOk]
  have hrev := revSplit_eq_reverse ',' p
  rcases hp : p.splitOn ',' with - | ⟨name, - | ⟨version, - | ⟨altern, - | ⟨x, rest⟩⟩⟩⟩
  · exact absurd hp (List.splitOn_ne_nil ',' p)
  · -- a name, maybe a shortcut
    rw [hp] at hrev
    have hparse : parseFilterProver L p = mkFilterProver L none none name := by
      rw [parseFilterProver, hrev]
      rfl
    rw [findProver, hparse]
    rcases mkFilterProver_cases L none none name with
      ⟨⟨-, hn, -⟩, fp, hfp, hdesc, hnv, hna⟩ | ⟨hbad, e, he, hnot⟩
    · rw [hfp]
      dsimp only
      rw [filterOneProver_fine, filterProverWithShortcut, if_pos ⟨hnv, hna⟩, hdesc]
      cases hs : conf.proverShortcuts name with
      | none => exact iff_of_true fine_ok ⟨hn, fun _ h => by cases h⟩
      | some prover =>
        dsimp only
        rw [filterFromProver_fine]
        constructor
        · intro h
          exact ⟨hn, fun _ hp' => Option.some.inj hp' ▸ h⟩
        · intro h
          exact h.2 prover rfl
    · rw [he]
      refine iff_of_false (not_fine hnot) fun h => hbad ⟨nofun, h.1, nofun, nofun⟩
  · rw [hp] at hrev
    have hparse : parseFilterProver L p = mkFilterProver L (some version) (some []) name := by
      rw [parseFilterProver, hrev]
      rfl
    have hnil : RegexpOk L [] := nofun
    rw [findProver_of_mk hparse (by simp)]
    simp [hnil]
    tauto
  · rw [hp] at hrev
    by_cases hv : version = []
    · have hparse : parseFilterProver L p = mkFilterProver L none (some altern) name := by
        rw [parseFilterProver, hrev, hv]
        rfl
      have hnil : RegexpOk L version := hv ▸ nofun
      rw [findProver_of_mk hparse (by simp)]
      simp [hnil]
    · have hparse : parseFilterProver L p
          = mkFilterProver L (some version) (some altern) name := by
        rw [parseFilterProver, hrev]
        cases version with
        | nil => exact absurd rfl hv
        | cons c version => rfl
      rw [findProver_of_mk hparse (by simp)]
      simp [hv]
  · have hlen : (revSplit ',' p).length = rest.length + 4 := by
      rw [hrev, hp, List.length_reverse]
      rfl
    have hparse : parseFilterProver L p = .error (.parseFilterProver p) := by
      rw [parseFilterProver]
      split
      case h_5 => rfl
      all_goals
        next heq =>
          rw [heq] at hlen
          simp at hlen
    rw [findProver, hparse]
    exact iff_of_false (not_fine rfl) fun h => h

end Why3.Whyconf
