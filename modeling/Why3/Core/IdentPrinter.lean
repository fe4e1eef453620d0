import Why3.Lib.Lookup

/-!
# Unique names for printing

The identifier printers of `core/ident.ml`.  A printer keeps a table of the names
in use, each with the last number that was appended to it, and a table of the
names it gave to identifiers.  A string is the list of its characters; an
identifier is its string and its tag, which is what tells identifiers apart.
-/

namespace Why3.Printing

open List Lookup
open Prod (fst snd)

variable {name : List Char} {ind : ℕ}

/-! ## Notations -/

/-- What `sn_decode` recognises in a string. -/
inductive Notation
  | snWord (s : List Char)
  | snInfix (s : List Char)
  | snTight (s : List Char)
  | snPrefix (s : List Char)
  | snGet (s : List Char)
  | snSet (s : List Char)
  | snUpdate (s : List Char)
  | snCut (s : List Char)
  | snLcut (s : List Char)
  | snRcut (s : List Char)
deriving DecidableEq, Repr

def printSn : Notation → List Char
  | .snInfix p => '(' :: lspace p ++ p ++ rspace p ++ [')']
  | .snTight p => '(' :: p ++ rspace p ++ [')']
  | .snPrefix p => '(' :: lspace p ++ p ++ "_)".toList
  | .snGet p => "([]".toList ++ p ++ [')']
  | .snSet p => "([]".toList ++ p ++ "<-)".toList
  | .snUpdate p => "([<-]".toList ++ p ++ [')']
  | .snCut p => "([..]".toList ++ p ++ [')']
  | .snLcut p => "([.._]".toList ++ p ++ [')']
  | .snRcut p => "([_..]".toList ++ p ++ [')']
  | .snWord p => p
where
  lspace (p : List Char) : List Char := if p.head? = some '*' then [' '] else []
  rspace (p : List Char) : List Char := if p.getLast? = some '*' then [' '] else []

/-- `String.sub`. -/
def sub (s : List Char) (i n : ℕ) : List Char := (s.drop i).take n

def isOpchar (c : Char) : Bool :=
  c ∈ ['@', '!', '^', '$', '=', '%', '>', '#', '.', '<', '-', '&', '/', '+', '?', ':', '*',
    '~', '|', '\\']

def isTightOpchar (c : Char) : Bool :=
  c ∈ ['!', '$', '&', '?', '@', '^', '.', ':', '|', '#']

/-- The notation of a prefix operator: a tight one starts with `!` or `?`. -/
def decodePrefix (o : List Char) (n : ℕ) : Notation :=
  if o.head? ≠ some '!' ∧ o.head? ≠ some '?' then .snPrefix o
  else if ((o.drop 1).take n).all isTightOpchar then .snTight o else .snPrefix o

/-- Here `k` is where the operator starts, `l` where its characters end, and `m`
where its quotes end. -/
def snDecode (s : List Char) : Notation :=
  let len := s.length
  if len ≤ 6 then .snWord s
  else if s[5]? ≠ some ' ' ∧ s[6]? ≠ some ' ' then .snWord s
  else
    let k :=
      if sub s 0 6 = "infix ".toList then 6
      else if sub s 0 6 = "prefix".toList then 7
      else if sub s 0 6 = "mixfix".toList then
        match (s.drop 7).findIdx? (· == ']') with
        | some i => 7 + i + 1
        | none => 0
      else 0
    if k = 0 then .snWord s
    else
      let l := k + ((s.drop k).takeWhile isOpchar).length
      let q := l + ((s.drop l).takeWhile (· == '\'')).length
      let m := if q = len ∨ q = l ∨ s[q]? = some '_' then q else q - 1
      if l = k ∧ k < 8 then .snWord s
      else
        let w :=
          if k = 6 then .snInfix (sub s 6 (m - 6))
          else if k = 7 then decodePrefix (sub s 7 (m - 7)) (l - 8)
          else
            let p := if l < m then sub s l (m - l) else []
            let o := sub s 8 (l - 8)
            if o = "]".toList then .snGet p
            else if o = "]<-".toList then .snSet p
            else if o = "<-]".toList then .snUpdate p
            else if o = "..]".toList then .snCut p
            else if o = ".._]".toList then .snLcut p
            else if o = "_..]".toList then .snRcut p
            else .snWord (if m = len then s else sub s 0 m)
        if m = len then w
        else if s[m]? ≠ some '\'' ∧ s[m]? ≠ some '_' then .snWord s
        else .snWord (printSn w ++ sub s m (len - m))

/-! ## Fresh names -/

/-- The table `indices`: the names in use, each with the number that was last
appended to it. -/
abbrev Indices := List (List Char × ℕ)

/-- A number is appended to a word, quotes to an operator. -/
def specname (name : List Char) (ind : ℕ) : List Char :=
  if ind = 0 then name
  else
    match snDecode name with
    | .snWord _ => name ++ Nat.toDigits 10 ind
    | _ => name ++ replicate ind '\''

def testname (indices : Indices) (name : List Char) (ind : ℕ) : Bool :=
  (find indices (specname name ind)).isSome

/-- The suffixes of one name are all numbers or all quotes. -/
theorem specname_eq (name : List Char) :
    (∀ ind, specname name ind = name ++ if ind = 0 then [] else Nat.toDigits 10 ind) ∨
      ∀ ind, specname name ind = name ++ replicate ind '\'' := by
  by_cases hw : ∃ s, snDecode name = .snWord s
  · obtain ⟨s, hs⟩ := hw
    left
    intro ind
    rw [specname, hs]
    split_ifs <;> simp
  · right
    intro ind
    rw [specname]
    split_ifs with h0
    · simp [h0]
    · split
      · next s hs => exact absurd ⟨s, hs⟩ hw
      · rfl

theorem specname_injective (name : List Char) : Function.Injective (specname name) := by
  intro i j h
  rcases specname_eq name with hs | hs
  · rw [hs, hs] at h
    have hsuffix := append_cancel_left h
    split_ifs at hsuffix with hi hj hj
    · rw [hi, hj]
    · exact absurd hsuffix.symm Nat.toDigits_ne_nil
    · exact absurd hsuffix Nat.toDigits_ne_nil
    · have := congrArg (fun l => Nat.ofDigitChars 10 l 0) hsuffix
      simpa only [Nat.ofDigitChars_ten_toDigits] using this
  · rw [hs, hs] at h
    simpa using congrArg List.length (append_cancel_left h)

variable {indices : Indices}

theorem testname_iff : testname indices name ind = true ↔ specname name ind ∈ indices.map fst :=
  find_isSome

/-- The entries whose name is not among the first `ind` names that are tried. -/
def untried (indices : Indices) (name : List Char) (ind : ℕ) : Indices :=
  indices.filter fun e => decide (e.1 ∉ (List.range ind).map (specname name))

theorem untried_succ_lt (h : testname indices name ind = true) :
    (untried indices name (ind + 1)).length < (untried indices name ind).length := by
  have hsplit : untried indices name (ind + 1)
      = (untried indices name ind).filter fun e => decide (e.1 ≠ specname name ind) := by
    rw [untried, untried, filter_filter]
    apply filter_congr
    intro e _
    simp [range_succ, and_comm]
  rw [testname_iff, mem_map] at h
  obtain ⟨e, he, hname⟩ := h
  rw [hsplit, length_filter_lt_length_iff_exists]
  refine ⟨e, ?_, by simp [hname]⟩
  rw [untried, mem_filter, decide_eq_true_eq, hname, mem_map]
  refine ⟨he, ?_⟩
  rintro ⟨i, hi, heq⟩
  rw [specname_injective name heq] at hi
  exact absurd (mem_range.mp hi) (lt_irrefl ind)

/-- The next number whose name is not in use.  The search ends: the names tried are
different, and each of them is in the table. -/
def advance (indices : Indices) (name : List Char) (ind : ℕ) : ℕ :=
  if testname indices name ind then advance indices name (ind + 1) else ind
termination_by (untried indices name ind).length
decreasing_by
  exact untried_succ_lt (by assumption)

/-- Back to the first number above a name in use. -/
def retreat (indices : Indices) (name : List Char) : ℕ → ℕ
  | 0 => 0
  | ind + 1 =>
    if ind + 1 = 1 ∨ testname indices name ind then ind + 1 else retreat indices name ind

def fetch (indices : Indices) (name : List Char) (ind : ℕ) : ℕ :=
  if testname indices name ind then advance indices name (ind + 1)
  else retreat indices name ind

/-- The fresh name, and the table with it. -/
def findUnique (indices : Indices) (name : List Char) : List Char × Indices :=
  match find indices name with
  | some i =>
    let ind := fetch indices name (i + 1)
    let indices := replace indices name ind
    let name := specname name ind
    (name, replace indices name 0)
  | none => (name, replace indices name 0)

theorem testname_advance (indices : Indices) (name : List Char) (ind : ℕ) :
    testname indices name (advance indices name ind) = false := by
  induction ind using advance.induct indices name with
  | case1 ind htest ih =>
    rw [advance, if_pos htest]
    exact ih
  | case2 ind htest =>
    rw [advance, if_neg htest]
    exact Bool.eq_false_iff.mpr htest

theorem testname_retreat (h : testname indices name ind = false) :
    testname indices name (retreat indices name ind) = false := by
  induction ind with
  | zero => exact h
  | succ ind ih =>
    rw [retreat]
    split_ifs with hstop
    · exact h
    · apply ih
      rw [not_or] at hstop
      exact Bool.eq_false_iff.mpr hstop.2

theorem testname_fetch (indices : Indices) (name : List Char) (ind : ℕ) :
    testname indices name (fetch indices name ind) = false := by
  rw [fetch]
  split_ifs with htest
  · exact testname_advance indices name (ind + 1)
  · exact testname_retreat (Bool.eq_false_iff.mpr htest)

theorem findUnique_notMem (indices : Indices) (name : List Char) :
    (findUnique indices name).1 ∉ indices.map fst := by
  rw [findUnique]
  split
  · next i hi =>
      have := testname_fetch indices name (i + 1)
      rw [← Bool.not_eq_true, testname_iff] at this
      exact this
  · next hnone =>
      rw [← find_isSome, hnone]
      decide

/-- Only the new name enters the table, and none leaves it. -/
theorem mem_findUnique {k : List Char} : k ∈ (findUnique indices name).2.map fst ↔
      k = (findUnique indices name).1 ∨ k ∈ indices.map fst := by
  rw [findUnique]
  split
  · next i hi =>
      have hname : name ∈ indices.map fst := by
        rw [← find_isSome, hi]
        rfl
      rw [mem_keys_replace, mem_keys_replace]
      constructor
      · rintro (h | rfl | h)
        · exact .inl h
        · exact .inr hname
        · exact .inr h
      · exact Or.imp_right .inr
  · exact mem_keys_replace name 0

theorem mem_findUnique_self (indices : Indices) (name : List Char) :
    name ∈ (findUnique indices name).2.map fst := by
  rw [mem_findUnique]
  by_cases h : name ∈ indices.map fst
  · exact .inr h
  · left
    have hnone : find indices name = none := by
      rwa [← find_isSome, Option.not_isSome_iff_eq_none] at h
    rw [findUnique, hnone]

/-! ## Printers -/

structure Ident where
  idString : List Char
  idTag : ℕ

variable {id : Ident}

/-- The table `values` is keyed by the tags of the identifiers. -/
structure IdentPrinter where
  indices : Indices
  values : List (ℕ × List Char)
  sanitizer : List Char → List Char
  blacklist : List (List Char)

def reserve (indices : Indices) (name : List Char) : Indices := (findUnique indices name).2

def createIdentPrinter (sanitizer : List Char → List Char) (sl : List (List Char)) :
    IdentPrinter :=
  { indices := sl.foldl reserve []
    values := []
    sanitizer := sanitizer
    blacklist := sl }

def idUnique (printer : IdentPrinter) (sanitizer : List Char → List Char) (id : Ident) :
    List Char × IdentPrinter :=
  match find printer.values id.idTag with
  | some name => (name, printer)
  | none =>
    let name := sanitizer (printer.sanitizer id.idString)
    let (name, indices) := findUnique printer.indices name
    (name, { printer with
      indices := indices, values := replace printer.values id.idTag name })

def stringUnique (printer : IdentPrinter) (s : List Char) : List Char × IdentPrinter :=
  let (name, indices) := findUnique printer.indices (printer.sanitizer s)
  (name, { printer with indices := indices })

def forgetId (printer : IdentPrinter) (id : Ident) : IdentPrinter :=
  match find printer.values id.idTag with
  | some name =>
    { printer with
      indices := remove printer.indices name
      values := remove printer.values id.idTag }
  | none => printer

def forgetAll (printer : IdentPrinter) : IdentPrinter :=
  { printer with values := [], indices := printer.blacklist.foldl reserve [] }

/-! ## Runs -/

inductive Op
  | idUnique (sanitizer : List Char → List Char) (id : Ident)
  | stringUnique (s : List Char)
  | forgetId (id : Ident)
  | forgetAll

def step (printer : IdentPrinter) : Op → IdentPrinter
  | .idUnique sanitizer id => (idUnique printer sanitizer id).2
  | .stringUnique s => (stringUnique printer s).2
  | .forgetId id => forgetId printer id
  | .forgetAll => forgetAll printer

def run (printer : IdentPrinter) (ops : List Op) : IdentPrinter := ops.foldl step printer

/-- The operation does not forget the identifier. -/
def Keeps (id : Ident) : Op → Prop
  | .idUnique _ _ | .stringUnique _ => True
  | .forgetId id' => id'.idTag ≠ id.idTag
  | .forgetAll => False

/-- The identifier was printed as `name` and has not been forgotten since. -/
def PrintedAs (printer : IdentPrinter) (ops : List Op) (id : Ident) (name : List Char) : Prop :=
  ∃ pre sanitizer post, ops = pre ++ Op.idUnique sanitizer id :: post ∧
    (∀ op ∈ post, Keeps id op) ∧ name = (idUnique (run printer pre) sanitizer id).1

/-! ## The invariant -/

/-- The names given out are different, in use and not in the blacklist, which is
in use as well. -/
structure IdentPrinter.Inv (printer : IdentPrinter) : Prop where
  used : ∀ t name, find printer.values t = some name →
    name ∈ printer.indices.map fst ∧ name ∉ printer.blacklist
  inj : ∀ t t' name, find printer.values t = some name →
    find printer.values t' = some name → t = t'
  black : ∀ name ∈ printer.blacklist, name ∈ printer.indices.map fst

theorem mem_reserve {sl : List (List Char)} (h : name ∈ sl ∨ name ∈ indices.map fst) :
    name ∈ (sl.foldl reserve indices).map fst := by
  induction sl generalizing indices with
  | nil => exact h.resolve_left (not_mem_nil)
  | cons s sl ih =>
    apply ih
    rw [mem_cons, or_assoc] at h
    rcases h with rfl | h | h
    · exact .inr (mem_findUnique_self indices name)
    · exact .inl h
    · exact .inr (mem_findUnique.mpr (.inr h))

theorem inv_createIdentPrinter (sanitizer : List Char → List Char) (sl : List (List Char)) :
    (createIdentPrinter sanitizer sl).Inv where
  used t name h := by cases h
  inj t t' name h := by cases h
  black name h := mem_reserve (.inl h)

variable {printer : IdentPrinter}

/-- A fresh name does not disturb the names that were given out. -/
theorem IdentPrinter.Inv.findUnique (hinv : printer.Inv) (name : List Char) :
    ({ printer with indices := (findUnique printer.indices name).2 } : IdentPrinter).Inv where
  used t n h := ⟨mem_findUnique.mpr (.inr (hinv.used t n h).1), (hinv.used t n h).2⟩
  inj := hinv.inj
  black n h := mem_findUnique.mpr (.inr (hinv.black n h))

theorem inv_idUnique (hinv : printer.Inv) (sanitizer : List Char → List Char) (id : Ident) :
    (idUnique printer sanitizer id).2.Inv := by
  rw [idUnique]
  split
  · exact hinv
  · dsimp only
    have hfresh := findUnique_notMem printer.indices (sanitizer (printer.sanitizer id.idString))
    have hinv' := hinv.findUnique (sanitizer (printer.sanitizer id.idString))
    generalize hn : findUnique printer.indices (sanitizer (printer.sanitizer id.idString)) = r
      at hfresh hinv' ⊢
    have hmem : r.1 ∈ r.2.map fst := by
      rw [← hn]
      exact mem_findUnique.mpr (.inl rfl)
    refine ⟨fun t n h => ?_, fun t t' n h h' => ?_, hinv'.black⟩
    · dsimp only at h ⊢
      rw [find_replace] at h
      split_ifs at h with ht
      · cases h
        exact ⟨hmem, fun hb => hfresh (hinv.black _ hb)⟩
      · exact hinv'.used t n h
    · dsimp only at h h'
      rw [find_replace] at h h'
      split_ifs at h h' with ht ht' ht'
      · rw [ht, ht']
      · cases h
        exact absurd (hinv.used t' _ h').1 hfresh
      · cases h'
        exact absurd (hinv.used t _ h).1 hfresh
      · exact hinv.inj t t' n h h'

theorem inv_forgetId (hinv : printer.Inv) (id : Ident) : (forgetId printer id).Inv := by
  rw [forgetId]
  split
  · next name hname =>
      refine ⟨fun t n h => ?_, fun t t' n h h' => ?_, fun n h => ?_⟩
      · dsimp only at h ⊢
        rw [find_remove] at h
        split_ifs at h with ht
        obtain ⟨hin, hblack⟩ := hinv.used t n h
        refine ⟨(mem_keys_remove name).mpr ⟨?_, hin⟩, hblack⟩
        rintro rfl
        exact ht (hinv.inj t id.idTag n h hname)
      · dsimp only at h h'
        rw [find_remove] at h h'
        split_ifs at h h' with ht ht'
        exact hinv.inj t t' n h h'
      · dsimp only at h ⊢
        refine (mem_keys_remove name).mpr ⟨?_, hinv.black n h⟩
        rintro rfl
        exact (hinv.used id.idTag n hname).2 h
  · exact hinv

theorem inv_forgetAll (printer : IdentPrinter) : (forgetAll printer).Inv where
  used t name h := by cases h
  inj t t' name h := by cases h
  black name h := mem_reserve (.inl h)

theorem inv_step (hinv : printer.Inv) (op : Op) : (step printer op).Inv := by
  cases op with
  | idUnique sanitizer id => exact inv_idUnique hinv sanitizer id
  | stringUnique s => exact hinv.findUnique (printer.sanitizer s)
  | forgetId id => exact inv_forgetId hinv id
  | forgetAll => exact inv_forgetAll printer

theorem inv_run (hinv : printer.Inv) (ops : List Op) : (run printer ops).Inv := by
  induction ops generalizing printer with
  | nil => exact hinv
  | cons op ops ih => exact ih (inv_step hinv op)

/-! ## Names that are kept -/

theorem find_idUnique (printer : IdentPrinter) (sanitizer : List Char → List Char)
    (id : Ident) :
    find (idUnique printer sanitizer id).2.values id.idTag
      = some (idUnique printer sanitizer id).1 := by
  rw [idUnique]
  split
  · next name hname => exact hname
  · dsimp only
    rw [find_replace, if_pos rfl]

theorem blacklist_step (printer : IdentPrinter) (op : Op) :
    (step printer op).blacklist = printer.blacklist := by
  cases op with
  | idUnique sanitizer id =>
    rw [step, idUnique]
    split <;> rfl
  | stringUnique s => rfl
  | forgetId id =>
    rw [step, forgetId]
    split <;> rfl
  | forgetAll => rfl

theorem blacklist_run (printer : IdentPrinter) (ops : List Op) :
    (run printer ops).blacklist = printer.blacklist := by
  induction ops generalizing printer with
  | nil => rfl
  | cons op ops ih => exact (ih (step printer op)).trans (blacklist_step printer op)

theorem find_step {op : Op} (hfind : find printer.values id.idTag = some name) (hop : Keeps id op) :
    find (step printer op).values id.idTag = some name := by
  cases op with
  | idUnique sanitizer id' =>
    rw [step, idUnique]
    split
    · exact hfind
    · next hnone =>
        dsimp only
        rw [find_replace, if_neg, hfind]
        intro heq
        rw [← heq, hfind] at hnone
        cases hnone
  | stringUnique s => exact hfind
  | forgetId id' =>
    rw [step, forgetId]
    split
    · dsimp only
      rw [find_remove, if_neg fun h => hop h.symm, hfind]
    · exact hfind
  | forgetAll => cases hop

theorem find_run {ops : List Op} (hfind : find printer.values id.idTag = some name)
    (hops : ∀ op ∈ ops, Keeps id op) : find (run printer ops).values id.idTag = some name := by
  induction ops generalizing printer with
  | nil => exact hfind
  | cons op ops ih =>
    apply ih
    · exact find_step hfind (hops op mem_cons_self)
    · exact fun o ho => hops o (mem_cons_of_mem _ ho)

theorem PrintedAs.find {ops : List Op} (h : PrintedAs printer ops id name) :
    find (run printer ops).values id.idTag = some name := by
  obtain ⟨pre, sanitizer, post, rfl, hpost, rfl⟩ := h
  rw [run, foldl_append, foldl_cons]
  exact find_run (find_idUnique _ sanitizer id) hpost

/-- Along every run, an identifier that was printed and not forgotten since keeps
its name, which is not in the blacklist and is not the name of another such
identifier. -/
theorem printed_names_unique (sanitizer : List Char → List Char) (sl : List (List Char))
    (ops : List Op) (id : Ident) (name : List Char)
    (h : PrintedAs (createIdentPrinter sanitizer sl) ops id name) :
    name ∉ sl ∧
    (∀ s, (idUnique (run (createIdentPrinter sanitizer sl) ops) s id).1 = name) ∧
    ∀ id' name', PrintedAs (createIdentPrinter sanitizer sl) ops id' name' →
      id.idTag ≠ id'.idTag → name ≠ name' := by
  have hinv := inv_run (inv_createIdentPrinter sanitizer sl) ops
  refine ⟨?_, fun s => ?_, ?_⟩
  · have hblack := (hinv.used _ _ h.find).2
    rwa [blacklist_run] at hblack
  · rw [idUnique, h.find]
  · rintro id' name' h' hne rfl
    exact hne (hinv.inj _ _ _ h.find h'.find)

/-- Two identifiers of one name, which is also in the blacklist. -/
theorem printed_names_unique_collision :
    let printer := createIdentPrinter (fun s => s) [['x']]
    (idUnique printer (fun s => s) ⟨['x'], 1⟩).1
      ≠ (idUnique (run printer [.idUnique (fun s => s) ⟨['x'], 1⟩]) (fun s => s) ⟨['x'], 2⟩).1 := by
  intro printer
  have h₁ : PrintedAs printer
      [.idUnique (fun s => s) ⟨['x'], 1⟩, .idUnique (fun s => s) ⟨['x'], 2⟩] ⟨['x'], 1⟩
      (idUnique printer (fun s => s) ⟨['x'], 1⟩).1 := by
    refine ⟨[], fun s => s, [.idUnique (fun s => s) ⟨['x'], 2⟩], rfl, ?_, rfl⟩
    intro op hop
    rw [mem_singleton.mp hop]
    trivial
  refine (printed_names_unique (fun s => s) [['x']] _ _ _ h₁).2.2 ⟨['x'], 2⟩ _ ?_ (by decide)
  exact ⟨[.idUnique (fun s => s) ⟨['x'], 1⟩], fun s => s, [], rfl, by simp, rfl⟩

end Why3.Printing
