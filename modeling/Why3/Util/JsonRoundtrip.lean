import Why3.Util.Json
import Why3.Lib.Lookup

/-!
# Reading JSON that was printed

A text that is any layout of a printed value without floating-point leaves is
parsed to the end, into the value with its bindings sorted and its empty records
read as `Null`.
-/

namespace Why3.JsonBase

open MachineInt List

variable {d rest s t w : List Byte} {c : Byte} {α : Type} {F : Type}

/-! ## Layouts -/

/-- What a layout inserts. -/
def White (w : List Byte) : Prop := ∀ c ∈ w, c = byte ' ' ∨ c = byte '\n'

theorem white_newline (n : ℕ) : White (byte '\n' :: replicate n (byte ' ')) := by
  intro c hc
  rcases mem_cons.mp hc with rfl | hc
  · exact .inr rfl
  · exact .inl (eq_of_mem_replicate hc)

theorem layout_text {d : List Piece} (h : Layout (.text s :: d) t) :
    ∃ t', t = s ++ t' ∧ Layout d t' := by
  cases h with
  | text h => exact ⟨_, rfl, h⟩

theorem layout_brk {d : List Piece} (h : Layout (.brk :: d) t) :
    ∃ w t', t = w ++ t' ∧ White w ∧ Layout d t' := by
  cases h with
  | space h =>
    refine ⟨[byte ' '], _, rfl, ?_, h⟩
    intro c hc
    exact .inl (mem_singleton.mp hc)
  | newline n h => exact ⟨_, _, rfl, white_newline n, h⟩

theorem layout_openBox {d : List Piece} (h : Layout (.openBox :: d) t) :
    ∃ w t', t = w ++ t' ∧ White w ∧ Layout d t' := by
  cases h with
  | openBox h => exact ⟨[], _, rfl, by simp [White], h⟩
  | openBoxNewline n h => exact ⟨_, _, rfl, white_newline n, h⟩

theorem layout_closeBox {d : List Piece} (h : Layout (.closeBox :: d) t) : Layout d t := by
  cases h with
  | closeBox h => exact h

theorem layout_nil (h : Layout [] t) : t = [] := by
  cases h
  rfl

theorem layout_append {d₁ d₂ : List Piece} (h : Layout (d₁ ++ d₂) t) :
    ∃ t₁ t₂, t = t₁ ++ t₂ ∧ Layout d₁ t₁ ∧ Layout d₂ t₂ := by
  induction d₁ generalizing t with
  | nil => exact ⟨[], t, rfl, .nil, h⟩
  | cons p d₁ ih =>
    cases h with
    | text h =>
      obtain ⟨t₁, t₂, rfl, h₁, h₂⟩ := ih h
      exact ⟨_, t₂, (append_assoc _ _ _).symm, .text h₁, h₂⟩
    | space h =>
      obtain ⟨t₁, t₂, rfl, h₁, h₂⟩ := ih h
      exact ⟨_, t₂, rfl, .space h₁, h₂⟩
    | newline n h =>
      obtain ⟨t₁, t₂, rfl, h₁, h₂⟩ := ih h
      exact ⟨_, t₂, by simp, .newline n h₁, h₂⟩
    | openBox h =>
      obtain ⟨t₁, t₂, rfl, h₁, h₂⟩ := ih h
      exact ⟨_, t₂, rfl, .openBox h₁, h₂⟩
    | openBoxNewline n h =>
      obtain ⟨t₁, t₂, rfl, h₁, h₂⟩ := ih h
      exact ⟨_, t₂, by simp, .openBoxNewline n h₁, h₂⟩
    | closeBox h =>
      obtain ⟨t₁, t₂, rfl, h₁, h₂⟩ := ih h
      exact ⟨_, t₂, rfl, .closeBox h₁, h₂⟩

/-! ## Strings -/

theorem hexVal_hexDigit : ∀ n < 16, hexVal (hexDigit n) = some n := by decide

theorem readString_escape {e x : Byte} (he : unescape e = some x) (buf s : List Byte) :
    readString buf (byte '\\' :: e :: s) = readString (buf ++ [x]) s := by
  rw [readString.eq_def]
  dsimp only
  rw [if_neg (by decide), if_pos rfl, he]

theorem readString_hex (buf s : List Byte) :
    readString buf (byte '\\' :: byte 'u' :: byte '0' :: byte '0' ::
      hexDigit (c.val / 16) :: hexDigit (c.val % 16) :: s) = readString (buf ++ [c]) s := by
  have hval : Fin.ofNat 256 (16 * (c.val / 16) + c.val % 16) = c := by
    apply Fin.ext
    rw [Nat.div_add_mod]
    exact Nat.mod_eq_of_lt c.isLt
  have hu : unescape (byte 'u') = none := by decide
  rw [readString.eq_def]
  dsimp only
  rw [if_neg (by decide), if_pos rfl, hu]
  dsimp only
  rw [if_pos ⟨rfl, rfl, rfl⟩, hexVal_hexDigit _ (by omega), hexVal_hexDigit _ (by omega)]
  dsimp only
  rw [hval]

theorem readString_plain (hq : c ≠ byte '"') (hb : c ≠ byte '\\') (buf s : List Byte) :
    readString buf (c :: s) = readString (buf ++ [c]) s := by
  rw [readString.eq_def]
  dsimp only
  rw [if_neg hq, if_neg hb]

theorem readString_char (buf : List Byte) (c : Byte) (s : List Byte) :
    readString buf (char c ++ s) = readString (buf ++ [c]) s := by
  rw [char]
  split_ifs with hquote hback h₃ h₄ h₅ h₆ h₇ hplain
  · subst hquote
    exact readString_escape (by decide) buf s
  · subst hback
    exact readString_escape (by decide) buf s
  · subst h₃
    exact readString_escape (by decide) buf s
  · subst h₄
    exact readString_escape (by decide) buf s
  · subst h₅
    exact readString_escape (by decide) buf s
  · subst h₆
    exact readString_escape (by decide) buf s
  · subst h₇
    exact readString_escape (by decide) buf s
  · exact readString_plain hquote hback buf s
  · exact readString_hex buf s

theorem readString_string (k buf rest : List Byte) :
    readString buf (k.flatMap char ++ byte '"' :: rest) = some (buf ++ k, rest) := by
  induction k generalizing buf with
  | nil =>
    rw [flatMap_nil, nil_append, readString.eq_def]
    dsimp only
    rw [if_pos rfl, append_nil]
  | cons c k ih =>
    rw [flatMap_cons, append_assoc, readString_char, ih, append_assoc,
      singleton_append]

/-! ## Tokens -/

section Read

variable (floatOfString : List Byte → Option F)

theorem read_white (hw : White w) (s : List Byte) :
    read floatOfString (w ++ s) = read floatOfString s := by
  induction w with
  | nil => rfl
  | cons c w ih =>
    have hc := hw c mem_cons_self
    rw [cons_append, read, if_pos]
    · exact ih fun x hx => hw x (mem_cons_of_mem _ hx)
    · rcases hc with hc | hc
      · exact .inl hc
      · exact .inr (.inr (.inr hc))

/-- A character that neither is white space nor starts a number. -/
structure Plain (c : Byte) : Prop where
  white : ¬ (c = byte ' ' ∨ c = byte '\t' ∨ c = byte '\r' ∨ c = byte '\n')
  digit : isDigit c = false
  sign : c ≠ byte '-'
  point : c ≠ byte '.'
  exp : ¬ (c = byte 'e' ∨ c = byte 'E')

theorem digits_cons (hc : isDigit c = false) (s : List Byte) : digits (c :: s) = 0 := by
  rw [digits, takeWhile_cons, hc]
  rfl

theorem floatLength_cons (hd : isDigit c = false) (hp : c ≠ byte '.')
    (he : ¬ (c = byte 'e' ∨ c = byte 'E')) (s : List Byte) : floatLength (c :: s) = 0 := by
  simp only [floatLength, digits_cons hd, drop_zero, fracLength, if_neg hp, Nat.add_zero,
    expLength, if_neg he]

theorem read_plain (hc : Plain c) (s : List Byte) : read floatOfString (c :: s) =
      if bytes "true" <+: c :: s then some (.tTrue, (c :: s).drop 4)
      else if bytes "false" <+: c :: s then some (.tFalse, (c :: s).drop 5)
      else if bytes "null" <+: c :: s then some (.tNull, (c :: s).drop 4)
      else if c = byte '"' then (readString [] s).map fun p => (.string p.1, p.2)
      else (punctuation c).map fun t => (t, s) := by
  have hint : intLength (c :: s) = 0 := by
    rw [intLength, if_neg hc.sign]
    exact digits_cons hc.digit s
  have hfloat := floatLength_cons hc.digit hc.point hc.exp s
  rw [read, if_neg hc.white, hint, hfloat, if_neg (by simp), if_neg (by simp)]

theorem read_noKeyword (hc : Plain c) (hk : c ≠ byte 't' ∧ c ≠ byte 'f' ∧ c ≠ byte 'n')
    (s : List Byte) : read floatOfString (c :: s) =
      if c = byte '"' then (readString [] s).map fun p => (.string p.1, p.2)
      else (punctuation c).map fun t => (t, s) := by
  have ht : ¬ bytes "true" <+: c :: s := fun hpre =>
    hk.1 (cons_prefix_cons.mp hpre).1.symm
  have hf : ¬ bytes "false" <+: c :: s := fun hpre =>
    hk.2.1 (cons_prefix_cons.mp hpre).1.symm
  have hn : ¬ bytes "null" <+: c :: s := fun hpre =>
    hk.2.2 (cons_prefix_cons.mp hpre).1.symm
  rw [read_plain floatOfString hc, if_neg ht, if_neg hf, if_neg hn]

/-- A token of one character. -/
theorem read_punctuation {t : Token F} (hc : Plain c) (hq : c ≠ byte '"')
    (hk : c ≠ byte 't' ∧ c ≠ byte 'f' ∧ c ≠ byte 'n') (ht : punctuation c = some t)
    (s : List Byte) : read floatOfString (c :: s) = some (t, s) := by
  rw [read_noKeyword floatOfString hc hk, if_neg hq, ht, Option.map_some]

theorem read_leftbrc (s : List Byte) :
    read floatOfString (byte '\x7b' :: s) = some (.leftbrc, s) :=
  read_punctuation floatOfString (by constructor <;> decide) (by decide) (by decide) rfl s

theorem read_rightbrc (s : List Byte) :
    read floatOfString (byte '\x7d' :: s) = some (.rightbrc, s) :=
  read_punctuation floatOfString (by constructor <;> decide) (by decide) (by decide) rfl s

theorem read_leftsq (s : List Byte) : read floatOfString (byte '[' :: s) = some (.leftsq, s) :=
  read_punctuation floatOfString (by constructor <;> decide) (by decide) (by decide) rfl s

theorem read_rightsq (s : List Byte) : read floatOfString (byte ']' :: s) = some (.rightsq, s) :=
  read_punctuation floatOfString (by constructor <;> decide) (by decide) (by decide) rfl s

theorem read_colon (s : List Byte) : read floatOfString (byte ':' :: s) = some (.colon, s) :=
  read_punctuation floatOfString (by constructor <;> decide) (by decide) (by decide) rfl s

theorem read_comma (s : List Byte) : read floatOfString (byte ',' :: s) = some (.comma, s) :=
  read_punctuation floatOfString (by constructor <;> decide) (by decide) (by decide) rfl s

theorem read_true (s : List Byte) : read floatOfString (bytes "true" ++ s) = some (.tTrue, s) := by
  rw [show bytes "true" ++ s = byte 't' :: (bytes "rue" ++ s) from rfl,
    read_plain floatOfString (by constructor <;> decide), if_pos]
  · rfl
  · exact prefix_append (bytes "true") s

theorem read_false (s : List Byte) :
    read floatOfString (bytes "false" ++ s) = some (.tFalse, s) := by
  rw [show bytes "false" ++ s = byte 'f' :: (bytes "alse" ++ s) from rfl,
    read_plain floatOfString (by constructor <;> decide), if_neg, if_pos]
  · rfl
  · exact prefix_append (bytes "false") s
  · intro hpre
    exact absurd (cons_prefix_cons.mp hpre).1 (by decide)

theorem read_null (s : List Byte) : read floatOfString (bytes "null" ++ s) = some (.tNull, s) := by
  rw [show bytes "null" ++ s = byte 'n' :: (bytes "ull" ++ s) from rfl,
    read_plain floatOfString (by constructor <;> decide), if_neg, if_neg, if_pos]
  · rfl
  · exact prefix_append (bytes "null") s
  · intro hpre
    exact absurd (cons_prefix_cons.mp hpre).1 (by decide)
  · intro hpre
    exact absurd (cons_prefix_cons.mp hpre).1 (by decide)

theorem read_string (k s : List Byte) :
    read floatOfString (string k ++ s) = some (.string k, s) := by
  rw [string, cons_append, append_assoc, singleton_append,
    read_noKeyword floatOfString (by constructor <;> decide) (by decide), if_pos rfl,
    readString_string, nil_append, Option.map_some]

/-- What follows a number ends it. -/
def NumEnd (s : List Byte) : Prop :=
  ∀ c t, s = c :: t → isDigit c = false ∧ c ≠ byte '.' ∧ ¬ (c = byte 'e' ∨ c = byte 'E')

theorem charOf_byte {c : Char} (h : c.toNat < 256) : charOf (byte c) = c := by
  have hval : (byte c).val = c.toNat := Nat.mod_eq_of_lt h
  rw [charOf, hval, Char.ofNat_toNat]

theorem isDigit_byte {c : Char} (h : c.isDigit) : isDigit (byte c) = true ∧ c.toNat < 256 := by
  have hd : '0' ≤ c ∧ c ≤ '9' := by
    simpa [Char.isDigit, Char.le_def] using h
  have hlo : '0'.toNat ≤ c.toNat := hd.1
  have hhi : c.toNat ≤ '9'.toNat := hd.2
  have h0 : '0'.toNat = 48 := rfl
  have h9 : '9'.toNat = 57 := rfl
  have hlt : c.toNat < 256 := by omega
  refine ⟨?_, hlt⟩
  have hval : (byte c).val = c.toNat := Nat.mod_eq_of_lt hlt
  have hlo' : byte '0' ≤ byte c := by
    rw [Fin.le_def, hval]
    exact hlo
  have hhi' : byte c ≤ byte '9' := by
    rw [Fin.le_def, hval]
    exact hhi
  rw [isDigit, decide_eq_true_iff]
  exact ⟨hlo', hhi'⟩

theorem intOfString_map_byte (n : Int63) :
    intOfString (((stringOfInt n).map byte).map charOf) = some n := by
  have hid : ((stringOfInt n).map byte).map charOf = stringOfInt n := by
    rw [map_map]
    conv_rhs => rw [← map_id (stringOfInt n)]
    apply map_congr_left
    intro c hc
    rcases mem_stringOfInt hc with rfl | hc
    · rfl
    · exact charOf_byte (isDigit_byte hc).2
  rw [hid, intOfString_stringOfInt]

theorem digits_append (hd : ∀ c ∈ d, isDigit c = true) (hs : NumEnd s) :
    digits (d ++ s) = d.length := by
  rw [digits, takeWhile_append_of_pos hd]
  cases s with
  | nil => simp
  | cons c t =>
    rw [takeWhile_cons, (hs c t rfl).1]
    simp

theorem floatLength_append (hd : ∀ c ∈ d, isDigit c = true) (hs : NumEnd s) :
    floatLength (d ++ s) = d.length := by
  have hfrac : fracLength s = 0 := by
    cases s with
    | nil => rfl
    | cons c t => rw [fracLength, if_neg (hs c t rfl).2.1]
  have hexp : expLength s = 0 := by
    cases s with
    | nil => rfl
    | cons c t => simp only [expLength, if_neg (hs c t rfl).2.2]
  simp only [floatLength, digits_append hd hs, drop_left, hfrac, Nat.add_zero, hexp]

theorem read_intText {p : List Byte} {n : Int63} (htext : p ++ d = c :: t)
    (hc : ¬ (c = byte ' ' ∨ c = byte '\t' ∨ c = byte '\r' ∨ c = byte '\n'))
    (hint : intLength (p ++ d ++ rest) = (p ++ d).length)
    (hfloat : floatLength (p ++ d ++ rest) ≤ (p ++ d).length)
    (hval : intOfString ((p ++ d).map charOf) = some n) :
    read floatOfString (p ++ d ++ rest) = some (.int n, rest) := by
  rw [htext] at hint hfloat hval ⊢
  rw [cons_append] at hint hfloat ⊢
  rw [read, if_neg hc, hint, if_pos ⟨Nat.succ_pos _, hfloat⟩]
  have htake : (c :: (t ++ rest)).take (c :: t).length = c :: t := by
    rw [← cons_append, take_left]
  have hdrop : (c :: (t ++ rest)).drop (c :: t).length = rest := by
    rw [← cons_append, drop_left]
  rw [htake, hdrop, hval, Option.map_some]

theorem isDigit_toDigits (n : ℕ) :
    (∀ c ∈ (Nat.toDigits 10 n).map byte, isDigit c = true) ∧ (Nat.toDigits 10 n).map byte ≠ [] := by
  constructor
  · intro c hc
    obtain ⟨x, hx, rfl⟩ := mem_map.mp hc
    exact (isDigit_byte (Nat.isDigit_of_mem_toDigits (by norm_num) (by norm_num) hx)).1
  · rw [ne_eq, map_eq_nil_iff]
    exact Nat.toDigits_ne_nil

theorem read_int (n : Int63) (hrest : NumEnd rest) :
    read floatOfString ((stringOfInt n).map byte ++ rest) = some (.int n, rest) := by
  have hval := intOfString_map_byte n
  obtain ⟨hd, hne⟩ := isDigit_toDigits n.val.natAbs
  have hother : ∀ c ∈ (Nat.toDigits 10 n.val.natAbs).map byte,
      ¬ (c = byte ' ' ∨ c = byte '\t' ∨ c = byte '\r' ∨ c = byte '\n') ∧ c ≠ byte '-' := by
    intro c hc
    constructor
    · rintro (rfl | rfl | rfl | rfl) <;> exact absurd (hd _ hc) (by decide)
    · rintro rfl
      exact absurd (hd _ hc) (by decide)
  rw [stringOfInt] at hval ⊢
  split_ifs at hval ⊢ with hneg
  · rw [map_cons] at hval ⊢
    generalize (Nat.toDigits 10 n.val.natAbs).map byte = d at *
    have hdig := digits_append hd hrest
    have hpos : d.length ≠ 0 := fun h => hne (length_eq_zero_iff.mp h)
    refine read_intText floatOfString (p := [byte '-']) (d := d) rfl (by decide) ?_ ?_ hval
    · show intLength (byte '-' :: (d ++ rest)) = d.length + 1
      rw [intLength, if_pos rfl, hdig, if_neg hpos]
    · show floatLength (byte '-' :: (d ++ rest)) ≤ _
      rw [floatLength_cons (by decide) (by decide) (by decide)]
      exact Nat.zero_le _
  · generalize (Nat.toDigits 10 n.val.natAbs).map byte = d at *
    cases d with
    | nil => exact absurd rfl hne
    | cons c t =>
      obtain ⟨hwhite, hsign⟩ := hother c mem_cons_self
      refine read_intText floatOfString (p := []) (d := c :: t) rfl hwhite ?_ ?_ hval
      · show intLength (c :: (t ++ rest)) = _
        rw [intLength, if_neg hsign]
        exact digits_append hd hrest
      · exact (floatLength_append hd hrest).le

end Read

/-! ## What is read back -/

inductive NoFloat : Json F → Prop
  | record {r : List (List Byte × Json F)} : (∀ b ∈ r, NoFloat b.2) → NoFloat (.record r)
  | list {l : List (Json F)} : (∀ v ∈ l, NoFloat v) → NoFloat (.list l)
  | string (s : List Byte) : NoFloat (.string s)
  | int (n : Int63) : NoFloat (.int n)
  | bool (b : Bool) : NoFloat (.bool b)
  | null : NoFloat .null

-- The value that is parsed: bindings are sorted, and the empty record is `Null`.
mutual
def reread : Json F → Json F
  | .record r => if r.isEmpty then .null else .record (sortBindings (rereadBindings r))
  | .list l => .list (rereadList l)
  | .string s => .string s
  | .int n => .int n
  | .float f => .float f
  | .bool b => .bool b
  | .null => .null
def rereadList : List (Json F) → List (Json F)
  | [] => []
  | v :: l => reread v :: rereadList l
def rereadBindings : List (List Byte × Json F) → List (List Byte × Json F)
  | [] => []
  | (k, v) :: r => (k, reread v) :: rereadBindings r
end

attribute [grind =] reread rereadList rereadBindings

theorem rereadList_eq (l : List (Json F)) : rereadList l = l.map reread := by
  induction l with
  | nil => rfl
  | cons v l ih => rw [rereadList, ih, map_cons]

theorem rereadBindings_eq (r : List (List Byte × Json F)) :
    rereadBindings r = r.map fun b => (b.1, reread b.2) := by
  induction r with
  | nil => rfl
  | cons b r ih => rw [rereadBindings, ih, map_cons]

theorem sortBindings_map {β : Type} (f : α → β) (r : List (List Byte × α)) :
    sortBindings (r.map fun b => (b.1, f b.2)) = (sortBindings r).map fun b => (b.1, f b.2) := by
  rw [sortBindings, sortBindings, map_mergeSort]
  intro a _ b _
  rfl

variable {j : Json F} {r : List (List Byte × Json F)}

section Parse

variable (printFloat : F → List Byte) (floatOfString : List Byte → Option F)

theorem printList_eq (l : List (Json F)) : printList printFloat l = l.map (printJson printFloat) := by
  induction l with
  | nil => rfl
  | cons v l ih => rw [printList, ih, map_cons]

theorem printBindings_eq (r : List (List Byte × Json F)) :
    printBindings printFloat r = r.map fun b => (b.1, printJson printFloat b.2) := by
  induction r with
  | nil => rfl
  | cons b r ih => rw [printBindings, ih, map_cons]

variable {floatOfString}

theorem value_white (hw : White w) (fuel : ℕ) (s : List Byte) :
    value floatOfString fuel (w ++ s) = value floatOfString fuel s := by
  cases fuel with
  | zero => rfl
  | succ fuel => rw [value, value, read_white floatOfString hw]

theorem elements_white (hw : White w) (fuel : ℕ) (acc : List (Json F)) (s : List Byte) :
    elements floatOfString fuel acc (w ++ s) = elements floatOfString fuel acc s := by
  cases fuel with
  | zero => rfl
  | succ fuel => rw [elements, elements, value_white hw]

theorem members_white (hw : White w) (fuel : ℕ) (acc : List (List Byte × Json F)) (s : List Byte) :
    members floatOfString fuel acc (w ++ s) = members floatOfString fuel acc s := by
  cases fuel with
  | zero => rfl
  | succ fuel => rw [members, members, read_white floatOfString hw]

theorem numEnd_cons (h : isDigit c = false ∧ c ≠ byte '.' ∧ ¬ (c = byte 'e' ∨ c = byte 'E'))
    (s : List Byte) : NumEnd (c :: s) := by
  intro c' t heq
  cases heq
  exact h

/-- The value is read from every layout of what is printed for it. -/
def Reads (printFloat : F → List Byte) (floatOfString : List Byte → Option F) (j : Json F) :
    Prop :=
  ∀ t fuel rest, Layout (printJson printFloat j) t → t.length ≤ fuel → NumEnd rest →
    value floatOfString fuel (t ++ rest) = some (reread j, rest)

/-- The elements of a list, up to its closing bracket. -/
theorem elements_print {l : List (Json F)} (hne : l ≠ [])
    (hl : ∀ v ∈ l, Reads printFloat floatOfString v) :
    ∀ t fuel rest acc, Layout (seq id (l.map (printJson printFloat)) ++
        [.text (bytes "]"), .closeBox]) t → t.length ≤ fuel →
      elements floatOfString fuel acc (t ++ rest)
        = some (.list (acc.reverse ++ l.map reread), rest) := by
  induction l with
  | nil => exact absurd rfl hne
  | cons v l ih =>
    intro t fuel rest acc ht hfuel
    have hv := hl v mem_cons_self
    cases l with
    | nil =>
      obtain ⟨tv, t', rfl, htv, ht'⟩ := layout_append ht
      obtain ⟨t'', rfl, ht''⟩ := layout_text ht'
      obtain rfl := layout_nil (layout_closeBox ht'')
      have hlen : tv.length + 1 ≤ fuel := by simpa [bytes] using hfuel
      obtain ⟨fuel, rfl⟩ : ∃ n, fuel = n + 1 := ⟨fuel - 1, by omega⟩
      rw [append_assoc]
      show elements floatOfString (fuel + 1) acc (tv ++ byte ']' :: rest) = _
      rw [elements, hv tv fuel _ htv (by omega) (numEnd_cons (by decide) _)]
      dsimp only
      rw [read_rightsq]
      simp
    | cons w l =>
      simp only [map_cons, seq, id, append_assoc] at ht
      obtain ⟨tv, t', rfl, htv, ht'⟩ := layout_append ht
      obtain ⟨t'', rfl, ht''⟩ := layout_text ht'
      obtain ⟨ws, t₃, rfl, hws, ht₃⟩ := layout_brk ht''
      have hlen : tv.length + (ws.length + t₃.length + 1) ≤ fuel := by
        simpa [bytes] using hfuel
      obtain ⟨fuel, rfl⟩ : ∃ n, fuel = n + 1 := ⟨fuel - 1, by omega⟩
      rw [append_assoc]
      show elements floatOfString (fuel + 1) acc (tv ++ byte ',' :: (ws ++ t₃ ++ rest)) = _
      rw [elements, hv tv fuel _ htv (by omega) (numEnd_cons (by decide) _)]
      dsimp only
      rw [read_comma]
      dsimp only
      rw [append_assoc, elements_white hws]
      rw [ih (by simp) (fun x hx => hl x (mem_cons_of_mem _ hx)) t₃ fuel rest _ ht₃
        (by omega)]
      simp

theorem layout_mapBinding {k : List Byte} {d d' : List Piece}
    (h : Layout (mapBinding (k, d) ++ d') t) :
    ∃ ws ws' tv t', t = ws ++ (string k ++ byte ':' :: (ws' ++ (tv ++ t'))) ∧ White ws ∧
      White ws' ∧ Layout d tv ∧ Layout d' t' := by
  simp only [mapBinding, append_assoc, cons_append, nil_append] at h
  obtain ⟨ws, t₁, rfl, hws, h₁⟩ := layout_openBox h
  obtain ⟨t₂, rfl, h₂⟩ := layout_text h₁
  obtain ⟨t₃, rfl, h₃⟩ := layout_text h₂
  obtain ⟨ws', t₄, rfl, hws', h₄⟩ := layout_brk h₃
  obtain ⟨tv, t₅, rfl, htv, h₅⟩ := layout_append h₄
  exact ⟨ws, ws', tv, t₅, rfl, hws, hws', htv, layout_closeBox h₅⟩

theorem members_binding {k ws ws' tv : List Byte} {v : Json F}
    (hv : Reads printFloat floatOfString v) (hws : White ws) (hws' : White ws')
    (htv : Layout (printJson printFloat v) tv) {fuel : ℕ} (hlen : tv.length ≤ fuel)
    (hrest : NumEnd rest) (acc : List (List Byte × Json F)) :
    members floatOfString (fuel + 1) acc (ws ++ (string k ++ byte ':' :: (ws' ++ (tv ++ rest)))) =
      match read floatOfString rest with
      | some (.comma, s) => members floatOfString fuel ((k, reread v) :: acc) s
      | some (.rightbrc, s) => some (.record ((k, reread v) :: acc).reverse, s)
      | _ => none := by
  rw [members_white hws, members, read_string]
  dsimp only
  rw [read_colon]
  dsimp only
  have hvalue : value floatOfString fuel (ws' ++ (tv ++ rest)) = some (reread v, rest) := by
    rw [value_white hws', hv tv fuel rest htv hlen hrest]
  exact hvalue ▸ rfl

/-- The bindings of a record, up to its closing brace. -/
theorem members_print (hne : r ≠ [])
    (hr : ∀ b ∈ r, Reads printFloat floatOfString b.2) :
    ∀ t fuel rest acc,
      Layout (seq mapBinding (r.map fun b => (b.1, printJson printFloat b.2)) ++
        [.text (bytes "\x7d"), .closeBox]) t → t.length ≤ fuel →
      members floatOfString fuel acc (t ++ rest)
        = some (.record (acc.reverse ++ r.map fun b => (b.1, reread b.2)), rest) := by
  induction r with
  | nil => exact absurd rfl hne
  | cons b r ih =>
    intro t fuel rest acc ht hfuel
    have hv := hr b mem_cons_self
    cases r with
    | nil =>
      obtain ⟨ws, ws', tv, t', rfl, hws, hws', htv, ht'⟩ := layout_mapBinding ht
      obtain ⟨t'', rfl, ht''⟩ := layout_text ht'
      obtain rfl := layout_nil (layout_closeBox ht'')
      simp only [append_nil, length_append, length_cons] at hfuel
      obtain ⟨fuel, rfl⟩ : ∃ n, fuel = n + 1 := ⟨fuel - 1, by omega⟩
      simp only [append_assoc, cons_append, append_nil]
      rw [show bytes "\x7d" ++ rest = byte '\x7d' :: rest from rfl,
        members_binding printFloat hv hws hws' htv (by omega) (numEnd_cons (by decide) rest),
        read_rightbrc]
      simp
    | cons c r =>
      simp only [map_cons, seq, append_assoc] at ht
      obtain ⟨ws, ws', tv, t', rfl, hws, hws', htv, ht'⟩ := layout_mapBinding ht
      obtain ⟨t'', rfl, ht''⟩ := layout_text ht'
      obtain ⟨ws₂, t₃, rfl, hws₂, ht₃⟩ := layout_brk ht''
      simp only [length_append, length_cons] at hfuel
      obtain ⟨fuel, rfl⟩ : ∃ n, fuel = n + 1 := ⟨fuel - 1, by omega⟩
      simp only [append_assoc, cons_append]
      rw [show bytes "," ++ (ws₂ ++ (t₃ ++ rest)) = byte ',' :: (ws₂ ++ (t₃ ++ rest)) from rfl,
        members_binding printFloat hv hws hws' htv (by omega) (numEnd_cons (by decide) _),
        read_comma]
      dsimp only
      rw [members_white hws₂, ih (by simp) (fun x hx => hr x (mem_cons_of_mem _ hx)) t₃
        fuel rest _ ht₃ (by omega)]
      simp

theorem reads_token {tok : Token F}
    (hprint : printJson printFloat j = [.text s]) (hne : s ≠ [])
    (hread : ∀ rest, NumEnd rest → read floatOfString (s ++ rest) = some (tok, rest))
    (hvalue : ∀ fuel rest t, read floatOfString t = some (tok, rest) →
      value floatOfString (fuel + 1) t = some (reread j, rest)) :
    Reads printFloat floatOfString j := by
  intro t fuel rest ht hfuel hrest
  rw [hprint] at ht
  obtain ⟨t', rfl, ht'⟩ := layout_text ht
  obtain rfl := layout_nil ht'
  rw [append_nil] at hfuel ⊢
  have hpos := length_pos_iff.mpr hne
  obtain ⟨fuel, rfl⟩ : ∃ n, fuel = n + 1 := ⟨fuel - 1, by omega⟩
  exact hvalue fuel rest _ (hread rest hrest)

theorem reads_list {l : List (Json F)} (hl : ∀ v ∈ l, Reads printFloat floatOfString v) :
    Reads printFloat floatOfString (.list l) := by
  intro t fuel rest ht hfuel _
  rw [printJson, list, printList_eq] at ht
  simp only [cons_append, nil_append] at ht
  obtain ⟨ws, t₁, rfl, hws, ht₁⟩ := layout_openBox ht
  obtain ⟨t₂, rfl, ht₂⟩ := layout_text ht₁
  have hlen : ws.length + (t₂.length + 1) ≤ fuel := by simpa [bytes] using hfuel
  obtain ⟨fuel, rfl⟩ : ∃ n, fuel = n + 1 := ⟨fuel - 1, by omega⟩
  rw [reread, rereadList_eq, append_assoc, value_white hws,
    show bytes "[" ++ t₂ ++ rest = byte '[' :: (t₂ ++ rest) from rfl, value, read_leftsq]
  dsimp only
  by_cases hne : l = []
  · subst hne
    obtain ⟨t₃, rfl, ht₃⟩ := layout_text ht₂
    obtain rfl := layout_nil (layout_closeBox ht₃)
    rw [show bytes "]" ++ [] ++ rest = byte ']' :: rest from rfl, read_rightsq]
    rfl
  · have helems := elements_print printFloat hne hl t₂ fuel rest [] ht₂ (by omega)
    split
    · -- a value does not start with a closing bracket
      next hread =>
        cases fuel with
        | zero => cases helems
        | succ fuel =>
          cases fuel with
          | zero => cases helems
          | succ fuel =>
            rw [elements, value, hread] at helems
            cases helems
    · exact helems

theorem reads_record
    (hr : ∀ b ∈ r, Reads printFloat floatOfString b.2) :
    Reads printFloat floatOfString (.record r) := by
  intro t fuel rest ht hfuel _
  rw [printJson, mapBindings, printBindings_eq, sortBindings_map] at ht
  simp only [cons_append, nil_append] at ht
  obtain ⟨ws, t₁, rfl, hws, ht₁⟩ := layout_openBox ht
  obtain ⟨t₂, rfl, ht₂⟩ := layout_text ht₁
  have hlen : ws.length + (t₂.length + 1) ≤ fuel := by simpa [bytes] using hfuel
  obtain ⟨fuel, rfl⟩ : ∃ n, fuel = n + 1 := ⟨fuel - 1, by omega⟩
  rw [reread, rereadBindings_eq, sortBindings_map, append_assoc, value_white hws,
    show bytes "\x7b" ++ t₂ ++ rest = byte '\x7b' :: (t₂ ++ rest) from rfl, value, read_leftbrc]
  dsimp only
  by_cases hne : r = []
  · subst hne
    rw [sortBindings, mergeSort_nil] at ht₂
    obtain ⟨t₃, rfl, ht₃⟩ := layout_text ht₂
    obtain rfl := layout_nil (layout_closeBox ht₃)
    rw [show bytes "\x7d" ++ [] ++ rest = byte '\x7d' :: rest from rfl, read_rightbrc]
    rfl
  · have hsorted : sortBindings r ≠ [] := by
      intro h
      have hlen := congrArg List.length h
      rw [sortBindings, length_mergeSort] at hlen
      exact hne (length_eq_zero_iff.mp hlen)
    have hmem : ∀ b ∈ sortBindings r, Reads printFloat floatOfString b.2 := by
      intro b hb
      exact hr b (mem_mergeSort.mp hb)
    have hmembers := members_print printFloat hsorted hmem t₂ fuel rest [] ht₂ (by omega)
    rw [if_neg (by simpa using hne)]
    split
    · -- a binding does not start with a closing brace
      next hread =>
        cases fuel with
        | zero => cases hmembers
        | succ fuel =>
          rw [members, hread] at hmembers
          cases hmembers
    · exact hmembers

/-- Every value without floating-point leaves is read back. -/
theorem reads_printJson (h : NoFloat j) : Reads printFloat floatOfString j := by
  induction h with
  | string s =>
    apply reads_token printFloat rfl (by simp [string]) (fun rest _ => read_string _ s rest)
    intro fuel rest t ht
    rw [value, ht]
    rfl
  | int n =>
    apply reads_token printFloat rfl ?_ (fun rest hrest => read_int _ n hrest)
    · intro fuel rest t ht
      rw [value, ht]
      rfl
    · intro hnil
      have hprinted := congrArg intOfString (map_eq_nil_iff.mp hnil)
      rw [intOfString_stringOfInt] at hprinted
      cases hprinted
  | bool b =>
    cases b with
    | true =>
      apply reads_token printFloat rfl (by decide) (fun rest _ => read_true _ rest)
      intro fuel rest t ht
      rw [value, ht]
      rfl
    | false =>
      apply reads_token printFloat rfl (by decide) (fun rest _ => read_false _ rest)
      intro fuel rest t ht
      rw [value, ht]
      rfl
  | null =>
    apply reads_token printFloat rfl (by decide) (fun rest _ => read_null _ rest)
    intro fuel rest t ht
    rw [value, ht]
    rfl
  | list _ ih => exact reads_list printFloat ih
  | record _ ih => exact reads_record printFloat ih

theorem parse_printJson (h : NoFloat j) (ht : Layout (printJson printFloat j) t) :
    parse floatOfString t = some (reread j, []) := by
  have hend : NumEnd [] := fun c s hs => by cases hs
  have hreads : Reads printFloat floatOfString j := reads_printJson printFloat h
  have := hreads t (t.length + 1) [] ht (Nat.le_succ _) hend
  rwa [append_nil] at this

end Parse

/-! ## Values up to the order of bindings -/

/-- Equality of values, with records compared as maps: a key stands for the first
binding that has it. -/
inductive Same : Json F → Json F → Prop
  | record {r r' : List (List Byte × Json F)} :
      (∀ k, Lookup.find r k = none ↔ Lookup.find r' k = none) →
      (∀ k v v', Lookup.find r k = some v → Lookup.find r' k = some v' → Same v v') →
      Same (.record r) (.record r')
  | list {l l' : List (Json F)} : l.length = l'.length →
      (∀ (i : ℕ) v v', l[i]? = some v → l'[i]? = some v' → Same v v') →
      Same (.list l) (.list l')
  | string (s : List Byte) : Same (.string s) (.string s)
  | int (n : Int63) : Same (.int n) (.int n)
  | float (f : F) : Same (.float f) (.float f)
  | bool (b : Bool) : Same (.bool b) (.bool b)
  | null : Same .null .null

-- The value with `Null` for each of its empty records.
mutual
def emptyToNull : Json F → Json F
  | .record r => if r.isEmpty then .null else .record (emptyToNullBindings r)
  | .list l => .list (emptyToNullList l)
  | .string s => .string s
  | .int n => .int n
  | .float f => .float f
  | .bool b => .bool b
  | .null => .null
def emptyToNullList : List (Json F) → List (Json F)
  | [] => []
  | v :: l => emptyToNull v :: emptyToNullList l
def emptyToNullBindings : List (List Byte × Json F) → List (List Byte × Json F)
  | [] => []
  | (k, v) :: r => (k, emptyToNull v) :: emptyToNullBindings r
end

attribute [grind =] emptyToNull emptyToNullList emptyToNullBindings

theorem emptyToNullList_eq (l : List (Json F)) : emptyToNullList l = l.map emptyToNull := by
  induction l with
  | nil => rfl
  | cons v l ih => rw [emptyToNullList, ih, map_cons]

theorem emptyToNullBindings_eq (r : List (List Byte × Json F)) :
    emptyToNullBindings r = r.map fun b => (b.1, emptyToNull b.2) := by
  induction r with
  | nil => rfl
  | cons b r ih => rw [emptyToNullBindings, ih, map_cons]

theorem find_eq_head (r : List (List Byte × α)) (k : List Byte) :
    Lookup.find r k = ((r.filter fun b => decide (b.1 = k)).head?).map Prod.snd := by
  induction r with
  | nil => rfl
  | cons b r ih =>
    rw [Lookup.find, Lookup.lookup_cons, filter_cons]
    by_cases h : b.1 = k
    · simp [h]
    · rw [if_neg fun heq => h heq.symm, if_neg (by simpa using h)]
      exact ih

theorem find_sortBindings (r : List (List Byte × α)) (k : List Byte) :
    Lookup.find (sortBindings r) k = Lookup.find r k := by
  have hsub : (r.filter fun b => decide (b.1 = k)).Sublist (sortBindings r) := by
    apply sublist_mergeSort
    · intro a b c hab hbc
      rw [decide_eq_true_eq] at *
      exact le_trans hab hbc
    · intro a b
      simpa using le_total a.1 b.1
    · apply pairwise_of_forall_mem_list
      intro a ha b hb
      have hak : a.1 = k := by simpa using (mem_filter.mp ha).2
      have hbk : b.1 = k := by simpa using (mem_filter.mp hb).2
      rw [hak, hbk, decide_eq_true_eq]
    · exact filter_sublist
  have hfilter : (r.filter fun b => decide (b.1 = k))
      = (sortBindings r).filter fun b => decide (b.1 = k) := by
    apply List.Sublist.eq_of_length
    · simpa only [filter_filter, Bool.and_self] using
        hsub.filter fun b => decide (b.1 = k)
    · exact ((mergeSort_perm r _).filter _).length_eq.symm
  rw [find_eq_head, find_eq_head, hfilter]

theorem find_map {β : Type} (f : α → β) (r : List (List Byte × α)) (k : List Byte) :
    Lookup.find (r.map fun b => (b.1, f b.2)) k = (Lookup.find r k).map f := by
  induction r with
  | nil => rfl
  | cons b r ih =>
    rw [map_cons, Lookup.find, Lookup.lookup_cons, Lookup.find, Lookup.lookup_cons]
    split_ifs with h
    · rfl
    · exact ih

theorem same_reread (h : NoFloat j) : Same (emptyToNull j) (reread j) := by
  induction h with
  | string s => exact .string s
  | int n => exact .int n
  | bool b => exact .bool b
  | null => exact .null
  | @list l _ ih =>
    rw [emptyToNull, reread, emptyToNullList_eq, rereadList_eq]
    refine .list (by simp) ?_
    intro i v v' hv hv'
    rw [getElem?_map, Option.map_eq_some_iff] at hv hv'
    obtain ⟨x, hx, rfl⟩ := hv
    obtain ⟨x', hx', rfl⟩ := hv'
    rw [hx] at hx'
    cases hx'
    exact ih x (mem_of_getElem? hx)
  | @record r _ ih =>
    rw [emptyToNull, reread, emptyToNullBindings_eq, rereadBindings_eq, sortBindings_map]
    split_ifs with hempty
    · exact .null
    · refine .record (fun k => ?_) (fun k v v' hv hv' => ?_)
      · rw [find_map, find_map, find_sortBindings, Option.map_eq_none_iff,
          Option.map_eq_none_iff]
      · rw [find_map, Option.map_eq_some_iff] at hv hv'
        rw [find_sortBindings] at hv'
        obtain ⟨x, hx, rfl⟩ := hv
        obtain ⟨x', hx', rfl⟩ := hv'
        rw [hx] at hx'
        cases hx'
        exact ih _ (Lookup.mem_of_find hx)

/-- Every layout of a printed value without floating-point leaves is parsed to its
end, into the value with its empty records read as `Null`. -/
theorem json_parse_print (printFloat : F → List Byte) (floatOfString : List Byte → Option F)
    (j : Json F) (h : NoFloat j) (t : List Byte) (ht : Layout (printJson printFloat j) t) :
    ∃ j', parse floatOfString t = some (j', []) ∧ Same (emptyToNull j) j' :=
  ⟨reread j, parse_printJson printFloat h ht, same_reread h⟩

/-! ## The layout on one line -/

/-- Every break is a space. -/
def flat : List Piece → List Byte
  | [] => []
  | .text s :: d => s ++ flat d
  | .brk :: d => byte ' ' :: flat d
  | .openBox :: d => flat d
  | .closeBox :: d => flat d

theorem layout_flat (d : List Piece) : Layout d (flat d) := by
  induction d with
  | nil => exact .nil
  | cons p d ih =>
    cases p with
    | text s => exact .text ih
    | brk => exact .space ih
    | openBox => exact .openBox ih
    | closeBox => exact .closeBox ih

/-- A record with a list that holds a negative number and a quote. -/
def sampleJson : Json Unit :=
  .record [(bytes "a", .list [.int (wrap (-1)), .string (bytes "\"")])]

theorem json_parse_print_sample :
    ∃ j', parse (fun _ => none) (flat (printJson (fun _ => []) sampleJson)) = some (j', []) ∧
      Same (emptyToNull sampleJson) j' := by
  refine json_parse_print (fun _ => []) _ _ ?_ _ (layout_flat _)
  refine .record fun b hb => ?_
  obtain rfl := mem_singleton.mp hb
  refine .list fun v hv => ?_
  rcases mem_cons.mp hv with rfl | hv
  · exact .int _
  · obtain rfl := mem_singleton.mp hv
    exact .string _

/-- The empty record is read as `Null`. -/
theorem not_json_parse_print :
    ¬ ∀ j : Json Unit, NoFloat j → ∀ t, Layout (printJson (fun _ => []) j) t →
      ∃ j', parse (fun _ => none) t = some (j', []) ∧ Same j j' := by
  intro h
  have hempty : NoFloat (.record [] : Json Unit) := .record fun b hb => by cases hb
  obtain ⟨j', hj', hsame⟩ := h (.record []) hempty _ (layout_flat _)
  rw [parse_printJson (fun _ => []) hempty (layout_flat _)] at hj'
  cases hj'
  cases hsame

end Why3.JsonBase
