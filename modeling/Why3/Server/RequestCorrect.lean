import Why3.Server.Request

/-!
# Client and server on the same request

Reading a line is reading its fields.  What the server decodes from the lines of
the client follows field by field; the time limit is the one field that the two
ends write differently.
-/

namespace Why3.Server

open MachineInt Fields List

variable {n : ℕ} {q : ℚ} {c : Char}

/-! ## The C library -/

theorem cstring_eq_self {s : List Char} (h : nul ∉ s) : cstring s = s :=
  takeWhile_eq_self_iff.mpr fun _ hc => decide_eq_true fun e => h (e ▸ hc)

theorem nul_not_mem_cstring (s : List Char) : nul ∉ cstring s := fun h => by
  have := mem_takeWhile_imp h
  simp at this

theorem cstring_eq_iff {s t : List Char} (ht : t = s) : cstring s = t ↔ nul ∉ s := by
  subst ht
  constructor
  · intro h
    rw [← h]
    exact nul_not_mem_cstring t
  · exact cstring_eq_self

theorem cstring_cstring (s : List Char) : cstring (cstring s) = cstring s :=
  cstring_eq_self (nul_not_mem_cstring s)

theorem length_cstring_le (s : List Char) : (cstring s).length ≤ s.length :=
  (takeWhile_sublist _).length_le

theorem strncmpEq_iff {a b : List Char} (hb : nul ∉ b) (hn : (cstring a).length < n) :
    strncmpEq a b n = true ↔ cstring a = b := by
  rw [strncmpEq, decide_eq_true_iff, cstring_eq_self hb]
  constructor
  · intro h
    rw [take_of_length_le (by rw [length_append]; exact hn)] at h
    by_cases hle : n ≤ b.length
    · -- the other string would hold the terminator
      rw [take_append_of_le_length hle] at h
      have hmem : nul ∈ b := mem_of_mem_take (h ▸ mem_append_right _ (mem_singleton_self _))
      exact absurd hmem hb
    · rw [take_of_length_le (by rw [length_append, length_singleton]; omega)] at h
      exact append_cancel_right h
  · intro h
    rw [h]

theorem toInt_eq {n : ℤ} (h0 : 0 ≤ n) (h : n ≤ intMax) : toInt n = n := by
  rw [toInt]
  rw [intMax] at h
  omega

theorem toInt_le (n : ℤ) : toInt n ≤ intMax := by
  rw [toInt, intMax]
  omega

theorem strtol_digits {rest : List Char} (hn : (n : ℤ) ≤ longMax)
    (hrest : ∀ c ∈ rest.head?, c.isDigit = false) : strtol (Nat.toDigits 10 n ++ rest) = n := by
  have hd : ∀ c ∈ Nat.toDigits 10 n, c.isDigit := fun c hc =>
    Nat.isDigit_of_mem_toDigits (by norm_num) (by norm_num) hc
  obtain ⟨c, t, hct⟩ := exists_cons_of_ne_nil (Nat.toDigits_ne_nil (b := 10) (n := n))
  have hc : c.isDigit := hd c (hct ▸ mem_cons_self)
  have hsp : isSpace c = false := by
    have h0 : 48 ≤ c.toNat := by
      have : '0' ≤ c ∧ c ≤ '9' := by simpa [Char.isDigit, Char.le_def] using hc
      exact this.1
    have hne : c ≠ ' ' := by
      rintro rfl
      exact absurd h0 (by decide)
    rw [isSpace, decide_eq_false_iff_not]
    rintro (h | h)
    · exact hne h
    · omega
  have hdrop : (Nat.toDigits 10 n ++ rest).dropWhile isSpace = Nat.toDigits 10 n ++ rest := by
    rw [hct, cons_append, dropWhile_cons_of_neg (by simp [hsp])]
  have htake : (Nat.toDigits 10 n ++ rest).takeWhile Char.isDigit = Nat.toDigits 10 n := by
    rw [takeWhile_append_of_pos hd]
    cases rest with
    | nil => rw [takeWhile_nil, append_nil]
    | cons d r =>
      rw [takeWhile_cons_of_neg (by simp [hrest d rfl]), append_nil]
  have hsign : parseSign (Nat.toDigits 10 n ++ rest) = (false, Nat.toDigits 10 n ++ rest) := by
    rw [hct, cons_append]
    exact parseSign_of_isDigit hc
  rw [strtol, hdrop, hsign]
  dsimp only
  rw [htake, Nat.ofDigitChars_ten_toDigits, if_neg Bool.false_ne_true, min_eq_right hn,
    max_eq_right]
  rw [longMin]
  omega

theorem atoi_digits {n : ℕ} {rest : List Char} (hn : (n : ℤ) ≤ intMax)
    (hrest : ∀ c ∈ rest.head?, c.isDigit = false) : atoi (Nat.toDigits 10 n ++ rest) = n := by
  rw [atoi, strtol_digits _ hrest, toInt_eq (by omega) hn]
  rw [intMax] at hn
  rw [longMax]
  omega

theorem stringOfInt_nonneg {n : Int63} (h : 0 ≤ n.val) :
    stringOfInt n = Nat.toDigits 10 n.val.toNat := by
  rw [stringOfInt, if_neg (by omega), show n.val.natAbs = n.val.toNat by omega]

theorem atoi_stringOfInt {n : Int63} (h0 : 0 ≤ n.val) (h : n.val ≤ intMax) :
    atoi (stringOfInt n) = n.val := by
  have := @atoi_digits n.val.toNat [] (by omega) (by simp)
  rw [append_nil] at this
  rw [stringOfInt_nonneg h0, this]
  omega

/-! ## A line is read field by field -/

/-- What the server does with the fields of a line. -/
def parseFields (key parallel : ℤ) : List (List Char) → Option Request × ℤ
  | [head, payload] =>
    if cstring head = "parallel".toList then
      (none, if 1 ≤ atoi (cstring payload) then atoi (cstring payload) else parallel)
    else if cstring head = "interrupt".toList then
      (some (.interrupt key (cstring payload)), parallel)
    else (none, parallel)
  | head :: id :: timeout :: memlimit :: cmd :: args =>
    if cstring head = "run".toList ∨ cstring head = "runstdin".toList then
      (some (.run ⟨key, cstring id, atoi (cstring timeout), toUnsigned (atoi (cstring memlimit)),
        !decide (cstring head = "run".toList), cstring cmd, args.map cstring⟩), parallel)
    else (none, parallel)
  | _ => (none, parallel)

section Cursor

variable (pre : List (List Char)) {fs : List (List Char)} {f : List Char}

/-- The cursor stands at a field that is not the last one. -/
theorem copyUpToSemicolon_join (hf : ';' ∉ f) (hfs : fs ≠ []) :
    copyUpToSemicolon (join ';' (pre ++ f :: fs)) (offset pre)
      = (cstring f, offset (pre ++ [f])) := by
  have hlt := @length_join_lt _ ';' pre f _ hfs
  rw [copyUpToSemicolon, drop_offset pre (cons_ne_nil _ _), takeWhile_join hf,
    if_neg hlt.ne, offset_append_singleton]

theorem copyUpToSemicolon_last (hf : ';' ∉ f) :
    (copyUpToSemicolon (join ';' (pre ++ [f])) (offset pre)).1 = cstring f := by
  rw [copyUpToSemicolon, drop_offset pre (cons_ne_nil _ _), takeWhile_join hf]

theorem copyArgs_join (h : ∀ f ∈ fs, ';' ∉ f) :
    copyArgs (join ';' (pre ++ fs)) fs.length (offset pre) = fs.map cstring := by
  induction fs generalizing pre with
  | nil => rfl
  | cons f fs ih =>
    have hf := h f mem_cons_self
    rw [length_cons, copyArgs, map_cons]
    dsimp only
    by_cases hfs : fs = []
    · subst hfs
      rw [copyUpToSemicolon_last pre hf]
      rfl
    · have hrest := ih (pre ++ [f]) fun x hx => h x (mem_cons_of_mem _ hx)
      rw [append_assoc, singleton_append] at hrest
      rw [copyUpToSemicolon_join pre hf hfs]
      dsimp only
      rw [hrest]

end Cursor

section Line

variable {head : List Char} {fs : List (List Char)} {key parallel : ℤ}

/-- The word of the command, with its position. -/
theorem copyUpToSemicolon_head (hh : ';' ∉ head) (hfs : fs ≠ []) :
    copyUpToSemicolon (join ';' (head :: fs)) 0 = (cstring head, offset [head]) :=
  copyUpToSemicolon_join [] hh hfs

theorem strncmpEq_head {word : List Char} (hw : nul ∉ word) :
    strncmpEq (cstring head) word (offset [head]) = decide (cstring head = word) := by
  have hlen : (cstring (cstring head)).length < offset [head] := by
    have := length_cstring_le head
    rw [cstring_cstring]
    simp [offset]
    omega
  have hiff := strncmpEq_iff hw hlen
  rw [cstring_cstring] at hiff
  rw [Bool.eq_iff_iff, hiff, decide_eq_true_iff]

theorem parseRequest_two {payload : List Char} (hh : ';' ∉ head) (hp : ';' ∉ payload) :
    parseRequest (join ';' [head, payload]) key parallel
      = parseFields key parallel [head, payload] := by
  have hcount : countSemicolons (join ';' [head, payload]) = 1 := by
    have := @count_join _ ';' _ _ (cons_ne_nil head [payload]) (by simp [hh, hp])
    rw [countSemicolons]
    simpa using this
  have hlast : (copyUpToSemicolon (join ';' [head, payload]) (offset [head])).1 = cstring payload :=
    copyUpToSemicolon_last [head] hp
  rw [parseRequest, hcount, copyUpToSemicolon_head hh (cons_ne_nil _ _), parseFields]
  dsimp only
  rw [strncmpEq_head (by decide), strncmpEq_head (by decide), hlast, if_neg one_ne_zero, if_pos rfl]
  simp only [decide_eq_true_eq]

theorem parseRequest_run {id timeout memlimit cmd : List Char} {args : List (List Char)}
    (h : ∀ f ∈ head :: id :: timeout :: memlimit :: cmd :: args, ';' ∉ f) :
    parseRequest (join ';' (head :: id :: timeout :: memlimit :: cmd :: args)) key parallel
      = parseFields key parallel (head :: id :: timeout :: memlimit :: cmd :: args) := by
  have hcount : countSemicolons (join ';' (head :: id :: timeout :: memlimit :: cmd :: args))
      = args.length + 4 := by
    have := count_join (cons_ne_nil _ _) h
    rw [countSemicolons]
    simpa using this
  have hargs : (((args.length + 4 : ℕ) : ℤ) - 4).toNat = args.length := by omega
  simp only [mem_cons, forall_eq_or_imp] at h
  obtain ⟨hh, hi, ht, hm, hc, ha⟩ := h
  set line := join ';' (head :: id :: timeout :: memlimit :: cmd :: args)
  have h1 : copyUpToSemicolon line (offset [head]) = (cstring id, offset [head, id]) :=
    copyUpToSemicolon_join [head] hi (cons_ne_nil timeout (memlimit :: cmd :: args))
  have h2 : copyUpToSemicolon line (offset [head, id]) = (cstring timeout, offset [head, id, timeout]) :=
    copyUpToSemicolon_join [head, id] ht (cons_ne_nil memlimit (cmd :: args))
  have h3 : copyUpToSemicolon line (offset [head, id, timeout])
      = (cstring memlimit, offset [head, id, timeout, memlimit]) :=
    copyUpToSemicolon_join [head, id, timeout] hm (cons_ne_nil cmd args)
  have h4 : ∃ pos, copyUpToSemicolon line (offset [head, id, timeout, memlimit])
        = (cstring cmd, pos) ∧ copyArgs line args.length pos = args.map cstring := by
    by_cases hne : args = []
    · subst hne
      exact ⟨_, Prod.ext (copyUpToSemicolon_last [head, id, timeout, memlimit] hc) rfl, rfl⟩
    · exact ⟨_, copyUpToSemicolon_join [head, id, timeout, memlimit] hc hne,
        copyArgs_join [head, id, timeout, memlimit, cmd] ha⟩
  obtain ⟨pos, h4, h5⟩ := h4
  have h0 : copyUpToSemicolon line 0 = (cstring head, offset [head]) :=
    copyUpToSemicolon_head hh (cons_ne_nil _ _)
  rw [parseRequest, hcount, h0, parseFields]
  dsimp only
  rw [if_neg (by omega), if_neg (by omega), if_neg (by omega), strncmpEq_head (by decide),
    strncmpEq_head (by decide)]
  simp only [decide_eq_true_eq, h1, h2, h3, h4, hargs, h5]

theorem parseRequest_short {line : List Char} (h : countSemicolons line = n) (h1 : 1 < n)
    (h4 : n < 4) : parseRequest line key parallel = (none, parallel) := by
  rw [parseRequest, h]
  dsimp only
  rw [if_neg (by omega), if_neg (by omega), if_pos (by omega)]

/-- The server reads the fields of a line. -/
theorem parseRequest_join (hne : fs ≠ []) (h : ∀ f ∈ fs, ';' ∉ f) :
    parseRequest (join ';' fs) key parallel = parseFields key parallel fs := by
  have hcount := count_join hne h
  match fs, hne, h, hcount with
  | [f], _, _, hcount =>
    have h0 : countSemicolons (join ';' [f]) = 0 := by
      rw [countSemicolons]
      simpa using hcount
    rw [parseRequest, h0, if_pos rfl, parseFields]
    · intro _ _ h
      cases h
    · intro _ _ _ _ _ _ h
      cases h
  | [f, g], _, h, _ => exact parseRequest_two (h f (by simp)) (h g (by simp))
  | [f, g, i], _, _, hcount =>
    rw [parseRequest_short (by simpa [countSemicolons] using hcount) (by norm_num) (by norm_num),
      parseFields]
    · intro _ _ h
      cases h
    · intro _ _ _ _ _ _ h
      cases h
  | [f, g, i, j], _, _, hcount =>
    rw [parseRequest_short (by simpa [countSemicolons] using hcount) (by norm_num) (by norm_num),
      parseFields]
    · intro _ _ h
      cases h
    · intro _ _ _ _ _ _ h
      cases h
  | f :: g :: i :: j :: k :: args, _, h, _ => exact parseRequest_run h

end Line

/-! ## The time limit -/

/-- A time limit that the client prints so that the server reads at least as much: it
is zero, or small enough for an exponent, or not above the integer part of what is
left of it after twelve digits. -/
def TimeRounds (q : ℚ) : Prop :=
  q = 0 ∨ Decimal.rounded 12 q < 10 ^ (-4 : ℤ) ∨ q ≤ ⌊Decimal.rounded 12 q⌋

/-- The timeout is zero, which is no limit, for the limit zero only, and is otherwise at
least the limit. -/
def TimeoutOk (q : ℚ) (timeout : ℤ) : Prop :=
  if timeout = 0 then q = 0 else q ≤ timeout

theorem stringOfFloat_eq (h : 0 ≤ q) :
    ∃ t, stringOfFloat q = Nat.toDigits 10 (Decimal.leading 12 q) ++ t ∧
      (∀ c ∈ t.head?, c.isDigit = false) ∧
      ∀ c ∈ t, c.isDigit ∨ c = '.' ∨ c = 'e' ∨ c = '-' ∨ c = '+' := by
  obtain ⟨t, ht, hhead, hmem⟩ := Decimal.formatPos_eq 12 q
  have hdigit : ∀ c ∈ t.head?, c.isDigit = false := by
    intro c hc
    rcases hhead c hc with rfl | rfl <;> rfl
  rw [stringOfFloat, Decimal.formatG, if_neg (not_lt.mpr h), validFloatLexem, ht]
  split_ifs
  · refine ⟨t ++ ['.'], by rw [append_assoc], ?_, ?_⟩
    · intro c hc
      cases t with
      | nil =>
        rw [nil_append, head?_cons, Option.mem_some_iff] at hc
        rw [← hc]
        rfl
      | cons b t => exact hdigit c hc
    · intro c hc
      rcases mem_append.mp hc with hc | hc
      · exact hmem c hc
      · exact .inr (.inl (mem_singleton.mp hc))
  · exact ⟨t, rfl, hdigit, hmem⟩

theorem mem_stringOfFloat (h : 0 ≤ q) (hc : c ∈ stringOfFloat q) :
    c.isDigit ∨ c = '.' ∨ c = 'e' ∨ c = '-' ∨ c = '+' := by
  obtain ⟨t, ht, -, hmem⟩ := stringOfFloat_eq h
  rw [ht] at hc
  rcases mem_append.mp hc with hc | hc
  · exact .inl (Nat.isDigit_of_mem_toDigits (by norm_num) (by norm_num) hc)
  · exact hmem c hc

theorem atoi_stringOfFloat (h : 0 ≤ q) (hn : (Decimal.leading 12 q : ℤ) ≤ intMax) :
    atoi (stringOfFloat q) = Decimal.leading 12 q := by
  obtain ⟨t, ht, hhead, -⟩ := stringOfFloat_eq h
  rw [ht]
  exact atoi_digits hn hhead

theorem timeoutOk_iff (h0 : 0 ≤ q) (h : q ≤ intMax) :
    TimeoutOk q (atoi (stringOfFloat q)) ↔ TimeRounds q := by
  rcases h0.eq_or_lt with rfl | hpos
  · have hz : (Decimal.leading 12 0 : ℤ) = 0 := by rw [Decimal.leading_zero]; rfl
    rw [atoi_stringOfFloat le_rfl (hz ▸ by decide), hz, TimeoutOk, if_pos rfl]
    exact ⟨fun _ => .inl rfl, fun _ => rfl⟩
  have hne : q ≠ 0 := hpos.ne'
  by_cases hx : (Decimal.significand 12 q).2 < -4
  · -- one digit, at least 1, is read for a limit below 1
    obtain ⟨hl1, hl2⟩ := Decimal.leading_of_lt (by norm_num) hpos hx
    have hsmall : Decimal.rounded 12 q < 10 ^ (-4 : ℤ) :=
      (Decimal.rounded_lt_iff (by norm_num) hpos).mpr hx
    have hq1 : q ≤ 1 := by
      have := Decimal.lt_of_significand_lt hpos hx
      norm_num at this
      linarith
    rw [atoi_stringOfFloat h0 (by rw [intMax]; omega), TimeoutOk, if_neg (by omega)]
    refine ⟨fun _ => .inr (.inl hsmall), fun _ => hq1.trans ?_⟩
    exact_mod_cast hl1
  · have hle : Decimal.rounded 12 q ≤ (2 ^ 31 - 1 : ℕ) := by
      apply Decimal.rounded_le (by norm_num) hpos (by norm_num)
      rw [intMax] at h
      exact_mod_cast h
    have hxp : (Decimal.significand 12 q).2 < (12 : ℕ) := by
      rw [← Decimal.rounded_lt_iff (by norm_num) hpos]
      exact lt_of_le_of_lt hle (by norm_num)
    have hfloor := Decimal.leading_eq_floor (by omega) hxp
    have hmax : (Decimal.leading 12 q : ℤ) ≤ intMax := by
      rw [hfloor, intMax]
      have := Int.floor_le_floor hle
      rwa [Int.floor_natCast] at this
    have hbig : ¬ Decimal.rounded 12 q < 10 ^ (-4 : ℤ) := by
      rwa [Decimal.rounded_lt_iff (by norm_num) hpos]
    rw [atoi_stringOfFloat h0 hmax, hfloor, TimeoutOk, TimeRounds]
    split_ifs with hz
    · rw [hz]
      constructor
      · intro hq
        exact absurd hq hne
      · rintro (hq | hq | hq)
        · exact hq
        · exact absurd hq hbig
        · exact absurd (lt_of_lt_of_le hpos hq) (by norm_num)
    · constructor
      · intro hq
        exact .inr (.inr hq)
      · rintro (hq | hq | hq)
        · exact absurd hq hne
        · exact absurd hq hbig
        · exact hq

/-! ## The lines of the client -/

section Client

variable {id memlimit : Int63} {timelimit : ℚ} {useStdin : Option (List Char)}
  {cmd : List Char} {args : List (List Char)}

def commandWord (useStdin : Option (List Char)) : List Char :=
  if useStdin.isSome then "runstdin".toList else "run".toList

/-- The fields the server finds after the command; a file name may hold semicolons. -/
def argFields (args : List (List Char)) (useStdin : Option (List Char)) : List (List Char) :=
  args ++ useStdin.toList.flatMap (·.splitOn ';')

/-- The line of a request. -/
def requestLine (id : Int63) (timelimit : ℚ) (memlimit : Int63) (useStdin : Option (List Char))
    (cmd : List Char) (args : List (List Char)) : List Char :=
  join ';' (commandWord useStdin :: stringOfInt id :: stringOfFloat timelimit ::
    stringOfInt memlimit :: cmd :: argFields args useStdin)

theorem flatMap_argFields (args : List (List Char)) (useStdin : Option (List Char)) :
    (argFields args useStdin).flatMap (fun g => ';' :: g)
      = args.flatMap (fun g => ';' :: g) ++ useStdin.toList.flatMap fun g => ';' :: g := by
  rw [argFields, flatMap_append]
  congr 1
  cases useStdin with
  | none => rfl
  | some f =>
    -- the pieces of the name, joined again
    obtain ⟨g, gs, hg⟩ := exists_cons_of_ne_nil (splitOn_ne_nil ';' f)
    have hf := @join_splitOn _ ';' _ f
    rw [hg, join_eq_flatMap] at hf
    simp only [Option.toList_some, flatMap_cons, flatMap_nil, append_nil]
    rw [hg, flatMap_cons, cons_append, hf]

theorem sendRequest_eq :
    sendRequest id timelimit memlimit useStdin (cmd :: args)
      = requestLine id timelimit memlimit useStdin cmd args ++ ['\n'] := by
  unfold requestLine sendRequest
  generalize stringOfFloat timelimit = t
  generalize stringOfInt id = i
  generalize stringOfInt memlimit = m
  rw [join_eq_flatMap]
  simp only [flatMap_cons]
  rw [flatMap_argFields]
  cases useStdin with
  | none => simp [commandWord]
  | some f => simp [commandWord]

/-- The characters that delimit lines, fields and strings. -/
def Delimiter (c : Char) : Prop := c = ';' ∨ c = '\n' ∨ c = nul

theorem Delimiter.not_isDigit (h : Delimiter c) :
    c.isDigit = false ∧ c ≠ '.' ∧ c ≠ 'e' ∧ c ≠ '-' ∧ c ≠ '+' := by
  rcases h with rfl | rfl | rfl <;> decide

theorem not_mem_stringOfInt (hc : Delimiter c) (n : Int63) : c ∉ stringOfInt n := by
  intro h
  obtain ⟨hd, -, -, hm, -⟩ := hc.not_isDigit
  rcases mem_stringOfInt h with h | h
  · exact hm h
  · rw [hd] at h
    cases h

theorem not_mem_stringOfFloat (hc : Delimiter c) (hq : 0 ≤ q) : c ∉ stringOfFloat q := by
  intro h
  obtain ⟨hd, hp, he, hm, hs⟩ := hc.not_isDigit
  rcases mem_stringOfFloat hq h with h | h | h | h | h
  · rw [hd] at h
    cases h
  · exact hp h
  · exact he h
  · exact hm h
  · exact hs h

theorem not_mem_commandWord (hc : Delimiter c) : c ∉ commandWord useStdin := by
  rw [commandWord]
  rcases hc with rfl | rfl | rfl <;> split_ifs <;> decide

theorem semicolon_not_mem_argFields (h : ∀ s ∈ args, ';' ∉ s) :
    ∀ f ∈ argFields args useStdin, ';' ∉ f := by
  intro f hf
  rcases mem_append.mp hf with hf | hf
  · exact h f hf
  · obtain ⟨g, -, hg⟩ := mem_flatMap.mp hf
    exact not_mem_of_mem_splitOn hg

theorem parseRequest_requestLine {key parallel : ℤ} (ht : 0 ≤ timelimit)
    (hm0 : 0 ≤ memlimit.val) (hm : memlimit.val ≤ intMax) (hc : ';' ∉ cmd)
    (ha : ∀ s ∈ args, ';' ∉ s) :
    parseRequest (requestLine id timelimit memlimit useStdin cmd args) key parallel
      = (some (.run ⟨key, stringOfInt id, atoi (stringOfFloat timelimit), memlimit.val.toNat,
          useStdin.isSome, cstring cmd, (argFields args useStdin).map cstring⟩), parallel) := by
  have hsep : Delimiter ';' := .inl rfl
  have hnul : Delimiter nul := .inr (.inr rfl)
  have hfs : ∀ f ∈ commandWord useStdin :: stringOfInt id :: stringOfFloat timelimit ::
      stringOfInt memlimit :: cmd :: argFields args useStdin, ';' ∉ f := by
    simp only [mem_cons, forall_eq_or_imp]
    exact ⟨not_mem_commandWord hsep, not_mem_stringOfInt hsep _, not_mem_stringOfFloat hsep ht,
      not_mem_stringOfInt hsep _, hc, semicolon_not_mem_argFields ha⟩
  have hmem : toUnsigned (atoi (stringOfInt memlimit)) = memlimit.val.toNat := by
    rw [atoi_stringOfInt hm0 hm, toUnsigned]
    rw [intMax] at hm
    omega
  have hword : cstring (commandWord useStdin) = commandWord useStdin :=
    cstring_eq_self (not_mem_commandWord hnul)
  rw [requestLine, parseRequest_join (cons_ne_nil _ _) hfs, parseFields, hword,
    cstring_eq_self (not_mem_stringOfInt hnul id), cstring_eq_self (not_mem_stringOfFloat hnul ht),
    cstring_eq_self (not_mem_stringOfInt hnul memlimit), hmem]
  cases useStdin with
  | none => rfl
  | some f => rfl

/-- The server decodes the request that the client sent. -/
def RequestAgrees (id : Int63) (timelimit : ℚ) (memlimit : Int63) (useStdin : Option (List Char))
    (cmd : List Char) (args : List (List Char)) : Prop :=
  ∃ line, sendRequest id timelimit memlimit useStdin (cmd :: args) = line ++ ['\n'] ∧ '\n' ∉ line ∧
    ∀ key parallel, ∃ r, parseRequest line key parallel = (some (.run r), parallel) ∧
      r.key = key ∧ r.id = stringOfInt id ∧ (r.memlimit : ℤ) = memlimit.val ∧ r.cmd = cmd ∧
      r.args = args ++ useStdin.toList ∧ r.usestdin = useStdin.isSome ∧
      TimeoutOk timelimit r.timeout

/-- What the client must send for that. -/
def Transmissible (timelimit : ℚ) (useStdin : Option (List Char)) (cmd : List Char)
    (args : List (List Char)) : Prop :=
  TimeRounds timelimit ∧ (∀ s ∈ cmd :: args, nul ∉ s) ∧
    ∀ f ∈ useStdin, ';' ∉ f ∧ '\n' ∉ f ∧ nul ∉ f

theorem map_cstring_eq_iff {l : List (List Char)} : l.map cstring = l ↔ ∀ s ∈ l, nul ∉ s := by
  have h := @List.map_inj_left _ _ l cstring id
  rw [map_id] at h
  rw [h]
  exact forall₂_congr fun s _ => cstring_eq_iff rfl

/-- A file name with a semicolon makes one argument too many. -/
theorem map_cstring_argFields_iff :
    (argFields args useStdin).map cstring = args ++ useStdin.toList ↔
      (∀ s ∈ args, nul ∉ s) ∧ ∀ f ∈ useStdin, ';' ∉ f ∧ nul ∉ f := by
  rw [argFields, map_append, ← map_cstring_eq_iff]
  cases useStdin with
  | none => simp
  | some f =>
    have hsplit : (f.splitOn ';').map cstring = [f] ↔ ';' ∉ f ∧ nul ∉ f := by
      constructor
      · intro h
        obtain ⟨g, hg, hfg⟩ := map_eq_singleton_iff.mp h
        have hf : f = g := by
          have := @join_splitOn _ ';' _ f
          rw [hg, join_singleton] at this
          exact this.symm
        subst hf
        exact ⟨not_mem_of_mem_splitOn (hg ▸ mem_singleton_self f),
          (cstring_eq_iff rfl).mp hfg⟩
      · rintro ⟨hs, hn⟩
        have := splitOn_join (cons_ne_nil f []) (by simpa using hs)
        rw [join_singleton] at this
        rw [this, map_singleton, cstring_eq_self hn]
    simp only [Option.toList_some, flatMap_cons, flatMap_nil, append_nil,
      Option.mem_some_iff, forall_eq']
    rw [← hsplit]
    constructor
    · intro h
      exact append_inj h (length_map _)
    · rintro ⟨h1, h2⟩
      rw [h1, h2]

theorem newline_not_mem_requestLine_iff (ht : 0 ≤ timelimit)
    (h : ∀ s ∈ cmd :: args, '\n' ∉ s) :
    '\n' ∉ requestLine id timelimit memlimit useStdin cmd args ↔ ∀ f ∈ useStdin, '\n' ∉ f := by
  have hnl : Delimiter '\n' := .inr (.inl rfl)
  have hargs : ∀ l : List (List Char), '\n' ∉ l.flatMap (fun g => ';' :: g) ↔ ∀ s ∈ l, '\n' ∉ s := by
    intro l
    simp
  rw [requestLine, join_eq_flatMap]
  simp only [flatMap_cons, mem_append, mem_cons, not_or]
  rw [flatMap_argFields, mem_append, not_or, hargs, hargs]
  simp only [mem_cons, forall_eq_or_imp] at h
  constructor
  · rintro ⟨-, -, -, -, -, -, hf⟩
    simpa using hf
  · intro hf
    exact ⟨not_mem_commandWord hnl, ⟨by decide, not_mem_stringOfInt hnl _⟩,
      ⟨by decide, not_mem_stringOfFloat hnl ht⟩, ⟨by decide, not_mem_stringOfInt hnl _⟩,
      ⟨by decide, h.1⟩, h.2, by simpa using hf⟩

theorem requestAgrees_iff (ht0 : 0 ≤ timelimit) (ht : timelimit ≤ intMax)
    (hm0 : 0 ≤ memlimit.val) (hm : memlimit.val ≤ intMax)
    (hs : ∀ s ∈ cmd :: args, ';' ∉ s ∧ '\n' ∉ s) :
    RequestAgrees id timelimit memlimit useStdin cmd args
      ↔ Transmissible timelimit useStdin cmd args := by
  have hparse := fun key parallel => @parseRequest_requestLine id memlimit timelimit useStdin cmd
    args key parallel ht0 hm0 hm (hs cmd mem_cons_self).1
    fun s h => (hs s (mem_cons_of_mem _ h)).1
  have hline := @newline_not_mem_requestLine_iff id memlimit timelimit useStdin cmd args ht0
    fun s h => (hs s h).2
  rw [Transmissible, ← timeoutOk_iff ht0 ht]
  simp only [mem_cons, forall_eq_or_imp]
  constructor
  · rintro ⟨line, heq, hnl, hr⟩
    rw [sendRequest_eq] at heq
    obtain rfl := append_cancel_right heq
    obtain ⟨r, hreq, -, -, -, hcmd, hargs, -, htime⟩ := hr 0 0
    rw [hparse] at hreq
    obtain rfl := Request.run.inj (Option.some.inj (congrArg Prod.fst hreq))
    obtain ⟨ha, hf⟩ := map_cstring_argFields_iff.mp hargs
    exact ⟨htime, ⟨(cstring_eq_iff rfl).mp hcmd, ha⟩,
      fun f hmem => ⟨(hf f hmem).1, hline.mp hnl f hmem, (hf f hmem).2⟩⟩
  · rintro ⟨htime, ⟨hcmd, ha⟩, hf⟩
    refine ⟨_, sendRequest_eq, hline.mpr fun f h => (hf f h).2.1, fun key parallel =>
      ⟨_, hparse key parallel, rfl, rfl, ?_, cstring_eq_self hcmd, ?_, rfl, htime⟩⟩
    · dsimp only
      omega
    · exact map_cstring_argFields_iff.mpr ⟨ha, fun f h => ⟨(hf f h).1, (hf f h).2.2⟩⟩

/-- An interrupt is decoded to its identifier. -/
def InterruptAgrees (id : Int63) : Prop :=
  ∃ line, sendInterrupt id = line ++ ['\n'] ∧ '\n' ∉ line ∧ ∀ key parallel,
    parseRequest line key parallel = (some (.interrupt key (stringOfInt id)), parallel)

/-- The number of processes is decoded to itself. -/
def ParallelAgrees (x : Int63) : Prop :=
  ∃ line, sendParallel x = line ++ ['\n'] ∧ '\n' ∉ line ∧ ∀ key parallel,
    parseRequest line key parallel = (none, x.val)

theorem newline_not_mem_join_two {word : List Char} (hw : '\n' ∉ word) (x : Int63) :
    '\n' ∉ join ';' [word, stringOfInt x] := by
  have hx := not_mem_stringOfInt (.inr (.inl rfl) : Delimiter '\n') x
  rw [join_eq_flatMap]
  simp only [flatMap_cons, flatMap_nil, append_nil, mem_append, mem_cons]
  rintro (h | h | h)
  · exact hw h
  · exact absurd h (by decide)
  · exact hx h

theorem interruptAgrees (id : Int63) : InterruptAgrees id := by
  have hsep := not_mem_stringOfInt (.inl rfl : Delimiter ';') id
  have hnul := not_mem_stringOfInt (.inr (.inr rfl) : Delimiter nul) id
  refine ⟨join ';' ["interrupt".toList, stringOfInt id], ?_,
    newline_not_mem_join_two (by decide) id, ?_⟩
  · unfold sendInterrupt
    generalize stringOfInt id = i
    rw [join_eq_flatMap]
    simp
  · intro key parallel
    rw [parseRequest_two (by decide) hsep, parseFields, cstring_eq_self hnul]
    rfl

theorem parallelAgrees_iff {x : Int63} (hx : 0 < x.val) :
    ParallelAgrees x ↔ x.val ≤ intMax := by
  have hsep := not_mem_stringOfInt (.inl rfl : Delimiter ';') x
  have hnul := not_mem_stringOfInt (.inr (.inr rfl) : Delimiter nul) x
  have hsend : sendParallel x = join ';' ["parallel".toList, stringOfInt x] ++ ['\n'] := by
    unfold sendParallel
    generalize stringOfInt x = i
    rw [join_eq_flatMap]
    simp
  have hparse : ∀ key parallel,
      parseRequest (join ';' ["parallel".toList, stringOfInt x]) key parallel
        = (none, if 1 ≤ atoi (stringOfInt x) then atoi (stringOfInt x) else parallel) := by
    intro key parallel
    rw [parseRequest_two (by decide) hsep, parseFields, cstring_eq_self hnul]
    rfl
  constructor
  · rintro ⟨line, heq, -, hline⟩
    rw [hsend] at heq
    obtain rfl := append_cancel_right heq
    have h0 := hline 0 0
    rw [hparse] at h0
    have hval := congrArg Prod.snd h0
    dsimp only at hval
    split_ifs at hval with h1
    · rw [← hval]
      exact toInt_le _
    · omega
  · intro hle
    refine ⟨_, hsend, newline_not_mem_join_two (by decide) x, ?_⟩
    intro key parallel
    rw [hparse, atoi_stringOfInt hx.le hle, if_pos (by omega)]

end Client

/-! ## Lines of no form -/

/-- A non-empty sequence of digits. -/
def isNumeral (s : List Char) : Bool := s ≠ [] ∧ s.all Char.isDigit

def isExponent : List Char → Bool
  | [] => true
  | 'e' :: '-' :: s => isNumeral s
  | 'e' :: '+' :: s => isNumeral s
  | _ => false

/-- A numeral with a fraction and an exponent, each of which may be missing. -/
def isNumber (s : List Char) : Bool :=
  s.takeWhile Char.isDigit != [] &&
    match s.dropWhile Char.isDigit with
    | '.' :: t => isExponent (t.dropWhile Char.isDigit)
    | t => isExponent t

/-- The four forms of a request, as the protocol describes them. -/
def Form (line : List Char) : Prop :=
  match line.splitOn ';' with
  | [head, payload] =>
    head = "interrupt".toList ∨
      head = "parallel".toList ∧ isNumeral payload ∧ 1 ≤ Nat.ofDigitChars 10 payload 0
  | head :: _ :: timeout :: memlimit :: _ :: args =>
    (head = "run".toList ∨ head = "runstdin".toList ∧ args ≠ []) ∧ isNumber timeout ∧
      isNumeral memlimit
  | _ => False

/-- The test the server makes: the word of the command, up to a NUL, the number of
fields, and a positive number of processes. -/
def Recognised (line : List Char) : Prop :=
  match line.splitOn ';' with
  | [head, payload] =>
    cstring head = "interrupt".toList ∨
      cstring head = "parallel".toList ∧ 1 ≤ atoi (cstring payload)
  | head :: _ :: _ :: _ :: _ :: _ => cstring head = "run".toList ∨ cstring head = "runstdin".toList
  | _ => False

/-- A line is rejected: there is no request, and the number of processes stays. -/
def Rejected (line : List Char) : Prop :=
  ∀ key parallel, parseRequest line key parallel = (none, parallel)

theorem rejected_iff (line : List Char) : Rejected line ↔ ¬ Recognised line := by
  have hparse : ∀ key parallel,
      parseRequest line key parallel = parseFields key parallel (line.splitOn ';') := by
    intro key parallel
    rw [← parseRequest_join (splitOn_ne_nil ';' line) fun f hf => not_mem_of_mem_splitOn hf,
      join_splitOn]
  rw [Rejected, Recognised]
  simp only [hparse]
  match line.splitOn ';' with
  | [] => simp [parseFields]
  | [_] => simp [parseFields]
  | [_, _, _] => simp [parseFields]
  | [_, _, _, _] => simp [parseFields]
  | [head, payload] =>
    simp only [parseFields]
    by_cases hp : cstring head = "parallel".toList
    · simp only [if_pos hp]
      constructor
      · rintro h (hor | ⟨-, hor⟩)
        · rw [hp] at hor
          exact absurd hor (by decide)
        · have := congrArg Prod.snd (h 0 0)
          dsimp only at this
          rw [if_pos hor] at this
          omega
      · intro h key parallel
        rw [if_neg fun h1 => h (.inr ⟨hp, h1⟩)]
    · simp only [if_neg hp]
      by_cases hi : cstring head = "interrupt".toList
      · simp only [if_pos hi]
        constructor
        · intro h
          exact absurd (congrArg Prod.fst (h 0 0)) (Option.some_ne_none _)
        · intro h
          exact absurd (.inl hi) h
      · simp only [if_neg hi]
        exact ⟨fun _ h => h.elim hi fun h => hp h.1, fun _ _ _ => trivial⟩
  | head :: id :: timeout :: memlimit :: cmd :: args =>
    simp only [parseFields]
    split_ifs with hr
    · constructor
      · intro h
        exact absurd (congrArg Prod.fst (h 0 0)) (Option.some_ne_none _)
      · intro h
        exact absurd hr h
    · exact ⟨fun _ => hr, fun _ _ _ => rfl⟩

/-! ## Both ends together -/

/-- Client and server agree on a request exactly when the time limit survives its twelve
digits and no name holds a NUL or splits the line; on an interrupt always; on the
number of processes when it is an `int`.  A line of none of the forms is rejected
exactly when the server does not recognise its command. -/
theorem requests_agree_iff (id memlimit x : Int63) (timelimit : ℚ) (useStdin : Option (List Char))
    (cmd : List Char) (args : List (List Char)) (line : List Char) (ht0 : 0 ≤ timelimit)
    (ht : timelimit ≤ intMax) (hm0 : 0 ≤ memlimit.val) (hm : memlimit.val ≤ intMax)
    (hs : ∀ s ∈ cmd :: args, ';' ∉ s ∧ '\n' ∉ s) (hx : 0 < x.val) :
    (RequestAgrees id timelimit memlimit useStdin cmd args
      ↔ Transmissible timelimit useStdin cmd args) ∧
    InterruptAgrees id ∧
    (ParallelAgrees x ↔ x.val ≤ intMax) ∧
    ((¬ Form line → Rejected line) ↔ (Recognised line → Form line)) := by
  refine ⟨requestAgrees_iff ht0 ht hm0 hm hs, interruptAgrees id, parallelAgrees_iff hx, ?_⟩
  rw [rejected_iff]
  exact not_imp_not

theorem requests_agree_iff_five :
    RequestAgrees (wrap 1) 5 (wrap 1000) none "alt-ergo".toList ["file.why".toList] ∧
    ParallelAgrees (wrap 4) := by
  have h := requests_agree_iff (wrap 1) (wrap 1000) (wrap 4) 5 none "alt-ergo".toList
    ["file.why".toList] [] (by norm_num) (by norm_num [intMax]) (by decide) (by decide)
    (by decide) (by decide)
  refine ⟨h.1.mpr ⟨.inr (.inr ?_), by decide, by simp⟩, h.2.2.1.mpr (by decide)⟩
  decide +kernel

/-- The limit of half a second is sent as no limit, and the server takes a number of
processes with letters after it. -/
theorem half_second_unlimited :
    ¬ RequestAgrees (wrap 1) (1 / 2) (wrap 1000) none "alt-ergo".toList ["file.why".toList] ∧
    ¬ Form "parallel;3abc".toList ∧ ¬ Rejected "parallel;3abc".toList := by
  have hfields : "parallel;3abc".toList.splitOn ';' = ["parallel".toList, "3abc".toList] := by
    decide
  refine ⟨?_, ?_, ?_⟩
  · rw [requestAgrees_iff (by norm_num) (by norm_num [intMax]) (by decide) (by decide) (by decide)]
    rintro ⟨h, -⟩
    revert h
    unfold TimeRounds
    decide +kernel
  · rw [Form, hfields]
    decide
  · rw [rejected_iff, Recognised, hfields, not_not]
    exact .inr ⟨by decide, by decide⟩

end Why3.Server
