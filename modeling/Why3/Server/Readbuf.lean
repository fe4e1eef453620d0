import Why3.Lib.Lines
import Why3.Server.Request

/-!
# The read buffer of a client

`server/readbuf.c`, and the functions of `server/server-unix.c` that fill the buffer and
take the lines out of it.  Of the memory behind `data` the first `len` bytes are kept.
The lines that `handle_msg` hands to `parse_request` are recorded beside the buffer.
-/

namespace Why3.Server

/-- `memcpy` inside one object: `n` bytes from the offset `src` to the offset `dst`.
Nothing is known of the object when the two regions overlap. -/
structure Memcpy where
  copy : List Char → (dst src n : ℕ) → List Char
  length_copy : ∀ mem dst src n, (copy mem dst src n).length = mem.length
  disjoint : ∀ mem dst src n, dst + n ≤ mem.length → src + n ≤ mem.length →
    dst + n ≤ src ∨ src + n ≤ dst →
    copy mem dst src n = mem.take dst ++ (mem.drop src).take n ++ mem.drop (dst + n)

structure Readbuf where
  data : List Char
  capacity : ℕ
  length_le : data.length ≤ capacity

def readOnce : ℕ := 1024

def initReadbuf (capacity : ℕ) : Readbuf := ⟨[], capacity, Nat.zero_le _⟩

def resizeReadbuf (b : Readbuf) (newcapacity : ℕ) (h : b.capacity ≤ newcapacity) : Readbuf :=
  { b with capacity := newcapacity, length_le := b.length_le.trans h }

def prepareRead (b : Readbuf) (size : ℕ) : Readbuf :=
  if b.data.length + size > b.capacity then
    resizeReadbuf b ((b.capacity + size) * 2) (by omega)
  else b

/-- `chunk` is what `read` wrote behind the bytes in use; `none` is a failed assertion. -/
def haveRead (b : Readbuf) (chunk : List Char) : Option Readbuf :=
  if h : b.capacity ≥ b.data.length + chunk.length then
    some { b with
      data := b.data ++ chunk
      length_le := by rwa [List.length_append] }
  else none

/-- `none` is a failed assertion. -/
def haveTaken (M : Memcpy) (b : Readbuf) (size : ℕ) : Option Readbuf :=
  let n := b.data.length - size
  if size ≤ b.data.length then
    some { b with
      data := (M.copy b.data 0 size n).take n
      length_le := (List.length_take_le _ _).trans ((Nat.sub_le _ _).trans b.length_le) }
  else none

/-! ## `handle_msg` -/

/-- The inner loop: the first newline from `cur` on, or `max`. -/
def findNewline (buf : List Char) (max : ℤ) (cur : ℕ) : ℕ :=
  if (cur : ℤ) < max then
    if buf[cur]? = some '\n' then cur else findNewline buf max (cur + 1)
  else cur
termination_by (max - cur).toNat

theorem le_findNewline (buf : List Char) (max : ℤ) (cur : ℕ) : cur ≤ findNewline buf max cur := by
  fun_induction findNewline buf max cur <;> omega

/-- The outer loop: the lines found, and the final value of `old`. -/
def handleLoop (buf : List Char) (max : ℤ) (cur old : ℕ) : List (List Char) × ℕ :=
  if (cur : ℤ) < max then
    let cur' := findNewline buf max cur
    if (cur' : ℤ) = max then ([], old)
    else
      let line := (buf.drop old).take (cur' - old)
      let (lines, old) := handleLoop buf max (cur' + 1) (cur' + 1)
      (line :: lines, old)
  else ([], old)
termination_by (max - cur).toNat
decreasing_by
  have := le_findNewline buf max cur
  omega

/-- `max` is an `int`. -/
def handleMsgLines (buf : List Char) : List (List Char) × ℕ := handleLoop buf (toInt buf.length) 0 0

/-- The buffer of a client, and the lines handled for it. -/
structure Reader where
  readbuf : Readbuf
  lines : List (List Char)

def initReader : Reader := ⟨initReadbuf readOnce, []⟩

def handleMsgBuf (M : Memcpy) (r : Reader) : Option Reader :=
  let found := handleMsgLines r.readbuf.data
  let r := { r with lines := r.lines ++ found.1 }
  if found.2 > 0 then (haveTaken M r.readbuf found.2).map fun b => { r with readbuf := b }
  else some r

/-- `read_on_client`, when `read` gives a chunk. -/
def readChunk (M : Memcpy) (r : Reader) (chunk : List Char) : Option Reader :=
  (haveRead (prepareRead r.readbuf readOnce) chunk).bind fun b =>
    handleMsgBuf M { r with readbuf := b }

def readChunks (M : Memcpy) (chunks : List (List Char)) : Option Reader :=
  chunks.foldlM (readChunk M) initReader

/-- What `read` answers: at least one byte, and at most what it was asked for. -/
def IsChunk (chunk : List Char) : Prop := chunk ≠ [] ∧ chunk.length ≤ readOnce

instance (chunk : List Char) : Decidable (IsChunk chunk) := inferInstanceAs (Decidable (_ ∧ _))

/-- After some chunks the lines handled are the complete lines received, and the buffer
holds the unfinished one. -/
def HandlesLines (M : Memcpy) (chunks : List (List Char)) : Prop :=
  ∃ r, readChunks M chunks = some r ∧ r.lines = Lines.complete '\n' chunks.flatten ∧
    r.readbuf.data = Lines.rest '\n' chunks.flatten

/-- A buffer that can be handled: an `int` counts up to its last newline, and the
unfinished line is not longer than what stands before it. -/
def Handleable (buf : List Char) : Prop :=
  '\n' ∉ buf.drop (toInt buf.length).toNat ∧
    ('\n' ∈ buf →
      (Lines.rest '\n' buf).length ≤ buf.length - (Lines.rest '\n' buf).length)

instance (buf : List Char) : Decidable (Handleable buf) := inferInstanceAs (Decidable (_ ∧ _))

end Why3.Server

/-!
# What the read buffer hands on

`handle_msg` finds the complete lines of the buffer below its `int` bound, and
`have_taken` keeps the unfinished line as long as the two regions of its `memcpy` do not
overlap.
-/

namespace Why3.Server

open Lines List Option

variable {buf d chunk : List Char} {M : Memcpy} {r r' : Reader}

/-! ## The loops -/

theorem findNewline_of_not_mem {m cur : ℕ} (hcur : cur ≤ m)
    (h : '\n' ∉ (buf.take m).drop cur) : findNewline buf m cur = m := by
  fun_induction findNewline buf m cur with
  | case1 cur hlt hnl =>
    have hlt : cur < m := by omega
    have hget : ((buf.take m).drop cur)[0]? = some '\n' := by
      rw [getElem?_drop, add_zero, getElem?_take_of_lt hlt, hnl]
    exact absurd (mem_of_getElem? hget) h
  | case2 cur hlt hnl ih =>
    apply ih
    · omega
    · intro hmem
      rw [← drop_drop] at hmem
      exact h (mem_of_mem_drop hmem)
  | case3 cur hlt => omega

theorem findNewline_of_line {m cur : ℕ} {l s : List Char} (hl : '\n' ∉ l)
    (h : (buf.take m).drop cur = l ++ '\n' :: s) :
    findNewline buf m cur = cur + l.length := by
  have hlt : cur < m := by
    have hlen := congrArg List.length h
    simp only [length_drop, length_take, length_append, length_cons] at hlen
    omega
  have hget : buf[cur]? = (l ++ '\n' :: s)[0]? := by
    rw [← h, getElem?_drop, add_zero, getElem?_take_of_lt hlt]
  induction l generalizing cur with
  | nil =>
    rw [findNewline, if_pos (by omega), if_pos (by simpa using hget)]
    rfl
  | cons c l ih =>
    have hc : c ≠ '\n' := fun e => hl (e ▸ mem_cons_self)
    have hnext : (buf.take m).drop (cur + 1) = l ++ '\n' :: s := by
      rw [← drop_drop, h]
      rfl
    have hlt' : cur + 1 < m := by
      have hlen := congrArg List.length hnext
      simp only [length_drop, length_take, length_append,
        length_cons] at hlen
      omega
    rw [findNewline, if_pos (by omega), hget, if_neg (by simpa using hc),
      ih (fun hmem => hl (mem_cons_of_mem _ hmem)) hnext hlt', length_cons]
    · omega
    · rw [← hnext, getElem?_drop, add_zero, getElem?_take_of_lt hlt']

theorem handleLoop_eq {m : ℕ} (hm : m ≤ buf.length) (s : List Char) :
    ∀ cur ≤ m, (buf.take m).drop cur = s →
      handleLoop buf m cur cur = (complete '\n' s, m - (rest '\n' s).length) := by
  induction s using induction '\n' with
  | unfinished s hs =>
    intro cur hcur h
    have hlen := congrArg List.length h
    simp only [length_drop, length_take] at hlen
    rw [complete_of_not_mem hs, rest_of_not_mem hs, handleLoop,
      findNewline_of_not_mem hcur (h ▸ hs)]
    have hold : m - s.length = cur := by omega
    rw [hold]
    simp
  | line l s hl ih =>
    intro cur hcur h
    have hlen := congrArg List.length h
    simp only [length_drop, length_take, length_append, length_cons] at hlen
    have hnext : (buf.take m).drop (cur + l.length + 1) = s := by
      rw [add_assoc, ← drop_drop, h, ← drop_drop, drop_left]
      rfl
    have hline : (buf.drop cur).take (cur + l.length - cur) = l := by
      have htake : ((buf.take m).drop cur).take l.length = l := by
        rw [h, take_left]
      rw [drop_take, take_take, Nat.min_eq_left (by omega)] at htake
      rw [Nat.add_sub_cancel_left, htake]
    rw [handleLoop, if_pos (by omega), findNewline_of_line hl h, if_neg (by omega),
      ih _ (by omega) hnext, complete_line hl, rest_line hl, hline]

theorem toNat_toInt_le (n : ℕ) : (toInt n).toNat ≤ n := by
  rw [toInt]
  omega

theorem handleMsgLines_eq (buf : List Char) :
    handleMsgLines buf = (complete '\n' (buf.take (toInt buf.length).toNat),
      (toInt buf.length).toNat - (rest '\n' (buf.take (toInt buf.length).toNat)).length) := by
  rw [handleMsgLines]
  rcases Int.le_total 0 (toInt buf.length) with h | h
  · obtain ⟨m, hm⟩ := Int.eq_ofNat_of_zero_le h
    have hle := toNat_toInt_le buf.length
    rw [hm, Int.toNat_natCast] at hle ⊢
    exact handleLoop_eq hle _ 0 (Nat.zero_le m) rfl
  · -- the bound is negative
    have hzero : (toInt buf.length).toNat = 0 := by omega
    rw [hzero, handleLoop, if_neg (by omega)]
    rfl

theorem handleMsgLines_of_below (h : '\n' ∉ buf.drop (toInt buf.length).toNat) :
    handleMsgLines buf = (complete '\n' buf, buf.length - (rest '\n' buf).length) := by
  set m := (toInt buf.length).toNat with hm
  have hle : m ≤ buf.length := toNat_toInt_le buf.length
  have hcat : buf.take m ++ buf.drop m = buf := take_append_drop m buf
  have hnot : '\n' ∉ rest '\n' (buf.take m) ++ buf.drop m := by
    rw [mem_append, not_or]
    exact ⟨not_mem_rest _ _, h⟩
  have hcomplete : complete '\n' buf = complete '\n' (buf.take m) := by
    calc complete '\n' buf = complete '\n' (buf.take m ++ buf.drop m) := by rw [hcat]
      _ = complete '\n' (buf.take m) := by
        rw [complete_append, complete_of_not_mem hnot, append_nil]
  have hrest : rest '\n' buf = rest '\n' (buf.take m) ++ buf.drop m := by
    calc rest '\n' buf = rest '\n' (buf.take m ++ buf.drop m) := by rw [hcat]
      _ = rest '\n' (buf.take m) ++ buf.drop m := by rw [rest_append, rest_of_not_mem hnot]
  have hshort := (rest_suffix '\n' (buf.take m)).length_le
  rw [length_take] at hshort
  have hold : m - (rest '\n' (buf.take m)).length = buf.length - (rest '\n' buf).length := by
    rw [hrest, length_append, length_drop]
    omega
  rw [handleMsgLines_eq, ← hm, ← hcomplete, hold]

/-! ## One chunk -/

theorem haveRead_prepareRead (b : Readbuf) (h : chunk.length ≤ readOnce) :
    ∃ b', haveRead (prepareRead b readOnce) chunk = some b' ∧ b'.data = b.data ++ chunk := by
  have hle := b.length_le
  rw [prepareRead]
  split_ifs with hfull
  · refine ⟨_, dif_pos ?_, rfl⟩
    show (b.capacity + readOnce) * 2 ≥ b.data.length + chunk.length
    omega
  · exact ⟨_, dif_pos (by omega), rfl⟩

/-- With an `int` bound above the last newline, `handle_msg` adds the complete lines of
the buffer. -/
theorem handleMsgBuf_lines (h : '\n' ∉ r.readbuf.data.drop (toInt r.readbuf.data.length).toNat) :
    ∃ r', handleMsgBuf M r = some r' ∧ r'.lines = r.lines ++ complete '\n' r.readbuf.data ∧
      ('\n' ∉ r.readbuf.data → r'.readbuf = r.readbuf) ∧
      ('\n' ∈ r.readbuf.data →
        haveTaken M r.readbuf (r.readbuf.data.length - (rest '\n' r.readbuf.data).length)
          = some r'.readbuf) := by
  have hle := (rest_suffix '\n' r.readbuf.data).length_le
  rw [handleMsgBuf, handleMsgLines_of_below h]
  dsimp only
  by_cases hmem : '\n' ∈ r.readbuf.data
  · have hlt := length_rest_lt hmem
    rw [if_pos (by omega), haveTaken, if_pos (by omega)]
    exact ⟨_, rfl, rfl, fun hnot => absurd hmem hnot, fun _ => rfl⟩
  · rw [rest_of_not_mem hmem, if_neg (by omega)]
    exact ⟨_, rfl, rfl, fun _ => rfl, fun hin => absurd hin hmem⟩

theorem haveTaken_disjoint {b : Readbuf}
    (h : (rest '\n' b.data).length ≤ b.data.length - (rest '\n' b.data).length) :
    ∃ b', haveTaken M b (b.data.length - (rest '\n' b.data).length) = some b' ∧
      b'.data = rest '\n' b.data := by
  have hle := (rest_suffix '\n' b.data).length_le
  have hn : b.data.length - (b.data.length - (rest '\n' b.data).length)
      = (rest '\n' b.data).length := by omega
  rw [haveTaken, if_pos (by omega)]
  refine ⟨_, rfl, ?_⟩
  dsimp only
  rw [hn, M.disjoint _ _ _ _ (by omega) (by omega) (.inl (by omega)), take_zero,
    nil_append, drop_length_sub_rest, take_length, take_left]

theorem readChunk_of_below (hch : chunk.length ≤ readOnce)
    (h : '\n' ∉ (r.readbuf.data ++ chunk).drop (toInt (r.readbuf.data ++ chunk).length).toNat) :
    ∃ b r', b.data = r.readbuf.data ++ chunk ∧ readChunk M r chunk = some r' ∧
      r'.lines = r.lines ++ complete '\n' b.data ∧
      ('\n' ∉ b.data → r'.readbuf = b) ∧
      ('\n' ∈ b.data →
        haveTaken M b (b.data.length - (rest '\n' b.data).length) = some r'.readbuf) := by
  obtain ⟨b, hread, hdata⟩ := haveRead_prepareRead r.readbuf hch
  obtain ⟨r', hmsg, hr'⟩ := @handleMsgBuf_lines M { r with readbuf := b } (hdata ▸ h)
  refine ⟨b, r', hdata, ?_, hr'⟩
  rw [readChunk, hread, bind_some, hmsg]

theorem readChunk_of_handleable (hch : chunk.length ≤ readOnce)
    (h : Handleable (r.readbuf.data ++ chunk)) :
    ∃ r', readChunk M r chunk = some r' ∧
      r'.lines = r.lines ++ complete '\n' (r.readbuf.data ++ chunk) ∧
      r'.readbuf.data = rest '\n' (r.readbuf.data ++ chunk) := by
  obtain ⟨b, r', hdata, hread, hlines, hopen, htaken⟩ := readChunk_of_below (M := M) hch h.1
  rw [← hdata] at h ⊢
  refine ⟨r', hread, hlines, ?_⟩
  by_cases hmem : '\n' ∈ b.data
  · obtain ⟨b', hb', hrest⟩ := haveTaken_disjoint (M := M) (h.2 hmem)
    rw [htaken hmem] at hb'
    rw [some.inj hb', hrest]
  · rw [hopen hmem, rest_of_not_mem hmem]

/-! ## Runs -/

theorem readChunks_append_singleton (chunks : List (List Char)) (chunk : List Char) :
    readChunks M (chunks ++ [chunk]) = (readChunks M chunks).bind fun r => readChunk M r chunk := by
  rw [readChunks, foldlM_append]
  rcases hr : chunks.foldlM (readChunk M) initReader with - | r
  · rw [readChunks, hr]
    rfl
  · rw [readChunks, hr]
    simp

theorem handlesLines_step {chunks : List (List Char)} (h : HandlesLines M chunks)
    (hch : chunk.length ≤ readOnce) (hok : Handleable (rest '\n' chunks.flatten ++ chunk)) :
    HandlesLines M (chunks ++ [chunk]) := by
  obtain ⟨r, hr, hlines, hdata⟩ := h
  rw [← hdata] at hok
  obtain ⟨r', hr', hlines', hdata'⟩ := readChunk_of_handleable (M := M) hch hok
  refine ⟨r', ?_, ?_, ?_⟩
  · rw [readChunks_append_singleton, hr, bind_some, hr']
  · rw [hlines', hlines, hdata, flatten_append, flatten_singleton, ← complete_append]
  · rw [hdata', hdata, flatten_append, flatten_singleton, ← rest_append]

theorem handlesLines_of_handleable (chunks : List (List Char))
    (hch : ∀ chunk ∈ chunks, IsChunk chunk)
    (hok : ∀ pre chunk, pre ++ [chunk] <+: chunks →
      Handleable (rest '\n' pre.flatten ++ chunk)) : HandlesLines M chunks := by
  induction chunks using reverseRecOn with
  | nil => exact ⟨initReader, rfl, rfl, rfl⟩
  | append_singleton chunks chunk ih =>
    have hpre := ih (fun c hc => hch c (mem_append_left _ hc)) fun pre c hc =>
      hok pre c (hc.trans (prefix_append _ _))
    have hlast := hch chunk (mem_append_right _ (mem_singleton_self _))
    exact handlesLines_step hpre hlast.2 (hok chunks chunk (prefix_refl _))

/-! ## Overlapping regions -/

/-- The copy, when the two regions are in the object. -/
def copyRegion (mem : List Char) (dst src n : ℕ) : List Char :=
  if dst + n ≤ mem.length ∧ src + n ≤ mem.length then
    mem.take dst ++ (mem.drop src).take n ++ mem.drop (dst + n)
  else mem

theorem length_copyRegion (mem : List Char) (dst src n : ℕ) :
    (copyRegion mem dst src n).length = mem.length := by
  rw [copyRegion]
  split_ifs with h
  · simp only [length_append, length_take, length_drop]
    omega
  · rfl

def otherChar (c : Char) : Char := if c = 'x' then 'y' else 'x'

theorem otherChar_ne (c : Char) : otherChar c ≠ c := by
  rw [otherChar]
  split_ifs with h
  · rw [h]
    decide
  · exact Ne.symm h

/-- A `memcpy` that leaves other characters when the regions overlap. -/
def scramblingMemcpy : Memcpy where
  copy mem dst src n :=
    if dst + n ≤ src ∨ src + n ≤ dst then copyRegion mem dst src n
    else (copyRegion mem dst src n).map otherChar
  length_copy mem dst src n := by
    split_ifs
    · exact length_copyRegion mem dst src n
    · rw [length_map, length_copyRegion]
  disjoint mem dst src n hdst hsrc h := by rw [if_pos h, copyRegion, if_pos ⟨hdst, hsrc⟩]

theorem haveTaken_overlap {b b' : Readbuf} (hmem : '\n' ∈ b.data)
    (h : ¬ (rest '\n' b.data).length ≤ b.data.length - (rest '\n' b.data).length)
    (hb' : haveTaken scramblingMemcpy b (b.data.length - (rest '\n' b.data).length) = some b') :
    b'.data ≠ rest '\n' b.data := by
  have hlt := length_rest_lt hmem
  have hn : b.data.length - (b.data.length - (rest '\n' b.data).length)
      = (rest '\n' b.data).length := by omega
  rw [haveTaken, if_pos (by omega)] at hb'
  obtain rfl := some.inj hb'
  dsimp only [scramblingMemcpy]
  rw [hn, if_neg (by omega), copyRegion, if_pos ⟨by omega, by omega⟩, take_zero,
    nil_append, drop_length_sub_rest, take_length, map_append,
    take_left' (length_map _)]
  intro heq
  obtain ⟨c, s, hs⟩ := exists_cons_of_ne_nil
    (ne_nil_of_length_pos (l := rest '\n' b.data) (by omega))
  rw [hs, map_cons] at heq
  exact otherChar_ne c (cons.inj heq).1

theorem lines_of_handleMsgBuf (h : handleMsgBuf M r = some r') :
    r'.lines = r.lines ++ (handleMsgLines r.readbuf.data).1 := by
  rw [handleMsgBuf] at h
  dsimp only at h
  split_ifs at h
  · obtain ⟨b, -, rfl⟩ := map_eq_some_iff.mp h
    rfl
  · rw [← some.inj h]

theorem readChunk_missed (hmiss : '\n' ∈ (r.readbuf.data ++ chunk).drop
      (toInt (r.readbuf.data ++ chunk).length).toNat) (hch : chunk.length ≤ readOnce)
    (hr' : readChunk M r chunk = some r') :
    r'.lines ≠ r.lines ++ complete '\n' (r.readbuf.data ++ chunk) := by
  obtain ⟨b, hread, hdata⟩ := haveRead_prepareRead r.readbuf hch
  rw [readChunk, hread, bind_some] at hr'
  rw [← hdata] at hmiss ⊢
  rw [lines_of_handleMsgBuf hr', handleMsgLines_eq]
  generalize (toInt b.data.length).toNat = m at hmiss ⊢
  intro heq
  dsimp only at heq
  have hcat : complete '\n' (b.data.take m ++ b.data.drop m) = _ := complete_append _ _
  rw [take_append_drop, ← append_cancel_left heq, self_eq_append_right,
    complete_eq_nil, mem_append, not_or] at hcat
  exact hcat.2 hmiss

theorem handleable_of_handlesLines {pre : List (List Char)} (hch : chunk.length ≤ readOnce)
    (h : HandlesLines scramblingMemcpy pre) (h' : HandlesLines scramblingMemcpy (pre ++ [chunk])) :
    Handleable (rest '\n' pre.flatten ++ chunk) := by
  obtain ⟨r, hr, hlines, hdata⟩ := h
  obtain ⟨r', hr', hlines', hdata'⟩ := h'
  rw [readChunks_append_singleton, hr, bind_some] at hr'
  rw [flatten_append, flatten_singleton, complete_append, ← hlines, ← hdata] at hlines'
  rw [flatten_append, flatten_singleton, rest_append, ← hdata] at hdata'
  rw [← hdata]
  have hbelow : '\n' ∉ (r.readbuf.data ++ chunk).drop
      (toInt (r.readbuf.data ++ chunk).length).toNat := fun hmiss =>
    readChunk_missed hmiss hch hr' hlines'
  refine ⟨hbelow, ?_⟩
  intro hmem
  by_contra hover
  obtain ⟨b, r'', hb, hr'', -, -, htaken⟩ := readChunk_of_below (M := scramblingMemcpy) hch hbelow
  obtain rfl := some.inj (hr'.symm.trans hr'')
  rw [← hb] at hmem hover hdata'
  exact haveTaken_overlap hmem hover (htaken hmem) hdata'

/-- Whatever `memcpy` does with overlapping regions, every complete line is handled once
and the unfinished one is kept, exactly when every read leaves a buffer that can be
handled. -/
theorem handlesLines_iff (chunks : List (List Char)) (hch : ∀ chunk ∈ chunks, IsChunk chunk) :
    (∀ (M : Memcpy) (pre : List (List Char)), pre <+: chunks → HandlesLines M pre) ↔
      ∀ pre chunk, pre ++ [chunk] <+: chunks → Handleable (rest '\n' pre.flatten ++ chunk) := by
  constructor
  · intro hall pre chunk hpre
    have hlen := (hch chunk (hpre.subset (by simp))).2
    exact handleable_of_handlesLines hlen
      (hall scramblingMemcpy pre ((prefix_append _ _).trans hpre))
      (hall scramblingMemcpy _ hpre)
  · rintro hok M pre ⟨more, rfl⟩
    apply handlesLines_of_handleable
    · exact fun c hc => hch c (mem_append_left _ hc)
    · exact fun p c hp => hok p c (hp.trans (prefix_append _ _))

end Why3.Server
