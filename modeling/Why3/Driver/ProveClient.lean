import Why3.Util.Strings
import Why3.Server.Readbuf

/-!
# Reading the answers of the proof server

The reading half of `driver/prove_client.ml`.  What `read_from_client` answers, call after
call, is a list of chunks; a chunk is empty when the socket was not ready.
-/

namespace Why3.ProveClient

open MachineInt Strings

/-! ## Answers -/

structure FinalAnswer (F : Type) where
  id : Int63
  time : F
  timeout : Bool
  outFile : List Char
  exitCode : ℤ

inductive Answer (F : Type)
  | started (id : Int63)
  | finished (a : FinalAnswer F)

section Client

variable {F : Type} (floatOfString : List Char → Option F) (int64OfString : List Char → Option ℤ)

/-- `none` is an exception. -/
def readAnswer (s : List Char) : Option (Answer F) :=
  match split ';' s with
  | ['F'] :: id :: exitS :: timeS :: timeoutS :: file :: rest => do
    let id ← intOfString id
    let time ← floatOfString timeS
    let exitCode ← int64OfString exitS
    some (.finished
      { id := id
        time := time
        timeout := timeoutS = ['1']
        outFile := Fields.join ';' (file :: rest)
        exitCode := exitCode })
  | [['S'], id] => (intOfString id).map .started
  | _ => none

/-- A call that still waits for a chunk has put what it read in `recv_buf`. -/
inductive Reply (A : Type)
  | waiting (recvBuf : List Char)
  | failed
  | returned (answer : A) (recvBuf : List Char) (later : List (List Char))

/-- `read_lines`; `later` are the chunks that the call did not read. -/
def readLines (recvBuf : List Char) : List (List Char) → Reply (List (List Char))
  | [] => .waiting recvBuf
  | s :: later =>
    if s = [] then .returned [] recvBuf later
    else if '\n' ∈ s then
      match revSplit '\n' (recvBuf ++ s) with
      | [] => .failed
      | [x] => .returned [x] [] later
      | x :: xs =>
        if x = [] then .returned xs.reverse [] later
        else if x.getLast? = some '\n' then .returned (x :: xs).reverse [] later
        else .returned xs.reverse x later
    else readLines (recvBuf ++ s) later

def readAnswers (recvBuf : List Char) (chunks : List (List Char)) : Reply (List (Answer F)) :=
  match readLines recvBuf chunks with
  | .waiting recvBuf => .waiting recvBuf
  | .failed => .failed
  | .returned lines recvBuf later =>
    match (lines.filter (· ≠ [])).mapM (readAnswer floatOfString int64OfString) with
    | some answers => .returned answers recvBuf later
    | none => .failed

/-- At most `n` successive calls: what they returned, `recv_buf`, and the chunks not read
yet.  `none` is an exception. -/
def readMany : ℕ → List Char → List (List Char) →
    Option (List (Answer F) × List Char × List (List Char))
  | 0, recvBuf, chunks => some ([], recvBuf, chunks)
  | n + 1, recvBuf, chunks =>
    match readAnswers floatOfString int64OfString recvBuf chunks with
    | .waiting recvBuf => some ([], recvBuf, [])
    | .failed => none
    | .returned answers recvBuf later =>
      (readMany n recvBuf later).map fun (answers', x) => (answers ++ answers', x)

/-- The calls return the answers of the complete lines received so far, and the buffer
holds the unfinished one. -/
def ReturnsLines (chunks : List (List Char)) (n : ℕ) : Prop :=
  ∃ answers recvBuf received later,
    readMany floatOfString int64OfString n [] chunks = some (answers, recvBuf, later) ∧
      chunks = received ++ later ∧
      answers.map some = (Lines.complete '\n' received.flatten).map
        (readAnswer floatOfString int64OfString) ∧
      recvBuf = Lines.rest '\n' received.flatten

end Client

end Why3.ProveClient

/-!
# Messages and the cuts of their stream

Successive calls of `read_answers` return the complete lines, whatever the chunks are.
Together with the read buffer of the server: what survives the cuts, in both directions.
-/

namespace Why3.ProveClient

open Lines Strings List

/-! ## Calls -/

variable {recvBuf recvBuf' : List Char} {chunks later : List (List Char)}

theorem readLines_spec (chunks : List (List Char)) (h : '\n' ∉ recvBuf) :
    (readLines recvBuf chunks = .waiting (recvBuf ++ chunks.flatten) ∧
      '\n' ∉ recvBuf ++ chunks.flatten) ∨
    ∃ received later, received ≠ [] ∧ chunks = received ++ later ∧
      readLines recvBuf chunks = .returned (complete '\n' (recvBuf ++ received.flatten))
        (rest '\n' (recvBuf ++ received.flatten)) later := by
  induction chunks generalizing recvBuf with
  | nil =>
    left
    rw [flatten_nil, append_nil]
    exact ⟨rfl, h⟩
  | cons s chunks ih =>
    rw [readLines]
    by_cases hs : s = []
    · right
      refine ⟨[s], chunks, cons_ne_nil _ _, rfl, ?_⟩
      rw [if_pos hs, hs, flatten_singleton, append_nil, complete_of_not_mem h,
        rest_of_not_mem h]
    rw [if_neg hs]
    by_cases hmem : '\n' ∈ s
    · right
      refine ⟨[s], chunks, cons_ne_nil _ _, rfl, ?_⟩
      rw [if_pos hmem, revSplit_eq, flatten_singleton]
      have hlines : complete '\n' (recvBuf ++ s) ≠ [] := fun hnil =>
        complete_eq_nil.mp hnil (mem_append_right _ hmem)
      have hlast : (rest '\n' (recvBuf ++ s)).getLast? ≠ some '\n' := fun hlast =>
        not_mem_rest _ _ (mem_of_getLast? hlast)
      split
      · next heq => cases heq
      · next heq =>
          have := (cons.inj heq).2
          exact absurd (reverse_eq_nil_iff.mp this) hlines
      · next x xs hne heq =>
          obtain ⟨hx, hxs⟩ := cons.inj heq
          rw [← hx, ← hxs, reverse_reverse, if_neg hlast]
          split_ifs with hrest
          · rw [hrest]
          · rfl
    · rw [if_neg hmem, flatten_cons, ← append_assoc]
      have hbuf : '\n' ∉ recvBuf ++ s := by
        rw [mem_append, not_or]
        exact ⟨h, hmem⟩
      rcases ih hbuf with hwait | ⟨received, later, hne, rfl, hret⟩
      · exact .inl hwait
      · right
        refine ⟨s :: received, later, cons_ne_nil _ _, rfl, ?_⟩
        rw [hret, flatten_cons, append_assoc]

section Answers

variable {F : Type} {floatOfString : List Char → Option F} {int64OfString : List Char → Option ℤ}
  {lines : List (List Char)}

theorem readAnswer_nil : readAnswer floatOfString int64OfString [] = none := by
  rw [readAnswer, split_eq, splitOn_nil]

theorem answers_of_accepted
    (h : ∀ line ∈ lines, (readAnswer floatOfString int64OfString line).isSome) :
    ∃ answers, (lines.filter (· ≠ [])).mapM (readAnswer floatOfString int64OfString) = some answers ∧
      answers.map some = lines.map (readAnswer floatOfString int64OfString) := by
  have hfilter : lines.filter (· ≠ []) = lines := by
    rw [filter_eq_self]
    intro line hline
    have hsome := h line hline
    rw [decide_eq_true_iff]
    rintro rfl
    rw [readAnswer_nil] at hsome
    cases hsome
  rw [hfilter]
  clear hfilter
  induction lines with
  | nil => exact ⟨[], rfl, rfl⟩
  | cons line lines ih =>
    obtain ⟨answer, hanswer⟩ := Option.isSome_iff_exists.mp (h line mem_cons_self)
    obtain ⟨answers, hanswers, hmap⟩ := ih fun l hl => h l (mem_cons_of_mem _ hl)
    refine ⟨answer :: answers, ?_, ?_⟩
    · rw [mapM_cons, hanswer, hanswers]
      rfl
    · rw [map_cons, map_cons, hanswer, hmap]

/-- Calls from a buffer that holds an unfinished line. -/
theorem readMany_spec (n : ℕ) (hbuf : '\n' ∉ recvBuf)
    (h : ∀ line ∈ complete '\n' (recvBuf ++ chunks.flatten),
      (readAnswer floatOfString int64OfString line).isSome) :
    ∃ answers received later, readMany floatOfString int64OfString n recvBuf chunks
        = some (answers, rest '\n' (recvBuf ++ received.flatten), later) ∧
      chunks = received ++ later ∧
      answers.map some = (complete '\n' (recvBuf ++ received.flatten)).map
        (readAnswer floatOfString int64OfString) := by
  induction n generalizing recvBuf chunks with
  | zero =>
    refine ⟨[], [], chunks, ?_, rfl, ?_⟩
    · rw [flatten_nil, append_nil, rest_of_not_mem hbuf]
      rfl
    · rw [flatten_nil, append_nil, complete_of_not_mem hbuf]
      rfl
  | succ n ih =>
    rw [readMany, readAnswers]
    rcases readLines_spec chunks hbuf with
      ⟨hwait, hnot⟩ | ⟨received, later, -, rfl, hret⟩
    · rw [hwait]
      refine ⟨[], chunks, [], ?_, (append_nil _).symm, ?_⟩
      · rw [rest_of_not_mem hnot]
      · rw [complete_of_not_mem hnot]
        rfl
    · rw [hret]
      rw [flatten_append, ← append_assoc, complete_append] at h
      obtain ⟨answers, hanswers, hmap⟩ := answers_of_accepted fun line hline =>
        h line (mem_append_left _ hline)
      obtain ⟨answers', received', later', hmany, rfl, hmap'⟩ :=
        ih (not_mem_rest '\n' (recvBuf ++ received.flatten)) fun line hline =>
          h line (mem_append_right _ hline)
      dsimp only
      rw [hanswers]
      dsimp only
      rw [hmany]
      refine ⟨answers ++ answers', received ++ received', later', ?_, ?_, ?_⟩
      · rw [Option.map_some, ← rest_append, flatten_append, append_assoc]
      · rw [append_assoc]
      · rw [flatten_append, ← append_assoc, complete_append, map_append,
          map_append, hmap, hmap']

/-- Every call reads at least one chunk. -/
theorem length_later {n : ℕ} {answers : List (Answer F)} (hbuf : '\n' ∉ recvBuf)
    (h : readMany floatOfString int64OfString n recvBuf chunks = some (answers, recvBuf', later)) :
    later.length ≤ chunks.length - n := by
  induction n generalizing recvBuf chunks answers with
  | zero =>
    cases h
    exact le_rfl
  | succ n ih =>
    rw [readMany, readAnswers] at h
    rcases readLines_spec chunks hbuf with
      ⟨hwait, -⟩ | ⟨received, later, hne, rfl, hret⟩
    · rw [hwait] at h
      cases h
      exact Nat.zero_le _
    · rw [hret] at h
      have hpos := length_pos_of_ne_nil hne
      dsimp only at h
      rcases hlines : ((complete '\n' (recvBuf ++ received.flatten)).filter (· ≠ [])).mapM
        (readAnswer floatOfString int64OfString) with - | first
      · rw [hlines] at h
        cases h
      · rw [hlines] at h
        obtain ⟨⟨answers', buf, later'⟩, hmany, hpair⟩ := Option.map_eq_some_iff.mp h
        cases hpair
        have := ih (not_mem_rest _ _) hmany
        rw [length_append]
        omega

theorem returnsLines_iff (chunks : List (List Char)) :
    (∀ n, ReturnsLines floatOfString int64OfString chunks n) ↔
      ∀ line ∈ complete '\n' chunks.flatten,
        (readAnswer floatOfString int64OfString line).isSome := by
  have hnil : '\n' ∉ ([] : List Char) := not_mem_nil
  constructor
  · intro hall line hline
    obtain ⟨answers, recvBuf, received, later, hmany, hchunks, hmap, -⟩ := hall chunks.length
    have hlater := length_later hnil hmany
    rw [Nat.sub_self, Nat.le_zero, length_eq_zero_iff] at hlater
    rw [hlater, append_nil] at hchunks
    rw [hchunks] at hline
    have hmem := mem_map_of_mem (f := readAnswer floatOfString int64OfString) hline
    rw [← hmap] at hmem
    obtain ⟨answer, -, hanswer⟩ := mem_map.mp hmem
    rw [← hanswer, Option.isSome_some]
  · intro hall n
    obtain ⟨answers, received, later, hmany, hchunks, hmap⟩ :=
      readMany_spec n hnil hall
    exact ⟨answers, _, received, later, hmany, hchunks, hmap, rfl⟩

end Answers

/-! ## Both directions -/

/-- For the requests that a client sends and the answers that the server sends, cut
anywhere. -/
theorem messages_survive_iff {F : Type} (floatOfString : List Char → Option F)
    (int64OfString : List Char → Option ℤ) (requests answers : List (List Char))
    (hch : ∀ chunk ∈ requests, Server.IsChunk chunk) :
    ((∀ (M : Server.Memcpy) (pre : List (List Char)), pre <+: requests →
        Server.HandlesLines M pre) ∧
      ∀ n, ReturnsLines floatOfString int64OfString answers n) ↔
    (∀ pre chunk, pre ++ [chunk] <+: requests →
        Server.Handleable (rest '\n' pre.flatten ++ chunk)) ∧
      ∀ line ∈ complete '\n' answers.flatten,
        (readAnswer floatOfString int64OfString line).isSome :=
  and_congr (Server.handlesLines_iff requests hch) (returnsLines_iff answers)

/-- Two requests in two chunks, and an answer in three, the second of them empty. -/
theorem messages_survive_two :
    (∀ (M : Server.Memcpy) (pre : List (List Char)),
        pre <+: [['x', ';', '1', '\n', 'x'], [';', '2', '\n']] → Server.HandlesLines M pre) ∧
      ∀ n, ReturnsLines (fun _ => some (0 : ℚ)) (fun _ => some 0)
        [['S', ';'], [], ['1', '\n']] n := by
  refine (messages_survive_iff _ _ _ _ (by decide)).mpr ⟨?_, ?_⟩
  · rintro pre chunk ⟨more, heq⟩
    rcases pre with - | ⟨first, - | ⟨second, pre⟩⟩
    · obtain ⟨rfl, -⟩ := cons.inj heq
      decide
    · obtain ⟨rfl, hrest⟩ := cons.inj heq
      obtain ⟨rfl, -⟩ := cons.inj hrest
      decide
    · simp at heq
  · have hline : complete '\n' [['S', ';'], [], ['1', '\n']].flatten = [['S', ';', '1']] := by decide
    rw [hline]
    intro line hmem
    rw [mem_singleton.mp hmem, readAnswer, split_eq]
    decide

/-- A request, and the start of a longer one in the same chunk. -/
theorem not_messages_survive : ¬ ∀ (M : Server.Memcpy) (requests : List (List Char)),
    (∀ chunk ∈ requests, Server.IsChunk chunk) → Server.HandlesLines M requests := by
  intro hall
  have hch : Server.IsChunk ['x', ';', '1', '\n', 'x', ';', '1', '2', '3'] := by decide
  have hok := Server.handleable_of_handlesLines hch.2 (hall _ [] (by simp))
    (hall Server.scramblingMemcpy [_] (by simpa using hch))
  exact absurd hok (by decide)

end Why3.ProveClient
