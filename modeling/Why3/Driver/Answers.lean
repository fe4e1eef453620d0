import Why3.Driver.ProveClient
import Why3.Server.Server
import Why3.Server.Writebuf

/-!
# From the server to its client

`send_started_msg_to_client` and `send_msg_to_client` of `server/server-unix.c` make the
texts of the answers; the write buffer sends them piece by piece, and `read_answers` of
`driver/prove_client.ml` puts them together again.
-/

namespace Why3.ProveClient

open List Lines Fields MachineInt Strings

/-- The formats `%d` and `%.6f` of `snprintf`. -/
structure Printf where
  d : ℤ → List Char
  f : ℚ → List Char
  plain_d : ∀ n, ';' ∉ d n ∧ '\n' ∉ d n
  plain_f : ∀ t, ';' ∉ f t ∧ '\n' ∉ f t

variable {F : Type} (pf : Printf) (floatOfString : List Char → Option F)
  (int64OfString : List Char → Option ℤ)

/-- The formats `S;%s` and `F;%s;%d;%.6f;%d;%s`, without the newline. -/
def msgLine : Server.Msg → List Char
  | .started _ id => join ';' [['S'], id]
  | .finished _ id exitcode cpuTime timeout outfile =>
    join ';' [['F'], id, pf.d exitcode, pf.f cpuTime, [if timeout then '1' else '0'], outfile]

/-- The answer that the client is to see. -/
def answerOf : Server.Msg → Option (Answer F)
  | .started _ id => (intOfString id).map .started
  | .finished _ id exitcode cpuTime timeout outfile => do
    let id ← intOfString id
    let time ← floatOfString (pf.f cpuTime)
    let exitCode ← int64OfString (pf.d exitcode)
    some (.finished ⟨id, time, timeout, outfile, exitCode⟩)

/-- An identifier that the client sent, and a file name on one line. -/
def Sendable : Server.Msg → Prop
  | .started _ id => ';' ∉ id ∧ '\n' ∉ id
  | .finished _ id _ _ _ outfile => (';' ∉ id ∧ '\n' ∉ id) ∧ '\n' ∉ outfile

variable {pf floatOfString int64OfString} {m : Server.Msg}

theorem not_mem_join {c : Char} {fs : List (List Char)} (hc : c ≠ ';') (h : ∀ f ∈ fs, c ∉ f) :
    c ∉ join ';' fs := by
  cases fs with
  | nil => exact not_mem_nil
  | cons f fs =>
    rw [join_eq_flatMap, mem_append, mem_flatMap, not_or]
    refine ⟨h f mem_cons_self, ?_⟩
    rintro ⟨g, hg, hmem⟩
    rcases mem_cons.mp hmem with heq | hmem
    · exact hc heq
    · exact h g (mem_cons_of_mem _ hg) hmem

theorem newline_not_mem_msgLine (h : Sendable m) : '\n' ∉ msgLine pf m := by
  cases m with
  | started n id =>
    refine not_mem_join (by decide) ?_
    simpa using h.2
  | finished n id e t b file =>
    refine not_mem_join (by decide) ?_
    have hb : '\n' ∉ [if b then '1' else '0'] := by cases b <;> decide
    simp only [forall_mem_cons, not_mem_nil, false_implies, implies_true, and_true]
    exact ⟨by decide, h.1.2, (pf.plain_d e).2, (pf.plain_f t).2, hb, h.2⟩

theorem readAnswer_msgLine (h : Sendable m) :
    readAnswer floatOfString int64OfString (msgLine pf m) =
      answerOf pf floatOfString int64OfString m := by
  cases m with
  | started n id =>
    rw [readAnswer, msgLine, split_eq, splitOn_join (cons_ne_nil _ _) (by simpa using h.1)]
    rfl
  | finished n id e t b file =>
    have hb : ';' ∉ [if b then '1' else '0'] := by cases b <;> decide
    -- the name of the file may hold semicolons
    have hline : msgLine pf (.finished n id e t b file) = join ';'
        (['F'] :: id :: pf.d e :: pf.f t :: [if b then '1' else '0'] :: file.splitOn ';') := by
      have hne := splitOn_ne_nil ';' file
      simp only [msgLine, join_cons (cons_ne_nil _ _), join_cons hne, join_splitOn, join_singleton]
    have hplain : ∀ g ∈ ['F'] :: id :: pf.d e :: pf.f t :: [if b then '1' else '0'] ::
        file.splitOn ';', ';' ∉ g := by
      simp only [forall_mem_cons]
      exact ⟨by decide, h.1.1, (pf.plain_d e).1, (pf.plain_f t).1, hb,
        fun g hg => not_mem_of_mem_splitOn hg⟩
    rw [readAnswer, hline, split_eq, splitOn_join (cons_ne_nil _ _) hplain]
    cases hfile : file.splitOn ';' with
    | nil => exact absurd hfile (splitOn_ne_nil _ _)
    | cons g gs =>
      have hjoin : file = join ';' (g :: gs) := by rw [← hfile, join_splitOn]
      rw [answerOf, hjoin]
      cases b <;> rfl

/-! ## What arrives -/

theorem complete_lines {ls : List (List Char)} (h : ∀ l ∈ ls, '\n' ∉ l) :
    complete '\n' (ls.flatMap fun l => l ++ ['\n']) = ls := by
  induction ls with
  | nil => rfl
  | cons l ls ih =>
    rw [forall_mem_cons] at h
    rw [flatMap_cons, append_assoc, singleton_append, complete_line h.1, ih h.2]

theorem complete_mono {s t : List Char} (h : s <+: t) : complete '\n' s <+: complete '\n' t := by
  obtain ⟨u, rfl⟩ := h
  rw [complete_append]
  exact prefix_append _ _

def charOf (b : UInt8) : Char := Char.ofNat b.toNat

variable (pf floatOfString int64OfString)

/-- The messages `ms` are pushed and sent in any pieces, and the client reads what the socket
accepted so far in any chunks: its calls return the answers that stand in the first of
the messages, in their order, and all of them once everything has been read. -/
theorem answers_delivered {capacity : ℕ} (h : 0 < capacity) {acts : List WriteBuffer.Act}
    {c : WriteBuffer.Client} (ha : WriteBuffer.AllAllowed (WriteBuffer.initClient capacity h) acts)
    (hc : WriteBuffer.exec (WriteBuffer.initClient capacity h) acts = some c)
    (ms : List Server.Msg) (hms : (WriteBuffer.pushed acts).map charOf =
      (ms.map (msgLine pf)).flatMap fun l => l ++ ['\n'])
    (hsend : ∀ m ∈ ms, Sendable m)
    (hread : ∀ m ∈ ms, (answerOf pf floatOfString int64OfString m).isSome)
    (chunks : List (List Char)) (hchunks : chunks.flatten <+: c.accepted.map charOf) (n : ℕ) :
    ∃ answers buf later,
      readMany floatOfString int64OfString n [] chunks = some (answers, buf, later) ∧
      answers.map some <+: ms.map (answerOf pf floatOfString int64OfString) ∧
      (chunks.length ≤ n → chunks.flatten = (WriteBuffer.pushed acts).map charOf →
        answers.map some = ms.map (answerOf pf floatOfString int64OfString)) := by
  have hlines : complete '\n' ((WriteBuffer.pushed acts).map charOf) = ms.map (msgLine pf) := by
    rw [hms]
    exact complete_lines (forall_mem_map.mpr fun m hm => newline_not_mem_msgLine (hsend m hm))
  have hanswers : (ms.map (msgLine pf)).map (readAnswer floatOfString int64OfString) =
      ms.map (answerOf pf floatOfString int64OfString) := by
    rw [map_map]
    exact map_congr_left fun m hm => readAnswer_msgLine (hsend m hm)
  have hinv := (WriteBuffer.inv_initClient capacity h).exec ha hc
  have haccepted : c.accepted <+: WriteBuffer.pushed acts := ⟨_, hinv.sent_eq⟩
  have hpre := complete_mono (hchunks.trans (haccepted.map charOf))
  rw [hlines] at hpre
  have hok : ∀ l ∈ complete '\n' ([] ++ chunks.flatten),
      (readAnswer floatOfString int64OfString l).isSome := by
    intro l hl
    obtain ⟨m, hm, rfl⟩ := mem_map.mp (hpre.subset hl)
    rw [readAnswer_msgLine (hsend m hm)]
    exact hread m hm
  obtain ⟨answers, received, later, hmany, rfl, hmap⟩ := readMany_spec n not_mem_nil hok
  refine ⟨answers, _, later, hmany, ?_, fun hn hall => ?_⟩
  · rw [hmap, ← hanswers]
    rw [flatten_append] at hpre
    exact ((complete_mono (prefix_append _ _)).trans hpre).map _
  · have hlater := length_later not_mem_nil hmany
    have hnil : later = [] := length_eq_zero_iff.mp (by omega)
    rw [hnil, append_nil] at hall
    rw [hmap, nil_append, hall, hlines, hanswers]

/-- The numbers of an exit without error. -/
def zeroPrintf : Printf :=
  ⟨fun _ => "0".toList, fun _ => "0.000000".toList, fun _ => by decide, fun _ => by decide⟩

def bytes (s : String) : List UInt8 := s.toList.map fun c => c.toNat.toUInt8

def twoMessages : List Server.Msg :=
  [.started 0 "7".toList, .finished 0 "7".toList 0 0 false "a;b".toList]

/-- The two messages stand in the buffer; the first write is cut inside of the first message,
and the second read is cut inside of the second message. -/
theorem answers_delivered_two : ∃ answers buf later,
    readMany (fun _ => some 0) (fun _ => some 0) 3 []
        ["S;".toList, "7\nF;7;0;0.000".toList, "000;0;a;b\n".toList] =
      some (answers, buf, later) ∧
    answers.map some =
      twoMessages.map (answerOf (F := ℕ) zeroPrintf (fun _ => some 0) fun _ => some 0) := by
  have ha : WriteBuffer.AllAllowed (WriteBuffer.initClient 1 one_pos)
      [.push ⟨bytes "S;7\n", by decide, by decide⟩,
        .push ⟨bytes "F;7;0;0.000000;0;a;b\n", by decide, by decide⟩,
        .write (some 2), .write (some 2), .write (some 21)] := by decide
  obtain ⟨answers, buf, later, hmany, -, hall⟩ := answers_delivered zeroPrintf (fun _ => some 0)
    (fun _ => some 0) one_pos ha rfl twoMessages (by decide) (by simp [twoMessages, Sendable])
    (by decide) ["S;".toList, "7\nF;7;0;0.000".toList, "000;0;a;b\n".toList] (by decide) 3
  exact ⟨answers, buf, later, hmany, hall (by decide) (by decide)⟩

end Why3.ProveClient
