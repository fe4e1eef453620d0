import Why3.Server.Containers

/-!
# The write buffer of a client

`server/writebuf.c`, and the two functions of `server/server-unix.c` that use it:
`queue_write` appends a message, `write_to_client` is called when `poll` reports that the
socket of the client can be written.  The bytes that the socket accepted are recorded
beside the buffer.
-/

namespace Why3.WriteBuffer

open Server

/-- The messages for a client end with a newline, and `snprintf` counts them in an `int`. -/
structure Msg where
  bytes : List UInt8
  ne_nil : bytes ≠ []
  length_lt : bytes.length < 2 ^ 31

structure Writebuf where
  data : Option Msg
  len : ℕ
  pointer : ℕ
  isWriting : Bool
  writequeue : Queue Msg

def initWritebuf (capacity : ℕ) (h : 0 < capacity) : Writebuf where
  data := none
  len := 0
  pointer := 0
  isWriting := false
  writequeue := initQueue capacity h

def canWrite (b : Writebuf) : Bool := !b.isWriting

def hasWriteData (b : Writebuf) : Bool := b.data.isSome

/-- The number of bytes to write, the bytes from the pointer on, and the buffer; `none` is
a failed assertion. -/
def prepareWrite (b : Writebuf) : Option (ℕ × List UInt8 × Writebuf) :=
  if canWrite b then
    match b.data with
    | some data => some (b.len - b.pointer, data.bytes.drop b.pointer, { b with isWriting := true })
    | none => none
  else none

/-- `none` is a failed assertion. -/
def haveWritten (b : Writebuf) (size : ℕ) : Option Writebuf :=
  if b.isWriting ∧ b.pointer + size ≤ b.len then
    let b := { b with isWriting := false }
    if b.pointer + size < b.len then some { b with pointer := b.pointer + size }
    else
      let b := { b with pointer := 0 }
      if !queueIsEmpty b.writequeue then
        (queuePop b.writequeue).map fun (data, writequeue) =>
          { b with data := some data, len := data.bytes.length, writequeue := writequeue }
      else some { b with data := none, len := 0 }
  else none

def pushWriteData (b : Writebuf) (data : Msg) : Writebuf :=
  if hasWriteData b then { b with writequeue := queuePush b.writequeue data }
  else { b with data := some data, pointer := 0, len := data.bytes.length }

/-! ## The client -/

/-- `pollout` is the bit `POLLOUT` of the events asked of `poll`. -/
structure Client where
  writebuf : Writebuf
  pollout : Bool
  accepted : List UInt8

def initClient (capacity : ℕ) (h : 0 < capacity) : Client := ⟨initWritebuf capacity h, false, []⟩

def queueWrite (c : Client) (msgbuf : Msg) : Client :=
  { c with writebuf := pushWriteData c.writebuf msgbuf, pollout := true }

/-- `hasWritten` is the answer of `write`, `none` for `-1`. -/
def writeToClient (c : Client) (hasWritten : Option ℕ) : Option Client :=
  match prepareWrite c.writebuf with
  | none => none
  | some (_, buf, b) =>
    let b := match hasWritten with
      | some n => haveWritten b n
      | none => some b
    b.map fun b =>
      { writebuf := b
        pollout := c.pollout && hasWriteData b
        accepted := c.accepted ++ buf.take (hasWritten.getD 0) }

inductive Act
  | push (msgbuf : Msg)
  | write (hasWritten : Option ℕ)

def step (c : Client) : Act → Option Client
  | .push msgbuf => some (queueWrite c msgbuf)
  | .write hasWritten => writeToClient c hasWritten

def exec (c : Client) (acts : List Act) : Option Client := acts.foldlM step c

/-- `poll` reports only what was asked, and `write` accepts at most what it is given. -/
def Allowed (c : Client) : Act → Prop
  | .push _ => True
  | .write none => c.pollout
  | .write (some n) => c.pollout ∧ n ≤ c.writebuf.len - c.writebuf.pointer

instance (c : Client) (a : Act) : Decidable (Allowed c a) :=
  match a with
  | .push _ => inferInstanceAs (Decidable True)
  | .write none => inferInstanceAs (Decidable (_ = true))
  | .write (some _) => inferInstanceAs (Decidable (_ ∧ _))

def AllAllowed (c : Client) : List Act → Prop
  | [] => True
  | a :: acts => Allowed c a ∧ ∀ c' ∈ step c a, AllAllowed c' acts

instance decidableAllAllowed (c : Client) : ∀ acts, Decidable (AllAllowed c acts)
  | [] => inferInstanceAs (Decidable True)
  | a :: acts =>
    have := fun c' => decidableAllAllowed c' acts
    inferInstanceAs (Decidable (Allowed c a ∧ ∀ c' ∈ step c a, AllAllowed c' acts))

def Act.isWrite : Act → Bool
  | .push _ => false
  | .write _ => true

def Act.failed : Act → Bool
  | .push _ => false
  | .write hasWritten => hasWritten.isNone

/-- The concatenation of the messages. -/
def pushed (acts : List Act) : List UInt8 :=
  acts.flatMap fun
    | .push msgbuf => msgbuf.bytes
    | .write _ => []

/-- No assertion fails, what was accepted starts what was pushed, and `POLLOUT` is asked
for as long as it is not all of it. -/
def Delivers (c : Client) (acts : List Act) : Prop :=
  ∃ c', exec c acts = some c' ∧ c'.accepted <+: pushed acts ∧
    (c'.pollout = true ↔ c'.accepted ≠ pushed acts)

end Why3.WriteBuffer

/-!
# What the write buffer sends

After a `write` that fails the buffer stays marked as writing, so the next attempt fails
an assertion.  Up to there the bytes that were accepted, followed by those the buffer
holds, are the bytes that were pushed.
-/

namespace Why3.WriteBuffer

open Server List Option

/-! ## The buffer -/

/-- The bytes that a buffer holds. -/
def unsent (b : Writebuf) : List UInt8 :=
  match b.data with
  | some data => data.bytes.drop b.pointer ++ b.writequeue.toList.flatMap Msg.bytes
  | none => []

/-- There is a current message as long as there are messages, and the pointer is in it. -/
structure Wf (b : Writebuf) : Prop where
  len_eq : ∀ data, b.data = some data → b.len = data.bytes.length
  pointer_lt : ∀ data, b.data = some data → b.pointer < data.bytes.length
  queue_nil : b.data = none → b.writequeue.toList = []

variable {b : Writebuf} {c c' : Client} {n : ℕ} {data : Msg}

theorem Msg.length_pos (m : Msg) : 0 < m.bytes.length := length_pos_of_ne_nil m.ne_nil

theorem wf_initWritebuf (capacity : ℕ) (h : 0 < capacity) : Wf (initWritebuf capacity h) where
  len_eq _ h := by simp [initWritebuf] at h
  pointer_lt _ h := by simp [initWritebuf] at h
  queue_nil _ := toList_initQueue capacity h

theorem unsent_eq_nil (h : Wf b) : unsent b = [] ↔ hasWriteData b = false := by
  rw [hasWriteData]
  cases hd : b.data with
  | none => simp [unsent, hd]
  | some data =>
    have hlt := h.pointer_lt data hd
    simp [unsent, hd, hlt]

theorem pushWriteData_spec (h : Wf b) (data : Msg) :
    Wf (pushWriteData b data) ∧ unsent (pushWriteData b data) = unsent b ++ data.bytes ∧
      hasWriteData (pushWriteData b data) = true ∧
      (pushWriteData b data).isWriting = b.isWriting := by
  rw [pushWriteData]
  cases hd : b.data with
  | none =>
    rw [if_neg (by simp [hasWriteData, hd])]
    refine ⟨⟨?_, ?_, ?_⟩, ?_, rfl, rfl⟩
    · rintro _ ⟨⟩
      rfl
    · rintro _ ⟨⟩
      exact data.length_pos
    · rintro ⟨⟩
    · simp [unsent, hd, h.queue_nil hd]
  | some current =>
    rw [if_pos (by simp [hasWriteData, hd])]
    refine ⟨⟨hd ▸ h.len_eq, hd ▸ h.pointer_lt, ?_⟩, ?_, rfl, rfl⟩
    · rintro ⟨⟩
    · simp [unsent, hd, toList_queuePush]

/-- A `write` that accepts `n` bytes takes them off the bytes the buffer holds. -/
theorem haveWritten_spec (h : Wf b) (hd : b.data = some data) (hw : b.isWriting = true)
    (hn : b.pointer + n ≤ b.len) :
    ∃ b', haveWritten b n = some b' ∧ Wf b' ∧ b'.isWriting = false ∧
      unsent b = (data.bytes.drop b.pointer).take n ++ unsent b' := by
  have hlen := h.len_eq data hd
  rw [haveWritten, if_pos ⟨hw, hn⟩]
  dsimp only
  by_cases hlt : b.pointer + n < b.len
  · -- the message is not finished
    rw [if_pos hlt]
    refine ⟨_, rfl, ⟨h.len_eq, ?_, h.queue_nil⟩, rfl, ?_⟩
    · intro data' hd'
      dsimp only at hd' ⊢
      rw [← h.len_eq data' hd']
      exact hlt
    · simp only [unsent, hd]
      rw [← append_assoc, ← drop_drop, take_append_drop]
  · rw [if_neg hlt]
    have htake : (data.bytes.drop b.pointer).take n = data.bytes.drop b.pointer := by
      rw [take_of_length_le]
      rw [length_drop]
      omega
    rw [htake]
    by_cases hempty : queueIsEmpty b.writequeue = true
    · rw [if_neg (by simp [hempty])]
      have hnil := (queueIsEmpty_iff _).mp hempty
      refine ⟨_, rfl, ⟨?_, ?_, fun _ => hnil⟩, rfl, ?_⟩
      · rintro _ ⟨⟩
      · rintro _ ⟨⟩
      · simp [unsent, hd, hnil]
    · rw [if_pos (by simpa using hempty)]
      obtain ⟨next, q, hpop, hlist, -⟩ := queuePop_spec (Bool.eq_false_iff.mpr hempty)
      rw [hpop, map_some]
      refine ⟨_, rfl, ⟨?_, ?_, ?_⟩, rfl, ?_⟩
      · rintro _ ⟨⟩
        rfl
      · rintro _ ⟨⟩
        exact next.length_pos
      · rintro ⟨⟩
      · simp [unsent, hd, hlist]

/-! ## The client -/

/-- What holds of a client after `sent` was pushed. -/
structure Inv (sent : List UInt8) (c : Client) : Prop where
  wf : Wf c.writebuf
  pollout_eq : c.pollout = hasWriteData c.writebuf
  sent_eq : c.accepted ++ unsent c.writebuf = sent

variable {sent : List UInt8} {acts : List Act} {a : Act} {hasWritten : Option ℕ}

theorem inv_initClient (capacity : ℕ) (h : 0 < capacity) : Inv [] (initClient capacity h) :=
  ⟨wf_initWritebuf capacity h, rfl, rfl⟩

theorem Inv.queueWrite (h : Inv sent c) (msgbuf : Msg) :
    Inv (sent ++ msgbuf.bytes) (queueWrite c msgbuf) := by
  obtain ⟨hwf, hunsent, hdata, -⟩ := pushWriteData_spec h.wf msgbuf
  refine ⟨hwf, hdata.symm, ?_⟩
  show c.accepted ++ unsent (pushWriteData c.writebuf msgbuf) = _
  rw [hunsent, ← append_assoc, h.sent_eq]

theorem writeToClient_of_isWriting (hw : c.writebuf.isWriting = true) :
    writeToClient c hasWritten = none := by
  simp [writeToClient, prepareWrite, canWrite, hw]

theorem Inv.writeToClient (h : Inv sent c) (hw : c.writebuf.isWriting = false)
    (ha : Allowed c (.write hasWritten)) :
    ∃ c', writeToClient c hasWritten = some c' ∧ Inv sent c' ∧
      c'.writebuf.isWriting = hasWritten.isNone := by
  have hpoll : c.pollout = true := by
    cases hasWritten with
    | none => exact ha
    | some n => exact ha.1
  obtain ⟨data, hd⟩ := isSome_iff_exists.mp (h.pollout_eq.symm.trans hpoll)
  have hprepare : prepareWrite c.writebuf = some (c.writebuf.len - c.writebuf.pointer,
      data.bytes.drop c.writebuf.pointer, { c.writebuf with isWriting := true }) := by
    simp [prepareWrite, canWrite, hw, hd]
  have hwf : Wf { c.writebuf with isWriting := true } :=
    ⟨h.wf.len_eq, h.wf.pointer_lt, h.wf.queue_nil⟩
  have hsame : unsent { c.writebuf with isWriting := true } = unsent c.writebuf := rfl
  rw [WriteBuffer.writeToClient, hprepare]
  cases hasWritten with
  | none =>
    refine ⟨_, rfl, ⟨hwf, ?_, ?_⟩, rfl⟩
    · dsimp only
      rw [hpoll, Bool.true_and]
    · dsimp only [getD_none]
      rw [take_zero, append_nil, hsame, h.sent_eq]
  | some n =>
    have hlen := h.wf.len_eq data hd
    have hlt := h.wf.pointer_lt data hd
    have hn : c.writebuf.pointer + n ≤ c.writebuf.len := by
      have := ha.2
      omega
    obtain ⟨b, hb, hwf', hw', hunsent⟩ := haveWritten_spec hwf hd rfl hn
    dsimp only
    rw [hb]
    refine ⟨_, rfl, ⟨hwf', ?_, ?_⟩, hw'⟩
    · dsimp only
      rw [hpoll, Bool.true_and]
    · dsimp only [getD_some]
      rw [append_assoc, ← hunsent, hsame, h.sent_eq]

theorem Inv.delivers (h : Inv sent c) :
    c.accepted <+: sent ∧ (c.pollout = true ↔ c.accepted ≠ sent) := by
  refine ⟨⟨_, h.sent_eq⟩, ?_⟩
  rw [← h.sent_eq, h.pollout_eq, ne_eq, self_eq_append_right, unsent_eq_nil h.wf,
    Bool.not_eq_false]

/-! ## Runs -/

@[simp] theorem exec_nil : exec c [] = some c := rfl

theorem exec_cons : exec c (a :: acts) = (step c a).bind fun c' => exec c' acts := rfl

theorem exec_append {acts' : List Act} :
    exec c (acts ++ acts') = (exec c acts).bind fun c' => exec c' acts' := by
  simp [exec, foldlM_append]

@[simp] theorem pushed_nil : pushed [] = [] := rfl

@[simp] theorem pushed_push {msgbuf : Msg} :
    pushed (.push msgbuf :: acts) = msgbuf.bytes ++ pushed acts := rfl

@[simp] theorem pushed_write : pushed (.write hasWritten :: acts) = pushed acts := rfl

/-- A run whose assertions hold keeps the invariant. -/
theorem Inv.exec (h : Inv sent c) (ha : AllAllowed c acts) (he : exec c acts = some c') :
    Inv (sent ++ pushed acts) c' := by
  induction acts generalizing c sent with
  | nil =>
    obtain rfl := some.inj he
    simpa using h
  | cons a acts ih =>
    rw [exec_cons] at he
    obtain ⟨c₁, hstep, hrun⟩ := bind_eq_some_iff.mp he
    have hrest := ha.2 c₁ hstep
    cases a with
    | push msgbuf =>
      obtain rfl := some.inj hstep
      rw [pushed_push, ← append_assoc]
      exact ih (h.queueWrite msgbuf) hrest hrun
    | write hasWritten =>
      rw [pushed_write]
      have hw : c.writebuf.isWriting = false := by
        by_contra hw
        rw [Bool.not_eq_false] at hw
        have hnone : step c (.write hasWritten) = none := writeToClient_of_isWriting hw
        rw [hstep] at hnone
        cases hnone
      obtain ⟨c₂, hc₂, hinv, -⟩ := h.writeToClient hw ha.1
      obtain rfl := some.inj (hstep.symm.trans hc₂)
      exact ih hinv hrest hrun

/-- Assertions fail at a write that follows a failed one, and only there. -/
theorem Inv.exec_isSome (h : Inv sent c) (ha : AllAllowed c acts) :
    (WriteBuffer.exec c acts).isSome = true ↔
      (c.writebuf.isWriting = true → ∀ a ∈ acts, a.isWrite = false) ∧
        acts.Pairwise fun a a' => a.failed = true → a'.isWrite = false := by
  induction acts generalizing c sent with
  | nil => simp
  | cons a acts ih =>
    rw [exec_cons, pairwise_cons]
    cases a with
    | push msgbuf =>
      obtain ⟨-, -, -, hw⟩ := pushWriteData_spec h.wf msgbuf
      have hrest := ha.2 (WriteBuffer.queueWrite c msgbuf) rfl
      have hwriting : (WriteBuffer.queueWrite c msgbuf).writebuf.isWriting = c.writebuf.isWriting := hw
      rw [step, bind_some, ih (h.queueWrite msgbuf) hrest, hwriting]
      simp [Act.isWrite, Act.failed]
    | write hasWritten =>
      rw [step]
      cases hw : c.writebuf.isWriting with
      | true =>
        rw [writeToClient_of_isWriting hw]
        simp [Act.isWrite]
      | false =>
        obtain ⟨c₁, hc₁, hinv, hw₁⟩ := h.writeToClient hw ha.1
        rw [hc₁, bind_some, ih hinv (ha.2 c₁ hc₁), hw₁]
        simp only [Act.failed, Bool.false_eq_true, false_implies, true_and]
        constructor
        · rintro ⟨hnone, hpair⟩
          exact ⟨fun a ha hn => hnone hn a ha, hpair⟩
        · rintro ⟨hnone, hpair⟩
          exact ⟨fun hn a ha => hnone a ha hn, hpair⟩

theorem AllAllowed.left {acts' : List Act} (h : AllAllowed c (acts ++ acts')) :
    AllAllowed c acts := by
  induction acts generalizing c with
  | nil => trivial
  | cons a acts ih => exact ⟨h.1, fun c₁ hc₁ => ih (h.2 c₁ hc₁)⟩

/-- The buffer delivers at every moment of a run exactly when no `write` is attempted
after one that failed. -/
theorem delivers_iff (capacity : ℕ) (h : 0 < capacity) (acts : List Act)
    (ha : AllAllowed (initClient capacity h) acts) :
    (∀ acts', acts' <+: acts → Delivers (initClient capacity h) acts') ↔
      acts.Pairwise fun a a' => a.failed = true → a'.isWrite = false := by
  have hinit := inv_initClient capacity h
  have hsome := hinit.exec_isSome ha
  have hidle : (initClient capacity h).writebuf.isWriting = false := rfl
  rw [hidle] at hsome
  constructor
  · intro hall
    obtain ⟨c', hc', -⟩ := hall acts (prefix_refl acts)
    exact (hsome.mp (by rw [hc', isSome_some])).2
  · rintro hpair acts' ⟨rest, rfl⟩
    obtain ⟨c'', hc''⟩ := isSome_iff_exists.mp
      (hsome.mpr ⟨fun hfalse => absurd hfalse (by decide), hpair⟩)
    rw [exec_append] at hc''
    obtain ⟨c', hc', -⟩ := bind_eq_some_iff.mp hc''
    exact ⟨c', hc', (hinit.exec ha.left hc').delivers⟩

/-- Two messages, the first of which the socket takes in two parts. -/
theorem delivers_in_parts : Delivers (initClient 1 one_pos)
    [.push ⟨[65, 10], by decide, by decide⟩, .write (some 1),
      .push ⟨[66, 10], by decide, by decide⟩, .write (some 1), .write (some 2)] :=
  (delivers_iff 1 one_pos _ (by decide)).mpr (by decide) _ (prefix_refl _)

/-- A failed `write`, and the next one. -/
theorem not_delivers : ¬ ∀ (capacity : ℕ) (h : 0 < capacity) (acts : List Act),
    AllAllowed (initClient capacity h) acts →
    ∀ acts', acts' <+: acts → Delivers (initClient capacity h) acts' := by
  intro hall
  have ha : AllAllowed (initClient 1 one_pos)
      [.push ⟨[10], by decide, by decide⟩, .write none, .write (some 1)] := by decide
  obtain ⟨c', hc', -⟩ := hall 1 one_pos _ ha _ (prefix_refl _)
  cases hc'

end Why3.WriteBuffer
