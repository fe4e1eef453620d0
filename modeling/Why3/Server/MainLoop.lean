import Why3.Server.Moves
import Why3.Server.Readbuf

/-!
# The main loop of the server

The loop of `main` in `server/server-unix.c`, with `schedule_new_jobs`, and `handle_msg` as one
scan of the whole buffer with a `have_taken` at its end.  What the loop does is a run of the
server's steps, as long as every read leaves a buffer that can be handled.

The buffer of a client is the list of its bytes in use: `prepare_read` and `have_read` put the
bytes of `read` behind them.
-/

namespace Why3.Server

open Option Lines Runs

variable (M : Memcpy) (K : Kernel)

/-- The loop takes at most the requests of the queue. -/
def scheduleLoop : ℕ → State → State
  | 0, s => s
  | fuel + 1, s =>
    if (s.processes.length : ℤ) < s.parallel ∧ queueIsEmpty s.queue = false then
      match queuePop s.queue with
      | none => s
      | some (r, queue) => scheduleLoop fuel (runRequest K { s with queue := queue } r)
    else s

def scheduleNewJobs (s : State) : State := scheduleLoop K s.queue.len s

/-- The outer loop of `handle_msg`: the state, and the final value of `old`. -/
def msgLoop (key : ℤ) (buf : List Char) (max : ℤ) (cur old : ℕ) (s : State) : State × ℕ :=
  if (cur : ℤ) < max then
    let cur' := findNewline buf max cur
    if (cur' : ℤ) = max then (s, old)
    else
      let s := handleLine K s key ((buf.drop old).take (cur' - old))
      msgLoop key buf max (cur' + 1) (cur' + 1) s
  else (s, old)
termination_by (max - cur).toNat
decreasing_by
  have := le_findNewline buf max cur
  omega

def State.setReadbuf (s : State) (fd : ℤ) (f : List Char → List Char) : State :=
  { s with clients := updated s.clients fd (Client.setReadbuf f) }

def handleMsg (s : State) (key : ℤ) : Option State :=
  (listLookup s.clients key).bind fun client =>
    let (s, old) := msgLoop K key client.readbuf (toInt client.readbuf.length) 0 0 s
    if old > 0 then
      (haveTaken M ⟨client.readbuf, client.readbuf.length, le_rfl⟩ old).map fun b =>
        s.setReadbuf key fun _ => b.data
    else some s

/-- A chunk without bytes is the end of the connection. -/
def readOnClient (s : State) (fd : ℤ) (chunk : List Char) : Option State :=
  match chunk with
  | [] => some (closeClient s fd)
  | _ :: _ => handleMsg M K (s.setReadbuf fd (· ++ chunk)) fd

/-- A result of `poll`.  A client that may be written to, and a failed `read`, change
nothing that is modelled. -/
inductive Poll
  | childEvents (children : List (ℤ × Status × ℚ))
  | accept (fd : ℤ)
  | error (fd : ℤ)
  | output (fd : ℤ)
  | input (fd : ℤ) (chunk : List Char)

/-- The kernel gives no descriptor of an open connection to a new client. -/
def serverAcceptClient (s : State) (fd : ℤ) : Option State :=
  if fd ∈ s.clients.map Prod.fst then none
  else some { s with clients := listAppend s.clients fd ⟨fd, [], [], []⟩ }

def handlePoll (s : State) : Poll → Option State
  | .childEvents children =>
    children.foldlM (fun s (pid, status, cpuTime) => handleChildEvent s pid status cpuTime) s
  | .accept fd => serverAcceptClient s fd
  | .error fd => some (if (listLookup s.clients fd).isSome then closeClient s fd else s)
  | .output _ => some s
  | .input fd chunk =>
    if (listLookup s.clients fd).isSome then readOnClient M K s fd chunk else some s

/-- One turn of the main loop. -/
def mainTurn (s : State) (polls : List Poll) : Option State :=
  polls.foldlM (handlePoll M K) (scheduleNewJobs K s)

def mainLoop (s : State) (turns : List (List Poll)) : Option State := turns.foldlM (mainTurn M K) s

/-! ## What can be handled -/

/-- A read leaves a buffer that `handle_msg` can handle. -/
def Readable (s : State) : Poll → Prop
  | .input fd chunk => ∀ c, listLookup s.clients fd = some c → Handleable (c.readbuf ++ chunk)
  | _ => True

/-- Every read of the loop does. -/
def Handles (s : State) (turns : List (List Poll)) : Prop :=
  ∀ pre polls post t, turns = pre ++ polls :: post → mainLoop M K s pre = some t →
    ∀ pre' p post' t', polls = pre' ++ p :: post' →
      pre'.foldlM (handlePoll M K) (scheduleNewJobs K t) = some t' → Readable t' p

/-- `fork` and `mkstemp` do not look at the buffers. -/
def Kernel.Blind (K : Kernel) : Prop :=
  ∀ (s : State) fd f r, K.createProcess (s.setReadbuf fd f) r = K.createProcess s r ∧
    K.openTempFile (s.setReadbuf fd f) r = K.openTempFile s r

variable {M K} {s s' : State} {fd key : ℤ} {f : List Char → List Char}

/-! ## The queue -/

theorem scheduleLoop_run (fuel : ℕ) (s : State) : Run (step K) AnyOrder s (scheduleLoop K fuel s) := by
  induction fuel generalizing s with
  | zero => exact .refl
  | succ fuel ih =>
    rw [scheduleLoop]
    split_ifs with h
    · cases hpop : queuePop s.queue with
      | none => exact .refl
      | some x =>
        have hstep : step K s .start = some (runRequest K { s with queue := x.2 } x.1) := by
          rw [step, if_pos h.1, hpop, map_some]
        exact (Run.single trivial hstep).trans (ih _)
    · exact .refl

/-- The loop ends because no request can be started any more. -/
theorem scheduleNewJobs_done (K : Kernel) (s : State) :
    ¬ (((scheduleNewJobs K s).processes.length : ℤ) < (scheduleNewJobs K s).parallel ∧
      queueIsEmpty (scheduleNewJobs K s).queue = false) := by
  have hloop : ∀ fuel (s : State), s.queue.len ≤ fuel →
      ¬ (((scheduleLoop K fuel s).processes.length : ℤ) < (scheduleLoop K fuel s).parallel ∧
        queueIsEmpty (scheduleLoop K fuel s).queue = false) := by
    intro fuel
    induction fuel with
    | zero =>
      intro s hs h
      rw [scheduleLoop, queueIsEmpty, decide_eq_false_iff_not] at h
      exact h.2 (by omega)
    | succ fuel ih =>
      intro s hs
      rw [scheduleLoop]
      split_ifs with h
      · obtain ⟨r, queue, hpop, -, hlen⟩ := queuePop_spec h.2
        rw [hpop]
        refine ih _ ?_
        have hqueue : (runRequest K { s with queue := queue } r).queue = queue := by
          rw [runRequest]
          split <;> rfl
        rw [hqueue]
        omega
      · exact h
  exact hloop _ s le_rfl

/-! ## The lines of a buffer -/

theorem updated_comm (g h : Client → Client) (hgh : ∀ c, g (h c) = h (g c))
    (cs : List (ℤ × Client)) (a b : ℤ) :
    updated (updated cs a g) b h = updated (updated cs b h) a g := by
  rw [updated, updated, updated, updated, List.map_map, List.map_map]
  refine List.map_congr_left fun e _ => ?_
  simp only [Function.comp_apply]
  split_ifs <;> simp_all

theorem listLookup_updated (cs : List (ℤ × Client)) (fd key : ℤ) (g : Client → Client) :
    listLookup (updated cs fd g) key =
      (listLookup cs key).map fun c => if key = fd then g c else c := by
  induction cs with
  | nil => rfl
  | cons e cs ih =>
    rw [listLookup, updated, List.map_cons, List.find?_cons, listLookup, List.find?_cons]
    by_cases he : e.1 = key
    · by_cases hfd : e.1 = fd <;> simp_all
    · have hkey : decide ((if e.1 = fd then (e.1, g e.2) else e).1 = key) = false := by
        split_ifs <;> simpa using he
      rw [hkey, decide_eq_false he]
      exact ih

theorem setReadbuf_setReadbuf (s : State) (fd : ℤ) (f g : List Char → List Char) :
    (s.setReadbuf fd f).setReadbuf fd g = s.setReadbuf fd (g ∘ f) := by
  rw [State.setReadbuf, State.setReadbuf, State.setReadbuf, updated_updated]
  rfl

theorem queueWrite_setReadbuf (s : State) (msg : Msg) :
    queueWrite (s.setReadbuf fd f) key msg = (queueWrite s key msg).setReadbuf fd f :=
  congrArg (fun cs => ({ s with clients := cs } : State))
    (updated_comm (Client.setReadbuf f) (Client.write msg) (fun _ => rfl) s.clients fd key)

section Blind

variable (hK : K.Blind)
include hK

theorem runRequest_setReadbuf (s : State) (r : Pending) :
    runRequest K (s.setReadbuf fd f) r = (runRequest K s r).setReadbuf fd f := by
  obtain ⟨hproc, hfile⟩ := hK s fd f r
  have hlookup : listLookup (s.setReadbuf fd f).clients r.req.key = _ :=
    listLookup_updated s.clients fd r.req.key (Client.setReadbuf f)
  rw [runRequest, runRequest, hproc, hfile, hlookup]
  cases listLookup s.clients r.req.key with
  | none => rfl
  | some c =>
    exact queueWrite_setReadbuf { s with
      processes := listAppend s.processes (K.createProcess s r)
        ⟨r.serial, r.req.id, r.req.key, K.openTempFile s r, false⟩
      starts := s.starts ++ [(s.processes.length, s.parallel)] } _

theorem handleRun_setReadbuf (s : State) (r : RunRequest) :
    handleRun K (s.setReadbuf fd f) r = (handleRun K s r).setReadbuf fd f := by
  have hrecv : updated (updated s.clients fd (Client.setReadbuf f)) r.key
      (Client.receive (s.next, r.id)) = updated (updated s.clients r.key
        (Client.receive (s.next, r.id))) fd (Client.setReadbuf f) :=
    updated_comm (Client.setReadbuf f) (Client.receive (s.next, r.id)) (fun _ => rfl) ..
  have hnext : ({ s.setReadbuf fd f with
      clients := updated (s.setReadbuf fd f).clients r.key (Client.receive (s.next, r.id))
      next := s.next + 1 } : State) =
    ({ s with
      clients := updated s.clients r.key (Client.receive (s.next, r.id))
      next := s.next + 1 } : State).setReadbuf fd f :=
    congrArg (fun cs => ({ s with clients := cs, next := s.next + 1 } : State)) hrecv
  rw [handleRun, handleRun]
  show (if (s.processes.length : ℤ) < s.parallel then runRequest K { s.setReadbuf fd f with
      clients := updated (s.setReadbuf fd f).clients r.key (Client.receive (s.next, r.id))
      next := s.next + 1 } ⟨s.next, r⟩ else { { s.setReadbuf fd f with
      clients := updated (s.setReadbuf fd f).clients r.key (Client.receive (s.next, r.id))
      next := s.next + 1 } with queue := queuePush s.queue ⟨s.next, r⟩ }) = _
  rw [hnext]
  split_ifs
  · exact runRequest_setReadbuf hK _ _
  · rfl

omit hK in
theorem handleInterrupt_setReadbuf (s : State) (id : List Char) :
    handleInterrupt (s.setReadbuf fd f) key id = (handleInterrupt s key id).setReadbuf fd f := by
  have hremove : ∀ (removed : List Pending) (s : State),
      removed.foldl handleQueueRemove (s.setReadbuf fd f) =
        (removed.foldl handleQueueRemove s).setReadbuf fd f := by
    intro removed
    induction removed with
    | nil => exact fun s => rfl
    | cons r removed ih =>
      intro s
      rw [List.foldl_cons, List.foldl_cons, ← ih]
      exact congrArg (fun s => removed.foldl handleQueueRemove s) (queueWrite_setReadbuf s _)
  exact congrArg (fun s => killProcesses s key (some id)) (hremove
    (removeFromQueue s.queue key (some id)).2
    { s with queue := (removeFromQueue s.queue key (some id)).1 })

theorem handleLine_setReadbuf (s : State) (line : List Char) :
    handleLine K (s.setReadbuf fd f) key line = (handleLine K s key line).setReadbuf fd f := by
  have hparallel : (s.setReadbuf fd f).parallel = s.parallel := rfl
  rw [handleLine, handleLine, hparallel]
  cases parseRequest line key s.parallel with
  | mk r parallel =>
    rcases r with _ | r | ⟨key', id⟩
    · rfl
    · exact handleRun_setReadbuf hK { s with parallel := parallel } r
    · exact handleInterrupt_setReadbuf { s with parallel := parallel } id

theorem foldl_handleLine_setReadbuf (lines : List (List Char)) (s : State) :
    lines.foldl (fun s line => handleLine K s key line) (s.setReadbuf fd f) =
      (lines.foldl (fun s line => handleLine K s key line) s).setReadbuf fd f := by
  induction lines generalizing s with
  | nil => rfl
  | cons line lines ih => rw [List.foldl_cons, List.foldl_cons, handleLine_setReadbuf hK, ih]

omit hK in
/-- A line opens and closes no connection. -/
theorem keys_handleLine (K : Kernel) (s : State) (line : List Char) :
    (handleLine K s key line).clients.map Prod.fst = s.clients.map Prod.fst := by
  have hrun : ∀ (s : State) (r : Pending),
      (runRequest K s r).clients.map Prod.fst = s.clients.map Prod.fst := by
    intro s r
    rw [runRequest]
    split
    · rfl
    · exact keys_updated ..
  have hremove : ∀ (removed : List Pending) (s : State),
      (removed.foldl handleQueueRemove s).clients.map Prod.fst = s.clients.map Prod.fst := by
    intro removed
    induction removed with
    | nil => exact fun s => rfl
    | cons r removed ih => exact fun s => (ih _).trans (keys_updated ..)
  rw [handleLine]
  cases parseRequest line key s.parallel with
  | mk r parallel =>
    rcases r with _ | r | ⟨key', id⟩
    · rfl
    · show (handleRun K { s with parallel := parallel } r).clients.map Prod.fst = _
      rw [handleRun]
      dsimp only
      split_ifs
      · exact (hrun ..).trans (keys_updated ..)
      · exact keys_updated ..
    · exact hremove ..

/-- The complete lines of the buffer are handled one after the other. -/
theorem lines_run (buf : List Char) : ∀ {s : State} {c : Client},
    listLookup s.clients fd = some c → c.readbuf = buf → '\n' ∈ buf →
    Run (step K) AnyOrder s (((complete '\n' buf).foldl (fun s line => handleLine K s fd line)
      s).setReadbuf fd fun _ => rest '\n' buf) := by
  induction buf using Lines.induction '\n' with
  | unfinished buf h => exact fun _ _ hmem => absurd hmem h
  | line l buf hl ih =>
    intro s c hc hbuf _
    have hstep : step K s (.line fd) =
        some (handleLine K (s.setReadbuf fd fun _ => buf) fd l) := by
      have htake : takeLine c.readbuf = some (l, buf) := by
        rw [hbuf, takeLine, if_pos (by simp)]
        have hspan : ∀ x ∈ l, decide (x ≠ '\n') = true := fun x hx =>
          decide_eq_true fun h => hl (h ▸ hx)
        rw [List.takeWhile_append_of_pos hspan, List.dropWhile_append_of_pos hspan]
        simp
      rw [step, hc, bind_some, htake, map_some]
      rfl
    rw [handleLine_setReadbuf hK] at hstep
    refine (Run.single trivial hstep).trans ?_
    rw [complete_line hl, rest_line hl, List.foldl_cons]
    by_cases hmem : '\n' ∈ buf
    · obtain ⟨c', hc'⟩ : ∃ c', listLookup (handleLine K s fd l).clients fd = some c' := by
        rw [← ne_none_iff_exists', ne_eq, listLookup_eq_none, keys_handleLine, not_not]
        exact mem_keys_of_lookup hc
      have hbuf' : listLookup ((handleLine K s fd l).setReadbuf fd fun _ => buf).clients fd =
          some (Client.setReadbuf (fun _ => buf) c') := by
        rw [State.setReadbuf, listLookup_updated, hc', map_some, if_pos rfl]
      have hrest := ih hbuf' rfl hmem
      rwa [foldl_handleLine_setReadbuf hK, setReadbuf_setReadbuf] at hrest
    · rw [complete_of_not_mem hmem, rest_of_not_mem hmem]
      exact .refl

end Blind

theorem msgLoop_eq (buf : List Char) (max : ℤ) (cur old : ℕ) (s : State) :
    msgLoop K key buf max cur old s =
      ((handleLoop buf max cur old).1.foldl (fun s line => handleLine K s key line) s,
        (handleLoop buf max cur old).2) := by
  fun_induction handleLoop buf max cur old generalizing s with
  | case1 cur old hlt cur' heq =>
    rw [msgLoop, if_pos hlt]
    exact if_pos heq
  | case2 cur old hlt cur' hne line lines old' hrec ih =>
    rw [msgLoop, if_pos hlt]
    show (if (cur' : ℤ) = max then _ else _) = _
    rw [if_neg hne, ih, hrec]
    rfl
  | case3 cur old hlt =>
    rw [msgLoop, if_neg hlt]
    rfl

/-- `handle_msg` is a run of steps when the buffer can be handled. -/
theorem handleMsg_run (hK : K.Blind) {c : Client} (hc : listLookup s.clients fd = some c)
    (h : Handleable c.readbuf) (hs' : handleMsg M K s fd = some s') :
    Run (step K) AnyOrder s s' := by
  have hle := (rest_suffix '\n' c.readbuf).length_le
  rw [handleMsg, hc, bind_some, msgLoop_eq] at hs'
  change (if (handleMsgLines c.readbuf).2 > 0 then _ else _) = _ at hs'
  have hlines := handleMsgLines_of_below h.1
  by_cases hmem : '\n' ∈ c.readbuf
  · have hlt := length_rest_lt hmem
    obtain ⟨b, hb, hdata⟩ := haveTaken_disjoint (M := M)
      (b := ⟨c.readbuf, c.readbuf.length, le_rfl⟩) (h.2 hmem)
    rw [if_pos (by rw [hlines]; exact Nat.sub_pos_of_lt hlt)] at hs'
    rw [show (handleLoop c.readbuf (toInt c.readbuf.length) 0 0) = _ from hlines, hb, map_some,
      hdata] at hs'
    rw [← Option.some.inj hs']
    exact lines_run hK c.readbuf hc rfl hmem
  · rw [rest_of_not_mem hmem, Nat.sub_self, complete_of_not_mem hmem] at hlines
    rw [if_neg (by rw [hlines]; exact Nat.lt_irrefl 0)] at hs'
    rw [show (handleLoop c.readbuf (toInt c.readbuf.length) 0 0) = _ from hlines] at hs'
    rw [← Option.some.inj hs']
    exact .refl

/-! ## The loop -/

theorem foldlM_run {β : Type} {g : State → β → Option State} {l : List β}
    (hg : ∀ pre b post s₁ s₂, l = pre ++ b :: post → pre.foldlM g s = some s₁ →
      g s₁ b = some s₂ → Run (step K) AnyOrder s₁ s₂) (h : l.foldlM g s = some s') :
    Run (step K) AnyOrder s s' := by
  induction l using List.reverseRecOn generalizing s' with
  | nil =>
    cases h
    exact .refl
  | append_singleton l b ih =>
    rw [List.foldlM_append] at h
    obtain ⟨t, ht, h⟩ := bind_eq_some_iff.mp h
    obtain ⟨t', ht', heq⟩ := bind_eq_some_iff.mp (List.foldlM_cons.symm.trans h)
    cases heq
    refine (ih (fun pre b' post s₁ s₂ heq => ?_) ht).trans (hg l b [] t _ rfl ht ht')
    exact hg pre b' (post ++ [b]) s₁ s₂ (by rw [heq, List.append_assoc, List.cons_append])

theorem handlePoll_run (hK : K.Blind) {p : Poll} (hread : Readable s p)
    (h : handlePoll M K s p = some s') : Run (step K) AnyOrder s s' := by
  cases p with
  | childEvents children =>
    refine foldlM_run (fun _ b _ s₁ s₂ _ _ hb => ?_) h
    exact Run.single (a := .child b.1 b.2.1 b.2.2) trivial hb
  | accept fd => exact Run.single (a := .accept fd) trivial h
  | error fd =>
    rw [handlePoll] at h
    split_ifs at h with hfd
    · obtain ⟨c, hc⟩ := isSome_iff_exists.mp hfd
      exact Run.single (a := .close fd) trivial (by rw [step, hc, map_some, ← h])
    · cases h
      exact .refl
  | output fd =>
    cases h
    exact .refl
  | input fd chunk =>
    rw [handlePoll] at h
    split_ifs at h with hfd
    · obtain ⟨c, hc⟩ := isSome_iff_exists.mp hfd
      cases chunk with
      | nil => exact Run.single (a := .close fd) trivial (by rw [step, hc, map_some, ← h]; rfl)
      | cons x chunk =>
        have hstep : step K s (.read fd (x :: chunk)) =
            some (s.setReadbuf fd (· ++ x :: chunk)) := by
          rw [step, hc, map_some]
          rfl
        have hc' : listLookup (s.setReadbuf fd (· ++ x :: chunk)).clients fd =
            some (c.setReadbuf (· ++ x :: chunk)) := by
          rw [State.setReadbuf, listLookup_updated, hc, map_some, if_pos rfl]
        exact (Run.single trivial hstep).trans (handleMsg_run hK hc' (hread c hc) h)
    · cases h
      exact .refl

/-- What the main loop does, while every read leaves a buffer that can be handled, is a run
of the server's steps. -/
theorem mainLoop_run {turns : List (List Poll)} (hK : K.Blind) (hread : Handles M K s turns)
    (h : mainLoop M K s turns = some s') : Run (step K) AnyOrder s s' := by
  refine foldlM_run (fun pre polls post t u heq hpre hturn => ?_) h
  refine (scheduleLoop_run _ t).trans (foldlM_run (fun pre' p post' t₁ t₂ heq' hpre' hp => ?_) hturn)
  exact handlePoll_run hK (hread pre polls post t heq hpre pre' p post' t₁ heq' hpre') hp

theorem Handles.cons {polls : List Poll} {turns : List (List Poll)}
    (hpolls : ∀ pre p post t, polls = pre ++ p :: post →
      pre.foldlM (handlePoll M K) (scheduleNewJobs K s) = some t → Readable t p)
    (h : ∀ t, mainTurn M K s polls = some t → Handles M K t turns) :
    Handles M K s (polls :: turns) := by
  intro pre polls' post t heq hpre
  cases pre with
  | nil =>
    cases heq
    cases hpre
    exact hpolls
  | cons _ pre =>
    cases heq
    rw [mainLoop, List.foldlM_cons] at hpre
    obtain ⟨t₁, ht₁, hpre⟩ := bind_eq_some_iff.mp hpre
    exact h t₁ ht₁ pre polls' post t rfl hpre

/-- Two requests come in one chunk; the second is started when the first has ended. -/
theorem mainLoop_run_two : ∃ s, Run (step ⟨fun _ r => r.serial, fun _ _ => []⟩) AnyOrder (initState 1) s ∧
    s.processes.map (fun p => p.2.taskId) = ["b".toList] ∧ s.clients.map (fun c => c.2.log) =
      [[.started 0 "a".toList, .finished 0 "a".toList 0 0 false [], .started 1 "b".toList]] := by
  have heval : (mainLoop scramblingMemcpy ⟨fun _ r => r.serial, fun _ _ => []⟩ (initState 1)
      [[.accept 5], [.input 5 "run;a;0;0;sh\nrun;b;0;0;sh\n".toList],
        [.childEvents [(0, .exited 0, 0)]], []]).map (fun s =>
          (s.processes.map (fun p => p.2.taskId), s.clients.map fun c => c.2.log)) =
      some (["b".toList],
        [[.started 0 "a".toList, .finished 0 "a".toList 0 0 false [], .started 1 "b".toList]]) := by
    decide +kernel
  obtain ⟨s, hs, hlog⟩ := map_eq_some_iff.mp heval
  refine ⟨s, mainLoop_run (fun _ _ _ _ => ⟨rfl, rfl⟩) ?_ hs, congrArg Prod.fst hlog,
    congrArg Prod.snd hlog⟩
  refine .cons (fun pre p post t heq _ => ?_) fun t ht => ?_
  · rcases pre with _ | ⟨_, _ | ⟨_, pre⟩⟩ <;> cases heq
    trivial
  refine .cons (fun pre p post t' heq hpre => ?_) fun t' _ => ?_
  · rcases pre with _ | ⟨_, _ | ⟨_, pre⟩⟩ <;> cases heq
    cases ht
    cases hpre
    intro c hc
    cases hc
    decide +kernel
  refine .cons (fun pre p post t heq _ => ?_) fun t _ => ?_
  · rcases pre with _ | ⟨_, _ | ⟨_, pre⟩⟩ <;> cases heq
    trivial
  refine .cons (fun pre p post t heq _ => ?_) fun t _ pre polls post _ heq => ?_
  · cases pre <;> cases heq
  · cases pre <;> cases heq

end Why3.Server
