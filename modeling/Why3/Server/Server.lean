import Why3.Server.Request
import Why3.Server.Containers
import Why3.Lib.Runs

/-!
# The proof server

The event loop of `server/server-unix.c`.  A poll result is an event; what the
kernel answers (a descriptor, a process identifier, the status of a child, the
bytes read) is part of the event or comes from a `Kernel`.

Three things are recorded that the server does not have: every request received
has a serial number, a client remembers the requests received on its connection
and all messages that were ever queued for it, and every start of a process is
noted with the number of processes that run and the limit at that moment.
-/

namespace Why3.Server

/-! ## State -/

/-- A request in the queue, with its serial number. -/
structure Pending where
  serial : ℕ
  req : RunRequest
deriving DecidableEq

structure Proc where
  serial : ℕ
  taskId : List Char
  clientKey : ℤ
  outfile : List Char
  killed : Bool
deriving DecidableEq

/-- What is queued for a client: the texts `S;id` and `F;id;exitcode;time;timeout;file`. -/
inductive Msg
  | started (serial : ℕ) (id : List Char)
  | finished (serial : ℕ) (id : List Char) (exitcode : ℤ) (cpuTime : ℚ) (timeout : Bool)
      (outfile : List Char)
deriving DecidableEq

def Msg.serial : Msg → ℕ
  | .started n _ => n
  | .finished n _ _ _ _ _ => n

def Msg.id : Msg → List Char
  | .started _ id => id
  | .finished _ id _ _ _ _ => id

def Msg.isFinished : Msg → Bool
  | .started _ _ => false
  | .finished _ _ _ _ _ _ => true

structure Client where
  fd : ℤ
  readbuf : List Char
  log : List Msg
  received : List (ℕ × List Char)
deriving DecidableEq

structure State where
  parallel : ℤ
  queue : Queue Pending
  processes : List (ℤ × Proc)
  clients : List (ℤ × Client)
  next : ℕ
  starts : List (ℕ × ℤ)

/-- The answers of `fork` and of `mkstemp`. -/
structure Kernel where
  createProcess : State → Pending → ℤ
  openTempFile : State → Pending → List Char

def initState (parallel : ℤ) : State where
  parallel := parallel
  queue := initQueue 100 (by norm_num)
  processes := []
  clients := []
  next := 0
  starts := []

/-- The clients after a change through the pointer of one of them. -/
def updated (clients : List (ℤ × Client)) (fd : ℤ) (f : Client → Client) : List (ℤ × Client) :=
  clients.map fun e => if e.1 = fd then (e.1, f e.2) else e

def Client.write (msg : Msg) (c : Client) : Client := { c with log := c.log ++ [msg] }

def Client.receive (x : ℕ × List Char) (c : Client) : Client :=
  { c with received := c.received ++ [x] }

def Client.setReadbuf (f : List Char → List Char) (c : Client) : Client :=
  { c with readbuf := f c.readbuf }

def queueWrite (s : State) (fd : ℤ) (msg : Msg) : State :=
  { s with clients := updated s.clients fd (Client.write msg) }

/-! ## Processes -/

/-- The request is dropped when its client is gone. -/
def runRequest (K : Kernel) (s : State) (r : Pending) : State :=
  match listLookup s.clients r.req.key with
  | none => s
  | some _ =>
    let outfile := K.openTempFile s r
    let id := K.createProcess s r
    let proc : Proc := ⟨r.serial, r.req.id, r.req.key, outfile, false⟩
    let s := { s with
      processes := listAppend s.processes id proc
      starts := s.starts ++ [(s.processes.length, s.parallel)] }
    queueWrite s r.req.key (.started r.serial r.req.id)

inductive Status
  | signaled (sig : ℤ)
  | exited (code : ℤ)
  | other

def Status.exitCode : Status → ℤ
  | .signaled sig => sig
  | .exited code => code
  | .other => 1

def Status.isTimeout : Status → Bool
  | .signaled _ => true
  | .exited _ => false
  | .other => false

/-- One turn of the loop over `wait3`; a process that is not in the list would be a null
pointer. -/
def handleChildEvent (s : State) (pid : ℤ) (status : Status) (cpuTime : ℚ) : Option State :=
  match listLookup s.processes pid with
  | none => none
  | some child =>
    let s := { s with processes := listRemove s.processes pid }
    match listLookup s.clients child.clientKey with
    | none => some s
    | some _ =>
      some (queueWrite s child.clientKey (.finished child.serial child.taskId status.exitCode
        cpuTime status.isTimeout child.outfile))

/-- Whether a request or a process of a client is meant; without an identifier, all are. -/
def isMeant (key : ℤ) (id : Option (List Char)) (key' : ℤ) (id' : List Char) : Bool :=
  key' = key ∧ (id = none ∨ id = some id')

def killed (key : ℤ) (id : Option (List Char)) (e : ℤ × Proc) : ℤ × Proc :=
  if isMeant key id e.2.clientKey e.2.taskId then (e.1, { e.2 with killed := true }) else e

def killProcesses (s : State) (key : ℤ) (id : Option (List Char)) : State :=
  { s with processes := s.processes.map (killed key id) }

/-! ## Removal from the queue -/

/-- The first loop: every request is popped, those to keep go to the temporary queue,
and the others to the callback. -/
def emptyQueue (keep : Pending → Bool) :
    ℕ → Queue Pending → Queue Pending → List Pending × Queue Pending × Queue Pending
  | 0, q, tmp => ([], q, tmp)
  | fuel + 1, q, tmp =>
    match queuePop q with
    | none => ([], q, tmp)
    | some (r, q) =>
      if keep r then emptyQueue keep fuel q (queuePush tmp r)
      else
        let (removed, q, tmp) := emptyQueue keep fuel q tmp
        (r :: removed, q, tmp)

/-- The second loop. -/
def refillQueue : ℕ → Queue Pending → Queue Pending → Queue Pending
  | 0, _, q => q
  | fuel + 1, tmp, q =>
    match queuePop tmp with
    | none => q
    | some (r, tmp) => refillQueue fuel tmp (queuePush q r)

/-- The queue afterwards, and the requests the callback gets. -/
def removeFromQueue (q : Queue Pending) (key : ℤ) (id : Option (List Char)) :
    Queue Pending × List Pending :=
  let tmp := initQueue q.capacity q.capacity_pos
  let (removed, q, tmp) := emptyQueue (fun r => !isMeant key id r.req.key r.req.id) q.len q tmp
  (refillQueue tmp.len tmp q, removed)

def handleQueueRemove (s : State) (r : Pending) : State :=
  queueWrite s r.req.key (.finished r.serial r.req.id 0 0 false [])

/-! ## Clients -/

/-- A request is received: it gets its number, and is started if a process may run. -/
def handleRun (K : Kernel) (s : State) (r : RunRequest) : State :=
  let p : Pending := ⟨s.next, r⟩
  let s := { s with
    clients := updated s.clients r.key (Client.receive (p.serial, r.id))
    next := s.next + 1 }
  if (s.processes.length : ℤ) < s.parallel then runRequest K s p
  else { s with queue := queuePush s.queue p }

/-- All occurrences of the identifier are removed from the queue, and killed. -/
def handleInterrupt (s : State) (key : ℤ) (id : List Char) : State :=
  let (queue, removed) := removeFromQueue s.queue key (some id)
  killProcesses (removed.foldl handleQueueRemove { s with queue := queue }) key (some id)

/-- A complete line of a client. -/
def handleLine (K : Kernel) (s : State) (key : ℤ) (line : List Char) : State :=
  let (r, parallel) := parseRequest line key s.parallel
  let s := { s with parallel := parallel }
  match r with
  | none => s
  | some (.run r) => handleRun K s r
  | some (.interrupt _ id) => handleInterrupt s key id

def closeClient (s : State) (fd : ℤ) : State :=
  let s := { s with queue := (removeFromQueue s.queue fd none).1 }
  let s := killProcesses s fd none
  { s with clients := listRemove s.clients fd }

/-! ## Steps -/

/-- What the server does between two moments at which a request is neither lost nor
moved. -/
inductive Act
  | start
  | accept (fd : ℤ)
  | child (pid : ℤ) (status : Status) (cpuTime : ℚ)
  | read (fd : ℤ) (chunk : List Char)
  | line (fd : ℤ)
  | close (fd : ℤ)

/-- The first line of a buffer, and what follows it. -/
def takeLine (buf : List Char) : Option (List Char × List Char) :=
  if '\n' ∈ buf then
    some (buf.takeWhile (· ≠ '\n'), (buf.dropWhile (· ≠ '\n')).tail)
  else none

/-- The kernel never gives the descriptor of an open connection to a new one. -/
def step (K : Kernel) (s : State) : Act → Option State
  | .start =>
    if (s.processes.length : ℤ) < s.parallel then
      (queuePop s.queue).map fun x => runRequest K { s with queue := x.2 } x.1
    else none
  | .accept fd =>
    if fd ∈ s.clients.map Prod.fst then none
    else some { s with clients := listAppend s.clients fd ⟨fd, [], [], []⟩ }
  | .child pid status cpuTime => handleChildEvent s pid status cpuTime
  | .read fd chunk =>
    (listLookup s.clients fd).map fun _ =>
      { s with clients := updated s.clients fd (Client.setReadbuf (· ++ chunk)) }
  | .line fd =>
    (listLookup s.clients fd).bind fun c =>
      (takeLine c.readbuf).map fun x =>
        handleLine K { s with clients := updated s.clients fd (Client.setReadbuf fun _ => x.2) }
          fd x.1
  | .close fd => (listLookup s.clients fd).map fun _ => closeClient s fd

end Why3.Server
