import Why3.Server.Moves

/-!
# No request is lost or answered twice

Every request of a connected client is in exactly one of three places: it waits, it
runs, or it has been answered.  The requests are counted by their serial numbers;
the invariant holds along every sequence of moves, whatever descriptors new clients
get.
-/

namespace Why3.Server

open Relation Runs List Option Client

/-! ## Counting -/

def waitingCount (w : List Pending) (n : ℕ) : ℕ := w.countP fun r => r.serial = n

def runningCount (ps : List (ℤ × Proc)) (n : ℕ) : ℕ := ps.countP fun q => q.2.serial = n

def answeredCount (c : Client) (n : ℕ) : ℕ :=
  c.log.countP fun m => m.isFinished && m.serial = n

/-- No start is announced after the answer. -/
def StartedFirst (m m' : Msg) : Prop := m.isFinished → m.serial = m'.serial → m'.isFinished

structure Conserved (v : View) : Prop where
  nodup : (v.clients.map Prod.fst).Nodup
  processes_lt : ∀ q ∈ v.processes, q.2.serial < v.next
  received_lt : ∀ e ∈ v.clients, ∀ x ∈ e.2.received, x.1 < v.next
  log_lt : ∀ e ∈ v.clients, ∀ m ∈ e.2.log, m.serial < v.next
  -- a serial number belongs to one client
  owner : ∀ e ∈ v.clients, ∀ e' ∈ v.clients, ∀ x ∈ e.2.received, ∀ x' ∈ e'.2.received,
    x.1 = x'.1 → e.1 = e'.1
  waiting : ∀ r ∈ v.waiting, ∃ e ∈ v.clients, e.1 = r.req.key ∧
    (r.serial, r.req.id) ∈ e.2.received
  processes : ∀ q ∈ v.processes, ∀ e ∈ v.clients, ∀ x ∈ e.2.received, x.1 = q.2.serial →
    e.1 = q.2.clientKey
  balance : ∀ e ∈ v.clients, ∀ x ∈ e.2.received,
    waitingCount v.waiting x.1 + runningCount v.processes x.1 + answeredCount e.2 x.1 = 1
  order : ∀ e ∈ v.clients, e.2.log.Pairwise StartedFirst

section

variable {ps ps' : List (ℤ × Proc)} {cs : List (ℤ × Client)} {n : ℕ} {w w' : List Pending}

theorem waitingCount_cons (r : Pending) (w : List Pending) (k : ℕ) :
    waitingCount (r :: w) k = waitingCount w k + if r.serial = k then 1 else 0 := by
  rw [waitingCount, countP_cons, waitingCount]
  simp

theorem runningCount_cons (q : ℤ × Proc) (ps : List (ℤ × Proc)) (k : ℕ) :
    runningCount (q :: ps) k = runningCount ps k + if q.2.serial = k then 1 else 0 := by
  rw [runningCount, countP_cons, runningCount]
  simp

theorem runningCount_perm (h : ps.Perm ps') (k : ℕ) : runningCount ps k = runningCount ps' k :=
  h.countP_eq _

theorem waitingCount_perm (h : w.Perm w') (k : ℕ) : waitingCount w k = waitingCount w' k :=
  h.countP_eq _

theorem answeredCount_write (msg : Msg) (c : Client) (k : ℕ) :
    answeredCount (c.write msg) k
      = answeredCount c k + if msg.isFinished ∧ msg.serial = k then 1 else 0 := by
  rw [answeredCount, write, countP_append, answeredCount, countP_singleton]
  simp

variable {e : ℤ × Client} {r : Pending}

theorem Conserved.owner_of_waiting (h : Conserved ⟨ps, cs, n, w⟩) (hr : r ∈ w) (he : e ∈ cs)
    {x : ℕ × List Char} (hx : x ∈ e.2.received) (heq : x.1 = r.serial) : e.1 = r.req.key := by
  obtain ⟨e', he', hkey, hmem⟩ := h.waiting r hr
  rw [← hkey]
  exact h.owner e he e' he' x hx _ hmem heq

variable {fd : ℤ}

theorem exists_of_mem_updated {f : Client → Client} (hf : ∀ c, (f c).received = c.received)
    (he : e ∈ updated cs fd f) : ∃ c, (e.1, c) ∈ cs ∧ c.received = e.2.received := by
  rcases mem_updated.mp he with ⟨c, hc, rfl⟩ | ⟨he, -⟩
  · exact ⟨c, hc, (hf c).symm⟩
  · exact ⟨e.2, he, rfl⟩

theorem exists_mem_updated {f : Client → Client} (hf : ∀ c, (f c).received = c.received)
    (he : e ∈ cs) : ∃ c, (e.1, c) ∈ updated cs fd f ∧ c.received = e.2.received := by
  by_cases hkey : e.1 = fd
  · exact ⟨f e.2, mem_updated.mpr (.inl ⟨e.2, hkey ▸ he, by rw [hkey]⟩), hf _⟩
  · exact ⟨e.2, mem_updated.mpr (.inr ⟨he, hkey⟩), rfl⟩

theorem received_write (msg : Msg) (c : Client) : (c.write msg).received = c.received := rfl

/-- A message for the owner of a request: the request leaves its place, and is counted
in the log if the message is an answer. -/
theorem Conserved.write (h : Conserved ⟨ps, cs, n, w⟩) (fd : ℤ) {msg : Msg}
    (hlt : msg.serial < n) (hps : ∀ q ∈ ps', q.2.serial < n)
    (hw : ∀ r ∈ w', ∃ e ∈ cs, e.1 = r.req.key ∧ (r.serial, r.req.id) ∈ e.2.received)
    (hproc : ∀ q ∈ ps', ∀ e ∈ cs, ∀ x ∈ e.2.received, x.1 = q.2.serial → e.1 = q.2.clientKey)
    (howner : ∀ e ∈ cs, ∀ x ∈ e.2.received, x.1 = msg.serial → e.1 = fd)
    (hcount : ∀ k, waitingCount w' k + runningCount ps' k
        + (if msg.isFinished ∧ msg.serial = k then 1 else 0)
      = waitingCount w k + runningCount ps k)
    (hstart : msg.isFinished = false → ∀ e ∈ cs, e.1 = fd → ∀ m ∈ e.2.log,
      m.isFinished → m.serial ≠ msg.serial) :
    Conserved ⟨ps', updated cs fd (write msg), n, w'⟩ where
  nodup := by
    rw [keys_updated]
    exact h.nodup
  processes_lt := hps
  received_lt := by
    intro e he
    obtain ⟨c, hc, hrec⟩ := exists_of_mem_updated (received_write msg) he
    rw [← hrec]
    exact h.received_lt _ hc
  log_lt := by
    intro e he m hm
    rcases mem_updated.mp he with ⟨c, hc, rfl⟩ | ⟨he, -⟩
    · rcases mem_append.mp hm with hm | hm
      · exact h.log_lt _ hc m hm
      · rw [mem_singleton.mp hm]
        exact hlt
    · exact h.log_lt e he m hm
  owner := by
    intro e he e' he' x hx x' hx' heq
    obtain ⟨c, hc, hrec⟩ := exists_of_mem_updated (received_write msg) he
    obtain ⟨c', hc', hrec'⟩ := exists_of_mem_updated (received_write msg) he'
    rw [← hrec] at hx
    rw [← hrec'] at hx'
    exact h.owner (e.1, c) hc (e'.1, c') hc' x hx x' hx' heq
  waiting := by
    intro r hr
    obtain ⟨e, he, hkey, hmem⟩ := hw r hr
    obtain ⟨c, hc, hrec⟩ := exists_mem_updated (received_write msg) he
    rw [← hrec] at hmem
    exact ⟨(e.1, c), hc, hkey, hmem⟩
  processes := by
    intro q hq e he x hx heq
    obtain ⟨c, hc, hrec⟩ := exists_of_mem_updated (received_write msg) he
    rw [← hrec] at hx
    exact hproc q hq (e.1, c) hc x hx heq
  balance := by
    intro e he x hx
    rcases mem_updated.mp he with ⟨c, hc, rfl⟩ | ⟨he, hne⟩
    · have hb := h.balance _ hc x hx
      have hk := hcount x.1
      dsimp only at hb ⊢
      rw [answeredCount_write]
      omega
    · have hb := h.balance e he x hx
      have hk := hcount x.1
      rw [if_neg fun hm => hne (howner e he x hx hm.2.symm)] at hk
      dsimp only at hb ⊢
      omega
  order := by
    intro e he
    rcases mem_updated.mp he with ⟨c, hc, rfl⟩ | ⟨he, -⟩
    · show (c.log ++ [msg]).Pairwise StartedFirst
      rw [pairwise_append]
      refine ⟨h.order _ hc, pairwise_singleton _ _, ?_⟩
      intro m hm m' hm'
      rw [mem_singleton.mp hm']
      intro hfin hser
      by_contra hstarted
      exact hstart (by simpa using hstarted) _ hc rfl m hm hfin hser
    · exact h.order e he

/-- The waiting requests and the running processes may be reordered, and the processes
killed; the clients keep the requests they sent and their logs. -/
theorem Conserved.congr (h : Conserved ⟨ps, cs, n, w⟩) (hw : w.Perm w')
    (hps : ps'.map (fun q => (q.2.serial, q.2.clientKey))
      = ps.map fun q => (q.2.serial, q.2.clientKey)) : Conserved ⟨ps', cs, n, w'⟩ := by
  have hex : ∀ q ∈ ps', ∃ q₀ ∈ ps, q₀.2.serial = q.2.serial ∧ q₀.2.clientKey = q.2.clientKey := by
    intro q hq
    have hmem := mem_map_of_mem (f := fun q : ℤ × Proc => (q.2.serial, q.2.clientKey)) hq
    rw [hps] at hmem
    obtain ⟨q₀, hq₀, heq⟩ := mem_map.mp hmem
    exact ⟨q₀, hq₀, congrArg Prod.fst heq, congrArg Prod.snd heq⟩
  have hrun : ∀ k, runningCount ps' k = runningCount ps k := by
    intro k
    have hcount : ∀ l : List (ℤ × Proc), runningCount l k
        = (l.map fun q => (q.2.serial, q.2.clientKey)).countP fun x => x.1 = k := by
      intro l
      rw [countP_map]
      rfl
    rw [hcount, hps, ← hcount]
  refine ⟨h.nodup, ?_, h.received_lt, h.log_lt, h.owner, ?_, ?_, ?_, h.order⟩
  · intro q hq
    obtain ⟨q₀, hq₀, hser, -⟩ := hex q hq
    rw [← hser]
    exact h.processes_lt q₀ hq₀
  · exact fun r hr => h.waiting r (hw.symm.subset hr)
  · intro q hq e he x hx heq
    obtain ⟨q₀, hq₀, hser, hkey⟩ := hex q hq
    rw [← hkey]
    exact h.processes q₀ hq₀ e he x hx (heq.trans hser.symm)
  · intro e he x hx
    rw [← h.balance e he x hx]
    dsimp only
    rw [hrun, waitingCount_perm hw]

theorem Conserved.waiting_lt (h : Conserved ⟨ps, cs, n, w⟩) (hr : r ∈ w) : r.serial < n := by
  obtain ⟨e, he, -, hmem⟩ := h.waiting r hr
  exact h.received_lt e he _ hmem

theorem Conserved.not_answered (h : Conserved ⟨ps, cs, n, w⟩) (hr : r ∈ w) (he : e ∈ cs)
    (hkey : e.1 = r.req.key) {m : Msg} (hm : m ∈ e.2.log) (hfin : m.isFinished) :
    m.serial ≠ r.serial := by
  intro hser
  obtain ⟨e', he', hkey', hmem⟩ := h.waiting r hr
  have heq : e' = e := inj_on_of_nodup_map h.nodup he' he (hkey'.trans hkey.symm)
  subst heq
  have hb := h.balance e' he' _ hmem
  have hw : 0 < waitingCount w r.serial :=
    countP_pos_iff.mpr ⟨r, hr, decide_eq_true rfl⟩
  have ha : 0 < answeredCount e'.2 r.serial :=
    countP_pos_iff.mpr ⟨m, hm, by simp [hfin, hser]⟩
  dsimp only at hb
  omega

theorem Conserved.buffer (h : Conserved ⟨ps, cs, n, w⟩) (fd : ℤ) (f : List Char → List Char) :
    Conserved ⟨ps, updated cs fd (setReadbuf f), n, w⟩ := by
  have hold : ∀ e ∈ updated cs fd (setReadbuf f),
      ∃ c, (e.1, c) ∈ cs ∧ c.received = e.2.received ∧ c.log = e.2.log := by
    intro e he
    rcases mem_updated.mp he with ⟨c, hc, rfl⟩ | ⟨he, -⟩
    · exact ⟨c, hc, rfl, rfl⟩
    · exact ⟨e.2, he, rfl, rfl⟩
  refine ⟨by rw [keys_updated]; exact h.nodup, h.processes_lt, ?_, ?_, ?_, ?_, ?_, ?_, ?_⟩
  · intro e he
    obtain ⟨c, hc, hrec, -⟩ := hold e he
    rw [← hrec]
    exact h.received_lt _ hc
  · intro e he
    obtain ⟨c, hc, -, hlog⟩ := hold e he
    rw [← hlog]
    exact h.log_lt _ hc
  · intro e he e' he' x hx x' hx'
    obtain ⟨c, hc, hrec, -⟩ := hold e he
    obtain ⟨c', hc', hrec', -⟩ := hold e' he'
    rw [← hrec] at hx
    rw [← hrec'] at hx'
    exact h.owner (e.1, c) hc (e'.1, c') hc' x hx x' hx'
  · intro r hr
    obtain ⟨e, he, hkey, hmem⟩ := h.waiting r hr
    obtain ⟨c, hc, hrec⟩ := exists_mem_updated (f := setReadbuf f) (fun _ => rfl) he
    rw [← hrec] at hmem
    exact ⟨(e.1, c), hc, hkey, hmem⟩
  · intro q hq e he x hx
    obtain ⟨c, hc, hrec, -⟩ := hold e he
    rw [← hrec] at hx
    exact h.processes q hq (e.1, c) hc x hx
  · intro e he x hx
    obtain ⟨c, hc, hrec, hlog⟩ := hold e he
    rw [← hrec] at hx
    rw [answeredCount, ← hlog]
    exact h.balance (e.1, c) hc x hx
  · intro e he
    obtain ⟨c, hc, -, hlog⟩ := hold e he
    rw [← hlog]
    exact h.order _ hc

theorem Conserved.counts_next (h : Conserved ⟨ps, cs, n, w⟩) (he : e ∈ cs) :
    waitingCount w n = 0 ∧ runningCount ps n = 0 ∧ answeredCount e.2 n = 0 := by
  refine ⟨countP_eq_zero.mpr ?_, countP_eq_zero.mpr ?_, countP_eq_zero.mpr ?_⟩
  · intro r hr hser
    have := h.waiting_lt hr
    have := of_decide_eq_true hser
    omega
  · intro q hq hser
    have := h.processes_lt q hq
    have := of_decide_eq_true hser
    dsimp only at *
    omega
  · intro m hm hser
    have := h.log_lt e he m hm
    rw [Bool.and_eq_true, decide_eq_true_iff] at hser
    dsimp only at *
    omega

theorem Conserved.receive (h : Conserved ⟨ps, cs, n, w⟩) (r : RunRequest)
    (hr : r.key ∈ cs.map Prod.fst) :
    Conserved ⟨ps, updated cs r.key (Client.receive (n, r.id)), n + 1, ⟨n, r⟩ :: w⟩ := by
  -- a client afterwards: its log is the same, and a request of it is old, or the new one
  have hold : ∀ e ∈ updated cs r.key (Client.receive (n, r.id)),
      ∃ c, (e.1, c) ∈ cs ∧ c.log = e.2.log ∧
        ∀ x ∈ e.2.received, x ∈ c.received ∧ x.1 < n ∨ x = (n, r.id) ∧ e.1 = r.key := by
    intro e he
    rcases mem_updated.mp he with ⟨c, hc, rfl⟩ | ⟨he, -⟩
    · refine ⟨c, hc, rfl, ?_⟩
      intro x hx
      rcases mem_append.mp hx with hx | hx
      · exact Or.inl ⟨hx, h.received_lt _ hc x hx⟩
      · exact Or.inr ⟨mem_singleton.mp hx, rfl⟩
    · exact ⟨e.2, he, rfl, fun x hx => Or.inl ⟨hx, h.received_lt e he x hx⟩⟩
  refine ⟨by rw [keys_updated]; exact h.nodup, ?_, ?_, ?_, ?_, ?_, ?_, ?_, ?_⟩
  · exact fun q hq => (h.processes_lt q hq).trans (Nat.lt_succ_self n)
  · intro e he x hx
    obtain ⟨c, -, -, hrec⟩ := hold e he
    rcases hrec x hx with ⟨-, hlt⟩ | ⟨rfl, -⟩
    · exact hlt.trans (Nat.lt_succ_self n)
    · exact Nat.lt_succ_self n
  · intro e he m hm
    obtain ⟨c, hc, hlog, -⟩ := hold e he
    rw [← hlog] at hm
    exact (h.log_lt _ hc m hm).trans (Nat.lt_succ_self n)
  · intro e he e' he' x hx x' hx' heq
    obtain ⟨c, hc, -, hrec⟩ := hold e he
    obtain ⟨c', hc', -, hrec'⟩ := hold e' he'
    rcases hrec x hx with ⟨hx, hlt⟩ | ⟨rfl, hkey⟩
    · rcases hrec' x' hx' with ⟨hx', -⟩ | ⟨rfl, -⟩
      · exact h.owner (e.1, c) hc (e'.1, c') hc' x hx x' hx' heq
      · omega
    · rcases hrec' x' hx' with ⟨-, hlt⟩ | ⟨-, hkey'⟩
      · omega
      · exact hkey.trans hkey'.symm
  · intro p hp
    rcases mem_cons.mp hp with rfl | hp
    · obtain ⟨⟨k, c⟩, hc, hkey⟩ := mem_map.mp hr
      dsimp only at hkey
      subst hkey
      refine ⟨_, mem_updated.mpr (Or.inl ⟨c, hc, rfl⟩), rfl, ?_⟩
      exact mem_append_right _ (mem_singleton_self _)
    · obtain ⟨e, he, hkey, hmem⟩ := h.waiting p hp
      by_cases hk : e.1 = r.key
      · refine ⟨_, mem_updated.mpr (Or.inl ⟨e.2, hk ▸ he, rfl⟩), hk.symm.trans hkey, ?_⟩
        exact mem_append_left _ hmem
      · exact ⟨e, mem_updated.mpr (Or.inr ⟨he, hk⟩), hkey, hmem⟩
  · intro q hq e he x hx heq
    obtain ⟨c, hc, -, hrec⟩ := hold e he
    rcases hrec x hx with ⟨hx, -⟩ | ⟨rfl, -⟩
    · exact h.processes q hq (e.1, c) hc x hx heq
    · have := h.processes_lt q hq
      dsimp only at heq this
      omega
  · intro e he x hx
    obtain ⟨c, hc, hlog, hrec⟩ := hold e he
    have hans : answeredCount e.2 x.1 = answeredCount c x.1 := by
      rw [answeredCount, ← hlog, answeredCount]
    dsimp only
    rw [hans, waitingCount_cons]
    rcases hrec x hx with ⟨hx, hlt⟩ | ⟨rfl, -⟩
    · rw [if_neg (show n ≠ x.1 by omega)]
      exact h.balance (e.1, c) hc x hx
    · obtain ⟨h1, h2, h3⟩ := h.counts_next hc
      dsimp only at h3 ⊢
      rw [h1, h2, h3, if_pos rfl]
  · intro e he
    obtain ⟨c, hc, hlog, -⟩ := hold e he
    rw [← hlog]
    exact h.order _ hc

theorem Conserved.leave {cs' : List (ℤ × Client)} {fd : ℤ} {c : Client}
    (h : Conserved ⟨ps, cs, n, w⟩) (hp : cs.Perm ((fd, c) :: cs')) :
    Conserved ⟨ps, cs', n, w.filter fun r => r.req.key ≠ fd⟩ := by
  have hsub : ∀ e ∈ cs', e ∈ cs := fun e he => hp.symm.subset (mem_cons_of_mem _ he)
  have hnodup : ((fd, c) :: cs').map Prod.fst |>.Nodup := (hp.map Prod.fst).nodup_iff.mp h.nodup
  obtain ⟨hfd, hnd⟩ := nodup_cons.mp hnodup
  refine ⟨hnd, h.processes_lt, fun e he => h.received_lt e (hsub e he),
    fun e he => h.log_lt e (hsub e he), fun e he e' he' => h.owner e (hsub e he) e' (hsub e' he'),
    ?_, fun q hq e he => h.processes q hq e (hsub e he), ?_, fun e he => h.order e (hsub e he)⟩
  · intro r hr
    obtain ⟨hr, hne⟩ := mem_filter.mp hr
    obtain ⟨e, he, hkey, hmem⟩ := h.waiting r hr
    rcases mem_cons.mp (hp.subset he) with rfl | he
    · exact absurd hkey.symm (of_decide_eq_true hne)
    · exact ⟨e, he, hkey, hmem⟩
  · intro e he x hx
    have hkeep : waitingCount (w.filter fun r => r.req.key ≠ fd) x.1 = waitingCount w x.1 := by
      rw [waitingCount, countP_filter, waitingCount]
      apply countP_congr
      intro r hr
      simp only [Bool.and_eq_true, decide_eq_true_eq, ne_eq, and_iff_left_iff_imp]
      intro hser hkey
      -- a request of the client that left is not one of this client
      have := h.owner_of_waiting hr (hsub e he) hx hser.symm
      exact hfd (mem_map.mpr ⟨e, he, this.trans hkey⟩)
    dsimp only
    rw [hkeep]
    exact h.balance e (hsub e he) x hx

theorem Conserved.accept (h : Conserved ⟨ps, cs, n, w⟩) (hfd : fd ∉ cs.map Prod.fst) :
    Conserved ⟨ps, cs ++ [(fd, ⟨fd, [], [], []⟩)], n, w⟩ := by
  have hold : ∀ e ∈ cs ++ [(fd, (⟨fd, [], [], []⟩ : Client))],
      e ∈ cs ∨ e.2.received = [] ∧ e.2.log = [] := by
    intro e he
    rcases mem_append.mp he with he | he
    · exact .inl he
    · rw [mem_singleton.mp he]
      exact .inr ⟨rfl, rfl⟩
  refine ⟨nodup_keys_append h.nodup hfd, h.processes_lt, ?_, ?_, ?_, ?_, ?_, ?_, ?_⟩
  · intro e he x hx
    rcases hold e he with he | ⟨hnil, -⟩
    · exact h.received_lt e he x hx
    · rw [hnil] at hx
      cases hx
  · intro e he m hm
    rcases hold e he with he | ⟨-, hnil⟩
    · exact h.log_lt e he m hm
    · rw [hnil] at hm
      cases hm
  · intro e he e' he' x hx x' hx'
    rcases hold e he with he | ⟨hnil, -⟩
    · rcases hold e' he' with he' | ⟨hnil, -⟩
      · exact h.owner e he e' he' x hx x' hx'
      · rw [hnil] at hx'
        cases hx'
    · rw [hnil] at hx
      cases hx
  · intro r hr
    obtain ⟨e, he, hmem⟩ := h.waiting r hr
    exact ⟨e, mem_append_left _ he, hmem⟩
  · intro q hq e he x hx
    rcases hold e he with he | ⟨hnil, -⟩
    · exact h.processes q hq e he x hx
    · rw [hnil] at hx
      cases hx
  · intro e he x hx
    rcases hold e he with he | ⟨hnil, -⟩
    · exact h.balance e he x hx
    · rw [hnil] at hx
      cases hx
  · intro e he
    rcases hold e he with he | ⟨-, hnil⟩
    · exact h.order e he
    · rw [hnil]
      exact List.Pairwise.nil

end

variable {fresh : List (ℤ × Proc) → ℤ → Prop} {v v' : View}

theorem Conserved.move (h : Conserved v) (hm : Move fresh v v') : Conserved v' := by
  cases hm with
  | buffer fd f => exact h.buffer fd f
  | reorder hp => exact h.congr hp rfl
  | receive r hr => exact h.receive r hr
  | @start ps cs n w r pid outfile hkey =>
    have hr : r ∈ r :: w := mem_cons_self
    apply h.write r.req.key
    · exact h.waiting_lt hr
    · intro q hq
      rcases mem_append.mp hq with hq | hq
      · exact h.processes_lt q hq
      · rw [mem_singleton.mp hq]
        exact h.waiting_lt hr
    · exact fun r' hr' => h.waiting r' (mem_cons_of_mem _ hr')
    · intro q hq e he x hx heq
      rcases mem_append.mp hq with hq | hq
      · exact h.processes q hq e he x hx heq
      · rw [mem_singleton.mp hq] at heq ⊢
        exact h.owner_of_waiting hr he hx heq
    · exact fun e he x hx heq => h.owner_of_waiting hr he hx heq
    · intro k
      rw [runningCount_perm (perm_append_singleton _ _), runningCount_cons, waitingCount_cons]
      simp only [Msg.isFinished, Bool.false_eq_true, false_and, if_false]
      omega
    · exact fun _ e he hkey m hm hfin => h.not_answered hr he hkey hm hfin
  | @drop ps cs n w r hkey =>
    -- its client would be connected
    obtain ⟨e, he, heq, -⟩ := h.waiting r mem_cons_self
    exact absurd (heq ▸ mem_map_of_mem he) hkey
  | @reap ps ps' cs n w pid p exitcode cpuTime timeout hp =>
    have hmem : (pid, p) ∈ ps := hp.symm.subset mem_cons_self
    have hsub : ∀ q ∈ ps', q ∈ ps := fun q hq => hp.symm.subset (mem_cons_of_mem _ hq)
    apply h.write p.clientKey
    · exact h.processes_lt _ hmem
    · exact fun q hq => h.processes_lt q (hsub q hq)
    · exact h.waiting
    · exact fun q hq => h.processes q (hsub q hq)
    · exact fun e he x hx heq => h.processes _ hmem e he x hx heq
    · intro k
      rw [runningCount_perm hp, runningCount_cons]
      simp only [Msg.isFinished, Msg.serial, true_and]
      omega
    · exact fun hfin => absurd hfin (by simp [Msg.isFinished])
  | @cancel ps cs n w r =>
    have hr : r ∈ r :: w := mem_cons_self
    apply h.write r.req.key
    · exact h.waiting_lt hr
    · exact h.processes_lt
    · exact fun r' hr' => h.waiting r' (mem_cons_of_mem _ hr')
    · exact h.processes
    · exact fun e he x hx heq => h.owner_of_waiting hr he hx heq
    · intro k
      rw [waitingCount_cons]
      simp only [Msg.isFinished, Msg.serial, true_and]
      omega
    · exact fun hfin => absurd hfin (by simp [Msg.isFinished])
  | kill key id =>
    apply h.congr (List.Perm.refl _)
    rw [List.map_map]
    apply map_congr_left
    intro q _
    simp
  | accept fd hfd _ => exact h.accept hfd
  | leave fd hp => exact h.leave hp

theorem Conserved.moves (h : Conserved v) (hm : ReflTransGen (Move fresh) v v') : Conserved v' := by
  induction hm with
  | refl => exact h
  | tail _ hm ih => exact ih.move hm

theorem Conserved.init (parallel : ℤ) : Conserved (initState parallel).view where
  nodup := nodup_nil
  processes_lt := fun _ hq => absurd hq not_mem_nil
  received_lt := fun _ he => absurd he not_mem_nil
  log_lt := fun _ he => absurd he not_mem_nil
  owner := fun _ he => absurd he not_mem_nil
  waiting := fun _ hr => absurd hr not_mem_nil
  processes := fun _ hq => absurd hq not_mem_nil
  balance := fun _ he => absurd he not_mem_nil
  order := fun _ he => absurd he not_mem_nil

/-! ## Interrupted requests -/

/-- A request that was interrupted: its process is killed, or it has its answer. -/
def Doomed (n : ℕ) (v : View) : Prop :=
  n < v.next ∧ ∀ e ∈ v.clients, ∀ x ∈ e.2.received, x.1 = n →
    (∃ q ∈ v.processes, q.2.serial = n ∧ q.2.killed) ∨ answeredCount e.2 n = 1

section

variable {ps ps' : List (ℤ × Proc)} {cs : List (ℤ × Client)} {k n : ℕ} {w w' : List Pending}

/-- The processes that were killed stay, unless their client gets an answer. -/
theorem Doomed.write {msg : Msg} {fd : ℤ} (hd : Doomed n ⟨ps, cs, k, w⟩)
    (hkeep : ∀ q ∈ ps, q.2.serial = n → q.2.killed →
      (∃ q' ∈ ps', q'.2.serial = n ∧ q'.2.killed) ∨
      ∀ e ∈ cs, ∀ x ∈ e.2.received, x.1 = n → e.1 = fd ∧ msg.isFinished ∧ msg.serial = n)
    (hc' : Conserved ⟨ps', updated cs fd (write msg), k, w'⟩) :
    Doomed n ⟨ps', updated cs fd (write msg), k, w'⟩ := by
  refine ⟨hd.1, ?_⟩
  intro e he x hx hxn
  have hb := hc'.balance e he x hx
  rw [hxn] at hb
  dsimp only at hb
  rcases mem_updated.mp he with ⟨c, hc, rfl⟩ | ⟨hold, hne⟩
  · dsimp only at hb ⊢
    rcases hd.2 (fd, c) hc x hx hxn with ⟨q, hq, hser, hkilled⟩ | hans
    · rcases hkeep q hq hser hkilled with hex | hall
      · exact .inl hex
      · have hmsg := (hall (fd, c) hc x hx hxn).2
        right
        rw [answeredCount_write, if_pos hmsg] at hb ⊢
        omega
    · right
      rw [answeredCount_write] at hb ⊢
      dsimp only at hans
      omega
  · rcases hd.2 e hold x hx hxn with ⟨q, hq, hser, hkilled⟩ | hans
    · rcases hkeep q hq hser hkilled with hex | hall
      · exact .inl hex
      · exact absurd (hall e hold x hx hxn).1 hne
    · exact .inr hans

end

theorem Doomed.move {n : ℕ} (hc : Conserved v) (hd : Doomed n v) (hm : Move fresh v v') :
    Doomed n v' := by
  have hc' := hc.move hm
  cases hm with
  | buffer fd f =>
    refine ⟨hd.1, ?_⟩
    intro e he x hx hxn
    rcases mem_updated.mp he with ⟨c, hc, rfl⟩ | ⟨he, -⟩
    · exact hd.2 (fd, c) hc x hx hxn
    · exact hd.2 e he x hx hxn
  | reorder _ => exact hd
  | @receive ps cs k w r hr =>
    refine ⟨Nat.lt_succ_of_lt hd.1, ?_⟩
    intro e he x hx hxn
    rcases mem_updated.mp he with ⟨c, hcs, rfl⟩ | ⟨he, -⟩
    · rcases mem_append.mp hx with hx | hx
      · exact hd.2 (r.key, c) hcs x hx hxn
      · rw [mem_singleton.mp hx] at hxn
        exact absurd hxn hd.1.ne'
    · exact hd.2 e he x hx hxn
  | start pid outfile hkey =>
    apply Doomed.write hd _ hc'
    intro q hq hser hkilled
    exact .inl ⟨q, mem_append_left _ hq, hser, hkilled⟩
  | drop _ => exact hd
  | @reap ps ps' cs k w pid p exitcode cpuTime timeout hp =>
    apply Doomed.write hd _ hc'
    intro q hq hser hkilled
    rcases mem_cons.mp (hp.subset hq) with rfl | hq'
    · -- the process itself: its client is told
      refine .inr fun e he x hx hxn => ⟨?_, rfl, hser⟩
      exact hc.processes _ hq e he x hx (hxn.trans hser.symm)
    · exact .inl ⟨q, hq', hser, hkilled⟩
  | cancel =>
    apply Doomed.write hd _ hc'
    intro q hq hser hkilled
    exact .inl ⟨q, hq, hser, hkilled⟩
  | kill key id =>
    refine ⟨hd.1, ?_⟩
    intro e he x hx hxn
    rcases hd.2 e he x hx hxn with ⟨q, hq, hser, hkilled⟩ | hans
    · refine .inl ⟨killed key id q, mem_map_of_mem hq, ?_, ?_⟩
      · rw [killed_serial]
        exact hser
      · rw [killed]
        split_ifs
        · rfl
        · exact hkilled
    · exact .inr hans
  | accept fd _ _ =>
    refine ⟨hd.1, ?_⟩
    intro e he x hx hxn
    rcases mem_append.mp he with he | he
    · exact hd.2 e he x hx hxn
    · rw [mem_singleton.mp he] at hx
      exact absurd hx not_mem_nil
  | leave fd hp =>
    refine ⟨hd.1, ?_⟩
    intro e he
    exact hd.2 e (hp.symm.subset (mem_cons_of_mem _ he))

theorem Doomed.moves {n : ℕ} (hc : Conserved v) (hd : Doomed n v)
    (hm : ReflTransGen (Move fresh) v v') : Doomed n v' := by
  induction hm with
  | refl => exact hd
  | tail hms hm ih => exact ih.move (hc.moves hms) hm

theorem foldl_handleQueueRemove (removed : List Pending) (s : State) :
    (removed.foldl handleQueueRemove s).queue = s.queue ∧
    (removed.foldl handleQueueRemove s).processes = s.processes ∧
    (removed.foldl handleQueueRemove s).next = s.next ∧
    (removed.foldl handleQueueRemove s).starts = s.starts := by
  induction removed generalizing s with
  | nil => exact ⟨rfl, rfl, rfl, rfl⟩
  | cons r removed ih => exact ih (handleQueueRemove s r)

variable {K : Kernel} {s : State}

/-- Every process was started while fewer than `parallel` ran. -/
def StartsOk (s : State) : Prop := ∀ x ∈ s.starts, (x.1 : ℤ) < x.2

theorem StartsOk.runRequest (hs : StartsOk s) (r : Pending)
    (h : (s.processes.length : ℤ) < s.parallel) : StartsOk (runRequest K s r) := by
  rw [Server.runRequest]
  split
  · exact hs
  · intro x hx
    rcases mem_append.mp hx with hx | hx
    · exact hs x hx
    · rw [mem_singleton.mp hx]
      exact h

theorem StartsOk.handleLine (hs : StartsOk s) (key : ℤ) (line : List Char) :
    StartsOk (handleLine K s key line) := by
  rw [Server.handleLine]
  dsimp only
  split
  · exact hs
  · rw [handleRun]
    dsimp only
    split_ifs with h
    · apply StartsOk.runRequest _ _ h
      exact hs
    · exact hs
  · rw [handleInterrupt]
    intro x hx
    dsimp only [killProcesses] at hx
    rw [(foldl_handleQueueRemove _ _).2.2.2] at hx
    exact hs x hx

theorem StartsOk.step {K : Kernel} {s s' : State} {a : Act} (hs : StartsOk s)
    (h : step K s a = some s') : StartsOk s' := by
  cases a with
  | start =>
    rw [Server.step] at h
    split_ifs at h with hlt
    obtain ⟨⟨r, q⟩, -, rfl⟩ := map_eq_some_iff.mp h
    exact StartsOk.runRequest (s := { s with queue := q }) hs r hlt
  | accept fd =>
    rw [Server.step] at h
    split_ifs at h
    cases h
    exact hs
  | child pid status cpuTime =>
    rw [Server.step, handleChildEvent] at h
    split at h
    · cases h
    · dsimp only at h
      split at h
      · cases h
        exact hs
      · cases h
        exact hs
  | read fd chunk | close fd =>
    obtain ⟨c, -, rfl⟩ := map_eq_some_iff.mp h
    exact hs
  | line fd =>
    obtain ⟨c, -, h⟩ := bind_eq_some_iff.mp h
    obtain ⟨x, -, rfl⟩ := map_eq_some_iff.mp h
    apply StartsOk.handleLine
    exact hs

/-! ## The whole server -/

end Why3.Server
