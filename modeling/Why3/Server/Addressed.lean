import Why3.Server.MainLoop

/-!
# Messages reach the client that asked

A message carries the identifier of a request of the same connection.  The one way
to break this is a new client that gets the descriptor of a closed one while a
process of the closed one is still in the process list.
-/

namespace Why3.Server

open Relation Runs List

/-- Requests and processes are those of the client whose descriptor they carry, as far
as there is one. -/
structure Addressed (v : View) : Prop where
  nodup : (v.clients.map Prod.fst).Nodup
  waiting_key : ∀ r ∈ v.waiting, r.req.key ∈ v.clients.map Prod.fst
  waiting : ∀ r ∈ v.waiting, ∀ e ∈ v.clients, e.1 = r.req.key →
    (r.serial, r.req.id) ∈ e.2.received
  processes : ∀ q ∈ v.processes, ∀ e ∈ v.clients, e.1 = q.2.clientKey →
    (q.2.serial, q.2.taskId) ∈ e.2.received
  log : ∀ e ∈ v.clients, ∀ m ∈ e.2.log, (m.serial, m.id) ∈ e.2.received

/-- No process of the list carries the descriptor. -/
def Unused (ps : List (ℤ × Proc)) (fd : ℤ) : Prop := ∀ q ∈ ps, q.2.clientKey ≠ fd

section

variable {ps ps' : List (ℤ × Proc)} {cs : List (ℤ × Client)} {n n' : ℕ} {w w' : List Pending}

theorem Addressed.update (h : Addressed ⟨ps, cs, n, w⟩) (fd : ℤ) {f : Client → Client}
    (hrec : ∀ c, c.received ⊆ (f c).received)
    (hlog : ∀ c, (fd, c) ∈ cs → ∀ m ∈ (f c).log, (m.serial, m.id) ∈ (f c).received) :
    Addressed ⟨ps, updated cs fd f, n, w⟩ where
  nodup := by
    rw [keys_updated]
    exact h.nodup
  waiting_key := by
    rw [keys_updated]
    exact h.waiting_key
  waiting := by
    intro r hr e he hkey
    rcases mem_updated.mp he with ⟨c, hc, rfl⟩ | ⟨he, -⟩
    · exact hrec c (h.waiting r hr _ hc hkey)
    · exact h.waiting r hr e he hkey
  processes := by
    intro q hq e he hkey
    rcases mem_updated.mp he with ⟨c, hc, rfl⟩ | ⟨he, -⟩
    · exact hrec c (h.processes q hq _ hc hkey)
    · exact h.processes q hq e he hkey
  log := by
    intro e he
    rcases mem_updated.mp he with ⟨c, hc, rfl⟩ | ⟨he, -⟩
    · exact hlog c hc
    · exact h.log e he

theorem Addressed.write (h : Addressed ⟨ps, cs, n, w⟩) {fd : ℤ} {msg : Msg}
    (hmsg : ∀ e ∈ cs, e.1 = fd → (msg.serial, msg.id) ∈ e.2.received) :
    Addressed ⟨ps, updated cs fd (Client.write msg), n, w⟩ := by
  refine h.update fd (fun c => List.Subset.refl _) ?_
  intro c hc m hm
  rcases mem_append.mp hm with hm | hm
  · exact h.log _ hc m hm
  · rw [mem_singleton.mp hm]
    exact hmsg _ hc rfl

theorem Addressed.sub (h : Addressed ⟨ps, cs, n, w⟩) (hps : ps' ⊆ ps) (hw : w' ⊆ w) :
    Addressed ⟨ps', cs, n', w'⟩ where
  nodup := h.nodup
  waiting_key := fun r hr => h.waiting_key r (hw hr)
  waiting := fun r hr => h.waiting r (hw hr)
  processes := fun q hq => h.processes q (hps hq)
  log := h.log

end

theorem Addressed.move {v v' : View} (h : Addressed v) (hm : Move Unused v v') : Addressed v' := by
  cases hm with
  | buffer fd f => exact h.update fd (fun c => List.Subset.refl _) fun c hc => h.log _ hc
  | reorder hp => exact h.sub (List.Subset.refl _) hp.symm.subset
  | @receive ps cs n w r hr =>
    have hupd := h.update r.key (f := Client.receive (n, r.id))
      (fun c => subset_append_left _ _) fun c hc m hm => mem_append_left _ (h.log _ hc m hm)
    refine ⟨hupd.nodup, ?_, ?_, hupd.processes, hupd.log⟩
    · intro p hp
      rcases mem_cons.mp hp with rfl | hp
      · rw [keys_updated]
        exact hr
      · exact hupd.waiting_key p hp
    · intro p hp e he hkey
      rcases mem_cons.mp hp with rfl | hp
      · rcases mem_updated.mp he with ⟨c, -, rfl⟩ | ⟨-, hne⟩
        · exact mem_append_right _ (mem_singleton_self _)
        · exact absurd hkey hne
      · exact hupd.waiting p hp e he hkey
  | @start ps cs n w r pid outfile hkey =>
    have hr := h.waiting r mem_cons_self
    have hw : Addressed ⟨ps, updated cs r.req.key (Client.write (.started r.serial r.req.id)), n, w⟩ :=
      (h.sub (List.Subset.refl _) (subset_cons_self r w)).write hr
    refine ⟨hw.nodup, hw.waiting_key, hw.waiting, ?_, hw.log⟩
    intro q hq e he hkey
    rcases mem_append.mp hq with hq | hq
    · exact hw.processes q hq e he hkey
    · rw [mem_singleton] at hq
      subst hq
      rcases mem_updated.mp he with ⟨c, hc, rfl⟩ | ⟨-, hne⟩
      · exact hr (r.req.key, c) hc rfl
      · exact absurd hkey hne
  | drop _ => exact h.sub (List.Subset.refl _) (subset_cons_self _ _)
  | reap pid p exitcode cpuTime timeout hp =>
    have hmem : (pid, p) ∈ _ := hp.symm.subset mem_cons_self
    refine (h.sub ?_ (List.Subset.refl _)).write (h.processes _ hmem)
    exact fun q hq => hp.symm.subset (mem_cons_of_mem _ hq)
  | cancel =>
    exact (h.sub (List.Subset.refl _) (subset_cons_self _ _)).write
      (h.waiting _ mem_cons_self)
  | kill key id =>
    refine ⟨h.nodup, h.waiting_key, h.waiting, ?_, h.log⟩
    intro q hq e he hkey
    obtain ⟨q, hq', rfl⟩ := mem_map.mp hq
    rw [killed_clientKey] at hkey
    rw [killed_serial, killed_taskId]
    exact h.processes q hq' e he hkey
  | accept fd hfd hfresh =>
    refine ⟨nodup_keys_append h.nodup hfd, ?_, ?_, ?_, ?_⟩
    · intro r hr
      rw [map_append]
      exact mem_append_left _ (h.waiting_key r hr)
    · intro r hr e he hkey
      rcases mem_append.mp he with he | he
      · exact h.waiting r hr e he hkey
      · rw [mem_singleton.mp he] at hkey
        have hmem := h.waiting_key r hr
        rw [← hkey] at hmem
        exact absurd hmem hfd
    · intro q hq e he hkey
      rcases mem_append.mp he with he | he
      · exact h.processes q hq e he hkey
      · rw [mem_singleton.mp he] at hkey
        exact absurd hkey.symm (hfresh q hq)
    · intro e he
      rcases mem_append.mp he with he | he
      · exact h.log e he
      · rw [mem_singleton.mp he]
        exact fun m hm => absurd hm not_mem_nil
  | @leave ps cs cs' n w c fd hp =>
    have hsub : ∀ e ∈ cs', e ∈ cs := fun e he => hp.symm.subset (mem_cons_of_mem _ he)
    have hkeys : (cs.map Prod.fst).Perm (fd :: cs'.map Prod.fst) := hp.map Prod.fst
    refine ⟨(nodup_cons.mp (hkeys.nodup_iff.mp h.nodup)).2, ?_, ?_, ?_, ?_⟩
    · intro r hr
      obtain ⟨hr, hne⟩ := mem_filter.mp hr
      rcases mem_cons.mp (hkeys.subset (h.waiting_key r hr)) with heq | hmem
      · exact absurd heq (of_decide_eq_true hne)
      · exact hmem
    · exact fun r hr e he => h.waiting r (mem_filter.mp hr).1 e (hsub e he)
    · exact fun q hq e he => h.processes q hq e (hsub e he)
    · exact fun e he => h.log e (hsub e he)

theorem Addressed.moves {v v' : View} (h : Addressed v) (hm : ReflTransGen (Move Unused) v v') :
    Addressed v' := by
  induction hm with
  | refl => exact h
  | tail _ hm ih => exact ih.move hm

theorem Addressed.init (parallel : ℤ) : Addressed (initState parallel).view where
  nodup := nodup_nil
  waiting_key := fun _ hr => absurd hr not_mem_nil
  waiting := fun _ hr => absurd hr not_mem_nil
  processes := fun _ hq => absurd hq not_mem_nil
  log := fun _ he => absurd he not_mem_nil

/-- A new client gets a descriptor that no process of the list carries. -/
def FreshAccept (s : State) (a : Act) : Prop := ∀ fd, a = .accept fd → Unused s.processes fd

/-- In every run in which new clients get such descriptors, every message queued for a
client carries the identifier of a request that was received from it. -/
theorem messages_addressed (K : Kernel) (parallel : ℤ) (s : State)
    (h : Run (step K) FreshAccept (initState parallel) s) :
    ∀ e ∈ s.clients, ∀ m ∈ e.2.log, ∃ x ∈ e.2.received, x.2 = m.id := by
  have hinv : Addressed s.view :=
    Run.invariant (P := fun s => Addressed s.view)
      (fun _ _ _ hs hok hst => hs.moves (step_moves hok hst)) h (Addressed.init parallel)
  exact fun e he m hm => ⟨_, hinv.log e he m hm, rfl⟩

/-- A kernel that numbers the processes. -/
def countingKernel : Kernel := ⟨fun s _ => s.next, fun _ _ => []⟩

theorem messages_addressed_started :
    ∃ s, Run (step countingKernel) FreshAccept (initState 1) s ∧
      s.processes.map (fun q => q.2.clientKey) = [5] ∧ s.clients.map Prod.fst = [5, 6] ∧
      ∀ e ∈ s.clients, ∀ m ∈ e.2.log, ∃ x ∈ e.2.received, x.2 = m.id := by
  have hno : ∀ (s : State) (a : Act), (∀ fd, a ≠ .accept fd) → FreshAccept s a :=
    fun s a h fd hfd => absurd hfd (h fd)
  have hrun : Run (step countingKernel) FreshAccept (initState 1) _ :=
    (((Run.refl.tail (a := .accept 5) (fun fd _ q hq => absurd hq not_mem_nil) rfl).tail
      (a := .read 5 "run;a;0;0;sh\n".toList) (hno _ _ fun fd h => by cases h) rfl).tail
      (a := .line 5) (hno _ _ fun fd h => by cases h) rfl).tail
      -- a second client comes while the process runs
      (a := .accept 6) (fun fd h q hq => by cases h; cases hq with
        | head => decide
        | tail _ hq => cases hq) rfl
  exact ⟨_, hrun, rfl, rfl, messages_addressed countingKernel 1 _ hrun⟩

/-- The server answers the wrong client: a client starts a process and leaves, the next
client gets its descriptor, and then the end of the process is noticed. -/
theorem wrong_client_answered :
    ∃ s, mainLoop scramblingMemcpy countingKernel (initState 1)
        [[.accept 5], [.input 5 "run;a;0;0;sh\n".toList], [.input 5 []],
          [.accept 5, .childEvents [(1, .signaled 9, 0)]]] = some s ∧
      ∃ e ∈ s.clients, ∃ m ∈ e.2.log, m.isFinished ∧ ∀ x ∈ e.2.received, x.2 ≠ m.id := by
  have heval : ((mainLoop scramblingMemcpy countingKernel (initState 1)
      [[.accept 5], [.input 5 "run;a;0;0;sh\n".toList], [.input 5 []],
        [.accept 5, .childEvents [(1, .signaled 9, 0)]]]).map fun s => s.clients)
      = some [(5, ⟨5, [], [.finished 0 "a".toList 9 0 true []], []⟩)] := by decide +kernel
  obtain ⟨s, hs, hc⟩ := Option.map_eq_some_iff.mp heval
  refine ⟨s, hs, _, hc ▸ mem_singleton_self _, _, mem_singleton_self _, rfl, ?_⟩
  exact fun x hx => absurd hx not_mem_nil

end Why3.Server
