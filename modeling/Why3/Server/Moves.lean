import Why3.Server.Server

/-!
# Moves of a request

Where the requests are: in the queue, in the process list, or answered.  Every step
of the server is a sequence of moves, and an invariant is shown for the moves only.
-/

namespace Why3.Server

open Relation Option ReflTransGen
open Prod (fst snd)

variable {fd key : ℤ} {α : Type} {fuel : ℕ}

/-- The places of the requests.  A request that was popped and is still in the hand of
the server counts as waiting. -/
structure View where
  processes : List (ℤ × Proc)
  clients : List (ℤ × Client)
  next : ℕ
  waiting : List Pending

def State.view (s : State) : View := ⟨s.processes, s.clients, s.next, s.queue.toList⟩

/-- The moves.  The parameter says which descriptors a new client may get. -/
inductive Move (fresh : List (ℤ × Proc) → ℤ → Prop) : View → View → Prop
  | buffer {ps cs n w} (fd : ℤ) (f : List Char → List Char) :
      Move fresh ⟨ps, cs, n, w⟩ ⟨ps, updated cs fd (Client.setReadbuf f), n, w⟩
  | reorder {ps cs n w w'} : w.Perm w' → Move fresh ⟨ps, cs, n, w⟩ ⟨ps, cs, n, w'⟩
  | receive {ps cs n w} (r : RunRequest) : r.key ∈ cs.map fst →
      Move fresh ⟨ps, cs, n, w⟩
        ⟨ps, updated cs r.key (Client.receive (n, r.id)), n + 1, ⟨n, r⟩ :: w⟩
  | start {ps cs n w r} (pid : ℤ) (outfile : List Char) : r.req.key ∈ cs.map fst →
      Move fresh ⟨ps, cs, n, r :: w⟩
        ⟨ps ++ [(pid, ⟨r.serial, r.req.id, r.req.key, outfile, false⟩)],
          updated cs r.req.key (Client.write (.started r.serial r.req.id)), n, w⟩
  | drop {ps cs n w r} : r.req.key ∉ cs.map fst →
      Move fresh ⟨ps, cs, n, r :: w⟩ ⟨ps, cs, n, w⟩
  | reap {ps ps' cs n w} (pid : ℤ) (p : Proc) (exitcode : ℤ) (cpuTime : ℚ) (timeout : Bool) :
      ps.Perm ((pid, p) :: ps') →
      Move fresh ⟨ps, cs, n, w⟩
        ⟨ps', updated cs p.clientKey
          (Client.write (.finished p.serial p.taskId exitcode cpuTime timeout p.outfile)), n, w⟩
  | cancel {ps cs n w r} :
      Move fresh ⟨ps, cs, n, r :: w⟩
        ⟨ps, updated cs r.req.key (Client.write (.finished r.serial r.req.id 0 0 false [])), n, w⟩
  | kill {ps cs n w} (key : ℤ) (id : Option (List Char)) :
      Move fresh ⟨ps, cs, n, w⟩ ⟨ps.map (killed key id), cs, n, w⟩
  | accept {ps cs n w} (fd : ℤ) : fd ∉ cs.map fst → fresh ps fd →
      Move fresh ⟨ps, cs, n, w⟩ ⟨ps, cs ++ [(fd, ⟨fd, [], [], []⟩)], n, w⟩
  | leave {ps cs cs' n w c} (fd : ℤ) : cs.Perm ((fd, c) :: cs') →
      Move fresh ⟨ps, cs, n, w⟩ ⟨ps, cs', n, w.filter fun r => r.req.key ≠ fd⟩

variable {fresh : List (ℤ × Proc) → ℤ → Prop}

/-! ## The clients -/

@[simp]
theorem keys_updated (clients : List (ℤ × Client)) (fd : ℤ) (f : Client → Client) :
    (updated clients fd f).map fst = clients.map fst := by
  rw [updated, List.map_map]
  apply List.map_congr_left
  intro e _
  rw [Function.comp_apply]
  split_ifs <;> rfl

theorem mem_updated {f : Client → Client} {cs : List (ℤ × Client)} {e : ℤ × Client} :
    e ∈ updated cs fd f ↔
      (∃ c, (fd, c) ∈ cs ∧ e = (fd, f c)) ∨ (e ∈ cs ∧ e.1 ≠ fd) := by
  rw [updated, List.mem_map]
  constructor
  · rintro ⟨⟨k, c⟩, he, rfl⟩
    split_ifs with h
    · subst h
      exact .inl ⟨c, he, rfl⟩
    · exact .inr ⟨he, h⟩
  · rintro (⟨c, hc, rfl⟩ | ⟨he, hne⟩)
    · exact ⟨_, hc, if_pos rfl⟩
    · exact ⟨e, he, if_neg hne⟩

variable {l : List (ℤ × α)} {x : α}

theorem nodup_keys_append (h : (l.map fst).Nodup) (hkey : key ∉ l.map fst) :
    ((l ++ [(key, x)]).map fst).Nodup := by
  rw [List.map_append, List.map_singleton]
  exact (List.perm_append_singleton _ _).nodup_iff.mpr (List.nodup_cons.mpr ⟨hkey, h⟩)

@[simp]
theorem killed_clientKey (key : ℤ) (id : Option (List Char)) (q : ℤ × Proc) :
    (killed key id q).2.clientKey = q.2.clientKey := by
  rw [killed]
  split_ifs <;> rfl

@[simp]
theorem killed_serial (key : ℤ) (id : Option (List Char)) (q : ℤ × Proc) :
    (killed key id q).2.serial = q.2.serial := by
  rw [killed]
  split_ifs <;> rfl

@[simp]
theorem killed_taskId (key : ℤ) (id : Option (List Char)) (q : ℤ × Proc) :
    (killed key id q).2.taskId = q.2.taskId := by
  rw [killed]
  split_ifs <;> rfl

theorem updated_of_not_mem {clients : List (ℤ × Client)} (f : Client → Client)
    (h : fd ∉ clients.map fst) : updated clients fd f = clients := by
  rw [updated]
  conv_rhs => rw [← List.map_id clients]
  apply List.map_congr_left
  intro e he
  rw [if_neg]
  · rfl
  · rintro rfl
    exact h (List.mem_map_of_mem he)

theorem updated_updated (clients : List (ℤ × Client)) (fd : ℤ) (f g : Client → Client) :
    updated (updated clients fd f) fd g = updated clients fd (g ∘ f) := by
  rw [updated, updated, updated, List.map_map]
  apply List.map_congr_left
  intro e _
  rw [Function.comp_apply]
  by_cases h : e.1 = fd
  · rw [if_pos h, if_pos h, if_pos h]
    rfl
  · rw [if_neg h, if_neg h, if_neg h]

theorem exists_perm_of_lookup (h : listLookup l key = some x) :
    l.Perm ((key, x) :: listRemove l key) := by
  obtain ⟨e, he, rfl⟩ := map_eq_some_iff.mp h
  have hkey : e.1 = key := by simpa using List.find?_some he
  have hperm : l.Perm (e :: l.eraseP fun e => e.1 = key) := by
    obtain ⟨hp, as, bs, rfl, has⟩ := List.find?_eq_some_iff_append.mp he
    have hno : ∀ b ∈ as, ¬ decide (b.1 = key) = true := by
      intro b hb
      simpa using has b hb
    have htail : (e :: bs).eraseP (fun e => e.1 = key) = bs := by
      rw [List.eraseP_cons, hp, cond_true]
    rw [List.eraseP_append_right _ hno, htail]
    exact List.perm_middle
  rw [← hkey] at hperm ⊢
  exact hperm.trans (List.Perm.cons _ (listRemove_perm l e.1).symm)

/-! ## Removal from the queue -/

theorem queuePop_of_isEmpty {q : Queue α} (h : queueIsEmpty q = true) : queuePop q = none := by
  rw [queueIsEmpty, decide_eq_true_iff] at h
  rw [queuePop, dif_neg (by omega)]

theorem toList_of_queuePop {q q' : Queue α} (h : queuePop q = some (x, q')) :
    q.toList = x :: q'.toList := by
  by_cases hq : queueIsEmpty q = true
  · rw [queuePop_of_isEmpty hq] at h
    cases h
  · obtain ⟨y, q'', hpop, hlist, -⟩ := queuePop_spec (Bool.not_eq_true _ ▸ hq)
    rw [h, Option.some.injEq, Prod.mk.injEq] at hpop
    rw [hlist, hpop.1, hpop.2]

theorem emptyQueue_spec (keep : Pending → Bool) : ∀ q tmp : Queue Pending,
    q.len ≤ fuel →
    (emptyQueue keep fuel q tmp).1 = q.toList.filter (fun r => !keep r) ∧
    (emptyQueue keep fuel q tmp).2.1.toList = [] ∧
    (emptyQueue keep fuel q tmp).2.2.toList = tmp.toList ++ q.toList.filter keep := by
  induction fuel with
  | zero =>
    intro q tmp h
    have hnil : q.toList = [] :=
      (queueIsEmpty_iff q).mp (by rw [queueIsEmpty, decide_eq_true_iff]; omega)
    rw [emptyQueue, hnil]
    simp
  | succ fuel ih =>
    intro q tmp h
    rw [emptyQueue]
    by_cases hq : queueIsEmpty q = true
    · have hnil := (queueIsEmpty_iff q).mp hq
      rw [queuePop_of_isEmpty hq, hnil]
      simp
    · obtain ⟨r, q', hpop, hlist, hlen⟩ := queuePop_spec (Bool.not_eq_true _ ▸ hq)
      rw [hpop, hlist]
      dsimp only
      by_cases hk : keep r = true
      · obtain ⟨h1, h2, h3⟩ := ih q' (queuePush tmp r) (by omega)
        rw [if_pos hk, List.filter_cons_of_neg (by simp [hk]), List.filter_cons_of_pos hk]
        rw [toList_queuePush, List.append_assoc, List.singleton_append] at h3
        exact ⟨h1, h2, h3⟩
      · obtain ⟨h1, h2, h3⟩ := ih q' tmp (by omega)
        rw [if_neg hk, List.filter_cons_of_pos (by simp [hk]), List.filter_cons_of_neg hk]
        exact ⟨by rw [← h1], h2, h3⟩

theorem toList_refillQueue : ∀ {tmp q : Queue Pending}, tmp.len ≤ fuel →
    (refillQueue fuel tmp q).toList = q.toList ++ tmp.toList := by
  induction fuel with
  | zero =>
    intro tmp q h
    have hnil : tmp.toList = [] :=
      (queueIsEmpty_iff tmp).mp (by rw [queueIsEmpty, decide_eq_true_iff]; omega)
    rw [refillQueue, hnil, List.append_nil]
  | succ fuel ih =>
    intro tmp q h
    rw [refillQueue]
    by_cases hq : queueIsEmpty tmp = true
    · have hnil := (queueIsEmpty_iff tmp).mp hq
      rw [queuePop_of_isEmpty hq, hnil, List.append_nil]
    · obtain ⟨r, tmp', hpop, hlist, hlen⟩ := queuePop_spec (Bool.not_eq_true _ ▸ hq)
      rw [hpop, hlist]
      dsimp only
      rw [ih (by omega), toList_queuePush, List.append_assoc, List.singleton_append]

theorem removeFromQueue_spec (q : Queue Pending) (key : ℤ) (id : Option (List Char)) :
    (removeFromQueue q key id).1.toList
      = q.toList.filter (fun r => !isMeant key id r.req.key r.req.id) ∧
    (removeFromQueue q key id).2 = q.toList.filter fun r => isMeant key id r.req.key r.req.id := by
  obtain ⟨h1, h2, h3⟩ := emptyQueue_spec (fun r => !isMeant key id r.req.key r.req.id)
    q (initQueue q.capacity q.capacity_pos) le_rfl
  rw [toList_initQueue, List.nil_append] at h3
  simp only [Bool.not_not] at h1
  rw [removeFromQueue]
  dsimp only
  rw [toList_refillQueue le_rfl, h2, h3, h1, List.nil_append]
  exact ⟨rfl, rfl⟩

/-! ## Every step is a sequence of moves -/

theorem mem_keys_of_lookup (h : listLookup l key = some x) : key ∈ l.map fst :=
  List.mem_map_of_mem (mem_of_listLookup h)

theorem runRequest_moves (K : Kernel) (s : State) (r : Pending) (w : List Pending)
    (hw : s.queue.toList = w) :
    ReflTransGen (Move fresh) ⟨s.processes, s.clients, s.next, r :: w⟩ (runRequest K s r).view := by
  subst hw
  rw [runRequest]
  cases hl : listLookup s.clients r.req.key with
  | none => exact single (.drop (listLookup_eq_none.mp hl))
  | some c => exact single (.start _ _ (mem_keys_of_lookup hl))

theorem handleQueueRemove_moves (removed : List Pending) (s : State) (w : List Pending)
    (hw : s.queue.toList = w) :
    ReflTransGen (Move fresh) ⟨s.processes, s.clients, s.next, removed ++ w⟩
      (removed.foldl handleQueueRemove s).view := by
  induction removed generalizing s with
  | nil =>
    subst hw
    exact refl
  | cons r removed ih => exact head .cancel (ih (handleQueueRemove s r) hw)

theorem key_of_parseRequest {line : List Char} {key parallel : ℤ} {r : RunRequest}
    (h : (parseRequest line key parallel).1 = some (.run r)) : r.key = key := by
  rw [parseRequest] at h
  dsimp only at h
  split_ifs at h
  · exact absurd (some.inj h) (by simp)
  · exact (congrArg RunRequest.key (Request.run.inj (some.inj h))).symm

theorem handleRun_moves (K : Kernel) (s : State) (r : RunRequest)
    (hkey : r.key ∈ s.clients.map fst) :
    ReflTransGen (Move fresh) s.view (handleRun K s r).view := by
  refine head (.receive r hkey) ?_
  rw [handleRun]
  dsimp only
  split_ifs
  · exact runRequest_moves K { s with
      clients := updated s.clients r.key (Client.receive (s.next, r.id))
      next := s.next + 1 } ⟨s.next, r⟩ _ rfl
  · apply single
    rw [State.view]
    dsimp only
    rw [toList_queuePush]
    exact .reorder (List.perm_append_singleton _ _).symm

theorem handleInterrupt_moves (s : State) (key : ℤ) (id : List Char) :
    ReflTransGen (Move fresh) s.view (handleInterrupt s key id).view := by
  obtain ⟨h1, h2⟩ := removeFromQueue_spec s.queue key (some id)
  have hperm : s.queue.toList.Perm
      ((removeFromQueue s.queue key (some id)).2 ++ (removeFromQueue s.queue key (some id)).1.toList) := by
    rw [h1, h2]
    exact (List.filter_append_perm _ _).symm
  have hcancel := @handleQueueRemove_moves fresh (removeFromQueue s.queue key (some id)).2
    { s with queue := (removeFromQueue s.queue key (some id)).1 } _ rfl
  exact (head (.reorder hperm) hcancel).tail (.kill key (some id))

theorem handleLine_moves (K : Kernel) (s : State) (key : ℤ) (line : List Char)
    (hkey : key ∈ s.clients.map fst) :
    ReflTransGen (Move fresh) s.view (handleLine K s key line).view := by
  rw [handleLine]
  cases hreq : parseRequest line key s.parallel with
  | mk r parallel =>
    cases r with
    | none => exact refl
    | some r =>
      cases r with
      | run r =>
        have hr : r.key = key := @key_of_parseRequest line key s.parallel r (by rw [hreq])
        exact handleRun_moves K { s with parallel := parallel } r (hr ▸ hkey)
      | interrupt key' id =>
        exact handleInterrupt_moves { s with parallel := parallel } key id

theorem closeClient_moves (s : State) (fd : ℤ) {c : Client} (hc : listLookup s.clients fd = some c) :
    ReflTransGen (Move fresh) s.view (closeClient s fd).view := by
  have hfilter : (removeFromQueue s.queue fd none).1.toList
      = s.queue.toList.filter fun r => r.req.key ≠ fd := by
    rw [(removeFromQueue_spec s.queue fd none).1]
    congr 1
    ext r
    simp [isMeant]
  refine head (.leave fd (exists_perm_of_lookup hc)) ?_
  rw [← hfilter]
  exact single (.kill fd none)

theorem step_moves {K : Kernel} {s s' : State} {a : Act}
    (hfresh : ∀ fd, a = .accept fd → fresh s.processes fd) (h : step K s a = some s') :
    ReflTransGen (Move fresh) s.view s'.view := by
  cases a with
  | start =>
    rw [step] at h
    split_ifs at h
    obtain ⟨⟨r, q⟩, hpop, rfl⟩ := map_eq_some_iff.mp h
    have := @runRequest_moves fresh K { s with queue := q } r _ rfl
    rwa [State.view, toList_of_queuePop hpop]
  | accept fd =>
    rw [step] at h
    split_ifs at h with hfd
    cases h
    exact single (.accept fd hfd (hfresh fd rfl))
  | child pid status cpuTime =>
    rw [step, handleChildEvent] at h
    cases hp : listLookup s.processes pid with
    | none =>
      rw [hp] at h
      cases h
    | some p =>
      have hperm := exists_perm_of_lookup hp
      have hmove := @Move.reap fresh _ _ s.clients s.next s.queue.toList pid p status.exitCode
        cpuTime status.isTimeout hperm
      rw [hp] at h
      dsimp only at h
      cases hc : listLookup s.clients p.clientKey with
      | none =>
        rw [hc] at h
        cases h
        rw [updated_of_not_mem _ (listLookup_eq_none.mp hc)] at hmove
        exact single hmove
      | some c =>
        rw [hc] at h
        cases h
        exact single hmove
  | read fd chunk =>
    obtain ⟨c, -, rfl⟩ := map_eq_some_iff.mp h
    exact single (.buffer fd fun buf => buf ++ chunk)
  | line fd =>
    obtain ⟨c, hc, h⟩ := bind_eq_some_iff.mp h
    obtain ⟨⟨line, rest⟩, -, rfl⟩ := map_eq_some_iff.mp h
    refine head (.buffer fd fun _ => rest) (handleLine_moves K
      { s with clients := updated s.clients fd (Client.setReadbuf fun _ => rest) } fd line ?_)
    rw [keys_updated]
    exact mem_keys_of_lookup hc
  | close fd =>
    obtain ⟨c, hc, rfl⟩ := map_eq_some_iff.mp h
    exact closeClient_moves s fd hc

/-- Any order of the actions. -/
def AnyOrder (_ : State) (_ : Act) : Prop := True

end Why3.Server
