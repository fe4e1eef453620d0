import Why3.Session.Controller

/-!
# Every scheduled proof attempt ends once

The serial numbers of the attempts in the queue and in the table are all different, and
theirs are the callbacks that have had no last status.  A step tells some attempts a
status and takes away those whose status is the last one; one lemma says that this keeps
the invariant, and one for each function of the scheduler that it is such a step.
-/

namespace Why3.ControllerItp

open List State
open Prod (fst snd)

variable {call : ℕ} {Res E : Type}

/-! ## The table of the tasks in progress -/

/-- A call is under its own key, and the counter counts the tasks that have started. -/
structure Table (tbl : List (ℕ × TasksProgRec Res)) (running : ℤ) (nextCall : ℕ) : Prop where
  keys : (tbl.map fst).Nodup
  call : ∀ b ∈ tbl, b.2.tpCall = b.1 ∧ b.1 < nextCall
  running : running = (tbl.countP fun b => b.2.tpStarted : ℕ)

variable {ptp : TasksProgRec Res}

namespace Table

variable {tbl : List (ℕ × TasksProgRec Res)} {running : ℤ} {nextCall : ℕ}

theorem nil (nextCall : ℕ) : Table ([] : List (ℕ × TasksProgRec Res)) 0 nextCall :=
  ⟨nodup_nil, fun _ hb => absurd hb not_mem_nil, rfl⟩

variable {ptp : TasksProgRec Res}

/-- The task of a call, and the others. -/
theorem perm_of_lookup (hkeys : (tbl.map fst).Nodup) (h : tbl.lookup call = some ptp) :
    tbl.Perm ((call, ptp) :: tbl.filter fun b => b.1 ≠ call) := by
  induction tbl with
  | nil => cases h
  | cons b tbl ih =>
    obtain ⟨k, p⟩ := b
    rw [map_cons, nodup_cons] at hkeys
    rw [List.lookup_cons] at h
    by_cases hk : call = k
    · subst hk
      simp only [beq_self_eq_true, Option.some.injEq] at h
      subst h
      have hrest : tbl.filter (fun b => b.1 ≠ call) = tbl := by
        rw [filter_eq_self]
        intro b hb
        have hne : b.1 ≠ call := fun heq => hkeys.1 (mem_map.2 ⟨b, hb, heq⟩)
        simpa using hne
      rw [filter_cons_of_neg (by simp), hrest]
    · rw [beq_eq_false_iff_ne.2 hk] at h
      rw [filter_cons_of_pos (by simpa using fun h => hk h.symm)]
      exact ((ih hkeys.2 h).cons _).trans (List.Perm.swap _ _ _)

theorem filter (h : Table tbl running nextCall) (p : ℕ × TasksProgRec Res → Bool) :
    Table (tbl.filter p) ((tbl.filter p).countP fun b => b.2.tpStarted : ℕ) nextCall where
  keys := h.keys.sublist (filter_sublist.map _)
  call b hb := h.call b (mem_of_mem_filter hb)
  running := rfl

/-- The number of running provers goes down with a task that has started. -/
theorem remove (h : Table tbl running nextCall) (hl : tbl.lookup call = some ptp) :
    Table (tbl.filter fun b => b.1 ≠ call) (if ptp.tpStarted then running - 1 else running)
      nextCall := by
  have hfilter := h.filter fun b => b.1 ≠ call
  have hcount := (perm_of_lookup h.keys hl).countP_eq fun b => b.2.tpStarted
  rw [countP_cons] at hcount
  refine ⟨hfilter.keys, hfilter.call, ?_⟩
  rw [h.running, hcount]
  split_ifs with hst
  · push_cast
    omega
  · simp

theorem mem_of_lookup (hl : tbl.lookup call = some ptp) (hkeys : (tbl.map fst).Nodup) :
    (call, ptp) ∈ tbl :=
  (perm_of_lookup hkeys hl).mem_iff.2 mem_cons_self

theorem start (h : Table tbl running nextCall) {call : ℕ}
    (hl : tbl.lookup call = some ptp) (hst : ptp.tpStarted = false) :
    Table (hashtblReplace call { ptp with tpStarted := true } tbl) (running + 1) nextCall := by
  have hfilter := h.remove hl
  have hmem := h.call _ (mem_of_lookup hl h.keys)
  refine ⟨nodup_cons.2 ⟨?_, hfilter.keys⟩, ?_, ?_⟩
  · intro hcall
    obtain ⟨b, hb, heq⟩ := mem_map.1 hcall
    simp [heq] at hb
  · intro b hb
    rcases mem_cons.1 hb with rfl | hb
    · exact hmem
    · exact hfilter.call b hb
  · have hrun := hfilter.running
    rw [hst, if_neg (by simp)] at hrun
    rw [hashtblReplace, countP_cons, hrun]
    simp

/-- A task for a new call. -/
theorem new (h : Table tbl running nextCall) (ptp : TasksProgRec Res)
    (hcall : ptp.tpCall = nextCall) (hst : ptp.tpStarted = false) :
    Table (hashtblReplace nextCall ptp tbl) running (nextCall + 1) ∧
      hashtblReplace nextCall ptp tbl = (nextCall, ptp) :: tbl := by
  have hrest : tbl.filter (fun b => b.1 ≠ nextCall) = tbl := by
    rw [filter_eq_self]
    intro b hb
    have hlt := (h.call b hb).2
    simpa using hlt.ne
  have heq : hashtblReplace nextCall ptp tbl = (nextCall, ptp) :: tbl := by
    rw [hashtblReplace, hrest]
  refine ⟨?_, heq⟩
  rw [heq]
  refine ⟨nodup_cons.2 ⟨?_, h.keys⟩, ?_, ?_⟩
  · intro hmem
    obtain ⟨b, hb, hb'⟩ := mem_map.1 hmem
    have hlt := (h.call b hb).2
    omega
  · intro b hb
    rcases mem_cons.1 hb with rfl | hb
    · exact ⟨hcall, Nat.lt_succ_self _⟩
    · exact ⟨(h.call b hb).1, (h.call b hb).2.trans (Nat.lt_succ_self _)⟩
  · rw [h.running, countP_cons, hst]
    simp

end Table

/-! ## The invariant -/

namespace State

variable (s : State Res E)

/-- The attempts in the queue and in the table. -/
def serials : List ℕ :=
  s.scheduledProofAttempts.map SchedPaRec.serial ++ s.proverTasksInProgress.map (·.2.serial)

end State

structure Inv (c : Config Res) (s : State Res E) : Prop where
  table : Table s.proverTasksInProgress s.numberOfRunningProvers s.nextCall
  serials_nodup : s.serials.Nodup
  serial_lt : ∀ k ∈ s.serials, k < s.nextSerial
  log_lt : ∀ b ∈ s.log, b.1 < s.nextSerial
  alive : ∀ k ∈ s.serials, s.ended k = false
  gone : ∀ k < s.nextSerial, k ∉ s.serials →
    s.ended k = true ∨ (c.stackTrace = true ∧ k ∈ s.raised)
  raised : ∀ k ∈ s.raised, k < s.nextSerial ∧ k ∉ s.serials
  once : ∀ k, ∀ st ∈ (s.statuses k).tail, st.isTerminal = false

variable {c : Config Res} {s s' : State Res E}

theorem inv_initial : Inv c (initial : State Res E) where
  table := Table.nil 0
  serials_nodup := nodup_nil
  serial_lt k hk := by cases hk
  log_lt b hb := by cases hb
  alive k hk := by cases hk
  gone k hk := by cases hk
  raised k hk := by cases hk
  once k st hst := by cases hst

theorem statuses_append (told : List (ℕ × ProofAttemptStatus Res E)) (h : s'.log = told ++ s.log)
    (k : ℕ) :
    s'.statuses k = (told.filter fun b => b.1 = k).map snd ++ s.statuses k := by
  rw [statuses, h, filter_append, map_append, statuses]

variable {told : List (ℕ × ProofAttemptStatus Res E)}

theorem filter_key_cases
    (hn : (told.map fst).Nodup) (k : ℕ) :
    (told.filter fun b => b.1 = k) = [] ∨
      ∃ st, (k, st) ∈ told ∧ (told.filter fun b => b.1 = k) = [(k, st)] := by
  induction told with
  | nil => exact .inl rfl
  | cons b told ih =>
    obtain ⟨k', st⟩ := b
    rw [map_cons, nodup_cons] at hn
    by_cases hk : k' = k
    · subst hk
      refine .inr ⟨st, mem_cons_self, ?_⟩
      have hrest : (told.filter fun b => b.1 = k') = [] := by
        rw [filter_eq_nil_iff]
        intro b hb
        have hne : b.1 ≠ k' := fun heq => hn.1 (mem_map.2 ⟨b, hb, heq⟩)
        simpa using hne
      rw [filter_cons_of_pos (by simp), hrest]
    · rw [filter_cons_of_neg (by simpa using hk)]
      rcases ih hn.2 with h | ⟨st', hmem, h⟩
      · exact .inl h
      · exact .inr ⟨st', mem_cons_of_mem _ hmem, h⟩

/-- The attempts of `told` get a status.  One whose status is the last one leaves the queue
and the table, and no other one does unless an exception passes. -/
theorem Inv.tell (h : Inv c s) (told : List (ℕ × ProofAttemptStatus Res E))
    (hlog : s'.log = told ++ s.log) (hnext : s'.nextSerial = s.nextSerial)
    (htable : Table s'.proverTasksInProgress s'.numberOfRunningProvers s'.nextCall)
    (hkeys : (told.map fst).Nodup) (htold : ∀ b ∈ told, b.1 ∈ s.serials)
    (hlast : ∀ b ∈ told, b.2.isTerminal = true → b.1 ∉ s'.serials)
    (hsub : ∀ k ∈ s'.serials, k ∈ s.serials) (hn : s'.serials.Nodup)
    (hraised : s'.raised = s.raised ∨
      ∃ k ∈ s.serials, k ∉ s'.serials ∧ s'.raised = k :: s.raised)
    (hgone : ∀ k ∈ s.serials, k ∉ s'.serials →
      (∃ st, (k, st) ∈ told ∧ st.isTerminal = true) ∨ (c.stackTrace = true ∧ k ∈ s'.raised)) :
    Inv c s' := by
  have hended : ∀ k, s'.ended k =
      (((told.filter fun b => b.1 = k).map snd).any ProofAttemptStatus.isTerminal ||
        s.ended k) := by
    intro k
    rw [ended, statuses_append told hlog, any_append, ended]
  constructor
  case table => exact htable
  case serials_nodup => exact hn
  case serial_lt =>
    intro k hk
    rw [hnext]
    exact h.serial_lt k (hsub k hk)
  case log_lt =>
    intro b hb
    rw [hlog, mem_append] at hb
    rw [hnext]
    rcases hb with hb | hb
    · exact h.serial_lt _ (htold b hb)
    · exact h.log_lt b hb
  case alive =>
    intro k hk
    rw [hended, h.alive k (hsub k hk), Bool.or_false]
    rcases filter_key_cases hkeys k with hnil | ⟨st, hmem, heq⟩
    · rw [hnil]
      rfl
    · rw [heq]
      have hst : st.isTerminal ≠ true := fun ht => hlast (k, st) hmem ht hk
      simpa using hst
  case gone =>
    intro k hk hout
    rw [hnext] at hk
    rw [hended, Bool.or_eq_true]
    by_cases hin : k ∈ s.serials
    · rcases hgone k hin hout with ⟨st, hmem, ht⟩ | hst
      · refine .inl (.inl ?_)
        rw [any_eq_true]
        refine ⟨st, mem_map.2 ⟨(k, st), mem_filter.2 ⟨hmem, by simp⟩, rfl⟩, ht⟩
      · exact .inr hst
    · refine (h.gone k hk hin).imp .inr (And.imp_right fun hr => ?_)
      rcases hraised with heq | ⟨k', -, -, heq⟩
      · exact heq ▸ hr
      · exact heq ▸ mem_cons_of_mem _ hr
  case raised =>
    intro k hk
    have hold : ∀ k ∈ s.raised, k < s'.nextSerial ∧ k ∉ s'.serials := fun k hk =>
      ⟨hnext ▸ (h.raised k hk).1, fun hmem => (h.raised k hk).2 (hsub k hmem)⟩
    rcases hraised with heq | ⟨k', hin, hout, heq⟩
    · exact hold k (heq ▸ hk)
    · rcases mem_cons.1 (heq ▸ hk) with rfl | hk
      · exact ⟨hnext ▸ h.serial_lt _ hin, hout⟩
      · exact hold k hk
  case once =>
    intro k st hst
    rw [statuses_append told hlog] at hst
    rcases filter_key_cases hkeys k with hnil | ⟨st', hmem, heq⟩
    · rw [hnil] at hst
      exact h.once k st hst
    · -- the attempt was alive, so nothing that it has got is the last status
      rw [heq] at hst
      have halive := h.alive k (htold _ hmem)
      rw [ended, any_eq_false] at halive
      simpa using halive st hst

/-! ## The functions of the scheduler -/

theorem Inv.scheduleProofAttempt (h : Inv c s) (id : ℕ) (ores : Option Res) :
    Inv c (s.scheduleProofAttempt id ores) := by
  have hfresh : s.nextSerial ∉ s.serials := fun hmem => lt_irrefl _ (h.serial_lt _ hmem)
  have hperm : (s.scheduleProofAttempt id ores).serials.Perm (s.nextSerial :: s.serials) := by
    show (List.map _ (s.scheduledProofAttempts ++ [_]) ++ _).Perm _
    rw [map_append, append_assoc]
    exact perm_middle
  have hold : ∀ k, k ≠ s.nextSerial →
      (s.scheduleProofAttempt id ores).statuses k = s.statuses k := by
    intro k hk
    rw [statuses_append [(s.nextSerial, .scheduled)] rfl,
      filter_cons_of_neg (by simpa using hk.symm)]
    rfl
  have hnew : (s.scheduleProofAttempt id ores).statuses s.nextSerial = [.scheduled] := by
    rw [statuses_append [(s.nextSerial, .scheduled)] rfl,
      filter_cons_of_pos (by simp)]
    have hnil : s.statuses s.nextSerial = [] := by
      rw [statuses, filter_eq_nil_iff.2, map_nil]
      intro b hb
      have hlt := h.log_lt b hb
      simpa using hlt.ne
    exact congrArg (ProofAttemptStatus.scheduled :: ·) hnil
  have hended : ∀ k, k ≠ s.nextSerial →
      (s.scheduleProofAttempt id ores).ended k = s.ended k := by
    intro k hk
    rw [ended, hold k hk, ended]
  constructor
  case table => exact h.table
  case serials_nodup => exact hperm.nodup_iff.2 (nodup_cons.2 ⟨hfresh, h.serials_nodup⟩)
  case serial_lt =>
    intro k hk
    show k < s.nextSerial + 1
    rcases mem_cons.1 (hperm.mem_iff.1 hk) with rfl | hk
    · exact Nat.lt_succ_self _
    · exact (h.serial_lt k hk).trans (Nat.lt_succ_self _)
  case log_lt =>
    intro b hb
    show b.1 < s.nextSerial + 1
    change b ∈ (s.nextSerial, _) :: s.log at hb
    rcases mem_cons.1 hb with rfl | hb
    · exact Nat.lt_succ_self _
    · exact (h.log_lt b hb).trans (Nat.lt_succ_self _)
  case alive =>
    intro k hk
    rcases mem_cons.1 (hperm.mem_iff.1 hk) with rfl | hk
    · rw [ended, hnew]
      rfl
    · rw [hended k (fun heq => hfresh (heq ▸ hk))]
      exact h.alive k hk
  case gone =>
    intro k hk hout
    have hne : k ≠ s.nextSerial := by
      rintro rfl
      exact hout (hperm.mem_iff.2 mem_cons_self)
    have hlt : k < s.nextSerial + 1 := hk
    rw [hended k hne]
    exact h.gone k (by omega) fun hin => hout (hperm.mem_iff.2 (mem_cons_of_mem _ hin))
  case raised =>
    intro k hk
    obtain ⟨hlt, hout⟩ := h.raised k hk
    refine ⟨hlt.trans (Nat.lt_succ_self _), fun hmem => ?_⟩
    rcases mem_cons.1 (hperm.mem_iff.1 hmem) with rfl | hmem
    · exact lt_irrefl _ hlt
    · exact hout hmem
  case once =>
    intro k st hst
    by_cases hk : k = s.nextSerial
    · rw [hk, hnew] at hst
      cases hst
    · rw [hold k hk] at hst
      exact h.once k st hst

theorem serials_perm (h : Inv c s)
    (hl : s.proverTasksInProgress.lookup call = some ptp) :
    s.serials.Perm (ptp.serial :: (s.scheduledProofAttempts.map SchedPaRec.serial ++
      (s.proverTasksInProgress.filter fun b => b.1 ≠ call).map (·.2.serial))) :=
  (((Table.perm_of_lookup h.table.keys hl).map _).append_left _).trans perm_middle

/-- A task that is finished gets its last status. -/
theorem Inv.finish (h : Inv c s)
    (hl : s.proverTasksInProgress.lookup call = some ptp) {st : ProofAttemptStatus Res E}
    (hst : st.isTerminal = true) : Inv c (s.finish ptp st).2 := by
  have hcall : ptp.tpCall = call := (h.table.call _ (Table.mem_of_lookup hl h.table.keys)).1
  have hperm := serials_perm h hl
  have hnd := hperm.nodup_iff.1 h.serials_nodup
  rw [nodup_cons] at hnd
  have heq : (s.finish ptp st).2 = State.tell
      { s with
        proverTasksInProgress := s.proverTasksInProgress.filter fun b => b.1 ≠ call
        numberOfRunningProvers :=
          if ptp.tpStarted then s.numberOfRunningProvers - 1 else s.numberOfRunningProvers }
      ptp.serial st := by
    rw [← hcall]
    cases st <;> first | rfl | cases hst
  rw [heq]
  refine h.tell [(ptp.serial, st)] rfl rfl (h.table.remove hl) (nodup_singleton _)
    ?_ ?_ ?_ hnd.2 (.inl rfl) ?_
  · intro b hb
    rw [mem_singleton.1 hb]
    exact hperm.mem_iff.2 mem_cons_self
  · intro b hb _
    rw [mem_singleton.1 hb]
    exact hnd.1
  · intro k hk
    exact hperm.mem_iff.2 (mem_cons_of_mem _ hk)
  · intro k hk hout
    rcases mem_cons.1 (hperm.mem_iff.1 hk) with rfl | hk
    · exact Or.inl ⟨st, mem_singleton_self _, hst⟩
    · exact absurd hk hout

theorem Inv.handleUpdate (h : Inv c s) (call : ℕ) (update : ProverUpdate Res E) :
    Inv c (s.handleUpdate c call update).2 := by
  unfold State.handleUpdate
  cases hl : s.proverTasksInProgress.lookup call with
  | none => exact h
  | some ptp =>
    cases update with
    | noUpdates => exact h
    | proverInterrupted | internalFailure e | proverFinished res => exact h.finish hl rfl
    | proverStarted =>
      dsimp only
      split_ifs with hst
      · exact h
      obtain rfl : ptp.tpCall = call :=
        (h.table.call _ (Table.mem_of_lookup hl h.table.keys)).1
      have hperm := serials_perm h hl
      refine h.tell [(ptp.serial, .running)] rfl rfl
        (h.table.start hl (by simpa using hst)) (nodup_singleton _) ?_ ?_ ?_ ?_ (.inl rfl) ?_
      · intro b hb
        rw [mem_singleton.1 hb]
        exact hperm.mem_iff.2 mem_cons_self
      · intro b hb ht
        rw [mem_singleton.1 hb] at ht
        cases ht
      all_goals
        have hsame : (List.map SchedPaRec.serial s.scheduledProofAttempts ++
            List.map (·.2.serial) (hashtblReplace ptp.tpCall { ptp with tpStarted := true }
              s.proverTasksInProgress)).Perm s.serials :=
          perm_middle.trans hperm.symm
      · exact fun k hk => hsame.mem_iff.1 hk
      · exact hsame.nodup_iff.2 h.serials_nodup
      · exact fun k hk hout => absurd (hsame.mem_iff.2 hk) hout

theorem Inv.handleUpdates (h : Inv c s) (results : List (ℕ × ProverUpdate Res E)) :
    Inv c (handleUpdates c results s).2 := by
  induction results generalizing s with
  | nil => exact h
  | cons r results ih =>
    obtain ⟨call, update⟩ := r
    have hstep := h.handleUpdate call update
    unfold handleUpdates andThen
    generalize s.handleUpdate c call update = r at hstep
    obtain ⟨_ | e, s₁⟩ := r
    · exact ih hstep
    · exact hstep

theorem Inv.timeoutHandler (h : Inv c s) (results : List (ℕ × ProverUpdate Res E)) :
    Inv c (s.timeoutHandler c results).2 := by
  unfold State.timeoutHandler
  split_ifs
  · exact h
  · exact h.handleUpdates results

/-- The attempt that is taken from the queue gets its last status, or its start raises. -/
theorem Inv.pop (h : Inv c s) {spa : SchedPaRec Res} {q : List (SchedPaRec Res)}
    (hq : s.scheduledProofAttempts = spa :: q) {raised : List ℕ}
    (hraised : raised = s.raised ∨ raised = spa.serial :: s.raised)
    (htold : (∃ st, told = [(spa.serial, st)] ∧ st.isTerminal = true) ∨
      (told = [] ∧ c.stackTrace = true ∧ spa.serial ∈ raised)) :
    Inv c { s with scheduledProofAttempts := q, log := told ++ s.log, raised := raised } := by
  have hser : s.serials =
      spa.serial :: (q.map SchedPaRec.serial ++ s.proverTasksInProgress.map (·.2.serial)) := by
    rw [serials, hq]
    rfl
  have hnd := h.serials_nodup
  rw [hser, nodup_cons] at hnd
  refine h.tell told rfl rfl h.table ?_ ?_ ?_ ?_ hnd.2
    (hraised.imp id fun heq => ⟨spa.serial, hser ▸ mem_cons_self, hnd.1, heq⟩) ?_
  · rcases htold with ⟨st, rfl, -⟩ | ⟨rfl, -⟩
    · exact nodup_singleton _
    · exact nodup_nil
  · intro b hb
    rcases htold with ⟨st, rfl, -⟩ | ⟨rfl, -⟩
    · rw [mem_singleton.1 hb, hser]
      exact mem_cons_self
    · cases hb
  · intro b hb _
    rcases htold with ⟨st, rfl, -⟩ | ⟨rfl, -⟩
    · rw [mem_singleton.1 hb]
      exact hnd.1
    · cases hb
  · intro k hk
    rw [hser]
    exact mem_cons_of_mem _ hk
  · intro k hk hout
    rw [hser] at hk
    rcases mem_cons.1 hk with rfl | hk
    · rcases htold with ⟨st, rfl, hst⟩ | ⟨-, hst⟩
      · exact .inl ⟨st, mem_singleton_self _, hst⟩
      · exact .inr hst
    · exact absurd hk hout

theorem Inv.idleHandler (h : Inv c s) (maxTasks : ℕ) (start : Start E) :
    Inv c (s.idleHandler c maxTasks start).2 := by
  unfold State.idleHandler
  by_cases hroom : (c.blocking || s.proverTasksInProgress.length < c.multiplier * maxTasks) = true
  swap
  · rw [if_neg hroom]
    exact h
  rw [if_pos hroom]
  cases hq : s.scheduledProofAttempts with
  | nil =>
    have hidle : ∀ q, s.scheduledProofAttempts = q →
        Inv c { s with scheduledProofAttempts := q, idleHandlerRunning := false } := by
      rintro q rfl
      exact ⟨h.table, h.serials_nodup, h.serial_lt, h.log_lt, h.alive, h.gone, h.raised, h.once⟩
    exact hidle [] hq
  | cons spa q =>
    -- an exception that passes, or the last status
    have hraise : ∀ e, Inv c (if c.stackTrace then
        (some e, ({ s with
          scheduledProofAttempts := q
          raised := spa.serial :: s.raised } : State Res E))
        else State.callback { s with
          scheduledProofAttempts := q
          raised := spa.serial :: s.raised } spa.serial (.internalFailure e)).2 := by
      intro e
      split_ifs with hst
      · exact h.pop hq (.inr rfl) (.inr ⟨rfl, hst, mem_cons_self⟩)
      · exact h.pop hq (.inr rfl) (.inl ⟨_, rfl, rfl⟩)
    cases start with
    | unprepared e => exact hraise e
    | noTask => exact hraise .assertFailure
    | refused e =>
      cases e with
      | assertFailure => exact hraise _
      | other e => exact hraise _
      | sysError e => exact h.pop hq (.inl rfl) (.inl ⟨_, rfl, rfl⟩)
    | call =>
      have hnew := h.table.new ⟨spa.serial, spa.spaId, false, s.nextCall, spa.spaOres⟩ rfl rfl
      have hperm : (q.map SchedPaRec.serial ++ List.map (·.2.serial)
          (hashtblReplace s.nextCall ⟨spa.serial, spa.spaId, false, s.nextCall, spa.spaOres⟩
            s.proverTasksInProgress)).Perm s.serials := by
        rw [hnew.2, State.serials, hq]
        exact perm_middle
      refine h.tell [] rfl rfl hnew.1 nodup_nil (fun b hb => by cases hb)
        (fun b hb => by cases hb) (fun k hk => hperm.mem_iff.1 hk)
        (hperm.nodup_iff.2 h.serials_nodup) (.inl rfl)
        fun k hk hout => absurd (hperm.mem_iff.2 hk) hout

theorem foldl_interruptTask (p : ℕ × TasksProgRec Res → Bool) (l : List (ℕ × TasksProgRec Res))
    (s : State Res E) (calls : List ℕ) :
    l.foldl (fun sl b => if p b then (sl.1.interruptTask b.2, b.1 :: sl.2) else sl) (s, calls) =
      ({ s with
        numberOfRunningProvers :=
          s.numberOfRunningProvers - ((l.filter p).countP fun b => b.2.tpStarted : ℕ)
        log := ((l.filter p).map fun b => (b.2.serial, .interrupted)).reverse ++ s.log },
        ((l.filter p).map fst).reverse ++ calls) := by
  induction l generalizing s calls with
  | nil => simp
  | cons b l ih =>
    rw [foldl_cons]
    by_cases hb : p b = true
    · rw [if_pos hb, ih, filter_cons_of_pos hb]
      simp only [map_cons, reverse_cons, append_assoc, singleton_append,
        countP_cons, interruptTask, State.tell]
      refine Prod.ext ?_ rfl
      cases b.2.tpStarted
      · simp
      · simp only [if_true]
        congr 1
        push_cast
        omega
    · rw [if_neg hb, ih, filter_cons_of_neg hb]

/-- The same for the attempts in the queue; the others are kept, the last one first. -/
theorem foldl_interruptScheduled (p : SchedPaRec Res → Bool) (l : List (SchedPaRec Res))
    (s : State Res E) (kept : List (SchedPaRec Res)) :
    l.foldl (fun sq spa => if p spa then (sq.1, spa :: sq.2)
      else (sq.1.tell spa.serial .interrupted, sq.2)) (s, kept) =
      ({ s with log := ((l.filter fun spa => !p spa).map fun spa =>
        (spa.serial, .interrupted)).reverse ++ s.log },
        (l.filter p).reverse ++ kept) := by
  induction l generalizing s kept with
  | nil => rfl
  | cons spa l ih =>
    rw [foldl_cons]
    by_cases hp : p spa = true
    · rw [if_pos hp, ih, filter_cons_of_pos hp, filter_cons_of_neg (by simpa using hp)]
      simp
    · rw [if_neg hp, ih, filter_cons_of_neg hp, filter_cons_of_pos (by simpa using hp)]
      simp [State.tell]

theorem foldl_filter_ne (l : List ℕ) (tbl : List (ℕ × TasksProgRec Res)) :
    l.foldl (fun tbl call => tbl.filter fun b => b.1 ≠ call) tbl =
      tbl.filter fun b => b.1 ∉ l := by
  induction l generalizing tbl with
  | nil => simp
  | cons call l ih =>
    rw [foldl_cons, ih, filter_filter]
    apply filter_congr
    intro b _
    simp [Bool.and_comm]

/-- A part of the attempts is interrupted: those of the tasks that satisfy `p`, and those
in the queue that satisfy `q`. -/
theorem Inv.interruptSome (h : Inv c s) (p : ℕ × TasksProgRec Res → Bool)
    (q : SchedPaRec Res → Bool) (told : List (ℕ × ProofAttemptStatus Res E))
    (htold : told.Perm (((s.scheduledProofAttempts.filter q).map fun spa => (spa.serial, .interrupted))
      ++ (s.proverTasksInProgress.filter p).map fun b => (b.2.serial, .interrupted))) :
    Inv c { s with
      scheduledProofAttempts := s.scheduledProofAttempts.filter fun spa => !q spa
      proverTasksInProgress := s.proverTasksInProgress.filter fun b => !p b
      numberOfRunningProvers := s.numberOfRunningProvers -
        ((s.proverTasksInProgress.filter p).countP fun b => b.2.tpStarted : ℕ)
      log := told ++ s.log } := by
  have hkeys : (told.map fst).Perm ((s.scheduledProofAttempts.filter q).map SchedPaRec.serial ++
      (s.proverTasksInProgress.filter p).map (·.2.serial)) := by
    refine (htold.map fst).trans (List.Perm.of_eq ?_)
    rw [map_append, map_map, map_map]
    rfl
  have hterm : ∀ b ∈ told, b.2.isTerminal = true := by
    intro b hb
    rw [htold.mem_iff, mem_append, mem_map, mem_map] at hb
    rcases hb with ⟨spa, -, rfl⟩ | ⟨b, -, rfl⟩ <;> rfl
  -- the attempts are those that are interrupted and those that stay
  have hsplit : s.serials.Perm (told.map fst ++
      ((s.scheduledProofAttempts.filter fun spa => !q spa).map SchedPaRec.serial ++
        (s.proverTasksInProgress.filter fun b => !p b).map (·.2.serial))) := by
    have hq := (filter_append_perm q s.scheduledProofAttempts).map SchedPaRec.serial
    have hp := (filter_append_perm p s.proverTasksInProgress).map (·.2.serial)
    rw [map_append] at hq hp
    refine (hq.symm.append hp.symm).trans ?_
    refine List.Perm.trans ?_ (hkeys.symm.append_right _)
    rw [append_assoc, append_assoc]
    refine List.Perm.append_left _ ?_
    rw [← append_assoc, ← append_assoc]
    exact perm_append_comm.append_right _
  have hnd := hsplit.nodup_iff.1 h.serials_nodup
  rw [nodup_append] at hnd
  refine h.tell told rfl rfl ?_ hnd.1 ?_ ?_ ?_ hnd.2.1 (.inl rfl) ?_
  · have htable := h.table.filter fun b => !p b
    refine ⟨htable.keys, htable.call, ?_⟩
    have hcount := (filter_append_perm p s.proverTasksInProgress).countP_eq
      fun b => b.2.tpStarted
    rw [countP_append] at hcount
    show s.numberOfRunningProvers - _ = _
    rw [h.table.running, ← hcount]
    push_cast
    omega
  · intro b hb
    exact hsplit.mem_iff.2 (mem_append_left _ (mem_map_of_mem hb))
  · intro b hb _ hmem
    exact hnd.2.2 b.1 (mem_map_of_mem hb) b.1 hmem rfl
  · intro k hk
    exact hsplit.mem_iff.2 (mem_append_right _ hk)
  · intro k hk hout
    rcases mem_append.1 (hsplit.mem_iff.1 hk) with hk | hk
    · obtain ⟨b, hb, rfl⟩ := mem_map.1 hk
      exact .inl ⟨b.2, hb, hterm b hb⟩
    · exact absurd hk hout

theorem foldl_interruptTask_all (l : List (ℕ × TasksProgRec Res)) (s : State Res E)
    (calls : List ℕ) :
    l.foldl (fun s b => s.interruptTask b.2) s =
      (l.foldl (fun sl b => if (fun _ => true : ℕ × TasksProgRec Res → Bool) b
        then (sl.1.interruptTask b.2, b.1 :: sl.2) else sl) (s, calls)).1 := by
  induction l generalizing s calls with
  | nil => rfl
  | cons b l ih => exact ih (s.interruptTask b.2) (b.1 :: calls)

theorem foldl_interruptScheduled_all (l : List (SchedPaRec Res)) (s : State Res E) :
    l.foldl (fun s spa => s.tell spa.serial .interrupted) s =
      { s with log := (l.map fun spa => (spa.serial, .interrupted)).reverse ++ s.log } := by
  induction l generalizing s with
  | nil => rfl
  | cons spa l ih =>
    rw [foldl_cons, ih]
    simp [State.tell]

theorem Inv.interrupt (h : Inv c s) : Inv c (s.interrupt c) := by
  have horder := c.order.perm s.proverTasksInProgress
  have hall := h.interruptSome (fun _ => true) (fun _ => true)
    ((s.scheduledProofAttempts.map fun spa => (spa.serial, .interrupted)).reverse ++
      ((c.order.order s.proverTasksInProgress).map fun b => (b.2.serial, .interrupted)).reverse)
    (by
      rw [filter_true, filter_true]
      exact (reverse_perm _).append ((reverse_perm _).trans (horder.map _)))
  have heq : s.interrupt c = { s with
    scheduledProofAttempts := []
    proverTasksInProgress := []
    numberOfRunningProvers := 0
    log := (s.scheduledProofAttempts.map fun spa => (spa.serial, .interrupted)).reverse ++
      ((c.order.order s.proverTasksInProgress).map fun b =>
        (b.2.serial, .interrupted)).reverse ++ s.log } := by
    unfold State.interrupt
    rw [foldl_interruptTask_all _ s [], foldl_interruptTask]
    simp only [foldl_interruptScheduled_all, filter_true, append_assoc]
  have hzero : s.numberOfRunningProvers -
      ((s.proverTasksInProgress.filter fun _ => true).countP fun b => b.2.tpStarted : ℕ) = 0 := by
    rw [filter_true, ← h.table.running, Int.sub_self]
  rw [hzero] at hall
  simp only [Bool.not_true, filter_false] at hall
  rw [heq]
  exact hall

theorem Inv.interruptProofAttemptsForGoal (h : Inv c s) (id : ℕ) :
    Inv c (s.interruptProofAttemptsForGoal c id) := by
  have horder := c.order.perm s.proverTasksInProgress
  have hsome := h.interruptSome (fun b => b.2.tpId = id) (fun spa => spa.spaId = id)
    (((s.scheduledProofAttempts.filter fun spa => spa.spaId = id).map fun spa =>
      (spa.serial, .interrupted)).reverse ++
      (((c.order.order s.proverTasksInProgress).filter fun b => b.2.tpId = id).map fun b =>
        (b.2.serial, .interrupted)).reverse)
    ((reverse_perm _).append ((reverse_perm _).trans ((horder.filter _).map _)))
  have hcount := (horder.filter fun b => b.2.tpId = id).countP_eq fun b => b.2.tpStarted
  -- the calls that are removed are those of the goal
  have hremove : s.proverTasksInProgress.filter (fun b => b.1 ∉
      (((c.order.order s.proverTasksInProgress).filter fun b => b.2.tpId = id).map Prod.fst).reverse)
      = s.proverTasksInProgress.filter fun b => !decide (b.2.tpId = id) := by
    apply filter_congr
    intro b hb
    rw [← decide_not, decide_eq_decide, not_iff_not, mem_reverse, mem_map]
    constructor
    · rintro ⟨b', hb', heq⟩
      rw [mem_filter, horder.mem_iff] at hb'
      have hsame : b' = b := inj_on_of_nodup_map h.table.keys hb'.1 hb heq
      rw [← hsame]
      simpa using hb'.2
    · intro hid
      exact ⟨b, mem_filter.2 ⟨horder.mem_iff.2 hb, by simpa using hid⟩, rfl⟩
  have heq : s.interruptProofAttemptsForGoal c id = { s with
    scheduledProofAttempts := s.scheduledProofAttempts.filter fun spa => !decide (spa.spaId = id)
    proverTasksInProgress := s.proverTasksInProgress.filter fun b => !decide (b.2.tpId = id)
    numberOfRunningProvers := s.numberOfRunningProvers -
      ((s.proverTasksInProgress.filter fun b => b.2.tpId = id).countP fun b =>
        b.2.tpStarted : ℕ)
    log := ((s.scheduledProofAttempts.filter fun spa => spa.spaId = id).map fun spa =>
      (spa.serial, .interrupted)).reverse ++
      (((c.order.order s.proverTasksInProgress).filter fun b => b.2.tpId = id).map fun b =>
        (b.2.serial, .interrupted)).reverse ++ s.log } := by
    have htasks := foldl_interruptTask (fun b => decide (b.2.tpId = id))
      (c.order.order s.proverTasksInProgress) s []
    simp only [decide_eq_true_eq] at htasks
    have hqueue := fun s' : State Res E => foldl_interruptScheduled
      (fun spa => decide (spa.spaId ≠ id)) s.scheduledProofAttempts s' []
    simp only [decide_eq_true_eq] at hqueue
    unfold State.interruptProofAttemptsForGoal
    rw [htasks]
    dsimp only
    rw [append_nil, foldl_filter_ne, hremove, hcount, hqueue]
    simp only [append_nil, reverse_reverse, decide_not, Bool.not_not, append_assoc]
  rw [heq]
  exact hsome

/-! ## Runs -/

theorem Reachable.inv (h : Reachable c s) : Inv c s := by
  refine h.invariant (fun s a s' hs _ hstep => ?_) inv_initial
  obtain rfl := Option.some.inj hstep
  cases a with
  | schedule id ores => exact hs.scheduleProofAttempt id ores
  | timeout results => exact hs.timeoutHandler results
  | idle maxTasks start => exact hs.idleHandler maxTasks start
  | interrupt => exact hs.interrupt
  | interruptGoal id => exact hs.interruptProofAttemptsForGoal id

/-- How often an attempt occurs in the queue and in the table. -/
theorem count_serials (s : State Res E) (k : ℕ) :
    s.serials.count k = s.inQueue k + s.inTable k := by
  rw [serials, count_append, count_eq_countP, count_eq_countP,
    countP_map, countP_map, inQueue, inTable]
  congr 1

theorem reachable_foldl (actions : List (Action Res E)) (h : Reachable c s) :
    Reachable c (actions.foldl (step c) s) := by
  induction actions generalizing s with
  | nil => exact h
  | cons a actions ih => exact ih (h.tail trivial rfl)

/-- Every scheduled attempt ends at most once and gets nothing after that, an attempt that
has ended is in neither place, one that has not is in exactly one of the two, except those
whose start raised an exception that `stack_trace` lets through, which are in neither, and
the counter counts the tasks that have started. -/
theorem attempts_end_once (h : Reachable c s) :
    (∀ k < s.nextSerial,
      (∀ st ∈ (s.statuses k).tail, st.isTerminal = false) ∧
      (s.ended k = true → s.inQueue k + s.inTable k = 0) ∧
      (s.ended k = false → s.inQueue k + s.inTable k =
        if c.stackTrace = true ∧ k ∈ s.raised then 0 else 1)) ∧
    s.numberOfRunningProvers = (s.proverTasksInProgress.countP fun b => b.2.tpStarted : ℕ) ∧
    0 ≤ s.numberOfRunningProvers ∧
    (s.proverTasksInProgress = [] → s.numberOfRunningProvers = 0) := by
  have hinv := h.inv
  refine ⟨fun k hk => ⟨hinv.once k, fun hended => ?_, fun hended => ?_⟩, hinv.table.running, ?_, ?_⟩
  · rw [← count_serials, count_eq_zero]
    intro hmem
    rw [hinv.alive k hmem] at hended
    cases hended
  · rw [← count_serials]
    by_cases hmem : k ∈ s.serials
    · rw [count_eq_one_of_mem hinv.serials_nodup hmem,
        if_neg fun hr => (hinv.raised k hr.2).2 hmem]
    · rcases hinv.gone k hk hmem with hend | hst
      · rw [hended] at hend
        cases hend
      · rw [count_eq_zero.2 hmem, if_pos hst]
  · rw [hinv.table.running]
    exact Int.natCast_nonneg _
  · intro hnil
    rw [hinv.table.running, hnil]
    rfl

/-- At most one prover, with a table in the order of its bindings. -/
def oneProver (stackTrace : Bool) : Config ℕ :=
  ⟨false, 1, stackTrace, fun res _ => res, ⟨id, fun _ => List.Perm.refl _⟩⟩

/-- One attempt runs, a second one waits, and the goal of a third one is interrupted. -/
def threeAttempts : State ℕ Unit :=
  [Action.schedule 0 none, .schedule 1 none, .schedule 2 none, .idle 1 .call,
    .timeout [(0, .proverStarted)], .idle 1 .call, .interruptGoal 2].foldl
      (step (oneProver false)) initial

theorem threeAttempts_counted :
    threeAttempts.ended 2 = true ∧ threeAttempts.inQueue 2 + threeAttempts.inTable 2 = 0 ∧
      threeAttempts.numberOfRunningProvers =
        (threeAttempts.proverTasksInProgress.countP fun b => b.2.tpStarted : ℕ) := by
  have hended : threeAttempts.ended 2 = true := by decide
  have h : Reachable (oneProver false) threeAttempts := reachable_foldl _ .refl
  obtain ⟨hall, hrunning, -⟩ := attempts_end_once h
  exact ⟨hended, (hall 2 (by decide)).2.1 hended, hrunning⟩

/-- With `stack_trace`, an exception at the start of a prover leaves the attempt without a
last status, and neither in the queue nor in the table. -/
theorem stackTrace_loses : ∃ s : State ℕ Unit, Reachable (oneProver true) s ∧ 0 < s.nextSerial ∧
    s.ended 0 = false ∧ s.inQueue 0 = 0 ∧ s.inTable 0 = 0 := by
  refine ⟨[Action.schedule 0 none, .idle 1 (.refused (.other ()))].foldl (step (oneProver true))
    initial, reachable_foldl _ .refl, ?_⟩
  decide

end Why3.ControllerItp
