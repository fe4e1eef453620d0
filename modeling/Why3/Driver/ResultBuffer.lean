import Why3.Lib.Runs

/-!
# The buffer of prover updates

`result_buffer` of `driver/call_provers.ml`, a hash table with several bindings for one
key, and the functions that fill and read it.  A table is the list of its bindings, the
latest first; `Hashtbl.iter` goes through the buckets one after the other.  What the
server sends is part of an action: it answers a call with one `Started` and then one
`Finished`, in batches cut anywhere.

Two things are recorded that the program does not have: the updates received, and those
that were returned to the callers.
-/

namespace Why3.ResultBuffer

/-! ## Updates -/

/-- An answer of the server; `A` is what it says of a finished run. -/
inductive Answer (A : Type)
  | started (id : ℕ)
  | finished (id : ℕ) (answer : A)

inductive ProverUpdate (R : Type)
  | proverStarted
  | proverFinished (r : R)
deriving DecidableEq

/-- The identifier counter, `saved_data`, `result_buffer`, and the two records. -/
structure State (D R : Type) where
  lastId : ℕ
  savedData : List (ℕ × D)
  resultBuffer : List (ℕ × ProverUpdate R)
  received : List (ℕ × ProverUpdate R)
  returned : List (ℕ × ProverUpdate R)

def State.init {D R : Type} : State D R := ⟨0, [], [], [], []⟩

/-- The updates of one call in a list. -/
def ofCall {R : Type} (id : ℕ) (l : List (ℕ × ProverUpdate R)) : List (ProverUpdate R) :=
  (l.filter (fun e => e.1 = id)).map Prod.snd

section Functions

-- `parse` is `parse_prover_run` on the saved data of a call; it fails when a parser of models
-- raises an exception, and then all the answers of the batch are lost.
variable {A D R : Type} (parse : D → A → Option R)

/-- `call_on_file`. -/
def callOnFile (s : State D R) (save : D) : State D R :=
  { s with lastId := s.lastId + 1, savedData := (s.lastId + 1, save) :: s.savedData }

/-- The server answers the calls that were made, `Started` first and each answer once. -/
def serverMayAnswer (s : State D R) : Answer A → Prop
  | .started id => 0 < id ∧ id ≤ s.lastId ∧ (ofCall id s.received).length = 0
  | .finished id _ => (ofCall id s.received).length = 1

instance (s : State D R) (a : Answer A) : Decidable (serverMayAnswer s a) := by
  cases a <;> unfold serverMayAnswer <;> infer_instance

/-- `handle_answer`; `none` is `Not_found` or the exception of a parser. -/
def handleAnswer (s : State D R) : Answer A → Option (List (ℕ × D) × ℕ × ProverUpdate R)
  | .finished id answer =>
    match s.savedData.lookup id with
    | some save =>
      (parse save answer).map fun r =>
        (s.savedData.filter (fun e => e.1 ≠ id), id, .proverFinished r)
    | none => none
  | .started id => some (s.savedData, id, .proverStarted)

/-- One answer of `fetch_new_results`; the answers of a batch are handled and added to the
buffer in their order. -/
def fetchOne (s : State D R) (a : Answer A) : Option (State D R) :=
  if serverMayAnswer s a then
    (handleAnswer parse s a).map fun (savedData, x) =>
      { s with
        savedData := savedData
        resultBuffer := x :: s.resultBuffer
        received := s.received ++ [x] }
  else none

def fetchNewResults (s : State D R) (batch : List (Answer A)) : Option (State D R) :=
  batch.foldlM (fetchOne parse) s

/-- `Hashtbl.iter`, on `n` buckets. -/
def hashtblIter (hash : ℕ → ℕ) (n : ℕ) (l : List (ℕ × ProverUpdate R)) :
    List (ℕ × ProverUpdate R) :=
  (List.range n).flatMap fun i => l.filter fun e => hash e.1 % n = i

/-- The body of the iteration of `get_new_results`. -/
def takeUpdate (blocking : Bool) (q : List (ℕ × ProverUpdate R)) (e : ℕ × ProverUpdate R) :
    List (ℕ × ProverUpdate R) :=
  match e.2 with
  | .proverStarted => if blocking then q else e :: q
  | .proverFinished _ => e :: q

/-- The list that `get_new_results` returns. -/
def newResults (hash : ℕ → ℕ) (n : ℕ) (blocking : Bool) (l : List (ℕ × ProverUpdate R)) :
    List (ℕ × ProverUpdate R) :=
  (hashtblIter hash n l).foldl (takeUpdate blocking) []

def getNewResults (hash : ℕ → ℕ) (n : ℕ) (blocking : Bool) (s : State D R) : State D R :=
  { s with
    resultBuffer := []
    returned := s.returned ++ newResults hash n blocking s.resultBuffer }

/-- `Hashtbl.find` and `Hashtbl.remove`: the latest binding of the call. -/
def queryResultBuffer (s : State D R) (id : ℕ) : Option (ProverUpdate R) × State D R :=
  match s.resultBuffer.lookup id with
  | some u => (some u, { s with resultBuffer := s.resultBuffer.eraseP fun e => e.1 = id })
  | none => (none, s)

/-- The end of `query_call`, once a batch was fetched. -/
def returnUpdate (s : State D R) (id : ℕ) : State D R :=
  match queryResultBuffer s id with
  | (some u, s) => { s with returned := s.returned ++ [(id, u)] }
  | (none, s) => s

/-- `wait_on_call` while it reads the given batches; the answer may still be missing after
the last one. -/
def waitOnCall (id : ℕ) : List (List (Answer A)) → State D R → Option (State D R)
  | [], s =>
    match queryResultBuffer s id with
    | (some (.proverFinished r), s) =>
      some { s with returned := s.returned ++ [(id, .proverFinished r)] }
    | (_, s) => some s
  | batch :: batches, s =>
    match queryResultBuffer s id with
    | (some (.proverFinished _), _) => none
    | (_, s) => (fetchNewResults parse s batch).bind (waitOnCall id batches)

/-! ## Runs -/

/-- What a client of the module does. -/
inductive Act (A D : Type)
  | call (save : D)
  | query (id : ℕ) (batch : List (Answer A))
  | getNew (blocking : Bool) (n : ℕ) (batch : List (Answer A))
  | wait (id : ℕ) (batches : List (List (Answer A)))

def step (hash : ℕ → ℕ) (s : State D R) : Act A D → Option (State D R)
  | .call save => some (callOnFile s save)
  | .query id batch => (fetchNewResults parse s batch).map fun s => returnUpdate s id
  | .getNew blocking n batch =>
    if 0 < n then (fetchNewResults parse s batch).map (getNewResults hash n blocking) else none
  | .wait id batches => waitOnCall parse id batches s

end Functions

end Why3.ResultBuffer

/-!
# Updates are delivered in order and once

What was returned for a call, followed by what the buffer holds for it, stays a part of
what was received, as long as one binding is taken from the buffer only when it holds no
other one of the same call.
-/

namespace Why3.ResultBuffer

open Runs List

variable {A D R : Type}

/-! ## The bindings of one call -/

section OfCall

variable {id id' : ℕ} {u : ProverUpdate R} {l l' : List (ℕ × ProverUpdate R)}

@[simp] theorem ofCall_nil : ofCall id ([] : List (ℕ × ProverUpdate R)) = [] := rfl

@[simp] theorem ofCall_cons_self : ofCall id ((id, u) :: l) = u :: ofCall id l := by
  simp [ofCall]

theorem ofCall_cons_of_ne (h : id' ≠ id) : ofCall id ((id', u) :: l) = ofCall id l := by
  simp [ofCall, h]

@[simp] theorem ofCall_append : ofCall id (l ++ l') = ofCall id l ++ ofCall id l' := by
  simp [ofCall]

theorem lookup_eq : l.lookup id = (ofCall id l).head? := by
  induction l with
  | nil => rfl
  | cons e l ih =>
    obtain ⟨id', u⟩ := e
    by_cases h : id' = id
    · subst h
      rw [lookup_cons_self, ofCall_cons_self, head?_cons]
    · rw [ofCall_cons_of_ne h, ← ih, List.lookup_cons, beq_eq_false_iff_ne.mpr (Ne.symm h)]

theorem ofCall_eraseP : ofCall id (l.eraseP fun e => e.1 = id) = (ofCall id l).tail := by
  induction l with
  | nil => rfl
  | cons e l ih =>
    obtain ⟨id', u⟩ := e
    by_cases h : id' = id
    · subst h
      rw [eraseP_cons_of_pos (by simp), ofCall_cons_self, tail_cons]
    · rw [eraseP_cons_of_neg (by simpa using h), ofCall_cons_of_ne h, ofCall_cons_of_ne h, ih]

theorem ofCall_eraseP_of_ne (hne : id' ≠ id) :
    ofCall id (l.eraseP fun e => e.1 = id') = ofCall id l := by
  induction l with
  | nil => rfl
  | cons e l ih =>
    obtain ⟨id₀, u⟩ := e
    by_cases h : id₀ = id'
    · subst h
      rw [eraseP_cons_of_pos (by simp), ofCall_cons_of_ne hne]
    · rw [eraseP_cons_of_neg (by simpa using h)]
      by_cases h' : id₀ = id
      · subst h'
        rw [ofCall_cons_self, ofCall_cons_self, ih]
      · rw [ofCall_cons_of_ne h', ofCall_cons_of_ne h', ih]

theorem ofCall_hashtblIter (hash : ℕ → ℕ) {n : ℕ} (hn : 0 < n) :
    ofCall id (hashtblIter hash n l) = ofCall id l := by
  have hlt := Nat.mod_lt (hash id) hn
  have hbucket : ∀ m, ((List.range m).flatMap fun i => l.filter fun e => hash e.1 % n = i).filter
      (fun e => e.1 = id) = if hash id % n < m then l.filter (fun e => e.1 = id) else [] := by
    intro m
    induction m with
    | zero => rfl
    | succ m ih =>
      rw [range_succ, flatMap_append, filter_append, ih, flatMap_singleton,
        filter_filter]
      by_cases hm : hash id % n = m
      · have hfilter : l.filter (fun e => decide (e.1 = id) && decide (hash e.1 % n = m)) =
            l.filter fun e => e.1 = id := by
          refine filter_congr fun e _ => ?_
          by_cases he : e.1 = id
          · rw [he]
            simp [hm]
          · simp [he]
        rw [if_neg (by omega), if_pos (by omega), hfilter, nil_append]
      · have hfilter : l.filter (fun e => decide (e.1 = id) && decide (hash e.1 % n = m)) = [] := by
          rw [filter_eq_nil_iff]
          intro e _
          by_cases he : e.1 = id
          · rw [he]
            simp [hm]
          · simp [he]
        rw [hfilter, append_nil]
        by_cases hlt : hash id % n < m
        · rw [if_pos hlt, if_pos (by omega)]
        · rw [if_neg hlt, if_neg (by omega)]
  rw [ofCall, hashtblIter, hbucket n, if_pos hlt]
  rfl

/-- Whether `get_new_results` returns an update. -/
def reported (blocking : Bool) : ProverUpdate R → Bool
  | .proverStarted => !blocking
  | .proverFinished _ => true

theorem newResults_eq (hash : ℕ → ℕ) (n : ℕ) (blocking : Bool) :
    newResults hash n blocking l =
      ((hashtblIter hash n l).filter fun e => reported blocking e.2).reverse := by
  rw [newResults]
  suffices hfold : ∀ (l q : List (ℕ × ProverUpdate R)), l.foldl (takeUpdate blocking) q =
      (l.filter fun e => reported blocking e.2).reverse ++ q by
    rw [hfold, append_nil]
  intro l
  induction l with
  | nil => exact fun q => rfl
  | cons e l ih =>
    intro q
    obtain ⟨id, u⟩ := e
    rw [foldl_cons, ih, filter_cons]
    cases u <;> cases blocking <;> simp [reported, takeUpdate]

theorem ofCall_newResults (hash : ℕ → ℕ) {n : ℕ} (hn : 0 < n) (blocking : Bool) :
    ofCall id (newResults hash n blocking l) = (ofCall id l).reverse.filter (reported blocking) := by
  have hiter : ofCall id (hashtblIter hash n l) = ofCall id l := ofCall_hashtblIter hash hn
  rw [newResults_eq, ← hiter, ofCall, ofCall, filter_reverse, map_reverse,
    filter_reverse, List.filter_map, filter_filter, filter_filter]
  refine congrArg List.reverse (congrArg (List.map Prod.snd) (filter_congr fun e _ => ?_))
  rw [Bool.and_comm]
  rfl

end OfCall

/-! ## The invariant -/

section Invariant

/-- The updates of one call that a server sends. -/
inductive Sent : List (ProverUpdate R) → Prop
  | nil : Sent []
  | started : Sent [.proverStarted]
  | finished (r : R) : Sent [.proverStarted, .proverFinished r]

/-- `Started`, `Finished`, with `Started` possibly omitted, or a prefix of this. -/
inductive InOrder : List (ProverUpdate R) → Prop
  | nil : InOrder []
  | single (u : ProverUpdate R) : InOrder [u]
  | both (r : R) : InOrder [.proverStarted, .proverFinished r]

theorem Sent.inOrder {l l' : List (ProverUpdate R)} (h : Sent l) (hl : l'.Sublist l) :
    InOrder l' := by
  cases h with
  | nil =>
    rw [sublist_nil.mp hl]
    exact .nil
  | started =>
    rcases sublist_singleton.mp hl with rfl | rfl
    · exact .nil
    · exact .single _
  | finished r =>
    rcases sublist_cons_iff.mp hl with hl' | ⟨l'', rfl, hl'⟩
    · rcases sublist_singleton.mp hl' with rfl | rfl
      · exact .nil
      · exact .single _
    · rcases sublist_singleton.mp hl' with rfl | rfl
      · exact .single _
      · exact .both r

structure Inv (s : State D R) : Prop where
  sent : ∀ id, Sent (ofCall id s.received)
  order : ∀ id, (ofCall id s.returned ++ (ofCall id s.resultBuffer).reverse).Sublist
    (ofCall id s.received)
  held : ∀ id r, .proverFinished r ∈ ofCall id s.received →
    .proverFinished r ∈ ofCall id s.returned ∨ .proverFinished r ∈ ofCall id s.resultBuffer

/-- A list holds both updates of a call. -/
def Mixed (l : List (ProverUpdate R)) : Prop :=
  .proverStarted ∈ l ∧ ∃ r, .proverFinished r ∈ l

variable {s s' : State D R} {id : ℕ}

theorem Inv.buffered (h : Inv s) (id : ℕ) : InOrder (ofCall id s.resultBuffer).reverse :=
  (h.sent id).inOrder ((sublist_append_right _ _).trans (h.order id))

/-- Without both updates, the buffer holds one binding of a call at most. -/
theorem Inv.single (h : Inv s) (hm : ¬ Mixed (ofCall id s.resultBuffer)) :
    ofCall id s.resultBuffer = [] ∨ ∃ u, ofCall id s.resultBuffer = [u] := by
  have hord := h.buffered id
  generalize hl : (ofCall id s.resultBuffer).reverse = l at hord
  rw [reverse_eq_iff] at hl
  cases hord with
  | nil => exact .inl hl
  | single u => exact .inr ⟨u, hl⟩
  | both r =>
    refine absurd ⟨?_, r, ?_⟩ hm <;> rw [hl] <;> simp

/-- `Finished` is the latest binding of its call. -/
theorem Inv.head (h : Inv s) {r : R} (hr : .proverFinished r ∈ ofCall id s.resultBuffer) :
    (ofCall id s.resultBuffer).head? = some (.proverFinished r) := by
  have hord := h.buffered id
  generalize hl : (ofCall id s.resultBuffer).reverse = l at hord
  rw [reverse_eq_iff] at hl
  rw [hl] at hr ⊢
  cases hord with
  | nil => cases hr
  | single u => rw [mem_singleton.mp hr]; rfl
  | both r' =>
    simp only [reverse_cons, reverse_nil, nil_append, cons_append,
      mem_cons, ProverUpdate.proverFinished.injEq, reduceCtorEq, not_mem_nil,
      or_false] at hr
    rw [hr]
    rfl

theorem inv_init : Inv (State.init : State D R) :=
  ⟨fun _ => .nil, fun _ => .refl _, fun _ _ h => absurd h not_mem_nil⟩

end Invariant

/-! ## Fetching -/

section Fetch

variable {parse : D → A → Option R} {s s' : State D R} {id : ℕ}

theorem fetchOne_cases {a : Answer A} (hf : fetchOne parse s a = some s') :
    ∃ id u, s'.resultBuffer = (id, u) :: s.resultBuffer ∧ s'.received = s.received ++ [(id, u)] ∧
      s'.returned = s.returned ∧
      ((a = .started id ∧ u = .proverStarted ∧ (ofCall id s.received).length = 0) ∨
        ∃ x r, a = .finished id x ∧ u = .proverFinished r ∧
          (ofCall id s.received).length = 1) := by
  unfold fetchOne at hf
  split at hf
  · next hmay =>
      cases a with
      | started id =>
        obtain rfl := Option.some.inj hf
        exact ⟨id, .proverStarted, rfl, rfl, rfl, .inl ⟨rfl, rfl, hmay.2.2⟩⟩
      | finished id x =>
        rw [handleAnswer] at hf
        cases hsave : s.savedData.lookup id with
        | none => rw [hsave] at hf; cases hf
        | some save =>
          rw [hsave] at hf
          obtain ⟨y, hy, rfl⟩ := Option.map_eq_some_iff.mp hf
          obtain ⟨r, -, rfl⟩ := Option.map_eq_some_iff.mp hy
          exact ⟨id, .proverFinished r, rfl, rfl, rfl, .inr ⟨x, r, rfl, rfl, hmay⟩⟩
  · cases hf

theorem fetchOne_inv {a : Answer A} (h : Inv s) (hf : fetchOne parse s a = some s') : Inv s' := by
  obtain ⟨id, u, hbuf, hrec, hret, hans⟩ := fetchOne_cases hf
  refine ⟨fun id' => ?_, fun id' => ?_, fun id' r hr => ?_⟩
  · rw [hrec, ofCall_append]
    by_cases hid : id = id'
    · subst hid
      rw [ofCall_cons_self, ofCall_nil]
      have hsent := h.sent id
      rcases hans with ⟨-, rfl, hlen⟩ | ⟨x, r, -, rfl, hlen⟩
      · rw [length_eq_zero_iff.mp hlen]
        exact .started
      · generalize ofCall id s.received = l at hsent hlen
        cases hsent with
        | nil => cases hlen
        | started => exact .finished r
        | finished r' => cases hlen
    · rw [ofCall_cons_of_ne hid, ofCall_nil, append_nil]
      exact h.sent id'
  · rw [hrec, hbuf, hret, ofCall_append]
    by_cases hid : id = id'
    · subst hid
      rw [ofCall_cons_self, ofCall_cons_self, ofCall_nil, reverse_cons, ← append_assoc]
      exact (h.order id).append (.refl _)
    · rw [ofCall_cons_of_ne hid, ofCall_cons_of_ne hid, ofCall_nil, append_nil]
      exact h.order id'
  · rw [hrec, ofCall_append, mem_append] at hr
    rw [hbuf, hret]
    by_cases hid : id = id'
    · subst hid
      rw [ofCall_cons_self, ofCall_nil] at hr
      rw [ofCall_cons_self]
      rcases hr with hr | hr
      · exact (h.held id r hr).imp_right (mem_cons_of_mem _)
      · rw [mem_singleton.mp hr]
        exact .inr mem_cons_self
    · rw [ofCall_cons_of_ne hid, ofCall_nil] at hr
      rw [ofCall_cons_of_ne hid]
      exact h.held id' r (hr.resolve_right not_mem_nil)

/-- The batch brings the update. -/
def InBatch (id : ℕ) (batch : List (Answer A)) : ProverUpdate R → Prop
  | .proverStarted => .started id ∈ batch
  | .proverFinished _ => ∃ x, .finished id x ∈ batch

/-- A fetch keeps the invariant, and adds only what it reads. -/
structure Fetched (s s' : State D R) (batch : List (Answer A)) : Prop where
  inv : Inv s'
  returned : s'.returned = s.returned
  received : ∀ e ∈ s.received, e ∈ s'.received
  buffer : ∀ id, ∀ u ∈ ofCall id s'.resultBuffer, u ∈ ofCall id s.resultBuffer ∨ InBatch id batch u

theorem fetch_spec {batch : List (Answer A)} (h : Inv s)
    (hf : fetchNewResults parse s batch = some s') : Fetched s s' batch := by
  rw [fetchNewResults] at hf
  induction batch generalizing s with
  | nil =>
    obtain rfl := Option.some.inj hf
    exact ⟨h, rfl, fun e he => he, fun id u hu => .inl hu⟩
  | cons a batch ih =>
    rw [foldlM_cons] at hf
    obtain ⟨s₁, h₁, hf⟩ := Option.bind_eq_some_iff.mp hf
    obtain ⟨id, u, hbuf, hrec, hret, hans⟩ := fetchOne_cases h₁
    have hrest := ih (fetchOne_inv h h₁) hf
    refine ⟨hrest.inv, hrest.returned.trans hret, fun e he => ?_, fun id' u' hu' => ?_⟩
    · apply hrest.received
      rw [hrec]
      exact mem_append_left _ he
    · rcases hrest.buffer id' u' hu' with hu | hu
      · rw [hbuf] at hu
        by_cases hid : id = id'
        · subst hid
          rw [ofCall_cons_self] at hu
          rcases mem_cons.mp hu with rfl | hu
          · right
            rcases hans with ⟨rfl, rfl, -⟩ | ⟨x, r, rfl, rfl, -⟩
            · exact mem_cons_self
            · exact ⟨x, mem_cons_self⟩
          · exact .inl hu
        · rw [ofCall_cons_of_ne hid] at hu
          exact .inl hu
      · right
        cases u' with
        | proverStarted => exact mem_cons_of_mem _ hu
        | proverFinished r =>
          obtain ⟨x, hx⟩ := hu
          exact ⟨x, mem_cons_of_mem _ hx⟩

/-- Both updates of a call are in the buffer, or in a batch that is read next. -/
def Both (l : List (ProverUpdate R)) (id : ℕ) (batch : List (Answer A)) : Prop :=
  (.proverStarted ∈ l ∨ .started id ∈ batch) ∧
    ((∃ r, .proverFinished r ∈ l) ∨ ∃ x, .finished id x ∈ batch)

theorem Fetched.not_mixed {batch : List (Answer A)} (hf : Fetched s s' batch)
    (hb : ¬ Both (ofCall id s.resultBuffer) id batch) : ¬ Mixed (ofCall id s'.resultBuffer) := by
  rintro ⟨hs, r, hr⟩
  refine hb ⟨hf.buffer id _ hs, ?_⟩
  rcases hf.buffer id _ hr with hr | hr
  · exact .inl ⟨r, hr⟩
  · exact .inr hr

end Fetch

/-! ## Returning -/

section Return

variable {s : State D R} {id : ℕ}

theorem queryResultBuffer_eq (s : State D R) (id : ℕ) :
    queryResultBuffer s id = ((ofCall id s.resultBuffer).head?,
      { s with resultBuffer := s.resultBuffer.eraseP fun e => e.1 = id }) := by
  rw [queryResultBuffer, lookup_eq]
  cases hl : ofCall id s.resultBuffer with
  | cons u l => rfl
  | nil =>
    have hnone : s.resultBuffer.eraseP (fun e => decide (e.1 = id)) = s.resultBuffer := by
      refine eraseP_of_forall_not fun e he => ?_
      intro hid
      have hmem : e.2 ∈ ofCall id s.resultBuffer :=
        mem_map.mpr ⟨e, mem_filter.mpr ⟨he, hid⟩, rfl⟩
      rw [hl] at hmem
      cases hmem
    rw [hnone]
    rfl

/-- The only binding of the call is taken and returned. -/
theorem returnUpdate_inv (h : Inv s) (hm : ¬ Mixed (ofCall id s.resultBuffer)) :
    Inv (returnUpdate s id) := by
  rw [returnUpdate, queryResultBuffer_eq]
  rcases h.single hm with hnil | ⟨u, hu⟩
  · rw [hnil]
    refine ⟨h.sent, fun id' => ?_, fun id' r hr => ?_⟩
    · by_cases hid : id = id'
      · subst hid
        have := h.order id
        rw [hnil] at this
        simpa [ofCall_eraseP, hnil] using this
      · simpa [ofCall_eraseP_of_ne hid] using h.order id'
    · by_cases hid : id = id'
      · subst hid
        have := h.held id r hr
        rw [hnil] at this
        exact .inl (this.resolve_right not_mem_nil)
      · simpa [ofCall_eraseP_of_ne hid] using h.held id' r hr
  · rw [hu]
    refine ⟨h.sent, fun id' => ?_, fun id' r hr => ?_⟩
    · by_cases hid : id = id'
      · subst hid
        have := h.order id
        rw [hu] at this
        simpa [ofCall_eraseP, hu] using this
      · simpa [ofCall_eraseP_of_ne hid, ofCall_cons_of_ne hid] using h.order id'
    · by_cases hid : id = id'
      · subst hid
        have := h.held id r hr
        rw [hu, mem_singleton] at this
        left
        simpa [hu] using this
      · simpa [ofCall_eraseP_of_ne hid, ofCall_cons_of_ne hid] using h.held id' r hr

theorem drop_inv (h : Inv s) (hm : ¬ Mixed (ofCall id s.resultBuffer))
    (hne : ∀ r, (ofCall id s.resultBuffer).head? ≠ some (.proverFinished r)) :
    Inv { s with resultBuffer := s.resultBuffer.eraseP fun e => e.1 = id } ∧
      ofCall id (s.resultBuffer.eraseP fun e => e.1 = id) = [] := by
  have htail : (ofCall id s.resultBuffer).tail = [] := by
    rcases h.single hm with hnil | ⟨u, hu⟩
    · rw [hnil]
      rfl
    · rw [hu]
      rfl
  refine ⟨⟨h.sent, fun id' => ?_, fun id' r hr => ?_⟩, ofCall_eraseP.trans htail⟩
  · dsimp only
    by_cases hid : id = id'
    · subst hid
      rw [ofCall_eraseP, htail]
      rw [reverse_nil, append_nil]
      exact (sublist_append_left _ _).trans (h.order id)
    · rw [ofCall_eraseP_of_ne hid]
      exact h.order id'
  · dsimp only
    by_cases hid : id = id'
    · subst hid
      refine .inl ((h.held id r hr).resolve_right fun hbuf => ?_)
      exact hne r (h.head hbuf)
    · rw [ofCall_eraseP_of_ne hid]
      exact h.held id' r hr

theorem getNewResults_inv (h : Inv s) (hash : ℕ → ℕ) {n : ℕ} (hn : 0 < n) (blocking : Bool) :
    Inv (getNewResults hash n blocking s) := by
  refine ⟨h.sent, fun id => ?_, fun id r hr => ?_⟩
  · rw [getNewResults, ofCall_append, ofCall_newResults hash hn, ofCall_nil, reverse_nil,
      append_nil]
    exact (List.Sublist.append (.refl _) filter_sublist).trans (h.order id)
  · rw [getNewResults, ofCall_append, ofCall_newResults hash hn, mem_append, mem_filter,
      mem_reverse]
    exact .inl ((h.held id r hr).imp_right fun hbuf => ⟨hbuf, rfl⟩)

end Return

/-! ## Runs -/

section Runs

variable {parse : D → A → Option R} {hash : ℕ → ℕ} {s s' : State D R}

/-- No call is queried or waited for while both its updates are in the buffer, or come in
one batch. -/
def Apart (s : State D R) : Act A D → Prop
  | .call _ | .getNew _ _ _ => True
  | .query id batch => ¬ Both (ofCall id s.resultBuffer) id batch
  | .wait id batches => ¬ Mixed (ofCall id s.resultBuffer) ∧
      ∀ batch ∈ batches, ¬ Both ([] : List (ProverUpdate R)) id batch

theorem waitOnCall_inv {id : ℕ} {batches : List (List (Answer A))} (h : Inv s)
    (hm : ¬ Mixed (ofCall id s.resultBuffer))
    (hb : ∀ batch ∈ batches, ¬ Both ([] : List (ProverUpdate R)) id batch)
    (hs : waitOnCall parse id batches s = some s') : Inv s' := by
  induction batches generalizing s with
  | nil =>
    rw [waitOnCall] at hs
    have hret := returnUpdate_inv h hm
    rw [returnUpdate] at hret
    rw [queryResultBuffer_eq] at hs hret
    split at hs
    · next r s₁ heq =>
        obtain ⟨hhead, rfl⟩ := Prod.mk.inj heq
        rw [hhead] at hret
        rw [← Option.some.inj hs]
        exact hret
    · next o s₁ hne heq =>
        obtain ⟨rfl, rfl⟩ := Prod.mk.inj heq
        rw [← Option.some.inj hs]
        refine (drop_inv h hm fun r hr => ?_).1
        exact hne r hr
  | cons batch batches ih =>
    rw [waitOnCall, queryResultBuffer_eq] at hs
    split at hs
    · cases hs
    · next o s₁ hne heq =>
        obtain ⟨rfl, rfl⟩ := Prod.mk.inj heq
        obtain ⟨hinv, hnil⟩ := drop_inv h hm fun r hr => hne r hr
        obtain ⟨s₂, hfetch, hs⟩ := Option.bind_eq_some_iff.mp hs
        have hf := fetch_spec hinv hfetch
        refine ih hf.inv (hf.not_mixed ?_) (fun b hb' => hb b (mem_cons_of_mem _ hb')) hs
        dsimp only
        rw [hnil]
        exact hb batch mem_cons_self

theorem step_inv {a : Act A D} (h : Inv s) (hok : Apart s a) (hs : step parse hash s a = some s') :
    Inv s' := by
  cases a with
  | call save =>
    obtain rfl := Option.some.inj hs
    exact ⟨h.sent, h.order, h.held⟩
  | query id batch =>
    obtain ⟨s₁, hfetch, rfl⟩ := Option.map_eq_some_iff.mp hs
    have hf := fetch_spec h hfetch
    exact returnUpdate_inv hf.inv (hf.not_mixed hok)
  | getNew blocking n batch =>
    rw [step] at hs
    split at hs
    · next hn =>
        obtain ⟨s₁, hfetch, rfl⟩ := Option.map_eq_some_iff.mp hs
        exact getNewResults_inv (fetch_spec h hfetch).inv hash hn blocking
    · cases hs
  | wait id batches => exact waitOnCall_inv h hok.1 hok.2 hs

/-- The updates of a call are returned in order and once; and `Finished` is there for the
next query until it was returned. -/
structure Delivered (parse : D → A → Option R) (s : State D R) : Prop where
  order : ∀ id, InOrder (ofCall id s.returned)
  held : ∀ id r, .proverFinished r ∈ ofCall id s.received →
    .proverFinished r ∉ ofCall id s.returned → ∀ (batch : List (Answer A)) s',
      fetchNewResults parse s batch = some s' →
        (queryResultBuffer s' id).1 = some (.proverFinished r)

theorem Inv.delivered (h : Inv s) : Delivered parse s where
  order id := (h.sent id).inOrder ((sublist_append_left _ _).trans (h.order id))
  held id r hr hnot batch s' hfetch := by
    have hf := fetch_spec h hfetch
    have hr' : .proverFinished r ∈ ofCall id s'.received := by
      obtain ⟨e, he, heq⟩ := mem_map.mp hr
      obtain ⟨he, hid⟩ := mem_filter.mp he
      exact mem_map.mpr ⟨e, mem_filter.mpr ⟨hf.received e he, hid⟩, heq⟩
    have hbuf := (hf.inv.held id r hr').resolve_left (by rwa [hf.returned])
    rw [queryResultBuffer_eq]
    exact hf.inv.head hbuf

/-- In every run that keeps the two updates of a call apart, they are delivered in order and
once. -/
theorem updates_delivered (parse : D → A → Option R) (hash : ℕ → ℕ)
    (h : Run (step parse hash) Apart State.init s) : Delivered parse s :=
  (h.invariant (P := Inv) (fun _ _ _ hi hok hs => step_inv hi hok hs) inv_init).delivered

/-- A call is waited for, and its updates come one after the other. -/
theorem updates_delivered_wait :
    ∃ s : State Unit Unit, ofCall 1 s.returned = [.proverStarted, .proverFinished ()] ∧
      Delivered (fun _ (_ : Unit) => some ()) s := by
  refine ⟨_, ?_, updates_delivered (fun _ (_ : Unit) => some ()) (fun id => id)
    (((Run.refl.tail (a := .call ()) trivial rfl).tail (a := .query 1 [.started 1]) ?_ rfl).tail
      (a := .wait 1 [[.finished 1 ()]]) ?_ rfl)⟩
  · decide
  · rintro ⟨-, ⟨r, hr⟩ | ⟨x, hx⟩⟩
    · exact absurd hr not_mem_nil
    · simp at hx
  · refine ⟨fun h => absurd h.1 (by decide), fun batch hb => ?_⟩
    rw [mem_singleton.mp hb]
    rintro ⟨h | h, -⟩
    · exact absurd h not_mem_nil
    · simp at h

/-- Both updates come in one batch: the first query returns `Finished`, and the second one
returns `Started`. -/
theorem not_updates_delivered :
    ∃ s : State Unit Unit,
      [Act.call (), .query 1 [.started 1, .finished 1 ()], .query 1 []].foldlM
        (step (fun _ (_ : Unit) => some ()) (fun id => id)) State.init = some s ∧
      ofCall 1 s.returned = [.proverFinished (), .proverStarted] ∧
      ¬ Delivered (fun _ (_ : Unit) => some ()) s := by
  refine ⟨_, rfl, by decide, fun h => ?_⟩
  have hord := h.order 1
  have hret : ofCall 1 [(1, ProverUpdate.proverFinished ()), (1, .proverStarted)] =
      [.proverFinished (), .proverStarted] := rfl
  change InOrder (ofCall 1 [(1, ProverUpdate.proverFinished ()), (1, .proverStarted)]) at hord
  rw [hret] at hord
  cases hord

end Runs

end Why3.ResultBuffer
