import Why3.Server.Containers

/-!
# The circular queue on machine integers

`server/queue.c` again, with indices of type `unsigned int` and with its accesses to memory: an
access outside of the array and a copy between areas that overlap give `none`.  The sum of the
head and the length may wrap although the capacity does not.
-/

namespace Why3.Server.Unsigned

open List Function

variable {α : Type}

/-- An `unsigned int`. -/
def uint (n : ℕ) : ℕ := n % 2 ^ 32

/-- `t_queue`; a cell that was not written holds nothing. -/
structure TQueue (α : Type) where
  capacity : ℕ
  len : ℕ
  pointer : ℕ
  data : ℕ → Option α

def initQueue (capacity : ℕ) : TQueue α := ⟨capacity, 0, 0, fun _ => none⟩

def queuePop (q : TQueue α) : Option (α × TQueue α) :=
  if 0 < q.len ∧ q.pointer < q.capacity then
    (q.data q.pointer).map fun x =>
      (x, { q with len := q.len - 1, pointer := uint (q.pointer + 1) % q.capacity })
  else none

def simplePush (q : TQueue α) (elt : α) : Option (TQueue α) :=
  let i := uint (q.pointer + q.len) % q.capacity
  if i < q.capacity then
    some { q with len := uint (q.len + 1), data := update q.data i (some elt) }
  else none

/-- `memcpy` copies `n` cells from `pointer` to `newP`. -/
def resizeQueue (q : TQueue α) : Option (TQueue α) :=
  let newCap := uint (2 * q.capacity)
  let newP := uint (newCap + (2 ^ 32 - q.capacity) + q.pointer)
  let n := uint (q.capacity + (2 ^ 32 - q.pointer))
  if q.pointer + n ≤ newCap ∧ newP + n ≤ newCap ∧
      (q.pointer + n ≤ newP ∨ newP + n ≤ q.pointer) then
    some { q with
      capacity := newCap
      pointer := newP
      data := fun j =>
        if newP ≤ j ∧ j < newP + n then q.data (j - newP + q.pointer) else q.data j }
  else none

def queuePush (q : TQueue α) (elt : α) : Option (TQueue α) :=
  if q.len = q.capacity then (resizeQueue q).bind (simplePush · elt) else simplePush q elt

def queueLength (q : TQueue α) : ℕ := q.len

/-! ## Runs -/

inductive Op (α : Type)
  | push (x : α)
  | pop

/-- The queue after some calls, and the elements popped. -/
def run : TQueue α → List (Op α) → Option (TQueue α × List α)
  | q, [] => some (q, [])
  | q, .push x :: ops => (queuePush q x).bind (run · ops)
  | q, .pop :: ops =>
    (queuePop q).bind fun (x, q') => (run q' ops).map fun (q'', l) => (q'', x :: l)

def pushed : List (Op α) → List α
  | [] => []
  | .push x :: ops => x :: pushed ops
  | .pop :: ops => pushed ops

/-- Pops are called on non-empty queues only, when there are `n` elements at first. -/
def PopsLegal : ℕ → List (Op α) → Prop
  | _, [] => True
  | n, .push _ :: ops => PopsLegal (n + 1) ops
  | n, .pop :: ops => 0 < n ∧ PopsLegal (n - 1) ops

/-- The property holds before every push of a run. -/
def AtPushes (P : TQueue α → Prop) : TQueue α → List (Op α) → Prop
  | _, [] => True
  | q, .push x :: ops => P q ∧ ∀ q', queuePush q x = some q' → AtPushes P q' ops
  | q, .pop :: ops => ∀ x q', queuePop q = some (x, q') → AtPushes P q' ops

section AtPushes

variable {P : TQueue α → Prop} {q q' : TQueue α} {x : α} {ops : List (Op α)}

theorem AtPushes.push (hq : P q) (h : queuePush q x = some q') (hat : AtPushes P q' ops) :
    AtPushes P q (.push x :: ops) := by
  refine ⟨hq, fun r hr => ?_⟩
  obtain rfl := Option.some.inj (h.symm.trans hr)
  exact hat

theorem AtPushes.pop (h : queuePop q = some (x, q')) (hat : AtPushes P q' ops) :
    AtPushes P q (.pop :: ops) := by
  intro y r hr
  obtain ⟨-, rfl⟩ := Prod.mk.inj (Option.some.inj (h.symm.trans hr))
  exact hat

end AtPushes

/-- The capacity does not overflow when it is doubled. -/
def CapacityFits (q : TQueue α) : Prop := q.len = q.capacity → 2 * q.capacity < 2 ^ 32

/-- The sum that gives the index of the next element does not wrap; in a full queue the head is
moved first. -/
def IndexFits (q : TQueue α) : Prop :=
  (if q.len = q.capacity then 2 * q.capacity + q.pointer else q.pointer + q.len) < 2 ^ 32

instance (q : TQueue α) : Decidable (IndexFits q) := inferInstanceAs (Decidable (_ < _))

/-- Every access is inside of the array, no copy overlaps, and the elements come out in the
order in which they were pushed. -/
def Fifo (capacity : ℕ) (ops : List (Op α)) : Prop :=
  ∃ q popped rest, run (initQueue capacity) ops = some (q, popped) ∧
    pushed ops = popped ++ rest ∧ queueLength q = rest.length

/-! ## The queue without wrapping -/

def ofQueue (q : Queue α) : TQueue α := ⟨q.capacity, q.len, q.pointer, q.data⟩

theorem uint_of_lt {n : ℕ} (h : n < 2 ^ 32) : uint n = n := Nat.mod_eq_of_lt h

section Refines

variable {q : Queue α}

theorem length_toList (q : Queue α) : q.toList.length = q.len := by
  have hlen : q.toList.length = (List.range q.len).length :=
    filterMap_length_eq_length.mpr fun i hi => q.written i (mem_range.mp hi)
  rw [hlen, length_range]

theorem queuePop_ofQueue (hcap : q.capacity < 2 ^ 32) :
    queuePop (ofQueue q) = (Server.queuePop q).map fun r => (r.1, ofQueue r.2) := by
  have hp := q.pointer_lt
  by_cases h : 0 < q.len
  · rw [queuePop, if_pos ⟨h, hp⟩, Server.queuePop, dif_pos h, Option.map_map]
    simp only [ofQueue, uint_of_lt (show q.pointer + 1 < 2 ^ 32 by omega)]
    rfl
  · rw [queuePop, if_neg (fun hh => h hh.1), Server.queuePop, dif_neg h]
    rfl

theorem simplePush_ofQueue {x : α} (h : q.len < q.capacity) (hcap : q.capacity < 2 ^ 32)
    (hsum : q.pointer + q.len < 2 ^ 32) :
    simplePush (ofQueue q) x = some (ofQueue (Server.simplePush q x h)) := by
  simp only [simplePush, ofQueue, uint_of_lt hsum,
    uint_of_lt (show q.len + 1 < 2 ^ 32 by omega)]
  exact if_pos (Nat.mod_lt _ q.capacity_pos)

theorem resizeQueue_ofQueue (hcap : 2 * q.capacity < 2 ^ 32) :
    resizeQueue (ofQueue q) = some (ofQueue (Server.resizeQueue q)) := by
  have hp := q.pointer_lt
  have hnewP : uint (2 * q.capacity + (2 ^ 32 - q.capacity) + q.pointer) =
      2 * q.capacity - q.capacity + q.pointer := by
    unfold uint
    omega
  have hn : uint (q.capacity + (2 ^ 32 - q.pointer)) = q.capacity - q.pointer := by
    unfold uint
    omega
  simp only [resizeQueue, ofQueue, uint_of_lt hcap, hnewP, hn]
  exact if_pos (by omega)

theorem queuePush_ofQueue {x : α} (hcap : q.capacity < 2 ^ 32) (hfits : IndexFits (ofQueue q)) :
    queuePush (ofQueue q) x = some (ofQueue (Server.queuePush q x)) := by
  have hpos := q.capacity_pos
  by_cases h : q.len = q.capacity
  · have hsum : 2 * q.capacity + q.pointer < 2 ^ 32 := by
      rw [IndexFits, if_pos (show (ofQueue q).len = (ofQueue q).capacity from h)] at hfits
      exact hfits
    rw [queuePush, if_pos (show (ofQueue q).len = (ofQueue q).capacity from h),
      resizeQueue_ofQueue (by omega), Server.queuePush, dif_pos h]
    apply simplePush_ofQueue
    · show 2 * q.capacity < 2 ^ 32
      omega
    · show 2 * q.capacity - q.capacity + q.pointer + q.len < 2 ^ 32
      omega
  · have hsum : q.pointer + q.len < 2 ^ 32 := by
      rw [IndexFits, if_neg (show ¬ (ofQueue q).len = (ofQueue q).capacity from h)] at hfits
      exact hfits
    rw [queuePush, if_neg (show ¬ (ofQueue q).len = (ofQueue q).capacity from h),
      Server.queuePush, dif_neg h]
    exact simplePush_ofQueue _ hcap hsum

theorem capacity_queuePush {x : α} (hcap : q.capacity < 2 ^ 32)
    (hfits : IndexFits (ofQueue q)) : (Server.queuePush q x).capacity < 2 ^ 32 := by
  unfold Server.queuePush
  split_ifs with h
  · show 2 * q.capacity < 2 ^ 32
    rw [IndexFits, if_pos (show (ofQueue q).len = (ofQueue q).capacity from h)] at hfits
    exact (Nat.le_add_right _ _).trans_lt hfits
  · exact hcap

end Refines

theorem run_ofQueue : ∀ (ops : List (Op α)) (q : Queue α), q.capacity < 2 ^ 32 →
    PopsLegal q.len ops → AtPushes IndexFits (ofQueue q) ops →
    ∃ q' popped, run (ofQueue q) ops = some (ofQueue q', popped) ∧
      q.toList ++ pushed ops = popped ++ q'.toList
  | [], q, _, _, _ => ⟨q, [], rfl, by simp [pushed]⟩
  | .push x :: ops, q, hcap, hlegal, hat => by
    have hpush := queuePush_ofQueue (x := x) hcap hat.1
    have hlen : (Server.queuePush q x).len = q.len + 1 := by
      rw [← length_toList, toList_queuePush, length_append, length_toList]
      rfl
    obtain ⟨q', popped, hrun, heq⟩ := run_ofQueue ops (Server.queuePush q x)
      (capacity_queuePush hcap hat.1) (hlen ▸ hlegal) (hat.2 _ hpush)
    refine ⟨q', popped, ?_, ?_⟩
    · rw [run, hpush]
      exact hrun
    · rw [← heq, toList_queuePush, append_assoc]
      rfl
  | .pop :: ops, q, hcap, hlegal, hat => by
    have hne : queueIsEmpty q = false := by
      rw [queueIsEmpty, decide_eq_false_iff_not]
      exact hlegal.1.ne'
    obtain ⟨x, q₁, hpop, hlist, -⟩ := queuePop_spec hne
    have hpop' : queuePop (ofQueue q) = some (x, ofQueue q₁) := by
      rw [queuePop_ofQueue hcap, hpop]
      rfl
    have hlen : q₁.len = q.len - 1 := by
      have := congrArg List.length hlist
      rw [length_cons, length_toList, length_toList] at this
      omega
    have hcap₁ : q₁.capacity < 2 ^ 32 := by
      rw [Server.queuePop, dif_pos hlegal.1, Option.map_eq_some_iff] at hpop
      obtain ⟨_, _, heq⟩ := hpop
      obtain rfl := (Prod.ext_iff.mp heq).2
      exact hcap
    obtain ⟨q', popped, hrun, heq⟩ := run_ofQueue ops q₁ hcap₁ (hlen ▸ hlegal.2)
      (hat _ _ hpop')
    refine ⟨q', x :: popped, ?_, ?_⟩
    · rw [run, hpop']
      show (run (ofQueue q₁) ops).map _ = _
      rw [hrun]
      rfl
    · rw [hlist, cons_append, cons_append, ← heq]
      rfl

/-- Every run in which no sum wraps is one of a FIFO queue. -/
theorem fifo_of_indexFits (capacity : ℕ) (hpos : 0 < capacity) (hcap : capacity < 2 ^ 32)
    (ops : List (Op α)) (hlegal : PopsLegal 0 ops)
    (hfits : AtPushes IndexFits (initQueue capacity) ops) : Fifo capacity ops := by
  obtain ⟨q, popped, hrun, heq⟩ :=
    run_ofQueue ops (Server.initQueue capacity hpos) hcap hlegal hfits
  refine ⟨ofQueue q, popped, q.toList, hrun, ?_, (length_toList q).symm⟩
  rw [← heq, toList_initQueue]
  rfl

/-- The queue is resized when it is full and its head is the second cell. -/
theorem fifo_resized :
    Fifo 2 [.push true, .push false, .pop, .push false, .push true, .pop, .pop, .pop] := by
  apply fifo_of_indexFits 2 two_pos (by decide)
  · simp [PopsLegal]
  · refine .push (by decide) rfl (.push (by decide) rfl (.pop rfl ?_))
    refine .push (by decide) rfl (.push (by decide) rfl ?_)
    exact .pop rfl (.pop rfl (.pop rfl trivial))

/-! ## A capacity for which the sum wraps -/

/-- The run from the queue, in which no capacity overflows, pops these elements. -/
def Pops (q : TQueue α) (ops : List (Op α)) (l : List α) : Prop :=
  (∃ q', run q ops = some (q', l)) ∧ AtPushes CapacityFits q ops

section Pops

variable {c n p : ℕ} {data : ℕ → Option α} {x : α} {ops : List (Op α)} {l : List α}

theorem Pops.push (hn : n < c) (hc : c < 2 ^ 32)
    (h : Pops ⟨c, n + 1, p, update data (uint (p + n) % c) (some x)⟩ ops l) :
    Pops ⟨c, n, p, data⟩ (.push x :: ops) l := by
  have hpush : queuePush ⟨c, n, p, data⟩ x =
      some ⟨c, n + 1, p, update data (uint (p + n) % c) (some x)⟩ := by
    rw [queuePush, if_neg hn.ne, simplePush]
    simp only [uint_of_lt (show n + 1 < 2 ^ 32 by omega)]
    exact if_pos (Nat.mod_lt _ (by omega))
  refine ⟨?_, .push (fun heq => absurd heq hn.ne) hpush h.2⟩
  rw [run, hpush]
  exact h.1

theorem Pops.pop (hp : p < c) (hx : data p = some x)
    (h : Pops ⟨c, n, uint (p + 1) % c, data⟩ ops l) :
    Pops ⟨c, n + 1, p, data⟩ (.pop :: ops) (x :: l) := by
  have hpop : queuePop ⟨c, n + 1, p, data⟩ = some (x, ⟨c, n, uint (p + 1) % c, data⟩) := by
    rw [queuePop, if_pos ⟨Nat.succ_pos n, hp⟩]
    simp [hx]
  obtain ⟨⟨q', hrun⟩, hat⟩ := h
  refine ⟨⟨q', ?_⟩, .pop hpop hat⟩
  rw [run, hpop]
  show (run _ ops).map _ = _
  rw [hrun]
  rfl

end Pops

/-- `n` elements go through an empty queue. -/
def cycles : ℕ → List (Op Bool) → List (Op Bool)
  | 0, ops => ops
  | n + 1, ops => .push false :: .pop :: cycles n ops

theorem pops_cycles {c : ℕ} (hc : c < 2 ^ 32) {ops : List (Op Bool)} {l : List Bool} :
    ∀ n p (data : ℕ → Option Bool), p + n < c → (∀ data, Pops ⟨c, 0, p + n, data⟩ ops l) →
      Pops ⟨c, 0, p, data⟩ (cycles n ops) (replicate n false ++ l)
  | 0, _, data, _, h => h data
  | n + 1, p, data, hp, h => by
    have hp0 : uint (p + 0) % c = p := by
      rw [uint_of_lt (by omega), Nat.mod_eq_of_lt (by omega), Nat.add_zero]
    have hp1 : uint (p + 1) % c = p + 1 := by
      rw [uint_of_lt (by omega), Nat.mod_eq_of_lt (by omega)]
    apply Pops.push (by omega) hc
    rw [hp0]
    apply Pops.pop (by omega) (update_self ..)
    rw [hp1]
    apply pops_cycles hc n (p + 1) _ (by omega)
    rwa [show p + 1 + n = p + (n + 1) by omega]

theorem popsLegal_cycles {ops : List (Op Bool)} (h : PopsLegal 0 ops) :
    ∀ n, PopsLegal 0 (cycles n ops)
  | 0 => h
  | n + 1 => ⟨one_pos, popsLegal_cycles h n⟩

theorem pushed_cycles (ops : List (Op Bool)) :
    ∀ n, pushed (cycles n ops) = replicate n false ++ pushed ops
  | 0 => rfl
  | n + 1 => congrArg (false :: ·) (pushed_cycles ops n)

/-- The third of these elements overwrites the second one when the head is the last cell. -/
def lastOps : List (Op Bool) := [.push false, .push false, .push true, .pop, .pop]

theorem pops_lastOps {c : ℕ} (hc : c + 1 = 2 ^ 32) (data : ℕ → Option Bool) :
    Pops ⟨c, 0, c - 1, data⟩ lastOps [false, true] := by
  have h0 : uint (c - 1 + 0) % c = c - 1 := by
    rw [uint_of_lt (by omega), Nat.mod_eq_of_lt (by omega), Nat.add_zero]
  have h1 : uint (c - 1 + 1) % c = 0 := by
    rw [uint_of_lt (by omega), show c - 1 + 1 = c by omega, Nat.mod_self]
  have h2 : uint (c - 1 + 2) % c = 0 := by
    rw [uint, show c - 1 + 2 = 2 ^ 32 by omega, Nat.mod_self, Nat.zero_mod]
  apply Pops.push (by omega) (by omega)
  apply Pops.push (by omega) (by omega)
  apply Pops.push (by omega) (by omega)
  rw [h0, h1, h2]
  apply Pops.pop (by omega)
  · rw [update_of_ne (by omega), update_of_ne (by omega), update_self]
  rw [h1]
  apply Pops.pop (by omega) (update_self ..)
  exact ⟨⟨_, rfl⟩, trivial⟩

theorem not_fifo : ¬ ∀ (capacity : ℕ) (ops : List (Op Bool)), 0 < capacity →
    capacity < 2 ^ 32 → PopsLegal 0 ops → AtPushes CapacityFits (initQueue capacity) ops →
    Fifo capacity ops := by
  intro h
  obtain ⟨c, hc⟩ : ∃ c, c + 1 = 2 ^ 32 := ⟨2 ^ 32 - 1, rfl⟩
  obtain ⟨⟨q', hrun⟩, hat⟩ := pops_cycles (c := c) (by omega) (c - 1) 0 (fun _ => none) (by omega)
    (fun data => by
      rw [Nat.zero_add]
      exact pops_lastOps hc data)
  have hlegal : PopsLegal 0 lastOps := by simp [lastOps, PopsLegal]
  obtain ⟨q, popped, rest, hrun', heq, -⟩ :=
    h c (cycles (c - 1) lastOps) (by omega) (by omega) (popsLegal_cycles hlegal _) hat
  obtain ⟨-, rfl⟩ := Prod.mk.inj (Option.some.inj (hrun.symm.trans hrun'))
  rw [pushed_cycles, append_assoc, append_cancel_left_eq] at heq
  simp [lastOps, pushed] at heq

end Why3.Server.Unsigned
