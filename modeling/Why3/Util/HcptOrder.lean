import Why3.Util.HcptRun
import Why3.Lib.PolyCompare

/-!
# Traversals of Patricia trees

The functions of `Hcpt.MakeMap` that go through a map.  They all meet the bindings from
left to right, in the order of the identifiers read as signed integers, but for
`to_seq_from`: it compares the keys themselves, with the polymorphic comparison.  The
memory that holds the keys is `H`, and `repr k` is the value of `k` there.
-/

namespace Why3.Hcpt

open BitPrefix PolyCompare List Option

/-! ## The traversals -/

section Traversals

variable {ws : WordSize} {K V A : Type}

/-- The effect of `iter f` on a state of type `A`. -/
def iter (f : K → V → A → A) : Tree ws K V → A → A
  | .empty, a => a
  | .leaf _ _ k x, a => f k x a
  | .branch _ _ _ _ t0 t1, a => iter f t1 (iter f t0 a)

def fold (f : K → V → A → A) : Tree ws K V → A → A
  | .empty, accu => accu
  | .leaf _ _ k x, accu => f k x accu
  | .branch _ _ _ _ t0 t1, accu => fold f t1 (fold f t0 accu)

def foldRight (f : K → V → A → A) : Tree ws K V → A → A
  | .empty, accu => accu
  | .leaf _ _ k x, accu => f k x accu
  | .branch _ _ _ _ t0 t1, accu => foldRight f t0 (foldRight f t1 accu)

def keys (m : Tree ws K V) : List K := foldRight (fun k _ acc => k :: acc) m []

/-- `bindings`, as it is written there. -/
def bindingsFold (m : Tree ws K V) : List (K × V) :=
  foldRight (fun k v acc => (k, v) :: acc) m []

/-- `min_binding_opt`; `min_binding` raises `Not_found` instead of `none`. -/
def minBinding : Tree ws K V → Option (K × V)
  | .empty => none
  | .leaf _ _ k v => some (k, v)
  | .branch _ _ _ _ t0 _ => minBinding t0

def maxBinding : Tree ws K V → Option (K × V)
  | .empty => none
  | .leaf _ _ k v => some (k, v)
  | .branch _ _ _ _ _ t1 => maxBinding t1

/-- A sequence is the list of its elements. -/
def prependSeq : Tree ws K V → List (K × V) → List (K × V)
  | .empty, s => s
  | .leaf _ _ k v, s => (k, v) :: s
  | .branch _ _ _ _ l r, s => prependSeq l (prependSeq r s)

def toSeq (m : Tree ws K V) : List (K × V) := prependSeq m []

/-- The `prepend_seq` of `to_seq_from`, which goes through the whole map before it
returns the sequence; `geK` is the comparison with `k`. -/
def prependSeqFrom (geK : K → Except CompareExn Bool) :
    Tree ws K V → List (K × V) → Except CompareExn (List (K × V))
  | .empty, s => .ok s
  | .leaf _ _ key v, s => do
    let b ← geK key
    .ok (if b then (key, v) :: s else s)
  | .branch _ _ _ _ l r, s => do
    let s ← prependSeqFrom geK r s
    prependSeqFrom geK l s

def toSeqFrom (H : Memory) (repr : K → PolyCompare.Value) (fuel : ℕ) (k : K) (m : Tree ws K V) :
    Except CompareExn (List (K × V)) :=
  prependSeqFrom (fun key => ge H fuel (repr key) (repr k)) m []

theorem iter_eq (f : K → V → A → A) (t : Tree ws K V) (a : A) :
    iter f t a = (bindings t).foldl (fun a q => f q.1 q.2 a) a := by
  induction t generalizing a with
  | empty => rfl
  | leaf ad u k v => rfl
  | branch ad u p m t0 t1 ih0 ih1 => rw [iter, bindings, foldl_append, ih0, ih1]

theorem fold_eq (f : K → V → A → A) (t : Tree ws K V) (a : A) :
    fold f t a = (bindings t).foldl (fun a q => f q.1 q.2 a) a := by
  induction t generalizing a with
  | empty => rfl
  | leaf ad u k v => rfl
  | branch ad u p m t0 t1 ih0 ih1 => rw [fold, bindings, foldl_append, ih0, ih1]

theorem foldRight_eq (f : K → V → A → A) (t : Tree ws K V) (a : A) :
    foldRight f t a = (bindings t).foldr (fun q a => f q.1 q.2 a) a := by
  induction t generalizing a with
  | empty => rfl
  | leaf ad u k v => rfl
  | branch ad u p m t0 t1 ih0 ih1 => rw [foldRight, bindings, foldr_append, ih0, ih1]

theorem keys_eq (t : Tree ws K V) : keys t = (bindings t).map Prod.fst := by
  rw [keys, foldRight_eq]
  induction bindings t with
  | nil => rfl
  | cons q l ih => rw [foldr_cons, ih, map_cons]

theorem bindingsFold_eq (t : Tree ws K V) : bindingsFold t = bindings t := by
  rw [bindingsFold, foldRight_eq]
  exact foldr_cons_nil

theorem prependSeq_eq (t : Tree ws K V) (s : List (K × V)) : prependSeq t s = bindings t ++ s := by
  induction t generalizing s with
  | empty => rfl
  | leaf ad u k v => rfl
  | branch ad u p m t0 t1 ih0 ih1 => rw [prependSeq, bindings, ih0, ih1, append_assoc]

end Traversals

/-! ## The first and the last binding -/

section Extremes

variable {ws : WordSize} {K V : Type} {X : Params ws K V} {t : Tree ws K V}

theorem Wf.bindings_ne_nil (h : Wf X t) (ht : t ≠ .empty) : bindings t ≠ [] := by
  obtain ⟨q, hq⟩ := h.exists_mem ht
  exact ne_nil_of_mem hq

theorem minBinding_eq (h : Wf X t) : minBinding t = (bindings t).head? := by
  induction t with
  | empty => rfl
  | leaf a u k v => rfl
  | branch a u p m t0 t1 ih0 ih1 =>
    obtain ⟨-, hne, h0, -⟩ := h
    rw [minBinding, bindings, ih0 h0, head?_append_of_ne_nil _ (h0.bindings_ne_nil hne.1)]

theorem maxBinding_eq (h : Wf X t) : maxBinding t = (bindings t).getLast? := by
  induction t with
  | empty => rfl
  | leaf a u k v => rfl
  | branch a u p m t0 t1 ih0 ih1 =>
    obtain ⟨-, hne, -, h1⟩ := h
    rw [maxBinding, bindings, ih1 h1,
      getLast?_append_of_ne_nil _ (h1.bindings_ne_nil hne.2)]

end Extremes

/-! ## Splitting -/

section Split

variable {ws : WordSize} {K V : Type} {X : Params ws K V} {s : State ws K V} {t t0 t1 : Tree ws K V}

theorem smartBranch_bindings (hX : X.Lawful) (hs : Inv X s) (p m : Word ws) (h0 : Known s t0)
    (h1 : Known s t1) :
    bindings (smartBranch X s p m t0 t1).1 = bindings t0 ++ bindings t1 := by
  obtain ⟨-, -, a, u, hb⟩ := branch_spec hX hs p m h0 h1
  have hbranch : bindings (branch X s p m t0 t1).1 = bindings t0 ++ bindings t1 := by
    rw [hb]
    rfl
  cases t0 with
  | empty => rfl
  | leaf a0 u0 k0 v0 =>
    cases t1 with
    | empty => rfl
    | leaf => exact hbranch
    | branch => exact hbranch
  | branch a0 u0 p0 m0 l0 r0 =>
    cases t1 with
    | empty => exact (append_nil _).symm
    | leaf => exact hbranch
    | branch => exact hbranch

theorem concat_bindings (hX : X.Lawful) (hs : Inv X s) (h0 : Known s t0) (h1 : Known s t1)
    {c : Tree ws K V × State ws K V} (hc : concat X s t0 t1 = some c) :
    bindings c.1 = bindings t0 ++ bindings t1 := by
  unfold concat at hc
  split at hc
  · next h =>
      rw [addr_eq_none.mp h, ← some.inj hc]
      rfl
  · split at hc
    · next h =>
        rw [addr_eq_none.mp h, ← some.inj hc]
        exact (append_nil _).symm
    · dsimp only at hc
      split at hc
      · cases hc
      · rw [← some.inj hc]
        exact smartBranch_bindings hX hs _ _ h0 h1

theorem filter_below {l : List (K × V)} {n : ℤ} (h : ∀ q ∈ l, n < (X.id q.1).toInt) :
    l.filter (fun q => decide ((X.id q.1).toInt < n)) = [] ∧
      l.filter (fun q => decide (n < (X.id q.1).toInt)) = l := by
  constructor
  · rw [filter_eq_nil_iff]
    intro q hq
    simpa using (h q hq).le
  · rw [filter_eq_self]
    intro q hq
    simpa using h q hq

theorem filter_above {l : List (K × V)} {n : ℤ} (h : ∀ q ∈ l, (X.id q.1).toInt < n) :
    l.filter (fun q => decide ((X.id q.1).toInt < n)) = l ∧
      l.filter (fun q => decide (n < (X.id q.1).toInt)) = [] := by
  constructor
  · rw [filter_eq_self]
    intro q hq
    simpa using h q hq
  · rw [filter_eq_nil_iff]
    intro q hq
    simpa using (h q hq).le

/-- The two maps hold the bindings on each side of `x`. -/
def Parts (X : Params ws K V) (x : K) (t : Tree ws K V)
    (r : (Tree ws K V × Option V × Tree ws K V) × State ws K V) : Prop :=
  bindings r.1.1 = (bindings t).filter (fun q => decide ((X.id q.1).toInt < (X.id x).toInt)) ∧
    bindings r.1.2.2 = (bindings t).filter (fun q => decide ((X.id x).toInt < (X.id q.1).toInt))

/-- The keys of `t` are on one side of `x`. -/
theorem parts_right {x : K} (h : ∀ q ∈ bindings t, (X.id x).toInt < (X.id q.1).toInt) (o : Option V) :
    Parts X x t ((.empty, o, t), s) :=
  ⟨(filter_below h).1.symm, (filter_below h).2.symm⟩

theorem parts_left {x : K} (h : ∀ q ∈ bindings t, (X.id q.1).toInt < (X.id x).toInt) (o : Option V) :
    Parts X x t ((t, o, .empty), s) :=
  ⟨(filter_above h).1.symm, (filter_above h).2.symm⟩

theorem splitAux_parts (hX : X.Lawful) {x : K} (hs : Inv X s) (hk : Known s t) (hw : Wf X t)
    {r : (Tree ws K V × Option V × Tree ws K V) × State ws K V} (hr : splitAux X x s t = some r) :
    Parts X x t r := by
  induction t generalizing s r with
  | empty =>
    rw [splitAux, Option.some.injEq] at hr
    rw [← hr]
    exact ⟨rfl, rfl⟩
  | leaf a u k v =>
    simp only [splitAux] at hr
    split_ifs at hr with hlt heq
    · rw [← some.inj hr]
      exact parts_right (by simpa [bindings] using compareInt_neg.mp hlt) _
    · rw [← some.inj hr]
      have heq := compareInt_zero.mp heq
      constructor <;> simp [bindings, heq]
    · rw [← some.inj hr]
      have hne : (X.id x).toInt ≠ (X.id k).toInt := fun h => heq (compareInt_zero.mpr h)
      have hge : ¬ (X.id x).toInt < (X.id k).toInt := fun h => hlt (compareInt_neg.mpr h)
      have hgt : (X.id k).toInt < (X.id x).toInt := by omega
      exact parts_left (by simpa [bindings] using hgt) _
  | branch a u p m t0 t1 ih0 ih1 =>
    have hw' := hw
    obtain ⟨⟨i, rfl, hp, hsplit⟩, hne, hw0, hw1⟩ := hw'
    obtain ⟨hk0, hk1⟩ := hk.sons hs
    rw [splitAux] at hr
    by_cases hag : Agree i (bits X x) p
    · rw [if_pos ((matchPrefix_twoPow hsplit.lt hp).mpr hag), zeroBit_twoPow hsplit.lt] at hr
      cases hbit : (bits X x).getLsbD i with
      | false =>
        have hgt : ∀ q ∈ bindings t1, (X.id x).toInt < (X.id q.1).toInt := by
          intro q hq
          obtain ⟨hag', hbit'⟩ := hsplit.right q hq
          exact toInt_lt_of_bits ⟨hsplit.lt, hag.trans hag'.symm, by simp [hbit, hbit']⟩ hbit
        obtain ⟨r0, hr0, hspec⟩ := splitAux_map hX x hs hk0 hw0
        have hparts := ih0 hs hk0 hw0 hr0
        simp only [hbit, Bool.not_false, if_true, hr0, bind_eq_bind, bind_some,
          bind_eq_some_iff] at hr
        obtain ⟨c, hc, hr⟩ := hr
        have hcat := concat_bindings hX hspec.step.inv hspec.right.known
          (hk1.step hspec.step) hc
        rw [← some.inj hr]
        constructor
        · rw [bindings, filter_append, (filter_below hgt).1, append_nil]
          exact hparts.1
        · rw [bindings, filter_append, (filter_below hgt).2, ← hparts.2]
          exact hcat
      | true =>
        have hlt : ∀ q ∈ bindings t0, (X.id q.1).toInt < (X.id x).toInt := by
          intro q hq
          obtain ⟨hag', hbit'⟩ := hsplit.left q hq
          exact toInt_lt_of_bits' ⟨hsplit.lt, hag.trans hag'.symm, by simp [hbit, hbit']⟩ hbit
        obtain ⟨r1, hr1, hspec⟩ := splitAux_map hX x hs hk1 hw1
        have hparts := ih1 hs hk1 hw1 hr1
        simp only [hbit, Bool.not_true, Bool.false_eq_true, if_false, hr1, bind_eq_bind,
          bind_some, bind_eq_some_iff] at hr
        obtain ⟨c, hc, hr⟩ := hr
        have hcat := concat_bindings hX hspec.step.inv (hk0.step hspec.step)
          hspec.left.known hc
        rw [← some.inj hr]
        constructor
        · rw [bindings, filter_append, (filter_above hlt).1, ← hparts.1]
          exact hcat
        · rw [bindings, filter_append, (filter_above hlt).2, nil_append]
          exact hparts.2
    · rw [if_neg (fun h => hag ((matchPrefix_twoPow hsplit.lt hp).mp h))] at hr
      obtain ⟨j, hji, hdiff⟩ := exists_firstDiff_of_not_agree hag
      have hdiff' : ∀ q ∈ bindings (.branch a u p (BitVec.twoPow _ i) t0 t1),
          FirstDiff j (bits X x) (bits X q.1) := by
        intro q hq
        have hag' := hsplit.agree (mem_append.mp hq)
        refine ⟨hdiff.lt, hdiff.agree.trans (hag'.symm.mono hji.le), ?_⟩
        rw [hag' j hji]
        exact hdiff.ne
      simp only [branchingBit_eq hdiff, zeroBit_twoPow hdiff.lt] at hr
      cases hbit : (bits X x).getLsbD j with
      | false =>
        rw [hbit] at hr
        rw [← some.inj hr]
        exact parts_right (fun q hq => toInt_lt_of_bits (hdiff' q hq) hbit) _
      | true =>
        rw [hbit] at hr
        rw [← some.inj hr]
        exact parts_left (fun q hq => toInt_lt_of_bits' (hdiff' q hq) hbit) _

end Split

/-! ## The sequence from a key -/

section SeqFrom

variable {ws : WordSize} {K V : Type} {X : Params ws K V} {s : State ws K V} {t : Tree ws K V}
  {H : Memory} {repr : K → PolyCompare.Value} {k : K}

theorem prependSeqFrom_eq {geK : K → Except CompareExn Bool} (g : K → Bool)
    (h : ∀ q ∈ bindings t, geK q.1 = .ok (g q.1)) (l : List (K × V)) :
    prependSeqFrom geK t l = .ok ((bindings t).filter (fun q => g q.1) ++ l) := by
  induction t generalizing l with
  | empty => rfl
  | leaf a u key v =>
    have hkey : geK key = .ok (g key) := h (key, v) (by simp [bindings])
    rw [prependSeqFrom, hkey, bindings]
    cases hg : g key <;> simp [hg, bind, Except.bind]
  | branch a u p m t0 t1 ih0 ih1 =>
    rw [prependSeqFrom, ih1 (fun q hq => h q (mem_append_right _ hq)), bindings,
      filter_append, append_assoc]
    exact ih0 (fun q hq => h q (mem_append_left _ hq)) _

/-- Every key is compared, also those that are left out. -/
theorem prependSeqFrom_ok {geK : K → Except CompareExn Bool} {l l' : List (K × V)}
    (h : prependSeqFrom geK t l = .ok l') : ∀ q ∈ bindings t, ∃ b, geK q.1 = .ok b := by
  induction t generalizing l l' with
  | empty => exact fun q hq => absurd hq not_mem_nil
  | leaf a u key v =>
    intro q hq
    rw [mem_singleton.mp hq]
    rw [prependSeqFrom] at h
    cases hb : geK key with
    | error e => rw [hb] at h; cases h
    | ok b => exact ⟨b, rfl⟩
  | branch a u p m t0 t1 ih0 ih1 =>
    rw [prependSeqFrom] at h
    cases h1 : prependSeqFrom geK t1 l with
    | error e => rw [h1] at h; cases h
    | ok l1 =>
      rw [h1] at h
      intro q hq
      rcases mem_append.mp hq with hq | hq
      · exact ih0 h q hq
      · exact ih1 h1 q hq

/-- `to_seq_from k t` is the sequence of the bindings from the identifier of `k` on. -/
def StartsAt (X : Params ws K V) (H : Memory) (repr : K → PolyCompare.Value) (k : K) (t : Tree ws K V) : Prop :=
  ∃ fuel, toSeqFrom H repr fuel k t =
    .ok ((bindings t).filter (fun q => decide ((X.id k).toInt ≤ (X.id q.1).toInt)))

/-- The polymorphic comparison with `k` returns on every key of `t`, and agrees with the
comparison of the identifiers. -/
def Agrees (X : Params ws K V) (H : Memory) (repr : K → PolyCompare.Value) (k : K) (t : Tree ws K V) : Prop :=
  ∀ q ∈ bindings t, ∃ fuel,
    ge H fuel (repr q.1) (repr k) = .ok (decide ((X.id k).toInt ≤ (X.id q.1).toInt))

/-- Fuel that is enough for all the comparisons. -/
theorem Agrees.fuel (h : Agrees X H repr k t) : ∃ fuel, ∀ q ∈ bindings t,
    ge H fuel (repr q.1) (repr k) = .ok (decide ((X.id k).toInt ≤ (X.id q.1).toInt)) := by
  unfold Agrees at h
  generalize bindings t = l at h ⊢
  induction l with
  | nil => exact ⟨0, fun q hq => absurd hq not_mem_nil⟩
  | cons q l ih =>
    obtain ⟨n, hn⟩ := h q mem_cons_self
    obtain ⟨m, hm⟩ := ih (fun q hq => h q (mem_cons_of_mem _ hq))
    refine ⟨max n m, fun q' hq' => ?_⟩
    rcases mem_cons.mp hq' with rfl | hq'
    · exact ge_mono (Nat.le_max_left n m) hn
    · exact ge_mono (Nat.le_max_right n m) (hm q' hq')

theorem startsAt_iff : StartsAt X H repr k t ↔ Agrees X H repr k t := by
  constructor
  · rintro ⟨fuel, hseq⟩ q hq
    have hok := prependSeqFrom_ok hseq
    obtain ⟨b, hb⟩ := hok q hq
    -- The function that the comparison is on these keys.
    let g : K → Bool := fun key => (ge H fuel (repr key) (repr k)).toOption.getD false
    have hg : ∀ q ∈ bindings t, ge H fuel (repr q.1) (repr k) = .ok (g q.1) := by
      intro q hq
      obtain ⟨b, hb⟩ := hok q hq
      simp only [g, hb, Except.toOption, getD_some]
    have heq := (prependSeqFrom_eq g hg []).symm.trans hseq
    rw [append_nil, Except.ok.injEq] at heq
    have hmem := congrArg (q ∈ ·) heq
    simp only [mem_filter, hq, true_and, eq_iff_iff, decide_eq_true_eq] at hmem
    refine ⟨fuel, ?_⟩
    rw [hg q hq]
    congr 1
    rw [Bool.eq_iff_iff, hmem, decide_eq_true_eq]
  · intro h
    obtain ⟨fuel, hfuel⟩ := h.fuel
    refine ⟨fuel, ?_⟩
    let g : K → Bool := fun key => (ge H fuel (repr key) (repr k)).toOption.getD false
    have hg : ∀ q ∈ bindings t, g q.1 = decide ((X.id k).toInt ≤ (X.id q.1).toInt) := by
      intro q hq
      simp only [g, hfuel q hq, Except.toOption, getD_some]
    rw [toSeqFrom, prependSeqFrom_eq g (fun q hq => by rw [hfuel q hq, hg q hq]), append_nil,
      filter_congr hg]

end SeqFrom

/-! ## The order of the identifiers -/

section Order

variable {ws : WordSize} {K V : Type}

/-- The traversals of `t`, from `k` on for `split`. -/
structure Ordered (X : Params ws K V) (s : State ws K V) (k : K) (t : Tree ws K V) : Prop where
  sorted : Sorted X t
  find : ∀ k v, findOpt X k t = some v ↔ ∃ k', (k', v) ∈ bindings t ∧ X.id k' = X.id k
  iter : ∀ {A : Type} (f : K → V → A → A) (a : A),
    iter f t a = (bindings t).foldl (fun a q => f q.1 q.2 a) a
  fold : ∀ {A : Type} (f : K → V → A → A) (a : A),
    fold f t a = (bindings t).foldl (fun a q => f q.1 q.2 a) a
  keys : keys t = (bindings t).map Prod.fst
  bindings : bindingsFold t = bindings t
  toSeq : toSeq t = Hcpt.bindings t
  minBinding : minBinding t = (Hcpt.bindings t).head?
  maxBinding : maxBinding t = (Hcpt.bindings t).getLast?
  split : ∃ r, split X k s t = some r ∧ Parts X k t r ∧ r.1.2.1 = findOpt X k t

variable {X : Params ws K V} {s : State ws K V} {t : Tree ws K V}

theorem findOpt_eq_some (hw : Wf X t) {k : K} {v : V} :
    findOpt X k t = some v ↔ ∃ k', (k', v) ∈ bindings t ∧ X.id k' = X.id k := by
  rw [findOpt_eq hw, map_eq_some_iff]
  constructor
  · rintro ⟨⟨k', v'⟩, hq, rfl⟩
    exact ⟨k', (hw.graph _ _).mp hq⟩
  · rintro ⟨k', hq, hid⟩
    exact ⟨(k', v), (hw.graph _ _).mpr ⟨hq, hid⟩, rfl⟩

theorem ordered (hX : X.Lawful) (hs : Inv X s) (hk : Known s t) (hw : Wf X t) (k : K) :
    Ordered X s k t where
  sorted := hw.sorted
  find _ _ := findOpt_eq_some hw
  iter f a := iter_eq f t a
  fold f a := fold_eq f t a
  keys := keys_eq t
  bindings := bindingsFold_eq t
  toSeq := (prependSeq_eq t []).trans (append_nil _)
  minBinding := minBinding_eq hw
  maxBinding := maxBinding_eq hw
  split := by
    obtain ⟨r, hr, hspec⟩ := splitAux_map hX k hs hk hw
    refine ⟨r, hr, splitAux_parts hX hs hk hw hr, ?_⟩
    rw [split_value hspec hw, findOpt_eq hw]

/-- After any run, the traversals of a map follow the identifiers, `to_seq_from` included,
exactly when the polymorphic comparison with the key agrees with them. -/
theorem traversals_follow_iff (hX : X.Lawful) (H : Memory) (repr : K → PolyCompare.Value)
    (ops : List (Op ws K V)) : ∃ h, run X ops = some h ∧ ∀ t ∈ h.maps, ∀ k,
      (Ordered X h.state k t ∧ StartsAt X H repr k t ↔ Agrees X H repr k t) := by
  obtain ⟨h, hrun, hv⟩ := run_valid hX ops
  refine ⟨h, hrun, fun t ht k => ?_⟩
  rw [startsAt_iff]
  exact and_iff_right (ordered hX hv.inv (hv.known t ht) (hv.wf t ht) k)

/-- The keys 1 and 2, as records of a name and a number: 1 is named `b`, and 2 is
named `a`. -/
def namedMemory : Memory
  | 1 => .fields 0 [.ptr 3, .imm 1]
  | 2 => .fields 0 [.ptr 4, .imm 2]
  | 3 => .str [98]
  | 4 => .str [97]
  | _ => .closure

def namedKey (k : Word .ws64) : PolyCompare.Value := .ptr k.toNat

theorem traversals_follow_named :
    ∃ h, run (setParams (fun k : Word .ws64 => k)) [.ofSeq [(1, ()), (2, ())], .remove 1 0] = some h ∧
      ∀ t ∈ h.maps, ∀ k, (Ordered (setParams (fun k : Word .ws64 => k)) h.state k t ∧
        StartsAt (setParams (fun k : Word .ws64 => k)) namedMemory namedKey k t ↔
          Agrees (setParams (fun k : Word .ws64 => k)) namedMemory namedKey k t) :=
  traversals_follow_iff (setParams_lawful (fun k : Word .ws64 => k)) namedMemory namedKey
    [.ofSeq [(1, ()), (2, ())], .remove 1 0]

/-- From the key 1 on, the set of 1 and 2 loses 2. -/
theorem not_traversals_follow :
    ∃ h, run (setParams (fun k : Word .ws64 => k)) [.ofSeq [(1, ()), (2, ())]] = some h ∧
      ∃ t ∈ h.maps, bindings t = [(1, ()), (2, ())] ∧
        toSeqFrom namedMemory namedKey 3 1 t = .ok [(1, ())] ∧
        ¬ (Ordered (setParams (fun k : Word .ws64 => k)) h.state 1 t ∧
          StartsAt (setParams (fun k : Word .ws64 => k)) namedMemory namedKey 1 t) := by
  have hbind : bindings (ofSeq (setParams (fun k : Word .ws64 => k)) [(1, ()), (2, ())]
      Heap.init.state).1 = [(1, ()), (2, ())] := by decide +kernel
  refine ⟨_, rfl, _, mem_singleton_self _, hbind, ?_, ?_⟩
  · have hg : ∀ q ∈ bindings (ofSeq (setParams (fun k : Word .ws64 => k)) [(1, ()), (2, ())]
          Heap.init.state).1,
        ge namedMemory 3 (namedKey q.1) (namedKey 1) = .ok (decide (q.1 = 1)) := by
      rw [hbind]
      simp only [forall_mem_cons, not_mem_nil, false_imp_iff, implies_true, and_true]
      exact ⟨rfl, rfl⟩
    rw [toSeqFrom, prependSeqFrom_eq (fun key => decide (key = 1)) hg, hbind]
    rfl
  · rintro ⟨-, hstart⟩
    obtain ⟨fuel, hfuel⟩ := startsAt_iff.mp hstart (2, ()) (by rw [hbind]; simp)
    have h3 : ge namedMemory 3 (namedKey 2) (namedKey 1) = .ok false := rfl
    have h := (ge_mono (Nat.le_max_left fuel 3) hfuel).symm.trans (ge_mono (Nat.le_max_right fuel 3) h3)
    rw [Except.ok.injEq] at h
    exact absurd h (by decide)

end Order

end Why3.Hcpt
