import Why3.Util.HcptOps

/-!
# Canonicity and comparison

A map stands for a finite function from identifiers to bindings.  Two maps of one
state that stand for the same function are the same tree; `compare` orders the
trees.
-/

namespace Why3.Hcpt

open BitPrefix Compare List

variable {ws : WordSize} {K V : Type} {X : Params ws K V} {s : State ws K V}

/-! ## Canonicity -/

section Canonicity

variable {i j : ℕ} {p p' m m' : Word ws} {a a' u u' : ℕ} {t t' t0 t1 t0' t1' : Tree ws K V}

theorem Represents.symm (hX : X.Lawful) (h : Represents X (· ∈ bindings t) t') :
    Represents X (· ∈ bindings t') t := by
  constructor
  · intro q hq
    obtain ⟨q', hq', heq⟩ := h.complete q hq
    exact ⟨q', hq', heq.symm hX⟩
  · intro q hq
    obtain ⟨q', hq', heq⟩ := h.sound q hq
    exact ⟨q', hq', heq.symm hX⟩

/-- A branch has keys with different identifiers. -/
theorem Split.not_const (h : Split X i p t0 t1) (hw0 : Wf X t0) (hw1 : Wf X t1)
    (hne : t0 ≠ .empty ∧ t1 ≠ .empty) (n : Word ws) :
    ¬ ∀ q ∈ bindings (.branch a u p m t0 t1), X.id q.1 = n := by
  intro hall
  obtain ⟨q0, hq0⟩ := hw0.exists_mem hne.1
  obtain ⟨q1, hq1⟩ := hw1.exists_mem hne.2
  have hid := (hall q0 (mem_append_left _ hq0)).trans
    (hall q1 (mem_append_right _ hq1)).symm
  exact (h.firstDiff hq0 hq1).ne (by rw [bits_inj.mpr hid])

/-- The keys of a tree agree up to the bit that its branch tests. -/
theorem Split.le_of_represents (h : Split X i p t0 t1) (h' : Split X j p' t0' t1')
    (hw0 : Wf X t0) (hw1 : Wf X t1) (hne : t0 ≠ .empty ∧ t1 ≠ .empty)
    (hr : Represents X (· ∈ bindings (.branch a u p m t0 t1)) (.branch a' u' p' m' t0' t1')) :
    j ≤ i := by
  obtain ⟨q0, hq0⟩ := hw0.exists_mem hne.1
  obtain ⟨q1, hq1⟩ := hw1.exists_mem hne.2
  obtain ⟨q0', hq0', heq0⟩ := hr.complete q0 (mem_append_left _ hq0)
  obtain ⟨q1', hq1', heq1⟩ := hr.complete q1 (mem_append_right _ hq1)
  by_contra hlt
  have hdiff := h.firstDiff hq0 hq1
  rw [heq0.bits_eq, heq1.bits_eq] at hdiff
  exact hdiff.not_agree (not_le.mp hlt) ((h'.agree (mem_append.mp hq0')).trans
    (h'.agree (mem_append.mp hq1')).symm)

theorem Split.fits_cond (h : Split X i p t0 t1) (c : Bool) : Fits X i p c (cond c t1 t0) := by
  cases c with
  | false => exact h.left
  | true => exact h.right

theorem Split.mem_cond (h : Split X i p t0 t1) {c : Bool} {q : K × V}
    (hq : q ∈ bindings (.branch a u p m t0 t1)) (hbit : (bits X q.1).getLsbD i = c) :
    q ∈ bindings (cond c t1 t0) := by
  rcases mem_append.mp hq with hq | hq
  · rw [← hbit, (h.left q hq).2]
    exact hq
  · rw [← hbit, (h.right q hq).2]
    exact hq

theorem mem_branch_of_cond {c : Bool} {q : K × V} (hq : q ∈ bindings (cond c t1 t0)) :
    q ∈ bindings (.branch a u p m t0 t1) := by
  cases c with
  | false => exact mem_append_left _ hq
  | true => exact mem_append_right _ hq

/-- The sons of two branches that test the same bit hold the same bindings. -/
theorem Split.represents_cond (h : Split X i p t0 t1) (h' : Split X i p' t0' t1')
    (hr : Represents X (· ∈ bindings (.branch a u p m t0 t1)) (.branch a' u' p' m' t0' t1'))
    (c : Bool) : Represents X (· ∈ bindings (cond c t1 t0)) (cond c t1' t0') := by
  constructor
  · intro q hq
    obtain ⟨q', hq', heq⟩ := hr.sound q (mem_branch_of_cond hq)
    refine ⟨q', h.mem_cond hq' ?_, heq⟩
    rw [heq.bits_eq]
    exact (h'.fits_cond c q hq).2
  · intro q hq
    obtain ⟨q', hq', heq⟩ := hr.complete q (mem_branch_of_cond hq)
    refine ⟨q', h'.mem_cond hq' ?_, heq⟩
    rw [← heq.bits_eq]
    exact (h.fits_cond c q hq).2

theorem eq_of_represents (hX : X.Lawful) (hs : Inv X s) (hk : Known s t) (hk' : Known s t')
    (hw : Wf X t) (hw' : Wf X t') (h : Represents X (· ∈ bindings t) t') : t = t' := by
  induction t generalizing t' with
  | empty =>
    by_contra hne
    obtain ⟨q, hq⟩ := hw'.exists_mem (Ne.symm hne)
    obtain ⟨q', hq', -⟩ := h.sound q hq
    exact not_mem_nil hq'
  | leaf a u k v =>
    obtain ⟨q', hq', heq⟩ := h.complete (k, v) (mem_singleton_self _)
    cases t' with
    | empty => exact absurd hq' not_mem_nil
    | leaf a' u' k' v' =>
      rw [mem_singleton.mp hq'] at heq
      refine hs.unique _ (hk.resolve_left (by simp)) _ (hk'.resolve_left (by simp)) ?_
      simpa [hEqual, Eqv] using heq
    | branch a' u' p' m' t0' t1' =>
      obtain ⟨⟨j, -, -, hsplit'⟩, hne', hw0', hw1'⟩ := hw'
      refine absurd (fun q hq => ?_)
        (hsplit'.not_const (a := a') (u := u') (m := m') hw0' hw1' hne' (X.id k))
      obtain ⟨q', hq', heq⟩ := h.sound q hq
      rw [mem_singleton.mp hq'] at heq
      exact heq.1.symm
  | branch a u p m t0 t1 ih0 ih1 =>
    obtain ⟨⟨i, rfl, hp, hsplit⟩, hne, hw0, hw1⟩ := hw
    obtain ⟨q, hq⟩ := hw0.exists_mem hne.1
    obtain ⟨q', hq', heq⟩ := h.complete q (mem_append_left _ hq)
    cases t' with
    | empty => exact absurd hq' not_mem_nil
    | leaf a' u' k' v' =>
      refine absurd (fun q hq => ?_) (hsplit.not_const (a := a) (u := u)
        (m := BitVec.twoPow _ i) hw0 hw1 hne (X.id k'))
      obtain ⟨q', hq', heq⟩ := h.complete q hq
      rw [mem_singleton.mp hq'] at heq
      exact heq.1
    | branch a' u' p' m' t0' t1' =>
      obtain ⟨⟨j, rfl, hp', hsplit'⟩, hne', hw0', hw1'⟩ := hw'
      obtain ⟨hk0, hk1⟩ := hk.sons hs
      obtain ⟨hk0', hk1'⟩ := hk'.sons hs
      obtain rfl : i = j := Nat.le_antisymm
        (hsplit'.le_of_represents hsplit hw0' hw1' hne' (h.symm hX))
        (hsplit.le_of_represents hsplit' hw0 hw1 hne h)
      have hpp : p = p' := by
        refine hp.eq_of_agree hp' ((hsplit.agree (.inl hq)).symm.trans ?_)
        rw [heq.bits_eq]
        exact hsplit'.agree (mem_append.mp hq')
      have h0 : t0 = t0' := ih0 hk0 hk0' hw0 hw0' (hsplit.represents_cond hsplit' h false)
      have h1 : t1 = t1' := ih1 hk1 hk1' hw1 hw1' (hsplit.represents_cond hsplit' h true)
      refine hs.unique _ (hk.resolve_left (by simp)) _ (hk'.resolve_left (by simp)) ?_
      simp [hEqual, equal, hpp, h0, h1]

end Canonicity

/-! ## Comparison -/

section Comparison

theorem compareBits_eq (b1 b2 : Word ws) : compareBits b1 b2 = cmpOf (rank b1) (rank b2) := by
  rw [compareBits]
  split_ifs with heq
  · rw [heq]
    exact (cmpOf_zero.mpr rfl).symm
  · obtain ⟨i, hdiff⟩ := exists_firstDiff heq
    simp only [branchingBit_eq hdiff, zeroBit_twoPow hdiff.lt]
    cases hbit : b1.getLsbD i with
    | false => simp [cmpOf, rank_lt hdiff hbit]
    | true =>
      have hbit2 : b2.getLsbD i = false := by simpa [hbit] using hdiff.ne.symm
      have hlt := rank_lt hdiff.symm hbit2
      simp [cmpOf, not_lt.mpr hlt.le, hlt.ne']

/-- The order of the constructors. -/
def constr : Tree ws K V → ℕ
  | .empty => 0
  | .leaf _ _ _ _ => 1
  | .branch _ _ _ _ _ _ => 2

def depth : Tree ws K V → ℕ
  | .empty => 0
  | .leaf _ _ _ _ => 0
  | .branch _ _ _ _ t0 t1 => max (depth t0) (depth t1) + 1

variable {cmp : V → V → ℤ}

theorem compare_lt {t t' : Tree ws K V} (h : constr t < constr t') : compare X cmp t t' < 0 := by
  cases t <;> cases t' <;> simp [constr, compare] at h ⊢

theorem compare_gt {t t' : Tree ws K V} (h : constr t' < constr t) : 0 < compare X cmp t t' := by
  cases t <;> cases t' <;> simp [constr, compare] at h ⊢

theorem compareBits_totalOrder :
    TotalOrder (fun _ => True) (fun b b' : Word ws => b = b') compareBits := by
  have h := (totalOrder_cmpOf (α := ℕ) (fun _ => True)).comap (Q := fun _ : Word ws => True) rank
    (fun _ _ => trivial)
  refine h.image (fun b => b) ?_ ?_ ?_
  · exact fun b _ => ⟨b, trivial, rfl⟩
  · exact compareBits_eq
  · exact fun b b' _ _ => rank_injective.eq_iff.symm

/-- The maps of the state, up to a depth. -/
def Below (s : State ws K V) (n : ℕ) (t : Tree ws K V) : Prop := Known s t ∧ depth t < n

theorem leaf_totalOrder (hX : X.Lawful) (hs : Inv X s)
    (hcmp : TotalOrder (fun _ => True) (fun v v' => X.equal v v' = true) cmp) (n : ℕ) :
    TotalOrder (fun t => Below s n t ∧ constr t = 1) (fun t t' => t = t') (compare X cmp) := by
  have hid := (totalOrder_cmpOf (α := ℤ) (fun _ => True)).comap
    (Q := fun b : (ℕ × ℕ) × K × V => Known s (.leaf b.1.1 b.1.2 b.2.1 b.2.2))
    (fun b => (X.id b.2.1).toInt) (fun _ _ => trivial)
  have hval := hcmp.comap (Q := fun b : (ℕ × ℕ) × K × V => Known s (.leaf b.1.1 b.1.2 b.2.1 b.2.2))
    (fun b => b.2.2) (fun _ _ => trivial)
  refine (hid.lex hval).image (fun b => .leaf b.1.1 b.1.2 b.2.1 b.2.2) ?_ ?_ ?_
  · rintro t ⟨⟨hk, -⟩, hc⟩
    cases t with
    | empty => cases hc
    | leaf a u k v => exact ⟨((a, u), k, v), hk, rfl⟩
    | branch => cases hc
  · intro b b'
    rw [compare]
    rfl
  · rintro ⟨⟨a, u⟩, k, v⟩ ⟨⟨a', u'⟩, k', v'⟩ hk hk'
    constructor
    · intro heq
      obtain ⟨-, -, rfl, rfl⟩ := Tree.leaf.injEq .. ▸ heq
      exact ⟨rfl, hX.refl _⟩
    · rintro ⟨hid, heq⟩
      refine hs.unique _ (hk.resolve_left (by simp)) _ (hk'.resolve_left (by simp)) ?_
      simp only [hEqual, Bool.and_eq_true, beq_iff_eq]
      exact ⟨BitVec.toInt_inj.mp hid, heq⟩

theorem branch_totalOrder (hs : Inv X s) {n : ℕ}
    (ih : TotalOrder (Below s n) (fun t t' => t = t') (compare X cmp)) :
    TotalOrder (fun t => Below s (n + 1) t ∧ constr t = 2) (fun t t' => t = t')
      (compare X cmp) := by
  let Q : (ℕ × ℕ) × (Word ws × Word ws) × Tree ws K V × Tree ws K V → Prop := fun b =>
    Known s (.branch b.1.1 b.1.2 b.2.1.1 b.2.1.2 b.2.2.1 b.2.2.2) ∧
      Below s n b.2.2.1 ∧ Below s n b.2.2.2
  have hp := compareBits_totalOrder.comap (Q := Q) (fun b => b.2.1.1) (fun _ _ => trivial)
  have hm := compareBits_totalOrder.comap (Q := Q) (fun b => b.2.1.2) (fun _ _ => trivial)
  have hl := ih.comap (Q := Q) (fun b => b.2.2.1) (fun _ h => h.2.1)
  have hr := ih.comap (Q := Q) (fun b => b.2.2.2) (fun _ h => h.2.2)
  refine (hp.lex (hm.lex (hl.lex hr))).image
    (fun b => .branch b.1.1 b.1.2 b.2.1.1 b.2.1.2 b.2.2.1 b.2.2.2) ?_ ?_ ?_
  · rintro t ⟨⟨hk, hd⟩, hc⟩
    cases t with
    | empty => cases hc
    | leaf => cases hc
    | branch a u p m t0 t1 =>
      obtain ⟨hk0, hk1⟩ := hk.sons hs
      rw [depth] at hd
      have hd0 : depth t0 < n := by omega
      have hd1 : depth t1 < n := by omega
      exact ⟨((a, u), (p, m), t0, t1), ⟨hk, ⟨hk0, hd0⟩, hk1, hd1⟩, rfl⟩
  · intro b b'
    simp only [compare]
  · rintro ⟨⟨a, u⟩, ⟨p, m⟩, t0, t1⟩ ⟨⟨a', u'⟩, ⟨p', m'⟩, t0', t1'⟩ hk hk'
    constructor
    · intro heq
      obtain ⟨-, -, rfl, rfl, rfl, rfl⟩ := Tree.branch.injEq .. ▸ heq
      exact ⟨rfl, rfl, rfl, rfl⟩
    · rintro ⟨hp, hm, h0, h1⟩
      refine hs.unique _ (hk.1.resolve_left (by simp)) _ (hk'.1.resolve_left (by simp)) ?_
      simp only at hp hm h0 h1
      simp [hEqual, equal, hp, hm, h0, h1]

theorem below_totalOrder (hX : X.Lawful) (hs : Inv X s)
    (hcmp : TotalOrder (fun _ => True) (fun v v' => X.equal v v' = true) cmp) (n : ℕ) :
    TotalOrder (Below s n) (fun t t' => t = t') (compare X cmp) := by
  induction n with
  | zero =>
    have hno : ∀ t : Tree ws K V, ¬ Below s 0 t := fun t ht => Nat.not_lt_zero _ ht.2
    exact .of_subsingleton (fun a _ ha => absurd ha (hno a)) (fun a ha => absurd ha (hno a))
  | succ n ih =>
    refine .ranked constr (fun _ _ => compare_lt) (fun _ _ => compare_gt)
      (fun _ _ h => by rw [h]) (fun c => ?_)
    match c with
    | 0 =>
      have hempty : ∀ t : Tree ws K V, constr t = 0 → t = .empty := by
        intro t ht
        cases t with
        | empty => rfl
        | leaf => cases ht
        | branch => cases ht
      refine .of_subsingleton (fun a b ha hb => (hempty a ha.2).trans (hempty b hb.2).symm) ?_
      rintro t ⟨-, ht⟩
      rw [hempty t ht, compare]
      exact ⟨rfl, rfl⟩
    | 1 => exact leaf_totalOrder hX hs hcmp (n + 1)
    | 2 => exact branch_totalOrder hs ih
    | c + 3 =>
      have hno : ∀ t : Tree ws K V, constr t ≠ c + 3 := by
        intro t
        cases t <;> simp [constr]
      exact .of_subsingleton (fun a _ ha => absurd ha.2 (hno a)) (fun a ha => absurd ha.2 (hno a))

theorem compare_totalOrder (hX : X.Lawful) (hs : Inv X s)
    (hcmp : TotalOrder (fun _ => True) (fun v v' => X.equal v v' = true) cmp) :
    TotalOrder (Known s) (fun t t' => t = t') (compare X cmp) where
  zero a b ha hb :=
    (below_totalOrder hX hs hcmp (max (depth a) (depth b) + 1)).zero ⟨ha, by omega⟩ ⟨hb, by omega⟩
  swap a b ha hb :=
    (below_totalOrder hX hs hcmp (max (depth a) (depth b) + 1)).swap ⟨ha, by omega⟩ ⟨hb, by omega⟩
  trans a b c ha hb hc :=
    (below_totalOrder hX hs hcmp (max (depth a) (max (depth b) (depth c)) + 1)).trans
      ⟨ha, by omega⟩ ⟨hb, by omega⟩ ⟨hc, by omega⟩

end Comparison

end Why3.Hcpt

/-!
# Runs of the operations

A program builds maps one after the other, from maps it built before.  In every
state it reaches, a map stands for a finite function from identifiers to bindings,
and there is one map for each function.
-/

namespace Why3.Hcpt

open BitPrefix Compare List Option

variable {ws : WordSize} {K V : Type}

/-! ## The function of a map -/

section Functions

def lookup (X : Params ws K V) (t : Tree ws K V) (n : Word ws) : Option (K × V) :=
  (bindings t).find? (fun q => X.id q.1 == n)

/-- The map stands for `g`, with keys up to their identifiers and values up to `X.equal`. -/
def StandsFor (X : Params ws K V) (g : Word ws → Option (K × V)) (t : Tree ws K V) : Prop :=
  ∀ n, Option.Rel (Eqv X) (g n) (lookup X t n)

def SameBindings (X : Params ws K V) (t t' : Tree ws K V) : Prop := StandsFor X (lookup X t) t'

def update (X : Params ws K V) (g : Word ws → Option (K × V)) (b : K × V) :
    Word ws → Option (K × V) :=
  fun n => if n = X.id b.1 then some b else g n

/-- The bindings of `P` are those of `g`. -/
def Graph (X : Params ws K V) (g : Word ws → Option (K × V)) (P : K × V → Prop) : Prop :=
  ∀ n q, g n = some q ↔ P q ∧ X.id q.1 = n

variable {X : Params ws K V} {t t' : Tree ws K V} {g : Word ws → Option (K × V)}
  {P : K × V → Prop}

theorem Wf.graph (h : Wf X t) : Graph X (lookup X t) (· ∈ bindings t) := by
  intro n q
  constructor
  · intro hq
    exact ⟨mem_of_find?_eq_some hq, by simpa using find?_some hq⟩
  · rintro ⟨hq, rfl⟩
    have hsome : (lookup X t (X.id q.1)).isSome = true := by
      rw [lookup, find?_isSome]
      exact ⟨q, hq, by simp⟩
    obtain ⟨q', hq'⟩ := isSome_iff_exists.mp hsome
    have hid : X.id q'.1 = X.id q.1 := by simpa using find?_some hq'
    rw [hq', h.eq_of_id_eq (mem_of_find?_eq_some hq') hq hid]

theorem Represents.standsFor (h : Represents X P t) (hw : Wf X t) (hg : Graph X g P) :
    StandsFor X g t := by
  intro n
  cases hn : g n with
  | none =>
    cases hl : lookup X t n with
    | none => exact .none
    | some q =>
      obtain ⟨hq, hid⟩ := (hw.graph n q).mp hl
      obtain ⟨p, hp, heq⟩ := h.sound q hq
      rw [(hg n p).mpr ⟨hp, heq.1.trans hid⟩] at hn
      cases hn
  | some p =>
    obtain ⟨hp, hid⟩ := (hg n p).mp hn
    obtain ⟨q, hq, heq⟩ := h.complete p hp
    rw [(hw.graph n q).mpr ⟨hq, heq.1.symm.trans hid⟩]
    exact .some heq

theorem SameBindings.represents (h : SameBindings X t t') (hw : Wf X t) (hw' : Wf X t') :
    Represents X (· ∈ bindings t) t' := by
  constructor
  · intro q hq
    have hrel := h (X.id q.1)
    rw [(hw'.graph _ q).mpr ⟨hq, rfl⟩] at hrel
    cases hl : lookup X t (X.id q.1) with
    | none => rw [hl] at hrel; cases hrel
    | some p =>
      rw [hl] at hrel
      cases hrel with
      | some heq => exact ⟨p, ((hw.graph _ p).mp hl).1, heq⟩
  · intro p hp
    have hrel := h (X.id p.1)
    rw [(hw.graph _ p).mpr ⟨hp, rfl⟩] at hrel
    cases hl : lookup X t' (X.id p.1) with
    | none => rw [hl] at hrel; cases hrel
    | some q =>
      rw [hl] at hrel
      cases hrel with
      | some heq => exact ⟨q, ((hw'.graph _ q).mp hl).1, heq⟩

/-! ### Functions of the results -/

theorem graph_empty : Graph X (fun _ => none) (fun _ => False) := by
  intro n q
  simp

theorem Graph.update (h : Graph X g P) (b : K × V) :
    Graph X (Hcpt.update X g b) (extend X P b) := by
  intro n q
  rw [Hcpt.update, extend]
  split_ifs with hn
  · subst hn
    constructor
    · intro hq
      obtain rfl := some.inj hq
      exact ⟨.inl rfl, rfl⟩
    · rintro ⟨rfl | ⟨-, hne⟩, hid⟩
      · rfl
      · exact absurd hid hne
  · rw [h n q]
    constructor
    · rintro ⟨hq, rfl⟩
      exact ⟨.inr ⟨hq, hn⟩, rfl⟩
    · rintro ⟨rfl | ⟨hq, -⟩, hid⟩
      · exact absurd hid.symm hn
      · exact ⟨hq, hid⟩

theorem Graph.foldl_update (h : Graph X g P) (l : List (K × V)) :
    Graph X (l.foldl (Hcpt.update X) g) (l.foldl (extend X) P) := by
  induction l generalizing g P with
  | nil => exact h
  | cons b l ih => exact ih (h.update b)

theorem Graph.erase (h : Graph X g P) (i : Word ws) :
    Graph X (fun n => if n = i then none else g n) (fun q => P q ∧ X.id q.1 ≠ i) := by
  intro n q
  dsimp only
  split_ifs with hn
  · simp only [false_iff]
    rintro ⟨⟨-, hne⟩, hid⟩
    exact hne (hid.trans hn)
  · rw [h n q]
    constructor
    · rintro ⟨hq, rfl⟩
      exact ⟨⟨hq, hn⟩, rfl⟩
    · rintro ⟨⟨hq, -⟩, hid⟩
      exact ⟨hq, hid⟩

theorem Graph.filter (h : Graph X g P) (pr : K × V → Bool) :
    Graph X (fun n => (g n).filter pr) (fun q => P q ∧ pr q = true) := by
  intro n q
  rw [filter_eq_some_iff, h n q]
  tauto

theorem Graph.filterMap (h : Graph X g P) (pr : K → V → Option V) :
    Graph X (fun n => (g n).bind (fun q => (pr q.1 q.2).map (q.1, ·)))
      (fun q => ∃ v, P (q.1, v) ∧ pr q.1 v = some q.2) := by
  rintro n ⟨k, v'⟩
  simp only [bind_eq_some_iff, map_eq_some_iff, Prod.mk.injEq]
  constructor
  · rintro ⟨⟨k', v⟩, hq, w, hw, rfl, rfl⟩
    obtain ⟨hP, hid⟩ := (h n _).mp hq
    exact ⟨⟨v, hP, hw⟩, hid⟩
  · rintro ⟨⟨v, hP, hv⟩, hid⟩
    exact ⟨(k, v), (h n _).mpr ⟨hP, hid⟩, v', hv, rfl, rfl⟩

/-- Bindings with different identifiers are all kept. -/
theorem foldl_extend {l : List (K × V)} (hl : l.Pairwise (fun q q' => X.id q.1 ≠ X.id q'.1))
    (hP : ∀ q, P q → ∀ b ∈ l, X.id q.1 ≠ X.id b.1) (q : K × V) :
    l.foldl (extend X) P q ↔ P q ∨ q ∈ l := by
  induction l generalizing P with
  | nil => simp
  | cons b l ih =>
    rw [pairwise_cons] at hl
    rw [foldl_cons, ih hl.2, mem_cons, extend]
    · have hb := fun hq : P q => hP q hq b mem_cons_self
      tauto
    · rintro q' (rfl | ⟨hq', -⟩) b' hb'
      · exact hl.1 b' hb'
      · exact hP q' hq' b' (mem_cons_of_mem _ hb')

end Functions

/-! ## Queries -/

section Queries

variable {X : Params ws K V} {t t0 t1 : Tree ws K V}

theorem lookup_eq_none {n : Word ws} (h : ∀ q ∈ bindings t, X.id q.1 ≠ n) :
    lookup X t n = none := by
  rw [lookup, find?_eq_none]
  intro q hq
  simpa using h q hq

theorem lookup_branch (a u : ℕ) (p m n : Word ws) :
    lookup X (.branch a u p m t0 t1) n = (lookup X t0 n).or (lookup X t1 n) :=
  find?_append

theorem findOpt_eq (h : Wf X t) (k : K) :
    findOpt X k t = (lookup X t (X.id k)).map Prod.snd := by
  rw [findOpt]
  induction t with
  | empty => rfl
  | leaf a u j v =>
    rw [findAux, lookup, bindings, find?_singleton]
    by_cases heq : bits X k = bits X j
    · simp [heq, bits_inj.mp heq]
    · have hid : X.id j ≠ X.id k := fun h => heq (bits_inj.mpr h.symm)
      simp [heq, hid]
  | branch a u p m t0 t1 ih0 ih1 =>
    obtain ⟨⟨i, rfl, hp, hsplit⟩, -, hw0, hw1⟩ := h
    rw [findAux, lookup_branch]
    by_cases hag : Agree i (bits X k) p
    · rw [if_pos ((matchPrefix_twoPow hsplit.lt hp).mpr hag), zeroBit_twoPow hsplit.lt]
      cases hbit : (bits X k).getLsbD i with
      | false =>
        have hnone : lookup X t1 (X.id k) = none :=
          lookup_eq_none (fun q hq => hsplit.right.id_ne (by simp [hbit]) hq)
        rw [hnone, or_none]
        exact ih0 hw0
      | true =>
        have hnone : lookup X t0 (X.id k) = none :=
          lookup_eq_none (fun q hq => hsplit.left.id_ne (by simp [hbit]) hq)
        rw [hnone, none_or]
        exact ih1 hw1
    · have hnone0 : lookup X t0 (X.id k) = none :=
        lookup_eq_none (fun q hq => hsplit.id_ne hag (.inl hq))
      have hnone1 : lookup X t1 (X.id k) = none :=
        lookup_eq_none (fun q hq => hsplit.id_ne hag (.inr hq))
      rw [if_neg (fun h => hag ((matchPrefix_twoPow hsplit.lt hp).mp h)), hnone0, hnone1]
      rfl

theorem mem_eq_findOpt (k : K) (t : Tree ws K V) : mem X k t = (findOpt X k t).isSome := by
  rw [mem, findOpt]
  induction t with
  | empty => rfl
  | leaf a u j v =>
    rw [memAux, findAux]
    split_ifs with heq <;> simp [heq]
  | branch a u p m t0 t1 ih0 ih1 =>
    rw [memAux, findAux, ih0, ih1]
    cases matchPrefix (bits X k) p m <;> cases zeroBit (bits X k) m <;> rfl

end Queries

/-! ## Runs -/

section Runs

/-- An operation, on maps given by their places among those built before; a place
that is not there is the empty map. -/
inductive Op (ws : WordSize) (K V : Type)
  | empty
  | singleton (k : K) (v : V)
  | add (k : K) (v : V) (n : ℕ)
  | remove (k : K) (n : ℕ)
  | filter (pr : K → V → Bool) (n : ℕ)
  | filterMap (pr : K → V → Option V) (n : ℕ)
  | partition (pr : K → V → Bool) (n : ℕ)
  | split (k : K) (n : ℕ)
  | addSeq (l : List (K × V)) (n : ℕ)
  | ofSeq (l : List (K × V))

/-- The state, and the maps built so far. -/
structure Heap (ws : WordSize) (K V : Type) where
  state : State ws K V
  maps : List (Tree ws K V)

def Heap.init : Heap ws K V := ⟨State.init, []⟩

def Heap.get (h : Heap ws K V) (n : ℕ) : Tree ws K V := h.maps.getD n .empty

def Heap.push (h : Heap ws K V) (r : Tree ws K V × State ws K V) : Heap ws K V :=
  ⟨r.2, r.1 :: h.maps⟩

/-- `none` when an assertion fails. -/
def exec (X : Params ws K V) (h : Heap ws K V) : Op ws K V → Option (Heap ws K V)
  | .empty => some (h.push (.empty, h.state))
  | .singleton k v => some (h.push (singleton X k v h.state))
  | .add k v n => some (h.push (add X k v h.state (h.get n)))
  | .remove k n => some (h.push (remove X k h.state (h.get n)))
  | .filter pr n => some (h.push (filter X pr h.state (h.get n)))
  | .filterMap pr n => some (h.push (filterMap X pr h.state (h.get n)))
  | .partition pr n =>
    let r := partition X pr h.state (h.get n)
    some ⟨r.2, r.1.1 :: r.1.2 :: h.maps⟩
  | .split k n => do
    let r ← split X k h.state (h.get n)
    some ⟨r.2, r.1.1 :: r.1.2.2 :: h.maps⟩
  | .addSeq l n => some (h.push (addSeq X l h.state (h.get n)))
  | .ofSeq l => some (h.push (ofSeq X l h.state))

def run (X : Params ws K V) (ops : List (Op ws K V)) : Option (Heap ws K V) :=
  ops.foldlM (exec X) Heap.init

structure Heap.Valid (X : Params ws K V) (h : Heap ws K V) : Prop where
  inv : Inv X h.state
  known : ∀ t ∈ h.maps, Known h.state t
  wf : ∀ t ∈ h.maps, Wf X t

variable {X : Params ws K V} {h : Heap ws K V}

theorem Heap.valid_init : (Heap.init : Heap ws K V).Valid X :=
  ⟨inv_init, fun _ ht => absurd ht not_mem_nil, fun _ ht => absurd ht not_mem_nil⟩

theorem Heap.Valid.get (hv : h.Valid X) (n : ℕ) : Known h.state (h.get n) ∧ Wf X (h.get n) := by
  by_cases hn : n < h.maps.length
  · have hmem : h.get n ∈ h.maps := by
      rw [Heap.get, getD_eq_getElem _ _ hn]
      exact getElem_mem hn
    exact ⟨hv.known _ hmem, hv.wf _ hmem⟩
  · have hempty : h.get n = .empty := getD_eq_default _ _ (by omega)
    rw [hempty]
    exact ⟨.inl rfl, trivial⟩

/-- New maps next to the old ones. -/
theorem Heap.Valid.add (hv : h.Valid X) {s : State ws K V} (hs : Step X h.state s)
    {l : List (Tree ws K V)} (hl : ∀ t ∈ l, ∃ P, IsMap X s P t) :
    (⟨s, l ++ h.maps⟩ : Heap ws K V).Valid X := by
  refine ⟨hs.inv, fun t ht => ?_, fun t ht => ?_⟩
  · rcases mem_append.mp ht with ht | ht
    · obtain ⟨P, hP⟩ := hl t ht
      exact hP.known
    · exact (hv.known t ht).step hs
  · rcases mem_append.mp ht with ht | ht
    · obtain ⟨P, hP⟩ := hl t ht
      exact hP.wf
    · exact hv.wf t ht

theorem Heap.Valid.push (hv : h.Valid X) {r : Tree ws K V × State ws K V} {P : K × V → Prop}
    (hr : Spec X h.state r P) : (h.push r).Valid X :=
  hv.add (l := [r.1]) hr.step (by simpa using ⟨P, hr.map⟩)

theorem exec_valid (hX : X.Lawful) (hv : h.Valid X) (op : Op ws K V) :
    ∃ h', exec X h op = some h' ∧ h'.Valid X := by
  have hempty : IsMap X h.state (fun _ => False) .empty := isMap_empty (fun _ hq => hq)
  cases op with
  | empty => exact ⟨_, rfl, hv.push (hempty.spec hv.inv)⟩
  | singleton k v => exact ⟨_, rfl, hv.push (add_map hX k v hv.inv hempty)⟩
  | add k v n =>
    obtain ⟨hk, hw⟩ := hv.get n
    exact ⟨_, rfl, hv.push (add_map hX k v hv.inv (isMap_self hX hk hw))⟩
  | remove k n =>
    obtain ⟨hk, hw⟩ := hv.get n
    exact ⟨_, rfl, hv.push (rmv_map hX k hv.inv hk hw)⟩
  | filter pr n =>
    obtain ⟨hk, hw⟩ := hv.get n
    exact ⟨_, rfl, hv.push (filter_map hX pr hv.inv hk hw)⟩
  | filterMap pr n =>
    obtain ⟨hk, hw⟩ := hv.get n
    exact ⟨_, rfl, hv.push (filterMap_map hX pr hv.inv hk hw)⟩
  | partition pr n =>
    have hacc : PartSpec X h.state ((.empty, .empty), h.state) _ _ :=
      ⟨.refl hv.inv, hempty, hempty⟩
    have hr := part_map hX pr hacc (h.get n)
    exact ⟨_, rfl, hv.add (l := [_, _]) hr.step (by simpa using ⟨⟨_, hr.left⟩, _, hr.right⟩)⟩
  | split k n =>
    obtain ⟨hk, hw⟩ := hv.get n
    obtain ⟨r, hr, hspec⟩ := splitAux_map hX k hv.inv hk hw
    refine ⟨⟨r.2, [r.1.1, r.1.2.2] ++ h.maps⟩, ?_, hv.add hspec.step
      (by simpa using ⟨⟨_, hspec.left⟩, _, hspec.right⟩)⟩
    rw [exec, split, hr]
    rfl
  | addSeq l n =>
    obtain ⟨hk, hw⟩ := hv.get n
    exact ⟨_, rfl, hv.push (addSeq_map hX l hv.inv (isMap_self hX hk hw))⟩
  | ofSeq l => exact ⟨_, rfl, hv.push (addSeq_map hX l hv.inv hempty)⟩

theorem run_valid (hX : X.Lawful) (ops : List (Op ws K V)) :
    ∃ h, run X ops = some h ∧ h.Valid X := by
  suffices hfold : ∀ (h : Heap ws K V), h.Valid X →
      ∃ h', ops.foldlM (exec X) h = some h' ∧ h'.Valid X from hfold _ Heap.valid_init
  induction ops with
  | nil => exact fun h hv => ⟨h, rfl, hv⟩
  | cons op ops ih =>
    intro h hv
    obtain ⟨h', hexec, hv'⟩ := exec_valid hX hv op
    obtain ⟨h'', hops, hv''⟩ := ih h' hv'
    exact ⟨h'', by rw [foldlM_cons, hexec]; exact hops, hv''⟩

end Runs

/-! ## What the operations are for -/

section Specification

def Sorted (X : Params ws K V) (t : Tree ws K V) : Prop :=
  (bindings t).Pairwise (fun q q' => (X.id q.1).toInt < (X.id q'.1).toInt)

/-- The operations that make a map, in the state `s`. -/
structure Creates (X : Params ws K V) (s : State ws K V) : Prop where
  empty : StandsFor X (fun _ => none) .empty
  singleton : ∀ k v, StandsFor X (update X (fun _ => none) (k, v)) (singleton X k v s).1
  ofSeq : ∀ l, StandsFor X (l.foldl (update X) (fun _ => none)) (ofSeq X l s).1

/-- The operations on the map `t`, in the state `s`. -/
structure Computes (X : Params ws K V) (s : State ws K V) (t : Tree ws K V) : Prop where
  mem : ∀ k, mem X k t = (lookup X t (X.id k)).isSome
  findOpt : ∀ k, findOpt X k t = (lookup X t (X.id k)).map Prod.snd
  add : ∀ k v, StandsFor X (update X (lookup X t) (k, v)) (add X k v s t).1
  remove : ∀ k, StandsFor X (fun n => if n = X.id k then none else lookup X t n)
    (remove X k s t).1
  filter : ∀ pr, StandsFor X (fun n => (lookup X t n).filter (fun q => pr q.1 q.2))
    (filter X pr s t).1
  filterMap : ∀ pr, StandsFor X
    (fun n => (lookup X t n).bind (fun q => (pr q.1 q.2).map (q.1, ·))) (filterMap X pr s t).1
  partition : ∀ pr,
    StandsFor X (fun n => (lookup X t n).filter (fun q => pr q.1 q.2))
      (partition X pr s t).1.1 ∧
    StandsFor X (fun n => (lookup X t n).filter (fun q => !pr q.1 q.2))
      (partition X pr s t).1.2
  split : ∀ k, ∃ r, split X k s t = some r ∧
    StandsFor X (fun n => (lookup X t n).filter
      (fun q => decide ((X.id q.1).toInt < (X.id k).toInt))) r.1.1 ∧
    r.1.2.1 = (lookup X t (X.id k)).map Prod.snd ∧
    StandsFor X (fun n => (lookup X t n).filter
      (fun q => decide ((X.id k).toInt < (X.id q.1).toInt))) r.1.2.2
  addSeq : ∀ l, StandsFor X (l.foldl (update X) (lookup X t)) (addSeq X l s t).1

variable {X : Params ws K V} {s : State ws K V} {t t' : Tree ws K V}

theorem Spec.standsFor {r : Tree ws K V × State ws K V} {P : K × V → Prop}
    {g : Word ws → Option (K × V)} (h : Spec X s r P) (hg : Graph X g P) : StandsFor X g r.1 :=
  h.map.repr.standsFor h.map.wf hg

theorem Wf.filter_extend (hw : Wf X t) (pr : K × V → Bool) (q : K × V) :
    ((bindings t).filter pr).foldl (extend X) (fun _ => False) q ↔
      q ∈ bindings t ∧ pr q = true := by
  rw [foldl_extend _ (fun _ hq => hq.elim), mem_filter, false_or]
  refine (hw.sorted.sublist filter_sublist).imp (fun hlt heq => ?_)
  rw [heq] at hlt
  exact lt_irrefl _ hlt

theorem creates (hX : X.Lawful) (hs : Inv X s) : Creates X s := by
  have hempty : IsMap X s (fun _ => False) .empty := isMap_empty (fun _ hq => hq)
  refine ⟨?_, fun k v => ?_, fun l => ?_⟩
  · exact (hempty.spec hs).standsFor graph_empty
  · exact (add_map hX k v hs hempty).standsFor (graph_empty.update _)
  · exact (addSeq_map hX l hs hempty).standsFor (graph_empty.foldl_update l)

theorem split_value {k : K} {r : (Tree ws K V × Option V × Tree ws K V) × State ws K V}
    (h : SplitSpec X k s t r) (hw : Wf X t) :
    r.1.2.1 = (lookup X t (X.id k)).map Prod.snd := by
  ext v
  rw [h.value v, map_eq_some_iff]
  constructor
  · rintro ⟨k', hk', hid⟩
    exact ⟨(k', v), (hw.graph _ _).mpr ⟨hk', hid⟩, rfl⟩
  · rintro ⟨⟨k', v'⟩, hq, rfl⟩
    exact ⟨k', (hw.graph _ _).mp hq⟩

theorem computes (hX : X.Lawful) (hs : Inv X s) (hk : Known s t) (hw : Wf X t) :
    Computes X s t := by
  have hmap := isMap_self hX hk hw
  refine ⟨fun k => ?_, fun k => findOpt_eq hw k, fun k v => ?_, fun k => ?_, fun pr => ?_,
    fun pr => ?_, fun pr => ?_, fun k => ?_, fun l => ?_⟩
  · rw [mem_eq_findOpt, findOpt_eq hw, isSome_map]
  · exact (add_map hX k v hs hmap).standsFor (hw.graph.update _)
  · exact (rmv_map hX k hs hk hw).standsFor (hw.graph.erase _)
  · exact (filter_map hX pr hs hk hw).standsFor (hw.graph.filter _)
  · exact (filterMap_map hX pr hs hk hw).standsFor (hw.graph.filterMap pr)
  · have hempty : IsMap X s (fun _ => False) .empty := isMap_empty (fun _ hq => hq)
    have hacc : PartSpec X s ((.empty, .empty), s) _ _ := ⟨.refl hs, hempty, hempty⟩
    have hr := part_map hX pr hacc t
    have hleft := hr.left.congr (hw.filter_extend _)
    have hright := hr.right.congr (hw.filter_extend _)
    exact ⟨hleft.repr.standsFor hleft.wf (hw.graph.filter _),
      hright.repr.standsFor hright.wf (hw.graph.filter _)⟩
  · obtain ⟨r, hr, hspec⟩ := splitAux_map hX k hs hk hw
    have hleft : IsMap X r.2 (fun q => q ∈ bindings t ∧
        decide ((X.id q.1).toInt < (X.id k).toInt) = true) r.1.1 :=
      hspec.left.congr (fun q => by simp)
    have hright : IsMap X r.2 (fun q => q ∈ bindings t ∧
        decide ((X.id k).toInt < (X.id q.1).toInt) = true) r.1.2.2 :=
      hspec.right.congr (fun q => by simp)
    exact ⟨r, hr, hleft.repr.standsFor hleft.wf (hw.graph.filter _), split_value hspec hw,
      hright.repr.standsFor hright.wf (hw.graph.filter _)⟩
  · exact (addSeq_map hX l hs hmap).standsFor (hw.graph.foldl_update l)

theorem sameBindings_iff (hX : X.Lawful) (hs : Inv X s) (hk : Known s t) (hk' : Known s t')
    (hw : Wf X t) (hw' : Wf X t') : SameBindings X t t' ↔ t = t' := by
  constructor
  · intro h
    exact eq_of_represents hX hs hk hk' hw hw' (h.represents hw hw')
  · rintro rfl
    exact (represents_bindings hX t).standsFor hw hw.graph

/-- After any run, maps are equal exactly when they hold the same bindings. -/
theorem maps_canonical (hX : X.Lawful) (ops : List (Op ws K V)) :
    ∃ h, run X ops = some h ∧
      (∀ t ∈ h.maps, ∀ t' ∈ h.maps, (equal t t' = true ↔ SameBindings X t t') ∧
        (id t = id t' ↔ SameBindings X t t')) ∧
      Creates X h.state ∧ (∀ t ∈ h.maps, Sorted X t ∧ Computes X h.state t) ∧
      ∀ cmp, TotalOrder (fun _ => True) (fun v v' => X.equal v v' = true) cmp →
        TotalOrder (· ∈ h.maps) (fun t t' => equal t t' = true) (compare X cmp) := by
  obtain ⟨h, hrun, hv⟩ := run_valid hX ops
  have hequal : ∀ t ∈ h.maps, ∀ t' ∈ h.maps, (equal t t' = true ↔ t = t') :=
    fun t ht t' ht' => hv.inv.equal_iff (hv.known t ht) (hv.known t' ht')
  refine ⟨h, hrun, fun t ht t' ht' => ?_, creates hX hv.inv, fun t ht => ?_, fun cmp hcmp => ?_⟩
  · rw [sameBindings_iff hX hv.inv (hv.known t ht) (hv.known t' ht') (hv.wf t ht) (hv.wf t' ht')]
    exact ⟨hequal t ht t' ht', hv.inv.hash_iff (hv.known t ht) (hv.known t' ht')⟩
  · exact ⟨(hv.wf t ht).sorted, computes hX hv.inv (hv.known t ht) (hv.wf t ht)⟩
  · refine ((compare_totalOrder hX hv.inv hcmp).comap (Q := (· ∈ h.maps)) (fun t => t)
      hv.known).image (fun t => t) (fun t ht => ⟨t, ht, rfl⟩) (fun _ _ => rfl) ?_
    exact fun t t' ht ht' => hequal t ht t' ht'

/-- Sets of integers, negative ones included. -/
theorem maps_canonical_set :
    ∃ h, run (setParams (fun k : Word .ws64 => k))
        [.ofSeq [(-1, ()), (5, ())], .singleton 5 (), .add (-1) () 0, .remove 5 0] = some h ∧
      ∀ t ∈ h.maps, ∀ t' ∈ h.maps,
        (equal t t' = true ↔ SameBindings (setParams (fun k : Word .ws64 => k)) t t') := by
  obtain ⟨h, hrun, heq, -⟩ := maps_canonical (setParams_lawful (fun k : Word .ws64 => k))
    [.ofSeq [(-1, ()), (5, ())], .singleton 5 (), .add (-1) () 0, .remove 5 0]
  exact ⟨h, hrun, fun t ht t' ht' => (heq t ht t' ht').1⟩

end Specification

end Why3.Hcpt
