import Why3.Util.HcptTable

/-!
# Well-formed Patricia trees

A branch tests the bit `i` of the bits of a key, and the keys below it agree with
its prefix up to that bit; both sons are nonempty.  Every operation keeps this
shape, and a well-formed tree is known by its bindings.
-/

namespace Why3.Hcpt

open BitPrefix List

variable {ws : WordSize} {K V : Type}

/-! ## The shape -/

variable {q : K × V} {q' : K × V}

section Shape

/-- The keys start with the first `i` bits of `p`, and their next bit is `c`. -/
def Fits (X : Params ws K V) (i : ℕ) (p : Word ws) (c : Bool) (t : Tree ws K V) : Prop :=
  ∀ q ∈ bindings t, Agree i (bits X q.1) p ∧ (bits X q.1).getLsbD i = c

/-- The sons of a branch that tests the bit `i`. -/
structure Split (X : Params ws K V) (i : ℕ) (p : Word ws) (t0 t1 : Tree ws K V) : Prop where
  lt : i < ws.intSize
  left : Fits X i p false t0
  right : Fits X i p true t1

def Wf (X : Params ws K V) : Tree ws K V → Prop
  | .empty => True
  | .leaf _ _ _ _ => True
  | .branch _ _ p m t0 t1 =>
    (∃ i, m = BitVec.twoPow _ i ∧ Low i p ∧ Split X i p t0 t1) ∧
      (t0 ≠ .empty ∧ t1 ≠ .empty) ∧ Wf X t0 ∧ Wf X t1

variable {X : Params ws K V} {i : ℕ} {p p' : Word ws} {t t0 t1 : Tree ws K V}

theorem Wf.exists_mem (h : Wf X t) (ht : t ≠ .empty) : ∃ q, q ∈ bindings t := by
  induction t with
  | empty => exact absurd rfl ht
  | leaf a u k v => exact ⟨(k, v), by simp [bindings]⟩
  | branch a u p m t0 t1 ih0 ih1 =>
    obtain ⟨q, hq⟩ := ih0 h.2.2.1 h.2.1.1
    exact ⟨q, by simp [bindings, hq]⟩

theorem Fits.congr {c : Bool} (h : Fits X i p c t) (hp : Agree i p p') : Fits X i p' c t :=
  fun q hq => ⟨(h q hq).1.trans hp, (h q hq).2⟩

theorem Split.agree (h : Split X i p t0 t1)
    (hq : q ∈ bindings t0 ∨ q ∈ bindings t1) : Agree i (bits X q.1) p := by
  rcases hq with hq | hq
  · exact (h.left q hq).1
  · exact (h.right q hq).1

theorem Split.firstDiff (h : Split X i p t0 t1) (hq : q ∈ bindings t0)
    (hq' : q' ∈ bindings t1) : FirstDiff i (bits X q.1) (bits X q'.1) := by
  obtain ⟨hag, hbit⟩ := h.left q hq
  obtain ⟨hag', hbit'⟩ := h.right q' hq'
  exact ⟨h.lt, hag.trans hag'.symm, by simp [hbit, hbit']⟩

/-- The bindings of a well-formed tree are sorted. -/
theorem Wf.sorted (h : Wf X t) :
    (bindings t).Pairwise (fun q q' => (X.id q.1).toInt < (X.id q'.1).toInt) := by
  induction t with
  | empty => exact List.Pairwise.nil
  | leaf a u k v => exact pairwise_singleton _ _
  | branch a u p m t0 t1 ih0 ih1 =>
    obtain ⟨⟨i, -, -, hsplit⟩, -, h0, h1⟩ := h
    refine pairwise_append.mpr ⟨ih0 h0, ih1 h1, fun q hq q' hq' => ?_⟩
    exact toInt_lt_of_bits (hsplit.firstDiff hq hq') (hsplit.left q hq).2

theorem Wf.eq_of_id_eq (h : Wf X t) (hq : q ∈ bindings t) (hq' : q' ∈ bindings t)
    (hid : X.id q.1 = X.id q'.1) : q = q' := by
  by_contra hne
  have hpair := h.sorted.imp (S := fun q q' => X.id q.1 ≠ X.id q'.1) (fun hlt heq => by
    rw [heq] at hlt
    exact lt_irrefl _ hlt)
  have : Std.Symm (fun q q' : K × V => X.id q.1 ≠ X.id q'.1) := ⟨fun _ _ hr heq => hr heq.symm⟩
  exact hpair.forall hq hq' hne hid

theorem Wf.treePrefix_fits (h : Wf X t) (ht : t ≠ .empty) {c : Bool} (hfits : Fits X i p c t) :
    Agree i (treePrefix X t ht) p ∧ (treePrefix X t ht).getLsbD i = c := by
  cases t with
  | empty => exact absurd rfl ht
  | leaf a u k v => exact hfits (k, v) (by simp [bindings])
  | branch a u p' m t0 t1 =>
    obtain ⟨⟨j, -, -, hsplit⟩, ⟨hne0, hne1⟩, h0, h1⟩ := h
    obtain ⟨q0, hq0⟩ := h0.exists_mem hne0
    obtain ⟨q1, hq1⟩ := h1.exists_mem hne1
    obtain ⟨hag0, hbit0⟩ := hfits q0 (by simp [bindings, hq0])
    obtain ⟨hag1, hbit1⟩ := hfits q1 (by simp [bindings, hq1])
    have hij : i < j := by
      by_contra hle
      have hdiff := hsplit.firstDiff hq0 hq1
      rcases Nat.lt_or_eq_of_le (not_lt.mp hle) with hlt | rfl
      · exact hdiff.not_agree hlt (hag0.trans hag1.symm)
      · exact hdiff.ne (hbit0.trans hbit1.symm)
    have hag := hsplit.agree (.inl hq0)
    exact ⟨(hag.symm.mono hij.le).trans hag0, (hag i hij).symm.trans hbit0⟩

end Shape

/-! ## Results of the operations -/

section Results

variable {X : Params ws K V}

theorem eqv_refl (hX : X.Lawful) (q : K × V) : Eqv X q q := ⟨rfl, hX.refl _⟩

theorem Eqv.symm (hX : X.Lawful) (h : Eqv X q q') : Eqv X q' q :=
  ⟨h.1.symm, hX.symm _ _ h.2⟩

theorem Eqv.trans (hX : X.Lawful) {q'' : K × V} (h : Eqv X q q') (h' : Eqv X q' q'') :
    Eqv X q q'' :=
  ⟨h.1.trans h'.1, hX.trans _ _ _ h.2 h'.2⟩

theorem Eqv.bits_eq (h : Eqv X q q') : bits X q.1 = bits X q'.1 :=
  bits_inj.mpr h.1

/-- The map stands for the bindings of `P`. -/
structure Represents (X : Params ws K V) (P : K × V → Prop) (t : Tree ws K V) : Prop where
  sound : ∀ q ∈ bindings t, ∃ p, P p ∧ Eqv X p q
  complete : ∀ p, P p → ∃ q ∈ bindings t, Eqv X p q

/-- In the state `s`, a map that stands for the bindings of `P`. -/
structure IsMap (X : Params ws K V) (s : State ws K V) (P : K × V → Prop) (t : Tree ws K V) :
    Prop where
  known : Known s t
  wf : Wf X t
  repr : Represents X P t

/-- From the state `s`, an operation returns a map that stands for `P`. -/
structure Spec (X : Params ws K V) (s : State ws K V) (r : Tree ws K V × State ws K V)
    (P : K × V → Prop) : Prop where
  step : Step X s r.2
  map : IsMap X r.2 P r.1

variable {s s' : State ws K V} {t t0 t1 : Tree ws K V} {r : Tree ws K V × State ws K V}
  {P P' P0 P1 : K × V → Prop}

theorem Represents.congr (h : Represents X P t) (hP : ∀ q, P q ↔ P' q) : Represents X P' t := by
  have heq : P = P' := funext (fun q => propext (hP q))
  exact heq ▸ h

theorem represents_bindings (hX : X.Lawful) (t : Tree ws K V) : Represents X (· ∈ bindings t) t :=
  ⟨fun q hq => ⟨q, hq, eqv_refl hX q⟩, fun q hq => ⟨q, hq, eqv_refl hX q⟩⟩

theorem Represents.branch (h0 : Represents X P0 t0) (h1 : Represents X P1 t1) (a u : ℕ) (p m : Word ws) :
    Represents X (fun q => P0 q ∨ P1 q) (.branch a u p m t0 t1) := by
  constructor
  · intro q hq
    rcases mem_append.mp hq with hq | hq
    · obtain ⟨q', hq', heq⟩ := h0.sound q hq
      exact ⟨q', .inl hq', heq⟩
    · obtain ⟨q', hq', heq⟩ := h1.sound q hq
      exact ⟨q', .inr hq', heq⟩
  · rintro q (hq | hq)
    · obtain ⟨q', hq', heq⟩ := h0.complete q hq
      exact ⟨q', mem_append_left _ hq', heq⟩
    · obtain ⟨q', hq', heq⟩ := h1.complete q hq
      exact ⟨q', mem_append_right _ hq', heq⟩

theorem Represents.fits (h : Represents X P t) {i : ℕ} {p : Word ws} {c : Bool}
    (hP : ∀ q, P q → Agree i (bits X q.1) p ∧ (bits X q.1).getLsbD i = c) : Fits X i p c t := by
  intro q hq
  obtain ⟨q', hq', heq⟩ := h.sound q hq
  exact heq.bits_eq ▸ hP q' hq'

theorem Represents.ne_empty (h : Represents X P t) (hq : P q) : t ≠ .empty := by
  rintro rfl
  obtain ⟨q', hq', -⟩ := h.complete q hq
  cases hq'

theorem IsMap.congr (h : IsMap X s P t) (hP : ∀ q, P q ↔ P' q) : IsMap X s P' t :=
  { h with repr := h.repr.congr hP }

theorem IsMap.step (h : IsMap X s P t) (hs : Step X s s') : IsMap X s' P t :=
  { h with known := h.known.step hs }

theorem isMap_empty (hP : ∀ q, ¬ P q) : IsMap X s P .empty :=
  ⟨.inl rfl, trivial, fun _ hq => absurd hq not_mem_nil, fun q hq => absurd hq (hP q)⟩

theorem Spec.congr (h : Spec X s r P) (hP : ∀ q, P q ↔ P' q) : Spec X s r P' :=
  { h with map := h.map.congr hP }

theorem Spec.after (h' : Spec X s' r P) (h : Step X s s') : Spec X s r P :=
  { h' with step := h.trans h'.step }

/-- An operation that returns a map it was given. -/
theorem IsMap.spec (h : IsMap X s P t) (hs : Inv X s) : Spec X s (t, s) P :=
  ⟨.refl hs, h⟩

theorem leaf_map (hX : X.Lawful) (hs : Inv X s) (k : K) (v : V) :
    Spec X s (leaf X s k v) (· = (k, v)) := by
  obtain ⟨hstep, hknown, a, u, k', v', heq, heqv⟩ := leaf_spec hX hs k v
  refine ⟨hstep, hknown, heq ▸ trivial, ?_⟩
  rw [heq]
  constructor
  · intro q hq
    rw [mem_singleton.mp hq]
    exact ⟨_, rfl, heqv⟩
  · rintro q rfl
    exact ⟨_, mem_singleton_self _, heqv⟩

end Results

/-! ## Building nodes -/

section Nodes

variable {X : Params ws K V} {s : State ws K V} {t0 t1 : Tree ws K V} {i : ℕ} {p : Word ws}
  {P0 P1 : K × V → Prop}

theorem branch_map (hX : X.Lawful) (hs : Inv X s) (hp : Low i p) (hsplit : Split X i p t0 t1)
    (h0 : IsMap X s P0 t0) (h1 : IsMap X s P1 t1) (hne0 : t0 ≠ .empty) (hne1 : t1 ≠ .empty) :
    Spec X s (branch X s p (BitVec.twoPow _ i) t0 t1) (fun q => P0 q ∨ P1 q) := by
  obtain ⟨hstep, hknown, a, u, heq⟩ :=
    branch_spec hX hs p (BitVec.twoPow _ i) h0.known h1.known
  refine ⟨hstep, hknown, ?_, ?_⟩
  · rw [heq]
    exact ⟨⟨i, rfl, hp, hsplit⟩, ⟨hne0, hne1⟩, h0.wf, h1.wf⟩
  · rw [heq]
    exact h0.repr.branch h1.repr _ _ _ _

theorem smartBranch_map (hX : X.Lawful) (hs : Inv X s) (hp : Low i p)
    (hsplit : Split X i p t0 t1) (h0 : IsMap X s P0 t0) (h1 : IsMap X s P1 t1) :
    Spec X s (smartBranch X s p (BitVec.twoPow _ i) t0 t1) (fun q => P0 q ∨ P1 q) := by
  unfold smartBranch
  split
  · have hno : ∀ q, ¬ P0 q := fun q hq => h0.repr.ne_empty hq rfl
    exact (h1.congr (fun q => by simp [hno])).spec hs
  · have hno : ∀ q, ¬ P1 q := fun q hq => h1.repr.ne_empty hq rfl
    exact (h0.congr (fun q => by simp [hno])).spec hs
  · next hne0 hne1 => exact branch_map hX hs hp hsplit h0 h1 hne0 hne1

/-- The two trees have prefixes that differ at `i`. -/
theorem join_map (hX : X.Lawful) (hs : Inv X s) {p0 p1 : Word ws} (hp : FirstDiff i p0 p1)
    (hag0 : ∀ q ∈ bindings t0, Agree (i + 1) (bits X q.1) p0)
    (hag1 : ∀ q ∈ bindings t1, Agree (i + 1) (bits X q.1) p1)
    (h0 : IsMap X s P0 t0) (h1 : IsMap X s P1 t1) (hne0 : t0 ≠ .empty) (hne1 : t1 ≠ .empty) :
    Spec X s (join X s p0 t0 p1 t1) (fun q => P0 q ∨ P1 q) := by
  have hlow : Low i (mask p0 (BitVec.twoPow _ i)) := low_mask hp.lt
  have hmask : Agree i (mask p0 (BitVec.twoPow _ i)) p0 := agree_mask hp.lt
  have hfits0 : Fits X i (mask p0 (BitVec.twoPow _ i)) (p0.getLsbD i) t0 := fun q hq =>
    ⟨((hag0 q hq).mono i.le_succ).trans hmask.symm, hag0 q hq i i.lt_succ_self⟩
  have hfits1 : Fits X i (mask p0 (BitVec.twoPow _ i)) (p1.getLsbD i) t1 := fun q hq =>
    ⟨((hag1 q hq).mono i.le_succ).trans (hp.agree.symm.trans hmask.symm),
      hag1 q hq i i.lt_succ_self⟩
  have hne := hp.ne
  unfold join
  simp only [branchingBit_eq hp, zeroBit_twoPow hp.lt]
  cases hbit : p0.getLsbD i with
  | false =>
    have hbit1 : p1.getLsbD i = true := by simpa [hbit] using hne.symm
    rw [hbit] at hfits0
    rw [hbit1] at hfits1
    exact branch_map hX hs hlow ⟨hp.lt, hfits0, hfits1⟩ h0 h1 hne0 hne1
  | true =>
    have hbit1 : p1.getLsbD i = false := by simpa [hbit] using hne.symm
    rw [hbit] at hfits0
    rw [hbit1] at hfits1
    exact (branch_map hX hs hlow ⟨hp.lt, hfits1, hfits0⟩ h1 h0 hne1 hne0).congr
      (fun q => or_comm)

/-- The assertion of `concat` holds for the parts of the two sons of a branch. -/
theorem concat_map (hX : X.Lawful) (hs : Inv X s) (hsplit : Split X i p t0 t1)
    (h0 : IsMap X s P0 t0) (h1 : IsMap X s P1 t1) :
    ∃ r, concat X s t0 t1 = some r ∧ Spec X s r (fun q => P0 q ∨ P1 q) := by
  unfold concat
  split_ifs with hne0 hne1
  · have hno : ∀ q, ¬ P0 q := fun q hq => h0.repr.ne_empty hq (addr_eq_none.mp hne0)
    exact ⟨_, rfl, (h1.congr (fun q => by simp [hno])).spec hs⟩
  · have hno : ∀ q, ¬ P1 q := fun q hq => h1.repr.ne_empty hq (addr_eq_none.mp hne1)
    exact ⟨_, rfl, (h0.congr (fun q => by simp [hno])).spec hs⟩
  · rw [addr_eq_none] at hne0 hne1
    obtain ⟨hag0, hbit0⟩ := h0.wf.treePrefix_fits hne0 hsplit.left
    obtain ⟨hag1, hbit1⟩ := h1.wf.treePrefix_fits hne1 hsplit.right
    have hdiff : FirstDiff i (treePrefix X t0 hne0) (treePrefix X t1 hne1) :=
      ⟨hsplit.lt, hag0.trans hag1.symm, by simp [hbit0, hbit1]⟩
    have hne : treePrefix X t0 hne0 ≠ treePrefix X t1 hne1 := fun heq => hdiff.ne (by rw [heq])
    have hmask := (agree_mask (x := treePrefix X t0 hne0) hsplit.lt).trans hag0
    refine ⟨_, if_neg hne, ?_⟩
    rw [branchingBit_eq hdiff]
    exact smartBranch_map hX hs (low_mask hsplit.lt)
      ⟨hsplit.lt, hsplit.left.congr hmask.symm, hsplit.right.congr hmask.symm⟩ h0 h1

end Nodes

end Why3.Hcpt

/-!
# The operations on Patricia trees

Each operation returns a well-formed tree, and says which bindings it holds.
-/

namespace Why3.Hcpt

open BitPrefix List

variable {ws : WordSize} {K V : Type} {X : Params ws K V} {s : State ws K V}

/-! ## Keys in a branch -/

section Keys

variable {i : ℕ} {p : Word ws} {c : Bool} {k : K} {t t0 t1 : Tree ws K V}

theorem Fits.id_ne (h : Fits X i p c t)
    (hk : ¬ (Agree i (bits X k) p ∧ (bits X k).getLsbD i = c)) {q : K × V} (hq : q ∈ bindings t) :
    X.id q.1 ≠ X.id k := by
  intro heq
  rw [← bits_inj] at heq
  exact hk (heq ▸ h q hq)

theorem Split.id_ne (h : Split X i p t0 t1) (hk : ¬ Agree i (bits X k) p) {q : K × V}
    (hq : q ∈ bindings t0 ∨ q ∈ bindings t1) : X.id q.1 ≠ X.id k := by
  rcases hq with hq | hq
  · exact h.left.id_ne (fun h' => hk h'.1) hq
  · exact h.right.id_ne (fun h' => hk h'.1) hq

theorem Known.sons {a u : ℕ} {m : Word ws} (h : Known s (.branch a u p m t0 t1)) (hs : Inv X s) :
    Known s t0 ∧ Known s t1 := by
  rcases h with h | h
  · cases h
  · exact ⟨hs.sons _ h t0 (by simp [Hcpt.sons]), hs.sons _ h t1 (by simp [Hcpt.sons])⟩

theorem isMap_self (hX : X.Lawful) (hk : Known s t) (hw : Wf X t) :
    IsMap X s (· ∈ bindings t) t :=
  ⟨hk, hw, represents_bindings hX t⟩

/-- A branch whose sons were replaced by maps with some of their keys. -/
theorem rebranch_map (hX : X.Lawful) (hp : Low i p) (hsplit : Split X i p t0 t1)
    {r0 r1 : Tree ws K V × State ws K V} {P0 P1 : K × V → Prop} (h0 : Spec X s r0 P0)
    (h1 : Spec X r0.2 r1 P1) (hP0 : ∀ q, P0 q → ∃ v, (q.1, v) ∈ bindings t0)
    (hP1 : ∀ q, P1 q → ∃ v, (q.1, v) ∈ bindings t1) :
    Spec X s (smartBranch X r1.2 p (BitVec.twoPow _ i) r0.1 r1.1) (fun q => P0 q ∨ P1 q) := by
  have hfits0 : Fits X i p false r0.1 := h0.map.repr.fits (fun q hq => by
    obtain ⟨v, hv⟩ := hP0 q hq
    exact hsplit.left (q.1, v) hv)
  have hfits1 : Fits X i p true r1.1 := h1.map.repr.fits (fun q hq => by
    obtain ⟨v, hv⟩ := hP1 q hq
    exact hsplit.right (q.1, v) hv)
  exact (smartBranch_map hX h1.step.inv hp ⟨hsplit.lt, hfits0, hfits1⟩ (h0.map.step h1.step)
    h1.map).after (h0.step.trans h1.step)

end Keys

/-! ## Adding bindings -/

section Add

variable {t : Tree ws K V} {P : K × V → Prop}

/-- The bindings after `b` was added. -/
def extend (X : Params ws K V) (P : K × V → Prop) (b : K × V) : K × V → Prop :=
  fun q => q = b ∨ (P q ∧ X.id q.1 ≠ X.id b.1)

theorem ins_map (hX : X.Lawful) (k : K) (x : V) (hs : Inv X s) (hk : Known s t) (hw : Wf X t) :
    Spec X s (ins X k x s t) (extend X (· ∈ bindings t) (k, x)) := by
  have hbits : ∀ {s' : State ws K V}, Inv X s' → ∀ q ∈ bindings (leaf X s' k x).1,
      bits X q.1 = bits X k := by
    intro s' hs' q hq
    obtain ⟨b, rfl, heq⟩ := (leaf_map hX hs' k x).map.repr.sound q hq
    exact heq.bits_eq.symm
  have hne : ∀ {s' : State ws K V}, Inv X s' → (leaf X s' k x).1 ≠ .empty := fun hs' =>
    (leaf_map hX hs' k x).map.repr.ne_empty rfl
  induction t generalizing s with
  | empty => exact (leaf_map hX hs k x).congr (fun q => by simp [extend, bindings])
  | leaf a u j v =>
    rw [ins]
    split_ifs with heq
    · rw [bits_inj] at heq
      refine (leaf_map hX hs k x).congr (fun q => ?_)
      simp only [extend, bindings, mem_singleton]
      constructor
      · exact .inl
      · rintro (h | ⟨rfl, h⟩)
        · exact h
        · exact absurd heq h
    · obtain ⟨i, hdiff⟩ := exists_firstDiff (Ne.symm heq)
      have hl := leaf_map hX hs k x
      refine ((join_map hX hl.step.inv hdiff ?_ ?_ hl.map
        ((isMap_self hX hk hw).step hl.step) (hne hs) (by simp)).after hl.step).congr
        (fun q => ?_)
      · intro q hq
        rw [hbits hs q hq]
        exact agree_self _ _
      · intro q hq
        rw [mem_singleton.mp hq]
        exact agree_self _ _
      · simp only [extend, bindings, mem_singleton]
        refine or_congr_right (iff_self_and.mpr ?_)
        rintro rfl
        exact fun h => heq (bits_inj.mpr h)
  | branch a u p m t0 t1 ih0 ih1 =>
    obtain ⟨⟨i, rfl, hp, hsplit⟩, ⟨hne0, hne1⟩, hw0, hw1⟩ := hw
    obtain ⟨hk0, hk1⟩ := hk.sons hs
    rw [ins]
    by_cases hag : Agree i (bits X k) p
    · rw [if_pos ((matchPrefix_twoPow hsplit.lt hp).mpr hag), zeroBit_twoPow hsplit.lt]
      cases hbit : (bits X k).getLsbD i with
      | false =>
        have hr := ih0 hs hk0 hw0
        have hfits : Fits X i p false (ins X k x s t0).1 := hr.map.repr.fits (by
          rintro q (rfl | ⟨hq, -⟩)
          · exact ⟨hag, hbit⟩
          · exact hsplit.left q hq)
        refine ((branch_map hX hr.step.inv hp ⟨hsplit.lt, hfits, hsplit.right⟩ hr.map
          ((isMap_self hX hk1 hw1).step hr.step) (hr.map.repr.ne_empty (.inl rfl))
          hne1).after hr.step).congr (fun q => ?_)
        have hid : q ∈ bindings t1 → X.id q.1 ≠ X.id k :=
          hsplit.right.id_ne (by simp [hbit])
        simp only [extend, bindings, mem_append]
        tauto
      | true =>
        have hr := ih1 hs hk1 hw1
        have hfits : Fits X i p true (ins X k x s t1).1 := hr.map.repr.fits (by
          rintro q (rfl | ⟨hq, -⟩)
          · exact ⟨hag, hbit⟩
          · exact hsplit.right q hq)
        refine ((branch_map hX hr.step.inv hp ⟨hsplit.lt, hsplit.left, hfits⟩
          ((isMap_self hX hk0 hw0).step hr.step) hr.map hne0
          (hr.map.repr.ne_empty (.inl rfl))).after hr.step).congr (fun q => ?_)
        have hid : q ∈ bindings t0 → X.id q.1 ≠ X.id k :=
          hsplit.left.id_ne (by simp [hbit])
        simp only [extend, bindings, mem_append]
        tauto
    · rw [if_neg (fun h => hag ((matchPrefix_twoPow hsplit.lt hp).mp h))]
      obtain ⟨j, hji, hdiff⟩ := exists_firstDiff_of_not_agree hag
      have hl := leaf_map hX hs k x
      have hb : IsMap X s (· ∈ bindings (.branch a u p (BitVec.twoPow _ i) t0 t1))
          (.branch a u p (BitVec.twoPow _ i) t0 t1) :=
        isMap_self hX hk ⟨⟨i, rfl, hp, hsplit⟩, ⟨hne0, hne1⟩, hw0, hw1⟩
      refine ((join_map hX hl.step.inv hdiff ?_ ?_ hl.map (hb.step hl.step) (hne hs)
        (by simp)).after hl.step).congr (fun q => ?_)
      · intro q hq
        rw [hbits hs q hq]
        exact agree_self _ _
      · intro q hq
        exact (hsplit.agree (mem_append.mp hq)).mono hji
      · have hid : q ∈ bindings (.branch a u p (BitVec.twoPow _ i) t0 t1) →
            X.id q.1 ≠ X.id k := fun hq => hsplit.id_ne hag (mem_append.mp hq)
        simp only [extend]
        tauto

theorem Represents.extend (hX : X.Lawful) {t' : Tree ws K V} {b : K × V} (h : Represents X P t)
    (h' : Represents X (Hcpt.extend X (· ∈ bindings t) b) t') :
    Represents X (Hcpt.extend X P b) t' := by
  constructor
  · intro q hq
    obtain ⟨q', rfl | ⟨hq', hid⟩, heq⟩ := h'.sound q hq
    · exact ⟨_, .inl rfl, heq⟩
    · obtain ⟨q'', hP, heq'⟩ := h.sound q' hq'
      exact ⟨q'', .inr ⟨hP, fun h => hid (heq'.1.symm.trans h)⟩, heq'.trans hX heq⟩
  · rintro q (rfl | ⟨hP, hid⟩)
    · exact h'.complete _ (.inl rfl)
    · obtain ⟨q', hq', heq⟩ := h.complete q hP
      obtain ⟨q'', hq'', heq'⟩ := h'.complete q' (.inr ⟨hq', fun h => hid (heq.1.trans h)⟩)
      exact ⟨q'', hq'', heq.trans hX heq'⟩

theorem add_map (hX : X.Lawful) (k : K) (x : V) (hs : Inv X s) (h : IsMap X s P t) :
    Spec X s (add X k x s t) (extend X P (k, x)) := by
  have hr := ins_map hX k x hs h.known h.wf
  exact ⟨hr.step, hr.map.known, hr.map.wf, h.repr.extend hX hr.map.repr⟩

theorem addSeq_map (hX : X.Lawful) (l : List (K × V)) (hs : Inv X s) (h : IsMap X s P t) :
    Spec X s (addSeq X l s t) (l.foldl (extend X) P) := by
  rw [addSeq]
  induction l generalizing s t P with
  | nil => exact h.spec hs
  | cons b l ih =>
    have hr := add_map hX b.1 b.2 hs h
    exact (ih hr.step.inv hr.map).after hr.step

end Add

/-! ## Removing bindings -/

section Remove

variable {t : Tree ws K V}

theorem rmv_map (hX : X.Lawful) (k : K) (hs : Inv X s) (hk : Known s t) (hw : Wf X t) :
    Spec X s (rmv X k s t) (fun q => q ∈ bindings t ∧ X.id q.1 ≠ X.id k) := by
  induction t generalizing s with
  | empty => exact (isMap_empty (by simp [bindings])).spec hs
  | leaf a u j v =>
    rw [rmv]
    split_ifs with heq
    · rw [bits_inj] at heq
      refine (isMap_empty ?_).spec hs
      rintro q ⟨hq, hid⟩
      rw [mem_singleton.mp hq] at hid
      exact hid heq.symm
    · refine ((isMap_self hX hk hw).congr (fun q => iff_self_and.mpr ?_)).spec hs
      intro hq hid
      rw [mem_singleton.mp hq] at hid
      exact heq (bits_inj.mpr hid.symm)
  | branch a u p m t0 t1 ih0 ih1 =>
    obtain ⟨⟨i, rfl, hp, hsplit⟩, hne, hw0, hw1⟩ := hw
    obtain ⟨hk0, hk1⟩ := hk.sons hs
    rw [rmv]
    by_cases hag : Agree i (bits X k) p
    · rw [if_pos ((matchPrefix_twoPow hsplit.lt hp).mpr hag), zeroBit_twoPow hsplit.lt]
      cases hbit : (bits X k).getLsbD i with
      | false =>
        have hr := ih0 hs hk0 hw0
        have h1 := ((isMap_self hX hk1 hw1).step hr.step).spec hr.step.inv
        refine (rebranch_map hX hp hsplit hr h1 (fun q hq => ⟨q.2, hq.1⟩)
          (fun q hq => ⟨q.2, hq⟩)).congr (fun q => ?_)
        have hid : q ∈ bindings t1 → X.id q.1 ≠ X.id k :=
          hsplit.right.id_ne (by simp [hbit])
        simp only [bindings, mem_append]
        tauto
      | true =>
        have hr := ih1 hs hk1 hw1
        refine (rebranch_map hX hp hsplit ((isMap_self hX hk0 hw0).spec hs) hr
          (fun q hq => ⟨q.2, hq⟩) (fun q hq => ⟨q.2, hq.1⟩)).congr (fun q => ?_)
        have hid : q ∈ bindings t0 → X.id q.1 ≠ X.id k :=
          hsplit.left.id_ne (by simp [hbit])
        simp only [bindings, mem_append]
        tauto
    · rw [if_neg (fun h => hag ((matchPrefix_twoPow hsplit.lt hp).mp h))]
      refine ((isMap_self hX hk ⟨⟨i, rfl, hp, hsplit⟩, hne, hw0, hw1⟩).congr
        (fun q => iff_self_and.mpr ?_)).spec hs
      exact fun hq => hsplit.id_ne hag (mem_append.mp hq)

theorem filter_map (hX : X.Lawful) (pr : K → V → Bool) (hs : Inv X s) (hk : Known s t)
    (hw : Wf X t) :
    Spec X s (filter X pr s t) (fun q => q ∈ bindings t ∧ pr q.1 q.2 = true) := by
  induction t generalizing s with
  | empty => exact (isMap_empty (by simp [bindings])).spec hs
  | leaf a u k v =>
    rw [filter]
    split_ifs with hpr
    · refine ((isMap_self hX hk hw).congr (fun q => iff_self_and.mpr ?_)).spec hs
      intro hq
      rw [mem_singleton.mp hq]
      exact hpr
    · refine (isMap_empty ?_).spec hs
      rintro q ⟨hq, hq'⟩
      rw [mem_singleton.mp hq] at hq'
      exact hpr hq'
  | branch a u p m t0 t1 ih0 ih1 =>
    obtain ⟨⟨i, rfl, hp, hsplit⟩, -, hw0, hw1⟩ := hw
    obtain ⟨hk0, hk1⟩ := hk.sons hs
    have h0 := ih0 hs hk0 hw0
    have h1 := ih1 h0.step.inv (hk1.step h0.step) hw1
    refine (rebranch_map hX hp hsplit h0 h1 (fun q hq => ⟨q.2, hq.1⟩)
      (fun q hq => ⟨q.2, hq.1⟩)).congr (fun q => ?_)
    simp only [bindings, mem_append]
    tauto

theorem filterMap_map (hX : X.Lawful) (pr : K → V → Option V) (hs : Inv X s) (hk : Known s t)
    (hw : Wf X t) : Spec X s (filterMap X pr s t)
      (fun q => ∃ v, (q.1, v) ∈ bindings t ∧ pr q.1 v = some q.2) := by
  induction t generalizing s with
  | empty => exact (isMap_empty (by simp [bindings])).spec hs
  | leaf a u k v =>
    rw [filterMap]
    cases hpr : pr k v with
    | some v' =>
      refine (leaf_map hX hs k v').congr (fun q => ?_)
      simp only [bindings, mem_singleton, Prod.mk.injEq]
      constructor
      · rintro rfl
        exact ⟨v, ⟨rfl, rfl⟩, hpr⟩
      · rintro ⟨w, ⟨rfl, rfl⟩, hw'⟩
        rw [hpr, Option.some.injEq] at hw'
        rw [hw']
    | none =>
      refine (isMap_empty ?_).spec hs
      rintro ⟨j, w'⟩ ⟨w, hq, hw'⟩
      obtain ⟨rfl, rfl⟩ := Prod.mk.injEq .. ▸ mem_singleton.mp hq
      rw [hpr] at hw'
      cases hw'
  | branch a u p m t0 t1 ih0 ih1 =>
    obtain ⟨⟨i, rfl, hp, hsplit⟩, -, hw0, hw1⟩ := hw
    obtain ⟨hk0, hk1⟩ := hk.sons hs
    have h0 := ih0 hs hk0 hw0
    have h1 := ih1 h0.step.inv (hk1.step h0.step) hw1
    refine (rebranch_map hX hp hsplit h0 h1 (fun q ⟨v, hv, _⟩ => ⟨v, hv⟩)
      (fun q ⟨v, hv, _⟩ => ⟨v, hv⟩)).congr (fun q => ?_)
    simp only [bindings, mem_append, or_and_right, exists_or]

end Remove

/-! ## Splitting maps -/

section Split

variable {t : Tree ws K V}

/-- The two maps of `part` stand for `P0` and `P1`. -/
structure PartSpec (X : Params ws K V) (s : State ws K V)
    (r : (Tree ws K V × Tree ws K V) × State ws K V) (P0 P1 : K × V → Prop) : Prop where
  step : Step X s r.2
  left : IsMap X r.2 P0 r.1.1
  right : IsMap X r.2 P1 r.1.2

theorem part_map (hX : X.Lawful) (pr : K → V → Bool)
    {acc : (Tree ws K V × Tree ws K V) × State ws K V} {P0 P1 : K × V → Prop}
    (h : PartSpec X s acc P0 P1) (t : Tree ws K V) : PartSpec X s (part X pr acc t)
      (((bindings t).filter (fun q => pr q.1 q.2)).foldl (extend X) P0)
      (((bindings t).filter (fun q => !pr q.1 q.2)).foldl (extend X) P1) := by
  induction t generalizing acc P0 P1 with
  | empty => exact h
  | leaf a u k v =>
    rw [part]
    cases hpr : pr k v with
    | true =>
      have hr := add_map hX k v h.step.inv h.left
      simp only [bindings, filter_cons, hpr]
      exact ⟨h.step.trans hr.step, hr.map, h.right.step hr.step⟩
    | false =>
      have hr := add_map hX k v h.step.inv h.right
      simp only [bindings, filter_cons, hpr]
      exact ⟨h.step.trans hr.step, h.left.step hr.step, hr.map⟩
  | branch a u p m t0 t1 ih0 ih1 =>
    rw [part, bindings, filter_append, filter_append, foldl_append,
      foldl_append]
    exact ih1 (ih0 h)

/-- The result of `split`: the smaller keys, the value of the key and the larger keys. -/
structure SplitSpec (X : Params ws K V) (x : K) (s : State ws K V) (t : Tree ws K V)
    (r : (Tree ws K V × Option V × Tree ws K V) × State ws K V) : Prop where
  step : Step X s r.2
  left : IsMap X r.2 (fun q => q ∈ bindings t ∧ (X.id q.1).toInt < (X.id x).toInt) r.1.1
  value : ∀ v, r.1.2.1 = some v ↔ ∃ k, (k, v) ∈ bindings t ∧ X.id k = X.id x
  right : IsMap X r.2 (fun q => q ∈ bindings t ∧ (X.id x).toInt < (X.id q.1).toInt) r.1.2.2

theorem toInt_lt_of_bits' {k k' : K} {i : ℕ} (h : FirstDiff i (bits X k) (bits X k'))
    (hk : (bits X k).getLsbD i = true) : (X.id k').toInt < (X.id k).toInt := by
  refine toInt_lt_of_bits h.symm ?_
  have hne := h.ne
  rw [hk] at hne
  simpa using hne.symm

theorem compareInt_neg {a b : Word ws} : compareInt a b < 0 ↔ a.toInt < b.toInt :=
  Compare.cmpOf_neg

theorem compareInt_zero {a b : Word ws} : compareInt a b = 0 ↔ a.toInt = b.toInt :=
  Compare.cmpOf_zero

/-- All keys are on one side of `x`. -/
theorem splitSpec_left (hX : X.Lawful) {x : K} (hs : Inv X s) (hk : Known s t) (hw : Wf X t)
    (h : ∀ q ∈ bindings t, (X.id q.1).toInt < (X.id x).toInt) :
    SplitSpec X x s t ((t, none, .empty), s) where
  step := .refl hs
  left := (isMap_self hX hk hw).congr (fun q => iff_self_and.mpr (h q))
  value v := by
    refine ⟨(nomatch ·), ?_⟩
    rintro ⟨k, hk, hid⟩
    have hlt := h _ hk
    rw [hid] at hlt
    exact absurd hlt (lt_irrefl _)
  right := isMap_empty (fun q hq => lt_asymm hq.2 (h q hq.1))

theorem splitSpec_right (hX : X.Lawful) {x : K} (hs : Inv X s) (hk : Known s t) (hw : Wf X t)
    (h : ∀ q ∈ bindings t, (X.id x).toInt < (X.id q.1).toInt) :
    SplitSpec X x s t ((.empty, none, t), s) where
  step := .refl hs
  left := isMap_empty (fun q hq => lt_asymm hq.2 (h q hq.1))
  value v := by
    refine ⟨(nomatch ·), ?_⟩
    rintro ⟨k, hk, hid⟩
    have hlt := h _ hk
    rw [hid] at hlt
    exact absurd hlt (lt_irrefl _)
  right := (isMap_self hX hk hw).congr (fun q => iff_self_and.mpr (h q))

theorem splitAux_map (hX : X.Lawful) (x : K) (hs : Inv X s) (hk : Known s t) (hw : Wf X t) :
    ∃ r, splitAux X x s t = some r ∧ SplitSpec X x s t r := by
  induction t generalizing s with
  | empty => exact ⟨_, rfl, splitSpec_left hX hs hk hw (by simp [bindings])⟩
  | leaf a u k v =>
    simp only [splitAux]
    rcases lt_trichotomy (X.id x).toInt (X.id k).toInt with hlt | heq | hgt
    · rw [if_pos (compareInt_neg.mpr hlt)]
      exact ⟨_, rfl, splitSpec_right hX hs hk hw (by simpa [bindings] using hlt)⟩
    · rw [if_neg (fun h => (compareInt_neg.mp h).ne heq), if_pos (compareInt_zero.mpr heq)]
      have hno : ∀ q ∈ bindings (.leaf a u k v : Tree ws K V), (X.id q.1).toInt = (X.id x).toInt := by
        simpa [bindings] using heq.symm
      refine ⟨_, rfl, .refl hs, isMap_empty (fun q hq => hq.2.ne (hno q hq.1)), fun w => ?_,
        isMap_empty (fun q hq => hq.2.ne' (hno q hq.1))⟩
      simp only [bindings, mem_singleton, Prod.mk.injEq, Option.some.injEq]
      constructor
      · rintro rfl
        exact ⟨k, ⟨rfl, rfl⟩, (BitVec.toInt_inj.mp heq).symm⟩
      · rintro ⟨_, ⟨-, rfl⟩, -⟩
        rfl
    · rw [if_neg (fun h => lt_asymm hgt (compareInt_neg.mp h)),
        if_neg (fun h => hgt.ne' (compareInt_zero.mp h))]
      exact ⟨_, rfl, splitSpec_left hX hs hk hw (by simpa [bindings] using hgt)⟩
  | branch a u p m t0 t1 ih0 ih1 =>
    obtain ⟨⟨i, rfl, hp, hsplit⟩, hne, hw0, hw1⟩ := hw
    obtain ⟨hk0, hk1⟩ := hk.sons hs
    rw [splitAux]
    by_cases hag : Agree i (bits X x) p
    · rw [if_pos ((matchPrefix_twoPow hsplit.lt hp).mpr hag), zeroBit_twoPow hsplit.lt]
      cases hbit : (bits X x).getLsbD i with
      | false =>
        have hgt : ∀ q ∈ bindings t1, (X.id x).toInt < (X.id q.1).toInt := by
          intro q hq
          obtain ⟨hag', hbit'⟩ := hsplit.right q hq
          exact toInt_lt_of_bits ⟨hsplit.lt, hag.trans hag'.symm, by simp [hbit, hbit']⟩ hbit
        obtain ⟨r, hr, hspec⟩ := ih0 hs hk0 hw0
        have hfits : Fits X i p false r.1.2.2 :=
          hspec.right.repr.fits (fun q hq => hsplit.left q hq.1)
        obtain ⟨c, hc, hcat⟩ := concat_map hX hspec.step.inv
          ⟨hsplit.lt, hfits, hsplit.right⟩ hspec.right
          ((isMap_self hX hk1 hw1).step hspec.step)
        refine ⟨((r.1.1, r.1.2.1, c.1), c.2), by simp [hr, hc], hspec.step.trans hcat.step,
          (hspec.left.step hcat.step).congr (fun q => ?_), fun v => ?_,
          hcat.map.congr (fun q => ?_)⟩
        · have hgt' := hgt q
          simp only [bindings, mem_append]
          constructor
          · exact fun ⟨hq, hlt⟩ => ⟨.inl hq, hlt⟩
          · rintro ⟨hq | hq, hlt⟩
            · exact ⟨hq, hlt⟩
            · exact absurd hlt (lt_asymm (hgt' hq))
        · refine (hspec.value v).trans (exists_congr (fun k => ?_))
          simp only [bindings, mem_append]
          refine and_congr_left (fun hid => (or_iff_left ?_).symm)
          intro hq
          exact absurd (hgt _ hq) (by simp [hid])
        · have hgt' := hgt q
          simp only [bindings, mem_append]
          tauto
      | true =>
        have hlt : ∀ q ∈ bindings t0, (X.id q.1).toInt < (X.id x).toInt := by
          intro q hq
          obtain ⟨hag', hbit'⟩ := hsplit.left q hq
          exact toInt_lt_of_bits' ⟨hsplit.lt, hag.trans hag'.symm, by simp [hbit, hbit']⟩ hbit
        obtain ⟨r, hr, hspec⟩ := ih1 hs hk1 hw1
        have hfits : Fits X i p true r.1.1 :=
          hspec.left.repr.fits (fun q hq => hsplit.right q hq.1)
        obtain ⟨c, hc, hcat⟩ := concat_map hX hspec.step.inv
          ⟨hsplit.lt, hsplit.left, hfits⟩ ((isMap_self hX hk0 hw0).step hspec.step) hspec.left
        refine ⟨((c.1, r.1.2.1, r.1.2.2), c.2), by simp [hr, hc], hspec.step.trans hcat.step,
          hcat.map.congr (fun q => ?_), fun v => ?_,
          (hspec.right.step hcat.step).congr (fun q => ?_)⟩
        · have hlt' := hlt q
          simp only [bindings, mem_append]
          tauto
        · refine (hspec.value v).trans (exists_congr (fun k => ?_))
          simp only [bindings, mem_append]
          refine and_congr_left (fun hid => (or_iff_right ?_).symm)
          intro hq
          exact absurd (hlt _ hq) (by simp [hid])
        · have hlt' := hlt q
          simp only [bindings, mem_append]
          constructor
          · exact fun ⟨hq, hgt⟩ => ⟨.inr hq, hgt⟩
          · rintro ⟨hq | hq, hgt⟩
            · exact absurd hgt (lt_asymm (hlt' hq))
            · exact ⟨hq, hgt⟩
    · rw [if_neg (fun h => hag ((matchPrefix_twoPow hsplit.lt hp).mp h))]
      obtain ⟨j, hji, hdiff⟩ := exists_firstDiff_of_not_agree hag
      have hdiff' : ∀ q ∈ bindings (.branch a u p (BitVec.twoPow _ i) t0 t1),
          FirstDiff j (bits X x) (bits X q.1) := by
        intro q hq
        have hag' := hsplit.agree (mem_append.mp hq)
        refine ⟨hdiff.lt, hdiff.agree.trans (hag'.symm.mono hji.le), ?_⟩
        rw [hag' j hji]
        exact hdiff.ne
      have hw : Wf X (.branch a u p (BitVec.twoPow _ i) t0 t1) :=
        ⟨⟨i, rfl, hp, hsplit⟩, hne, hw0, hw1⟩
      simp only [branchingBit_eq hdiff, zeroBit_twoPow hdiff.lt]
      cases hbit : (bits X x).getLsbD j with
      | false =>
        exact ⟨_, rfl, splitSpec_right hX hs hk hw
          (fun q hq => toInt_lt_of_bits (hdiff' q hq) hbit)⟩
      | true =>
        exact ⟨_, rfl, splitSpec_left hX hs hk hw
          (fun q hq => toInt_lt_of_bits' (hdiff' q hq) hbit)⟩

end Split

end Why3.Hcpt
