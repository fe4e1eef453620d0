import Why3.Util.Hcpt

/-!
# The bits of a key

The functions of Hacker's Delight reverse a native integer, for both sizes of
words.  The bits of a key are then those of its identifier from the sign down, so
that smaller identifiers have smaller bits.
-/

namespace Why3.Hcpt

open BitPrefix BitReversal BitVec

variable {i : ℕ}

/-! ## Reversal -/

section Reversal

theorem getLsbD_bytes16 {y : BitVec 31} (hy : ∀ i < 31, 16 ≤ i → y.getLsbD i = false)
    (hi : i < 31) : (((y &&& 0xFF#31) <<< 8) ||| (y >>> 8)).getLsbD i =
      (decide (i < 16) && y.getLsbD (swapIdx 8 i)) := by
  have hff : ∀ j < 31, (0xFF#31).getLsbD j = decide (j < 8) := by decide
  have hhigh : ∀ i, 16 ≤ i → y.getLsbD i = false := by
    intro j hj
    by_cases h : j < 31
    · exact hy j h hj
    · exact getLsbD_of_ge _ _ (by omega)
  rw [getLsbD_or, getLsbD_shiftLeft, getLsbD_and, getLsbD_ushiftRight,
    hff (i - 8) (by omega)]
  generalize y.getLsbD = b at hhigh ⊢
  by_cases h16 : i < 16
  · interval_cases i <;> simp [swapIdx, hhigh]
  · have h8 : ¬ i - 8 < 8 := by omega
    simp [h16, h8, hhigh (8 + i) (by omega)]

theorem getLsbD_bitReversal16 (x : BitVec 31) (hi : i < 31) :
    (bitReversal16 x).getLsbD i = (decide (i < 16) && x.getLsbD (15 - i)) := by
  have h₁ : EvenGroups 16 1 0x5555#31 := ⟨by decide, by omega⟩
  have h₂ : EvenGroups 16 2 0x3333#31 := ⟨by decide, by omega⟩
  have h₄ : EvenGroups 16 4 0x0F0F#31 := ⟨by decide, by omega⟩
  have hswaps := fun (i : ℕ) (hi : i < 31) =>
    getLsbD_swaps (by decide) h₁ h₂ h₄ (by decide) x hi
  have hidx : ∀ i < 16, swapIdx 8 i < 16 ∧
      swapIdx 1 (swapIdx 2 (swapIdx 4 (swapIdx 8 i))) = 15 - i := by decide
  have hlast : bitReversal16 x =
      ((swapBits 4 0x0F0F#31 (swapBits 2 0x3333#31 (swapBits 1 0x5555#31 x)) &&& 0xFF#31) <<< 8) |||
        (swapBits 4 0x0F0F#31 (swapBits 2 0x3333#31 (swapBits 1 0x5555#31 x)) >>> 8) := rfl
  rw [hlast, getLsbD_bytes16 _ hi]
  · by_cases h16 : i < 16
    · obtain ⟨hlt, heq⟩ := hidx i h16
      rw [hswaps (swapIdx 8 i) (by omega), decide_eq_true hlt, heq, Bool.true_and]
    · simp [h16]
  · intro j hj hge
    rw [hswaps j hj, decide_eq_false (by omega), Bool.false_and]

/-- The last step of `bit_reversal32` reverses the four bytes. -/
theorem getLsbD_bytes32 {y : BitVec 63} (hy : ∀ i < 63, 32 ≤ i → y.getLsbD i = false)
    (hi : i < 63) : (((y &&& 0xFF#63) <<< 24) ||| ((y &&& 0xFF00#63) <<< 8) |||
      ((y >>> 8) &&& 0xFF00#63) ||| (y >>> 24)).getLsbD i =
        (decide (i < 32) && y.getLsbD (swapIdx 16 (swapIdx 8 i))) := by
  have hff : ∀ j < 63, (0xFF#63).getLsbD j = decide (j < 8) := by decide
  have hff00 : ∀ j < 63, (0xFF00#63).getLsbD j = decide (8 ≤ j ∧ j < 16) := by decide
  have hhigh : ∀ i, 32 ≤ i → y.getLsbD i = false := by
    intro j hj
    by_cases h : j < 63
    · exact hy j h hj
    · exact getLsbD_of_ge _ _ (by omega)
  rw [getLsbD_or, getLsbD_or, getLsbD_or, getLsbD_shiftLeft,
    getLsbD_shiftLeft, getLsbD_and, getLsbD_and, getLsbD_and,
    getLsbD_ushiftRight, getLsbD_ushiftRight, hff (i - 24) (by omega),
    hff00 (i - 8) (by omega), hff00 i hi]
  generalize y.getLsbD = b at hhigh ⊢
  by_cases h32 : i < 32
  · interval_cases i <;> simp [swapIdx, hhigh]
  · have h24 : ¬ i - 24 < 8 := by omega
    have h8 : ¬ i - 8 < 16 := by omega
    have h16 : ¬ i < 16 := by omega
    simp [h32, h24, h8, h16, hhigh (24 + i) (by omega)]

theorem getLsbD_bitReversal32 (x : BitVec 63) (hi : i < 63) :
    (bitReversal32 x).getLsbD i = (decide (i < 32) && x.getLsbD (31 - i)) := by
  have h₁ : EvenGroups 32 1 ((0x5555#63 <<< 16) ||| 0x5555#63) := ⟨by decide, by omega⟩
  have h₂ : EvenGroups 32 2 0x33333333#63 := ⟨by decide, by omega⟩
  have h₄ : EvenGroups 32 4 0x0F0F0F0F#63 := ⟨by decide, by omega⟩
  have hswaps := fun (i : ℕ) (hi : i < 63) =>
    getLsbD_swaps (by decide) h₁ h₂ h₄ (by decide) x hi
  have hidx : ∀ i < 32, swapIdx 16 (swapIdx 8 i) < 32 ∧
      swapIdx 1 (swapIdx 2 (swapIdx 4 (swapIdx 16 (swapIdx 8 i)))) = 31 - i := by decide
  generalize hM : (0x5555#63 <<< 16) ||| 0x5555#63 = M at h₁ hswaps
  have hlast : bitReversal32 x =
      ((swapBits 4 0x0F0F0F0F#63 (swapBits 2 0x33333333#63 (swapBits 1 M x)) &&& 0xFF#63) <<< 24) |||
      ((swapBits 4 0x0F0F0F0F#63 (swapBits 2 0x33333333#63 (swapBits 1 M x)) &&& 0xFF00#63) <<< 8) |||
      ((swapBits 4 0x0F0F0F0F#63 (swapBits 2 0x33333333#63 (swapBits 1 M x)) >>> 8) &&& 0xFF00#63) |||
      (swapBits 4 0x0F0F0F0F#63 (swapBits 2 0x33333333#63 (swapBits 1 M x)) >>> 24) := by
    rw [← hM]
    rfl
  rw [hlast, getLsbD_bytes32 _ hi]
  · by_cases h32 : i < 32
    · obtain ⟨hlt, heq⟩ := hidx i h32
      rw [hswaps (swapIdx 16 (swapIdx 8 i)) (by omega), decide_eq_true hlt, heq, Bool.true_and]
    · simp [h32]
  · intro j hj hge
    rw [hswaps j hj, decide_eq_false (by omega), Bool.false_and]

theorem bitReversal31_eq (x : BitVec 31) : bitReversal31 x = x.reverse := by
  have hffff : ∀ j < 31, (0xFFFF#31).getLsbD j = decide (j < 16) := by decide
  refine eq_of_getLsbD_eq (fun i hi => ?_)
  rw [bitReversal31, getLsbD_or, getLsbD_shiftLeft, getLsbD_ushiftRight,
    getLsbD_reverse, getMsbD_eq_getLsbD, getLsbD_bitReversal16 _ (by omega),
    getLsbD_and, hffff _ (by omega)]
  by_cases h15 : i < 15
  · rw [getLsbD_bitReversal16 _ (by omega), getLsbD_ushiftRight,
      show 16 + (15 - (1 + i)) = 31 - 1 - i by omega]
    simp [h15, hi, show 1 + i < 16 by omega]
  · have hhigh : (bitReversal16 (x >>> 16)).getLsbD (1 + i) = false := by
      by_cases h : 1 + i < 31
      · rw [getLsbD_bitReversal16 _ h, decide_eq_false (by omega), Bool.false_and]
      · exact getLsbD_of_ge _ _ (by omega)
    rw [hhigh, show 15 - (i - 15) = 31 - 1 - i by omega]
    simp [h15, hi, show i - 15 < 16 by omega, show 31 - 1 - i < 16 by omega]

theorem bitReversal63_eq (x : BitVec 63) : bitReversal63 x = x.reverse := by
  have hffff : ∀ j < 63, ((0xFFFF#63 <<< 16) ||| 0xFFFF#63).getLsbD j = decide (j < 32) := by decide
  refine eq_of_getLsbD_eq (fun i hi => ?_)
  rw [bitReversal63, getLsbD_or, getLsbD_shiftLeft, getLsbD_ushiftRight,
    getLsbD_reverse, getMsbD_eq_getLsbD, getLsbD_bitReversal32 _ (by omega),
    getLsbD_and, hffff _ (by omega)]
  by_cases h31 : i < 31
  · rw [getLsbD_bitReversal32 _ (by omega), getLsbD_ushiftRight,
      show 32 + (31 - (1 + i)) = 63 - 1 - i by omega]
    simp [h31, hi, show 1 + i < 32 by omega]
  · have hhigh : (bitReversal32 (x >>> 32)).getLsbD (1 + i) = false := by
      by_cases h : 1 + i < 63
      · rw [getLsbD_bitReversal32 _ h, decide_eq_false (by omega), Bool.false_and]
      · exact getLsbD_of_ge _ _ (by omega)
    rw [hhigh, show 31 - (i - 31) = 63 - 1 - i by omega]
    simp [h31, hi, show i - 31 < 32 by omega, show 63 - 1 - i < 32 by omega]

end Reversal

/-! ## Keys -/

section Keys

variable {ws : WordSize} {K V : Type} {X : Params ws K V}

theorem bits_eq (k : K) : bits X k = signedKey (X.id k) := by
  rw [bits, signedKey]
  cases ws with
  | ws32 => exact bitReversal31_eq _
  | ws64 => exact bitReversal63_eq _

theorem bits_inj {k k' : K} : bits X k = bits X k' ↔ X.id k = X.id k' := by
  rw [bits_eq, bits_eq]
  exact signedKey_injective.eq_iff

theorem toInt_lt_of_bits {k k' : K} (h : FirstDiff i (bits X k) (bits X k'))
    (hk : (bits X k).getLsbD i = false) : (X.id k).toInt < (X.id k').toInt := by
  rw [bits_eq, bits_eq] at h
  rw [bits_eq] at hk
  exact toInt_lt h hk

end Keys

end Why3.Hcpt

/-!
# The table of nodes

Every node of a map is in the table.  Two nodes of the table that the table
cannot tell apart are one block, so physical equality is equality of trees.
-/

namespace Why3.Hcpt

open List Bool

variable {ws : WordSize} {K V : Type}

/-! ## The invariant -/

section Invariant

/-- What a hash table asks of the equality and the hash function of the values. -/
structure Params.Lawful (X : Params ws K V) : Prop where
  refl : ∀ v, X.equal v v = true
  symm : ∀ v v', X.equal v v' = true → X.equal v' v = true
  trans : ∀ v v' v'', X.equal v v' = true → X.equal v' v'' = true → X.equal v v'' = true
  hash : ∀ v v', X.equal v v' = true → X.hash v = X.hash v'

theorem setParams_lawful (id : K → Word ws) : (setParams id).Lawful :=
  ⟨fun _ => rfl, fun _ _ _ => rfl, fun _ _ _ _ _ => rfl, fun _ _ _ => rfl⟩

def sons : Tree ws K V → List (Tree ws K V)
  | .branch _ _ _ _ t0 t1 => [t0, t1]
  | _ => []

/-- A map that was built: its root is in the table. -/
def Known (s : State ws K V) (t : Tree ws K V) : Prop := t = .empty ∨ t ∈ s.table

structure Inv (X : Params ws K V) (s : State ws K V) : Prop where
  ne_empty : ∀ n ∈ s.table, n ≠ .empty
  sons : ∀ n ∈ s.table, ∀ t ∈ sons n, Known s t
  unique : ∀ n ∈ s.table, ∀ n' ∈ s.table, hEqual X n n' = true → n = n'
  addr_lt : ∀ n ∈ s.table, ∀ a ∈ addr n, a < s.nextaddr
  addr_inj : ∀ n ∈ s.table, ∀ n' ∈ s.table, addr n = addr n' → n = n'
  uid_pos : ∀ n ∈ s.table, 0 < hash n
  uid_lt : ∀ n ∈ s.table, hash n < s.nextid
  uid_inj : ∀ n ∈ s.table, ∀ n' ∈ s.table, hash n = hash n' → n = n'
  nextid_pos : 0 < s.nextid

/-- A state reached from `s`. -/
structure Step (X : Params ws K V) (s s' : State ws K V) : Prop where
  inv : Inv X s'
  grows : ∀ n ∈ s.table, n ∈ s'.table

variable {X : Params ws K V} {s s' s'' : State ws K V}

theorem inv_init : Inv X State.init := by
  refine ⟨?_, ?_, ?_, ?_, ?_, ?_, ?_, ?_, Nat.one_pos⟩
  all_goals
    intro n hn
    cases hn

theorem Step.refl (h : Inv X s) : Step X s s := ⟨h, fun _ hn => hn⟩

theorem Step.trans (h : Step X s s') (h' : Step X s' s'') : Step X s s'' :=
  ⟨h'.inv, fun n hn => h'.grows n (h.grows n hn)⟩

theorem Known.step {t : Tree ws K V} (ht : Known s t) (h : Step X s s') : Known s' t :=
  ht.imp_right (h.grows t)

theorem addr_eq_none {t : Tree ws K V} : addr t = none ↔ t = .empty := by
  cases t <;> simp [addr]

theorem Inv.equal_iff (h : Inv X s) {t t' : Tree ws K V} (ht : Known s t) (ht' : Known s t') :
    equal t t' = true ↔ t = t' := by
  rw [equal, beq_iff_eq]
  constructor
  · intro heq
    rcases ht with rfl | ht
    · exact (addr_eq_none.mp heq.symm).symm
    · rcases ht' with rfl | ht'
      · exact addr_eq_none.mp heq
      · exact h.addr_inj t ht t' ht' heq
  · rintro rfl
    rfl

/-- So is equality of the numbers. -/
theorem Inv.hash_iff (h : Inv X s) {t t' : Tree ws K V} (ht : Known s t) (ht' : Known s t') :
    hash t = hash t' ↔ t = t' := by
  constructor
  · intro heq
    rcases ht with rfl | ht
    · rcases ht' with rfl | ht'
      · rfl
      · exact absurd heq (h.uid_pos t' ht').ne
    · rcases ht' with rfl | ht'
      · exact absurd heq (h.uid_pos t ht).ne'
      · exact h.uid_inj t ht t' ht' heq
  · rintro rfl
    rfl

end Invariant

/-! ## Hash-consing -/

section HashConsing

variable {X : Params ws K V} {s : State ws K V}

theorem hEqual_refl (hX : X.Lawful) (n : Tree ws K V) : hEqual X n n = true := by
  cases n with
  | empty => rfl
  | leaf a u k v => simp [hEqual, hX.refl]
  | branch a u p m t0 t1 => simp [hEqual, equal]

theorem hEqual_symm (hX : X.Lawful) {n n' : Tree ws K V} (h : hEqual X n n' = true) :
    hEqual X n' n = true := by
  cases n with
  | empty =>
    cases n' with
    | empty => rfl
    | leaf => cases h
    | branch => cases h
  | leaf a u k v =>
    cases n' with
    | empty => cases h
    | leaf a' u' k' v' =>
      simp only [hEqual, and_eq_true, beq_iff_eq] at h ⊢
      exact ⟨h.1.symm, hX.symm _ _ h.2⟩
    | branch => cases h
  | branch a u p m t0 t1 =>
    cases n' with
    | empty => cases h
    | leaf => cases h
    | branch a' u' p' m' t0' t1' =>
      simp only [hEqual, equal, and_eq_true, beq_iff_eq] at h ⊢
      exact ⟨⟨⟨h.1.1.1.symm, h.1.1.2.symm⟩, h.1.2.symm⟩, h.2.symm⟩

/-- Equal nodes fall into the same bucket. -/
theorem hHash_eq (hX : X.Lawful) (hs : Inv X s) {n n' : Tree ws K V}
    (hn : ∀ t ∈ sons n, Known s t) (hn' : ∀ t ∈ sons n', Known s t) (h : hEqual X n n' = true) :
    hHash X n = hHash X n' := by
  cases n with
  | empty =>
    cases n' with
    | empty => rfl
    | leaf => cases h
    | branch => cases h
  | leaf a u k v =>
    cases n' with
    | empty => cases h
    | leaf a' u' k' v' =>
      simp only [hEqual, and_eq_true, beq_iff_eq] at h
      rw [hHash, hHash, h.1, hX.hash _ _ h.2]
    | branch => cases h
  | branch a u p m t0 t1 =>
    cases n' with
    | empty => cases h
    | leaf => cases h
    | branch a' u' p' m' t0' t1' =>
      simp only [hEqual, and_eq_true, beq_iff_eq] at h
      obtain ⟨⟨⟨rfl, _⟩, h0⟩, h1⟩ := h
      rw [hs.equal_iff (hn t0 (by simp [sons])) (hn' t0' (by simp [sons]))] at h0
      rw [hs.equal_iff (hn t1 (by simp [sons])) (hn' t1' (by simp [sons]))] at h1
      rw [h0, h1, hHash, hHash]

/-- A block that was just allocated. -/
structure Fresh (s : State ws K V) (n : Tree ws K V) : Prop where
  addr : addr n = some s.nextaddr
  uid : hash n = s.nextid
  sons : ∀ t ∈ sons n, Known s t

/-- `hashcons` returns a node of the table that is equal to the new one. -/
theorem hashcons_spec (hX : X.Lawful) (hs : Inv X s) {n : Tree ws K V} (hn : Fresh s n) :
    Step X s (hashcons X { s with nextaddr := s.nextaddr + 1 } n).2 ∧
      (hashcons X { s with nextaddr := s.nextaddr + 1 } n).1 ∈
        (hashcons X { s with nextaddr := s.nextaddr + 1 } n).2.table ∧
      hEqual X n (hashcons X { s with nextaddr := s.nextaddr + 1 } n).1 = true := by
  have hlt : ∀ m ∈ s.table, ∀ a ∈ addr m, a < s.nextaddr + 1 := fun m hm a ha =>
    Nat.lt_succ_of_lt (hs.addr_lt m hm a ha)
  unfold hashcons
  split
  · next n' hfind =>
      have hp := find?_some hfind
      rw [and_eq_true] at hp
      exact ⟨⟨{ hs with addr_lt := hlt }, fun m hm => hm⟩, mem_of_find?_eq_some hfind, hp.2⟩
  · next hfind =>
      have hnew : ∀ m ∈ s.table, hEqual X n m ≠ true := by
        intro m hm heq
        have hp := find?_eq_none.mp hfind m hm
        rw [hHash_eq hX hs hn.sons (hs.sons m hm) heq, heq] at hp
        simp at hp
      have haddr : ∀ m ∈ s.table, addr n ≠ addr m := by
        intro m hm heq
        rw [hn.addr] at heq
        exact Nat.lt_irrefl _ (hs.addr_lt m hm _ heq.symm)
      have huid : ∀ m ∈ s.table, hash n ≠ hash m := by
        intro m hm heq
        have := hs.uid_lt m hm
        rw [← heq, hn.uid] at this
        exact Nat.lt_irrefl _ this
      have hknown : ∀ t, Known s t → Known (⟨n :: s.table, s.nextid + 1, s.nextaddr + 1⟩ :
          State ws K V) t := fun t ht => ht.imp_right (mem_cons_of_mem _)
      refine ⟨⟨⟨?_, ?_, ?_, ?_, ?_, ?_, ?_, ?_, Nat.succ_pos _⟩, ?_⟩, mem_cons_self,
        hEqual_refl hX n⟩
      · intro m hm
        rcases mem_cons.mp hm with rfl | hm
        · intro hempty
          have := hn.addr
          rw [hempty] at this
          cases this
        · exact hs.ne_empty m hm
      · intro m hm t ht
        rcases mem_cons.mp hm with rfl | hm
        · exact hknown t (hn.sons t ht)
        · exact hknown t (hs.sons m hm t ht)
      · intro m hm m' hm' heq
        rcases mem_cons.mp hm with rfl | hmt
        · rcases mem_cons.mp hm' with rfl | hmt'
          · rfl
          · exact absurd heq (hnew m' hmt')
        · rcases mem_cons.mp hm' with rfl | hmt'
          · exact absurd (hEqual_symm hX heq) (hnew m hmt)
          · exact hs.unique m hmt m' hmt' heq
      · intro m hm a ha
        rcases mem_cons.mp hm with rfl | hm
        · rw [hn.addr, Option.mem_some_iff] at ha
          exact ha ▸ Nat.lt_succ_self _
        · exact hlt m hm a ha
      · intro m hm m' hm' heq
        rcases mem_cons.mp hm with rfl | hmt
        · rcases mem_cons.mp hm' with rfl | hmt'
          · rfl
          · exact absurd heq (haddr m' hmt')
        · rcases mem_cons.mp hm' with rfl | hmt'
          · exact absurd heq.symm (haddr m hmt)
          · exact hs.addr_inj m hmt m' hmt' heq
      · intro m hm
        rcases mem_cons.mp hm with rfl | hm
        · rw [hn.uid]
          exact hs.nextid_pos
        · exact hs.uid_pos m hm
      · intro m hm
        rcases mem_cons.mp hm with rfl | hm
        · rw [hn.uid]
          exact Nat.lt_succ_self _
        · exact Nat.lt_succ_of_lt (hs.uid_lt m hm)
      · intro m hm m' hm' heq
        rcases mem_cons.mp hm with rfl | hmt
        · rcases mem_cons.mp hm' with rfl | hmt'
          · rfl
          · exact absurd heq (huid m' hmt')
        · rcases mem_cons.mp hm' with rfl | hmt'
          · exact absurd heq.symm (huid m hmt)
          · exact hs.uid_inj m hmt m' hmt' heq
      · intro m hm
        exact mem_cons_of_mem _ hm

/-- The bindings that the table cannot tell apart. -/
def Eqv (X : Params ws K V) (p q : K × V) : Prop :=
  X.id p.1 = X.id q.1 ∧ X.equal p.2 q.2 = true

theorem leaf_spec (hX : X.Lawful) (hs : Inv X s) (k : K) (v : V) :
    Step X s (leaf X s k v).2 ∧ Known (leaf X s k v).2 (leaf X s k v).1 ∧
      ∃ a u k' v', (leaf X s k v).1 = .leaf a u k' v' ∧ Eqv X (k, v) (k', v') := by
  obtain ⟨hstep, hmem, heq⟩ := hashcons_spec hX hs (n := .leaf s.nextaddr s.nextid k v)
    ⟨rfl, rfl, by simp [sons]⟩
  refine ⟨hstep, .inr hmem, ?_⟩
  rw [← leaf] at heq
  cases hn : (leaf X s k v).1 with
  | empty | branch => rw [hn] at heq; cases heq
  | leaf a u k' v' =>
    rw [hn] at heq
    simp only [hEqual, and_eq_true, beq_iff_eq] at heq
    exact ⟨a, u, k', v', rfl, heq⟩

theorem branch_spec (hX : X.Lawful) (hs : Inv X s) (p m : Word ws) {t0 t1 : Tree ws K V}
    (h0 : Known s t0) (h1 : Known s t1) :
    Step X s (branch X s p m t0 t1).2 ∧
      Known (branch X s p m t0 t1).2 (branch X s p m t0 t1).1 ∧
      ∃ a u, (branch X s p m t0 t1).1 = .branch a u p m t0 t1 := by
  obtain ⟨hstep, hmem, heq⟩ := hashcons_spec hX hs (n := .branch s.nextaddr s.nextid p m t0 t1)
    ⟨rfl, rfl, by simpa [sons] using ⟨h0, h1⟩⟩
  refine ⟨hstep, .inr hmem, ?_⟩
  rw [← branch] at hstep hmem heq
  cases hn : (branch X s p m t0 t1).1 with
  | empty | leaf => rw [hn] at heq; cases heq
  | branch a u p' m' t0' t1' =>
    rw [hn] at heq hmem
    simp only [hEqual, and_eq_true, beq_iff_eq] at heq
    obtain ⟨⟨⟨rfl, rfl⟩, heq0⟩, heq1⟩ := heq
    have hsons := hstep.inv.sons _ hmem
    rw [hstep.inv.equal_iff (h0.step hstep) (hsons t0' (by simp [sons]))] at heq0
    rw [hstep.inv.equal_iff (h1.step hstep) (hsons t1' (by simp [sons]))] at heq1
    exact ⟨a, u, by rw [heq0, heq1]⟩

end HashConsing

end Why3.Hcpt
