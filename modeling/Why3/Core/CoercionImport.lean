import Why3.Core.Coercion
import Mathlib.Logic.Relation

/-!
# Importing coercions

When a theory is used, its coercions are added to those that are there: `add` and
`union` of `core/coercion.ml` meet coercions that the map has already.  An entry of
the map that stands for two functions one after the other is the same however the map
was built, but one for three functions is a tree whose shape depends on the order.
-/

namespace Why3

open List Checks

variable {s t u : TySymbol} {m : CrcMap} {K : TySymbol → TySymbol → Option CoercionKind}
variable {crc : Coercion} {k : CoercionKind} {l : List (TySymbol × Coercion)} {ls : LSymbol}
variable {c : Coercion}

namespace Coercions

open Relation

/-! ## Entries that are kept -/

theorem ckEq_iff (k₁ k₂ : CoercionKind) : ckEq k₁ k₂ = true ↔ k₁ = k₂ := by
  induction k₁ generalizing k₂ with
  | crcLeaf ls =>
    cases k₂ with
    | crcLeaf ls' => simp [ckEq]
    | crcComp k₁ k₂ => simp [ckEq]
  | crcComp k l ihk ihl =>
    cases k₂ with
    | crcLeaf ls' => simp [ckEq]
    | crcComp k' l' => simp [ckEq, ihk, ihl]

/-- Every entry of `m` is one of `m'`. -/
def Kept (m m' : CrcMap) : Prop := ∀ s t c, get m s t = some c → get m' s t = some c

variable {m₁ m₂ : CrcMap}

theorem Kept.trans {m₃ : CrcMap} (h₁ : Kept m₁ m₂) (h₂ : Kept m₂ m₃) : Kept m₁ m₃ :=
  fun s t c h => h₂ s t c (h₁ s t c h)

/-- The kind of the coercion from one type symbol to another. -/
def KindAt (m : CrcMap) (s t : TySymbol) (k : CoercionKind) : Prop :=
  ∃ c, get m s t = some c ∧ c.crcKind = k

variable {k : CoercionKind}

theorem KindAt.kept {m' : CrcMap} (h : KindAt m s t k) (hkept : Kept m m') : KindAt m' s t k := by
  obtain ⟨c, hc, rfl⟩ := h
  exact ⟨c, hkept _ _ _ hc, rfl⟩

theorem KindAt.unique {k' : CoercionKind} (h : KindAt m s t k) (h' : KindAt m s t k') :
    k = k' := by
  obtain ⟨c, hc, rfl⟩ := h
  obtain ⟨c', hc', rfl⟩ := h'
  rw [hc] at hc'
  cases hc'
  rfl

theorem KindAt.has (h : KindAt m s t k) : Has m s t := by
  obtain ⟨c, hc, -⟩ := h
  exact has_of_get hc

theorem insert_spec {m' : CrcMap} (h : insert crc m = .ok m') :
    Kept m m' ∧ KindAt m' crc.crcSrcTs crc.crcTarTs crc.crcKind ∧
      (Has m crc.crcSrcTs crc.crcTarTs → m' = m) := by
  rw [insert] at h
  split at h
  · cases h
  · dsimp only at h
    split at h
    · next c hc =>
        rw [get_findD] at hc
        rw [replace] at h
        split_ifs at h with hk
        cases h
        exact ⟨fun _ _ _ h => h, ⟨c, hc, (ckEq_iff _ _).mp hk⟩, fun _ => rfl⟩
    · next hnone =>
        rw [get_findD] at hnone
        cases h
        refine ⟨fun s t c hget => ?_, ⟨crc, ?_, rfl⟩, fun hhas => ?_⟩
        · rw [get_add, if_neg, hget]
          rintro ⟨rfl, rfl⟩
          rw [hnone] at hget
          cases hget
        · rw [get_add, if_pos ⟨rfl, rfl⟩]
        · rw [Has, hnone] at hhas
          cases hhas

theorem insert_total
    (hm : ∀ s t c, get m s t = some c → K s t = some c.crcKind)
    (hK : ∀ s t k, K s t = some k → K t s = none)
    (hcrc : K crc.crcSrcTs crc.crcTarTs = some crc.crcKind) :
    ∃ m', insert crc m = .ok m' := by
  rw [insert]
  split
  · next c hc =>
      have := hK _ _ _ hcrc
      rw [hm _ _ _ hc] at this
      cases this
  · dsimp only
    split
    · next c hc =>
        rw [get_findD] at hc
        have := hm _ _ _ hc
        rw [hcrc] at this
        refine ⟨m, ?_⟩
        rw [replace, if_pos]
        rw [ckEq_iff]
        exact (Option.some.inj this).symm
    · exact ⟨_, rfl⟩

/-! ## What an addition establishes -/

/-- The kinds at the pairs that an addition of `crc` to `m` meets. -/
structure Joins (m : CrcMap) (crc : Coercion) (K : TySymbol → TySymbol → CoercionKind → Prop) :
    Prop where
  new : K crc.crcSrcTs crc.crcTarTs crc.crcKind
  right : ∀ t c₂, get m crc.crcTarTs t = some c₂ → K crc.crcSrcTs t (compose crc c₂).crcKind
  left : ∀ s c₁, get m s crc.crcSrcTs = some c₁ → K s crc.crcTarTs (compose c₁ crc).crcKind
  both : ∀ s t c₁ c₂, get m s crc.crcSrcTs = some c₁ → get m crc.crcTarTs t = some c₂ →
    K s t (compose c₁ c₂).crcKind

theorem closeRight_kinds {b b' : CrcMap} {c₁ : Coercion}
    (h : l.foldlM (closeRight c₁) b = .ok b') :
    Kept b b' ∧ ∀ e ∈ l, KindAt b' c₁.crcSrcTs e.2.crcTarTs (compose c₁ e.2).crcKind := by
  refine foldlM_all (M := Kept)
    (P := fun (e : TySymbol × Coercion) b =>
      KindAt b c₁.crcSrcTs e.2.crcTarTs (compose c₁ e.2).crcKind)
    (fun _ _ _ _ h => h) (fun h₁ h₂ => h₁.trans h₂) (fun h₁ h₂ => h₁.kept h₂) ?_ h
  intro b e b' hstep
  obtain ⟨hkept, hkind, -⟩ := insert_spec hstep
  exact ⟨hkept, hkind⟩

section Addition

variable {m m' : CrcMap} {crc : Coercion}

/-- One row: the source of `c₁` reaches what the target of the new coercion reaches. -/
theorem closeLeftRight_kinds {b b' : CrcMap} {e : TySymbol × TagMap TySymbol Coercion}
    (hkey : Keyed m) (h : closeLeftRight crc b e = .ok b') (hb : Kept m b) :
    Kept b b' ∧ ∀ c₁, e.2.find? crc.crcSrcTs = some c₁ →
      KindAt b' c₁.crcSrcTs crc.crcTarTs (compose c₁ crc).crcKind ∧
      ∀ t c₂, t ≠ crc.crcTarTs → get m crc.crcTarTs t = some c₂ →
        KindAt b' c₁.crcSrcTs t (compose c₁ c₂).crcKind := by
  rw [closeLeftRight] at h
  split at h
  · next c₁ hc₁ =>
      obtain ⟨hkept, hkinds⟩ := closeRight_kinds h
      refine ⟨hkept, fun c hc => ?_⟩
      rw [hc₁] at hc
      cases hc
      refine ⟨hkinds _ (TagMap.mem_add.mpr (Or.inl rfl)), fun t c₂ ht hc₂ => ?_⟩
      have hmem : (t, c₂) ∈ ((b.findD crc.crcTarTs TagMap.empty).add crc.crcTarTs crc).entries := by
        refine TagMap.mem_add.mpr (Or.inr ⟨?_, ht⟩)
        rw [← TagMap.find?_eq_some_iff, get_findD]
        exact hb _ _ _ hc₂
      have := hkinds _ hmem
      rwa [(hkey _ _ _ hc₂).2] at this
  · next hnone =>
      cases h
      refine ⟨fun _ _ _ h => h, fun c hc => ?_⟩
      rw [hnone] at hc
      cases hc

/-- The rows of the last loop, on maps that keep the entries. -/
theorem closeLeftRight_run {l : List (TySymbol × TagMap TySymbol Coercion)} (hkey : Keyed m) :
    ∀ {b b' : CrcMap}, l.foldlM (closeLeftRight crc) b = .ok b' → Kept m b →
      Kept b b' ∧ ∀ e ∈ l, ∀ c₁, e.2.find? crc.crcSrcTs = some c₁ →
        KindAt b' c₁.crcSrcTs crc.crcTarTs (compose c₁ crc).crcKind ∧
        ∀ t c₂, t ≠ crc.crcTarTs → get m crc.crcTarTs t = some c₂ →
          KindAt b' c₁.crcSrcTs t (compose c₁ c₂).crcKind := by
  induction l with
  | nil =>
    intro b b' h _
    cases h
    exact ⟨fun _ _ _ h => h, fun e he => by cases he⟩
  | cons e l ih =>
    intro b b' h hb
    rw [foldlM_cons] at h
    obtain ⟨b₁, hb₁, h⟩ := Checks.bind_eq_ok.mp h
    obtain ⟨hk, hkinds⟩ := closeLeftRight_kinds hkey hb₁ hb
    obtain ⟨hk', hkinds'⟩ := ih h (hb.trans hk)
    refine ⟨hk.trans hk', fun e' he' => ?_⟩
    rcases mem_cons.mp he' with rfl | he'
    · intro c₁ hc₁
      obtain ⟨hl, hr⟩ := hkinds c₁ hc₁
      exact ⟨hl.kept hk', fun t c₂ ht hc₂ => (hr t c₂ ht hc₂).kept hk'⟩
    · exact hkinds' e' he'

/-- A successful addition keeps the entries, and at the pairs it meets stand the
compositions, the old ones included. -/
theorem addCrc_kinds (hm : Closed m) (h : addCrc m crc = .ok m') :
    Kept m m' ∧ Joins m crc (KindAt m') := by
  rw [addCrc] at h
  obtain ⟨uc₁, huc₁, h⟩ := Checks.bind_eq_ok.mp h
  obtain ⟨uc₂, huc₂, h⟩ := Checks.bind_eq_ok.mp h
  obtain ⟨hkept₁, hkind₁, -⟩ := insert_spec huc₁
  obtain ⟨hkept₂, hkind₂⟩ := closeRight_kinds huc₂
  have hkept : Kept m uc₂ := hkept₁.trans hkept₂
  obtain ⟨hkept₃, hkind₃⟩ := closeLeftRight_run hm.keyed h hkept
  have hrow : ∀ s c₁, get m s crc.crcSrcTs = some c₁ →
      KindAt m' s crc.crcTarTs (compose c₁ crc).crcKind ∧
      ∀ t c₂, t ≠ crc.crcTarTs → get m crc.crcTarTs t = some c₂ →
        KindAt m' s t (compose c₁ c₂).crcKind := by
    intro s c₁ hc₁
    have hget := hkept _ _ _ hc₁
    rw [get, Option.bind_eq_some_iff] at hget
    obtain ⟨row, hrow, hc₁'⟩ := hget
    obtain ⟨rfl, -⟩ := hm.keyed _ _ _ hc₁
    exact hkind₃ (c₁.crcSrcTs, row) (TagMap.find?_eq_some_iff.mp hrow) c₁ hc₁'
  refine ⟨hkept.trans hkept₃, ?_⟩
  constructor
  · exact (hkind₁.kept hkept₂).kept hkept₃
  · intro t c₂ hc₂
    have hmem : (t, c₂) ∈ (uc₁.findD crc.crcTarTs TagMap.empty).entries := by
      rw [← TagMap.find?_eq_some_iff, get_findD]
      exact hkept₁ _ _ _ hc₂
    have := (hkind₂ _ hmem).kept hkept₃
    rwa [(hm.keyed _ _ _ hc₂).2] at this
  · exact fun s c₁ hc₁ => (hrow s c₁ hc₁).1
  · intro s t c₁ c₂ hc₁ hc₂
    refine (hrow s c₁ hc₁).2 t c₂ ?_ hc₂
    rintro rfl
    exact hm.irrefl _ (has_of_get hc₂)

/-! ## When an addition succeeds -/

/-- Compositions that agree with a map of kinds without cycles. -/
theorem closeRight_total {b : CrcMap} {c₁ : Coercion}
    (hK : ∀ s t k, K s t = some k → K t s = none)
    (hl : ∀ e ∈ l, K c₁.crcSrcTs e.2.crcTarTs = some (compose c₁ e.2).crcKind)
    (hb : ∀ s t c, get b s t = some c → K s t = some c.crcKind) :
    ∃ b', l.foldlM (closeRight c₁) b = .ok b' := by
  obtain ⟨b', hb', -⟩ := foldlM_total
    (f := closeRight c₁) (l := l)
    (I := fun b : CrcMap => ∀ s t c, get b s t = some c → K s t = some c.crcKind) hb (by
      intro e he b hb
      have hkind : K (compose c₁ e.2).crcSrcTs (compose c₁ e.2).crcTarTs
          = some (compose c₁ e.2).crcKind := hl e he
      obtain ⟨b', hb'⟩ := insert_total hb hK hkind
      refine ⟨b', hb', fun s t c hc => ?_⟩
      rcases get_insert hb' hc with hc | ⟨rfl, rfl, rfl⟩
      · exact hb _ _ _ hc
      · exact hl e he)
  exact ⟨b', hb'⟩

/-- An addition succeeds if the entries and those it meets agree with a map of kinds
without cycles. -/
theorem addCrc_total (hm : Closed m)
    (hcrc : crc.crcSrcTs ≠ crc.crcTarTs) (hK : ∀ s t k, K s t = some k → K t s = none)
    (hold : ∀ s t c, get m s t = some c → K s t = some c.crcKind)
    (hj : Joins m crc fun s t k => K s t = some k) : ∃ m', addCrc m crc = .ok m' := by
  have hcycle : ¬ Has m crc.crcTarTs crc.crcSrcTs := by
    intro h
    obtain ⟨c, hc⟩ := has_iff.mp h
    have := hK _ _ _ (hold _ _ _ hc)
    rw [hj.new] at this
    cases this
  obtain ⟨uc₁, huc₁⟩ := insert_total hold hK hj.new
  have hclose : Closing m crc (fun s t c => K s t = some c.crcKind) m :=
    ⟨fun _ => rfl, fun _ _ h => h, hold⟩
  have hclose₁ := hclose.insert huc₁ hcrc.symm hcrc hj.new
  have hrow : ∀ e, e ∈ (uc₁.findD crc.crcTarTs TagMap.empty).entries →
      get m crc.crcTarTs e.1 = some e.2 := by
    intro e he
    rw [← hclose₁.row, ← get_findD]
    exact TagMap.find?_eq_some_iff.mpr he
  have hright : ∀ e ∈ (uc₁.findD crc.crcTarTs TagMap.empty).entries,
      e.2.crcTarTs = e.1 ∧ crc.crcSrcTs ≠ e.1 ∧
        K crc.crcSrcTs e.1 = some (compose crc e.2).crcKind := by
    intro e he
    refine ⟨(hm.keyed _ _ _ (hrow e he)).2, ?_, hj.right _ _ (hrow e he)⟩
    intro heq
    have hcyc := hrow e he
    rw [← heq] at hcyc
    exact hcycle (has_of_get hcyc)
  obtain ⟨uc₂, huc₂⟩ := closeRight_total hK (fun e he => by
    rw [(hright e he).1]
    exact (hright e he).2.2) hclose₁.entries
  obtain ⟨hclose₂, hhas₂⟩ := closeRight_run hclose₁ huc₂ hcrc.symm hright
  have hentry : ∀ e, e ∈ uc₂.entries → e.2.find? crc.crcSrcTs = get m e.1 crc.crcSrcTs := by
    intro e he
    rw [← get_of_mem he]
    cases hget : get uc₂ e.1 crc.crcSrcTs with
    | some c => exact (hclose₂.column _ _ hget).symm
    | none =>
      cases hget' : get m e.1 crc.crcSrcTs with
      | none => rfl
      | some c =>
        have := (hhas₂ (e.1, crc.crcSrcTs)).mpr
          (Or.inl ((has_insert huc₁ _ _).mpr (Or.inl (has_of_get hget'))))
        rw [Has, hget] at this
        cases this
  obtain ⟨m', hm', -⟩ := Checks.foldlM_total (I := Closing m crc fun s t c => K s t = some c.crcKind)
    hclose₂ (by
      intro e he b hb
      have hex : ∃ b', closeLeftRight crc b e = .ok b' := by
        rw [closeLeftRight]
        split
        · next c₁ hc₁ =>
            rw [hentry e he] at hc₁
            apply closeRight_total hK ?_ hb.entries
            intro d hd
            rw [(hm.keyed _ _ _ hc₁).1]
            rcases TagMap.mem_add.mp hd with rfl | ⟨hd, -⟩
            · exact hj.left _ _ hc₁
            · rw [← TagMap.find?_eq_some_iff, get_findD, hb.row] at hd
              rw [(hm.keyed _ _ _ hd).2]
              exact hj.both _ _ _ _ hc₁ hd
        · exact ⟨b, rfl⟩
      obtain ⟨b', hb'⟩ := hex
      exact ⟨b', hb', (closeLeftRight_step hm.keyed hcrc hcycle hj.left hj.both (hentry e he)
        hb' hb).1⟩)
  refine ⟨m', ?_⟩
  rw [addCrc, huc₁]
  show ((uc₁.findD crc.crcTarTs TagMap.empty).entries.foldlM (closeRight crc) uc₁ >>= _) = _
  rw [huc₂]
  exact hm'

/-- An addition that meets only pairs of the map leaves it as it is. -/
theorem addCrc_same (hm : Closed m)
    (hhas : Has m crc.crcSrcTs crc.crcTarTs) (h : addCrc m crc = .ok m') : m' = m := by
  have hclose : ∀ {c₁ : Coercion} {l : List (TySymbol × Coercion)} {b : CrcMap},
      (∀ e ∈ l, Has m c₁.crcSrcTs e.2.crcTarTs) →
      l.foldlM (closeRight c₁) m = .ok b → b = m := by
    intro c₁ l b hl hfold
    refine foldlM_inv (I := fun b => b = m) (fun e he b b' hstep hb => ?_) hfold rfl
    subst hb
    exact (insert_spec hstep).2.2 (hl e he)
  rw [addCrc] at h
  obtain ⟨uc₁, huc₁, h⟩ := Checks.bind_eq_ok.mp h
  obtain ⟨uc₂, huc₂, h⟩ := Checks.bind_eq_ok.mp h
  rw [(insert_spec huc₁).2.2 hhas] at huc₂
  have h₂ : uc₂ = m := hclose (fun e he => by
    have hrow : get m crc.crcTarTs e.1 = some e.2 := by
      rw [← get_findD]
      exact TagMap.find?_eq_some_iff.mpr he
    rw [(hm.keyed _ _ _ hrow).2]
    exact hm.trans _ _ _ hhas (has_of_get hrow)) huc₂
  rw [h₂] at h
  refine foldlM_inv (I := fun b => b = m) (fun e he b b' hstep hb => ?_) h rfl
  subst hb
  rw [closeLeftRight] at hstep
  split at hstep
  · next c₁ hc₁ =>
      rw [← get_of_mem he] at hc₁
      have hsrc := (hm.keyed _ _ _ hc₁).1
      refine hclose (fun d hd => ?_) hstep
      rw [hsrc]
      rcases TagMap.mem_add.mp hd with rfl | ⟨hd, -⟩
      · exact hm.trans _ _ _ (has_of_get hc₁) hhas
      · rw [← TagMap.find?_eq_some_iff, get_findD] at hd
        rw [(hm.keyed _ _ _ hd).2]
        exact hm.trans _ _ _ (has_of_get hc₁) (hm.trans _ _ _ hhas (has_of_get hd))
  · cases hstep
    rfl

end Addition

/-! ## The functions of a map -/

/-- A coercion that is not a composition. -/
def Leaf (m : CrcMap) (s t : TySymbol) (ls : LSymbol) : Prop := KindAt m s t (.crcLeaf ls)

def Prim (m : CrcMap) (s t : TySymbol) : Prop := ∃ ls, Leaf m s t ls

/-- What every run keeps: the pairs are those that the functions reach, along one way
only, and a composition joins two entries, which are next to each other or have one
function between them. -/
structure Wired (m : CrcMap) : Prop where
  closed : Closed m
  created : ∀ s t c ls, get m s t = some c → c.crcKind = .crcLeaf ls → createCrc ls = .ok c
  path : ∀ s t, Has m s t → TransGen (Prim m) s t
  step : ∀ s u u' t, Prim m s u → Prim m s u' → (u = t ∨ Has m u t) → (u' = t ∨ Has m u' t) →
    u = u'
  joined : ∀ s t k₁ k₂, KindAt m s t (.crcComp k₁ k₂) →
    ∃ x y, KindAt m s x k₁ ∧ KindAt m y t k₂ ∧ (x = y ∨ Prim m x y)

theorem Prim.has (h : Prim m s t) : Has m s t := by
  obtain ⟨ls, h⟩ := h
  exact KindAt.has h

theorem Closed.has_of_path (hm : Closed m) (h : TransGen (Prim m) s t) :
    Has m s t := by
  induction h with
  | single h => exact h.has
  | tail _ h ih => exact hm.trans _ _ _ ih h.has

section Wired

variable {m : CrcMap}

theorem Wired.first (hm : Wired m) (h : Has m s t) : ∃ u, Prim m s u ∧ (u = t ∨ Has m u t) := by
  have hgen := hm.path s t h
  clear h
  induction hgen using TransGen.head_induction_on with
  | single hst => exact ⟨_, hst, .inl rfl⟩
  | head hsu hut _ =>
    exact ⟨_, hsu, .inr (hm.closed.has_of_path hut)⟩

theorem Wired.ne (hm : Wired m) (h : Has m s t) : s ≠ t := by
  rintro rfl
  exact hm.closed.irrefl s h

theorem Wired.asymm (hm : Wired m) (h : Has m s t) : ¬ Has m t s :=
  fun h' => hm.closed.irrefl s (hm.closed.trans _ _ _ h h')

theorem Wired.kind_pair (hm : Wired m) : ∀ {s t s' t' : TySymbol},
    KindAt m s t k → KindAt m s' t' k → s = s' ∧ t = t' := by
  induction k with
  | crcLeaf ls =>
    rintro s t s' t' ⟨c, hc, hk⟩ ⟨c', hc', hk'⟩
    have h := hm.created _ _ _ _ hc hk
    rw [hm.created _ _ _ _ hc' hk'] at h
    cases h
    obtain ⟨rfl, rfl⟩ := hm.closed.keyed _ _ _ hc
    exact hm.closed.keyed _ _ _ hc'
  | crcComp k₁ k₂ ih₁ ih₂ =>
    intro s t s' t' h h'
    obtain ⟨x, y, h₁, h₂, -⟩ := hm.joined _ _ _ _ h
    obtain ⟨x', y', h₁', h₂', -⟩ := hm.joined _ _ _ _ h'
    exact ⟨(ih₁ h₁ h₁').1, (ih₂ h₂ h₂').2⟩

/-- Two functions one after the other: their composition is the entry. -/
theorem Wired.kind_two (hm : Wired m) {ls₁ ls₂ : LSymbol} (h₁ : Leaf m s u ls₁)
    (h₂ : Leaf m u t ls₂) (h : KindAt m s t k) : k = .crcComp (.crcLeaf ls₁) (.crcLeaf ls₂) := by
  have hut : Has m u t := KindAt.has h₂
  cases k with
  | crcLeaf ls =>
    -- a function from `s` to `t` would be a second way
    have := hm.step s u t t ⟨ls₁, h₁⟩ ⟨ls, h⟩ (.inr hut) (.inl rfl)
    exact absurd this (hm.ne hut)
  | crcComp k₁ k₂ =>
    obtain ⟨x, y, hk₁, hk₂, hxy⟩ := hm.joined _ _ _ _ h
    have hyt : Has m y t := hk₂.has
    have hxt : Has m x t := by
      rcases hxy with rfl | hxy
      · exact hyt
      · exact hm.closed.trans _ _ _ hxy.has hyt
    obtain ⟨v, hv, hvx⟩ := hm.first hk₁.has
    have hvt : Has m v t := by
      rcases hvx with rfl | hvx
      · exact hxt
      · exact hm.closed.trans _ _ _ hvx hxt
    obtain rfl := hm.step s u v t ⟨ls₁, h₁⟩ hv (.inr hut) (.inr hvt)
    -- the way from `u` to `t` has no other symbol on it
    have hbetween : ∀ w, Has m u w → ¬ Has m w t := by
      intro w huw hwt
      obtain ⟨v', hv', hvw⟩ := hm.first huw
      have hvt' : Has m v' t := by
        rcases hvw with rfl | hvw
        · exact hwt
        · exact hm.closed.trans _ _ _ hvw hwt
      exact hm.ne hvt' (hm.step u v' t t hv' ⟨ls₂, h₂⟩ (.inr hvt') (.inl rfl))
    obtain rfl : u = x := hvx.resolve_right fun hux => hbetween x hux hxt
    obtain rfl : u = y := hxy.resolve_right fun huy => hbetween y huy.has hyt
    rw [KindAt.unique hk₁ h₁, KindAt.unique hk₂ h₂]

end Wired

/-! ## Adding a function -/

theorem createCrc_leaf (h : createCrc ls = .ok crc) :
    crc.crcKind = .crcLeaf ls := by
  rw [createCrc] at h
  split at h
  · split_ifs at h
    cases h
    rfl
  · cases h

section Function

variable {m m' : CrcMap} {ls : LSymbol} {crc : Coercion}

theorem Wired.has_of_leaf (hm : Wired m) (hcrc : createCrc ls = .ok crc) (h : Leaf m s t ls) :
    s = crc.crcSrcTs ∧ t = crc.crcTarTs := by
  obtain ⟨c, hc, hk⟩ := h
  have hc' := hm.created _ _ _ _ hc hk
  rw [hcrc] at hc'
  cases hc'
  obtain ⟨h₁, h₂⟩ := hm.closed.keyed _ _ _ hc
  exact ⟨h₁.symm, h₂.symm⟩

/-- A new function gives no pair a second way. -/
theorem Wired.no_way (hm : Wired m) (hcrc : createCrc ls = .ok crc) (h : addCrc m crc = .ok m')
    (hnew : ¬ Has m crc.crcSrcTs crc.crcTarTs) (hs : s = crc.crcSrcTs ∨ Has m s crc.crcSrcTs)
    (ht : t = crc.crcTarTs ∨ Has m crc.crcTarTs t) : ¬ Has m s t := by
  intro hst
  obtain ⟨hkept, hj⟩ := addCrc_kinds hm.closed h
  have hleaf := createCrc_leaf hcrc
  obtain ⟨d, hd⟩ := has_iff.mp hst
  have hd' : KindAt m' s t d.crcKind := ⟨d, hkept _ _ _ hd, rfl⟩
  have hdm : KindAt m s t d.crcKind := ⟨d, hd, rfl⟩
  rcases hs with rfl | hs
  · rcases ht with rfl | ht
    · exact hnew hst
    · -- from the source: the old entry would begin with the new function
      obtain ⟨c₂, hc₂⟩ := has_iff.mp ht
      rw [hd'.unique (hj.right _ _ hc₂)] at hdm
      obtain ⟨x, y, hx, -, -⟩ := hm.joined _ _ _ _ hdm
      rw [hleaf] at hx
      obtain ⟨-, rfl⟩ := hm.has_of_leaf hcrc hx
      exact hnew hx.has
  · obtain ⟨c₁, hc₁⟩ := has_iff.mp hs
    rcases ht with rfl | ht
    · rw [hd'.unique (hj.left _ _ hc₁)] at hdm
      obtain ⟨x, y, -, hy, -⟩ := hm.joined _ _ _ _ hdm
      rw [hleaf] at hy
      obtain ⟨rfl, -⟩ := hm.has_of_leaf hcrc hy
      exact hnew hy.has
    · -- around the new function: the old entry would have it in the middle
      obtain ⟨c₂, hc₂⟩ := has_iff.mp ht
      rw [hd'.unique (hj.both _ _ _ _ hc₁ hc₂)] at hdm
      obtain ⟨x, y, hx, hy, hxy⟩ := hm.joined _ _ _ _ hdm
      obtain ⟨-, rfl⟩ := hm.kind_pair hx ⟨c₁, hc₁, rfl⟩
      obtain ⟨rfl, -⟩ := hm.kind_pair hy ⟨c₂, hc₂, rfl⟩
      rcases hxy with hxy | hxy
      · exact (createCrc_ne hcrc).1 hxy
      · exact hnew hxy.has

theorem addCrc_entries (hm : Closed m) (hne : crc.crcSrcTs ≠ crc.crcTarTs)
    (h : addCrc m crc = .ok m') (hc : get m' s t = some c) :
    get m s t = some c ∨ (s = crc.crcSrcTs ∧ t = crc.crcTarTs ∧ c = crc) ∨
      ∃ c₁ c₂, c = compose c₁ c₂ ∧
        (s = crc.crcSrcTs ∧ c₁ = crc ∨ get m s crc.crcSrcTs = some c₁) ∧
        (t = crc.crcTarTs ∧ c₂ = crc ∨ get m crc.crcTarTs t = some c₂) := by
  refine (addCrc_spec (Q := fun s t c => get m s t = some c ∨
    (s = crc.crcSrcTs ∧ t = crc.crcTarTs ∧ c = crc) ∨ ∃ c₁ c₂, c = compose c₁ c₂ ∧
      (s = crc.crcSrcTs ∧ c₁ = crc ∨ get m s crc.crcSrcTs = some c₁) ∧
      (t = crc.crcTarTs ∧ c₂ = crc ∨ get m crc.crcTarTs t = some c₂)) hm.keyed hne
    (fun _ _ _ h => .inl h) (.inr (.inl ⟨rfl, rfl, rfl⟩)) ?_ ?_ ?_ h).2.2 s t c hc
  · exact fun t c₂ h₂ => .inr (.inr ⟨crc, c₂, rfl, .inl ⟨rfl, rfl⟩, .inr h₂⟩)
  · exact fun s c₁ h₁ => .inr (.inr ⟨c₁, crc, rfl, .inr h₁, .inl ⟨rfl, rfl⟩⟩)
  · exact fun s t c₁ c₂ h₁ h₂ => .inr (.inr ⟨c₁, c₂, rfl, .inr h₁, .inr h₂⟩)

theorem leaf_addCrc (hm : Closed m) (hcrc : createCrc ls = .ok crc) (h : addCrc m crc = .ok m')
    (s t : TySymbol) (l : LSymbol) : Leaf m' s t l ↔
      Leaf m s t l ∨ (s = crc.crcSrcTs ∧ t = crc.crcTarTs ∧ l = ls) := by
  have hleaf := createCrc_leaf hcrc
  obtain ⟨hkept, hj⟩ := addCrc_kinds hm h
  constructor
  · rintro ⟨c, hc, hk⟩
    rcases addCrc_entries hm (createCrc_ne hcrc).1 h hc with hc | ⟨rfl, rfl, rfl⟩ |
      ⟨c₁, c₂, rfl, -, -⟩
    · exact .inl ⟨c, hc, hk⟩
    · rw [hleaf] at hk
      cases hk
      exact .inr ⟨rfl, rfl, rfl⟩
    · cases hk
  · rintro (h | ⟨rfl, rfl, rfl⟩)
    · exact KindAt.kept h hkept
    · have := hj.new
      rwa [hleaf] at this

theorem prim_addCrc (hm : Closed m) (hcrc : createCrc ls = .ok crc) (h : addCrc m crc = .ok m')
    (s t : TySymbol) :
    Prim m' s t ↔ Prim m s t ∨ (s = crc.crcSrcTs ∧ t = crc.crcTarTs) := by
  constructor
  · rintro ⟨l, hl⟩
    rcases (leaf_addCrc hm hcrc h s t l).mp hl with hl | ⟨hs, ht, -⟩
    · exact .inl ⟨l, hl⟩
    · exact .inr ⟨hs, ht⟩
  · rintro (⟨l, hl⟩ | hst)
    · exact ⟨l, (leaf_addCrc hm hcrc h s t l).mpr (.inl hl)⟩
    · exact ⟨ls, (leaf_addCrc hm hcrc h s t ls).mpr (.inr ⟨hst.1, hst.2, rfl⟩)⟩

theorem Wired.path_addCrc (hm : Wired m) (hcrc : createCrc ls = .ok crc) (h : addCrc m crc = .ok m')
    (hst : Has m' s t) : TransGen (Prim m') s t := by
  have hprim := prim_addCrc hm.closed hcrc h
  have hold : ∀ {s t}, Has m s t → TransGen (Prim m') s t := by
    intro s t hst
    exact TransGen.mono (fun x y hxy => (hprim x y).mpr (.inl hxy)) s t (hm.path s t hst)
  rcases (addCrc_has hm.closed (createCrc_ne hcrc).1 h s t).mp hst with hst | ⟨hs, ht⟩
  · exact hold hst
  · have hedge : Prim m' crc.crcSrcTs crc.crcTarTs := (hprim _ _).mpr (.inr ⟨rfl, rfl⟩)
    have hend : TransGen (Prim m') crc.crcSrcTs t := by
      rcases ht with rfl | ht
      · exact .single hedge
      · exact .head hedge (hold ht)
    rcases hs with rfl | hs
    · exact hend
    · exact (hold hs).trans hend

theorem Wired.has_of_prim (hm : Wired m) (hsu : Prim m s u) (hut : u = t ∨ Has m u t) :
    Has m s t := by
  rcases hut with rfl | hut
  · exact hsu.has
  · exact hm.closed.trans _ _ _ hsu.has hut

/-- The first function of a way is an old one or the new one. -/
theorem Wired.step_addCrc (hm : Wired m) (hcrc : createCrc ls = .ok crc) (h : addCrc m crc = .ok m')
    (hnew : ¬ Has m crc.crcSrcTs crc.crcTarTs) {u' : TySymbol} (hu : Prim m' s u)
    (hu' : Prim m' s u') (hut : u = t ∨ Has m' u t) (hut' : u' = t ∨ Has m' u' t) : u = u' := by
  have hne := (createCrc_ne hcrc).1
  have hprim := prim_addCrc hm.closed hcrc h
  have hno : ∀ {s t}, (s = crc.crcSrcTs ∨ Has m s crc.crcSrcTs) →
      (t = crc.crcTarTs ∨ Has m crc.crcTarTs t) → ¬ Has m s t :=
    fun hs ht => hm.no_way hcrc h hnew hs ht
  have hcycle : ¬ Has m crc.crcTarTs crc.crcSrcTs :=
    (addCrc_spec (Q := fun _ _ _ => True) hm.closed.keyed hne (fun _ _ _ _ => trivial)
      trivial (fun _ _ _ => trivial) (fun _ _ _ => trivial) (fun _ _ _ _ _ _ => trivial) h).1
  have hreach : ∀ {u t}, (u = t ∨ Has m' u t) → (u = t ∨ Has m u t) ∨
      (u = crc.crcSrcTs ∨ Has m u crc.crcSrcTs) ∧ (t = crc.crcTarTs ∨ Has m crc.crcTarTs t) := by
    rintro u t (hut | hut)
    · exact .inl (.inl hut)
    · rcases (addCrc_has hm.closed hne h u t).mp hut with hut | hut
      · exact .inl (.inr hut)
      · exact .inr hut
  -- an old function out of the source of the new one does not meet it again
  have hmeet : ∀ {u t}, Prim m crc.crcSrcTs u → (u = t ∨ Has m' u t) →
      ¬ (crc.crcTarTs = t ∨ Has m' crc.crcTarTs t) := by
    intro u t hu hut htar
    rcases hreach hut with hut | ⟨hu', -⟩
    · rcases hreach htar with htar | ⟨hback, -⟩
      · exact hno (.inl rfl) (htar.imp_left Eq.symm) (hm.has_of_prim hu hut)
      · rcases hback with hback | hback
        · exact hne hback.symm
        · exact hcycle hback
    · exact hm.closed.irrefl _ (hm.has_of_prim hu hu')
  rcases (hprim s u).mp hu with hu | ⟨rfl, rfl⟩
  · rcases (hprim s u').mp hu' with hu' | ⟨rfl, rfl⟩
    · rcases hreach hut with hut | ⟨hua, ht⟩
      · rcases hreach hut' with hut' | ⟨hua', ht⟩
        · exact hm.step s u u' t hu hu' hut hut'
        · exact absurd (hm.has_of_prim hu hut) (hno (.inr (hm.has_of_prim hu' hua')) ht)
      · rcases hreach hut' with hut' | ⟨hua', -⟩
        · exact absurd (hm.has_of_prim hu' hut') (hno (.inr (hm.has_of_prim hu hua)) ht)
        · exact hm.step s u u' crc.crcSrcTs hu hu' hua hua'
    · exact absurd hut' (hmeet hu hut)
  · rcases (hprim _ u').mp hu' with hu' | ⟨-, rfl⟩
    · exact absurd hut (hmeet hu' hut')
    · rfl

/-- A new function joins the entries into its source with those out of its target. -/
theorem Wired.addCrc_new (hm : Wired m) (hcrc : createCrc ls = .ok crc)
    (h : addCrc m crc = .ok m') (hnew : ¬ Has m crc.crcSrcTs crc.crcTarTs) : Wired m' := by
  have hne := (createCrc_ne hcrc).1
  have hleaf := createCrc_leaf hcrc
  obtain ⟨hkept, hj⟩ := addCrc_kinds hm.closed h
  have hprim := prim_addCrc hm.closed hcrc h
  constructor
  · exact closed_addCrc hm.closed hne h
  · intro s t c l hc hk
    rcases addCrc_entries hm.closed hne h hc with hc | ⟨-, -, rfl⟩ | ⟨c₁, c₂, rfl, -, -⟩
    · exact hm.created _ _ _ _ hc hk
    · rw [hleaf] at hk
      cases hk
      exact hcrc
    · cases hk
  · exact fun s t => hm.path_addCrc hcrc h
  · exact fun s u u' t => hm.step_addCrc hcrc h hnew
  · rintro s t k₁ k₂ ⟨c, hc, hk⟩
    rcases addCrc_entries hm.closed hne h hc with hc | ⟨-, -, rfl⟩ | ⟨c₁, c₂, rfl, h₁, h₂⟩
    · obtain ⟨x, y, hx, hy, hxy⟩ := hm.joined _ _ _ _ ⟨c, hc, hk⟩
      exact ⟨x, y, hx.kept hkept, hy.kept hkept, hxy.imp_right fun h => (hprim x y).mpr (.inl h)⟩
    · rw [hleaf] at hk
      cases hk
    · cases hk
      rcases h₁ with ⟨rfl, rfl⟩ | h₁
      · rcases h₂ with ⟨rfl, rfl⟩ | h₂
        · have := KindAt.unique ⟨_, hc, rfl⟩ hj.new
          rw [hleaf] at this
          cases this
        · exact ⟨_, _, hj.new, ⟨c₂, hkept _ _ _ h₂, rfl⟩, .inl rfl⟩
      · rcases h₂ with ⟨rfl, rfl⟩ | h₂
        · exact ⟨_, _, ⟨c₁, hkept _ _ _ h₁, rfl⟩, hj.new, .inl rfl⟩
        · exact ⟨_, _, ⟨c₁, hkept _ _ _ h₁, rfl⟩, ⟨c₂, hkept _ _ _ h₂, rfl⟩,
            .inr ((hprim _ _).mpr (.inr ⟨rfl, rfl⟩))⟩

theorem wired_addCrc (hm : Wired m) (hcrc : createCrc ls = .ok crc) (h : addCrc m crc = .ok m') :
    Wired m' := by
  by_cases hhas : Has m crc.crcSrcTs crc.crcTarTs
  · obtain rfl := addCrc_same hm.closed hhas h
    exact hm
  · exact hm.addCrc_new hcrc h hhas

end Function

/-! ## Adding a function again, or from another map -/

/-- The pair is on a chain of three pairs. -/
def InChain (P : TySymbol → TySymbol → Prop) (a b : TySymbol) : Prop :=
  (∃ s t, P s a ∧ P b t) ∨ (∃ r s, P r s ∧ P s a) ∨ ∃ t u, P b t ∧ P t u

/-- The composition puts together what comes before the pair from `a` to `b`, the pair, and
what comes after it. -/
def SplitsAt (m : CrcMap) (a b s t : TySymbol) (k : CoercionKind) : Prop :=
  ∃ k₁ k₂, k = .crcComp k₁ k₂ ∧ (s = a ∧ KindAt m a b k₁ ∧ KindAt m b t k₂ ∨
    t = b ∧ KindAt m s a k₁ ∧ KindAt m a b k₂ ∨ KindAt m s a k₁ ∧ KindAt m b t k₂)

theorem SplitsAt.kept {m' : CrcMap} {a b : TySymbol} (h : SplitsAt m a b s t k) (hkept : Kept m m') :
    SplitsAt m' a b s t k := by
  obtain ⟨k₁, k₂, rfl, h⟩ := h
  refine ⟨k₁, k₂, rfl, ?_⟩
  rcases h with ⟨rfl, h₁, h₂⟩ | ⟨rfl, h₁, h₂⟩ | ⟨h₁, h₂⟩
  · exact .inl ⟨rfl, h₁.kept hkept, h₂.kept hkept⟩
  · exact .inr (.inl ⟨rfl, h₁.kept hkept, h₂.kept hkept⟩)
  · exact .inr (.inr ⟨h₁.kept hkept, h₂.kept hkept⟩)

/-- A function of the map can be added again exactly if every entry around it splits there. -/
theorem Wired.addCrc_again_iff (hm : Wired m) (hcrc : createCrc ls = .ok crc)
    (hleaf : Leaf m crc.crcSrcTs crc.crcTarTs ls) : addCrc m crc = .ok m ↔
      ∀ s t, (s = crc.crcSrcTs ∨ Has m s crc.crcSrcTs) → (t = crc.crcTarTs ∨ Has m crc.crcTarTs t) →
        (s = crc.crcSrcTs ∧ t = crc.crcTarTs) ∨
          ∃ k, KindAt m s t k ∧ SplitsAt m crc.crcSrcTs crc.crcTarTs s t k := by
  have hkind := createCrc_leaf hcrc
  have hself : KindAt m crc.crcSrcTs crc.crcTarTs crc.crcKind := hkind ▸ hleaf
  constructor
  · intro h s t hs ht
    obtain ⟨-, hj⟩ := addCrc_kinds hm.closed h
    rcases hs with rfl | hs
    · rcases ht with rfl | ht
      · exact .inl ⟨rfl, rfl⟩
      · obtain ⟨c₂, hc₂⟩ := has_iff.mp ht
        exact .inr ⟨_, hj.right t c₂ hc₂, _, _, rfl, .inl ⟨rfl, hself, c₂, hc₂, rfl⟩⟩
    · obtain ⟨c₁, hc₁⟩ := has_iff.mp hs
      rcases ht with rfl | ht
      · exact .inr ⟨_, hj.left s c₁ hc₁, _, _, rfl, .inr (.inl ⟨rfl, ⟨c₁, hc₁, rfl⟩, hself⟩)⟩
      · obtain ⟨c₂, hc₂⟩ := has_iff.mp ht
        exact .inr ⟨_, hj.both s t c₁ c₂ hc₁ hc₂, _, _, rfl,
          .inr (.inr ⟨⟨c₁, hc₁, rfl⟩, c₂, hc₂, rfl⟩)⟩
  · intro h
    have hK : ∀ {s t k}, KindAt m s t k → (get m s t).map Coercion.crcKind = some k := by
      rintro s t k ⟨c, hc, rfl⟩
      rw [hc]
      rfl
    -- the entry is the composition, whichever way it splits
    have hsplit : ∀ {s t k₁ k₂}, (s = crc.crcSrcTs ∧ k₁ = crc.crcKind ∨ KindAt m s crc.crcSrcTs k₁) →
        (t = crc.crcTarTs ∧ k₂ = crc.crcKind ∨ KindAt m crc.crcTarTs t k₂) →
        ¬ (s = crc.crcSrcTs ∧ t = crc.crcTarTs) →
        (get m s t).map Coercion.crcKind = some (.crcComp k₁ k₂) := by
      intro s t k₁ k₂ hs ht hne
      obtain ⟨k, hk, k₁', k₂', rfl, hor⟩ := (h s t (hs.imp And.left KindAt.has)
        (ht.imp And.left KindAt.has)).resolve_left hne
      have hirr : ∀ {x k}, ¬ KindAt m x x k := fun hx => hm.closed.irrefl _ hx.has
      have heq : k₁ = k₁' ∧ k₂ = k₂' := by
        rcases hor with ⟨rfl, h₁, h₂⟩ | ⟨rfl, h₁, h₂⟩ | ⟨h₁, h₂⟩
        · refine ⟨?_, (ht.resolve_left fun ht => hne ⟨rfl, ht.1⟩).unique h₂⟩
          exact (hs.resolve_right hirr).2.trans (hself.unique h₁)
        · refine ⟨(hs.resolve_left fun hs => hne ⟨hs.1, rfl⟩).unique h₁, ?_⟩
          exact (ht.resolve_right hirr).2.trans (hself.unique h₂)
        · refine ⟨(hs.resolve_left ?_).unique h₁, (ht.resolve_left ?_).unique h₂⟩
          · rintro ⟨rfl, -⟩
            exact hirr h₁
          · rintro ⟨rfl, -⟩
            exact hirr h₂
      rw [heq.1, heq.2]
      exact hK hk
    have htotal : ∃ m', addCrc m crc = .ok m' := by
      refine addCrc_total (K := fun s t => (get m s t).map Coercion.crcKind) hm.closed
        (createCrc_ne hcrc).1 ?_ (fun s t c h => by rw [h]; rfl) ?_
      · intro s t k hk
        obtain ⟨c, hc, -⟩ := Option.map_eq_some_iff.mp hk
        have hno := hm.asymm (has_of_get hc)
        rw [Has, Bool.not_eq_true, Option.isSome_eq_false_iff, Option.isNone_iff_eq_none] at hno
        rw [hno]
        rfl
      · refine ⟨hK hself, fun t c₂ hc₂ => ?_, fun s c₁ hc₁ => ?_, fun s t c₁ c₂ hc₁ hc₂ => ?_⟩
        · refine hsplit (.inl ⟨rfl, rfl⟩) (.inr ⟨c₂, hc₂, rfl⟩) fun h => ?_
          exact hm.ne (has_of_get hc₂) h.2.symm
        · exact hsplit (.inr ⟨c₁, hc₁, rfl⟩) (.inl ⟨rfl, rfl⟩) fun h => hm.ne (has_of_get hc₁) h.1
        · refine hsplit (.inr ⟨c₁, hc₁, rfl⟩) (.inr ⟨c₂, hc₂, rfl⟩) fun h => ?_
          exact hm.ne (has_of_get hc₁) h.1
    obtain ⟨m', hm'⟩ := htotal
    rw [hm', addCrc_same hm.closed hself.has hm']

/-- Two functions one after the other split at both. -/
theorem Wired.splitsAt_two (hm : Wired m) (h₁ : Prim m s u) (h₂ : Prim m u t) :
    ∃ k, KindAt m s t k ∧ SplitsAt m s u s t k ∧ SplitsAt m u t s t k := by
  obtain ⟨l₁, hl₁⟩ := h₁
  obtain ⟨l₂, hl₂⟩ := h₂
  obtain ⟨c, hc⟩ := has_iff.mp (hm.closed.trans _ _ _ (KindAt.has hl₁) (KindAt.has hl₂))
  have hk : KindAt m s t c.crcKind := ⟨c, hc, rfl⟩
  have heq := hm.kind_two hl₁ hl₂ hk
  exact ⟨_, hk, ⟨_, _, heq, .inl ⟨rfl, hl₁, hl₂⟩⟩, _, _, heq, .inr (.inl ⟨rfl, hl₁, hl₂⟩)⟩

/-- A function on no chain of three can be added again. -/
theorem Wired.addCrc_again (hm : Wired m)
    (hcrc : createCrc ls = .ok crc) (hleaf : Leaf m crc.crcSrcTs crc.crcTarTs ls)
    (hchain : ¬ InChain (Prim m) crc.crcSrcTs crc.crcTarTs) : addCrc m crc = .ok m := by
  have hprim : Prim m crc.crcSrcTs crc.crcTarTs := ⟨ls, hleaf⟩
  -- what enters the source and what leaves the target is a function
  have hin : ∀ s, Has m s crc.crcSrcTs → Prim m s crc.crcSrcTs := by
    intro s hs
    rcases TransGen.tail'_iff.mp (hm.path s _ hs) with ⟨u, hsu, hu⟩
    rcases ReflTransGen.cases_tail hsu with rfl | ⟨r, -, hr⟩
    · exact hu
    · exact absurd (.inr (.inl ⟨r, u, hr, hu⟩)) hchain
  have hout : ∀ t, Has m crc.crcTarTs t → Prim m crc.crcTarTs t := by
    intro t ht
    obtain ⟨u, hu, hut⟩ := hm.first ht
    rcases hut with rfl | hut
    · exact hu
    · obtain ⟨v, hv, -⟩ := hm.first hut
      exact absurd (.inr (.inr ⟨u, v, hu, hv⟩)) hchain
  refine (hm.addCrc_again_iff hcrc hleaf).mpr fun s t hs ht => ?_
  rcases hs with rfl | hs
  · rcases ht with rfl | ht
    · exact .inl ⟨rfl, rfl⟩
    · obtain ⟨k, hk, hsplit, -⟩ := hm.splitsAt_two hprim (hout t ht)
      exact .inr ⟨k, hk, hsplit⟩
  · rcases ht with rfl | ht
    · obtain ⟨k, hk, -, hsplit⟩ := hm.splitsAt_two (hin s hs) hprim
      exact .inr ⟨k, hk, hsplit⟩
    · exact absurd (.inl ⟨s, t, hin s hs, hout t ht⟩) hchain

/-- Every function of `n` is one of `m`. -/
def Within (n m : CrcMap) : Prop := ∀ s t ls, Leaf n s t ls → Leaf m s t ls

theorem Within.prim {n : CrcMap} (h : Within n m) (hst : Prim n s t) : Prim m s t := by
  obtain ⟨ls, hls⟩ := hst
  exact ⟨ls, h _ _ _ hls⟩

theorem Wired.has_sub {n : CrcMap} (hn : Wired n) (hm : Wired m) (hsub : Within n m)
    (h : Has n s t) : Has m s t := by
  apply hm.closed.has_of_path
  exact TransGen.mono (fun x y hxy => hsub.prim hxy) s t (hn.path s t h)

section Import

variable {n m : CrcMap} {ls : LSymbol} {crc : Coercion}

/-- A function of `m` that `n` lacks gives no pair of `n` a second way. -/
theorem Wired.no_way_sub (hn : Wired n) (hm : Wired m) (hsub : Within n m)
    (hprim : Prim m crc.crcSrcTs crc.crcTarTs) (hnew : ¬ Has n crc.crcSrcTs crc.crcTarTs)
    (hs : s = crc.crcSrcTs ∨ Has n s crc.crcSrcTs) (ht : t = crc.crcTarTs ∨ Has n crc.crcTarTs t) :
    ¬ Has n s t := by
  have hsub' : ∀ {x y}, Has n x y → Has m x y := fun h => hn.has_sub hm hsub h
  have htm : crc.crcTarTs = t ∨ Has m crc.crcTarTs t := ht.imp Eq.symm hsub'
  have hstart : ∀ {u}, (u = crc.crcSrcTs ∨ Has m u crc.crcSrcTs) → Has m u t := by
    rintro u (rfl | hu)
    · exact hm.has_of_prim hprim htm
    · exact hm.closed.trans _ _ _ hu (hm.has_of_prim hprim htm)
  -- from the source, the first function would be the new one
  have hsource : ¬ Has n crc.crcSrcTs t := by
    intro hst
    obtain ⟨u, hu, hut⟩ := hn.first hst
    have := hm.step _ _ _ _ (hsub.prim hu) hprim (hut.imp_right hsub') htm
    rw [this] at hu
    exact hnew hu.has
  rcases hs with rfl | hs
  · exact hsource
  · have hgen := hn.path _ _ hs
    clear hs
    -- along the way to the source, both ways begin with the same functions
    induction hgen using TransGen.head_induction_on with
    | single hsa =>
      intro hst
      obtain ⟨u, hu, hut⟩ := hn.first hst
      have := hm.step _ _ _ _ (hsub.prim hu) (hsub.prim hsa) (hut.imp_right hsub')
        (.inr (hstart (.inl rfl)))
      subst this
      rcases hut with rfl | hut
      · exact hm.closed.irrefl _ (hstart (.inl rfl))
      · exact hsource hut
    | @head s v hsv hva ih =>
      intro hst
      have hvm : Has m v t := by
        exact hstart (.inr (hsub' (hn.closed.has_of_path hva)))
      obtain ⟨u, hu, hut⟩ := hn.first hst
      have := hm.step _ _ _ _ (hsub.prim hu) (hsub.prim hsv) (hut.imp_right hsub') (.inr hvm)
      subst this
      rcases hut with rfl | hut
      · exact hm.closed.irrefl _ hvm
      · exact ih hut

/-- The kinds after the addition of a new function. -/
def joinedKind (n : CrcMap) (crc : Coercion) (s t : TySymbol) : Option CoercionKind :=
  match get n s t with
  | some c => some c.crcKind
  | none =>
    let c₁ := if s = crc.crcSrcTs then some none else (get n s crc.crcSrcTs).map some
    let c₂ := if t = crc.crcTarTs then some none else (get n crc.crcTarTs t).map some
    match c₁, c₂ with
    | some none, some none => some crc.crcKind
    | some none, some (some c₂) => some (compose crc c₂).crcKind
    | some (some c₁), some none => some (compose c₁ crc).crcKind
    | some (some c₁), some (some c₂) => some (compose c₁ c₂).crcKind
    | _, _ => none

theorem joinedKind_extend (h : joinedKind n crc s t = some k) :
    OrderExtension.extend (Has n) crc.crcSrcTs crc.crcTarTs s t := by
  rw [joinedKind] at h
  split at h
  · next c hc => exact .inl (has_of_get hc)
  · right
    have hs : ∀ x, (if s = crc.crcSrcTs then some none else (get n s crc.crcSrcTs).map some) = some x →
        s = crc.crcSrcTs ∨ Has n s crc.crcSrcTs := by
      intro x hx
      split_ifs at hx with hs
      · exact .inl hs
      · obtain ⟨c, hc, -⟩ := Option.map_eq_some_iff.mp hx
        exact .inr (has_of_get hc)
    have ht : ∀ x, (if t = crc.crcTarTs then some none else (get n crc.crcTarTs t).map some) = some x →
        t = crc.crcTarTs ∨ Has n crc.crcTarTs t := by
      intro x hx
      split_ifs at hx with ht
      · exact .inl ht
      · obtain ⟨c, hc, -⟩ := Option.map_eq_some_iff.mp hx
        exact .inr (has_of_get hc)
    dsimp only at h
    split at h
    · next h₁ h₂ => exact ⟨hs _ h₁, ht _ h₂⟩
    · next h₁ h₂ => exact ⟨hs _ h₁, ht _ h₂⟩
    · next h₁ h₂ => exact ⟨hs _ h₁, ht _ h₂⟩
    · next h₁ h₂ => exact ⟨hs _ h₁, ht _ h₂⟩
    · cases h

/-- A function of `m` that `n` lacks can be added to `n`. -/
theorem Wired.addCrc_sub (hn : Wired n) (hm : Wired m) (hsub : Within n m)
    (hcrc : createCrc ls = .ok crc) (hprim : Prim m crc.crcSrcTs crc.crcTarTs)
    (hnew : ¬ Has n crc.crcSrcTs crc.crcTarTs) : ∃ n', addCrc n crc = .ok n' := by
  have hne := (createCrc_ne hcrc).1
  have hcycle : ¬ Has n crc.crcTarTs crc.crcSrcTs :=
    fun h => hm.asymm hprim.has (hn.has_sub hm hsub h)
  have hno : ∀ {s t}, (s = crc.crcSrcTs ∨ Has n s crc.crcSrcTs) →
      (t = crc.crcTarTs ∨ Has n crc.crcTarTs t) → get n s t = none := by
    intro s t hs ht
    have := hn.no_way_sub hm hsub hprim hnew hs ht
    rwa [Has, Bool.not_eq_true, Option.isSome_eq_false_iff, Option.isNone_iff_eq_none] at this
  have hsrc : ∀ {s c}, get n s crc.crcSrcTs = some c → s ≠ crc.crcSrcTs :=
    fun h => hn.ne (has_of_get h)
  have htar : ∀ {t c}, get n crc.crcTarTs t = some c → t ≠ crc.crcTarTs :=
    fun h => (hn.ne (has_of_get h)).symm
  refine addCrc_total (K := joinedKind n crc) hn.closed hne ?_
    (fun s t c h => by rw [joinedKind, h]) ?_
  · intro s t k hk
    cases hback : joinedKind n crc t s with
    | none => rfl
    | some k' =>
      have hloop := OrderExtension.extend_trans hn.closed.trans hne hcycle (joinedKind_extend hk)
        (joinedKind_extend hback)
      exact absurd hloop
        (OrderExtension.extend_irrefl hn.closed.trans hn.closed.irrefl hne hcycle s)
  · constructor
    · rw [joinedKind, hno (.inl rfl) (.inl rfl)]
      simp
    · intro t c₂ hc₂
      rw [joinedKind, hno (.inl rfl) (.inr (has_of_get hc₂))]
      simp [hc₂, htar hc₂]
    · intro s c₁ hc₁
      rw [joinedKind, hno (.inr (has_of_get hc₁)) (.inl rfl)]
      simp [hc₁, hsrc hc₁]
    · intro s t c₁ c₂ hc₁ hc₂
      rw [joinedKind, hno (.inr (has_of_get hc₁)) (.inr (has_of_get hc₂))]
      simp [hc₁, hc₂, hsrc hc₁, htar hc₂]

end Import

/-! ## Unions -/

theorem mem_leaves_iff (hm : Closed m) :
    c ∈ leaves m ↔ get m c.crcSrcTs c.crcTarTs = some c ∧ ∃ ls, c.crcKind = .crcLeaf ls := by
  constructor
  · intro h
    refine ⟨(mem_leaves hm h).1, ?_⟩
    rw [leaves, mem_flatMap] at h
    obtain ⟨e, -, hc⟩ := h
    obtain ⟨-, hc⟩ := mem_filter.mp hc
    split at hc
    · next ls hk => exact ⟨ls, hk⟩
    · cases hc
  · rintro ⟨hc, ls, hk⟩
    rw [get, Option.bind_eq_some_iff] at hc
    obtain ⟨row, hrow, hc⟩ := hc
    rw [leaves, mem_flatMap]
    refine ⟨_, TagMap.find?_eq_some_iff.mp hrow, mem_filter.mpr ⟨?_, ?_⟩⟩
    · exact mem_map.mpr ⟨_, TagMap.find?_eq_some_iff.mp hc, rfl⟩
    · rw [hk]

theorem nodup_leaves (hm : Closed m) :
    (leaves m).Pairwise fun c d => c.crcSrcTs ≠ d.crcSrcTs ∨ c.crcTarTs ≠ d.crcTarTs := by
  have hkey : ∀ e ∈ m.entries, ∀ d ∈ e.2.entries,
      d.2.crcSrcTs = e.1 ∧ d.2.crcTarTs = d.1 := by
    intro e he d hd
    apply hm.keyed
    rw [get_of_mem he]
    exact TagMap.find?_eq_some_iff.mpr hd
  rw [leaves, pairwise_flatMap]
  constructor
  · intro e he
    apply List.Pairwise.filter
    rw [pairwise_map]
    refine (pairwise_map.mp e.2.nodup).imp_of_mem fun hc hd hne => .inr ?_
    rw [(hkey e he _ hc).2, (hkey e he _ hd).2]
    exact hne
  · refine (pairwise_map.mp m.nodup).imp_of_mem fun he he' hne c hc d hd => .inl ?_
    obtain ⟨x, hx, rfl⟩ := mem_map.mp (mem_filter.mp hc).1
    obtain ⟨y, hy, rfl⟩ := mem_map.mp (mem_filter.mp hd).1
    rw [(hkey _ he _ hx).1, (hkey _ he' _ hy).1]
    exact hne

theorem Wired.mem_leaves (hm : Wired m) (h : c ∈ leaves m) :
    ∃ ls, createCrc ls = .ok c ∧ Leaf m c.crcSrcTs c.crcTarTs ls := by
  obtain ⟨hc, ls, hk⟩ := (mem_leaves_iff hm.closed).mp h
  exact ⟨ls, hm.created _ _ _ _ hc hk, ⟨c, hc, hk⟩⟩

theorem Wired.leaf_mem (hm : Wired m) (h : Leaf m s t ls) :
    ∃ c ∈ leaves m, createCrc ls = .ok c ∧ c.crcSrcTs = s ∧ c.crcTarTs = t := by
  obtain ⟨c, hc, hk⟩ := h
  obtain ⟨rfl, rfl⟩ := hm.closed.keyed _ _ _ hc
  exact ⟨c, (mem_leaves_iff hm.closed).mpr ⟨hc, ls, hk⟩, hm.created _ _ _ _ hc hk, rfl, rfl⟩

/-- A successful union has the functions of both maps. -/
theorem wired_union (h₁ : Wired m₁) (h₂ : Wired m₂) (h : union m₁ m₂ = .ok m) :
    Wired m ∧ ∀ s t ls, Leaf m s t ls ↔ Leaf m₁ s t ls ∨ Leaf m₂ s t ls := by
  rw [union_eq] at h
  obtain ⟨hm, hleaf⟩ := foldlM_collect_inv (I := Wired)
    (H := fun (b : CrcMap) (p : TySymbol × TySymbol × LSymbol) => Leaf b p.1 p.2.1 p.2.2)
    (S := fun (c : Coercion) p =>
      p.1 = c.crcSrcTs ∧ p.2.1 = c.crcTarTs ∧ createCrc p.2.2 = .ok c) (by
    intro c hc b b' hstep hb
    obtain ⟨ls, hcrc, -⟩ := h₂.mem_leaves hc
    refine ⟨wired_addCrc hb hcrc hstep, fun p => ?_⟩
    rw [leaf_addCrc hb.closed hcrc hstep]
    refine or_congr_right (and_congr_right fun _ => and_congr_right fun _ => ⟨?_, fun hp => ?_⟩)
    · rintro rfl
      exact hcrc
    · have := (createCrc_leaf hp).symm.trans (createCrc_leaf hcrc)
      cases this
      rfl) h h₁
  refine ⟨hm, fun s t ls => (hleaf (s, t, ls)).trans (or_congr_right ⟨?_, fun hl => ?_⟩)⟩
  · rintro ⟨c, hc, rfl, rfl, hcrc⟩
    obtain ⟨ls', hcrc', hl⟩ := h₂.mem_leaves hc
    have := (createCrc_leaf hcrc).symm.trans (createCrc_leaf hcrc')
    cases this
    exact hl
  · obtain ⟨c, hc, hcrc, rfl, rfl⟩ := h₂.leaf_mem hl
    exact ⟨c, hc, rfl, rfl, hcrc⟩

theorem wired_empty : Wired empty where
  closed := closed_empty
  created _ _ _ _ h := by cases h
  path _ _ h := by cases h
  step _ _ _ _ := by
    rintro ⟨_, _, h, _⟩
    cases h
  joined _ _ _ _ := by
    rintro ⟨_, h, _⟩
    cases h

theorem Built.wired (h : Built m) : Wired m := by
  induction h with
  | empty => exact wired_empty
  | @add m m' ls _ h ih =>
    obtain ⟨crc, hcrc, h⟩ := Checks.bind_eq_ok.mp h
    exact wired_addCrc ih hcrc h
  | union _ _ h ih₁ ih₂ => exact (wired_union ih₁ ih₂ h).1

/-! ## Importing again -/

/-- Importing a map twice is importing it once. -/
structure Idempotent (m : CrcMap) : Prop where
  union_self : union m m = .ok m
  add_again : ∀ s t ls, Leaf m s t ls → add m ls = .ok m

/-- If an import succeeds, it succeeds in the other order as well, with the same pairs. -/
def Commutes (m₁ m₂ : CrcMap) : Prop :=
  ∀ m, union m₁ m₂ = .ok m →
    ∃ m', union m₂ m₁ = .ok m' ∧ ∀ s t, Has m' s t ↔ Has m s t

/-- The functions of `m` and those of the list. -/
def Links (m : CrcMap) (l : List Coercion) (s t : TySymbol) : Prop :=
  Prim m s t ∨ ∃ c ∈ l, c.crcSrcTs = s ∧ c.crcTarTs = t

/-- Every pair that the functions of `m` and those of the list connect through `f` is `f` with
at most one more function, or its entry in `m` splits at `f`. -/
def AgreeAt (m : CrcMap) (l : List Coercion) (f : Coercion) : Prop :=
  ∀ s t, ReflTransGen (Links m l) s f.crcSrcTs → ReflTransGen (Links m l) f.crcTarTs t →
    (s = f.crcSrcTs ∧ t = f.crcTarTs) ∨ (s = f.crcSrcTs ∧ Links m l f.crcTarTs t) ∨
    (t = f.crcTarTs ∧ Links m l s f.crcSrcTs) ∨
    ∃ k, KindAt m s t k ∧ SplitsAt m f.crcSrcTs f.crcTarTs s t k

/-- Each function that both maps have, when it comes after others of `m₁`. -/
def Agree (m₁ m₂ : CrcMap) : Prop :=
  ∀ l₁ f l₂, leaves m₁ = l₁ ++ f :: l₂ → f ∈ leaves m₂ → AgreeAt m₂ l₁ f

theorem Wired.idempotent (hm : Wired m)
    (h : ∀ s t, Prim m s t → ¬ InChain (Prim m) s t) : Idempotent m := by
  have hagain : ∀ {ls c}, createCrc ls = .ok c → Leaf m c.crcSrcTs c.crcTarTs ls →
      addCrc m c = .ok m :=
    fun hcrc hleaf => hm.addCrc_again hcrc hleaf (h _ _ ⟨_, hleaf⟩)
  constructor
  · rw [union_eq]
    obtain ⟨m', hm', rfl⟩ := foldlM_total (f := addCrc) (l := leaves m)
      (I := fun b => b = m) rfl (by
        rintro c hc b rfl
        obtain ⟨ls, hcrc, hleaf⟩ := hm.mem_leaves hc
        exact ⟨b, hagain hcrc hleaf, rfl⟩)
    exact hm'
  · intro s t ls hleaf
    obtain ⟨c, -, hcrc, rfl, rfl⟩ := hm.leaf_mem hleaf
    rw [add, hcrc]
    exact hagain hcrc hleaf

/-- Three functions in a row: the middle one asks for an entry without it, and the
first one for an entry with all three. -/
theorem Wired.not_idempotent (hm : Wired m) {a b : TySymbol} (hsa : Prim m s a)
    (hab : Prim m a b) (hbt : Prim m b t) : ¬ Idempotent m := by
  intro hid
  have hjoins : ∀ {x y ls}, Leaf m x y ls → ∃ c, get m x y = some c ∧ c.crcSrcTs = x ∧
      c.crcTarTs = y ∧ c.crcKind = .crcLeaf ls ∧ Joins m c (KindAt m) := by
    rintro x y ls ⟨c, hc, hk⟩
    obtain ⟨hx, hy⟩ := hm.closed.keyed _ _ _ hc
    have hadd := hid.add_again x y ls ⟨c, hc, hk⟩
    rw [add, hm.created _ _ _ _ hc hk] at hadd
    exact ⟨c, hc, hx, hy, hk, (addCrc_kinds hm.closed hadd).2⟩
  obtain ⟨l₁, hl₁⟩ := hsa
  obtain ⟨l₂, hl₂⟩ := hab
  obtain ⟨l₃, hl₃⟩ := hbt
  obtain ⟨c₁, hc₁, rfl, rfl, hk₁, hj₁⟩ := hjoins hl₁
  obtain ⟨c₂, hc₂, hsrc, rfl, hk₂, hj₂⟩ := hjoins hl₂
  obtain ⟨c₃, hc₃, -, -, hk₃, -⟩ := hjoins hl₃
  rw [← hsrc] at hc₁
  have haround := hj₂.both _ _ _ _ hc₁ hc₃
  obtain ⟨d, hd, hdk⟩ := hj₂.right _ _ hc₃
  rw [hsrc] at hd
  have hall := hj₁.right _ _ hd
  have heq := haround.unique hall
  rw [compose, compose, hdk, compose, hk₃] at heq
  cases heq

theorem Wired.idempotent_iff (hm : Wired m) :
    Idempotent m ↔ ∀ s t, Prim m s t → ¬ InChain (Prim m) s t := by
  constructor
  · rintro hid a b hab (⟨s, t, hsa, hbt⟩ | ⟨r, s, hrs, hsa⟩ | ⟨t, u, hbt, htu⟩)
    · exact hm.not_idempotent hsa hab hbt hid
    · exact hm.not_idempotent hrs hsa hab hid
    · exact hm.not_idempotent hab hbt htu hid
  · exact hm.idempotent

/-- What stands in `n`, which `m₂` has become by the addition of functions: the entries of
`m₂`, and for the other pairs compositions that split at a function that is not in `m₂`. -/
structure Importing (m₂ n : CrcMap) (done : List Coercion) : Prop where
  wired : Wired n
  kept : Kept m₂ n
  leaf : ∀ s t ls, Leaf n s t ls ↔ Leaf m₂ s t ls ∨
    ∃ c ∈ done, createCrc ls = .ok c ∧ c.crcSrcTs = s ∧ c.crcTarTs = t
  new : ∀ s t k, KindAt n s t k → Has m₂ s t ∨ ∃ x y, Prim n x y ∧ ¬ Prim m₂ x y ∧
    (s = x ∧ t = y ∨ SplitsAt n x y s t k)

section Importing

variable {n : CrcMap} {done l₁ l₂ : List Coercion}

theorem Importing.add (h : Importing m₂ n done) (hcrc : createCrc ls = .ok crc) {n' : CrcMap}
    (hadd : addCrc n crc = .ok n')
    (hnew : Has n crc.crcSrcTs crc.crcTarTs ∨ ¬ Prim m₂ crc.crcSrcTs crc.crcTarTs) :
    Importing m₂ n' (done ++ [crc]) := by
  have hclosed := h.wired.closed
  obtain ⟨hkept, hj⟩ := addCrc_kinds hclosed hadd
  have hprim := prim_addCrc hclosed hcrc hadd
  refine ⟨wired_addCrc h.wired hcrc hadd, h.kept.trans hkept, fun s t l => ?_, fun s t k hk => ?_⟩
  · rw [leaf_addCrc hclosed hcrc hadd, h.leaf, or_assoc]
    apply or_congr_right
    constructor
    · rintro (⟨d, hd, h⟩ | ⟨rfl, rfl, rfl⟩)
      · exact ⟨d, mem_append_left _ hd, h⟩
      · exact ⟨crc, by simp, hcrc, rfl, rfl⟩
    · rintro ⟨d, hd, hdcrc, rfl, rfl⟩
      rcases mem_append.mp hd with hd | hd
      · exact .inl ⟨d, hd, hdcrc, rfl, rfl⟩
      · obtain rfl := mem_singleton.mp hd
        have := (createCrc_leaf hdcrc).symm.trans (createCrc_leaf hcrc)
        cases this
        exact .inr ⟨rfl, rfl, rfl⟩
  · have hold : ∀ {k}, KindAt n s t k → Has m₂ s t ∨ ∃ x y, Prim n' x y ∧ ¬ Prim m₂ x y ∧
        (s = x ∧ t = y ∨ SplitsAt n' x y s t k) := fun hk =>
      (h.new s t _ hk).imp_right fun ⟨x, y, hxy, hout, hor⟩ =>
        ⟨x, y, (hprim x y).mpr (.inl hxy), hout, hor.imp_right fun hs => hs.kept hkept⟩
    rcases hnew with hhas | hnew
    · obtain rfl := addCrc_same hclosed hhas hadd
      exact hold hk
    · obtain ⟨c, hc, rfl⟩ := hk
      have hcrc' : Prim n' crc.crcSrcTs crc.crcTarTs := (hprim _ _).mpr (.inr ⟨rfl, rfl⟩)
      rcases addCrc_entries hclosed (createCrc_ne hcrc).1 hadd hc with hc | ⟨rfl, rfl, -⟩ |
        ⟨c₁, c₂, rfl, h₁, h₂⟩
      · exact hold ⟨c, hc, rfl⟩
      · exact .inr ⟨_, _, hcrc', hnew, .inl ⟨rfl, rfl⟩⟩
      · refine .inr ⟨_, _, hcrc', hnew, ?_⟩
        have hget : ∀ {s t c}, get n s t = some c → KindAt n' s t c.crcKind :=
          fun hc => ⟨_, hkept _ _ _ hc, rfl⟩
        rcases h₁ with ⟨rfl, rfl⟩ | h₁
        · rcases h₂ with ⟨rfl, -⟩ | h₂
          · exact .inl ⟨rfl, rfl⟩
          · exact .inr ⟨_, _, rfl, .inl ⟨rfl, hj.new, hget h₂⟩⟩
        · rcases h₂ with ⟨rfl, rfl⟩ | h₂
          · exact .inr ⟨_, _, rfl, .inr (.inl ⟨rfl, hget h₁, hj.new⟩)⟩
          · exact .inr ⟨_, _, rfl, .inr (.inr ⟨hget h₁, hget h₂⟩)⟩

/-- An entry that splits at a function of `m₂` is one of `m₂`, or is two functions in a row. -/
theorem Importing.splitsAt (h : Importing m₂ n done) (h₂ : Wired m₂) {a b : TySymbol}
    (hab : Prim m₂ a b) (hk : KindAt n s t k) (hsplit : SplitsAt n a b s t k) :
    (s = a ∧ Prim n b t) ∨ (t = b ∧ Prim n s a) ∨ (KindAt m₂ s t k ∧ SplitsAt m₂ a b s t k) := by
  have hirr : ∀ {x}, ¬ Prim n x x := fun hx => h.wired.closed.irrefl _ hx.has
  have hne : a ≠ b := h₂.ne hab.has
  obtain ⟨k₁, k₂, rfl, hor⟩ := hsplit
  rcases h.new s t _ hk with hhas | ⟨x, y, hxy, hout, hnew⟩
  · right; right
    obtain ⟨c, hc⟩ := has_iff.mp hhas
    have hk₂ : KindAt m₂ s t (.crcComp k₁ k₂) := by
      have hc' : KindAt m₂ s t c.crcKind := ⟨c, hc, rfl⟩
      rwa [(hc'.kept h.kept).unique hk] at hc'
    obtain ⟨x, y, hx, hy, -⟩ := h₂.joined _ _ _ _ hk₂
    have hx' := hx.kept h.kept
    have hy' := hy.kept h.kept
    refine ⟨hk₂, k₁, k₂, rfl, ?_⟩
    rcases hor with ⟨rfl, g₁, g₂⟩ | ⟨rfl, g₁, g₂⟩ | ⟨g₁, g₂⟩ <;>
      obtain ⟨-, rfl⟩ := h.wired.kind_pair hx' g₁ <;> obtain ⟨rfl, -⟩ := h.wired.kind_pair hy' g₂
    · exact .inl ⟨rfl, hx, hy⟩
    · exact .inr (.inl ⟨rfl, hx, hy⟩)
    · exact .inr (.inr ⟨hx, hy⟩)
  · rcases hnew with ⟨rfl, rfl⟩ | ⟨k₁', k₂', heq, hor'⟩
    · obtain ⟨ls, hls⟩ := hxy
      cases KindAt.unique hls hk
    · cases heq
      -- where the entry splits at the new function as well, these are the only two
      rcases hor with ⟨rfl, g₁, g₂⟩ | ⟨rfl, g₁, g₂⟩ | ⟨g₁, g₂⟩ <;>
        rcases hor' with ⟨rfl, g₁', g₂'⟩ | ⟨rfl, g₁', g₂'⟩ | ⟨g₁', g₂'⟩ <;>
        obtain ⟨hs₁, ht₁⟩ := h.wired.kind_pair g₁ g₁' <;>
        obtain ⟨hs₂, ht₂⟩ := h.wired.kind_pair g₂ g₂'
      · exact absurd (ht₁ ▸ hab) hout
      · exact .inl ⟨rfl, ht₁ ▸ hxy⟩
      · exact absurd (ht₁.symm.trans hs₂ ▸ hxy) hirr
      · exact .inr (.inl ⟨rfl, ht₁ ▸ hxy⟩)
      · exact absurd (hs₂ ▸ hab) hout
      · exact absurd (hs₂ ▸ ht₁ ▸ hxy) hirr
      · exact absurd (ht₁.trans hs₂.symm) hne
      · exact absurd (ht₁.trans hs₂.symm) hne
      · exact absurd (ht₁ ▸ hs₂ ▸ hab) hout

theorem Importing.links (h : Importing m₂ n done) (hdone : ∀ c ∈ done, ∃ ls, createCrc ls = .ok c) :
    Prim n = Links m₂ done := by
  funext s t
  refine propext ⟨?_, ?_⟩
  · rintro ⟨ls, hls⟩
    rcases (h.leaf s t ls).mp hls with hls | ⟨c, hc, -, rfl, rfl⟩
    · exact .inl ⟨ls, hls⟩
    · exact .inr ⟨c, hc, rfl, rfl⟩
  · rintro (⟨ls, hls⟩ | ⟨c, hc, rfl, rfl⟩)
    · exact ⟨ls, (h.leaf s t ls).mpr (.inl hls)⟩
    · obtain ⟨ls, hls⟩ := hdone c hc
      exact ⟨ls, (h.leaf _ _ ls).mpr (.inr ⟨c, hc, hls, rfl, rfl⟩)⟩

/-- A function of `m₂` is added again. -/
theorem Importing.agreeAt (h : Importing m₂ n done) (h₂ : Wired m₂)
    (hdone : ∀ c ∈ done, ∃ ls, createCrc ls = .ok c) (hc : c ∈ leaves m₂) :
    addCrc n c = .ok n ↔ AgreeAt m₂ done c := by
  obtain ⟨ls, hcrc, hleaf⟩ := h₂.mem_leaves hc
  have hn := h.wired
  have hprim := h.links hdone
  have hreach : ∀ {s t}, ReflTransGen (Prim n) s t ↔ t = s ∨ Has n s t := by
    intro s t
    rw [reflTransGen_iff_eq_or_transGen]
    exact or_congr_right ⟨hn.closed.has_of_path, hn.path s t⟩
  have hab : Prim n c.crcSrcTs c.crcTarTs := ⟨ls, KindAt.kept hleaf h.kept⟩
  rw [hn.addCrc_again_iff hcrc (KindAt.kept hleaf h.kept), AgreeAt]
  simp only [← hprim, hreach]
  refine forall₂_congr fun s t => imp_congr (or_congr_left eq_comm) (imp_congr_right fun _ => ?_)
  refine or_congr_right ⟨?_, ?_⟩
  · rintro ⟨k, hk, hsplit⟩
    rcases h.splitsAt h₂ ⟨ls, hleaf⟩ hk hsplit with h | h | h
    · exact .inl h
    · exact .inr (.inl h)
    · exact .inr (.inr ⟨k, h⟩)
  · rintro (⟨rfl, hbt⟩ | ⟨rfl, hsa⟩ | ⟨k, hk, hsplit⟩)
    · obtain ⟨k, hk, hsplit, -⟩ := hn.splitsAt_two hab hbt
      exact ⟨k, hk, hsplit⟩
    · obtain ⟨k, hk, -, hsplit⟩ := hn.splitsAt_two hsa hab
      exact ⟨k, hk, hsplit⟩
    · exact ⟨k, hk.kept h.kept, hsplit.kept h.kept⟩

/-- The functions of `m₁` that were added are among those of the union. -/
theorem Importing.within (h : Importing m₂ n done) (h₁ : Wired m₁) (hdone : ∀ d ∈ done, d ∈ leaves m₁)
    (hall : ∀ s t ls, Leaf m s t ls ↔ Leaf m₁ s t ls ∨ Leaf m₂ s t ls) : Within n m := by
  intro s t ls hls
  rw [hall]
  rcases (h.leaf s t ls).mp hls with hls | ⟨d, hd, hdcrc, rfl, rfl⟩
  · exact .inr hls
  · obtain ⟨ls', hcrc', hls'⟩ := h₁.mem_leaves (hdone d hd)
    have := (createCrc_leaf hdcrc).symm.trans (createCrc_leaf hcrc')
    cases this
    exact .inl hls'

/-- A function that only `m₁` has is new when its turn comes, since `m₁` has it once. -/
theorem Importing.lacks (h : Importing m₂ n l₁) (h₁ : Wired m₁) (h₂ : Wired m₂) (hm : Wired m)
    (hall : ∀ s t ls, Leaf m s t ls ↔ Leaf m₁ s t ls ∨ Leaf m₂ s t ls)
    (hl : leaves m₁ = l₁ ++ c :: l₂) (hmem : c ∉ leaves m₂) : ¬ Has n c.crcSrcTs c.crcTarTs := by
  have hsub : Within n m := h.within h₁ (fun d hd => hl ▸ mem_append_left _ hd) hall
  obtain ⟨ls, hcrc, hc⟩ := h₁.mem_leaves (hl ▸ mem_append_right l₁ mem_cons_self : c ∈ leaves m₁)
  have hcm : Leaf m c.crcSrcTs c.crcTarTs ls := (hall _ _ _).mpr (.inl hc)
  intro hhas
  obtain ⟨u, hu, hut⟩ := h.wired.first hhas
  obtain rfl := hm.step _ _ _ _ (hsub.prim hu) ⟨ls, hcm⟩
    (hut.imp_right fun h' => h.wired.has_sub hm hsub h') (.inl rfl)
  obtain ⟨ls', hls'⟩ := hu
  cases KindAt.unique (hsub _ _ _ hls') hcm
  rcases (h.leaf _ _ _).mp hls' with hleaf | ⟨d, hd, -, hsrc, htar⟩
  · obtain ⟨c', hc', hcrc', -⟩ := h₂.leaf_mem hleaf
    cases hcrc.symm.trans hcrc'
    exact hmem hc'
  · have hnd := nodup_leaves h₁.closed
    rw [hl] at hnd
    have hne := (pairwise_append.mp hnd).2.2 d hd c mem_cons_self
    exact hne.elim (fun h => h hsrc) (fun h => h htar)

/-- One function of `m₁` is added after those of `l₁`. -/
theorem Importing.step (h : Importing m₂ n l₁) (h₁ : Wired m₁) (h₂ : Wired m₂) (hm : Wired m)
    (hall : ∀ s t ls, Leaf m s t ls ↔ Leaf m₁ s t ls ∨ Leaf m₂ s t ls)
    (hl : leaves m₁ = l₁ ++ c :: l₂) :
    ((∃ n', addCrc n c = .ok n') ↔ (c ∈ leaves m₂ → AgreeAt m₂ l₁ c)) ∧
      ∀ n', addCrc n c = .ok n' → Importing m₂ n' (l₁ ++ [c]) := by
  have hdone : ∀ d ∈ l₁, d ∈ leaves m₁ := fun d hd => hl ▸ mem_append_left _ hd
  have hcreated : ∀ d ∈ l₁, ∃ ls, createCrc ls = .ok d := fun d hd =>
    (h₁.mem_leaves (hdone d hd)).imp fun _ => And.left
  obtain ⟨ls, hcrc, hc⟩ := h₁.mem_leaves (hl ▸ mem_append_right l₁ mem_cons_self : c ∈ leaves m₁)
  by_cases hmem : c ∈ leaves m₂
  · have hhas : Has n c.crcSrcTs c.crcTarTs := by
      obtain ⟨ls', -, hleaf⟩ := h₂.mem_leaves hmem
      exact KindAt.has (KindAt.kept hleaf h.kept)
    refine ⟨?_, fun n' hn' => h.add hcrc hn' (.inl hhas)⟩
    rw [← h.agreeAt h₂ hcreated hmem]
    constructor
    · rintro ⟨n', hn'⟩ -
      rw [hn', addCrc_same h.wired.closed hhas hn']
    · exact fun hn => ⟨n, hn hmem⟩
  · have hhas := h.lacks h₁ h₂ hm hall hl hmem
    have hnew : ¬ Prim m₂ c.crcSrcTs c.crcTarTs := by
      rintro ⟨ls', hleaf⟩
      exact hhas (KindAt.has (KindAt.kept hleaf h.kept))
    refine ⟨iff_of_true ?_ fun hc => absurd hc hmem, fun n' hn' => h.add hcrc hn' (.inr hnew)⟩
    exact h.wired.addCrc_sub hm (h.within h₁ hdone hall) hcrc ⟨ls, (hall _ _ _).mpr (.inl hc)⟩ hhas

end Importing

/-- The other order is right exactly if the functions of both maps agree, where the import
succeeds at all. -/
theorem Wired.commutes_iff (h₁ : Wired m₁) (h₂ : Wired m₂) :
    Commutes m₁ m₂ ↔ ((∃ m, union m₁ m₂ = .ok m) → Agree m₁ m₂) := by
  rw [forall_exists_index]
  refine forall₂_congr fun m hunion => ?_
  obtain ⟨hm, hall⟩ := wired_union h₁ h₂ hunion
  have hstart : Importing m₂ m₂ [] := ⟨h₂, fun _ _ _ h => h, by simp, fun s t k h => .inl h.has⟩
  have hrun := foldlM_ok_iff (J := fun done n => Importing m₂ n done) (f := addCrc)
    (P := fun done f => f ∈ leaves m₂ → AgreeAt m₂ done f)
    (fun l₁ c l₂ n hl h => h.step h₁ h₂ hm hall hl) hstart
  rw [Agree, ← hrun]
  constructor
  · rintro ⟨m', hm', -⟩
    exact ⟨m', (union_eq _ _).symm.trans hm'⟩
  · rintro ⟨m', hm'⟩
    rw [← union_eq] at hm'
    obtain ⟨hw, hleaf⟩ := wired_union h₂ h₁ hm'
    have hsame : ∀ s t ls, Leaf m' s t ls ↔ Leaf m s t ls := fun s t ls => by
      rw [hleaf, hall, or_comm]
    refine ⟨m', hm', fun s t => ⟨?_, ?_⟩⟩
    · exact fun h => hw.has_sub hm (fun s t ls hl => (hsame s t ls).mp hl) h
    · exact fun h => hm.has_sub hw (fun s t ls hl => (hsame s t ls).mpr hl) h

/-- Importing a map again leaves it as it is exactly if it has no three functions in a
row; an import in the other order is right exactly if the functions of both maps agree. -/
theorem coercion_import {m₁ m₂ : CrcMap} (h₁ : Built m₁) (h₂ : Built m₂) :
    (Idempotent m₁ ↔ ∀ s t, Prim m₁ s t → ¬ InChain (Prim m₁) s t) ∧
      (Commutes m₁ m₂ ↔ ((∃ m, union m₁ m₂ = .ok m) → Agree m₁ m₂)) :=
  ⟨h₁.wired.idempotent_iff, h₁.wired.commutes_iff h₂.wired⟩

/-- The functions from 1 to 2 and from 5 to 1, and those from 1 to 2 and from 2 to 3: the
function of both is on a chain of three, and is added again before the chain is complete. -/
theorem coercion_import_chain :
    Idempotent (addAll [plainLs 10 (plainTs 1) (plainTs 2), plainLs 11 (plainTs 5) (plainTs 1)]) ∧
    Commutes (addAll [plainLs 10 (plainTs 1) (plainTs 2), plainLs 11 (plainTs 5) (plainTs 1)])
      (addAll [plainLs 10 (plainTs 1) (plainTs 2), plainLs 12 (plainTs 2) (plainTs 3)]) := by
  have hone : Built (addAll [plainLs 10 (plainTs 1) (plainTs 2)]) :=
    @Built.add empty _ (plainLs 10 (plainTs 1) (plainTs 2)) .empty rfl
  have hprim₁ : ∀ s t, Prim (addAll [plainLs 10 (plainTs 1) (plainTs 2)]) s t →
      s = plainTs 1 ∧ t = plainTs 2 := by
    intro s t h
    rcases (prim_addCrc closed_empty
      (rfl : createCrc (plainLs 10 (plainTs 1) (plainTs 2)) = .ok _) rfl s t).mp h with
      ⟨_, c, hc, -⟩ | h
    · cases hc
    · exact h
  have hprim₂ : ∀ s t, Prim (addAll [plainLs 10 (plainTs 1) (plainTs 2),
      plainLs 11 (plainTs 5) (plainTs 1)]) s t →
      s = plainTs 1 ∧ t = plainTs 2 ∨ s = plainTs 5 ∧ t = plainTs 1 := fun s t h =>
    ((prim_addCrc hone.wired.closed (rfl : createCrc (plainLs 11 (plainTs 5) (plainTs 1)) = .ok _)
      rfl s t).mp h).imp_left (hprim₁ s t)
  have hprim₃ : ∀ s t, Prim (addAll [plainLs 10 (plainTs 1) (plainTs 2),
      plainLs 12 (plainTs 2) (plainTs 3)]) s t →
      s = plainTs 1 ∧ t = plainTs 2 ∨ s = plainTs 2 ∧ t = plainTs 3 := fun s t h =>
    ((prim_addCrc hone.wired.closed (rfl : createCrc (plainLs 12 (plainTs 2) (plainTs 3)) = .ok _)
      rfl s t).mp h).imp_left (hprim₁ s t)
  have hbuilt₁ : Built (addAll [plainLs 10 (plainTs 1) (plainTs 2),
      plainLs 11 (plainTs 5) (plainTs 1)]) :=
    @Built.add _ _ (plainLs 11 (plainTs 5) (plainTs 1)) hone rfl
  have hbuilt₂ : Built (addAll [plainLs 10 (plainTs 1) (plainTs 2),
      plainLs 12 (plainTs 2) (plainTs 3)]) :=
    @Built.add _ _ (plainLs 12 (plainTs 2) (plainTs 3)) hone rfl
  obtain ⟨hidem, hcomm⟩ := coercion_import hbuilt₁ hbuilt₂
  constructor
  · refine hidem.mpr fun s t hst h => ?_
    -- the first of two functions in a row is the one from 5
    have hpair : ∀ {x y z}, Prim (addAll [plainLs 10 (plainTs 1) (plainTs 2),
        plainLs 11 (plainTs 5) (plainTs 1)]) x y → Prim (addAll [plainLs 10 (plainTs 1) (plainTs 2),
        plainLs 11 (plainTs 5) (plainTs 1)]) y z → x = plainTs 5 ∧ y = plainTs 1 := by
      intro x y z hxy hyz
      rcases hprim₂ x y hxy with ⟨rfl, rfl⟩ | h
      · rcases hprim₂ _ _ hyz with ⟨h, -⟩ | ⟨h, -⟩ <;> cases h
      · exact h
    rcases h with ⟨x, y, hx, hy⟩ | ⟨x, y, hx, hy⟩ | ⟨x, y, hx, hy⟩
    · cases (hpair hx hst).2.symm.trans (hpair hst hy).1
    · cases (hpair hx hy).2.symm.trans (hpair hy hst).1
    · cases (hpair hst hx).2.symm.trans (hpair hx hy).1
  · refine hcomm.mpr fun _ l₁ f l₂ hl hf s t hs ht => ?_
    have hleaves : leaves (addAll [plainLs 10 (plainTs 1) (plainTs 2),
        plainLs 11 (plainTs 5) (plainTs 1)]) =
      [⟨.crcLeaf (plainLs 10 (plainTs 1) (plainTs 2)), plainTs 1, [], plainTs 2, []⟩,
        ⟨.crcLeaf (plainLs 11 (plainTs 5) (plainTs 1)), plainTs 5, [], plainTs 1, []⟩] := rfl
    rw [hleaves] at hl
    have hlinks : ∀ s t, Links (addAll [plainLs 10 (plainTs 1) (plainTs 2),
        plainLs 12 (plainTs 2) (plainTs 3)]) [] s t →
        s = plainTs 1 ∧ t = plainTs 2 ∨ s = plainTs 2 ∧ t = plainTs 3 := by
      rintro s t (h | ⟨c, hc, -⟩)
      · exact hprim₃ s t h
      · cases hc
    rcases l₁ with _ | ⟨_, _ | ⟨_, l₁⟩⟩
    · -- nothing enters 1, and 2 reaches 3 only
      cases hl
      obtain rfl : s = plainTs 1 := by
        rcases ReflTransGen.cases_tail hs with h | ⟨u, -, hu⟩
        · exact h.symm
        · have := hlinks _ _ hu
          simp [plainTs] at this
      rcases ReflTransGen.cases_head ht with rfl | ⟨u, hu, hut⟩
      · exact .inl ⟨rfl, rfl⟩
      · rcases hlinks _ _ hu with ⟨h, -⟩ | ⟨-, rfl⟩
        · cases h
        · rcases ReflTransGen.cases_head hut with rfl | ⟨v, hv, -⟩
          · exact .inr (.inl ⟨rfl, hu⟩)
          · have := hlinks _ _ hv
            simp [plainTs] at this
    · cases hl
      obtain ⟨hget, -⟩ := (mem_leaves_iff hbuilt₂.wired.closed).mp hf
      cases hget
    · simp at hl

/-- The functions from 0 to 1, from 1 to 2 and from 2 to 3. -/
theorem not_coercion_import : ¬ ((∀ m, Built m → Idempotent m) ∧
    ∀ m₁ m₂, Built m₁ → Built m₂ → Commutes m₁ m₂) := by
  rintro ⟨h, -⟩
  have hbuilt : Built (addAll [plainLs 10 (plainTs 0) (plainTs 1),
      plainLs 11 (plainTs 1) (plainTs 2), plainLs 12 (plainTs 2) (plainTs 3)]) := by
    have hone : Built (addAll [plainLs 10 (plainTs 0) (plainTs 1)]) :=
      @Built.add empty _ (plainLs 10 (plainTs 0) (plainTs 1)) .empty rfl
    have htwo : Built (addAll [plainLs 10 (plainTs 0) (plainTs 1),
        plainLs 11 (plainTs 1) (plainTs 2)]) :=
      @Built.add _ _ (plainLs 11 (plainTs 1) (plainTs 2)) hone rfl
    exact @Built.add _ _ (plainLs 12 (plainTs 2) (plainTs 3)) htwo rfl
  have hself := (h _ hbuilt).union_self
  have herror : union (addAll [plainLs 10 (plainTs 0) (plainTs 1),
      plainLs 11 (plainTs 1) (plainTs 2), plainLs 12 (plainTs 2) (plainTs 3)])
      (addAll [plainLs 10 (plainTs 0) (plainTs 1),
      plainLs 11 (plainTs 1) (plainTs 2), plainLs 12 (plainTs 2) (plainTs 3)])
      = .error (.coercionAlreadyDefined
        { crcKind := .crcComp (.crcComp (.crcLeaf (plainLs 10 (plainTs 0) (plainTs 1)))
            (.crcLeaf (plainLs 11 (plainTs 1) (plainTs 2))))
            (.crcLeaf (plainLs 12 (plainTs 2) (plainTs 3)))
          crcSrcTs := plainTs 0
          crcSrcTl := []
          crcTarTs := plainTs 3
          crcTarTl := [] }) := rfl
  rw [herror] at hself
  cases hself

end Coercions

end Why3
