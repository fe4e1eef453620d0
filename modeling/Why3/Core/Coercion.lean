import Why3.Core.Term
import Why3.Lib.Checks
import Why3.Lib.TagMap
import Why3.Lib.OrderExtension

/-!
# Coercions

The coercion graph of `core/coercion.ml`: a map from pairs of type symbols to
coercions, kept transitively closed.  Adding a coercion adds its composition with
the coercions that leave its target, and the compositions of the coercions that
enter its source.
-/

namespace Why3

open List Option

variable {s t : TySymbol}

instance : Tagged TySymbol := ⟨TySymbol.tsName⟩

variable {m : CrcMap} {crc : Coercion}

namespace Coercions

inductive CoercionKind
  | crcLeaf (ls : LSymbol)
  | crcComp (k₁ k₂ : CoercionKind)
deriving DecidableEq

structure Coercion where
  crcKind : CoercionKind
  crcSrcTs : TySymbol
  crcSrcTl : List Ty
  crcTarTs : TySymbol
  crcTarTl : List Ty

/-- The type `t` of the source. -/
abbrev CrcMap := TagMap TySymbol (TagMap TySymbol Coercion)

inductive CoercionError
  | notACoercion (ls : LSymbol)
  | coercionCycle (crc : Coercion)
  | coercionAlreadyDefined (crc : Coercion)
  | notFound
  | invalidArgument

def empty : CrcMap := TagMap.empty

def createCrc (ls : LSymbol) : Except CoercionError Coercion :=
  match ls.lsArgs, ls.lsValue with
  | [.tyapp ts₁ tl₁], some (.tyapp ts₂ tl₂) =>
    if ts₁ = ts₂ then .error (.notACoercion ls)
    else .ok
      { crcKind := .crcLeaf ls
        crcSrcTs := ts₁
        crcSrcTl := tl₁
        crcTarTs := ts₂
        crcTarTl := tl₂ }
  | _, _ => .error (.notACoercion ls)

/-! ## Looking up -/

/-- The coercion from one type symbol to another. -/
def get (crcmap : CrcMap) (ts₁ ts₂ : TySymbol) : Option Coercion :=
  (crcmap.find? ts₁).bind fun m => m.find? ts₂

mutual
def mayMatch : Ty → Ty → Except CoercionError Unit
  | .tyapp ts₁ tl₁, .tyapp ts₂ tl₂ =>
    if ts₁ = ts₂ then mayMatchList tl₁ tl₂ else .error .notFound
  | _, _ => .ok ()
/-- `List.iter2 may_match`. -/
def mayMatchList : List Ty → List Ty → Except CoercionError Unit
  | [], [] => .ok ()
  | ty₁ :: tl₁, ty₂ :: tl₂ => do
    mayMatch ty₁ ty₂
    mayMatchList tl₁ tl₂
  | _, _ => .error .invalidArgument
end

def findCrc (crcmap : CrcMap) (ts₁ ts₂ : TySymbol) : Except CoercionError Coercion :=
  match get crcmap ts₁ ts₂ with
  | some crc => .ok crc
  | none => .error .notFound

def lsListOf (acc : List LSymbol) : CoercionKind → List LSymbol
  | .crcLeaf ls => ls :: acc
  | .crcComp k₁ k₂ => lsListOf (lsListOf acc k₂) k₁

def find (crcmap : CrcMap) (ty₁ ty₂ : Ty) : Except CoercionError (List LSymbol) :=
  match ty₁, ty₂ with
  | .tyapp ts₁ tl₁, .tyapp ts₂ tl₂ => do
    let crc ← findCrc crcmap ts₁ ts₂
    mayMatchList tl₁ crc.crcSrcTl
    mayMatchList tl₂ crc.crcTarTl
    .ok (lsListOf [] crc.crcKind)
  | _, _ => .error .notFound

/-! ## Adding -/

def ckEq : CoercionKind → CoercionKind → Bool
  | .crcLeaf lsOld, .crcLeaf lsNew => lsOld = lsNew
  | .crcComp old₁ old₂, .crcComp new₁ new₂ => ckEq old₁ new₁ && ckEq old₂ new₂
  | _, _ => false

def replace (cOld cNew : Coercion) (m : CrcMap) : Except CoercionError CrcMap :=
  if ckEq cOld.crcKind cNew.crcKind then .ok m else .error (.coercionAlreadyDefined cOld)

/-- Without the transitive closure. -/
def insert (crc : Coercion) (m : CrcMap) : Except CoercionError CrcMap :=
  match get m crc.crcTarTs crc.crcSrcTs with
  | some c => .error (.coercionCycle c)
  | none =>
    let m₁ := m.findD crc.crcSrcTs TagMap.empty
    match m₁.find? crc.crcTarTs with
    | some c => replace c crc m
    | none => .ok (m.add crc.crcSrcTs (m₁.add crc.crcTarTs crc))

def compose (crc₁ crc₂ : Coercion) : Coercion :=
  { crcKind := .crcComp crc₁.crcKind crc₂.crcKind
    crcSrcTs := crc₁.crcSrcTs
    crcSrcTl := crc₁.crcSrcTl
    crcTarTs := crc₂.crcTarTs
    crcTarTl := crc₂.crcTarTl }

def closeRight (c₁ : Coercion) (macc : CrcMap) (e : TySymbol × Coercion) :
    Except CoercionError CrcMap :=
  insert (compose c₁ e.2) macc

def closeLeftRight (crc : Coercion) (macc : CrcMap) (e : TySymbol × TagMap TySymbol Coercion) :
    Except CoercionError CrcMap :=
  match e.2.find? crc.crcSrcTs with
  | some c₁ =>
    let m₂ := macc.findD crc.crcTarTs TagMap.empty
    (m₂.add crc.crcTarTs crc).entries.foldlM (closeRight c₁) macc
  | none => .ok macc

/-- With the transitive closure. -/
def addCrc (crcmap : CrcMap) (crc : Coercion) : Except CoercionError CrcMap := do
  let uc₁ ← insert crc crcmap
  let m₁ := uc₁.findD crc.crcTarTs TagMap.empty
  let uc₂ ← m₁.entries.foldlM (closeRight crc) uc₁
  uc₂.entries.foldlM (closeLeftRight crc) uc₂

def add (crcmap : CrcMap) (ls : LSymbol) : Except CoercionError CrcMap := do
  let crc ← createCrc ls
  addCrc crcmap crc

/-- One coercion of the second map: only those that are not compositions are added. -/
def unionAdd (crcmap : CrcMap) (e : TySymbol × Coercion) : Except CoercionError CrcMap :=
  match e.2.crcKind with
  | .crcLeaf _ => addCrc crcmap e.2
  | .crcComp _ _ => .ok crcmap

def union (crcmap₁ crcmap₂ : CrcMap) : Except CoercionError CrcMap :=
  crcmap₂.entries.foldlM (fun crcmap e => e.2.entries.foldlM unionAdd crcmap) crcmap₁

/-! ## Runs -/

/-- The maps that successful operations build from the empty one. -/
inductive Built : CrcMap → Prop
  | empty : Built empty
  | add {m m' : CrcMap} {ls : LSymbol} : Built m → add m ls = .ok m' → Built m'
  | union {m₁ m₂ m' : CrcMap} : Built m₁ → Built m₂ → union m₁ m₂ = .ok m' → Built m'

/-- Each function takes what the function before it returns. -/
inductive Chain : TySymbol → TySymbol → List LSymbol → Prop
  | one {ls : LSymbol} {s t : TySymbol} {tl tl' : List Ty} : ls.lsArgs = [.tyapp s tl] →
      ls.lsValue = some (.tyapp t tl') → Chain s t [ls]
  | cons {ls : LSymbol} {s t u : TySymbol} {tl tl' : List Ty} {l : List LSymbol} :
      ls.lsArgs = [.tyapp s tl] → ls.lsValue = some (.tyapp t tl') → Chain t u l →
      Chain s u (ls :: l)

def Has (m : CrcMap) (s t : TySymbol) : Prop := (get m s t).isSome = true

/-- Transitively closed, without cycles, and every entry is found as a chain. -/
structure Valid (m : CrcMap) : Prop where
  irrefl : ∀ s, ¬ Has m s s
  asymm : ∀ s t, Has m s t → ¬ Has m t s
  trans : ∀ s t u, Has m s t → Has m t u → Has m s u
  found : ∀ s t c, get m s t = some c →
    ∃ l, find m (.tyapp s c.crcSrcTl) (.tyapp t c.crcTarTl) = .ok l
  chain : ∀ s t tl tl' l, find m (.tyapp s tl) (.tyapp t tl') = .ok l → Chain s t l

/-! ## One insertion -/

variable {c : Coercion}

theorem get_add {s' t' : TySymbol} :
    get (m.add s ((m.findD s TagMap.empty).add t c)) s' t'
      = if s' = s ∧ t' = t then some c else get m s' t' := by
  rw [get, TagMap.find?_add]
  by_cases hs : s' = s
  · subst hs
    rw [if_pos rfl, bind_some, TagMap.find?_add]
    by_cases ht : t' = t
    · rw [if_pos ht, if_pos ⟨rfl, ht⟩]
    · rw [if_neg ht, if_neg fun h => ht h.2, get, TagMap.findD]
      cases m.find? s' <;> rfl
  · rw [if_neg hs, if_neg fun h => hs h.1, get]

theorem get_findD (m : CrcMap) (s t : TySymbol) :
    (m.findD s TagMap.empty).find? t = get m s t := by
  rw [get, TagMap.findD]
  cases m.find? s <;> rfl

variable {m' : CrcMap}

/-- What an insertion does: there is no coercion the other way, and either the
coercion is there already or it is the only new one. -/
theorem insert_cases (h : insert crc m = .ok m') :
    ¬ Has m crc.crcTarTs crc.crcSrcTs ∧
      ((m' = m ∧ Has m crc.crcSrcTs crc.crcTarTs) ∨
        ∀ s t, get m' s t
          = if s = crc.crcSrcTs ∧ t = crc.crcTarTs then some crc else get m s t) := by
  rw [insert] at h
  split at h
  · cases h
  · next hnone =>
      refine ⟨by rw [Has, hnone]; decide, ?_⟩
      dsimp only at h
      split at h
      · next c hc =>
          rw [get_findD] at hc
          rw [replace] at h
          split_ifs at h
          cases h
          exact .inl ⟨rfl, by rw [Has, hc]; rfl⟩
      · cases h
        exact .inr fun s t => get_add

theorem has_insert (h : insert crc m = .ok m') (s t : TySymbol) :
    Has m' s t ↔ Has m s t ∨ (s = crc.crcSrcTs ∧ t = crc.crcTarTs) := by
  obtain ⟨-, ⟨rfl, hold⟩ | hnew⟩ := insert_cases h
  · constructor
    · exact .inl
    · rintro (h | ⟨rfl, rfl⟩)
      · exact h
      · exact hold
  · rw [Has, hnew]
    split_ifs with hst
    · simp [hst]
    · simp [hst, Has]

theorem get_insert (h : insert crc m = .ok m')
    (hget : get m' s t = some c) :
    get m s t = some c ∨ (s = crc.crcSrcTs ∧ t = crc.crcTarTs ∧ c = crc) := by
  obtain ⟨-, ⟨rfl, -⟩ | hnew⟩ := insert_cases h
  · exact .inl hget
  · rw [hnew] at hget
    split_ifs at hget with hst
    · cases hget
      exact .inr ⟨hst.1, hst.2, rfl⟩
    · exact .inl hget

theorem get_insert_of_ne (h : insert crc m = .ok m')
    (hs : s ≠ crc.crcSrcTs) (t : TySymbol) : get m' s t = get m s t := by
  obtain ⟨-, ⟨rfl, -⟩ | hnew⟩ := insert_cases h
  · rfl
  · rw [hnew, if_neg fun hst => hs hst.1]

/-! ## Adding one coercion -/

/-- The entries stand under their own type symbols. -/
def Keyed (m : CrcMap) : Prop :=
  ∀ s t c, get m s t = some c → c.crcSrcTs = s ∧ c.crcTarTs = t

theorem has_of_get (h : get m s t = some c) : Has m s t := by
  rw [Has, h]
  rfl

theorem has_iff : Has m s t ↔ ∃ c, get m s t = some c :=
  isSome_iff_exists

theorem get_of_mem {row : TagMap TySymbol Coercion} (h : (s, row) ∈ m.entries) :
    get m s t = row.find? t := by
  rw [get, TagMap.find?_eq_some_iff.mpr h, bind_some]

section AddCrc

variable {m : CrcMap} {crc : Coercion} {Q : TySymbol → TySymbol → Coercion → Prop}

/-- What the loops keep: the coercions that leave the target of the new one and
those that enter its source are the old ones, and all entries satisfy `Q`. -/
structure Closing (m : CrcMap) (crc : Coercion) (Q : TySymbol → TySymbol → Coercion → Prop)
    (b : CrcMap) : Prop where
  row : ∀ t, get b crc.crcTarTs t = get m crc.crcTarTs t
  column : ∀ s c, get b s crc.crcSrcTs = some c → get m s crc.crcSrcTs = some c
  entries : ∀ s t c, get b s t = some c → Q s t c

variable {b b' : CrcMap}

/-- An insertion that leaves the row and the column alone. -/
theorem Closing.insert {c : Coercion} (hb : Closing m crc Q b) (h : insert c b = .ok b')
    (hrow : crc.crcTarTs ≠ c.crcSrcTs) (hcol : crc.crcSrcTs ≠ c.crcTarTs)
    (hc : Q c.crcSrcTs c.crcTarTs c) : Closing m crc Q b' where
  row t := by rw [get_insert_of_ne h hrow, hb.row]
  column s d hd := by
    rcases get_insert h hd with hd | ⟨-, hcol', -⟩
    · exact hb.column s d hd
    · exact absurd hcol' hcol
  entries s t d hd := by
    rcases get_insert h hd with hd | ⟨rfl, rfl, rfl⟩
    · exact hb.entries s t d hd
    · exact hc

/-- Compositions of `c₁` with coercions whose targets are given by `T`. -/
theorem closeRight_run {c₁ : Coercion} {l : List (TySymbol × Coercion)} (hb : Closing m crc Q b)
    (h : l.foldlM (closeRight c₁) b = .ok b') (hsrc : crc.crcTarTs ≠ c₁.crcSrcTs)
    (hl : ∀ e ∈ l, e.2.crcTarTs = e.1 ∧ crc.crcSrcTs ≠ e.1 ∧ Q c₁.crcSrcTs e.1 (compose c₁ e.2)) :
    Closing m crc Q b' ∧ ∀ p : TySymbol × TySymbol,
      Has b' p.1 p.2 ↔ Has b p.1 p.2 ∨ ∃ e ∈ l, p.1 = c₁.crcSrcTs ∧ p.2 = e.1 := by
  refine Checks.foldlM_collect_inv
    (H := fun (b : CrcMap) (p : TySymbol × TySymbol) => Has b p.1 p.2)
    (S := fun (e : TySymbol × Coercion) p => p.1 = c₁.crcSrcTs ∧ p.2 = e.1) ?_ h hb
  intro e he b b' hstep hb
  obtain ⟨htar, hcol, hq⟩ := hl e he
  refine ⟨hb.insert hstep hsrc ?_ ?_, fun p => ?_⟩
  · show crc.crcSrcTs ≠ e.2.crcTarTs
    rw [htar]
    exact hcol
  · show Q c₁.crcSrcTs e.2.crcTarTs (compose c₁ e.2)
    rw [htar]
    exact hq
  · rw [has_insert hstep]
    show _ ∨ (_ = c₁.crcSrcTs ∧ _ = e.2.crcTarTs) ↔ _
    rw [htar]

/-- One row of the last loop, for a type symbol with a coercion into the source. -/
theorem closeLeftRight_step {e : TySymbol × TagMap TySymbol Coercion}
    (hkey : Keyed m) (hcrc : crc.crcSrcTs ≠ crc.crcTarTs)
    (hcycle : ¬ Has m crc.crcTarTs crc.crcSrcTs)
    (hleft : ∀ s c₁, get m s crc.crcSrcTs = some c₁ → Q s crc.crcTarTs (compose c₁ crc))
    (hboth : ∀ s t c₁ c₂, get m s crc.crcSrcTs = some c₁ → get m crc.crcTarTs t = some c₂ →
      Q s t (compose c₁ c₂))
    (he : e.2.find? crc.crcSrcTs = get m e.1 crc.crcSrcTs)
    (h : closeLeftRight crc b e = .ok b') (hb : Closing m crc Q b) :
    Closing m crc Q b' ∧ ∀ p : TySymbol × TySymbol, Has b' p.1 p.2 ↔
      Has b p.1 p.2 ∨ (p.1 = e.1 ∧ Has m e.1 crc.crcSrcTs ∧
        (p.2 = crc.crcTarTs ∨ Has m crc.crcTarTs p.2)) := by
  rw [closeLeftRight] at h
  split at h
  · next c₁ hc₁ =>
      rw [he] at hc₁
      obtain ⟨hsrc, -⟩ := hkey _ _ _ hc₁
      have hrow : crc.crcTarTs ≠ c₁.crcSrcTs := by
        intro heq
        rw [hsrc] at heq
        rw [← heq] at hc₁
        exact hcycle (has_of_get hc₁)
      have hmem : ∀ d, d ∈ ((b.findD crc.crcTarTs TagMap.empty).add crc.crcTarTs crc).entries →
          d = (crc.crcTarTs, crc) ∨ get m crc.crcTarTs d.1 = some d.2 := by
        intro d hd
        rcases TagMap.mem_add.mp hd with hd | ⟨hd, -⟩
        · exact Or.inl hd
        · right
          rw [← hb.row, ← get_findD]
          exact TagMap.find?_eq_some_iff.mpr hd
      obtain ⟨hb', hp⟩ := closeRight_run hb h hrow (by
        intro d hd
        rcases hmem d hd with rfl | hd
        · exact ⟨rfl, hcrc, by rw [hsrc]; exact hleft _ _ hc₁⟩
        · refine ⟨(hkey _ _ _ hd).2, ?_, by rw [hsrc]; exact hboth _ _ _ _ hc₁ hd⟩
          intro heq
          rw [← heq] at hd
          exact hcycle (has_of_get hd))
      refine ⟨hb', fun p => (hp p).trans (or_congr_right ?_)⟩
      rw [hsrc]
      constructor
      · rintro ⟨d, hd, hp₁, hp₂⟩
        refine ⟨hp₁, has_of_get hc₁, ?_⟩
        rcases hmem d hd with rfl | hd
        · exact Or.inl hp₂
        · rw [hp₂]
          exact Or.inr (has_of_get hd)
      · rintro ⟨hp₁, -, hp₂⟩
        by_cases heq : p.2 = crc.crcTarTs
        · exact ⟨(crc.crcTarTs, crc), TagMap.mem_add.mpr (Or.inl rfl), hp₁, heq⟩
        · obtain ⟨c₂, hc₂⟩ := has_iff.mp (hp₂.resolve_left heq)
          refine ⟨(p.2, c₂), TagMap.mem_add.mpr (Or.inr ⟨?_, heq⟩), hp₁, rfl⟩
          rw [← TagMap.find?_eq_some_iff, get_findD, hb.row, hc₂]
  · next hnone =>
      cases h
      refine ⟨hb, fun p => ⟨Or.inl, ?_⟩⟩
      rintro (h | ⟨-, h, -⟩)
      · exact h
      · rw [Has, ← he, hnone] at h
        cases h

/-- Adding a coercion: it closes no cycle, the map becomes the extension of the
order by one edge, and every entry is an old one, the new one or a composition. -/
theorem addCrc_spec {m' : CrcMap} (hkey : Keyed m) (hcrc : crc.crcSrcTs ≠ crc.crcTarTs)
    (hold : ∀ s t c, get m s t = some c → Q s t c)
    (hnew : Q crc.crcSrcTs crc.crcTarTs crc)
    (hright : ∀ t c₂, get m crc.crcTarTs t = some c₂ → Q crc.crcSrcTs t (compose crc c₂))
    (hleft : ∀ s c₁, get m s crc.crcSrcTs = some c₁ → Q s crc.crcTarTs (compose c₁ crc))
    (hboth : ∀ s t c₁ c₂, get m s crc.crcSrcTs = some c₁ → get m crc.crcTarTs t = some c₂ →
      Q s t (compose c₁ c₂))
    (h : addCrc m crc = .ok m') :
    ¬ Has m crc.crcTarTs crc.crcSrcTs ∧
      (∀ s t, Has m' s t ↔ OrderExtension.extend (Has m) crc.crcSrcTs crc.crcTarTs s t) ∧
      ∀ s t c, get m' s t = some c → Q s t c := by
  rw [addCrc] at h
  obtain ⟨uc₁, huc₁, h⟩ := Checks.bind_eq_ok.mp h
  obtain ⟨uc₂, huc₂, h⟩ := Checks.bind_eq_ok.mp h
  have hcycle := (insert_cases huc₁).1
  have hclose₁ : Closing m crc Q uc₁ := by
    have hm : Closing m crc Q m := ⟨fun _ => rfl, fun _ _ h => h, hold⟩
    exact hm.insert huc₁ hcrc.symm hcrc hnew
  have hrow : ∀ e, e ∈ (uc₁.findD crc.crcTarTs TagMap.empty).entries →
      get m crc.crcTarTs e.1 = some e.2 := by
    intro e he
    rw [← hclose₁.row, ← get_findD]
    exact TagMap.find?_eq_some_iff.mpr he
  obtain ⟨hclose₂, hhas₂⟩ := closeRight_run hclose₁ huc₂ hcrc.symm (by
    intro e he
    refine ⟨(hkey _ _ _ (hrow e he)).2, ?_, hright _ _ (hrow e he)⟩
    intro heq
    have hcyc := hrow e he
    rw [← heq] at hcyc
    exact hcycle (has_of_get hcyc))
  have hmono : ∀ s t, Has m s t → Has uc₂ s t := by
    intro s t hst
    exact (hhas₂ (s, t)).mpr (Or.inl ((has_insert huc₁ s t).mpr (Or.inl hst)))
  have hentry : ∀ e, e ∈ uc₂.entries → e.2.find? crc.crcSrcTs = get m e.1 crc.crcSrcTs := by
    intro e he
    rw [← get_of_mem he]
    cases hget : get uc₂ e.1 crc.crcSrcTs with
    | some c => exact (hclose₂.column _ _ hget).symm
    | none =>
      cases hget' : get m e.1 crc.crcSrcTs with
      | none => rfl
      | some c =>
        have := hmono _ _ (has_of_get hget')
        rw [Has, hget] at this
        cases this
  obtain ⟨hclose, hhas⟩ := Checks.foldlM_collect_inv (I := Closing m crc Q)
    (H := fun (b : CrcMap) (p : TySymbol × TySymbol) => Has b p.1 p.2)
    (fun e he b b' hstep hb =>
      closeLeftRight_step hkey hcrc hcycle hleft hboth (hentry e he) hstep hb) h hclose₂
  refine ⟨hcycle, fun s t => ?_, hclose.entries⟩
  refine (hhas (s, t)).trans ?_
  dsimp only
  rw [hhas₂ (s, t), has_insert huc₁]
  constructor
  · rintro (((h | ⟨rfl, rfl⟩) | ⟨e, he, rfl, rfl⟩) | ⟨e, -, rfl, hs, ht⟩)
    · exact Or.inl h
    · exact Or.inr ⟨Or.inl rfl, Or.inl rfl⟩
    · exact Or.inr ⟨Or.inl rfl, Or.inr (has_of_get (hrow e he))⟩
    · exact Or.inr ⟨Or.inr hs, ht⟩
  · rintro (h | ⟨rfl | hs, ht⟩)
    · exact Or.inl (Or.inl (Or.inl h))
    · rcases ht with rfl | ht
      · exact Or.inl (Or.inl (Or.inr ⟨rfl, rfl⟩))
      · obtain ⟨c, hc⟩ := has_iff.mp ht
        refine Or.inl (Or.inr ⟨(t, c), ?_, rfl, rfl⟩)
        rw [← TagMap.find?_eq_some_iff, get_findD, hclose₁.row, hc]
    · obtain ⟨c, hc⟩ := has_iff.mp (hmono _ _ hs)
      rw [get, bind_eq_some_iff] at hc
      obtain ⟨row, hrow', -⟩ := hc
      exact Or.inr ⟨(s, row), TagMap.find?_eq_some_iff.mp hrow', rfl, hs, ht⟩

end AddCrc

/-! ## Every run keeps the map closed -/

structure Closed (m : CrcMap) : Prop where
  keyed : Keyed m
  irrefl : ∀ s, ¬ Has m s s
  trans : ∀ s t u, Has m s t → Has m t u → Has m s u

theorem closed_empty : Closed empty := by
  have hno : ∀ s t, get empty s t = none := fun _ _ => rfl
  refine ⟨fun s t c h => ?_, fun s h => ?_, fun s t u h => ?_⟩
  · rw [hno] at h
    cases h
  · rw [Has, hno] at h
    cases h
  · rw [Has, hno] at h
    cases h

theorem addCrc_has (hm : Closed m)
    (hcrc : crc.crcSrcTs ≠ crc.crcTarTs) (h : addCrc m crc = .ok m') (s t : TySymbol) :
    Has m' s t ↔ OrderExtension.extend (Has m) crc.crcSrcTs crc.crcTarTs s t :=
  (addCrc_spec (Q := fun _ _ _ => True) hm.keyed hcrc (fun _ _ _ _ => trivial) trivial
    (fun _ _ _ => trivial) (fun _ _ _ => trivial) (fun _ _ _ _ _ _ => trivial) h).2.1 s t

theorem closed_addCrc (hm : Closed m)
    (hcrc : crc.crcSrcTs ≠ crc.crcTarTs) (h : addCrc m crc = .ok m') : Closed m' := by
  obtain ⟨hcycle, hhas, hkeyed⟩ := addCrc_spec
    (Q := fun s t c => c.crcSrcTs = s ∧ c.crcTarTs = t) hm.keyed hcrc hm.keyed ⟨rfl, rfl⟩
    (fun t c₂ hc₂ => ⟨rfl, (hm.keyed _ _ _ hc₂).2⟩)
    (fun s c₁ hc₁ => ⟨(hm.keyed _ _ _ hc₁).1, rfl⟩)
    (fun s t c₁ c₂ hc₁ hc₂ => ⟨(hm.keyed _ _ _ hc₁).1, (hm.keyed _ _ _ hc₂).2⟩) h
  refine ⟨hkeyed, fun s hs => ?_, fun s t u hst htu => ?_⟩
  · rw [hhas] at hs
    exact OrderExtension.extend_irrefl hm.trans hm.irrefl hcrc hcycle s hs
  · rw [hhas] at hst htu ⊢
    exact OrderExtension.extend_trans hm.trans hcrc hcycle hst htu

theorem closed_addCrcs {l : List Coercion} (hm : Closed m)
    (hl : ∀ c ∈ l, c.crcSrcTs ≠ c.crcTarTs) (h : l.foldlM addCrc m = .ok m') : Closed m' :=
  Checks.foldlM_inv (fun c hc _ _ hstep hb => closed_addCrc hb (hl c hc) hstep) h hm

theorem createCrc_ne {ls : LSymbol} (h : createCrc ls = .ok crc) :
    crc.crcSrcTs ≠ crc.crcTarTs ∧ Chain crc.crcSrcTs crc.crcTarTs (lsListOf [] crc.crcKind) := by
  rw [createCrc] at h
  split at h
  · next ts₁ tl₁ ts₂ tl₂ hargs hvalue =>
      split_ifs at h with hne
      cases h
      exact ⟨hne, .one hargs hvalue⟩
  · cases h

/-- The coercions that a union adds, in the order of their keys. -/
def leaves (m : CrcMap) : List Coercion :=
  m.entries.flatMap fun e => (e.2.entries.map Prod.snd).filter fun c =>
    match c.crcKind with
    | .crcLeaf _ => true
    | .crcComp _ _ => false

theorem foldlM_unionAdd (l : List (TySymbol × Coercion)) (m : CrcMap) :
    l.foldlM unionAdd m = ((l.map Prod.snd).filter fun c =>
      match c.crcKind with
      | .crcLeaf _ => true
      | .crcComp _ _ => false).foldlM addCrc m := by
  induction l generalizing m with
  | nil => rfl
  | cons e l ih =>
    rw [foldlM_cons, map_cons, filter_cons, unionAdd]
    split
    · simp only [if_true, foldlM_cons]
      exact bind_congr fun m' => ih m'
    · simp only [if_false, Bool.false_eq_true]
      exact ih m

theorem union_eq (m₁ m₂ : CrcMap) : union m₁ m₂ = (leaves m₂).foldlM addCrc m₁ := by
  rw [union, leaves]
  induction m₂.entries generalizing m₁ with
  | nil => rfl
  | cons e l ih =>
    rw [foldlM_cons, flatMap_cons, foldlM_append, foldlM_unionAdd]
    exact bind_congr fun m' => ih m'

theorem mem_leaves (hm : Closed m) (h : c ∈ leaves m) :
    get m c.crcSrcTs c.crcTarTs = some c ∧ c.crcSrcTs ≠ c.crcTarTs := by
  rw [leaves, mem_flatMap] at h
  obtain ⟨⟨s, row⟩, hrow, hc⟩ := h
  obtain ⟨hc, -⟩ := mem_filter.mp hc
  obtain ⟨⟨t, c'⟩, ht, rfl⟩ := mem_map.mp hc
  have hget : get m s t = some c' := by
    rw [get_of_mem hrow]
    exact TagMap.find?_eq_some_iff.mpr ht
  obtain ⟨rfl, rfl⟩ := hm.keyed _ _ _ hget
  refine ⟨hget, fun heq => ?_⟩
  rw [← heq] at hget
  exact hm.irrefl _ (has_of_get hget)

theorem Built.closed (h : Built m) : Closed m := by
  induction h with
  | empty => exact closed_empty
  | @add m m' ls _ h ih =>
    obtain ⟨crc, hcrc, h⟩ := Checks.bind_eq_ok.mp h
    exact closed_addCrc ih (createCrc_ne hcrc).1 h
  | @union m₁ m₂ m' _ _ h ih₁ ih₂ =>
    rw [union_eq] at h
    exact closed_addCrcs ih₁ (fun c hc => (mem_leaves ih₂ hc).2) h

/-! ## Chains -/

theorem Chain.append {u : TySymbol} {l l' : List LSymbol} (h : Chain s t l) (h' : Chain t u l') :
    Chain s u (l ++ l') := by
  induction h with
  | one hargs hvalue => exact .cons hargs hvalue h'
  | cons hargs hvalue _ ih => exact .cons hargs hvalue (ih h')

theorem lsListOf_eq (k : CoercionKind) (acc : List LSymbol) :
    lsListOf acc k = lsListOf [] k ++ acc := by
  induction k generalizing acc with
  | crcLeaf ls => rfl
  | crcComp k₁ k₂ ih₁ ih₂ =>
    rw [lsListOf, lsListOf, ih₁, ih₂, ih₁ (lsListOf [] k₂), append_assoc]

theorem chain_compose {u : TySymbol} {c₁ c₂ : Coercion} (h₁ : Chain s t (lsListOf [] c₁.crcKind))
    (h₂ : Chain t u (lsListOf [] c₂.crcKind)) :
    Chain s u (lsListOf [] (compose c₁ c₂).crcKind) := by
  show Chain s u (lsListOf (lsListOf [] c₂.crcKind) c₁.crcKind)
  rw [lsListOf_eq]
  exact h₁.append h₂

def Chained (m : CrcMap) : Prop :=
  ∀ s t c, get m s t = some c → Chain s t (lsListOf [] c.crcKind)

/-- A coercion that is not put between two coercions that are there already. -/
theorem chained_addCrc (hm : Closed m) (hchain : Chained m)
    (hcrc : crc.crcSrcTs ≠ crc.crcTarTs)
    (hnew : Chain crc.crcSrcTs crc.crcTarTs (lsListOf [] crc.crcKind))
    (hbetween : (¬ ∃ s, Has m s crc.crcSrcTs) ∨ ¬ ∃ t, Has m crc.crcTarTs t)
    (h : addCrc m crc = .ok m') : Chained m' := by
  refine (addCrc_spec (Q := fun s t c => Chain s t (lsListOf [] c.crcKind)) hm.keyed hcrc
    hchain hnew ?_ ?_ ?_ h).2.2
  · intro t c₂ hc₂
    exact chain_compose hnew (hchain _ _ _ hc₂)
  · intro s c₁ hc₁
    exact chain_compose (hchain _ _ _ hc₁) hnew
  · -- here the code composes without the new coercion in the middle
    intro s t c₁ c₂ hc₁ hc₂
    rcases hbetween with hno | hno
    · exact absurd ⟨s, has_of_get hc₁⟩ hno
    · exact absurd ⟨t, has_of_get hc₂⟩ hno

/-- No coercion of the list is added between two coercions that are there before
it: `into` holds of the type symbols with a coercion into them, and `out` of those
with one out of them. -/
def InOrder (into out : TySymbol → Prop) : List Coercion → Prop
  | [] => True
  | c :: l => (¬ into c.crcSrcTs ∨ ¬ out c.crcTarTs) ∧
      InOrder (fun u => into u ∨ u = c.crcTarTs) (fun u => out u ∨ u = c.crcSrcTs) l

def Entered (m : CrcMap) (u : TySymbol) : Prop := ∃ s, Has m s u

def Exited (m : CrcMap) (u : TySymbol) : Prop := ∃ t, Has m u t

/-- The runs in which no coercion function is added between two coercions that are
there already. -/
inductive BuiltInOrder : CrcMap → Prop
  | empty : BuiltInOrder empty
  | add {m m' : CrcMap} {ls : LSymbol} : BuiltInOrder m →
      (∀ crc, createCrc ls = .ok crc → InOrder (Entered m) (Exited m) [crc]) →
      add m ls = .ok m' → BuiltInOrder m'
  | union {m₁ m₂ m' : CrcMap} : BuiltInOrder m₁ → BuiltInOrder m₂ →
      InOrder (Entered m₁) (Exited m₁) (leaves m₂) → union m₁ m₂ = .ok m' → BuiltInOrder m'

theorem entered_addCrc (hm : Closed m)
    (hcrc : crc.crcSrcTs ≠ crc.crcTarTs) (h : addCrc m crc = .ok m') (u : TySymbol) :
    Entered m' u ↔ Entered m u ∨ u = crc.crcTarTs := by
  constructor
  · rintro ⟨s, hs⟩
    rcases (addCrc_has hm hcrc h s u).mp hs with hs | ⟨-, rfl | hu⟩
    · exact .inl ⟨s, hs⟩
    · exact .inr rfl
    · exact .inl ⟨_, hu⟩
  · rintro (⟨s, hs⟩ | rfl)
    · exact ⟨s, (addCrc_has hm hcrc h s u).mpr (.inl hs)⟩
    · exact ⟨_, (addCrc_has hm hcrc h _ _).mpr (.inr ⟨.inl rfl, .inl rfl⟩)⟩

theorem exited_addCrc (hm : Closed m)
    (hcrc : crc.crcSrcTs ≠ crc.crcTarTs) (h : addCrc m crc = .ok m') (u : TySymbol) :
    Exited m' u ↔ Exited m u ∨ u = crc.crcSrcTs := by
  constructor
  · rintro ⟨t, ht⟩
    rcases (addCrc_has hm hcrc h u t).mp ht with ht | ⟨rfl | hu, -⟩
    · exact .inl ⟨t, ht⟩
    · exact .inr rfl
    · exact .inl ⟨_, hu⟩
  · rintro (⟨t, ht⟩ | rfl)
    · exact ⟨t, (addCrc_has hm hcrc h u t).mpr (.inl ht)⟩
    · exact ⟨_, (addCrc_has hm hcrc h _ _).mpr (.inr ⟨.inl rfl, .inl rfl⟩)⟩

theorem chained_addCrcs {l : List Coercion} : ∀ {m m' : CrcMap}, Closed m → Chained m →
    (∀ c ∈ l, c.crcSrcTs ≠ c.crcTarTs ∧
      Chain c.crcSrcTs c.crcTarTs (lsListOf [] c.crcKind)) →
    InOrder (Entered m) (Exited m) l → l.foldlM addCrc m = .ok m' → Chained m' := by
  induction l with
  | nil =>
    intro m m' _ hchain _ _ h
    cases h
    exact hchain
  | cons c l ih =>
    intro m m' hm hchain hl hord h
    rw [foldlM_cons] at h
    obtain ⟨m₁, hm₁, h⟩ := Checks.bind_eq_ok.mp h
    obtain ⟨hne, hc⟩ := hl c mem_cons_self
    obtain ⟨hbetween, hord⟩ := hord
    refine ih (closed_addCrc hm hne hm₁) (chained_addCrc hm hchain hne hc hbetween hm₁)
      (fun d hd => hl d (mem_cons_of_mem _ hd)) ?_ h
    have hinto : Entered m₁ = fun u => Entered m u ∨ u = c.crcTarTs :=
      funext fun u => propext (entered_addCrc hm hne hm₁ u)
    have hout : Exited m₁ = fun u => Exited m u ∨ u = c.crcSrcTs :=
      funext fun u => propext (exited_addCrc hm hne hm₁ u)
    rw [hinto, hout]
    exact hord

theorem BuiltInOrder.built (h : BuiltInOrder m) : Built m := by
  induction h with
  | empty => exact .empty
  | add _ _ h ih => exact .add ih h
  | union _ _ _ h ih₁ ih₂ => exact .union ih₁ ih₂ h

theorem BuiltInOrder.chained (h : BuiltInOrder m) : Chained m := by
  induction h with
  | empty =>
    intro s t c hc
    cases hc
  | @add m m' ls hm hord h ih =>
    obtain ⟨crc, hcrc, h⟩ := Checks.bind_eq_ok.mp h
    obtain ⟨hne, hchain⟩ := createCrc_ne hcrc
    exact chained_addCrc hm.built.closed ih hne hchain (hord crc hcrc).1 h
  | @union m₁ m₂ m' hm₁ hm₂ hord h ih₁ ih₂ =>
    rw [union_eq] at h
    refine chained_addCrcs hm₁.built.closed ih₁ (fun c hc => ?_) hord h
    obtain ⟨hget, hne⟩ := mem_leaves hm₂.built.closed hc
    exact ⟨hne, ih₂ _ _ _ hget⟩

/-! ## What is found -/

mutual
theorem mayMatch_self : ∀ ty : Ty, mayMatch ty ty = .ok ()
  | .tyvar _ => rfl
  | .tyapp _ tl => by
    rw [mayMatch, if_pos rfl]
    exact mayMatchList_self tl
theorem mayMatchList_self : ∀ tl : List Ty, mayMatchList tl tl = .ok ()
  | [] => rfl
  | ty :: tl => by
    rw [mayMatchList, mayMatch_self ty]
    exact mayMatchList_self tl
end

theorem find_eq_ok {tl tl' : List Ty} {l : List LSymbol}
    (h : find m (.tyapp s tl) (.tyapp t tl') = .ok l) :
    ∃ c, get m s t = some c ∧ l = lsListOf [] c.crcKind := by
  obtain ⟨c, hc, h⟩ := Checks.bind_eq_ok.mp h
  obtain ⟨-, -, h⟩ := Checks.bind_eq_ok.mp h
  obtain ⟨-, -, h⟩ := Checks.bind_eq_ok.mp h
  cases h
  refine ⟨c, ?_, rfl⟩
  rw [findCrc] at hc
  split at hc
  · next c' hc' =>
      cases hc
      exact hc'
  · cases hc

theorem find_self (h : get m s t = some c) :
    find m (.tyapp s c.crcSrcTl) (.tyapp t c.crcTarTl) = .ok (lsListOf [] c.crcKind) := by
  simp only [find, findCrc, h]
  show (mayMatchList c.crcSrcTl c.crcSrcTl >>= fun _ => _) = _
  rw [mayMatchList_self]
  show (mayMatchList c.crcTarTl c.crcTarTl >>= fun _ => _) = _
  rw [mayMatchList_self]
  rfl

theorem valid_of_closed (hm : Closed m) (hchain : Chained m) : Valid m where
  irrefl := hm.irrefl
  asymm s t hst hts := hm.irrefl s (hm.trans s t s hst hts)
  trans := hm.trans
  found s t c hc := ⟨_, find_self hc⟩
  chain s t tl tl' l hl := by
    obtain ⟨c, hc, rfl⟩ := find_eq_ok hl
    exact hchain s t c hc

/-- In every run in which no coercion function is added between two coercions that
are there already, the map is closed and acyclic and finds chains. -/
theorem coercions_chain (m : CrcMap) (h : BuiltInOrder m) : Valid m :=
  valid_of_closed h.built.closed h.chained

/-! ## A coercion between two others -/

/-- A type symbol without parameters. -/
def plainTs (n : ℕ) : TySymbol := .mk n [] .noDef

/-- A coercion function between two such types. -/
def plainLs (n : ℕ) (s t : TySymbol) : LSymbol :=
  { lsName := n
    lsArgs := [.tyapp s []]
    lsValue := some (.tyapp t [])
    lsConstr := 0
    lsProj := false }

/-- The result of adding functions one after the other. -/
def addAll (l : List LSymbol) : CrcMap :=
  match l.foldlM add empty with
  | .ok m => m
  | .error _ => empty

/-- The functions from 0 to 1 and from 1 to 2, in this order. -/
theorem coercions_chain_two :
    Valid (addAll [plainLs 10 (plainTs 0) (plainTs 1), plainLs 11 (plainTs 1) (plainTs 2)]) := by
  apply coercions_chain
  have hone : BuiltInOrder (addAll [plainLs 10 (plainTs 0) (plainTs 1)]) := by
    refine @BuiltInOrder.add empty _ (plainLs 10 (plainTs 0) (plainTs 1)) .empty
      (fun crc _ => ⟨Or.inl ?_, trivial⟩) rfl
    rintro ⟨s, hs⟩
    cases hs
  refine @BuiltInOrder.add _ _ (plainLs 11 (plainTs 1) (plainTs 2)) hone
    (fun crc hcrc => ⟨Or.inr ?_, trivial⟩) rfl
  cases hcrc
  rintro ⟨t, ht⟩
  cases ht

/-- The functions from 0 to 1, from 2 to 3 and then from 1 to 2: from 0 to 3 the
first two are found. -/
theorem not_coercions_chain : ¬ ∀ m, Built m → Valid m := by
  intro h
  have hbuilt : Built (addAll [plainLs 10 (plainTs 0) (plainTs 1),
      plainLs 11 (plainTs 2) (plainTs 3), plainLs 12 (plainTs 1) (plainTs 2)]) := by
    have hone : Built (addAll [plainLs 10 (plainTs 0) (plainTs 1)]) :=
      @Built.add empty _ (plainLs 10 (plainTs 0) (plainTs 1)) .empty rfl
    have htwo : Built (addAll [plainLs 10 (plainTs 0) (plainTs 1),
        plainLs 11 (plainTs 2) (plainTs 3)]) :=
      @Built.add _ _ (plainLs 11 (plainTs 2) (plainTs 3)) hone rfl
    exact @Built.add _ _ (plainLs 12 (plainTs 1) (plainTs 2)) htwo rfl
  have hchain : Chain (plainTs 0) (plainTs 3)
      [plainLs 10 (plainTs 0) (plainTs 1), plainLs 11 (plainTs 2) (plainTs 3)] :=
    (h _ hbuilt).chain _ _ [] [] _ rfl
  cases hchain with
  | cons _ hvalue hrest =>
    cases hrest with
    | one hargs _ =>
      have h₁ := (Ty.tyapp.inj (some.inj hvalue)).1
      have h₂ := (Ty.tyapp.inj (List.cons.inj hargs).1).1
      exact absurd (h₁.trans h₂.symm) (by decide)
    | cons _ _ hnil => cases hnil

end Coercions

end Why3
