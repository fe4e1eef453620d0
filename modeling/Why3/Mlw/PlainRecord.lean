import Why3.Core.Decl
import Why3.Mlw.Exposed

/-!
# Creation of record types

`create_plain_record_itysymbol` computes the flags of a record type from the
types of its fields.  All regions are made of such types, so their flags say
what the fields expose.
-/

namespace Why3

open Checks List Ity ItySymbol

inductive ItsExn
  | duplicateTypeVar (v : TvSymbol)
  | unboundTypeVar (v : TvSymbol)
  | unboundVar (v : VSymbol)

/-- `create_tysymbol`, for a type without definition. -/
def createTysymbol (id : ℕ) (args : List TvSymbol) : Except ItsExn TySymbol :=
  match args.find? (fun v => decide (1 < args.count v)) with
  | some v => .error (.duplicateTypeVar v)
  | none => .ok (.mk id args .noDef)

/-- The fields of a record, with their mutability. -/
abbrev FieldList := List (PvSymbol × Bool)

/-- `fields_of_invariant`: the fields that the invariant speaks of, and the
others. -/
def fieldsOfInvariant (ftv : List TvSymbol) (flds : FieldList) (invl : List Term) :
    Except ItsExn (FieldList × FieldList) :=
  if invl.isEmpty then .ok ([], flds)
  else do
    let fvs := flds.map (fun e => e.1.pvVs)
    let ivs ← invl.foldlM (fun acc p =>
      match p.freeVars.find? (· ∉ fvs) with
      | some v => .error (.unboundVar v)
      | none =>
        match (tTyFreevars p).find? (· ∉ ftv) with
        | some v => .error (.unboundTypeVar v)
        | none => .ok (acc ++ p.freeVars)) []
    .ok (flds.partition (fun e => e.1.pvVs ∈ ivs))

/-- `collect`. -/
def collect {α : Type} (fn : Ity → List α) (flds : FieldList) : List α :=
  flds.flatMap (fun e => fn e.1.pvIty)

/-- `Mreg.keys`: without repetition, in the order of the tags. -/
def regKeys (l : List Region) : List Region :=
  (l.foldl (fun m r => m.add r ()) (.empty : TagMap Region Unit)).keys

/-- `create_plain_record_itysymbol`. -/
def createPlainRecordItysymbol (priv mtb : Bool) (id : ℕ) (args : List TvSymbol) (flds : Mpv Bool)
    (invl : List Term) : Except ItsExn ItySymbol := do
  let flds := flds.entries
  let ts ← createTysymbol id args
  let fmut := flds.filter (fun e => e.2)
  let ffix := flds.filter (fun e => !e.2)
  let (flbl, fout) ← fieldsOfInvariant args flds invl
  let fvis := if priv then flds else flds.filter (fun e => !e.1.pvGhost)
  match (collect freevars flds).find? (· ∉ args) with
  | some v => .error (.unboundTypeVar v)
  | none =>
    let rfrz := if priv then collect rchRegs flbl ++ collect frzRegs fout
      else collect frzRegs flds
    let rexp := collect expRegs flds
    let rlbl := collect expRegs flbl
    let rfxd := collect expRegs ffix
    let rvis := collect visRegs fvis
    let regs := regKeys (collect topRegs flds)
    let nfr := priv || !invl.isEmpty
    let mtb' := mtb || !fmut.isEmpty || (nfr && !rexp.all (· ∈ rfrz))
    let frg :=
      if priv || (nfr && !mtb') then false
      else if nfr && mtb' then
        flbl.any (fun e => e.2 || e.1.pvIty.fragile true true) ||
          fout.any (fun e => e.2 && e.1.pvIty.fragile true false)
      else flds.any (fun e => e.1.pvIty.fragile true false)
    let afrz := if priv then args
      else if nfr && !mtb' then collect rchVars flds else collect frzVars flds
    let aexp := if priv then args else collect expVars flds
    let albl := if priv then args else collect expVars flbl
    let afxd := if priv then args else collect expVars ffix
    let avis := if priv then args else collect visVars fvis
    let argFlag (v : TvSymbol) : ItsFlag :=
      ⟨v ∈ afrz, v ∈ aexp, v ∈ albl, v ∈ afxd, v ∈ avis⟩
    let regFlag (r : Region) : ItsFlag :=
      ⟨r ∈ rfrz, r ∈ rexp, r ∈ rlbl, r ∈ rfxd, r ∈ rvis⟩
    .ok (.mk ts nfr priv mtb' frg (fmut.map Prod.fst) (ffix.map Prod.fst) regs
      (args.map argFlag) (regs.map regFlag))

/-! ## The flags are right -/

section Wf

theorem mem_regKeys {l : List Region} {r : Region} : r ∈ regKeys l ↔ r ∈ l := by
  have key : ∀ (m : TagMap Region Unit),
      r ∈ (l.foldl (fun m r => m.add r ()) m).keys ↔ r ∈ m.keys ∨ r ∈ l := by
    induction l with
    | nil => intro m; simp
    | cons x l ih =>
      intro m
      rw [foldl_cons, ih]
      have hadd : r ∈ (m.add x ()).keys ↔ r = x ∨ r ∈ m.keys := by
        rw [TagMap.mem_keys, TagMap.mem_keys, TagMap.find?_add]
        split <;> simp_all
      rw [hadd, mem_cons]
      tauto
  unfold regKeys
  rw [key]
  simp [TagMap.keys, TagMap.empty]

theorem topRegsList_eq (l : List Ity) : topRegsList l = l.flatMap topRegs := by
  induction l with
  | nil => rfl
  | cons t l ih => simp [topRegsList, ih]

theorem topRegs_of_expRegs {t : Ity} : ∀ {r : Region}, r ∈ t.expRegs → r ∈ t.topRegs := by
  induction t with
  | ityreg n s tl rl => intro r hr; exact hr
  | ityapp s tl rl ihtl ihrl =>
    intro r hr
    have hpure : ¬ (Ity.ityapp s tl rl).pure = true := by
      intro hp
      rw [expRegs_of_pure hp] at hr
      cases hr
    rw [expRegs_ityapp, mem_exposedIn] at hr
    obtain ⟨x, hx, _, hr⟩ := hr
    rw [topRegs, if_neg hpure, topRegsList_eq, topRegsList_eq, ← flatMap_append,
      mem_flatMap]
    rcases mem_positions_snd hx with h | h
    · exact ⟨x.2, mem_append_left _ h, ihtl _ h hr⟩
    · exact ⟨x.2, mem_append_right _ h, ihrl _ h hr⟩
  | ityvar v => intro r hr; cases hr

theorem createTysymbol_ok {id : ℕ} {args : List TvSymbol} {ts : TySymbol}
    (h : createTysymbol id args = .ok ts) : ts.tsArgs = args ∧ args.Nodup := by
  unfold createTysymbol at h
  split at h
  · cases h
  · next hnone =>
      cases h
      refine ⟨rfl, nodup_iff_count_le_one.mpr fun v => ?_⟩
      by_contra hv
      have hmem : v ∈ args := count_pos_iff.mp (by omega)
      have := find?_eq_none.mp hnone v hmem
      simp only [decide_eq_true_eq] at this
      omega

theorem lookup_zip_map {K β : Type} [DecidableEq K] {g : K → β} {k : K} {l : List K} (h : k ∈ l) :
    (l.zip (l.map g)).lookup k = some (g k) := by
  induction l with
  | nil => cases h
  | cons x l ih =>
    rw [map_cons, zip_cons_cons, List.lookup_cons]
    by_cases hx : k = x
    · subst hx
      simp
    · have hbeq : (k == x) = false := by simpa using hx
      rw [hbeq]
      exact ih ((mem_cons.mp h).resolve_left hx)

theorem mem_zip_map {K β : Type} {g : K → β} {l : List K} {x : K × β} (h : x ∈ l.zip (l.map g)) :
    x.1 ∈ l ∧ x.2 = g x.1 := by
  induction l with
  | nil => cases h
  | cons y l ih =>
    rcases mem_cons.mp h with rfl | h
    · exact ⟨mem_cons_self, rfl⟩
    · exact ⟨mem_cons_of_mem _ (ih h).1, (ih h).2⟩

theorem mem_collect {α : Type} {fn : Ity → List α} {flds : FieldList} {x : α} :
    x ∈ collect fn flds ↔ ∃ e ∈ flds, x ∈ fn e.1.pvIty :=
  mem_flatMap

/-- Flags that are functions of the parameter and of the region. -/
theorem ItySymbol.wf_of_flags {s : ItySymbol} {af : TvSymbol → ItsFlag} {rf : Region → ItsFlag}
    (hargs : s.itsArgFlg = s.itsTs.tsArgs.map af) (hregs : s.itsRegFlg = s.itsRegions.map rf)
    (hnodup : s.itsTs.tsArgs.Nodup)
    (hvar : ∀ f ∈ s.fields, ∀ v ∈ f.pvIty.expVars, v ∈ s.itsTs.tsArgs ∧ (af v).itsExposed = true)
    (hreg : ∀ f ∈ s.fields, ∀ r ∈ f.pvIty.expRegs, r ∈ s.itsRegions ∧ (rf r).itsExposed = true)
    (hfvar : ∀ f ∈ s.itsOfields, ∀ v ∈ f.pvIty.expVars, (af v).itsFixed = true)
    (hfreg : ∀ f ∈ s.itsOfields, ∀ r ∈ f.pvIty.expRegs, (rf r).itsFixed = true)
    (hafe : ∀ v, (af v).itsFixed = true → (af v).itsExposed = true)
    (hrfe : ∀ r, (rf r).itsFixed = true → (rf r).itsExposed = true)
    (hcvar : ∀ v ∈ s.itsTs.tsArgs, (af v).itsExposed = true → (af v).itsFixed = true ∨
      ∃ f ∈ s.itsMfields, v ∈ f.pvIty.expVars ∧ v ∈ f.pvIty.freevars)
    (hcreg : ∀ r ∈ s.itsRegions, (rf r).itsExposed = true → (rf r).itsFixed = true ∨
      ∃ f ∈ s.itsMfields, r ∈ f.pvIty.expRegs) : s.Wf where
  nodup := hnodup
  args := by rw [hargs, length_map]
  regs := by rw [hregs, length_map]
  fixed_exposed := by
    intro fl hfl
    rw [hargs, hregs] at hfl
    rcases mem_append.mp hfl with h | h
    · obtain ⟨v, _, rfl⟩ := mem_map.mp h
      exact hafe v
    · obtain ⟨r, _, rfl⟩ := mem_map.mp h
      exact hrfe r
  exposed_var := by
    intro f hf v hv
    obtain ⟨hmem, hexp⟩ := hvar f hf v hv
    unfold argFlag
    rw [hargs]
    exact ⟨af v, lookup_zip_map hmem, hexp⟩
  exposed_reg := by
    intro f hf r hr
    obtain ⟨hmem, hexp⟩ := hreg f hf r hr
    unfold regFlag
    rw [hregs]
    exact ⟨rf r, lookup_zip_map hmem, hexp⟩
  fixed_var := by
    intro f hf v hv fl hfl
    unfold argFlag at hfl
    rw [hargs, lookup_zip_map (hvar f (mem_append_right _ hf) v hv).1,
      Option.some.injEq] at hfl
    rw [← hfl]
    exact hfvar f hf v hv
  fixed_reg := by
    intro f hf r hr fl hfl
    unfold regFlag at hfl
    rw [hregs, lookup_zip_map (hreg f (mem_append_right _ hf) r hr).1,
      Option.some.injEq] at hfl
    rw [← hfl]
    exact hfreg f hf r hr
  covered_var := by
    intro x hx
    rw [hargs] at hx
    obtain ⟨hmem, heq⟩ := mem_zip_map hx
    rw [heq]
    exact hcvar x.1 hmem
  covered_reg := by
    intro x hx
    rw [hregs] at hx
    obtain ⟨hmem, heq⟩ := mem_zip_map hx
    rw [heq]
    exact hcreg x.1 hmem

/-- The flags of a created record type say what its fields expose; the variables
that a field exposes are variables of its type. -/
theorem createPlainRecordItysymbol_wf {priv mtb : Bool} {id : ℕ} {args : List TvSymbol}
    {flds : Mpv Bool} {invl : List Term} {s : ItySymbol}
    (hvars : ∀ f ∈ flds.keys, ∀ v ∈ f.pvIty.expVars, v ∈ f.pvIty.freevars)
    (h : createPlainRecordItysymbol priv mtb id args flds invl = .ok s) : s.Wf := by
  unfold createPlainRecordItysymbol at h
  simp only [bind_eq_ok] at h
  obtain ⟨ts, hts, ⟨flbl, fout⟩, _, h⟩ := h
  obtain ⟨rfl, hnodup⟩ := createTysymbol_ok hts
  simp only at h
  split at h
  · cases h
  · next hbound =>
      cases h
      -- mutable or not, a field of the symbol is one of the given fields
      have hmut : ∀ {f : PvSymbol}, f ∈ (flds.entries.filter (fun e => e.2)).map Prod.fst ↔
          (f, true) ∈ flds.entries := by
        intro f
        simp
      have hfix : ∀ {f : PvSymbol}, f ∈ (flds.entries.filter (fun e => !e.2)).map Prod.fst ↔
          (f, false) ∈ flds.entries := by
        intro f
        simp
      have hfields : ∀ {f : PvSymbol},
          f ∈ (flds.entries.filter (fun e => e.2)).map Prod.fst ++
            (flds.entries.filter (fun e => !e.2)).map Prod.fst → ∃ b, (f, b) ∈ flds.entries := by
        intro f hf
        rcases mem_append.mp hf with hf | hf
        · exact ⟨true, hmut.mp hf⟩
        · exact ⟨false, hfix.mp hf⟩
      have hfree : ∀ {f : PvSymbol} {b : Bool}, (f, b) ∈ flds.entries → ∀ v ∈ f.pvIty.expVars,
          v ∈ f.pvIty.freevars := by
        intro f b hf
        exact hvars f (mem_map.mpr ⟨(f, b), hf, rfl⟩)
      refine wf_of_flags rfl rfl hnodup ?_ ?_ ?_ ?_ ?_ ?_ ?_ ?_
      · intro f hf v hv
        obtain ⟨b, hb⟩ := hfields hf
        have hmem : v ∈ ts.tsArgs := by
          have := find?_eq_none.mp hbound v (mem_collect.mpr ⟨(f, b), hb, hfree hb v hv⟩)
          simpa using this
        refine ⟨hmem, decide_eq_true ?_⟩
        split
        · exact hmem
        · exact mem_collect.mpr ⟨(f, b), hb, hv⟩
      · intro f hf r hr
        obtain ⟨b, hb⟩ := hfields hf
        exact ⟨mem_regKeys.mpr (mem_collect.mpr ⟨(f, b), hb, topRegs_of_expRegs hr⟩),
          decide_eq_true (mem_collect.mpr ⟨(f, b), hb, hr⟩)⟩
      · intro f hf v hv
        refine decide_eq_true ?_
        have hb := hfix.mp hf
        split
        · have := find?_eq_none.mp hbound v (mem_collect.mpr ⟨(f, false), hb, hfree hb v hv⟩)
          simpa using this
        · exact mem_collect.mpr ⟨(f, false), mem_filter.mpr ⟨hb, rfl⟩, hv⟩
      · intro f hf r hr
        exact decide_eq_true (mem_collect.mpr
          ⟨(f, false), mem_filter.mpr ⟨hfix.mp hf, rfl⟩, hr⟩)
      · intro v hv
        refine decide_eq_true ?_
        have hv := of_decide_eq_true hv
        split at hv
        · next hp => rw [if_pos hp]; exact hv
        · next hp =>
            rw [if_neg hp]
            obtain ⟨e, he, hv⟩ := mem_collect.mp hv
            exact mem_collect.mpr ⟨e, (mem_filter.mp he).1, hv⟩
      · intro r hr
        obtain ⟨e, he, hr⟩ := mem_collect.mp (of_decide_eq_true hr)
        exact decide_eq_true (mem_collect.mpr ⟨e, (mem_filter.mp he).1, hr⟩)
      · intro v hmem hv
        have hv := of_decide_eq_true hv
        split at hv
        · next hp =>
            refine .inl (decide_eq_true ?_)
            rw [if_pos hp]
            exact hv
        · next hp =>
            obtain ⟨⟨f, b⟩, he, hv⟩ := mem_collect.mp hv
            cases b with
            | true => exact .inr ⟨f, hmut.mpr he, hv, hfree he v hv⟩
            | false =>
              refine .inl (decide_eq_true ?_)
              rw [if_neg hp]
              exact mem_collect.mpr ⟨(f, false), mem_filter.mpr ⟨he, rfl⟩, hv⟩
      · intro r hmem hr
        obtain ⟨⟨f, b⟩, he, hr⟩ := mem_collect.mp (of_decide_eq_true hr)
        cases b with
        | true => exact .inr ⟨f, hmut.mpr he, hr⟩
        | false =>
          exact .inl (decide_eq_true (mem_collect.mpr
            ⟨(f, false), mem_filter.mpr ⟨he, rfl⟩, hr⟩))

end Wf

/-! ## Nested references

A reference, a record that holds one in a field that is not mutable, and a
record that holds the latter in a mutable field. -/

namespace Refs

def itsInt : ItySymbol := .mk (.mk 0 [] .noDef) false false false false [] [] [] [] []

def ityInt : Ity := .ityapp itsInt [] []

def contents : PvSymbol := .mk ⟨1, .tyapp itsInt.itsTs []⟩ ityInt false

/-- `type ref = { mutable contents : int }` -/
def itsRef : ItySymbol := .mk (.mk 1 [] .noDef) false false true false [contents] [] [] [] []

def ref (k : ℕ) : Region := .mk k itsRef [] []

def inner : PvSymbol := .mk ⟨2, .tyapp itsRef.itsTs []⟩ (.ityreg (ref 10)) false

def count : PvSymbol := .mk ⟨3, .tyapp itsInt.itsTs []⟩ ityInt false

/-- `type cell = { inner : ref; mutable count : int }` -/
def itsCell : ItySymbol :=
  .mk (.mk 2 [] .noDef) false false true false [count] [inner] [ref 10] []
    [⟨false, true, false, true, true⟩]

def cell (k l : ℕ) : Region := .mk k itsCell [] [.ityreg (ref l)]

def item : PvSymbol := .mk ⟨4, .tyapp itsCell.itsTs []⟩ (.ityreg (cell 11 12)) false

/-- `type box = { mutable item : cell }` -/
def itsBox : ItySymbol :=
  .mk (.mk 3 [] .noDef) false false true false [item] [] [cell 11 12] []
    [⟨false, true, false, false, true⟩]

def box (k l m : ℕ) : Region := .mk k itsBox [] [.ityreg (cell l m)]

theorem itsRef_created :
    createPlainRecordItysymbol false true 1 [] (TagMap.empty.add contents true) [] =
      .ok itsRef := rfl

theorem itsCell_created :
    createPlainRecordItysymbol false true 2 []
      ((TagMap.empty.add inner false).add count true) [] = .ok itsCell := rfl

theorem itsBox_created :
    createPlainRecordItysymbol false true 3 [] (TagMap.empty.add item true) [] =
      .ok itsBox := rfl

end Refs

end Why3
