import Why3.Mlw.PlainRecord

/-!
# The write map of an assignment in the VC generator

`k_expr` of `mlw/vc.ml`, case `Eassign`: the generator gives new values to what
an assignment changes.  It computes the region transitions again, from the
surviving written regions, and moves each write to the region in whose place the
written region is found afterwards.
-/

namespace Why3

/-- `add`: the assigned variables, field by field. -/
def vcAddAssign (wr : Mreg (Mpv PvSymbol)) (a : Assign) : Except EffExn (Mreg (Mpv PvSymbol)) := do
  let (r, f, v) := a
  let r ← getReg r
  match wr.find? r with
  | none => .ok (wr.add r (TagMap.empty.add f v))
  | some s => .ok (wr.add r (s.add f v))

/-- The type of a mutable field after the writes, without any check. -/
def vcFieldTy (r : Region) (wfs : Mpv PvSymbol) (f : PvSymbol) : Except EffExn Ity :=
  match wfs.find? f with
  | some v => .ok v.pvIty
  | none =>
    match r.fieldTy f with
    | some t => .ok t
    | none => .error (.badRegion r)

/-- `reg_rexp` of the generator, which looks at the mutable fields only. -/
def vcRegRexp (r : Region) (wfs : Mpv PvSymbol) : Except EffExn (List Region) :=
  match itsMatchRegs r.regIts r.regArgs r.regRegs with
  | none => .error (.badRegion r)
  | some _ => do
    let tl ← r.regIts.itsMfields.mapM (vcFieldTy r wfs)
    .ok (tl.flatMap Ity.expRegs).reverse

/-- `stitch` and `link` of the generator: the map from the regions that come to
the regions whose place they take. -/
def vcStitch (wr : Mreg (Mpv PvSymbol)) : ℕ → Mreg Region → Region → Region → Mpv PvSymbol →
    Except EffExn (Mreg Region)
  | 0, _, _, _, _ => .error .outOfFuel
  | n + 1, t2f, rf, rt, wfs => do
    let fl ← vcRegRexp rf .empty
    let tl ← vcRegRexp rt wfs
    if fl.length = tl.length then
      (fl.zip tl).foldlM
        (fun t2f p => vcStitch wr n t2f p.1 p.2 (wr.findD p.2 .empty)) (t2f.add rt rf)
    else .error .invalidArgument

/-- The write effect rearranged according to the renaming. -/
def moveWrites (t2f : Mreg Region) (wr : Mreg (Mpv PvSymbol)) : Mreg (Mpv (Option PvSymbol)) :=
  wr.entries.foldl (fun acc e =>
    match t2f.find? e.1 with
    | some rf => acc.add rf (e.2.map some)
    | none => acc) .empty

/-- The write map that `Khavoc` gets (none when no written region survives). -/
def khavocWrites (covers : List Region) (asl : List Assign) :
    Except EffExn (Mreg (Mpv (Option PvSymbol))) := do
  if covers = [] then .ok .empty
  else
    let wr ← asl.foldlM vcAddAssign .empty
    let t2f ← (wr.entries.filter (fun e => e.1 ∈ covers)).foldlM
      (fun t2f e => vcStitch wr e.1.height t2f e.1 e.1 e.2) .empty
    .ok (moveWrites t2f wr)

end Why3

/-!
# The write map follows the region transitions

The VC generator moves each write to the region in whose place the written
region is found.  It looks for it through mutable fields only, while the
transitions of `eff_assign` also follow the fixed positions; the write map is
right exactly when this makes no difference for the written regions.
-/

namespace Why3

open Checks Paired Relation List TagMap

/-! ## The two maps of writes -/

variable {writes : Mreg (Mpv Ity)}

section Writes

variable {α : Type}

/-- A field of a region in a map of writes. -/
def writeOf (m : Mreg (Mpv α)) (r : Region) (f : PvSymbol) : Option α :=
  (m.findD r .empty).find? f

/-- One more write. -/
def addField (m : Mreg (Mpv α)) (r : Region) (f : PvSymbol) (x : α) : Mreg (Mpv α) :=
  m.add r ((m.findD r .empty).add f x)

variable {f : PvSymbol} {r : Region}

theorem writeOf_addField {m : Mreg (Mpv α)} {r' : Region} {f' : PvSymbol} {x : α} :
    writeOf (addField m r f x) r' f' = if r' = r ∧ f' = f then some x else writeOf m r' f' := by
  unfold writeOf addField
  by_cases hr : r' = r
  · subst hr
    have h : ((m.add r' ((m.findD r' .empty).add f x)).findD r' .empty) =
        (m.findD r' .empty).add f x := by
      rw [findD, find?_add_self]
      rfl
    rw [h, find?_add]
    simp
  · have h : (m.add r ((m.findD r .empty).add f x)).findD r' .empty = m.findD r' .empty := by
      rw [findD, find?_add_of_ne hr]
      rfl
    rw [h, if_neg (fun h => hr h.1)]

theorem mem_keys_addField {m : Mreg (Mpv α)} {r' : Region} {x : α} :
    r' ∈ (addField m r f x).keys ↔ r' = r ∨ r' ∈ m.keys := by
  rw [TagMap.mem_keys, TagMap.mem_keys]
  unfold addField
  rw [find?_add]
  split <;> simp_all

/-- The two maps agree. -/
structure SameWrites (writes : Mreg (Mpv Ity)) (wr : Mreg (Mpv PvSymbol)) : Prop where
  keys : ∀ r, r ∈ writes.keys ↔ r ∈ wr.keys
  fields : ∀ r f, writeOf writes r f = (writeOf wr r f).map PvSymbol.pvIty

theorem addAssign_ok {w w' : Mreg (Mpv Ity)} {x v : PvSymbol} (h : addAssign w (x, f, v) = .ok w') :
    ∃ r, x.pvIty = .ityreg r ∧ f ∈ r.regIts.itsMfields ∧ writeOf w r f = none ∧
      w' = addField w r f v.pvIty := by
  unfold addAssign at h
  rw [bind_eq_ok] at h
  obtain ⟨r, hr, h⟩ := h
  have hx : x.pvIty = .ityreg r := by
    unfold getReg at hr
    split at hr
    · next r' hx =>
        cases hr
        exact hx
    · cases hr
  refine ⟨r, hx, ?_⟩
  split at h
  · cases h
  · next hf =>
      refine ⟨not_not.mp hf, ?_⟩
      split at h
      · cases h
      · split at h
        · next hnone =>
            cases h
            have hd : w.findD r .empty = .empty := by
              rw [findD, hnone]
              rfl
            unfold writeOf addField
            rw [hd]
            exact ⟨rfl, rfl⟩
        · next fs hfs =>
            have hd : w.findD r .empty = fs := by
              rw [findD, hfs]
              rfl
            split at h
            · cases h
            · next hnone =>
                cases h
                unfold writeOf addField
                rw [hd]
                exact ⟨hnone, rfl⟩

theorem vcAddAssign_eq {wr : Mreg (Mpv PvSymbol)} {x v : PvSymbol} (hx : x.pvIty = .ityreg r) :
    vcAddAssign wr (x, f, v) = .ok (addField wr r f v) := by
  have hr : getReg x = .ok r := by
    unfold getReg
    rw [hx]
  unfold vcAddAssign
  simp only [hr]
  show (match wr.find? r with
    | none => Except.ok (wr.add r (TagMap.empty.add f v))
    | some s => .ok (wr.add r (s.add f v))) = _
  unfold addField findD
  split
  · next hnone =>
      rw [hnone]
      rfl
  · next s hs =>
      rw [hs]
      rfl

/-- The field `f` of the region `r` is assigned `v`. -/
def Assigned (asl : List Assign) (r : Region) (f v : PvSymbol) : Prop :=
  ∃ x, (x, f, v) ∈ asl ∧ x.pvIty = .ityreg r

/-- The generator collects what `eff_assign` accepts. -/
theorem vcAddAssigns_ok {asl : List Assign} : ∀ {w w' : Mreg (Mpv Ity)} {wr : Mreg (Mpv PvSymbol)},
    SameWrites w wr → asl.foldlM addAssign w = .ok w' →
    ∃ wr', asl.foldlM vcAddAssign wr = .ok wr' ∧ SameWrites w' wr' ∧
      (∀ r, r ∈ wr'.keys ↔ r ∈ wr.keys ∨ ∃ f v, Assigned asl r f v) ∧
      ∀ r f v, writeOf wr' r f = some v ↔ writeOf wr r f = some v ∨ Assigned asl r f v := by
  induction asl with
  | nil =>
    intro w w' wr hsame h
    cases h
    exact ⟨wr, rfl, hsame, by simp [Assigned], by simp [Assigned]⟩
  | cons a asl ih =>
    intro w w' wr hsame h
    obtain ⟨x, f, v⟩ := a
    rw [foldlM_cons, bind_eq_ok] at h
    obtain ⟨w₁, hw₁, h⟩ := h
    obtain ⟨r, hx, hf, hnone, rfl⟩ := addAssign_ok hw₁
    have hnew : writeOf wr r f = none := by
      have := hsame.fields r f
      rw [hnone] at this
      simpa using this.symm
    have hsame₁ : SameWrites (addField w r f v.pvIty) (addField wr r f v) := by
      constructor
      · intro r'
        rw [mem_keys_addField, mem_keys_addField, hsame.keys]
      · intro r' f'
        rw [writeOf_addField, writeOf_addField, hsame.fields]
        split <;> rfl
    obtain ⟨wr', hwr', hsame', hkeys, hval⟩ := ih hsame₁ h
    have hcons : ∀ r' f' v', Assigned ((x, f, v) :: asl) r' f' v' ↔
        (r' = r ∧ f' = f ∧ v' = v) ∨ Assigned asl r' f' v' := by
      intro r' f' v'
      constructor
      · rintro ⟨y, hy, hyr⟩
        rcases mem_cons.mp hy with heq | hy
        · cases heq
          rw [hx, Ity.ityreg.injEq] at hyr
          exact .inl ⟨hyr.symm, rfl, rfl⟩
        · exact .inr ⟨y, hy, hyr⟩
      · rintro (⟨rfl, rfl, rfl⟩ | ⟨y, hy, hyr⟩)
        · exact ⟨x, mem_cons_self, hx⟩
        · exact ⟨y, mem_cons_of_mem _ hy, hyr⟩
    refine ⟨wr', ?_, hsame', fun r' => ?_, fun r' f' v' => ?_⟩
    · rw [foldlM_cons, bind_eq_ok]
      exact ⟨_, vcAddAssign_eq hx, hwr'⟩
    · rw [hkeys, mem_keys_addField]
      simp only [hcons]
      constructor
      · rintro ((rfl | hmem) | ⟨f', v', h⟩)
        · exact .inr ⟨f, v, .inl ⟨rfl, rfl, rfl⟩⟩
        · exact .inl hmem
        · exact .inr ⟨f', v', .inr h⟩
      · rintro (hmem | ⟨f', v', ⟨rfl, _⟩ | h⟩)
        · exact .inl (.inr hmem)
        · exact .inl (.inl rfl)
        · exact .inr ⟨f', v', h⟩
    · rw [hval, hcons, writeOf_addField]
      split
      · next hrf =>
          obtain ⟨rfl, rfl⟩ := hrf
          rw [hnew]
          simp [eq_comm]
      · next hrf =>
          constructor
          · rintro (h | h)
            · exact .inl h
            · exact .inr (.inr h)
          · rintro (h | ⟨rfl, rfl, _⟩ | h)
            · exact .inl h
            · exact absurd ⟨rfl, rfl⟩ hrf
            · exact .inr h

/-- The writes that `eff_assign` collects. -/
def writesOf (asl : List Assign) : Mreg (Mpv Ity) :=
  match asl.foldlM addAssign .empty with
  | .ok writes => writes
  | .error _ => .empty

theorem Accepted.writesOf_eq {asl : List Assign} {eff : Effekt}
    {acc : Resets} (h : Accepted asl eff writes acc) : writesOf asl = writes := by
  unfold writesOf
  rw [h.collected]

theorem collected_ok {asl : List Assign}
    (h : asl.foldlM addAssign .empty = .ok writes) :
    ∃ wr, asl.foldlM vcAddAssign .empty = .ok wr ∧ SameWrites writes wr ∧
      (∀ r, r ∈ wr.keys ↔ ∃ f v, Assigned asl r f v) ∧
      ∀ r f v, writeOf wr r f = some v ↔ Assigned asl r f v := by
  have hempty : SameWrites .empty .empty := ⟨fun r => Iff.rfl, fun r f => rfl⟩
  obtain ⟨wr, hwr, hsame, hkeys, hval⟩ := vcAddAssigns_ok hempty h
  refine ⟨wr, hwr, hsame, fun r => ?_, fun r f v => ?_⟩
  · rw [hkeys]
    simp [TagMap.keys, TagMap.empty]
  · rw [hval]
    simp [writeOf, TagMap.findD, TagMap.find?, TagMap.empty]

end Writes

/-! ## The transitions of the generator -/

section Stitch

variable {writes : Mreg (Mpv Ity)} {wr : Mreg (Mpv PvSymbol)} {fs : Mpv Ity}

theorem vcFieldTy_eq {r : Region} {wfs : Mpv PvSymbol} {f : PvSymbol} {t : Ity}
    (hfs : fs.find? f = (wfs.find? f).map PvSymbol.pvIty) (h : newFieldTy fs r f = some t) :
    vcFieldTy r wfs f = .ok t := by
  unfold newFieldTy at h
  unfold vcFieldTy
  cases hw : wfs.find? f with
  | some v =>
    rw [hfs, hw] at h
    cases h
    rfl
  | none =>
    rw [hfs, hw] at h
    simp only [Option.map_none] at h
    simp only [h]

theorem forall₂_newFieldTy {r : Region} {l : List Region} (h : regRexp r fs = .ok l) :
    ∃ tl, List.Forall₂ (fun f t => newFieldTy fs r f = some t) r.regIts.itsMfields tl := by
  obtain ⟨tl, htl, _⟩ := regRexp_ok h
  exact ⟨tl, htl.imp (fun f t h => (mfieldTy_ok h).1)⟩

theorem vcRegRexp_eq {r : Region} {wfs : Mpv PvSymbol}
    (hmatch : ∃ sbs, itsMatchRegs r.regIts r.regArgs r.regRegs = some sbs)
    (hfs : ∀ f, fs.find? f = (wfs.find? f).map PvSymbol.pvIty) {tl : List Ity}
    (h : List.Forall₂ (fun f t => newFieldTy fs r f = some t) r.regIts.itsMfields tl) :
    vcRegRexp r wfs = .ok (tl.flatMap Ity.expRegs).reverse := by
  obtain ⟨sbs, hsbs⟩ := hmatch
  unfold vcRegRexp
  rw [hsbs]
  simp only [bind_eq_ok]
  refine ⟨tl, mapM_eq_ok.mpr ?_, rfl⟩
  exact h.imp (fun f t h => vcFieldTy_eq (hfs f) h)

/-- The pairs that the generator links are the steps through mutable fields. -/
theorem vcRegRexp_zip (hsame : SameWrites writes wr) {p : Region × Region}
    (hp : Stitched writes p) :
    ∃ fl tl, vcRegRexp p.1 .empty = .ok fl ∧ vcRegRexp p.2 (wr.findD p.2 .empty) = .ok tl ∧
      fl.length = tl.length ∧ ∀ q, q ∈ fl.zip tl ↔ MutStep writes p q := by
  obtain ⟨l₁, hl₁⟩ := hp.from'
  obtain ⟨l₂, hl₂⟩ := hp.to'
  obtain ⟨tl₁, h₁⟩ := forall₂_newFieldTy hl₁
  obtain ⟨tl₂, h₂⟩ := forall₂_newFieldTy hl₂
  have hfl : vcRegRexp p.1 .empty = _ := vcRegRexp_eq (regRexp_match hl₁) (fun f => rfl) h₁
  have htl : vcRegRexp p.2 (wr.findD p.2 .empty) = _ :=
    vcRegRexp_eq (regRexp_match hl₂) (fun f => hsame.fields p.2 f) h₂
  rw [← Region.regIts_of_erase hp.same] at h₂
  have hlen := length_flatMap_eq (forall₂_field_types hp h₁ h₂)
  refine ⟨_, _, hfl, htl, ?_, fun q => ?_⟩
  · rw [length_reverse, length_reverse, hlen]
  · rw [mem_zip_reverse hlen, mem_zip_mutable hp h₁ h₂]

/-- The map that the generator builds holds all pairs reached through mutable
fields; `G` are pairs that agree on the regions they start from. -/
theorem vcStitch_ok (hsame : SameWrites writes wr) {G : Region × Region → Prop}
    (hst : ∀ p, G p → Stitched writes p) (hstep : ∀ {p q}, G p → MutStep writes p q → G q)
    (hinj : ∀ {p q}, G p → G q → p.2 = q.2 → p.1 = q.1) :
    ∀ (n : ℕ) {t2f : Mreg Region} {p : Region × Region}, G p → p.1.height ≤ n →
      (∀ w x, t2f.find? w = some x → G (x, w)) →
      ∃ t2f', vcStitch wr n t2f p.1 p.2 (wr.findD p.2 .empty) = .ok t2f' ∧
        (∀ w x, t2f'.find? w = some x → G (x, w)) ∧
        ∀ q : Region × Region, t2f'.find? q.2 = some q.1 ↔
          t2f.find? q.2 = some q.1 ∨ ReflTransGen (MutStep writes) p q := by
  intro n
  induction n with
  | zero =>
    intro t2f p _ hn
    obtain ⟨⟨_, _, _, _⟩, _⟩ := p
    exact absurd hn (Nat.not_succ_le_zero _)
  | succ n ih =>
    intro t2f p hp hn hI
    obtain ⟨fl, tl, hfl, htl, hlen, hzip⟩ := vcRegRexp_zip hsame (hst p hp)
    have hI₁ : ∀ w x, (t2f.add p.2 p.1).find? w = some x → G (x, w) := by
      intro w x hx
      rw [find?_add] at hx
      split at hx
      · next hw =>
          cases hx
          rw [hw]
          exact hp
      · exact hI w x hx
    obtain ⟨t2f', hok, hI', hmem⟩ := foldlM_collect_total
      (I := fun t2f : Mreg Region => ∀ w x, t2f.find? w = some x → G (x, w))
      (H := fun t2f (q : Region × Region) => t2f.find? q.2 = some q.1)
      (S := fun q q' => ReflTransGen (MutStep writes) q q')
      (f := fun t2f q => vcStitch wr n t2f q.1 q.2 (wr.findD q.2 .empty)) hI₁
      (fun q hq t2f hI => by
        have hq := (hzip q).mp hq
        have hlt : q.1.height < p.1.height := PlaceStep.height (.inl hq : PlaceStep writes p q)
        exact ih (hstep hp hq) (by omega) hI)
    refine ⟨t2f', ?_, hI', fun q => ?_⟩
    · unfold vcStitch
      simp only [bind_eq_ok]
      refine ⟨fl, hfl, tl, htl, ?_⟩
      rw [if_pos hlen]
      exact hok
    · have hadd : (t2f.add p.2 p.1).find? q.2 = some q.1 ↔
          t2f.find? q.2 = some q.1 ∨ p = q := by
        rw [find?_add]
        split
        · next hw =>
            constructor
            · intro h
              rw [Option.some.injEq] at h
              exact .inr (Prod.ext h hw.symm)
            · rintro (h | rfl)
              · rw [hinj hp (hI _ _ h) hw.symm]
              · rfl
        · next hw =>
            constructor
            · exact .inl
            · rintro (h | rfl)
              · exact h
              · exact absurd rfl hw
      rw [hmem, hadd, or_assoc]
      apply or_congr_right
      rw [ReflTransGen.cases_head_iff]
      apply or_congr_right
      constructor
      · rintro ⟨x, hx, h⟩
        exact ⟨x, (hzip x).mp hx, h⟩
      · rintro ⟨x, hx, h⟩
        exact ⟨x, (hzip x).mpr hx, h⟩

end Stitch

/-! ## The write map -/

section WriteMap

/-- Moving the bindings of a map along a partial function that is injective on
its keys. -/
theorem find?_moved {α β : Type} {g : Region → Option Region} {h : α → β} {l : List (Region × α)}
    (hnd : (l.map Prod.fst).Nodup)
    (hinj : ∀ e ∈ l, ∀ e' ∈ l, ∀ rf, g e.1 = some rf → g e'.1 = some rf → e.1 = e'.1) :
    ∀ {acc : Mreg β} {rf : Region} {m : β},
      (l.foldl (fun acc e =>
        match g e.1 with
        | some rf => acc.add rf (h e.2)
        | none => acc) acc).find? rf = some m ↔
      (∃ e ∈ l, g e.1 = some rf ∧ m = h e.2) ∨
        (acc.find? rf = some m ∧ ∀ e ∈ l, g e.1 ≠ some rf) := by
  induction l with
  | nil =>
    intro acc rf m
    simp
  | cons e l ih =>
    intro acc rf m
    rw [map_cons, nodup_cons] at hnd
    rw [foldl_cons, ih hnd.2
      (fun x hx y hy => hinj x (mem_cons_of_mem _ hx) y (mem_cons_of_mem _ hy))]
    by_cases he : g e.1 = some rf
    · -- no later entry goes to the same region
      have hother : ∀ x ∈ l, g x.1 ≠ some rf := by
        intro x hx hg
        have := hinj e mem_cons_self x (mem_cons_of_mem _ hx) rf he hg
        exact hnd.1 (mem_map.mpr ⟨x, hx, this.symm⟩)
      simp only [he, find?_add_self, Option.some.injEq, mem_cons, exists_eq_or_imp,
        forall_eq_or_imp, ne_eq, not_true_eq_false, false_and, and_false, or_false, true_and]
      constructor
      · rintro (⟨x, hx, hg, rfl⟩ | ⟨rfl, _⟩)
        · exact absurd hg (hother x hx)
        · exact .inl rfl
      · rintro (rfl | ⟨x, hx, hg, rfl⟩)
        · exact .inr ⟨rfl, hother⟩
        · exact absurd hg (hother x hx)
    · have hfind : (match g e.1 with
        | some rf => acc.add rf (h e.2)
        | none => acc).find? rf = acc.find? rf := by
        split
        · next rf' hrf' =>
            apply find?_add_of_ne
            rintro rfl
            exact he hrf'
        · rfl
      rw [hfind]
      simp [he]

/-- After the assignments the region `w` is found where `rf` is expected under a
surviving written region, as `eff_assign` computes it. -/
def Moved (asl : List Assign) (eff : Effekt) (rf w : Region) : Prop :=
  (rf = w ∧ w ∈ eff.effCovers) ∨
    ∃ r ∈ eff.effCovers, ∃ fs pl, (writesOf asl).find? r = some fs ∧
      transitions (writesOf asl) r fs = .ok pl ∧ (rf, w) ∈ pl

/-- The write map holds the assigned values of every written region, at the
region in whose place it is found, and no other write. -/
structure Faithful (asl : List Assign) (eff : Effekt) (wr' : Mreg (Mpv (Option PvSymbol))) :
    Prop where
  moved : ∀ rf w, w ∈ (writesOf asl).keys → Moved asl eff rf w →
    ∃ m, wr'.find? rf = some m ∧ ∀ f o, m.find? f = some o ↔ ∃ v, Assigned asl w f v ∧ o = some v
  only : ∀ rf m, wr'.find? rf = some m → ∃ w ∈ (writesOf asl).keys, Moved asl eff rf w

/-- Every written region that is found under a surviving written region is found
there through mutable fields. -/
def MutablePaths (asl : List Assign) (eff : Effekt) : Prop :=
  ∀ r ∈ eff.effCovers, ∀ rf w, TransGen (PlaceStep (writesOf asl)) (r, r) (rf, w) →
    w ∈ (writesOf asl).keys →
      ∃ r' ∈ eff.effCovers, ReflTransGen (MutStep (writesOf asl)) (r', r') (rf, w)

variable {asl : List Assign} {eff : Effekt} {acc : Resets}

theorem moved_iff (h : Accepted asl eff writes acc) {rf w : Region} :
    Moved asl eff rf w ↔ CoveredPair eff writes (rf, w) := by
  unfold Moved CoveredPair
  rw [h.writesOf_eq]
  constructor
  · rintro (⟨rfl, hw⟩ | ⟨r, hr, fs, pl, hfs, hpl, hmem⟩)
    · exact ⟨rf, hw, .refl⟩
    · exact ⟨r, hr, (((transitions_ok hfs hpl).1 _).mp hmem).to_reflTransGen⟩
  · rintro ⟨r, hr, hp⟩
    rcases reflTransGen_iff_eq_or_transGen.mp hp with heq | hp
    · cases heq
      exact .inl ⟨rfl, hr⟩
    · obtain ⟨⟨fs, hfs⟩, _⟩ := h.mem_covers.mp hr
      obtain ⟨pl, hpl, _⟩ := h.trans r fs hfs
      exact .inr ⟨r, hr, fs, pl, hfs, hpl, ((transitions_ok hfs hpl).1 _).mpr hp⟩

/-- Reached through mutable fields under a surviving written region. -/
def MutReached (eff : Effekt) (writes : Mreg (Mpv Ity)) (p : Region × Region) : Prop :=
  ∃ r ∈ eff.effCovers, ReflTransGen (MutStep writes) (r, r) p

theorem MutReached.covered {p : Region × Region}
    (h : MutReached eff writes p) : CoveredPair eff writes p := by
  obtain ⟨r, hr, hp⟩ := h
  have hmono : MutStep writes ≤ PlaceStep writes := fun _ _ h => .inl h
  exact ⟨r, hr, ReflTransGen.mono hmono _ _ hp⟩

/-- The map of the generator, from the regions that come to those whose place
they take. -/
theorem vcStitch_covers (h : Accepted asl eff writes acc)
    {wr : Mreg (Mpv PvSymbol)} (hsame : SameWrites writes wr) :
    ∃ t2f : Mreg Region, (wr.entries.filter (fun e => e.1 ∈ eff.effCovers)).foldlM
        (fun t2f e => vcStitch wr e.1.height t2f e.1 e.1 e.2) .empty = .ok t2f ∧
      ∀ q : Region × Region, t2f.find? q.2 = some q.1 ↔ MutReached eff writes q := by
  have hG : ∀ {p q}, CoveredPair eff writes p → MutStep writes p q → CoveredPair eff writes q := by
    rintro p q ⟨r, hr, hp⟩ hq
    exact ⟨r, hr, hp.tail (.inl hq)⟩
  obtain ⟨t2f, hok, _, hmem⟩ := foldlM_collect_total
    (l := wr.entries.filter (fun e => e.1 ∈ eff.effCovers)) (b := (.empty : Mreg Region))
    (I := fun t2f : Mreg Region => ∀ w x, t2f.find? w = some x → CoveredPair eff writes (x, w))
    (H := fun t2f (q : Region × Region) => t2f.find? q.2 = some q.1)
    (S := fun e q => ReflTransGen (MutStep writes) (e.1, e.1) q)
    (f := fun t2f e => vcStitch wr e.1.height t2f e.1 e.1 e.2) (by intro w x hx; cases hx)
    (fun e he t2f hI => by
      rw [mem_filter, decide_eq_true_eq] at he
      have hfs : wr.findD e.1 .empty = e.2 := by
        unfold findD
        rw [TagMap.find?_eq_some_iff.mpr he.1]
        rfl
      rw [← hfs]
      exact vcStitch_ok hsame (fun p => h.stitched) hG h.pair_right e.1.height (p := (e.1, e.1))
        ⟨e.1, he.2, .refl⟩ le_rfl hI)
  refine ⟨t2f, hok, fun q => ?_⟩
  rw [hmem, find?_empty]
  constructor
  · rintro (hq | ⟨e, he, hq⟩)
    · cases hq
    · rw [mem_filter, decide_eq_true_eq] at he
      exact ⟨e.1, he.2, hq⟩
  · rintro ⟨r, hr, hq⟩
    obtain ⟨hfs, _⟩ := h.mem_covers.mp hr
    obtain ⟨wfs, hwfs⟩ := TagMap.mem_keys.mp ((hsame.keys r).mp (TagMap.mem_keys.mpr hfs))
    refine .inr ⟨(r, wfs), ?_, hq⟩
    rw [mem_filter, decide_eq_true_eq]
    exact ⟨TagMap.find?_eq_some_iff.mp hwfs, hr⟩

/-- What `k_expr` passes to `Khavoc`: the writes of the regions reached through
mutable fields. -/
theorem khavocWrites_ok (h : Accepted asl eff writes acc) :
    ∃ wr', khavocWrites eff.effCovers asl = .ok wr' ∧
      (∀ rf m, wr'.find? rf = some m → ∃ w ∈ writes.keys, MutReached eff writes (rf, w)) ∧
      ∀ rf w, w ∈ writes.keys → MutReached eff writes (rf, w) → ∃ m, wr'.find? rf = some m ∧
        ∀ f o, m.find? f = some o ↔ ∃ v, Assigned asl w f v ∧ o = some v := by
  obtain ⟨wr, hwr, hsame, _, hval⟩ := collected_ok h.collected
  unfold khavocWrites
  by_cases hcov : eff.effCovers = []
  · refine ⟨.empty, by rw [if_pos hcov], ?_, ?_⟩
    · intro rf m hm
      cases hm
    · rintro rf w _ ⟨r, hr, _⟩
      rw [hcov] at hr
      cases hr
  · obtain ⟨t2f, hok, hmem⟩ := vcStitch_covers h hsame
    rw [if_neg hcov]
    refine ⟨moveWrites t2f wr, ?_, ?_⟩
    · simp only [bind_eq_ok]
      exact ⟨wr, hwr, t2f, hok, rfl⟩
    · -- two written regions do not take the same place
      have hinj : ∀ e ∈ wr.entries, ∀ e' ∈ wr.entries, ∀ rf, t2f.find? e.1 = some rf →
          t2f.find? e'.1 = some rf → e.1 = e'.1 := by
        intro e _ e' _ rf he he'
        exact h.pair_left ((hmem (rf, e.1)).mp he).covered ((hmem (rf, e'.1)).mp he').covered rfl
      have hfind := @find?_moved _ _ t2f.find? (TagMap.map some) wr.entries wr.nodup hinj .empty
      constructor
      · intro rf m hm
        rcases hfind.mp hm with ⟨e, he, hg, _⟩ | ⟨hempty, _⟩
        · refine ⟨e.1, ?_, (hmem (rf, e.1)).mp hg⟩
          rw [hsame.keys, TagMap.mem_keys]
          exact ⟨e.2, TagMap.find?_eq_some_iff.mpr he⟩
        · cases hempty
      · intro rf w hw hreach
        rw [hsame.keys, TagMap.mem_keys] at hw
        obtain ⟨wfs, hwfs⟩ := hw
        refine ⟨wfs.map some, hfind.mpr (.inl ⟨(w, wfs), TagMap.find?_eq_some_iff.mp hwfs,
          (hmem (rf, w)).mpr hreach, rfl⟩), fun f o => ?_⟩
        have hfield : ∀ v, wfs.find? f = some v ↔ Assigned asl w f v := by
          intro v
          rw [← hval]
          unfold writeOf TagMap.findD
          rw [hwfs]
          exact Iff.rfl
        rw [TagMap.find?_map, Option.map_eq_some_iff]
        simp only [hfield, eq_comm]

/-- The write map is faithful exactly when the written regions are found through
mutable fields. -/
theorem faithful_iff_mutablePaths (asl : List Assign) (eff : Effekt)
    (h : effAssign asl = .ok eff) :
    (∃ wr', khavocWrites eff.effCovers asl = .ok wr' ∧ Faithful asl eff wr') ↔
      MutablePaths asl eff := by
  obtain ⟨writes, acc, hacc⟩ := effAssign_ok h
  obtain ⟨wr', hok, honly, hmoved⟩ := khavocWrites_ok hacc
  unfold MutablePaths
  rw [hacc.writesOf_eq]
  constructor
  · rintro ⟨wr₁, hwr₁, hfaith⟩ r hr rf w hp hw
    rw [hok, Except.ok.injEq] at hwr₁
    subst hwr₁
    rw [← hacc.writesOf_eq] at hw
    have hpair : CoveredPair eff writes (rf, w) := ⟨r, hr, hp.to_reflTransGen⟩
    obtain ⟨m, hm, _⟩ := hfaith.moved rf w hw ((moved_iff hacc).mpr hpair)
    obtain ⟨w', _, hreach⟩ := honly rf m hm
    have heq : w' = w := hacc.pair_left hreach.covered hpair rfl
    rw [← heq]
    exact hreach
  · intro hpaths
    refine ⟨wr', hok, ?_, ?_⟩
    · intro rf w hw hm
      rw [hacc.writesOf_eq] at hw
      obtain ⟨r, hr, hp⟩ := (moved_iff hacc).mp hm
      rcases reflTransGen_iff_eq_or_transGen.mp hp with heq | hp
      · cases heq
        exact hmoved rf rf hw ⟨rf, hr, .refl⟩
      · exact hmoved rf w hw (hpaths r hr rf w hp hw)
    · intro rf m hm
      obtain ⟨w, hw, hreach⟩ := honly rf m hm
      rw [hacc.writesOf_eq]
      exact ⟨w, hw, (moved_iff hacc).mpr hreach.covered⟩

end WriteMap

/-! ## A write that is lost

`(x.item, z.contents) <- (y, n)` where `z` is the reference of the cell `y`: the
reference comes under `x` through a field that is not mutable. -/

namespace Refs

def x : PvSymbol := .mk ⟨20, .tyapp itsBox.itsTs []⟩ (.ityreg (box 1 2 3)) false

def y : PvSymbol := .mk ⟨21, .tyapp itsCell.itsTs []⟩ (.ityreg (cell 4 5)) false

def z : PvSymbol := .mk ⟨22, .tyapp itsRef.itsTs []⟩ (.ityreg (ref 5)) false

def n : PvSymbol := .mk ⟨23, .tyapp itsInt.itsTs []⟩ ityInt false

def asl : List Assign := [(x, item, y), (z, contents, n)]

def aslEff : Effekt where
  effReads := asl.foldl (fun s a => (s.add a.2.2 ()).add a.1 ()) .empty
  effWrites := (TagMap.empty.add (ref 5) [contents]).add (box 1 2 3) [item]
  effTaints := []
  effCovers := [box 1 2 3]
  effResets := [cell 2 3, cell 4 5, ref 3, ref 5]
  effSpoils := []
  effOneway := .total
  effGhost := false

theorem effAssign_asl : effAssign asl = .ok aslEff := rfl

theorem transitions_asl :
    transitions (writesOf asl) (box 1 2 3) (TagMap.empty.add item (.ityreg (cell 4 5))) =
      .ok [(ref 3, ref 5), (cell 2 3, cell 4 5)] := rfl

/-- The reference is expected in the place of another one, where the write map
has no write. -/
theorem not_faithful_asl :
    ¬ ∀ (asl : List Assign) (eff : Effekt), effAssign asl = .ok eff →
      ∃ wr', khavocWrites eff.effCovers asl = .ok wr' ∧ Faithful asl eff wr' := by
  intro h
  obtain ⟨wr', hwr', hfaith⟩ := h asl aslEff effAssign_asl
  have hok : khavocWrites aslEff.effCovers asl =
      .ok (TagMap.empty.add (box 1 2 3) (TagMap.empty.add item (some y))) := rfl
  rw [hok, Except.ok.injEq] at hwr'
  subst hwr'
  have hmoved : Moved asl aslEff (ref 3) (ref 5) :=
    .inr ⟨box 1 2 3, by decide, _, _, rfl, transitions_asl, by decide⟩
  obtain ⟨m, hm, _⟩ := hfaith.moved (ref 3) (ref 5) (by decide) hmoved
  cases hm

/-- The same with a mutable field of the cell: `(x.item, y.count) <- (y, n)`. -/
def aslCount : List Assign := [(x, item, y), (y, count, n)]

def aslCountEff : Effekt :=
  { aslEff with
    effReads := aslCount.foldl (fun s a => (s.add a.2.2 ()).add a.1 ()) .empty
    effWrites := (TagMap.empty.add (cell 4 5) [count]).add (box 1 2 3) [item] }

theorem mutablePaths_aslCount : MutablePaths aslCount aslCountEff := by
  intro r hr rf w hp hw
  rw [show r = box 1 2 3 from mem_singleton.mp hr] at hp
  have hfs : (writesOf aslCount).find? (box 1 2 3) =
      some (TagMap.empty.add item (.ityreg (cell 4 5))) := rfl
  have hpl : transitions (writesOf aslCount) (box 1 2 3)
      (TagMap.empty.add item (.ityreg (cell 4 5))) =
        .ok [(ref 3, ref 5), (cell 2 3, cell 4 5)] := rfl
  have hmem := ((transitions_ok hfs hpl).1 _).mpr hp
  rcases mem_cons.mp hmem with heq | hmem
  · cases heq
    exact absurd hw (by decide)
  · cases mem_singleton.mp hmem
    refine ⟨box 1 2 3, by decide, .single ⟨item, by decide, _, _, rfl, rfl, by decide⟩⟩

theorem faithful_iff_mutablePaths_aslCount :
    ∃ wr', khavocWrites aslCountEff.effCovers aslCount = .ok wr' ∧
      Faithful aslCount aslCountEff wr' :=
  (faithful_iff_mutablePaths aslCount aslCountEff rfl).mpr mutablePaths_aslCount

end Refs

end Why3
