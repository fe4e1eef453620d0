import Why3.Transform.RemoveUnused
import Why3.Core.KnownRestrict
import Why3.Core.TaskRun

/-!
# When removing unused symbols gives a task

What the first pass collects is what the declarations use, from the last one on.  A hypothesis
that is released late brings back a symbol whose declaration the pass has already skipped, and
then the symbols of that declaration are not looked at.  The second pass rebuilds a task exactly
when these are used anyway, and keeps the goal exactly when a dependency of it, if it has any,
is used.
-/

namespace Why3

open Checks List

variable {d : Decl} {pr : PrSymbol} {f : Term} {k : PropKind}

namespace RemoveUnused

/-! ## Sets -/

@[simp]
theorem Sid.mem_add {x y : ℕ} {s : Sid} : y ∈ Sid.add x s ↔ y = x ∨ y ∈ s := by
  unfold Sid.add
  split_ifs with h
  · constructor
    · exact Or.inr
    · rintro (rfl | hy)
      · exact h
      · exact hy
  · exact mem_cons

@[simp]
theorem Sid.mem_union {x : ℕ} {s s' : Sid} : x ∈ Sid.union s s' ↔ x ∈ s ∨ x ∈ s' := by
  unfold Sid.union
  rw [mem_append, mem_filter]
  by_cases h : x ∈ s <;> simp [h]

@[simp]
theorem Sid.meets_iff {s s' : Sid} : Sid.meets s s' = true ↔ ∃ x ∈ s, x ∈ s' := by
  simp [Sid.meets]

section Maps

variable {α : Type} {m : Mid α} {x y : ℕ} {v : α}

theorem Mid.lookup_add : (m.add x v).lookup y = if y = x then some v else m.lookup y := by
  unfold Mid.add
  rw [Lookup.lookup_cons, Lookup.lookup_filter_ne]
  split_ifs <;> rfl

theorem Mid.lookup_remove : (m.remove x).lookup y = if y = x then none else m.lookup y :=
  Lookup.lookup_filter_ne x

theorem Mid.length_remove_lt (h : m.lookup x = some v) : (m.remove x).length < m.length := by
  unfold Mid.remove
  rw [length_filter_lt_length_iff_exists]
  exact ⟨(x, v), Lookup.mem_of_lookup h, by simp⟩

end Maps

/-! ## Using identifiers -/

/-- What is recorded under an identifier. -/
def Mid.ids (m : Mid Sid) (x : ℕ) : Sid := (m.lookup x).getD []

section AddUsed

/-- From the used identifiers `u` and the closure `m` to `u'` and `m'`, when `ids` get
used: an entry stays, or its identifier gets used and what it holds with it. -/
structure Adds (u : Sid) (m : Mid Sid) (ids u' : Sid) (m' : Mid Sid) : Prop where
  old : ∀ x ∈ u, x ∈ u'
  new : ∀ x ∈ ids, x ∈ u'
  entry : ∀ x, (m'.lookup x = m.lookup x ∧ (x ∈ u' → x ∈ u ∨ m.lookup x = none)) ∨
    (m'.lookup x = none ∧ ∀ y ∈ m.ids x, y ∈ u')
  least : ∀ P : ℕ → Prop, (∀ x ∈ u, P x) → (∀ x ∈ ids, P x) → (∀ x, P x → ∀ y ∈ m.ids x, P y) →
    ∀ y ∈ u', P y

/-- What the fold of `add_used_ids` finds under `ids`. -/
structure Finds (u : Sid) (m : Mid Sid) (ids u' : Sid) (m' : Mid Sid) : Prop where
  old : ∀ x ∈ u, x ∈ u'
  entry : ∀ x, (m'.lookup x = m.lookup x ∧ (x ∈ ids → m.lookup x = none)) ∨
    (m'.lookup x = none ∧ ∀ y ∈ m.ids x, y ∈ u')
  only : ∀ y ∈ u', y ∈ u ∨ ∃ x ∈ ids, y ∈ m.ids x

theorem findClosure_finds (ids : Sid) (u : Sid) (m : Mid Sid) :
    Finds u m ids (ids.foldl findClosure (u, m)).1 (ids.foldl findClosure (u, m)).2 ∧
    (ids.foldl findClosure (u, m) = (u, m) ∨
      (ids.foldl findClosure (u, m)).2.length < m.length) := by
  induction ids generalizing u m with
  | nil => exact ⟨⟨fun _ h => h, fun x => .inl ⟨rfl, fun h => by cases h⟩, fun _ h => .inl h⟩, .inl rfl⟩
  | cons x ids ih =>
    rw [foldl_cons]
    cases hx : m.lookup x with
    | none =>
      have hstep : findClosure (u, m) x = (u, m) := by
        unfold findClosure
        rw [hx]
      rw [hstep]
      obtain ⟨h, hlen⟩ := ih u m
      refine ⟨⟨h.old, fun y => (h.entry y).imp_left fun ⟨heq, hy⟩ => ⟨heq, fun hmem => ?_⟩,
        fun y hy => (h.only y hy).imp_right fun ⟨z, hz, hyz⟩ => ⟨z, mem_cons_of_mem _ hz, hyz⟩⟩, hlen⟩
      rcases mem_cons.1 hmem with rfl | hmem
      · exact hx
      · exact hy hmem
    | some s =>
      have hstep : findClosure (u, m) x = (u.union s, m.remove x) := by
        unfold findClosure
        rw [hx]
      have hs : m.ids x = s := by rw [Mid.ids, hx, Option.getD_some]
      rw [hstep]
      obtain ⟨h, hlen⟩ := ih (u.union s) (m.remove x)
      refine ⟨⟨fun y hy => h.old y (Sid.mem_union.2 (.inl hy)), fun y => ?_, fun y hy => ?_⟩, .inr ?_⟩
      · by_cases hyx : y = x
        · subst hyx
          refine .inr ⟨?_, fun z hz => h.old z (Sid.mem_union.2 (.inr (hs ▸ hz)))⟩
          have hnone : (m.remove y).lookup y = none := by rw [Mid.lookup_remove, if_pos rfl]
          rcases h.entry y with ⟨heq, -⟩ | ⟨heq, -⟩
          · rw [heq, hnone]
          · exact heq
        · have hlook : (m.remove x).lookup y = m.lookup y := by rw [Mid.lookup_remove, if_neg hyx]
          have hentry := h.entry y
          rw [Mid.ids, hlook] at hentry
          exact hentry.imp_left fun ⟨heq, hy⟩ =>
            ⟨heq, fun hmem => hy ((mem_cons.1 hmem).resolve_left hyx)⟩
      · rcases h.only y hy with hy | ⟨z, hz, hyz⟩
        · rcases Sid.mem_union.1 hy with hy | hy
          · exact .inl hy
          · exact .inr ⟨x, mem_cons_self, hs ▸ hy⟩
        · refine .inr ⟨z, mem_cons_of_mem _ hz, ?_⟩
          rw [Mid.ids, Mid.lookup_remove] at hyz
          split_ifs at hyz
          · cases hyz
          · exact hyz
      · have hlt := Mid.length_remove_lt hx
        rcases hlen with hlen | hlen
        · rw [hlen]
          exact hlt
        · exact hlen.trans hlt

/-- One round of `add_used_ids`: the identifiers, and then those found in the closure. -/
theorem Adds.round {u ids newIds u' : Sid} {m m₁ m' : Mid Sid} (hfind : Finds [] m ids newIds m₁)
    (hrest : Adds (u.union ids) m₁ newIds u' m') : Adds u m ids u' m' where
  old x hx := hrest.old x (Sid.mem_union.2 (.inl hx))
  new x hx := hrest.old x (Sid.mem_union.2 (.inr hx))
  entry x := by
    have hrest' := hrest.entry x
    rcases hfind.entry x with ⟨heq, hids⟩ | ⟨heq, hids⟩
    · rw [Mid.ids, heq] at hrest'
      refine hrest'.imp_left fun ⟨h, hx⟩ => ⟨h, fun hmem => ?_⟩
      rcases hx hmem with hx | hx
      · exact (Sid.mem_union.1 hx).imp_right hids
      · exact .inr hx
    · refine .inr ⟨?_, fun y hy => hrest.new y (hids y hy)⟩
      rcases hrest' with ⟨h, -⟩ | ⟨h, -⟩
      · rw [h, heq]
      · exact h
  least P hu hids hm := by
    have hsub : ∀ x, ∀ y ∈ m₁.ids x, y ∈ m.ids x := by
      intro x y hy
      rcases hfind.entry x with ⟨heq, -⟩ | ⟨heq, -⟩ <;> rw [Mid.ids, heq] at hy
      · exact hy
      · cases hy
    refine hrest.least P (fun x hx => ?_) (fun y hy => ?_) (fun x hx y hy => hm x hx y (hsub x y hy))
    · exact (Sid.mem_union.1 hx).elim (hu x) (hids x)
    · rcases hfind.only y hy with hy | ⟨x, hx, hy⟩
      · cases hy
      · exact hm x (hids x hx) y hy

theorem addUsedIdsAux_adds (fuel : ℕ) (u : UsedSymbols) (ids : Sid)
    (hfuel : u.closure.length ≤ fuel) :
    Adds u.usedIds u.closure ids (addUsedIdsAux fuel u ids).usedIds
      (addUsedIdsAux fuel u ids).closure := by
  have hrefl : ∀ (s : Sid) (m : Mid Sid), Adds s m [] s m := fun s m =>
    ⟨fun _ h => h, fun _ h => (by cases h), fun _ => .inl ⟨rfl, .inl⟩, fun _ h _ _ => h⟩
  induction fuel generalizing u ids with
  | zero =>
    obtain ⟨hfind, hlen⟩ := findClosure_finds ids [] u.closure
    have hnew : ids.foldl findClosure ([], u.closure) = ([], u.closure) := by
      rcases hlen with hlen | hlen
      · exact hlen
      · omega
    rw [addUsedIdsAux]
    rw [hnew] at hfind ⊢
    exact Adds.round hfind (hrefl _ _)
  | succ fuel ih =>
    obtain ⟨hfind, hlen⟩ := findClosure_finds ids [] u.closure
    rw [addUsedIdsAux]
    simp only
    split_ifs with hempty
    · rw [List.isEmpty_iff] at hempty
      rw [hempty] at hfind
      exact Adds.round hfind (hrefl _ _)
    · -- something was found, so the closure is smaller
      apply Adds.round hfind
      refine ih { u with
        usedIds := u.usedIds.union ids
        closure := (ids.foldl findClosure ([], u.closure)).2 } _ ?_
      rcases hlen with hlen | hlen
      · rw [hlen] at hempty
        exact absurd rfl hempty
      · simp only
        omega

theorem addUsedIds_adds (u : UsedSymbols) (ids : Sid) :
    Adds u.usedIds u.closure ids (addUsedIds u ids).usedIds (addUsedIds u ids).closure :=
  addUsedIdsAux_adds _ u ids le_rfl

/-- What the used identifiers become when one more is added, for which nothing waits. -/
theorem Adds.add {u ids u' : Sid} {m m' : Mid Sid} (h : Adds u m ids u' m') {x : ℕ}
    (hx : m.lookup x = none) : Adds u m (x :: ids) (u'.add x) m' where
  old y hy := Sid.mem_add.2 (.inr (h.old y hy))
  new y hy := Sid.mem_add.2 ((mem_cons.1 hy).imp_right (h.new y))
  entry y := by
    refine (h.entry y).imp (fun ⟨heq, hy⟩ => ⟨heq, fun hmem => ?_⟩) fun ⟨heq, hy⟩ =>
      ⟨heq, fun z hz => Sid.mem_add.2 (.inr (hy z hz))⟩
    rcases Sid.mem_add.1 hmem with rfl | hmem
    · exact .inr hx
    · exact hy hmem
  least P hu hids hm y hy := by
    rw [forall_mem_cons] at hids
    rcases Sid.mem_add.1 hy with rfl | hy
    · exact hids.1
    · exact h.least P hu hids.2 hm y hy

/-- `add_used_ids` reads the metas and leaves them. -/
theorem addUsedIds_metas (u : UsedSymbols) (ids : Sid) :
    ∃ m s, addUsedIds u ids = { u with closure := m, usedIds := s } := by
  have h : ∀ fuel (u : UsedSymbols) (ids : Sid),
      ∃ m s, addUsedIdsAux fuel u ids = { u with closure := m, usedIds := s } := by
    intro fuel
    induction fuel with
    | zero => exact fun u ids => ⟨_, _, rfl⟩
    | succ fuel ih =>
      intro u ids
      rw [addUsedIdsAux]
      simp only
      split_ifs
      · exact ⟨_, _, rfl⟩
      · obtain ⟨m, s, h⟩ := ih { u with
          usedIds := u.usedIds.union ids
          closure := (ids.foldl findClosure ([], u.closure)).2 }
            (ids.foldl findClosure ([], u.closure)).1
        exact ⟨m, s, h⟩
  exact h _ u ids

/-- Parking a hypothesis adds its identifiers to some entries of the closure. -/
theorem recordClosure_ids (ids l : Sid) (m : Mid Sid) (x : ℕ) :
    ((l.foldl (recordClosure ids) m).lookup x = none ↔ m.lookup x = none ∧ x ∉ l) ∧
    ∀ y, y ∈ (l.foldl (recordClosure ids) m).ids x ↔ y ∈ m.ids x ∨ (x ∈ l ∧ y ∈ ids) := by
  induction l generalizing m with
  | nil => simp
  | cons z l ih =>
    rw [foldl_cons]
    have hstep : ((recordClosure ids m z).lookup x = none ↔ m.lookup x = none ∧ x ≠ z) ∧
        ∀ y, y ∈ (recordClosure ids m z).ids x ↔ y ∈ m.ids x ∨ (x = z ∧ y ∈ ids) := by
      unfold recordClosure Mid.ids
      cases hz : m.lookup z with
      | none | some s' =>
        simp only [Mid.lookup_add]
        by_cases hxz : x = z
        · subst hxz
          simp [hz]
        · simp [hxz]
    refine ⟨?_, fun y => ?_⟩
    · rw [(ih _).1, hstep.1, mem_cons]
      tauto
    · rw [(ih _).2 y, hstep.2 y, mem_cons]
      tauto

end AddUsed

/-! ## What is used -/

/-- The declaration is a proposition. -/
def isProp (d : Decl) : Bool :=
  match d.dNode with
  | .dprop _ _ _ => true
  | _ => false

theorem isProp_iff : isProp d = true ↔ ∃ k pr f, d.dNode = .dprop k pr f := by
  unfold isProp
  cases hnode : d.dNode with
  | dprop k pr f => simp
  | _ => simp

/-- What a declaration that is used makes used: its symbols and those it introduces. -/
def Own (d : Decl) (id : ℕ) : Prop := id ∈ getUsedSymsDecl d ∨ id ∈ d.dNews

/-- The hypothesis depends on `x`, by a meta of the task. -/
def DependsOn (usymb : UsedSymbols) (d : Decl) (x : ℕ) : Prop :=
  ∃ k pr f s, d.dNode = .dprop k pr f ∧ usymb.depends.lookup pr.prName = some s ∧ x ∈ s

/-- The identifiers that the declarations of a list use, from its last one on: what belongs to
a declaration that is marked or of which a later one uses a symbol, to a proposition without
dependencies, and to a proposition with a dependency that is used. -/
inductive Used (usymb : UsedSymbols) : List Decl → ℕ → Prop
  | equ (l) : Used usymb l psEqu.lsName
  | int (l) : Used usymb l tsInt.tsName
  | later {l d id} : Used usymb l id → Used usymb (d :: l) id
  | marked {l d id} : isProp d = false → declaresANeededSymbol usymb d = true → Own d id →
      Used usymb (d :: l) id
  | needed {l d x id} : isProp d = false → x ∈ d.dNews → Used usymb l x → Own d id →
      Used usymb (d :: l) id
  | prop {l d k pr f id} : d.dNode = .dprop k pr f → usymb.depends.lookup pr.prName = none →
      Own d id → Used usymb (d :: l) id
  | released {l d x id} : d ∈ l → DependsOn usymb d x → Used usymb l x → Own d id → Used usymb l id

/-- Some symbol of the declaration is used. -/
def InUse (usymb : UsedSymbols) (l : List Decl) (d : Decl) : Prop :=
  ∃ id ∈ d.dNews, Used usymb l id

/-- A declaration that gets used only when a proposition is released, after the declarations
that follow it have been gone through, uses symbols of such earlier declarations only as are
used too. -/
def LateUses (usymb : UsedSymbols) (ds : List Decl) : Prop :=
  ∀ ds₁ d ds₂, ds = ds₁ ++ d :: ds₂ → isProp d = false →
    declaresANeededSymbol usymb d = false → ¬ InUse usymb ds₂ d → InUse usymb ds d →
    ∀ d' ∈ ds₁, (∃ id ∈ getUsedSymsDecl d, id ∈ d'.dNews) → InUse usymb ds d'

theorem prop_news (hd : d.Created) (hnode : d.dNode = .dprop k pr f) :
    d.dNews = [pr.prName] := by
  cases hd with
  | ty ts => cases hnode
  | data h =>
    have hdata := (createDataDecl_ok h).1
    rw [hnode] at hdata
    cases hdata
  | param h =>
    unfold createParamDecl at h
    split at h <;> cases h
    cases hnode
  | logic h =>
    unfold createLogicDecl at h
    split at h
    · cases h
    · rw [bind_eq_ok] at h
      obtain ⟨news, _, h⟩ := h
      split at h <;> cases h
      cases hnode
  | ind h =>
    unfold createIndDecl at h
    split at h
    · cases h
    · rw [bind_eq_ok] at h
      obtain ⟨news, _, h⟩ := h
      cases h
      cases hnode
  | prop h =>
    unfold createPropDecl at h
    rw [bind_eq_ok] at h
    obtain ⟨f', _, h⟩ := h
    cases h
    cases hnode
    rfl

theorem keptDecl_iff (hd : d.Created) (u : UsedSymbols) :
    keptDecl u d = true ↔ ∃ id ∈ d.dNews, id ∈ u.usedIds := by
  unfold keptDecl
  split
  · rename_i k pr f hnode
    rw [prop_news hd hnode]
    simp
  all_goals exact Sid.meets_iff

/-! ## The first pass -/

section Steps

variable {m u u' : UsedSymbols} {done : List Decl} {d₀ : Decl} {ids : Sid}

/-- The invariant of the first pass: the used identifiers are those of the declarations gone
through, and the closure has what waits for an identifier that is not used. -/
structure Pass (m : UsedSymbols) (done : List Decl) (u : UsedSymbols) : Prop where
  metas : ∃ c s, u = { m with closure := c, usedIds := s }
  used : ∀ id, id ∈ u.usedIds ↔ Used m done id
  key : ∀ x, u.closure.lookup x ≠ none → x ∉ u.usedIds ∧ ∃ h ∈ done, DependsOn m h x
  sound : ∀ x, ∀ y ∈ u.closure.ids x, ∃ h ∈ done, DependsOn m h x ∧ Own h y
  complete : ∀ h ∈ done, ∀ x y, DependsOn m h x → Own h y → x ∉ u.usedIds →
    y ∈ u.usedIds ∨ y ∈ u.closure.ids x

/-- A declaration that is used: what belongs to it is added. -/
theorem Pass.adds (h : Pass m done u) (hmetas : ∃ c s, u' = { u with closure := c, usedIds := s })
    (hadds : Adds u.usedIds u.closure ids u'.usedIds u'.closure)
    (hown : ∀ id, id ∈ ids ↔ Own d₀ id) (hused : ∀ id, Own d₀ id → Used m (d₀ :: done) id) :
    Pass m (d₀ :: done) u' := by
  have hback : ∀ l id, Used m l id → l = d₀ :: done → id ∈ u'.usedIds := by
    intro l id hu
    induction hu with
    | equ => exact fun _ => hadds.old _ ((h.used _).2 (.equ _))
    | int => exact fun _ => hadds.old _ ((h.used _).2 (.int _))
    | later hu =>
      rintro ⟨⟩
      exact hadds.old _ ((h.used _).2 hu)
    | marked _ _ ho | needed _ _ _ ho | prop _ _ ho =>
      rintro ⟨⟩
      exact hadds.new _ ((hown _).2 ho)
    | @released l d x id hd hdep hux ho ih =>
      rintro rfl
      rcases mem_cons.1 hd with rfl | hd
      · exact hadds.new _ ((hown _).2 ho)
      · by_cases hx : x ∈ u.usedIds
        · exact hadds.old _ ((h.used _).2 (.released hd hdep ((h.used x).1 hx) ho))
        · -- the entry of `x` is released
          rcases h.complete d hd x id hdep ho hx with hid | hid
          · exact hadds.old _ hid
          · rcases hadds.entry x with ⟨-, hnew⟩ | ⟨-, hnew⟩
            · rcases hnew (ih rfl) with hx' | hx'
              · exact absurd hx' hx
              · rw [Mid.ids, hx'] at hid
                cases hid
            · exact hnew id hid
  refine ⟨?_, fun id => ⟨fun hid => ?_, fun hid => hback _ id hid rfl⟩, fun x hx => ?_,
    fun x y hy => ?_, fun g hg x y hdep ho hx => ?_⟩
  · obtain ⟨c, s, rfl⟩ := h.metas
    obtain ⟨c', s', rfl⟩ := hmetas
    exact ⟨c', s', rfl⟩
  · refine hadds.least (Used m (d₀ :: done)) (fun x hx => .later ((h.used x).1 hx))
      (fun x hx => hused x ((hown x).1 hx)) (fun x hx y hy => ?_) id hid
    obtain ⟨g, hg, hdep, ho⟩ := h.sound x y hy
    exact .released (mem_cons_of_mem _ hg) hdep hx ho
  · rcases hadds.entry x with ⟨heq, hnew⟩ | ⟨heq, -⟩
    · rw [heq] at hx
      obtain ⟨hout, g, hg, hdep⟩ := h.key x hx
      exact ⟨fun hmem => (hnew hmem).elim hout hx, g, mem_cons_of_mem _ hg, hdep⟩
    · exact absurd heq hx
  · rcases hadds.entry x with ⟨heq, -⟩ | ⟨heq, -⟩ <;> rw [Mid.ids, heq] at hy
    · obtain ⟨g, hg, hdep⟩ := h.sound x y hy
      exact ⟨g, mem_cons_of_mem _ hg, hdep⟩
    · cases hy
  · rcases mem_cons.1 hg with rfl | hg
    · exact .inl (hadds.new y ((hown y).2 ho))
    · rcases h.complete g hg x y hdep ho fun hmem => hx (hadds.old x hmem) with hy | hy
      · exact .inl (hadds.old y hy)
      · rcases hadds.entry x with ⟨heq, -⟩ | ⟨-, hnew⟩
        · exact .inr (by rw [Mid.ids, heq]; exact hy)
        · exact .inl (hnew y hy)

/-- A declaration that nothing uses so far. -/
theorem used_cons_of_not (hneeded : isProp d₀ = false → declaresANeededSymbol m d₀ = false ∧
      ∀ x ∈ d₀.dNews, ¬ Used m done x)
    (hparked : ∀ k pr f, d₀.dNode = .dprop k pr f →
      ∃ s, m.depends.lookup pr.prName = some s ∧ ∀ x ∈ s, ¬ Used m done x) {id : ℕ} :
    Used m (d₀ :: done) id ↔ Used m done id := by
  have hback : ∀ l id, Used m l id → l = d₀ :: done → Used m done id := by
    intro l id hu
    induction hu with
    | equ => exact fun _ => .equ _
    | int => exact fun _ => .int _
    | later hu =>
      rintro ⟨⟩
      exact hu
    | marked hp hm _ =>
      rintro ⟨⟩
      rw [(hneeded hp).1] at hm
      cases hm
    | needed hp hx hu _ =>
      rintro ⟨⟩
      exact absurd hu ((hneeded hp).2 _ hx)
    | prop hnode hnone _ =>
      rintro ⟨⟩
      obtain ⟨s, hs, -⟩ := hparked _ _ _ hnode
      rw [hnone] at hs
      cases hs
    | released hd hdep _ ho ih =>
      rintro rfl
      rcases mem_cons.1 hd with rfl | hd
      · obtain ⟨k, pr, f, s, hnode, hs, hx⟩ := hdep
        obtain ⟨s', hs', hout⟩ := hparked _ _ _ hnode
        obtain rfl : s = s' := Option.some.inj (hs.symm.trans hs')
        exact absurd (ih rfl) (hout _ hx)
      · exact .released hd hdep (ih rfl) ho
  exact ⟨fun hu => hback _ id hu rfl, .later⟩

theorem useDecl_prop (hnode : d₀.dNode = .dprop k pr f) :
    useDecl u d₀ = match parkedOn u pr with
      | some s =>
        { u with
          closure := s.foldl (recordClosure (Sid.add pr.prName (getUsedSymsDecl d₀))) u.closure }
      | none =>
        let u := addUsedIds u (getUsedSymsDecl d₀)
        { u with usedIds := u.usedIds.add pr.prName } := by
  obtain ⟨_, _⟩ := d₀
  cases hnode
  rfl

theorem useDecl_other (hprop : ¬ isProp d₀ = true) :
    useDecl u d₀ = if isNeeded u d₀ then
      addUsedIds u (Sid.union (getUsedSymsDecl d₀) d₀.dNews) else u := by
  unfold useDecl
  cases hnode : d₀.dNode with
  | dprop k pr f => exact absurd (isProp_iff.2 ⟨k, pr, f, hnode⟩) hprop
  | _ => rfl

theorem own_prop (hd : d₀.Created) (hnode : d₀.dNode = .dprop k pr f) (id : ℕ) :
    Own d₀ id ↔ id = pr.prName ∨ id ∈ getUsedSymsDecl d₀ := by
  rw [Own, prop_news hd hnode, mem_singleton, or_comm]

/-- A hypothesis that is parked. -/
theorem Pass.park (h : Pass m done u) (hd : d₀.Created) (hnode : d₀.dNode = .dprop k pr f) {s : Sid}
    (hs : m.depends.lookup pr.prName = some s) (hout : ∀ x ∈ s, x ∉ u.usedIds) :
    Pass m (d₀ :: done) { u with
      closure := s.foldl (recordClosure (Sid.add pr.prName (getUsedSymsDecl d₀))) u.closure } := by
  have hrec := recordClosure_ids (Sid.add pr.prName (getUsedSymsDecl d₀)) s u.closure
  have hown : ∀ id, id ∈ Sid.add pr.prName (getUsedSymsDecl d₀) ↔ Own d₀ id := fun id => by
    rw [Sid.mem_add, own_prop hd hnode]
  have hdep : ∀ x ∈ s, DependsOn m d₀ x := fun x hx => ⟨k, pr, f, s, hnode, hs, hx⟩
  refine ⟨?_, fun id => ?_, fun x hx => ?_, fun x y hy => ?_, fun g hg x y hdep' ho hx => ?_⟩
  · obtain ⟨c, s', rfl⟩ := h.metas
    exact ⟨_, s', rfl⟩
  · refine (h.used id).trans (used_cons_of_not (fun hp => ?_) fun k' pr' f' hnode' => ?_).symm
    · rw [isProp_iff.2 ⟨k, pr, f, hnode⟩] at hp
      cases hp
    · obtain ⟨-, rfl, -⟩ : k = k' ∧ pr = pr' ∧ f = f' := by simpa [hnode] using hnode'
      exact ⟨s, hs, fun x hx hu => hout x hx ((h.used x).2 hu)⟩
  · rw [ne_eq, (hrec x).1, not_and_or, not_not] at hx
    rcases hx with hx | hx
    · obtain ⟨hx, g, hg, hdep'⟩ := h.key x hx
      exact ⟨hx, g, mem_cons_of_mem _ hg, hdep'⟩
    · exact ⟨hout x hx, d₀, mem_cons_self, hdep x hx⟩
  · rcases ((hrec x).2 y).1 hy with hy | ⟨hx, hy⟩
    · obtain ⟨g, hg, hdep'⟩ := h.sound x y hy
      exact ⟨g, mem_cons_of_mem _ hg, hdep'⟩
    · exact ⟨d₀, mem_cons_self, hdep x hx, (hown y).1 hy⟩
  · rcases mem_cons.1 hg with rfl | hg
    · obtain ⟨k', pr', f', s', hnode', hs', hx'⟩ := hdep'
      obtain ⟨-, rfl, -⟩ : k = k' ∧ pr = pr' ∧ f = f' := by simpa [hnode] using hnode'
      obtain rfl : s = s' := Option.some.inj (hs.symm.trans hs')
      exact .inr (((hrec x).2 y).2 (.inr ⟨hx', (hown y).2 ho⟩))
    · exact (h.complete g hg x y hdep' ho hx).imp_right fun hy => ((hrec x).2 y).2 (.inl hy)

/-- No hypothesis depends on the name of a proposition. -/
theorem Pass.useDecl (h : Pass m done u) (hd : d₀.Created)
    (hnames : ∀ k pr f, d₀.dNode = .dprop k pr f → ∀ g ∈ done, ¬ DependsOn m g pr.prName) :
    Pass m (d₀ :: done) (useDecl u d₀) := by
  obtain ⟨c, su, hmetas⟩ := h.metas
  by_cases hprop : isProp d₀ = true
  · obtain ⟨k, pr, f, hnode⟩ := isProp_iff.1 hprop
    rw [useDecl_prop hnode]
    cases hpark : parkedOn u pr with
    | some s =>
      obtain ⟨hs, hout⟩ := Option.filter_eq_some_iff.1 hpark
      rw [Bool.not_eq_true', ← Bool.not_eq_true, Sid.meets_iff] at hout
      exact h.park hd hnode (by rw [hmetas] at hs; exact hs) fun x hx hu => hout ⟨x, hx, hu⟩
    | none =>
      have hnone : u.closure.lookup pr.prName = none := by
        by_contra hne
        obtain ⟨-, g, hg, hdep⟩ := h.key _ hne
        exact hnames k pr f hnode g hg hdep
      obtain ⟨c', s', hadd⟩ := addUsedIds_metas u (getUsedSymsDecl d₀)
      refine h.adds ⟨c', s'.add pr.prName, ?_⟩ ((addUsedIds_adds u _).add hnone)
        (fun id => by rw [mem_cons, own_prop hd hnode]) fun id ho => ?_
      · simp only [hadd]
      · cases hdeps : m.depends.lookup pr.prName with
        | none => exact .prop hnode hdeps ho
        | some s =>
          have hdepends : u.depends = m.depends := by rw [hmetas]
          have hmeets : s.meets u.usedIds = true := by
            rw [parkedOn, hdepends, hdeps, Option.filter_eq_none_iff] at hpark
            simpa using hpark s rfl
          obtain ⟨x, hx, hxu⟩ := Sid.meets_iff.1 hmeets
          exact .released mem_cons_self ⟨k, pr, f, s, hnode, hdeps, hx⟩
            (.later ((h.used x).1 hxu)) ho
  · rw [useDecl_other hprop]
    have hprop' : isProp d₀ = false := by simpa using hprop
    have hdecl : declaresANeededSymbol u d₀ = declaresANeededSymbol m d₀ := by
      rw [hmetas]
      rfl
    split_ifs with hneeded
    · refine h.adds (addUsedIds_metas u _) (addUsedIds_adds u _) (fun id => Sid.mem_union)
        fun id ho => ?_
      rw [isNeeded, Bool.or_eq_true, Sid.meets_iff, hdecl] at hneeded
      rcases hneeded with hm | ⟨x, hx, hxu⟩
      · exact .marked hprop' hm ho
      · exact .needed hprop' hx ((h.used x).1 hxu) ho
    · rw [isNeeded, Bool.or_eq_true, Sid.meets_iff, hdecl, not_or] at hneeded
      have hnone : ∀ x, ¬ DependsOn m d₀ x := by
        rintro x ⟨k, pr, f, s, hnode, -⟩
        exact hprop (isProp_iff.2 ⟨k, pr, f, hnode⟩)
      refine ⟨h.metas, fun id => ?_, fun x hx => ?_, fun x y hy => ?_,
        fun g hg x y hdep ho hx => ?_⟩
      · refine (h.used id).trans (used_cons_of_not (fun _ => ?_) fun k pr f hnode => ?_).symm
        · exact ⟨by simpa using hneeded.1, fun x hx hu => hneeded.2 ⟨x, hx, (h.used x).2 hu⟩⟩
        · exact absurd (isProp_iff.2 ⟨k, pr, f, hnode⟩) hprop
      · obtain ⟨hx, g, hg, hdep⟩ := h.key x hx
        exact ⟨hx, g, mem_cons_of_mem _ hg, hdep⟩
      · obtain ⟨g, hg, hdep⟩ := h.sound x y hy
        exact ⟨g, mem_cons_of_mem _ hg, hdep⟩
      · rcases mem_cons.1 hg with rfl | hg
        · exact absurd hdep (hnone x)
        · exact h.complete g hg x y hdep ho hx

theorem Pass.computeUsedIds {l : List Tdecl} (h : Pass m done u)
    (hcreated : ∀ d ∈ Task.declsOf l, d.Created)
    (hnames : ∀ d ∈ Task.declsOf l, ∀ k pr f, d.dNode = .dprop k pr f →
      ∀ g ∈ done ++ Task.declsOf l, ¬ DependsOn m g pr.prName) :
    Pass m ((Task.declsOf l).reverse ++ done) (computeUsedIds u l) := by
  induction l generalizing done u with
  | nil => exact h
  | cons td l ih =>
    cases td with
    | decl d₀ =>
      rw [Task.declsOf_decl] at hcreated hnames ⊢
      rw [forall_mem_cons] at hcreated
      rw [reverse_cons, append_assoc]
      refine ih (h.useDecl hcreated.1 fun k pr f hnode g hg => ?_) hcreated.2
        fun d hd k pr f hnode g hg => ?_
      · exact hnames d₀ mem_cons_self k pr f hnode g (mem_append_left _ hg)
      · refine hnames d (mem_cons_of_mem _ hd) k pr f hnode g ?_
        simp only [nil_append, cons_append, mem_cons, mem_append] at hg ⊢
        tauto
    | use th | clone th sm | metaDecl mt al => exact ih h hcreated hnames

end Steps

/-! ## The second pass -/

section Removal

variable {k : ℕ} {u : UsedSymbols} {t t' : Task}

/-- The declarations, uses, clones and metas that the second pass keeps. -/
def kept (u : UsedSymbols) (l : List Tdecl) : List Tdecl :=
  l.filter fun td => (doRemovalUnusedDecl u td).isSome

theorem doRemovalUnusedDecl_eq (u : UsedSymbols) (td : Tdecl) :
    doRemovalUnusedDecl u td = none ∨ doRemovalUnusedDecl u td = some td := by
  unfold doRemovalUnusedDecl
  split
  · split_ifs <;> simp
  · simp
  · simp
  · split_ifs <;> simp

theorem doRemoval_cons (td : Tdecl) (l : List Tdecl) (kn kn' : KnownMap) :
    doRemoval k u ⟨td :: l, kn⟩ = doRemoval k u ⟨l, kn'⟩ >>= fun acc => removalStep k u acc td := by
  unfold doRemoval
  rw [reverse_cons, foldlM_append]
  simp only [foldlM_cons, foldlM_nil, bind_pure]

theorem hasUse_kept (th : ℕ) (kn kn' : KnownMap) (l : List Tdecl) :
    Task.hasUse ⟨kept u l, kn⟩ th = Task.hasUse ⟨l, kn'⟩ th := by
  unfold Task.hasUse kept
  induction l with
  | nil => rfl
  | cons td l ih =>
    rw [filter_cons]
    split_ifs with htd
    · rw [any_cons, any_cons, ih]
    · cases td with
      | use th' => exact absurd rfl htd
      | _ => simpa using ih

theorem mem_declsOf_kept {d : Decl} {l : List Tdecl} (h : d ∈ Task.declsOf (kept u l)) :
    d ∈ Task.declsOf l ∧ keptDecl u d = true := by
  obtain ⟨td, htd, heq⟩ := mem_filterMap.1 h
  obtain ⟨htd, hkept⟩ := mem_filter.1 htd
  cases td with
  | decl d' =>
    obtain rfl : d' = d := Option.some.inj heq
    refine ⟨mem_filterMap.2 ⟨_, htd, rfl⟩, ?_⟩
    by_contra hno
    rw [doRemovalUnusedDecl, if_neg hno] at hkept
    cases hkept
  | _ => cases heq

/-- What the second pass has built from a task. -/
structure Rebuilt (k : ℕ) (u : UsedSymbols) (t t' : Task) : Prop where
  result : doRemoval k u t = .ok t'
  run : Task.Run k t'
  part : t'.known.Part t.known
  known : ∀ id d, t.known.lookup id = some d → keptDecl u d = true → t'.known.lookup id = some d
  tdecls : t'.tdecls = kept u t.tdecls

theorem Rebuilt.noGoal (h : Rebuilt k u t t') (hgoal : ∀ td ∈ t.tdecls, ¬ td.IsGoal) :
    t'.findGoal = none := by
  rw [Task.findGoal_eq_none, h.tdecls]
  intro td htd
  exact hgoal td (mem_of_mem_filter (mem_of_head? htd))

/-- The second pass on one more element of the task. -/
theorem Rebuilt.cons (h : Rebuilt k u t t') {td : Tdecl} {kn : KnownMap} {t₁ : Task}
    (hkept : doRemovalUnusedDecl u td = some td) (hadd : Task.addTdecl k t' td = .ok t₁)
    (ht₁ : t₁.tdecls = td :: t'.tdecls) (hcreated : ∀ d, td = .decl d → d.Created)
    (hpart : t₁.known.Part kn)
    (hknown : ∀ id d, kn.lookup id = some d → keptDecl u d = true →
      t₁.known.lookup id = some d) :
    Rebuilt k u ⟨td :: t.tdecls, kn⟩ t₁ where
  result := by
    rw [doRemoval_cons td t.tdecls kn t.known, h.result]
    show removalStep k u t' td = .ok t₁
    rw [removalStep, hkept]
    exact hadd
  run := h.run.add hcreated hadd
  part := hpart
  known := hknown
  tdecls := by
    rw [ht₁, h.tdecls, kept, kept, filter_cons_of_pos (by rw [hkept]; rfl)]

theorem Rebuilt.drop (h : Rebuilt k u t t') {td : Tdecl} {kn : KnownMap}
    (hdrop : doRemovalUnusedDecl u td = none) (hpart : t'.known.Part kn)
    (hknown : ∀ id d, kn.lookup id = some d → keptDecl u d = true →
      t'.known.lookup id = some d) :
    Rebuilt k u ⟨td :: t.tdecls, kn⟩ t' where
  result := by
    rw [doRemoval_cons td t.tdecls kn t.known, h.result]
    show removalStep k u t' td = .ok t'
    rw [removalStep, hdrop]
  run := h.run
  part := hpart
  known := hknown
  tdecls := by
    rw [h.tdecls, kept, kept, filter_cons_of_neg (by rw [hdrop]; exact Bool.false_ne_true)]

/-- The declarations that are kept use symbols of kept ones only. -/
def Closed (u : UsedSymbols) (ds : List Decl) : Prop :=
  ∀ d ∈ ds, keptDecl u d = true → ∀ d' ∈ ds, (∃ id ∈ getUsedSymsDecl d, id ∈ d'.dNews) →
    keptDecl u d' = true

/-- The second pass then rebuilds a task. -/
theorem exists_rebuilt (hrun : Task.Run k t) (hclosed : Closed u (Task.declsOf t.tdecls)) :
    ∃ t', Rebuilt k u t t' := by
  induction hrun with
  | nil =>
    refine ⟨Task.empty, rfl, Task.Run.nil, ⟨?_, ?_⟩, ?_, rfl⟩
    · intro id d h
      cases h
    · intro id d h
      cases h
    · intro id d h
      cases h
  | add hrun hcreated hadd ih =>
    rename_i t td t₂
    have hinv := hrun.inv
    rcases Task.addTdecl_cases hadd with ⟨th, rfl, -, rfl⟩ | ⟨d, kn, rfl, hcheck, hgoal, hkn, rfl⟩ |
      ⟨htd, huse, hgoal, rfl⟩
    · exact ih hclosed
    · obtain ⟨t', ht'⟩ := ih fun d' hd' hkept d'' hd'' =>
        hclosed d' (mem_cons_of_mem _ hd') hkept d'' (mem_cons_of_mem _ hd'')
      have hadded := (knownAddDecl_ok hkn).1
      by_cases hkept : keptDecl u d = true
      · -- the symbols of `d` have been kept
        have hused : ∀ id ∈ getUsedSymsDecl d, id ∈ d.dNews ∨ (t'.known.lookup id).isSome := by
          intro id hid
          have hknown := hadded.known id hid
          rw [hadded.lookup] at hknown
          split_ifs at hknown with hnew
          · exact Or.inl hnew
          · obtain ⟨d', hd'⟩ := Option.isSome_iff_exists.1 hknown
            obtain ⟨hid', hmem⟩ := hinv.known id d' hd'
            have hkept' := hclosed d mem_cons_self hkept d' (mem_cons_of_mem _ hmem) ⟨id, hid, hid'⟩
            rw [ht'.known id d' hd' hkept']
            exact Or.inr rfl
        obtain ⟨kn', hkn', hpart, heq⟩ := knownAddDecl_part ht'.part (hcreated d rfl) hkn hused
        refine ⟨⟨.decl d :: t'.tdecls, kn'⟩, ht'.cons ?_ ?_ rfl hcreated hpart ?_⟩
        · rw [doRemovalUnusedDecl, if_pos hkept]
        · exact Task.newDecl_ok.2 ⟨hcheck, ht'.noGoal (hinv.noGoal hgoal), kn', hkn', rfl⟩
        · intro id d' hd' hkept'
          rw [hadded.lookup] at hd'
          simp only
          rw [heq, lookup_add]
          split_ifs at hd' ⊢
          · exact hd'
          · exact ht'.known id d' hd' hkept'
      · refine ⟨t', ht'.drop ?_ ⟨?_, ht'.part.closed⟩ ?_⟩
        · rw [doRemovalUnusedDecl, if_neg hkept]
        · intro id d' hd'
          have hd'' := ht'.part.sub id d' hd'
          rw [hadded.lookup_old (by rw [hd'']; rfl)]
          exact hd''
        · intro id d' hd' hkept'
          rw [hadded.lookup] at hd'
          split_ifs at hd'
          · cases hd'
            exact absurd hkept' hkept
          · exact ht'.known id d' hd' hkept'
    · have hdecls := Task.declsOf_other htd t.tdecls
      rw [hdecls] at hclosed
      obtain ⟨t', ht'⟩ := ih hclosed
      rcases doRemovalUnusedDecl_eq u td with hdrop | hkept
      · exact ⟨t', ht'.drop hdrop ht'.part ht'.known⟩
      · refine ⟨⟨td :: t'.tdecls, t'.known⟩, ht'.cons hkept ?_ rfl hcreated ht'.part ht'.known⟩
        have hnew := Task.newOther_ok.2
          ⟨ht'.noGoal (hinv.noGoal hgoal), (rfl : (⟨td :: t'.tdecls, t'.known⟩ : Task) = _)⟩
        cases td with
        | decl d => exact absurd ⟨d, rfl⟩ htd
        | use th =>
          have hno : t'.hasUse th = false := by
            rw [← huse th rfl, ← hasUse_kept (u := u) th t'.known t.known t.tdecls, ← ht'.tdecls]
          rw [Task.addTdecl, hno]
          exact hnew
        | clone th sm => exact hnew
        | metaDecl m al => exact hnew

/-- An identifier is declared once. -/
theorem news_unique {ds : List Decl} (h : ds.Pairwise Later) {d d' : Decl} (hd : d ∈ ds) (hd' : d' ∈ ds)
    {id : ℕ} (hid : id ∈ d.dNews) (hid' : id ∈ d'.dNews) : d = d' := by
  refine Pairwise.forall_of_forall_of_flip (R := fun d d' => id ∈ d.dNews → id ∈ d'.dNews → d = d')
    (fun _ _ _ _ => rfl) (h.imp fun hl h₁ h₂ => absurd h₂ (hl id h₁).2)
    (h.imp fun hl h₁ h₂ => absurd h₁ (hl id h₂).2) hd hd' hid hid'

/-- Where the second pass ends with a task, what it keeps uses only what it keeps. -/
theorem closed_of_doRemoval (hrun : Task.Run k t) (h : doRemoval k u t = .ok t') :
    Closed u (Task.declsOf t.tdecls) := by
  induction hrun generalizing t' with
  | nil => exact fun d hd => by cases hd
  | add hrun hcreated hadd ih =>
    rename_i t td t₂
    have hinv := (hrun.add hcreated hadd).inv
    rcases Task.addTdecl_cases hadd with ⟨th, rfl, -, rfl⟩ | ⟨d, kn, rfl, hcheck, hgoal, hkn, rfl⟩ |
      ⟨htd, huse, hgoal, rfl⟩
    · exact ih h
    · rw [doRemoval_cons _ _ _ t.known] at h
      obtain ⟨t₁, ht₁, hstep⟩ := bind_eq_ok.1 h
      have hclosed := ih ht₁
      obtain ⟨t₁', hb⟩ := exists_rebuilt hrun hclosed
      obtain rfl : t₁' = t₁ := Except.ok.inj (hb.result.symm.trans ht₁)
      intro d₁ hd₁ hkept d' hd' hid
      obtain ⟨id, hid, hid'⟩ := hid
      rw [Task.declsOf_decl] at hd₁ hd'
      rcases mem_cons.1 hd₁ with rfl | hd₁
      · -- `add_tdecl` finds the symbols of the new declaration among those that were kept
        rw [removalStep, doRemovalUnusedDecl, if_pos hkept] at hstep
        obtain ⟨-, -, kn', hkn', rfl⟩ := Task.newDecl_ok.1 hstep
        have hadded := (knownAddDecl_ok hkn').1
        have hknown := hadded.known id hid
        rw [hadded.lookup] at hknown
        split_ifs at hknown with hnew
        · rwa [← news_unique hinv.later mem_cons_self hd' hnew hid']
        · obtain ⟨o, ho⟩ := Option.isSome_iff_exists.1 hknown
          obtain ⟨hio, hmem⟩ := hb.run.inv.known id o ho
          rw [hb.tdecls] at hmem
          obtain ⟨hmem, hko⟩ := mem_declsOf_kept hmem
          rwa [← news_unique hinv.later (mem_cons_of_mem _ hmem) hd' hio hid']
      · rcases mem_cons.1 hd' with rfl | hmem'
        · have hmem : d₁ ∈ Task.declsOf t.tdecls := by assumption
          exact absurd hid ((pairwise_cons.1 hinv.later).1 d₁ hmem id hid').1
        · exact hclosed d₁ hd₁ hkept d' hmem' ⟨id, hid, hid'⟩
    · rw [doRemoval_cons _ _ _ t.known] at h
      obtain ⟨t₁, ht₁, -⟩ := bind_eq_ok.1 h
      rw [Task.declsOf_other htd]
      exact ih ht₁

end Removal

/-! ## The transformation -/

section Transformation

variable {k : ℕ} {t : Task}

theorem onMeta_used {m : Meta} {fn : UsedSymbols → List MetaArg → UsedSymbols} (u : UsedSymbols)
    (hfn : ∀ u al, (fn u al).usedIds = u.usedIds ∧ (fn u al).closure = u.closure) :
    (t.onMeta m fn u).usedIds = u.usedIds ∧ (t.onMeta m fn u).closure = u.closure := by
  unfold Task.onMeta
  generalize t.findMetaTds m = l
  induction l generalizing u with
  | nil => exact ⟨rfl, rfl⟩
  | cons al l ih =>
    rw [foldl_cons]
    obtain ⟨h₁, h₂⟩ := ih (fn u al)
    exact ⟨h₁.trans (hfn u al).1, h₂.trans (hfn u al).2⟩

theorem readMetas_used (keepConstants : Bool) :
    (readMetas keepConstants t).usedIds = [psEqu.lsName, tsInt.tsName] ∧
      (readMetas keepConstants t).closure = [] := by
  unfold readMetas
  simp only
  have h₁ : ∀ u al, (addDependency u al).usedIds = u.usedIds ∧
      (addDependency u al).closure = u.closure := by
    intro u al
    unfold addDependency
    split <;> exact ⟨rfl, rfl⟩
  have h₂ : ∀ u al, (addRemovedConstant u al).usedIds = u.usedIds ∧
      (addRemovedConstant u al).closure = u.closure := by
    intro u al
    unfold addRemovedConstant
    split <;> exact ⟨rfl, rfl⟩
  have h₃ : ∀ u al, (addKeptSymbol u al).usedIds = u.usedIds ∧
      (addKeptSymbol u al).closure = u.closure := by
    intro u al
    unfold addKeptSymbol
    split <;> exact ⟨rfl, rfl⟩
  rw [(onMeta_used _ h₃).1, (onMeta_used _ h₃).2, (onMeta_used _ h₂).1, (onMeta_used _ h₂).2,
    (onMeta_used _ h₁).1, (onMeta_used _ h₁).2]
  exact ⟨rfl, rfl⟩

theorem Pass.init (keepConstants : Bool) :
    Pass (readMetas keepConstants t) [] (readMetas keepConstants t) := by
  obtain ⟨hused, hclosure⟩ := readMetas_used (t := t) keepConstants
  refine ⟨⟨_, _, rfl⟩, fun id => ?_, fun x hx => ?_, fun x y hy => ?_, fun g hg => by cases hg⟩
  · rw [hused, mem_pair]
    constructor
    · rintro (rfl | rfl)
      · exact .equ _
      · exact .int _
    · intro h
      cases h with
      | equ => exact .inl rfl
      | int => exact .inr rfl
      | released hd => cases hd
  · rw [hclosure] at hx
    exact absurd rfl hx
  · rw [Mid.ids, hclosure] at hy
    cases hy

/-- The name of a proposition. -/
def propName? (d : Decl) : Option ℕ :=
  match d.dNode with
  | .dprop _ pr _ => some pr.prName
  | _ => none

/-- An identifier names one thing: the name of a proposition is none of a symbol, in particular
of no symbol that a declaration uses or that a meta names as a dependency. -/
def PropNames (usymb : UsedSymbols) (ds : List Decl) : Prop :=
  ∀ id ∈ ds.filterMap propName?, id ≠ psEqu.lsName ∧ id ≠ tsInt.tsName ∧
    (∀ d ∈ ds, id ∉ getUsedSymsDecl d) ∧ ∀ e ∈ usymb.depends, id ∉ e.2

instance (usymb : UsedSymbols) (ds : List Decl) : Decidable (PropNames usymb ds) :=
  inferInstanceAs (Decidable (∀ id ∈ ds.filterMap propName?, _))

variable {m u : UsedSymbols} {ds : List Decl}

theorem PropNames.of_mem (h : PropNames m ds) (hd : d ∈ ds) {c : PropKind}
    (hnode : d.dNode = .dprop c pr f) : pr.prName ≠ psEqu.lsName ∧ pr.prName ≠ tsInt.tsName ∧
      (∀ d ∈ ds, pr.prName ∉ getUsedSymsDecl d) ∧ ∀ g, ¬ DependsOn m g pr.prName := by
  obtain ⟨hequ, hint, hsyms, hdeps⟩ :=
    h pr.prName (mem_filterMap.2 ⟨d, hd, by rw [propName?, hnode]⟩)
  refine ⟨hequ, hint, hsyms, ?_⟩
  rintro g ⟨c', pr', f', s, -, hs, hmem⟩
  exact hdeps _ (Lookup.mem_of_lookup hs) hmem

theorem Used.append {id : ℕ} (h : Used m ds id) (l : List Decl) : Used m (l ++ ds) id := by
  induction l with
  | nil => exact h
  | cons d l ih => exact .later ih

/-- A proposition whose name is used: what belongs to it is used, and so is one of its
dependencies. -/
theorem used_prop (hnames : PropNames m ds) (hlater : ds.reverse.Pairwise Later)
    (hcreated : ∀ d ∈ ds, d.Created) (hd : d ∈ ds) {c : PropKind} (hnode : d.dNode = .dprop c pr f)
    (h : Used m ds pr.prName) : (∀ id, Own d id → Used m ds id) ∧
      ∀ s, m.depends.lookup pr.prName = some s → ∃ x ∈ s, Used m ds x := by
  obtain ⟨hequ, hint, hsyms, -⟩ := hnames.of_mem hd hnode
  have hpr : pr.prName ∈ d.dNews := by
    rw [prop_news (hcreated d hd) hnode]
    exact mem_singleton_self _
  have hsame : ∀ d₁ ∈ ds, Own d₁ pr.prName → d₁ = d := by
    rintro d₁ hd₁ (hid | hid)
    · exact absurd hid (hsyms d₁ hd₁)
    · exact news_unique hlater (mem_reverse.2 hd₁) (mem_reverse.2 hd) hid hpr
  -- the declaration that makes the name used is the proposition
  have hsuffix : ∀ l id, Used m l id → l <:+ ds → id = pr.prName → (∀ id, Own d id → Used m l id) ∧
      ∀ s, m.depends.lookup pr.prName = some s → ∃ x ∈ s, Used m l x := by
    intro l id hu
    induction hu with
    | equ => exact fun _ heq => absurd heq.symm hequ
    | int => exact fun _ heq => absurd heq.symm hint
    | @later l d₁ id hu ih =>
      intro hl heq
      obtain ⟨hown, hdep⟩ := ih ((suffix_cons d₁ l).trans hl) heq
      exact ⟨fun id ho => .later (hown id ho),
        fun s hs => (hdep s hs).imp fun x hx => ⟨hx.1, .later hx.2⟩⟩
    | @marked l d₁ id hp _ ho | @needed l d₁ x id hp _ _ ho =>
      rintro hl rfl
      obtain rfl := hsame d₁ (hl.subset mem_cons_self) ho
      rw [isProp_iff.2 ⟨c, pr, f, hnode⟩] at hp
      cases hp
    | @prop l d₁ c₁ pr₁ f₁ id hnode₁ hnone ho =>
      rintro hl rfl
      obtain rfl := hsame d₁ (hl.subset mem_cons_self) ho
      obtain ⟨-, rfl, -⟩ : c = c₁ ∧ pr = pr₁ ∧ f = f₁ := by simpa [hnode] using hnode₁
      refine ⟨fun id ho => .prop hnode hnone ho, fun s hs => ?_⟩
      rw [hnone] at hs
      cases hs
    | @released l d₁ x id hd₁ hdep hux ho ih =>
      rintro hl rfl
      obtain rfl := hsame d₁ (hl.subset hd₁) ho
      refine ⟨fun id ho => .released hd₁ hdep hux ho, fun s hs => ?_⟩
      obtain ⟨c₁, pr₁, f₁, s₁, hnode₁, hs₁, hx⟩ := hdep
      obtain ⟨-, rfl, -⟩ : c = c₁ ∧ pr = pr₁ ∧ f = f₁ := by simpa [hnode] using hnode₁
      obtain rfl : s = s₁ := Option.some.inj (hs.symm.trans hs₁)
      exact ⟨x, hx, hux⟩
  exact hsuffix ds _ h suffix_rfl rfl

theorem Pass.keptDecl_iff (h : Pass m ds u) (hd : d.Created) :
    keptDecl u d = true ↔ InUse m ds d := by
  rw [RemoveUnused.keptDecl_iff hd]
  exact exists_congr fun id => and_congr_right fun _ => h.used id

/-- What the first pass keeps is closed exactly when the declarations that get used late
have their symbols among the used ones. -/
theorem Pass.closed_iff {l : List Decl} (h : Pass m l.reverse u) (hnames : PropNames m l.reverse)
    (hlater : l.Pairwise Later) (hcreated : ∀ d ∈ l, d.Created) :
    Closed u l ↔ LateUses m l.reverse := by
  constructor
  · rintro hclosed ds₁ d ds₂ heq - - - huse d' hd' hid
    have hd : d ∈ l := mem_reverse.1 (heq ▸ mem_append_right _ mem_cons_self)
    have hd' : d' ∈ l := mem_reverse.1 (heq ▸ mem_append_left _ hd')
    rw [← h.keptDecl_iff (hcreated d hd)] at huse
    exact (h.keptDecl_iff (hcreated d' hd')).1 (hclosed d hd huse d' hd' hid)
  · rintro hlate d hd hkept d' hd' ⟨id, hid, hid'⟩
    rw [h.keptDecl_iff (hcreated d hd)] at hkept
    rw [h.keptDecl_iff (hcreated d' hd')]
    obtain ⟨ds₁, ds₂, heq⟩ := append_of_mem (mem_reverse.2 hd)
    by_cases hprop : isProp d = true
    · obtain ⟨c, pr, f, hnode⟩ := isProp_iff.1 hprop
      obtain ⟨x, hx, hux⟩ := hkept
      rw [prop_news (hcreated d hd) hnode, mem_singleton] at hx
      subst hx
      have hown := (used_prop hnames (by rwa [reverse_reverse])
        (fun d hd => hcreated d (mem_reverse.1 hd)) (mem_reverse.2 hd) hnode hux).1
      exact ⟨id, hid', hown id (.inl hid)⟩
    have hprop : isProp d = false := by simpa using hprop
    have hstep : Used m (d :: ds₂) id → InUse m l.reverse d' := fun hu =>
      ⟨id, hid', heq ▸ hu.append ds₁⟩
    cases hmarked : declaresANeededSymbol m d with
    | true => exact hstep (.marked hprop hmarked (.inl hid))
    | false =>
      by_cases hneeded : InUse m ds₂ d
      · obtain ⟨x, hx, hux⟩ := hneeded
        exact hstep (.needed hprop hx hux (.inl hid))
      · -- `d` gets used late
        have hmem := mem_reverse.2 hd'
        rw [heq, mem_append, mem_cons] at hmem
        rcases hmem with hmem | rfl | hmem
        · exact hlate ds₁ d ds₂ heq hprop hmarked hneeded hkept d' hmem ⟨id, hid, hid'⟩
        · exact hkept
        · have hpair : (ds₁ ++ d :: ds₂).Pairwise fun d₀ d => Later d d₀ := by
            rw [← heq, pairwise_reverse]
            exact hlater
          have hafter := (pairwise_cons.1 (pairwise_append.1 hpair).2.1).1 d' hmem
          exact absurd hid (hafter id hid').1

/-- The transformation returns a task, with the goal as it was, exactly when a dependency of
the goal is used, if it has any, and no declaration gets used late whose symbols are not
used. -/
theorem removeUnused_ok (keepConstants : Bool) (hrun : Task.Run k t)
    (hprop : PropNames (readMetas keepConstants t) (Task.declsOf t.tdecls).reverse) :
    (∃ t', removeUnused k keepConstants t = .ok t' ∧ Task.DeclaredBeforeUse t'.tdecls ∧
      t'.tdecls.Sublist t.tdecls ∧
      ∀ td, t.tdecls.head? = some td → td.IsGoal → t'.tdecls.head? = some td) ↔
    (∀ pr f n, t.tdecls.head? = some (.decl ⟨.dprop .pgoal pr f, n⟩) →
      ∀ s, (readMetas keepConstants t).depends.lookup pr.prName = some s →
        ∃ x ∈ s, Used (readMetas keepConstants t) (Task.declsOf t.tdecls).reverse x) ∧
    LateUses (readMetas keepConstants t) (Task.declsOf t.tdecls).reverse := by
  have hinv := hrun.inv
  have hcreated' : ∀ d ∈ (Task.declsOf t.tdecls).reverse, d.Created :=
    fun d hd => hinv.created d (mem_reverse.1 hd)
  have hpass : Pass (readMetas keepConstants t) (Task.declsOf t.tdecls).reverse
      (computeUsedIds (readMetas keepConstants t) t.tdecls) := by
    rw [← append_nil (Task.declsOf t.tdecls).reverse]
    refine (Pass.init keepConstants).computeUsedIds hinv.created fun d hd c pr f hnode g _ => ?_
    exact (hprop.of_mem (mem_reverse.2 hd) hnode).2.2.2 g
  have hclosed := hpass.closed_iff hprop hinv.later hinv.created
  have hhead : ∀ td, t.tdecls.head? = some td → td.IsGoal →
      ∃ pr f n, td = .decl ⟨.dprop .pgoal pr f, n⟩ ∧ ⟨.dprop .pgoal pr f, n⟩ ∈ Task.declsOf t.tdecls := by
    rintro td htd ⟨pr, f, n, rfl⟩
    exact ⟨pr, f, n, rfl, mem_filterMap.2 ⟨_, mem_of_head? htd, rfl⟩⟩
  constructor
  · rintro ⟨t', hok, -, -, hgoal⟩
    have hcl := closed_of_doRemoval hrun hok
    obtain ⟨t₁, hb⟩ := exists_rebuilt hrun hcl
    obtain rfl : t₁ = t' := Except.ok.inj (hb.result.symm.trans hok)
    refine ⟨fun pr f n htd => ?_, hclosed.1 hcl⟩
    have hmem := mem_of_head? (hgoal _ htd ⟨pr, f, n, rfl⟩)
    rw [hb.tdecls] at hmem
    obtain ⟨hd, hkept⟩ := mem_declsOf_kept (mem_filterMap.2 ⟨_, hmem, rfl⟩)
    obtain ⟨x, hx, hux⟩ := (hpass.keptDecl_iff (hinv.created _ hd)).1 hkept
    rw [prop_news (hinv.created _ hd) rfl, mem_singleton] at hx
    subst hx
    exact (used_prop hprop (by rw [reverse_reverse]; exact hinv.later) hcreated'
      (mem_reverse.2 hd) rfl hux).2
  · rintro ⟨hgoal, hlate⟩
    obtain ⟨t', hb⟩ := exists_rebuilt hrun (hclosed.2 hlate)
    refine ⟨t', hb.result, hb.run.inv.before, ?_, fun td htd hisGoal => ?_⟩
    · rw [hb.tdecls]
      exact filter_sublist
    · obtain ⟨pr, f, n, rfl, hd⟩ := hhead td htd hisGoal
      have hkept : keptDecl (computeUsedIds (readMetas keepConstants t) t.tdecls)
          ⟨.dprop .pgoal pr f, n⟩ = true := by
        have hpr : Own ⟨.dprop .pgoal pr f, n⟩ pr.prName := .inr (by
          rw [prop_news (hinv.created _ hd) rfl]
          exact mem_singleton_self _)
        refine (hpass.keptDecl_iff (hinv.created _ hd)).2 ⟨pr.prName, hpr.resolve_left fun h => ?_, ?_⟩
        · exact (hprop.of_mem (mem_reverse.2 hd) rfl).2.2.1 _ (mem_reverse.2 hd) h
        · cases hdeps : (readMetas keepConstants t).depends.lookup pr.prName with
          | none =>
            obtain ⟨ds₁, ds₂, heq⟩ := append_of_mem (mem_reverse.2 hd)
            rw [heq]
            exact (Used.prop rfl hdeps hpr).append ds₁
          | some s =>
            obtain ⟨x, hx, hux⟩ := hgoal pr f n htd s hdeps
            exact .released (mem_reverse.2 hd) ⟨_, pr, f, s, rfl, hdeps, hx⟩ hux hpr
      obtain ⟨l, hl⟩ := head?_eq_some_iff.1 htd
      rw [hb.tdecls, hl, kept, filter_cons_of_pos]
      · rfl
      · rw [hl] at hkept
        rw [doRemovalUnusedDecl, hkept]
        rfl

end Transformation

/-! ## A hypothesis that is released late -/

namespace Late

open PropKind

def pred (n : ℕ) : LSymbol := ⟨n, [], none, 0, false⟩

def atom (n : ℕ) : Term := .tapp [] (pred n) [] none

def paramDecl (n : ℕ) : Tdecl := .decl ⟨.dparam (pred n), [n]⟩

/-- `predicate n = m`. -/
def defn (n m : ℕ) : LSymbol × LsDefn :=
  (pred n, ⟨pred n, .tbinop [] .tiff (atom n) (atom m), []⟩)

def logicDecl (n m : ℕ) : Tdecl := .decl ⟨.dlogic [defn n m], [n]⟩

def propDecl (k : PropKind) (pr n : ℕ) : Tdecl := .decl ⟨.dprop k ⟨pr⟩ (atom n), [pr]⟩

/-- The hypothesis `pr` is needed with the predicate `n` only. -/
def dependency (pr n : ℕ) : Tdecl := .metaDecl .depends [.maPr ⟨pr⟩, .maLs (pred n)]

/-- The predicates `u` (100) and `x` (101), the definitions `d = x` (102) and `s = u` (103), an
axiom `H : s` (104) that is needed with `x` only, and the goal `d` (105). -/
def lateTdecls : List Tdecl :=
  [paramDecl 100, paramDecl 101, logicDecl 102 101, logicDecl 103 100, propDecl paxiom 104 103,
    dependency 104 101, propDecl pgoal 105 102]

/-- The same with an abstract `s`: when it gets used late, there is nothing more to keep. -/
def abstractTdecls : List Tdecl :=
  [paramDecl 101, logicDecl 102 101, paramDecl 103, propDecl paxiom 104 103, dependency 104 101,
    propDecl pgoal 105 102]

def taskOf (l : List Tdecl) : Task :=
  ⟨l.reverse, (Task.declsOf l.reverse).flatMap fun d => d.dNews.map (·, d)⟩

theorem created {td : Tdecl} (htd : td ∈ paramDecl 103 :: lateTdecls) :
    ∀ d, td = .decl d → d.Created := by
  simp only [lateTdecls, mem_cons, not_mem_nil, or_false] at htd
  rintro d rfl
  rcases htd with h | h | h | h | h | h | h | h <;> cases h
  · exact .param (rfl : createParamDecl (pred 103) = _)
  · exact .param (rfl : createParamDecl (pred 100) = _)
  · exact .param (rfl : createParamDecl (pred 101) = _)
  · exact .logic (rfl : createLogicDecl [defn 102 101] = _)
  · exact .logic (rfl : createLogicDecl [defn 103 100] = _)
  · exact .prop (rfl : createPropDecl paxiom ⟨104⟩ (atom 103) = _)
  · exact .prop (rfl : createPropDecl pgoal ⟨105⟩ (atom 102) = _)

theorem run_late : Task.Run 200 (taskOf lateTdecls) :=
  Task.Run.nil.foldlM (fun _ h => created (mem_cons_of_mem _ h)) rfl

theorem run_abstract : Task.Run 200 (taskOf abstractTdecls) := by
  refine Task.Run.nil.foldlM (l := abstractTdecls) (fun td h => created ?_) rfl
  simp only [abstractTdecls, lateTdecls, mem_cons] at h ⊢
  tauto

/-- The hypothesis `H` is released when `d` is met, after `s` was skipped; the second pass
keeps `s` and not `u`. -/
theorem not_removeUnused_ok :
    ¬ ∀ (k : ℕ) (keepConstants : Bool) (t : Task), Task.Run k t →
      PropNames (readMetas keepConstants t) (Task.declsOf t.tdecls).reverse →
      ∃ t', removeUnused k keepConstants t = .ok t' := by
  intro h
  obtain ⟨t', ht'⟩ := h 200 false (taskOf lateTdecls) run_late (by decide)
  have herr : removeUnused 200 false (taskOf lateTdecls) = .error (.decl (.unknownIdent 100)) := rfl
  rw [herr] at ht'
  cases ht'

/-- An abstract `s` is released as late, and everything is kept. -/
theorem removeUnused_abstract :
    ∃ t', removeUnused 200 false (taskOf abstractTdecls) = .ok t' ∧
      Task.DeclaredBeforeUse t'.tdecls ∧ t'.tdecls.head? = some (propDecl pgoal 105 102) := by
  obtain ⟨t', ht', hbefore, -, hgoal⟩ := (removeUnused_ok false run_abstract (by decide)).2 (by
    refine ⟨fun pr f n h s hs => (by cases h; cases hs), ?_⟩
    intro ds₁ d ds₂ heq hp _ hneeded _ d' _ hid
    obtain ⟨id, hid, -⟩ := hid
    rcases ds₁ with _ | ⟨_, _ | ⟨_, _ | ⟨_, _ | ⟨_, _ | ⟨_, _ | ⟨_, ds₁⟩⟩⟩⟩⟩⟩ <;> cases heq
    · cases hid
    · -- the goal uses `d`, which is needed in time
      exact absurd ⟨102, mem_singleton_self _, .later (.later (.prop rfl rfl (.inl (by decide))))⟩ hneeded
    · cases hid
    · cases hp
    · cases hp)
  exact ⟨t', ht', hbefore, hgoal _ rfl ⟨_, _, _, rfl⟩⟩

end Late

end RemoveUnused

end Why3
