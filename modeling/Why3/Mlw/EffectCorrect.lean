import Why3.Lib.Avoiding
import Why3.Mlw.Cty
import Why3.Mlw.Exposed

/-!
# Covers and resets

In every effect that the operations make, the covers are written regions that are not
reset, and each other written region is stale: a reset region can be reached from it
without crossing a cover.  The unions keep this because a cover that one side makes stale
is removed, and creating or instantiating a computation type because only the covers are
still written there.
-/

namespace Why3

open Avoiding Checks Relation List TagMap

variable {e : Effect}

namespace Effect

/-- The regions exposed in a region. -/
def Inner (r r' : Region) : Prop := r' ∈ r.expRegs

/-- The covers are written and not reset, and every other written region is stale. -/
def Covering (e : Effect) : Prop :=
  Guarded Inner (· ∈ e.effWrites.keys) (· ∈ e.effCovers) (· ∈ e.effResets)

/-- The covers are the written regions, and are not reset. -/
structure Settled (e : Effect) : Prop where
  disjoint : ∀ r ∈ e.effCovers, r ∉ e.effResets
  covers : ∀ r, r ∈ e.effWrites.keys ↔ r ∈ e.effCovers

theorem Settled.covering (h : Settled e) : Covering e :=
  .of_marked h.disjoint h.covers

theorem isStale_iff {r : Region} :
    isStale e r = true ↔ Exposed Inner (· ∈ e.effCovers) (· ∈ e.effResets) r := by
  unfold isStale Region.rStale Ity.rStale Ity.uncRegs
  rw [any_eq_true, exposed_iff]
  have hstep : ExpStep (fun r => decide (r ∈ e.effCovers)) =
      fun x y => Inner x y ∧ y ∉ e.effCovers := by
    funext x y
    simp [ExpStep, Inner]
  simp only [mem_walk, hstep, Ity.expRegs, mem_singleton, exists_eq_left,
    decide_eq_false_iff_not, decide_eq_true_eq]
  constructor
  · rintro ⟨s, ⟨hr, hs⟩, hreset⟩
    exact ⟨hr, s, hreset, hs⟩
  · rintro ⟨hr, s, hreset, hs⟩
    exact ⟨s, ⟨hr, hs⟩, hreset⟩

/-! ## Operations that keep the writes -/

/-- The writes, the covers and the resets are the same. -/
structure Frame (e e' : Effect) : Prop where
  writes : e'.effWrites = e.effWrites
  covers : e'.effCovers = e.effCovers
  resets : e'.effResets = e.effResets

section Frame

variable {e e' e'' : Effect}

theorem Frame.refl (e : Effect) : Frame e e := ⟨rfl, rfl, rfl⟩

theorem Frame.trans (h : Frame e e') (h' : Frame e' e'') : Frame e e'' :=
  ⟨h'.writes.trans h.writes, h'.covers.trans h.covers, h'.resets.trans h.resets⟩

theorem Frame.covering (h : Frame e e') (he : Covering e) : Covering e' := by
  unfold Covering
  rw [h.writes, h.covers, h.resets]
  exact he

theorem Frame.settled (h : Frame e e') (he : Settled e) : Settled e' := by
  constructor
  · rw [h.covers, h.resets]
    exact he.disjoint
  · rw [h.writes, h.covers]
    exact he.covers

theorem resetTaints_frame (h : resetTaints e = .ok e') : Frame e e' := by
  unfold resetTaints at h
  rw [bind_eq_ok] at h
  obtain ⟨tnt, _, h⟩ := h
  cases h
  exact ⟨rfl, rfl, rfl⟩

theorem effGhostify_frame {gh : Bool} (h : effGhostify gh e = .ok e') : Frame e e' := by
  unfold effGhostify at h
  split_ifs at h
  · cases h
    exact .refl e
  · have hframe := resetTaints_frame h
    exact ⟨hframe.writes, hframe.covers, hframe.resets⟩

theorem effGhostifyWeak_frame {gh : Bool} (h : effGhostifyWeak gh e = .ok e') : Frame e e' := by
  unfold effGhostifyWeak at h
  split_ifs at h
  · cases h
    exact .refl e
  · cases h
    exact .refl e
  · exact effGhostify_frame h
  · cases h
    exact .refl e

theorem effReadPre_frame {rd : Spv} (h : effReadPre rd e = .ok e') : Frame e e' := by
  unfold effReadPre at h
  split_ifs at h
  · cases h
    exact .refl e
  · rw [bind_eq_ok] at h
    obtain ⟨_, _, h⟩ := h
    cases h
    exact ⟨rfl, rfl, rfl⟩

theorem effReadPost_frame {rd : Spv} (h : effReadPost e rd = .ok e') : Frame e e' := by
  unfold effReadPost at h
  simp only [bind_eq_ok] at h
  obtain ⟨_, _, _, _, h⟩ := h
  exact effReadPre_frame h

theorem effBind_frame {α : Type} (rd : Mpv α) (e : Effect) : Frame e (effBind rd e) := by
  unfold effBind
  split
  · exact .refl e
  · exact ⟨rfl, rfl, rfl⟩

theorem effContaminateWeak_frame {e1 : Effect} (h : effContaminateWeak e1 e = .ok e') :
    Frame e e' := by
  unfold effContaminateWeak at h
  split_ifs at h
  · cases h
    exact .refl e
  · exact effGhostifyWeak_frame h
  · exact effGhostify_frame h

theorem effContaminate_frame {e1 : Effect} (h : effContaminate e1 e = .ok e') : Frame e e' := by
  unfold effContaminate at h
  split_ifs at h
  · cases h
    exact .refl e
  · cases h
    exact .refl e
  · exact effGhostify_frame h

end Frame

/-! ## Reads, writes and assignments -/

section Basic

theorem effEmpty_settled : Settled effEmpty where
  disjoint := by
    intro r hr
    cases hr
  covers := by
    intro r
    simp [effEmpty, TagMap.keys, empty]

theorem effRead_settled (rd : Spv) : Settled (effRead rd) := by
  have hframe : Frame effEmpty (effRead rd) := by
    unfold effRead
    split
    · exact .refl _
    · exact ⟨rfl, rfl, rfl⟩
  exact hframe.settled effEmpty_settled

theorem effWrite_settled {rd : Spv} {wr : Mreg (List PvSymbol)}
    (h : effWrite rd wr = .ok e) : Settled e := by
  unfold effWrite at h
  split_ifs at h
  · cases h
    exact effRead_settled rd
  · rw [bind_eq_ok] at h
    obtain ⟨_, _, h⟩ := h
    apply (resetTaints_frame h).settled
    exact ⟨fun r _ hr => not_mem_nil hr, fun r => .rfl⟩

theorem effAssign_covering {asl : List Assign} (h : effAssign asl = .ok e) :
    Covering e := by
  unfold effAssign at h
  rw [bind_eq_ok] at h
  obtain ⟨e₀, he₀, h⟩ := h
  cases h
  have hok : Why3.effAssign asl = .ok e₀ := by
    unfold check at he₀
    split at he₀
    · next hx =>
        cases he₀
        exact hx
    · cases he₀
  unfold Why3.effAssign at hok
  simp only [bind_eq_ok] at hok
  obtain ⟨writes, _, _, _, _, _, m, _, acc, _, _, _, hok⟩ := hok
  cases hok
  have hkeys : (writes.map TagMap.keys).keys = writes.keys := by
    unfold TagMap.keys TagMap.map
    rw [List.map_map]
    rfl
  refine ⟨fun r hr hreset => ?_, fun r hr => ?_, fun r hr hnot => ?_⟩
  · rw [mem_filter] at hr
    exact of_decide_eq_true hr.2 hreset
  · rw [mem_filter] at hr
    rw [hkeys]
    exact hr.1
  · rw [hkeys] at hr
    rw [mem_filter, not_and, decide_eq_true_eq, not_not] at hnot
    exact .here (by simpa using fun _ => hnot hr) (hnot hr)

theorem addMfld_mono {wr : List Region} {r : Region} {fs : List PvSymbol}
    {acc acc' : List Region × List Region} {f : PvSymbol} (h : addMfld wr r fs acc f = .ok acc') :
    ∀ x ∈ acc.1, x ∈ acc'.1 := by
  intro x hx
  unfold addMfld at h
  split at h
  · cases h
  · split at h
    · cases h
      exact hx
    · cases h
      exact mem_append_left _ hx

/-- The surviving regions are kept, and the written region is one of them. -/
theorem addOverwritten_mono {wr : List Region} {acc acc' : List Region × List Region}
    {w : Region × List PvSymbol} (h : addOverwritten wr acc w = .ok acc') :
    (∀ x ∈ acc.1, x ∈ acc'.1) ∧ w.1 ∈ acc'.1 := by
  unfold addOverwritten at h
  split at h
  · cases h
  · have hfold := foldlM_all (M := fun a b : List Region × List Region => ∀ r ∈ a.1, r ∈ b.1)
      (P := fun _ _ => True) (fun _ _ h => h) (fun h h' r hr => h' r (h r hr)) (fun h _ => h)
      (fun hstep => ⟨addMfld_mono hstep, trivial⟩) h
    constructor
    · intro x hx
      apply hfold.1
      exact mem_append_left _ (mem_cons_of_mem _ hx)
    · apply hfold.1
      exact mem_append_left _ mem_cons_self

/-- A new reset region is not among the regions that survive, and these contain the
written ones. -/
theorem effResetOverwritten_settled {e' : Effect} (h : effResetOverwritten e = .ok e')
    (he : Covering e) : Settled e' := by
  unfold effResetOverwritten at h
  split at h
  · cases h
  · next hempty =>
      rw [bind_eq_ok] at h
      obtain ⟨acc, hacc, h⟩ := h
      cases h
      have hnil : e.effResets = [] := by simpa using hempty
      have hsurvive : ∀ w ∈ e.effWrites.entries, w.1 ∈ acc.1 := by
        have hfold := foldlM_all (M := fun a b : List Region × List Region => ∀ r ∈ a.1, r ∈ b.1)
          (P := fun w a => w.1 ∈ a.1) (f := addOverwritten e.effWrites.keys)
          (fun _ _ h => h) (fun h h' r hr => h' r (h r hr)) (fun h h' => h' _ h)
          (fun hstep => addOverwritten_mono hstep) hacc
        exact hfold.2
      have hcovers : ∀ r, r ∈ e.effWrites.keys ↔ r ∈ e.effCovers := by
        intro r
        refine ⟨fun hr => ?_, he.covered r⟩
        by_contra hnot
        have hex := he.exposed r hr hnot
        obtain ⟨_, s, hs, _⟩ := exposed_iff.mp hex
        rw [hnil] at hs
        cases hs
      refine ⟨fun r hr hreset => ?_, hcovers⟩
      obtain ⟨w, hw, rfl⟩ := mem_map.mp ((hcovers r).mpr hr)
      rw [mem_filter] at hreset
      exact of_decide_eq_true hreset.2 (hsurvive w hw)

end Basic

/-! ## Unions -/

section Union

variable {e1 e2 e : Effect}

theorem effJoin_covering (h1 : Covering e1) (h2 : Covering e2) : Covering (effJoin e1 e2) := by
  have hjoin := h1.join h2
  have hwrites : ∀ r, r ∈ (effJoin e1 e2).effWrites.keys ↔
      r ∈ e1.effWrites.keys ∨ r ∈ e2.effWrites.keys := fun r => mem_keys_union
  have hcovers : ∀ r, r ∈ (effJoin e1 e2).effCovers ↔
      keptCover Inner (· ∈ e1.effCovers) (· ∈ e1.effResets) (· ∈ e2.effCovers)
        (· ∈ e2.effResets) r := by
    intro r
    unfold effJoin removeStale keptCover
    simp only [mem_append, mem_filter, Bool.not_eq_true', ← Bool.not_eq_true,
      isStale_iff]
  have hresets : ∀ r, r ∈ (effJoin e1 e2).effResets ↔ r ∈ e1.effResets ∨ r ∈ e2.effResets :=
    fun r => mem_append
  unfold Covering
  simp only [hwrites, hcovers, hresets]
  exact hjoin

/-- Neither assertion fails when the union is guarded. -/
theorem effUnion_cases (h1 : Covering e1) (h2 : Covering e2) :
    effUnion e1 e2 = .ok (effJoin e1 e2) ∨ ∃ x, effUnion e1 e2 = .error (.assign x) := by
  have hjoin := effJoin_covering h1 h2
  unfold effUnion
  have hcheck : ∀ x : Except EffExn Unit, check x = .ok () ∨ ∃ y, check x = .error (.assign y) := by
    intro x
    cases x with
    | ok _ => exact .inl rfl
    | error y => exact .inr ⟨y, rfl⟩
  rcases hcheck (checkTaints e1.effTaints e2.effReads) with hc1 | ⟨y, hc1⟩
  · rcases hcheck (checkTaints e2.effTaints e1.effReads) with hc2 | ⟨y, hc2⟩
    · left
      rw [hc1, hc2]
      have hdisj : ¬ (effJoin e1 e2).effCovers.any (· ∈ (effJoin e1 e2).effResets) = true := by
        intro hany
        obtain ⟨r, hr, hreset⟩ := any_eq_true.mp hany
        exact hjoin.disjoint r hr (of_decide_eq_true hreset)
      have hstale : ((effJoin e1 e2).effWrites.keys.filter
          (· ∉ (effJoin e1 e2).effCovers)).all (isStale (effJoin e1 e2)) = true := by
        rw [all_eq_true]
        intro r hr
        rw [mem_filter] at hr
        exact isStale_iff.mpr (hjoin.exposed r hr.1 (of_decide_eq_true hr.2))
      simp only [bind, Except.bind]
      rw [if_neg hdisj, hstale]
      rfl
    · right
      rw [hc1, hc2]
      exact ⟨y, rfl⟩
  · right
    rw [hc1]
    exact ⟨y, rfl⟩

theorem effUnion_covering (h : effUnion e1 e2 = .ok e) (h1 : Covering e1) (h2 : Covering e2) :
    Covering e := by
  rcases effUnion_cases h1 h2 with hok | ⟨x, herr⟩
  · rw [hok] at h
    cases h
    exact effJoin_covering h1 h2
  · rw [herr] at h
    cases h

theorem effFusion_settled (h : effFusion e1 e2 = .ok e) (h1 : Covering e1) (h2 : Covering e2) :
    Settled e := by
  unfold effFusion at h
  rw [bind_eq_ok] at h
  obtain ⟨e₀, he₀, h⟩ := h
  cases h
  have hcov := effUnion_covering he₀ h1 h2
  refine ⟨hcov.disjoint, fun r => ?_⟩
  rw [mem_keys_filterKeys, decide_eq_true_eq]
  exact ⟨And.right, fun hr => ⟨hcov.covered r hr, hr⟩⟩

theorem effUnionPar_covering (h : effUnionPar e1 e2 = .ok e) (h1 : Covering e1)
    (h2 : Covering e2) : Covering e := by
  unfold effUnionPar at h
  simp only [bind_eq_ok] at h
  obtain ⟨e2', he2, e1', he1, h⟩ := h
  exact effUnion_covering h ((effContaminateWeak_frame he1).covering h1)
    ((effContaminateWeak_frame he2).covering h2)

theorem effUnionSeq_covering (h : effUnionSeq e1 e2 = .ok e) (h1 : Covering e1)
    (h2 : Covering e2) : Covering e := by
  unfold effUnionSeq at h
  simp only [bind_eq_ok] at h
  obtain ⟨_, _, _, _, e2', he2, e1', he1, h⟩ := h
  exact effUnion_covering h ((effContaminateWeak_frame he1).covering h1)
    ((effContaminate_frame he2).covering h2)

end Union

/-! ## The assertions -/

section Assertions

variable {e1 e2 : Effect}

theorem check_ne_assert {α : Type} {x : Except EffExn α} : check x ≠ .error .assertFailure := by
  cases x <;> simp [check]

theorem effGhostify_ne_assert {gh : Bool} :
    effGhostify gh e ≠ .error .assertFailure := by
  intro h
  unfold effGhostify at h
  split_ifs at h
  · cases h
  · unfold resetTaints at h
    rw [bind_eq_error] at h
    rcases h with h | ⟨_, _, h⟩
    · unfold newTaints at h
      dsimp only at h
      split at h
      · rw [bind_eq_error] at h
        rcases h with h | ⟨_, _, h⟩
        · exact check_ne_assert h
        · cases h
      · cases h
    · cases h

theorem effContaminateWeak_ne_assert : effContaminateWeak e1 e2 ≠ .error .assertFailure := by
  intro h
  unfold effContaminateWeak at h
  split_ifs at h
  · unfold effGhostifyWeak at h
    split_ifs at h
    exact effGhostify_ne_assert h
  · exact effGhostify_ne_assert h

theorem effContaminate_ne_assert : effContaminate e1 e2 ≠ .error .assertFailure := by
  intro h
  unfold effContaminate at h
  split_ifs at h
  exact effGhostify_ne_assert h

theorem effUnion_ne_assert (h1 : Covering e1) (h2 : Covering e2) :
    effUnion e1 e2 ≠ .error .assertFailure := by
  rcases effUnion_cases h1 h2 with hok | ⟨x, herr⟩
  · rw [hok]
    nofun
  · rw [herr]
    nofun

theorem effFusion_ne_assert (h1 : Covering e1) (h2 : Covering e2) :
    effFusion e1 e2 ≠ .error .assertFailure := by
  intro h
  unfold effFusion at h
  rw [bind_eq_error] at h
  rcases h with h | ⟨_, _, h⟩
  · exact effUnion_ne_assert h1 h2 h
  · cases h

theorem effUnionPar_ne_assert (h1 : Covering e1) (h2 : Covering e2) :
    effUnionPar e1 e2 ≠ .error .assertFailure := by
  intro h
  unfold effUnionPar at h
  simp only [bind_eq_error] at h
  rcases h with h | ⟨e2', he2, h | ⟨e1', he1, h⟩⟩
  · exact effContaminateWeak_ne_assert h
  · exact effContaminateWeak_ne_assert h
  · exact effUnion_ne_assert ((effContaminateWeak_frame he1).covering h1)
      ((effContaminateWeak_frame he2).covering h2) h

theorem effUnionSeq_ne_assert (h1 : Covering e1) (h2 : Covering e2) :
    effUnionSeq e1 e2 ≠ .error .assertFailure := by
  intro h
  unfold effUnionSeq at h
  simp only [bind_eq_error] at h
  rcases h with h | ⟨_, _, h | ⟨_, _, h | ⟨e2', he2, h | ⟨e1', he1, h⟩⟩⟩⟩
  · exact check_ne_assert h
  · exact check_ne_assert h
  · exact effContaminate_ne_assert h
  · exact effContaminateWeak_ne_assert h
  · exact effUnion_ne_assert ((effContaminateWeak_frame he1).covering h1)
      ((effContaminate_frame he2).covering h2) h

end Assertions

/-! ## Instantiation -/

section Inst

variable {α : Type} {sbs : ItySubst}

/-- The substitution sends a region to another one. -/
def Sends (sbs : ItySubst) (p r : Region) : Prop := (p, .ityreg r) ∈ sbs.isbReg

/-- A step that adds the keys of `T`, none of which was there. -/
structure Claims (T : Region → Prop) (m m' : Mreg α) : Prop where
  new : ∀ r, T r → r ∉ m.keys
  keys : ∀ r, r ∈ m'.keys ↔ r ∈ m.keys ∨ T r

theorem claims_foldlM {β : Type} {f : Mreg α → β → Except EffectExn (Mreg α)}
    {T : β → Region → Prop} (hstep : ∀ {m b m'}, f m b = .ok m' → Claims (T b) m m') :
    ∀ {l : List β} {m m' : Mreg α}, l.foldlM f m = .ok m' →
      Claims (fun r => ∃ b ∈ l, T b r) m m' ∧
        l.Pairwise (fun b b' => ∀ r, T b r → ¬ T b' r) := by
  intro l
  induction l with
  | nil =>
    intro m m' h
    cases h
    exact ⟨⟨by simp, by simp⟩, .nil⟩
  | cons b l ih =>
    intro m m' h
    rw [foldlM_cons, bind_eq_ok] at h
    obtain ⟨m₁, hm₁, h⟩ := h
    have hb := hstep hm₁
    obtain ⟨hl, hpair⟩ := ih h
    refine ⟨⟨?_, fun r => ?_⟩, .cons (fun b' hb' r hr hr' => ?_) hpair⟩
    · rintro r ⟨b', hb', hr⟩
      rcases mem_cons.mp hb' with rfl | hb'
      · exact hb.new r hr
      · exact fun hmem => hl.new r ⟨b', hb', hr⟩ ((hb.keys r).mpr (.inl hmem))
    · rw [hl.keys, hb.keys, exists_mem_cons_iff, or_assoc]
    · exact hl.new r ⟨b', hb', hr'⟩ ((hb.keys r).mpr (.inr hr))

theorem instBinding_claims {p : Region} {v : α} {m m' : Mreg α} {b : Region × Ity}
    (h : instBinding p v m b = .ok m') : Claims (fun r => b = (p, .ityreg r)) m m' := by
  obtain ⟨q, t⟩ := b
  -- the bindings that are not of the region to a region add nothing
  have hsame : (∀ r, (q, t) ≠ (p, .ityreg r)) → m = m' →
      Claims (fun r => (q, t) = (p, .ityreg r)) m m' := by
    rintro hne rfl
    exact ⟨fun r hr => absurd hr (hne r), fun r => by simp [hne r]⟩
  cases t with
  | ityreg r =>
    unfold instBinding at h
    dsimp only at h
    split_ifs at h with hpq
    · subst hpq
      split at h
      · cases h
      · next hnone =>
          cases h
          refine ⟨fun s hs => ?_, fun s => ?_⟩
          · cases hs
            rw [TagMap.mem_keys, hnone]
            simp
          · rw [mem_keys_add, or_comm]
            simp [eq_comm]
    · apply hsame
      · intro s hs
        cases hs
        exact hpq rfl
      · exact Except.ok.inj h
  | ityapp s tl rl =>
    unfold instBinding at h
    dsimp only at h
    split at h
    · cases h
    · apply hsame
      · nofun
      · exact Except.ok.inj h
  | ityvar v =>
    apply hsame
    · nofun
    · exact Except.ok.inj h

/-- The images of the regions, which are distinct. -/
theorem instRegs_ok {src m : Mreg α} (h : instRegs sbs src = .ok m) :
    (∀ r, r ∈ m.keys ↔ ∃ p ∈ src.keys, Sends sbs p r) ∧
      ∀ p ∈ src.keys, ∀ q ∈ src.keys, ∀ r, Sends sbs p r → Sends sbs q r → p = q := by
  have hstep : ∀ {m : Mreg α} {e : Region × α} {m' : Mreg α},
      sbs.isbReg.foldlM (instBinding e.1 e.2) m = .ok m' → Claims (Sends sbs e.1) m m' := by
    intro m e m' h
    have hT : (fun r => ∃ b ∈ sbs.isbReg, b = (e.1, .ityreg r)) = Sends sbs e.1 := by
      funext r
      simp [Sends]
    have hclaims := (claims_foldlM (T := fun b r => b = (e.1, .ityreg r))
      (fun h => instBinding_claims h) h).1
    rw [hT] at hclaims
    exact hclaims
  obtain ⟨hclaims, hpair⟩ := claims_foldlM (T := fun (e : Region × α) r => Sends sbs e.1 r)
    (fun h => hstep h) h
  constructor
  · intro r
    rw [hclaims.keys]
    simp [TagMap.keys, empty]
  · intro p hp q hq r hpr hqr
    obtain ⟨e, he, rfl⟩ := mem_map.mp hp
    obtain ⟨e', he', rfl⟩ := mem_map.mp hq
    have : Std.Symm (fun b b' : Region × α => ∀ r, Sends sbs b.1 r → ¬ Sends sbs b'.1 r) :=
      ⟨fun _ _ h r hr' hr => h r hr hr'⟩
    by_contra hne
    exact hpair.forall he he' (fun h => hne (by rw [h])) r hpr hqr

/-- A cover and a reset region with the same image are both outside of what is safe, so
they cannot both be instantiated. -/
theorem effInst_settled {e' : Effect} (h : effInst sbs e = .ok e') (he : Settled e) :
    Settled e' := by
  unfold effInst at h
  simp only [bind_eq_ok] at h
  obtain ⟨spoils, _, writes, hwrites, resets, hresets, taints, _, covers, hcovers, impact, himpact,
    h⟩ := h
  split at h
  · cases h
  · cases h
    have hsafe : ∀ p t, Sends sbs p t → p ∈ e.effCovers ∨ p ∈ e.effResets →
        p ∈ (ofKeys ((sbs.isbReg.map Prod.fst).filter
          (· ∉ (safeBindings sbs e).map Prod.fst))).keys := by
      intro p t hp hmod
      rw [mem_keys_ofKeys, mem_filter, decide_eq_true_eq]
      refine ⟨mem_map_of_mem hp, fun hsafe => ?_⟩
      obtain ⟨b, hb, rfl⟩ := mem_map.mp hsafe
      rw [safeBindings, mem_filter, Bool.and_eq_true, decide_eq_true_eq] at hb
      rcases hmod with hc | hr
      · exact hb.2.1 hc
      · have hstale : isStale e b.1 = true := isStale_iff.mpr (.here hb.2.1 hr)
        rw [hstale] at hb
        exact absurd hb.2.2 (by decide)
    constructor
    · intro r hr hreset
      obtain ⟨p, hp, hpr⟩ := ((instRegs_ok hcovers).1 r).mp hr
      obtain ⟨q, hq, hqr⟩ := ((instRegs_ok hresets).1 r).mp hreset
      rw [mem_keys_ofKeys] at hp hq
      have heq := (instRegs_ok himpact).2 p (hsafe p r hpr (.inl hp)) q (hsafe q r hqr (.inr hq)) r
        hpr hqr
      subst heq
      exact he.disjoint p hp hq
    · intro r
      rw [(instRegs_ok hwrites).1, (instRegs_ok hcovers).1]
      simp only [mem_keys_ofKeys, he.covers]

end Inst

end Effect

end Why3
