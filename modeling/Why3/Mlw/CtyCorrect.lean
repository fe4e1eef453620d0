import Why3.Mlw.EffectCorrect
import Why3.Mlw.PlainRecord

/-!
# Effects over runs

Every effect that a sequence of operations makes keeps the invariant of the covers and
the resets, computation types being created and applied on the way, so that the
assertions of `eff_union` hold.
-/

namespace Why3

open Avoiding Checks List

namespace Cty

open Effect

variable {env : ItyEnv}

section Creation

variable {e e' : Effect}

theorem keepCovered_settled (he : Covering e) : Settled (keepCovered e) where
  disjoint := he.disjoint
  covers := by
    intro r
    unfold keepCovered
    rw [TagMap.mem_keys_filterKeys, decide_eq_true_eq]
    exact ⟨And.right, fun hr => ⟨he.covered r hr, hr⟩⟩

theorem keepKnown_settled {rknown vknown : List Region} (he : Settled e) :
    Settled (keepKnown rknown vknown e) where
  disjoint := by
    intro r hr hreset
    exact he.disjoint r (mem_of_mem_filter hr) (mem_of_mem_filter hreset)
  covers := by
    intro r
    unfold keepKnown
    rw [TagMap.mem_keys_filterKeys, he.covers, mem_filter]

theorem beDefensive_settled {d : Bool} {rknown vknown : List Region} {escape : List TvSymbol}
    (he : Settled e) (hknown : ∀ r ∈ e.effCovers, r ∈ rknown) :
    Settled (beDefensive d rknown vknown escape e) := by
  unfold beDefensive
  split
  · refine ⟨fun r hr hreset => ?_, he.covers⟩
    rcases mem_append.mp hreset with hreset | hreset
    · exact he.disjoint r hr hreset
    · rw [mem_filter, decide_eq_true_eq] at hreset
      exact hreset.2 (hknown r hr)
  · exact he

theorem Settled.withReads (he : Settled e) {rd : Spv} : Settled { e with effReads := rd } :=
  ⟨he.disjoint, he.covers⟩

/-- A computation type only writes to its covers. -/
theorem createCty_settled {mask : Mask} {d : Bool} {args : List PvSymbol} {pre post : List Term}
    {xpost : Mxs (List Term)} {oldies : Mpv PvSymbol} {result : Ity} {c : Cty}
    (h : createCty env mask d args pre post xpost oldies e result = .ok c) (he : Covering e) :
    Settled c.ctyEffect := by
  unfold createCty at h
  simp only [bind_eq_ok] at h
  obtain ⟨_, _, _, _, _, _, _, _, sarg, _, _, _, preads, _, qreads, _, e₁, he₁, h⟩ := h
  split at h
  · cases h
  · simp only [bind_eq_ok] at h
    obtain ⟨e₂, he₂, _, _, freeze, _, _, _, e₃, he₃, escape, _, h⟩ := h
    cases h
    have h₂ : Covering e₂ :=
      (((effReadPost_frame he₁).trans (effBind_frame _ _)).trans (effReadPre_frame he₂)).covering he
    have hframe := resetTaints_frame he₃
    have hraises : ∀ raises, Covering { e₂ with effRaises := raises } := fun _ => h₂
    have h₃ : Settled e₃ := hframe.settled (keepKnown_settled (keepCovered_settled (hraises _)))
    have hknown : ∀ r ∈ e₃.effCovers, r ∈ readRegs e₂.effReads := by
      intro r hr
      rw [hframe.covers] at hr
      exact of_decide_eq_true (mem_filter.mp hr).2
    apply Settled.withReads
    apply beDefensive_settled
    · exact ⟨h₃.disjoint, h₃.covers⟩
    · exact hknown

theorem ctyApply_settled {n : ℕ} {c c' : Cty} {vl : List PvSymbol} {args : List Ity} {res : Ity}
    (h : ctyApply env n c vl args res = .ok c') (hc : Settled c.ctyEffect) :
    Settled c'.ctyEffect := by
  unfold ctyApply at h
  simp only [bind_eq_ok] at h
  obtain ⟨a, _, _, _, b, _, h⟩ := h
  split at h
  · cases h
    exact hc
  · simp only [bind_eq_ok] at h
    obtain ⟨isb, _, e₁, he₁, e₂, he₂, e₃, he₃, _, _, _, _, _, _, h⟩ := h
    cases h
    have h₁ : Settled e₁ := by
      unfold applyEff at he₁
      split at he₁
      · cases he₁
        exact hc
      · exact effInst_settled he₁ hc
    exact ((effGhostify_frame he₂).trans (effReadPre_frame he₃)).settled h₁

end Creation

end Cty

namespace Effect

open Cty

/-! ## The effects that can be obtained -/

mutual
/-- The effects obtained from the initial ones by any sequence of accepted operations. -/
inductive Obtained (env : ItyEnv) : Effect → Prop
  | empty : Obtained env effEmpty
  | read (rd) : Obtained env (effRead rd)
  | write {rd wr e} : effWrite rd wr = .ok e → Obtained env e
  | assign {asl e} : effAssign asl = .ok e → Obtained env e
  | union {e1 e2 e} : Obtained env e1 → Obtained env e2 → effUnion e1 e2 = .ok e → Obtained env e
  | unionPar {e1 e2 e} :
      Obtained env e1 → Obtained env e2 → effUnionPar e1 e2 = .ok e → Obtained env e
  | unionSeq {e1 e2 e} :
      Obtained env e1 → Obtained env e2 → effUnionSeq e1 e2 = .ok e → Obtained env e
  | fusion {e1 e2 e} :
      Obtained env e1 → Obtained env e2 → effFusion e1 e2 = .ok e → Obtained env e
  | ghostify {gh e e'} : Obtained env e → effGhostify gh e = .ok e' → Obtained env e'
  | readPre {rd e e'} : Obtained env e → effReadPre rd e = .ok e' → Obtained env e'
  | readPost {rd e e'} : Obtained env e → effReadPost e rd = .ok e' → Obtained env e'
  | bind {α e} (rd : Mpv α) : Obtained env e → Obtained env (effBind rd e)
  | raise {e} (x) : Obtained env e → Obtained env (effRaise e x)
  | handle {e} (x) : Obtained env e → Obtained env (effCatch e x)
  | resetOverwritten {e e'} :
      Obtained env e → effResetOverwritten e = .ok e' → Obtained env e'
  | cty {c} : ObtainedCty env c → Obtained env c.ctyEffect
/-- The computation types created from these effects, and their applications. -/
inductive ObtainedCty (env : ItyEnv) : Cty → Prop
  | create {mask d args pre post xpost oldies e result c} : Obtained env e →
      createCty env mask d args pre post xpost oldies e result = .ok c → ObtainedCty env c
  | apply {n c vl args res c'} : ObtainedCty env c → ctyApply env n c vl args res = .ok c' →
      ObtainedCty env c'
end

variable {env : ItyEnv}

theorem Obtained.covering {e : Effect} (h : Obtained env e) : Covering e := by
  refine @Obtained.rec env (fun e _ => Covering e) (fun c _ => Settled c.ctyEffect)
    ?empty ?read ?write ?assign ?union ?unionPar ?unionSeq ?fusion ?ghostify ?readPre ?readPost
    ?bind ?raise ?handle ?resetOverwritten ?cty ?create ?apply e h
  case empty => exact effEmpty_settled.covering
  case read => exact fun rd => (effRead_settled rd).covering
  case write => exact fun h => (effWrite_settled h).covering
  case assign => exact fun h => effAssign_covering h
  case union => exact fun _ _ h h1 h2 => effUnion_covering h h1 h2
  case unionPar => exact fun _ _ h h1 h2 => effUnionPar_covering h h1 h2
  case unionSeq => exact fun _ _ h h1 h2 => effUnionSeq_covering h h1 h2
  case fusion => exact fun _ _ h h1 h2 => (effFusion_settled h h1 h2).covering
  case ghostify => exact fun _ h he => (effGhostify_frame h).covering he
  case readPre => exact fun _ h he => (effReadPre_frame h).covering he
  case readPost => exact fun _ h he => (effReadPost_frame h).covering he
  case bind => exact fun rd _ he => (effBind_frame rd _).covering he
  case raise => exact fun _ _ he => he
  case handle => exact fun _ _ he => he
  case resetOverwritten => exact fun _ h he => (effResetOverwritten_settled h he).covering
  case cty => exact fun _ hc => hc.covering
  case create => exact fun _ h he => createCty_settled h he
  case apply => exact fun _ h hc => ctyApply_settled h hc

/-- In every effect that can be obtained, the covers are written and not reset, and every
other written region is stale; the assertions of `eff_union` hold for any two of them. -/
theorem obtained_invariant {e : Effect} (h : Obtained env e) :
    (∀ r ∈ e.effCovers, r ∉ e.effResets) ∧
      (∀ r ∈ e.effCovers, r ∈ e.effWrites.keys) ∧
      (∀ r ∈ e.effWrites.keys, r ∉ e.effCovers →
        r.rStale e.effResets e.effCovers = true ∧
          ∃ s ∈ e.effResets, Relation.ReflTransGen
            (fun x y => y ∈ x.expRegs ∧ y ∉ e.effCovers) r s) ∧
      ∀ e', Obtained env e' →
        effUnion e e' ≠ .error .assertFailure ∧ effFusion e e' ≠ .error .assertFailure ∧
          effUnionPar e e' ≠ .error .assertFailure ∧
          effUnionSeq e e' ≠ .error .assertFailure := by
  have he := h.covering
  refine ⟨he.disjoint, he.covered, fun r hr hnot => ?_, fun e' h' => ?_⟩
  · have hex := he.exposed r hr hnot
    exact ⟨isStale_iff.mpr hex, (exposed_iff.mp hex).2⟩
  · have he' := h'.covering
    exact ⟨effUnion_ne_assert he he', effFusion_ne_assert he he', effUnionPar_ne_assert he he',
      effUnionSeq_ne_assert he he'⟩

/-! ## A cell in a box

The cell is written in one branch and replaced in its box in the other one: the write to
the cell is lost. -/

section Box

open Refs

def cellVar : PvSymbol := .mk ⟨22, .tyapp itsCell.itsTs []⟩ (.ityreg (cell 21 22)) false

def boxVar : PvSymbol := .mk ⟨23, .tyapp itsBox.itsTs []⟩ (.ityreg (box 20 21 22)) false

def cellWritten : Effect :=
  { effEmpty with
    effReads := .singleton cellVar ()
    effWrites := .singleton (cell 21 22) [count]
    effCovers := [cell 21 22] }

def boxWritten : Effect :=
  { effEmpty with
    effReads := .singleton boxVar ()
    effWrites := .singleton (box 20 21 22) [item]
    effCovers := [box 20 21 22] }

def boxReplaced : Effect := { boxWritten with effResets := [cell 21 22, ref 22] }

def boxEnv : ItyEnv := ⟨fun _ => itsBox, fun _ => none⟩

theorem obtained_cellWritten : Obtained boxEnv cellWritten :=
  @Obtained.write _ (.singleton cellVar ()) (.singleton (cell 21 22) [count]) _ rfl

theorem obtained_boxReplaced : Obtained boxEnv boxReplaced :=
  .resetOverwritten
    (@Obtained.write _ (.singleton boxVar ()) (.singleton (box 20 21 22) [item]) boxWritten rfl)
    rfl

theorem obtained_invariant_box :
    ∃ e, effUnionPar boxReplaced cellWritten = .ok e ∧ cell 21 22 ∈ e.effWrites.keys ∧
      cell 21 22 ∉ e.effCovers ∧ (cell 21 22).rStale e.effResets e.effCovers = true := by
  refine ⟨_, rfl, by decide, by decide, ?_⟩
  exact ((obtained_invariant (.unionPar obtained_boxReplaced obtained_cellWritten rfl)).2.2.1
    (cell 21 22) (by decide) (by decide)).1

end Box

end Effect

end Why3
