import Why3.Session.Clean
import Why3.Session.Pruned

/-!
# What cleaning removes and keeps

While a session is cleaned, it is the first session without a set of nodes below useless
ones, and the statuses of the attached nodes are those of the first session: what goes
away proves nothing, so the statuses that remain are right before they are updated, and
right statuses are determined by the tables.
-/

namespace Why3.Itp

open Parents Trees List Option Session Controller

variable {fid g r t : ℕ} {running : ℕ → Bool}
variable {Task : Type} {s s' : Session Task} {par : ℕ → Option ProofParent} {W : Set Any}

/-- The node is in the session and attached. -/
def Attached (s : Session Task) (n : Any) : Prop := isDetached s n = some false

/-- A session as its operations make it, with the cached statuses right. -/
structure Sound (par : ℕ → Option ProofParent) (s : Session Task) : Prop where
  forest : Forest par ∅ s
  complete : Complete par s
  files : HasFiles s
  proper : Proper ∅ s

/-- A child that its parent may owe its status to. -/
inductive Justifies (s : Session Task) : Any → Prop
  | attempt {a : ℕ} {pa : ProofAttemptNode} (ha : s.proofAttemptTable a = some pa)
      (hok : proofIsComplete pa = true) : Justifies s (.pa a)
  | transf {t : ℕ} (ht : Attached s (.tn t)) (hp : s.tnProved t = true) : Justifies s (.tn t)
  | goal {g : ℕ} (hg : s.goalIsDetached g = false) : Justifies s (.pn g)
  | theory {r : ℕ} (hr : Attached s (.th r)) : Justifies s (.th r)

/-- What cleaning is for: detached nodes, attempts that fail or are obsolete on proved
goals, transformations of proved goals that are not proved. -/
inductive Useless (s : Session Task) : Any → Prop
  | detached {n : Any} (h : isDetached s n = some true) : Useless s n
  | attempt {a : ℕ} {pa : ProofAttemptNode} (ha : s.proofAttemptTable a = some pa)
      (hp : s.pnProved pa.parent = true) (hok : proofIsComplete pa = false) :
      Useless s (.pa a)
  | transf {t : ℕ} {tn : TransformationNode} (ht : s.transTable t = some tn)
      (hp : s.pnProved tn.transfParent = true) (hf : s.tnProved t = false) : Useless s (.tn t)

theorem proofIsComplete_eq (pa : ProofAttemptNode) : proofIsComplete pa = paOk pa := by
  unfold proofIsComplete paOk
  cases pa.proofState <;> simp

variable {n : Any}

theorem isDetached_total (hn : s.Has n) :
    ∃ b, isDetached s n = some b := by
  rw [← isSome_iff_exists]
  cases n with
  | file fid | th r | tn t | pa a => exact (isSome_map ..).trans hn
  | pn g => rfl

theorem doRemove_spec (hn : s.Has n) :
    ∃ b, doRemove s n = some b ∧ (b = true → Useless s n) := by
  obtain ⟨b, hb⟩ := isDetached_total hn
  unfold doRemove
  rw [hb, bind_eq_bind, bind_some]
  cases b with
  | true => exact ⟨true, rfl, fun _ => .detached hb⟩
  | false =>
    rw [if_neg Bool.false_ne_true]
    cases n with
    | pa a =>
      obtain ⟨pa, ha⟩ := isSome_iff_exists.1 hn
      refine ⟨s.pnProved pa.parent && !proofIsComplete pa, ?_, fun h => ?_⟩
      · simp only [ha, bind_eq_bind, bind_some]
      · rw [Bool.and_eq_true, Bool.not_eq_true'] at h
        exact .attempt ha h.1 h.2
    | tn t =>
      obtain ⟨tn, ht⟩ := isSome_iff_exists.1 hn
      refine ⟨s.pnProved tn.transfParent && !s.tnProved t, ?_, fun h => ?_⟩
      · simp only [ht, bind_eq_bind, bind_some]
      · rw [Bool.and_eq_true, Bool.not_eq_true'] at h
        exact .transf ht h.1 h.2
    | file fid | th r | pn g => exact ⟨false, rfl, fun h => by cases h⟩

/-! ## Right statuses without useless nodes -/

theorem anyProved_theory {th : Theory} (hr : s.theoryTable r = some th) :
    anyProved s (.th r) = some (s.thStatus th) := by
  rw [anyProved, hr, map_some, thProved_fst]

theorem anyProved_file {f : File} (hf : s.findFile fid = some f) :
    anyProved s (.file fid) = some (s.fileStatus f) := by
  rw [anyProved, hf, map_some, fileProved_fst]

theorem goalProved_prune {pn : ProofNode}
    (hW : ∀ t ∈ pn.proofnTransformations, .tn t ∈ W → ¬ Justifies s (.tn t))
    (hW' : ∀ b ∈ pn.proofnAttempts, .pa b.2 ∈ W → ¬ Justifies s (.pa b.2)) :
    (s.prune W).GoalProved (pn.without W) ↔ s.GoalProved pn := by
  refine or_congr ⟨?_, ?_⟩ ⟨?_, ?_⟩
  · rintro ⟨t, ht, tn', htn', hd, hp⟩
    obtain ⟨-, tn, htn, rfl⟩ := Session.prune_transf.1 htn'
    exact ⟨t, (mem_filter.1 ht).1, tn, htn, hd, hp⟩
  · rintro ⟨t, ht, tn, htn, hd, hp⟩
    have hstay : Any.tn t ∉ W := fun hmem => by
      refine hW t ht hmem (.transf ?_ hp)
      rw [Attached, isDetached, htn, map_some, hd]
    exact ⟨t, mem_filter.2 ⟨ht, stays_iff.2 hstay⟩, tn.without W,
      Session.prune_transf.2 ⟨hstay, tn, htn, rfl⟩, hd, hp⟩
  · rintro ⟨b, hb, pa, hpa, hok⟩
    exact ⟨b, (mem_filter.1 hb).1, pa, (Session.prune_attempt.1 hpa).2, hok⟩
  · rintro ⟨b, hb, pa, hpa, hok⟩
    have hstay : Any.pa b.2 ∉ W := fun hmem => by
      refine hW' b hb hmem (.attempt hpa ?_)
      rw [proofIsComplete_eq]
      exact hok
    exact ⟨b, mem_filter.2 ⟨hb, stays_iff.2 hstay⟩, pa,
      Session.prune_attempt.2 ⟨hstay, hpa⟩, hok⟩

theorem goalsProved_prune {gs : List ℕ} (hW : ∀ g ∈ gs, .pn g ∈ W → ¬ Justifies s (.pn g)) :
    (s.prune W).GoalsProved (gs.filter fun g => stays W (.pn g)) ↔ s.GoalsProved gs := by
  constructor
  · intro h g hg hd
    refine h g (mem_filter.2 ⟨hg, stays_iff.2 fun hmem => ?_⟩) hd
    exact hW g hg hmem (.goal hd)
  · intro h g hg hd
    exact h g (mem_filter.1 hg).1 hd

/-- The status of a theory or of a file that was never stored, when its list gets shorter. -/
theorem getD_isEmpty_filter {o : Option Bool} {l : List ℕ} {p : ℕ → Bool} {A B : Prop}
    (hnil : l.filter p = [] → B) (hright : o.getD l.isEmpty = true ↔ A) (hA : B ↔ A) :
    o.getD (l.filter p).isEmpty = o.getD l.isEmpty := by
  cases o with
  | some b => rfl
  | none =>
    show (l.filter p).isEmpty = l.isEmpty
    rw [Bool.eq_iff_iff, List.isEmpty_iff]
    constructor
    · intro h
      exact hright.2 (hA.1 (hnil h))
    · intro h
      rw [List.isEmpty_iff.1 h]
      rfl

theorem right_prune_theory {th : Theory} (hr : s.theoryTable r = some th)
    (hd : th.theoryIsDetached = false) (h : s.Right (.th r))
    (hW : ∀ g ∈ th.theoryGoals, .pn g ∈ W → ¬ Justifies s (.pn g)) :
    (s.prune W).thStatus (th.without W) = s.thStatus th :=
  getD_isEmpty_filter (B := (s.prune W).GoalsProved (th.without W).theoryGoals)
    (fun hnil g hg => by simp [Theory.without, hnil] at hg) (h th hr hd) (goalsProved_prune hW)

/-- Where no child that justifies the status of a node goes away, the status remains and is
still right. -/
theorem right_prune (hn : n ∉ W) (hd : Attached s n) (hright : ∀ m, s.Right m)
    (hW : ∀ m, Attached s m → m ∉ W → ∀ k ∈ s.kids m, k ∈ W → ¬ Justifies s k) :
    (s.prune W).Right n ∧ anyProved (s.prune W) n = anyProved s n := by
  cases n with
  | pn g =>
    refine ⟨fun pn' hpn' hg => ?_, rfl⟩
    obtain ⟨-, pn, hpn, rfl⟩ := Session.prune_goal.1 hpn'
    refine (hright (.pn g) pn hpn hg).trans (goalProved_prune ?_ ?_).symm
    · intro t ht
      refine hW _ hd hn _ (mem_append_left _ (mem_map_of_mem ?_))
      rw [transfKids_of_some hpn]
      exact ht
    · intro b hb
      refine hW _ hd hn _ (mem_append_right _ (mem_map_of_mem ?_))
      rw [attemptKids_of_some hpn]
      exact mem_map_of_mem hb
  | tn t =>
    refine ⟨fun tn' htn' hdet => ?_, rfl⟩
    obtain ⟨-, tn, htn, rfl⟩ := Session.prune_transf.1 htn'
    refine (hright (.tn t) tn htn hdet).trans (goalsProved_prune fun g hg => ?_).symm
    exact hW _ hd hn _ (mem_map_of_mem (mem_rows.2 ⟨tn, htn, hg⟩))
  | th r =>
    obtain ⟨th, hr, hdet⟩ := map_eq_some_iff.1 hd
    have hgoals : ∀ g ∈ th.theoryGoals, .pn g ∈ W → ¬ Justifies s (.pn g) := fun g hg =>
      hW _ hd hn _ (mem_map_of_mem (mem_rows.2 ⟨th, hr, hg⟩))
    have hstatus := right_prune_theory hr hdet (hright _) hgoals
    have hrow : (s.prune W).theoryTable r = some (th.without W) :=
      Session.prune_theory.2 ⟨hn, th, hr, rfl⟩
    refine ⟨fun th' hr' _ => ?_, ?_⟩
    · obtain rfl := some.inj (hrow.symm.trans hr')
      rw [hstatus]
      exact (hright (.th r) th hr hdet).trans (goalsProved_prune hgoals).symm
    · rw [anyProved_theory hrow, anyProved_theory hr, hstatus]
  | file fid =>
    obtain ⟨f, hf, hdet⟩ := map_eq_some_iff.1 hd
    have htheories : (s.prune W).TheoriesProved (f.without W).fileTheories ↔
        s.TheoriesProved f.fileTheories := by
      -- the theories that remain keep their statuses, and the others are detached
      have hstatus : ∀ r th, .th r ∉ W → s.theoryTable r = some th →
          th.theoryIsDetached = false →
          (s.prune W).thStatus (th.without W) = s.thStatus th := by
        intro r th hrW hr hdet'
        have hatt : Attached s (.th r) := map_eq_some_iff.2 ⟨th, hr, hdet'⟩
        exact right_prune_theory hr hdet' (hright _) fun g hg =>
          hW _ hatt hrW _ (mem_map_of_mem (mem_rows.2 ⟨th, hr, hg⟩))
      constructor
      · intro h r hr th hth hdet'
        have hrW : .th r ∉ W := fun hmem => by
          refine hW _ hd hn _ (mem_map_of_mem (mem_rows.2 ⟨f, hf, hr⟩)) hmem ?_
          exact .theory (map_eq_some_iff.2 ⟨th, hth, hdet'⟩)
        rw [← hstatus r th hrW hth hdet']
        exact h r (mem_filter.2 ⟨hr, stays_iff.2 hrW⟩) _
          (Session.prune_theory.2 ⟨hrW, th, hth, rfl⟩) hdet'
      · intro h r hr th' hth' hdet'
        obtain ⟨hrW, th, hth, rfl⟩ := Session.prune_theory.1 hth'
        rw [hstatus r th hrW hth hdet']
        exact h r (mem_filter.1 hr).1 th hth hdet'
    have hstatus : (s.prune W).fileStatus (f.without W) = s.fileStatus f :=
      getD_isEmpty_filter (fun hnil r hr => by simp [File.without, hnil] at hr)
        (hright (.file fid) f hf hdet) htheories
    have hrow : (s.prune W).findFile fid = some (f.without W) :=
      Session.prune_file.2 ⟨hn, f, hf, rfl⟩
    refine ⟨fun f' hf' _ => ?_, ?_⟩
    · obtain rfl := some.inj (hrow.symm.trans hf')
      rw [hstatus]
      exact (hright (.file fid) f hf hdet).trans htheories.symm
    · rw [anyProved_file hrow, anyProved_file hf, hstatus]
  | pa a =>
    refine ⟨trivial, ?_⟩
    have hrow : (s.prune W).proofAttemptTable a = s.proofAttemptTable a := by
      ext pa
      rw [prune_attempt, and_iff_right hn]
    show paProved (s.prune W) a = paProved s a
    rw [paProved, paProved, hrow]

/-! ## Right statuses are determined by the tables -/

variable {tn : TransformationNode}

section Determined

variable (hF : Forest par ∅ s) (hC : Complete par s) (hs : s'.withoutStatus = s.withoutStatus)
  (h : ∀ n, s.Right n) (h' : ∀ n, s'.Right n)

include hs

theorem goalIsDetached_eq (g : ℕ) : s'.goalIsDetached g = s.goalIsDetached g := by
  rw [goalIsDetached, rawTasks_eq hs, goalIsDetached]

theorem goalsProved_congr {gs : List ℕ}
    (hgs : ∀ g ∈ gs, s.goalIsDetached g = false → s'.pnProved g = s.pnProved g) :
    s'.GoalsProved gs ↔ s.GoalsProved gs := by
  refine forall₂_congr fun g hg => ?_
  rw [goalIsDetached_eq hs]
  refine imp_congr_right fun hd => ?_
  rw [hgs g hg hd]

include h h'

theorem tnProved_determined (ht : s.transTable t = some tn)
    (hd : tn.transfIsDetached = false)
    (hgs : ∀ g ∈ tn.transfSubtasks, s.goalIsDetached g = false → s'.pnProved g = s.pnProved g) :
    s'.tnProved t = s.tnProved t := by
  have ht' : s'.transTable t = some tn := by rwa [transTable_eq hs]
  rw [Bool.eq_iff_iff, h' (.tn t) tn ht' hd, h (.tn t) tn ht hd]
  exact goalsProved_congr hs hgs

include hF hC

/-- By induction on the distance of the goal from the last one. -/
theorem pnProved_determined {k : ℕ} (hg : s.Has (.pn g)) (hd : s.goalIsDetached g = false)
    (hk : s.nextProofNodeID ≤ g + k) : s'.pnProved g = s.pnProved g := by
  induction k generalizing g with
  | zero =>
    obtain ⟨pn, hpn⟩ := isSome_iff_exists.1 hg
    have hlt := hF.goal_lt (hF.made hpn)
    omega
  | succ k ih =>
    obtain ⟨pn, hpn⟩ := isSome_iff_exists.1 hg
    have hpn' : s'.proofNodeTable g = some pn := by rwa [proofNodeTable_eq hs]
    have hd' : s'.goalIsDetached g = false := by rwa [goalIsDetached_eq hs]
    rw [Bool.eq_iff_iff, h' (.pn g) pn hpn' hd', h (.pn g) pn hpn hd]
    unfold Session.GoalProved
    rw [transTable_eq hs, proofAttemptTable_eq hs]
    refine or_congr_left (exists_congr fun t => and_congr_right fun ht => exists_congr fun tn =>
      and_congr_right fun htn => and_congr_right fun hdet => ?_)
    rw [tnProved_determined hs h h' htn hdet]
    intro g' hg' hd'
    have hpar := hF.goals.down (k := .trans t) (mem_rows.2 ⟨tn, htn, hg'⟩)
    have hlow := hF.lower htn hpar
    have hparent := hF.transfs.down (mem_rows.2 ⟨pn, hpn, ht⟩)
    rw [transfParent, htn, map_some, Option.some.injEq] at hparent
    exact ih (hC g' (isSome_iff_exists.2 ⟨_, hpar⟩)) hd' (by omega)

theorem anyProved_determined (hn : s.Has n) (hd : Attached s n) :
    anyProved s' n = anyProved s n := by
  have hgoals : ∀ {p gs}, s.goalKids p = gs → ∀ g ∈ gs, s.goalIsDetached g = false →
      s'.pnProved g = s.pnProved g := by
    rintro p gs rfl g hg hdet
    have hpar := hF.goals.down hg
    exact pnProved_determined hF hC hs h h' (hC g (isSome_iff_exists.2 ⟨p, hpar⟩)) hdet
      (Nat.le_add_left _ _)
  have htheory : ∀ {r th}, s.theoryTable r = some th → th.theoryIsDetached = false →
      s'.thStatus th = s.thStatus th := by
    intro r th hr hdet
    have hr' : s'.theoryTable r = some th := by rwa [theoryTable_eq hs]
    rw [Bool.eq_iff_iff, h' (.th r) th hr' hdet, h (.th r) th hr hdet]
    exact goalsProved_congr hs (hgoals (p := .theory r) (rows_of_some hr))
  cases n with
  | pn g =>
    refine congrArg some (pnProved_determined hF hC hs h h' hn ?_ (Nat.le_add_left _ _))
    exact some.inj hd
  | tn t =>
    obtain ⟨tn, ht, hdet⟩ := map_eq_some_iff.1 hd
    refine congrArg some (tnProved_determined hs h h' ht hdet ?_)
    exact hgoals (p := .trans t) (rows_of_some ht)
  | th r =>
    obtain ⟨th, hr, hdet⟩ := map_eq_some_iff.1 hd
    have hr' : s'.theoryTable r = some th := by rwa [theoryTable_eq hs]
    rw [anyProved_theory hr, anyProved_theory hr', htheory hr hdet]
  | file fid =>
    obtain ⟨f, hf, hdet⟩ := map_eq_some_iff.1 hd
    have hf' : s'.findFile fid = some f := by rwa [findFile_eq hs]
    rw [anyProved_file hf, anyProved_file hf', Option.some.injEq, Bool.eq_iff_iff,
      h' (.file fid) f hf' hdet, h (.file fid) f hf hdet]
    unfold Session.TheoriesProved
    rw [theoryTable_eq hs]
    refine forall₂_congr fun r _ => forall₂_congr fun th hr => imp_congr_right fun hdet' => ?_
    rw [htheory hr hdet']
  | pa a =>
    show paProved s' a = paProved s a
    rw [paProved, paProved, proofAttemptTable_eq hs]

end Determined

/-! ## One removal -/

theorem Complete.congr (h : Complete par s) (hs : s'.withoutStatus = s.withoutStatus) :
    Complete par s' := by
  intro g hg
  rw [proofNodeTable_eq hs]
  exact h g hg

theorem Sound.congr (h : Sound par s) (hs : s'.withoutStatus = s.withoutStatus)
    (hP : Proper ∅ s') : Sound par s' :=
  ⟨h.forest.congr hs, h.complete.congr hs, h.files.congr hs, hP⟩

theorem Sound.right (h : Sound par s) (n : Any) : s.Right n := h.proper.right (Set.notMem_empty n)

theorem updateAnyNode_spec (h : Sound par s) {p : Any} (hp : s.Has p) (hpa : ∀ a, p ≠ .pa a) :
    ∃ s', updateAnyNode s p = some s' ∧ s'.withoutStatus = s.withoutStatus ∧ Sound par s' := by
  have hlisted : GoalsListed (∅ : Set Any) := fun n hn => absurd hn (Set.notMem_empty n)
  have hend : ∀ {s' : Session Task} {Y : Set Any}, updateAnyNode s p = some s' →
      s'.withoutStatus = s.withoutStatus → Proper (∅ \ Y) s' →
      ∃ s', updateAnyNode s p = some s' ∧ s'.withoutStatus = s.withoutStatus ∧ Sound par s' :=
    fun hrun hs hP => ⟨_, hrun, hs, h.congr hs (hP.mono Set.sdiff_subset)⟩
  cases p with
  | pn g =>
    obtain ⟨s', hrun⟩ := updateGoalNode_total hlisted h.forest h.files hp
    exact hend hrun (updateGoalNode_withoutStatus hrun)
      (updateGoalNode_proper h.forest h.proper hrun)
  | tn t =>
    obtain ⟨tn, ht⟩ := isSome_iff_exists.1 hp
    have hpar : s.transfParent t = some tn.transfParent := by
      rw [transfParent, ht]
      rfl
    obtain ⟨pn, hpn, -⟩ := mem_rows.1 (h.forest.transfs.up hpar (Set.notMem_empty _))
    have hlt := h.forest.goal_lt (h.forest.made hpn)
    obtain ⟨s', hrun⟩ := (updateNode_total hlisted (updateFuel s) s h.forest h.files).2 t tn ht
      (by unfold updateFuel; omega)
    exact hend hrun (updateTransNode_withoutStatus hrun)
      (updateTransNode_proper h.forest h.proper ht hrun).1
  | th r =>
    obtain ⟨s', hrun⟩ := updateTheoryNode_total h.forest h.files hp
    exact hend hrun (updateTheoryNode_withoutStatus hrun)
      (updateTheoryNode_proper h.forest h.proper hrun)
  | file fid =>
    obtain ⟨f, hf⟩ := isSome_iff_exists.1 hp
    obtain ⟨s', hrun⟩ := updateFileNode_total h.forest hf
    have hupdate : updateAnyNode s (.file fid) = some s' := by
      show (s.findFile fid).bind _ = _
      rw [hf]
      exact hrun
    by_cases hnil : f.fileTheories = []
    · unfold updateFileNode at hrun
      rw [if_pos hnil, Option.some.injEq] at hrun
      subst hrun
      exact ⟨s, hupdate, rfl, h⟩
    · exact hend hupdate (updateFileNode_withoutStatus hrun)
        (updateFileNode_proper h.forest h.proper hf hnil hrun)
  | pa a => exact absurd rfl (hpa a)

/-- A node is read as if nothing were running. -/
theorem checkRemovable_eq (hrun : ∀ a, running a = false) (hF : Forest par ∅ s)
    (hC : Complete par s) (hn : s.Has n) : checkRemovable running s n = some true := by
  have hvisits : Visits s (fun _ : Bool => s)
      (fun acc any => some (acc && anyRemovable running any))
      fun _ acc => acc = true := by
    refine ⟨fun _ hn _ => ⟨hn, rfl⟩, fun {V acc n} hI _ _ _ => ⟨_, rfl, ?_⟩⟩
    cases n with
    | pa a => rw [hI, anyRemovable, removableProofAttempt, hrun a]; rfl
    | _ => rw [hI]; rfl
  obtain ⟨b, hb, rfl⟩ := hvisits.walked hF hC hn (Nat.le_succ _) ∅ true rfl (Set.disjoint_empty _)
  exact hb

theorem getAnyParent_eq (h : Sound par s) (hn : s.Has n) :
    getAnyParent s n = some (s.above par n) := by
  cases n with
  | file fid => rfl
  | th r =>
    obtain ⟨th, hr⟩ := isSome_iff_exists.1 hn
    obtain ⟨f, hf⟩ := isSome_iff_exists.1 (h.files r th hr)
    show (s.theoryTable r).bind _ = some ((s.theoryParent r).map Any.file)
    rw [theoryParent, hr, bind_some]
    show (s.findFile th.theoryParentName).bind _ = _
    rw [hf, bind_some, h.forest.fileId hf]
    rfl
  | tn t =>
    obtain ⟨tn, ht⟩ := isSome_iff_exists.1 hn
    show (s.transTable t).map _ = some ((s.transfParent t).map Any.pn)
    rw [transfParent, ht]
    rfl
  | pn g =>
    obtain ⟨pn, hg⟩ := isSome_iff_exists.1 hn
    show (s.proofNodeTable g).map _ = some ((par g).map ProofParent.any)
    rw [hg, h.forest.made hg]
    cases hp : pn.proofnParent <;> simp [hp, ProofParent.any]
  | pa a =>
    obtain ⟨pa, ha⟩ := isSome_iff_exists.1 hn
    show (s.proofAttemptTable a).map _ = some ((s.attemptParent a).map Any.pn)
    rw [attemptParent, ha]
    rfl

theorem isDetached_prune (hn : n ∉ W) : isDetached (s.prune W) n = isDetached s n := by
  have hmap : ∀ {X : Type} {p : ℕ → Bool} {c : X → X} {t : ℕ → Option X} {f : X → Bool} {k : ℕ},
      p k = true → (∀ x, f (c x) = f x) → (cut p c t k).map f = (t k).map f := by
    intro X p c t f k hk hf
    unfold cut
    rw [if_pos hk, Option.map_map, show f ∘ c = f from funext hf]
  rw [← stays_iff] at hn
  cases n with
  | file fid =>
    show ((s.prune W).findFile fid).map _ = (s.findFile fid).map _
    rw [findFile_prune]
    exact hmap hn fun _ => rfl
  | th r => exact hmap (p := fun r => stays W (.th r)) hn fun _ => rfl
  | tn t => exact hmap (p := fun t => stays W (.tn t)) hn fun _ => rfl
  | pn g => rfl
  | pa a => exact hmap (p := fun a => stays W (.pa a)) hn fun _ => rfl

/-- Nothing is asked of nodes that are missing or detached. -/
theorem right_of_attached (h : s.Has n → Attached s n → s.Right n) : s.Right n := by
  have hsome : ∀ {X : Type} {o : Option X} {x : X}, o = some x → o.isSome = true := by
    rintro X o x rfl
    rfl
  cases n with
  | pn g =>
    intro pn hpn hd
    exact h (hsome hpn) (congrArg some hd) pn hpn hd
  | tn t =>
    intro tn ht hd
    exact h (hsome ht) (map_eq_some_iff.2 ⟨tn, ht, hd⟩) tn ht hd
  | th r =>
    intro th hr hd
    exact h (hsome hr) (map_eq_some_iff.2 ⟨th, hr, hd⟩) th hr hd
  | file fid =>
    intro f hf hd
    exact h (hsome hf) (map_eq_some_iff.2 ⟨f, hf, hd⟩) f hf hd
  | pa a => trivial

theorem Useless.not_justifies (hF : Forest par ∅ s) {m : Any} (h : Useless s n)
    (hm : n ∈ s.kids m) (hd : Attached s m) : ¬ Justifies s n := by
  intro hj
  cases hj with
  | @attempt a pa ha hok =>
    cases h with
    | detached hdet =>
      have habove := hF.above_of_mem hm
      rw [above, attemptParent, ha] at habove
      obtain rfl := some.inj habove
      rw [isDetached, ha, map_some, Option.some.injEq] at hdet
      have hfalse := some.inj hd
      rw [hdet] at hfalse
      exact Bool.false_ne_true hfalse.symm
    | attempt ha' _ hok' =>
      obtain rfl := some.inj (ha.symm.trans ha')
      rw [hok] at hok'
      exact Bool.false_ne_true hok'.symm
  | transf ht hp =>
    cases h with
    | detached hdet => exact Bool.false_ne_true (some.inj (ht.symm.trans hdet))
    | transf _ _ hf =>
      rw [hp] at hf
      exact Bool.false_ne_true hf.symm
  | goal hg =>
    cases h with
    | detached hdet =>
      rw [isDetached, hg] at hdet
      exact Bool.false_ne_true (some.inj hdet)
  | theory hr =>
    cases h with
    | detached hdet => exact Bool.false_ne_true (some.inj (hr.symm.trans hdet))

theorem closed_subtree (n : Any) : Closed s.kids (subtree s.kids n) :=
  fun _ hx _ hy => mem_subtree_of_kid hx hy

theorem eq_of_mem_subtree (hF : Forest par ∅ s) {m k : Any} (hm : m ∉ subtree s.kids n)
    (hk : k ∈ s.kids m) (hkn : k ∈ subtree s.kids n) : k = n := by
  rcases Relation.ReflTransGen.cases_tail hkn with heq | ⟨q, hq, hkq⟩
  · exact heq
  · rw [hF.isForest.unique hkq hk] at hq
    exact absurd hq hm

theorem Useless.justified_stays (h : Sound par s) (hu : Useless s n) (m : Any)
    (hm : Attached s m) (hmn : m ∉ subtree s.kids n) (k : Any) (hk : k ∈ s.kids m)
    (hkn : k ∈ subtree s.kids n) : ¬ Justifies s k := by
  obtain rfl := eq_of_mem_subtree h.forest hmn hk hkn
  exact hu.not_justifies h.forest hk hm

/-- A session without the subtree of a useless node is sound before any update. -/
theorem Sound.prune (h : Sound par s) (hu : Useless s n) :
    Sound (parPrune par (subtree s.kids n)) (s.prune (subtree s.kids n)) := by
  have hclosed := closed_subtree (s := s) n
  refine ⟨h.forest.prune hclosed, h.complete.prune, h.files.prune h.forest hclosed, ?_, ?_, ?_, ?_⟩
  · intro m _
    refine right_of_attached fun hm hd => ?_
    have hmn := (Session.has_prune.1 hm).2
    rw [Attached, isDetached_prune hmn] at hd
    exact (right_prune hmn hd h.right (hu.justified_stays h)).1
  · intro r r' th th' hr hr' heq
    obtain ⟨-, th, hth, rfl⟩ := Session.prune_theory.1 hr
    obtain ⟨-, th', hth', rfl⟩ := Session.prune_theory.1 hr'
    exact h.proper.names hth hth' heq
  · exact fun hg => h.proper.goalUnset hg
  · exact fun hfid => h.proper.fileUnset hfid

theorem has_of_kid {m k : Any} (hk : k ∈ s.kids m) : s.Has m := by
  have hrow : ∀ {X : Type} {f : X → List ℕ} {t : ℕ → Option X} {i j : ℕ}, j ∈ rows f t i →
      (t i).isSome = true := by
    intro X f t i j hj
    obtain ⟨x, hx, -⟩ := mem_rows.1 hj
    rw [hx]
    rfl
  cases m with
  | file fid =>
    obtain ⟨r, hr, -⟩ := mem_map.1 hk
    exact hrow hr
  | th r =>
    obtain ⟨g, hg, -⟩ := mem_map.1 hk
    exact hrow (f := Theory.theoryGoals) (t := s.theoryTable) hg
  | tn t =>
    obtain ⟨g, hg, -⟩ := mem_map.1 hk
    exact hrow (f := TransformationNode.transfSubtasks) (t := s.transTable) hg
  | pn g =>
    rcases mem_append.1 hk with hk | hk
    · obtain ⟨t, ht, -⟩ := mem_map.1 hk
      exact hrow ht
    · obtain ⟨a, ha, -⟩ := mem_map.1 hk
      exact hrow ha
  | pa a => cases hk

theorem removable_of_useless (h : Useless s n) : removable s n = some true := by
  cases n with
  | file fid | th r | pn g => cases h; assumption
  | tn t => rfl
  | pa a => rfl

theorem removeSubtree_spec (hrun : ∀ a, running a = false) (h : Sound par s)
    (hn : s.Has n) (hu : Useless s n) : ∃ s', Controller.removeSubtree running s n = some s' ∧
      s'.withoutStatus = (s.prune (subtree s.kids n)).withoutStatus ∧
      Sound (parPrune par (subtree s.kids n)) s' ∧
      ∀ m, s.Has m → m ∉ subtree s.kids n → Attached s m → anyProved s' m = anyProved s m := by
  have hpruned := h.prune hu
  have hkept : ∀ m, m ∉ subtree s.kids n → Attached s m →
      anyProved (s.prune (subtree s.kids n)) m = anyProved s m := fun m hm hd =>
    (right_prune hm hd h.right (hu.justified_stays h)).2
  unfold Controller.removeSubtree Itp.removeSubtree
  simp only [checkRemovable_eq hrun h.forest h.complete hn, removable_of_useless hu,
    getAnyParent_eq h hn, fold_removeAny h.forest h.complete hn, bind_eq_bind,
    bind_some, if_true]
  cases hp : s.above par n with
  | none => exact ⟨_, rfl, rfl, hpruned, fun m _ => hkept m⟩
  | some p =>
    have hk := h.forest.mem_of_above hp
    have hnot : p ∉ subtree s.kids n := h.forest.isForest.not_mem_subtree hk
    obtain ⟨s', hupdate, hs, hS⟩ := updateAnyNode_spec hpruned
      (Session.has_prune.2 ⟨has_of_kid hk, hnot⟩) (by rintro a rfl; cases hk)
    refine ⟨s', hupdate, hs, hS, fun m hm hmn hd => ?_⟩
    have hatt : Attached (s.prune (subtree s.kids n)) m := by
      rwa [Attached, isDetached_prune hmn]
    rw [anyProved_determined hpruned.forest hpruned.complete hs hpruned.right hS.right
      (Session.has_prune.2 ⟨hm, hmn⟩) hatt]
    exact hkept m hmn hd

/-! ## The walk -/

section SameNodes

variable (hs : s'.withoutStatus = s.withoutStatus)

include hs

theorem has_eq (n : Any) : s'.Has n ↔ s.Has n := by
  have hnodes : ∀ s : Session Task, s.withoutStatus.Has n = s.Has n := by
    intro s
    cases n <;> rfl
  rw [← hnodes s', hs, hnodes]

theorem kids_eq (n : Any) : s'.kids n = s.kids n := by
  have hnodes : ∀ s : Session Task, s.withoutStatus.kids n = s.kids n := by
    intro s
    cases n <;> rfl
  rw [← hnodes s', hs, hnodes]

theorem isDetached_eq (n : Any) : isDetached s' n = isDetached s n := by
  have hnodes : ∀ s : Session Task, isDetached s.withoutStatus n = isDetached s n := by
    intro s
    cases n <;> rfl
  rw [← hnodes s', hs, hnodes]

theorem prune_withoutStatus_eq : (s'.prune W).withoutStatus = (s.prune W).withoutStatus := by
  show s'.withoutStatus.prune W = s.withoutStatus.prune W
  rw [hs]

end SameNodes

theorem parPrune_parPrune {R R' : Set Any} :
    parPrune (parPrune par R) R' = parPrune par (R ∪ R') := by
  funext g
  unfold parPrune
  rw [stays_union]
  cases stays R (.pn g) <;> cases stays R' (.pn g) <;> rfl

/-- The session `s` is `s₀` without the nodes of `R`, which are below useless ones. -/
structure Cleaning (par : ℕ → Option ProofParent) (s₀ : Session Task) (R : Set Any)
    (s : Session Task) : Prop where
  closed : Closed s₀.kids R
  useless : ∀ x ∈ R, ∃ m, x ∈ subtree s₀.kids m ∧ Useless s₀ m
  justified : ∀ m, Attached s₀ m → m ∉ R → ∀ k ∈ s₀.kids m, k ∈ R → ¬ Justifies s₀ k
  tables : s.withoutStatus = (s₀.prune R).withoutStatus
  sound : Sound (parPrune par R) s
  status : ∀ m, s₀.Has m → m ∉ R → Attached s₀ m → anyProved s m = anyProved s₀ m

namespace Cleaning

variable {s₀ : Session Task} {R : Set Any} {n : Any}

theorem start (h : Sound par s) : Cleaning par s ∅ s where
  closed _ hx := absurd hx (Set.notMem_empty _)
  useless _ hx := absurd hx (Set.notMem_empty _)
  justified _ _ _ _ _ hk := absurd hk (Set.notMem_empty _)
  tables := by rw [s.prune_empty]
  sound := by
    have hpar : parPrune par ∅ = par := by
      funext g
      exact if_pos (stays_iff.2 (Set.notMem_empty _))
    rw [hpar]
    exact h
  status _ _ _ _ := rfl

variable (h : Cleaning par s₀ R s)

include h

theorem has_iff : s.Has n ↔ s₀.Has n ∧ n ∉ R := (has_eq h.tables n).trans has_prune

theorem kids_of_notMem (hn : n ∉ R) : s.kids n = (s₀.kids n).filter (stays R) :=
  (kids_eq h.tables n).trans (kids_prune hn)

theorem mem_kids {k : Any} (hk : k ∈ s.kids n) : k ∈ s₀.kids n ∧ k ∉ R := by
  have hn := (h.has_iff.1 (has_of_kid hk)).2
  rw [h.kids_of_notMem hn, mem_filter, stays_iff] at hk
  exact hk

theorem subtree_subset : subtree s.kids n ⊆ subtree s₀.kids n :=
  subtree_mono fun hk => (h.mem_kids hk).1

theorem notMem_of_subtree (hn : n ∉ R) {x : Any} (hx : x ∈ subtree s.kids n) : x ∉ R := by
  rcases Relation.ReflTransGen.cases_tail hx with rfl | ⟨q, -, hxq⟩
  · exact hn
  · exact (h.mem_kids hxq).2

theorem isDetached_eq (hn : n ∉ R) : isDetached s n = isDetached s₀ n :=
  (Itp.isDetached_eq h.tables n).trans (isDetached_prune hn)

theorem attempt_eq {a : ℕ} {pa : ProofAttemptNode} (ha : s.proofAttemptTable a = some pa) :
    s₀.proofAttemptTable a = some pa := by
  rw [proofAttemptTable_eq h.tables] at ha
  exact (Session.prune_attempt.1 ha).2

theorem transf_eq (ht : s.transTable t = some tn) :
    ∃ tn₀, s₀.transTable t = some tn₀ ∧ tn₀.transfParent = tn.transfParent ∧
      tn₀.transfIsDetached = tn.transfIsDetached := by
  rw [transTable_eq h.tables] at ht
  obtain ⟨-, tn₀, htn₀, rfl⟩ := Session.prune_transf.1 ht
  exact ⟨tn₀, htn₀, rfl, rfl⟩

/-- The goal above a node that remains has its first status, where it is attached. -/
theorem pnProved_eq (hk : n ∈ s₀.kids (.pn g)) (hn : n ∉ R) (hd : s₀.goalIsDetached g = false) :
    s.pnProved g = s₀.pnProved g := by
  have hg : Any.pn g ∉ R := fun hmem => hn (h.closed _ hmem _ hk)
  exact some.inj (h.status (.pn g) (has_of_kid hk) hg (congrArg some hd))

theorem useless_first (hF : Forest par ∅ s₀) (hn : s.Has n) (hu : Useless s n) :
    ∃ m, n ∈ subtree s₀.kids m ∧ Useless s₀ m := by
  have hnR := (h.has_iff.1 hn).2
  cases hu with
  | detached hd =>
    rw [h.isDetached_eq hnR] at hd
    exact ⟨n, mem_subtree_self n, .detached hd⟩
  | @attempt a pa ha hp hok =>
    have ha₀ := h.attempt_eq ha
    refine ⟨_, mem_subtree_self _, ?_⟩
    cases hd : s₀.goalIsDetached pa.parent with
    | true =>
      refine .detached ?_
      rw [isDetached, ha₀, map_some, hd]
    | false =>
      have hk : Any.pa a ∈ s₀.kids (.pn pa.parent) := hF.mem_of_above (by
        rw [above, attemptParent, ha₀]
        rfl)
      rw [h.pnProved_eq hk hnR hd] at hp
      exact .attempt ha₀ hp hok
  | @transf t tn ht hp hf =>
    obtain ⟨tn₀, ht₀, hparent, -⟩ := h.transf_eq ht
    rw [← hparent] at hp
    have hk : Any.tn t ∈ s₀.kids (.pn tn₀.transfParent) := hF.mem_of_above (by
      rw [above, transfParent, ht₀]
      rfl)
    cases hd : s₀.goalIsDetached tn₀.transfParent with
    | true => exact ⟨_, subtree_of_mem hk (mem_subtree_self _), .detached (congrArg some hd)⟩
    | false =>
      refine ⟨_, mem_subtree_self _, ?_⟩
      cases hdet : tn₀.transfIsDetached with
      | true =>
        refine .detached ?_
        rw [isDetached, ht₀, map_some, hdet]
      | false =>
        have hatt : Attached s₀ (.tn t) := map_eq_some_iff.2 ⟨tn₀, ht₀, hdet⟩
        have hstatus := h.status (.tn t) (h.has_iff.1 hn).1 hnR hatt
        rw [h.pnProved_eq hk hnR hd] at hp
        refine .transf ht₀ hp ?_
        rw [← some.inj hstatus]
        exact hf

theorem justifies {k : Any} (hk : s₀.Has k) (hkR : k ∉ R) (hj : Justifies s₀ k) :
    Justifies s k := by
  cases hj with
  | attempt ha hok =>
    refine .attempt ?_ hok
    rw [proofAttemptTable_eq h.tables]
    exact Session.prune_attempt.2 ⟨hkR, ha⟩
  | transf ht hp =>
    refine .transf ((h.isDetached_eq hkR).trans ht) ?_
    rw [← hp]
    exact some.inj (h.status _ hk hkR ht)
  | goal hg =>
    refine .goal ?_
    rw [← hg]
    exact some.inj (h.isDetached_eq hkR)
  | theory hr => exact .theory ((h.isDetached_eq hkR).trans hr)

theorem remove (hF : Forest par ∅ s₀) (hC : Complete par s₀) (hn : s.Has n) (hu : Useless s n)
    (hs : s'.withoutStatus = (s.prune (subtree s.kids n)).withoutStatus)
    (hS : Sound (parPrune (parPrune par R) (subtree s.kids n)) s')
    (hstatus : ∀ m, s.Has m → m ∉ subtree s.kids n → Attached s m →
      anyProved s' m = anyProved s m) :
    Cleaning par s₀ (R ∪ subtree s.kids n) s' where
  closed := by
    rintro x (hx | hx) y hy
    · exact .inl (h.closed x hx y hy)
    · by_cases hyR : y ∈ R
      · exact .inl hyR
      · refine .inr (mem_subtree_of_kid hx ?_)
        rw [h.kids_of_notMem (h.notMem_of_subtree (h.has_iff.1 hn).2 hx), mem_filter]
        exact ⟨hy, stays_iff.2 hyR⟩
  useless := by
    rintro x (hx | hx)
    · exact h.useless x hx
    · obtain ⟨m, hnm, hm⟩ := h.useless_first hF hn hu
      exact ⟨m, subtree_trans hnm (h.subtree_subset hx), hm⟩
  justified m hm hmR k hk hkR hj := by
    rw [Set.mem_union, not_or] at hmR
    by_cases hkR' : k ∈ R
    · exact h.justified m hm hmR.1 k hk hkR' hj
    · have hkm : k ∈ s.kids m := by
        rw [h.kids_of_notMem hmR.1, mem_filter]
        exact ⟨hk, stays_iff.2 hkR'⟩
      refine hu.justified_stays h.sound m ((h.isDetached_eq hmR.1).trans hm) hmR.2 k hkm
        (hkR.resolve_left hkR') (h.justifies (hF.has_of_mem hC hk) hkR' hj)
  tables := by
    rw [hs, prune_withoutStatus_eq h.tables, prune_prune]
  sound := by
    rw [← parPrune_parPrune]
    exact hS
  status m hm hmR hd := by
    rw [Set.mem_union, not_or] at hmR
    have hatt : Attached s m := (h.isDetached_eq hmR.1).trans hd
    rw [hstatus m (h.has_iff.2 ⟨hm, hmR.1⟩) hmR.2 hatt]
    exact h.status m hm hmR.1 hd

/-- One node is looked at, and goes away with its subtree or stays. -/
theorem step {running : ℕ → Bool} (hrun : ∀ a, running a = false) (hF : Forest par ∅ s₀)
    (hC : Complete par s₀) (hn : s₀.Has n) (hnR : n ∉ R) :
    ∃ s' R', cleanAux running s n = some s' ∧ Cleaning par s₀ R' s' ∧
      R' ⊆ R ∪ subtree s₀.kids n := by
  have hhas := h.has_iff.2 ⟨hn, hnR⟩
  obtain ⟨b, hb, hu⟩ := doRemove_spec hhas
  unfold cleanAux
  rw [hb, bind_eq_bind, bind_some]
  cases b with
  | false => exact ⟨s, R, rfl, h, Set.subset_union_left⟩
  | true =>
    obtain ⟨s', hs', hs, hS, hstatus⟩ := removeSubtree_spec hrun h.sound hhas (hu rfl)
    exact ⟨s', _, hs', h.remove hF hC hhas (hu rfl) hs hS hstatus,
      Set.union_subset_union_right R h.subtree_subset⟩

end Cleaning

theorem visits_cleanAux (hrun : ∀ a, running a = false) (hF : Forest par ∅ s)
    (hC : Complete par s) : Visits s id (cleanAux running)
      fun V acc => Closed s.kids V ∧ ∃ R ⊆ V, Cleaning par s R acc where
  rows {V acc n} hI hn hV := by
    obtain ⟨-, R, hRV, hc⟩ := hI
    have hR := hV.mono_right hRV
    have hnR := Set.disjoint_left.mp hR (mem_subtree_self n)
    exact ⟨hc.has_iff.2 ⟨hn, hnR⟩, (kids_eq hc.tables n).trans (kids_prune_disjoint hR)⟩
  visit {V acc n} hI hn hV hkids := by
    obtain ⟨hclosed, R, hRV, hc⟩ := hI
    obtain ⟨s', R', hs', hc', hR'⟩ := hc.step hrun hF hC hn fun hnR => hV (hRV hnR)
    have hclosed' : Closed s.kids (insert n V) := by
      rintro x (rfl | hx) y hy
      · exact Set.mem_insert_of_mem _ (hkids y hy)
      · exact Set.mem_insert_of_mem _ (hclosed x hx y hy)
    refine ⟨s', hs', hclosed', R', hR'.trans (Set.union_subset ?_ ?_), hc'⟩
    · exact hRV.trans (Set.subset_insert n V)
    · exact hclosed'.subtree_subset (Set.mem_insert n V)

/-- What cleaning leaves: the tables without some nodes, all of them below useless ones; the
attached nodes that are kept have the status they had, it is right, and the children it
may be owed to are kept. -/
structure Cleaned (s s' : Session Task) : Prop where
  tables : ∃ R, s'.withoutStatus = (s.prune R).withoutStatus
  removed : ∀ n, s.Has n → ¬ s'.Has n → ∃ m, n ∈ subtree s.kids m ∧ Useless s m
  status : ∀ n, s'.Has n → Attached s n → anyProved s' n = anyProved s n
  right : ∀ n, s'.Right n
  proofs : ∀ n, s'.Has n → Attached s n → ∀ k ∈ s.kids n, Justifies s k →
    k ∈ s'.kids n ∧ Justifies s' k

theorem Cleaning.cleaned {R : Set Any} (h : Cleaning par s R s') (hF : Forest par ∅ s)
    (hC : Complete par s) : Cleaned s s' where
  tables := ⟨R, h.tables⟩
  removed n hn hgone := by
    refine h.useless n ?_
    by_contra hnR
    exact hgone (h.has_iff.2 ⟨hn, hnR⟩)
  status n hn hd := h.status n (h.has_iff.1 hn).1 (h.has_iff.1 hn).2 hd
  right := h.sound.right
  proofs n hn hd k hk hj := by
    have hnR := (h.has_iff.1 hn).2
    have hkR : k ∉ R := fun hmem => h.justified n hd hnR k hk hmem hj
    refine ⟨?_, h.justifies (hF.has_of_mem hC hk) hkR hj⟩
    rw [h.kids_of_notMem hnR, mem_filter]
    exact ⟨hk, stays_iff.2 hkR⟩

theorem disjoint_files (hF : Forest par ∅ s) {fid' : ℕ} (hne : fid ≠ fid') :
    Disjoint (subtree s.kids (.file fid)) (subtree s.kids (.file fid')) := by
  have hroot : ∀ {fid fid'}, Any.file fid ∈ subtree s.kids (.file fid') → fid = fid' := by
    intro fid fid' hmem
    rcases Relation.ReflTransGen.cases_tail hmem with heq | ⟨q, -, hk⟩
    · exact Any.file.inj heq
    · cases hF.above_of_mem hk
  rw [Set.disjoint_left]
  intro x hx hx'
  rcases hF.isForest.total hx hx' with hmem | hmem
  · exact hne (hroot hmem).symm
  · exact hne (hroot hmem)

theorem clean_keeps {running : ℕ → Bool} (hrun : ∀ a, running a = false) (h : Sound par s)
    (nid : Option Any) (hn : ∀ n, nid = some n → s.Has n) :
    ∃ s', clean running s nid = some s' ∧ Cleaned s s' := by
  have hvisits := visits_cleanAux hrun h.forest h.complete
  have hstart : Closed s.kids ∅ ∧ ∃ R ⊆ ∅, Cleaning par s R s :=
    ⟨fun x hx => absurd hx (Set.notMem_empty x), ∅, subset_rfl, .start h⟩
  cases nid with
  | some n =>
    obtain ⟨s', hs', -, R, -, hc⟩ := hvisits.walked h.forest h.complete (hn n rfl)
      (Nat.le_succ _) ∅ s hstart (Set.disjoint_empty _)
    exact ⟨s', hs', hc.cleaned h.forest h.complete⟩
  | none =>
    have hpairs : (s.sessionFiles.map fun b => Any.file b.1).Pairwise fun n n' =>
      Disjoint (subtree s.kids n) (subtree s.kids n') := by
      rw [pairwise_map]
      exact (pairwise_map.1 h.forest.fileKeys).imp fun hne => disjoint_files h.forest hne
    obtain ⟨s', hs', -, R, -, hc⟩ := foldlM_subtrees hpairs (fun n hn => by
      obtain ⟨b, hb, rfl⟩ := mem_map.1 hn
      have hfile : s.findFile b.1 = some b.2 := Lookup.lookup_of_mem h.forest.fileKeys hb
      refine hvisits.walked h.forest h.complete ?_ (Nat.le_succ s.nextProofNodeID)
      exact isSome_iff_exists.2 ⟨_, hfile⟩) hstart fun _ _ => Set.disjoint_empty _
    rw [foldlM_map] at hs'
    exact ⟨s', hs', hc.cleaned h.forest h.complete⟩

/-! ## A proof below a useless transformation -/

namespace Example

def prover : Prover := ⟨[], [], []⟩

def validAttempt (g : ℕ) : ProofAttemptNode :=
  ⟨g, prover, ⟨0, 0, 0⟩, some ⟨.valid, 0, 0, []⟩, false, none⟩

def ident : Ident := ⟨[], 0⟩

def goalParent : ℕ → Option ProofParent
  | 0 => some (.theory 0)
  | 1 => some (.trans 0)
  | 2 => some (.trans 0)
  | _ => none

/-- The goal 0 is proved by an attempt and has a transformation that is not proved, since
only one of its two goals is. -/
def twoProofs : Session Unit where
  proofAttemptTable a := if a = 0 then some (validAttempt 0) else
    if a = 1 then some (validAttempt 1) else none
  nextProofAttemptID := 2
  proofNodeTable
    | 0 => some ⟨ident, [], .theory 0, [(prover, 0)], [0]⟩
    | 1 => some ⟨ident, [], .trans 0, [(prover, 1)], []⟩
    | 2 => some ⟨ident, [], .trans 0, [], []⟩
    | _ => none
  nextProofNodeID := 3
  transTable t := if t = 0 then some ⟨[], [], [1, 2], 0, false⟩ else none
  nextTransID := 1
  theoryTable r := if r = 0 then some ⟨ident, [0], 0, false⟩ else none
  nextTheory := 1
  sessionFiles := [(0, ⟨0, [], [], false, [0]⟩)]
  nextFileID := 1
  hasShapes := true
  sumTable _ := none
  rawTasks g := if g < 3 then some () else none
  fileState fid := if fid = 0 then some true else none
  thState _ := some true
  tnState _ := some false
  pnState g := if g < 3 then some (decide (g < 2)) else none

theorem findFile_twoProofs {f : File} :
    twoProofs.findFile fid = some f ↔ fid = 0 ∧ f = ⟨0, [], [], false, [0]⟩ := by
  show List.lookup fid [(0, _)] = _ ↔ _
  rw [Lookup.lookup_cons]
  split_ifs with h
  · simp [h, eq_comm]
  · simp [h]

theorem goal_twoProofs {pn : ProofNode} (h : twoProofs.proofNodeTable g = some pn) :
    g = 0 ∧ pn = ⟨ident, [], .theory 0, [(prover, 0)], [0]⟩ ∨
      g = 1 ∧ pn = ⟨ident, [], .trans 0, [(prover, 1)], []⟩ ∨
        g = 2 ∧ pn = ⟨ident, [], .trans 0, [], []⟩ := by
  rcases g with _ | _ | _ | g
  · exact .inl ⟨rfl, (some.inj h).symm⟩
  · exact .inr (.inl ⟨rfl, (some.inj h).symm⟩)
  · exact .inr (.inr ⟨rfl, (some.inj h).symm⟩)
  · cases h

theorem transf_twoProofs :
    twoProofs.transTable t = some tn ↔ t = 0 ∧ tn = ⟨[], [], [1, 2], 0, false⟩ := by
  show (if t = 0 then some _ else none) = some tn ↔ _
  split_ifs with h <;> simp [h, eq_comm]

theorem theory_twoProofs {th : Theory} :
    twoProofs.theoryTable r = some th ↔ r = 0 ∧ th = ⟨ident, [0], 0, false⟩ := by
  show (if r = 0 then some _ else none) = some th ↔ _
  split_ifs with h <;> simp [h, eq_comm]

theorem attempt_twoProofs {a : ℕ} {pa : ProofAttemptNode}
    (h : twoProofs.proofAttemptTable a = some pa) : a < 2 ∧ pa = validAttempt a := by
  simp only [twoProofs] at h
  split_ifs at h with h₀ h₁
  · exact ⟨by omega, by rw [h₀]; exact (some.inj h).symm⟩
  · exact ⟨by omega, by rw [h₁]; exact (some.inj h).symm⟩

theorem goalParent_cases {q : ProofParent} (h : goalParent g = some q) :
    g = 0 ∧ q = .theory 0 ∨ g = 1 ∧ q = .trans 0 ∨ g = 2 ∧ q = .trans 0 := by
  rcases g with _ | _ | _ | g
  · exact .inl ⟨rfl, (some.inj h).symm⟩
  · exact .inr (.inl ⟨rfl, (some.inj h).symm⟩)
  · exact .inr (.inr ⟨rfl, (some.inj h).symm⟩)
  · cases h

theorem forest_twoProofs : Forest goalParent ∅ twoProofs where
  attempts := by
    refine ⟨fun {g a} h => ?_, fun g => ?_, fun {a g} h _ => ?_⟩
    · obtain ⟨pn, hpn, ha⟩ := mem_rows.1 h
      obtain ⟨rfl, rfl⟩ | ⟨rfl, rfl⟩ | ⟨rfl, rfl⟩ := goal_twoProofs hpn
      · obtain rfl := mem_singleton.1 ha
        rfl
      · obtain rfl := mem_singleton.1 ha
        rfl
      · cases ha
    · rcases g with _ | _ | _ | g
      · exact nodup_singleton 0
      · exact nodup_singleton 1
      · exact nodup_nil
      · exact nodup_nil
    · obtain ⟨pa, hpa, rfl⟩ := map_eq_some_iff.1 h
      obtain ⟨ha, rfl⟩ := attempt_twoProofs hpa
      interval_cases a <;> exact mem_singleton_self _
  transfs := by
    refine ⟨fun {g t} h => ?_, fun g => ?_, fun {t g} h _ => ?_⟩
    · obtain ⟨pn, hpn, ht⟩ := mem_rows.1 h
      obtain ⟨rfl, rfl⟩ | ⟨rfl, rfl⟩ | ⟨rfl, rfl⟩ := goal_twoProofs hpn
      · obtain rfl := mem_singleton.1 ht
        rfl
      · cases ht
      · cases ht
    · rcases g with _ | _ | _ | g
      · exact nodup_singleton 0
      · exact nodup_nil
      · exact nodup_nil
      · exact nodup_nil
    · obtain ⟨tn, htn, rfl⟩ := map_eq_some_iff.1 h
      obtain ⟨rfl, rfl⟩ := transf_twoProofs.1 htn
      exact mem_singleton_self 0
  goals := by
    refine ⟨fun {q g} h => ?_, fun q => ?_, fun {g q} h _ => ?_⟩
    · cases q with
      | theory r =>
        obtain ⟨th, hth, hg⟩ := mem_rows.1 h
        obtain ⟨rfl, rfl⟩ := theory_twoProofs.1 hth
        obtain rfl := mem_singleton.1 hg
        rfl
      | trans t =>
        obtain ⟨tn, htn, hg⟩ := mem_rows.1 h
        obtain ⟨rfl, rfl⟩ := transf_twoProofs.1 htn
        obtain rfl | hg := mem_cons.1 hg
        · rfl
        · obtain rfl := mem_singleton.1 hg
          rfl
    · cases q with
      | theory r =>
        show (((if r = 0 then some _ else none).map Theory.theoryGoals).getD []).Nodup
        split_ifs
        · exact nodup_singleton 0
        · exact nodup_nil
      | trans t =>
        show (((if t = 0 then some _ else none).map
          TransformationNode.transfSubtasks).getD []).Nodup
        split_ifs
        · show [1, 2].Nodup
          decide
        · exact nodup_nil
    · obtain ⟨rfl, rfl⟩ | ⟨rfl, rfl⟩ | ⟨rfl, rfl⟩ := goalParent_cases h
      · exact mem_singleton_self 0
      · exact mem_cons_self
      · exact mem_cons_of_mem 1 (mem_singleton_self 2)
  theories := by
    refine ⟨fun {fid r} h => ?_, fun fid => ?_, fun {r fid} h _ => ?_⟩
    · obtain ⟨f, hf, hr⟩ := mem_rows.1 h
      obtain ⟨rfl, rfl⟩ := findFile_twoProofs.1 hf
      obtain rfl := mem_singleton.1 hr
      rfl
    · rw [theoryKids, rows]
      cases hf : twoProofs.findFile fid with
      | none => exact nodup_nil
      | some f =>
        obtain ⟨-, rfl⟩ := findFile_twoProofs.1 hf
        exact nodup_singleton 0
    · obtain ⟨th, hth, rfl⟩ := map_eq_some_iff.1 h
      obtain ⟨rfl, rfl⟩ := theory_twoProofs.1 hth
      exact mem_singleton_self 0
  made h := by
    obtain ⟨rfl, rfl⟩ | ⟨rfl, rfl⟩ | ⟨rfl, rfl⟩ := goal_twoProofs h <;> rfl
  provers h := by
    obtain ⟨rfl, rfl⟩ | ⟨rfl, rfl⟩ | ⟨rfl, rfl⟩ := goal_twoProofs h <;> decide
  prover h hmem ha := by
    obtain ⟨-, rfl⟩ := attempt_twoProofs ha
    obtain ⟨rfl, rfl⟩ | ⟨rfl, rfl⟩ | ⟨rfl, rfl⟩ := goal_twoProofs h
    · cases mem_singleton.1 hmem
      rfl
    · cases mem_singleton.1 hmem
      rfl
    · cases hmem
  lower ht hg := by
    obtain ⟨rfl, rfl⟩ := transf_twoProofs.1 ht
    obtain ⟨rfl, hq⟩ | ⟨rfl, -⟩ | ⟨rfl, -⟩ := goalParent_cases hg
    · cases hq
    · exact Nat.zero_lt_one
    · exact Nat.zero_lt_two
  untasked {g} hg _ := by
    rcases g with _ | _ | _ | g
    · cases hg
    · cases hg
    · cases hg
    · show (if g + 3 < 3 then some () else none) = none
      exact if_neg (not_lt.2 (Nat.le_add_left 3 g))
  fileKeys := nodup_singleton 0
  fileId hf := by
    obtain ⟨rfl, rfl⟩ := findFile_twoProofs.1 hf
    rfl
  goal_lt h := by
    obtain ⟨rfl, -⟩ | ⟨rfl, -⟩ | ⟨rfl, -⟩ := goalParent_cases h <;> decide
  attempt_lt h := (attempt_twoProofs h).1
  transf_lt h := by
    obtain ⟨rfl, -⟩ := transf_twoProofs.1 h
    exact Nat.zero_lt_one
  theory_lt h := by
    obtain ⟨rfl, -⟩ := theory_twoProofs.1 h
    exact Nat.zero_lt_one
  file_lt h := by
    obtain ⟨rfl, -⟩ := findFile_twoProofs.1 h
    exact Nat.zero_lt_one

theorem sound_twoProofs : Sound goalParent twoProofs where
  forest := forest_twoProofs
  complete g hg := by
    obtain ⟨q, hq⟩ := isSome_iff_exists.1 hg
    obtain ⟨rfl, -⟩ | ⟨rfl, -⟩ | ⟨rfl, -⟩ := goalParent_cases hq <;> rfl
  files r th hr := by
    obtain ⟨rfl, rfl⟩ := theory_twoProofs.1 hr
    rfl
  proper := by
    refine ⟨fun {n} _ => ?_, fun {r r' th th'} hr hr' _ => ?_, fun {g} hg => ?_, fun {fid} hf => ?_⟩
    · cases n with
      | pn g =>
        intro pn hpn _
        obtain ⟨rfl, rfl⟩ | ⟨rfl, rfl⟩ | ⟨rfl, rfl⟩ := goal_twoProofs hpn
        · refine iff_of_true rfl (.inr ⟨_, mem_cons_self, validAttempt 0, rfl, ?_⟩)
          decide
        · refine iff_of_true rfl (.inr ⟨_, mem_cons_self, validAttempt 1, rfl, ?_⟩)
          decide
        · refine iff_of_false Bool.false_ne_true ?_
          rintro (⟨t, ht, -⟩ | ⟨b, hb, -⟩)
          · cases ht
          · cases hb
      | tn t =>
        intro tn htn _
        obtain ⟨rfl, rfl⟩ := transf_twoProofs.1 htn
        refine iff_of_false Bool.false_ne_true fun h => ?_
        exact Bool.false_ne_true (h 2 (mem_cons_of_mem 1 (mem_singleton_self 2)) rfl)
      | th r =>
        intro th hth _
        obtain ⟨rfl, rfl⟩ := theory_twoProofs.1 hth
        refine iff_of_true rfl fun g hg _ => ?_
        obtain rfl := mem_singleton.1 hg
        rfl
      | file fid =>
        intro f hf _
        obtain ⟨rfl, rfl⟩ := findFile_twoProofs.1 hf
        exact iff_of_true rfl fun r _ th _ _ => rfl
      | pa a => trivial
    · exact (theory_twoProofs.1 hr).1.trans (theory_twoProofs.1 hr').1.symm
    · exact if_neg (not_lt.2 hg)
    · exact if_neg (Nat.pos_iff_ne_zero.1 hf)

theorem clean_twoProofs : (clean (fun _ => false) twoProofs none).map
    (fun s' => (s'.proofAttemptTable 1).isNone) = some true := by
  rfl

end Example

open Example

theorem clean_keeps_twoProofs : ∃ s', clean (fun _ => false) twoProofs none = some s' ∧
    Cleaned twoProofs s' :=
  clean_keeps (fun _ => rfl) sound_twoProofs none fun _ h => by cases h

/-- The valid attempt on the proved goal 1 goes away with the transformation above it. -/
theorem not_removes_useless_only : ¬ ∀ (par : ℕ → Option ProofParent) (running : ℕ → Bool)
    (s s' : Session Unit) (nid : Option Any), (∀ a, running a = false) → Sound par s →
    clean running s nid = some s' → ∀ n, s.Has n → ¬ s'.Has n → Useless s n := by
  intro h
  obtain ⟨s', hs', hgone⟩ := map_eq_some_iff.1 clean_twoProofs
  have hmissing : ¬ s'.Has (.pa 1) := by
    show ¬ (s'.proofAttemptTable 1).isSome = true
    rw [isNone_iff_eq_none.1 hgone]
    exact Bool.false_ne_true
  have hu := h goalParent _ twoProofs s' none (fun _ => rfl) sound_twoProofs hs' (.pa 1) rfl hmissing
  cases hu with
  | detached hd => exact Bool.false_ne_true (some.inj hd)
  | attempt ha _ hok =>
    obtain ⟨-, rfl⟩ := attempt_twoProofs ha
    exact Bool.false_ne_true hok.symm

end Why3.Itp
