import Why3.Session.Forest

/-!
# Proved statuses

The updates of the cached statuses change nothing else, they end, and each of them makes
the status of its node right.  `Proper Y` says that the cached statuses are right outside
the nodes of `Y`; an update takes its node out of `Y`.
-/

namespace Why3.Itp

open Parents OptionLoops Session

variable {Task : Type} {s s' : Session Task} {par : ℕ → Option ProofParent} {U : Set Any}

/-! ## Nothing but the statuses changes -/

theorem thProved_withoutStatus (s : Session Task) (th : Theory) :
    (s.thProved th).2.withoutStatus = s.withoutStatus := by
  unfold thProved
  split <;> rfl

theorem fileProved_withoutStatus (s : Session Task) (f : File) :
    (s.fileProved f).2.withoutStatus = s.withoutStatus := by
  unfold fileProved
  split <;> rfl

theorem theoriesProved_withoutStatus {rs : List ℕ} {b : Bool}
    (h : theoriesProved rs s = some (b, s')) : s'.withoutStatus = s.withoutStatus := by
  induction rs generalizing s with
  | nil =>
    cases h
    rfl
  | cons r rs ih =>
    unfold theoriesProved at h
    rw [Option.bind_eq_bind, Option.bind_eq_some_iff] at h
    obtain ⟨th, -, h⟩ := h
    dsimp only at h
    split_ifs at h
    · exact ih h
    · exact (ih h).trans (thProved_withoutStatus s th)
    · cases h
      exact thProved_withoutStatus s th

theorem updateFileNode_withoutStatus {f : File} (h : updateFileNode s f = some s') :
    s'.withoutStatus = s.withoutStatus := by
  unfold updateFileNode at h
  split_ifs at h
  · cases h
    rfl
  · rw [Option.bind_eq_bind, Option.bind_eq_some_iff] at h
    obtain ⟨⟨proved, s₁⟩, h₁, h⟩ := h
    have hs₂ := (fileProved_withoutStatus s₁ f).trans (theoriesProved_withoutStatus h₁)
    cases h
    split_ifs
    · exact hs₂
    · exact hs₂

theorem updateTheoryNode_withoutStatus {r : ℕ} (h : updateTheoryNode s r = some s') :
    s'.withoutStatus = s.withoutStatus := by
  unfold updateTheoryNode at h
  rw [Option.bind_eq_bind, Option.bind_eq_some_iff] at h
  obtain ⟨th, -, h⟩ := h
  have hs₁ := thProved_withoutStatus s th
  dsimp only at h
  split_ifs at h
  · cases h
    exact hs₁
  · rw [Option.bind_eq_bind, Option.bind_eq_some_iff] at h
    obtain ⟨f, -, h⟩ := h
    exact (updateFileNode_withoutStatus h).trans hs₁

variable {fuel : ℕ}

theorem updateTransNode_cases {t : ℕ} (h : updateTransNode (fuel + 1) s t = some s') :
    ∃ tn s₁, s.transTable t = some tn ∧
      ((transStatus s tn = s.tnProved t ∧ s₁ = s) ∨
        (transStatus s tn ≠ s.tnProved t ∧
          updateGoalNode fuel (s.setTnState t (transStatus s tn)) tn.transfParent = some s₁)) ∧
      ((tn.transfSubtasks = [] ∧ updateGoalNode fuel s₁ tn.transfParent = some s') ∨
        (tn.transfSubtasks ≠ [] ∧ s' = s₁)) := by
  unfold updateTransNode at h
  rw [Option.bind_eq_bind, Option.bind_eq_some_iff] at h
  obtain ⟨tn, ht, h⟩ := h
  have hend : ∀ {s₁}, (if tn.transfSubtasks = [] then updateGoalNode fuel s₁ tn.transfParent
      else some s₁) = some s' →
      (tn.transfSubtasks = [] ∧ updateGoalNode fuel s₁ tn.transfParent = some s') ∨
        (tn.transfSubtasks ≠ [] ∧ s' = s₁) := by
    intro s₁ h
    split_ifs at h with hnil
    · exact .inl ⟨hnil, h⟩
    · exact .inr ⟨hnil, (Option.some.inj h).symm⟩
  dsimp only at h
  by_cases heq : transStatus s tn = s.tnProved t
  · rw [if_pos heq] at h
    exact ⟨tn, s, ht, .inl ⟨heq, rfl⟩, hend h⟩
  · rw [if_neg heq, Option.bind_eq_bind, Option.bind_eq_some_iff] at h
    obtain ⟨s₁, h₁, h⟩ := h
    exact ⟨tn, s₁, ht, .inr ⟨heq, h₁⟩, hend h⟩

/-- By induction on the fuel, for a goal and for a transformation. -/
theorem updateNode_withoutStatus (fuel : ℕ) (s : Session Task) :
    (∀ g s', updateGoalNode fuel s g = some s' → s'.withoutStatus = s.withoutStatus) ∧
      ∀ t s', updateTransNode fuel s t = some s' → s'.withoutStatus = s.withoutStatus := by
  induction fuel generalizing s with
  | zero =>
    constructor
    · intro g s' h
      cases h
    · intro t s' h
      cases h
  | succ fuel ih =>
    refine ⟨fun g s' h => ?_, fun t s' h => ?_⟩
    · unfold updateGoalNode at h
      simp only [Option.bind_eq_bind, Option.bind_eq_some_iff] at h
      obtain ⟨pn, -, proved, -, h⟩ := h
      split_ifs at h
      · cases h
        rfl
      · split at h
        · exact (ih (s.setPnState g proved)).2 _ _ h
        · have hs' := updateTheoryNode_withoutStatus h
          exact hs'
    · obtain ⟨tn, s₁, -, h₁, h⟩ := updateTransNode_cases h
      have hs₁ : s₁.withoutStatus = s.withoutStatus := by
        rcases h₁ with ⟨-, rfl⟩ | ⟨-, h₁⟩
        · rfl
        · exact (ih (s.setTnState t (transStatus s tn))).1 _ _ h₁
      rcases h with ⟨-, h⟩ | ⟨-, rfl⟩
      · exact ((ih s₁).1 _ _ h).trans hs₁
      · exact hs₁

variable {g : ℕ}

theorem updateGoalNode_withoutStatus (h : updateGoalNode fuel s g = some s') :
    s'.withoutStatus = s.withoutStatus :=
  (updateNode_withoutStatus fuel s).1 g s' h

theorem updateTransNode_withoutStatus {t : ℕ} (h : updateTransNode fuel s t = some s') :
    s'.withoutStatus = s.withoutStatus :=
  (updateNode_withoutStatus fuel s).2 t s' h

/-! ## The updates end -/

/-- The file of a theory is there, also where it does not list the theory yet. -/
def HasFiles (s : Session Task) : Prop :=
  ∀ r th, s.theoryTable r = some th → (s.findFile th.theoryParentName).isSome

theorem HasFiles.congr (h : HasFiles s) (hs : s'.withoutStatus = s.withoutStatus) :
    HasFiles s' := by
  intro r th hr
  rw [theoryTable_eq hs] at hr
  rw [findFile_eq hs]
  exact h r th hr

theorem theoriesProved_total {rs : List ℕ} (h : ∀ r ∈ rs, (s.theoryTable r).isSome) :
    ∃ b s', theoriesProved rs s = some (b, s') := by
  induction rs generalizing s with
  | nil => exact ⟨true, s, rfl⟩
  | cons r rs ih =>
    obtain ⟨th, hr⟩ := Option.isSome_iff_exists.1 (h r List.mem_cons_self)
    have htl := fun r hr => h r (List.mem_cons_of_mem _ hr)
    unfold theoriesProved
    rw [hr, Option.bind_eq_bind, Option.bind_some]
    by_cases hdet : th.theoryIsDetached = true
    · rw [if_pos hdet]
      exact ih htl
    · rw [if_neg hdet]
      have htable := theoryTable_eq (thProved_withoutStatus s th)
      dsimp only
      split_ifs
      · refine ih fun r hr => ?_
        rw [htable]
        exact htl r hr
      · exact ⟨_, _, rfl⟩

theorem updateFileNode_total (h : Forest par U s) {fid : ℕ} {f : File}
    (hf : s.findFile fid = some f) : ∃ s', updateFileNode s f = some s' := by
  unfold updateFileNode
  split_ifs
  · exact ⟨_, rfl⟩
  · have hrows : ∀ r ∈ f.fileTheories, (s.theoryTable r).isSome := by
      intro r hr
      have hpar := h.theories.down (mem_rows.2 ⟨f, hf, hr⟩)
      rw [theoryParent, Option.map_eq_some_iff] at hpar
      obtain ⟨th, hth, -⟩ := hpar
      rw [hth]
      rfl
    obtain ⟨b, s₁, hs₁⟩ := theoriesProved_total hrows
    rw [hs₁]
    exact ⟨_, rfl⟩

theorem updateTheoryNode_total (h : Forest par U s) (hfile : HasFiles s) {r : ℕ}
    (hr : (s.theoryTable r).isSome) : ∃ s', updateTheoryNode s r = some s' := by
  obtain ⟨th, hr⟩ := Option.isSome_iff_exists.1 hr
  unfold updateTheoryNode
  rw [hr, Option.bind_eq_bind, Option.bind_some]
  dsimp only
  split_ifs
  · exact ⟨_, rfl⟩
  · have hs₁ := thProved_withoutStatus s th
    obtain ⟨f, hf⟩ := Option.isSome_iff_exists.1 (hfile r th hr)
    rw [← findFile_eq hs₁] at hf
    have h₁ : Forest par U ((s.thProved th).2.setThState th.theoryName
        (th.theoryGoals.all fun pn => s.goalIsDetached pn || s.pnProved pn)) :=
      (h.congr hs₁).congr rfl
    obtain ⟨s', hs'⟩ := updateFileNode_total h₁ hf
    refine ⟨s', ?_⟩
    show ((s.thProved th).2.findFile th.theoryParentName).bind _ = some s'
    rw [hf]
    exact hs'

theorem goalStatus_total (h : Forest par U s) (hg : (s.proofNodeTable g).isSome) :
    ∃ b, goalStatus s g = some b := by
  obtain ⟨pn, hg⟩ := Option.isSome_iff_exists.1 hg
  have hattempts : ∀ a ∈ pn.proofnAttempts, (s.proofAttemptTable a.2).isSome := by
    intro a ha
    have hpar := h.attempts.down (mem_rows.2 ⟨pn, hg, List.mem_map_of_mem ha⟩)
    rw [attemptParent, Option.map_eq_some_iff] at hpar
    obtain ⟨pa, hpa, -⟩ := hpar
    rw [hpa]
    rfl
  have htransfs : ∀ t ∈ pn.proofnTransformations,
      ((s.transTable t).map fun tn => (t, tn)).isSome := by
    intro t ht
    have hpar := h.transfs.down (mem_rows.2 ⟨pn, hg, ht⟩)
    rw [transfParent, Option.map_eq_some_iff] at hpar
    obtain ⟨tn, htn, -⟩ := hpar
    rw [htn]
    rfl
  obtain ⟨pas, hpas⟩ := mapM_total hattempts
  obtain ⟨tns, htns⟩ := mapM_total htransfs
  unfold goalStatus
  simp only [hg, hpas, htns, Option.bind_eq_bind, Option.bind_some]
  exact ⟨_, rfl⟩

/-- Goals and transformations are listed by their parents. -/
def GoalsListed (U : Set Any) : Prop := ∀ n ∈ U, ∃ r, n = .th r

/-- The fuel that is needed goes down with the number of the goal. -/
theorem updateNode_total (hU : GoalsListed U) (fuel : ℕ) (s : Session Task) (h : Forest par U s)
    (hfile : HasFiles s) :
    (∀ g, (s.proofNodeTable g).isSome → 2 * g + 1 ≤ fuel → ∃ s', updateGoalNode fuel s g = some s') ∧
      ∀ t tn, s.transTable t = some tn → 2 * tn.transfParent + 2 ≤ fuel →
        ∃ s', updateTransNode fuel s t = some s' := by
  induction fuel generalizing s with
  | zero =>
    constructor
    · intro g _ hf
      omega
    · intro t tn _ hf
      omega
  | succ fuel ih =>
    -- the goal of a transformation is made
    have hparent : ∀ {t tn}, s.transTable t = some tn →
        (s.proofNodeTable tn.transfParent).isSome := by
      intro t tn ht
      have hpar : s.transfParent t = some tn.transfParent := by
        rw [transfParent, ht]
        rfl
      have hmem := h.transfs.up hpar fun hmem => by
        obtain ⟨r, hr⟩ := hU _ hmem
        cases hr
      obtain ⟨pn, hpn, -⟩ := mem_rows.1 hmem
      rw [hpn]
      rfl
    refine ⟨fun g hg hf => ?_, fun t tn ht hf => ?_⟩
    · obtain ⟨proved, hproved⟩ := goalStatus_total h hg
      obtain ⟨pn, hpn⟩ := Option.isSome_iff_exists.1 hg
      unfold updateGoalNode
      simp only [hpn, hproved, Option.bind_eq_bind, Option.bind_some]
      split_ifs
      · exact ⟨_, rfl⟩
      have hmem := h.goals.up (h.made hpn) fun hmem => by
        obtain ⟨r, hr⟩ := hU _ hmem
        cases hr
      cases hp : pn.proofnParent with
      | trans t =>
        rw [hp] at hmem
        obtain ⟨tn, ht, -⟩ := mem_rows.1 hmem
        have hlow := h.lower ht (hp ▸ h.made hpn)
        exact (ih (s.setPnState g proved) (h.congr rfl) (hfile.congr rfl)).2 t tn ht (by omega)
      | theory r =>
        rw [hp] at hmem
        obtain ⟨th, hr, -⟩ := mem_rows.1 hmem
        have hr' : ((s.setPnState g proved).theoryTable r).isSome := by
          show (s.theoryTable r).isSome
          rw [hr]
          rfl
        have h₁ : Forest par U (s.setPnState g proved) := h.congr rfl
        exact updateTheoryNode_total h₁ (hfile.congr rfl) hr'
    · have hend : ∀ s₁ : Session Task, s₁.withoutStatus = s.withoutStatus →
          ∃ s', (if tn.transfSubtasks = [] then updateGoalNode fuel s₁ tn.transfParent
            else some s₁) = some s' := by
        intro s₁ heq
        split_ifs
        · refine (ih s₁ (h.congr heq) (hfile.congr heq)).1 tn.transfParent ?_ (by omega)
          rw [proofNodeTable_eq heq]
          exact hparent ht
        · exact ⟨_, rfl⟩
      unfold updateTransNode
      rw [ht, Option.bind_eq_bind, Option.bind_some]
      dsimp only
      by_cases heq : transStatus s tn = s.tnProved t
      · rw [if_pos heq]
        exact hend s rfl
      · obtain ⟨s₁, hs₁⟩ := (ih (s.setTnState t (transStatus s tn)) (h.congr rfl)
          (hfile.congr rfl)).1 tn.transfParent (hparent ht) (by omega)
        rw [if_neg heq, hs₁, Option.bind_eq_bind, Option.bind_some]
        have heq := updateGoalNode_withoutStatus hs₁
        exact hend s₁ heq

theorem updateGoalNode_total (hU : GoalsListed U) (h : Forest par U s) (hfile : HasFiles s)
    (hg : (s.proofNodeTable g).isSome) : ∃ s', updateGoalNode (updateFuel s) s g = some s' := by
  refine (updateNode_total hU _ s h hfile).1 g hg ?_
  obtain ⟨pn, hpn⟩ := Option.isSome_iff_exists.1 hg
  have hlt := h.goal_lt (h.made hpn)
  unfold updateFuel
  omega

end Why3.Itp

/-!
# Right statuses

A cached status is right when it says what the statuses below it say.  An update makes the
status of its node right, and moves the difference to the parent, where the next update
takes it away.
-/

namespace Why3.Itp

open Parents OptionLoops List Function

variable {Task : Type} {s s' : Session Task} {par : ℕ → Option ProofParent} {U Y Y' : Set Any}

namespace Session

variable (s : Session Task)

/-- The status of a theory, stored or not. -/
def thStatus (th : Theory) : Bool := (s.thState th.theoryName).getD th.theoryGoals.isEmpty

def fileStatus (f : File) : Bool := (s.fileState f.fileId).getD f.fileTheories.isEmpty

/-- Some attached transformation is proved, or some attempt is valid and not obsolete. -/
def GoalProved (pn : ProofNode) : Prop :=
  (∃ t ∈ pn.proofnTransformations, ∃ tn, s.transTable t = some tn ∧ tn.transfIsDetached = false ∧
    s.tnProved t = true) ∨
  ∃ b ∈ pn.proofnAttempts, ∃ pa, s.proofAttemptTable b.2 = some pa ∧ paOk pa = true

/-- All attached goals of a list are proved. -/
def GoalsProved (gs : List ℕ) : Prop :=
  ∀ g ∈ gs, s.goalIsDetached g = false → s.pnProved g = true

def TheoriesProved (rs : List ℕ) : Prop :=
  ∀ r ∈ rs, ∀ th, s.theoryTable r = some th → th.theoryIsDetached = false → s.thStatus th = true

/-- The cached status of a node that is attached is right. -/
def Right : Any → Prop
  | .pn g => ∀ pn, s.proofNodeTable g = some pn → s.goalIsDetached g = false →
      (s.pnProved g = true ↔ s.GoalProved pn)
  | .tn t => ∀ tn, s.transTable t = some tn → tn.transfIsDetached = false →
      (s.tnProved t = true ↔ s.GoalsProved tn.transfSubtasks)
  | .th r => ∀ th, s.theoryTable r = some th → th.theoryIsDetached = false →
      (s.thStatus th = true ↔ s.GoalsProved th.theoryGoals)
  | .file fid => ∀ f, s.findFile fid = some f → f.fileIsDetached = false →
      (s.fileStatus f = true ↔ s.TheoriesProved f.fileTheories)
  | .pa _ => True

end Session

/-- The cached statuses outside `Y` are right.  No two theories share an identifier, and
the numbers to come have no status. -/
structure Proper (Y : Set Any) (s : Session Task) : Prop where
  right : ∀ {n}, n ∉ Y → s.Right n
  names : ∀ {r r' th th'}, s.theoryTable r = some th → s.theoryTable r' = some th' →
    th.theoryName = th'.theoryName → r = r'
  goalUnset : ∀ {g}, s.nextProofNodeID ≤ g → s.pnState g = none
  fileUnset : ∀ {fid}, s.nextFileID ≤ fid → s.fileState fid = none

theorem Proper.mono (h : Proper Y s) (hY : Y ⊆ Y') : Proper Y' s :=
  ⟨fun hn => h.right fun hY' => hn (hY hY'), h.names, h.goalUnset, h.fileUnset⟩

variable {n : Any}

/-- A node whose status is right is not exempted any more. -/
theorem Proper.settle (h : Proper Y s) (hn : s.Right n) : Proper (Y \ {n}) s where
  right {m} hm := by
    by_cases hmn : m = n
    · rwa [hmn]
    · exact h.right fun hY => hm ⟨hY, hmn⟩
  names := h.names
  goalUnset := h.goalUnset
  fileUnset := h.fileUnset

/-! ## Statuses that are stored when they are read -/

/-- Nothing changes but where the statuses are stored. -/
structure SameStatus (s s' : Session Task) : Prop where
  nodes : s'.withoutStatus = s.withoutStatus
  tnState : s'.tnState = s.tnState
  pnState : s'.pnState = s.pnState
  theory : ∀ r th, s.theoryTable r = some th → s'.thStatus th = s.thStatus th
  file : ∀ fid f, s.findFile fid = some f → s'.fileStatus f = s.fileStatus f
  fileUnset : ∀ fid, s.nextFileID ≤ fid → s.fileState fid = none → s'.fileState fid = none

theorem SameStatus.refl (s : Session Task) : SameStatus s s :=
  ⟨rfl, rfl, rfl, fun _ _ _ => rfl, fun _ _ _ => rfl, fun _ _ h => h⟩

theorem SameStatus.trans {s'' : Session Task} (h : SameStatus s s') (h' : SameStatus s' s'') :
    SameStatus s s'' where
  nodes := h'.nodes.trans h.nodes
  tnState := h'.tnState.trans h.tnState
  pnState := h'.pnState.trans h.pnState
  theory r th hr := by
    rw [h'.theory r th (theoryTable_eq h.nodes ▸ hr), h.theory r th hr]
  file fid f hf := by
    rw [h'.file fid f (findFile_eq h.nodes ▸ hf), h.file fid f hf]
  fileUnset fid hle hnone := by
    refine h'.fileUnset fid ?_ (h.fileUnset fid hle hnone)
    rwa [show s'.nextFileID = s.nextFileID from nextFileID_eq h.nodes]

theorem Proper.sameStatus (h : Proper Y s) (hs : SameStatus s s') : Proper Y s' := by
  have hgoals := proofNodeTable_eq hs.nodes
  have htransfs := transTable_eq hs.nodes
  have hattempts := proofAttemptTable_eq hs.nodes
  have htheories := theoryTable_eq hs.nodes
  have hfiles := findFile_eq hs.nodes
  have hdet : ∀ g, s'.goalIsDetached g = s.goalIsDetached g := by
    intro g
    rw [Session.goalIsDetached, rawTasks_eq hs.nodes, Session.goalIsDetached]
  have hpn : ∀ g, s'.pnProved g = s.pnProved g := by
    intro g
    rw [Session.pnProved, hs.pnState, Session.pnProved]
  have htn : ∀ t, s'.tnProved t = s.tnProved t := by
    intro t
    rw [Session.tnProved, hs.tnState, Session.tnProved]
  constructor
  case right =>
    intro n hn
    have hright := h.right hn
    cases n with
    | pn g =>
      simp only [Session.Right, hgoals, hdet, hpn, Session.GoalProved, htransfs, hattempts, htn]
      exact hright
    | tn t =>
      simp only [Session.Right, htransfs, htn, Session.GoalsProved, hdet, hpn]
      exact hright
    | th r =>
      intro th hr hd
      rw [htheories] at hr
      simp only [hs.theory r th hr, Session.GoalsProved, hdet, hpn]
      exact hright th hr hd
    | file fid =>
      intro f hf hd
      rw [hfiles] at hf
      rw [hs.file fid f hf, hright f hf hd]
      unfold Session.TheoriesProved
      rw [htheories]
      refine forall₂_congr fun r _ => forall₂_congr fun th hr => ?_
      rw [hs.theory r th hr]
    | pa a => trivial
  case names =>
    intro r r' th th' hr hr'
    rw [htheories] at hr hr'
    exact h.names hr hr'
  case goalUnset =>
    intro g hg
    rw [hs.pnState]
    exact h.goalUnset (by rwa [nextProofNodeID_eq hs.nodes] at hg)
  case fileUnset =>
    intro fid hfid
    rw [nextFileID_eq hs.nodes] at hfid
    exact hs.fileUnset fid hfid (h.fileUnset hfid)

theorem thProved_fst (s : Session Task) (th : Theory) : (s.thProved th).1 = s.thStatus th := by
  unfold Session.thProved Session.thStatus
  cases s.thState th.theoryName <;> rfl

theorem fileProved_fst (s : Session Task) (f : File) : (s.fileProved f).1 = s.fileStatus f := by
  unfold Session.fileProved Session.fileStatus
  cases s.fileState f.fileId <;> rfl

variable {r : ℕ}

theorem thProved_sameStatus (h : Proper Y s) {th : Theory} (hr : s.theoryTable r = some th) :
    SameStatus s (s.thProved th).2 := by
  refine ⟨thProved_withoutStatus s th, ?_, ?_, ?_, ?_, ?_⟩
  case refine_3 =>
    intro r' th' hr'
    unfold Session.thProved
    cases hst : s.thState th.theoryName with
    | some b => rfl
    | none =>
      show ((update s.thState th.theoryName _) th'.theoryName).getD _ = _
      rw [update_apply]
      split_ifs with heq
      · obtain rfl := h.names hr' hr heq
        obtain rfl := Option.some.inj (hr.symm.trans hr')
        rw [Session.thStatus, hst]
        rfl
      · rfl
  all_goals
    unfold Session.thProved
    cases s.thState th.theoryName
  all_goals first | rfl | exact fun _ _ _ => rfl | exact fun _ _ h => h

variable {fid : ℕ}

theorem fileProved_sameStatus (h : Forest par U s) {f : File} (hf : s.findFile fid = some f) :
    SameStatus s (s.fileProved f).2 := by
  refine ⟨fileProved_withoutStatus s f, ?_, ?_, ?_, ?_, ?_⟩
  case refine_4 =>
    intro fid' f' hf'
    unfold Session.fileProved
    cases hst : s.fileState f.fileId with
    | some b => rfl
    | none =>
      show ((update s.fileState f.fileId _) f'.fileId).getD _ = _
      rw [update_apply]
      split_ifs with heq
      · rw [h.fileId hf', h.fileId hf] at heq
        subst heq
        obtain rfl := Option.some.inj (hf.symm.trans hf')
        rw [Session.fileStatus, hst]
        rfl
      · rfl
  case refine_5 =>
    intro fid' hle hnone
    unfold Session.fileProved
    cases hst : s.fileState f.fileId with
    | some b => exact hnone
    | none =>
      show update s.fileState f.fileId _ fid' = none
      rw [update_of_ne]
      · exact hnone
      · have hlt := h.file_lt hf
        rw [h.fileId hf]
        omega
  all_goals
    unfold Session.fileProved
    cases s.fileState f.fileId
  all_goals first | rfl | exact fun _ _ _ => rfl

variable {b : Bool}

theorem theoriesProved_spec (h : Proper Y s) {rs : List ℕ}
    (hrun : theoriesProved rs s = some (b, s')) :
    (b = true ↔ s.TheoriesProved rs) ∧ SameStatus s s' := by
  induction rs generalizing s with
  | nil =>
    cases hrun
    exact ⟨iff_of_true rfl (fun r hr => by cases hr), .refl _⟩
  | cons r rs ih =>
    unfold theoriesProved at hrun
    rw [Option.bind_eq_bind, Option.bind_eq_some_iff] at hrun
    obtain ⟨th, hr, hrun⟩ := hrun
    -- the test on the first theory
    have hcons : ∀ {s₁ : Session Task}, SameStatus s s₁ →
        (th.theoryIsDetached = false → s.thStatus th = true) →
        (s₁.TheoriesProved rs ↔ s.TheoriesProved (r :: rs)) := by
      intro s₁ hs₁ hth
      unfold Session.TheoriesProved
      rw [theoryTable_eq hs₁.nodes, forall_mem_cons]
      constructor
      · intro hrs
        refine ⟨fun th' hr' hd => ?_, fun r' hr' th' hth' hd => ?_⟩
        · obtain rfl := Option.some.inj (hr.symm.trans hr')
          exact hth hd
        · rw [← hs₁.theory r' th' hth']
          exact hrs r' hr' th' hth' hd
      · rintro ⟨-, hrs⟩ r' hr' th' hth' hd
        rw [hs₁.theory r' th' hth']
        exact hrs r' hr' th' hth' hd
    dsimp only at hrun
    split_ifs at hrun with hd hb
    · obtain ⟨hiff, hs'⟩ := ih h hrun
      exact ⟨hiff.trans (hcons (.refl _) fun hd' => by simp [hd] at hd'), hs'⟩
    · have hs₁ := thProved_sameStatus h hr
      obtain ⟨hiff, hs'⟩ := ih (h.sameStatus hs₁) hrun
      rw [thProved_fst] at hb
      exact ⟨hiff.trans (hcons hs₁ fun _ => hb), hs₁.trans hs'⟩
    · cases hrun
      rw [thProved_fst] at hb
      refine ⟨iff_of_false (by simp) fun hall => hb ?_, thProved_sameStatus h hr⟩
      exact hall r mem_cons_self th hr (by simpa using hd)

/-! ## One status that changes -/

theorem right_setFileState (h : Forest par U s) (hn : n ≠ .file fid) :
    (s.setFileState fid b).Right n ↔ s.Right n := by
  cases n with
  | pn g => rfl
  | tn t => rfl
  | th r => rfl
  | pa a => rfl
  | file fid' =>
    refine forall₂_congr fun f hf => ?_
    have hstatus : (s.setFileState fid b).fileStatus f = s.fileStatus f := by
      show (update s.fileState fid (some b) f.fileId).getD _ = _
      rw [update_of_ne]
      · rfl
      · rw [h.fileId hf]
        rintro rfl
        exact hn rfl
    rw [hstatus]
    rfl

theorem updateFileNode_proper (hF : Forest par U s) (h : Proper Y s) {f : File}
    (hf : s.findFile fid = some f) (hne : f.fileTheories ≠ [])
    (hrun : updateFileNode s f = some s') : Proper (Y \ {.file fid}) s' := by
  unfold updateFileNode at hrun
  rw [if_neg hne, Option.bind_eq_bind, Option.bind_eq_some_iff] at hrun
  obtain ⟨⟨proved, s₁⟩, h₁, hrun⟩ := hrun
  obtain ⟨hproved, hs₁⟩ := theoriesProved_spec h h₁
  have hF₁ := hF.congr hs₁.nodes
  have hf₁ : s₁.findFile fid = some f := by rwa [findFile_eq hs₁.nodes]
  have hs₂ := hs₁.trans (fileProved_sameStatus hF₁ hf₁)
  have hF₂ := hF.congr hs₂.nodes
  have hP₂ := h.sameStatus hs₂
  have hf₂ : (s₁.fileProved f).2.findFile fid = some f := by rwa [findFile_eq hs₂.nodes]
  -- reading statuses does not change the test
  have htheories : (s₁.fileProved f).2.TheoriesProved f.fileTheories ↔
      s.TheoriesProved f.fileTheories := by
    unfold Session.TheoriesProved
    rw [theoryTable_eq hs₂.nodes]
    refine forall₂_congr fun r _ => forall₂_congr fun th hr => ?_
    rw [hs₂.theory r th hr]
  have hstatus : (s₁.fileProved f).1 = (s₁.fileProved f).2.fileStatus f := by
    rw [fileProved_fst, hs₂.file fid f hf, hs₁.file fid f hf]
  dsimp only at hrun
  split_ifs at hrun with heq
  · cases hrun
    refine hP₂.settle ?_
    intro f' hf' _
    obtain rfl := Option.some.inj (hf₂.symm.trans hf')
    rw [← hstatus, ← heq, hproved, htheories]
  · cases hrun
    rw [hF.fileId hf]
    have hset : ∀ n ∉ Y \ {Any.file fid}, ((s₁.fileProved f).2.setFileState fid proved).Right n := by
      intro n hn
      by_cases hfile : n = .file fid
      · rw [hfile]
        intro f' hf' _
        obtain rfl := Option.some.inj (hf₂.symm.trans hf')
        have hnew : ((s₁.fileProved f).2.setFileState fid proved).fileStatus f = proved := by
          show (update (s₁.fileProved f).2.fileState fid (some proved) f.fileId).getD _ = _
          rw [hF.fileId hf, update_self]
          rfl
        rw [hnew, hproved, ← htheories]
        rfl
      · rw [right_setFileState hF₂ hfile]
        exact hP₂.right fun hY => hn ⟨hY, hfile⟩
    refine ⟨fun hn => hset _ hn, hP₂.names, hP₂.goalUnset, ?_⟩
    intro fid' hle
    show update (s₁.fileProved f).2.fileState fid _ fid' = none
    have hlt := hF₂.file_lt hf₂
    have hle' : (s₁.fileProved f).2.nextFileID ≤ fid' := hle
    rw [update_of_ne (by omega)]
    exact hP₂.fileUnset hle

theorem right_setThState (h : Proper Y s) {th : Theory} (hr : s.theoryTable r = some th)
    (hn : n ≠ .th r)
    (hfile : ∀ fid f, n = .file fid → s.findFile fid = some f → r ∉ f.fileTheories) :
    (s.setThState th.theoryName b).Right n ↔ s.Right n := by
  have hstatus : ∀ {r' th'}, r' ≠ r → s.theoryTable r' = some th' →
      (s.setThState th.theoryName b).thStatus th' = s.thStatus th' := by
    intro r' th' hne hr'
    show (update s.thState th.theoryName (some b) th'.theoryName).getD _ = _
    rw [update_of_ne]
    · rfl
    · exact fun heq => hne (h.names hr' hr heq)
  cases n with
  | pn g => rfl
  | tn t => rfl
  | pa a => rfl
  | th r' =>
    refine forall₂_congr fun th' hr' => ?_
    rw [hstatus (fun heq => hn (heq ▸ rfl)) hr']
    rfl
  | file fid =>
    refine forall₂_congr fun f hf => imp_congr_right fun _ => Iff.rfl.trans ?_
    refine iff_congr .rfl (forall₂_congr fun r' hr' => forall₂_congr fun th' hth' => ?_)
    rw [hstatus _ hth']
    rintro rfl
    exact hfile fid f rfl hf hr'

theorem updateTheoryNode_proper (hF : Forest par U s) (h : Proper Y s)
    (hrun : updateTheoryNode s r = some s') : Proper (Y \ {.th r}) s' := by
  unfold updateTheoryNode at hrun
  rw [Option.bind_eq_bind, Option.bind_eq_some_iff] at hrun
  obtain ⟨th, hr, hrun⟩ := hrun
  have hs₁ := thProved_sameStatus h hr
  have hP₁ := h.sameStatus hs₁
  have hF₁ := hF.congr hs₁.nodes
  have hr₁ : (s.thProved th).2.theoryTable r = some th := by rwa [theoryTable_eq hs₁.nodes]
  generalize hproved : (th.theoryGoals.all fun pn => s.goalIsDetached pn || s.pnProved pn) = proved
    at hrun
  have hiff : proved = true ↔ s.GoalsProved th.theoryGoals := by
    rw [← hproved, all_eq_true]
    refine forall₂_congr fun g _ => ?_
    cases s.goalIsDetached g <;> simp
  have hgoals : (s.thProved th).2.GoalsProved th.theoryGoals ↔ s.GoalsProved th.theoryGoals := by
    unfold Session.GoalsProved Session.goalIsDetached Session.pnProved
    rw [rawTasks_eq hs₁.nodes, hs₁.pnState]
  dsimp only at hrun
  split_ifs at hrun with heq
  · cases hrun
    refine hP₁.settle ?_
    intro th' hr' _
    obtain rfl := Option.some.inj (hr₁.symm.trans hr')
    rw [hgoals, ← hiff, heq, thProved_fst, hs₁.theory r th hr]
  · rw [Option.bind_eq_bind, Option.bind_eq_some_iff] at hrun
    obtain ⟨f, hf, hrun⟩ := hrun
    -- the status of the theory is right now, and that of its file may be wrong
    have hP₂ : ∀ Y', (Y \ {.th r} ⊆ Y') → (r ∈ f.fileTheories → Any.file th.theoryParentName ∈ Y') →
        Proper Y' ((s.thProved th).2.setThState th.theoryName proved) := by
      intro Y' hY hY'
      refine ⟨fun {n} hn => ?_, hP₁.names, hP₁.goalUnset, hP₁.fileUnset⟩
      by_cases hnr : n = .th r
      · rw [hnr]
        intro th' hr' _
        obtain rfl := Option.some.inj (hr₁.symm.trans hr')
        have hnew : ((s.thProved th).2.setThState th.theoryName proved).thStatus th = proved := by
          show (update (s.thProved th).2.thState th.theoryName (some proved)
            th.theoryName).getD _ = _
          rw [update_self]
          rfl
        rw [hnew, hiff, ← hgoals]
        rfl
      · rw [right_setThState hP₁ hr₁ hnr]
        · exact hP₁.right fun hmem => hn (hY ⟨hmem, hnr⟩)
        · rintro fid f' rfl hf' hmem
          have hpar := hF₁.theories.down (mem_rows.2 ⟨f', hf', hmem⟩)
          rw [Session.theoryParent, hr₁, Option.map_some, Option.some.injEq] at hpar
          rw [hpar] at hf hY'
          obtain rfl := Option.some.inj (hf.symm.trans hf')
          exact hn (hY' hmem)
    have hF₂ : Forest par U ((s.thProved th).2.setThState th.theoryName proved) := hF₁.congr rfl
    by_cases hnil : f.fileTheories = []
    · unfold updateFileNode at hrun
      rw [if_pos hnil] at hrun
      cases hrun
      exact hP₂ _ subset_rfl fun hmem => by simp [hnil] at hmem
    · have hP₃ := updateFileNode_proper hF₂ (hP₂ (insert (.file th.theoryParentName) (Y \ {.th r}))
        (Set.subset_insert _ _) fun _ => Set.mem_insert _ _) hf hnil hrun
      refine hP₃.mono ?_
      rintro n ⟨rfl | hn, hne⟩
      · exact absurd rfl hne
      · exact hn

/-- The node of a parent. -/
def ProofParent.any : ProofParent → Any
  | .trans t => .tn t
  | .theory r => .th r

theorem goalStatus_spec (hF : Forest par U s) {g : ℕ} {pn : ProofNode}
    (hg : s.proofNodeTable g = some pn) (h : goalStatus s g = some b)
    (hd : s.goalIsDetached g = false) : b = true ↔ s.GoalProved pn := by
  unfold goalStatus at h
  simp only [hg, Option.bind_eq_bind, Option.bind_some, Option.bind_eq_some_iff] at h
  obtain ⟨pas, hpas, tns, htns, h⟩ := h
  rw [← Option.some.inj h, Bool.or_eq_true, any_eq_true, any_eq_true]
  unfold Session.GoalProved
  refine or_congr ?_ ?_
  · constructor
    · rintro ⟨⟨t, tn⟩, hmem, hp⟩
      obtain ⟨t', ht', heq⟩ := (mem_of_mapM htns).1 hmem
      obtain ⟨tn', htn', heq⟩ := Option.map_eq_some_iff.1 heq
      cases heq
      simp only [Bool.and_eq_true, Bool.not_eq_true'] at hp
      exact ⟨t, ht', tn, htn', hp⟩
    · rintro ⟨t, ht, tn, htn, hdet, hp⟩
      refine ⟨(t, tn), (mem_of_mapM htns).2 ⟨t, ht, by rw [htn]; rfl⟩, ?_⟩
      simp [hdet, hp]
  · constructor
    · rintro ⟨pa, hmem, hp⟩
      obtain ⟨a, ha, hpa⟩ := (mem_of_mapM hpas).1 hmem
      rw [Bool.and_eq_true] at hp
      exact ⟨a, ha, pa, hpa, hp.2⟩
    · rintro ⟨a, ha, pa, hpa, hp⟩
      have hpar := hF.attempts.down (mem_rows.2 ⟨pn, hg, mem_map_of_mem ha⟩)
      rw [Session.attemptParent, hpa, Option.map_some, Option.some.injEq] at hpar
      refine ⟨pa, (mem_of_mapM hpas).2 ⟨a, ha, hpa⟩, ?_⟩
      rw [hpar, hd, hp]
      rfl

theorem right_setPnState (hF : Forest par U s) {g : ℕ} {p : ProofParent} (hp : par g = some p)
    (hn : n ≠ .pn g) (hnp : n ≠ p.any) : (s.setPnState g b).Right n ↔ s.Right n := by
  have hstatus : ∀ g', g' ≠ g → (s.setPnState g b).pnProved g' = s.pnProved g' := by
    intro g' hne
    show (update s.pnState g (some b) g').getD _ = _
    rw [update_of_ne hne]
    rfl
  have hgoals : ∀ gs, g ∉ gs → ((s.setPnState g b).GoalsProved gs ↔ s.GoalsProved gs) := by
    intro gs hgs
    refine forall₂_congr fun g' hg' => imp_congr_right fun _ => ?_
    rw [hstatus g' (fun heq => hgs (heq ▸ hg'))]
  cases n with
  | file fid => rfl
  | pa a => rfl
  | pn g' =>
    refine forall₂_congr fun pn hpn => imp_congr_right fun _ => ?_
    rw [hstatus g' (fun heq => hn (heq ▸ rfl))]
    rfl
  | tn t =>
    refine forall₂_congr fun tn ht => imp_congr_right fun _ => iff_congr .rfl (hgoals _ ?_)
    intro hmem
    have hpar : par g = some (.trans t) := hF.goals.down (mem_rows.2 ⟨tn, ht, hmem⟩)
    obtain rfl := Option.some.inj (hp.symm.trans hpar)
    exact hnp rfl
  | th r =>
    refine forall₂_congr fun th hr => imp_congr_right fun _ => iff_congr .rfl (hgoals _ ?_)
    intro hmem
    have hpar : par g = some (.theory r) := hF.goals.down (mem_rows.2 ⟨th, hr, hmem⟩)
    obtain rfl := Option.some.inj (hp.symm.trans hpar)
    exact hnp rfl

theorem right_setTnState (hF : Forest par U s) {t : ℕ} {tn : TransformationNode}
    (ht : s.transTable t = some tn) (hn : n ≠ .tn t) (hnp : n ≠ .pn tn.transfParent) :
    (s.setTnState t b).Right n ↔ s.Right n := by
  have hstatus : ∀ t', t' ≠ t → (s.setTnState t b).tnProved t' = s.tnProved t' := by
    intro t' hne
    show (update s.tnState t (some b) t').getD _ = _
    rw [update_of_ne hne]
    rfl
  cases n with
  | file fid => rfl
  | pa a => rfl
  | th r => rfl
  | tn t' =>
    refine forall₂_congr fun tn' ht' => imp_congr_right fun _ => ?_
    rw [hstatus t' (fun heq => hn (heq ▸ rfl))]
    rfl
  | pn g =>
    refine forall₂_congr fun pn hpn => imp_congr_right fun _ => iff_congr .rfl ?_
    refine or_congr (exists_congr fun t' => and_congr_right fun ht' => ?_) .rfl
    rw [hstatus t']
    · rfl
    · rintro rfl
      have hpar := hF.transfs.down (mem_rows.2 ⟨pn, hpn, ht'⟩)
      rw [Session.transfParent, ht, Option.map_some, Option.some.injEq] at hpar
      exact hnp (hpar ▸ rfl)

/-- By induction on the fuel: an update takes its node out of the exempted ones, and that of
a transformation without subtasks the goal above it too. -/
theorem updateNode_proper (fuel : ℕ) (s : Session Task) (hF : Forest par U s) :
    (∀ Y g s', Proper Y s → updateGoalNode fuel s g = some s' → Proper (Y \ {.pn g}) s') ∧
      ∀ Y t tn s', Proper Y s → s.transTable t = some tn → updateTransNode fuel s t = some s' →
        Proper (Y \ {.tn t}) s' ∧
          (tn.transfSubtasks = [] → Proper ((Y \ {.tn t}) \ {.pn tn.transfParent}) s') := by
  induction fuel generalizing s with
  | zero =>
    constructor
    · intro Y g s' _ h
      cases h
    · intro Y t tn s' _ _ h
      cases h
  | succ fuel ih =>
    refine ⟨fun Y g s' hP h => ?_, fun Y t tn s' hP ht h => ?_⟩
    · unfold updateGoalNode at h
      simp only [Option.bind_eq_bind, Option.bind_eq_some_iff] at h
      obtain ⟨pn, hg, proved, hproved, h⟩ := h
      have hspec := goalStatus_spec hF hg hproved
      split_ifs at h with heq
      · cases h
        refine hP.settle ?_
        intro pn' hg' hd
        obtain rfl := Option.some.inj (hg.symm.trans hg')
        rw [← heq]
        exact hspec hd
      -- the status of the goal is right now, and that of its parent may be wrong
      have hP₁ : Proper (insert pn.proofnParent.any (Y \ {.pn g})) (s.setPnState g proved) := by
        refine ⟨fun {n} hn => ?_, hP.names, ?_, hP.fileUnset⟩
        · rw [Set.mem_insert_iff, not_or] at hn
          by_cases hng : n = .pn g
          · rw [hng]
            intro pn' hg' hd
            obtain rfl := Option.some.inj (hg.symm.trans hg')
            have hnew : (s.setPnState g proved).pnProved g = proved := by
              show (update s.pnState g (some proved) g).getD _ = _
              rw [update_self]
              rfl
            rw [hnew]
            exact hspec hd
          · rw [right_setPnState hF (hF.made hg) hng hn.1]
            exact hP.right fun hmem => hn.2 ⟨hmem, hng⟩
        · intro g' hle
          show update s.pnState g _ g' = none
          have hlt := hF.goal_lt (hF.made hg)
          have hle' : s.nextProofNodeID ≤ g' := hle
          rw [update_of_ne (by omega)]
          exact hP.goalUnset hle
      have hF₁ : Forest par U (s.setPnState g proved) := hF.congr rfl
      have hsub : ∀ n, insert n (Y \ {Any.pn g}) \ {n} ⊆ Y \ {.pn g} := by
        rintro n m ⟨rfl | hm, hne⟩
        · exact absurd rfl hne
        · exact hm
      cases hp : pn.proofnParent with
      | trans t =>
        rw [hp] at h hP₁
        have htab : ∃ tn, s.transTable t = some tn := by
          cases fuel with
          | zero => cases h
          | succ fuel =>
            obtain ⟨tn, _, ht, -⟩ := updateTransNode_cases h
            exact ⟨tn, ht⟩
        obtain ⟨tn, ht⟩ := htab
        exact ((ih _ hF₁).2 _ t tn s' hP₁ ht h).1.mono (hsub _)
      | theory r =>
        rw [hp] at h hP₁
        exact (updateTheoryNode_proper hF₁ hP₁ h).mono (hsub _)
    · obtain ⟨tn', s₁, ht', h₁, h⟩ := updateTransNode_cases h
      obtain rfl := Option.some.inj (ht.symm.trans ht')
      have hspec : transStatus s tn = true ↔ s.GoalsProved tn.transfSubtasks := by
        unfold transStatus
        rw [all_eq_true]
        refine forall₂_congr fun g _ => ?_
        cases s.goalIsDetached g <;> simp
      -- after the first of the two updates
      have hP₁ : Proper (Y \ {.tn t}) s₁ := by
        rcases h₁ with ⟨heq, rfl⟩ | ⟨-, h₁⟩
        · refine hP.settle ?_
          intro tn' ht' _
          obtain rfl := Option.some.inj (ht.symm.trans ht')
          rw [← heq]
          exact hspec
        have hP' : Proper (insert (.pn tn.transfParent) (Y \ {.tn t}))
            (s.setTnState t (transStatus s tn)) := by
          refine ⟨fun {n} hn => ?_, hP.names, hP.goalUnset, hP.fileUnset⟩
          rw [Set.mem_insert_iff, not_or] at hn
          by_cases hnt : n = .tn t
          · rw [hnt]
            intro tn' ht' _
            obtain rfl := Option.some.inj (ht.symm.trans ht')
            have hnew : (s.setTnState t (transStatus s tn)).tnProved t = transStatus s tn := by
              show (update s.tnState t (some _) t).getD _ = _
              rw [update_self]
              rfl
            rw [hnew]
            exact hspec
          · rw [right_setTnState hF ht hnt hn.1]
            exact hP.right fun hmem => hn.2 ⟨hmem, hnt⟩
        have hF' : Forest par U (s.setTnState t (transStatus s tn)) := hF.congr rfl
        refine ((ih _ hF').1 _ _ s₁ hP' h₁).mono ?_
        rintro m ⟨rfl | hm, hne⟩
        · exact absurd rfl hne
        · exact hm
      have hF₁ : Forest par U s₁ := by
        rcases h₁ with ⟨-, rfl⟩ | ⟨-, h₁⟩
        · exact hF
        · have hs₁ := updateGoalNode_withoutStatus h₁
          exact hF.congr hs₁
      rcases h with ⟨-, h⟩ | ⟨hne, rfl⟩
      · have hP₂ := (ih s₁ hF₁).1 _ _ s' hP₁ h
        exact ⟨hP₂.mono Set.sdiff_subset, fun _ => hP₂⟩
      · exact ⟨hP₁, fun hnil => absurd hnil hne⟩

theorem updateGoalNode_proper (hF : Forest par U s) (h : Proper Y s) {fuel g : ℕ}
    (hrun : updateGoalNode fuel s g = some s') : Proper (Y \ {.pn g}) s' :=
  (updateNode_proper fuel s hF).1 Y g s' h hrun

theorem updateTransNode_proper (hF : Forest par U s) (h : Proper Y s) {fuel t : ℕ}
    {tn : TransformationNode} (ht : s.transTable t = some tn)
    (hrun : updateTransNode fuel s t = some s') :
    Proper (Y \ {.tn t}) s' ∧
      (tn.transfSubtasks = [] → Proper ((Y \ {.tn t}) \ {.pn tn.transfParent}) s') :=
  (updateNode_proper fuel s hF).2 Y t tn s' h ht hrun

end Why3.Itp
