import Why3.Lib.Lookup
import Why3.Session.Walk

/-!
# Sessions without some of their nodes

`prune` takes a set of nodes out of the tables and out of the lists of their parents, and
leaves everything else.  To remove one node is to prune it, and the nodes that remain are
a forest when the set comes with everything below it.
-/

namespace Why3.Itp

open Parents Trees List Function

variable {Task : Type} {s : Session Task} {par : ℕ → Option ProofParent} {U R R' : Set Any}

open Classical in
noncomputable def stays (R : Set Any) (n : Any) : Bool := decide (n ∉ R)

variable {n : Any}

open Classical in
@[simp] theorem stays_iff : stays R n = true ↔ n ∉ R := decide_eq_true_iff

@[simp] theorem stays_eq_false : stays R n = false ↔ n ∈ R := by
  rw [← Bool.not_eq_true, stays_iff, not_not]

theorem stays_union (n : Any) : stays (R ∪ R') n = (stays R n && stays R' n) := by
  rw [Bool.eq_iff_iff, Bool.and_eq_true, stays_iff, stays_iff, stays_iff, Set.mem_union, not_or]

noncomputable def ProofNode.without (R : Set Any) (pn : ProofNode) : ProofNode :=
  { pn with
    proofnAttempts := pn.proofnAttempts.filter fun b => stays R (.pa b.2)
    proofnTransformations := pn.proofnTransformations.filter fun t => stays R (.tn t) }

noncomputable def TransformationNode.without (R : Set Any) (tn : TransformationNode) :
    TransformationNode :=
  { tn with transfSubtasks := tn.transfSubtasks.filter fun g => stays R (.pn g) }

noncomputable def Theory.without (R : Set Any) (th : Theory) : Theory :=
  { th with theoryGoals := th.theoryGoals.filter fun g => stays R (.pn g) }

noncomputable def File.without (R : Set Any) (f : File) : File :=
  { f with fileTheories := f.fileTheories.filter fun r => stays R (.th r) }

/-- The rows whose keys fail the test go away. -/
def cut {X : Type} (p : ℕ → Bool) (c : X → X) (t : ℕ → Option X) (k : ℕ) : Option X :=
  if p k then (t k).map c else none

noncomputable def Session.prune (s : Session Task) (R : Set Any) : Session Task :=
  { s with
    proofAttemptTable := cut (fun a => stays R (.pa a)) id s.proofAttemptTable
    proofNodeTable := cut (fun g => stays R (.pn g)) (ProofNode.without R) s.proofNodeTable
    transTable := cut (fun t => stays R (.tn t)) (TransformationNode.without R) s.transTable
    theoryTable := cut (fun r => stays R (.th r)) (Theory.without R) s.theoryTable
    sessionFiles := (s.sessionFiles.filter fun b => stays R (.file b.1)).map
      fun b => (b.1, b.2.without R) }

/-! ## Rows -/

section Cut

variable {X : Type} {p p' : ℕ → Bool} {c c' c'' : X → X} {t : ℕ → Option X} {k : ℕ} {x : X}

theorem cut_eq_some : cut p c t k = some x ↔ p k = true ∧ ∃ y, t k = some y ∧ c y = x := by
  unfold cut
  split_ifs with hk
  · rw [Option.map_eq_some_iff]
    exact ⟨fun h => ⟨hk, h⟩, And.right⟩
  · simp [hk]

theorem cut_isSome : (cut p c t k).isSome ↔ (t k).isSome ∧ p k = true := by
  unfold cut
  split_ifs with hk <;> simp [hk]

theorem cut_cut (hc : ∀ x, c' (c x) = c'' x) :
    cut p' c' (cut p c t) = cut (fun k => p k && p' k) c'' t := by
  funext k
  unfold cut
  have hcomp : (t k).map c'' = ((t k).map c).map c' := by
    rw [Option.map_map, show c' ∘ c = c'' from funext hc]
  cases hp : p k <;> cases hp' : p' k <;> simp [hp, hp', hcomp]

theorem cut_row (k : ℕ) (hp : ∀ k', p k' = true ↔ k' ≠ k)
    (hc : ∀ k' y, t k' = some y → c y = y) : cut p c t = update t k none := by
  funext k'
  rw [update_apply]
  unfold cut
  by_cases hk : k' = k
  · rw [if_pos hk, if_neg fun h => (hp k').1 h hk]
  · rw [if_neg hk, if_pos ((hp k').2 hk)]
    cases ht : t k' with
    | none => rfl
    | some y => rw [Option.map_some, hc k' y ht]

/-- One row changes. -/
theorem cut_update (hp : ∀ k', p k' = true) (hk : t k = some x)
    (hc : ∀ k' y, k' ≠ k → t k' = some y → c y = y) :
    cut p c t = update t k (some (c x)) := by
  funext k'
  rw [update_apply]
  unfold cut
  rw [if_pos (hp k')]
  split_ifs with heq
  · rw [heq, hk]
    rfl
  · cases ht : t k' with
    | none => rfl
    | some y => rw [Option.map_some, hc k' y heq ht]

theorem cut_same (hp : ∀ k', p k' = true) (hc : ∀ k' y, t k' = some y → c y = y) :
    cut p c t = t := by
  funext k'
  unfold cut
  rw [if_pos (hp k')]
  cases ht : t k' with
  | none => rfl
  | some y => rw [Option.map_some, hc k' y ht]

theorem rows_cut {f : X → List ℕ} {q : ℕ → Bool} (hf : ∀ x, f (c x) = (f x).filter q) :
    rows f (cut p c t) k = if p k then (rows f t k).filter q else [] := by
  unfold rows cut
  split_ifs with hk
  · cases t k with
    | none => rfl
    | some x => exact hf x
  · rfl

theorem map_cut {g : X → ℕ} (hg : ∀ x, g (c x) = g x) :
    (cut p c t k).map g = if p k then (t k).map g else none := by
  unfold cut
  split_ifs with hk
  · rw [Option.map_map, show g ∘ c = g from funext hg]
  · rfl

end Cut

theorem filter_stays {X : Type} (mk : X → Any) (l : List X) :
    (l.filter fun x => stays R (mk x)).filter (fun x => stays R' (mk x)) =
      l.filter fun x => stays (R ∪ R') (mk x) := by
  rw [filter_filter]
  refine filter_congr fun x _ => ?_
  rw [stays_union, Bool.and_comm]

theorem ProofNode.without_without (pn : ProofNode) :
    (pn.without R).without R' = pn.without (R ∪ R') := by
  simp only [ProofNode.without, filter_stays]

theorem TransformationNode.without_without (tn : TransformationNode) :
    (tn.without R).without R' = tn.without (R ∪ R') := by
  simp only [TransformationNode.without, filter_stays]

theorem Theory.without_without (th : Theory) :
    (th.without R).without R' = th.without (R ∪ R') := by
  simp only [Theory.without, filter_stays]

theorem File.without_without (f : File) : (f.without R).without R' = f.without (R ∪ R') := by
  simp only [File.without, filter_stays]

namespace Session

theorem prune_prune (s : Session Task) : (s.prune R).prune R' = s.prune (R ∪ R') := by
  have hattempts : ∀ (p p' : ℕ → Bool) (t : ℕ → Option ProofAttemptNode),
      cut p' id (cut p id t) = cut (fun k => p k && p' k) id t := fun _ _ _ => cut_cut fun _ => rfl
  simp only [prune, hattempts, cut_cut ProofNode.without_without,
    cut_cut TransformationNode.without_without, cut_cut Theory.without_without, List.filter_map,
    map_map, comp_def, filter_stays, File.without_without, stays_union]

theorem findFile_prune (s : Session Task) :
    (s.prune R).findFile = cut (fun fid => stays R (.file fid)) (File.without R) s.findFile := by
  funext fid
  exact Lookup.lookup_filter_map (fun fid => stays R (.file fid)) (File.without R)

theorem prune_attempt {a : ℕ} {pa : ProofAttemptNode} :
    (s.prune R).proofAttemptTable a = some pa ↔ .pa a ∉ R ∧ s.proofAttemptTable a = some pa := by
  rw [← stays_iff]
  refine (cut_eq_some (p := fun a => stays R (.pa a))).trans (and_congr_right' ?_)
  simp

theorem prune_goal {g : ℕ} {pn' : ProofNode} : (s.prune R).proofNodeTable g = some pn' ↔
    .pn g ∉ R ∧ ∃ pn, s.proofNodeTable g = some pn ∧ pn.without R = pn' := by
  rw [← stays_iff]
  exact cut_eq_some (p := fun g => stays R (.pn g))

theorem prune_transf {t : ℕ} {tn' : TransformationNode} : (s.prune R).transTable t = some tn' ↔
    .tn t ∉ R ∧ ∃ tn, s.transTable t = some tn ∧ tn.without R = tn' := by
  rw [← stays_iff]
  exact cut_eq_some (p := fun t => stays R (.tn t))

theorem prune_theory {r : ℕ} {th' : Theory} : (s.prune R).theoryTable r = some th' ↔
    .th r ∉ R ∧ ∃ th, s.theoryTable r = some th ∧ th.without R = th' := by
  rw [← stays_iff]
  exact cut_eq_some (p := fun r => stays R (.th r))

theorem prune_file {fid : ℕ} {f' : File} : (s.prune R).findFile fid = some f' ↔
    .file fid ∉ R ∧ ∃ f, s.findFile fid = some f ∧ f.without R = f' := by
  rw [findFile_prune, ← stays_iff]
  exact cut_eq_some (p := fun fid => stays R (.file fid))

theorem has_prune : (s.prune R).Has n ↔ s.Has n ∧ n ∉ R := by
  rw [← stays_iff]
  cases n with
  | file fid =>
    show ((s.prune R).findFile fid).isSome ↔ _
    rw [findFile_prune]
    exact cut_isSome
  | th r => exact cut_isSome (p := fun r => stays R (.th r))
  | tn t => exact cut_isSome (p := fun t => stays R (.tn t))
  | pn g => exact cut_isSome (p := fun g => stays R (.pn g))
  | pa a => exact cut_isSome (p := fun a => stays R (.pa a))

theorem attemptKids_prune (s : Session Task) (g : ℕ) :
    (s.prune R).attemptKids g =
      if stays R (.pn g) then (s.attemptKids g).filter fun a => stays R (.pa a) else [] :=
  rows_cut fun pn => by
    rw [List.filter_map]
    rfl

theorem transfKids_prune (s : Session Task) (g : ℕ) :
    (s.prune R).transfKids g =
      if stays R (.pn g) then (s.transfKids g).filter fun t => stays R (.tn t) else [] :=
  rows_cut fun _ => rfl

theorem goalKids_prune (s : Session Task) (p : ProofParent) :
    (s.prune R).goalKids p =
      if stays R p.any then (s.goalKids p).filter fun g => stays R (.pn g) else [] := by
  cases p with
  | trans t =>
    exact rows_cut (f := TransformationNode.transfSubtasks) (p := fun t => stays R (.tn t))
      fun _ => rfl
  | theory r =>
    exact rows_cut (f := Theory.theoryGoals) (p := fun r => stays R (.th r)) fun _ => rfl

theorem theoryKids_prune (s : Session Task) (fid : ℕ) :
    (s.prune R).theoryKids fid =
      if stays R (.file fid) then (s.theoryKids fid).filter fun r => stays R (.th r) else [] := by
  rw [theoryKids, findFile_prune]
  exact rows_cut fun _ => rfl

theorem attemptParent_prune (s : Session Task) (a : ℕ) :
    (s.prune R).attemptParent a = if stays R (.pa a) then s.attemptParent a else none :=
  map_cut (p := fun a => stays R (.pa a)) fun _ => rfl

theorem transfParent_prune (s : Session Task) (t : ℕ) :
    (s.prune R).transfParent t = if stays R (.tn t) then s.transfParent t else none :=
  map_cut (p := fun t => stays R (.tn t)) fun _ => rfl

theorem theoryParent_prune (s : Session Task) (r : ℕ) :
    (s.prune R).theoryParent r = if stays R (.th r) then s.theoryParent r else none :=
  map_cut (p := fun r => stays R (.th r)) fun _ => rfl

theorem kids_prune (hn : n ∉ R) :
    (s.prune R).kids n = (s.kids n).filter (stays R) := by
  rw [← stays_iff] at hn
  have hmap : ∀ (mk : ℕ → Any) (l : List ℕ), (l.filter fun k => stays R (mk k)).map mk =
      (l.map mk).filter (stays R) := by
    intro mk l
    rw [List.filter_map]
    rfl
  cases n with
  | file fid => rw [kids, theoryKids_prune, if_pos hn, hmap, kids]
  | th r | tn t =>
    rw [kids, goalKids_prune, ProofParent.any, if_pos hn, hmap, kids]
  | pn g =>
    rw [kids, transfKids_prune, attemptKids_prune, if_pos hn, if_pos hn, kids,
      filter_append, hmap, hmap]
  | pa a => rfl

end Session

/-! ## The nodes that remain -/

/-- The parents of the goals that remain. -/
noncomputable def parPrune (par : ℕ → Option ProofParent) (R : Set Any) (g : ℕ) :
    Option ProofParent :=
  if stays R (.pn g) then par g else none

theorem Forest.prune (hF : Forest par U s) (hR : Closed s.kids R) :
    Forest (parPrune par R) U (s.prune R) where
  attempts := by
    refine (hF.attempts.restrict fun g hg a ha => ?_).congr (funext s.attemptKids_prune)
      (funext s.attemptParent_prune)
    rw [stays_eq_false] at hg ⊢
    exact hR _ hg _ (mem_append_right _ (mem_map_of_mem ha))
  transfs := by
    refine (hF.transfs.restrict fun g hg t ht => ?_).congr (funext s.transfKids_prune)
      (funext s.transfParent_prune)
    rw [stays_eq_false] at hg ⊢
    exact hR _ hg _ (mem_append_left _ (mem_map_of_mem ht))
  goals := by
    refine (hF.goals.restrict fun p hp g hg => ?_).congr (funext s.goalKids_prune) rfl
    rw [stays_eq_false] at hp ⊢
    cases p with
    | trans t | theory r => exact hR _ hp _ (mem_map_of_mem hg)
  theories := by
    refine (hF.theories.restrict fun fid hfid r hr => ?_).congr (funext s.theoryKids_prune)
      (funext s.theoryParent_prune)
    rw [stays_eq_false] at hfid ⊢
    exact hR _ hfid _ (mem_map_of_mem hr)
  made {g pn} hg := by
    obtain ⟨hstay, pn, hpn, rfl⟩ := Session.prune_goal.1 hg
    have hmade := hF.made hpn
    exact (if_pos (stays_iff.2 hstay)).trans hmade
  provers {g pn} hg := by
    obtain ⟨-, pn, hpn, rfl⟩ := Session.prune_goal.1 hg
    exact (hF.provers hpn).sublist (filter_sublist.map _)
  prover {g pn p a pa} hg hmem ha := by
    obtain ⟨-, pn, hpn, rfl⟩ := Session.prune_goal.1 hg
    obtain ⟨-, ha⟩ := Session.prune_attempt.1 ha
    exact hF.prover hpn (mem_filter.1 hmem).1 ha
  lower {g t tn} ht hg := by
    obtain ⟨-, tn, htn, rfl⟩ := Session.prune_transf.1 ht
    unfold parPrune at hg
    split_ifs at hg
    have hlow := hF.lower htn hg
    exact hlow
  untasked {g} hg hmade := by
    have hrow : stays R (.pn g) = true → s.proofNodeTable g = none := by
      intro hstay
      have hcut : (if stays R (.pn g) then _ else none) = none := hg
      rwa [if_pos hstay, Option.map_eq_none_iff] at hcut
    unfold parPrune at hmade
    by_cases hstay : stays R (.pn g) = true
    · rw [if_pos hstay] at hmade
      exact hF.untasked (hrow hstay) hmade
    · rw [if_neg hstay] at hmade
      have hle : s.nextProofNodeID ≤ g := hmade.resolve_left Bool.false_ne_true
      refine hF.untasked ?_ (.inr hle)
      by_contra hne
      obtain ⟨pn, hpn⟩ := Option.ne_none_iff_exists'.1 hne
      exact absurd (hF.goal_lt (hF.made hpn)) (not_lt.2 hle)
  fileKeys := by
    show (List.map Prod.fst (List.map _ _)).Nodup
    rw [map_map]
    exact hF.fileKeys.sublist (filter_sublist.map _)
  fileId {fid f} hf := by
    obtain ⟨-, f, hrow, rfl⟩ := Session.prune_file.1 hf
    have hid := hF.fileId hrow
    exact hid
  goal_lt {g p} hg := by
    unfold parPrune at hg
    split_ifs at hg
    exact hF.goal_lt hg
  attempt_lt {a pa} ha := by
    obtain ⟨-, ha⟩ := Session.prune_attempt.1 ha
    exact hF.attempt_lt ha
  transf_lt {t tn} ht := by
    obtain ⟨-, tn, htn, rfl⟩ := Session.prune_transf.1 ht
    exact hF.transf_lt htn
  theory_lt {r th} hr := by
    obtain ⟨-, th, hth, rfl⟩ := Session.prune_theory.1 hr
    exact hF.theory_lt hth
  file_lt {fid f} hf := by
    obtain ⟨-, f, hrow, rfl⟩ := Session.prune_file.1 hf
    exact hF.file_lt hrow

theorem Complete.prune (hC : Complete par s) : Complete (parPrune par R) (s.prune R) := by
  intro g hg
  unfold parPrune at hg
  split_ifs at hg with hstay
  · exact (Session.has_prune (n := .pn g)).2 ⟨hC g hg, stays_iff.1 hstay⟩
  · cases hg

theorem HasFiles.prune (h : HasFiles s) (hF : Forest par ∅ s) (hR : Closed s.kids R) :
    HasFiles (s.prune R) := by
  intro r th hr
  obtain ⟨hstay, th, hth, rfl⟩ := Session.prune_theory.1 hr
  refine (Session.has_prune (n := .file th.theoryParentName)).2 ⟨h r th hth, fun hfile => ?_⟩
  refine hstay (hR _ hfile _ (hF.mem_of_above ?_))
  rw [Session.above, Session.theoryParent, hth]
  rfl

/-! ## One node goes away -/

theorem stays_singleton {x : Any} : stays {x} n = true ↔ n ≠ x := by
  rw [stays_iff, Set.mem_singleton_iff]

theorem ProofNode.without_eq {pn : ProofNode} (ha : ∀ b ∈ pn.proofnAttempts, .pa b.2 ∉ R)
    (ht : ∀ t ∈ pn.proofnTransformations, .tn t ∉ R) : pn.without R = pn := by
  unfold without
  rw [filter_eq_self.2 fun b hb => stays_iff.2 (ha b hb),
    filter_eq_self.2 fun t h => stays_iff.2 (ht t h)]

theorem TransformationNode.without_eq {tn : TransformationNode}
    (hg : ∀ g ∈ tn.transfSubtasks, .pn g ∉ R) : tn.without R = tn := by
  unfold without
  rw [filter_eq_self.2 fun g h => stays_iff.2 (hg g h)]

theorem Theory.without_eq {th : Theory} (hg : ∀ g ∈ th.theoryGoals, .pn g ∉ R) :
    th.without R = th := by
  unfold without
  rw [filter_eq_self.2 fun g h => stays_iff.2 (hg g h)]

theorem File.without_eq {f : File} (hr : ∀ r ∈ f.fileTheories, .th r ∉ R) : f.without R = f := by
  unfold without
  rw [filter_eq_self.2 fun r h => stays_iff.2 (hr r h)]

namespace Session

theorem prune_files_eq (h : ∀ b ∈ s.sessionFiles, .file b.1 ∉ R)
    (hr : ∀ b ∈ s.sessionFiles, ∀ r ∈ b.2.fileTheories, .th r ∉ R) :
    (s.prune R).sessionFiles = s.sessionFiles := by
  show List.map _ (s.sessionFiles.filter fun b => stays R (.file b.1)) = _
  rw [filter_eq_self.2 fun b hb => stays_iff.2 (h b hb)]
  refine (map_congr_left fun b hb => ?_).trans (map_id _)
  rw [File.without_eq (hr b hb)]
  rfl

theorem eq_prune {s' : Session Task}
    (hrest : s' =
      { s with
        proofAttemptTable := s'.proofAttemptTable
        proofNodeTable := s'.proofNodeTable
        transTable := s'.transTable
        theoryTable := s'.theoryTable
        sessionFiles := s'.sessionFiles })
    (ha : (s.prune R).proofAttemptTable = s'.proofAttemptTable)
    (hg : (s.prune R).proofNodeTable = s'.proofNodeTable)
    (ht : (s.prune R).transTable = s'.transTable) (hr : (s.prune R).theoryTable = s'.theoryTable)
    (hf : (s.prune R).sessionFiles = s'.sessionFiles) : s' = s.prune R := by
  rw [hrest, ← ha, ← hg, ← ht, ← hr, ← hf]
  rfl

end Session

section Remove

variable (hF : Forest par ∅ s)

include hF

theorem removeTransformation_eq {t : ℕ} (ht : s.Has (.tn t)) :
    removeTransformation s t = some (s.prune {.tn t}) := by
  obtain ⟨nt, ht⟩ := Option.isSome_iff_exists.1 ht
  have hpar : s.transfParent t = some nt.transfParent := by
    rw [Session.transfParent, ht]
    rfl
  obtain ⟨pn, hpn, -⟩ := mem_rows.1 (hF.transfs.up hpar (Set.notMem_empty _))
  unfold removeTransformation
  simp only [ht, Option.bind_eq_bind, Option.bind_some]
  show (s.proofNodeTable nt.transfParent).bind _ = _
  rw [hpn, Option.bind_some]
  have hgoal : pn.without {.tn t} =
      { pn with proofnTransformations := pn.proofnTransformations.filter (· ≠ t) } := by
    unfold ProofNode.without
    rw [filter_eq_self.2 fun b _ => stays_singleton.2 (by simp)]
    congr 1
    refine filter_congr fun t' _ => ?_
    rw [Bool.eq_iff_iff, stays_singleton]
    simp
  refine congrArg some (Session.eq_prune rfl ?_ ?_ ?_ ?_ ?_)
  · exact cut_same (fun a => stays_singleton.2 (by simp)) fun _ _ _ => rfl
  · refine (cut_update (fun g => stays_singleton.2 (by simp)) hpn fun g pn' hne hg => ?_).trans ?_
    · refine ProofNode.without_eq (by simp) fun t' ht' heq => hne ?_
      obtain rfl := Any.tn.inj heq
      have hpar' := hF.transfs.down (mem_rows.2 ⟨pn', hg, ht'⟩)
      exact Option.some.inj (hpar'.symm.trans hpar)
    · rw [hgoal]
      rfl
  · refine cut_row t (fun t' => ?_) fun t' tn _ => TransformationNode.without_eq (by simp)
    rw [stays_singleton, ne_eq, Any.tn.injEq]
  · exact cut_same (fun r => stays_singleton.2 (by simp)) fun _ _ _ =>
      Theory.without_eq (by simp)
  · exact Session.prune_files_eq (by simp) (by simp)

omit hF in
/-- Where keys and values are unique. -/
theorem hashtblRemove_eq {l : List (Prover × ℕ)} (hkeys : (l.map Prod.fst).Nodup)
    (hvals : (l.map Prod.snd).Nodup) {p : Prover} {a : ℕ} (h : (p, a) ∈ l) :
    Pairing.hashtblRemove p l = l.filter fun b => stays {.pa a} (.pa b.2) := by
  induction l with
  | nil => cases h
  | cons b l ih =>
    rw [map_cons, nodup_cons] at hkeys hvals
    unfold Pairing.hashtblRemove
    rcases mem_cons.1 h with rfl | h
    · have hself : ¬ stays {.pa a} (.pa (p, a).2) = true := by
        rw [stays_singleton]
        simp
      rw [if_pos rfl, filter_cons, if_neg hself, filter_eq_self.2]
      intro b hb
      rw [stays_singleton]
      rintro heq
      exact hvals.1 (mem_map.2 ⟨b, hb, Any.pa.inj heq⟩)
    · have hne : b.1 ≠ p := by
        rintro rfl
        exact hkeys.1 (mem_map.2 ⟨_, h, rfl⟩)
      have hstay : stays {.pa a} (.pa b.2) = true := by
        rw [stays_singleton]
        rintro heq
        exact hvals.1 (mem_map.2 ⟨_, h, (Any.pa.inj heq).symm⟩)
      rw [if_neg hne, filter_cons, if_pos hstay, ih hkeys.2 hvals.2 h]

theorem removeProofAttemptPa_eq {a : ℕ} (ha : s.Has (.pa a)) :
    removeProofAttemptPa s a = some (s.prune {.pa a}) := by
  obtain ⟨pa, ha⟩ := Option.isSome_iff_exists.1 ha
  have hpar : s.attemptParent a = some pa.parent := by
    rw [Session.attemptParent, ha]
    rfl
  have hmem := hF.attempts.up hpar (Set.notMem_empty _)
  obtain ⟨pn, hpn, hmem⟩ := mem_rows.1 hmem
  obtain ⟨b, hb, rfl⟩ := mem_map.1 hmem
  have hprover : (pa.prover, b.2) ∈ pn.proofnAttempts := by
    rw [hF.prover hpn hb ha]
    exact hb
  have hvals : (pn.proofnAttempts.map Prod.snd).Nodup := by
    rw [← Session.attemptKids_of_some hpn]
    exact hF.attempts.nodup _
  have hgoal : pn.without {.pa b.2} =
      { pn with proofnAttempts := Pairing.hashtblRemove pa.prover pn.proofnAttempts } := by
    rw [hashtblRemove_eq (hF.provers hpn) hvals hprover]
    unfold ProofNode.without
    rw [filter_eq_self (l := pn.proofnTransformations).2 fun t _ =>
      stays_singleton.2 (by simp)]
  unfold removeProofAttemptPa
  simp only [ha, hpn, Lookup.lookup_of_mem (hF.provers hpn) hprover, Option.bind_eq_bind,
    Option.bind_some]
  refine congrArg some (Session.eq_prune rfl ?_ ?_ ?_ ?_ ?_)
  · refine cut_row b.2 (fun a => ?_) fun _ _ _ => rfl
    rw [stays_singleton, ne_eq, Any.pa.injEq]
  · refine (cut_update (fun g => stays_singleton.2 (by simp)) hpn fun g pn' hne hg => ?_).trans ?_
    · refine ProofNode.without_eq (fun b' hb' heq => hne ?_) (by simp)
      have hpar' := hF.attempts.down (mem_rows.2 ⟨pn', hg, mem_map_of_mem hb'⟩)
      rw [Any.pa.inj heq] at hpar'
      exact Option.some.inj (hpar'.symm.trans hpar)
    · rw [hgoal]
      rfl
  · exact cut_same (fun t => stays_singleton.2 (by simp)) fun _ _ _ =>
      TransformationNode.without_eq (by simp)
  · exact cut_same (fun r => stays_singleton.2 (by simp)) fun _ _ _ =>
      Theory.without_eq (by simp)
  · exact Session.prune_files_eq (by simp) (by simp)

theorem removeProofNode_eq {g : ℕ} (hg : s.Has (.pn g)) :
    removeProofNode s g = some (s.prune {.pn g}) := by
  obtain ⟨pn, hpn⟩ := Option.isSome_iff_exists.1 hg
  have hmem := hF.goals.up (hF.made hpn) (Set.notMem_empty _)
  have hparent : ∀ {p gs}, s.goalKids p = gs → g ∈ gs → pn.proofnParent = p := by
    rintro p gs rfl hmem
    exact Option.some.inj ((hF.made hpn).symm.trans (hF.goals.down hmem))
  have hgoals : cut (fun g' => stays {.pn g} (.pn g')) (ProofNode.without {.pn g}) s.proofNodeTable =
      update s.proofNodeTable g none := by
    refine cut_row g (fun g' => ?_) fun _ _ _ => ProofNode.without_eq (by simp) (by simp)
    rw [stays_singleton, ne_eq, Any.pn.injEq]
  have hfilter : ∀ gs : List ℕ, gs.filter (fun g' => stays {.pn g} (.pn g')) = gs.filter (· ≠ g) := by
    intro gs
    refine filter_congr fun g' _ => ?_
    rw [Bool.eq_iff_iff, stays_singleton]
    simp
  unfold removeProofNode
  simp only [hpn, Option.bind_eq_bind, Option.bind_some]
  cases hp : pn.proofnParent with
  | theory r =>
    rw [hp] at hmem
    obtain ⟨th, hr, -⟩ := mem_rows.1 hmem
    show (s.theoryTable r).bind _ = _
    rw [hr, Option.bind_some]
    refine congrArg some (Session.eq_prune rfl ?_ hgoals ?_ ?_ ?_)
    · exact cut_same (fun a => stays_singleton.2 (by simp)) fun _ _ _ => rfl
    · refine cut_same (fun t => stays_singleton.2 (by simp)) fun t tn ht => ?_
      refine TransformationNode.without_eq fun g' hg' heq => ?_
      obtain rfl := Any.pn.inj heq
      have hparent' := hparent (p := .trans t) (rows_of_some ht) hg'
      rw [hp] at hparent'
      cases hparent'
    · refine (cut_update (fun r => stays_singleton.2 (by simp)) hr fun r' th' hne hr' => ?_).trans ?_
      · refine Theory.without_eq fun g' hg' heq => hne ?_
        obtain rfl := Any.pn.inj heq
        have hparent' := hparent (p := .theory r') (rows_of_some hr') hg'
        rw [hp] at hparent'
        exact (ProofParent.theory.inj hparent').symm
      · unfold Theory.without
        rw [hfilter]
        rfl
    · exact Session.prune_files_eq (by simp) (by simp)
  | trans t =>
    rw [hp] at hmem
    obtain ⟨tn, ht, -⟩ := mem_rows.1 hmem
    show (s.transTable t).bind _ = _
    rw [ht, Option.bind_some]
    refine congrArg some (Session.eq_prune rfl ?_ hgoals ?_ ?_ ?_)
    · exact cut_same (fun a => stays_singleton.2 (by simp)) fun _ _ _ => rfl
    · refine (cut_update (fun r => stays_singleton.2 (by simp)) ht fun t' tn' hne ht' => ?_).trans ?_
      · refine TransformationNode.without_eq fun g' hg' heq => hne ?_
        obtain rfl := Any.pn.inj heq
        have hparent' := hparent (p := .trans t') (rows_of_some ht') hg'
        rw [hp] at hparent'
        exact (ProofParent.trans.inj hparent').symm
      · unfold TransformationNode.without
        rw [hfilter]
        rfl
    · refine cut_same (fun r => stays_singleton.2 (by simp)) fun r th hr => ?_
      refine Theory.without_eq fun g' hg' heq => ?_
      obtain rfl := Any.pn.inj heq
      have hparent' := hparent (p := .theory r) (rows_of_some hr) hg'
      rw [hp] at hparent'
      cases hparent'
    · exact Session.prune_files_eq (by simp) (by simp)

theorem removeTheory_eq {r : ℕ} (hr : s.Has (.th r)) :
    removeTheory s r = some (s.prune {.th r}) := by
  obtain ⟨th, hr⟩ := Option.isSome_iff_exists.1 hr
  have hpar : s.theoryParent r = some th.theoryParentName := by
    rw [Session.theoryParent, hr]
    rfl
  obtain ⟨f, hf, -⟩ := mem_rows.1 (hF.theories.up hpar (Set.notMem_empty _))
  unfold removeTheory
  simp only [hr, hf, Option.bind_eq_bind, Option.bind_some]
  refine congrArg some (Session.eq_prune rfl ?_ ?_ ?_ ?_ ?_)
  · exact cut_same (fun a => stays_singleton.2 (by simp)) fun _ _ _ => rfl
  · exact cut_same (fun g => stays_singleton.2 (by simp)) fun _ _ _ =>
      ProofNode.without_eq (by simp) (by simp)
  · exact cut_same (fun t => stays_singleton.2 (by simp)) fun _ _ _ =>
      TransformationNode.without_eq (by simp)
  · refine cut_row r (fun r' => ?_) fun r' th' _ => Theory.without_eq (by simp)
    rw [stays_singleton, ne_eq, Any.th.injEq]
  · show List.map _ (s.sessionFiles.filter fun b => stays {.th r} (.file b.1)) = List.map _ _
    rw [filter_eq_self.2 fun b _ => stays_singleton.2 (by simp)]
    refine map_congr_left fun b hb => ?_
    have hfile : s.findFile b.1 = some b.2 := Lookup.lookup_of_mem hF.fileKeys hb
    split_ifs with heq
    · rw [heq] at hfile
      obtain rfl := Option.some.inj (hf.symm.trans hfile)
      unfold File.without
      congr 2
      refine filter_congr fun r' _ => ?_
      rw [Bool.eq_iff_iff, stays_singleton]
      simp
    · rw [File.without_eq]
      rintro r' hr' hr''
      obtain rfl := Any.th.inj hr''
      have hpar' := hF.theories.down (mem_rows.2 ⟨b.2, hfile, hr'⟩)
      exact heq (Option.some.inj (hpar'.symm.trans hpar))

theorem removeAny_eq (hn : s.Has n) : removeAny s n = some (s.prune {n}) := by
  cases n with
  | tn t => exact removeTransformation_eq hF hn
  | pa a => exact removeProofAttemptPa_eq hF hn
  | pn g => exact removeProofNode_eq hF hn
  | th r => exact removeTheory_eq hF hn
  | file fid =>
    refine congrArg some (Session.eq_prune rfl ?_ ?_ ?_ ?_ ?_)
    · exact cut_same (fun a => stays_singleton.2 (by simp)) fun _ _ _ => rfl
    · exact cut_same (fun g => stays_singleton.2 (by simp)) fun _ _ _ =>
        ProofNode.without_eq (by simp) (by simp)
    · exact cut_same (fun t => stays_singleton.2 (by simp)) fun _ _ _ =>
        TransformationNode.without_eq (by simp)
    · exact cut_same (fun r => stays_singleton.2 (by simp)) fun _ _ _ =>
        Theory.without_eq (by simp)
    · show List.map _ (s.sessionFiles.filter _) = s.sessionFiles.filter _
      refine (map_congr_left fun b _ => ?_).trans ((map_id _).trans ?_)
      · rw [File.without_eq (by simp)]
        rfl
      · refine filter_congr fun b _ => ?_
        rw [Bool.eq_iff_iff, stays_singleton]
        simp

end Remove

theorem Session.prune_empty (s : Session Task) : s.prune ∅ = s :=
  (Session.eq_prune rfl (cut_same (fun _ => stays_iff.2 (Set.notMem_empty _)) fun _ _ _ => rfl)
    (cut_same (fun _ => stays_iff.2 (Set.notMem_empty _)) fun _ _ _ =>
      ProofNode.without_eq (by simp) (by simp))
    (cut_same (fun _ => stays_iff.2 (Set.notMem_empty _)) fun _ _ _ =>
      TransformationNode.without_eq (by simp))
    (cut_same (fun _ => stays_iff.2 (Set.notMem_empty _)) fun _ _ _ => Theory.without_eq (by simp))
    (Session.prune_files_eq (by simp) (by simp))).symm

theorem Session.kids_prune_disjoint (hn : Disjoint (subtree s.kids n) R) :
    (s.prune R).kids n = s.kids n := by
  rw [Set.disjoint_left] at hn
  rw [Session.kids_prune (hn (mem_subtree_self n)), filter_eq_self]
  intro k hk
  exact stays_iff.2 (hn (subtree_of_mem hk (mem_subtree_self k)))

theorem visits_removeAny (hF : Forest par ∅ s) :
    Visits s id removeAny fun V acc => Closed s.kids V ∧ acc = s.prune V where
  rows {V acc n} hI hn hV := by
    obtain ⟨-, rfl⟩ := hI
    have hnV := Set.disjoint_left.mp hV (mem_subtree_self n)
    exact ⟨Session.has_prune.2 ⟨hn, hnV⟩, Session.kids_prune_disjoint hV⟩
  visit {V acc n} hI hn hV hkids := by
    obtain ⟨hclosed, rfl⟩ := hI
    refine ⟨_, removeAny_eq (hF.prune hclosed) (Session.has_prune.2 ⟨hn, hV⟩), ?_, ?_⟩
    · rintro x (rfl | hx) y hy
      · exact Set.mem_insert_of_mem _ (hkids y hy)
      · exact Set.mem_insert_of_mem _ (hclosed x hx y hy)
    · rw [Session.prune_prune, Set.union_singleton]

theorem fold_removeAny (hF : Forest par ∅ s) (hC : Complete par s) (hn : s.Has n) :
    foldAllAny id removeAny (foldFuel s) s n = some (s.prune (subtree s.kids n)) := by
  have hstart : Closed s.kids ∅ ∧ s = s.prune ∅ :=
    ⟨fun x hx => absurd hx (Set.notMem_empty x), s.prune_empty.symm⟩
  obtain ⟨s', hrun, -, rfl⟩ := (visits_removeAny hF).walked hF hC hn (Nat.le_succ _) ∅ s hstart
    (Set.disjoint_empty _)
  rw [Set.empty_union] at hrun
  exact hrun

end Why3.Itp
