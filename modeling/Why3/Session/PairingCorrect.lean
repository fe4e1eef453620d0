import Why3.Session.PairingShapes

/-!
# The pairing of goals is a maximal matching

The first phase pairs goals with identical checksums: it takes as many pairs of a
checksum as there are goals of both sides with it.  The goals it leaves, old and new,
are the nodes of the second phase.
-/

namespace Why3

open List Function

namespace Pairing

/-! ## The table of the old goals -/

section Table

variable {K V : Type} [DecidableEq K]

theorem lookup_perm {c : K} {v : V} {tbl : List (K × V)} (h : tbl.lookup c = some v) :
    tbl.Perm ((c, v) :: hashtblRemove c tbl) := by
  induction tbl with
  | nil => cases h
  | cons b tbl ih =>
    obtain ⟨k, w⟩ := b
    rw [List.lookup_cons] at h
    unfold hashtblRemove
    by_cases hk : k = c
    · subst hk
      rw [if_pos rfl]
      simp only [beq_self_eq_true, Option.some.injEq] at h
      rw [h]
    · have hck : (c == k) = false := by simpa using fun h => hk h.symm
      rw [hck] at h
      rw [if_neg hk]
      exact ((ih h).cons _).trans (List.Perm.swap _ _ _)

theorem countP_of_lookup_none {c : K} {tbl : List (K × V)} (h : tbl.lookup c = none) :
    tbl.countP (fun b => b.1 = c) = 0 := by
  rw [countP_eq_zero]
  rintro ⟨k, w⟩ hb
  rw [lookup_eq_none_iff] at h
  have := h _ hb
  simpa using fun h : k = c => by simp_all

end Table

/-- Changing the value of a test at one place where it fails. -/
theorem countP_update {ι : Type} {l : List ι} (hn : l.Nodup) {i : ι} (hi : i ∈ l)
    {f f' : ι → Bool} (hf : ∀ j, j ≠ i → f' j = f j) (h : f i = false) :
    l.countP f' = l.countP f + if f' i then 1 else 0 := by
  obtain ⟨l₁, l₂, rfl⟩ := append_of_mem hi
  rw [nodup_append, nodup_cons] at hn
  obtain ⟨-, ⟨hi₂, -⟩, hdisj⟩ := hn
  have h₁ : l₁.countP f' = l₁.countP f := by
    apply countP_congr
    intro j hj
    rw [hf j (fun hji => hdisj j hj i (by simp) hji)]
  have h₂ : l₂.countP f' = l₂.countP f := by
    apply countP_congr
    intro j hj
    rw [hf j (fun hji => hi₂ (hji ▸ hj))]
  rw [countP_append, countP_append, countP_cons, countP_cons, h₁, h₂, h]
  simp only [Bool.false_eq_true, if_false]
  omega

/-! ## The first phase -/

section PhaseOne

variable {α β K N : Type} [DecidableEq K]
variable {Old : S K N α} {New : S K N β} {oldgoals : List α} {newgoals : List β}

/-- The old goals that a table and a list of nodes hold. -/
def heldOlds (tbl : List (K × Fin oldgoals.length)) (acc : List (GoalNode oldgoals newgoals)) :
    List α :=
  tbl.map (fun b => oldgoals.get b.2) ++ acc.filterMap fun n => n.elt.old?

variable (Old) in
/-- The number of old goals with a checksum. -/
def oldCount (c : K) (l : List α) : ℕ := l.countP fun g => Old.checksum g = some c

variable (New) in
/-- The number of new goals with a checksum. -/
def newCount (c : K) (l : List β) : ℕ := l.countP fun g => New.checksum g = some c

variable (New) in
/-- A pair of the result that is not obsolete, for a new goal with checksum `c`. -/
def isExact (c : K) (r : β × Option (α × Bool)) : Bool :=
  decide (New.checksum r.1 = some c) && r.2.any fun q => !q.2

variable (New) in
def exactCount (c : K) (r : Result α β newgoals.length) : ℕ :=
  (finRange newgoals.length).countP fun i => isExact New c (r i)

variable (Old) in
/-- The goals `l` are in the table, under their checksums, or among the nodes; no node is a
new goal. -/
structure HoldsOlds (l : List α) (tbl : List (K × Fin oldgoals.length))
    (acc : List (GoalNode oldgoals newgoals)) : Prop where
  perm : (heldOlds tbl acc).Perm l
  checksum : ∀ b ∈ tbl, Old.checksum (oldgoals.get b.2) = some b.1
  count : ∀ c, tbl.countP (fun b => b.1 = c) = oldCount Old c l
  news : acc.filterMap (fun n => n.elt.new?) = []

theorem HoldsOlds.addOldChecksum {l : List α}
    {s : List (K × Fin oldgoals.length) × List (GoalNode oldgoals newgoals)}
    (h : HoldsOlds Old l s.1 s.2) (g : Fin oldgoals.length) :
    HoldsOlds Old (oldgoals.get g :: l) (addOldChecksum Old New oldgoals newgoals s g).1
      (addOldChecksum Old New oldgoals newgoals s g).2 := by
  unfold Pairing.addOldChecksum
  cases hg : Old.checksum (oldgoals.get g) with
  | none =>
    refine ⟨?_, h.checksum, ?_, ?_⟩
    · exact perm_middle.trans (h.perm.cons _)
    · intro c
      rw [h.count c]
      unfold oldCount
      rw [countP_cons, hg]
      simp
    · exact h.news
  | some c =>
    refine ⟨h.perm.cons _, ?_, ?_, h.news⟩
    · exact forall_mem_cons.2 ⟨hg, h.checksum⟩
    · intro c'
      rw [countP_cons, oldCount, countP_cons, h.count c', oldCount, hg]
      simp

/-- Every old goal is in the table or among the nodes. -/
theorem holdsOlds_oldChecksums :
    HoldsOlds Old oldgoals (oldChecksums Old New oldgoals newgoals).1
      (oldChecksums Old New oldgoals newgoals).2 := by
  have hfold : ∀ (l : List (Fin oldgoals.length)) (l₀ : List α)
      (s : List (K × Fin oldgoals.length) × List (GoalNode oldgoals newgoals)),
      HoldsOlds Old l₀ s.1 s.2 →
      HoldsOlds Old ((l.map oldgoals.get).reverse ++ l₀)
        (l.foldl (Pairing.addOldChecksum Old New oldgoals newgoals) s).1
        (l.foldl (Pairing.addOldChecksum Old New oldgoals newgoals) s).2 := by
    intro l
    induction l with
    | nil => exact fun l₀ s h => h
    | cons g l ih =>
      intro l₀ s h
      rw [map_cons, reverse_cons, append_assoc]
      exact ih _ _ (h.addOldChecksum g)
  have h := hfold (finRange oldgoals.length) [] ([], [])
    ⟨List.Perm.nil, by simp, fun c => rfl, rfl⟩
  rw [map_get_finRange, append_nil] at h
  refine ⟨h.perm.trans (reverse_perm _), h.checksum, fun c => ?_, h.news⟩
  rw [show oldCount Old c oldgoals = oldCount Old c oldgoals.reverse from
    ((reverse_perm oldgoals).countP_eq _).symm]
  exact h.count c

variable (Old New) in
/-- The invariant of the first phase, when the new goals of `l` have been taken. -/
structure PhaseOne.Inv (s : PhaseOne (K := K) oldgoals newgoals)
    (l : List (Fin newgoals.length)) : Prop where
  goals : ∀ i, (s.result i).1 = newgoals.get i
  fresh : ∀ i, i ∉ l → (s.result i).2 = none
  news : s.acc.filterMap (fun n => n.elt.new?) = l.filter fun i => (s.result i).2.isNone
  olds : (partners s.result ++ heldOlds s.tbl s.acc).Perm oldgoals
  checksum : ∀ b ∈ s.tbl, Old.checksum (oldgoals.get b.2) = some b.1
  flag : ∀ i q, (s.result i).2 = some q → q.2 = false ∧
    ∃ c, New.checksum (newgoals.get i) = some c ∧ Old.checksum q.1 = some c
  count : ∀ c, s.tbl.countP (fun b => b.1 = c) + exactCount New c s.result =
    oldCount Old c oldgoals
  -- a new goal stays alone only when no old goal with its checksum is left
  greedy : ∀ c, exactCount New c s.result ≤ newCount New c (l.map newgoals.get) ∧
    (exactCount New c s.result = newCount New c (l.map newgoals.get) ∨
      s.tbl.countP (fun b => b.1 = c) = 0)

variable {s : PhaseOne (K := K) oldgoals newgoals} {l : List (Fin newgoals.length)}

theorem newCount_cons (c : K) (g : β) (l : List β) :
    newCount New c (g :: l) = newCount New c l + if New.checksum g = some c then 1 else 0 := by
  unfold newCount
  rw [countP_cons]
  simp

variable {i : Fin newgoals.length}

/-- A new goal that finds no old goal with its checksum. -/
theorem PhaseOne.Inv.alone (h : s.Inv Old New l) (hi : i ∉ l)
    (hc : ∀ c, New.checksum (newgoals.get i) = some c → s.tbl.countP (fun b => b.1 = c) = 0) :
    PhaseOne.Inv Old New { s with acc := mkNode Old New oldgoals newgoals (.new i) :: s.acc }
      (i :: l) := by
  refine ⟨h.goals, ?_, ?_, h.olds, h.checksum, h.flag, h.count, ?_⟩
  · intro j hj
    exact h.fresh j (fun hjl => hj (mem_cons_of_mem _ hjl))
  · rw [filter_cons_of_pos (by simp [h.fresh i hi]), ← h.news]
    rfl
  · intro c
    obtain ⟨hle, hor⟩ := h.greedy c
    rw [map_cons, newCount_cons]
    split_ifs with hci
    · exact ⟨Nat.le_succ_of_le hle, .inr (hc c hci)⟩
    · exact ⟨hle, hor⟩

/-- A new goal that is paired with an old goal of the same checksum. -/
theorem PhaseOne.Inv.pair (h : s.Inv Old New l) (hi : i ∉ l) {c₀ : K}
    (hc : New.checksum (newgoals.get i) = some c₀) {o : Fin oldgoals.length}
    (ho : s.tbl.lookup c₀ = some o) : PhaseOne.Inv Old New
      { s with
        tbl := hashtblRemove c₀ s.tbl
        result := update s.result i (newgoals.get i, some (oldgoals.get o, false)) }
      (i :: l) := by
  have hperm := lookup_perm ho
  have hnone := h.fresh i hi
  have hold := h.checksum (c₀, o) (hperm.mem_iff.2 mem_cons_self)
  have htbl : ∀ c, s.tbl.countP (fun b => b.1 = c) =
      (hashtblRemove c₀ s.tbl).countP (fun b => b.1 = c) + if c₀ = c then 1 else 0 := by
    intro c
    rw [hperm.countP_eq, countP_cons]
    simp
  have hexact : ∀ c, exactCount New c
      (update s.result i (newgoals.get i, some (oldgoals.get o, false))) =
      exactCount New c s.result + if c₀ = c then 1 else 0 := by
    intro c
    unfold exactCount
    rw [countP_update (f := fun i => isExact New c (s.result i)) (nodup_finRange _)
      (mem_finRange i)]
    · simp only [update_self, isExact, hc]
      simp
    · intro j hj
      rw [update_of_ne hj]
    · simp [isExact, hnone]
  constructor
  · intro j
    by_cases hj : j = i
    · subst hj
      simp
    · simp only [update_of_ne hj]
      exact h.goals j
  · intro j hj
    rw [mem_cons, not_or] at hj
    simp only [update_of_ne hj.1]
    exact h.fresh j hj.2
  · rw [filter_cons_of_neg (by simp), h.news]
    apply filter_congr
    intro j hj
    have hne : j ≠ i := fun hji => hi (hji ▸ hj)
    simp only [update_of_ne hne]
  · refine List.Perm.trans ?_ h.olds
    refine ((partners_update hnone _ _ _).append_right _).trans ?_
    have hheld : (heldOlds s.tbl s.acc).Perm
        (oldgoals.get o :: heldOlds (hashtblRemove c₀ s.tbl) s.acc) :=
      (hperm.map fun b => oldgoals.get b.2).append_right _
    refine List.Perm.trans ?_ (hheld.append_left _).symm
    exact perm_middle.symm
  · intro b hb
    exact h.checksum b (hperm.mem_iff.2 (mem_cons_of_mem _ hb))
  · intro j q hq
    by_cases hj : j = i
    · subst hj
      simp only [update_self, Option.some.injEq] at hq
      subst hq
      exact ⟨rfl, c₀, hc, hold⟩
    · simp only [update_of_ne hj] at hq
      exact h.flag j q hq
  · intro c
    have := h.count c
    rw [htbl c] at this
    simp only
    rw [hexact c]
    omega
  · intro c
    obtain ⟨hle, hor⟩ := h.greedy c
    rw [htbl c] at hor
    simp only
    rw [hexact c, map_cons, newCount_cons, hc]
    simp only [Option.some.injEq]
    by_cases hcc : c₀ = c
    · rw [if_pos hcc] at hor ⊢
      omega
    · rw [if_neg hcc] at hor ⊢
      omega

variable [DecidableEq N]

theorem PhaseOne.Inv.pairChecksum (hnames : (newgoals.map New.name).Nodup) (h : s.Inv Old New l)
    (hi : i ∉ l) :
    ∃ s', pairChecksum Old New oldgoals newgoals i s = some s' ∧ s'.Inv Old New (i :: l) := by
  unfold Pairing.pairChecksum
  simp only
  cases hc : New.checksum (newgoals.get i) with
  | none => exact ⟨_, rfl, h.alone hi (fun c h => by rw [hc] at h; cases h)⟩
  | some c =>
    simp only
    cases ho : s.tbl.lookup c with
    | none =>
      refine ⟨_, rfl, h.alone hi fun c' hc' => ?_⟩
      rw [hc, Option.some.injEq] at hc'
      subst hc'
      exact countP_of_lookup_none ho
    | some o =>
      simp only [newGoalIndex_get hnames, Option.bind_eq_bind, Option.bind_some]
      exact ⟨_, rfl, h.pair hi hc ho⟩

variable (Old New oldgoals newgoals) in
/-- The first phase takes every new goal. -/
theorem pairChecksums_inv (hnames : (newgoals.map New.name).Nodup) :
    ∃ s, pairChecksums Old New oldgoals newgoals = some s ∧
      s.Inv Old New (finRange newgoals.length) := by
  have hinit : PhaseOne.Inv Old New
      ⟨(oldChecksums Old New oldgoals newgoals).1, initialResult newgoals,
        (oldChecksums Old New oldgoals newgoals).2⟩ [] := by
    have h := @holdsOlds_oldChecksums α β K N _ Old New oldgoals newgoals
    have hpartners : partners (initialResult (α := α) newgoals) = [] := by
      simp [partners, initialResult]
    have hexact : ∀ c, exactCount New c (initialResult (α := α) newgoals) = 0 := by
      simp [exactCount, initialResult, isExact]
    refine ⟨fun i => rfl, fun i _ => rfl, h.news, ?_, h.checksum, ?_, ?_, ?_⟩
    · simp only [hpartners, nil_append]
      exact h.perm
    · intro i q hq
      cases hq
    · intro c
      simp only [hexact, Nat.add_zero]
      exact h.count c
    · intro c
      simp only [hexact]
      exact ⟨Nat.zero_le _, .inl rfl⟩
  have hfold : ∀ l : List (Fin newgoals.length), l.Nodup →
      ∃ s, l.foldr (fun newi s => s.bind (Pairing.pairChecksum Old New oldgoals newgoals newi))
        (some ⟨(oldChecksums Old New oldgoals newgoals).1, initialResult newgoals,
          (oldChecksums Old New oldgoals newgoals).2⟩) = some s ∧ s.Inv Old New l := by
    intro l hn
    induction l with
    | nil => exact ⟨_, rfl, hinit⟩
    | cons i l ih =>
      rw [nodup_cons] at hn
      obtain ⟨s, hs, hinv⟩ := ih hn.2
      obtain ⟨s', hs', hinv'⟩ := hinv.pairChecksum hnames hn.1
      refine ⟨s', ?_, hinv'⟩
      rw [foldr_cons, hs]
      exact hs'
  exact hfold _ (nodup_finRange _)

end PhaseOne

/-! ## The whole pairing -/

section Associate

variable {α β K N : Type} [DecidableEq K] [DecidableEq N]
variable (Old : S K N α) (New : S K N β) (fold : ∀ n, FoldOrder K (Fin n))
variable (oldgoals : List α) (newgoals : List β)

variable {oldgoals newgoals} in
omit [DecidableEq K] [DecidableEq N] in
/-- The nodes of the second phase are those of the first one and one for each binding left
in the table. -/
theorem allGoals_perm (s : PhaseOne (K := K) oldgoals newgoals) :
    (allGoals Old New fold oldgoals newgoals s).Perm
      (s.tbl.map (fun b => mkNode Old New oldgoals newgoals (.old b.2)) ++ s.acc) := by
  have hfoldl : ∀ (l : List (K × Fin oldgoals.length)) (acc : List (GoalNode oldgoals newgoals)),
      (l.foldl (fun acc b => mkNode Old New oldgoals newgoals (.old b.2) :: acc) acc).Perm
        (l.map (fun b => mkNode Old New oldgoals newgoals (.old b.2)) ++ acc) := by
    intro l
    induction l with
    | nil => exact fun acc => List.Perm.refl _
    | cons b l ih =>
      intro acc
      exact (ih _).trans perm_middle
  unfold allGoals
  refine (mergeSort_perm _ _).trans ((hfoldl _ _).trans (List.Perm.append_right _ ?_))
  exact ((fold oldgoals.length).perm s.tbl).map _

theorem filterMap_get_finRange {γ δ : Type} (l : List γ) (f : γ → Option δ) :
    (finRange l.length).filterMap (fun i => f (l.get i)) = l.filterMap f := by
  conv_rhs => rw [← map_get_finRange l, List.filterMap_map]
  rfl

variable {oldgoals newgoals} in
theorem liveOlds_finRange (allgoals : List (GoalNode oldgoals newgoals)) :
    liveOlds allgoals (finRange _) = allgoals.filterMap fun n => n.elt.old? :=
  filterMap_get_finRange allgoals fun n => n.elt.old?

variable {oldgoals newgoals} in
theorem liveNews_finRange (allgoals : List (GoalNode oldgoals newgoals)) :
    liveNews allgoals (finRange _) = allgoals.filterMap fun n => n.elt.new? :=
  filterMap_get_finRange allgoals fun n => n.elt.new?

/-- Pairing with shapes loses nothing and is maximal: the result has the new goals in their
order, the old goals are the partners and the detached ones, a pair that is not obsolete has
one checksum, there are as many of these as the checksums allow, and a new goal is left alone
only when no old goal is left. -/
theorem associate_matching (hnames : (newgoals.map New.name).Nodup) :
    ∃ res detached, associate Old New fold oldgoals newgoals true = some (res, detached) ∧
      res.map Prod.fst = newgoals ∧
      (res.filterMap (fun r => r.2.map Prod.fst) ++ detached).Perm oldgoals ∧
      (∀ g o, (g, some (o, false)) ∈ res →
        ∃ c, New.checksum g = some c ∧ Old.checksum o = some c) ∧
      (∀ c, res.countP (isExact New c) =
        min (oldgoals.countP fun g => Old.checksum g = some c)
          (newgoals.countP fun g => New.checksum g = some c)) ∧
      ((∃ g, (g, none) ∈ res) → detached = []) := by
  obtain ⟨s₁, hs₁, h₁⟩ := pairChecksums_inv Old New oldgoals newgoals hnames
  have hperm := allGoals_perm Old New fold s₁
  have holds : (partners s₁.result ++
      liveOlds (allGoals Old New fold oldgoals newgoals s₁) (finRange _)).Perm oldgoals := by
    refine List.Perm.trans (List.Perm.append_left _ ?_) h₁.olds
    rw [liveOlds_finRange]
    refine (hperm.filterMap _).trans ?_
    rw [filterMap_append, List.filterMap_map, heldOlds]
    refine List.Perm.append_right _ (List.Perm.of_eq ?_)
    exact congrFun filterMap_eq_map _
  have hnews : (unpaired s₁.result).Perm
      (liveNews (allGoals Old New fold oldgoals newgoals s₁) (finRange _)) := by
    rw [liveNews_finRange]
    refine List.Perm.symm ((hperm.filterMap _).trans (List.Perm.of_eq ?_))
    have htbl : (s₁.tbl.map fun b => mkNode Old New oldgoals newgoals (.old b.2)).filterMap
        (fun n => n.elt.new?) = [] := by
      rw [List.filterMap_map, filterMap_eq_nil_iff]
      exact fun b _ => rfl
    rw [filterMap_append, h₁.news, htbl, nil_append, unpaired]
    exact (congrFun filterMap_eq_filter _).symm
  obtain ⟨s₂, hs₂, hgoals, hdet, hnone, hexact⟩ := phaseTwo_spec hnames h₁.goals holds hnews
  refine ⟨List.ofFn s₂.result, detached oldgoals newgoals _ s₂.links, ?_, ?_, ?_, ?_, ?_, ?_⟩
  · simp [associate, shapeAssociate, hs₁, hs₂]
  · rw [ofFn_eq_map, map_map]
    conv_rhs => rw [← map_get_finRange newgoals]
    exact map_congr_left fun i _ => hgoals i
  · rw [ofFn_eq_map, List.filterMap_map]
    exact hdet
  · intro g o hmem
    rw [mem_ofFn] at hmem
    obtain ⟨i, hi⟩ := hmem
    obtain ⟨-, c, hc⟩ := h₁.flag i (o, false) ((hexact i o).1 (by rw [hi]))
    have hg := hgoals i
    rw [hi] at hg
    simp only at hg
    rw [hg]
    exact ⟨c, hc⟩
  · intro c
    have hcount : (List.ofFn s₂.result).countP (isExact New c) = exactCount New c s₁.result := by
      rw [ofFn_eq_map, countP_map]
      apply countP_congr
      intro i _
      simp only [comp_apply, isExact, hgoals i, h₁.goals i, Bool.and_eq_true,
        Option.any_eq_true, Bool.not_eq_true']
      refine and_congr_right fun _ => ⟨?_, ?_⟩
      · rintro ⟨⟨q, b⟩, hq, rfl⟩
        exact ⟨_, (hexact i q).1 hq, rfl⟩
      · rintro ⟨⟨q, b⟩, hq, rfl⟩
        exact ⟨_, (hexact i q).2 hq, rfl⟩
    have hc := h₁.count c
    have hg := h₁.greedy c
    rw [map_get_finRange] at hg
    rw [hcount]
    unfold oldCount at hc
    unfold newCount at hg
    omega
  · rintro ⟨g, hg⟩
    rw [mem_ofFn] at hg
    obtain ⟨i, hi⟩ := hg
    exact hnone i (by rw [hi])

/-- Goals that are numbers: the checksum is the remainder by three, and none for zero. -/
def numberGoals : S ℕ ℕ ℕ where
  checksum g := if g = 0 then none else some (g % 3)
  shape g := ([UInt8.ofNat g], [(g : ℤ)])
  name := id

/-- The bindings from the newest one on. -/
def newestFirst (n : ℕ) : FoldOrder ℕ (Fin n) := ⟨id, fun l => List.Perm.refl l⟩

theorem associate_numberGoals :
    ∃ res detached, associate numberGoals numberGoals newestFirst [1, 4, 0, 5] [4, 7, 8, 3, 10] true =
        some (res, detached) ∧
      res.map Prod.fst = [4, 7, 8, 3, 10] ∧
      (res.filterMap (fun r => r.2.map Prod.fst) ++ detached).Perm [1, 4, 0, 5] ∧
      res.countP (isExact numberGoals 1) = 2 := by
  obtain ⟨res, detached, h, hnew, hold, -, hexact, -⟩ :=
    associate_matching numberGoals numberGoals newestFirst [1, 4, 0, 5] [4, 7, 8, 3, 10] (by decide)
  refine ⟨res, detached, h, hnew, hold, ?_⟩
  rw [hexact 1]
  decide

end Associate

end Pairing

end Why3
