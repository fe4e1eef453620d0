import Mathlib.Data.Finset.Insert
import Mathlib.Order.Monotone.Basic
import Why3.Core.Task

/-!
# Bisection

`bisect_step` of `transform/eliminate_definition.ml` looks for the declarations that a
proof can do without.  The caller answers whether the goal is still proved after some
removals, and the search goes on in the continuation of the answer.
-/

namespace Why3.Bisect

open List PropKind

/-- The removals, without the naming table, which nothing reads here. -/
structure Rem where
  remPr : Finset PrSymbol
  remLs : Finset LSymbol
  remTs : Finset TySymbol

namespace Rem

def empty : Rem := ⟨∅, ∅, ∅⟩

instance : Preorder Rem where
  le r r' := r.remPr ⊆ r'.remPr ∧ r.remLs ⊆ r'.remLs ∧ r.remTs ⊆ r'.remTs
  le_refl _ := ⟨subset_rfl, subset_rfl, subset_rfl⟩
  le_trans _ _ _ h h' := ⟨h.1.trans h'.1, h.2.1.trans h'.2.1, h.2.2.trans h'.2.2⟩

def removeLs (rem : Rem) (ls : LSymbol) : Rem := { rem with remLs := insert ls rem.remLs }

def removePr (rem : Rem) (pr : PrSymbol) : Rem := { rem with remPr := insert pr rem.remPr }

end Rem

def addRem (rem : Rem) (decl : Decl) : Rem :=
  match decl.dNode with
  | .dtype _ | .dparam _ | .ddata _ => rem
  | .dlogic l => l.foldl (fun rem ld => rem.removeLs ld.1) rem
  | .dind _ l => l.foldl (fun rem ind => rem.removeLs ind.1) rem
  | .dprop _ pr _ => rem.removePr pr

inductive BisectExn
  | goalNotFound
  | indexOutOfBounds

inductive BisectStep
  | done (rem : Rem)
  | step (rem : Rem) (next : Bool → BisectStep)

/-- The declarations of an interval of the array. -/
def block (a : Array Decl) (i j : ℕ) : List Decl := (a.toList.take j).drop i

/-- `fold_sub add_rem`. -/
def foldSub (acc : Rem) (a : Array Decl) (i1 i2 : ℕ) : Rem := (block a i1 i2).foldl addRem acc

/-- The interval is not empty, so an access never fails, nor does the assertion. -/
def bisectAux (a : Array Decl) (i1 i2 : ℕ) (hlt : i1 < i2) (hle : i2 ≤ a.size) (rem : Rem)
    (cont : Rem → BisectStep) : BisectStep :=
  if h : i2 - i1 < 2 then
    let rem1 := addRem rem a[i1]
    .step rem1 fun b => if b then cont rem1 else cont rem
  else
    let m := (i1 + i2) / 2
    let rem1 := foldSub rem a i1 m
    .step rem1 fun b =>
      if b then bisectAux a m i2 (by omega) hle rem1 cont
      else
        bisectAux a i1 m (by omega) (by omega) rem fun rem1 =>
          let rem2 := foldSub rem1 a m i2
          .step rem2 fun b =>
            if b then cont rem2 else bisectAux a m i2 (by omega) hle rem1 cont
termination_by i2 - i1

def removable (td : Tdecl) : Option Decl :=
  match td with
  | .decl d =>
    match d.dNode with
    | .dlogic _ | .dind _ _ | .dprop _ _ _ => some d
    | _ => none
  | _ => none

/-- The array is filled from its end, with the last declaration first. -/
def bisectStep (task0 : Task) : Except BisectExn BisectStep :=
  match task0.tdecls with
  | .decl ⟨.dprop .pgoal _ _, _⟩ :: task =>
    let a := (task.filterMap removable).reverse.toArray
    if h : 0 < a.size then .ok (bisectAux a 0 a.size h le_rfl .empty .done)
    else .error .indexOutOfBounds
  | _ => .error .goalNotFound

/-! ## Runs against an oracle -/

namespace BisectStep

variable (oracle : Rem → Bool)

def result : BisectStep → Rem
  | .done rem => rem
  | .step rem next => (next (oracle rem)).result

/-- The sets of removals that the oracle is asked about. -/
def asked : BisectStep → List Rem
  | .done _ => []
  | .step rem next => rem :: (next (oracle rem)).asked

end BisectStep

/-- The set that the search keeps after some questions: the last one confirmed. -/
def keptAfter (oracle : Rem → Bool) (l : List Rem) : Rem := (l.filter oracle).getLastD .empty

theorem keptAfter_concat (oracle : Rem → Bool) (l : List Rem) (rem : Rem) :
    keptAfter oracle (l ++ [rem]) = if oracle rem then rem else keptAfter oracle l := by
  rw [keptAfter, filter_append]
  by_cases h : oracle rem
  · rw [filter_cons_of_pos h, if_pos h]
    simp
  · rw [filter_cons_of_neg h, if_neg h]
    simp [keptAfter]

theorem keptAfter_confirmed (oracle : Rem → Bool) (l : List Rem) :
    keptAfter oracle l = .empty ∨
      keptAfter oracle l ∈ l ∧ oracle (keptAfter oracle l) = true := by
  induction l using List.reverseRecOn with
  | nil => exact .inl rfl
  | append_singleton l rem ih =>
    rw [keptAfter_concat]
    by_cases h : oracle rem
    · rw [if_pos h]
      exact .inr ⟨by simp, h⟩
    · rw [if_neg h]
      exact ih.imp_right fun ⟨hmem, hok⟩ => ⟨mem_append_left _ hmem, hok⟩

/-! ## What a run has settled -/

theorem le_foldl {α : Type} {f : Rem → α → Rem} (hf : ∀ rem x, rem ≤ f rem x) (l : List α)
    (rem : Rem) : rem ≤ l.foldl f rem := by
  induction l generalizing rem with
  | nil => exact le_rfl
  | cons x l ih => exact (hf rem x).trans (ih _)

theorem addRem_mono (d : Decl) : Monotone fun rem => addRem rem d := by
  have hls : ∀ ls, Monotone fun rem : Rem => rem.removeLs ls :=
    fun ls _ _ h => ⟨h.1, Finset.insert_subset_insert _ h.2.1, h.2.2⟩
  intro rem rem' h
  dsimp only
  unfold addRem
  split
  · exact h
  · exact h
  · exact h
  · exact foldl_monotone (fun _ => hls _) _ h
  · exact foldl_monotone (fun _ => hls _) _ h
  · exact ⟨Finset.insert_subset_insert _ h.1, h.2⟩

theorem le_addRem (rem : Rem) (d : Decl) : rem ≤ addRem rem d := by
  have hls : ∀ (rem : Rem) ls, rem ≤ rem.removeLs ls :=
    fun _ _ => ⟨subset_rfl, Finset.subset_insert _ _, subset_rfl⟩
  unfold addRem
  split
  · exact le_rfl
  · exact le_rfl
  · exact le_rfl
  · exact le_foldl (fun _ _ => hls _ _) _ rem
  · exact le_foldl (fun _ _ => hls _ _) _ rem
  · exact ⟨Finset.subset_insert _ _, subset_rfl, subset_rfl⟩

/-- The declarations of `l` are removed, or cannot be. -/
def Settled (oracle : Rem → Bool) (l : List Decl) (rem : Rem) : Prop :=
  ∃ kept, kept <+ l ∧ rem = kept.foldl addRem .empty ∧
    ∀ d ∈ l, d ∈ kept ∨ oracle (addRem rem d) = false

section Settled

variable {oracle : Rem → Bool} {l : List Decl} {rem : Rem}

theorem settled_nil : Settled oracle [] .empty := ⟨[], .refl _, rfl, fun _ h => by cases h⟩

theorem Settled.append (hmono : Antitone oracle) (h : Settled oracle l rem)
    (block : List Decl) : Settled oracle (l ++ block) (block.foldl addRem rem) := by
  obtain ⟨kept, hsub, rfl, hno⟩ := h
  refine ⟨kept ++ block, hsub.append_right _, foldl_append.symm, fun d hd => ?_⟩
  rcases mem_append.mp hd with hd | hd
  · rcases hno d hd with hk | hk
    · exact .inl (mem_append_left _ hk)
    · right
      apply le_bot_iff.mp
      rw [show (⊥ : Bool) = _ from hk.symm]
      exact hmono (addRem_mono d (le_foldl le_addRem _ _))
  · exact .inl (mem_append_right _ hd)

theorem Settled.skip (h : Settled oracle l rem) {d : Decl}
    (hno : oracle (addRem rem d) = false) : Settled oracle (l ++ [d]) rem := by
  obtain ⟨kept, hsub, rfl, hold⟩ := h
  refine ⟨kept, hsub.trans (sublist_append_left _ _), rfl, fun e he => ?_⟩
  rcases mem_append.mp he with he | he
  · exact hold e he
  · rw [mem_singleton.mp he]
    exact .inr hno

end Settled

section Block

variable {a : Array Decl} {i j : ℕ}

theorem take_append_block (hij : i ≤ j) : a.toList.take i ++ block a i j = a.toList.take j := by
  have htake : a.toList.take i = (a.toList.take j).take i := by rw [take_take, min_eq_left hij]
  rw [htake, block, take_append_drop]

theorem block_singleton (h : i < a.size) : block a i (i + 1) = [a[i]] := by
  rw [block, drop_take, Nat.add_sub_cancel_left, drop_eq_getElem_cons (by simpa using h)]
  rfl

end Block

/-- How a search that has asked `l` goes on: every question adds an interval of the array
to what is kept, and at the end the array is settled. -/
def Searches (oracle : Rem → Bool) (a : Array Decl) (l : List Rem) : BisectStep → Prop
  | .done rem => keptAfter oracle l = rem ∧ Settled oracle a.toList rem
  | .step rem next =>
    (∃ i j, i < j ∧ j ≤ a.size ∧ rem = foldSub (keptAfter oracle l) a i j) ∧
      Searches oracle a (l ++ [rem]) (next (oracle rem))

section Search

variable {oracle : Rem → Bool} {a : Array Decl}

/-- The part of the array before `i` is settled. -/
def At (oracle : Rem → Bool) (a : Array Decl) (i : ℕ) (l : List Rem) (rem : Rem) : Prop :=
  keptAfter oracle l = rem ∧ Settled oracle (a.toList.take i) rem

/-- The question about an interval: it is kept when the answer is yes. -/
theorem At.ask {i j : ℕ} {l : List Rem} {rem : Rem} {next : Bool → BisectStep}
    (hmono : Antitone oracle) (hat : At oracle a i l rem) (hij : i < j) (hj : j ≤ a.size)
    (hyes : ∀ l', At oracle a j l' (foldSub rem a i j) → Searches oracle a l' (next true))
    (hno : oracle (foldSub rem a i j) = false →
      ∀ l', At oracle a i l' rem → Searches oracle a l' (next false)) :
    Searches oracle a l (.step (foldSub rem a i j) next) := by
  refine ⟨⟨i, j, hij, hj, by rw [hat.1]⟩, ?_⟩
  cases hb : oracle (foldSub rem a i j) with
  | true =>
    apply hyes
    refine ⟨by rw [keptAfter_concat, if_pos hb], ?_⟩
    rw [← take_append_block hij.le]
    exact hat.2.append hmono _
  | false =>
    apply hno hb
    refine ⟨?_, hat.2⟩
    rw [keptAfter_concat, hb, if_neg Bool.false_ne_true]
    exact hat.1

theorem searches_bisectAux (hmono : Antitone oracle) (i1 i2 : ℕ) (rem : Rem)
    (cont : Rem → BisectStep) (l : List Rem) (hlt : i1 < i2) (hle : i2 ≤ a.size)
    (hat : At oracle a i1 l rem)
    (hcont : ∀ rem' l', At oracle a i2 l' rem' → Searches oracle a l' (cont rem')) :
    Searches oracle a l (bisectAux a i1 i2 hlt hle rem cont) := by
  obtain ⟨n, hn⟩ : ∃ n, i2 - i1 = n := ⟨_, rfl⟩
  induction n using Nat.strongRecOn generalizing i1 i2 rem cont l with
  | ind n ih =>
    rw [bisectAux]
    by_cases hsmall : i2 - i1 < 2
    · obtain rfl : i2 = i1 + 1 := by omega
      have hrem : addRem rem a[i1] = foldSub rem a i1 (i1 + 1) := by
        rw [foldSub, block_singleton hle]
        rfl
      rw [dif_pos hsmall, hrem]
      apply hat.ask hmono hlt hle
      · intro l' hat'
        exact hcont _ _ hat'
      · intro hno l' hat'
        apply hcont
        refine ⟨hat'.1, ?_⟩
        rw [← take_append_block (Nat.le_succ i1), block_singleton hle]
        apply hat'.2.skip
        rwa [hrem]
    · have hm1 : i1 < (i1 + i2) / 2 := by omega
      have hm2 : (i1 + i2) / 2 < i2 := by omega
      rw [dif_neg hsmall]
      apply hat.ask hmono hm1 (by omega)
      · intro l' hat'
        exact ih _ (by omega) _ _ _ _ _ hm2 hle hat' hcont rfl
      · intro _ l' hat'
        apply ih _ (by omega) _ _ _ _ _ hm1 (by omega) hat' _ rfl
        intro rem1 l1 hat1
        apply hat1.ask hmono hm2 hle
        · intro l2 hat2
          exact hcont _ _ hat2
        · intro _ l2 hat2
          exact ih _ (by omega) _ _ _ _ _ hm2 hle hat2 hcont rfl

/-- What a search asks and returns. -/
theorem Searches.run {s : BisectStep} {l : List Rem} (h : Searches oracle a l s) :
    s.result oracle = keptAfter oracle (l ++ s.asked oracle) ∧
      Settled oracle a.toList (keptAfter oracle (l ++ s.asked oracle)) ∧
      ∀ pre q post, s.asked oracle = pre ++ q :: post → ∃ i j, i < j ∧ j ≤ a.size ∧
        q = foldSub (keptAfter oracle (l ++ pre)) a i j := by
  induction s generalizing l with
  | done rem =>
    obtain ⟨rfl, hset⟩ := h
    rw [BisectStep.asked, append_nil]
    exact ⟨rfl, hset, fun pre q post heq => by simp at heq⟩
  | step rem next ih =>
    obtain ⟨hblock, hnext⟩ := h
    obtain ⟨hres, hset, hask⟩ := ih _ hnext
    have happ : l ++ BisectStep.asked oracle (.step rem next) =
        l ++ [rem] ++ (next (oracle rem)).asked oracle := by
      rw [append_assoc]
      rfl
    rw [happ]
    refine ⟨hres, hset, fun pre q post heq => ?_⟩
    cases pre with
    | nil =>
      obtain ⟨rfl, -⟩ := cons.inj heq
      rw [append_nil]
      exact hblock
    | cons q' pre =>
      obtain ⟨rfl, htail⟩ := cons.inj heq
      obtain ⟨i, j, hij, hj, hq⟩ := hask pre q post htail
      refine ⟨i, j, hij, hj, ?_⟩
      rw [hq, append_assoc]
      rfl

end Search

/-- The search ends.  Every question extends the set kept before it by an interval of the
array, every set kept was confirmed, and the last one cannot be extended. -/
theorem bisectAux_maximal (oracle : Rem → Bool) (hmono : Antitone oracle)
    (a : Array Decl) (hpos : 0 < a.size) :
    (∀ task0 : Task, task0.findGoal.isSome = true →
      (task0.tdecls.tail.filterMap removable).reverse = a.toList →
      bisectStep task0 = .ok (bisectAux a 0 a.size hpos le_rfl .empty .done)) ∧
    ∃ asked final, (bisectAux a 0 a.size hpos le_rfl .empty .done).asked oracle = asked ∧
      (bisectAux a 0 a.size hpos le_rfl .empty .done).result oracle = final ∧
      keptAfter oracle asked = final ∧
      (∀ pre, pre <+: asked → keptAfter oracle pre = .empty ∨
        keptAfter oracle pre ∈ pre ∧ oracle (keptAfter oracle pre) = true) ∧
      (∀ pre q post, asked = pre ++ q :: post → ∃ i j, i < j ∧ j ≤ a.size ∧
        q = foldSub (keptAfter oracle pre) a i j) ∧
      ∃ kept, kept <+ a.toList ∧ final = kept.foldl addRem .empty ∧
        ∀ d ∈ a.toList, d ∉ kept → oracle (addRem final d) = false := by
  constructor
  · rintro ⟨tdecls, known⟩ hgoal harr
    rw [Task.findGoal] at hgoal
    split at hgoal
    · rename_i heq
      obtain rfl : tdecls = _ := heq
      simp only [tail_cons] at harr
      simp only [bisectStep, harr, Array.toArray_toList, dif_pos hpos]
    · exact absurd hgoal Bool.false_ne_true
  · obtain ⟨hres, ⟨kept, hsub, hkept, hno⟩, hask⟩ :=
      (searches_bisectAux hmono 0 a.size .empty .done [] hpos le_rfl ⟨rfl, settled_nil⟩
        fun rem' l' hat => ⟨hat.1, by simpa [← Array.length_toList] using hat.2⟩).run
    refine ⟨_, _, rfl, rfl, hres.symm, fun pre _ => keptAfter_confirmed oracle pre, hask, kept,
      hsub, hres.trans hkept, fun d hd hk => ?_⟩
    rw [hres]
    exact (hno d hd).resolve_left hk

/-- Two axioms, of which the first can go. -/
def twoAxioms : Array Decl :=
  #[⟨.dprop paxiom ⟨0⟩ (.ttrue []), [0]⟩, ⟨.dprop paxiom ⟨1⟩ (.ttrue []), [1]⟩]

theorem bisectAux_twoAxioms : ∃ kept, kept <+ twoAxioms.toList ∧
    (bisectAux twoAxioms 0 2 (by decide) le_rfl .empty .done).result
      (fun rem => decide (⟨1⟩ ∉ rem.remPr)) = kept.foldl addRem .empty := by
  have hanti : Antitone fun rem : Rem => decide ((⟨1⟩ : PrSymbol) ∉ rem.remPr) := by
    intro rem rem' h
    rw [Bool.le_iff_imp, decide_eq_true_iff, decide_eq_true_iff]
    exact fun hno hmem => hno (h.1 hmem)
  obtain ⟨-, _, final, -, hres, -, -, -, kept, hsub, hkept, -⟩ :=
    bisectAux_maximal (fun rem => decide (⟨1⟩ ∉ rem.remPr)) hanti twoAxioms (by decide)
  exact ⟨kept, hsub, hres.trans hkept⟩

end Why3.Bisect
