import Mathlib.Data.List.Nodup
import Mathlib.Tactic

/-!
# Global shapes

The table `Gshape` of `session/termcode.ml`: the strings that occur in the shapes of
a session, each with a rank.  A bound shape is a list of such ranks.  A string is the
list of its characters.  Over the three fields stands the list of the strings in the
order of their ranks.
-/

namespace Why3.Termcode

open List Function

abbrev Str := List Char

structure Gshape where
  hypShape : Str → Option ℕ
  indexSh : ℕ → Option Str
  n : ℕ

namespace Gshape

def create : Gshape := ⟨fun _ => none, fun _ => none, 0⟩

def addShape (gs : Gshape) (s : Str) : ℕ × Gshape :=
  match gs.hypShape s with
  | some i => (i, gs)
  | none =>
    (gs.n, ⟨update gs.hypShape s (some gs.n), update gs.indexSh gs.n (some s),
      gs.n + 1⟩)

def addShapeG (gs : Gshape) (s : Str) : Gshape := (gs.addShape s).2

/-- The bindings of `index_sh` in the order of the ranks, which are the numbers below
`n`. -/
def strings (gs : Gshape) : List Str := (List.range gs.n).filterMap gs.indexSh

def writeShapeToFile (gs : Gshape) : List Char := gs.strings.flatMap fun s => s ++ ['\n']

/-! ## The list of the strings -/

/-- The table of the distinct strings `l`. -/
structure Ranked (gs : Gshape) (l : List Str) : Prop where
  nodup : l.Nodup
  size : gs.n = l.length
  index : ∀ i, gs.indexSh i = l[i]?
  hyp : ∀ s i, gs.hypShape s = some i ↔ l[i]? = some s

/-- A table that was filled by `add_shape`. -/
def Filled (gs : Gshape) : Prop := ∃ l, gs.Ranked l

variable {gs : Gshape} {l : List Str}

theorem ranked_create : create.Ranked [] where
  nodup := nodup_nil
  size := rfl
  index _ := rfl
  hyp _ _ := by simp [create]

theorem filterMap_range_getElem? (l : List Str) :
    (List.range l.length).filterMap (fun i => l[i]?) = l := by
  induction l using reverseRecOn with
  | nil => rfl
  | append_singleton l a ih =>
    have hold : (List.range l.length).filterMap (fun i => (l ++ [a])[i]?) = l := by
      refine Eq.trans (filterMap_congr fun i hi => ?_) ih
      rw [getElem?_append_left (mem_range.mp hi)]
    rw [length_append, length_singleton, range_succ, filterMap_append, hold]
    simp

theorem Ranked.strings (h : gs.Ranked l) : gs.strings = l := by
  have hget : gs.indexSh = fun i => l[i]? := funext h.index
  rw [Gshape.strings, h.size, hget, filterMap_range_getElem?]

theorem Ranked.addShapeG_of_mem (h : gs.Ranked l) {s : Str} (hs : s ∈ l) :
    gs.addShapeG s = gs := by
  obtain ⟨i, hi⟩ := mem_iff_getElem?.mp hs
  rw [addShapeG, addShape, (h.hyp s i).mpr hi]

theorem Ranked.hypShape_of_notMem (h : gs.Ranked l) {s : Str} (hs : s ∉ l) :
    gs.hypShape s = none := by
  rw [Option.eq_none_iff_forall_ne_some]
  intro i hi
  exact hs (mem_of_getElem? ((h.hyp s i).mp hi))

theorem Ranked.addShapeG_of_notMem (h : gs.Ranked l) {s : Str} (hs : s ∉ l) :
    (gs.addShapeG s).Ranked (l ++ [s]) := by
  rw [addShapeG, addShape, h.hypShape_of_notMem hs]
  refine ⟨nodup_append.mpr ⟨h.nodup, nodup_singleton s, ?_⟩, ?_, ?_, ?_⟩
  · intro a ha b hb
    rw [mem_singleton.mp hb]
    rintro rfl
    exact hs ha
  · rw [length_append, length_singleton, h.size]
  · intro i
    show update gs.indexSh gs.n (some s) i = _
    have hn := h.size
    rcases lt_trichotomy i l.length with hi | hi | hi
    · rw [update_of_ne (by omega), h.index, getElem?_append_left hi]
    · rw [hi, h.size, update_self]
      simp
    · rw [update_of_ne (by omega), h.index, getElem?_eq_none (by omega),
        getElem?_eq_none (by rw [length_append, length_singleton]; omega)]
  · intro t i
    show update gs.hypShape s (some gs.n) t = some i ↔ _
    by_cases ht : t = s
    · subst ht
      rw [update_self, Option.some_inj, h.size, getElem?_append]
      split_ifs with hi
      · constructor
        · rintro rfl
          exact absurd hi (lt_irrefl _)
        · intro hget
          exact absurd (mem_of_getElem? hget) hs
      · rw [getElem?_singleton]
        split_ifs with hzero
        · exact iff_of_true (by omega) rfl
        · exact iff_of_false (by omega) nofun
    · rw [update_of_ne ht, h.hyp, getElem?_append]
      split_ifs with hi
      · rfl
      · rw [getElem?_eq_none (by omega), getElem?_singleton]
        split_ifs with hzero
        · exact iff_of_false nofun fun heq => ht (Option.some.inj heq).symm
        · rfl

end Gshape

end Why3.Termcode
