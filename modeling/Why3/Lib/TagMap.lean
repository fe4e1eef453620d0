import Mathlib.Data.List.Sort
import Mathlib.Data.List.Nodup
import Mathlib.Tactic

/-!
# Finite maps in the order of tags

A finite map whose keys carry a tag, kept as the list of its bindings in the
order of the tags, which is the order in which it is traversed.  The keys are
distinct by construction.
-/

/-- Keys with a number that orders them. -/
class Tagged (K : Type) where
  tag : K → ℕ

structure TagMap (K α : Type) where
  entries : List (K × α)
  nodup : (entries.map Prod.fst).Nodup

namespace TagMap

open List
open Prod (fst snd)

variable {K α β : Type} [DecidableEq K]

def empty : TagMap K α := ⟨[], nodup_nil⟩

def find? (m : TagMap K α) (k : K) : Option α := m.entries.lookup k

def findD (m : TagMap K α) (k : K) (x : α) : α := (m.find? k).getD x

def keys (m : TagMap K α) : List K := m.entries.map fst

def map (f : α → β) (m : TagMap K α) : TagMap K β :=
  ⟨m.entries.map (fun e => (e.1, f e.2)), by
    have h := m.nodup
    rwa [map_map]⟩

/-! ## Bindings and lookup -/

variable {k : K} {m : TagMap K α} {x : α}

theorem find?_eq_some_iff : m.find? k = some x ↔ (k, x) ∈ m.entries := by
  obtain ⟨l, hnd⟩ := m
  induction l with
  | nil => simp [find?]
  | cons e l ih =>
    obtain ⟨k', x'⟩ := e
    rw [map_cons, nodup_cons] at hnd
    show ((k', x') :: l).lookup k = some x ↔ (k, x) ∈ (k', x') :: l
    rw [List.lookup_cons, mem_cons]
    by_cases hk : k = k'
    · subst hk
      have hno : (k, x) ∉ l := fun h => hnd.1 (mem_map.mpr ⟨_, h, rfl⟩)
      simp only [BEq.rfl, Option.some.injEq, Prod.mk.injEq, true_and, hno, or_false]
      exact eq_comm
    · have hbeq : (k == k') = false := by simpa using hk
      rw [hbeq]
      simp only [Prod.mk.injEq, hk, false_and, false_or]
      exact ih hnd.2

@[simp] theorem find?_empty (k : K) : (empty : TagMap K α).find? k = none := rfl

theorem mem_keys : k ∈ m.keys ↔ ∃ x, m.find? k = some x := by
  rw [keys, mem_map]
  constructor
  · rintro ⟨e, he, rfl⟩
    exact ⟨e.2, find?_eq_some_iff.mpr he⟩
  · rintro ⟨x, hx⟩
    exact ⟨(k, x), find?_eq_some_iff.mp hx, rfl⟩

theorem find?_map {f : α → β} : (m.map f).find? k = (m.find? k).map f := by
  ext y
  rw [find?_eq_some_iff, Option.map_eq_some_iff]
  show (k, y) ∈ m.entries.map _ ↔ _
  rw [mem_map]
  constructor
  · rintro ⟨e, he, heq⟩
    cases heq
    exact ⟨e.2, find?_eq_some_iff.mpr he, rfl⟩
  · rintro ⟨x, hx, rfl⟩
    exact ⟨(k, x), find?_eq_some_iff.mp hx, rfl⟩

/-! ## One binding, and one less -/

def remove (k : K) (m : TagMap K α) : TagMap K α :=
  ⟨m.entries.filter (fun e => decide (e.1 ≠ k)), m.nodup.sublist (filter_sublist.map fst)⟩

variable {k' : K}

theorem find?_remove : (m.remove k).find? k' = if k' = k then none else m.find? k' := by
  ext y
  rw [find?_eq_some_iff]
  show (k', y) ∈ m.entries.filter _ ↔ _
  rw [mem_filter, decide_eq_true_eq]
  split
  · next h => simp [h]
  · next h => simp [h, find?_eq_some_iff]

def singleton (k : K) (x : α) : TagMap K α := ⟨[(k, x)], by simp⟩

theorem find?_singleton : (singleton k x).find? k' = if k' = k then some x else none := by
  show List.lookup k' [(k, x)] = _
  rw [List.lookup_cons]
  by_cases hk : k' = k
  · simp [hk]
  · have hbeq : (k' == k) = false := by simpa using hk
    simp [hbeq, hk]

/-- The bindings of the keys of the other map. -/
def inter (m : TagMap K α) (m' : TagMap K β) : TagMap K α :=
  ⟨m.entries.filter (fun e => (m'.find? e.1).isSome),
    m.nodup.sublist (filter_sublist.map fst)⟩

/-- The bindings of the keys that satisfy the test. -/
def filterKeys (p : K → Bool) (m : TagMap K α) : TagMap K α :=
  ⟨m.entries.filter (fun e => p e.1), m.nodup.sublist (filter_sublist.map fst)⟩

theorem find?_filterKeys {p : K → Bool} :
    (m.filterKeys p).find? k = if p k then m.find? k else none := by
  ext y
  rw [find?_eq_some_iff]
  show (k, y) ∈ m.entries.filter _ ↔ _
  rw [mem_filter]
  split
  · next h => simp [h, find?_eq_some_iff]
  · next h => simp [h]

theorem mem_keys_filterKeys {p : K → Bool} :
    k ∈ (m.filterKeys p).keys ↔ k ∈ m.keys ∧ p k = true := by
  rw [mem_keys, mem_keys, find?_filterKeys]
  cases hp : p k <;> simp

/-- The bindings of the keys that the other map does not have. -/
def diff (m : TagMap K α) (m' : TagMap K β) : TagMap K α :=
  m.filterKeys (fun k => (m'.find? k).isNone)

def isEmpty (m : TagMap K α) : Bool := m.entries.isEmpty

/-! ## Adding a binding -/

variable [Tagged K]

theorem nodup_orderedInsert {l : List (K × α)} (h : (l.map fst).Nodup) :
    (((l.filter (fun e => decide (e.1 ≠ k))).orderedInsert
      (fun a b => Tagged.tag a.1 ≤ Tagged.tag b.1) (k, x)).map fst).Nodup := by
  have hperm := (perm_orderedInsert (fun a b : K × α => Tagged.tag a.1 ≤ Tagged.tag b.1)
    (k, x) (l.filter (fun e => decide (e.1 ≠ k)))).map fst
  rw [hperm.nodup_iff, map_cons, nodup_cons]
  constructor
  · simp
  · exact h.sublist (filter_sublist.map fst)

/-- The old binding of the key, if any, is replaced. -/
def add (k : K) (x : α) (m : TagMap K α) : TagMap K α :=
  ⟨(m.entries.filter (fun e => decide (e.1 ≠ k))).orderedInsert
    (fun a b => Tagged.tag a.1 ≤ Tagged.tag b.1) (k, x), nodup_orderedInsert m.nodup⟩

theorem mem_add {k : K} {x : α} {m : TagMap K α} {e : K × α} :
    e ∈ (m.add k x).entries ↔ e = (k, x) ∨ (e ∈ m.entries ∧ e.1 ≠ k) := by
  show e ∈ List.orderedInsert _ _ _ ↔ _
  rw [mem_orderedInsert, mem_filter, decide_eq_true_eq]

theorem find?_add : (m.add k x).find? k' = if k' = k then some x else m.find? k' := by
  ext y
  rw [find?_eq_some_iff, mem_add]
  split
  · next h => simp [h, eq_comm]
  · next h => simp [h, find?_eq_some_iff]

@[simp] theorem find?_add_self : (m.add k x).find? k = some x := by
  rw [find?_add, if_pos rfl]

theorem find?_add_of_ne (h : k' ≠ k) : (m.add k x).find? k' = m.find? k' := by
  rw [find?_add, if_neg h]

/-! ## Joining -/

/-- The bindings of both maps, combined for the keys that are in both. -/
def union (f : K → α → α → α) (m m' : TagMap K α) : TagMap K α :=
  m'.entries.foldl (fun acc e => acc.add e.1 ((m.find? e.1).elim e.2 (fun x => f e.1 x e.2))) m

theorem find?_foldl_add {g : K × α → α} {l : List (K × α)} (hnd : (l.map fst).Nodup) :
    ∀ m : TagMap K α, (l.foldl (fun acc e => acc.add e.1 (g e)) m).find? k =
      (l.lookup k).elim (m.find? k) (fun x => some (g (k, x))) := by
  induction l with
  | nil => exact fun m => rfl
  | cons e l ih =>
    intro m
    obtain ⟨k', x⟩ := e
    rw [map_cons, nodup_cons] at hnd
    rw [foldl_cons, ih hnd.2, find?_add, List.lookup_cons]
    by_cases hk : k = k'
    · subst hk
      have hno : l.lookup k = none := by
        rw [lookup_eq_none_iff]
        intro e he
        have hne : k ≠ e.1 := by
          rintro rfl
          exact hnd.1 (mem_map.mpr ⟨e, he, rfl⟩)
        exact bne_iff_ne.mpr hne
      simp [hno]
    · have hbeq : (k == k') = false := by simpa using hk
      simp [hbeq, hk]

theorem find?_union {f : K → α → α → α} {m' : TagMap K α} :
    (m.union f m').find? k = match m.find? k, m'.find? k with
      | none, o => o
      | some x, none => some x
      | some x, some y => some (f k x y) := by
  rw [union, find?_foldl_add m'.nodup]
  show (m'.find? k).elim _ _ = _
  cases hm : m.find? k <;> cases m'.find? k <;> simp [hm]

theorem mem_keys_union {f : K → α → α → α} {m' : TagMap K α} :
    k ∈ (m.union f m').keys ↔ k ∈ m.keys ∨ k ∈ m'.keys := by
  rw [mem_keys, mem_keys, mem_keys, find?_union]
  cases m.find? k <;> cases m'.find? k <;> simp

theorem mem_keys_add : k' ∈ (m.add k x).keys ↔ k' = k ∨ k' ∈ m.keys := by
  rw [mem_keys, mem_keys, find?_add]
  split
  · next h => simp [h]
  · next h => simp [h]

/-- The set of the keys of a list. -/
def ofKeys (l : List K) : TagMap K Unit := l.foldl (fun s k => s.add k ()) empty

theorem mem_keys_ofKeys {l : List K} : k ∈ (ofKeys l).keys ↔ k ∈ l := by
  have hgen : ∀ (l : List K) (m : TagMap K Unit),
      k ∈ (l.foldl (fun s k => s.add k ()) m).keys ↔ k ∈ l ∨ k ∈ m.keys := by
    intro l
    induction l with
    | nil => simp
    | cons k' l ih =>
      intro m
      rw [foldl_cons, ih, mem_keys_add, mem_cons]
      tauto
  rw [ofKeys, hgen, mem_keys]
  simp

end TagMap
