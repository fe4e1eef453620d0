import Why3.Util.RcLexing

/-!
# Reading a configuration back

The text of a table is read back as the table without its sections that have no
field, and with the strings that were written with `escape_eol` changed where the
lexer does not undo `String.escaped`.  So a table is read back exactly when it has
no such section and no such string.
-/

namespace Why3.Rc

open JsonBase MachineInt List

variable {F : Type}

/-! ## Maps -/

section Maps

variable {α : Type} {m : Mstr α} {k : Str}

theorem findDef_append (h : ∀ p ∈ m, p.1 ≠ k) (d : α) (m' : Mstr α) :
    findDef d k (m ++ m') = findDef d k m' := by
  have hnone : (m.find? fun p => p.1 = k) = none := by
    rw [find?_eq_none]
    intro p hp heq
    exact h p hp (of_decide_eq_true heq)
  rw [findDef, find?_append, hnone]
  rfl

theorem findDef_of_ne (h : ∀ p ∈ m, p.1 ≠ k) (d : α) : findDef d k m = d := by
  have happ := findDef_append h d []
  rwa [append_nil] at happ

theorem findDef_head (d v : α) : findDef d k ((k, v) :: m) = v := by
  simp [findDef]

/-- Keys before `k` stay in front. -/
theorem add_append (h : ∀ p ∈ m, p.1 < k) (v : α) (m' : Mstr α) :
    add k v (m ++ m') = m ++ add k v m' := by
  induction m with
  | nil => rfl
  | cons p m ih =>
    have hp := h p mem_cons_self
    rw [cons_append, add, if_neg (ne_of_gt hp), if_neg (lt_asymm hp),
      ih fun q hq => h q (mem_cons_of_mem _ hq)]
    rfl

theorem add_head (v v' : α) : add k v' ((k, v) :: m) = (k, v') :: m := if_pos rfl

theorem add_of_lt (h : ∀ p ∈ m, k < p.1) (v : α) : add k v m = (k, v) :: m := by
  cases m with
  | nil => rfl
  | cons p m =>
    have hp := h p mem_cons_self
    rw [add, if_neg (ne_of_lt hp), if_pos hp]

end Maps

/-! ## The fields of a section -/

variable {m : Sect F}

theorem addKey_values {k : Str} (hm : ∀ p ∈ m, p.1 < k) (l vs : List (RcValue F)) :
    (vs.map fun v => (k, v)).foldl addKey (m ++ [(k, l)]) = m ++ [(k, vs.reverse ++ l)] := by
  induction vs generalizing l with
  | nil => rfl
  | cons v vs ih =>
    have hadd : addKey (m ++ [(k, l)]) (k, v) = m ++ [(k, v :: l)] := by
      rw [addKey, findDef_append (fun p hp => ne_of_lt (hm p hp)), findDef_head, add_append hm,
        add_head]
    rw [map_cons, foldl_cons, hadd, ih, reverse_cons, append_assoc]
    rfl

theorem addKey_fields {acc : Sect F} (hsorted : m.Pairwise fun p q => p.1 < q.1)
    (hne : ∀ kvl ∈ m, kvl.2 ≠ []) (hacc : ∀ p ∈ acc, ∀ kvl ∈ m, p.1 < kvl.1) :
    (fields m).foldl addKey acc = acc ++ mapValues List.reverse m := by
  induction m generalizing acc with
  | nil => exact (append_nil _).symm
  | cons kvl m ih =>
    obtain ⟨k, vs⟩ := kvl
    obtain ⟨hk, htail⟩ := pairwise_cons.mp hsorted
    have hlt : ∀ p ∈ acc, p.1 < k := fun p hp => hacc p hp _ mem_cons_self
    obtain ⟨v, vs, rfl⟩ := exists_cons_of_ne_nil (hne _ mem_cons_self)
    have hfirst : addKey acc (k, v) = acc ++ [(k, [v])] := by
      have happ := add_append hlt [v] []
      rw [append_nil] at happ
      rw [addKey, findDef_of_ne fun p hp => ne_of_lt (hlt p hp)]
      exact happ
    have hacc' : ∀ p ∈ acc ++ [(k, vs.reverse ++ [v])], ∀ kvl ∈ m, p.1 < kvl.1 := by
      intro p hp kvl hkvl
      rcases mem_append.mp hp with hp | hp
      · exact hacc p hp kvl (mem_cons_of_mem _ hkvl)
      · rw [mem_singleton.mp hp]
        exact hk kvl hkvl
    rw [fields, flatMap_cons, foldl_append, map_cons, foldl_cons, hfirst,
      addKey_values hlt, ← fields, ih htail (fun q hq => hne q (mem_cons_of_mem _ hq)) hacc',
      mapValues, mapValues, map_cons, append_assoc, reverse_cons]
    rfl

/-- A section as it is read back. -/
def parsedSect (m : Sect F) : Sect F := mapValues (List.map RcValue.parsed) m

theorem fields_parsedSect (m : Sect F) : (fields m).map parsedField = fields (parsedSect m) := by
  rw [fields, fields, parsedSect, mapValues, map_flatMap, flatMap_map]
  congr 1
  funext kvl
  rw [map_map, map_map]
  rfl

theorem read_fields (hm : m.WellFormed) :
    mapValues List.reverse (((fields m).map parsedField).foldl addKey []) = parsedSect m := by
  have hsorted : (parsedSect m).Pairwise fun p q => p.1 < q.1 :=
    pairwise_map.mpr hm.sorted
  have hne : ∀ kvl ∈ parsedSect m, kvl.2 ≠ [] := by
    intro kvl hkvl
    obtain ⟨kvl', hkvl', rfl⟩ := mem_map.mp hkvl
    simpa using hm.nonempty kvl' hkvl'
  rw [fields_parsedSect, addKey_fields hsorted hne (by simp), nil_append, mapValues, mapValues,
    map_map]
  conv_rhs => rw [← map_id (parsedSect m)]
  apply map_congr_left
  intro kvl _
  show (kvl.1, kvl.2.reverse.reverse) = kvl
  rw [reverse_reverse]

/-! ## The sections of a table -/

/-- The sections of a family that are read back. -/
def image (f : List (Option Str × Sect F)) : List (Option Str × Sect F) :=
  (f.filter fun s => !s.2.isEmpty).map fun s => (s.1, parsedSect s.2)

/-- A table as it is read back. -/
def Table.image (t : Table F) : Table F :=
  (mapValues Rc.image t).filter fun f => !f.2.isEmpty

theorem addSection_recordOf {sname : Str} {s : Option Str × Sect F} (hs : s.2.WellFormed)
    (t : Table F) : addSection t (recordOf (sname, s))
      = some (add sname ((s.1, parsedSect s.2) :: findDef [] sname t) t) := by
  have hread := read_fields hs
  obtain ⟨h, m⟩ := s
  cases h <;>
  · rw [addSection, recordOf, hread]
    rfl

theorem fields_isEmpty (hm : m.WellFormed) : (fields m).isEmpty = m.isEmpty := by
  cases m with
  | nil => rfl
  | cons kvl m =>
    obtain ⟨v, vs, hvs⟩ := exists_cons_of_ne_nil (hm.nonempty kvl mem_cons_self)
    rw [fields, flatMap_cons, hvs]
    rfl

variable {t : Table F} {f : List (Option Str × Sect F)}

theorem add_family {sname : Str}
    (hf : ∀ s ∈ f, Sect.WellFormed s.2) (ht : ∀ p ∈ t, sname < p.1) :
    (((f.map fun s => (sname, s)).filter fun sec => !(fields sec.2.2).isEmpty).map recordOf).foldrM
        (fun r t => addSection t r) t
      = some (if (image f).isEmpty then t else (sname, image f) :: t) := by
  induction f with
  | nil => rfl
  | cons s f ih =>
    have hs := hf s mem_cons_self
    have ih := ih fun s' hs' => hf s' (mem_cons_of_mem _ hs')
    have hemp := fields_isEmpty hs
    cases hnil : s.2.isEmpty with
    | true =>
      rw [hnil] at hemp
      have himage : image (s :: f) = image f := by
        rw [image, filter_cons_of_neg (by simp [hnil]), ← image]
      rw [map_cons, filter_cons_of_neg (by simp [hemp]), ih, himage]
    | false =>
      rw [hnil] at hemp
      have himage : image (s :: f) = (s.1, parsedSect s.2) :: image f := by
        rw [image, filter_cons_of_pos (by simp [hnil]), map_cons, ← image]
      rw [map_cons, filter_cons_of_pos (by simp [hemp]), map_cons,
        foldrM_cons, ih, himage]
      show addSection _ (recordOf (sname, s)) = _
      rw [addSection_recordOf hs]
      cases himg : image f with
      | nil =>
        have hne : ∀ p ∈ t, p.1 ≠ sname := fun p hp => ne_of_gt (ht p hp)
        show some (add sname (_ :: findDef [] sname t) t) = _
        rw [findDef_of_ne hne, add_of_lt ht]
        rfl
      | cons s' f' =>
        show some (add sname (_ :: findDef [] sname ((sname, s' :: f') :: t))
          ((sname, s' :: f') :: t)) = _
        rw [findDef_head, add_head]
        rfl

theorem makeT_records (ht : t.WellFormed) :
    makeT (((sections t).filter fun sec => !(fields sec.2.2).isEmpty).map recordOf).reverse
      = some t.image := by
  rw [makeT, foldlM_reverse]
  obtain ⟨hsorted, -, -, -, hsects⟩ := ht
  induction t with
  | nil => rfl
  | cons f t ih =>
    obtain ⟨hlt, htail⟩ := pairwise_cons.mp hsorted
    have ih := ih htail fun f' hf' => hsects f' (mem_cons_of_mem _ hf')
    have himage : ∀ p ∈ Table.image t, f.1 < p.1 := by
      intro p hp
      obtain ⟨q, hq, rfl⟩ := mem_map.mp (mem_filter.mp hp).1
      exact hlt q hq
    have hcons : Table.image (f :: t)
        = if (image f.2).isEmpty then Table.image t else (f.1, image f.2) :: Table.image t := by
      rw [Table.image, mapValues, map_cons, filter_cons]
      cases (image f.2).isEmpty <;> rfl
    rw [sections, flatMap_cons, filter_append, map_append, foldrM_append,
      ← sections, ih, hcons]
    exact add_family (hsects f mem_cons_self) himage

theorem Table.WellFormed.sections_ok (ht : t.WellFormed) :
    ∀ sec ∈ sections t, isIdent sec.1 ∧ (∀ a ∈ sec.2.1, isIdent a) ∧ Sect.WellFormed sec.2.2 := by
  intro sec hsec
  obtain ⟨f, hf, hsec⟩ := mem_flatMap.mp hsec
  obtain ⟨s, hs, rfl⟩ := mem_map.mp hsec
  exact ⟨ht.names f hf, ht.args f hf s hs, ht.sects f hf s hs⟩

/-- What is read from a printed table. -/
theorem fromChannel_toChannel (floatOfString : List Byte → Option F) (printFloat : F → List Byte)
    (ht : t.WellFormed) : fromChannel floatOfString (toChannel printFloat t) = some t.image := by
  have hend : Reads floatOfString ((sections t).foldl pushSection .init) newline
      (some (pushRecord ((sections t).foldl pushSection .init))) := reads_space rfl reads_eof
  have hreads := reads_sections printFloat ht.sections_ok (by rintro c hc; cases hc; rfl) hend
  rw [fromChannel, ht.print, hreads _ (Nat.lt_succ_self _), Option.bind_some,
    current_pushSections]
  show makeT (_ ++ []) = _
  rw [append_nil, makeT_records ht]

/-! ## The tables that survive -/

/-- A string written with `escape_eol` that the lexer undoes. -/
def RcValue.Undone : RcValue F → Prop
  | .string s true => ∀ c ∈ s, Good c
  | _ => True

instance : DecidablePred (RcValue.Undone (F := F))
  | .int _ | .bool _ | .float _ | .ident _ | .string _ false => instDecidableTrue
  | .string s true => inferInstanceAs (Decidable (∀ c ∈ s, Good c))

def contentsSect (m : Sect F) : Sect F := mapValues (List.map RcValue.contents) m

def Table.contents (t : Table F) : Table F :=
  mapValues (List.map fun s => (s.1, contentsSect s.2)) t

theorem length_readBackChar (c : Byte) :
    1 ≤ (readBackChar c).length ∧ ((readBackChar c).length = 1 → Good c) := by
  rw [readBackChar]
  by_cases hc : Good c
  · rw [if_pos hc]
    exact ⟨le_refl 1, fun _ => hc⟩
  · have hq : c ≠ byte '"' := by
      rintro rfl
      exact hc rfl
    have hb : c ≠ byte '\\' := by
      rintro rfl
      exact hc rfl
    obtain ⟨⟨⟨h1, h2⟩, h3⟩, h4⟩ : ((c ≠ byte '\n' ∧ c ≠ byte '\t') ∧ c ≠ byte '\r') ∧
        ¬(32 ≤ c ∧ c ≤ 126) := by
      rw [Good, decide_eq_true_iff] at hc
      tauto
    rw [if_neg hc, escapedChar, if_neg hq, if_neg hb, if_neg h1, if_neg h2, if_neg h3]
    split_ifs with h
    · exact ⟨by decide, fun h' => absurd h' (by decide)⟩
    · exact ⟨by simp, fun h' => absurd h' (by simp)⟩

theorem flatMap_readBackChar {s : Str} :
    s.flatMap readBackChar = s ↔ ∀ c ∈ s, Good c := by
  constructor
  · intro h
    have hlen : ∀ s : Str, s.length ≤ (s.flatMap readBackChar).length ∧
        ((s.flatMap readBackChar).length = s.length → ∀ c ∈ s, Good c) := by
      intro s
      induction s with
      | nil => simp
      | cons c s ih =>
        obtain ⟨hle, hgood⟩ := length_readBackChar c
        rw [flatMap_cons, length_append, length_cons]
        refine ⟨by omega, ?_⟩
        intro heq d hd
        rcases mem_cons.mp hd with rfl | hd
        · exact hgood (by omega)
        · exact ih.2 (by omega) d hd
    exact (hlen s).2 (congrArg List.length h)
  · intro h
    induction s with
    | nil => rfl
    | cons c s ih =>
      rw [flatMap_cons, readBackChar, if_pos (h c mem_cons_self),
        ih fun d hd => h d (mem_cons_of_mem _ hd)]
      rfl

theorem contents_parsed (v : RcValue F) : v.parsed.contents = v.contents ↔ v.Undone := by
  match v with
  | .int _ => exact iff_of_true rfl trivial
  | .bool _ => exact iff_of_true rfl trivial
  | .float _ => exact iff_of_true rfl trivial
  | .ident _ => exact iff_of_true rfl trivial
  | .string _ false => exact iff_of_true rfl trivial
  | .string s true =>
    rw [RcValue.parsed, RcValue.contents, RcValue.contents, RcValue.string.injEq, RcValue.Undone,
      ← flatMap_readBackChar]
    exact and_iff_left rfl

theorem contentsSect_parsedSect (m : Sect F) :
    contentsSect (parsedSect m) = contentsSect m ↔ ∀ kvl ∈ m, ∀ v ∈ kvl.2, v.Undone := by
  rw [contentsSect, contentsSect, parsedSect, mapValues, mapValues, mapValues, map_map,
    map_inj_left]
  refine forall₂_congr fun kvl _ => ?_
  rw [Function.comp, Prod.mk.injEq, map_map, map_inj_left, and_iff_right rfl]
  exact forall₂_congr fun v _ => contents_parsed v

/-- A family that is read back as it was has no section without fields. -/
theorem image_contents :
    (image f).map (fun s => (s.1, contentsSect s.2)) = f.map (fun s => (s.1, contentsSect s.2)) ↔
      (∀ s ∈ f, s.2 ≠ []) ∧ ∀ s ∈ f, ∀ kvl ∈ s.2, ∀ v ∈ kvl.2, v.Undone := by
  have hfull : (∀ s ∈ f, s.2 ≠ []) → (f.filter fun s => !s.2.isEmpty) = f := by
    intro h
    rw [filter_eq_self]
    intro s hs
    simpa using h s hs
  have hsame : (∀ s ∈ f, s.2 ≠ []) →
      ((image f).map (fun s => (s.1, contentsSect s.2)) = f.map (fun s => (s.1, contentsSect s.2)) ↔
        ∀ s ∈ f, ∀ kvl ∈ s.2, ∀ v ∈ kvl.2, v.Undone) := by
    intro h
    rw [image, hfull h, map_map, map_inj_left]
    refine forall₂_congr fun s _ => ?_
    rw [Function.comp, Prod.mk.injEq, and_iff_right rfl]
    exact contentsSect_parsedSect s.2
  constructor
  · intro h
    have hne : ∀ s ∈ f, s.2 ≠ [] := by
      have hlen := congrArg List.length h
      rw [length_map, length_map, image, length_map,
        length_filter_eq_length_iff] at hlen
      intro s hs
      simpa using hlen s hs
    exact ⟨hne, (hsame hne).mp h⟩
  · rintro ⟨hne, hund⟩
    exact (hsame hne).mpr hund

theorem contents_image (ht : t.WellFormed) : t.image.contents = t.contents ↔
      (∀ f ∈ t, ∀ s ∈ f.2, s.2 ≠ []) ∧
      ∀ f ∈ t, ∀ s ∈ f.2, ∀ kvl ∈ s.2, ∀ v ∈ kvl.2, v.Undone := by
  -- a table without families that vanish
  have hsame : (∀ f ∈ t, image f.2 ≠ []) → (t.image.contents = t.contents ↔
      ∀ f ∈ t, (∀ s ∈ f.2, s.2 ≠ []) ∧ ∀ s ∈ f.2, ∀ kvl ∈ s.2, ∀ v ∈ kvl.2, v.Undone) := by
    intro h
    have hfilter : t.image = mapValues image t := by
      rw [Table.image, filter_eq_self]
      intro f hf
      obtain ⟨f', hf', rfl⟩ := mem_map.mp hf
      simpa using h f' hf'
    rw [hfilter, Table.contents, Table.contents, mapValues, mapValues, mapValues, map_map,
      map_inj_left]
    refine forall₂_congr fun f _ => ?_
    rw [Function.comp, Prod.mk.injEq, and_iff_right rfl]
    exact image_contents
  have hforall : (∀ f ∈ t, (∀ s ∈ f.2, s.2 ≠ []) ∧
      ∀ s ∈ f.2, ∀ kvl ∈ s.2, ∀ v ∈ kvl.2, RcValue.Undone v) ↔ (∀ f ∈ t, ∀ s ∈ f.2, s.2 ≠ []) ∧
      ∀ f ∈ t, ∀ s ∈ f.2, ∀ kvl ∈ s.2, ∀ v ∈ kvl.2, RcValue.Undone v := forall₂_and
  constructor
  · intro h
    have hne : ∀ f ∈ t, image f.2 ≠ [] := by
      have hlen := congrArg List.length h
      rw [Table.contents, Table.contents, mapValues, mapValues, length_map, length_map,
        Table.image] at hlen
      have hlen' : (mapValues image t).length = t.length := length_map _
      rw [← hlen', length_filter_eq_length_iff] at hlen
      intro f hf
      simpa using hlen _ (mem_map_of_mem hf)
    exact hforall.mp ((hsame hne).mp h)
  · rintro ⟨hfull, hund⟩
    have hne : ∀ f ∈ t, image f.2 ≠ [] := by
      intro f hf
      have hfilter : (f.2.filter fun s => !s.2.isEmpty) = f.2 := by
        rw [filter_eq_self]
        intro s hs
        simpa using hfull f hf s hs
      rw [image, hfilter, ne_eq, map_eq_nil_iff]
      exact ht.nonempty f hf
    exact (hsame hne).mpr (hforall.mpr ⟨hfull, hund⟩)

/-- A table is read back exactly when each of its sections has a field and the lexer
undoes its strings. -/
theorem roundtrip_iff (floatOfString : List Byte → Option F) (printFloat : F → List Byte)
    {t : Table F} (ht : t.WellFormed) :
    (fromChannel floatOfString (toChannel printFloat t)).map Table.contents = some t.contents ↔
      (∀ f ∈ t, ∀ s ∈ f.2, s.2 ≠ []) ∧
      ∀ f ∈ t, ∀ s ∈ f.2, ∀ kvl ∈ s.2, ∀ v ∈ kvl.2, v.Undone := by
  rw [fromChannel_toChannel floatOfString printFloat ht, Option.map_some, Option.some_inj]
  exact contents_image ht

/-- A section, and a family of two sections. -/
def exampleTable : Table ℚ :=
  [(bytes "main", [(none, [(bytes "magic", [.int ⟨14, by decide, by decide⟩])])]),
   (bytes "prover",
    [(some (bytes "a"),
      [(bytes "command", [.string (bytes "a \"b\"") false, .string (bytes "c\nd") true]),
       (bytes "editor", [.ident (bytes "e")])]),
     (some (bytes "b"), [(bytes "in_place", [.bool true])])])]

theorem exampleTable_wellFormed : exampleTable.WellFormed where
  sorted := by decide
  names := by decide
  nonempty := by simp [exampleTable]
  args := by decide
  sects := by decide

theorem exampleTable_undone : ∀ f ∈ exampleTable, ∀ s ∈ f.2, ∀ kvl ∈ s.2, ∀ v ∈ kvl.2, v.Undone := by
  decide +kernel

theorem roundtrip_iff_example :
    exampleTable.WellFormed ∧
    (fromChannel (fun _ => none) (toChannel (fun _ => []) exampleTable)).map Table.contents
      = some exampleTable.contents :=
  ⟨exampleTable_wellFormed,
    (roundtrip_iff (fun _ => none) (fun _ => []) exampleTable_wellFormed).mpr
      ⟨by simp [exampleTable, -Prod.forall], exampleTable_undone⟩⟩

/-- A section without fields. -/
def emptySection : Table ℚ := [(bytes "main", [(none, [])])]

theorem emptySection_wellFormed : emptySection.WellFormed where
  sorted := by decide
  names := by decide
  nonempty := by simp [emptySection]
  args := by decide
  sects := by decide

/-- It is lost. -/
theorem emptySection_lost :
    emptySection.WellFormed ∧
    (fromChannel (fun _ => none) (toChannel (fun _ => []) emptySection)).map Table.contents
      ≠ some emptySection.contents := by
  refine ⟨emptySection_wellFormed, ?_⟩
  rw [fromChannel_toChannel _ _ emptySection_wellFormed]
  intro h
  exact absurd (congrArg (Option.map List.length) h) (by decide)

end Why3.Rc
