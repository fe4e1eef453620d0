import Why3.Core.Lambda

/-!
# Full function spaces

An interpretation in which every function is the one of a mapping: the type of the
mappings is a function space, and the other types are the integers.
-/

namespace Why3

namespace FunSpace

mutual
/-- The values of a type. -/
def Dom : Ty → Type
  | .tyvar _ => ℤ
  | .tyapp s l => if s = tsFunc then DomArgs l else ℤ
/-- The functions from the first type to the second one. -/
def DomArgs : List Ty → Type
  | [] => ℤ
  | a :: l => Dom a → DomResult l
def DomResult : List Ty → Type
  | [] => ℤ
  | b :: _ => Dom b
end

attribute [grind =] Dom DomArgs DomResult

mutual
def dflt : (ty : Ty) → Dom ty
  | .tyvar _ => by rw [Dom]; exact 0
  | .tyapp s l => by
    rw [Dom]
    split
    · exact dfltArgs l
    · exact 0
def dfltArgs : (l : List Ty) → DomArgs l
  | [] => by rw [DomArgs]; exact 0
  | _ :: l => by rw [DomArgs]; exact fun _ => dfltResult l
def dfltResult : (l : List Ty) → DomResult l
  | [] => by rw [DomResult]; exact 0
  | b :: _ => by rw [DomResult]; exact dflt b
end

attribute [grind =] dflt dfltArgs dfltResult

theorem dom_func (a b : Ty) : Dom (tyFunc a b) = (Dom a → Dom b) := by
  simp [tyFunc, Dom, DomArgs, DomResult]

theorem dom_int : Dom tyInt = ℤ := by
  have h : tsInt ≠ tsFunc := by decide
  simp [tyInt, Dom, h]

/-- A value with its type. -/
abbrev Val : Type := (ty : Ty) × Dom ty

open Classical in
/-- The integer of a value, for the types of the integers. -/
noncomputable def toInt (v : Val) : ℤ := if h : Dom v.1 = ℤ then cast h v.2 else 0

open Classical in
noncomputable def ofInt (ty : Ty) (n : ℤ) : Val :=
  ⟨ty, if h : Dom ty = ℤ then cast h.symm n else dflt ty⟩

theorem toInt_ofInt {ty : Ty} (h : Dom ty = ℤ) (n : ℤ) : toInt (ofInt ty n) = n := by
  unfold toInt ofInt
  rw [dif_pos h, dif_pos h, cast_cast, cast_eq]

/-- The result of a mapping. -/
noncomputable def appVal (b : Ty) (f x : Val) : Val :=
  if h : f.1 = tyFunc x.1 b then ⟨b, (cast (by rw [h, dom_func]) f.2 : Dom x.1 → Dom b) x.2⟩
  else ⟨b, dflt b⟩

noncomputable def fn (s : LSymbol) (ty : Option Ty) (dl : List Val) : Val :=
  match ty, dl with
  | some b, [f, x] => if s = fsFuncApp then appVal b f x else ⟨b, dflt b⟩
  | some b, _ => if s = fsBoolTrue then ofInt b 1 else ofInt b 0
  | none, _ => ofInt tyInt 0

theorem fn_ty (s : LSymbol) (b : Ty) (dl : List Val) : (fn s (some b) dl).1 = b := by
  unfold fn
  split
  · next b' f x heq =>
      obtain rfl := Option.some.inj heq
      split_ifs
      · unfold appVal
        split_ifs <;> rfl
      · rfl
  · next heq _ =>
      obtain rfl := Option.some.inj heq
      split_ifs <;> rfl
  · next heq => cases heq

open Classical in
/-- The interpretation with these predicates. -/
noncomputable def interp (pr : LSymbol → List (Option Ty) → List Val → Prop) :
    Interp (fun _ => []) where
  Val := Val
  mem ty v := v.1 = ty
  dest _ _ := none
  const c ty := match c with
    | .constInt _ n => ofInt ty n
    | _ => ofInt ty 0
  fn s _ ty dl := fn s ty dl
  pr := pr
  eps ty P := if h : ∃ d, P ⟨ty, d⟩ then ⟨ty, h.choose⟩ else ⟨ty, dflt ty⟩
  dest_mem := fun _ h => by cases h
  dest_some := fun _ h => absurd (constrsOf_nil _) h
  con := fun h => absurd h (by simp [constrsOf_nil])
  inhabited := fun ty => ⟨⟨ty, dflt ty⟩, rfl⟩
  const_mem := fun c ty => by cases c <;> rfl
  fn_mem := fun _ _ => fn_ty _ _ _
  fn_constr := fun h => absurd h (by simp [constrsOf_nil])
  dest_inj := fun _ _ h => by cases h
  eps_mem := fun ty P => by split_ifs <;> rfl
  eps_spec := by
    rintro ty P ⟨⟨ty', d⟩, rfl, h⟩
    have hex : ∃ d, P ⟨ty', d⟩ := ⟨d, h⟩
    rw [dif_pos hex]
    exact hex.choose_spec

variable (pr : LSymbol → List (Option Ty) → List Val → Prop)

theorem litExt_interp : (interp pr).LitExt := by
  intro c1 c2 ty h
  unfold Constant.equal at h
  split at h
  · simpa [interp] using congrArg (ofInt ty) (by simpa using h)
  · rfl
  · rw [of_decide_eq_true h]

theorem fullFunctions_interp : (interp pr).FullFunctions where
  comprehension := by
    intro a b g hg
    have hb : ∀ x : Dom a, (g ⟨a, x⟩).1 = b := fun x => hg ⟨a, x⟩ rfl
    let φ : Dom a → Dom b := fun x => cast (congrArg Dom (hb x)) (g ⟨a, x⟩).2
    refine ⟨⟨tyFunc a b, cast (dom_func a b).symm φ⟩, rfl, ?_⟩
    rintro ⟨a', x⟩ rfl
    have happ : (interp pr).app a' b ⟨tyFunc a' b, cast (dom_func a' b).symm φ⟩ ⟨a', x⟩ =
        ⟨b, φ x⟩ := by
      show fn fsFuncApp (some b) [_, _] = _
      simp [fn, appVal]
    rw [happ]
    refine Sigma.ext (hb x).symm ?_
    exact cast_heq _ _
  two_values := by
    have hbool : Dom tyBool = ℤ := by
      have h : tsBool ≠ tsFunc := by decide
      simp [tyBool, Dom, h]
    refine ⟨ofInt tyBool 0, rfl, ?_⟩
    have htrue : (interp pr).boolTrue = ofInt tyBool 1 := rfl
    rw [htrue]
    intro h
    have := congrArg toInt h
    rw [toInt_ofInt hbool, toInt_ofInt hbool] at this
    cases this

end FunSpace

end Why3
