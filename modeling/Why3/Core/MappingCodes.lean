import Why3.Core.FunctionSpaces
import Why3.Core.LambdaOpen

/-!
# Mappings with several codes

An interpretation in which every function is the one of a mapping, and different mappings
can be one function: a mapping is a function on the integers and only its values at even
numbers are used.  The truth values are 0 and 1.
-/

namespace Why3

open Function

variable {ty : Ty}

namespace FunSpace

/-- The place where a mapping has its value for `v`. -/
noncomputable def place (v : Val) : Val := if v.1 = tyInt then ofInt tyInt (2 * toInt v) else v

open Classical in
/-- A truth value, for the type `bool`. -/
noncomputable def clip (ty : Ty) (v : Val) : Val :=
  if ty = tyBool then ofInt tyBool (if toInt v = 1 then 1 else 0) else v

/-- A value of the type. -/
def Member (ty : Ty) (v : Val) : Prop := v.1 = ty ∧ (ty = tyBool → toInt v = 0 ∨ toInt v = 1)

theorem dom_bool : Dom tyBool = ℤ := by
  have h : tsBool ≠ tsFunc := by decide
  simp [tyBool, Dom, h]

theorem ofInt_toInt {v : Val} (h : Dom ty = ℤ) (hv : v.1 = ty) : ofInt ty (toInt v) = v := by
  subst hv
  unfold ofInt toInt
  rw [dif_pos h, dif_pos h, cast_cast, cast_eq]

theorem place_ty (v : Val) : (place v).1 = v.1 := by
  unfold place
  split_ifs with h
  · exact h.symm
  · rfl

theorem place_inj {v w : Val} (hty : v.1 = w.1) (h : place v = place w) : v = w := by
  unfold place at h
  rw [hty] at h
  split_ifs at h with hw
  · have heq := congrArg toInt h
    rw [toInt_ofInt dom_int, toInt_ofInt dom_int] at heq
    rw [← ofInt_toInt dom_int (hty.trans hw), ← ofInt_toInt dom_int hw]
    exact congrArg _ (by omega)
  · exact h

theorem member_clip {ty : Ty} {v : Val} (h : v.1 = ty) : Member ty (clip ty v) := by
  unfold clip
  split_ifs with hty h1
  · exact ⟨hty.symm, fun _ => .inr (toInt_ofInt dom_bool 1)⟩
  · exact ⟨hty.symm, fun _ => .inl (toInt_ofInt dom_bool 0)⟩
  · exact ⟨h, fun hb => absurd hb hty⟩

theorem clip_of_member {v : Val} (h : Member ty v) : clip ty v = v := by
  unfold clip
  split_ifs with hty h1
  · rw [← h1]
    exact ofInt_toInt dom_bool (h.1.trans hty)
  · rw [← (h.2 hty).resolve_right h1]
    exact ofInt_toInt dom_bool (h.1.trans hty)
  · rfl

namespace Coded

/-- The symbols, with a mapping read at the place of its argument. -/
noncomputable def fn (s : LSymbol) (ty : Option Ty) (dl : List Val) : Val :=
  match ty, dl with
  | some b, [f, x] => clip b (if s = fsFuncApp then appVal b f (place x) else ofInt b 0)
  | some b, _ => clip b (if s = fsBoolTrue then ofInt b 1 else ofInt b 0)
  | none, _ => ofInt tyInt 0

theorem appVal_ty (b : Ty) (f x : Val) : (appVal b f x).1 = b := by
  unfold appVal
  split_ifs <;> rfl

theorem member_fn (s : LSymbol) (b : Ty) (dl : List Val) : Member b (fn s (some b) dl) := by
  unfold fn
  split
  · next b' f x heq =>
      obtain rfl := Option.some.inj heq
      apply member_clip
      split_ifs
      · exact appVal_ty _ _ _
      · rfl
  · next heq _ =>
      obtain rfl := Option.some.inj heq
      apply member_clip
      split_ifs <;> rfl
  · next heq => cases heq

/-- The mappings that are chosen first: at the odd number 1, where no application reads
them, one of integers has the value 1, and one of mappings, at 0, a mapping with the value 0. -/
def Preferred (v : Val) : Prop :=
  (v.1 = tyFunc tyInt tyInt → appVal tyInt v (ofInt tyInt 1) = ofInt tyInt 1) ∧
    (v.1 = tyFunc tyInt (tyFunc tyInt tyInt) →
      appVal tyInt (appVal (tyFunc tyInt tyInt) v (ofInt tyInt 0)) (ofInt tyInt 1) = ofInt tyInt 0)

open Classical in
noncomputable def eps (ty : Ty) (P : Val → Prop) : Val :=
  if h : ∃ d, (Member ty d ∧ P d) ∧ Preferred d then h.choose
  else if h : ∃ d, Member ty d ∧ P d then h.choose
  else clip ty ⟨ty, dflt ty⟩

theorem eps_member (ty : Ty) (P : Val → Prop) : Member ty (eps ty P) := by
  unfold eps
  split_ifs with h₁ h₂
  · exact h₁.choose_spec.1.1
  · exact h₂.choose_spec.1
  · exact member_clip rfl

theorem eps_spec {P : Val → Prop} (h : ∃ d, Member ty d ∧ P d) : P (eps ty P) := by
  unfold eps
  split_ifs with h₁
  · exact h₁.choose_spec.1.2
  · exact h.choose_spec.2

theorem eps_preferred {P : Val → Prop} (h : ∃ d, (Member ty d ∧ P d) ∧ Preferred d) :
    Preferred (eps ty P) := by
  unfold eps
  rw [dif_pos h]
  exact h.choose_spec.2

noncomputable def interp : Interp (fun _ => []) where
  Val := Val
  mem := Member
  dest _ _ := none
  const _ ty := clip ty (ofInt ty 0)
  fn s _ ty dl := fn s ty dl
  pr _ _ _ := False
  eps := eps
  dest_mem := fun _ h => by cases h
  dest_some := fun _ h => absurd (constrsOf_nil _) h
  con := fun h => absurd h (by simp [constrsOf_nil])
  inhabited := fun ty => ⟨_, @member_clip ty ⟨ty, dflt ty⟩ rfl⟩
  const_mem := fun _ _ => member_clip rfl
  fn_mem := fun _ _ => member_fn _ _ _
  fn_constr := fun h => absurd h (by simp [constrsOf_nil])
  dest_inj := fun _ _ h => by cases h
  eps_mem := eps_member
  eps_spec := eps_spec

theorem boolTrue_eq : interp.boolTrue = ofInt tyBool 1 := by
  show clip tyBool (ofInt tyBool 1) = _
  exact clip_of_member ⟨rfl, fun _ => .inr (toInt_ofInt dom_bool 1)⟩

theorem twoValued_interp : interp.TwoValued := by
  rintro d ⟨hty, hd⟩
  have hfalse : interp.fn fsBoolFalse [] (some tyBool) [] = ofInt tyBool 0 := by
    have hne : fsBoolFalse ≠ fsBoolTrue := by decide
    show clip tyBool (if fsBoolFalse = fsBoolTrue then ofInt tyBool 1 else ofInt tyBool 0) = _
    rw [if_neg hne]
    exact clip_of_member ⟨rfl, fun _ => .inl (toInt_ofInt dom_bool 0)⟩
  rw [boolTrue_eq, hfalse]
  rcases hd rfl with h | h
  · exact .inr (by rw [← h, ofInt_toInt dom_bool hty])
  · exact .inl (by rw [← h, ofInt_toInt dom_bool hty])

/-- The application of a mapping. -/
theorem app_eq (a b : Ty) (φ d : Val) : interp.app a b φ d = clip b (appVal b φ (place d)) := by
  show clip b (if fsFuncApp = fsFuncApp then appVal b φ (place d) else ofInt b 0) = _
  rw [if_pos rfl]

/-- A mapping with the given values, at all places. -/
theorem exists_appVal {a b : Ty} {g : Val → Val} (hg : ∀ v, v.1 = a → (g v).1 = b) :
    ∃ φ : Val, φ.1 = tyFunc a b ∧ ∀ v, v.1 = a → appVal b φ v = g v :=
  (fullFunctions_interp (fun _ _ _ => False)).comprehension a b g hg

theorem member_func {a b : Ty} {φ : Val} (h : φ.1 = tyFunc a b) : Member (tyFunc a b) φ :=
  ⟨h, fun hb => by cases hb⟩

open Classical in
/-- A mapping for a function on the values of the type, and its values at other places. -/
theorem exists_code {a b : Ty} {g o : Val → Val} (hg : ∀ d, Member a d → Member b (g d))
    (ho : ∀ v, v.1 = a → (o v).1 = b) :
    ∃ φ, Member (tyFunc a b) φ ∧ (∀ d, Member a d → interp.app a b φ d = g d) ∧
      ∀ v, v.1 = a → (¬ ∃ d, Member a d ∧ place d = v) → appVal b φ v = o v := by
  obtain ⟨φ, hφ, happ⟩ := @exists_appVal a b
    (fun v => if h : ∃ d, Member a d ∧ place d = v then g h.choose else o v) (fun v hv => by
      split_ifs with h
      · exact (hg _ h.choose_spec.1).1
      · exact ho v hv)
  refine ⟨φ, member_func hφ, fun d hd => ?_, fun v hv hno => ?_⟩
  · have hex : ∃ d', Member a d' ∧ place d' = place d := ⟨d, hd, rfl⟩
    have hchoose : hex.choose = d :=
      place_inj (hex.choose_spec.1.1.trans hd.1.symm) hex.choose_spec.2
    rw [app_eq, happ _ ((place_ty d).trans hd.1), dif_pos hex, hchoose]
    exact clip_of_member (hg d hd)
  · rw [happ v hv, dif_neg hno]

theorem fullFunctions : interp.FullFunctions where
  comprehension := by
    intro a b g hg
    obtain ⟨φ, hφ, happ, -⟩ := @exists_code a b g (fun _ => ⟨b, dflt b⟩) hg (fun _ _ => rfl)
    exact ⟨φ, hφ, happ⟩
  two_values := by
    refine ⟨ofInt tyBool 0, ⟨rfl, fun _ => .inl (toInt_ofInt dom_bool 0)⟩, ?_⟩
    rw [boolTrue_eq]
    intro h
    have heq := congrArg toInt h
    rw [toInt_ofInt dom_bool, toInt_ofInt dom_bool] at heq
    cases heq

/-! ## Lambdas -/

theorem preferred_lambda {vl : List VSymbol} {t : Term} (hne : vl ≠ []) (ht : t.Wt (fun _ => []))
    {ρ : interp.Env} (hρ : interp.Typed ρ)
    (h : ∃ d, Member (tyFuncL vl (t.tTy.getD tyBool)) d ∧ interp.HasBody vl t d ρ ∧ Preferred d) :
    Preferred (interp.eval ρ (lambda vl [] t)) := by
  obtain ⟨d, hd, hcomp, hpref⟩ := h
  rw [lambda_eq hne, Interp.eval_teps]
  exact eps_preferred ⟨d, ⟨hd, (Interp.holds_lambda_iff ht hρ hd).mpr hcomp⟩, hpref⟩

theorem member_int (n : ℤ) : Member tyInt (ofInt tyInt n) := ⟨rfl, fun h => by cases h⟩

theorem place_zero : place (ofInt tyInt 0) = ofInt tyInt 0 := by
  have hty : (ofInt tyInt 0).1 = tyInt := rfl
  rw [place, if_pos hty, toInt_ofInt dom_int]
  rfl

/-- The number 1 is not where a mapping has a value. -/
theorem not_place_one : ¬ ∃ d, Member tyInt d ∧ place d = ofInt tyInt 1 := by
  rintro ⟨d, hd, h⟩
  rw [place, if_pos hd.1] at h
  have heq := congrArg toInt h
  rw [toInt_ofInt dom_int, toInt_ofInt dom_int] at heq
  omega

theorem func_ne : tyFunc tyInt tyInt ≠ tyFunc tyInt (tyFunc tyInt tyInt) := by
  intro h
  simp only [tyFunc, Ty.tyapp.injEq, List.cons.injEq, and_true, true_and] at h
  cases h

theorem exists_identity (n : ℤ) : ∃ φ, Member (tyFunc tyInt tyInt) φ ∧
    (∀ d, Member tyInt d → interp.app tyInt tyInt φ d = d) ∧
    appVal tyInt φ (ofInt tyInt 1) = ofInt tyInt n := by
  obtain ⟨φ, hφ, happ, hother⟩ := @exists_code tyInt tyInt id (fun _ => ofInt tyInt n)
    (fun _ hd => hd) (fun _ _ => rfl)
  exact ⟨φ, hφ, happ, hother _ rfl not_place_one⟩

theorem identity_at_one {y : VSymbol} (hy : y.vsTy = tyInt) {ρ : interp.Env}
    (hρ : interp.Typed ρ) :
    appVal tyInt (interp.eval ρ (lambda [y] [] (.tvar [] y))) (ofInt tyInt 1) = ofInt tyInt 1 := by
  obtain ⟨φ, hφ, happ, hone⟩ := exists_identity 1
  have htyL : tyFuncL [y] ((Term.tvar [] y).tTy.getD tyBool) = tyFunc tyInt tyInt := by
    simp [tyFuncL, Term.tTy, hy]
  have hpref := @preferred_lambda [y] (.tvar [] y) (by simp) trivial ρ hρ
    ⟨φ, by rw [htyL]; exact hφ, ?_, fun _ => hone, fun h => absurd (hφ.1.symm.trans h) func_ne⟩
  · obtain ⟨hwt, hty⟩ := @Interp.wt_lambda_of_ne (fun _ => []) [y] [] (.tvar [] y) (by simp)
      (by simp) trivial
    rw [htyL] at hty
    exact hpref.1 (Interp.eval_mem hwt hty hρ).1
  · intro d hd
    have hself : update ρ y d y = d := update_self ..
    show interp.app y.vsTy (tyFuncL [] y.vsTy) φ (update ρ y d y) = update ρ y d y
    rw [hself]
    have hd' : Member tyInt d := hy ▸ hd
    have := happ d hd'
    rwa [tyFuncL, List.foldr_nil, hy]

/-- The function with two variables and the second one as its value is chosen with another
code of the identity. -/
theorem second_at_zero {x y : VSymbol} (hx : x.vsTy = tyInt) (hy : y.vsTy = tyInt) (hxy : x ≠ y)
    {ρ : interp.Env} (hρ : interp.Typed ρ) :
    appVal tyInt (interp.app tyInt (tyFunc tyInt tyInt)
      (interp.eval ρ (lambda [x, y] [] (.tvar [] y))) (ofInt tyInt 0)) (ofInt tyInt 1) =
      ofInt tyInt 0 := by
  obtain ⟨ψ, hψ, happ, hone⟩ := exists_identity 0
  obtain ⟨φ, hφ, happφ, -⟩ := @exists_code tyInt (tyFunc tyInt tyInt) (fun _ => ψ) (fun _ => ψ)
    (fun _ _ => hψ) (fun _ _ => hψ.1)
  have hread : ∀ Φ : Val, interp.app tyInt (tyFunc tyInt tyInt) Φ (ofInt tyInt 0) =
      appVal (tyFunc tyInt tyInt) Φ (ofInt tyInt 0) := by
    intro Φ
    have hne : tyFunc tyInt tyInt ≠ tyBool := by
      intro h
      cases h
    rw [app_eq, place_zero, clip, if_neg hne]
  have htyL : tyFuncL [x, y] ((Term.tvar [] y).tTy.getD tyBool) =
      tyFunc tyInt (tyFunc tyInt tyInt) := by
    simp [tyFuncL, Term.tTy, hx, hy]
  have hpref := @preferred_lambda [x, y] (.tvar [] y) (by simp) trivial ρ hρ
    ⟨φ, by rw [htyL]; exact hφ, ?_, fun h => absurd (h.symm.trans hφ.1) func_ne, fun _ => ?_⟩
  · obtain ⟨hwt, hty⟩ := @Interp.wt_lambda_of_ne (fun _ => []) [x, y] [] (.tvar [] y) (by simp)
      (by simp) trivial
    rw [htyL] at hty
    exact (congrArg (fun v => appVal tyInt v (ofInt tyInt 1)) (hread _)).trans
      (hpref.2 (Interp.eval_mem hwt hty hρ).1)
  · intro d hd e he
    have hvx : update (update ρ x d) y e x = d := by
      rw [update_of_ne hxy, update_self]
    have hvy : update (update ρ x d) y e y = e := update_self ..
    show interp.app y.vsTy (tyFuncL [] y.vsTy) (interp.app x.vsTy (tyFuncL [y] y.vsTy) φ
      (update (update ρ x d) y e x))
      (update (update ρ x d) y e y) = update (update ρ x d) y e y
    rw [hvx, hvy]
    have hd' : Member tyInt d := hx ▸ hd
    have he' : Member tyInt e := hy ▸ he
    simp only [tyFuncL, List.foldr_cons, List.foldr_nil, hx, hy]
    rw [happφ d hd']
    exact happ e he'
  · rw [← hread, happφ _ (member_int 0)]
    exact hone

end Coded

end FunSpace

end Why3
