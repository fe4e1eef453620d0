import Why3.Core.Equiv
import Why3.Lib.Checks
import Why3.Lib.Paired
import Why3.Stdlib.Arith
import Why3.Transform.ReductionBuiltins
import Mathlib.Analysis.SpecialFunctions.Pow.Real

/-!
# The built-in symbols compute what the standard library says

When a built-in function returns a value for a call, the call is equal to this
value in every model of the theory of the symbol, except for a quotient or a rest
of zero by a term that has the value zero: the axioms say nothing of it, and the
reduction engine returns zero.
-/

namespace Why3

open List Term Interp Int RealValue BigInt

variable {r : RealValue} {α : Type} {g : ℤ → ℤ → ℤ} {op : ℤ → ℤ → Bool}

namespace ReductionEngine

open Number

/-! ## The meaning of the symbols -/

/-- The meaning of a symbol on integers and reals. -/
inductive Meaning (K : Type)
  | intOp (g : ℤ → ℤ → ℤ)
  | intUop (g : ℤ → ℤ)
  | intRel (p : ℤ → ℤ → Prop)
  | realOp (g : K → K → K)
  | realUop (g : K → K)
  | realRel (p : K → K → Prop)
  | fromInt (g : ℤ → K)

section Models

variable {K : Type} [Field K] [LinearOrder K]

/-- The symbols of the theories in `built_in_theories`, in a model of these. -/
def meanings (M : StdModel K) : List (List String × String × List (String × Meaning K)) :=
  [(["int"], "Int",
    [(opInfix "+", .intOp (fun x y => x + y)), (opInfix "-", .intOp (fun x y => x - y)),
      (opInfix "*", .intOp (fun x y => x * y)), (opPrefix "-", .intUop (fun x => -x)),
      (opInfix "<", .intRel (fun x y => x < y)), (opInfix "<=", .intRel (fun x y => x ≤ y)),
      (opInfix ">", .intRel (fun x y => y < x)), (opInfix ">=", .intRel (fun x y => y ≤ x))]),
    (["int"], "MinMax",
      [("min", .intOp (fun x y => if x ≤ y then x else y)),
        ("max", .intOp (fun x y => if x ≤ y then y else x))]),
    (["int"], "ComputerDivision", [("div", .intOp M.cdiv), ("mod", .intOp M.cmod)]),
    (["int"], "EuclideanDivision", [("div", .intOp M.ediv), ("mod", .intOp M.emod)]),
    (["real"], "Real",
      [(opPrefix "-", .realUop (fun x => -x)), (opInfix "+", .realOp (fun x y => x + y)),
        (opInfix "-", .realOp (fun x y => x - y)), (opInfix "*", .realOp (fun x y => x * y)),
        (opInfix "<", .realRel (fun x y => x < y)), (opInfix "<=", .realRel (fun x y => x ≤ y)),
        (opInfix ">", .realRel (fun x y => y < x)), (opInfix ">=", .realRel (fun x y => y ≤ x))]),
    (["real"], "FromInt", [("from_int", .fromInt M.fromInt)]),
    (["real"], "PowerReal", [("pow", .realOp M.pow)])]

/-- The divisions among them. -/
def divisions (M : StdModel K) : List (List String × String × String × (ℤ → ℤ → ℤ)) :=
  [(["int"], "ComputerDivision", "div", M.cdiv), (["int"], "ComputerDivision", "mod", M.cmod),
    (["int"], "EuclideanDivision", "div", M.ediv), (["int"], "EuclideanDivision", "mod", M.emod)]

variable {sig : TySymbol → List LSymbol}

/-- The integers and the numbers of `K` as the values of the types `int` and
`real`, with the literals. -/
structure Numbers (I : Interp sig) (K : Type) [Field K] where
  ofInt : ℤ → I.Val
  ofInt_inj : Function.Injective ofInt
  mem_int : ∀ {d}, I.mem tyInt d → ∃ n, d = ofInt n
  const_int : ∀ k n, I.const (.constInt k n) tyInt = ofInt n
  ofReal : K → I.Val
  ofReal_inj : Function.Injective ofReal
  mem_real : ∀ {d}, I.mem tyReal d → ∃ x, d = ofReal x
  const_real : ∀ k r, I.const (.constReal k r) tyReal = ofReal (r.toField K)

variable {I : Interp sig}

/-- The symbol `s` has the given meaning, and the type that belongs to it. -/
def Numbers.Interprets (N : Numbers I K) (s : LSymbol) : Meaning K → Prop
  | .intOp g => s.lsArgs = [tyInt, tyInt] ∧ s.lsValue = some tyInt ∧
      ∀ a b, I.fn s [some tyInt, some tyInt] (some tyInt) [N.ofInt a, N.ofInt b] = N.ofInt (g a b)
  | .intUop g => s.lsArgs = [tyInt] ∧ s.lsValue = some tyInt ∧
      ∀ a, I.fn s [some tyInt] (some tyInt) [N.ofInt a] = N.ofInt (g a)
  | .intRel p => s.lsArgs = [tyInt, tyInt] ∧ s.lsValue = none ∧ s ≠ psEqu ∧
      ∀ a b, I.pr s [some tyInt, some tyInt] [N.ofInt a, N.ofInt b] ↔ p a b
  | .realOp g => s.lsArgs = [tyReal, tyReal] ∧ s.lsValue = some tyReal ∧
      ∀ x y, I.fn s [some tyReal, some tyReal] (some tyReal) [N.ofReal x, N.ofReal y] =
        N.ofReal (g x y)
  | .realUop g => s.lsArgs = [tyReal] ∧ s.lsValue = some tyReal ∧
      ∀ x, I.fn s [some tyReal] (some tyReal) [N.ofReal x] = N.ofReal (g x)
  | .realRel p => s.lsArgs = [tyReal, tyReal] ∧ s.lsValue = none ∧ s ≠ psEqu ∧
      ∀ x y, I.pr s [some tyReal, some tyReal] [N.ofReal x, N.ofReal y] ↔ p x y
  | .fromInt g => s.lsArgs = [tyInt] ∧ s.lsValue = some tyReal ∧
      ∀ a, I.fn s [some tyInt] (some tyReal) [N.ofInt a] = N.ofReal (g a)

/-- The interpretation is a model of the theories, whose symbols are given by
`find` (`Theory.ns_find_ls`). -/
def Numbers.IsModel (N : Numbers I K) (find : List String → String → String → LSymbol)
    (M : StdModel K) : Prop :=
  ∀ th ∈ meanings M, ∀ d ∈ th.2.2, N.Interprets (find th.1 th.2.1 d.1) d.2

/-- The call of `s` is equal to the value `v`. -/
def Equation (I : Interp sig) (ρ : I.Env) (s : LSymbol) (args : List Value) (v : Value) : Prop :=
  match s.lsValue with
  | some ty => I.eval ρ (.tapp [] s (args.map termOfValue) (some ty)) = I.eval ρ (termOfValue v)
  | none => I.Holds ρ (.tapp [] s (args.map termOfValue) none) ↔ I.Holds ρ (termOfValue v)

/-- A quotient or a rest of the literal zero by a term that is zero, in a model
where it is not zero. -/
def ZeroDivisor (N : Numbers I K) (M : StdModel K) (ρ : I.Env) (path : List String)
    (th id : String) (args : List Value) : Prop :=
  ∃ g t1 t2, (path, th, id, g) ∈ divisions M ∧ args = [t1, t2] ∧ isZero t1 = .ok true ∧
    bigIntOfValue t2 = .error .notNum ∧ I.eval ρ (termOfValue t2) = N.ofInt 0 ∧ g 0 0 ≠ 0

end Models

/-! ## Arguments -/

section Arguments

variable {K : Type} [Field K] {sig : TySymbol → List LSymbol} {I : Interp sig}

/-- A value that stands for a term of the given type. -/
def Arg (sig : TySymbol → List LSymbol) (ty : Ty) (a : Value) : Prop :=
  (termOfValue a).tTy = some ty ∧ (termOfValue a).Wt sig

section Calls

variable {s : LSymbol} {args : List Value} {oty : Option Ty} {ty : Ty}

theorem args_one (hclosed : ∀ m, ty.inst m = ty) (hs : s.lsArgs = [ty])
    (hwt : (tapp [] s (args.map termOfValue) oty).Wt sig) :
    ∃ t1, args = [t1] ∧ Arg sig ty t1 := by
  simp only [Wt, wtList_iff] at hwt
  obtain ⟨⟨m, htys, -⟩, hwtl⟩ := hwt
  rw [hs, map_cons, map_nil, hclosed] at htys
  have hlen : args.length = 1 := by simpa using congrArg List.length htys
  obtain ⟨t1, rfl⟩ := length_eq_one_iff.mp hlen
  exact ⟨t1, rfl, (cons.inj htys).1, hwtl _ (by simp)⟩

theorem args_two (hclosed : ∀ m, ty.inst m = ty) (hs : s.lsArgs = [ty, ty])
    (hwt : (tapp [] s (args.map termOfValue) oty).Wt sig) :
    ∃ t1 t2, args = [t1, t2] ∧ Arg sig ty t1 ∧ Arg sig ty t2 := by
  simp only [Wt, wtList_iff] at hwt
  obtain ⟨⟨m, htys, -⟩, hwtl⟩ := hwt
  rw [hs, map_cons, map_cons, map_nil, hclosed] at htys
  have hlen : args.length = 2 := by simpa using congrArg List.length htys
  obtain ⟨t1, t2, rfl⟩ := length_eq_two.mp hlen
  obtain ⟨h1, h2⟩ := cons.inj htys
  exact ⟨t1, t2, rfl, ⟨h1, hwtl _ (by simp)⟩, ⟨(cons.inj h2).1, hwtl _ (by simp)⟩⟩

theorem inst_tyInt (m : Mtv) : tyInt.inst m = tyInt := rfl

theorem inst_tyReal (m : Mtv) : tyReal.inst m = tyReal := rfl

end Calls

variable (N : Numbers I K) {ρ : I.Env} {a : Value}

theorem exists_ofInt (ha : Arg sig tyInt a) (hρ : I.Typed ρ) :
    ∃ n, I.eval ρ (termOfValue a) = N.ofInt n :=
  N.mem_int (eval_mem ha.2 ha.1 hρ)

theorem exists_ofReal (ha : Arg sig tyReal a) (hρ : I.Typed ρ) :
    ∃ x, I.eval ρ (termOfValue a) = N.ofReal x :=
  N.mem_real (eval_mem ha.2 ha.1 hρ)

theorem eval_of_bigIntOfValue {n : ℤ} (h : bigIntOfValue a = .ok n)
    (ha : Arg sig tyInt a) : I.eval ρ (termOfValue a) = N.ofInt n := by
  obtain ⟨hty, -⟩ := ha
  cases a with
  | int m =>
    cases h
    exact N.const_int _ _
  | real r => cases h
  | term t =>
    cases t with
    | tconst at' c ty =>
      cases hty
      cases c with
      | constInt k m =>
        cases h
        exact N.const_int _ _
      | constReal k r => cases h
      | constStr s => cases h
    | _ => cases h

theorem eval_of_realOfValue [LinearOrder K] [IsStrictOrderedRing K] (h : realOfValue a = .ok r)
    (ha : Arg sig tyReal a) : I.eval ρ (termOfValue a) = N.ofReal (r.toField K) := by
  obtain ⟨hty, -⟩ := ha
  cases a with
  | int m => cases h
  | real r' =>
    cases h
    refine (N.const_real _ _).trans (congrArg N.ofReal ?_)
    exact toField_realValue K _ _ _
  | term t =>
    cases t with
    | tconst at' c ty =>
      cases hty
      cases c with
      | constInt k m => cases h
      | constReal k r' =>
        cases h
        exact N.const_real _ _
      | constStr s => cases h
    | _ => cases h

/-! ### Tests -/

theorem testNum_eq_true {num : Result α} {p : α → Bool} (h : testNum num p = .ok true) :
    ∃ n, num = .ok n ∧ p n = true := by
  unfold testNum at h
  split at h
  · exact ⟨_, rfl, Except.ok.inj h⟩
  · cases h
  · cases h

theorem testNum_eq_false {num : Result α} {p : α → Bool} (h : testNum num p = .ok false) :
    num = .error .notNum ∨ ∃ n, num = .ok n ∧ p n = false := by
  unfold testNum at h
  split at h
  · exact .inr ⟨_, rfl, Except.ok.inj h⟩
  · exact .inl rfl
  · cases h

theorem eval_of_isZero (h : isZero a = .ok true) (ha : Arg sig tyInt a) :
    I.eval ρ (termOfValue a) = N.ofInt 0 := by
  obtain ⟨n, hn, h0⟩ := testNum_eq_true h
  rw [eval_of_bigIntOfValue N hn ha, eq_of_beq h0]

theorem eval_of_isOne (h : isOne a = .ok true) (ha : Arg sig tyInt a) :
    I.eval ρ (termOfValue a) = N.ofInt 1 := by
  obtain ⟨n, hn, h1⟩ := testNum_eq_true h
  rw [eval_of_bigIntOfValue N hn ha, eq_of_beq h1]

theorem eval_of_isReal [LinearOrder K] [IsStrictOrderedRing K] (h : isReal a r = .ok true)
    (ha : Arg sig tyReal a) : I.eval ρ (termOfValue a) = N.ofReal (r.toField K) := by
  obtain ⟨r', hr', heq⟩ := testNum_eq_true h
  rw [eval_of_realOfValue N hr' ha, eq_of_beq heq]

theorem bind_ite_eq_ok {c : Result Bool} {a b : Result Value} {v : Value} :
    (c >>= fun x => if x = true then a else b) = .ok v ↔
      (c = .ok true ∧ a = .ok v) ∨ (c = .ok false ∧ b = .ok v) := by
  rcases c with e | ⟨_ | _⟩ <;> simp [bind, Except.bind]

theorem orUndetermined_eq_ok {r : Result α} {v : α} : orUndetermined r = .ok v ↔ r = .ok v := by
  unfold orUndetermined
  split
  · simp
  · rfl

end Arguments

/-! ## Integers -/

section Integers

variable {K : Type} [Field K] {sig : TySymbol → List LSymbol} {I : Interp sig}
variable (N : Numbers I K) {ρ : I.Env} {s : LSymbol} {args : List Value} {v : Value}

theorem equation_intOp (hs : N.Interprets s (.intOp g))
    (hwt : (tapp [] s (args.map termOfValue) s.lsValue).Wt sig) (hρ : I.Typed ρ) :
    ∃ t1 t2 a b, args = [t1, t2] ∧ Arg sig tyInt t1 ∧ Arg sig tyInt t2 ∧
      I.eval ρ (termOfValue t1) = N.ofInt a ∧ I.eval ρ (termOfValue t2) = N.ofInt b ∧
      ∀ v, Equation I ρ s args v ↔ I.eval ρ (termOfValue v) = N.ofInt (g a b) := by
  obtain ⟨hargs, hval, hfn⟩ := hs
  obtain ⟨t1, t2, rfl, h1, h2⟩ := args_two inst_tyInt hargs hwt
  obtain ⟨a, ha⟩ := exists_ofInt N h1 hρ
  obtain ⟨b, hb⟩ := exists_ofInt N h2 hρ
  refine ⟨t1, t2, a, b, rfl, h1, h2, ha, hb, fun v => ?_⟩
  simp only [Equation, hval, eval_tapp, map_cons, map_nil, h1.1, h2.1, ha, hb, hfn]
  exact eq_comm

variable {simpl : Value → Value → Result Value}

/-- A binary operation is computed on two literals, or simplified. -/
theorem evalIntOp_eq_ok {op : ℤ → ℤ → Result ℤ} {t1 t2 : Value}
    (h : evalIntOp op simpl [t1, t2] = .ok v) :
    (∃ n1 n2 n, bigIntOfValue t1 = .ok n1 ∧ bigIntOfValue t2 = .ok n2 ∧ op n1 n2 = .ok n ∧
      v = .int n) ∨
    ((∀ n1 n2 n, bigIntOfValue t1 = .ok n1 → bigIntOfValue t2 = .ok n2 → op n1 n2 ≠ .ok n) ∧
      simpl t1 t2 = .ok v) := by
  have hno : ∀ {e}, (do op (← bigIntOfValue t1) (← bigIntOfValue t2)) = .error e →
      ∀ n1 n2 n, bigIntOfValue t1 = .ok n1 → bigIntOfValue t2 = .ok n2 → op n1 n2 ≠ .ok n := by
    intro e he n1 n2 n h1 h2 hn
    rw [h1, h2] at he
    simp only [bind, Except.bind, hn] at he
    cases he
  simp only [evalIntOp] at h
  split at h
  · next n hn =>
      obtain ⟨n1, h1, hn⟩ := Checks.bind_eq_ok.mp hn
      obtain ⟨n2, h2, hn⟩ := Checks.bind_eq_ok.mp hn
      exact .inl ⟨n1, n2, n, h1, h2, hn, (Except.ok.inj h).symm⟩
  · next he => exact .inr ⟨hno he, h⟩
  · next he => exact .inr ⟨hno he, h⟩
  · cases h

/-- A built-in operation whose simplifications are right. -/
theorem equation_evalIntOp {op : ℤ → ℤ → Result ℤ} (hs : N.Interprets s (.intOp g))
    (hwt : (tapp [] s (args.map termOfValue) s.lsValue).Wt sig) (hρ : I.Typed ρ)
    (hop : ∀ n1 n2 n, op n1 n2 = .ok n → n = g n1 n2)
    (hsimpl : ∀ t1 t2 v a b, simpl t1 t2 = .ok v → Arg sig tyInt t1 → Arg sig tyInt t2 →
      I.eval ρ (termOfValue t1) = N.ofInt a → I.eval ρ (termOfValue t2) = N.ofInt b →
      I.eval ρ (termOfValue v) = N.ofInt (g a b))
    (h : evalIntOp op simpl args = .ok v) : Equation I ρ s args v := by
  obtain ⟨t1, t2, a, b, rfl, h1, h2, ha, hb, hequ⟩ := equation_intOp N hs hwt hρ
  rw [hequ]
  rcases evalIntOp_eq_ok h with ⟨n1, n2, n, hn1, hn2, hn, rfl⟩ | ⟨-, hv⟩
  · rw [eval_of_bigIntOfValue N hn1 h1] at ha
    rw [eval_of_bigIntOfValue N hn2 h2] at hb
    rw [← N.ofInt_inj ha, ← N.ofInt_inj hb, ← hop n1 n2 n hn]
    exact N.const_int _ _
  · exact hsimpl t1 t2 v a b hv h1 h2 ha hb

/-! ### Simplifications -/

section Simpl

variable {t1 t2 : Value} {a b : ℤ} (h1 : Arg sig tyInt t1) (h2 : Arg sig tyInt t2)
variable (ha : I.eval ρ (termOfValue t1) = N.ofInt a) (hb : I.eval ρ (termOfValue t2) = N.ofInt b)

include h1 h2 ha hb

theorem eval_simplAdd (h : simplAdd t1 t2 = .ok v) :
    I.eval ρ (termOfValue v) = N.ofInt (a + b) := by
  simp only [simplAdd, bind_ite_eq_ok] at h
  rcases h with ⟨hz, hv⟩ | ⟨-, ⟨hz, hv⟩ | ⟨-, hv⟩⟩
  · cases hv
    obtain rfl : a = 0 := N.ofInt_inj (ha.symm.trans (eval_of_isZero N hz h1))
    rw [hb, zero_add]
  · cases hv
    obtain rfl : b = 0 := N.ofInt_inj (hb.symm.trans (eval_of_isZero N hz h2))
    rw [ha, add_zero]
  · cases hv

theorem eval_simplSub (h : simplSub t1 t2 = .ok v) :
    I.eval ρ (termOfValue v) = N.ofInt (a - b) := by
  simp only [simplSub, bind_ite_eq_ok] at h
  rcases h with ⟨hz, hv⟩ | ⟨-, hv⟩
  · cases hv
    obtain rfl : b = 0 := N.ofInt_inj (hb.symm.trans (eval_of_isZero N hz h2))
    rw [ha, sub_zero]
  · cases hv

theorem eval_simplMul (h : simplMul t1 t2 = .ok v) :
    I.eval ρ (termOfValue v) = N.ofInt (a * b) := by
  simp only [simplMul, bind_ite_eq_ok] at h
  rcases h with ⟨hz, hv⟩ | ⟨-, ⟨hz, hv⟩ | ⟨-, ⟨ho, hv⟩ | ⟨-, ⟨ho, hv⟩ | ⟨-, hv⟩⟩⟩⟩
  · cases hv
    obtain rfl : a = 0 := N.ofInt_inj (ha.symm.trans (eval_of_isZero N hz h1))
    rw [ha, zero_mul]
  · cases hv
    obtain rfl : b = 0 := N.ofInt_inj (hb.symm.trans (eval_of_isZero N hz h2))
    rw [hb, mul_zero]
  · cases hv
    obtain rfl : a = 1 := N.ofInt_inj (ha.symm.trans (eval_of_isOne N ho h1))
    rw [hb, one_mul]
  · cases hv
    obtain rfl : b = 1 := N.ofInt_inj (hb.symm.trans (eval_of_isOne N ho h2))
    rw [ha, mul_one]
  · cases hv

theorem eval_simplMinmax (hlit : I.LitExt) (g : ℤ → ℤ → ℤ) (hg : ∀ n, g n n = n)
    (h : simplMinmax t1 t2 = .ok v) : I.eval ρ (termOfValue v) = N.ofInt (g a b) := by
  unfold simplMinmax at h
  split at h
  · next u1 u2 =>
      split_ifs at h with heq
      cases h
      have hsame : I.eval ρ u1 = I.eval ρ u2 :=
        congrArg Den.val (I.sem_tEqual hlit h1.2 h2.2 heq ρ)
      obtain rfl : a = b := N.ofInt_inj (ha.symm.trans (hsame.trans hb))
      rw [hg]
      exact ha
  · cases h

end Simpl

/-- What `simpl_div` and `simpl_mod` return: zero for the dividend zero, unless
the divisor is a literal zero, and the value `w` for the divisor one. -/
theorem equation_division {op : ℤ → ℤ → ℤ}
    (hs : N.Interprets s (.intOp g))
    (hwt : (tapp [] s (args.map termOfValue) s.lsValue).Wt sig) (hρ : I.Typed ρ)
    (hg : ∀ {x y}, y ≠ 0 → g x y = op x y) (h0 : ∀ y, op 0 y = 0)
    (hsimpl : ∀ {t1 t2 v}, simpl t1 t2 = .ok v → isZero t2 = .ok false ∧
      (isZero t1 = .ok true ∧ v = t1 ∨ isOne t2 = .ok true ∧
        ∀ a, I.eval ρ (termOfValue t1) = N.ofInt a → I.eval ρ (termOfValue v) = N.ofInt (op a 1)))
    (h : evalIntOp (division op) simpl args = .ok v) :
    Equation I ρ s args v ↔ ¬ ∃ t1 t2, args = [t1, t2] ∧ isZero t1 = .ok true ∧
      bigIntOfValue t2 = .error .notNum ∧ I.eval ρ (termOfValue t2) = N.ofInt 0 ∧ g 0 0 ≠ 0 := by
  obtain ⟨t1, t2, a, b, rfl, h1, h2, ha, hb, hequ⟩ := equation_intOp N hs hwt hρ
  rw [hequ]
  -- a divisor that is a literal is not the one that goes wrong
  have hnum : ∀ {n}, bigIntOfValue t2 = .ok n → I.eval ρ (termOfValue v) = N.ofInt (g a b) →
      (I.eval ρ (termOfValue v) = N.ofInt (g a b) ↔ ¬ ∃ u1 u2, [t1, t2] = [u1, u2] ∧
        isZero u1 = .ok true ∧ bigIntOfValue u2 = .error .notNum ∧
        I.eval ρ (termOfValue u2) = N.ofInt 0 ∧ g 0 0 ≠ 0) := by
    intro n hn hv
    refine ⟨?_, fun _ => hv⟩
    rintro - ⟨u1, u2, heq, -, hu2, -⟩
    cases heq
    rw [hn] at hu2
    cases hu2
  rcases evalIntOp_eq_ok h with ⟨n1, n2, n, hn1, hn2, hn, rfl⟩ | ⟨hno, hv⟩
  · rw [eval_of_bigIntOfValue N hn1 h1] at ha
    have hb' := hb
    rw [eval_of_bigIntOfValue N hn2 h2] at hb'
    obtain rfl := N.ofInt_inj ha
    obtain rfl := N.ofInt_inj hb'
    unfold division at hn
    split_ifs at hn with hz
    cases hn
    apply hnum hn2
    rw [hg hz]
    exact N.const_int _ _
  · obtain ⟨hz2, ⟨hz1, hvt⟩ | ⟨ho, hv⟩⟩ := hsimpl hv
    · obtain rfl : a = 0 := N.ofInt_inj (ha.symm.trans (eval_of_isZero N hz1 h1))
      have hnot : bigIntOfValue t2 = .error .notNum := by
        rcases testNum_eq_false hz2 with hnot | ⟨n, hn, hne⟩
        · exact hnot
        · obtain ⟨n1, hn1, -⟩ := testNum_eq_true hz1
          have hne' : n ≠ 0 := by simpa using hne
          exact absurd (by rw [division, if_neg hne']) (hno n1 n (op n1 n) hn1 hn)
      rw [hvt, ha, N.ofInt_inj.eq_iff]
      by_cases hb0 : b = 0
      · subst hb0
        refine ⟨?_, fun hnex => ?_⟩
        · rintro hg0 ⟨u1, u2, -, -, -, -, hne⟩
          exact hne hg0.symm
        · by_contra hne
          exact hnex ⟨t1, t2, rfl, hz1, hnot, hb, fun hg0 => hne hg0.symm⟩
      · refine ⟨?_, fun _ => by rw [hg hb0, h0]⟩
        rintro - ⟨u1, u2, heq, -, -, hu2, -⟩
        cases heq
        exact hb0 (N.ofInt_inj (hb.symm.trans hu2))
    · obtain ⟨n, hn, -⟩ := testNum_eq_true ho
      obtain rfl : b = 1 := N.ofInt_inj (hb.symm.trans (eval_of_isOne N ho h2))
      apply hnum hn
      rw [hg one_ne_zero]
      exact hv a ha

theorem simplDiv_spec (op : ℤ → ℤ → ℤ) (hop : ∀ a, op a 1 = a) {t1 t2 : Value}
    (h : simplDiv t1 t2 = .ok v) : isZero t2 = .ok false ∧
      (isZero t1 = .ok true ∧ v = t1 ∨ isOne t2 = .ok true ∧
        ∀ a, I.eval ρ (termOfValue t1) = N.ofInt a →
          I.eval ρ (termOfValue v) = N.ofInt (op a 1)) := by
  simp only [simplDiv, bind_ite_eq_ok] at h
  rcases h with ⟨-, hv⟩ | ⟨hz2, ⟨hz1, hv⟩ | ⟨-, ⟨ho, hv⟩ | ⟨-, hv⟩⟩⟩
  · cases hv
  · exact ⟨hz2, .inl ⟨hz1, (Except.ok.inj hv).symm⟩⟩
  · refine ⟨hz2, .inr ⟨ho, fun a ha => ?_⟩⟩
    cases hv
    rw [hop, ha]
  · cases hv

theorem simplMod_spec (op : ℤ → ℤ → ℤ) (hop : ∀ a, op a 1 = 0) {t1 t2 : Value}
    (h : simplMod t1 t2 = .ok v) : isZero t2 = .ok false ∧
      (isZero t1 = .ok true ∧ v = t1 ∨ isOne t2 = .ok true ∧
        ∀ a, I.eval ρ (termOfValue t1) = N.ofInt a →
          I.eval ρ (termOfValue v) = N.ofInt (op a 1)) := by
  simp only [simplMod, bind_ite_eq_ok] at h
  rcases h with ⟨-, hv⟩ | ⟨hz2, ⟨hz1, hv⟩ | ⟨-, ⟨ho, hv⟩ | ⟨-, hv⟩⟩⟩
  · cases hv
  · exact ⟨hz2, .inl ⟨hz1, (Except.ok.inj hv).symm⟩⟩
  · refine ⟨hz2, .inr ⟨ho, fun a _ => ?_⟩⟩
    cases hv
    rw [hop]
    exact N.const_int _ _
  · cases hv

/-! ### Relations and the opposite -/

theorem holds_toBool (b : Bool) : I.Holds ρ (toBool b) ↔ b = true := by
  cases b <;> simp [toBool]

theorem equation_evalIntRel {p : ℤ → ℤ → Prop} (hs : N.Interprets s (.intRel p))
    (hwt : (tapp [] s (args.map termOfValue) s.lsValue).Wt sig) (hop : ∀ a b, op a b = true ↔ p a b)
    (h : evalIntRel op args = .ok v) : Equation I ρ s args v := by
  obtain ⟨hargs, hval, hne, hpr⟩ := hs
  obtain ⟨t1, t2, rfl, h1, h2⟩ := args_two inst_tyInt hargs hwt
  rw [evalIntRel, orUndetermined_eq_ok] at h
  obtain ⟨n1, hn1, h⟩ := Checks.bind_eq_ok.mp h
  obtain ⟨n2, hn2, h⟩ := Checks.bind_eq_ok.mp h
  cases h
  simp only [Equation, hval]
  rw [I.holds_tapp ρ [] hne]
  simp only [map_cons, map_nil, h1.1, h2.1, eval_of_bigIntOfValue N hn1 h1,
    eval_of_bigIntOfValue N hn2 h2, hpr]
  exact (hop n1 n2).symm.trans (holds_toBool _).symm

theorem equation_evalIntUop {g : ℤ → ℤ} (hs : N.Interprets s (.intUop g))
    (hwt : (tapp [] s (args.map termOfValue) s.lsValue).Wt sig)
    (h : evalIntUop g args = .ok v) : Equation I ρ s args v := by
  obtain ⟨hargs, hval, hfn⟩ := hs
  obtain ⟨t1, rfl, h1⟩ := args_one inst_tyInt hargs hwt
  rw [evalIntUop, orUndetermined_eq_ok] at h
  obtain ⟨n1, hn1, h⟩ := Checks.bind_eq_ok.mp h
  cases h
  simp only [Equation, hval, eval_tapp, map_cons, map_nil, h1.1,
    eval_of_bigIntOfValue N hn1 h1, hfn]
  exact (N.const_int _ _).symm

end Integers

/-! ## Reals -/

section Reals

variable {K : Type} [Field K] [LinearOrder K] [IsStrictOrderedRing K]
variable {sig : TySymbol → List LSymbol} {I : Interp sig} (N : Numbers I K) {ρ : I.Env}
variable {s : LSymbol} {args : List Value} {v : Value}

/-! ### Operations on real values -/

section Values

variable (K) (r1 r2 : RealValue)

omit [LinearOrder K] [IsStrictOrderedRing K] in
theorem toField_eq_zero (h : r.rvSig = 0) : r.toField K = 0 := by
  simp [toField, h]

theorem toField_align_min :
    (realAlign (min r1.rvPow2 r2.rvPow2) (min r1.rvPow5 r2.rvPow5) r1 : K) *
        2 ^ min r1.rvPow2 r2.rvPow2 * 5 ^ min r1.rvPow5 r2.rvPow5 = r1.toField K ∧
      (realAlign (min r1.rvPow2 r2.rvPow2) (min r1.rvPow5 r2.rvPow5) r2 : K) *
        2 ^ min r1.rvPow2 r2.rvPow2 * 5 ^ min r1.rvPow5 r2.rvPow5 = r2.toField K :=
  ⟨toField_align K (min_le_left _ _) (min_le_left _ _),
    toField_align K (min_le_right _ _) (min_le_right _ _)⟩

theorem toField_realOpp : (realOpp r1).toField K = -r1.toField K := by
  rw [realOpp, toField_realValue, toField]
  push_cast
  ring

theorem toField_realAdd : (realAdd r1 r2).toField K = r1.toField K + r2.toField K := by
  unfold realAdd
  split_ifs with h1 h2
  · rw [toField_eq_zero K h1, zero_add]
  · rw [toField_eq_zero K h2, add_zero]
  · obtain ⟨e1, e2⟩ := toField_align_min K r1 r2
    rw [← e1, ← e2, toField_realValue]
    push_cast
    ring

theorem toField_realSub : (realSub r1 r2).toField K = r1.toField K - r2.toField K := by
  unfold realSub
  split_ifs with h2 h1
  · rw [toField_eq_zero K h2, sub_zero]
  · rw [toField_eq_zero K h1, toField_realValue, toField]
    push_cast
    ring
  · obtain ⟨e1, e2⟩ := toField_align_min K r1 r2
    rw [← e1, ← e2, toField_realValue]
    push_cast
    ring

theorem toField_realMul : (realMul r1 r2).toField K = r1.toField K * r2.toField K := by
  rw [realMul, toField_realValue, zpow_add₀ two_ne_zero, zpow_add₀ (by norm_num : (5 : K) ≠ 0)]
  simp only [toField]
  push_cast
  ring

theorem toField_real0 : real0.toField K = 0 := by
  rw [real0, toField_realValue]
  simp

theorem toField_real1 : real1.toField K = 1 := by
  rw [real1, toField_realValue]
  simp

theorem scale_pos (p2 p5 : ℤ) : (0 : K) < 2 ^ p2 * 5 ^ p5 := by positivity

theorem toField_pos_iff : 0 < r1.toField K ↔ 0 < r1.rvSig := by
  rw [toField, mul_assoc, mul_pos_iff_of_pos_right (scale_pos K _ _), cast_pos]

theorem toField_neg_iff : r1.toField K < 0 ↔ r1.rvSig < 0 := by
  rw [toField, mul_assoc, mul_neg_iff]
  simp [scale_pos K r1.rvPow2 r1.rvPow5, not_lt.mpr (scale_pos K r1.rvPow2 r1.rvPow5).le]

theorem toField_of_equal (h : r1.equal r2 = true) : r1.toField K = r2.toField K := by
  obtain ⟨e1, e2⟩ := toField_align_min K r1 r2
  have heq := of_decide_eq_true h
  rw [← mul_assoc, ← mul_assoc] at heq
  rw [← e1, ← e2, realAlign, realAlign, heq]

theorem alignBoth_swap : alignBoth r2 r1 = ((alignBoth r1 r2).2, (alignBoth r1 r2).1) := by
  simp only [alignBoth, min_comm r2.rvPow2, min_comm r2.rvPow5, ne_comm (a := r2.rvSig.sign)]
  split_ifs <;> rfl

/-- The order of the integers that are compared is that of the real values. -/
theorem alignBoth_lt : (alignBoth r1 r2).1 < (alignBoth r1 r2).2 ↔ r1.toField K < r2.toField K := by
  unfold alignBoth
  split_ifs with hsign
  · have hp1 := toField_pos_iff K r1
    have hp2 := toField_pos_iff K r2
    have hn1 := toField_neg_iff K r1
    have hn2 := toField_neg_iff K r2
    show r1.rvSig < r2.rvSig ↔ _
    -- the signs differ, and decide on both sides
    rcases lt_trichotomy r1.rvSig 0 with h1 | h1 | h1
    · have h2 : 0 ≤ r2.rvSig := by
        by_contra hneg
        exact hsign (by rw [sign_eq_neg_one_of_neg h1, sign_eq_neg_one_of_neg (by omega)])
      have h2' : 0 ≤ r2.toField K := not_lt.mp (fun hlt => by have := hn2.mp hlt; omega)
      exact ⟨fun _ => lt_of_lt_of_le (hn1.mpr h1) h2', fun _ => by omega⟩
    · rw [h1, toField_eq_zero K h1]
      exact hp2.symm
    · have h2 : r2.rvSig ≤ 0 := by
        by_contra hpos
        exact hsign (by rw [sign_eq_one_of_pos h1, sign_eq_one_of_pos (by omega)])
      have h2' : r2.toField K ≤ 0 := not_lt.mp (fun hlt => by have := hp2.mp hlt; omega)
      exact ⟨fun _ => by omega, fun hlt => absurd (lt_of_lt_of_le hlt h2') (hp1.mpr h1).le.not_gt⟩
  · obtain ⟨e1, e2⟩ := toField_align_min K r1 r2
    rw [← e1, ← e2, mul_assoc, mul_assoc, mul_lt_mul_iff_of_pos_right (scale_pos K _ _),
      cast_lt]

theorem alignBoth_gt : (alignBoth r1 r2).2 < (alignBoth r1 r2).1 ↔ r2.toField K < r1.toField K := by
  have h := alignBoth_lt K r2 r1
  rwa [alignBoth_swap] at h

omit [LinearOrder K] [IsStrictOrderedRing K] in
/-- What `real_pow` computes: the exponent is an integer `n`. -/
theorem realPow_eq_ok {isInt : ℤ → Bool} (h : realPow isInt r1 r2 = .ok r) :
    0 < r1.rvSig ∧ ∃ n s : ℤ, r2.toField K = n ∧ (s : K) = r1.rvSig ^ n ∧
      r = realValue (r1.rvPow2 * n) (r1.rvPow5 * n) s := by
  simp only [realPow] at h
  split_ifs at h with hs hp hi h1 hneg
  all_goals
    push Not at hs hp
    have hexp : r2.toField K =
        ((r2.rvSig * 2 ^ r2.rvPow2.toNat * 5 ^ r2.rvPow5.toNat : ℤ) : K) := by
      rw [toField]
      push_cast
      rw [← zpow_natCast, ← zpow_natCast, toNat_of_nonneg hp.1, toNat_of_nonneg hp.2]
  · exact ⟨hs, _, 1, hexp, by rw [h1, cast_one, one_zpow], (Except.ok.inj h).symm⟩
  · refine ⟨hs, _, _, hexp, ?_, (Except.ok.inj h).symm⟩
    rw [cast_pow, ← zpow_natCast, toNat_of_nonneg (not_lt.mp hneg)]

theorem toField_realPow (M : StdModel K) {isInt : ℤ → Bool} (h : realPow isInt r1 r2 = .ok r) :
    r.toField K = M.pow (r1.toField K) (r2.toField K) := by
  obtain ⟨hpos, n, s, hn, hs, rfl⟩ := realPow_eq_ok K r1 r2 h
  rw [hn, M.pow_int ((toField_pos_iff K r1).mpr hpos), toField_realValue, hs, toField,
    mul_zpow, mul_zpow, ← zpow_mul, ← zpow_mul]

end Values

/-! ### Calls -/

theorem evalRealOp_eq_ok {op : RealValue → RealValue → Result RealValue}
    {simpl : Value → Value → Result Value} {t1 t2 : Value}
    (h : evalRealOp op simpl [t1, t2] = .ok v) :
    (∃ r1 r2 r, realOfValue t1 = .ok r1 ∧ realOfValue t2 = .ok r2 ∧ op r1 r2 = .ok r ∧
      v = .real r) ∨ simpl t1 t2 = .ok v := by
  simp only [evalRealOp] at h
  split at h
  · next r hr =>
      obtain ⟨r1, h1, hr⟩ := Checks.bind_eq_ok.mp hr
      obtain ⟨r2, h2, hr⟩ := Checks.bind_eq_ok.mp hr
      exact .inl ⟨r1, r2, r, h1, h2, hr, (Except.ok.inj h).symm⟩
  · exact .inr h
  · cases h

theorem eval_real (r : RealValue) :
    I.eval ρ (termOfValue (.real r)) = N.ofReal (r.toField K) :=
  (N.const_real _ _).trans (congrArg N.ofReal (toField_realValue K _ _ _))

theorem equation_evalRealOp {g : K → K → K} {op : RealValue → RealValue → Result RealValue}
    {simpl : Value → Value → Result Value} (hs : N.Interprets s (.realOp g))
    (hwt : (tapp [] s (args.map termOfValue) s.lsValue).Wt sig) (hρ : I.Typed ρ)
    (hop : ∀ r1 r2 r, op r1 r2 = .ok r → r.toField K = g (r1.toField K) (r2.toField K))
    (hsimpl : ∀ t1 t2 v x y, simpl t1 t2 = .ok v → Arg sig tyReal t1 → Arg sig tyReal t2 →
      I.eval ρ (termOfValue t1) = N.ofReal x → I.eval ρ (termOfValue t2) = N.ofReal y →
      I.eval ρ (termOfValue v) = N.ofReal (g x y))
    (h : evalRealOp op simpl args = .ok v) : Equation I ρ s args v := by
  obtain ⟨hargs, hval, hfn⟩ := hs
  obtain ⟨t1, t2, rfl, h1, h2⟩ := args_two inst_tyReal hargs hwt
  obtain ⟨x, hx⟩ := exists_ofReal N h1 hρ
  obtain ⟨y, hy⟩ := exists_ofReal N h2 hρ
  simp only [Equation, hval, eval_tapp, map_cons, map_nil, h1.1, h2.1, hx, hy, hfn]
  symm
  rcases evalRealOp_eq_ok h with ⟨r1, r2, r, hr1, hr2, hr, rfl⟩ | hv
  · rw [eval_of_realOfValue N hr1 h1] at hx
    rw [eval_of_realOfValue N hr2 h2] at hy
    rw [← N.ofReal_inj hx, ← N.ofReal_inj hy, ← hop r1 r2 r hr]
    exact eval_real N r
  · exact hsimpl t1 t2 v x y hv h1 h2 hx hy

theorem equation_evalRealRel {p : K → K → Prop}
    (hs : N.Interprets s (.realRel p))
    (hwt : (tapp [] s (args.map termOfValue) s.lsValue).Wt sig)
    (hop : ∀ r1 r2, op (alignBoth r1 r2).1 (alignBoth r1 r2).2 = true ↔
      p (r1.toField K) (r2.toField K)) (h : evalRealRel op args = .ok v) :
    Equation I ρ s args v := by
  obtain ⟨hargs, hval, hne, hpr⟩ := hs
  obtain ⟨t1, t2, rfl, h1, h2⟩ := args_two inst_tyReal hargs hwt
  rw [evalRealRel, orUndetermined_eq_ok] at h
  obtain ⟨r1, hr1, h⟩ := Checks.bind_eq_ok.mp h
  obtain ⟨r2, hr2, h⟩ := Checks.bind_eq_ok.mp h
  cases h
  simp only [Equation, hval]
  rw [I.holds_tapp ρ [] hne]
  simp only [map_cons, map_nil, h1.1, h2.1, eval_of_realOfValue N hr1 h1,
    eval_of_realOfValue N hr2 h2, hpr]
  exact (hop r1 r2).symm.trans (holds_toBool _).symm

theorem equation_evalRealUop {g : K → K} {op : RealValue → RealValue}
    (hs : N.Interprets s (.realUop g))
    (hwt : (tapp [] s (args.map termOfValue) s.lsValue).Wt sig)
    (hop : ∀ r : RealValue, (op r).toField K = g (r.toField K)) (h : evalRealUop op args = .ok v) :
    Equation I ρ s args v := by
  obtain ⟨hargs, hval, hfn⟩ := hs
  obtain ⟨t1, rfl, h1⟩ := args_one inst_tyReal hargs hwt
  rw [evalRealUop, orUndetermined_eq_ok] at h
  obtain ⟨r1, hr1, h⟩ := Checks.bind_eq_ok.mp h
  cases h
  simp only [Equation, hval, eval_tapp, map_cons, map_nil, h1.1,
    eval_of_realOfValue N hr1 h1, hfn, ← hop]
  exact (eval_real N _).symm

theorem equation_realFromInt {g : ℤ → K} (hg : ∀ n, g n = n) (hs : N.Interprets s (.fromInt g))
    (hwt : (tapp [] s (args.map termOfValue) s.lsValue).Wt sig)
    (h : realFromInt args = .ok v) : Equation I ρ s args v := by
  obtain ⟨hargs, hval, hfn⟩ := hs
  obtain ⟨t1, rfl, h1⟩ := args_one inst_tyInt hargs hwt
  rw [realFromInt, orUndetermined_eq_ok] at h
  obtain ⟨n, hn, h⟩ := Checks.bind_eq_ok.mp h
  cases h
  simp only [Equation, hval, eval_tapp, map_cons, map_nil, h1.1,
    eval_of_bigIntOfValue N hn h1, hfn]
  rw [eval_real N, toField_realValue, hg, zpow_zero, zpow_zero, mul_one, mul_one]

/-! ### Simplifications -/

section Simpl

variable {t1 t2 : Value} {x y : K} (h1 : Arg sig tyReal t1) (h2 : Arg sig tyReal t2)
variable (hx : I.eval ρ (termOfValue t1) = N.ofReal x)
variable (hy : I.eval ρ (termOfValue t2) = N.ofReal y)

include h1 h2 hx hy

theorem eval_simplRealAdd (h : simplRealAdd t1 t2 = .ok v) :
    I.eval ρ (termOfValue v) = N.ofReal (x + y) := by
  simp only [simplRealAdd, bind_ite_eq_ok] at h
  rcases h with ⟨hz, hv⟩ | ⟨-, ⟨hz, hv⟩ | ⟨-, hv⟩⟩
  · cases hv
    rw [N.ofReal_inj (hx.symm.trans (eval_of_isReal N hz h1)), hy, toField_real0, zero_add]
  · cases hv
    rw [N.ofReal_inj (hy.symm.trans (eval_of_isReal N hz h2)), hx, toField_real0, add_zero]
  · cases hv

theorem eval_simplRealSub (h : simplRealSub t1 t2 = .ok v) :
    I.eval ρ (termOfValue v) = N.ofReal (x - y) := by
  simp only [simplRealSub, bind_ite_eq_ok] at h
  rcases h with ⟨hz, hv⟩ | ⟨-, hv⟩
  · cases hv
    rw [N.ofReal_inj (hy.symm.trans (eval_of_isReal N hz h2)), hx, toField_real0, sub_zero]
  · cases hv

theorem eval_simplRealMul (h : simplRealMul t1 t2 = .ok v) :
    I.eval ρ (termOfValue v) = N.ofReal (x * y) := by
  simp only [simplRealMul, bind_ite_eq_ok] at h
  rcases h with ⟨hz, hv⟩ | ⟨-, ⟨hz, hv⟩ | ⟨-, ⟨ho, hv⟩ | ⟨-, ⟨ho, hv⟩ | ⟨-, hv⟩⟩⟩⟩
  · cases hv
    obtain rfl : x = 0 := by
      rw [← toField_real0 K]
      exact N.ofReal_inj (hx.symm.trans (eval_of_isReal N hz h1))
    rw [hx, zero_mul]
  · cases hv
    obtain rfl : y = 0 := by
      rw [← toField_real0 K]
      exact N.ofReal_inj (hy.symm.trans (eval_of_isReal N hz h2))
    rw [hy, mul_zero]
  · cases hv
    rw [N.ofReal_inj (hx.symm.trans (eval_of_isReal N ho h1)), hy, toField_real1, one_mul]
  · cases hv
    rw [N.ofReal_inj (hy.symm.trans (eval_of_isReal N ho h2)), hx, toField_real1, mul_one]
  · cases hv

omit h2 hy in
theorem eval_simplRealPow (M : StdModel K) (h : simplRealPow t1 t2 = .ok v) :
    I.eval ρ (termOfValue v) = N.ofReal (M.pow x y) := by
  simp only [simplRealPow, bind_ite_eq_ok] at h
  rcases h with ⟨ho, hv⟩ | ⟨-, hv⟩
  · cases hv
    obtain rfl : x = 1 := by
      rw [← toField_real1 K]
      exact N.ofReal_inj (hx.symm.trans (eval_of_isReal N ho h1))
    rw [hx, M.one_pow]
  · cases hv

end Simpl

end Reals

/-! ## The table -/

section Table

variable {K : Type} [Field K] [LinearOrder K] [IsStrictOrderedRing K]
variable {sig : TySymbol → List LSymbol} {I : Interp sig} {N : Numbers I K} {ρ : I.Env}

/-- The built-in function `f` computes a symbol of the given meaning, apart from
divisions of zero. -/
def Computes (N : Numbers I K) (M : StdModel K) (ρ : I.Env) (path : List String) (th id : String)
    (f : Builtin) (μ : Meaning K) : Prop :=
  ∀ ⦃s args v⦄, N.Interprets s μ → (tapp [] s (args.map termOfValue) s.lsValue).Wt sig →
    f args = .ok v → (Equation I ρ s args v ↔ ¬ ZeroDivisor N M ρ path th id args)

variable {M : StdModel K} {path : List String} {th id : String} {f : Builtin} {μ : Meaning K}

omit [IsStrictOrderedRing K] in
theorem computes_of_equation (hdiv : th ≠ "ComputerDivision" ∧ th ≠ "EuclideanDivision")
    (h : ∀ {s args v}, N.Interprets s μ →
      (tapp [] s (args.map termOfValue) s.lsValue).Wt sig → f args = .ok v →
      Equation I ρ s args v) : Computes N M ρ path th id f μ := by
  intro s args v hs hwt hv
  refine ⟨?_, fun _ => h hs hwt hv⟩
  rintro - ⟨g, t1, t2, hmem, -⟩
  simp [divisions, hdiv.1, hdiv.2] at hmem

omit [IsStrictOrderedRing K] in
theorem computes_division {op : ℤ → ℤ → ℤ} {simpl : Value → Value → Result Value}
    (hρ : I.Typed ρ) (hmem : ∀ g', (path, th, id, g') ∈ divisions M ↔ g' = g)
    (hg : ∀ {x y}, y ≠ 0 → g x y = op x y) (h0 : ∀ y, op 0 y = 0)
    (hsimpl : ∀ {t1 t2 v}, simpl t1 t2 = .ok v → isZero t2 = .ok false ∧
      (isZero t1 = .ok true ∧ v = t1 ∨ isOne t2 = .ok true ∧
        ∀ a, I.eval ρ (termOfValue t1) = N.ofInt a →
          I.eval ρ (termOfValue v) = N.ofInt (op a 1))) :
    Computes N M ρ path th id (evalIntOp (division op) simpl) (.intOp g) := by
  intro s args v hs hwt hv
  rw [equation_division N hs hwt hρ hg h0 hsimpl hv]
  refine not_congr ⟨?_, ?_⟩
  · rintro ⟨t1, t2, hz⟩
    exact ⟨g, t1, t2, (hmem g).mpr rfl, hz⟩
  · rintro ⟨g', t1, t2, hg', hz⟩
    obtain rfl := (hmem g').mp hg'
    exact ⟨t1, t2, hz⟩

theorem computerDivMod_one (a : ℤ) : computerDivMod a 1 = (a, 0) := by
  simp [computerDivMod]

theorem computerDivMod_zero_left (y : ℤ) : computerDivMod 0 y = (0, 0) := by
  simp [computerDivMod]

omit [IsStrictOrderedRing K] in
theorem computes_intOp {op : ℤ → ℤ → ℤ} {simpl : Value → Value → Result Value}
    (hdiv : th ≠ "ComputerDivision" ∧ th ≠ "EuclideanDivision") (hρ : I.Typed ρ)
    (hop : ∀ a b, op a b = g a b)
    (hsimpl : ∀ {t1 t2 v a b}, Arg sig tyInt t1 → Arg sig tyInt t2 →
      I.eval ρ (termOfValue t1) = N.ofInt a → I.eval ρ (termOfValue t2) = N.ofInt b →
      simpl t1 t2 = .ok v → I.eval ρ (termOfValue v) = N.ofInt (g a b)) :
    Computes N M ρ path th id (evalIntOp (fun x y => .ok (op x y)) simpl) (.intOp g) := by
  refine computes_of_equation hdiv (fun hs hwt => equation_evalIntOp N hs hwt hρ ?_ ?_)
  · intro n1 n2 n h
    rw [← hop, Except.ok.inj h]
  · exact fun t1 t2 v a b h h1 h2 ha hb => hsimpl h1 h2 ha hb h

omit [IsStrictOrderedRing K] in
theorem computes_intRel {p : ℤ → ℤ → Prop}
    (hdiv : th ≠ "ComputerDivision" ∧ th ≠ "EuclideanDivision")
    (hop : ∀ a b, op a b = true ↔ p a b) : Computes N M ρ path th id (evalIntRel op) (.intRel p) :=
  computes_of_equation hdiv (fun hs hwt => equation_evalIntRel N hs hwt hop)

theorem computes_realOp {g : K → K → K} {op : RealValue → RealValue → RealValue}
    {simpl : Value → Value → Result Value}
    (hdiv : th ≠ "ComputerDivision" ∧ th ≠ "EuclideanDivision") (hρ : I.Typed ρ)
    (hop : ∀ r1 r2, (op r1 r2).toField K = g (r1.toField K) (r2.toField K))
    (hsimpl : ∀ {t1 t2 v x y}, Arg sig tyReal t1 → Arg sig tyReal t2 →
      I.eval ρ (termOfValue t1) = N.ofReal x → I.eval ρ (termOfValue t2) = N.ofReal y →
      simpl t1 t2 = .ok v → I.eval ρ (termOfValue v) = N.ofReal (g x y)) :
    Computes N M ρ path th id (evalRealOp (fun x y => .ok (op x y)) simpl) (.realOp g) := by
  refine computes_of_equation hdiv (fun hs hwt => equation_evalRealOp N hs hwt hρ ?_ ?_)
  · intro r1 r2 r h
    rw [← hop, Except.ok.inj h]
  · exact fun t1 t2 v x y h h1 h2 hx hy => hsimpl h1 h2 hx hy h

theorem computes_realRel {p : K → K → Prop}
    (hdiv : th ≠ "ComputerDivision" ∧ th ≠ "EuclideanDivision")
    (hop : ∀ r1 r2, op (alignBoth r1 r2).1 (alignBoth r1 r2).2 = true ↔
      p (r1.toField K) (r2.toField K)) :
    Computes N M ρ path th id (evalRealRel op) (.realRel p) :=
  computes_of_equation hdiv (fun hs hwt => equation_evalRealRel N hs hwt hop)

/-- The functions of a theory and the meanings of its symbols. -/
def ComputesAll (N : Numbers I K) (M : StdModel K) (ρ : I.Env) (path : List String) (th : String)
    (l : List (String × Builtin)) (l' : List (String × Meaning K)) : Prop :=
  List.Forall₂ (fun d d' => d.1 = d'.1 ∧ Computes N M ρ path th d.1 d.2 d'.2) l l'

omit [IsStrictOrderedRing K] in
theorem computesAll_int (hρ : I.Typed ρ) : ComputesAll N M ρ ["int"] "Int"
    [(opInfix "+", evalIntOp (fun x y => .ok (x + y)) simplAdd),
      (opInfix "-", evalIntOp (fun x y => .ok (x - y)) simplSub),
      (opInfix "*", evalIntOp (fun x y => .ok (x * y)) simplMul),
      (opPrefix "-", evalIntUop (fun x => -x)),
      (opInfix "<", evalIntRel (fun x y => x < y)),
      (opInfix "<=", evalIntRel (fun x y => x ≤ y)),
      (opInfix ">", evalIntRel (fun x y => x > y)),
      (opInfix ">=", evalIntRel (fun x y => x ≥ y))]
    [(opInfix "+", .intOp (fun x y => x + y)), (opInfix "-", .intOp (fun x y => x - y)),
      (opInfix "*", .intOp (fun x y => x * y)), (opPrefix "-", .intUop (fun x => -x)),
      (opInfix "<", .intRel (fun x y => x < y)), (opInfix "<=", .intRel (fun x y => x ≤ y)),
      (opInfix ">", .intRel (fun x y => y < x)), (opInfix ">=", .intRel (fun x y => y ≤ x))] := by
  have hne : "Int" ≠ "ComputerDivision" ∧ "Int" ≠ "EuclideanDivision" := by simp
  refine .cons ⟨rfl, ?_⟩ (.cons ⟨rfl, ?_⟩ (.cons ⟨rfl, ?_⟩ (.cons ⟨rfl, ?_⟩ (.cons ⟨rfl, ?_⟩
    (.cons ⟨rfl, ?_⟩ (.cons ⟨rfl, ?_⟩ (.cons ⟨rfl, ?_⟩ .nil)))))))
  · exact computes_intOp hne hρ (fun _ _ => rfl) (eval_simplAdd N)
  · exact computes_intOp hne hρ (fun _ _ => rfl) (eval_simplSub N)
  · exact computes_intOp hne hρ (fun _ _ => rfl) (eval_simplMul N)
  · exact computes_of_equation hne (fun hs hwt => equation_evalIntUop N hs hwt)
  all_goals exact computes_intRel hne (fun _ _ => decide_eq_true_iff)

omit [IsStrictOrderedRing K] in
theorem computesAll_minMax (hlit : I.LitExt) (hρ : I.Typed ρ) :
    ComputesAll N M ρ ["int"] "MinMax"
      [("min", evalIntOp (fun x y => .ok (min x y)) simplMinmax),
        ("max", evalIntOp (fun x y => .ok (max x y)) simplMinmax)]
      [("min", .intOp (fun x y => if x ≤ y then x else y)),
        ("max", .intOp (fun x y => if x ≤ y then y else x))] := by
  have hne : "MinMax" ≠ "ComputerDivision" ∧ "MinMax" ≠ "EuclideanDivision" := by simp
  refine .cons ⟨rfl, ?_⟩ (.cons ⟨rfl, ?_⟩ .nil)
  · exact computes_intOp hne hρ min_def (fun h1 h2 ha hb =>
      eval_simplMinmax N h1 h2 ha hb hlit (fun x y => if x ≤ y then x else y) (fun n => ite_self n))
  · exact computes_intOp hne hρ max_def (fun h1 h2 ha hb =>
      eval_simplMinmax N h1 h2 ha hb hlit (fun x y => if x ≤ y then y else x) (fun n => ite_self n))

omit [IsStrictOrderedRing K] in
theorem computesAll_computerDivision (hρ : I.Typed ρ) :
    ComputesAll N M ρ ["int"] "ComputerDivision"
      [("div", evalIntOp (division (fun x y => (computerDivMod x y).1)) simplDiv),
        ("mod", evalIntOp (division (fun x y => (computerDivMod x y).2)) simplMod)]
      [("div", .intOp M.cdiv), ("mod", .intOp M.cmod)] := by
  refine .cons ⟨rfl, ?_⟩ (.cons ⟨rfl, ?_⟩ .nil)
  · exact computes_division hρ (fun g' => by simp [divisions]) (fun hy => (M.cdiv_eq hy).1)
      (fun y => by rw [computerDivMod_zero_left])
      (simplDiv_spec N (fun x y => (computerDivMod x y).1)
        (fun a => by rw [computerDivMod_one]))
  · exact computes_division hρ (fun g' => by simp [divisions]) (fun hy => (M.cdiv_eq hy).2)
      (fun y => by rw [computerDivMod_zero_left])
      (simplMod_spec N (fun x y => (computerDivMod x y).2)
        (fun a => by rw [computerDivMod_one]))

omit [IsStrictOrderedRing K] in
theorem computesAll_euclideanDivision (hρ : I.Typed ρ) :
    ComputesAll N M ρ ["int"] "EuclideanDivision"
      [("div", evalIntOp (division (fun x y => x / y)) simplDiv),
        ("mod", evalIntOp (division (fun x y => x % y)) simplMod)]
      [("div", .intOp M.ediv), ("mod", .intOp M.emod)] := by
  refine .cons ⟨rfl, ?_⟩ (.cons ⟨rfl, ?_⟩ .nil)
  · exact computes_division hρ (fun g' => by simp [divisions]) (fun hy => (M.ediv_eq hy).1)
      zero_ediv (simplDiv_spec N (fun x y => x / y) ediv_one)
  · exact computes_division hρ (fun g' => by simp [divisions]) (fun hy => (M.ediv_eq hy).2)
      zero_emod (simplMod_spec N (fun x y => x % y) emod_one)

theorem computesAll_real (hρ : I.Typed ρ) : ComputesAll N M ρ ["real"] "Real"
    [(opPrefix "-", evalRealUop realOpp),
      (opInfix "+", evalRealOp (fun x y => .ok (realAdd x y)) simplRealAdd),
      (opInfix "-", evalRealOp (fun x y => .ok (realSub x y)) simplRealSub),
      (opInfix "*", evalRealOp (fun x y => .ok (realMul x y)) simplRealMul),
      (opInfix "<", evalRealRel (fun x y => x < y)),
      (opInfix "<=", evalRealRel (fun x y => x ≤ y)),
      (opInfix ">", evalRealRel (fun x y => x > y)),
      (opInfix ">=", evalRealRel (fun x y => x ≥ y))]
    [(opPrefix "-", .realUop (fun x => -x)), (opInfix "+", .realOp (fun x y => x + y)),
      (opInfix "-", .realOp (fun x y => x - y)), (opInfix "*", .realOp (fun x y => x * y)),
      (opInfix "<", .realRel (fun x y => x < y)), (opInfix "<=", .realRel (fun x y => x ≤ y)),
      (opInfix ">", .realRel (fun x y => y < x)), (opInfix ">=", .realRel (fun x y => y ≤ x))] := by
  have hne : "Real" ≠ "ComputerDivision" ∧ "Real" ≠ "EuclideanDivision" := by simp
  refine .cons ⟨rfl, ?_⟩ (.cons ⟨rfl, ?_⟩ (.cons ⟨rfl, ?_⟩ (.cons ⟨rfl, ?_⟩ (.cons ⟨rfl, ?_⟩
    (.cons ⟨rfl, ?_⟩ (.cons ⟨rfl, ?_⟩ (.cons ⟨rfl, ?_⟩ .nil)))))))
  · exact computes_of_equation hne
      (fun hs hwt => equation_evalRealUop N hs hwt (toField_realOpp K))
  · exact computes_realOp hne hρ (toField_realAdd K) (eval_simplRealAdd N)
  · exact computes_realOp hne hρ (toField_realSub K) (eval_simplRealSub N)
  · exact computes_realOp hne hρ (toField_realMul K) (eval_simplRealMul N)
  · dsimp only
    apply computes_realRel (K := K) hne
    intro r1 r2
    exact decide_eq_true_iff.trans (alignBoth_lt K r1 r2)
  · dsimp only
    apply computes_realRel (K := K) hne
    intro r1 r2
    rw [decide_eq_true_iff, ← not_lt, ← not_lt, alignBoth_gt K]
  · dsimp only
    apply computes_realRel (K := K) hne
    intro r1 r2
    exact decide_eq_true_iff.trans (alignBoth_gt K r1 r2)
  · dsimp only
    apply computes_realRel (K := K) hne
    intro r1 r2
    rw [decide_eq_true_iff, ge_iff_le, ← not_lt, ← not_lt, alignBoth_lt K]

/-- Each function of the table and the meaning of its symbol. -/
theorem computes_builtInTheories (hlit : I.LitExt) (hρ : I.Typed ρ) (isInt : ℤ → Bool) :
    List.Forall₂ (fun th th' => th.1 = th'.1 ∧ th.2.1 = th'.2.1 ∧
      ComputesAll N M ρ th.1 th.2.1 th.2.2 th'.2.2) (builtInTheories isInt) (meanings M) := by
  refine .cons ⟨rfl, rfl, computesAll_int hρ⟩ (.cons ⟨rfl, rfl, computesAll_minMax hlit hρ⟩
    (.cons ⟨rfl, rfl, computesAll_computerDivision hρ⟩
    (.cons ⟨rfl, rfl, computesAll_euclideanDivision hρ⟩ (.cons ⟨rfl, rfl, computesAll_real hρ⟩
    (.cons ⟨rfl, rfl, .cons ⟨rfl, ?_⟩ .nil⟩ (.cons ⟨rfl, rfl, .cons ⟨rfl, ?_⟩ .nil⟩ .nil))))))
  · exact computes_of_equation (by simp)
      (fun hs hwt => equation_realFromInt N M.fromInt_eq hs hwt)
  · exact computes_of_equation (by simp) (fun hs hwt => equation_evalRealOp N hs hwt hρ
      (fun r1 r2 r h => toField_realPow K r1 r2 M h)
      (fun _ _ _ _ _ h h1 _ hx _ => eval_simplRealPow N h1 hx M h))

/-- Where a built-in function returns a value, the call is equal to this value in
a model of the standard library, but for a quotient or a rest of zero by a term
whose value is zero. -/
theorem builtin_equation (hlit : I.LitExt) (hρ : I.Typed ρ)
    {find : List String → String → String → LSymbol} (hM : N.IsModel find M) (isInt : ℤ → Bool)
    {theory : List String × String × List (String × Builtin)}
    (hth : theory ∈ builtInTheories isInt) {entry : String × Builtin} (hd : entry ∈ theory.2.2)
    {args : List Value} {v : Value}
    (hwt : (tapp [] (find theory.1 theory.2.1 entry.1) (args.map termOfValue)
      (find theory.1 theory.2.1 entry.1).lsValue).Wt sig) (hv : entry.2 args = .ok v) :
    Equation I ρ (find theory.1 theory.2.1 entry.1) args v ↔
      ¬ ZeroDivisor N M ρ theory.1 theory.2.1 entry.1 args := by
  obtain ⟨theory', hth', hpath, hname, hall⟩ :=
    Paired.exists_of_mem_left (computes_builtInTheories (N := N) (M := M) hlit hρ isInt) hth
  obtain ⟨entry', hd', hid, hcomp⟩ := Paired.exists_of_mem_left hall hd
  have hs := hM theory' (of_mem_zip hth').2 entry' (of_mem_zip hd').2
  rw [← hpath, ← hname, ← hid] at hs
  exact hcomp hs hwt hv

end Table

/-! ## A division of zero -/

/-- The real numbers, and the value `z` for every Euclidean division by zero. -/
noncomputable def realModel (z : ℤ) : StdModel ℝ where
  ediv x y := if y = 0 then z else x / y
  emod x y := if y = 0 then z else x % y
  ediv_mod x y hy := by
    rw [if_neg hy, if_neg hy]
    exact (Int.mul_ediv_add_emod x y).symm
  emod_bound x y hy := by
    rw [if_neg hy]
    exact ⟨Int.emod_nonneg x hy, Int.emod_lt_abs x hy⟩
  cdiv x y := (BigInt.computerDivMod x y).1
  cmod x y := (BigInt.computerDivMod x y).2
  cdiv_mod x y hy := (BigInt.computerDivMod_spec hy).1
  cdiv_bound x y h := by
    simp only [BigInt.computerDivMod, if_pos (Or.inl h.1)]
    exact ⟨Int.ediv_nonneg h.1 h.2.le, Int.ediv_le_self y h.1⟩
  cmod_bound x y hy := abs_lt.mp (BigInt.computerDivMod_spec hy).2.1
  cdiv_sign_pos x y h := by
    simp only [BigInt.computerDivMod, if_pos (Or.inl h.1)]
    exact Int.ediv_nonneg h.1 h.2.le
  cdiv_sign_neg x y h := by
    have hspec := BigInt.computerDivMod_spec (x := x) h.2.ne'
    have hle := hspec.2.2.2 h.1
    have hlt := abs_lt.mp hspec.2.1
    rw [abs_of_pos h.2] at hlt
    by_contra hpos
    push Not at hpos
    nlinarith [hspec.1, h.1, h.2]
  cmod_sign_pos x y h := (BigInt.computerDivMod_spec h.2).2.2.1 h.1
  cmod_sign_neg x y h := (BigInt.computerDivMod_spec h.2).2.2.2 h.1
  fromInt n := n
  fromInt_zero := Int.cast_zero
  fromInt_one := Int.cast_one
  fromInt_add := Int.cast_add
  fromInt_sub := Int.cast_sub
  fromInt_mul := Int.cast_mul
  fromInt_neg := Int.cast_neg
  fromInt_monotonic _ _ h := Int.cast_le.mpr h
  exp := Real.exp
  exp_zero := Real.exp_zero
  exp_sum := Real.exp_add
  exp_increasing _ _ h := Real.exp_le_exp.mpr h
  exp_positive := Real.exp_pos
  exp_inv := Real.exp_neg
  log := Real.log
  log_one := Real.log_one
  log_mul _ _ h := Real.log_mul h.1.ne' h.2.ne'
  log_increasing _ _ h := Real.log_le_log h.1 h.2
  log_exp := Real.log_exp
  exp_log _ h := Real.exp_log h
  pow x y := x ^ y
  pow_def x y h := by rw [Real.rpow_def_of_pos h, mul_comm]

namespace Arith

/-- The tags of the symbols. -/
def theoryTag (th : String) : ℕ :=
  if th = "Int" then 1000 else if th = "MinMax" then 1020
  else if th = "ComputerDivision" then 1040 else if th = "EuclideanDivision" then 1060
  else if th = "Real" then 1080 else if th = "FromInt" then 1100 else 1120

def idTag (id : String) : ℕ :=
  if id = opInfix "+" then 1 else if id = opInfix "-" then 2 else if id = opInfix "*" then 3
  else if id = opPrefix "-" then 4 else if id = opInfix "<" then 5 else if id = opInfix "<=" then 6
  else if id = opInfix ">" then 7 else if id = opInfix ">=" then 8 else if id = "min" then 9
  else if id = "max" then 10 else if id = "div" then 11 else if id = "mod" then 12
  else if id = "from_int" then 13 else 14

/-- The meanings, by tag. -/
noncomputable def meaningOf (M : StdModel ℝ) : ℕ → Option (Meaning ℝ)
  | 1001 => some (.intOp (fun x y => x + y))
  | 1002 => some (.intOp (fun x y => x - y))
  | 1003 => some (.intOp (fun x y => x * y))
  | 1004 => some (.intUop (fun x => -x))
  | 1005 => some (.intRel (fun x y => x < y))
  | 1006 => some (.intRel (fun x y => x ≤ y))
  | 1007 => some (.intRel (fun x y => y < x))
  | 1008 => some (.intRel (fun x y => y ≤ x))
  | 1029 => some (.intOp (fun x y => if x ≤ y then x else y))
  | 1030 => some (.intOp (fun x y => if x ≤ y then y else x))
  | 1051 => some (.intOp M.cdiv)
  | 1052 => some (.intOp M.cmod)
  | 1071 => some (.intOp M.ediv)
  | 1072 => some (.intOp M.emod)
  | 1084 => some (.realUop (fun x => -x))
  | 1081 => some (.realOp (fun x y => x + y))
  | 1082 => some (.realOp (fun x y => x - y))
  | 1083 => some (.realOp (fun x y => x * y))
  | 1085 => some (.realRel (fun x y => x < y))
  | 1086 => some (.realRel (fun x y => x ≤ y))
  | 1087 => some (.realRel (fun x y => y < x))
  | 1088 => some (.realRel (fun x y => y ≤ x))
  | 1113 => some (.fromInt M.fromInt)
  | 1134 => some (.realOp M.pow)
  | _ => none

/-- The types of the arguments and of the result. -/
def typeOf : Meaning ℝ → List Ty × Option Ty
  | .intOp _ => ([tyInt, tyInt], some tyInt)
  | .intUop _ => ([tyInt], some tyInt)
  | .intRel _ => ([tyInt, tyInt], none)
  | .realOp _ => ([tyReal, tyReal], some tyReal)
  | .realUop _ => ([tyReal], some tyReal)
  | .realRel _ => ([tyReal, tyReal], none)
  | .fromInt _ => ([tyInt], some tyReal)

noncomputable def symbolOf (M : StdModel ℝ) (n : ℕ) : LSymbol :=
  let ty := ((meaningOf M n).map typeOf).getD ([], none)
  ⟨n, ty.1, ty.2, 0, false⟩

noncomputable def find (M : StdModel ℝ) (_ : List String) (th id : String) : LSymbol :=
  symbolOf M (theoryTag th + idTag id)

/-- The values of the types `int` and `real` are apart. -/
def Mem (ty : Ty) (d : ℤ ⊕ ℝ) : Prop := if ty = tyReal then d.isRight else d.isLeft

def dflt (ty : Ty) : ℤ ⊕ ℝ := if ty = tyReal then .inr 0 else .inl 0

theorem mem_dflt (ty : Ty) : Mem ty (dflt ty) := by
  unfold Mem dflt
  split_ifs <;> rfl

/-- The result of a function, in its type. -/
noncomputable def result (μ : Option (Meaning ℝ)) (ty : Ty) (dl : List (ℤ ⊕ ℝ)) : ℤ ⊕ ℝ :=
  if ty = tyReal then
    match μ, dl with
    | some (.realOp g), [.inr x, .inr y] => .inr (g x y)
    | some (.realUop g), [.inr x] => .inr (g x)
    | some (.fromInt g), [.inl a] => .inr (g a)
    | _, _ => .inr 0
  else
    match μ, dl with
    | some (.intOp g), [.inl a, .inl b] => .inl (g a b)
    | some (.intUop g), [.inl a] => .inl (g a)
    | _, _ => .inl 0

theorem mem_result (μ : Option (Meaning ℝ)) (ty : Ty) (dl : List (ℤ ⊕ ℝ)) :
    Mem ty (result μ ty dl) := by
  unfold Mem result
  split_ifs
  · split <;> rfl
  · split <;> rfl

open Classical in
noncomputable def interp (M : StdModel ℝ) : Interp (fun _ => []) where
  Val := ℤ ⊕ ℝ
  mem := Mem
  dest _ _ := none
  const c ty :=
    if ty = tyReal then
      match c with
      | .constReal _ r => .inr (r.toField ℝ)
      | _ => .inr 0
    else
      match c with
      | .constInt _ n => .inl n
      | _ => .inl 0
  fn s _ ty dl := result (meaningOf M s.lsName) (ty.getD tyInt) dl
  pr s _ dl :=
    match meaningOf M s.lsName, dl with
    | some (.intRel p), [.inl a, .inl b] => p a b
    | some (.realRel p), [.inr x, .inr y] => p x y
    | _, _ => False
  eps ty P := if h : ∃ d, Mem ty d ∧ P d then h.choose else dflt ty
  dest_mem := fun _ h => by cases h
  dest_some := fun _ h => absurd (constrsOf_nil _) h
  con := fun h => absurd h (by simp [constrsOf_nil])
  inhabited := fun ty => ⟨dflt ty, mem_dflt ty⟩
  const_mem := by
    intro c ty
    unfold Mem
    split_ifs
    · split <;> rfl
    · split <;> rfl
  fn_mem := fun _ _ => mem_result _ _ _
  fn_constr := fun h => absurd h (by simp [constrsOf_nil])
  dest_inj := fun _ _ h => by cases h
  eps_mem := by
    intro ty P
    split_ifs with h
    · exact h.choose_spec.1
    · exact mem_dflt ty
  eps_spec := by
    intro ty P h
    rw [dif_pos h]
    exact h.choose_spec.2

theorem tyInt_ne_tyReal : tyInt ≠ tyReal := by decide

noncomputable def numbers (M : StdModel ℝ) : Numbers (interp M) ℝ where
  ofInt := Sum.inl
  ofInt_inj := Sum.inl_injective
  mem_int := by
    intro d hd
    cases d with
    | inl n => exact ⟨n, rfl⟩
    | inr x => cases hd
  const_int k n := rfl
  ofReal := Sum.inr
  ofReal_inj := Sum.inr_injective
  mem_real := by
    intro d hd
    cases d with
    | inl n => cases hd
    | inr x => exact ⟨x, rfl⟩
  const_real k r := rfl

theorem interprets_symbolOf {M : StdModel ℝ} {n : ℕ} {μ : Meaning ℝ} (hn : 1000 < n)
    (h : meaningOf M n = some μ) : (numbers M).Interprets (symbolOf M n) μ := by
  have hargs : (symbolOf M n).lsArgs = (typeOf μ).1 := by simp [symbolOf, h]
  have hval : (symbolOf M n).lsValue = (typeOf μ).2 := by simp [symbolOf, h]
  have hname : (symbolOf M n).lsName = n := rfl
  have hne : symbolOf M n ≠ psEqu := by
    intro heq
    have : n = 8 := congrArg LSymbol.lsName heq
    omega
  cases μ with
  | intOp g =>
    refine ⟨hargs, hval, fun a b => ?_⟩
    simp [interp, numbers, result, hname, h, tyInt_ne_tyReal]
  | intUop g =>
    refine ⟨hargs, hval, fun a => ?_⟩
    simp [interp, numbers, result, hname, h, tyInt_ne_tyReal]
  | intRel p =>
    refine ⟨hargs, hval, hne, fun a b => ?_⟩
    simp [interp, numbers, hname, h]
  | realOp g =>
    refine ⟨hargs, hval, fun x y => ?_⟩
    simp [interp, numbers, result, hname, h]
  | realUop g =>
    refine ⟨hargs, hval, fun x => ?_⟩
    simp [interp, numbers, result, hname, h]
  | realRel p =>
    refine ⟨hargs, hval, hne, fun x y => ?_⟩
    simp [interp, numbers, hname, h]
  | fromInt g =>
    refine ⟨hargs, hval, fun a => ?_⟩
    simp [interp, numbers, result, hname, h]

theorem isModel (M : StdModel ℝ) : (numbers M).IsModel (find M) M := by
  have htag : ∀ th ∈ meanings M, ∀ d ∈ th.2.2, 1000 < theoryTag th.2.1 + idTag d.1 ∧
      meaningOf M (theoryTag th.2.1 + idTag d.1) = some d.2 := by
    simp only [meanings, forall_mem_cons]
    simp [theoryTag, idTag, opInfix, opPrefix, meaningOf]
  intro th hth d hd
  exact interprets_symbolOf (htag th hth d hd).1 (htag th hth d hd).2

theorem litExt_interp (M : StdModel ℝ) : (interp M).LitExt := by
  intro c1 c2 ty h
  unfold Constant.equal at h
  split at h
  · have heq := of_decide_eq_true h
    simp [interp, heq]
  · simp [interp, toField_of_equal ℝ _ _ h]
  · rw [of_decide_eq_true h]

def x : VSymbol := ⟨1200, tyInt⟩

/-- `div 0 x`. -/
def divZero : List Value := [.int 0, .term (.tvar [] x)]

/-- All variables are zero. -/
def zeroEnv (M : StdModel ℝ) : (interp M).Env := fun v => dflt v.vsTy

theorem typed_zeroEnv (M : StdModel ℝ) : (interp M).Typed (zeroEnv M) := fun v => mem_dflt v.vsTy

theorem mem_builtInTheories (isInt : ℤ → Bool) : (["int"], "EuclideanDivision",
    [("div", evalIntOp (division (fun x y => x / y)) simplDiv),
      ("mod", evalIntOp (division (fun x y => x % y)) simplMod)]) ∈ builtInTheories isInt :=
  .tail _ (.tail _ (.tail _ (.head _)))

theorem interprets_div (M : StdModel ℝ) :
    (numbers M).Interprets (find M ["int"] "EuclideanDivision" "div") (.intOp M.ediv) :=
  isModel M (["int"], "EuclideanDivision", [("div", .intOp M.ediv), ("mod", .intOp M.emod)])
    (.tail _ (.tail _ (.tail _ (.head _)))) ("div", .intOp M.ediv) (.head _)

theorem wt_divZero (M : StdModel ℝ) :
    (tapp [] (find M ["int"] "EuclideanDivision" "div") (divZero.map termOfValue)
      (find M ["int"] "EuclideanDivision" "div").lsValue).Wt (fun _ => []) := by
  obtain ⟨hargs, hval, -⟩ := interprets_div M
  simp only [Wt, wtList_iff]
  refine ⟨⟨[], by rw [hargs]; rfl, by rw [hval]; rfl⟩, fun t ht => ?_⟩
  rcases mem_pair.mp ht with rfl | rfl <;> trivial

end Arith

open Arith in
/-- The quotient of zero by a variable is zero, in the models where `div 0 0` is. -/
theorem builtin_div_zero :
    evalIntOp (division (fun x y => x / y)) simplDiv divZero = .ok (.int 0) ∧
      (Equation (interp (realModel 0)) (zeroEnv (realModel 0))
        (find (realModel 0) ["int"] "EuclideanDivision" "div") divZero (.int 0) ↔
      ¬ ZeroDivisor (numbers (realModel 0)) (realModel 0) (zeroEnv (realModel 0)) ["int"]
        "EuclideanDivision" "div" divZero) :=
  ⟨rfl, builtin_equation (litExt_interp _) (typed_zeroEnv _) (isModel _) (fun _ => true)
    (mem_builtInTheories _) (.head _) (wt_divZero _) rfl⟩

open Arith in
/-- It is not, where `div 0 0` is one and the variable is zero. -/
theorem not_builtin_equation :
    ¬ ∀ (sig : TySymbol → List LSymbol) (I : Interp sig) (N : Numbers I ℝ) (M : StdModel ℝ)
      (find : List String → String → String → LSymbol), I.LitExt → N.IsModel find M →
      ∀ (isInt : ℤ → Bool) (theory : List String × String × List (String × Builtin)),
      theory ∈ builtInTheories isInt → ∀ entry ∈ theory.2.2, ∀ (args : List Value) (v : Value),
      (tapp [] (find theory.1 theory.2.1 entry.1) (args.map termOfValue)
        (find theory.1 theory.2.1 entry.1).lsValue).Wt sig → entry.2 args = .ok v →
      ∀ ρ : I.Env, I.Typed ρ → Equation I ρ (find theory.1 theory.2.1 entry.1) args v := by
  intro h
  have hequ := h (fun _ => []) (interp (realModel 1)) (numbers _) (realModel 1)
    (find (realModel 1)) (litExt_interp _) (isModel _) (fun _ => true) _ (mem_builtInTheories _) _
    (.head _) divZero (.int 0) (wt_divZero _) rfl (zeroEnv _) (typed_zeroEnv _)
  obtain ⟨hargs, hval, hfn⟩ := interprets_div (realModel 1)
  simp only [Equation, hval, eval_tapp] at hequ
  -- the model gives one, the reduction engine zero
  have hone : Sum.inl ((realModel 1).ediv 0 0) = (Sum.inl 0 : ℤ ⊕ ℝ) := (hfn 0 0).symm.trans hequ
  simp [realModel] at hone

end ReductionEngine

end Why3
