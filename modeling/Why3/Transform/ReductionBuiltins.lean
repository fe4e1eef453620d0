import Why3.Core.Alpha
import Why3.Core.Number

/-!
# Built-in symbols of the reduction engine

The functions that `transform/reduction_engine.ml` runs for calls of the symbols
of the standard library: they compute on literals, and simplify the calls in
which one argument is a literal.  None of them looks at the symbol or at the
type of the result, which are left out.  The exceptions of the source are errors
of `Except`.
-/

namespace Why3

namespace ReductionEngine

open Number

/-! ## Values -/

/-- `value`. -/
inductive Value
  | term (t : Term)
  | int (n : ℤ)
  | real (r : RealValue)

inductive BuiltinError
  | notNum | undetermined | divisionByZero | assertFailure
deriving DecidableEq

/-- The result of a built-in function. -/
abbrev Result (α : Type) := Except BuiltinError α

/-- `t_int_const`. -/
def tIntConst (n : ℤ) : Term := .tconst [] (.constInt .iLitUnk n) tyInt

/-- `t_real_const`. -/
def tRealConst (pow2 pow5 s : ℤ) : Term :=
  .tconst [] (.constReal .rLitUnk (realValue pow2 pow5 s)) tyReal

/-- `term_of_value`. -/
def termOfValue : Value → Term
  | .term t => t
  | .int n => tIntConst n
  | .real r => tRealConst r.rvPow2 r.rvPow5 r.rvSig

/-- `big_int_of_const`. -/
def bigIntOfConst : Constant → Result ℤ
  | .constInt _ n => .ok n
  | _ => .error .assertFailure

/-- `big_int_of_value`. -/
def bigIntOfValue : Value → Result ℤ
  | .int n => .ok n
  | .real _ => .error .assertFailure
  | .term (.tconst _ c _) => bigIntOfConst c
  | .term _ => .error .notNum

/-- `real_of_const`. -/
def realOfConst : Constant → Result RealValue
  | .constReal _ r => .ok r
  | _ => .error .assertFailure

/-- `real_of_value`. -/
def realOfValue : Value → Result RealValue
  | .real r => .ok r
  | .int _ => .error .assertFailure
  | .term (.tconst _ c _) => realOfConst c
  | .term _ => .error .notNum

/-- `to_bool`. -/
def toBool (b : Bool) : Term := if b then .ttrue [] else .tfalse []

/-- The test of a value that is false when the value is not a number. -/
def testNum {α : Type} (num : Result α) (p : α → Bool) : Result Bool :=
  match num with
  | .ok n => .ok (p n)
  | .error .notNum => .ok false
  | .error e => .error e

/-- `is_zero`. -/
def isZero (v : Value) : Result Bool := testNum (bigIntOfValue v) (· == 0)

/-- `is_one`. -/
def isOne (v : Value) : Result Bool := testNum (bigIntOfValue v) (· == 1)

/-! ## Integers -/

/-- `eval_int_op`. -/
def evalIntOp (op : ℤ → ℤ → Result ℤ) (simpl : Value → Value → Result Value) :
    List Value → Result Value
  | [t1, t2] =>
    match (do op (← bigIntOfValue t1) (← bigIntOfValue t2)) with
    | .ok n => .ok (.int n)
    | .error .notNum => simpl t1 t2
    | .error .divisionByZero => simpl t1 t2
    | .error e => .error e
  | _ => .error .assertFailure

/-- `simpl_add`. -/
def simplAdd (t1 t2 : Value) : Result Value := do
  if ← isZero t1 then return t2
  else if ← isZero t2 then return t1
  else throw .undetermined

/-- `simpl_sub`. -/
def simplSub (t1 t2 : Value) : Result Value := do
  if ← isZero t2 then return t1
  else throw .undetermined

/-- `simpl_mul`. -/
def simplMul (t1 t2 : Value) : Result Value := do
  if ← isZero t1 then return t1
  else if ← isZero t2 then return t2
  else if ← isOne t1 then return t2
  else if ← isOne t2 then return t1
  else throw .undetermined

/-- `simpl_div`. -/
def simplDiv (t1 t2 : Value) : Result Value := do
  if ← isZero t2 then throw .undetermined
  else if ← isZero t1 then return t1
  else if ← isOne t2 then return t1
  else throw .undetermined

/-- `simpl_mod`. -/
def simplMod (t1 t2 : Value) : Result Value := do
  if ← isZero t2 then throw .undetermined
  else if ← isZero t1 then return t1
  else if ← isOne t2 then return .int 0
  else throw .undetermined

/-- `simpl_minmax`. -/
def simplMinmax : Value → Value → Result Value
  | .term t1, .term t2 => if tEqual t1 t2 then .ok (.term t1) else .error .undetermined
  | _, _ => .error .undetermined

/-- A number that is missing leaves the call undetermined. -/
def orUndetermined {α : Type} : Result α → Result α
  | .error .notNum => .error .undetermined
  | r => r

/-- `eval_int_rel`. -/
def evalIntRel (op : ℤ → ℤ → Bool) : List Value → Result Value
  | [t1, t2] => orUndetermined do
      return .term (toBool (op (← bigIntOfValue t1) (← bigIntOfValue t2)))
  | _ => .error .assertFailure

/-- `eval_int_uop`. -/
def evalIntUop (op : ℤ → ℤ) : List Value → Result Value
  | [t1] => orUndetermined do return .int (op (← bigIntOfValue t1))
  | _ => .error .assertFailure

/-- A division of `BigInt`, which raises an exception for the divisor zero. -/
def division (op : ℤ → ℤ → ℤ) (x y : ℤ) : Result ℤ :=
  if y = 0 then .error .divisionByZero else .ok (op x y)

/-! ## Reals -/

/-- `real_align`. -/
def realAlign (pow2 pow5 : ℤ) (r : RealValue) : ℤ :=
  r.rvSig * 2 ^ (r.rvPow2 - pow2).toNat * 5 ^ (r.rvPow5 - pow5).toNat

/-- `eval_real_op`. -/
def evalRealOp (op : RealValue → RealValue → Result RealValue)
    (simpl : Value → Value → Result Value) : List Value → Result Value
  | [t1, t2] =>
    match (do op (← realOfValue t1) (← realOfValue t2)) with
    | .ok r => .ok (.real r)
    | .error .notNum => simpl t1 t2
    | .error e => .error e
  | _ => .error .assertFailure

/-- `eval_real_uop`. -/
def evalRealUop (op : RealValue → RealValue) : List Value → Result Value
  | [t1] => orUndetermined do return .real (op (← realOfValue t1))
  | _ => .error .assertFailure

/-- The integers that `eval_real_rel` compares. -/
def alignBoth (n1 n2 : RealValue) : ℤ × ℤ :=
  if n1.rvSig.sign ≠ n2.rvSig.sign then (n1.rvSig, n2.rvSig)
  else
    let pow2 := min n1.rvPow2 n2.rvPow2
    let pow5 := min n1.rvPow5 n2.rvPow5
    (realAlign pow2 pow5 n1, realAlign pow2 pow5 n2)

/-- `eval_real_rel`. -/
def evalRealRel (op : ℤ → ℤ → Bool) : List Value → Result Value
  | [t1, t2] => orUndetermined do
      let (s1, s2) := alignBoth (← realOfValue t1) (← realOfValue t2)
      return .term (toBool (op s1 s2))
  | _ => .error .assertFailure

/-- `real_0`. -/
def real0 : RealValue := realValue 0 0 0

/-- `real_1`. -/
def real1 : RealValue := realValue 0 0 1

/-- `is_real`; `compare_real` compares the three components. -/
def isReal (t : Value) (r : RealValue) : Result Bool := testNum (realOfValue t) (· == r)

/-- `real_opp`. -/
def realOpp (r : RealValue) : RealValue := realValue r.rvPow2 r.rvPow5 (-r.rvSig)

/-- `real_add`. -/
def realAdd (r1 r2 : RealValue) : RealValue :=
  if r1.rvSig = 0 then r2
  else if r2.rvSig = 0 then r1
  else
    let pow2 := min r1.rvPow2 r2.rvPow2
    let pow5 := min r1.rvPow5 r2.rvPow5
    realValue pow2 pow5 (realAlign pow2 pow5 r1 + realAlign pow2 pow5 r2)

/-- `real_sub`. -/
def realSub (r1 r2 : RealValue) : RealValue :=
  if r2.rvSig = 0 then r1
  else if r1.rvSig = 0 then realValue r2.rvPow2 r2.rvPow5 (-r2.rvSig)
  else
    let pow2 := min r1.rvPow2 r2.rvPow2
    let pow5 := min r1.rvPow5 r2.rvPow5
    realValue pow2 pow5 (realAlign pow2 pow5 r1 - realAlign pow2 pow5 r2)

/-- `real_mul`. -/
def realMul (r1 r2 : RealValue) : RealValue :=
  realValue (r1.rvPow2 + r2.rvPow2) (r1.rvPow5 + r2.rvPow5) (r1.rvSig * r2.rvSig)

/-- `simpl_real_add`. -/
def simplRealAdd (t1 t2 : Value) : Result Value := do
  if ← isReal t1 real0 then return t2
  else if ← isReal t2 real0 then return t1
  else throw .undetermined

/-- `simpl_real_sub`. -/
def simplRealSub (t1 t2 : Value) : Result Value := do
  if ← isReal t2 real0 then return t1
  else throw .undetermined

/-- `simpl_real_mul`. -/
def simplRealMul (t1 t2 : Value) : Result Value := do
  if ← isReal t1 real0 then return t1
  else if ← isReal t2 real0 then return t2
  else if ← isReal t1 real1 then return t2
  else if ← isReal t2 real1 then return t1
  else throw .undetermined

/-- `real_pow`, where `isInt` says which integers `BigInt.to_int` converts. -/
def realPow (isInt : ℤ → Bool) (r1 r2 : RealValue) : Result RealValue :=
  if r1.rvSig ≤ 0 then .error .undetermined
  else if r2.rvPow2 < 0 ∨ r2.rvPow5 < 0 then .error .notNum
  else if !isInt r1.rvSig then .error .notNum
  else
    let s2 := r2.rvSig * 2 ^ r2.rvPow2.toNat * 5 ^ r2.rvPow5.toNat
    if r1.rvSig = 1 then .ok (realValue (r1.rvPow2 * s2) (r1.rvPow5 * s2) 1)
    else if s2 < 0 then .error .notNum
    else .ok (realValue (r1.rvPow2 * s2) (r1.rvPow5 * s2) (r1.rvSig ^ s2.toNat))

/-- `simpl_real_pow`. -/
def simplRealPow (t1 _t2 : Value) : Result Value := do
  if ← isReal t1 real1 then return t1
  else throw .undetermined

/-- `real_from_int`. -/
def realFromInt : List Value → Result Value
  | [t] => orUndetermined do return .real (realValue 0 0 (← bigIntOfValue t))
  | _ => .error .assertFailure

/-! ## The table -/

/-- `Ident.op_infix`. -/
def opInfix (s : String) : String := "infix " ++ s

/-- `Ident.op_prefix`. -/
def opPrefix (s : String) : String := "prefix " ++ s

abbrev Builtin := List Value → Result Value

/-- `built_in_theories`: the path and the name of a theory, the names of its
symbols and what is run for them. -/
def builtInTheories (isInt : ℤ → Bool) : List (List String × String × List (String × Builtin)) :=
  [(["int"], "Int",
    [(opInfix "+", evalIntOp (fun x y => .ok (x + y)) simplAdd),
      (opInfix "-", evalIntOp (fun x y => .ok (x - y)) simplSub),
      (opInfix "*", evalIntOp (fun x y => .ok (x * y)) simplMul),
      (opPrefix "-", evalIntUop (fun x => -x)),
      (opInfix "<", evalIntRel (fun x y => x < y)),
      (opInfix "<=", evalIntRel (fun x y => x ≤ y)),
      (opInfix ">", evalIntRel (fun x y => x > y)),
      (opInfix ">=", evalIntRel (fun x y => x ≥ y))]),
    (["int"], "MinMax",
      [("min", evalIntOp (fun x y => .ok (min x y)) simplMinmax),
        ("max", evalIntOp (fun x y => .ok (max x y)) simplMinmax)]),
    (["int"], "ComputerDivision",
      [("div", evalIntOp (division (fun x y => (BigInt.computerDivMod x y).1)) simplDiv),
        ("mod", evalIntOp (division (fun x y => (BigInt.computerDivMod x y).2)) simplMod)]),
    (["int"], "EuclideanDivision",
      [("div", evalIntOp (division (fun x y => x / y)) simplDiv),
        ("mod", evalIntOp (division (fun x y => x % y)) simplMod)]),
    (["real"], "Real",
      [(opPrefix "-", evalRealUop realOpp),
        (opInfix "+", evalRealOp (fun x y => .ok (realAdd x y)) simplRealAdd),
        (opInfix "-", evalRealOp (fun x y => .ok (realSub x y)) simplRealSub),
        (opInfix "*", evalRealOp (fun x y => .ok (realMul x y)) simplRealMul),
        (opInfix "<", evalRealRel (fun x y => x < y)),
        (opInfix "<=", evalRealRel (fun x y => x ≤ y)),
        (opInfix ">", evalRealRel (fun x y => x > y)),
        (opInfix ">=", evalRealRel (fun x y => x ≥ y))]),
    (["real"], "FromInt", [("from_int", realFromInt)]),
    (["real"], "PowerReal", [("pow", evalRealOp (realPow isInt) simplRealPow)])]

end ReductionEngine

end Why3
