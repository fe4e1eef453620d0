import Why3.Core.Typing

/-!
# Termination checking of recursive logic definitions

The first part of `core/decl.ml`.  `build_call_graph` records every call in the
body of a definition together with what is known of its arguments: each one is
equal to, or structurally smaller than, a parameter of the caller, or unknown.
`build_call_list` composes the calls along the paths that lead back to a
symbol, and `find_variant` looks for argument positions that decrease
lexicographically along all of them.

A logic symbol stands for its name where the source uses the latter as a key.
An array of descents is a list; the source reads it only at positions below the
arity of the symbol it describes.
-/

namespace Why3

open Function

/-! ## Definitions -/

/-- `ls_defn`: the defined symbol, the definition axiom and the variant. -/
structure LsDefn where
  ldLs : LSymbol
  ldAxiom : Term
  ldVariant : List ℕ

/-- `open_ls_defn`: the parameters and the body; `none` is `assert false`. -/
def openLsDefn (ld : LsDefn) : Option (List VSymbol × Term) :=
  let (vl, f) := match ld.ldAxiom with
    | .tquant _ .tforall vl _ f => (vl, f)
    | f => ([], f)
  match f with
  | .tapp _ _ [_, f] _ => some (vl, f)
  | .tbinop _ _ _ f => some (vl, f)
  | _ => none

/-- The exceptions of `check_termination`; `outOfFuel` never arises. -/
inductive TerminationExn
  | noTerminationProof (ls : LSymbol)
  | assertFalse
  | outOfFuel
deriving DecidableEq

/-! ## Descents -/

inductive Descent
  | less (i : ℕ)
  | equal (i : ℕ)
  | unknown
deriving DecidableEq

def Descent.toLess : Descent → Descent
  | .unknown => .unknown
  | .equal i => .less i
  | .less i => .less i

/-- `call_set`: callee, caller and the arguments of the call, the newest call
first. -/
abbrev CallSet := List (LSymbol × LSymbol × List Descent)

/-- `Hid.find_all`. -/
def CallSet.findAll (cgr : CallSet) (s : LSymbol) : List (LSymbol × List Descent) :=
  cgr.filterMap (fun c => if c.1 = s then some c.2 else none)

/-- What is known of the variables in scope. -/
abbrev Vm := VSymbol → Option Descent

/-- `vs_graph`: one map for each way in which the patterns above can match. -/
abbrev VsGraph := List Vm

def createVsGraph (vl : List VSymbol) : VsGraph :=
  [vl.zipIdx.foldl (fun vm v => update vm v.1 (some (.equal v.2))) (fun _ => none)]

def describe (vm : Vm) : Term → Descent
  | .tvar _ v => (vm v).getD .unknown
  | _ => .unknown

def registerCall (cgr : CallSet) (caller : LSymbol) (vsg : VsGraph) (callee : LSymbol)
    (tl : List Term) : CallSet :=
  vsg.foldl (fun cgr vm => (callee, caller, tl.map (describe vm)) :: cgr) cgr

def vsGraphDrop (vsg : VsGraph) (u : VSymbol) : VsGraph :=
  (vsg.map (fun vm => update vm u none)).reverse

def vsGraphLet (vsg : VsGraph) (t : Term) (u : VSymbol) : VsGraph :=
  match t with
  | .tvar _ v => (vsg.map (fun vm => update vm u (vm v))).reverse
  | _ => vsGraphDrop vsg u

/-- All variables of `vl` bound to `d` (removed when `d` is `none`). -/
def Vm.setAll (vm : Vm) (vl : List VSymbol) (d : Option Descent) : Vm :=
  fun v => if v ∈ vl then d else vm v

/-- Bind the variables of a pattern matched against something known by `link`. -/
def matchVar (link : Descent) : Pattern → VsGraph → VsGraph
  | .pwild _, acc => acc
  | .pvar u, acc => (acc.map (fun vm => update vm u (some link))).reverse
  | .pas p u, acc =>
    ((matchVar link p acc).map (fun vm => update vm u (some link))).reverse
  | .por p1 p2, acc => (matchVar link p1 acc).reverse ++ matchVar link p2 acc
  | .papp s pl ty, acc =>
    (acc.map (fun vm => vm.setAll (Pattern.papp s pl ty).patVars (some link.toLess))).reverse

/-- What is known of a matched term that is a variable in scope. -/
def linkOf (vm : Vm) : Term → Option Descent
  | .tvar _ v => vm v
  | _ => none

def forget (p : Pattern) (acc : VsGraph) : VsGraph :=
  (acc.map (fun vm => vm.setAll p.patVars none)).reverse

mutual
/-- `match_term`. -/
def matchTerm (vm : Vm) : Pattern → Term → VsGraph → VsGraph
  | .pwild _, _, acc => acc
  | .pvar u, t, acc =>
    match linkOf vm t with
    | some link => matchVar link (.pvar u) acc
    | none => if (Pattern.appOf t).isSome then vsGraphDrop acc u else forget (.pvar u) acc
  | .pas p u, t, acc =>
    match linkOf vm t with
    | some link => matchVar link (.pas p u) acc
    | none =>
      if (Pattern.appOf t).isSome then matchTerm vm p t (vsGraphDrop acc u)
      else forget (.pas p u) acc
  | .por p1 p2, t, acc =>
    match linkOf vm t with
    | some link => matchVar link (.por p1 p2) acc
    | none =>
      if (Pattern.appOf t).isSome then
        (matchTerm vm p1 t acc).reverse ++ matchTerm vm p2 t acc
      else forget (.por p1 p2) acc
  | .papp c2 pl ty, t, acc =>
    match linkOf vm t with
    | some link => matchVar link (.papp c2 pl ty) acc
    | none =>
      match Pattern.appOf t with
      | some (c1, tl) =>
        if c1 = c2 then matchTermList vm pl tl acc else forget (.papp c2 pl ty) acc
      | none => forget (.papp c2 pl ty) acc
/-- `List.fold_left2 down`. -/
def matchTermList (vm : Vm) : List Pattern → List Term → VsGraph → VsGraph
  | p :: pl, t :: tl, acc => matchTermList vm pl tl (matchTerm vm p t acc)
  | _, _, acc => acc
end

attribute [grind =] matchTerm matchTermList

def vsGraphPat (vsg : VsGraph) (t : Term) (p : Pattern) : VsGraph :=
  vsg.foldl (fun acc vm => (matchTerm vm p t [vm]).reverse ++ acc) []

/-! ## The call graph -/

section CallGraph

variable (syms : LSymbol → Bool) (ls : LSymbol)

mutual
/-- `build_call_graph` on a subterm of the body of `ls`.  The variables that an
epsilon or a quantifier binds are fresh in the source, so nothing is known of
them. -/
def callTerm : Term → VsGraph → CallSet → CallSet
  | .tvar _ _, _, cgr | .tconst _ _ _, _, cgr | .ttrue _, _, cgr | .tfalse _, _, cgr => cgr
  | .tapp _ s tl _, vsg, cgr =>
    let cgr := callTermList tl vsg cgr
    if syms s then registerCall cgr ls vsg s tl else cgr
  | .tif _ f t1 t2, vsg, cgr => callTerm t2 vsg (callTerm t1 vsg (callTerm f vsg cgr))
  | .tlet _ t u e, vsg, cgr => callTerm e (vsGraphLet vsg t u) (callTerm t vsg cgr)
  | .tcase _ t bl, vsg, cgr => callBranches t bl vsg (callTerm t vsg cgr)
  | .teps _ v f, vsg, cgr => callTerm f (vsg.map (fun vm => vm.setAll [v] none)) cgr
  | .tquant _ _ vl _ f, vsg, cgr => callTerm f (vsg.map (fun vm => vm.setAll vl none)) cgr
  | .tbinop _ _ f g, vsg, cgr => callTerm g vsg (callTerm f vsg cgr)
  | .tnot _ f, vsg, cgr => callTerm f vsg cgr
def callTermList : List Term → VsGraph → CallSet → CallSet
  | [], _, cgr => cgr
  | t :: tl, vsg, cgr => callTermList tl vsg (callTerm t vsg cgr)
def callBranches (t : Term) : List (Pattern × Term) → VsGraph → CallSet → CallSet
  | [], _, cgr => cgr
  | (p, e) :: bl, vsg, cgr => callBranches t bl vsg (callTerm e (vsGraphPat vsg t p) cgr)
end

attribute [grind =] callTerm callTermList callBranches

def buildCallGraph (cgr : CallSet) (def_ : List VSymbol × Term) : CallSet :=
  callTerm syms ls def_.2 (createVsGraph def_.1) cgr

end CallGraph

/-! ## Paths of calls -/

section CallList

/-- Keep what is said of the position itself. -/
def localVec (v : List Descent) : List Descent :=
  v.zipIdx.map (fun d => if d.1 = .less d.2 ∨ d.1 = .equal d.2 then d.1 else .unknown)

/-- `sbs`: `d2` says no more than `d1`. -/
def sbs : Descent → Descent → Bool
  | _, .unknown => true
  | .equal u1, .equal u2 => u1 == u2
  | .less u1, .equal u2 => u1 == u2
  | .less u1, .less u2 => u1 == u2
  | _, _ => false

def subsumes (v1 v2 : List Descent) : Bool :=
  v1.zipIdx.all (fun d => sbs d.1 (v2.getD d.2 .unknown))

/-- The arguments that `v1` describes, when `v2` describes what they refer to. -/
def multiply (v1 v2 : List Descent) : List Descent :=
  v1.map (fun
    | .unknown => .unknown
    | .equal i => v2.getD i .unknown
    | .less i => (v2.getD i .unknown).toLess)

/-- `htb`: the calls resolved so far. -/
abbrev Resolved := List (LSymbol × List Descent)

def subsumed (htb : Resolved) (s : LSymbol) (c : List Descent) : Bool :=
  htb.any (fun e => decide (e.1 = s) && subsumes c e.2)

/-- The calls that lead to the call `c` of `s`. -/
def resolve (cgr : CallSet) (s : LSymbol) (c : List Descent) : List (LSymbol × List Descent) :=
  (cgr.findAll s).map (fun e => (e.1, multiply c e.2))

def addCall (cgr : CallSet) (id : LSymbol) : ℕ → Resolved → List (List Descent) →
    List (LSymbol × List Descent) → Option (List (List Descent))
  | _, _, lc, [] => some lc
  | 0, _, _, _ :: _ => none
  | fuel + 1, htb, lc, (s, c) :: r =>
    if s = id then addCall cgr id fuel htb (localVec c :: lc) r
    else if subsumed htb s c then addCall cgr id fuel htb lc r
    else addCall cgr id fuel ((s, c) :: htb) lc (resolve cgr s c ++ r)

/-- One more than the largest parameter that a descent refers to. -/
def Descent.bound : Descent → ℕ
  | .less i | .equal i => i + 1
  | .unknown => 0

def CallSet.idxBound (cgr : CallSet) : ℕ :=
  (cgr.map (fun c => (c.2.2.map Descent.bound).foldr max 0)).foldr max 0

def CallSet.lenBound (cgr : CallSet) : ℕ :=
  (cgr.map (fun c => c.2.2.length)).foldr max 0

/-- The number of vectors that paths of calls can have: each entry is unknown or
one of two relations to a parameter. -/
def CallSet.vectors (cgr : CallSet) : ℕ :=
  ((List.range (cgr.lenBound + 1)).map (fun n => (2 * cgr.idxBound + 1) ^ n)).sum

/-- As much fuel as the search can use: a call is resolved at most once. -/
def CallSet.fuel (cgr : CallSet) : ℕ :=
  cgr.length + cgr.length * cgr.vectors * (cgr.length + 1)

def buildCallList (cgr : CallSet) (id : LSymbol) : Option (List (List Descent)) :=
  addCall cgr id cgr.fuel [] [] (cgr.findAll id)

end CallList

/-! ## Variants -/

section Variant

/-- The weaker of two descents at one position. -/
def Descent.meet (d1 d2 : Descent) : Descent :=
  match d1, d2 with
  | .unknown, _ => d1
  | _, .unknown => d2
  | .less _, _ => d1
  | _, .less _ => d2
  | _, _ => d1

def meetVec (v1 v2 : List Descent) : List Descent :=
  v1.zipIdx.map (fun d => d.1.meet (v2.getD d.2 .unknown))

/-- The decreasing positions of a vector, the last one first. -/
def decreasing (p : List Descent) : List ℕ :=
  p.foldl (fun l d => match d with
    | .less i => i :: l
    | _ => l) []

def checkVectors (ls : LSymbol) : ℕ → List ℕ → List (List Descent) →
    Except TerminationExn (List ℕ)
  | _, acc, [] => .ok acc.reverse
  | 0, _, _ :: _ => .error .outOfFuel
  | fuel + 1, acc, a :: r =>
    -- the minimum of all call vectors, position by position
    let res := decreasing (r.foldl meetVec a)
    if res = [] then .error (.noTerminationProof ls)
    else checkVectors ls fuel (res.reverse ++ acc)
      ((a :: r).filter (fun v => res.all (fun i => v.getD i .unknown ≠ .less i)))

def findVariant (cgr : CallSet) (ls : LSymbol) : Except TerminationExn (List ℕ) :=
  match buildCallList cgr ls with
  | none => .error .outOfFuel
  | some cl => checkVectors ls cl.length [] cl

end Variant

/-! ## The check -/

/-- A map from logic symbols (`Mls.t`): bindings in the order of the tags. -/
abbrev Mls (β : Type) := List (LSymbol × β)

def Mls.add {β : Type} (ls : LSymbol) (b : β) : Mls β → Mls β
  | [] => [(ls, b)]
  | (ls', b') :: m =>
    if ls = ls' then (ls, b) :: m
    else if ls.lsName < ls'.lsName then (ls, b) :: (ls', b') :: m
    else (ls', b') :: Mls.add ls b m

def Mls.mem {β : Type} (m : Mls β) (ls : LSymbol) : Bool :=
  decide (ls ∈ m.map Prod.fst)

/-- `syms`: the parameters and the body of every definition. -/
def openDefns : List (LSymbol × LsDefn) → Mls (List VSymbol × Term) →
    Except TerminationExn (Mls (List VSymbol × Term))
  | [], acc => .ok acc
  | (ls, ld) :: ldl, acc =>
    match openLsDefn ld with
    | none => .error .assertFalse
    | some d => openDefns ldl (Mls.add ls d acc)

def callSet (syms : Mls (List VSymbol × Term)) : CallSet :=
  syms.foldl (fun cgr d => buildCallGraph syms.mem d.1 cgr d.2) []

/-- `Mls.mapi check`. -/
def findVariants (cgr : CallSet) : List LSymbol → Except TerminationExn (Mls (List ℕ))
  | [] => .ok []
  | ls :: l => do
    let v ← findVariant cgr ls
    let m ← findVariants cgr l
    .ok ((ls, v) :: m)

def checkTermination (ldl : List (LSymbol × LsDefn)) :
    Except TerminationExn (List (LSymbol × LsDefn)) := do
  let syms ← openDefns ldl []
  let res ← findVariants (callSet syms) (syms.map Prod.fst)
  .ok (ldl.map (fun d => (d.1, ⟨d.1, d.2.ldAxiom, (res.lookup d.1).getD []⟩)))

end Why3
