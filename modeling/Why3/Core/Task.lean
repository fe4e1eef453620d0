import Why3.Core.Decl

/-!
# Tasks

`core/task.ml`: a task is a list of declarations, uses, clones and metas, the last one
first, with the map of the known identifiers.  The maps `task_clone` and `task_meta`
only index the list, so they are read off it.

`add_tdecl` on a declaration that the task already has (`KnownIdent`) leaves the task
as it is in the source; here, as in `known_add_decl`, the identifiers count as
redeclared.  The tasks that can be built are the same.
-/

namespace Why3

/-- The metas that the transformations read; the others are told apart by a tag. -/
inductive Meta
  | depends
  | removeConstant
  | removeUnusedKeep
  | range
  | float
  | other (tag : ℕ) (excl : Bool)
deriving DecidableEq

/-- `meta_excl`: a new meta replaces the old one. -/
def Meta.excl : Meta → Bool
  | .other _ excl => excl
  | _ => false

inductive MetaArg
  | maTy (ty : Ty)
  | maTs (ts : TySymbol)
  | maLs (ls : LSymbol)
  | maPr (pr : PrSymbol)
  | maStr (s : List UInt8)
  | maInt (i : ℤ)
  | maId (id : ℕ)

/-- A theory is named by its identifier. -/
inductive Tdecl
  | decl (d : Decl)
  | use (th : ℕ)
  | clone (th : ℕ) (sm : ℕ)
  | metaDecl (m : Meta) (al : List MetaArg)

structure Task where
  tdecls : List Tdecl
  known : KnownMap

inductive TaskExn
  | lemmaFound
  | goalFound
  | decl (e : DeclExn)

namespace Task

/-- `None`. -/
def empty : Task := ⟨[], []⟩

/-- The declarations of a list, in its order. -/
def declsOf (l : List Tdecl) : List Decl :=
  l.filterMap fun td => match td with
    | .decl d => some d
    | _ => none

/-- `find_goal`. -/
def findGoal (task : Task) : Option (PrSymbol × Term) :=
  match task.tdecls with
  | .decl ⟨.dprop .pgoal p f, _⟩ :: _ => some (p, f)
  | _ => none

def checkTask (task : Task) : Except TaskExn Task :=
  match task.findGoal with
  | some _ => .error .goalFound
  | none => .ok task

def checkDecl (d : Decl) : Except TaskExn Decl :=
  match d.dNode with
  | .dprop .plemma _ _ => .error .lemmaFound
  | _ => .ok d

/-- `find_meta_tds`, as the arguments of the metas. -/
def findMetaTds (task : Task) (m : Meta) : List (List MetaArg) :=
  let all := task.tdecls.filterMap fun td => match td with
    | .metaDecl m' al => if m' = m then some al else none
    | _ => none
  if m.excl then all.take 1 else all

/-- `on_meta`. -/
def onMeta {α : Type} (m : Meta) (fn : α → List MetaArg → α) (acc : α) (task : Task) : α :=
  (task.findMetaTds m).foldl fn acc

section Add

variable (k : ℕ)

/-- `new_decl`; the tags from `k` on are free. -/
def newDecl (task : Task) (d : Decl) : Except TaskExn Task := do
  let d ← checkDecl d
  match knownAddDecl k task.known d with
  | .error e => .error (.decl e)
  | .ok kn => do
    let task ← checkTask task
    .ok ⟨.decl d :: task.tdecls, kn⟩

/-- `new_clone` and `new_meta`: the known identifiers stay. -/
def newOther (task : Task) (td : Tdecl) : Except TaskExn Task := do
  let task ← checkTask task
  .ok { task with tdecls := td :: task.tdecls }

/-- A `use` of the theory is in the task. -/
def hasUse (task : Task) (th : ℕ) : Bool :=
  task.tdecls.any fun td => match td with
    | .use th' => decide (th' = th)
    | _ => false

def addTdecl (task : Task) (td : Tdecl) : Except TaskExn Task :=
  match td with
  | .decl d => newDecl k task d
  | .use th => if task.hasUse th then .ok task else newOther task td
  | .clone _ _ | .metaDecl _ _ => newOther task td

/-- The tasks that `add_tdecl` builds. -/
inductive Run : Task → Prop
  | nil : Run empty
  | add {t td t'} : Run t → (∀ d, td = .decl d → d.Created) → addTdecl k t td = .ok t' → Run t'

end Add

end Task

end Why3
