import Why3.Session.Tables

/-!
# Cleaning a session

The function `clean` of `session/controller_itp.ml`.  The running attempts are those in
`controller_running_proof_attempts`; the fold reads each list of nodes before it visits
them, and nodes go away meanwhile.
-/

namespace Why3.Itp

variable {Task : Type}

def paProved (s : Session Task) (paid : ℕ) : Option Bool :=
  (s.proofAttemptTable paid).map fun pa =>
    decide (pa.proofState.map ProverResult.prAnswer = some .valid)

/-- The status of a file or of a theory that is stored when it is read is not kept here. -/
def anyProved (s : Session Task) : Any → Option Bool
  | .file fid => (s.findFile fid).map fun f => (s.fileProved f).1
  | .th r => (s.theoryTable r).map fun th => (s.thProved th).1
  | .tn t => some (s.tnProved t)
  | .pn g => some (s.pnProved g)
  | .pa a => paProved s a

/-- The function `fold_all_session`: what is folded may change the session that is read, and
the files are those at the start. -/
def foldAllSession {σ : Type} (view : σ → Session Task) (f : σ → Any → Option σ) (acc : σ) :
    Option σ :=
  (view acc).sessionFiles.foldlM
    (fun a b => foldAllAny view f (foldFuel (view acc)) a (.file b.1)) acc

namespace Controller

variable (running : ℕ → Bool)

/-- An attempt that was scheduled and did not finish cannot be removed. -/
def removableProofAttempt (pa : ℕ) : Bool := !running pa

def anyRemovable : Any → Bool
  | .pa a => removableProofAttempt running a
  | _ => true

def checkRemovable (s : Session Task) (n : Any) : Option Bool :=
  foldAllAny (fun _ => s) (fun acc any => some (acc && anyRemovable running any)) (foldFuel s)
    true n

def removeSubtree (s : Session Task) (n : Any) : Option (Session Task) := do
  if (← checkRemovable running s n) then Itp.removeSubtree s n else some s

def proofIsComplete (pa : ProofAttemptNode) : Bool :=
  match pa.proofState with
  | none => false
  | some pr => !pa.proofObsolete && decide (pr.prAnswer = .valid)

/-- The test `do_remove`. -/
def doRemove (s : Session Task) (any : Any) : Option Bool := do
  if (← isDetached s any) then some true
  else
    match any with
    | .pa a => do
      let pa ← s.proofAttemptTable a
      some (s.pnProved pa.parent && !proofIsComplete pa)
    | .tn t => do
      let tn ← s.transTable t
      some (s.pnProved tn.transfParent && !s.tnProved t)
    | _ => some false

def cleanAux (s : Session Task) (any : Any) : Option (Session Task) := do
  if (← doRemove s any) then removeSubtree running s any else some s

def clean (s : Session Task) : Option Any → Option (Session Task)
  | some nid => foldAllAny id (cleanAux running) (foldFuel s) s nid
  | none => foldAllSession id (cleanAux running) s

end Controller

end Why3.Itp
