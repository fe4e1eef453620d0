import Mathlib.Tactic

/-!
# Analysis of the output of a prover

`analyse_result` and `parse_prover_run` of `driver/call_provers.ml`.  The regular
expressions are not modelled: the output of a prover is the list of the answers and of
the model texts found in it, with the time and the number of steps found there.  The
parser of models is a parameter, and may raise.
-/

namespace Why3.CallProvers

inductive ProverAnswer
  | valid
  | invalid
  | timeout
  | outOfMemory
  | stepLimitExceeded
  | unknown (s : String)
  | failure (s : String)
  | highFailure (s : String)
deriving DecidableEq

inductive AnswerOrModel
  | answer (a : ProverAnswer)
  | model (s : String)
deriving DecidableEq

/-- What `analyse_result` raises: a failed assertion, or an exception of the parser. -/
inductive AnalyseExn (E : Type)
  | assertFailure
  | modelParser (e : E)
deriving DecidableEq

/-! ## The analysis -/

section Analyse

variable {P M E : Type}

/-- Prefer any answer over `HighFailure`. -/
def mergeAnswers (ans1 : ProverAnswer) : Option ProverAnswer → ProverAnswer
  | none => ans1
  | some ans2 =>
    match ans1 with
    | .highFailure _ => ans2
    | _ => ans1

/-- The answer that the analysis goes on with, of two consecutive ones. -/
def consecutive (res1 res2 : ProverAnswer) : ProverAnswer :=
  match res1, res2 with
  | .stepLimitExceeded, .unknown "resourceout" => .stepLimitExceeded
  | .unknown _, .unknown "resourceout" => .stepLimitExceeded
  | .timeout, .unknown "timeout" => .timeout
  | .unknown _, .unknown "timeout" => .timeout
  | .unknown s, .unknown "" => .unknown s
  | res1, .unknown "(not unknown!)" => res1
  | .unknown "", .unknown s => .unknown s
  | .unknown s1, .unknown s2 => .unknown (s1 ++ " + " ++ s2)
  | _, res2 => res2

/-- The models, the latest first, and the answer saved so far. -/
structure Saved (M : Type) where
  models : List (ProverAnswer × M)
  res : Option ProverAnswer

variable (parser : P → String → Except E M) (getModel : Option P)

def recordModel (saved : Saved M) (res : ProverAnswer) (modelStr : String) :
    Except (AnalyseExn E) (Saved M) :=
  match getModel with
  | some printingInfo =>
    match parser printingInfo modelStr with
    | .ok m => .ok ⟨(res, m) :: saved.models, some res⟩
    | .error e => .error (.modelParser e)
  | none => .ok ⟨saved.models, some (mergeAnswers res saved.res)⟩

def analyse (saved : Saved M) (l : List AnswerOrModel) :
    Except (AnalyseExn E) (ProverAnswer × List (ProverAnswer × M)) :=
  match l with
  | [] => .ok (saved.res.getD (.highFailure "default answer"), saved.models.reverse)
  | .answer .valid :: _ => .ok (.valid, [])
  | [.answer res, .answer (.highFailure _)] =>
    .ok (mergeAnswers res saved.res, saved.models.reverse)
  | .answer res1 :: .answer res2 :: tl => analyse saved (.answer (consecutive res1 res2) :: tl)
  | .answer res :: .model modelStr :: tl =>
    if res = .valid then .error .assertFailure
    else
      match recordModel parser getModel saved res modelStr with
      | .ok saved => analyse saved tl
      | .error e => .error e
  | [.answer res] =>
    if res = .valid then .error .assertFailure
    else analyse ⟨saved.models, some (mergeAnswers res saved.res)⟩ []
  | .model modelStr :: tl =>
    match recordModel parser getModel saved (.highFailure "unrecognized prover answer")
      modelStr with
    | .ok saved => analyse saved tl
    | .error e => .error e
termination_by l.length

/-- `analyse_result`, on the list of what was found in the output, which the answer for
the exit status ends. -/
def analyseResult (exitResult : List AnswerOrModel) (out : List AnswerOrModel) :
    Except (AnalyseExn E) (ProverAnswer × List (ProverAnswer × M)) :=
  analyse parser getModel ⟨[], none⟩ (out ++ exitResult)

end Analyse

/-! ## The result of a run -/

section Run

variable {P M E : Type}

structure ResourceLimits where
  limitTime : Float
  limitMem : ℤ
  limitSteps : ℤ

inductive ProcessStatus
  | wexited (n : ℤ)
  | wsignaled (n : ℤ)

structure ProverResult (M : Type) where
  prAnswer : ProverAnswer
  prStatus : ProcessStatus
  prOutput : String
  prTime : Float
  prSteps : ℤ
  prModels : List (ProverAnswer × M)

/-- What the regular expressions of a driver find in an output: answers and models, the
time and the number of steps. -/
structure Found where
  list : List AnswerOrModel
  time : Option Float
  steps : Option ℤ

structure ProverResultParser (P M E : Type) where
  find : String → Found
  prpExitcodes : List (ℤ × ProverAnswer)
  prpModelParser : P → String → Except E M

def exitResult (exitcodes : List (ℤ × ProverAnswer)) (signaled : Bool) (intExitcode : ℤ) :
    List AnswerOrModel :=
  if signaled then [.answer (.highFailure "signaled")]
  else
    match exitcodes.lookup intExitcode with
    | some a => [.answer a]
    | none => []

/-- The answer, the time and the number of steps under the limits. -/
def underLimits (limit : ResourceLimits) (ans : ProverAnswer) (time : Float) (steps : ℤ) :
    ProverAnswer × Float × ℤ :=
  if limit.limitSteps > 0 ∧ steps ≥ limit.limitSteps then
    match ans with
    | .highFailure _ | .unknown _ | .stepLimitExceeded => (.stepLimitExceeded, time, steps)
    | _ => (ans, time, steps)
  else if limit.limitTime > 0.0 ∧ time ≥ 0.9 * limit.limitTime - 0.1 then
    match ans with
    | .highFailure _ | .unknown _ | .timeout => (.timeout, limit.limitTime, steps)
    | _ => (ans, time, steps)
  else (ans, time, steps)

/-- `parse_prover_run` on the output `out`; `intExitcode` is `Int64.to_int exitcode`. -/
def parseProverOutput (resParser : ProverResultParser P M E) (signaled : Bool) (time : Float)
    (out : String) (intExitcode : ℤ) (limit : ResourceLimits) (getModel : Option P) :
    Except (AnalyseExn E) (ProverResult M) := do
  let found := resParser.find out
  let (ans, models) ← analyseResult resParser.prpModelParser getModel
    (exitResult resParser.prpExitcodes signaled intExitcode) found.list
  let (ans, time, steps) := underLimits limit ans (found.time.getD time) (found.steps.getD (-1))
  .ok { prAnswer := ans
        prStatus := if signaled then .wsignaled intExitcode else .wexited intExitcode
        prOutput := out
        prTime := if (0.000001 : Float) ≥ time then 0.000001 else time
        prSteps := steps
        prModels := models }

/-- The same on the file of the output, that `readAndDeleteFile` reads. -/
def parseProverRun (readAndDeleteFile : String → String) (resParser : ProverResultParser P M E)
    (signaled : Bool) (time : Float) (outfile : String) (intExitcode : ℤ)
    (limit : ResourceLimits) (getModel : Option P) : Except (AnalyseExn E) (ProverResult M) :=
  if outfile = "" then
    .ok ⟨.unknown "empty prover answer", .wexited 1, "", time, 0, []⟩
  else
    parseProverOutput resParser signaled time (readAndDeleteFile outfile) intExitcode limit getModel

end Run

end Why3.CallProvers

/-!
# What the analysis of an output says

The answer is `Valid` exactly when `Valid` was found, as long as the parser of models
accepts what comes before it; the limits change neither `Valid` nor `Invalid`.
-/

namespace Why3.CallProvers

open List

variable {P M E : Type} {parser : P → String → Except E M} {getModel : Option P}

/-! ## The first `Valid` -/

variable {l : List AnswerOrModel} {a : ProverAnswer} {l' : List AnswerOrModel}

section Before

/-- What comes before the first `Valid`. -/
def before (l : List AnswerOrModel) : List AnswerOrModel := l.takeWhile (· ≠ .answer .valid)

@[simp] theorem before_valid (l : List AnswerOrModel) : before (.answer .valid :: l) = [] :=
  rfl

theorem before_answer (h : a ≠ .valid) (l : List AnswerOrModel) :
    before (.answer a :: l) = .answer a :: before l := by
  rw [before, takeWhile_cons_of_pos (by simpa using h)]
  rfl

@[simp] theorem before_model (s : String) (l : List AnswerOrModel) :
    before (.model s :: l) = .model s :: before l := by
  rw [before, takeWhile_cons_of_pos (by simp)]
  rfl

/-- When models are asked for, the parser accepts the texts before the first `Valid`. -/
def Parses (parser : P → String → Except E M) (getModel : Option P) (l : List AnswerOrModel) :
    Prop :=
  ∀ info ∈ getModel, ∀ s, .model s ∈ before l → ∃ m, parser info s = .ok m

/-- The exception is one that the parser raises on such a text. -/
def Raises (parser : P → String → Except E M) (getModel : Option P) (l : List AnswerOrModel)
    (e : E) : Prop :=
  ∃ info ∈ getModel, ∃ s, .model s ∈ before l ∧ parser info s = .error e

theorem Raises.not_parses {e : E} (h : Raises parser getModel l e) :
    ¬ Parses parser getModel l := by
  obtain ⟨info, hinfo, s, hs, he⟩ := h
  intro hp
  obtain ⟨m, hm⟩ := hp info hinfo s hs
  rw [he] at hm
  cases hm

variable {a a' : ProverAnswer} {l : List AnswerOrModel} {s : String}

theorem parses_congr
    (h : ∀ s, .model s ∈ before l' → .model s ∈ before l) (hp : Parses parser getModel l) :
    Parses parser getModel l' :=
  fun info hinfo s hs => hp info hinfo s (h s hs)

theorem raises_congr {e : E}
    (h : ∀ s, .model s ∈ before l' → .model s ∈ before l) (hr : Raises parser getModel l' e) :
    Raises parser getModel l e := by
  obtain ⟨info, hinfo, s, hs, he⟩ := hr
  exact ⟨info, hinfo, s, h s hs, he⟩

theorem consecutive_eq_valid (h : a ≠ .valid) : consecutive a a' = .valid ↔ a' = .valid := by
  unfold consecutive
  split <;> simp_all

theorem mem_before_consecutive (h : a ≠ .valid) :
    .model s ∈ before (.answer (consecutive a a') :: l) ↔
      .model s ∈ before (.answer a :: .answer a' :: l) := by
  by_cases h' : a' = .valid
  · have hc := (consecutive_eq_valid h).mpr h'
    subst h'
    rw [hc, before_answer h, before_valid]
    simp
  · have hc : consecutive a a' ≠ .valid := fun hc => h' ((consecutive_eq_valid h).mp hc)
    rw [before_answer hc, before_answer h, before_answer h']
    simp

end Before

/-! ## The analysis -/

variable {r : Except (AnalyseExn E) (ProverAnswer × List (ProverAnswer × M))}

section Analyse

/-- What the analysis of `l` may give. -/
def Outcome (parser : P → String → Except E M) (getModel : Option P) (l : List AnswerOrModel) :
    Except (AnalyseExn E) (ProverAnswer × List (ProverAnswer × M)) → Prop
  | .ok (a, models) => (a = .valid ↔ .answer .valid ∈ l) ∧ (a = .valid → models = []) ∧
      Parses parser getModel l
  | .error (.modelParser e) => Raises parser getModel l e
  | .error .assertFailure => False

/-- The analysis of `l` goes on as that of `l'`. -/
theorem Outcome.of_eq

    (hvalid : .answer .valid ∈ l' ↔ .answer .valid ∈ l)
    (hmodel : ∀ s, .model s ∈ before l' ↔ .model s ∈ before l)
    (h : Outcome parser getModel l' r) : Outcome parser getModel l r := by
  match r with
  | .ok (a, models) =>
    exact ⟨h.1.trans hvalid, h.2.1, parses_congr (fun s hs => (hmodel s).mpr hs) h.2.2⟩
  | .error (.modelParser e) => exact raises_congr (fun s hs => (hmodel s).mp hs) h
  | .error .assertFailure => exact h

theorem mergeAnswers_ne_valid {o : Option ProverAnswer} (ha : a ≠ .valid)
    (ho : o ≠ some .valid) : mergeAnswers a o ≠ .valid := by
  unfold mergeAnswers
  split
  · exact ha
  · next ans2 =>
      split
      · exact fun h => ho (by rw [h])
      · exact ha

variable {saved : Saved M}

theorem recordModel_ok {saved' : Saved M} {s : String}
    (h : recordModel parser getModel saved a s = .ok saved') (ha : a ≠ .valid)
    (hsaved : saved.res ≠ some .valid) :
    saved'.res ≠ some .valid ∧ ∀ info ∈ getModel, ∃ m, parser info s = .ok m := by
  unfold recordModel at h
  cases hget : getModel with
  | none =>
    rw [hget] at h
    rw [← Except.ok.inj h]
    exact ⟨fun he => mergeAnswers_ne_valid ha hsaved (Option.some.inj he),
      fun info hinfo => by cases hinfo⟩
  | some info =>
    rw [hget] at h
    dsimp only at h
    cases hp : parser info s with
    | error e => rw [hp] at h; cases h
    | ok m =>
      rw [hp] at h
      rw [← Except.ok.inj h]
      refine ⟨fun he => ha (Option.some.inj he), fun info' hinfo' => ⟨m, ?_⟩⟩
      rw [← Option.some.inj hinfo', hp]

theorem recordModel_error {s : String} {x : AnalyseExn E}
    (h : recordModel parser getModel saved a s = .error x) :
    ∃ e, x = .modelParser e ∧ ∃ info ∈ getModel, parser info s = .error e := by
  unfold recordModel at h
  cases hget : getModel with
  | none => rw [hget] at h; cases h
  | some info =>
    rw [hget] at h
    dsimp only at h
    cases hp : parser info s with
    | error e =>
      rw [hp] at h
      exact ⟨e, (Except.error.inj h).symm, info, rfl, hp⟩
    | ok m => rw [hp] at h; cases h

theorem Outcome.of_model {s : String}

    (hok : ∀ info ∈ getModel, ∃ m, parser info s = .ok m)
    (hvalid : .answer .valid ∈ l' ↔ .answer .valid ∈ l)
    (hmodel : ∀ s', .model s' ∈ before l ↔ s' = s ∨ .model s' ∈ before l')
    (h : Outcome parser getModel l' r) : Outcome parser getModel l r := by
  match r with
  | .ok (a, models) =>
    refine ⟨h.1.trans hvalid, h.2.1, fun info hinfo s' hs' => ?_⟩
    rcases (hmodel s').mp hs' with rfl | hs'
    · exact hok info hinfo
    · exact h.2.2 info hinfo s' hs'
  | .error (.modelParser e) => exact raises_congr (fun s' hs' => (hmodel s').mpr (.inr hs')) h
  | .error .assertFailure => exact h

theorem outcome_error {s : String} {x : AnalyseExn E}
    (h : recordModel parser getModel saved a s = .error x) (hs : .model s ∈ before l) :
    Outcome parser getModel l (.error x) := by
  obtain ⟨e, rfl, info, hinfo, hp⟩ := recordModel_error h
  exact ⟨info, hinfo, s, hs, hp⟩

/-- Nothing is left to be parsed. -/
theorem outcome_ok {models : List (ProverAnswer × M)}
    (ha : a ≠ .valid) (hl : .answer .valid ∉ l) (hmodel : ∀ s, .model s ∉ before l) :
    Outcome parser getModel l (.ok (a, models)) :=
  ⟨⟨fun h => absurd h ha, fun h => absurd h hl⟩, fun h => absurd h ha,
    fun _ _ s hs => absurd hs (hmodel s)⟩

theorem analyse_outcome (hsaved : saved.res ≠ some .valid) :
    Outcome parser getModel l (analyse parser getModel saved l) := by
  fun_induction analyse parser getModel saved l with
  | case1 saved =>
    refine outcome_ok ?_ not_mem_nil (fun _ => not_mem_nil)
    cases hres : saved.res with
    | none => simp
    | some a =>
      rw [hres] at hsaved
      exact fun h => hsaved (congrArg some h)
  | case2 saved tl =>
    refine ⟨by simp, fun _ => rfl, fun info _ s hs => ?_⟩
    rw [before_valid] at hs
    cases hs
  | case3 saved res s hres =>
    refine outcome_ok (mergeAnswers_ne_valid hres hsaved) (by simpa using fun h => hres h.symm) ?_
    rw [before_answer hres, before_answer (by simp)]
    simp [before]
  | case4 saved res1 res2 tl hres _ ih =>
    refine (ih hsaved).of_eq ?_ (fun s => mem_before_consecutive hres)
    have hc : .valid = consecutive res1 res2 ↔ .valid = res2 := by
      rw [eq_comm, consecutive_eq_valid hres, eq_comm]
    have hne : .valid ≠ res1 := fun h => hres h.symm
    simp only [mem_cons, AnswerOrModel.answer.injEq, hc, hne, false_or]
  | case5 saved s tl hres => exact absurd rfl hres
  | case6 saved res s tl hres _ saved' hrec ih =>
    obtain ⟨hsaved', hok⟩ := recordModel_ok hrec hres hsaved
    refine (ih hsaved').of_model hok ?_ (fun s' => ?_)
    · simpa using fun h => absurd h.symm hres
    · rw [before_answer hres]
      simp
  | case7 saved res s tl hres _ x hrec =>
    refine outcome_error hrec ?_
    rw [before_answer hres]
    simp
  | case8 saved hres => exact absurd rfl hres
  | case9 saved res hres _ ih =>
    refine (ih fun he => mergeAnswers_ne_valid hres hsaved (Option.some.inj he)).of_eq ?_
      (fun s => ?_)
    · simpa using fun h => hres h.symm
    · rw [before_answer hres]
      simp
  | case10 saved s tl saved' hrec ih =>
    obtain ⟨hsaved', hok⟩ := recordModel_ok hrec (by simp) hsaved
    exact (ih hsaved').of_model hok (by simp) (fun s' => by simp)
  | case11 saved s tl x hrec => exact outcome_error hrec (by simp)

end Analyse

/-! ## The answer of a run -/

section Run

theorem underLimits_answer (limit : ResourceLimits) (a : ProverAnswer) (time : Float) (steps : ℤ)
    {b : ProverAnswer} (hb : b = .valid ∨ b = .invalid) :
    (underLimits limit a time steps).1 = b ↔ a = b := by
  unfold underLimits
  rcases hb with rfl | rfl <;> split_ifs <;> cases a <;> simp

/-- `Valid` is returned, without models, exactly when it was found and the parser accepts the
model texts before it; assertions hold; and only the parser makes the analysis raise.  The
limits of a run neither change `Valid` or `Invalid` nor make them. -/
theorem analyseResult_valid_iff (parser : P → String → Except E M) (getModel : Option P)
    (exitResult out : List AnswerOrModel) :
    ((∃ models, analyseResult parser getModel exitResult out = .ok (.valid, models)) ↔
        .answer .valid ∈ out ++ exitResult ∧ Parses parser getModel (out ++ exitResult)) ∧
      (∀ models, analyseResult parser getModel exitResult out = .ok (.valid, models) →
        models = []) ∧
      analyseResult parser getModel exitResult out ≠ .error .assertFailure ∧
      (∀ e, analyseResult parser getModel exitResult out = .error (.modelParser e) →
        Raises parser getModel (out ++ exitResult) e) ∧
      ∀ (read : String → String) (resParser : ProverResultParser P M E) signaled time outfile
        exitcode limit getModel,
        ((∃ r, parseProverRun read resParser signaled time outfile exitcode limit getModel = .ok r) ↔
          outfile = "" ∨ ∃ x, analyseResult resParser.prpModelParser getModel
            (CallProvers.exitResult resParser.prpExitcodes signaled exitcode)
            (resParser.find (read outfile)).list = .ok x) ∧
        ∀ r, parseProverRun read resParser signaled time outfile exitcode limit getModel = .ok r →
          (outfile = "" ∧ r.prAnswer ≠ .valid ∧ r.prAnswer ≠ .invalid) ∨
          ∃ a models, analyseResult resParser.prpModelParser getModel
              (CallProvers.exitResult resParser.prpExitcodes signaled exitcode)
              (resParser.find (read outfile)).list = .ok (a, models) ∧
            (r.prAnswer = .valid ↔ a = .valid) ∧ (r.prAnswer = .invalid ↔ a = .invalid) := by
  have hout : Outcome parser getModel (out ++ exitResult)
      (analyseResult parser getModel exitResult out) := analyse_outcome (by simp)
  refine ⟨⟨?_, ?_⟩, ?_, ?_, ?_, ?_⟩
  · rintro ⟨models, h⟩
    rw [h] at hout
    exact ⟨hout.1.mp rfl, hout.2.2⟩
  · rintro ⟨hvalid, hparses⟩
    match hr : analyseResult parser getModel exitResult out with
    | .ok (a, models) =>
      rw [hr] at hout
      exact ⟨models, by rw [hout.1.mpr hvalid]⟩
    | .error (.modelParser e) =>
      rw [hr] at hout
      exact absurd hparses (Raises.not_parses hout)
    | .error .assertFailure =>
      rw [hr] at hout
      exact hout.elim
  · intro models h
    rw [h] at hout
    exact hout.2.1 rfl
  · intro h
    rw [h] at hout
    exact hout
  · intro e h
    rw [h] at hout
    exact hout
  · intro read resParser signaled time outfile exitcode limit getModel
    unfold parseProverRun
    split
    · next hfile =>
        refine ⟨⟨fun _ => .inl hfile, fun _ => ⟨_, rfl⟩⟩, fun r hr => .inl ?_⟩
        rw [← Except.ok.inj hr]
        exact ⟨hfile, by simp, by simp⟩
    · next hfile =>
        unfold parseProverOutput
        simp only [bind, Except.bind]
        cases analyseResult resParser.prpModelParser getModel
          (CallProvers.exitResult resParser.prpExitcodes signaled exitcode)
          (resParser.find (read outfile)).list with
        | error e => simp [hfile]
        | ok x =>
          obtain ⟨a, models⟩ := x
          refine ⟨⟨fun _ => .inr ⟨_, rfl⟩, fun _ => ⟨_, rfl⟩⟩, fun r hr => .inr ?_⟩
          refine ⟨a, models, rfl, ?_, ?_⟩
          · rw [← Except.ok.inj hr]
            exact underLimits_answer limit a _ _ (.inl rfl)
          · rw [← Except.ok.inj hr]
            exact underLimits_answer limit a _ _ (.inr rfl)

/-- An answer, a text that the parser of models in SMT-LIB refuses, and `Valid`. -/
def refusedModel : List AnswerOrModel := [.answer (.unknown ""), .model "x\n)", .answer .valid]

def refuse : Unit → String → Except Unit Unit := fun _ _ => .error ()

/-- The `Valid` after the refused text is lost. -/
theorem not_analyseResult_valid :
    analyseResult refuse (some ()) [] refusedModel = .error (.modelParser ()) ∧
      ¬ ((∃ models, analyseResult refuse (some ()) [] refusedModel = .ok (.valid, models)) ↔
        .answer .valid ∈ refusedModel) := by
  have hrun : analyseResult refuse (some ()) [] refusedModel = .error (.modelParser ()) := by
    rw [analyseResult, refusedModel, append_nil, analyse, if_neg (by simp)]
    · rfl
    · simp
  refine ⟨hrun, fun h => ?_⟩
  obtain ⟨models, hm⟩ := h.mpr (by simp [refusedModel])
  rw [hrun] at hm
  cases hm

end Run

end Why3.CallProvers
