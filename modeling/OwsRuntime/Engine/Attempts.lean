import OwsRuntime.Async.Triples
import OwsRuntime.Engine.Turns
import OwsRuntime.Engine.Engine
import Mathlib.Order.MinMax

/-! The loop of a `try` task, cut into its attempts. An attempt returns an output, fails,
or asks for another attempt after a delay. -/
namespace OwsRuntime

open Async Handler

/-- What an attempt that has not failed comes to. -/
inductive AttemptOutcome where
  | finished (output : Value)
  | retry (delay : Nat)
deriving DecidableEq, Repr

section Cut

variable (env : RuntimeInner) (r : Runner) (wf : CompiledWorkflow) (ctx : ExecContext)
  (body : List CompiledTask) (catch_ : CatchDef) (handler : Option (List CompiledTask))
  (taskInput : Value) (exprCtx : ExpressionContext)

/-- The handler of a `try` task, when no further attempt is made. -/
def recovery : Run AttemptOutcome :=
  return .finished (← tryLoop.recover r wf ctx handler taskInput)

/-- What a `try` task does once its body has failed. -/
def afterFailure (remaining attempt : Nat) (err : WorkflowError) : Run AttemptOutcome := do
  ask (.bindVar (catch_.as_.getD "error") err.toProblemJson)
  if ← catchMatches env catch_ err exprCtx then
    let again ← retryable env catch_.retry exprCtx
    match remaining, catch_.retry with
    | _ + 1, some retry =>
        if again then return .retry (← computeDelay retry (attempt + 1))
        else recovery r wf ctx handler taskInput
    | _, _ => recovery r wf ctx handler taskInput
  else throw err

/-- What a `try` task does with what its body comes to. -/
def concludeAttempt (remaining attempt : Nat) :
    Except WorkflowError Value → Run AttemptOutcome
  | .ok output => return .finished output
  | .error err => afterFailure env r wf ctx catch_ handler taskInput exprCtx remaining attempt err

/-- One attempt of a `try` task. -/
def tryAttempt (remaining attempt : Nat) : Run AttemptOutcome := do
  ctx.failIfCancelled
  let result ← outcome (r.scope wf ctx body taskInput)
  concludeAttempt env r wf ctx catch_ handler taskInput exprCtx remaining attempt result

/-- What follows an attempt. -/
def nextAttempt (remaining attempt : Nat) : AttemptOutcome → Run Value
  | .finished output => return output
  | .retry delay => do
      waitWithCancel ctx delay
      tryLoop env r wf ctx body catch_ handler taskInput exprCtx (remaining - 1) (attempt + 1)

/-- A try task makes an attempt, and then does what the outcome of that attempt says: it returns,
fails, or waits and makes the next one. -/
theorem tryLoop_eq (remaining attempt : Nat) :
    tryLoop env r wf ctx body catch_ handler taskInput exprCtx remaining attempt =
      tryAttempt env r wf ctx body catch_ handler taskInput exprCtx remaining attempt >>=
        nextAttempt env r wf ctx body catch_ handler taskInput exprCtx remaining attempt := by
  rw [tryLoop, tryAttempt]
  simp only [bind_assoc]
  congr 1
  funext _
  congr 1
  funext result
  cases result with
  | ok output => simp [concludeAttempt, nextAttempt]
  | error err =>
      refine Eq.trans (congrArg (_ >>= ·) (funext fun _ => ?_)) (bind_assoc _ _ _).symm
      rw [bind_assoc]
      congr 1
      funext caught
      cases caught with
      | false => rfl
      | true =>
          simp only [bind_assoc, if_true]
          congr 1
          funext again
          cases remaining with
          | zero => simp [recovery, nextAttempt]
          | succ left =>
              cases catch_.retry with
              | none => simp [recovery, nextAttempt]
              | some retry => cases again <;> simp [recovery, nextAttempt]

end Cut

section Verdicts

/-- Whether a catch clause takes an error. -/
def RuntimeInner.catches (env : RuntimeInner) (catch_ : CatchDef) (err : WorkflowError)
    (vars : Map) : Except WorkflowError Bool :=
  if (catch_.filter.getD []).all fun entry =>
      valuesEqual (problemField err.problem entry.1) entry.2 then
    env.conditions catch_.when catch_.exceptWhen vars
  else .ok false

/-- Whether a policy retries, its attempt limit apart. -/
def RuntimeInner.retries (env : RuntimeInner) (retry : Option RetryPolicyDef) (vars : Map) :
    Except WorkflowError Bool :=
  match retry with
  | some policy => env.conditions policy.when policy.exceptWhen vars
  | none => .ok false

/-- What a catch clause decides about an error. -/
inductive Verdict where
  | raised (e : WorkflowError)
  | retried (policy : RetryPolicyDef)
  | recovered

/-- The decision of a catch clause while the policy still allows `remaining` retries. -/
def RuntimeInner.verdict (env : RuntimeInner) (catch_ : CatchDef) (vars : Map) (remaining : Nat)
    (err : WorkflowError) : Verdict :=
  match env.catches catch_ err vars with
  | .error e => .raised e
  | .ok false => .raised err
  | .ok true =>
      match env.retries catch_.retry vars with
      | .error e => .raised e
      | .ok again =>
          match remaining, catch_.retry with
          | _ + 1, some policy => if again then .retried policy else .recovered
          | _, _ => .recovered

/-- What follows the decision. -/
def followVerdict (r : Runner) (wf : CompiledWorkflow) (ctx : ExecContext)
    (handler : Option (List CompiledTask)) (taskInput : Value) (attempt : Nat) :
    Verdict → Run AttemptOutcome
  | .raised e => throw e
  | .retried policy => return .retry (← computeDelay policy (attempt + 1))
  | .recovered => recovery r wf ctx handler taskInput

/-- The state in which a catch clause decides about an error, which is bound to its name. -/
def EngineState.caught (σ : EngineState) (catch_ : CatchDef) (err : WorkflowError) : EngineState :=
  (EngineState.note σ (.bound (catch_.as_.getD "error"))).mapLocal fun l =>
    { l with loopVars := Map.insert (catch_.as_.getD "error") err.toProblemJson l.loopVars }

/-- The variables of the conditions of a catch clause. -/
def EngineState.catchVars (σ : EngineState) (catch_ : CatchDef) (err : WorkflowError)
    (exprCtx : ExpressionContext) : Map :=
  Map.extend exprCtx.asVariableMap (σ.caught catch_ err).loc.loopVars

variable (env : RuntimeInner) (catch_ : CatchDef) (err : WorkflowError)
  (exprCtx : ExpressionContext)

theorem advance_catchMatches (σ : EngineState) :
    ∃ τ, σ.Noted τ ∧ engine.advance (catchMatches env catch_ err exprCtx).run σ =
      (.done (env.catches catch_ err (Map.extend exprCtx.asVariableMap σ.loc.loopVars)), τ) := by
  unfold catchMatches RuntimeInner.catches
  split
  · exact advance_conditionsHold env σ catch_.when catch_.exceptWhen exprCtx
  · exact ⟨σ, .refl σ, rfl⟩

theorem advance_retryable (σ : EngineState) (retry : Option RetryPolicyDef) :
    ∃ τ, σ.Noted τ ∧ engine.advance (retryable env retry exprCtx).run σ =
      (.done (env.retries retry (Map.extend exprCtx.asVariableMap σ.loc.loopVars)), τ) := by
  cases retry with
  | none => exact ⟨σ, .refl σ, rfl⟩
  | some policy => exact advance_conditionsHold env σ policy.when policy.exceptWhen exprCtx

/-- A `try` task decides about the error of its body within a turn. -/
theorem advance_afterFailure (r : Runner) (wf : CompiledWorkflow) (ctx : ExecContext)
    (handler : Option (List CompiledTask)) (taskInput : Value) (remaining attempt : Nat)
    (σ : EngineState) :
    ∃ τ, (σ.caught catch_ err).Noted τ ∧
      engine.advance (afterFailure env r wf ctx catch_ handler taskInput exprCtx remaining attempt
        err).run σ =
      engine.advance (followVerdict r wf ctx handler taskInput attempt
        (env.verdict catch_ (σ.catchVars catch_ err exprCtx) remaining err)).run τ := by
  have hBound : engine.advance (ExceptT.lift
      (ask (.bindVar (catch_.as_.getD "error") err.toProblemJson)) : Run Unit).run σ =
      (.done (.ok ()), σ.caught catch_ err) := rfl
  obtain ⟨τ, hNoted, hCatch⟩ := advance_catchMatches env catch_ err exprCtx (σ.caught catch_ err)
  obtain ⟨υ, hMore, hRetry⟩ := advance_retryable env exprCtx τ catch_.retry
  rw [hNoted.loc] at hRetry
  rw [RuntimeInner.verdict]
  change engine.advance _ _ = (.done (env.catches catch_ err (σ.catchVars catch_ err exprCtx)), τ)
    at hCatch
  change engine.advance _ _ = (.done (env.retries catch_.retry (σ.catchVars catch_ err exprCtx)), υ)
    at hRetry
  cases hCaught : env.catches catch_ err (σ.catchVars catch_ err exprCtx) with
  | error e =>
      rw [hCaught] at hCatch
      exact ⟨τ, hNoted, (advance_bind_of_ok hBound).trans (advance_bind_of_error hCatch)⟩
  | ok matched =>
      rw [hCaught] at hCatch
      cases matched with
      | false =>
          exact ⟨τ, hNoted, (advance_bind_of_ok hBound).trans (advance_bind_of_ok hCatch)⟩
      | true =>
          refine ⟨υ, hNoted.trans hMore, (advance_bind_of_ok hBound).trans
            ((advance_bind_of_ok hCatch).trans ?_)⟩
          cases hAgain : env.retries catch_.retry (σ.catchVars catch_ err exprCtx) with
          | error e =>
              rw [hAgain] at hRetry
              exact advance_bind_of_error hRetry
          | ok again =>
              rw [hAgain] at hRetry
              refine (advance_bind_of_ok hRetry).trans ?_
              cases remaining with
              | zero => rfl
              | succ left =>
                  cases hPolicy : catch_.retry with
                  | none => rfl
                  | some policy => cases again <;> rfl

end Verdicts

/-- A `try` task on an input, for some depth of the engine. -/
structure TryTask where
  env : RuntimeInner
  fuel : Nat
  wf : CompiledWorkflow
  ctx : ExecContext
  body : List CompiledTask
  catch_ : CatchDef
  handler : Option (List CompiledTask)
  taskInput : Value
  exprCtx : ExpressionContext

namespace TryTask

variable (t : TryTask)

def runner : Runner := OwsRuntime.runner t.env t.fuel

def program : Run Value :=
  taskTry t.env t.runner t.wf t.ctx t.body t.catch_ t.handler t.taskInput t.exprCtx

def bodyRun : Run Value := t.runner.scope t.wf t.ctx t.body t.taskInput

/-- The retries that are left at an attempt. -/
def remaining (attempt : Nat) : Nat := (t.catch_.retry.bind (·.attemptCount)).getD 0 - attempt

/-- What the task does once the body of an attempt has ended, up to the next attempt. -/
def conclude (attempt : Nat) : Except WorkflowError Value → Run AttemptOutcome :=
  concludeAttempt t.env t.runner t.wf t.ctx t.catch_ t.handler t.taskInput t.exprCtx
    (t.remaining attempt) attempt

def next (attempt : Nat) : AttemptOutcome → Run Value :=
  nextAttempt t.env t.runner t.wf t.ctx t.body t.catch_ t.handler t.taskInput t.exprCtx
    (t.remaining attempt) attempt

def attempt (attempt : Nat) : Run AttemptOutcome :=
  tryAttempt t.env t.runner t.wf t.ctx t.body t.catch_ t.handler t.taskInput t.exprCtx
    (t.remaining attempt) attempt

/-- The task, from one of its attempts on. -/
def from_ (attempt : Nat) : Run Value :=
  tryLoop t.env t.runner t.wf t.ctx t.body t.catch_ t.handler t.taskInput t.exprCtx
    (t.remaining attempt) attempt

theorem program_eq : t.program = t.from_ 0 := rfl

theorem from_eq (attempt : Nat) : t.from_ attempt = t.attempt attempt >>= t.next attempt :=
  tryLoop_eq t.env t.runner t.wf t.ctx t.body t.catch_ t.handler t.taskInput t.exprCtx
    (t.remaining attempt) attempt

theorem next_retry (attempt delay : Nat) :
    t.next attempt (.retry delay) = waitWithCancel t.ctx delay >>= fun _ => t.from_ (attempt + 1) := by
  rw [next, nextAttempt, from_, remaining, remaining, Nat.sub_add_eq]

/-- What the task does once the body of an attempt has ended. -/
def rest (attempt : Nat) (result : Except WorkflowError Value) : Future (Except WorkflowError Value) :=
  (t.conclude attempt result >>= t.next attempt).run

/-- Unless the execution is cancelled, an attempt begins with its body, and does the rest after
that. -/
theorem advance_from {σ : EngineState} (hRunning : σ.world.cancelled = false) (attempt : Nat) :
    engine.advance (t.from_ attempt).run σ =
      engine.continueWith (t.rest attempt) (engine.advance t.bodyRun.run σ) := by
  have hCheck : engine.advance t.ctx.failIfCancelled.run σ = (.done (.ok ()), σ) := by
    have hLoad : engine.advance (ExceptT.lift isCancelled : Run Bool).run σ =
        (.done (.ok false), σ) := by
      rw [← hRunning]
      rfl
    exact advance_bind_of_ok hLoad
  have hProgram : t.from_ attempt = t.ctx.failIfCancelled >>= fun _ =>
      outcome t.bodyRun >>= fun result => t.conclude attempt result >>= t.next attempt := by
    rw [from_eq, TryTask.attempt, tryAttempt]
    simp only [bind_assoc]
    rfl
  rw [hProgram, advance_bind_of_ok hCheck, ← engine.advance_bind]
  show engine.advance ((t.bodyRun.run.bind (.done ∘ Except.ok)).bind (ExceptT.bindCont _)) σ = _
  rw [Program.bind_assoc]
  rfl

/-- The task may begin this attempt, when it has waited for so long between the earlier
ones. -/
inductive Attempts (σ₀ : EngineState) : Nat → Nat → EngineState → Prop where
  | first : Attempts σ₀ 0 0 σ₀
  | again {attempt waited delay : Nat} {σ τ υ : EngineState} :
      Attempts σ₀ attempt waited σ →
      engine.Finishes (engine.advance (t.attempt attempt).run σ) (.ok (.retry delay)) τ →
      engine.Finishes (engine.advance (waitWithCancel t.ctx delay).run τ) (.ok ()) υ →
      Attempts σ₀ (attempt + 1) (waited + delay) υ

/-- Where a run of the task stands: in an attempt, in a wait between two of them, or at
its end. -/
inductive Stands (σ₀ : EngineState) : Config engineSig (Except WorkflowError Value) → Prop where
  | trying {attempt waited : Nat} {σ : EngineState}
      {e : Config engineSig (Except WorkflowError AttemptOutcome)} :
      t.Attempts σ₀ attempt waited σ →
      engine.Reaches (engine.advance (t.attempt attempt).run σ) e → e.1.value? = none →
      Stands σ₀ (e.1.bind (ExceptT.bindCont (t.next attempt)), e.2)
  | waiting {attempt waited delay : Nat} {σ τ : EngineState}
      {e : Config engineSig (Except WorkflowError Unit)} :
      t.Attempts σ₀ attempt waited σ →
      engine.Finishes (engine.advance (t.attempt attempt).run σ) (.ok (.retry delay)) τ →
      engine.Reaches (engine.advance (waitWithCancel t.ctx delay).run τ) e → e.1.value? = none →
      Stands σ₀ (e.1.bind (ExceptT.bindCont fun _ => t.from_ (attempt + 1)), e.2)
  | ended {result : Except WorkflowError Value} {τ : EngineState} : Stands σ₀ (.done result, τ)

end TryTask

/-- Some error, bound to the name which a catch clause gives it, makes the conditions of
the policy ask for a retry. -/
def RuntimeInner.MayRetry (env : RuntimeInner) (policy : RetryPolicyDef) : Prop :=
  ∃ (exprCtx : ExpressionContext) (name : String) (err : WorkflowError) (loopVars : Map),
    env.conditions policy.when policy.exceptWhen
      (Map.extend exprCtx.asVariableMap (Map.insert name err.toProblemJson loopVars)) = .ok true

/-- The longest delay before a retry. -/
def RetryPolicyDef.longestDelay (policy : RetryPolicyDef) (attempt : Nat) : Nat :=
  match policy.jitter with
  | none => backoffDelay policy attempt
  | some (from_, to_) =>
      min (backoffDelay policy attempt +
        min (from_ + ((to_ - from_) / 1000000 - 1) * 1000000) maxDuration) maxDuration

section Retries

variable {env : RuntimeInner} {catch_ : CatchDef} {vars : Map} {remaining : Nat}
  {err : WorkflowError} {policy : RetryPolicyDef} {allowed : engine.Choice → Prop}

/-- A catch clause retries only as its policy says: there is a policy, attempts are left, and both
of its conditions have been evaluated to a retry. -/
theorem verdict_retried (hVerdict : env.verdict catch_ vars remaining err = .retried policy) :
    catch_.retry = some policy ∧ 0 < remaining ∧
      env.conditions policy.when policy.exceptWhen vars = .ok true := by
  rw [RuntimeInner.verdict] at hVerdict
  cases hCatch : env.catches catch_ err vars with
  | error e =>
      rw [hCatch] at hVerdict
      cases hVerdict
  | ok matched =>
      rw [hCatch] at hVerdict
      cases matched with
      | false => cases hVerdict
      | true =>
          cases hAgain : env.retries catch_.retry vars with
          | error e =>
              rw [hAgain] at hVerdict
              cases hVerdict
          | ok again =>
              rw [hAgain] at hVerdict
              cases remaining with
              | zero => cases hVerdict
              | succ left =>
                  cases hRetry : catch_.retry with
                  | none =>
                      rw [hRetry] at hVerdict
                      cases hVerdict
                  | some other =>
                      rw [hRetry] at hVerdict hAgain
                      cases again with
                      | false => cases hVerdict
                      | true =>
                          cases hVerdict
                          exact ⟨rfl, Nat.succ_pos left, hAgain⟩

theorem computeDelay_ensures (policy : RetryPolicyDef) (attempt : Nat) (σ : EngineState) :
    Ensures allowed (fun _ => True) (fun delay _ => delay ≤ policy.longestDelay attempt)
      (computeDelay policy attempt) σ := by
  unfold computeDelay RetryPolicyDef.longestDelay
  cases policy.jitter with
  | none => exact Ensures.done fun _ _ => ⟨trivial, Nat.le_refl _⟩
  | some range =>
      obtain ⟨from_, to_⟩ := range
      refine Ensures.sync rfl rfl (Ensures.done fun _ _ => ⟨trivial, ?_⟩)
      have hBelow := Nat.min_le_right (σ.world.oracle.jitter ((to_ - from_) / 1000000))
        ((to_ - from_) / 1000000 - 1)
      have hExtra := min_le_min (Nat.add_le_add_left (Nat.mul_le_mul_right 1000000 hBelow) from_)
        (Nat.le_refl maxDuration)
      exact min_le_min (Nat.add_le_add_left hExtra _) (Nat.le_refl maxDuration)

/-- What an attempt says when it asks for another one. -/
def AsksRetry (env : RuntimeInner) (catch_ : CatchDef) (remaining attempt : Nat) :
    Except WorkflowError AttemptOutcome → Prop
  | .ok (.retry delay) =>
      0 < remaining ∧ ∃ policy, catch_.retry = some policy ∧ env.MayRetry policy ∧
        delay ≤ policy.longestDelay (attempt + 1)
  | _ => True

theorem recovery_ensures (r : Runner) (wf : CompiledWorkflow) (ctx : ExecContext)
    (handler : Option (List CompiledTask)) (taskInput : Value) (attempt : Nat) (σ : EngineState) :
    Ensures allowed (fun _ => True) (fun result _ => AsksRetry env catch_ remaining attempt result)
      (recovery r wf ctx handler taskInput).run σ := by
  apply Ensures.seq (R := fun _ _ => True)
  · exact fun _ _ => ⟨trivial, fun _ _ => trivial⟩
  · exact fun _ _ _ _ => Ensures.done fun _ _ => ⟨trivial, trivial⟩
  · exact fun _ _ _ _ => Ensures.done fun _ _ => ⟨trivial, trivial⟩

/-- An attempt asks for a retry only when attempts are left and the policy asks for one, with a
delay that the policy allows. -/
theorem tryAttempt_ensures (r : Runner) (wf : CompiledWorkflow) (ctx : ExecContext)
    (body : List CompiledTask) (handler : Option (List CompiledTask)) (taskInput : Value)
    (exprCtx : ExpressionContext) (attempt : Nat) (σ : EngineState) :
    Ensures allowed (fun _ => True) (fun result _ => AsksRetry env catch_ remaining attempt result)
      (tryAttempt env r wf ctx body catch_ handler taskInput exprCtx remaining attempt).run σ := by
  have hError : ∀ (e : WorkflowError) (τ : EngineState), True → True →
      Ensures allowed (fun _ => True) (fun result _ => AsksRetry env catch_ remaining attempt result)
        (Program.done (.error e)) τ := fun _ _ _ _ => Ensures.done fun _ _ => ⟨trivial, trivial⟩
  apply Ensures.seq (R := fun _ _ => True)
  · exact fun _ _ => ⟨trivial, fun _ _ => trivial⟩
  · intro _ τ _ _
    apply Ensures.seq (R := fun _ _ => True)
    · exact fun _ _ => ⟨trivial, fun _ _ => trivial⟩
    · intro result υ _ _
      cases result with
      | ok output => exact Ensures.done fun _ _ => ⟨trivial, trivial⟩
      | error err =>
          obtain ⟨φ, _, hDecides⟩ := advance_afterFailure env catch_ err exprCtx r wf ctx handler
            taskInput remaining attempt υ
          have hVerdict : Ensures allowed (fun _ => True)
              (fun result _ => AsksRetry env catch_ remaining attempt result)
              (followVerdict r wf ctx handler taskInput attempt
                (env.verdict catch_ (EngineState.catchVars υ catch_ err exprCtx) remaining err)).run φ := by
            cases hCase : env.verdict catch_ (EngineState.catchVars υ catch_ err exprCtx) remaining err with
            | raised e => exact hError e φ trivial trivial
            | recovered => exact recovery_ensures r wf ctx handler taskInput attempt φ
            | retried policy =>
                obtain ⟨hPolicy, hLeft, hHold⟩ := verdict_retried hCase
                apply Ensures.lift
                apply (computeDelay_ensures policy (attempt + 1) φ).mono fun _ _ => trivial
                intro delay ψ _ hDelay
                exact Ensures.done fun _ _ =>
                  ⟨trivial, hLeft, policy, hPolicy, ⟨exprCtx, _, err, _, hHold⟩, hDelay⟩
          intro d follows
          apply hVerdict d
          rw [← hDecides]
          exact follows
    · exact hError
  · exact hError

end Retries

namespace TryTask

variable {t : TryTask} {σ₀ : EngineState}

/-- An attempt that asks for another one does so as the policy says. -/
theorem asksRetry {attempt delay : Nat} {σ τ : EngineState}
    (finishes : engine.Finishes (engine.advance (t.attempt attempt).run σ) (.ok (.retry delay)) τ) :
    AsksRetry t.env t.catch_ (t.remaining attempt) attempt (.ok (.retry delay)) := by
  have ensures := @tryAttempt_ensures t.env t.catch_ (t.remaining attempt) (fun _ => True) t.runner
    t.wf t.ctx t.body t.handler t.taskInput t.exprCtx attempt σ
  exact (ensures _ (Reaches.follows finishes)).2 _ rfl

theorem stands_ended {result : Except WorkflowError Value} {τ : EngineState}
    {d : Config engineSig (Except WorkflowError Value)}
    (follows : @Follows engineSig _ engine (fun _ => True) (.done result, τ) d) : t.Stands σ₀ d := by
  obtain ⟨w, _, rfl⟩ := Follows.done_cases follows
  exact .ended

/-- A run from any attempt on stands in an attempt, in a wait between two of them, or at its end.
The induction is on the run, through the waits. -/
theorem from_stands {attempt waited : Nat} {σ : EngineState}
    {d : Config engineSig (Except WorkflowError Value)} (attempts : t.Attempts σ₀ attempt waited σ)
    (follows : @Follows engineSig _ engine (fun _ => True)
      (engine.advance (t.from_ attempt).run σ) d) : t.Stands σ₀ d := by
  rw [from_eq] at follows
  have hBind := engine.advance_bind (t.attempt attempt).run (ExceptT.bindCont (t.next attempt)) σ
  rcases Follows.bind_cases (hBind ▸ follows) with
    ⟨e, hFirst, hRunning, rfl⟩ | ⟨result, τ, hFirst, hRest⟩
  · exact .trying attempts hFirst.reaches hRunning
  · match result, hFirst, hRest with
    | .error e, _, hRest => exact stands_ended hRest
    | .ok (.finished output), _, hRest => exact stands_ended hRest
    | .ok (.retry delay), hFirst, hRest =>
        have hLeft : 0 < t.remaining attempt := (asksRetry hFirst.reaches).1
        have hLess : t.remaining (attempt + 1) < t.remaining attempt := by
          unfold remaining at *
          omega
        have hWait : @Follows engineSig _ engine (fun _ => True) (engine.advance
            (t.next attempt (.retry delay)).run τ) d := hRest
        rw [next_retry] at hWait
        have hNext := engine.advance_bind (waitWithCancel t.ctx delay).run
          (ExceptT.bindCont fun _ => t.from_ (attempt + 1)) τ
        rcases Follows.bind_cases (hNext ▸ hWait) with
          ⟨e, hSecond, hRunning, rfl⟩ | ⟨slept, υ, hSecond, hMore⟩
        · exact .waiting attempts hFirst.reaches hSecond.reaches hRunning
        · match slept, hSecond, hMore with
          | .error e, _, hMore => exact stands_ended hMore
          | .ok (), hSecond, hMore =>
              exact from_stands (attempts.again hFirst.reaches hSecond.reaches) hMore
termination_by t.remaining attempt

/-- Every run of the task stands in one of its attempts, waits for the next one or has
ended. -/
theorem reaches_stands {d : Config engineSig (Except WorkflowError Value)}
    (reached : engine.Reaches (engine.advance t.program.run σ₀) d) : t.Stands σ₀ d := by
  rw [program_eq] at reached
  exact from_stands .first reached.follows

end TryTask

end OwsRuntime
