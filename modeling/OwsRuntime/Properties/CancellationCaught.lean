import OwsRuntime.Engine.Cancelling

/-! Whether a cancellation can be caught. It is an error like any other to a `try` task,
and a catch clause that takes it and has no handler turns it into a result. -/
namespace OwsRuntime

open Async Handler

variable {α β : Type}

/-- In every run, the program returns a cancellation if it returns. -/
def ReturnsCancelled (p : Run α) (σ : EngineState) : Prop :=
  ∀ result τ, engine.Finishes (engine.advance p.run σ) result τ → Cancelled result

theorem returnsCancelled_of_done {p : Run α} {σ τ : EngineState} {result : Except WorkflowError α}
    (hDone : engine.advance p.run σ = (.done result, τ)) :
    ReturnsCancelled p σ ↔ Cancelled result := by
  constructor
  · intro hReturns
    apply hReturns result τ
    rw [hDone]
    exact .refl engine _
  · intro hCancelled other υ finishes
    rw [hDone] at finishes
    obtain ⟨w, _, hEq⟩ := Follows.done_cases (Reaches.follows finishes)
    cases hEq
    exact hCancelled

theorem ReturnsCancelled.seq {p : Run α} {σ : EngineState} (first : ReturnsCancelled p σ)
    (f : α → Run β) : ReturnsCancelled (p >>= f) σ := by
  intro result τ finishes
  obtain ⟨value, υ, hFirst, hRest⟩ := Follows.bind_done (Reaches.follows finishes)
  obtain ⟨e, rfl, hKind⟩ := first value υ hFirst.reaches
  obtain ⟨w, _, hEq⟩ := Follows.done_cases hRest
  cases hEq
  exact ⟨e, rfl, hKind⟩

theorem outOfFuel_returnsCancelled (σ : EngineState) : ReturnsCancelled (outOfFuel : Run α) σ := by
  intro result τ finishes
  rcases (Reaches.follows finishes).act_cases with ⟨w, _, hEq⟩ | ⟨w, reply, υ, _, hPerform, _⟩
  · cases hEq
  · cases hPerform

section Cancelled

variable {σ : EngineState} (hCancelled : σ.world.cancelled = true)

include hCancelled

theorem failIfCancelled_returnsCancelled (ctx : ExecContext) :
    ReturnsCancelled ctx.failIfCancelled σ := by
  have hLoad : engine.advance (ExceptT.lift isCancelled : Run Bool).run σ =
      (.done (.ok true), σ) := by
    rw [← hCancelled]
    rfl
  have hStop : engine.advance (ExceptT.lift (ask .stop) : Run Unit).run σ =
      (.done (.ok ()), σ.mapLocal fun l => { l with stopped := σ.world.cancelled }) := rfl
  have hDone : engine.advance ctx.failIfCancelled.run σ =
      (.done (.error ctx.cancelledError), σ.mapLocal fun l => { l with stopped := σ.world.cancelled }) :=
    (advance_bind_of_ok hLoad).trans ((advance_bind_of_ok hStop).trans rfl)
  exact (returnsCancelled_of_done hDone).mpr ⟨ctx.cancelledError, rfl, rfl⟩

/-- A scope that is entered when the execution is cancelled fails as it is cancelled. -/
theorem scope_returnsCancelled (env : RuntimeInner) (fuel : Nat) (wf : CompiledWorkflow)
    (ctx : ExecContext) (tasks : List CompiledTask) (input : Value) :
    ReturnsCancelled ((runner env fuel).scope wf ctx tasks input) σ := by
  match fuel with
  | 0 => exact outOfFuel_returnsCancelled σ
  | 1 => exact outOfFuel_returnsCancelled σ
  | fuel + 2 => exact ((failIfCancelled_returnsCancelled hCancelled ctx).seq _).seq _

end Cancelled

/-- The delay before a retry is drawn within the turn. -/
theorem advance_computeDelay (policy : RetryPolicyDef) (attempt : Nat) (σ : EngineState) :
    ∃ delay, engine.advance (computeDelay policy attempt) σ = (.done delay, σ) := by
  unfold computeDelay
  cases policy.jitter with
  | none => exact ⟨_, rfl⟩
  | some range => exact ⟨_, rfl⟩

/-- The rest of a `try` task whose body has failed returns a cancellation. -/
def TryTask.PassesOn (t : TryTask) (attempt : Nat) (err : WorkflowError) (σ : EngineState) : Prop :=
  ReturnsCancelled (t.conclude attempt (.error err) >>= t.next attempt) σ

/-- A `try` task whose body has failed as the execution is cancelled returns that failure
exactly if the decision of its catch clause lets it pass. -/
theorem TryTask.passesOn_iff (t : TryTask) (attempt : Nat) {err : WorkflowError} {σ : EngineState}
    (hCancelled : σ.world.cancelled = true) :
    t.PassesOn attempt err σ ↔ OwsRuntime.PassesOn t.handler (t.env.verdict t.catch_
      (σ.catchVars t.catch_ err t.exprCtx) (t.remaining attempt) err) := by
  obtain ⟨τ, hNoted, hDecides⟩ := advance_afterFailure t.env t.catch_ err t.exprCtx t.runner t.wf
    t.ctx t.handler t.taskInput (t.remaining attempt) attempt σ
  have hStill : τ.world.cancelled = true := by
    rw [hNoted.world]
    exact hCancelled
  have hFollowed : t.PassesOn attempt err σ ↔ ReturnsCancelled (followVerdict t.runner t.wf t.ctx
      t.handler t.taskInput attempt (t.env.verdict t.catch_ (σ.catchVars t.catch_ err t.exprCtx)
        (t.remaining attempt) err) >>= t.next attempt) τ := by
    have hSame : engine.advance (t.conclude attempt (.error err) >>= t.next attempt).run σ =
        engine.advance (followVerdict t.runner t.wf t.ctx t.handler t.taskInput attempt
          (t.env.verdict t.catch_ (σ.catchVars t.catch_ err t.exprCtx) (t.remaining attempt) err) >>=
            t.next attempt).run τ := by
      have hLeft := engine.advance_bind (t.conclude attempt (.error err)).run
        (ExceptT.bindCont (t.next attempt)) σ
      have hRight := engine.advance_bind (followVerdict t.runner t.wf t.ctx t.handler t.taskInput
        attempt (t.env.verdict t.catch_ (σ.catchVars t.catch_ err t.exprCtx) (t.remaining attempt)
          err)).run (ExceptT.bindCont (t.next attempt)) τ
      exact hLeft.trans ((congrArg (engine.continueWith _) hDecides).trans hRight.symm)
    rw [PassesOn, ReturnsCancelled, ReturnsCancelled, hSame]
  rw [hFollowed]
  cases t.env.verdict t.catch_ (σ.catchVars t.catch_ err t.exprCtx) (t.remaining attempt) err with
  | raised e =>
      have hDone : engine.advance (throw e >>= t.next attempt).run τ = (.done (.error e), τ) := rfl
      refine (returnsCancelled_of_done hDone).trans ⟨?_, fun hKind => ⟨e, rfl, hKind⟩⟩
      rintro ⟨other, hOther, hKind⟩
      cases hOther
      exact hKind
  | retried policy =>
      refine iff_of_true ?_ trivial
      obtain ⟨delay, hDelay⟩ := advance_computeDelay policy (attempt + 1) τ
      have hNext : engine.advance (followVerdict t.runner t.wf t.ctx t.handler t.taskInput attempt
          (.retried policy) >>= t.next attempt).run τ =
          engine.advance (t.next attempt (.retry delay)).run τ := by
        have hRetry : engine.advance (followVerdict t.runner t.wf t.ctx t.handler t.taskInput attempt
            (.retried policy)).run τ = (.done (.ok (.retry delay)), τ) :=
          advance_bind_of_ok (advance_lift_of_done hDelay)
        exact advance_bind_of_ok hRetry
      intro result υ finishes
      rw [hNext, t.next_retry] at finishes
      have hWait : ReturnsCancelled (waitWithCancel t.ctx delay) τ :=
        (failIfCancelled_returnsCancelled hStill t.ctx).seq _
      exact hWait.seq _ result υ finishes
  | recovered =>
      cases hHandler : t.handler with
      | none =>
          have hDone : engine.advance (followVerdict t.runner t.wf t.ctx none t.taskInput attempt
              .recovered >>= t.next attempt).run τ = (.done (.ok t.taskInput), τ) := rfl
          refine (returnsCancelled_of_done hDone).trans ⟨?_, fun hNever => (by cases hNever)⟩
          rintro ⟨e, hError, _⟩
          cases hError
      | some tasks =>
          refine iff_of_true ?_ rfl
          have hScope : ReturnsCancelled (t.runner.scope t.wf t.ctx tasks t.taskInput) τ :=
            scope_returnsCancelled hStill t.env t.fuel t.wf t.ctx tasks t.taskInput
          exact (hScope.seq _).seq _

/-- A `try` task whose body fails as the execution is cancelled returns that failure exactly
if its catch clause lets it pass. If the clauses of a workflow all do, none of its executions
hides that it has failed as it was cancelled. -/
theorem cancellation_uncaught (env : RuntimeInner) :
    (∀ (t : TryTask) (attempt : Nat) (err : WorkflowError) (σ : EngineState), t.env = env →
      σ.world.cancelled = true → err.kind = .cancelled →
        (t.PassesOn attempt err σ ↔ PassesOn t.handler (env.verdict t.catch_
          (σ.catchVars t.catch_ err t.exprCtx) (t.remaining attempt) err))) ∧
    ∀ (wf : CompiledWorkflow) (ctx : ExecContext) (fuel : Nat) (rawInput : Value)
      (startedAt : Int) (resume : Option ResumeState) (w : World)
      (result : Except WorkflowError Value) (τ : EngineState), wf.LetsPass env →
        engine.Finishes (beginExecution env fuel wf ctx rawInput startedAt resume w) result τ →
          τ.loc.stopped = true → Cancelled result := by
  constructor
  · rintro t attempt err σ rfl hCancelled _
    exact t.passesOn_iff attempt hCancelled
  · intro wf ctx fuel rawInput startedAt resume w result τ hPass finishes hStopped
    exact execution_passes hPass finishes hStopped

/-- A clause that takes every error. -/
def catchAll : CatchDef :=
  { filter := none, as_ := none, when := none, exceptWhen := none, retry := none, then_ := none }

/-- A wait in a `try` task that takes every error, and ends the workflow. -/
def guardedWait (handler : Option (List CompiledTask)) : CompiledWorkflow :=
  Sample.workflow [Sample.task "guarded" (some "end")
    (.try_ [Sample.task "pause" none (.wait 1000)] catchAll handler)] []

def repairs : List CompiledTask := [Sample.task "repair" none (.set (.map []))]

/-- The execution is cancelled during the wait. -/
def cancelsWait (turns : Nat) : List engine.Choice :=
  List.replicate 9 (.turn .here) ++ .env .cancel :: List.replicate turns (.turn .here)

/-- The workflow that has a handler consists of a try task with a wait in it, and of the task in the
handler. -/
theorem guardedWait_tasks {task : CompiledTask} (hTask : (guardedWait (some repairs)).HasTask task)
    {body : List CompiledTask} {catch_ : CatchDef} {handler : Option (List CompiledTask)}
    (hKind : task.kind = .try_ body catch_ handler) : catch_ = catchAll ∧ handler = some repairs := by
  have hLeaf : ∀ {task : CompiledTask}, (guardedWait (some repairs)).HasTask task →
      (task.kind = .try_ [Sample.task "pause" none (.wait 1000)] catchAll (some repairs)) ∨
        task.kind = .wait 1000 ∨ task.kind = .set (.map []) := by
    intro task hTask
    induction hTask with
    | root hScope hTask =>
        cases List.mem_singleton.mp hScope
        cases List.mem_singleton.mp hTask
        exact Or.inl rfl
    | child outer hScope hTask ih =>
        rcases ih with hOuter | hOuter | hOuter
        · rw [hOuter] at hScope
          rcases List.mem_pair.mp hScope with rfl | rfl
          · cases List.mem_singleton.mp hTask
            exact Or.inr (Or.inl rfl)
          · cases List.mem_singleton.mp hTask
            exact Or.inr (Or.inr rfl)
        · rw [hOuter] at hScope
          cases hScope
        · rw [hOuter] at hScope
          cases hScope
    | branch outer hBranch ih =>
        rcases ih with hOuter | hOuter | hOuter <;>
          · rw [hOuter] at hBranch
            cases hBranch
  rcases hLeaf hTask with hTry | hWait | hSet
  · rw [hTry] at hKind
    cases hKind
    exact ⟨rfl, rfl⟩
  · rw [hWait] at hKind
    cases hKind
  · rw [hSet] at hKind
    cases hKind

theorem guardedWait_letsPass : (guardedWait (some repairs)).LetsPass Sample.runtime := by
  intro task body catch_ handler hTask hKind vars remaining err _
  obtain ⟨rfl, rfl⟩ := guardedWait_tasks hTask hKind
  cases remaining <;> rfl

/-- The `try` task of that workflow, in an execution that is cancelled. -/
def guardedTask : TryTask :=
  { env := Sample.runtime, fuel := 2, wf := guardedWait (some repairs)
    ctx := executionContext Sample.runtime (guardedWait (some repairs)) "id" .null 0
    body := [Sample.task "pause" none (.wait 1000)], catch_ := catchAll, handler := some repairs
    taskInput := .null
    exprCtx := { context := .null, input := .null, output := .null, secrets := []
                 authorization := none, task := none, workflow := none, runtime := none
                 extraVars := [] } }

def cancelledState : EngineState :=
  ⟨TaskLocal.initial, Execution.initial (guardedWait (some repairs)) 0,
    { Sample.world with cancelled := true }⟩

/-- With a handler, the task lets the cancellation pass, and the cancelled execution fails. -/
theorem cancellation_uncaught_repaired :
    guardedTask.PassesOn 0 guardedTask.ctx.cancelledError cancelledState ∧
      ∃ result τ, engine.Finishes (Sample.begin_ (guardedWait (some repairs)) .null) result τ ∧
        τ.loc.stopped = true ∧ Cancelled result := by
  constructor
  · exact ((cancellation_uncaught Sample.runtime).1 guardedTask 0 guardedTask.ctx.cancelledError
      cancelledState rfl rfl rfl).mpr rfl
  · have hRun : (engine.run (Sample.begin_ (guardedWait (some repairs)) .null) (cancelsWait 7)).bind
        (fun d => d.1.value?.map (fun _ => d.2.loc.stopped)) = some true := by decide +kernel
    obtain ⟨result, τ, finishes, hStopped⟩ := @Sample.finishes_of_run _ _ _
      (fun _ σ => σ.loc.stopped) _ hRun
    exact ⟨result, τ, finishes, hStopped, (cancellation_uncaught Sample.runtime).2 _ _ _ _ _ _ _ _ _
      guardedWait_letsPass finishes hStopped⟩

/-- Without one, the cancelled execution returns an output. -/
theorem guardedWait_swallows :
    ∃ result τ, engine.Finishes (Sample.begin_ (guardedWait none) .null) result τ ∧
      τ.loc.stopped = true ∧ ¬ Cancelled result := by
  have hRun : (engine.run (Sample.begin_ (guardedWait none) .null) (cancelsWait 12)).bind
      (fun d => d.1.value?.map (fun result => (result.toBool, d.2.loc.stopped))) =
        some (true, true) := by decide +kernel
  obtain ⟨result, τ, finishes, hEnd⟩ := @Sample.finishes_of_run _ _ _ (fun result σ =>
    (result.toBool, σ.loc.stopped)) _ hRun
  obtain ⟨hOk, hStopped⟩ := Prod.mk.inj hEnd
  refine ⟨result, τ, finishes, hStopped, ?_⟩
  rintro ⟨e, rfl, _⟩
  cases hOk

end OwsRuntime
