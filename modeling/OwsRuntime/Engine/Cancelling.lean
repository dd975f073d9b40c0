import OwsRuntime.Async.Own
import OwsRuntime.Engine.Attempts
import OwsRuntime.Engine.EngineRequests
import OwsRuntime.Engine.Runs

/-! Tasks that have failed as their execution was cancelled. Such a failure travels as an
ordinary error, which every function of the engine returns to its caller; a `try` task may
do otherwise. -/
namespace OwsRuntime

open Async Law Effect Handler

/-- The error of a cancelled execution. -/
def Cancelled {α : Type} (result : Except WorkflowError α) : Prop :=
  ∃ e, result = .error e ∧ e.kind = .cancelled

/-- The requests of a task that fails as its execution is cancelled. -/
def Act.Stops : Act → Prop
  | stop => True
  | _ => False

/-- No request of a task cancels the execution: only what goes on around it does. -/
theorem perform_cancelled {a : Act} {σ τ : EngineState} {reply : a.Resp}
    (hPerform : perform a σ = some (reply, τ)) : τ.world.cancelled = σ.world.cancelled := by
  cases a with
  | setScopeExited by_ => cases by_ <;> cases hPerform <;> rfl
  | tryContext =>
      rw [perform] at hPerform
      split at hPerform <;> cases hPerform <;> rfl
  | lockContext =>
      rw [perform] at hPerform
      split at hPerform <;> cases hPerform
      rfl
  | load executionId =>
      rw [perform] at hPerform
      split at hPerform <;> cases hPerform <;> rfl
  | receive epoch =>
      obtain ⟨r, _, hEq⟩ := Option.map_eq_some_iff.mp hPerform
      cases hEq
      rfl
  | sleep duration epoch =>
      obtain ⟨r, _, hEq⟩ := Option.map_eq_some_iff.mp hPerform
      cases hEq
      rfl
  | store op =>
      rw [perform] at hPerform
      split at hPerform <;> cases hPerform
      · rfl
      · cases op.record? <;> rfl
  | outOfFuel => cases hPerform
  | _ =>
      cases hPerform
      rfl

/-- Requests that are not made to change the storage of the task leave all of it alone. -/
theorem perform_loc {a : Act} {σ τ : EngineState} {reply : a.Resp} (hKeeps : ¬ a.ChangesLocal)
    (hPerform : perform a σ = some (reply, τ)) : τ.loc = σ.loc := by
  cases a with
  | bindVar name value => exact absurd trivial hKeeps
  | unbindVar name => exact absurd trivial hKeeps
  | setApplyExtensions b => exact absurd trivial hKeeps
  | setScopeExited by_ => exact absurd trivial hKeeps
  | stop => exact absurd trivial hKeeps
  | tryContext =>
      rw [perform] at hPerform
      split at hPerform <;> cases hPerform <;> rfl
  | lockContext =>
      rw [perform] at hPerform
      split at hPerform <;> cases hPerform
      rfl
  | load executionId =>
      rw [perform] at hPerform
      split at hPerform <;> cases hPerform <;> rfl
  | receive epoch =>
      obtain ⟨r, _, hEq⟩ := Option.map_eq_some_iff.mp hPerform
      cases hEq
      rfl
  | sleep duration epoch =>
      obtain ⟨r, _, hEq⟩ := Option.map_eq_some_iff.mp hPerform
      cases hEq
      rfl
  | store op =>
      rw [perform] at hPerform
      split at hPerform <;> cases hPerform
      · rfl
      · cases op.record? <;> rfl
  | outOfFuel => cases hPerform
  | _ =>
      cases hPerform
      rfl

/-- A request that is not the one for a cancelled execution leaves the mark of the cancellation as
it was. -/
theorem perform_stopped {a : Act} {σ τ : EngineState} {reply : a.Resp} (hKeeps : ¬ a.Stops)
    (hPerform : perform a σ = some (reply, τ)) : τ.loc.stopped = σ.loc.stopped := by
  by_cases hChanges : a.ChangesLocal
  · cases a with
    | stop => exact absurd trivial hKeeps
    | setScopeExited by_ => cases by_ <;> cases hPerform <;> rfl
    | bindVar name value =>
        cases hPerform
        rfl
    | unbindVar name =>
        cases hPerform
        rfl
    | setApplyExtensions b =>
        cases hPerform
        rfl
    | _ => exact hChanges.elim
  · rw [perform_loc hChanges hPerform]

/-- A cancelled execution stays so. -/
theorem cancelled_lasting (l : TaskLocal) :
    Lasting engine fun w : World => l.stopped = true → w.cancelled = true where
  perform := by
    intro a σ reply τ hKept hPerform hStopped
    rw [perform_cancelled hPerform]
    exact hKept hStopped
  disturb := by
    intro w e hKept hStopped
    cases e with
    | cancel => rfl
    | _ => exact hKept hStopped

/-- What the requests do to the storage of a task that fails when it is cancelled. -/
def stopping : Effect engine where
  inv l w := l.stopped = true → w.cancelled = true
  lasting := cancelled_lasting
  may
    | .isCancelled, reply, l, m => m = l ∧ (l.stopped = true → reply = true)
    | .getLocal, reply, l, m => m = l ∧ reply = l
    | a, _, l, m => (¬ a.ChangesLocal → m = l) ∧ (¬ a.Stops → m.stopped = l.stopped)
  perform_may := by
    intro a σ reply τ hInv hPerform
    have hKept : ¬ a.Stops → τ.loc.stopped = true → τ.world.cancelled = true := by
      intro hKeeps
      rw [perform_cancelled hPerform, perform_stopped hKeeps hPerform]
      exact hInv
    cases a with
    | isCancelled =>
        cases hPerform
        exact ⟨⟨rfl, hInv⟩, hInv⟩
    | getLocal =>
        cases hPerform
        exact ⟨⟨rfl, rfl⟩, hInv⟩
    | stop =>
        cases hPerform
        exact ⟨⟨fun h => absurd trivial h, fun h => absurd trivial h⟩, id⟩
    | _ => exact ⟨⟨fun h => perform_loc h hPerform, fun h => perform_stopped h hPerform⟩, hKept id⟩

/-- The task has not failed as its execution was cancelled. -/
def Unhalted (l : TaskLocal) : Prop := l.stopped = false

/-- A law for programs that do not stop. -/
def quiet : Law engine := { may := fun _ a => ¬ a.Stops, fits := fun _ _ => True, enters := fun _ => False }

/-- All that a workflow may ask for is allowed, but for the failure of a cancelled execution. -/
theorem quiet_terms (env : RuntimeInner) (wf : CompiledWorkflow) :
    Terms env wf fun a => ¬ a.Stops where
  routine := by
    intro a hRoutine
    cases a <;> first | exact id | exact hRoutine.elim
  evaluates _ _ _ := id
  unresolved _ := id

/-- So a request without such a failure keeps the mark. -/
theorem stopping_stopped {a : Act} {reply : a.Resp} {l m : TaskLocal} (hKeeps : ¬ a.Stops)
    (hMay : stopping.may a reply l m) : m.stopped = l.stopped := by
  cases a with
  | isCancelled => rw [hMay.1]
  | getLocal => rw [hMay.1]
  | _ => exact hMay.2 hKeeps

variable {α β : Type}

/-- A program that does not stop leaves the task as it was in that respect. -/
theorem leaves_of_quiet {p : Future α} {Q : α → Prop} (asks : quiet.Asks p (fun a => ¬ a.Stops) Q)
    {l : TaskLocal} (hStart : Unhalted l) :
    stopping.Leaves Unhalted p (fun value m => Q value ∧ Unhalted m) l := by
  apply Leaves.of_asks asks (fun _ _ => trivial) (fun _ => id) _ hStart
  intro a reply l m hKeeps hMay hUnstopped
  exact (stopping_stopped hKeeps hMay).trans hUnstopped

/-- Once the task has failed as its execution was cancelled, the program returns that
failure. -/
def Passes (p : Run α) : Prop :=
  ∀ l, Unhalted l → stopping.Leaves Unhalted p.run (fun result m => m.stopped = true → Cancelled result) l

/-- A task that has already failed as its execution was cancelled fails again. -/
def Halts (p : Run α) : Prop :=
  ∀ l : TaskLocal, l.stopped = true → stopping.Leaves Unhalted p.run (fun result _ => Cancelled result) l

section Rules

variable {p : Run α} {f : α → Run β} {R : α → Prop}

/-- A program that never stops returns any failure it likes: it has none to pass on. -/
theorem passes_of_asks {Q : Except WorkflowError α → Prop}
    (asks : quiet.Asks p.run (fun a => ¬ a.Stops) Q) : Passes p := by
  intro l hStart
  apply (leaves_of_quiet asks hStart).mono
  intro result m hResult hStopped
  exact absurd (hResult.2.symm.trans hStopped) Bool.false_ne_true

/-- A program passes a cancellation on when both of its parts do: if the first has failed, the
second does not run. -/
theorem Passes.seq (first : Passes p) (second : ∀ value, Passes (f value)) : Passes (p >>= f) := by
  intro l hStart
  apply (first l hStart).seq
  · intro value m hResult
    apply second value m
    cases hStopped : m.stopped with
    | false => exact hStopped
    | true =>
        obtain ⟨e, hError, _⟩ := hResult hStopped
        cases hError
  · intro e m hResult hStopped
    obtain ⟨_, hError, hKind⟩ := hResult hStopped
    cases hError
    exact ⟨e, rfl, hKind⟩

/-- A program that does not stop, and then one that knows its result. -/
theorem Passes.after (asks : quiet.AsksOk p (fun a => ¬ a.Stops) R)
    (second : ∀ value, R value → Passes (f value)) : Passes (p >>= f) := by
  intro l hStart
  apply (leaves_of_quiet asks hStart).seq
  · exact fun value m hResult => second value (hResult.1 value rfl) m hResult.2
  · intro e m hResult hStopped
    exact absurd (hResult.2.symm.trans hStopped) Bool.false_ne_true

/-- Before a program that passes cancellations on, another one may run that does not stop. -/
theorem Passes.quietly (asks : Obeys quiet (fun a => ¬ a.Stops) p)
    (second : ∀ value, Passes (f value)) : Passes (p >>= f) :=
  Passes.after asks fun value _ => second value

/-- A result at once makes no request. -/
theorem Passes.done {result : Except WorkflowError α} : Passes (ExceptT.mk (Program.done result)) := by
  intro l hStart hStopped
  exact absurd (hStart.symm.trans hStopped) Bool.false_ne_true

/-- A value returned at once passes everything on, -/
theorem Passes.pure {value : α} : Passes (Pure.pure value) := Passes.done

/-- and so does an error. -/
theorem Passes.throw {e : WorkflowError} : Passes (throw e : Run α) := Passes.done

/-- A program that fails again at once does not come to what follows it. -/
theorem Halts.seq (halts : Halts p) : Halts (p >>= f) := by
  intro l hStopped
  apply (halts l hStopped).seq
  · intro value m hResult
    obtain ⟨e, hError, _⟩ := hResult
    cases hError
  · intro e m hResult
    obtain ⟨_, hError, hKind⟩ := hResult
    cases hError
    exact ⟨e, rfl, hKind⟩

/-- The request that marks the task is answered by the failure itself. -/
theorem stop_leaves (ctx : ExecContext) (l : TaskLocal) :
    stopping.Leaves Unhalted (ctx.stop : Run α).run (fun result _ => Cancelled result) l := by
  refine ⟨fun h => (by cases h), fun _ m _ => ⟨_, rfl, rfl⟩⟩

/-- So it passes on what it has marked. -/
theorem stop_passes (ctx : ExecContext) : Passes (ctx.stop : Run α) :=
  fun l _ => (stop_leaves ctx l).mono fun _ _ hCancelled _ => hCancelled

/-- The check for a cancellation fails exactly when it marks the task, -/
theorem failIfCancelled_passes (ctx : ExecContext) : Passes ctx.failIfCancelled := by
  apply Passes.quietly (do_obeys id)
  intro cancelled
  cases cancelled with
  | true => exact stop_passes ctx
  | false => exact Passes.pure

/-- and in a marked task it fails again: the execution is still cancelled. -/
theorem failIfCancelled_halts (ctx : ExecContext) : Halts ctx.failIfCancelled := by
  intro l hStopped
  refine ⟨fun h => (by cases h), fun cancelled m hMay => ?_⟩
  obtain ⟨rfl, hReply⟩ := hMay
  rw [hReply hStopped]
  exact stop_leaves ctx m

end Rules

/-- What a `try` task does with a cancellation whatever its variables are: it passes it on, or
does something that is cancelled again. -/
def PassesOn (handler : Option (List CompiledTask)) : Verdict → Prop
  | .raised e => e.kind = .cancelled
  | .retried _ => True
  | .recovered => handler.isSome

/-- No catch clause of the workflow keeps a cancellation to itself. -/
def CompiledWorkflow.LetsPass (env : RuntimeInner) (wf : CompiledWorkflow) : Prop :=
  ∀ {task body catch_ handler}, wf.HasTask task → task.kind = .try_ body catch_ handler →
    ∀ vars remaining err, err.kind = .cancelled →
      PassesOn handler (env.verdict catch_ vars remaining err)

/-- What the tasks rely on in the functions that the engine hands them. -/
structure Runner.Passes (env : RuntimeInner) (r : Runner) : Prop where
  scope : ∀ {wf : CompiledWorkflow} (ctx : ExecContext) {tasks : List CompiledTask} (input : Value),
    wf.LetsPass env → wf.HasScope tasks → OwsRuntime.Passes (r.scope wf ctx tasks input)
  halts : ∀ {wf : CompiledWorkflow} (ctx : ExecContext) (tasks : List CompiledTask) (input : Value),
    Halts (r.scope wf ctx tasks input)
  workflow : ∀ (sub : CompiledWorkflow) (input : Value), OwsRuntime.Passes (r.workflow sub input)

section Tasks

variable {env : RuntimeInner} {wf : CompiledWorkflow} {ctx : ExecContext}
  {exprCtx : ExpressionContext} {r : Runner}

/-- A program without rounds left waits for ever, and returns nothing. -/
theorem outOfFuel_passes : Passes (outOfFuel : Run α) :=
  fun _ _ => ⟨fun h => (by cases h), fun never => nomatch never⟩

/-- So it returns nothing else in a marked task either. -/
theorem outOfFuel_halts : Halts (outOfFuel : Run α) :=
  fun _ _ => ⟨fun h => (by cases h), fun never => nomatch never⟩

/-- An evaluation is no failure of a cancelled execution, whatever its sources. -/
theorem evaluates_quiet (sources : List ExpressionSource) :
    Evaluates (fun a : Act => ¬ a.Stops) sources := fun _ _ _ _ => id

/-- The iterations of a loop. The induction is on the items that are left, and the body is a scope
that the runner runs. -/
theorem forItems_passes (hRunner : r.Passes env) (hPass : wf.LetsPass env) (loop : ForDef)
    {body : List CompiledTask} (hBody : wf.HasScope body) (eachName atName : String)
    (items : List Value) (index : Nat) (bodyInput output : Value) :
    Passes (forItems env r wf ctx loop body eachName atName index items bodyInput output) := by
  induction items generalizing index bodyInput output with
  | nil => exact Passes.pure
  | cons item rest ih =>
      rw [forItems]
      apply Passes.seq (failIfCancelled_passes ctx)
      intro _
      apply Passes.quietly (do_obeys id)
      intro _
      apply Passes.quietly (do_obeys id)
      intro _
      apply Passes.quietly (whileHolds_obeys (quiet_terms env wf) (evaluates_quiet _) _)
      intro holds
      split
      · apply Passes.seq (hRunner.scope ctx bodyInput hPass hBody)
        intro bodyOutput
        apply Passes.quietly (do_obeys id)
        intro ended
        split
        · exact Passes.pure
        · exact ih _ _ _
      · exact Passes.pure

/-- A for task evaluates its items, which does not stop, and then iterates. -/
theorem taskFor_passes (hRunner : r.Passes env) (hPass : wf.LetsPass env) {loop : ForDef}
    {body : List CompiledTask} (hBody : wf.HasScope body) (taskInput : Value) :
    Passes (taskFor env r wf ctx loop body taskInput exprCtx) := by
  unfold taskFor
  apply Passes.quietly (evalExpr_obeys (evaluates_quiet _) _ _ _)
  intro collection
  apply Passes.quietly Obeys.ofExcept
  intro items
  apply Passes.seq (forItems_passes hRunner hPass loop hBody _ _ _ _ _ _)
  intro output
  apply Passes.quietly (do_obeys id)
  intro _
  exact Passes.quietly (do_obeys id) fun _ => Passes.pure

/-- The branches of a fork have storage of their own; the task that joins them is marked by none. -/
theorem joinBranches_passes (branches : List CompiledTask) (input : Value) (ticket need : Nat)
    {f : List (Fin branches.length × Option (Except WorkflowError Value)) → Run α}
    (hNext : ∀ finished, Passes (f finished)) :
    Passes (liftM (joinBranches r wf ctx branches input ticket need) >>= f) := by
  intro l hStart
  apply Leaves.lift (R := fun _ m => Unhalted m)
  · refine ⟨fun h => (by cases h), fun loc m hMay => ?_⟩
    obtain ⟨rfl, rfl⟩ := hMay
    exact ⟨hStart, fun _ => hStart⟩
  · exact fun finished m hm => hNext finished m hm

/-- So a fork task passes on what its own check has found. -/
theorem taskFork_passes (branches : List CompiledTask) (compete : Bool) (input : Value)
    (position : Nat) : Passes (taskFork env r wf ctx branches compete input position) := by
  unfold taskFork
  split
  · exact Passes.pure
  · split
    · exact joinBranches_passes branches input position 1 fun _ => Passes.done
    · exact joinBranches_passes branches input position branches.length fun _ => Passes.done

/-- A wait ends with its time or with the cancellation, which it passes on. -/
theorem waitWithCancel_passes (duration : Nat) : Passes (waitWithCancel ctx duration) := by
  apply Passes.seq (failIfCancelled_passes ctx)
  intro _
  apply Passes.quietly (do_obeys id)
  intro epoch
  apply Passes.quietly (do_obeys id)
  intro woken
  split
  · exact stop_passes ctx
  · exact Passes.pure

/-- In a marked task there is nothing to wait for. -/
theorem waitWithCancel_halts (duration : Nat) : Halts (waitWithCancel ctx duration) :=
  (failIfCancelled_halts ctx).seq

/-- A condition is a function of its variables. Evaluating it leaves the storage of the task as it
is. -/
theorem conditionHolds_leaves (input : Value) (vars : Map) (absent : Bool)
    (condition : Option String) (l : TaskLocal) :
    stopping.Leaves Unhalted (conditionHolds env input vars absent condition).run
      (fun result m => m = l ∧ result = env.condition input vars absent condition) l := by
  cases condition with
  | none => exact ⟨rfl, rfl⟩
  | some source =>
      refine ⟨fun h => (by cases h), fun _ m hMay => ?_⟩
      obtain rfl := hMay.1 id
      rw [RuntimeInner.condition]
      cases (env.evaluateSource source input vars).mapError (toExpressionError · none) with
      | error e => exact ⟨rfl, rfl⟩
      | ok value => exact ⟨rfl, rfl⟩

/-- So are the two conditions of a catch clause or a retry policy together, -/
theorem conditionsHold_leaves (when exceptWhen : Option String) (l : TaskLocal) :
    stopping.Leaves Unhalted (conditionsHold env when exceptWhen exprCtx).run
      (fun result m => m = l ∧
        result = env.conditions when exceptWhen (Map.extend exprCtx.asVariableMap l.loopVars)) l := by
  refine ⟨fun h => (by cases h), fun loc m hMay => ?_⟩
  obtain ⟨rfl, rfl⟩ := hMay
  show stopping.Leaves Unhalted (do
    if ← conditionHolds env .null (Map.extend exprCtx.asVariableMap loc.loopVars) true when then
      return !(← conditionHolds env .null (Map.extend exprCtx.asVariableMap loc.loopVars) false
        exceptWhen)
    else return false : Run Bool).run _ _
  generalize Map.extend exprCtx.asVariableMap loc.loopVars = vars
  rw [RuntimeInner.conditions]
  apply (conditionHolds_leaves .null vars true when loc).seq
  · rintro wanted m ⟨rfl, hWanted⟩
    rw [← hWanted]
    cases wanted with
    | false => exact ⟨rfl, rfl⟩
    | true =>
        apply (conditionHolds_leaves .null vars false exceptWhen m).seq
        · rintro excepted n ⟨rfl, hExcepted⟩
          show n = n ∧ _
          rw [← hExcepted]
          exact ⟨rfl, rfl⟩
        · rintro e n ⟨rfl, hExcepted⟩
          rw [← hExcepted]
          exact ⟨rfl, rfl⟩
  · rintro e m ⟨rfl, hWanted⟩
    rw [← hWanted]
    exact ⟨rfl, rfl⟩

/-- the decision whether an error is caught, -/
theorem catchMatches_leaves (catch_ : CatchDef) (err : WorkflowError) (l : TaskLocal) :
    stopping.Leaves Unhalted (catchMatches env catch_ err exprCtx).run
      (fun result m => m = l ∧
        result = env.catches catch_ err (Map.extend exprCtx.asVariableMap l.loopVars)) l := by
  unfold catchMatches RuntimeInner.catches
  split
  · exact conditionsHold_leaves catch_.when catch_.exceptWhen l
  · exact ⟨rfl, rfl⟩

/-- and the one whether it is tried again. -/
theorem retryable_leaves (retry : Option RetryPolicyDef) (l : TaskLocal) :
    stopping.Leaves Unhalted (retryable env retry exprCtx).run
      (fun result m => m = l ∧
        result = env.retries retry (Map.extend exprCtx.asVariableMap l.loopVars)) l := by
  cases retry with
  | none => exact ⟨rfl, rfl⟩
  | some policy => exact conditionsHold_leaves policy.when policy.exceptWhen l

/-- What may come of a failed attempt when the task has failed as it was cancelled. -/
def StaysStopped (result : Except WorkflowError AttemptOutcome) (m : TaskLocal) : Prop :=
  match result with
  | .ok (.retry _) => m.stopped = true
  | .ok (.finished _) => False
  | .error e => e.kind = .cancelled

/-- A handler of a marked task starts with the check of its scope, and fails again. -/
theorem recovery_stopped (hRunner : r.Passes env) {handler : Option (List CompiledTask)}
    (hHandler : handler.isSome) (taskInput : Value) {l : TaskLocal} (hStopped : l.stopped = true) :
    stopping.Leaves Unhalted (recovery r wf ctx handler taskInput).run StaysStopped l := by
  obtain ⟨tasks, rfl⟩ := Option.isSome_iff_exists.mp hHandler
  apply (hRunner.halts ctx tasks taskInput l hStopped).seq
  · intro value m hCancelled
    obtain ⟨e, hError, _⟩ := hCancelled
    cases hError
  · intro e m hCancelled
    obtain ⟨_, hError, hKind⟩ := hCancelled
    cases hError
    exact hKind

/-- What a try task does after a failure that is a cancellation: its verdict passes the failure on,
or waits for a next attempt, or runs the handler, and the last two are cancelled again. -/
theorem afterFailure_stopped (hRunner : r.Passes env) {catch_ : CatchDef}
    {handler : Option (List CompiledTask)} {remaining : Nat} {err : WorkflowError}
    (hPass : ∀ vars, PassesOn handler (env.verdict catch_ vars remaining err)) (taskInput : Value)
    (attempt : Nat) {l : TaskLocal} (hStopped : l.stopped = true) :
    stopping.Leaves Unhalted (afterFailure env r wf ctx catch_ handler taskInput exprCtx remaining
      attempt err).run StaysStopped l := by
  refine ⟨fun h => (by cases h), fun _ m hMay => ?_⟩
  have hm : m.stopped = true := (hMay.2 id).trans hStopped
  have hVerdict := hPass (Map.extend exprCtx.asVariableMap m.loopVars)
  rw [RuntimeInner.verdict] at hVerdict
  apply (catchMatches_leaves catch_ err m).seq
  · rintro caught n ⟨rfl, hCaught⟩
    rw [← hCaught] at hVerdict
    cases caught with
    | false => exact hVerdict
    | true =>
        apply (retryable_leaves catch_.retry n).seq
        · rintro again n ⟨rfl, hAgain⟩
          rw [← hAgain] at hVerdict
          cases remaining with
          | zero => exact recovery_stopped hRunner hVerdict taskInput hm
          | succ left =>
              cases hRetry : catch_.retry with
              | none =>
                  rw [hRetry] at hVerdict
                  exact recovery_stopped hRunner hVerdict taskInput hm
              | some policy =>
                  rw [hRetry] at hVerdict
                  cases again with
                  | false => exact recovery_stopped hRunner hVerdict taskInput hm
                  | true =>
                      show stopping.Leaves Unhalted (liftM (computeDelay policy (attempt + 1)) >>=
                        fun delay => (return .retry delay : Run AttemptOutcome)).run _ _
                      apply Leaves.lift (R := fun _ (o : TaskLocal) => o.stopped = true)
                      · unfold computeDelay
                        split
                        · exact hm
                        · refine ⟨fun h => (by cases h), fun _ o hMay => ?_⟩
                          exact (hMay.2 id).trans hm
                      · exact fun delay o ho => ho
        · rintro e n ⟨rfl, hAgain⟩
          rw [← hAgain] at hVerdict
          exact hVerdict
  · rintro e n ⟨rfl, hCaught⟩
    rw [← hCaught] at hVerdict
    exact hVerdict

/-- A handler is a scope of the workflow, which the runner runs. -/
theorem recovery_passes (hRunner : r.Passes env) (hPass : wf.LetsPass env)
    {handler : Option (List CompiledTask)} (hHandler : ∀ scope ∈ handler, wf.HasScope scope)
    (taskInput : Value) : Passes (recovery r wf ctx handler taskInput) := by
  cases handler with
  | none => exact Passes.pure
  | some tasks =>
      exact Passes.seq (hRunner.scope ctx taskInput hPass (hHandler tasks rfl)) fun _ => Passes.pure

/-- After any other failure, the delay or the handler may be the first to notice a cancellation, and
passes it on. -/
theorem afterFailure_passes (hRunner : r.Passes env) (hPass : wf.LetsPass env) {catch_ : CatchDef}
    {handler : Option (List CompiledTask)} (hHandler : ∀ scope ∈ handler, wf.HasScope scope)
    (taskInput : Value) (remaining attempt : Nat) (err : WorkflowError) :
    Passes (afterFailure env r wf ctx catch_ handler taskInput exprCtx remaining attempt err) := by
  have recovers : Passes (recovery r wf ctx handler taskInput) :=
    recovery_passes hRunner hPass hHandler taskInput
  unfold afterFailure
  apply Passes.quietly (do_obeys id)
  intro _
  apply Passes.quietly (catchMatches_obeys (quiet_terms env wf) (evaluates_quiet _) err)
  intro caught
  split
  · apply Passes.quietly (retryable_obeys (quiet_terms env wf) (evaluates_quiet _))
    intro again
    split
    · split
      · exact Passes.quietly (Obeys.lift (computeDelay_obeys (quiet_terms env wf) _ _))
          fun _ => Passes.pure
      · exact recovers
    · exact recovers
  · exact Passes.throw

/-- A failed attempt asks for another one only while retries are left. -/
theorem afterFailure_left (catch_ : CatchDef) (handler : Option (List CompiledTask))
    (taskInput : Value) (remaining attempt : Nat) (err : WorkflowError) (l : TaskLocal) :
    stopping.Leaves (fun _ => True) (afterFailure env r wf ctx catch_ handler taskInput exprCtx
      remaining attempt err).run (fun result _ => ∀ delay, result = .ok (.retry delay) →
        0 < remaining) l := by
  have recovers : ∀ m, stopping.Leaves (fun _ => True) (recovery r wf ctx handler taskInput).run
      (fun result _ => ∀ delay, result = .ok (.retry delay) → 0 < remaining) m := by
    intro m
    apply (Leaves.any _).seq
    · rintro output n _ delay hRetry
      cases hRetry
    · rintro e n _ delay hRetry
      cases hRetry
  have hError : ∀ (e : WorkflowError) (m : TaskLocal), True → ∀ delay,
      (.error e : Except WorkflowError AttemptOutcome) = .ok (.retry delay) → 0 < remaining := by
    rintro e m _ delay hRetry
    cases hRetry
  unfold afterFailure
  apply (Leaves.any _).seq _ hError
  intro _ m _
  apply (Leaves.any _).seq _ hError
  intro caught n _
  split
  · apply (Leaves.any _).seq _ hError
    intro again o _
    split
    · split
      · apply (Leaves.any _).seq _ hError
        intro delay _ _ _ _
        exact Nat.succ_pos _
      · exact recovers o
    · exact recovers o
  · exact hError err n trivial

/-- What follows a failed attempt, when the attempts after it pass cancellations on. -/
theorem concludeAttempt_passes (hRunner : r.Passes env) (hPass : wf.LetsPass env)
    {body : List CompiledTask} {catch_ : CatchDef} {handler : Option (List CompiledTask)}
    (hHandler : ∀ scope ∈ handler, wf.HasScope scope) {remaining attempt : Nat}
    {taskInput : Value} (hCatch : ∀ vars err, err.kind = .cancelled →
      PassesOn handler (env.verdict catch_ vars remaining err))
    (hAgain : 0 < remaining → Passes
      (tryLoop env r wf ctx body catch_ handler taskInput exprCtx (remaining - 1) (attempt + 1)))
    (result : Except WorkflowError Value) {m : TaskLocal}
    (hResult : m.stopped = true → Cancelled result) :
    stopping.Leaves Unhalted (concludeAttempt env r wf ctx catch_ handler taskInput exprCtx remaining
      attempt result >>= nextAttempt env r wf ctx body catch_ handler taskInput exprCtx remaining
        attempt).run (fun result m => m.stopped = true → Cancelled result) m := by
  cases hStopped : m.stopped with
  | false =>
      cases result with
      | ok output => exact fun hNow => absurd (hStopped.symm.trans hNow) Bool.false_ne_true
      | error err =>
          have hPasses : Passes (afterFailure env r wf ctx catch_ handler taskInput exprCtx remaining
              attempt err) := afterFailure_passes hRunner hPass hHandler taskInput remaining attempt err
          apply ((hPasses m hStopped).and
            (afterFailure_left catch_ handler taskInput remaining attempt err m)).seq
          · rintro outcome n ⟨hPassed, hLeft⟩
            have hn : Unhalted n := by
              cases hNow : n.stopped with
              | false => exact hNow
              | true =>
                  obtain ⟨e, hError, _⟩ := hPassed hNow
                  cases hError
            cases outcome with
            | finished output => exact fun hNow => absurd (hn.symm.trans hNow) Bool.false_ne_true
            | retry delay =>
                exact Passes.seq (waitWithCancel_passes delay) (fun _ => hAgain (hLeft delay rfl)) n hn
          · rintro e n ⟨hPassed, _⟩ hNow
            obtain ⟨_, hError, hKind⟩ := hPassed hNow
            cases hError
            exact ⟨e, rfl, hKind⟩
  | true =>
      obtain ⟨err, rfl, hKind⟩ := hResult hStopped
      apply (afterFailure_stopped hRunner (fun vars => hCatch vars err hKind) taskInput attempt
        hStopped).seq
      · intro outcome n hStays
        cases outcome with
        | finished output => exact hStays.elim
        | retry delay =>
            exact ((waitWithCancel_halts delay).seq n hStays).mono fun _ _ hCancelled _ => hCancelled
      · exact fun e n hStays _ => ⟨e, rfl, hStays⟩

/-- The body of a `try` task fails, and what follows depends on why. -/
theorem tryLoop_passes (hRunner : r.Passes env) (hPass : wf.LetsPass env) {task : CompiledTask}
    {body : List CompiledTask} {catch_ : CatchDef} {handler : Option (List CompiledTask)}
    (hTask : wf.HasTask task) (hKind : task.kind = .try_ body catch_ handler)
    (taskInput : Value) (remaining attempt : Nat) :
    Passes (tryLoop env r wf ctx body catch_ handler taskInput exprCtx remaining attempt) := by
  have hBody : wf.HasScope body := hTask.hasScope (by simp [hKind, CompiledTaskKind.childScopes])
  have hHandler : ∀ scope ∈ handler, wf.HasScope scope := by
    intro scope hMem
    exact hTask.hasScope (by simpa [hKind, CompiledTaskKind.childScopes] using Or.inr hMem)
  induction remaining generalizing attempt with
  | zero =>
      rw [tryLoop_eq, tryAttempt]
      simp only [bind_assoc]
      apply Passes.seq (failIfCancelled_passes ctx)
      intro _ l hStart
      apply Leaves.lift (hRunner.scope ctx taskInput hPass hBody l hStart)
      intro result m hResult
      exact concludeAttempt_passes hRunner hPass hHandler (fun vars => hPass hTask hKind vars 0)
        (fun h => absurd h (Nat.lt_irrefl 0)) result hResult
  | succ remaining ih =>
      rw [tryLoop_eq, tryAttempt]
      simp only [bind_assoc]
      apply Passes.seq (failIfCancelled_passes ctx)
      intro _ l hStart
      apply Leaves.lift (hRunner.scope ctx taskInput hPass hBody l hStart)
      intro result m hResult
      exact concludeAttempt_passes hRunner hPass hHandler
        (fun vars => hPass hTask hKind vars (remaining + 1)) (fun _ => ih (attempt + 1)) result hResult

/-- The loop that gathers events. The induction is on its rounds, each of which waits for an event
or for the cancellation. -/
theorem gatherListenEvents_passes {untilExpression : Option String} (vars : Map) (need : ListenNeed)
    (hasUntil : Bool) (read : String) (fuel : Nat) (s : GatherState) :
    Passes (gatherListenEvents env ctx vars need untilExpression hasUntil read fuel s) := by
  induction fuel generalizing s with
  | zero => exact outOfFuel_passes
  | succ fuel ih =>
      rw [gatherListenEvents]
      split
      · exact Passes.pure
      · apply Passes.quietly (do_obeys id)
        intro epoch
        apply Passes.quietly (do_obeys id)
        intro received
        split
        · exact stop_passes ctx
        · exact Passes.pure
        · rename_i event
          apply Passes.quietly (AsksOk.obeys (AsksOk.lift (accept_asks (evaluates_quiet _) need vars event)))
          intro accepted
          apply Passes.quietly (AsksOk.obeys (AsksOk.lift
            (acceptUntil_asks (evaluates_quiet _) vars event accepted.2)))
          intro t
          apply Passes.quietly (conditionHolds_obeys (evaluates_quiet _) _ _ _)
          intro stop
          exact ih _

/-- The iterations of a listen task. The induction is on the items, as for a loop. -/
theorem foreachItems_passes (hRunner : r.Passes env) (hPass : wf.LetsPass env)
    (fe : ListenForeachDef) {body : List CompiledTask} (hBody : wf.HasScope body)
    (atName : String) (items : List Value) (index : Nat) :
    Passes (foreachItems r wf ctx fe body atName index items) := by
  induction items generalizing index with
  | nil => exact Passes.pure
  | cons item rest ih =>
      rw [foreachItems]
      apply Passes.seq (failIfCancelled_passes ctx)
      intro _
      apply Passes.quietly (do_obeys id)
      intro _
      apply Passes.quietly (do_obeys id)
      intro _
      apply Passes.seq (hRunner.scope ctx item hPass hBody)
      intro output
      apply Passes.quietly (do_obeys id)
      intro _
      apply Passes.quietly (do_obeys id)
      intro _
      apply Passes.quietly (do_obeys id)
      intro ended
      split
      · exact Passes.pure
      · exact Passes.seq (ih _) fun _ => Passes.pure

/-- A listen task gathers its events, and then iterates over them. -/
theorem taskListen_passes (hRunner : r.Passes env) (hPass : wf.LetsPass env) (listen : ListenDef)
    {foreach_ : Option (ListenForeachDef × List CompiledTask)}
    (hForeach : ∀ fe ∈ foreach_, wf.HasScope fe.2) :
    Passes (taskListen env r wf ctx listen foreach_ exprCtx) := by
  unfold taskListen
  apply Passes.quietly (FutureObeys.mk (ask_obeys id))
  intro _
  apply Passes.seq (gatherListenEvents_passes _ _ _ _ _ _)
  intro consumed
  cases foreach_ with
  | none => exact Passes.pure
  | some fe =>
      obtain ⟨fe, body⟩ := fe
      exact Passes.seq (foreachItems_passes hRunner hPass fe (hForeach _ rfl) _ _ _) fun _ => Passes.pure

/-- A program that obeys the law of the quiet ones never stops. -/
theorem passes_of_obeys {p : Run α} (obeys : Obeys quiet (fun a => ¬ a.Stops) p) : Passes p :=
  passes_of_asks obeys

/-- A run task waits for a workflow of its own, which has its own storage. -/
theorem taskRun_passes (wf : CompiledWorkflow) (hRunner : r.Passes env) (run : RunDef)
    (taskInput : Value) : Passes (taskRun env r run taskInput exprCtx) := by
  unfold taskRun
  split
  · exact Passes.pure
  · cases run.process with
    | shell command arguments environment stdin =>
        apply Passes.quietly (interpolateString_obeys (evaluates_quiet _))
        intro command
        exact passes_of_obeys (processTail_obeys (quiet_terms env wf) (evaluates_quiet (commandSources [] _ _ _))
          (fun args stdin envVars => .shell command args envVars stdin) _)
    | script language code arguments environment stdin =>
        apply Passes.quietly (interpolateString_obeys (evaluates_quiet _))
        intro code
        exact passes_of_obeys (processTail_obeys (quiet_terms env wf) (evaluates_quiet (commandSources [] _ _ _))
          (fun args stdin envVars => .script language code args envVars stdin) _)
    | container image arguments environment stdin =>
        exact passes_of_obeys (processTail_obeys (quiet_terms env wf) (evaluates_quiet (commandSources [] _ _ _))
          (fun args stdin envVars => .container image args envVars stdin) _)
    | workflow namespace_ name version input =>
        apply Passes.quietly (interpolateValue_obeys (evaluates_quiet _))
        intro input
        apply Passes.quietly (do_obeys id)
        intro found
        cases found with
        | none => exact Passes.throw
        | some sub => exact hRunner.workflow sub _

/-- The body of a task passes cancellations on, whatever its kind. A call, an emit task and the
others that neither wait nor run a scope never stop. -/
theorem dispatch_passes (hRunner : r.Passes env) (hPass : wf.LetsPass env) {task : CompiledTask}
    (hTask : wf.HasTask task) (taskInput : Value) (position : Nat) :
    Passes (dispatch env r wf ctx task taskInput exprCtx position) := by
  have hPlain : ∀ {output : Run Value}, Passes output → Passes (dispatch.plain output) :=
    fun passes => Passes.seq passes fun _ => Passes.pure
  have hScope : ∀ scope ∈ task.kind.childScopes, wf.HasScope scope :=
    fun scope hMem => hTask.hasScope hMem
  have terms := quiet_terms env wf
  unfold dispatch
  cases hKind : task.kind with
  | set values => exact hPlain (passes_of_obeys (taskSet_obeys (evaluates_quiet _)))
  | do_ body =>
      exact hPlain (hRunner.scope ctx _ hPass (hScope body (by simp [hKind, CompiledTaskKind.childScopes])))
  | for_ loop body =>
      exact hPlain (taskFor_passes hRunner hPass
        (hScope body (by simp [hKind, CompiledTaskKind.childScopes])) taskInput)
  | fork branches compete => exact hPlain (taskFork_passes branches compete taskInput position)
  | switch cases_ =>
      exact Passes.quietly (matchCases_obeys (evaluates_quiet _) taskInput _) fun _ => Passes.pure
  | try_ body catch_ handler =>
      exact hPlain (tryLoop_passes hRunner hPass hTask hKind taskInput _ _)
  | emit event => exact hPlain (passes_of_obeys (taskEmit_obeys terms (evaluates_quiet _)))
  | listen listen foreach_ =>
      refine hPlain (taskListen_passes hRunner hPass listen fun fe hMem => hScope fe.2 ?_)
      rw [hKind, CompiledTaskKind.childScopes, Option.mem_toList]
      exact Option.mem_map_of_mem Prod.snd hMem
  | raise error =>
      exact Passes.quietly (Obeys.lift (noteError_obeys terms hTask hKind)) fun _ => Passes.throw
  | call def_ =>
      exact hPlain (passes_of_obeys (taskCall_obeys terms (evaluates_quiet _) fun _ _ => id))
  | run run => exact hPlain (taskRun_passes wf hRunner run taskInput)
  | wait duration =>
      exact hPlain (Passes.seq (waitWithCancel_passes duration) fun _ => Passes.pure)

end Tasks

section Scopes

variable {env : RuntimeInner} {wf : CompiledWorkflow} {ctx : ExecContext} {r : Runner}

/-- The tasks of an extension are run as a scope of the workflow, so they pass cancellations on as
every scope does. -/
theorem runExtensionScope_passes (hRunner : r.Passes env) (hPass : wf.LetsPass env)
    {scope : List CompiledTask} (hScope : wf.HasScope scope) (input : Value) :
    Passes (runExtensionScope r wf ctx scope input) := by
  unfold runExtensionScope
  split
  · exact Passes.pure
  · apply Passes.quietly (do_obeys id)
    intro previous
    apply Passes.quietly (do_obeys id)
    intro _
    apply Passes.quietly (do_obeys id)
    intro _ l hStart
    apply Leaves.lift (hRunner.scope ctx input hPass hScope l hStart)
    intro result m hResult
    -- what follows the scope does not touch the flag, and returns the failure
    refine ⟨fun h => (by cases h), fun after n hGet => ?_⟩
    refine ⟨fun h => (by cases h), fun _ o hExited => ?_⟩
    refine ⟨fun h => (by cases h), fun _ q hApply => ?_⟩
    have hSame : q.stopped = m.stopped :=
      (hApply.2 id).trans ((hExited.2 id).trans (congrArg TaskLocal.stopped hGet.1))
    cases result with
    | ok value =>
        intro hStopped
        obtain ⟨e, hError, _⟩ := hResult (hSame.symm.trans hStopped)
        cases hError
    | error e =>
        intro hStopped
        obtain ⟨_, hError, hKind⟩ := hResult (hSame.symm.trans hStopped)
        cases hError
        exact ⟨e, rfl, hKind⟩

/-- The extensions before a task. The induction is on the list, and an extension that ends the task
ends it without a failure. -/
theorem runBefore_passes (hRunner : r.Passes env) (hPass : wf.LetsPass env)
    {extensions : List CompiledExtension} (hExtensions : ∀ ext ∈ extensions, ext ∈ wf.extensions)
    (input : Value) : Passes (runBefore r wf ctx extensions input) := by
  induction extensions generalizing input with
  | nil => exact Passes.pure
  | cons ext rest ih =>
      have hBefore := CompiledWorkflow.HasScope.before (hExtensions ext List.mem_cons_self)
      apply Passes.seq (runExtensionScope_passes hRunner hPass hBefore input)
      intro result
      split
      · exact Passes.pure
      · have hRest := ih (fun e hMem => hExtensions e (List.mem_cons_of_mem _ hMem)) result.value
        exact Passes.seq hRest fun _ => Passes.pure

/-- The extensions after a task, one after the other. -/
theorem runAfter_passes (hRunner : r.Passes env) (hPass : wf.LetsPass env)
    {extensions : List CompiledExtension} (hExtensions : ∀ ext ∈ extensions, ext ∈ wf.extensions)
    (output : Value) : Passes (runAfter r wf ctx extensions output) := by
  induction extensions generalizing output with
  | nil => exact Passes.pure
  | cons ext rest ih =>
      have hAfter := CompiledWorkflow.HasScope.after (hExtensions ext List.mem_cons_self)
      apply Passes.seq (runExtensionScope_passes hRunner hPass hAfter output)
      intro result
      exact ih (fun e hMem => hExtensions e (List.mem_cons_of_mem _ hMem)) _

/-- The body of a task, by its kind. Those that neither wait nor run a scope never stop. -/
theorem runBody_passes (hRunner : r.Passes env) (hPass : wf.LetsPass env) {task : CompiledTask}
    (hTask : wf.HasTask task) (taskInput : Value) (exprCtx : ExpressionContext) (skipBody : Bool)
    (ticket : Nat) : Passes (runBody env r wf ctx task taskInput exprCtx skipBody ticket) := by
  unfold runBody
  split
  · exact Passes.pure
  · apply Passes.quietly (do_obeys id)
    intro position
    exact dispatch_passes hRunner hPass hTask _ _

/-- A task from its condition to the export of its context: everything about its body only
evaluates. -/
theorem runTask_passes (hRunner : r.Passes env) (hPass : wf.LetsPass env) {task : CompiledTask}
    (hTask : wf.HasTask task) (rawInput : Value) (ticket : Nat) :
    Passes (runTask env r wf ctx task rawInput ticket) := by
  have terms := quiet_terms env wf
  unfold runTask
  apply Passes.quietly Obeys.ofExcept
  intro _
  apply Passes.quietly (transformInput_obeys terms hTask rawInput)
  intro taskInput
  apply Passes.after (applicableExtensions_asks terms task rawInput)
  intro extensions hExtensions
  apply Passes.seq (runBefore_passes hRunner hPass hExtensions taskInput)
  intro before
  apply Passes.quietly (Obeys.lift (noteBefore_obeys terms before))
  intro _
  apply Passes.quietly (Obeys.lift (contextValue_obeys terms))
  intro context
  apply Passes.quietly (do_obeys id)
  intro loc
  apply Passes.seq (runBody_passes hRunner hPass hTask _ _ _ ticket)
  intro exec
  apply Passes.quietly (transformOutput_obeys terms hTask _ _)
  intro transformed
  apply Passes.seq (runAfter_passes hRunner hPass hExtensions transformed)
  intro transformed
  apply Passes.quietly Obeys.ofExcept
  intro _
  apply Passes.quietly (exportContext_obeys terms hTask _ _)
  intro exported
  apply Passes.quietly Obeys.ofExcept
  intro _
  exact Passes.quietly (Obeys.lift (setContext_obeys terms _ _)) fun _ => Passes.pure

/-- With the tasks of its extensions around it, -/
theorem execTask_passes (hRunner : r.Passes env) (hPass : wf.LetsPass env) {task : CompiledTask}
    (hTask : wf.HasTask task) (rawInput : Value) (ticket : Nat) :
    Passes (execTask env r wf ctx task rawInput ticket) := by
  apply Passes.quietly (guardHolds_obeys (quiet_terms env wf) hTask rawInput)
  intro holds
  split
  · exact runTask_passes hRunner hPass hTask rawInput ticket
  · exact Passes.pure

/-- A task is dropped only before it has failed as its execution was cancelled. -/
theorem withTimeout_passes {body : Run α} (duration : Nat) (elapsed : WorkflowError)
    (passes : Passes body) : Passes (withTimeout duration body elapsed) := by
  intro l hStart
  refine ⟨(passes l hStart).mono fun result m hResult => ?_, fun m hm hStopped => ?_⟩
  · cases result <;> exact hResult
  · exact absurd (hm.symm.trans hStopped) Bool.false_ne_true

/-- and its timeout, which fails with an error of its own. -/
theorem execTimed_passes (hRunner : r.Passes env) (hPass : wf.LetsPass env) {task : CompiledTask}
    (hTask : wf.HasTask task) (input : Value) (ticket : Nat) :
    Passes (execTimed env r wf ctx task input ticket) := by
  unfold execTimed
  split
  · exact withTimeout_passes _ _ (execTask_passes hRunner hPass hTask input ticket)
  · exact execTask_passes hRunner hPass hTask input ticket

/-- The directive of a task ends the scope, or has it go on, and never fails on a cancellation. -/
theorem followDirective_passes (tasks : List CompiledTask) (index : Nat)
    (directive : FlowDirective) (input : Value) :
    Passes (followDirective ctx tasks index directive input) := by
  have hNote : ∀ n : Note, Obeys quiet (fun a => ¬ a.Stops) (liftM (note n) : Run Unit) :=
    fun n => Obeys.lift (note_obeys id)
  cases directive with
  | continue_ => exact Passes.quietly (hNote _) fun _ => Passes.pure
  | goto name =>
      rw [followDirective]
      split
      · exact Passes.quietly (hNote _) fun _ => Passes.pure
      · exact Passes.quietly (hNote _) fun _ => Passes.throw
  | exit => exact Passes.quietly (do_obeys id) fun _ => Passes.pure
  | end_ => exact Passes.quietly (do_obeys id) fun _ => Passes.pure

/-- One round of a scope: the check, the task, and what its directive says. -/
theorem scopeStep_passes (hRunner : r.Passes env) (hPass : wf.LetsPass env)
    {tasks : List CompiledTask} (hScope : wf.HasScope tasks) (index : Nat) (input : Value) :
    Passes (scopeStep env r wf ctx tasks index input) := by
  apply Passes.seq (failIfCancelled_passes ctx)
  intro _
  apply Passes.quietly (do_obeys id)
  intro ended
  split
  · exact Passes.pure
  · split
    · exact Passes.pure
    · rename_i task hTask
      have hHas := hScope.hasTask (List.mem_of_getElem? hTask)
      apply Passes.quietly (do_obeys id)
      intro ticket
      apply Passes.seq (execTimed_passes hRunner hPass hHas input ticket)
      intro exec
      exact followDirective_passes tasks index _ _

/-- A checkpoint is a record in the store. -/
theorem checkpointState_quiet (checkpoint : Option ScopeCheckpoint) (state : ScopeState) :
    FutureObeys quiet (fun a => ¬ a.Stops) (checkpointState wf ctx checkpoint state) := by
  unfold checkpointState
  split
  · apply FutureObeys.seq (ask_obeys id)
    intro context
    exact FutureObeys.seq (ask_obeys id) fun _ => FutureObeys.pure
  · exact FutureObeys.pure

/-- The rounds of a scope. The induction is on the rounds, and each one passes on what its task did.
-/
theorem scopeLoop_passes (hRunner : r.Passes env) (hPass : wf.LetsPass env)
    {tasks : List CompiledTask} (hScope : wf.HasScope tasks) (checkpoint : Option ScopeCheckpoint)
    (fuel index : Nat) (input : Value) :
    Passes (scopeLoop env r wf ctx tasks checkpoint fuel index input) := by
  induction fuel generalizing index input with
  | zero => exact outOfFuel_passes
  | succ fuel ih =>
      rw [scopeLoop]
      apply Passes.seq (scopeStep_passes hRunner hPass hScope index input)
      intro state
      apply Passes.quietly (Obeys.lift (checkpointState_quiet checkpoint state))
      intro _
      split
      · exact Passes.pure
      · exact ih _ _

/-- A scope that is entered once the execution is cancelled fails at once. -/
theorem scopeLoop_halts (tasks : List CompiledTask) (checkpoint : Option ScopeCheckpoint)
    (fuel index : Nat) (input : Value) :
    Halts (scopeLoop env r wf ctx tasks checkpoint fuel index input) := by
  cases fuel with
  | zero => exact outOfFuel_halts
  | succ fuel => exact ((failIfCancelled_halts ctx).seq).seq

/-- An execution has storage of its own, and fails or not by itself. -/
theorem executeWith_passes (sub : CompiledWorkflow) (fuel : Nat) (rawInput : Value)
    (options : ExecutionOptions) : Passes (executeWith env r fuel sub rawInput options) := by
  have hIdentity : FutureObeys quiet (fun a => ¬ a.Stops) options.identity := by
    unfold ExecutionOptions.identity
    split
    · exact FutureObeys.pure
    · exact ask_obeys id
  apply Passes.quietly (Obeys.lift hIdentity)
  intro executionId
  apply Passes.quietly (do_obeys id)
  intro startedAt l hStart
  exact ⟨hStart, fun result hStopped => absurd (hStart.symm.trans hStopped) Bool.false_ne_true⟩

/-- The functions that the engine hands to tasks pass cancellations on. The induction is on the
fuel, which bounds how deep they call each other. -/
theorem runner_passes (env : RuntimeInner) (fuel : Nat) : (runner env fuel).Passes env := by
  induction fuel with
  | zero =>
      constructor
      · exact fun _ _ _ _ _ => outOfFuel_passes
      · exact fun _ _ _ => outOfFuel_halts
      · exact fun _ _ => outOfFuel_passes
  | succ fuel ih =>
      constructor
      · exact fun ctx tasks input hPass hScope => scopeLoop_passes ih hPass hScope none fuel 0 input
      · exact fun ctx tasks input => scopeLoop_halts tasks none fuel 0 input
      · exact fun sub input => executeWith_passes sub fuel input _

/-- An execution is concluded with the result of its scopes: storing the record and announcing the
end neither change it nor stop anything. -/
theorem conclude_asks (startedAt : Int) (result : Except WorkflowError Value) :
    quiet.Asks (conclude env wf ctx startedAt result).run (fun a => ¬ a.Stops) (· = result) := by
  have hPersist : FutureObeys quiet (fun a => ¬ a.Stops) (persistTerminal wf ctx result startedAt) := by
    apply FutureObeys.seq (ask_obeys id)
    intro context
    apply FutureObeys.seq (ask_obeys id)
    intro _
    apply FutureObeys.seq (ask_obeys id)
    intro timestamp
    exact FutureObeys.seq (ask_obeys id) fun _ => FutureObeys.pure
  have hRest : quiet.Asks (liftM (persistTerminal wf ctx result startedAt) >>= fun _ =>
      Run.ofExcept result : Run Value).run (fun a => ¬ a.Stops) (· = result) := by
    show quiet.Asks ((Program.bind _ (Program.done ∘ Except.ok)).bind _) _ _
    rw [Program.bind_assoc]
    exact (hPersist.mono fun _ _ => rfl).bind
  cases result with
  | error e => exact hRest
  | ok value =>
      refine ⟨id, fun now _ => ⟨id, fun published _ => ?_⟩⟩
      exact hRest

/-- How an execution is entered asks for its record and announces its start. -/
theorem enterExecution_quiet (rawInput : Value) (startedAt : Int) (resume : Option ResumeState) :
    Obeys quiet (fun a => ¬ a.Stops) (enterExecution env wf ctx rawInput startedAt resume) := by
  have terms := quiet_terms env wf
  cases resume with
  | some resume =>
      exact Obeys.seq (Obeys.lift (setContext_obeys terms _ _)) fun _ => Obeys.pure
  | none =>
      refine Obeys.seq ?_ fun _ => Obeys.pure
      apply Obeys.seq (Obeys.outcome (FutureObeys.mk (ask_obeys id)))
      intro _
      apply Obeys.seq (applyWorkflowInput_obeys terms rawInput)
      intro transformed
      apply Obeys.seq (Obeys.lift (setContext_obeys terms _ _))
      intro _
      refine Obeys.seq (Obeys.lift ?_) fun _ => Obeys.pure
      apply FutureObeys.seq (ask_obeys id)
      intro context
      apply FutureObeys.seq (ask_obeys id)
      intro input
      apply FutureObeys.seq (ask_obeys id)
      intro _
      exact FutureObeys.seq (ask_obeys id) fun _ => FutureObeys.pure

/-- So the scopes of an execution pass every cancellation on, when no catch clause keeps one to
itself. -/
theorem runScopes_passes (hPass : wf.LetsPass env) (fuel : Nat) (startedAt : Int) (start : Nat)
    (input : Value) : Passes (runScopes env (runner env fuel) fuel wf ctx startedAt start input) := by
  apply Passes.seq (scopeLoop_passes (runner_passes env fuel) hPass .top _ fuel start input)
  intro scopeOutput
  exact passes_of_obeys (applyWorkflowOutput_obeys (quiet_terms env wf) scopeOutput)

/-- The rest of an execution whose scopes have been run. -/
theorem conclude_follows {startedAt : Int} {scopes result : Except WorkflowError Value}
    {σ τ : EngineState} (hInv : σ.loc.stopped = true → σ.world.cancelled = true)
    (follows : @Follows engineSig _ engine (fun _ => True)
      (engine.advance (conclude env wf ctx startedAt scopes).run σ) (.done result, τ)) :
    result = scopes ∧ τ.loc.stopped = σ.loc.stopped := by
  have hSelf : σ.loc.stopped = σ.loc.stopped := rfl
  have hLeaves : stopping.Leaves (fun m => m.stopped = σ.loc.stopped)
      (conclude env wf ctx startedAt scopes).run
      (fun value m => value = scopes ∧ m.stopped = σ.loc.stopped) σ.loc := by
    refine Leaves.of_asks (conclude_asks startedAt scopes) (fun _ _ => trivial) (fun _ => id) ?_ hSelf
    intro a reply l m hKeeps hMay hSame
    exact (stopping_stopped hKeeps hMay).trans hSame
  exact (hLeaves.follows hInv follows).2.1 result rfl

/-- An execution that has failed as it was cancelled ends with that failure, if no catch
clause keeps it to itself. -/
theorem execution_passes (hPass : wf.LetsPass env) {fuel : Nat} {rawInput : Value} {startedAt : Int}
    {resume : Option ResumeState} {w : World} {result : Except WorkflowError Value}
    {τ : EngineState} (finishes : engine.Finishes
      (beginExecution env fuel wf ctx rawInput startedAt resume w) result τ)
    (hStopped : τ.loc.stopped = true) : Cancelled result := by
  have hStart : Unhalted TaskLocal.initial := rfl
  have hQuiet : Obeys quiet (fun a => ¬ a.Stops)
      (enterExecution env wf ctx rawInput startedAt resume) :=
    enterExecution_quiet rawInput startedAt resume
  have hRun := Reaches.follows finishes
  rw [beginExecution, executeBody] at hRun
  obtain ⟨entered, υ, hFirst, hRest⟩ := Follows.bind_done hRun
  obtain ⟨hInv, hUnstopped, _⟩ := (leaves_of_quiet hQuiet hStart).follows
    (fun h => absurd (hStart.symm.trans h) Bool.false_ne_true) hFirst
  have hFresh : Unhalted υ.loc := (hUnstopped entered rfl).2
  match entered, hRest with
  | .error e, hRest =>
      obtain ⟨w', _, hEq⟩ := Follows.done_cases hRest
      cases hEq
      exact absurd (hFresh.symm.trans hStopped) Bool.false_ne_true
  | .ok (input, start), hRest =>
      have hScopes : @Follows engineSig _ engine (fun _ => True) (engine.advance
          ((runScopes env (runner env fuel) fuel wf ctx startedAt start input).run.bind
            fun scopes => (conclude env wf ctx startedAt scopes).run) υ) (.done result, τ) := by
        have hUnlift := Program.bind_assoc
          (runScopes env (runner env fuel) fuel wf ctx startedAt start input).run
          (Program.done ∘ Except.ok)
          (ExceptT.bindCont fun scopes => conclude env wf ctx startedAt scopes)
        exact hUnlift ▸ hRest
      obtain ⟨scopes, φ, hSecond, hLast⟩ := Follows.bind_done hScopes
      obtain ⟨hKept, hPassed, _⟩ :=
        (runScopes_passes hPass fuel startedAt start input υ.loc hFresh).follows hInv hSecond
      obtain ⟨rfl, hSame⟩ := conclude_follows hKept hLast
      exact hPassed result rfl (hSame.symm.trans hStopped)

end Scopes

end OwsRuntime
