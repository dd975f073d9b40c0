import OwsRuntime.Async.Turns
import OwsRuntime.Engine.EngineSound
import OwsRuntime.Engine.Runs

/-! Tasks that are skipped as their guard does not hold. The guard is decided by the
task, but the scope follows the task's directive all the same. -/
namespace OwsRuntime

open Async

/-- Only the trace of the execution has grown. -/
structure EngineState.Unchanged (σ τ : EngineState) : Prop where
  loc : τ.loc = σ.loc
  world : τ.world = σ.world
  shared : ∃ more, τ.shared = { σ.shared with trace := σ.shared.trace ++ more }

namespace EngineState.Unchanged

variable {σ τ υ : EngineState}

theorem refl (σ : EngineState) : σ.Unchanged σ := ⟨rfl, rfl, [], by rw [List.append_nil]⟩

theorem trans (first : σ.Unchanged τ) (second : τ.Unchanged υ) : σ.Unchanged υ := by
  obtain ⟨before, hBefore⟩ := first.shared
  obtain ⟨after, hAfter⟩ := second.shared
  refine ⟨second.loc.trans first.loc, second.world.trans first.world, before ++ after, ?_⟩
  rw [hAfter, hBefore, List.append_assoc]

theorem note (σ : EngineState) (n : Note) : σ.Unchanged (σ.note n) := ⟨rfl, rfl, _, rfl⟩

end EngineState.Unchanged

/-- The variables which an expression sees in a state. -/
def ExecContext.variablesAt (ctx : ExecContext) (σ : EngineState) (input output : Value)
    (task : Option Value) : Map :=
  let exprCtx : ExpressionContext :=
    { context := if σ.shared.locked then .null else σ.shared.context, input, output
      secrets := ctx.secrets, authorization := none, task, workflow := some ctx.workflowDescriptor
      runtime := some ctx.runtimeDescriptor, extraVars := σ.loc.loopVars }
  Map.extend exprCtx.asVariableMap σ.loc.loopVars

/-- The guard of the task evaluates to `false` or `null`. -/
def GuardFails (env : RuntimeInner) (ctx : ExecContext) (task : CompiledTask) (σ : EngineState)
    (input : Value) : Prop :=
  ∃ source compiled value, task.if_ = some source ∧ env.expression.compile source = .ok compiled ∧
    env.expression.evaluate compiled input
      (ctx.variablesAt σ input .null (some task.descriptor)) = .ok value ∧
    (value = .bool false ∨ value = .null)

section Skipping

variable {env : RuntimeInner} {r : Runner} {wf : CompiledWorkflow} {ctx : ExecContext}
  {task : CompiledTask} {tasks : List CompiledTask} {index : Nat} {input : Value}
  {σ τ : EngineState}

theorem ExecContext.variablesAt_of_unchanged (unchanged : σ.Unchanged τ) (input output : Value)
    (task : Option Value) : ctx.variablesAt τ input output task = ctx.variablesAt σ input output task := by
  obtain ⟨more, hShared⟩ := unchanged.shared
  unfold variablesAt
  rw [hShared, unchanged.loc]

theorem GuardFails.of_unchanged (fails : GuardFails env ctx task σ input)
    (unchanged : σ.Unchanged τ) : GuardFails env ctx task τ input := by
  obtain ⟨source, compiled, value, hIf, hCompile, hEvaluate, hValue⟩ := fails
  refine ⟨source, compiled, value, hIf, hCompile, ?_, hValue⟩
  rw [ExecContext.variablesAt_of_unchanged unchanged]
  exact hEvaluate

/-- Building the variables takes no turn. -/
theorem advance_variables (ctx : ExecContext) (σ : EngineState) (input output : Value) (descriptor : Option Value) :
    ∃ τ, engine.advance (ctx.variables_ input output descriptor) σ =
        (.done (ctx.variablesAt σ input output descriptor), τ) ∧ σ.Unchanged τ := by
  unfold ExecContext.variables_ ExecContext.variablesAt
  by_cases hLocked : σ.shared.locked
  · have hContext : engine.perform .tryContext σ = some (Value.null, σ.note .contended) :=
      if_pos hLocked
    refine ⟨σ.note .contended, ?_, EngineState.Unchanged.note σ _⟩
    rw [if_pos hLocked]
    exact engine.advance_act_sync _ rfl hContext
  · have hContext : engine.perform .tryContext σ = some (σ.shared.context, σ) := if_neg hLocked
    refine ⟨σ, ?_, EngineState.Unchanged.refl σ⟩
    rw [if_neg hLocked]
    exact engine.advance_act_sync _ rfl hContext

theorem advance_guardExpr {source : String} {compiled : CompiledExpression} {vars : Map} {value : Value}
    (hCompile : env.expression.compile source = .ok compiled)
    (hEvaluate : env.expression.evaluate compiled input vars = .ok value) :
    engine.advance (evalExpr env source input vars (some task)).run σ =
      (.done (.ok value), σ.note (.evaluates (.expression source) input vars)) := by
  have hSource : env.evaluateSource source input vars = .ok value := by
    rw [RuntimeInner.evaluateSource, hCompile]
    exact hEvaluate
  rw [evalExpr, hSource]
  rfl

/-- A guard that fails skips the task within a turn. -/
theorem advance_guardHolds (fails : GuardFails env ctx task σ input) :
    ∃ τ, engine.advance (guardHolds env ctx task input).run σ = (.done (.ok false), τ) ∧
      σ.Unchanged τ := by
  obtain ⟨source, compiled, value, hIf, hCompile, hEvaluate, hValue⟩ := fails
  obtain ⟨τ, hVars, hUnchanged⟩ := advance_variables ctx σ input .null (some task.descriptor)
  have hFalsy : isTruthy value = false := by rcases hValue with rfl | rfl <;> rfl
  have hNoted := EngineState.Unchanged.note τ
    (.evaluates (.expression source) input (ctx.variablesAt σ input .null (some task.descriptor)))
  refine ⟨_, ?_, hUnchanged.trans hNoted⟩
  rw [guardHolds, hIf]
  calc engine.advance _ σ
      = engine.advance (evalExpr env source input _ (some task) >>= fun value =>
          pure (isTruthy value) : Run Bool).run τ :=
        Handler.advance_bind_of_ok (Handler.advance_lift_of_done hVars)
    _ = engine.advance (pure (isTruthy value) : Run Bool).run _ :=
        Handler.advance_bind_of_ok (advance_guardExpr hCompile hEvaluate)
    _ = _ := by rw [hFalsy]; rfl

variable (r wf)

/-- A skipped task returns its input, and chooses no directive. -/
theorem advance_execTask (fails : GuardFails env ctx task σ input) (ticket : Nat) :
    ∃ τ, engine.advance (execTask env r wf ctx task input ticket).run σ =
        (.done (.ok { output := input, directive := none }), τ) ∧ σ.Unchanged τ := by
  obtain ⟨τ, hGuard, hUnchanged⟩ := advance_guardHolds fails
  refine ⟨τ, ?_, hUnchanged⟩
  rw [execTask]
  exact Handler.advance_bind_of_ok hGuard

/-- The timeout of a task that is skipped never elapses. -/
theorem advance_execTimed (fails : GuardFails env ctx task σ input) (ticket : Nat) :
    ∃ τ, engine.advance (execTimed env r wf ctx task input ticket).run σ =
        (.done (.ok { output := input, directive := none }), τ) ∧ σ.Unchanged τ := by
  obtain ⟨τ, hTask, hUnchanged⟩ := advance_execTask r wf fails ticket
  refine ⟨τ, ?_, hUnchanged⟩
  rw [execTimed]
  cases task.timeout.or ctx.timeout with
  | none => exact hTask
  | some duration => exact Handler.advance_race_of_done hTask

/-- The directive which a scope follows after a skipped task. -/
def CompiledTask.skipDirective (task : CompiledTask) : FlowDirective :=
  (task.then_.map parseDirective).getD .continue_

theorem advance_ask {a : Act} {reply : a.Resp} (hMode : a.mode = .sync)
    (hPerform : perform a σ = some (reply, τ)) :
    engine.advance (ExceptT.lift (ask a) : Run a.Resp).run σ = (.done (.ok reply), τ) :=
  Handler.advance_lift_of_done (engine.advance_act_sync _ hMode hPerform)

theorem advance_failIfCancelled (hCancelled : σ.world.cancelled = false) :
    engine.advance ctx.failIfCancelled.run σ = (.done (.ok ()), σ) := by
  have hFlag : perform .isCancelled σ = some (false, σ) := by rw [← hCancelled]; rfl
  exact Handler.advance_bind_of_ok (advance_ask rfl hFlag)

/-- A round of the loop over a scope, when the guard of its task fails. -/
theorem advance_scopeStep (hTask : tasks[index]? = some task) (hCancelled : σ.world.cancelled = false)
    (hEnded : σ.shared.ended = false) (fails : GuardFails env ctx task σ input) :
    ∃ τ, engine.advance (scopeStep env r wf ctx tasks index input).run σ =
        engine.advance (followDirective ctx tasks index task.skipDirective input).run τ ∧
      σ.Unchanged τ := by
  have hAdmitted := EngineState.Unchanged.note σ (.admitted tasks index)
  obtain ⟨τ, hExec, hUnchanged⟩ := advance_execTimed r wf
    (fails.of_unchanged hAdmitted) σ.shared.trace.length
  refine ⟨τ, ?_, hAdmitted.trans hUnchanged⟩
  have hGoing : perform .loadEnded σ = some (false, σ) := by rw [← hEnded]; rfl
  have hMark : perform (.note (.admitted tasks index)) σ =
      some (σ.shared.trace.length, σ.note (.admitted tasks index)) := rfl
  rw [scopeStep]
  apply (Handler.advance_bind_of_ok (advance_failIfCancelled hCancelled)).trans
  apply (Handler.advance_bind_of_ok (advance_ask rfl hGoing)).trans
  rw [if_neg Bool.false_ne_true, hTask]
  apply (Handler.advance_bind_of_ok (advance_ask rfl hMark)).trans
  exact Handler.advance_bind_of_ok hExec

end Skipping

/-- A round of the loop goes on with the next task, in the order of the scope, with
the same input, and leaves the context and all other storage as it was. -/
structure SkippedOver (σ : EngineState) (index : Nat) (input : Value)
    (c : Config engineSig (Except WorkflowError ScopeState)) : Prop where
  next : c.1 = .done (.ok (.running (index + 1) input))
  storage : σ.Unchanged c.2

/-- A `then` that leads on: there is none, it is `continue`, or it names the next task. -/
def LeadsOn (tasks : List CompiledTask) (index : Nat) : Option String → Prop
  | none => True
  | some name => name = "continue" ∨ (name ≠ "exit" ∧ name ≠ "end" ∧
      tasks.findIdx? (fun task => task.name = name) = some (index + 1))

section Following

variable {ctx : ExecContext} {tasks : List CompiledTask} {index : Nat} {input : Value}
  {σ τ : EngineState}

/-- The scope goes on with the next task if and only if the directive leads there. -/
theorem skippedOver_followDirective (unchanged : σ.Unchanged τ) (d : FlowDirective) :
    SkippedOver σ index input (engine.advance (followDirective ctx tasks index d input).run τ) ↔
      d.target? tasks index = some (index + 1) := by
  cases d with
  | continue_ =>
      refine ⟨fun _ => rfl, fun _ => ⟨rfl, ?_⟩⟩
      exact unchanged.trans (EngineState.Unchanged.note τ _)
  | goto name =>
      rw [followDirective, FlowDirective.target?]
      cases tasks.findIdx? fun t => t.name = name with
      | none => exact ⟨fun skipped => (by cases skipped.next), fun h => by cases h⟩
      | some next =>
          constructor
          · intro skipped
            cases skipped.next
            rfl
          · intro hNext
            obtain rfl := Option.some.inj hNext
            exact ⟨rfl, unchanged.trans (EngineState.Unchanged.note τ _)⟩
  | exit => exact ⟨fun skipped => (by cases skipped.next), fun h => by cases h⟩
  | end_ => exact ⟨fun skipped => (by cases skipped.next), fun h => by cases h⟩

theorem target?_skipDirective_iff (task : CompiledTask) :
    task.skipDirective.target? tasks index = some (index + 1) ↔ LeadsOn tasks index task.then_ := by
  unfold CompiledTask.skipDirective
  cases task.then_ with
  | none => exact ⟨fun _ => trivial, fun _ => rfl⟩
  | some name =>
      rw [Option.map_some, Option.getD_some, parseDirective, LeadsOn]
      by_cases hContinue : name = "continue"
      · simp [hContinue, FlowDirective.target?]
      · by_cases hExit : name = "exit"
        · simp [hExit, FlowDirective.target?]
        · by_cases hEnd : name = "end"
          · simp [hEnd, FlowDirective.target?]
          · simp [hContinue, hExit, hEnd, FlowDirective.target?]

end Following

/-- A task of a running scope whose guard evaluates to `false` or `null` is a no-op,
after which the scope goes on with the next task, if and only if its `then` leads
there anyway. -/
theorem scopeStep_skippedOver_iff {env : RuntimeInner} {r : Runner} {wf : CompiledWorkflow}
    {ctx : ExecContext} {task : CompiledTask} {tasks : List CompiledTask} {index : Nat}
    {input : Value} {σ : EngineState} (hTask : tasks[index]? = some task)
    (hCancelled : σ.world.cancelled = false) (hEnded : σ.shared.ended = false)
    (fails : GuardFails env ctx task σ input) :
    SkippedOver σ index input (engine.advance (scopeStep env r wf ctx tasks index input).run σ) ↔
      LeadsOn tasks index task.then_ := by
  obtain ⟨τ, hStep, hUnchanged⟩ := advance_scopeStep r wf hTask hCancelled hEnded fails
  rw [hStep, skippedOver_followDirective hUnchanged, target?_skipDirective_iff]

/-- A guarded task, as the conditional-task example has it, with the given `then`,
and a task after it. -/
def conditional (then_ : Option String) : List CompiledTask :=
  let error : ErrorDefinition :=
    { type := "https://superbet-casinos.com/customer/access-forbidden", title := "Access Forbidden"
      status := .ofNat 400, detail := none, pointer := none }
  [{ Sample.task "raiseErrorIfUnderage" then_ (.raise (.inline error)) with if_ := some "false" },
    Sample.task "placeBet" none (.set (.map []))]

def conditionalWorkflow (then_ : Option String) : CompiledWorkflow :=
  Sample.workflow (conditional then_) []

def conditionalContext (then_ : Option String) : ExecContext :=
  executionContext Sample.runtime (conditionalWorkflow then_) "id" .null 0

def conditionalState (then_ : Option String) : EngineState :=
  ⟨TaskLocal.initial, Execution.initial (conditionalWorkflow then_) 0, Sample.world⟩

/-- The first round of the loop over the tasks. -/
def conditionalRound (then_ : Option String) : Config engineSig (Except WorkflowError ScopeState) :=
  engine.advance (scopeStep Sample.runtime (runner Sample.runtime 2) (conditionalWorkflow then_)
    (conditionalContext then_) (conditional then_) 0 .null).run (conditionalState then_)

theorem conditional_guardFails (then_ : Option String) :
    ∃ task, (conditional then_)[0]? = some task ∧ task.then_ = then_ ∧
      GuardFails Sample.runtime (conditionalContext then_) task (conditionalState then_) .null := by
  refine ⟨_, rfl, rfl, "false", ⟨"false"⟩, .bool false, rfl, rfl, ?_, Or.inl rfl⟩
  simp [Sample.runtime, Sample.expression, Sample.evaluate]

/-- A guarded task that leads on by name is a no-op when it is skipped. -/
theorem skippedOver_conditional :
    LeadsOn (conditional (some "placeBet")) 0 (some "placeBet") ∧
      SkippedOver (conditionalState (some "placeBet")) 0 .null (conditionalRound (some "placeBet")) := by
  have hLeads : LeadsOn (conditional (some "placeBet")) 0 (some "placeBet") := by
    refine Or.inr ⟨by decide, by decide, ?_⟩
    decide +kernel
  obtain ⟨task, hTask, hThen, fails⟩ := conditional_guardFails (some "placeBet")
  exact ⟨hLeads, (scopeStep_skippedOver_iff hTask rfl rfl fails).mpr (hThen ▸ hLeads)⟩

/-- With `then: end`, the skipped task ends the workflow: the loop is over after it. -/
theorem conditional_end_not_skippedOver :
    (∃ task, (conditional (some "end"))[0]? = some task ∧
        GuardFails Sample.runtime (conditionalContext (some "end")) task
          (conditionalState (some "end")) .null) ∧
      ¬ SkippedOver (conditionalState (some "end")) 0 .null (conditionalRound (some "end")) := by
  constructor
  · obtain ⟨task, hTask, _, fails⟩ := conditional_guardFails (some "end")
    exact ⟨task, hTask, fails⟩
  · intro skipped
    have hOver : (conditionalRound (some "end")).1.value? = some (.ok (.finished .null)) := by
      decide +kernel
    rw [skipped.next] at hOver
    cases hOver

end OwsRuntime
