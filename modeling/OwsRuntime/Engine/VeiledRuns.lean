import OwsRuntime.Engine.EngineRequests
import OwsRuntime.Engine.Runs
import OwsRuntime.Engine.VeiledTasks

/-! Executions under a veil: tasks with their pipeline, scopes, executions and the entry
points of the runtime. -/
namespace OwsRuntime

open Async Coupling

variable {env : RuntimeInner} {t : String → Option String} {s : List (String × String)}
  {wf : CompiledWorkflow} {r r' : Runner} {ctx : ExecContext} {exprCtx : ExpressionContext}

section Pipeline

/-- A list of one source of the workflow. -/
theorem CompiledWorkflow.HasSource.only {source : ExpressionSource} (hSource : wf.HasSource source) :
    ∀ x ∈ [source], wf.HasSource x := by
  intro x hMem
  obtain rfl := List.mem_singleton.mp hMem
  exact hSource

/-- A field of a task which may hold an expression. -/
theorem CompiledWorkflow.HasTask.field {task : CompiledTask} (hTask : wf.HasTask task)
    {source : String} (hField : task.if_ = some source ∨ task.input.transform = some source ∨
      task.output.transform = some source ∨ task.export_.transform = some source) :
    ∀ x ∈ [ExpressionSource.expression source], wf.HasSource x := by
  refine CompiledWorkflow.HasSource.only (.task hTask (List.mem_append_left _ ?_))
  simp only [expressions, List.mem_map, List.mem_append, Option.mem_toList]
  exact ⟨source, by tauto, rfl⟩

/-- The variables with a new input and output differ in the secrets alone, as those before them. -/
theorem Shielded.hidesUpdated (shielded : Shielded env s wf ctx)
    (hSecrets : exprCtx.secrets = ctx.secrets) {sources : List ExpressionSource}
    (hSources : ∀ source ∈ sources, wf.HasSource source) (input output : Value) :
    Hidden env sources (exprCtx.asVariableMapUpdated input output)
      ((exprCtx.withSecrets s).asVariableMapUpdated input output) :=
  have hUpdated : ({ exprCtx with input, output } : ExpressionContext).secrets = ctx.secrets := hSecrets
  shielded.hides hUpdated hSources

/-- An extension applies under both stores or under neither. -/
theorem extensionApplies_veil (shielded : Shielded env s wf ctx) {ext : CompiledExtension}
    (hExt : ext ∈ wf.extensions) (task : CompiledTask) (input : Value) :
    Veil env t (extensionApplies env ctx task input ext)
      (extensionApplies (env.withSecrets t) (ctx.withSecrets s) task input ext) := by
  unfold extensionApplies
  split
  · exact Veil.refl _
  · rename_i source hWhen
    have hSource := CompiledWorkflow.HasSource.only (.extension hExt hWhen)
    apply TwinRuns.seq (TwinRuns.lift (variables_veil shielded hSource _ _ _))
    intro v w hidden
    exact Veil.seq (evalExpr_veil hidden _ _) fun _ => Veil.refl _

/-- The same extensions are selected. The induction is on the list. -/
theorem selectExtensions_veil (shielded : Shielded env s wf ctx) (task : CompiledTask) (input : Value)
    {extensions : List CompiledExtension} (hExtensions : ∀ ext ∈ extensions, ext ∈ wf.extensions) :
    Veil env t (selectExtensions env ctx task input extensions)
      (selectExtensions (env.withSecrets t) (ctx.withSecrets s) task input extensions) := by
  induction extensions with
  | nil => exact Veil.refl _
  | cons ext rest ih =>
      have hFirst := hExtensions ext List.mem_cons_self
      have hRest := ih fun other hMem => hExtensions other (List.mem_cons_of_mem _ hMem)
      rw [selectExtensions, selectExtensions]
      split
      · apply Veil.seq (extensionApplies_veil shielded hFirst task input)
        intro applies
        exact Veil.seq hRest fun _ => Veil.refl _
      · exact hRest

/-- The extensions that apply to a task are the same under both stores, and they are extensions of
the workflow. -/
theorem applicableExtensions_veil (shielded : Shielded env s wf ctx) (task : CompiledTask)
    (input : Value) :
    (veils env t).TwinRuns (applicableExtensions env wf ctx task input)
      (applicableExtensions (env.withSecrets t) wf (ctx.withSecrets s) task input)
      fun chosen chosen' => chosen = chosen' ∧ ∀ ext ∈ chosen, ext ∈ wf.extensions := by
  have hVeil : Veil env t (applicableExtensions env wf ctx task input)
      (applicableExtensions (env.withSecrets t) wf (ctx.withSecrets s) task input) := by
    apply Veil.seq (Veil.refl _)
    intro loc
    split
    · exact Veil.refl _
    · exact selectExtensions_veil shielded task input fun _ hMem => hMem
  have terms : Terms env wf fun _ => True :=
    ⟨fun _ _ => trivial, fun _ _ _ => trivial, fun _ => trivial⟩
  have hAsks : anyLaw.AsksOk (applicableExtensions env wf ctx task input) (fun _ => True)
      fun chosen => ∀ ext ∈ chosen, ext ∈ wf.extensions := applicableExtensions_asks terms task input
  refine (FutureVeil.and hVeil.run hAsks).mono ?_
  rintro result _ ⟨rfl, hChosen⟩
  cases result with
  | ok chosen => exact .ok ⟨rfl, hChosen chosen rfl⟩
  | error e => exact .error e

/-- Their tasks are a scope of the workflow, which the runner runs under its veil. -/
theorem runExtensionScope_veil (hRunner : r.Veil env t r') (shielded : Shielded env s wf ctx)
    {scope : List CompiledTask} (hScope : wf.HasScope scope) (input : Value) :
    Veil env t (runExtensionScope r wf ctx scope input)
      (runExtensionScope r' wf (ctx.withSecrets s) scope input) := by
  unfold runExtensionScope
  split
  · exact Veil.refl _
  · apply Veil.seq (Veil.refl _)
    intro previous
    apply Veil.seq (Veil.refl _)
    intro _
    apply Veil.seq (Veil.refl _)
    intro _
    apply Veil.seq (hRunner.scope ctx s input shielded hScope).outcome
    intro result
    exact Veil.refl _

/-- The extensions before a task run alike and decide alike whether the body is skipped. The
induction is on the list. -/
theorem runBefore_veil (hRunner : r.Veil env t r') (shielded : Shielded env s wf ctx)
    {extensions : List CompiledExtension} (hExtensions : ∀ ext ∈ extensions, ext ∈ wf.extensions)
    (input : Value) :
    Veil env t (runBefore r wf ctx extensions input)
      (runBefore r' wf (ctx.withSecrets s) extensions input) := by
  induction extensions generalizing input with
  | nil => exact Veil.refl _
  | cons ext rest ih =>
      have hBefore := CompiledWorkflow.HasScope.before (hExtensions ext List.mem_cons_self)
      apply Veil.seq (runExtensionScope_veil hRunner shielded hBefore input)
      intro result
      split
      · exact Veil.refl _
      · have hRest := ih (fun e hMem => hExtensions e (List.mem_cons_of_mem _ hMem)) result.value
        exact Veil.seq hRest fun _ => Veil.refl _

/-- So do those after it. -/
theorem runAfter_veil (hRunner : r.Veil env t r') (shielded : Shielded env s wf ctx)
    {extensions : List CompiledExtension} (hExtensions : ∀ ext ∈ extensions, ext ∈ wf.extensions)
    (output : Value) :
    Veil env t (runAfter r wf ctx extensions output)
      (runAfter r' wf (ctx.withSecrets s) extensions output) := by
  induction extensions generalizing output with
  | nil => exact Veil.refl _
  | cons ext rest ih =>
      have hAfter := CompiledWorkflow.HasScope.after (hExtensions ext List.mem_cons_self)
      apply Veil.seq (runExtensionScope_veil hRunner shielded hAfter output)
      intro result
      exact ih (fun e hMem => hExtensions e (List.mem_cons_of_mem _ hMem)) _

/-- The condition of a task holds under both stores or under neither. -/
theorem guardHolds_veil (shielded : Shielded env s wf ctx) {task : CompiledTask}
    (hTask : wf.HasTask task) (rawInput : Value) :
    Veil env t (guardHolds env ctx task rawInput)
      (guardHolds (env.withSecrets t) (ctx.withSecrets s) task rawInput) := by
  unfold guardHolds
  split
  · exact Veil.refl _
  · rename_i source hIf
    have hSource : ∀ x ∈ [ExpressionSource.expression source], wf.HasSource x :=
      hTask.field (by tauto)
    apply TwinRuns.seq (TwinRuns.lift (variables_veil shielded hSource _ _ _))
    intro v w hidden
    exact Veil.seq (evalExpr_veil hidden _ _) fun _ => Veil.refl _

/-- Its input is transformed to the same value, -/
theorem transformInput_veil (shielded : Shielded env s wf ctx) {task : CompiledTask}
    (hTask : wf.HasTask task) (rawInput : Value) :
    Veil env t (transformInput env ctx task rawInput)
      (transformInput (env.withSecrets t) (ctx.withSecrets s) task rawInput) := by
  unfold transformInput
  split
  · exact Veil.refl _
  · exact evalVariables_veil shielded (hTask.field (by tauto)) _ _ _ _ _

/-- and so is its output, -/
theorem transformOutput_veil (shielded : Shielded env s wf ctx) {task : CompiledTask}
    (hTask : wf.HasTask task) (hSecrets : exprCtx.secrets = ctx.secrets) (taskInput rawOutput : Value) :
    Veil env t (transformOutput env task exprCtx taskInput rawOutput)
      (transformOutput (env.withSecrets t) task (exprCtx.withSecrets s) taskInput rawOutput) := by
  unfold transformOutput
  split
  · exact evalExpr_veil (shielded.hidesUpdated hSecrets (hTask.field (by tauto)) _ _) _ _
  · exact Veil.refl _

/-- and the context that it exports. -/
theorem exportContext_veil (shielded : Shielded env s wf ctx) {task : CompiledTask}
    (hTask : wf.HasTask task) (hSecrets : exprCtx.secrets = ctx.secrets) (taskInput output : Value) :
    Veil env t (exportContext env task exprCtx taskInput output)
      (exportContext (env.withSecrets t) task (exprCtx.withSecrets s) taskInput output) := by
  unfold exportContext
  split
  · refine Veil.seq ?_ fun _ => Veil.refl _
    exact evalExpr_veil (shielded.hidesUpdated hSecrets (hTask.field (by tauto)) _ _) _ _
  · exact Veil.refl _

/-- The body of a task, by its kind: each of the kinds has a veil of its own. -/
theorem runBody_veil (hRunner : r.Veil env t r') (shielded : Shielded env s wf ctx)
    {task : CompiledTask} (hTask : wf.HasTask task) (hSecrets : exprCtx.secrets = ctx.secrets)
    (taskInput : Value) (skipBody : Bool) (ticket : Nat) :
    Veil env t (runBody env r wf ctx task taskInput exprCtx skipBody ticket)
      (runBody (env.withSecrets t) r' wf (ctx.withSecrets s) task taskInput
        (exprCtx.withSecrets s) skipBody ticket) := by
  unfold runBody
  split
  · exact Veil.refl _
  · apply Veil.seq (Veil.refl _)
    intro position
    exact dispatch_veil hRunner shielded hTask hSecrets _ _

/-- A task from its condition to its export runs alike under both stores. -/
theorem runTask_veil (hRunner : r.Veil env t r') (shielded : Shielded env s wf ctx)
    {task : CompiledTask} (hTask : wf.HasTask task) (rawInput : Value) (ticket : Nat) :
    Veil env t (runTask env r wf ctx task rawInput ticket)
      (runTask (env.withSecrets t) r' wf (ctx.withSecrets s) task rawInput ticket) := by
  have validates : ∀ schema value,
      Veil env t (Run.ofExcept (validateSchema env schema value task.reference))
        (Run.ofExcept (validateSchema (env.withSecrets t) schema value task.reference)) :=
    fun _ _ => Veil.refl _
  unfold runTask
  apply Veil.seq (validates _ _)
  intro _
  apply Veil.seq (transformInput_veil shielded hTask rawInput)
  intro taskInput
  apply TwinRuns.seq (applicableExtensions_veil shielded task rawInput)
  rintro extensions _ ⟨rfl, hExtensions⟩
  apply Veil.seq (runBefore_veil hRunner shielded hExtensions taskInput)
  intro before
  apply Veil.seq (Veil.refl (noteBefore before))
  intro _
  apply Veil.seq (Veil.refl _)
  intro context
  apply Veil.seq (Veil.refl _)
  intro loc
  refine Veil.seq (runBody_veil hRunner shielded hTask ?_ _ _ ticket) fun exec => ?_
  · rfl
  apply Veil.seq (transformOutput_veil shielded hTask rfl _ _)
  intro transformed
  apply Veil.seq (runAfter_veil hRunner shielded hExtensions transformed)
  intro transformed
  apply Veil.seq (validates _ _)
  intro _
  apply Veil.seq (exportContext_veil shielded hTask rfl _ _)
  intro exported
  apply Veil.seq (validates _ _)
  intro _
  exact Veil.refl _

/-- So does a task with its extensions around it. -/
theorem execTask_veil (hRunner : r.Veil env t r') (shielded : Shielded env s wf ctx)
    {task : CompiledTask} (hTask : wf.HasTask task) (rawInput : Value) (ticket : Nat) :
    Veil env t (execTask env r wf ctx task rawInput ticket)
      (execTask (env.withSecrets t) r' wf (ctx.withSecrets s) task rawInput ticket) := by
  apply Veil.seq (guardHolds_veil shielded hTask rawInput)
  intro holds
  split
  · exact runTask_veil hRunner shielded hTask rawInput ticket
  · exact Veil.refl _

/-- A timeout elapses at the same moment for both, as both await the same. -/
theorem withTimeout_veil {α : Type} {x y : Run α} (veil : Veil env t x y) (duration : Nat)
    (elapsed : WorkflowError) :
    Veil env t (withTimeout duration x elapsed) (withTimeout duration y elapsed) :=
  ⟨y.run, _, Outcome Eq, rfl, veil, fun _ _ hOutcome => .done hOutcome, .done (.error elapsed)⟩

/-- A task under its timeout runs alike. -/
theorem execTimed_veil (hRunner : r.Veil env t r') (shielded : Shielded env s wf ctx)
    {task : CompiledTask} (hTask : wf.HasTask task) (input : Value) (ticket : Nat) :
    Veil env t (execTimed env r wf ctx task input ticket)
      (execTimed (env.withSecrets t) r' wf (ctx.withSecrets s) task input ticket) := by
  have hExec : Veil env t (execTask env r wf ctx task input ticket)
      (execTask (env.withSecrets t) r' wf (ctx.withSecrets s) task input ticket) :=
    execTask_veil hRunner shielded hTask input ticket
  have hTimeout : (ctx.withSecrets s).timeout = ctx.timeout := rfl
  unfold execTimed
  rw [hTimeout]
  split
  · exact withTimeout_veil hExec _ _
  · exact hExec

end Pipeline

section Scopes

/-- One round of a scope: the task runs alike, and so the same directive is followed. -/
theorem scopeStep_veil (hRunner : r.Veil env t r') (shielded : Shielded env s wf ctx)
    {tasks : List CompiledTask} (hScope : wf.HasScope tasks) (index : Nat) (input : Value) :
    Veil env t (scopeStep env r wf ctx tasks index input)
      (scopeStep (env.withSecrets t) r' wf (ctx.withSecrets s) tasks index input) := by
  apply Veil.seq (Veil.refl ctx.failIfCancelled)
  intro _
  apply Veil.seq (Veil.refl _)
  intro ended
  split
  · exact Veil.refl _
  · split
    · exact Veil.refl _
    · rename_i task hTask
      have hHas := hScope.hasTask (List.mem_of_getElem? hTask)
      apply Veil.seq (Veil.refl _)
      intro ticket
      apply Veil.seq (execTimed_veil hRunner shielded hHas input ticket)
      intro exec
      exact Veil.refl (followDirective ctx tasks index _ _)

/-- The rounds of a scope. The induction is on the rounds, and each one goes on at the same place.
-/
theorem scopeLoop_veil (hRunner : r.Veil env t r') (shielded : Shielded env s wf ctx)
    {tasks : List CompiledTask} (hScope : wf.HasScope tasks)
    (checkpoint : Option ScopeCheckpoint) (fuel index : Nat) (input : Value) :
    Veil env t (scopeLoop env r wf ctx tasks checkpoint fuel index input)
      (scopeLoop (env.withSecrets t) r' wf (ctx.withSecrets s) tasks checkpoint fuel index input) := by
  induction fuel generalizing index input with
  | zero => exact Veil.refl _
  | succ fuel ih =>
      rw [scopeLoop, scopeLoop]
      apply Veil.seq (scopeStep_veil hRunner shielded hScope index input)
      intro state
      apply Veil.seq (Veil.refl (checkpointState wf ctx checkpoint state))
      intro _
      cases state with
      | finished output => exact Veil.refl _
      | running next input => exact ih _ _

end Scopes

section Executions

/-- The input of the workflow is transformed to the same value, -/
theorem transformWorkflowInput_veil (shielded : Shielded env s wf ctx) (rawInput : Value) :
    Veil env t (transformWorkflowInput env wf ctx rawInput)
      (transformWorkflowInput (env.withSecrets t) wf (ctx.withSecrets s) rawInput) := by
  unfold transformWorkflowInput
  split
  · exact Veil.refl _
  · rename_i source hSource
    exact evalVariables_veil shielded (CompiledWorkflow.HasSource.only (.input hSource)) _ _ _ _ _

/-- and passes the same schema. -/
theorem applyWorkflowInput_veil (shielded : Shielded env s wf ctx) (rawInput : Value) :
    Veil env t (applyWorkflowInput env wf ctx rawInput)
      (applyWorkflowInput (env.withSecrets t) wf (ctx.withSecrets s) rawInput) := by
  apply Veil.seq (Veil.refl (Run.ofExcept (validateSchema env wf.input.schema rawInput "/input")))
  intro _
  exact transformWorkflowInput_veil shielded rawInput

/-- The output of the workflow is the same, -/
theorem transformWorkflowOutput_veil (shielded : Shielded env s wf ctx) (rawOutput : Value) :
    Veil env t (transformWorkflowOutput env wf ctx rawOutput)
      (transformWorkflowOutput (env.withSecrets t) wf (ctx.withSecrets s) rawOutput) := by
  unfold transformWorkflowOutput
  split
  · exact Veil.refl _
  · rename_i source hSource
    exact evalVariables_veil shielded (CompiledWorkflow.HasSource.only (.output hSource)) _ _ _ _ _

/-- and passes the same schema. -/
theorem applyWorkflowOutput_veil (shielded : Shielded env s wf ctx) (rawOutput : Value) :
    Veil env t (applyWorkflowOutput env wf ctx rawOutput)
      (applyWorkflowOutput (env.withSecrets t) wf (ctx.withSecrets s) rawOutput) := by
  apply Veil.seq (transformWorkflowOutput_veil shielded rawOutput)
  intro transformed
  refine Veil.seq ?_ fun _ => Veil.refl _
  exact Veil.refl (Run.ofExcept (validateSchema env wf.output.schema transformed "/output"))

/-- The tasks of a workflow run alike, from wherever they start. -/
theorem runScopes_veil (hRunner : r.Veil env t r') (shielded : Shielded env s wf ctx) (fuel : Nat)
    (startedAt : Int) (start : Nat) (input : Value) :
    Veil env t (runScopes env r fuel wf ctx startedAt start input)
      (runScopes (env.withSecrets t) r' fuel wf (ctx.withSecrets s) startedAt start input) := by
  apply Veil.seq (scopeLoop_veil hRunner shielded .top _ fuel start input)
  intro scopeOutput
  exact applyWorkflowOutput_veil shielded scopeOutput

/-- A fresh execution stores and announces the same. -/
theorem beginFresh_veil (shielded : Shielded env s wf ctx) (rawInput : Value) (startedAt : Int) :
    Veil env t (beginFresh env wf ctx rawInput startedAt)
      (beginFresh (env.withSecrets t) wf (ctx.withSecrets s) rawInput startedAt) := by
  apply Veil.seq (Veil.refl (outcome (announce ctx.executionId _)))
  intro _
  apply Veil.seq (applyWorkflowInput_veil shielded rawInput)
  intro transformed
  exact Veil.refl _

/-- What is spawned for an execution runs alike under both stores. -/
theorem executeBody_veil (hRunner : r.Veil env t r') (shielded : Shielded env s wf ctx) (fuel : Nat)
    (rawInput : Value) (startedAt : Int) (resume : Option ResumeState) :
    Veil env t (executeBody env r fuel wf ctx rawInput startedAt resume)
      (executeBody (env.withSecrets t) r' fuel wf (ctx.withSecrets s) rawInput startedAt resume) := by
  have hEnter : Veil env t (enterExecution env wf ctx rawInput startedAt resume)
      (enterExecution (env.withSecrets t) wf (ctx.withSecrets s) rawInput startedAt resume) := by
    cases resume with
    | some resume => exact Veil.refl _
    | none => exact Veil.seq (beginFresh_veil shielded rawInput startedAt) fun _ => Veil.refl _
  apply Veil.seq hEnter
  rintro ⟨scopeInput, start⟩
  apply Veil.seq (runScopes_veil hRunner shielded fuel startedAt start scopeInput).outcome
  intro result
  exact Veil.refl (conclude env wf ctx startedAt result)

/-- The context of an execution has the store of its runtime, and nothing else depends on it. -/
theorem executionContext_withSecrets (env : RuntimeInner) (t : String → Option String)
    (wf : CompiledWorkflow) (executionId : String) (rawInput : Value) (startedAt : Int) :
    executionContext (env.withSecrets t) wf executionId rawInput startedAt =
      (executionContext env wf executionId rawInput startedAt).withSecrets
        (resolveWorkflowSecrets (env.withSecrets t) wf) := rfl

/-- An execution in storage of its own. -/
theorem ownStorage_veil {x y : Run Value} (veil : Veil env t x y) (e : Execution) :
    Veil env t
      (@Program.region engineSig _ _ TaskLocal.initial e x.run Program.done : Run Value)
      (@Program.region engineSig _ _ TaskLocal.initial e y.run Program.done) :=
  ⟨_, _, y.run, _, Outcome Eq, rfl, rfl, .refl e, veil, fun _ _ hOutcome => .done hOutcome⟩

/-- The secrets that a workflow declares are all that it is given of them. -/
theorem CompiledWorkflow.Indifferent.shielded (indifferent : wf.Indifferent env t)
    (executionId : String) (rawInput : Value) (startedAt : Int) :
    Shielded env (resolveWorkflowSecrets (env.withSecrets t) wf) wf
      (executionContext env wf executionId rawInput startedAt) := by
  refine indifferent.imp_left fun hSame => List.filterMap_congr fun name hMem => ?_
  show (env.secrets name).map _ = (t name).map _
  rw [hSame name hMem]

/-- An execution of an indifferent workflow asks for the same under other secrets. -/
theorem executeWith_veil (hRunner : r.Veil env t r') (indifferent : wf.Indifferent env t)
    (fuel : Nat) (rawInput : Value) (options : ExecutionOptions) :
    Veil env t (executeWith env r fuel wf rawInput options)
      (executeWith (env.withSecrets t) r' fuel wf rawInput options) := by
  unfold executeWith
  apply Veil.seq (Veil.refl (liftM options.identity))
  intro executionId
  apply Veil.seq (Veil.refl (liftM epochSeconds))
  intro startedAt
  have shielded := indifferent.shielded executionId rawInput startedAt
  apply ownStorage_veil
  rw [executionContext_withSecrets]
  exact executeBody_veil hRunner shielded fuel rawInput startedAt _

/-- The functions that the engine hands to tasks are veiled. The induction is on the fuel, which
bounds how deep they call each other. -/
theorem runner_veil (env : RuntimeInner) (t : String → Option String) (fuel : Nat) :
    (runner env fuel).Veil env t (runner (env.withSecrets t) fuel) := by
  induction fuel with
  | zero =>
      exact ⟨rfl, fun _ _ _ _ _ _ => Veil.refl _, fun _ _ _ _ _ _ _ => Veil.refl _,
        fun _ _ => Veil.refl _⟩
  | succ fuel ih =>
      rw [runner, runner]
      refine ⟨rfl, ?_, ?_, ?_⟩
      · intro wf ctx s tasks input shielded hScope
        exact scopeLoop_veil ih shielded hScope none fuel 0 input
      · intro wf ctx s task input ticket shielded hTask
        exact execTask_veil ih shielded hTask input ticket
      · intro sub input indifferent
        exact executeWith_veil ih indifferent fuel input ExecutionOptions.default

end Executions

section EntryPoints

/-- A cancellation comes at the same moment for both. -/
theorem untilCancelled_veil {α : Type} {x y : Run α} (veil : Veil env t x y) :
    Veil env t (untilCancelled x) (untilCancelled y) := by
  apply Veil.seq (Veil.refl _)
  intro epoch
  exact ⟨y.run, _, Outcome Eq, rfl, veil, fun _ _ hOutcome => .done hOutcome, .done (.error _)⟩

/-- Whoever waits for an execution is told the same. -/
theorem wait_veil {α : Type} {x y : Run α} (veil : Veil env t x y) :
    Veil env t (ExecutionHandle.wait x) (ExecutionHandle.wait y) :=
  ⟨y.run, _, Outcome Eq, rfl, veil, fun _ _ hOutcome => .done hOutcome, .done (.error _)⟩

/-- An execution of a workflow whose sources do not see the difference runs alike under both stores,
-/
theorem execute_veil (indifferent : wf.Indifferent env t) (fuel : Nat) (input : Value) :
    Veil env t (execute env fuel wf input) (execute (env.withSecrets t) fuel wf input) := by
  have hExecution := executeWith_veil (runner_veil env t fuel) indifferent fuel input
    ExecutionOptions.default
  have hCancel := untilCancelled_veil hExecution
  unfold execute runWithCancel
  apply Veil.seq (Veil.refl _)
  intro handle
  apply Veil.seq (Veil.refl _)
  intro _
  apply wait_veil
  split
  · exact withTimeout_veil hCancel _ _
  · exact hCancel

/-- and so does one that is resumed from its record. -/
theorem resume_veil (t : String → Option String) (fuel : Nat) (executionId : String) :
    Veil env t (resume env fuel executionId) (resume (env.withSecrets t) fuel executionId) := by
  unfold resume
  apply Veil.seq (Veil.refl _)
  intro found
  split
  · exact Veil.refl _
  · rename_i record
    split
    · exact Veil.refl _
    · apply TwinRuns.seq (TwinRuns.lift (findWorkflow_veil _))
      rintro registered _ ⟨rfl, hIndifferent⟩
      split
      · exact Veil.refl _
      · rename_i wf
        exact executeWith_veil (runner_veil env t fuel) (hIndifferent wf rfl) fuel _ _

/-- The workflow that is started is indifferent to the secrets that differ. -/
def EntryPoint.Indifferent (env : RuntimeInner) (t : String → Option String) : EntryPoint → Prop
  | execute wf _ => wf.Indifferent env t
  | resume _ => True

/-- The entry points ask for the same under other secrets. -/
theorem EntryPoint.veil {entry : EntryPoint} (hEntry : entry.Indifferent env t) (fuel : Nat) :
    Veil env t (entry.program env fuel) (entry.program (env.withSecrets t) fuel) := by
  cases entry with
  | execute wf input => exact execute_veil hEntry fuel input
  | resume executionId => exact resume_veil t fuel executionId

end EntryPoints

end OwsRuntime
