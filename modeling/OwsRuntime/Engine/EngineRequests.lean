import OwsRuntime.Engine.Requests

/-! What tasks, scopes and executions ask for. An execution announces its own
lifecycle and stores records and events of its own, and nothing else does. -/
namespace OwsRuntime

open Async Law

variable {L : Law engine} {may : Act → Prop} {env : RuntimeInner} {wf : CompiledWorkflow}
  {ctx : ExecContext} {exprCtx : ExpressionContext} {r : Runner}

/-- A single source may be evaluated when its notes may be made. -/
theorem Evaluates.one {source : ExpressionSource}
    (hSource : ∀ input vars, may (.note (.evaluates source input vars))) :
    Evaluates may [source] := by
  intro other hMem
  obtain rfl := List.mem_singleton.mp hMem
  exact hSource

/-- A field of a task which may hold an expression. -/
theorem Terms.field (terms : Terms env wf may) {task : CompiledTask} (hTask : wf.HasTask task)
    {source : String} (hSource : task.if_ = some source ∨ task.input.transform = some source ∨
      task.output.transform = some source ∨ task.export_.transform = some source) :
    Evaluates may [.expression source] := by
  refine Evaluates.one (terms.evaluates (.task hTask (List.mem_append_left _ ?_)))
  simp only [expressions, List.mem_map, List.mem_append, Option.mem_toList]
  exact ⟨source, by tauto, rfl⟩

/-- An expression over the variables of a task state. -/
theorem evalVariables_obeys (terms : Terms env wf may) {source : String}
    (hSource : Evaluates may [.expression source]) (input output : Value) (task : Option Value)
    (subject : Value) (owner : Option CompiledTask) :
    Obeys L may (do
      let vars ← ctx.variables_ input output task
      evalExpr env source subject vars owner) := by
  apply Obeys.seq (Obeys.lift (variables_obeys terms _ _ _))
  intro vars
  exact evalExpr_obeys hSource _ _ _

/-- An extension of the workflow evaluates its condition. -/
theorem extensionApplies_obeys (terms : Terms env wf may) {ext : CompiledExtension}
    (hExt : ext ∈ wf.extensions) (task : CompiledTask) (input : Value) :
    Obeys L may (extensionApplies env ctx task input ext) := by
  unfold extensionApplies
  split
  · exact Obeys.pure
  · rename_i source hWhen
    have hSource := Evaluates.one (terms.evaluates (.extension hExt hWhen))
    apply Obeys.seq (Obeys.lift (variables_obeys terms _ _ _))
    intro vars
    exact Obeys.seq (evalExpr_obeys hSource _ _ _) fun _ => Obeys.pure

/-- The selection asks each extension in turn, and chooses some of them. The induction is on the
list. -/
theorem selectExtensions_asks (terms : Terms env wf may) (task : CompiledTask) (input : Value)
    {extensions : List CompiledExtension} (hExtensions : ∀ ext ∈ extensions, ext ∈ wf.extensions) :
    L.AsksOk (selectExtensions env ctx task input extensions) may fun chosen =>
      ∀ ext ∈ chosen, ext ∈ wf.extensions := by
  induction extensions with
  | nil => exact AsksOk.pure fun ext hMem => (by cases hMem)
  | cons ext rest ih =>
      have hFirst := hExtensions ext List.mem_cons_self
      have hRest := ih fun other hMem => hExtensions other (List.mem_cons_of_mem _ hMem)
      rw [selectExtensions]
      split
      · apply AsksOk.seq (extensionApplies_obeys terms hFirst task input)
        intro applies _
        apply AsksOk.seq hRest
        intro more hMore
        apply AsksOk.pure
        intro other hMem
        split at hMem
        · rcases List.mem_cons.mp hMem with rfl | hMem
          · exact hFirst
          · exact hMore other hMem
        · exact hMore other hMem
      · exact hRest

/-- Those that apply to a task are extensions of the workflow. -/
theorem applicableExtensions_asks (terms : Terms env wf may) (task : CompiledTask)
    (input : Value) :
    L.AsksOk (applicableExtensions env wf ctx task input) may fun chosen =>
      ∀ ext ∈ chosen, ext ∈ wf.extensions := by
  apply AsksOk.seq (do_routine terms .getLocal trivial)
  intro loc _
  split
  · exact AsksOk.pure fun ext hMem => (by cases hMem)
  · exact selectExtensions_asks terms task input fun _ hMem => hMem

/-- Their tasks are a scope of the workflow, which the runner runs under the law. -/
theorem runExtensionScope_obeys (hRunner : r.Obeys L env) (terms : ScopeTerms env wf may)
    {scope : List CompiledTask} (hScope : wf.HasScope scope) (input : Value) :
    Obeys L may (runExtensionScope r wf ctx scope input) := by
  unfold runExtensionScope
  split
  · exact Obeys.pure
  · apply Obeys.seq (do_routine terms.toTerms .getLocal trivial)
    intro previous
    apply Obeys.seq (do_obeys (terms.local_ (.setApplyExtensions false) trivial))
    intro _
    apply Obeys.seq (do_obeys (terms.local_ (.setScopeExited none) trivial))
    intro _
    apply Obeys.seq (hRunner.scope ctx input terms hScope).outcome
    intro result
    apply Obeys.seq (do_routine terms.toTerms .getLocal trivial)
    intro after
    apply Obeys.seq (do_obeys (terms.local_ (.setScopeExited none) trivial))
    intro _
    apply Obeys.seq (do_obeys (terms.local_ (.setApplyExtensions _) trivial))
    intro _
    exact Obeys.seq Obeys.ofExcept fun _ => Obeys.pure

/-- Before a task they run one after the other, up to one that ends it. The induction is on the
list. -/
theorem runBefore_obeys (hRunner : r.Obeys L env) (terms : ScopeTerms env wf may)
    {extensions : List CompiledExtension} (hExtensions : ∀ ext ∈ extensions, ext ∈ wf.extensions)
    (input : Value) : Obeys L may (runBefore r wf ctx extensions input) := by
  induction extensions generalizing input with
  | nil => exact Obeys.pure
  | cons ext rest ih =>
      have hBefore := CompiledWorkflow.HasScope.before (hExtensions ext List.mem_cons_self)
      apply Obeys.seq (runExtensionScope_obeys hRunner terms hBefore input)
      intro result
      split
      · exact Obeys.pure
      · have hRest := ih (fun e hMem => hExtensions e (List.mem_cons_of_mem _ hMem)) result.value
        exact Obeys.seq hRest fun _ => Obeys.pure

/-- What they came to is noted. -/
theorem noteBefore_obeys (terms : Terms env wf may) (before : BeforeOutcome) :
    FutureObeys L may (noteBefore before) := by
  unfold noteBefore
  split
  · exact FutureObeys.pure
  · exact note_obeys (terms.routine (.note (.extended _ _)) trivial)

/-- After a task they run one after the other. -/
theorem runAfter_obeys (hRunner : r.Obeys L env) (terms : ScopeTerms env wf may)
    {extensions : List CompiledExtension} (hExtensions : ∀ ext ∈ extensions, ext ∈ wf.extensions)
    (output : Value) : Obeys L may (runAfter r wf ctx extensions output) := by
  induction extensions generalizing output with
  | nil => exact Obeys.pure
  | cons ext rest ih =>
      have hAfter := CompiledWorkflow.HasScope.after (hExtensions ext List.mem_cons_self)
      apply Obeys.seq (runExtensionScope_obeys hRunner terms hAfter output)
      intro result
      exact ih (fun e hMem => hExtensions e (List.mem_cons_of_mem _ hMem)) _

/-- The fields of a task that hold expressions are sources of the workflow: its condition, -/
theorem guardHolds_obeys (terms : Terms env wf may) {task : CompiledTask}
    (hTask : wf.HasTask task) (rawInput : Value) :
    Obeys L may (guardHolds env ctx task rawInput) := by
  unfold guardHolds
  split
  · exact Obeys.pure
  · rename_i source hIf
    apply Obeys.seq (Obeys.lift (variables_obeys terms _ _ _))
    intro vars
    exact Obeys.seq (evalExpr_obeys (terms.field hTask (by tauto)) _ _ _) fun _ => Obeys.pure

/-- the transformation of its input, -/
theorem transformInput_obeys (terms : Terms env wf may) {task : CompiledTask}
    (hTask : wf.HasTask task) (rawInput : Value) :
    Obeys L may (transformInput env ctx task rawInput) := by
  unfold transformInput
  split
  · exact Obeys.pure
  · exact evalVariables_obeys terms (terms.field hTask (by tauto)) _ _ _ _ _

/-- that of its output, -/
theorem transformOutput_obeys (terms : Terms env wf may) {task : CompiledTask}
    (hTask : wf.HasTask task) (taskInput rawOutput : Value) :
    Obeys L may (transformOutput env task exprCtx taskInput rawOutput) := by
  unfold transformOutput
  split
  · exact evalExpr_obeys (terms.field hTask (by tauto)) _ _ _
  · exact Obeys.pure

/-- and its export, which also writes the context. -/
theorem exportContext_obeys (terms : Terms env wf may) {task : CompiledTask}
    (hTask : wf.HasTask task) (taskInput output : Value) :
    Obeys L may (exportContext env task exprCtx taskInput output) := by
  unfold exportContext
  split
  · exact Obeys.seq (evalExpr_obeys (terms.field hTask (by tauto)) _ _ _) fun _ => Obeys.pure
  · exact Obeys.seq (Obeys.lift (readContext_obeys terms)) fun _ => Obeys.pure

/-- The body of a task asks for what its kind allows. -/
theorem runBody_obeys (hRunner : r.Obeys L env) (terms : ScopeTerms env wf may)
    {task : CompiledTask} (hTask : wf.HasTask task) (taskInput : Value) (skipBody : Bool)
    (ticket : Nat) : Obeys L may (runBody env r wf ctx task taskInput exprCtx skipBody ticket) := by
  unfold runBody
  split
  · exact Obeys.pure
  · apply Obeys.seq (do_routine terms.toTerms (.note (.dispatched ticket)) trivial)
    intro position
    exact dispatch_obeys hRunner terms hTask _ _

/-- A whole task asks for this and for what its fields evaluate. -/
theorem runTask_obeys (hRunner : r.Obeys L env) (terms : ScopeTerms env wf may)
    {task : CompiledTask} (hTask : wf.HasTask task) (rawInput : Value) (ticket : Nat) :
    Obeys L may (runTask env r wf ctx task rawInput ticket) := by
  unfold runTask
  apply Obeys.seq Obeys.ofExcept
  intro _
  apply Obeys.seq (transformInput_obeys terms.toTerms hTask rawInput)
  intro taskInput
  apply AsksOk.seq (applicableExtensions_asks terms.toTerms task rawInput)
  intro extensions hExtensions
  apply Obeys.seq (runBefore_obeys hRunner terms hExtensions taskInput)
  intro before
  apply Obeys.seq (Obeys.lift (noteBefore_obeys terms.toTerms before))
  intro _
  apply Obeys.seq (Obeys.lift (contextValue_obeys terms.toTerms))
  intro context
  apply Obeys.seq (do_routine terms.toTerms .getLocal trivial)
  intro loc
  apply Obeys.seq (runBody_obeys hRunner terms hTask _ _ ticket)
  intro exec
  apply Obeys.seq (transformOutput_obeys terms.toTerms hTask _ _)
  intro transformed
  apply Obeys.seq (runAfter_obeys hRunner terms hExtensions transformed)
  intro transformed
  apply Obeys.seq Obeys.ofExcept
  intro _
  apply Obeys.seq (exportContext_obeys terms.toTerms hTask _ _)
  intro exported
  apply Obeys.seq Obeys.ofExcept
  intro _
  exact Obeys.seq (Obeys.lift (setContext_obeys terms.toTerms _ _)) fun _ => Obeys.pure

/-- With its extensions, -/
theorem execTask_obeys (hRunner : r.Obeys L env) (terms : ScopeTerms env wf may)
    {task : CompiledTask} (hTask : wf.HasTask task) (rawInput : Value) (ticket : Nat) :
    Obeys L may (execTask env r wf ctx task rawInput ticket) := by
  apply Obeys.seq (guardHolds_obeys terms.toTerms hTask rawInput)
  intro holds
  split
  · exact runTask_obeys hRunner terms hTask rawInput ticket
  · exact Obeys.pure

/-- within a timeout, which races the same requests against a sleep, -/
theorem withTimeout_obeys {α : Type} {body : Run α} (duration : Nat) (elapsed : WorkflowError)
    (obeys : Obeys L may body) : Obeys L may (withTimeout duration body elapsed) :=
  ⟨Asks.mono obeys fun _ _ _ _ => trivial, fun _ _ => trivial⟩

/-- or without one, it obeys the law. -/
theorem execTimed_obeys (hRunner : r.Obeys L env) (terms : ScopeTerms env wf may)
    {task : CompiledTask} (hTask : wf.HasTask task) (input : Value) (ticket : Nat) :
    Obeys L may (execTimed env r wf ctx task input ticket) := by
  unfold execTimed
  split
  · exact withTimeout_obeys _ _ (execTask_obeys hRunner terms hTask input ticket)
  · exact execTask_obeys hRunner terms hTask input ticket

/-- A directive is followed with notes, and with the mark of a scope that ends. -/
theorem followDirective_obeys (terms : ScopeTerms env wf may) (tasks : List CompiledTask)
    (index : Nat) (directive : FlowDirective) (input : Value) :
    Obeys L may (followDirective ctx tasks index directive input) := by
  have hNote : ∀ n : Note, Act.Routine (.note n) → Obeys L may (liftM (note n) : Run Unit) :=
    fun n hRoutine => Obeys.lift (note_obeys (terms.routine (.note n) hRoutine))
  cases directive with
  | continue_ => exact Obeys.seq (hNote _ trivial) fun _ => Obeys.pure
  | goto name =>
      rw [followDirective]
      split
      · exact Obeys.seq (hNote _ trivial) fun _ => Obeys.pure
      · exact Obeys.seq (hNote _ trivial) fun _ => Obeys.throw
  | exit =>
      exact Obeys.seq (do_obeys (terms.local_ (.setScopeExited (some tasks)) trivial)) fun _ =>
        Obeys.pure
  | end_ => exact Obeys.seq (do_routine terms.toTerms .storeEnded trivial) fun _ => Obeys.pure

/-- The execution in whose record a store operation is made. -/
def StoreOp.executionId : StoreOp → String
  | create record => record.executionId
  | update record => record.executionId
  | append event => event.executionId

/-- A store operation with which a running execution records its progress. -/
def StoreOp.Progress (executionId : String) (op : StoreOp) : Prop :=
  ∃ record, op = .update record ∧ record.executionId = executionId ∧ record.phase = .running

/-- The top-level scope may record its progress. -/
def Checkpoints (may : Act → Prop) (executionId : String) : Prop :=
  ∀ op : StoreOp, op.Progress executionId → may (.store op)

/-- Only the scope at the top stores its progress. -/
theorem checkpointState_obeys (terms : Terms env wf may) {checkpoint : Option ScopeCheckpoint}
    (hCheckpoint : checkpoint ≠ none → Checkpoints may ctx.executionId) (state : ScopeState) :
    FutureObeys L may (checkpointState wf ctx checkpoint state) := by
  unfold checkpointState
  split
  · rename_i next input cp
    apply FutureObeys.seq (ask_routine terms .tryContext trivial)
    intro context
    refine FutureObeys.seq (ask_obeys ?_) fun _ => FutureObeys.pure
    exact hCheckpoint (by simp) _ ⟨_, rfl, rfl, rfl⟩
  · exact FutureObeys.pure

/-- One round of a scope asks for the check, the task and the directive. -/
theorem scopeStep_obeys (hRunner : r.Obeys L env) (terms : ScopeTerms env wf may)
    {tasks : List CompiledTask} (hScope : wf.HasScope tasks) (index : Nat) (input : Value) :
    Obeys L may (scopeStep env r wf ctx tasks index input) := by
  apply Obeys.seq (failIfCancelled_obeys terms)
  intro _
  apply Obeys.seq (do_routine terms.toTerms .loadEnded trivial)
  intro ended
  split
  · exact Obeys.pure
  · split
    · exact Obeys.pure
    · rename_i task hTask
      have hHas := hScope.hasTask (List.mem_of_getElem? hTask)
      apply Obeys.seq (do_routine terms.toTerms (.note (.admitted tasks index)) trivial)
      intro ticket
      apply Obeys.seq (execTimed_obeys hRunner terms hHas input ticket)
      intro exec
      exact followDirective_obeys terms tasks index _ _

/-- The rounds of a scope obey the law, as each of them does. The induction is on the rounds. -/
theorem scopeLoop_obeys (hRunner : r.Obeys L env) (terms : ScopeTerms env wf may)
    {tasks : List CompiledTask} (hScope : wf.HasScope tasks)
    {checkpoint : Option ScopeCheckpoint}
    (hCheckpoint : checkpoint ≠ none → Checkpoints may ctx.executionId) (fuel index : Nat)
    (input : Value) : Obeys L may (scopeLoop env r wf ctx tasks checkpoint fuel index input) := by
  induction fuel generalizing index input with
  | zero => exact outOfFuel_obeys terms.toTerms
  | succ fuel ih =>
      rw [scopeLoop]
      apply Obeys.seq (scopeStep_obeys hRunner terms hScope index input)
      intro state
      apply Obeys.seq (Obeys.lift (checkpointState_obeys terms.toTerms hCheckpoint state))
      intro _
      split
      · exact Obeys.pure
      · exact ih _ _

/-- The input of a workflow is transformed by a source of its own, -/
theorem transformWorkflowInput_obeys (terms : Terms env wf may) (rawInput : Value) :
    Obeys L may (transformWorkflowInput env wf ctx rawInput) := by
  unfold transformWorkflowInput
  split
  · exact Obeys.pure
  · rename_i source hSource
    exact evalVariables_obeys terms (Evaluates.one (terms.evaluates (.input hSource))) _ _ _ _ _

/-- and checked by its schema. -/
theorem applyWorkflowInput_obeys (terms : Terms env wf may) (rawInput : Value) :
    Obeys L may (applyWorkflowInput env wf ctx rawInput) :=
  Obeys.seq Obeys.ofExcept fun _ => transformWorkflowInput_obeys terms rawInput

/-- So is its output. -/
theorem applyWorkflowOutput_obeys (terms : Terms env wf may) (rawOutput : Value) :
    Obeys L may (applyWorkflowOutput env wf ctx rawOutput) := by
  have hTransform : Obeys L may (transformWorkflowOutput env wf ctx rawOutput) := by
    unfold transformWorkflowOutput
    split
    · exact Obeys.pure
    · rename_i source hSource
      exact evalVariables_obeys terms (Evaluates.one (terms.evaluates (.output hSource))) _ _ _ _ _
  apply Obeys.seq hTransform
  intro transformed
  exact Obeys.seq Obeys.ofExcept fun _ => Obeys.pure

/-- The top-level scope of an execution, and its output. -/
theorem runScopes_obeys (hRunner : r.Obeys L env) (terms : ScopeTerms env wf may)
    (hCheckpoints : Checkpoints may ctx.executionId) (fuel : Nat) (startedAt : Int) (start : Nat)
    (input : Value) : Obeys L may (runScopes env r fuel wf ctx startedAt start input) := by
  apply Obeys.seq (scopeLoop_obeys hRunner terms .top (fun _ => hCheckpoints) fuel start input)
  intro scopeOutput
  exact applyWorkflowOutput_obeys terms.toTerms scopeOutput

/-- So are the requests of an execution, which announces its lifecycle and stores
its records and events. -/
structure ExecutionTerms (env : RuntimeInner) (wf : CompiledWorkflow) (executionId : String)
    (may : Act → Prop) : Prop extends ScopeTerms env wf may where
  started : ∀ time, may (.publish (some executionId) (workflowStarted wf executionId time))
  completed : ∀ time, may (.publish (some executionId) (workflowCompleted wf executionId time))
  stores : ∀ op : StoreOp, op.executionId = executionId → may (.store op)

/-- An execution may store its progress as it may store any of its records. -/
theorem ExecutionTerms.checkpoints {executionId : String}
    (terms : ExecutionTerms env wf executionId may) : Checkpoints may executionId := by
  rintro op ⟨record, rfl, hId, _⟩
  exact terms.stores _ hId

/-- It stores the record of its start and an event with it, -/
theorem persistStarted_obeys (terms : ExecutionTerms env wf ctx.executionId may)
    (startedAt : Int) : FutureObeys L may (persistStarted wf ctx startedAt) := by
  apply FutureObeys.seq (ask_routine terms.toTerms .tryContext trivial)
  intro context
  apply FutureObeys.seq (ask_routine terms.toTerms .tryContext trivial)
  intro input
  apply FutureObeys.seq (ask_obeys (terms.stores _ rfl))
  intro _
  exact FutureObeys.seq (ask_obeys (terms.stores _ rfl)) fun _ => FutureObeys.pure

/-- and those of its end. -/
theorem persistTerminal_obeys (terms : ExecutionTerms env wf ctx.executionId may)
    (result : Except WorkflowError Value) (startedAt : Int) :
    FutureObeys L may (persistTerminal wf ctx result startedAt) := by
  apply FutureObeys.seq (ask_routine terms.toTerms .tryContext trivial)
  intro context
  apply FutureObeys.seq (ask_obeys (terms.stores _ rfl))
  intro _
  apply FutureObeys.seq (ask_routine terms.toTerms .epochSeconds trivial)
  intro timestamp
  exact FutureObeys.seq (ask_obeys (terms.stores _ rfl)) fun _ => FutureObeys.pure

/-- It announces how it has ended, -/
theorem announceCompletion_obeys (terms : ExecutionTerms env wf ctx.executionId may)
    (result : Except WorkflowError Value) :
    Obeys L may (announceCompletion env wf ctx result) := by
  cases result with
  | error e => exact Obeys.pure
  | ok value =>
      apply Obeys.seq (do_routine terms.toTerms .epochSeconds trivial)
      intro now
      refine Obeys.seq (Obeys.outcome (FutureObeys.mk (ask_obeys ?_))) fun _ => Obeys.pure
      exact terms.completed _

/-- after it has stored it. -/
theorem conclude_obeys (terms : ExecutionTerms env wf ctx.executionId may) (startedAt : Int)
    (result : Except WorkflowError Value) :
    Obeys L may (conclude env wf ctx startedAt result) := by
  apply Obeys.seq (announceCompletion_obeys terms result)
  intro _
  apply Obeys.seq (Obeys.lift (persistTerminal_obeys terms result startedAt))
  intro _
  exact Obeys.ofExcept

/-- A new execution announces its start and takes its input, -/
theorem beginFresh_obeys (terms : ExecutionTerms env wf ctx.executionId may) (rawInput : Value)
    (startedAt : Int) : Obeys L may (beginFresh env wf ctx rawInput startedAt) := by
  apply Obeys.seq (Obeys.outcome (FutureObeys.mk (ask_obeys (terms.started _))))
  intro _
  apply Obeys.seq (applyWorkflowInput_obeys terms.toTerms rawInput)
  intro transformed
  apply Obeys.seq (Obeys.lift (setContext_obeys terms.toTerms _ _))
  intro _
  exact Obeys.seq (Obeys.lift (persistStarted_obeys terms startedAt)) fun _ => Obeys.pure

/-- and a resumed one goes on from its record. -/
theorem enterExecution_obeys (terms : ExecutionTerms env wf ctx.executionId may)
    (rawInput : Value) (startedAt : Int) (resume : Option ResumeState) :
    Obeys L may (enterExecution env wf ctx rawInput startedAt resume) := by
  cases resume with
  | some resume =>
      exact Obeys.seq (Obeys.lift (setContext_obeys terms.toTerms _ _)) fun _ => Obeys.pure
  | none => exact Obeys.seq (beginFresh_obeys terms rawInput startedAt) fun _ => Obeys.pure

/-- From its beginning to its end, an execution asks for what its terms allow. -/
theorem executeBody_obeys (hRunner : r.Obeys L env)
    (terms : ExecutionTerms env wf ctx.executionId may) (rawInput : Value) (startedAt : Int)
    (fuel : Nat) (resume : Option ResumeState) :
    Obeys L may (executeBody env r fuel wf ctx rawInput startedAt resume) := by
  apply Obeys.seq (enterExecution_obeys terms rawInput startedAt resume)
  rintro ⟨scopeInput, start⟩
  apply Obeys.seq (runScopes_obeys hRunner terms.toScopeTerms terms.checkpoints _ _ _ _).outcome
  intro result
  exact conclude_obeys terms startedAt result

/-- The law lets an execution with this id do what executions do. -/
structure Admits (L : Law engine) (env : RuntimeInner) (executionId : String) : Prop where
  enters : ∀ wf start, L.enters (Execution.fresh wf executionId start)
  terms : ∀ wf start,
    ExecutionTerms env wf executionId (L.may (Execution.fresh wf executionId start))

/-- The law lets every execution with a new id do what executions do. -/
def Nests (L : Law engine) (env : RuntimeInner) : Prop :=
  ∀ executionId, L.fits .newUuid executionId → Admits L env executionId

/-- The requests which may be made outside of any execution. -/
def Act.Opens : Act → Prop
  | newUuid => True
  | epochSeconds => True
  | spawned => True
  | notified => True
  | load _ => True
  | findWorkflow _ => True
  | _ => False

/-- An execution of its own makes its requests under its own law. -/
theorem executeWith_obeys (nests : Nests L env) (hRunner : r.Obeys L env)
    (hMay : ∀ a : Act, a.Opens → may a) (fuel : Nat) (rawInput : Value)
    {options : ExecutionOptions}
    (hId : ∀ executionId, options.executionId = some executionId → Admits L env executionId) :
    Obeys L may (executeWith env r fuel wf rawInput options) := by
  have hIdentity : L.AsksOk (liftM options.identity : Run String) may (Admits L env) := by
    apply AsksOk.lift
    unfold ExecutionOptions.identity
    split
    · rename_i executionId hSome
      exact hId executionId hSome
    · exact (Asks.request (hMay .newUuid trivial)).mono nests
  apply AsksOk.seq hIdentity
  intro executionId admits
  apply Obeys.seq (do_obeys (hMay .epochSeconds trivial))
  intro startedAt
  refine ⟨admits.enters wf _, ?_⟩
  exact Asks.mono (executeBody_obeys hRunner (admits.terms wf _) rawInput startedAt fuel _)
    fun _ _ _ _ => trivial

/-- What may be asked outside of any execution may be asked in one. -/
theorem Terms.opens (terms : Terms env wf may) (a : Act) (hOpens : a.Opens) : may a := by
  apply terms.routine
  cases a <;> simp_all [Act.Opens, Act.Routine]

/-- The engine's functions make only requests that are allowed, whatever they are called for and
however deep. The induction is on the rounds. -/
theorem runner_obeys (nests : Nests L env) (fuel : Nat) : (runner env fuel).Obeys L env := by
  induction fuel with
  | zero =>
      constructor
      · intro wf may ctx tasks input terms _
        exact outOfFuel_obeys terms.toTerms
      · intro wf may ctx task input ticket terms _
        exact outOfFuel_obeys terms.toTerms
      · intro wf may sub input terms
        exact outOfFuel_obeys terms
  | succ fuel ih =>
      constructor
      · intro wf may ctx tasks input terms hScope
        exact scopeLoop_obeys ih terms hScope (fun h => absurd rfl h) fuel 0 input
      · intro wf may ctx task input ticket terms hTask
        exact execTask_obeys ih terms hTask input ticket
      · intro wf may sub input terms
        exact executeWith_obeys nests ih terms.opens fuel input fun _ hSome => nomatch hSome

/-- Whoever gives a program up on a cancellation waits for that besides, -/
theorem untilCancelled_obeys {α : Type} {body : Run α} (hMay : ∀ a : Act, a.Opens → may a)
    (obeys : Obeys L may body) : Obeys L may (untilCancelled body) := by
  apply Obeys.seq (do_obeys (hMay .notified trivial))
  intro epoch
  exact ⟨Asks.mono obeys fun _ _ _ _ => trivial, fun _ _ => trivial⟩

/-- Whoever awaits a task asks for nothing but what the task asks for. -/
theorem wait_obeys {α : Type} {task : Run α} (obeys : Obeys L may task) :
    Obeys L may (ExecutionHandle.wait task) :=
  ⟨Asks.mono obeys fun _ _ _ _ => trivial, fun _ _ => trivial⟩

/-- and starts an execution of its own. -/
theorem runWithCancel_obeys (nests : Nests L env) (hMay : ∀ a : Act, a.Opens → may a) (fuel : Nat)
    (input : Value) : Obeys L may (runWithCancel env fuel wf input) := by
  have hExecution : Obeys L may
      (executeWith env (runner env fuel) fuel wf input ExecutionOptions.default) :=
    executeWith_obeys nests (runner_obeys nests fuel) hMay fuel input fun _ hSome => nomatch hSome
  have hCancel := untilCancelled_obeys hMay hExecution
  unfold runWithCancel
  split
  · exact withTimeout_obeys _ _ hCancel
  · exact hCancel

/-- So an execution that is spawned and awaited obeys the law, -/
theorem execute_obeys (nests : Nests L env) (hMay : ∀ a : Act, a.Opens → may a) (fuel : Nat)
    (input : Value) : Obeys L may (execute env fuel wf input) := by
  apply Obeys.seq (do_obeys (hMay .newUuid trivial))
  intro handle
  apply Obeys.seq (do_obeys (hMay .spawned trivial))
  intro _
  exact wait_obeys (runWithCancel_obeys nests hMay fuel input)

/-- and one that is resumed does, when the records of the store do. -/
theorem resume_obeys (nests : Nests L env) (hMay : ∀ a : Act, a.Opens → may a) (fuel : Nat)
    {executionId : String} (hRecords : ∀ record, L.fits (.load executionId) (.ok (some record)) →
      Admits L env record.executionId) : Obeys L may (resume env fuel executionId) := by
  have hLoad : L.AsksOk (load executionId) may fun found =>
      L.fits (.load executionId) (.ok found) := by
    apply (Asks.request (hMay (.load executionId) trivial)).mono
    rintro reply hFits found rfl
    exact hFits
  apply AsksOk.seq hLoad
  intro found hFits
  split
  · exact Obeys.throw
  · split
    · exact Obeys.throw
    · rename_i record _
      apply Obeys.seq (do_obeys (hMay (.findWorkflow record.workflow) trivial))
      intro registered
      split
      · exact Obeys.throw
      · refine executeWith_obeys nests (runner_obeys nests fuel) hMay fuel _ fun other hSome => ?_
        cases hSome
        exact hRecords record hFits

end OwsRuntime
