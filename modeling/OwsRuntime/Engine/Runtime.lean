import OwsRuntime.Engine.Engine

/-! The entry points of the runtime: starting, awaiting and resuming executions. -/
namespace OwsRuntime

open Async

/-- Runs a future until the execution is cancelled. -/
def untilCancelled {α : Type} (body : Run α) : Run α := do
  let epoch ← notified
  @Program.race engineSig _ _ (.notified epoch) body.run fun
    | some result => Program.done result
    | none => Program.done (.error WorkflowError.cancelled)

/-- Executes a workflow under its timeout and its cancellation token. -/
def runWithCancel (env : RuntimeInner) (fuel : Nat) (wf : CompiledWorkflow) (input : Value) :
    Run Value :=
  let execution :=
    untilCancelled (executeWith env (runner env fuel) fuel wf input ExecutionOptions.default)
  match wf.timeout with
  | some duration => withTimeout duration execution (WorkflowError.timeout none)
  | none => execution

/-- `ExecutionHandle::wait`. The task that has been spawned sends its result; when it
panics, the channel is closed without one, and that is reported as a cancellation. -/
def ExecutionHandle.wait {α : Type} (task : Run α) : Run α :=
  @Program.race engineSig _ _ .panicked task.run fun
    | some result => Program.done result
    | none => Program.done (.error WorkflowError.cancelled)

/-- `Runtime::execute`, and awaiting the handle it returns. The handle draws an
execution id of its own. -/
def execute (env : RuntimeInner) (fuel : Nat) (wf : CompiledWorkflow) (input : Value) :
    Run Value := do
  let _handle ← newUuid
  ask .spawned
  ExecutionHandle.wait (runWithCancel env fuel wf input)

def unknownExecution (executionId : String) : WorkflowError :=
  runtimeError ("unknown execution `" ++ executionId ++ "`")

/-- The progress which a stored record describes. -/
def resumeState (record : ExecutionRecord) : ResumeState :=
  { nextIndex := ((record.pointer.get? "next").bind Value.asU64).getD 0
    input := (record.pointer.get? "input").getD record.context
    context := record.context }

/-- `Runtime::resume`. -/
def resume (env : RuntimeInner) (fuel : Nat) (executionId : String) : Run Value := do
  match ← load executionId with
  | none => throw (unknownExecution executionId)
  | some record =>
      if record.phase.isTerminal then
        throw (runtimeError ("execution `" ++ executionId ++ "` is already " ++
          record.phase.display ++ " and cannot be resumed"))
      else
        match ← findWorkflow record.workflow with
        | none => throw (runtimeError ("workflow `" ++ record.workflow ++
            "` is not registered; register it before resuming"))
        | some wf =>
            executeWith env (runner env fuel) fuel wf .null
              { executionId := some record.executionId, resume := some (resumeState record) }

end OwsRuntime
