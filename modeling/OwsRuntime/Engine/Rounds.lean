import OwsRuntime.Async.Endings
import OwsRuntime.Engine.Engine

/-! The rounds of the loop over a scope, taken turn by turn. What a task asks for within its
own turn is performed at once. -/
namespace OwsRuntime

open Async
open Async.Handler (Ends)

variable {env : RuntimeInner} {r : Runner} {wf : CompiledWorkflow} {ctx : ExecContext}
  {tasks : List CompiledTask} {task : CompiledTask} {index fuel : Nat} {input : Value}
  {checkpoint : Option ScopeCheckpoint} {σ : EngineState} {α β : Type}

section Requests

/-- A request of the program's own turn. -/
theorem advance_ask_bind {a : Act} {τ : EngineState} {reply : a.Resp} (hMode : a.mode = .sync)
    (hPerform : perform a σ = some (reply, τ)) (f : a.Resp → Run β) :
    engine.advance ((liftM (ask a) : Run a.Resp) >>= f).run σ = engine.advance (f reply).run τ :=
  @Handler.advance_act_sync engineSig _ engine a (fun reply => (f reply).run) σ τ reply hMode hPerform

theorem advance_loadEnded (f : Bool → Run β) :
    engine.advance ((liftM loadEnded : Run Bool) >>= f).run σ =
      engine.advance (f σ.shared.ended).run σ :=
  @advance_ask_bind _ _ .loadEnded σ _ rfl rfl f

theorem advance_mark (n : Note) (f : Nat → Run β) :
    engine.advance ((liftM (mark n) : Run Nat) >>= f).run σ =
      engine.advance (f σ.shared.trace.length).run (EngineState.note σ n) :=
  @advance_ask_bind _ _ (.note n) _ _ rfl rfl f

theorem advance_note (n : Note) (f : Unit → Run β) :
    engine.advance ((liftM (note n) : Run Unit) >>= f).run σ =
      engine.advance (f ()).run (EngineState.note σ n) :=
  @advance_ask_bind _ _ (.note n) _ _ rfl rfl fun _ => f ()

theorem advance_failIfCancelled_of_false (hNot : σ.world.cancelled = false) (f : Unit → Run β) :
    engine.advance (ctx.failIfCancelled >>= f).run σ = engine.advance (f ()).run σ := by
  unfold ExecContext.failIfCancelled
  rw [bind_assoc]
  refine (@advance_ask_bind _ _ .isCancelled σ σ.world.cancelled rfl rfl _).trans ?_
  rw [hNot]
  rfl

/-- The state of a task that has found its execution cancelled. -/
def EngineState.stopped (σ : EngineState) : EngineState :=
  EngineState.mapLocal ({ · with stopped := σ.world.cancelled }) σ

theorem advance_failIfCancelled_of_true (hCancelled : σ.world.cancelled = true) (f : Unit → Run β) :
    engine.advance (ctx.failIfCancelled >>= f).run σ =
      (.done (.error ctx.cancelledError), σ.stopped) := by
  unfold ExecContext.failIfCancelled
  rw [bind_assoc]
  refine (@advance_ask_bind _ _ .isCancelled σ σ.world.cancelled rfl rfl _).trans ?_
  rw [hCancelled]
  exact @advance_ask_bind _ _ .stop σ.stopped () rfl rfl fun _ => (throw ctx.cancelledError >>= f)

end Requests

/-- A round of a scope whose execution is cancelled. -/
theorem scopeLoop_cancelled (hCancelled : σ.world.cancelled = true) :
    engine.advance (scopeLoop env r wf ctx tasks checkpoint (fuel + 1) index input).run σ =
      (.done (.error ctx.cancelledError), σ.stopped) := by
  rw [scopeLoop, scopeStep, bind_assoc]
  exact advance_failIfCancelled_of_true hCancelled _

/-- A round of a scope after its last task, or of an execution that is over. -/
theorem scopeLoop_over (hNot : σ.world.cancelled = false)
    (hOver : σ.shared.ended = true ∨ tasks[index]? = none) :
    engine.advance (scopeLoop env r wf ctx tasks checkpoint (fuel + 1) index input).run σ =
      (.done (.ok input), σ) := by
  rw [scopeLoop, scopeStep, bind_assoc, advance_failIfCancelled_of_false hNot, bind_assoc,
    advance_loadEnded]
  cases hEnded : σ.shared.ended with
  | true => rfl
  | false =>
      have hLast : tasks[index]? = none := by simpa [hEnded] using hOver
      rw [hLast]
      rfl

/-- What follows in a round once its task has succeeded. -/
def afterTask (env : RuntimeInner) (r : Runner) (wf : CompiledWorkflow) (ctx : ExecContext)
    (tasks : List CompiledTask) (checkpoint : Option ScopeCheckpoint) (fuel index : Nat)
    (task : CompiledTask) (exec : TaskExec) : Run Value := do
  let state ← followDirective ctx tasks index (finalDirective task exec) exec.output
  checkpointState wf ctx checkpoint state
  match state with
  | .finished output => return output
  | .running next input => scopeLoop env r wf ctx tasks checkpoint fuel next input

/-- A round of a scope that runs a task. -/
theorem scopeLoop_task (hNot : σ.world.cancelled = false) (hGoes : σ.shared.ended = false)
    (hTask : tasks[index]? = some task) :
    engine.advance (scopeLoop env r wf ctx tasks checkpoint (fuel + 1) index input).run σ =
      engine.advance (execTimed env r wf ctx task input σ.shared.trace.length >>=
        afterTask env r wf ctx tasks checkpoint fuel index task).run
          (EngineState.note σ (.admitted tasks index)) := by
  rw [scopeLoop, scopeStep, bind_assoc, advance_failIfCancelled_of_false hNot, bind_assoc,
    advance_loadEnded, hGoes]
  simp only [Bool.false_eq_true, if_false, hTask]
  rw [bind_assoc, advance_mark]
  simp only [bind_assoc]
  rfl

/-- A scope goes on with the next task. -/
theorem afterTask_continue {exec : TaskExec} (hDirective : finalDirective task exec = .continue_) :
    engine.advance (afterTask env r wf ctx tasks none fuel index task exec).run σ =
      engine.advance (scopeLoop env r wf ctx tasks none fuel (index + 1) exec.output).run
        (EngineState.note σ (.moved tasks index (index + 1))) := by
  rw [afterTask, hDirective, followDirective, bind_assoc, advance_note]
  rfl

/-- A scope is over with `exit`. -/
theorem afterTask_exit {exec : TaskExec} (hDirective : finalDirective task exec = .exit) :
    engine.advance (afterTask env r wf ctx tasks checkpoint fuel index task exec).run σ =
      (.done (.ok exec.output), EngineState.mapLocal (fun l =>
        { l with scopeExited := true, exits := l.exits ++ [tasks] }) σ) := by
  rw [afterTask, hDirective]
  rfl

end OwsRuntime
