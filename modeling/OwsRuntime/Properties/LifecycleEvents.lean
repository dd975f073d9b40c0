import OwsRuntime.Engine.Executions
import OwsRuntime.Engine.Runs

/-! The lifecycle events of a run. The runtime announces that an execution has started,
and that it has completed, but neither that it has faulted nor that it was cancelled. -/
namespace OwsRuntime

open Async Law

/-- The type of the lifecycle event that goes with a terminal phase. -/
def lifecycleType : Phase → String
  | .completed => "io.serverlessworkflow.workflow.completed.v1"
  | .cancelled => "io.serverlessworkflow.workflow.cancelled.v1"
  | _ => "io.serverlessworkflow.workflow.faulted.v1"

/-- The publisher has received one event that a run has started and then one terminal
event of the type that matches the result, and no other lifecycle event of the run. -/
def LifecycleComplete (v w : World) (outcome : Except WorkflowError Value) : Prop :=
  ∃ executionId started terminal, runId v w = some executionId ∧
    announcements executionId (publishedSince v w) = [started, terminal] ∧
    started.type = "io.serverlessworkflow.workflow.started.v1" ∧
    terminal.type = lifecycleType (terminalPhase outcome)

variable {env : RuntimeInner} {fuel : Nat} {wf : CompiledWorkflow} {rawInput : Value} {w : World}
  {outcome : Except WorkflowError Value} {τ : EngineState}

/-- Whatever a run publishes about lifecycles is of the two announced types. -/
theorem execute_announced
    (finishes : engine.Finishes (engine.advance (execute env fuel wf rawInput).run (idle wf w))
      outcome τ) {event : EventMessage} {executionId : String}
    (hEvent : event ∈ announcements executionId (publishedSince w τ.world)) : event.Announced := by
  have hDraws : w.Draws fun _ => True := fun _ _ => trivial
  have obeys : Obeys (worldLaw (fun _ => True) fun _ => False)
      ((worldLaw (fun _ => True) fun _ => False).may (idle wf w).shared)
      (execute env fuel wf rawInput) :=
    execute_obeys (worldLaw_nests env) worldLaw_opens fuel rawInput
  obtain ⟨_, moves, _⟩ := Asks.reaches obeys (worldLaw_fit hDraws) finishes
  obtain ⟨events, hPublished, hEvents⟩ := moves.announced
  have hSince : publishedSince w τ.world = events := by
    have hWorld : τ.world.published = w.published ++ events := hPublished
    rw [publishedSince, hWorld, List.drop_left]
  rw [hSince] at hEvent
  obtain ⟨entry, hMem, rfl⟩ := List.mem_map.mp hEvent
  obtain ⟨hEntry, hId⟩ := List.mem_filter.mp hMem
  exact (hEvents entry hEntry executionId (by simpa using hId)).2

/-- No error is announced. -/
theorem not_announced_of_error {e : WorkflowError} {event : EventMessage}
    (hType : event.type = lifecycleType (terminalPhase (.error e))) : ¬ event.Announced := by
  intro announced
  rw [EventMessage.Announced, hType, terminalPhase] at announced
  revert announced
  split <;> decide

/-- A run that succeeds announces its start and its completion. -/
theorem lifecycleComplete_of_ok {value : Value} (ran : Ran env wf rawInput w (.ok value) τ) :
    LifecycleComplete w τ.world (.ok value) := by
  obtain ⟨executionId, startedAt, time, v, added, events, hSince, hRunId, _, hFinished⟩ := ran.report
  rcases hFinished with ⟨e, _, hError, _⟩ | ⟨_, _, before, finishTime, hAnnounced, hBefore⟩
  · cases hError
  · refine ⟨executionId, workflowStarted wf executionId time,
      workflowCompleted wf executionId finishTime, hRunId, ?_, rfl, rfl⟩
    have hStarted : announcements executionId
        [(some executionId, workflowStarted wf executionId time)] =
          [workflowStarted wf executionId time] := by simp [announcements]
    rw [hSince, ← List.singleton_append, announcements_append, hStarted]
    rw [hBefore, List.nil_append] at hAnnounced
    exact congrArg _ hAnnounced

theorem not_lifecycleComplete_of_error {e : WorkflowError}
    (finishes : engine.Finishes (engine.advance (execute env fuel wf rawInput).run (idle wf w))
      (.error e) τ) : ¬ LifecycleComplete w τ.world (.error e) := by
  rintro ⟨executionId, started, terminal, _, hEvents, _, hType⟩
  have hTerminal : terminal ∈ announcements executionId (publishedSince w τ.world) := by
    simp [hEvents]
  exact not_announced_of_error hType (execute_announced finishes hTerminal)

/-- The lifecycle of a run is announced in full if and only if the run succeeds: every
other way to end a run announces no terminal event. -/
theorem execute_lifecycleComplete_iff (hInjective : Function.Injective w.uuid)
    (finishes : engine.Finishes (engine.advance (execute env fuel wf rawInput).run (idle wf w))
      outcome τ) :
    LifecycleComplete w τ.world outcome ↔ ∃ value, outcome = .ok value := by
  constructor
  · intro complete
    cases outcome with
    | ok value => exact ⟨value, rfl⟩
    | error e => exact absurd complete (not_lifecycleComplete_of_error finishes)
  · rintro ⟨value, rfl⟩
    have hAll : Handler.Ensures (fun _ => True) (fun _ => True)
        (fun outcome => CutOrRan (fun _ => True) env wf rawInput w outcome)
        (execute env fuel wf rawInput).run (idle wf w) := execute_ensures hInjective rfl rfl
    rcases (hAll _ finishes.follows).2 _ rfl with ⟨_, e, hError⟩ | ran
    · cases hError
    · exact lifecycleComplete_of_ok ran

/-- An empty workflow succeeds. -/
theorem lifecycleComplete_iff_empty :
    ∃ outcome τ, engine.Finishes (Sample.executed (Sample.workflow [] [])) outcome τ ∧
      (LifecycleComplete Sample.fresh τ.world outcome ↔ ∃ value, outcome = .ok value) := by
  have hRun : (engine.run (Sample.executed (Sample.workflow [] []))
      (.turn .here :: List.replicate 8 Sample.inside)).bind
        (fun d => d.1.value?.map (Sample.succeeded · d.2)) = some true := by
    decide +kernel
  obtain ⟨outcome, τ, finishes, _⟩ := Sample.finishes_of_run hRun
  exact ⟨outcome, τ, finishes, execute_lifecycleComplete_iff Sample.uuid_injective finishes⟩

/-- A run whose only task goes to an unknown one faults, and its lifecycle has no end. -/
theorem faulted_not_lifecycleComplete :
    ∃ (wf : CompiledWorkflow) (outcome : Except WorkflowError Value) (τ : EngineState),
      engine.Finishes (Sample.executed wf) outcome τ ∧
        ¬ LifecycleComplete Sample.fresh τ.world outcome := by
  have hRun : (engine.run (Sample.executed
      (Sample.workflow [Sample.task "t" (some "nowhere") (.set (.map []))] []))
      (.turn .here :: List.replicate 13 Sample.inside)).bind
        (fun d => d.1.value?.map (Sample.succeeded · d.2)) = some false := by
    decide +kernel
  obtain ⟨outcome, τ, finishes, hFailed⟩ := Sample.finishes_of_run hRun
  cases outcome with
  | ok value => cases hFailed
  | error e => exact ⟨_, _, τ, finishes, not_lifecycleComplete_of_error finishes⟩

end OwsRuntime
