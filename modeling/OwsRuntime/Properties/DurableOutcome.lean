import OwsRuntime.Engine.Executions
import OwsRuntime.Engine.Runs

/-! The durable outcome of a run. The terminal record of an execution is stored at the
end of its body, and a run which fails before, is cut off or panics does not get there. -/
namespace OwsRuntime

open Async

/-- The store holds a record of the run, with the terminal phase of its result. -/
def DurableOutcome (v w : World) (outcome : Except WorkflowError Value) : Prop :=
  ∃ executionId record, runId v w = some executionId ∧
    w.store.load executionId = some record ∧ record.phase = terminalPhase outcome

/-- A choice that does not cut a run off: its task does not panic, and neither the timeout
of its workflow nor the notification of its handle drops it. -/
def Uncut (choice : engine.Choice) : Prop :=
  choice ≠ .turn .expire ∧ choice ≠ .turn (.inner .expire) ∧
    choice ≠ .turn (.inner (.inner .expire))

/-- The schema of a workflow accepts its input and the transformation of it succeeds,
whatever the id and the start time of the run. -/
def AcceptsInput (env : RuntimeInner) (wf : CompiledWorkflow) (rawInput : Value) : Prop :=
  ∀ executionId startedAt, ∃ value,
    inputPipeline env wf (executionContext env wf executionId rawInput startedAt) rawInput = .ok value

/-- Nobody else writes the record of the run, and the store refuses none of its operations. -/
def Undisturbed (v w : World) : Prop :=
  ∀ executionId, runId v w = some executionId → Solo executionId w.journal

variable {env : RuntimeInner} {fuel : Nat} {wf : CompiledWorkflow} {rawInput : Value} {w : World}
  {outcome : Except WorkflowError Value} {τ : EngineState}

theorem not_cuts_uncut : ¬ Cuts Uncut := by
  rintro (hPanic | hOuter | hInner)
  · exact hPanic.1 rfl
  · exact hOuter.2.1 rfl
  · exact hInner.2.2 rfl

/-- The last record of an execution that has reported its result. -/
theorem Concluded.latest {ops : List StoreOp} (concluded : Concluded outcome ops) :
    ∃ record, latest ops = some record ∧ record.phase = terminalPhase outcome := by
  obtain ⟨before, record, event, rfl, _, hPhase, _⟩ := concluded
  refine ⟨record, ?_, hPhase⟩
  rw [latest_append]
  rfl

/-- A run whose input is accepted and which is not cut off leaves a durable outcome. -/
theorem execute_durableOutcome (hInjective : Function.Injective w.uuid)
    (accepts : AcceptsInput env wf rawInput)
    (finishes : Handler.Follows Uncut (engine.advance (execute env fuel wf rawInput).run (idle wf w))
      (Program.done outcome, τ)) (undisturbed : Undisturbed w τ.world) :
    DurableOutcome w τ.world outcome := by
  have hAll : Handler.Ensures Uncut (fun _ => True)
      (fun outcome => CutOrRan Uncut env wf rawInput w outcome)
      (execute env fuel wf rawInput).run (idle wf w) := execute_ensures hInjective rfl rfl
  rcases (hAll _ finishes).2 _ rfl with ⟨hCut, _⟩ | ran
  · exact absurd hCut not_cuts_uncut
  · obtain ⟨executionId, startedAt, time, v, added, events, _, hRunId, trail, hFinished⟩ := ran.report
    rcases hFinished with ⟨e, hError, _⟩ | ⟨_, concluded, _⟩
    · obtain ⟨value, hOk⟩ := accepts executionId startedAt
      rw [hOk] at hError
      cases hError
    · obtain ⟨record, hLatest, hPhase⟩ := concluded.latest
      refine ⟨executionId, record, hRunId, ?_, hPhase⟩
      rw [trail.load (undisturbed executionId hRunId), hLatest]
      rfl

/-- The record of a run and its result, as far as they are compared. -/
def recordedPhase (v : World) (outcome : Except WorkflowError Value) (τ : EngineState) :
    Option Phase × Phase × Bool :=
  (((runId v τ.world).bind τ.world.store.load).map (·.phase), terminalPhase outcome,
    τ.world.journal.all fun entry => !entry.foreign && entry.accepted)

theorem undisturbed_of_all {v w : World}
    (hAll : w.journal.all (fun entry => !entry.foreign && entry.accepted) = true) :
    Undisturbed v w := by
  intro executionId _ entry hEntry _
  simpa using List.all_eq_true.mp hAll entry hEntry

/-- The outcome of an empty workflow is durable. -/
theorem durableOutcome_empty :
    ∃ outcome τ, engine.Finishes (Sample.executed (Sample.workflow [] [])) outcome τ ∧
      DurableOutcome Sample.fresh τ.world outcome := by
  have hRun : (engine.run (Sample.executed (Sample.workflow [] []))
      (.turn .here :: List.replicate 8 Sample.inside)).bind
        (fun d => d.1.value?.map (recordedPhase Sample.fresh · d.2)) =
          some (some .completed, .completed, true) := by
    decide +kernel
  have hUncut : ∀ choice ∈ (.turn .here :: List.replicate 8 Sample.inside), Uncut choice := by
    simp [Uncut, Sample.inside]
  obtain ⟨outcome, τ, follows, hResult⟩ := Sample.follows_of_run hUncut hRun
  have hJournal := congrArg (fun r => r.2.2) hResult
  exact ⟨outcome, τ, Handler.Follows.reaches follows, execute_durableOutcome Sample.uuid_injective
    (fun _ _ => ⟨.null, rfl⟩) follows (undisturbed_of_all hJournal)⟩

/-- A run of a workflow which leaves a record that says it is still running, while it is
reported as cancelled. -/
theorem not_durableOutcome_of_run {wf : CompiledWorkflow} {choices : List engine.Choice}
    (hRun : (engine.run (Sample.executed wf) choices).bind
      (fun d => d.1.value?.map (recordedPhase Sample.fresh · d.2)) =
        some (some .running, .cancelled, true)) :
    ∃ (outcome : Except WorkflowError Value) (τ : EngineState),
      engine.Finishes (Sample.executed wf) outcome τ ∧ Undisturbed Sample.fresh τ.world ∧
        ¬ DurableOutcome Sample.fresh τ.world outcome := by
  obtain ⟨outcome, τ, finishes, hResult⟩ := Sample.finishes_of_run hRun
  have hJournal := congrArg (fun r => r.2.2) hResult
  refine ⟨outcome, τ, finishes, undisturbed_of_all hJournal, ?_⟩
  rintro ⟨executionId, record, hRunId, hLoad, hPhase⟩
  have hRecorded := congrArg (fun r => r.1) hResult
  have hTerminal := congrArg (fun r => r.2.1) hResult
  simp only [recordedPhase, hRunId, Option.bind_some, hLoad, Option.map_some, hPhase,
    Option.some.injEq] at hRecorded hTerminal
  rw [hTerminal] at hRecorded
  cases hRecorded

/-- A run that is cancelled through its handle leaves a record which says that it is
still running. -/
theorem cancelled_not_durableOutcome :
    ∃ (wf : CompiledWorkflow) (outcome : Except WorkflowError Value) (τ : EngineState),
      engine.Finishes (Sample.executed wf) outcome τ ∧ Undisturbed Sample.fresh τ.world ∧
        ¬ DurableOutcome Sample.fresh τ.world outcome := by
  have hRun : (engine.run (Sample.executed (Sample.workflow [] []))
      (.turn .here :: List.replicate 5 Sample.inside ++ [.env .cancel, .turn (.inner .expire)])).bind
        (fun d => d.1.value?.map (recordedPhase Sample.fresh · d.2)) =
          some (some .running, .cancelled, true) := by
    decide +kernel
  exact ⟨_, not_durableOutcome_of_run hRun⟩

/-- So does a run whose task panics. -/
theorem panicked_not_durableOutcome :
    ∃ (wf : CompiledWorkflow) (outcome : Except WorkflowError Value) (τ : EngineState),
      engine.Finishes (Sample.executed wf) outcome τ ∧ Undisturbed Sample.fresh τ.world ∧
        ¬ DurableOutcome Sample.fresh τ.world outcome := by
  have hRun : (engine.run (Sample.executed (Sample.workflow [] []))
      (.turn .here :: List.replicate 5 Sample.inside ++ [.turn .expire])).bind
        (fun d => d.1.value?.map (recordedPhase Sample.fresh · d.2)) =
          some (some .running, .cancelled, true) := by
    decide +kernel
  exact ⟨_, not_durableOutcome_of_run hRun⟩

end OwsRuntime
