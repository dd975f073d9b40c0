import OwsRuntime.Engine.Executions
import OwsRuntime.Engine.Runs

/-! The ids of executions. The handle of a run draws an id, and the execution that it
stands for draws another one. -/
namespace OwsRuntime

open Async Law
open Async.Handler (Ensures Drifts)

/-- The id of the handle which `execute` returns: the first one that it draws. -/
def handleId (w : World) : String := w.uuid w.uuids

/-- At every moment of a run of `execute`, its own execution has the id of the handle, and
what it announces is announced under this id. -/
def HandleIdentifies (env : RuntimeInner) (fuel : Nat) (wf : CompiledWorkflow) (rawInput : Value)
    (w : World) : Prop :=
  ∀ d, engine.Reaches (engine.advance (execute env fuel wf rawInput).run (idle wf w)) d →
    (∀ e, d.1.Outermost e → e.executionId = handleId w) ∧
      ∀ executionId, runId w d.2.world = some executionId → executionId = handleId w

/-- Nothing that the runtime stores or publishes belongs to the id, and the store
knows of it no more than before, unless somebody else writes under it. -/
def Unused (executionId : String) (v w : World) : Prop :=
  ownOps executionId w.journal = ownOps executionId v.journal ∧
    announcements executionId (publishedSince v w) = [] ∧
    (Solo executionId w.journal → w.store.load executionId = v.store.load executionId)

variable {env : RuntimeInner} {fuel : Nat} {wf : CompiledWorkflow} {rawInput : Value} {v w : World}

theorem Since.unused {executionId : String} {τ : EngineState}
    (since : Since executionId v (fun added announced => added = [] ∧ announced = []) τ) :
    Unused executionId v τ.world := by
  obtain ⟨added, events, trail, rfl, hEvents⟩ := since
  refine ⟨?_, ?_, fun solo => ?_⟩
  · rw [trail.ops, List.append_nil]
  · rw [publishedSince, trail.published, List.drop_left]
    exact hEvents
  · rw [trail.load solo]
    rfl

/-- The id of the handle stays unused in every run: the execution draws another one for itself, and
stores and announces everything under that. -/
theorem execute_unused (hInjective : Function.Injective w.uuid)
    {d : Config engineSig (Except WorkflowError Value)}
    (reached : engine.Reaches (engine.advance (execute env fuel wf rawInput).run (idle wf w)) d) :
    Unused (handleId w) w d.2.world := by
  let v : World := { w with uuids := w.uuids + 1 }
  let Unseen : Deeds := fun added announced => added = [] ∧ announced = []
  have hDraws : v.Draws (· ≠ handleId w) := draws_after hInjective
  have obeys : ∀ e : Execution, Obeys (worldLaw (· ≠ handleId w) fun _ => False)
      ((worldLaw (· ≠ handleId w) fun _ => False).may e) (do
        ask .spawned
        ExecutionHandle.wait (runWithCancel env fuel wf rawInput) : Run Value) := by
    intro e
    apply Obeys.seq (do_obeys (worldLaw_opens .spawned trivial))
    intro _
    exact wait_obeys (runWithCancel_obeys (worldLaw_nests env) worldLaw_opens fuel rawInput)
  have hAll : @Ensures engineSig engine (fun _ => True) (Since (handleId w) v Unseen) _
      (fun _ => Since (handleId w) v Unseen) (execute env fuel wf rawInput).run (idle wf w) := by
    apply Ensures.lift
    refine ask_sync_ensures (a := .newUuid) rfl rfl ?_
    intro x drifts
    have since : Since (handleId w) v Unseen { idle wf w with world := x } :=
      ⟨[], [], .of_drifts drifts, rfl, rfl⟩
    exact ⟨since, quiet_since (obeys _).run hDraws since⟩
  have hUnused : Unused (handleId w) v d.2.world := (hAll d reached.follows).1.unused
  exact hUnused

/-- The execution of a run, once it is under way. -/
theorem execute_outermost (env : RuntimeInner) (fuel : Nat) (wf : CompiledWorkflow)
    (rawInput : Value) (w : World) :
    ∃ d e, engine.Reaches (engine.advance (execute env fuel wf rawInput).run (idle wf w)) d ∧
      d.1.Outermost e ∧ e.executionId = w.uuid (w.uuids + 1) := by
  let σ : EngineState := (idle wf w).mapWorld fun w => { w with uuids := w.uuids + 1 }
  refine ⟨engine.advance (ExecutionHandle.wait (runWithCancel env fuel wf rawInput)).run σ, ?_⟩
  cases hTimeout : wf.timeout with
  | none =>
      refine ⟨Execution.fresh wf (w.uuid (w.uuids + 1)) 0, ⟨[.turn .here], rfl⟩, ?_, rfl⟩
      rw [ExecutionHandle.wait, runWithCancel, hTimeout]
      rfl
  | some duration =>
      refine ⟨Execution.fresh wf (w.uuid (w.uuids + 1)) 0, ⟨[.turn .here], rfl⟩, ?_, rfl⟩
      rw [ExecutionHandle.wait, runWithCancel, hTimeout]
      rfl

theorem not_handleIdentifies (hInjective : Function.Injective w.uuid) :
    ¬ HandleIdentifies env fuel wf rawInput w := by
  intro identifies
  obtain ⟨d, e, reached, hOutermost, hId⟩ := execute_outermost env fuel wf rawInput w
  have hSame := (identifies d reached).1 e hOutermost
  rw [hId] at hSame
  have hIndex := hInjective hSame
  omega

/-- The handle of a run never identifies its execution, and in no run is anything stored
or published under the id of the handle: to resume it finds nothing. -/
theorem execute_handle_unused (hInjective : Function.Injective w.uuid) :
    ¬ HandleIdentifies env fuel wf rawInput w ∧
      ∀ d, engine.Reaches (engine.advance (execute env fuel wf rawInput).run (idle wf w)) d →
        Unused (handleId w) w d.2.world :=
  ⟨not_handleIdentifies hInjective, fun _ reached => execute_unused hInjective reached⟩

/-- The handle of an empty workflow finds nothing either, at any point of its runs. -/
theorem handle_unused_empty :
    ¬ HandleIdentifies Sample.runtime 8 (Sample.workflow [] []) .null Sample.fresh ∧
      ∀ d, engine.Reaches (Sample.executed (Sample.workflow [] [])) d →
        Unused (handleId Sample.fresh) Sample.fresh d.2.world :=
  execute_handle_unused Sample.uuid_injective

/-- An empty workflow is enough for the handle and the execution to go by different ids. -/
theorem empty_not_handleIdentifies :
    ¬ HandleIdentifies Sample.runtime 8 (Sample.workflow [] []) .null Sample.fresh :=
  not_handleIdentifies Sample.uuid_injective

end OwsRuntime
