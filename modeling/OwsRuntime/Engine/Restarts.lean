import OwsRuntime.Async.Own
import OwsRuntime.Engine.Checkpoints

/-! The log of an execution across its runs. A run that resumes it reads its last checkpoint
and takes the log further from there. -/
namespace OwsRuntime

open Async
open Async.Handler (Ensures)

variable {env : RuntimeInner} {fuel : Nat} {wf : CompiledWorkflow} {input : Value}
  {allowed : engine.Choice → Prop} {σ : EngineState} {v w : World} {executionId : String}
  {start : LogStage}

/-- An execution which is launched keeps a log. -/
theorem launch_charted (hDraws : σ.world.Draws (· ≠ executionId)) :
    Ensures allowed (Since executionId σ.world (Ongoing wf executionId .absent))
      (fun _ => Since executionId σ.world (Ongoing wf executionId .absent))
      (launch env (runner env fuel) fuel wf input executionId none).run σ := by
  refine launch_leaves (Charted.refl trivial) (fun startedAt τ hDraws => ?_) hDraws
  let ctx := executionContext env wf executionId input startedAt
  have since : Since ctx.executionId τ.world (Charted wf ctx.executionId .absent (· = .absent)) τ :=
    ⟨[], [], .refl _, Charted.refl rfl⟩
  exact freshBody_charted hDraws since

/-- An execution which is launched from a checkpoint takes the log further. -/
theorem relaunch_charted {state : ResumeState} (hIndex : start.index? = some state.nextIndex)
    (hDraws : σ.world.Draws (· ≠ executionId)) :
    Ensures allowed (Since executionId σ.world (Ongoing wf executionId start))
      (fun _ => Since executionId σ.world (Ongoing wf executionId start))
      (launch env (runner env fuel) fuel wf input executionId (some state)).run σ := by
  refine launch_leaves (Charted.refl trivial) (fun startedAt τ hDraws => ?_) hDraws
  let ctx := executionContext env wf executionId input startedAt
  have since : Since ctx.executionId τ.world
      (Charted wf ctx.executionId start (·.index? = some state.nextIndex)) τ :=
    ⟨[], [], .refl _, Charted.refl hIndex⟩
  exact resumedBody_charted hDraws since

/-- Only this workflow is registered under its key. -/
def World.Registers (wf : CompiledWorkflow) (w : World) : Prop :=
  ∀ entry ∈ w.workflows, entry.1 = wf.id.key → entry.2 = wf

/-- The execution is left to this runtime, and its workflow is not replaced. -/
structure World.LeftTo (wf : CompiledWorkflow) (executionId : String) (w : World) : Prop where
  solo : Solo executionId w.journal
  registers : w.Registers wf

/-- A request only ever adds to the journal of the store, and no request of a task registers a
workflow. -/
theorem perform_journal {a : Act} {τ : EngineState} {reply : a.Resp}
    (hPerform : perform a σ = some (reply, τ)) :
    (∃ entries, τ.world.journal = σ.world.journal ++ entries) ∧
      τ.world.workflows = σ.world.workflows := by
  have hNone : ∃ entries, σ.world.journal = σ.world.journal ++ entries := ⟨[], by simp⟩
  cases a with
  | store op =>
      rw [perform] at hPerform
      split at hPerform <;> cases hPerform
      · exact ⟨⟨_, rfl⟩, rfl⟩
      · cases op <;> exact ⟨⟨_, rfl⟩, rfl⟩
  | setScopeExited by_ => cases by_ <;> cases hPerform <;> exact ⟨hNone, rfl⟩
  | tryContext | load =>
      rw [perform] at hPerform
      split at hPerform <;> cases hPerform <;> exact ⟨hNone, rfl⟩
  | lockContext =>
      rw [perform] at hPerform
      split at hPerform <;> cases hPerform
      exact ⟨hNone, rfl⟩
  | receive | sleep =>
      obtain ⟨r, _, hEq⟩ := Option.map_eq_some_iff.mp hPerform
      cases hEq
      exact ⟨hNone, rfl⟩
  | outOfFuel => cases hPerform
  | _ =>
      cases hPerform
      exact ⟨hNone, rfl⟩

/-- A registered workflow stays in the registry. -/
theorem listed_lasting (entry : String × CompiledWorkflow) :
    Lasting engine fun w : World => entry ∈ w.workflows where
  perform := by
    intro a σ reply τ hMem hPerform
    rw [(perform_journal hPerform).2]
    exact hMem
  disturb := by
    intro w e hMem
    cases e with
    | register workflow => exact List.mem_cons_of_mem _ hMem
    | _ => exact hMem

theorem World.LeftTo.earlier (left : w.LeftTo wf executionId)
    (hJournal : ∃ entries, w.journal = v.journal ++ entries)
    (hWorkflows : ∀ entry ∈ v.workflows, entry ∈ w.workflows) : v.LeftTo wf executionId := by
  obtain ⟨entries, hEntries⟩ := hJournal
  have solo := left.solo
  rw [hEntries] at solo
  exact ⟨solo.of_append, fun entry hMem => left.registers entry (hWorkflows entry hMem)⟩

/-- What is not left to the runtime once never is again. -/
theorem leftTo_lasting (wf : CompiledWorkflow) (executionId : String) :
    Lasting engine fun w : World => ¬ w.LeftTo wf executionId where
  perform := by
    intro a σ reply τ hTaken hPerform left
    apply hTaken (left.earlier (perform_journal hPerform).1 _)
    exact fun entry hMem => (listed_lasting entry).perform hMem hPerform
  disturb := by
    intro w e hTaken left
    have moves : w.Moves (fun _ => True) (fun _ => True) (disturb e w) := .of_disturb e
    obtain ⟨entries, hJournal, _⟩ := moves.stored
    apply hTaken (left.earlier ⟨entries, hJournal⟩ _)
    exact fun entry hMem => (listed_lasting entry).disturb e hMem

theorem taken_ensures {α : Type} {p : Future α} (hTaken : ¬ σ.world.LeftTo wf executionId) :
    Ensures allowed (fun τ => ¬ τ.world.LeftTo wf executionId)
      (fun _ τ => ¬ τ.world.LeftTo wf executionId) p σ := by
  intro d follows
  have lasting := leftTo_lasting wf executionId
  have hLater := lasting.follows follows (lasting.advance p hTaken)
  exact ⟨hLater, fun _ _ => hLater⟩

/-- What a run that resumes an execution leaves under its id: it takes the log further from
the stage at which the store holds it, and nothing happens when there is no checkpoint. -/
def Continued (wf : CompiledWorkflow) (executionId : String) (start : LogStage) (v : World)
    (τ : EngineState) : Prop :=
  ∃ added events, v.Trail executionId τ.world added events ∧
    (τ.world.LeftTo wf executionId → AtStage wf executionId start (v.store.load executionId) →
      ∃ stage, Log wf executionId start added stage ∧ (start.index? = none → stage = start))

theorem Continued.quiet (trail : v.Trail executionId σ.world [] []) :
    Continued wf executionId start v σ :=
  ⟨[], [], trail, fun _ _ => ⟨start, .nil, fun _ => rfl⟩⟩

theorem Continued.void (resumed : Resumed executionId v σ)
    (hVoid : σ.world.LeftTo wf executionId →
      ¬ AtStage wf executionId start (v.store.load executionId)) :
    Continued wf executionId start v σ := by
  obtain ⟨added, events, trail, _⟩ := resumed
  exact ⟨added, events, trail, fun left held => absurd held (hVoid left)⟩

/-- The execution which a stored record describes goes on with the log of the record. -/
theorem record_continued {other : CompiledWorkflow} {record : ExecutionRecord}
    (hDraws : v.Draws (· ≠ executionId)) (trail : v.Trail executionId σ.world [] [])
    (hBound : ∀ index, start.index? = some index → index < 2 ^ 64)
    (hRunning : record.phase.isTerminal = false)
    (hRecord : Solo executionId σ.world.journal → v.store.load executionId = some record)
    (hWorkflow : σ.world.Registers wf → record.workflow = wf.id.key → other = wf) :
    Ensures allowed (Continued wf executionId start v) (fun _ => Continued wf executionId start v)
      (executeWith env (runner env fuel) fuel other .null
        { executionId := some record.executionId, resume := some (resumeState record) }).run σ := by
  have hResumed : Ensures allowed (Resumed executionId v) (fun _ => Resumed executionId v)
      (executeWith env (runner env fuel) fuel other .null
        { executionId := some record.executionId, resume := some (resumeState record) }).run σ :=
    record_resumed hDraws trail fun _ solo => ⟨record, hRecord solo, hRunning⟩
  by_cases hLeft : σ.world.LeftTo wf executionId
  · have hLoad := hRecord hLeft.solo
    by_cases hStage : AtStage wf executionId start (some record)
    · cases hStage with
      | terminal _ hTerminal => cases hRunning.symm.trans hTerminal
      | @checkpoint _ index context savedInput startedAt hIndex =>
          obtain rfl := hWorkflow hLeft.registers rfl
          have hState : resumeState (checkpointRecord other executionId index context savedInput
              startedAt) = { nextIndex := index, input := savedInput, context } :=
            resumeState_checkpoint (hBound index hIndex) context savedInput startedAt
          rw [hState]
          have hLaunch : Ensures allowed (Since executionId σ.world (Ongoing other executionId start))
              (fun _ => Since executionId σ.world (Ongoing other executionId start))
              (launch env (runner env fuel) fuel other .null executionId
                (some { nextIndex := index, input := savedInput, context })).run σ :=
            relaunch_charted hIndex (trail.draws hDraws)
          have hContinued : ∀ τ : EngineState,
              Since executionId σ.world (Ongoing other executionId start) τ →
                Continued other executionId start v τ := by
            rintro τ ⟨added, events, hTrail, stage, log, _⟩
            refine ⟨added, events, by simpa using trail.trans hTrail, fun _ _ => ⟨stage, log, ?_⟩⟩
            intro hNone
            cases hIndex.symm.trans hNone
          exact hLaunch.mono hContinued fun _ τ _ since => hContinued τ since
    · have hVoid : ∀ τ : EngineState, Resumed executionId v τ → Continued wf executionId start v τ := by
        intro τ resumed
        refine .void resumed fun _ => ?_
        rwa [hLoad]
      exact hResumed.mono hVoid fun _ τ _ resumed => hVoid τ resumed
  · refine (hResumed.and (taken_ensures hLeft)).mono ?_ ?_
    · exact fun τ both => .void both.1 fun left => absurd left both.2
    · exact fun _ τ both _ => .void both.1 fun left => absurd left both.2

theorem resume_continued (hBound : ∀ index, start.index? = some index → index < 2 ^ 64)
    (hDraws : σ.world.Draws (· ≠ executionId)) :
    Ensures allowed (Continued wf executionId start σ.world)
      (fun _ => Continued wf executionId start σ.world) (resume env fuel executionId).run σ := by
  apply resume_ensures
  · exact fun τ trail => .quiet trail
  · intro record other τ trail hRunning hLoad hMem
    apply record_continued hDraws trail hBound hRunning hLoad
    exact fun registers hKey => registers _ hMem hKey

theorem Continued.after (continued : Continued wf executionId start w σ)
    (trail : v.Trail executionId w [] []) : Continued wf executionId start v σ := by
  obtain ⟨added, events, hTrail, hLog⟩ := continued
  refine ⟨added, events, by simpa using trail.trans hTrail, fun left held => hLog left ?_⟩
  obtain ⟨entries, hEntries⟩ := hTrail.journal
  have solo := left.solo
  rw [hEntries] at solo
  rw [trail.load solo.of_append]
  exact held

theorem sessionRun_continued {index : Nat} (hIndex : index ≠ 0)
    (hBound : ∀ index, start.index? = some index → index < 2 ^ 64)
    (hDraws : σ.world.Draws (· ≠ executionId)) :
    Ensures allowed (Continued wf executionId start σ.world)
      (fun _ => Continued wf executionId start σ.world)
      (sessionRun env fuel wf input executionId index).run σ := by
  refine sessionRun_later hIndex ?_ ?_ (fun τ hDraws => resume_continued hBound hDraws) hDraws
  · exact fun τ trail => .quiet trail
  · exact fun w τ trail continued => continued.after trail

end OwsRuntime
