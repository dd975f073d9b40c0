import OwsRuntime.Async.Serial
import OwsRuntime.Engine.Executions
import OwsRuntime.Engine.Runtime

/-! The runs of one execution: the one which starts it, and those which resume it. Each
of them, by itself, leaves its own deeds under the id of the execution. -/
namespace OwsRuntime

open Async Law
open Async.Handler (Ensures Drifts Serial Follows)

/-- The run which starts an execution, when the id has been drawn. -/
def initialRun (env : RuntimeInner) (fuel : Nat) (wf : CompiledWorkflow) (input : Value)
    (executionId : String) : Run Value :=
  let execution := untilCancelled (launch env (runner env fuel) fuel wf input executionId none)
  match wf.timeout with
  | some duration => withTimeout duration execution (WorkflowError.timeout none)
  | none => execution

/-- The runs of a session. The first one starts the execution, and the others resume it. -/
def sessionRun (env : RuntimeInner) (fuel : Nat) (wf : CompiledWorkflow) (input : Value)
    (executionId : String) (index : Nat) : Run Value := do
  ask .spawned
  if index = 0 then initialRun env fuel wf input executionId else resume env fuel executionId

/-- An execution that is started and resumed so many times, at any moments. -/
def session (env : RuntimeInner) (fuel : Nat) (wf : CompiledWorkflow) (input : Value)
    (executionId : String) (resumes : Nat) :
    Future (List (Fin (resumes + 1) × Option (Except WorkflowError Value))) :=
  @Program.par engineSig _ _ (resumes + 1) (resumes + 1) (fun _ => TaskLocal.initial)
    (fun i => (sessionRun env fuel wf input executionId i.val).run) [] Program.done

variable {env : RuntimeInner} {fuel : Nat} {wf : CompiledWorkflow} {input : Value}
  {allowed : engine.Choice → Prop} {σ : EngineState} {v w : World} {executionId : String}

/-- A run of a workflow draws the id of its execution, and is its initial run then. -/
theorem runWithCancel_initialRun (env : RuntimeInner) (fuel : Nat) (wf : CompiledWorkflow)
    (input : Value) (σ : EngineState) :
    engine.advance (runWithCancel env fuel wf input).run σ =
      engine.advance (initialRun env fuel wf input (σ.world.uuid σ.world.uuids)).run
        (σ.mapWorld fun w => { w with uuids := w.uuids + 1 }) := by
  cases hTimeout : wf.timeout with
  | none =>
      rw [runWithCancel, initialRun, hTimeout]
      rfl
  | some duration =>
      rw [runWithCancel, initialRun, hTimeout]
      rfl

section Runs

variable {P : Deeds}

/-- What is left under the id at any moment may be left when a run is dropped. -/
theorem race_since {alarm : Alarm} {body : Run Value} {cut : WorkflowError}
    {next : Option (Except WorkflowError Value) → Future (Except WorkflowError Value)}
    (hSome : ∀ result, next (some result) = Program.done result)
    (hNone : next none = Program.done (.error cut))
    (hBody : Ensures (allowed ∘ Handler.Choice.within) (Since executionId v P)
      (fun _ => Since executionId v P) body.run σ) :
    Ensures allowed (Since executionId v P) (fun _ => Since executionId v P)
      (@Program.race engineSig _ _ alarm body.run next) σ := by
  have hDone : ∀ (result : Except WorkflowError Value) (τ : EngineState),
      Since executionId v P τ → Ensures allowed (Since executionId v P)
        (fun _ => Since executionId v P) (Program.done result) τ :=
    fun result τ since => Since.done (Q := fun _ => P) since fun _ _ hP => hP
  apply Ensures.race
  · refine hBody.mono (fun _ hI => hI) fun result τ _ since => ?_
    rw [hSome]
    exact hDone result τ since
  · intro _ τ since
    rw [hNone]
    exact hDone (.error cut) τ since

/-- An execution that is launched leaves under its id what its body leaves, as the rest of it stores
nothing there. -/
theorem launch_leaves {state : Option ResumeState} (hNone : P [] [])
    (hBody : ∀ {inner : engine.Choice → Prop} (startedAt : Int) (τ : EngineState),
      τ.world.Draws (· ≠ executionId) → Ensures inner (Since executionId τ.world P)
        (fun _ => Since executionId τ.world P)
        (executeBody env (runner env fuel) fuel wf
          (executionContext env wf executionId input startedAt) input startedAt state).run τ)
    (hDraws : σ.world.Draws (· ≠ executionId)) :
    Ensures allowed (Since executionId σ.world P) (fun _ => Since executionId σ.world P)
      (launch env (runner env fuel) fuel wf input executionId state).run σ := by
  apply Ensures.lift
  apply epochSeconds_ensures
  intro startedAt w drifts
  have waited : σ.world.Trail executionId w [] [] := .of_drifts drifts
  refine ⟨⟨[], [], waited, hNone⟩, ?_⟩
  refine Ensures.region (J := Since executionId σ.world P) ?_ fun τ since => since
  have hAfter : ∀ τ : EngineState, Since executionId w P τ → Since executionId σ.world P τ :=
    fun τ since => since.after waited fun _ _ hP => hP
  refine (hBody startedAt _ (waited.draws hDraws)).mono hAfter fun _ τ _ since => ?_
  exact Since.done (Q := fun _ => P) (hAfter τ since) fun _ _ hP => hP

theorem launch_since (hDraws : σ.world.Draws (· ≠ executionId)) :
    Ensures allowed (Since executionId σ.world fun added _ => Course added)
      (fun _ => Since executionId σ.world fun added _ => Course added)
      (launch env (runner env fuel) fuel wf input executionId none).run σ :=
  Ensures.mono (launch_ensures hDraws) (fun _ since => since) fun _ _ since _ => since

/-- Wherever it is dropped, the initial run of an execution leaves what the execution leaves. -/
theorem initialRun_since (hNone : P [] [])
    (hLaunch : ∀ {allowed : engine.Choice → Prop} {σ : EngineState},
      σ.world.Draws (· ≠ executionId) → Ensures allowed (Since executionId σ.world P)
        (fun _ => Since executionId σ.world P)
        (launch env (runner env fuel) fuel wf input executionId none).run σ)
    (hDraws : σ.world.Draws (· ≠ executionId)) :
    Ensures allowed (Since executionId σ.world P) (fun _ => Since executionId σ.world P)
      (initialRun env fuel wf input executionId).run σ := by
  have hUntil : ∀ inner : engine.Choice → Prop,
      Ensures inner (Since executionId σ.world P) (fun _ => Since executionId σ.world P)
        (untilCancelled (launch env (runner env fuel) fuel wf input executionId none)).run σ := by
    intro inner
    apply Ensures.lift
    apply ask_ensures (a := .notified)
    intro w drifts
    have waited : σ.world.Trail executionId w [] [] := .of_drifts drifts
    refine ⟨⟨[], [], waited, hNone⟩, ?_⟩
    rintro epoch τ hPerform x later
    cases hPerform
    have hLater := waited.trans (World.Trail.of_drifts later)
    refine ⟨⟨_, _, hLater, hNone⟩, race_since (fun _ => rfl) rfl ?_⟩
    refine (hLaunch (hLater.draws hDraws)).mono ?_ ?_
    · exact fun υ since => since.after hLater fun _ _ hP => hP
    · exact fun _ υ _ since => since.after hLater fun _ _ hP => hP
  unfold initialRun
  split
  · exact race_since (fun _ => rfl) rfl (hUntil _)
  · exact hUntil _

/-- A resumed execution leaves its course under its id. -/
theorem relaunch_since {state : ResumeState} (hDraws : σ.world.Draws (· ≠ executionId)) :
    Ensures allowed (Since executionId σ.world fun added _ => Course added)
      (fun _ => Since executionId σ.world fun added _ => Course added)
      (launch env (runner env fuel) fuel wf input executionId (some state)).run σ := by
  have hNone : Underway [] := fun _ hMem => nomatch hMem
  refine launch_leaves (Course.underway hNone) (fun startedAt τ hDraws => ?_) hDraws
  let ctx := executionContext env wf executionId input startedAt
  have since : Since ctx.executionId τ.world (Pending fun _ => True) τ :=
    ⟨[], [], .refl _, hNone, trivial⟩
  have hOther : τ.world.Draws (· ≠ ctx.executionId) := hDraws
  refine (resumedBody_since hOther since).mono ?_ ?_
  · exact fun υ since => since.mono fun _ _ hOn => hOn.1
  · exact fun _ υ since _ => since.mono fun _ _ hOn => hOn.1

/-- What a run that resumes an execution may leave under its id: nothing, or a course of
its own if the stored record was not terminal. -/
def Resumed (executionId : String) (v : World) (τ : EngineState) : Prop :=
  ∃ added events, v.Trail executionId τ.world added events ∧ Course added ∧
    (Solo executionId τ.world.journal → added = [] ∨
      ∃ record, v.store.load executionId = some record ∧ record.phase.isTerminal = false)

theorem Resumed.quiet (since : Since executionId v (fun added _ => added = []) σ) :
    Resumed executionId v σ := by
  obtain ⟨added, events, trail, rfl⟩ := since
  have hNone : Underway [] := fun _ hMem => nomatch hMem
  exact ⟨[], events, trail, Course.underway hNone, fun _ => Or.inl rfl⟩

/-- A run that gives up leaves nothing. -/
theorem throw_since {I : EngineState → Prop} {e : WorkflowError}
    (hQuiet : ∀ τ : EngineState, v.Trail executionId τ.world [] [] → I τ)
    (trail : v.Trail executionId σ.world [] []) :
    Ensures allowed I (fun _ => I)
      (Program.done (.error e) : Future (Except WorkflowError Value)) σ := by
  apply Ensures.done
  intro w drifts
  have hLater : v.Trail executionId w [] [] := by
    simpa using trail.trans (World.Trail.of_drifts drifts)
  exact ⟨hQuiet { σ with world := w } hLater, hQuiet { σ with world := w } hLater⟩

/-- A run that resumes an execution leaves nothing under the id, or a course of its own if the
stored record was not terminal. -/
theorem record_resumed {record : ExecutionRecord} (hDraws : v.Draws (· ≠ executionId))
    (trail : v.Trail executionId σ.world [] [])
    (hRecord : record.executionId = executionId → Solo executionId σ.world.journal →
      ∃ found, v.store.load executionId = some found ∧ found.phase.isTerminal = false) :
    Ensures allowed (Resumed executionId v) (fun _ => Resumed executionId v)
      (executeWith env (runner env fuel) fuel wf .null
        { executionId := some record.executionId, resume := some (resumeState record) }).run σ := by
  by_cases hId : record.executionId = executionId
  · subst hId
    have hResumed : ∀ τ : EngineState,
        Since record.executionId σ.world (fun added _ => Course added) τ →
          Resumed record.executionId v τ := by
      rintro τ ⟨added, events, hTrail, hCourse⟩
      refine ⟨added, events, by simpa using trail.trans hTrail, hCourse, fun solo => Or.inr ?_⟩
      obtain ⟨entries, hEntries⟩ := hTrail.journal
      rw [hEntries] at solo
      exact hRecord rfl solo.of_append
    have hLaunch : Ensures allowed (Since record.executionId σ.world fun added _ => Course added)
        (fun _ => Since record.executionId σ.world fun added _ => Course added)
        (launch env (runner env fuel) fuel wf .null record.executionId
          (some (resumeState record))).run σ := relaunch_since (trail.draws hDraws)
    exact hLaunch.mono hResumed fun _ τ _ since => hResumed τ since
  · have since : Since executionId v (fun added _ => added = []) σ := ⟨[], [], trail, rfl⟩
    have obeys : Obeys (worldLaw (· ≠ executionId) fun _ => False)
        ((worldLaw (· ≠ executionId) fun _ => False).may σ.shared)
        (executeWith env (runner env fuel) fuel wf .null
          { executionId := some record.executionId, resume := some (resumeState record) }) := by
      apply executeWith_obeys (worldLaw_nests env) (runner_obeys (worldLaw_nests env) fuel)
      · exact worldLaw_opens
      · rintro other hOther
        cases hOther
        exact worldLaw_nests env _ hId
    exact (quiet_since obeys.run hDraws since).mono (fun _ => .quiet) fun _ _ _ => .quiet

theorem drifts_workflows (drifts : Drifts allowed v w) :
    ∀ entry ∈ v.workflows, entry ∈ w.workflows := by
  induction drifts with
  | refl => exact fun _ hMem => hMem
  | tail _ last ih =>
      obtain ⟨e, _, rfl⟩ := last
      intro entry hMem
      cases e with
      | register workflow => exact List.mem_cons_of_mem _ (ih entry hMem)
      | _ => exact ih entry hMem

/-- A run that resumes an execution gives up, or it executes a registered workflow from
a record that is not terminal. -/
theorem resume_ensures {I : EngineState → Prop}
    (hQuiet : ∀ τ : EngineState, σ.world.Trail executionId τ.world [] [] → I τ)
    (hRecord : ∀ (record : ExecutionRecord) (wf : CompiledWorkflow) (τ : EngineState),
      σ.world.Trail executionId τ.world [] [] → record.phase.isTerminal = false →
      (Solo executionId τ.world.journal → σ.world.store.load executionId = some record) →
      (record.workflow, wf) ∈ τ.world.workflows →
        Ensures allowed I (fun _ => I) (executeWith env (runner env fuel) fuel wf .null
          { executionId := some record.executionId, resume := some (resumeState record) }).run τ) :
    Ensures allowed I (fun _ => I) (resume env fuel executionId).run σ := by
  unfold resume
  apply Ensures.bind
  apply ask_ensures (a := .load executionId)
  intro w drifts
  have waited : σ.world.Trail executionId w [] [] := .of_drifts drifts
  refine ⟨hQuiet { σ with world := w } waited, ?_⟩
  intro reply τ hPerform x later
  have hWorld : τ.world = w := by
    rw [perform] at hPerform
    split at hPerform <;> cases hPerform <;> rfl
  have hLater : σ.world.Trail executionId x [] [] := by
    rw [hWorld] at later
    simpa using waited.trans (World.Trail.of_drifts later)
  refine ⟨hQuiet { τ with world := x } hLater, ?_⟩
  rw [perform] at hPerform
  split at hPerform <;> cases hPerform
  · exact throw_since hQuiet hLater
  cases hFound : w.store.load executionId with
  | none => exact throw_since hQuiet hLater
  | some record =>
      by_cases hTerminal : record.phase.isTerminal = true
      · simp only [ExceptT.bindCont, hTerminal]
        exact throw_since hQuiet hLater
      simp only [ExceptT.bindCont, hTerminal]
      apply Ensures.lift
      apply ask_ensures (a := .findWorkflow record.workflow)
      intro y drifts'
      have hWaited : σ.world.Trail executionId y [] [] := by
        simpa using hLater.trans (World.Trail.of_drifts drifts')
      refine ⟨hQuiet { σ with world := y } hWaited, ?_⟩
      rintro found υ hPerform z later'
      cases hPerform
      have hLast : σ.world.Trail executionId z [] [] := by
        simpa using hWaited.trans (World.Trail.of_drifts later')
      refine ⟨hQuiet { σ with world := z } hLast, ?_⟩
      cases hRegistered : y.workflows.lookup record.workflow with
      | none => exact throw_since hQuiet hLast
      | some wf =>
          obtain ⟨before, after, hTable, _⟩ := List.lookup_eq_some_iff.mp hRegistered
          have hMem : (record.workflow, wf) ∈ y.workflows := by
            rw [hTable]
            exact List.mem_append_right _ List.mem_cons_self
          apply hRecord record wf _ hLast (by simpa using hTerminal)
          · intro solo
            have hRest : w.Trail executionId z [] [] := by
              simpa using (World.Trail.of_drifts later).trans
                ((World.Trail.of_drifts drifts').trans (World.Trail.of_drifts later'))
            obtain ⟨entries, hEntries⟩ := hRest.journal
            rw [show (({ σ with world := z } : EngineState).world.journal) =
              w.journal ++ entries from hEntries] at solo
            rw [← hFound]
            exact (waited.load solo.of_append).symm
          · exact drifts_workflows later' _ hMem

theorem resume_resumed (hDraws : σ.world.Draws (· ≠ executionId)) :
    Ensures allowed (Resumed executionId σ.world) (fun _ => Resumed executionId σ.world)
      (resume env fuel executionId).run σ := by
  apply resume_ensures
  · exact fun τ trail => .quiet ⟨[], [], trail, rfl⟩
  · intro record wf τ trail hRunning hLoad _
    exact record_resumed hDraws trail fun _ solo => ⟨record, hLoad solo, hRunning⟩

theorem Resumed.after (resumed : Resumed executionId w σ) (trail : v.Trail executionId w [] []) :
    Resumed executionId v σ := by
  obtain ⟨added, events, hTrail, hCourse, hSolo⟩ := resumed
  refine ⟨added, events, by simpa using trail.trans hTrail, hCourse, fun solo => ?_⟩
  refine (hSolo solo).imp id ?_
  rintro ⟨record, hLoad, hPhase⟩
  obtain ⟨entries, hEntries⟩ := hTrail.journal
  rw [hEntries] at solo
  rw [trail.load solo.of_append] at hLoad
  exact ⟨record, hLoad, hPhase⟩

/-- A run of a session waits until it is scheduled. -/
theorem scheduled_ensures {I : EngineState → Prop} {body : Run Value}
    (hWait : ∀ w, σ.world.Trail executionId w [] [] → I { σ with world := w })
    (hBody : ∀ w, σ.world.Trail executionId w [] [] →
      Ensures allowed I (fun _ => I) body.run { σ with world := w }) :
    Ensures allowed I (fun _ => I) (do
      ask .spawned
      body : Run Value).run σ := by
  apply Ensures.lift
  apply ask_ensures (a := .spawned)
  intro w drifts
  have waited : σ.world.Trail executionId w [] [] := .of_drifts drifts
  refine ⟨hWait w waited, ?_⟩
  rintro reply τ hPerform x later
  cases hPerform
  have hLater : σ.world.Trail executionId x [] [] := by
    simpa using waited.trans (World.Trail.of_drifts later)
  exact ⟨hWait x hLater, hBody x hLater⟩

theorem sessionRun_advance (index : Nat) :
    engine.advance (sessionRun env fuel wf input executionId index).run σ =
      ((sessionRun env fuel wf input executionId index).run, σ) := rfl

theorem sessionRun_since (hNone : P [] [])
    (hLaunch : ∀ {allowed : engine.Choice → Prop} {σ : EngineState},
      σ.world.Draws (· ≠ executionId) → Ensures allowed (Since executionId σ.world P)
        (fun _ => Since executionId σ.world P)
        (launch env (runner env fuel) fuel wf input executionId none).run σ)
    (hDraws : σ.world.Draws (· ≠ executionId)) :
    Ensures allowed (Since executionId σ.world P) (fun _ => Since executionId σ.world P)
      (sessionRun env fuel wf input executionId 0).run σ := by
  apply scheduled_ensures
  · exact fun w trail => ⟨[], [], trail, hNone⟩
  · intro w trail
    have hRun : Ensures allowed (Since executionId w P) (fun _ => Since executionId w P)
        (initialRun env fuel wf input executionId).run { σ with world := w } :=
      initialRun_since hNone hLaunch (trail.draws hDraws)
    refine hRun.mono ?_ ?_
    · exact fun τ since => since.after trail fun _ _ hP => hP
    · exact fun _ τ _ since => since.after trail fun _ _ hP => hP

theorem sessionRun_initial (hDraws : σ.world.Draws (· ≠ executionId)) :
    Ensures allowed (Since executionId σ.world fun added _ => Course added)
      (fun _ => Since executionId σ.world fun added _ => Course added)
      (sessionRun env fuel wf input executionId 0).run σ :=
  sessionRun_since (Course.underway fun _ hMem => nomatch hMem) launch_since hDraws

/-- A later run of a session leaves what resuming the execution leaves. -/
theorem sessionRun_later {I : World → EngineState → Prop} {index : Nat} (hIndex : index ≠ 0)
    (hQuiet : ∀ τ : EngineState, σ.world.Trail executionId τ.world [] [] → I σ.world τ)
    (hAfter : ∀ (w : World) (τ : EngineState), σ.world.Trail executionId w [] [] →
      I w τ → I σ.world τ)
    (hResume : ∀ τ : EngineState, τ.world.Draws (· ≠ executionId) →
      Ensures allowed (I τ.world) (fun _ => I τ.world) (resume env fuel executionId).run τ)
    (hDraws : σ.world.Draws (· ≠ executionId)) :
    Ensures allowed (I σ.world) (fun _ => I σ.world)
      (sessionRun env fuel wf input executionId index).run σ := by
  unfold sessionRun
  rw [if_neg hIndex]
  apply scheduled_ensures
  · exact fun w trail => hQuiet { σ with world := w } trail
  · intro w trail
    refine (hResume { σ with world := w } (trail.draws hDraws)).mono ?_ ?_
    · exact fun τ hI => hAfter w τ trail hI
    · exact fun _ τ _ hI => hAfter w τ trail hI

theorem sessionRun_resumed {index : Nat} (hIndex : index ≠ 0)
    (hDraws : σ.world.Draws (· ≠ executionId)) :
    Ensures allowed (Resumed executionId σ.world) (fun _ => Resumed executionId σ.world)
      (sessionRun env fuel wf input executionId index).run σ := by
  refine sessionRun_later hIndex ?_ ?_ (fun τ hDraws => resume_resumed hDraws) hDraws
  · exact fun τ trail => .quiet ⟨[], [], trail, rfl⟩
  · exact fun w τ trail resumed => resumed.after trail

end Runs

section Laws

variable {L : Law engine} {may : Act → Prop}

theorem initialRun_obeys (nests : Nests L env) (hMay : ∀ a : Act, a.Opens → may a)
    (hId : Admits L env executionId) : Obeys L may (initialRun env fuel wf input executionId) := by
  have hLaunch : Obeys L may (executeWith env (runner env fuel) fuel wf input
      { executionId := some executionId, resume := none }) := by
    apply executeWith_obeys nests (runner_obeys nests fuel) hMay
    rintro other hOther
    cases hOther
    exact hId
  have hCancel : Obeys L may
      (untilCancelled (launch env (runner env fuel) fuel wf input executionId none)) :=
    untilCancelled_obeys hMay hLaunch
  unfold initialRun
  split
  · exact withTimeout_obeys _ _ hCancel
  · exact hCancel

theorem sessionRun_obeys (nests : Nests L env) (hMay : ∀ a : Act, a.Opens → may a)
    (hId : ∀ executionId, Admits L env executionId) (index : Nat) :
    Obeys L may (sessionRun env fuel wf input executionId index) := by
  apply Obeys.seq (do_obeys (hMay .spawned trivial))
  intro _
  split
  · exact initialRun_obeys nests hMay (hId executionId)
  · exact resume_obeys nests hMay fuel fun record _ => hId record.executionId

/-- What a run of a session does to the world, whatever it is. -/
theorem sessionRun_moves {index : Nat} {d : Config engineSig (Except WorkflowError Value)}
    (follows : Follows allowed ((sessionRun env fuel wf input executionId index).run, σ) d) :
    σ.world.Moves (fun _ => True) (fun _ => True) d.2.world := by
  have nests : Nests (worldLaw (fun _ => True) fun _ => True) env := worldLaw_nests env
  have hMay : ∀ a : Act, a.Opens → (worldLaw (fun _ => True) fun _ => True).may σ.shared a :=
    worldLaw_opens
  have obeys : Obeys (worldLaw (fun _ => True) fun _ => True)
      ((worldLaw (fun _ => True) fun _ => True).may σ.shared)
      (sessionRun env fuel wf input executionId index) :=
    sessionRun_obeys nests hMay (fun executionId => nests executionId trivial) index
  have hDraws : σ.world.Draws fun _ => True := fun _ _ => trivial
  exact (obeys.run.reaches (worldLaw_fit hDraws) follows.reaches).2.1

end Laws

end OwsRuntime
