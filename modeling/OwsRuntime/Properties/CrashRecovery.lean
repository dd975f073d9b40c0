import OwsRuntime.Engine.Restarts
import OwsRuntime.Properties.TerminalFinal

/-! Recovery from crashes. Whenever the runs of an execution are cut off, the store holds a
checkpoint with which a later run goes on. -/
namespace OwsRuntime

open Async
open Async.Handler (Serial Follows)

/-- What an execution has stored is a log of its workflow. When the stored record is not
terminal, it is a checkpoint of the workflow before a task which the flow reaches from the
first one, and it is read back as it was written. -/
structure Recoverable (wf : CompiledWorkflow) (executionId : String) (v w : World) : Prop where
  log : ∃ entries stage, w.journal = v.journal ++ entries ∧
    Log wf executionId .absent (ownOps executionId entries) stage
  checkpoint : ∀ record, w.store.load executionId = some record →
    record.phase.isTerminal = false →
      (∃ startedAt, record = checkpointRecord wf executionId (resumeState record).nextIndex
        (resumeState record).context (resumeState record).input startedAt) ∧
      Leads wf.tasks 0 (resumeState record).nextIndex

variable {env : RuntimeInner} {fuel resumes : Nat} {wf : CompiledWorkflow} {input : Value}
  {executionId : String} {v w x : World} {begun : Set Nat}

/-- What the runs of a session store when they do not overlap: a log, as long as the
execution is left to the runtime. -/
structure OnRecord (wf : CompiledWorkflow) (executionId : String) (v : World) (begun : Set Nat)
    (w : World) : Prop where
  draws : w.Draws (· ≠ executionId)
  log : ∃ ops events, v.Trail executionId w ops events ∧ (w.LeftTo wf executionId →
    ∃ stage, Log wf executionId .absent ops stage ∧ (0 ∉ begun → stage = .absent))

theorem OnRecord.start (hDraws : v.Draws (· ≠ executionId)) : OnRecord wf executionId v ∅ v :=
  ⟨hDraws, [], [], .refl v, fun _ => ⟨.absent, .nil, fun _ => rfl⟩⟩

/-- Nothing is stored while no run takes a turn. -/
theorem OnRecord.quiet (onRecord : OnRecord wf executionId v begun w)
    (trail : w.Trail executionId x [] [])
    (hLeft : x.LeftTo wf executionId → w.LeftTo wf executionId) :
    OnRecord wf executionId v begun x := by
  obtain ⟨ops, events, hTrail, hLog⟩ := onRecord.log
  refine ⟨trail.draws onRecord.draws, ops, events, ?_, hLog ∘ hLeft⟩
  simpa using hTrail.trans trail

theorem OnRecord.disturb (onRecord : OnRecord wf executionId v begun w) (e : Disturbance) :
    OnRecord wf executionId v begun (disturb e w) := by
  apply onRecord.quiet (.of_disturb e)
  intro left
  by_contra hTaken
  exact (leftTo_lasting wf executionId).disturb e hTaken left

theorem OnRecord.renew (onRecord : OnRecord wf executionId v begun w) (renews : w.Renews x) :
    OnRecord wf executionId v begun x := by
  apply onRecord.quiet renews.trail
  obtain ⟨cancelled, rfl⟩ := renews
  exact fun left => ⟨left.solo, left.registers⟩

/-- A run goes on with the log, when no other one is under way. -/
theorem OnRecord.run (unseen : v.Unseen executionId) (hLength : wf.tasks.length < 2 ^ 64)
    {index : Nat} {σ : EngineState} {d : Config engineSig (Except WorkflowError Value)}
    (hNew : index ∉ begun) (onRecord : OnRecord wf executionId v begun σ.world)
    (follows : @Follows engineSig _ engine (fun _ => True)
      ((sessionRun env fuel wf input executionId index).run, σ) d) :
    OnRecord wf executionId v (insert index begun) d.2.world := by
  have hEarlier : d.2.world.LeftTo wf executionId → σ.world.LeftTo wf executionId := by
    intro left
    by_contra hTaken
    exact (leftTo_lasting wf executionId).follows follows hTaken left
  rw [← sessionRun_advance] at follows
  obtain ⟨ops, events, trail, hLog⟩ := onRecord.log
  by_cases hIndex : index = 0
  · subst hIndex
    obtain ⟨added, others, later, stage, log, _⟩ :=
      (sessionRun_since (Charted.refl trivial) launch_charted onRecord.draws d follows).1
    refine ⟨later.draws onRecord.draws, _, _, trail.trans later, fun left => ?_⟩
    obtain ⟨before, hBefore, hInitial⟩ := hLog (hEarlier left)
    obtain rfl := hInitial hNew
    exact ⟨stage, hBefore.append log, fun hNone => absurd (Set.mem_insert 0 begun) hNone⟩
  by_cases hLeft : σ.world.LeftTo wf executionId
  · obtain ⟨before, hBefore, hInitial⟩ := hLog hLeft
    have hBound : ∀ next, before.index? = some next → next < 2 ^ 64 :=
      fun next hNext => (hBefore.leads hNext).le.trans_lt hLength
    have hStage : AtStage wf executionId before (σ.world.store.load executionId) := by
      rw [trail.load hLeft.solo, unseen.record, Option.or_none]
      exact hBefore.atStage
    obtain ⟨added, others, later, hContinued⟩ :=
      (sessionRun_continued hIndex hBound onRecord.draws d follows).1
    refine ⟨later.draws onRecord.draws, _, _, trail.trans later, fun left => ?_⟩
    obtain ⟨stage, log, hSame⟩ := hContinued left hStage
    refine ⟨stage, hBefore.append log, fun hNone => ?_⟩
    obtain rfl := hInitial fun hMem => hNone (Set.mem_insert_of_mem _ hMem)
    exact hSame rfl
  · obtain ⟨added, others, later, _⟩ := (sessionRun_resumed hIndex onRecord.draws d follows).1
    exact ⟨later.draws onRecord.draws, _, _, trail.trans later,
      fun left => absurd (hEarlier left) hLeft⟩

/-- In a run of a session whose runs do not overlap, what is stored under the id is a log. -/
theorem session_onRecord (unseen : v.Unseen executionId) (hLength : wf.tasks.length < 2 ^ 64)
    (hDraws : v.Draws (· ≠ executionId))
    {d : Config engineSig (List (Fin (resumes + 1) × Option (Except WorkflowError Value)))}
    (serial : @Serial engineSig _ engine World.Renews
      (session env fuel wf input executionId resumes, idle wf v) begun d) :
    OnRecord wf executionId v begun d.2.world := by
  apply Serial.keeps (J := OnRecord wf executionId v) serial
  · exact .start hDraws
  · exact fun begun w e onRecord => onRecord.disturb e
  · exact fun begun w x onRecord renews => onRecord.renew renews
  · intro begun i σ c hNew onRecord _ follows
    exact onRecord.run unseen hLength hNew follows

/-- An execution whose progress is on record can be recovered after a crash: what it has stored is a
log of its workflow, and a record that is not terminal names a task which the flow reaches from the
first one. -/
theorem OnRecord.recoverable (unseen : v.Unseen executionId) (hLength : wf.tasks.length < 2 ^ 64)
    (onRecord : OnRecord wf executionId v begun w) (left : w.LeftTo wf executionId) :
    Recoverable wf executionId v w := by
  obtain ⟨ops, events, trail, hLog⟩ := onRecord.log
  obtain ⟨stage, log, _⟩ := hLog left
  constructor
  · obtain ⟨entries, hEntries⟩ := trail.journal
    have hOwn : ownOps executionId entries = ops := by
      have hAll := trail.ops
      rw [hEntries, ownOps_append] at hAll
      exact List.append_cancel_left hAll
    exact ⟨entries, stage, hEntries, by rwa [hOwn]⟩
  · intro record hLoad hRunning
    have hStage := log.atStage
    rw [trail.load left.solo, unseen.record, Option.or_none] at hLoad
    rw [hLoad] at hStage
    cases hStage with
    | terminal _ hTerminal => cases hRunning.symm.trans hTerminal
    | @checkpoint _ index context savedInput startedAt hIndex =>
        have leads := log.leads hIndex
        have hState : resumeState (checkpointRecord wf executionId index context savedInput
            startedAt) = { nextIndex := index, input := savedInput, context } :=
          resumeState_checkpoint (leads.le.trans_lt hLength) context savedInput startedAt
        rw [hState]
        exact ⟨⟨startedAt, rfl⟩, leads⟩

/-- An execution is recoverable at every moment of every session in which no run takes a
turn between two turns of another one, wherever its runs are cut off. -/
theorem session_recoverable (hInjective : Function.Injective v.uuid)
    (unseen : v.Unseen (v.uuid v.uuids)) (hLength : wf.tasks.length < 2 ^ 64)
    {d : Config engineSig (List (Fin (resumes + 1) × Option (Except WorkflowError Value)))}
    (serial : @Serial engineSig _ engine World.Renews
      (session env fuel wf input (v.uuid v.uuids) resumes, idle wf v.drawn) begun d)
    (left : d.2.world.LeftTo wf (v.uuid v.uuids)) :
    Recoverable wf (v.uuid v.uuids) v.drawn d.2.world := by
  have hUnseen : v.drawn.Unseen (v.uuid v.uuids) := ⟨unseen.record, unseen.events⟩
  exact (session_onRecord hUnseen hLength (draws_after hInjective) serial).recoverable hUnseen
    hLength left

/-- A run that is dropped after its first task, and what the store holds then. -/
theorem recoverable_single :
    ∃ begun d record, @Serial engineSig _ engine World.Renews Sample.resumedOnce begun d ∧
      d.2.world.store.load (Sample.uuid 0) = some record ∧ record.phase.isTerminal = false ∧
      (resumeState record).nextIndex = 1 ∧
      Recoverable Sample.single (Sample.uuid 0) (Sample.registered Sample.single).drawn d.2.world := by
  have hRun : (engine.run Sample.resumedOnce
      ((Move.here :: List.replicate 12 (.inner (.inner .here))).map fun move =>
        .turn (.branch 0 move))).map (fun d => (Sample.alone d.2.world.journal,
          d.2.world.workflows.length, (d.2.world.store.load (Sample.uuid 0)).map fun record =>
            (record.phase.isTerminal, (resumeState record).nextIndex))) =
      some (true, 1, some (false, 1)) := by
    decide +kernel
  obtain ⟨d, hReached, hResult⟩ := Option.map_eq_some_iff.mp hRun
  obtain ⟨hAlone, hRest⟩ := Prod.mk.inj hResult
  obtain ⟨hLength, hLoad⟩ := Prod.mk.inj hRest
  obtain ⟨record, hRecord, hState⟩ := Option.map_eq_some_iff.mp hLoad
  obtain ⟨hPhase, hNext⟩ := Prod.mk.inj hState
  obtain ⟨begun, _, serial⟩ := Serial.of_alone hReached
  refine ⟨begun, d, record, serial, hRecord, hPhase, hNext, ?_⟩
  have hRegisters : d.2.world.Registers Sample.single := by
    have lasting := listed_lasting (Sample.single.id.key, Sample.single)
    have follows : @Follows engineSig _ engine (fun _ => True) Sample.resumedOnce d :=
      ⟨_, fun _ _ => trivial, hReached⟩
    have hMem : (Sample.single.id.key, Sample.single) ∈ d.2.world.workflows :=
      lasting.follows follows List.mem_cons_self
    obtain ⟨entry, hOnly⟩ := List.length_eq_one_iff.mp hLength
    rw [hOnly] at hMem
    intro other hOther _
    rw [hOnly, List.mem_singleton] at hOther
    rw [hOther, ← List.mem_singleton.mp hMem]
  exact session_recoverable Sample.uuid_injective (Sample.registered_unseen _) (by decide) serial
    ⟨Sample.solo_of_alone hAlone, hRegisters⟩

end OwsRuntime
