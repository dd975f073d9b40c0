import OwsRuntime.Engine.Sessions
import OwsRuntime.Engine.Runs

/-! The end of an execution is final. The phase of a stored record is checked once, when
its execution is resumed, and the operations after that check nothing. -/
namespace OwsRuntime

open Async Law
open Async.Handler (Ensures Drifts Serial Follows)

def terminalEventTypes : List String :=
  ["workflow.completed", "workflow.cancelled", "workflow.faulted"]

/-- The terminal events in the event log of an execution. -/
def terminalEvents (executionId : String) (events : List StoredEvent) : List StoredEvent :=
  events.filter fun event =>
    event.executionId = executionId ∧ event.eventType ∈ terminalEventTypes

/-- Once the stored record of an execution has a terminal phase, no later operation of the
store changes the phase, and there is at most one terminal event in its log. -/
structure TerminalFinal (executionId : String) (v w : World) : Prop where
  phase : ∀ before entry after, w.journal = v.journal ++ (before ++ entry :: after) →
    ∀ record, (replay before v.store).load executionId = some record →
      record.phase.isTerminal = true →
        ((replay (before ++ [entry]) v.store).load executionId).map (·.phase) = some record.phase
  events : (terminalEvents executionId w.store.events).length ≤ 1

/-- No execution has used the id. -/
structure World.Unseen (executionId : String) (v : World) : Prop where
  record : v.store.load executionId = none
  events : ∀ event ∈ v.store.events, event.executionId ≠ executionId

section Stores

variable {executionId : String} {store : ExecutionStore} {entries : List StoreEntry}
  {ops : List StoreOp}

def StoreOp.event? : StoreOp → Option StoredEvent
  | append event => some event
  | _ => none

theorem StoreOp.events_apply (op : StoreOp) (store : ExecutionStore) :
    (op.apply store).events = store.events ++ op.event?.toList := by
  cases op with
  | append event => rfl
  | _ => simp [apply, event?, ExecutionStore.insert]

theorem terminalEvents_append (first second : List StoredEvent) :
    terminalEvents executionId (first ++ second) =
      terminalEvents executionId first ++ terminalEvents executionId second := by
  simp [terminalEvents]

/-- The terminal events under one id after a journal are those that were stored before and those in
the operations of the journal, in their order. -/
theorem terminalEvents_replay (solo : Solo executionId entries) :
    terminalEvents executionId (replay entries store).events =
      terminalEvents executionId store.events ++
        terminalEvents executionId ((ownOps executionId entries).filterMap StoreOp.event?) := by
  induction entries generalizing store with
  | nil => simp [ownOps, terminalEvents]
  | cons entry rest ih =>
      have hRest : Solo executionId rest := fun other hMem => solo other (List.mem_cons_of_mem _ hMem)
      have hHead : terminalEvents executionId
            (if entry.accepted then entry.op.apply store else store).events =
          terminalEvents executionId store.events ++
            terminalEvents executionId ((ownOps executionId [entry]).filterMap StoreOp.event?) := by
        by_cases hId : entry.op.executionId = executionId
        · obtain ⟨hForeign, hAccepted⟩ := solo entry List.mem_cons_self hId
          have hOwn : ownOps executionId [entry] = [entry.op] := by
            simp [ownOps, StoreEntry.own, hForeign, hId]
          rw [if_pos hAccepted, StoreOp.events_apply, terminalEvents_append, hOwn]
          cases hEvent : entry.op.event? <;> simp [hEvent]
        · have hOwn : ownOps executionId [entry] = [] := by simp [ownOps, StoreEntry.own, hId]
          have hNone : terminalEvents executionId entry.op.event?.toList = [] := by
            cases hOp : entry.op with
            | append event =>
                rw [hOp] at hId
                simp [StoreOp.event?, terminalEvents, show event.executionId ≠ executionId from hId]
            | _ => rfl
          rw [hOwn]
          split
          · rw [StoreOp.events_apply, terminalEvents_append, hNone]
            rfl
          · simp [terminalEvents]
      rw [replay_cons, ih hRest, hHead, List.append_assoc, ← terminalEvents_append,
        ← List.filterMap_append, ← ownOps_append, List.singleton_append]

/-- What is stored before the end is not terminal. -/
theorem Underway.latest {record : ExecutionRecord} (hOps : Underway ops)
    (hLatest : latest ops = some record) : record.phase.isTerminal = false := by
  obtain ⟨op, hMem, hRecord⟩ := List.mem_filterMap.mp (List.mem_of_getLast? hLatest)
  have hUnfinished := hOps op hMem
  cases op <;> cases hRecord <;> rw [hUnfinished] <;> rfl

theorem Underway.terminalEvents (hOps : Underway ops) :
    terminalEvents executionId (ops.filterMap StoreOp.event?) = [] := by
  rw [OwsRuntime.terminalEvents, List.filter_eq_nil_iff]
  intro event hMem
  obtain ⟨op, hOp, hEvent⟩ := List.mem_filterMap.mp hMem
  have hUnfinished := hOps op hOp
  cases op with
  | append other =>
      cases hEvent
      have hType : event.eventType = "workflow.started" := hUnfinished
      simp [hType, terminalEventTypes]
  | _ => cases hEvent

/-- A start of some deeds that are not all progress goes beyond the progress. -/
theorem Underway.beyond {first rest tail : List StoreOp} {op : StoreOp} (hOps : Underway ops)
    (hSame : first ++ op :: rest = ops ++ tail) (hFirst : ¬ Underway first) :
    ∃ last more, tail = last :: more ++ op :: rest := by
  rcases List.append_eq_append_iff.mp hSame with ⟨more, hOps', _⟩ | ⟨more, hFirst', hTail⟩
  · rw [hOps'] at hOps
    exact absurd (fun other hMem => hOps other (List.mem_append_left _ hMem)) hFirst
  · cases more with
    | nil =>
        rw [List.append_nil] at hFirst'
        exact absurd (hFirst' ▸ hOps) hFirst
    | cons last more => exact ⟨last, more, hTail⟩

/-- While the stored record is not terminal, only progress has been stored. -/
theorem Course.underway_of_latest {record : ExecutionRecord} (course : Course ops)
    (hLatest : latest ops = some record) (hRunning : record.phase.isTerminal = false) :
    Underway ops := by
  cases course with
  | underway hOps => exact hOps
  | closed _ hTerminal =>
      rw [latest_append] at hLatest
      cases hLatest
      cases hRunning.symm.trans hTerminal
  | reported _ hTerminal _ =>
      rw [latest_append] at hLatest
      cases hLatest
      cases hRunning.symm.trans hTerminal

/-- After a terminal record, an execution stores at most its terminal event, and no further record.
-/
theorem Course.record?_of_terminal {first rest : List StoreOp} {op : StoreOp}
    {record : ExecutionRecord} (course : Course ops) (hOps : ops = first ++ op :: rest)
    (hLatest : latest first = some record) (hTerminal : record.phase.isTerminal = true) :
    op.record? = none := by
  have hFirst : ¬ Underway first := by
    intro hFirst
    rw [hFirst.latest hLatest] at hTerminal
    cases hTerminal
  cases course with
  | underway hAll =>
      rw [hOps] at hAll
      exact absurd (fun other hMem => hAll other (List.mem_append_left _ hMem)) hFirst
  | closed hBefore _ =>
      obtain ⟨last, more, hTail⟩ := hBefore.beyond hOps.symm hFirst
      have hLength := congrArg List.length hTail
      simp at hLength
  | reported hBefore _ _ =>
      obtain ⟨last, more, hTail⟩ := hBefore.beyond hOps.symm hFirst
      cases more with
      | nil =>
          cases hTail
          rfl
      | cons other more =>
          have hLength := congrArg List.length hTail
          simp at hLength

theorem Course.terminalEvents_le (course : Course ops) :
    (terminalEvents executionId (ops.filterMap StoreOp.event?)).length ≤ 1 := by
  cases course with
  | underway hOps => simp [hOps.terminalEvents]
  | closed hOps _ =>
      rw [List.filterMap_append, terminalEvents_append, hOps.terminalEvents]
      exact Nat.zero_le 1
  | reported hOps _ _ =>
      rw [List.filterMap_append, terminalEvents_append, hOps.terminalEvents, List.nil_append]
      exact List.length_filter_le _ _

end Stores

section Runs

variable {env : RuntimeInner} {fuel resumes : Nat} {wf : CompiledWorkflow} {input : Value}
  {executionId : String} {v w : World} {begun : Set Nat}

/-- A run that resumes an execution has a cancellation token of its own. -/
def World.Renews (v w : World) : Prop := ∃ cancelled, w = { v with cancelled }

theorem World.Renews.trail {x : World} (renews : w.Renews x) : w.Trail executionId x [] [] := by
  obtain ⟨cancelled, rfl⟩ := renews
  exact ⟨id, ⟨[], by simp⟩, by simp, by simp, fun _ => rfl⟩

theorem World.Trail.of_disturb (e : Disturbance) : w.Trail executionId (disturb e w) [] [] := by
  have drifts : @Drifts engineSig engine (fun _ => True) w (disturb e w) :=
    Relation.ReflTransGen.single ⟨e, trivial, rfl⟩
  exact .of_drifts drifts

/-- What the runs of a session leave behind when they do not overlap. -/
structure InOrder (executionId : String) (v : World) (begun : Set Nat) (w : World) : Prop where
  draws : w.Draws (· ≠ executionId)
  moves : v.Moves (fun _ => True) (fun _ => True) w
  course : ∃ ops events, v.Trail executionId w ops events ∧
    (Solo executionId w.journal → Course ops ∧ (0 ∉ begun → ops = []))

theorem InOrder.start (hDraws : v.Draws (· ≠ executionId)) : InOrder executionId v ∅ v := by
  have hNone : Underway [] := fun _ hMem => nomatch hMem
  exact ⟨hDraws, .refl v, [], [], .refl v, fun _ => ⟨Course.underway hNone, fun _ => rfl⟩⟩

/-- Nothing is left while no run takes a turn. -/
theorem InOrder.quiet {x : World} (order : InOrder executionId v begun w)
    (trail : w.Trail executionId x [] []) (moves : w.Moves (fun _ => True) (fun _ => True) x) :
    InOrder executionId v begun x := by
  obtain ⟨ops, events, hTrail, hOps⟩ := order.course
  refine ⟨trail.draws order.draws, order.moves.trans moves, ops, events, ?_, fun solo => hOps ?_⟩
  · simpa using hTrail.trans trail
  · obtain ⟨entries, hEntries⟩ := trail.journal
    rw [hEntries] at solo
    exact solo.of_append

theorem InOrder.disturb (order : InOrder executionId v begun w) (e : Disturbance) :
    InOrder executionId v begun (disturb e w) := order.quiet (.of_disturb e) (.of_disturb e)

theorem InOrder.renew {x : World} (order : InOrder executionId v begun w) (renews : w.Renews x) :
    InOrder executionId v begun x := by
  have trail : w.Trail executionId x [] [] := renews.trail
  obtain ⟨cancelled, rfl⟩ := renews
  exact order.quiet trail (.of_eq rfl le_rfl rfl rfl rfl)

/-- What is left under the id when the store has kept a course. -/
theorem InOrder.solo {x : World} {ops added : List StoreOp}
    {events others : List (Option String × EventMessage)} (order : InOrder executionId v begun w)
    (trail : v.Trail executionId w ops events)
    (later : w.Trail executionId x added others) (moves : w.Moves (fun _ => True) (fun _ => True) x)
    {more : Set Nat}
    (hCourse : Solo executionId w.journal → Solo executionId x.journal →
      Course (ops ++ added) ∧ (0 ∉ more → ops ++ added = [])) :
    InOrder executionId v more x := by
  refine ⟨later.draws order.draws, order.moves.trans moves, _, _, trail.trans later, ?_⟩
  intro solo
  apply hCourse ?_ solo
  obtain ⟨entries, hEntries⟩ := later.journal
  rw [hEntries] at solo
  exact solo.of_append

/-- What a run does keeps the order, when no other one is under way. -/
theorem InOrder.run (unseen : v.Unseen executionId) {index : Nat} {σ : EngineState}
    {d : Config engineSig (Except WorkflowError Value)} (hNew : index ∉ begun)
    (order : InOrder executionId v begun σ.world)
    (follows : @Follows engineSig _ engine (fun _ => True)
      ((sessionRun env fuel wf input executionId index).run, σ) d) :
    InOrder executionId v (insert index begun) d.2.world := by
  have moves := sessionRun_moves follows
  rw [← sessionRun_advance] at follows
  obtain ⟨ops, events, trail, hOps⟩ := order.course
  by_cases hIndex : index = 0
  · subst hIndex
    obtain ⟨added, others, later, hCourse⟩ := (sessionRun_initial order.draws d follows).1
    apply order.solo trail later moves
    intro solo _
    rw [(hOps solo).2 hNew, List.nil_append]
    exact ⟨hCourse, fun hNone => absurd (Set.mem_insert 0 begun) hNone⟩
  · obtain ⟨added, others, later, hCourse, hResumed⟩ :=
      (sessionRun_resumed hIndex order.draws d follows).1
    apply order.solo trail later moves
    intro solo hSolo
    obtain ⟨hBefore, hInitial⟩ := hOps solo
    have hAll : 0 ∉ insert index begun → ops = [] :=
      fun hNone => hInitial fun hMem => hNone (Set.mem_insert_of_mem _ hMem)
    rcases hResumed hSolo with rfl | ⟨record, hLoad, hRunning⟩
    · rw [List.append_nil]
      exact ⟨hBefore, hAll⟩
    · have hLatest : latest ops = some record := by
        rw [trail.load solo, unseen.record, Option.or_none] at hLoad
        exact hLoad
      refine ⟨Course.prepend (hBefore.underway_of_latest hLatest hRunning) hCourse, fun hNone => ?_⟩
      rw [hAll hNone] at hLatest
      cases hLatest

/-- In a run of a session whose runs do not overlap, what is left under the id is in order. -/
theorem session_inOrder (unseen : v.Unseen executionId) (hDraws : v.Draws (· ≠ executionId))
    {d : Config engineSig (List (Fin (resumes + 1) × Option (Except WorkflowError Value)))}
    (serial : @Serial engineSig _ engine World.Renews
      (session env fuel wf input executionId resumes, idle wf v) begun d) :
    InOrder executionId v begun d.2.world := by
  apply Serial.keeps (J := InOrder executionId v) serial
  · exact .start hDraws
  · exact fun begun w e order => order.disturb e
  · exact fun begun w x order renews => order.renew renews
  · intro begun i σ c hNew order _ follows
    exact order.run unseen hNew follows

/-- What is in order under the id is final once it is terminal, if nobody else operates on the
record: no operation changes the phase of a terminal record, and there is one terminal event at
most. -/
theorem InOrder.terminalFinal (unseen : v.Unseen executionId)
    (order : InOrder executionId v begun w) (solo : Solo executionId w.journal) :
    TerminalFinal executionId v w := by
  obtain ⟨ops, events, trail, hOps⟩ := order.course
  obtain ⟨hCourse, _⟩ := hOps solo
  obtain ⟨entries, hEntries, hStore, _⟩ := order.moves.stored
  have hOwn : ownOps executionId entries = ops := by
    have hAll := trail.ops
    rw [hEntries, ownOps_append] at hAll
    exact List.append_cancel_left hAll
  have hSolo : Solo executionId entries := by
    intro entry hMem
    apply solo entry
    rw [hEntries]
    exact List.mem_append_right _ hMem
  constructor
  · intro before entry after hJournal record hRecord hTerminal
    rw [hEntries] at hJournal
    obtain rfl := List.append_cancel_left hJournal
    have hBefore : Solo executionId before := hSolo.of_append
    have hLatest : latest (ownOps executionId before) = some record := by
      rw [load_replay_solo hBefore, unseen.record, Option.or_none] at hRecord
      exact hRecord
    have hSame : (replay [entry] (replay before v.store)).load executionId =
        (replay before v.store).load executionId := by
      apply load_replay
      intro other hOther next hNext hId
      obtain rfl := List.mem_singleton.mp hOther
      have hOp : other.op.executionId = executionId := (StoreOp.record?_executionId hNext).trans hId
      have hForeign : other.foreign = false := (hSolo other (by simp) hOp).1
      have hSplit : ops = ownOps executionId before ++ other.op :: ownOps executionId after := by
        rw [← hOwn, ownOps_append, ← List.singleton_append, ownOps_append]
        simp [ownOps, StoreEntry.own, hForeign, hOp]
      rw [hCourse.record?_of_terminal hSplit hLatest hTerminal] at hNext
      cases hNext
    rw [replay_append, hSame, hRecord]
    rfl
  · rw [hStore, terminalEvents_replay hSolo, hOwn]
    have hNone : terminalEvents executionId v.store.events = [] := by
      simp [terminalEvents, List.filter_eq_nil_iff]
      exact fun event hMem hId => absurd hId (unseen.events event hMem)
    rw [hNone, List.nil_append]
    exact hCourse.terminalEvents_le

/-- The world once an execution has drawn its id. -/
def World.drawn (v : World) : World := { v with uuids := v.uuids + 1 }

/-- The runs of one execution keep its end final, in every interleaving in which no run
takes a turn between two turns of another one, the store refuses none of their operations
and nobody else operates on the record. -/
theorem session_terminalFinal (hInjective : Function.Injective v.uuid)
    (unseen : v.Unseen (v.uuid v.uuids))
    {d : Config engineSig (List (Fin (resumes + 1) × Option (Except WorkflowError Value)))}
    (serial : @Serial engineSig _ engine World.Renews
      (session env fuel wf input (v.uuid v.uuids) resumes, idle wf v.drawn) begun d)
    (solo : Solo (v.uuid v.uuids) d.2.world.journal) :
    TerminalFinal (v.uuid v.uuids) v.drawn d.2.world := by
  have hUnseen : v.drawn.Unseen (v.uuid v.uuids) := ⟨unseen.record, unseen.events⟩
  exact (session_inOrder hUnseen (draws_after hInjective) serial).terminalFinal hUnseen solo

end Runs

namespace Sample

/-- A world in which a workflow is registered. -/
def registered (wf : CompiledWorkflow) : World := { fresh with workflows := [(wf.id.key, wf)] }

/-- A workflow with a single task that does nothing. -/
def single : CompiledWorkflow := workflow [task "t" none (.set (.map []))] []

/-- An execution which is resumed once. -/
def resumedOnce : Config engineSig (List (Fin 2 × Option (Except WorkflowError Value))) :=
  (session runtime 8 single .null (uuid 0) 1, idle single (registered single).drawn)

/-- A choice within the execution of the initial run, and of the other one. -/
def inInitial : engine.Choice := .turn (.branch 0 (.inner (.inner .here)))

def inResumed : engine.Choice := .turn (.branch 1 (.inner .here))

theorem registered_unseen (wf : CompiledWorkflow) :
    (registered wf).Unseen ((registered wf).uuid (registered wf).uuids) := by
  refine ⟨rfl, fun event hMem => ?_⟩
  cases hMem

/-- The operations on a record, when they are all its own. -/
def alone (journal : List StoreEntry) : Bool :=
  journal.all fun entry => !entry.foreign && entry.accepted

theorem solo_of_alone {executionId : String} {journal : List StoreEntry}
    (hAlone : alone journal = true) : Solo executionId journal := by
  intro entry hMem _
  have hEntry := List.all_eq_true.mp hAlone entry hMem
  simpa using hEntry

end Sample

/-- The initial run by itself completes, and its end is final. -/
theorem terminalFinal_single :
    ∃ begun d, @Serial engineSig _ engine World.Renews Sample.resumedOnce begun d ∧
      (terminalEvents (Sample.uuid 0) d.2.world.store.events).length = 1 ∧
      TerminalFinal (Sample.uuid 0) (Sample.registered Sample.single).drawn d.2.world := by
  have hRun : (engine.run Sample.resumedOnce
      ((Move.here :: List.replicate 15 (.inner (.inner .here))).map fun move =>
        .turn (.branch 0 move))).map (fun d => (Sample.alone d.2.world.journal,
          (terminalEvents (Sample.uuid 0) d.2.world.store.events).length)) = some (true, 1) := by
    decide +kernel
  obtain ⟨d, hReached, hResult⟩ := Option.map_eq_some_iff.mp hRun
  obtain ⟨hAlone, hEvents⟩ := Prod.mk.inj hResult
  obtain ⟨begun, _, serial⟩ := Serial.of_alone hReached
  refine ⟨begun, d, serial, hEvents, ?_⟩
  exact session_terminalFinal Sample.uuid_injective (Sample.registered_unseen _) serial
    (Sample.solo_of_alone hAlone)

/-- A run is resumed while it is under way. It completes, and the other run sets its phase
back to `Running` and completes it again. -/
theorem resumed_not_terminalFinal :
    ∃ d, engine.Reaches Sample.resumedOnce d ∧ Solo (Sample.uuid 0) d.2.world.journal ∧
      ¬ TerminalFinal (Sample.uuid 0) (Sample.registered Sample.single).drawn d.2.world := by
  have hRun : (engine.run Sample.resumedOnce (.turn (.branch 0 .here) ::
      List.replicate 4 Sample.inInitial ++ [.turn (.branch 1 .here), .turn (.branch 1 .here)] ++
      List.replicate 11 Sample.inInitial ++ List.replicate 12 Sample.inResumed)).map
        (fun d => (Sample.alone d.2.world.journal,
          (terminalEvents (Sample.uuid 0) d.2.world.store.events).length)) = some (true, 2) := by
    decide +kernel
  obtain ⟨d, hReached, hResult⟩ := Option.map_eq_some_iff.mp hRun
  obtain ⟨hAlone, hEvents⟩ := Prod.mk.inj hResult
  refine ⟨d, ⟨_, hReached⟩, Sample.solo_of_alone hAlone, fun final => ?_⟩
  have hOnce := final.events
  omega

end OwsRuntime
