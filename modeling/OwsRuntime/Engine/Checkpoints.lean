import OwsRuntime.Engine.Directives
import OwsRuntime.Engine.Sessions
import OwsRuntime.Graph.Walks

/-! The log which an execution leaves in the store: its first record, its checkpoints and
its end, and where in its workflow they stand. -/
namespace OwsRuntime

open Async Law Graph
open Async.Handler (Ensures)

theorem Successor.le {tasks : List CompiledTask} {index next : Nat}
    (successor : Successor tasks index next) : next ≤ tasks.length := by
  obtain ⟨task, hTask, directive, _, hTarget⟩ := successor
  cases directive with
  | continue_ =>
      cases hTarget
      exact (List.getElem?_eq_some_iff.mp hTask).1
  | goto name => exact Nat.le_of_lt (List.findIdx?_eq_some_iff_findIdx_eq.mp hTarget).1
  | exit | end_ => cases hTarget

theorem Leads.le {tasks : List CompiledTask} {index : Nat} (leads : Leads tasks 0 index) :
    index ≤ tasks.length := by
  cases leads with
  | refl => exact Nat.zero_le _
  | tail _ last => exact Successor.le last

/-- How far the log of an execution has come. -/
inductive LogStage where
  | absent
  | created
  | underway (index : Nat)
  | closed (phase : Phase)
  | over
deriving DecidableEq, Repr

/-- The task with which an execution goes on that is interrupted here. -/
def LogStage.index? : LogStage → Option Nat
  | created => some 0
  | underway index => some index
  | _ => none

/-- The record of an execution that is about to run a task of its top-level scope. -/
def checkpointRecord (wf : CompiledWorkflow) (executionId : String) (index : Nat)
    (context input : Value) (startedAt : Int) : ExecutionRecord :=
  executionRecord wf executionId .running context (checkpointPointer index input) none startedAt

/-- The operations which take the log further. -/
inductive LogStep (wf : CompiledWorkflow) (executionId : String) :
    LogStage → StoreOp → LogStage → Prop where
  | create (context input : Value) (startedAt : Int) :
      LogStep wf executionId .absent
        (.create (checkpointRecord wf executionId 0 context input startedAt)) .created
  | start (startedAt : Int) :
      LogStep wf executionId .created
        (.append { executionId, sequence := 1, eventType := "workflow.started"
                   payload := .object [("startedAt", .ofInt startedAt)], timestamp := startedAt })
        (.underway 0)
  | advance {stage : LogStage} {index next : Nat} (context input : Value) (startedAt : Int)
      (hIndex : stage.index? = some index) (successor : Successor wf.tasks index next) :
      LogStep wf executionId stage
        (.update (checkpointRecord wf executionId next context input startedAt)) (.underway next)
  | close {stage : LogStage} {index : Nat} (result : Except WorkflowError Value)
      (context : Value) (error : Option Value) (startedAt : Int)
      (hIndex : stage.index? = some index) :
      LogStep wf executionId stage
        (.update (executionRecord wf executionId (terminalPhase result) context .null error
          startedAt)) (.closed (terminalPhase result))
  | report (phase : Phase) (payload : Value) (timestamp : Int) :
      LogStep wf executionId (.closed phase)
        (.append { executionId, sequence := 2, eventType := terminalEventType phase, payload
                   timestamp }) .over

/-- The log of an execution, from one stage to another. -/
abbrev Log (wf : CompiledWorkflow) (executionId : String) : LogStage → List StoreOp → LogStage → Prop :=
  Walk (LogStep wf executionId)

variable {wf : CompiledWorkflow} {executionId : String} {stage : LogStage} {ops : List StoreOp}

section Logs

/-- An interrupted execution goes on with a task to which the flow leads from the first one. -/
theorem Log.leads (log : Log wf executionId .absent ops stage) {index : Nat}
    (hIndex : stage.index? = some index) : Leads wf.tasks 0 index := by
  refine log.keeps (fun stage => ∀ index, stage.index? = some index → Leads wf.tasks 0 index)
    ?_ ?_ index hIndex
  · intro index hNone
    cases hNone
  · intro before op after ih last index hAfter
    cases last with
    | create | start =>
        cases hAfter
        exact .refl
    | advance _ _ _ hBefore successor =>
        cases hAfter
        exact (ih _ hBefore).tail successor
    | close | report => cases hAfter

/-- What the store holds at a stage of the log. -/
inductive AtStage (wf : CompiledWorkflow) (executionId : String) :
    LogStage → Option ExecutionRecord → Prop where
  | absent : AtStage wf executionId .absent none
  | checkpoint {stage : LogStage} {index : Nat} (context input : Value) (startedAt : Int)
      (hIndex : stage.index? = some index) :
      AtStage wf executionId stage (some (checkpointRecord wf executionId index context input startedAt))
  | terminal {stage : LogStage} {record : ExecutionRecord} (hIndex : stage.index? = none)
      (hTerminal : record.phase.isTerminal = true) : AtStage wf executionId stage (some record)

theorem latest_snoc (ops : List StoreOp) (op : StoreOp) :
    latest (ops ++ [op]) = op.record?.or (latest ops) := by
  rw [latest_append]
  cases op <;> rfl

/-- What the last operation of a log has stored is the record for the stage at which the log ends.
-/
theorem Log.atStage (log : Log wf executionId .absent ops stage) :
    AtStage wf executionId stage (latest ops) := by
  induction log with
  | nil => exact .absent
  | snoc prior last ih =>
      rw [latest_snoc]
      cases last with
      | create context input startedAt => exact .checkpoint context input startedAt rfl
      | start startedAt =>
          generalize latest _ = found at ih
          cases ih with
          | checkpoint context input startedAt hIndex =>
              cases hIndex
              exact .checkpoint context input startedAt rfl
          | terminal hIndex _ => cases hIndex
      | advance context input startedAt _ _ => exact .checkpoint context input startedAt rfl
      | close result context error startedAt _ =>
          exact .terminal rfl (terminalPhase_isTerminal result)
      | report phase payload timestamp =>
          generalize latest _ = found at ih
          cases ih with
          | checkpoint _ _ _ hIndex => cases hIndex
          | terminal _ hTerminal => exact .terminal rfl hTerminal

/-- A checkpoint is read back as it was written. -/
theorem resumeState_checkpoint {index : Nat} (hIndex : index < 2 ^ 64) (context input : Value)
    (startedAt : Int) : resumeState (checkpointRecord wf executionId index context input startedAt) =
      { nextIndex := index, input, context } := by
  have hNext : (Value.ofNat index).asU64 = some index := if_pos hIndex
  have hPointer : (checkpointPointer index input).get? "next" = some (.ofNat index) := rfl
  have hInput : (checkpointPointer index input).get? "input" = some input := rfl
  show ResumeState.mk _ _ _ = ResumeState.mk _ _ _
  simp [checkpointRecord, executionRecord, hPointer, hInput, hNext]

end Logs

/-- The deeds of an execution whose log goes on from a stage to one of a kind. -/
def Charted (wf : CompiledWorkflow) (executionId : String) (start : LogStage)
    (kind : LogStage → Prop) : Deeds := fun added _ =>
  ∃ stage, Log wf executionId start added stage ∧ kind stage

/-- The deeds of an execution at any point. -/
abbrev Ongoing (wf : CompiledWorkflow) (executionId : String) (start : LogStage) : Deeds :=
  Charted wf executionId start fun _ => True

/-- The law of what happens without a trace under an id. -/
abbrev silentLaw (executionId : String) : Law engine :=
  worldLaw (· ≠ executionId) fun _ => False

section Steps

variable {start : LogStage} {A B : LogStage → Prop} {added : List StoreOp}
  {announced : List EventMessage}

theorem Charted.refl (hStart : A start) : Charted wf executionId start A [] announced :=
  ⟨start, .nil, hStart⟩

theorem Charted.ongoing (added : List StoreOp) (announced : List EventMessage)
    (charted : Charted wf executionId start A added announced) :
    Ongoing wf executionId start added announced := by
  obtain ⟨stage, log, _⟩ := charted
  exact ⟨stage, log, trivial⟩

theorem Charted.mono (hAB : ∀ stage, A stage → B stage) (added : List StoreOp)
    (announced : List EventMessage) (charted : Charted wf executionId start A added announced) :
    Charted wf executionId start B added announced := by
  obtain ⟨stage, log, hA⟩ := charted
  exact ⟨stage, log, hAB stage hA⟩

theorem Charted.snoc {op : StoreOp}
    (hStep : ∀ stage, A stage → ∃ next, LogStep wf executionId stage op next ∧ B next)
    (charted : Charted wf executionId start A added announced) :
    Charted wf executionId start B (added ++ [op]) announced := by
  obtain ⟨stage, log, hA⟩ := charted
  obtain ⟨next, step, hB⟩ := hStep stage hA
  exact ⟨next, log.snoc step, hB⟩

variable {env : RuntimeInner} {ctx : ExecContext} {allowed : engine.Choice → Prop}
  {σ : EngineState} {v : World} {α : Type}

/-- An operation takes the log further. -/
theorem store_charted {op : StoreOp} (since : Since executionId v (Charted wf executionId start A) σ)
    (hId : op.executionId = executionId)
    (hStep : ∀ stage, A stage → ∃ next, LogStep wf executionId stage op next ∧ B next) :
    Ensures allowed (Since executionId v (Ongoing wf executionId start))
      (fun _ => Since executionId v (Charted wf executionId start B)) (store op) σ := by
  refine (store_since (I := Charted wf executionId start B) since hId ?_).mono ?_ ?_
  · exact fun added announced charted => charted.snoc hStep
  · intro τ either
    exact either.mono fun added announced hEither =>
      hEither.elim (Charted.ongoing added announced) (Charted.ongoing added announced)
  · exact fun _ τ _ since => since

/-- What leaves no trace under the id leaves the log as it is. -/
theorem quiet_charted {p : Future α}
    (asks : FutureObeys (silentLaw executionId) ((silentLaw executionId).may σ.shared) p)
    (hDraws : v.Draws (· ≠ executionId))
    (since : Since executionId v (Charted wf executionId start A) σ) :
    Ensures allowed (Since executionId v (Ongoing wf executionId start))
      (fun _ => Since executionId v (Charted wf executionId start A)) p σ :=
  (quiet_since asks hDraws since).mono (fun _ since => since.mono Charted.ongoing)
    fun _ _ _ since => since

theorem ask_charted (a : Act) (hMay : (silentLaw executionId).may σ.shared a)
    (hDraws : v.Draws (· ≠ executionId))
    (since : Since executionId v (Charted wf executionId start A) σ) :
    Ensures allowed (Since executionId v (Ongoing wf executionId start))
      (fun _ => Since executionId v (Charted wf executionId start A)) (ask a) σ :=
  quiet_charted (ask_obeys hMay) hDraws since

end Steps

section Courses

variable {env : RuntimeInner} {ctx : ExecContext} {allowed : engine.Choice → Prop}
  {σ : EngineState} {v : World} {start : LogStage} {fuel rounds : Nat} {startedAt : Int}

/-- A checkpoint takes the log to the task that is next. -/
theorem persistCheckpoint_charted {index next : Nat} {input : Value}
    (successor : Successor wf.tasks index next) (hDraws : v.Draws (· ≠ ctx.executionId))
    (since : Since ctx.executionId v
      (Charted wf ctx.executionId start (·.index? = some index)) σ) :
    Ensures allowed (Since ctx.executionId v (Ongoing wf ctx.executionId start))
      (fun _ => Since ctx.executionId v
        (Charted wf ctx.executionId start (·.index? = some next)))
      (persistCheckpoint wf ctx startedAt next input) σ := by
  apply Since.bind (ask_charted .tryContext trivial hDraws since) fun _ _ ongoing => ongoing
  intro context τ since
  refine Since.bind (store_charted (B := (·.index? = some next)) since rfl ?_)
    (fun _ _ ongoing => ongoing) fun _ υ since => Since.done since Charted.ongoing
  intro stage hIndex
  exact ⟨.underway next, .advance context input startedAt hIndex successor, rfl⟩

/-- The loop over the top-level scope: each round goes on with a task that may follow, and
stores so before it begins. -/
theorem scopeLoop_charted {index : Nat} {input : Value} (hDraws : v.Draws (· ≠ ctx.executionId))
    (since : Since ctx.executionId v
      (Charted wf ctx.executionId start (·.index? = some index)) σ) :
    Ensures allowed (Since ctx.executionId v (Ongoing wf ctx.executionId start))
      (fun _ => Since ctx.executionId v
        (Charted wf ctx.executionId start fun stage => ∃ index, stage.index? = some index))
      (scopeLoop env (runner env fuel) wf ctx wf.tasks (some { startedAt }) rounds index input).run
      σ := by
  have hSome : ∀ index stage, LogStage.index? stage = some index →
      ∃ index, stage.index? = some index := fun index _ hIndex => ⟨index, hIndex⟩
  have hRunner : (runner env fuel).Obeys (silentLaw ctx.executionId) env :=
    runner_obeys (worldLaw_nests env) fuel
  induction rounds generalizing index input σ with
  | zero =>
      have obeys : Obeys (silentLaw ctx.executionId) ((silentLaw ctx.executionId).may σ.shared)
          (outOfFuel : Run Value) := outOfFuel_obeys (worldLaw_scope env wf σ.shared).toTerms
      refine (quiet_charted obeys.run hDraws since).mono (fun _ hI => hI) fun _ τ _ since => ?_
      exact since.mono (Charted.mono (hSome index))
  | succ rounds ih =>
      rw [scopeLoop]
      have obeys : Obeys (silentLaw ctx.executionId) ((silentLaw ctx.executionId).may σ.shared)
          (scopeStep env (runner env fuel) wf ctx wf.tasks index input) :=
        scopeStep_obeys hRunner (worldLaw_scope env wf σ.shared) .top index input
      have hQuiet : Ensures allowed (Since ctx.executionId v (Ongoing wf ctx.executionId start))
          (fun _ => Since ctx.executionId v (Charted wf ctx.executionId start
            (·.index? = some index)))
          (scopeStep env (runner env fuel) wf ctx wf.tasks index input).run σ :=
        quiet_charted obeys.run hDraws since
      have hStep := hQuiet.and scopeStep_ensures
      apply Ensures.seq (hStep.mono (fun _ both => both.1) fun _ _ _ both => both)
      · rintro state τ _ ⟨since, hState⟩
        cases state with
        | finished output =>
            exact Since.done (since.mono (Charted.mono (hSome index))) Charted.ongoing
        | running next output =>
            have successor := hState next output rfl
            apply Ensures.lift
            refine (persistCheckpoint_charted successor hDraws since).mono (fun _ hI => hI) ?_
            intro _ υ _ since
            exact ih since
      · rintro e τ _ ⟨since, _⟩
        exact Since.done (since.mono (Charted.mono (hSome index))) Charted.ongoing

/-- The top-level scope leaves the log where it can be closed. -/
theorem runScopes_charted {index : Nat} {input : Value} (hDraws : v.Draws (· ≠ ctx.executionId))
    (since : Since ctx.executionId v
      (Charted wf ctx.executionId start (·.index? = some index)) σ) :
    Ensures allowed (Since ctx.executionId v (Ongoing wf ctx.executionId start))
      (fun _ => Since ctx.executionId v
        (Charted wf ctx.executionId start fun stage => ∃ index, stage.index? = some index))
      (runScopes env (runner env fuel) rounds wf ctx startedAt index input).run σ := by
  refine Since.seq (scopeLoop_charted hDraws since) (fun _ _ ongoing => ongoing) ?_ ?_
    fun _ => Charted.ongoing
  · intro output τ since
    have obeys : Obeys (silentLaw ctx.executionId) ((silentLaw ctx.executionId).may τ.shared)
        (applyWorkflowOutput env wf ctx output) :=
      applyWorkflowOutput_obeys (worldLaw_scope env wf τ.shared).toTerms output
    exact quiet_charted obeys.run hDraws since
  · exact fun _ _ since => since

/-- The end of an execution is written to its log: from any stage with an index, what has been
stored stays a log, during the operation and after it. -/
theorem persistTerminal_charted {result : Except WorkflowError Value}
    (hDraws : v.Draws (· ≠ ctx.executionId))
    (since : Since ctx.executionId v
      (Charted wf ctx.executionId start fun stage => ∃ index, stage.index? = some index) σ) :
    Ensures allowed (Since ctx.executionId v (Ongoing wf ctx.executionId start))
      (fun _ => Since ctx.executionId v (Ongoing wf ctx.executionId start))
      (persistTerminal wf ctx result startedAt) σ := by
  unfold persistTerminal
  apply Since.bind (ask_charted .tryContext trivial hDraws since) fun _ _ ongoing => ongoing
  intro context τ since
  refine Since.bind (store_charted (B := (· = .closed (terminalPhase result))) since rfl ?_)
    (fun _ _ ongoing => ongoing) fun _ υ since => ?_
  · rintro stage ⟨index, hIndex⟩
    exact ⟨_, .close result context _ startedAt hIndex, rfl⟩
  apply Since.bind (ask_charted .epochSeconds trivial hDraws since) fun _ _ ongoing => ongoing
  intro timestamp φ since
  refine Since.bind (store_charted (B := fun _ => True) since rfl ?_)
    (fun _ _ ongoing => ongoing) fun _ ψ since => Since.done since fun _ _ ongoing => ongoing
  rintro stage rfl
  exact ⟨.over, .report _ _ timestamp, trivial⟩

theorem announceCompletion_charted {result : Except WorkflowError Value} {A : LogStage → Prop}
    (hDraws : v.Draws (· ≠ ctx.executionId))
    (since : Since ctx.executionId v (Charted wf ctx.executionId start A) σ) :
    Ensures allowed (Since ctx.executionId v (Ongoing wf ctx.executionId start))
      (fun _ => Since ctx.executionId v (Charted wf ctx.executionId start A))
      (announceCompletion env wf ctx result).run σ := by
  cases result with
  | error e => exact Since.done since Charted.ongoing
  | ok value =>
      apply Since.lift (ask_charted .epochSeconds trivial hDraws since) fun _ _ ongoing => ongoing
      intro now τ since
      refine Since.lift (announce_since (I := Charted wf ctx.executionId start A) since ?_) ?_ ?_
      · exact fun _ _ charted => charted
      · exact fun added announced either =>
          either.elim (Charted.ongoing added announced) (Charted.ongoing added announced)
      · exact fun _ υ since => Since.done since Charted.ongoing

theorem conclude_charted {result : Except WorkflowError Value}
    (hDraws : v.Draws (· ≠ ctx.executionId))
    (since : Since ctx.executionId v
      (Charted wf ctx.executionId start fun stage => ∃ index, stage.index? = some index) σ) :
    Ensures allowed (Since ctx.executionId v (Ongoing wf ctx.executionId start))
      (fun _ => Since ctx.executionId v (Ongoing wf ctx.executionId start))
      (conclude env wf ctx startedAt result).run σ := by
  refine Since.seq (announceCompletion_charted hDraws since) (fun _ _ ongoing => ongoing) ?_ ?_
    fun _ _ _ ongoing => ongoing
  · intro _ τ since
    refine Since.lift (persistTerminal_charted hDraws since) (fun _ _ ongoing => ongoing) ?_
    exact fun _ υ since => Since.done since fun _ _ ongoing => ongoing
  · exact fun _ τ since => since.mono Charted.ongoing

/-- From its top-level scope on, an execution takes its log further. -/
theorem scopes_charted {index : Nat} {input : Value} (hDraws : v.Draws (· ≠ ctx.executionId))
    (since : Since ctx.executionId v
      (Charted wf ctx.executionId start (·.index? = some index)) σ) :
    Ensures allowed (Since ctx.executionId v (Ongoing wf ctx.executionId start))
      (fun _ => Since ctx.executionId v (Ongoing wf ctx.executionId start))
      (do
        let result ← outcome (runScopes env (runner env fuel) rounds wf ctx startedAt index input)
        conclude env wf ctx startedAt result : Run Value).run σ := by
  refine Since.lift (runScopes_charted hDraws since) (fun _ _ ongoing => ongoing) ?_
  exact fun result τ since => conclude_charted hDraws since

theorem setContext_charted {source : ContextSource} {value : Value} {A : LogStage → Prop}
    (hDraws : v.Draws (· ≠ ctx.executionId))
    (since : Since ctx.executionId v (Charted wf ctx.executionId start A) σ) :
    Ensures allowed (Since ctx.executionId v (Ongoing wf ctx.executionId start))
      (fun _ => Since ctx.executionId v (Charted wf ctx.executionId start A))
      (setContext source value) σ :=
  (setContext_since hDraws since).mono (fun _ since => since.mono Charted.ongoing)
    fun _ _ _ since => since

/-- A resumed execution goes on with the log where it stands. -/
theorem resumedBody_charted {rawInput : Value} {state : ResumeState}
    (hDraws : v.Draws (· ≠ ctx.executionId))
    (since : Since ctx.executionId v
      (Charted wf ctx.executionId start (·.index? = some state.nextIndex)) σ) :
    Ensures allowed (Since ctx.executionId v (Ongoing wf ctx.executionId start))
      (fun _ => Since ctx.executionId v (Ongoing wf ctx.executionId start))
      (executeBody env (runner env fuel) rounds wf ctx rawInput startedAt (some state)).run σ := by
  have hBody : executeBody env (runner env fuel) rounds wf ctx rawInput startedAt (some state) = (do
      setContext .entry state.context
      let result ← outcome (runScopes env (runner env fuel) rounds wf ctx startedAt
        state.nextIndex state.input)
      conclude env wf ctx startedAt result) := by
    simp only [executeBody, enterExecution, bind_assoc, pure_bind]
  rw [hBody]
  apply Since.lift (setContext_charted hDraws since) fun _ _ ongoing => ongoing
  exact fun _ τ since => scopes_charted hDraws since

/-- The record of the start opens the log: nothing has been stored before, and the execution then
stands before its first task. -/
theorem persistStarted_charted (hDraws : v.Draws (· ≠ ctx.executionId))
    (since : Since ctx.executionId v (Charted wf ctx.executionId start (· = .absent)) σ) :
    Ensures allowed (Since ctx.executionId v (Ongoing wf ctx.executionId start))
      (fun _ => Since ctx.executionId v (Charted wf ctx.executionId start (·.index? = some 0)))
      (persistStarted wf ctx startedAt) σ := by
  unfold persistStarted
  apply Since.bind (ask_charted .tryContext trivial hDraws since) fun _ _ ongoing => ongoing
  intro context τ since
  apply Since.bind (ask_charted .tryContext trivial hDraws since) fun _ _ ongoing => ongoing
  intro input υ since
  refine Since.bind (store_charted (B := (· = .created)) since rfl ?_)
    (fun _ _ ongoing => ongoing) fun _ φ since => ?_
  · rintro stage rfl
    exact ⟨.created, .create context input startedAt, rfl⟩
  refine Since.bind (store_charted (B := (·.index? = some 0)) since rfl ?_)
    (fun _ _ ongoing => ongoing) fun _ ψ since => Since.done since Charted.ongoing
  rintro stage rfl
  exact ⟨.underway 0, .start startedAt, rfl⟩

/-- A fresh execution begins a log when its input is accepted, and then stands before its first
task. Whatever happens, what it has stored is on the way to a log. -/
theorem beginFresh_charted {rawInput : Value} (hDraws : v.Draws (· ≠ ctx.executionId))
    (since : Since ctx.executionId v (Charted wf ctx.executionId start (· = .absent)) σ) :
    Ensures allowed (Since ctx.executionId v (Ongoing wf ctx.executionId start))
      (fun result => Since ctx.executionId v (Charted wf ctx.executionId start fun stage =>
        result.isOk → stage.index? = some 0))
      (beginFresh env wf ctx rawInput startedAt).run σ := by
  refine Since.lift (announce_since
    (I := Charted wf ctx.executionId start (· = .absent)) since ?_) ?_ fun _ τ since => ?_
  · exact fun _ _ charted => charted
  · exact fun added announced either =>
      either.elim (Charted.ongoing added announced) (Charted.ongoing added announced)
  have obeys : Obeys (silentLaw ctx.executionId) ((silentLaw ctx.executionId).may τ.shared)
      (applyWorkflowInput env wf ctx rawInput) :=
    applyWorkflowInput_obeys (worldLaw_scope env wf τ.shared).toTerms rawInput
  refine Since.seq (quiet_charted obeys.run hDraws since) (fun _ _ ongoing => ongoing) ?_ ?_
    fun _ => Charted.ongoing
  · intro transformed υ since
    apply Since.lift (setContext_charted hDraws since) fun _ _ ongoing => ongoing
    intro _ φ since
    apply Since.lift (persistStarted_charted hDraws since) fun _ _ ongoing => ongoing
    intro _ ψ since
    exact Since.done (since.mono (Charted.mono fun _ hIndex _ => hIndex)) Charted.ongoing
  · intro e υ since
    exact since.mono (Charted.mono fun _ _ hOk => nomatch hOk)

theorem freshBody_charted {rawInput : Value} (hDraws : v.Draws (· ≠ ctx.executionId))
    (since : Since ctx.executionId v (Charted wf ctx.executionId start (· = .absent)) σ) :
    Ensures allowed (Since ctx.executionId v (Ongoing wf ctx.executionId start))
      (fun _ => Since ctx.executionId v (Ongoing wf ctx.executionId start))
      (executeBody env (runner env fuel) rounds wf ctx rawInput startedAt none).run σ := by
  have hBody : executeBody env (runner env fuel) rounds wf ctx rawInput startedAt none = (do
      let transformed ← beginFresh env wf ctx rawInput startedAt
      let result ← outcome (runScopes env (runner env fuel) rounds wf ctx startedAt 0 transformed)
      conclude env wf ctx startedAt result) := by
    simp only [executeBody, enterExecution, bind_assoc, pure_bind]
  rw [hBody]
  refine Since.seq (beginFresh_charted hDraws since) (fun _ _ ongoing => ongoing) ?_ ?_
    fun _ _ _ ongoing => ongoing
  · intro transformed τ since
    exact scopes_charted hDraws (since.mono (Charted.mono fun _ hOk => hOk rfl))
  · exact fun _ τ since => since.mono Charted.ongoing

end Courses

end OwsRuntime
