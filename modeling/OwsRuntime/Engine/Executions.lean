import OwsRuntime.Engine.Lifecycle

/-! The course of an execution, from the start of its region to its result. -/
namespace OwsRuntime

open Async Law
open Async.Handler (Ensures Drifts)

variable {env : RuntimeInner} {wf : CompiledWorkflow} {ctx : ExecContext} {r : Runner}
  {allowed : engine.Choice → Prop} {σ : EngineState} {v : World} {executionId : String}

/-- The deeds of an execution that is not over, with its lifecycle so far. -/
def Pending (N : List EventMessage → Prop) : Deeds := fun added announced =>
  Underway added ∧ N announced

/-- The deeds of an execution at any point. -/
def OnCourse (N : List EventMessage → Prop) : Deeds := fun added announced =>
  Course added ∧ N announced

/-- An execution that is not over is on its course: so is what it has done up to a record of its
progress, -/
theorem Pending.onCourse {N : List EventMessage → Prop} (added : List StoreOp)
    (announced : List EventMessage) (pending : Pending N added announced) :
    OnCourse N added announced :=
  ⟨Course.underway pending.1, pending.2⟩

section Terminal

variable {N : List EventMessage → Prop} {result : Except WorkflowError Value} {startedAt : Int}

/-- The terminal record is stored, but not the terminal event. -/
def Closed (result : Except WorkflowError Value) (N : List EventMessage → Prop) : Deeds :=
  fun added announced => ∃ before record, added = before ++ [.update record] ∧ Underway before ∧
    record.phase = terminalPhase result ∧ N announced

/-- up to its terminal record, -/
theorem Closed.onCourse (added : List StoreOp) (announced : List EventMessage)
    (closed : Closed result N added announced) : OnCourse N added announced := by
  obtain ⟨before, record, rfl, hBefore, hPhase, hN⟩ := closed
  refine ⟨Course.closed hBefore ?_, hN⟩
  rw [hPhase]
  exact terminalPhase_isTerminal result

def Reported (result : Except WorkflowError Value) (N : List EventMessage → Prop) : Deeds :=
  fun added announced => Concluded result added ∧ N announced

/-- and up to its terminal event. -/
theorem Reported.onCourse (added : List StoreOp) (announced : List EventMessage)
    (reported : Reported result N added announced) : OnCourse N added announced :=
  ⟨reported.1.course, reported.2⟩

/-- The terminal record and the terminal event are stored, in this order. -/
theorem persistTerminal_since (hDraws : v.Draws (· ≠ ctx.executionId))
    (since : Since ctx.executionId v (Pending N) σ) :
    Ensures allowed (Since ctx.executionId v (OnCourse N))
      (fun _ => Since ctx.executionId v (Reported result N))
      (persistTerminal wf ctx result startedAt) σ := by
  unfold persistTerminal
  apply Since.bind (ask_since .tryContext trivial hDraws since) Pending.onCourse
  intro context τ since
  refine Since.bind (store_since (I := Closed result N) since rfl ?_) ?_ fun _ υ since => ?_
  · rintro added announced ⟨hAdded, hN⟩
    exact ⟨added, _, rfl, hAdded, rfl, hN⟩
  · intro added announced hEither
    exact hEither.elim (Pending.onCourse added announced) (Closed.onCourse added announced)
  apply Since.bind (ask_since .epochSeconds trivial hDraws since) Closed.onCourse
  intro timestamp φ since
  refine Since.bind (store_since (I := Reported result N) since rfl ?_) ?_ fun _ ψ since => ?_
  · rintro added announced ⟨before, record, rfl, hBefore, hPhase, hN⟩
    refine ⟨⟨before, record, _, List.append_assoc _ _ _, hBefore, hPhase, ?_⟩, hN⟩
    rw [hPhase]
  · intro added announced hEither
    exact hEither.elim (Closed.onCourse added announced) (Reported.onCourse added announced)
  exact Since.done since Reported.onCourse

end Terminal

/-- The lifecycle events which follow when an execution ends. -/
def Completes (wf : CompiledWorkflow) (executionId : String) (N : List EventMessage → Prop)
    (result : Except WorkflowError Value) (announced : List EventMessage) : Prop :=
  match result with
  | .ok _ => ∃ before time, announced = before ++ [workflowCompleted wf executionId time] ∧ N before
  | .error _ => N announced

section Conclusion

variable {N : List EventMessage → Prop} {startedAt : Int}

/-- What may have been announced, whatever the end. -/
def Announced (wf : CompiledWorkflow) (executionId : String) (N : List EventMessage → Prop)
    (announced : List EventMessage) : Prop :=
  ∃ result, Completes wf executionId N result announced

/-- What it has announced may be followed by its completion. -/
theorem Pending.announced (added : List StoreOp) (announced : List EventMessage)
    (pending : Pending N added announced) :
    OnCourse (Announced wf executionId N) added announced :=
  ⟨Course.underway pending.1, .error WorkflowError.cancelled, pending.2⟩

/-- The announcement of its completion adds one event at most, and no record. -/
theorem announceCompletion_since {result : Except WorkflowError Value}
    (hDraws : v.Draws (· ≠ ctx.executionId)) (since : Since ctx.executionId v (Pending N) σ) :
    Ensures allowed (Since ctx.executionId v (OnCourse (Announced wf ctx.executionId N)))
      (fun done => Since ctx.executionId v fun added announced => done = .ok () ∧
        Pending (Completes wf ctx.executionId N result) added announced)
      (announceCompletion env wf ctx result).run σ := by
  have hCourse : ∀ (done : Except WorkflowError Unit) (added : List StoreOp)
      (announced : List EventMessage),
      done = .ok () ∧ Pending (Completes wf ctx.executionId N result) added announced →
        OnCourse (Announced wf ctx.executionId N) added announced :=
    fun _ _ _ hDone => ⟨Course.underway hDone.2.1, result, hDone.2.2⟩
  cases result with
  | error e => exact Since.done (since.mono fun _ _ hPending => ⟨rfl, hPending⟩) (hCourse _)
  | ok value =>
      apply Since.lift (ask_since .epochSeconds trivial hDraws since) Pending.announced
      intro now τ since
      refine Since.lift (announce_since (I := Pending (Completes wf ctx.executionId N (.ok value)))
        since ?_) ?_ fun _ υ since => ?_
      · rintro added announced ⟨hAdded, hN⟩
        exact ⟨hAdded, announced, _, rfl, hN⟩
      · rintro added announced (hPending | hDone)
        · exact Pending.announced added announced hPending
        · exact hCourse (.ok ()) _ _ ⟨rfl, hDone⟩
      · exact Since.done (since.mono fun _ _ hPending => ⟨rfl, hPending⟩) (hCourse _)

/-- What an execution that is over has left behind. -/
def Finished (wf : CompiledWorkflow) (executionId : String) (N : List EventMessage → Prop)
    (result : Except WorkflowError Value) : Deeds :=
  Reported result (Completes wf executionId N result)

/-- An execution that concludes stores its terminal record, then its terminal event, and announces
its completion. It is on its course at every point of this. -/
theorem conclude_since {result : Except WorkflowError Value}
    (hDraws : v.Draws (· ≠ ctx.executionId)) (since : Since ctx.executionId v (Pending N) σ) :
    Ensures allowed (Since ctx.executionId v (OnCourse (Announced wf ctx.executionId N)))
      (fun outcome => Since ctx.executionId v (Finished wf ctx.executionId N outcome))
      (conclude env wf ctx startedAt result).run σ := by
  have hAnnounced : ∀ (outcome : Except WorkflowError Value) (added : List StoreOp)
      (announced : List EventMessage), Finished wf ctx.executionId N outcome added announced →
        OnCourse (Announced wf ctx.executionId N) added announced :=
    fun outcome _ _ hDone => ⟨hDone.1.course, outcome, hDone.2⟩
  refine Since.seq (announceCompletion_since hDraws since) (fun _ _ hDone => hDone) ?_ ?_
    fun e => hAnnounced (.error e)
  · intro done τ since
    have hPending := since.mono (fun _ _ hDone => hDone.2)
    refine Since.lift (persistTerminal_since hDraws hPending) ?_ fun _ υ since => ?_
    · exact fun _ _ hDone => ⟨hDone.1, result, hDone.2⟩
    · exact Since.done since (hAnnounced _)
  · rintro e τ ⟨_, _, _, hError, _⟩
    cases hError

/-- The top-level scope stores only progress under the id of its execution. -/
theorem runScopes_since {fuel rounds start : Nat} {input : Value}
    (hDraws : v.Draws (· ≠ ctx.executionId)) (since : Since ctx.executionId v (Pending N) σ) :
    Ensures allowed (Since ctx.executionId v (Pending N))
      (fun _ => Since ctx.executionId v (Pending N))
      (runScopes env (runner env fuel) rounds wf ctx startedAt start input).run σ := by
  let L : Law engine := worldLaw (· ≠ ctx.executionId) (·.Progress ctx.executionId)
  have hRunner : (runner env fuel).Obeys L env := runner_obeys (worldLaw_nests env) fuel
  have obeys : Obeys L (L.may σ.shared)
      (runScopes env (runner env fuel) rounds wf ctx startedAt start input) :=
    runScopes_obeys hRunner (worldLaw_scope env wf σ.shared) (fun _ progress => Or.inr progress)
      rounds startedAt start input
  apply asks_since obeys.run hDraws since
  rintro added announced more ⟨hAdded, hN⟩ hMore
  exact ⟨hAdded.append fun op hMem => (hMore op hMem).unfinished, hN⟩

/-- From its top-level scope on, an execution runs its course and reports the result. -/
theorem scopes_since {fuel rounds start : Nat} {input : Value}
    (hDraws : v.Draws (· ≠ ctx.executionId)) (since : Since ctx.executionId v (Pending N) σ) :
    Ensures allowed (Since ctx.executionId v (OnCourse (Announced wf ctx.executionId N)))
      (fun outcome => Since ctx.executionId v (Finished wf ctx.executionId N outcome))
      (do
        let result ← outcome (runScopes env (runner env fuel) rounds wf ctx startedAt start input)
        conclude env wf ctx startedAt result : Run Value).run σ := by
  refine Since.lift (runScopes_since hDraws since) Pending.announced fun result τ since => ?_
  exact conclude_since hDraws since

end Conclusion

section Bodies

/-- The variables of a fresh execution, before it has a context. -/
def ExecContext.startVariables (ctx : ExecContext) (rawInput : Value) : Map :=
  let exprCtx : ExpressionContext :=
    { context := .null, input := rawInput, output := .null, secrets := ctx.secrets
      authorization := none, task := none, workflow := some ctx.workflowDescriptor
      runtime := some ctx.runtimeDescriptor, extraVars := [] }
  Map.extend exprCtx.asVariableMap []

/-- What a fresh execution makes of its input. -/
def inputPipeline (env : RuntimeInner) (wf : CompiledWorkflow) (ctx : ExecContext)
    (rawInput : Value) : Except WorkflowError Value := do
  validateSchema env wf.input.schema rawInput "/input"
  match wf.input.transform with
  | none => return rawInput
  | some source =>
      (env.evaluateSource source rawInput (ctx.startVariables rawInput)).mapError
        (toExpressionError · none)

/-- The storage of an execution that has not begun to use it. -/
structure Untouched (σ : EngineState) : Prop where
  context : σ.shared.context = .null
  unlocked : σ.shared.locked = false
  loopVars : σ.loc.loopVars = []

variable {P : Deeds} {rawInput : Value}

/-- The variables at the start are those of the context, which no task has touched yet. -/
theorem startVariables_since (untouched : Untouched σ) (since : Since executionId v P σ) :
    Ensures allowed (Since executionId v P)
      (fun vars τ => vars = ctx.startVariables rawInput ∧ Since executionId v P τ)
      (ctx.variables_ rawInput .null none) σ := by
  apply Ensures.bind
  apply ask_ensures (a := .tryContext)
  intro w drifts
  refine ⟨since.drifts drifts, ?_⟩
  intro context τ hPerform x later
  rw [perform, if_neg (by simp [untouched.unlocked])] at hPerform
  cases hPerform
  have since' := (since.drifts drifts).drifts later
  refine ⟨since', Ensures.bind (ask_ensures (a := .getLocal) ?_)⟩
  intro y drifts'
  refine ⟨since'.drifts drifts', ?_⟩
  rintro loc υ hPerform z later'
  cases hPerform
  have hLater := (since'.drifts drifts').drifts later'
  refine ⟨hLater, Ensures.done fun w' drifts'' => ?_⟩
  refine ⟨hLater.drifts drifts'', ?_, hLater.drifts drifts''⟩
  rw [ExecContext.startVariables, untouched.context, untouched.loopVars]

/-- An evaluation leaves no trail in the world, and its result is the value of the source or its
error, with the task that asked for it. -/
theorem evalExpr_since {source : String} {input : Value} {vars : Map} {owner : Option CompiledTask}
    (since : Since executionId v P σ) :
    Ensures allowed (Since executionId v P)
      (fun result τ => result = (env.evaluateSource source input vars).mapError
        (toExpressionError · owner) ∧ Since executionId v P τ)
      (evalExpr env source input vars owner).run σ := by
  apply Ensures.lift
  apply Ensures.bind
  apply ask_ensures (a := .note (.evaluates (.expression source) input vars))
  intro w drifts
  refine ⟨since.drifts drifts, ?_⟩
  rintro position τ hPerform x later
  cases hPerform
  have hLogged : Since executionId v P
      (EngineState.note { σ with world := w } (.evaluates (.expression source) input vars)) := by
    obtain ⟨added, events, hP⟩ := since.drifts drifts
    exact ⟨added, events, hP⟩
  have hLater := hLogged.drifts later
  refine ⟨hLater, ?_⟩
  apply Ensures.done
  intro y drifts'
  refine ⟨hLater.drifts drifts', Ensures.done fun z drifts'' => ?_⟩
  have hLast := (hLater.drifts drifts').drifts drifts''
  exact ⟨hLast, rfl, hLast⟩

/-- So the input of the workflow is prepared without one: its transformation and its schema decide
what it is. -/
theorem applyWorkflowInput_since (untouched : Untouched σ) (since : Since executionId v P σ) :
    Ensures allowed (Since executionId v P)
      (fun result τ => result = inputPipeline env wf ctx rawInput ∧ Since executionId v P τ)
      (applyWorkflowInput env wf ctx rawInput).run σ := by
  unfold applyWorkflowInput
  cases hValid : validateSchema env wf.input.schema rawInput "/input" with
  | error e =>
      have hPipeline : inputPipeline env wf ctx rawInput = .error e := by
        rw [inputPipeline, hValid]
        rfl
      rw [hPipeline]
      exact Ensures.done fun w drifts => ⟨since.drifts drifts, rfl, since.drifts drifts⟩
  | ok _ =>
      show Ensures allowed _ _ (transformWorkflowInput env wf ctx rawInput).run σ
      unfold transformWorkflowInput
      cases hTransform : wf.input.transform with
      | none =>
          have hPipeline : inputPipeline env wf ctx rawInput = .ok rawInput := by
            rw [inputPipeline, hValid]
            simp only [hTransform]
            rfl
          rw [hPipeline]
          exact Ensures.done fun w drifts => ⟨since.drifts drifts, rfl, since.drifts drifts⟩
      | some source =>
          have hPipeline : inputPipeline env wf ctx rawInput =
              (env.evaluateSource source rawInput (ctx.startVariables rawInput)).mapError
                (toExpressionError · none) := by
            rw [inputPipeline, hValid]
            simp only [hTransform]
            rfl
          rw [hPipeline]
          apply Ensures.lift
          refine (startVariables_since untouched since).mono (fun _ hI => hI) ?_
          rintro vars τ _ ⟨rfl, hSince⟩
          exact evalExpr_since hSince

variable {N : List EventMessage → Prop} {startedAt : Int}

/-- An execution that is pending in either case is pending. -/
theorem Pending.either {added : List StoreOp} {announced : List EventMessage}
    (either : Pending N added announced ∨ Pending N added announced) : Pending N added announced :=
  either.elim id id

/-- What is stored before the end keeps an execution pending. -/
theorem Pending.stored {op : StoreOp} (hOp : op.Unfinished) (added : List StoreOp)
    (announced : List EventMessage) (pending : Pending N added announced) :
    Pending N (added ++ [op]) announced := by
  refine ⟨pending.1.append fun other hMem => ?_, pending.2⟩
  obtain rfl := List.mem_singleton.mp hMem
  exact hOp

/-- The first record is followed by the event of the start. -/
theorem persistStarted_since (hDraws : v.Draws (· ≠ ctx.executionId))
    (since : Since ctx.executionId v (Pending N) σ) :
    Ensures allowed (Since ctx.executionId v (Pending N))
      (fun _ => Since ctx.executionId v (Pending N)) (persistStarted wf ctx startedAt) σ := by
  unfold persistStarted
  apply Since.bind (ask_since .tryContext trivial hDraws since) fun _ _ hPending => hPending
  intro context τ since
  apply Since.bind (ask_since .tryContext trivial hDraws since) fun _ _ hPending => hPending
  intro input υ since
  refine Since.bind (store_since since rfl (Pending.stored rfl)) (fun _ _ => Pending.either) ?_
  intro reply φ since
  refine Since.bind (store_since since rfl (Pending.stored rfl)) (fun _ _ => Pending.either) ?_
  intro reply ψ since
  exact Since.done since fun _ _ hPending => hPending

/-- The context is set up within the storage of the execution. -/
theorem setContext_since {source : ContextSource} {value : Value}
    (hDraws : v.Draws (· ≠ ctx.executionId)) (since : Since ctx.executionId v P σ) :
    Ensures allowed (Since ctx.executionId v P) (fun _ => Since ctx.executionId v P)
      (setContext source value) σ := by
  apply quiet_since ?_ hDraws since
  apply FutureObeys.seq (ask_obeys trivial)
  intro _
  exact FutureObeys.seq (ask_obeys trivial) fun _ => ask_obeys trivial

/-- What a fresh execution has left behind when it has its input: nothing, if that is
not accepted. -/
def Prepared (env : RuntimeInner) (wf : CompiledWorkflow) (ctx : ExecContext) (rawInput : Value)
    (result : Except WorkflowError Value) : Deeds := fun added announced =>
  result = inputPipeline env wf ctx rawInput ∧ Pending (· = []) added announced ∧
    ((∃ e, result = .error e) → added = [])

/-- A fresh execution leaves nothing behind when its input is refused, and its first record and
event when it is accepted. -/
theorem prepare_since (untouched : Untouched σ) (hDraws : σ.world.Draws (· ≠ ctx.executionId)) :
    Ensures allowed (Since ctx.executionId σ.world (Pending (· = [])))
      (fun result => Since ctx.executionId σ.world (Prepared env wf ctx rawInput result))
      (do
        let transformed ← applyWorkflowInput env wf ctx rawInput
        setContext .entry transformed
        persistStarted wf ctx startedAt
        return transformed : Run Value).run σ := by
  have hNone : Underway [] := fun _ hMem => nomatch hMem
  have hStart : Since ctx.executionId σ.world (fun added announced => added = [] ∧ announced = []) σ :=
    Since.refl ⟨rfl, rfl⟩
  refine Since.seq (applyWorkflowInput_since untouched hStart) ?_ ?_ ?_ fun _ _ _ hDone => hDone.2.1
  · rintro added announced ⟨rfl, hAnnounced⟩
    exact ⟨hNone, hAnnounced⟩
  · rintro transformed τ ⟨hResult, since⟩
    have hPending : Since ctx.executionId σ.world (Pending (· = [])) τ :=
      since.mono fun added announced hEmpty => ⟨by rw [hEmpty.1]; exact hNone, hEmpty.2⟩
    refine Since.lift (setContext_since hDraws hPending) (fun _ _ h => h) fun _ υ since => ?_
    refine Since.lift (persistStarted_since hDraws since) (fun _ _ h => h) fun _ φ since => ?_
    have hDone : Since ctx.executionId σ.world
        (Prepared env wf ctx rawInput (.ok transformed)) φ :=
      since.mono fun added announced hPending => ⟨hResult, hPending, fun ⟨_, hError⟩ => nomatch hError⟩
    exact Since.done hDone fun _ _ hPrepared => hPrepared.2.1
  · rintro e τ ⟨hResult, since⟩
    exact since.mono fun added announced hEmpty =>
      ⟨hResult, ⟨by rw [hEmpty.1]; exact hNone, hEmpty.2⟩, fun _ => hEmpty.1⟩

/-- A fresh execution announces itself, and then its input is prepared. Up to there it has done
nothing in the store but what is on its course. -/
theorem beginFresh_ensures (untouched : Untouched σ)
    (hDraws : σ.world.Draws (· ≠ ctx.executionId)) :
    Ensures allowed (Since ctx.executionId σ.world fun added _ => Underway added)
      (fun result τ => ∃ time v, σ.world.Trail ctx.executionId v []
          [(some ctx.executionId, workflowStarted wf ctx.executionId time)] ∧
        Since ctx.executionId v (Prepared env wf ctx rawInput result) τ)
      (beginFresh env wf ctx rawInput startedAt).run σ := by
  have hNone : Underway [] := fun _ hMem => nomatch hMem
  apply Ensures.lift
  refine (announce_ensures _).mono ?_ ?_
  · rintro τ (trail | trail) <;> exact ⟨[], _, trail, hNone⟩
  · rintro reply τ _ ⟨⟨hLoc, hShared⟩, trail⟩
    have untouched' : Untouched τ := by
      refine ⟨?_, ?_, ?_⟩
      · rw [hShared]
        exact untouched.context
      · rw [hShared]
        exact untouched.unlocked
      · rw [hLoc]
        exact untouched.loopVars
    refine (prepare_since untouched' (trail.draws hDraws)).mono ?_ ?_
    · intro υ since
      exact since.after trail fun added announced hPending => hPending.1
    · intro result υ _ since
      exact ⟨_, τ.world, trail, since⟩

/-- What a fresh execution has left behind in the end. -/
def FreshlyFinished (env : RuntimeInner) (wf : CompiledWorkflow) (ctx : ExecContext)
    (rawInput : Value) (outcome : Except WorkflowError Value) : Deeds := fun added announced =>
  (∃ e, inputPipeline env wf ctx rawInput = .error e ∧ outcome = .error e ∧ added = [] ∧
      announced = []) ∨
    (∃ value, inputPipeline env wf ctx rawInput = .ok value) ∧
      Finished wf ctx.executionId (· = []) outcome added announced

/-- A fresh execution runs its course, from its announcement to its terminal event. What it leaves
in the store at any point is a beginning of that. -/
theorem freshBody_ensures {fuel rounds : Nat} (untouched : Untouched σ)
    (hDraws : σ.world.Draws (· ≠ ctx.executionId)) :
    Ensures allowed (Since ctx.executionId σ.world fun added _ => Course added)
      (fun outcome τ => ∃ time v, σ.world.Trail ctx.executionId v []
          [(some ctx.executionId, workflowStarted wf ctx.executionId time)] ∧
        Since ctx.executionId v (FreshlyFinished env wf ctx rawInput outcome) τ)
      (executeBody env (runner env fuel) rounds wf ctx rawInput startedAt none).run σ := by
  have hBody : executeBody env (runner env fuel) rounds wf ctx rawInput startedAt none = (do
      let transformed ← beginFresh env wf ctx rawInput startedAt
      let result ← outcome (runScopes env (runner env fuel) rounds wf ctx startedAt 0 transformed)
      conclude env wf ctx startedAt result) := by
    simp only [executeBody, enterExecution, bind_assoc, pure_bind]
  rw [hBody]
  refine Ensures.seq ((beginFresh_ensures untouched hDraws).mono ?_ fun _ _ _ hQ => hQ) ?_ ?_
  · exact fun τ since => since.mono fun _ _ => Course.underway
  · rintro transformed τ - ⟨time, v, trail, since⟩
    obtain ⟨_, _, _, hResult, _⟩ := id since
    have hPending := since.mono fun _ _ hPrepared => hPrepared.2.1
    refine (scopes_since (trail.draws hDraws) hPending).mono ?_ ?_
    · intro υ hCourse
      exact hCourse.after trail fun _ _ => And.left
    · intro outcome υ _ hDone
      exact ⟨time, v, trail, hDone.mono fun _ _ hFinished => Or.inr ⟨⟨_, hResult.symm⟩, hFinished⟩⟩
  · rintro e τ - ⟨time, v, trail, since⟩
    have hFailed : Since ctx.executionId v (FreshlyFinished env wf ctx rawInput (.error e)) τ :=
      since.mono fun added announced hPrepared => Or.inl
        ⟨e, hPrepared.1.symm, rfl, hPrepared.2.2 ⟨e, rfl⟩, hPrepared.2.1.2⟩
    refine Ensures.done fun w drifts => ⟨?_, time, v, trail, hFailed.drifts drifts⟩
    refine ((since.drifts drifts).mono fun _ _ hPrepared => hPrepared.2.1.1).after trail ?_
    exact fun _ _ => Course.underway

/-- So does a resumed one. -/
theorem resumedBody_since {fuel rounds : Nat} {state : ResumeState}
    (hDraws : v.Draws (· ≠ ctx.executionId)) (since : Since ctx.executionId v (Pending N) σ) :
    Ensures allowed (Since ctx.executionId v (OnCourse (Announced wf ctx.executionId N)))
      (fun outcome => Since ctx.executionId v (Finished wf ctx.executionId N outcome))
      (executeBody env (runner env fuel) rounds wf ctx rawInput startedAt (some state)).run σ := by
  have hBody : executeBody env (runner env fuel) rounds wf ctx rawInput startedAt (some state) = (do
      setContext .entry state.context
      let result ← outcome (runScopes env (runner env fuel) rounds wf ctx startedAt
        state.nextIndex state.input)
      conclude env wf ctx startedAt result) := by
    simp only [executeBody, enterExecution, bind_assoc, pure_bind]
  rw [hBody]
  refine Since.lift (setContext_since hDraws since) Pending.announced fun _ τ since => ?_
  exact scopes_since hDraws since

end Bodies

section Launches

variable {rawInput input : Value} {fuel rounds : Nat}

/-- An execution whose id is known. -/
def launch (env : RuntimeInner) (r : Runner) (fuel : Nat) (wf : CompiledWorkflow)
    (rawInput : Value) (executionId : String) (resume : Option ResumeState) : Run Value := do
  let startedAt ← epochSeconds
  let ctx := executionContext env wf executionId rawInput startedAt
  @Program.region engineSig _ _ TaskLocal.initial
    (Execution.fresh wf executionId ((resume.map (·.nextIndex)).getD 0))
    (executeBody env r fuel wf ctx rawInput startedAt resume).run Program.done

/-- An execution is launched under the id that it has drawn, or been given. -/
theorem executeWith_eq (options : ExecutionOptions) :
    executeWith env r fuel wf rawInput options =
      (liftM options.identity : Run String) >>= fun executionId =>
        launch env r fuel wf rawInput executionId options.resume := rfl

/-- What has become of the world when a fresh execution has returned. -/
def Launched (env : RuntimeInner) (wf : CompiledWorkflow) (rawInput : Value) (executionId : String)
    (v : World) (outcome : Except WorkflowError Value) (τ : EngineState) : Prop :=
  ∃ startedAt time w, v.Trail executionId w []
      [(some executionId, workflowStarted wf executionId time)] ∧
    Since executionId w (FreshlyFinished env wf
      (executionContext env wf executionId rawInput startedAt) rawInput outcome) τ

/-- What has become of the world does not change as time goes by, -/
theorem Launched.drifts {outcome : Except WorkflowError Value} {w : World}
    (launched : Launched env wf rawInput executionId v outcome σ)
    (drifts : Drifts allowed σ.world w) :
    Launched env wf rawInput executionId v outcome { σ with world := w } := by
  obtain ⟨startedAt, time, x, trail, since⟩ := launched
  exact ⟨startedAt, time, x, trail, since.drifts drifts⟩

/-- A request whose reply does not matter. -/
theorem epochSeconds_ensures {I : EngineState → Prop} {Q : Int → EngineState → Prop}
    (hDrift : ∀ time w, Drifts allowed σ.world w →
      I { σ with world := w } ∧ Q time { σ with world := w }) :
    Ensures allowed I Q epochSeconds σ := by
  apply ask_ensures (a := .epochSeconds)
  intro w drifts
  refine ⟨(hDrift 0 w drifts).1, ?_⟩
  rintro time τ hPerform x later
  cases hPerform
  exact hDrift _ x (drifts.trans later)

/-- and it is so after every execution that returns, on whatever schedule. -/
theorem launch_ensures (hDraws : σ.world.Draws (· ≠ executionId)) :
    Ensures allowed (Since executionId σ.world fun added _ => Course added)
      (fun outcome => Launched env wf rawInput executionId σ.world outcome)
      (launch env (runner env fuel) rounds wf rawInput executionId none).run σ := by
  have hNone : Course [] := Course.underway fun _ hMem => nomatch hMem
  apply Ensures.lift
  apply epochSeconds_ensures
  intro startedAt w drifts
  have waited : σ.world.Trail executionId w [] [] := .of_drifts drifts
  refine ⟨⟨[], [], waited, hNone⟩, ?_⟩
  refine Ensures.region (J := Since executionId σ.world fun added _ => Course added) ?_
    fun τ since => since
  have untouched : Untouched (@State.enter engineSig { σ with world := w }
      TaskLocal.initial (Execution.fresh wf executionId 0)) := ⟨rfl, rfl, rfl⟩
  let ctx := executionContext env wf executionId rawInput startedAt
  have hBody : Ensures (allowed ∘ Handler.Choice.within)
      (Since executionId w fun added _ => Course added)
      (fun outcome τ => ∃ time v, w.Trail executionId v []
          [(some executionId, workflowStarted wf executionId time)] ∧
        Since executionId v (FreshlyFinished env wf ctx rawInput outcome) τ)
      (executeBody env (runner env fuel) rounds wf ctx rawInput startedAt none).run
      (@State.enter engineSig { σ with world := w } TaskLocal.initial
        (Execution.fresh wf executionId 0)) :=
    freshBody_ensures untouched (waited.draws hDraws)
  have hCourse : ∀ τ : EngineState, Since executionId w (fun added _ => Course added) τ →
      Since executionId σ.world (fun added _ => Course added) τ :=
    fun τ since => since.after waited fun _ _ hOps => hOps
  refine hBody.mono hCourse ?_
  rintro outcome τ since ⟨time, v, trail, hFinished⟩
  have hLaunched : Launched env wf rawInput executionId σ.world outcome τ :=
    ⟨startedAt, time, v, by simpa using waited.trans trail, hFinished⟩
  apply Ensures.done
  intro x later
  have hLater : Since executionId σ.world (fun added _ => Course added) { τ with world := x } :=
    (hCourse τ since).drifts later
  exact ⟨hLater, hLaunched.drifts later⟩

/-- A fresh execution has drawn an id of its own, and then run its course. -/
def Ran (env : RuntimeInner) (wf : CompiledWorkflow) (rawInput : Value) (v : World)
    (outcome : Except WorkflowError Value) (τ : EngineState) : Prop :=
  ∃ executionId w, w.published = v.published ∧
    Launched env wf rawInput executionId w outcome τ

/-- The id that was drawn stays the one that was drawn. -/
theorem Ran.drifts {outcome : Except WorkflowError Value} {w : World}
    (ran : Ran env wf rawInput v outcome σ) (drifts : Drifts allowed σ.world w) :
    Ran env wf rawInput v outcome { σ with world := w } := by
  obtain ⟨executionId, x, hPublished, launched⟩ := ran
  exact ⟨executionId, x, hPublished, launched.drifts drifts⟩

/-- What can be told of a run afterwards: its first event, and the trail since then. -/
theorem Ran.report {w : World} {outcome : Except WorkflowError Value}
    (ran : Ran env wf rawInput w outcome σ) :
    ∃ executionId startedAt time v added events,
      publishedSince w σ.world = (some executionId, workflowStarted wf executionId time) :: events ∧
      runId w σ.world = some executionId ∧ World.Trail executionId v σ.world added events ∧
      FreshlyFinished env wf (executionContext env wf executionId rawInput startedAt) rawInput
        outcome added (announcements executionId events) := by
  obtain ⟨executionId, x, hPublished, startedAt, time, v, trail, added, events, hTrail, hFinished⟩ :=
    ran
  have hSince : publishedSince w σ.world =
      (some executionId, workflowStarted wf executionId time) :: events := by
    rw [publishedSince, hTrail.published, trail.published, hPublished, List.append_assoc,
      List.drop_left]
    rfl
  refine ⟨executionId, startedAt, time, v, added, events, hSince, ?_, hTrail, hFinished⟩
  rw [runId, hSince]
  rfl

/-- What goes on around the execution publishes nothing in its name, -/
theorem drifts_published {w : World} (drifts : Drifts allowed v w) : w.published = v.published := by
  have trail : v.Trail "" w [] [] := .of_drifts drifts
  simpa using trail.published

/-- and does not choose the ids. -/
theorem drifts_uuid {w : World} (drifts : Drifts allowed v w) : w.uuid = v.uuid := by
  have moves : v.Moves (fun _ => True) (fun _ => True) w := .of_drifts drifts
  exact moves.uuid

/-- An id that has been drawn is not drawn again. -/
theorem draws_after (hInjective : Function.Injective v.uuid) :
    World.Draws (· ≠ v.uuid v.uuids) { v with uuids := v.uuids + 1 } := by
  intro k hLater hSame
  have hIndex : k = v.uuids := hInjective hSame
  have hLater' : v.uuids + 1 ≤ k := hLater
  omega

/-- An execution with an id of its own has run its course when it returns. -/
theorem executeWith_ensures (hInjective : Function.Injective v.uuid)
    (hUuid : σ.world.uuid = v.uuid) (hPublished : σ.world.published = v.published) :
    Ensures allowed (fun _ => True) (fun outcome => Ran env wf rawInput v outcome)
      (executeWith env (runner env fuel) rounds wf rawInput ExecutionOptions.default).run σ := by
  rw [executeWith_eq]
  apply Ensures.lift
  apply ask_ensures (a := .newUuid)
  intro w drifts
  refine ⟨trivial, ?_⟩
  rintro executionId τ hPerform x later
  cases hPerform
  have hDraws : World.Draws (· ≠ w.uuid w.uuids) { w with uuids := w.uuids + 1 } := by
    apply draws_after
    rw [drifts_uuid drifts, hUuid]
    exact hInjective
  have hLater := ((World.Trail.of_drifts later).draws hDraws : x.Draws (· ≠ w.uuid w.uuids))
  refine ⟨trivial, (launch_ensures hLater).mono (fun _ _ => trivial) ?_⟩
  intro outcome υ _ launched
  have hSame := (drifts_published later).trans ((drifts_published drifts).trans hPublished)
  exact ⟨w.uuid w.uuids, x, hSame, launched⟩

/-- Whether a run may be cut off: by a panic of its task, by the timeout of its workflow,
or by its cancellation token. -/
def Cuts (allowed : engine.Choice → Prop) : Prop :=
  allowed (.turn .expire) ∨ allowed (.turn (.inner .expire)) ∨
    allowed (.turn (.inner (.inner .expire)))

/-- An execution that is cut off returns an error, and another one has run its course. -/
def CutOrRan (allowed : engine.Choice → Prop) (env : RuntimeInner) (wf : CompiledWorkflow)
    (rawInput : Value) (v : World) (outcome : Except WorkflowError Value) (τ : EngineState) : Prop :=
  (Cuts allowed ∧ ∃ e, outcome = .error e) ∨ Ran env wf rawInput v outcome τ

/-- A result that was already reported is reported. -/
theorem CutOrRan.done {outcome : Except WorkflowError Value}
    {other : engine.Choice → Prop} (either : CutOrRan other env wf rawInput v outcome σ) :
    Ensures allowed (fun _ => True) (fun outcome => CutOrRan other env wf rawInput v outcome)
      (Program.done outcome) σ := by
  apply Ensures.done
  intro w drifts
  exact ⟨trivial, either.imp id fun ran => ran.drifts drifts⟩

/-- A race which nothing but an alarm can cut off. -/
theorem race_ensures {alarm : Alarm} {body : Run Value} {cut : WorkflowError}
    {next : Option (Except WorkflowError Value) → Future (Except WorkflowError Value)}
    {other : engine.Choice → Prop} (hSome : ∀ result, next (some result) = Program.done result)
    (hNone : next none = Program.done (.error cut))
    (hBody : Ensures (allowed ∘ Handler.Choice.within) (fun _ => True)
      (fun outcome => CutOrRan other env wf rawInput v outcome) body.run σ)
    (hCut : allowed (.turn .expire) → Cuts other) :
    Ensures allowed (fun _ => True) (fun outcome => CutOrRan other env wf rawInput v outcome)
      (@Program.race engineSig _ _ alarm body.run next) σ := by
  apply Ensures.race
  · refine hBody.mono (fun _ _ => trivial) fun result _ _ either => ?_
    rw [hSome]
    exact either.done
  · intro hExpire τ _
    rw [hNone]
    exact CutOrRan.done (Or.inl ⟨hCut hExpire, cut, rfl⟩)

/-- Whoever gives up an execution on a cancellation returns an error, and leaves it cut off. -/
theorem untilCancelled_ensures {body : Run Value} {other : engine.Choice → Prop}
    (hBody : ∀ w, Drifts allowed σ.world w → Ensures (allowed ∘ Handler.Choice.within)
      (fun _ => True) (fun outcome => CutOrRan other env wf rawInput v outcome) body.run
      { σ with world := w })
    (hCut : allowed (.turn .expire) → Cuts other) :
    Ensures allowed (fun _ => True) (fun outcome => CutOrRan other env wf rawInput v outcome)
      (untilCancelled body).run σ := by
  apply Ensures.lift
  apply ask_ensures (a := .notified)
  intro w drifts
  refine ⟨trivial, ?_⟩
  rintro epoch τ hPerform x later
  cases hPerform
  exact ⟨trivial, race_ensures (fun _ => rfl) rfl (hBody x (drifts.trans later)) hCut⟩

/-- The run below the handle is cut off by the timeout of its workflow or by its token. -/
theorem runWithCancel_ensures {other : engine.Choice → Prop} (hInjective : Function.Injective v.uuid)
    (hUuid : σ.world.uuid = v.uuid) (hPublished : σ.world.published = v.published)
    (hOuter : allowed (.turn .expire) → Cuts other)
    (hInner : allowed (.turn (.inner .expire)) → Cuts other) :
    Ensures allowed (fun _ => True) (fun outcome => CutOrRan other env wf rawInput v outcome)
      (runWithCancel env fuel wf rawInput).run σ := by
  have hExecution : ∀ (inner later : engine.Choice → Prop) (w : World), Drifts inner σ.world w →
      Ensures later (fun _ => True) (fun outcome => CutOrRan other env wf rawInput v outcome)
        (executeWith env (runner env fuel) fuel wf rawInput ExecutionOptions.default).run
        { σ with world := w } := by
    intro inner later w drifts
    refine Ensures.mono (executeWith_ensures hInjective ?_ ?_) (fun _ _ => trivial) fun _ _ _ => Or.inr
    · exact (drifts_uuid drifts).trans hUuid
    · exact (drifts_published drifts).trans hPublished
  unfold runWithCancel
  split
  · apply race_ensures (fun _ => rfl) rfl
    · exact untilCancelled_ensures (fun w drifts => hExecution _ _ w drifts) hInner
    · exact hOuter
  · exact untilCancelled_ensures (fun w drifts => hExecution _ _ w drifts) hOuter

/-- What a run of `execute` has done when its handle reports a result. A panic of the
task is the outermost way in which it may be cut off. -/
theorem execute_ensures (hInjective : Function.Injective v.uuid) (hUuid : σ.world.uuid = v.uuid)
    (hPublished : σ.world.published = v.published) :
    Ensures allowed (fun _ => True) (fun outcome => CutOrRan allowed env wf rawInput v outcome)
      (execute env fuel wf rawInput).run σ := by
  apply Ensures.lift
  apply ask_ensures (a := .newUuid)
  intro w drifts
  refine ⟨trivial, ?_⟩
  rintro handle τ hPerform x later
  cases hPerform
  refine ⟨trivial, Ensures.lift (ask_ensures (a := .spawned) ?_)⟩
  intro y drifts'
  refine ⟨trivial, ?_⟩
  rintro reply υ hPerform z later'
  cases hPerform
  have hTask : Ensures (allowed ∘ Handler.Choice.within) (fun _ => True)
      (fun outcome => CutOrRan allowed env wf rawInput v outcome)
      (runWithCancel env fuel wf rawInput).run { σ with world := z } := by
    apply runWithCancel_ensures hInjective
    · have hLater := (drifts_uuid later').trans ((drifts_uuid drifts').trans (drifts_uuid later))
      exact hLater.trans ((drifts_uuid drifts).trans hUuid)
    · have hLater := (drifts_published later').trans
        ((drifts_published drifts').trans (drifts_published later))
      exact hLater.trans ((drifts_published drifts).trans hPublished)
    · exact fun hTimer => Or.inr (Or.inl hTimer)
    · exact fun hToken => Or.inr (Or.inr hToken)
  exact ⟨trivial, race_ensures (fun _ => rfl) rfl hTask Or.inl⟩

end Launches

end OwsRuntime
