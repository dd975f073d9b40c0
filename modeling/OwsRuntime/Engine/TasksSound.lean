import OwsRuntime.Engine.ContextSound

/-! Every kind of task keeps the protocol of the engine, when what it runs in
turn does. -/
namespace OwsRuntime

open Async Discipline

/-- What the tasks rely on in the functions that the engine hands them. -/
structure Runner.Sound (r : Runner) : Prop where
  scope : ∀ {wf : CompiledWorkflow} {σ : EngineState} (ctx : ExecContext)
    {tasks : List CompiledTask} (input : Value), Ready wf σ → wf.HasScope tasks →
    OwsRuntime.Sound σ (r.scope wf ctx tasks input)
  task : ∀ {wf : CompiledWorkflow} {σ : EngineState} (ctx : ExecContext) {task : CompiledTask}
    (input : Value) {ticket : Nat}, Ready wf σ → wf.HasTask task →
    Opened σ.shared.trace ticket → OwsRuntime.Sound σ (r.task wf ctx task input ticket)
  workflow : ∀ (wf : CompiledWorkflow) {σ : EngineState} (input : Value),
    OwsRuntime.Sound σ (r.workflow wf input)

variable {wf : CompiledWorkflow} {σ : EngineState} {env : RuntimeInner} {r : Runner}
  {ctx : ExecContext} {exprCtx : ExpressionContext}

/-- A program without rounds left makes requests that owe nothing. -/
theorem outOfFuel_sound {α : Type} : Sound σ (outOfFuel : Run α) := by
  refine FutureSound.mk (FutureSound.seq (ask_sound .outOfFuel fun _ => trivial) ?_)
  intro never
  exact nomatch never

/-- A set task evaluates its map or its text over the variables of the task. -/
theorem taskSet_sound (ready : Ready wf σ) (hCtx : exprCtx.Grounded σ.shared.trace)
    (values : SetDef) : Sound σ (taskSet env values exprCtx) := by
  cases values with
  | expression source => exact evalInterpolation_sound ready env (.string source) hCtx
  | map entries =>
      exact Sound.seq (interpolateEntries_sound ready env hCtx entries) fun _ _ _ => Sound.pure

/-- The condition of a loop reads the context anew in each round. -/
theorem whileHolds_sound (ready : Ready wf σ) (condition : Option String) (bodyInput : Value) :
    Sound σ (whileHolds env ctx condition bodyInput) := by
  cases condition with
  | none => exact Sound.pure
  | some source =>
      apply Sound.bind (HoldsOk.lift (variables_holds ready ctx _ _ _))
      intro vars τ moved hVars
      exact Sound.seq (evalExpr_sound (ready.mono moved) env _ _ hVars _) fun _ _ _ => Sound.pure

/-- The iterations of a loop. The induction is on the items left: each one binds its variables, and
runs the body as a scope entered at its start. -/
theorem forItems_sound (hRunner : r.Sound) (ready : Ready wf σ) (loop : ForDef)
    {body : List CompiledTask} (hBody : wf.HasScope body) (eachName atName : String)
    (items : List Value) (index : Nat) (bodyInput output : Value) :
    Sound σ (forItems env r wf ctx loop body eachName atName index items bodyInput output) := by
  induction items generalizing σ index bodyInput output with
  | nil => exact Sound.pure
  | cons item rest ih =>
      rw [forItems]
      apply Sound.seq (failIfCancelled_sound ctx)
      intro _ τ₁ moved₁
      apply Sound.seq (do_sound (.bindVar eachName item) fun _ => trivial)
      intro _ τ₂ moved₂
      apply Sound.seq (do_sound (.bindVar atName (.ofNat index)) fun _ => trivial)
      intro _ τ₃ moved₃
      have ready₃ := ready.mono ((moved₁.trans moved₂).trans moved₃)
      apply Sound.seq (whileHolds_sound ready₃ _ _)
      intro holds τ₄ moved₄
      split
      · have ready₄ := ready₃.mono moved₄
        apply Sound.seq (hRunner.scope ctx bodyInput ready₄ hBody)
        intro bodyOutput τ₅ moved₅
        apply Sound.seq (do_sound .loadEnded fun _ => trivial)
        intro ended τ₆ moved₆
        split
        · exact Sound.pure
        · exact ih (ready₄.mono (moved₅.trans moved₆)) _ _ _
      · exact Sound.pure

/-- A for task evaluates its items and then iterates over them. -/
theorem taskFor_sound (hRunner : r.Sound) (ready : Ready wf σ)
    (hCtx : exprCtx.Grounded σ.shared.trace) (loop : ForDef) {body : List CompiledTask}
    (hBody : wf.HasScope body) (taskInput : Value) :
    Sound σ (taskFor env r wf ctx loop body taskInput exprCtx) := by
  unfold taskFor
  apply Sound.seq (evalExpr_sound ready env _ _ hCtx.variables _)
  intro collection τ₁ moved₁
  apply Sound.seq Sound.ofExcept
  intro items τ₂ moved₂
  have ready₂ := ready.mono (moved₁.trans moved₂)
  apply Sound.seq (forItems_sound hRunner ready₂ loop hBody _ _ _ _ _ _)
  intro output τ₃ _
  apply Sound.seq (do_sound (.unbindVar loop.each) fun _ => trivial)
  intro _ τ₄ _
  exact Sound.seq (do_sound _ fun _ => trivial) fun _ τ₅ _ => Sound.pure

/-- What a branch came to is noted as it was. -/
theorem noteBranch_sound (task : CompiledTask) (exec : TaskExec) :
    FutureSound σ (noteBranch task exec) := by
  unfold noteBranch
  split
  · exact note_sound ⟨rfl, fun h => by cases h⟩ fun _ _ _ => trivial
  · exact FutureSound.pure

/-- A branch of a fork runs its task with storage of its own, which starts as a fresh one does. -/
theorem runBranch_sound (hRunner : r.Sound) (ready : Ready wf σ) {task : CompiledTask}
    (hTask : wf.HasTask task) (input : Value) {ticket : Nat}
    (hTicket : Opened σ.shared.trace ticket) :
    FutureSound σ (runBranch r wf ctx task input ticket) := by
  apply FutureSound.seq (ask_sound .spawned fun _ => trivial)
  intro _ τ moved
  have sound := hRunner.task ctx input (ready.mono moved) hTask (hTicket.mono moved.shared.trace)
  apply FutureSound.seq sound.run
  intro result _ _
  cases result with
  | ok exec => exact FutureSound.seq (noteBranch_sound task exec) fun _ _ _ => FutureSound.pure
  | error e => exact FutureSound.pure

/-- The branches of a fork run next to each other. Each of them keeps the protocol whatever the
others do, so all of them together do. -/
theorem joinBranches_sound (hRunner : r.Sound) (ready : Ready wf σ) {branches : List CompiledTask}
    (hBranches : ∀ task ∈ branches, wf.HasTask task) (input : Value) {ticket : Nat}
    (hTicket : Opened σ.shared.trace ticket) (need : Nat) :
    FutureSound σ (joinBranches r wf ctx branches input ticket need) := by
  apply FutureSound.bind getLocal_holds
  intro loc τ moved hLoc
  refine Holds.par hLoc (fun i => ?_) (fun i => ?_) fun finished => ?_
  · exact fun h => by cases h
  · exact runBranch_sound hRunner (ready.mono moved) (hBranches _ (List.get_mem _ i)) input
      (hTicket.mono moved.shared.trace)
  · exact Holds.done fun _ _ _ => trivial

/-- A fork task opens its position before the branches start, and joins them. -/
theorem taskFork_sound (hRunner : r.Sound) (ready : Ready wf σ) {branches : List CompiledTask}
    (hBranches : ∀ task ∈ branches, wf.HasTask task) (compete : Bool) (input : Value)
    {position : Nat} (hPosition : Opened σ.shared.trace position) :
    Sound σ (taskFork env r wf ctx branches compete input position) := by
  have hJoin : ∀ need, Sound σ (liftM (joinBranches r wf ctx branches input position need)) :=
    fun need => Sound.lift (joinBranches_sound hRunner ready hBranches input hPosition need)
  unfold taskFork
  split
  · exact Sound.pure
  · split
    · exact Sound.seq (hJoin 1) fun _ _ _ => Sound.ofExcept
    · exact Sound.seq (hJoin branches.length) fun _ _ _ => Sound.ofExcept

/-- A condition is evaluated over grounded variables, or is absent. -/
theorem conditionHolds_sound (ready : Ready wf σ) {vars : Map}
    (hVars : Grounded σ.shared.trace vars) (input : Value) (absent : Bool)
    (condition : Option String) : Sound σ (conditionHolds env input vars absent condition) := by
  cases condition with
  | none => exact Sound.pure
  | some source =>
      exact Sound.seq (evalExpr_sound ready env _ _ hVars _) fun _ _ _ => Sound.pure

/-- A switch chooses the directive of one of its cases, if any. -/
theorem matchCases_holds (ready : Ready wf σ) {vars : Map} (hVars : Grounded σ.shared.trace vars)
    (taskInput : Value) (cases_ : List SwitchCase) :
    protocol.HoldsOk σ (matchCases env taskInput vars cases_) fun directive _ =>
      ∀ d, directive = some d → d ∈ cases_.map SwitchCase.directive := by
  induction cases_ generalizing σ with
  | nil => exact HoldsOk.pure fun _ _ _ d h => by cases h
  | cons case rest ih =>
      rw [matchCases]
      refine HoldsOk.bind (conditionHolds_sound ready hVars taskInput true case.when) ?_
      intro matched τ moved _ _
      split
      · apply HoldsOk.pure
        intro _ _ _ d h
        cases h
        exact List.mem_cons_self
      · refine (ih (ready.mono moved) (ready.grounded hVars moved)).weaken ?_
        exact fun _ _ _ _ hMem d h => List.mem_cons_of_mem _ (hMem d h)

/-- So are the two conditions of a catch clause or a retry policy. -/
theorem conditionsHold_sound (ready : Ready wf σ) (hCtx : exprCtx.Grounded σ.shared.trace)
    (when exceptWhen : Option String) : Sound σ (conditionsHold env when exceptWhen exprCtx) := by
  unfold conditionsHold
  apply Sound.bind (HoldsOk.lift getLocal_holds)
  intro loc τ moved hLoc
  have hVars : Grounded τ.shared.trace (Map.extend exprCtx.asVariableMap loc.loopVars) :=
    (hCtx.mono ready moved).variables.extend hLoc.bound
  have readyτ := ready.mono moved
  apply Sound.seq (conditionHolds_sound readyτ hVars _ _ _)
  intro wanted υ hMoved
  split
  · refine Sound.seq ?_ fun _ _ _ => Sound.pure
    exact conditionHolds_sound (readyτ.mono hMoved) (readyτ.grounded hVars hMoved) _ _ _
  · exact Sound.pure

/-- Whether an error is caught is decided over the variables of the task, -/
theorem catchMatches_sound (ready : Ready wf σ) (hCtx : exprCtx.Grounded σ.shared.trace)
    (catch_ : CatchDef) (err : WorkflowError) : Sound σ (catchMatches env catch_ err exprCtx) := by
  unfold catchMatches
  split
  · exact conditionsHold_sound ready hCtx _ _
  · exact Sound.pure

/-- and so is whether it is tried again. -/
theorem retryable_sound (ready : Ready wf σ) (hCtx : exprCtx.Grounded σ.shared.trace)
    (retry : Option RetryPolicyDef) : Sound σ (retryable env retry exprCtx) := by
  cases retry with
  | none => exact Sound.pure
  | some policy => exact conditionsHold_sound ready hCtx _ _

/-- A delay asks for a random number at most. -/
theorem computeDelay_sound (retry : RetryPolicyDef) (attempt : Nat) :
    FutureSound σ (computeDelay retry attempt) := by
  unfold computeDelay
  split
  · exact FutureSound.pure
  · exact FutureSound.seq (ask_sound _ fun _ => trivial) fun _ _ _ => FutureSound.pure

/-- A wait ends with its time, or it notices a cancellation. -/
theorem waitWithCancel_sound (duration : Nat) : Sound σ (waitWithCancel ctx duration) := by
  apply Sound.seq (failIfCancelled_sound ctx)
  intro _ _ _
  apply Sound.seq (do_sound .notified fun _ => trivial)
  intro epoch _ _
  apply Sound.seq (do_sound (.sleep duration epoch) fun _ => trivial)
  intro woken _ _
  split
  · exact stop_sound ctx
  · exact Sound.pure

/-- The handler of a try task is a scope of the workflow. -/
theorem recover_sound (hRunner : r.Sound) (ready : Ready wf σ)
    {handler : Option (List CompiledTask)} (hHandler : ∀ scope ∈ handler, wf.HasScope scope)
    (taskInput : Value) : Sound σ (tryLoop.recover r wf ctx handler taskInput) := by
  cases handler with
  | none => exact Sound.pure
  | some scope => exact hRunner.scope ctx taskInput ready (hHandler scope rfl)

/-- A round of a `try` task, when the rounds after it are sound. -/
theorem tryRound_sound (hRunner : r.Sound) (ready : Ready wf σ)
    (hCtx : exprCtx.Grounded σ.shared.trace) {body : List CompiledTask} (hBody : wf.HasScope body)
    (catch_ : CatchDef) {handler : Option (List CompiledTask)}
    (hHandler : ∀ scope ∈ handler, wf.HasScope scope) (taskInput : Value)
    (remaining attempt : Nat)
    (hAgain : ∀ left τ, remaining = left + 1 → protocol.Moved σ τ →
      Sound τ (tryLoop env r wf ctx body catch_ handler taskInput exprCtx left (attempt + 1))) :
    Sound σ (tryLoop env r wf ctx body catch_ handler taskInput exprCtx remaining attempt) := by
  rw [tryLoop.eq_def]
  apply Sound.seq (failIfCancelled_sound ctx)
  intro _ τ₁ moved₁
  have sound := hRunner.scope ctx taskInput (ready.mono moved₁) hBody
  apply Sound.seq sound.outcome
  intro result τ₂ moved₂
  cases result with
  | ok output => exact Sound.pure
  | error err =>
      apply Sound.seq (do_sound (.bindVar (catch_.as_.getD "error") err.toProblemJson) fun _ => trivial)
      intro _ τ₃ moved₃
      have moved₁₃ := (moved₁.trans moved₂).trans moved₃
      refine Sound.seq (catchMatches_sound (ready.mono moved₁₃) (hCtx.mono ready moved₁₃) _ _) ?_
      intro caught τ₄ moved₄
      have moved₁₄ := moved₁₃.trans moved₄
      split
      · refine Sound.seq (retryable_sound (ready.mono moved₁₄) (hCtx.mono ready moved₁₄) _) ?_
        intro again τ₅ moved₅
        have moved₁₅ := moved₁₄.trans moved₅
        have recovers : Sound τ₅ (tryLoop.recover r wf ctx handler taskInput) :=
          recover_sound hRunner (ready.mono moved₁₅) hHandler taskInput
        split
        · split
          · apply Sound.seq (Sound.lift (computeDelay_sound _ _))
            intro delay τ₆ moved₆
            apply Sound.seq (waitWithCancel_sound delay)
            intro _ τ₇ moved₇
            exact hAgain _ τ₇ rfl ((moved₁₅.trans moved₆).trans moved₇)
          · exact recovers
        · exact recovers
      · exact Sound.throw

/-- The attempts of a try task. The induction is on the attempts left, and each starts the body from
its beginning. -/
theorem taskTry_sound (hRunner : r.Sound) (ready : Ready wf σ)
    (hCtx : exprCtx.Grounded σ.shared.trace) {body : List CompiledTask} (hBody : wf.HasScope body)
    (catch_ : CatchDef) {handler : Option (List CompiledTask)}
    (hHandler : ∀ scope ∈ handler, wf.HasScope scope) (taskInput : Value) :
    Sound σ (taskTry env r wf ctx body catch_ handler taskInput exprCtx) := by
  have hLoop : ∀ (remaining attempt : Nat) (τ : EngineState), protocol.Moved σ τ → Sound τ
      (tryLoop env r wf ctx body catch_ handler taskInput exprCtx remaining attempt) := by
    intro remaining
    induction remaining with
    | zero =>
        intro attempt τ moved
        refine tryRound_sound hRunner (ready.mono moved) (hCtx.mono ready moved) hBody catch_
          hHandler taskInput 0 attempt fun left υ hLeft _ => ?_
        omega
    | succ remaining ih =>
        intro attempt τ moved
        refine tryRound_sound hRunner (ready.mono moved) (hCtx.mono ready moved) hBody catch_
          hHandler taskInput (remaining + 1) attempt fun left υ hLeft hMoved => ?_
        obtain rfl : remaining = left := by omega
        exact ih (attempt + 1) υ (moved.trans hMoved)
  intro τ moved good
  exact hLoop _ 0 τ moved τ (Moved.refl good.inv) good

/-- The attributes of an event are evaluated in their order. The induction is on those left. -/
theorem emitAttributes_sound (ready : Ready wf σ) (hCtx : exprCtx.Grounded σ.shared.trace)
    (attributes : Map) (event : CloudEvent) :
    Sound σ (emitAttributes env exprCtx attributes event) := by
  induction attributes generalizing σ event with
  | nil => exact Sound.pure
  | cons entry rest ih =>
      apply Sound.seq (deepInterpolate_sound env entry.2 ready hCtx)
      intro resolved τ moved
      exact ih (ready.mono moved) (hCtx.mono ready moved) _

/-- An event without an id gets one, -/
theorem withId_sound (event : CloudEvent) : FutureSound σ (withId event) := by
  unfold withId
  split
  · exact FutureSound.seq (ask_sound .newUuid fun _ => trivial) fun _ _ _ => FutureSound.pure
  · exact FutureSound.pure

/-- and one without a time gets that, too. -/
theorem withTime_sound (event : CloudEvent) : FutureSound σ (withTime env event) := by
  unfold withTime
  split
  · exact FutureSound.seq (ask_sound .epochSeconds fun _ => trivial) fun _ _ _ => FutureSound.pure
  · exact FutureSound.pure

/-- To publish an event owes nothing. -/
theorem publish_sound (event : EventMessage) : Sound σ (publish event) :=
  FutureSound.mk (ask_sound _ fun _ => trivial)

/-- So an emit task only evaluates and publishes. -/
theorem taskEmit_sound (ready : Ready wf σ) (hCtx : exprCtx.Grounded σ.shared.trace)
    (attributes : Map) : Sound σ (taskEmit env wf attributes exprCtx) := by
  apply Sound.seq (emitAttributes_sound ready hCtx attributes _)
  intro event _ _
  apply Sound.seq (Sound.lift (withId_sound event))
  intro event _ _
  split
  · exact Sound.throw
  · apply Sound.seq (Sound.lift (withTime_sound event))
    intro event _ _
    exact Sound.seq (publish_sound _) fun _ _ _ => Sound.pure

/-- The correlation keys of a filter are evaluated one by one. The induction is on the keys. -/
theorem correlateKeys_sound (ready : Ready wf σ) {vars : Map}
    (hVars : Grounded σ.shared.trace vars) (event : EventMessage) (keys : List CorrelationDef)
    (trial : Map) : FutureSound σ (correlateKeys env event vars keys trial) := by
  induction keys generalizing σ trial with
  | nil => exact FutureSound.pure
  | cons key rest ih =>
      rw [correlateKeys]
      apply FutureSound.seq (evalExpr_sound ready env _ _ hVars _).run
      intro result τ moved
      have readyτ := ready.mono moved
      have hVarsτ := ready.grounded hVars moved
      split
      · exact FutureSound.pure
      · split
        · apply FutureSound.seq (evalExpr_sound readyτ env _ _ hVarsτ _).run
          intro want υ hMoved
          split
          · exact FutureSound.pure
          · split
            · exact ih (readyτ.mono hMoved) (readyτ.grounded hVarsτ hMoved) _
            · exact FutureSound.pure
        · split
          · split
            · exact ih readyτ hVarsτ _
            · exact FutureSound.pure
          · exact ih readyτ hVarsτ _

/-- An event is held against a filter by its attributes and its keys, -/
theorem filterMatches_sound (ready : Ready wf σ) {vars : Map}
    (hVars : Grounded σ.shared.trace vars) (filter : CompiledListenFilter) (event : EventMessage)
    (group : Map) : FutureSound σ (filterMatches env filter event vars group) := by
  unfold filterMatches
  split
  · exact correlateKeys_sound ready hVars event _ _
  · exact FutureSound.pure

/-- and against several of them up to the first that fits. -/
theorem matchesAny_sound (ready : Ready wf σ) {vars : Map} (hVars : Grounded σ.shared.trace vars)
    (event : EventMessage) (filters : List CompiledListenFilter) (trial : Map) :
    FutureSound σ (matchesAny env event vars filters trial) := by
  induction filters generalizing σ with
  | nil => exact FutureSound.pure
  | cons f rest ih =>
      rw [matchesAny]
      apply FutureSound.seq (filterMatches_sound ready hVars f event trial)
      intro found τ moved
      split
      · exact FutureSound.pure
      · exact ih (ready.mono moved) (ready.grounded hVars moved)

/-- The filters that an event satisfies are marked one by one. The induction is on the filters. -/
theorem markSatisfied_sound (ready : Ready wf σ) {vars : Map}
    (hVars : Grounded σ.shared.trace vars) (event : EventMessage)
    (filters : List (CompiledListenFilter × Bool)) (group : Map) :
    FutureSound σ (markSatisfied env event vars filters group) := by
  induction filters generalizing σ group with
  | nil => exact FutureSound.pure
  | cons entry rest ih =>
      obtain ⟨f, satisfied⟩ := entry
      cases satisfied with
      | true =>
          rw [markSatisfied]
          exact FutureSound.seq (ih ready hVars group) fun _ _ _ => FutureSound.pure
      | false =>
          rw [markSatisfied]
          refine FutureSound.seq (filterMatches_sound ready hVars f event group) ?_
          intro found τ moved
          have rest := fun group => ih (ready.mono moved) (ready.grounded hVars moved) group
          split
          · exact FutureSound.seq (rest _) fun _ _ _ => FutureSound.pure
          · exact FutureSound.seq (rest _) fun _ _ _ => FutureSound.pure

/-- An event is accepted by what a listen task still needs, -/
theorem accept_sound (ready : Ready wf σ) {vars : Map} (hVars : Grounded σ.shared.trace vars)
    (s : GatherState) (need : ListenNeed) (event : EventMessage) :
    FutureSound σ (s.accept env need vars event) := by
  cases need with
  | one =>
      refine FutureSound.seq ?_ fun matched _ _ => ?_
      · unfold GatherState.matchesOne
        split
        · exact FutureSound.pure
        · exact matchesAny_sound ready hVars event _ _
      · split <;> exact FutureSound.pure
  | all count =>
      exact FutureSound.seq (markSatisfied_sound ready hVars event _ _) fun _ _ _ =>
        FutureSound.pure

/-- and may end the listening. -/
theorem acceptUntil_sound (ready : Ready wf σ) {vars : Map} (hVars : Grounded σ.shared.trace vars)
    (s : GatherState) (event : EventMessage) (accepted : Bool) :
    FutureSound σ (s.acceptUntil env vars event accepted) := by
  unfold GatherState.acceptUntil
  split
  · exact FutureSound.pure
  · apply FutureSound.seq (markSatisfied_sound ready hVars event _ _)
    intro marked _ _
    obtain ⟨filters, group⟩ := marked
    dsimp only
    split <;> exact FutureSound.pure

/-- The rounds of a listen task. The induction is on them; each waits for an event and notices a
cancellation. -/
theorem gatherListenEvents_sound (ready : Ready wf σ) {vars : Map}
    (hVars : Grounded σ.shared.trace vars) (need : ListenNeed) (untilExpression : Option String)
    (hasUntil : Bool) (read : String) (fuel : Nat) (s : GatherState) :
    Sound σ (gatherListenEvents env ctx vars need untilExpression hasUntil read fuel s) := by
  induction fuel generalizing σ s with
  | zero => exact outOfFuel_sound
  | succ fuel ih =>
      rw [gatherListenEvents]
      split
      · exact Sound.pure
      · apply Sound.seq (do_sound .notified fun _ => trivial)
        intro epoch τ₁ moved₁
        apply Sound.seq (do_sound (.receive epoch) fun _ => trivial)
        intro received τ₂ moved₂
        have moved₁₂ := moved₁.trans moved₂
        split
        · exact stop_sound ctx
        · exact Sound.pure
        · have ready₂ := ready.mono moved₁₂
          have hVars₂ := ready.grounded hVars moved₁₂
          refine Sound.seq (Sound.lift (accept_sound ready₂ hVars₂ s need _)) ?_
          rintro ⟨s, accepted⟩ τ₃ moved₃
          have ready₃ := ready₂.mono moved₃
          have hVars₃ := ready₂.grounded hVars₂ moved₃
          refine Sound.seq (Sound.lift (acceptUntil_sound ready₃ hVars₃ s _ accepted)) ?_
          intro s τ₄ moved₄
          have ready₄ := ready₃.mono moved₄
          have hVars₄ := ready₃.grounded hVars₃ moved₄
          apply Sound.seq (conditionHolds_sound ready₄ hVars₄ _ _ _)
          intro stop τ₅ moved₅
          exact ih (ready₄.mono moved₅) (ready₄.grounded hVars₄ moved₅) _

/-- The iterations over the events gathered: each binds the event and its index, and runs the body
as a scope entered at its start. The induction is on the events left. -/
theorem foreachItems_sound (hRunner : r.Sound) (ready : Ready wf σ) (fe : ListenForeachDef)
    {body : List CompiledTask} (hBody : wf.HasScope body) (atName : String) (items : List Value)
    (index : Nat) : Sound σ (foreachItems r wf ctx fe body atName index items) := by
  induction items generalizing σ index with
  | nil => exact Sound.pure
  | cons item rest ih =>
      rw [foreachItems]
      apply Sound.seq (failIfCancelled_sound ctx)
      intro _ τ₁ moved₁
      apply Sound.seq (do_sound (.bindVar fe.item item) fun _ => trivial)
      intro _ τ₂ moved₂
      apply Sound.seq (do_sound (.bindVar atName (.ofNat index)) fun _ => trivial)
      intro _ τ₃ moved₃
      have ready₃ := ready.mono ((moved₁.trans moved₂).trans moved₃)
      apply Sound.seq (hRunner.scope ctx item ready₃ hBody)
      intro output τ₄ moved₄
      apply Sound.seq (do_sound (.unbindVar fe.item) fun _ => trivial)
      intro _ τ₅ moved₅
      apply Sound.seq (do_sound (.unbindVar atName) fun _ => trivial)
      intro _ τ₆ moved₆
      apply Sound.seq (do_sound .loadEnded fun _ => trivial)
      intro ended τ₇ moved₇
      split
      · exact Sound.pure
      · have ready₇ := ready₃.mono (((moved₄.trans moved₅).trans moved₆).trans moved₇)
        exact Sound.seq (ih ready₇ _) fun _ _ _ => Sound.pure

/-- A listen task subscribes, gathers and iterates. -/
theorem taskListen_sound (hRunner : r.Sound) (ready : Ready wf σ)
    (hCtx : exprCtx.Grounded σ.shared.trace) (listen : ListenDef)
    {foreach_ : Option (ListenForeachDef × List CompiledTask)}
    (hForeach : ∀ fe ∈ foreach_, wf.HasScope fe.2) :
    Sound σ (taskListen env r wf ctx listen foreach_ exprCtx) := by
  apply Sound.seq (FutureSound.mk (ask_sound .subscribe fun _ => trivial))
  intro _ τ moved
  have readyτ := ready.mono moved
  refine Sound.seq (gatherListenEvents_sound readyτ (hCtx.mono ready moved).variables _ _ _ _ _ _) ?_
  intro consumed υ hMoved
  cases foreach_ with
  | none => exact Sound.pure
  | some fe =>
      refine Sound.seq ?_ fun _ _ _ => Sound.pure
      exact foreachItems_sound hRunner (readyτ.mono hMoved) fe.1 (hForeach fe rfl) _ _ _

/-- An error of the source is raised without any request. -/
theorem unknownFunction_sound {α : Type} (name message : String) :
    Sound σ (unknownFunction name message : Run α) := by
  have hNote := note_sound (σ := σ) (n := .unresolved name) ⟨rfl, fun h => by cases h⟩
    fun _ _ _ => trivial
  exact Sound.seq (Sound.lift hNote) fun _ _ _ => Sound.throw

/-- Which error is raised is noted with the workflow that declares it. -/
theorem noteError_sound (error : ErrorRef) : FutureSound σ (noteError wf error) := by
  unfold noteError
  split
  · exact note_sound ⟨rfl, fun h => by cases h⟩ fun _ _ _ => trivial
  · exact FutureSound.pure

/-- A call evaluates its arguments and hands them to its invoker, both of which owe nothing. -/
theorem taskCall_sound (ready : Ready wf σ) (hCtx : exprCtx.Grounded σ.shared.trace)
    (def_ : CallDef) : Sound σ (taskCall env wf def_ exprCtx) := by
  apply Sound.seq (interpolateEntries_sound ready env hCtx _)
  intro args τ moved
  have hCtxτ := hCtx.mono ready moved
  split
  · exact invokeFunction_sound (ready.mono moved) env _ hCtxτ
  · split
    · split
      · exact invokeFunction_sound (ready.mono moved) env _ hCtxτ
      · exact unknownFunction_sound _ _
    · exact unknownFunction_sound _ _

/-- A process runs outside of the protocol. -/
theorem runProcess_sound (request : ProcessRequest) : Sound σ (runProcess request) :=
  FutureSound.mk (ask_sound _ fun _ => trivial)

/-- The evaluation of the arguments and of the environment keeps the protocol, and so do running the
process and reading its result. -/
theorem processTail_sound (ready : Ready wf σ) (hCtx : exprCtx.Grounded σ.shared.trace)
    (arguments : List String) (environment : List (String × String)) (stdin : Option String)
    (request : List String → Option String → List (String × String) → ProcessRequest)
    (return_ : RunReturn) :
    Sound σ (do
      let args ← interpolateStrings env exprCtx arguments
      let stdin ← interpolateOptString env stdin exprCtx
      let envVars ← interpolateEnv env exprCtx environment
      let result ← runProcess (request args stdin envVars)
      return processOutput result return_) := by
  apply Sound.seq (interpolateStrings_sound ready env hCtx _)
  intro args τ₁ moved₁
  have ready₁ := ready.mono moved₁
  have hCtx₁ := hCtx.mono ready moved₁
  apply Sound.seq (interpolateOptString_sound ready₁ env _ hCtx₁)
  intro stdin τ₂ moved₂
  have hCtx₂ := hCtx₁.mono ready₁ moved₂
  apply Sound.seq (interpolateEnv_sound (ready₁.mono moved₂) env hCtx₂ _)
  intro envVars _ _
  exact Sound.seq (runProcess_sound _) fun _ _ _ => Sound.pure

/-- A run task starts a workflow of its own, which has a trace of its own. -/
theorem taskRun_sound (hRunner : r.Sound) (ready : Ready wf σ)
    (hCtx : exprCtx.Grounded σ.shared.trace) (run : RunDef) (taskInput : Value) :
    Sound σ (taskRun env r run taskInput exprCtx) := by
  unfold taskRun
  split
  · exact Sound.pure
  · cases run.process with
    | shell command arguments environment stdin =>
        apply Sound.seq (interpolateString_sound ready env _ hCtx)
        intro command τ moved
        exact processTail_sound (ready.mono moved) (hCtx.mono ready moved) _ _ _
          (fun args stdin envVars => .shell command args envVars stdin) _
    | script language code arguments environment stdin =>
        apply Sound.seq (interpolateString_sound ready env _ hCtx)
        intro code τ moved
        exact processTail_sound (ready.mono moved) (hCtx.mono ready moved) _ _ _
          (fun args stdin envVars => .script language code args envVars stdin) _
    | container image arguments environment stdin =>
        exact processTail_sound ready hCtx _ _ _
          (fun args stdin envVars => .container image args envVars stdin) _
    | workflow namespace_ name version input =>
        apply Sound.seq (interpolateValue_sound ready env input hCtx)
        intro input τ moved
        apply Sound.seq (do_sound (.findWorkflow _) fun _ => trivial)
        intro found _ _
        cases found with
        | none => exact Sound.throw
        | some sub => exact hRunner.workflow sub _

/-- The body of a task keeps the protocol, and chooses only directives of its own. -/
theorem dispatch_holds (hRunner : r.Sound) (ready : Ready wf σ)
    (hCtx : exprCtx.Grounded σ.shared.trace) {task : CompiledTask} (hTask : wf.HasTask task)
    (taskInput : Value) {position : Nat} (hPosition : Opened σ.shared.trace position) :
    protocol.HoldsOk σ (dispatch env r wf ctx task taskInput exprCtx position) fun exec _ =>
      ∀ d, exec.directive = some d → d ∈ task.chosen := by
  have hPlain : ∀ {output : Run Value}, Sound σ output →
      protocol.HoldsOk σ (dispatch.plain output) fun exec _ =>
        ∀ d, exec.directive = some d → d ∈ task.chosen := by
    intro output sound
    refine HoldsOk.bind sound fun value τ _ _ _ => HoldsOk.pure fun _ _ _ d h => ?_
    cases h
  have hScope : ∀ scope ∈ task.kind.childScopes, wf.HasScope scope :=
    fun scope hMem => hTask.hasScope hMem
  have hBranch : ∀ inner ∈ task.kind.forkBranches, wf.HasTask inner :=
    fun inner hMem => hTask.branch hMem
  unfold dispatch
  cases hKind : task.kind with
  | set values => exact hPlain (taskSet_sound ready hCtx values)
  | do_ body =>
      exact hPlain (hRunner.scope ctx _ ready (hScope body (by simp [hKind, CompiledTaskKind.childScopes])))
  | for_ loop body =>
      exact hPlain (taskFor_sound hRunner ready hCtx loop
        (hScope body (by simp [hKind, CompiledTaskKind.childScopes])) taskInput)
  | fork branches compete =>
      refine hPlain (taskFork_sound hRunner ready (fun inner hMem => ?_) compete taskInput hPosition)
      exact hBranch inner (by simpa [hKind, CompiledTaskKind.forkBranches] using hMem)
  | switch cases_ =>
      refine HoldsOk.bind (matchCases_holds ready hCtx.variables taskInput cases_) ?_
      intro directive τ _ _ hMem
      apply HoldsOk.pure
      intro _ _ _ d h
      rw [CompiledTask.chosen, hKind]
      exact hMem d h
  | try_ body catch_ handler =>
      refine hPlain (taskTry_sound hRunner ready hCtx
        (hScope body (by simp [hKind, CompiledTaskKind.childScopes])) catch_ ?_ taskInput)
      intro scope hMem
      exact hScope scope (by simpa [hKind, CompiledTaskKind.childScopes] using Or.inr hMem)
  | emit event => exact hPlain (taskEmit_sound ready hCtx event)
  | listen listen foreach_ =>
      refine hPlain (taskListen_sound hRunner ready hCtx listen fun fe hMem => ?_)
      refine hScope fe.2 ?_
      rw [hKind, CompiledTaskKind.childScopes, Option.mem_toList]
      exact Option.mem_map_of_mem Prod.snd hMem
  | raise error =>
      exact HoldsOk.bind (Sound.lift (noteError_sound error)) fun _ _ _ _ _ => HoldsOk.throw
  | call def_ => exact hPlain (taskCall_sound ready hCtx def_)
  | run run => exact hPlain (taskRun_sound hRunner ready hCtx run taskInput)
  | wait duration => exact hPlain (Sound.seq (waitWithCancel_sound duration) fun _ _ _ => Sound.pure)

end OwsRuntime
