import OwsRuntime.Engine.TasksSound

/-! The engine keeps its protocol: tasks, scopes and executions, at any depth,
and so every state of every run. -/
namespace OwsRuntime

open Async Discipline

variable {wf : CompiledWorkflow} {σ : EngineState} {env : RuntimeInner} {r : Runner}
  {ctx : ExecContext} {exprCtx : ExpressionContext}

/-- An expression over the variables of a task state. -/
theorem evalVariables_sound (ready : Ready wf σ) (input output : Value) (task : Option Value)
    (source : String) (subject : Value) (owner : Option CompiledTask) :
    Sound σ (do
      let vars ← ctx.variables_ input output task
      evalExpr env source subject vars owner) := by
  apply Sound.bind (HoldsOk.lift (variables_holds ready ctx _ _ _))
  intro vars τ moved hVars
  exact evalExpr_sound (ready.mono moved) env _ _ hVars _

/-- Whether an extension applies to a task is decided by an expression over the variables of that
task. -/
theorem extensionApplies_sound (ready : Ready wf σ) (task : CompiledTask) (input : Value)
    (ext : CompiledExtension) : Sound σ (extensionApplies env ctx task input ext) := by
  unfold extensionApplies
  split
  · exact Sound.pure
  · apply Sound.bind (HoldsOk.lift (variables_holds ready ctx _ _ _))
    intro vars τ moved hVars
    exact Sound.seq (evalExpr_sound (ready.mono moved) env _ _ hVars _) fun _ _ _ => Sound.pure

/-- The extensions are asked in their order, and those chosen are extensions of the workflow. The
induction is on the list. -/
theorem selectExtensions_holds (ready : Ready wf σ) (task : CompiledTask) (input : Value)
    (extensions : List CompiledExtension) :
    protocol.HoldsOk σ (selectExtensions env ctx task input extensions) fun chosen _ =>
      ∀ ext ∈ chosen, ext ∈ extensions := by
  induction extensions generalizing σ with
  | nil => exact HoldsOk.pure fun _ _ _ ext hMem => hMem
  | cons ext rest ih =>
      rw [selectExtensions]
      split
      · refine HoldsOk.bind (extensionApplies_sound ready task input ext) fun applies τ moved _ _ => ?_
        refine HoldsOk.bind (ih (ready.mono moved)) fun more υ _ _ hMore => HoldsOk.pure ?_
        intro _ _ _ other hMem
        split at hMem
        · rcases List.mem_cons.mp hMem with rfl | hRest
          · exact List.mem_cons_self
          · exact List.mem_cons_of_mem _ (hMore other hRest)
        · exact List.mem_cons_of_mem _ (hMore other hMem)
      · exact (ih ready).weaken fun _ _ _ _ hMem other hOther =>
          List.mem_cons_of_mem _ (hMem other hOther)

/-- So are those that apply to a task. -/
theorem applicableExtensions_holds (ready : Ready wf σ) (task : CompiledTask) (input : Value) :
    protocol.HoldsOk σ (applicableExtensions env wf ctx task input) fun chosen _ =>
      ∀ ext ∈ chosen, ext ∈ wf.extensions := by
  refine HoldsOk.bind (do_sound .getLocal fun _ => trivial) fun loc τ moved _ _ => ?_
  split
  · exact HoldsOk.pure fun _ _ _ ext hMem => nomatch hMem
  · exact selectExtensions_holds (ready.mono moved) task input wf.extensions

/-- The scope of an extension reports the exit flag, which tells whether a scope exited. -/
theorem runExtensionScope_holds (hRunner : r.Sound) (ready : Ready wf σ)
    {scope : List CompiledTask} (hScope : wf.HasScope scope) (input : Value) :
    protocol.HoldsOk σ (runExtensionScope r wf ctx scope input) fun result _ =>
      result.exited = true ↔ result.exits ≠ [] := by
  unfold runExtensionScope
  split
  · exact HoldsOk.pure fun _ _ _ => by simp
  · refine HoldsOk.bind (do_sound .getLocal fun _ => trivial) fun previous τ₁ moved₁ _ _ => ?_
    refine HoldsOk.bind (do_sound (.setApplyExtensions false) fun _ => trivial) ?_
    intro _ τ₂ moved₂ _ _
    refine HoldsOk.bind (do_sound (.setScopeExited none) fun _ => trivial) ?_
    intro _ τ₃ moved₃ _ _
    have ready₃ := ready.mono ((moved₁.trans moved₂).trans moved₃)
    refine HoldsOk.bind (hRunner.scope ctx input ready₃ hScope).outcome fun result _ _ _ _ => ?_
    refine HoldsOk.bind (HoldsOk.lift getLocal_holds) fun after _ _ _ hAfter => ?_
    refine HoldsOk.bind (do_sound (.setScopeExited none) fun _ => trivial) fun _ _ _ _ _ => ?_
    refine HoldsOk.bind (do_sound (.setApplyExtensions previous.applyExtensions) fun _ => trivial) ?_
    intro _ _ _ _ _
    refine HoldsOk.bind Sound.ofExcept fun value _ _ _ _ => ?_
    exact HoldsOk.pure fun _ _ _ => hAfter.exits

/-- The tasks of an extension are a scope of the workflow, entered at its start. -/
theorem runExtensionScope_sound (hRunner : r.Sound) (ready : Ready wf σ)
    {scope : List CompiledTask} (hScope : wf.HasScope scope) (input : Value) :
    Sound σ (runExtensionScope r wf ctx scope input) :=
  (runExtensionScope_holds hRunner ready hScope input).weaken fun _ _ _ _ _ => trivial

/-- No extension has been run yet, and the body is not skipped. -/
theorem Extended.nil : Extended [] false := ⟨by simp, List.Pairwise.nil⟩

/-- A scope in which the flag was set is the last one. -/
theorem Extended.exited {before : BeforeScope} (hExits : before.exits ≠ []) :
    Extended [before] true :=
  ⟨by simp [hExits], List.pairwise_singleton _ _⟩

/-- One that has run to its end without an exit leaves the decision to those after it. -/
theorem Extended.cons {before : BeforeScope} {ran : List BeforeScope} {skipBody : Bool}
    (hExits : before.exits = []) (extended : Extended ran skipBody) :
    Extended (before :: ran) skipBody :=
  ⟨by simpa [hExits] using extended.skipped_iff, List.pairwise_cons.mpr ⟨fun _ _ => hExits,
    extended.last⟩⟩

/-- The extensions before a task, one after the other, up to the first whose scope exits: then the
body is skipped, and the ones left are not run. The induction is on the list. -/
theorem runBefore_holds (hRunner : r.Sound) (ready : Ready wf σ)
    {extensions : List CompiledExtension} (hExtensions : ∀ ext ∈ extensions, ext ∈ wf.extensions)
    (input : Value) :
    protocol.HoldsOk σ (runBefore r wf ctx extensions input) fun before _ =>
      Extended before.ran before.skipBody := by
  induction extensions generalizing σ input with
  | nil => exact HoldsOk.pure fun _ _ _ => Extended.nil
  | cons ext rest ih =>
      have hBefore := CompiledWorkflow.HasScope.before (hExtensions ext List.mem_cons_self)
      refine HoldsOk.bind (runExtensionScope_holds hRunner ready hBefore input) ?_
      intro result τ moved _ hExited
      split
      · rename_i hFlag
        exact HoldsOk.pure fun _ _ _ => Extended.exited (hExited.mp hFlag)
      · rename_i hFlag
        have hRest := ih (ready.mono moved)
          (fun e hMem => hExtensions e (List.mem_cons_of_mem _ hMem)) result.value
        refine HoldsOk.bind hRest fun more _ _ _ hMore => HoldsOk.pure fun _ _ _ => ?_
        apply Extended.cons _ hMore
        by_contra hExits
        exact hFlag (hExited.mpr hExits)

/-- What the extensions came to is noted as it was. -/
theorem noteBefore_sound {before : BeforeOutcome}
    (extended : Extended before.ran before.skipBody) : FutureSound σ (noteBefore before) := by
  unfold noteBefore
  split
  · exact FutureSound.pure
  · exact note_sound ⟨rfl, fun h => by cases h⟩ fun _ _ _ => extended

/-- The extensions after a task, one after the other. The induction is on the list. -/
theorem runAfter_sound (hRunner : r.Sound) (ready : Ready wf σ)
    {extensions : List CompiledExtension} (hExtensions : ∀ ext ∈ extensions, ext ∈ wf.extensions)
    (output : Value) : Sound σ (runAfter r wf ctx extensions output) := by
  induction extensions generalizing σ output with
  | nil => exact Sound.pure
  | cons ext rest ih =>
      have hAfter := CompiledWorkflow.HasScope.after (hExtensions ext List.mem_cons_self)
      apply Sound.seq (runExtensionScope_sound hRunner ready hAfter output)
      intro result τ moved
      exact ih (ready.mono moved) (fun e hMem => hExtensions e (List.mem_cons_of_mem _ hMem)) _

/-- The condition of a task sees the context that was read for it. -/
theorem guardHolds_sound (ready : Ready wf σ) (task : CompiledTask) (rawInput : Value) :
    Sound σ (guardHolds env ctx task rawInput) := by
  unfold guardHolds
  split
  · exact Sound.pure
  · apply Sound.bind (HoldsOk.lift (variables_holds ready ctx _ _ _))
    intro vars τ moved hVars
    exact Sound.seq (evalExpr_sound (ready.mono moved) env _ _ hVars _) fun _ _ _ => Sound.pure

/-- So does the transformation of its input, -/
theorem transformInput_sound (ready : Ready wf σ) (task : CompiledTask) (rawInput : Value) :
    Sound σ (transformInput env ctx task rawInput) := by
  unfold transformInput
  split
  · exact Sound.pure
  · exact evalVariables_sound ready _ _ _ _ _ _

/-- and that of its output, which may see what the body has bound. -/
theorem transformOutput_sound (ready : Ready wf σ) (hCtx : exprCtx.Grounded σ.shared.trace)
    (task : CompiledTask) (taskInput rawOutput : Value) :
    Sound σ (transformOutput env task exprCtx taskInput rawOutput) := by
  unfold transformOutput
  split
  · exact evalExpr_sound ready env _ _ (hCtx.updated _ _) _
  · exact Sound.pure

/-- A task that writes back the context has read it before. -/
theorem exportContext_holds (ready : Ready wf σ) (hCtx : exprCtx.Grounded σ.shared.trace)
    (task : CompiledTask) (taskInput output : Value) :
    protocol.HoldsOk σ (exportContext env task exprCtx taskInput output) fun result τ =>
      ∀ position, result.2 = .readBack position → ReadAt τ.shared.trace position result.1 := by
  unfold exportContext
  split
  · refine HoldsOk.bind (evalExpr_sound ready env _ _ (hCtx.updated _ _) _) ?_
    exact fun value τ _ _ _ => HoldsOk.pure fun _ _ _ position h => nomatch h
  · refine HoldsOk.bind (HoldsOk.lift (readContext_holds ready)) fun read τ _ _ hRead => ?_
    refine HoldsOk.pure fun υ moved _ position hPosition => ?_
    cases hPosition
    exact hRead.2.mono moved.shared.trace

/-- The directive of a finished task is one of its own. -/
abbrev Chosen (task : CompiledTask) (exec : TaskExec) (_ : EngineState) : Prop :=
  ∀ d, exec.directive = some d → d ∈ task.chosen

/-- The body of a task runs under the ticket that was opened for it, or is skipped as an extension
has decided. -/
theorem runBody_holds (hRunner : r.Sound) (ready : Ready wf σ)
    (hCtx : exprCtx.Grounded σ.shared.trace) {task : CompiledTask} (hTask : wf.HasTask task)
    (taskInput : Value) (skipBody : Bool) {ticket : Nat} (hTicket : Opened σ.shared.trace ticket) :
    protocol.HoldsOk σ (runBody env r wf ctx task taskInput exprCtx skipBody ticket)
      (Chosen task) := by
  unfold runBody
  split
  · exact HoldsOk.pure fun _ _ _ d h => nomatch h
  · have hMark := mark_holds (σ := σ) (n := .dispatched ticket) ⟨rfl, fun h => by cases h⟩
      fun _ moved _ => hTicket.mono moved.shared.trace
    refine HoldsOk.bind (HoldsOk.lift hMark) fun position τ moved _ hEntry => ?_
    obtain ⟨entry, hAt, hNote⟩ := hEntry
    exact dispatch_holds hRunner (ready.mono moved) (hCtx.mono ready moved) hTask taskInput
      ⟨entry, hAt, Or.inr ⟨ticket, hNote⟩⟩

/-- A task from its condition to the export of its context. The export reads the context and writes
one that is due from what was read. -/
theorem runTask_holds (hRunner : r.Sound) (ready : Ready wf σ) {task : CompiledTask}
    (hTask : wf.HasTask task) (rawInput : Value) {ticket : Nat}
    (hTicket : Opened σ.shared.trace ticket) :
    protocol.HoldsOk σ (runTask env r wf ctx task rawInput ticket) (Chosen task) := by
  unfold runTask
  refine HoldsOk.bind Sound.ofExcept fun _ τ₁ moved₁ _ _ => ?_
  refine HoldsOk.bind (transformInput_sound (ready.mono moved₁) task rawInput) ?_
  intro taskInput τ₂ moved₂ _ _
  have ready₂ := ready.mono (moved₁.trans moved₂)
  refine HoldsOk.bind (applicableExtensions_holds ready₂ task rawInput) ?_
  intro extensions τ₃ moved₃ _ hExtensions
  have ready₃ := ready₂.mono moved₃
  refine HoldsOk.bind (runBefore_holds hRunner ready₃ hExtensions taskInput) ?_
  intro before τ₃' moved₃' _ hExtended
  refine HoldsOk.bind (Sound.lift (noteBefore_sound hExtended)) fun _ τ₄ moved₃₄ _ _ => ?_
  have moved₄ := moved₃'.trans moved₃₄
  have ready₄ := ready₃.mono moved₄
  refine HoldsOk.bind (HoldsOk.lift (contextValue_holds ready₄)) fun context τ₅ moved₅ _ hSeen => ?_
  have ready₅ := ready₄.mono moved₅
  refine HoldsOk.bind (HoldsOk.lift getLocal_holds) fun loc τ₆ moved₆ _ hLoc => ?_
  have ready₆ := ready₅.mono moved₆
  have hTicket₆ := hTicket.mono
    (((((moved₁.trans moved₂).trans moved₃).trans moved₄).trans moved₅).trans moved₆).shared.trace
  have hCtx : ExpressionContext.Grounded
      { context, input := before.input, output := .null, secrets := ctx.secrets
        authorization := none, task := some task.descriptor
        workflow := some ctx.workflowDescriptor, runtime := some ctx.runtimeDescriptor
        extraVars := loc.loopVars } τ₆.shared.trace :=
    ⟨hSeen.mono ready₅.setUp moved₆.shared.trace, hLoc.bound⟩
  refine HoldsOk.bind (runBody_holds hRunner ready₆ hCtx hTask before.input before.skipBody
    hTicket₆) ?_
  intro exec τ₇ moved₇ _ hChosen
  have ready₇ := ready₆.mono moved₇
  have hCtx₇ := hCtx.mono ready₆ moved₇
  refine HoldsOk.bind (transformOutput_sound ready₇ hCtx₇ task _ exec.output) ?_
  intro transformed τ₈ moved₈ _ _
  have ready₈ := ready₇.mono moved₈
  refine HoldsOk.bind (runAfter_sound hRunner ready₈ hExtensions transformed) ?_
  intro transformed τ₉ moved₉ _ _
  refine HoldsOk.bind Sound.ofExcept fun _ τ₁₀ moved₁₀ _ _ => ?_
  have moved₇₁₀ := (moved₈.trans moved₉).trans moved₁₀
  have ready₁₀ := ready₇.mono moved₇₁₀
  refine HoldsOk.bind (exportContext_holds ready₁₀ (hCtx₇.mono ready₇ moved₇₁₀) task _ _) ?_
  rintro ⟨newContext, source⟩ τ₁₁ moved₁₁ _ hRead
  refine HoldsOk.bind Sound.ofExcept fun _ τ₁₂ moved₁₂ _ _ => ?_
  have hWrite : ∀ υ, protocol.Moved τ₁₂ υ → owed (.writeContext source newContext) υ := by
    intro υ hMoved
    cases source with
    | readBack position =>
        exact (hRead position rfl).mono (moved₁₂.trans hMoved).shared.trace
    | _ => trivial
  refine HoldsOk.bind (HoldsOk.lift (setContext_holds hWrite)) fun _ τ₁₃ _ _ _ => ?_
  exact HoldsOk.pure fun _ _ _ d hDirective => hChosen d hDirective

/-- A task with its extensions around it. -/
theorem execTask_holds (hRunner : r.Sound) (ready : Ready wf σ) {task : CompiledTask}
    (hTask : wf.HasTask task) (rawInput : Value) {ticket : Nat}
    (hTicket : Opened σ.shared.trace ticket) :
    protocol.HoldsOk σ (execTask env r wf ctx task rawInput ticket) (Chosen task) := by
  refine HoldsOk.bind (guardHolds_sound ready task rawInput) fun holds τ moved _ _ => ?_
  split
  · exact runTask_holds hRunner (ready.mono moved) hTask rawInput (hTicket.mono moved.shared.trace)
  · exact HoldsOk.pure fun _ _ _ d h => nomatch h

/-- A timer drops what it guards, or leaves its result as it is. -/
theorem withTimeout_holds {α : Type} {body : Run α} {Q : α → EngineState → Prop}
    (duration : Nat) (elapsed : WorkflowError) (hBody : protocol.HoldsOk σ body Q)
    (hStable : ∀ value τ υ, Q value τ → protocol.Moved τ υ → Q value υ) :
    protocol.HoldsOk σ (withTimeout duration body elapsed) Q := by
  refine Holds.race hBody (fun result τ _ _ hQ => ?_) ?_
  · exact Holds.done fun υ moved _ value hOk => hStable value τ υ (hQ value hOk) moved
  · exact Holds.done fun _ _ _ value hOk => nomatch hOk

/-- A task with its timeout, which leaves the trace as the task left it when time ran out. -/
theorem execTimed_holds (hRunner : r.Sound) (ready : Ready wf σ) {task : CompiledTask}
    (hTask : wf.HasTask task) (input : Value) {ticket : Nat}
    (hTicket : Opened σ.shared.trace ticket) :
    protocol.HoldsOk σ (execTimed env r wf ctx task input ticket) (Chosen task) := by
  have hTaskHolds : protocol.HoldsOk σ (execTask env r wf ctx task input ticket) (Chosen task) :=
    execTask_holds hRunner ready hTask input hTicket
  unfold execTimed
  split
  · exact withTimeout_holds _ _ hTaskHolds fun _ _ _ hChosen _ => hChosen
  · exact hTaskHolds

/-- Where the loop over a scope may stand. -/
def ScopeState.Entered (wf : CompiledWorkflow) (start : Nat) (tasks : List CompiledTask) :
    ScopeState → Prop
  | running index _ => OwsRuntime.Entered wf start tasks index
  | finished _ => True

/-- The loop over a scope goes only where the directives of its tasks lead. -/
theorem followDirective_holds (ready : Ready wf σ) {tasks : List CompiledTask} {index : Nat}
    {task : CompiledTask} {directive : FlowDirective} (input : Value)
    (hScope : wf.HasScope tasks) (hEntered : Entered wf σ.shared.start tasks index)
    (hTask : tasks[index]? = some task) (hDirective : directive ∈ task.directives) :
    protocol.HoldsOk σ (followDirective ctx tasks index directive input) fun state _ =>
      state.Entered wf σ.shared.start tasks := by
  have hMove : ∀ next, directive.target? tasks index = some next →
      protocol.HoldsOk σ (do
        note (.moved tasks index next)
        return .running next input : Run ScopeState) fun state _ =>
          state.Entered wf σ.shared.start tasks := by
    intro next hNext
    have hSuccessor : Successor tasks index next := ⟨task, hTask, directive, hDirective, hNext⟩
    have hNote := note_sound (σ := σ) (n := .moved tasks index next) ⟨rfl, fun h => by cases h⟩ <| by
      intro τ moved _
      rw [(ready.mono moved).workflow, moved.shared.start]
      exact ⟨hScope, hEntered, hSuccessor⟩
    refine HoldsOk.bind (Sound.lift hNote) fun _ _ _ _ _ => ?_
    exact HoldsOk.pure fun _ _ _ => hEntered.next hSuccessor
  cases directive with
  | continue_ => exact hMove (index + 1) rfl
  | exit =>
      refine HoldsOk.bind (do_sound (.setScopeExited (some tasks)) fun _ => trivial) fun _ _ _ _ _ => ?_
      exact HoldsOk.pure fun _ _ _ => trivial
  | end_ =>
      refine HoldsOk.bind (do_sound .storeEnded fun _ => trivial) fun _ _ _ _ _ => ?_
      exact HoldsOk.pure fun _ _ _ => trivial
  | goto name =>
      rw [followDirective]
      split
      · rename_i next hNext
        exact hMove next hNext
      · rename_i hNone
        have hNote := note_sound (σ := σ) (n := .unknownTarget tasks name)
          ⟨rfl, fun h => by cases h⟩ <| by
            intro τ moved _
            rw [(ready.mono moved).workflow]
            exact ⟨hScope, ⟨task, List.mem_of_getElem? hTask, hDirective⟩, hNone⟩
        exact HoldsOk.bind (Sound.lift hNote) fun _ _ _ _ _ => HoldsOk.throw

/-- The check for a cancellation is one request, and the rest of the program waits for its answer.
-/
theorem failIfCancelled_bind {α : Type} (f : Unit → Run α) :
    (ctx.failIfCancelled >>= f).run = @Program.act engineSig _ .isCancelled fun (cancelled : Bool) =>
      (if cancelled then ctx.stop else f () : Run α).run := by
  show @Program.act engineSig _ .isCancelled _ = _
  refine congrArg (@Program.act engineSig _ .isCancelled) (funext fun (cancelled : Bool) => ?_)
  cases cancelled <;> rfl

/-- One round of a scope: the task at an entered place runs, and its directive leads to a place that
is entered by it. -/
theorem scopeStep_holds (hRunner : r.Sound) (ready : Ready wf σ) {tasks : List CompiledTask}
    {index : Nat} (input : Value) (hScope : wf.HasScope tasks)
    (hEntered : Entered wf σ.shared.start tasks index) :
    protocol.HoldsOk σ (scopeStep env r wf ctx tasks index input) fun state _ =>
      state.Entered wf σ.shared.start tasks := by
  intro τ moved good
  rw [scopeStep, failIfCancelled_bind]
  refine Safe.sync rfl trivial ?_
  intro cancelled τ' hCancelled
  cases hCancelled
  cases hFlag : τ.world.cancelled with
  | true =>
      refine Safe.sync rfl trivial ?_
      intro _ _ hStop
      cases hStop
      exact fun value h => nomatch h
  | false =>
      refine Safe.sync rfl trivial ?_
      intro ended τ' hEnded
      cases hEnded
      cases hOver : τ.shared.ended with
      | true => 
          intro value h
          cases h
          trivial
      | false =>
          dsimp only
          cases hTask : tasks[index]? with
          | none =>
              intro value h
              cases h
              trivial
          | some task => 
            have readyτ := ready.mono moved
            have hBound : index < tasks.length := (List.getElem?_eq_some_iff.mp hTask).1
            have hAdmitted : owed (.note (.admitted tasks index)) τ := by
              refine ⟨⟨rfl, fun h => by cases h⟩, hFlag, ?_, ?_, hBound, ?_⟩
              · rw [← good.inv.ended, hOver]
                exact Bool.false_ne_true
              · rw [readyτ.workflow]
                exact hScope
              · rw [readyτ.workflow, moved.shared.start]
                exact hEntered
            refine Safe.sync rfl hAdmitted ?_
            intro ticket υ hPerform
            have moved' := Moved.of_perform (D := protocol) (a := Act.note (.admitted tasks index)) good
              hAdmitted hPerform
            have movedυ := moved.trans moved'.1
            have hTicket : Opened υ.shared.trace ticket := by
              cases hPerform
              refine ⟨⟨.admitted tasks index, τ.world.cancelled⟩, ?_, Or.inl ⟨tasks, index, rfl⟩⟩
              simp [EngineState.note, Execution.log]
            have readyυ := ready.mono movedυ
            have hMem : wf.HasTask task := hScope.hasTask (List.mem_of_getElem? hTask)
            refine HoldsOk.bind (execTimed_holds hRunner readyυ hMem input hTicket)
              (fun exec ω hMoved _ hChosen => ?_) υ (Moved.refl moved'.2.inv) moved'.2
            have hStart := (movedυ.trans hMoved).shared.start
            rw [← hStart] at hEntered ⊢
            exact followDirective_holds (readyυ.mono hMoved) exec.output hScope hEntered hTask
              (finalDirective_mem hChosen)

/-- A record is stored only where it is justified. -/
theorem store_sound (op : StoreOp) (hOwed : ∀ τ, protocol.Moved σ τ → owed (.store op) τ) :
    FutureSound σ (store op) :=
  Holds.request (fun τ moved _ => hOwed τ moved) fun _ _ _ _ _ _ => trivial

/-- The place of a checkpoint is read back from its text, as far as it fits into 64 bits. -/
@[simp] theorem resumeState_nextIndex_checkpoint {record : ExecutionRecord} {next : Nat}
    {input : Value} (hPointer : record.pointer = checkpointPointer next input) :
    (resumeState record).nextIndex = if next < 2 ^ 64 then next else 0 := by
  have hNext : record.pointer.get? "next" = some (.ofNat next) := by
    rw [hPointer]
    rfl
  rw [resumeState, hNext]
  show (if next < 2 ^ 64 then some next else none).getD 0 = _
  split <;> rfl

/-- A checkpoint at a task which the top-level scope has come to. -/
theorem recorded_checkpoint (ready : Ready wf σ) {context input : Value} {next : Nat}
    {cancelled : Bool} (executionId : String) (startedAt : Int)
    (hContext : Seen σ.shared.trace context)
    (hEntered : Entered wf σ.shared.start wf.tasks next) :
    Justified σ.shared.workflow σ.shared.start σ.shared.trace
      ⟨.recorded (executionRecord wf executionId .running context (checkpointPointer next input)
        none startedAt), cancelled⟩ := by
  rw [ready.workflow]
  refine ⟨hContext, ready.setUp, rfl, Or.inr ?_⟩
  rw [resumeState_nextIndex_checkpoint rfl]
  split
  · exact hEntered
  · exact Or.inl Relation.ReflTransGen.refl

/-- A checkpoint names a place that has been entered, so a resumed execution starts at such a place.
-/
theorem persistCheckpoint_sound (ready : Ready wf σ) (startedAt : Int) {next : Nat}
    (input : Value) (hEntered : Entered wf σ.shared.start wf.tasks next) :
    FutureSound σ (persistCheckpoint wf ctx startedAt next input) := by
  apply FutureSound.bind contextValueSync_holds
  intro context τ moved hSeen
  have readyτ := ready.mono moved
  refine FutureSound.seq (store_sound _ fun υ hMoved record hRecord => ?_) fun _ _ _ =>
    FutureSound.pure
  cases hRecord
  have hStart := (moved.trans hMoved).shared.start
  rw [← hStart] at hEntered
  exact recorded_checkpoint (readyτ.mono hMoved) _ _
    (hSeen.mono readyτ.setUp hMoved.shared.trace) hEntered

/-- Only the scope at the top makes checkpoints. -/
theorem checkpointState_sound (ready : Ready wf σ) {tasks : List CompiledTask}
    {checkpoint : Option ScopeCheckpoint} (hTop : ∀ cp ∈ checkpoint, tasks = wf.tasks)
    {state : ScopeState} (hState : state.Entered wf σ.shared.start tasks) :
    FutureSound σ (checkpointState wf ctx checkpoint state) := by
  unfold checkpointState
  split
  · rename_i next input cp
    obtain rfl := hTop cp rfl
    exact persistCheckpoint_sound ready _ _ hState
  · exact FutureSound.pure

/-- The loop over a scope, from any task to which it may have come. -/
theorem scopeLoop_sound (hRunner : r.Sound) (ready : Ready wf σ) {tasks : List CompiledTask}
    (hScope : wf.HasScope tasks) {checkpoint : Option ScopeCheckpoint}
    (hTop : ∀ cp ∈ checkpoint, tasks = wf.tasks) (fuel index : Nat) (input : Value)
    (hEntered : Entered wf σ.shared.start tasks index) :
    Sound σ (scopeLoop env r wf ctx tasks checkpoint fuel index input) := by
  induction fuel generalizing σ index input with
  | zero => exact outOfFuel_sound
  | succ fuel ih =>
      rw [scopeLoop]
      apply Sound.bind (scopeStep_holds hRunner ready input hScope hEntered)
      intro state τ moved hState
      rw [← moved.shared.start] at hState
      have readyτ := ready.mono moved
      apply Sound.seq (Sound.lift (checkpointState_sound readyτ hTop hState))
      intro _ υ hMoved
      cases state with
      | finished output => exact Sound.pure
      | running next input =>
          rw [← hMoved.shared.start] at hState
          exact ih (readyτ.mono hMoved) next input hState

/-- The workflow's own expressions read the context and are evaluated in one turn,
so that they need not wait for the context to be set up. -/
theorem evalWorkflow_sound (input output : Value) (source : String) (subject : Value) :
    Sound σ (do
      let vars ← ctx.variables_ input output none
      evalExpr env source subject vars none) := by
  intro τ moved good
  refine Safe.sync rfl trivial fun context υ hContext => ?_
  have hTry := Moved.of_perform (D := protocol) (a := Act.tryContext) good trivial hContext
  have hSeen : Seen υ.shared.trace context := by
    simp only [engine, perform] at hContext
    split at hContext <;> cases hContext
    · exact Or.inr ⟨rfl, Or.inr (noted_append_single.mpr (Or.inr rfl))⟩
    · rw [good.inv.context]
      exact seen_cell _
  refine Safe.sync rfl trivial fun loc υ' hLoc => ?_
  cases hLoc
  have hCtx : ExpressionContext.Grounded
      { context, input, output, secrets := ctx.secrets, authorization := none, task := none
        workflow := some ctx.workflowDescriptor, runtime := some ctx.runtimeDescriptor
        extraVars := υ.loc.loopVars } υ.shared.trace := ⟨hSeen, hTry.2.locInv.bound⟩
  have hVars := Grounded.extend hCtx.variables hTry.2.locInv.bound
  show protocol.Safe (evalExpr env source subject _ none).run _ υ
  refine Safe.sync rfl ⟨⟨rfl, fun h => by cases h⟩, hVars⟩ fun _ _ _ => ?_
  exact fun _ _ => trivial

/-- The input of a workflow is transformed before there is a context, -/
theorem transformWorkflowInput_sound (rawInput : Value) :
    Sound σ (transformWorkflowInput env wf ctx rawInput) := by
  unfold transformWorkflowInput
  split
  · exact Sound.pure
  · exact evalWorkflow_sound _ _ _ _

/-- and its output after the last task. -/
theorem applyWorkflowOutput_sound (rawOutput : Value) :
    Sound σ (applyWorkflowOutput env wf ctx rawOutput) := by
  have hTransform : Sound σ (transformWorkflowOutput env wf ctx rawOutput) := by
    unfold transformWorkflowOutput
    split
    · exact Sound.pure
    · exact evalWorkflow_sound _ _ _ _
  apply Sound.seq hTransform
  intro transformed _ _
  exact Sound.seq Sound.ofExcept fun _ _ _ => Sound.pure

/-- An event may be stored at any time. -/
theorem appendEvent_sound (event : StoredEvent) : FutureSound σ (store (.append event)) :=
  store_sound _ fun _ _ _ hRecord => nomatch hRecord

/-- The start of an execution is recorded with its own workflow. -/
theorem persistStarted_sound (ready : Ready wf σ) (startedAt : Int) :
    FutureSound σ (persistStarted wf ctx startedAt) := by
  apply FutureSound.bind contextValueSync_holds
  intro context τ₁ moved₁ hSeen
  apply FutureSound.seq (ask_sound .tryContext fun _ => trivial)
  intro input τ₂ moved₂
  have ready₁ := ready.mono moved₁
  refine FutureSound.seq (store_sound _ fun υ hMoved record hRecord => ?_) fun _ _ _ =>
    FutureSound.seq (appendEvent_sound _) fun _ _ _ => FutureSound.pure
  cases hRecord
  have hLater := moved₂.trans hMoved
  exact recorded_checkpoint (ready₁.mono hLater) _ _
    (hSeen.mono ready₁.setUp hLater.shared.trace) (Or.inl Relation.ReflTransGen.refl)

/-- The end of an execution is recorded without a checkpoint of its own. -/
theorem persistTerminal_sound (ready : Ready wf σ) (result : Except WorkflowError Value)
    (startedAt : Int) : FutureSound σ (persistTerminal wf ctx result startedAt) := by
  apply FutureSound.bind contextValueSync_holds
  intro context τ moved hSeen
  have readyτ := ready.mono moved
  refine FutureSound.seq (store_sound _ fun υ hMoved record hRecord => ?_) fun _ _ _ =>
    FutureSound.seq (ask_sound .epochSeconds fun _ => trivial) fun _ _ _ =>
      FutureSound.seq (appendEvent_sound _) fun _ _ _ => FutureSound.pure
  cases hRecord
  have readyυ := readyτ.mono hMoved
  rw [readyυ.workflow]
  refine ⟨hSeen.mono readyτ.setUp hMoved.shared.trace, readyυ.setUp, rfl, Or.inl ?_⟩
  show (terminalPhase result).isTerminal = true
  cases result with
  | ok value => rfl
  | error e =>
      rw [terminalPhase]
      split <;> rfl

/-- An announcement owes nothing to the protocol. -/
theorem announce_sound (executionId : String) (event : EventMessage) :
    Sound σ (announce executionId event) := FutureSound.mk (ask_sound _ fun _ => trivial)

/-- So the end of an execution keeps it, whatever the result was. -/
theorem conclude_sound (ready : Ready wf σ) (startedAt : Int)
    (result : Except WorkflowError Value) : Sound σ (conclude env wf ctx startedAt result) := by
  have hAnnounce : Sound σ (announceCompletion env wf ctx result) := by
    cases result with
    | error e => exact Sound.pure
    | ok value =>
        apply Sound.seq (do_sound .epochSeconds fun _ => trivial)
        intro now _ _
        exact Sound.seq (announce_sound _ _).outcome fun _ _ _ => Sound.pure
  apply Sound.seq hAnnounce
  intro _ τ moved
  apply Sound.seq (Sound.lift (persistTerminal_sound (ready.mono moved) result startedAt))
  intro _ _ _
  exact Sound.ofExcept

/-- The first task of an execution. -/
def startIndex (resume : Option ResumeState) : Nat := (resume.map (·.nextIndex)).getD 0

/-- An execution is entered with a first context, of its input or of the record from which it
resumes. From then on its tasks may run. -/
theorem enterExecution_holds (hWorkflow : σ.shared.workflow = wf) (rawInput : Value)
    (startedAt : Int) (resume : Option ResumeState) :
    protocol.HoldsOk σ (enterExecution env wf ctx rawInput startedAt resume) fun entry τ =>
      Ready wf τ ∧ entry.2 = startIndex resume := by
  have hSetUp : ∀ {τ : EngineState} (value : Value), τ.shared.workflow = wf →
      protocol.HoldsOk τ (liftM (setContext .entry value) : Run Unit) fun _ υ => Ready wf υ := by
    intro τ value hWorkflowτ
    have hSet : protocol.Holds τ (setContext .entry value) fun _ υ =>
        written υ.shared.trace ≠ [] := setContext_holds fun _ _ => trivial
    refine (HoldsOk.lift hSet).weaken fun _ υ moved _ hWritten => ?_
    exact ⟨moved.shared.workflow.trans hWorkflowτ, hWritten⟩
  cases resume with
  | some resume =>
      refine HoldsOk.bind (hSetUp resume.context hWorkflow) fun _ τ _ _ ready => ?_
      exact HoldsOk.pure fun _ moved _ => ⟨ready.mono moved, rfl⟩
  | none =>
      have hBegin : protocol.HoldsOk σ (beginFresh env wf ctx rawInput startedAt) fun _ τ =>
          Ready wf τ := by
        refine HoldsOk.bind (announce_sound _ _).outcome fun _ τ₁ moved₁ _ _ => ?_
        refine HoldsOk.bind (Q := fun _ _ => True) ?_ fun transformed τ₂ moved₂ _ _ => ?_
        · exact Sound.seq Sound.ofExcept fun _ _ _ => transformWorkflowInput_sound rawInput
        · have hWorkflow₂ := (moved₁.trans moved₂).shared.workflow.trans hWorkflow
          refine HoldsOk.bind (hSetUp transformed hWorkflow₂) fun _ τ₃ _ _ ready => ?_
          refine HoldsOk.bind (Sound.lift (persistStarted_sound ready startedAt)) ?_
          exact fun _ τ₄ moved₄ _ _ => HoldsOk.pure fun _ moved _ =>
            ready.mono (moved₄.trans moved)
      refine HoldsOk.bind hBegin fun transformed τ _ _ ready => ?_
      exact HoldsOk.pure fun _ moved _ => ⟨ready.mono moved, rfl⟩

/-- An execution keeps the protocol from its first state on. -/
theorem executeBody_sound (hRunner : r.Sound) (hWorkflow : σ.shared.workflow = wf)
    (rawInput : Value) (startedAt : Int) (fuel : Nat) {resume : Option ResumeState}
    (hStart : σ.shared.start = startIndex resume) :
    Sound σ (executeBody env r fuel wf ctx rawInput startedAt resume) := by
  apply Sound.bind (enterExecution_holds hWorkflow rawInput startedAt resume)
  rintro ⟨scopeInput, start⟩ τ moved ⟨ready, rfl⟩
  have hEntered : Entered wf τ.shared.start wf.tasks (startIndex resume) := by
    refine Or.inr ⟨rfl, ?_⟩
    rw [moved.shared.start, hStart]
    exact Relation.ReflTransGen.refl
  have hScopes : Sound τ (runScopes env r fuel wf ctx startedAt (startIndex resume) scopeInput) := by
    apply Sound.seq (scopeLoop_sound hRunner ready .top (fun _ _ => rfl) fuel _ scopeInput hEntered)
    intro scopeOutput _ _
    exact applyWorkflowOutput_sound scopeOutput
  apply Sound.seq hScopes.outcome
  intro result υ hMoved
  exact conclude_sound (ready.mono hMoved) startedAt result

/-- An execution that begins has an empty trace, and owes nothing. -/
theorem fresh_good (wf : CompiledWorkflow) (executionId : String) (start : Nat) (w : World) :
    protocol.Good ⟨TaskLocal.initial, Execution.fresh wf executionId start, w⟩ :=
  ⟨Execution.fresh_faithful wf executionId start, ⟨fun _ hMem => (by cases hMem), by
    simp [TaskLocal.ExitsKnown, TaskLocal.initial]⟩⟩

/-- So has the one outside of all executions. -/
theorem initial_good (wf : CompiledWorkflow) (start : Nat) (w : World) :
    protocol.Good ⟨TaskLocal.initial, Execution.initial wf start, w⟩ :=
  ⟨Execution.initial_faithful wf start, ⟨fun _ hMem => (by cases hMem), by
    simp [TaskLocal.ExitsKnown, TaskLocal.initial]⟩⟩

/-- A whole execution has a trace of its own, begins well and is left as it was found. -/
theorem executeWith_sound (hRunner : r.Sound) (fuel : Nat) (rawInput : Value)
    (options : ExecutionOptions) : Sound σ (executeWith env r fuel wf rawInput options) := by
  have hIdentity : FutureSound σ options.identity := by
    unfold ExecutionOptions.identity
    split
    · exact FutureSound.pure
    · exact ask_sound .newUuid fun _ => trivial
  apply Sound.seq (Sound.lift hIdentity)
  intro executionId τ₁ _
  apply Sound.seq (do_sound .epochSeconds fun _ => trivial)
  intro startedAt τ₂ _
  refine Holds.region (fresh_good _ _ _ _) ?_ fun _ => Holds.done fun _ _ _ _ _ => trivial
  exact (executeBody_sound hRunner rfl rawInput startedAt fuel rfl).run

/-- The engine's functions keep the protocol, whatever the number of rounds, since a scope keeps it
if the scopes within its tasks do. -/
theorem runner_sound (env : RuntimeInner) (fuel : Nat) : (runner env fuel).Sound := by
  induction fuel with
  | zero =>
      constructor
      · intros
        exact outOfFuel_sound
      · intros
        exact outOfFuel_sound
      · intros
        exact outOfFuel_sound
  | succ fuel ih =>
      constructor
      · intro wf σ ctx tasks input ready hScope
        exact scopeLoop_sound ih ready hScope (fun _ h => by cases h) fuel 0 input
          (Or.inl Relation.ReflTransGen.refl)
      · intro wf σ ctx task input ticket ready hTask hTicket
        exact (execTask_holds ih ready hTask input hTicket).weaken fun _ _ _ _ _ => trivial
      · intro wf σ input
        exact executeWith_sound ih fuel input _

/-- A program with a timeout keeps the protocol as far as it comes. -/
theorem withTimeout_sound {α : Type} {body : Run α} (duration : Nat) (elapsed : WorkflowError)
    (sound : Sound σ body) : Sound σ (withTimeout duration body elapsed) :=
  withTimeout_holds duration elapsed sound fun _ _ _ _ _ => trivial

/-- A program that is given up on a cancellation does so, too. -/
theorem untilCancelled_sound {α : Type} {body : Run α} (sound : ∀ τ, Sound τ body) :
    Sound σ (untilCancelled body) := by
  apply Sound.seq (do_sound .notified fun _ => trivial)
  intro epoch τ _
  refine Holds.race (sound τ) (fun result υ _ _ _ => ?_) ?_
  · exact Holds.done fun _ _ _ _ _ => trivial
  · exact Holds.done fun _ _ _ _ _ => trivial

/-- A panic of the task breaks no rule: it only leaves what the task has done. -/
theorem wait_sound {α : Type} {task : Run α} (sound : ∀ τ, Sound τ task) :
    Sound σ (ExecutionHandle.wait task) := by
  refine Holds.race (sound σ) (fun result υ _ _ _ => ?_) ?_
  · exact Holds.done fun _ _ _ _ _ => trivial
  · exact Holds.done fun _ _ _ _ _ => trivial

/-- What spawns an execution keeps the protocol, for its parts do. -/
theorem execute_sound (env : RuntimeInner) (fuel : Nat) (wf : CompiledWorkflow) (input : Value) :
    Sound σ (execute env fuel wf input) := by
  have hExecution : ∀ τ, Sound τ (untilCancelled
      (executeWith env (runner env fuel) fuel wf input ExecutionOptions.default)) :=
    fun τ => untilCancelled_sound fun _ => executeWith_sound (runner_sound env fuel) fuel input _
  apply Sound.seq (do_sound .newUuid fun _ => trivial)
  intro _ τ₁ _
  apply Sound.seq (do_sound .spawned fun _ => trivial)
  intro _ τ₂ _
  apply wait_sound
  intro τ₃
  unfold runWithCancel
  split
  · exact withTimeout_sound _ _ (hExecution τ₃)
  · exact hExecution τ₃

/-- So does what resumes one from its record. -/
theorem resume_sound (env : RuntimeInner) (fuel : Nat) (executionId : String) :
    Sound σ (resume env fuel executionId) := by
  apply Sound.seq (FutureSound.mk (ask_sound (.load executionId) fun _ => trivial))
  intro found τ₁ _
  split
  · exact Sound.throw
  · split
    · exact Sound.throw
    · apply Sound.seq (do_sound (.findWorkflow _) fun _ => trivial)
      intro wf τ₂ _
      split
      · exact Sound.throw
      · exact executeWith_sound (runner_sound env fuel) fuel _ _

end OwsRuntime
