import OwsRuntime.Async.Own
import OwsRuntime.Async.Triples
import OwsRuntime.Engine.Flow

/-! The directives that are followed. A task chooses one of its own, and the loop over a
scope goes on with a task to which it leads. -/
namespace OwsRuntime

open Async
open Async.Handler (Ensures)

variable {env : RuntimeInner} {r : Runner} {wf : CompiledWorkflow} {ctx : ExecContext}
  {task : CompiledTask} {input : Value} {allowed : engine.Choice → Prop}

/-- Nothing is known of requests. -/
def anyEffect : Effect engine where
  inv _ _ := True
  lasting _ := ⟨fun _ _ => trivial, fun _ _ => trivial⟩
  may _ _ _ _ := True
  perform_may _ _ := ⟨trivial, trivial⟩

/-- A task that succeeds has a directive of its own, if it has any. -/
def ChoosesOwn (task : CompiledTask) (result : Except WorkflowError TaskExec) (_ : TaskLocal) : Prop :=
  ∀ exec, result = .ok exec → ∀ d, exec.directive = some d → d ∈ task.chosen

theorem chosesOwn_error {task : CompiledTask} {e : WorkflowError} {l : TaskLocal} :
    ChoosesOwn task (.error e) l := fun _ h => by cases h

/-- Whatever comes first, the directive is that of the program that follows. -/
theorem chooses_seq {α : Type} {p : Run α} {f : α → Run TaskExec} {l : TaskLocal}
    (second : ∀ a m, anyEffect.Leaves (fun _ => True) (f a).run (ChoosesOwn task) m) :
    anyEffect.Leaves (fun _ => True) (p >>= f).run (ChoosesOwn task) l :=
  Effect.Leaves.seq (Effect.Leaves.any p.run) (fun a m _ => second a m)
    fun _ _ _ => chosesOwn_error

theorem matchCases_chooses {cases_ : List SwitchCase} {vars : Map} {l : TaskLocal} :
    anyEffect.Leaves (fun _ => True) (matchCases env input vars cases_).run
      (fun result _ => ∀ directive, result = .ok directive →
        ∀ d, directive = some d → d ∈ cases_.map SwitchCase.directive) l := by
  induction cases_ generalizing l with
  | nil =>
      rintro _ hOk d rfl
      cases hOk
  | cons case rest ih =>
      apply Effect.Leaves.seq (Effect.Leaves.any _) _ (fun _ _ _ _ h => by cases h)
      intro holds m _
      split
      · rintro _ hOk d rfl
        cases hOk
        exact List.mem_cons_self
      · refine ih.mono fun result m hMem directive hOk d hSome => ?_
        exact List.mem_cons_of_mem _ (hMem directive hOk d hSome)

/-- The body of a task chooses a directive only for a switch task, and then one of its own cases. -/
theorem dispatch_chooses {exprCtx : ExpressionContext} {position : Nat} {l : TaskLocal} :
    anyEffect.Leaves (fun _ => True) (dispatch env r wf ctx task input exprCtx position).run
      (ChoosesOwn task) l := by
  have hPlain : ∀ output : Run Value, anyEffect.Leaves (fun _ => True)
      (dispatch.plain output).run (ChoosesOwn task) l := by
    intro output
    apply chooses_seq
    rintro value m _ hOk d hSome
    cases hOk
    cases hSome
  unfold dispatch
  split
  · exact hPlain _
  · exact hPlain _
  · exact hPlain _
  · exact hPlain _
  · rename_i cases_ hKind
    apply Effect.Leaves.seq matchCases_chooses _ (fun _ _ _ => chosesOwn_error)
    intro directive m hMem exec hOk d hSome
    cases hOk
    rw [CompiledTask.chosen, hKind]
    exact hMem directive rfl d hSome
  · exact hPlain _
  · exact hPlain _
  · exact hPlain _
  · apply chooses_seq
    exact fun _ _ => chosesOwn_error
  · exact hPlain _
  · exact hPlain _
  · exact hPlain _

theorem runBody_chooses {exprCtx : ExpressionContext} {skipBody : Bool} {ticket : Nat}
    {l : TaskLocal} :
    anyEffect.Leaves (fun _ => True) (runBody env r wf ctx task input exprCtx skipBody ticket).run
      (ChoosesOwn task) l := by
  unfold runBody
  split
  · rintro exec hOk d hSome
    cases hOk
    cases hSome
  · exact Effect.Leaves.lift (Effect.Leaves.any _) fun position m _ => dispatch_chooses

/-- So does the whole task: neither its extensions nor its transformations have a say in what is run
next. -/
theorem runTask_chooses {ticket : Nat} {l : TaskLocal} :
    anyEffect.Leaves (fun _ => True) (runTask env r wf ctx task input ticket).run
      (ChoosesOwn task) l := by
  unfold runTask
  apply chooses_seq
  intro _ _
  apply chooses_seq
  intro taskInput _
  apply chooses_seq
  intro extensions _
  apply chooses_seq
  intro before _
  apply chooses_seq
  intro _ _
  apply chooses_seq
  intro context _
  apply chooses_seq
  intro loc _
  apply Effect.Leaves.seq runBody_chooses _ (fun _ _ _ => chosesOwn_error)
  intro exec _ hExec
  apply chooses_seq
  intro transformed _
  apply chooses_seq
  intro transformed _
  apply chooses_seq
  intro _ _
  apply chooses_seq
  rintro ⟨newContext, source⟩ _
  apply chooses_seq
  intro _ _
  apply chooses_seq
  rintro _ _ other hOk d hSome
  cases hOk
  exact hExec exec rfl d hSome

theorem execTask_chooses {ticket : Nat} {l : TaskLocal} :
    anyEffect.Leaves (fun _ => True) (execTask env r wf ctx task input ticket).run
      (ChoosesOwn task) l := by
  unfold execTask
  apply chooses_seq
  intro holds m
  split
  · exact runTask_chooses
  · rintro exec hOk d hSome
    cases hOk
    cases hSome

theorem execTimed_chooses {ticket : Nat} {l : TaskLocal} :
    anyEffect.Leaves (fun _ => True) (execTimed env r wf ctx task input ticket).run
      (ChoosesOwn task) l := by
  unfold execTimed
  split
  · exact ⟨execTask_chooses.mono fun _ _ hExec => hExec, fun _ _ => chosesOwn_error⟩
  · exact execTask_chooses

/-- A scope that goes on does so with a successor of the task. -/
def GoesOn (tasks : List CompiledTask) (index : Nat) (result : Except WorkflowError ScopeState)
    (_ : TaskLocal) : Prop :=
  ∀ next output, result = .ok (.running next output) → Successor tasks index next

theorem goesOn_error {tasks : List CompiledTask} {index : Nat} {e : WorkflowError} {l : TaskLocal} :
    GoesOn tasks index (.error e) l := fun _ _ h => by cases h

theorem goesOn_finished {tasks : List CompiledTask} {index : Nat} {output : Value} {l : TaskLocal} :
    GoesOn tasks index (.ok (.finished output)) l := fun _ _ h => by cases h

theorem goesOn_seq {tasks : List CompiledTask} {index : Nat} {α : Type} {p : Run α}
    {f : α → Run ScopeState} {l : TaskLocal}
    (second : ∀ a m, anyEffect.Leaves (fun _ => True) (f a).run (GoesOn tasks index) m) :
    anyEffect.Leaves (fun _ => True) (p >>= f).run (GoesOn tasks index) l :=
  Effect.Leaves.seq (Effect.Leaves.any p.run) (fun a m _ => second a m) fun _ _ _ => goesOn_error

/-- Following a directive of a task leads to a successor of the task, if the scope goes on at all.
There is a case for each directive. -/
theorem followDirective_goesOn {tasks : List CompiledTask} {index : Nat} {l : TaskLocal}
    {directive : FlowDirective} (hTask : tasks[index]? = some task)
    (hDirective : directive ∈ task.directives) :
    anyEffect.Leaves (fun _ => True) (followDirective ctx tasks index directive input).run
      (GoesOn tasks index) l := by
  cases directive with
  | continue_ =>
      apply goesOn_seq
      rintro _ m next output hOk
      cases hOk
      exact ⟨task, hTask, .continue_, hDirective, rfl⟩
  | goto name =>
      rw [followDirective]
      split
      · rename_i next hFound
        apply goesOn_seq
        rintro _ m other output hOk
        cases hOk
        exact ⟨task, hTask, .goto name, hDirective, hFound⟩
      · exact goesOn_seq fun _ _ => goesOn_error
  | exit => exact goesOn_seq fun _ _ => goesOn_finished
  | end_ => exact goesOn_seq fun _ _ => goesOn_finished

/-- So does a step of a scope as a whole, whether the task at its index has been skipped or run. -/
theorem scopeStep_goesOn {tasks : List CompiledTask} {index : Nat} {l : TaskLocal} :
    anyEffect.Leaves (fun _ => True) (scopeStep env r wf ctx tasks index input).run
      (GoesOn tasks index) l := by
  unfold scopeStep
  apply goesOn_seq
  intro _ _
  apply goesOn_seq
  intro ended _
  split
  · exact goesOn_finished
  · split
    · exact goesOn_finished
    · rename_i task hTask
      apply goesOn_seq
      intro ticket _
      apply Effect.Leaves.seq execTimed_chooses _ fun _ _ _ => goesOn_error
      intro exec m hExec
      exact followDirective_goesOn hTask (finalDirective_mem (hExec exec rfl))

/-- In every run, a scope goes on with a successor of the task. -/
theorem scopeStep_ensures {tasks : List CompiledTask} {index : Nat} {σ : EngineState} :
    Ensures allowed (fun _ => True) (fun result τ => GoesOn tasks index result τ.loc)
      (scopeStep env r wf ctx tasks index input).run σ := by
  intro d follows
  have hLeaves := @scopeStep_goesOn env r wf ctx input tasks index σ.loc
  exact ⟨trivial, (hLeaves.follows trivial follows).2.1⟩

end OwsRuntime
