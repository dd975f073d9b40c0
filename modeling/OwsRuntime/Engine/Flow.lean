import OwsRuntime.Engine.Runtime
import Mathlib.Logic.Relation

/-! The flow of control within a workflow, as its compiled tasks allow it: which
scopes an execution may run, and which task of a scope may follow another. -/
namespace OwsRuntime

/-- The scopes which the engine runs for a workflow itself. -/
def CompiledWorkflow.rootScopes (wf : CompiledWorkflow) : List (List CompiledTask) :=
  wf.tasks :: wf.extensions.flatMap fun ext => [ext.before, ext.after]

/-- The tasks of a workflow, at any depth. -/
inductive CompiledWorkflow.HasTask (wf : CompiledWorkflow) : CompiledTask → Prop where
  | root {tasks : List CompiledTask} {task : CompiledTask} (hScope : tasks ∈ wf.rootScopes)
      (hTask : task ∈ tasks) : HasTask wf task
  | child {task inner : CompiledTask} {scope : List CompiledTask} (outer : HasTask wf task)
      (hScope : scope ∈ task.kind.childScopes) (hTask : inner ∈ scope) : HasTask wf inner
  | branch {task inner : CompiledTask} (outer : HasTask wf task)
      (hBranch : inner ∈ task.kind.forkBranches) : HasTask wf inner

/-- The scopes of a workflow, at any depth. The branches of a fork are none. -/
def CompiledWorkflow.HasScope (wf : CompiledWorkflow) (scope : List CompiledTask) : Prop :=
  scope ∈ wf.rootScopes ∨ ∃ task, wf.HasTask task ∧ scope ∈ task.kind.childScopes

namespace CompiledWorkflow

variable {wf : CompiledWorkflow} {task : CompiledTask} {scope : List CompiledTask}

theorem HasScope.top : wf.HasScope wf.tasks := Or.inl List.mem_cons_self

theorem HasScope.before {ext : CompiledExtension} (hExt : ext ∈ wf.extensions) :
    wf.HasScope ext.before := by
  refine Or.inl (List.mem_cons_of_mem _ ?_)
  exact List.mem_flatMap.mpr ⟨ext, hExt, List.mem_cons_self⟩

theorem HasScope.after {ext : CompiledExtension} (hExt : ext ∈ wf.extensions) :
    wf.HasScope ext.after := by
  refine Or.inl (List.mem_cons_of_mem _ ?_)
  exact List.mem_flatMap.mpr ⟨ext, hExt, List.mem_cons_of_mem _ List.mem_cons_self⟩

theorem HasScope.hasTask (hScope : wf.HasScope scope) (hTask : task ∈ scope) :
    wf.HasTask task := by
  rcases hScope with hRoot | ⟨outer, hOuter, hChild⟩
  · exact HasTask.root hRoot hTask
  · exact HasTask.child hOuter hChild hTask

theorem HasTask.hasScope (hTask : wf.HasTask task) (hScope : scope ∈ task.kind.childScopes) :
    wf.HasScope scope := Or.inr ⟨task, hTask, hScope⟩

end CompiledWorkflow

/-- The directive of a switch case that matches. -/
def SwitchCase.directive (case : SwitchCase) : FlowDirective :=
  (case.then_.map parseDirective).getD .continue_

/-- The directives which a task itself may choose. -/
def CompiledTask.chosen (task : CompiledTask) : List FlowDirective :=
  task.kind.switchCases.map SwitchCase.directive

/-- The directives which a scope may follow after a task. -/
def CompiledTask.directives (task : CompiledTask) : List FlowDirective :=
  (task.then_.map parseDirective).getD .continue_ :: task.chosen

/-- The task to which a directive leads, if it leads to one. -/
def FlowDirective.target? (tasks : List CompiledTask) (index : Nat) : FlowDirective → Option Nat
  | continue_ => some (index + 1)
  | goto name => tasks.findIdx? fun t => t.name = name
  | exit => none
  | end_ => none

/-- One task of a scope may be followed by the other. -/
def Successor (tasks : List CompiledTask) (index next : Nat) : Prop :=
  ∃ task, tasks[index]? = some task ∧ ∃ d ∈ task.directives, d.target? tasks index = some next

/-- A scope that starts at a task may come to the other. -/
def Leads (tasks : List CompiledTask) : Nat → Nat → Prop := Relation.ReflTransGen (Successor tasks)

theorem finalDirective_mem {task : CompiledTask} {exec : TaskExec}
    (hChosen : ∀ d, exec.directive = some d → d ∈ task.chosen) :
    finalDirective task exec ∈ task.directives := by
  unfold finalDirective CompiledTask.directives
  cases hExec : exec.directive with
  | none => exact List.mem_cons_self
  | some d => exact List.mem_cons_of_mem _ (hChosen d hExec)

end OwsRuntime
