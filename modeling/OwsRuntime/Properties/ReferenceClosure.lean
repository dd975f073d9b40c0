import OwsRuntime.Properties.FlowTargets
import OwsRuntime.Engine.Accuracy
import OwsRuntime.Registration

/-! References by name. The compiler resolves those to retry policies and timeouts;
errors and functions are looked up when a task runs. -/
namespace OwsRuntime

open Async

/-- A reference to a reusable component or to a function. -/
inductive Reference where
  | error (name : String)
  | retry (name : String)
  | timeout (name : String)
  | function (name : String)
deriving DecidableEq

/-- The reusable component of a call: the function which it calls in turn. -/
def reusableCall (components : Option ComponentDefinitionCollection) (name : String) :
    Option String :=
  match (components.bind (·.functions)).bind (·.lookup name) with
  | some (.call _ target _) => some target
  | _ => none

/-- The runtime finds what is referred to. A function is registered, or is a reusable
one which calls a registered one. -/
def Reference.Resolves (functions : List (String × FunctionInvoker))
    (components : Option ComponentDefinitionCollection) : Reference → Prop
  | error name => ((components.bind (·.errors)).bind (·.lookup name)).isSome
  | retry name => ((components.bind (·.retries)).bind (·.lookup name)).isSome
  | timeout name => ((components.bind (·.timeouts)).bind (·.lookup name)).isSome
  | function name => (functions.lookup name).isSome ∨
      ∃ target, reusableCall components name = some target ∧ (functions.lookup target).isSome

def TimeoutDefinition.references : Option TimeoutDefinition → List Reference
  | some (.reference name) => [.timeout name]
  | _ => []

def RetryDefinition.references : Option RetryDefinition → List Reference
  | some (.reference name) => [.retry name]
  | _ => []

/-- The references of a task that are resolved when it is compiled. -/
def TaskDefinition.compiledReferences (task : TaskDefinition) : List Reference :=
  TimeoutDefinition.references task.common.timeout ++ match task with
    | try_ _ _ catch_ _ => RetryDefinition.references catch_.retry
    | _ => []

/-- The references of a task that are resolved when it runs. -/
def TaskDefinition.runReferences : TaskDefinition → List Reference
  | raise _ (.reference name) => [.error name]
  | call _ name _ => [.function name]
  | _ => []

/-- Every reference of the definition resolves: its own timeout, and the references of
the tasks in every nested scope and extension. -/
structure AllResolved (functions : List (String × FunctionInvoker))
    (definition : WorkflowDefinition) : Prop where
  own : ∀ reference ∈ TimeoutDefinition.references definition.timeout,
    reference.Resolves functions definition.use_
  tasks : ∀ tasks, Nested TaskDefinition.scopes definition.rootScopes tasks →
    ∀ entry ∈ scopeEntries tasks, ∀ reference ∈ entry.2.compiledReferences ++ entry.2.runReferences,
      reference.Resolves functions definition.use_

/-- Every error which a task raises by name is defined, and every function which a task
calls is registered or a reusable one that calls a registered one. -/
def RunReferencesResolved (functions : List (String × FunctionInvoker))
    (definition : WorkflowDefinition) : Prop :=
  ∀ tasks, Nested TaskDefinition.scopes definition.rootScopes tasks →
    ∀ entry ∈ scopeEntries tasks, ∀ reference ∈ entry.2.runReferences,
      reference.Resolves functions definition.use_

/-- No run of the workflow fails as a name does not resolve. -/
def NeverUnresolved (env : RuntimeInner) (wf : CompiledWorkflow) : Prop :=
  ∀ e : Execution, e.Arises env → e.workflow = wf →
    ∀ entry ∈ e.trace, ∀ name, entry.note ≠ .unresolved name

section Compiler

variable {env : CompileEnv} {components : Option ComponentDefinitionCollection}
  {functions : List (String × FunctionInvoker)}

theorem resolves_of_resolveTimeout {timeout : Option TimeoutDefinition} {nanos : Option Nat}
    (hResolve : env.resolveTimeout components timeout = .ok nanos) :
    ∀ reference ∈ TimeoutDefinition.references timeout, reference.Resolves functions components := by
  intro reference hMem
  match timeout with
  | none => cases hMem
  | some (.timeout after) => cases hMem
  | some (.reference name) =>
      obtain rfl := List.mem_singleton.mp hMem
      rw [CompileEnv.resolveTimeout] at hResolve
      split at hResolve
      · cases hResolve
      · rename_i after hLookup
        rw [Reference.Resolves, hLookup]
        rfl

theorem resolves_of_resolveRetry {retry : Option RetryDefinition} {policy : Option RetryPolicyDef}
    (hResolve : resolveRetry components retry = .ok policy) :
    ∀ reference ∈ RetryDefinition.references retry, reference.Resolves functions components := by
  intro reference hMem
  match retry with
  | none => cases hMem
  | some (.retry inline) => cases hMem
  | some (.reference name) =>
      obtain rfl := List.mem_singleton.mp hMem
      rw [resolveRetry] at hResolve
      split at hResolve
      · cases hResolve
      · rename_i found hLookup
        rw [Reference.Resolves, hLookup]
        rfl

/-- The compiler has resolved the references which it is to resolve. -/
theorem CompiledFrom.resolves {entry : String × TaskDefinition} {task : CompiledTask}
    (compiled : CompiledFrom env components entry task) :
    ∀ reference ∈ entry.2.compiledReferences, reference.Resolves functions components := by
  intro reference hMem
  rcases List.mem_append.mp hMem with hTimeout | hRetry
  · exact resolves_of_resolveTimeout compiled.timeout reference hTimeout
  · obtain ⟨name, task⟩ := entry
    obtain ⟨place, hKind⟩ := compiled.kind
    cases task with
    | try_ common body catch_ handler =>
        rw [CompileEnv.compileKind] at hKind
        obtain ⟨scope, _, hKind⟩ := bind_eq_ok hKind
        obtain ⟨retry, hResolve, _⟩ := bind_eq_ok hKind
        exact resolves_of_resolveRetry hResolve reference hRetry
    | _ => cases hRetry

/-- The references which a compiled task resolves when it runs. -/
def CompiledTaskKind.runReferences : CompiledTaskKind → List Reference
  | raise (.reference name) => [.error name]
  | call def_ => [.function def_.call]
  | _ => []

/-- The workflows that a compiled task runs are those which its definition names. There is a case
for each kind of task, as only one of them names any. -/
theorem compileKind_runReferences {place : String} {definition : TaskDefinition}
    {kind : CompiledTaskKind}
    (hCompile : env.compileKind components place definition = .ok kind) :
    kind.runReferences = definition.runReferences := by
  cases definition with
  | set common values => cases values <;> cases hCompile <;> rfl
  | switch common cases_ =>
      cases hCompile
      rfl
  | emit common event =>
      cases hCompile
      rfl
  | call common name with_ =>
      cases hCompile
      rfl
  | raise common error => cases error <;> cases hCompile <;> rfl
  | run common run =>
      obtain ⟨def_, rfl⟩ := compileRun_kind hCompile
      rfl
  | wait common duration =>
      rw [CompileEnv.compileKind] at hCompile
      split at hCompile <;> cases hCompile
      rfl
  | try_ common body catch_ handler =>
      rw [CompileEnv.compileKind] at hCompile
      obtain ⟨scope, _, hCompile⟩ := bind_eq_ok hCompile
      obtain ⟨retry, _, hCompile⟩ := bind_eq_ok hCompile
      obtain ⟨compiled, _, hCompile⟩ := bind_eq_ok hCompile
      cases hCompile
      rfl
  | listen common listen foreach_ foreachDo =>
      cases foreach_ with
      | none =>
          cases hCompile
          rfl
      | some foreach_ =>
          rw [CompileEnv.compileKind] at hCompile
          obtain ⟨body, _, hCompile⟩ := bind_eq_ok hCompile
          cases hCompile
          rfl
  | do_ common tasks | for_ common loop while_ tasks | fork common tasks compete =>
      rw [CompileEnv.compileKind] at hCompile
      obtain ⟨scope, _, hCompile⟩ := bind_eq_ok hCompile
      cases hCompile
      rfl

/-- For a definition that compiles, all references resolve when those do that are left
to the run. -/
theorem WorkflowFrom.allResolved {definition : WorkflowDefinition} {wf : CompiledWorkflow}
    (from_ : WorkflowFrom env definition wf) (resolved : RunReferencesResolved functions definition) :
    AllResolved functions definition := by
  refine ⟨resolves_of_resolveTimeout from_.timeout, fun tasks nested entry hEntry reference hMem => ?_⟩
  rcases List.mem_append.mp hMem with hCompiled | hRun
  · obtain ⟨scope, compiles⟩ := from_.nested nested
    obtain ⟨task, _, compiled⟩ := compiles.exists_task hEntry
    exact compiled.resolves reference hCompiled
  · exact resolved tasks nested entry hEntry reference hRun

end Compiler

section Runs

variable {env : RuntimeInner} {compileEnv : CompileEnv} {definition : WorkflowDefinition}
  {wf : CompiledWorkflow}

/-- The reference of a compiled task is one of the definition. -/
theorem WorkflowFrom.resolves (from_ : WorkflowFrom compileEnv definition wf)
    (resolved : RunReferencesResolved env.functions definition) {task : CompiledTask}
    (hTask : wf.HasTask task) {reference : Reference}
    (hReference : reference ∈ task.kind.runReferences) :
    reference.Resolves env.functions wf.components := by
  obtain ⟨tasks, nested, entry, hEntry, compiled⟩ := from_.task hTask
  obtain ⟨place, hKind⟩ := compiled.kind
  rw [compileKind_runReferences hKind] at hReference
  rw [from_.components]
  exact resolved tasks nested entry hEntry reference hReference

/-- The target of a reusable function is the first part of what the runtime finds. -/
theorem reusableCall_eq_map (wf : CompiledWorkflow) (name : String) :
    reusableCall wf.components name = (resolveFunction wf name).map Prod.fst := by
  unfold reusableCall resolveFunction
  cases (wf.components.bind (·.functions)).bind (·.lookup name) with
  | none => rfl
  | some task => cases task <;> rfl

theorem resolveFunction_target {name : String} {call : String} {with_ : Option Map}
    (hResolve : resolveFunction wf name = some (call, with_)) :
    reusableCall wf.components name = some call := by
  rw [reusableCall_eq_map, hResolve]
  rfl

theorem reusableCall_of_resolveFunction {name : String}
    (hResolve : resolveFunction wf name = none) : reusableCall wf.components name = none := by
  rw [reusableCall_eq_map, hResolve]
  rfl

/-- A call of a function that resolves finds it. -/
theorem CallDef.Lacks.not_resolves {def_ : CallDef} {name : String}
    (lacks : def_.Lacks env wf name) :
    ¬ (Reference.function def_.call).Resolves env.functions wf.components := by
  rintro (hOwn | ⟨target, hTarget, hRegistered⟩)
  · cases lacks with
    | function hNone _ => simp [hNone] at hOwn
    | target hNone _ _ => simp [hNone] at hOwn
  · cases lacks with
    | function _ hReusable =>
        rw [reusableCall_of_resolveFunction hReusable] at hTarget
        cases hTarget
    | target _ hReusable hMissing =>
        rw [resolveFunction_target hReusable] at hTarget
        cases hTarget
        simp [hMissing] at hRegistered

/-- A workflow whose references to errors and functions resolve lacks none of them: whatever its
tasks name is found at run time. -/
theorem WorkflowFrom.lacks_nothing (from_ : WorkflowFrom compileEnv definition wf)
    (resolved : RunReferencesResolved env.functions definition) (name : String) :
    ¬ wf.Lacks env name := by
  intro lacks
  cases lacks with
  | @error task error hTask hKind hError =>
      cases error with
      | inline inline => cases hError
      | reference target =>
          have hMem : .error target ∈ task.kind.runReferences := by
            rw [hKind]
            exact List.mem_cons_self
          have hResolves := from_.resolves resolved hTask hMem
          have hUndefined : (wf.components.bind (·.errors)).bind (·.lookup target) = none := hError
          rw [Reference.Resolves, hUndefined] at hResolves
          cases hResolves
  | @function task def_ name hTask hKind hCall =>
      have hMem : .function def_.call ∈ task.kind.runReferences := by
        rw [hKind]
        exact List.mem_cons_self
      exact hCall.not_resolves (from_.resolves resolved hTask hMem)

/-- When a definition is registered, all its references resolve and no run of the
workflow fails on one, if and only if the references to errors and functions resolve. -/
theorem registerDefinition_closed_iff (hRegister : registerDefinition env compileEnv definition = .ok wf) :
    (AllResolved env.functions definition ∧ NeverUnresolved env wf) ↔
      RunReferencesResolved env.functions definition := by
  have from_ := compile_ok (registered_of_registerDefinition hRegister).compiled
  constructor
  · rintro ⟨all, _⟩ tasks nested entry hEntry reference hMem
    exact all.tasks tasks nested entry hEntry reference (List.mem_append_right _ hMem)
  · intro resolved
    refine ⟨from_.allResolved resolved, fun e arises hWorkflow entry hEntry name hNote => ?_⟩
    have accurate := arises.accurate entry hEntry
    rw [hNote, hWorkflow] at accurate
    exact from_.lacks_nothing resolved name accurate

end Runs

/-- A workflow that raises the error of this name, with one error defined. -/
def raises (name : String) : WorkflowDefinition :=
  { Sample.definition [[("refuse", .raise (Sample.fields none) (.reference name))]] with
    use_ := some
      { errors := some [("declined", { type := "declined", title := "Declined", status := .null
                                       detail := none, pointer := none })]
        functions := none, retries := none, timeouts := none, secrets := none, extensions := none } }

theorem raises_flat {name : String} :
    ∀ entry ∈ scopeEntries (raises name).do_, entry.2.scopes = [] := by
  intro entry hEntry
  obtain rfl := List.mem_singleton.mp hEntry
  rfl

/-- The defined error is found in every run. -/
theorem closed_raises_declined :
    ∃ wf, registerDefinition Sample.runtime Sample.compileEnv (raises "declined") = .ok wf ∧
      AllResolved Sample.runtime.functions (raises "declined") ∧ NeverUnresolved Sample.runtime wf := by
  have hAccepted : (registerDefinition Sample.runtime Sample.compileEnv
      (raises "declined")).toOption.isSome := by decide +kernel
  obtain ⟨wf, hRegister⟩ := Option.isSome_iff_exists.mp hAccepted
  have hRegister := eq_ok_of_toOption hRegister
  refine ⟨wf, hRegister, (registerDefinition_closed_iff hRegister).mpr ?_⟩
  intro tasks nested entry hEntry reference hMem
  obtain rfl := nested.eq_of_flat raises_flat
  obtain rfl := List.mem_singleton.mp hEntry
  obtain rfl := List.mem_singleton.mp hMem
  rfl

/-- The names which an execution has not found. -/
def Execution.missed (e : Execution) : List String :=
  e.trace.filterMap fun entry => match entry.note with
    | .unresolved name => some name
    | _ => none

theorem NeverUnresolved.missed_eq_nil {env : RuntimeInner} {wf : CompiledWorkflow}
    (never : NeverUnresolved env wf) {e : Execution} (arises : e.Arises env)
    (hWorkflow : e.workflow = wf) : e.missed = [] := by
  rw [Execution.missed, List.filterMap_eq_nil_iff]
  intro entry hEntry
  have hNever := never e arises hWorkflow entry hEntry
  cases hNote : entry.note with
  | unresolved name => exact absurd hNote (hNever name)
  | _ => rfl

/-- A definition that raises an undefined error is registered, and its run fails on it. -/
theorem raises_missing_not_closed :
    ∃ wf, registerDefinition Sample.runtime Sample.compileEnv (raises "missing") = .ok wf ∧
      ¬ AllResolved Sample.runtime.functions (raises "missing") ∧
      ¬ NeverUnresolved Sample.runtime wf := by
  have hRun : ((registerDefinition Sample.runtime Sample.compileEnv
      (raises "missing")).toOption.bind fun wf =>
        (engine.run (Sample.begin_ wf .null) (List.replicate 9 (.turn .here))).map
          fun d => d.2.shared.missed) = some ["missing"] := by decide +kernel
  obtain ⟨wf, hRegister, hRun⟩ := Option.bind_eq_some_iff.mp hRun
  obtain ⟨e, arises, ⟨hWorkflow, _⟩, hMissed⟩ := Sample.arises_of_run hRun
  refine ⟨wf, eq_ok_of_toOption hRegister, fun all => ?_, fun never => ?_⟩
  · have hResolves := all.tasks _ (Nested.root List.mem_cons_self) _ List.mem_cons_self
      (.error "missing") List.mem_cons_self
    rw [Reference.Resolves] at hResolves
    revert hResolves
    decide +kernel
  · rw [never.missed_eq_nil arises hWorkflow] at hMissed
    cases hMissed

end OwsRuntime
