import OwsRuntime.CompileScopes
import OwsRuntime.Engine.Runs

/-! Flow directives that lead nowhere. The validator checks the directives of
tasks, in the scopes which it visits; the engine also follows those of switch
cases, of the bodies of listen iterators and of the scopes of extensions. -/
namespace OwsRuntime

open Async

/-- The scopes which the validator visits within a task. -/
def TaskDefinition.checkedScopes : TaskDefinition → List TaskScope
  | do_ _ tasks => [tasks]
  | for_ _ _ _ tasks => [tasks]
  | fork _ branches _ => [branches]
  | try_ _ tasks _ handler => tasks :: handler.toList
  | _ => []

/-- A directive that a scope of these tasks can follow. -/
def TargetIn (tasks : TaskScope) (target : String) : Prop :=
  target = "continue" ∨ target = "exit" ∨ target = "end" ∨ target ∈ scopeNames tasks

/-- Every `then`, of a task or of a switch case, can be followed in its own scope. -/
def AllTargeted (definition : WorkflowDefinition) : Prop :=
  ∀ tasks, Nested TaskDefinition.scopes definition.rootScopes tasks →
    ∀ entry ∈ scopeEntries tasks, ∀ target ∈ entry.2.thens, TargetIn tasks target

/-- What the validator leaves unchecked: every `then` of a switch case can be followed,
and so can the `then` of a task within a listen iterator or an extension. -/
def UncheckedTargeted (definition : WorkflowDefinition) : Prop :=
  ∀ tasks, Nested TaskDefinition.scopes definition.rootScopes tasks →
    ∀ entry ∈ scopeEntries tasks,
      (∀ target ∈ (switchDirectives entry.2).filterMap id, TargetIn tasks target) ∧
      (¬ Nested TaskDefinition.checkedScopes [definition.do_] tasks →
        ∀ target ∈ entry.2.common.then_, TargetIn tasks target)

/-- No run of the workflow fails as a directive targets an unknown task. -/
def NeverLost (wf : CompiledWorkflow) : Prop :=
  ∀ (env : RuntimeInner) (e : Execution), e.Arises env → e.workflow = wf →
    ∀ entry ∈ e.trace, ∀ tasks name, entry.note ≠ .unknownTarget tasks name

section Validator

variable {definition : WorkflowDefinition} {tasks inner : TaskScope} {pointer : String}
  {entry : String × TaskDefinition}

/-- The validator has checked the entries of a scope without issues. -/
theorem validateEntry_of_scope {targets : List String}
    (hValid : validateEntries targets pointer tasks = []) (hEntry : entry ∈ scopeEntries tasks) :
    thenIssues targets entry.2 (pointer ++ "/" ++ entry.1) = [] ∧
      validateNested (pointer ++ "/" ++ entry.1) entry.2 = [] := by
  induction tasks with
  | nil => cases hEntry
  | cons named rest ih =>
      rw [validateEntries, List.append_eq_nil_iff] at hValid
      cases named with
      | nil => exact ih hValid.2 hEntry
      | cons first others =>
          rw [scopeEntries, List.filterMap_cons] at hEntry
          rcases List.mem_cons.mp hEntry with rfl | hRest
          · rw [validateEntry, List.append_eq_nil_iff] at hValid
            exact hValid.1
          · exact ih hValid.2 hRest

/-- A task without issues has only scopes without issues, among those visited. -/
theorem validateTaskScope_of_nested {task : TaskDefinition}
    (hValid : validateNested pointer task = []) (hInner : inner ∈ task.checkedScopes) :
    ∃ place, validateTaskScope inner place = [] := by
  cases task with
  | do_ common body =>
      rw [validateNested] at hValid
      obtain rfl := List.mem_singleton.mp hInner
      exact ⟨_, hValid⟩
  | for_ common loop while_ body =>
      rw [validateNested, List.append_eq_nil_iff] at hValid
      obtain rfl := List.mem_singleton.mp hInner
      exact ⟨_, hValid.2⟩
  | fork common branches compete =>
      rw [validateNested] at hValid
      obtain rfl := List.mem_singleton.mp hInner
      exact ⟨_, hValid⟩
  | try_ common body catch_ handler =>
      rw [validateNested, List.append_eq_nil_iff] at hValid
      rcases List.mem_cons.mp hInner with rfl | hHandler
      · exact ⟨_, hValid.1⟩
      · cases handler with
        | none => cases hHandler
        | some scope =>
            obtain rfl := List.mem_singleton.mp hHandler
            have hScope := hValid.2
            rw [validateHandler] at hScope
            exact ⟨_, hScope⟩
  | _ => cases hInner

theorem validateTaskScope_entries (hValid : validateTaskScope tasks pointer = []) :
    validateEntries (scopeNames tasks) pointer tasks = [] := by
  rw [validateTaskScope, scopeIssues, List.append_eq_nil_iff, List.append_eq_nil_iff] at hValid
  exact hValid.1.2

/-- Every scope which the validator visits is without issues. -/
theorem Nested.validated (hValid : validate definition = [])
    (nested : Nested TaskDefinition.checkedScopes [definition.do_] tasks) :
    ∃ place, validateTaskScope tasks place = [] := by
  induction nested with
  | root hRoot =>
      obtain rfl := List.mem_singleton.mp hRoot
      rw [validate, List.append_eq_nil_iff] at hValid
      exact ⟨_, hValid.2⟩
  | child _ hEntry hInner ih =>
      obtain ⟨place, hScope⟩ := ih
      have hEntries := validateEntry_of_scope (validateTaskScope_entries hScope) hEntry
      exact validateTaskScope_of_nested hEntries.2 hInner

theorem targetIn_of_thenIssues {task : TaskDefinition}
    (hIssues : thenIssues (scopeNames tasks) task pointer = []) {target : String}
    (hTarget : target ∈ task.common.then_) : TargetIn tasks target := by
  rw [Option.mem_def] at hTarget
  rw [thenIssues, commonThen, hTarget] at hIssues
  dsimp only at hIssues
  split at hIssues
  · rename_i hKeyword
    rcases hKeyword with h | h | h
    · exact Or.inl h
    · exact Or.inr (Or.inl h)
    · exact Or.inr (Or.inr (Or.inl h))
  · split at hIssues
    · rename_i hMem
      exact Or.inr (Or.inr (Or.inr hMem))
    · cases hIssues

/-- For a valid definition, the unchecked directives are all that matters. -/
theorem allTargeted_iff (hValid : validate definition = []) :
    AllTargeted definition ↔ UncheckedTargeted definition := by
  constructor
  · intro all tasks nested entry hEntry
    exact ⟨fun target hTarget => all tasks nested entry hEntry target (List.mem_append_right _ hTarget),
      fun _ target hTarget => all tasks nested entry hEntry target
        (List.mem_append_left _ (Option.mem_toList.mpr hTarget))⟩
  · intro unchecked tasks nested entry hEntry target hTarget
    obtain ⟨hCases, hOwn⟩ := unchecked tasks nested entry hEntry
    rcases List.mem_append.mp hTarget with hThen | hCase
    · by_cases hChecked : Nested TaskDefinition.checkedScopes [definition.do_] tasks
      · obtain ⟨place, hScope⟩ := hChecked.validated hValid
        have hEntries := validateEntry_of_scope (validateTaskScope_entries hScope) hEntry
        exact targetIn_of_thenIssues hEntries.1 (Option.mem_toList.mp hThen)
      · exact hOwn hChecked target (Option.mem_toList.mp hThen)
    · exact hCases target hCase

end Validator

theorem parseDirective_keyword {target : String}
    (hKeyword : target = "continue" ∨ target = "exit" ∨ target = "end") (name : String) :
    parseDirective target ≠ .goto name := by
  rcases hKeyword with rfl | rfl | rfl <;> simp [parseDirective]

/-- When every directive can be followed, no run of the compiled workflow fails on
one: a target that is followed is a task of its scope. -/
theorem AllTargeted.neverLost {env : CompileEnv} {definition : WorkflowDefinition}
    {wf : CompiledWorkflow} (all : AllTargeted definition)
    (hCompile : compile env definition = .ok wf) : NeverLost wf := by
  intro runtime e arises hWorkflow entry hEntry tasks name hNote
  obtain ⟨past, later, hTrace⟩ := List.append_of_mem hEntry
  have hJustified := arises.faithful.accounted.split hTrace
  rw [Justified, hNote, hWorkflow] at hJustified
  obtain ⟨hScope, ⟨task, hTask, hGoto⟩, hMissing⟩ := hJustified
  rcases (compile_ok hCompile).scope hScope with rfl | ⟨scope, nested, compiles⟩
  · cases hTask
  · obtain ⟨found, hFound, compiled⟩ := compiles.exists_definition hTask
    obtain ⟨hThen, hParse⟩ := compiled.goto_mem hGoto
    have hTarget := all scope nested found hFound name hThen
    have hNamed : name ∈ scopeNames scope := by
      by_contra hUnnamed
      refine parseDirective_keyword ?_ name hParse
      rcases hTarget with h | h | h | h
      · exact Or.inl h
      · exact Or.inr (Or.inl h)
      · exact Or.inr (Or.inr h)
      · exact absurd h hUnnamed
    rw [← compiles.names, List.mem_map] at hNamed
    obtain ⟨goal, hGoal, hName⟩ := hNamed
    have hNot := List.findIdx?_eq_none_iff.mp hMissing goal hGoal
    simp [hName] at hNot

/-- For a definition that the validator accepts, every directive can be followed
and no run fails on one, if and only if those can be followed which it leaves
unchecked: the directives of switch cases, and those of the tasks within listen
iterators and extensions. -/
theorem WorkflowDefinition.targeted_iff_unchecked {definition : WorkflowDefinition}
    (hValid : validate definition = []) :
    (AllTargeted definition ∧
      ∀ env wf, compile env definition = .ok wf → NeverLost wf) ↔ UncheckedTargeted definition := by
  rw [← allTargeted_iff hValid]
  exact ⟨And.left, fun all => ⟨all, fun _ _ hCompile => all.neverLost hCompile⟩⟩

/-- A switch whose only case leads to this target, and a task after it. -/
def chooses (target : String) : WorkflowDefinition :=
  Sample.definition
    [[("choose", .switch (Sample.fields none) [[("default", { when := none, then_ := some target })]])],
      [("finish", .set (Sample.fields none) (.map []))]]

/-- The scope of a workflow whose tasks nest nothing is the only one. -/
theorem Nested.eq_of_flat {children : TaskDefinition → List TaskScope} {root tasks : TaskScope}
    (nested : Nested children [root] tasks)
    (hFlat : ∀ entry ∈ scopeEntries root, children entry.2 = []) : tasks = root := by
  induction nested with
  | root hRoot => exact List.mem_singleton.mp hRoot
  | child _ hEntry hInner ih =>
      subst ih
      rw [hFlat _ hEntry] at hInner
      cases hInner

theorem chooses_flat {target : String} :
    ∀ entry ∈ scopeEntries (chooses target).do_, entry.2.scopes = [] := by
  intro entry hEntry
  rcases List.mem_cons.mp hEntry with rfl | hEntry
  · rfl
  · obtain rfl := List.mem_singleton.mp hEntry
    rfl

/-- A case that leads to the task after it is never lost. -/
theorem targeted_chooses_finish :
    AllTargeted (chooses "finish") ∧
      ∀ env wf, compile env (chooses "finish") = .ok wf → NeverLost wf := by
  refine (WorkflowDefinition.targeted_iff_unchecked (by decide +kernel)).mpr ?_
  intro tasks nested entry hEntry
  obtain rfl := nested.eq_of_flat chooses_flat
  rcases List.mem_cons.mp hEntry with rfl | hEntry
  · refine ⟨fun target hTarget => ?_, fun _ target hTarget => (by cases hTarget)⟩
    obtain rfl := List.mem_singleton.mp hTarget
    exact Or.inr (Or.inr (Or.inr (List.mem_cons_of_mem _ List.mem_cons_self)))
  · obtain rfl := List.mem_singleton.mp hEntry
    exact ⟨fun target hTarget => (by cases hTarget), fun _ target hTarget => (by cases hTarget)⟩

/-- The scopes and targets which an execution has failed on. -/
def Execution.lost (e : Execution) : List String :=
  e.trace.filterMap fun entry => match entry.note with
    | .unknownTarget _ name => some name
    | _ => none

theorem NeverLost.lost_eq_nil {env : RuntimeInner} {wf : CompiledWorkflow} (never : NeverLost wf)
    {e : Execution} (arises : e.Arises env) (hWorkflow : e.workflow = wf) : e.lost = [] := by
  rw [Execution.lost, List.filterMap_eq_nil_iff]
  intro entry hEntry
  have hNever := never env e arises hWorkflow entry hEntry
  cases hNote : entry.note with
  | unknownTarget tasks name => exact absurd hNote (hNever tasks name)
  | _ => rfl

/-- The validator accepts a case that leads nowhere, and the workflow fails on it. -/
theorem chooses_nowhere_lost :
    validate (chooses "nowhere") = [] ∧ ¬ AllTargeted (chooses "nowhere") ∧
      ∃ wf, compile Sample.compileEnv (chooses "nowhere") = .ok wf ∧ ¬ NeverLost wf := by
  refine ⟨by decide +kernel, fun all => ?_, ?_⟩
  · have hTarget := all _ (Nested.root List.mem_cons_self) _ List.mem_cons_self "nowhere"
      List.mem_cons_self
    rw [TargetIn] at hTarget
    revert hTarget
    decide +kernel
  · have hRun : ((compile Sample.compileEnv (chooses "nowhere")).toOption.bind fun wf =>
        (engine.run (Sample.begin_ wf .null) (List.replicate 13 (.turn .here))).map
          fun d => d.2.shared.lost) = some ["nowhere"] := by decide +kernel
    obtain ⟨wf, hCompile, hRun⟩ := Option.bind_eq_some_iff.mp hRun
    obtain ⟨e, arises, ⟨hWorkflow, _⟩, hLost⟩ := Sample.arises_of_run hRun
    refine ⟨wf, eq_ok_of_toOption hCompile, fun never => ?_⟩
    · rw [never.lost_eq_nil arises hWorkflow] at hLost
      cases hLost

end OwsRuntime
