import OwsRuntime.Compile
import OwsRuntime.Engine.Flow

/-! What compilation keeps of the scopes of a definition: their tasks in order,
their names, guards and directives, and the scopes nested in them. -/
namespace OwsRuntime

/-- The scopes which a task definition nests and which are run as scopes. -/
def TaskDefinition.childScopes : TaskDefinition → List TaskScope
  | do_ _ tasks => [tasks]
  | for_ _ _ _ tasks => [tasks]
  | try_ _ tasks _ handler => tasks :: handler.toList
  | listen _ _ (some _) foreachDo => foreachDo.toList
  | _ => []

/-- The branches of a fork definition. -/
def TaskDefinition.branches : TaskDefinition → List TaskScope
  | fork _ branches _ => [branches]
  | _ => []

/-- All the scopes within a task that are compiled. -/
def TaskDefinition.scopes (task : TaskDefinition) : List TaskScope :=
  task.childScopes ++ task.branches

/-- The `then` directives of a task definition: its own, and those of its cases. -/
def TaskDefinition.thens (task : TaskDefinition) : List String :=
  task.common.then_.toList ++ (switchDirectives task).filterMap id

variable {env : CompileEnv} {components : Option ComponentDefinitionCollection}

/-- A scope is compiled from a scope of definitions. -/
def CompilesTo (env : CompileEnv) (components : Option ComponentDefinitionCollection)
    (tasks : TaskScope) (scope : List CompiledTask) : Prop :=
  ∃ base index, env.compileEntries components base index tasks = .ok scope

/-- A task is compiled from a named definition. -/
structure CompiledFrom (env : CompileEnv) (components : Option ComponentDefinitionCollection)
    (entry : String × TaskDefinition) (task : CompiledTask) : Prop where
  name : task.name = entry.1
  then_ : task.then_ = entry.2.common.then_
  if_ : task.if_ = entry.2.common.if_
  input : task.input = compileData entry.2.common.input
  output : task.output = compileData entry.2.common.output
  export_ : task.export_ = compileData entry.2.common.export_
  timeout : env.resolveTimeout components entry.2.common.timeout = .ok task.timeout
  kind : ∃ reference, env.compileKind components reference entry.2 = .ok task.kind

theorem compileEntry_ok {base : String} {index : Nat} {name : String} {definition : TaskDefinition}
    {rest : List (String × TaskDefinition)} {compiled : Option CompiledTask}
    (hCompile : env.compileEntry components base index ((name, definition) :: rest) = .ok compiled) :
    ∃ task, compiled = some task ∧ CompiledFrom env components (name, definition) task := by
  rw [CompileEnv.compileEntry] at hCompile
  obtain ⟨kind, hKind, hCompile⟩ := bind_eq_ok hCompile
  obtain ⟨timeout, hTimeout, hCompile⟩ := bind_eq_ok hCompile
  cases hCompile
  exact ⟨_, rfl, rfl, rfl, rfl, rfl, rfl, rfl, hTimeout, _, hKind⟩

/-- The tasks of a compiled scope are those of the definition, in their order. -/
theorem CompilesTo.tasks {tasks : TaskScope} {scope : List CompiledTask}
    (compiles : CompilesTo env components tasks scope) :
    List.Forall₂ (CompiledFrom env components) (scopeEntries tasks) scope := by
  obtain ⟨base, index, hCompile⟩ := compiles
  induction tasks generalizing index scope with
  | nil =>
      rw [CompileEnv.compileEntries] at hCompile
      cases hCompile
      exact List.Forall₂.nil
  | cons entry rest ih =>
      rw [CompileEnv.compileEntries] at hCompile
      obtain ⟨compiled, hEntry, hCompile⟩ := bind_eq_ok hCompile
      cases entry with
      | nil =>
          rw [CompileEnv.compileEntry] at hEntry
          cases hEntry
          exact ih _ hCompile
      | cons named others =>
          obtain ⟨task, rfl, hTask⟩ := compileEntry_ok hEntry
          obtain ⟨more, hMore, hCompile⟩ := bind_eq_ok hCompile
          cases hCompile
          exact List.Forall₂.cons hTask (ih _ hMore)

theorem CompilesTo.names {tasks : TaskScope} {scope : List CompiledTask}
    (compiles : CompilesTo env components tasks scope) :
    scope.map CompiledTask.name = scopeNames tasks := by
  have hTasks := compiles.tasks
  rw [scopeNames]
  clear compiles
  generalize scopeEntries tasks = entries at hTasks ⊢
  induction hTasks with
  | nil => rfl
  | cons hTask _ ih => rw [List.map_cons, List.map_cons, hTask.name, ih]

theorem CompilesTo.getElem? {tasks : TaskScope} {scope : List CompiledTask}
    (compiles : CompilesTo env components tasks scope) {index : Nat} {task : CompiledTask}
    (hTask : scope[index]? = some task) :
    ∃ entry, (scopeEntries tasks)[index]? = some entry ∧ CompiledFrom env components entry task := by
  have hTasks := compiles.tasks
  clear compiles
  generalize scopeEntries tasks = entries at hTasks ⊢
  induction hTasks generalizing index with
  | nil => cases hTask
  | cons hHead _ ih =>
      cases index with
      | zero =>
          cases hTask
          exact ⟨_, rfl, hHead⟩
      | succ index => exact ih hTask

theorem CompilesTo.exists_definition {tasks : TaskScope} {scope : List CompiledTask}
    (compiles : CompilesTo env components tasks scope) {task : CompiledTask} (hTask : task ∈ scope) :
    ∃ entry ∈ scopeEntries tasks, CompiledFrom env components entry task := by
  obtain ⟨index, hIndex⟩ := List.mem_iff_getElem?.mp hTask
  obtain ⟨entry, hEntry, compiled⟩ := compiles.getElem? hIndex
  exact ⟨entry, List.mem_of_getElem? hEntry, compiled⟩

/-- Every definition of a compiled scope is compiled. -/
theorem CompilesTo.exists_task {tasks : TaskScope} {scope : List CompiledTask}
    (compiles : CompilesTo env components tasks scope) {entry : String × TaskDefinition}
    (hEntry : entry ∈ scopeEntries tasks) : ∃ task ∈ scope, CompiledFrom env components entry task := by
  have hTasks := compiles.tasks
  clear compiles
  generalize scopeEntries tasks = entries at hTasks hEntry
  induction hTasks with
  | nil => cases hEntry
  | cons hHead _ ih =>
      rcases List.mem_cons.mp hEntry with rfl | hRest
      · exact ⟨_, List.mem_cons_self, hHead⟩
      · obtain ⟨task, hTask, compiled⟩ := ih hRest
        exact ⟨task, List.mem_cons_of_mem _ hTask, compiled⟩

theorem compileHandler_ok {base : String} {handler : Option TaskScope}
    {compiled : Option (List CompiledTask)}
    (hCompile : env.compileHandler components base handler = .ok compiled) {scope : List CompiledTask}
    (hScope : scope ∈ compiled) : ∃ tasks ∈ handler, CompilesTo env components tasks scope := by
  cases handler with
  | none =>
      rw [CompileEnv.compileHandler] at hCompile
      cases hCompile
      cases hScope
  | some tasks =>
      rw [CompileEnv.compileHandler] at hCompile
      obtain ⟨found, hFound, hCompile⟩ := bind_eq_ok hCompile
      cases hCompile
      cases hScope
      exact ⟨tasks, rfl, base, 0, hFound⟩

theorem compileRun_kind {run : RunDefinition} {kind : CompiledTaskKind}
    (hCompile : compileRun run = .ok kind) : ∃ def_, kind = .run def_ := by
  rw [compileRun] at hCompile
  split at hCompile <;> cases hCompile <;> exact ⟨_, rfl⟩

/-- What a compiled kind keeps of its definition. -/
structure KindFrom (env : CompileEnv) (components : Option ComponentDefinitionCollection)
    (definition : TaskDefinition) (kind : CompiledTaskKind) : Prop where
  /-- Without an iterator scope, a listen task iterates over an empty one. -/
  childScopes : ∀ scope ∈ kind.childScopes, scope = [] ∨
    ∃ tasks ∈ definition.childScopes, CompilesTo env components tasks scope
  branches : ∀ task ∈ kind.forkBranches, ∃ tasks ∈ definition.branches,
    ∃ scope, CompilesTo env components tasks scope ∧ task ∈ scope
  cases_ : kind.switchCases.map SwitchCase.then_ = switchDirectives definition

/-- A kind without tasks of its own keeps its definition when it keeps the directives of its cases. -/
theorem KindFrom.plain {definition : TaskDefinition} {kind : CompiledTaskKind}
    (hScopes : kind.childScopes = []) (hBranches : kind.forkBranches = [])
    (hCases : kind.switchCases.map SwitchCase.then_ = switchDirectives definition) :
    KindFrom env components definition kind where
  childScopes scope hMem := by
    rw [hScopes] at hMem
    cases hMem
  branches task hMem := by
    rw [hBranches] at hMem
    cases hMem
  cases_ := hCases

/-- A kind with one scope, as `do` and `for` have it, keeps its definition when that scope has been
compiled from the one of the definition. -/
theorem KindFrom.single {definition : TaskDefinition} {kind : CompiledTaskKind} {tasks : TaskScope}
    {scope : List CompiledTask} (hTasks : tasks ∈ definition.childScopes)
    (compiles : CompilesTo env components tasks scope) (hScopes : kind.childScopes = [scope])
    (hBranches : kind.forkBranches = []) (hCases : kind.switchCases = [])
    (hDirectives : switchDirectives definition = []) : KindFrom env components definition kind where
  childScopes other hMem := by
    rw [hScopes, List.mem_singleton] at hMem
    exact Or.inr ⟨tasks, hTasks, hMem ▸ compiles⟩
  branches task hMem := by
    rw [hBranches] at hMem
    cases hMem
  cases_ := by
    rw [hCases, hDirectives]
    rfl

/-- The branches of a fork are the tasks of one scope, which is not run as a scope. -/
theorem KindFrom.fork {common : TaskDefinitionFields} {branches : TaskScope} {compete : Bool}
    {scope : List CompiledTask} (compiles : CompilesTo env components branches scope) :
    KindFrom env components (.fork common branches compete) (.fork scope compete) where
  childScopes _ hMem := by cases hMem
  branches _ hMem := ⟨branches, List.mem_cons_self, scope, compiles, hMem⟩
  cases_ := rfl

/-- A try task has the scope of its body and, where it has a handler, the scope of that. -/
theorem KindFrom.try_ {common : TaskDefinitionFields} {tasks : TaskScope} {catch_ : CatchDefinition}
    {handler : Option TaskScope} {base : String} {body : List CompiledTask} {def_ : CatchDef}
    {compiled : Option (List CompiledTask)} (hBody : CompilesTo env components tasks body)
    (hHandler : env.compileHandler components base handler = .ok compiled) :
    KindFrom env components (.try_ common tasks catch_ handler) (.try_ body def_ compiled) where
  childScopes scope hMem := by
    right
    rcases List.mem_cons.mp hMem with rfl | hMem
    · exact ⟨tasks, List.mem_cons_self, hBody⟩
    · obtain ⟨found, hFound, compiles⟩ := compileHandler_ok hHandler (Option.mem_toList.mp hMem)
      exact ⟨found, List.mem_cons_of_mem _ (Option.mem_toList.mpr hFound), compiles⟩
  branches _ hMem := by cases hMem
  cases_ := rfl

/-- A listen task that iterates has the scope of its iterator, or an empty one if it has none. -/
theorem KindFrom.listen {common : TaskDefinitionFields} {listen : ListenDefinition}
    {foreach_ : ForeachDefinition} {foreachDo : Option TaskScope} {base : String}
    {compiled : Option (List CompiledTask)} {def_ : ListenDef} {fe : ListenForeachDef}
    (hBody : env.compileHandler components base foreachDo = .ok compiled) :
    KindFrom env components (.listen common listen (some foreach_) foreachDo)
      (.listen def_ (some (fe, compiled.getD []))) where
  childScopes scope hMem := by
    have hScope : scope = compiled.getD [] := by
      simpa [CompiledTaskKind.childScopes] using hMem
    cases compiled with
    | none => exact Or.inl hScope
    | some found =>
        subst hScope
        obtain ⟨tasks, hTasks, compiles⟩ := compileHandler_ok hBody rfl
        exact Or.inr ⟨tasks, Option.mem_toList.mpr hTasks, compiles⟩
  branches _ hMem := by cases hMem
  cases_ := rfl

/-- Whatever the compiler makes of a definition keeps its scopes, its branches and the directives
of its cases. There is a case for each kind of task, and a lemma for each kind with tasks in it. -/
theorem compileKind_ok {reference : String} {definition : TaskDefinition} {kind : CompiledTaskKind}
    (hCompile : env.compileKind components reference definition = .ok kind) :
    KindFrom env components definition kind := by
  cases definition with
  | set common values => cases values <;> cases hCompile <;> exact .plain rfl rfl rfl
  | do_ common tasks =>
      rw [CompileEnv.compileKind] at hCompile
      obtain ⟨scope, hScope, hCompile⟩ := bind_eq_ok hCompile
      cases hCompile
      exact .single List.mem_cons_self ⟨_, _, hScope⟩ rfl rfl rfl rfl
  | for_ common loop while_ tasks =>
      rw [CompileEnv.compileKind] at hCompile
      obtain ⟨scope, hScope, hCompile⟩ := bind_eq_ok hCompile
      cases hCompile
      exact .single List.mem_cons_self ⟨_, _, hScope⟩ rfl rfl rfl rfl
  | fork common branches compete =>
      rw [CompileEnv.compileKind] at hCompile
      obtain ⟨scope, hScope, hCompile⟩ := bind_eq_ok hCompile
      cases hCompile
      exact .fork ⟨_, _, hScope⟩
  | switch common cases_ =>
      cases hCompile
      refine .plain rfl rfl ?_
      simp [CompiledTaskKind.switchCases, switchDirectives, compileSwitch, List.map_map,
        Function.comp_def]
  | try_ common tasks catch_ handler =>
      rw [CompileEnv.compileKind] at hCompile
      obtain ⟨body, hBody, hCompile⟩ := bind_eq_ok hCompile
      obtain ⟨retry, _, hCompile⟩ := bind_eq_ok hCompile
      obtain ⟨compiled, hHandler, hCompile⟩ := bind_eq_ok hCompile
      cases hCompile
      exact .try_ ⟨_, _, hBody⟩ hHandler
  | emit common event =>
      cases hCompile
      exact .plain rfl rfl rfl
  | listen common listen foreach_ foreachDo =>
      cases foreach_ with
      | none =>
          cases hCompile
          exact .plain rfl rfl rfl
      | some foreach_ =>
          rw [CompileEnv.compileKind] at hCompile
          obtain ⟨body, hBody, hCompile⟩ := bind_eq_ok hCompile
          cases hCompile
          exact .listen hBody
  | raise common error => cases error <;> cases hCompile <;> exact .plain rfl rfl rfl
  | call common call with_ =>
      cases hCompile
      exact .plain rfl rfl rfl
  | run common run =>
      obtain ⟨def_, rfl⟩ := compileRun_kind hCompile
      exact .plain rfl rfl rfl
  | wait common duration =>
      rw [CompileEnv.compileKind] at hCompile
      split at hCompile <;> cases hCompile
      exact .plain rfl rfl rfl

theorem compileHandler_nested {base : String} {handler : Option TaskScope}
    {compiled : Option (List CompiledTask)}
    (hCompile : env.compileHandler components base handler = .ok compiled) {tasks : TaskScope}
    (hTasks : tasks ∈ handler.toList) : ∃ scope, CompilesTo env components tasks scope := by
  obtain rfl := Option.mem_toList.mp hTasks
  rw [CompileEnv.compileHandler] at hCompile
  obtain ⟨found, hFound, _⟩ := bind_eq_ok hCompile
  exact ⟨found, base, 0, hFound⟩

/-- A task is compiled only with all the scopes within it: the compiler comes to every list of
tasks, whether it is run as a scope or as the branches of a fork. -/
theorem compileKind_nested {reference : String} {definition : TaskDefinition}
    {kind : CompiledTaskKind}
    (hCompile : env.compileKind components reference definition = .ok kind) {tasks : TaskScope}
    (hTasks : tasks ∈ definition.scopes) : ∃ scope, CompilesTo env components tasks scope := by
  cases definition with
  | do_ common body =>
      obtain rfl := List.mem_singleton.mp hTasks
      rw [CompileEnv.compileKind] at hCompile
      obtain ⟨scope, hScope, _⟩ := bind_eq_ok hCompile
      exact ⟨scope, _, _, hScope⟩
  | for_ common loop while_ body =>
      obtain rfl := List.mem_singleton.mp hTasks
      rw [CompileEnv.compileKind] at hCompile
      obtain ⟨scope, hScope, _⟩ := bind_eq_ok hCompile
      exact ⟨scope, _, _, hScope⟩
  | fork common branches compete =>
      obtain rfl := List.mem_singleton.mp hTasks
      rw [CompileEnv.compileKind] at hCompile
      obtain ⟨scope, hScope, _⟩ := bind_eq_ok hCompile
      exact ⟨scope, _, _, hScope⟩
  | try_ common body catch_ handler =>
      rw [CompileEnv.compileKind] at hCompile
      obtain ⟨scope, hScope, hCompile⟩ := bind_eq_ok hCompile
      obtain ⟨retry, _, hCompile⟩ := bind_eq_ok hCompile
      obtain ⟨compiled, hHandler, _⟩ := bind_eq_ok hCompile
      have hScopes : tasks ∈ body :: handler.toList := by
        simpa [TaskDefinition.scopes, TaskDefinition.childScopes, TaskDefinition.branches] using hTasks
      rcases List.mem_cons.mp hScopes with rfl | hTasks
      · exact ⟨scope, _, _, hScope⟩
      · exact compileHandler_nested hHandler hTasks
  | listen common listen foreach_ foreachDo =>
      cases foreach_ with
      | none => cases hTasks
      | some foreach_ =>
          rw [CompileEnv.compileKind] at hCompile
          obtain ⟨body, hBody, _⟩ := bind_eq_ok hCompile
          refine compileHandler_nested hBody ?_
          simpa [TaskDefinition.scopes, TaskDefinition.childScopes, TaskDefinition.branches] using hTasks
  | _ => cases hTasks

/-- The names to which a compiled task can go are those in the directives of its definition, in its
own and in those of its cases. -/
theorem CompiledFrom.goto_mem {entry : String × TaskDefinition} {task : CompiledTask}
    (compiled : CompiledFrom env components entry task) {target : String}
    (hGoto : .goto target ∈ task.directives) :
    target ∈ entry.2.thens ∧ parseDirective target = .goto target := by
  have hParse : ∀ {text : String}, parseDirective text = .goto target → text = target := by
    intro text hText
    unfold parseDirective at hText
    split at hText
    · cases hText
    · split at hText
      · cases hText
      · split at hText
        · cases hText
        · cases hText
          rfl
  obtain ⟨reference, hKind⟩ := compiled.kind
  rcases List.mem_cons.mp hGoto with hOwn | hCase
  · cases hThen : task.then_ with
    | none =>
        rw [hThen] at hOwn
        cases hOwn
    | some text =>
        rw [hThen] at hOwn
        obtain rfl := hParse hOwn.symm
        refine ⟨List.mem_append_left _ ?_, hOwn.symm⟩
        rw [← compiled.then_, hThen]
        exact List.mem_cons_self
  · obtain ⟨case, hMem, hDirective⟩ := List.mem_map.mp hCase
    cases hThen : case.then_ with
    | none =>
        rw [SwitchCase.directive, hThen] at hDirective
        cases hDirective
    | some text =>
        rw [SwitchCase.directive, hThen] at hDirective
        obtain rfl := hParse hDirective
        refine ⟨List.mem_append_right _ ?_, hDirective⟩
        rw [← (compileKind_ok hKind).cases_, List.mem_filterMap]
        exact ⟨some text, List.mem_map.mpr ⟨case, hMem, hThen⟩, rfl⟩

def extensionScopes (ext : ExtensionDefinition) : List TaskScope :=
  (ext.before.toList ++ ext.after.toList).map CompileEnv.taskListToMap

/-- The scopes of a definition that are in no task. -/
def WorkflowDefinition.rootScopes (definition : WorkflowDefinition) : List TaskScope :=
  definition.do_ :: (((definition.use_.bind (·.extensions)).getD []).flatMap fun entry =>
    entry.flatMap fun ext => extensionScopes ext.2)

/-- The scopes at any depth, as far as `children` goes. -/
inductive Nested (children : TaskDefinition → List TaskScope) (roots : List TaskScope) :
    TaskScope → Prop where
  | root {tasks : TaskScope} (hRoot : tasks ∈ roots) : Nested children roots tasks
  | child {tasks inner : TaskScope} {entry : String × TaskDefinition}
      (outer : Nested children roots tasks) (hEntry : entry ∈ scopeEntries tasks)
      (hInner : inner ∈ children entry.2) : Nested children roots inner

section Workflows

variable {definition : WorkflowDefinition} {wf : CompiledWorkflow}

theorem mem_of_mapM_ok {ε α β : Type} {f : α → Except ε β} {list : List α} {results : List β}
    (hMap : list.mapM f = .ok results) {b : β} (hMem : b ∈ results) : ∃ a ∈ list, f a = .ok b := by
  induction list generalizing results with
  | nil =>
      cases hMap
      cases hMem
  | cons a rest ih =>
      rw [List.mapM_cons] at hMap
      obtain ⟨first, hFirst, hMap⟩ := bind_eq_ok hMap
      obtain ⟨more, hMore, hMap⟩ := bind_eq_ok hMap
      cases hMap
      rcases List.mem_cons.mp hMem with rfl | hRest
      · exact ⟨a, List.mem_cons_self, hFirst⟩
      · obtain ⟨other, hOther, hOk⟩ := ih hMore hRest
        exact ⟨other, List.mem_cons_of_mem _ hOther, hOk⟩

theorem ok_of_mapM_ok {ε α β : Type} {f : α → Except ε β} {list : List α} {results : List β}
    (hMap : list.mapM f = .ok results) {a : α} (hMem : a ∈ list) : ∃ b, f a = .ok b := by
  induction list generalizing results with
  | nil => cases hMem
  | cons first rest ih =>
      rw [List.mapM_cons] at hMap
      obtain ⟨b, hFirst, hMap⟩ := bind_eq_ok hMap
      obtain ⟨more, hMore, _⟩ := bind_eq_ok hMap
      rcases List.mem_cons.mp hMem with rfl | hRest
      · exact ⟨b, hFirst⟩
      · exact ih hMore hRest

/-- A compiled scope of a workflow: an empty one, or one compiled from its definition. -/
def ScopeFrom (env : CompileEnv) (definition : WorkflowDefinition) (scope : List CompiledTask) :
    Prop :=
  scope = [] ∨ ∃ tasks, Nested TaskDefinition.scopes definition.rootScopes tasks ∧
    CompilesTo env definition.use_ tasks scope

theorem compileExtensionScope_ok {base : String} {tasks : Option TaskScope}
    {scope : List CompiledTask} {components : Option ComponentDefinitionCollection}
    (hCompile : env.compileExtensionScope components base tasks = .ok scope) :
    scope = [] ∨
      ∃ found ∈ tasks, CompilesTo env components (CompileEnv.taskListToMap found) scope := by
  cases tasks with
  | none =>
      cases hCompile
      exact Or.inl rfl
  | some found => exact Or.inr ⟨found, rfl, _, _, hCompile⟩

/-- The scopes of a compiled extension are empty, or compiled from what its definition declares to
be run before or after a task. -/
theorem compileExtension_ok {index : Nat} {entry : String × ExtensionDefinition}
    {ext : CompiledExtension} {components : Option ComponentDefinitionCollection}
    (hCompile : env.compileExtension components index entry = .ok ext) :
    ∀ scope ∈ [ext.before, ext.after], scope = [] ∨
      ∃ tasks ∈ extensionScopes entry.2, CompilesTo env components tasks scope := by
  rw [CompileEnv.compileExtension] at hCompile
  obtain ⟨before, hBefore, hCompile⟩ := bind_eq_ok hCompile
  obtain ⟨after, hAfter, hCompile⟩ := bind_eq_ok hCompile
  cases hCompile
  have hListed : ∀ {found : TaskScope}, found ∈ entry.2.before ∨ found ∈ entry.2.after →
      CompileEnv.taskListToMap found ∈ extensionScopes entry.2 := by
    intro found hFound
    rw [extensionScopes, List.map_append]
    exact List.mem_append.mpr (hFound.imp (fun h => List.mem_map_of_mem (Option.mem_toList.mpr h))
      fun h => List.mem_map_of_mem (Option.mem_toList.mpr h))
  intro scope hScope
  rcases List.mem_cons.mp hScope with rfl | hScope
  · exact (compileExtensionScope_ok hBefore).imp id
      fun ⟨found, hFound, compiles⟩ => ⟨_, hListed (Or.inl hFound), compiles⟩
  · obtain rfl := List.mem_singleton.mp hScope
    exact (compileExtensionScope_ok hAfter).imp id
      fun ⟨found, hFound, compiles⟩ => ⟨_, hListed (Or.inr hFound), compiles⟩

/-- What a compiled workflow keeps of its definition. -/
structure WorkflowFrom (env : CompileEnv) (definition : WorkflowDefinition)
    (wf : CompiledWorkflow) : Prop where
  valid : validate definition = []
  components : wf.components = definition.use_
  input : wf.input = compileData definition.input
  output : wf.output = compileData definition.output
  timeout : env.resolveTimeout definition.use_ definition.timeout = .ok wf.timeout
  tasks : CompilesTo env definition.use_ definition.do_ wf.tasks
  extensions : env.compileExtensions definition.use_ = .ok wf.extensions

theorem compile_ok (hCompile : compile env definition = .ok wf) :
    WorkflowFrom env definition wf := by
  have hValid : validate definition = [] := by
    cases hIssues : validate definition with
    | nil => rfl
    | cons issue rest =>
        rw [compile, hIssues] at hCompile
        cases hCompile
  rw [compile, hValid] at hCompile
  obtain ⟨timeout, hTimeout, hCompile⟩ := bind_eq_ok hCompile
  obtain ⟨tasks, hTasks, hCompile⟩ := bind_eq_ok hCompile
  obtain ⟨extensions, hExtensions, hCompile⟩ := bind_eq_ok hCompile
  obtain ⟨_, _, hCompile⟩ := bind_eq_ok hCompile
  cases hCompile
  exact ⟨hValid, rfl, rfl, rfl, hTimeout, ⟨_, _, hTasks⟩, hExtensions⟩

/-- The scopes of the extensions of a compiled workflow come from the scopes which its definition
declares for them. -/
theorem WorkflowFrom.extensionScope (from_ : WorkflowFrom env definition wf)
    {ext : CompiledExtension} (hExt : ext ∈ wf.extensions) {scope : List CompiledTask}
    (hScope : scope ∈ [ext.before, ext.after]) : ScopeFrom env definition scope := by
  have hCompiled := from_.extensions
  rw [CompileEnv.compileExtensions] at hCompiled
  cases hList : definition.use_.bind (·.extensions) with
  | none =>
      rw [hList] at hCompiled
      rw [← Except.ok.inj hCompiled] at hExt
      cases hExt
  | some list =>
      rw [hList] at hCompiled
      obtain ⟨⟨index, entry⟩, hEntry, hOk⟩ := mem_of_mapM_ok hCompiled hExt
      refine (compileExtension_ok hOk scope hScope).imp id fun ⟨tasks, hTasks, compiles⟩ => ?_
      refine ⟨tasks, Nested.root (List.mem_cons_of_mem _ ?_), compiles⟩
      obtain ⟨⟨entries, position⟩, hEntries, hMem⟩ := List.mem_flatMap.mp hEntry
      obtain ⟨other, hOther, hPair⟩ := List.mem_map.mp hMem
      cases hPair
      rw [hList, Option.getD_some]
      have hListed : entries ∈ list := List.fst_mem_of_mem_zipIdx hEntries
      exact List.mem_flatMap.mpr ⟨entries, hListed, List.mem_flatMap.mpr ⟨entry, hOther, hTasks⟩⟩

theorem WorkflowFrom.rootScope (from_ : WorkflowFrom env definition wf)
    {scope : List CompiledTask} (hScope : scope ∈ wf.rootScopes) :
    ScopeFrom env definition scope := by
  rcases List.mem_cons.mp hScope with rfl | hExtension
  · exact Or.inr ⟨_, Nested.root List.mem_cons_self, from_.tasks⟩
  · obtain ⟨ext, hExt, hMem⟩ := List.mem_flatMap.mp hExtension
    exact from_.extensionScope hExt hMem

/-- A task within a scope that is compiled from the definition. -/
def TaskFrom (env : CompileEnv) (definition : WorkflowDefinition) (task : CompiledTask) : Prop :=
  ∃ tasks, Nested TaskDefinition.scopes definition.rootScopes tasks ∧
    ∃ entry ∈ scopeEntries tasks, CompiledFrom env definition.use_ entry task

theorem ScopeFrom.task {scope : List CompiledTask} (from_ : ScopeFrom env definition scope)
    {task : CompiledTask} (hTask : task ∈ scope) : TaskFrom env definition task := by
  rcases from_ with rfl | ⟨tasks, nested, compiles⟩
  · cases hTask
  · obtain ⟨entry, hEntry, hCompiled⟩ := compiles.exists_definition hTask
    exact ⟨tasks, nested, entry, hEntry, hCompiled⟩

theorem TaskFrom.childScope {task : CompiledTask} (from_ : TaskFrom env definition task)
    {scope : List CompiledTask} (hScope : scope ∈ task.kind.childScopes) :
    ScopeFrom env definition scope := by
  obtain ⟨tasks, nested, entry, hEntry, compiled⟩ := from_
  obtain ⟨reference, hKind⟩ := compiled.kind
  refine ((compileKind_ok hKind).childScopes scope hScope).imp id fun ⟨inner, hInner, compiles⟩ => ?_
  exact ⟨inner, nested.child hEntry (List.mem_append_left _ hInner), compiles⟩

theorem TaskFrom.branch {task inner : CompiledTask} (from_ : TaskFrom env definition task)
    (hBranch : inner ∈ task.kind.forkBranches) : TaskFrom env definition inner := by
  obtain ⟨tasks, nested, entry, hEntry, compiled⟩ := from_
  obtain ⟨reference, hKind⟩ := compiled.kind
  obtain ⟨branches, hBranches, scope, compiles, hMem⟩ :=
    (compileKind_ok hKind).branches inner hBranch
  obtain ⟨found, hFound, hCompiled⟩ := compiles.exists_definition hMem
  exact ⟨branches, nested.child hEntry (List.mem_append_right _ hBranches), found, hFound, hCompiled⟩

/-- By induction on the way to a task of the compiled workflow. -/
theorem WorkflowFrom.task (from_ : WorkflowFrom env definition wf) {task : CompiledTask}
    (hTask : wf.HasTask task) : TaskFrom env definition task := by
  induction hTask with
  | root hScope hMem => exact (from_.rootScope hScope).task hMem
  | child _ hScope hMem ih => exact (ih.childScope hScope).task hMem
  | branch _ hBranch ih => exact ih.branch hBranch

/-- Every scope of the compiled workflow is compiled from one of its definition. -/
theorem WorkflowFrom.scope (from_ : WorkflowFrom env definition wf) {scope : List CompiledTask}
    (hScope : wf.HasScope scope) : ScopeFrom env definition scope := by
  rcases hScope with hRoot | ⟨task, hTask, hChild⟩
  · exact from_.rootScope hRoot
  · exact (from_.task hTask).childScope hChild

theorem compileExtension_nested {components : Option ComponentDefinitionCollection} {index : Nat}
    {entry : String × ExtensionDefinition} {ext : CompiledExtension}
    (hCompile : env.compileExtension components index entry = .ok ext) {tasks : TaskScope}
    (hTasks : tasks ∈ extensionScopes entry.2) : ∃ scope, CompilesTo env components tasks scope := by
  rw [CompileEnv.compileExtension] at hCompile
  obtain ⟨before, hBefore, hCompile⟩ := bind_eq_ok hCompile
  obtain ⟨after, hAfter, _⟩ := bind_eq_ok hCompile
  obtain ⟨found, hFound, rfl⟩ := List.mem_map.mp hTasks
  rcases List.mem_append.mp hFound with hMem | hMem
  · rw [Option.mem_toList.mp hMem] at hBefore
    exact ⟨before, _, _, hBefore⟩
  · rw [Option.mem_toList.mp hMem] at hAfter
    exact ⟨after, _, _, hAfter⟩

theorem mem_zipIdx_of_mem {α : Type} {list : List α} {a : α} (hMem : a ∈ list) :
    ∃ index, (a, index) ∈ list.zipIdx := by
  obtain ⟨index, hIndex⟩ := List.mem_iff_getElem?.mp hMem
  exact ⟨index, List.mem_zipIdx_iff_getElem?.mpr hIndex⟩

/-- Every scope that a definition declares for an extension has been compiled, when its workflow has
been. -/
theorem WorkflowFrom.extensionScope_nested (from_ : WorkflowFrom env definition wf)
    {tasks : TaskScope} (hTasks : tasks ∈ ((definition.use_.bind (·.extensions)).getD []).flatMap
      fun entry => entry.flatMap fun ext => extensionScopes ext.2) :
    ∃ scope, CompilesTo env definition.use_ tasks scope := by
  have hCompiled := from_.extensions
  rw [CompileEnv.compileExtensions] at hCompiled
  cases hList : definition.use_.bind (·.extensions) with
  | none =>
      rw [hList] at hTasks
      cases hTasks
  | some list =>
      rw [hList] at hCompiled hTasks
      obtain ⟨entries, hEntries, hTasks⟩ := List.mem_flatMap.mp hTasks
      obtain ⟨entry, hEntry, hTasks⟩ := List.mem_flatMap.mp hTasks
      obtain ⟨index, hIndex⟩ := mem_zipIdx_of_mem hEntries
      obtain ⟨ext, hExt⟩ := ok_of_mapM_ok hCompiled
        (List.mem_flatMap.mpr ⟨_, hIndex, List.mem_map_of_mem hEntry⟩)
      exact compileExtension_nested hExt hTasks

/-- Every scope of the definition is compiled, at any depth. -/
theorem WorkflowFrom.nested (from_ : WorkflowFrom env definition wf) {tasks : TaskScope}
    (nested : Nested TaskDefinition.scopes definition.rootScopes tasks) :
    ∃ scope, CompilesTo env definition.use_ tasks scope := by
  induction nested with
  | root hRoot =>
      rcases List.mem_cons.mp hRoot with rfl | hExtension
      · exact ⟨_, from_.tasks⟩
      · exact from_.extensionScope_nested hExtension
  | child _ hEntry hInner ih =>
      obtain ⟨scope, compiles⟩ := ih
      obtain ⟨task, _, compiled⟩ := compiles.exists_task hEntry
      obtain ⟨reference, hKind⟩ := compiled.kind
      exact compileKind_nested hKind hInner

end Workflows

/-! Small definitions, for examples. -/
namespace Sample

def compileEnv : CompileEnv :=
  { taskToValue := fun _ => .null, definitionToValue := fun _ => .null
    parseIso8601Duration := fun _ => .error "" }

def fields (then_ : Option String) : TaskDefinitionFields :=
  { if_ := none, input := none, output := none, export_ := none, timeout := none, then_ }

def definition (tasks : TaskScope) : WorkflowDefinition :=
  { document := { dsl := "1.0.0", namespace_ := "default", name := "sample", version := "1" }
    input := none, output := none, timeout := none, evaluate := none, use_ := none, do_ := tasks }

end Sample

end OwsRuntime
