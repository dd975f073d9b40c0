import OwsRuntime.Properties.Acceptance

/-! Which of the declared tasks are checked and compiled. The list of a scope
holds maps of tasks; the validator and the compiler take the first task of each
map, and the validator leaves the scopes of listen iterators out. -/
namespace OwsRuntime

/-- All the tasks that a scope declares, in all the maps of its list. -/
def declaredTasks (tasks : TaskScope) : List (String × TaskDefinition) := tasks.flatten

/-- The scopes that are declared within a scope, at any depth. -/
inductive DeclaredWithin (tasks : TaskScope) : TaskScope → Prop where
  | here : DeclaredWithin tasks tasks
  | child {outer inner : TaskScope} {entry : String × TaskDefinition}
      (prior : DeclaredWithin tasks outer) (hEntry : entry ∈ declaredTasks outer)
      (hInner : inner ∈ entry.2.scopes) : DeclaredWithin tasks inner

/-- A task with the tasks of its scopes: its name, its serialization, its scopes. -/
inductive Outline where
  | task (name : String) (descriptor : Value) (scopes : List (List Outline))

section Definitions

variable (toValue : TaskDefinition → Value)

mutual

def outlineTask : TaskDefinition → List (List Outline)
  | .do_ _ tasks => [outlineEntries tasks]
  | .for_ _ _ _ tasks => [outlineEntries tasks]
  | .fork _ branches _ => [outlineEntries branches]
  | .try_ _ tasks _ handler => outlineEntries tasks :: outlineHandler handler
  | .listen _ _ (some _) (some tasks) => [outlineEntries tasks]
  -- An iterator without a body is one with an empty body.
  | .listen _ _ (some _) none => [[]]
  | .listen _ _ none _ => []
  | .call .. => []
  | .emit .. => []
  | .raise .. => []
  | .run .. => []
  | .set .. => []
  | .switch .. => []
  | .wait .. => []

def outlineHandler : Option (List (List (String × TaskDefinition))) → List (List Outline)
  | none => []
  | some tasks => [outlineEntries tasks]

/-- Every task of a scope, in the order of their declarations. -/
def outlineEntries : List (List (String × TaskDefinition)) → List Outline
  | [] => []
  | entry :: rest => outlineEntry entry ++ outlineEntries rest

def outlineEntry : List (String × TaskDefinition) → List Outline
  | [] => []
  | (name, task) :: rest => .task name (toValue task) (outlineTask task) :: outlineEntry rest

end

end Definitions

mutual

def CompiledTask.outline : CompiledTask → Outline
  | ⟨name, _, _, _, _, _, _, _, descriptor, kind⟩ => .task name descriptor kind.outlines

def CompiledTaskKind.outlines : CompiledTaskKind → List (List Outline)
  | .do_ body => [outlineTasks body]
  | .for_ _ body => [outlineTasks body]
  | .fork branches _ => [outlineTasks branches]
  | .try_ body _ none => [outlineTasks body]
  | .try_ body _ (some handler) => [outlineTasks body, outlineTasks handler]
  | .listen _ (some (_, body)) => [outlineTasks body]
  | .listen _ none => []
  | .set _ => []
  | .switch _ => []
  | .emit _ => []
  | .raise _ => []
  | .call _ => []
  | .run _ => []
  | .wait _ => []

def outlineTasks : List CompiledTask → List Outline
  | [] => []
  | task :: rest => task.outline :: outlineTasks rest

end

/-- Each declared task is compiled once, in the order of the declarations, at any depth. -/
def CompiledInFull (env : CompileEnv) (tasks : TaskScope) (scope : List CompiledTask) : Prop :=
  outlineTasks scope = outlineEntries env.taskToValue tasks

/-- The declared tasks of a scope pass what the validator checks, the scopes within it apart. -/
structure DeclaredClean (tasks : TaskScope) : Prop where
  names : ∀ entry ∈ declaredTasks tasks, isIdentifier entry.1 = true
  nodup : ((declaredTasks tasks).map Prod.fst).Nodup
  targets : ∀ entry ∈ declaredTasks tasks, ∀ target ∈ entry.2.common.then_,
    target ∈ ["continue", "exit", "end"] ++ (declaredTasks tasks).map Prod.fst
  own : ∀ entry ∈ declaredTasks tasks, entry.2.ownClean = true
  explored : Explored tasks

/-- Each declared task has been checked, at any depth. -/
def CheckedInFull (tasks : TaskScope) : Prop :=
  ∀ inner, DeclaredWithin tasks inner → DeclaredClean inner

/-- No map of a list holds more than one task, at any depth. -/
def SinglyDeclared (tasks : TaskScope) : Prop :=
  ∀ inner, DeclaredWithin tasks inner → ∀ entry ∈ inner, entry.length ≤ 1

/-- The body of a listen iterator. -/
def TaskDefinition.iteratorScopes : TaskDefinition → List TaskScope
  | listen _ _ (some _) foreachDo => foreachDo.toList
  | _ => []

/-- The validator would accept the body of each listen iterator, at any depth. -/
def IteratorsClean (tasks : TaskScope) : Prop :=
  ∀ outer, DeclaredWithin tasks outer → ∀ entry ∈ declaredTasks outer,
    ∀ body ∈ entry.2.iteratorScopes, validateTaskScope body "" = []

section Scopes

variable {tasks outer inner : TaskScope}

/-- Where no map of a scope holds two tasks, the entries that the compiler takes are all that are
declared. -/
theorem scopeEntries_eq_declaredTasks (hSingle : ∀ entry ∈ tasks, entry.length ≤ 1) :
    scopeEntries tasks = declaredTasks tasks := by
  induction tasks with
  | nil => rfl
  | cons entry rest ih =>
      have hRest := ih fun other hMem => hSingle other (List.mem_cons_of_mem _ hMem)
      have hLength := hSingle entry List.mem_cons_self
      rw [scopeEntries] at hRest
      rw [scopeEntries, declaredTasks, List.filterMap_cons, List.flatten_cons, hRest]
      cases entry with
      | nil => rfl
      | cons named others =>
          have hOthers : others = [] := by
            apply List.eq_nil_of_length_eq_zero
            simp only [List.length_cons] at hLength
            omega
          rw [hOthers]
          rfl

theorem mem_declaredTasks_of_scopeEntries {entry : String × TaskDefinition}
    (hEntry : entry ∈ scopeEntries tasks) : entry ∈ declaredTasks tasks := by
  obtain ⟨entries, hEntries, hHead⟩ := List.mem_filterMap.mp hEntry
  exact List.mem_flatten.mpr ⟨entries, hEntries, List.mem_of_mem_head? hHead⟩

theorem DeclaredWithin.trans (first : DeclaredWithin tasks outer)
    (second : DeclaredWithin outer inner) : DeclaredWithin tasks inner := by
  induction second with
  | here => exact first
  | child _ hEntry hInner ih => exact ih.child hEntry hInner

/-- A scope within is the scope itself, or within a scope of one of its tasks. -/
theorem DeclaredWithin.head (within : DeclaredWithin tasks inner) :
    inner = tasks ∨ ∃ entry ∈ declaredTasks tasks, ∃ body ∈ entry.2.scopes,
      DeclaredWithin body inner := by
  induction within with
  | here => exact Or.inl rfl
  | child prior hEntry hInner ih =>
      rcases ih with rfl | ⟨entry, hMem, body, hBody, within⟩
      · exact Or.inr ⟨_, hEntry, _, hInner, .here⟩
      · exact Or.inr ⟨entry, hMem, body, hBody, within.child hEntry hInner⟩

/-- What holds within a scope holds of it and within the scopes of its tasks. -/
theorem forall_declaredWithin_iff {P : TaskScope → Prop} :
    (∀ inner, DeclaredWithin tasks inner → P inner) ↔ P tasks ∧
      ∀ entry ∈ declaredTasks tasks, ∀ body ∈ entry.2.scopes,
        ∀ inner, DeclaredWithin body inner → P inner := by
  constructor
  · intro hAll
    refine ⟨hAll tasks .here, fun entry hEntry body hBody other within => ?_⟩
    exact hAll other ((DeclaredWithin.here.child hEntry hBody).trans within)
  · intro ⟨hHere, hBodies⟩ other within
    rcases within.head with rfl | ⟨entry, hEntry, body, hBody, within⟩
    · exact hHere
    · exact hBodies entry hEntry body hBody other within

theorem singlyDeclared_iff : SinglyDeclared tasks ↔ (∀ entry ∈ tasks, entry.length ≤ 1) ∧
    ∀ entry ∈ declaredTasks tasks, ∀ body ∈ entry.2.scopes, SinglyDeclared body :=
  forall_declaredWithin_iff

theorem iteratorsClean_iff : IteratorsClean tasks ↔
    (∀ entry ∈ declaredTasks tasks, ∀ body ∈ entry.2.iteratorScopes,
      validateTaskScope body "" = []) ∧
    ∀ entry ∈ declaredTasks tasks, ∀ body ∈ entry.2.scopes, IteratorsClean body :=
  forall_declaredWithin_iff

theorem singlyDeclared_nil : SinglyDeclared [] := by
  rw [singlyDeclared_iff]
  simp [declaredTasks]

theorem singlyDeclared_skip : SinglyDeclared ([] :: tasks) ↔ SinglyDeclared tasks := by
  rw [singlyDeclared_iff, singlyDeclared_iff]
  simp [declaredTasks]

/-- A list of maps holds one task in each when its first map has no other task, the scopes of that
task are such lists, and so are the maps that are left. -/
theorem singlyDeclared_cons {name : String} {task : TaskDefinition}
    {others : List (String × TaskDefinition)} :
    SinglyDeclared (((name, task) :: others) :: tasks) ↔
      others = [] ∧ (∀ body ∈ task.scopes, SinglyDeclared body) ∧ SinglyDeclared tasks := by
  rw [singlyDeclared_iff, singlyDeclared_iff]
  constructor
  · intro ⟨hLengths, hBodies⟩
    have hLength := hLengths _ List.mem_cons_self
    have hOthers : others = [] := by
      apply List.eq_nil_of_length_eq_zero
      simp only [List.length_cons] at hLength
      omega
    subst hOthers
    refine ⟨rfl, hBodies (name, task) (by simp [declaredTasks]), ?_, ?_⟩
    · exact fun entry hMem => hLengths entry (List.mem_cons_of_mem _ hMem)
    · intro entry hMem
      exact hBodies entry (List.mem_cons_of_mem _ hMem)
  · intro ⟨hOthers, hTask, hLengths, hBodies⟩
    subst hOthers
    constructor
    · intro entry hMem
      rcases List.mem_cons.mp hMem with rfl | hMem
      · exact le_rfl
      · exact hLengths entry hMem
    · intro entry hMem
      rcases List.mem_cons.mp hMem with rfl | hMem
      · exact hTask
      · exact hBodies entry hMem

end Scopes

section Compilation

variable {env : CompileEnv} {components : Option ComponentDefinitionCollection}

theorem compileEntry_outline {base : String} {index : Nat} {name : String}
    {definition : TaskDefinition} {others : List (String × TaskDefinition)}
    {compiled : Option CompiledTask}
    (hCompile : env.compileEntry components base index ((name, definition) :: others) =
      .ok compiled) :
    ∃ task reference kind, compiled = some task ∧
      env.compileKind components reference definition = .ok kind ∧
      task.outline = .task name (env.taskToValue definition) kind.outlines := by
  rw [CompileEnv.compileEntry] at hCompile
  obtain ⟨kind, hKind, hCompile⟩ := bind_eq_ok hCompile
  obtain ⟨timeout, _, hCompile⟩ := bind_eq_ok hCompile
  cases hCompile
  exact ⟨_, _, kind, rfl, hKind, by rw [CompiledTask.outline]⟩

/-- A scope is compiled to at most as many tasks as it declares. -/
theorem outlineTasks_length_le {base : String} {index : Nat} {tasks : TaskScope}
    {scope : List CompiledTask}
    (hCompile : env.compileEntries components base index tasks = .ok scope) :
    (outlineTasks scope).length ≤ (outlineEntries env.taskToValue tasks).length := by
  induction tasks generalizing index scope with
  | nil =>
      rw [CompileEnv.compileEntries] at hCompile
      cases hCompile
      exact Nat.zero_le _
  | cons entry rest ih =>
      rw [CompileEnv.compileEntries] at hCompile
      obtain ⟨compiled, hEntry, hCompile⟩ := bind_eq_ok hCompile
      rw [outlineEntries, List.length_append]
      cases entry with
      | nil =>
          rw [CompileEnv.compileEntry] at hEntry
          cases hEntry
          have hRest := ih hCompile
          omega
      | cons named others =>
          obtain ⟨task, _, _, rfl, _, _⟩ := compileEntry_outline hEntry
          obtain ⟨more, hMore, hCompile⟩ := bind_eq_ok hCompile
          cases hCompile
          have hRest := ih hMore
          rw [outlineTasks, outlineEntry, List.length_cons, List.length_cons]
          omega

theorem eq_nil_of_outlineEntry {toValue : TaskDefinition → Value}
    {entry : List (String × TaskDefinition)} (hEntry : outlineEntry toValue entry = []) :
    entry = [] := by
  cases entry with
  | nil => rfl
  | cons named others =>
      rw [outlineEntry] at hEntry
      cases hEntry

/-- What is compiled of a list of tasks is all that it declares exactly when no map in it holds two
tasks, at any depth. -/
def FullIffSingle (env : CompileEnv) (components : Option ComponentDefinitionCollection)
    (tasks : TaskScope) : Prop :=
  ∀ {base : String} {index : Nat} {scope : List CompiledTask},
    env.compileEntries components base index tasks = .ok scope →
      (outlineTasks scope = outlineEntries env.taskToValue tasks ↔ SinglyDeclared tasks)

/-- A task with no scope within it is always compiled in full. -/
theorem outlines_eq_iff_of_noScopes {reference : String} {kind : CompiledTaskKind}
    {definition : TaskDefinition} (hScopes : definition.scopes = [])
    (hCompile : env.compileKind components reference definition = .ok kind) :
    kind.outlines = outlineTask env.taskToValue definition ↔
      ∀ body ∈ definition.scopes, SinglyDeclared body := by
  refine iff_of_true ?_ (by simp [hScopes])
  cases definition with
  | do_ | for_ | fork | try_ =>
      simp [TaskDefinition.scopes, TaskDefinition.childScopes, TaskDefinition.branches] at hScopes
  | listen common listen foreach_ foreachDo =>
      cases foreach_ with
      | none =>
          cases hCompile
          rw [CompiledTaskKind.outlines, outlineTask]
      | some foreach_ =>
          cases foreachDo with
          | none =>
              cases hCompile
              rw [CompiledTaskKind.outlines, outlineTask, Option.getD_none, outlineTasks]
          | some tasks => cases hScopes
  | set common values => cases values <;> cases hCompile <;> rw [CompiledTaskKind.outlines, outlineTask]
  | switch common cases_ =>
      cases hCompile
      rw [compileSwitch, CompiledTaskKind.outlines, outlineTask]
  | raise common error => cases error <;> cases hCompile <;> rw [CompiledTaskKind.outlines, outlineTask]
  | run common run =>
      obtain ⟨def_, rfl⟩ := compileRun_kind hCompile
      rw [CompiledTaskKind.outlines, outlineTask]
  | wait common duration =>
      rw [CompileEnv.compileKind] at hCompile
      split at hCompile <;> cases hCompile
      rw [CompiledTaskKind.outlines, outlineTask]
  | emit | call =>
      cases hCompile
      rw [CompiledTaskKind.outlines, outlineTask]

/-- A task with one scope within it is compiled in full when that scope is: so it is with `do`, with
`for` and with the branches of a fork. -/
theorem outlines_eq_iff_of_scope {base : String} {index : Nat} {kind : CompiledTaskKind}
    {definition : TaskDefinition} {tasks : TaskScope} {scope : List CompiledTask}
    (tasksIff : FullIffSingle env components tasks)
    (hScope : env.compileEntries components base index tasks = .ok scope)
    (hKind : kind.outlines = [outlineTasks scope])
    (hDefinition : outlineTask env.taskToValue definition = [outlineEntries env.taskToValue tasks])
    (hScopes : definition.scopes = [tasks]) :
    kind.outlines = outlineTask env.taskToValue definition ↔
      ∀ body ∈ definition.scopes, SinglyDeclared body := by
  have hTasks := tasksIff hScope
  simp [hKind, hDefinition, hScopes, hTasks]

/-- A try task is compiled in full when its body is and, where it has a handler, that is too. -/
theorem outlines_eq_iff_of_try {reference : String} {kind : CompiledTaskKind}
    {common : TaskDefinitionFields} {tasks : TaskScope} {catch_ : CatchDefinition}
    {handler : Option TaskScope} (tasksIff : FullIffSingle env components tasks)
    (handlerIff : ∀ found ∈ handler, FullIffSingle env components found)
    (hCompile : env.compileKind components reference (.try_ common tasks catch_ handler) = .ok kind) :
    kind.outlines = outlineTask env.taskToValue (.try_ common tasks catch_ handler) ↔
      ∀ body ∈ (TaskDefinition.try_ common tasks catch_ handler).scopes, SinglyDeclared body := by
  rw [CompileEnv.compileKind] at hCompile
  obtain ⟨body, hBody, hCompile⟩ := bind_eq_ok hCompile
  obtain ⟨retry, _, hCompile⟩ := bind_eq_ok hCompile
  obtain ⟨compiled, hHandler, hCompile⟩ := bind_eq_ok hCompile
  cases hCompile
  have hTasks := tasksIff hBody
  cases handler with
  | none =>
      rw [CompileEnv.compileHandler] at hHandler
      cases hHandler
      simp [CompiledTaskKind.outlines, outlineTask, outlineHandler, hTasks, TaskDefinition.scopes,
        TaskDefinition.childScopes, TaskDefinition.branches]
  | some found =>
      rw [CompileEnv.compileHandler] at hHandler
      obtain ⟨scope, hScope, hHandler⟩ := bind_eq_ok hHandler
      cases hHandler
      have hFound := handlerIff found rfl hScope
      simp [CompiledTaskKind.outlines, outlineTask, outlineHandler, hTasks, hFound,
        TaskDefinition.scopes, TaskDefinition.childScopes, TaskDefinition.branches]

mutual

/-- By recursion on the definition: a task is compiled in full if and only if the
lists of its scopes hold one task in each map. -/
theorem outlines_eq_iff : ∀ (definition : TaskDefinition) {reference : String}
    {kind : CompiledTaskKind}, env.compileKind components reference definition = .ok kind →
      (kind.outlines = outlineTask env.taskToValue definition ↔
        ∀ body ∈ definition.scopes, SinglyDeclared body)
  | .do_ _ tasks, _, _, hCompile => by
      rw [CompileEnv.compileKind] at hCompile
      obtain ⟨scope, hScope, hCompile⟩ := bind_eq_ok hCompile
      cases hCompile
      exact outlines_eq_iff_of_scope (outlineTasks_eq_iff tasks) hScope
        (by rw [CompiledTaskKind.outlines]) (by rw [outlineTask]) rfl
  | .for_ _ _ _ tasks, _, _, hCompile => by
      rw [CompileEnv.compileKind] at hCompile
      obtain ⟨scope, hScope, hCompile⟩ := bind_eq_ok hCompile
      cases hCompile
      exact outlines_eq_iff_of_scope (outlineTasks_eq_iff tasks) hScope
        (by rw [CompiledTaskKind.outlines]) (by rw [outlineTask]) rfl
  | .fork _ branches _, _, _, hCompile => by
      rw [CompileEnv.compileKind] at hCompile
      obtain ⟨scope, hScope, hCompile⟩ := bind_eq_ok hCompile
      cases hCompile
      exact outlines_eq_iff_of_scope (outlineTasks_eq_iff branches) hScope
        (by rw [CompiledTaskKind.outlines]) (by rw [outlineTask]) rfl
  | .try_ _ tasks _ none, _, _, hCompile =>
      outlines_eq_iff_of_try (outlineTasks_eq_iff tasks) nofun hCompile
  | .try_ _ tasks _ (some handler), _, _, hCompile => by
      refine outlines_eq_iff_of_try (outlineTasks_eq_iff tasks) (fun found hFound => ?_) hCompile
      cases hFound
      exact outlineTasks_eq_iff handler
  | .listen _ _ (some _) (some tasks), _, _, hCompile => by
      rw [CompileEnv.compileKind] at hCompile
      obtain ⟨compiled, hBody, hCompile⟩ := bind_eq_ok hCompile
      rw [CompileEnv.compileHandler] at hBody
      obtain ⟨body, hTasks, hBody⟩ := bind_eq_ok hBody
      cases hBody
      cases hCompile
      exact outlines_eq_iff_of_scope (outlineTasks_eq_iff tasks) hTasks
        (by rw [CompiledTaskKind.outlines, Option.getD_some]) (by rw [outlineTask]) rfl
  | .listen _ _ none _, _, _, hCompile => outlines_eq_iff_of_noScopes rfl hCompile
  | .listen _ _ (some _) none, _, _, hCompile => outlines_eq_iff_of_noScopes rfl hCompile
  | .set .., _, _, hCompile => outlines_eq_iff_of_noScopes rfl hCompile
  | .switch .., _, _, hCompile => outlines_eq_iff_of_noScopes rfl hCompile
  | .emit .., _, _, hCompile => outlines_eq_iff_of_noScopes rfl hCompile
  | .raise .., _, _, hCompile => outlines_eq_iff_of_noScopes rfl hCompile
  | .call .., _, _, hCompile => outlines_eq_iff_of_noScopes rfl hCompile
  | .run .., _, _, hCompile => outlines_eq_iff_of_noScopes rfl hCompile
  | .wait .., _, _, hCompile => outlines_eq_iff_of_noScopes rfl hCompile

/-- A list of tasks is compiled in full if and only if no map in it holds two. An empty map is passed
over, and of any other one only the first task is compiled. -/
theorem outlineTasks_eq_iff : ∀ (tasks : List (List (String × TaskDefinition))) {base : String}
    {index : Nat} {scope : List CompiledTask},
    env.compileEntries components base index tasks = .ok scope →
      (outlineTasks scope = outlineEntries env.taskToValue tasks ↔ SinglyDeclared tasks)
  | [], _, _, _, hCompile => by
      rw [CompileEnv.compileEntries] at hCompile
      cases hCompile
      exact iff_of_true (by rw [outlineTasks, outlineEntries]) singlyDeclared_nil
  | [] :: rest, _, _, _, hCompile => by
      rw [CompileEnv.compileEntries, CompileEnv.compileEntry] at hCompile
      rw [outlineEntries, outlineEntry, List.nil_append, singlyDeclared_skip]
      exact outlineTasks_eq_iff rest hCompile
  | ((name, definition) :: others) :: rest, _, _, _, hCompile => by
      rw [CompileEnv.compileEntries] at hCompile
      obtain ⟨compiled, hEntry, hCompile⟩ := bind_eq_ok hCompile
      obtain ⟨task, reference, kind, rfl, hKind, hTask⟩ := compileEntry_outline hEntry
      obtain ⟨more, hMore, hCompile⟩ := bind_eq_ok hCompile
      cases hCompile
      have hLength := outlineTasks_length_le hMore
      have hDefinition := outlines_eq_iff definition hKind
      have hRest := outlineTasks_eq_iff rest hMore
      rw [outlineTasks, outlineEntries, outlineEntry, hTask, List.cons_append, List.cons.injEq,
        Outline.task.injEq, singlyDeclared_cons, ← hDefinition, ← hRest]
      constructor
      · intro ⟨⟨_, _, hScopes⟩, hTail⟩
        -- The tasks left can be as many only if the map holds no other one.
        have hOthers : others = [] := by
          have hSame := congrArg List.length hTail
          rw [List.length_append] at hSame
          have hNone : (outlineEntry env.taskToValue others).length = 0 := by omega
          exact eq_nil_of_outlineEntry (List.eq_nil_of_length_eq_zero hNone)
        subst hOthers
        exact ⟨rfl, hScopes, hTail⟩
      · intro ⟨hOthers, hScopes, hTail⟩
        subst hOthers
        exact ⟨⟨rfl, rfl, hScopes⟩, hTail⟩

end

end Compilation

section Validation

variable {tasks outer inner : TaskScope}

theorem SinglyDeclared.entries (single : SinglyDeclared tasks)
    (within : DeclaredWithin tasks outer) : scopeEntries outer = declaredTasks outer :=
  scopeEntries_eq_declaredTasks (single outer within)

theorem TaskDefinition.mem_scopes_iff {task : TaskDefinition} :
    inner ∈ task.scopes ↔ inner ∈ task.checkedScopes ∨ inner ∈ task.iteratorScopes := by
  cases task with
  | listen common listen foreach_ foreachDo =>
      cases foreach_ <;> simp [checkedScopes, iteratorScopes, scopes, childScopes, branches]
  | _ => simp [checkedScopes, iteratorScopes, scopes, childScopes, branches]

/-- What the validator visits within a scope is declared within it. -/
theorem Nested.declaredWithin (nested : Nested TaskDefinition.checkedScopes [tasks] inner) :
    DeclaredWithin tasks inner := by
  induction nested with
  | root hRoot =>
      obtain rfl := List.mem_singleton.mp hRoot
      exact .here
  | child _ hEntry hInner ih =>
      exact ih.child (mem_declaredTasks_of_scopeEntries hEntry)
        (TaskDefinition.mem_scopes_iff.mpr (Or.inl hInner))

/-- Where each map holds one task, what the validator checks of a scope is what should be checked of
its declared tasks. -/
theorem declaredClean_iff (hSingle : scopeEntries tasks = declaredTasks tasks) :
    DeclaredClean tasks ↔ LocallyClean tasks := by
  have hNames : (declaredTasks tasks).map Prod.fst = scopeNames tasks := by rw [scopeNames, hSingle]
  have hTargets : ∀ target, target ∈ ["continue", "exit", "end"] ++ scopeNames tasks ↔
      TargetIn tasks target := by
    intro target
    simp [TargetIn]
  constructor
  · intro clean
    constructor
    · intro name hName
      rw [scopeNames, hSingle] at hName
      obtain ⟨entry, hEntry, rfl⟩ := List.mem_map.mp hName
      exact clean.names entry hEntry
    · rw [← hNames]
      exact clean.nodup
    · intro entry hEntry target hTarget
      rw [← hTargets, ← hNames]
      exact clean.targets entry (hSingle ▸ hEntry) target hTarget
    · rw [hSingle]
      exact clean.own
    · exact clean.explored
  · intro clean
    constructor
    · intro entry hEntry
      apply clean.names
      rw [← hNames]
      exact List.mem_map_of_mem hEntry
    · rw [hNames]
      exact clean.nodup
    · intro entry hEntry target hTarget
      rw [hNames, hTargets]
      exact clean.targets entry (hSingle ▸ hEntry) target hTarget
    · rw [← hSingle]
      exact clean.own
    · exact clean.explored

/-- With one task in each map, the validator has seen every scope outside the
iterators; the bodies of these have to pass by themselves. -/
theorem SinglyDeclared.checkedInFull_iff {pointer : String} (single : SinglyDeclared tasks)
    (hValid : validateTaskScope tasks pointer = []) :
    CheckedInFull tasks ↔ IteratorsClean tasks := by
  constructor
  · intro checked outer within entry hEntry body hBody
    rw [validateTaskScope_eq_nil_iff]
    intro inner nested
    have hOuter := within.child hEntry (TaskDefinition.mem_scopes_iff.mpr (Or.inr hBody))
    have hInner := hOuter.trans nested.declaredWithin
    exact (declaredClean_iff (single.entries hInner)).mp (checked inner hInner)
  · intro iterators inner within
    have hAccepted : ∃ place, validateTaskScope inner place = [] := by
      induction within with
      | here => exact ⟨pointer, hValid⟩
      | @child outer inner entry prior hEntry hInner ih =>
          obtain ⟨place, hOuter⟩ := ih
          rcases TaskDefinition.mem_scopes_iff.mp hInner with hChecked | hIterator
          · rw [← single.entries prior] at hEntry
            have hTask := validateEntry_of_scope (validateTaskScope_entries hOuter) hEntry
            exact validateTaskScope_of_nested hTask.2 hChecked
          · exact ⟨"", iterators outer prior entry hEntry inner hIterator⟩
    obtain ⟨place, hInner⟩ := hAccepted
    exact (declaredClean_iff (single.entries within)).mpr (locallyClean_of_validateTaskScope hInner)

end Validation

/-- A list of tasks that the validator accepts is compiled in full, all its tasks
checked, if and only if each map of it holds one task, at any depth, and the
bodies of its listen iterators are acceptable themselves. -/
theorem compileScope_inFull_iff {env : CompileEnv}
    {components : Option ComponentDefinitionCollection} {tasks : TaskScope} {pointer base : String}
    {scope : List CompiledTask} (hValid : validateTaskScope tasks pointer = [])
    (hCompile : env.compileScope tasks base components = .ok scope) :
    CompiledInFull env tasks scope ∧ CheckedInFull tasks ↔
      SinglyDeclared tasks ∧ IteratorsClean tasks := by
  have hSingle : CompiledInFull env tasks scope ↔ SinglyDeclared tasks :=
    outlineTasks_eq_iff tasks hCompile
  rw [hSingle]
  constructor
  · intro ⟨single, checked⟩
    exact ⟨single, (single.checkedInFull_iff hValid).mp checked⟩
  · intro ⟨single, iterators⟩
    exact ⟨single, (single.checkedInFull_iff hValid).mpr iterators⟩

namespace Sample

/-- One map with two tasks. -/
def paired : TaskScope :=
  [[("first", .do_ (fields none) []), ("second", .do_ (fields none) [])]]

/-- A listen task with an iterator. -/
def iterating : TaskScope :=
  [[("hear", .listen (fields none)
    { to_ := { one := none, all := none, any := some [] }, until_ := none, read := none }
    (some { item := none, at_ := none }) (some [[("handle", .do_ (fields none) [])]]))]]

end Sample

/-- A listen task with a body that is acceptable is compiled in full, and so is the body. -/
theorem iterating_inFull : ∃ scope,
    Sample.compileEnv.compileScope Sample.iterating "/do" none = .ok scope ∧
      CompiledInFull Sample.compileEnv Sample.iterating scope ∧ CheckedInFull Sample.iterating := by
  have hSingle : SinglyDeclared Sample.iterating := by
    simp [Sample.iterating, singlyDeclared_cons, singlyDeclared_nil, TaskDefinition.scopes,
      TaskDefinition.childScopes, TaskDefinition.branches]
  have hIterators : IteratorsClean Sample.iterating := by
    have hBody : validateTaskScope [[("handle", .do_ (Sample.fields none) [])]] "" = [] := by
      decide +kernel
    have hEmpty : IteratorsClean [] := by
      rw [iteratorsClean_iff]
      simp [declaredTasks]
    have hHandle : IteratorsClean [[("handle", .do_ (Sample.fields none) [])]] := by
      rw [iteratorsClean_iff]
      simp [declaredTasks, hEmpty, TaskDefinition.scopes, TaskDefinition.childScopes,
        TaskDefinition.branches, TaskDefinition.iteratorScopes]
    rw [iteratorsClean_iff]
    simp [Sample.iterating, declaredTasks, hBody, hHandle, TaskDefinition.scopes,
      TaskDefinition.childScopes, TaskDefinition.branches, TaskDefinition.iteratorScopes]
  have hValid : validateTaskScope Sample.iterating "/do" = [] := by decide +kernel
  have hCompile : ∃ scope,
      Sample.compileEnv.compileScope Sample.iterating "/do" none = .ok scope := ⟨_, rfl⟩
  obtain ⟨scope, hScope⟩ := hCompile
  exact ⟨scope, hScope, (compileScope_inFull_iff hValid hScope).mpr ⟨hSingle, hIterators⟩⟩

/-- The second task of a map is lost. -/
theorem paired_not_inFull : validateTaskScope Sample.paired "/do" = [] ∧ ∃ scope,
    Sample.compileEnv.compileScope Sample.paired "/do" none = .ok scope ∧
      ¬ (CompiledInFull Sample.compileEnv Sample.paired scope ∧ CheckedInFull Sample.paired) := by
  refine ⟨by decide +kernel, _, rfl, ?_⟩
  intro ⟨hFull, _⟩
  cases hFull

end OwsRuntime
