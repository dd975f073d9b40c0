import OwsRuntime.Core.Pointer
import OwsRuntime.Properties.DiagnosticSites

/-! Diagnostic locations. The validator leaves the index of a task out of the pointers to
everything within it. Only the issues of the names of the first scope can be located. -/
namespace OwsRuntime

open JsonPointer

/-- A value that holds the tasks of a scope: an array of maps, or what looks like one. -/
def CompileEnv.Holds (env : CompileEnv) (tasks : TaskScope) (value : Value) : Prop :=
  ∀ raw index name task, Placed tasks raw index (name, task) →
    value.resolve [toString raw, name] = some (env.taskToValue task)

/-- Definitions and tasks are serialised under the names that the language gives their
fields. -/
structure CompileEnv.Serializes (env : CompileEnv) : Prop where
  tasks : ∀ definition : WorkflowDefinition, ∃ value,
    (env.definitionToValue definition).resolve ["do"] = some value ∧ env.Holds definition.do_ value
  subscopes : ∀ (task : TaskDefinition) (fields : List String) (body : TaskScope),
    (fields, body) ∈ task.subscopes →
      ∃ value, (env.taskToValue task).resolve fields = some value ∧ env.Holds body value
  then_ : ∀ (task : TaskDefinition) (target : String), task.common.then_ = some target →
    (env.taskToValue task).resolve ["then"] = some (.string target)
  forIn : ∀ common loop while_ body,
    (env.taskToValue (.for_ common loop while_ body)).resolve ["for", "in"] = some (.string loop.in_)
  cases_ : ∀ common cases_ raw index name case, Placed cases_ raw index (name, case) →
    ((env.taskToValue (.switch common cases_)).resolve ["switch", toString raw, name]).isSome

/-- The pointer of an issue leads to the offending part and nowhere else, and it is what the
compiler calls the task, or extends that. -/
structure Exact (env : CompileEnv) (definition : WorkflowDefinition) (issue : ValidationIssue)
    (site : Site) : Prop where
  pointer : ∃ pointer ∈ issue.pointer, tokens pointer = some site.place ∧
    (pointer = site.reference ∨ ∃ field, pointer = site.reference ++ "/" ++ field)
  resolves : ∃ value, (env.definitionToValue definition).resolve site.place = some value ∧
    (env.taskToValue site.entry.2).resolve site.fields = some value

/-- Every issue of the tasks of a definition is located exactly. -/
def ExactLocations (env : CompileEnv) (definition : WorkflowDefinition) : Prop :=
  ∀ issue ∈ validateTaskScope definition.do_ "/do", ∀ site,
    Reports definition.do_ "/do" "/do" ["do"] issue site → Exact env definition issue site

/-- Nothing is wrong with the entries and the tasks of a scope, the scopes within them apart. -/
structure IssueFree (tasks : TaskScope) : Prop where
  entry : ∀ raw index name task code message, Placed tasks raw index (name, task) →
    ¬ EntryIssue tasks index name code message
  task : ∀ raw index name task code message fields suffix, Placed tasks raw index (name, task) →
    ¬ TaskIssue tasks task code message fields suffix

/-- Nothing is wrong but the names and the reachability of the tasks of the first scope. No
empty entry stands before such a task, and its name stands for itself in a pointer. -/
structure WellLocated (tasks : TaskScope) : Prop where
  task : ∀ raw index name task code message fields suffix, Placed tasks raw index (name, task) →
    ¬ TaskIssue tasks task code message fields suffix
  scopes : ∀ entry ∈ scopeEntries tasks, ∀ body ∈ entry.2.checkedScopes,
    ∀ inner, Nested TaskDefinition.checkedScopes [body] inner → IssueFree inner
  names : ∀ raw index name task code message, Placed tasks raw index (name, task) →
    EntryIssue tasks index name code message → index = raw ∧ JsonPointer.Plain name

section Resolving

variable {env : CompileEnv} {tasks : TaskScope} {pointer base : String} {place : List String}
  {issue : ValidationIssue} {site : Site} {root value : Value}

theorem TaskIssue.resolves (serializes : env.Serializes) {task : TaskDefinition}
    {code message suffix : String} {fields : List String}
    (hIssue : TaskIssue tasks task code message fields suffix) :
    ((env.taskToValue task).resolve fields).isSome := by
  cases hIssue with
  | then_ hThen _ => rw [serializes.then_ _ _ hThen]; rfl
  | own hOwn =>
      cases hOwn with
      | forIn _ => rw [serializes.forIn]; rfl
      | switchEmpty => rfl
      | multipleDefault placed _ _ => exact serializes.cases_ _ _ _ _ _ _ placed
      | thenRequired placed _ => exact serializes.cases_ _ _ _ _ _ _ placed

/-- The sites of the issues are in the serialised definition: the task that an issue is about stands
at its place, and the fields it names within it. -/
theorem Reports.resolves (serializes : env.Serializes)
    (reports : Reports tasks pointer base place issue site)
    (hRoot : root.resolve place = some value) (hHolds : env.Holds tasks value) :
    root.resolve site.taskPlace = some (env.taskToValue site.entry.2) ∧
      ((env.taskToValue site.entry.2).resolve site.fields).isSome := by
  have hTask : ∀ {tasks : TaskScope} {place : List String} {value : Value} {raw index : Nat}
      {name : String} {task : TaskDefinition}, root.resolve place = some value →
        env.Holds tasks value → Placed tasks raw index (name, task) →
          root.resolve (place ++ [toString raw, name]) = some (env.taskToValue task) := by
    intro tasks place value raw index name task hRoot hHolds placed
    rw [Value.resolve_append, hRoot]
    exact hHolds raw index name task placed
  induction reports generalizing value with
  | entry placed _ => exact ⟨hTask hRoot hHolds placed, rfl⟩
  | task placed hIssue => exact ⟨hTask hRoot hHolds placed, hIssue.resolves serializes⟩
  | inner placed hInner _ ih =>
      obtain ⟨body, hBody, hHoldsBody⟩ := serializes.subscopes _ _ _ hInner
      refine ih ?_ hHoldsBody
      rw [Value.resolve_append, hTask hRoot hHolds placed]
      exact hBody

end Resolving

section Compiling

variable {env : CompileEnv} {components : Option ComponentDefinitionCollection}
  {tasks : TaskScope} {pointer base : String} {place : List String} {issue : ValidationIssue}
  {site : Site} {wf : CompiledWorkflow}

/-- A named definition is compiled under this reference. -/
structure CompiledUnder (env : CompileEnv) (components : Option ComponentDefinitionCollection)
    (entry : String × TaskDefinition) (reference : String) (task : CompiledTask) : Prop where
  name : task.name = entry.1
  called : task.reference = reference
  kind : env.compileKind components reference entry.2 = .ok task.kind

theorem compileEntry_under {index : Nat} {name : String} {definition : TaskDefinition}
    {rest : List (String × TaskDefinition)} {compiled : Option CompiledTask}
    (hCompile : env.compileEntry components base index ((name, definition) :: rest) = .ok compiled) :
    ∃ task, compiled = some task ∧ CompiledUnder env components (name, definition)
      (base ++ "/" ++ toString index ++ "/" ++ name) task := by
  rw [CompileEnv.compileEntry] at hCompile
  obtain ⟨kind, hKind, hCompile⟩ := bind_eq_ok hCompile
  obtain ⟨timeout, _, hCompile⟩ := bind_eq_ok hCompile
  cases hCompile
  exact ⟨_, rfl, rfl, rfl, hKind⟩

/-- The compiler counts the entries of a scope as the validator counts their names. -/
theorem compileEntries_under {scope : List CompiledTask} {start : Nat}
    (hCompile : env.compileEntries components base start tasks = .ok scope) {raw index : Nat}
    {name : String} {task : TaskDefinition} (placed : Placed tasks raw index (name, task)) :
    ∃ compiled ∈ scope, CompiledUnder env components (name, task)
      (base ++ "/" ++ toString (start + index) ++ "/" ++ name) compiled := by
  induction tasks generalizing start scope raw index with
  | nil => cases placed.head
  | cons entry rest ih =>
      rw [CompileEnv.compileEntries] at hCompile
      obtain ⟨compiled, hEntry, hCompile⟩ := bind_eq_ok hCompile
      cases entry with
      | nil =>
          rw [CompileEnv.compileEntry] at hEntry
          cases hEntry
          cases raw with
          | zero => cases placed.head
          | succ raw => exact ih hCompile ⟨placed.head, placed.index⟩
      | cons first others =>
          obtain ⟨head, rfl, hHead⟩ := compileEntry_under hEntry
          obtain ⟨more, hMore, hCompile⟩ := bind_eq_ok hCompile
          cases hCompile
          cases raw with
          | zero =>
              cases placed.head
              rw [placed.index]
              exact ⟨head, List.mem_cons_self, hHead⟩
          | succ raw =>
              have hIndex : index = ((rest.take raw).filterMap List.head?).length + 1 := placed.index
              obtain ⟨found, hFound, hUnder⟩ := ih hMore ⟨placed.head, rfl⟩
              have hCount : start + 1 + ((rest.take raw).filterMap List.head?).length =
                  start + index := by
                omega
              rw [hCount] at hUnder
              exact ⟨found, List.mem_cons_of_mem _ hFound, hUnder⟩

/-- The scopes within a task are compiled under its reference and their fields. -/
theorem compileKind_subscope {reference : String} {task : TaskDefinition} {kind : CompiledTaskKind}
    (hCompile : env.compileKind components reference task = .ok kind) {fields : List String}
    {body : TaskScope} (hInner : (fields, body) ∈ task.subscopes) :
    ∃ scope, env.compileEntries components (reference ++ slashed fields) 0 body = .ok scope ∧
      (scope ∈ kind.childScopes ∨ scope = kind.forkBranches) := by
  cases task with
  | do_ | for_ =>
      cases List.mem_singleton.mp hInner
      rw [CompileEnv.compileKind] at hCompile
      obtain ⟨scope, hScope, hCompile⟩ := bind_eq_ok hCompile
      cases hCompile
      exact ⟨scope, hScope, Or.inl List.mem_cons_self⟩
  | fork common branches compete =>
      cases List.mem_singleton.mp hInner
      rw [CompileEnv.compileKind] at hCompile
      obtain ⟨scope, hScope, hCompile⟩ := bind_eq_ok hCompile
      cases hCompile
      exact ⟨scope, hScope, Or.inr rfl⟩
  | try_ common tasks catch_ handler =>
      rw [CompileEnv.compileKind] at hCompile
      obtain ⟨scope, hScope, hCompile⟩ := bind_eq_ok hCompile
      obtain ⟨retry, _, hCompile⟩ := bind_eq_ok hCompile
      obtain ⟨compiled, hHandler, hCompile⟩ := bind_eq_ok hCompile
      cases hCompile
      rcases List.mem_cons.mp hInner with hTasks | hInner
      · cases hTasks
        exact ⟨scope, hScope, Or.inl List.mem_cons_self⟩
      · obtain ⟨found, hFound, hEq⟩ := List.mem_map.mp hInner
        cases hEq
        rw [Option.mem_toList.mp hFound, CompileEnv.compileHandler] at hHandler
        obtain ⟨inner, hInner, hHandler⟩ := bind_eq_ok hHandler
        cases hHandler
        exact ⟨inner, hInner, Or.inl (List.mem_cons_of_mem _ List.mem_cons_self)⟩
  | _ => cases hInner

/-- The reference of a site is the one that the compiler gives to the task of the site. -/
theorem Reports.compiled (reports : Reports tasks pointer base place issue site)
    {scope : List CompiledTask} (hCompile : env.compileEntries components base 0 tasks = .ok scope)
    (hScope : ∀ task ∈ scope, wf.HasTask task) :
    ∃ task, wf.HasTask task ∧ CompiledUnder env components site.entry site.reference task := by
  induction reports generalizing scope with
  | entry placed _ | task placed _ =>
      obtain ⟨task, hTask, hUnder⟩ := compileEntries_under hCompile placed
      rw [Nat.zero_add] at hUnder
      exact ⟨task, hScope task hTask, hUnder⟩
  | inner placed hInner _ ih =>
      obtain ⟨task, hTask, hUnder⟩ := compileEntries_under hCompile placed
      rw [Nat.zero_add] at hUnder
      obtain ⟨inner, hBody, hWithin⟩ := compileKind_subscope hUnder.kind hInner
      refine ih hBody fun other hOther => ?_
      rcases hWithin with hChild | rfl
      · exact (hScope task hTask).child hChild hOther
      · exact (hScope task hTask).branch hOther

end Compiling

section Lengths

variable {env : CompileEnv} {definition : WorkflowDefinition} {tasks : TaskScope}
  {pointer base name : String} {place fields : List String} {raw index : Nat}
  {issue : ValidationIssue} {site : Site}

theorem length_slashed (fields : List String) : (slashed fields).length = weight fields := by
  induction fields with
  | nil => rfl
  | cons field rest ih =>
      have hOne : "/".length = 1 := rfl
      rw [slashed, List.foldr_cons, ← slashed, String.length_append, String.length_append, ih,
        weight_cons, hOne]
      omega

theorem TaskIssue.length_le {task : TaskDefinition} {code message suffix : String}
    (hIssue : TaskIssue tasks task code message fields suffix) : suffix.length ≤ weight fields := by
  have hCase : ∀ (raw : Nat) (name : String),
      ("/" ++ name).length ≤ weight ["switch", toString raw, name] := by
    intro raw name
    have hOne : "/".length = 1 := rfl
    rw [String.length_append, hOne, weight_cons, weight_cons, weight_cons, weight_nil]
    omega
  cases hIssue with
  | then_ _ _ => decide
  | own hOwn =>
      cases hOwn with
      | forIn _ => decide
      | switchEmpty => decide
      | multipleDefault _ _ _ => exact hCase _ _
      | thenRequired _ _ => exact hCase _ _

theorem Placed.entry_length {entry : String × TaskDefinition}
    (placed : Placed tasks raw index entry)
    (pointer : String) : (pointer ++ "/" ++ toString index ++ "/" ++ entry.1).length ≤
      pointer.length + weight [toString raw, entry.1] := by
  have hOne : "/".length = 1 := rfl
  have hIndex := length_toString_mono placed.le
  simp only [String.length_append, hOne, weight_cons, weight_nil]
  omega

/-- What is in a task is farther away than the validator says. -/
theorem task_length {suffix : String} (hSuffix : suffix.length ≤ weight fields) :
    (pointer ++ "/" ++ name ++ suffix).length <
      pointer.length + weight ([toString raw, name] ++ fields) := by
  have hOne : "/".length = 1 := rfl
  rw [List.cons_append, weight_cons, List.singleton_append, weight_cons]
  simp only [String.length_append, hOne]
  omega

/-- In a scope that is farther away than its pointer, everything is. -/
theorem Reports.pointer_lt (reports : Reports tasks pointer base place issue site)
    (hScope : pointer.length < weight place) :
    ∀ text ∈ issue.pointer, text.length < weight site.place := by
  induction reports with
  | entry placed _ =>
      intro text hText
      cases hText
      rw [Site.place, List.append_nil, weight_append]
      exact (placed.entry_length _).trans_lt (Nat.add_lt_add_right hScope _)
  | task placed hIssue =>
      intro text hText
      cases hText
      rw [Site.place, List.append_assoc, weight_append]
      exact (task_length hIssue.length_le).trans (Nat.add_lt_add_right hScope _)
  | inner placed hInner _ ih =>
      refine ih ?_
      rw [List.append_assoc, weight_append]
      exact (task_length (length_slashed _).le).trans (Nat.add_lt_add_right hScope _)

theorem not_exact_of_lt (hShort : ∀ text ∈ issue.pointer, text.length < weight site.place) :
    ¬ Exact env definition issue site := by
  rintro ⟨⟨text, hText, hTokens, _⟩, _⟩
  exact absurd (weight_tokens hTokens) (Nat.not_le.mpr (hShort text hText))

/-- The pointer to an entry of the first scope leads there when the index counts all maps before it
and the name needs no escape. -/
theorem tokens_entry_iff : tokens ("/do" ++ "/" ++ toString index ++ "/" ++ name) =
    some (["do"] ++ [toString raw, name] ++ []) ↔ index = raw ∧ JsonPointer.Plain name := by
  have hText : "/do" ++ "/" ++ toString index ++ "/" ++ name =
      "/" ++ "do" ++ "/" ++ (toString index ++ "/" ++ name) := by
    simp only [String.append_assoc]
    rfl
  have hRest : "/" ++ (toString index ++ "/" ++ name) = "/" ++ toString index ++ "/" ++ name := by
    simp only [String.append_assoc]
  have hDo : JsonPointer.Plain "do" := by decide
  rw [hText, tokens_plain hDo, hRest, tokens_plain (plain_toString index), Option.map_map,
    ← tokens_single_iff]
  constructor
  · intro h
    obtain ⟨list, hList, hSame⟩ := Option.map_eq_some_iff.mp h
    simp only [Function.comp_apply, List.cons_append, List.nil_append, List.cons.injEq, true_and]
      at hSame
    exact ⟨toString_injective hSame.1, hSame.2 ▸ hList⟩
  · rintro ⟨rfl, hName⟩
    rw [hName]
    rfl

end Lengths

section Serializer

def serialThen (common : TaskDefinitionFields) : Map :=
  (common.then_.map fun target => ("then", Value.string target)).toList

def serialCase (case : SwitchCaseDefinition) : Value :=
  .object ((case.when.map fun source => ("when", Value.string source)).toList ++
    (case.then_.map fun target => ("then", Value.string target)).toList)

def serialCases (cases_ : List (List (String × SwitchCaseDefinition))) : List Value :=
  cases_.map fun map => .object (map.map fun case => (case.1, serialCase case.2))

mutual

/-- The parts of a task that the validator looks at, as the language writes them. -/
def serialTask : TaskDefinition → Value
  | .do_ common tasks => .object (serialThen common ++ [("do", .array (serialScope tasks))])
  | .for_ common loop _ tasks =>
      .object (serialThen common ++
        [("for", .object [("each", .string loop.each), ("in", .string loop.in_)]),
          ("do", .array (serialScope tasks))])
  | .fork common branches compete =>
      .object (serialThen common ++
        [("fork", .object [("branches", .array (serialScope branches)), ("compete", .bool compete)])])
  | .try_ common tasks _ handler =>
      .object (serialThen common ++
        [("try", .array (serialScope tasks)), ("catch", .object (serialHandler handler))])
  | .switch common cases_ =>
      .object (serialThen common ++ [("switch", .array (serialCases cases_))])
  | .set common (.map entries) => .object (serialThen common ++ [("set", .object entries)])
  | task => .object (serialThen task.common)

def serialHandler : Option TaskScope → Map
  | none => []
  | some tasks => [("do", .array (serialScope tasks))]

def serialScope : List (List (String × TaskDefinition)) → List Value
  | [] => []
  | map :: rest => .object (serialEntries map) :: serialScope rest

def serialEntries : List (String × TaskDefinition) → Map
  | [] => []
  | (name, task) :: rest => (name, serialTask task) :: serialEntries rest

end

def serialEnv : CompileEnv :=
  { Sample.compileEnv with
    taskToValue := serialTask
    definitionToValue := fun definition =>
      .object [("document", .object [("dsl", .string definition.document.dsl),
        ("namespace", .string definition.document.namespace_), ("name", .string definition.document.name),
        ("version", .string definition.document.version)]), ("do", .array (serialScope definition.do_))] }

theorem resolve_maps {α : Type} {maps : List (List α)} {raw index : Nat} {entry : α}
    (placed : Placed maps raw index entry) {items : List Value} {name : String} {value : Value}
    (hItem : ∀ rest, maps[raw]? = some (entry :: rest) →
      ∃ more, items[raw]? = some (.object ((name, value) :: more))) :
    (Value.array items).resolve [toString raw, name] = some value := by
  obtain ⟨map, hMap, hHead⟩ := Option.bind_eq_some_iff.mp placed.head
  obtain ⟨rest, rfl⟩ := List.head?_eq_some_iff.mp hHead
  obtain ⟨more, hMore⟩ := hItem rest hMap
  rw [Value.resolve, Value.lookup_members, hMore, Option.bind_some, Value.resolve]
  simp [Value.members, Value.resolve]

theorem serialScope_eq_map (tasks : TaskScope) :
    serialScope tasks = tasks.map fun map => .object (serialEntries map) := by
  induction tasks with
  | nil => rw [serialScope, List.map_nil]
  | cons map rest ih => rw [serialScope, ih, List.map_cons]

theorem serialScope_holds (tasks : TaskScope) :
    serialEnv.Holds tasks (.array (serialScope tasks)) := by
  intro raw index name task placed
  apply resolve_maps placed
  intro rest hMap
  rw [serialScope_eq_map, List.getElem?_map, hMap, Option.map_some, serialEntries]
  exact ⟨_, rfl⟩

theorem lookup_serialThen {common : TaskDefinitionFields} {key : String} (hKey : key ≠ "then")
    (rest : Map) : (serialThen common ++ rest).lookup key = rest.lookup key := by
  rw [serialThen]
  cases common.then_ with
  | none => rfl
  | some target =>
      show List.lookup key (("then", Value.string target) :: rest) = _
      rw [List.lookup_cons, beq_eq_false_iff_ne.mpr hKey]

/-- The directive of a task is serialised under `then`, whatever the kind of the task. -/
theorem serialTask_then {task : TaskDefinition} {target : String}
    (hThen : task.common.then_ = some target) :
    (serialTask task).resolve ["then"] = some (.string target) := by
  have hFirst : ∀ {common : TaskDefinitionFields} (rest : Map), common.then_ = some target →
      (Value.object (serialThen common ++ rest)).resolve ["then"] = some (.string target) := by
    intro common rest hCommon
    rw [serialThen, hCommon]
    rfl
  have hOnly : ∀ {common : TaskDefinitionFields}, common.then_ = some target →
      (Value.object (serialThen common)).resolve ["then"] = some (.string target) := by
    intro common hCommon
    rw [serialThen, hCommon]
    rfl
  cases task with
  | set common values => cases values with
    | map entries => exact hFirst _ hThen
    | expression source => exact hOnly hThen
  | do_ | for_ | fork | try_ | switch =>
      rw [serialTask]
      exact hFirst _ hThen
  | _ =>
      rw [serialTask]
      · exact hOnly hThen
      all_goals intros; contradiction

theorem resolve_field {common : TaskDefinitionFields} {key : String} (hKey : key ≠ "then")
    (rest : Map) (fields : List String) :
    (Value.object (serialThen common ++ rest)).resolve (key :: fields) =
      (rest.lookup key).bind fun inner => inner.resolve fields := by
  rw [Value.resolve]
  exact congrArg (fun found => Option.bind found fun inner => inner.resolve fields)
    (lookup_serialThen hKey rest)

/-- The scopes within a task are serialised under the fields by which the validator names them. -/
theorem serialTask_subscope {task : TaskDefinition} {fields : List String} {body : TaskScope}
    (hInner : (fields, body) ∈ task.subscopes) :
    (serialTask task).resolve fields = some (.array (serialScope body)) := by
  cases task with
  | do_ | for_ | fork =>
      cases List.mem_singleton.mp hInner
      rw [serialTask, resolve_field (by decide)]
      rfl
  | try_ common tasks catch_ handler =>
      rcases List.mem_cons.mp hInner with hTasks | hHandler
      · cases hTasks
        rw [serialTask, resolve_field (by decide)]
        rfl
      · obtain ⟨scope, hScope, hEq⟩ := List.mem_map.mp hHandler
        cases hEq
        rw [Option.mem_toList.mp hScope, serialTask, resolve_field (by decide), serialHandler]
        rfl
  | _ => cases hInner

/-- The serialiser of the sample shows different definitions as different values, place by place. -/
theorem serialEnv_serializes : serialEnv.Serializes where
  tasks definition := ⟨_, rfl, serialScope_holds definition.do_⟩
  subscopes _ _ body hInner := ⟨_, serialTask_subscope hInner, serialScope_holds body⟩
  then_ _ _ hThen := serialTask_then hThen
  forIn common loop while_ body := by
    have hFor : serialTask (.for_ common loop while_ body) = .object (serialThen common ++
        [("for", .object [("each", .string loop.each), ("in", .string loop.in_)]),
          ("do", .array (serialScope body))]) := by rw [serialTask]
    exact (congrArg (fun value => Value.resolve value ["for", "in"]) hFor).trans
      (resolve_field (by decide) _ _)
  cases_ common cases_ raw index name case placed := by
    have hSwitch : serialTask (.switch common cases_) =
        .object (serialThen common ++ [("switch", .array (serialCases cases_))]) := by
      rw [serialTask]
    have hCase : (Value.array (serialCases cases_)).resolve [toString raw, name] =
        some (serialCase case) := by
      apply resolve_maps placed
      intro rest hMap
      rw [serialCases, List.getElem?_map, hMap]
      exact ⟨_, rfl⟩
    have hResolve : (serialTask (.switch common cases_)).resolve ["switch", toString raw, name] =
        some (serialCase case) := by
      rw [hSwitch, resolve_field (by decide)]
      exact hCase
    exact Option.isSome_of_eq_some hResolve

end Serializer

section Locations

variable {env : CompileEnv} {definition : WorkflowDefinition} {tasks : TaskScope}
  {pointer base : String} {place : List String} {issue : ValidationIssue} {site : Site}

theorem mem_checkedScopes {task : TaskDefinition} {fields : List String} {body : TaskScope}
    (hInner : (fields, body) ∈ task.subscopes) : body ∈ task.checkedScopes := by
  cases task with
  | try_ common tasks catch_ handler =>
      rcases List.mem_cons.mp hInner with hTasks | hHandler
      · cases hTasks
        exact List.mem_cons_self
      · obtain ⟨scope, hScope, hEq⟩ := List.mem_map.mp hHandler
        cases hEq
        exact List.mem_cons_of_mem _ hScope
  | do_ | for_ | fork =>
      cases List.mem_singleton.mp hInner
      exact List.mem_cons_self
  | _ => cases hInner

theorem issueFree_of_validateTaskScope (hNone : validateTaskScope tasks pointer = []) :
    IssueFree tasks := by
  have hNot : ∀ issue, issue ∉ validateTaskScope tasks pointer := by
    intro issue hIssue
    rw [hNone] at hIssue
    cases hIssue
  constructor
  · intro raw index name task code message placed hIssue
    exact hNot _ (@Reports.entry _ _ "" [] _ _ _ _ _ _ placed hIssue).mem
  · intro raw index name task code message fields suffix placed hIssue
    exact hNot _ (@Reports.task _ _ "" [] _ _ _ _ _ _ _ _ placed hIssue).mem

/-- Nothing is reported where nothing is wrong at any depth. -/
theorem Reports.false_of_issueFree (reports : Reports tasks pointer base place issue site)
    (free : ∀ inner, Nested TaskDefinition.checkedScopes [tasks] inner → IssueFree inner) :
    False := by
  have hHere : ∀ {tasks : TaskScope}, Nested TaskDefinition.checkedScopes [tasks] tasks :=
    .root (List.mem_singleton.mpr rfl)
  induction reports with
  | entry placed hIssue => exact (free _ hHere).entry _ _ _ _ _ _ placed hIssue
  | task placed hIssue => exact (free _ hHere).task _ _ _ _ _ _ _ _ placed hIssue
  | inner placed hInner _ ih =>
      have hEntry := List.mem_of_getElem? (getElem?_heads_iff.mpr ⟨_, placed⟩)
      have hBody := hHere.child hEntry (mem_checkedScopes hInner)
      exact ih fun inner nested => free inner (hBody.within nested)

/-- What is reported within a task is not located exactly, as its pointer lacks the index of the
task; so nothing is reported there. -/
theorem ExactLocations.validateEntries_eq_nil (exact_ : ExactLocations env definition) :
    validateEntries (scopeNames definition.do_) "/do" definition.do_ = [] := by
  have hRoot : "/do".length = weight ["do"] := by decide
  rw [List.eq_nil_iff_forall_not_mem]
  intro issue hIssue
  obtain ⟨raw, index, name, task, placed, hTask | ⟨fields, body, hInner, hBody⟩⟩ :=
    mem_validateEntries_iff.mp hIssue
  · obtain ⟨code, message, fields, suffix, hTask, rfl⟩ := hTask
    have reports : Reports definition.do_ "/do" "/do" ["do"] _ _ := .task placed hTask
    refine not_exact_of_lt ?_ (exact_ _ reports.mem _ reports)
    intro text hText
    cases hText
    rw [Site.place, List.append_assoc, weight_append, ← hRoot]
    exact task_length hTask.length_le
  · obtain ⟨site, hReports⟩ := exists_site body _
      ("/do" ++ "/" ++ toString index ++ "/" ++ name ++ slashed fields)
      (["do"] ++ [toString raw, name] ++ fields) hBody
    have reports : Reports definition.do_ "/do" "/do" ["do"] issue site :=
      .inner placed hInner hReports
    refine not_exact_of_lt (hReports.pointer_lt ?_) (exact_ _ reports.mem _ reports)
    rw [List.append_assoc, weight_append, ← hRoot]
    exact task_length (length_slashed fields).le

/-- Where every location is exact, nothing is wrong within the tasks, the names that are reported
are plain, and no empty entry stands before them. -/
theorem ExactLocations.wellLocated (exact_ : ExactLocations env definition) :
    WellLocated definition.do_ where
  task raw index name task code message fields suffix placed hIssue := by
    have hMem : issueAt ("/do" ++ "/" ++ name ++ suffix) code message ∈
        validateEntries (scopeNames definition.do_) "/do" definition.do_ :=
      mem_validateEntries_iff.mpr
        ⟨raw, index, name, task, placed, Or.inl ⟨code, message, fields, suffix, hIssue, rfl⟩⟩
    rw [exact_.validateEntries_eq_nil] at hMem
    cases hMem
  scopes entry hEntry body hBody inner nested := by
    have hNested := (validateEntry_of_scope exact_.validateEntries_eq_nil hEntry).2
    obtain ⟨pointer, hScope⟩ := validateTaskScope_of_nested hNested hBody
    have clean : ScopesClean inner :=
      fun other within => validateTaskScope_eq_nil_iff.mp hScope other (nested.within within)
    exact @issueFree_of_validateTaskScope _ "" (validateTaskScope_eq_nil_iff.mpr clean)
  names raw index name task code message placed hIssue := by
    have reports : Reports definition.do_ "/do" "/do" ["do"] _ _ := .entry placed hIssue
    obtain ⟨text, hText, hTokens, _⟩ := (exact_ _ reports.mem _ reports).pointer
    cases hText
    exact tokens_entry_iff.mp hTokens

/-- Where that is so, each pointer leads to what its issue is about. -/
theorem WellLocated.exact (serializes : env.Serializes) (well : WellLocated definition.do_) :
    ExactLocations env definition := by
  intro issue _ site reports
  obtain ⟨value, hValue, hHolds⟩ := serializes.tasks definition
  have hResolves := reports.resolves serializes hValue hHolds
  constructor
  · cases reports with
    | entry placed hIssue =>
        exact ⟨_, rfl, tokens_entry_iff.mpr (well.names _ _ _ _ _ _ placed hIssue), Or.inl rfl⟩
    | task placed hIssue => exact absurd hIssue (well.task _ _ _ _ _ _ _ _ placed)
    | inner placed hInner hReports =>
        have hEntry := List.mem_of_getElem? (getElem?_heads_iff.mpr ⟨_, placed⟩)
        exact (hReports.false_of_issueFree
          (well.scopes _ hEntry _ (mem_checkedScopes hInner))).elim
  · obtain ⟨part, hPart⟩ := Option.isSome_iff_exists.mp hResolves.2
    refine ⟨part, ?_, hPart⟩
    rw [Site.place, Value.resolve_append, hResolves.1]
    exact hPart

/-- The diagnostic locations of a definition are exact if and only if nothing is wrong within
its tasks, and those with wrong names, and those that are missed, have plain names and no
empty entry before them. -/
theorem exactLocations_iff (serializes : env.Serializes) (definition : WorkflowDefinition) :
    ExactLocations env definition ↔ WellLocated definition.do_ :=
  ⟨ExactLocations.wellLocated, WellLocated.exact serializes⟩

/-- A task with a directive that leads nowhere. -/
def straying : WorkflowDefinition :=
  Sample.definition [[("a", .set (Sample.fields (some "nowhere")) (.map []))]]

/-- The pointer of the issue leads to nothing. The directive is in the task with index 0. -/
theorem straying_not_located :
    ¬ ExactLocations serialEnv straying ∧
      (validateTaskScope straying.do_ "/do").map ValidationIssue.pointer = [some "/do/a/then"] ∧
      (serialEnv.definitionToValue straying).resolve ["do", "a", "then"] = none := by
  refine ⟨fun exact_ => ?_, ?_, ?_⟩
  · have placed : Placed straying.do_ 0 0 ("a", .set (Sample.fields (some "nowhere")) (.map [])) :=
      ⟨rfl, rfl⟩
    have hTarget : ¬ TargetIn straying.do_ "nowhere" := by
      rintro (h | h | h | h) <;> exact absurd h (by decide)
    have reports : Reports straying.do_ "/do" "/do" ["do"] _ _ := .task placed (.then_ rfl hTarget)
    obtain ⟨text, hText, hTokens, _⟩ := (exact_ _ reports.mem _ reports).pointer
    cases hText
    exact absurd hTokens (by decide)
  · decide
  · decide

/-- A task with a name that is no identifier. -/
def misnamed : WorkflowDefinition :=
  Sample.definition [[("1st", .set (Sample.fields none) (.map []))]]

/-- The pointer of the issue leads to the task with the wrong name. -/
theorem misnamed_located :
    ExactLocations serialEnv misnamed ∧
      (validateTaskScope misnamed.do_ "/do").map ValidationIssue.pointer = [some "/do/0/1st"] := by
  have hOnly : ∀ {raw index name task}, Placed misnamed.do_ raw index (name, task) →
      raw = 0 ∧ index = 0 ∧ name = "1st" ∧ task = .set (Sample.fields none) (.map []) := by
    intro raw index name task placed
    cases raw with
    | zero =>
        cases placed.head
        exact ⟨rfl, placed.index, rfl, rfl⟩
    | succ raw => cases placed.head
  refine ⟨(exactLocations_iff serialEnv_serializes misnamed).mpr ⟨?_, ?_, ?_⟩, by decide⟩
  · intro raw index name task code message fields suffix placed hIssue
    obtain ⟨_, _, _, rfl⟩ := hOnly placed
    cases hIssue with
    | then_ hThen _ => cases hThen
    | own hOwn => cases hOwn
  · intro entry hEntry body hBody
    cases List.mem_singleton.mp hEntry
    cases hBody
  · intro raw index name task code message placed _
    obtain ⟨rfl, rfl, rfl, _⟩ := hOnly placed
    exact ⟨rfl, by decide⟩

end Locations

end OwsRuntime
