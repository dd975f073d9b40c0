import OwsRuntime.CompileScopes
import OwsRuntime.Engine.Sources

/-! The texts of a definition that are evaluated, and what compilation keeps of them. -/
namespace OwsRuntime

/-- The text of a transformation, `from` or `as`. -/
def DataModelDefinition.text (data : Option DataModelDefinition) : Option String :=
  data.bind fun d => d.transform.bind Value.asStr

def TaskDefinitionFields.sources (common : TaskDefinitionFields) : List ExpressionSource :=
  expressions (common.if_.toList ++ (DataModelDefinition.text common.input).toList ++
    (DataModelDefinition.text common.output).toList ++
    (DataModelDefinition.text common.export_).toList)

def CorrelationKeyDefinition.sources (key : CorrelationKeyDefinition) : List ExpressionSource :=
  expressions (key.from_ :: key.expect.toList)

def EventFilterDefinition.sources (filter : EventFilterDefinition) : List ExpressionSource :=
  (filter.correlate.getD []).flatMap fun entry => entry.2.sources

/-- The filters of the strategy that is in force. -/
def EventConsumption.filters (consumption : EventConsumption) : List EventFilterDefinition :=
  match consumption.one, consumption.all, consumption.any with
  | some filter, _, _ => [filter]
  | none, some filters, _ => filters
  | none, none, some filters => filters
  | none, none, none => []

def EventConsumption.sources (consumption : EventConsumption) : List ExpressionSource :=
  consumption.filters.flatMap EventFilterDefinition.sources

def UntilDefinition.sources : UntilDefinition → List ExpressionSource
  | .expression source => [.expression source]
  | .strategy consumption => consumption.sources

def RetryPolicyDefinition.texts (policy : RetryPolicyDefinition) : List String :=
  policy.when.toList ++ policy.exceptWhen.toList

/-- The policy of a retry, inline or among the reusable components. -/
def RetryDefinition.policy (components : Option ComponentDefinitionCollection) :
    RetryDefinition → Option RetryPolicyDefinition
  | .retry policy => some policy
  | .reference name => (components.bind (·.retries)).bind (·.lookup name)

def CatchDefinition.sources (components : Option ComponentDefinitionCollection)
    (catch_ : CatchDefinition) : List ExpressionSource :=
  expressions (catch_.when.toList ++ catch_.exceptWhen.toList ++
    (catch_.retry.bind (·.policy components)).toList.flatMap RetryPolicyDefinition.texts)

def ProcessDefinition.sources : ProcessDefinition → List ExpressionSource
  | .container _ arguments environment stdin => commandSources [] arguments environment stdin
  | .script _ code arguments environment stdin =>
      commandSources code.toList arguments environment stdin
  | .shell command arguments environment => commandSources [command] arguments environment none
  | .workflow _ _ _ input => (input.bind Value.asStr).toList.map .template

/-- The texts which the body of a task evaluates. -/
def TaskDefinition.bodySources (components : Option ComponentDefinitionCollection) :
    TaskDefinition → List ExpressionSource
  | set _ (.expression source) => [.template source]
  | set _ (.map entries) => templates entries
  | for_ _ loop while_ _ => expressions (loop.in_ :: while_.toList)
  | switch _ cases => (cases.filterMap List.head?).flatMap fun case =>
      expressions case.2.when.toList
  | try_ _ _ catch_ _ => catch_.sources components
  | emit _ event => (Value.entryStrings event).map .template
  | listen _ def_ _ _ => def_.to_.sources ++ def_.until_.toList.flatMap UntilDefinition.sources
  | call _ _ with_ => (Value.entryStrings (with_.getD [])).map .template
  | run _ def_ => def_.process.toList.flatMap ProcessDefinition.sources
  | _ => []

def TaskDefinition.sources (components : Option ComponentDefinitionCollection)
    (task : TaskDefinition) : List ExpressionSource :=
  task.common.sources ++ task.bodySources components

/-- The texts of a definition that are evaluated: its own, the conditions of its
extensions, those of its tasks at any depth, and the arguments of reusable functions. -/
inductive WorkflowDefinition.HasSource (definition : WorkflowDefinition) : ExpressionSource → Prop where
  | input {source : String} (hSource : DataModelDefinition.text definition.input = some source) :
      HasSource definition (.expression source)
  | output {source : String} (hSource : DataModelDefinition.text definition.output = some source) :
      HasSource definition (.expression source)
  | extension {list : List (List (String × ExtensionDefinition))}
      {entries : List (String × ExtensionDefinition)} {entry : String × ExtensionDefinition}
      {source : String} (hList : definition.use_.bind (·.extensions) = some list)
      (hEntries : entries ∈ list) (hEntry : entry ∈ entries) (hSource : entry.2.when = some source) :
      HasSource definition (.expression source)
  | function {list : List (String × TaskDefinition)} {name call : String}
      {common : TaskDefinitionFields} {with_ : Map} {source : String}
      (hList : definition.use_.bind (·.functions) = some list)
      (hFunction : (name, .call common call (some with_)) ∈ list)
      (hSource : source ∈ Value.entryStrings with_) : HasSource definition (.template source)
  | task {tasks : TaskScope} {entry : String × TaskDefinition} {source : ExpressionSource}
      (nested : Nested TaskDefinition.scopes definition.rootScopes tasks)
      (hEntry : entry ∈ scopeEntries tasks) (hSource : source ∈ entry.2.sources definition.use_) :
      HasSource definition source

section Compiler

variable {env : CompileEnv} {components : Option ComponentDefinitionCollection}

theorem compileData_transform (data : Option DataModelDefinition) :
    (compileData data).transform = DataModelDefinition.text data := by
  cases data <;> rfl

theorem compileFilter_sources (filter : EventFilterDefinition) :
    (compileFilter filter).sources = filter.sources := by
  simp [compileFilter, EventFilterDef.sources, EventFilterDefinition.sources, List.flatMap_map,
    CorrelationDef.sources, CorrelationKeyDefinition.sources]

theorem compileListenTo_sources (consumption : EventConsumption) :
    (compileListenTo consumption).filters.flatMap EventFilterDef.sources = consumption.sources := by
  have hMap : ∀ filters : List EventFilterDefinition,
      (filters.map compileFilter).flatMap EventFilterDef.sources =
        filters.flatMap EventFilterDefinition.sources := by
    intro filters
    simp [List.flatMap_map, compileFilter_sources]
  obtain ⟨one, all, any⟩ := consumption
  cases one with
  | some filter => exact hMap [filter]
  | none =>
      cases all with
      | some filters => exact hMap filters
      | none =>
          cases any with
          | some filters => exact hMap filters
          | none => rfl

theorem compileListen_sources (listen : ListenDefinition) :
    (compileListen listen).sources =
      listen.to_.sources ++ listen.until_.toList.flatMap UntilDefinition.sources := by
  have hUntil : (compileListenUntil listen.until_).toList.flatMap ListenUntil.sources =
      listen.until_.toList.flatMap UntilDefinition.sources := by
    match listen.until_ with
    | none => rfl
    | some (.expression source) => rfl
    | some (.strategy consumption) =>
        have hTo := compileListenTo_sources consumption
        rw [compileListenUntil]
        cases hStrategy : compileListenTo consumption <;>
          simpa [hStrategy, ListenTo.filters, ListenUntil.sources, UntilDefinition.sources] using hTo
  rw [ListenDef.sources, compileListen, compileListenTo_sources, hUntil]

theorem resolveRetry_sources {retry : Option RetryDefinition} {policy : Option RetryPolicyDef}
    (hResolve : resolveRetry components retry = .ok policy) :
    policy.toList.flatMap (fun p => p.when.toList ++ p.exceptWhen.toList) =
      (retry.bind (·.policy components)).toList.flatMap RetryPolicyDefinition.texts := by
  match retry with
  | none =>
      cases hResolve
      rfl
  | some (.retry inline) =>
      cases hResolve
      rfl
  | some (.reference name) =>
      rw [resolveRetry] at hResolve
      split at hResolve <;> cases hResolve
      rename_i found hLookup
      simp [RetryDefinition.policy, hLookup, resolveRetry.compilePolicy, RetryPolicyDefinition.texts]

/-- The texts that a compiled run task evaluates are those which its process declares, or an empty
one that stands for a missing text. -/
theorem compileRun_sources {run : RunDefinition} {kind : CompiledTaskKind}
    (hCompile : compileRun run = .ok kind) : ∀ source ∈ kind.sources,
      source ∈ run.process.toList.flatMap ProcessDefinition.sources ∨ source = .template "" := by
  obtain ⟨process, await_⟩ := run
  match process with
  | none => cases hCompile
  | some (.container image arguments environment stdin) =>
      cases hCompile
      exact fun source hMem => Or.inl (by
        simpa [ProcessDefinition.sources, CompiledTaskKind.sources, RunProcess.sources] using hMem)
  | some (.shell command arguments environment) =>
      cases hCompile
      exact fun source hMem => Or.inl (by
        simpa [ProcessDefinition.sources, CompiledTaskKind.sources, RunProcess.sources] using hMem)
  | some (.workflow namespace_ name version input) =>
      cases hCompile
      exact fun source hMem => Or.inl (by
        simpa [ProcessDefinition.sources, CompiledTaskKind.sources, RunProcess.sources] using hMem)
  | some (.script language code arguments environment stdin) =>
      cases hCompile
      intro source hMem
      cases code with
      | some code =>
          refine Or.inl ?_
          simpa [ProcessDefinition.sources, CompiledTaskKind.sources, RunProcess.sources] using hMem
      | none =>
          rcases List.mem_cons.mp hMem with rfl | hRest
          · exact Or.inr rfl
          · exact Or.inl (by simpa [ProcessDefinition.sources, commandSources] using hRest)

/-- The texts directly in a map are among those at any depth. -/
theorem templates_within (entries : Map) :
    ∀ source ∈ templates entries, source ∈ (Value.entryStrings entries).map .template := by
  intro source hMem
  induction entries with
  | nil => cases hMem
  | cons entry rest ih =>
      obtain ⟨key, value⟩ := entry
      rw [Value.entryStrings, List.map_append, List.mem_append]
      cases value with
      | string text =>
          rcases List.mem_cons.mp hMem with rfl | hRest
          · exact Or.inl List.mem_cons_self
          · exact Or.inr (ih hRest)
      | _ => exact Or.inr (ih hMem)

/-- The texts of a compiled task are those of its definition. A script without code is
an empty text. -/
theorem compileKind_sources {place : String} {definition : TaskDefinition} {kind : CompiledTaskKind}
    (hCompile : env.compileKind components place definition = .ok kind) :
    ∀ source ∈ kind.sources, source ∈ definition.bodySources components ∨ source = .template "" := by
  have hSame : kind.sources = definition.bodySources components →
      ∀ source ∈ kind.sources, source ∈ definition.bodySources components ∨ source = .template "" :=
    fun hEq source hMem => Or.inl (hEq ▸ hMem)
  cases definition with
  | set common values => cases values <;> cases hCompile <;> exact hSame rfl
  | switch common cases_ =>
      cases hCompile
      apply hSame
      simp [compileSwitch, CompiledTaskKind.sources, TaskDefinition.bodySources, List.flatMap_map,
        SwitchCase.sources]
  | emit common event =>
      cases hCompile
      exact hSame rfl
  | call common name with_ =>
      cases hCompile
      exact fun source hMem => Or.inl (templates_within _ source hMem)
  | raise common error => cases error <;> cases hCompile <;> exact hSame rfl
  | run common run => exact compileRun_sources hCompile
  | wait common duration =>
      rw [CompileEnv.compileKind] at hCompile
      split at hCompile <;> cases hCompile
      exact hSame rfl
  | try_ common body catch_ handler =>
      rw [CompileEnv.compileKind] at hCompile
      obtain ⟨scope, _, hCompile⟩ := bind_eq_ok hCompile
      obtain ⟨retry, hRetry, hCompile⟩ := bind_eq_ok hCompile
      obtain ⟨compiled, _, hCompile⟩ := bind_eq_ok hCompile
      cases hCompile
      apply hSame
      rw [TaskDefinition.bodySources, CatchDefinition.sources, ← resolveRetry_sources hRetry]
      rfl
  | listen common listen foreach_ foreachDo =>
      cases foreach_ with
      | none =>
          cases hCompile
          exact hSame (compileListen_sources listen)
      | some foreach_ =>
          rw [CompileEnv.compileKind] at hCompile
          obtain ⟨body, _, hCompile⟩ := bind_eq_ok hCompile
          cases hCompile
          exact hSame (compileListen_sources listen)
  | do_ common tasks | for_ common loop while_ tasks | fork common tasks compete =>
      rw [CompileEnv.compileKind] at hCompile
      obtain ⟨scope, _, hCompile⟩ := bind_eq_ok hCompile
      cases hCompile
      exact hSame rfl

theorem CompiledFrom.sources {entry : String × TaskDefinition} {task : CompiledTask}
    (compiled : CompiledFrom env components entry task) :
    ∀ source ∈ task.sources, source ∈ entry.2.sources components ∨ source = .template "" := by
  intro source hMem
  rcases List.mem_append.mp hMem with hField | hBody
  · rw [compiled.if_, compiled.input, compiled.output, compiled.export_, compileData_transform,
      compileData_transform, compileData_transform] at hField
    exact Or.inl (List.mem_append_left _ hField)
  · obtain ⟨place, hKind⟩ := compiled.kind
    exact (compileKind_sources hKind source hBody).imp (List.mem_append_right _) id

/-- The condition of a compiled extension is that of an extension in the definition, unchanged. -/
theorem WorkflowFrom.extensionWhen {definition : WorkflowDefinition} {wf : CompiledWorkflow}
    (from_ : WorkflowFrom env definition wf) {ext : CompiledExtension} (hExt : ext ∈ wf.extensions) :
    ∃ list, definition.use_.bind (·.extensions) = some list ∧
      ∃ entries ∈ list, ∃ entry ∈ entries, entry.2.when = ext.when := by
  have hCompiled := from_.extensions
  rw [CompileEnv.compileExtensions] at hCompiled
  cases hList : definition.use_.bind (·.extensions) with
  | none =>
      rw [hList] at hCompiled
      rw [← Except.ok.inj hCompiled] at hExt
      cases hExt
  | some list =>
      rw [hList] at hCompiled
      obtain ⟨⟨index, entry⟩, hEntry, hOk⟩ := mem_of_mapM_ok hCompiled hExt
      obtain ⟨⟨entries, position⟩, hEntries, hMem⟩ := List.mem_flatMap.mp hEntry
      obtain ⟨other, hOther, hPair⟩ := List.mem_map.mp hMem
      cases hPair
      refine ⟨list, rfl, entries, List.fst_mem_of_mem_zipIdx hEntries, entry, hOther, ?_⟩
      have hOk : env.compileExtension definition.use_ index entry = .ok ext := hOk
      rw [CompileEnv.compileExtension] at hOk
      obtain ⟨before, _, hOk⟩ := bind_eq_ok hOk
      obtain ⟨after, _, hOk⟩ := bind_eq_ok hOk
      cases hOk
      rfl

/-- Every text that a compiled workflow evaluates is one of its definition, the empty
text of a script without code and the arguments of the `http` function apart. -/
theorem WorkflowFrom.hasSource {definition : WorkflowDefinition} {wf : CompiledWorkflow}
    (from_ : WorkflowFrom env definition wf) {source : ExpressionSource} (has : wf.HasSource source) :
    definition.HasSource source ∨ source = .template "" ∨ source = .arguments := by
  cases has with
  | arguments => exact Or.inr (Or.inr rfl)
  | input hSource =>
      rw [from_.input, compileData_transform] at hSource
      exact Or.inl (.input hSource)
  | output hSource =>
      rw [from_.output, compileData_transform] at hSource
      exact Or.inl (.output hSource)
  | extension hExt hSource =>
      obtain ⟨list, hList, entries, hEntries, entry, hEntry, hWhen⟩ := from_.extensionWhen hExt
      exact Or.inl (.extension hList hEntries hEntry (hWhen.trans hSource))
  | task hTask hSource =>
      obtain ⟨tasks, nested, entry, hEntry, compiled⟩ := from_.task hTask
      rcases compiled.sources source hSource with hMem | hEmpty
      · exact Or.inl (.task nested hEntry hMem)
      · exact Or.inr (Or.inl hEmpty)

end Compiler

end OwsRuntime
