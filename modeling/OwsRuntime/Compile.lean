import OwsRuntime.Ir
import OwsRuntime.Dsl.Validate

/-! Compilation of workflow definitions. References to errors, retries and
timeouts are resolved against the reusable components. -/
namespace OwsRuntime

/-- What compilation uses of its surroundings: the serialization of definitions,
and the parser of ISO 8601 durations, with its result in nanoseconds. -/
structure CompileEnv where
  taskToValue : TaskDefinition → Value
  definitionToValue : WorkflowDefinition → Value
  parseIso8601Duration : String → Except String Nat

def Value.textOf : Value → Option String := Value.asStr

def compileSchema (s : SchemaDefinition) : SchemaDef :=
  { format := s.format, document := s.document, resource := s.resource }

/-- `compile_data`, `compile_output` and `compile_export`. -/
def compileData : Option DataModelDefinition → DataDef
  | none => DataDef.none
  | some d =>
      { schema := d.schema.map compileSchema, transform := d.transform.bind Value.textOf }

def compileFilter (f : EventFilterDefinition) : EventFilterDef :=
  { with_ := f.with_.getD []
    correlate := (f.correlate.getD []).map fun c => { from_ := c.2.from_, expect := c.2.expect } }

def compileListenTo (s : EventConsumption) : ListenTo :=
  match s.one, s.all, s.any with
  | some one, _, _ => .one (compileFilter one)
  | none, some all, _ => .all (all.map compileFilter)
  | none, none, some any => .any (any.map compileFilter)
  | none, none, none => .any []

def compileListenUntil : Option UntilDefinition → Option ListenUntil
  | none => none
  | some (.expression e) => some (.expression e)
  | some (.strategy s) =>
      match compileListenTo s with
      | .one f => some (.strategy [f])
      | .any fs => some (.strategy fs)
      | .all fs => some (.strategy fs)

def compileListen (listen : ListenDefinition) : ListenDef :=
  { to_ := compileListenTo listen.to_, read := listen.read
    until_ := compileListenUntil listen.until_ }

def compileRun (run : RunDefinition) : Except WorkflowError CompiledTaskKind := do
  let process ← match run.process with
    | some (.container image arguments environment stdin) =>
        pure (RunProcess.container image arguments environment stdin)
    | some (.script language code arguments environment stdin) =>
        pure (RunProcess.script language (code.getD "") arguments environment stdin)
    | some (.shell command arguments environment) =>
        pure (RunProcess.shell command arguments environment none)
    | some (.workflow namespace_ name version input) =>
        pure (RunProcess.workflow namespace_ name version input)
    | none => throw (semanticError "run task must define a process")
  pure (.run { process, await_ := run.await_.getD true, return_ := .stdout })

def compileSwitch (cases : List (List (String × SwitchCaseDefinition))) : CompiledTaskKind :=
  .switch ((cases.filterMap List.head?).map fun case =>
    { name := case.1, when := case.2.when, then_ := case.2.then_ })

def resolveRetry (components : Option ComponentDefinitionCollection) :
    Option RetryDefinition → Except WorkflowError (Option RetryPolicyDef)
  | none => .ok none
  | some (.retry policy) => .ok (some (compilePolicy policy))
  | some (.reference name) =>
      match (components.bind (·.retries)).bind (·.lookup name) with
      | none => .error (semanticError ("undefined retry policy `" ++ name ++ "`"))
      | some policy => .ok (some (compilePolicy policy))
where
  compilePolicy (policy : RetryPolicyDefinition) : RetryPolicyDef :=
    { when := policy.when
      exceptWhen := policy.exceptWhen
      delay := policy.delay.map (· * 1000000)
      backoff := match policy.backoff with
        | some .exponential => .exponential
        | some .linear => .linear
        | _ => .constant
      jitter := policy.jitter.map fun j => (j.1 * 1000000, j.2 * 1000000)
      attemptCount := policy.attemptCount
      attemptDuration := policy.attemptDuration.map (· * 1000000)
      retryDuration := policy.limitDuration.map (· * 1000000) }

namespace CompileEnv

variable (env : CompileEnv)

def resolveDuration : DurationDefinition → Except String Nat
  | .duration milliseconds => .ok (milliseconds * 1000000)
  | .iso8601Expression expression => env.parseIso8601Duration expression

def resolveTimeout (components : Option ComponentDefinitionCollection) :
    Option TimeoutDefinition → Except WorkflowError (Option Nat)
  | none => .ok none
  | some (.timeout after) => ((env.resolveDuration after).map some).mapError semanticError
  | some (.reference name) =>
      match (components.bind (·.timeouts)).bind (·.lookup name) with
      | none => .error (semanticError ("undefined timeout `" ++ name ++ "`"))
      | some after => ((env.resolveDuration after).map some).mapError semanticError

mutual

/-- Compiles the entries of a scope. `index` counts the ones before. -/
def compileEntries (components : Option ComponentDefinitionCollection) (base : String) :
    Nat → List (List (String × TaskDefinition)) → Except WorkflowError (List CompiledTask)
  | _, [] => .ok []
  | index, entry :: rest => do
      match ← compileEntry components base index entry with
      | none => compileEntries components base index rest
      | some task => return task :: (← compileEntries components base (index + 1) rest)

def compileEntry (components : Option ComponentDefinitionCollection) (base : String)
    (index : Nat) : List (String × TaskDefinition) → Except WorkflowError (Option CompiledTask)
  | [] => .ok none
  | (name, task) :: _ => do
      let reference := base ++ "/" ++ toString index ++ "/" ++ name
      let kind ← compileKind components reference task
      let timeout ← env.resolveTimeout components task.common.timeout
      return some
        { name, reference
          if_ := task.common.if_
          input := compileData task.common.input
          output := compileData task.common.output
          export_ := compileData task.common.export_
          timeout
          then_ := task.common.then_
          descriptor := env.taskToValue task
          kind }

def compileHandler (components : Option ComponentDefinitionCollection) (base : String) :
    Option (List (List (String × TaskDefinition))) →
      Except WorkflowError (Option (List CompiledTask))
  | none => .ok none
  | some tasks => return some (← compileEntries components base 0 tasks)

def compileKind (components : Option ComponentDefinitionCollection) (reference : String) :
    TaskDefinition → Except WorkflowError CompiledTaskKind
  | .set _ (.map entries) => .ok (.set (.map entries))
  | .set _ (.expression source) => .ok (.set (.expression source))
  | .do_ _ tasks => return .do_ (← compileEntries components (reference ++ "/do") 0 tasks)
  | .for_ _ loop while_ tasks =>
      return .for_ { each := loop.each, in_ := loop.in_, at_ := loop.at_, while_ }
        (← compileEntries components (reference ++ "/do") 0 tasks)
  | .fork _ branches compete =>
      return .fork (← compileEntries components (reference ++ "/fork/branches") 0 branches) compete
  | .switch _ cases => .ok (compileSwitch cases)
  | .try_ _ tasks catch_ handler => do
      let body ← compileEntries components (reference ++ "/try") 0 tasks
      let retry ← resolveRetry components catch_.retry
      let handler ← compileHandler components (reference ++ "/catch/do") handler
      return .try_ body
        { filter := catch_.with_, as_ := catch_.as_, when := catch_.when
          exceptWhen := catch_.exceptWhen, retry, then_ := none } handler
  | .emit _ event => .ok (.emit event)
  | .listen _ listen none _ => .ok (.listen (compileListen listen) none)
  | .listen _ listen (some foreach_) foreachDo => do
      let body ← compileHandler components (reference ++ "/foreach/do") foreachDo
      return .listen (compileListen listen)
        (some ({ item := foreach_.item.getD "item", at_ := foreach_.at_ }, body.getD []))
  | .raise _ (.error e) => .ok (.raise (.inline e))
  | .raise _ (.reference name) => .ok (.raise (.reference name))
  | .call _ call with_ => .ok (.call { call, with_ })
  | .run _ run => compileRun run
  | .wait _ duration =>
      match env.resolveDuration duration with
      | .ok nanos => .ok (.wait nanos)
      | .error message => .error (semanticError ("wait: " ++ message))

end

/-- Compiles an ordered scope of tasks. -/
def compileScope (tasks : TaskScope) (base : String)
    (components : Option ComponentDefinitionCollection) :
    Except WorkflowError (List CompiledTask) :=
  env.compileEntries components base 0 tasks

/-- The task list of an extension, with one entry for each task. -/
def taskListToMap (tasks : TaskScope) : TaskScope := tasks.flatMap fun entry => entry.map ([·])

/-- The scope before or after the extended tasks, if any. -/
def compileExtensionScope (components : Option ComponentDefinitionCollection) (base : String) :
    Option TaskScope → Except WorkflowError (List CompiledTask)
  | some tasks => env.compileScope (taskListToMap tasks) base components
  | none => .ok []

def compileExtension (components : Option ComponentDefinitionCollection) (index : Nat)
    (entry : String × ExtensionDefinition) : Except WorkflowError CompiledExtension := do
  let base := "/use/extensions/" ++ toString index ++ "/" ++ entry.1
  let before ← env.compileExtensionScope components (base ++ "/before") entry.2.before
  let after ← env.compileExtensionScope components (base ++ "/after") entry.2.after
  return { extend := entry.2.extend, when := entry.2.when, before, after }

/-- Compiles the extensions of the reusable components, in their order. -/
def compileExtensions (components : Option ComponentDefinitionCollection) :
    Except WorkflowError (List CompiledExtension) :=
  match components.bind (·.extensions) with
  | none => .ok []
  | some list =>
      (list.zipIdx.flatMap fun (entry, index) => entry.map fun ext => (index, ext)).mapM
        fun (index, ext) => env.compileExtension components index ext

end CompileEnv

/-- The names that follow `$secrets.` or stand in `$secrets['…']` in a text, as
the two patterns of the compiler find them. `fuel` bounds the text's length. -/
def secretRefs : Nat → List Char → List String
  | 0, _ => []
  | _ + 1, [] => []
  | fuel + 1, c :: rest =>
      match dotted (c :: rest) with
      | some (name, more) => name :: secretRefs fuel more
      | none => secretRefs fuel rest
where
  isNameChar (c : Char) : Bool :=
    ('A' ≤ c ∧ c ≤ 'Z') ∨ ('a' ≤ c ∧ c ≤ 'z') ∨ ('0' ≤ c ∧ c ≤ '9') ∨ c = '_' ∨ c = '-'
  dotted (text : List Char) : Option (String × List Char) :=
    if "$secrets.".toList.isPrefixOf text then
      let tail := text.drop 9
      let name := tail.takeWhile isNameChar
      if name.isEmpty then none else some (String.ofList name, tail.dropWhile isNameChar)
    else none

def bracketSecretRefs : Nat → List Char → List String
  | 0, _ => []
  | _ + 1, [] => []
  | fuel + 1, c :: rest =>
      match bracketed (c :: rest) with
      | some (name, more) => name :: bracketSecretRefs fuel more
      | none => bracketSecretRefs fuel rest
where
  isQuote (c : Char) : Bool := c = '"' ∨ c = '\''
  isSpace (c : Char) : Bool :=
    let n := c.toNat
    (9 ≤ n ∧ n ≤ 13) ∨ n ∈ [0x20, 0x85, 0xA0, 0x1680, 0x2028, 0x2029, 0x202F, 0x205F, 0x3000] ∨
      (0x2000 ≤ n ∧ n ≤ 0x200A)
  bracketed (text : List Char) : Option (String × List Char) :=
    if "$secrets[".toList.isPrefixOf text then
      match (text.drop 9).dropWhile isSpace with
      | q :: tail =>
          if isQuote q then
            let name := tail.takeWhile fun d => !isQuote d
            match (tail.dropWhile fun d => !isQuote d) with
            | _ :: close =>
                match close.dropWhile isSpace with
                | ']' :: more => if name.isEmpty then none else some (String.ofList name, more)
                | _ => none
            | [] => none
          else none
      | [] => none
    else none

mutual

/-- The secrets which a serialized definition refers to. -/
def collectSecretRefs : Value → List String
  | .string s => secretRefs (s.length + 1) s.toList ++ bracketSecretRefs (s.length + 1) s.toList
  | .array items => collectItemRefs items
  | .object entries => collectEntryRefs entries
  | _ => []

def collectItemRefs : List Value → List String
  | [] => []
  | item :: rest => collectSecretRefs item ++ collectItemRefs rest

def collectEntryRefs : List (String × Value) → List String
  | [] => []
  | (_, item) :: rest => collectSecretRefs item ++ collectEntryRefs rest

end

/-- Rejects references to secrets that are not declared. The least undeclared
name is reported, as the names are kept in an ordered set. -/
def enforceDeclaredSecrets (definition : Value) (declared : List String) :
    Except WorkflowError Unit :=
  match ((collectSecretRefs definition).filter (· ∉ declared)).mergeSort (· ≤ ·) with
  | [] => .ok ()
  | name :: _ => .error (semanticError ("reference to undeclared secret `" ++ name ++ "`"))

def ValidationIssue.display (issue : ValidationIssue) : String :=
  match issue.pointer with
  | some pointer => issue.code ++ " at " ++ pointer ++ ": " ++ issue.message
  | none => issue.code ++ ": " ++ issue.message

/-- The error with which compilation rejects a definition that has issues. -/
def invalidDefinition (issues : List ValidationIssue) : WorkflowError :=
  let error := validationError ("; ".intercalate (issues.map ValidationIssue.display))
  { error with problem := { error.problem with «instance» := issues.head?.bind (·.pointer) } }

/-- Compiles a workflow definition. -/
def compile (env : CompileEnv) (definition : WorkflowDefinition) :
    Except WorkflowError CompiledWorkflow := do
  let issues := validate definition
  if !issues.isEmpty then throw (invalidDefinition issues)
  let components := definition.use_
  let timeout ← env.resolveTimeout components definition.timeout
  let tasks ← env.compileScope definition.do_ "/do" components
  let extensions ← env.compileExtensions components
  let secrets := (components.bind (·.secrets)).getD []
  enforceDeclaredSecrets (env.definitionToValue definition) secrets
  return {
    id := ⟨definition.document.namespace_, definition.document.name, definition.document.version⟩
    definition := env.definitionToValue definition
    tasks
    input := compileData definition.input
    output := compileData definition.output
    timeout
    evaluate := match definition.evaluate with
      | some e => { language := e.language, mode := if e.mode = some "loose" then .loose else .strict }
      | none => { language := "jq", mode := .strict }
    secrets, components, extensions }

end OwsRuntime
