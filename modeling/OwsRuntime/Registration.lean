import OwsRuntime.Compile
import OwsRuntime.Engine.Sources
import OwsRuntime.Expressions.Engine

/-! Registration of workflow definitions. A definition is validated, its expressions
are compiled as far as they are found in its serialized form, and its tasks are
compiled. -/
namespace OwsRuntime

/-- The keys whose values are taken for expressions. -/
def expressionKeys : List String :=
  ["if", "when", "while", "in", "as", "from", "exceptWhen", "until", "set"]

def isExpressionField (parentKey : Option String) : Bool :=
  match parentKey with
  | some key => expressionKeys.contains key
  | none => false

def invalidExpression (path : String) (e : ExpressionError) : WorkflowError :=
  .new .expression (((ProblemDetails.standard .expression).withDetail e.display).withInstance path)

/-- A key as a part of a JSON pointer. -/
def escapeKey (key : String) : String := (key.replace "~" "~0").replace "/" "~1"

mutual

/-- Compiles the strings of a serialized definition that look like expressions. -/
def validateExpressionValue (expression : ExpressionEngine) (path : String)
    (parentKey : Option String) : Value → Except WorkflowError Unit
  | .string source =>
      if isExpressionField parentKey ∨ JqEngine.HasBlock source.toList then do
        let _ ← (expression.compile source).mapError (invalidExpression path)
        return ()
      else .ok ()
  | .array items => validateExpressionItems expression path 0 items
  | .object entries => validateExpressionEntries expression path entries
  | _ => .ok ()

def validateExpressionItems (expression : ExpressionEngine) (path : String) :
    Nat → List Value → Except WorkflowError Unit
  | _, [] => .ok ()
  | index, item :: rest => do
      validateExpressionValue expression (path ++ "/" ++ toString index) none item
      validateExpressionItems expression path (index + 1) rest

def validateExpressionEntries (expression : ExpressionEngine) (path : String) :
    List (String × Value) → Except WorkflowError Unit
  | [] => .ok ()
  | (key, item) :: rest => do
      validateExpressionValue expression (path ++ "/" ++ escapeKey key) (some key) item
      validateExpressionEntries expression path rest

end

def validateExpressions (expression : ExpressionEngine) (definition : Value) :
    Except WorkflowError Unit := validateExpressionValue expression "" none definition

/-- Only the default expression language is supported. -/
def checkLanguage : Option EvaluateDefinition → Except WorkflowError Unit
  | some evaluate =>
      if evaluate.language ≠ "" ∧ evaluate.language ≠ "jq" then
        .error (semanticError ("runtime expression language `" ++ evaluate.language ++
          "` is not supported by this runtime"))
      else .ok ()
  | none => .ok ()

/-- `Runtime::register_definition`, up to the registry. -/
def registerDefinition (env : RuntimeInner) (compileEnv : CompileEnv)
    (definition : WorkflowDefinition) : Except WorkflowError CompiledWorkflow := do
  let issues := validate definition
  if !issues.isEmpty then throw (invalidDefinition issues)
  checkLanguage definition.evaluate
  validateExpressions env.expression (compileEnv.definitionToValue definition)
  compile compileEnv definition

section Accepted

variable {expression : ExpressionEngine} {path : String} {source : String}

mutual

/-- Every string with a block in it has been compiled, under whatever key it stands. -/
theorem compiled_of_validateExpressionValue : ∀ {value : Value} {path : String}
    {parentKey : Option String}, validateExpressionValue expression path parentKey value = .ok () →
      source ∈ value.strings → JqEngine.HasBlock source.toList →
        ∃ compiled, expression.compile source = .ok compiled
  | .string text, path, parentKey, hValid, hMem, hBlock => by
      rw [Value.strings, List.mem_singleton] at hMem
      subst hMem
      rw [validateExpressionValue, if_pos (Or.inr hBlock)] at hValid
      cases hCompile : expression.compile source with
      | ok compiled => exact ⟨compiled, rfl⟩
      | error e =>
          rw [hCompile] at hValid
          cases hValid
  | .array items, path, _, hValid, hMem, hBlock => by
      rw [validateExpressionValue] at hValid
      exact compiled_of_validateExpressionItems hValid hMem hBlock
  | .object entries, path, _, hValid, hMem, hBlock => by
      rw [validateExpressionValue] at hValid
      exact compiled_of_validateExpressionEntries hValid hMem hBlock
  | .null, _, _, _, hMem, _ => by cases hMem
  | .bool _, _, _, _, hMem, _ => by cases hMem
  | .number _, _, _, _, hMem, _ => by cases hMem

theorem compiled_of_validateExpressionItems : ∀ {items : List Value} {index : Nat} {path : String},
    validateExpressionItems expression path index items = .ok () →
      source ∈ Value.itemStrings items → JqEngine.HasBlock source.toList →
        ∃ compiled, expression.compile source = .ok compiled
  | [], _, _, _, hMem, _ => by cases hMem
  | item :: rest, index, path, hValid, hMem, hBlock => by
      rw [validateExpressionItems] at hValid
      obtain ⟨_, hFirst, hRest⟩ := bind_eq_ok hValid
      rcases List.mem_append.mp hMem with hHere | hThere
      · exact compiled_of_validateExpressionValue hFirst hHere hBlock
      · exact compiled_of_validateExpressionItems hRest hThere hBlock

theorem compiled_of_validateExpressionEntries : ∀ {entries : List (String × Value)} {path : String},
    validateExpressionEntries expression path entries = .ok () →
      source ∈ Value.entryStrings entries → JqEngine.HasBlock source.toList →
        ∃ compiled, expression.compile source = .ok compiled
  | [], _, _, hMem, _ => by cases hMem
  | (key, item) :: rest, path, hValid, hMem, hBlock => by
      rw [validateExpressionEntries] at hValid
      obtain ⟨_, hFirst, hRest⟩ := bind_eq_ok hValid
      rcases List.mem_append.mp hMem with hHere | hThere
      · exact compiled_of_validateExpressionValue hFirst hHere hBlock
      · exact compiled_of_validateExpressionEntries hRest hThere hBlock

end

/-- What registration has made sure of. -/
structure Registered (env : RuntimeInner) (compileEnv : CompileEnv)
    (definition : WorkflowDefinition) (wf : CompiledWorkflow) : Prop where
  compiled : compile compileEnv definition = .ok wf
  expressions : ∀ source ∈ (compileEnv.definitionToValue definition).strings,
    JqEngine.HasBlock source.toList → ∃ compiled, env.expression.compile source = .ok compiled

theorem registered_of_registerDefinition {env : RuntimeInner} {compileEnv : CompileEnv}
    {definition : WorkflowDefinition} {wf : CompiledWorkflow}
    (hRegister : registerDefinition env compileEnv definition = .ok wf) :
    Registered env compileEnv definition wf := by
  rw [registerDefinition] at hRegister
  split at hRegister
  · cases hRegister
  · obtain ⟨_, _, hRegister⟩ := bind_eq_ok hRegister
    obtain ⟨_, hExpressions, hCompile⟩ := bind_eq_ok hRegister
    exact ⟨hCompile, fun source hMem hBlock =>
      compiled_of_validateExpressionValue hExpressions hMem hBlock⟩

end Accepted

end OwsRuntime
