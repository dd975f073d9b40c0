import OwsRuntime.CompileSources
import OwsRuntime.Engine.Accuracy
import OwsRuntime.Properties.FlowTargets
import OwsRuntime.Registration

/-! Syntax errors at run time. Registration compiles the texts with a block in them. A
text without a block is compiled to itself under whatever key it stands, and is parsed
only when it is evaluated as an expression. -/
namespace OwsRuntime

open Async

/-- The value of a text in a runtime. The arguments of the `http` function are data. -/
def RuntimeInner.valueOf (env : RuntimeInner) (source : ExpressionSource) (input : Value)
    (vars : Map) : Except ExpressionError Value :=
  match source with
  | .expression text => env.evaluateSource text input vars
  | .template text => env.expression.evaluateInterpolation text input vars
  | .arguments => .ok .null

namespace JqEngine

variable (lang : ExpressionLanguage)

/-- A plain text is parsed when it is evaluated as an expression. -/
def parsePlain : Prepared lang.Expr → Except ExpressionError Unit
  | .plain text => (lang.parse text).map fun _ => ()
  | _ => .ok ()

/-- What the lexer and the parser make of a text when it is evaluated. The arguments of
the `http` function are data. -/
def parsing : ExpressionSource → Except ExpressionError Unit
  | .expression source => prepare lang source >>= parsePlain lang
  | .template source => (prepare lang source).map fun _ => ()
  | .arguments => .ok ()

variable {lang}

/-- What the parser makes of a plain text is what its evaluation as an expression begins with. -/
theorem evaluateValue_of_parsePlain {prepared : Prepared lang.Expr} {e : ExpressionError}
    (hPlain : parsePlain lang prepared = .error e) (input : Value) (vars : Map) :
    evaluateValue lang prepared input vars = .error e := by
  cases prepared with
  | expr parsed => cases hPlain
  | interp pieces => cases hPlain
  | plain text =>
      cases hParse : lang.parse text with
      | ok parsed =>
          rw [parsePlain, hParse] at hPlain
          cases hPlain
      | error found =>
          rw [parsePlain, hParse] at hPlain
          cases hPlain
          rw [evaluateValue, hParse]
          rfl

/-- A text with a syntax error cannot be evaluated, and fails with that error. -/
theorem valueOf_of_parsing {env : RuntimeInner} (hEngine : env.expression = engine lang)
    {source : ExpressionSource} {e : ExpressionError} (hParsing : parsing lang source = .error e)
    (input : Value) (vars : Map) : env.valueOf source input vars = .error e := by
  cases source with
  | arguments => cases hParsing
  | template text =>
      rw [RuntimeInner.valueOf, hEngine]
      show (prepare lang text >>= fun found => evaluateInterp lang found input vars) = _
      cases hPrepare : prepare lang text with
      | ok prepared =>
          rw [parsing, hPrepare] at hParsing
          cases hParsing
      | error found =>
          rw [parsing, hPrepare] at hParsing
          cases hParsing
          rfl
  | expression text =>
      rw [RuntimeInner.valueOf, RuntimeInner.evaluateSource, hEngine]
      show ((prepare lang text).map fun _ => (⟨text⟩ : CompiledExpression)) >>= _ = _
      cases hPrepare : prepare lang text with
      | error found =>
          rw [parsing, hPrepare] at hParsing
          cases hParsing
          rfl
      | ok prepared =>
          rw [parsing, hPrepare] at hParsing
          show (prepare lang text >>= fun found => evaluateValue lang found input vars) = _
          rw [hPrepare]
          exact evaluateValue_of_parsePlain hParsing input vars

theorem prepare_plain {source text : String} (hPrepare : prepare lang source = .ok (.plain text)) :
    text = source ∧ ¬ HasBlock source.toList := by
  have hSame : text = source := by
    rw [prepare] at hPrepare
    split at hPrepare
    · rename_i inner _
      cases hParse : lang.parse (String.ofList inner) <;>
        simp [hParse, Except.map] at hPrepare
    · split at hPrepare
      · cases hPieces : parseBlocks lang (trim source.toList) <;>
          simp [hPieces, Except.map] at hPrepare
      · cases hPrepare
        rfl
  rw [hSame] at hPrepare
  exact ⟨hSame, (prepare_eq_plain_iff lang).mp hPrepare⟩

/-- A text with a block that has been compiled has no syntax error. -/
theorem parsing_of_compiled {text : String} {compiled : CompiledExpression}
    (hCompile : (engine lang).compile text = .ok compiled) (hBlock : HasBlock text.toList) :
    parsing lang (.expression text) = .ok () ∧ parsing lang (.template text) = .ok () := by
  have hMap : (prepare lang text).map (fun _ => (⟨text⟩ : CompiledExpression)) = .ok compiled :=
    hCompile
  cases hPrepare : prepare lang text with
  | error e =>
      rw [hPrepare] at hMap
      cases hMap
  | ok prepared =>
      rw [parsing, parsing, hPrepare]
      cases prepared with
      | expr parsed => exact ⟨rfl, rfl⟩
      | interp pieces => exact ⟨rfl, rfl⟩
      | plain bare => exact absurd hBlock (prepare_plain hPrepare).2

/-- A text without a block is no template, and an expression if it parses. -/
theorem parsing_of_plain {text : String} (hPlain : ¬ HasBlock text.toList) :
    parsing lang (.template text) = .ok () ∧
      (parsing lang (.expression text) = .ok () ↔ ∃ parsed, lang.parse text = .ok parsed) := by
  have hPrepare := (prepare_eq_plain_iff lang).mpr hPlain
  rw [parsing, parsing, hPrepare]
  refine ⟨rfl, ?_⟩
  show (lang.parse text).map (fun _ => ()) = .ok () ↔ _
  cases lang.parse text with
  | error e => exact ⟨fun h => (by cases h), fun ⟨_, h⟩ => (by cases h)⟩
  | ok parsed => exact ⟨fun _ => ⟨parsed, rfl⟩, fun _ => rfl⟩

end JqEngine

open JqEngine (parsing HasBlock parsing_of_plain parsing_of_compiled valueOf_of_parsing)

section Registration

variable {lang : ExpressionLanguage} {env : RuntimeInner} {compileEnv : CompileEnv}
  {definition : WorkflowDefinition} {wf : CompiledWorkflow}

/-- The serialized definition shows the texts of the definition. -/
def Serialized (compileEnv : CompileEnv) (definition : WorkflowDefinition) : Prop :=
  ∀ text, definition.HasSource (.expression text) ∨ definition.HasSource (.template text) →
    text ∈ (compileEnv.definitionToValue definition).strings

/-- The evaluation of a text fails in the lexer or the parser. -/
def Misparses (env : RuntimeInner) (lang : ExpressionLanguage) (source : ExpressionSource)
    (input : Value) (vars : Map) : Prop :=
  ∃ e, parsing lang source = .error e ∧ env.valueOf source input vars = .error e

/-- An execution of the workflow, in some run, evaluates a text. -/
def RunEvaluates (env : RuntimeInner) (wf : CompiledWorkflow) (source : ExpressionSource)
    (input : Value) (vars : Map) : Prop :=
  ∃ e : Execution, e.Arises env ∧ e.workflow = wf ∧
    ∃ entry ∈ e.trace, entry.note = .evaluates source input vars

/-- No evaluation of a text, in any run, fails in the lexer or the parser. -/
def NeverMisparses (env : RuntimeInner) (lang : ExpressionLanguage) (wf : CompiledWorkflow) : Prop :=
  ∀ source input vars, RunEvaluates env wf source input vars → ¬ Misparses env lang source input vars

/-- Every expression field without the marks of a block parses, if some run evaluates it. -/
def EvaluatedFieldsParse (env : RuntimeInner) (lang : ExpressionLanguage)
    (definition : WorkflowDefinition) (wf : CompiledWorkflow) : Prop :=
  ∀ text, definition.HasSource (.expression text) → ¬ HasBlock text.toList →
    (∃ input vars, RunEvaluates env wf (.expression text) input vars) →
      ∃ parsed, lang.parse text = .ok parsed

/-- Registration has parsed the fields with a block in them. -/
theorem parsing_of_registered (registered : Registered env compileEnv definition wf)
    (hEngine : env.expression = JqEngine.engine lang) (serialized : Serialized compileEnv definition)
    {text : String} (has : definition.HasSource (.expression text) ∨
      definition.HasSource (.template text)) (hBlock : HasBlock text.toList) :
    parsing lang (.expression text) = .ok () ∧ parsing lang (.template text) = .ok () := by
  obtain ⟨compiled, hCompile⟩ := registered.expressions text (serialized text has) hBlock
  rw [hEngine] at hCompile
  exact parsing_of_compiled hCompile hBlock

/-- A run evaluates no other texts than the fields of the definition, and registration leaves
only the bare expressions among them to chance. -/
theorem EvaluatedFieldsParse.parsing_of_evaluates
    (fields : EvaluatedFieldsParse env lang definition wf)
    (registered : Registered env compileEnv definition wf)
    (hEngine : env.expression = JqEngine.engine lang) (serialized : Serialized compileEnv definition)
    {source : ExpressionSource} {input : Value} {vars : Map}
    (evaluates : RunEvaluates env wf source input vars) : parsing lang source = .ok () := by
  obtain ⟨e, arises, hWorkflow, entry, hEntry, hNote⟩ := id evaluates
  have accurate := arises.accurate entry hEntry
  rw [hNote, hWorkflow] at accurate
  rcases (compile_ok registered.compiled).hasSource accurate with has | rfl | rfl
  · cases source with
    | arguments => rfl
    | template text =>
        by_cases hBlock : HasBlock text.toList
        · exact (parsing_of_registered registered hEngine serialized (Or.inr has) hBlock).2
        · exact (parsing_of_plain hBlock).1
    | expression text =>
        by_cases hBlock : HasBlock text.toList
        · exact (parsing_of_registered registered hEngine serialized (Or.inl has) hBlock).1
        · exact (parsing_of_plain hBlock).2.mpr (fields text has hBlock ⟨input, vars, evaluates⟩)
  · exact (parsing_of_plain (by decide)).1
  · rfl

end Registration

/-! A small language, for examples. It has one expression, and its parser rejects every
other text as one that ends too early. -/
namespace Sample

def language : ExpressionLanguage :=
  { Expr := Unit
    parse := fun text =>
      if text = "." then .ok ()
      else .error ⟨"parse error at byte 2: unexpected end of expression", none⟩
    eval := fun _ input _ => .ok [input]
    toText := fun _ => "" }

def jqRuntime : RuntimeInner := { runtime with expression := JqEngine.engine language }

/-- A workflow of one task, with a guard. -/
def guarded (guard : String) : WorkflowDefinition :=
  definition [[("guarded", .set { fields none with if_ := some guard } (.map []))]]

/-- Definitions of that form are serialized as they are. -/
def guardedEnv (guard : String) : CompileEnv :=
  { compileEnv with
    definitionToValue := fun _ => .object
      [("do", .array [.object [("guarded", .object [("if", .string guard), ("set", .object [])])]]),
        ("document", .object [("dsl", .string "1.0.0"), ("name", .string "sample"),
          ("namespace", .string "default"), ("version", .string "1")])] }

theorem guarded_hasSource {guard : String} {source : ExpressionSource}
    (has : (guarded guard).HasSource source) : source = .expression guard := by
  cases has with
  | input hSource => cases hSource
  | output hSource => cases hSource
  | extension hList _ _ _ => cases hList
  | function hList _ _ => cases hList
  | task nested hEntry hSource =>
      have hFlat : ∀ entry ∈ scopeEntries (guarded guard).do_, entry.2.scopes = [] := by
        intro entry hEntry
        obtain rfl := List.mem_singleton.mp hEntry
        rfl
      obtain rfl := nested.eq_of_flat hFlat
      obtain rfl := List.mem_singleton.mp hEntry
      exact List.mem_singleton.mp hSource

theorem guarded_serialized (guard : String) : Serialized (guardedEnv guard) (guarded guard) := by
  intro text has
  have hText : text = guard := by
    rcases has with has | has
    · exact ExpressionSource.expression.inj (guarded_hasSource has)
    · cases guarded_hasSource has
  rw [hText]
  exact List.mem_append_left _ List.mem_cons_self

end Sample

/-- The texts that an execution has evaluated as expressions. -/
def Execution.expressions (e : Execution) : List String :=
  e.trace.filterMap fun entry => match entry.note with
    | .evaluates (.expression source) _ _ => some source
    | _ => none

/-- A text among them has been evaluated, on some input. -/
theorem Execution.Arises.evaluates {env : RuntimeInner} {e : Execution} (arises : e.Arises env)
    {source : String} (hMem : source ∈ e.expressions) :
    ∃ input vars, RunEvaluates env e.workflow (.expression source) input vars := by
  obtain ⟨entry, hEntry, hSome⟩ := List.mem_filterMap.mp hMem
  split at hSome
  · rename_i found input vars hNote
    cases hSome
    exact ⟨input, vars, e, arises, rfl, entry, hEntry, hNote⟩
  · cases hSome

end OwsRuntime
