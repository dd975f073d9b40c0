import OwsRuntime.Async.Inversion
import OwsRuntime.Engine.EngineSound

/-! The executions that arise in runs of the runtime, and what the protocol says
of them. -/
namespace OwsRuntime

open Async Discipline

/-- The entry points which start executions. -/
inductive EntryPoint where
  | execute (wf : CompiledWorkflow) (input : Value)
  | resume (executionId : String)

def EntryPoint.program (env : RuntimeInner) (fuel : Nat) : EntryPoint → Run Value
  | execute wf input => OwsRuntime.execute env fuel wf input
  | resume executionId => OwsRuntime.resume env fuel executionId

/-- A storage outside of any execution. -/
def idle (wf : CompiledWorkflow) (w : World) : EngineState :=
  ⟨TaskLocal.initial, Execution.initial wf 0, w⟩

/-- An execution by itself, at its first suspension point. -/
def beginExecution (env : RuntimeInner) (fuel : Nat) (wf : CompiledWorkflow) (ctx : ExecContext)
    (rawInput : Value) (startedAt : Int) (resume : Option ResumeState) (w : World) :
    Config engineSig (Except WorkflowError Value) :=
  engine.advance (executeBody env (runner env fuel) fuel wf ctx rawInput startedAt resume).run
    ⟨TaskLocal.initial, Execution.fresh wf ctx.executionId (startIndex resume), w⟩

/-- The shared state of an execution, at some moment of some run: of an entry
point of the runtime, or of the execution by itself. -/
inductive Execution.Arises (env : RuntimeInner) : Execution → Prop where
  | within {entry : EntryPoint} {fuel : Nat} {wf : CompiledWorkflow} {w : World}
      {d : Config engineSig (Except WorkflowError Value)} {e : Execution}
      (reached : engine.Reaches (engine.advance (entry.program env fuel).run (idle wf w)) d)
      (hRegion : d.1.HasRegion e) : Arises env e
  | own {fuel : Nat} {wf : CompiledWorkflow} {ctx : ExecContext} {rawInput : Value}
      {startedAt : Int} {resume : Option ResumeState} {w : World}
      {d : Config engineSig (Except WorkflowError Value)}
      (reached : engine.Reaches
        (beginExecution env fuel wf ctx rawInput startedAt resume w) d) : Arises env d.2.shared
  | nested {fuel : Nat} {wf : CompiledWorkflow} {ctx : ExecContext} {rawInput : Value}
      {startedAt : Int} {resume : Option ResumeState} {w : World}
      {d : Config engineSig (Except WorkflowError Value)} {e : Execution}
      (reached : engine.Reaches
        (beginExecution env fuel wf ctx rawInput startedAt resume w) d)
      (hRegion : d.1.HasRegion e) : Arises env e

theorem EntryPoint.sound (env : RuntimeInner) (fuel : Nat) (entry : EntryPoint) {σ : EngineState} :
    Sound σ (entry.program env fuel) := by
  cases entry with
  | execute wf input => exact execute_sound env fuel wf input
  | resume executionId => exact resume_sound env fuel executionId

/-- A sound program keeps the protocol in every run. -/
theorem Sound.reaches {α : Type} {p : Run α} {σ : EngineState} (good : protocol.Good σ)
    (sound : Sound σ p) {d : Config engineSig (Except WorkflowError α)}
    (reached : engine.Reaches (engine.advance p.run σ) d) :
    protocol.Keeps (fun _ _ => True) d ∧ protocol.Moved σ d.2 := by
  have hSafe : protocol.Safe p.run (fun _ _ => True) σ :=
    (sound σ (Moved.refl good.inv) good).mono fun _ _ _ => trivial
  obtain ⟨keeps, moved⟩ := hSafe.advance good
  obtain ⟨hKeeps, hMoved⟩ := keeps.reaches (fun _ _ _ _ _ => trivial) reached
  exact ⟨hKeeps, moved.trans hMoved⟩

theorem beginExecution_reaches {env : RuntimeInner} {fuel : Nat} {wf : CompiledWorkflow}
    {ctx : ExecContext} {rawInput : Value} {startedAt : Int} {resume : Option ResumeState}
    {w : World} {d : Config engineSig (Except WorkflowError Value)}
    (reached : engine.Reaches (beginExecution env fuel wf ctx rawInput startedAt resume w) d) :
    protocol.Keeps (fun _ _ => True) d ∧
      (Execution.fresh wf ctx.executionId (startIndex resume)).Grows d.2.shared := by
  have hSound : Sound
      ⟨TaskLocal.initial, Execution.fresh wf ctx.executionId (startIndex resume), w⟩
      (executeBody env (runner env fuel) fuel wf ctx rawInput startedAt resume) :=
    executeBody_sound (runner_sound env fuel) rfl rawInput startedAt fuel rfl
  obtain ⟨keeps, moved⟩ := hSound.reaches (fresh_good _ _ _ _) reached
  exact ⟨keeps, moved.shared⟩

/-- Every execution of every run is what its trace says, and its trace is accounted for. -/
theorem Execution.Arises.faithful {env : RuntimeInner} {e : Execution} (arises : e.Arises env) :
    e.Faithful := by
  have hRegions : ∀ {d : Config engineSig (Except WorkflowError Value)},
      protocol.Keeps (fun _ _ => True) d → d.1.HasRegion e → e.Faithful :=
    fun keeps hRegion => (Safe.regions keeps.good keeps.safe).of_hasRegion hRegion
  cases arises with
  | within reached hRegion =>
      exact hRegions ((EntryPoint.sound env _ _).reaches (initial_good _ _ _) reached).1 hRegion
  | own reached => exact (beginExecution_reaches reached).1.good.inv
  | nested reached hRegion => exact hRegions (beginExecution_reaches reached).1 hRegion

/-! A small runtime, for examples. Its expressions are literals, `.` and the
variables of an expression. -/
namespace Sample

def evaluate (source : String) (input : Value) (vars : Map) : Except ExpressionError Value :=
  if source = "." then .ok input
  else if source = "true" then .ok (.bool true)
  else if source = "false" then .ok (.bool false)
  else if source = "$context" then .ok ((vars.lookup "context").getD .null)
  else if source = "$input" then .ok ((vars.lookup "input").getD .null)
  else .error ⟨"unknown expression", some source⟩

def expression : ExpressionEngine :=
  { compile := fun source => .ok ⟨source⟩
    evaluate := fun compiled => evaluate compiled.source
    isExpression := fun _ => false
    evaluateInterpolation := fun s _ _ => .ok (.string s) }

def runtime : RuntimeInner :=
  { expression, validator := none, policy := RuntimePolicy.default, runtimeInfo := .null
    functions := [], secrets := fun _ => none, isoTime := fun _ => "1970-01-01T00:00:00Z"
    formatFloat := fun _ => "", parseUrl := fun _ => .error "", parseJson := fun _ => none
    parseUtf8 := fun _ => none, encodeBase64 := fun _ => "", toUppercase := id
    isHttpMethod := fun _ => false, joinError := fun _ => "" }

def oracle : Oracle :=
  { invoke := fun _ _ => .ok .null, send := fun _ => .error "", process := fun _ => .error (runtimeError "")
    publish := fun _ => .ok (), subscribe := .ok (), event := none, timerReady := true
    notifiedFirst := false, store := .ok (), jitter := fun _ => 0 }

def world : World :=
  { cancelled := false, notifications := 0, store := ⟨[], []⟩, journal := [], published := []
    workflows := []
    clock := 0, uuid := fun _ => "id", uuids := 0, oracle }

def task (name : String) (then_ : Option String) (kind : CompiledTaskKind) : CompiledTask :=
  { name, reference := name, if_ := none, input := DataDef.none, output := DataDef.none
    export_ := DataDef.none, timeout := none, then_, descriptor := .null, kind }

def workflow (tasks : List CompiledTask) (extensions : List CompiledExtension) :
    CompiledWorkflow :=
  { id := ⟨"default", "sample", "1"⟩, definition := .null, tasks, input := DataDef.none
    output := DataDef.none, timeout := none, evaluate := ⟨"jq", .strict⟩, secrets := []
    components := none, extensions }

/-- An execution of a sample workflow, at its first suspension point. -/
def begin_ (wf : CompiledWorkflow) (input : Value) :
    Config engineSig (Except WorkflowError Value) :=
  beginExecution runtime 8 wf (executionContext runtime wf "id" input 0) input 0 none world

/-- What can be computed of the shared state at the end of a run holds of an
execution that arises. -/
theorem arises_of_run {wf : CompiledWorkflow} {input : Value} {choices : List engine.Choice}
    {β : Type} {f : Execution → β} {b : β}
    (hRun : (engine.run (begin_ wf input) choices).map (fun d => f d.2.shared) = some b) :
    ∃ e : Execution, e.Arises runtime ∧ (e.workflow = wf ∧ e.start = 0) ∧ f e = b := by
  obtain ⟨d, hReached, hValue⟩ := Option.map_eq_some_iff.mp hRun
  have hGrows := (beginExecution_reaches ⟨choices, hReached⟩).2
  exact ⟨d.2.shared, .own ⟨choices, hReached⟩, ⟨hGrows.workflow, hGrows.start⟩, hValue⟩

/-- A generator that never repeats an id. -/
def uuid (k : Nat) : String := String.ofList (List.replicate k 'i')

theorem uuid_injective : Function.Injective uuid := by
  intro j k hSame
  have hLists := congrArg String.toList hSame
  simpa [uuid] using congrArg List.length hLists

/-- A world with such a generator. -/
def fresh : World := { world with uuid }

/-- A run of a workflow that is started there. -/
def executed (wf : CompiledWorkflow) : Config engineSig (Except WorkflowError Value) :=
  engine.advance (execute runtime 8 wf .null).run (idle wf fresh)

def succeeded (outcome : Except WorkflowError Value) (_ : EngineState) : Bool := outcome.toBool

/-- A choice within the execution of a run whose workflow has no timeout. -/
def inside : engine.Choice := .turn (.inner (.inner (.inner .here)))

/-- What can be computed at the end of a run that returns holds of its result. -/
theorem follows_of_run {allowed : engine.Choice → Prop}
    {c : Config engineSig (Except WorkflowError Value)} {choices : List engine.Choice} {β : Type}
    {f : Except WorkflowError Value → EngineState → β} {b : β}
    (hAllowed : ∀ choice ∈ choices, allowed choice)
    (hRun : (engine.run c choices).bind (fun d => d.1.value?.map (f · d.2)) = some b) :
    ∃ outcome τ, Handler.Follows allowed c (Program.done outcome, τ) ∧ f outcome τ = b := by
  obtain ⟨⟨p, τ⟩, hReached, hSome⟩ := Option.bind_eq_some_iff.mp hRun
  obtain ⟨outcome, hValue, hResult⟩ := Option.map_eq_some_iff.mp hSome
  cases Program.eq_done_of_value? hValue
  exact ⟨outcome, τ, ⟨choices, hAllowed, hReached⟩, hResult⟩

theorem finishes_of_run {c : Config engineSig (Except WorkflowError Value)}
    {choices : List engine.Choice} {β : Type} {f : Except WorkflowError Value → EngineState → β}
    {b : β} (hRun : (engine.run c choices).bind (fun d => d.1.value?.map (f · d.2)) = some b) :
    ∃ outcome τ, engine.Finishes c outcome τ ∧ f outcome τ = b := by
  obtain ⟨outcome, τ, follows, hResult⟩ := follows_of_run (fun _ _ => trivial) hRun
  exact ⟨outcome, τ, Handler.Follows.reaches follows, hResult⟩

end Sample

end OwsRuntime
