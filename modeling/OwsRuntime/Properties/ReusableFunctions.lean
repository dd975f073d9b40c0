import OwsRuntime.Engine.Agreement
import OwsRuntime.Properties.CallEvaluation

/-! Calls of reusable functions. A call of one would be a call of the registered function
behind it, with the arguments of every function on the way there as defaults. -/
namespace OwsRuntime

open Async
open Async.Handler (InStep)

/-- What a call hands over: a registered function and its request. -/
abbrev Handover := FunctionInvoker × FunctionRequest

/-- The error of a reusable function whose own function is not registered. -/
def unknownReference (name call : String) : WorkflowError :=
  semanticError ("reusable function `" ++ name ++ "` references unknown function `" ++ call ++ "`")

/-- What a call task comes to, before any function runs. -/
def RuntimeInner.called (env : RuntimeInner) (wf : CompiledWorkflow) (def_ : CallDef)
    (ctx : ExpressionContext) : Except WorkflowError Handover := do
  let args ← env.evaluateArgs ctx (def_.with_.getD [])
  match env.functions.lookup def_.call with
  | some invoker => return (invoker, { name := def_.call, args, context := ctx })
  | none =>
      match resolveFunction wf def_.call with
      | some (call, with_) =>
          match env.functions.lookup call with
          | some invoker =>
              return (invoker, { name := call, args := Map.extend (with_.getD []) args, context := ctx })
          | none => throw (unknownReference def_.call call)
      | none => throw (semanticError ("unknown function `" ++ def_.call ++ "`"))

/-- Runs the function that a call has handed over to. -/
def handOver (env : RuntimeInner) : Except WorkflowError Handover → Run Value
  | .ok (invoker, request) => invokeFunction env invoker request
  | .error e => throw e

/-- A name, the registered function behind it, and the arguments of the reusable functions
in between, the nearest one first. -/
inductive Underlying (env : RuntimeInner) (wf : CompiledWorkflow) :
    String → String → List Map → Prop where
  | registered {name : String} (hFunction : (env.functions.lookup name).isSome) :
      Underlying env wf name name []
  | reusable {name call target : String} {with_ : Option Map} {layers : List Map}
      (hNone : env.functions.lookup name = none)
      (hReusable : resolveFunction wf name = some (call, with_))
      (rest : Underlying env wf call target layers) :
      Underlying env wf name target (with_.getD [] :: layers)

/-- The arguments of a call, with defaults from every function behind it. -/
def overrideLayers : List Map → Map → Map
  | [], args => args
  | layer :: rest, args => overrideLayers rest (Map.extend layer args)

/-- The strings of all the arguments, evaluated in the context of the caller. -/
def RuntimeInner.evaluateLayers (env : RuntimeInner) (ctx : ExpressionContext) :
    List Map → Except WorkflowError (List Map)
  | [] => .ok []
  | layer :: rest => return (← env.evaluateArgs ctx layer) :: (← evaluateLayers env ctx rest)

/-- The call of a registered function with these arguments and defaults. -/
def RuntimeInner.inlined (env : RuntimeInner) (target : String) (layers : List Map)
    (with_ : Option Map) (ctx : ExpressionContext) : Except WorkflowError Handover := do
  let args ← env.evaluateArgs ctx (with_.getD [])
  let defaults ← env.evaluateLayers ctx layers
  match env.functions.lookup target with
  | some invoker =>
      return (invoker, { name := target, args := overrideLayers defaults args, context := ctx })
  | none => throw (semanticError ("unknown function `" ++ target ++ "`"))

variable {env : RuntimeInner} {wf : CompiledWorkflow} {ctx : ExpressionContext} {def_ : CallDef}
  {target : String} {layers : List Map}

/-- Within its first turn, a call has come to a function or has failed. -/
theorem advance_taskCall (env : RuntimeInner) (wf : CompiledWorkflow) (def_ : CallDef)
    (ctx : ExpressionContext) (σ : EngineState) :
    ∃ τ, σ.Noted τ ∧ engine.advance (taskCall env wf def_ ctx).run σ =
      engine.advance (handOver env (env.called wf def_ ctx)).run τ := by
  obtain ⟨τ, hNoted, hArgs⟩ := advance_interpolateEntries env ctx σ (def_.with_.getD [])
  rw [taskCall, interpolateMap, RuntimeInner.called]
  cases hOwn : env.evaluateArgs ctx (def_.with_.getD []) with
  | error e =>
      rw [hOwn] at hArgs
      exact ⟨τ, hNoted, Handler.advance_bind_of_error hArgs⟩
  | ok args =>
      rw [hOwn] at hArgs
      rw [Handler.advance_bind_of_ok hArgs]
      cases hDirect : env.functions.lookup def_.call with
      | some invoker => exact ⟨τ, hNoted, rfl⟩
      | none =>
          cases hReusable : resolveFunction wf def_.call with
          | none => exact ⟨_, hNoted.trans (EngineState.noted_note _ _), rfl⟩
          | some function =>
              obtain ⟨call, with_⟩ := function
              cases hInvoker : env.functions.lookup call with
              | some invoker => exact ⟨τ, hNoted, by simp [hInvoker]; rfl⟩
              | none =>
                  exact ⟨_, hNoted.trans (EngineState.noted_note _ (.unresolved call)),
                    by simp [hInvoker]; rfl⟩

/-- At the end of its layers, a function name has an invoker. -/
theorem Underlying.lookup {name : String} (underlying : Underlying env wf name target layers) :
    ∃ invoker, env.functions.lookup target = some invoker := by
  induction underlying with
  | registered hFunction => exact Option.isSome_iff_exists.mp hFunction
  | reusable _ _ _ ih => exact ih

section Plans

/-- What a function makes of the answer to its request, or why it does not come to ask. -/
def RuntimeInner.answer (env : RuntimeInner) (invoker : FunctionInvoker) (req : FunctionRequest) :
    Plan :=
  match invoker with
  | .other id => .ok fun o => o.invoke id req
  | .http => (env.httpRequest req).map fun sent o => env.httpResult req.args sent (o.send sent)

/-- What a call that has handed over comes to. -/
def RuntimeInner.planOf (env : RuntimeInner) (handed : Except WorkflowError Handover) : Plan :=
  handed.bind fun handed => env.answer handed.1 handed.2

/-- An invocation comes to what its invoker plans for the request: a failure, a value, or one
request to the world and what is made of its answer. -/
theorem invokeFunction_comesTo (invoker : FunctionInvoker) (req : FunctionRequest)
    (σ : EngineState) :
    ComesTo σ (engine.advance (invokeFunction env invoker req).run σ) (env.answer invoker req) := by
  cases invoker with
  | other id =>
      refine .asking ⟨rfl, fun _ => rfl, fun _ move hSome => ?_⟩ (.refl σ)
      cases move with
      | here => rfl
      | _ => cases hSome
  | http =>
      unfold invokeFunction RuntimeInner.answer
      cases env.httpRequest req with
      | error e => exact .failed e (.note σ _)
      | ok sent =>
          refine .asking ⟨rfl, fun _ => rfl, fun _ move hSome => ?_⟩ (.note σ _)
          cases move with
          | here => rfl
          | _ => cases hSome

/-- What has been handed over is invoked, and a failure before that is the failure of the call. -/
theorem handOver_comesTo (handed : Except WorkflowError Handover) (σ : EngineState) :
    ComesTo σ (engine.advance (handOver env handed).run σ) (env.planOf handed) := by
  cases handed with
  | error e => exact .failed e (.refl σ)
  | ok handed => exact invokeFunction_comesTo handed.1 handed.2 σ

/-- So a call task comes to the plan of what the call hands over, whatever the state is. -/
theorem taskCall_comesTo (env : RuntimeInner) (wf : CompiledWorkflow) (def_ : CallDef)
    (ctx : ExpressionContext) (σ : EngineState) :
    ComesTo σ (engine.advance (taskCall env wf def_ ctx).run σ)
      (env.planOf (env.called wf def_ ctx)) := by
  obtain ⟨τ, noted, hTurn⟩ := advance_taskCall env wf def_ ctx σ
  rw [hTurn]
  exact (handOver_comesTo _ τ).of_same (.of_noted noted)

end Plans

/-- The call goes in step with a call of the function behind it, choice by choice: they fail
alike, or both ask and return the same, and their effects are the same. -/
def CallsAlike (behaves : Oracle → Prop) (env : RuntimeInner) (wf : CompiledWorkflow)
    (ctx : ExpressionContext) (def_ : CallDef) (target : String) (layers : List Map)
    (σ : EngineState) : Prop :=
  InStep (repliesWith behaves) id OutcomesAgree (engine.advance (taskCall env wf def_ ctx).run σ)
    (engine.advance (handOver env (env.inlined target layers def_.with_ ctx)).run σ)

/-- A relation between two requests to a registered function. -/
abbrev RequestRelation := FunctionInvoker → FunctionRequest → FunctionRequest → Prop

/-- When a call is that of the function behind it: its own arguments cannot be evaluated, it
names a registered function, or the reusable function does. The arguments of the reusable
function, as they stand and evaluated, are the same then to the registered one, or it fails on
them as their evaluation does. -/
inductive Inlines (Same : RequestRelation) (env : RuntimeInner) (wf : CompiledWorkflow)
    (ctx : ExpressionContext) (def_ : CallDef) : Prop where
  | failed {e : WorkflowError} (hArgs : env.evaluateArgs ctx (def_.with_.getD []) = .error e)
  | registered (hFunction : (env.functions.lookup def_.call).isSome)
  | alike {args evaluated : Map} {call : String} {with_ : Option Map} {invoker : FunctionInvoker}
      (hArgs : env.evaluateArgs ctx (def_.with_.getD []) = .ok args)
      (hReusable : resolveFunction wf def_.call = some (call, with_))
      (hFunction : env.functions.lookup call = some invoker)
      (hWith : env.evaluateArgs ctx (with_.getD []) = .ok evaluated)
      (hSame : Same invoker
        { name := call, args := Map.extend (with_.getD []) args, context := ctx }
        { name := call, args := Map.extend evaluated args, context := ctx })
  | refused {args : Map} {call : String} {with_ : Option Map} {invoker : FunctionInvoker}
      {e : WorkflowError} (hArgs : env.evaluateArgs ctx (def_.with_.getD []) = .ok args)
      (hReusable : resolveFunction wf def_.call = some (call, with_))
      (hFunction : env.functions.lookup call = some invoker)
      (hWith : env.evaluateArgs ctx (with_.getD []) = .error e)
      (hAnswer : env.answer invoker
        { name := call, args := Map.extend (with_.getD []) args, context := ctx } = .error e)

/-- A registered function makes the same of two requests, whatever it may be answered. -/
def SameAnswers (env : RuntimeInner) (may : Oracle → Prop) : RequestRelation :=
  fun invoker req other => (env.answer invoker req).Alike may (env.answer invoker other)

section Errors

variable {e : WorkflowError}

/-- When two steps fail, the first has failed or, after it, the second. -/
theorem bind_error {α β : Type} {x : Except WorkflowError α} {f : α → Except WorkflowError β}
    (hError : (x >>= f) = .error e) : x = .error e ∨ ∃ a, x = .ok a ∧ f a = .error e := by
  cases x with
  | error other =>
      cases hError
      exact Or.inl rfl
  | ok a => exact Or.inr ⟨a, rfl, hError⟩

/-- A text of the arguments fails with an expression error alone. -/
theorem resolveLeaf_error_kind {value : Value} (hError : env.resolveLeaf ctx value = .error e) :
    e.kind = .expression := by
  cases value with
  | string s =>
      rw [RuntimeInner.resolveLeaf, RuntimeInner.interpolate] at hError
      cases hText : env.expression.evaluateInterpolation s ctx.input ctx.asVariableMap <;>
        rw [hText] at hError <;> cases hError
      rfl
  | _ => cases hError

/-- Arguments that cannot be evaluated fail as expressions do. -/
theorem evaluateArgs_error_kind {own : Map} (hError : env.evaluateArgs ctx own = .error e) :
    e.kind = .expression := by
  induction own with
  | nil => cases hError
  | cons entry rest ih =>
      obtain ⟨k, v⟩ := entry
      rcases bind_error hError with hLeaf | ⟨value, _, hTail⟩
      · exact resolveLeaf_error_kind hLeaf
      rcases bind_error hTail with hRest | ⟨args, _, hDone⟩
      · exact ih hRest
      · cases hDone

/-- So do the arguments that a reusable function adds. -/
theorem evaluateLayers_error_kind (hError : env.evaluateLayers ctx layers = .error e) :
    e.kind = .expression := by
  induction layers with
  | nil => cases hError
  | cons layer rest ih =>
      rcases bind_error hError with hLayer | ⟨evaluated, _, hTail⟩
      · exact evaluateArgs_error_kind hLayer
      rcases bind_error hTail with hRest | ⟨more, _, hDone⟩
      · exact ih hRest
      · cases hDone

end Errors

section Apart

/-- Fails otherwise than the call of a reusable function that leads to no registered one. -/
def Apart {α : Type} (x : Except WorkflowError α) : Prop :=
  ∀ name call, x ≠ .error (unknownReference name call)

variable {α β : Type}

/-- A success is apart from every failure. -/
theorem Apart.ok (a : α) : Apart (.ok a : Except WorkflowError α) := by
  intro name call hError
  cases hError

/-- Two steps that fail with none of these errors do so together. -/
theorem Apart.bind {x : Except WorkflowError α} {f : α → Except WorkflowError β} (first : Apart x)
    (rest : ∀ a, Apart (f a)) : Apart (x >>= f) := by
  intro name call hError
  rcases bind_error hError with hFirst | ⟨a, _, hRest⟩
  · exact first name call hFirst
  · exact rest a name call hRest

/-- What is made of a result fails with the same errors. -/
theorem Apart.map {x : Except WorkflowError α} (f : α → β) (apart : Apart x) : Apart (x.map f) := by
  cases x with
  | error e => exact fun name call hError => apart name call (congrArg Except.error (Except.error.inj hError))
  | ok a => exact .ok _

/-- An error of another kind. -/
theorem Apart.of_kind {x : Except WorkflowError α}
    (hKind : ∀ e, x = .error e → e.kind ≠ .semantic) : Apart x :=
  fun _ _ hError => hKind _ hError rfl

/-- An error with another text. -/
theorem Apart.of_text {text : String} (hText : text.toList.head? ≠ some 'r') :
    Apart (.error (semanticError text) : Except WorkflowError α) := by
  intro name call hError
  have hDetail := congrArg (·.problem.detail) (Except.error.inj hError)
  refine hText ?_
  rw [Option.some.inj hDetail]
  simp [String.toList_append]

end Apart

section Requests

/-- A text that an invoker resolves again fails with the error of its own expression, -/
theorem resolveLeaf_apart (value : Value) : Apart (env.resolveLeaf ctx value) :=
  .of_kind fun _ hError hKind => by cases hKind.symm.trans (resolveLeaf_error_kind hError)

/-- and so do the fields of a map, -/
theorem resolveFields_apart (fields : Map) : Apart (env.resolveFields ctx fields) := by
  induction fields with
  | nil => exact .ok []
  | cons entry rest ih =>
      exact (resolveLeaf_apart entry.2).bind fun resolved => ih.bind fun more => .ok _

/-- the headers of a request, -/
theorem resolveHeaders_apart (headers : Option Value) : Apart (env.resolveHeaders ctx headers) := by
  unfold RuntimeInner.resolveHeaders
  split
  · exact resolveFields_apart _
  · exact .ok []

/-- its query, -/
theorem resolveQuery_apart (query : Option Value) : Apart (env.resolveQuery ctx query) := by
  unfold RuntimeInner.resolveQuery
  split
  · exact (resolveFields_apart _).map _
  · exact .ok none

mutual

/-- a value of its body, at any depth, -/
theorem resolveValue_apart (value : Value) : Apart (env.resolveValue ctx value) := by
  cases value with
  | object entries => exact (resolveEntries_apart entries).map _
  | array items => exact (resolveItems_apart items).map _
  | string s => exact @resolveLeaf_apart env ctx (.string s)
  | _ => exact .ok _

/-- the items of an array in it, -/
theorem resolveItems_apart (items : List Value) : Apart (env.resolveItems ctx items) := by
  cases items with
  | nil => exact .ok []
  | cons item rest =>
      exact (resolveValue_apart item).bind fun _ => (resolveItems_apart rest).bind fun _ => .ok _

/-- the entries of an object, -/
theorem resolveEntries_apart (entries : List (String × Value)) :
    Apart (env.resolveEntries ctx entries) := by
  cases entries with
  | nil => exact .ok []
  | cons entry rest =>
      exact (resolveValue_apart entry.2).bind fun _ => (resolveEntries_apart rest).bind fun _ => .ok _

end

/-- and a text that may be absent. -/
theorem resolveOptionalStr_apart (value : Option Value) :
    Apart (env.resolveOptionalStr ctx value) := by
  cases value with
  | none => exact .ok ""
  | some value => exact (resolveLeaf_apart value).map _

/-- The authentication of a request resolves its own texts. -/
theorem applyAuth_apart (auth : Option Value) (headers : List (String × String)) :
    Apart (env.applyAuth ctx auth headers) := by
  unfold RuntimeInner.applyAuth
  split
  · exact (resolveOptionalStr_apart _).bind fun _ => (resolveOptionalStr_apart _).bind fun _ => .ok _
  · exact (resolveOptionalStr_apart _).bind fun _ => .ok _
  · exact .ok headers

/-- So does the endpoint. -/
theorem resolveEndpoint_apart (endpoint : Value) : Apart (env.resolveEndpoint ctx endpoint) := by
  have hParts : Apart (RuntimeInner.endpointParts endpoint) := by
    unfold RuntimeInner.endpointParts
    split
    · exact .ok _
    · split
      · exact .ok _
      · exact .of_text (by simp)
    · exact .of_text (by simp)
  refine hParts.bind fun parts => Apart.bind ?_ fun uri => .ok _
  exact (resolveLeaf_apart (.string parts.1)).bind fun interpolated => .ok _

/-- A request that the policy forbids has its own kind of error. -/
theorem enforceNetworkPolicy_apart (uri : String) : Apart (env.enforceNetworkPolicy uri) := by
  unfold RuntimeInner.enforceNetworkPolicy
  split
  · exact .of_text (by simp [String.toList_append])
  · split
    · exact .of_kind (by rintro e ⟨⟩ ⟨⟩)
    · split
      · exact .of_kind (by rintro e ⟨⟩ ⟨⟩)
      · exact .ok ()

/-- The bundled function never fails as a call does that leads nowhere. -/
theorem httpRequest_apart (req : FunctionRequest) : Apart (env.httpRequest req) := by
  have hMethod : Apart (env.methodArg req.args) := by
    unfold RuntimeInner.methodArg
    split
    · exact .ok _
    · exact .of_text (by simp)
  have hEndpoint : Apart (RuntimeInner.endpointArg req.args) := by
    unfold RuntimeInner.endpointArg
    split
    · exact .ok _
    · exact .of_text (by simp)
  refine hMethod.bind fun method => hEndpoint.bind fun endpoint =>
    (resolveEndpoint_apart endpoint).bind fun target =>
      (enforceNetworkPolicy_apart target.1).bind fun _ =>
        (resolveHeaders_apart _).bind fun headers => (applyAuth_apart _ headers).bind fun _ =>
          Apart.bind ?_ fun _ => (resolveQuery_apart _).bind fun _ => .ok _
  cases req.args.lookup "body" with
  | none => exact .ok none
  | some body => exact (resolveValue_apart body).map _

/-- No invoker fails with the error for an unknown function, which only the call itself raises. -/
theorem answer_apart (invoker : FunctionInvoker) (req : FunctionRequest) :
    Apart (env.answer invoker req) := by
  cases invoker with
  | other id => exact .ok _
  | http => exact (httpRequest_apart req).map _

end Requests

section Cases

variable {args : Map} {call : String} {with_ : Option Map} {invoker : FunctionInvoker}

/-- A call of a registered function hands its evaluated arguments to that invoker. -/
theorem called_of_registered (hArgs : env.evaluateArgs ctx (def_.with_.getD []) = .ok args)
    (hFunction : env.functions.lookup def_.call = some invoker) :
    env.called wf def_ ctx = .ok (invoker, { name := def_.call, args, context := ctx }) := by
  simp only [RuntimeInner.called, hArgs, hFunction]
  rfl

/-- A call of a reusable function evaluates the arguments of the function once more, and lays them
over those of the call. -/
theorem called_of_reusable (hArgs : env.evaluateArgs ctx (def_.with_.getD []) = .ok args)
    (hNone : env.functions.lookup def_.call = none)
    (hReusable : resolveFunction wf def_.call = some (call, with_))
    (hFunction : env.functions.lookup call = some invoker) :
    env.called wf def_ ctx =
      .ok (invoker, { name := call, args := Map.extend (with_.getD []) args, context := ctx }) := by
  simp only [RuntimeInner.called, hArgs, hNone, hReusable]
  show (match env.functions.lookup call with
    | some invoker => _
    | none => _ : Except WorkflowError Handover) = _
  rw [hFunction]
  rfl

/-- A reusable function that leads to another one is not resolved. -/
theorem called_of_chain (hArgs : env.evaluateArgs ctx (def_.with_.getD []) = .ok args)
    (hNone : env.functions.lookup def_.call = none)
    (hReusable : resolveFunction wf def_.call = some (call, with_))
    (hMissing : env.functions.lookup call = none) :
    env.called wf def_ ctx = .error (unknownReference def_.call call) := by
  simp only [RuntimeInner.called, hArgs, hNone, hReusable]
  show (match env.functions.lookup call with
    | some invoker => _
    | none => _ : Except WorkflowError Handover) = _
  rw [hMissing]
  rfl

/-- The inlined call evaluates the layers and the arguments of the call, each of them once, and
hands them to the same invoker. -/
theorem inlined_eq (hArgs : env.evaluateArgs ctx (def_.with_.getD []) = .ok args)
    (hFunction : env.functions.lookup target = some invoker) :
    env.inlined target layers def_.with_ ctx = (env.evaluateLayers ctx layers).map fun defaults =>
      (invoker, { name := target, args := overrideLayers defaults args, context := ctx }) := by
  simp only [RuntimeInner.inlined, hArgs, hFunction]
  cases env.evaluateLayers ctx layers <;> rfl

end Cases

section Inlining

variable {may : Oracle → Prop} {args : Map} {call : String} {with_ : Option Map}
  {invoker : FunctionInvoker}

/-- A plan is like itself. -/
theorem Plan.Alike.refl (plan : Plan) : plan.Alike may plan := by
  cases plan with
  | error e => rfl
  | ok answer => exact fun _ _ => rfl

/-- Only the same failure is like a failure, -/
theorem Plan.alike_error_iff {plan : Plan} {e : WorkflowError} :
    plan.Alike may (.error e) ↔ plan = .error e := by
  cases plan with
  | error other =>
      constructor
      · rintro rfl
        rfl
      · exact fun hSame => Except.error.inj hSame
  | ok answer => exact ⟨False.elim, fun hSame => by cases hSame⟩

/-- from either side. -/
theorem Plan.error_alike_iff {plan : Plan} {e : WorkflowError} :
    Plan.Alike may (.error e) plan ↔ plan = .error e := by
  cases plan with
  | error other =>
      constructor
      · rintro rfl
        rfl
      · exact fun hSame => (Except.error.inj hSame).symm
  | ok answer => exact ⟨False.elim, fun hSame => by cases hSame⟩

/-- What is left to compare for a reusable function: its own arguments as they stand, and
evaluated. -/
theorem inlines_iff (hArgs : env.evaluateArgs ctx (def_.with_.getD []) = .ok args)
    (hNone : env.functions.lookup def_.call = none)
    (hReusable : resolveFunction wf def_.call = some (call, with_)) :
    Inlines (SameAnswers env may) env wf ctx def_ ↔ ∃ invoker, env.functions.lookup call = some invoker ∧
      (env.answer invoker
          { name := call, args := Map.extend (with_.getD []) args, context := ctx }).Alike may
        ((env.evaluateArgs ctx (with_.getD [])).bind fun evaluated => env.answer invoker
          { name := call, args := Map.extend evaluated args, context := ctx }) := by
  constructor
  · intro inlines
    cases inlines with
    | failed hFailed => cases hArgs.symm.trans hFailed
    | registered hFunction => simp [hNone] at hFunction
    | alike hOwn hSome hFunction hWith hSame =>
        cases hArgs.symm.trans hOwn
        cases hReusable.symm.trans hSome
        refine ⟨_, hFunction, ?_⟩
        rw [hWith]
        exact hSame
    | refused hOwn hSome hFunction hWith hAnswer =>
        cases hArgs.symm.trans hOwn
        cases hReusable.symm.trans hSome
        refine ⟨_, hFunction, ?_⟩
        rw [hWith]
        exact Plan.alike_error_iff.mpr hAnswer
  · rintro ⟨invoker, hFunction, hAlike⟩
    cases hWith : env.evaluateArgs ctx (with_.getD []) with
    | error e =>
        rw [hWith] at hAlike
        exact .refused hArgs hReusable hFunction hWith (Plan.alike_error_iff.mp hAlike)
    | ok evaluated =>
        rw [hWith] at hAlike
        exact .alike hArgs hReusable hFunction hWith hAlike

/-- The plan of the inlined call is that of its invoker for all the arguments together. -/
theorem planOf_inlined (hArgs : env.evaluateArgs ctx (def_.with_.getD []) = .ok args)
    (hFunction : env.functions.lookup target = some invoker) :
    env.planOf (env.inlined target layers def_.with_ ctx) =
      (env.evaluateLayers ctx layers).bind fun defaults => env.answer invoker
        { name := target, args := overrideLayers defaults args, context := ctx } := by
  rw [inlined_eq hArgs hFunction]
  cases env.evaluateLayers ctx layers <;> rfl

/-- A reusable function that leads to another one fails as nothing else does. -/
theorem chain_not_alike (hArgs : env.evaluateArgs ctx (def_.with_.getD []) = .ok args)
    (hNone : env.functions.lookup def_.call = none)
    (hReusable : resolveFunction wf def_.call = some (call, with_))
    (hMissing : env.functions.lookup call = none)
    (hTarget : env.functions.lookup target = some invoker) :
    ¬ (env.planOf (env.called wf def_ ctx)).Alike may
        (env.planOf (env.inlined target layers def_.with_ ctx)) := by
  rw [called_of_chain hArgs hNone hReusable hMissing, planOf_inlined hArgs hTarget]
  intro hAlike
  have hLayers : Apart (env.evaluateLayers ctx layers) :=
    .of_kind fun _ hError hKind => by cases hKind.symm.trans (evaluateLayers_error_kind hError)
  exact hLayers.bind (fun _ => answer_apart invoker _) def_.call call
    (Plan.error_alike_iff.mp hAlike)

/-- A call comes to what the call of the function behind it comes to, if and only if there is
one reusable function on the way at most, and the registered one makes the same of its
arguments as they stand. -/
theorem called_alike_iff (underlying : Underlying env wf def_.call target layers) :
    (env.planOf (env.called wf def_ ctx)).Alike may
        (env.planOf (env.inlined target layers def_.with_ ctx)) ↔ Inlines (SameAnswers env may) env wf ctx def_ := by
  cases hArgs : env.evaluateArgs ctx (def_.with_.getD []) with
  | error e =>
      have hFailed : Inlines (SameAnswers env may) env wf ctx def_ := .failed hArgs
      simp only [RuntimeInner.called, RuntimeInner.inlined, hArgs, hFailed, iff_true]
      exact .refl _
  | ok args =>
      obtain ⟨invoker, hTarget⟩ := underlying.lookup
      generalize hName : def_.call = name at underlying
      cases underlying with
      | registered hFunction =>
          subst hName
          have hRegistered : Inlines (SameAnswers env may) env wf ctx def_ := .registered (by simp [hTarget])
          rw [called_of_registered hArgs hTarget, inlined_eq hArgs hTarget]
          simp only [hRegistered, iff_true]
          exact .refl _
      | @reusable _ call _ with_ layers hNone hReusable rest =>
          subst hName
          rw [inlines_iff hArgs hNone hReusable]
          cases rest with
          | registered hFunction =>
              rw [called_of_reusable hArgs hNone hReusable hTarget, planOf_inlined hArgs hTarget]
              have hOne : ((env.evaluateLayers ctx [with_.getD []]).bind fun defaults =>
                  env.answer invoker
                    { name := target, args := overrideLayers defaults args, context := ctx }) =
                  (env.evaluateArgs ctx (with_.getD [])).bind fun evaluated => env.answer invoker
                    { name := target, args := Map.extend evaluated args, context := ctx } := by
                cases hWith : env.evaluateArgs ctx (with_.getD []) <;>
                  simp [RuntimeInner.evaluateLayers, hWith] <;> rfl
              rw [hOne]
              constructor
              · exact fun hAlike => ⟨invoker, hTarget, hAlike⟩
              · rintro ⟨other, hOther, hAlike⟩
                cases hTarget.symm.trans hOther
                exact hAlike
          | reusable hMissing _ _ =>
              refine iff_of_false (chain_not_alike hArgs hNone hReusable hMissing hTarget) ?_
              rintro ⟨other, hOther, _⟩
              cases hMissing.symm.trans hOther

end Inlining

section Arguments

variable {may : Oracle → Prop} {id : String} {req other : FunctionRequest}

/-- Whether the result of a call follows redirects. -/
def followsRedirects (args : Map) : Bool :=
  match args.lookup "redirect" with
  | some (.bool b) => b
  | _ => false

/-- What the result of a call shows of the response. -/
inductive Shown where
  | raw
  | response
  | content

/-- The text of the argument that tells so. -/
def outputText (args : Map) : String := ((args.lookup "output").bind Value.asStr).getD "content"

def shownOf (args : Map) : Shown :=
  if outputText args = "raw" then .raw
  else if outputText args = "response" then .response
  else .content

def Shown.value (env : RuntimeInner) (sent : HttpRequest) (response : HttpResponse) : Shown → Value
  | raw => .object [("content", .string (env.encodeBase64 response.body))]
  | Shown.response =>
      .object [("content", (env.deserializeBody response.body
          ((response.headers.lookup "content-type").getD "")).getD .null),
        ("headers", RuntimeInner.headersValue response.headers),
        ("request", .object [("headers", RuntimeInner.headersValue sent.headers),
          ("method", .string sent.method), ("uri", .string sent.uri)]),
        ("statusCode", Value.ofNat response.status)]
  | content => (env.deserializeBody response.body
      ((response.headers.lookup "content-type").getD "")).getD .null

/-- Two maps of arguments are read alike when the response has come. -/
structure SameReading (args others : Map) : Prop where
  redirects : followsRedirects args = followsRedirects others
  shown : shownOf args = shownOf others

/-- Nothing is known of a registered function: its arguments have to be the same. -/
theorem answer_other_alike_iff (hAny : ∀ o, may o) (base : Oracle) :
    (env.answer (.other id) req).Alike may (env.answer (.other id) other) ↔ req = other := by
  constructor
  · intro hAlike
    by_contra hDiffer
    let telling : Oracle :=
      { base with invoke := fun _ request => .ok (.bool (decide (request = req))) }
    have hSame : (Except.ok (Value.bool (decide (req = req))) : Except WorkflowError Value) =
        .ok (.bool (decide (other = req))) := hAlike telling (hAny telling)
    rw [decide_eq_true rfl, decide_eq_false (Ne.symm hDiffer)] at hSame
    cases hSame
  · rintro rfl
    exact .refl _

/-- A response is a result when its status is one of success; a redirection is one where redirects
are not followed. -/
theorem httpResult_ok (args : Map) (sent : HttpRequest) (response : HttpResponse) :
    env.httpResult args sent (.ok response) =
      if 200 ≤ response.status ∧ response.status < (if followsRedirects args then 400 else 300) then
        .ok ((shownOf args).value env sent response)
      else .error (communicationError response.status
        ("http request returned status " ++ toString response.status)) := by
  have hOutput : (if outputText args = "raw" then
      Except.ok (Shown.raw.value env sent response)
    else if outputText args = "response" then
      .ok (Shown.response.value env sent response)
    else .ok (Shown.content.value env sent response) : Except WorkflowError Value) =
      .ok ((shownOf args).value env sent response) := by
    unfold shownOf
    split_ifs <;> rfl
  rw [← hOutput, ← ite_not]
  rfl

/-- What is made of a response depends on the arguments only through those that say how to read it.
-/
theorem httpResult_congr {args others : Map} (same : SameReading args others) (sent : HttpRequest)
    (reply : Except String HttpResponse) :
    env.httpResult args sent reply = env.httpResult others sent reply := by
  cases reply with
  | error e => rfl
  | ok response => rw [httpResult_ok, httpResult_ok, same.redirects, same.shown]

/-- Different ways to show a response show an empty one differently, so from what is returned one
can tell how the arguments were read. -/
theorem Shown.value_injective {shown other : Shown} (sent : HttpRequest)
    (hSame : shown.value env sent { status := 200, headers := [], body := [] } =
      other.value env sent { status := 200, headers := [], body := [] }) : shown = other := by
  have hText : ∀ fields, (env.deserializeBody [] "").getD .null ≠ .object fields := by
    intro fields
    have hPlain : env.deserializeBody [] "" = (env.parseUtf8 []).map Value.string := rfl
    rw [hPlain]
    cases env.parseUtf8 [] <;> simp
  have hFields : ∀ fields more : Map, fields.length ≠ more.length →
      Value.object fields ≠ .object more :=
    fun _ _ hLength hObjects => hLength (congrArg List.length (Value.object.inj hObjects))
  cases shown with
  | raw =>
      cases other with
      | raw => rfl
      | response => exact absurd hSame (hFields _ _ (by simp))
      | content => exact absurd hSame.symm (hText _)
  | response =>
      cases other with
      | raw => exact absurd hSame (hFields _ _ (by simp))
      | response => rfl
      | content => exact absurd hSame.symm (hText _)
  | content =>
      cases other with
      | raw => exact absurd hSame (hText _)
      | response => exact absurd hSame (hText _)
      | content => rfl

/-- Two maps that are read otherwise make something else of a redirect or of an empty response. -/
theorem sameReading_of_results {args others : Map} (sent : HttpRequest)
    (hSame : ∀ reply, env.httpResult args sent reply = env.httpResult others sent reply) :
    SameReading args others := by
  constructor
  · have hRedirect := hSame (.ok { status := 300, headers := [], body := [] })
    rw [httpResult_ok, httpResult_ok] at hRedirect
    cases hOwn : followsRedirects args with
    | false =>
        cases hOther : followsRedirects others with
        | false => rfl
        | true =>
            rw [hOwn, hOther, if_neg (by decide), if_pos (by decide)] at hRedirect
            cases hRedirect
    | true =>
        cases hOther : followsRedirects others with
        | true => rfl
        | false =>
            rw [hOwn, hOther, if_pos (by decide), if_neg (by decide)] at hRedirect
            cases hRedirect
  · have hAccepted : ∀ b : Bool, (200 : Nat) ≤ 200 ∧ 200 < if b then 400 else 300 := by decide
    have hContent := hSame (.ok { status := 200, headers := [], body := [] })
    rw [httpResult_ok, httpResult_ok, if_pos (hAccepted _), if_pos (hAccepted _)] at hContent
    exact Shown.value_injective sent (Except.ok.inj hContent)

/-- Nothing is known of the servers: the bundled function has to send the same request, and to
read its response alike. -/
theorem answer_http_alike_iff {sent sentOther : HttpRequest} (hAny : ∀ o, may o) (base : Oracle)
    (hSent : env.httpRequest req = .ok sent) (hOther : env.httpRequest other = .ok sentOther) :
    (env.answer .http req).Alike may (env.answer .http other) ↔
      sent = sentOther ∧ SameReading req.args other.args := by
  simp only [RuntimeInner.answer, hSent, hOther]
  constructor
  · intro hAlike
    have hSame : ∀ o : Oracle, env.httpResult req.args sent (o.send sent) =
        env.httpResult other.args sentOther (o.send sentOther) := fun o => hAlike o (hAny o)
    have hRequest : sent = sentOther := by
      by_contra hDiffer
      have hTelling := hSame
        { base with send := fun request => .error (if request = sent then "sent" else "other") }
      simp only [if_true, if_neg (Ne.symm hDiffer)] at hTelling
      have hDetail := congrArg (·.problem.detail) (Except.error.inj hTelling)
      exact absurd (Option.some.inj hDetail) (by decide)
    subst hRequest
    exact ⟨rfl, sameReading_of_results sent fun reply => hSame { base with send := fun _ => reply }⟩
  · rintro ⟨rfl, same⟩
    exact fun o _ => httpResult_congr same sent _

/-- Two requests are the same to a registered function of which nothing is known, and to the
bundled one if nothing is known of the servers. -/
inductive SameCall (env : RuntimeInner) : RequestRelation
  | registered (id : String) (req : FunctionRequest) : SameCall env (.other id) req req
  | sent {req other : FunctionRequest} {sent : HttpRequest} (hSent : env.httpRequest req = .ok sent)
      (hOther : env.httpRequest other = .ok sent) (reading : SameReading req.args other.args) :
      SameCall env .http req other
  | refused {req other : FunctionRequest} {e : WorkflowError}
      (hError : env.httpRequest req = .error e) (hOther : env.httpRequest other = .error e) :
      SameCall env .http req other

/-- Where the world may give any answer, two requests are answered alike exactly when they are the
same call. -/
theorem sameAnswers_any_iff {invoker : FunctionInvoker} (hAny : ∀ o, may o) (base : Oracle) :
    SameAnswers env may invoker req other ↔ SameCall env invoker req other := by
  cases invoker with
  | other id =>
      rw [SameAnswers, answer_other_alike_iff hAny base]
      constructor
      · rintro rfl
        exact .registered id req
      · rintro ⟨⟩
        rfl
  | http =>
      constructor
      · intro hAlike
        cases hSent : env.httpRequest req with
        | error e =>
            cases hOther : env.httpRequest other with
            | error e' =>
                rw [SameAnswers, RuntimeInner.answer, RuntimeInner.answer, hSent, hOther] at hAlike
                cases hAlike
                exact .refused hSent hOther
            | ok sentOther =>
                rw [SameAnswers, RuntimeInner.answer, RuntimeInner.answer, hSent, hOther] at hAlike
                cases hAlike
        | ok sent =>
            cases hOther : env.httpRequest other with
            | error e =>
                rw [SameAnswers, RuntimeInner.answer, RuntimeInner.answer, hSent, hOther] at hAlike
                cases hAlike
            | ok sentOther =>
                obtain ⟨rfl, reading⟩ := (answer_http_alike_iff hAny base hSent hOther).mp hAlike
                exact .sent hSent hOther reading
      · intro same
        cases same with
        | sent hSent hOther reading =>
            exact (answer_http_alike_iff hAny base hSent hOther).mpr ⟨rfl, reading⟩
        | refused hError hOther =>
            rw [SameAnswers, RuntimeInner.answer, RuntimeInner.answer, hError, hOther]
            rfl

end Arguments

namespace Sample

/-- A runtime with a registered function. -/
def withFunction : RuntimeInner := { runtime with functions := [("send", .other "send")] }

def callTask (call : String) (with_ : Map) : TaskDefinition :=
  .call { if_ := none, input := none, output := none, export_ := none, timeout := none
          then_ := none } call (some with_)

/-- Reusable functions: `notify` calls the registered one, and `alert` calls `notify`. -/
def notifying : CompiledWorkflow :=
  { workflow [] [] with
    components := some
      { errors := none, retries := none, timeouts := none, secrets := none, extensions := none
        functions := some [("alert", callTask "notify" [("level", .string "high")]),
          ("notify", callTask "send" [("channel", .string "ops")])] } }

def callerContext : ExpressionContext :=
  { context := .null, input := .null, output := .null, secrets := [], authorization := none
    task := none, workflow := none, runtime := none, extraVars := [] }

/-- In the sample, `notify` is a layer over the registered `send`, -/
theorem notify_underlying :
    Underlying withFunction notifying "notify" "send" [[("channel", .string "ops")]] := by
  have hReusable : resolveFunction notifying "notify" =
      some ("send", some [("channel", .string "ops")]) := rfl
  exact Underlying.reusable rfl hReusable (.registered rfl)

/-- and `alert` is one over `notify`. -/
theorem alert_underlying :
    Underlying withFunction notifying "alert" "send"
      [[("level", .string "high")], [("channel", .string "ops")]] := by
  have hReusable : resolveFunction notifying "alert" =
      some ("notify", some [("level", .string "high")]) := rfl
  exact Underlying.reusable rfl hReusable notify_underlying

end Sample

end OwsRuntime
