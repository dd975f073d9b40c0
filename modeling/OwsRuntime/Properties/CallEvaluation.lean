import OwsRuntime.Engine.Turns
import OwsRuntime.Engine.Runs
import OwsRuntime.Expressions.Engine

/-! How often the expressions of an outbound call are evaluated. The call task
evaluates the strings of its own arguments, and the bundled `http` function
evaluates those of the arguments it gets. -/
namespace OwsRuntime

open Async

def optionalStrings (value : Option Value) : List String := (value.bind Value.asStr).toList

/-- The strings of an authentication which the `http` function evaluates. -/
def authStrings (auth : Option Value) : List String :=
  match RuntimeInner.authScheme auth with
  | some (.basic fields) =>
      optionalStrings (fields.lookup "username") ++ optionalStrings (fields.lookup "password")
  | some (.bearer fields) => optionalStrings (fields.lookup "token")
  | none => []

def endpointStrings (endpoint : Value) : List String :=
  match RuntimeInner.endpointParts endpoint with
  | .ok (uri, auth) => uri :: authStrings auth
  | .error _ => []

def fieldStrings : Value → List String
  | .object map => map.filterMap fun entry => entry.2.asStr
  | _ => []

mutual

def valueStrings : Value → List String
  | .string s => [s]
  | .array items => itemStrings items
  | .object entries => entryStrings entries
  | _ => []

def itemStrings : List Value → List String
  | [] => []
  | item :: rest => valueStrings item ++ itemStrings rest

def entryStrings : List (String × Value) → List String
  | [] => []
  | (_, v) :: rest => valueStrings v ++ entryStrings rest

end

/-- The strings of an argument which the `http` function evaluates. -/
def requestStrings (key : String) (argument : Value) : List String :=
  if key = "endpoint" then endpointStrings argument
  else if key = "headers" ∨ key = "query" then fieldStrings argument
  else if key = "body" then valueStrings argument
  else []

namespace RuntimeInner

variable (env : RuntimeInner)

/-- A runtime that takes every string as it is. -/
def literal : RuntimeInner :=
  { env with expression :=
      { env.expression with evaluateInterpolation := fun s _ _ => .ok (.string s) } }

/-- The arguments of a call, its strings evaluated. -/
def evaluateArgs (ctx : ExpressionContext) : Map → Except WorkflowError Map
  | [] => .ok []
  | (k, v) :: rest => return (k, ← env.resolveLeaf ctx v) :: (← evaluateArgs ctx rest)

/-- The arguments which a call hands to the `http` function, if it comes to it. -/
def httpArgs (wf : CompiledWorkflow) (def_ : CallDef) (args : Map) : Option Map :=
  match env.functions.lookup def_.call with
  | some .http => some args
  | some (.other _) => none
  | none => do
      let (call, with_) ← resolveFunction wf def_.call
      if env.functions.lookup call = some .http then some (Map.extend (with_.getD []) args) else none

end RuntimeInner

/-- The arguments which the `http` function gets from a call, if it comes to it. -/
def RuntimeInner.callArgs (env : RuntimeInner) (wf : CompiledWorkflow) (def_ : CallDef)
    (ctx : ExpressionContext) : Option Map :=
  (env.evaluateArgs ctx (def_.with_.getD [])).toOption.bind (env.httpArgs wf def_)

/-- Whether a call has a string of its own for an argument, which it evaluates. What
comes of it is data. -/
def isData (own : Map) (key : String) : Bool :=
  match own.lookup key with
  | some (.string _) => true
  | _ => false

/-- What has still to evaluate the strings of an argument. -/
def RuntimeInner.forArg (env : RuntimeInner) (own : Map) (key : String) : RuntimeInner :=
  if isData own key then env.literal else env

section Sending

variable {env : RuntimeInner} {wf : CompiledWorkflow} {def_ : CallDef} {ctx : ExpressionContext}
  {σ : EngineState}

theorem advance_evalInterpolation (env : RuntimeInner) (ctx : ExpressionContext) (σ : EngineState)
    (value : Value) :
    ∃ τ, σ.Noted τ ∧ engine.advance (evalInterpolation env value ctx).run σ =
      (.done (env.resolveLeaf ctx value), τ) := by
  cases value with
  | string s => exact ⟨_, σ.noted_note _, rfl⟩
  | _ => exact ⟨σ, .refl σ, rfl⟩

/-- The call evaluates its own arguments within a turn, in their order, and leaves nothing behind
but its notes. -/
theorem advance_interpolateEntries (env : RuntimeInner) (ctx : ExpressionContext)
    (σ : EngineState) (own : Map) :
    ∃ τ, σ.Noted τ ∧ engine.advance (interpolateEntries env ctx own).run σ =
      (.done (env.evaluateArgs ctx own), τ) := by
  induction own generalizing σ with
  | nil => exact ⟨σ, .refl σ, rfl⟩
  | cons entry rest ih =>
      obtain ⟨k, v⟩ := entry
      obtain ⟨τ, hNoted, hLeaf⟩ := advance_evalInterpolation env ctx σ v
      rw [interpolateEntries, RuntimeInner.evaluateArgs]
      cases hValue : env.resolveLeaf ctx v with
      | error e =>
          rw [hValue] at hLeaf
          exact ⟨τ, hNoted, Handler.advance_bind_of_error hLeaf⟩
      | ok value =>
          rw [hValue] at hLeaf
          obtain ⟨υ, hMore, hRest⟩ := ih τ
          refine ⟨υ, hNoted.trans hMore, (Handler.advance_bind_of_ok hLeaf).trans ?_⟩
          cases hArgs : env.evaluateArgs ctx rest with
          | error e =>
              rw [hArgs] at hRest
              exact Handler.advance_bind_of_error hRest
          | ok args =>
              rw [hArgs] at hRest
              exact Handler.advance_bind_of_ok hRest

/-- Only the http function sends a request of its own within the turn of the call, and then the one
that is made of its arguments. -/
theorem invokeFunction_sends {invoker : FunctionInvoker} {req : FunctionRequest} {sent : HttpRequest}
    {next : Except String HttpResponse → Program engineSig (Except WorkflowError Value)}
    {τ : EngineState}
    (hSent : engine.advance (invokeFunction env invoker req).run σ =
      (@Program.act engineSig _ (.send sent) next, τ)) :
    invoker = .http ∧ env.httpRequest req = .ok sent := by
  cases invoker with
  | other id => cases hSent
  | http =>
      refine ⟨rfl, ?_⟩
      cases hRequest : env.httpRequest req with
      | error e =>
          rw [invokeFunction, hRequest] at hSent
          cases hSent
      | ok request =>
          rw [invokeFunction, hRequest] at hSent
          cases hSent
          rfl

/-- A call that sends a request has handed its arguments to the `http` function. -/
theorem taskCall_sends {sent : HttpRequest}
    {next : Except String HttpResponse → Program engineSig (Except WorkflowError Value)}
    {τ : EngineState}
    (hSent : engine.advance (taskCall env wf def_ ctx).run σ =
      (@Program.act engineSig _ (.send sent) next, τ)) :
    ∃ args name, env.callArgs wf def_ ctx = some args ∧
      env.httpRequest { name, args, context := ctx } = .ok sent := by
  obtain ⟨υ, _, hArgs⟩ := advance_interpolateEntries env ctx σ (def_.with_.getD [])
  rw [taskCall, interpolateMap] at hSent
  cases hOwn : env.evaluateArgs ctx (def_.with_.getD []) with
  | error e =>
      rw [hOwn] at hArgs
      have hFailed := (Handler.advance_bind_of_error hArgs).symm.trans hSent
      cases hFailed
  | ok own =>
      rw [hOwn] at hArgs
      have hCall := (Handler.advance_bind_of_ok hArgs).symm.trans hSent
      cases hDirect : env.functions.lookup def_.call with
      | some invoker =>
          rw [hDirect] at hCall
          obtain ⟨rfl, hRequest⟩ := invokeFunction_sends hCall
          refine ⟨own, _, ?_, hRequest⟩
          simp [RuntimeInner.callArgs, hOwn, Except.toOption, RuntimeInner.httpArgs, hDirect]
      | none =>
          rw [hDirect] at hCall
          cases hFunction : resolveFunction wf def_.call with
          | none =>
              rw [hFunction] at hCall
              cases hCall
          | some function =>
              obtain ⟨call, with_⟩ := function
              rw [hFunction] at hCall
              cases hInvoker : env.functions.lookup call with
              | none =>
                  simp only [hInvoker] at hCall
                  cases hCall
              | some invoker =>
                  simp only [hInvoker] at hCall
                  obtain ⟨rfl, hRequest⟩ := invokeFunction_sends hCall
                  refine ⟨_, _, ?_, hRequest⟩
                  simp [RuntimeInner.callArgs, hOwn, Except.toOption, RuntimeInner.httpArgs, hDirect,
                    hFunction, hInvoker]

end Sending

section Literal

variable {env : RuntimeInner} {lang : ExpressionLanguage} {ctx : ExpressionContext}

/-- No string of the list has an expression block. -/
def Plain (strings : List String) : Prop := ∀ s ∈ strings, ¬ JqEngine.HasBlock s.toList

theorem Plain.of_append {first second : List String} (plain : Plain (first ++ second)) :
    Plain first ∧ Plain second :=
  ⟨fun s h => plain s (List.mem_append_left _ h), fun s h => plain s (List.mem_append_right _ h)⟩

variable (hEngine : env.expression = JqEngine.engine lang)

include hEngine

theorem interpolate_of_plain {s : String} (hPlain : ¬ JqEngine.HasBlock s.toList) :
    env.interpolate ctx s = .ok (.string s) := by
  rw [RuntimeInner.interpolate, hEngine, JqEngine.evaluateInterpolation_of_plain lang hPlain]
  rfl

theorem resolveLeaf_of_plain {value : Value} (plain : Plain value.asStr.toList) :
    env.resolveLeaf ctx value = env.literal.resolveLeaf ctx value := by
  cases value with
  | string s => exact interpolate_of_plain hEngine (plain s List.mem_cons_self)
  | _ => rfl

theorem resolveFields_of_plain {fields : Map} (plain : Plain (fieldStrings (.object fields))) :
    env.resolveFields ctx fields = env.literal.resolveFields ctx fields := by
  induction fields with
  | nil => rfl
  | cons entry rest ih =>
      obtain ⟨k, v⟩ := entry
      have hSplit : fieldStrings (.object ((k, v) :: rest)) =
          v.asStr.toList ++ fieldStrings (.object rest) := by
        cases hText : v.asStr <;> simp [fieldStrings, hText]
      rw [hSplit] at plain
      rw [RuntimeInner.resolveFields, RuntimeInner.resolveFields, ih plain.of_append.2,
        resolveLeaf_of_plain hEngine plain.of_append.1]
      rfl

theorem resolveHeaders_of_plain {headers : Option Value}
    (plain : ∀ value ∈ headers, Plain (fieldStrings value)) :
    env.resolveHeaders ctx headers = env.literal.resolveHeaders ctx headers := by
  unfold RuntimeInner.resolveHeaders
  split
  · exact resolveFields_of_plain hEngine (plain _ rfl)
  · rfl

theorem resolveQuery_of_plain {query : Option Value}
    (plain : ∀ value ∈ query, Plain (fieldStrings value)) :
    env.resolveQuery ctx query = env.literal.resolveQuery ctx query := by
  unfold RuntimeInner.resolveQuery
  split
  · rw [resolveFields_of_plain hEngine (plain _ rfl)]
  · rfl

omit hEngine

mutual

theorem resolveValue_of_plain (hEngine : env.expression = JqEngine.engine lang) {value : Value}
    (plain : Plain (valueStrings value)) :
    env.resolveValue ctx value = env.literal.resolveValue ctx value := by
  cases value with
  | string s => exact interpolate_of_plain hEngine (plain s List.mem_cons_self)
  | array items =>
      rw [RuntimeInner.resolveValue, RuntimeInner.resolveValue, resolveItems_of_plain hEngine plain]
  | object entries =>
      rw [RuntimeInner.resolveValue, RuntimeInner.resolveValue, resolveEntries_of_plain hEngine plain]
  | _ => rfl

theorem resolveItems_of_plain (hEngine : env.expression = JqEngine.engine lang)
    {items : List Value} (plain : Plain (itemStrings items)) :
    env.resolveItems ctx items = env.literal.resolveItems ctx items := by
  cases items with
  | nil => rfl
  | cons item rest =>
      rw [itemStrings] at plain
      rw [RuntimeInner.resolveItems, RuntimeInner.resolveItems,
        resolveValue_of_plain hEngine plain.of_append.1, resolveItems_of_plain hEngine plain.of_append.2]

theorem resolveEntries_of_plain (hEngine : env.expression = JqEngine.engine lang)
    {entries : List (String × Value)} (plain : Plain (entryStrings entries)) :
    env.resolveEntries ctx entries = env.literal.resolveEntries ctx entries := by
  cases entries with
  | nil => rfl
  | cons entry rest =>
      obtain ⟨k, v⟩ := entry
      rw [entryStrings] at plain
      rw [RuntimeInner.resolveEntries, RuntimeInner.resolveEntries,
        resolveValue_of_plain hEngine plain.of_append.1, resolveEntries_of_plain hEngine plain.of_append.2]

end

include hEngine

theorem resolveBody_of_plain {body : Option Value}
    (plain : ∀ value ∈ body, Plain (valueStrings value)) :
    env.resolveBody ctx body = env.literal.resolveBody ctx body := by
  cases body with
  | none => rfl
  | some value =>
      rw [RuntimeInner.resolveBody, RuntimeInner.resolveBody,
        resolveValue_of_plain hEngine (plain value rfl)]

theorem resolveOptionalStr_of_plain {value : Option Value} (plain : Plain (optionalStrings value)) :
    env.resolveOptionalStr ctx value = env.literal.resolveOptionalStr ctx value := by
  cases value with
  | none => rfl
  | some value =>
      rw [RuntimeInner.resolveOptionalStr, RuntimeInner.resolveOptionalStr,
        resolveLeaf_of_plain hEngine plain]
      rfl

theorem applyAuth_of_plain {auth : Option Value} {headers : List (String × String)}
    (plain : Plain (authStrings auth)) :
    env.applyAuth ctx auth headers = env.literal.applyAuth ctx auth headers := by
  unfold RuntimeInner.applyAuth
  unfold authStrings at plain
  cases hScheme : RuntimeInner.authScheme auth with
  | none => rfl
  | some scheme =>
      rw [hScheme] at plain
      cases scheme with
      | basic fields =>
          simp only [resolveOptionalStr_of_plain hEngine plain.of_append.1,
            resolveOptionalStr_of_plain hEngine plain.of_append.2]
          rfl
      | bearer fields => simp only [resolveOptionalStr_of_plain hEngine plain]

end Literal

/-- The text and the authentication of the endpoint among the arguments. -/
def endpointOf (args : Map) : Except WorkflowError (String × Option Value) := do
  RuntimeInner.endpointParts (← RuntimeInner.endpointArg args)

/-- The parts of a request are what the strings of the definition evaluate to: those
of data have been evaluated, and any others are evaluated here. -/
structure EvaluatedOnce (env : RuntimeInner) (own : Map) (ctx : ExpressionContext) (args : Map)
    (sent : HttpRequest) (raw : String) (auth : Option Value) (uri : String) : Prop where
  endpoint : endpointOf args = .ok (raw, auth)
  evaluated : (env.forArg own "endpoint").interpolate ctx raw = .ok (.string uri)
  /-- It is this endpoint whose templates the request has expanded. -/
  expanded : env.interpolateEndpoint ctx raw = .ok uri ∧
    sent.uri = env.expandUriTemplate uri (ctx.workflow.getD .null)
  headers : ((env.forArg own "headers").resolveHeaders ctx (args.lookup "headers") >>=
    (env.forArg own "endpoint").applyAuth ctx auth) = .ok sent.headers
  query : (env.forArg own "query").resolveQuery ctx (args.lookup "query") = .ok sent.query
  body : (env.forArg own "body").resolveBody ctx (args.lookup "body") = .ok sent.body

/-- The expression engine finds no expression in the strings of data which the `http`
function hands to it. -/
def DataUnparsed (lang : ExpressionLanguage) (own args : Map) : Prop :=
  ∀ key value, isData own key = true → args.lookup key = some value →
    ∀ s ∈ requestStrings key value, JqEngine.prepare lang s = .ok (.plain s)

/-- The expressions of a call have reached its request evaluated once, and no data
has been taken for an expression. -/
def CallEvaluatedOnce (env : RuntimeInner) (lang : ExpressionLanguage) (wf : CompiledWorkflow)
    (def_ : CallDef) (ctx : ExpressionContext) (sent : HttpRequest) : Prop :=
  ∃ args ∈ env.callArgs wf def_ ctx,
    (∃ raw auth uri, EvaluatedOnce env (def_.with_.getD []) ctx args sent raw auth uri) ∧
      DataUnparsed lang (def_.with_.getD []) args

/-- The values to which the strings of a call's own arguments evaluate have no
expression blocks, and the `uri` of an endpoint object evaluates to a string. -/
structure CallDataPlain (env : RuntimeInner) (wf : CompiledWorkflow) (def_ : CallDef)
    (ctx : ExpressionContext) : Prop where
  data : ∀ args ∈ env.callArgs wf def_ ctx, ∀ key value,
    isData (def_.with_.getD []) key = true → args.lookup key = some value →
      Plain (requestStrings key value)
  uri : ∀ args ∈ env.callArgs wf def_ ctx, isData (def_.with_.getD []) "endpoint" = false →
    ∀ raw auth, endpointOf args = .ok (raw, auth) →
      ∃ uri, env.interpolate ctx raw = .ok (.string uri)

section Requests

variable {env : RuntimeInner} {lang : ExpressionLanguage} {ctx : ExpressionContext}
  {own args : Map} {name : String} {sent : HttpRequest}

/-- What a request is made of: the method and the endpoint of the arguments, and the headers, the
query and the body that are resolved from them once more. -/
theorem httpRequest_ok (hRequest : env.httpRequest { name, args, context := ctx } = .ok sent) :
    ∃ raw auth uri plain, endpointOf args = .ok (raw, auth) ∧
      env.interpolateEndpoint ctx raw = .ok uri ∧
      sent.uri = env.expandUriTemplate uri (ctx.workflow.getD .null) ∧
      env.resolveHeaders ctx (args.lookup "headers") = .ok plain ∧
      env.applyAuth ctx auth plain = .ok sent.headers ∧
      env.resolveQuery ctx (args.lookup "query") = .ok sent.query ∧
      env.resolveBody ctx (args.lookup "body") = .ok sent.body := by
  rw [RuntimeInner.httpRequest] at hRequest
  obtain ⟨method, _, hRequest⟩ := bind_eq_ok hRequest
  obtain ⟨endpoint, hEndpoint, hRequest⟩ := bind_eq_ok hRequest
  obtain ⟨⟨expanded, auth⟩, hResolved, hRequest⟩ := bind_eq_ok hRequest
  obtain ⟨_, _, hRequest⟩ := bind_eq_ok hRequest
  obtain ⟨plain, hPlain, hRequest⟩ := bind_eq_ok hRequest
  obtain ⟨headers, hHeaders, hRequest⟩ := bind_eq_ok hRequest
  obtain ⟨body, hBody, hRequest⟩ := bind_eq_ok hRequest
  obtain ⟨query, hQuery, hRequest⟩ := bind_eq_ok hRequest
  cases hRequest
  rw [RuntimeInner.resolveEndpoint] at hResolved
  obtain ⟨⟨raw, found⟩, hParts, hResolved⟩ := bind_eq_ok hResolved
  obtain ⟨uri, hUri, hResolved⟩ := bind_eq_ok hResolved
  cases hResolved
  refine ⟨raw, auth, uri, plain, ?_, hUri, rfl, hPlain, hHeaders, hQuery, hBody⟩
  rw [endpointOf, hEndpoint]
  exact hParts

/-- What an endpoint evaluates to, if it is a string. -/
theorem interpolateEndpoint_of_string {raw uri : String}
    (hUri : env.interpolate ctx raw = .ok (.string uri)) :
    env.interpolateEndpoint ctx raw = .ok uri := by
  rw [RuntimeInner.interpolateEndpoint, hUri]
  rfl

/-- The strings which the `http` function gets as data have no expression blocks. -/
def DataPlain (own args : Map) : Prop :=
  ∀ key value, isData own key = true → args.lookup key = some value →
    Plain (requestStrings key value)

theorem dataUnparsed_iff : DataUnparsed lang own args ↔ DataPlain own args := by
  unfold DataUnparsed DataPlain Plain
  simp only [JqEngine.prepare_eq_plain_iff]

section Plain

variable (hEngine : env.expression = JqEngine.engine lang) (plain : DataPlain own args)

include hEngine plain

theorem forArg_resolveHeaders :
    (env.forArg own "headers").resolveHeaders ctx (args.lookup "headers") =
      env.resolveHeaders ctx (args.lookup "headers") := by
  unfold RuntimeInner.forArg
  split
  · rename_i hData
    refine (resolveHeaders_of_plain hEngine fun value hValue => ?_).symm
    simpa [requestStrings] using plain "headers" value hData hValue
  · rfl

theorem forArg_resolveQuery :
    (env.forArg own "query").resolveQuery ctx (args.lookup "query") =
      env.resolveQuery ctx (args.lookup "query") := by
  unfold RuntimeInner.forArg
  split
  · rename_i hData
    refine (resolveQuery_of_plain hEngine fun value hValue => ?_).symm
    simpa [requestStrings] using plain "query" value hData hValue
  · rfl

theorem forArg_resolveBody :
    (env.forArg own "body").resolveBody ctx (args.lookup "body") =
      env.resolveBody ctx (args.lookup "body") := by
  unfold RuntimeInner.forArg
  split
  · rename_i hData
    refine (resolveBody_of_plain hEngine fun value hValue => ?_).symm
    simpa [requestStrings] using plain "body" value hData hValue
  · rfl

omit hEngine in
/-- The strings of an endpoint that is data. -/
theorem plain_endpoint {raw : String} {auth : Option Value}
    (hEndpoint : endpointOf args = .ok (raw, auth)) (hData : isData own "endpoint" = true) :
    Plain (raw :: authStrings auth) := by
  rw [endpointOf, RuntimeInner.endpointArg] at hEndpoint
  cases hValue : args.lookup "endpoint" with
  | none =>
      rw [hValue] at hEndpoint
      cases hEndpoint
  | some value =>
      rw [hValue] at hEndpoint
      have hParts : RuntimeInner.endpointParts value = .ok (raw, auth) := hEndpoint
      have hStrings : requestStrings "endpoint" value = raw :: authStrings auth := by
        rw [requestStrings, if_pos rfl, endpointStrings, hParts]
      exact hStrings ▸ plain "endpoint" value hData hValue

theorem forArg_applyAuth {raw : String} {auth : Option Value}
    (hEndpoint : endpointOf args = .ok (raw, auth)) (headers : List (String × String)) :
    (env.forArg own "endpoint").applyAuth ctx auth headers = env.applyAuth ctx auth headers := by
  unfold RuntimeInner.forArg
  split
  · rename_i hData
    have hPlain := plain_endpoint plain hEndpoint hData
    exact (applyAuth_of_plain hEngine fun s h => hPlain s (List.mem_cons_of_mem _ h)).symm
  · rfl

/-- The endpoint is evaluated once: it is a plain string of data, or one that is
evaluated to a string. -/
theorem forArg_interpolate {raw uri : String} {auth : Option Value}
    (hEndpoint : endpointOf args = .ok (raw, auth)) (hUri : env.interpolateEndpoint ctx raw = .ok uri)
    (hString : isData own "endpoint" = false →
      ∃ uri, env.interpolate ctx raw = .ok (.string uri)) :
    (env.forArg own "endpoint").interpolate ctx raw = .ok (.string uri) := by
  have hText : ∃ text, (env.forArg own "endpoint").interpolate ctx raw = .ok (.string text) ∧
      env.interpolate ctx raw = .ok (.string text) := by
    unfold RuntimeInner.forArg
    split
    · rename_i hData
      have hRaw := plain_endpoint plain hEndpoint hData raw List.mem_cons_self
      exact ⟨raw, rfl, interpolate_of_plain hEngine hRaw⟩
    · rename_i hData
      obtain ⟨text, hText⟩ := hString (by simpa using hData)
      exact ⟨text, hText, hText⟩
  obtain ⟨text, hOnce, hHere⟩ := hText
  rw [interpolateEndpoint_of_string hHere] at hUri
  cases hUri
  exact hOnce

end Plain

end Requests

/-- The expressions of a call that sends a request have reached it evaluated once,
and no data has been taken for an expression, if and only if the values to which
the strings of the call's own arguments evaluate have no expression blocks, and the
`uri` of its endpoint evaluates to a string. -/
theorem taskCall_evaluatedOnce_iff {env : RuntimeInner} {lang : ExpressionLanguage}
    {wf : CompiledWorkflow} {def_ : CallDef} {ctx : ExpressionContext} {sent : HttpRequest}
    {next : Except String HttpResponse → Program engineSig (Except WorkflowError Value)}
    {σ τ : EngineState} (hEngine : env.expression = JqEngine.engine lang)
    (hSent : engine.advance (taskCall env wf def_ ctx).run σ =
      (@Program.act engineSig _ (.send sent) next, τ)) :
    CallEvaluatedOnce env lang wf def_ ctx sent ↔ CallDataPlain env wf def_ ctx := by
  obtain ⟨args, name, hArgs, hRequest⟩ := taskCall_sends hSent
  obtain ⟨raw, auth, uri, plainHeaders, hEndpoint, hUri, hExpanded, hHeaders, hAuth, hQuery, hBody⟩ :=
    httpRequest_ok hRequest
  constructor
  · rintro ⟨found, hFound, ⟨raw', auth', uri', once⟩, unparsed⟩
    refine ⟨fun other hOther => ?_, fun other hOther hData text scheme hText => ?_⟩
    · rw [Option.mem_unique hOther hFound]
      exact dataUnparsed_iff.mp unparsed
    · rw [Option.mem_unique hOther hFound, once.endpoint] at hText
      cases hText
      refine ⟨uri', ?_⟩
      have hEvaluated := once.evaluated
      rw [RuntimeInner.forArg, if_neg (by simp [hData])] at hEvaluated
      exact hEvaluated
  · rintro ⟨hData, hString⟩
    have plain : DataPlain (def_.with_.getD []) args := hData args hArgs
    refine ⟨args, hArgs, ⟨raw, auth, uri, ?_⟩, dataUnparsed_iff.mpr plain⟩
    refine ⟨hEndpoint, ?_, ⟨hUri, hExpanded⟩, ?_, ?_, ?_⟩
    · exact forArg_interpolate hEngine plain hEndpoint hUri fun h => hString args hArgs h raw auth hEndpoint
    · rw [forArg_resolveHeaders hEngine plain, hHeaders]
      exact (forArg_applyAuth hEngine plain hEndpoint plainHeaders).trans hAuth
    · rw [forArg_resolveQuery hEngine plain, hQuery]
    · rw [forArg_resolveBody hEngine plain, hBody]

/-- A language with two expressions: a field of the input, and a secret. -/
def sampleLanguage : ExpressionLanguage where
  Expr := String
  parse source := .ok source
  eval e input vars :=
    if e = ".payload" then .ok [(input.get? "payload").getD .null]
    else if e = "$secrets.token" then
      .ok [((vars.lookup "secrets").bind (·.get? "token")).getD .null]
    else .error ⟨"unknown expression", none⟩
  toText value := value.asStr.getD ""

def callRuntime : RuntimeInner :=
  { Sample.runtime with
    expression := JqEngine.engine sampleLanguage
    functions := [("http", .http)]
    parseUrl := fun _ => .ok ("https", some "example.com")
    isHttpMethod := fun _ => true
    policy := { RuntimePolicy.default with
      allowNetwork := true, allowedHosts := ["example.com"], allowedSchemes := ["https"] } }

/-- A call whose body is a field of the input. -/
def payloadCall : CallDef :=
  { call := "http"
    with_ := some [("body", .string "$\x7b .payload \x7d"),
      ("endpoint", .string "https://example.com"), ("method", .string "POST")] }

def payloadContext (payload : String) : ExpressionContext :=
  { context := .null, input := .object [("payload", .string payload)], output := .null
    secrets := [("token", "s3cret")], authorization := none, task := none, workflow := none
    runtime := none, extraVars := [] }

def payloadTurn (payload : String) : Config engineSig (Except WorkflowError Value) :=
  engine.advance (taskCall callRuntime (Sample.workflow [] []) payloadCall (payloadContext payload)).run
    ⟨TaskLocal.initial, Execution.initial (Sample.workflow [] []) 0, Sample.world⟩

/-- The request which a program is about to send. -/
def sending {α : Type} : Program engineSig α → Option HttpRequest
  | .act (.send request) _ => some request
  | _ => none

theorem exists_of_sending {α : Type} {p : Program engineSig α} {sent : HttpRequest}
    (hSending : sending p = some sent) : ∃ next, p = @Program.act engineSig _ (.send sent) next := by
  cases p with
  | act request next =>
      cases request with
      | send request =>
          cases hSending
          exact ⟨next, rfl⟩
      | _ => cases hSending
  | _ => cases hSending

/-- The arguments which the `http` function gets. -/
theorem callArgs_hello :
    callRuntime.callArgs (Sample.workflow [] []) payloadCall (payloadContext "hello") =
      some [("body", .string "hello"), ("endpoint", .string "https://example.com"),
        ("method", .string "POST")] := by decide +kernel

/-- A field without an expression reaches the request as it is, so the call of the sample sends the
text it was given. -/
theorem evaluatedOnce_hello :
    ∃ sent : HttpRequest, sent.body = some (.string "hello") ∧
      CallEvaluatedOnce callRuntime sampleLanguage (Sample.workflow [] []) payloadCall
        (payloadContext "hello") sent := by
  have hSending : sending (payloadTurn "hello").1 =
      some { method := "POST", uri := "https://example.com", headers := [], query := none
             body := some (.string "hello") } := by decide +kernel
  obtain ⟨next, hNext⟩ := exists_of_sending hSending
  have hSent : payloadTurn "hello" = (_, (payloadTurn "hello").2) := Prod.ext hNext rfl
  refine ⟨_, rfl, (taskCall_evaluatedOnce_iff rfl hSent).mpr ⟨?_, ?_⟩⟩
  · intro args hArgs key value _ hValue
    rw [callArgs_hello] at hArgs
    cases hArgs
    obtain ⟨before, after, hSplit, _⟩ := List.lookup_eq_some_iff.mp hValue
    have hMem : (key, value) ∈ before ++ (key, value) :: after :=
      List.mem_append_right _ List.mem_cons_self
    rw [← hSplit] at hMem
    revert hMem
    simp only [List.mem_cons, Prod.mk.injEq, List.not_mem_nil, or_false, Plain]
    rintro (⟨rfl, rfl⟩ | ⟨rfl, rfl⟩ | ⟨rfl, rfl⟩) <;> decide +kernel
  · intro args _ hData
    cases hData

/-- A field that is an expression is evaluated: the call sends a secret. -/
theorem payload_secret_not_evaluatedOnce :
    ∃ sent next τ, payloadTurn "$\x7b $secrets.token \x7d" =
        (@Program.act engineSig _ (.send sent) next, τ) ∧ sent.body = some (.string "s3cret") ∧
      ¬ CallEvaluatedOnce callRuntime sampleLanguage (Sample.workflow [] []) payloadCall
        (payloadContext "$\x7b $secrets.token \x7d") sent := by
  have hSending : sending (payloadTurn "$\x7b $secrets.token \x7d").1 =
      some { method := "POST", uri := "https://example.com", headers := [], query := none
             body := some (.string "s3cret") } := by decide +kernel
  obtain ⟨next, hNext⟩ := exists_of_sending hSending
  refine ⟨_, next, _, Prod.ext hNext rfl, rfl, ?_⟩
  rintro ⟨args, hArgs, _, unparsed⟩
  have hBody : (callRuntime.callArgs (Sample.workflow [] []) payloadCall
      (payloadContext "$\x7b $secrets.token \x7d")).bind (·.lookup "body") =
        some (.string "$\x7b $secrets.token \x7d") := by decide +kernel
  rw [Option.mem_def.mp hArgs] at hBody
  have hPlain := unparsed "body" _ rfl hBody _ (by decide +kernel : "$\x7b $secrets.token \x7d" ∈ _)
  revert hPlain
  rw [JqEngine.prepare_eq_plain_iff]
  decide +kernel

end OwsRuntime
