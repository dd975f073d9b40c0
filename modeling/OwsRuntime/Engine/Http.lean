import OwsRuntime.Engine.Context

/-! The bundled `http` function: how it resolves the arguments of a call into a
request, under the network policy, and a response into a result. -/
namespace OwsRuntime

/-- Replaces every occurrence of a pattern, from left to right. The first
argument bounds the length of the text. -/
def replaceAll (pattern replacement : List Char) : Nat → List Char → List Char
  | 0, text => text
  | _ + 1, [] => []
  | fuel + 1, c :: rest =>
      if pattern.isPrefixOf (c :: rest) then
        replacement ++ replaceAll pattern replacement fuel ((c :: rest).drop pattern.length)
      else c :: replaceAll pattern replacement fuel rest

namespace RuntimeInner

variable (env : RuntimeInner)

/-- Evaluates the expressions of a string. -/
def interpolate (ctx : ExpressionContext) (s : String) : Except WorkflowError Value :=
  (env.expression.evaluateInterpolation s ctx.input ctx.asVariableMap).mapError
    (toExpressionError · none)

/-- `eval_interpolation`, as the invoker calls it. -/
def resolveLeaf (ctx : ExpressionContext) : Value → Except WorkflowError Value
  | .string s => env.interpolate ctx s
  | other => .ok other

/-- The loop of `expand_uri_template` over the original text, from a position
in it. Replacements are made in the text so far, `out`. -/
def expandFrom (input : Option Value) : Nat → List Char → List Char → List Char
  | 0, _, out => out
  | _ + 1, [], out => out
  | fuel + 1, c :: rest, out =>
      if c = '\x7b' ∧ '\x7d' ∈ rest then
        let name := rest.takeWhile (· ≠ '\x7d')
        let next := (rest.dropWhile (· ≠ '\x7d')).drop 1
        match input.bind (·.get? (String.ofList name)) with
        | some v =>
            expandFrom input fuel next
              (replaceAll ('\x7b' :: name ++ ['\x7d']) (env.textOf v).toList (out.length + 1) out)
        | none => expandFrom input fuel next out
      else expandFrom input fuel rest out

def expandUriTemplate (uri : String) (workflow : Value) : String :=
  String.ofList (env.expandFrom (workflow.get? "input") (uri.length + 1) uri.toList uri.toList)

/-- The text of an endpoint, and its authentication. -/
def endpointParts : Value → Except WorkflowError (String × Option Value)
  | .string s => .ok (s, none)
  | .object map =>
      match (map.lookup "uri").bind Value.asStr with
      | some uri => .ok (uri, map.lookup "authentication")
      | none => .error (semanticError "endpoint object requires a `uri`")
  | _ => .error (semanticError "http endpoint must be a string or an object")

/-- The endpoint before its `{var}` templates are expanded. -/
def interpolateEndpoint (ctx : ExpressionContext) (raw : String) : Except WorkflowError String := do
  let interpolated ← env.interpolate ctx raw
  return interpolated.asStr.getD raw

def resolveEndpoint (ctx : ExpressionContext) (endpoint : Value) :
    Except WorkflowError (String × Option Value) := do
  let (raw, auth) ← endpointParts endpoint
  let uri ← env.interpolateEndpoint ctx raw
  return (env.expandUriTemplate uri (ctx.workflow.getD .null), auth)

def resolveFields (ctx : ExpressionContext) : Map → Except WorkflowError (List (String × String))
  | [] => .ok []
  | (k, v) :: rest => do
      let resolved ← env.resolveLeaf ctx v
      return (k, env.textOf resolved) :: (← resolveFields ctx rest)

def resolveHeaders (ctx : ExpressionContext) :
    Option Value → Except WorkflowError (List (String × String))
  | some (.object map) => env.resolveFields ctx map
  | _ => .ok []

def resolveQuery (ctx : ExpressionContext) :
    Option Value → Except WorkflowError (Option (List (String × String)))
  | some (.object map) => (env.resolveFields ctx map).map some
  | _ => .ok none

mutual

/-- `interpolate_value` of the invoker: every string within a value. -/
def resolveValue (ctx : ExpressionContext) : Value → Except WorkflowError Value
  | .object entries => (resolveEntries ctx entries).map .object
  | .array items => (resolveItems ctx items).map .array
  | value => env.resolveLeaf ctx value

def resolveItems (ctx : ExpressionContext) : List Value → Except WorkflowError (List Value)
  | [] => .ok []
  | item :: rest => return (← resolveValue ctx item) :: (← resolveItems ctx rest)

def resolveEntries (ctx : ExpressionContext) :
    List (String × Value) → Except WorkflowError (List (String × Value))
  | [] => .ok []
  | (k, v) :: rest => return (k, ← resolveValue ctx v) :: (← resolveEntries ctx rest)

end

def resolveBody (ctx : ExpressionContext) : Option Value → Except WorkflowError (Option Value)
  | some body => (env.resolveValue ctx body).map some
  | none => .ok none

def resolveOptionalStr (ctx : ExpressionContext) : Option Value → Except WorkflowError String
  | some v => (env.resolveLeaf ctx v).map env.textOf
  | none => .ok ""

/-- The scheme of an authentication, with its fields. -/
inductive AuthScheme where
  | basic (fields : Map)
  | bearer (fields : Map)

def authScheme : Option Value → Option AuthScheme
  | some (.object map) =>
      match map.lookup "basic", map.lookup "bearer" with
      | some (.object fields), _ => some (.basic fields)
      | _, some (.object fields) => some (.bearer fields)
      | _, _ => none
  | _ => none

/-- Adds the authorization header of an endpoint's authentication. -/
def applyAuth (ctx : ExpressionContext) (auth : Option Value) (headers : List (String × String)) :
    Except WorkflowError (List (String × String)) :=
  match authScheme auth with
  | some (.basic fields) => do
      let username ← env.resolveOptionalStr ctx (fields.lookup "username")
      let password ← env.resolveOptionalStr ctx (fields.lookup "password")
      let token := env.encodeBase64 (username ++ ":" ++ password).toUTF8.data.toList
      return Map.insert "authorization" ("Basic " ++ token) headers
  | some (.bearer fields) => do
      let token ← env.resolveOptionalStr ctx (fields.lookup "token")
      return Map.insert "authorization" ("Bearer " ++ token) headers
  | none => .ok headers

def enforceNetworkPolicy (uri : String) : Except WorkflowError Unit :=
  match env.parseUrl uri with
  | .error e => .error (semanticError ("invalid endpoint uri `" ++ uri ++ "`: " ++ e))
  | .ok (scheme, host) =>
      if !env.policy.schemeAllowed scheme then
        .error (policyError ("network access to scheme `" ++ scheme ++ "` is denied by policy"))
      else if !env.policy.hostAllowed (host.getD "") then
        .error (policyError ("network access to host `" ++ host.getD "" ++ "` is denied by policy"))
      else .ok ()

def methodArg (args : Map) : Except WorkflowError String :=
  match (args.lookup "method").bind Value.asStr with
  | some method => .ok (env.toUppercase method)
  | none => .error (semanticError "http call requires a `method`")

def endpointArg (args : Map) : Except WorkflowError Value :=
  match args.lookup "endpoint" with
  | some endpoint => .ok endpoint
  | none => .error (semanticError "http call requires an `endpoint`")

/-- The request which the invoker sends for a call. -/
def httpRequest (req : FunctionRequest) : Except WorkflowError HttpRequest := do
  let method ← env.methodArg req.args
  let endpoint ← endpointArg req.args
  let (uri, auth) ← env.resolveEndpoint req.context endpoint
  env.enforceNetworkPolicy uri
  let headers ← env.resolveHeaders req.context (req.args.lookup "headers")
  let headers ← env.applyAuth req.context auth headers
  let body ← env.resolveBody req.context (req.args.lookup "body")
  let query ← env.resolveQuery req.context (req.args.lookup "query")
  return { method := if env.isHttpMethod method then method else "GET", uri, headers, query, body }

def containsJson (contentType : String) : Bool :=
  contentType.toList.tails.any fun tail => "json".toList.isPrefixOf tail

def deserializeBody (bytes : List UInt8) (contentType : String) : Option Value :=
  if containsJson contentType then env.parseJson bytes
  else (env.parseUtf8 bytes).map Value.string

def headersValue (headers : List (String × String)) : Value :=
  .object (Map.extend [] (headers.map fun h => (h.1, Value.string h.2)))

/-- The result of a call, from the reply to its request. -/
def httpResult (args : Map) (request : HttpRequest) (reply : Except String HttpResponse) :
    Except WorkflowError Value :=
  match reply with
  | .error e => .error (communicationError 500 ("http request failed: " ++ e))
  | .ok response =>
      let redirect := match args.lookup "redirect" with
        | some (.bool b) => b
        | _ => false
      let accepted := 200 ≤ response.status ∧ response.status < (if redirect then 400 else 300)
      if ¬ accepted then
        .error (communicationError response.status
          ("http request returned status " ++ toString response.status))
      else
        let content := env.deserializeBody response.body
          ((response.headers.lookup "content-type").getD "")
        let output := ((args.lookup "output").bind Value.asStr).getD "content"
        if output = "raw" then
          .ok (.object [("content", .string (env.encodeBase64 response.body))])
        else if output = "response" then
          .ok (.object [("content", content.getD .null),
            ("headers", headersValue response.headers),
            ("request", .object [("headers", headersValue request.headers),
              ("method", .string request.method), ("uri", .string request.uri)]),
            ("statusCode", Value.ofNat response.status)])
        else .ok (content.getD .null)

end RuntimeInner

/-- Invokes a function. The bundled one evaluates the strings of its arguments
again before it sends its request. -/
def invokeFunction (env : RuntimeInner) (invoker : FunctionInvoker) (req : FunctionRequest) :
    Run Value :=
  match invoker with
  | .other id => ExceptT.mk (ask (.invoke id req))
  | .http => do
      note (.evaluates .arguments req.context.input req.context.asVariableMap)
      let request ← Run.ofExcept (env.httpRequest req)
      let reply ← ask (.send request)
      Run.ofExcept (env.httpResult req.args request reply)

end OwsRuntime
