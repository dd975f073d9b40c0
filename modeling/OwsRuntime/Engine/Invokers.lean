import Mathlib.Data.List.DropRight
import OwsRuntime.Engine.Http

/-! The bundled function invokers, over a network in which the servers answer as
they please. A client follows the redirects with which it is answered, unless it was
built not to. -/
namespace OwsRuntime

/-- Why a request is sent: the call itself has a URI, the document of the call
describes an operation, or a server has answered with a redirect. -/
inductive Origin where
  | call
  | operation
  | redirect
deriving DecidableEq, Repr

/-- A request on the network. -/
structure Sent where
  origin : Origin
  request : HttpRequest
deriving DecidableEq, Repr

/-- What lies outside of the invokers: the answer of the servers to a request, which
may depend on all those before it; the request with which a client follows a
redirect; the order in which a hash map is iterated; and the event services, which a
call over a broker uses in place of the network. -/
structure Surroundings where
  answer : List Sent → HttpRequest → Except String HttpResponse
  redirected : HttpRequest → HttpResponse → Option HttpRequest
  iteration : Map → Map
  broker : FunctionRequest → Except WorkflowError Value

/-- A computation over the network, which remembers the requests sent so far. -/
abbrev Net := StateM (List Sent)

/-- One that may fail. -/
abbrev Call (α : Type) := ExceptT WorkflowError Net α

/-- A client is built with `Policy::none`, or follows redirects by default. -/
structure Client where
  followsRedirects : Bool
deriving DecidableEq, Repr

namespace Client

def default : Client := { followsRedirects := true }

/-- The redirects which a client follows before it gives up. -/
def maxRedirects : Nat := 10

end Client

def Call.ofExcept {α : Type} (result : Except WorkflowError α) : Call α := ExceptT.mk (pure result)

/-- Sends one request. -/
def exchange (net : Surroundings) (origin : Origin) (request : HttpRequest) :
    Net (Except String HttpResponse) := do
  let sent ← get
  set (sent ++ [{ origin, request : Sent }])
  return net.answer sent request

/-- Follows the redirects with which a request is answered. -/
def followRedirects (net : Surroundings) :
    Nat → HttpRequest → HttpResponse → Net (Except String HttpResponse)
  | limit, request, response =>
      match net.redirected request response, limit with
      | none, _ => return .ok response
      | some _, 0 => return .error "too many redirects"
      | some next, limit + 1 => do
          match ← exchange net .redirect next with
          | .ok response => followRedirects net limit next response
          | .error e => return .error e

/-- Sends a request with a client. -/
def Client.send (client : Client) (net : Surroundings) (origin : Origin) (request : HttpRequest) :
    Net (Except String HttpResponse) := do
  match ← exchange net origin request with
  | .ok response =>
      if client.followsRedirects then followRedirects net Client.maxRedirects request response
      else return .ok response
  | .error e => return .error e

/-- The reply to a request, with the error of a failed one in the caller's words. -/
def sendOr (client : Client) (net : Surroundings) (origin : Origin) (failure : String)
    (request : HttpRequest) : Call HttpResponse := do
  match ← (client.send net origin request : Net _) with
  | .ok response => return response
  | .error e => throw (communicationError 500 (failure ++ e))

def getRequest (uri : String) : HttpRequest :=
  { method := "GET", uri, headers := [], query := none, body := none }

def containsText (text pattern : List Char) : Bool :=
  text.tails.any fun tail => pattern.isPrefixOf tail

/-- A parameter of a path, in braces. -/
def template (name : String) : List Char := '\x7b' :: name.toList ++ ['\x7d']

def trimEndSlashes (s : String) : String := String.ofList (s.toList.rdropWhile (· = '/'))

def isSuccess (status : Nat) : Bool := 200 ≤ status ∧ status < 300

def outputMode (args : Map) : String := ((args.lookup "output").bind Value.asStr).getD "content"

/-- The HTTP methods of an OpenAPI path, in the order in which they are looked up. -/
def operationMethods : List String := ["get", "post", "put", "patch", "delete", "options", "head"]

/-- Whether a method of an OpenAPI path is the operation. -/
def isOperation (item : Value) (operationId method : String) : Bool :=
  ((item.get? method).bind (·.get? "operationId")).bind Value.asStr = some operationId

/-- The method and the path of an operation. A path that is no object ends the search. -/
def findOperationIn (operationId : String) : Map → Option (String × String)
  | [] => none
  | (path, item) :: rest =>
      match item with
      | .object _ =>
          match operationMethods.find? (isOperation item operationId) with
          | some method => some (method, path)
          | none => findOperationIn operationId rest
      | _ => none

def findOperation (spec : Value) (operationId : String) : Option (String × String) :=
  match spec.get? "paths" with
  | some (.object paths) => findOperationIn operationId paths
  | _ => none

/-- The first element of an array. -/
def firstItem : Value → Option Value
  | .array (item :: _) => some item
  | _ => none

/-- The server of an OpenAPI document, or else the place of the document. -/
def serverUrl (spec : Value) (docUri : String) : String :=
  ((((spec.get? "servers").bind firstItem).bind (·.get? "url")).bind Value.asStr).getD docUri

/-- Puts the parameters of a path in their places. -/
def expandPath (url : List Char) : List (String × String) → List Char
  | [] => url
  | (name, value) :: rest =>
      expandPath (replaceAll (template name) value.toList (url.length + 1) url) rest

/-- The URI of the document of an OpenAPI call. -/
def documentUri (args : Map) : Except WorkflowError String :=
  match (args.lookup "document").bind (·.get? "endpoint") with
  | none => .error (semanticError "openapi call requires a document endpoint")
  | some (.string s) => .ok s
  | some (.object map) =>
      match (map.lookup "uri").bind Value.asStr with
      | some uri => .ok uri
      | none => .error (semanticError "openapi document endpoint requires a uri")
  | some _ => .error (semanticError "openapi document endpoint must be a string or object")

def operationIdArg (args : Map) : Except WorkflowError String :=
  match (args.lookup "operationId").bind Value.asStr with
  | some id => .ok id
  | none => .error (semanticError "openapi call requires an operationId")

namespace RuntimeInner

variable (env : RuntimeInner) (net : Surroundings)

/-- `HttpServiceInvoker`. Its client does not follow redirects. -/
def invokeHttp (req : FunctionRequest) : Call Value := do
  let request ← Call.ofExcept (env.httpRequest req)
  let reply ← (Client.send { followsRedirects := false } net .call request : Net _)
  Call.ofExcept (env.httpResult req.args request reply)

/-- The parameters of an OpenAPI call. Strings among them are evaluated. -/
def interpolateParams (ctx : ExpressionContext) (args : Map) : Except WorkflowError Map :=
  match args.lookup "parameters" with
  | some (.object params) => params.mapM fun entry => do
      return (entry.1, ← env.resolveLeaf ctx entry.2)
  | _ => .ok []

/-- The request of an OpenAPI operation, from the document of the call. -/
def operationRequest (req : FunctionRequest) (docUri operationId : String) (spec : Value) :
    Except WorkflowError HttpRequest :=
  match findOperation spec operationId with
  | none => .error (semanticError ("operationId `" ++ operationId ++ "` not found in document"))
  | some (method, path) => do
      let params ← env.interpolateParams req.context req.args
      let texts := (net.iteration params).map fun entry => (entry.1, env.textOf entry.2)
      let (inPath, inQuery) := texts.partition fun entry =>
        containsText path.toList (template entry.1)
      let url := expandPath (trimEndSlashes (serverUrl spec docUri) ++ path).toList inPath
      return { method := env.toUppercase method, uri := String.ofList url, headers := []
               query := if inQuery.isEmpty then none else some inQuery, body := none }

/-- The result of an OpenAPI call. -/
def operationResult (args : Map) (request : HttpRequest) (response : HttpResponse) :
    Except WorkflowError Value :=
  if isSuccess response.status then
    let content := env.deserializeBody response.body
      ((response.headers.lookup "content-type").getD "")
    if outputMode args = "response" then
      .ok (.object [("content", content.getD .null), ("headers", headersValue response.headers),
        ("request", .object [("headers", headersValue response.headers),
          ("method", .string request.method), ("uri", .string request.uri)]),
        ("statusCode", Value.ofNat response.status)])
    else if outputMode args = "raw" then
      .ok (.object [("content", .string (env.encodeBase64 response.body))])
    else .ok (content.getD .null)
  else .error (communicationError response.status
    ("openapi call returned status " ++ toString response.status))

/-- A document fetched from the network. -/
def jsonDocument (kind : String) (response : HttpResponse) : Except WorkflowError Value :=
  match env.parseJson response.body with
  | some document => .ok document
  | none => .error (communicationError 500 ("failed to parse " ++ kind ++ " document: "))

/-- `OpenApiInvoker`. Only the URI of the document is checked. -/
def invokeOpenApi (req : FunctionRequest) : Call Value := do
  let docUri ← Call.ofExcept (documentUri req.args)
  let operationId ← Call.ofExcept (operationIdArg req.args)
  Call.ofExcept (env.enforceNetworkPolicy docUri)
  let fetched ← sendOr .default net .call "failed to fetch openapi document: " (getRequest docUri)
  let spec ← Call.ofExcept (env.jsonDocument "openapi" fetched)
  let request ← Call.ofExcept (env.operationRequest net req docUri operationId spec)
  let response ← sendOr .default net .operation "openapi call failed: " request
  Call.ofExcept (env.operationResult req.args request response)

/-- `send_json_request`. -/
def sendJsonRequest (uri : String) (headers : List (String × String)) (body : Value) :
    Call HttpResponse :=
  sendOr .default net .call ("request to `" ++ uri ++ "` failed: ")
    { method := "POST", uri, headers, query := none, body := some body }

def shapeResponse (uri : String) (headers : List (String × String)) (response : HttpResponse)
    (output : String) : Value :=
  let content := env.deserializeBody response.body
    ((response.headers.lookup "content-type").getD "")
  if output = "response" then
    .object [("content", content.getD .null), ("headers", headersValue response.headers),
      ("request", .object [("headers", headersValue headers), ("method", .string "post"),
        ("uri", .string uri)]), ("statusCode", Value.ofNat response.status)]
  else content.getD .null

def requiredEndpoint (kind : String) (args : Map) : Except WorkflowError Value :=
  match args.lookup "endpoint" with
  | some endpoint => .ok endpoint
  | none => .error (semanticError (kind ++ " call requires an `endpoint`"))

/-- The endpoint and the headers of a call that sends JSON, once its URI is checked. -/
def jsonTarget (kind : String) (req : FunctionRequest) :
    Except WorkflowError (String × List (String × String)) := do
  let endpoint ← requiredEndpoint kind req.args
  let (uri, auth) ← env.resolveEndpoint req.context endpoint
  env.enforceNetworkPolicy uri
  let headers ← env.resolveHeaders req.context (req.args.lookup "headers")
  let headers ← env.applyAuth req.context auth (Map.insert "content-type" "application/json" headers)
  return (uri, headers)

/-- A JSON-RPC request. -/
def jsonRpc (method : String) (params : Value) : Value :=
  .object [("id", .ofNat 1), ("jsonrpc", .string "2.0"), ("method", .string method),
    ("params", params)]

/-- The result in a JSON-RPC response. -/
def jsonRpcResult (kind : String) (response : HttpResponse) : Except WorkflowError Value :=
  match env.parseJson response.body with
  | none => .error (communicationError 500 ("invalid " ++ kind ++ " json-rpc response: "))
  | some envelope =>
      let error := (envelope.get? "error").getD .null
      if error ≠ .null then
        .error (communicationError response.status
          (kind ++ " json-rpc error: " ++ error.display env.formatFloat))
      else .ok ((envelope.get? "result").getD .null)

/-- Fails when the status of a response is no success. -/
def expectSuccess (failure : String) (response : HttpResponse) : Except WorkflowError Unit :=
  if isSuccess response.status then .ok ()
  else .error (communicationError response.status
    (failure ++ " returned status " ++ toString response.status))

/-- The texts in the content of a tool's result. -/
def toolTexts (items : List Value) : List String :=
  items.filterMap fun item =>
    if (item.get? "type").bind Value.asStr = some "text" then (item.get? "text").bind Value.asStr
    else none

/-- The joined text of a tool's result, or the result itself. -/
def toolResult (result : Value) : Value :=
  match result.get? "content" with
  | some (.array items) =>
      if (toolTexts items).isEmpty then result else .string ("\n".intercalate (toolTexts items))
  | _ => result

def toolArg (args : Map) : Except WorkflowError String :=
  match (args.lookup "tool").bind Value.asStr with
  | some tool => .ok tool
  | none => .error (semanticError "mcp call requires a `tool`")

/-- `McpInvoker`. -/
def invokeMcp (req : FunctionRequest) : Call Value := do
  let tool ← Call.ofExcept (toolArg req.args)
  let arguments := (req.args.lookup "arguments").getD (.object [])
  let (uri, headers) ← Call.ofExcept (env.jsonTarget "mcp" req)
  let response ← sendJsonRequest net uri headers
    (jsonRpc "tools/call" (.object [("arguments", arguments), ("name", .string tool)]))
  Call.ofExcept (expectSuccess "mcp call" response)
  let result ← Call.ofExcept (env.jsonRpcResult "mcp" response)
  if outputMode req.args = "response" then
    return env.shapeResponse uri headers response "response"
  else return toolResult result

/-- `A2aInvoker`. -/
def invokeA2a (req : FunctionRequest) : Call Value := do
  let (uri, headers) ← Call.ofExcept (env.jsonTarget "a2a" req)
  let method := ((req.args.lookup "method").bind Value.asStr).getD "message/send"
  let params := ((req.args.lookup "params").or (req.args.lookup "message")).getD (.object [])
  let response ← sendJsonRequest net uri headers (jsonRpc method params)
  Call.ofExcept (expectSuccess "a2a call" response)
  let result ← Call.ofExcept (env.jsonRpcResult "a2a" response)
  if outputMode req.args = "response" then
    return env.shapeResponse uri headers response "response"
  else return result

/-- `GrpcInvoker`, which calls a gateway. -/
def invokeGrpc (req : FunctionRequest) : Call Value := do
  let (uri, headers) ← Call.ofExcept (env.jsonTarget "grpc" req)
  let response ← sendJsonRequest net uri headers ((req.args.lookup "message").getD .null)
  Call.ofExcept (expectSuccess "grpc call" response)
  return env.shapeResponse uri headers response (outputMode req.args)

/-- The document of an AsyncAPI call, fetched when it is given by its URI. -/
def asyncApiDocument : Value → Call Value
  | .string uri => do
      Call.ofExcept (env.enforceNetworkPolicy uri)
      let fetched ← sendOr .default net .call "failed to fetch asyncapi document: " (getRequest uri)
      Call.ofExcept (env.jsonDocument "asyncapi" fetched)
  | other => return other

/-- Where the document of an AsyncAPI call stands. -/
def documentArg (args : Map) : Except WorkflowError Value :=
  match (args.lookup "document").or (args.lookup "spec") with
  | none => .error (semanticError "asyncapi call requires a `document`")
  | some (.object map) => .ok ((map.lookup "endpoint").getD (.object map))
  | some other => .ok other

/-- An operation of an AsyncAPI channel: the channel, and its path. -/
structure AsyncApiTarget where
  channel : String
  path : String
deriving DecidableEq, Repr

/-- Whether a channel has an operation of this kind, with this id unless it is empty. -/
def hasOperation (channel : Value) (operationId kind : String) : Bool :=
  match channel.get? kind with
  | some op => operationId.isEmpty ||
      ((op.get? "operationId").bind Value.asStr).getD "" = operationId
  | none => false

def channelPath (channel : Value) : String :=
  ((((channel.get? "bindings").bind (·.get? "http")).bind (·.get? "path")).bind Value.asStr).getD ""

/-- `resolve_asyncapi_operation`. -/
def resolveAsyncApiOperation (operationId channelName : String) :
    Map → Except WorkflowError AsyncApiTarget
  | [] => .error (semanticError "asyncapi operation not found in document")
  | (name, channel) :: rest =>
      if (channelName.isEmpty || name = channelName) &&
          ["publish", "subscribe"].any (hasOperation channel operationId) then
        .ok { channel := name, path := channelPath channel }
      else resolveAsyncApiOperation operationId channelName rest

def asyncApiTarget (args : Map) (document : Value) : Except WorkflowError AsyncApiTarget :=
  match document.get? "channels" with
  | some (.object channels) =>
      resolveAsyncApiOperation (((args.lookup "operationId").bind Value.asStr).getD "")
        (((args.lookup "channel").bind Value.asStr).getD "") channels
  | _ => .error (semanticError "asyncapi document has no channels")

/-- Whether a call goes over a broker. -/
def wantsBroker (args : Map) : Bool :=
  ((args.lookup "transport").bind (·.get? "broker")).isSome || (args.lookup "broker").isSome

/-- The endpoint which a call gives itself, if any. -/
def endpointOverride (args : Map) : String :=
  match args.lookup "endpoint" with
  | some (.object map) => ((map.lookup "uri").bind Value.asStr).getD ""
  | some (.string s) => s
  | _ => ""

/-- The first server of a document that is reached by HTTP. -/
def httpServer (document : Value) : Option String :=
  match document.get? "servers" with
  | some (.object servers) => servers.findSome? fun server =>
      ((server.2.get? "url").bind Value.asStr).filter fun url =>
        "http".toList.isPrefixOf url.toList
  | _ => none

/-- The URI to which an AsyncAPI call publishes. -/
def publishUri (args : Map) (document : Value) (target : AsyncApiTarget) : String :=
  if (endpointOverride args).isEmpty then
    match httpServer document with
    | some url => trimEndSlashes url ++ target.path
    | none => String.ofList (target.channel.toList.dropWhile (· = '/')) ++ "/"
  else endpointOverride args

/-- Where an AsyncAPI call publishes, once its URI is checked. -/
def asyncApiEndpoint (req : FunctionRequest) (document : Value) (target : AsyncApiTarget) :
    Except WorkflowError (String × List (String × String)) := do
  let uri := publishUri req.args document target
  env.enforceNetworkPolicy uri
  let headers ← env.resolveHeaders req.context (req.args.lookup "headers")
  return (uri, Map.insert "content-type" "application/json" headers)

/-- `AsyncApiInvoker`. A call over a broker sends nothing but the request for its document. -/
def invokeAsyncApi (req : FunctionRequest) : Call Value := do
  let source ← Call.ofExcept (documentArg req.args)
  let document ← env.asyncApiDocument net source
  let target ← Call.ofExcept (asyncApiTarget req.args document)
  if wantsBroker req.args then Call.ofExcept (net.broker req)
  else
    let (uri, headers) ← Call.ofExcept (env.asyncApiEndpoint req document target)
    let response ← sendJsonRequest net uri headers
      ((req.args.lookup "message").getD (.object []))
    Call.ofExcept (expectSuccess "asyncapi publish" response)
    return env.shapeResponse uri headers response (outputMode req.args)

end RuntimeInner

/-- The invokers that are bundled with the runtime. -/
inductive BundledInvoker where
  | http
  | openapi
  | mcp
  | a2a
  | asyncapi
  | grpc
deriving DecidableEq, Repr

def BundledInvoker.invoke (env : RuntimeInner) (net : Surroundings) :
    BundledInvoker → FunctionRequest → Call Value
  | http, req => env.invokeHttp net req
  | openapi, req => env.invokeOpenApi net req
  | mcp, req => env.invokeMcp net req
  | a2a, req => env.invokeA2a net req
  | asyncapi, req => env.invokeAsyncApi net req
  | grpc, req => env.invokeGrpc net req

/-- The requests which a call sends, with the redirects that are followed. -/
def BundledInvoker.requests (env : RuntimeInner) (net : Surroundings) (invoker : BundledInvoker)
    (req : FunctionRequest) : List Sent :=
  ((invoker.invoke env net req).run.run []).2

end OwsRuntime
