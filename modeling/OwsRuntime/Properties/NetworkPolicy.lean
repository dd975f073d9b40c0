import OwsRuntime.Engine.Invokers
import OwsRuntime.Engine.Runs

/-! Which requests of the bundled invokers the network policy covers. An invoker
checks the URIs which it resolves itself, but not those to which its client is
redirected, nor the one which an OpenAPI document describes. -/
namespace OwsRuntime

/-- The network policy lets requests be sent to the URI. -/
def RuntimeInner.Accepts (env : RuntimeInner) (uri : String) : Prop :=
  env.enforceNetworkPolicy uri = .ok ()

/-- Every request goes where the network policy lets it go. -/
def Mediated (env : RuntimeInner) (sent : List Sent) : Prop :=
  ∀ s ∈ sent, env.Accepts s.request.uri

/-- The requests of an invoker which no check of its own comes before. -/
def BundledInvoker.Unchecked : BundledInvoker → Origin → Prop
  | http, _ => False
  | openapi, origin => origin ≠ .call
  | _, origin => origin = .redirect

section Sending

variable {α β : Type} {P : Sent → Prop} {net : Surroundings}

/-- A computation sends requests of this kind only. -/
def Sends (P : Sent → Prop) (p : Net α) : Prop :=
  ∀ log, ∃ more, (p.run log).2 = log ++ more ∧ ∀ s ∈ more, P s

theorem Sends.pure (a : α) : Sends P (Pure.pure a : Net α) := by
  intro log
  exact ⟨[], (List.append_nil log).symm, fun _ h => (by cases h)⟩

theorem Sends.bind {p : Net α} {f : α → Net β} (first : Sends P p) (second : ∀ a, Sends P (f a)) :
    Sends P (p >>= f) := by
  intro log
  obtain ⟨more, hFirst, hMore⟩ := first log
  obtain ⟨rest, hSecond, hRest⟩ := second (p.run log).1 (p.run log).2
  refine ⟨more ++ rest, ?_, ?_⟩
  · show ((f (p.run log).1).run (p.run log).2).2 = _
    rw [hSecond, hFirst, List.append_assoc]
  · intro s hMem
    exact (List.mem_append.mp hMem).elim (hMore s) (hRest s)

theorem exchange_sends {origin : Origin} {request : HttpRequest} (hSent : P ⟨origin, request⟩) :
    Sends P (exchange net origin request) := by
  intro log
  refine ⟨[⟨origin, request⟩], rfl, ?_⟩
  intro s hMem
  obtain rfl := List.mem_singleton.mp hMem
  exact hSent

/-- By induction on the redirects which the client still follows. -/
theorem followRedirects_sends (hRedirect : ∀ request, P ⟨.redirect, request⟩) (limit : Nat)
    (request : HttpRequest) (response : HttpResponse) :
    Sends P (followRedirects net limit request response) := by
  induction limit generalizing request response with
  | zero =>
      unfold followRedirects
      cases net.redirected request response <;> exact Sends.pure _
  | succ limit ih =>
      unfold followRedirects
      cases net.redirected request response with
      | none => exact Sends.pure _
      | some next =>
          apply Sends.bind (exchange_sends (hRedirect next))
          intro reply
          cases reply with
          | ok response => exact ih next response
          | error e => exact Sends.pure _

theorem Client.send_sends {client : Client} {origin : Origin} {request : HttpRequest}
    (hSent : P ⟨origin, request⟩)
    (hRedirect : client.followsRedirects = true → ∀ request, P ⟨.redirect, request⟩) :
    Sends P (client.send net origin request) := by
  apply Sends.bind (exchange_sends hSent)
  intro reply
  cases reply with
  | error e => exact Sends.pure _
  | ok response =>
      cases hFollows : client.followsRedirects with
      | false => exact Sends.pure _
      | true => exact followRedirects_sends (hRedirect hFollows) _ _ _

/-- A call sends requests of this kind only. -/
def CallSends (P : Sent → Prop) (p : Call α) : Prop := Sends P p.run

theorem CallSends.pure (a : α) : CallSends P (Pure.pure a : Call α) := Sends.pure _

theorem CallSends.ofExcept (result : Except WorkflowError α) : CallSends P (Call.ofExcept result) :=
  Sends.pure _

theorem CallSends.bind {p : Call α} {f : α → Call β} (first : CallSends P p)
    (second : ∀ a, CallSends P (f a)) : CallSends P (p >>= f) := by
  apply Sends.bind (f := ExceptT.bindCont f) first
  intro result
  cases result with
  | ok a => exact second a
  | error e => exact Sends.pure _

/-- What follows a check may rely on its result. -/
theorem CallSends.check {result : Except WorkflowError α} {f : α → Call β}
    (second : ∀ a, result = .ok a → CallSends P (f a)) :
    CallSends P (Call.ofExcept result >>= f) := by
  cases hResult : result with
  | ok a => exact second a hResult
  | error e => exact Sends.pure _

theorem CallSends.lift {p : Net α} {f : α → Call β} (first : Sends P p)
    (second : ∀ a, CallSends P (f a)) : CallSends P ((p : Call α) >>= f) :=
  Sends.bind first second

theorem sendOr_sends {client : Client} {origin : Origin} {failure : String} {request : HttpRequest}
    (hSent : P ⟨origin, request⟩) (hRedirect : ∀ request, P ⟨.redirect, request⟩) :
    CallSends P (sendOr client net origin failure request) := by
  apply CallSends.lift (Client.send_sends hSent fun _ => hRedirect)
  intro reply
  cases reply <;> exact Sends.pure _

end Sending

section Checks

variable {env : RuntimeInner} {req : FunctionRequest} {uri : String}
  {headers : List (String × String)}

theorem httpRequest_accepts {request : HttpRequest} (hRequest : env.httpRequest req = .ok request) :
    env.Accepts request.uri := by
  unfold RuntimeInner.httpRequest at hRequest
  obtain ⟨method, _, hRequest⟩ := bind_eq_ok hRequest
  obtain ⟨endpoint, _, hRequest⟩ := bind_eq_ok hRequest
  obtain ⟨⟨uri, auth⟩, _, hRequest⟩ := bind_eq_ok hRequest
  obtain ⟨_, hPolicy, hRequest⟩ := bind_eq_ok hRequest
  obtain ⟨_, _, hRequest⟩ := bind_eq_ok hRequest
  obtain ⟨_, _, hRequest⟩ := bind_eq_ok hRequest
  obtain ⟨_, _, hRequest⟩ := bind_eq_ok hRequest
  obtain ⟨_, _, hRequest⟩ := bind_eq_ok hRequest
  cases hRequest
  exact hPolicy

theorem jsonTarget_accepts {kind : String} (hTarget : env.jsonTarget kind req = .ok (uri, headers)) :
    env.Accepts uri := by
  unfold RuntimeInner.jsonTarget at hTarget
  obtain ⟨endpoint, _, hTarget⟩ := bind_eq_ok hTarget
  obtain ⟨⟨resolved, auth⟩, _, hTarget⟩ := bind_eq_ok hTarget
  obtain ⟨_, hPolicy, hTarget⟩ := bind_eq_ok hTarget
  obtain ⟨_, _, hTarget⟩ := bind_eq_ok hTarget
  obtain ⟨_, _, hTarget⟩ := bind_eq_ok hTarget
  cases hTarget
  exact hPolicy

theorem asyncApiEndpoint_accepts {document : Value} {target : RuntimeInner.AsyncApiTarget}
    (hEndpoint : env.asyncApiEndpoint req document target = .ok (uri, headers)) :
    env.Accepts uri := by
  unfold RuntimeInner.asyncApiEndpoint at hEndpoint
  obtain ⟨_, hPolicy, hEndpoint⟩ := bind_eq_ok hEndpoint
  obtain ⟨_, _, hEndpoint⟩ := bind_eq_ok hEndpoint
  cases hEndpoint
  exact hPolicy

end Checks

section Invokers

variable {env : RuntimeInner} {net : Surroundings} {req : FunctionRequest} {P : Sent → Prop}

theorem invokeHttp_sends (hCall : ∀ request, env.Accepts request.uri → P ⟨.call, request⟩) :
    CallSends P (env.invokeHttp net req) := by
  apply CallSends.check
  intro request hRequest
  apply CallSends.lift
  · apply Client.send_sends (hCall request (httpRequest_accepts hRequest))
    intro hFollows
    cases hFollows
  · intro reply
    exact CallSends.ofExcept _

/-- An OpenAPI call sends a request that the policy accepts for its document, then the operation
that the document describes, and what the redirects ask for. -/
theorem invokeOpenApi_sends (hCall : ∀ request, env.Accepts request.uri → P ⟨.call, request⟩)
    (hOperation : ∀ request, P ⟨.operation, request⟩) (hRedirect : ∀ request, P ⟨.redirect, request⟩) :
    CallSends P (env.invokeOpenApi net req) := by
  apply CallSends.check
  intro docUri _
  apply CallSends.check
  intro operationId _
  apply CallSends.check
  intro _ hPolicy
  apply CallSends.bind (sendOr_sends (hCall (getRequest docUri) hPolicy) hRedirect)
  intro fetched
  apply CallSends.check
  intro spec _
  apply CallSends.check
  intro request _
  apply CallSends.bind (sendOr_sends (hOperation request) hRedirect)
  intro response
  exact CallSends.ofExcept _

theorem sendJsonRequest_sends (hCall : ∀ request, env.Accepts request.uri → P ⟨.call, request⟩)
    (hRedirect : ∀ request, P ⟨.redirect, request⟩) {uri : String} (hPolicy : env.Accepts uri)
    (headers : List (String × String)) (body : Value) :
    CallSends P (RuntimeInner.sendJsonRequest net uri headers body) := by
  apply sendOr_sends _ hRedirect
  exact hCall { method := "POST", uri, headers, query := none, body := some body } hPolicy

theorem invokeMcp_sends (hCall : ∀ request, env.Accepts request.uri → P ⟨.call, request⟩)
    (hRedirect : ∀ request, P ⟨.redirect, request⟩) : CallSends P (env.invokeMcp net req) := by
  apply CallSends.check
  intro tool _
  apply CallSends.check
  rintro ⟨uri, headers⟩ hTarget
  apply CallSends.bind (sendJsonRequest_sends hCall hRedirect (jsonTarget_accepts hTarget) _ _)
  intro response
  apply CallSends.check
  intro _ _
  apply CallSends.check
  intro result _
  split <;> exact CallSends.pure _

theorem invokeA2a_sends (hCall : ∀ request, env.Accepts request.uri → P ⟨.call, request⟩)
    (hRedirect : ∀ request, P ⟨.redirect, request⟩) : CallSends P (env.invokeA2a net req) := by
  apply CallSends.check
  rintro ⟨uri, headers⟩ hTarget
  apply CallSends.bind (sendJsonRequest_sends hCall hRedirect (jsonTarget_accepts hTarget) _ _)
  intro response
  apply CallSends.check
  intro _ _
  apply CallSends.check
  intro result _
  split <;> exact CallSends.pure _

theorem invokeGrpc_sends (hCall : ∀ request, env.Accepts request.uri → P ⟨.call, request⟩)
    (hRedirect : ∀ request, P ⟨.redirect, request⟩) : CallSends P (env.invokeGrpc net req) := by
  apply CallSends.check
  rintro ⟨uri, headers⟩ hTarget
  apply CallSends.bind (sendJsonRequest_sends hCall hRedirect (jsonTarget_accepts hTarget) _ _)
  intro response
  apply CallSends.check
  intro _ _
  exact CallSends.pure _

theorem asyncApiDocument_sends (hCall : ∀ request, env.Accepts request.uri → P ⟨.call, request⟩)
    (hRedirect : ∀ request, P ⟨.redirect, request⟩) (source : Value) :
    CallSends P (env.asyncApiDocument net source) := by
  cases source with
  | string uri =>
      apply CallSends.check
      intro _ hPolicy
      apply CallSends.bind (sendOr_sends (hCall (getRequest uri) hPolicy) hRedirect)
      intro fetched
      exact CallSends.ofExcept _
  | _ => exact CallSends.pure _

/-- An AsyncAPI call sends one request that the policy accepts, and what the redirects ask for. -/
theorem invokeAsyncApi_sends (hCall : ∀ request, env.Accepts request.uri → P ⟨.call, request⟩)
    (hRedirect : ∀ request, P ⟨.redirect, request⟩) : CallSends P (env.invokeAsyncApi net req) := by
  apply CallSends.check
  intro source _
  apply CallSends.bind (asyncApiDocument_sends hCall hRedirect source)
  intro document
  apply CallSends.check
  intro target _
  split
  · exact CallSends.ofExcept _
  · apply CallSends.check
    rintro ⟨uri, headers⟩ hEndpoint
    apply CallSends.bind
      (sendJsonRequest_sends hCall hRedirect (asyncApiEndpoint_accepts hEndpoint) _ _)
    intro response
    apply CallSends.check
    intro _ _
    exact CallSends.pure _

/-- An invoker sends requests which it has checked, and those which it leaves unchecked. -/
theorem BundledInvoker.invoke_sends (invoker : BundledInvoker) (env : RuntimeInner)
    (net : Surroundings) (req : FunctionRequest) :
    CallSends (fun s => invoker.Unchecked s.origin ∨ env.Accepts s.request.uri)
      (invoker.invoke env net req) := by
  have hCall : ∀ request : HttpRequest, env.Accepts request.uri →
      invoker.Unchecked .call ∨ env.Accepts request.uri := fun _ => Or.inr
  cases invoker with
  | http => exact invokeHttp_sends hCall
  | openapi =>
      apply invokeOpenApi_sends hCall
      · intro _
        exact Or.inl fun h => by cases h
      · intro _
        exact Or.inl fun h => by cases h
  | mcp => exact invokeMcp_sends hCall fun _ => Or.inl rfl
  | a2a => exact invokeA2a_sends hCall fun _ => Or.inl rfl
  | asyncapi => exact invokeAsyncApi_sends hCall fun _ => Or.inl rfl
  | grpc => exact invokeGrpc_sends hCall fun _ => Or.inl rfl

/-- Whatever the servers answer, every request of a call goes where the network
policy lets it go if and only if the redirects which its client follows do, and for
an OpenAPI call the operation that its document describes. -/
theorem BundledInvoker.mediated_iff (env : RuntimeInner) (net : Surroundings)
    (invoker : BundledInvoker) (req : FunctionRequest) :
    Mediated env (invoker.requests env net req) ↔
      ∀ s ∈ invoker.requests env net req, invoker.Unchecked s.origin →
        env.Accepts s.request.uri := by
  constructor
  · intro mediated s hMem _
    exact mediated s hMem
  · intro hUnchecked s hMem
    obtain ⟨more, hRequests, hMore⟩ := invoker.invoke_sends env net req []
    have hSent : s ∈ more := by
      have hEq : invoker.requests env net req = more := hRequests
      rw [← hEq]
      exact hMem
    exact (hMore s hSent).elim (hUnchecked s hMem) id

end Invokers

/-- A runtime that may reach one host only. Its URLs are a scheme and a host, with
anything after a slash. -/
def guardedRuntime : RuntimeInner :=
  { Sample.runtime with
    policy := { RuntimePolicy.default with allowNetwork := true, allowedHosts := ["docs.example"] }
    parseUrl := fun url =>
      if "http://".toList.isPrefixOf url.toList then
        .ok ("http", some (String.ofList ((url.toList.drop 7).takeWhile (· ≠ '/'))))
      else .error "relative URL without a base"
    parseJson := fun _ => some (.object [
      ("paths", .object [("/admin", .object [("get", .object [("operationId", .string "list")])])]),
      ("servers", .array [.object [("url", .string "http://internal.example/")]])]) }

/-- Servers that answer every request with success, and never with a redirect. -/
def openServers : Surroundings :=
  { answer := fun _ _ => .ok { status := 200, headers := [], body := [] }
    redirected := fun _ _ => none, iteration := id, broker := fun _ => .ok .null }

def listCall : FunctionRequest :=
  { name := "openapi"
    args := [("document", .object [("endpoint", .string "http://docs.example/api.json")]),
      ("operationId", .string "list")]
    context := { context := .null, input := .null, output := .null, secrets := [], authorization := none
                 task := none, workflow := none, runtime := none, extraVars := [] } }

/-- The document describes an operation of a host which the policy denies. -/
theorem listCall_not_mediated :
    ¬ Mediated guardedRuntime (BundledInvoker.openapi.requests guardedRuntime openServers listCall) := by
  intro mediated
  have hUris : (BundledInvoker.openapi.requests guardedRuntime openServers listCall).map
      (fun s => s.request.uri) = ["http://docs.example/api.json", "http://internal.example/admin"] := by
    decide +kernel
  have hMem : "http://internal.example/admin" ∈
      (BundledInvoker.openapi.requests guardedRuntime openServers listCall).map
        fun s => s.request.uri := by
    rw [hUris]
    exact List.mem_cons_of_mem _ List.mem_cons_self
  obtain ⟨s, hSent, hUri⟩ := List.mem_map.mp hMem
  have hAccepted := mediated s hSent
  rw [hUri] at hAccepted
  have hDenied : guardedRuntime.enforceNetworkPolicy "http://internal.example/admin" =
      .error (policyError "network access to host `internal.example` is denied by policy") := by
    decide +kernel
  rw [RuntimeInner.Accepts, hDenied] at hAccepted
  cases hAccepted

end OwsRuntime
