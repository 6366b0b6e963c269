import JobGateway.Executor.Basic
import JobGateway.Http.Envelope
import JobGateway.Http.Form
import JobGateway.Http.Message
import JobGateway.Http.Route

/-! The gateway: it turns requests into commands and results into responses. A request leads to at
most one command, and only to one whose operation is offered. -/
namespace JobGateway.Http

/-- What a request comes to: an answer at once, or a command to run. -/
inductive Reception where
  | answer (r : Response)
  | run (c : JobCommand)

/-- The most bytes that the body of a request for an operation may have. -/
def maxBody : Nat := 2097152

/-- The parameter that selects an instance. -/
def shardsParameter : String := "shards"

/-- The text that stands for a parameter. -/
def Binding.value (b : Binding) : Except Response String :=
  match Utf8.decode (Percent.decode (Utf8.encode b.raw)) with
  | .ok text => .ok (String.ofList text)
  | .error _ => .error (.plain 400 s!"Invalid URL: Invalid UTF-8 in `{b.name}`")

/-- The key of the role that the first two parameters name. -/
def roleKey : List String → JobKey
  | cluster :: role :: _ => .role cluster role
  | _ => .role "" ""

/-- The key of the job that the first four parameters name. -/
def jobKey : List String → JobKey
  | cluster :: role :: env :: name :: _ => .full cluster role env name
  | _ => .full "" "" "" ""

def selected (r : Request) : Instances :=
  ⟨((Form.parameters (Utf8.encode r.target.query)).filter fun p => p.1 = shardsParameter).map (·.2)⟩

/-- The specification in the body of a request where it may be missing. -/
def optionalSpec (r : Request) : Option JobSpec := if r.body.isEmpty then none else some ⟨r.body⟩

/-- A command whose request must not have too long a body. -/
def withBody (r : Request) (c : JobCommand) : Except Response JobCommand :=
  if r.body.length ≤ maxBody then .ok c
  else .error (.plain 413 "Failed to buffer the request body: length limit exceeded")

def command (r : Request) (op : Operation) (bindings : List Binding) :
    Except Response JobCommand := do
  let values ← bindings.mapM Binding.value
  match op with
  | .listJobs => return .listJobs (roleKey values)
  | .createJob => withBody r (.createJob (jobKey values) ⟨r.body⟩)
  | .updateJob => withBody r (.updateJob (jobKey values) ⟨r.body⟩ (selected r))
  | .cancelUpdate => withBody r (.cancelUpdate (jobKey values) (optionalSpec r))
  | .restartJob => withBody r (.restartJob (jobKey values) (optionalSpec r) (selected r))
  | .deleteJob => withBody r (.deleteJob (jobKey values) (optionalSpec r) (selected r))

def versionJson : Json := .object [("status", .string "success"), ("version", .string "0.1")]

def perform (r : Request) (bindings : List Binding) : Action → Reception
  | .health => .answer (.plain 200 "ok")
  | .version => .answer (.json 200 versionJson.render)
  | .operation op =>
    match command r op bindings with
    | .ok c => .run c
    | .error response => .answer response

/-- The route that a path belongs to, and what stands for its parameters. -/
def findRoute (routes : List Route) (path : List Char) : Option (Route × List Binding) :=
  routes.findSome? fun route =>
    (matchSegments route.pattern (pathSegments path)).map fun bindings => (route, bindings)

/-- What a request comes to. The verb for options is always answered, with what is allowed. -/
def receive (routes : List Route) (r : Request) : Reception :=
  match findRoute routes r.target.path with
  | none => .answer (.empty (if r.verb = "OPTIONS" then 200 else 404) [])
  | some (route, bindings) =>
    let allow := [("allow", route.allowed)]
    if r.verb = "OPTIONS" then .answer (.empty 200 allow)
    else match route.actions.lookup (Route.answeringVerb r.verb) with
      | none => .answer (.empty 405 allow)
      | some action => perform r bindings action

def resultResponse (c : JobCommand) (result : JobResult) : Response :=
  let (status, body) := envelope c.operation result
  .json status body.render

/-- The headers by which any page may use the gateway. -/
def sharingHeaders (verb : String) : List (String × String) :=
  ("vary", "origin, access-control-request-method, access-control-request-headers") ::
  ("access-control-allow-origin", "*") ::
  (if verb = "OPTIONS" then
    [("access-control-allow-methods", "*"), ("access-control-allow-headers", "*")]
  else [("access-control-expose-headers", "*")])

def send (r : Request) (response : Response) : Response :=
  let response := response.measured
  let response := { response with headers := response.headers ++ sharingHeaders r.verb }
  if r.verb = "HEAD" then response.withoutBody else response

/-- A request under way: answered, or with its command dispatched. -/
inductive Pending where
  | answered (r : Response)
  | dispatched (r : Request) (c : JobCommand) (d : Dispatch)

/-- Receive a request and dispatch its command. -/
def begin {σ : Type} (e : Executor σ) (routes : List Route) (r : Request) : StateM σ Pending :=
  match receive routes r with
  | .answer response => pure (.answered (send r response))
  | .run c => .dispatched r c <$> e.dispatch c

/-- The response to a request under way, once the executor is at rest. -/
def Pending.response {σ : Type} (e : Executor σ) (s : σ) : Pending → Response
  | .answered response => response
  | .dispatched r c d => send r (resultResponse c (e.result s c d))

def serve {σ : Type} (e : Executor σ) (routes : List Route) (r : Request) : StateM σ Response := do
  let pending ← begin e routes r
  modify e.rest
  return pending.response e (← get)

end JobGateway.Http
