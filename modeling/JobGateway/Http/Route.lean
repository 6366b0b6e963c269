import JobGateway.Http.Pattern
import JobGateway.Job.Operation

/-! The routes of the gateway: which paths are known, and what each verb asks for there. Operations
on jobs have routes below a prefix, and only if they are offered. -/
namespace JobGateway.Http

/-- What a request can ask for. -/
inductive Action where
  | health
  | version
  | operation (op : Operation)
  deriving DecidableEq, Repr

/-- A route: a pattern for paths, and the action of each verb that is known there. -/
structure Route where
  pattern : List Segment
  actions : List (String × Action)

namespace Route

def rolePattern : List Segment := [.fixed "jobs", .named "cluster", .named "role"]

def jobPattern : List Segment := rolePattern ++ [.named "env", .named "name"]

def operationRoutes : List (List Segment × List (String × Operation)) := [
  (rolePattern, [("GET", .listJobs)]),
  (jobPattern, [("PUT", .createJob), ("DELETE", .deleteJob)]),
  (jobPattern ++ [.fixed "update"], [("PUT", .updateJob), ("DELETE", .cancelUpdate)]),
  (jobPattern ++ [.fixed "restart"], [("PUT", .restartJob)])]

/-- The routes of the offered operations. One without any is no route. -/
def offeredRoutes (capabilities : Capabilities) : List Route :=
  let routes : List Route := operationRoutes.map fun (pattern, verbs) =>
    let offered := verbs.filter fun v => capabilities.supports v.2
    ⟨pattern, offered.map fun v => (v.1, .operation v.2)⟩
  routes.filter fun r => !r.actions.isEmpty

def below (base : List Segment) (r : Route) : Route := { r with pattern := base ++ r.pattern }

def all (base : List Segment) (capabilities : Capabilities) : List Route :=
  ⟨[.fixed "health"], [("GET", .health)]⟩ ::
    (⟨[.fixed "version"], [("GET", .version)]⟩ :: offeredRoutes capabilities).map (below base)

/-- The segments of a prefix. Slashes around it do not matter, and an empty one has no segments. -/
def base? (prefixText : String) : Option (List Segment) :=
  let text := Text.strip '/' prefixText.toList
  if text.isEmpty then some [] else (Text.split '/' text).mapM Segment.parse?

/-- The most parameters that a pattern may have. -/
def maxParameters : Nat := 25

def parameterCount (r : Route) : Nat := r.pattern.countP (·.parameter.isSome)

/-- All routes of a gateway below a prefix, unless it breaks the rules for patterns or makes one
with too many parameters. -/
def all? (prefixText : String) (capabilities : Capabilities) : Option (List Route) := do
  let routes := all (← base? prefixText) capabilities
  if routes.all fun r => r.parameterCount ≤ maxParameters then some routes else none

/-- The verb whose action answers a request: a request for headers is answered like one for the
whole. -/
def answeringVerb (verb : String) : String := if verb = "HEAD" then "GET" else verb

/-- The verbs that are known at a route. -/
def allowed (r : Route) : String :=
  String.intercalate "," ((r.actions.map (·.1)).map fun v => if v = "GET" then "GET,HEAD" else v)

end Route

end JobGateway.Http
