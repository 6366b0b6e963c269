import JobGateway.Job.Operation

/-! What becomes of a command: a payload, or the reasons for a failure, under the text of its key.
-/
namespace JobGateway

/-- What an operation delivers. -/
inductive Payload where
  /-- The keys found by a list. -/
  | jobs (keys : List String)
  /-- The key of the job that was created, updated or restarted. -/
  | job (key : String)
  /-- The keys removed by a delete. -/
  | deleted (keys : List String)
  deriving DecidableEq, Repr

namespace Payload

/-- The payload of a failed operation. -/
def empty : Operation → Payload
  | .listJobs => .jobs []
  | .deleteJob => .deleted []
  | _ => .job ""

/-- How many jobs a payload tells of. -/
def count : Payload → Nat
  | .jobs keys => keys.length
  | .deleted keys => keys.length
  | .job key => if key.isEmpty then 0 else 1

@[simp] theorem count_empty (op : Operation) : (empty op).count = 0 := by
  cases op <;> simp [empty, count]

end Payload

/-- Why an operation failed. -/
inductive CommandError where
  /-- The client program ran and reported failure. -/
  | client (context : String) (output : List String)
  /-- The scheduler refused the request. -/
  | rejected (code message : String)
  | invalidSpec (message : String)
  /-- The client program could not be run. -/
  | invocation (message : String)
  | panicked (message : String)
  /-- The command or its result could not cross a process boundary. -/
  | marshal (message : String)
  | worker (message : String)
  /-- The command was given up before it completed. -/
  | dropped
  deriving DecidableEq, Repr

namespace CommandError

def message : CommandError → String
  | .client context _ => context
  | .rejected code message => s!"scheduler rejected request: {code} ({message})"
  | .invalidSpec message => s!"invalid job spec: {message}"
  | .invocation message => s!"failed to invoke aurora client: {message}"
  | .panicked message => s!"delegate panicked: {message}"
  | .marshal message => s!"cannot marshal across worker boundary: {message}"
  | .worker message => s!"worker failure: {message}"
  | .dropped => "request was dropped before it completed"

def clientContext : String := "Error reported by aurora client:"

/-- The lines that report an error. -/
def diagnostics : CommandError → List String
  | .client context output => context :: output
  | .rejected code message =>
    [clientContext, s!"Response from scheduler: {code} (message: {message})"]
  | .invalidSpec message => ["Failed to parse job spec", message]
  | error => [error.message]

theorem diagnostics_ne_nil (error : CommandError) : error.diagnostics ≠ [] := by
  cases error <;> simp [diagnostics]

end CommandError

/-- The outcome of a command. Without errors it is a success. -/
structure JobResult where
  key : String
  payload : Payload
  errors : Option (List String)
  deriving DecidableEq, Repr

namespace JobResult

def success (key : String) (payload : Payload) : JobResult := ⟨key, payload, none⟩

/-- A failure with the payload of its operation. It always has an error line. -/
def failure (key : String) (op : Operation) (errors : List String) : JobResult :=
  ⟨key, .empty op,
    some (if errors.isEmpty then [s!"{op.name} failed without diagnostics"] else errors)⟩

def ofOutcome (key : String) (op : Operation) : Except CommandError Payload → JobResult
  | .ok payload => success key payload
  | .error e => failure key op e.diagnostics

def isSuccess (r : JobResult) : Bool := r.errors.isNone

end JobResult

end JobGateway
