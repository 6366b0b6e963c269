import JobGateway.Job.Result
import JobGateway.Json.Writer
import JobGateway.Text.Map

/-! Results as HTTP answers: a status and a JSON object. The members of the objects are in ascending
order. -/
namespace JobGateway.Http

def sortedObject (members : List (String × Json)) : Json := .object (TextMap.ofList members).entries

/-- Keys under their numbers, counted from one. -/
def numbered (keys : List String) : Json :=
  sortedObject (keys.zipIdx.map fun (key, i) => (toString (i + 1), .string key))

/-- The member that holds what an operation delivers. -/
def field : Operation → String
  | .listJobs => "jobs"
  | _ => "job"

/-- What an operation delivered: listed keys under numbers, else one key, which is empty if a delete
removed nothing. -/
def delivered : Payload → Json
  | .jobs keys => numbered keys
  | .job key => .string key
  | .deleted keys => .string (keys.head?.getD "")

/-- What is shown of a failed operation in place of what it delivers. -/
def nothing : Operation → Json
  | .listJobs => .object []
  | _ => .array []

/-- The status of a success. A list or a delete that finds nothing is answered as not found. -/
def successStatus (op : Operation) (count : Nat) : Nat :=
  match op with
  | .createJob => 201
  | .updateJob | .cancelUpdate | .restartJob => 202
  | .listJobs | .deleteJob => if count = 0 then 404 else 200

/-- The error lines to show; there is always one. -/
def errorLines (op : Operation) (errors : List String) : List String :=
  if errors.isEmpty then [s!"{op.name} failed"] else errors

/-- The answer to a request that ran an operation. -/
def envelope (op : Operation) (r : JobResult) : Nat × Json :=
  match r.errors with
  | none =>
    let count := r.payload.count
    (successStatus op count, sortedObject
      [("status", .string "success"), ("key", .string r.key), ("count", .natural count),
        (field op, delivered r.payload)])
  | some errors =>
    (500, sortedObject
      [("status", .string "failure"), ("key", .string r.key), ("count", .natural 0),
        ("errors", .strings (errorLines op errors)), (field op, nothing op)])

end JobGateway.Http
