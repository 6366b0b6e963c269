/-! The six operations on jobs, and sets of them. -/
namespace JobGateway

inductive Operation where
  | listJobs | createJob | updateJob | cancelUpdate | restartJob | deleteJob
  deriving DecidableEq, Repr

namespace Operation

def all : List Operation :=
  [.listJobs, .createJob, .updateJob, .cancelUpdate, .restartJob, .deleteJob]

def name : Operation → String
  | .listJobs => "list_jobs"
  | .createJob => "create_job"
  | .updateJob => "update_job"
  | .cancelUpdate => "cancel_update"
  | .restartJob => "restart_job"
  | .deleteJob => "delete_job"

/-- The position of an operation among all. -/
def index : Operation → Nat
  | .listJobs => 0
  | .createJob => 1
  | .updateJob => 2
  | .cancelUpdate => 3
  | .restartJob => 4
  | .deleteJob => 5

def byName : List (String × Operation) := all.map fun op => (op.name, op)

theorem mem_all (op : Operation) : op ∈ all := by cases op <;> decide

end Operation

/-- The operations that a delegate offers. -/
structure Capabilities where
  supports : Operation → Bool

namespace Capabilities

def all : Capabilities := ⟨fun _ => true⟩

def ofList (ops : List Operation) : Capabilities := ⟨fun op => ops.contains op⟩

/-- The offered operations, in their order. -/
def toList (c : Capabilities) : List Operation := Operation.all.filter c.supports

/-- Whether every operation is offered. -/
def isAll (c : Capabilities) : Bool := Operation.all.all c.supports

@[simp] theorem supports_ofList (ops : List Operation) (op : Operation) :
    (ofList ops).supports op = true ↔ op ∈ ops := by simp [ofList]

end Capabilities

end JobGateway
