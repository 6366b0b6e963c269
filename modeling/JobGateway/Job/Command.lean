import JobGateway.Job.Key
import JobGateway.Job.Result
import JobGateway.Job.Spec

/-! Commands: one operation with its arguments. -/
namespace JobGateway

inductive JobCommand where
  | listJobs (key : JobKey)
  | createJob (key : JobKey) (spec : JobSpec)
  | updateJob (key : JobKey) (spec : JobSpec) (instances : Instances)
  | cancelUpdate (key : JobKey) (spec : Option JobSpec)
  | restartJob (key : JobKey) (spec : Option JobSpec) (instances : Instances)
  | deleteJob (key : JobKey) (spec : Option JobSpec) (instances : Instances)
  deriving DecidableEq, Repr

namespace JobCommand

def operation : JobCommand → Operation
  | .listJobs .. => .listJobs
  | .createJob .. => .createJob
  | .updateJob .. => .updateJob
  | .cancelUpdate .. => .cancelUpdate
  | .restartJob .. => .restartJob
  | .deleteJob .. => .deleteJob

def key : JobCommand → JobKey
  | .listJobs key => key
  | .createJob key _ => key
  | .updateJob key _ _ => key
  | .cancelUpdate key _ => key
  | .restartJob key _ _ => key
  | .deleteJob key _ _ => key

def spec? : JobCommand → Option JobSpec
  | .listJobs _ => none
  | .createJob _ spec => some spec
  | .updateJob _ spec _ => some spec
  | .cancelUpdate _ spec => spec
  | .restartJob _ spec _ => spec
  | .deleteJob _ spec _ => spec

/-- The selected instances, for the operations that have a selector. -/
def instances? : JobCommand → Option Instances
  | .updateJob _ _ instances => some instances
  | .restartJob _ _ instances => some instances
  | .deleteJob _ _ instances => some instances
  | _ => none

def jobKey (c : JobCommand) : String := c.key.text

def fail (c : JobCommand) (e : CommandError) : JobResult :=
  .failure c.jobKey c.operation e.diagnostics

end JobCommand

end JobGateway
