import JobGateway.Job.Command

/-! Delegates: whatever carries out the six operations on jobs. A delegate has a state, and each
call of it returns a value, fails or panics. -/
namespace JobGateway

inductive PanicPayload where
  | text (message : String)
  | other
  deriving DecidableEq, Repr

def PanicPayload.message : PanicPayload → String
  | .text message => message
  | .other => "unknown panic payload"

/-- How a call of a delegate ends. -/
inductive Outcome (α : Type) where
  | returned (value : α)
  | failed (error : CommandError)
  | panicked (payload : PanicPayload)
  deriving DecidableEq, Repr

namespace Outcome

def map {α β : Type} (f : α → β) : Outcome α → Outcome β
  | .returned a => .returned (f a)
  | .failed e => .failed e
  | .panicked p => .panicked p

/-- The outcome of a call that does not panic. -/
def ofExcept {α : Type} : Except CommandError α → Outcome α
  | .ok a => .returned a
  | .error e => .failed e

/-- The outcome as a result under `key`; a panic is a failure like any other. -/
def toResult (key : String) (op : Operation) : Outcome Payload → JobResult
  | .returned payload => .success key payload
  | .failed e => .failure key op e.diagnostics
  | .panicked p => .failure key op (CommandError.panicked p.message).diagnostics

end Outcome

/-- A delegate with states in `σ`. It lists the jobs of a cluster and a role. -/
structure Delegate (σ : Type) where
  capabilities : Capabilities
  listJobs (cluster role : String) : StateM σ (Outcome (List String))
  createJob (key : JobKey) (spec : JobSpec) : StateM σ (Outcome Unit)
  updateJob (key : JobKey) (spec : JobSpec) (instances : Instances) : StateM σ (Outcome Unit)
  cancelUpdate (key : JobKey) (spec : Option JobSpec) : StateM σ (Outcome Unit)
  restartJob (key : JobKey) (spec : Option JobSpec) (instances : Instances) :
    StateM σ (Outcome Unit)
  deleteJob (key : JobKey) (spec : Option JobSpec) (instances : Instances) :
    StateM σ (Outcome (List String))

namespace Delegate

variable {σ : Type}

/-- Make the one call that a command asks for. Its payload holds what the call delivers: the listed
or deleted keys, and else the key of the command. -/
def call (d : Delegate σ) (c : JobCommand) : StateM σ (Outcome Payload) :=
  match c with
  | .listJobs key => .map .jobs <$> d.listJobs key.cluster key.roleName
  | .createJob key spec => .map (fun _ => .job c.jobKey) <$> d.createJob key spec
  | .updateJob key spec i => .map (fun _ => .job c.jobKey) <$> d.updateJob key spec i
  | .cancelUpdate key spec => .map (fun _ => .job c.jobKey) <$> d.cancelUpdate key spec
  | .restartJob key spec i => .map (fun _ => .job c.jobKey) <$> d.restartJob key spec i
  | .deleteJob key spec i => .map .deleted <$> d.deleteJob key spec i

/-- Run a command. The result never fails to come: a panic is reported as a failure. -/
def invoke (d : Delegate σ) (c : JobCommand) : StateM σ JobResult :=
  Outcome.toResult c.jobKey c.operation <$> d.call c

/-- A delegate whose state is a part of a larger one. -/
def within {τ : Type} (d : Delegate σ) (get : τ → σ) (put : σ → τ → τ) : Delegate τ :=
  let lift {α : Type} (call : StateM σ α) : StateM τ α := fun t =>
    let (a, s) := call (get t)
    (a, put s t)
  { capabilities := d.capabilities
    listJobs cluster role := lift (d.listJobs cluster role)
    createJob key spec := lift (d.createJob key spec)
    updateJob key spec i := lift (d.updateJob key spec i)
    cancelUpdate key spec := lift (d.cancelUpdate key spec)
    restartJob key spec i := lift (d.restartJob key spec i)
    deleteJob key spec i := lift (d.deleteJob key spec i) }

/-- A delegate whose state is the first of two. -/
def onFirst {τ : Type} (d : Delegate σ) : Delegate (σ × τ) := d.within Prod.fst fun s t => (s, t.2)

/-- A delegate whose state is the second of two. -/
def onSecond {τ : Type} (d : Delegate σ) : Delegate (τ × σ) := d.within Prod.snd fun s t => (t.1, s)

/-- A delegate with the list of all calls that it received, each given as a command. A list call is
given under its role key. -/
def recorded (d : Delegate σ) : Delegate (σ × List JobCommand) :=
  let record {α : Type} (c : JobCommand) (call : StateM σ (Outcome α)) :
      StateM (σ × List JobCommand) (Outcome α) := fun (s, calls) =>
    let (outcome, s) := call s
    (outcome, s, calls ++ [c])
  { capabilities := d.capabilities
    listJobs cluster role := record (.listJobs (.role cluster role)) (d.listJobs cluster role)
    createJob key spec := record (.createJob key spec) (d.createJob key spec)
    updateJob key spec i := record (.updateJob key spec i) (d.updateJob key spec i)
    cancelUpdate key spec := record (.cancelUpdate key spec) (d.cancelUpdate key spec)
    restartJob key spec i := record (.restartJob key spec i) (d.restartJob key spec i)
    deleteJob key spec i := record (.deleteJob key spec i) (d.deleteJob key spec i) }

end Delegate

end JobGateway
