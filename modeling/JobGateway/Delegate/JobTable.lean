import JobGateway.Delegate.Basic
import JobGateway.Text.Map

/-! A table of jobs that answers like a scheduler. Jobs are kept under the text of their key, so two
keys of one text name the same job. -/
namespace JobGateway

/-- What is kept of a job. -/
structure Job where
  /-- Whether an update was started and not cancelled. -/
  updating : Bool
  restarts : UInt32
  /-- The instances killed so far. -/
  killed : TextMap Unit
  deriving DecidableEq

def Job.fresh : Job := ⟨false, 0, .empty⟩

/-- The jobs under the texts of their keys. -/
abbrev JobTable := TextMap Job

namespace JobTable

def invalidRequest (message : String) : CommandError := .rejected "INVALID_REQUEST" message

def alreadyExists (key : String) : CommandError := invalidRequest s!"job {key} already exists"

def notFound (key : String) : CommandError := invalidRequest s!"no job found for {key}"

def notUpdating (key : String) : CommandError :=
  invalidRequest s!"no update in progress for {key}"

/-- The keys of the jobs of a cluster and a role: those that begin with its text and a slash. -/
def list (table : JobTable) (cluster role : String) : List String :=
  table.keys.filter (JobKey.roleText cluster role ++ "/").isPrefixOf

/-- A specification must not be empty. -/
def checkSpec (spec : JobSpec) : Except CommandError Unit :=
  if spec.isEmpty then .error (.invalidSpec "job spec is empty") else .ok ()

/-- Add a job under a key that is free. -/
def create (table : JobTable) (key : String) (spec : JobSpec) : Except CommandError JobTable := do
  checkSpec spec
  if table.contains key then .error (alreadyExists key) else .ok (table.insert key .fresh)

def change (table : JobTable) (key : String) (f : Job → Except CommandError Job) :
    Except CommandError JobTable :=
  match table.get? key with
  | none => .error (notFound key)
  | some job => table.insert key <$> f job

def update (table : JobTable) (key : String) (spec : JobSpec) : Except CommandError JobTable := do
  checkSpec spec
  table.change key fun job => .ok { job with updating := true }

def cancelUpdate (table : JobTable) (key : String) : Except CommandError JobTable :=
  table.change key fun job =>
    if job.updating then .ok { job with updating := false } else .error (notUpdating key)

def restart (table : JobTable) (key : String) : Except CommandError JobTable :=
  table.change key fun job => .ok { job with restarts := job.restarts + 1 }

/-- Remove the job under a key, or kill some of its instances. No job is no fault; the answer tells
whether there was one. -/
def delete (table : JobTable) (key : String) (instances : Instances) : List String × JobTable :=
  match table.get? key with
  | none => ([], table)
  | some job =>
    if instances.isAll then ([key], table.erase key)
    else ([key], table.insert key
      { job with killed := instances.ids.foldl (fun killed id => killed.insert id ()) job.killed })

def restarts? (table : JobTable) (key : String) : Option UInt32 :=
  (table.get? key).map (·.restarts)

/-- The killed instances of the job under a key, ascending and without repetitions. -/
def killed? (table : JobTable) (key : String) : Option (List String) :=
  (table.get? key).map (·.killed.keys)

/-- A step that replaces the table, or fails and leaves it as it is. -/
def commit (step : JobTable → Except CommandError JobTable) : StateM JobTable (Outcome Unit) :=
  fun table =>
    match step table with
    | .ok table => (.returned (), table)
    | .error e => (.failed e, table)

def delegate : Delegate JobTable where
  capabilities := .all
  listJobs cluster role := fun table => (.returned (table.list cluster role), table)
  createJob key spec := commit (create · key.text spec)
  updateJob key spec _ := commit (update · key.text spec)
  cancelUpdate key _ := commit (JobTable.cancelUpdate · key.text)
  restartJob key _ _ := commit (restart · key.text)
  deleteJob key _ instances := fun table =>
    let (keys, table) := table.delete key.text instances
    (.returned keys, table)

end JobTable

end JobGateway
