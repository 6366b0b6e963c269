import JobGateway.Delegate.Basic
import JobGateway.Program
import JobGateway.Text.Blank

/-! The delegate that runs the client program of a scheduler, once for each call. It reads a listing
line by line, and any other answer for the line in which the scheduler agrees. -/
namespace JobGateway

/-- An argument of the client: a text, or the path of the file that holds the specification. -/
inductive ClientArgument where
  | text (value : String)
  | specFile
  deriving DecidableEq, Repr

/-- One run of the client: its arguments and the content of the specification file. -/
structure ClientCall where
  arguments : List ClientArgument
  spec : Option JobSpec
  deriving DecidableEq, Repr

namespace ClientCall

/-- The argument that selects instances; none selects all. -/
def shards (instances : Instances) : List ClientArgument :=
  if instances.isAll then [] else [.text s!"--shards={instances.joined}"]

def specFile (spec : Option JobSpec) : List ClientArgument :=
  if spec.isSome then [.specFile] else []

def list (cluster role : String) : ClientCall :=
  ⟨[.text "list_jobs", .text (JobKey.roleText cluster role)], none⟩

def create (key : JobKey) (spec : JobSpec) : ClientCall :=
  ⟨[.text "create", .text key.text, .specFile], some spec⟩

def update (key : JobKey) (spec : JobSpec) (instances : Instances) : ClientCall :=
  ⟨.text "update" :: shards instances ++ [.text key.text, .specFile], some spec⟩

def cancelUpdate (key : JobKey) (spec : Option JobSpec) : ClientCall :=
  ⟨[.text "cancel_update", .text key.text] ++ specFile spec, spec⟩

def restart (key : JobKey) (spec : Option JobSpec) (instances : Instances) : ClientCall :=
  ⟨.text "restart" :: shards instances ++ .text key.text :: specFile spec, spec⟩

/-- A delete kills all instances of a job, or those named behind the key. -/
def delete (key : JobKey) (instances : Instances) : ClientCall :=
  if instances.isAll then ⟨[.text "killall", .text key.text], none⟩
  else ⟨[.text "kill", .text s!"{key.text}/{instances.joined}"], none⟩

/-- Whether a text can be passed to a program. -/
def isPassable (s : String) : Bool := !s.toList.contains '\x00'

/-- Whether all arguments can be passed to a program. -/
def isPossible (call : ClientCall) : Bool :=
  call.arguments.all fun
    | .text value => isPassable value
    | .specFile => true

end ClientCall

/-- A client program: its name, and what a run of it comes to. -/
structure Client (σ : Type) where
  command : String
  start (call : ClientCall) : StateM σ (Except StartFault ProgramOutput)

namespace Client

variable {σ : Type}

/-- The words by which the scheduler agrees. -/
def agreement : String := "Response from scheduler: OK"

/-- Run the client. A NUL in its name or its arguments keeps it from being started. -/
def run (client : Client σ) (call : ClientCall) : StateM σ (Except CommandError ProgramOutput) := do
  let output ←
    if ClientCall.isPassable client.command && call.isPossible then client.start call
    else pure (.error .nul)
  return output.mapError fun fault => .invocation s!"{client.command}: {fault.message}"

/-- All lines that the client wrote, those of its standard output first. -/
def outputLines (output : ProgramOutput) : List String :=
  Text.lossyLines output.stdout ++ Text.lossyLines output.stderr

/-- Whether `part` occurs in a text. -/
def occursIn (part : List Char) : List Char → Bool
  | [] => part.isEmpty
  | c :: text => part.isPrefixOf (c :: text) || occursIn part text

/-- The client has done what was asked if it says so and ends well. -/
def check (output : ProgramOutput) : Except CommandError Unit :=
  let lines := outputLines output
  let agrees := lines.any fun line => occursIn agreement.toList line.toList
  if output.exit.isSuccess && agrees then .ok ()
  else .error (.client CommandError.clientContext lines)

/-- The keys in a listing: the lines that are not blank, without the blanks around them. -/
def listed (stdout : List UInt8) : List String :=
  ((Text.lines (Utf8.lossy stdout)).map Text.trim).filterMap fun line =>
    if line.isEmpty then none else some (String.ofList line)

/-- The keys that the client lists. On failure its error lines are reported, or, without any, how it
ended. -/
def checkListing (output : ProgramOutput) : Except CommandError (List String) :=
  if output.exit.isSuccess then .ok (listed output.stdout)
  else
    let lines := Text.lossyLines output.stderr
    .error (.client "Exception when listing aurora jobs"
      (if lines.isEmpty then [s!"exit status: {output.exit.summary}"] else lines))

/-- Run the client and read its answer. -/
def ask {α : Type} (client : Client σ) (call : ClientCall)
    (read : ProgramOutput → Except CommandError α) : StateM σ (Outcome α) := do
  return .ofExcept ((← client.run call) >>= read)

def delegate (client : Client σ) : Delegate σ where
  capabilities := .all
  listJobs cluster role := client.ask (.list cluster role) checkListing
  createJob key spec := client.ask (.create key spec) check
  updateJob key spec instances := client.ask (.update key spec instances) check
  cancelUpdate key spec := client.ask (.cancelUpdate key spec) check
  restartJob key spec instances := client.ask (.restart key spec instances) check
  deleteJob key _ instances :=
    client.ask (.delete key instances) fun output => (fun _ => [key.text]) <$> check output

end Client

end JobGateway
