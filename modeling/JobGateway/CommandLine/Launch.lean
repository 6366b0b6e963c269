import JobGateway.CommandLine.Settings
import JobGateway.Worker.Program

/-! What a run of the program comes to: it ends at once, it serves requests line by line as a
worker, or it serves them over a socket. -/
namespace JobGateway.CommandLine

inductive Failure where
  | delegate (refusal : DelegateConfig.Refusal)
  | settings (fault : SettingsFault)
  /-- The input is no text. -/
  | input
  /-- The output is closed. -/
  | output
  | addressInUse
  deriving DecidableEq, Repr

namespace Failure

/-- An error of the operating system with its fields spelled out. -/
def systemDetail (code : Nat) (kind message : String) : String :=
  s!"Os \x7b code: {code}, kind: {kind}, message: {Text.quoted message} \x7d"

/-- The failure with its fields spelled out. -/
def detail : Failure → String
  | .delegate (.undecodable refusal) => s!"Decode({refusal.detail})"
  | .delegate .emptyCommand => "EmptyCommand"
  | .settings fault => fault.detail
  | .input =>
    "Error \x7b kind: InvalidData, message: \"stream did not contain valid UTF-8\" \x7d"
  | .output => systemDetail 32 "BrokenPipe" "Broken pipe"
  | .addressInUse => systemDetail 98 "AddrInUse" "Address already in use"

/-- What a failed run writes at its end. -/
def report (failure : Failure) : String := s!"Error: {failure.detail}\n"

def ofEnd? : Worker.End → Option Failure
  | .inputEnded => none
  | .notText => some .input
  | .outputClosed => some .output

end Failure

inductive Launch where
  | stopped (stop : Stop)
  | refused (failure : Failure)
  | worker (config : DelegateConfig)
  | serve (settings : Settings)
  deriving DecidableEq, Repr

namespace Launch

def ofInvocation : Invocation → Launch
  | .serve options =>
    match options.settings with
    | .ok settings => .serve settings
    | .error fault => .refused (.settings fault)
  | .worker config =>
    match DelegateConfig.ofArgument config with
    | .ok config => .worker config
    | .error refusal => .refused (.delegate refusal)

def ofArguments (environment : Environment) (arguments : List String) : Launch :=
  match Invocation.read environment arguments with
  | .ok invocation => ofInvocation invocation
  | .error stop => .stopped stop

def failed (text : List Char) (failure : Failure) : ProgramOutput :=
  ⟨Utf8.encode text, Utf8.encode failure.report.toList, .status 1⟩

def workerOutput {ω : Type} (clients : String → Client ω) (config : DelegateConfig)
    (input : List UInt8) (world : ω) : ProgramOutput :=
  let ((output, ending), _) :=
    (Worker.serve (config.delegate clients) none input).run (TextMap.empty, world)
  match Failure.ofEnd? ending with
  | none => ⟨Utf8.encode output.text, [], .status 0⟩
  | some failure => failed output.text failure

/-- The program of worker processes started with given arguments. One that is no worker gives no
answer. -/
def workers {ω : Type} (clients : String → Client ω) (arguments : List String) :
    WorkerProgram ω JobTable :=
  match ofArguments (fun _ => none) arguments with
  | .worker config => .serving (config.delegate clients) TextMap.empty
  | _ => .ending TextMap.empty

end Launch

end JobGateway.CommandLine
