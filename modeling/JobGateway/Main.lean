import JobGateway.CommandLine.Launch

/-! The program. It decides nothing: what a command line comes to is a `Launch`, and what a worker
replies to a line is `Worker.serve`. There is no network here and no way to start other programs, so
a service is not taken up, and clients are reported as not found. -/
namespace JobGateway

open CommandLine

/-- The variables that the options of the service may have their values in. -/
def readEnvironment : IO Environment := do
  let names := ServeOptions.options.filterMap ValueOption.variableName
  let pairs ← names.filterMapM fun name => do
    return (← IO.getEnv name).map fun value => (name, value)
  return fun name => pairs.lookup name

/-- Write what a program leaves behind, and end like it. -/
def finish (output : ProgramOutput) : IO UInt32 := do
  IO.print (String.ofList (Utf8.lossy output.stdout))
  IO.eprint (String.ofList (Utf8.lossy output.stderr))
  match output.exit with
  | .status code => return code.toUInt32
  | .signal => return 1

/-- The bytes of the standard input up to a line feed or its end, behind those of `taken` in
reverse. -/
partial def readLine (taken : List UInt8) : IO (List UInt8) := do
  match (← (← IO.getStdin).read 1).toList with
  | [] => return taken.reverse
  | b :: _ => if b = 10 then return (b :: taken).reverse else readLine (b :: taken)

/-- Reply to the lines of the standard input as they come. -/
partial def replyToInput {σ : Type} (d : Delegate σ) (s : σ) : IO UInt32 := do
  let line ← readLine []
  if line.isEmpty then return 0
  let ((output, ending), s) := (Worker.serve d none line).run s
  IO.print (String.ofList output.text)
  (← IO.getStdout).flush
  match Failure.ofEnd? ending with
  | none => replyToInput d s
  | some failure => finish (Launch.failed [] failure)

def absentClient (command : String) : Client Unit := ⟨command, fun _ => pure (.error .notFound)⟩

end JobGateway

open JobGateway CommandLine in
def main (arguments : List String) : IO UInt32 := do
  match Launch.ofArguments (← readEnvironment) arguments with
  | .stopped stop => finish stop.output
  | .refused failure => finish (Launch.failed [] failure)
  | .worker config => replyToInput (config.delegate absentClient) (TextMap.empty, ())
  | .serve _ =>
    IO.eprintln "Error: no network to listen on"
    return 1
