import JobGateway.Delegate.Client

/-! Client programs that follow a plan, for trying out the client delegate without a scheduler. The
state is the list of calls so far. -/
namespace JobGateway.Client

def argumentText : ClientArgument → String
  | .text value => value
  | .specFile => "job.aurora"

/-- What the programs at hand come to: one that follows the plan, and three plain ones. The root
directory is no program, and no other name is known. -/
def startPlanned (plan : List ProgramOutput) (command : String) (call : ClientCall) :
    StateM (List ClientCall) (Except StartFault ProgramOutput) := fun calls =>
  match command with
  | "fake-aurora" => (.ok (planned plan (.printed "") calls.length), calls ++ [call])
  | "true" => (.ok (.printed ""), calls)
  | "false" => (.ok { ProgramOutput.printed "" with exit := .status 1 }, calls)
  | "echo" =>
    (.ok (.printed (String.intercalate " " (call.arguments.map argumentText) ++ "\n")), calls)
  | "/" => (.error .denied, calls)
  | _ => (.error .notFound, calls)

/-- The client of a name among the programs at hand. -/
def scripted (plan : List ProgramOutput) (command : String) : Client (List ClientCall) :=
  ⟨command, startPlanned plan command⟩

end JobGateway.Client
