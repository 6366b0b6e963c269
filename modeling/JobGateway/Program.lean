import JobGateway.Text.Utf8

/-! Programs: why one cannot be started, and how one that was started ends. -/
namespace JobGateway

inductive StartFault where
  | notFound
  | denied
  /-- The name or an argument holds the character NUL. -/
  | nul
  deriving DecidableEq, Repr

def StartFault.message : StartFault → String
  | .notFound => "No such file or directory (os error 2)"
  | .denied => "Permission denied (os error 13)"
  | .nul => "nul byte found in provided data"

/-- How a program ended: by itself, with a status, or by a signal. -/
inductive Exit where
  | status (code : UInt8)
  | signal
  deriving DecidableEq, Repr

namespace Exit

def isSuccess (exit : Exit) : Bool := exit = .status 0

/-- The status, if there is one, for a message. -/
def summary : Exit → String
  | .status code => s!"Some({code.toNat})"
  | .signal => "None"

end Exit

/-- What a program left behind when it ended. -/
structure ProgramOutput where
  stdout : List UInt8
  stderr : List UInt8
  exit : Exit
  deriving DecidableEq, Repr

namespace ProgramOutput

def printed (text : String) : ProgramOutput := ⟨Utf8.encode text.toList, [], .status 0⟩

/-- The output of a program that writes an error message and ends with a status. -/
def complained (text : String) (status : UInt8) : ProgramOutput :=
  ⟨[], Utf8.encode text.toList, .status status⟩

end ProgramOutput

/-- The entry of a plan for the call of the given number, counted from zero. The last entry stands
for all later calls, `blank` for the entries of an empty plan. -/
def planned {α : Type} (plan : List α) (blank : α) (n : Nat) : α :=
  plan[n]?.getD (plan.getLast?.getD blank)

end JobGateway
