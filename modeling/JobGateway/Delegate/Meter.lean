import JobGateway.Job.Command

/-! The meter of a delegate whose calls overlap: the calls in the order of their arrival, how many of
them are being made, and how many were at most. A call moves the meter in four actions, each of which
others may come between. -/
namespace JobGateway

/-- The call that a delegate receives for a command, given as a command. A list call is given under
its role key. -/
def JobCommand.received : JobCommand → JobCommand
  | .listJobs key => .listJobs (.role key.cluster key.roleName)
  | c => c

structure Meter where
  calls : List JobCommand
  inFlight : Nat
  maxInFlight : Nat
  deriving DecidableEq, Repr

/-- How far a call has come: what it did last. -/
inductive CallPhase where
  | begun
  | noted
  /-- The call found so many calls being made, itself among them. -/
  | entered (now : Nat)
  | compared
  | left
  deriving DecidableEq, Repr

/-- Whether a call counts among those being made. -/
def CallPhase.isInside : CallPhase → Bool
  | .entered _ => true
  | .compared => true
  | _ => false

namespace Meter

def new : Meter := ⟨[], 0, 0⟩

/-- The next action of the call for a command. What the call delivers does not move the meter. -/
def advance? (m : Meter) (c : JobCommand) : CallPhase → Option (CallPhase × Meter)
  | .begun => some (.noted, { m with calls := m.calls ++ [c.received] })
  | .noted => some (.entered (m.inFlight + 1), { m with inFlight := m.inFlight + 1 })
  | .entered now => some (.compared, { m with maxInFlight := max m.maxInFlight now })
  | .compared => some (.left, { m with inFlight := m.inFlight - 1 })
  | .left => none

end Meter

end JobGateway
