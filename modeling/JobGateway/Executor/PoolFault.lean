import JobGateway.Delegate.Config
import JobGateway.Program

/-! Why a pool cannot be built. -/
namespace JobGateway

inductive PoolFault where
  | zeroCapacity
  /-- Nothing is there that could drive the pool. -/
  | noRuntime
  | spawn (program : String) (fault : StartFault)
  | emptyCommand
  /-- More permits than can be counted. -/
  | tooManyPermits
  deriving DecidableEq, Repr

namespace PoolFault

def spawnMessage (program : String) (fault : StartFault) : String :=
  s!"failed to spawn worker process {program}: {fault.message}"

def message : PoolFault → String
  | .zeroCapacity => "pool capacity must be at least 1"
  | .noRuntime =>
    "pool needs a tokio runtime: there is no reactor running, " ++
    "must be called from the context of a Tokio 1.x runtime"
  | .spawn program fault => spawnMessage program fault
  | .emptyCommand => DelegateConfig.emptyCommandMessage
  | .tooManyPermits => "a semaphore may not have more than MAX_PERMITS permits"

/-- The greatest number of permits that can be counted. -/
def maxPermits : Nat := Nat.pow 2 61 - 1

/-- Whether the permits of a pool can be counted. -/
def checkPermits (capacity : Nat) : Except PoolFault Unit :=
  if capacity ≤ maxPermits then .ok () else .error .tooManyPermits

/-- What a pool needs before anything is started for it. -/
def checkStart (capacity : Nat) (hasRuntime : Bool) : Except PoolFault Unit :=
  if capacity = 0 then .error .zeroCapacity
  else if hasRuntime then .ok () else .error .noRuntime

end PoolFault

end JobGateway
