import JobGateway.Delegate.Configured
import JobGateway.Executor.Strategy

/-! The surroundings of a gateway, and the executors that it can start there. -/
namespace JobGateway

/-- What a gateway finds around it: client programs by name with the world that they act on, the
program that it starts as a worker process with given arguments, and whether anything is there that
can drive a pool. -/
structure Host where
  World : Type
  world : World
  clients : String → Client World
  workers : List String → WorkerProgram World JobTable
  hasRuntime : Bool

namespace DelegateConfig

def workerArguments (config : DelegateConfig) : List String :=
  ["worker", "--delegate-config", config.argument]

/-- The configured delegate on a host. -/
def backend (config : DelegateConfig) (host : Host) : Backend where
  Own := JobTable
  Shared := host.World
  delegate := config.delegate host.clients
  own := .empty
  shared := host.world
  program := host.workers config.workerArguments

/-- Start an executor for the configured delegate. Worker processes are left to look at the name of
the client by themselves; the other strategies need the delegate, and a name with it. -/
def start (config : DelegateConfig) (host : Host) (strategy : Strategy) (parallel : Nat) :
    Except PoolFault (Started host.World) :=
  if strategy = .process ∨ config.isValid then
    strategy.start (config.backend host) parallel host.hasRuntime
  else .error .emptyCommand

end DelegateConfig

end JobGateway
