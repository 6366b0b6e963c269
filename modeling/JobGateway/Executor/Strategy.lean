import JobGateway.Executor.ProcessPool
import JobGateway.Executor.ThreadPool

/-! The four ways to run commands: in the caller's own thread, with or without a handle, on a pool
of threads, or on a pool of worker processes. -/
namespace JobGateway

inductive Strategy where
  | sync | callback | thread | process
  deriving DecidableEq, Repr

def Strategy.name : Strategy → String
  | .sync => "sync"
  | .callback => "callback"
  | .thread => "thread"
  | .process => "process"

def Strategy.byName : List (String × Strategy) :=
  [("sync", .sync), ("callback", .callback), ("thread", .thread), ("process", .process)]

/-- An executor at its start, and the part of its state that is shared with all others. -/
structure Started (ε : Type) where
  State : Type
  executor : Executor State
  start : State
  shared : State → ε

/-- A delegate at its start, whose state is in part its own and in part shared, and the program of
worker processes that serve the like of it. -/
structure Backend where
  Own : Type
  Shared : Type
  delegate : Delegate (Own × Shared)
  own : Own
  shared : Shared
  program : WorkerProgram Shared Own

namespace Strategy

/-- Start an executor. The first two strategies have no use for a number of workers. -/
def start (s : Strategy) (b : Backend) (parallel : Nat) (hasRuntime : Bool) :
    Except PoolFault (Started b.Shared) :=
  match s with
  | .sync => .ok ⟨_, .sync b.delegate, (b.own, b.shared), Prod.snd⟩
  | .callback => .ok ⟨_, .callback b.delegate, (b.own, b.shared), Prod.snd⟩
  | .thread => (ThreadPool.build parallel hasRuntime (b.own, b.shared)).map fun pool =>
    ⟨_, ThreadPool.executor b.delegate, pool, fun p => p.shared.2⟩
  | .process => (ProcessPool.build b.program parallel hasRuntime b.shared).map fun pool =>
    ⟨_, ProcessPool.executor b.program b.delegate.capabilities, pool, fun p => p.shared⟩

end Strategy

end JobGateway
