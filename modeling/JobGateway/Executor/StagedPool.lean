import JobGateway.Executor.ProcessPool

/-! A pool of processes between the steps by which a request ends, to look at it while some of its
units are ending. A process is given back as soon as it has answered; the promise of the unit is
resolved after that, and its permit becomes free at last. -/
namespace JobGateway

structure StagedPool (ε π : Type) where
  /-- The pool; its running units are those whose request is with a process. -/
  processes : ProcessPool ε π
  /-- The units whose process has answered and whose promise is not resolved yet. -/
  answered : List (PoolUnit RequestLine × JobResult)
  /-- How many units are resolved and hold their permit still. -/
  holding : Nat

namespace StagedPool

variable {ε π : Type}

/-- A pool with no unit that is ending. -/
def ofPool (p : ProcessPool ε π) : StagedPool ε π := ⟨p, [], 0⟩

def dispatch (c : JobCommand) : StateM (StagedPool ε π) Dispatch := fun p =>
  let (d, processes) := ProcessPool.dispatch c p.processes
  (d, { p with processes })

/-- Deal with the first unit of the queue, if it need not wait. -/
def admit? (program : WorkerProgram ε π) (p : StagedPool ε π) : Option (StagedPool ε π) :=
  (p.processes.admit? program).map fun processes => { p with processes }

/-- Let the running request at a position be answered. Its process becomes idle again if the answer
is its result and the pool is still open. -/
def answer? (program : WorkerProgram ε π) (p : StagedPool ε π) (i : Nat) :
    Option (StagedPool ε π) :=
  let pool := p.processes.pool
  match pool.running[i]?, p.processes.engaged[i]? with
  | some u, some process =>
    let ((answer, process), shared) :=
      process.call program u.work.id u.work.line p.processes.shared
    let result := match answer with
      | .ok result => result
      | .error e => u.command.fail e
    let keep := answer.toBool && !pool.isClosed
    some { p with
      processes := { p.processes with
        pool := { pool with running := pool.running.eraseIdx i }
        idle := if keep then process :: p.processes.idle else p.processes.idle
        engaged := p.processes.engaged.eraseIdx i
        shared }
      answered := p.answered ++ [(u, result)] }
  | _, _ => none

/-- Resolve the promise of the answered unit at a position. -/
def resolve? (p : StagedPool ε π) (i : Nat) : Option (StagedPool ε π) :=
  p.answered[i]?.map fun (u, result) =>
    { processes := { p.processes with pool := p.processes.pool.settle u (.resolved result) }
      answered := p.answered.eraseIdx i
      holding := p.holding + 1 }

/-- Let a resolved unit give its permit back. -/
def release? (p : StagedPool ε π) : Option (StagedPool ε π) :=
  if p.holding = 0 then none
  else
    let pool := p.processes.pool
    some { p with
      processes := { p.processes with pool := { pool with free := pool.free + 1 } }
      holding := p.holding - 1 }

def promiseOf (p : StagedPool ε π) : Dispatch → Promise
  | .ready result => .resolved result
  | .resolved result => .resolved result
  | .queued ticket => p.processes.pool.promise ticket

/-- The pool when every unit that is ending has ended. -/
def flush (p : StagedPool ε π) : ProcessPool ε π :=
  let pool := p.processes.pool
  { p.processes with pool := { pool with
      free := pool.free + p.answered.length + p.holding
      settled := pool.settled ++ p.answered.map fun (u, result) => (u.ticket, .resolved result) } }

end StagedPool

end JobGateway
