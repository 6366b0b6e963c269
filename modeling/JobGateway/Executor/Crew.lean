import JobGateway.Executor.ProcessPool

/-! A pool of processes while its requests overlap, to look at where each process is. The steps of a
request may fall between those of others: it takes the process that became idle last, or has one
started; it is answered; the process is given back or killed; the promise is resolved, and the permit
becomes free at last. A pool is shut down in two steps: it is closed, and then its idle processes are
killed. -/
namespace JobGateway

/-- A process under the number of its start. -/
structure Member (π : Type) where
  number : Nat
  process : WorkerProcess π

/-- What an admitted unit does next. -/
inductive Duty (π : Type) where
  /-- Take the process that became idle last. -/
  | look
  /-- Start a process, as none was idle. -/
  | start
  /-- Send the request line to a process and read one line in reply. -/
  | ask (m : Member π)
  /-- Give the process back or kill it. -/
  | leave (m : Member π) (answer : Except CommandError JobResult)
  /-- Resolve the promise. -/
  | resolve (result : JobResult)

/-- The process that a unit has to itself. -/
def Duty.member? {π : Type} : Duty π → Option (Member π)
  | .ask m => some m
  | .leave m _ => some m
  | _ => none

/-- An admitted unit, until its promise is resolved. -/
structure Task (π : Type) where
  unit : PoolUnit RequestLine
  duty : Duty π

/-- A request line that was written to a process, and the line that was read in reply. -/
structure Call where
  ticket : Nat
  number : Nat
  line : String
  reply : List UInt8
  deriving DecidableEq

structure Crew (ε π : Type) where
  /-- The pool; its running units are those of the tasks. -/
  pool : Pool RequestLine
  /-- The number of identifiers given to requests so far. -/
  issued : Nat
  tasks : List (Task π)
  /-- How many units are resolved and hold their permit still. -/
  holding : Nat
  /-- The processes without a request, the one that became idle last first. -/
  idle : List (Member π)
  started : Nat
  /-- The numbers of the killed processes, in order. -/
  killed : List Nat
  /-- The request lines written so far, in order. -/
  calls : List Call
  shared : ε

namespace WorkerProcess

variable {ε π : Type}

/-- The line that a process writes in reply to a request line, if it takes one. -/
def reply? (program : WorkerProgram ε π) (line : String) (p : WorkerProcess π) (shared : ε) :
    Option (List UInt8) :=
  p.state.map fun state =>
    (firstLine (p.unread ++ (program.receive p.unread line state shared).1.written)).1

end WorkerProcess

namespace Crew

variable {ε π : Type}

/-- A pool of processes none of which has a request. -/
def ofPool (p : ProcessPool ε π) : Crew ε π :=
  ⟨p.pool, p.issued, [], 0, p.idle.mapIdx Member.mk, p.started, [], [], p.shared⟩

/-- The pool without the numbers of its processes and without what was killed and written. -/
def toPool (c : Crew ε π) : ProcessPool ε π where
  pool := c.pool
  issued := c.issued
  idle := c.idle.map Member.process
  engaged := c.tasks.filterMap fun t => t.duty.member?.map Member.process
  started := c.started
  shared := c.shared

def dispatch (command : JobCommand) : StateM (Crew ε π) Dispatch := fun c =>
  let (d, p) := ProcessPool.dispatch command c.toPool
  (d, { c with pool := p.pool, issued := p.issued })

/-- Deal with the first unit of the queue, if it need not wait. -/
def admit? (c : Crew ε π) : Option (Crew ε π) :=
  c.pool.admit?.map fun pool =>
    let admitted := pool.running.drop c.tasks.length
    { c with pool, tasks := c.tasks ++ admitted.map fun u => ⟨u, .look⟩ }

/-- Set what the task at a position does next. -/
def assign (c : Crew ε π) (i : Nat) (u : PoolUnit RequestLine) (duty : Duty π) : Crew ε π :=
  { c with tasks := c.tasks.set i ⟨u, duty⟩ }

def look (c : Crew ε π) (i : Nat) (u : PoolUnit RequestLine) : Crew ε π :=
  match c.idle with
  | m :: idle => { c with idle }.assign i u (.ask m)
  | [] => c.assign i u .start

def start (program : WorkerProgram ε π) (c : Crew ε π) (i : Nat) (u : PoolUnit RequestLine) :
    Crew ε π :=
  match WorkerProcess.start program c.shared with
  | (.ok process, shared) =>
    { c with started := c.started + 1, shared }.assign i u (.ask ⟨c.started, process⟩)
  | (.error fault, shared) =>
    let message := PoolFault.spawnMessage program.name fault
    { c with shared }.assign i u (.resolve (u.command.fail (.worker message)))

def ask (program : WorkerProgram ε π) (c : Crew ε π) (i : Nat) (u : PoolUnit RequestLine)
    (m : Member π) : Crew ε π :=
  let ((answer, process), shared) := m.process.call program u.work.id u.work.line c.shared
  let reply := m.process.reply? program u.work.line c.shared
  let calls := reply.toList.map fun reply => ⟨u.ticket, m.number, u.work.line, reply⟩
  { c with calls := c.calls ++ calls, shared }.assign i u (.leave ⟨m.number, process⟩ answer)

/-- A process becomes idle again if its answer is a result and the pool is still open. -/
def leave (c : Crew ε π) (i : Nat) (u : PoolUnit RequestLine) (m : Member π)
    (answer : Except CommandError JobResult) : Crew ε π :=
  let result := match answer with
    | .ok result => result
    | .error e => u.command.fail e
  if answer.toBool && !c.pool.isClosed then
    { c with idle := m :: c.idle }.assign i u (.resolve result)
  else { c with killed := c.killed ++ [m.number] }.assign i u (.resolve result)

/-- Let the task at a position go on, as long as it has no result. -/
def act? (program : WorkerProgram ε π) (c : Crew ε π) (i : Nat) : Option (Crew ε π) :=
  match c.tasks[i]? with
  | none => none
  | some t =>
    match t.duty with
    | .look => some (c.look i t.unit)
    | .start => some (c.start program i t.unit)
    | .ask m => some (c.ask program i t.unit m)
    | .leave m answer => some (c.leave i t.unit m answer)
    | .resolve _ => none

/-- Resolve the promise of the task at a position, if it has its result. -/
def resolve? (c : Crew ε π) (i : Nat) : Option (Crew ε π) :=
  match c.tasks[i]? with
  | some ⟨u, .resolve result⟩ =>
    let pool := { c.pool with running := c.pool.running.eraseIdx i }
    some { c with
      pool := pool.settle u (.resolved result)
      tasks := c.tasks.eraseIdx i
      holding := c.holding + 1 }
  | _ => none

/-- Let a resolved unit give its permit back. -/
def release? (c : Crew ε π) : Option (Crew ε π) :=
  if c.holding = 0 then none
  else some { c with pool := { c.pool with free := c.pool.free + 1 }, holding := c.holding - 1 }

/-- Admit no further request. -/
def close (c : Crew ε π) : Crew ε π := { c with pool := c.pool.close }

/-- Kill the idle processes of a closed pool. -/
def drain? (c : Crew ε π) : Option (Crew ε π) :=
  if c.pool.isClosed then
    some { c with idle := [], killed := c.killed ++ c.idle.map Member.number }
  else none

end Crew

end JobGateway
