import JobGateway.Executor.Admission
import JobGateway.Executor.Basic
import JobGateway.Executor.PoolFault
import JobGateway.Worker.Process

/-! The pool that runs commands in worker processes. A request goes to the process that became idle
last, or to a new one if none is idle. A process whose answer is no result of the request is killed.
At rest it is always the longest running request that is answered first. -/
namespace JobGateway

/-- A request as it is sent to a process. -/
structure RequestLine where
  id : Uuid
  line : String
  deriving DecidableEq, Repr

structure ProcessPool (ε π : Type) where
  pool : Pool RequestLine
  /-- The number of identifiers given to requests so far. -/
  issued : Nat
  /-- The processes without a request, the one that became idle last first. -/
  idle : List (WorkerProcess π)
  /-- The processes with a request, in the order of the running units. -/
  engaged : List (WorkerProcess π)
  started : Nat
  shared : ε

namespace ProcessPool

variable {ε π : Type}

def name : String := "process pool"

/-- Start a number of processes; the last one comes first. -/
def startAll (program : WorkerProgram ε π) :
    Nat → List (WorkerProcess π) → StateM ε (Except StartFault (List (WorkerProcess π)))
  | 0, started => pure (.ok started)
  | n + 1, started => do
    match ← WorkerProcess.start program with
    | .error fault => return .error fault
    | .ok p => startAll program n (p :: started)

/-- Build a pool, where that is possible, with a process for every permit. -/
def build (program : WorkerProgram ε π) (capacity : Nat) (hasRuntime : Bool) (shared : ε) :
    Except PoolFault (ProcessPool ε π) := do
  PoolFault.checkStart capacity hasRuntime
  match startAll program capacity [] shared with
  | (.error fault, _) => throw (.spawn program.name fault)
  | (.ok idle, shared) =>
    PoolFault.checkPermits capacity
    return ⟨.new name capacity, 0, idle, [], capacity, shared⟩

/-- Submit a command. One that cannot be written as a request fails at once. -/
def dispatch (c : JobCommand) : StateM (ProcessPool ε π) Dispatch := fun p =>
  let id := Uuid.numbered p.issued
  let p := { p with issued := p.issued + 1 }
  match (WorkerRequest.mk id c).toJson with
  | .error fault => (.resolved (c.fail (.marshal (JobSpec.notText fault))), p)
  | .ok request =>
    (.queued p.pool.submitted, { p with pool := p.pool.submit c ⟨id, request.text⟩ })

/-- Give a process to the unit that was admitted last. Without one the unit fails. -/
def engage (program : WorkerProgram ε π) (p : ProcessPool ε π) : ProcessPool ε π :=
  match p.idle with
  | process :: idle => { p with idle, engaged := p.engaged ++ [process] }
  | [] =>
    match WorkerProcess.start program p.shared with
    | (.ok process, shared) =>
      { p with engaged := p.engaged ++ [process], started := p.started + 1, shared }
    | (.error fault, shared) =>
      let last := p.pool.running.length - 1
      match p.pool.running[last]? with
      | none => { p with shared }
      | some u =>
        let message := PoolFault.spawnMessage program.name fault
        { p with pool := p.pool.finishAt last (u.command.fail (.worker message)), shared }

/-- Deal with the first unit of the queue, if it need not wait. -/
def admit? (program : WorkerProgram ε π) (p : ProcessPool ε π) : Option (ProcessPool ε π) :=
  p.pool.admit?.map fun pool =>
    let q := { p with pool }
    if pool.running.length = p.pool.running.length then q else engage program q

/-- Let the longest running request be answered, if any is running. Its process becomes idle again
if the answer is its result and the pool is still open. -/
def finish? (program : WorkerProgram ε π) (p : ProcessPool ε π) : Option (ProcessPool ε π) :=
  match p.pool.running, p.engaged with
  | u :: _, process :: engaged =>
    let ((answer, process), shared) := process.call program u.work.id u.work.line p.shared
    let result := match answer with
      | .ok result => result
      | .error e => u.command.fail e
    let keep := answer.toBool && !p.pool.isClosed
    some { p with
      pool := p.pool.finishAt 0 result
      idle := if keep then process :: p.idle else p.idle
      engaged, shared }
  | _, _ => none

/-- The next step of a pool that is left alone. -/
def next? (program : WorkerProgram ε π) (p : ProcessPool ε π) : Option (ProcessPool ε π) :=
  (p.admit? program).or (p.finish? program)

theorem remaining_engage_le (program : WorkerProgram ε π) (p : ProcessPool ε π) :
    (engage program p).pool.remaining ≤ p.pool.remaining := by
  unfold engage
  split
  · exact Nat.le_refl _
  · split
    · exact Nat.le_refl _
    · dsimp only
      split
      · exact Nat.le_refl _
      · next h => exact Nat.le_of_lt (Pool.remaining_finishAt (List.getElem?_eq_some_iff.1 h).1 _)

theorem remaining_next? {program : WorkerProgram ε π} {p q : ProcessPool ε π}
    (h : p.next? program = some q) : q.pool.remaining < p.pool.remaining := by
  simp only [next?, admit?] at h
  cases ha : p.pool.admit? with
  | some pool =>
    have hlt := Pool.remaining_admit? ha
    simp only [ha, Option.map_some, Option.some_or, Option.some.injEq] at h
    split at h
    · exact h ▸ hlt
    · exact h ▸ Nat.lt_of_le_of_lt (remaining_engage_le ..) hlt
  | none =>
    simp only [ha, Option.map_none, Option.none_or, finish?] at h
    split at h
    · next hr _ =>
      cases h
      exact Pool.remaining_finishAt (by simp [hr]) _
    · cases h

/-- The pool when it has come to rest. -/
def rest (program : WorkerProgram ε π) (p : ProcessPool ε π) : ProcessPool ε π :=
  match h : p.next? program with
  | none => p
  | some q => have := remaining_next? h; rest program q
  termination_by p.pool.remaining

theorem remaining_admit? {program : WorkerProgram ε π} {p q : ProcessPool ε π}
    (h : p.admit? program = some q) : q.pool.remaining < p.pool.remaining :=
  remaining_next? (by simp [next?, h] : p.next? program = some q)

/-- The pool when every request that can be admitted is with a process. -/
def admitAll (program : WorkerProgram ε π) (p : ProcessPool ε π) : ProcessPool ε π :=
  match h : p.admit? program with
  | none => p
  | some q => have := remaining_admit? h; admitAll program q
  termination_by p.pool.remaining

/-- Admit no further request and kill the idle processes. -/
def close (p : ProcessPool ε π) : ProcessPool ε π := { p with pool := p.pool.close, idle := [] }

def executor (program : WorkerProgram ε π) (capabilities : Capabilities) :
    Executor (ProcessPool ε π) where
  name := "process"
  capabilities := capabilities
  dispatch := dispatch
  rest := rest program
  promise p ticket := p.pool.promise ticket
  close := close

end ProcessPool

end JobGateway
