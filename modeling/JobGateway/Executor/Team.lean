import JobGateway.Executor.ThreadPool

/-! A pool of threads while its units overlap, to look at the order in which they call the delegate.
The steps of a unit may fall between those of others: it makes its call; its promise is resolved; its
permit becomes free at last. -/
namespace JobGateway

/-- An admitted unit, until its promise is resolved. -/
structure ThreadTask where
  unit : PoolUnit Unit
  /-- The result of the call, once it is made. -/
  result : Option JobResult

structure Team (σ : Type) where
  /-- The pool; its running units are those of the tasks. -/
  pool : Pool Unit
  tasks : List ThreadTask
  /-- How many units are resolved and hold their permit still. -/
  holding : Nat
  /-- The units that made their call so far, in order, with their results. -/
  calls : List (PoolUnit Unit × JobResult)
  shared : σ

namespace Team

variable {σ : Type}

/-- A pool of threads none of whose running units has made its call. -/
def ofThreads (p : ThreadPool σ) : Team σ :=
  ⟨p.pool, p.pool.running.map fun u => ⟨u, none⟩, 0, [], p.shared⟩

def new (capacity : Nat) (shared : σ) : Team σ := ofThreads (.new capacity shared)

/-- The pool without its calls. -/
def toThreads (t : Team σ) : ThreadPool σ := ⟨t.pool, t.shared⟩

def submit (t : Team σ) (c : JobCommand) : Team σ := { t with pool := t.pool.submit c () }

/-- Deal with the first unit of the queue, if it need not wait. -/
def admit? (t : Team σ) : Option (Team σ) :=
  t.pool.admit?.map fun pool =>
    let admitted := pool.running.drop t.tasks.length
    { t with pool, tasks := t.tasks ++ admitted.map fun u => ⟨u, none⟩ }

/-- Let the task at a position make its call. -/
def call? (d : Delegate σ) (t : Team σ) (i : Nat) : Option (Team σ) :=
  match t.tasks[i]? with
  | some ⟨u, none⟩ =>
    let (result, shared) := d.invoke u.command t.shared
    some { t with
      tasks := t.tasks.set i ⟨u, some result⟩
      calls := t.calls ++ [(u, result)]
      shared }
  | _ => none

/-- Resolve the promise of the task at a position, if its call is made. -/
def resolve? (t : Team σ) (i : Nat) : Option (Team σ) :=
  match t.tasks[i]? with
  | some ⟨u, some result⟩ =>
    let pool := { t.pool with running := t.pool.running.eraseIdx i }
    some { t with
      pool := pool.settle u (.resolved result)
      tasks := t.tasks.eraseIdx i
      holding := t.holding + 1 }
  | _ => none

/-- Let a resolved unit give its permit back. -/
def release? (t : Team σ) : Option (Team σ) :=
  if t.holding = 0 then none
  else some { t with pool := { t.pool with free := t.pool.free + 1 }, holding := t.holding - 1 }

/-- Admit no further unit. -/
def close (t : Team σ) : Team σ := { t with pool := t.pool.close }

end Team

end JobGateway
