import JobGateway.Executor.Admission
import JobGateway.Executor.Basic
import JobGateway.Executor.PoolFault
import JobGateway.Text.Quoted

/-! The pool that runs commands on a limited number of threads, all on one delegate. At rest it is
always the longest running command that is done first. -/
namespace JobGateway

/-- A pool of threads and the state of the delegate that they share. -/
structure ThreadPool (σ : Type) where
  pool : Pool Unit
  shared : σ

namespace ThreadPool

variable {σ : Type}

def name : String := "thread pool"

def new (capacity : Nat) (shared : σ) : ThreadPool σ := ⟨.new name capacity, shared⟩

/-- Build a pool, where that is possible. -/
def build (capacity : Nat) (hasRuntime : Bool) (shared : σ) : Except PoolFault (ThreadPool σ) := do
  PoolFault.checkStart capacity hasRuntime
  PoolFault.checkPermits capacity
  return new capacity shared

/-- The failure of a unit whose thread panicked. Such a task is named by a number. -/
def taskFailure (task : Nat) : PanicPayload → CommandError
  | .text message => .panicked s!"task {task} panicked with message {Text.quoted message}"
  | .other => .panicked s!"task {task} panicked"

def submit (c : JobCommand) (p : ThreadPool σ) : ThreadPool σ :=
  { p with pool := p.pool.submit c () }

def admit? (p : ThreadPool σ) : Option (ThreadPool σ) :=
  p.pool.admit?.map fun pool => { p with pool }

/-- Let the longest running unit make its call, if any is running. -/
def finish? (d : Delegate σ) (p : ThreadPool σ) : Option (ThreadPool σ) :=
  match p.pool.running with
  | [] => none
  | u :: _ =>
    let (result, shared) := d.invoke u.command p.shared
    some ⟨p.pool.finishAt 0 result, shared⟩

/-- The next step of a pool that is left alone. -/
def next? (d : Delegate σ) (p : ThreadPool σ) : Option (ThreadPool σ) := p.admit?.or (p.finish? d)

theorem remaining_next? {d : Delegate σ} {p q : ThreadPool σ} (h : p.next? d = some q) :
    q.pool.remaining < p.pool.remaining := by
  simp only [next?, admit?] at h
  cases ha : p.pool.admit? with
  | some pool =>
    simp only [ha, Option.map_some, Option.some_or, Option.some.injEq] at h
    exact h ▸ Pool.remaining_admit? ha
  | none =>
    simp only [ha, Option.map_none, Option.none_or, finish?] at h
    split at h
    · cases h
    · next hr =>
      cases h
      exact Pool.remaining_finishAt (by simp [hr]) _

/-- The pool when it has come to rest. -/
def rest (d : Delegate σ) (p : ThreadPool σ) : ThreadPool σ :=
  match h : p.next? d with
  | none => p
  | some q => have := remaining_next? h; rest d q
  termination_by p.pool.remaining

def executor (d : Delegate σ) : Executor (ThreadPool σ) where
  name := "thread"
  capabilities := d.capabilities
  dispatch c := fun p => (.queued p.pool.submitted, p.submit c)
  rest := rest d
  promise p ticket := p.pool.promise ticket
  close p := { p with pool := p.pool.close }

end ThreadPool

end JobGateway
