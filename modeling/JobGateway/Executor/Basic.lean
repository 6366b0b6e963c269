import JobGateway.Delegate.Basic
import JobGateway.Executor.Exchange

/-! Executors: how commands are brought to a delegate. A dispatch hands back the result or a handle;
when the executor has come to rest, every handle that it gave out has its result. -/
namespace JobGateway

/-- What a dispatch hands back. -/
inductive Dispatch where
  | ready (result : JobResult)
  /-- A handle whose promise is resolved already. -/
  | resolved (result : JobResult)
  /-- A handle whose promise is kept under a ticket. -/
  | queued (ticket : Nat)
  deriving DecidableEq, Repr

/-- Whether a handle was handed back. -/
def Dispatch.isPending : Dispatch → Bool
  | .ready _ => false
  | _ => true

/-- An executor with states in `σ`. -/
structure Executor (σ : Type) where
  name : String
  capabilities : Capabilities
  dispatch (c : JobCommand) : StateM σ Dispatch
  /-- Run everything that was dispatched, as far as it gets. -/
  rest (s : σ) : σ
  /-- What became of the promise kept under a ticket. -/
  promise (s : σ) (ticket : Nat) : Promise
  /-- Start no further work. -/
  close (s : σ) : σ

namespace Executor

variable {σ : Type}

def promiseOf (e : Executor σ) (s : σ) : Dispatch → Promise
  | .ready result => .resolved result
  | .resolved result => .resolved result
  | .queued ticket => e.promise s ticket

/-- Whether the result of a dispatch is there. -/
def isDone (e : Executor σ) (s : σ) (d : Dispatch) : Bool := e.promiseOf s d ≠ .pending

/-- The result of a command that was dispatched, once the executor is at rest. A command that is
still not done by then never will be, like one whose promise was dropped. -/
def result (e : Executor σ) (s : σ) (c : JobCommand) (d : Dispatch) : JobResult :=
  match e.promiseOf s d with
  | .resolved result => result
  | _ => c.fail .dropped

/-- Run one command and wait for its result. -/
def run (e : Executor σ) (c : JobCommand) : StateM σ JobResult := fun s =>
  let (d, s) := e.dispatch c s
  let s := e.rest s
  (e.result s c d, s)

def runAll (e : Executor σ) (commands : List JobCommand) : StateM σ (List JobResult) :=
  commands.mapM e.run

/-- The executor that calls the delegate in the dispatch and hands back the result. -/
def sync (d : Delegate σ) : Executor σ where
  name := "sync"
  capabilities := d.capabilities
  dispatch c := .ready <$> d.invoke c
  rest s := s
  promise _ _ := .pending
  close s := s

/-- The executor that calls the delegate in the dispatch and hands back a handle. -/
def callback (d : Delegate σ) : Executor σ where
  name := "callback"
  capabilities := d.capabilities
  dispatch c := .resolved <$> d.invoke c
  rest s := s
  promise _ _ := .pending
  close s := s

end Executor

end JobGateway
