import JobGateway.Job.Command

/-! The two ends of a result to come. The promise is resolved at most once, or dropped. The handle
yields the result once; of a promise that was dropped it yields a failure. -/
namespace JobGateway

/-- What became of the promise of a result. -/
inductive Promise where
  | pending
  | resolved (result : JobResult)
  | dropped
  deriving DecidableEq, Repr

/-- The end that waits for the result of a command. It is spent once it yielded anything. -/
structure Handle where
  command : JobCommand
  spent : Bool
  deriving DecidableEq, Repr

/-- What a poll of a handle finds. -/
inductive Poll where
  | waiting
  | ready (result : JobResult)
  /-- A spent handle must not be polled. -/
  | misused
  deriving DecidableEq, Repr

namespace Handle

def new (c : JobCommand) : Handle := ⟨c, false⟩

def droppedResult (h : Handle) : JobResult := h.command.fail .dropped

/-- Take the result if it is there. A spent handle answers as if the promise had been dropped. -/
def tryTake (h : Handle) (p : Promise) : Option JobResult × Handle :=
  if h.spent then (some h.droppedResult, h)
  else match p with
    | .pending => (none, h)
    | .resolved result => (some result, { h with spent := true })
    | .dropped => (some h.droppedResult, { h with spent := true })

/-- Look once for the result, as one who waits does. -/
def poll (h : Handle) (p : Promise) : Poll × Handle :=
  if h.spent then (.misused, h)
  else match p with
    | .pending => (.waiting, h)
    | .resolved result => (.ready result, { h with spent := true })
    | .dropped => (.ready h.droppedResult, { h with spent := true })

end Handle

/-- A promise with its handle, unless that was dropped. -/
structure Exchange where
  promise : Promise
  handle : Option Handle
  deriving DecidableEq, Repr

namespace Exchange

/-- The exchange of a command, with both ends in use. -/
def new (c : JobCommand) : Exchange := ⟨.pending, some (.new c)⟩

/-- What can be done with the ends of an exchange. -/
inductive Step where
  | resolve (result : JobResult)
  | dropPromise
  | dropHandle
  | tryTake
  | poll
  deriving DecidableEq, Repr

/-- What a step answers. -/
inductive Answer where
  | resolved
  | dropped
  /-- The promise was resolved or dropped before. -/
  | noPromise
  /-- The handle was dropped before. -/
  | noHandle
  | yielded (result : Option JobResult)
  | misused
  deriving DecidableEq, Repr

def usePromise (x : Exchange) (p : Promise) (done : Answer) : Answer × Exchange :=
  match x.promise with
  | .pending => (done, { x with promise := p })
  | _ => (.noPromise, x)

def step (x : Exchange) : Step → Answer × Exchange
  | .resolve result => x.usePromise (.resolved result) .resolved
  | .dropPromise => x.usePromise .dropped .dropped
  | .dropHandle =>
    match x.handle with
    | none => (.noHandle, x)
    | some _ => (.dropped, { x with handle := none })
  | .tryTake =>
    match x.handle with
    | none => (.noHandle, x)
    | some h =>
      let (result, h) := h.tryTake x.promise
      (.yielded result, { x with handle := some h })
  | .poll =>
    match x.handle with
    | none => (.noHandle, x)
    | some h =>
      let (found, h) := h.poll x.promise
      let answer := match found with
        | .waiting => .yielded none
        | .ready result => .yielded (some result)
        | .misused => .misused
      (answer, { x with handle := some h })

def run (x : Exchange) : List Step → List Answer × Exchange
  | [] => ([], x)
  | s :: steps =>
    let (answer, x) := x.step s
    let (answers, x) := x.run steps
    (answer :: answers, x)

end Exchange

end JobGateway
