import JobGateway.Executor.Exchange

/-! Admission to a pool of limited capacity. Units of work are admitted in the order in which they
were submitted, each as soon as a permit is free, and keep their permit until they are finished. A
closed pool admits no further unit. -/
namespace JobGateway

/-- A unit of work: the number of its submission, the command that it runs, and whatever else the
pool needs for it. -/
structure PoolUnit (ω : Type) where
  ticket : Nat
  command : JobCommand
  work : ω

structure Pool (ω : Type) where
  /-- The name of the pool in its failures. -/
  name : String
  capacity : Nat
  free : Nat
  isClosed : Bool
  /-- Whether the pool still takes units in; it stops when what drives it is gone. -/
  isDriven : Bool
  /-- The number of units submitted so far. -/
  submitted : Nat
  /-- The units that wait, the next one first. -/
  queued : List (PoolUnit ω)
  /-- The units that hold a permit, in the order of their admission. -/
  running : List (PoolUnit ω)
  /-- The tickets of all units admitted so far, in order. -/
  admitted : List Nat
  /-- What became of the promises of all other units, in order. -/
  settled : List (Nat × Promise)

namespace Pool

variable {ω : Type}

def new (name : String) (capacity : Nat) : Pool ω :=
  ⟨name, capacity, capacity, false, true, 0, [], [], [], []⟩

def busy (p : Pool ω) : Nat := p.capacity - p.free

/-- What became of the promise of a submitted unit. -/
def promise (p : Pool ω) (ticket : Nat) : Promise := (p.settled.lookup ticket).getD .pending

def closedResult (p : Pool ω) (c : JobCommand) : JobResult :=
  c.fail (.worker s!"{p.name} closed")

def settle (p : Pool ω) (u : PoolUnit ω) (promise : Promise) : Pool ω :=
  { p with settled := p.settled ++ [(u.ticket, promise)] }

/-- Submit a unit. Its ticket is the number of units submitted before. -/
def submit (p : Pool ω) (c : JobCommand) (work : ω) : Pool ω :=
  let u : PoolUnit ω := ⟨p.submitted, c, work⟩
  let p := { p with submitted := p.submitted + 1 }
  if p.isDriven then { p with queued := p.queued ++ [u] }
  else p.settle u (.resolved (p.closedResult c))

/-- Deal with the first unit of the queue, if it need not wait: a closed pool refuses it, and an
open one admits it if a permit is free. -/
def admit? (p : Pool ω) : Option (Pool ω) :=
  match p.queued with
  | [] => none
  | u :: queued =>
    if p.isClosed then
      some ({ p with queued }.settle u (.resolved (p.closedResult u.command)))
    else if p.free = 0 then none
    else some { p with
      queued, free := p.free - 1,
      running := p.running ++ [u], admitted := p.admitted ++ [u.ticket] }

/-- Finish the running unit at a position. Its permit becomes free. -/
def finishAt (p : Pool ω) (i : Nat) (result : JobResult) : Pool ω :=
  match p.running[i]? with
  | none => p
  | some u =>
    { p with free := p.free + 1, running := p.running.eraseIdx i }.settle u (.resolved result)

def close (p : Pool ω) : Pool ω := { p with isClosed := true }

/-- Lose what drives the pool: every unit that is queued or running is given up, and no other is
taken in. -/
def abandon (p : Pool ω) : Pool ω :=
  { p with
    isDriven := false
    free := p.capacity
    queued := []
    running := []
    settled := p.settled ++ (p.queued ++ p.running).map fun u => (u.ticket, .dropped) }

/-- How many steps the units of a pool still take: two for a queued and one for a running one. -/
def remaining (p : Pool ω) : Nat := 2 * p.queued.length + p.running.length

theorem remaining_admit? {p q : Pool ω} (h : p.admit? = some q) : q.remaining < p.remaining := by
  unfold admit? at h
  split at h
  · cases h
  · next hq =>
    split at h
    · cases h
      simp [remaining, settle, hq]
    · split at h
      · cases h
      · cases h
        simp [remaining, hq]
        omega

theorem remaining_finishAt {p : Pool ω} {i : Nat} (h : i < p.running.length) (result : JobResult) :
    (p.finishAt i result).remaining < p.remaining := by
  simp only [finishAt, List.getElem?_eq_getElem h, remaining, settle, List.length_eraseIdx_of_lt h]
  omega

end Pool

end JobGateway
