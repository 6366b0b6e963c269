import JobGateway.Executor.ThreadPool

/-! A pool of threads whose units have names and may have to wait at a gate before they end, to look
at the pool while some of its units are running. -/
namespace JobGateway

/-- What a named unit does: it waits at its gate, if it has one, and then delivers a result or
panics. -/
structure GatedWork where
  name : String
  isGated : Bool
  ending : Except PanicPayload JobResult

/-- The name under which a unit was submitted, and its handle unless that was dropped. -/
structure NamedHandle where
  name : String
  handle : Option Handle

structure GatedPool where
  pool : Pool GatedWork
  opened : List String
  /-- The handles of all submitted units, in the order of their tickets. -/
  handles : List NamedHandle

namespace GatedPool

def new (capacity : Nat) : GatedPool := ⟨.new ThreadPool.name capacity, [], []⟩

/-- Whether a running unit can go on. -/
def isReady (p : GatedPool) (u : PoolUnit GatedWork) : Bool :=
  !u.work.isGated || p.opened.contains u.work.name

def result (u : PoolUnit GatedWork) : JobResult :=
  match u.work.ending with
  | .ok result => result
  | .error payload => u.command.fail (ThreadPool.taskFailure u.ticket payload)

/-- End the first running unit that can go on. -/
def finish? (p : GatedPool) : Option (GatedPool) :=
  match h : p.pool.running.findIdx? p.isReady with
  | none => none
  | some i =>
    have : i < p.pool.running.length := (List.findIdx?_eq_some_iff_getElem.1 h).1
    some { p with pool := p.pool.finishAt i (result p.pool.running[i]) }

/-- The next step of a pool that is left alone. -/
def next? (p : GatedPool) : Option GatedPool :=
  (p.pool.admit?.map fun pool => { p with pool }).or p.finish?

theorem remaining_next? {p q : GatedPool} (h : p.next? = some q) :
    q.pool.remaining < p.pool.remaining := by
  simp only [next?] at h
  cases ha : p.pool.admit? with
  | some pool =>
    simp only [ha, Option.map_some, Option.some_or, Option.some.injEq] at h
    exact h ▸ Pool.remaining_admit? ha
  | none =>
    simp only [ha, Option.map_none, Option.none_or, finish?] at h
    split at h
    · cases h
    · next hi =>
      cases h
      exact Pool.remaining_finishAt (List.findIdx?_eq_some_iff_getElem.1 hi).1 _

/-- The pool when it has come to rest: all its running units wait at gates. -/
def rest (p : GatedPool) : GatedPool :=
  match h : p.next? with
  | none => p
  | some q => have := remaining_next? h; rest q
  termination_by p.pool.remaining

def submit (p : GatedPool) (c : JobCommand) (work : GatedWork) : GatedPool :=
  { p with
    pool := p.pool.submit c work
    handles := p.handles ++ [⟨work.name, some (.new c)⟩] }

/-- Open the gate of a name, also before a unit comes to it. -/
def release (p : GatedPool) (name : String) : GatedPool := { p with opened := name :: p.opened }

/-- Open the gates of all units submitted so far. -/
def releaseAll (p : GatedPool) : GatedPool :=
  { p with opened := p.handles.map (·.name) ++ p.opened }

def close (p : GatedPool) : GatedPool := { p with pool := p.pool.close }

/-- The ticket of the unit submitted last under a name. -/
def ticket? (p : GatedPool) (name : String) : Option Nat :=
  (List.range p.handles.length).reverse.find? fun i => p.handles[i]?.any (·.name == name)

def handle? (p : GatedPool) (ticket : Nat) : Option Handle := p.handles[ticket]?.bind (·.handle)

def setHandle (p : GatedPool) (ticket : Nat) (h : Option Handle) : GatedPool :=
  { p with handles := p.handles.modify ticket fun n => { n with handle := h } }

def dropHandle (p : GatedPool) (name : String) : GatedPool :=
  match p.ticket? name with
  | none => p
  | some ticket => p.setHandle ticket none

/-- Try to take the result of a name. Without a handle there is no answer. -/
def tryTake (p : GatedPool) (name : String) : Option (Option JobResult) × GatedPool :=
  match p.ticket? name with
  | none => (none, p)
  | some ticket =>
    match p.handle? ticket with
    | none => (none, p)
    | some h =>
      let (result, h) := h.tryTake (p.pool.promise ticket)
      (some result, p.setHandle ticket (some h))

/-- The names of the units admitted so far, in order. -/
def started (p : GatedPool) : List String :=
  p.pool.admitted.filterMap fun ticket => p.handles[ticket]?.map (·.name)

/-- The results that were not taken, under the names of their units. -/
def untaken (p : GatedPool) : List (String × JobResult) :=
  (List.range p.handles.length).filterMap fun ticket => do
    let n ← p.handles[ticket]?
    let h ← n.handle
    if h.spent then none
    else
      let result ← (h.tryTake (p.pool.promise ticket)).1
      pure (n.name, result)

end GatedPool

end JobGateway
