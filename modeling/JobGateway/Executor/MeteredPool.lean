import JobGateway.Delegate.Meter
import JobGateway.Executor.ThreadPool

/-! A pool of threads on a delegate with a meter, to look at the calls while they overlap. Each
running unit moves the meter on its own, and delivers its result behind the last action. -/
namespace JobGateway

structure MeteredPool (σ : Type) where
  threads : ThreadPool σ
  /-- How far the calls of the running units have come, in the order of the units. -/
  phases : List CallPhase
  meter : Meter

namespace MeteredPool

variable {σ : Type}

def new (capacity : Nat) (shared : σ) : MeteredPool σ := ⟨.new capacity shared, [], .new⟩

def pool (p : MeteredPool σ) : Pool Unit := p.threads.pool

def submit (p : MeteredPool σ) (c : JobCommand) : MeteredPool σ :=
  { p with threads := p.threads.submit c }

/-- Deal with the first unit of the queue, if it need not wait. -/
def admit? (p : MeteredPool σ) : Option (MeteredPool σ) :=
  p.threads.admit?.map fun threads =>
    if threads.pool.running.length = p.pool.running.length then { p with threads }
    else { p with threads, phases := p.phases ++ [.begun] }

/-- Let the running unit at a position move the meter. -/
def act? (p : MeteredPool σ) (i : Nat) : Option (MeteredPool σ) :=
  match p.pool.running[i]?, p.phases[i]? with
  | some u, some phase => (p.meter.advance? u.command phase).map fun (phase, meter) =>
    { p with phases := p.phases.set i phase, meter }
  | _, _ => none

/-- Let the running unit at a position deliver its result. -/
def finish? (d : Delegate σ) (p : MeteredPool σ) (i : Nat) : Option (MeteredPool σ) :=
  match p.pool.running[i]?, p.phases[i]? with
  | some u, some .left =>
    let (result, shared) := d.invoke u.command p.threads.shared
    some { p with
      threads := ⟨p.pool.finishAt i result, shared⟩, phases := p.phases.eraseIdx i }
  | _, _ => none

def close (p : MeteredPool σ) : MeteredPool σ :=
  { p with threads := { p.threads with pool := p.pool.close } }

end MeteredPool

end JobGateway
