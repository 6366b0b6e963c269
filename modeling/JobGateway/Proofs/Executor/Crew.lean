import JobGateway.Executor.Crew
import JobGateway.Proofs.Executor.Resolution
import JobGateway.Proofs.Executor.Staged

/-! Runs of a crew. A run is any sequence of the steps of its requests and of a shutdown. What happens
in a crew happens in a pool of units, in which a unit keeps its permit as long as it runs. -/
namespace JobGateway

/-- To submit a unit takes no permit. -/
theorem Pool.submit_lend {ω : Type} (p : Pool ω) (n : Nat) (command : JobCommand) (work : ω) :
    (p.submit command work).lend n = (p.lend n).submit command work := by
  rw [submit, submit]
  cases hdriven : p.isDriven <;> simp [lend, settle, closedResult, hdriven]

namespace Crew

open Pool (Event submissions admissions)

variable {ε π : Type}

/-- The steps of a crew, with what happens in its pool. -/
inductive Step (program : WorkerProgram ε π) : Crew ε π → List (Event RequestLine) → Crew ε π → Prop
  | reject {c : Crew ε π} {command : JobCommand} {fault : Utf8.Fault}
      (unwritable : command.toJson = .error fault) : Step program c [] (c.dispatch command).2
  | submit {c : Crew ε π} {command : JobCommand} {j : Json}
      (request : (WorkerRequest.mk (.numbered c.issued) command).toJson = .ok j) :
    Step program c [.submitted ⟨c.pool.submitted, command, ⟨.numbered c.issued, j.text⟩⟩]
      (c.dispatch command).2
  | start {c c' : Crew ε π} {u : PoolUnit RequestLine} (head : c.pool.queued.head? = some u)
      (isOpen : c.pool.isClosed = false) (taken : c.admit? = some c') : Step program c [.started u] c'
  | refuse {c c' : Crew ε π} {u : PoolUnit RequestLine} (head : c.pool.queued.head? = some u)
      (isClosed : c.pool.isClosed = true) (taken : c.admit? = some c') : Step program c [.refused u] c'
  | act {c c' : Crew ε π} {i : Nat} (act : c.act? program i = some c') : Step program c [] c'
  | resolve {c c' : Crew ε π} {i : Nat} {u : PoolUnit RequestLine} {result : JobResult}
      (task : c.tasks[i]? = some ⟨u, .resolve result⟩) (resolve : c.resolve? i = some c') :
    Step program c [.finished u result] c'
  | release {c c' : Crew ε π} (release : c.release? = some c') : Step program c [] c'
  | close (c : Crew ε π) : Step program c [.closed] c.close
  | drain {c c' : Crew ε π} (drain : c.drain? = some c') : Step program c [] c'

/-- Any number of steps, and what happens in the pool. -/
inductive Run (program : WorkerProgram ε π) (start : Crew ε π) :
    List (Event RequestLine) → Crew ε π → Prop
  | start : Run program start [] start
  | step {es es' : List (Event RequestLine)} {c c' : Crew ε π} (run : Run program start es c)
      (step : Step program c es' c') : Run program start (es ++ es') c'

/-- The pool of a crew, in which the permits of the resolved units count as free. -/
def units (c : Crew ε π) : Pool RequestLine := c.pool.lend c.holding

/-- The tasks of a crew are its running units, in order. -/
def Paired (c : Crew ε π) : Prop := c.tasks.map Task.unit = c.pool.running

variable {program : WorkerProgram ε π} {c c' : Crew ε π} {es es' : List (Event RequestLine)}
  {i : Nat} {u : PoolUnit RequestLine}

theorem Paired.length_eq (h : c.Paired) : c.tasks.length = c.pool.running.length := by
  rw [← h, List.length_map]

theorem dispatch_error {command : JobCommand} {fault : Utf8.Fault}
    (h : command.toJson = .error fault) :
    (c.dispatch command).2 = { c with issued := c.issued + 1 } := by
  rw [dispatch, ProcessPool.dispatch_error h]
  rfl

theorem dispatch_ok {command : JobCommand} {j : Json}
    (h : (WorkerRequest.mk (.numbered c.issued) command).toJson = .ok j) :
    (c.dispatch command).2 = { c with
      pool := c.pool.submit command ⟨.numbered c.issued, j.text⟩, issued := c.issued + 1 } := by
  rw [dispatch, ProcessPool.dispatch_ok (p := c.toPool) h]
  rfl

/-- An open crew gives the admitted unit a task. -/
theorem admit?_of_open (hpaired : c.Paired) (head : c.pool.queued.head? = some u)
    (isOpen : c.pool.isClosed = false) (taken : c.admit? = some c') :
    ∃ pool, c.pool.admit? = some pool ∧ pool.running = c.pool.running ++ [u] ∧
      pool.free + 1 = c.pool.free ∧
      c' = { c with pool, tasks := c.tasks ++ [⟨u, .look⟩] } := by
  obtain ⟨pool, hpool, rfl⟩ := Option.map_eq_some_iff.1 taken
  obtain ⟨queued, -, hfree, rfl⟩ := Pool.admit?_of_open head isOpen hpool
  refine ⟨_, hpool, rfl, Nat.sub_add_cancel hfree, ?_⟩
  simp only [hpaired.length_eq, List.drop_left, List.map_singleton]

/-- A closed crew gives no tasks. -/
theorem admit?_of_closed (hpaired : c.Paired) (head : c.pool.queued.head? = some u)
    (isClosed : c.pool.isClosed = true) (taken : c.admit? = some c') :
    ∃ pool, c.pool.admit? = some pool ∧ pool.running = c.pool.running ∧ pool.free = c.pool.free ∧
      pool.isClosed = true ∧ c' = { c with pool } := by
  obtain ⟨pool, hpool, rfl⟩ := Option.map_eq_some_iff.1 taken
  obtain ⟨queued, -, rfl⟩ := Pool.admit?_of_closed head isClosed hpool
  refine ⟨_, hpool, rfl, rfl, isClosed, ?_⟩
  simp only [hpaired.length_eq, List.drop_length, List.map_nil, List.append_nil]

theorem ask_eq (m : Member π) :
    c.ask program i u m =
      let run := m.process.call program u.work.id u.work.line c.shared
      let calls := (m.process.reply? program u.work.line c.shared).toList.map fun reply =>
        ⟨u.ticket, m.number, u.work.line, reply⟩
      ({ c with calls := c.calls ++ calls, shared := run.2 } : Crew ε π).assign i u
        (.leave ⟨m.number, run.1.2⟩ run.1.1) :=
  rfl

/-- What the task at a position does when it goes on: it has its unit still, and the pool of units is as
it was. -/
inductive Act (program : WorkerProgram ε π) (c : Crew ε π) (i : Nat) (u : PoolUnit RequestLine) :
    Duty π → Crew ε π → Prop
  | take {m : Member π} {idle : List (Member π)} (h : c.idle = m :: idle) :
    Act program c i u .look ({ c with idle }.assign i u (.ask m))
  | miss (h : c.idle = []) : Act program c i u .look (c.assign i u .start)
  | start {process : WorkerProcess π} {shared : ε}
      (h : WorkerProcess.start program c.shared = (.ok process, shared)) :
    Act program c i u .start
      ({ c with started := c.started + 1, shared }.assign i u (.ask ⟨c.started, process⟩))
  | fail {fault : StartFault} {shared : ε}
      (h : WorkerProcess.start program c.shared = (.error fault, shared)) :
    Act program c i u .start ({ c with shared }.assign i u
      (.resolve (u.command.fail (.worker (PoolFault.spawnMessage program.name fault)))))
  | ask (m : Member π) : Act program c i u (.ask m) (c.ask program i u m)
  | keep {m : Member π} {result : JobResult} (h : c.pool.isClosed = false) :
    Act program c i u (.leave m (.ok result))
      ({ c with idle := m :: c.idle }.assign i u (.resolve result))
  | kill {m : Member π} {result : JobResult} (h : c.pool.isClosed = true) :
    Act program c i u (.leave m (.ok result))
      ({ c with killed := c.killed ++ [m.number] }.assign i u (.resolve result))
  | discard {m : Member π} {e : CommandError} :
    Act program c i u (.leave m (.error e))
      ({ c with killed := c.killed ++ [m.number] }.assign i u (.resolve (u.command.fail e)))

theorem act?_eq (h : c.act? program i = some c') :
    ∃ u duty, c.tasks[i]? = some ⟨u, duty⟩ ∧ Act program c i u duty c' := by
  unfold act? at h
  cases htask : c.tasks[i]? with
  | none =>
    rw [htask] at h
    cases h
  | some t =>
    obtain ⟨u, duty⟩ := t
    rw [htask] at h
    refine ⟨u, duty, rfl, ?_⟩
    cases duty with
    | look =>
      cases h
      rw [look]
      split
      · next m idle hidle => exact .take hidle
      · next hidle => exact .miss hidle
    | start =>
      cases h
      rw [start]
      split
      · next process shared hstart => exact .start hstart
      · next fault shared hstart => exact .fail hstart
    | ask m =>
      cases h
      exact .ask m
    | leave m answer =>
      cases h
      cases answer with
      | error e => exact .discard
      | ok result =>
        cases hclosed : c.pool.isClosed with
        | false =>
          simp only [leave, hclosed]
          exact .keep hclosed
        | true =>
          simp only [leave, hclosed]
          exact .kill hclosed
    | resolve result => cases h

/-- Only the task itself is changed by what it does. -/
theorem Act.frame {duty : Duty π} (h : Act program c i u duty c') :
    c'.pool = c.pool ∧ c'.holding = c.holding ∧ c'.issued = c.issued ∧
      ∃ duty', c'.tasks = c.tasks.set i ⟨u, duty'⟩ := by
  cases h <;> exact ⟨rfl, rfl, rfl, _, rfl⟩

/-- What a resolve does. -/
theorem resolve?_eq {result : JobResult} (task : c.tasks[i]? = some ⟨u, .resolve result⟩)
    (resolve : c.resolve? i = some c') :
    c' = { c with
      pool := { c.pool with
        running := c.pool.running.eraseIdx i
        settled := c.pool.settled ++ [(u.ticket, .resolved result)] }
      tasks := c.tasks.eraseIdx i
      holding := c.holding + 1 } := by
  rw [resolve?, task] at resolve
  exact (Option.some.inj resolve).symm

theorem release?_eq (h : c.release? = some c') :
    0 < c.holding ∧
      c' = { c with pool := { c.pool with free := c.pool.free + 1 }, holding := c.holding - 1 } := by
  rw [release?] at h
  split_ifs at h with hholding
  exact ⟨Nat.pos_of_ne_zero hholding, (Option.some.inj h).symm⟩

theorem drain?_eq (h : c.drain? = some c') :
    c.pool.isClosed = true ∧
      c' = { c with idle := [], killed := c.killed ++ c.idle.map Member.number } := by
  rw [drain?] at h
  split_ifs at h with hclosed
  exact ⟨hclosed, (Option.some.inj h).symm⟩

/-- The unit of a task is running. -/
theorem Paired.running (h : c.Paired) {duty : Duty π} (task : c.tasks[i]? = some ⟨u, duty⟩) :
    c.pool.running[i]? = some u := by
  rw [← h, List.getElem?_map, task]
  rfl

/-- The task at a position, and all others. -/
theorem tasks_perm {tasks : List (Task π)} {t : Task π} (task : tasks[i]? = some t) :
    tasks.Perm (t :: tasks.eraseIdx i) := by
  obtain ⟨hi, rfl⟩ := List.getElem?_eq_some_iff.1 task
  exact (List.getElem_cons_eraseIdx_perm hi).symm

theorem set_tasks_perm {tasks : List (Task π)} {t : Task π} (task : tasks[i]? = some t)
    (t' : Task π) : (tasks.set i t').Perm (t' :: tasks.eraseIdx i) := by
  obtain ⟨hi, rfl⟩ := List.getElem?_eq_some_iff.1 task
  exact List.set_perm_cons_eraseIdx hi t'

/-- A task that goes on keeps its unit. -/
theorem map_unit_set {tasks : List (Task π)} {duty : Duty π} (task : tasks[i]? = some ⟨u, duty⟩)
    (duty' : Duty π) : (tasks.set i ⟨u, duty'⟩).map Task.unit = tasks.map Task.unit := by
  have hunit : (tasks.map Task.unit)[i]? = some u := by rw [List.getElem?_map, task]; rfl
  obtain ⟨hi, hunit⟩ := List.getElem?_eq_some_iff.1 hunit
  rw [List.map_set]
  change (tasks.map Task.unit).set i u = _
  rw [← hunit, List.set_getElem_self]

/-- What happens in a crew happens in its pool of units. -/
theorem Step.units (h : Step program c es' c') (hpaired : c.Paired) :
    c'.Paired ∧ (es' = [] ∧ c'.units = c.units ∨ ∃ e, es' = [e] ∧ Pool.Step c.units e c'.units) := by
  cases h with
  | reject unwritable =>
    rw [dispatch_error unwritable]
    exact ⟨hpaired, .inl ⟨rfl, rfl⟩⟩
  | submit request =>
    rw [dispatch_ok request]
    refine ⟨?_, .inr ⟨_, rfl, ?_⟩⟩
    · rw [Paired, hpaired, Pool.running_submit]
    · change Pool.Step c.units _ ((c.pool.submit ..).lend c.holding)
      rw [Pool.submit_lend]
      exact .submit c.units _ _
  | start head isOpen taken =>
    obtain ⟨pool, hpool, hrunning, -, rfl⟩ := admit?_of_open hpaired head isOpen taken
    refine ⟨?_, .inr ⟨_, rfl, .start head isOpen (Pool.admit?_lend hpool c.holding)⟩⟩
    rw [Paired, List.map_append, hpaired, hrunning]
    rfl
  | refuse head isClosed taken =>
    obtain ⟨pool, hpool, hrunning, -, -, rfl⟩ := admit?_of_closed hpaired head isClosed taken
    exact ⟨hpaired.trans hrunning.symm,
      .inr ⟨_, rfl, .refuse head isClosed (Pool.admit?_lend hpool c.holding)⟩⟩
  | act act =>
    obtain ⟨u, duty, htask, hact⟩ := act?_eq act
    obtain ⟨hpool, hholding, -, duty', htasks⟩ := hact.frame
    refine ⟨?_, .inl ⟨rfl, ?_⟩⟩
    · rw [Paired, htasks, map_unit_set htask, hpool, hpaired]
    · rw [Crew.units, hpool, hholding, Crew.units]
  | @resolve _ i u result task resolve =>
    obtain rfl := resolve?_eq task resolve
    have hrunning : c.units.running[i]? = some u := hpaired.running task
    refine ⟨?_, .inr ⟨_, rfl, ?_⟩⟩
    · rw [Paired, ← List.eraseIdx_map, hpaired]
    · have hfinish := Pool.Step.finish hrunning result
      rw [Pool.finishAt_of_running hrunning] at hfinish
      exact hfinish
  | release release =>
    obtain ⟨hholding, rfl⟩ := release?_eq release
    refine ⟨hpaired, .inl ⟨rfl, ?_⟩⟩
    have hfree : c.pool.free + 1 + (c.holding - 1) = c.pool.free + c.holding := by omega
    rw [Crew.units, Crew.units, Pool.lend, Pool.lend, hfree]
  | close => exact ⟨hpaired, .inr ⟨_, rfl, .close _⟩⟩
  | drain drain =>
    obtain ⟨-, rfl⟩ := drain?_eq drain
    exact ⟨hpaired, .inl ⟨rfl, rfl⟩⟩

variable {start : Crew ε π}

theorem Run.trans {c₁ c₂ : Crew ε π} (h : Run program start es c₁) (h' : Run program c₁ es' c₂) :
    Run program start (es ++ es') c₂ := by
  induction h' with
  | start => rwa [List.append_nil]
  | step _ step ih =>
    rw [← List.append_assoc]
    exact ih.step step

theorem Step.run (h : Step program c es' c') : Run program c es' c' := Run.start.step h

/-- The pool of units runs as a pool does. -/
theorem Run.units (h : Run program start es c) (hpaired : start.Paired) :
    c.Paired ∧ Pool.Run start.units es c.units := by
  induction h with
  | start => exact ⟨hpaired, .start⟩
  | step _ step ih =>
    obtain ⟨hbefore, hrun⟩ := ih
    obtain ⟨hafter, ⟨rfl, hsame⟩ | ⟨e, rfl, hstep⟩⟩ := step.units hbefore
    · rw [List.append_nil, hsame]
      exact ⟨hafter, hrun⟩
    · exact ⟨hafter, hrun.step hstep⟩

end Crew

namespace ProcessPool

variable {ε π : Type} {program : WorkerProgram ε π}

theorem length_startAll {n : Nat} {started processes : List (WorkerProcess π)} {s s' : ε}
    (h : startAll program n started s = (.ok processes, s')) :
    processes.length = n + started.length := by
  induction n generalizing started s with
  | zero =>
    cases h
    exact (Nat.zero_add _).symm
  | succ n ih =>
    simp only [startAll, bind, StateT.bind] at h
    generalize WorkerProcess.start program s = out at h
    obtain ⟨fault | process, s₁⟩ := out
    · cases h
    · rw [ih h, List.length_cons, Nat.add_right_comm, Nat.add_assoc]

/-- What a build does. -/
theorem build_eq {capacity : Nat} {hasRuntime : Bool} {world : ε} {p : ProcessPool ε π}
    (h : build program capacity hasRuntime world = .ok p) :
    0 < capacity ∧ ∃ idle shared, startAll program capacity [] world = (.ok idle, shared) ∧
      p = ⟨.new name capacity, 0, idle, [], capacity, shared⟩ := by
  rw [build] at h
  cases hcheck : PoolFault.checkStart capacity hasRuntime with
  | error fault =>
    rw [hcheck] at h
    cases h
  | ok _ =>
    have hcapacity : 0 < capacity := by
      rw [PoolFault.checkStart] at hcheck
      split_ifs at hcheck with hzero
      exact Nat.pos_of_ne_zero hzero
    rw [hcheck] at h
    cases hstart : startAll program capacity [] world with
    | mk out shared =>
      cases out with
      | error fault =>
        simp only [hstart] at h
        cases h
      | ok idle =>
        simp only [hstart] at h
        cases hpermits : PoolFault.checkPermits capacity with
        | error fault =>
          rw [hpermits] at h
          cases h
        | ok _ =>
          rw [hpermits] at h
          cases h
          exact ⟨hcapacity, idle, shared, rfl, rfl⟩

/-- A pool as it is built: it has a permit and an idle process for each place. -/
structure Built (capacity : Nat) (p : ProcessPool ε π) : Prop where
  capacity_pos : 0 < capacity
  pool : p.pool = .new name capacity
  idle : p.idle.length = capacity
  started : p.started = capacity

theorem built {capacity : Nat} {hasRuntime : Bool} {world : ε} {p : ProcessPool ε π}
    (h : build program capacity hasRuntime world = .ok p) : p.Built capacity := by
  obtain ⟨hcapacity, idle, shared, hstart, rfl⟩ := build_eq h
  exact ⟨hcapacity, rfl, length_startAll hstart, rfl⟩

end ProcessPool

namespace Crew

variable {ε π : Type} {program : WorkerProgram ε π} {c : Crew ε π} {p : ProcessPool ε π}
  {es : List (Pool.Event RequestLine)} {capacity : Nat}

/-- What the log says about the pool of a crew. -/
theorem Run.accounted (h : Run program (.ofPool p) es c) (hp : p.Built capacity) :
    c.Paired ∧ Pool.Accounted ProcessPool.name capacity es c.units := by
  have hunits : (ofPool p).units = .new ProcessPool.name capacity := hp.pool
  have hpaired : (ofPool p).Paired := by
    rw [Paired, ofPool, hp.pool]
    rfl
  obtain ⟨hafter, hrun⟩ := h.units hpaired
  rw [hunits] at hrun
  exact ⟨hafter, hrun.accounted⟩

end Crew

end JobGateway
