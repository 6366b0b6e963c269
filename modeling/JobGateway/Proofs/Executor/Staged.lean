import JobGateway.Executor.StagedPool
import JobGateway.Proofs.Executor.Sequential

/-! Requests that end in stages. As long as each command is awaited before the next one is dispatched,
it makes no difference how the stages follow each other: the pool comes to where the executor, which
lets a request end at once, brings it. -/
namespace JobGateway

variable {ω ε π : Type}

namespace Pool

/-- A pool with more free permits. -/
def lend (p : Pool ω) (n : Nat) : Pool ω := { p with free := p.free + n }

theorem finishAt_lend (p : Pool ω) (n i : Nat) (result : JobResult) :
    (p.lend n).finishAt i result = (p.finishAt i result).lend n := by
  simp only [finishAt, lend]
  cases p.running[i]? with
  | none => rfl
  | some u => simp only [settle, Nat.add_right_comm]

/-- More free permits keep no unit from being dealt with. -/
theorem admit?_lend {p q : Pool ω} (h : p.admit? = some q) (n : Nat) :
    (p.lend n).admit? = some (q.lend n) := by
  simp only [admit?, lend] at h ⊢
  cases hqueued : p.queued with
  | nil =>
    rw [hqueued] at h
    cases h
  | cons u queued =>
    simp only [hqueued] at h ⊢
    split_ifs at h with hclosed hfree
    · cases h
      exact if_pos hclosed
    · cases h
      have hadd : ¬ p.free + n = 0 := by omega
      have hsub : p.free + n - 1 = p.free - 1 + n := by omega
      simp only [hclosed, hadd, hsub, Bool.false_eq_true, if_false]

end Pool

namespace ProcessPool

variable {program : WorkerProgram ε π}

/-- A pool with more free permits. -/
def lend (p : ProcessPool ε π) (n : Nat) : ProcessPool ε π := { p with pool := p.pool.lend n }

theorem engage_lend (p : ProcessPool ε π) (n : Nat) :
    engage program (p.lend n) = (engage program p).lend n := by
  simp only [engage, lend]
  cases p.idle with
  | cons process idle => rfl
  | nil =>
    obtain ⟨started, shared⟩ := WorkerProcess.start program p.shared
    cases started with
    | ok process => rfl
    | error fault =>
      have hrunning : (p.pool.lend n).running = p.pool.running := rfl
      simp only [hrunning]
      cases p.pool.running[p.pool.running.length - 1]? with
      | none => rfl
      | some u => simp only [Pool.finishAt_lend]

theorem admit?_lend {p q : ProcessPool ε π} (h : p.admit? program = some q) (n : Nat) :
    (p.lend n).admit? program = some (q.lend n) := by
  obtain ⟨pool, hpool, rfl⟩ := Option.map_eq_some_iff.1 h
  have hlend := Pool.admit?_lend hpool n
  rw [ProcessPool.admit?, lend, hlend, Option.map_some]
  change some (if pool.running.length = p.pool.running.length then _ else _) = _
  split
  · rfl
  · exact congrArg some (engage_lend { p with pool } n)

end ProcessPool

namespace StagedPool

/-- What can happen in a pool that is left alone. -/
inductive Step (program : WorkerProgram ε π) : StagedPool ε π → StagedPool ε π → Prop
  | enter {p q : StagedPool ε π} (h : p.admit? program = some q) : Step program p q
  | answer {p q : StagedPool ε π} {i : Nat} (h : p.answer? program i = some q) : Step program p q
  | resolve {p q : StagedPool ε π} {i : Nat} (h : p.resolve? i = some q) : Step program p q
  | release {p q : StagedPool ε π} (h : p.release? = some q) : Step program p q

/-- Any number of steps. -/
abbrev Steps (program : WorkerProgram ε π) : StagedPool ε π → StagedPool ε π → Prop :=
  Relation.ReflTransGen (Step program)

/-- A run of commands with their results. Each is dispatched when the promise of the one before is
resolved, however far the pool has come by then. -/
inductive Run (program : WorkerProgram ε π) :
    StagedPool ε π → List (JobCommand × JobResult) → StagedPool ε π → Prop
  | nil (p : StagedPool ε π) : Run program p [] p
  | cons {p q last : StagedPool ε π} {c : JobCommand} {result : JobResult}
      {runs : List (JobCommand × JobResult)} (steps : Steps program (p.dispatch c).2 q)
      (resolved : q.promiseOf (p.dispatch c).1 = .resolved result) (tail : Run program q runs last) :
      Run program p ((c, result) :: runs) last

variable {program : WorkerProgram ε π} {p q : StagedPool ε π}

/-- What holds of a pool at all times after a ticket was given out: no later ticket was, and some
permit is free or will be. -/
structure Steady (ticket : Nat) (p : StagedPool ε π) : Prop where
  isDriven : p.processes.pool.isDriven = true
  submitted : p.processes.pool.submitted = ticket + 1
  settled : ∀ x ∈ p.processes.pool.settled, x.1 ≤ ticket
  permits : 0 < p.processes.pool.free + p.processes.pool.running.length + p.answered.length + p.holding

/-- The units of a pool by what they wait for, with the processes of the running ones. -/
structure Holds (p : StagedPool ε π) (queued running : List (PoolUnit RequestLine))
    (engaged : List (WorkerProcess π)) (answered : List (PoolUnit RequestLine × JobResult)) :
    Prop where
  queued : p.processes.pool.queued = queued
  running : p.processes.pool.running = running
  engaged : p.processes.engaged = engaged
  answered : p.answered = answered

/-- How far the unit of a ticket has come, when all others have ended. -/
inductive Stage (ticket : Nat) (p : StagedPool ε π) : Prop
  | queued (u : PoolUnit RequestLine) (ticket_eq : u.ticket = ticket) (units : p.Holds [u] [] [] [])
      (unsettled : p.processes.pool.settled.lookup ticket = none)
  | running (u : PoolUnit RequestLine) (process : WorkerProcess π) (ticket_eq : u.ticket = ticket)
      (units : p.Holds [] [u] [process] [])
      (unsettled : p.processes.pool.settled.lookup ticket = none)
  | answered (u : PoolUnit RequestLine) (result : JobResult) (ticket_eq : u.ticket = ticket)
      (units : p.Holds [] [] [] [(u, result)])
      (unsettled : p.processes.pool.settled.lookup ticket = none)
  | ended (result : JobResult) (units : p.Holds [] [] [] [])
      (settled : p.processes.pool.promise ticket = .resolved result)

theorem flush_of_answered (h : p.answered = []) : p.flush = p.processes.lend p.holding := by
  simp [flush, h, ProcessPool.lend, Pool.lend]

theorem admit?_of_queued (h : p.processes.pool.queued = []) : p.admit? program = none := by
  simp [admit?, ProcessPool.admit?, Pool.admit?, h]

theorem answer?_of_running (h : p.processes.pool.running = []) (i : Nat) :
    p.answer? program i = none := by
  simp [answer?, h]

theorem resolve?_of_answered (h : p.answered = []) (i : Nat) : p.resolve? i = none := by
  simp [resolve?, h]

/-- A permit that is given back was only held. -/
theorem flush_release (h : p.release? = some q) : q.flush = p.flush := by
  simp only [release?] at h
  split_ifs at h with hholding
  cases h
  have hfree : p.processes.pool.free + 1 + p.answered.length + (p.holding - 1) =
      p.processes.pool.free + p.answered.length + p.holding := by omega
  simp only [flush, hfree]

theorem Stage.release {ticket : Nat} (hp : Stage ticket p) (hsteady : Steady ticket p)
    (h : p.release? = some q) : Stage ticket q ∧ Steady ticket q := by
  simp only [release?] at h
  split_ifs at h with hholding
  cases h
  constructor
  · cases hp with
    | queued u ticket_eq units unsettled =>
      exact .queued u ticket_eq ⟨units.queued, units.running, units.engaged, units.answered⟩ unsettled
    | running u process ticket_eq units unsettled =>
      exact .running u process ticket_eq
        ⟨units.queued, units.running, units.engaged, units.answered⟩ unsettled
    | answered u result ticket_eq units unsettled =>
      exact .answered u result ticket_eq
        ⟨units.queued, units.running, units.engaged, units.answered⟩ unsettled
    | ended result units settled =>
      exact .ended result ⟨units.queued, units.running, units.engaged, units.answered⟩ settled
  · have hpermits := hsteady.permits
    refine ⟨hsteady.isDriven, hsteady.submitted, hsteady.settled, ?_⟩
    simp only
    omega

theorem Steady.append {settled : List (Nat × Promise)} {ticket : Nat} (promise : Promise)
    (h : ∀ x ∈ settled, x.1 ≤ ticket) : ∀ x ∈ settled ++ [(ticket, promise)], x.1 ≤ ticket := by
  rw [List.forall_mem_append, List.forall_mem_singleton]
  exact ⟨h, Nat.le_refl ticket⟩

/-- The only waiting request is dealt with. -/
theorem Stage.enter {u : PoolUnit RequestLine} (units : p.Holds [u] [] [] [])
    (unsettled : p.processes.pool.settled.lookup u.ticket = none) (hsteady : Steady u.ticket p)
    (h : p.admit? program = some q) :
    Stage u.ticket q ∧ Steady u.ticket q ∧ p.flush.admit? program = some q.flush := by
  obtain ⟨processes, hprocesses, rfl⟩ := Option.map_eq_some_iff.1 h
  obtain ⟨queued, running, engaged, answered⟩ := units
  obtain ⟨isDriven, submitted, settled, permits⟩ := hsteady
  have hflush := ProcessPool.admit?_lend hprocesses p.holding
  rw [flush_of_answered answered, flush_of_answered (p := { p with processes }) answered, ← and_assoc]
  refine ⟨?_, hflush⟩
  obtain ⟨pool, hpool, hengage⟩ := Option.map_eq_some_iff.1 hprocesses
  simp only [Pool.admit?, queued] at hpool
  split_ifs at hpool with hclosed hfree
  · cases hpool
    simp only [Pool.settle, if_true] at hengage
    cases hengage
    exact ⟨.ended _ ⟨rfl, running, engaged, answered⟩ (Pool.promise_append unsettled _),
      isDriven, submitted, Steady.append _ settled, permits⟩
  · cases hpool
    have hpermits : 0 < p.processes.pool.free - 1 + 1 + p.answered.length + p.holding := by omega
    have hlength : (p.processes.pool.running ++ [u]).length ≠ p.processes.pool.running.length := by
      simp
    rw [if_neg hlength] at hengage
    simp only [ProcessPool.engage, running, engaged, List.nil_append] at hengage
    cases hidle : p.processes.idle with
    | cons process idle =>
      rw [hidle] at hengage
      cases hengage
      exact ⟨.running u process rfl ⟨rfl, rfl, rfl, answered⟩ unsettled,
        isDriven, submitted, settled, hpermits⟩
    | nil =>
      simp only [hidle] at hengage
      generalize WorkerProcess.start program p.processes.shared = out at hengage
      obtain ⟨fault | process, shared⟩ := out
      · cases hengage
        exact ⟨.ended _ ⟨rfl, rfl, rfl, answered⟩ (Pool.promise_append unsettled _),
          isDriven, submitted, Steady.append _ settled, hpermits⟩
      · cases hengage
        exact ⟨.running u _ rfl ⟨rfl, rfl, rfl, answered⟩ unsettled,
          isDriven, submitted, settled, hpermits⟩

/-- The only running request is answered. -/
theorem Stage.answer {u : PoolUnit RequestLine} {process : WorkerProcess π} {i : Nat}
    (units : p.Holds [] [u] [process] [])
    (unsettled : p.processes.pool.settled.lookup u.ticket = none)
    (hsteady : Steady u.ticket p) (h : p.answer? program i = some q) :
    Stage u.ticket q ∧ Steady u.ticket q ∧ p.flush.finish? program = some q.flush := by
  obtain ⟨queued, running, engaged, answered⟩ := units
  cases i with
  | succ i => simp [answer?, running] at h
  | zero =>
    simp only [answer?, running, engaged, List.getElem?_cons_zero] at h
    rw [flush_of_answered answered]
    simp only [ProcessPool.finish?, ProcessPool.lend, Pool.lend, running, engaged]
    generalize process.call program u.work.id u.work.line p.processes.shared = out at h ⊢
    obtain ⟨⟨answer, next⟩, shared⟩ := out
    obtain ⟨isDriven, submitted, settled, permits⟩ := hsteady
    cases h
    refine ⟨.answered u _ rfl ⟨queued, rfl, rfl, by rw [answered]; rfl⟩ unsettled,
      ⟨isDriven, submitted, settled, ?_⟩, ?_⟩
    · simp only [List.length_append, List.length_singleton]
      omega
    · have hfree : p.processes.pool.free + p.holding + 1 = p.processes.pool.free + 1 + p.holding :=
        Nat.add_right_comm ..
      simp only [flush, answered, Pool.finishAt, Pool.settle, List.getElem?_cons_zero, hfree]
      rfl

/-- The promise of the only answered request is resolved. -/
theorem Stage.resolve {u : PoolUnit RequestLine} {result : JobResult} {i : Nat}
    (units : p.Holds [] [] [] [(u, result)])
    (unsettled : p.processes.pool.settled.lookup u.ticket = none)
    (hsteady : Steady u.ticket p) (h : p.resolve? i = some q) :
    Stage u.ticket q ∧ Steady u.ticket q ∧ q.flush = p.flush := by
  obtain ⟨queued, running, engaged, answered⟩ := units
  cases i with
  | succ i => simp [resolve?, answered] at h
  | zero =>
    simp only [resolve?, answered, List.getElem?_cons_zero, Option.map_some] at h
    obtain ⟨isDriven, submitted, settled, permits⟩ := hsteady
    cases h
    refine ⟨.ended result ⟨queued, running, engaged, rfl⟩ (Pool.promise_append unsettled _),
      ⟨isDriven, submitted, Steady.append _ settled, ?_⟩, ?_⟩
    · simp only [Pool.settle]
      omega
    · simp [flush, answered, Pool.settle, Nat.add_right_comm, Nat.add_assoc]

/-- One step leads the unit on, and the pool to where it comes to rest anyway. -/
theorem Stage.step {ticket : Nat} (hp : Stage ticket p) (hsteady : Steady ticket p)
    (h : Step program p q) :
    Stage ticket q ∧ Steady ticket q ∧
      ProcessPool.rest program q.flush = ProcessPool.rest program p.flush := by
  -- The unit is alone, so each kind of step but a release fits one stage only.
  cases h with
  | release h =>
    obtain ⟨hq, hsteady⟩ := hp.release hsteady h
    exact ⟨hq, hsteady, by rw [flush_release h]⟩
  | enter h =>
    cases hp with
    | queued u ticket_eq units unsettled =>
      subst ticket_eq
      obtain ⟨hq, hsteady, hflush⟩ := Stage.enter units unsettled hsteady h
      have hnext : p.flush.next? program = some q.flush := by
        rw [ProcessPool.next?, hflush, Option.some_or]
      rw [ProcessPool.rest_eq (p := p.flush), hnext, Option.elim_some]
      exact ⟨hq, hsteady, rfl⟩
    | running _ _ _ units | answered _ _ _ units | ended _ units =>
      rw [admit?_of_queued units.queued] at h
      cases h
  | answer h =>
    cases hp with
    | running u process ticket_eq units unsettled =>
      subst ticket_eq
      obtain ⟨hq, hsteady, hflush⟩ := Stage.answer units unsettled hsteady h
      have hnext : p.flush.next? program = some q.flush := by
        have hadmit : p.flush.admit? program = none := by
          simp [ProcessPool.admit?, Pool.admit?, flush, units.queued]
        rw [ProcessPool.next?, hadmit, Option.none_or, hflush]
      rw [ProcessPool.rest_eq (p := p.flush), hnext, Option.elim_some]
      exact ⟨hq, hsteady, rfl⟩
    | queued _ _ units | answered _ _ _ units | ended _ units =>
      rw [answer?_of_running units.running] at h
      cases h
  | resolve h =>
    cases hp with
    | answered u result ticket_eq units unsettled =>
      subst ticket_eq
      obtain ⟨hq, hsteady, hflush⟩ := Stage.resolve units unsettled hsteady h
      exact ⟨hq, hsteady, by rw [hflush]⟩
    | queued _ _ units | running _ _ _ units | ended _ units =>
      rw [resolve?_of_answered units.answered] at h
      cases h

theorem Stage.steps {ticket : Nat} (hp : Stage ticket p) (hsteady : Steady ticket p)
    (h : Steps program p q) :
    Stage ticket q ∧ Steady ticket q ∧
      ProcessPool.rest program q.flush = ProcessPool.rest program p.flush := by
  induction h with
  | refl => exact ⟨hp, hsteady, rfl⟩
  | tail _ hstep ih =>
    obtain ⟨hp, hsteady, hrest⟩ := ih
    obtain ⟨hq, hsteady, hrest'⟩ := hp.step hsteady hstep
    exact ⟨hq, hsteady, hrest'.trans hrest⟩

/-- A pool whose units have all ended, but for permits that are still held. -/
structure Quiet (p : StagedPool ε π) : Prop where
  units : p.Holds [] [] [] []
  isDriven : p.processes.pool.isDriven = true
  settled : ∀ x ∈ p.processes.pool.settled, x.1 < p.processes.pool.submitted
  permits : 0 < p.processes.pool.free + p.holding

theorem flush_ofPool (p : ProcessPool ε π) : (ofPool p).flush = p := by
  simp [flush, ofPool]

theorem quiet_ofPool {p : ProcessPool ε π} (hidle : p.pool.Idle) (hengaged : p.engaged = []) :
    (ofPool p).Quiet :=
  ⟨⟨hidle.queued, hidle.running, hengaged, rfl⟩, hidle.isDriven, hidle.settled, hidle.free⟩

/-- The pool is quiet as soon as the promise is resolved. -/
theorem Stage.quiet {ticket : Nat} {result : JobResult} (hp : Stage ticket p)
    (hsteady : Steady ticket p) (h : p.processes.pool.promise ticket = .resolved result) : p.Quiet := by
  cases hp with
  | queued _ _ _ unsettled | running _ _ _ _ unsettled | answered _ _ _ _ unsettled =>
    rw [Pool.promise, unsettled] at h
    cases h
  | ended _ units =>
    obtain ⟨isDriven, submitted, settled, permits⟩ := hsteady
    rw [units.running, units.answered] at permits
    refine ⟨units, isDriven, ?_, permits⟩
    rw [submitted]
    exact fun x hx => Nat.lt_succ_of_le (settled x hx)

theorem Quiet.step (hp : p.Quiet) (h : Step program p q) : q.Quiet ∧ q.flush = p.flush := by
  cases h with
  | release h =>
    refine ⟨?_, flush_release h⟩
    have hpermits := hp.permits
    simp only [release?] at h
    split_ifs at h
    cases h
    exact ⟨⟨hp.units.queued, hp.units.running, hp.units.engaged, hp.units.answered⟩, hp.isDriven,
      hp.settled, by simp only; omega⟩
  | enter h =>
    rw [admit?_of_queued hp.units.queued] at h
    cases h
  | answer h =>
    rw [answer?_of_running hp.units.running] at h
    cases h
  | resolve h =>
    rw [resolve?_of_answered hp.units.answered] at h
    cases h

theorem Quiet.steps (hp : p.Quiet) (h : Steps program p q) : q.Quiet ∧ q.flush = p.flush := by
  induction h with
  | refl => exact ⟨hp, rfl⟩
  | tail _ hstep ih =>
    obtain ⟨hq, hflush⟩ := ih.1.step hstep
    exact ⟨hq, hflush.trans ih.2⟩

theorem Quiet.rest_flush (hp : p.Quiet) : ProcessPool.rest program p.flush = p.flush := by
  have hnext : p.flush.next? program = none := by
    simp [ProcessPool.next?, ProcessPool.admit?, Pool.admit?, ProcessPool.finish?, flush,
      hp.units.queued, hp.units.running]
  rw [ProcessPool.rest_eq, hnext, Option.elim_none]

theorem Quiet.promise_flush (hp : p.Quiet) (ticket : Nat) :
    p.flush.pool.promise ticket = p.processes.pool.promise ticket := by
  simp [flush, hp.units.answered, Pool.promise]

/-- A command that cannot be written leaves the pool quiet. -/
theorem Quiet.dispatch_error (hp : p.Quiet) {c : JobCommand} {fault : Utf8.Fault}
    (h : c.toJson = .error fault) :
    (p.dispatch c).1 = .resolved (c.fail (.marshal (JobSpec.notText fault))) ∧
      (p.dispatch c).2.Quiet ∧
      ProcessPool.dispatch c p.flush = ((p.dispatch c).1, (p.dispatch c).2.flush) := by
  rw [ProcessPool.dispatch_error h]
  simp only [dispatch, ProcessPool.dispatch_error h]
  have hunits := hp.units
  exact ⟨trivial, ⟨⟨hunits.queued, hunits.running, hunits.engaged, hunits.answered⟩, hp.isDriven,
    hp.settled, hp.permits⟩, rfl⟩

/-- Any other command becomes the only unit that has not ended. -/
theorem Quiet.dispatch_ok (hp : p.Quiet) {c : JobCommand} {j : Json} (h : c.toJson = .ok j) :
    (p.dispatch c).1 = .queued p.processes.pool.submitted ∧
      Stage p.processes.pool.submitted (p.dispatch c).2 ∧
      Steady p.processes.pool.submitted (p.dispatch c).2 ∧
      ProcessPool.dispatch c p.flush = ((p.dispatch c).1, (p.dispatch c).2.flush) := by
  obtain ⟨request, hrequest⟩ := WorkerRequest.exists_toJson (.numbered p.processes.issued) h
  obtain ⟨⟨queued, running, engaged, answered⟩, isDriven, settled, permits⟩ := hp
  have hflush : (WorkerRequest.mk (.numbered p.flush.issued) c).toJson = .ok request := hrequest
  rw [ProcessPool.dispatch_ok hflush]
  simp only [dispatch, ProcessPool.dispatch_ok hrequest, Pool.submit, flush, isDriven, if_true]
  refine ⟨trivial, ?_, ?_, trivial⟩
  · have hqueued : ∀ u, p.processes.pool.queued ++ [u] = [u] := by simp [queued]
    exact .queued _ rfl ⟨hqueued _, running, engaged, answered⟩ (Pool.lookup_submitted settled)
  · refine ⟨rfl, rfl, fun x hx => Nat.le_of_lt (settled x hx), ?_⟩
    simp only [running, answered]
    exact permits

/-- A run brings the pool where the executor brings it, with the same results. -/
theorem Run.runAll {runs : List (JobCommand × JobResult)} {last : StagedPool ε π}
    (h : Run program p runs last) (hp : p.Quiet) (capabilities : Capabilities) :
    (ProcessPool.executor program capabilities).runAll (runs.map (·.1)) p.flush =
        (runs.map (·.2), last.flush) ∧ last.Quiet := by
  induction h with
  | nil p => exact ⟨rfl, hp⟩
  | @cons p q last c result runs hsteps hresolved _ ih =>
    let e := ProcessPool.executor program capabilities
    have hrun : e.run c p.flush =
        let answer := ProcessPool.dispatch c p.flush
        let rested := ProcessPool.rest program answer.2
        (e.result rested c answer.1, rested) := rfl
    have hturn : q.Quiet ∧ e.run c p.flush = (result, q.flush) := by
      cases hc : c.toJson with
      | error fault =>
        obtain ⟨hdispatch, hquiet, hflush⟩ := hp.dispatch_error hc
        obtain ⟨hq, hflush'⟩ := hquiet.steps hsteps
        rw [hdispatch] at hresolved
        cases hresolved
        rw [hrun, hflush, hdispatch]
        simp only [hquiet.rest_flush, hflush']
        exact ⟨hq, rfl⟩
      | ok j =>
        obtain ⟨hdispatch, hstage, hsteady, hflush⟩ := hp.dispatch_ok hc
        obtain ⟨hq, hsteady, hrest⟩ := hstage.steps hsteady hsteps
        rw [hdispatch] at hresolved
        have hquiet := hq.quiet hsteady hresolved
        have hpromise := hquiet.promise_flush p.processes.pool.submitted
        rw [show q.processes.pool.promise _ = _ from hresolved] at hpromise
        -- At rest the executor is where the steps have led, so it finds the same promise.
        have hresult : e.result q.flush c (.queued _) = result := Executor.result_queued hpromise c
        rw [hrun, hflush, hdispatch]
        simp only [← hrest, hquiet.rest_flush, hresult]
        exact ⟨hquiet, trivial⟩
    obtain ⟨hq, hrun⟩ := hturn
    obtain ⟨hall, hlast⟩ := ih hq
    refine ⟨?_, hlast⟩
    rw [Executor.runAll] at hall ⊢
    rw [List.map_cons, mapM_cons_state, hrun, hall]
    rfl

/-- How many stages the units of a pool are still to go through. -/
def remaining (p : StagedPool ε π) : Nat :=
  3 * p.processes.pool.remaining + 2 * p.answered.length + p.holding

/-- Every step brings some unit nearer to its end, so a pool that is left alone comes to rest. -/
theorem Step.remaining_lt (h : Step program p q) : q.remaining < p.remaining := by
  cases h with
  | enter h =>
    obtain ⟨processes, hprocesses, rfl⟩ := Option.map_eq_some_iff.1 h
    have hlt := ProcessPool.remaining_admit? hprocesses
    simp only [remaining]
    omega
  | @answer i h =>
    simp only [answer?] at h
    split at h
    · next u process hu _ =>
      have hi := (List.getElem?_eq_some_iff.1 hu).1
      cases h
      simp only [remaining, Pool.remaining, List.length_eraseIdx_of_lt hi, List.length_append,
        List.length_singleton]
      omega
    · cases h
  | @resolve i h =>
    obtain ⟨⟨u, result⟩, hu, rfl⟩ := Option.map_eq_some_iff.1 h
    have hi := (List.getElem?_eq_some_iff.1 hu).1
    simp only [remaining, Pool.remaining, Pool.settle, List.length_eraseIdx_of_lt hi]
    omega
  | release h =>
    simp only [release?] at h
    split_ifs at h with hholding
    cases h
    simp only [remaining, Pool.remaining]
    omega

/-- A unit that has not ended can go on, if only by a permit that another one gives back. -/
theorem Stage.progress (program : WorkerProgram ε π) {ticket : Nat} (hp : Stage ticket p)
    (hsteady : Steady ticket p) :
    (∃ result, p.processes.pool.promise ticket = .resolved result) ∨ ∃ q, Step program p q := by
  cases hp with
  | ended result _ settled => exact .inl ⟨result, settled⟩
  | answered u result _ units =>
    have hresolve : ∃ q, p.resolve? 0 = some q := by simp [resolve?, units.answered]
    obtain ⟨q, hq⟩ := hresolve
    exact .inr ⟨q, .resolve hq⟩
  | running u process _ units =>
    have hanswer : ∃ q, p.answer? program 0 = some q := by
      simp only [answer?, units.running, units.engaged, List.getElem?_cons_zero]
      exact ⟨_, rfl⟩
    obtain ⟨q, hq⟩ := hanswer
    exact .inr ⟨q, .answer hq⟩
  | queued u _ units =>
    cases hadmit : p.admit? program with
    | some q => exact .inr ⟨q, .enter hadmit⟩
    | none =>
      have hpool : p.processes.pool.admit? = none := by
        simpa [admit?, ProcessPool.admit?] using hadmit
      have hfree : p.processes.pool.free = 0 := by
        simp only [Pool.admit?, units.queued] at hpool
        split_ifs at hpool with _ hfree
        exact hfree
      have hpermits := hsteady.permits
      rw [hfree, units.running, units.answered, List.length_nil, List.length_nil] at hpermits
      have hrelease : ∃ q, p.release? = some q := by
        rw [release?, if_neg (by omega)]
        exact ⟨_, rfl⟩
      obtain ⟨q, hq⟩ := hrelease
      exact .inr ⟨q, .release hq⟩

theorem Stage.resolves (program : WorkerProgram ε π) {ticket : Nat} (hp : Stage ticket p)
    (hsteady : Steady ticket p) : ∃ q, Steps program p q ∧
      ∃ result, q.processes.pool.promise ticket = .resolved result := by
  induction hn : p.remaining using Nat.strong_induction_on generalizing p with
  | _ n ih =>
    obtain hresolved | ⟨q, hstep⟩ := hp.progress program hsteady
    · exact ⟨p, .refl, hresolved⟩
    · -- The stage is kept, so the rest of the steps is found from there, with less remaining.
      obtain ⟨hq, hsteady, -⟩ := hp.step hsteady hstep
      have hlt := hstep.remaining_lt
      obtain ⟨r, hsteps, hresolved⟩ := ih q.remaining (by omega) hq hsteady rfl
      exact ⟨r, .head hstep hsteps, hresolved⟩

/-- However far a pool has come after the dispatch of a command, its promise will be resolved. -/
theorem Quiet.resolves (hp : p.Quiet) {c : JobCommand} (h : Steps program (p.dispatch c).2 q) :
    ∃ r, Steps program q r ∧ ∃ result, r.promiseOf (p.dispatch c).1 = .resolved result := by
  cases hc : c.toJson with
  | error fault =>
    obtain ⟨hdispatch, -, -⟩ := hp.dispatch_error hc
    rw [hdispatch]
    exact ⟨q, .refl, _, rfl⟩
  | ok j =>
    obtain ⟨hdispatch, hstage, hsteady, -⟩ := hp.dispatch_ok hc
    obtain ⟨hq, hsteady, -⟩ := hstage.steps hsteady h
    rw [hdispatch]
    exact hq.resolves program hsteady

end StagedPool

end JobGateway
