import JobGateway.Delegate.Meter
import JobGateway.Executor.Strategy
import JobGateway.Proofs.Worker.Serve

/-! Commands run one after the other. Each is at rest before the next one is dispatched, so a pool is
idle between two of them, and the process that answered last is the first one to be asked again. -/
namespace JobGateway

variable {σ τ π ε ω : Type}

namespace Delegate

/-- A recorded delegate does what the delegate does. -/
theorem recorded_invoke (d : Delegate σ) (c : JobCommand) (s : σ) (calls : List JobCommand) :
    d.recorded.invoke c (s, calls) =
      ((d.invoke c s).1, (d.invoke c s).2, calls ++ [c.received]) := by
  cases c <;> rfl

theorem mapM_recorded_invoke (d : Delegate σ) (commands : List JobCommand) (s : σ)
    (calls : List JobCommand) :
    commands.mapM d.recorded.invoke (s, calls) =
      ((commands.mapM d.invoke s).1, (commands.mapM d.invoke s).2,
        calls ++ commands.map JobCommand.received) := by
  induction commands generalizing s calls with
  | nil =>
    rw [List.map_nil, List.append_nil]
    rfl
  | cons c commands ih =>
    rw [mapM_cons_state, recorded_invoke, ih, mapM_cons_state]
    simp

/-- What is made of a command on the other side of a process boundary: one that cannot be written
fails, and leaves the delegate alone. -/
def invokeAcross (d : Delegate σ) (c : JobCommand) : StateM σ JobResult :=
  match c.toJson with
  | .ok _ => d.invoke c
  | .error fault => pure (c.fail (.marshal (JobSpec.notText fault)))

end Delegate

namespace Executor

/-- An executor runs a command as `step` does, as long as its state is related to that of `step`. -/
def Simulates (e : Executor τ) (step : JobCommand → StateM σ JobResult) (R : σ → τ → Prop) : Prop :=
  ∀ c s t, R s t → (e.run c t).1 = (step c s).1 ∧ R (step c s).2 (e.run c t).2

theorem Simulates.runAll {e : Executor τ} {step : JobCommand → StateM σ JobResult}
    {R : σ → τ → Prop} (h : e.Simulates step R) (commands : List JobCommand) {s : σ} {t : τ}
    (hst : R s t) :
    (e.runAll commands t).1 = (commands.mapM step s).1 ∧
      R (commands.mapM step s).2 (e.runAll commands t).2 := by
  induction commands generalizing s t with
  | nil => exact ⟨rfl, hst⟩
  | cons c commands ih =>
    obtain ⟨hresult, hnext⟩ := h c s t hst
    obtain ⟨hresults, hlast⟩ := ih hnext
    rw [Executor.runAll] at hresults hlast ⊢
    rw [mapM_cons_state, mapM_cons_state, hresult, hresults]
    exact ⟨rfl, hlast⟩

/-- The synchronous executor runs commands as the delegate does, one after the other. -/
theorem runAll_sync (d : Delegate σ) (commands : List JobCommand) :
    (sync d).runAll commands = commands.mapM d.invoke := by
  have hrun : (sync d).run = d.invoke := by
    funext c s
    rfl
  rw [runAll, hrun]

theorem result_queued {e : Executor τ} {t : τ} {ticket : Nat} {result : JobResult}
    (h : e.promise t ticket = .resolved result) (c : JobCommand) :
    e.result t c (.queued ticket) = result := by
  simp only [Executor.result, promiseOf, h]

end Executor

namespace Pool

variable {p : Pool ω}

/-- An open pool in which no unit waits or runs. -/
structure Idle (p : Pool ω) : Prop where
  queued : p.queued = []
  running : p.running = []
  isOpen : p.isClosed = false
  isDriven : p.isDriven = true
  free : 0 < p.free
  settled : ∀ x ∈ p.settled, x.1 < p.submitted

/-- An idle pool after one unit was submitted and admitted. -/
def holding (p : Pool ω) (c : JobCommand) (work : ω) : Pool ω :=
  { p with
    free := p.free - 1
    submitted := p.submitted + 1
    running := [⟨p.submitted, c, work⟩]
    admitted := p.admitted ++ [p.submitted] }

theorem idle_new (name : String) {capacity : Nat} (h : 0 < capacity) :
    (new name capacity : Pool ω).Idle := by
  refine ⟨rfl, rfl, rfl, rfl, h, ?_⟩
  rintro x ⟨⟩

theorem Idle.admit? (h : p.Idle) : p.admit? = none := by
  rw [Pool.admit?, h.queued]

theorem Idle.admit?_submit (h : p.Idle) (c : JobCommand) (work : ω) :
    (p.submit c work).admit? = some (p.holding c work) := by
  have hfree := Nat.ne_of_gt h.free
  simp [submit, Pool.admit?, holding, h.isDriven, h.queued, h.isOpen, h.running, hfree]

theorem Idle.admit?_holding (h : p.Idle) (c : JobCommand) (work : ω) :
    (p.holding c work).admit? = none := by
  rw [Pool.admit?, holding, h.queued]

theorem Idle.finish (h : p.Idle) (c : JobCommand) (work : ω) (result : JobResult) :
    ((p.holding c work).finishAt 0 result).Idle := by
  refine ⟨h.queued, rfl, h.isOpen, h.isDriven, Nat.succ_pos _, ?_⟩
  intro x hx
  change x ∈ p.settled ++ [(p.submitted, .resolved result)] at hx
  change x.1 < p.submitted + 1
  rw [List.mem_append, List.mem_singleton] at hx
  obtain hx | rfl := hx
  · exact Nat.lt_succ_of_lt (h.settled x hx)
  · exact Nat.lt_succ_self _

theorem promise_append {ticket : Nat} (h : p.settled.lookup ticket = none) (promise : Promise) :
    ({ p with settled := p.settled ++ [(ticket, promise)] } : Pool ω).promise ticket = promise := by
  simp [Pool.promise, List.lookup_append, h]

theorem lookup_submitted (h : ∀ x ∈ p.settled, x.1 < p.submitted) :
    p.settled.lookup p.submitted = none := by
  rw [List.lookup_eq_none_iff]
  intro x hx
  have := h x hx
  simp
  omega

theorem Idle.promise (h : p.Idle) (c : JobCommand) (work : ω) (result : JobResult) :
    ((p.holding c work).finishAt 0 result).promise p.submitted = .resolved result :=
  promise_append (lookup_submitted h.settled) (.resolved result)

end Pool

namespace ThreadPool

variable {d : Delegate σ} {p q : ThreadPool σ}

theorem rest_eq : rest d p = (p.next? d).elim p (rest d) := by
  rw [rest]
  split
  · next h => simp only [h, Option.elim_none]
  · next h => simp only [h, Option.elim_some]

theorem next?_submit (h : p.pool.Idle) (c : JobCommand) :
    (p.submit c).next? d = some ⟨p.pool.holding c (), p.shared⟩ := by
  have hadmit := h.admit?_submit c ()
  simp only [next?, ThreadPool.admit?, submit, hadmit]
  rfl

theorem next?_holding (h : p.pool.Idle) (c : JobCommand) :
    (⟨p.pool.holding c (), p.shared⟩ : ThreadPool σ).next? d =
      some ⟨(p.pool.holding c ()).finishAt 0 (d.invoke c p.shared).1, (d.invoke c p.shared).2⟩ := by
  have hadmit := h.admit?_holding c ()
  simp only [next?, ThreadPool.admit?, hadmit]
  rfl

theorem next?_idle (h : p.pool.Idle) : p.next? d = none := by
  have hadmit := h.admit?
  have hrunning := h.running
  simp only [next?, ThreadPool.admit?, finish?, hadmit, hrunning]
  rfl

theorem rest_submit (h : p.pool.Idle) (c : JobCommand) :
    rest d (p.submit c) =
      ⟨(p.pool.holding c ()).finishAt 0 (d.invoke c p.shared).1, (d.invoke c p.shared).2⟩ := by
  have hidle := h.finish c () (d.invoke c p.shared).1
  rw [rest_eq, next?_submit h c, Option.elim_some, rest_eq, next?_holding h c, Option.elim_some,
    rest_eq, next?_idle hidle, Option.elim_none]

/-- An idle pool of threads runs a command as the delegate does, and is idle again. -/
theorem executor_simulates (d : Delegate σ) :
    (executor d).Simulates d.invoke fun s p => p.pool.Idle ∧ p.shared = s := by
  rintro c _ p ⟨hidle, rfl⟩
  have hpromise := hidle.promise c () (d.invoke c p.shared).1
  change (Executor.result _ (rest d (p.submit c)) c (.queued p.pool.submitted)) = _ ∧
    (rest d (p.submit c)).pool.Idle ∧ (rest d (p.submit c)).shared = _
  rw [rest_submit hidle]
  exact ⟨Executor.result_queued hpromise c, hidle.finish c () _, rfl⟩

end ThreadPool

namespace ProcessPool

variable {d : Delegate (π × ε)} {program : WorkerProgram ε π} {p q : ProcessPool ε π} {fresh own : π}
  {others : List (WorkerProcess π)}

theorem rest_eq : rest program p = (p.next? program).elim p (rest program) := by
  rw [rest]
  split
  · next h => simp only [h, Option.elim_none]
  · next h => simp only [h, Option.elim_some]

/-- An idle pool in which the process that became idle last has the state `own`. -/
structure Ready (others : List (WorkerProcess π)) (own : π) (p : ProcessPool ε π) : Prop where
  pool : p.pool.Idle
  idle : p.idle = ⟨some own, []⟩ :: others
  engaged : p.engaged = []
  started : p.started = others.length + 1

theorem Ready.next? (h : p.Ready others own) : p.next? program = none := by
  have hadmit := h.pool.admit?
  have hrunning := h.pool.running
  simp only [ProcessPool.next?, ProcessPool.admit?, finish?, hadmit, hrunning]
  rfl

theorem dispatch_error {c : JobCommand} {fault : Utf8.Fault} (h : c.toJson = .error fault) :
    dispatch c p = (.resolved (c.fail (.marshal (JobSpec.notText fault))),
      { p with issued := p.issued + 1 }) := by
  have hrequest : (WorkerRequest.mk (.numbered p.issued) c).toJson = .error fault := by
    rw [WorkerRequest.toJson, h]
    rfl
  simp only [dispatch, hrequest]

theorem dispatch_ok {c : JobCommand} {j : Json}
    (h : (WorkerRequest.mk (.numbered p.issued) c).toJson = .ok j) :
    dispatch c p = (.queued p.pool.submitted, { p with
      issued := p.issued + 1
      pool := p.pool.submit c ⟨.numbered p.issued, j.text⟩ }) := by
  simp only [dispatch, h]

theorem Ready.issue (h : p.Ready others own) (n : Nat) :
    ({ p with issued := n } : ProcessPool ε π).Ready others own :=
  ⟨h.pool, h.idle, h.engaged, h.started⟩

/-- The pool of processes while the one that became idle last has a request. -/
def holding (p : ProcessPool ε π) (others : List (WorkerProcess π)) (own : π) (c : JobCommand)
    (work : RequestLine) : ProcessPool ε π :=
  { p with pool := p.pool.holding c work, idle := others, engaged := [⟨some own, []⟩] }

/-- The pool of processes after that request was answered. -/
def answered (p : ProcessPool ε π) (others : List (WorkerProcess π)) (c : JobCommand)
    (work : RequestLine) (run : JobResult × π × ε) : ProcessPool ε π :=
  { p with
    pool := (p.pool.holding c work).finishAt 0 run.1
    idle := ⟨some run.2.1, []⟩ :: others
    engaged := []
    shared := run.2.2 }

theorem Ready.next?_submit (h : p.Ready others own) (c : JobCommand) (work : RequestLine) :
    ({ p with pool := p.pool.submit c work } : ProcessPool ε π).next? program =
      some (p.holding others own c work) := by
  have hadmit := h.pool.admit?_submit c work
  have hrunning : (p.pool.submit c work).running = [] := by
    rw [Pool.submit, if_pos h.pool.isDriven]
    exact h.pool.running
  simp only [ProcessPool.next?, ProcessPool.admit?, hadmit, Option.map_some, Option.some_or, hrunning]
  rw [if_neg (by simp [Pool.holding]), engage, h.idle, h.engaged]
  rfl

/-- The answer to the longest running request, if it is a result. -/
theorem finish?_ok {u : PoolUnit RequestLine} {running : List (PoolUnit RequestLine)}
    {process next : WorkerProcess π} {engaged : List (WorkerProcess π)} {result : JobResult}
    {shared : ε} (hrunning : p.pool.running = u :: running) (hengaged : p.engaged = process :: engaged)
    (hopen : p.pool.isClosed = false)
    (hcall : process.call program u.work.id u.work.line p.shared = ((.ok result, next), shared)) :
    p.finish? program = some { p with
      pool := p.pool.finishAt 0 result, idle := next :: p.idle, engaged, shared } := by
  simp only [finish?, hrunning, hengaged, hcall, hopen]
  rfl

theorem Ready.next?_holding (h : p.Ready others own) {r : WorkerRequest} {j : Json}
    (hr : r.toJson = .ok j) :
    (p.holding others own r.command ⟨r.id, j.text⟩).next? (.serving d fresh) =
      some (p.answered others r.command ⟨r.id, j.text⟩ (d.invoke r.command (own, p.shared))) := by
  have hadmit := h.pool.admit?_holding r.command ⟨r.id, j.text⟩
  have hcall := WorkerProcess.call_serving d fresh own p.shared hr
  have hfinish := finish?_ok (p := p.holding others own r.command ⟨r.id, j.text⟩) rfl rfl
    h.pool.isOpen hcall
  rw [ProcessPool.next?, ProcessPool.admit?, hfinish]
  simp only [holding, hadmit]
  rfl

theorem Ready.answered (h : p.Ready others own) (c : JobCommand) (work : RequestLine)
    (run : JobResult × π × ε) : (p.answered others c work run).Ready others run.2.1 :=
  ⟨h.pool.finish c work run.1, rfl, rfl, h.started⟩

/-- A pool of processes that serve a delegate runs a command on the process that became idle last, if
it can be written at all. That process is then the one that became idle last. -/
theorem executor_simulates (d : Delegate (π × ε)) (fresh : π) (capabilities : Capabilities)
    (others : List (WorkerProcess π)) :
    (executor (.serving d fresh) capabilities).Simulates d.invokeAcross
      fun s p => p.Ready others s.1 ∧ p.shared = s.2 := by
  rintro c ⟨own, _⟩ p ⟨hready, rfl⟩
  change (Executor.result _ (rest _ (dispatch c p).2) c (dispatch c p).1) = _ ∧
    (rest _ (dispatch c p).2).Ready others _ ∧ (rest _ (dispatch c p).2).shared = _
  have hissued := hready.issue (p.issued + 1)
  cases hc : c.toJson with
  | error fault =>
    rw [dispatch_error hc, rest_eq, hissued.next?, Option.elim_none, Delegate.invokeAcross, hc]
    exact ⟨rfl, hissued, rfl⟩
  | ok j =>
    obtain ⟨request, hrequest⟩ := WorkerRequest.exists_toJson (.numbered p.issued) hc
    have hanswered := hissued.answered c ⟨.numbered p.issued, request.text⟩
      (d.invoke c (own, p.shared))
    have hpromise := hready.pool.promise c ⟨.numbered p.issued, request.text⟩
      (d.invoke c (own, p.shared)).1
    rw [dispatch_ok hrequest, rest_eq, hissued.next?_submit, Option.elim_some, rest_eq,
      hissued.next?_holding hrequest, Option.elim_some, rest_eq, hanswered.next?, Option.elim_none,
      Delegate.invokeAcross, hc]
    exact ⟨Executor.result_queued hpromise c, hanswered, rfl⟩

end ProcessPool

end JobGateway
