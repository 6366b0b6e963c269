import JobGateway.Executor.GatedPool
import JobGateway.Proofs.Delegate.NormalForm
import JobGateway.Proofs.Executor.Isolation
import JobGateway.Proofs.Executor.Order
import JobGateway.Proofs.Worker.Loop

/-! The results that executors hand back. A command for which the delegate was called has the normal
form of that call, however it was brought to the delegate; and every failure that a pool makes up for
a command that it does not run, or gives up, has the normal form of a failure. -/
namespace JobGateway

open Pool (Event)

variable {σ π ε ω : Type}

namespace Pool

variable {name : String} {capacity : Nat} {es : List (Event ω)} {p : Pool ω} {u : PoolUnit ω}

theorem Accounted.lt_of_settled (h : Accounted name capacity es p) :
    ∀ x ∈ p.abandon.settled, x.1 < p.submitted := by
  have hperm := h.perm
  rw [h.tickets] at hperm
  intro x hx
  refine List.mem_range.1 (hperm.subset ?_)
  rw [List.mem_append]
  obtain hx | hx := List.mem_append.1 hx
  · exact .inr (List.mem_map_of_mem hx)
  · obtain ⟨u, hu, rfl⟩ := List.mem_map.1 hx
    exact .inl (List.mem_map_of_mem hu)

/-- A pool that is lost gives up every unit that waits or runs. -/
theorem Accounted.promise_abandon (h : Accounted name capacity es p)
    (hu : u ∈ p.queued ++ p.running) : p.abandon.promise u.ticket = .dropped := by
  have hnodup : (p.abandon.settled.map Prod.fst).Nodup := by
    have hkeys : p.abandon.settled.map Prod.fst =
        p.settled.map Prod.fst ++ (p.queued ++ p.running).map PoolUnit.ticket := by
      rw [abandon, List.map_append, List.map_map]
      rfl
    rw [hkeys]
    exact (List.perm_append_comm.trans h.perm).nodup_iff.2 h.nodup
  have hmem : (u.ticket, .dropped) ∈ p.abandon.settled :=
    List.mem_append_right _ (List.mem_map.2 ⟨u, hu, rfl⟩)
  rw [promise, (lookup_eq_some_iff_mem hnodup).2 hmem]
  rfl

/-- A lost pool refuses what it is given. -/
theorem Accounted.promise_submit_abandon (h : Accounted name capacity es p) (c : JobCommand)
    (work : ω) : (p.abandon.submit c work).promise p.submitted =
      .resolved (c.fail (.worker s!"{name} closed")) := by
  rw [← h.name_eq]
  exact promise_append (lookup_submitted h.lt_of_settled) _

/-- What a pool makes up for its units: a refused one was not admitted, and it fails as the closed pool
does; a lost pool gives up its units, and refuses all others. -/
theorem Accounted.failures (h : Accounted name capacity es p) :
    (∀ u, .refused u ∈ es → .started u ∉ es ∧ ∃ result,
      p.promise u.ticket = .resolved result ∧
      IsFailureWith u.command (.worker s!"{name} closed") result) ∧
    (∀ u ∈ p.queued ++ p.running, p.abandon.promise u.ticket = .dropped) ∧
    ∀ c work, ∃ result, (p.abandon.submit c work).promise p.submitted = .resolved result ∧
      IsFailureWith c (.worker s!"{name} closed") result := by
  refine ⟨fun u hu => ⟨fun hstarted => ?_, _, ?_, isFailureWith_fail u.command _⟩,
    fun u hu => h.promise_abandon hu,
    fun c work => ⟨_, h.promise_submit_abandon c work, isFailureWith_fail c _⟩⟩
  · exact Nat.lt_irrefl _ (h.ticket_lt (mem_admissions.2 hstarted) (mem_refusals.2 hu))
  · have hmem := h.mem_of_refused (mem_refusals.2 hu)
    exact (h.promise_eq hmem (by simp)).2 (.inr ⟨hu, rfl⟩)

/-- As long as it is not lost a pool gives up no unit. -/
theorem Accounted.not_dropped (h : Accounted name capacity es p) (hu : .submitted u ∈ es) :
    p.promise u.ticket ≠ .dropped := by
  intro hdropped
  obtain ⟨result, -, hresolved⟩ | ⟨-, hresolved⟩ :=
    (h.promise_eq (mem_submissions.2 hu) (by simp)).1 hdropped
  · cases hresolved
  · cases hresolved

/-- The result of a unit that was refused. -/
theorem Accounted.closed_of_refused (h : Accounted name capacity es p) {result : JobResult}
    (hu : .refused u ∈ es) (hpromise : p.promise u.ticket = .resolved result) :
    IsFailureWith u.command (.worker s!"{name} closed") result := by
  obtain ⟨-, closed, hclosed, hfailure⟩ := h.failures.1 u hu
  rw [hpromise] at hclosed
  cases hclosed
  exact hfailure

theorem Accounted.ticket_ne (h : Accounted name capacity es p) {v : PoolUnit ω}
    (hv : .started v ∈ es) (hu : .refused u ∈ es) : v.ticket ≠ u.ticket :=
  Nat.ne_of_lt (h.ticket_lt (mem_admissions.2 hv) (mem_refusals.2 hu))

end Pool

namespace Team

variable {d : Delegate σ} {capacity : Nat} {start : σ} {es : List (Event Unit)} {t : Team σ}
  {u : PoolUnit Unit} {result : JobResult}

/-- The result of a call has the normal form of the call, in the state to which the earlier calls led. -/
theorem Run.isNormal (h : Run d (new capacity start) es t) (hcall : (u, result) ∈ t.calls) :
    ∃ before after, t.calls.map Prod.fst = before ++ u :: after ∧
      IsNormal d ((before.map PoolUnit.command).mapM d.invoke start).2 u.command result := by
  have hresults := congrArg Prod.fst h.runAll_calls
  rw [Executor.runAll_sync] at hresults
  dsimp only at hresults
  rw [← zip_calls t, ← hresults] at hcall
  obtain ⟨before, after, hcalls, rfl⟩ := exists_of_mem_zip_mapM hcall
  exact ⟨before, after, hcalls, d.isNormal_invoke _ _⟩

theorem Run.isNormal_of_promise (h : Run d (new capacity start) es t) (hu : .submitted u ∈ es)
    (hpromise : t.pool.promise u.ticket = .resolved result) :
    (.refused u ∈ es ∧ u ∉ t.calls.map Prod.fst ∧
      IsFailureWith u.command (.worker "thread pool closed") result) ∨
    ∃ before after, t.calls.map Prod.fst = before ++ u :: after ∧
      IsNormal d ((before.map PoolUnit.command).mapM d.invoke start).2 u.command result := by
  have haccounted := h.accounted.2
  by_cases hrefused : .refused u ∈ es
  · refine .inl ⟨hrefused, fun hcall => ?_, haccounted.closed_of_refused hrefused hpromise⟩
    have hadmitted := h.called.units.subset (List.mem_append_left _ hcall)
    exact haccounted.ticket_ne (Pool.mem_admissions.1 hadmitted) hrefused rfl
  · exact .inr (h.isNormal (h.mem_calls hu hrefused hpromise))

end Team

namespace Crew

variable {d : Delegate π} {fresh : π} {capacity : Nat} {es : List (Event RequestLine)} {c : Crew ε π}
  {runs : List (Nat × PoolUnit RequestLine)} {u : PoolUnit RequestLine} {result : JobResult}

/-- The result of a request has the normal form of its call, in the state to which the earlier requests
of its process led. -/
theorem Dealt.isNormal (h : Dealt d fresh capacity es c runs)
    (hearned : IsEarned d fresh runs u result) :
    (∃ call ∈ c.calls, call.ticket = u.ticket) ∧
      ∃ before : List JobCommand, IsNormal d (before.mapM d.invoke fresh).2 u.command result := by
  obtain ⟨k, hmem⟩ := hearned
  constructor
  · have hline := List.mem_map_of_mem (f := fun u => (u.ticket, u.work.line)) (List.of_mem_zip hmem).1
    rw [← h.calls_share k] at hline
    obtain ⟨call, hcall, heq⟩ := List.mem_map.1 hline
    exact ⟨call, List.mem_of_mem_filter hcall, congrArg Prod.fst heq⟩
  · obtain ⟨before, after, -, rfl⟩ := exists_of_mem_zip_mapM hmem
    exact ⟨_, d.isNormal_invoke _ _⟩

/-- A resolved request was refused by the closed pool, or was answered, or its process failed. -/
theorem Told.isFailureWith (h : Told es c)
    (haccounted : Pool.Accounted ProcessPool.name capacity es c.units) (hu : .submitted u ∈ es)
    (hpromise : c.pool.promise u.ticket = .resolved result) :
    (.refused u ∈ es ∧ (∀ call ∈ c.calls, call.ticket ≠ u.ticket) ∧
      IsFailureWith u.command (.worker "process pool closed") result) ∨
    IsAnswered c.calls u result ∨
    ∃ e : CommandError, e.IsOfWorker ∧ IsFailureWith u.command e result := by
  by_cases hrefused : .refused u ∈ es
  · refine .inl ⟨hrefused, fun call hcall => ?_, haccounted.closed_of_refused hrefused hpromise⟩
    obtain ⟨v, hv, hticket, -⟩ := h.called call hcall
    exact hticket ▸ haccounted.ticket_ne hv hrefused
  · obtain hanswered | ⟨e, hworker, rfl⟩ :=
      h.finished u result (haccounted.finished_of_promise hu hrefused hpromise)
    · exact .inr (.inl hanswered)
    · exact .inr (.inr ⟨e, hworker, isFailureWith_fail u.command e⟩)

/-- A command that cannot be written fails at its dispatch, and nothing else happens. -/
theorem dispatch_isFailureWith (c : Crew ε π) {command : JobCommand} {fault : Utf8.Fault}
    (h : command.toJson = .error fault) :
    ∃ result, c.dispatch command = (.resolved result, { c with issued := c.issued + 1 }) ∧
      IsFailureWith command (.marshal (JobSpec.notText fault)) result := by
  refine ⟨_, ?_, isFailureWith_fail command _⟩
  rw [dispatch, ProcessPool.dispatch_error h]
  rfl

end Crew

/-- A worker answers a request with the normal form of its call. -/
theorem Worker.Reading.isNormal {input : List UInt8} (r : Worker.Reading input) (d : Delegate σ)
    (s : σ) {before after : List (List Char)} {line : List Char} {request : WorkerRequest}
    (h : r.texts = before ++ line :: after) (hrequest : Worker.request? line = some request) :
    ∃ result, (r.replies d s)[(Worker.filled before).length]? = some (.done request.id result) ∧
      IsNormal d (Worker.stateAfter d before s) request.command result := by
  have hblank : Text.allBlank line = false := by
    rw [Bool.eq_false_iff]
    intro hblank
    rw [Worker.request?_of_allBlank hblank] at hrequest
    cases hrequest
  obtain ⟨reply, hreply, hanswers⟩ := r.answers d s h hblank
  rw [hanswers.done request hrequest] at hreply
  exact ⟨_, hreply, d.isNormal_invoke _ _⟩

/-- A handle yields a failure for a promise that was dropped, and always once it is spent. -/
theorem Handle.yields_dropped (h : Handle) :
    ∃ result, IsFailureWith h.command .dropped result ∧
      (h.tryTake .dropped).1 = some result ∧
      (h.spent = false → (h.poll .dropped).1 = .ready result) ∧
      ∀ promise, h.spent = true → (h.tryTake promise).1 = some result := by
  refine ⟨h.droppedResult, isFailureWith_fail h.command _, ?_, ?_, ?_⟩
  · cases hspent : h.spent <;> simp [tryTake, hspent]
  · intro hspent
    simp [poll, hspent]
  · intro promise hspent
    simp [tryTake, hspent]

/-- An executor at rest fails a command whose promise is not resolved. -/
theorem Executor.isFailureWith_result (e : Executor σ) (s : σ) (c : JobCommand) (d : Dispatch)
    (h : ∀ result, e.promiseOf s d ≠ .resolved result) : IsFailureWith c .dropped (e.result s c d) := by
  rw [Executor.result]
  split
  · next result hresult => exact absurd hresult (h result)
  · exact isFailureWith_fail c _

theorem GatedPool.isFailureWith_result {u : PoolUnit GatedWork} {payload : PanicPayload}
    (h : u.work.ending = .error payload) :
    IsFailureWith u.command (ThreadPool.taskFailure u.ticket payload) (GatedPool.result u) := by
  rw [GatedPool.result, h]
  exact isFailureWith_fail u.command _

end JobGateway
