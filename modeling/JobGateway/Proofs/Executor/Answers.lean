import JobGateway.Proofs.Executor.Crew
import JobGateway.Proofs.Worker.Process
import JobGateway.Worker.Program

/-! What the requests of a pool of processes have for results. Whatever its processes write, a request
line is written once at most, and the request gets the result of a reply to that line which bears its
identifier, or a failure of its own command. -/
namespace JobGateway

variable {ε π : Type}

/-- A line was read in reply to a unit, and it gives the result. -/
def IsAnswered (calls : List Call) (u : PoolUnit RequestLine) (result : JobResult) : Prop :=
  ∃ call ∈ calls, call.ticket = u.ticket ∧ Reads call.reply (.done u.work.id result)

/-- The result of a unit is what was read in reply to it, or a failure of its command. -/
def IsOutcome (calls : List Call) (u : PoolUnit RequestLine) (result : JobResult) : Prop :=
  IsAnswered calls u result ∨ ∃ e : CommandError, e.IsOfWorker ∧ result = u.command.fail e

theorem IsAnswered.mono {calls calls' : List Call} (h : calls ⊆ calls') {u : PoolUnit RequestLine}
    {result : JobResult} (ha : IsAnswered calls u result) : IsAnswered calls' u result := by
  obtain ⟨call, hcall, hreads⟩ := ha
  exact ⟨call, h hcall, hreads⟩

/-- What a task has in hand comes from what was read in reply to it. -/
def Task.IsSound (calls : List Call) (t : Task π) : Prop :=
  match t.duty with
  | .leave _ (.ok result) => IsAnswered calls t.unit result
  | .leave _ (.error e) => e.IsOfWorker
  | .resolve result => IsOutcome calls t.unit result
  | _ => True

theorem Task.IsSound.mono {calls calls' : List Call} (h : calls ⊆ calls') {t : Task π}
    (ht : t.IsSound calls) : t.IsSound calls' := by
  obtain ⟨u, duty⟩ := t
  cases duty with
  | leave m answer =>
    cases answer with
    | error e => exact ht
    | ok result => exact IsAnswered.mono h ht
  | resolve result => exact Or.imp (IsAnswered.mono h) id ht
  | _ => trivial

/-- Whether the request line of a unit is still to be written. -/
def Duty.isUnasked : Duty π → Bool
  | .look => true
  | .start => true
  | .ask _ => true
  | _ => false

/-- How many steps a task takes at most before it has its result. -/
def Duty.remaining : Duty π → Nat
  | .look => 4
  | .start => 3
  | .ask _ => 2
  | .leave _ _ => 1
  | .resolve _ => 0

/-- The line of a unit is the text of its request. -/
def IsRequest (u : PoolUnit RequestLine) : Prop :=
  ∃ j, (WorkerRequest.mk u.work.id u.command).toJson = .ok j ∧ u.work.line = j.text

namespace Crew

open Pool (Event submissions admissions)

variable {program : WorkerProgram ε π} {c c' : Crew ε π} {i : Nat} {u : PoolUnit RequestLine}
  {duty duty' : Duty π} {es es' : List (Event RequestLine)} {capacity : Nat}

/-- What is known of the requests of a crew. -/
structure Told (es : List (Event RequestLine)) (c : Crew ε π) : Prop where
  request : ∀ u, .submitted u ∈ es → IsRequest u
  nodup : (c.calls.map Call.ticket).Nodup
  called : ∀ call ∈ c.calls, ∃ u, .started u ∈ es ∧ u.ticket = call.ticket ∧ u.work.line = call.line
  unasked : ∀ t ∈ c.tasks, t.duty.isUnasked = true → t.unit.ticket ∉ c.calls.map Call.ticket
  sound : ∀ t ∈ c.tasks, t.IsSound c.calls
  finished : ∀ u result, .finished u result ∈ es → IsOutcome c.calls u result

/-- What happens to no task and no call is told as before. -/
theorem Told.of_eq (h : Told es c) (htasks : c'.tasks = c.tasks) (hcalls : c'.calls = c.calls) :
    Told es c' where
  request := h.request
  nodup := hcalls ▸ h.nodup
  called := hcalls ▸ h.called
  unasked := by
    rw [htasks, hcalls]
    exact h.unasked
  sound := by
    rw [htasks, hcalls]
    exact h.sound
  finished := hcalls ▸ h.finished

/-- More is told of requests that are requests, and of results that are outcomes. -/
theorem Told.log (h : Told es c) (hrequest : ∀ u, .submitted u ∈ es' → IsRequest u)
    (hfinished : ∀ u result, .finished u result ∈ es' → IsOutcome c.calls u result) :
    Told (es ++ es') c where
  request u hu := (List.mem_append.1 hu).elim (h.request u) (hrequest u)
  nodup := h.nodup
  called call hcall := by
    obtain ⟨u, hu, hcall⟩ := h.called call hcall
    exact ⟨u, List.mem_append_left _ hu, hcall⟩
  unasked := h.unasked
  sound := h.sound
  finished u result hu := (List.mem_append.1 hu).elim (h.finished u result) (hfinished u result)

/-- A task that goes on without a call. -/
theorem Told.assign (h : Told es c) (task : c.tasks[i]? = some ⟨u, duty⟩) {c₁ : Crew ε π}
    (htasks : c₁.tasks = c.tasks) (hcalls : c₁.calls = c.calls)
    (hunasked : duty'.isUnasked = true → duty.isUnasked = true)
    (hsound : Task.IsSound c.calls ⟨u, duty'⟩) : Told es (c₁.assign i u duty') where
  request := h.request
  nodup := hcalls ▸ h.nodup
  called := hcalls ▸ h.called
  unasked t ht hduty := by
    rw [Crew.assign, htasks] at ht
    rw [Crew.assign, hcalls]
    obtain ht | rfl := List.mem_or_eq_of_mem_set ht
    · exact h.unasked t ht hduty
    · exact h.unasked ⟨u, duty⟩ (List.mem_of_getElem? task) (hunasked hduty)
  sound t ht := by
    rw [Crew.assign, htasks] at ht
    rw [Crew.assign, hcalls]
    obtain ht | rfl := List.mem_or_eq_of_mem_set ht
    · exact h.sound t ht
    · exact hsound
  finished := by
    rw [Crew.assign, hcalls]
    exact h.finished

/-- What a call answers, and what it reads in reply. -/
theorem call_reply? (program : WorkerProgram ε π) (m : WorkerProcess π) (shared : ε)
    (request : RequestLine) :
    let answer := (m.call program request.id request.line shared).1.1
    match m.reply? program request.line shared with
    | some reply => answer = acceptLine request.id reply
    | none => ∃ e : CommandError, answer = .error e ∧ e.IsOfWorker := by
  obtain ⟨state, unread⟩ := m
  cases state with
  | none => exact ⟨_, rfl, _, .inr rfl⟩
  | some state => rfl

/-- A task that sends its line. -/
theorem Told.ask (h : Told es c) {m : Member π} (task : c.tasks[i]? = some ⟨u, .ask m⟩)
    (hadmitted : .started u ∈ es) (hnodup : (c.tasks.map fun t => t.unit.ticket).Nodup) :
    Told es (c.ask program i u m) := by
  have hcall := call_reply? program m.process c.shared u.work
  rw [ask_eq]
  generalize m.process.call program u.work.id u.work.line c.shared = run at hcall ⊢
  cases hreply : m.process.reply? program u.work.line c.shared with
  | none =>
    -- The process has ended, so no line was written to it.
    rw [hreply] at hcall
    obtain ⟨e, he, hworker⟩ := hcall
    refine h.assign task rfl (List.append_nil _) nofun ?_
    rw [he]
    exact hworker
  | some reply =>
    rw [hreply] at hcall
    have hunasked := h.unasked _ (List.mem_of_getElem? task) rfl
    rw [((tasks_perm task).map _).nodup_iff, List.map_cons, List.nodup_cons] at hnodup
    have hgrow : c.calls ⊆ c.calls ++ [⟨u.ticket, m.number, u.work.line, reply⟩] :=
      List.subset_append_left ..
    have htasks : ∀ t ∈ c.tasks.set i ⟨u, .leave ⟨m.number, run.1.2⟩ run.1.1⟩,
        t = ⟨u, .leave ⟨m.number, run.1.2⟩ run.1.1⟩ ∨ t ∈ c.tasks.eraseIdx i :=
      fun t ht => List.mem_cons.1 ((set_tasks_perm task _).subset ht)
    refine ⟨h.request, ?_, ?_, ?_, ?_, ?_⟩
    · change ((c.calls ++ [_]).map Call.ticket).Nodup
      rw [List.map_append, List.nodup_append]
      refine ⟨h.nodup, List.nodup_singleton _, ?_⟩
      rintro ticket hticket _ hnew rfl
      rw [List.map_singleton, List.mem_singleton] at hnew
      obtain rfl : ticket = u.ticket := hnew
      exact hunasked hticket
    · intro call hmem
      obtain hmem | hmem := List.mem_append.1 hmem
      · exact h.called call hmem
      · obtain rfl := List.mem_singleton.1 hmem
        exact ⟨u, hadmitted, rfl, rfl⟩
    · intro t ht hduty hmem
      change t.unit.ticket ∈ (c.calls ++ [_]).map Call.ticket at hmem
      obtain rfl | ht := htasks t ht
      · cases hduty
      · rw [List.map_append, List.mem_append] at hmem
        obtain hmem | hmem := hmem
        · exact h.unasked t (List.mem_of_mem_eraseIdx ht) hduty hmem
        · rw [List.map_singleton, List.mem_singleton] at hmem
          exact hnodup.1 (List.mem_map.2 ⟨t, ht, hmem⟩)
    · intro t ht
      obtain rfl | ht := htasks t ht
      · cases hanswer : run.1.1 with
        | error e => exact acceptLine_error (hcall.symm.trans hanswer)
        | ok result =>
          have hreads := acceptLine_eq_ok_iff.1 (hcall.symm.trans hanswer)
          exact ⟨_, List.mem_append_right _ (List.mem_singleton_self _), rfl, hreads⟩
      · exact (h.sound t (List.mem_of_mem_eraseIdx ht)).mono hgrow
    · intro v result hv
      exact Or.imp (.mono hgrow) id (h.finished v result hv)

theorem Told.act (h : Told es c) (hadmitted : ∀ t ∈ c.tasks, .started t.unit ∈ es)
    (hnodup : (c.tasks.map fun t => t.unit.ticket).Nodup) (act : c.act? program i = some c') :
    Told es c' := by
  obtain ⟨u, duty, htask, hact⟩ := act?_eq act
  have hmem := List.mem_of_getElem? htask
  have hsound := h.sound _ hmem
  cases hact with
  | take => exact h.assign htask rfl rfl (fun _ => rfl) trivial
  | miss => exact h.assign htask rfl rfl (fun _ => rfl) trivial
  | start => exact h.assign htask rfl rfl (fun _ => rfl) trivial
  | fail => exact h.assign htask rfl rfl nofun (.inr ⟨_, ⟨_, .inr rfl⟩, rfl⟩)
  | ask m => exact h.ask htask (hadmitted _ hmem) hnodup
  | keep => exact h.assign htask rfl rfl nofun (.inl hsound)
  | kill => exact h.assign htask rfl rfl nofun (.inl hsound)
  | discard => exact h.assign htask rfl rfl nofun (.inr ⟨_, hsound, rfl⟩)

/-- Every step keeps what is told of the requests. -/
theorem Told.step (h : Told es c) (hpaired : c.Paired)
    (haccounted : Pool.Accounted ProcessPool.name capacity es c.units)
    (step : Step program c es' c') : Told (es ++ es') c' := by
  have hrunning : c.units.running = c.tasks.map Task.unit := hpaired.symm
  cases step with
  | reject unwritable =>
    rw [dispatch_error unwritable, List.append_nil]
    exact h.of_eq rfl rfl
  | @submit command j request =>
    rw [dispatch_ok request]
    refine (h.log ?_ (by simp)).of_eq rfl rfl
    rintro u hu
    cases List.mem_singleton.1 hu
    exact ⟨j, request, rfl⟩
  | @start _ u head isOpen taken =>
    obtain ⟨pool, hpool, -, -, rfl⟩ := admit?_of_open hpaired head isOpen taken
    have hstep : Pool.Step c.units (.started u) (pool.lend c.holding) :=
      .start head isOpen (Pool.admit?_lend hpool c.holding)
    have hnodup := (haccounted.step hstep).nodup_admissions
    rw [admissions, List.filterMap_append, List.map_append, List.nodup_append] at hnodup
    -- The unit was not admitted before, so its line was not written before.
    have hnew : u.ticket ∉ c.calls.map Call.ticket := by
      intro hmem
      obtain ⟨call, hcall, hticket⟩ := List.mem_map.1 hmem
      obtain ⟨v, hv, hsame, -⟩ := h.called call hcall
      have hbefore := List.mem_map_of_mem (f := PoolUnit.ticket) (Pool.mem_admissions.2 hv)
      exact hnodup.2.2 _ hbefore u.ticket (List.mem_singleton_self _) (hsame.trans hticket)
    have hlog : Told (es ++ [.started u]) c := h.log (by simp) (by simp)
    refine ⟨hlog.request, h.nodup, hlog.called, ?_, ?_, hlog.finished⟩
    · intro t ht hduty
      obtain ht | ht := List.mem_append.1 ht
      · exact h.unasked t ht hduty
      · obtain rfl := List.mem_singleton.1 ht
        exact hnew
    · intro t ht
      obtain ht | ht := List.mem_append.1 ht
      · exact h.sound t ht
      · obtain rfl := List.mem_singleton.1 ht
        trivial
  | @refuse _ u head isClosed taken =>
    obtain ⟨pool, -, -, -, -, rfl⟩ := admit?_of_closed hpaired head isClosed taken
    exact (h.log (by simp) (by simp)).of_eq rfl rfl
  | act act =>
    rw [List.append_nil]
    refine h.act ?_ ?_ act
    · intro t ht
      have hmem : t.unit ∈ c.units.running := hrunning ▸ List.mem_map_of_mem ht
      exact Pool.mem_admissions.1 (haccounted.mem_of_running hmem)
    · have hnodup := haccounted.nodup_running
      rwa [hrunning, List.map_map] at hnodup
  | @resolve _ i u result task resolve =>
    obtain rfl := resolve?_eq task resolve
    have hlog : Told (es ++ [.finished u result]) c := by
      refine h.log (by simp) fun v result' hv => ?_
      cases List.mem_singleton.1 hv
      exact h.sound _ (List.mem_of_getElem? task)
    refine ⟨hlog.request, h.nodup, hlog.called, ?_, ?_, hlog.finished⟩
    · intro t ht
      exact h.unasked t (List.mem_of_mem_eraseIdx ht)
    · intro t ht
      exact h.sound t (List.mem_of_mem_eraseIdx ht)
  | release release =>
    obtain ⟨-, rfl⟩ := release?_eq release
    rw [List.append_nil]
    exact h.of_eq rfl rfl
  | close => exact (h.log (by simp) (by simp)).of_eq rfl rfl
  | drain drain =>
    obtain ⟨-, rfl⟩ := drain?_eq drain
    rw [List.append_nil]
    exact h.of_eq rfl rfl

theorem told_ofPool {p : ProcessPool ε π} : Told [] (ofPool p) where
  request _ hu := absurd hu List.not_mem_nil
  nodup := .nil
  called _ hcall := absurd hcall List.not_mem_nil
  unasked _ ht := absurd ht List.not_mem_nil
  sound _ ht := absurd ht List.not_mem_nil
  finished _ _ hu := absurd hu List.not_mem_nil

theorem Run.told {p : ProcessPool ε π} (hp : p.Built capacity) (h : Run program (.ofPool p) es c) :
    Told es c := by
  induction h with
  | start => exact told_ofPool
  | step run step ih =>
    obtain ⟨hpaired, haccounted⟩ := run.accounted hp
    exact ih.step hpaired haccounted step

/-- A task that goes on comes closer to its result. -/
theorem Act.remaining_lt (h : Act program c i u duty c') (hi : i < c.tasks.length) :
    ∃ duty', c'.tasks[i]? = some ⟨u, duty'⟩ ∧ duty'.remaining < duty.remaining := by
  cases h <;> exact ⟨_, List.getElem?_set_self hi, by simp [Duty.remaining]⟩

/-- A task without a result can go on. -/
theorem act?_isSome (program : WorkerProgram ε π) (task : c.tasks[i]? = some ⟨u, duty⟩)
    (hduty : ∀ result, duty ≠ .resolve result) : ∃ c', c.act? program i = some c' := by
  rw [act?, task]
  cases duty with
  | resolve result => exact absurd rfl (hduty result)
  | _ => exact ⟨_, rfl⟩

/-- A task that is left alone comes to its end. -/
theorem exists_finish (program : WorkerProgram ε π) (task : c.tasks[i]? = some ⟨u, duty⟩) :
    ∃ es' c' result, Run program c es' c' ∧ .finished u result ∈ es' := by
  induction hn : duty.remaining using Nat.strong_induction_on generalizing c duty with
  | _ n ih =>
    subst hn
    by_cases hduty : ∃ result, duty = .resolve result
    · obtain ⟨result, rfl⟩ := hduty
      have hresolve : ∃ c', c.resolve? i = some c' := by
        rw [resolve?, task]
        exact ⟨_, rfl⟩
      obtain ⟨c', hresolve⟩ := hresolve
      exact ⟨_, c', result, (Step.resolve task hresolve).run, List.mem_singleton_self _⟩
    · obtain ⟨c₁, hact⟩ := act?_isSome program task (not_exists.1 hduty)
      obtain ⟨v, duty₁, htask, hmove⟩ := act?_eq hact
      rw [task] at htask
      cases htask
      obtain ⟨duty', htask', hlt⟩ := hmove.remaining_lt (List.getElem?_eq_some_iff.1 task).1
      obtain ⟨es', c', result, hrun, hfinished⟩ := ih _ hlt htask' rfl
      exact ⟨_, c', result, (Step.act hact).run.trans hrun, hfinished⟩

/-- An admitted unit that is not running has finished. -/
theorem exists_finished (program : WorkerProgram ε π) (hpaired : c.Paired)
    (haccounted : Pool.Accounted ProcessPool.name capacity es c.units) (hu : .started u ∈ es) :
    ∃ es' c' result, Run program c es' c' ∧ .finished u result ∈ es ++ es' := by
  have hran := haccounted.ran.mem_iff.2 (Pool.mem_admissions.2 hu)
  obtain hrunning | hfinished := List.mem_append.1 hran
  · have hmem : u ∈ c.tasks.map Task.unit := hpaired ▸ hrunning
    obtain ⟨⟨_, duty⟩, ht, rfl⟩ := List.mem_map.1 hmem
    obtain ⟨i, hi⟩ := List.mem_iff_getElem?.1 ht
    obtain ⟨es', c', result, hrun, hresult⟩ := exists_finish program hi
    exact ⟨es', c', result, hrun, List.mem_append_right _ hresult⟩
  · obtain ⟨⟨_, result⟩, hresult, rfl⟩ := List.mem_map.1 hfinished
    exact ⟨[], c, result, .start, List.mem_append_left _ (Pool.mem_completions.1 hresult)⟩

/-- The promise of an admitted unit is resolved with its outcome. -/
theorem Told.isOutcome (h : Told es c)
    (haccounted : Pool.Accounted ProcessPool.name capacity es c.units) (hu : .started u ∈ es)
    {promise : Promise} (hne : promise ≠ .pending) (hpromise : c.pool.promise u.ticket = promise) :
    ∃ result, promise = .resolved result ∧ IsOutcome c.calls u result := by
  have hmem := haccounted.mem_of_admitted (Pool.mem_admissions.2 hu)
  obtain ⟨result, hfinished, rfl⟩ | ⟨-, rfl⟩ := (haccounted.promise_eq hmem hne).1 hpromise
  · exact ⟨result, rfl, h.finished u result hfinished⟩
  · exact ⟨_, rfl, .inr ⟨_, ⟨_, .inr rfl⟩, rfl⟩⟩

/-- A failure of a command: its own key, the empty payload of its own operation, and some error. -/
def IsFailureOf (command : JobCommand) (result : JobResult) : Prop :=
  result.key = command.jobKey ∧ result.payload = .empty command.operation ∧
    ∃ errors, result.errors = some errors ∧ errors ≠ []

theorem isFailureOf_fail (command : JobCommand) (e : CommandError) :
    IsFailureOf command (command.fail e) := by
  refine ⟨rfl, rfl, e.diagnostics, ?_, e.diagnostics_ne_nil⟩
  have hne : e.diagnostics.isEmpty = false := List.isEmpty_eq_false_iff.2 e.diagnostics_ne_nil
  rw [JobCommand.fail, JobResult.failure, hne]
  rfl

end Crew

end JobGateway
