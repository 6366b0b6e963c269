import JobGateway.Proofs.Delegate.Independence
import JobGateway.Proofs.Executor.Team
import JobGateway.Proofs.Executor.Turns

/-! The order of the calls on a pool of threads. However the units overlap, their results are those of
the same commands run one after the other, in an order that keeps apart what was awaited from what was
dispatched later. On different jobs the order does not even matter. -/
namespace JobGateway

variable {σ : Type}

namespace Team

open Pool (Event submissions admissions refusals completions)

section Turns

variable {d : Delegate σ} {t : Team σ} {q : ThreadPool σ}

/-- A team between two turns: no running unit has made its call, and none is ending. -/
structure Still (t : Team σ) : Prop where
  tasks : t.tasks = t.pool.running.map fun u => ⟨u, none⟩
  holding : t.holding = 0

/-- The team comes to be the pool, between two turns. -/
def Reaches (d : Delegate σ) (t : Team σ) (q : ThreadPool σ) : Prop :=
  ∃ es t', Run d t es t' ∧ Still t' ∧ t'.toThreads = q

theorem Reaches.turn {q' : ThreadPool σ} (h : Reaches d t q)
    (hturn : ∀ t', Still t' → t'.toThreads = q → Reaches d t' q') : Reaches d t q' := by
  obtain ⟨_, t', hrun, hstill, hpool⟩ := h
  obtain ⟨_, t'', hrun', hafter, hpool'⟩ := hturn t' hstill hpool
  exact ⟨_, t'', hrun.trans hrun', hafter, hpool'⟩

theorem Still.paired (h : Still t) : t.Paired := by
  rw [Paired, h.tasks, List.map_map]
  exact List.map_id _

/-- The pool of a team lets a unit in. -/
theorem Still.enter (h : Still t) (hnext : t.toThreads.admit? = some q) : Reaches d t q := by
  obtain ⟨pool, hpool, rfl⟩ := Option.map_eq_some_iff.1 hnext
  replace hpool : t.pool.admit? = some pool := hpool
  have htaken : t.admit? = some _ := congrArg (Option.map _) hpool
  obtain ⟨u, ⟨hstep, hrunning⟩ | ⟨hstep, hrunning⟩⟩ := Pool.step_of_admit? hpool
  · cases hstep with
    | start head isOpen =>
      refine ⟨_, _, (Step.start head isOpen htaken).run, ⟨?_, h.holding⟩, rfl⟩
      simp [h.tasks, hrunning]
  · cases hstep with
    | refuse head isClosed =>
      refine ⟨_, _, (Step.refuse head isClosed htaken).run, ⟨?_, h.holding⟩, rfl⟩
      simp [h.tasks, hrunning]

/-- The first task makes its call, is resolved, and gives its permit back. -/
theorem finish_run {u : PoolUnit Unit} {running : List (PoolUnit Unit)} {tasks : List ThreadTask}
    (hrunning : t.pool.running = u :: running) (htasks : t.tasks = ⟨u, none⟩ :: tasks)
    {result : JobResult} {shared : σ} (hinvoke : d.invoke u.command t.shared = (result, shared)) :
    Run d t [.finished u result] { t with
      pool := t.pool.finishAt 0 result
      tasks, shared
      calls := t.calls ++ [(u, result)] } := by
  let called : Team σ := { t with
    tasks := ⟨u, some result⟩ :: tasks, shared, calls := t.calls ++ [(u, result)] }
  let resolved : Team σ := { called with
    pool := { t.pool with
      running, settled := t.pool.settled ++ [(u.ticket, .resolved result)] }
    tasks, holding := t.holding + 1 }
  have hcall : Step d t [] called := by
    refine .call (i := 0) ?_
    rw [call?, htasks]
    simp only [List.getElem?_cons_zero, List.set_cons_zero, hinvoke]
    rfl
  have hresolve : Step d called [.finished u result] resolved := by
    refine .resolve (i := 0) rfl ?_
    simp only [resolve?, called, resolved, List.getElem?_cons_zero, hrunning, Pool.settle,
      List.eraseIdx_cons_zero]
  have hrelease : Step d resolved [] { t with
      pool := t.pool.finishAt 0 result, tasks, shared, calls := t.calls ++ [(u, result)] } := by
    have hget : t.pool.running[0]? = some u := by rw [hrunning]; rfl
    refine .release ?_
    rw [release?, if_neg (Nat.succ_ne_zero _), Pool.finishAt_of_running hget, hrunning]
    rfl
  exact hcall.run.trans (hresolve.run.trans hrelease.run)

/-- The pool of a team lets its longest running unit make its call. -/
theorem Still.finish (h : Still t) (hfinish : t.toThreads.finish? d = some q) : Reaches d t q := by
  cases hrunning : t.pool.running with
  | nil =>
    replace hrunning : t.toThreads.pool.running = [] := hrunning
    rw [ThreadPool.finish?, hrunning] at hfinish
    cases hfinish
  | cons u running =>
    have htasks := h.tasks
    rw [hrunning, List.map_cons] at htasks
    have hget : t.pool.running[0]? = some u := by rw [hrunning]; rfl
    refine ⟨_, _, finish_run hrunning htasks rfl, ⟨?_, h.holding⟩, ?_⟩
    · rw [Pool.finishAt_of_running hget]
      dsimp only
      rw [hrunning]
      rfl
    · replace hrunning : t.toThreads.pool.running = u :: running := hrunning
      rw [ThreadPool.finish?, hrunning] at hfinish
      exact Option.some.inj hfinish

/-- A team comes to rest as its pool does. -/
theorem Still.rest (d : Delegate σ) (h : Still t) : Reaches d t (t.toThreads.rest d) := by
  generalize hp : t.toThreads = p
  induction p using ThreadPool.rest.induct d generalizing t with
  | case1 p hnone =>
    rw [ThreadPool.rest_eq, hnone, Option.elim_none]
    exact ⟨[], t, .start, h, hp⟩
  | case2 p q hnext _ ih =>
    rw [ThreadPool.rest_eq, hnext, Option.elim_some]
    have hturn : Reaches d t q := by
      subst hp
      obtain henter | ⟨-, hfinish⟩ := Option.or_eq_some_iff.1 hnext
      · exact h.enter henter
      · exact h.finish hfinish
    exact hturn.turn fun t' hstill hpool => ih hstill hpool

/-- A pool of threads that was used is what a team came to be. -/
theorem reaches_of_used {capacity : Nat} {shared : σ}
    (h : (ThreadPool.executor d).Used (ThreadPool.new capacity shared) q) :
    Reaches d (new capacity shared) q := by
  induction h with
  | start => exact ⟨_, _, .start, ⟨rfl, rfl⟩, rfl⟩
  | dispatch _ command ih =>
    refine ih.turn fun t hstill hpool => ?_
    subst hpool
    refine ⟨_, _, (Step.submit t command).run, ⟨?_, hstill.holding⟩, rfl⟩
    rw [submit, Pool.running_submit]
    exact hstill.tasks
  | rest _ ih => exact ih.turn fun t hstill hpool => hpool ▸ hstill.rest d
  | close _ ih =>
    refine ih.turn fun t hstill hpool => ?_
    subst hpool
    exact ⟨_, _, (Step.close t).run, ⟨hstill.tasks, hstill.holding⟩, rfl⟩

end Turns

section Sequence

variable {d : Delegate σ} {capacity : Nat} {start : σ} {es es₁ es₂ : List (Event Unit)} {t : Team σ}
  {u v : PoolUnit Unit} {result : JobResult}

theorem Run.mem_submissions (h : Run d (new capacity start) es t) (hu : u ∈ t.calls.map Prod.fst) :
    u ∈ submissions es :=
  h.accounted.2.mem_of_admitted (h.called.units.subset (List.mem_append_left _ hu))

/-- No unit makes two calls. -/
theorem Run.nodup_calls (h : Run d (new capacity start) es t) : (t.calls.map Prod.fst).Nodup := by
  have hnodup := h.called.units.nodup_iff.2 (List.Nodup.of_map _ h.accounted.2.nodup_admissions)
  exact (List.nodup_append.1 hnodup).1

/-- The calls gave what the synchronous executor gives in their order. -/
theorem Run.runAll_calls (h : Run d (new capacity start) es t) :
    (Executor.sync d).runAll ((t.calls.map Prod.fst).map PoolUnit.command) start =
      (t.calls.map Prod.snd, t.shared) := by
  rw [Executor.runAll_sync, List.map_map]
  exact h.called.run

theorem zip_calls (t : Team σ) : (t.calls.map Prod.fst).zip (t.calls.map Prod.snd) = t.calls := by
  rw [List.zip_map', List.map_id']

/-- A resolved unit that was not refused has its result from its call. -/
theorem Run.mem_calls (h : Run d (new capacity start) es t) (hu : .submitted u ∈ es)
    (hrefused : .refused u ∉ es) (hpromise : t.pool.promise u.ticket = .resolved result) :
    (u, result) ∈ t.calls :=
  h.called.finished u result (h.accounted.2.finished_of_promise hu hrefused hpromise)

/-- What was finished before another unit was submitted made its call before it. -/
theorem Run.sublist_calls (h : Run d (new capacity start) (es₁ ++ es₂) t)
    (hu : .finished u result ∈ es₁) (hv : .submitted v ∈ es₂) (hcalled : v ∈ t.calls.map Prod.fst) :
    [u, v].Sublist (t.calls.map Prod.fst) := by
  obtain ⟨t₁, hbefore, hafter⟩ := h.cut rfl
  obtain ⟨later, hlater⟩ := hafter.calls_prefix
  have hfirst : u ∈ t₁.calls.map Prod.fst :=
    List.mem_map_of_mem (f := Prod.fst) (hbefore.called.finished u result hu)
  -- The second unit is submitted once, so the calls up to then are not its own.
  have hnodup := List.Nodup.of_map _ h.accounted.2.nodup
  rw [submissions, List.filterMap_append, List.nodup_append] at hnodup
  have hnot : v ∉ t₁.calls.map Prod.fst := fun hmem =>
    hnodup.2.2 v (hbefore.mem_submissions hmem) v (Pool.mem_submissions.2 hv) rfl
  rw [← hlater, List.map_append] at hcalled ⊢
  have hsecond := (List.mem_append.1 hcalled).resolve_left hnot
  exact (List.singleton_sublist.2 hfirst).append (List.singleton_sublist.2 hsecond)

/-- With one permit the calls are made in the order of submission. -/
theorem Run.calls_inOrder (h : Run d (new 1 start) es t) :
    t.calls.map Prod.fst <+: submissions es := by
  refine List.IsPrefix.trans ?_ h.accounted.2.inOrder
  rw [← h.called.inOrder rfl]
  exact List.prefix_append ..

/-- At rest every unit of an open team has made its call and is resolved. -/
theorem AtRest.calls_perm (hrest : AtRest d t) (hcapacity : 1 ≤ capacity)
    (h : Run d (new capacity start) es t) (hopen : .closed ∉ es) :
    (t.calls.map Prod.fst).Perm (submissions es) ∧
      (capacity = 1 → t.calls.map Prod.fst = submissions es) ∧
      ∀ u ∈ submissions es, ∃ result, t.pool.promise u.ticket = .resolved result := by
  obtain ⟨hpaired, haccounted⟩ := h.accounted
  obtain ⟨htasks, -⟩ := hrest.eq_nil
  obtain ⟨hadmitted, hresolved⟩ :=
    haccounted.resolved_of_isQuiet hcapacity (hrest.isQuiet hpaired) hopen
  have hwaiting : t.waiting = [] := by
    rw [waiting, htasks]
    rfl
  have hunits := h.called.units
  have hinOrder := h.called.inOrder
  rw [hwaiting, List.append_nil, hadmitted] at hunits hinOrder
  exact ⟨hunits, hinOrder, hresolved⟩

end Sequence

/-- On different jobs each call gives what it gives on the table that the team began with. -/
theorem Run.calls_apart {capacity : Nat} {table : JobTable} {es : List (Event Unit)} {t : Team JobTable}
    (h : Run JobTable.delegate (new capacity table) es t)
    (hperm : (t.calls.map Prod.fst).Perm (submissions es))
    (hlist : ∀ u ∈ submissions es, u.command.operation ≠ .listJobs)
    (hkeys : ((submissions es).map fun u => u.command.jobKey).Nodup) :
    (∀ u result, (u, result) ∈ t.calls → result = (JobTable.delegate.invoke u.command table).1) ∧
      (Executor.sync JobTable.delegate).runAll ((submissions es).map PoolUnit.command) table =
        ((submissions es).map fun u => (JobTable.delegate.invoke u.command table).1, t.shared) := by
  have hlist' : ∀ c ∈ (submissions es).map PoolUnit.command, c.operation ≠ .listJobs := by
    simpa only [List.forall_mem_map] using hlist
  have hkeys' : (((submissions es).map PoolUnit.command).map JobCommand.jobKey).Nodup := by
    rwa [List.map_map]
  have hrun := h.runAll_calls
  rw [Executor.runAll_sync] at hrun ⊢
  obtain ⟨hresults, htable⟩ := JobTable.mapM_invoke_perm hlist' hkeys' (hperm.map PoolUnit.command) table
  rw [hrun] at hresults htable
  constructor
  · intro u result hmem
    rw [List.map_map, List.map_map, List.map_inj_left] at hresults
    exact hresults _ hmem
  · refine Prod.ext ?_ htable.symm
    rw [(JobTable.mapM_invoke_eq hlist' hkeys' table).1, List.map_map]
    rfl

/-- However the units of a pool of threads overlap on a table of jobs, their results and the table are
those of the synchronous executor that runs their commands in some order. In this order a unit that was
resolved before another one was submitted comes first, and with one permit it is the order of
submission. If nothing is left to do and the pool was not closed, it is an order of all units. If then
the units are no lists and have different keys, their results and the table are those of the
synchronous executor in the order of submission. The executor itself is a pool that such steps lead to. -/
theorem interleavings_are_sequences {capacity : Nat} (hcapacity : 1 ≤ capacity) (table : JobTable) :
    (∀ q, (ThreadPool.executor JobTable.delegate).Used (.new capacity table) q →
      ∃ es t, Run JobTable.delegate (new capacity table) es t ∧ t.toThreads = q) ∧
    ∀ es t, Run JobTable.delegate (new capacity table) es t →
      ∃ order results,
        (Executor.sync JobTable.delegate).runAll (order.map PoolUnit.command) table =
          (results, t.shared) ∧
        order.Nodup ∧ (∀ u ∈ order, .submitted u ∈ es) ∧
        (∀ u result, .submitted u ∈ es → .refused u ∉ es →
          t.pool.promise u.ticket = .resolved result → (u, result) ∈ order.zip results) ∧
        (∀ es₁ es₂ u v result, es = es₁ ++ es₂ → .finished u result ∈ es₁ →
          .submitted v ∈ es₂ → v ∈ order → [u, v].Sublist order) ∧
        (capacity = 1 → order <+: submissions es) ∧
        (.closed ∉ es → AtRest JobTable.delegate t →
          order.Perm (submissions es) ∧ (capacity = 1 → order = submissions es) ∧
          (∀ u, .submitted u ∈ es → ∃ result, t.pool.promise u.ticket = .resolved result) ∧
          ((∀ u, .submitted u ∈ es → u.command.operation ≠ .listJobs) →
            ((submissions es).map fun u => u.command.jobKey).Nodup →
            ∃ inTurn, (Executor.sync JobTable.delegate).runAll
                ((submissions es).map PoolUnit.command) table = (inTurn, t.shared) ∧
              (submissions es).map (fun u => t.pool.promise u.ticket) = inTurn.map .resolved)) := by
  constructor
  · intro q hused
    obtain ⟨es, t, hrun, -, hpool⟩ := reaches_of_used hused
    exact ⟨es, t, hrun, hpool⟩
  intro es t h
  refine ⟨t.calls.map Prod.fst, t.calls.map Prod.snd, h.runAll_calls, h.nodup_calls,
    fun u hu => Pool.mem_submissions.1 (h.mem_submissions hu), ?_, ?_, ?_, ?_⟩
  · intro u result hu hrefused hpromise
    rw [zip_calls]
    exact h.mem_calls hu hrefused hpromise
  · rintro es₁ es₂ u v result rfl hu hv hcalled
    exact h.sublist_calls hu hv hcalled
  · rintro rfl
    exact h.calls_inOrder
  intro hopen hrest
  obtain ⟨hperm, hinOrder, hresolved⟩ := hrest.calls_perm hcapacity h hopen
  refine ⟨hperm, hinOrder, fun u hu => hresolved u (Pool.mem_submissions.2 hu), ?_⟩
  intro hlist hkeys
  obtain ⟨hresults, hsync⟩ :=
    h.calls_apart hperm (fun u hu => hlist u (Pool.mem_submissions.1 hu)) hkeys
  refine ⟨_, hsync, ?_⟩
  rw [List.map_map]
  refine List.map_congr_left fun u hu => ?_
  obtain ⟨result, hpromise⟩ := hresolved u hu
  have hnot := h.accounted.2.not_refused hopen u
  rw [hpromise, hresults u result (h.mem_calls (Pool.mem_submissions.1 hu) hnot hpromise)]
  rfl

/-- A job is created while the restart of another one, which was submitted later, already fails. -/
theorem overtaken_by_restart :
    ∃ (u v : PoolUnit Unit) (t : Team JobTable),
      u = ⟨0, .createJob (.full "c" "r" "e" "n") (.ofString "x"), ()⟩ ∧
      v = ⟨1, .restartJob (.full "c" "r" "e" "m") none .all, ()⟩ ∧
      1 ≤ 2 ∧ Run JobTable.delegate (new 2 .empty)
        [.submitted u, .submitted v, .started u, .started v,
          .finished v (v.command.fail (JobTable.notFound "c/r/e/m")),
          .finished u (.success "c/r/e/n" (.job "c/r/e/n"))] t ∧
      AtRest JobTable.delegate t ∧ ["c/r/e/n", "c/r/e/m"].Nodup ∧
      (Executor.sync JobTable.delegate).runAll [u.command, v.command] .empty =
        ([.success "c/r/e/n" (.job "c/r/e/n"), v.command.fail (JobTable.notFound "c/r/e/m")],
          t.shared) := by
  let u : PoolUnit Unit := ⟨0, .createJob (.full "c" "r" "e" "n") (.ofString "x"), ()⟩
  let v : PoolUnit Unit := ⟨1, .restartJob (.full "c" "r" "e" "m") none .all, ()⟩
  obtain ⟨t, hrun, htasks, hqueued, hholding⟩ : ∃ t : Team JobTable,
      Run JobTable.delegate (new 2 .empty)
        [.submitted u, .submitted v, .started u, .started v,
          .finished v (v.command.fail (JobTable.notFound "c/r/e/m")),
          .finished u (.success "c/r/e/n" (.job "c/r/e/n"))] t ∧
      t.tasks = [] ∧ t.pool.queued = [] ∧ t.holding = 0 := by
    have hstart : Run JobTable.delegate (new 2 .empty) [] (new 2 .empty) := .start
    have hsubmitted := (hstart.step (.submit _ u.command)).step (.submit _ v.command)
    have hadmitted := (hsubmitted.step (.start rfl rfl rfl)).step (.start rfl rfl rfl)
    have hcalled := (hadmitted.step (.call (i := 1) rfl)).step (.call (i := 0) rfl)
    have hlater := (hcalled.step (.resolve (i := 1) rfl rfl)).step (.release rfl)
    exact ⟨_, (hlater.step (.resolve (i := 0) rfl rfl)).step (.release rfl), rfl, rfl, rfl⟩
  have hrest : AtRest JobTable.delegate t := by
    constructor
    · simp [admit?, Pool.admit?, hqueued]
    · simp [call?, htasks]
    · simp [resolve?, htasks]
    · simp [release?, hholding]
  have hkeys : ["c/r/e/n", "c/r/e/m"].Nodup := by decide
  obtain ⟨_, _, -, -, -, -, -, -, hend⟩ :=
    (interleavings_are_sequences (by decide : 1 ≤ 2) .empty).2 _ t hrun
  obtain ⟨-, -, -, happart⟩ := hend (by simp) hrest
  obtain ⟨inTurn, hsync, -⟩ := happart (by simp [u, v, JobCommand.operation]) hkeys
  refine ⟨u, v, t, rfl, rfl, by decide, hrun, hrest, hkeys, hsync.trans ?_⟩
  have hresults : inTurn = _ := (congrArg Prod.fst hsync).symm
  rw [hresults]
  rfl

end Team

end JobGateway
