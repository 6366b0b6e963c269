import JobGateway.Executor.Team
import JobGateway.Proofs.Executor.Capacity
import JobGateway.Proofs.Executor.Crew
import JobGateway.Proofs.Executor.Rest

/-! Runs of a team. What happens in a team happens in a pool of units, in which a unit keeps its permit
as long as it runs. The calls are made one after the other on the delegate that all units share: each
admitted unit makes one, and its promise is resolved with what that call gave. -/
namespace JobGateway.Team

open Pool (Event submissions admissions refusals completions)

variable {σ : Type}

/-- The steps of a team, with what happens in its pool. A call is nothing that happens there. -/
inductive Step (d : Delegate σ) : Team σ → List (Event Unit) → Team σ → Prop
  | submit (t : Team σ) (c : JobCommand) :
    Step d t [.submitted ⟨t.pool.submitted, c, ()⟩] (t.submit c)
  | start {t t' : Team σ} {u : PoolUnit Unit} (head : t.pool.queued.head? = some u)
      (isOpen : t.pool.isClosed = false) (taken : t.admit? = some t') : Step d t [.started u] t'
  | refuse {t t' : Team σ} {u : PoolUnit Unit} (head : t.pool.queued.head? = some u)
      (isClosed : t.pool.isClosed = true) (taken : t.admit? = some t') : Step d t [.refused u] t'
  | call {t t' : Team σ} {i : Nat} (call : t.call? d i = some t') : Step d t [] t'
  | resolve {t t' : Team σ} {i : Nat} {u : PoolUnit Unit} {result : JobResult}
      (task : t.tasks[i]? = some ⟨u, some result⟩) (resolve : t.resolve? i = some t') :
    Step d t [.finished u result] t'
  | release {t t' : Team σ} (release : t.release? = some t') : Step d t [] t'
  | close (t : Team σ) : Step d t [.closed] t.close

/-- Any number of steps, and what happens in the pool. -/
inductive Run (d : Delegate σ) (start : Team σ) : List (Event Unit) → Team σ → Prop
  | start : Run d start [] start
  | step {es es' : List (Event Unit)} {t t' : Team σ} (run : Run d start es t)
      (step : Step d t es' t') : Run d start (es ++ es') t'

/-- No unit of a team can go on: the first one of the queue must wait, no task can make its call or be
resolved, and no permit can be given back. -/
structure AtRest (d : Delegate σ) (t : Team σ) : Prop where
  head : t.admit? = none
  call : ∀ i, t.call? d i = none
  resolve : ∀ i, t.resolve? i = none
  release : t.release? = none

/-- The pool of a team, in which the permits of the resolved units count as free. -/
def units (t : Team σ) : Pool Unit := t.pool.lend t.holding

/-- The tasks of a team are its running units, in order. -/
def Paired (t : Team σ) : Prop := t.tasks.map ThreadTask.unit = t.pool.running

/-- The admitted units whose call is not made. -/
def waiting (t : Team σ) : List (PoolUnit Unit) :=
  (t.tasks.filter fun task => task.result.isNone).map ThreadTask.unit

variable {d : Delegate σ} {t t' : Team σ} {es es' : List (Event Unit)} {i : Nat} {u : PoolUnit Unit}
  {result : JobResult}

theorem Paired.length_eq (h : t.Paired) : t.tasks.length = t.pool.running.length := by
  rw [← h, List.length_map]

/-- An open team gives the admitted unit a task. -/
theorem admit?_of_open (hpaired : t.Paired) (head : t.pool.queued.head? = some u)
    (isOpen : t.pool.isClosed = false) (taken : t.admit? = some t') :
    ∃ pool, t.pool.admit? = some pool ∧ pool.running = t.pool.running ++ [u] ∧
      t' = { t with pool, tasks := t.tasks ++ [⟨u, none⟩] } := by
  obtain ⟨pool, hpool, rfl⟩ := Option.map_eq_some_iff.1 taken
  obtain ⟨queued, -, -, rfl⟩ := Pool.admit?_of_open head isOpen hpool
  refine ⟨_, hpool, rfl, ?_⟩
  simp only [hpaired.length_eq, List.drop_left, List.map_singleton]

/-- A closed team gives no tasks. -/
theorem admit?_of_closed (hpaired : t.Paired) (head : t.pool.queued.head? = some u)
    (isClosed : t.pool.isClosed = true) (taken : t.admit? = some t') :
    ∃ pool, t.pool.admit? = some pool ∧ pool.running = t.pool.running ∧ t' = { t with pool } := by
  obtain ⟨pool, hpool, rfl⟩ := Option.map_eq_some_iff.1 taken
  obtain ⟨queued, -, rfl⟩ := Pool.admit?_of_closed head isClosed hpool
  refine ⟨_, hpool, rfl, ?_⟩
  simp only [hpaired.length_eq, List.drop_length, List.map_nil, List.append_nil]

theorem call?_eq (h : t.call? d i = some t') :
    ∃ u before after, t.tasks = before ++ ⟨u, none⟩ :: after ∧
      t' = { t with
        tasks := before ++ ⟨u, some (d.invoke u.command t.shared).1⟩ :: after
        calls := t.calls ++ [(u, (d.invoke u.command t.shared).1)]
        shared := (d.invoke u.command t.shared).2 } := by
  unfold call? at h
  split at h
  · next u htask =>
    obtain ⟨before, after, htasks, -, hset⟩ := Pool.exists_split htask
    refine ⟨u, before, after, htasks, ?_⟩
    rw [← hset]
    exact (Option.some.inj h).symm
  · cases h

theorem resolve?_eq (task : t.tasks[i]? = some ⟨u, some result⟩) (h : t.resolve? i = some t') :
    t' = { t with
      pool := { t.pool with
        running := t.pool.running.eraseIdx i
        settled := t.pool.settled ++ [(u.ticket, .resolved result)] }
      tasks := t.tasks.eraseIdx i
      holding := t.holding + 1 } := by
  rw [resolve?, task] at h
  exact (Option.some.inj h).symm

theorem release?_eq (h : t.release? = some t') :
    0 < t.holding ∧
      t' = { t with pool := { t.pool with free := t.pool.free + 1 }, holding := t.holding - 1 } := by
  rw [release?] at h
  split_ifs at h with hholding
  exact ⟨Nat.pos_of_ne_zero hholding, (Option.some.inj h).symm⟩

/-- What happens in a team happens in its pool of units. -/
theorem Step.units (h : Step d t es' t') (hpaired : t.Paired) :
    t'.Paired ∧ (es' = [] ∧ t'.units = t.units ∨ ∃ e, es' = [e] ∧ Pool.Step t.units e t'.units) := by
  cases h with
  | submit c =>
    refine ⟨hpaired.trans (Pool.running_submit ..).symm, .inr ⟨_, rfl, ?_⟩⟩
    change Pool.Step t.units _ ((t.pool.submit c ()).lend t.holding)
    rw [Pool.submit_lend]
    exact .submit t.units c ()
  | start head isOpen taken =>
    obtain ⟨pool, hpool, hrunning, rfl⟩ := admit?_of_open hpaired head isOpen taken
    refine ⟨?_, .inr ⟨_, rfl, .start head isOpen (Pool.admit?_lend hpool t.holding)⟩⟩
    rw [Paired, List.map_append, hpaired, hrunning]
    rfl
  | refuse head isClosed taken =>
    obtain ⟨pool, hpool, hrunning, rfl⟩ := admit?_of_closed hpaired head isClosed taken
    exact ⟨hpaired.trans hrunning.symm,
      .inr ⟨_, rfl, .refuse head isClosed (Pool.admit?_lend hpool t.holding)⟩⟩
  | call call =>
    obtain ⟨u, before, after, htasks, rfl⟩ := call?_eq call
    refine ⟨?_, .inl ⟨rfl, rfl⟩⟩
    rw [Paired, htasks] at hpaired
    rw [Paired, ← hpaired]
    simp
  | @resolve _ i u result task resolve =>
    have hrunning : t.units.running[i]? = some u := by
      change t.pool.running[i]? = some u
      rw [← hpaired, List.getElem?_map, task]
      rfl
    obtain rfl := resolve?_eq task resolve
    refine ⟨?_, .inr ⟨_, rfl, ?_⟩⟩
    · rw [Paired, ← List.eraseIdx_map, hpaired]
    · have hfinish := Pool.Step.finish hrunning result
      rw [Pool.finishAt_of_running hrunning] at hfinish
      exact hfinish
  | release release =>
    obtain ⟨hholding, rfl⟩ := release?_eq release
    refine ⟨hpaired, .inl ⟨rfl, ?_⟩⟩
    have hfree : t.pool.free + 1 + (t.holding - 1) = t.pool.free + t.holding := by omega
    rw [Team.units, Team.units, Pool.lend, Pool.lend, hfree]
  | close => exact ⟨hpaired, .inr ⟨_, rfl, .close _⟩⟩

/-- The pool of units runs as a pool does. -/
theorem Run.units {capacity : Nat} {shared : σ} (h : Run d (new capacity shared) es t) :
    t.Paired ∧ Pool.Run (.new ThreadPool.name capacity) es t.units := by
  induction h with
  | start => exact ⟨rfl, .start⟩
  | step _ step ih =>
    obtain ⟨hbefore, hrun⟩ := ih
    obtain ⟨hafter, ⟨rfl, hsame⟩ | ⟨e, rfl, hstep⟩⟩ := step.units hbefore
    · rw [List.append_nil, hsame]
      exact ⟨hafter, hrun⟩
    · exact ⟨hafter, hrun.step hstep⟩

theorem Run.accounted {capacity : Nat} {shared : σ} (h : Run d (new capacity shared) es t) :
    t.Paired ∧ Pool.Accounted ThreadPool.name capacity es t.units := by
  obtain ⟨hpaired, hrun⟩ := h.units
  exact ⟨hpaired, hrun.accounted⟩

/-- With one permit there is at most one task. -/
theorem length_tasks_le {capacity : Nat} (hpaired : t.Paired)
    (haccounted : Pool.Accounted ThreadPool.name capacity es t.units) :
    t.tasks.length ≤ capacity := by
  have hpermits := haccounted.permits
  have hrunning : t.units.running = t.pool.running := rfl
  rw [hrunning, ← hpaired.length_eq] at hpermits
  omega

/-- The calls of a team, against what happened in its pool. -/
structure Called (d : Delegate σ) (start : σ) (capacity : Nat) (es : List (Event Unit)) (t : Team σ) :
    Prop where
  /-- The calls gave what they give one after the other. -/
  run : (t.calls.map fun call => call.1.command).mapM d.invoke start =
    (t.calls.map Prod.snd, t.shared)
  /-- Each admitted unit has made its call or waits to make it. -/
  units : (t.calls.map Prod.fst ++ t.waiting).Perm (admissions es)
  /-- With one permit the calls are made in the order of the admissions. -/
  inOrder : capacity = 1 → t.calls.map Prod.fst ++ t.waiting = admissions es
  made : ∀ task ∈ t.tasks, ∀ result, task.result = some result → (task.unit, result) ∈ t.calls
  finished : ∀ u result, .finished u result ∈ es → (u, result) ∈ t.calls

variable {start : σ} {capacity : Nat}

theorem called_new (capacity : Nat) (shared : σ) :
    Called d shared capacity [] (new capacity shared) where
  run := rfl
  units := .nil
  inOrder _ := rfl
  made := by rintro task ⟨⟩
  finished := by rintro u result ⟨⟩

/-- What does not touch the tasks and the calls keeps what is known of them. -/
theorem Called.of_eq (h : Called d start capacity es t) (htasks : t'.tasks = t.tasks)
    (hcalls : t'.calls = t.calls) (hshared : t'.shared = t.shared)
    (hadmissions : admissions (es ++ es') = admissions es)
    (hfinished : ∀ u result, .finished u result ∉ es') :
    Called d start capacity (es ++ es') t' where
  run := by
    rw [hcalls, hshared]
    exact h.run
  units := by
    rw [hcalls, hadmissions, waiting, htasks]
    exact h.units
  inOrder hone := by
    rw [hcalls, hadmissions, waiting, htasks]
    exact h.inOrder hone
  made := by
    rw [htasks, hcalls]
    exact h.made
  finished u result hmem := by
    rw [hcalls]
    exact h.finished u result ((List.mem_append.1 hmem).resolve_right (hfinished u result))

theorem Called.admitted (h : Called d start capacity es t) (u : PoolUnit Unit) (pool : Pool Unit) :
    Called d start capacity (es ++ [.started u])
      { t with pool, tasks := t.tasks ++ [⟨u, none⟩] } := by
  have hwaiting : waiting { t with pool, tasks := t.tasks ++ [⟨u, none⟩] } = t.waiting ++ [u] := by
    simp [waiting]
  have hadmissions : admissions (es ++ [.started u]) = admissions es ++ [u] := by simp [admissions]
  constructor
  · exact h.run
  · rw [hwaiting, hadmissions, ← List.append_assoc]
    exact h.units.append_right [u]
  · intro hone
    rw [hwaiting, hadmissions, ← List.append_assoc, h.inOrder hone]
  · intro task htask result hresult
    obtain htask | htask := List.mem_append.1 htask
    · exact h.made task htask result hresult
    · obtain rfl := List.mem_singleton.1 htask
      cases hresult
  · intro v result hmem
    exact h.finished v result ((List.mem_append.1 hmem).resolve_right (by simp))

theorem Called.call (h : Called d start capacity es t) (hlength : t.tasks.length ≤ capacity)
    (call : t.call? d i = some t') : Called d start capacity es t' := by
  obtain ⟨u, before, after, htasks, rfl⟩ := call?_eq call
  have hrun := h.run
  have hunits := h.units
  have hwaiting : t.waiting = waiting { t with tasks := before } ++ u ::
      waiting { t with tasks := after } := by
    simp [waiting, htasks]
  constructor
  · simp only [List.map_append, List.map_singleton]
    rw [mapM_append_state, hrun, mapM_cons_state]
    rfl
  · refine List.Perm.trans ?_ h.units
    rw [hwaiting]
    simp only [waiting, List.map_append, List.map_singleton, List.append_assoc, List.filter_append,
      Option.isNone_some, Bool.false_eq_true, not_false_eq_true, List.filter_cons_of_neg,
      List.singleton_append]
    exact (List.perm_middle.symm).append_left _
  · intro hone
    have halone : before = [] ∧ after = [] := by
      rw [htasks, List.length_append, List.length_cons] at hlength
      exact ⟨List.eq_nil_of_length_eq_zero (by omega), List.eq_nil_of_length_eq_zero (by omega)⟩
    obtain ⟨rfl, rfl⟩ := halone
    rw [← h.inOrder hone, hwaiting]
    simp [waiting]
  · intro task htask result hresult
    rw [List.mem_append]
    obtain htask | htask := List.mem_append.1 htask
    · refine .inl (h.made task ?_ result hresult)
      rw [htasks]
      exact List.mem_append_left _ htask
    · obtain rfl | htask := List.mem_cons.1 htask
      · cases hresult
        exact .inr (List.mem_singleton.2 rfl)
      · refine .inl (h.made task ?_ result hresult)
        rw [htasks]
        exact List.mem_append_right _ (List.mem_cons_of_mem _ htask)
  · intro v result hmem
    exact List.mem_append_left _ (h.finished v result hmem)

theorem Called.resolve (h : Called d start capacity es t)
    (task : t.tasks[i]? = some ⟨u, some result⟩) (resolve : t.resolve? i = some t') :
    Called d start capacity (es ++ [.finished u result]) t' := by
  obtain ⟨before, after, htasks, herase, -⟩ := Pool.exists_split task
  obtain rfl := resolve?_eq task resolve
  have hadmissions : admissions (es ++ [.finished u result]) = admissions es := by
    simp [admissions]
  have hmem : ∀ {task}, task ∈ t.tasks.eraseIdx i → task ∈ t.tasks := fun h => List.mem_of_mem_eraseIdx h
  have hwaiting : t.waiting = ((t.tasks.eraseIdx i).filter fun task => task.result.isNone).map
      ThreadTask.unit := by
    rw [herase]
    simp [waiting, htasks]
  constructor
  · exact h.run
  · rw [hadmissions, waiting, ← hwaiting]
    exact h.units
  · intro hone
    rw [hadmissions, waiting, ← hwaiting]
    exact h.inOrder hone
  · exact fun task htask => h.made task (hmem htask)
  · intro v r hfinished
    obtain hfinished | hfinished := List.mem_append.1 hfinished
    · exact h.finished v r hfinished
    · cases List.mem_singleton.1 hfinished
      exact h.made _ (List.mem_of_getElem? task) _ rfl

/-- What is known of the calls is kept by every step. -/
theorem Called.step (h : Called d start capacity es t) (hpaired : t.Paired)
    (haccounted : Pool.Accounted ThreadPool.name capacity es t.units) (step : Step d t es' t') :
    Called d start capacity (es ++ es') t' := by
  cases step with
  | submit c => exact h.of_eq rfl rfl rfl (by simp [admissions]) (by simp)
  | start head isOpen taken =>
    obtain ⟨pool, -, -, rfl⟩ := admit?_of_open hpaired head isOpen taken
    exact h.admitted _ pool
  | refuse head isClosed taken =>
    obtain ⟨pool, -, -, rfl⟩ := admit?_of_closed hpaired head isClosed taken
    exact h.of_eq rfl rfl rfl (by simp [admissions]) (by simp)
  | call call =>
    rw [List.append_nil]
    exact h.call (length_tasks_le hpaired haccounted) call
  | resolve task resolve => exact h.resolve task resolve
  | release release =>
    obtain ⟨-, rfl⟩ := release?_eq release
    exact h.of_eq rfl rfl rfl (by simp) (by simp)
  | close => exact h.of_eq rfl rfl rfl (by simp [admissions]) (by simp)

/-- What is known of the calls holds after every run. -/
theorem Run.called (h : Run d (new capacity start) es t) : Called d start capacity es t := by
  induction h with
  | start => exact called_new capacity start
  | step run step ih =>
    obtain ⟨hpaired, haccounted⟩ := run.accounted
    exact ih.step hpaired haccounted step

theorem Step.run (h : Step d t es' t') : Run d t es' t' := Run.start.step h

theorem Run.trans {t₁ t₂ : Team σ} (h : Run d t es t₁) (h' : Run d t₁ es' t₂) :
    Run d t (es ++ es') t₂ := by
  induction h' with
  | start => rwa [List.append_nil]
  | step _ step ih =>
    rw [← List.append_assoc]
    exact ih.step step

theorem Step.eq_nil_or_singleton (h : Step d t es' t') : es' = [] ∨ ∃ e, es' = [e] := by
  cases h with
  | call | release => exact .inl rfl
  | _ => exact .inr ⟨_, rfl⟩

/-- A run may be cut at any place of its log. -/
theorem Run.cut {t₀ : Team σ} {log : List (Event Unit)} (h : Run d t₀ log t)
    (hlog : log = es ++ es') : ∃ t₁, Run d t₀ es t₁ ∧ Run d t₁ es' t := by
  induction h generalizing es' with
  | start =>
    obtain ⟨rfl, rfl⟩ := List.nil_eq_append_iff.1 hlog
    exact ⟨t₀, .start, .start⟩
  | @step log last t t' run step ih =>
    obtain rfl | ⟨e, rfl⟩ := step.eq_nil_or_singleton
    · rw [List.append_nil] at hlog
      obtain ⟨t₁, hbefore, hafter⟩ := ih hlog
      rw [← List.append_nil es']
      exact ⟨t₁, hbefore, hafter.step step⟩
    · obtain rfl | ⟨es', e', rfl⟩ := List.eq_nil_or_concat es'
      · rw [List.append_nil] at hlog
        exact ⟨t', hlog ▸ run.step step, .start⟩
      · rw [List.concat_eq_append, ← List.append_assoc] at hlog
        obtain ⟨hes, he⟩ := List.append_inj' hlog rfl
        cases he
        obtain ⟨t₁, hbefore, hafter⟩ := ih hes
        rw [List.concat_eq_append]
        exact ⟨t₁, hbefore, hafter.step step⟩

/-- Calls are not taken back. -/
theorem Step.calls_prefix (h : Step d t es' t') : t.calls <+: t'.calls := by
  cases h with
  | submit | close => exact List.prefix_rfl
  | start _ _ taken | refuse _ _ taken =>
    obtain ⟨pool, -, rfl⟩ := Option.map_eq_some_iff.1 taken
    exact List.prefix_rfl
  | call call =>
    obtain ⟨u, before, after, -, rfl⟩ := call?_eq call
    exact List.prefix_append ..
  | resolve task resolve =>
    obtain rfl := resolve?_eq task resolve
    exact List.prefix_rfl
  | release release =>
    obtain ⟨-, rfl⟩ := release?_eq release
    exact List.prefix_rfl

theorem Run.calls_prefix (h : Run d t es t') : t.calls <+: t'.calls := by
  induction h with
  | start => exact List.prefix_rfl
  | step _ step ih => exact ih.trans step.calls_prefix

/-- At rest no unit is left in the team. -/
theorem AtRest.eq_nil (h : AtRest d t) : t.tasks = [] ∧ t.holding = 0 := by
  constructor
  · by_contra hne
    obtain ⟨task, tasks, htasks⟩ := List.exists_cons_of_ne_nil hne
    obtain ⟨u, r⟩ := task
    cases r with
    | none =>
      have hcall := h.call 0
      rw [call?, htasks] at hcall
      cases hcall
    | some result =>
      have hresolve := h.resolve 0
      rw [resolve?, htasks] at hresolve
      cases hresolve
  · by_contra hne
    have hrelease := h.release
    rw [release?, if_neg hne] at hrelease
    cases hrelease

/-- At rest the pool of units has nothing left to do. -/
theorem AtRest.isQuiet (h : AtRest d t) (hpaired : t.Paired) : t.units.IsQuiet := by
  obtain ⟨htasks, hholding⟩ := h.eq_nil
  have hunits : t.units = t.pool := by
    rw [Team.units, hholding]
    rfl
  rw [hunits]
  refine Pool.isQuiet_of_none (Option.map_eq_none_iff.1 h.head) ?_
  rw [← hpaired, htasks]
  rfl

end JobGateway.Team
