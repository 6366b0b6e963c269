import JobGateway.Proofs.Executor.Capacity
import JobGateway.Proofs.Executor.Shares

/-! Pools whose processes serve a delegate each. Every request is run by one process, once, and has the
result that it has when the requests of its process are run one after the other, whatever the other
processes are sent. -/
namespace JobGateway.Crew

open Pool (Event submissions admissions)

variable {ε π : Type} {d : Delegate π} {fresh : π} {capacity : Nat} {es es' : List (Event RequestLine)}
  {c c' c₁ : Crew ε π} {runs : List (Nat × PoolUnit RequestLine)} {i : Nat}
  {u : PoolUnit RequestLine} {duty duty' : Duty π} {program : WorkerProgram ε π} {hasRuntime : Bool}
  {world : ε} {p : ProcessPool ε π}

/-- A crew that has all the processes that it began with, and starts no other. -/
structure Intact (capacity : Nat) (c : Crew ε π) : Prop where
  killed : c.killed = []
  started : c.started = capacity
  isStart : ∀ t ∈ c.tasks, t.isStart = false

/-- As long as nothing is killed a unit that looks for a process finds one. -/
theorem Intact.exists_idle (h : Intact capacity c) (hstaffed : Staffed c)
    (hlength : c.tasks.length ≤ capacity) (task : c.tasks[i]? = some ⟨u, .look⟩) : c.idle ≠ [] := by
  intro hidle
  have hmembers := hstaffed.numbers.length_eq
  have htasks := length_tasks c.tasks
  have hvacant : 0 < c.tasks.countP Task.isVacant :=
    List.countP_pos_iff.2 ⟨_, List.mem_of_getElem? task, rfl⟩
  rw [h.killed, h.started, Crew.members, hidle, List.append_nil, List.nil_append, List.length_map,
    List.length_range] at hmembers
  omega

theorem Intact.assign (h : Intact capacity c) (htasks : c₁.tasks = c.tasks)
    (hkilled : c₁.killed = c.killed) (hstarted : c₁.started = c.started)
    (hduty : Task.isStart ⟨u, duty'⟩ = false) : Intact capacity (c₁.assign i u duty') where
  killed := hkilled.trans h.killed
  started := hstarted.trans h.started
  isStart t ht := by
    rw [Crew.assign, htasks] at ht
    obtain ht | rfl := List.mem_or_eq_of_mem_set ht
    · exact h.isStart t ht
    · exact hduty

theorem Intact.act (h : Intact capacity c) (hdealt : Dealt d fresh capacity es c runs)
    (hstaffed : Staffed c) (hlength : c.tasks.length ≤ capacity) (hopen : c.pool.isClosed = false)
    (act : c.act? program i = some c') : Intact capacity c' := by
  obtain ⟨u, duty, htask, hact⟩ := act?_eq act
  have hmem := List.mem_of_getElem? htask
  cases hact with
  | take | ask | keep => exact h.assign rfl rfl rfl rfl
  | miss hidle => exact absurd hidle (h.exists_idle hstaffed hlength htask)
  | start | fail => exact absurd (h.isStart _ hmem) Bool.noConfusion
  | kill hclosed => exact absurd (hclosed.symm.trans hopen) Bool.noConfusion
  | discard => exact (hdealt.earned _ hmem).elim

theorem Intact.of_eq (h : Intact capacity c) (htasks : c'.tasks ⊆ c.tasks)
    (hkilled : c'.killed = c.killed) (hstarted : c'.started = c.started) : Intact capacity c' where
  killed := hkilled.trans h.killed
  started := hstarted.trans h.started
  isStart t ht := h.isStart t (htasks ht)

theorem Intact.step (h : c.pool.isClosed = false → Intact capacity c)
    (hdealt : Dealt d fresh capacity es c runs) (hstaffed : Staffed c) (hpaired : c.Paired)
    (haccounted : Pool.Accounted ProcessPool.name capacity es c.units)
    (step : Step program c es' c') (hopen : c'.pool.isClosed = false) : Intact capacity c' := by
  cases step with
  | reject unwritable =>
    rw [dispatch_error unwritable] at hopen ⊢
    exact (h hopen).of_eq (List.Subset.refl _) rfl rfl
  | submit request =>
    rw [dispatch_ok request] at hopen ⊢
    rw [Pool.isClosed_submit] at hopen
    exact (h hopen).of_eq (List.Subset.refl _) rfl rfl
  | start head isOpen taken =>
    obtain ⟨pool, -, -, -, rfl⟩ := admit?_of_open hpaired head isOpen taken
    refine ⟨(h isOpen).killed, (h isOpen).started, fun t ht => ?_⟩
    obtain ht | ht := List.mem_append.1 ht
    · exact (h isOpen).isStart t ht
    · obtain rfl := List.mem_singleton.1 ht
      rfl
  | refuse head isClosed taken =>
    obtain ⟨pool, -, -, -, hclosed, rfl⟩ := admit?_of_closed hpaired head isClosed taken
    exact absurd (hclosed.symm.trans hopen) Bool.noConfusion
  | act act =>
    obtain ⟨u, duty, htask, hact⟩ := act?_eq act
    obtain ⟨hpool, -⟩ := hact.frame
    rw [hpool] at hopen
    exact (h hopen).act hdealt hstaffed (length_tasks_le hpaired haccounted) hopen act
  | resolve task resolve =>
    obtain rfl := resolve?_eq task resolve
    exact (h hopen).of_eq List.eraseIdx_subset rfl rfl
  | release release =>
    obtain ⟨-, rfl⟩ := release?_eq release
    exact (h hopen).of_eq (List.Subset.refl _) rfl rfl
  | close => cases hopen
  | drain drain =>
    obtain ⟨hclosed, rfl⟩ := drain?_eq drain
    exact absurd (hclosed.symm.trans hopen) Bool.noConfusion

/-- Before it is closed a crew has all the processes that it began with. -/
theorem Run.intact
    (hbuild : ProcessPool.build (.serving d.onFirst fresh) capacity hasRuntime world = .ok p)
    (h : Run (.serving d.onFirst fresh) (.ofPool p) es c) (hopen : c.pool.isClosed = false) :
    Intact capacity c := by
  have hp := ProcessPool.built hbuild
  induction h with
  | start => exact ⟨rfl, hp.started, fun t ht => absurd ht List.not_mem_nil⟩
  | step run step ih =>
    obtain ⟨runs, hdealt⟩ := run.dealt hbuild
    obtain ⟨hpaired, haccounted⟩ := run.accounted hp
    exact Intact.step ih hdealt (run.staffed hp) hpaired haccounted step hopen

/-- No unit of a crew can go on: the first one of the queue must wait, no task can take its next step or
be resolved, and no permit can be given back. -/
structure AtRest (program : WorkerProgram ε π) (c : Crew ε π) : Prop where
  head : c.admit? = none
  act : ∀ i, c.act? program i = none
  resolve : ∀ i, c.resolve? i = none
  release : c.release? = none

/-- At rest no unit is left in the crew. -/
theorem AtRest.eq_nil (h : AtRest program c) : c.tasks = [] ∧ c.holding = 0 := by
  constructor
  · by_contra hne
    obtain ⟨⟨u, duty⟩, tasks, htasks⟩ := List.exists_cons_of_ne_nil hne
    have htask : c.tasks[0]? = some ⟨u, duty⟩ := by rw [htasks]; rfl
    by_cases hduty : ∃ result, duty = .resolve result
    · obtain ⟨result, rfl⟩ := hduty
      have hresolve := h.resolve 0
      rw [resolve?, htask] at hresolve
      cases hresolve
    · obtain ⟨c', hact⟩ := act?_isSome program htask (not_exists.1 hduty)
      rw [h.act 0] at hact
      cases hact
  · by_contra hne
    have hrelease := h.release
    rw [release?, if_neg hne] at hrelease
    cases hrelease

/-- At rest the pool of units has nothing left to do. -/
theorem AtRest.isQuiet (h : AtRest program c) (hpaired : c.Paired) : c.units.IsQuiet := by
  obtain ⟨htasks, hholding⟩ := h.eq_nil
  have hunits : c.units = c.pool := by
    rw [Crew.units, hholding]
    rfl
  rw [hunits]
  refine Pool.isQuiet_of_none (Option.map_eq_none_iff.1 h.head) ?_
  rw [← hpaired, htasks]
  rfl

section Dealt

variable {k : Nat}

theorem Dealt.calls_share (h : Dealt d fresh capacity es c runs) (k : Nat) :
    (c.calls.filter fun call => call.number = k).map (fun call => (call.ticket, call.line)) =
      (share runs k).map fun u => (u.ticket, u.work.line) := by
  have hcalls := congrArg (fun l => (l.filter fun x => x.1 = k).map Prod.snd) h.calls
  simp only [List.filter_map, List.map_map] at hcalls
  rw [share, List.map_map]
  exact hcalls

/-- No unit is sent twice. -/
theorem Dealt.nodup (h : Dealt d fresh capacity es c runs)
    (haccounted : Pool.Accounted ProcessPool.name capacity es c.units) :
    (runs.map Prod.snd).Nodup := by
  have hnodup := h.units.nodup_iff.2 (List.Nodup.of_map _ haccounted.nodup_admissions)
  exact (List.nodup_append.1 hnodup).1

theorem Dealt.nodup_share (h : Dealt d fresh capacity es c runs)
    (haccounted : Pool.Accounted ProcessPool.name capacity es c.units) (k : Nat) :
    (share runs k).Nodup :=
  (h.nodup haccounted).sublist (List.filter_sublist.map _)

theorem Dealt.eq_of_mem_share (h : Dealt d fresh capacity es c runs)
    (haccounted : Pool.Accounted ProcessPool.name capacity es c.units) {j k : Nat}
    (hj : u ∈ share runs j) (hk : u ∈ share runs k) : j = k :=
  congrArg Prod.fst (List.inj_on_of_nodup_map (h.nodup haccounted) (mem_share.1 hj) (mem_share.1 hk) rfl)

theorem Dealt.started_of_mem_share (h : Dealt d fresh capacity es c runs) (hu : u ∈ share runs k) :
    .started u ∈ es := by
  have hsent : u ∈ runs.map Prod.snd := List.mem_map_of_mem (f := Prod.snd) (mem_share.1 hu)
  exact Pool.mem_admissions.1 (h.units.subset (List.mem_append_left _ hsent))

/-- A resolved unit that was not refused has its result from the process that it was sent to. -/
theorem Dealt.isEarned (h : Dealt d fresh capacity es c runs)
    (haccounted : Pool.Accounted ProcessPool.name capacity es c.units) (hu : .submitted u ∈ es)
    (hrefused : .refused u ∉ es) {result : JobResult}
    (hpromise : c.pool.promise u.ticket = .resolved result) : IsEarned d fresh runs u result :=
  h.finished u result (haccounted.finished_of_promise hu hrefused hpromise)

/-- What a process is sent, a worker that serves its delegate reads line by line. -/
theorem serve_share {units : List (PoolUnit RequestLine)} (h : ∀ u ∈ units, IsRequest u) :
    ∃ out, Worker.serve d none (Utf8.encode (Worker.page (units.map fun u => u.work.line.toList)))
        fresh = ((out, .inputEnded), (d.inTurn fresh units).2) ∧
      out.text = Worker.page (List.zipWith
        (fun u result => (WorkerReply.done u.work.id result).toJson.render) units
        (d.inTurn fresh units).1) := by
  obtain ⟨messages, hmessages, hlines⟩ : ∃ messages : List Json,
      List.Forall₂ (fun r j => r.toJson = .ok j)
        (units.map fun u => WorkerRequest.mk u.work.id u.command) messages ∧
      messages.map Json.render = units.map fun u => u.work.line.toList := by
    induction units with
    | nil => exact ⟨[], .nil, rfl⟩
    | cons u units ih =>
      rw [List.forall_mem_cons] at h
      obtain ⟨j, hj, hline⟩ := h.1
      obtain ⟨messages, hmessages, hlines⟩ := ih h.2
      refine ⟨j :: messages, .cons hj hmessages, ?_⟩
      rw [List.map_cons, List.map_cons, hlines, hline, Json.text, String.toList_ofList]
  obtain ⟨out, hserve, htext⟩ := Worker.serve_requests (d := d) hmessages fresh
  rw [hlines, List.map_map] at hserve
  rw [List.map_map, List.zipWith_map_left] at htext
  exact ⟨out, hserve, htext⟩

end Dealt

section Open

/-- Before it is closed a pool sends requests to the processes that it began with only. -/
theorem Run.number_lt
    (hbuild : ProcessPool.build (.serving d.onFirst fresh) capacity hasRuntime world = .ok p)
    (h : Run (.serving d.onFirst fresh) (.ofPool p) es c) (hopen : .closed ∉ es)
    (hdealt : Dealt d fresh capacity es c runs) : ∀ run ∈ runs, run.1 < capacity := by
  obtain ⟨-, haccounted⟩ := h.accounted (ProcessPool.built hbuild)
  have hisOpen := Bool.eq_false_iff.2 fun hclosed => hopen (haccounted.closed.1 hclosed)
  have hstarted := (h.intact hbuild hisOpen).started
  exact fun run hrun => hstarted ▸ hdealt.numbers run hrun

/-- A single process is sent everything. -/
theorem share_zero (h : ∀ run ∈ runs, run.1 < 1) : share runs 0 = runs.map Prod.snd := by
  rw [share, List.filter_eq_self.2]
  intro run hrun
  rw [decide_eq_true_iff]
  exact Nat.lt_one_iff.1 (h run hrun)

theorem Dealt.inOrder_share (h : Dealt d fresh 1 es c runs)
    (haccounted : Pool.Accounted ProcessPool.name 1 es c.units) (hnumbers : ∀ run ∈ runs, run.1 < 1) :
    share runs 0 <+: submissions es := by
  refine List.IsPrefix.trans ?_ haccounted.inOrder
  rw [share_zero hnumbers, ← h.inOrder rfl]
  exact List.prefix_append ..

/-- At rest every unit of an open crew was sent to a process and is resolved. -/
theorem AtRest.runs_perm (hrest : AtRest program c) (hcapacity : 1 ≤ capacity) (hpaired : c.Paired)
    (haccounted : Pool.Accounted ProcessPool.name capacity es c.units) (hopen : .closed ∉ es)
    (h : Dealt d fresh capacity es c runs) :
    (runs.map Prod.snd).Perm (submissions es) ∧
      (capacity = 1 → runs.map Prod.snd = submissions es) ∧
      ∀ u ∈ submissions es, ∃ result, c.pool.promise u.ticket = .resolved result := by
  obtain ⟨htasks, -⟩ := hrest.eq_nil
  obtain ⟨hadmitted, hresolved⟩ :=
    haccounted.resolved_of_isQuiet hcapacity (hrest.isQuiet hpaired) hopen
  have hunasked : unasked c.tasks = [] := by
    rw [htasks]
    rfl
  have hunits := h.units
  have hinOrder := h.inOrder
  rw [hunasked, List.append_nil, hadmitted] at hunits hinOrder
  exact ⟨hunits, hinOrder, hresolved⟩

end Open

/-- Results that each belong to their unit are those of the promises. -/
theorem map_promise_eq {units : List (PoolUnit RequestLine)} {results : List JobResult}
    {pool : Pool RequestLine} (hnodup : units.Nodup) (hlength : results.length = units.length)
    (h : ∀ u ∈ units, ∃ result, pool.promise u.ticket = .resolved result ∧
      (u, result) ∈ units.zip results) :
    units.map (fun u => pool.promise u.ticket) = results.map .resolved := by
  refine List.ext_getElem (by simp [hlength]) fun n hn hn' => ?_
  rw [List.length_map] at hn hn'
  obtain ⟨result, hpromise, hzip⟩ := h units[n] (List.getElem_mem hn)
  obtain ⟨m, hm, hpair⟩ := List.mem_iff_getElem.1 hzip
  rw [List.getElem_zip, Prod.mk.injEq] at hpair
  have hsame : m = n := (hnodup.getElem_inj_iff).1 hpair.1
  subst hsame
  rw [List.getElem_map, List.getElem_map, hpromise, hpair.2]

/-- A command that can be written is submitted with the text of its request. -/
theorem Step.submitted {command : JobCommand} {j : Json}
    (h : (WorkerRequest.mk (.numbered c.issued) command).toJson = .ok j) :
    Step program c [.submitted ⟨c.pool.submitted, command, .numbered c.issued, j.text⟩] { c with
      pool := c.pool.submit command ⟨.numbered c.issued, j.text⟩, issued := c.issued + 1 } :=
  dispatch_ok h ▸ .submit h

/-- A command with text is submitted when it is dispatched. -/
theorem exists_submit (program : WorkerProgram ε π) (c : Crew ε π) {command : JobCommand}
    (h : command.HasText) :
    ∃ u, u.command = command ∧ (c.dispatch command).1 = .queued u.ticket ∧
      Step program c [.submitted u] (c.dispatch command).2 := by
  obtain ⟨j, hj⟩ := JobCommand.hasText_iff.1 h
  obtain ⟨request, hrequest⟩ := WorkerRequest.exists_toJson (.numbered c.issued) hj
  refine ⟨_, rfl, ?_, .submit hrequest⟩
  rw [dispatch, ProcessPool.dispatch_ok (p := c.toPool) hrequest]
  rfl

/-- However the requests of a pool overlap whose processes serve a delegate each, every request that is
admitted is sent to one process and once, and has the result that the synchronous executor gives it
when it runs, on a fresh state, the commands that this process was sent, in their order. These are the
results that a worker writes which is sent the same lines, and they do not depend on what the other
processes are sent. If nothing is left to do and the pool was not closed, all units were sent to the
processes that the pool began with; a single process is sent them in the order of submission. The
executor itself is a pool that such steps lead to, and submits every command with text. -/
theorem processes_are_sequences (d : Delegate π) (fresh : π)
    (hbuild : ProcessPool.build (.serving d.onFirst fresh) capacity hasRuntime world = .ok p) :
    (∀ capabilities q,
      (ProcessPool.executor (.serving d.onFirst fresh) capabilities).Used p q →
      ∃ es c, Run (.serving d.onFirst fresh) (.ofPool p) es c ∧ c.toPool = q) ∧
    ∀ es c, Run (.serving d.onFirst fresh) (.ofPool p) es c →
      (∀ command : JobCommand, command.HasText →
        ∃ u, u.command = command ∧ (c.dispatch command).1 = .queued u.ticket ∧
          Step (.serving d.onFirst fresh) c [.submitted u] (c.dispatch command).2) ∧
      ∃ shares : Nat → List (PoolUnit RequestLine),
        let run k := (Executor.sync d).runAll ((shares k).map PoolUnit.command) fresh
        (∀ k, (c.calls.filter fun call => call.number = k).map (fun call => (call.ticket, call.line)) =
          (shares k).map fun u => (u.ticket, u.work.line)) ∧
        (∀ k, (shares k).Nodup ∧ ∀ u ∈ shares k, .started u ∈ es) ∧
        (∀ u j k, u ∈ shares j → u ∈ shares k → j = k) ∧
        (∀ m ∈ c.members, m.process = ⟨some (run m.number).2, []⟩) ∧
        (∀ k, ∃ out, Worker.serve d none
            (Utf8.encode (Worker.page ((shares k).map fun u => u.work.line.toList))) fresh =
              ((out, .inputEnded), (run k).2) ∧
          out.text = Worker.page (List.zipWith
            (fun u result => (WorkerReply.done u.work.id result).toJson.render) (shares k) (run k).1)) ∧
        (∀ u result, .submitted u ∈ es → .refused u ∉ es →
          c.pool.promise u.ticket = .resolved result → ∃ k, (u, result) ∈ (shares k).zip (run k).1) ∧
        (.closed ∉ es →
          (∀ k, capacity ≤ k → shares k = []) ∧ (capacity = 1 → shares 0 <+: submissions es) ∧
          (AtRest (.serving d.onFirst fresh) c →
            (∀ u, .submitted u ∈ es → ∃ k < capacity, u ∈ shares k) ∧
            (capacity = 1 → shares 0 = submissions es) ∧
            ∀ k, (shares k).map (fun u => c.pool.promise u.ticket) = (run k).1.map .resolved)) := by
  have hp := ProcessPool.built hbuild
  constructor
  · intro capabilities q hused
    obtain ⟨es, c, hrun, -, hpool⟩ := ProcessPool.reaches_of_used hbuild hused
    exact ⟨es, c, hrun, hpool⟩
  intro es c h
  obtain ⟨runs, hdealt⟩ := h.dealt hbuild
  obtain ⟨hpaired, haccounted⟩ := h.accounted hp
  have hrun : ∀ k, (Executor.sync d).runAll ((share runs k).map PoolUnit.command) fresh =
      d.inTurn fresh (share runs k) := fun k => by rw [Executor.runAll_sync, Delegate.inTurn]
  refine ⟨fun command => exists_submit _ c, share runs, ?_⟩
  simp only [hrun]
  refine ⟨hdealt.calls_share, fun k => ⟨hdealt.nodup_share haccounted k, fun u =>
    hdealt.started_of_mem_share⟩, fun u j k => hdealt.eq_of_mem_share haccounted, hdealt.members, ?_,
    fun u result hu hrefused => hdealt.isEarned haccounted hu hrefused, ?_⟩
  · intro k
    refine serve_share fun u hu => ?_
    have hadmitted := Pool.mem_admissions.2 (hdealt.started_of_mem_share hu)
    exact (h.told hp).request u (Pool.mem_submissions.1 (haccounted.mem_of_admitted hadmitted))
  intro hopen
  have hnumbers := h.number_lt hbuild hopen hdealt
  refine ⟨fun k hk => share_eq_nil fun run hrun => (hnumbers run hrun).trans_le hk, ?_, ?_⟩
  · rintro rfl
    exact hdealt.inOrder_share haccounted hnumbers
  intro hrest
  obtain ⟨hunits, hinOrder, hresolved⟩ :=
    hrest.runs_perm hp.capacity_pos hpaired haccounted hopen hdealt
  refine ⟨fun u hu => ?_, ?_, fun k => ?_⟩
  · obtain ⟨⟨k, _⟩, hsent, rfl⟩ := List.mem_map.1 (hunits.symm.subset (Pool.mem_submissions.2 hu))
    exact ⟨k, hnumbers _ hsent, mem_share.2 hsent⟩
  · rintro rfl
    rw [share_zero hnumbers, hinOrder rfl]
  · refine map_promise_eq (hdealt.nodup_share haccounted k) (d.length_inTurn ..) fun u hu => ?_
    have hadmitted := Pool.mem_admissions.2 (hdealt.started_of_mem_share hu)
    have hsubmitted := haccounted.mem_of_admitted hadmitted
    obtain ⟨result, hpromise⟩ := hresolved u hsubmitted
    obtain ⟨j, hmem⟩ := hdealt.isEarned haccounted (Pool.mem_submissions.1 hsubmitted)
      (haccounted.not_refused hopen u) hpromise
    obtain rfl := hdealt.eq_of_mem_share haccounted hu (List.of_mem_zip hmem).1
    exact ⟨result, hpromise, hmem⟩

/-- A request that is with its process comes to its result when it is left alone, and the process to the
next state. -/
theorem served_run (fresh : π) {m : Member π} {own : π} (hpaired : c.Paired) (hholding : c.holding = 0)
    (hopen : c.pool.isClosed = false) (task : c.tasks[i]? = some ⟨u, .ask m⟩)
    (hrequest : IsRequest u) (hprocess : m.process = ⟨some own, []⟩) :
    let run := d.invoke u.command own
    ∃ reply shared, Run (.serving d.onFirst fresh) c [.finished u run.1] { c with
      pool := c.pool.finishAt i run.1
      tasks := c.tasks.eraseIdx i
      idle := ⟨m.number, some run.2, []⟩ :: c.idle
      calls := c.calls ++ [⟨u.ticket, m.number, u.work.line, reply⟩]
      shared } := by
  intro run
  let program : WorkerProgram ε π := .serving d.onFirst fresh
  have hask : Run program c [] (c.ask program i u m) := (Act.ask m).run task
  obtain ⟨reply, shared, heq⟩ := ask_serving d fresh own c i hrequest hprocess
  rw [heq] at hask
  let asked : Crew ε π := { c with
    tasks := c.tasks.set i ⟨u, .leave ⟨m.number, some run.2, []⟩ (.ok run.1)⟩
    calls := c.calls ++ [⟨u.ticket, m.number, u.work.line, reply⟩]
    shared }
  have hasked : asked.tasks[i]? = some ⟨u, .leave ⟨m.number, some run.2, []⟩ (.ok run.1)⟩ :=
    List.getElem?_set_self (List.getElem?_eq_some_iff.1 task).1
  have hkept : Act program asked i u (.leave ⟨m.number, some run.2, []⟩ (.ok run.1)) _ := .keep hopen
  have hleave := hkept.run hasked
  have hresolve := resolve_run program
    (c := { asked with idle := ⟨m.number, some run.2, []⟩ :: asked.idle })
    ((map_unit_set task _).trans hpaired) hholding hasked run.1
  have htasks : asked.tasks.eraseIdx i = c.tasks.eraseIdx i := List.eraseIdx_set_eq ..
  dsimp only at hresolve
  rw [htasks] at hresolve
  exact ⟨reply, shared, hask.trans (hleave.trans hresolve)⟩

/-- Two processes create the same job, each in a table of its own. -/
theorem created_twice :
    ∃ (p : ProcessPool Unit JobTable) (c : Crew Unit JobTable) (u v : PoolUnit RequestLine),
      u.command = .createJob (.full "c" "r" "e" "n") (.ofString "x") ∧ v.command = u.command ∧
      ProcessPool.build (.serving JobTable.delegate.onFirst .empty) 2 true () = .ok p ∧
      Run (.serving JobTable.delegate.onFirst .empty) (.ofPool p)
        [.submitted u, .submitted v, .started u, .started v,
          .finished v (.success "c/r/e/n" (.job "c/r/e/n")),
          .finished u (.success "c/r/e/n" (.job "c/r/e/n"))] c ∧
      AtRest (.serving JobTable.delegate.onFirst .empty) c ∧
      ∃ shares : Nat → List (PoolUnit RequestLine), u ∈ shares 0 ∧ v ∈ shares 1 ∧
        ∀ k, (shares k).map (fun u => c.pool.promise u.ticket) =
          ((Executor.sync JobTable.delegate).runAll ((shares k).map PoolUnit.command)
            .empty).1.map .resolved := by
  let program : WorkerProgram Unit JobTable := .serving JobTable.delegate.onFirst .empty
  let p : ProcessPool Unit JobTable :=
    ⟨.new ProcessPool.name 2, 0, [⟨some .empty, []⟩, ⟨some .empty, []⟩], [], 2, ()⟩
  let command : JobCommand := .createJob (.full "c" "r" "e" "n") (.ofString "x")
  have hbuild : ProcessPool.build program 2 true () = .ok p := rfl
  have htext : command.HasText := by
    rintro spec ⟨⟩
    exact ⟨_, rfl⟩
  obtain ⟨j, hj⟩ := JobCommand.hasText_iff.1 htext
  obtain ⟨j₀, hj₀⟩ := WorkerRequest.exists_toJson (.numbered 0) hj
  obtain ⟨j₁, hj₁⟩ := WorkerRequest.exists_toJson (.numbered 1) hj
  let u : PoolUnit RequestLine := ⟨0, command, .numbered 0, j₀.text⟩
  let v : PoolUnit RequestLine := ⟨1, command, .numbered 1, j₁.text⟩
  let waiting : Crew Unit JobTable := { ofPool p with
    pool := { p.pool with submitted := 2, queued := [u, v] }, issued := 2 }
  have hwaiting : Run program (ofPool p) [.submitted u, .submitted v] waiting := by
    have hfirst : Run program (ofPool p) _ _ := (Step.submitted (c := ofPool p) hj₀).run
    exact hfirst.step (Step.submitted (c := { ofPool p with
      pool := p.pool.submit command ⟨.numbered 0, j₀.text⟩, issued := 1 }) hj₁)
  let asking : Crew Unit JobTable := { waiting with
    pool := { waiting.pool with free := 0, queued := [], running := [u, v], admitted := [0, 1] }
    tasks := [⟨u, .ask ⟨0, some .empty, []⟩⟩, ⟨v, .ask ⟨1, some .empty, []⟩⟩]
    idle := [] }
  have hasking : Run program (ofPool p) [.submitted u, .submitted v, .started u, .started v]
      asking := by
    have hadmitted := (hwaiting.step (.start rfl rfl rfl)).step (.start rfl rfl rfl)
    exact (hadmitted.step (.act (i := 0) rfl)).step (.act (i := 1) rfl)
  let made := JobTable.delegate.invoke command .empty
  obtain ⟨reply, shared, hsecond⟩ := served_run (d := JobTable.delegate) (c := asking)
    (i := 1) .empty rfl rfl rfl rfl ⟨j₁, hj₁, rfl⟩ rfl
  let answered : Crew Unit JobTable := { asking with
    pool := asking.pool.finishAt 1 made.1
    tasks := [⟨u, .ask ⟨0, some .empty, []⟩⟩]
    idle := [⟨1, some made.2, []⟩]
    calls := [⟨1, 1, j₁.text, reply⟩]
    shared }
  obtain ⟨_, _, hfirst⟩ := served_run (d := JobTable.delegate) (c := answered)
    (i := 0) .empty rfl rfl rfl rfl ⟨j₀, hj₀, rfl⟩ rfl
  obtain ⟨last, hrun, htasks, hqueued, hholding, hcalls⟩ : ∃ last : Crew Unit JobTable,
      Run program (ofPool p) [.submitted u, .submitted v, .started u, .started v,
        .finished v (.success "c/r/e/n" (.job "c/r/e/n")),
        .finished u (.success "c/r/e/n" (.job "c/r/e/n"))] last ∧
      last.tasks = [] ∧ last.pool.queued = [] ∧ last.holding = 0 ∧
      last.calls.map (fun call => (call.number, call.ticket)) = [(1, 1), (0, 0)] :=
    ⟨_, (hasking.trans hsecond).trans hfirst, rfl, rfl, rfl, rfl⟩
  have hrest : AtRest program last := by
    constructor
    · simp [admit?, Pool.admit?, hqueued]
    · simp [act?, htasks]
    · simp [resolve?, htasks]
    · simp [release?, hholding]
  obtain ⟨-, shares, hsent, hstarted, -, -, -, -, hopen⟩ :=
    (processes_are_sequences JobTable.delegate .empty hbuild).2 _ last hrun
  have hshare : ∀ w ∈ [u, v], (w.ticket, w.ticket) ∈ last.calls.map (fun call =>
      (call.number, call.ticket)) → w ∈ shares w.ticket := by
    intro w hw hcall
    obtain ⟨call, hcall, heq⟩ := List.mem_map.1 hcall
    have hmine : call ∈ last.calls.filter fun call => call.number = w.ticket :=
      List.mem_filter.2 ⟨hcall, decide_eq_true (congrArg Prod.fst heq)⟩
    have hline := List.mem_map_of_mem (f := fun call => (call.ticket, call.line)) hmine
    rw [hsent] at hline
    obtain ⟨w', hw', hticket⟩ := List.mem_map.1 hline
    have hsame : w'.ticket = w.ticket := (congrArg Prod.fst hticket).trans (congrArg Prod.snd heq)
    have hstart : w' = u ∨ w' = v := by simpa using (hstarted _).2 w' hw'
    rw [List.mem_pair] at hw
    obtain rfl | rfl := hw <;> obtain rfl | rfl := hstart
    · exact hw'
    · cases hsame
    · cases hsame
    · exact hw'
  rw [hcalls] at hshare
  exact ⟨p, last, u, v, rfl, rfl, hbuild, hrun, hrest, shares, hshare u (by simp) (by simp [u]),
    hshare v (by simp) (by simp [v]), ((hopen (by simp)).2.2 hrest).2.2⟩

end JobGateway.Crew
