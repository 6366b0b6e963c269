import JobGateway.Proofs.Executor.Rest
import JobGateway.Proofs.Executor.Staff

/-! A pool of processes takes its turns by the steps of a crew. An admitted request has its process
at once, and a request that is answered is resolved and released before the next turn. So what holds
in every run of a crew holds for a pool that is used and left to itself. -/
namespace JobGateway

namespace Crew

open Pool (Event)

variable {ε π : Type} {program : WorkerProgram ε π} {c : Crew ε π} {q : ProcessPool ε π}
  {u : PoolUnit RequestLine}

/-- A crew between two turns: every task has its process, and no unit is ending. -/
structure Still (c : Crew ε π) : Prop where
  paired : c.Paired
  asking : ∀ t ∈ c.tasks, ∃ m, t.duty = .ask m
  holding : c.holding = 0

/-- The crew comes to be the pool, between two turns. -/
def Reaches (program : WorkerProgram ε π) (c : Crew ε π) (q : ProcessPool ε π) : Prop :=
  ∃ es c', Run program c es c' ∧ Still c' ∧ c'.toPool = q

theorem Reaches.turn {q' : ProcessPool ε π} (h : Reaches program c q)
    (hturn : ∀ c', Still c' → c'.toPool = q → Reaches program c' q') : Reaches program c q' := by
  obtain ⟨_, c', hrun, hstill, hpool⟩ := h
  obtain ⟨_, c'', hrun', hafter, hpool'⟩ := hturn c' hstill hpool
  exact ⟨_, c'', hrun.trans hrun', hafter, hpool'⟩

/-- The crew with another task. -/
def join (c : Crew ε π) (pool : Pool RequestLine) (t : Task π) : Crew ε π :=
  { c with pool, tasks := c.tasks ++ [t] }

theorem getElem?_join (pool : Pool RequestLine) (t : Task π) :
    (c.join pool t).tasks[c.tasks.length]? = some t := by
  rw [join, List.getElem?_append_right (Nat.le_refl _), Nat.sub_self]
  rfl

theorem assign_join (pool : Pool RequestLine) (duty duty' : Duty π) :
    (c.join pool ⟨u, duty⟩).assign c.tasks.length u duty' = c.join pool ⟨u, duty'⟩ := by
  rw [assign, join, join]
  simp

theorem Paired.join (h : c.Paired) {pool : Pool RequestLine}
    (hrunning : pool.running = c.pool.running ++ [u]) (duty : Duty π) :
    (c.join pool ⟨u, duty⟩).Paired := by
  rw [Paired, Crew.join, List.map_append, h, hrunning]
  rfl

theorem Still.join (h : Still c) {pool : Pool RequestLine}
    (hrunning : pool.running = c.pool.running ++ [u]) (m : Member π) :
    Still (c.join pool ⟨u, .ask m⟩) where
  paired := h.paired.join hrunning (.ask m)
  asking t ht := by
    obtain ht | ht := List.mem_append.1 ht
    · exact h.asking t ht
    · obtain rfl := List.mem_singleton.1 ht
      exact ⟨m, rfl⟩
  holding := h.holding

theorem toPool_join (pool : Pool RequestLine) (m : Member π) :
    (c.join pool ⟨u, .ask m⟩).toPool =
      { c.toPool with pool, engaged := c.toPool.engaged ++ [m.process] } := by
  rw [toPool, toPool, join, List.filterMap_append]
  rfl

/-- A task with its result is resolved, and gives its permit back. -/
theorem finish_run (program : WorkerProgram ε π) (hpaired : c.Paired) (hholding : c.holding = 0)
    {i : Nat} {result : JobResult} (task : c.tasks[i]? = some ⟨u, .resolve result⟩) :
    Run program c [.finished u result]
      { c with pool := c.pool.finishAt i result, tasks := c.tasks.eraseIdx i } := by
  obtain ⟨c₁, hresolve⟩ : ∃ c₁, c.resolve? i = some c₁ := by
    rw [resolve?, task]
    exact ⟨_, rfl⟩
  have hstep : Step program c _ c₁ := .resolve task hresolve
  obtain rfl := resolve?_eq task hresolve
  refine hstep.run.trans (Step.release ?_).run
  rw [release?, if_neg (Nat.succ_ne_zero _), Pool.finishAt_of_running (hpaired.running task)]
  simp only [hholding]

theorem act?_eq_some {i : Nat} {duty : Duty π} {c' : Crew ε π} (task : c.tasks[i]? = some ⟨u, duty⟩)
    (h : Act program c i u duty c') : c.act? program i = some c' := by
  rw [act?, task]
  cases h with
  | take hidle => simp only [look, hidle]
  | miss hidle => simp only [look, hidle]
  | start hstart => simp only [start, hstart]
  | fail hstart => simp only [start, hstart]
  | ask m => rfl
  | keep hclosed => simp [leave, hclosed, Except.toBool]
  | kill hclosed => simp [leave, hclosed, Except.toBool]
  | discard => simp [leave, Except.toBool]

/-- A task goes on. -/
theorem Act.run {i : Nat} {duty : Duty π} {c' : Crew ε π} (h : Act program c i u duty c')
    (task : c.tasks[i]? = some ⟨u, duty⟩) : Run program c [] c' :=
  (Step.act (act?_eq_some task h)).run

theorem eraseIdx_concat {α : Type} {as : List α} {a : α} {n : Nat} (h : n = as.length) :
    (as ++ [a]).eraseIdx n = as := by
  subst h
  rw [List.eraseIdx_append_of_length_le (Nat.le_refl _), Nat.sub_self]
  exact List.append_nil as

/-- The task of a request that was just admitted ends without a process. -/
theorem Still.finish_join (program : WorkerProgram ε π) (h : Still c) {pool : Pool RequestLine}
    (hrunning : pool.running = c.pool.running ++ [u]) (result : JobResult) :
    Reaches program (c.join pool ⟨u, .resolve result⟩)
      { c.toPool with pool := pool.finishAt c.tasks.length result } := by
  have hpaired := h.paired.join hrunning (.resolve result)
  have hfinish := finish_run program hpaired h.holding
    (getElem?_join pool ⟨u, .resolve result⟩)
  have htasks : (c.join pool ⟨u, .resolve result⟩).tasks.eraseIdx c.tasks.length = c.tasks :=
    eraseIdx_concat rfl
  rw [htasks] at hfinish
  refine ⟨_, _, hfinish, ⟨?_, h.asking, h.holding⟩, rfl⟩
  have hlast : pool.running[c.tasks.length]? = some u :=
    hpaired.running (getElem?_join pool ⟨u, .resolve result⟩)
  change c.tasks.map Task.unit = (pool.finishAt c.tasks.length result).running
  rw [Pool.finishAt_of_running hlast, h.paired]
  dsimp only
  rw [hrunning, eraseIdx_concat h.paired.length_eq]

/-- A request that was just admitted gets its process, or it fails. -/
theorem Still.engage (program : WorkerProgram ε π) (h : Still c) {pool : Pool RequestLine}
    (hrunning : pool.running = c.pool.running ++ [u]) :
    Reaches program (c.join pool ⟨u, .look⟩)
      (ProcessPool.engage program { c.toPool with pool }) := by
  have hlook := getElem?_join (c := c) pool ⟨u, .look⟩
  cases hidle : c.idle with
  | cons m idle =>
    have htake := (Act.take hidle : Act program (c.join pool ⟨u, .look⟩) _ _ _ _).run hlook
    have hstill : Still { c with idle } := ⟨h.paired, h.asking, h.holding⟩
    have hjoin := assign_join (u := u) (c := { c with idle }) pool .look (.ask m)
    refine ⟨_, _, htake, hjoin ▸ hstill.join hrunning m, (congrArg toPool hjoin).trans ?_⟩
    rw [toPool_join, ProcessPool.engage]
    simp only [toPool, hidle, List.map_cons]
  | nil =>
    have hmiss := (Act.miss hidle : Act program (c.join pool ⟨u, .look⟩) _ _ _ _).run hlook
    rw [assign_join] at hmiss
    have hstart := getElem?_join (c := c) pool ⟨u, .start⟩
    cases hout : WorkerProcess.start program c.shared with
    | mk out shared =>
      cases out with
      | ok process =>
        have hask := (Act.start (c := c.join pool ⟨u, .start⟩) hout).run hstart
        have hstill : Still { c with started := c.started + 1, shared } :=
          ⟨h.paired, h.asking, h.holding⟩
        have hjoin := assign_join (u := u) (c := { c with started := c.started + 1, shared }) pool
          .start (.ask ⟨c.started, process⟩)
        refine ⟨_, _, hmiss.trans hask, hjoin ▸ hstill.join hrunning _,
          (congrArg toPool hjoin).trans ?_⟩
        rw [toPool_join, ProcessPool.engage]
        simp only [toPool, hidle, List.map_nil, hout]
      | error fault =>
        have hfail := (Act.fail (c := c.join pool ⟨u, .start⟩) hout).run hstart
        have hstill : Still { c with shared } := ⟨h.paired, h.asking, h.holding⟩
        obtain ⟨es, c', hfinish, hafter, hpool⟩ := hstill.finish_join program hrunning
          (u.command.fail (.worker (PoolFault.spawnMessage program.name fault)))
        rw [← assign_join pool .start] at hfinish
        refine ⟨_, c', (hmiss.trans hfail).trans hfinish, hafter, hpool.trans ?_⟩
        have hlast : pool.running[c.tasks.length]? = some u := by
          rw [hrunning, h.paired.length_eq, List.getElem?_append_right (Nat.le_refl _), Nat.sub_self]
          rfl
        have hnumber : pool.running.length - 1 = c.tasks.length := by
          rw [hrunning, List.length_append, h.paired.length_eq]
          rfl
        rw [ProcessPool.engage]
        simp only [toPool, hidle, List.map_nil, hout, hnumber, hlast]

/-- The pool of a crew lets a request in. -/
theorem Still.admit (h : Still c) (hnext : c.toPool.admit? program = some q) :
    Reaches program c q := by
  obtain ⟨pool, hpool, rfl⟩ := Option.map_eq_some_iff.1 hnext
  replace hpool : c.pool.admit? = some pool := hpool
  obtain ⟨v, hhead⟩ : ∃ v, c.pool.queued.head? = some v := by
    cases hqueued : c.pool.queued with
    | nil =>
      rw [Pool.admit?, hqueued] at hpool
      cases hpool
    | cons v queued => exact ⟨v, rfl⟩
  obtain ⟨c', htaken⟩ : ∃ c', c.admit? = some c' := by
    rw [admit?, hpool]
    exact ⟨_, rfl⟩
  cases hclosed : c.pool.isClosed with
  | true =>
    have hstep : Step program c _ c' := .refuse hhead hclosed htaken
    obtain ⟨_, hpool', hrunning, -, -, rfl⟩ := admit?_of_closed h.paired hhead hclosed htaken
    rw [hpool] at hpool'
    cases hpool'
    exact ⟨_, _, hstep.run, ⟨h.paired.trans hrunning.symm, h.asking, h.holding⟩,
      (if_pos (congrArg List.length hrunning)).symm⟩
  | false =>
    have hstep : Step program c _ c' := .start hhead hclosed htaken
    obtain ⟨_, hpool', hrunning, -, rfl⟩ := admit?_of_open h.paired hhead hclosed htaken
    rw [hpool] at hpool'
    cases hpool'
    obtain ⟨es, c', hrun, hafter, hresult⟩ := h.engage program hrunning
    have hne : pool.running.length ≠ c.pool.running.length := by
      rw [hrunning, List.length_append, List.length_singleton]
      exact Nat.succ_ne_self _
    exact ⟨_, c', hstep.run.trans hrun, hafter, hresult.trans (if_neg hne).symm⟩

theorem resolve_run (program : WorkerProgram ε π) (hpaired : c.Paired) (hholding : c.holding = 0)
    {i : Nat} {duty : Duty π} (task : c.tasks[i]? = some ⟨u, duty⟩) (result : JobResult) :
    Run program (c.assign i u (.resolve result)) [.finished u result]
      { c with pool := c.pool.finishAt i result, tasks := c.tasks.eraseIdx i } := by
  have htask : (c.assign i u (.resolve result)).tasks[i]? = some ⟨u, .resolve result⟩ :=
    List.getElem?_set_self (List.getElem?_eq_some_iff.1 task).1
  have hassigned : (c.assign i u (.resolve result)).Paired := by
    rw [Paired, assign, map_unit_set task, hpaired]
  have hrun := finish_run program hassigned hholding htask
  have herase : (c.assign i u (.resolve result)).tasks.eraseIdx i = c.tasks.eraseIdx i :=
    List.eraseIdx_set_eq ..
  rw [herase] at hrun
  exact hrun

/-- The result that an answer gives to a unit. -/
def outcome (u : PoolUnit RequestLine) : Except CommandError JobResult → JobResult
  | .ok result => result
  | .error e => u.command.fail e

theorem leave_eq (c : Crew ε π) (i : Nat) (u : PoolUnit RequestLine) (m : Member π)
    (answer : Except CommandError JobResult) :
    ∃ killed, c.leave i u m answer = Crew.assign { c with
      idle := if answer.toBool && !c.pool.isClosed then m :: c.idle else c.idle
      killed } i u (.resolve (outcome u answer)) := by
  cases answer with
  | error e => exact ⟨_, rfl⟩
  | ok result =>
    cases hclosed : c.pool.isClosed with
    | false => exact ⟨c.killed, by simp only [leave, hclosed]; rfl⟩
    | true => exact ⟨c.killed ++ [m.number], by simp only [leave, hclosed]; rfl⟩

/-- A task whose process has answered leaves it, is resolved, and gives its permit back. -/
theorem leave_run (program : WorkerProgram ε π) (hpaired : c.Paired) (hholding : c.holding = 0)
    {i : Nat} {m : Member π} {answer : Except CommandError JobResult}
    (task : c.tasks[i]? = some ⟨u, .leave m answer⟩) :
    ∃ killed, Run program c [.finished u (outcome u answer)] { c with
      pool := c.pool.finishAt i (outcome u answer)
      tasks := c.tasks.eraseIdx i
      idle := if answer.toBool && !c.pool.isClosed then m :: c.idle else c.idle
      killed } := by
  have hleave : c.act? program i = some (c.leave i u m answer) := by rw [act?, task]
  have hrun := (Step.act hleave).run
  obtain ⟨killed, heq⟩ := c.leave_eq i u m answer
  rw [heq] at hrun
  have hend := resolve_run program (c := { c with
    idle := if answer.toBool && !c.pool.isClosed then m :: c.idle else c.idle
    killed }) hpaired hholding task (outcome u answer)
  exact ⟨killed, hrun.trans hend⟩

section Answer

variable {m : Member π} {tasks : List (Task π)}

theorem running_eq (hpaired : c.Paired) (htasks : c.tasks = ⟨u, .ask m⟩ :: tasks) :
    c.pool.running = u :: tasks.map Task.unit := by
  rw [← hpaired, htasks]
  rfl

/-- What the pool of a crew makes of the answer to its longest running request. -/
theorem finish?_toPool (program : WorkerProgram ε π) (hpaired : c.Paired)
    (htasks : c.tasks = ⟨u, .ask m⟩ :: tasks) :
    let run := m.process.call program u.work.id u.work.line c.shared
    c.toPool.finish? program = some { c.toPool with
      pool := c.pool.finishAt 0 (outcome u run.1.1)
      idle := if run.1.1.toBool && !c.pool.isClosed then run.1.2 :: c.toPool.idle
        else c.toPool.idle
      engaged := tasks.filterMap fun t => t.duty.member?.map Member.process
      shared := run.2 } := by
  have hrunning : c.toPool.pool.running = u :: tasks.map Task.unit := running_eq hpaired htasks
  have hengaged : c.toPool.engaged =
      m.process :: tasks.filterMap fun t => t.duty.member?.map Member.process := by
    rw [toPool, htasks]
    rfl
  rw [ProcessPool.finish?, hrunning, hengaged]
  rfl

/-- The first task sends its line, leaves its process, is resolved and gives its permit back. -/
theorem answer_run (program : WorkerProgram ε π) (hpaired : c.Paired) (hholding : c.holding = 0)
    (htasks : c.tasks = ⟨u, .ask m⟩ :: tasks) :
    let run := m.process.call program u.work.id u.work.line c.shared
    ∃ killed calls, Run program c [.finished u (outcome u run.1.1)] { c with
      pool := c.pool.finishAt 0 (outcome u run.1.1)
      tasks, killed, calls
      idle := if run.1.1.toBool && !c.pool.isClosed then ⟨m.number, run.1.2⟩ :: c.idle else c.idle
      shared := run.2 } := by
  intro run
  have hask : Run program c [] (c.ask program 0 u m) := (Act.ask m).run (by rw [htasks]; rfl)
  obtain ⟨calls, hcalls⟩ : ∃ calls, c.ask program 0 u m = { c with
      tasks := ⟨u, .leave ⟨m.number, run.1.2⟩ run.1.1⟩ :: tasks, calls, shared := run.2 } := by
    rw [ask_eq, assign]
    dsimp only
    rw [htasks]
    exact ⟨_, rfl⟩
  rw [hcalls] at hask
  obtain ⟨killed, hleave⟩ := leave_run program (i := 0)
    (c := { c with
      tasks := ⟨u, .leave ⟨m.number, run.1.2⟩ run.1.1⟩ :: tasks, calls, shared := run.2 })
    (running_eq hpaired htasks).symm hholding rfl
  exact ⟨killed, calls, hask.trans hleave⟩

end Answer

/-- The pool of a crew lets its longest running request be answered. -/
theorem Still.answer (h : Still c) (hfinish : c.toPool.finish? program = some q) :
    Reaches program c q := by
  cases htasks : c.tasks with
  | nil =>
    have hrunning : c.toPool.pool.running = [] := by
      change c.pool.running = []
      rw [← h.paired, htasks]
      rfl
    rw [ProcessPool.finish?, hrunning] at hfinish
    cases hfinish
  | cons t tasks =>
    obtain ⟨m, hduty⟩ := h.asking t (by rw [htasks]; exact List.mem_cons_self)
    obtain ⟨u, duty⟩ := t
    obtain rfl : duty = .ask m := hduty
    obtain ⟨killed, calls, hrun⟩ := answer_run program h.paired h.holding htasks
    have hpool := finish?_toPool program h.paired htasks
    rw [hfinish] at hpool
    obtain rfl := Option.some.inj hpool
    generalize m.process.call program u.work.id u.work.line c.shared = run at hrun ⊢
    refine ⟨_, _, hrun, ⟨?_, fun t ht => h.asking t ?_, h.holding⟩, ?_⟩
    · have hrunning := running_eq h.paired htasks
      have hget : c.pool.running[0]? = some u := by rw [hrunning]; rfl
      change tasks.map Task.unit = (c.pool.finishAt 0 (outcome u run.1.1)).running
      rw [Pool.finishAt_of_running hget]
      dsimp only
      rw [hrunning]
      rfl
    · rw [htasks]
      exact List.mem_cons_of_mem _ ht
    · simp only [toPool, apply_ite (List.map Member.process), List.map_cons]

/-- A turn of the pool. -/
theorem Still.next (h : Still c) (hnext : c.toPool.next? program = some q) :
    Reaches program c q := by
  obtain hstart | ⟨-, hfinish⟩ := Option.or_eq_some_iff.1 hnext
  · exact h.admit hstart
  · exact h.answer hfinish

/-- A crew comes to rest as its pool does. -/
theorem Still.rest (h : Still c) : Reaches program c (c.toPool.rest program) := by
  generalize hp : c.toPool = p
  induction p using ProcessPool.rest.induct program generalizing c with
  | case1 p hnone =>
    rw [ProcessPool.rest_eq, hnone, Option.elim_none]
    exact ⟨[], c, .start, h, hp⟩
  | case2 p q hnext _ ih =>
    rw [ProcessPool.rest_eq, hnext, Option.elim_some]
    exact (h.next (hp ▸ hnext)).turn fun c' hstill hpool => ih hstill hpool

/-- A crew is sent a command as its pool is. -/
theorem Still.dispatch (h : Still c) (command : JobCommand) :
    Reaches program c (ProcessPool.dispatch command c.toPool).2 := by
  cases hjson : command.toJson with
  | error fault =>
    have hstep : Step program c [] (c.dispatch command).2 := .reject hjson
    rw [ProcessPool.dispatch_error hjson]
    rw [dispatch_error hjson] at hstep
    exact ⟨_, _, hstep.run, ⟨h.paired, h.asking, h.holding⟩, rfl⟩
  | ok j =>
    obtain ⟨request, hrequest⟩ := WorkerRequest.exists_toJson (.numbered c.issued) hjson
    have hstep : Step program c _ (c.dispatch command).2 := .submit hrequest
    rw [ProcessPool.dispatch_ok (p := c.toPool) hrequest]
    rw [dispatch_ok hrequest] at hstep
    refine ⟨_, _, hstep.run, ⟨?_, h.asking, h.holding⟩, rfl⟩
    rw [Paired, h.paired, Pool.running_submit]

/-- A crew is closed and drained as its pool is closed. -/
theorem Still.close (h : Still c) : Reaches program c c.toPool.close := by
  have hdrain : Step program c.close [] { c.close with
      idle := [], killed := c.killed ++ c.idle.map Member.number } :=
    .drain rfl
  exact ⟨_, _, (Step.close c).run.trans hdrain.run, ⟨h.paired, h.asking, h.holding⟩, rfl⟩

end Crew

/-- A state of an executor, when commands were dispatched to it, and it was left to itself and
closed, any number of times in any order. -/
inductive Executor.Used {σ : Type} (e : Executor σ) (start : σ) : σ → Prop
  | start : Used e start start
  | dispatch {s : σ} (used : Used e start s) (command : JobCommand) :
    Used e start (e.dispatch command s).2
  | rest {s : σ} (used : Used e start s) : Used e start (e.rest s)
  | close {s : σ} (used : Used e start s) : Used e start (e.close s)

namespace ProcessPool

open Crew (Still Reaches)

variable {ε π : Type} {program : WorkerProgram ε π} {capabilities : Capabilities} {capacity : Nat}
  {hasRuntime : Bool} {world : ε} {p q : ProcessPool ε π}

/-- A pool that was built and used is what a crew came to be. -/
theorem reaches_of_used (hbuild : build program capacity hasRuntime world = .ok p)
    (h : (executor program capabilities).Used p q) : Reaches program (.ofPool p) q := by
  induction h with
  | start =>
    obtain ⟨-, idle, shared, -, rfl⟩ := build_eq hbuild
    refine ⟨_, _, .start, ⟨rfl, fun t ht => absurd ht List.not_mem_nil, rfl⟩, ?_⟩
    have hidle : (idle.mapIdx Member.mk).map Member.process = idle := by
      rw [List.mapIdx_eq_zipIdx_map, List.map_map]
      exact List.zipIdx_map_fst 0 idle
    rw [Crew.toPool, Crew.ofPool]
    dsimp only
    rw [hidle]
    rfl
  | dispatch _ command ih => exact ih.turn fun c hstill hpool => hpool ▸ hstill.dispatch command
  | rest _ ih => exact ih.turn fun c hstill hpool => hpool ▸ hstill.rest
  | close _ ih => exact ih.turn fun c hstill hpool => hpool ▸ hstill.close

/-- A pool that was built and used has at most one process for each permit. -/
theorem length_processes_le (hbuild : build program capacity hasRuntime world = .ok p)
    (h : (executor program capabilities).Used p q) :
    q.idle.length + q.engaged.length ≤ capacity := by
  obtain ⟨es, c, hrun, -, rfl⟩ := reaches_of_used hbuild h
  have hp := built hbuild
  have hstaffed := hrun.staffed hp
  obtain ⟨hpaired, haccounted⟩ := hrun.accounted hp
  have hlive := hstaffed.live_perm.length_eq
  rw [List.length_map, Crew.members, List.length_append] at hlive
  have hengaged : c.toPool.engaged = (Crew.serving c.tasks).map Member.process :=
    List.map_filterMap.symm
  rw [hengaged, List.length_map, Crew.toPool, List.length_map, hlive]
  exact (Nat.le_add_right _ _).trans (hstaffed.count_le hpaired haccounted)

end ProcessPool

end JobGateway
