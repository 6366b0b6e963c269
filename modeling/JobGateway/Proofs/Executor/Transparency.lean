import JobGateway.Delegate.JobTable
import JobGateway.Proofs.Executor.Staged

/-! The strategies agree on commands that are run one after the other: whichever way a command is
brought to the delegate, the delegate receives the same calls and the results are the same. -/
namespace JobGateway

variable {σ π ε : Type}

/-- The failure of a command with a specification that is no text. -/
theorem fail_notText (c : JobCommand) (fault : Utf8.Fault) :
    c.fail (.marshal (JobSpec.notText fault)) = ⟨c.jobKey, .empty c.operation,
      some ["cannot marshal across worker boundary: job spec is not valid UTF-8 (" ++
        fault.message ++ ")"]⟩ := by
  have hwords : "cannot marshal across worker boundary: job spec is not valid UTF-8 (" =
      "cannot marshal across worker boundary: " ++ "job spec is not valid UTF-8 (" := by
    decide +kernel
  rw [hwords, String.append_assoc, String.append_assoc]
  rfl

namespace Delegate

theorem invokeAcross_of_hasText (d : Delegate σ) {c : JobCommand} (h : c.HasText) :
    d.invokeAcross c = d.invoke c := by
  obtain ⟨j, hj⟩ := JobCommand.hasText_iff.1 h
  rw [invokeAcross, hj]

theorem invokeAcross_of_error (d : Delegate σ) {c : JobCommand} {fault : Utf8.Fault}
    (h : c.toJson = .error fault) (s : σ) :
    d.invokeAcross c s = (c.fail (.marshal (JobSpec.notText fault)), s) := by
  rw [invokeAcross, h]
  rfl

/-- Across a process boundary the commands with text have the results that they have without the
others, and the others fail. -/
theorem mapM_invokeAcross (d : Delegate σ) (commands : List JobCommand) (s : σ) :
    let across := commands.mapM d.invokeAcross s
    let run := (commands.filter fun c => c.HasText).mapM d.invoke s
    across.2 = run.2 ∧ across.1.length = commands.length ∧
      ((commands.zip across.1).filter fun x => x.1.HasText).map (·.2) = run.1 ∧
      ∀ x ∈ commands.zip across.1, ∀ fault, x.1.toJson = .error fault →
        x.2 = x.1.fail (.marshal (JobSpec.notText fault)) := by
  induction commands generalizing s with
  | nil =>
    refine ⟨rfl, rfl, rfl, ?_⟩
    rintro x ⟨⟩
  | cons c commands ih =>
    cases hc : c.toJson with
    | ok j =>
      have htext := JobCommand.hasText_iff.2 ⟨j, hc⟩
      obtain ⟨hstate, hlength, hresults, hfaults⟩ := ih (d.invoke c s).2
      rw [mapM_cons_state, invokeAcross_of_hasText d htext,
        List.filter_cons_of_pos (by simpa using htext), mapM_cons_state]
      refine ⟨hstate, ?_, ?_, ?_⟩
      · rw [List.length_cons, hlength, List.length_cons]
      · rw [List.zip_cons_cons, List.filter_cons_of_pos (by simpa using htext), List.map_cons,
          hresults]
      · rw [List.zip_cons_cons, List.forall_mem_cons]
        refine ⟨?_, hfaults⟩
        intro fault hfault
        rw [hc] at hfault
        cases hfault
    | error fault =>
      -- The filter drops the command, and its failure leaves the delegate as it was.
      have hnot : ¬ c.HasText := by
        rw [JobCommand.hasText_iff, hc]
        rintro ⟨j, ⟨⟩⟩
      obtain ⟨hstate, hlength, hresults, hfaults⟩ := ih s
      rw [mapM_cons_state, invokeAcross_of_error d hc, List.filter_cons_of_neg (by simpa using hnot)]
      refine ⟨hstate, ?_, ?_, ?_⟩
      · rw [List.length_cons, hlength, List.length_cons]
      · rw [List.zip_cons_cons, List.filter_cons_of_neg (by simpa using hnot), hresults]
      · rw [List.zip_cons_cons, List.forall_mem_cons]
        refine ⟨?_, hfaults⟩
        intro fault' hfault
        rw [hc] at hfault
        cases hfault
        rfl

end Delegate

namespace PoolFault

theorem checkStart_ok {capacity : Nat} (h : 0 < capacity) : checkStart capacity true = .ok () := by
  rw [checkStart, if_neg (Nat.ne_of_gt h)]
  rfl

theorem checkPermits_ok {capacity : Nat} (h : capacity ≤ maxPermits) :
    checkPermits capacity = .ok () :=
  if_pos h

end PoolFault

namespace ThreadPool

theorem build_ok {capacity : Nat} (hcapacity : 0 < capacity)
    (hpermits : capacity ≤ PoolFault.maxPermits) (s : σ) :
    build capacity true s = .ok (new capacity s) := by
  rw [build, PoolFault.checkStart_ok hcapacity, PoolFault.checkPermits_ok hpermits]
  rfl

end ThreadPool

namespace ProcessPool

theorem startAll_serving (d : Delegate (π × ε)) (fresh : π) (capacity : Nat)
    (started : List (WorkerProcess π)) (world : ε) :
    startAll (.serving d fresh) capacity started world =
      (.ok (List.replicate capacity ⟨some fresh, []⟩ ++ started), world) := by
  induction capacity generalizing started with
  | zero => rfl
  | succ n ih =>
    change startAll (.serving d fresh) n (⟨some fresh, []⟩ :: started) world = _
    rw [ih, List.replicate_succ', List.append_assoc, List.singleton_append]

theorem build_serving (d : Delegate (π × ε)) (fresh : π) {capacity : Nat} (hcapacity : 0 < capacity)
    (hpermits : capacity ≤ PoolFault.maxPermits) (world : ε) :
    build (.serving d fresh) capacity true world =
      .ok ⟨.new name capacity, 0, List.replicate capacity ⟨some fresh, []⟩, [], capacity, world⟩ := by
  rw [build, PoolFault.checkStart_ok hcapacity, startAll_serving, List.append_nil,
    PoolFault.checkPermits_ok hpermits]
  rfl

theorem ready_start (fresh : π) {capacity : Nat} (hcapacity : 0 < capacity) (world : ε) :
    (⟨.new name capacity, 0, List.replicate capacity ⟨some fresh, []⟩, [], capacity, world⟩ :
      ProcessPool ε π).Ready (List.replicate (capacity - 1) ⟨some fresh, []⟩) fresh := by
  obtain ⟨n, rfl⟩ := Nat.exists_eq_succ_of_ne_zero (Nat.ne_of_gt hcapacity)
  exact ⟨Pool.idle_new name hcapacity, rfl, rfl, by simp⟩

/-- A sync run of the commands with text, without the others. -/
def textRun (d : Delegate σ) (commands : List JobCommand) : StateM σ (List JobResult) :=
  (Executor.sync d).runAll (commands.filter fun c => c.HasText)

/-- What commands have for results, and where they leave a pool, when the pool acts like one fresh
delegate: only the commands with text reach it, and they all reach the same process. -/
structure ActsAsOne (d : Delegate (π × ε)) (fresh : π) (world : ε) (capacity : Nat)
    (commands : List JobCommand) (results : List JobResult) (last : ProcessPool ε π) : Prop where
  length : results.length = commands.length
  texts : ((commands.zip results).filter fun x => x.1.HasText).map (·.2) =
    (textRun d commands (fresh, world)).1
  others : ∀ c result, (c, result) ∈ commands.zip results → ∀ spec, c.spec? = some spec →
    ∀ fault, Utf8.decode spec.bytes = .error fault → result = ⟨c.jobKey, .empty c.operation,
      some ["cannot marshal across worker boundary: job spec is not valid UTF-8 (" ++
        fault.message ++ ")"]⟩
  shared : last.shared = (textRun d commands (fresh, world)).2.2
  started : last.started = capacity
  idle : last.idle = ⟨some (textRun d commands (fresh, world)).2.1, []⟩ ::
    List.replicate (capacity - 1) ⟨some fresh, []⟩

theorem actsAsOne (d : Delegate (π × ε)) (fresh : π) {capacity : Nat} (hcapacity : 0 < capacity)
    (world : ε) (capabilities : Capabilities) (commands : List JobCommand) :
    let run := (executor (.serving d fresh) capabilities).runAll commands
      ⟨.new name capacity, 0, List.replicate capacity ⟨some fresh, []⟩, [], capacity, world⟩
    ActsAsOne d fresh world capacity commands run.1 run.2 := by
  intro run
  obtain ⟨hresults, hready, hshared⟩ := (executor_simulates d fresh capabilities _).runAll commands
    (s := (fresh, world)) ⟨ready_start fresh hcapacity world, rfl⟩
  obtain ⟨hstate, hlength, htexts, hfaults⟩ := d.mapM_invokeAcross commands (fresh, world)
  have hstarted : run.2.started = _ := hready.started
  have hidle := hready.idle
  rw [← hresults] at hlength htexts hfaults
  rw [hstate] at hshared hidle
  rw [List.length_replicate] at hstarted
  refine ⟨hlength, htexts, ?_, hshared, by omega, hidle⟩
  intro c result hmem spec hspec fault hdecode
  have htext : spec.text = .error fault := Json.map_eq_error_iff.2 hdecode
  rw [← fail_notText]
  exact hfaults (c, result) hmem fault (JobCommand.toJson_eq_error_iff.2 ⟨spec, hspec, htext⟩)

end ProcessPool

/-- The strategies on commands that are run one after the other. A sync executor, a callback executor
and a pool of any number of threads give the same results, and hand their delegate the same calls in
the same order, one for each command. A pool of any number of processes acts like one delegate, in
whatever order its requests end, and never leaves a promise unresolved. What it is told by a process
is what a worker writes that is sent the commands with text. -/
theorem strategies_agree {capacity : Nat} (hcapacity : 0 < capacity)
    (hpermits : capacity ≤ PoolFault.maxPermits) (commands : List JobCommand) :
    (∀ {σ : Type} (d : Delegate σ) (s : σ),
      let run := (Executor.sync d).runAll commands s
      let recorded := (run.1, run.2, commands.map JobCommand.received)
      (Executor.sync d.recorded).runAll commands (s, []) = recorded ∧
      (Executor.callback d.recorded).runAll commands (s, []) = recorded ∧
      ∃ pool, ThreadPool.build capacity true (s, []) = .ok pool ∧
        let threads := (ThreadPool.executor d.recorded).runAll commands pool
        threads.1 = recorded.1 ∧ threads.2.shared = recorded.2) ∧
    ∀ {π ε : Type} (d : Delegate (π × ε)) (fresh : π) (world : ε) (capabilities : Capabilities),
      let program := WorkerProgram.serving d fresh
      (∃ pool, ProcessPool.build program capacity true world = .ok pool ∧
        let run := (ProcessPool.executor program capabilities).runAll commands pool
        ProcessPool.ActsAsOne d fresh world capacity commands run.1 run.2 ∧
        (∀ runs last, StagedPool.Run program (.ofPool pool) runs last → runs.map (·.1) = commands →
          runs.map (·.2) = run.1 ∧ last.flush = run.2) ∧
        ∀ runs p, StagedPool.Run program (.ofPool pool) runs p →
          ∀ c q, StagedPool.Steps program (p.dispatch c).2 q →
            ∃ r, StagedPool.Steps program q r ∧
              ∃ result, r.promiseOf (p.dispatch c).1 = .resolved result) ∧
      ∀ (requests : List WorkerRequest) (messages : List Json),
        requests.map (·.command) = commands.filter (fun c => c.HasText) →
        List.Forall₂ (fun r j => r.toJson = .ok j) requests messages →
        let run := ProcessPool.textRun d commands (fresh, world)
        ∃ out, Worker.serve d none (Utf8.encode (Worker.page (messages.map Json.render)))
            (fresh, world) = ((out, .inputEnded), run.2) ∧
          out.text = Worker.page (List.zipWith
            (fun r result => (WorkerReply.done r.id result).toJson.render) requests run.1) := by
  constructor
  · intro σ d s run recorded
    have hrecorded := d.mapM_recorded_invoke commands s []
    rw [List.nil_append] at hrecorded
    obtain ⟨hresults, -, hshared⟩ := (ThreadPool.executor_simulates d.recorded).runAll commands
      (s := (s, [])) (t := .new capacity (s, [])) ⟨Pool.idle_new _ hcapacity, rfl⟩
    rw [hrecorded] at hresults hshared
    exact ⟨hrecorded, hrecorded, _, ThreadPool.build_ok hcapacity hpermits _, hresults, hshared⟩
  · intro π ε d fresh world capabilities program
    refine ⟨⟨_, ProcessPool.build_serving d fresh hcapacity hpermits world,
      ProcessPool.actsAsOne d fresh hcapacity world capabilities commands, ?_, ?_⟩, ?_⟩
    · rintro runs last hruns rfl
      obtain ⟨hall, -⟩ := hruns.runAll (StagedPool.quiet_ofPool (Pool.idle_new _ hcapacity) rfl)
        capabilities
      rw [StagedPool.flush_ofPool] at hall
      rw [hall]
      exact ⟨rfl, rfl⟩
    · intro runs p hruns c q hsteps
      obtain ⟨-, hquiet⟩ := hruns.runAll (StagedPool.quiet_ofPool (Pool.idle_new _ hcapacity) rfl)
        capabilities
      exact hquiet.resolves hsteps
    · intro requests messages hrequests hmessages run
      have hserve := Worker.serve_requests (d := d) hmessages (fresh, world)
      rw [hrequests] at hserve
      exact hserve

/-- Two processes that each have a table of jobs, and three commands, one of them without text. -/
theorem two_tables_act_as_one :
    let d : Delegate (JobTable × Unit) := JobTable.delegate.onFirst
    let commands := [.createJob (.full "c" "r" "e" "n") ⟨[120]⟩,
      .createJob (.full "c" "r" "e" "m") ⟨[255]⟩, .listJobs (.role "c" "r")]
    (0 < 2 ∧ 2 ≤ PoolFault.maxPermits) ∧
    (∃ pool, ProcessPool.build (.serving d .empty) 2 true () = .ok pool ∧
      let run := (ProcessPool.executor (.serving d .empty) .all).runAll commands pool
      ProcessPool.ActsAsOne d .empty () 2 commands run.1 run.2) ∧
    (ProcessPool.textRun d commands (.empty, ())).1 =
      [⟨"c/r/e/n", .job "c/r/e/n", none⟩, ⟨"c/r", .jobs ["c/r/e/n"], none⟩] := by
  intro d commands
  obtain ⟨pool, hbuild, hacts, -⟩ :=
    ((strategies_agree (by decide : 0 < 2) (by decide) commands).2 d .empty () .all).1
  exact ⟨by decide, ⟨pool, hbuild, hacts⟩, by decide +kernel⟩

end JobGateway
