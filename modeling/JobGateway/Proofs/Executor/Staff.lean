import JobGateway.Proofs.Executor.Crew
import JobGateway.Worker.Program

/-! Where the processes of a pool are. Whatever the order of the steps, each process that was started
is idle, has one request, or was killed, there are never more than the pool has permits, and none is
left when a closed pool was drained and its last request has ended. -/
namespace JobGateway

variable {ε π : Type}

/-- Whether a task is about to start a process. -/
def Task.isStart (t : Task π) : Bool :=
  match t.duty with
  | .start => true
  | _ => false

/-- Whether a task has no process and does not start one. -/
def Task.isVacant (t : Task π) : Bool :=
  match t.duty with
  | .look => true
  | .resolve _ => true
  | _ => false

namespace Crew

variable {program : WorkerProgram ε π} {c c' : Crew ε π} {i : Nat} {u : PoolUnit RequestLine}
  {duty duty' : Duty π} {tasks rest : List (Task π)} {es es' : List (Pool.Event RequestLine)}
  {capacity : Nat}

/-- The processes with a request. -/
def serving (tasks : List (Task π)) : List (Member π) := tasks.filterMap fun t => t.duty.member?

/-- The processes of a crew: the idle ones, and those with a request. -/
def members (c : Crew ε π) : List (Member π) := c.idle ++ serving c.tasks

/-- The numbers of the processes that were started and not killed. -/
def live (c : Crew ε π) : List Nat := (List.range c.started).filter (· ∉ c.killed)

theorem serving_cons (u : PoolUnit RequestLine) (duty : Duty π) (tasks : List (Task π)) :
    serving (⟨u, duty⟩ :: tasks) = duty.member?.toList ++ serving tasks := by
  rw [serving, List.filterMap_cons]
  cases duty.member? <;> rfl

theorem mem_serving {m : Member π} :
    m ∈ serving tasks ↔ ∃ t ∈ tasks, t.duty.member? = some m := by
  rw [serving, List.mem_filterMap]

/-- Every task starts a process, or has one, or neither. -/
theorem length_tasks (tasks : List (Task π)) :
    tasks.countP Task.isStart + (serving tasks).length + tasks.countP Task.isVacant =
      tasks.length := by
  induction tasks with
  | nil => rfl
  | cons t tasks ih =>
    obtain ⟨u, duty⟩ := t
    rw [List.countP_cons, List.countP_cons, List.length_cons, serving_cons, List.length_append]
    cases duty <;> simp [Task.isStart, Task.isVacant, Duty.member?] <;> omega

/-- Each process that was started is idle, has one request, or was killed; and there is room for the
idle ones besides those that may still be given back. -/
structure Staffed (c : Crew ε π) : Prop where
  numbers : (c.members.map Member.number ++ c.killed).Perm (List.range c.started)
  room : c.idle.length ≤ c.pool.free + c.tasks.countP Task.isVacant + c.holding

/-- The numbers of the processes, with one task apart from the others. -/
theorem numbers_perm {idle : List (Member π)} (h : tasks.Perm (⟨u, duty⟩ :: rest))
    (killed : List Nat) :
    ((idle ++ serving tasks).map Member.number ++ killed).Perm
      (duty.member?.toList.map Member.number ++
        ((idle ++ serving rest).map Member.number ++ killed)) := by
  have hserving : (serving tasks).Perm (duty.member?.toList ++ serving rest) := by
    rw [← serving_cons u duty rest]
    exact h.filterMap _
  rw [← List.append_assoc, ← List.map_append]
  refine (List.Perm.map _ ?_).append_right killed
  refine (hserving.append_left idle).trans ?_
  rw [← List.append_assoc, ← List.append_assoc]
  exact List.perm_append_comm.append_right _

/-- A crew in which one task goes on. It is enough to look at the process of that task, and at those
that are idle or killed. -/
theorem Staffed.assign (h : Staffed c) (task : c.tasks[i]? = some ⟨u, duty⟩) {c₁ : Crew ε π}
    (hpool : c₁.pool = c.pool) (htasks : c₁.tasks = c.tasks) (hholding : c₁.holding = c.holding)
    (hnumbers : ∀ others : List (Member π),
      (duty.member?.toList.map Member.number ++
        ((c.idle ++ others).map Member.number ++ c.killed)).Perm (List.range c.started) →
      (duty'.member?.toList.map Member.number ++
        ((c₁.idle ++ others).map Member.number ++ c₁.killed)).Perm (List.range c₁.started))
    (hroom : c₁.idle = [] ∨ c₁.idle.length + (Task.isVacant ⟨u, duty⟩).toNat ≤
      c.idle.length + (Task.isVacant ⟨u, duty'⟩).toNat) :
    Staffed (c₁.assign i u duty') := by
  have hbefore := tasks_perm task
  have hafter := set_tasks_perm task ⟨u, duty'⟩
  refine ⟨?_, ?_⟩
  · have hold := (numbers_perm hbefore c.killed).symm.trans h.numbers
    have hnew := hnumbers (serving (c.tasks.eraseIdx i)) hold
    rw [Crew.assign, htasks]
    exact (numbers_perm hafter c₁.killed).trans hnew
  · have hold := h.room
    rw [hbefore.countP_eq, List.countP_cons] at hold
    rw [Crew.assign, htasks, hpool, hholding]
    dsimp only
    rw [hafter.countP_eq, List.countP_cons]
    obtain hnone | hroom := hroom
    · rw [hnone]
      exact Nat.zero_le _
    · cases hduty : Task.isVacant (⟨u, duty⟩ : Task π) <;>
        cases hduty' : Task.isVacant (⟨u, duty'⟩ : Task π) <;>
        simp [hduty, hduty'] at hold hroom ⊢ <;> omega

theorem killed_perm (n : Nat) (numbers killed : List Nat) :
    (numbers ++ (killed ++ [n])).Perm ([n] ++ (numbers ++ killed)) := by
  rw [← List.append_assoc]
  exact List.perm_append_comm

theorem Staffed.act (h : Staffed c) (act : c.act? program i = some c') : Staffed c' := by
  obtain ⟨u, duty, htask, hact⟩ := act?_eq act
  cases hact with
  | take hidle =>
    refine h.assign htask rfl rfl rfl (fun others hold => ?_) ?_
    · rw [hidle] at hold
      exact hold
    · rw [hidle]
      exact .inr (Nat.le_refl _)
  | miss hidle => exact h.assign htask rfl rfl rfl (fun _ hold => hold) (.inl hidle)
  | start hstart =>
    refine h.assign htask rfl rfl rfl (fun others hold => ?_) (.inr (Nat.le_refl _))
    rw [List.range_succ]
    exact List.perm_append_comm.trans (hold.append_right [c.started])
  | fail hstart =>
    exact h.assign htask rfl rfl rfl (fun _ hold => hold) (.inr (Nat.le_succ _))
  | ask m => exact h.assign htask rfl rfl rfl (fun _ hold => hold) (.inr (Nat.le_refl _))
  | keep hopen => exact h.assign htask rfl rfl rfl (fun _ hold => hold) (.inr (Nat.le_refl _))
  | kill hclosed =>
    refine h.assign htask rfl rfl rfl (fun others hold => ?_) (.inr (Nat.le_succ _))
    exact (killed_perm ..).trans hold
  | discard =>
    refine h.assign htask rfl rfl rfl (fun others hold => ?_) (.inr (Nat.le_succ _))
    exact (killed_perm ..).trans hold

theorem staffed_ofPool {p : ProcessPool ε π} (hp : p.Built capacity) : Staffed (ofPool p) where
  numbers := by
    have hnumbers : (p.idle.mapIdx Member.mk).map Member.number = List.range p.idle.length := by
      refine List.ext_getElem (by simp) fun n hn hn' => ?_
      simp
    simp only [members, ofPool, serving, List.filterMap_nil, List.append_nil, hnumbers, hp.idle,
      hp.started]
    exact .refl _
  room := by
    simp only [ofPool, List.length_mapIdx, hp.idle, hp.pool]
    exact Nat.le_refl _

/-- Every step keeps the staff in order. -/
theorem Staffed.step (h : Staffed c) (hpaired : c.Paired) (step : Step program c es' c') :
    Staffed c' := by
  cases step with
  | reject unwritable =>
    rw [dispatch_error unwritable]
    exact ⟨h.numbers, h.room⟩
  | submit request =>
    rw [dispatch_ok request]
    refine ⟨h.numbers, ?_⟩
    dsimp only
    rw [Pool.free_submit]
    exact h.room
  | @start _ u head isOpen taken =>
    obtain ⟨pool, -, -, hfree, rfl⟩ := admit?_of_open hpaired head isOpen taken
    refine ⟨?_, ?_⟩
    · have hserving : serving (c.tasks ++ [⟨u, .look⟩]) = serving c.tasks := by
        simp [serving, Duty.member?]
      rw [members, hserving]
      exact h.numbers
    · have hroom := h.room
      simp only [List.countP_append, List.countP_singleton, Task.isVacant, if_true]
      omega
  | refuse head isClosed taken =>
    obtain ⟨pool, -, -, hfree, -, rfl⟩ := admit?_of_closed hpaired head isClosed taken
    refine ⟨h.numbers, ?_⟩
    dsimp only
    rw [hfree]
    exact h.room
  | act act => exact h.act act
  | resolve task resolve =>
    obtain rfl := resolve?_eq task resolve
    have hperm := tasks_perm task
    refine ⟨?_, ?_⟩
    · exact (numbers_perm hperm c.killed).symm.trans h.numbers
    · have hroom := h.room
      rw [hperm.countP_eq, List.countP_cons] at hroom
      simp [Task.isVacant] at hroom ⊢
      omega
  | release release =>
    obtain ⟨hholding, rfl⟩ := release?_eq release
    have hroom := h.room
    refine ⟨h.numbers, ?_⟩
    dsimp only
    omega
  | close => exact ⟨h.numbers, h.room⟩
  | drain drain =>
    obtain ⟨-, rfl⟩ := drain?_eq drain
    refine ⟨?_, Nat.zero_le _⟩
    have hnumbers := h.numbers
    rw [members, List.map_append] at hnumbers ⊢
    refine List.Perm.trans ?_ hnumbers
    rw [List.map_nil, List.nil_append, ← List.append_assoc]
    refine List.perm_append_comm.trans ?_
    rw [← List.append_assoc]

theorem Staffed.number_lt (h : Staffed c) {m : Member π} (hm : m ∈ c.members) :
    m.number < c.started := by
  have hnumber : m.number ∈ c.members.map Member.number := List.mem_map_of_mem hm
  exact List.mem_range.1 (h.numbers.subset (List.mem_append_left _ hnumber))

/-- No other process has the number of the one that a task has. -/
theorem Staffed.number_ne (h : Staffed c) {m m' : Member π} (task : c.tasks[i]? = some ⟨u, .ask m⟩)
    (hm' : m' ∈ c.idle ++ serving (c.tasks.eraseIdx i)) : m'.number ≠ m.number := by
  have hnodup := ((numbers_perm (tasks_perm task) c.killed).symm.trans h.numbers).nodup_iff.2
    List.nodup_range
  have hnumber : m'.number ∈ (c.idle ++ serving (c.tasks.eraseIdx i)).map Member.number :=
    List.mem_map_of_mem hm'
  intro heq
  exact (List.nodup_append.1 hnodup).2.2 m.number (List.mem_singleton_self _) m'.number
    (List.mem_append_left _ hnumber) heq.symm

/-- The live processes are the members of the crew. -/
theorem Staffed.live_perm (h : Staffed c) : (c.members.map Member.number).Perm c.live := by
  have hnodup : (c.members.map Member.number ++ c.killed).Nodup :=
    h.numbers.nodup_iff.2 List.nodup_range
  have hmembers : (c.members.map Member.number).filter (· ∉ c.killed) =
      c.members.map Member.number := by
    rw [List.filter_eq_self]
    intro n hn
    rw [decide_eq_true_iff]
    exact fun hkilled => (List.nodup_append.1 hnodup).2.2 n hn n hkilled rfl
  have hkilled : c.killed.filter (· ∉ c.killed) = [] := by
    rw [List.filter_eq_nil_iff]
    intro n hn
    simpa using hn
  have hlive := h.numbers.filter (· ∉ c.killed)
  rwa [List.filter_append, hmembers, hkilled, List.append_nil] at hlive

theorem Run.staffed {p : ProcessPool ε π} (hp : p.Built capacity)
    (h : Run program (.ofPool p) es c) : Staffed c := by
  induction h with
  | start => exact staffed_ofPool hp
  | step run step ih => exact ih.step (run.accounted hp).1 step

/-- A pool that was shut down has no idle process. -/
structure Drained (c : Crew ε π) : Prop where
  isClosed : c.pool.isClosed = true
  idle : c.idle = []

theorem drained_of_drain? (h : c.drain? = some c') : Drained c' := by
  obtain ⟨hclosed, rfl⟩ := drain?_eq h
  exact ⟨hclosed, rfl⟩

theorem Drained.act (h : Drained c) (act : c.act? program i = some c') : Drained c' := by
  obtain ⟨u, duty, -, hact⟩ := act?_eq act
  cases hact with
  | take hidle =>
    rw [h.idle] at hidle
    cases hidle
  | keep hopen =>
    rw [h.isClosed] at hopen
    cases hopen
  | _ => exact ⟨h.isClosed, h.idle⟩

/-- No step gives a drained pool an idle process. -/
theorem Drained.step (h : Drained c) (hpaired : c.Paired) (step : Step program c es' c') :
    Drained c' := by
  cases step with
  | reject unwritable =>
    rw [dispatch_error unwritable]
    exact ⟨h.isClosed, h.idle⟩
  | submit request =>
    rw [dispatch_ok request]
    exact ⟨(Pool.isClosed_submit ..).trans h.isClosed, h.idle⟩
  | start head isOpen =>
    rw [h.isClosed] at isOpen
    cases isOpen
  | refuse head isClosed taken =>
    obtain ⟨pool, -, -, -, hclosed, rfl⟩ := admit?_of_closed hpaired head isClosed taken
    exact ⟨hclosed, h.idle⟩
  | act act => exact h.act act
  | resolve task resolve =>
    obtain rfl := resolve?_eq task resolve
    exact ⟨h.isClosed, h.idle⟩
  | release release =>
    obtain ⟨-, rfl⟩ := release?_eq release
    exact ⟨h.isClosed, h.idle⟩
  | close => exact ⟨rfl, h.idle⟩
  | drain drain => exact drained_of_drain? drain

theorem Run.drained (h : Run program c es c') (hpaired : c.Paired) (hdrained : Drained c) :
    Drained c' := by
  induction h with
  | start => exact hdrained
  | step run step ih => exact ih.step (run.units hpaired).1 step

/-- There are never more processes, with those that are being started, than permits. -/
theorem Staffed.count_le (h : Staffed c) (hpaired : c.Paired)
    (haccounted : Pool.Accounted ProcessPool.name capacity es c.units) :
    c.live.length + c.tasks.countP Task.isStart ≤ capacity := by
  have hlive := h.live_perm.length_eq
  have hroom := h.room
  have htasks := length_tasks c.tasks
  have hpermits : c.pool.free + c.holding + c.pool.running.length = capacity := haccounted.permits
  rw [← hpaired.length_eq] at hpermits
  rw [members, List.length_map, List.length_append] at hlive
  omega

/-- No process has two requests. -/
theorem Staffed.pairwise (h : Staffed c) :
    c.tasks.Pairwise fun t t' =>
      ∀ m ∈ t.duty.member?, ∀ m' ∈ t'.duty.member?, m.number ≠ m'.number := by
  have hnodup : (c.members.map Member.number).Nodup :=
    (List.nodup_append.1 (h.numbers.nodup_iff.2 List.nodup_range)).1
  rw [members, List.map_append] at hnodup
  have hserving := (List.nodup_append.1 hnodup).2.1
  rw [serving] at hserving
  exact List.pairwise_filterMap.1 (List.pairwise_map.1 hserving)

/-- In every run of a pool of processes, in whatever order the steps of its requests and of a shutdown
follow each other, the processes that are alive are the idle ones and those with a request, each once,
so that no process has two requests; with those that are being started they are never more than the
permits of the pool; and once the pool is drained no process is idle any more, and none is alive when
no request is under way. -/
theorem workers_accounted (program : WorkerProgram ε π) {hasRuntime : Bool} {world : ε}
    {p : ProcessPool ε π} (hbuild : ProcessPool.build program capacity hasRuntime world = .ok p)
    (h : Run program (.ofPool p) es c) :
    (c.members.map Member.number).Perm c.live ∧ c.live.Nodup ∧
    (c.tasks.Pairwise fun t t' =>
      ∀ m ∈ t.duty.member?, ∀ m' ∈ t'.duty.member?, m.number ≠ m'.number) ∧
    c.live.length + c.tasks.countP Task.isStart ≤ capacity ∧
    ∀ drained es' c', c.drain? = some drained → Run program drained es' c' →
      c'.idle = [] ∧ (c'.tasks = [] → c'.live = []) := by
  have hp := ProcessPool.built hbuild
  obtain ⟨hpaired, haccounted⟩ := h.accounted hp
  have hstaffed := h.staffed hp
  refine ⟨hstaffed.live_perm, List.nodup_range.filter _, hstaffed.pairwise,
    hstaffed.count_le hpaired haccounted, ?_⟩
  intro drained es' c' hdrain hafter
  have hstep : Step program c [] drained := .drain hdrain
  have hrun := h.trans (hstep.run.trans hafter)
  have hpaired' := (hstep.units hpaired).1
  have hidle := (hafter.drained hpaired' (drained_of_drain? hdrain)).idle
  refine ⟨hidle, fun htasks => ?_⟩
  have hlive := (hrun.staffed hp).live_perm
  rw [members, hidle, htasks] at hlive
  exact List.perm_nil.1 hlive.symm

/-- A pool of two processes is shut down while one of them has a request. -/
theorem killed_after_shutdown :
    ∃ (p : ProcessPool Unit Unit) (c drained last : Crew Unit Unit)
        (es es' : List (Pool.Event RequestLine)),
      ProcessPool.build (.ending ()) 2 true () = .ok p ∧ Run (.ending ()) (.ofPool p) es c ∧
      c.drain? = some drained ∧ Run (.ending ()) drained es' last ∧
      c.live = [0, 1] ∧ drained.live = [0] ∧ last.idle = [] ∧ last.tasks = [] ∧ last.live = [] := by
  let p : ProcessPool Unit Unit :=
    ⟨.new ProcessPool.name 2, 0, [⟨some (), []⟩, ⟨some (), []⟩], [], 2, ()⟩
  have hbuild : ProcessPool.build (.ending ()) 2 true () = .ok p := rfl
  obtain ⟨c, es, hrun, hlive, drained, hdrain, hkept, last, es', hlast, htasks⟩ :
      ∃ c es, Run (.ending ()) (ofPool p) es c ∧ c.live = [0, 1] ∧
        ∃ drained, c.drain? = some drained ∧ drained.live = [0] ∧
          ∃ last es', Run (.ending ()) drained es' last ∧ last.tasks = [] := by
    have hstart : Run (.ending ()) (ofPool p) [] (ofPool p) := .start
    have hsubmitted := hstart.step (@Step.submit _ _ _ _ (.listJobs (.role "c" "r")) _ rfl)
    have htaken := (hsubmitted.step (.start rfl rfl rfl)).step (.act (i := 0) rfl)
    exact ⟨_, _, htaken.step (.close _), rfl, _, rfl, rfl, _, _,
      .step (.step (.step .start (.act (i := 0) rfl)) (.act (i := 0) rfl))
        (.resolve (i := 0) rfl rfl), rfl⟩
  obtain ⟨-, -, -, -, hafter⟩ := workers_accounted _ hbuild hrun
  obtain ⟨hidle, hnone⟩ := hafter drained es' last hdrain hlast
  exact ⟨p, c, drained, last, es, es', hbuild, hrun, hdrain, hlast, hlive, hkept, hidle, htasks,
    hnone htasks⟩

end Crew

end JobGateway
