import JobGateway.Proofs.Executor.Answers
import JobGateway.Proofs.Executor.Transparency
import JobGateway.Proofs.Executor.Turns

/-! What each process of a pool is sent. If the processes serve a delegate, each beginning with a fresh
state of its own, then a process is in the state to which the requests that it was sent so far lead,
one after the other, and nothing that it wrote is left unread. So a request has the result that it has
among the requests of its own process. -/
namespace JobGateway

open Pool (Event submissions admissions)

variable {ε π : Type}

namespace Delegate

/-- A delegate that leaves what is shared alone. -/
theorem onFirst_invoke (d : Delegate π) (c : JobCommand) (own : π) (shared : ε) :
    d.onFirst.invoke c (own, shared) = ((d.invoke c own).1, (d.invoke c own).2, shared) := by
  cases c <;> rfl

/-- The results of units that are run one after the other, and the state to which they lead. -/
def inTurn (d : Delegate π) (fresh : π) (units : List (PoolUnit RequestLine)) : List JobResult × π :=
  (units.map PoolUnit.command).mapM d.invoke fresh

variable (d : Delegate π) (fresh : π)

theorem inTurn_concat (units : List (PoolUnit RequestLine)) (u : PoolUnit RequestLine) :
    d.inTurn fresh (units ++ [u]) =
      let run := d.inTurn fresh units
      (run.1 ++ [(d.invoke u.command run.2).1], (d.invoke u.command run.2).2) := by
  rw [inTurn, List.map_append, mapM_append_state]
  rfl

theorem length_inTurn (units : List (PoolUnit RequestLine)) :
    (d.inTurn fresh units).1.length = units.length := by
  rw [inTurn, length_mapM_state, List.length_map]

end Delegate

/-- The requests of the process under a number, out of all that were sent. -/
def share (runs : List (Nat × PoolUnit RequestLine)) (number : Nat) : List (PoolUnit RequestLine) :=
  (runs.filter fun run => run.1 = number).map Prod.snd

section Share

variable {runs : List (Nat × PoolUnit RequestLine)} {number : Nat} {u : PoolUnit RequestLine}

theorem mem_share : u ∈ share runs number ↔ (number, u) ∈ runs := by
  simp only [share, List.mem_map, List.mem_filter, decide_eq_true_iff]
  constructor
  · rintro ⟨⟨_, _⟩, ⟨hmem, rfl⟩, rfl⟩
    exact hmem
  · exact fun hmem => ⟨_, ⟨hmem, rfl⟩, rfl⟩

theorem share_concat_self (runs : List (Nat × PoolUnit RequestLine)) (number : Nat)
    (u : PoolUnit RequestLine) :
    share (runs ++ [(number, u)]) number = share runs number ++ [u] := by
  simp [share]

theorem share_concat_of_ne {other : Nat} (h : other ≠ number) (runs : List (Nat × PoolUnit RequestLine))
    (u : PoolUnit RequestLine) : share (runs ++ [(number, u)]) other = share runs other := by
  simp [share, h.symm]

theorem share_eq_nil (h : ∀ run ∈ runs, run.1 < number) : share runs number = [] := by
  rw [List.eq_nil_iff_forall_not_mem]
  exact fun u hu => Nat.lt_irrefl _ (h _ (mem_share.1 hu))

end Share

/-- A result that a unit has among the requests of one process. -/
def IsEarned (d : Delegate π) (fresh : π) (runs : List (Nat × PoolUnit RequestLine))
    (u : PoolUnit RequestLine) (result : JobResult) : Prop :=
  ∃ number, (u, result) ∈ (share runs number).zip (d.inTurn fresh (share runs number)).1

/-- What a task has in hand it has from its process. -/
def Task.HasEarned (d : Delegate π) (fresh : π) (runs : List (Nat × PoolUnit RequestLine))
    (t : Task π) : Prop :=
  match t.duty with
  | .leave _ (.ok result) => IsEarned d fresh runs t.unit result
  | .leave _ (.error _) => False
  | .resolve result => IsEarned d fresh runs t.unit result
  | _ => True

section Earned

variable {d : Delegate π} {fresh : π} {runs : List (Nat × PoolUnit RequestLine)} {number : Nat}
  {u v : PoolUnit RequestLine} {result : JobResult}

theorem zip_share_concat (number : Nat) (u : PoolUnit RequestLine) :
    (share (runs ++ [(number, u)]) number).zip
        (d.inTurn fresh (share (runs ++ [(number, u)]) number)).1 =
      (share runs number).zip (d.inTurn fresh (share runs number)).1 ++
        [(u, (d.invoke u.command (d.inTurn fresh (share runs number)).2).1)] := by
  rw [share_concat_self, d.inTurn_concat, List.zip_append (d.length_inTurn ..).symm]
  rfl

/-- A request that is sent later changes no result. -/
theorem IsEarned.concat (h : IsEarned d fresh runs u result) (number : Nat)
    (v : PoolUnit RequestLine) : IsEarned d fresh (runs ++ [(number, v)]) u result := by
  obtain ⟨k, hmem⟩ := h
  refine ⟨k, ?_⟩
  obtain rfl | hne := eq_or_ne k number
  · rw [zip_share_concat]
    exact List.mem_append_left _ hmem
  · rwa [share_concat_of_ne hne]

theorem isEarned_concat (number : Nat) (u : PoolUnit RequestLine) :
    IsEarned d fresh (runs ++ [(number, u)]) u
      (d.invoke u.command (d.inTurn fresh (share runs number)).2).1 := by
  refine ⟨number, ?_⟩
  rw [zip_share_concat]
  exact List.mem_append_right _ (List.mem_singleton_self _)

theorem Task.HasEarned.concat {t : Task π} (h : t.HasEarned d fresh runs) (number : Nat)
    (v : PoolUnit RequestLine) : t.HasEarned d fresh (runs ++ [(number, v)]) := by
  obtain ⟨u, duty⟩ := t
  cases duty with
  | leave m answer =>
    cases answer with
    | error e => exact h
    | ok result => exact IsEarned.concat h number v
  | resolve result => exact IsEarned.concat h number v
  | _ => trivial

end Earned

namespace Crew

/-- The admitted units whose request line is still to be written. -/
def unasked (tasks : List (Task π)) : List (PoolUnit RequestLine) :=
  (tasks.filter fun t => t.duty.isUnasked).map Task.unit

/-- What was sent to the processes of a crew, against what happened in its pool. -/
structure Dealt (d : Delegate π) (fresh : π) (capacity : Nat) (es : List (Event RequestLine))
    (c : Crew ε π) (runs : List (Nat × PoolUnit RequestLine)) : Prop where
  calls : c.calls.map (fun call => (call.number, call.ticket, call.line)) =
    runs.map fun run => (run.1, run.2.ticket, run.2.work.line)
  /-- Each admitted unit was sent to one process, or waits to be sent. -/
  units : (runs.map Prod.snd ++ unasked c.tasks).Perm (admissions es)
  /-- With one permit the units are sent in the order of the admissions. -/
  inOrder : capacity = 1 → runs.map Prod.snd ++ unasked c.tasks = admissions es
  numbers : ∀ run ∈ runs, run.1 < c.started
  members : ∀ m ∈ c.members,
    m.process = ⟨some (d.inTurn fresh (share runs m.number)).2, []⟩
  earned : ∀ t ∈ c.tasks, t.HasEarned d fresh runs
  finished : ∀ u result, .finished u result ∈ es → IsEarned d fresh runs u result

variable {d : Delegate π} {fresh : π} {capacity : Nat} {es es' : List (Event RequestLine)}
  {c c' c₁ : Crew ε π} {runs : List (Nat × PoolUnit RequestLine)} {i : Nat}
  {u : PoolUnit RequestLine} {duty duty' : Duty π} {m : Member π}

/-- There are no more tasks than permits. -/
theorem length_tasks_le (hpaired : c.Paired)
    (haccounted : Pool.Accounted ProcessPool.name capacity es c.units) :
    c.tasks.length ≤ capacity := by
  have hpermits := haccounted.permits
  have hrunning : c.units.running = c.pool.running := rfl
  rw [hrunning, ← hpaired.length_eq] at hpermits
  omega

/-- What is sent to no process keeps what is known of the requests that were sent. -/
theorem Dealt.of_eq (h : Dealt d fresh capacity es c runs) (htasks : c'.tasks = c.tasks)
    (hcalls : c'.calls = c.calls) (hstarted : c'.started = c.started) (hidle : c'.idle ⊆ c.idle)
    (hadmissions : admissions (es ++ es') = admissions es)
    (hfinished : ∀ u result, .finished u result ∉ es') :
    Dealt d fresh capacity (es ++ es') c' runs where
  calls := hcalls ▸ h.calls
  units := by
    rw [htasks, hadmissions]
    exact h.units
  inOrder := by
    rw [htasks, hadmissions]
    exact h.inOrder
  numbers := hstarted ▸ h.numbers
  members m hm := by
    refine h.members m ?_
    rw [Crew.members, htasks] at hm
    exact (List.mem_append.1 hm).elim (fun hm => List.mem_append_left _ (hidle hm))
      (List.mem_append_right _)
  earned := htasks ▸ h.earned
  finished u result hmem :=
    h.finished u result ((List.mem_append.1 hmem).resolve_right (hfinished u result))

theorem Dealt.admitted (h : Dealt d fresh capacity es c runs) (u : PoolUnit RequestLine)
    (pool : Pool RequestLine) :
    Dealt d fresh capacity (es ++ [.started u])
      { c with pool, tasks := c.tasks ++ [⟨u, .look⟩] } runs := by
  have hunasked : unasked (c.tasks ++ [⟨u, .look⟩]) = unasked c.tasks ++ [u] := by
    simp [unasked, Duty.isUnasked]
  have hadmissions : admissions (es ++ [.started u]) = admissions es ++ [u] := by simp [admissions]
  refine ⟨h.calls, ?_, ?_, h.numbers, ?_, ?_, ?_⟩
  · rw [hunasked, hadmissions, ← List.append_assoc]
    exact h.units.append_right [u]
  · intro hone
    rw [hunasked, hadmissions, ← List.append_assoc, h.inOrder hone]
  · intro m hm
    refine h.members m ?_
    simpa [Crew.members, serving, Duty.member?] using hm
  · intro t ht
    obtain ht | ht := List.mem_append.1 ht
    · exact h.earned t ht
    · obtain rfl := List.mem_singleton.1 ht
      trivial
  · intro v result hmem
    exact h.finished v result ((List.mem_append.1 hmem).resolve_right (by simp))

/-- A task that goes on without sending anything. The processes that it touches are those of the crew,
or the next one to be started. -/
theorem Dealt.assign (h : Dealt d fresh capacity es c runs) (task : c.tasks[i]? = some ⟨u, duty⟩)
    (htasks : c₁.tasks = c.tasks) (hcalls : c₁.calls = c.calls) (hstarted : c.started ≤ c₁.started)
    (hunasked : duty'.isUnasked = duty.isUnasked)
    (hmembers : ∀ m, m ∈ c₁.idle ∨ duty'.member? = some m →
      m ∈ c.members ∨ m = ⟨c.started, some fresh, []⟩)
    (hearned : Task.HasEarned d fresh runs ⟨u, duty'⟩) :
    Dealt d fresh capacity es (c₁.assign i u duty') runs := by
  obtain ⟨before, after, hsplit, -, hset⟩ := Pool.exists_split task
  have hsame : unasked (c.tasks.set i ⟨u, duty'⟩) = unasked c.tasks := by
    rw [hset, hsplit]
    cases hduty : duty.isUnasked <;> simp [unasked, hduty, hunasked]
  have htask : ∀ t ∈ (c₁.assign i u duty').tasks, t ∈ c.tasks ∨ t = ⟨u, duty'⟩ := by
    intro t ht
    rw [Crew.assign, htasks] at ht
    exact List.mem_or_eq_of_mem_set ht
  refine ⟨hcalls ▸ h.calls, ?_, ?_, ?_, ?_, ?_, h.finished⟩
  · rw [Crew.assign, htasks, hsame]
    exact h.units
  · rw [Crew.assign, htasks, hsame]
    exact h.inOrder
  · exact fun run hrun => Nat.lt_of_lt_of_le (h.numbers run hrun) hstarted
  · have hknown : ∀ m, m ∈ c.members ∨ m = ⟨c.started, some fresh, []⟩ →
        m.process = ⟨some (d.inTurn fresh (share runs m.number)).2, []⟩ := by
      rintro m (hm | rfl)
      · exact h.members m hm
      · rw [share_eq_nil h.numbers]
        rfl
    intro m hm
    refine hknown m ?_
    obtain hm | hm := List.mem_append.1 hm
    · exact hmembers m (.inl hm)
    · obtain ⟨t, ht, hm⟩ := mem_serving.1 hm
      obtain ht | rfl := htask t ht
      · exact .inl (List.mem_append_right _ (mem_serving.2 ⟨t, ht, hm⟩))
      · exact hmembers m (.inr hm)
  · intro t ht
    obtain ht | rfl := htask t ht
    · exact h.earned t ht
    · exact hearned

/-- A process that serves a delegate answers a request from the state in which it is. -/
theorem ask_serving (d : Delegate π) (fresh own : π) (c : Crew ε π) (i : Nat)
    (hrequest : IsRequest u) (hprocess : m.process = ⟨some own, []⟩) :
    ∃ reply shared, c.ask (.serving d.onFirst fresh) i u m =
      ({ c with
        calls := c.calls ++ [⟨u.ticket, m.number, u.work.line, reply⟩], shared } : Crew ε π).assign i u
        (.leave ⟨m.number, some (d.invoke u.command own).2, []⟩ (.ok (d.invoke u.command own).1)) := by
  obtain ⟨j, hj, hline⟩ := hrequest
  have hcall := WorkerProcess.call_serving d.onFirst fresh own c.shared hj
  rw [← hline, d.onFirst_invoke] at hcall
  rw [ask_eq, hprocess]
  dsimp only
  rw [hcall]
  exact ⟨_, _, rfl⟩

/-- The units whose request line is still to be written, around one that writes it. -/
theorem unasked_ask {tasks : List (Task π)} (task : tasks[i]? = some ⟨u, .ask m⟩) (m' : Member π)
    (answer : Except CommandError JobResult) :
    (u :: unasked (tasks.set i ⟨u, .leave m' answer⟩)).Perm (unasked tasks) ∧
      (tasks.length ≤ 1 → u :: unasked (tasks.set i ⟨u, .leave m' answer⟩) = unasked tasks) := by
  obtain ⟨before, after, rfl, -, hset⟩ := Pool.exists_split task
  rw [hset]
  have hnow : unasked (before ++ ⟨u, .ask m⟩ :: after) = unasked before ++ u :: unasked after := by
    simp [unasked, Duty.isUnasked]
  have hthen : unasked (before ++ ⟨u, .leave m' answer⟩ :: after) =
      unasked before ++ unasked after := by
    simp [unasked, Duty.isUnasked]
  rw [hnow, hthen]
  refine ⟨List.perm_middle.symm, fun hlength => ?_⟩
  obtain rfl : before = [] := by
    rw [List.length_append, List.length_cons] at hlength
    exact List.eq_nil_of_length_eq_zero (by omega)
  rfl

/-- A task that sends its request to its process. -/
theorem Dealt.ask (h : Dealt d fresh capacity es c runs) (hstaffed : Staffed c)
    (hlength : c.tasks.length ≤ capacity) (task : c.tasks[i]? = some ⟨u, .ask m⟩)
    (hrequest : IsRequest u) :
    Dealt d fresh capacity es (c.ask (.serving d.onFirst fresh) i u m) (runs ++ [(m.number, u)]) := by
  have hmem : m ∈ c.members :=
    List.mem_append_right _ (mem_serving.2 ⟨_, List.mem_of_getElem? task, rfl⟩)
  obtain ⟨reply, shared, hask⟩ := ask_serving d fresh _ c i hrequest (h.members m hmem)
  have htask {t t' : Task π} (ht : t ∈ c.tasks.set i t') : t = t' ∨ t ∈ c.tasks.eraseIdx i :=
    List.mem_cons.1 ((set_tasks_perm task t').subset ht)
  have hsent : ∀ units, (runs ++ [(m.number, u)]).map Prod.snd ++ units =
      runs.map Prod.snd ++ u :: units := fun units => by simp
  rw [hask]
  refine ⟨?_, ?_, ?_, ?_, ?_, ?_, ?_⟩
  · rw [Crew.assign]
    simp only [List.map_append, h.calls, List.map_singleton]
  · rw [hsent]
    exact ((unasked_ask task _ _).1.append_left _).trans h.units
  · intro hone
    rw [hsent, ← h.inOrder hone]
    exact congrArg _ ((unasked_ask task _ _).2 (hone ▸ hlength))
  · intro run hrun
    obtain hrun | hrun := List.mem_append.1 hrun
    · exact h.numbers run hrun
    · obtain rfl := List.mem_singleton.1 hrun
      exact hstaffed.number_lt hmem
  · intro m' hm'
    -- The process has run one request more, and all others are as they were.
    have hothers : m' ∈ c.idle ++ serving (c.tasks.eraseIdx i) → m' ∈ c.members →
        m'.process = ⟨some (d.inTurn fresh (share (runs ++ [(m.number, u)]) m'.number)).2, []⟩ := by
      intro hother hmember
      rw [share_concat_of_ne (hstaffed.number_ne task hother)]
      exact h.members m' hmember
    obtain hidle | hserving := List.mem_append.1 hm'
    · exact hothers (List.mem_append_left _ hidle) (List.mem_append_left _ hidle)
    · obtain ⟨t, ht, hduty⟩ := mem_serving.1 hserving
      obtain rfl | ht := htask ht
      · obtain rfl := Option.some.inj hduty
        rw [share_concat_self, d.inTurn_concat]
      · exact hothers (List.mem_append_right _ (mem_serving.2 ⟨t, ht, hduty⟩))
          (List.mem_append_right _ (mem_serving.2 ⟨t, List.mem_of_mem_eraseIdx ht, hduty⟩))
  · intro t ht
    obtain rfl | ht := htask ht
    · exact isEarned_concat m.number u
    · exact (h.earned t (List.mem_of_mem_eraseIdx ht)).concat m.number u
  · intro v result hfinished
    exact (h.finished v result hfinished).concat m.number u

theorem Dealt.act (h : Dealt d fresh capacity es c runs) (hstaffed : Staffed c)
    (hlength : c.tasks.length ≤ capacity) (hrequest : ∀ t ∈ c.tasks, IsRequest t.unit)
    (act : c.act? (.serving d.onFirst fresh) i = some c') :
    ∃ runs', Dealt d fresh capacity es c' runs' := by
  obtain ⟨u, duty, htask, hact⟩ := act?_eq act
  have hmem := List.mem_of_getElem? htask
  have hearned := h.earned _ hmem
  cases hact with
  | take hidle =>
    refine ⟨runs, h.assign htask rfl rfl (Nat.le_refl _) rfl ?_ trivial⟩
    rintro m' (hm | hm)
    · exact .inl (List.mem_append_left _ (hidle ▸ List.mem_cons_of_mem _ hm))
    · obtain rfl := Option.some.inj hm
      exact .inl (List.mem_append_left _ (hidle ▸ List.mem_cons_self))
  | miss hidle =>
    refine ⟨runs, h.assign htask rfl rfl (Nat.le_refl _) rfl ?_ trivial⟩
    rintro m' (hm | hm)
    · exact .inl (List.mem_append_left _ hm)
    · cases hm
  | start hstart =>
    cases hstart
    refine ⟨runs, h.assign htask rfl rfl (Nat.le_succ _) rfl ?_ trivial⟩
    rintro m' (hm | hm)
    · exact .inl (List.mem_append_left _ hm)
    · exact .inr (Option.some.inj hm).symm
  | fail hstart => cases hstart
  | ask m => exact ⟨_, h.ask hstaffed hlength htask (hrequest _ hmem)⟩
  | keep =>
    refine ⟨runs, h.assign htask rfl rfl (Nat.le_refl _) rfl ?_ hearned⟩
    rintro m' (hm | hm)
    · obtain rfl | hm := List.mem_cons.1 hm
      · exact .inl (List.mem_append_right _ (mem_serving.2 ⟨_, hmem, rfl⟩))
      · exact .inl (List.mem_append_left _ hm)
    · cases hm
  | kill =>
    refine ⟨runs, h.assign htask rfl rfl (Nat.le_refl _) rfl ?_ hearned⟩
    rintro m' (hm | hm)
    · exact .inl (List.mem_append_left _ hm)
    · cases hm
  | discard => exact hearned.elim

theorem Dealt.resolve (h : Dealt d fresh capacity es c runs) {result : JobResult}
    (task : c.tasks[i]? = some ⟨u, .resolve result⟩) (resolve : c.resolve? i = some c') :
    Dealt d fresh capacity (es ++ [.finished u result]) c' runs := by
  obtain ⟨before, after, hsplit, herase, -⟩ := Pool.exists_split task
  obtain rfl := resolve?_eq task resolve
  have hadmissions : admissions (es ++ [.finished u result]) = admissions es := by
    simp [admissions]
  have hsame : unasked (c.tasks.eraseIdx i) = unasked c.tasks := by
    rw [herase, hsplit]
    simp [unasked, Duty.isUnasked]
  refine ⟨h.calls, ?_, ?_, h.numbers, ?_, ?_, ?_⟩
  · rw [hadmissions, hsame]
    exact h.units
  · rw [hadmissions, hsame]
    exact h.inOrder
  · intro m hm
    refine h.members m ?_
    obtain hm | hm := List.mem_append.1 hm
    · exact List.mem_append_left _ hm
    · obtain ⟨t, ht, hduty⟩ := mem_serving.1 hm
      exact List.mem_append_right _ (mem_serving.2 ⟨t, List.mem_of_mem_eraseIdx ht, hduty⟩)
  · exact fun t ht => h.earned t (List.mem_of_mem_eraseIdx ht)
  · intro v r hfinished
    obtain hfinished | hfinished := List.mem_append.1 hfinished
    · exact h.finished v r hfinished
    · cases List.mem_singleton.1 hfinished
      exact h.earned _ (List.mem_of_getElem? task)

/-- Every step keeps what is known of the requests that were sent. -/
theorem Dealt.step (h : Dealt d fresh capacity es c runs) (hpaired : c.Paired)
    (haccounted : Pool.Accounted ProcessPool.name capacity es c.units) (hstaffed : Staffed c)
    (hrequest : ∀ t ∈ c.tasks, IsRequest t.unit)
    (step : Step (.serving d.onFirst fresh) c es' c') :
    ∃ runs', Dealt d fresh capacity (es ++ es') c' runs' := by
  cases step with
  | reject unwritable =>
    rw [dispatch_error unwritable]
    exact ⟨runs, h.of_eq rfl rfl rfl (List.Subset.refl _) (by simp) (by simp)⟩
  | submit request =>
    rw [dispatch_ok request]
    exact ⟨runs, h.of_eq rfl rfl rfl (List.Subset.refl _) (by simp [admissions]) (by simp)⟩
  | start head isOpen taken =>
    obtain ⟨pool, -, -, -, rfl⟩ := admit?_of_open hpaired head isOpen taken
    exact ⟨runs, h.admitted _ pool⟩
  | refuse head isClosed taken =>
    obtain ⟨pool, -, -, -, -, rfl⟩ := admit?_of_closed hpaired head isClosed taken
    exact ⟨runs, h.of_eq rfl rfl rfl (List.Subset.refl _) (by simp [admissions]) (by simp)⟩
  | act act =>
    rw [List.append_nil]
    exact h.act hstaffed (length_tasks_le hpaired haccounted) hrequest act
  | resolve task resolve => exact ⟨runs, h.resolve task resolve⟩
  | release release =>
    obtain ⟨-, rfl⟩ := release?_eq release
    exact ⟨runs, h.of_eq rfl rfl rfl (List.Subset.refl _) (by simp) (by simp)⟩
  | close =>
    exact ⟨runs, h.of_eq rfl rfl rfl (List.Subset.refl _) (by simp [admissions]) (by simp)⟩
  | drain drain =>
    obtain ⟨-, rfl⟩ := drain?_eq drain
    exact ⟨runs, h.of_eq rfl rfl rfl (List.nil_subset _) (by simp) (by simp)⟩

section Serving

variable {hasRuntime : Bool} {world : ε} {p : ProcessPool ε π}

theorem dealt_ofPool
    (hbuild : ProcessPool.build (.serving d.onFirst fresh) capacity hasRuntime world = .ok p) :
    Dealt d fresh capacity [] (ofPool p) [] := by
  obtain ⟨-, idle, shared, hstart, rfl⟩ := ProcessPool.build_eq hbuild
  rw [ProcessPool.startAll_serving, List.append_nil] at hstart
  cases hstart
  refine ⟨rfl, .nil, fun _ => rfl, fun t ht => absurd ht List.not_mem_nil, ?_,
    fun t ht => absurd ht List.not_mem_nil, fun u result hmem => absurd hmem List.not_mem_nil⟩
  intro m hm
  have hidle : m.process ∈ List.replicate capacity ⟨some fresh, []⟩ := by
    obtain hm | hm := List.mem_append.1 hm
    · obtain ⟨n, hn, rfl⟩ := List.mem_mapIdx.1 hm
      exact List.getElem_mem hn
    · cases hm
  exact List.eq_of_mem_replicate hidle

/-- What is known of the requests that were sent holds after every run. -/
theorem Run.dealt
    (hbuild : ProcessPool.build (.serving d.onFirst fresh) capacity hasRuntime world = .ok p)
    (h : Run (.serving d.onFirst fresh) (.ofPool p) es c) :
    ∃ runs, Dealt d fresh capacity es c runs := by
  have hp := ProcessPool.built hbuild
  induction h with
  | start => exact ⟨[], dealt_ofPool hbuild⟩
  | @step es es' c c' run step ih =>
    obtain ⟨runs, hdealt⟩ := ih
    obtain ⟨hpaired, haccounted⟩ := run.accounted hp
    refine hdealt.step hpaired haccounted (run.staffed hp) (fun t ht => ?_) step
    have hrunning : t.unit ∈ c.units.running := hpaired ▸ List.mem_map_of_mem ht
    have hsubmitted := haccounted.mem_of_admitted (haccounted.mem_of_running hrunning)
    exact (run.told hp).request _ (Pool.mem_submissions.1 hsubmitted)

end Serving

end Crew

end JobGateway
