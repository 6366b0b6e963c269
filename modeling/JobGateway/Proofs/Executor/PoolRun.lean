import JobGateway.Executor.Admission
import Mathlib.Data.List.Induction
import Mathlib.Data.List.Perm.Basic
import Mathlib.Tactic.Common

/-! Runs of a pool. A run is a log of what happened, in any order that the pool allows: units come
in, are admitted or refused, and finish with any result, and the pool may be closed at any moment,
also more than once. What the log says about the pool is kept by every step. -/
namespace JobGateway.Pool

variable {ω : Type}

/-- What happens in a pool. -/
inductive Event (ω : Type) where
  | submitted (u : PoolUnit ω)
  | started (u : PoolUnit ω)
  | refused (u : PoolUnit ω)
  | finished (u : PoolUnit ω) (result : JobResult)
  | closed

/-- The steps of a pool. The first unit of the queue is dealt with as soon as it need not wait, and
a running unit may finish at any time. -/
inductive Step : Pool ω → Event ω → Pool ω → Prop
  | submit (p : Pool ω) (c : JobCommand) (work : ω) :
    Step p (.submitted ⟨p.submitted, c, work⟩) (p.submit c work)
  | start {p q : Pool ω} {u : PoolUnit ω} (head : p.queued.head? = some u)
      (isOpen : p.isClosed = false) (taken : p.admit? = some q) : Step p (.started u) q
  | refuse {p q : Pool ω} {u : PoolUnit ω} (head : p.queued.head? = some u)
      (isClosed : p.isClosed = true) (taken : p.admit? = some q) : Step p (.refused u) q
  | finish {p : Pool ω} {i : Nat} {u : PoolUnit ω} (running : p.running[i]? = some u)
      (result : JobResult) : Step p (.finished u result) (p.finishAt i result)
  | close (p : Pool ω) : Step p .closed p.close

/-- Any number of steps, and their log. -/
inductive Run (start : Pool ω) : List (Event ω) → Pool ω → Prop
  | start : Run start [] start
  | step {es : List (Event ω)} {e : Event ω} {p q : Pool ω} (run : Run start es p)
      (step : Step p e q) : Run start (es ++ [e]) q

/-- The submitted units of a log, in order. -/
def submissions (es : List (Event ω)) : List (PoolUnit ω) :=
  es.filterMap fun | .submitted u => some u | _ => none

/-- The admitted units of a log, in order. -/
def admissions (es : List (Event ω)) : List (PoolUnit ω) :=
  es.filterMap fun | .started u => some u | _ => none

/-- The units of a log that a closed pool refused, in order. -/
def refusals (es : List (Event ω)) : List (PoolUnit ω) :=
  es.filterMap fun | .refused u => some u | _ => none

/-- The finished units of a log with their results, in order. -/
def completions (es : List (Event ω)) : List (PoolUnit ω × JobResult) :=
  es.filterMap fun | .finished u result => some (u, result) | _ => none

/-- The promises that a log settles, in order. -/
def settlements (name : String) (es : List (Event ω)) : List (Nat × Promise) :=
  es.filterMap fun
    | .finished u result => some (u.ticket, .resolved result)
    | .refused u => some (u.ticket, .resolved (u.command.fail (.worker s!"{name} closed")))
    | _ => none

theorem mem_submissions {es : List (Event ω)} {u : PoolUnit ω} :
    u ∈ submissions es ↔ .submitted u ∈ es := by
  rw [submissions, List.mem_filterMap]
  constructor
  · rintro ⟨e, he, hu⟩
    cases e with
    | submitted => cases hu; exact he
    | _ => cases hu
  · exact fun h => ⟨_, h, rfl⟩

theorem mem_admissions {es : List (Event ω)} {u : PoolUnit ω} :
    u ∈ admissions es ↔ .started u ∈ es := by
  rw [admissions, List.mem_filterMap]
  constructor
  · rintro ⟨e, he, hu⟩
    cases e with
    | started => cases hu; exact he
    | _ => cases hu
  · exact fun h => ⟨_, h, rfl⟩

theorem mem_refusals {es : List (Event ω)} {u : PoolUnit ω} :
    u ∈ refusals es ↔ .refused u ∈ es := by
  rw [refusals, List.mem_filterMap]
  constructor
  · rintro ⟨e, he, hu⟩
    cases e with
    | refused => cases hu; exact he
    | _ => cases hu
  · exact fun h => ⟨_, h, rfl⟩

theorem mem_completions {es : List (Event ω)} {u : PoolUnit ω} {result : JobResult} :
    (u, result) ∈ completions es ↔ .finished u result ∈ es := by
  rw [completions, List.mem_filterMap]
  constructor
  · rintro ⟨e, he, hu⟩
    cases e with
    | finished => cases hu; exact he
    | _ => cases hu
  · exact fun h => ⟨_, h, rfl⟩

section Submit

variable (p : Pool ω) (c : JobCommand) (work : ω)

@[simp] theorem running_submit : (p.submit c work).running = p.running := by
  rw [submit]
  split_ifs <;> rfl

@[simp] theorem free_submit : (p.submit c work).free = p.free := by
  rw [submit]
  split_ifs <;> rfl

@[simp] theorem isClosed_submit : (p.submit c work).isClosed = p.isClosed := by
  rw [submit]
  split_ifs <;> rfl

end Submit

/-- What an open pool does with the unit that it admits. -/
theorem admit?_of_open {p q : Pool ω} {u : PoolUnit ω} (head : p.queued.head? = some u)
    (isOpen : p.isClosed = false) (taken : p.admit? = some q) :
    ∃ queued, p.queued = u :: queued ∧ 0 < p.free ∧
      q = { p with
        queued, free := p.free - 1
        running := p.running ++ [u], admitted := p.admitted ++ [u.ticket] } := by
  obtain ⟨queued, hqueued⟩ := List.head?_eq_some_iff.1 head
  simp only [admit?, hqueued] at taken
  rw [if_neg (by simp [isOpen])] at taken
  split_ifs at taken with hfree
  exact ⟨queued, hqueued, Nat.pos_of_ne_zero hfree, (Option.some.inj taken).symm⟩

/-- What a closed pool does with the unit that it refuses. -/
theorem admit?_of_closed {p q : Pool ω} {u : PoolUnit ω} (head : p.queued.head? = some u)
    (isClosed : p.isClosed = true) (taken : p.admit? = some q) :
    ∃ queued, p.queued = u :: queued ∧
      q = { p with
        queued
        settled := p.settled ++ [(u.ticket, .resolved (p.closedResult u.command))] } := by
  obtain ⟨queued, hqueued⟩ := List.head?_eq_some_iff.1 head
  simp only [admit?, hqueued] at taken
  rw [if_pos isClosed] at taken
  exact ⟨queued, hqueued, (Option.some.inj taken).symm⟩

theorem finishAt_of_running {p : Pool ω} {i : Nat} {u : PoolUnit ω}
    (running : p.running[i]? = some u) (result : JobResult) :
    p.finishAt i result = { p with
      free := p.free + 1, running := p.running.eraseIdx i
      settled := p.settled ++ [(u.ticket, .resolved result)] } := by
  rw [finishAt, running]
  rfl

/-- A list at one of its positions. -/
theorem exists_split {α : Type} {l : List α} {i : Nat} {a : α} (h : l[i]? = some a) :
    ∃ before after, l = before ++ a :: after ∧ l.eraseIdx i = before ++ after ∧
      ∀ b, l.set i b = before ++ b :: after := by
  obtain ⟨hi, rfl⟩ := List.getElem?_eq_some_iff.1 h
  refine ⟨l.take i, l.drop (i + 1), ?_, List.eraseIdx_eq_take_drop_succ l i, fun b => ?_⟩
  · rw [← List.drop_eq_getElem_cons hi, List.take_append_drop]
  · rw [List.set_eq_take_append_cons_drop, if_pos hi]

/-- A finished unit was among the running ones. -/
theorem cons_eraseIdx_perm {p : Pool ω} {i : Nat} {u : PoolUnit ω}
    (running : p.running[i]? = some u) : (u :: p.running.eraseIdx i).Perm p.running := by
  obtain ⟨hi, rfl⟩ := List.getElem?_eq_some_iff.1 running
  exact List.getElem_cons_eraseIdx_perm hi

/-- What the log of a pool says about its state. -/
structure Accounted (name : String) (capacity : Nat) (es : List (Event ω)) (p : Pool ω) : Prop where
  name_eq : p.name = name
  capacity_eq : p.capacity = capacity
  isDriven : p.isDriven = true
  /-- Every permit is free or held by a running unit. -/
  permits : p.free + p.running.length = capacity
  /-- Units are numbered as they are submitted. -/
  tickets : (submissions es).map PoolUnit.ticket = List.range p.submitted
  /-- Units are dealt with in the order of their submission, the refused ones last. -/
  order : submissions es = admissions es ++ refusals es ++ p.queued
  admitted : p.admitted = (admissions es).map PoolUnit.ticket
  closed : p.isClosed = true ↔ .closed ∈ es
  refused : p.isClosed = false → refusals es = []
  /-- A unit that was admitted is running or finished. -/
  ran : (p.running ++ (completions es).map Prod.fst).Perm (admissions es)
  settled : p.settled = settlements name es

theorem accounted_new (name : String) (capacity : Nat) :
    Accounted name capacity [] (new name capacity : Pool ω) where
  name_eq := rfl
  capacity_eq := rfl
  isDriven := rfl
  permits := rfl
  tickets := rfl
  order := rfl
  admitted := rfl
  closed := by simp [new]
  refused _ := rfl
  ran := .nil
  settled := rfl

variable {name : String} {capacity : Nat} {es : List (Event ω)} {p q : Pool ω}

theorem Accounted.submit (h : Accounted name capacity es p) (c : JobCommand) (work : ω) :
    Accounted name capacity (es ++ [.submitted ⟨p.submitted, c, work⟩]) (p.submit c work) := by
  have hsubmit : p.submit c work = { p with
      submitted := p.submitted + 1, queued := p.queued ++ [⟨p.submitted, c, work⟩] } :=
    if_pos h.isDriven
  have hnew : submissions (es ++ [.submitted ⟨p.submitted, c, work⟩]) =
      submissions es ++ [⟨p.submitted, c, work⟩] := by simp [submissions]
  rw [hsubmit]
  exact {
    name_eq := h.name_eq
    capacity_eq := h.capacity_eq
    isDriven := h.isDriven
    permits := h.permits
    tickets := by rw [hnew, List.map_append, h.tickets, List.range_succ, List.map_singleton]
    order := by
      rw [hnew, h.order]
      simp [admissions, refusals]
    admitted := by simp [h.admitted, admissions]
    closed := by simp [h.closed]
    refused := fun hopen => by simpa [refusals] using h.refused hopen
    ran := by simpa [admissions, completions] using h.ran
    settled := by simp [h.settled, settlements] }

theorem Accounted.start {u : PoolUnit ω} (h : Accounted name capacity es p)
    (head : p.queued.head? = some u) (isOpen : p.isClosed = false) (taken : p.admit? = some q) :
    Accounted name capacity (es ++ [.started u]) q := by
  obtain ⟨queued, hqueued, hfree, rfl⟩ := admit?_of_open head isOpen taken
  have hnew : admissions (es ++ [.started u]) = admissions es ++ [u] := by simp [admissions]
  have hsame : submissions (es ++ [.started u]) = submissions es := by simp [submissions]
  have hnone : refusals (es ++ [.started u]) = [] := by simpa [refusals] using h.refused isOpen
  exact {
    name_eq := h.name_eq
    capacity_eq := h.capacity_eq
    isDriven := h.isDriven
    permits := by
      have := h.permits
      simp only [List.length_append, List.length_singleton]
      omega
    tickets := by rw [hsame, h.tickets]
    order := by
      rw [hsame, hnew, hnone, h.order, h.refused isOpen, hqueued]
      simp
    admitted := by rw [hnew, List.map_append, h.admitted, List.map_singleton]
    closed := by simp [h.closed]
    refused := fun _ => hnone
    ran := by
      have hcompletions : completions (es ++ [.started u]) = completions es := by
        simp [completions]
      rw [hnew, hcompletions, List.append_assoc]
      refine (List.perm_append_comm.append_left _).trans ?_
      rw [← List.append_assoc]
      exact h.ran.append_right [u]
    settled := by simp [h.settled, settlements] }

theorem Accounted.refuse {u : PoolUnit ω} (h : Accounted name capacity es p)
    (head : p.queued.head? = some u) (isClosed : p.isClosed = true) (taken : p.admit? = some q) :
    Accounted name capacity (es ++ [.refused u]) q := by
  obtain ⟨queued, hqueued, rfl⟩ := admit?_of_closed head isClosed taken
  have hnew : refusals (es ++ [.refused u]) = refusals es ++ [u] := by simp [refusals]
  have hsame : submissions (es ++ [.refused u]) = submissions es := by simp [submissions]
  have hadmissions : admissions (es ++ [.refused u]) = admissions es := by simp [admissions]
  exact {
    name_eq := h.name_eq
    capacity_eq := h.capacity_eq
    isDriven := h.isDriven
    permits := h.permits
    tickets := by rw [hsame, h.tickets]
    order := by
      rw [hsame, hnew, hadmissions, h.order, hqueued]
      simp
    admitted := by rw [hadmissions, h.admitted]
    closed := by simp [h.closed]
    refused := fun hopen => absurd (hopen.symm.trans isClosed) (by decide)
    ran := by
      rw [hadmissions]
      simpa [completions] using h.ran
    settled := by simp [closedResult, h.name_eq, h.settled, settlements] }

theorem Accounted.finish {i : Nat} {u : PoolUnit ω} (h : Accounted name capacity es p)
    (running : p.running[i]? = some u) (result : JobResult) :
    Accounted name capacity (es ++ [.finished u result]) (p.finishAt i result) := by
  rw [finishAt_of_running running]
  have hperm := cons_eraseIdx_perm running
  have hnew : completions (es ++ [.finished u result]) = completions es ++ [(u, result)] := by
    simp [completions]
  have hadmissions : admissions (es ++ [.finished u result]) = admissions es := by
    simp [admissions]
  exact {
    name_eq := h.name_eq
    capacity_eq := h.capacity_eq
    isDriven := h.isDriven
    permits := by
      have hlength := hperm.length_eq
      have hpermits := h.permits
      rw [List.length_cons] at hlength
      dsimp only
      omega
    tickets := by simpa [submissions] using h.tickets
    order := by simpa [submissions, admissions, refusals] using h.order
    admitted := by rw [hadmissions, h.admitted]
    closed := by simp [h.closed]
    refused := fun hopen => by simpa [refusals] using h.refused hopen
    ran := by
      rw [hadmissions, hnew, List.map_append, ← List.append_assoc]
      refine (List.perm_append_singleton ..).trans ?_
      exact (hperm.append_right ((completions es).map Prod.fst)).trans h.ran
    settled := by simp [h.settled, settlements] }

theorem Accounted.close (h : Accounted name capacity es p) :
    Accounted name capacity (es ++ [.closed]) p.close where
  name_eq := h.name_eq
  capacity_eq := h.capacity_eq
  isDriven := h.isDriven
  permits := h.permits
  tickets := by simpa [submissions, Pool.close] using h.tickets
  order := by simpa [submissions, admissions, refusals, Pool.close] using h.order
  admitted := by simpa [admissions, Pool.close] using h.admitted
  closed := by simp [Pool.close]
  refused hopen := by cases hopen
  ran := by simpa [admissions, completions, Pool.close] using h.ran
  settled := by simpa [settlements, Pool.close] using h.settled

/-- The account of a pool is kept by every step. -/
theorem Accounted.step {e : Event ω} (h : Accounted name capacity es p) (step : Step p e q) :
    Accounted name capacity (es ++ [e]) q := by
  cases step with
  | submit c work => exact h.submit c work
  | start head isOpen taken => exact h.start head isOpen taken
  | refuse head isClosed taken => exact h.refuse head isClosed taken
  | finish running result => exact h.finish running result
  | close => exact h.close

/-- The account of a pool is right after every run. -/
theorem Run.accounted (h : Run (new name capacity) es p) : Accounted name capacity es p := by
  induction h with
  | start => exact accounted_new name capacity
  | step _ step ih => exact ih.step step

variable {start : Pool ω} {es' : List (Event ω)}

/-- A run may be cut at any place of its log. -/
theorem Run.cut (h : Run start (es ++ es') q) : ∃ p, Run start es p ∧ Run p es' q := by
  induction es' using List.reverseRecOn generalizing q with
  | nil =>
    rw [List.append_nil] at h
    exact ⟨q, h, .start⟩
  | append_singleton es' e ih =>
    rw [← List.append_assoc] at h
    generalize hlog : es ++ es' ++ [e] = log at h
    cases h with
    | start => simp at hlog
    | step run step =>
      obtain ⟨hes, he⟩ := List.append_inj' hlog rfl
      cases he
      subst hes
      obtain ⟨p, hbefore, hafter⟩ := ih run
      exact ⟨p, hbefore, hafter.step step⟩

/-- Cut a run at an event. -/
theorem Run.cut_event {e : Event ω} (h : Run start (es ++ e :: es') q) :
    ∃ p r, Run start es p ∧ Step p e r ∧ Run r es' q := by
  rw [← List.singleton_append, ← List.append_assoc] at h
  obtain ⟨r, hbefore, hafter⟩ := h.cut
  generalize hlog : es ++ [e] = log at hbefore
  cases hbefore with
  | start => simp at hlog
  | step run step =>
    obtain ⟨hes, he⟩ := List.append_inj' hlog rfl
    cases he
    subst hes
    exact ⟨_, r, run, step, hafter⟩

theorem Step.isClosed {e : Event ω} (h : Step p e q) (closed : p.isClosed = true) :
    q.isClosed = true ∧ admissions [e] = [] := by
  cases h with
  | submit c work => exact ⟨(isClosed_submit p c work).trans closed, rfl⟩
  | start head isOpen => exact absurd (closed.symm.trans isOpen) (by decide)
  | refuse head isClosed taken =>
    obtain ⟨queued, -, rfl⟩ := admit?_of_closed head isClosed taken
    exact ⟨closed, rfl⟩
  | finish running result =>
    rw [finishAt_of_running running]
    exact ⟨closed, rfl⟩
  | close => exact ⟨rfl, rfl⟩

/-- A closed pool stays closed and admits no unit. -/
theorem Run.isClosed (h : Run p es q) (closed : p.isClosed = true) :
    q.isClosed = true ∧ admissions es = [] := by
  induction h with
  | start => exact ⟨closed, rfl⟩
  | @step es e p q run step ih =>
    obtain ⟨hclosed, hnone⟩ := ih
    obtain ⟨hclosed', hnone'⟩ := step.isClosed hclosed
    refine ⟨hclosed', ?_⟩
    rw [admissions, List.filterMap_append]
    change admissions es ++ admissions [e] = []
    rw [hnone, hnone', List.append_nil]

end JobGateway.Pool
