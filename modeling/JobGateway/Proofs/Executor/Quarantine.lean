import JobGateway.Proofs.Executor.Answers
import JobGateway.Proofs.Executor.Staff
import Mathlib.Data.List.Perm.Subperm

/-! What a process that misbehaves can spoil. Whatever the processes of a pool do, one that fails a
request is killed for it and is sent nothing more. So it fails one request at most, and all failures
that the pool makes are put down to different processes, or to processes that could not be started. -/
namespace JobGateway

variable {ε π : Type}

/-- What a unit tried to be answered. -/
inductive Attempt where
  /-- The process under a number was sent the request line, and a line was read in reply; none is read
  if the process did not take the request line. -/
  | called (number : Nat) (u : PoolUnit RequestLine) (reply : Option (List UInt8))
  /-- No process was idle, and none could be started. -/
  | unstarted (u : PoolUnit RequestLine)

namespace Attempt

def unit : Attempt → PoolUnit RequestLine
  | .called _ u _ => u
  | .unstarted u => u

/-- The number of the process that was called. -/
def number? : Attempt → Option Nat
  | .called number _ _ => some number
  | .unstarted _ => none

/-- The call, if the process took the request line. -/
def written? : Attempt → Option Call
  | .called number u reply => reply.map fun reply => ⟨u.ticket, number, u.work.line, reply⟩
  | .unstarted _ => none

/-- The result that the process gave, if it gave one. -/
def result? : Attempt → Option JobResult
  | .called _ u (some reply) => (acceptLine u.work.id reply).toOption
  | _ => none

def failed (a : Attempt) : Bool := a.result?.isNone

def isUnstarted : Attempt → Bool
  | .called .. => false
  | .unstarted _ => true

variable {a : Attempt} {result : JobResult}

/-- A process gave a result exactly if it replied with that result under the identifier of the request.
-/
theorem result?_eq_some_iff : a.result? = some result ↔
    ∃ number u reply, a = .called number u (some reply) ∧ Reads reply (.done u.work.id result) := by
  constructor
  · intro h
    obtain ⟨number, u, _ | reply⟩ | u := a
    · cases h
    · refine ⟨number, u, reply, rfl, acceptLine_eq_ok_iff.1 ?_⟩
      cases haccept : acceptLine u.work.id reply with
      | error e => simp [result?, haccept, Except.toOption] at h
      | ok accepted =>
        simp only [result?, haccept, Except.toOption, Option.some.injEq] at h
        rw [h]
    · cases h
  · rintro ⟨number, u, reply, rfl, hreads⟩
    rw [result?, acceptLine_eq_ok_iff.2 hreads]
    rfl

/-- What a call answers is what becomes of the attempt. -/
theorem result?_called (program : WorkerProgram ε π) (m : Member π) (u : PoolUnit RequestLine)
    (shared : ε) :
    (called m.number u (m.process.reply? program u.work.line shared)).result? =
      (m.process.call program u.work.id u.work.line shared).1.1.toOption := by
  have hcall := Crew.call_reply? program m.process shared u.work
  cases hreply : m.process.reply? program u.work.line shared with
  | none =>
    rw [hreply] at hcall
    obtain ⟨e, he, -⟩ := hcall
    rw [he]
    rfl
  | some reply =>
    rw [hreply] at hcall
    dsimp only at hcall
    rw [hcall]
    rfl

/-- Every attempt calls a process or fails to start one. -/
theorem length_eq (log : List Attempt) :
    log.length = (log.filterMap number?).length + log.countP isUnstarted := by
  induction log with
  | nil => rfl
  | cons a log ih =>
    cases a with
    | called =>
      rw [List.filterMap_cons_some (f := number?) rfl,
        List.countP_cons_of_neg (p := isUnstarted) (a := .called ..) Bool.false_ne_true]
      simp only [List.length_cons, ih]
      omega
    | unstarted =>
      rw [List.filterMap_cons_none (f := number?) rfl,
        List.countP_cons_of_pos (p := isUnstarted) rfl]
      simp only [List.length_cons, ih]
      omega

end Attempt

/-- The process of a unit, unless it has failed the unit. -/
def Duty.trusted? : Duty π → Option (Member π)
  | .ask m => some m
  | .leave m (.ok _) => some m
  | _ => none

theorem Duty.member?_of_trusted? {duty : Duty π} {m : Member π} (h : duty.trusted? = some m) :
    duty.member? = some m := by
  cases duty with
  | ask => exact h
  | leave _ answer =>
    cases answer with
    | error => cases h
    | ok => exact h
  | _ => cases h

/-- A unit has failed an attempt. -/
def HasFailed (log : List Attempt) (u : PoolUnit RequestLine) : Prop :=
  ∃ a ∈ log, a.unit = u ∧ a.failed = true

/-- What a task has in hand was read in reply to it, or is put down to an attempt that failed. -/
def Task.IsBlamed (log : List Attempt) (calls : List Call) (t : Task π) : Prop :=
  match t.duty with
  | .leave _ (.error _) => HasFailed log t.unit
  | .resolve result => IsAnswered calls t.unit result ∨ HasFailed log t.unit
  | _ => True

section Mono

variable {log log' : List Attempt} {calls calls' : List Call} {u : PoolUnit RequestLine}

theorem HasFailed.mono (h : log ⊆ log') (hu : HasFailed log u) : HasFailed log' u := by
  obtain ⟨a, ha, hu⟩ := hu
  exact ⟨a, h ha, hu⟩

theorem Task.IsBlamed.mono (hlog : log ⊆ log') (hcalls : calls ⊆ calls') {t : Task π}
    (ht : t.IsBlamed log calls) : t.IsBlamed log' calls' := by
  obtain ⟨u, duty⟩ := t
  cases duty with
  | leave m answer =>
    cases answer with
    | error e => exact HasFailed.mono hlog ht
    | ok result => trivial
  | resolve result => exact Or.imp (IsAnswered.mono hcalls) (HasFailed.mono hlog) ht
  | _ => trivial

end Mono

namespace Crew

open Pool (Event)

/-- What the task at a position tries when it goes on. -/
def attempt? (program : WorkerProgram ε π) (c : Crew ε π) (i : Nat) : Option Attempt :=
  match c.tasks[i]? with
  | some ⟨u, .start⟩ =>
    if (WorkerProcess.start program c.shared).1.toBool then none else some (.unstarted u)
  | some ⟨u, .ask m⟩ =>
    some (.called m.number u (m.process.reply? program u.work.line c.shared))
  | _ => none

/-- A run, with all that its units tried, in order. -/
inductive Course (program : WorkerProgram ε π) (start : Crew ε π) :
    List (Event RequestLine) → List Attempt → Crew ε π → Prop
  | start : Course program start [] [] start
  | act {es : List (Event RequestLine)} {log : List Attempt} {c c' : Crew ε π} {i : Nat}
      (course : Course program start es log c) (act : c.act? program i = some c') :
    Course program start es (log ++ (c.attempt? program i).toList) c'
  /-- A step by which no task goes on. -/
  | other {es es' : List (Event RequestLine)} {log : List Attempt} {c c' : Crew ε π}
      (course : Course program start es log c) (step : Step program c es' c')
      (still : ∀ i, c.act? program i ≠ some c') :
    Course program start (es ++ es') log c'

variable {program : WorkerProgram ε π} {c c' c₁ start : Crew ε π} {i : Nat}
  {u : PoolUnit RequestLine} {duty duty' : Duty π} {es es' : List (Event RequestLine)}
  {log : List Attempt} {capacity : Nat} {p : ProcessPool ε π} {m : Member π}

theorem Course.run (h : Course program start es log c) : Run program start es c := by
  induction h with
  | start => exact .start
  | @act es _ _ _ _ _ act ih =>
    rw [← List.append_nil es]
    exact ih.step (.act act)
  | other _ step _ ih => exact ih.step step

/-- A step that is one of a task is no event of the pool. -/
theorem Step.eq_nil_of_act (h : Step program c es' c') (hpaired : c.Paired)
    (act : c.act? program i = some c') : es' = [] := by
  obtain ⟨u, duty, htask, hact⟩ := act?_eq act
  obtain ⟨hpool, hholding, hissued, -⟩ := hact.frame
  cases h with
  | submit request =>
    rw [dispatch_ok request] at hissued
    exact absurd hissued (Nat.succ_ne_self _)
  | start head isOpen taken =>
    obtain ⟨pool, hadmit, -, -, rfl⟩ := admit?_of_open hpaired head isOpen taken
    exact absurd (Pool.remaining_admit? hadmit) (by rw [← hpool]; exact Nat.lt_irrefl _)
  | refuse head isClosed taken =>
    obtain ⟨pool, hadmit, -, -, -, rfl⟩ := admit?_of_closed hpaired head isClosed taken
    exact absurd (Pool.remaining_admit? hadmit) (by rw [← hpool]; exact Nat.lt_irrefl _)
  | resolve task resolve =>
    rw [resolve?_eq task resolve] at hholding
    exact absurd hholding (Nat.succ_ne_self _)
  | close =>
    obtain ⟨duty', htask', hlt⟩ := hact.remaining_lt (List.getElem?_eq_some_iff.1 htask).1
    change c.tasks[i]? = _ at htask'
    rw [htask] at htask'
    cases htask'
    exact absurd hlt (Nat.lt_irrefl _)
  | _ => rfl

/-- Every run is the course of some attempts. -/
theorem Run.course (h : Run program start es c) (hpaired : start.Paired) :
    ∃ log, Course program start es log c := by
  induction h with
  | start => exact ⟨[], .start⟩
  | @step es es' c c' run step ih =>
    obtain ⟨log, hcourse⟩ := ih
    by_cases hact : ∃ i, c.act? program i = some c'
    · obtain ⟨i, hact⟩ := hact
      rw [step.eq_nil_of_act (run.units hpaired).1 hact, List.append_nil]
      exact ⟨_, hcourse.act hact⟩
    · exact ⟨log, hcourse.other step (not_exists.1 hact)⟩

/-- What is known of the attempts of a crew. -/
structure Blamed (es : List (Event RequestLine)) (log : List Attempt) (c : Crew ε π) : Prop where
  calls : log.filterMap Attempt.written? = c.calls
  numbers : ∀ a ∈ log, ∀ n ∈ a.number?, n < c.started
  /-- A process that failed is not called again. -/
  last : log.Pairwise fun a b => a.failed = true → ∀ n ∈ a.number?, n ∉ b.number?
  trusted : ∀ m, (m ∈ c.idle ∨ ∃ t ∈ c.tasks, t.duty.trusted? = some m) →
    ∀ a ∈ log, a.failed = true → m.number ∉ a.number?
  /-- A process that failed is killed, or will be by the task that has it. -/
  outcast : ∀ a ∈ log, a.failed = true → ∀ n ∈ a.number?,
    n ∈ c.killed ∨ ∃ m e, ⟨a.unit, .leave m (.error e)⟩ ∈ c.tasks ∧ m.number = n
  tasks : ∀ t ∈ c.tasks, t.IsBlamed log c.calls
  finished : ∀ u result, .finished u result ∈ es → IsAnswered c.calls u result ∨ HasFailed log u

/-- What happens to no task, and calls no process. -/
theorem Blamed.of_eq (h : Blamed es log c) (htasks : c'.tasks = c.tasks) (hcalls : c'.calls = c.calls)
    (hstarted : c'.started = c.started) (hidle : c'.idle ⊆ c.idle) (hkilled : c.killed ⊆ c'.killed)
    (hfinished : ∀ u result, .finished u result ∉ es') : Blamed (es ++ es') log c' where
  calls := hcalls ▸ h.calls
  numbers := hstarted ▸ h.numbers
  last := h.last
  trusted m hm := h.trusted m (hm.imp (fun hm => hidle hm) fun hm => htasks ▸ hm)
  outcast a ha hfailed n hn := by
    rw [htasks]
    exact (h.outcast a ha hfailed n hn).imp (fun hn => hkilled hn) id
  tasks := by
    rw [htasks, hcalls]
    exact h.tasks
  finished u result hmem := by
    rw [hcalls]
    exact h.finished u result ((List.mem_append.1 hmem).resolve_right (hfinished u result))

theorem Blamed.admitted (h : Blamed es log c) (u : PoolUnit RequestLine) (pool : Pool RequestLine) :
    Blamed (es ++ [.started u]) log { c with pool, tasks := c.tasks ++ [⟨u, .look⟩] } where
  calls := h.calls
  numbers := h.numbers
  last := h.last
  trusted m hm := by
    refine h.trusted m (hm.imp id ?_)
    rintro ⟨t, ht, htrusted⟩
    obtain ht | ht := List.mem_append.1 ht
    · exact ⟨t, ht, htrusted⟩
    · obtain rfl := List.mem_singleton.1 ht
      cases htrusted
  outcast a ha hfailed n hn := by
    refine (h.outcast a ha hfailed n hn).imp id ?_
    rintro ⟨m, e, ht, hm⟩
    exact ⟨m, e, List.mem_append_left _ ht, hm⟩
  tasks t ht := by
    obtain ht | ht := List.mem_append.1 ht
    · exact h.tasks t ht
    · obtain rfl := List.mem_singleton.1 ht
      trivial
  finished v result hmem :=
    h.finished v result ((List.mem_append.1 hmem).resolve_right (by simp))

/-- A start that fails is nothing to any process. -/
theorem Blamed.unstarted (h : Blamed es log c) (u : PoolUnit RequestLine) :
    Blamed es (log ++ [.unstarted u]) c := by
  have hnew {a : Attempt} (ha : a ∈ log ++ [.unstarted u]) {n : Nat} (hn : n ∈ a.number?) :
      a ∈ log := by
    obtain ha | ha := List.mem_append.1 ha
    · exact ha
    · obtain rfl := List.mem_singleton.1 ha
      cases hn
  have hgrow : log ⊆ log ++ [.unstarted u] := List.subset_append_left ..
  refine ⟨?_, ?_, ?_, ?_, ?_, ?_, ?_⟩
  · rw [List.filterMap_append, h.calls]
    exact List.append_nil _
  · exact fun a ha n hn => h.numbers a (hnew ha hn) n hn
  · rw [List.pairwise_append]
    refine ⟨h.last, List.pairwise_singleton .., ?_⟩
    rintro a - b hb - n - hn
    obtain rfl := List.mem_singleton.1 hb
    cases hn
  · exact fun m hm a ha hfailed hn => h.trusted m hm a (hnew ha hn) hfailed hn
  · exact fun a ha hfailed n hn => h.outcast a (hnew ha hn) hfailed n hn
  · exact fun t ht => (h.tasks t ht).mono hgrow (List.Subset.refl _)
  · exact fun v result hmem => (h.finished v result hmem).imp id (.mono hgrow)

/-- A task other than the one that goes on stays. -/
theorem eq_or_mem_set {tasks : List (Task π)} {t t' : Task π} (task : tasks[i]? = some t) {s : Task π}
    (hs : s ∈ tasks) : s = t ∨ s ∈ tasks.set i t' :=
  (List.mem_cons.1 ((tasks_perm task).subset hs)).imp id fun hs =>
    (set_tasks_perm task t').symm.subset (List.mem_cons_of_mem _ hs)

theorem mem_of_mem_set {tasks : List (Task π)} {t t' : Task π} (task : tasks[i]? = some t)
    {s : Task π} (hs : s ∈ tasks.set i t') : s = t' ∨ s ∈ tasks.eraseIdx i :=
  List.mem_cons.1 ((set_tasks_perm task t').subset hs)

/-- The process that a task calls is trusted by no other task, and is not idle. -/
theorem Staffed.trusted_ne (h : Staffed c) (task : c.tasks[i]? = some ⟨u, .ask m⟩) {m' : Member π}
    (hm' : m' ∈ c.idle ∨ ∃ t ∈ c.tasks.eraseIdx i, t.duty.trusted? = some m') :
    m'.number ≠ m.number := by
  refine h.number_ne task (List.mem_append.2 (hm'.imp id ?_))
  rintro ⟨t, ht, hm'⟩
  exact mem_serving.2 ⟨t, ht, Duty.member?_of_trusted? hm'⟩

/-- A task that goes on without a call. The processes that it trusts then were trusted before, or were
started just now; and if it had a process that failed it, it has killed it. -/
theorem Blamed.assign (h : Blamed es log c) (task : c.tasks[i]? = some ⟨u, duty⟩)
    (htasks : c₁.tasks = c.tasks) (hcalls : c₁.calls = c.calls) (hstarted : c.started ≤ c₁.started)
    (hkilled : c.killed ⊆ c₁.killed)
    (htrusted : ∀ m, m ∈ c₁.idle ∨ duty'.trusted? = some m →
      m ∈ c.idle ∨ duty.trusted? = some m ∨ m.number = c.started)
    (houtcast : ∀ m e, duty = .leave m (.error e) → m.number ∈ c₁.killed)
    (hblamed : Task.IsBlamed log c.calls ⟨u, duty'⟩) : Blamed es log (c₁.assign i u duty') := by
  have hafter : ∀ t ∈ (c₁.assign i u duty').tasks, t ∈ c.tasks ∨ t = ⟨u, duty'⟩ := by
    intro t ht
    rw [Crew.assign, htasks] at ht
    exact List.mem_or_eq_of_mem_set ht
  refine ⟨hcalls ▸ h.calls, ?_, h.last, ?_, ?_, ?_, hcalls ▸ h.finished⟩
  · exact fun a ha n hn => Nat.lt_of_lt_of_le (h.numbers a ha n hn) hstarted
  · intro m hm a ha hfailed hn
    have hbefore : m ∈ c₁.idle ∨ duty'.trusted? = some m ∨
        ∃ t ∈ c.tasks, t.duty.trusted? = some m := by
      obtain hm | ⟨t, ht, hm⟩ := hm
      · exact .inl hm
      · obtain ht | rfl := hafter t ht
        · exact .inr (.inr ⟨t, ht, hm⟩)
        · exact .inr (.inl hm)
    have hknown : ∀ m', (m' ∈ c.idle ∨ duty.trusted? = some m' ∨ m'.number = c.started) →
        m'.number ∉ a.number? := by
      rintro m' (hm' | hm' | hm') hn'
      · exact h.trusted m' (.inl hm') a ha hfailed hn'
      · exact h.trusted m' (.inr ⟨_, List.mem_of_getElem? task, hm'⟩) a ha hfailed hn'
      · exact absurd (h.numbers a ha _ hn') (by rw [hm']; exact Nat.lt_irrefl _)
    obtain hm | hm | hm := hbefore
    · exact hknown m (htrusted m (.inl hm)) hn
    · exact hknown m (htrusted m (.inr hm)) hn
    · exact h.trusted m (.inr hm) a ha hfailed hn
  · intro a ha hfailed n hn
    obtain hn | ⟨m, e, ht, rfl⟩ := h.outcast a ha hfailed n hn
    · exact .inl (hkilled hn)
    · rw [Crew.assign, htasks]
      obtain ht | ht := eq_or_mem_set task ht
      · cases ht
        exact .inl (houtcast m e rfl)
      · exact .inr ⟨m, e, ht, rfl⟩
  · intro t ht
    rw [Crew.assign, hcalls]
    obtain ht | rfl := hafter t ht
    · exact h.tasks t ht
    · exact hblamed

/-- A task that calls its process. -/
theorem Blamed.ask (h : Blamed es log c) (hstaffed : Staffed c)
    (task : c.tasks[i]? = some ⟨u, .ask m⟩) :
    Blamed es (log ++ [.called m.number u (m.process.reply? program u.work.line c.shared)])
      (c.ask program i u m) := by
  have hresult := Attempt.result?_called program m u c.shared
  rw [ask_eq]
  generalize m.process.call program u.work.id u.work.line c.shared = run at hresult ⊢
  obtain ⟨⟨answer, process⟩, shared⟩ := run
  generalize m.process.reply? program u.work.line c.shared = reply at hresult ⊢
  dsimp only at hresult ⊢
  have hmine : m ∈ c.idle ∨ ∃ t ∈ c.tasks, t.duty.trusted? = some m :=
    .inr ⟨_, List.mem_of_getElem? task, rfl⟩
  have hgrow : log ⊆ log ++ [.called m.number u reply] := List.subset_append_left ..
  have hfailed : ∀ {a}, a ∈ [Attempt.called m.number u reply] → a.failed = true →
      ∃ e, answer = .error e := by
    intro a ha hfailed
    obtain rfl := List.mem_singleton.1 ha
    rw [Attempt.failed, hresult] at hfailed
    cases answer with
    | error e => exact ⟨e, rfl⟩
    | ok result => cases hfailed
  have hnumber : ∀ {a n}, a ∈ [Attempt.called m.number u reply] → n ∈ a.number? → n = m.number := by
    intro a n ha hn
    obtain rfl := List.mem_singleton.1 ha
    exact (Option.some.inj hn).symm
  refine ⟨?_, ?_, ?_, ?_, ?_, ?_, ?_⟩
  · rw [List.filterMap_append, h.calls]
    cases reply <;> rfl
  · intro a ha n hn
    obtain ha | ha := List.mem_append.1 ha
    · exact h.numbers a ha n hn
    · rw [hnumber ha hn]
      exact hstaffed.number_lt
        (List.mem_append_right _ (mem_serving.2 ⟨_, List.mem_of_getElem? task, rfl⟩))
  · rw [List.pairwise_append]
    refine ⟨h.last, List.pairwise_singleton .., fun a ha b hb hfailed n hn hn' => ?_⟩
    rw [hnumber hb hn'] at hn
    exact h.trusted m hmine a ha hfailed hn
  · intro m' hm' a ha hfail hn
    have hwhich : (m' ∈ c.idle ∨ ∃ t ∈ c.tasks.eraseIdx i, t.duty.trusted? = some m') ∨
        m'.number = m.number ∧ ∃ result, answer = .ok result := by
      obtain hm' | ⟨t, ht, hm'⟩ := hm'
      · exact .inl (.inl hm')
      · obtain rfl | ht := mem_of_mem_set task ht
        · cases answer with
          | error e => cases hm'
          | ok result =>
            cases hm'
            exact .inr ⟨rfl, result, rfl⟩
        · exact .inl (.inr ⟨t, ht, hm'⟩)
    obtain ha | ha := List.mem_append.1 ha
    · obtain hm' | ⟨hsame, -⟩ := hwhich
      · refine h.trusted m' (hm'.imp id ?_) a ha hfail hn
        rintro ⟨t, ht, hm'⟩
        exact ⟨t, List.mem_of_mem_eraseIdx ht, hm'⟩
      · exact h.trusted m hmine a ha hfail (hsame ▸ hn)
    · obtain ⟨e, rfl⟩ := hfailed ha hfail
      obtain hm' | ⟨-, result, hresult⟩ := hwhich
      · exact hstaffed.trusted_ne task hm' (hnumber ha hn)
      · cases hresult
  · intro a ha hfail n hn
    obtain ha | ha := List.mem_append.1 ha
    · refine (h.outcast a ha hfail n hn).imp id ?_
      rintro ⟨m', e, ht, hm'⟩
      obtain ht | ht := eq_or_mem_set task ht
      · cases ht
      · exact ⟨m', e, ht, hm'⟩
    · obtain ⟨e, rfl⟩ := hfailed ha hfail
      rw [hnumber ha hn]
      obtain rfl := List.mem_singleton.1 ha
      exact .inr ⟨_, e, (set_tasks_perm task _).symm.subset List.mem_cons_self, rfl⟩
  · intro t ht
    obtain rfl | ht := mem_of_mem_set task ht
    · cases answer with
      | error e =>
        refine ⟨_, List.mem_append_right _ (List.mem_singleton_self _), rfl, ?_⟩
        rw [Attempt.failed, hresult]
        rfl
      | ok result => trivial
    · exact (h.tasks t (List.mem_of_mem_eraseIdx ht)).mono hgrow (List.subset_append_left ..)
  · intro v result hmem
    exact (h.finished v result hmem).imp (.mono (List.subset_append_left ..)) (.mono hgrow)

theorem Blamed.act (h : Blamed es log c) (hstaffed : Staffed c) (htold : Told es c)
    (act : c.act? program i = some c') :
    Blamed es (log ++ (c.attempt? program i).toList) c' := by
  obtain ⟨u, duty, htask, hact⟩ := act?_eq act
  have hmem := List.mem_of_getElem? htask
  have hkept := List.Subset.refl c.killed
  have hquiet : c.attempt? program i = none → Blamed es log c' →
      Blamed es (log ++ (c.attempt? program i).toList) c' := by
    intro hnone h'
    rwa [hnone, Option.toList_none, List.append_nil]
  cases hact with
  | take hidle =>
    refine hquiet (by rw [attempt?, htask])
      (h.assign htask rfl rfl (Nat.le_refl _) hkept ?_ nofun trivial)
    rintro m' (hm | hm)
    · exact .inl (hidle ▸ List.mem_cons_of_mem _ hm)
    · obtain rfl := Option.some.inj hm
      exact .inl (hidle ▸ List.mem_cons_self)
  | miss hidle =>
    refine hquiet (by rw [attempt?, htask])
      (h.assign htask rfl rfl (Nat.le_refl _) hkept ?_ nofun trivial)
    rintro m' (hm | hm)
    · exact .inl hm
    · cases hm
  | start hstart =>
    have hnone : c.attempt? program i = none := by
      rw [attempt?, htask]
      exact if_pos (by rw [hstart]; rfl)
    refine hquiet hnone (h.assign htask rfl rfl (Nat.le_succ _) hkept ?_ nofun trivial)
    rintro m' (hm | hm)
    · exact .inl hm
    · obtain rfl := Option.some.inj hm
      exact .inr (.inr rfl)
  | fail hstart =>
    have hunstarted : c.attempt? program i = some (.unstarted u) := by
      rw [attempt?, htask]
      exact if_neg (by rw [hstart]; exact Bool.false_ne_true)
    rw [hunstarted]
    refine (h.unstarted u).assign htask rfl rfl (Nat.le_refl _) hkept ?_ nofun (.inr ?_)
    · rintro m' (hm | hm)
      · exact .inl hm
      · cases hm
    · exact ⟨_, List.mem_append_right _ (List.mem_singleton_self _), rfl, rfl⟩
  | ask m =>
    have hcalled : c.attempt? program i =
        some (.called m.number u (m.process.reply? program u.work.line c.shared)) := by
      rw [attempt?, htask]
    rw [hcalled]
    exact h.ask hstaffed htask
  | keep =>
    refine hquiet (by rw [attempt?, htask])
      (h.assign htask rfl rfl (Nat.le_refl _) hkept ?_ nofun (.inl (htold.sound _ hmem)))
    rintro m' (hm | hm)
    · obtain rfl | hm := List.mem_cons.1 hm
      · exact .inr (.inl rfl)
      · exact .inl hm
    · cases hm
  | kill =>
    refine hquiet (by rw [attempt?, htask]) (h.assign htask rfl rfl (Nat.le_refl _)
      (List.subset_append_left ..) ?_ nofun (.inl (htold.sound _ hmem)))
    rintro m' (hm | hm)
    · exact .inl hm
    · cases hm
  | discard =>
    refine hquiet (by rw [attempt?, htask]) (h.assign htask rfl rfl (Nat.le_refl _)
      (List.subset_append_left ..) ?_ ?_ (.inr (h.tasks _ hmem)))
    · rintro m' (hm | hm)
      · exact .inl hm
      · cases hm
    · rintro m e hduty
      cases hduty
      exact List.mem_append_right _ (List.mem_singleton_self _)

theorem Blamed.resolve (h : Blamed es log c) {result : JobResult}
    (task : c.tasks[i]? = some ⟨u, .resolve result⟩) (resolve : c.resolve? i = some c') :
    Blamed (es ++ [Event.finished u result]) log c' := by
  obtain rfl := resolve?_eq task resolve
  refine ⟨h.calls, h.numbers, h.last, ?_, ?_, ?_, ?_⟩
  · intro m hm
    refine h.trusted m (hm.imp id ?_)
    rintro ⟨t, ht, hm⟩
    exact ⟨t, List.mem_of_mem_eraseIdx ht, hm⟩
  · intro a ha hfailed n hn
    refine (h.outcast a ha hfailed n hn).imp id ?_
    rintro ⟨m, e, ht, hm⟩
    obtain ht | ht := List.mem_cons.1 ((tasks_perm task).subset ht)
    · cases ht
    · exact ⟨m, e, ht, hm⟩
  · exact fun t ht => h.tasks t (List.mem_of_mem_eraseIdx ht)
  · intro v r hfinished
    obtain hfinished | hfinished := List.mem_append.1 hfinished
    · exact h.finished v r hfinished
    · cases List.mem_singleton.1 hfinished
      exact h.tasks _ (List.mem_of_getElem? task)

/-- A step by which no task goes on keeps what is known of the attempts. -/
theorem Blamed.other (h : Blamed es log c) (hpaired : c.Paired) (step : Step program c es' c')
    (still : ∀ i, c.act? program i ≠ some c') : Blamed (es ++ es') log c' := by
  have hsame := List.Subset.refl c.idle
  have hkept := List.Subset.refl c.killed
  cases step with
  | reject unwritable =>
    rw [dispatch_error unwritable]
    exact h.of_eq rfl rfl rfl hsame hkept (by simp)
  | submit request =>
    rw [dispatch_ok request]
    exact h.of_eq rfl rfl rfl hsame hkept (by simp)
  | start head isOpen taken =>
    obtain ⟨pool, -, -, -, rfl⟩ := admit?_of_open hpaired head isOpen taken
    exact h.admitted _ pool
  | refuse head isClosed taken =>
    obtain ⟨pool, -, -, -, -, rfl⟩ := admit?_of_closed hpaired head isClosed taken
    exact h.of_eq rfl rfl rfl hsame hkept (by simp)
  | act act => exact absurd act (still _)
  | resolve task resolve => exact h.resolve task resolve
  | release release =>
    obtain ⟨-, rfl⟩ := release?_eq release
    exact h.of_eq rfl rfl rfl hsame hkept (by simp)
  | close => exact h.of_eq rfl rfl rfl hsame hkept (by simp)
  | drain drain =>
    obtain ⟨-, rfl⟩ := drain?_eq drain
    exact h.of_eq rfl rfl rfl (List.nil_subset _) (List.subset_append_left ..) (by simp)

theorem blamed_ofPool : Blamed [] [] (ofPool p) where
  calls := rfl
  numbers _ ha := absurd ha List.not_mem_nil
  last := .nil
  trusted _ _ _ ha := absurd ha List.not_mem_nil
  outcast _ ha := absurd ha List.not_mem_nil
  tasks _ ht := absurd ht List.not_mem_nil
  finished _ _ hmem := absurd hmem List.not_mem_nil

/-- What is known of the attempts holds after every course. -/
theorem Course.blamed (hp : p.Built capacity) (h : Course program (.ofPool p) es log c) :
    Blamed es log c := by
  induction h with
  | start => exact blamed_ofPool
  | act course act ih => exact ih.act (course.run.staffed hp) (course.run.told hp) act
  | other course step still ih => exact ih.other (course.run.accounted hp).1 step still

/-- A process fails no request but the last of those that it is sent. -/
theorem Blamed.exists_result (h : Blamed es log c) {n : Nat} {a : Attempt}
    (ha : a ∈ (log.filter (·.number? = some n)).dropLast) : ∃ result, a.result? = some result := by
  have hpairs := h.last.filter (·.number? = some n)
  have hnumber : ∀ b ∈ log.filter (·.number? = some n), b.number? = some n := by
    intro b hb
    exact of_decide_eq_true (List.mem_filter.1 hb).2
  generalize log.filter (·.number? = some n) = sent at ha hpairs hnumber
  obtain rfl | ⟨front, b, rfl⟩ := List.eq_nil_or_concat sent
  · cases ha
  rw [List.concat_eq_append] at ha hpairs hnumber
  rw [List.dropLast_concat] at ha
  have hfine := (List.pairwise_append.1 hpairs).2.2 a ha b (List.mem_singleton_self b)
  rw [← Option.isSome_iff_exists, ← Option.not_isNone, Bool.not_eq_true', Bool.eq_false_iff]
  exact fun hfailed => hfine hfailed n (hnumber a (List.mem_append_left _ ha))
    (hnumber b (List.mem_append_right _ (List.mem_singleton_self b)))

/-- Different failures that the pool makes are put down to different processes, or to different starts
that failed. -/
theorem Blamed.length_failed_le (h : Blamed es log c) {failed : List (PoolUnit RequestLine)}
    (hnodup : failed.Nodup) (hfailed : ∀ u ∈ failed, HasFailed log u) :
    failed.length ≤ c.started + log.countP Attempt.isUnstarted := by
  have hunits : failed ⊆ (log.filter Attempt.failed).map Attempt.unit := by
    intro u hu
    obtain ⟨a, ha, hunit, hfail⟩ := hfailed u hu
    exact List.mem_map.2 ⟨a, List.mem_filter.2 ⟨ha, hfail⟩, hunit⟩
  have hlength := (List.subperm_of_subset hnodup hunits).length_le
  rw [List.length_map, Attempt.length_eq] at hlength
  have hcalled : ((log.filter Attempt.failed).filterMap Attempt.number?).length ≤ c.started := by
    have hdistinct : ((log.filter Attempt.failed).filterMap Attempt.number?).Nodup := by
      refine List.pairwise_filterMap.2 ((List.Pairwise.and_mem.1 (h.last.filter _)).imp ?_)
      rintro a b ⟨ha, -, hlast⟩ n hn n' hn' rfl
      exact hlast (List.mem_filter.1 ha).2 n hn hn'
    have hrange : (log.filter Attempt.failed).filterMap Attempt.number? ⊆ List.range c.started := by
      intro n hn
      obtain ⟨a, ha, hn⟩ := List.mem_filterMap.1 hn
      exact List.mem_range.2 (h.numbers a (List.mem_filter.1 ha).1 n hn)
    have hle := (List.subperm_of_subset hdistinct hrange).length_le
    rwa [List.length_range] at hle
  have hunstarted : (log.filter Attempt.failed).countP Attempt.isUnstarted ≤
      log.countP Attempt.isUnstarted := List.filter_sublist.countP_le
  omega

/-- A task whose process has failed it kills it when it goes on. -/
theorem exists_kill (program : WorkerProgram ε π) {e : CommandError}
    (task : c.tasks[i]? = some ⟨u, .leave m (.error e)⟩) :
    ∃ c', c.act? program i = some c' ∧ m.number ∈ c'.killed := by
  rw [act?, task]
  exact ⟨_, rfl, List.mem_append_right _ (List.mem_singleton_self _)⟩

/-- When a unit has its result, a process that failed it has been killed. -/
theorem Blamed.killed_of_finished (h : Blamed es log c) (hpaired : c.Paired)
    (haccounted : Pool.Accounted ProcessPool.name capacity es c.units) {a : Attempt} (ha : a ∈ log)
    (hfailed : a.failed = true) {n : Nat} (hn : n ∈ a.number?) {result : JobResult}
    (hfinished : .finished a.unit result ∈ es) : n ∈ c.killed := by
  obtain hn | ⟨m, e, ht, -⟩ := h.outcast a ha hfailed n hn
  · exact hn
  · have hrunning : a.unit ∈ c.units.running := hpaired ▸ List.mem_map_of_mem ht
    have hdone : a.unit ∈ (Pool.completions es).map Prod.fst :=
      List.mem_map_of_mem (Pool.mem_completions.2 hfinished)
    have hnodup := haccounted.ran.nodup_iff.2 haccounted.nodup_admissions.of_map
    exact absurd rfl ((List.nodup_append.1 hnodup).2.2 _ hrunning _ hdone)

/-- In every run of a pool of processes, whatever the processes do, each process answers all the
requests that it is sent with results of theirs, but for the last one. One that does not is then neither
idle nor trusted by any task, is called no more, and is killed before its request has a result. So the
failures that the pool makes are never more than the processes that were started, with the starts that
failed. -/
theorem bad_workers_isolated (program : WorkerProgram ε π) {hasRuntime : Bool} {world : ε}
    (hbuild : ProcessPool.build program capacity hasRuntime world = .ok p) :
    (∀ es c, Run program (.ofPool p) es c ↔ ∃ log, Course program (.ofPool p) es log c) ∧
    ∀ es log c, Course program (.ofPool p) es log c →
      log.filterMap Attempt.written? = c.calls ∧
      (∀ n, ∀ a ∈ (log.filter (·.number? = some n)).dropLast,
        ∃ u reply result, a = .called n u (some reply) ∧ Reads reply (.done u.work.id result)) ∧
      (∀ before n u reply after, log = before ++ .called n u reply :: after →
        (∀ line result, reply = some line → ¬ Reads line (.done u.work.id result)) →
        (∀ m ∈ c.idle, m.number ≠ n) ∧
        (∀ a ∈ after, a.number? ≠ some n) ∧
        (n ∈ c.killed ∨ ∃ i m e, c.tasks[i]? = some ⟨u, .leave m (.error e)⟩ ∧ m.number = n ∧
          ∃ c', c.act? program i = some c' ∧ n ∈ c'.killed) ∧
        ∀ result, .finished u result ∈ es → n ∈ c.killed) ∧
      ∀ failed : List (PoolUnit RequestLine), failed.Nodup →
        (∀ u ∈ failed, ∃ result, .finished u result ∈ es ∧ ¬ IsAnswered c.calls u result) →
        failed.length ≤ c.started + log.countP Attempt.isUnstarted := by
  have hp := ProcessPool.built hbuild
  refine ⟨fun es c => ⟨fun h => ?_, fun ⟨_, h⟩ => h.run⟩, fun es log c h => ?_⟩
  · have hstart : Run program (.ofPool p) [] (.ofPool p) := .start
    exact h.course (hstart.accounted hp).1
  obtain ⟨hpaired, haccounted⟩ := h.run.accounted hp
  have hblamed := h.blamed hp
  refine ⟨hblamed.calls, fun n a ha => ?_, ?_, fun failed hnodup hfailed => ?_⟩
  · obtain ⟨result, hresult⟩ := hblamed.exists_result ha
    obtain ⟨number, u, reply, rfl, hreads⟩ := Attempt.result?_eq_some_iff.1 hresult
    have hnumber := of_decide_eq_true (List.mem_filter.1 (List.dropLast_subset _ ha)).2
    cases hnumber
    exact ⟨u, reply, result, rfl, hreads⟩
  · rintro before n u reply after rfl hnot
    have hmem : Attempt.called n u reply ∈ before ++ .called n u reply :: after :=
      List.mem_append_right _ List.mem_cons_self
    have hfailed : (Attempt.called n u reply).failed = true := by
      rw [Attempt.failed, Option.isNone_iff_eq_none, Option.eq_none_iff_forall_ne_some]
      intro result hresult
      obtain ⟨_, _, line, hsame, hreads⟩ := Attempt.result?_eq_some_iff.1 hresult
      cases hsame
      exact hnot line result rfl hreads
    refine ⟨fun m hm hn => ?_, fun a ha hn => ?_, ?_, fun result hfinished => ?_⟩
    · exact hblamed.trusted m (.inl hm) _ hmem hfailed (congrArg some hn.symm)
    · have hlast := (List.pairwise_append.1 hblamed.last).2.1
      exact (List.pairwise_cons.1 hlast).1 a ha hfailed n rfl hn
    · obtain hkilled | ⟨m, e, ht, rfl⟩ := hblamed.outcast _ hmem hfailed n rfl
      · exact .inl hkilled
      · obtain ⟨i, hi⟩ := List.mem_iff_getElem?.1 ht
        exact .inr ⟨i, m, e, hi, rfl, exists_kill program hi⟩
    · exact hblamed.killed_of_finished hpaired haccounted hmem hfailed rfl hfinished
  · refine hblamed.length_failed_le hnodup fun u hu => ?_
    obtain ⟨result, hfinished, hnot⟩ := hfailed u hu
    exact (hblamed.finished u result hfinished).resolve_left hnot

/-- A process that ends instead of answering is killed for it: one failure, one process. -/
theorem ended_process_isolated :
    ∃ (p : ProcessPool Unit Unit) (c : Crew Unit Unit) (es : List (Event RequestLine))
        (log : List Attempt) (u : PoolUnit RequestLine) (result : JobResult),
      ProcessPool.build (.ending ()) 1 true () = .ok p ∧ Course (.ending ()) (.ofPool p) es log c ∧
      .finished u result ∈ es ∧ ¬ IsAnswered c.calls u result ∧
      [u].length ≤ c.started + log.countP Attempt.isUnstarted ∧
      c.started + log.countP Attempt.isUnstarted = 1 ∧ c.killed = [0] := by
  let p : ProcessPool Unit Unit := ⟨.new ProcessPool.name 1, 0, [⟨some (), []⟩], [], 1, ()⟩
  have hbuild : ProcessPool.build (.ending ()) 1 true () = .ok p := rfl
  obtain ⟨c, es, log, u, result, hcourse, hfinished, hreplies, hstarted, hkilled⟩ :
      ∃ c es log u result, Course (.ending ()) (ofPool p) es log c ∧
        .finished u result ∈ es ∧ c.calls.map Call.reply = [[]] ∧
        c.started + log.countP Attempt.isUnstarted = 1 ∧ c.killed = [0] := by
    have hstart : Course (.ending ()) (ofPool p) [] [] (ofPool p) := .start
    have hsubmitted := hstart.other (@Step.submit _ _ _ _ (.listJobs (.role "c" "r")) _ rfl) nofun
    have htaken := (hsubmitted.other (.start rfl rfl rfl) nofun).act (i := 0) rfl
    have hleft := (htaken.act (i := 0) rfl).act (i := 0) rfl
    have hdone := hleft.other (.resolve (i := 0) rfl rfl) fun | 0 => nofun | _ + 1 => nofun
    exact ⟨_, _, _, _, _, hdone, .tail _ (.tail _ (.head _)), rfl, rfl, rfl⟩
  have hnot : ¬ IsAnswered c.calls u result := by
    rintro ⟨call, hcall, -, hreads⟩
    have hreply : call.reply ∈ c.calls.map Call.reply := List.mem_map_of_mem hcall
    rw [hreplies] at hreply
    rw [List.mem_singleton.1 hreply, ← acceptLine_eq_ok_iff] at hreads
    cases hreads
  obtain ⟨-, hafter⟩ := bad_workers_isolated _ hbuild
  obtain ⟨-, -, -, hcount⟩ := hafter es log c hcourse
  refine ⟨p, c, es, log, u, result, hbuild, hcourse, hfinished, hnot,
    hcount [u] (List.nodup_singleton u) fun v hv => ?_, hstarted, hkilled⟩
  obtain rfl := List.mem_singleton.1 hv
  exact ⟨result, hfinished, hnot⟩

end Crew

end JobGateway
