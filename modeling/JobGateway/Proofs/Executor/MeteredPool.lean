import JobGateway.Executor.MeteredPool
import JobGateway.Proofs.Executor.PoolRun

/-! What a meter tells of the calls on a pool of threads, in whatever order the units move it. It counts
the calls that are being made, of which there are no more than permits, and its maximum follows the count.
It has noted the calls of the finished units and those of running ones, and with one permit it notes
them in the order in which the units are admitted. -/
namespace JobGateway

/-- Whether the delegate has noted a call. -/
def CallPhase.isNoted : CallPhase → Bool
  | .begun => false
  | _ => true

namespace MeteredPool

open Pool (Event admissions completions)

variable {σ : Type}

/-- The steps of a metered pool, with what happens in the pool. A move of the meter is nothing that
happens there. -/
inductive Step (d : Delegate σ) : MeteredPool σ → List (Event Unit) → MeteredPool σ → Prop
  | submit (p : MeteredPool σ) (c : JobCommand) :
    Step d p [.submitted ⟨p.pool.submitted, c, ()⟩] (p.submit c)
  | start {p q : MeteredPool σ} {u : PoolUnit Unit} (head : p.pool.queued.head? = some u)
      (isOpen : p.pool.isClosed = false) (taken : p.admit? = some q) : Step d p [.started u] q
  | refuse {p q : MeteredPool σ} {u : PoolUnit Unit} (head : p.pool.queued.head? = some u)
      (isClosed : p.pool.isClosed = true) (taken : p.admit? = some q) : Step d p [.refused u] q
  | act {p q : MeteredPool σ} {i : Nat} (act : p.act? i = some q) : Step d p [] q
  | finish {p q : MeteredPool σ} {i : Nat} {u : PoolUnit Unit}
      (running : p.pool.running[i]? = some u) (finish : p.finish? d i = some q) :
    Step d p [.finished u (d.invoke u.command p.threads.shared).1] q
  | close (p : MeteredPool σ) : Step d p [.closed] p.close

inductive Run (d : Delegate σ) (start : MeteredPool σ) : List (Event Unit) → MeteredPool σ → Prop
  | start : Run d start [] start
  | step {es es' : List (Event Unit)} {p q : MeteredPool σ} (run : Run d start es p)
      (step : Step d p es' q) : Run d start (es ++ es') q

variable {d : Delegate σ} {p q : MeteredPool σ} {es es' : List (Event Unit)} {capacity : Nat}

theorem admit?_of_open {u : PoolUnit Unit} (head : p.pool.queued.head? = some u)
    (isOpen : p.pool.isClosed = false) (taken : p.admit? = some q) :
    p.pool.admit? = some q.pool ∧ q.pool.running = p.pool.running ++ [u] ∧
      q.phases = p.phases ++ [.begun] ∧ q.meter = p.meter := by
  obtain ⟨threads, hthreads, rfl⟩ := Option.map_eq_some_iff.1 taken
  obtain ⟨pool, hpool, rfl⟩ := Option.map_eq_some_iff.1 hthreads
  obtain ⟨queued, -, -, rfl⟩ := Pool.admit?_of_open head isOpen hpool
  have hlonger : (p.pool.running ++ [u]).length ≠ p.pool.running.length := by simp
  rw [if_neg hlonger]
  exact ⟨hpool, rfl, rfl, rfl⟩

theorem admit?_of_closed {u : PoolUnit Unit} (head : p.pool.queued.head? = some u)
    (isClosed : p.pool.isClosed = true) (taken : p.admit? = some q) :
    p.pool.admit? = some q.pool ∧ q.pool.running = p.pool.running ∧ q.phases = p.phases ∧
      q.meter = p.meter := by
  obtain ⟨threads, hthreads, rfl⟩ := Option.map_eq_some_iff.1 taken
  obtain ⟨pool, hpool, rfl⟩ := Option.map_eq_some_iff.1 hthreads
  obtain ⟨queued, -, rfl⟩ := Pool.admit?_of_closed head isClosed hpool
  rw [if_pos rfl]
  exact ⟨hpool, rfl, rfl, rfl⟩

theorem act?_eq {i : Nat} (h : p.act? i = some q) :
    ∃ u phase phase' meter, p.pool.running[i]? = some u ∧ p.phases[i]? = some phase ∧
      p.meter.advance? u.command phase = some (phase', meter) ∧
      q = { p with phases := p.phases.set i phase', meter } := by
  unfold act? at h
  split at h
  · next u phase hu hphase =>
    obtain ⟨⟨phase', meter⟩, hadvance, rfl⟩ := Option.map_eq_some_iff.1 h
    exact ⟨u, phase, phase', meter, hu, hphase, hadvance, rfl⟩
  · cases h

theorem finish?_eq {i : Nat} {u : PoolUnit Unit} (running : p.pool.running[i]? = some u)
    (h : p.finish? d i = some q) :
    p.phases[i]? = some .left ∧
      q = { p with
        threads := ⟨p.pool.finishAt i (d.invoke u.command p.threads.shared).1,
          (d.invoke u.command p.threads.shared).2⟩
        phases := p.phases.eraseIdx i } := by
  unfold finish? at h
  rw [running] at h
  split at h
  · next v hv hphase =>
    cases hv
    exact ⟨hphase, (Option.some.inj h).symm⟩
  · cases h

/-- What happens in a metered pool happens in its pool of units. -/
theorem Step.pool (h : Step d p es' q) :
    es' = [] ∧ q.pool = p.pool ∨ ∃ e, es' = [e] ∧ Pool.Step p.pool e q.pool := by
  cases h with
  | submit c => exact .inr ⟨_, rfl, .submit _ c ()⟩
  | start head isOpen taken =>
    exact .inr ⟨_, rfl, .start head isOpen (admit?_of_open head isOpen taken).1⟩
  | refuse head isClosed taken =>
    exact .inr ⟨_, rfl, .refuse head isClosed (admit?_of_closed head isClosed taken).1⟩
  | act act =>
    obtain ⟨-, -, -, -, -, -, -, rfl⟩ := act?_eq act
    exact .inl ⟨rfl, rfl⟩
  | finish running finish =>
    obtain ⟨-, rfl⟩ := finish?_eq running finish
    exact .inr ⟨_, rfl, .finish running _⟩
  | close => exact .inr ⟨_, rfl, .close _⟩

theorem Run.pool {shared : σ} (h : Run d (new capacity shared) es p) :
    Pool.Run (.new ThreadPool.name capacity) es p.pool := by
  induction h with
  | start => exact .start
  | step _ step ih =>
    obtain ⟨rfl, hpool⟩ | ⟨e, rfl, hstep⟩ := step.pool
    · rw [List.append_nil, hpool]
      exact ih
    · exact ih.step hstep

section Progress

/-- The running units with how far their calls have come. -/
def progress (p : MeteredPool σ) : List (PoolUnit Unit × CallPhase) := p.pool.running.zip p.phases

theorem zip_set {α β : Type} {l : List α} {i : Nat} {a : α} (h : l[i]? = some a) (m : List β) (b : β) :
    l.zip (m.set i b) = (l.zip m).set i (a, b) := by
  induction l generalizing m i with
  | nil => rfl
  | cons c l ih =>
    cases m with
    | nil => rfl
    | cons d m =>
      cases i with
      | zero =>
        cases h
        rfl
      | succ i => exact congrArg (_ :: ·) (ih h m)

theorem zip_eraseIdx {α β : Type} (l : List α) (m : List β) (i : Nat) :
    (l.eraseIdx i).zip (m.eraseIdx i) = (l.zip m).eraseIdx i := by
  induction l generalizing m i with
  | nil => rfl
  | cons a l ih =>
    cases m with
    | nil => simp
    | cons b m =>
      cases i with
      | zero => rfl
      | succ i => exact congrArg (_ :: ·) (ih m i)

theorem progress_of_start {u : PoolUnit Unit} (hlength : p.phases.length = p.pool.running.length)
    (head : p.pool.queued.head? = some u) (isOpen : p.pool.isClosed = false)
    (taken : p.admit? = some q) : q.progress = p.progress ++ [(u, .begun)] := by
  obtain ⟨-, hrunning, hphases, -⟩ := admit?_of_open head isOpen taken
  rw [progress, hrunning, hphases, List.zip_append hlength.symm]
  rfl

theorem progress_of_act {i : Nat} (act : p.act? i = some q) :
    ∃ u phase phase' meter, p.progress[i]? = some (u, phase) ∧ p.phases[i]? = some phase ∧
      p.meter.advance? u.command phase = some (phase', meter) ∧ q.pool = p.pool ∧
      q.meter = meter ∧ q.phases = p.phases.set i phase' ∧
      q.progress = p.progress.set i (u, phase') := by
  obtain ⟨u, phase, phase', meter, hu, hphase, hadvance, rfl⟩ := act?_eq act
  exact ⟨u, phase, phase', meter, List.getElem?_zip_eq_some.2 ⟨hu, hphase⟩, hphase, hadvance, rfl,
    rfl, rfl, zip_set hu p.phases phase'⟩

theorem progress_of_finish {i : Nat} {u : PoolUnit Unit} (running : p.pool.running[i]? = some u)
    (finish : p.finish? d i = some q) :
    p.progress[i]? = some (u, .left) ∧ p.phases[i]? = some .left ∧ q.meter = p.meter ∧
      q.pool.running = p.pool.running.eraseIdx i ∧ q.phases = p.phases.eraseIdx i ∧
      q.progress = p.progress.eraseIdx i := by
  obtain ⟨hphase, rfl⟩ := finish?_eq running finish
  have hrunning := congrArg Pool.running
    (Pool.finishAt_of_running running (d.invoke u.command p.threads.shared).1)
  refine ⟨List.getElem?_zip_eq_some.2 ⟨running, hphase⟩, hphase, rfl, hrunning, rfl, ?_⟩
  rw [progress, progress, ← zip_eraseIdx]
  exact congrArg (List.zip · _) hrunning

end Progress

section Phases

variable {phases : List CallPhase} {i : Nat} {phase : CallPhase}

/-- One call that moves on changes the number of those inside by itself. -/
theorem countP_set_phase (h : phases[i]? = some phase) (phase' : CallPhase) :
    (phases.set i phase').countP CallPhase.isInside + phase.isInside.toNat =
      phases.countP CallPhase.isInside + phase'.isInside.toNat := by
  obtain ⟨hi, rfl⟩ := List.getElem?_eq_some_iff.1 h
  have hset := (List.set_perm_cons_eraseIdx hi phase').countP_eq CallPhase.isInside
  have hold := (List.getElem_cons_eraseIdx_perm hi).countP_eq CallPhase.isInside
  rw [List.countP_cons] at hset hold
  rw [hset, ← hold]
  cases phase'.isInside <;> cases phases[i].isInside <;> simp

/-- One call that moves on leaves the others where they are. -/
theorem mem_set_phase {other : CallPhase} (h : phases[i]? = some phase) (hmem : other ∈ phases)
    (hne : other ≠ phase) (phase' : CallPhase) : other ∈ phases.set i phase' := by
  obtain ⟨hi, rfl⟩ := List.getElem?_eq_some_iff.1 h
  rw [← (List.getElem_cons_eraseIdx_perm hi).mem_iff, List.mem_cons] at hmem
  rw [(List.set_perm_cons_eraseIdx hi phase').mem_iff]
  exact List.mem_cons_of_mem _ (hmem.resolve_left hne)

/-- The maximum of a meter has followed the count, or a call is about to raise it. -/
def Followed (m : Meter) (phases : List CallPhase) : Prop :=
  m.inFlight ≤ m.maxInFlight ∨ ∃ now, .entered now ∈ phases ∧ m.inFlight ≤ now

theorem Followed.advance {m m' : Meter} {c : JobCommand} {phase' : CallPhase} (h : Followed m phases)
    (hphase : phases[i]? = some phase) (hadvance : m.advance? c phase = some (phase', m')) :
    Followed m' (phases.set i phase') := by
  have hkept : ∀ now, .entered now ∈ phases → .entered now ≠ phase →
      .entered now ∈ phases.set i phase' :=
    fun now hmem hne => mem_set_phase hphase hmem hne phase'
  cases phase with
  | begun =>
    cases hadvance
    exact h.imp id fun ⟨now, hmem, hle⟩ => ⟨now, hkept now hmem nofun, hle⟩
  | noted =>
    cases hadvance
    obtain ⟨hi, -⟩ := List.getElem?_eq_some_iff.1 hphase
    exact .inr ⟨_, List.mem_set hi _, Nat.le_refl _⟩
  | entered now =>
    cases hadvance
    obtain hle | ⟨now', hmem, hle⟩ := h
    · exact .inl (Nat.le_trans hle (Nat.le_max_left ..))
    · by_cases hsame : now' = now
      · exact .inl (hsame ▸ Nat.le_trans hle (Nat.le_max_right ..))
      · exact .inr ⟨now', hkept now' hmem (by simpa using hsame), hle⟩
  | compared =>
    cases hadvance
    exact h.imp (Nat.le_trans (Nat.sub_le ..))
      fun ⟨now, hmem, hle⟩ => ⟨now, hkept now hmem nofun, Nat.le_trans (Nat.sub_le ..) hle⟩
  | left => cases hadvance

end Phases

section Gauge

/-- What the numbers of the meter say about the running units. -/
structure Gauged (capacity : Nat) (p : MeteredPool σ) : Prop where
  length_eq : p.phases.length = p.pool.running.length
  inFlight_eq : p.meter.inFlight = p.phases.countP CallPhase.isInside
  entered_le : ∀ now, .entered now ∈ p.phases → now ≤ capacity
  maxInFlight_le : p.meter.maxInFlight ≤ capacity
  followed : Followed p.meter p.phases

theorem gauged_new (capacity : Nat) (shared : σ) : Gauged capacity (new capacity shared) where
  length_eq := rfl
  inFlight_eq := rfl
  entered_le := by rintro now ⟨⟩
  maxInFlight_le := Nat.zero_le capacity
  followed := .inl (Nat.le_refl 0)

/-- What does not touch the running units and the meter keeps the gauge. -/
theorem Gauged.of_eq (h : Gauged capacity p) (hrunning : q.pool.running = p.pool.running)
    (hphases : q.phases = p.phases) (hmeter : q.meter = p.meter) : Gauged capacity q := by
  obtain ⟨hlength, hinFlight, hentered, hmax, hfollowed⟩ := h
  constructor
  · rw [hphases, hrunning, hlength]
  · rw [hmeter, hphases, hinFlight]
  · rwa [hphases]
  · rwa [hmeter]
  · rwa [hmeter, hphases]

theorem Gauged.start {u : PoolUnit Unit} (h : Gauged capacity p)
    (head : p.pool.queued.head? = some u) (isOpen : p.pool.isClosed = false)
    (taken : p.admit? = some q) : Gauged capacity q := by
  obtain ⟨-, hrunning, hphases, hmeter⟩ := admit?_of_open head isOpen taken
  have hentered : ∀ now, .entered now ∈ q.phases ↔ .entered now ∈ p.phases := by
    intro now
    rw [hphases]
    simp
  constructor
  · rw [hphases, hrunning, List.length_append, List.length_append, h.length_eq]
    rfl
  · rw [hmeter, hphases, List.countP_append, h.inFlight_eq]
    rfl
  · exact fun now hnow => h.entered_le now ((hentered now).1 hnow)
  · exact hmeter ▸ h.maxInFlight_le
  · simp only [Followed, hmeter, hentered]
    exact h.followed

theorem Gauged.act {i : Nat} (h : Gauged capacity p)
    (haccounted : Pool.Accounted ThreadPool.name capacity es p.pool) (act : p.act? i = some q) :
    Gauged capacity q := by
  obtain ⟨u, phase, phase', meter, -, hphase, hadvance, hpool, hmeter, hphases, -⟩ :=
    progress_of_act act
  have hcount := countP_set_phase hphase phase'
  rw [← h.inFlight_eq] at hcount
  have hinside : (p.phases.set i phase').countP CallPhase.isInside ≤ _ := List.countP_le_length
  rw [List.length_set, h.length_eq] at hinside
  have hpermits := haccounted.permits
  constructor
  · rw [hphases, hpool, List.length_set, h.length_eq]
  · rw [hmeter, hphases]
    cases phase <;> cases hadvance <;>
      simp only [CallPhase.isInside, Bool.toNat_true, Bool.toNat_false] at hcount <;>
      dsimp only <;> omega
  · intro now hnow
    rw [hphases] at hnow
    obtain hold | rfl := List.mem_or_eq_of_mem_set hnow
    · exact h.entered_le now hold
    · cases phase <;> cases hadvance
      simp only [CallPhase.isInside, Bool.toNat_true, Bool.toNat_false] at hcount
      omega
  · rw [hmeter]
    cases phase with
    | entered now =>
      cases hadvance
      exact Nat.max_le.2 ⟨h.maxInFlight_le, h.entered_le now (List.mem_of_getElem? hphase)⟩
    | left => cases hadvance
    | _ =>
      cases hadvance
      exact h.maxInFlight_le
  · rw [hmeter, hphases]
    exact h.followed.advance hphase hadvance

theorem Gauged.finish {i : Nat} {u : PoolUnit Unit} (h : Gauged capacity p)
    (running : p.pool.running[i]? = some u) (finish : p.finish? d i = some q) :
    Gauged capacity q := by
  obtain ⟨-, hphase, hmeter, hrunning, hphases, -⟩ := progress_of_finish running finish
  obtain ⟨hi, hleft⟩ := List.getElem?_eq_some_iff.1 hphase
  have hperm := List.getElem_cons_eraseIdx_perm hi
  rw [hleft, ← hphases] at hperm
  have hrest : ∀ now, .entered now ∈ q.phases ↔ .entered now ∈ p.phases := by
    intro now
    rw [← hperm.mem_iff]
    simp
  constructor
  · rw [hphases, hrunning, List.length_eraseIdx, List.length_eraseIdx, h.length_eq]
  · rw [hmeter, h.inFlight_eq, ← hperm.countP_eq]
    rfl
  · exact fun now hnow => h.entered_le now ((hrest now).1 hnow)
  · exact hmeter ▸ h.maxInFlight_le
  · simp only [Followed, hmeter, hrest]
    exact h.followed

theorem Gauged.step (h : Gauged capacity p)
    (haccounted : Pool.Accounted ThreadPool.name capacity es p.pool) (step : Step d p es' q) :
    Gauged capacity q := by
  cases step with
  | submit c => exact h.of_eq (p.pool.running_submit c ()) rfl rfl
  | start head isOpen taken => exact h.start head isOpen taken
  | refuse head isClosed taken =>
    obtain ⟨-, hrunning, hphases, hmeter⟩ := admit?_of_closed head isClosed taken
    exact h.of_eq hrunning hphases hmeter
  | act act => exact h.act haccounted act
  | finish running finish => exact h.finish running finish
  | close => exact h.of_eq rfl rfl rfl

theorem Run.gauged {shared : σ} (h : Run d (new capacity shared) es p) : Gauged capacity p := by
  induction h with
  | start => exact gauged_new capacity shared
  | step run step ih => exact ih.step run.pool.accounted step

end Gauge

section Calls

/-- The call of a running unit, if it is noted, or if it is not. -/
def callOf (isNoted : Bool) : PoolUnit Unit × CallPhase → Option JobCommand
  | (u, phase) => if phase.isNoted = isNoted then some u.command.received else none

/-- The calls of the running units in order, those that are noted or those that are not. -/
def callsRunning (p : MeteredPool σ) (isNoted : Bool) : List JobCommand :=
  p.progress.filterMap (callOf isNoted)

/-- What the noted calls say about the units. -/
structure Noted (capacity : Nat) (es : List (Event Unit)) (p : MeteredPool σ) : Prop where
  /-- The calls of all finished units are noted, and those of running ones. -/
  perm : p.meter.calls.Perm
    (((completions es).map fun x => x.1.command.received) ++ p.callsRunning true)
  /-- With one permit the calls are noted in the order of the admissions. -/
  order : capacity = 1 → p.meter.calls ++ p.callsRunning false =
    (admissions es).map fun u => u.command.received

theorem noted_new (capacity : Nat) (shared : σ) : Noted capacity [] (new capacity shared) :=
  ⟨.nil, fun _ => rfl⟩

/-- What does not touch the running units and the meter keeps what is noted. -/
theorem Noted.of_eq (h : Noted capacity es p) (hprogress : q.progress = p.progress)
    (hmeter : q.meter = p.meter) (hadmissions : admissions (es ++ es') = admissions es)
    (hcompletions : completions (es ++ es') = completions es) : Noted capacity (es ++ es') q := by
  obtain ⟨hperm, horder⟩ := h
  constructor
  · rwa [hmeter, hcompletions, callsRunning, hprogress]
  · rwa [hmeter, hadmissions, callsRunning, hprogress]

theorem Noted.start {u : PoolUnit Unit} (h : Noted capacity es p) (hgauged : Gauged capacity p)
    (head : p.pool.queued.head? = some u) (isOpen : p.pool.isClosed = false)
    (taken : p.admit? = some q) : Noted capacity (es ++ [.started u]) q := by
  have hprogress := progress_of_start hgauged.length_eq head isOpen taken
  obtain ⟨hpool, -, -, hmeter⟩ := admit?_of_open head isOpen taken
  have hcompletions : completions (es ++ [.started u]) = completions es := by simp [completions]
  have hadmissions : admissions (es ++ [.started u]) = admissions es ++ [u] := by simp [admissions]
  constructor
  · have hsame : q.callsRunning true = p.callsRunning true := by
      rw [callsRunning, hprogress, List.filterMap_append]
      exact List.append_nil _
    rw [hmeter, hcompletions, hsame]
    exact h.perm
  · intro hone
    have hnew : q.callsRunning false = p.callsRunning false ++ [u.command.received] := by
      rw [callsRunning, hprogress, List.filterMap_append]
      rfl
    rw [hmeter, hnew, ← List.append_assoc, h.order hone, hadmissions, List.map_append]
    rfl

theorem perm_filterMap_of_get {α β : Type} (f : α → Option β) {l : List α} {i : Nat} {a : α}
    (h : l[i]? = some a) : (l.filterMap f).Perm ((f a).toList ++ (l.eraseIdx i).filterMap f) := by
  obtain ⟨hi, rfl⟩ := List.getElem?_eq_some_iff.1 h
  refine ((List.getElem_cons_eraseIdx_perm hi).symm.filterMap f).trans ?_
  rw [List.filterMap_cons]
  cases f l[i] <;> exact .refl _

theorem perm_filterMap_set {α β : Type} (f : α → Option β) {l : List α} {i : Nat}
    (h : i < l.length) (a : α) :
    ((l.set i a).filterMap f).Perm ((f a).toList ++ (l.eraseIdx i).filterMap f) := by
  have hperm := perm_filterMap_of_get f (List.getElem?_set_self (a := a) h)
  rwa [List.eraseIdx_set_eq] at hperm

/-- With one permit the running unit is alone. -/
theorem progress_eq_singleton {x : PoolUnit Unit × CallPhase} {i : Nat}
    (haccounted : Pool.Accounted ThreadPool.name 1 es p.pool) (h : p.progress[i]? = some x) :
    p.progress = [x] ∧ i = 0 := by
  have hpermits := haccounted.permits
  have hlength : p.progress.length ≤ 1 := by
    rw [progress, List.length_zip]
    omega
  obtain ⟨hi, -⟩ := List.getElem?_eq_some_iff.1 h
  obtain ⟨y, hy⟩ := List.length_eq_one_iff.1 (by omega : p.progress.length = 1)
  obtain rfl : i = 0 := by omega
  rw [hy] at h
  cases h
  exact ⟨hy, rfl⟩

theorem Noted.act {i : Nat} (h : Noted capacity es p)
    (haccounted : Pool.Accounted ThreadPool.name capacity es p.pool) (act : p.act? i = some q) :
    Noted capacity es q := by
  obtain ⟨u, phase, phase', meter, hget, -, hadvance, -, hmeter, -, hprogress⟩ := progress_of_act act
  obtain ⟨hi, -⟩ := List.getElem?_eq_some_iff.1 hget
  constructor
  · have hold := perm_filterMap_of_get (callOf true) hget
    have hnew := perm_filterMap_set (callOf true) hi (u, phase')
    rw [← hprogress] at hnew
    have hperm := h.perm.trans (hold.append_left _)
    refine .trans ?_ (hnew.symm.append_left _)
    rw [hmeter]
    cases phase with
    | begun =>
      cases hadvance
      refine (hperm.append_right _).trans ?_
      rw [List.append_assoc]
      exact List.perm_append_comm.append_left _
    | left => cases hadvance
    | _ =>
      cases hadvance
      exact hperm
  · rintro rfl
    obtain ⟨halone, rfl⟩ := progress_eq_singleton haccounted hget
    have horder := h.order rfl
    rw [callsRunning, halone] at horder
    rw [hmeter, callsRunning, hprogress, halone, ← horder]
    cases phase <;> cases hadvance <;> simp [callOf, CallPhase.isNoted]

theorem Noted.finish {i : Nat} {u : PoolUnit Unit} (h : Noted capacity es p)
    (haccounted : Pool.Accounted ThreadPool.name capacity es p.pool)
    (running : p.pool.running[i]? = some u) (finish : p.finish? d i = some q) (result : JobResult) :
    Noted capacity (es ++ [.finished u result]) q := by
  obtain ⟨hget, -, hmeter, -, -, hprogress⟩ := progress_of_finish running finish
  have hcompletions : completions (es ++ [.finished u result]) = completions es ++ [(u, result)] := by
    simp [completions]
  have hadmissions : admissions (es ++ [.finished u result]) = admissions es := by simp [admissions]
  constructor
  · have hperm := h.perm.trans ((perm_filterMap_of_get (callOf true) hget).append_left _)
    rw [← hprogress, ← List.append_assoc] at hperm
    rw [hmeter, hcompletions, List.map_append]
    exact hperm
  · rintro rfl
    obtain ⟨halone, rfl⟩ := progress_eq_singleton haccounted hget
    have horder := h.order rfl
    rw [callsRunning, halone] at horder
    rw [hmeter, callsRunning, hprogress, halone, hadmissions]
    exact horder

theorem Noted.step (h : Noted capacity es p) (hgauged : Gauged capacity p)
    (haccounted : Pool.Accounted ThreadPool.name capacity es p.pool) (step : Step d p es' q) :
    Noted capacity (es ++ es') q := by
  cases step with
  | submit c =>
    refine h.of_eq ?_ rfl (by simp [admissions]) (by simp [completions])
    exact congrArg (List.zip · _) (p.pool.running_submit c ())
  | start head isOpen taken => exact h.start hgauged head isOpen taken
  | refuse head isClosed taken =>
    obtain ⟨-, hrunning, hphases, hmeter⟩ := admit?_of_closed head isClosed taken
    refine h.of_eq ?_ hmeter (by simp [admissions]) (by simp [completions])
    rw [progress, hrunning, hphases, progress]
  | act act =>
    rw [List.append_nil]
    exact h.act haccounted act
  | finish running finish => exact h.finish haccounted running finish _
  | close => exact h.of_eq rfl rfl (by simp [admissions]) (by simp [completions])

theorem Run.noted {shared : σ} (h : Run d (new capacity shared) es p) : Noted capacity es p := by
  induction h with
  | start => exact noted_new capacity shared
  | step run step ih => exact ih.step run.gauged run.pool.accounted step

end Calls

end MeteredPool

end JobGateway
