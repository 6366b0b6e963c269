import JobGateway.Delegate.Stub
import JobGateway.Proofs.Executor.MeteredPool

/-! The capacity of a pool and the order of its admissions. Every permit is free or held by a running
unit, whatever becomes of the units, and units are admitted in the order of their submission. The
calls that overlap on a pool of threads are never more than its permits, and with one permit the
delegate receives its calls in the order of submission. -/
namespace JobGateway

namespace Pool

variable {ω : Type} {name : String} {capacity : Nat} {es : List (Event ω)} {p q : Pool ω}

theorem Accounted.busy_eq (h : Accounted name capacity es p) : p.busy = p.running.length := by
  have hpermits := h.permits
  have hcapacity := h.capacity_eq
  rw [busy]
  omega

theorem Accounted.inOrder (h : Accounted name capacity es p) : admissions es <+: submissions es := by
  rw [h.order, List.append_assoc]
  exact List.prefix_append ..

/-- A refused unit was submitted after every admitted one. -/
theorem Accounted.ticket_lt (h : Accounted name capacity es p) {u v : PoolUnit ω}
    (hu : u ∈ admissions es) (hv : v ∈ refusals es) : u.ticket < v.ticket := by
  have hsorted : ((submissions es).map PoolUnit.ticket).Pairwise (· < ·) := by
    rw [h.tickets]
    exact List.pairwise_lt_range
  rw [h.order, List.map_append, List.map_append, List.pairwise_append, List.pairwise_append] at hsorted
  exact hsorted.1.2.2 _ (List.mem_map_of_mem hu) _ (List.mem_map_of_mem hv)

/-- A finished unit gives back its permit, whatever its result. -/
theorem Step.finished {u : PoolUnit ω} {result : JobResult} (h : Step p (.finished u result) q) :
    q.free = p.free + 1 ∧ q.running.length + 1 = p.running.length := by
  cases h with
  | finish running =>
    rw [finishAt_of_running running]
    have hlength := (cons_eraseIdx_perm running).length_eq
    rw [List.length_cons] at hlength
    exact ⟨rfl, hlength⟩

end Pool

/-- With one permit the noted calls are those of the first units. -/
theorem MeteredPool.Run.calls_prefix {σ : Type} {d : Delegate σ} {shared : σ}
    {es : List (Pool.Event Unit)} {p : MeteredPool σ} (h : Run d (new 1 shared) es p) :
    p.meter.calls <+: (Pool.submissions es).map fun u => u.command.received := by
  refine List.IsPrefix.trans ?_ (h.pool.accounted.inOrder.map _)
  rw [← h.noted.order rfl]
  exact List.prefix_append ..

/-- In every run of a pool, in whatever order things happen, each permit is free or held by a running
unit, so no more units run than there are permits, and the permits in use are those of the running
units; a finished unit gives back its permit with any result. The admitted units are the first of
the submitted ones in their order, then come the refused ones, and then those that still wait.
On a pool of threads the meter of a delegate counts the calls that are being made, the most of which
it keeps, and that is never more than there are permits. The calls that it has noted are those of the
finished units and of running ones. With one permit they are noted in the order of the admissions, so
the delegate receives them in the order of submission. -/
theorem capacity_and_order :
    (∀ (ω : Type) (name : String) (capacity : Nat) (es : List (Pool.Event ω)) (p : Pool ω),
      Pool.Run (.new name capacity) es p →
      p.free + p.running.length = capacity ∧ p.running.length ≤ capacity ∧
      p.free ≤ p.capacity ∧ p.busy = p.running.length ∧
      (∀ u result q, Pool.Step p (.finished u result) q →
        q.free = p.free + 1 ∧ q.running.length + 1 = p.running.length) ∧
      Pool.submissions es = Pool.admissions es ++ Pool.refusals es ++ p.queued ∧
      Pool.admissions es <+: Pool.submissions es ∧
      ∀ u v, .started u ∈ es → .refused v ∈ es → u.ticket < v.ticket) ∧
    ∀ (σ : Type) (d : Delegate σ) (shared : σ) (capacity : Nat) (es : List (Pool.Event Unit))
      (p : MeteredPool σ), MeteredPool.Run d (.new capacity shared) es p →
      Pool.Run (.new ThreadPool.name capacity) es p.pool ∧
      p.meter.inFlight = p.phases.countP CallPhase.isInside ∧
      ((∀ now, .entered now ∉ p.phases) → p.meter.inFlight ≤ p.meter.maxInFlight) ∧
      p.meter.maxInFlight ≤ capacity ∧
      p.meter.calls.Perm (((Pool.completions es).map fun x => x.1.command.received) ++
        p.callsRunning true) ∧
      (capacity = 1 →
        p.meter.calls ++ p.callsRunning false =
          (Pool.admissions es).map (fun u => u.command.received) ∧
        p.meter.calls <+: (Pool.submissions es).map fun u => u.command.received) := by
  constructor
  · intro ω name capacity es p h
    have hp := h.accounted
    have hpermits := hp.permits
    have hcapacity := hp.capacity_eq
    refine ⟨hpermits, by omega, by omega, hp.busy_eq, fun u result q hstep => hstep.finished,
      hp.order, hp.inOrder, fun u v hu hv => ?_⟩
    exact hp.ticket_lt (Pool.mem_admissions.2 hu) (Pool.mem_refusals.2 hv)
  · intro σ d shared capacity es p h
    have hgauged := h.gauged
    refine ⟨h.pool, hgauged.inFlight_eq, fun hnone => ?_, hgauged.maxInFlight_le, h.noted.perm, ?_⟩
    · exact hgauged.followed.resolve_right fun ⟨now, hmem, _⟩ => hnone now hmem
    · rintro rfl
      exact ⟨h.noted.order rfl, h.calls_prefix⟩

/-- A delegate that panics on one thread: the next call is being made when the pool is closed, and the
last one is never made. -/
theorem panicking_on_one_thread :
    let u : PoolUnit Unit := ⟨0, .listJobs (.role "c" "r"), ()⟩
    let v : PoolUnit Unit := ⟨1, .listJobs (.role "c" "s"), ()⟩
    let w : PoolUnit Unit := ⟨2, .listJobs (.role "c" "t"), ()⟩
    let e := CommandError.panicked "stub delegate told to panic on list_jobs"
    let d := Stub.delegate ⟨[], false, [], [.listJobs], .all⟩
    let es : List (Pool.Event Unit) := [.submitted u, .submitted v, .submitted w, .started u,
      .finished u (u.command.fail e), .started v, .closed, .refused w]
    ∃ p : MeteredPool Unit,
      MeteredPool.Run d (.new 1 ()) es p ∧
      p.meter = ⟨[u.command, v.command], 1, 1⟩ ∧
      p.pool.free + p.pool.running.length = 1 ∧ v.ticket < w.ticket ∧
      1 = p.phases.countP CallPhase.isInside ∧ p.meter.inFlight ≤ p.meter.maxInFlight ∧
      p.meter.maxInFlight ≤ 1 ∧ p.meter.calls.Perm ([u.command] ++ p.callsRunning true) ∧
      p.meter.calls ++ p.callsRunning false = [u.command, v.command] ∧
      p.meter.calls <+: [u.command, v.command, w.command] := by
  intro u v w e d es
  obtain ⟨p, hrun, hmeter, hphases⟩ : ∃ p : MeteredPool Unit,
      MeteredPool.Run d (.new 1 ()) es p ∧
      p.meter = ⟨[u.command, v.command], 1, 1⟩ ∧ p.phases = [.compared] := by
    let state free queued running admitted settled isClosed phases meter : MeteredPool Unit :=
      ⟨⟨⟨ThreadPool.name, 1, free, isClosed, true, 3, queued, running, admitted, settled⟩, ()⟩,
        phases, meter⟩
    let settled : List (Nat × Promise) := [(0, .resolved (u.command.fail e))]
    have hstart : MeteredPool.Run d (.new 1 ()) [] (.new 1 ()) := .start
    have hsubmitted : MeteredPool.Run d (.new 1 ()) [.submitted u, .submitted v, .submitted w]
        (state 1 [u, v, w] [] [] [] false [] .new) :=
      ((hstart.step (.submit _ u.command)).step (.submit _ v.command)).step (.submit _ w.command)
    have hleft : MeteredPool.Run d (.new 1 ()) (es.take 4)
        (state 0 [v, w] [u] [0] [] false [.left] ⟨[u.command], 0, 1⟩) := by
      have hnoted := (hsubmitted.step (.start rfl rfl rfl)).step (.act (i := 0) rfl)
      exact ((hnoted.step (.act (i := 0) rfl)).step (.act (i := 0) rfl)).step (.act (i := 0) rfl)
    have hfinished : MeteredPool.Run d (.new 1 ()) (es.take 5)
        (state 1 [v, w] [] [0] settled false [] ⟨[u.command], 0, 1⟩) :=
      hleft.step (.finish (i := 0) rfl rfl)
    have hinside : MeteredPool.Run d (.new 1 ()) (es.take 6)
        (state 0 [w] [v] [0, 1] settled false [.compared] ⟨[u.command, v.command], 1, 1⟩) := by
      have hnoted := (hfinished.step (.start rfl rfl rfl)).step (.act (i := 0) rfl)
      exact (hnoted.step (.act (i := 0) rfl)).step (.act (i := 0) rfl)
    exact ⟨_, (hinside.step (.close _)).step (.refuse rfl rfl rfl), rfl, rfl⟩
  obtain ⟨hpool, hinFlight, hfollowed, hmax, hperm, hone⟩ := capacity_and_order.2 _ _ _ _ _ _ hrun
  obtain ⟨hpermits, -, -, -, -, -, -, hticket⟩ := capacity_and_order.1 _ _ _ _ _ hpool
  obtain ⟨horder, hfirst⟩ := hone rfl
  refine ⟨p, hrun, hmeter, hpermits, hticket v w (by simp [es]) (by simp [es]), ?_,
    hfollowed (by simp [hphases]), hmax, hperm, horder, hfirst⟩
  rw [← hinFlight, hmeter]

end JobGateway
