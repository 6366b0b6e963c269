import JobGateway.Proofs.Executor.PoolRun
import JobGateway.Proofs.Text.Map

/-! What becomes of the units of a pool. In every run each submitted unit waits, runs or is
resolved, and is resolved once: with the result of its own run if it was admitted, and else with the
failure of a closed pool. When nothing is left to do, all units are resolved. -/
namespace JobGateway.Pool

variable {ω : Type} {name : String} {capacity : Nat} {es : List (Event ω)} {p q : Pool ω}

/-- The tickets of the settled promises are those of the refused and the finished units. -/
theorem settlements_perm (name : String) (es : List (Event ω)) :
    ((settlements name es).map Prod.fst).Perm
      ((refusals es ++ (completions es).map Prod.fst).map PoolUnit.ticket) := by
  induction es with
  | nil => exact .nil
  | cons e es ih =>
    cases e with
    | refused u => exact ih.cons u.ticket
    | finished u result =>
      refine (ih.cons u.ticket).trans ?_
      simp only [List.map_append]
      exact List.perm_middle.symm
    | _ => exact ih

/-- Every unit that was submitted waits, runs or is settled. -/
theorem Accounted.perm (h : Accounted name capacity es p) :
    ((p.queued ++ p.running).map PoolUnit.ticket ++ p.settled.map Prod.fst).Perm
      ((submissions es).map PoolUnit.ticket) := by
  have hsettled := settlements_perm name es
  rw [← h.settled] at hsettled
  have hunits : (p.queued ++ p.running ++ (refusals es ++ (completions es).map Prod.fst)).Perm
      (submissions es) := by
    refine (List.perm_append_comm.append List.perm_append_comm).trans ?_
    rw [List.append_assoc]
    refine (List.perm_append_comm.append_left p.running).trans ?_
    rw [← List.append_assoc, ← List.append_assoc, h.order]
    exact (h.ran.append_right _).append_right _
  refine (hsettled.append_left _).trans ?_
  rw [← List.map_append]
  exact hunits.map _

theorem Accounted.nodup (h : Accounted name capacity es p) :
    ((submissions es).map PoolUnit.ticket).Nodup := by
  rw [h.tickets]
  exact List.nodup_range

theorem Accounted.nodup_admissions (h : Accounted name capacity es p) :
    ((admissions es).map PoolUnit.ticket).Nodup := by
  have hnodup := h.nodup
  rw [h.order, List.append_assoc, List.map_append] at hnodup
  exact (List.nodup_append.1 hnodup).1

theorem Accounted.nodup_running (h : Accounted name capacity es p) :
    (p.running.map PoolUnit.ticket).Nodup := by
  have hnodup := (h.ran.map PoolUnit.ticket).nodup_iff.2 h.nodup_admissions
  rw [List.map_append] at hnodup
  exact (List.nodup_append.1 hnodup).1

theorem Accounted.nodup_settled (h : Accounted name capacity es p) :
    (p.settled.map Prod.fst).Nodup :=
  (List.nodup_append.1 ((h.perm.nodup_iff).2 h.nodup)).2.1

/-- A unit is told by its ticket. -/
theorem Accounted.eq_of_ticket (h : Accounted name capacity es p) {u v : PoolUnit ω}
    (hu : u ∈ submissions es) (hv : v ∈ submissions es) (hticket : u.ticket = v.ticket) : u = v :=
  List.inj_on_of_nodup_map h.nodup hu hv hticket

theorem Accounted.mem_of_admitted (h : Accounted name capacity es p) {u : PoolUnit ω}
    (hu : u ∈ admissions es) : u ∈ submissions es := by
  rw [h.order]
  simp [hu]

theorem Accounted.mem_of_refused (h : Accounted name capacity es p) {u : PoolUnit ω}
    (hu : u ∈ refusals es) : u ∈ submissions es := by
  rw [h.order]
  simp [hu]

theorem Accounted.mem_of_running (h : Accounted name capacity es p) {u : PoolUnit ω}
    (hu : u ∈ p.running) : u ∈ admissions es :=
  h.ran.subset (List.mem_append_left _ hu)

theorem Accounted.mem_of_finished (h : Accounted name capacity es p) {u : PoolUnit ω}
    {result : JobResult} (hu : (u, result) ∈ completions es) : u ∈ admissions es :=
  h.ran.subset (List.mem_append_right _ (List.mem_map.2 ⟨_, hu, rfl⟩))

theorem fail_worker (c : JobCommand) (message : String) :
    c.fail (.worker message) =
      ⟨c.jobKey, .empty c.operation, some ["worker failure: " ++ message]⟩ := rfl

/-- The failure of a unit that a closed pool did not let in. -/
theorem fail_closed (c : JobCommand) (name : String) :
    c.fail (.worker s!"{name} closed") =
      ⟨c.jobKey, .empty c.operation, some [s!"worker failure: {name} closed"]⟩ := by
  have hmessage : s!"worker failure: {name} closed" = "worker failure: " ++ s!"{name} closed" :=
    String.append_assoc ..
  rw [fail_worker, hmessage]

theorem mem_settlements {ticket : Nat} {promise : Promise} :
    (ticket, promise) ∈ settlements name es ↔
      (∃ u result, .finished u result ∈ es ∧ u.ticket = ticket ∧ promise = .resolved result) ∨
      ∃ u, .refused u ∈ es ∧ u.ticket = ticket ∧
        promise = .resolved (u.command.fail (.worker s!"{name} closed")) := by
  rw [settlements, List.mem_filterMap]
  constructor
  · rintro ⟨e, he, hsettles⟩
    cases e with
    | finished u result =>
      cases hsettles
      exact .inl ⟨u, result, he, rfl, rfl⟩
    | refused u =>
      cases hsettles
      exact .inr ⟨u, he, rfl, rfl⟩
    | _ => cases hsettles
  · rintro (⟨u, result, he, rfl, rfl⟩ | ⟨u, he, rfl, rfl⟩)
    · exact ⟨_, he, rfl⟩
    · exact ⟨_, he, rfl⟩

/-- The promise of a unit is settled by its own run, or by the refusal of the unit. -/
theorem Accounted.promise_eq (h : Accounted name capacity es p) {u : PoolUnit ω}
    (hu : u ∈ submissions es) {promise : Promise} (hne : promise ≠ .pending) :
    p.promise u.ticket = promise ↔
      (∃ result, .finished u result ∈ es ∧ promise = .resolved result) ∨
      .refused u ∈ es ∧ promise = .resolved (u.command.fail (.worker s!"{name} closed")) := by
  have hlookup : p.promise u.ticket = promise ↔ (u.ticket, promise) ∈ settlements name es := by
    rw [← h.settled, ← lookup_eq_some_iff_mem h.nodup_settled, Pool.promise]
    cases p.settled.lookup u.ticket with
    | none => simp [hne.symm]
    | some found => simp
  rw [hlookup, mem_settlements]
  constructor
  · rintro (⟨v, result, he, hticket, rfl⟩ | ⟨v, he, hticket, rfl⟩)
    · have hv := h.mem_of_admitted (h.mem_of_finished (mem_completions.2 he))
      obtain rfl := h.eq_of_ticket hv hu hticket
      exact .inl ⟨result, he, rfl⟩
    · have hv := h.mem_of_refused (mem_refusals.2 he)
      obtain rfl := h.eq_of_ticket hv hu hticket
      exact .inr ⟨he, rfl⟩
  · rintro (⟨result, he, rfl⟩ | ⟨he, rfl⟩)
    · exact .inl ⟨u, result, he, rfl, rfl⟩
    · exact .inr ⟨u, he, rfl, rfl⟩

/-- Nothing is left to do: the first unit of the queue must wait, and no unit is running. -/
def IsQuiet (p : Pool ω) : Prop :=
  ∀ u q, ¬ Step p (.started u) q ∧ ¬ Step p (.refused u) q ∧
    ∀ result, ¬ Step p (.finished u result) q

/-- In a pool with nothing left to do no unit waits. -/
theorem Accounted.eq_nil_of_isQuiet (h : Accounted name capacity es p) (hcapacity : 1 ≤ capacity)
    (hquiet : p.IsQuiet) : p.queued = [] ∧ p.running = [] := by
  have hrunning : p.running = [] := by
    by_contra hne
    obtain ⟨u, running, hrunning⟩ := List.exists_cons_of_ne_nil hne
    have hget : p.running[0]? = some u := by rw [hrunning]; rfl
    exact (hquiet u _).2.2 (u.command.fail .dropped) (.finish hget _)
  refine ⟨?_, hrunning⟩
  by_contra hne
  obtain ⟨u, queued, hqueued⟩ := List.exists_cons_of_ne_nil hne
  have hhead : p.queued.head? = some u := by rw [hqueued]; rfl
  by_cases hclosed : p.isClosed = true
  · have hadmit : p.admit? = some ({ p with queued }.settle u
        (.resolved (p.closedResult u.command))) := by
      simp only [admit?, hqueued, if_pos hclosed]
    exact (hquiet u _).2.1 (.refuse hhead hclosed hadmit)
  · have hpermits := h.permits
    rw [hrunning, List.length_nil] at hpermits
    have hfree : ¬ p.free = 0 := by omega
    have hadmit : p.admit? = some { p with
        queued, free := p.free - 1
        running := p.running ++ [u], admitted := p.admitted ++ [u.ticket] } := by
      simp only [admit?, hqueued, if_neg hclosed, if_neg hfree]
    exact (hquiet u _).1 (.start hhead (Bool.eq_false_iff.2 hclosed) hadmit)

end JobGateway.Pool
