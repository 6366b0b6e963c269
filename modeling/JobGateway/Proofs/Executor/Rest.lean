import JobGateway.Proofs.Executor.Resolution

/-! What a pool has done when nothing is left to do. As long as it is open it refuses no unit, and at
rest it has admitted and resolved all of them. -/
namespace JobGateway.Pool

variable {ω : Type} {p q : Pool ω} {es : List (Event ω)}

/-- To deal with the first unit of the queue is to start or to refuse it. -/
theorem step_of_admit? (h : p.admit? = some q) :
    ∃ u, Step p (.started u) q ∧ q.running = p.running ++ [u] ∨
      Step p (.refused u) q ∧ q.running = p.running := by
  cases hqueued : p.queued with
  | nil =>
    rw [admit?, hqueued] at h
    cases h
  | cons u queued =>
    have head : p.queued.head? = some u := by rw [hqueued]; rfl
    refine ⟨u, ?_⟩
    cases hclosed : p.isClosed with
    | false =>
      have hstep := Step.start head hclosed h
      obtain ⟨_, -, -, rfl⟩ := admit?_of_open head hclosed h
      exact .inl ⟨hstep, rfl⟩
    | true =>
      have hstep := Step.refuse head hclosed h
      obtain ⟨_, -, rfl⟩ := admit?_of_closed head hclosed h
      exact .inr ⟨hstep, rfl⟩

theorem isQuiet_of_none (hhead : p.admit? = none) (hrunning : p.running = []) : p.IsQuiet := by
  intro u q
  refine ⟨?_, ?_, ?_⟩
  · rintro (_ | ⟨_, _, taken⟩)
    rw [hhead] at taken
    cases taken
  · rintro (_ | _ | ⟨_, _, taken⟩)
    rw [hhead] at taken
    cases taken
  · rintro result (_ | _ | _ | running)
    rw [hrunning] at running
    cases running

variable {name : String} {capacity : Nat} {u : PoolUnit ω}

theorem Accounted.refusals_of_open (h : Accounted name capacity es p) (hopen : .closed ∉ es) :
    refusals es = [] :=
  h.refused (Bool.eq_false_iff.2 fun hclosed => hopen (h.closed.1 hclosed))

theorem Accounted.not_refused (h : Accounted name capacity es p) (hopen : .closed ∉ es)
    (u : PoolUnit ω) : .refused u ∉ es := by
  rw [← mem_refusals, h.refusals_of_open hopen]
  exact List.not_mem_nil

/-- An open pool with nothing left to do has admitted and resolved every unit. -/
theorem Accounted.resolved_of_isQuiet (h : Accounted name capacity es p) (hcapacity : 1 ≤ capacity)
    (hquiet : p.IsQuiet) (hopen : .closed ∉ es) :
    admissions es = submissions es ∧
      ∀ u ∈ submissions es, ∃ result, p.promise u.ticket = .resolved result := by
  obtain ⟨hqueued, hrunning⟩ := h.eq_nil_of_isQuiet hcapacity hquiet
  have hadmitted : admissions es = submissions es := by
    rw [h.order, h.refusals_of_open hopen, hqueued, List.append_nil, List.append_nil]
  refine ⟨hadmitted, fun u hu => ?_⟩
  have hran := h.ran
  rw [hrunning, List.nil_append, hadmitted] at hran
  obtain ⟨⟨_, result⟩, hfinished, rfl⟩ := List.mem_map.1 (hran.symm.subset hu)
  exact ⟨result, (h.promise_eq hu (by simp)).2 (.inl ⟨result, mem_completions.1 hfinished, rfl⟩)⟩

/-- A resolved unit that was not refused has finished. -/
theorem Accounted.finished_of_promise (h : Accounted name capacity es p) {result : JobResult}
    (hu : .submitted u ∈ es) (hrefused : .refused u ∉ es)
    (hpromise : p.promise u.ticket = .resolved result) : .finished u result ∈ es := by
  have hmem := mem_submissions.2 hu
  obtain ⟨r, hfinished, hr⟩ | ⟨hmem, -⟩ := (h.promise_eq hmem (by simp)).1 hpromise
  · cases hr
    exact hfinished
  · exact absurd hmem hrefused

end JobGateway.Pool
