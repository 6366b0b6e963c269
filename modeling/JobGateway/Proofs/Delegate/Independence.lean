import JobGateway.Proofs.Delegate.History
import JobGateway.Proofs.Text.Map

/-! Commands on different jobs. A command that is no list reads and changes nothing of a table but what
stands under its own key, also when it fails. So commands under different keys give the same results
and leave the same table in whatever order they are run. -/
namespace JobGateway.JobTable

variable {key : String} {table table' : JobTable} {c : JobCommand}

/-- A step that reads and changes what stands under one key only. -/
structure IsLocal (key : String) (step : JobTable → Except CommandError JobTable) : Prop where
  frame : ∀ {table next k}, step table = .ok next → k ≠ key → next.get? k = table.get? k
  /-- Tables that agree under the key fail alike, or come to agree under it again. -/
  congr : ∀ {table table' : JobTable}, table.get? key = table'.get? key →
    (step table).map (fun next => next.get? key) = (step table').map fun next => next.get? key

theorem isLocal_change (key : String) (f : Job → Except CommandError Job) :
    IsLocal key (change · key f) where
  frame h hk := by
    obtain ⟨job, job', -, -, rfl⟩ := change_eq_ok_iff.1 h
    rw [TextMap.get?_insert, if_neg hk]
  congr {table table'} h := by
    rw [change, change, ← h]
    cases table.get? key with
    | none => rfl
    | some job => cases hf : f job <;> simp [hf, Except.map]

theorem isLocal_create (key : String) (spec : JobSpec) : IsLocal key (create · key spec) where
  frame h hk := by
    obtain ⟨-, -, rfl⟩ := create_eq_ok_iff.1 h
    rw [TextMap.get?_insert, if_neg hk]
  congr {table table'} h := by
    have hcontains : table.contains key = table'.contains key := congrArg Option.isSome h
    cases hcheck : checkSpec spec with
    | error e => simp [create, hcheck, bind, Except.bind, Except.map]
    | ok _ =>
      cases htaken : table'.contains key <;>
        simp [create, hcheck, hcontains, htaken, bind, Except.bind, Except.map]

/-- A check in front of a step does not look at the table. -/
theorem IsLocal.checked {step : JobTable → Except CommandError JobTable} (h : IsLocal key step)
    (check : Except CommandError Unit) :
    IsLocal key fun table => do check; step table where
  frame hstep hk := by
    obtain ⟨-, -, hstep⟩ := Json.bind_eq_ok hstep
    exact h.frame hstep hk
  congr hget := by
    cases check with
    | error e => rfl
    | ok _ => exact h.congr hget

/-- A command that may be refused asks for a step under its own key. -/
theorem isLocal_of_step? {step : JobTable → Except CommandError JobTable}
    (hc : step? c = some step) : IsLocal c.jobKey step := by
  cases c with
  | createJob key spec =>
    cases hc
    exact isLocal_create _ spec
  | updateJob key spec =>
    cases hc
    exact (isLocal_change _ _).checked (checkSpec spec)
  | cancelUpdate key =>
    cases hc
    exact isLocal_change _ _
  | restartJob key =>
    cases hc
    exact isLocal_change _ _
  | listJobs => cases hc
  | deleteJob => cases hc

/-- No command changes anything under another key. -/
theorem get?_invoke_of_ne {k : String} (hk : k ≠ c.jobKey) (table : JobTable) :
    (delegate.invoke c table).2.get? k = table.get? k := by
  cases hc : step? c with
  | some step =>
    cases hstep : step table with
    | error error => rw [invoke_error hc hstep]
    | ok next =>
      rw [invoke_ok hc hstep]
      exact (isLocal_of_step? hc).frame hstep hk
  | none =>
    cases c with
    | listJobs => rfl
    | deleteJob key spec i =>
      replace hk : k ≠ key.text := hk
      rw [invoke_deleteJob, delete]
      cases table.get? key.text with
      | none => rfl
      | some job => cases hall : i.isAll <;> simp [hk]
    | createJob => cases hc
    | updateJob => cases hc
    | cancelUpdate => cases hc
    | restartJob => cases hc

/-- A command that is no list looks at nothing but what stands under its key. -/
theorem invoke_congr (hlist : c.operation ≠ .listJobs)
    (h : table.get? c.jobKey = table'.get? c.jobKey) :
    (delegate.invoke c table).1 = (delegate.invoke c table').1 ∧
      (delegate.invoke c table).2.get? c.jobKey = (delegate.invoke c table').2.get? c.jobKey := by
  cases hc : step? c with
  | some step =>
    have hcongr := (isLocal_of_step? hc).congr h
    cases hstep : step table with
    | error error =>
      cases hstep' : step table' with
      | ok next => simp [hstep, hstep', Except.map] at hcongr
      | error error' =>
        rw [hstep, hstep'] at hcongr
        obtain rfl : error = error' := by simpa [Except.map] using hcongr
        rw [invoke_error hc hstep, invoke_error hc hstep']
        exact ⟨rfl, h⟩
    | ok next =>
      cases hstep' : step table' with
      | error error => simp [hstep, hstep', Except.map] at hcongr
      | ok next' =>
        rw [hstep, hstep'] at hcongr
        rw [invoke_ok hc hstep, invoke_ok hc hstep']
        exact ⟨rfl, by simpa [Except.map] using hcongr⟩
  | none =>
    cases c with
    | listJobs => exact absurd rfl hlist
    | deleteJob key spec i =>
      replace h : table.get? key.text = table'.get? key.text := h
      change _ ∧ (delegate.invoke _ table).2.get? key.text = (delegate.invoke _ table').2.get? key.text
      rw [invoke_deleteJob, invoke_deleteJob, delete, delete, ← h]
      cases hget : table.get? key.text with
      | none => exact ⟨rfl, by rw [← h, hget]⟩
      | some job => cases hall : i.isAll <;> simp
    | createJob => cases hc
    | updateJob => cases hc
    | cancelUpdate => cases hc
    | restartJob => cases hc

section Batches

variable {commands commands' : List JobCommand}

theorem get?_mapM_invoke_of_not_mem {k : String} (hk : k ∉ commands.map JobCommand.jobKey)
    (table : JobTable) : (commands.mapM delegate.invoke table).2.get? k = table.get? k := by
  induction commands generalizing table with
  | nil => rfl
  | cons c commands ih =>
    rw [List.map_cons, List.mem_cons, not_or] at hk
    rw [mapM_cons_state, ih hk.2, get?_invoke_of_ne hk.1]

/-- Commands under different keys, none of them a list: each gives the result that it gives alone, and
leaves under its key what it leaves there alone. -/
theorem mapM_invoke_eq (hlist : ∀ c ∈ commands, c.operation ≠ .listJobs)
    (hkeys : (commands.map JobCommand.jobKey).Nodup) (table : JobTable) :
    (commands.mapM delegate.invoke table).1 = commands.map (fun c => (delegate.invoke c table).1) ∧
      ∀ c ∈ commands, (commands.mapM delegate.invoke table).2.get? c.jobKey =
        (delegate.invoke c table).2.get? c.jobKey := by
  induction commands generalizing table with
  | nil =>
    refine ⟨rfl, ?_⟩
    rintro c ⟨⟩
  | cons first commands ih =>
    rw [List.map_cons, List.nodup_cons] at hkeys
    rw [List.forall_mem_cons] at hlist
    obtain ⟨hresults, htable⟩ := ih hlist.2 hkeys.2 (delegate.invoke first table).2
    -- What the first command did is nothing to the others.
    have hothers : ∀ c ∈ commands, _ := fun c hc =>
      invoke_congr (hlist.2 c hc) (get?_invoke_of_ne
        (fun heq => hkeys.1 (heq ▸ List.mem_map_of_mem hc)) table)
    rw [mapM_cons_state]
    constructor
    · rw [hresults, List.map_cons]
      exact congrArg _ (List.map_congr_left fun c hc => (hothers c hc).1)
    · intro c hc
      obtain rfl | hc := List.mem_cons.1 hc
      · exact get?_mapM_invoke_of_not_mem hkeys.1 _
      · exact (htable c hc).trans (hothers c hc).2

/-- In whatever order commands under different keys are run, each has the same result, and the table
is the same in the end. -/
theorem mapM_invoke_perm (hlist : ∀ c ∈ commands, c.operation ≠ .listJobs)
    (hkeys : (commands.map JobCommand.jobKey).Nodup) (hperm : commands'.Perm commands)
    (table : JobTable) :
    (commands'.mapM delegate.invoke table).1 =
        commands'.map (fun c => (delegate.invoke c table).1) ∧
      (commands'.mapM delegate.invoke table).2 = (commands.mapM delegate.invoke table).2 := by
  have hkeys' : (commands'.map JobCommand.jobKey).Nodup := (hperm.map _).nodup_iff.2 hkeys
  obtain ⟨-, htable⟩ := mapM_invoke_eq hlist hkeys table
  obtain ⟨hresults, htable'⟩ :=
    mapM_invoke_eq (fun c hc => hlist c (hperm.mem_iff.1 hc)) hkeys' table
  refine ⟨hresults, TextMap.ext_get? fun k => ?_⟩
  by_cases hk : k ∈ commands.map JobCommand.jobKey
  · obtain ⟨c, hc, rfl⟩ := List.mem_map.1 hk
    rw [htable c hc, htable' c (hperm.mem_iff.2 hc)]
  · rw [get?_mapM_invoke_of_not_mem hk]
    exact get?_mapM_invoke_of_not_mem (fun h => hk ((hperm.map _).mem_iff.1 h)) table

end Batches

end JobGateway.JobTable
