import JobGateway.Delegate.JobTable
import JobGateway.Proofs.Worker.Serve
import Mathlib.Data.List.DropRight

/-! A table of jobs and its history. What is kept of a job is told by the commands that were run
since it was created, and by no command on another job. -/
namespace JobGateway

/-- Commands with their results, in the order in which they were run. -/
abbrev History := List (JobCommand × JobResult)

namespace History

/-- Whether an entry is a success of `op` on the job under `key`. -/
def succeeded (op : Operation) (key : String) (e : JobCommand × JobResult) : Bool :=
  e.1.operation = op ∧ e.1.jobKey = key ∧ e.2.isSuccess

/-- The selector of an entry that deletes the job under `key`, or some of its instances. -/
def selector? (key : String) (e : JobCommand × JobResult) : Option Instances :=
  if e.1.operation = .deleteJob ∧ e.1.jobKey = key then e.1.instances? else none

/-- The entries behind the last creation of the job under `key`. -/
def since (h : History) (key : String) : History :=
  h.rtakeWhile fun e => !succeeded .createJob key e

/-- Whether the job under `key` was created, and was not deleted since. -/
def live (h : History) (key : String) : Bool :=
  h.any (succeeded .createJob key) && !(h.since key).any fun e => (selector? key e).any (·.isAll)

/-- Whether of the updates and cancels since the creation of a job the last one is an update. -/
def updating (h : History) (key : String) : Bool :=
  let moves := (h.since key).filter fun e =>
    succeeded .updateJob key e || succeeded .cancelUpdate key e
  moves.getLast?.any (succeeded .updateJob key)

/-- How often a job was restarted since its creation. -/
def restarts (h : History) (key : String) : Nat :=
  (h.since key).countP (succeeded .restartJob key)

/-- The instances of a job that were deleted since its creation. -/
def killed (h : History) (key : String) : List String :=
  (h.since key).flatMap fun e => (selector? key e).elim [] (·.ids)

variable {h : History} {key : String} {e : JobCommand × JobResult}

theorem since_create (he : succeeded .createJob key e = true) : (h ++ [e]).since key = [] :=
  List.rtakeWhile_concat_neg _ _ _ (by simp [he])

theorem since_concat (he : succeeded .createJob key e = false) :
    (h ++ [e]).since key = h.since key ++ [e] :=
  List.rtakeWhile_concat_pos _ _ _ (by simp [he])

theorem live_create (he : succeeded .createJob key e = true) : (h ++ [e]).live key = true := by
  simp [live, since_create he, he]

theorem live_concat (he : succeeded .createJob key e = false) :
    (h ++ [e]).live key = (h.live key && !(selector? key e).any (·.isAll)) := by
  simp [live, since_concat he, he, Bool.and_assoc]

theorem updating_concat (he : succeeded .createJob key e = false) :
    (h ++ [e]).updating key =
      (succeeded .updateJob key e || !succeeded .cancelUpdate key e && h.updating key) := by
  rw [updating, updating, since_concat he, List.filter_append]
  cases hupdate : succeeded .updateJob key e <;> cases hcancel : succeeded .cancelUpdate key e <;>
    simp [hupdate, hcancel]

theorem restarts_concat (he : succeeded .createJob key e = false) :
    (h ++ [e]).restarts key = h.restarts key + (succeeded .restartJob key e).toNat := by
  rw [restarts, restarts, since_concat he, List.countP_append, List.countP_singleton]
  cases succeeded .restartJob key e <;> rfl

theorem killed_concat (he : succeeded .createJob key e = false) :
    (h ++ [e]).killed key = h.killed key ++ (selector? key e).elim [] (·.ids) := by
  rw [killed, killed, since_concat he, List.flatMap_append, List.flatMap_singleton]

/-- An entry that says nothing about the job under `key`: it is about another one, only lists, or
failed. -/
def Silent (key : String) (e : JobCommand × JobResult) : Prop :=
  e.1.jobKey = key → e.1.operation = .listJobs ∨ e.1.operation ≠ .deleteJob ∧ e.2.isSuccess = false

theorem Silent.succeeded (he : Silent key e) {op : Operation} (hop : op ≠ .listJobs)
    (hdelete : op ≠ .deleteJob) : succeeded op key e = false := by
  simp only [History.succeeded, decide_eq_false_iff_not]
  rintro ⟨rfl, hkey, hsuccess⟩
  obtain hlist | ⟨-, hfailed⟩ := he hkey
  · exact hop hlist
  · rw [hsuccess] at hfailed
    cases hfailed

theorem Silent.selector? (he : Silent key e) : selector? key e = none := by
  rw [History.selector?, if_neg]
  rintro ⟨hdelete, hkey⟩
  obtain hlist | ⟨hother, -⟩ := he hkey
  · rw [hdelete] at hlist
    cases hlist
  · exact hother hdelete

end History

namespace JobTable

open History

/-- What is kept of the job under `key` is what the history tells of it. -/
structure Tells (h : History) (key : String) (job : Job) : Prop where
  live : h.live key = true
  updating : job.updating = h.updating key
  restarts : job.restarts = UInt32.ofNat (h.restarts key)
  killed : ∀ id, id ∈ job.killed.keys ↔ id ∈ h.killed key

/-- A table that holds the live jobs of a history, and what the history tells of them. -/
structure Follows (h : History) (table : JobTable) : Prop where
  held : ∀ key job, table.get? key = some job → Tells h key job
  free : ∀ key, table.get? key = none → h.live key = false

variable {h : History} {table : JobTable} {key : String} {job : Job} {e : JobCommand × JobResult}

theorem follows_empty : Follows [] .empty where
  held _ _ hget := by cases hget
  free _ _ := rfl

/-- An entry behind the creation of a job moves what the history tells of it. -/
theorem Tells.concat {job' : Job} (ht : Tells h key job)
    (hcreate : succeeded .createJob key e = false)
    (hall : (selector? key e).any (·.isAll) = false)
    (hupdating : job'.updating =
      (succeeded .updateJob key e || !succeeded .cancelUpdate key e && job.updating))
    (hrestarts : job'.restarts = job.restarts + UInt32.ofNat (succeeded .restartJob key e).toNat)
    (hkilled : ∀ id, id ∈ job'.killed.keys ↔
      id ∈ job.killed.keys ∨ id ∈ (selector? key e).elim [] (·.ids)) :
    Tells (h ++ [e]) key job' where
  live := by
    rw [live_concat hcreate, ht.live, hall]
    rfl
  updating := by rw [updating_concat hcreate, hupdating, ht.updating]
  restarts := by rw [restarts_concat hcreate, hrestarts, ht.restarts, UInt32.ofNat_add]
  killed id := by rw [killed_concat hcreate, hkilled, List.mem_append, ht.killed]

theorem Tells.silent (ht : Tells h key job) (he : Silent key e) : Tells (h ++ [e]) key job := by
  have hnot := @he.succeeded
  refine ht.concat (hnot (by decide) (by decide)) ?_ ?_ ?_ ?_
  · rw [he.selector?]
    rfl
  · rw [hnot (by decide) (by decide), hnot (by decide) (by decide)]
    rfl
  · rw [hnot (by decide) (by decide)]
    exact (UInt32.add_zero _).symm
  · rw [he.selector?]
    simp

theorem tells_fresh (he : succeeded .createJob key e = true) : Tells (h ++ [e]) key .fresh where
  live := live_create he
  updating := by rw [updating, since_create he]; rfl
  restarts := by rw [restarts, since_create he]; rfl
  killed id := by rw [killed, since_create he]; rfl

theorem live_silent (hlive : h.live key = false) (he : Silent key e) :
    (h ++ [e]).live key = false := by
  rw [live_concat (he.succeeded (by decide) (by decide)), hlive]
  rfl

/-- An entry that says nothing about any job. -/
theorem Follows.silent (hf : Follows h table) (he : ∀ key, Silent key e) :
    Follows (h ++ [e]) table where
  held key job hget := (hf.held key job hget).silent (he key)
  free key hget := live_silent (hf.free key hget) (he key)

/-- An entry that says something about one job, and the table puts it down. -/
theorem Follows.insert (hf : Follows h table) (he : ∀ k, k ≠ key → Silent k e)
    (ht : Tells (h ++ [e]) key job) : Follows (h ++ [e]) (table.insert key job) where
  held k job' hget := by
    rw [TextMap.get?_insert] at hget
    split_ifs at hget with hk
    · cases hget
      exact hk ▸ ht
    · exact (hf.held k job' hget).silent (he k hk)
  free k hget := by
    rw [TextMap.get?_insert] at hget
    split_ifs at hget with hk
    exact live_silent (hf.free k hget) (he k hk)

/-- An entry that removes a job. -/
theorem Follows.erase (hf : Follows h table) (he : ∀ k, k ≠ key → Silent k e)
    (hlive : (h ++ [e]).live key = false) : Follows (h ++ [e]) (table.erase key) where
  held k job' hget := by
    rw [TextMap.get?_erase] at hget
    split_ifs at hget with hk
    exact (hf.held k job' hget).silent (he k hk)
  free k hget := by
    rw [TextMap.get?_erase] at hget
    split_ifs at hget with hk
    · exact hk ▸ hlive
    · exact live_silent (hf.free k hget) (he k hk)

/-- The step of the table that a command asks for, if it is one that may be refused. -/
def step? : JobCommand → Option (JobTable → Except CommandError JobTable)
  | .createJob key spec => some (create · key.text spec)
  | .updateJob key spec _ => some (update · key.text spec)
  | .cancelUpdate key _ => some (cancelUpdate · key.text)
  | .restartJob key _ _ => some (restart · key.text)
  | _ => none

variable {c : JobCommand} {step : JobTable → Except CommandError JobTable}

theorem invoke_step (hc : step? c = some step) :
    delegate.invoke c table =
      (((commit step table).1.map fun _ => .job c.jobKey).toResult c.jobKey c.operation,
        (commit step table).2) := by
  cases c <;> cases hc <;> rfl

theorem invoke_ok {next : JobTable} (hc : step? c = some step) (hstep : step table = .ok next) :
    delegate.invoke c table = (.success c.jobKey (.job c.jobKey), next) := by
  rw [invoke_step hc, commit, hstep]
  rfl

theorem invoke_error {error : CommandError} (hc : step? c = some step)
    (hstep : step table = .error error) : delegate.invoke c table = (c.fail error, table) := by
  rw [invoke_step hc, commit, hstep]
  rfl

/-- A command that may be refused succeeds if its step does. -/
theorem isSuccess_invoke_iff (hc : step? c = some step) :
    (delegate.invoke c table).1.isSuccess = true ↔ ∃ next, step table = .ok next := by
  cases hstep : step table with
  | ok next =>
    rw [invoke_ok hc hstep]
    exact iff_of_true rfl ⟨next, rfl⟩
  | error error =>
    rw [invoke_error hc hstep]
    refine iff_of_false (by simp [JobCommand.fail, JobResult.failure, JobResult.isSuccess]) ?_
    rintro ⟨_, ⟨⟩⟩

theorem checkSpec_eq_ok_iff {spec : JobSpec} : checkSpec spec = .ok () ↔ spec.bytes ≠ [] := by
  rw [checkSpec, JobSpec.isEmpty, ← List.isEmpty_eq_false_iff]
  cases spec.bytes.isEmpty <;> simp

theorem create_eq_ok_iff {spec : JobSpec} {next : JobTable} :
    create table key spec = .ok next ↔
      spec.bytes ≠ [] ∧ table.get? key = none ∧ next = table.insert key .fresh := by
  rw [← checkSpec_eq_ok_iff, create, TextMap.contains]
  cases checkSpec spec <;> cases table.get? key <;> simp [eq_comm, bind, Except.bind]

theorem change_eq_ok_iff {f : Job → Except CommandError Job} {next : JobTable} :
    table.change key f = .ok next ↔
      ∃ job job', table.get? key = some job ∧ f job = .ok job' ∧ next = table.insert key job' := by
  rw [change]
  cases hget : table.get? key with
  | none => simp
  | some job => cases hf : f job <;> simp [hf, eq_comm]

theorem update_eq_ok_iff {spec : JobSpec} {next : JobTable} :
    update table key spec = .ok next ↔ spec.bytes ≠ [] ∧ ∃ job, table.get? key = some job ∧
      next = table.insert key { job with updating := true } := by
  rw [← checkSpec_eq_ok_iff, update]
  cases checkSpec spec with
  | error error => simp [bind, Except.bind]
  | ok _ =>
    refine change_eq_ok_iff.trans ?_
    simp

theorem cancelUpdate_eq_ok_iff {next : JobTable} :
    cancelUpdate table key = .ok next ↔ ∃ job, table.get? key = some job ∧ job.updating = true ∧
      next = table.insert key { job with updating := false } := by
  rw [cancelUpdate, change_eq_ok_iff]
  constructor
  · rintro ⟨job, job', hget, hjob, rfl⟩
    split_ifs at hjob with hupdating
    cases hjob
    exact ⟨job, hget, hupdating, rfl⟩
  · rintro ⟨job, hget, hupdating, rfl⟩
    exact ⟨job, _, hget, if_pos hupdating, rfl⟩

theorem restart_eq_ok_iff {next : JobTable} :
    restart table key = .ok next ↔ ∃ job, table.get? key = some job ∧
      next = table.insert key { job with restarts := job.restarts + 1 } := by
  rw [restart, change_eq_ok_iff]
  simp

theorem invoke_deleteJob (table : JobTable) (key : JobKey) (spec : Option JobSpec) (i : Instances) :
    delegate.invoke (.deleteJob key spec i) table =
      (.success key.text (.deleted (table.delete key.text i).1), (table.delete key.text i).2) :=
  rfl

/-- The instances killed of a job, and those that are killed now. -/
theorem mem_keys_killed (ids : List String) (killed : TextMap Unit) (id : String) :
    id ∈ (ids.foldl (fun killed id => killed.insert id ()) killed).keys ↔
      id ∈ killed.keys ∨ id ∈ ids := by
  induction ids generalizing killed with
  | nil => simp
  | cons i ids ih =>
    rw [List.foldl_cons, ih, TextMap.mem_keys_iff, TextMap.get?_insert, TextMap.mem_keys_iff,
      List.mem_cons]
    by_cases hid : id = i <;> simp [hid]

theorem succeeded_success (op : Operation) (c : JobCommand) (payload : Payload) :
    succeeded op c.jobKey (c, .success c.jobKey payload) = decide (c.operation = op) := by
  simp [succeeded, JobResult.success, JobResult.isSuccess]

theorem silent_of_ne {k : String} (hk : k ≠ c.jobKey) (result : JobResult) : Silent k (c, result) :=
  fun h => absurd h.symm hk

/-- A success that neither creates the job nor deletes it or instances of it. -/
theorem Tells.success {job' : Job} (ht : Tells h key job) (hkey : c.jobKey = key)
    (payload : Payload) (hcreate : c.operation ≠ .createJob) (hdelete : c.operation ≠ .deleteJob)
    (hupdating : job'.updating =
      (decide (c.operation = .updateJob) || !decide (c.operation = .cancelUpdate) && job.updating))
    (hrestarts : job'.restarts =
      job.restarts + UInt32.ofNat (decide (c.operation = .restartJob)).toNat)
    (hkilled : job'.killed = job.killed) :
    Tells (h ++ [(c, .success c.jobKey payload)]) key job' := by
  subst hkey
  have hselector : selector? c.jobKey (c, .success c.jobKey payload) = none :=
    if_neg fun h => hdelete h.1
  refine ht.concat ?_ ?_ ?_ ?_ ?_
  · rw [succeeded_success, decide_eq_false hcreate]
  · rw [hselector]
    rfl
  · rw [succeeded_success, succeeded_success, hupdating]
  · rw [succeeded_success, hrestarts]
  · rw [hselector, hkilled]
    simp

/-- A command that may be refused keeps the table in step with its history. -/
theorem Follows.invoke_step (hf : Follows h table) (hc : step? c = some step) :
    Follows (h ++ [(c, (delegate.invoke c table).1)]) (delegate.invoke c table).2 := by
  cases hstep : step table with
  | error error =>
    have hdelete : c.operation ≠ .deleteJob := by
      intro hop
      cases c <;> cases hop
      cases hc
    rw [invoke_error hc hstep]
    exact hf.silent fun _ _ => .inr ⟨hdelete, rfl⟩
  | ok next =>
    rw [invoke_ok hc hstep]
    have hothers : ∀ k, k ≠ c.jobKey → Silent k (c, .success c.jobKey (.job c.jobKey)) :=
      fun k hk => silent_of_ne hk _
    cases c with
    | listJobs => cases hc
    | deleteJob => cases hc
    | createJob key spec =>
      cases hc
      obtain ⟨-, -, rfl⟩ := create_eq_ok_iff.1 hstep
      exact hf.insert hothers (tells_fresh (succeeded_success .createJob _ _))
    | updateJob key spec i =>
      cases hc
      obtain ⟨-, job, hget, rfl⟩ := update_eq_ok_iff.1 hstep
      refine hf.insert hothers ((hf.held _ job hget).success rfl _ nofun nofun rfl ?_ rfl)
      exact (UInt32.add_zero _).symm
    | cancelUpdate key spec =>
      cases hc
      obtain ⟨job, hget, -, rfl⟩ := cancelUpdate_eq_ok_iff.1 hstep
      refine hf.insert hothers ((hf.held _ job hget).success rfl _ nofun nofun rfl ?_ rfl)
      exact (UInt32.add_zero _).symm
    | restartJob key spec i =>
      cases hc
      obtain ⟨job, hget, rfl⟩ := restart_eq_ok_iff.1 hstep
      exact hf.insert hothers ((hf.held _ job hget).success rfl _ nofun nofun rfl rfl rfl)

theorem selector?_deleteJob (key : JobKey) (spec : Option JobSpec) (i : Instances)
    (result : JobResult) : selector? key.text (.deleteJob key spec i, result) = some i :=
  if_pos ⟨rfl, rfl⟩

/-- A delete keeps the table in step with its history. -/
theorem Follows.deleteJob (hf : Follows h table) (key : JobKey) (spec : Option JobSpec)
    (i : Instances) (result : JobResult) :
    Follows (h ++ [(.deleteJob key spec i, result)]) (table.delete key.text i).2 := by
  have hselector := selector?_deleteJob key spec i result
  have hnot (op : Operation) (hop : op ≠ .deleteJob) (k : String) :
      succeeded op k (.deleteJob key spec i, result) = false :=
    decide_eq_false fun h => hop h.1.symm
  have hothers : ∀ k, k ≠ key.text → Silent k (.deleteJob key spec i, result) :=
    fun k hk => silent_of_ne hk result
  rw [delete]
  cases hget : table.get? key.text with
  | none =>
    refine ⟨fun k job hk => ?_, fun k hk => ?_⟩
    · have hne : k ≠ key.text := by
        rintro rfl
        rw [hget] at hk
        cases hk
      exact (hf.held k job hk).silent (hothers k hne)
    · rw [live_concat (hnot .createJob nofun k), hf.free k hk]
      rfl
  | some job =>
    by_cases hall : i.isAll = true
    · simp only [hall, if_true]
      refine hf.erase hothers ?_
      rw [live_concat (hnot .createJob nofun _), hselector, Option.any_some, hall]
      exact Bool.and_false _
    · simp only [hall, if_false, Bool.false_eq_true]
      refine hf.insert hothers ((hf.held _ job hget).concat (hnot .createJob nofun _) ?_ ?_ ?_ ?_)
      · rw [hselector, Option.any_some]
        exact Bool.eq_false_iff.2 hall
      · rw [hnot .updateJob nofun, hnot .cancelUpdate nofun]
        rfl
      · rw [hnot .restartJob nofun]
        exact (UInt32.add_zero _).symm
      · rw [hselector]
        exact mem_keys_killed i.ids job.killed

/-- Every command keeps the table in step with its history. -/
theorem Follows.invoke (hf : Follows h table) (c : JobCommand) :
    Follows (h ++ [(c, (delegate.invoke c table).1)]) (delegate.invoke c table).2 := by
  cases c with
  | listJobs key => exact hf.silent fun _ _ => .inl rfl
  | deleteJob key spec i => exact hf.deleteJob key spec i _
  | createJob => exact hf.invoke_step rfl
  | updateJob => exact hf.invoke_step rfl
  | cancelUpdate => exact hf.invoke_step rfl
  | restartJob => exact hf.invoke_step rfl

/-- A run keeps the table in step with its history. -/
theorem Follows.mapM_invoke (hf : Follows h table) (commands : List JobCommand) :
    let run := commands.mapM delegate.invoke table
    Follows (h ++ commands.zip run.1) run.2 := by
  induction commands generalizing h table with
  | nil =>
    intro run
    rw [List.zip_nil_left, List.append_nil]
    exact hf
  | cons c commands ih =>
    have hrun := ih (hf.invoke c)
    dsimp only at hrun ⊢
    rw [List.append_assoc] at hrun
    rw [mapM_cons_state]
    exact hrun

/-- What a history says about the table, and about every command that may come next. -/
structure Obeys (h : History) (table : JobTable) : Prop where
  create : ∀ key spec, (delegate.invoke (.createJob key spec) table).1.isSuccess = true ↔
    spec.bytes ≠ [] ∧ h.live key.text = false
  update : ∀ key spec i, (delegate.invoke (.updateJob key spec i) table).1.isSuccess = true ↔
    spec.bytes ≠ [] ∧ h.live key.text = true
  restart : ∀ key spec i, (delegate.invoke (.restartJob key spec i) table).1.isSuccess = true ↔
    h.live key.text = true
  cancel : ∀ key spec, (delegate.invoke (.cancelUpdate key spec) table).1.isSuccess = true ↔
    h.live key.text = true ∧ h.updating key.text = true
  delete : ∀ key spec i, (delegate.invoke (.deleteJob key spec i) table).1 =
    .success key.text (.deleted (if h.live key.text then [key.text] else []))
  list : ∀ key, ∃ keys, (delegate.invoke (.listJobs key) table).1 = .success key.text (.jobs keys) ∧
    keys.Pairwise (· < ·) ∧ ∀ k, k ∈ keys ↔
      h.live k = true ∧ ∃ rest, k = key.cluster ++ "/" ++ key.roleName ++ "/" ++ rest
  /-- A refused command changes nothing. -/
  refused : ∀ c, (delegate.invoke c table).1.isSuccess = false → (delegate.invoke c table).2 = table
  restarts : ∀ key, h.live key = true → h.restarts key < 2 ^ 32 →
    (table.restarts? key).map UInt32.toNat = some (h.restarts key)
  killed : ∀ key, h.live key = true → ∃ ids, table.killed? key = some ids ∧
    ids.Pairwise (· < ·) ∧ ∀ id, id ∈ ids ↔ id ∈ h.killed key
  free : ∀ key, h.live key = false → table.restarts? key = none ∧ table.killed? key = none

theorem Follows.live_iff (hf : Follows h table) :
    h.live key = true ↔ ∃ job, table.get? key = some job := by
  cases hget : table.get? key with
  | none => simp [hf.free key hget]
  | some job => simp [(hf.held key job hget).live]

theorem Follows.free_iff (hf : Follows h table) :
    h.live key = false ↔ table.get? key = none := by
  rw [← Bool.not_eq_true, hf.live_iff, Option.eq_none_iff_forall_ne_some]
  exact not_exists

theorem isPrefixOf_iff (start text : String) :
    start.isPrefixOf text = true ↔ ∃ rest, text = start ++ rest := by
  change text.startsWith start = true ↔ _
  rw [String.startsWith_string_iff]
  constructor
  · rintro ⟨rest, hrest⟩
    refine ⟨.ofList rest, String.toList_inj.1 ?_⟩
    rw [String.toList_append, String.toList_ofList, hrest]
  · rintro ⟨rest, rfl⟩
    exact ⟨rest.toList, (String.toList_append ..).symm⟩

theorem Follows.list (hf : Follows h table) (cluster role : String) :
    (table.list cluster role).Pairwise (· < ·) ∧ ∀ k, k ∈ table.list cluster role ↔
      h.live k = true ∧ ∃ rest, k = cluster ++ "/" ++ role ++ "/" ++ rest := by
  refine ⟨table.pairwise_keys.filter _, fun k => ?_⟩
  rw [JobTable.list, List.mem_filter, TextMap.mem_keys_iff, Option.isSome_iff_exists, ← hf.live_iff,
    isPrefixOf_iff]
  rfl

theorem refused_unchanged (hrefused : (delegate.invoke c table).1.isSuccess = false) :
    (delegate.invoke c table).2 = table := by
  have hstep (step : JobTable → Except CommandError JobTable) (hc : step? c = some step) :
      (delegate.invoke c table).2 = table := by
    cases hstep : step table with
    | ok next =>
      rw [invoke_ok hc hstep] at hrefused
      cases hrefused
    | error error => rw [invoke_error hc hstep]
  cases c with
  | listJobs => rfl
  | deleteJob => cases hrefused
  | createJob => exact hstep _ rfl
  | updateJob => exact hstep _ rfl
  | cancelUpdate => exact hstep _ rfl
  | restartJob => exact hstep _ rfl

theorem Follows.obeys (hf : Follows h table) : Obeys h table where
  create key spec := by
    rw [isSuccess_invoke_iff rfl, hf.free_iff]
    simp [create_eq_ok_iff]
  update key spec i := by
    rw [isSuccess_invoke_iff rfl, hf.live_iff]
    simp [update_eq_ok_iff]
  restart key spec i := by
    rw [isSuccess_invoke_iff rfl, hf.live_iff]
    simp only [restart_eq_ok_iff]
    exact exists_comm.trans (by simp)
  cancel key spec := by
    rw [isSuccess_invoke_iff rfl, hf.live_iff]
    simp only [cancelUpdate_eq_ok_iff]
    constructor
    · rintro ⟨_, job, hget, hupdating, -⟩
      exact ⟨⟨job, hget⟩, (hf.held _ job hget).updating.symm.trans hupdating⟩
    · rintro ⟨⟨job, hget⟩, hupdating⟩
      exact ⟨_, job, hget, (hf.held _ job hget).updating.trans hupdating, rfl⟩
  delete key spec i := by
    rw [invoke_deleteJob, JobTable.delete]
    cases hget : table.get? key.text with
    | none => rw [hf.free_iff.2 hget, if_neg (by decide)]
    | some job =>
      rw [hf.live_iff.2 ⟨job, hget⟩, if_pos rfl]
      cases i.isAll <;> rfl
  list key := ⟨_, rfl, hf.list key.cluster key.roleName⟩
  refused _ := refused_unchanged
  restarts key hlive hcount := by
    obtain ⟨job, hget⟩ := hf.live_iff.1 hlive
    have ht := hf.held key job hget
    rw [restarts?, hget, Option.map_some, Option.map_some, ht.restarts,
      UInt32.toNat_ofNat_of_lt' hcount]
  killed key hlive := by
    obtain ⟨job, hget⟩ := hf.live_iff.1 hlive
    have ht := hf.held key job hget
    rw [killed?, hget, Option.map_some]
    exact ⟨_, rfl, job.killed.pairwise_keys, ht.killed⟩
  free key hfree := by
    rw [restarts?, killed?, hf.free_iff.1 hfree]
    exact ⟨rfl, rfl⟩

/-- At every point of a run that starts without jobs, the commands so far tell which jobs there are,
what is kept of them, and what may be done next. -/
theorem history_law (commands : List JobCommand) :
    let run := commands.mapM delegate.invoke .empty
    Obeys (commands.zip run.1) run.2 :=
  (follows_empty.mapM_invoke commands).obeys

/-- A job that was deleted and is created again starts anew. -/
example : let key := JobKey.full "c" "r" "e" "n"
    let commands := [.createJob key ⟨[120]⟩, .restartJob key none .all, .deleteJob key none ⟨["0"]⟩,
      .deleteJob key none .all, .createJob key ⟨[120]⟩]
    let run := commands.mapM delegate.invoke .empty
    History.restarts (commands.zip run.1) key.text = 0 ∧ run.2.killed? key.text = some [] := by
  decide +kernel

end JobTable

end JobGateway
