import JobGateway.Proofs.Delegate.Independence
import JobGateway.Proofs.Job.Key
import Mathlib.Data.Finmap
import Mathlib.Data.Finset.Sort
import Mathlib.Data.String.Basic

/-! Jobs under keys instead of texts. A table of keys gives each command the entry of its own key and
nothing else, and lists keys by their parts. As long as no part holds a slash, a table of texts answers
every command as the table of keys does. -/
namespace JobGateway

/-- The jobs under their keys. -/
abbrev KeyTable := Finmap fun _ : JobKey => Job

namespace KeyTable

/-- The job that stands under a key, where there has to be one. -/
def existing (key : JobKey) (held : Option Job) : Except CommandError Job :=
  match held with
  | some job => .ok job
  | none => .error (JobTable.notFound key.text)

/-- What stands under the key of a command after it, or why the command is refused. A list changes
nothing. -/
def next (c : JobCommand) (held : Option Job) : Except CommandError (Option Job) :=
  match c with
  | .listJobs _ => .ok held
  | .createJob key spec => do
    JobTable.checkSpec spec
    if held.isSome then .error (JobTable.alreadyExists key.text) else return some .fresh
  | .updateJob key spec _ => do
    JobTable.checkSpec spec
    return some { ← existing key held with updating := true }
  | .cancelUpdate key _ => do
    let job ← existing key held
    if job.updating then return some { job with updating := false }
    else .error (JobTable.notUpdating key.text)
  | .restartJob key _ _ => do
    let job ← existing key held
    return some { job with restarts := job.restarts + 1 }
  | .deleteJob _ _ instances =>
    .ok (if instances.isAll then none
      else held.map fun job => { job with
        killed := instances.ids.foldl (fun killed id => killed.insert id ()) job.killed })

/-- What a command that is no list and is not refused delivers. -/
def delivered (c : JobCommand) (held : Option Job) : Payload :=
  match c with
  | .deleteJob key _ _ => .deleted (if held.isSome then [key.text] else [])
  | _ => .job c.jobKey

def put (keyed : KeyTable) (key : JobKey) : Option Job → KeyTable
  | some job => keyed.insert key job
  | none => keyed.erase key

/-- The texts of the keys of the jobs of a cluster and a role, ascending. -/
def list (keyed : KeyTable) (cluster role : String) : List String :=
  ((keyed.keys.filter fun k => k.isFull ∧ k.cluster = cluster ∧ k.roleName = role).image
    JobKey.text).sort

/-- Run a command. -/
def invoke (c : JobCommand) : StateM KeyTable JobResult := fun keyed =>
  match c with
  | .listJobs key => (.success key.text (.jobs (keyed.list key.cluster key.roleName)), keyed)
  | c =>
    match next c (keyed.lookup c.key) with
    | .ok held => (.success c.jobKey (delivered c (keyed.lookup c.key)), keyed.put c.key held)
    | .error e => (c.fail e, keyed)

variable {keyed keyed' : KeyTable} {c : JobCommand} {k : JobKey} {cluster role : String}

theorem lookup_put (keyed : KeyTable) (key k : JobKey) (held : Option Job) :
    (keyed.put key held).lookup k = if k = key then held else keyed.lookup k := by
  by_cases hk : k = key
  · subst hk
    cases held <;> simp [put, Finmap.lookup_erase, Finmap.lookup_insert]
  · rw [if_neg hk]
    cases held with
    | none => exact Finmap.lookup_erase_ne hk
    | some job => exact Finmap.lookup_insert_of_ne keyed hk

/-- Exactly the keys of a cluster and a role are listed. -/
theorem mem_list {text : String} : text ∈ keyed.list cluster role ↔
    ∃ env name, (keyed.lookup (.full cluster role env name)).isSome ∧
      text = JobKey.fullText cluster role env name := by
  simp only [list, Finset.mem_sort, Finset.mem_image, Finset.mem_filter, Finmap.mem_keys,
    ← Finmap.lookup_isSome]
  constructor
  · rintro ⟨k, ⟨hk, hfull, rfl, rfl⟩, rfl⟩
    cases k with
    | role => cases hfull
    | full c r e n => exact ⟨e, n, hk, rfl⟩
  · rintro ⟨env, name, hk, rfl⟩
    exact ⟨_, ⟨hk, rfl, rfl, rfl⟩, rfl⟩

theorem pairwise_list (keyed : KeyTable) (cluster role : String) :
    (keyed.list cluster role).Pairwise (· < ·) :=
  (Finset.sortedLT_sort _).pairwise

/-- A command that is no list is answered from the entry of its key. -/
theorem invoke_eq (hlist : c.operation ≠ .listJobs) (keyed : KeyTable) :
    invoke c keyed =
      match next c (keyed.lookup c.key) with
      | .ok held => (.success c.jobKey (delivered c (keyed.lookup c.key)), keyed.put c.key held)
      | .error e => (c.fail e, keyed) := by
  cases c with
  | listJobs => exact absurd rfl hlist
  | _ => rfl

theorem invoke_list (hlist : c.operation = .listJobs) (keyed : KeyTable) :
    (invoke c keyed).2 = keyed := by
  cases c with
  | listJobs => rfl
  | _ => cases hlist

/-- A command changes nothing but the entry of its key. -/
theorem lookup_invoke_of_ne (hk : k ≠ c.key) (keyed : KeyTable) :
    (invoke c keyed).2.lookup k = keyed.lookup k := by
  by_cases hlist : c.operation = .listJobs
  · rw [invoke_list hlist]
  · rw [invoke_eq hlist]
    cases next c (keyed.lookup c.key) with
    | error e => rfl
    | ok held => rw [lookup_put, if_neg hk]

/-- What stands under the key of a command after it. -/
theorem lookup_invoke (c : JobCommand) (keyed : KeyTable) :
    (invoke c keyed).2.lookup c.key =
      (next c (keyed.lookup c.key)).toOption.getD (keyed.lookup c.key) := by
  by_cases hlist : c.operation = .listJobs
  · rw [invoke_list hlist]
    cases c with
    | listJobs => rfl
    | _ => cases hlist
  · rw [invoke_eq hlist]
    cases next c (keyed.lookup c.key) with
    | error e => rfl
    | ok held =>
      rw [lookup_put, if_pos rfl]
      rfl

/-- A command that is no list looks at nothing but the entry of its key. -/
theorem invoke_congr (hlist : c.operation ≠ .listJobs)
    (h : keyed.lookup c.key = keyed'.lookup c.key) :
    (invoke c keyed).1 = (invoke c keyed').1 ∧
      (invoke c keyed).2.lookup c.key = (invoke c keyed').2.lookup c.key := by
  rw [lookup_invoke, lookup_invoke, invoke_eq hlist, invoke_eq hlist, h]
  cases next c (keyed'.lookup c.key) <;> exact ⟨rfl, rfl⟩

end KeyTable

namespace JobTable

open KeyTable (next delivered)

variable {table : JobTable} {c : JobCommand}

/-- A step under a key does with the job there what is done with an entry. -/
theorem get?_step {step : JobTable → Except CommandError JobTable} (hc : step? c = some step)
    (table : JobTable) :
    (step table).map (fun table => table.get? c.jobKey) = next c (table.get? c.jobKey) := by
  cases c with
  | listJobs => cases hc
  | deleteJob => cases hc
  | createJob key spec =>
    cases hc
    have htaken : table.contains key.text = (table.get? key.text).isSome := rfl
    have hkey : (JobCommand.createJob key spec).jobKey = key.text := rfl
    rw [hkey]
    cases hget : table.get? key.text <;> cases hcheck : checkSpec spec <;>
      simp [create, next, htaken, hget, hcheck, bind, Except.bind, Except.map, pure, Except.pure]
  | updateJob key spec i =>
    cases hc
    simp only [update, change, next, KeyTable.existing, JobCommand.jobKey, JobCommand.key]
    cases checkSpec spec <;> cases table.get? key.text <;>
      simp [bind, Except.bind, Except.map, pure, Except.pure]
  | cancelUpdate key spec =>
    cases hc
    simp only [cancelUpdate, change, next, KeyTable.existing, JobCommand.jobKey, JobCommand.key]
    cases table.get? key.text with
    | none => rfl
    | some job => cases hjob : job.updating <;> simp [hjob, bind, Except.bind, Except.map, pure, Except.pure]
  | restartJob key spec i =>
    cases hc
    simp only [restart, change, next, KeyTable.existing, JobCommand.jobKey, JobCommand.key]
    cases table.get? key.text <;> simp [bind, Except.bind, Except.map, pure, Except.pure]

/-- A command that is no list is answered from what stands under the text of its key. -/
theorem invoke_eq_next (hlist : c.operation ≠ .listJobs) (table : JobTable) :
    (delegate.invoke c table).1 =
        (match next c (table.get? c.jobKey) with
          | .ok _ => .success c.jobKey (delivered c (table.get? c.jobKey))
          | .error e => c.fail e) ∧
      (delegate.invoke c table).2.get? c.jobKey =
        (next c (table.get? c.jobKey)).toOption.getD (table.get? c.jobKey) := by
  cases hc : step? c with
  | some step =>
    rw [← get?_step hc table]
    cases hstep : step table with
    | error e =>
      rw [invoke_error hc hstep]
      exact ⟨rfl, rfl⟩
    | ok next =>
      rw [invoke_ok hc hstep]
      refine ⟨?_, rfl⟩
      cases c <;> first | rfl | cases hc
  | none =>
    cases c with
    | listJobs => exact absurd rfl hlist
    | deleteJob key spec i =>
      have hkey : (JobCommand.deleteJob key spec i).jobKey = key.text := rfl
      rw [hkey, invoke_deleteJob, delete]
      cases hget : table.get? key.text with
      | none => cases hall : i.isAll <;> simp [next, delivered, hget, hall, Except.toOption]
      | some job => cases hall : i.isAll <;> simp [next, delivered, hall, Except.toOption]
    | createJob => cases hc
    | updateJob => cases hc
    | cancelUpdate => cases hc
    | restartJob => cases hc

/-- A table of texts and a table of plain keys with the same jobs. -/
structure Mirrors (table : JobTable) (keyed : KeyTable) : Prop where
  entry : ∀ k : JobKey, k.IsPlain → table.get? k.text = keyed.lookup k
  texts : ∀ text, (table.get? text).isSome → ∃ k : JobKey, k.IsPlain ∧ k.text = text
  keys : ∀ k, (keyed.lookup k).isSome → k.IsPlain

variable {keyed : KeyTable}

theorem mirrors_empty : Mirrors .empty ∅ where
  entry k _ := by rw [Finmap.lookup_empty, TextMap.get?_empty]
  texts _ h := by cases h
  keys k h := by
    rw [Finmap.lookup_empty] at h
    cases h

/-- Both tables list the same jobs. -/
theorem Mirrors.list (h : Mirrors table keyed) {cluster role : String}
    (hcluster : '/' ∉ cluster.toList) (hrole : '/' ∉ role.toList) :
    table.list cluster role = keyed.list cluster role := by
  have hsorted : (table.list cluster role).Pairwise (· < ·) := table.pairwise_keys.filter _
  refine hsorted.sortedLT.eq_of_mem_iff (keyed.pairwise_list cluster role).sortedLT fun text => ?_
  rw [KeyTable.mem_list, JobTable.list, List.mem_filter, TextMap.mem_keys_iff, isPrefixOf_iff]
  constructor
  · rintro ⟨hget, hstarts⟩
    obtain ⟨k, hk, rfl⟩ := h.texts text hget
    obtain ⟨env, name, rfl⟩ := (JobKey.text_eq_append_iff hk hcluster hrole).1 hstarts
    exact ⟨env, name, h.entry _ hk ▸ hget, rfl⟩
  · rintro ⟨env, name, hlookup, rfl⟩
    have hk := h.keys _ hlookup
    exact ⟨(h.entry _ hk).symm ▸ hlookup, (JobKey.text_eq_append_iff hk hcluster hrole).2 ⟨env, name, rfl⟩⟩

/-- Every command on a plain key is answered alike, and leaves the same jobs. -/
theorem Mirrors.invoke (h : Mirrors table keyed) (hc : c.key.IsPlain) :
    (delegate.invoke c table).1 = (KeyTable.invoke c keyed).1 ∧
      Mirrors (delegate.invoke c table).2 (KeyTable.invoke c keyed).2 := by
  by_cases hlist : c.operation = .listJobs
  · cases c with
    | listJobs key =>
      replace hc : key.IsPlain := hc
      have hsame := h.list hc.cluster hc.roleName
      refine ⟨?_, h⟩
      change JobResult.success _ (.jobs (table.list _ _)) = _
      rw [hsame]
      rfl
    | _ => cases hlist
  · obtain ⟨hresult, hget⟩ := invoke_eq_next hlist table
    have hentry : table.get? c.jobKey = keyed.lookup c.key := h.entry c.key hc
    rw [hentry] at hresult hget
    rw [← KeyTable.lookup_invoke] at hget
    refine ⟨?_, ?_, ?_, ?_⟩
    · rw [hresult, KeyTable.invoke_eq hlist]
      cases next c (keyed.lookup c.key) <;> rfl
    · intro k hk
      by_cases hkey : k = c.key
      · subst hkey
        exact hget
      · have htext : k.text ≠ c.jobKey := fun heq => hkey ((JobKey.text_inj hk hc).1 heq)
        rw [get?_invoke_of_ne htext, KeyTable.lookup_invoke_of_ne hkey, h.entry k hk]
    · intro text htext
      by_cases hkey : text = c.jobKey
      · exact ⟨c.key, hc, hkey.symm⟩
      · rw [get?_invoke_of_ne hkey] at htext
        exact h.texts text htext
    · intro k hk
      by_cases hkey : k = c.key
      · exact hkey ▸ hc
      · rw [KeyTable.lookup_invoke_of_ne hkey] at hk
        exact h.keys k hk

/-- Every run of commands on plain keys is answered alike. -/
theorem Mirrors.mapM_invoke (h : Mirrors table keyed) {commands : List JobCommand}
    (hplain : ∀ c ∈ commands, c.key.IsPlain) :
    (commands.mapM delegate.invoke table).1 = (commands.mapM KeyTable.invoke keyed).1 ∧
      Mirrors (commands.mapM delegate.invoke table).2 (commands.mapM KeyTable.invoke keyed).2 := by
  induction commands generalizing table keyed with
  | nil => exact ⟨rfl, h⟩
  | cons c commands ih =>
    rw [List.forall_mem_cons] at hplain
    obtain ⟨hresult, hnext⟩ := h.invoke hplain.1
    obtain ⟨hresults, hlast⟩ := ih hnext hplain.2
    rw [mapM_cons_state, mapM_cons_state, hresult, hresults]
    exact ⟨rfl, hlast⟩

/-- While the parts of all keys are free of slashes, which may be empty, the text of a key tells the
key, and every run of commands has the results that it has on a table of keys, in which a command reads
and changes the entry of its own key only. A list of a cluster and a role has the jobs of this cluster
and this role and no other, in the order of their texts. -/
theorem texts_stand_for_keys (commands : List JobCommand) (hplain : ∀ c ∈ commands, c.key.IsPlain) :
    let run := commands.mapM delegate.invoke .empty
    let keyed := commands.mapM KeyTable.invoke ∅
    (∀ k k' : JobKey, k.IsPlain → k'.IsPlain → (k.text = k'.text ↔ k = k')) ∧
    run.1 = keyed.1 ∧
    (∀ k : JobKey, k.IsPlain → run.2.get? k.text = keyed.2.lookup k) ∧
    (∀ (c : JobCommand) (other : KeyTable), c.operation ≠ .listJobs →
      keyed.2.lookup c.key = other.lookup c.key →
      (KeyTable.invoke c keyed.2).1 = (KeyTable.invoke c other).1 ∧
        (KeyTable.invoke c keyed.2).2.lookup c.key = (KeyTable.invoke c other).2.lookup c.key) ∧
    (∀ (c : JobCommand) (k : JobKey), c.operation = .listJobs ∨ k ≠ c.key →
      (KeyTable.invoke c keyed.2).2.lookup k = keyed.2.lookup k) ∧
    ∀ cluster role : String, '/' ∉ cluster.toList → '/' ∉ role.toList →
      ∃ listed, delegate.listJobs cluster role run.2 = (.returned listed, run.2) ∧
        listed.Pairwise (· < ·) ∧
        ∀ text, text ∈ listed ↔ ∃ env name, (keyed.2.lookup (.full cluster role env name)).isSome ∧
          text = JobKey.fullText cluster role env name := by
  intro run keyed
  obtain ⟨hresults, hmirrors⟩ := mirrors_empty.mapM_invoke hplain
  refine ⟨fun _ _ => JobKey.text_inj, hresults, hmirrors.entry, fun c other hlist hsame =>
    KeyTable.invoke_congr hlist hsame, ?_, fun cluster role hcluster hrole => ?_⟩
  · rintro c k (hlist | hk)
    · rw [KeyTable.invoke_list hlist]
    · exact KeyTable.lookup_invoke_of_ne hk _
  · refine ⟨_, rfl, ?_, fun text => ?_⟩
    · exact run.2.pairwise_keys.filter _
    · rw [hmirrors.list hcluster hrole, KeyTable.mem_list]

/-- Neither a job of a role whose name goes on nor an entry under the key of the role is listed. -/
theorem listed_among_neighbours :
    let commands : List JobCommand := [.createJob (.full "c" "r" "e" "n") ⟨[0]⟩,
      .createJob (.full "c" "ro" "" "n") ⟨[0]⟩, .createJob (.role "c" "r") ⟨[0]⟩]
    let run := commands.mapM delegate.invoke .empty
    (∀ c ∈ commands, c.key.IsPlain) ∧ run.2.keys = ["c/r", "c/r/e/n", "c/ro//n"] ∧
      run.1 = (commands.mapM KeyTable.invoke ∅).1 ∧
      ∃ listed, delegate.listJobs "c" "r" run.2 = (.returned listed, run.2) ∧
        "c/r/e/n" ∈ listed ∧ "c/r" ∉ listed ∧ "c/ro//n" ∉ listed := by
  intro commands run
  have hplain : ∀ c ∈ commands, c.key.IsPlain := by decide
  obtain ⟨-, hresults, hentry, -, -, hlist⟩ := texts_stand_for_keys commands hplain
  obtain ⟨listed, hlisted, -, hmem⟩ := hlist "c" "r" (by decide) (by decide)
  refine ⟨hplain, by decide, hresults, listed, hlisted, ?_, ?_, ?_⟩
  · refine (hmem _).2 ⟨"e", "n", ?_, by decide⟩
    rw [← hentry (.full "c" "r" "e" "n") (by decide)]
    decide
  · rw [hmem]
    rintro ⟨env, name, -, htext⟩
    simp [JobKey.fullText, String.ext_iff] at htext
  · rw [hmem]
    rintro ⟨env, name, -, htext⟩
    simp [JobKey.fullText, String.ext_iff] at htext

end JobTable

end JobGateway
