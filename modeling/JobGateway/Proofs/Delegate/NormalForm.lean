import JobGateway.Delegate.Basic

/-! The normal form of results. Whatever a delegate does when it is called for a command, the result
bears the key of the command and is one of two: a success with what the call delivered and no errors,
or a failure with the empty payload of the operation and the lines of the error. -/
namespace JobGateway

variable {σ α : Type}

namespace Outcome

/-- The error that a call ends with, if it does not return. A panic is an error too. -/
def error? : Outcome α → Option CommandError
  | .returned _ => none
  | .failed e => some e
  | .panicked p => some (.panicked p.message)

theorem error?_map {β : Type} (f : α → β) (o : Outcome α) : (o.map f).error? = o.error? := by
  cases o <;> rfl

theorem map_eq_returned_iff {β : Type} {f : α → β} {o : Outcome α} {b : β} :
    o.map f = .returned b ↔ ∃ a, o = .returned a ∧ f a = b := by
  cases o <;> simp [map]

/-- Every error makes a failure with its lines, a panic like any other. -/
theorem toResult_of_error? {o : Outcome Payload} {e : CommandError} (h : o.error? = some e)
    (key : String) (op : Operation) : o.toResult key op = .failure key op e.diagnostics := by
  cases o with
  | returned payload => cases h
  | failed e =>
    cases h
    rfl
  | panicked p =>
    cases h
    rfl

end Outcome

/-- No key has an empty text, not even one of empty parts. -/
theorem JobKey.isEmpty_text (key : JobKey) : key.text.isEmpty = false := by
  have hslash : ∀ a b : String, (a ++ "/" ++ b).isEmpty = false := by
    intro a b
    rw [Bool.eq_false_iff, ne_eq, String.isEmpty_iff]
    simp
  cases key with
  | role c r => exact hslash c r
  | full c r e n => exact hslash (c ++ "/" ++ r ++ "/" ++ e) n

namespace Delegate

/-- The call that a command asks for returns, in a state, what makes this payload. -/
inductive Returns (d : Delegate σ) (s : σ) : JobCommand → Payload → Prop
  | listJobs {key : JobKey} {keys : List String}
      (h : (d.listJobs key.cluster key.roleName s).1 = .returned keys) :
    Returns d s (.listJobs key) (.jobs keys)
  | createJob {key : JobKey} {spec : JobSpec} (h : (d.createJob key spec s).1 = .returned ()) :
    Returns d s (.createJob key spec) (.job key.text)
  | updateJob {key : JobKey} {spec : JobSpec} {i : Instances}
      (h : (d.updateJob key spec i s).1 = .returned ()) :
    Returns d s (.updateJob key spec i) (.job key.text)
  | cancelUpdate {key : JobKey} {spec : Option JobSpec}
      (h : (d.cancelUpdate key spec s).1 = .returned ()) :
    Returns d s (.cancelUpdate key spec) (.job key.text)
  | restartJob {key : JobKey} {spec : Option JobSpec} {i : Instances}
      (h : (d.restartJob key spec i s).1 = .returned ()) :
    Returns d s (.restartJob key spec i) (.job key.text)
  | deleteJob {key : JobKey} {spec : Option JobSpec} {i : Instances} {keys : List String}
      (h : (d.deleteJob key spec i s).1 = .returned keys) :
    Returns d s (.deleteJob key spec i) (.deleted keys)

/-- The call that a command asks for ends, in a state, with this error. -/
inductive Fails (d : Delegate σ) (s : σ) : JobCommand → CommandError → Prop
  | listJobs {key : JobKey} {e : CommandError}
      (h : (d.listJobs key.cluster key.roleName s).1.error? = some e) : Fails d s (.listJobs key) e
  | createJob {key : JobKey} {spec : JobSpec} {e : CommandError}
      (h : (d.createJob key spec s).1.error? = some e) : Fails d s (.createJob key spec) e
  | updateJob {key : JobKey} {spec : JobSpec} {i : Instances} {e : CommandError}
      (h : (d.updateJob key spec i s).1.error? = some e) : Fails d s (.updateJob key spec i) e
  | cancelUpdate {key : JobKey} {spec : Option JobSpec} {e : CommandError}
      (h : (d.cancelUpdate key spec s).1.error? = some e) : Fails d s (.cancelUpdate key spec) e
  | restartJob {key : JobKey} {spec : Option JobSpec} {i : Instances} {e : CommandError}
      (h : (d.restartJob key spec i s).1.error? = some e) : Fails d s (.restartJob key spec i) e
  | deleteJob {key : JobKey} {spec : Option JobSpec} {i : Instances} {e : CommandError}
      (h : (d.deleteJob key spec i s).1.error? = some e) : Fails d s (.deleteJob key spec i) e

end Delegate

/-- A success of a command: its own key, and a payload. -/
structure IsSuccessWith (c : JobCommand) (payload : Payload) (r : JobResult) : Prop where
  key : r.key = c.jobKey
  payload : r.payload = payload
  errors : r.errors = none

/-- A failure of a command: its own key, the payload of a failure of its operation, and the lines of
an error, of which there is one at least. -/
structure IsFailureWith (c : JobCommand) (e : CommandError) (r : JobResult) : Prop where
  key : r.key = c.jobKey
  payload : r.payload = .empty c.operation
  count : r.payload.count = 0
  errors : r.errors = some e.diagnostics
  nonempty : e.diagnostics ≠ []
  isSuccess : r.isSuccess = false

/-- The result of a command for which a delegate is called in a state: a success with what the call
returned, or a failure with the error that it ended with. -/
structure IsNormal (d : Delegate σ) (s : σ) (c : JobCommand) (r : JobResult) : Prop where
  ends : (∃ payload, d.Returns s c payload) ∨ ∃ e, d.Fails s c e
  success : ∀ payload, d.Returns s c payload → IsSuccessWith c payload r
  failure : ∀ e, d.Fails s c e → IsFailureWith c e r
  isSuccess_iff : r.isSuccess = true ↔ ∃ payload, d.Returns s c payload

theorem isFailureWith_failure (c : JobCommand) (e : CommandError) :
    IsFailureWith c e (.failure c.jobKey c.operation e.diagnostics) := by
  refine ⟨rfl, rfl, Payload.count_empty c.operation, ?_, e.diagnostics_ne_nil, rfl⟩
  rw [JobResult.failure, if_neg]
  rw [List.isEmpty_iff]
  exact e.diagnostics_ne_nil

/-- What a command fails with without being run. -/
theorem isFailureWith_fail (c : JobCommand) (e : CommandError) : IsFailureWith c e (c.fail e) :=
  isFailureWith_failure c e

namespace Delegate

variable {d : Delegate σ} {s : σ} {c : JobCommand}

/-- The payload of a success is of the kind of its operation. -/
theorem Returns.kind {payload : Payload} (h : d.Returns s c payload) :
    match c.operation with
    | .listJobs => ∃ keys, payload = .jobs keys
    | .deleteJob => ∃ keys, payload = .deleted keys
    | _ => payload = .job c.jobKey ∧ payload.count = 1 := by
  have hcount : ∀ key : JobKey, (Payload.job key.text).count = 1 := fun key =>
    if_neg (by simp [key.isEmpty_text])
  cases h with
  | listJobs => exact ⟨_, rfl⟩
  | deleteJob => exact ⟨_, rfl⟩
  | _ => exact ⟨rfl, hcount _⟩

/-- A call returns what the call of the operation returns. -/
theorem call_eq_returned_iff {payload : Payload} :
    (d.call c s).1 = .returned payload ↔ d.Returns s c payload := by
  constructor
  · intro h
    cases c <;>
      · obtain ⟨_, hcall, rfl⟩ := Outcome.map_eq_returned_iff.1 h
        constructor
        exact hcall
  · intro h
    cases h <;> exact Outcome.map_eq_returned_iff.2 ⟨_, ‹_›, rfl⟩

/-- A call ends with the error that the call of the operation ends with. -/
theorem error?_call_iff {e : CommandError} :
    (d.call c s).1.error? = some e ↔ d.Fails s c e := by
  constructor
  · intro h
    cases c <;>
      · constructor
        exact (Outcome.error?_map ..).symm.trans h
  · intro h
    cases h <;> exact (Outcome.error?_map ..).trans ‹_›

/-- The result of every call is in normal form. -/
theorem isNormal_invoke (d : Delegate σ) (c : JobCommand) (s : σ) :
    IsNormal d s c (d.invoke c s).1 := by
  have hresult : (d.invoke c s).1 = (d.call c s).1.toResult c.jobKey c.operation := rfl
  have hends : (∃ payload, d.Returns s c payload) ∨ ∃ e, d.Fails s c e := by
    cases houtcome : (d.call c s).1 with
    | returned payload => exact .inl ⟨payload, call_eq_returned_iff.1 houtcome⟩
    | failed e => exact .inr ⟨e, error?_call_iff.1 (by rw [houtcome]; rfl)⟩
    | panicked p => exact .inr ⟨_, error?_call_iff.1 (by rw [houtcome]; rfl)⟩
  have hsuccess : ∀ payload, d.Returns s c payload →
      IsSuccessWith c payload (d.invoke c s).1 := by
    intro payload h
    rw [hresult, call_eq_returned_iff.2 h]
    exact ⟨rfl, rfl, rfl⟩
  have hfailure : ∀ e, d.Fails s c e → IsFailureWith c e (d.invoke c s).1 := by
    intro e h
    rw [hresult, Outcome.toResult_of_error? (error?_call_iff.2 h)]
    exact isFailureWith_failure c e
  refine ⟨hends, hsuccess, hfailure, ?_⟩
  constructor
  · intro h
    obtain hreturns | ⟨e, hfails⟩ := hends
    · exact hreturns
    · rw [(hfailure e hfails).isSuccess] at h
      cases h
  · rintro ⟨payload, h⟩
    rw [JobResult.isSuccess, (hsuccess payload h).errors]
    rfl

end Delegate

end JobGateway
