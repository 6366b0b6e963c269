import JobGateway.Proofs.Text.Utf8
import JobGateway.Worker.Process

/-! What is taken for the result of a request. Whatever bytes a process writes, only the first line of
them is read, and it is a result of the request only if it says so under the identifier of the
request. -/
namespace JobGateway

/-- A byte string, cut behind its first line feed; without one, all of it is its first line. -/
inductive IsFirstLine : List UInt8 → List UInt8 → List UInt8 → Prop
  | ended {bytes rest : List UInt8} (h : 10 ∉ bytes) :
    IsFirstLine (bytes ++ 10 :: rest) (bytes ++ [10]) rest
  | last {bytes : List UInt8} (h : 10 ∉ bytes) : IsFirstLine bytes bytes []

theorem isFirstLine_firstLine (bytes : List UInt8) :
    IsFirstLine bytes (firstLine bytes).1 (firstLine bytes).2 := by
  induction bytes with
  | nil => exact .last List.not_mem_nil
  | cons b bytes ih =>
    rw [firstLine]
    split_ifs with hb
    · subst hb
      exact .ended List.not_mem_nil
    · generalize firstLine bytes = cut at ih
      obtain ⟨line, rest⟩ := cut
      have hnot {l : List UInt8} (h : 10 ∉ l) : 10 ∉ b :: l := by
        simp [Ne.symm hb, h]
      cases ih with
      | ended h => exact .ended (hnot h)
      | last h => exact .last (hnot h)

/-- If a line was ended, the first line has its line feed. -/
theorem IsFirstLine.lineFeed_mem {bytes line rest : List UInt8} (h : IsFirstLine bytes line rest)
    (hmem : 10 ∈ bytes) : 10 ∈ line := by
  cases h with
  | ended => exact List.mem_append_right _ (List.mem_singleton_self 10)
  | last h => exact absurd hmem h

/-- A line that is a text and, without the blanks at its end, a reply. -/
def Reads (line : List UInt8) (reply : WorkerReply) : Prop :=
  ∃ text, line = Utf8.encode text ∧
    WorkerReply.decoder.decode (String.ofList (Text.trimRight text)) = .ok reply

variable {line : List UInt8} {reply : WorkerReply} {id : Uuid} {result : JobResult}

theorem not_reads_nil : ¬ Reads [] reply := by
  rintro ⟨text, htext, hdecode⟩
  have hempty : (WorkerReply.decoder.decode (String.ofList (Text.trimRight []))).toBool = false := by
    decide +kernel
  have hnil : Utf8.decode [] = .ok [] := Utf8.decode_eq_ok_iff.2 rfl
  rw [Utf8.decode_eq_ok_iff.2 htext] at hnil
  cases hnil
  rw [hdecode] at hempty
  cases hempty

/-- A line that is a reply is taken as the reply is. -/
theorem acceptLine_of_reads (h : Reads line reply) : acceptLine id line = reply.accept id := by
  have hne : line.isEmpty = false := by
    rw [List.isEmpty_eq_false_iff]
    rintro rfl
    exact not_reads_nil h
  obtain ⟨text, rfl, hdecode⟩ := h
  rw [acceptLine, hne]
  simp only [Bool.false_eq_true, if_false, Utf8.decode_encode, hdecode]

/-- A fault of a process, or of what it wrote. -/
def CommandError.IsOfWorker (e : CommandError) : Prop :=
  ∃ message, e = .marshal message ∨ e = .worker message

/-- A line that is no reply is no answer. -/
theorem acceptLine_of_not_reads (h : ∀ reply, ¬ Reads line reply) (id : Uuid) :
    ∃ e, acceptLine id line = .error e ∧ e.IsOfWorker := by
  rw [acceptLine]
  split_ifs with hempty
  · exact ⟨_, rfl, _, .inr rfl⟩
  · cases hdecode : Utf8.decode line with
    | error fault => exact ⟨_, rfl, _, .inr rfl⟩
    | ok text =>
      dsimp only
      cases hreply : WorkerReply.decoder.decode (String.ofList (Text.trimRight text)) with
      | error refusal => exact ⟨_, rfl, _, .inl rfl⟩
      | ok reply => exact absurd ⟨text, Utf8.decode_eq_ok_iff.1 hdecode, hreply⟩ (h reply)

namespace WorkerReply

theorem accept_eq_ok_iff : reply.accept id = .ok result ↔ reply = .done id result := by
  constructor
  · intro h
    rw [accept] at h
    split_ifs at h with hid
    cases reply with
    | done id' result' =>
      cases hid
      cases h
      rfl
    | rejected => cases h
  · rintro rfl
    exact if_pos rfl

theorem accept_rejected (id : Uuid) (error : String) :
    (rejected (some id) error).accept id = .error (.marshal error) :=
  if_pos rfl

theorem accept_error {e : CommandError} (h : reply.accept id = .error e) : e.IsOfWorker := by
  rw [accept] at h
  split_ifs at h with hid
  · cases reply with
    | done => cases h
    | rejected _ error =>
      cases h
      exact ⟨error, .inl rfl⟩
  · cases h
    exact ⟨_, .inr rfl⟩

end WorkerReply

theorem acceptLine_eq_ok_iff : acceptLine id line = .ok result ↔ Reads line (.done id result) := by
  constructor
  · intro h
    by_cases hreads : ∃ reply, Reads line reply
    · obtain ⟨reply, hreply⟩ := hreads
      rw [acceptLine_of_reads hreply, WorkerReply.accept_eq_ok_iff] at h
      exact h ▸ hreply
    · obtain ⟨e, he, -⟩ := acceptLine_of_not_reads (not_exists.1 hreads) id
      rw [h] at he
      cases he
  · intro h
    rw [acceptLine_of_reads h, WorkerReply.accept_eq_ok_iff]

theorem acceptLine_error {e : CommandError} (h : acceptLine id line = .error e) : e.IsOfWorker := by
  by_cases hreads : ∃ reply, Reads line reply
  · obtain ⟨reply, hreply⟩ := hreads
    rw [acceptLine_of_reads hreply] at h
    exact WorkerReply.accept_error h
  · obtain ⟨e', he, hworker⟩ := acceptLine_of_not_reads (not_exists.1 hreads) id
    rw [h] at he
    cases he
    exact hworker

end JobGateway
