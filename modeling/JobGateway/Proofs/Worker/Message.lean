import JobGateway.Proofs.Job.Wire
import JobGateway.Proofs.Json.Yields
import JobGateway.Worker.Message

/-! Requests and replies through their texts. A request is written unless its specification is no
text, and what is written is read back as it was. -/
namespace JobGateway

open Json

namespace JobCommand

/-- A specification, if there is one, is text. -/
def HasText (c : JobCommand) : Prop := ∀ spec, c.spec? = some spec → Utf8.IsText spec.bytes

theorem hasText_iff {c : JobCommand} : c.HasText ↔ ∃ j, c.toJson = .ok j := by
  constructor
  · intro h
    cases hj : c.toJson with
    | ok j => exact ⟨j, rfl⟩
    | error fault =>
      obtain ⟨spec, hspec, htext⟩ := toJson_eq_error_iff.1 hj
      exact absurd (h spec hspec) (JobSpec.text_eq_error_iff.1 ⟨fault, htext⟩)
  · rintro ⟨j, hj⟩ spec hspec
    by_contra hnot
    obtain ⟨fault, htext⟩ := JobSpec.text_eq_error_iff.2 hnot
    rw [toJson_eq_error_iff.2 ⟨spec, hspec, htext⟩] at hj
    cases hj

instance (c : JobCommand) : Decidable c.HasText :=
  match h : c.toJson with
  | .ok j => .isTrue (hasText_iff.2 ⟨j, h⟩)
  | .error _ => .isFalse fun htext => by
    obtain ⟨j, hj⟩ := hasText_iff.1 htext
    rw [hj] at h
    cases h

/-- The specifications read so far are text. -/
def TextParts (parts : Parts) : Prop :=
  (∀ spec, parts.spec = some spec → Utf8.IsText spec.bytes) ∧
    ∀ spec, parts.maybeSpec = some (some spec) → Utf8.IsText spec.bytes

theorem specDecoder_yields : JobSpec.decoder.Yields fun spec => Utf8.IsText spec.bytes :=
  .map (.parsed fun _ _ _ => ⟨_, rfl⟩)

theorem keySlot_keeps : keySlot.Keeps TextParts := by
  refine .keeping (.any _) ?_ ..
  rintro key parts - hparts
  exact hparts

theorem instancesSlot_keeps : instancesSlot.Keeps TextParts := by
  refine .keeping (.any _) ?_ ..
  rintro instances parts - hparts
  exact hparts

theorem specSlot_keeps : specSlot.Keeps TextParts := by
  refine .keeping specDecoder_yields ?_ ..
  rintro spec parts hspec ⟨-, hmaybe⟩
  refine ⟨?_, hmaybe⟩
  rintro _ ⟨⟩
  exact hspec

theorem maybeSpecSlot_keeps : maybeSpecSlot.Keeps TextParts := by
  have hoption : (Decoder.option JobSpec.decoder).Yields
      fun o => ∀ spec, o = some spec → Utf8.IsText spec.bytes := by
    refine .option (by simp) (specDecoder_yields.mono ?_)
    rintro spec hspec _ ⟨⟩
    exact hspec
  refine .keeping hoption ?_ ..
  rintro spec parts hspec ⟨hset, -⟩
  refine ⟨hset, ?_⟩
  rintro s hs
  exact hspec s (Option.some.inj hs)

/-- What is built from text parts has text. -/
theorem variant_hasText {name : String} {slots : List (Slot Parts)}
    {build : Parts → Except Mismatch JobCommand} (hslots : ∀ slot ∈ slots, slot.Keeps TextParts)
    (hbuild : ∀ parts c, TextParts parts → build parts = .ok c → c.HasText) (v : Json)
    (c : JobCommand) (h : variant name slots build v = .ok c) : c.HasText :=
  (Record.decoder_yields (r := variantRecord name slots build) hslots ⟨by rintro _ ⟨⟩, by rintro _ ⟨⟩⟩
    hbuild).ofJson v c h

theorem TextParts.getD {parts : Parts} (h : TextParts parts) (spec : JobSpec)
    (hspec : parts.maybeSpec.getD none = some spec) : Utf8.IsText spec.bytes := by
  cases hmaybe : parts.maybeSpec with
  | none =>
    rw [hmaybe] at hspec
    cases hspec
  | some o =>
    rw [hmaybe] at hspec
    cases hspec
    exact h.2 spec hmaybe

/-- The commands that are read have text, in whatever form they come. -/
theorem decoder_yields : JobCommand.decoder.Yields HasText := by
  apply InnerUnion.decoder_yields
  intro name variant hmem
  simp only [union, List.mem_cons, Prod.mk.injEq, List.not_mem_nil, or_false] at hmem
  obtain ⟨-, rfl⟩ | ⟨-, rfl⟩ | ⟨-, rfl⟩ | ⟨-, rfl⟩ | ⟨-, rfl⟩ | ⟨-, rfl⟩ := hmem
  · refine variant_hasText (by simp [keySlot_keeps]) ?_
    intro parts c hparts hc
    obtain ⟨key, -, hc⟩ := bind_eq_ok hc
    cases hc
    rintro spec ⟨⟩
  · refine variant_hasText (by simp [keySlot_keeps, specSlot_keeps]) ?_
    intro parts c hparts hc
    obtain ⟨key, -, hc⟩ := bind_eq_ok hc
    obtain ⟨spec, hspec, hc⟩ := bind_eq_ok hc
    cases hc
    rintro _ ⟨⟩
    exact hparts.1 spec (required_eq_ok hspec)
  · refine variant_hasText (by simp [keySlot_keeps, specSlot_keeps, instancesSlot_keeps]) ?_
    intro parts c hparts hc
    obtain ⟨key, -, hc⟩ := bind_eq_ok hc
    obtain ⟨spec, hspec, hc⟩ := bind_eq_ok hc
    cases hc
    rintro _ ⟨⟩
    exact hparts.1 spec (required_eq_ok hspec)
  · refine variant_hasText (by simp [keySlot_keeps, maybeSpecSlot_keeps]) ?_
    intro parts c hparts hc
    obtain ⟨key, -, hc⟩ := bind_eq_ok hc
    cases hc
    exact hparts.getD
  · refine variant_hasText (by simp [keySlot_keeps, maybeSpecSlot_keeps, instancesSlot_keeps]) ?_
    intro parts c hparts hc
    obtain ⟨key, -, hc⟩ := bind_eq_ok hc
    cases hc
    exact hparts.getD
  · refine variant_hasText (by simp [keySlot_keeps, maybeSpecSlot_keeps, instancesSlot_keeps]) ?_
    intro parts c hparts hc
    obtain ⟨key, -, hc⟩ := bind_eq_ok hc
    cases hc
    exact hparts.getD

end JobCommand

namespace WorkerRequest

theorem decoder_yields : WorkerRequest.decoder.Yields fun r => r.command.HasText := by
  refine Record.decoder_yields (I := fun parts => ∀ c, parts.command = some c → c.HasText) ?_
    (by rintro _ ⟨⟩) ?_
  · intro slot hslot
    simp only [record, List.mem_cons, List.not_mem_nil, or_false] at hslot
    obtain rfl | rfl := hslot
    · refine .keeping (.any _) ?_ ..
      rintro id parts - hparts
      exact hparts
    · refine .keeping JobCommand.decoder_yields ?_ ..
      rintro command parts hcommand - _ ⟨⟩
      exact hcommand
  · intro parts r hparts hr
    obtain ⟨id, -, hr⟩ := bind_eq_ok hr
    obtain ⟨command, hcommand, hr⟩ := bind_eq_ok hr
    cases hr
    exact hparts command (required_eq_ok hcommand)

theorem toJson_eq_error_iff {r : WorkerRequest} {fault : Utf8.Fault} :
    r.toJson = .error fault ↔ ∃ spec, r.command.spec? = some spec ∧ spec.text = .error fault := by
  rw [← JobCommand.toJson_eq_error_iff]
  exact map_eq_error_iff (f := fun j => Json.object [("id", r.id.toJson), ("command", j)])

theorem toJson_eq_ok {r : WorkerRequest} {j : Json} (h : r.toJson = .ok j) :
    ∃ command, r.command.toJson = .ok command ∧
      j = .object [("id", r.id.toJson), ("command", command)] := by
  obtain ⟨command, hcommand, hj⟩ := bind_eq_ok h
  cases hj
  exact ⟨command, hcommand, rfl⟩

theorem ofJson_toJson {r : WorkerRequest} {j : Json} (h : r.toJson = .ok j) :
    WorkerRequest.decoder.ofJson j = .ok r := by
  obtain ⟨command, hcommand, rfl⟩ := toJson_eq_ok h
  change (do record.build (← List.foldlM record.addMember record.start _)) = _
  rw [Record.foldlM_member rfl rfl (Slot.keeping_ofJson r.id.ofJson_toJson ..),
    Record.foldlM_member rfl rfl (Slot.keeping_ofJson (JobCommand.ofJson_toJson hcommand) ..)]
  rfl

theorem plain_toJson {r : WorkerRequest} {j : Json} (h : r.toJson = .ok j) : Plain 3 j := by
  obtain ⟨command, hcommand, rfl⟩ := toJson_eq_ok h
  simp [Uuid.toJson, JobCommand.plain_toJson hcommand]

/-- A written request is read from its text. -/
theorem decode_toJson {r : WorkerRequest} {j : Json} (h : r.toJson = .ok j) :
    WorkerRequest.decoder.decode j.text = .ok r := by
  refine Decoder.decode_text ((plain_toJson h).mono (by decide)) ?_ (ofJson_toJson h)
  obtain ⟨command, hcommand, rfl⟩ := toJson_eq_ok h
  change record.decoder.Agrees (126 + 1) _
  apply Record.agrees_object
  intro slot hslot m hm hname
  simp only [record, List.mem_cons, List.not_mem_nil, or_false] at hslot hm
  obtain rfl | rfl := hslot <;> obtain rfl | rfl := hm
  · exact Slot.keeping_agrees (Decoder.parsed_agrees _ _ _ _)
  · exact absurd hname (by decide : "id" ≠ "command")
  · exact absurd hname (by decide : "command" ≠ "id")
  · exact Slot.keeping_agrees (JobCommand.agrees_toJson hcommand (by decide))

/-- A request is written if its command is. -/
theorem exists_toJson (id : Uuid) {c : JobCommand} {j : Json} (h : c.toJson = .ok j) :
    ∃ request, (WorkerRequest.mk id c).toJson = .ok request := by
  rw [WorkerRequest.toJson, h]
  exact ⟨_, rfl⟩

end WorkerRequest

namespace WorkerReply

theorem doneRecord_ofJson (id : Uuid) (result : JobResult) :
    doneRecord.decoder.ofJson (.object [("id", id.toJson), ("result", result.toJson)]) =
      .ok (.done id result) := by
  change (do doneRecord.build (← List.foldlM doneRecord.addMember doneRecord.start _)) = _
  rw [Record.foldlM_member rfl rfl (Slot.keeping_ofJson id.ofJson_toJson ..),
    Record.foldlM_member rfl rfl (Slot.keeping_ofJson result.ofJson_toJson ..)]
  rfl

theorem idOption_ofJson (id : Option Uuid) :
    (Decoder.option Uuid.decoder).ofJson ((id.map Uuid.toJson).getD .null) = .ok id := by
  cases id with
  | none => rfl
  | some id =>
    change some <$> Uuid.decoder.ofJson id.toJson = _
    rw [id.ofJson_toJson]
    rfl

theorem rejectedRecord_ofJson (id : Option Uuid) (error : String) :
    rejectedRecord.decoder.ofJson
      (.object [("id", (id.map Uuid.toJson).getD .null), ("error", .string error)]) =
      .ok (.rejected id error) := by
  have herror : Decoder.string.ofJson (.string error) = .ok error := rfl
  change (do rejectedRecord.build (← List.foldlM rejectedRecord.addMember rejectedRecord.start _)) = _
  rw [Record.foldlM_member rfl rfl (Slot.keeping_ofJson (idOption_ofJson id) ..),
    Record.foldlM_member rfl rfl (Slot.keeping_ofJson herror ..)]
  rfl

theorem ofJson_toJson (reply : WorkerReply) :
    WorkerReply.decoder.ofJson reply.toJson = .ok reply := by
  cases reply with
  | done id result =>
    have hname : union.variants.lookup "done" = some doneRecord.decoder.ofJson := rfl
    refine (InnerUnion.ofJson_tagged hname ?_).trans (doneRecord_ofJson id result)
    simp [union]
  | rejected id error =>
    have hname : union.variants.lookup "rejected" = some rejectedRecord.decoder.ofJson := rfl
    refine (InnerUnion.ofJson_tagged hname ?_).trans (rejectedRecord_ofJson id error)
    simp [union]

theorem plain_toJson (reply : WorkerReply) : Plain 4 reply.toJson := by
  cases reply with
  | done id result => simp [toJson, Uuid.toJson, result.plain_toJson]
  | rejected id error => cases id <;> simp [toJson, Uuid.toJson]

/-- A reply is read from its text. -/
theorem decode_toJson (reply : WorkerReply) :
    WorkerReply.decoder.decode reply.toJson.text = .ok reply := by
  refine Decoder.decode_text (reply.plain_toJson.mono (by decide)) ?_ reply.ofJson_toJson
  have hplain := reply.plain_toJson
  change union.decoder.Agrees (126 + 1) _
  cases reply with
  | done id result =>
    refine InnerUnion.agrees_object ?_ fun m hm => ?_
    · simp [union]
    · exact ((hplain m hm).mono (by decide)).readable
  | rejected id error =>
    refine InnerUnion.agrees_object ?_ fun m hm => ?_
    · simp [union]
    · exact ((hplain m hm).mono (by decide)).readable

end WorkerReply

/-- The messages of a worker through their texts. A request is not written exactly if its
specification is no text; any other request and every reply is read back from its text as it was.
What is read from any text can be written, and is read back from that. -/
theorem worker_messages_round_trip :
    (∀ r : WorkerRequest, (∃ fault, r.toJson = .error fault) ↔
      ∃ spec, r.command.spec? = some spec ∧ ¬ Utf8.IsText spec.bytes) ∧
    (∀ (r : WorkerRequest) (j : Json), r.toJson = .ok j →
      WorkerRequest.decoder.decode j.text = .ok r) ∧
    (∀ reply : WorkerReply, WorkerReply.decoder.decode reply.toJson.text = .ok reply) ∧
    (∀ (text : String) (r : WorkerRequest), WorkerRequest.decoder.decode text = .ok r →
      ∃ j, r.toJson = .ok j ∧ WorkerRequest.decoder.decode j.text = .ok r) ∧
    ∀ (text : String) (reply : WorkerReply), WorkerReply.decoder.decode text = .ok reply →
      WorkerReply.decoder.decode reply.toJson.text = .ok reply := by
  refine ⟨fun r => ?_, fun r j => WorkerRequest.decode_toJson, WorkerReply.decode_toJson,
    fun text r h => ?_, fun _ reply _ => reply.decode_toJson⟩
  · simp only [WorkerRequest.toJson_eq_error_iff, ← JobSpec.text_eq_error_iff]
    constructor
    · rintro ⟨fault, spec, hspec, htext⟩
      exact ⟨spec, hspec, fault, htext⟩
    · rintro ⟨spec, hspec, fault, htext⟩
      exact ⟨fault, spec, hspec, htext⟩
  · obtain ⟨command, hcommand⟩ :=
      JobCommand.hasText_iff.1 (WorkerRequest.decoder_yields.of_decode h)
    obtain ⟨j, hj⟩ := WorkerRequest.exists_toJson r.id hcommand
    exact ⟨j, hj, WorkerRequest.decode_toJson hj⟩

/-- A request with instances out of order, and messages with members out of order. -/
theorem shuffled_messages_round_trip :
    (∃ j, (WorkerRequest.mk (.numbered 7)
        (.deleteJob (.full "c" "r" "e" "n") none ⟨["1", "0", "1"]⟩)).toJson = .ok j ∧
      WorkerRequest.decoder.decode j.text =
        .ok ⟨.numbered 7, .deleteJob (.full "c" "r" "e" "n") none ⟨["1", "0", "1"]⟩⟩) ∧
    (∃ j, (WorkerRequest.mk (.numbered 7) (.createJob (.role "c" "r") ⟨[120]⟩)).toJson = .ok j ∧
      WorkerRequest.decoder.decode j.text =
        .ok ⟨.numbered 7, .createJob (.role "c" "r") ⟨[120]⟩⟩) ∧
    WorkerReply.decoder.decode (WorkerReply.rejected none "x").toJson.text =
      .ok (.rejected none "x") :=
  ⟨⟨_, rfl, worker_messages_round_trip.2.1 _ _ rfl⟩,
    worker_messages_round_trip.2.2.2.1
      ("\x7b\"command\":\x7b\"spec\":\"\\u0078\",\"key\":\x7b\"role\":\"r\",\"cluster\":\"c\"\x7d," ++
        "\"op\":\"create_job\"\x7d,\"id\":\"5b0d3c5793a44e1f8a6b000000000007\"\x7d") _
      (by decide +kernel),
    worker_messages_round_trip.2.2.2.2 "\x7b\"error\":\"x\", \"status\":\"rejected\"\x7d" _
      (by decide +kernel)⟩

end JobGateway
