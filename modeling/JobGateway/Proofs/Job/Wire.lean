import JobGateway.Job.Wire
import JobGateway.Proofs.Json.Decoding
import JobGateway.Proofs.Text.Utf8
import JobGateway.Proofs.Uuid

/-! Job values through JSON. Each value is decoded from what it is written as. Only a command with a
specification that is no text is not written. -/
namespace JobGateway

open Json

theorem Decoder.ofJson_strings (items : List String) :
    (Decoder.list .string).ofJson (.strings items) = .ok items := by
  change (items.map Json.string).mapM Decoder.string.ofJson = _
  induction items with
  | nil => rfl
  | cons s items ih =>
    rw [List.map_cons, List.mapM_cons, ih]
    rfl

theorem Uuid.ofJson_toJson (u : Uuid) : Uuid.decoder.ofJson u.toJson = .ok u := by
  change (parse u.text).mapError _ = _
  rw [parse_text]
  rfl

theorem JobKey.ofJson_toJson (k : JobKey) : JobKey.decoder.ofJson k.toJson = .ok k := by
  cases k <;> rfl

theorem JobKey.plain_toJson (k : JobKey) : Plain 1 k.toJson := by
  cases k <;> simp [toJson]

theorem Instances.ofJson_toJson (i : Instances) : Instances.decoder.ofJson i.toJson = .ok i := by
  change Instances.mk <$> (Decoder.list .string).ofJson (.strings i.ids) = _
  rw [Decoder.ofJson_strings]
  rfl

theorem Payload.ofJson_toJson (p : Payload) : Payload.decoder.ofJson p.toJson = .ok p := by
  cases p with
  | jobs keys =>
    refine (OuterUnion.ofJson_tagged (u := union) rfl (by decide) (.strings keys)).trans ?_
    change Payload.jobs <$> (Decoder.list .string).ofJson (.strings keys) = _
    rw [Decoder.ofJson_strings]
    rfl
  | job key => rfl
  | deleted keys =>
    refine (OuterUnion.ofJson_tagged (u := union) rfl (by decide) (.strings keys)).trans ?_
    change Payload.deleted <$> (Decoder.list .string).ofJson (.strings keys) = _
    rw [Decoder.ofJson_strings]
    rfl

theorem Payload.plain_toJson (p : Payload) : Plain 2 p.toJson := by
  cases p <;> simp [toJson]

namespace JobResult

theorem errors_ofJson (errors : Option (List String)) :
    (Decoder.option (.list .string)).ofJson
      (match errors with | none => .null | some lines => .strings lines) = .ok errors := by
  cases errors with
  | none => rfl
  | some lines =>
    change some <$> (Decoder.list .string).ofJson (.strings lines) = _
    rw [Decoder.ofJson_strings]
    rfl

theorem ofJson_toJson (r : JobResult) : JobResult.decoder.ofJson r.toJson = .ok r := by
  have hkey : Decoder.string.ofJson (.string r.key) = .ok r.key := rfl
  have hpayload := r.payload.ofJson_toJson
  have herrors := errors_ofJson r.errors
  change (do record.build (← List.foldlM record.addMember record.start _)) = _
  rw [Record.foldlM_member rfl rfl (Slot.keeping_ofJson hkey ..),
    Record.foldlM_member rfl rfl (Slot.keeping_ofJson hpayload ..),
    Record.foldlM_member rfl rfl (Slot.keeping_ofJson herrors ..)]
  rfl

theorem plain_toJson (r : JobResult) : Plain 3 r.toJson := by
  have hpayload := r.payload.plain_toJson
  cases h : r.errors <;> simp [toJson, h, hpayload]

end JobResult

namespace JobSpec

theorem ofString_text {spec : JobSpec} {s : String} (h : spec.text = .ok s) : ofString s = spec := by
  obtain ⟨text, hdecode, rfl⟩ := map_eq_ok h
  rw [ofString, String.toList_ofList, ← Utf8.decode_eq_ok_iff.1 hdecode]

theorem ofJson_toJson {spec : JobSpec} {j : Json} (h : spec.toJson = .ok j) :
    JobSpec.decoder.ofJson j = .ok spec := by
  obtain ⟨s, hs, rfl⟩ := map_eq_ok h
  rw [← ofString_text hs]
  rfl

theorem toJson_eq_string {spec : JobSpec} {j : Json} (h : spec.toJson = .ok j) :
    ∃ s, j = .string s := by
  obtain ⟨s, -, rfl⟩ := map_eq_ok h
  exact ⟨s, rfl⟩

theorem text_eq_error_iff {spec : JobSpec} :
    (∃ fault, spec.text = .error fault) ↔ ¬ Utf8.IsText spec.bytes := by
  rw [← Utf8.decode_eq_error_iff]
  simp only [text, map_eq_error_iff]

theorem toJson_eq_error_iff {spec : JobSpec} {fault : Utf8.Fault} :
    spec.toJson = .error fault ↔ spec.text = .error fault := map_eq_error_iff

end JobSpec

namespace JobCommand

theorem option_ofJson {spec : Option JobSpec} {j : Json} (h : specJson spec = .ok j) :
    (Decoder.option JobSpec.decoder).ofJson j = .ok spec := by
  cases spec with
  | none =>
    cases h
    rfl
  | some spec =>
    have hspec := JobSpec.ofJson_toJson h
    obtain ⟨s, rfl⟩ := JobSpec.toJson_eq_string h
    change some <$> JobSpec.decoder.ofJson (.string s) = _
    rw [hspec]
    rfl

theorem plain_specJson {spec : Option JobSpec} {j : Json} (h : specJson spec = .ok j) (d : Nat) :
    Plain d j := by
  cases spec with
  | none =>
    cases h
    exact plain_null d
  | some spec =>
    obtain ⟨s, rfl⟩ := JobSpec.toJson_eq_string h
    exact plain_string d s

/-- The record of the members of one variant. -/
def variantRecord (name : String) (slots : List (Slot Parts))
    (build : Parts → Except Mismatch JobCommand) : Record Parts JobCommand :=
  ⟨s!"struct variant JobCommand::{name}", slots, ⟨none, none, none, none⟩, build⟩

theorem variant_object (name : String) (slots : List (Slot Parts))
    (build : Parts → Except Mismatch JobCommand) (ms : List (String × Json)) :
    variant name slots build (.object ms) =
      ms.foldlM (variantRecord name slots build).addMember ⟨none, none, none, none⟩ >>= build := rfl

/-- The members of a command are decoded by the variant that its tag names. -/
theorem ofJson_tagged {op : Operation} {name : String} {slots : List (Slot Parts)}
    {build : Parts → Except Mismatch JobCommand}
    (hname : union.variants.lookup op.name = some (variant name slots build)) (key : JobKey)
    {more : List (String × Json)} (hmore : ∀ m ∈ more, m.1 ≠ "op") :
    JobCommand.decoder.ofJson (tagged op key more) =
      (("key", key.toJson) :: more).foldlM (variantRecord name slots build).addMember
        ⟨none, none, none, none⟩ >>= build := by
  refine (InnerUnion.ofJson_tagged (u := union) hname ?_).trans (variant_object ..)
  intro m hm
  rcases List.mem_cons.1 hm with rfl | hm
  · exact (by decide : "key" ≠ "op")
  · exact hmore m hm

theorem ofJson_toJson {c : JobCommand} {j : Json} (h : c.toJson = .ok j) :
    JobCommand.decoder.ofJson j = .ok c := by
  have hkey := c.key.ofJson_toJson
  cases c with
  | listJobs key =>
    cases h
    rw [ofJson_tagged rfl key (by simp), Record.foldlM_member rfl rfl (Slot.keeping_ofJson hkey ..)]
    rfl
  | createJob key spec =>
    obtain ⟨s, hs, hj⟩ := bind_eq_ok h
    cases hj
    have hspec := JobSpec.ofJson_toJson hs
    rw [ofJson_tagged rfl key (by simp), Record.foldlM_member rfl rfl (Slot.keeping_ofJson hkey ..),
      Record.foldlM_member rfl rfl (Slot.keeping_ofJson hspec ..)]
    rfl
  | updateJob key spec i =>
    obtain ⟨s, hs, hj⟩ := bind_eq_ok h
    cases hj
    have hspec := JobSpec.ofJson_toJson hs
    rw [ofJson_tagged rfl key (by simp), Record.foldlM_member rfl rfl (Slot.keeping_ofJson hkey ..),
      Record.foldlM_member rfl rfl (Slot.keeping_ofJson hspec ..),
      Record.foldlM_member rfl rfl (Slot.keeping_ofJson i.ofJson_toJson ..)]
    rfl
  | cancelUpdate key spec =>
    obtain ⟨s, hs, hj⟩ := bind_eq_ok h
    cases hj
    have hspec := option_ofJson hs
    rw [ofJson_tagged rfl key (by simp), Record.foldlM_member rfl rfl (Slot.keeping_ofJson hkey ..),
      Record.foldlM_member rfl rfl (Slot.keeping_ofJson hspec ..)]
    rfl
  | restartJob key spec i | deleteJob key spec i =>
    obtain ⟨s, hs, hj⟩ := bind_eq_ok h
    cases hj
    have hspec := option_ofJson hs
    rw [ofJson_tagged rfl key (by simp), Record.foldlM_member rfl rfl (Slot.keeping_ofJson hkey ..),
      Record.foldlM_member rfl rfl (Slot.keeping_ofJson hspec ..),
      Record.foldlM_member rfl rfl (Slot.keeping_ofJson i.ofJson_toJson ..)]
    rfl

/-- The members behind the key are no tags and have few brackets. -/
theorem toJson_eq_tagged {c : JobCommand} {j : Json} (h : c.toJson = .ok j) :
    ∃ more, j = tagged c.operation c.key more ∧ (∀ m ∈ more, m.1 ≠ "op") ∧
      ∀ m ∈ more, Plain 1 m.2 := by
  cases c with
  | listJobs key =>
    cases h
    exact ⟨[], rfl, by simp, by simp⟩
  | createJob key spec =>
    obtain ⟨s, hs, hj⟩ := bind_eq_ok h
    cases hj
    obtain ⟨text, rfl⟩ := JobSpec.toJson_eq_string hs
    exact ⟨_, rfl, by simp, by simp⟩
  | updateJob key spec i =>
    obtain ⟨s, hs, hj⟩ := bind_eq_ok h
    cases hj
    obtain ⟨text, rfl⟩ := JobSpec.toJson_eq_string hs
    exact ⟨_, rfl, by simp, by simp [Instances.toJson]⟩
  | cancelUpdate key spec =>
    obtain ⟨s, hs, hj⟩ := bind_eq_ok h
    cases hj
    exact ⟨_, rfl, by simp, by simp [plain_specJson hs 1]⟩
  | restartJob key spec i | deleteJob key spec i =>
    obtain ⟨s, hs, hj⟩ := bind_eq_ok h
    cases hj
    exact ⟨_, rfl, by simp, by simp [plain_specJson hs 1, Instances.toJson]⟩

theorem plain_tagged {op : Operation} {key : JobKey} {more : List (String × Json)}
    (hmore : ∀ m ∈ more, Plain 1 m.2) : Plain 2 (tagged op key more) := by
  intro m hm
  rcases List.mem_cons.1 hm with rfl | hm
  · exact plain_string 1 op.name
  rcases List.mem_cons.1 hm with rfl | hm
  · exact key.plain_toJson
  · exact hmore m hm

theorem plain_toJson {c : JobCommand} {j : Json} (h : c.toJson = .ok j) : Plain 2 j := by
  obtain ⟨more, rfl, -, hmore⟩ := toJson_eq_tagged h
  exact plain_tagged hmore

/-- A written command is read from a text as it is decoded. -/
theorem agrees_toJson {c : JobCommand} {j : Json} (h : c.toJson = .ok j) {depth : Nat}
    (hdepth : 2 ≤ depth) : JobCommand.decoder.Agrees depth j := by
  obtain ⟨more, rfl, htag, hmore⟩ := toJson_eq_tagged h
  obtain ⟨depth, rfl⟩ := Nat.exists_eq_add_of_le' hdepth
  refine InnerUnion.agrees_object (u := union) ?_ fun m hm => ?_
  · intro m hm hop
    rcases List.mem_cons.1 hm with rfl | hm
    · exact ⟨c.operation.name, rfl⟩
    rcases List.mem_cons.1 hm with rfl | hm
    · exact absurd hop (by decide : "key" ≠ "op")
    · exact absurd hop (htag m hm)
  · exact ((plain_tagged hmore m hm).mono (Nat.le_add_left 1 depth)).readable

theorem specJson_eq_error_iff {spec : Option JobSpec} {fault : Utf8.Fault} :
    specJson spec = .error fault ↔ ∃ s, spec = some s ∧ s.text = .error fault := by
  cases spec with
  | none => simp [specJson]
  | some spec => simp [specJson, JobSpec.toJson_eq_error_iff]

/-- Only the specification can keep a command from being written. -/
theorem toJson_eq_error_iff {c : JobCommand} {fault : Utf8.Fault} :
    c.toJson = .error fault ↔ ∃ spec, c.spec? = some spec ∧ spec.text = .error fault := by
  cases c with
  | listJobs key => simp [toJson, spec?]
  | createJob key spec | updateJob key spec i =>
    simp [toJson, spec?, map_eq_error_iff, JobSpec.toJson_eq_error_iff]
  | cancelUpdate key spec | restartJob key spec i | deleteJob key spec i =>
    simp [toJson, spec?, map_eq_error_iff, specJson_eq_error_iff]

end JobCommand

end JobGateway
