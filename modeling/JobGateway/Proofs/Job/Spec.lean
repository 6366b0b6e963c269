import JobGateway.Proofs.Job.Wire
import JobGateway.Proofs.Text.Junk
import JobGateway.Proofs.Text.Lossy

/-! The two readings of a specification. It is written as JSON exactly if its lossy reading is all
that it holds. If it is not, the failure names the place and the length of the bytes for which the
lossy reading has its first mark. -/
namespace JobGateway

namespace Utf8

/-- Bytes are a text exactly if the lossy reading loses nothing of them. -/
theorem isText_iff_encode_lossy {bytes : List UInt8} :
    IsText bytes ↔ encode (lossy bytes) = bytes := by
  constructor
  · rintro ⟨text, rfl⟩
    rw [lossy_encode]
  · intro h
    exact ⟨lossy bytes, h.symm⟩

end Utf8

namespace JobSpec

variable {spec : JobSpec} {fault : Utf8.Fault}

theorem exists_toJson_iff : (∃ v, spec.toJson = .ok v) ↔ Utf8.IsText spec.bytes := by
  rw [← not_iff_not, ← text_eq_error_iff]
  simp only [← toJson_eq_error_iff]
  cases spec.toJson <;> simp

/-- A specification that is no text: the text in front, the bytes behind it that the lossy reading
makes one mark of, and the rest. The failure to write it tells where these bytes begin, and how many
they are or that they are all that is left. -/
structure FailsAt (spec : JobSpec) (fault : Utf8.Fault) (text : List Char) (junk rest : List UInt8) :
    Prop where
  split : spec.bytes = Utf8.encode text ++ (junk ++ rest)
  marked : Utf8.lossy spec.bytes = text ++ '\uFFFD' :: Utf8.lossy rest
  isJunk : Utf8.Junk junk rest
  index : fault.validUpTo = (Utf8.encode text).length
  /-- No text in front is longer. -/
  longest : ∀ front, front <+: spec.bytes → Utf8.IsText front → front.length ≤ fault.validUpTo
  told : fault.length = some junk.length ∧ fault.message =
      s!"invalid utf-8 sequence of {junk.length} bytes from index {(Utf8.encode text).length}" ∨
    fault.length = none ∧ rest = [] ∧ fault.message =
      s!"incomplete utf-8 byte sequence from index {(Utf8.encode text).length}"

theorem exists_failsAt (h : spec.toJson = .error fault) :
    ∃ text junk rest, FailsAt spec fault text junk rest := by
  have hdecode : Utf8.decode spec.bytes = .error fault :=
    Json.map_eq_error_iff.1 (toJson_eq_error_iff.1 h)
  obtain ⟨text, junk, rest, hbytes, hjunk, hlossy, hindex, hrun⟩ :=
    Utf8.junk_of_decode_eq_error hdecode
  refine ⟨text, junk, rest, hbytes, hlossy, hjunk, hindex, ?_, ?_⟩
  · intro front hfront htext
    rw [hbytes] at hfront
    rw [hindex]
    exact Utf8.length_le_of_isText hjunk hfront htext
  · obtain ⟨index, length⟩ := fault
    obtain rfl : index = _ := hindex
    obtain ⟨rfl, -⟩ | ⟨rfl, hrest, -⟩ := hrun
    · exact .inl ⟨rfl, rfl⟩
    · exact .inr ⟨rfl, hrest, rfl⟩

/-- The strict reading of a specification agrees with the lossy one. It is written exactly if the
lossy reading stands for the very same bytes, and then as what the lossy reading gives; else the
failure tells of the bytes for which the lossy reading has its first mark. The lines are what the
lossy reading gives, but for the carriage returns before line feeds. -/
theorem readings_agree (spec : JobSpec) :
    ((∃ v, spec.toJson = .ok v) ↔ Utf8.encode (Utf8.lossy spec.bytes) = spec.bytes) ∧
    (∀ v, spec.toJson = .ok v → v = .string (String.ofList (Utf8.lossy spec.bytes))) ∧
    (∀ fault, spec.toJson = .error fault → ∃ text junk rest, FailsAt spec fault text junk rest) ∧
    (∀ line ∈ spec.lines, '\n' ∉ line.toList) ∧
    (String.intercalate "\n" spec.lines).toList ++ Lines.closing '\n' (Utf8.lossy spec.bytes) =
      Lines.dropReturns '\n' '\r' (Utf8.lossy spec.bytes) := by
  refine ⟨exists_toJson_iff.trans Utf8.isText_iff_encode_lossy, ?_, fun _ => exists_failsAt, ?_, ?_⟩
  · intro v hv
    obtain ⟨s, hs, rfl⟩ := Json.map_eq_ok hv
    obtain ⟨text, htext, rfl⟩ := Json.map_eq_ok hs
    rw [Utf8.decode_eq_ok_iff.1 htext, Utf8.lossy_encode]
  · intro line hline
    obtain ⟨chars, hchars, rfl⟩ := List.mem_map.1 hline
    rw [String.toList_ofList]
    exact Text.not_mem_of_mem_lines hchars
  · rw [String.toList_intercalate, lines, Text.lossyLines, List.map_map,
      ← Text.intercalate_lines]
    simp [Function.comp_def]

/-- A mark that stands in the specification itself comes before the bytes that are none, and two
carriage returns before a line feed. -/
theorem second_mark_told :
    let spec : JobSpec := ⟨[0xEF, 0xBF, 0xBD, 0xE2, 0x82, 0x0D, 0x0D, 0x0A, 0x61]⟩
    spec.toJson = .error ⟨3, some 2⟩ ∧ spec.lines = ["\uFFFD\uFFFD\r", "a"] ∧
      ∃ text junk rest, FailsAt spec ⟨3, some 2⟩ text junk rest := by
  intro spec
  have hfault : spec.toJson = .error ⟨3, some 2⟩ := toJson_eq_error_iff.2 (by decide +kernel)
  exact ⟨hfault, by decide +kernel, (readings_agree spec).2.2.1 _ hfault⟩

end JobSpec

end JobGateway
