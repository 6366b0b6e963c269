import JobGateway.Http.Form
import JobGateway.Proofs.Text.Split
import JobGateway.Proofs.Text.Utf8
import Mathlib.Data.List.Forall2

/-! How texts are written in paths and queries. There are many ways: a byte may stand for itself or be
escaped, with digits of either case. Whatever way was taken, reading gives the text back; and encoding a
text takes one of these ways. -/
namespace JobGateway.Http

namespace Percent

variable {plain : UInt8 → UInt8 → Prop} {spelled bytes : List UInt8}

theorem digitValue?_digit : ∀ n < 16, digitValue? (digit (UInt8.ofNat n)) = some (UInt8.ofNat n) := by
  decide

/-- An escape stands for its byte. -/
theorem byte?_digit (b : UInt8) : byte? (digit (b / 16)) (digit (b % 16)) = some b := by
  have hlt := b.toNat_lt
  have hhigh : b / 16 = UInt8.ofNat (b.toNat / 16) := by
    rw [← UInt8.toNat_inj]
    simp
    omega
  have hlow : b % 16 = UInt8.ofNat (b.toNat % 16) := by
    rw [← UInt8.toNat_inj]
    simp
    omega
  have hsum : b / 16 * 16 + b % 16 = b := by
    rw [← UInt8.toNat_inj]
    simp
    omega
  have hdigit := digitValue?_digit (b.toNat / 16) (by omega)
  have hdigit' := digitValue?_digit (b.toNat % 16) (by omega)
  rw [← hhigh] at hdigit
  rw [← hlow] at hdigit'
  rw [byte?, hdigit, hdigit']
  exact congrArg some hsum

theorem lt_of_digitValue? {c : UInt8} (h : (digitValue? c).isSome) : c < 0x80 := by
  rw [digitValue?] at h
  split_ifs at h with hdecimal hupper hlower
  · exact UInt8.lt_of_le_of_lt hdecimal.2 (by decide)
  · exact UInt8.lt_of_le_of_lt hupper.2 (by decide)
  · exact UInt8.lt_of_le_of_lt hlower.2 (by decide)
  · cases h

theorem digits_of_byte? {high low b : UInt8} (h : byte? high low = some b) :
    (digitValue? high).isSome ∧ (digitValue? low).isSome := by
  rw [byte?] at h
  cases hhigh : digitValue? high with
  | none =>
    rw [hhigh] at h
    cases h
  | some v =>
    cases hlow : digitValue? low with
    | none =>
      rw [hhigh, hlow] at h
      cases h
    | some w => exact ⟨rfl, rfl⟩

theorem decode_cons_of_ne {b : UInt8} (hb : b ≠ 0x25) (rest : List UInt8) :
    decode (b :: rest) = b :: decode rest := by
  match rest with
  | [] => rfl
  | [c] => rfl
  | c :: d :: rest => rw [decode, if_neg hb]

theorem decode_escape {high low b : UInt8} (h : byte? high low = some b) (rest : List UInt8) :
    decode (0x25 :: high :: low :: rest) = b :: decode rest := by
  rw [decode, if_pos rfl, h]

/-- A byte string is written as another one: each byte plainly, by a byte that stands for it, or as an
escape. -/
inductive Spells (plain : UInt8 → UInt8 → Prop) : List UInt8 → List UInt8 → Prop
  | nil : Spells plain [] []
  | plain {c b : UInt8} {spelled bytes : List UInt8} (stands : plain c b)
      (more : Spells plain spelled bytes) : Spells plain (c :: spelled) (b :: bytes)
  | escape {high low b : UInt8} {spelled bytes : List UInt8} (stands : byte? high low = some b)
      (more : Spells plain spelled bytes) : Spells plain (0x25 :: high :: low :: spelled) (b :: bytes)

/-- What is spelled is read back, if reading begins with a replacement that turns plain bytes into those
for which they stand, and leaves escapes alone. -/
theorem Spells.decode_map (h : Spells plain spelled bytes) {f : UInt8 → UInt8}
    (hplain : ∀ c b, plain c b → f c = b ∧ b ≠ 0x25) (hescape : f 0x25 = 0x25)
    (hdigit : ∀ c, (digitValue? c).isSome → f c = c) : decode (spelled.map f) = bytes := by
  induction h with
  | nil => rfl
  | plain stands _ ih =>
    obtain ⟨hc, hb⟩ := hplain _ _ stands
    rw [List.map_cons, hc, decode_cons_of_ne hb, ih]
  | escape stands _ ih =>
    obtain ⟨hhigh, hlow⟩ := digits_of_byte? stands
    rw [List.map_cons, List.map_cons, List.map_cons, hescape, hdigit _ hhigh, hdigit _ hlow,
      decode_escape stands, ih]

/-- A byte that neither is plain nor stands in escapes is not written. -/
theorem Spells.not_mem (h : Spells plain spelled bytes) {a : UInt8} (hplain : ∀ b, ¬ plain a b)
    (hescape : a ≠ 0x25) (hdigit : digitValue? a = none) : a ∉ spelled := by
  induction h with
  | nil => exact List.not_mem_nil
  | plain stands _ ih =>
    rw [List.mem_cons, not_or]
    refine ⟨?_, ih⟩
    rintro rfl
    exact hplain _ stands
  | escape stands _ ih =>
    obtain ⟨hhigh, hlow⟩ := digits_of_byte? stands
    simp only [List.mem_cons, not_or]
    refine ⟨hescape, ?_, ?_, ih⟩
    · rintro rfl
      rw [hdigit] at hhigh
      cases hhigh
    · rintro rfl
      rw [hdigit] at hlow
      cases hlow

/-- Writing each byte either plainly or as an escape spells the byte string, in one-byte characters. -/
theorem spells_flatMap {write : UInt8 → List UInt8}
    (hwrite : ∀ b, (∃ c, plain c b ∧ c < 0x80 ∧ write b = [c]) ∨ write b = escape b)
    (bytes : List UInt8) :
    Spells plain (bytes.flatMap write) bytes ∧ ∀ c ∈ bytes.flatMap write, c < 0x80 := by
  induction bytes with
  | nil => exact ⟨.nil, nofun⟩
  | cons b bytes ih =>
    rw [List.flatMap_cons]
    obtain ⟨c, hc, hlt, hb⟩ | hb := hwrite b
    · rw [hb]
      exact ⟨.plain hc ih.1, List.forall_mem_cons.2 ⟨hlt, ih.2⟩⟩
    · obtain ⟨hhigh, hlow⟩ := digits_of_byte? (byte?_digit b)
      rw [hb]
      refine ⟨.escape (byte?_digit b) ih.1, ?_⟩
      simp only [escape, List.cons_append, List.nil_append, List.forall_mem_cons]
      exact ⟨by decide, lt_of_digitValue? hhigh, lt_of_digitValue? hlow, ih.2⟩

theorem lt_of_isUnreserved {b : UInt8} (h : isUnreserved b = true) : b < 0x80 := by
  simp only [isUnreserved, Bool.or_eq_true, Bool.and_eq_true, decide_eq_true_eq, beq_iff_eq,
    UInt8.le_iff_toNat_le, ← UInt8.toNat_inj] at h
  rw [UInt8.lt_iff_toNat_lt]
  simp at h ⊢
  omega

/-- The marks that targets and queries are made of (slash, question mark, number sign, ampersand, equals
sign) are written in no escape, and all are reserved. -/
theorem of_mark {a : UInt8} (ha : a ∈ ([0x2F, 0x3F, 0x23, 0x26, 0x3D] : List UInt8)) :
    a ≠ 0x25 ∧ digitValue? a = none ∧ isUnreserved a = false := by
  simp only [List.mem_cons, List.not_mem_nil, or_false] at ha
  obtain rfl | rfl | rfl | rfl | rfl := ha <;> decide

theorem isUnreserved_percent : isUnreserved 0x25 = false := by decide

theorem isUnreserved_plus : isUnreserved 0x2B = false := by decide

end Percent

/-- The bytes that stand for themselves in a segment of a path: all but the percent sign, the slash, the
question mark and the number sign. -/
def IsPlainInPath (c b : UInt8) : Prop := c = b ∧ c ∉ ([0x25, 0x2F, 0x3F, 0x23] : List UInt8)

/-- A segment of a path is written for a text. -/
def SpellsSegment (part : List Char) (value : String) : Prop :=
  Percent.Spells IsPlainInPath (Utf8.encode part) (Utf8.encode value.toList)

section Segment

variable {part : List Char} {value : String}

theorem SpellsSegment.decode (h : SpellsSegment part value) :
    Percent.decode (Utf8.encode part) = Utf8.encode value.toList := by
  have hdecode := Percent.Spells.decode_map h (f := id) (fun c b hplain => ?_) rfl fun _ _ => rfl
  · rwa [List.map_id] at hdecode
  · obtain ⟨rfl, hnot⟩ := hplain
    exact ⟨rfl, fun hc => hnot (hc ▸ List.mem_cons_self)⟩

theorem SpellsSegment.ne_nil (h : SpellsSegment part value) (hvalue : value ≠ "") : part ≠ [] := by
  rintro rfl
  rw [SpellsSegment, Utf8.encode_nil] at h
  generalize hbytes : Utf8.encode value.toList = bytes at h
  cases h
  rw [Utf8.encode_eq_nil_iff, String.toList_eq_nil_iff] at hbytes
  exact hvalue hbytes

/-- No mark of a target stands in a segment. -/
theorem SpellsSegment.not_mem (h : SpellsSegment part value) :
    ∀ c ∈ ['/', '?', '#'], c ∉ part := by
  have hnot : ∀ a ∈ ([0x2F, 0x3F, 0x23] : List UInt8), a ∉ Utf8.encode part := by
    intro a ha
    obtain ⟨hescape, hdigit, -⟩ := Percent.of_mark (List.mem_append_left [0x26, 0x3D] ha)
    refine Percent.Spells.not_mem h ?_ hescape hdigit
    rintro b ⟨-, hnot⟩
    exact hnot (List.mem_cons_of_mem _ ha)
  intro c hc hpart
  simp only [List.mem_cons, List.not_mem_nil, or_false] at hc
  obtain rfl | rfl | rfl := hc
  · exact hnot 0x2F (by decide) (Utf8.mem_encode (by decide) hpart)
  · exact hnot 0x3F (by decide) (Utf8.mem_encode (by decide) hpart)
  · exact hnot 0x23 (by decide) (Utf8.mem_encode (by decide) hpart)

/-- Every text can be written in a path. -/
theorem spellsSegment_encode (value : String) :
    SpellsSegment (Utf8.ascii (Percent.encode (Utf8.encode value.toList))) value := by
  have hwrite : ∀ b, (∃ c, IsPlainInPath c b ∧ c < 0x80 ∧
      (if Percent.isUnreserved b then [b] else Percent.escape b) = [c]) ∨
      (if Percent.isUnreserved b then [b] else Percent.escape b) = Percent.escape b := by
    intro b
    by_cases hb : Percent.isUnreserved b = true
    · refine .inl ⟨b, ⟨rfl, fun hmark => ?_⟩, Percent.lt_of_isUnreserved hb, if_pos hb⟩
      obtain rfl | hmark := List.mem_cons.1 hmark
      · exact Bool.false_ne_true (Percent.isUnreserved_percent.symm.trans hb)
      · obtain ⟨-, -, hnone⟩ := Percent.of_mark (List.mem_append_left [0x26, 0x3D] hmark)
        exact Bool.false_ne_true (hnone.symm.trans hb)
    · exact .inr (if_neg hb)
  obtain ⟨hspells, hascii⟩ := Percent.spells_flatMap hwrite (Utf8.encode value.toList)
  rwa [SpellsSegment, Percent.encode, Utf8.encode_ascii hascii]

end Segment

/-- The bytes that stand for a byte in a query: a plus sign for a space, and most others for
themselves. -/
def IsPlainInQuery (c b : UInt8) : Prop :=
  c = 0x2B ∧ b = 0x20 ∨ c = b ∧ c ∉ ([0x25, 0x2B, 0x23, 0x26, 0x3D] : List UInt8)

/-- A name or a value in a query is written for a text. -/
def SpellsInQuery (part : List Char) (text : String) : Prop :=
  Percent.Spells IsPlainInQuery (Utf8.encode part) (Utf8.encode text.toList)

/-- A piece of a query is written for a parameter. -/
def SpellsParameter (piece : List Char) (p : String × String) : Prop :=
  ∃ name value, piece = name ++ '=' :: value ∧ SpellsInQuery name p.1 ∧ SpellsInQuery value p.2

/-- A query is written for a list of parameters. -/
def SpellsQuery (query : List Char) (params : List (String × String)) : Prop :=
  ∃ pieces, query = ['&'].intercalate pieces ∧ List.Forall₂ SpellsParameter pieces params

section Query

variable {part piece query : List Char} {text : String} {p : String × String}
  {params : List (String × String)}

theorem SpellsInQuery.decodeText (h : SpellsInQuery part text) :
    Form.decodeText (Utf8.encode part) = text := by
  have hdecode := Percent.Spells.decode_map h (f := fun b => if b = 0x2B then 0x20 else b)
    (fun c b hplain => ?_) rfl fun c hdigit => ?_
  · rw [Form.decodeText, hdecode, Utf8.lossy_encode, String.ofList_toList]
  · obtain ⟨rfl, rfl⟩ | ⟨rfl, hnot⟩ := hplain
    · decide
    · simp only [List.mem_cons, not_or] at hnot
      exact ⟨if_neg hnot.2.1, hnot.1⟩
  · refine if_neg ?_
    rintro rfl
    cases hdigit

/-- No mark of a query stands in a name or a value. -/
theorem SpellsInQuery.not_mem (h : SpellsInQuery part text) :
    ∀ a ∈ ([0x23, 0x26, 0x3D] : List UInt8), a ∉ Utf8.encode part := by
  intro a ha
  obtain ⟨hescape, hdigit, -⟩ := Percent.of_mark (List.mem_append_right [0x2F, 0x3F] ha)
  refine Percent.Spells.not_mem h ?_ hescape hdigit
  rintro b (⟨rfl, -⟩ | ⟨-, hnot⟩)
  · revert ha
    decide
  · exact hnot (List.mem_cons_of_mem _ (List.mem_cons_of_mem _ ha))

/-- What is read of a piece is the parameter. -/
theorem SpellsParameter.pair (h : SpellsParameter piece p) : Form.pair (Utf8.encode piece) = p := by
  obtain ⟨name, value, rfl, hname, hvalue⟩ := h
  have hequals : String.utf8EncodeChar '=' = [0x3D] := by decide
  rw [Utf8.encode_append, Utf8.encode_cons, hequals, List.singleton_append, Form.pair,
    Text.cutAt_append_cons (hname.not_mem _ (by decide))]
  exact Prod.ext hname.decodeText hvalue.decodeText

theorem SpellsParameter.not_mem (h : SpellsParameter piece p) :
    ∀ a ∈ ([0x23, 0x26] : List UInt8), a ∉ Utf8.encode piece := by
  obtain ⟨name, value, rfl, hname, hvalue⟩ := h
  intro a ha
  have hmark := List.mem_append_left [0x3D] ha
  have hequals : a ∉ String.utf8EncodeChar '=' := by
    rw [show String.utf8EncodeChar '=' = [0x3D] by decide, List.mem_singleton]
    rintro rfl
    revert ha
    decide
  rw [Utf8.encode_append, Utf8.encode_cons, List.mem_append, List.mem_append, not_or, not_or]
  exact ⟨hname.not_mem a hmark, hequals, hvalue.not_mem a hmark⟩

theorem SpellsParameter.ne_nil (h : SpellsParameter piece p) : Utf8.encode piece ≠ [] := by
  obtain ⟨name, value, rfl, -, -⟩ := h
  rw [Ne, Utf8.encode_eq_nil_iff]
  simp

theorem exists_of_forall₂ {α β : Type} {R : α → β → Prop} {l : List α} {l' : List β}
    (h : List.Forall₂ R l l') : ∀ a ∈ l, ∃ b ∈ l', R a b := by
  induction h with
  | nil => nofun
  | cons hab _ ih =>
    refine List.forall_mem_cons.2 ⟨⟨_, List.mem_cons_self, hab⟩, fun a ha => ?_⟩
    obtain ⟨b, hb, hab⟩ := ih a ha
    exact ⟨b, List.mem_cons_of_mem _ hb, hab⟩

theorem encode_query (pieces : List (List Char)) :
    Utf8.encode (['&'].intercalate pieces) = [0x26].intercalate (pieces.map Utf8.encode) :=
  Utf8.encode_intercalate ['&'] pieces

/-- What is read of a query are the parameters, in their order. -/
theorem SpellsQuery.parameters (h : SpellsQuery query params) :
    Form.parameters (Utf8.encode query) = params := by
  obtain ⟨pieces, rfl, hpieces⟩ := h
  obtain rfl | hne := eq_or_ne pieces []
  · cases hpieces
    rfl
  have hpiece := exists_of_forall₂ hpieces
  have hsplit : Text.split 0x26 (Utf8.encode (['&'].intercalate pieces)) =
      pieces.map Utf8.encode := by
    rw [encode_query]
    refine Text.split_intercalate _ (List.forall_mem_map.2 fun piece hmem => ?_) (by simpa using hne)
    obtain ⟨p, -, hp⟩ := hpiece piece hmem
    exact hp.not_mem _ (by decide)
  have hfilter : (pieces.map Utf8.encode).filter (fun piece => !piece.isEmpty) =
      pieces.map Utf8.encode := by
    refine List.filter_eq_self.2 (List.forall_mem_map.2 fun piece hmem => ?_)
    obtain ⟨p, -, hp⟩ := hpiece piece hmem
    rw [Bool.not_eq_true', List.isEmpty_eq_false_iff]
    exact hp.ne_nil
  rw [Form.parameters, hsplit, hfilter, List.map_map, ← List.forall₂_eq_eq_eq,
    List.forall₂_map_left_iff]
  exact hpieces.imp fun piece p hp => hp.pair

theorem SpellsQuery.not_mem (h : SpellsQuery query params) : '#' ∉ query := by
  obtain ⟨pieces, rfl, hpieces⟩ := h
  intro hmem
  have hbyte : 0x23 ∈ Utf8.encode (['&'].intercalate pieces) := Utf8.mem_encode (by decide) hmem
  rw [encode_query] at hbyte
  obtain hmark | ⟨_, hpiece, hmark⟩ := Text.mem_of_mem_intercalate hbyte
  · revert hmark
    decide
  · obtain ⟨piece, hmem', rfl⟩ := List.mem_map.1 hpiece
    obtain ⟨p, -, hp⟩ := exists_of_forall₂ hpieces piece hmem'
    exact hp.not_mem _ (by decide) hmark

theorem spellsInQuery_encodeText (text : String) :
    SpellsInQuery (Utf8.ascii (Form.encodeText text)) text := by
  have hwrite : ∀ b, (∃ c, IsPlainInQuery c b ∧ c < 0x80 ∧
      (if b = 0x20 then [0x2B] else if Percent.isUnreserved b then [b] else Percent.escape b) = [c]) ∨
      (if b = 0x20 then [0x2B] else if Percent.isUnreserved b then [b] else Percent.escape b) =
        Percent.escape b := by
    intro b
    by_cases hspace : b = 0x20
    · exact .inl ⟨0x2B, .inl ⟨rfl, hspace⟩, by decide, if_pos hspace⟩
    rw [if_neg hspace]
    by_cases hb : Percent.isUnreserved b = true
    · refine .inl ⟨b, .inr ⟨rfl, fun hmark => ?_⟩, Percent.lt_of_isUnreserved hb, if_pos hb⟩
      obtain rfl | hmark := List.mem_cons.1 hmark
      · exact Bool.false_ne_true (Percent.isUnreserved_percent.symm.trans hb)
      obtain rfl | hmark := List.mem_cons.1 hmark
      · exact Bool.false_ne_true (Percent.isUnreserved_plus.symm.trans hb)
      · obtain ⟨-, -, hnone⟩ := Percent.of_mark (List.mem_append_right [0x2F, 0x3F] hmark)
        exact Bool.false_ne_true (hnone.symm.trans hb)
    · exact .inr (if_neg hb)
  obtain ⟨hspells, hascii⟩ := Percent.spells_flatMap hwrite (Utf8.encode text.toList)
  rwa [SpellsInQuery, Form.encodeText, Utf8.encode_ascii hascii]

/-- Every list of parameters can be written as a query. -/
theorem spellsQuery_encode (params : List (String × String)) :
    SpellsQuery (Utf8.ascii (Form.encode params)) params := by
  refine ⟨params.map fun p =>
    Utf8.ascii (Form.encodeText p.1) ++ '=' :: Utf8.ascii (Form.encodeText p.2), ?_, ?_⟩
  · rw [Utf8.ascii, Form.encode, Text.map_intercalate, List.map_map]
    simp only [Function.comp_def, List.map_append, List.map_cons]
    rfl
  · rw [List.forall₂_map_left_iff, List.forall₂_same]
    exact fun p _ => ⟨_, _, rfl, spellsInQuery_encodeText p.1, spellsInQuery_encodeText p.2⟩

end Query

end JobGateway.Http
