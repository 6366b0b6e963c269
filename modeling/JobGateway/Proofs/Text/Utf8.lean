import JobGateway.Text.Utf8
import Mathlib.Tactic.Common

/-! The strict reading of UTF-8 accepts exactly the encodings of texts, and gives back the text that
was encoded. Both directions go through the byte strings that hold one character, told apart by
their length, with the bounds that rule out overlong forms, surrogates and numbers out of range. -/
namespace JobGateway.Utf8

/-- A byte that continues a character. -/
def IsTail (b : UInt8) : Prop := 0x80 ≤ b.toNat ∧ b.toNat ≤ 0xBF

/-- The bytes of one character, and its number. -/
inductive Encodes : List UInt8 → Nat → Prop
  | one {a : UInt8} (ha : a.toNat < 0x80) : Encodes [a] a.toNat
  | two {a b : UInt8} (ha : 0xC2 ≤ a.toNat ∧ a.toNat ≤ 0xDF) (hb : IsTail b) :
      Encodes [a, b] ((a.toNat - 0xC0) * 64 + (b.toNat - 0x80))
  | three {a b c : UInt8} (ha : 0xE0 ≤ a.toNat ∧ a.toNat ≤ 0xEF) (hb : IsTail b)
      (low : a.toNat = 0xE0 → 0xA0 ≤ b.toNat) (high : a.toNat = 0xED → b.toNat ≤ 0x9F)
      (hc : IsTail c) :
      Encodes [a, b, c]
        (((a.toNat - 0xE0) * 64 + (b.toNat - 0x80)) * 64 + (c.toNat - 0x80))
  | four {a b c d : UInt8} (ha : 0xF0 ≤ a.toNat ∧ a.toNat ≤ 0xF4) (hb : IsTail b)
      (low : a.toNat = 0xF0 → 0x90 ≤ b.toNat) (high : a.toNat = 0xF4 → b.toNat ≤ 0x8F)
      (hc : IsTail c) (hd : IsTail d) :
      Encodes [a, b, c, d]
        ((((a.toNat - 0xF0) * 64 + (b.toNat - 0x80)) * 64 + (c.toNat - 0x80)) * 64 +
          (d.toNat - 0x80))

theorem Lead.ofByte?_eq (b : UInt8) : Lead.ofByte? b =
    if b.toNat < 0xC2 then none
    else if b.toNat ≤ 0xDF then some ⟨1, 0x80, 0xBF, b.toNat - 0xC0⟩
    else if b.toNat = 0xE0 then some ⟨2, 0xA0, 0xBF, 0⟩
    else if b.toNat = 0xED then some ⟨2, 0x80, 0x9F, 0xD⟩
    else if b.toNat ≤ 0xEF then some ⟨2, 0x80, 0xBF, b.toNat - 0xE0⟩
    else if b.toNat = 0xF0 then some ⟨3, 0x90, 0xBF, 0⟩
    else if b.toNat ≤ 0xF3 then some ⟨3, 0x80, 0xBF, b.toNat - 0xF0⟩
    else if b.toNat = 0xF4 then some ⟨3, 0x80, 0x8F, 4⟩
    else none := by
  simp only [Lead.ofByte?, UInt8.lt_iff_toNat_lt, UInt8.le_iff_toNat_le, ← UInt8.toNat_inj]
  rfl

/-- One more byte of a character. -/
theorem Piece.readTail_cons {lo hi b : UInt8} (hlo : lo.toNat ≤ b.toNat) (hhi : b.toNat ≤ hi.toNat)
    (bits taken n : Nat) (rest : List UInt8) :
    readTail lo hi bits taken (n + 1) (b :: rest) =
      readTail 0x80 0xBF (bits * 64 + (b.toNat - 0x80)) (taken + 1) n rest := by
  simp only [readTail, UInt8.le_iff_toNat_le, hlo, hhi, and_self, if_true]

theorem Piece.readTail_tail {b : UInt8} (hb : IsTail b) (bits taken n : Nat) (rest : List UInt8) :
    readTail 0x80 0xBF bits taken (n + 1) (b :: rest) =
      readTail 0x80 0xBF (bits * 64 + (b.toNat - 0x80)) (taken + 1) n rest := by
  have hlo : (0x80 : UInt8).toNat ≤ b.toNat := hb.1
  have hhi : b.toNat ≤ (0xBF : UInt8).toNat := hb.2
  exact readTail_cons hlo hhi bits taken n rest

/-- The byte that follows a leading byte lies within the bounds that it announces. -/
theorem Lead.ofByte?_of_two {a b : UInt8} (ha : 0xC2 ≤ a.toNat ∧ a.toNat ≤ 0xDF) (hb : IsTail b) :
    ∃ l, Lead.ofByte? a = some l ∧ l.following = 1 ∧ l.bits = a.toNat - 0xC0 ∧
      l.least.toNat ≤ b.toNat ∧ b.toNat ≤ l.greatest.toNat := by
  rw [ofByte?_eq, if_neg (by omega), if_pos (by omega)]
  exact ⟨_, rfl, rfl, rfl, hb⟩

theorem Lead.ofByte?_of_three {a b : UInt8} (ha : 0xE0 ≤ a.toNat ∧ a.toNat ≤ 0xEF)
    (hb : IsTail b) (low : a.toNat = 0xE0 → 0xA0 ≤ b.toNat)
    (high : a.toNat = 0xED → b.toNat ≤ 0x9F) :
    ∃ l, Lead.ofByte? a = some l ∧ l.following = 2 ∧ l.bits = a.toNat - 0xE0 ∧
      l.least.toNat ≤ b.toNat ∧ b.toNat ≤ l.greatest.toNat := by
  rw [ofByte?_eq, if_neg (by omega), if_neg (by omega)]
  split_ifs with h h' h''
  · exact ⟨_, rfl, rfl, by simp [h], low h, hb.2⟩
  · exact ⟨_, rfl, rfl, by simp [h'], hb.1, high h'⟩
  · exact ⟨_, rfl, rfl, rfl, hb⟩
  all_goals omega

theorem Lead.ofByte?_of_four {a b : UInt8} (ha : 0xF0 ≤ a.toNat ∧ a.toNat ≤ 0xF4)
    (hb : IsTail b) (low : a.toNat = 0xF0 → 0x90 ≤ b.toNat)
    (high : a.toNat = 0xF4 → b.toNat ≤ 0x8F) :
    ∃ l, Lead.ofByte? a = some l ∧ l.following = 3 ∧ l.bits = a.toNat - 0xF0 ∧
      l.least.toNat ≤ b.toNat ∧ b.toNat ≤ l.greatest.toNat := by
  rw [ofByte?_eq, if_neg (by omega), if_neg (by omega), if_neg (by omega), if_neg (by omega),
    if_neg (by omega)]
  split_ifs with h h' h''
  · exact ⟨_, rfl, rfl, by simp [h], low h, hb.2⟩
  · exact ⟨_, rfl, rfl, rfl, hb⟩
  · exact ⟨_, rfl, rfl, by simp [h''], hb.1, high h''⟩
  all_goals omega

/-- Bytes that hold a character are read as that character, whatever follows them. -/
theorem Encodes.read {bs : List UInt8} {n : Nat} (h : Encodes bs n) (rest : List UInt8) :
    ∃ b tail, bs = b :: tail ∧ Piece.read b (tail ++ rest) = (.char (Char.ofNat n), rest) := by
  cases h with
  | one ha => exact ⟨_, [], rfl, by simp [Piece.read, UInt8.lt_iff_toNat_lt, ha]⟩
  | @two a b ha hb =>
    obtain ⟨l, hl, hf, hbits, hlo, hhi⟩ := Lead.ofByte?_of_two ha hb
    refine ⟨a, [b], rfl, ?_⟩
    have : ¬ a < 0x80 := by rw [UInt8.lt_iff_toNat_lt]; simp; omega
    simp only [Piece.read, this, if_false, hl, hf, hbits, List.cons_append, List.nil_append]
    rw [Piece.readTail_cons hlo hhi, Piece.readTail]
  | @three a b c ha hb low high hc =>
    obtain ⟨l, hl, hf, hbits, hlo, hhi⟩ := Lead.ofByte?_of_three ha hb low high
    refine ⟨a, [b, c], rfl, ?_⟩
    have : ¬ a < 0x80 := by rw [UInt8.lt_iff_toNat_lt]; simp; omega
    simp only [Piece.read, this, if_false, hl, hf, hbits, List.cons_append, List.nil_append]
    rw [Piece.readTail_cons hlo hhi, Piece.readTail_tail hc, Piece.readTail]
  | @four a b c d ha hb low high hc hd =>
    obtain ⟨l, hl, hf, hbits, hlo, hhi⟩ := Lead.ofByte?_of_four ha hb low high
    refine ⟨a, [b, c, d], rfl, ?_⟩
    have : ¬ a < 0x80 := by rw [UInt8.lt_iff_toNat_lt]; simp; omega
    simp only [Piece.read, this, if_false, hl, hf, hbits, List.cons_append, List.nil_append]
    rw [Piece.readTail_cons hlo hhi, Piece.readTail_tail hc, Piece.readTail_tail hd,
      Piece.readTail]

/-- A character is complete when no byte of it is missing. -/
theorem Piece.readTail_zero_eq_char {lo hi : UInt8} {bits taken : Nat} {bs left : List UInt8}
    {c : Char} (h : readTail lo hi bits taken 0 bs = (.char c, left)) :
    c = Char.ofNat bits ∧ bs = left := by
  simp only [readTail, Prod.mk.injEq, Piece.char.injEq] at h
  exact ⟨h.1.symm, h.2⟩

theorem Piece.readTail_succ_eq_char {lo hi : UInt8} {bits taken n : Nat} {bs left : List UInt8}
    {c : Char} (h : readTail lo hi bits taken (n + 1) bs = (.char c, left)) :
    ∃ b rest, bs = b :: rest ∧ lo.toNat ≤ b.toNat ∧ b.toNat ≤ hi.toNat ∧
      readTail 0x80 0xBF (bits * 64 + (b.toNat - 0x80)) (taken + 1) n rest = (.char c, left) := by
  cases bs with
  | nil => simp [readTail] at h
  | cons b rest =>
    simp only [readTail] at h
    split at h
    · next hb => exact ⟨b, rest, rfl, UInt8.le_iff_toNat_le.1 hb.1, UInt8.le_iff_toNat_le.1 hb.2, h⟩
    · cases h

/-- What a leading byte tells. -/
theorem Lead.eq_some_of_ofByte? {a : UInt8} {l : Lead} (h : Lead.ofByte? a = some l) :
    (l.following = 1 ∧ (0xC2 ≤ a.toNat ∧ a.toNat ≤ 0xDF) ∧ l.bits = a.toNat - 0xC0 ∧
      l.least.toNat = 0x80 ∧ l.greatest.toNat = 0xBF) ∨
    (l.following = 2 ∧ (0xE0 ≤ a.toNat ∧ a.toNat ≤ 0xEF) ∧ l.bits = a.toNat - 0xE0 ∧
      l.least.toNat = (if a.toNat = 0xE0 then 0xA0 else 0x80) ∧
      l.greatest.toNat = if a.toNat = 0xED then 0x9F else 0xBF) ∨
    (l.following = 3 ∧ (0xF0 ≤ a.toNat ∧ a.toNat ≤ 0xF4) ∧ l.bits = a.toNat - 0xF0 ∧
      l.least.toNat = (if a.toNat = 0xF0 then 0x90 else 0x80) ∧
      l.greatest.toNat = if a.toNat = 0xF4 then 0x8F else 0xBF) := by
  rw [ofByte?_eq] at h
  split_ifs at h with h1 h2 h3 h4 h5 h6 h7 h8 <;> cases h <;> simp <;> omega

/-- A character that was read stands in the bytes that were taken for it. -/
theorem Piece.encodes_of_read {a : UInt8} {rest left : List UInt8} {c : Char}
    (h : read a rest = (.char c, left)) :
    ∃ tail n, rest = tail ++ left ∧ Encodes (a :: tail) n ∧ c = Char.ofNat n := by
  unfold read at h
  split at h
  · next ha =>
    cases h
    exact ⟨[], _, rfl, .one (UInt8.lt_iff_toNat_lt.1 ha), rfl⟩
  split at h
  · cases h
  next l hl =>
  obtain ⟨hf, ha, hbits, hlo, hhi⟩ | ⟨hf, ha, hbits, hlo, hhi⟩ | ⟨hf, ha, hbits, hlo, hhi⟩ :=
    Lead.eq_some_of_ofByte? hl
  · rw [hf, hbits] at h
    obtain ⟨b, r, rfl, hb, hb', h⟩ := readTail_succ_eq_char h
    obtain ⟨hchar, rfl⟩ := readTail_zero_eq_char h
    exact ⟨[b], _, rfl, .two ha (by simp only [IsTail]; omega), hchar⟩
  · rw [hf, hbits] at h
    obtain ⟨b, r, rfl, hb, hb', h⟩ := readTail_succ_eq_char h
    obtain ⟨c, r, rfl, hc, hc', h⟩ := readTail_succ_eq_char h
    obtain ⟨hchar, rfl⟩ := readTail_zero_eq_char h
    refine ⟨[b, c], _, rfl, .three ha ?_ ?_ ?_ ⟨hc, hc'⟩, hchar⟩
    · split_ifs at hlo hhi <;> simp only [IsTail] <;> omega
    · intro h; rw [if_pos h] at hlo; omega
    · intro h; rw [if_pos h] at hhi; omega
  · rw [hf, hbits] at h
    obtain ⟨b, r, rfl, hb, hb', h⟩ := readTail_succ_eq_char h
    obtain ⟨c, r, rfl, hc, hc', h⟩ := readTail_succ_eq_char h
    obtain ⟨d, r, rfl, hd, hd', h⟩ := readTail_succ_eq_char h
    obtain ⟨hchar, rfl⟩ := readTail_zero_eq_char h
    refine ⟨[b, c, d], _, rfl, .four ha ?_ ?_ ?_ ⟨hc, hc'⟩ ⟨hd, hd'⟩, hchar⟩
    · split_ifs at hlo hhi <;> simp only [IsTail] <;> omega
    · intro h; rw [if_pos h] at hlo; omega
    · intro h; rw [if_pos h] at hhi; omega

theorem encodes_utf8EncodeChar (c : Char) : Encodes (String.utf8EncodeChar c) c.toNat := by
  have hc : c.val.toNat = c.toNat := rfl
  have hv : c.toNat < 0xD800 ∨ 0xDFFF < c.toNat ∧ c.toNat < 0x110000 := c.valid
  simp only [String.utf8EncodeChar, hc]
  generalize c.toNat = n at *
  split
  · have h := Encodes.one (a := UInt8.ofNat n) (by simp; omega)
    convert h using 1
    simp; omega
  split
  · have h := Encodes.two (a := UInt8.ofNat (n / 64 % 32 + 0xC0)) (b := UInt8.ofNat (n % 64 + 0x80))
      (by simp; omega) (by simp [IsTail]; omega)
    convert h using 1
    simp; omega
  split
  · have h := Encodes.three (a := UInt8.ofNat (n / 4096 % 16 + 0xE0))
      (b := UInt8.ofNat (n / 64 % 64 + 0x80)) (c := UInt8.ofNat (n % 64 + 0x80))
      (by simp; omega) (by simp [IsTail]; omega) (by simp; omega) (by simp; omega)
      (by simp [IsTail]; omega)
    convert h using 1
    simp; omega
  · have h := Encodes.four (a := UInt8.ofNat (n / 262144 % 8 + 0xF0))
      (b := UInt8.ofNat (n / 4096 % 64 + 0x80))
      (c := UInt8.ofNat (n / 64 % 64 + 0x80)) (d := UInt8.ofNat (n % 64 + 0x80))
      (by simp; omega) (by simp [IsTail]; omega) (by simp; omega) (by simp; omega)
      (by simp [IsTail]; omega) (by simp [IsTail]; omega)
    convert h using 1
    simp; omega


/-- The number of a character that bytes hold is one that a character can have. -/
theorem Encodes.isValidChar {bs : List UInt8} {n : Nat} (h : Encodes bs n) : n.isValidChar := by
  simp only [Nat.isValidChar]
  cases h with
  | one ha => omega
  | two ha hb => simp only [IsTail] at hb; omega
  | three ha hb low high hc => simp only [IsTail] at hb hc; omega
  | four ha hb low high hc hd => simp only [IsTail] at hb hc hd; omega

theorem Encodes.eq_utf8EncodeChar {bs : List UInt8} {n : Nat} (h : Encodes bs n) :
    bs = String.utf8EncodeChar (Char.ofNat n) := by
  have hn : (Char.ofNat n).val.toNat = n := by
    rw [Char.ofNat, dif_pos h.isValidChar]
    rfl
  simp only [String.utf8EncodeChar, hn]
  cases h with
  | @one a ha => 
    rw [if_pos (by omega)]
    simp
  | @two a b ha hb =>
    simp only [IsTail] at hb
    rw [if_neg (by omega), if_pos (by omega)]
    simp only [List.cons.injEq, and_true, ← UInt8.toNat_inj, UInt8.toNat_ofNat']
    omega
  | @three a b c ha hb low high hc =>
    simp only [IsTail] at hb hc
    rw [if_neg (by omega), if_neg (by omega), if_pos (by omega)]
    simp only [List.cons.injEq, and_true, ← UInt8.toNat_inj, UInt8.toNat_ofNat']
    omega
  | @four a b c d ha hb low high hc hd => 
    simp only [IsTail] at hb hc hd
    rw [if_neg (by omega), if_neg (by omega), if_neg (by omega)]
    simp only [List.cons.injEq, and_true, ← UInt8.toNat_inj, UInt8.toNat_ofNat']
    omega

/-- The encoding of a character is read back as the character. -/
theorem Piece.read_utf8EncodeChar (c : Char) (rest : List UInt8) :
    ∃ b tail, String.utf8EncodeChar c = b :: tail ∧ read b (tail ++ rest) = (.char c, rest) := by
  obtain ⟨b, tail, htail, hread⟩ := (encodes_utf8EncodeChar c).read rest
  rw [Char.ofNat_toNat] at hread
  exact ⟨b, tail, htail, hread⟩

@[simp] theorem encode_nil : encode [] = [] := rfl

@[simp] theorem encode_cons (c : Char) (text : List Char) :
    encode (c :: text) = String.utf8EncodeChar c ++ encode text := by simp [encode]

@[simp] theorem encode_append (s t : List Char) : encode (s ++ t) = encode s ++ encode t := by
  simp [encode]

theorem byteLength_eq (text : List Char) : byteLength text = (encode text).length := by
  have hfrom : ∀ n, text.foldl (fun n c => n + c.utf8Size) n = n + (encode text).length := by
    induction text with
    | nil => exact fun n => rfl
    | cons c text ih =>
      intro n
      rw [List.foldl_cons, ih, encode_cons, List.length_append, String.length_utf8EncodeChar,
        Nat.add_assoc]
  exact (hfrom 0).trans (Nat.zero_add _)

theorem mem_encode {c : Char} {text : List Char} {b : UInt8} (hb : b ∈ String.utf8EncodeChar c)
    (hc : c ∈ text) : b ∈ encode text := List.mem_flatMap.2 ⟨c, hc, hb⟩

theorem encode_eq_nil_iff {text : List Char} : encode text = [] ↔ text = [] := by
  constructor
  · intro h
    cases text with
    | nil => rfl
    | cons c text =>
      obtain ⟨b, tail, htail, -⟩ := Piece.read_utf8EncodeChar c []
      rw [encode_cons, htail] at h
      cases h
  · rintro rfl
    rfl

theorem encode_intercalate (separator : List Char) (texts : List (List Char)) :
    encode (separator.intercalate texts) = (encode separator).intercalate (texts.map encode) := by
  induction texts with
  | nil => rfl
  | cons text texts ih =>
    cases texts with
    | nil => simp
    | cons text' texts =>
      rw [List.intercalate_cons_cons, encode_append, encode_append, ih, List.map_cons, List.map_cons,
        List.map_cons, List.intercalate_cons_cons]

/-- The characters of a byte string that holds nothing else than one-byte characters. -/
def ascii (bytes : List UInt8) : List Char := bytes.map fun b => Char.ofNat b.toNat

theorem encode_ascii {bytes : List UInt8} (h : ∀ b ∈ bytes, b < 0x80) :
    encode (ascii bytes) = bytes := by
  induction bytes with
  | nil => rfl
  | cons b bytes ih =>
    have hb := Encodes.one (UInt8.lt_iff_toNat_lt.1 (h b List.mem_cons_self))
    rw [ascii, List.map_cons, encode_cons, ← hb.eq_utf8EncodeChar, ← ascii,
      ih fun c hc => h c (List.mem_cons_of_mem _ hc)]
    rfl

theorem decodeFrom_cons {b : UInt8} {rest left : List UInt8} {c : Char}
    (h : Piece.read b rest = (.char c, left)) (index : Nat) (done : List Char) :
    decodeFrom index done (b :: rest) = decodeFrom (index + c.utf8Size) (c :: done) left := by
  rw [decodeFrom]
  split
  · next c' left' h' =>
    rw [h] at h'
    cases h'
    rfl
  · next h' =>
    rw [h] at h'
    cases h'

theorem decodeFrom_encode (text : List Char) (index : Nat) (done : List Char) :
    decodeFrom index done (encode text) = .ok (done.reverse ++ text) := by
  induction text generalizing index done with
  | nil => simp [decodeFrom]
  | cons c text ih =>
    obtain ⟨b, tail, htail, hread⟩ := Piece.read_utf8EncodeChar c (encode text)
    rw [encode_cons, htail, List.cons_append, decodeFrom_cons hread, ih]
    simp

theorem eq_encode_of_decodeFrom {index : Nat} {done text : List Char} {bytes : List UInt8}
    (h : decodeFrom index done bytes = .ok text) :
    ∃ more, text = done.reverse ++ more ∧ bytes = encode more := by
  fun_induction decodeFrom index done bytes with
  | case1 =>
    cases h
    exact ⟨[], by simp⟩
  | case2 index done b rest c left hread _ ih =>
    obtain ⟨more, rfl, rfl⟩ := ih h
    obtain ⟨tail, n, rfl, henc, rfl⟩ := Piece.encodes_of_read hread
    refine ⟨Char.ofNat n :: more, by simp, ?_⟩
    rw [encode_cons, ← henc.eq_utf8EncodeChar, List.cons_append]
  | case3 => cases h

@[simp] theorem decode_encode (text : List Char) : decode (encode text) = .ok text :=
  decodeFrom_encode text 0 []

theorem lossyFrom_cons {b : UInt8} {rest left : List UInt8} {c : Char}
    (h : Piece.read b rest = (.char c, left)) (done : List Char) :
    lossyFrom done (b :: rest) = lossyFrom (c :: done) left := by
  rw [lossyFrom]
  split
  · next c' left' h' =>
    rw [h] at h'
    cases h'
    rfl
  · next h' =>
    rw [h] at h'
    cases h'

theorem lossyFrom_encode (text done : List Char) :
    lossyFrom done (encode text) = done.reverse ++ text := by
  induction text generalizing done with
  | nil => simp [lossyFrom]
  | cons c text ih =>
    obtain ⟨b, tail, htail, hread⟩ := Piece.read_utf8EncodeChar c (encode text)
    rw [encode_cons, htail, List.cons_append, lossyFrom_cons hread, ih]
    simp

/-- The lossy reading loses nothing of a text. -/
@[simp] theorem lossy_encode (text : List Char) : lossy (encode text) = text :=
  lossyFrom_encode text []

/-- A byte string is read as a text exactly if it is the encoding of that text. -/
theorem decode_eq_ok_iff {bytes : List UInt8} {text : List Char} :
    decode bytes = .ok text ↔ bytes = encode text := by
  constructor
  · intro h
    obtain ⟨more, rfl, rfl⟩ := eq_encode_of_decodeFrom h
    rfl
  · rintro rfl
    exact decode_encode text

/-- Whether a byte string is the encoding of a text. -/
def IsText (bytes : List UInt8) : Prop := ∃ text, bytes = encode text

/-- The strict reading fails exactly on what is no text. -/
theorem decode_eq_error_iff {bytes : List UInt8} :
    (∃ fault, decode bytes = .error fault) ↔ ¬ IsText bytes := by
  constructor
  · rintro ⟨fault, h⟩ ⟨text, rfl⟩
    rw [decode_encode] at h
    cases h
  · intro h
    cases hd : decode bytes with
    | error fault => exact ⟨fault, rfl⟩
    | ok text => exact absurd ⟨text, decode_eq_ok_iff.1 hd⟩ h

/-- A text that begins with the bytes of another text begins with its characters. -/
theorem eq_append_of_encode {s t : List Char} {bytes : List UInt8}
    (h : encode s ++ bytes = encode t) : ∃ more, t = s ++ more ∧ bytes = encode more := by
  induction s generalizing t with
  | nil => exact ⟨t, rfl, h⟩
  | cons c s ih =>
    obtain ⟨b, tail, htail, hread⟩ := Piece.read_utf8EncodeChar c (encode s ++ bytes)
    rw [encode_cons, htail, List.cons_append, List.cons_append, List.append_assoc] at h
    cases t with
    | nil => cases h
    | cons c' t =>
      obtain ⟨b', tail', htail', hread'⟩ := Piece.read_utf8EncodeChar c' (encode t)
      rw [encode_cons, htail', List.cons_append] at h
      injection h with hb hrest
      -- One byte string is read in one way only.
      rw [hb, hrest, hread'] at hread
      injection hread with hchar htext
      injection hchar with hchar
      obtain ⟨more, rfl, hmore⟩ := ih htext.symm
      exact ⟨more, by rw [hchar, List.cons_append], hmore⟩

/-- No character but the line feed ends in its byte. -/
theorem eq_lineFeed_of_encode {t : List Char} {bytes : List UInt8}
    (h : bytes ++ [10] = encode t) : ∃ s, t = s ++ ['\n'] ∧ bytes = encode s := by
  obtain rfl | ⟨s, c, rfl⟩ := List.eq_nil_or_concat t
  · simp at h
  rw [List.concat_eq_append, encode_append, encode_cons, encode_nil, List.append_nil] at h
  have hc := encodes_utf8EncodeChar c
  have hlast : ∀ (front : List UInt8) (b : UInt8), IsTail b →
      bytes ++ [10] ≠ encode s ++ (front ++ [b]) := by
    intro front b hb heq
    rw [← List.append_assoc] at heq
    obtain ⟨-, rfl⟩ := List.append_singleton_inj.1 heq
    exact absurd hb.1 (by decide)
  generalize String.utf8EncodeChar c = cs at h hc
  generalize hn : c.toNat = n at hc
  cases hc with
  | @one a ha =>
    obtain ⟨hs, rfl⟩ := List.append_singleton_inj.1 h
    have hchar : c = '\n' := by rw [← Char.ofNat_toNat c, hn]; rfl
    exact ⟨s, by rw [List.concat_eq_append, hchar], hs⟩
  | @two a b _ hb => exact absurd h (hlast [a] b hb)
  | @three a b c _ _ _ _ hc => exact absurd h (hlast [a, b] c hc)
  | @four a b c d _ _ _ _ _ hd => exact absurd h (hlast [a, b, c] d hd)

end JobGateway.Utf8
