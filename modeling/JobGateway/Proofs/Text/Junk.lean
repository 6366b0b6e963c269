import JobGateway.Proofs.Text.Utf8

/-! Bytes that are no text. Where the strict reading stops, no character stands, and the bytes there
begin a character as far as they can, or are a single byte that begins none. The lossy reading has
the text before them, one mark in their place, and goes on behind them. -/
namespace JobGateway.Utf8

/-- Bytes that are the beginning of a character, but not all of it. -/
def Begins (bytes : List UInt8) : Prop :=
  ∃ c more, more ≠ [] ∧ String.utf8EncodeChar c = bytes ++ more

/-- The bytes that are taken for no character at a place, given those that follow. -/
structure Junk (junk rest : List UInt8) : Prop where
  nonempty : junk ≠ []
  /-- No character stands at the place. -/
  noChar : ∀ c, ¬ String.utf8EncodeChar c <+: junk ++ rest
  /-- More than one byte is taken only as the beginning of a character. -/
  begins : Begins junk ∨ junk.length = 1
  /-- No more bytes could have been taken. -/
  longest : ∀ front, front <+: junk ++ rest → Begins front → front.length ≤ junk.length

/-- Bytes that may follow a leading byte, given the bounds of the first of them. -/
def Follow (lo hi : UInt8) : List UInt8 → Prop
  | [] => True
  | b :: bytes => (lo ≤ b ∧ b ≤ hi) ∧ Follow 0x80 0xBF bytes

variable {lo hi a : UInt8} {bytes tail rest left : List UInt8} {l : Lead}

theorem Follow.of_append (h : Follow lo hi (tail ++ rest)) : Follow lo hi tail := by
  induction tail generalizing lo hi with
  | nil => trivial
  | cons b tail ih => exact ⟨h.1, ih h.2⟩

/-- What may follow can be completed to any number of bytes. -/
theorem Follow.exists_append (h : Follow lo hi tail) (hle : lo ≤ hi) (n : Nat) :
    ∃ more : List UInt8, more.length = n ∧ Follow lo hi (tail ++ more) := by
  have htail : (0x80 : UInt8) ≤ 0xBF := by decide
  induction tail generalizing lo hi n with
  | nil =>
    induction n generalizing lo hi with
    | zero => exact ⟨[], rfl, trivial⟩
    | succ n ih =>
      obtain ⟨more, hlength, hmore⟩ := ih (trivial : Follow 0x80 0xBF []) htail
      exact ⟨lo :: more, congrArg (· + 1) hlength, ⟨UInt8.le_refl lo, hle⟩, hmore⟩
  | cons b tail ih =>
    obtain ⟨more, hlength, hmore⟩ := ih h.2 htail n
    exact ⟨more, hlength, h.1, hmore⟩

theorem Lead.least_le_greatest (h : Lead.ofByte? a = some l) : l.least ≤ l.greatest := by
  rw [UInt8.le_iff_toNat_le]
  obtain ⟨-, -, -, hlo, hhi⟩ | ⟨-, -, -, hlo, hhi⟩ | ⟨-, -, -, hlo, hhi⟩ :=
    Lead.eq_some_of_ofByte? h
  · omega
  · split at hlo <;> split at hhi <;> omega
  · split at hlo <;> split at hhi <;> omega

theorem Lead.not_lt_of_ofByte? (h : Lead.ofByte? a = some l) : ¬ a < 0x80 := by
  rw [UInt8.lt_iff_toNat_lt]
  have hsmall : (0x80 : UInt8).toNat = 0x80 := rfl
  obtain ⟨-, ha, -⟩ | ⟨-, ha, -⟩ | ⟨-, ha, -⟩ := Lead.eq_some_of_ofByte? h <;> omega

/-- The reading of the bytes behind a leading byte: it takes bytes that may follow, either as many as
it needs, or as many as there are. -/
theorem Piece.readTail_cases (lo hi : UInt8) (bits taken n : Nat) (bytes : List UInt8) :
    ∃ tail left, bytes = tail ++ left ∧ Follow lo hi tail ∧
      ((tail.length = n ∧ ∃ c, readTail lo hi bits taken n bytes = (.char c, left)) ∨
        tail.length < n ∧ (∀ b ∈ left.head?, ¬ Follow lo hi (tail ++ [b])) ∧
          readTail lo hi bits taken n bytes = (.junk (taken + tail.length) left.isEmpty, left)) := by
  induction n generalizing lo hi bits taken bytes with
  | zero => exact ⟨[], bytes, rfl, trivial, .inl ⟨rfl, _, rfl⟩⟩
  | succ n ih =>
    cases bytes with
    | nil => exact ⟨[], [], rfl, trivial, .inr ⟨Nat.succ_pos n, nofun, rfl⟩⟩
    | cons b bytes =>
      by_cases hb : lo ≤ b ∧ b ≤ hi
      · obtain ⟨tail, left, rfl, htail, hread⟩ :=
          ih 0x80 0xBF (bits * 64 + (b.toNat - 0x80)) (taken + 1) bytes
        refine ⟨b :: tail, left, rfl, ⟨hb, htail⟩, ?_⟩
        rw [readTail, if_pos hb]
        obtain ⟨hlength, c, hchar⟩ | ⟨hlength, hstop, hjunk⟩ := hread
        · exact .inl ⟨congrArg (· + 1) hlength, c, hchar⟩
        · refine .inr ⟨Nat.succ_lt_succ hlength, fun b' hb' hfollow => hstop b' hb' hfollow.2, ?_⟩
          rw [hjunk, List.length_cons, Nat.add_right_comm, Nat.add_assoc]
      · refine ⟨[], b :: bytes, rfl, trivial, .inr ⟨Nat.succ_pos n, ?_, ?_⟩⟩
        · rintro b' ⟨⟩ hfollow
          exact hb hfollow.1
        · rw [readTail, if_neg hb]
          rfl

/-- All bytes behind a leading byte are taken for one character exactly if they may follow and are as
many as they should be. -/
theorem Piece.readTail_eq_char_iff (bits taken n : Nat) :
    (∃ c, readTail lo hi bits taken n bytes = (.char c, [])) ↔
      Follow lo hi bytes ∧ bytes.length = n := by
  obtain ⟨tail, left, rfl, htail, hread⟩ := readTail_cases lo hi bits taken n bytes
  obtain ⟨hlength, c, hchar⟩ | ⟨hlength, hstop, hjunk⟩ := hread
  · constructor
    · rintro ⟨c', hc'⟩
      rw [hchar] at hc'
      cases hc'
      rw [List.append_nil]
      exact ⟨htail, hlength⟩
    · rintro ⟨-, hall⟩
      rw [List.length_append, hlength] at hall
      obtain rfl : left = [] := List.length_eq_zero_iff.1 (by omega)
      exact ⟨c, hchar⟩
  · constructor
    · rintro ⟨c, hc⟩
      rw [hjunk] at hc
      cases hc
    · rintro ⟨hfollow, hall⟩
      cases left with
      | nil =>
        rw [List.append_nil] at hall
        omega
      | cons b left =>
        rw [List.append_cons] at hfollow
        exact absurd hfollow.of_append (hstop b rfl)

/-- A byte begins a character if it is a leading byte, and then as long as bytes follow that may, but
are too few. -/
theorem begins_cons_iff : Begins (a :: tail) ↔ ∃ l, Lead.ofByte? a = some l ∧
    Follow l.least l.greatest tail ∧ tail.length < l.following := by
  constructor
  · rintro ⟨c, more, hmore, hc⟩
    obtain ⟨b, tail', htail', hread⟩ := Piece.read_utf8EncodeChar c []
    rw [htail', List.cons_append] at hc
    obtain ⟨rfl, rfl⟩ := List.cons.inj hc
    rw [List.append_nil, Piece.read] at hread
    split at hread
    · exact absurd (Prod.mk.inj hread).2 (by simp [hmore])
    split at hread
    · cases hread
    next l hl =>
    obtain ⟨hfollow, hlength⟩ := (Piece.readTail_eq_char_iff _ _ _).1 ⟨c, hread⟩
    rw [List.length_append] at hlength
    have hpos := List.length_pos_iff.2 hmore
    exact ⟨l, hl, hfollow.of_append, by omega⟩
  · rintro ⟨l, hl, hfollow, hlength⟩
    obtain ⟨more, hmore, hall⟩ :=
      hfollow.exists_append (Lead.least_le_greatest hl) (l.following - tail.length)
    obtain ⟨c, hc⟩ := (Piece.readTail_eq_char_iff l.bits 1 l.following).2
      ⟨hall, by rw [List.length_append]; omega⟩
    have hread : Piece.read a (tail ++ more) = (.char c, []) := by
      rw [Piece.read, if_neg (Lead.not_lt_of_ofByte? hl), hl]
      exact hc
    obtain ⟨tail', n, htail', henc, rfl⟩ := Piece.encodes_of_read hread
    rw [List.append_nil] at htail'
    subst htail'
    refine ⟨Char.ofNat n, more, ?_, henc.eq_utf8EncodeChar.symm⟩
    rintro rfl
    rw [List.length_nil] at hmore
    omega

theorem Piece.noChar_of_read {k : Nat} {cutOff : Bool} (h : read a rest = (.junk k cutOff, left))
    (c : Char) : ¬ String.utf8EncodeChar c <+: a :: rest := by
  rintro ⟨more, hmore⟩
  obtain ⟨b, tail, htail, hread⟩ := read_utf8EncodeChar c more
  rw [htail, List.cons_append] at hmore
  obtain ⟨rfl, rfl⟩ := List.cons.inj hmore
  rw [h] at hread
  cases hread

theorem not_begins_of_ofByte? (h : Lead.ofByte? a = none) : ¬ Begins (a :: tail) := by
  intro hbegins
  obtain ⟨l, hl, -⟩ := begins_cons_iff.1 hbegins
  rw [hl] at h
  cases h

/-- No beginning of a character goes beyond the bytes that may follow. -/
theorem length_le_of_begins (hl : Lead.ofByte? a = some l)
    (hstop : ∀ b ∈ left.head?, ¬ Follow l.least l.greatest (tail ++ [b])) {front : List UInt8}
    (hfront : front <+: a :: tail ++ left) (hbegins : Begins front) :
    front.length ≤ (a :: tail).length := by
  obtain hshort | ⟨more, rfl⟩ :=
    List.prefix_or_prefix_of_prefix hfront (List.prefix_append (a :: tail) left)
  · exact hshort.length_le
  cases more with
  | nil => exact Nat.le_of_eq (congrArg List.length (List.append_nil _))
  | cons b more =>
    obtain ⟨left, rfl⟩ := (List.prefix_append_right_inj (a :: tail)).1 hfront
    obtain ⟨l', hl', hfollow, -⟩ := begins_cons_iff.1 hbegins
    rw [hl, Option.some.injEq] at hl'
    subst hl'
    rw [List.append_eq, List.append_cons] at hfollow
    exact absurd hfollow.of_append (hstop b rfl)

/-- What is read as no character is junk. It is cut off where it begins a character and nothing
follows. -/
theorem Piece.junk_of_read {k : Nat} {cutOff : Bool} (h : read a rest = (.junk k cutOff, left)) :
    ∃ tail, rest = tail ++ left ∧ k = (a :: tail).length ∧ Junk (a :: tail) left ∧
      (cutOff = true ↔ left = [] ∧ Begins (a :: tail)) := by
  have hchar := noChar_of_read h
  unfold read at h
  split at h
  · cases h
  split at h
  · next hlead =>
    cases h
    refine ⟨[], rfl, rfl, ⟨List.cons_ne_nil a [], hchar, .inr rfl, ?_⟩,
      iff_of_false Bool.false_ne_true fun hand => not_begins_of_ofByte? hlead hand.2⟩
    intro front hfront hbegins
    cases front with
    | nil => exact Nat.zero_le _
    | cons b front =>
      obtain ⟨rfl, -⟩ := List.cons_prefix_cons.1 hfront
      exact absurd hbegins (not_begins_of_ofByte? hlead)
  · next l hl =>
    obtain ⟨tail, left', rfl, htail, hread⟩ :=
      readTail_cases l.least l.greatest l.bits 1 l.following rest
    obtain ⟨-, c, hc⟩ | ⟨hlength, hstop, hjunk⟩ := hread
    · rw [hc] at h
      cases h
    rw [hjunk] at h
    cases h
    have hbegins : Begins (a :: tail) := begins_cons_iff.2 ⟨l, hl, htail, hlength⟩
    exact ⟨tail, rfl, Nat.add_comm .., ⟨List.cons_ne_nil a tail, hchar, .inl hbegins,
      fun front => length_le_of_begins hl hstop⟩, by simp [hbegins]⟩

/-- The strict reading stops behind a text, where something is read that is no character. -/
theorem decodeFrom_eq_error {index : Nat} {done : List Char} {fault : Fault}
    (h : decodeFrom index done bytes = .error fault) : ∃ text a rest k cutOff left,
      bytes = encode text ++ a :: rest ∧ Piece.read a rest = (.junk k cutOff, left) ∧
      fault = ⟨index + (encode text).length, if cutOff then none else some k⟩ := by
  fun_induction decodeFrom index done bytes with
  | case1 => cases h
  | case2 index done b rest c left hread _ ih =>
    obtain ⟨text, a, rest, k, cutOff, left', rfl, hjunk, rfl⟩ := ih h
    obtain ⟨tail, n, rfl, henc, rfl⟩ := Piece.encodes_of_read hread
    refine ⟨Char.ofNat n :: text, a, rest, k, cutOff, left', ?_, hjunk, ?_⟩
    · rw [encode_cons, ← henc.eq_utf8EncodeChar, List.append_assoc, List.cons_append]
    · rw [encode_cons, List.length_append, String.length_utf8EncodeChar, Nat.add_assoc]
  | case3 index done b rest k cutOff left hread =>
    cases h
    exact ⟨[], b, rest, k, cutOff, left, rfl, hread, rfl⟩

theorem lossyFrom_cons_junk {k : Nat} {cutOff : Bool}
    (h : Piece.read a rest = (.junk k cutOff, left)) (done : List Char) :
    lossyFrom done (a :: rest) = lossyFrom ('\uFFFD' :: done) left := by
  rw [lossyFrom]
  split
  · next h' =>
    rw [h] at h'
    cases h'
  · next h' =>
    rw [h] at h'
    cases h'
    rfl

theorem lossyFrom_append (done before : List Char) (bytes : List UInt8) :
    lossyFrom (done ++ before) bytes = before.reverse ++ lossyFrom done bytes := by
  fun_induction lossyFrom done bytes with
  | case1 done => rw [lossyFrom, List.reverse_append]
  | case2 done b rest c left hread _ ih =>
    rw [lossyFrom_cons hread]
    exact ih
  | case3 done b rest k cutOff left hread _ ih =>
    rw [lossyFrom_cons_junk hread]
    exact ih

theorem lossyFrom_encode_append (text done : List Char) (bytes : List UInt8) :
    lossyFrom done (encode text ++ bytes) = lossyFrom (text.reverse ++ done) bytes := by
  induction text generalizing done with
  | nil => rfl
  | cons c text ih =>
    obtain ⟨b, tail, htail, hread⟩ := Piece.read_utf8EncodeChar c (encode text ++ bytes)
    rw [encode_cons, List.append_assoc, htail, List.cons_append, lossyFrom_cons hread, ih,
      List.reverse_cons, List.append_assoc, List.singleton_append]

/-- Behind a text and junk the lossy reading goes on after one mark. -/
theorem lossy_append_junk {k : Nat} {cutOff : Bool} (h : Piece.read a rest = (.junk k cutOff, left))
    (text : List Char) :
    lossy (encode text ++ a :: rest) = text ++ '\uFFFD' :: lossy left := by
  rw [lossy, lossyFrom_encode_append, List.append_nil, lossyFrom_cons_junk h,
    ← List.nil_append ('\uFFFD' :: _), lossyFrom_append, List.reverse_cons, List.reverse_reverse,
    List.append_assoc, List.singleton_append, lossy]

/-- No text in front of the bytes goes beyond the place of junk. -/
theorem length_le_of_isText {text : List Char} {junk front : List UInt8} (h : Junk junk rest)
    (hfront : front <+: encode text ++ (junk ++ rest)) (htext : IsText front) :
    front.length ≤ (encode text).length := by
  obtain ⟨text', rfl⟩ := htext
  obtain hshort | ⟨more, hmore⟩ := List.prefix_or_prefix_of_prefix hfront
    (List.prefix_append (encode text) (junk ++ rest))
  · exact hshort.length_le
  obtain ⟨further, rfl, rfl⟩ := eq_append_of_encode hmore
  cases further with
  | nil => simp
  | cons c further =>
    rw [encode_append, List.prefix_append_right_inj, encode_cons] at hfront
    exact absurd ((List.prefix_append _ _).trans hfront) (h.noChar c)

/-- Where the strict reading fails, and what the lossy reading makes of the place. -/
theorem junk_of_decode_eq_error {fault : Fault} (h : decode bytes = .error fault) :
    ∃ text junk rest, bytes = encode text ++ (junk ++ rest) ∧ Junk junk rest ∧
      lossy bytes = text ++ '\uFFFD' :: lossy rest ∧ fault.validUpTo = (encode text).length ∧
      (fault.length = some junk.length ∧ ¬ (rest = [] ∧ Begins junk) ∨
        fault.length = none ∧ rest = [] ∧ Begins junk) := by
  obtain ⟨text, a, rest, k, cutOff, left, rfl, hread, rfl⟩ := decodeFrom_eq_error h
  obtain ⟨tail, rfl, rfl, hjunk, hcut⟩ := Piece.junk_of_read hread
  refine ⟨text, a :: tail, left, rfl, hjunk, lossy_append_junk hread text, Nat.zero_add _, ?_⟩
  cases cutOff with
  | false => exact .inl ⟨rfl, fun hand => Bool.false_ne_true (hcut.2 hand)⟩
  | true => exact .inr ⟨rfl, hcut.1 rfl⟩

end JobGateway.Utf8
