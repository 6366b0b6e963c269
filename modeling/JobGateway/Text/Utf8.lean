/-! UTF-8 text in byte strings, read in two ways. The strict reading accepts exactly the encodings
of lists of characters and says where the first ill-formed sequence begins and how long it is. The
lossy reading never fails: each longest run of bytes that begins no character becomes one U+FFFD. -/
namespace JobGateway.Utf8

def encode (text : List Char) : List UInt8 := text.flatMap String.utf8EncodeChar

/-- The number of bytes of a text. -/
def byteLength (text : List Char) : Nat := text.foldl (fun n c => n + c.utf8Size) 0

/-- What stands at the front of a byte string. -/
inductive Piece where
  | char (c : Char)
  /-- The longest run of bytes that begins no character. `cutOff` holds if more bytes could have
  completed one, but the string ends there. -/
  | junk (length : Nat) (cutOff : Bool)
  deriving DecidableEq, Repr

/-- What a leading byte announces: how many bytes follow it, the least and the greatest value of
the first of these, and the bits of the character that the leading byte itself holds. -/
structure Lead where
  following : Nat
  least : UInt8
  greatest : UInt8
  bits : Nat

/-- The leading bytes of the characters beyond U+007F. The bounds on the second byte exclude
encodings longer than needed, surrogates, and values beyond U+10FFFF. -/
def Lead.ofByte? (b : UInt8) : Option Lead :=
  if b < 0xC2 then none
  else if b ≤ 0xDF then some ⟨1, 0x80, 0xBF, b.toNat - 0xC0⟩
  else if b = 0xE0 then some ⟨2, 0xA0, 0xBF, 0⟩
  else if b = 0xED then some ⟨2, 0x80, 0x9F, 0xD⟩
  else if b ≤ 0xEF then some ⟨2, 0x80, 0xBF, b.toNat - 0xE0⟩
  else if b = 0xF0 then some ⟨3, 0x90, 0xBF, 0⟩
  else if b ≤ 0xF3 then some ⟨3, 0x80, 0xBF, b.toNat - 0xF0⟩
  else if b = 0xF4 then some ⟨3, 0x80, 0x8F, 4⟩
  else none

/-- Read `n` more bytes of a character of which `taken` bytes holding `bits` are read. -/
def Piece.readTail (least greatest : UInt8) (bits taken : Nat) :
    Nat → List UInt8 → Piece × List UInt8
  | 0, rest => (.char (Char.ofNat bits), rest)
  | _ + 1, [] => (.junk taken true, [])
  | n + 1, b :: rest =>
    if least ≤ b ∧ b ≤ greatest then
      readTail 0x80 0xBF (bits * 64 + (b.toNat - 0x80)) (taken + 1) n rest
    else (.junk taken false, b :: rest)

def Piece.read (b : UInt8) (rest : List UInt8) : Piece × List UInt8 :=
  if b < 0x80 then (.char (Char.ofNat b.toNat), rest)
  else match Lead.ofByte? b with
    | none => (.junk 1 false, rest)
    | some l => readTail l.least l.greatest l.bits 1 l.following rest

theorem Piece.readTail_length_le (lo hi : UInt8) (bits taken n : Nat) (bs : List UInt8) :
    (readTail lo hi bits taken n bs).2.length ≤ bs.length := by
  induction n generalizing lo hi bits taken bs with
  | zero => simp [readTail]
  | succ n ih =>
    cases bs with
    | nil => simp [readTail]
    | cons b rest =>
      simp only [readTail]
      split
      · exact Nat.le_succ_of_le (ih ..)
      · exact Nat.le_refl _

theorem Piece.read_length_le (b : UInt8) (rest : List UInt8) :
    (read b rest).2.length ≤ rest.length := by
  simp only [read]
  split
  · exact Nat.le_refl _
  · split
    · exact Nat.le_refl _
    · exact readTail_length_le ..

theorem Piece.length_lt_of_read {b : UInt8} {rest left : List UInt8} {p : Piece}
    (h : read b rest = (p, left)) : left.length < (b :: rest).length := by
  have hle := read_length_le b rest
  rw [h] at hle
  exact Nat.lt_succ_of_le hle

/-- The first ill-formed sequence of a byte string: the number of well-formed bytes before it and
its length, or no length if the string ends inside a character. -/
structure Fault where
  validUpTo : Nat
  length : Option Nat
  deriving DecidableEq, Repr

def Fault.message (f : Fault) : String :=
  match f.length with
  | some n => s!"invalid utf-8 sequence of {n} bytes from index {f.validUpTo}"
  | none => s!"incomplete utf-8 byte sequence from index {f.validUpTo}"

/-- The strict reading of `bytes` after `index` well-formed bytes, which gave the characters `done`
in reverse. -/
def decodeFrom (index : Nat) (done : List Char) (bytes : List UInt8) :
    Except Fault (List Char) :=
  match bytes with
  | [] => .ok done.reverse
  | b :: rest =>
    match h : Piece.read b rest with
    | (.char c, left) =>
      have := Piece.length_lt_of_read h
      decodeFrom (index + c.utf8Size) (c :: done) left
    | (.junk n cutOff, _) => .error ⟨index, if cutOff then none else some n⟩
  termination_by bytes.length
  decreasing_by exact this

/-- The text of which `bytes` is the encoding. -/
def decode (bytes : List UInt8) : Except Fault (List Char) := decodeFrom 0 [] bytes

/-- The lossy reading of `bytes`, after the characters `done` in reverse. -/
def lossyFrom (done : List Char) (bytes : List UInt8) : List Char :=
  match bytes with
  | [] => done.reverse
  | b :: rest =>
    match h : Piece.read b rest with
    | (.char c, left) =>
      have := Piece.length_lt_of_read h
      lossyFrom (c :: done) left
    | (.junk .., left) =>
      have := Piece.length_lt_of_read h
      lossyFrom ('\uFFFD' :: done) left
  termination_by bytes.length
  decreasing_by all_goals exact this

/-- Every byte string read as text, with U+FFFD for what is none. -/
def lossy (bytes : List UInt8) : List Char := lossyFrom [] bytes

end JobGateway.Utf8
