import JobGateway.Text.Digit
import JobGateway.Text.Split
import JobGateway.Text.Utf8

/-! Universally unique identifiers. An identifier is 32 hexadecimal digits. It is written in five
groups joined by hyphens, in lower case, and read in four forms: grouped, plain, grouped in braces,
and grouped behind `urn:uuid:`, in any case. -/
namespace JobGateway

structure Uuid where
  digits : List (Fin 16)
  length_eq : digits.length = 32
  deriving DecidableEq, Repr

open Text

namespace Uuid

def groupLengths : List Nat := [8, 4, 4, 4, 12]

/-- Digits cut into pieces of the given lengths. -/
def cut {α : Type} : List Nat → List α → List (List α)
  | [], _ => []
  | n :: ns, ds => ds.take n :: cut ns (ds.drop n)

def text (u : Uuid) : String :=
  String.ofList (List.intercalate ['-'] (cut groupLengths (u.digits.map hexDigit)))

/-- The digits of a number, the last `n` of them. -/
def numberDigits : Nat → Nat → List (Fin 16)
  | 0, _ => []
  | n + 1, value => numberDigits n (value / 16) ++ [nibble value]

theorem length_numberDigits (n value : Nat) : (numberDigits n value).length = n := by
  induction n generalizing value with
  | zero => rfl
  | succ n ih => simp [numberDigits, ih]

/-- The first twenty digits of every identifier that is given out here. -/
def issuedDigits : List (Fin 16) := numberDigits 20 0x5b0d3c5793a44e1f8a6b

def numbered (n : Nat) : Uuid :=
  ⟨issuedDigits ++ numberDigits 12 n, by simp [length_numberDigits, issuedDigits]⟩

/-- The parts of a text between its hyphens. -/
def groups (s : List Char) : List (List Char) := Text.split '-' s

def plain? (s : List Char) : Option Uuid :=
  match s.mapM hexValue? with
  | none => none
  | some ds => if h : ds.length = 32 then some ⟨ds, h⟩ else none

/-- The identifier of five groups of digits. -/
def grouped? (s : List Char) : Option Uuid :=
  if (groups s).map List.length = groupLengths then plain? (groups s).flatten else none

/-- The mark in front of an identifier used as a name. -/
def urnMark : List Char := ['u', 'r', 'n', ':', 'u', 'u', 'i', 'd', ':']

/-- How a text is looked at: how many bytes of it stand before the digits, the digits, and whether
nothing is around them. -/
structure Wrapping where
  offset : Nat
  inner : List Char
  bare : Bool

/-- The digits of a text without the braces or the mark around them. -/
def unwrap (s : List Char) : Wrapping :=
  match s with
  | '\x7b' :: rest =>
    if rest.getLast? = some '\x7d' then ⟨1, rest.dropLast, false⟩ else ⟨0, s, true⟩
  | s =>
    if (s.take 9).map Char.toLower = urnMark then ⟨9, s.drop 9, false⟩ else ⟨0, s, true⟩

inductive Fault where
  | character (c : Char) (index : Nat)
  | length (n : Nat)
  | groupCount (n : Nat)
  | groupLength (group expected found : Nat)
  deriving DecidableEq, Repr

def Fault.message : Fault → String
  | .character c index => s!"invalid character: found `{c}` at {index}"
  | .length n => s!"invalid length: found {n}"
  | .groupCount n => s!"invalid group count: expected 5, found {n}"
  | .groupLength group expected found =>
    s!"invalid group length in group {group}: expected {expected}, found {found}"

/-- The first character that is neither a digit nor a hyphen, with its byte index. -/
def badCharacter? (index : Nat) : List Char → Option (Char × Nat)
  | [] => none
  | c :: rest =>
    if c = '-' ∨ (hexValue? c).isSome then badCharacter? (index + c.utf8Size) rest
    else some (c, index)

/-- The first of the first four groups that has not its length. -/
def badGroup? (index : Nat) : List Nat → List (List Char) → Option Fault
  | n :: ns, g :: gs =>
    if gs.isEmpty then none
    else if g.length = n then badGroup? (index + 1) ns gs
    else some (.groupLength index n g.length)
  | _, _ => none

/-- The number of bytes of 32 digits. -/
def plainSize : Nat := 32

/-- The number of bytes of five groups of digits. -/
def groupedSize : Nat := 36

/-- The most bytes of a text that names an identifier: a mark and five groups. -/
def maxSize : Nat := 45

/-- How a text that is no identifier is looked at for its fault. A text of the size of one of the
two forms is taken for that form, also inside braces or behind a mark if it is grouped, and its
characters are counted from the first digit. -/
def suspect (size : Nat) (s : List Char) : Wrapping :=
  let w := unwrap s
  if size = plainSize then ⟨0, s, true⟩
  else if size = groupedSize then ⟨0, s, false⟩
  else if ¬ w.bare ∧ Utf8.byteLength w.inner = groupedSize then ⟨0, w.inner, false⟩
  else w

/-- The fault of a text of `size` bytes that is no identifier. -/
def faultOf (size : Nat) (w : Wrapping) : Fault :=
  if maxSize < size then .length size
  else match badCharacter? w.offset w.inner with
  | some (c, index) => .character c index
  | none =>
    let gs := groups w.inner
    if gs.length = 1 ∧ w.bare then .length size
    else if gs.length ≠ 5 then .groupCount gs.length
    else (badGroup? 0 groupLengths gs).getD (.groupLength 4 12 (size - 24))

/-- The identifier that a text names. -/
def parse (s : String) : Except Fault Uuid :=
  let w := unwrap s.toList
  let found := if w.bare then (plain? w.inner).or (grouped? w.inner) else grouped? w.inner
  match found with
  | some u => .ok u
  | none => .error (faultOf s.utf8ByteSize (suspect s.utf8ByteSize s.toList))

end Uuid

end JobGateway
