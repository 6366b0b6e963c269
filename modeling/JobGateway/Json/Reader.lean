import JobGateway.Json.Fault
import JobGateway.Text.Digit

/-! The words of a JSON text, read from its front: blanks, marks, the literal words, strings and
numbers. A reader returns what it read and the text that is left, also when it fails. -/
namespace JobGateway.Json

/-- A reader of the front of a text. -/
abbrev Reader (α : Type) := EStateM Fault (List Char) α

namespace Reader

def fail {α : Type} (cause : Cause) : Reader α := fun s =>
  .error ⟨cause, some (Utf8.byteLength s)⟩ s

/-- Fail at the place right after the next byte. -/
def failNext {α : Type} (cause : Cause) : Reader α := fun s =>
  .error ⟨cause, some (Utf8.byteLength s - 1)⟩ s

/-- Fail without a place: the value around gives it its own. -/
def mismatch {α : Type} (how : Mismatch) : Reader α := fun s => .error ⟨.mismatch how, none⟩ s

/-- A value or a mismatch without a place. -/
def ofExcept {α : Type} : Except Mismatch α → Reader α
  | .ok a => pure a
  | .error how => mismatch how

/-- Run a reader; a fault of it that has no place yet gets the place that it leaves. -/
def placed {α : Type} (r : Reader α) : Reader α := fun s =>
  match r s with
  | .ok a s => .ok a s
  | .error ⟨cause, none⟩ s => .error ⟨cause, some (Utf8.byteLength s)⟩ s
  | .error fault s => .error fault s

/-- Run `r`, then `finish`, also after a failure of `r`; the first fault of the two stands. -/
def closing {α : Type} (r : Reader α) (finish : Reader Unit) : Reader α := fun s =>
  match r s with
  | .ok a s =>
    match finish s with
    | .ok _ s => .ok a s
    | .error fault s => .error fault s
  | .error fault s =>
    match finish s with
    | .ok _ s => .error fault s
    | .error _ s => .error fault s

end Reader

open Reader

/-- The blanks between the words of a JSON text. -/
def isSpace (c : Char) : Bool := c == ' ' || c == '\n' || c == '\t' || c == '\r'

/-- Skip blanks and look at the next character without taking it. -/
def peek : Reader (Option Char) := fun s =>
  let s := s.dropWhile isSpace
  .ok s.head? s

def advance : Reader Unit := fun s => .ok () s.tail

/-- Take the rest of a literal word. -/
def word {α : Type} (value : α) : List Char → Reader α
  | [] => pure value
  | w :: ws => fun s =>
    match s with
    | [] => fail (.unfinished .value) s
    | c :: rest => if c = w then word value ws rest else failNext (.malformed .word) s

/-- The value of four hexadecimal digits. -/
def hexValue4? (a b c d : Char) : Option Nat := do
  return Text.ofDigits 16 ((← [a, b, c, d].mapM Text.hexValue?).map Fin.val)

/-- The fault of a numbered escape whose four digits are not at the front of `s`. -/
def hexFault {α : Type} (s : List Char) : EStateM.Result Fault (List Char) α :=
  let left := Utf8.byteLength s
  if left < 4 then .error ⟨.unfinished .string, some 0⟩ []
  else .error ⟨.malformed .escape, some (left - 4)⟩ s

/-- The first half of a pair of numbered escapes. -/
def isLeading (n : Nat) : Bool := 0xD800 ≤ n && n ≤ 0xDBFF

/-- The second half of a pair of numbered escapes. -/
def isTrailing (n : Nat) : Bool := 0xDC00 ≤ n && n ≤ 0xDFFF

/-- The character that a pair of numbered escapes stands for. -/
def pairValue (lead trail : Nat) : Char :=
  Char.ofNat (0x10000 + (lead - 0xD800) * 0x400 + (trail - 0xDC00))

def shortEscape? (c : Char) : Option Char :=
  if c = '"' then some '"'
  else if c = '\\' then some '\\'
  else if c = '/' then some '/'
  else if c = 'b' then some '\x08'
  else if c = 'f' then some '\x0c'
  else if c = 'n' then some '\n'
  else if c = 'r' then some '\r'
  else if c = 't' then some '\t'
  else none

/-- The rest of a string behind its opening quote, after the characters `done` in reverse. -/
def stringFrom (done : List Char) : List Char → EStateM.Result Fault (List Char) String
  | [] => fail (.unfinished .string) []
  | c :: rest =>
    if c = '"' then .ok (String.ofList done.reverse) rest
    else if c = '\\' then
      match rest with
      | [] => fail (.unfinished .string) []
      | e :: rest =>
        if e = 'u' then
          match rest with
          | h₁ :: h₂ :: h₃ :: h₄ :: tail =>
            match hexValue4? h₁ h₂ h₃ h₄ with
            | none => hexFault rest
            | some n =>
              if isTrailing n then fail (.malformed .loneSurrogate) tail
              else if isLeading n then
                match tail with
                | [] => fail (.unfinished .string) []
                | b :: tail =>
                  if b = '\\' then
                    match tail with
                    | [] => fail (.unfinished .string) []
                    | u :: tail' =>
                      if u = 'u' then
                        match tail' with
                        | k₁ :: k₂ :: k₃ :: k₄ :: more =>
                          match hexValue4? k₁ k₂ k₃ k₄ with
                          | none => hexFault tail'
                          | some m =>
                            if isTrailing m then stringFrom (pairValue n m :: done) more
                            else fail (.malformed .loneSurrogate) more
                        | short => hexFault short
                      else failNext (.malformed .hexEscapeEnd) (u :: tail')
                  else failNext (.malformed .hexEscapeEnd) (b :: tail)
              else stringFrom (Char.ofNat n :: done) tail
          | short => hexFault short
        else match shortEscape? e with
          | some d => stringFrom (d :: done) rest
          | none => failNext (.malformed .escape) (e :: rest)
    else if c.toNat < 0x20 then fail (.malformed .controlCharacter) rest
    else stringFrom (c :: done) rest

/-- The rest of a string behind its opening quote. -/
def stringBody : Reader String := stringFrom []

/-- Skip the rest of a string behind its opening quote. Numbered escapes need four digits, but no
second half; a control character is refused before it is taken. -/
def skipString : List Char → EStateM.Result Fault (List Char) Unit
  | [] => fail (.unfinished .string) []
  | c :: rest =>
    if c = '"' then .ok () rest
    else if c = '\\' then
      match rest with
      | [] => fail (.unfinished .string) []
      | e :: rest =>
        if e = 'u' then
          match rest with
          | h₁ :: h₂ :: h₃ :: h₄ :: tail =>
            match hexValue4? h₁ h₂ h₃ h₄ with
            | none => hexFault rest
            | some _ => skipString tail
          | short => hexFault short
        else match shortEscape? e with
          | some _ => skipString rest
          | none => failNext (.malformed .escape) (e :: rest)
    else if c.toNat < 0x20 then fail (.malformed .controlCharacter) (c :: rest)
    else skipString rest

end JobGateway.Json
