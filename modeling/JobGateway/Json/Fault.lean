import JobGateway.Json.Value
import JobGateway.Text.Quoted
import JobGateway.Text.Utf8
import JobGateway.Json.Float

/-! Why a JSON text is refused. A fault is a text that ends too early, a text that breaks a rule of
the grammar, or a well-formed text of the wrong shape. -/
namespace JobGateway.Json

/-- What was still open when the text ended. -/
inductive Unfinished where
  | value | string | list | object
  deriving DecidableEq, Repr

/-- The rule of the grammar that is broken. -/
inductive Malformed where
  | value | word | colon | listEnd | objectEnd | trailingComma | trailingCharacters | memberName
  | escape | number | numberRange | hexEscapeEnd | loneSurrogate | controlCharacter | depth
  deriving DecidableEq, Repr

/-- What stands where something else was expected. -/
inductive Found where
  | null
  | boolean (value : Bool)
  | number (value : Number)
  | text (value : String)
  | sequence
  | map
  deriving DecidableEq, Repr

/-- How a value fails to have the expected shape. -/
inductive Mismatch where
  | wrongType (found : Found) (expected : String)
  | wrongValue (found : Found) (expected : String)
  | wrongLength (length : Nat) (expected : String)
  | unknownVariant (name : String) (known : List String)
  | missingField (name : String)
  | duplicateField (name : String)
  /-- A value that its own type refuses. -/
  | refused (reason : String)
  deriving DecidableEq, Repr

inductive Cause where
  | unfinished (what : Unfinished)
  | malformed (rule : Malformed)
  | mismatch (how : Mismatch)
  deriving DecidableEq, Repr

def Unfinished.message : Unfinished → String
  | .value => "EOF while parsing a value"
  | .string => "EOF while parsing a string"
  | .list => "EOF while parsing a list"
  | .object => "EOF while parsing an object"

def Malformed.message : Malformed → String
  | .value => "expected value"
  | .word => "expected ident"
  | .colon => "expected `:`"
  | .listEnd => "expected `,` or `]`"
  | .objectEnd => "expected `,` or `\x7d`"
  | .trailingComma => "trailing comma"
  | .trailingCharacters => "trailing characters"
  | .memberName => "key must be a string"
  | .escape => "invalid escape"
  | .number => "invalid number"
  | .numberRange => "number out of range"
  | .hexEscapeEnd => "unexpected end of hex escape"
  | .loneSurrogate => "lone leading surrogate in hex escape"
  | .controlCharacter => "control character (\\u0000-\\u001F) found while parsing a string"
  | .depth => "recursion limit exceeded"

def Found.message : Found → String
  | .null => "null"
  | .boolean value => s!"boolean `{value}`"
  | .number (.natural n) => s!"integer `{n}`"
  | .number (.negative n) => s!"integer `-{n}`"
  | .number (.binary64 bits) => s!"floating point `{shortestFloat bits}`"
  | .text value => s!"string {Text.quoted value}"
  | .sequence => "sequence"
  | .map => "map"

def Found.ofJson : Json → Found
  | .null => .null
  | .bool value => .boolean value
  | .number value => .number value
  | .string value => .text value
  | .array _ => .sequence
  | .object _ => .map

/-- Names to choose from, for a message. -/
def alternatives : List String → String
  | [] => "there are no variants"
  | [a] => s!"`{a}`"
  | [a, b] => s!"`{a}` or `{b}`"
  | names => "one of " ++ String.intercalate ", " (names.map fun n => s!"`{n}`")

def Mismatch.message : Mismatch → String
  | .wrongType found expected => s!"invalid type: {found.message}, expected {expected}"
  | .wrongValue found expected => s!"invalid value: {found.message}, expected {expected}"
  | .wrongLength n expected => s!"invalid length {n}, expected {expected}"
  | .unknownVariant name known => s!"unknown variant `{name}`, expected {alternatives known}"
  | .missingField name => s!"missing field `{name}`"
  | .duplicateField name => s!"duplicate field `{name}`"
  | .refused reason => reason

def Cause.message : Cause → String
  | .unfinished what => what.message
  | .malformed rule => rule.message
  | .mismatch how => how.message

/-- A cause and, once it is known, the place: the number of bytes of the text not yet read there. -/
structure Fault where
  cause : Cause
  left : Option Nat
  deriving DecidableEq, Repr

/-- A line, counted from one, and the number of its bytes already read. -/
structure Place where
  line : Nat
  column : Nat
  deriving DecidableEq, Repr

/-- The place after the first `n` bytes of a text. -/
def Place.after (place : Place) : Nat → List Char → Place
  | 0, _ => place
  | _, [] => place
  | n, c :: rest =>
    if n < c.utf8Size then ⟨place.line, place.column + n⟩
    else if c = '\n' then after ⟨place.line + 1, 0⟩ (n - c.utf8Size) rest
    else after ⟨place.line, place.column + c.utf8Size⟩ (n - c.utf8Size) rest

/-- The refusal of a whole text: the cause and the place, if the fault has one. -/
structure Refusal where
  cause : Cause
  place : Option Place
  deriving DecidableEq, Repr

/-- The refusal of `text` for a fault met while reading it. -/
def Refusal.ofFault (text : List Char) (fault : Fault) : Refusal :=
  ⟨fault.cause, fault.left.map fun left =>
    Place.after ⟨1, 0⟩ (Utf8.byteLength text - left) text⟩

def Refusal.message (r : Refusal) : String :=
  match r.place with
  | none => r.cause.message
  | some p => s!"{r.cause.message} at line {p.line} column {p.column}"

/-- The refusal with its fields spelled out. -/
def Refusal.detail (r : Refusal) : String :=
  let p := r.place.getD ⟨0, 0⟩
  s!"Error({Text.quoted r.cause.message}, line: {p.line}, column: {p.column})"

end JobGateway.Json
