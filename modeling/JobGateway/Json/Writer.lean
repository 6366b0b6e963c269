import JobGateway.Json.Float
import JobGateway.Json.Value
import JobGateway.Text.Digit

/-! The compact text of a JSON value: no blanks, members in their order, and in strings an escape
only for the quote, the backslash and the control characters. -/
namespace JobGateway.Json

def numberedEscape (n : Nat) : List Char :=
  ['\\', 'u', '0', '0', Text.hexDigit (Text.nibble (n / 16)), Text.hexDigit (Text.nibble n)]

def escape (c : Char) : List Char :=
  match c with
  | '"' => ['\\', '"']
  | '\\' => ['\\', '\\']
  | '\x08' => ['\\', 'b']
  | '\x0c' => ['\\', 'f']
  | '\n' => ['\\', 'n']
  | '\r' => ['\\', 'r']
  | '\t' => ['\\', 't']
  | c => if c.toNat < 0x20 then numberedEscape c.toNat else [c]

def renderString (s : String) : List Char := '"' :: s.toList.flatMap escape ++ ['"']

def renderNumber : Number → List Char
  | .natural n => Nat.toDigits 10 n.toNat
  | .negative n => '-' :: Nat.toDigits 10 n.toNat
  | .binary64 bits => (shortestFloat bits).toList

mutual

/-- The compact text of a value. -/
def render : Json → List Char
  | .null => ['n', 'u', 'l', 'l']
  | .bool true => ['t', 'r', 'u', 'e']
  | .bool false => ['f', 'a', 'l', 's', 'e']
  | .number n => renderNumber n
  | .string s => renderString s
  | .array [] => ['[', ']']
  | .array (item :: items) => '[' :: render item ++ renderItems items ++ [']']
  | .object [] => ['\x7b', '\x7d']
  | .object ((name, value) :: members) =>
    '\x7b' :: renderString name ++ ':' :: render value ++ renderMembers members ++ ['\x7d']

/-- The items after the first, each behind its comma. -/
def renderItems : List Json → List Char
  | [] => []
  | item :: items => ',' :: render item ++ renderItems items

/-- The members after the first, each behind its comma. -/
def renderMembers : List (String × Json) → List Char
  | [] => []
  | (name, value) :: members =>
    ',' :: renderString name ++ ':' :: render value ++ renderMembers members

end

def text (value : Json) : String := String.ofList (render value)

end JobGateway.Json
