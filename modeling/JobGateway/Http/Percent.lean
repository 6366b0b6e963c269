import JobGateway.Text.Utf8

/-! Percent escapes: a percent sign and two hexadecimal digits stand for a byte. Reading leaves
every percent sign alone that two digits do not follow. -/
namespace JobGateway.Http.Percent

def digitValue? (b : UInt8) : Option UInt8 :=
  if 0x30 ≤ b ∧ b ≤ 0x39 then some (b - 0x30)
  else if 0x41 ≤ b ∧ b ≤ 0x46 then some (b - 0x37)
  else if 0x61 ≤ b ∧ b ≤ 0x66 then some (b - 0x57)
  else none

/-- The upper-case hexadecimal digit of a value below sixteen. -/
def digit (n : UInt8) : UInt8 := if n < 10 then 0x30 + n else 0x37 + n

/-- The byte that two digits stand for. -/
def byte? (high low : UInt8) : Option UInt8 := do
  return (← digitValue? high) * 16 + (← digitValue? low)

/-- The bytes that a byte string with escapes stands for. -/
def decode : List UInt8 → List UInt8
  | [] => []
  | [b] => [b]
  | [b, c] => [b, c]
  | b :: c :: d :: rest =>
    if b = 0x25 then
      match byte? c d with
      | some e => e :: decode rest
      | none => b :: decode (c :: d :: rest)
    else b :: decode (c :: d :: rest)

def escape (b : UInt8) : List UInt8 := [0x25, digit (b / 16), digit (b % 16)]

/-- Letters, digits, hyphen, full stop, low line and tilde stand for themselves everywhere. -/
def isUnreserved (b : UInt8) : Bool :=
  (0x30 ≤ b && b ≤ 0x39) || (0x41 ≤ b && b ≤ 0x5A) || (0x61 ≤ b && b ≤ 0x7A) ||
  b == 0x2D || b == 0x2E || b == 0x5F || b == 0x7E

/-- A byte string written with an escape for every byte that is not unreserved. -/
def encode (bytes : List UInt8) : List UInt8 :=
  bytes.flatMap fun b => if isUnreserved b then [b] else escape b

end JobGateway.Http.Percent
