/-! JSON values. Objects keep their members in the order of the text, repeated names included. -/
namespace JobGateway

/-- A JSON number: a whole number of 64 bits, or the bits of a binary64 value for every other. -/
inductive Number where
  | natural (n : UInt64)
  /-- The number `-n`, for `n` from 1 to 2^63. -/
  | negative (n : UInt64)
  | binary64 (bits : UInt64)
  deriving DecidableEq, Repr

inductive Json where
  | null
  | bool (value : Bool)
  | number (value : Number)
  | string (value : String)
  | array (items : List Json)
  | object (members : List (String × Json))
  deriving Repr, Inhabited

namespace Json

def strings (items : List String) : Json := .array (items.map .string)

def natural (n : Nat) : Json := .number (.natural n.toUInt64)

/-- The value of the last member of a name. -/
def member? (value : Json) (name : String) : Option Json :=
  match value with
  | .object members => (members.findRev? fun m => m.1 == name).map (·.2)
  | _ => none

end Json

end JobGateway
