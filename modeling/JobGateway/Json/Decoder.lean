import JobGateway.Json.Document

/-! How the types of this library are read from JSON. A decoder reads a text from left to right and
stops at the first fault, whether the text breaks the grammar or has the wrong shape there. It also
decodes a value that was read before; such a mismatch has no place in the text. -/
namespace JobGateway.Json

open Reader

/-- The two ways to obtain a value of a type: from a text, with a number of brackets still to open,
and from a value already read. -/
structure Decoder (α : Type) where
  read : Nat → Reader α
  ofJson : Json → Except Mismatch α

/-- Refuse the next value, which is not what was expected. -/
def wrongType {α : Type} (expected : String) : Reader α := placed do
  match ← peek with
  | none => fail (.unfinished .value)
  | some c =>
    match ← opening c with
    | .scalar v => mismatch (.wrongType (Found.ofJson v) expected)
    | .list => mismatch (.wrongType .sequence expected)
    | .object => mismatch (.wrongType .map expected)

def wrongValueType {α : Type} (expected : String) (v : Json) : Except Mismatch α :=
  .error (.wrongType (Found.ofJson v) expected)

namespace Decoder

/-- A string that `parse` accepts. -/
def parsed {α : Type} (expected : String) (parse : String → Except Mismatch α) : Decoder α where
  read _ := placed do
    match ← peek with
    | none => fail (.unfinished .value)
    | some '"' => do advance; ofExcept (parse (← stringBody))
    | some _ => wrongType expected
  ofJson
    | .string s => parse s
    | v => wrongValueType expected v

def string : Decoder String := parsed "a string" .ok

def list {α : Type} (d : Decoder α) : Decoder (List α) where
  read depth := placed do
    match ← peek with
    | none => fail (.unfinished .value)
    | some '[' =>
      enter depth fun depth =>
        let item (done : List α) := do return (← d.read depth) :: done
        List.reverse <$> closing (items item []) endItems
    | some _ => wrongType "a sequence"
  ofJson
    | .array values => values.mapM d.ofJson
    | v => wrongValueType "a sequence" v

def option {α : Type} (d : Decoder α) : Decoder (Option α) where
  read depth := do
    match ← peek with
    | some 'n' => do advance; word none ['u', 'l', 'l']
    | _ => some <$> d.read depth
  ofJson
    | .null => .ok none
    | v => some <$> d.ofJson v

/-- Another type made of the values of a decoder. -/
def map {α β : Type} (f : α → β) (d : Decoder α) : Decoder β where
  read depth := f <$> d.read depth
  ofJson v := f <$> d.ofJson v

/-- The values of a decoder that a further rule accepts. Its refusal has no place of its own. -/
def check {α β : Type} (rule : α → Except Mismatch β) (d : Decoder α) : Decoder β where
  read depth := do ofExcept (rule (← d.read depth))
  ofJson v := d.ofJson v >>= rule

/-- The meaning of a name among the known ones. -/
def named {α : Type} (known : List (String × α)) (name : String) : Except Mismatch α :=
  match known.lookup name with
  | some a => .ok a
  | none => .error (.unknownVariant name (known.map (·.1)))

/-- A string that is one of the known names. In a value already read its index among them stands
for a name as well. -/
def name {α : Type} (known : List (String × α)) : Decoder α where
  read := (parsed "variant identifier" (named known)).read
  ofJson
    | .string s => named known s
    | .number (.natural n) =>
      match known[n.toNat]? with
      | some (_, a) => .ok a
      | none =>
        .error (.wrongValue (.number (.natural n)) s!"variant index 0 <= i < {known.length}")
    | v => wrongValueType "variant identifier" v

/-- The null that stands for a constant without content. -/
def unit : Reader Unit := placed do
  match ← peek with
  | none => fail (.unfinished .value)
  | some 'n' => do advance; word () ['u', 'l', 'l']
  | some _ => wrongType "unit"

/-- One of several constants: its name, or an object with the name as the only member and no
content. -/
def constant {α : Type} (known : List (String × α)) : Decoder α where
  read depth := do
    match ← peek with
    | none => fail (.unfinished .value)
    | some '"' => (name known).read depth
    | some '\x7b' =>
      let a ← enter depth fun depth => do
        match ← peek with
        | none => fail (.unfinished .value)
        | some '"' => do
          let a ← (name known).read depth
          colon
          unit
          pure a
        | some _ => failNext (.malformed .memberName)
      match ← peek with
      | none => fail (.unfinished .object)
      | some '\x7d' => do advance; pure a
      | some _ => fail (.malformed .value)
    | some _ => failNext (.malformed .value)
  ofJson
    | .string s => named known s
    | .object [(s, content)] => do
      let a ← named known s
      match content with
      | .null => pure a
      | .object [] => pure a
      | v => wrongValueType "unit" v
    | .object _ => .error (.wrongValue .map "map with a single key")
    | v => wrongValueType "string or map" v

/-- The value that a whole text holds. -/
def decode {α : Type} (d : Decoder α) (text : String) : Except Refusal α :=
  readAll (d.read maxDepth) text.toList

end Decoder

end JobGateway.Json
