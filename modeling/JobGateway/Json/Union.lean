import JobGateway.Json.Record

/-! Unions told apart by a tag. The tag of an inner union is a member among the members of the
variant, or the first item of an array; the rest is kept until the whole value is read, so that the
tag may come last. An outer union is a record of two members, the tag and the content. The tag is a
name, which as a member of an outer union may also be written like a constant. -/
namespace JobGateway.Json

open Reader

/-- A union whose tag stands among the members of the variant. Each variant decodes what is left
without the tag. -/
structure InnerUnion (α : Type) where
  name : String
  tag : String
  variants : List (String × (Json → Except Mismatch α))

/-- A variant without members of its own: what an object holds besides the tag does not matter. -/
def unitVariant {α : Type} (a : α) : Json → Except Mismatch α
  | .array (v :: more) => .error (.wrongLength (v :: more).length "0 elements in sequence")
  | _ => .ok a

namespace InnerUnion

variable {α : Type}

/-- What is read of a union: the variant, once the tag is known, and the other members, the last
read first. -/
structure Parts (α : Type) where
  variant : Option (Json → Except Mismatch α)
  members : List (String × Json)

def readMember (u : InnerUnion α) (depth : Nat) (parts : Parts α) (name : String) :
    Reader (Parts α) :=
  if name = u.tag then
    if parts.variant.isSome then mismatch (.duplicateField name)
    else do colon; return { parts with variant := some (← (Decoder.name u.variants).read depth) }
  else do colon; return { parts with members := (name, ← value depth) :: parts.members }

/-- The variant and the object that is left without the tag. -/
def ofParts (u : InnerUnion α) (parts : Parts α) :
    Except Mismatch ((Json → Except Mismatch α) × Json) := do
  return (← required u.tag parts.variant, .object parts.members.reverse)

/-- Read the items of a union in an array. -/
def readItems (u : InnerUnion α) (depth : Nat) : Reader ((Json → Except Mismatch α) × Json) := do
  if ← nextItem true then
    let variant ← (Decoder.name u.variants).read depth
    let more ← fun s => foldItems (fun done => do return (← value depth) :: done)
      (' ' :: s) false [] s
    pure (variant, .array more.reverse)
  else mismatch (.missingField u.tag)

def addMember (u : InnerUnion α) (parts : Parts α) (m : String × Json) :
    Except Mismatch (Parts α) :=
  if m.1 = u.tag then
    if parts.variant.isSome then .error (.duplicateField m.1)
    else do return { parts with variant := some (← (Decoder.name u.variants).ofJson m.2) }
  else .ok { parts with members := m :: parts.members }

def decoder (u : InnerUnion α) : Decoder α where
  read depth := do
    let (variant, content) ← placed do
      match ← peek with
      | none => fail (.unfinished .value)
      | some '[' =>
        enter depth fun depth => closing (readItems u depth) endItems
      | some '\x7b' =>
        enter depth fun depth =>
          closing (do ofExcept (ofParts u (← members (readMember u depth) ⟨none, []⟩))) endMembers
      | some _ => wrongType u.name
    ofExcept (variant content)
  ofJson
    | .array [] => .error (.missingField u.tag)
    | .array (t :: more) => do (← (Decoder.name u.variants).ofJson t) (.array more)
    | .object ms => do
      let (variant, content) ← ofParts u (← ms.foldlM (addMember u) ⟨none, []⟩)
      variant content
    | v => wrongValueType u.name v

end InnerUnion

/-- A union with one member for the tag and one for the content. -/
structure OuterUnion (α : Type) where
  name : String
  tag : String
  content : String
  variants : List (String × Decoder α)

namespace OuterUnion

variable {α : Type}

/-- What is read of a union: nothing, the tag, the content, or both. -/
inductive Parts (α : Type) where
  | none
  | tag (variant : Decoder α)
  | content (v : Json)
  | both (a : α)

/-- Read the member that begins with `name`. The content is decoded in place if the tag is known. -/
def readMember (u : OuterUnion α) (depth : Nat) (parts : Parts α) (name : String) :
    Reader (Parts α) :=
  if name = u.tag then
    match parts with
    | .none => do colon; .tag <$> (Decoder.constant u.variants).read depth
    | .content v => do
      colon
      let variant ← (Decoder.constant u.variants).read depth
      .both <$> ofExcept (variant.ofJson v)
    | _ => mismatch (.duplicateField name)
  else if name = u.content then
    match parts with
    | .none => do colon; .content <$> value depth
    | .tag variant => do colon; .both <$> variant.read depth
    | _ => mismatch (.duplicateField name)
  else do colon; skipValue; pure parts

/-- The value of a union whose members are all read. -/
def ofParts (u : OuterUnion α) : Parts α → Except Mismatch α
  | .none => .error (.missingField u.tag)
  | .tag _ => .error (.missingField u.content)
  | .content _ => .error (.missingField u.tag)
  | .both a => .ok a

/-- Read the tag and the content from an array. -/
def readItems (u : OuterUnion α) (depth : Nat) : Reader α := do
  if ← nextItem true then
    let variant ← (Decoder.name u.variants).read depth
    if ← nextItem false then variant.read depth else mismatch (.wrongLength 1 u.name)
  else mismatch (.wrongLength 0 u.name)

def addMember (u : OuterUnion α) (parts : Parts α) (m : String × Json) :
    Except Mismatch (Parts α) :=
  if m.1 = u.tag then
    match parts with
    | .none => .tag <$> (Decoder.constant u.variants).ofJson m.2
    | .content v => do .both <$> (← (Decoder.constant u.variants).ofJson m.2).ofJson v
    | _ => .error (.duplicateField m.1)
  else if m.1 = u.content then
    match parts with
    | .none => .ok (.content m.2)
    | .tag variant => .both <$> variant.ofJson m.2
    | _ => .error (.duplicateField m.1)
  else .ok parts

/-- Decode the tag and the content from an array. -/
def ofItems (u : OuterUnion α) : List Json → Except Mismatch α
  | [] => .error (.wrongLength 0 u.name)
  | t :: more => do
    let variant ← (Decoder.name u.variants).ofJson t
    match more with
    | [] => .error (.wrongLength 1 u.name)
    | v :: more =>
      let a ← variant.ofJson v
      if more.isEmpty then pure a
      else .error (.wrongLength (2 + more.length) "2 elements in sequence")

def decoder (u : OuterUnion α) : Decoder α where
  read depth := placed do
    match ← peek with
    | none => fail (.unfinished .value)
    | some '[' =>
      enter depth fun depth => closing (readItems u depth) endItems
    | some '\x7b' =>
      enter depth fun depth =>
        closing (do ofExcept (ofParts u (← members (readMember u depth) .none))) endMembers
    | some _ => wrongType u.name
  ofJson
    | .array values => ofItems u values
    | .object ms => do ofParts u (← ms.foldlM (addMember u) .none)
    | v => wrongValueType u.name v

end OuterUnion

end JobGateway.Json
