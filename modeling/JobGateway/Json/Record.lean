import JobGateway.Json.Decoder

/-! Records: an object with named members, or an array of the same values in the order of
declaration. Members of other names are skipped, a known one must not occur twice, and one that is
optional may be absent. -/
namespace JobGateway.Json

open Reader

/-- A number of elements, for a message. -/
def elements (n : Nat) : String := if n = 1 then "1 element" else s!"{n} elements"

/-- A member of a record under construction `σ`. An array may end before an optional one. -/
structure Slot (σ : Type) where
  name : String
  optional : Bool
  filled : σ → Bool
  read : Nat → Reader (σ → σ)
  ofJson : Json → Except Mismatch (σ → σ)

/-- The slot of a member, given how it is decoded and where it is kept. -/
def Slot.keeping {σ α : Type} (name : String) (optional : Bool) (d : Decoder α)
    (get : σ → Option α) (put : α → σ → σ) : Slot σ where
  name := name
  optional := optional
  filled s := (get s).isSome
  read depth := put <$> d.read depth
  ofJson v := put <$> d.ofJson v

/-- The value of a member that must be there. -/
def required {α : Type} (name : String) : Option α → Except Mismatch α
  | some a => .ok a
  | none => .error (.missingField name)

/-- A record: its name for messages, its slots in the order of declaration, the record without any
member, and the value that it stands for when all members are read. -/
structure Record (σ α : Type) where
  name : String
  slots : List (Slot σ)
  start : σ
  build : σ → Except Mismatch α

namespace Record

variable {σ α : Type}

/-- What an array of too few values is told. -/
def lengthExpected (r : Record σ α) : String := s!"{r.name} with {elements r.slots.length}"

def readMember (r : Record σ α) (depth : Nat) (state : σ) (name : String) : Reader σ :=
  match r.slots.find? (·.name == name) with
  | none => do colon; skipValue; pure state
  | some slot =>
    if slot.filled state then mismatch (.duplicateField name)
    else do colon; return (← slot.read depth) state

/-- Read the values of the slots from an array, the first of them at `index`. -/
def readSlots (r : Record σ α) (depth : Nat) : Bool → Nat → List (Slot σ) → σ → Reader σ
  | _, _, [], state => pure state
  | first, index, slot :: slots, state => do
    if ← nextItem first then
      readSlots r depth false (index + 1) slots ((← slot.read depth) state)
    else if slot.optional then readSlots r depth first (index + 1) slots state
    else mismatch (.wrongLength index r.lengthExpected)

def addMember (r : Record σ α) (state : σ) (m : String × Json) : Except Mismatch σ :=
  match r.slots.find? (·.name == m.1) with
  | none => .ok state
  | some slot =>
    if slot.filled state then .error (.duplicateField m.1)
    else do return (← slot.ofJson m.2) state

/-- Decode the values of the slots from an array, the first of them at `index`. -/
def addItems (r : Record σ α) : Nat → List (Slot σ) → List Json → σ → Except Mismatch σ
  | _, [], [], state => .ok state
  | index, [], more, _ =>
    .error (.wrongLength (index + more.length) s!"{elements index} in sequence")
  | index, slot :: slots, [], state =>
    if slot.optional then addItems r (index + 1) slots [] state
    else .error (.wrongLength index r.lengthExpected)
  | index, slot :: slots, v :: more, state => do
    addItems r (index + 1) slots more ((← slot.ofJson v) state)

def decoder (r : Record σ α) : Decoder α where
  read depth := placed do
    match ← peek with
    | none => fail (.unfinished .value)
    | some '[' =>
      enter depth fun depth =>
        closing (do ofExcept (r.build (← readSlots r depth true 0 r.slots r.start))) endItems
    | some '\x7b' =>
      enter depth fun depth =>
        closing (do ofExcept (r.build (← members (readMember r depth) r.start))) endMembers
    | some _ => wrongType r.name
  ofJson
    | .array values => do r.build (← addItems r 0 r.slots values r.start)
    | .object ms => do r.build (← ms.foldlM (addMember r) r.start)
    | v => wrongValueType r.name v

end Record

end JobGateway.Json
