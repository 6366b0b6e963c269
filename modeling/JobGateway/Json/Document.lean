import JobGateway.Json.NumberReader

/-! Whole JSON values read from a text, and values that are only skipped. Reading admits a limited
nesting; skipping admits any. -/
namespace JobGateway.Json

open Reader

/-- How many brackets may be open at once. -/
def maxDepth : Nat := 127

/-- Whether another item follows; then the text begins with it. -/
def nextItem (first : Bool) : Reader Bool := do
  match ← peek with
  | none => fail (.unfinished .list)
  | some c =>
    if c = ']' then pure false
    else if first then pure true
    else if c = ',' then
      advance
      match ← peek with
      | none => fail (.unfinished .value)
      | some ']' => failNext (.malformed .trailingComma)
      | some _ => pure true
    else failNext (.malformed .listEnd)

def endItems : Reader Unit := do
  match ← peek with
  | none => fail (.unfinished .list)
  | some c =>
    if c = ']' then advance
    else if c = ',' then
      advance
      match ← peek with
      | some ']' => failNext (.malformed .trailingComma)
      | _ => failNext (.malformed .trailingCharacters)
    else failNext (.malformed .trailingCharacters)

/-- The name of the next member, if another follows. -/
def nextName (first : Bool) : Reader (Option String) := do
  match ← peek with
  | none => fail (.unfinished .object)
  | some c =>
    if c = '\x7d' then pure none
    else if first ∨ c = ',' then
      if ¬ first then advance
      match ← peek with
      | none => fail (.unfinished .value)
      | some '"' => do advance; some <$> stringBody
      | some '\x7d' => failNext (.malformed .trailingComma)
      | some _ => failNext (.malformed .memberName)
    else failNext (.malformed .objectEnd)

/-- The colon behind the name of a member. -/
def colon : Reader Unit := do
  match ← peek with
  | none => fail (.unfinished .object)
  | some ':' => advance
  | some _ => failNext (.malformed .colon)

def endMembers : Reader Unit := do
  match ← peek with
  | none => fail (.unfinished .object)
  | some '\x7d' => advance
  | some ',' => failNext (.malformed .trailingComma)
  | some _ => failNext (.malformed .trailingCharacters)

/-- Give every item of an array to `step`. The list `bound` is as long as the text: every item takes
at least one character. -/
def foldItems {σ : Type} (step : σ → Reader σ) : List Char → Bool → σ → Reader σ
  | [], _, state => pure state
  | _ :: bound, first, state => do
    if ← nextItem first then foldItems step bound false (← step state) else pure state

/-- Give the name of every member of an object to `step`, which reads the rest of the member. -/
def foldMembers {σ : Type} (step : σ → String → Reader σ) : List Char → Bool → σ → Reader σ
  | [], _, state => pure state
  | _ :: bound, first, state => do
    match ← nextName first with
    | some name => foldMembers step bound false (← step state name)
    | none => pure state

/-- All items of an array, up to its end. -/
def items {σ : Type} (step : σ → Reader σ) (state : σ) : Reader σ := fun s =>
  foldItems step (' ' :: s) true state s

/-- All members of an object, up to its end. -/
def members {σ : Type} (step : σ → String → Reader σ) (state : σ) : Reader σ := fun s =>
  foldMembers step (' ' :: s) true state s

/-- What stands at the front of a value, with its first word or mark taken. -/
inductive Opening where
  | scalar (value : Json)
  | list
  | object

/-- The front of a value that begins with the character `c`. -/
def opening (c : Char) : Reader Opening :=
  match c with
  | 'n' => do advance; .scalar <$> word .null ['u', 'l', 'l']
  | 't' => do advance; .scalar <$> word (.bool true) ['r', 'u', 'e']
  | 'f' => do advance; .scalar <$> word (.bool false) ['a', 'l', 's', 'e']
  | '-' => do advance; (.scalar <| .number ·) <$> numberBody true
  | '"' => do advance; (.scalar <| .string ·) <$> stringBody
  | '[' => pure .list
  | '\x7b' => pure .object
  | c =>
    if (digit? c).isSome then (.scalar <| .number ·) <$> numberBody false
    else failNext (.malformed .value)

/-- Enter a bracket, with `depth` more to open. -/
def enter {α : Type} (depth : Nat) (inside : Nat → Reader α) : Reader α :=
  match depth with
  | 0 => failNext (.malformed .depth)
  | depth + 1 => do advance; inside depth

/-- A value, with `depth` brackets to open. -/
def value : Nat → Reader Json
  | 0 => do
    match ← peek with
    | none => fail (.unfinished .value)
    | some c =>
      match ← opening c with
      | .scalar v => pure v
      | _ => failNext (.malformed .depth)
  | depth + 1 => do
    match ← peek with
    | none => fail (.unfinished .value)
    | some c =>
      match ← opening c with
      | .scalar v => pure v
      | .list =>
        advance
        let read ← closing (items (fun done => do return (← value depth) :: done) []) endItems
        pure (.array read.reverse)
      | .object =>
        advance
        let read ← closing
          (members (fun done name => do colon; return (name, ← value depth) :: done) []) endMembers
        pure (.object read.reverse)

/-- A bracket that is open while values are skipped. -/
inductive Bracket where
  | list
  | object
  deriving DecidableEq, Repr

/-- The fault of a text that ends inside a bracket. -/
def Bracket.unfinished : Bracket → Cause
  | .list => .unfinished .list
  | .object => .unfinished .object

/-- The fault of a text with another mark where a bracket could go on or close. -/
def Bracket.unclosed : Bracket → Cause
  | .list => .malformed .listEnd
  | .object => .malformed .objectEnd

def Bracket.mark : Bracket → Char
  | .list => ']'
  | .object => '\x7d'

/-- Skip the name and the colon of a member; a list has neither. -/
def skipName : Bracket → Reader Unit
  | .list => pure ()
  | .object => do
    match ← peek with
    | none => fail (.unfinished .object)
    | some '"' => do advance; skipString; colon
    | some _ => failNext (.malformed .memberName)

/-- Skip the front of a value; a bracket that it opens is the answer. -/
def skipOpening (c : Char) : Reader (Option Bracket) :=
  match c with
  | 'n' => do advance; word none ['u', 'l', 'l']
  | 't' => do advance; word none ['r', 'u', 'e']
  | 'f' => do advance; word none ['a', 'l', 's', 'e']
  | '-' => do advance; skipNumber; pure none
  | '"' => do advance; skipString; pure none
  | '[' => do advance; pure (some .list)
  | '\x7b' => do advance; pure (some .object)
  | c => if (digit? c).isSome then do skipNumber; pure none else failNext (.malformed .value)

def skipFront : Reader (Option Bracket) := do
  match ← peek with
  | none => fail (.unfinished .value)
  | some c => skipOpening c

/-- Skip up to the end of the outermost open bracket, the innermost given first; `opened` tells that
the innermost was opened just now. The list `bound` is as long as the text: every round takes at
least one character. -/
def skipFrom : List Char → Bool → List Bracket → Reader Unit
  | _ :: bound, opened, b :: stack => do
    match ← peek with
    | none => fail b.unfinished
    | some c =>
      if c = b.mark then do advance; skipFrom bound false stack
      else if opened ∨ c = ',' then
        if ¬ opened then advance
        skipName b
        match ← skipFront with
        | none => skipFrom bound false (b :: stack)
        | some inner => skipFrom bound true (inner :: b :: stack)
      else failNext b.unclosed
  | _, _, _ => pure ()

def skipValue : Reader Unit := do
  match ← skipFront with
  | none => pure ()
  | some b => fun s => skipFrom (' ' :: s) true [b] s

/-- Read a whole text with `r`; only blanks may follow what it reads. -/
def readAll {α : Type} (r : Reader α) (text : List Char) : Except Refusal α :=
  let whole : Reader α := do
    let a ← r
    match ← peek with
    | none => pure a
    | some _ => failNext (.malformed .trailingCharacters)
  match whole text with
  | .ok a _ => .ok a
  | .error fault _ => .error (Refusal.ofFault text fault)

/-- The value that a text holds. -/
def parse (text : List Char) : Except Refusal Json := readAll (value maxDepth) text

end JobGateway.Json
