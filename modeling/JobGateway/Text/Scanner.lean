import JobGateway.Text.Digit

/-! Reading a text from its start. A scanner takes a part of the text and leaves the rest; one that
fails takes nothing. -/
namespace JobGateway.Text

abbrev Scanner := StateT (List Char) Option

namespace Scanner

variable {α : Type}

def character (c : Char) : Scanner Unit := fun
  | [] => none
  | d :: rest => if d = c then some ((), rest) else none

/-- Take what a scanner takes, or nothing where it fails. -/
def optional (scanner : Scanner α) : Scanner (Option α) := fun s =>
  match scanner s with
  | some (a, rest) => some (some a, rest)
  | none => some (none, s)

/-- The values of the digits at the start of a text, and the rest of it. -/
def leadingDigits (base : Nat) : List Char → List Nat × List Char
  | [] => ([], [])
  | c :: rest =>
    match digitValue? base c with
    | none => ([], c :: rest)
    | some d =>
      let (ds, rest) := leadingDigits base rest
      (d :: ds, rest)

/-- Take all digits that are there, of which there must be one at least. -/
def digits (base : Nat) : Scanner (List Nat) := fun s =>
  match leadingDigits base s with
  | ([], _) => none
  | found => some found

/-- The number that digits make up, if it is below a limit. -/
def below (limit base : Nat) (ds : List Nat) : Scanner Nat :=
  let n := ofDigits base ds
  if n < limit then pure n else failure

/-- Take a number in decimal digits that is below a limit. Zeros may lead it. -/
def decimal (limit : Nat) : Scanner Nat := do below limit 10 (← digits 10)

/-- What a scanner makes of a text that it takes as a whole. -/
def whole (scanner : Scanner α) (text : String) : Option α :=
  match scanner text.toList with
  | some (a, []) => some a
  | _ => none

end Scanner

end JobGateway.Text
