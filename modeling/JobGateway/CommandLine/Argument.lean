import JobGateway.Text.Split

/-! The arguments of a command line by their form. -/
namespace JobGateway.CommandLine

inductive Argument where
  /-- Two hyphens alone. No option follows them. -/
  | separator
  /-- Two hyphens and a name, with the text behind the first equals sign. -/
  | long (name : List Char) (value : Option (List Char))
  /-- A hyphen and a letter, and whatever follows. -/
  | short (letter : Char) (more : List Char)
  /-- Anything else, a hyphen alone included. -/
  | plain (text : String)
  deriving DecidableEq, Repr

def Argument.ofText (text : String) : Argument :=
  match text.toList with
  | ['-', '-'] => .separator
  | '-' :: '-' :: rest =>
    let (name, value) := Text.cutAt '=' rest
    .long name value
  | '-' :: letter :: more => .short letter more
  | _ => .plain text

end JobGateway.CommandLine
