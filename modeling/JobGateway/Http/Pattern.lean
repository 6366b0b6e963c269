import JobGateway.Text.Split

/-! Patterns for paths. A pattern goes segment by segment: each is a fixed text, or a fixed text and
a parameter, which stands for what follows the text. A parameter may stand for nothing, but not in
the last segment. -/
namespace JobGateway.Http

/-- A segment of a pattern. -/
structure Segment where
  text : List Char
  parameter : Option String
  deriving DecidableEq, Repr

namespace Segment

def fixed (text : String) : Segment := ⟨text.toList, none⟩

def named (name : String) : Segment := ⟨[], some name⟩

/-- The segment that is written as a text: a colon begins the name of the parameter. A name must not
be empty, and there is neither a second colon nor an asterisk. -/
def parse? (s : List Char) : Option Segment :=
  if s.contains '*' then none
  else match Text.split ':' s with
    | [text] => some ⟨text, none⟩
    | [text, name] => if name.isEmpty then none else some ⟨text, some (String.ofList name)⟩
    | _ => none

/-- The part of a segment of a path behind the fixed text of a pattern. -/
def rest? (s : Segment) (part : List Char) : Option (List Char) :=
  if s.text.isPrefixOf part then some (part.drop s.text.length) else none

end Segment

/-- A parameter of a pattern and what stands for it in a path. -/
structure Binding where
  name : String
  raw : List Char
  deriving DecidableEq, Repr

/-- What stands in the segments of a path for the parameters of a pattern, if the path matches. -/
def matchSegments : List Segment → List (List Char) → Option (List Binding)
  | [], [] => some []
  | s :: pattern, part :: path => do
    let rest ← s.rest? part
    match s.parameter with
    | none => if rest.isEmpty then matchSegments pattern path else none
    | some name =>
      if rest.isEmpty && path.isEmpty then none
      else return ⟨name, rest⟩ :: (← matchSegments pattern path)
  | _, _ => none

/-- The segments of a path. A path begins with a slash. -/
def pathSegments (path : List Char) : List (List Char) := (Text.split '/' path).tail

end JobGateway.Http
