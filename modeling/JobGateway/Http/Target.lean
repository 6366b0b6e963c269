import JobGateway.Text.Split

/-! Targets of requests. A target is a path with a query behind a question mark, by itself or behind
a scheme and an authority. A fragment at its end is not looked at. -/
namespace JobGateway.Http

/-- A target: its path, and its query, which may be empty. -/
structure Target where
  path : List Char
  query : List Char
  deriving DecidableEq, Repr

namespace Target

def isSchemeChar (c : Char) : Bool := c.isAlphanum || c == '+' || c == '-' || c == '.'

/-- What stands behind the scheme of a text and the mark that ends it. -/
def behindScheme? : List Char → Option (List Char)
  | ':' :: '/' :: '/' :: rest => some rest
  | c :: rest => if isSchemeChar c then behindScheme? rest else none
  | [] => none

def endsAuthority (c : Char) : Bool := c == '/' || c == '?' || c == '#'

/-- The target of a path and what may follow it. -/
def ofResource (s : List Char) : Target :=
  let (path, query) := Text.cutAt '?' (Text.cutAt '#' s).1
  ⟨path, query.getD []⟩

/-- The target that a text is. Behind an authority an empty path is the path of a slash, and a text
with neither a slash at its front nor a scheme has no path at all. -/
def parse (s : List Char) : Target :=
  if s.head? = some '/' then ofResource s
  else match behindScheme? s with
  | none => ⟨[], []⟩
  | some rest =>
    let target := ofResource (rest.dropWhile fun c => !endsAuthority c)
    if target.path.isEmpty then { target with path := ['/'] } else target

end Target

end JobGateway.Http
