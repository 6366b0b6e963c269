import JobGateway.Http.Target
import JobGateway.Text.Utf8

/-! Requests and responses of HTTP, as far as a gateway looks at them. -/
namespace JobGateway.Http

structure Request where
  verb : String
  target : Target
  body : List UInt8

structure Response where
  status : Nat
  headers : List (String × String)
  body : List Char

namespace Response

def empty (status : Nat) (headers : List (String × String)) : Response := ⟨status, headers, []⟩

def plain (status : Nat) (text : String) : Response :=
  ⟨status, [("content-type", "text/plain; charset=utf-8")], text.toList⟩

def json (status : Nat) (text : List Char) : Response :=
  ⟨status, [("content-type", "application/json")], text⟩

/-- A response with the length of its body. -/
def measured (r : Response) : Response :=
  { r with headers := r.headers ++ [("content-length", toString (Utf8.byteLength r.body))] }

/-- The response to a request for the headers only. -/
def withoutBody (r : Response) : Response := { r with body := [] }

end Response

end JobGateway.Http
