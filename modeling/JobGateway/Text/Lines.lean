import JobGateway.Text.Utf8

/-! Lines of a text or of a byte string. A line ends at a line feed; a carriage return right before
the line feed belongs to the end and not to the line. What follows the last line feed is a line of
its own, as it stands, unless it is empty. -/
namespace JobGateway.Lines

variable {α : Type} [DecidableEq α]

/-- A finished line, given in reverse, without the carriage return before its line feed. -/
def close (cr : α) : List α → List α
  | c :: line => if c = cr then line.reverse else (c :: line).reverse
  | [] => []

/-- The lines of a text, of which `done` are read and `line` is begun, both in reverse. -/
def splitFrom (lf cr : α) (done : List (List α)) (line : List α) : List α → List (List α)
  | [] => (if line.isEmpty then done else line.reverse :: done).reverse
  | c :: rest =>
    if c = lf then splitFrom lf cr (close cr line :: done) [] rest
    else splitFrom lf cr done (c :: line) rest

/-- The lines of a sequence, given its line feed and its carriage return. -/
def split (lf cr : α) (text : List α) : List (List α) := splitFrom lf cr [] [] text

end JobGateway.Lines

namespace JobGateway.Text

def lines (text : List Char) : List (List Char) := Lines.split '\n' '\r' text

/-- The lines of a byte string, read as text in any case. -/
def lossyLines (bytes : List UInt8) : List String := (lines (Utf8.lossy bytes)).map String.ofList

end JobGateway.Text
