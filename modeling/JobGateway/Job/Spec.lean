import JobGateway.Text.Lines

/-! Job specifications, which are any bytes, and selectors of instances. -/
namespace JobGateway

/-- A job specification as it was received. -/
structure JobSpec where
  bytes : List UInt8
  deriving DecidableEq, Repr

namespace JobSpec

/-- The specification that consists of a text. -/
def ofString (s : String) : JobSpec := ⟨Utf8.encode s.toList⟩

def isEmpty (spec : JobSpec) : Bool := spec.bytes.isEmpty

/-- The text of a specification. Only such a one can be written as JSON. -/
def text (spec : JobSpec) : Except Utf8.Fault String := String.ofList <$> Utf8.decode spec.bytes

/-- The lines of a specification read as text in any case. -/
def lines (spec : JobSpec) : List String := Text.lossyLines spec.bytes

/-- A specification in a message: its size only. -/
def summary (spec : JobSpec) : String := s!"JobSpec({spec.bytes.length} bytes)"

def notText (fault : Utf8.Fault) : String := s!"job spec is not valid UTF-8 ({fault.message})"

end JobSpec

/-- The instances that an operation is restricted to, in the given order and with repetitions. None
selects all instances. -/
structure Instances where
  ids : List String
  deriving DecidableEq, Repr

namespace Instances

def all : Instances := ⟨[]⟩

def isAll (i : Instances) : Bool := i.ids.isEmpty

def joined (i : Instances) : String := String.intercalate "," i.ids

end Instances

end JobGateway
