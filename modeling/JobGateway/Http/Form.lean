import JobGateway.Http.Percent
import JobGateway.Text.Split

/-! Parameters in a query: names and values joined by equals signs and ampersands, with a plus sign
for every space and percent escapes. Any byte string can be read. -/
namespace JobGateway.Http.Form

/-- The text that a name or a value stands for. -/
def decodeText (bytes : List UInt8) : String :=
  String.ofList (Utf8.lossy (Percent.decode (bytes.map fun b => if b = 0x2B then 0x20 else b)))

/-- The name and the value in a piece of a query. -/
def pair (piece : List UInt8) : String × String :=
  let (name, value) := Text.cutAt 0x3D piece
  (decodeText name, decodeText (value.getD []))

/-- The parameters of a query, in order. Empty pieces are none. -/
def parameters (query : List UInt8) : List (String × String) :=
  ((Text.split 0x26 query).filter fun piece => !piece.isEmpty).map pair

/-- A name or a value as it is written in a query. -/
def encodeText (s : String) : List UInt8 :=
  (Utf8.encode s.toList).flatMap fun b =>
    if b = 0x20 then [0x2B] else if Percent.isUnreserved b then [b] else Percent.escape b

def encode (params : List (String × String)) : List UInt8 :=
  List.intercalate [0x26] (params.map fun p => encodeText p.1 ++ 0x3D :: encodeText p.2)

end JobGateway.Http.Form
