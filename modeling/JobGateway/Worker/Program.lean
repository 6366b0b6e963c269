import JobGateway.Program
import JobGateway.Worker.Process
import JobGateway.Worker.Serve

/-! Programs for worker processes: those that serve a delegate, and those that follow a plan. -/
namespace JobGateway.WorkerProgram

variable {ε π : Type}

/-- The program whose processes serve a delegate, each beginning with a fresh state of its own. -/
def serving (d : Delegate (π × ε)) (fresh : π) : WorkerProgram ε π where
  name := "worker"
  start := pure (.ok fresh)
  receive _ line own := fun shared =>
    let (reply, own, shared) := Worker.reply d line.toList (own, shared)
    (.line (Utf8.encode reply.toJson.render) own, shared)

/-- The program whose processes end at the first line without an answer. -/
def ending (fresh : π) : WorkerProgram ε π where
  name := "worker"
  start := pure (.ok fresh)
  receive _ _ _ := pure (.last [])

/-- An entry of a plan: the bytes to write, in which the mark stands for the identifier of the
request, and whether the process then ends. One that goes on adds a line feed. -/
structure PlannedReply where
  bytes : List UInt8
  ends : Bool
  deriving DecidableEq, Repr

/-- A text with every mark `$ID` replaced by another text. -/
def fillMarks (fill : List Char) : List Char → List Char
  | '$' :: 'I' :: 'D' :: rest => fill ++ fillMarks fill rest
  | c :: rest => c :: fillMarks fill rest
  | [] => []

/-- The bytes of a planned reply to a request. Bytes that are no text are written as they are. -/
def PlannedReply.filled (r : PlannedReply) (id : String) : List UInt8 :=
  match Utf8.decode r.bytes with
  | .ok text => Utf8.encode (fillMarks id.toList text)
  | .error _ => r.bytes

/-- What processes that follow a plan share: whether more of them can be started, and the lines that
they received so far. -/
structure PlanState where
  startable : Bool
  received : List String

def memberText (value : Json) (name : String) : String :=
  match value.member? name with
  | some (.string s) => s
  | _ => ""

/-- The identifier in a request line. -/
def lineId (line : String) : String :=
  match Json.parse line.toList with
  | .ok value => memberText value "id"
  | .error _ => ""

/-- The program whose processes answer their requests by a plan that they share. -/
def planned (name : String) (plan : List PlannedReply) : WorkerProgram PlanState Unit where
  name := name
  start := fun s => (if s.startable then .ok () else .error .notFound, s)
  receive _ line _ := fun s =>
    let r := JobGateway.planned plan ⟨[], false⟩ s.received.length
    let bytes := r.filled (lineId line)
    let s := { s with received := s.received ++ [line] }
    (if r.ends then .last bytes else .line bytes (), s)

def missing (name : String) (fault : StartFault) : WorkerProgram ε π where
  name := name
  start := pure (.error fault)
  receive _ _ _ := pure (.last [])

end JobGateway.WorkerProgram
