import JobGateway.Program
import JobGateway.Text.Blank
import JobGateway.Worker.Message

/-! Worker processes as the gateway sees them. A process is sent request lines and writes bytes. Of
these, up to a line feed, one line is read in reply to a request; what follows stays unread. The reader
waits until there is a line feed or the process ends, so a process that neither ends a line nor itself
gives no answer. -/
namespace JobGateway

/-- What a process does from when it is sent a line until a line of it is read in reply, where some of
what it wrote before is unread: it writes bytes, and goes on or ends. -/
structure WorkerAnswer (unread : List UInt8) (π : Type) where
  written : List UInt8
  next : Option π
  /-- Of a process that goes on nothing is read before it has ended a line. -/
  ended : next.isSome → 10 ∈ unread ++ written

namespace WorkerAnswer

variable {π : Type} {unread : List UInt8}

/-- The answer of a process that ends. -/
def last (written : List UInt8) : WorkerAnswer unread π := ⟨written, none, nofun⟩

/-- The answer of a process that writes a line and goes on. -/
def line (text : List UInt8) (next : π) : WorkerAnswer unread π :=
  ⟨text ++ [10], some next, fun _ => by simp⟩

end WorkerAnswer

/-- A program for worker processes with states in `π`. The state `ε` is what all processes share. -/
structure WorkerProgram (ε π : Type) where
  name : String
  start : StateM ε (Except StartFault π)
  /-- What a process does with a line. If a line is among what is unread, it need not write another. -/
  receive (unread : List UInt8) (line : String) (process : π) : StateM ε (WorkerAnswer unread π)

/-- A process that was started: its state, unless it has ended, and what it wrote that is not read.
-/
structure WorkerProcess (π : Type) where
  state : Option π
  unread : List UInt8

/-- The first line of a byte string with its line feed, and what follows it. -/
def firstLine : List UInt8 → List UInt8 × List UInt8
  | [] => ([], [])
  | b :: rest =>
    if b = 10 then ([b], rest)
    else
      let (line, rest) := firstLine rest
      (b :: line, rest)

/-- An identifier that may be unknown, for a message. -/
def shownId : Option Uuid → String
  | none => "None"
  | some id => s!"Some({id.text})"

/-- The result that a reply gives to the request of an identifier. -/
def WorkerReply.accept (id : Uuid) (reply : WorkerReply) : Except CommandError JobResult :=
  if reply.id = some id then reply.toResult.mapError .marshal
  else .error (.worker s!"reply id {shownId reply.id} does not match request {id.text}")

/-- The result that a line gives to the request of an identifier. No line at all is no answer. -/
def acceptLine (id : Uuid) (line : List UInt8) : Except CommandError JobResult :=
  if line.isEmpty then .error (.worker "worker exited before answering")
  else match Utf8.decode line with
    | .error fault => .error (.worker s!"worker i/o failed: {fault.message}")
    | .ok text =>
      match WorkerReply.decoder.decode (String.ofList (Text.trimRight text)) with
      | .error refusal => .error (.marshal s!"undecodable worker reply: {refusal.message}")
      | .ok reply => reply.accept id

namespace WorkerProcess

variable {ε π : Type}

def start (program : WorkerProgram ε π) : StateM ε (Except StartFault (WorkerProcess π)) := do
  return (← program.start).map fun state => ⟨some state, []⟩

/-- Send a request line and read one line in reply. A process that has ended takes no line. -/
def call (program : WorkerProgram ε π) (id : Uuid) (line : String) (p : WorkerProcess π) :
    StateM ε (Except CommandError JobResult × WorkerProcess π) := do
  match p.state with
  | none => return (.error (.worker "worker i/o failed: Broken pipe (os error 32)"), p)
  | some state =>
    let answer ← program.receive p.unread line state
    let (first, unread) := firstLine (p.unread ++ answer.written)
    return (acceptLine id first, ⟨answer.next, unread⟩)

end WorkerProcess

end JobGateway
