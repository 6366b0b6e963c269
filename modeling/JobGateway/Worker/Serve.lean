import JobGateway.Delegate.Basic
import JobGateway.Text.Blank
import JobGateway.Worker.Message

/-! The loop of a worker process. It reads requests line by line, skips blank lines, and writes one
line in reply to any other; no request ends the loop. It ends with its input, at a line that is no
text, or when its replies are no longer taken. -/
namespace JobGateway.Worker

variable {σ : Type}

/-- The identifier in a line that is no request, if the line is an object that has one. -/
def recoverId (line : List Char) : Option Uuid := do
  let value ← (Json.parse line).toOption
  match ← value.member? "id" with
  | .string s => (Uuid.parse s).toOption
  | _ => none

/-- The reply to a line. -/
def reply (d : Delegate σ) (line : List Char) : StateM σ WorkerReply :=
  match WorkerRequest.decoder.decode (String.ofList line) with
  | .ok request => .done request.id <$> d.invoke request.command
  | .error refusal =>
    pure (.rejected (recoverId line) s!"cannot decode request: {refusal.message}")

/-- Where replies are written: the text written so far, piece by piece with the last one first, and
how many more bytes are taken, if that is limited. -/
structure Output where
  pieces : List (List Char)
  room : Option Nat

namespace Output

/-- An output that takes so many bytes. -/
def new (room : Option Nat) : Output := ⟨[], room⟩

/-- Write a piece of text, if there is room for the whole of it. -/
def write? (o : Output) (piece : List Char) : Option Output :=
  match o.room with
  | none => some { o with pieces := piece :: o.pieces }
  | some room =>
    let size := Utf8.byteLength piece
    if size ≤ room then some ⟨piece :: o.pieces, some (room - size)⟩ else none

def text (o : Output) : List Char := o.pieces.reverse.flatten

end Output

inductive End where
  | inputEnded
  | notText
  | outputClosed
  deriving DecidableEq, Repr

/-- What the loop is told about its end. -/
def End.message : End → Option String
  | .inputEnded => none
  | .notText => some "stream did not contain valid UTF-8"
  | .outputClosed => some "output closed"

/-- Write a reply and a line feed. The output may be closed between the two. -/
def writeReply (o : Output) (reply : WorkerReply) : Except Output Output :=
  match o.write? reply.toJson.render with
  | none => .error o
  | some o =>
    match o.write? ['\n'] with
    | none => .error o
    | some o => .ok o

def serveLines (d : Delegate σ) : Output → List (List UInt8) → StateM σ (Output × End)
  | o, [] => pure (o, .inputEnded)
  | o, line :: lines => do
    match Utf8.decode line with
    | .error _ => pure (o, .notText)
    | .ok text =>
      if Text.allBlank text then serveLines d o lines
      else
        match writeReply o (← reply d text) with
        | .error o => pure (o, .outputClosed)
        | .ok o => serveLines d o lines

def inputLines (input : List UInt8) : List (List UInt8) := Lines.split 10 13 input

def serve (d : Delegate σ) (room : Option Nat) (input : List UInt8) : StateM σ (Output × End) :=
  serveLines d (.new room) (inputLines input)

end JobGateway.Worker
