import JobGateway.Job.Wire

/-! The messages between a gateway and its worker processes. A request is a command under an
identifier. A reply is the result of the command, or the reason why the request was not taken. -/
namespace JobGateway

structure WorkerRequest where
  id : Uuid
  command : JobCommand
  deriving DecidableEq, Repr

inductive WorkerReply where
  | done (id : Uuid) (result : JobResult)
  | rejected (id : Option Uuid) (error : String)
  deriving DecidableEq, Repr

namespace WorkerRequest

def toJson (r : WorkerRequest) : Except Utf8.Fault Json := do
  return .object [("id", r.id.toJson), ("command", ← r.command.toJson)]

/-- The members of a request as they are read. -/
structure Parts where
  id : Option Uuid
  command : Option JobCommand

def record : Json.Record Parts WorkerRequest where
  name := "struct WorkerRequest"
  slots := [
    .keeping "id" false Uuid.decoder (·.id) fun v r => { r with id := some v },
    .keeping "command" false JobCommand.decoder (·.command) fun v r => { r with command := some v }]
  start := ⟨none, none⟩
  build r := do return ⟨← Json.required "id" r.id, ← Json.required "command" r.command⟩

def decoder : Json.Decoder WorkerRequest := record.decoder

end WorkerRequest

namespace WorkerReply

/-- The identifier of the request that is answered, if it is known. -/
def id : WorkerReply → Option Uuid
  | .done id _ => some id
  | .rejected id _ => id

/-- The result, or the reason why there is none. -/
def toResult : WorkerReply → Except String JobResult
  | .done _ result => .ok result
  | .rejected _ error => .error error

def toJson : WorkerReply → Json
  | .done id result =>
    .object [("status", .string "done"), ("id", id.toJson), ("result", result.toJson)]
  | .rejected id error =>
    .object [("status", .string "rejected"), ("id", (id.map Uuid.toJson).getD .null),
      ("error", .string error)]

/-- The members of a reply with a result as they are read. -/
structure DoneParts where
  id : Option Uuid
  result : Option JobResult

def doneRecord : Json.Record DoneParts WorkerReply where
  name := "struct variant WorkerReply::Done"
  slots := [
    .keeping "id" false Uuid.decoder (·.id) fun v r => { r with id := some v },
    .keeping "result" false JobResult.decoder (·.result) fun v r => { r with result := some v }]
  start := ⟨none, none⟩
  build r := do return .done (← Json.required "id" r.id) (← Json.required "result" r.result)

/-- The members of a reply without a result as they are read. -/
structure RejectedParts where
  id : Option (Option Uuid)
  error : Option String

def rejectedRecord : Json.Record RejectedParts WorkerReply where
  name := "struct variant WorkerReply::Rejected"
  slots := [
    .keeping "id" false (.option Uuid.decoder) (·.id) fun v r => { r with id := some v },
    .keeping "error" false .string (·.error) fun v r => { r with error := some v }]
  start := ⟨none, none⟩
  build r := do return .rejected (r.id.getD none) (← Json.required "error" r.error)

def union : Json.InnerUnion WorkerReply where
  name := "internally tagged enum WorkerReply"
  tag := "status"
  variants := [("done", doneRecord.decoder.ofJson), ("rejected", rejectedRecord.decoder.ofJson)]

def decoder : Json.Decoder WorkerReply := union.decoder

end WorkerReply

end JobGateway
