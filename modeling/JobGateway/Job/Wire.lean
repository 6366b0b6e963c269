import JobGateway.Json.Union
import JobGateway.Json.Writer
import JobGateway.Job.Command
import JobGateway.Uuid

/-! Job values as JSON. Members are written in the order of declaration, the tag of a union first. A
specification is written as a string, so it must be text. -/
namespace JobGateway

open Json

namespace JobKey

def toJson : JobKey → Json
  | .role c r => .object [("cluster", .string c), ("role", .string r)]
  | .full c r e n =>
    .object [("cluster", .string c), ("role", .string r), ("environment", .string e),
      ("name", .string n)]

/-- The members of a key as they are read. -/
structure Parts where
  cluster : Option String
  role : Option String
  environment : Option (Option String)
  name : Option (Option String)

/-- The record of the four parts. The last two may be absent or null. -/
def record : Record Parts (String × String × Option String × Option String) where
  name := "struct RawJobKey"
  slots := [
    .keeping "cluster" false .string (·.cluster) fun v k => { k with cluster := some v },
    .keeping "role" false .string (·.role) fun v k => { k with role := some v },
    .keeping "environment" true (.option .string) (·.environment)
      fun v k => { k with environment := some v },
    .keeping "name" true (.option .string) (·.name) fun v k => { k with name := some v }]
  start := ⟨none, none, none, none⟩
  build k := do
    return (← required "cluster" k.cluster, ← required "role" k.role, k.environment.getD none,
      k.name.getD none)

/-- Environment and name make a full key together; one of them alone makes no key. -/
def ofParts : String × String × Option String × Option String → Except Mismatch JobKey
  | (c, r, some e, some n) => .ok (.full c r e n)
  | (c, r, none, none) => .ok (.role c r)
  | _ => .error (.refused "partial job key: environment and name must be given together")

def decoder : Decoder JobKey := record.decoder.check ofParts

end JobKey

namespace Operation

def toJson (op : Operation) : Json := .string op.name

def decoder : Decoder Operation := .constant byName

end Operation

namespace Capabilities

def toJson (c : Capabilities) : Json := .array (c.toList.map Operation.toJson)

def decoder : Decoder Capabilities := .map ofList (.list Operation.decoder)

end Capabilities

namespace JobSpec

def toJson (spec : JobSpec) : Except Utf8.Fault Json := .string <$> spec.text

def decoder : Decoder JobSpec := .map ofString .string

end JobSpec

namespace Instances

def toJson (i : Instances) : Json := .strings i.ids

def decoder : Decoder Instances := .map Instances.mk (.list .string)

end Instances

namespace Payload

def toJson : Payload → Json
  | .jobs keys => .object [("kind", .string "jobs"), ("value", .strings keys)]
  | .job key => .object [("kind", .string "job"), ("value", .string key)]
  | .deleted keys => .object [("kind", .string "deleted"), ("value", .strings keys)]

def union : OuterUnion Payload where
  name := "adjacently tagged enum Payload"
  tag := "kind"
  content := "value"
  variants := [("jobs", .map .jobs (.list .string)), ("job", .map .job .string),
    ("deleted", .map .deleted (.list .string))]

def decoder : Decoder Payload := union.decoder

end Payload

namespace JobResult

def toJson (r : JobResult) : Json :=
  .object [("job_key", .string r.key), ("payload", r.payload.toJson),
    ("errors", match r.errors with | none => .null | some lines => .strings lines)]

/-- The members of a result as they are read. -/
structure Parts where
  key : Option String
  payload : Option Payload
  errors : Option (Option (List String))

def record : Record Parts JobResult where
  name := "struct CommandResult"
  slots := [
    .keeping "job_key" false .string (·.key) fun v r => { r with key := some v },
    .keeping "payload" false Payload.decoder (·.payload) fun v r => { r with payload := some v },
    .keeping "errors" true (.option (.list .string)) (·.errors)
      fun v r => { r with errors := some v }]
  start := ⟨none, none, none⟩
  build r := do
    return ⟨← required "job_key" r.key, ← required "payload" r.payload, r.errors.getD none⟩

def decoder : Decoder JobResult := record.decoder

end JobResult

namespace JobCommand

/-- The tag and the members of a command, in order. -/
def tagged (op : Operation) (key : JobKey) (more : List (String × Json)) : Json :=
  .object (("op", op.toJson) :: ("key", key.toJson) :: more)

def specJson : Option JobSpec → Except Utf8.Fault Json
  | none => .ok .null
  | some spec => spec.toJson

def toJson : JobCommand → Except Utf8.Fault Json
  | .listJobs key => .ok (tagged .listJobs key [])
  | .createJob key spec => do return tagged .createJob key [("spec", ← spec.toJson)]
  | .updateJob key spec i => do
    return tagged .updateJob key [("spec", ← spec.toJson), ("instances", i.toJson)]
  | .cancelUpdate key spec => do return tagged .cancelUpdate key [("spec", ← specJson spec)]
  | .restartJob key spec i => do
    return tagged .restartJob key [("spec", ← specJson spec), ("instances", i.toJson)]
  | .deleteJob key spec i => do
    return tagged .deleteJob key [("spec", ← specJson spec), ("instances", i.toJson)]

/-- The members of a command as they are read. -/
structure Parts where
  key : Option JobKey
  spec : Option JobSpec
  maybeSpec : Option (Option JobSpec)
  instances : Option Instances

def keySlot : Slot Parts :=
  .keeping "key" false JobKey.decoder (·.key) fun v c => { c with key := some v }

def specSlot : Slot Parts :=
  .keeping "spec" false JobSpec.decoder (·.spec) fun v c => { c with spec := some v }

def maybeSpecSlot : Slot Parts :=
  .keeping "spec" true (.option JobSpec.decoder) (·.maybeSpec)
    fun v c => { c with maybeSpec := some v }

def instancesSlot : Slot Parts :=
  .keeping "instances" true Instances.decoder (·.instances)
    fun v c => { c with instances := some v }

/-- The record of the members of one variant. -/
def variant (name : String) (slots : List (Slot Parts))
    (build : Parts → Except Mismatch JobCommand) : Json → Except Mismatch JobCommand :=
  let record : Record Parts JobCommand :=
    ⟨s!"struct variant JobCommand::{name}", slots, ⟨none, none, none, none⟩, build⟩
  record.decoder.ofJson

def union : InnerUnion JobCommand where
  name := "internally tagged enum JobCommand"
  tag := "op"
  variants := [
    ("list_jobs", variant "ListJobs" [keySlot] fun c => do
      return .listJobs (← required "key" c.key)),
    ("create_job", variant "CreateJob" [keySlot, specSlot] fun c => do
      return .createJob (← required "key" c.key) (← required "spec" c.spec)),
    ("update_job", variant "UpdateJob" [keySlot, specSlot, instancesSlot] fun c => do
      return .updateJob (← required "key" c.key) (← required "spec" c.spec)
        (c.instances.getD .all)),
    ("cancel_update", variant "CancelUpdate" [keySlot, maybeSpecSlot] fun c => do
      return .cancelUpdate (← required "key" c.key) (c.maybeSpec.getD none)),
    ("restart_job", variant "RestartJob" [keySlot, maybeSpecSlot, instancesSlot] fun c => do
      return .restartJob (← required "key" c.key) (c.maybeSpec.getD none) (c.instances.getD .all)),
    ("delete_job", variant "DeleteJob" [keySlot, maybeSpecSlot, instancesSlot] fun c => do
      return .deleteJob (← required "key" c.key) (c.maybeSpec.getD none) (c.instances.getD .all))]

def decoder : Decoder JobCommand := union.decoder

end JobCommand

namespace Uuid

def toJson (u : Uuid) : Json := .string u.text

/-- An identifier in any of its forms. -/
def decoder : Decoder Uuid :=
  .parsed "a formatted UUID string" fun s =>
    (parse s).mapError fun f => .refused s!"UUID parsing failed: {f.message}"

end Uuid

end JobGateway
