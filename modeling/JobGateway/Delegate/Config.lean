import JobGateway.Json.Union
import JobGateway.Json.Writer
import JobGateway.Job.Operation
import JobGateway.Text.Blank

/-! Which delegate to use, and its form as an argument of a program. -/
namespace JobGateway

inductive DelegateConfig where
  /-- The client program of the given name. -/
  | client (command : String)
  /-- A table of jobs. -/
  | table
  deriving DecidableEq, Repr

namespace DelegateConfig

inductive Refusal where
  | undecodable (refusal : Json.Refusal)
  | emptyCommand
  deriving DecidableEq, Repr

def emptyCommandMessage : String := "aurora client command must not be empty"

/-- A client must have a name that is not blank. -/
def isValid : DelegateConfig → Bool
  | .client command => !Text.allBlank command.toList
  | .table => true

def capabilities (_ : DelegateConfig) : Capabilities := .all

def toJson : DelegateConfig → Json
  | .client command => .object [("kind", .string "cli"), ("command", .string command)]
  | .table => .object [("kind", .string "memory")]

/-- The members of a client configuration as they are read. -/
structure Parts where
  command : Option String

def clientRecord : Json.Record Parts DelegateConfig where
  name := "struct variant DelegateConfig::Cli"
  slots := [.keeping "command" false .string (·.command) fun v _ => ⟨some v⟩]
  start := ⟨none⟩
  build c := .client <$> Json.required "command" c.command

def union : Json.InnerUnion DelegateConfig where
  name := "internally tagged enum DelegateConfig"
  tag := "kind"
  variants := [("cli", clientRecord.decoder.ofJson), ("memory", Json.unitVariant .table)]

def argument (config : DelegateConfig) : String := config.toJson.text

def ofArgument (arg : String) : Except Refusal DelegateConfig := do
  let config ← (union.decoder.decode arg).mapError .undecodable
  if config.isValid then pure config else throw .emptyCommand

end DelegateConfig

end JobGateway
