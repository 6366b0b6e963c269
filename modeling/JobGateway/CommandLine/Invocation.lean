import JobGateway.CommandLine.Options
import JobGateway.Executor.Strategy
import JobGateway.Text.Scanner

/-! What a command line asks for: to serve, with the options of the service, or to be a worker. -/
namespace JobGateway.CommandLine

open Text

inductive DelegateKind where
  | client | table
  deriving DecidableEq, Repr

namespace DelegateKind

def name : DelegateKind → String
  | .client => "cli"
  | .table => "memory"

def byName : List (String × DelegateKind) := [("cli", .client), ("memory", .table)]

end DelegateKind

structure ServeOptions where
  listen : String
  /-- The first part of the path of every route. -/
  mount : String
  delegate : DelegateKind
  client : String
  strategy : Strategy
  parallel : Nat
  deriving DecidableEq, Repr

structure GivenServeOptions where
  listen : Option String
  mount : Option String
  delegate : Option DelegateKind
  client : Option String
  strategy : Option Strategy
  parallel : Option Nat

def anyText (value : String) : Except Stop String := .ok value

def choice {α : Type} (byName : List (String × α)) (value : String) : Except Stop α :=
  match byName.lookup value with
  | some a => .ok a
  | none => .error .invalidValue

/-- Take a number of 64 bits, with or without a plus sign. -/
def countScanner : Scanner Nat := do
  let _ ← Scanner.optional (Scanner.character '+')
  Scanner.decimal (Nat.pow 2 64)

/-- A value that is a number of 64 bits. -/
def count (value : String) : Except Stop Nat :=
  match countScanner.whole value with
  | some n => .ok n
  | none => .error .malformedValue

namespace ServeOptions

def options : List (ValueOption GivenServeOptions) := [
  .keeping "listen" "AURORA_REST_LISTEN" anyText (·.listen) fun v o => { o with listen := v },
  .keeping "prefix" "AURORA_REST_PREFIX" anyText (·.mount) fun v o => { o with mount := v },
  .keeping "delegate" "AURORA_REST_DELEGATE" (choice DelegateKind.byName) (·.delegate)
    fun v o => { o with delegate := v },
  .keeping "aurora-cmd" "AURORA_CMD" anyText (·.client) fun v o => { o with client := v },
  .keeping "strategy" "AURORA_REST_STRATEGY" (choice Strategy.byName) (·.strategy)
    fun v o => { o with strategy := v },
  .keeping "parallel" "AURORA_REST_PARALLEL" count (·.parallel) fun v o => { o with parallel := v }]

/-- The options with the usual values for those that are not given. -/
def complete (given : GivenServeOptions) : ServeOptions where
  listen := given.listen.getD "0.0.0.0:8888"
  mount := given.mount.getD "alpha"
  delegate := given.delegate.getD .client
  client := given.client.getD "aurora"
  strategy := given.strategy.getD .thread
  parallel := given.parallel.getD 4

def read (environment : Environment) (arguments : List String) : Except Stop ServeOptions :=
  complete <$> readOptions options ⟨none, none, none, none, none, none⟩ environment arguments

end ServeOptions

def workerOptions : List (ValueOption (Option String)) :=
  [.keeping "delegate-config" none anyText id fun v _ => some v]

def readWorker (environment : Environment) (arguments : List String) : Except Stop String := do
  match ← readOptions workerOptions none environment arguments with
  | some config => return config
  | none => throw .missingOption

inductive Invocation where
  | serve (options : ServeOptions)
  | worker (config : String)
  deriving DecidableEq, Repr

namespace Invocation

def commands : List String := ["serve", "worker", "help"]

/-- The help for a command, of which there may be one. -/
def help : List String → Stop
  | [] => .helpAsked
  | [command] => if commands.contains command then .helpAsked else .unknownCommand
  | _ => .unknownCommand

/-- What stands behind the separator is no command. -/
def behindSeparator : List String → Stop
  | [] => .nothingAsked
  | text :: _ => if commands.contains text then .unknownArgument else .unknownCommand

def noCommand (rest : List String) : Argument → Stop
  | .separator => behindSeparator rest
  | .long name value =>
    if name = "help".toList ∨ name = "version".toList then
      if value.isSome then .needlessValue
      else if name = "help".toList then .helpAsked else .versionAsked
    else .unknownArgument
  | .short letter _ =>
    if letter = 'h' then .helpAsked else if letter = 'V' then .versionAsked else .unknownArgument
  | .plain _ => .unknownCommand

def read (environment : Environment) : List String → Except Stop Invocation
  | [] => .error .nothingAsked
  | "serve" :: rest => .serve <$> ServeOptions.read environment rest
  | "worker" :: rest => .worker <$> readWorker environment rest
  | "help" :: rest => .error (help rest)
  | text :: rest => .error (noCommand rest (.ofText text))

end Invocation

end JobGateway.CommandLine
