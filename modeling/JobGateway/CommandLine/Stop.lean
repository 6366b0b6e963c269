import JobGateway.Program

/-! Why the reading of a command line stops before there is anything to run. -/
namespace JobGateway.CommandLine

inductive Stop where
  | helpAsked
  | versionAsked
  | nothingAsked
  | unknownCommand
  | unknownArgument
  /-- A value for an option that takes none. -/
  | needlessValue
  /-- No value for an option that takes one, or none of the values to choose from. -/
  | invalidValue
  /-- A value that is not of the kind that the option takes. -/
  | malformedValue
  | repeatedOption
  | missingOption
  deriving DecidableEq, Repr

namespace Stop

/-- The name and the version of the program. -/
def versionText : String := "aurora-rest 0.1.0\n"

def helpText : String :=
  "REST gateway for Aurora job commands\n\n" ++
  "Usage: aurora-rest <COMMAND>\n\n" ++
  "Commands:\n" ++
  "  serve   Serve the HTTP API\n" ++
  "  worker  Run as a process-pool worker, reading requests on stdin\n" ++
  "  help    Print this message or the help of the given subcommand(s)\n\n" ++
  "Options:\n" ++
  "  -h, --help     Print help\n" ++
  "  -V, --version  Print version\n"

/-- What is wrong with a command line, in a few words. -/
def message : Stop → String
  | .helpAsked => "help was asked for"
  | .versionAsked => "the version was asked for"
  | .nothingAsked => "no command"
  | .unknownCommand => "unknown command"
  | .unknownArgument => "unknown argument"
  | .needlessValue => "a value for an option that takes none"
  | .invalidValue => "no value, or none of the possible values, for an option"
  | .malformedValue => "a malformed value for an option"
  | .repeatedOption => "an option is given twice"
  | .missingOption => "a required option is missing"

/-- What the program does in place of a run. It ends with status two unless it was asked for help or
its version. -/
def output : Stop → ProgramOutput
  | .helpAsked => .printed helpText
  | .versionAsked => .printed versionText
  | .nothingAsked => .complained helpText 2
  | stop => .complained s!"error: {stop.message}\n" 2

end Stop

end JobGateway.CommandLine
