import JobGateway.CommandLine.Invocation
import JobGateway.Executor.Host
import JobGateway.Http.Gateway
import JobGateway.Net.SocketAddress

/-! The settings of a service: its options after they are found to make sense. -/
namespace JobGateway.CommandLine

inductive SettingsFault where
  /-- The text is no socket address. -/
  | listen (address : String)
  | zeroParallel
  | emptyCommand
  deriving DecidableEq, Repr

namespace SettingsFault

def message : SettingsFault → String
  | .listen address =>
    s!"invalid listen address {Text.quoted address}: invalid socket address syntax"
  | .zeroParallel => "parallel must be at least 1"
  | .emptyCommand => DelegateConfig.emptyCommandMessage

/-- The fault with its fields spelled out. -/
def detail : SettingsFault → String
  | .listen address =>
    s!"Listen \x7b addr: {Text.quoted address}, source: AddrParseError(Socket) \x7d"
  | .zeroParallel => "ZeroParallel"
  | .emptyCommand => "Delegate(EmptyCommand)"

end SettingsFault

structure Settings where
  listen : Net.SocketAddress
  /-- The first part of the path of every route, without slashes at its ends. -/
  mount : String
  delegate : DelegateConfig
  strategy : Strategy
  parallel : Nat
  deriving DecidableEq, Repr

namespace ServeOptions

def config (o : ServeOptions) : DelegateConfig :=
  match o.delegate with
  | .client => .client o.client
  | .table => .table

def settings (o : ServeOptions) : Except SettingsFault Settings :=
  match Net.SocketAddress.ofText? o.listen with
  | none => .error (.listen o.listen)
  | some listen =>
    if o.parallel = 0 then .error .zeroParallel
    else if o.config.isValid then
      .ok ⟨listen, String.ofList (Text.strip '/' o.mount.toList), o.config, o.strategy, o.parallel⟩
    else .error .emptyCommand

end ServeOptions

def Settings.start (s : Settings) (host : Host) : Except PoolFault (Started host.World) :=
  s.delegate.start host s.strategy s.parallel

end JobGateway.CommandLine
