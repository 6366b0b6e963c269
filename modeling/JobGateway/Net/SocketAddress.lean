import JobGateway.Net.Ipv6

/-! Socket addresses: an address of the Internet Protocol and a port. An address of version 6 stands
in brackets and may name a scope behind a percent sign. -/
namespace JobGateway.Net

open Text

inductive SocketAddress where
  | v4 (ip : Ipv4) (port : UInt16)
  | v6 (ip : Ipv6) (scope : UInt32) (port : UInt16)
  deriving DecidableEq, Repr

namespace SocketAddress

def port : SocketAddress → UInt16
  | .v4 _ port => port
  | .v6 _ _ port => port

/-- The address without scope and port. -/
def ipText : SocketAddress → String
  | .v4 ip _ => ip.text
  | .v6 ip _ _ => ip.text

/-- The written form. The scope zero is not written. -/
def text : SocketAddress → String
  | .v4 ip port => s!"{ip.text}:{port.toNat}"
  | .v6 ip scope port =>
    if scope = 0 then s!"[{ip.text}]:{port.toNat}" else s!"[{ip.text}%{scope.toNat}]:{port.toNat}"

/-- Take a port and the colon before it. -/
def portScanner : Scanner UInt16 := do
  Scanner.character ':'
  return UInt16.ofNat (← Scanner.decimal 65536)

/-- Take a scope and the percent sign before it. -/
def scopeScanner : Scanner UInt32 := do
  Scanner.character '%'
  return UInt32.ofNat (← Scanner.decimal 4294967296)

def v4Scanner : Scanner SocketAddress := do
  let ip ← Ipv4.scanner
  return .v4 ip (← portScanner)

def v6Scanner : Scanner SocketAddress := do
  Scanner.character '['
  let ip ← Ipv6.scanner
  let scope ← Scanner.optional scopeScanner
  Scanner.character ']'
  return .v6 ip (scope.getD 0) (← portScanner)

def ofText? (text : String) : Option SocketAddress :=
  (v4Scanner.whole text).or (v6Scanner.whole text)

end SocketAddress

end JobGateway.Net
