import JobGateway.Text.Scanner

/-! Addresses of the Internet Protocol, version 4: four octets, written in decimal between full
stops and without leading zeros. -/
namespace JobGateway.Net

open Text

structure Ipv4 where
  a : UInt8
  b : UInt8
  c : UInt8
  d : UInt8
  deriving DecidableEq, Repr

namespace Ipv4

def text (ip : Ipv4) : String := s!"{ip.a.toNat}.{ip.b.toNat}.{ip.c.toNat}.{ip.d.toNat}"

/-- Take an octet. Only the octet zero begins with the digit zero. -/
def octet : Scanner UInt8 := do
  match ← Scanner.digits 10 with
  | 0 :: _ :: _ => failure
  | ds => return UInt8.ofNat (← Scanner.below 256 10 ds)

def scanner : Scanner Ipv4 := do
  let a ← octet
  Scanner.character '.'
  let b ← octet
  Scanner.character '.'
  let c ← octet
  Scanner.character '.'
  return ⟨a, b, c, ← octet⟩

/-- The address as two groups of sixteen bits. -/
def groups (ip : Ipv4) : List UInt16 :=
  [ip.a.toUInt16 * 256 + ip.b.toUInt16, ip.c.toUInt16 * 256 + ip.d.toUInt16]

/-- The address of two groups of sixteen bits. -/
def ofGroups (g h : UInt16) : Ipv4 := ⟨(g / 256).toUInt8, g.toUInt8, (h / 256).toUInt8, h.toUInt8⟩

end Ipv4

end JobGateway.Net
