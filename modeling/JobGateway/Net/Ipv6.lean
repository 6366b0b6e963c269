import JobGateway.Net.Ipv4

/-! Addresses of the Internet Protocol, version 6: eight groups of sixteen bits, written in
hexadecimal between colons. Two colons stand for a run of zero groups, and an address of version 4
may stand for the last two groups. In the written form the first of the longest runs of zeros is
left out, if it is longer than one group. -/
namespace JobGateway.Net

open Text

structure Ipv6 where
  groups : List UInt16
  length_eq : groups.length = 8
  deriving DecidableEq, Repr

namespace Ipv6

def ofGroups? (groups : List UInt16) : Option Ipv6 :=
  if h : groups.length = 8 then some ⟨groups, h⟩ else none

/-- The address of version 4 that an address stands for. -/
def mapped? (ip : Ipv6) : Option Ipv4 :=
  match ip.groups with
  | [0, 0, 0, 0, 0, 0xFFFF, g, h] => some (.ofGroups g h)
  | _ => none

/-- The start and the length of the first of the longest runs of zeros. -/
def longestRun : List UInt16 → Nat × Nat
  | [] => (0, 0)
  | g :: gs =>
    let here := ((g :: gs).takeWhile (· = 0)).length
    let (start, length) := longestRun gs
    if length ≤ here then (0, here) else (start + 1, length)

/-- Groups between colons, in lower case and without leading zeros. -/
def joined (groups : List UInt16) : String :=
  String.intercalate ":" (groups.map fun g => String.ofList (Nat.toDigits 16 g.toNat))

def text (ip : Ipv6) : String :=
  match ip.mapped? with
  | some mapped => "::ffff:" ++ mapped.text
  | none =>
    let (start, length) := longestRun ip.groups
    if 1 < length then
      joined (ip.groups.take start) ++ "::" ++ joined (ip.groups.drop (start + length))
    else joined ip.groups

/-- Take a group, which has up to four digits. -/
def group : Scanner UInt16 := do
  let ds ← Scanner.digits 16
  if ds.length ≤ 4 then return UInt16.ofNat (← Scanner.below 65536 16 ds) else failure

/-- Take what a scanner takes behind a colon; the first group has none before it. -/
def behindColon {α : Type} (isFirst : Bool) (scanner : Scanner α) : Scanner α := do
  if isFirst then scanner
  else
    Scanner.character ':'
    scanner

/-- Take groups as long as there are any, but at most so many, and tell whether the last two of them
were written as an address of version 4. -/
def groupsUpTo (isFirst : Bool) : Nat → Scanner (List UInt16 × Bool)
  | 0 => pure ([], false)
  | n + 1 => do
    let embedded := if n = 0 then failure else behindColon isFirst Ipv4.scanner
    match ← Scanner.optional embedded with
    | some ip => return (ip.groups, true)
    | none =>
      match ← Scanner.optional (behindColon isFirst group) with
      | none => return ([], false)
      | some g =>
        let (gs, isMixed) ← groupsUpTo false n
        return (g :: gs, isMixed)

/-- Take an address. Two colons stand for one group at least. -/
def scanner : Scanner Ipv6 := do
  let (front, isMixed) ← groupsUpTo true 8
  if front.length = 8 then StateT.lift (ofGroups? front)
  else if isMixed then failure
  else
    Scanner.character ':'
    Scanner.character ':'
    let (back, _) ← groupsUpTo true (7 - front.length)
    let zeros := List.replicate (8 - front.length - back.length) 0
    StateT.lift (ofGroups? (front ++ zeros ++ back))

end Ipv6

end JobGateway.Net
