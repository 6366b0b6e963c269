/-! Digits, their values, and the numbers that they make up. -/
namespace JobGateway.Text

/-- The last hexadecimal digit of a number. -/
def nibble (n : Nat) : Fin 16 := ⟨n % 16, Nat.mod_lt n (Nat.succ_pos 15)⟩

def hexValue? (c : Char) : Option (Fin 16) :=
  if '0' ≤ c ∧ c ≤ '9' then some (nibble (c.toNat - 0x30))
  else if 'a' ≤ c ∧ c ≤ 'f' then some (nibble (c.toNat - 0x57))
  else if 'A' ≤ c ∧ c ≤ 'F' then some (nibble (c.toNat - 0x37))
  else none

/-- The lower-case hexadecimal digit of a value. -/
def hexDigit (d : Fin 16) : Char :=
  if d.val < 10 then Char.ofNat (0x30 + d.val) else Char.ofNat (0x57 + d.val)

theorem hexValue?_hexDigit (d : Fin 16) : hexValue? (hexDigit d) = some d := by
  revert d
  decide

def digitValue? (base : Nat) (c : Char) : Option Nat :=
  ((hexValue? c).map Fin.val).filter (· < base)

/-- The number that digits make up, of which the most significant comes first. -/
def ofDigits (base : Nat) (digits : List Nat) : Nat := digits.foldl (fun n d => base * n + d) 0

end JobGateway.Text
