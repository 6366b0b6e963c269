/-! The text of a binary64 value: the fewest decimal digits that read back as the same value, the
nearest of those to it, positional for decimal exponents from -5 to 15 and scientific beyond. -/
namespace JobGateway.Json

/-- A positive finite binary64 value as `mantissa * 2 ^ exponent`. -/
structure Binary where
  mantissa : Nat
  exponent : Int
  deriving DecidableEq, Repr

/-- The magnitude of a finite binary64 value. -/
def Binary.ofBits (bits : UInt64) : Binary :=
  let fraction : Nat := bits.toNat % Nat.pow 2 52
  let biased : Nat := bits.toNat / Nat.pow 2 52 % Nat.pow 2 11
  if biased = 0 then ⟨fraction, -1074⟩ else ⟨Nat.pow 2 52 + fraction, (biased : Int) - 1075⟩

/-- The decimal `digits * 10 ^ exponent`. -/
structure Decimal where
  digits : Nat
  exponent : Int
  deriving DecidableEq, Repr

/-- A ratio times a power of ten, as a ratio. -/
def scale (num den : Nat) (power : Int) : Nat × Nat :=
  if power < 0 then (num, den * Nat.pow 10 power.natAbs) else (num * Nat.pow 10 power.natAbs, den)

/-- The least `j` of at most `fuel` with `den ≤ num * 10 ^ j`. -/
def leadingZeros (den : Nat) : Nat → Nat → Nat
  | 0, _ => 0
  | fuel + 1, num => if den ≤ num then 0 else leadingZeros den fuel (num * 10) + 1

/-- The exponent of the greatest power of ten that is at most `num / den`. -/
def magnitude (num den : Nat) : Int :=
  if den ≤ num then ((Nat.toDigits 10 (num / den)).length : Int) - 1
  else -(leadingZeros den 400 num : Int)

/-- The nearest to `num / den` of the two decimals with exponent `e` around it that lie between
`low / den` and `high / den`. -/
def nearestWithin (low num high den : Nat) (closed : Bool) (e : Int) : Option Nat :=
  let (n, d) := scale num den (-e)
  let (l, _) := scale low den (-e)
  let (h, _) := scale high den (-e)
  let inside (x : Nat) : Bool :=
    if closed then l ≤ x * d && x * d ≤ h else l < x * d && x * d < h
  let below := n / d
  let above := below + 1
  match inside below, inside above with
  | true, true =>
    let down := n - below * d
    let up := above * d - n
    some (if down < up || (down = up && below % 2 = 0) then below else above)
  | true, false => some below
  | false, true => some above
  | false, false => none

/-- The shortest decimal that reads back as a positive value, trying `count` digits and more. -/
def shortestFrom (low num high den : Nat) (closed : Bool) : Nat → Int → Decimal
  | 0, e => ⟨num * Nat.pow 10 17 / den, e⟩
  | fuel + 1, e =>
    match nearestWithin low num high den closed e with
    | some digits => ⟨digits, e⟩
    | none => shortestFrom low num high den closed fuel (e - 1)

/-- The shortest decimal that reads back as a positive value. -/
def Binary.shortest (b : Binary) : Decimal :=
  let below := if b.mantissa = Nat.pow 2 52 ∧ b.exponent ≠ -1074 then 1 else 2
  let power := Nat.pow 2 b.exponent.natAbs
  let (unit, den) := if b.exponent < 0 then (1, 4 * power) else (power, 4)
  let num := 4 * b.mantissa * unit
  let low := (4 * b.mantissa - below) * unit
  let high := (4 * b.mantissa + 2) * unit
  shortestFrom low num high den (b.mantissa % 2 = 0) 18 (magnitude num den)

/-- Decimal digits without the zeros at their end, and how many these were. -/
def stripZeros : Nat → Nat → Nat × Nat
  | 0, n => (n, 0)
  | fuel + 1, n =>
    if n ≠ 0 ∧ n % 10 = 0 then
      let (m, k) := stripZeros fuel (n / 10)
      (m, k + 1)
    else (n, 0)

def Decimal.text (d : Decimal) : List Char :=
  let (digits, zeros) := stripZeros 20 d.digits
  let ds := Nat.toDigits 10 digits
  let top : Int := d.exponent + zeros + (ds.length : Int) - 1
  if top < -5 ∨ 15 < top then
    let power := Nat.toDigits 10 top.natAbs
    let mark := if top < 0 then '-' else '+'
    let fraction := if ds.length = 1 then [] else '.' :: ds.drop 1
    ds.take 1 ++ fraction ++ 'e' :: mark :: power
  else if top < 0 then
    ['0', '.'] ++ List.replicate (top.natAbs - 1) '0' ++ ds
  else
    let whole := top.natAbs + 1
    if ds.length ≤ whole then ds ++ List.replicate (whole - ds.length) '0' ++ ['.', '0']
    else ds.take whole ++ '.' :: ds.drop whole

/-- The text of a finite binary64 value, given its bits. -/
def shortestFloat (bits : UInt64) : String :=
  let sign := if Nat.pow 2 63 ≤ bits.toNat then ['-'] else []
  let b := Binary.ofBits bits
  let body := if b.mantissa = 0 then ['0', '.', '0'] else b.shortest.text
  String.ofList (sign ++ body)

end JobGateway.Json
