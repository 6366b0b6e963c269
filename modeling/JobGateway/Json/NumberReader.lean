import JobGateway.Json.Reader

/-! Numbers of a JSON text. A whole number that fits 64 bits keeps its value. Any other number is a
binary64 value: the first digits that fit 64 bits, times or divided by the power of ten that the
remaining digits and the exponent make. -/
namespace JobGateway.Json

open Reader

def digit? (c : Char) : Option Nat := if '0' ≤ c ∧ c ≤ '9' then some (c.toNat - 0x30) else none

/-- Whether the text begins with a decimal digit. -/
def startsWithDigit (s : List Char) : Bool := s.head?.any fun c => (digit? c).isSome

/-- The text behind its leading decimal digits. -/
def dropDigits (s : List Char) : List Char := s.dropWhile fun c => (digit? c).isSome

def maxWord : Nat := Nat.pow 2 64 - 1

/-- The value `f * 10 ^ exponent`, by one multiplication or by divisions, each rounded. There is
none if it is beyond every finite value. -/
def raise : Nat → Float → Int → Option Float
  | 0, f, _ => some f
  | fuel + 1, f, exponent =>
    if exponent.natAbs ≤ 308 then
      let power := Float.ofScientific 1 false exponent.natAbs
      if exponent ≥ 0 then
        let g := f * power
        if g.isInf then none else some g
      else some (f / power)
    else if f == 0 then some f
    else if exponent ≥ 0 then none
    else raise fuel (f / Float.ofScientific 1 false 308) (exponent + 308)

/-- The binary64 value of a significand and a power of ten. -/
def binary64 (negative : Bool) (significand : Nat) (exponent : Int) : Reader Number := fun s =>
  match raise 8 significand.toUInt64.toFloat exponent with
  | some f => .ok (.binary64 (if negative then -f else f).toBits) s
  | none => fail (.malformed .numberRange) s

/-- The rest of an exponent whose digits so far have the value `power`. -/
def exponentFrom (negative raises : Bool) (significand : Nat) (start : Int) (power : Nat) :
    List Char → EStateM.Result Fault (List Char) Number
  | [] => binary64 negative significand (if raises then start + power else start - power) []
  | c :: rest =>
    match digit? c with
    | none =>
      binary64 negative significand (if raises then start + power else start - power) (c :: rest)
    | some d =>
      if power * 10 + d < Nat.pow 2 31 then
        exponentFrom negative raises significand start (power * 10 + d) rest
      else if significand ≠ 0 ∧ raises then fail (.malformed .numberRange) rest
      else .ok (.binary64 (if negative then -0.0 else 0.0 : Float).toBits) (dropDigits rest)

/-- The exponent behind its letter. -/
def exponent (negative : Bool) (significand : Nat) (start : Int) : Reader Number := fun s =>
  let (raises, s) := match s with
    | '+' :: rest => (true, rest)
    | '-' :: rest => (false, rest)
    | s => (true, s)
  match s with
  | [] => fail (.unfinished .value) []
  | c :: rest =>
    match digit? c with
    | some d => exponentFrom negative raises significand start d rest
    | none => failNext (.malformed .number) (c :: rest)

/-- What may follow the fraction of a number. -/
def fractionEnd (negative : Bool) (significand : Nat) (power : Int) : Reader Number := fun s =>
  match s with
  | [] => binary64 negative significand power []
  | c :: rest =>
    if c = 'e' ∨ c = 'E' then exponent negative significand power rest
    else binary64 negative significand power (c :: rest)

/-- The fraction behind its point, of which `seen` tells whether a digit is read. -/
def fractionFrom (negative seen : Bool) (significand : Nat) (power : Int) :
    List Char → EStateM.Result Fault (List Char) Number
  | [] =>
    if seen then fractionEnd negative significand power [] else fail (.unfinished .value) []
  | c :: rest =>
    match digit? c with
    | some d =>
      if significand * 10 + d ≤ maxWord then
        fractionFrom negative true (significand * 10 + d) (power - 1) rest
      else fractionEnd negative significand power (dropDigits rest)
    | none =>
      if seen then fractionEnd negative significand power (c :: rest)
      else failNext (.malformed .number) (c :: rest)

/-- The rest of a whole number too great for 64 bits. -/
def longWhole (negative : Bool) (significand : Nat) (power : Int) :
    List Char → EStateM.Result Fault (List Char) Number
  | [] => binary64 negative significand power []
  | c :: rest =>
    match digit? c with
    | some _ => longWhole negative significand (power + 1) rest
    | none =>
      if c = '.' then fractionFrom negative false significand power rest
      else fractionEnd negative significand power (c :: rest)

/-- The number of a sign and a significand of 64 bits. Zero with a sign and numbers below -2^63 are
binary64 values. -/
def whole (negative : Bool) (significand : Nat) : Number :=
  if ¬ negative then .natural significand.toUInt64
  else if significand ≠ 0 ∧ significand ≤ Nat.pow 2 63 then .negative significand.toUInt64
  else .binary64 (-significand.toUInt64.toFloat).toBits

/-- The rest of a number whose digits so far have the value `significand`. -/
def wholeFrom (negative : Bool) (significand : Nat) :
    List Char → EStateM.Result Fault (List Char) Number
  | [] => .ok (whole negative significand) []
  | c :: rest =>
    match digit? c with
    | some d =>
      if significand * 10 + d ≤ maxWord then wholeFrom negative (significand * 10 + d) rest
      else longWhole negative significand 1 rest
    | none =>
      if c = '.' then fractionFrom negative false significand 0 rest
      else if c = 'e' ∨ c = 'E' then exponent negative significand 0 rest
      else .ok (whole negative significand) (c :: rest)

/-- A number behind its sign. -/
def numberBody (negative : Bool) : Reader Number := fun s =>
  match s with
  | [] => fail (.unfinished .value) []
  | c :: rest =>
    match digit? c with
    | none => failNext (.malformed .number) (c :: rest)
    | some 0 =>
      if startsWithDigit rest then failNext (.malformed .number) rest
      else wholeFrom negative 0 rest
    | some d => wholeFrom negative d rest

/-- Skip an exponent behind its letter. -/
def skipExponent : Reader Unit := fun s =>
  let s := match s with
    | '+' :: rest => rest
    | '-' :: rest => rest
    | s => s
  if startsWithDigit s then .ok () (dropDigits s) else failNext (.malformed .number) s

/-- Skip what may follow the whole part or the fraction of a number. -/
def skipNumberEnd : Reader Unit := fun s =>
  match s with
  | [] => .ok () []
  | c :: rest => if c = 'e' ∨ c = 'E' then skipExponent rest else .ok () (c :: rest)

/-- Skip a number behind its sign, whatever its size. -/
def skipNumber : Reader Unit := fun s =>
  match s with
  | [] => failNext (.malformed .number) []
  | c :: rest =>
    match digit? c with
    | none => failNext (.malformed .number) (c :: rest)
    | some d =>
      if d = 0 ∧ startsWithDigit rest then failNext (.malformed .number) rest
      else match dropDigits rest with
        | '.' :: rest =>
          if startsWithDigit rest then skipNumberEnd (dropDigits rest)
          else failNext (.malformed .number) rest
        | rest => skipNumberEnd rest

end JobGateway.Json
