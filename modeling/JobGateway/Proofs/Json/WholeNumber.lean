import JobGateway.Json.NumberReader
import JobGateway.Json.Writer
import Mathlib.Tactic.Common

/-! Whole numbers in a JSON text: the shortest decimal form of one of 64 bits is read back, and a longer
one is read as a binary64 value, up to the first character that no number goes on with. -/
namespace JobGateway.Json

/-- Whether a text does not go on with a number. -/
def Stops (rest : List Char) : Prop :=
  ∀ c ∈ rest.head?, digit? c = none ∧ c ≠ '.' ∧ c ≠ 'e' ∧ c ≠ 'E'

@[simp] theorem stops_nil : Stops [] := by simp [Stops]

theorem stops_cons {c : Char} {rest : List Char} :
    Stops (c :: rest) ↔ digit? c = none ∧ c ≠ '.' ∧ c ≠ 'e' ∧ c ≠ 'E' := by
  simp [Stops]

theorem Stops.startsWithDigit {rest : List Char} (h : Stops rest) :
    startsWithDigit rest = false := by
  cases rest with
  | nil => rfl
  | cons c rest => simp [Json.startsWithDigit, (stops_cons.1 h).1]

theorem digit?_digitChar {d : Nat} (h : d < 10) : digit? d.digitChar = some d := by
  have hall : ∀ d : Fin 10, digit? d.val.digitChar = some d.val := by decide
  exact hall ⟨d, h⟩

/-- The decimal digits of a number. -/
theorem isSome_digit?_of_mem_toDigits {n : Nat} {c : Char} (h : c ∈ Nat.toDigits 10 n) :
    (digit? c).isSome = true := by
  induction n using Nat.strongRecOn generalizing c with
  | _ n ih =>
    by_cases hn : n < 10
    · rw [Nat.toDigits_of_lt_base hn, List.mem_singleton] at h
      rw [h, digit?_digitChar hn]
      rfl
    · rw [Nat.toDigits_of_base_le (by omega) (by omega), List.mem_append, List.mem_singleton] at h
      obtain h | rfl := h
      · exact ih (n / 10) (by omega) h
      · rw [digit?_digitChar (by omega)]
        rfl

/-- Only zero begins with a zero. -/
theorem toDigits_eq_cons (n : Nat) : ∃ d u, d < 10 ∧ Nat.toDigits 10 n = d.digitChar :: u ∧
    (d = 0 → n = 0 ∧ u = []) := by
  induction n using Nat.strongRecOn with
  | _ n ih =>
    by_cases hn : n < 10
    · exact ⟨n, [], hn, Nat.toDigits_of_lt_base hn, fun h => ⟨h, rfl⟩⟩
    · obtain ⟨d, u, hd, hu, hzero⟩ := ih (n / 10) (by omega)
      refine ⟨d, u ++ [(n % 10).digitChar], hd, ?_, fun h => ?_⟩
      · rw [Nat.toDigits_of_base_le (by omega) (by omega), hu, List.cons_append]
      · have := (hzero h).1
        omega

theorem wholeFrom_digitChar {d significand : Nat} (hd : d < 10) (negative : Bool)
    (h : significand * 10 + d ≤ maxWord) (rest : List Char) :
    wholeFrom negative significand (d.digitChar :: rest) =
      wholeFrom negative (significand * 10 + d) rest := by
  rw [wholeFrom, digit?_digitChar hd]
  simp only [h, if_true]

theorem wholeFrom_toDigits {n : Nat} (negative : Bool) (h : n ≤ maxWord) (rest : List Char) :
    wholeFrom negative 0 (Nat.toDigits 10 n ++ rest) = wholeFrom negative n rest := by
  induction n using Nat.strongRecOn generalizing rest with
  | _ n ih =>
    by_cases hn : n < 10
    · rw [Nat.toDigits_of_lt_base hn, List.singleton_append, wholeFrom_digitChar hn _ (by omega)]
      simp
    · rw [Nat.toDigits_of_base_le (by omega) (by omega), List.append_assoc,
        ih (n / 10) (by omega) (by omega), List.singleton_append,
        wholeFrom_digitChar (by omega) _ (by omega)]
      congr 1
      omega

theorem wholeFrom_of_stops {rest : List Char} (h : Stops rest) (negative : Bool) (n : Nat) :
    wholeFrom negative n rest = .ok (whole negative n) rest := by
  cases rest with
  | nil => rfl
  | cons c rest =>
    obtain ⟨hd, hp, he, hE⟩ := stops_cons.1 h
    rw [wholeFrom, hd]
    simp only [hp, he, hE, or_self, if_false]

/-- The first digits of a number that fit 64 bits, as a number, and how many more there are. -/
def leading (n : Nat) : Nat × Nat :=
  if n ≤ maxWord then (n, 0) else ((leading (n / 10)).1, (leading (n / 10)).2 + 1)
  termination_by n
  decreasing_by all_goals omega

/-- The bits that stand for every number beyond the finite ones. No number is read as these. -/
def infinite : UInt64 := 0x7FF0000000000000

/-- What a whole number with a sign is read as. Beyond 64 bits that is the binary64 value of its
leading digits times a power of ten. -/
def wholeNumber (negative : Bool) (n : Nat) : Number :=
  if n ≤ maxWord then whole negative n
  else match raise 8 (leading n).1.toUInt64.toFloat (leading n).2 with
    | some f => .binary64 (if negative then -f else f).toBits
    | none => .binary64 infinite

theorem wholeFrom_toDigits_of_lt {n : Nat} (negative : Bool) (h : maxWord < n) (rest : List Char) :
    wholeFrom negative 0 (Nat.toDigits 10 n ++ rest) =
      longWhole negative (leading n).1 (leading n).2 rest := by
  have hten : 10 ≤ maxWord := by decide
  induction n using Nat.strongRecOn generalizing rest with
  | _ n ih =>
    have hdigit := digit?_digitChar (Nat.mod_lt n (by omega : 10 > 0))
    rw [leading, if_neg (Nat.not_le.2 h), Nat.toDigits_of_base_le (by omega) (by omega),
      List.append_assoc, List.singleton_append]
    by_cases hshort : n / 10 ≤ maxWord
    · -- The last digit is the first one that does not fit.
      rw [wholeFrom_toDigits negative hshort, leading, if_pos hshort, wholeFrom, hdigit]
      simp only [if_neg (by omega : ¬ n / 10 * 10 + n % 10 ≤ maxWord)]
      rfl
    · rw [ih (n / 10) (by omega) (by omega), longWhole, hdigit]
      push_cast
      rfl

theorem longWhole_of_stops {rest : List Char} (h : Stops rest) (negative : Bool)
    (significand : Nat) (power : Int) :
    longWhole negative significand power rest = binary64 negative significand power rest := by
  cases rest with
  | nil => rfl
  | cons c rest =>
    obtain ⟨hd, hp, he, hE⟩ := stops_cons.1 h
    rw [longWhole, hd]
    simp only [hp, if_false, fractionEnd, he, hE, or_self]

theorem wholeFrom_wholeNumber {negative : Bool} {n : Nat}
    (hfinite : wholeNumber negative n ≠ .binary64 infinite) {rest : List Char}
    (hrest : Stops rest) :
    wholeFrom negative 0 (Nat.toDigits 10 n ++ rest) = .ok (wholeNumber negative n) rest := by
  by_cases h : n ≤ maxWord
  · rw [wholeFrom_toDigits negative h, wholeFrom_of_stops hrest, wholeNumber, if_pos h]
  · rw [wholeFrom_toDigits_of_lt negative (Nat.lt_of_not_le h), longWhole_of_stops hrest, binary64]
    rw [wholeNumber, if_neg h] at hfinite ⊢
    cases hraise : raise 8 (leading n).1.toUInt64.toFloat (leading n).2 with
    | some f => rfl
    | none => simp [hraise] at hfinite

/-- A number behind its sign is read from its decimal digits. -/
theorem numberBody_toDigits {negative : Bool} {n : Nat}
    (hfinite : wholeNumber negative n ≠ .binary64 infinite) {rest : List Char}
    (hrest : Stops rest) :
    numberBody negative (Nat.toDigits 10 n ++ rest) = .ok (wholeNumber negative n) rest := by
  obtain ⟨d, u, hd, hu, hzero⟩ := toDigits_eq_cons n
  have hword : (0 : Nat) * 10 + d ≤ maxWord := by
    have : 10 ≤ maxWord := by decide
    omega
  have hfrom : wholeFrom negative d (u ++ rest) = .ok (wholeNumber negative n) rest := by
    rw [← wholeFrom_wholeNumber hfinite hrest, hu, List.cons_append, wholeFrom_digitChar hd _ hword]
    simp
  rw [hu, List.cons_append]
  simp only [numberBody, digit?_digitChar hd]
  split
  · next heq => cases heq
  · next heq =>
    cases heq
    obtain ⟨rfl, rfl⟩ := hzero rfl
    rw [List.nil_append, hrest.startsWithDigit]
    exact hfrom
  · next heq =>
    cases heq
    exact hfrom

end JobGateway.Json
