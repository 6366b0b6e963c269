import JobGateway.Proofs.Json.Spelling
import Mathlib.Data.List.Forall2

/-! The grammar of JSON texts, without regard to what can be read of them: numbers have any size, and
strings may have escapes that stand for no character. What stands between two brackets is a list of
parts with commas between them; a part of an object is a name and a value. -/
namespace JobGateway.Json

def IsBlank (b : List Char) : Prop := ∀ c ∈ b, isSpace c = true

/-- The texts of a string behind its opening quote, up to its closing quote. -/
inductive IsStringBody : List Char → Prop
  | close : IsStringBody ['"']
  | plain {c : Char} {t : List Char} (quote : c ≠ '"') (backslash : c ≠ '\\')
      (control : ¬ c.toNat < 0x20) (rest : IsStringBody t) : IsStringBody (c :: t)
  | short {e c : Char} {t : List Char} (escape : shortEscape? e = some c)
      (rest : IsStringBody t) : IsStringBody ('\\' :: e :: t)
  | numbered {a b c d : Char} {n : Nat} {t : List Char} (digits : hexValue4? a b c d = some n)
      (rest : IsStringBody t) : IsStringBody ('\\' :: 'u' :: a :: b :: c :: d :: t)

def IsDigits (ds : List Char) : Prop := ds ≠ [] ∧ ∀ c ∈ ds, (digit? c).isSome = true

/-- The whole part of a number. Only zero begins with a zero. -/
inductive IsWhole : List Char → Prop
  | zero : IsWhole ['0']
  | digits {c : Char} {ds : List Char} (nonzero : c ≠ '0') (h : IsDigits (c :: ds)) :
      IsWhole (c :: ds)

inductive IsFraction : List Char → Prop
  | none : IsFraction []
  | point {ds : List Char} (h : IsDigits ds) : IsFraction ('.' :: ds)

inductive IsExponent : List Char → Prop
  | none : IsExponent []
  | bare {e : Char} {ds : List Char} (letter : e = 'e' ∨ e = 'E') (h : IsDigits ds) :
      IsExponent (e :: ds)
  | signed {e sign : Char} {ds : List Char} (letter : e = 'e' ∨ e = 'E')
      (mark : sign = '+' ∨ sign = '-') (h : IsDigits ds) : IsExponent (e :: sign :: ds)

/-- The texts of a number behind its sign. -/
inductive IsNumber : List Char → Prop
  | mk {w f e : List Char} (whole : IsWhole w) (fraction : IsFraction f) (exponent : IsExponent e) :
      IsNumber (w ++ (f ++ e))

/-- What stands behind a part: more parts, each after a comma, and the mark that closes the bracket. -/
inductive Continues (close : Char) : List (List Char) → List Char → Prop
  | done {b : List Char} (blank : IsBlank b) : Continues close [] (b ++ [close])
  | next {b u t : List Char} {us : List (List Char)} (blank : IsBlank b)
      (more : Continues close us t) : Continues close (u :: us) (b ++ ',' :: (u ++ t))

/-- What stands behind an opening bracket: parts with commas between them, and the closing mark. -/
inductive Encloses (close : Char) : List (List Char) → List Char → Prop
  | empty {b : List Char} (blank : IsBlank b) : Encloses close [] (b ++ [close])
  | parts {u t : List Char} {us : List (List Char)} (more : Continues close us t) :
      Encloses close (u :: us) (u ++ t)

/-- A member of an object, given by its name, behind the opening quote, and the text of its value. -/
inductive IsMember : List Char × List Char → List Char → Prop
  | mk {b s b' u : List Char} (blank : IsBlank b) (name : IsStringBody s) (blank' : IsBlank b') :
      IsMember (s, u) (b ++ '"' :: (s ++ (b' ++ ':' :: u)))

/-- The text of an array, given by the texts of its items. -/
inductive IsArray : List (List Char) → List Char → Prop
  | mk {b t : List Char} {us : List (List Char)} (blank : IsBlank b) (items : Encloses ']' us t) :
      IsArray us (b ++ '[' :: t)

/-- The text of an object, given by the names of its members and the texts of their values. -/
inductive IsObject : List (List Char × List Char) → List Char → Prop
  | mk {b t : List Char} {ms : List (List Char × List Char)} {us : List (List Char)}
      (blank : IsBlank b) (members : List.Forall₂ IsMember ms us) (parts : Encloses '\x7d' us t) :
      IsObject ms (b ++ '\x7b' :: t)

/-- The texts of a value. -/
inductive IsValue : List Char → Prop
  | nullWord {b : List Char} (blank : IsBlank b) : IsValue (b ++ ['n', 'u', 'l', 'l'])
  | trueWord {b : List Char} (blank : IsBlank b) : IsValue (b ++ ['t', 'r', 'u', 'e'])
  | falseWord {b : List Char} (blank : IsBlank b) : IsValue (b ++ ['f', 'a', 'l', 's', 'e'])
  | number {b t : List Char} (blank : IsBlank b) (h : IsNumber t) : IsValue (b ++ t)
  | negative {b t : List Char} (blank : IsBlank b) (h : IsNumber t) : IsValue (b ++ '-' :: t)
  | string {b t : List Char} (blank : IsBlank b) (h : IsStringBody t) : IsValue (b ++ '"' :: t)
  | array {us : List (List Char)} {t : List Char} (h : IsArray us t)
      (items : ∀ u ∈ us, IsValue u) : IsValue t
  | object {ms : List (List Char × List Char)} {t : List Char} (h : IsObject ms t)
      (values : ∀ m ∈ ms, IsValue m.2) : IsValue t

/-- The text of an array of values. -/
structure IsArrayOf (us : List (List Char)) (t : List Char) : Prop where
  outline : IsArray us t
  values : ∀ u ∈ us, IsValue u

/-- The text of an object of values. -/
structure IsObjectOf (ms : List (List Char × List Char)) (t : List Char) : Prop where
  outline : IsObject ms t
  values : ∀ m ∈ ms, IsValue m.2

/-- The text of null. -/
def IsNull (t : List Char) : Prop := ∃ b, IsBlank b ∧ t = b ++ ['n', 'u', 'l', 'l']

/-- The name of a member, given by its text. -/
def Named (name : String) (m : List Char × List Char) : Prop := SpellsString name.toList m.1

/-- A text has another one as the value of its member of a name or, if it is an array, as its item at
a place. -/
inductive HasPart (name : String) (index : Nat) (t u : List Char) : Prop
  | member {ms : List (List Char × List Char)} {s : List Char} (object : IsObjectOf ms t)
      (h : (s, u) ∈ ms) (named : Named name (s, u))
  | item {us : List (List Char)} (array : IsArrayOf us t) (h : us[index]? = some u)

/-- No two members of an object have the name. -/
def Once (name : String) (ms : List (List Char × List Char)) : Prop :=
  ms.Pairwise fun m m' => ¬ (Named name m ∧ Named name m')

theorem isBlank_nil : IsBlank [] := fun _ h => nomatch h

theorem IsBlank.cons {c : Char} {b : List Char} (hc : isSpace c = true) (h : IsBlank b) :
    IsBlank (c :: b) := List.forall_mem_cons.2 ⟨hc, h⟩

section Blanks

variable {c : Char} {t : List Char} (hc : isSpace c = true)

include hc

theorem Continues.blank {close : Char} {us : List (List Char)} (h : Continues close us t) :
    Continues close us (c :: t) := by
  cases h with
  | done blank => exact .done (blank.cons hc)
  | next blank more => exact .next (blank.cons hc) more

theorem IsMember.blank {m : List Char × List Char} (h : IsMember m t) : IsMember m (c :: t) := by
  cases h with
  | mk blank name blank' => exact .mk (blank.cons hc) name blank'

theorem IsValue.blank (h : IsValue t) : IsValue (c :: t) := by
  cases h with
  | nullWord blank => exact .nullWord (blank.cons hc)
  | trueWord blank => exact .trueWord (blank.cons hc)
  | falseWord blank => exact .falseWord (blank.cons hc)
  | number blank h => exact .number (blank.cons hc) h
  | negative blank h => exact .negative (blank.cons hc) h
  | string blank h => exact .string (blank.cons hc) h
  | array h items =>
    obtain ⟨blank, parts⟩ := h
    exact .array (.mk (blank.cons hc) parts) items
  | object h values =>
    obtain ⟨blank, members, parts⟩ := h
    exact .object (.mk (blank.cons hc) members parts) values

end Blanks

theorem Continues.encloses {close : Char} {t : List Char} (h : Continues close [] t) :
    Encloses close [] t := by
  cases h with
  | done blank => exact .empty blank

theorem SpellsString.isStringBody {s t : List Char} (h : SpellsString s t) : IsStringBody t := by
  induction h with
  | nil => exact .close
  | plain quote backslash control _ ih => exact .plain quote backslash control ih
  | short escape _ ih => exact .short escape ih
  | numbered digits _ _ _ ih => exact .numbered digits ih
  | paired first _ second _ _ ih => exact .numbered first (.numbered second ih)

theorem isNumber_toDigits (n : Nat) : IsNumber (Nat.toDigits 10 n) := by
  suffices hwhole : IsWhole (Nat.toDigits 10 n) by
    have h := IsNumber.mk hwhole .none .none
    rwa [List.append_nil, List.append_nil] at h
  have hdigits : ∀ c ∈ Nat.toDigits 10 n, (digit? c).isSome = true := fun c =>
    isSome_digit?_of_mem_toDigits
  obtain ⟨d, u, hd, hu, hzero⟩ := toDigits_eq_cons n
  rw [hu] at hdigits ⊢
  by_cases h : d = 0
  · obtain ⟨-, rfl⟩ := hzero h
    subst h
    exact .zero
  · have hne : ∀ d : Fin 10, d.val ≠ 0 → d.val.digitChar ≠ '0' := by decide
    exact .digits (hne ⟨d, hd⟩ h) ⟨List.cons_ne_nil _ _, hdigits⟩

/-- The texts of a phrase, whatever it spells. -/
def Phrase.Fits : Phrase → List Char → Prop
  | .value _, t => IsValue t
  | .content _, t => ∃ b u, IsBlank b ∧ IsValue u ∧ t = b ++ ':' :: u
  | .member _ _, t => ∃ m, IsMember m t ∧ IsValue m.2
  | .items vs, t => ∃ us, Continues ']' us t ∧ us.length = vs.length ∧ ∀ u ∈ us, IsValue u
  | .members vs, t => ∃ ms us, List.Forall₂ IsMember ms us ∧ Continues '\x7d' us t ∧
    ms.length = vs.length ∧ ∀ m ∈ ms, IsValue m.2

theorem Spells.fits {p : Phrase} {t : List Char} (h : Spells p t) : p.Fits t := by
  induction h with
  | @blank c p t hc _ ih =>
    cases p with
    | value v => exact IsValue.blank hc ih
    | content v =>
      obtain ⟨b, u, hb, hu, rfl⟩ := ih
      exact ⟨c :: b, u, hb.cons hc, hu, rfl⟩
    | member name v =>
      obtain ⟨m, hm, hvalue⟩ := ih
      exact ⟨m, hm.blank hc, hvalue⟩
    | items vs =>
      obtain ⟨us, hus, hvalues⟩ := ih
      exact ⟨us, hus.blank hc, hvalues⟩
    | members ms =>
      obtain ⟨ms, us, hms, hus, hvalues⟩ := ih
      exact ⟨ms, us, hms, hus.blank hc, hvalues⟩
  | nullWord => exact IsValue.nullWord isBlank_nil
  | trueWord => exact IsValue.trueWord isBlank_nil
  | falseWord => exact IsValue.falseWord isBlank_nil
  | whole n => exact IsValue.number isBlank_nil (isNumber_toDigits n)
  | negative n => exact IsValue.negative isBlank_nil (isNumber_toDigits n)
  | string body => exact IsValue.string isBlank_nil body.isStringBody
  | emptyArray _ ih =>
    obtain ⟨us, hus, hlen, hvalues⟩ := ih
    obtain rfl := List.eq_nil_of_length_eq_zero hlen
    exact IsValue.array (.mk isBlank_nil hus.encloses) hvalues
  | array _ _ ih ihm =>
    obtain ⟨us, hus, -, hvalues⟩ := ihm
    exact IsValue.array (.mk isBlank_nil (.parts hus)) (List.forall_mem_cons.2 ⟨ih, hvalues⟩)
  | noItem => exact ⟨[], .done isBlank_nil, rfl, by simp⟩
  | item _ _ ih ihm =>
    obtain ⟨us, hus, hlen, hvalues⟩ := ihm
    exact ⟨_ :: us, .next isBlank_nil hus, congrArg (· + 1) hlen,
      List.forall_mem_cons.2 ⟨ih, hvalues⟩⟩
  | emptyObject _ ih =>
    obtain ⟨ms, us, hms, hus, hlen, hvalues⟩ := ih
    obtain rfl := List.eq_nil_of_length_eq_zero hlen
    cases hms
    exact IsValue.object (.mk isBlank_nil .nil hus.encloses) hvalues
  | object _ _ ih ihm =>
    obtain ⟨m, hm, hvalue⟩ := ih
    obtain ⟨ms, us, hms, hus, -, hvalues⟩ := ihm
    exact IsValue.object (.mk isBlank_nil (.cons hm hms) (.parts hus))
      (List.forall_mem_cons.2 ⟨hvalue, hvalues⟩)
  | noMember => exact ⟨[], [], .nil, .done isBlank_nil, rfl, by simp⟩
  | nextMember _ _ ih ihm =>
    obtain ⟨m, hm, hvalue⟩ := ih
    obtain ⟨ms, us, hms, hus, hlen, hvalues⟩ := ihm
    exact ⟨m :: ms, _ :: us, .cons hm hms, .next isBlank_nil hus, congrArg (· + 1) hlen,
      List.forall_mem_cons.2 ⟨hvalue, hvalues⟩⟩
  | member body _ ih =>
    obtain ⟨b, u, hb, hu, rfl⟩ := ih
    exact ⟨_, .mk isBlank_nil body.isStringBody hb, hu⟩
  | content _ ih => exact ⟨[], _, isBlank_nil, ih, rfl⟩

/-- Every spelling of a value is the text of a value. -/
theorem Spells.isValue {v : Json} {t : List Char} (h : Spells (.value v) t) : IsValue t := h.fits

/-- Every spelling of an object is the text of one with as many members. -/
theorem Spells.exists_members {vs : List (String × Json)} {t : List Char}
    (h : Spells (.value (.object vs)) t) : ∃ ms, IsObjectOf ms t ∧ ms.length = vs.length := by
  generalize hp : Phrase.value (.object vs) = p at h
  induction h with
  | blank hc _ ih =>
    obtain ⟨ms, ⟨⟨blank, members, parts⟩, hvalues⟩, hlen⟩ := ih hp
    exact ⟨ms, ⟨.mk (blank.cons hc) members parts, hvalues⟩, hlen⟩
  | emptyObject close _ =>
    cases hp
    obtain ⟨ms, us, hms, hus, hlen, hvalues⟩ := close.fits
    obtain rfl := List.eq_nil_of_length_eq_zero hlen
    cases hms
    exact ⟨[], ⟨.mk isBlank_nil .nil hus.encloses, hvalues⟩, rfl⟩
  | object first more _ _ =>
    cases hp
    obtain ⟨m, hm, hvalue⟩ := first.fits
    obtain ⟨ms, us, hms, hus, hlen, hvalues⟩ := more.fits
    exact ⟨m :: ms, ⟨.mk isBlank_nil (.cons hm hms) (.parts hus),
      List.forall_mem_cons.2 ⟨hvalue, hvalues⟩⟩, congrArg (· + 1) hlen⟩
  | _ => cases hp

end JobGateway.Json
