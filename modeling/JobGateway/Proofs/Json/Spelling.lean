import JobGateway.Json.Writer
import JobGateway.Proofs.Json.WholeNumber

/-! The texts that spell a JSON value. Blanks may stand before every word, and a string may be
written with any escapes. Numbers are whole, of any size, in their shortest form. The compact text of
a value is one of its spellings. -/
namespace JobGateway.Json

/-- The texts of a string behind its opening quote, up to its closing quote. -/
inductive SpellsString : List Char → List Char → Prop
  | nil : SpellsString [] ['"']
  | plain {c : Char} {s t : List Char} (quote : c ≠ '"') (backslash : c ≠ '\\')
      (control : ¬ c.toNat < 0x20) (rest : SpellsString s t) : SpellsString (c :: s) (c :: t)
  | short {e c : Char} {s t : List Char} (escape : shortEscape? e = some c)
      (rest : SpellsString s t) : SpellsString (c :: s) ('\\' :: e :: t)
  | numbered {a b c d : Char} {n : Nat} {s t : List Char} (digits : hexValue4? a b c d = some n)
      (trailing : isTrailing n = false) (leading : isLeading n = false)
      (rest : SpellsString s t) :
      SpellsString (Char.ofNat n :: s) ('\\' :: 'u' :: a :: b :: c :: d :: t)
  | paired {a b c d e f g h : Char} {n m : Nat} {s t : List Char}
      (first : hexValue4? a b c d = some n) (leading : isLeading n = true)
      (second : hexValue4? e f g h = some m) (trailing : isTrailing m = true)
      (rest : SpellsString s t) :
      SpellsString (pairValue n m :: s)
        ('\\' :: 'u' :: a :: b :: c :: d :: '\\' :: 'u' :: e :: f :: g :: h :: t)

/-- What a stretch of text may spell: a value, a member, what follows the name of a member, or the
items or members that follow another one, with the closing bracket. -/
inductive Phrase where
  | value (v : Json)
  | content (v : Json)
  | member (name : String) (v : Json)
  | items (vs : List Json)
  | members (ms : List (String × Json))

inductive Spells : Phrase → List Char → Prop
  | blank {c : Char} {p : Phrase} {t : List Char} (hc : isSpace c = true) (rest : Spells p t) :
      Spells p (c :: t)
  | nullWord : Spells (.value .null) ['n', 'u', 'l', 'l']
  | trueWord : Spells (.value (.bool true)) ['t', 'r', 'u', 'e']
  | falseWord : Spells (.value (.bool false)) ['f', 'a', 'l', 's', 'e']
  | whole (n : Nat) : Spells (.value (.number (wholeNumber false n))) (Nat.toDigits 10 n)
  | negative (n : Nat) : Spells (.value (.number (wholeNumber true n))) ('-' :: Nat.toDigits 10 n)
  | string {s : String} {t : List Char} (body : SpellsString s.toList t) :
      Spells (.value (.string s)) ('"' :: t)
  | emptyArray {t : List Char} (close : Spells (.items []) t) :
      Spells (.value (.array [])) ('[' :: t)
  | array {v : Json} {vs : List Json} {s t : List Char} (first : Spells (.value v) s)
      (more : Spells (.items vs) t) : Spells (.value (.array (v :: vs))) ('[' :: (s ++ t))
  | noItem : Spells (.items []) [']']
  | item {v : Json} {vs : List Json} {s t : List Char} (next : Spells (.value v) s)
      (more : Spells (.items vs) t) : Spells (.items (v :: vs)) (',' :: (s ++ t))
  | emptyObject {t : List Char} (close : Spells (.members []) t) :
      Spells (.value (.object [])) ('\x7b' :: t)
  | object {name : String} {v : Json} {ms : List (String × Json)} {s t : List Char}
      (first : Spells (.member name v) s) (more : Spells (.members ms) t) :
      Spells (.value (.object ((name, v) :: ms))) ('\x7b' :: (s ++ t))
  | noMember : Spells (.members []) ['\x7d']
  | nextMember {name : String} {v : Json} {ms : List (String × Json)} {s t : List Char}
      (next : Spells (.member name v) s) (more : Spells (.members ms) t) :
      Spells (.members ((name, v) :: ms)) (',' :: (s ++ t))
  | member {name : String} {v : Json} {s t : List Char} (body : SpellsString name.toList s)
      (content : Spells (.content v) t) : Spells (.member name v) ('"' :: (s ++ t))
  | content {v : Json} {t : List Char} (value : Spells (.value v) t) :
      Spells (.content v) (':' :: t)

/-- A value without fractions that has at most so many brackets inside one another. -/
def Plain : Nat → Json → Prop
  | _, .number (.negative n) => n.toNat ≠ 0 ∧ n.toNat ≤ Nat.pow 2 63
  | _, .number (.binary64 _) => False
  | 0, .array _ => False
  | 0, .object _ => False
  | depth + 1, .array vs => ∀ v ∈ vs, Plain depth v
  | depth + 1, .object ms => ∀ m ∈ ms, Plain depth m.2
  | _, _ => True

@[simp] theorem plain_null (d : Nat) : Plain d .null := by cases d <;> trivial

@[simp] theorem plain_string (d : Nat) (s : String) : Plain d (.string s) := by cases d <;> trivial

@[simp] theorem plain_array (d : Nat) (vs : List Json) :
    Plain (d + 1) (.array vs) ↔ ∀ v ∈ vs, Plain d v := Iff.rfl

@[simp] theorem plain_object (d : Nat) (ms : List (String × Json)) :
    Plain (d + 1) (.object ms) ↔ ∀ m ∈ ms, Plain d m.2 := Iff.rfl

@[simp] theorem plain_strings (d : Nat) (items : List String) : Plain (d + 1) (strings items) := by
  simp [strings]

theorem Plain.succ {d : Nat} {v : Json} (h : Plain d v) : Plain (d + 1) v := by
  induction d generalizing v with
  | zero =>
    cases v with
    | number n => cases n <;> exact h
    | array vs => exact absurd h (by simp [Plain])
    | object ms => exact absurd h (by simp [Plain])
    | _ => trivial
  | succ d ih =>
    cases v with
    | number n => cases n <;> exact h
    | array vs => exact fun v hv => ih (h v hv)
    | object ms => exact fun m hm => ih (h m hm)
    | _ => trivial

theorem Plain.mono {d e : Nat} {v : Json} (hde : d ≤ e) (h : Plain d v) : Plain e v := by
  induction hde with
  | refl => exact h
  | step _ ih => exact ih.succ

/-- A value without a number beyond the finite ones that has at most so many brackets inside one
another. -/
def Readable : Nat → Json → Prop
  | _, .number (.binary64 bits) => bits ≠ infinite
  | 0, .array _ => False
  | 0, .object _ => False
  | depth + 1, .array vs => ∀ v ∈ vs, Readable depth v
  | depth + 1, .object ms => ∀ m ∈ ms, Readable depth m.2
  | _, _ => True

@[simp] theorem readable_null (d : Nat) : Readable d .null := by cases d <;> trivial

@[simp] theorem readable_bool (d : Nat) (b : Bool) : Readable d (.bool b) := by cases d <;> trivial

@[simp] theorem readable_string (d : Nat) (s : String) : Readable d (.string s) := by
  cases d <;> trivial

@[simp] theorem readable_number (d : Nat) (n : Number) :
    Readable d (.number n) ↔ n ≠ .binary64 infinite := by
  cases d <;> cases n <;> simp [Readable]

@[simp] theorem readable_array (d : Nat) (vs : List Json) :
    Readable (d + 1) (.array vs) ↔ ∀ v ∈ vs, Readable d v := Iff.rfl

@[simp] theorem readable_object (d : Nat) (ms : List (String × Json)) :
    Readable (d + 1) (.object ms) ↔ ∀ m ∈ ms, Readable d m.2 := Iff.rfl

theorem Plain.readable {d : Nat} {v : Json} (h : Plain d v) : Readable d v := by
  induction d generalizing v with
  | zero =>
    cases v with
    | number n => cases n <;> trivial
    | array vs => exact absurd h (by simp [Plain])
    | object ms => exact absurd h (by simp [Plain])
    | _ => trivial
  | succ d ih =>
    cases v with
    | number n => cases n <;> trivial
    | array vs => exact fun v hv => ih (h v hv)
    | object ms => exact fun m hm => ih (h m hm)
    | _ => trivial

theorem Readable.succ {d : Nat} {v : Json} (h : Readable d v) : Readable (d + 1) v := by
  induction d generalizing v with
  | zero =>
    cases v with
    | number n => cases n <;> exact h
    | array vs => exact absurd h (by simp [Readable])
    | object ms => exact absurd h (by simp [Readable])
    | _ => trivial
  | succ d ih =>
    cases v with
    | number n => cases n <;> exact h
    | array vs => exact fun v hv => ih (h v hv)
    | object ms => exact fun m hm => ih (h m hm)
    | _ => trivial

theorem Readable.mono {d e : Nat} {v : Json} (hde : d ≤ e) (h : Readable d v) : Readable e v := by
  induction hde with
  | refl => exact h
  | step _ ih => exact ih.succ

/-- The escape of a control character by its number stands for the character. -/
theorem hexValue4?_control (n : Fin 32) :
    hexValue4? '0' '0' (Text.hexDigit (Text.nibble (n.val / 16)))
      (Text.hexDigit (Text.nibble n.val)) = some n.val := by
  revert n
  decide

/-- One character is spelled by its escape. -/
theorem SpellsString.escape (c : Char) {s t : List Char} (h : SpellsString s t) :
    SpellsString (c :: s) (Json.escape c ++ t) := by
  unfold Json.escape
  split
  · exact .short rfl h
  · exact .short rfl h
  · exact .short rfl h
  · exact .short rfl h
  · exact .short rfl h
  · exact .short rfl h
  · exact .short rfl h
  · next hq hb _ _ _ _ _ =>
    split
    · next hc =>
      have hv := hexValue4?_control ⟨c.toNat, hc⟩
      have ht : isTrailing c.toNat = false := by simp [isTrailing]; omega
      have hl : isLeading c.toNat = false := by simp [isLeading]; omega
      have hs := SpellsString.numbered hv ht hl h
      rwa [Char.ofNat_toNat] at hs
    · next hc => exact .plain hq hb hc h

theorem spellsString_flatMap_escape (s : List Char) :
    SpellsString s (s.flatMap Json.escape ++ ['"']) := by
  induction s with
  | nil => exact .nil
  | cons c s ih =>
    rw [List.flatMap_cons, List.append_assoc]
    exact .escape c ih

/-- The compact text of a string spells it. -/
theorem spells_renderString (s : String) : Spells (.value (.string s)) (renderString s) :=
  .string (spellsString_flatMap_escape s.toList)

theorem spells_member (name : String) {v : Json} {t : List Char} (h : Spells (.value v) t) :
    Spells (.member name v) (renderString name ++ ':' :: t) := by
  have hs := Spells.member (spellsString_flatMap_escape name.toList) (.content h)
  simpa [renderString] using hs

theorem spells_renderItems {vs : List Json} (h : ∀ v ∈ vs, Spells (.value v) (render v)) :
    Spells (.items vs) (renderItems vs ++ [']']) := by
  induction vs with
  | nil => exact .noItem
  | cons v vs ih =>
    have hv := h v (by simp)
    have hvs := ih (fun w hw => h w (by simp [hw]))
    have hs := Spells.item hv hvs
    simpa [renderItems] using hs

theorem spells_renderMembers {ms : List (String × Json)}
    (h : ∀ m ∈ ms, Spells (.value m.2) (render m.2)) :
    Spells (.members ms) (renderMembers ms ++ ['\x7d']) := by
  induction ms with
  | nil => exact .noMember
  | cons m ms ih =>
    obtain ⟨name, v⟩ := m
    have hv := spells_member name (h (name, v) (by simp))
    have hms := ih (fun w hw => h w (by simp [hw]))
    have hs := Spells.nextMember hv hms
    simpa [renderMembers] using hs

theorem spells_render_array {vs : List Json} (h : ∀ v ∈ vs, Spells (.value v) (render v)) :
    Spells (.value (.array vs)) (render (.array vs)) := by
  cases vs with
  | nil => exact .emptyArray .noItem
  | cons v vs =>
    have hvs : Spells (.items vs) _ := spells_renderItems fun w hw => h w (by simp [hw])
    have hs := Spells.array (h v (by simp)) hvs
    simpa [render] using hs

theorem spells_render_object {ms : List (String × Json)}
    (h : ∀ m ∈ ms, Spells (.value m.2) (render m.2)) :
    Spells (.value (.object ms)) (render (.object ms)) := by
  cases ms with
  | nil => exact .emptyObject .noMember
  | cons m ms =>
    obtain ⟨name, v⟩ := m
    have hv := spells_member name (h (name, v) (by simp))
    have hms : Spells (.members ms) _ := spells_renderMembers fun w hw => h w (by simp [hw])
    have hs := Spells.object hv hms
    simpa [render] using hs

theorem toNat_le_maxWord (n : UInt64) : n.toNat ≤ maxWord := by
  have := n.toNat_lt
  simp only [maxWord, Nat.pow_eq]
  omega

theorem wholeNumber_natural (n : UInt64) : wholeNumber false n.toNat = .natural n := by
  simp [wholeNumber, toNat_le_maxWord, whole]

theorem wholeNumber_negative {n : UInt64} (pos : n.toNat ≠ 0) (le : n.toNat ≤ Nat.pow 2 63) :
    wholeNumber true n.toNat = .negative n := by
  simp [wholeNumber, toNat_le_maxWord, whole, pos, le]

theorem spells_renderNumber {d : Nat} {n : Number} (h : Plain d (.number n)) :
    Spells (.value (.number n)) (renderNumber n) := by
  cases n with
  | natural n =>
    have hs := Spells.whole n.toNat
    rwa [wholeNumber_natural] at hs
  | negative n =>
    have h' : n.toNat ≠ 0 ∧ n.toNat ≤ Nat.pow 2 63 := by cases d <;> exact h
    have hs := Spells.negative n.toNat
    rwa [wholeNumber_negative h'.1 h'.2] at hs
  | binary64 bits => cases d <;> exact absurd h (by simp [Plain])

/-- The compact text of a value spells it. -/
theorem spells_render {d : Nat} {v : Json} (h : Plain d v) : Spells (.value v) (render v) := by
  induction d generalizing v with
  | zero =>
    match v, h with
    | .null, _ => exact .nullWord
    | .bool true, _ => exact .trueWord
    | .bool false, _ => exact .falseWord
    | .number _, h => exact spells_renderNumber h
    | .string s, _ => exact spells_renderString s
  | succ d ih =>
    match v, h with
    | .null, _ => exact .nullWord
    | .bool true, _ => exact .trueWord
    | .bool false, _ => exact .falseWord
    | .number _, h => exact spells_renderNumber h
    | .string s, _ => exact spells_renderString s
    | .array _, h => exact spells_render_array fun v hv => ih (h v hv)
    | .object _, h => exact spells_render_object fun m hm => ih (h m hm)

end JobGateway.Json
