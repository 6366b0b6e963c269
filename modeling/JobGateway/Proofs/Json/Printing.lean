import JobGateway.Proofs.Json.Spelling
import JobGateway.Proofs.Json.WholeNumber
import JobGateway.Proofs.Text.Utf8

/-! The compact text of a value is one line: it has no control characters, and neither have its
bytes. -/
namespace JobGateway

/-- Whether a text has no control characters below the blank. -/
def IsLine (t : List Char) : Prop := ∀ c ∈ t, 0x20 ≤ c.toNat

instance (t : List Char) : Decidable (IsLine t) :=
  decidable_of_iff (t.all fun c => 0x20 ≤ c.toNat) (by simp [IsLine])

theorem isLine_append {s t : List Char} : IsLine (s ++ t) ↔ IsLine s ∧ IsLine t :=
  List.forall_mem_append

theorem isLine_cons {c : Char} {t : List Char} : IsLine (c :: t) ↔ 0x20 ≤ c.toNat ∧ IsLine t :=
  List.forall_mem_cons

theorem isLine_nil : IsLine [] := by
  rintro c ⟨⟩

namespace Json

theorem isLine_numberedEscape {n : Nat} (h : n < 0x20) : IsLine (numberedEscape n) := by
  have hall : ∀ n : Fin 0x20, IsLine (numberedEscape n.val) := by decide
  exact hall ⟨n, h⟩

theorem isLine_escape (c : Char) : IsLine (escape c) := by
  unfold escape
  split
  iterate 7 decide
  split
  · next hc => exact isLine_numberedEscape hc
  · next hc =>
    intro c' hc'
    rw [List.mem_singleton] at hc'
    subst hc'
    omega

theorem isLine_renderString (s : String) : IsLine (renderString s) := by
  rw [renderString, isLine_append, isLine_cons]
  refine ⟨⟨by decide, ?_⟩, by decide⟩
  intro c hc
  obtain ⟨a, -, ha⟩ := List.mem_flatMap.1 hc
  exact isLine_escape a c ha

theorem isLine_toDigits (n : Nat) : IsLine (Nat.toDigits 10 n) := by
  intro c hc
  have hdigit := isSome_digit?_of_mem_toDigits hc
  unfold digit? at hdigit
  split_ifs at hdigit with h
  · have hle : '0'.toNat ≤ c.toNat := h.1
    have hzero : '0'.toNat = 0x30 := rfl
    omega
  · cases hdigit

theorem isLine_renderNumber {d : Nat} {n : Number} (h : Plain d (.number n)) :
    IsLine (renderNumber n) := by
  cases n with
  | natural n => exact isLine_toDigits n.toNat
  | negative n => exact isLine_cons.2 ⟨by decide, isLine_toDigits n.toNat⟩
  | binary64 bits => cases d <;> exact absurd h (by simp [Plain])

theorem isLine_renderItems {vs : List Json} (h : ∀ v ∈ vs, IsLine (render v)) :
    IsLine (renderItems vs) := by
  induction vs with
  | nil => exact isLine_nil
  | cons v vs ih =>
    rw [renderItems, isLine_append, isLine_cons]
    exact ⟨⟨by decide, h v (by simp)⟩, ih fun w hw => h w (by simp [hw])⟩

theorem isLine_renderMembers {ms : List (String × Json)} (h : ∀ m ∈ ms, IsLine (render m.2)) :
    IsLine (renderMembers ms) := by
  induction ms with
  | nil => exact isLine_nil
  | cons m ms ih =>
    obtain ⟨name, v⟩ := m
    rw [renderMembers, isLine_append, isLine_append, isLine_cons, isLine_cons]
    have hv := h (name, v) (by simp)
    exact ⟨⟨⟨by decide, isLine_renderString name⟩, by decide, hv⟩, ih fun w hw => h w (by simp [hw])⟩

/-- The compact text of a value is a line. -/
theorem isLine_render {d : Nat} {v : Json} (h : Plain d v) : IsLine (render v) := by
  induction d generalizing v with
  | zero =>
    cases v with
    | null => decide
    | bool b => cases b <;> decide
    | number n => exact isLine_renderNumber h
    | string s => exact isLine_renderString s
    | array vs => cases h
    | object ms => cases h
  | succ d ih =>
    cases v with
    | null => decide
    | bool b => cases b <;> decide
    | number n => exact isLine_renderNumber h
    | string s => exact isLine_renderString s
    | array vs =>
      cases vs with
      | nil => decide
      | cons v vs =>
        have hvs := isLine_renderItems fun w hw => ih (h w (List.mem_cons_of_mem v hw))
        have hv := ih (h v (by simp))
        rw [render, isLine_append, isLine_append, isLine_cons]
        exact ⟨⟨⟨by decide, hv⟩, hvs⟩, by decide⟩
    | object ms =>
      cases ms with
      | nil => decide
      | cons m ms =>
        obtain ⟨name, v⟩ := m
        have hms := isLine_renderMembers fun m hm => ih (h m (List.mem_cons_of_mem (name, v) hm))
        have hv := ih (h (name, v) (by simp))
        rw [render, isLine_append, isLine_append, isLine_append, isLine_cons, isLine_cons]
        exact ⟨⟨⟨⟨by decide, isLine_renderString name⟩, by decide, hv⟩, hms⟩, by decide⟩

/-- The text of an object begins and ends with its brackets. -/
theorem render_object (ms : List (String × Json)) :
    ∃ t, render (.object ms) = '\x7b' :: (t ++ ['\x7d']) := by
  cases ms with
  | nil => exact ⟨[], rfl⟩
  | cons m ms =>
    obtain ⟨name, v⟩ := m
    rw [render]
    exact ⟨_, rfl⟩

end Json

namespace Utf8

theorem Encodes.ge {bs : List UInt8} {n : Nat} (h : Encodes bs n) (hn : 0x20 ≤ n) :
    ∀ b ∈ bs, 0x20 ≤ b.toNat := by
  intro b hb
  cases h with
  | one ha =>
    rw [List.mem_singleton] at hb
    subst hb
    exact hn
  | two ha hb' =>
    simp only [List.mem_cons, List.not_mem_nil, or_false] at hb
    have := hb'.1
    obtain rfl | rfl := hb <;> omega
  | three ha hb' _ _ hc =>
    simp only [List.mem_cons, List.not_mem_nil, or_false] at hb
    have := hb'.1
    have := hc.1
    obtain rfl | rfl | rfl := hb <;> omega
  | four ha hb' _ _ hc hd =>
    simp only [List.mem_cons, List.not_mem_nil, or_false] at hb
    have := hb'.1
    have := hc.1
    have := hd.1
    obtain rfl | rfl | rfl | rfl := hb <;> omega

/-- The bytes of a line are no control characters. -/
theorem ge_of_mem_encode {t : List Char} (h : IsLine t) {b : UInt8} (hb : b ∈ encode t) :
    0x20 ≤ b.toNat := by
  obtain ⟨c, hc, hbc⟩ := List.mem_flatMap.1 hb
  exact (encodes_utf8EncodeChar c).ge (h c hc) b hbc

end Utf8

end JobGateway
