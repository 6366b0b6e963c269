import JobGateway.Text.Blank
import Mathlib.Data.List.DropRight

/-! Texts without the blanks around them. Blanks in front of a text or behind it make no difference
to what is left, and what is left has none at its ends. -/
namespace JobGateway.Text

/-- A text that neither begins nor ends with a blank. -/
structure IsBare (s : List Char) : Prop where
  head : ∀ c, s.head? = some c → isBlank c = false
  last : ∀ c, s.getLast? = some c → isBlank c = false

theorem isBare_iff {s : List Char} : IsBare s ↔
    (s.head?.all fun c => !isBlank c) = true ∧ (s.getLast?.all fun c => !isBlank c) = true := by
  simp only [Option.all_eq_true, Bool.not_eq_true']
  exact ⟨fun h => ⟨h.head, h.last⟩, fun h => ⟨h.1, h.2⟩⟩

instance (s : List Char) : Decidable (IsBare s) := decidable_of_iff' _ isBare_iff

variable {s front back : List Char}

theorem allBlank_iff : allBlank s = true ↔ ∀ c ∈ s, isBlank c = true := List.all_eq_true

theorem trimRight_append_blank (s : List Char) (h : allBlank back = true) :
    trimRight (s ++ back) = trimRight s := by
  rw [allBlank_iff] at h
  rw [trimRight, List.reverse_append,
    List.dropWhile_append_of_pos fun c hc => h c (List.mem_reverse.1 hc), ← trimRight]

theorem trimRight_isPrefix (s : List Char) : trimRight s <+: s := s.rdropWhile_prefix isBlank

/-- Blanks are taken off behind the last character that is none. -/
theorem trimRight_append (s : List Char) (h : allBlank back = false) :
    trimRight (s ++ back) = s ++ trimRight back := by
  have hne : (back.reverse.dropWhile isBlank).isEmpty = false := by
    rw [List.isEmpty_eq_false_iff, Ne, List.dropWhile_eq_nil_iff]
    intro hall
    rw [allBlank, List.all_eq_false] at h
    obtain ⟨c, hc, hblank⟩ := h
    exact hblank (hall c (List.mem_reverse.2 hc))
  rw [trimRight, List.reverse_append, List.dropWhile_append, hne, if_neg Bool.false_ne_true,
    List.reverse_append, List.reverse_reverse, trimRight]

/-- What is left of a text that is not all blank ends in a character that is not. -/
theorem exists_not_isBlank (h : allBlank s = false) : ∃ c ∈ trimRight s, isBlank c = false := by
  have hne : trimRight s ≠ [] := by
    intro hnil
    rw [allBlank_iff.2 (List.rdropWhile_eq_nil_iff.1 hnil)] at h
    cases h
  have hlast := List.rdropWhile_last_not isBlank s hne
  exact ⟨_, List.getLast_mem hne, Bool.eq_false_iff.2 hlast⟩

theorem trim_blank_append (h : allBlank front = true) (s : List Char) :
    trim (front ++ s) = trim s := by
  rw [trim, List.dropWhile_append_of_pos (allBlank_iff.1 h), ← trim]

theorem trim_append_blank (s : List Char) (h : allBlank back = true) :
    trim (s ++ back) = trim s := by
  have hback : back.dropWhile isBlank = [] := List.dropWhile_eq_nil_iff.2 (allBlank_iff.1 h)
  rw [trim, trim, List.dropWhile_append, hback]
  cases s.dropWhile isBlank with
  | nil => rfl
  | cons c rest => exact trimRight_append_blank (c :: rest) h

theorem trim_of_allBlank (h : allBlank s = true) : trim s = [] := trim_append_blank [] h

theorem IsBare.trim_eq (h : IsBare s) : trim s = s := by
  have hfront : s.dropWhile isBlank = s := by
    cases s with
    | nil => rfl
    | cons c rest => exact List.dropWhile_cons_of_neg (Bool.eq_false_iff.1 (h.head c rfl))
  rw [trim, hfront]
  refine (List.rdropWhile_eq_self_iff (p := isBlank)).2 fun hne => ?_
  exact Bool.eq_false_iff.1 (h.last _ (List.getLast?_eq_some_getLast hne))

theorem trim_isPrefix (s : List Char) : trim s <+: s.dropWhile isBlank := trimRight_isPrefix _

theorem mem_of_mem_trim {c : Char} (h : c ∈ trim s) : c ∈ s :=
  (List.dropWhile_suffix isBlank).subset ((trim_isPrefix s).subset h)

theorem isBare_trim (s : List Char) : IsBare (trim s) where
  head c hc := by
    obtain ⟨rest, hrest⟩ := trim_isPrefix s
    have hhead : (s.dropWhile isBlank).head? = some c := by rw [← hrest, List.head?_append, hc]; rfl
    have hnot := List.head?_dropWhile_not isBlank s
    rw [hhead] at hnot
    exact hnot
  last c hc := by
    have hne : trim s ≠ [] := by
      intro hnil
      rw [hnil] at hc
      cases hc
    rw [List.getLast?_eq_some_getLast hne] at hc
    obtain rfl := Option.some.inj hc
    exact Bool.eq_false_iff.2 (List.rdropWhile_last_not isBlank _ hne)

end JobGateway.Text
