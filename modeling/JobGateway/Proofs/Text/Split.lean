import JobGateway.Text.Split
import Mathlib.Tactic.Common

/-! Splitting undoes joining at a separator, and cutting stops at the first one. -/
namespace JobGateway.Text

variable {α : Type} [DecidableEq α]

theorem split_eq_splitOn (separator : α) (s : List α) : split separator s = s.splitOn separator := by
  induction s with
  | nil => rfl
  | cons a s ih =>
    rw [List.splitOn_cons_eq_if_modifyHead, ← ih, split]
    by_cases h : a = separator
    · simp [h]
    · obtain ⟨piece, pieces, hs⟩ := List.exists_cons_of_ne_nil (split_ne_nil separator s)
      simp [h, hs, consFirst]

theorem split_append_cons {separator : α} {piece : List α} (h : separator ∉ piece) (rest : List α) :
    split separator (piece ++ separator :: rest) = piece :: split separator rest := by
  induction piece with
  | nil => simp [split]
  | cons a piece ih =>
    rw [List.mem_cons, not_or] at h
    rw [List.cons_append, split, ih h.2, if_neg (Ne.symm h.1)]
    rfl

theorem split_of_not_mem {separator : α} {s : List α} (h : separator ∉ s) :
    split separator s = [s] := by
  rw [split_eq_splitOn, List.splitOn_eq_singleton h]

theorem split_intercalate (separator : α) {pieces : List (List α)}
    (h : ∀ piece ∈ pieces, separator ∉ piece) (hne : pieces ≠ []) :
    split separator ([separator].intercalate pieces) = pieces := by
  rw [split_eq_splitOn, List.splitOn_intercalate separator h hne]

theorem mem_of_mem_intercalate {α : Type} {separator a : α} {pieces : List (List α)}
    (h : a ∈ [separator].intercalate pieces) : a = separator ∨ ∃ piece ∈ pieces, a ∈ piece := by
  induction pieces with
  | nil => cases h
  | cons piece pieces ih =>
    cases pieces with
    | nil =>
      rw [List.intercalate_singleton] at h
      exact .inr ⟨piece, List.mem_cons_self, h⟩
    | cons piece' pieces =>
      rw [List.intercalate_cons_cons, List.mem_append, List.mem_append, List.mem_singleton] at h
      obtain (h | h) | h := h
      · exact .inr ⟨piece, List.mem_cons_self, h⟩
      · exact .inl h
      · exact (ih h).imp id fun ⟨p, hp, ha⟩ => ⟨p, List.mem_cons_of_mem _ hp, ha⟩

theorem map_intercalate {α β : Type} (f : α → β) (separator : List α) (pieces : List (List α)) :
    (separator.intercalate pieces).map f =
      (separator.map f).intercalate (pieces.map (List.map f)) := by
  induction pieces with
  | nil => rfl
  | cons piece pieces ih =>
    cases pieces with
    | nil => simp
    | cons piece' pieces =>
      rw [List.intercalate_cons_cons, List.map_append, List.map_append, ih, List.map_cons,
        List.map_cons, List.map_cons, List.intercalate_cons_cons]

section

variable {separator : α} {s piece : List α}

theorem not_mem_of_mem_split (h : piece ∈ split separator s) : separator ∉ piece := by
  induction s generalizing piece with
  | nil =>
    rw [split, List.mem_singleton] at h
    rw [h]
    exact List.not_mem_nil
  | cons a s ih =>
    obtain ⟨first, pieces, hs⟩ := List.exists_cons_of_ne_nil (split_ne_nil separator s)
    simp only [split, hs, consFirst] at h ih
    split at h
    · obtain rfl | h := List.mem_cons.1 h
      · exact List.not_mem_nil
      · exact ih h
    · next hne =>
      obtain rfl | h := List.mem_cons.1 h
      · rw [List.mem_cons, not_or]
        exact ⟨Ne.symm hne, ih List.mem_cons_self⟩
      · exact ih (List.mem_cons_of_mem _ h)

theorem cutAt_append_cons (h : separator ∉ s) (rest : List α) :
    cutAt separator (s ++ separator :: rest) = (s, some rest) := by
  induction s with
  | nil => simp [cutAt]
  | cons a s ih =>
    rw [List.mem_cons, not_or] at h
    rw [List.cons_append, cutAt, if_neg (Ne.symm h.1), ih h.2]

theorem cutAt_of_not_mem (h : separator ∉ s) : cutAt separator s = (s, none) := by
  induction s with
  | nil => rfl
  | cons a s ih =>
    rw [List.mem_cons, not_or] at h
    rw [cutAt, if_neg (Ne.symm h.1), ih h.2]

/-- What does not separate stays in front. -/
theorem cutAt_cons {a : α} (h : a ≠ separator) :
    (cutAt separator (a :: s)).1 = a :: (cutAt separator s).1 := by
  rw [cutAt, if_neg h]

theorem mem_of_mem_strip {a b : α} (h : b ∈ strip a s) : b ∈ s := by
  rw [strip, List.mem_reverse] at h
  have hfront := List.mem_reverse.1 ((List.dropWhile_sublist _).subset h)
  exact (List.dropWhile_sublist _).subset hfront

end

end JobGateway.Text
