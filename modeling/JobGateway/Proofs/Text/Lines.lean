import JobGateway.Text.Lines
import Mathlib.Tactic.Common

/-! The lines of a text with their ends. A text is its lines and their ends, one after the other, and
any of the lines may be taken out with its end: the others stay the lines of the text. Without their
ends the lines still make up the text, but for the carriage returns that the ends hold. -/
namespace JobGateway.Lines

variable {α : Type} {lf cr : α} {parts : List (List α × List α)}

/-- Lines, each with the end that it has in a text: a line feed, behind a carriage return or not, or
the end of the text. -/
inductive Cut (lf cr : α) : List (List α × List α) → Prop
  | nil : Cut lf cr []
  | last {line : List α} (nonempty : line ≠ []) (inside : lf ∉ line) : Cut lf cr [(line, [])]
  | bare {line : List α} {parts : List (List α × List α)} (inside : lf ∉ line)
      (plain : line.getLast? ≠ some cr) (more : Cut lf cr parts) :
      Cut lf cr ((line, [lf]) :: parts)
  | full {line : List α} {parts : List (List α × List α)} (inside : lf ∉ line) (differ : lf ≠ cr)
      (more : Cut lf cr parts) : Cut lf cr ((line, [cr, lf]) :: parts)

/-- The text of lines with their ends. -/
def joined (parts : List (List α × List α)) : List α := parts.flatMap fun part => part.1 ++ part.2

/-- No line goes over a line feed. -/
theorem Cut.not_mem (h : Cut lf cr parts) {part : List α × List α} (hpart : part ∈ parts) :
    lf ∉ part.1 := by
  induction h with
  | nil => cases hpart
  | last nonempty inside =>
    obtain rfl := List.mem_singleton.1 hpart
    exact inside
  | bare inside plain more ih | full inside differ more ih =>
    obtain rfl | hpart := List.mem_cons.1 hpart
    · exact inside
    · exact ih hpart

/-- Lines may be taken out, each with its end. -/
theorem Cut.sublist (h : Cut lf cr parts) {kept : List (List α × List α)}
    (hkept : kept.Sublist parts) : Cut lf cr kept := by
  induction h generalizing kept with
  | nil =>
    cases hkept
    exact .nil
  | last nonempty inside =>
    cases hkept with
    | cons _ hmore =>
      cases hmore
      exact .nil
    | cons_cons _ hmore =>
      cases hmore
      exact .last nonempty inside
  | bare inside plain more ih =>
    cases hkept with
    | cons _ hmore => exact ih hmore
    | cons_cons _ hmore => exact .bare inside plain (ih hmore)
  | full inside differ more ih =>
    cases hkept with
    | cons _ hmore => exact ih hmore
    | cons_cons _ hmore => exact .full inside differ (ih hmore)

theorem exists_cut_begun [DecidableEq α] (cr : α) {begun : List α} (hbegun : lf ∉ begun)
    (text : List α) : ∃ parts, Cut lf cr parts ∧ joined parts = begun ++ text := by
  induction text generalizing begun with
  | nil =>
    by_cases hempty : begun = []
    · exact ⟨[], .nil, by rw [hempty]; rfl⟩
    · exact ⟨[(begun, [])], .last hempty hbegun, by simp [joined]⟩
  | cons c text ih =>
    by_cases hc : c = lf
    · subst hc
      obtain ⟨parts, hcut, hjoined⟩ := ih List.not_mem_nil
      by_cases hlast : begun.getLast? = some cr
      · -- The carriage return before the line feed belongs to the end of the line.
        obtain ⟨line, rfl⟩ := List.getLast?_eq_some_iff.1 hlast
        rw [List.mem_append, not_or, List.mem_singleton] at hbegun
        refine ⟨(line, [cr, c]) :: parts, .full hbegun.1 hbegun.2 hcut, ?_⟩
        rw [joined, List.flatMap_cons, ← joined, hjoined]
        simp
      · refine ⟨(begun, [c]) :: parts, .bare hbegun hlast hcut, ?_⟩
        rw [joined, List.flatMap_cons, ← joined, hjoined]
        simp
    · have hmore : lf ∉ begun ++ [c] := by
        rw [List.mem_append, not_or, List.mem_singleton]
        exact ⟨hbegun, Ne.symm hc⟩
      obtain ⟨parts, hcut, hjoined⟩ := ih hmore
      exact ⟨parts, hcut, by rw [hjoined]; simp⟩

/-- Every text is lines with their ends. -/
theorem exists_cut [DecidableEq α] (lf cr : α) (text : List α) :
    ∃ parts, Cut lf cr parts ∧ joined parts = text :=
  exists_cut_begun cr List.not_mem_nil text

theorem splitFrom_begun [DecidableEq α] {line : List α} (h : lf ∉ line) (done : List (List α))
    (begun rest : List α) :
    splitFrom lf cr done begun (line ++ rest) = splitFrom lf cr done (line.reverse ++ begun) rest := by
  induction line generalizing begun with
  | nil => rfl
  | cons c line ih =>
    rw [List.mem_cons, not_or] at h
    rw [List.cons_append, splitFrom, if_neg (Ne.symm h.1), ih h.2, List.reverse_cons,
      List.append_assoc, List.singleton_append]

theorem close_reverse [DecidableEq α] {line : List α} (h : line.getLast? ≠ some cr) :
    close cr line.reverse = line := by
  rw [← List.head?_reverse] at h
  cases hrev : line.reverse with
  | nil =>
    rw [List.reverse_eq_nil_iff] at hrev
    rw [hrev, close]
  | cons c rest =>
    have hne : c ≠ cr := by
      rintro rfl
      rw [hrev] at h
      exact h rfl
    rw [close, if_neg hne, ← hrev, List.reverse_reverse]

/-- The lines of a text are what it is made of. -/
theorem Cut.split [DecidableEq α] (h : Cut lf cr parts) :
    Lines.split lf cr (joined parts) = parts.map Prod.fst := by
  have hfrom : ∀ done, splitFrom lf cr done [] (joined parts) =
      done.reverse ++ parts.map Prod.fst := by
    induction h with
    | nil => simp [joined, splitFrom]
    | @last line nonempty inside =>
      intro done
      have htext : joined [(line, [])] = line ++ [] := by simp [joined]
      rw [htext, splitFrom_begun inside]
      simp [splitFrom, nonempty]
    | @bare line parts inside plain more ih =>
      intro done
      have htext : joined ((line, [lf]) :: parts) = line ++ lf :: joined parts := by simp [joined]
      rw [htext, splitFrom_begun inside, List.append_nil, splitFrom, if_pos rfl,
        close_reverse plain, ih]
      simp
    | @full line parts inside differ more ih =>
      intro done
      have htext : joined ((line, [cr, lf]) :: parts) = (line ++ [cr]) ++ lf :: joined parts := by
        simp [joined]
      have hline : lf ∉ line ++ [cr] := by
        rw [List.mem_append, not_or, List.mem_singleton]
        exact ⟨inside, differ⟩
      have hclose : close cr (line ++ [cr]).reverse = line := by simp [close]
      rw [htext, splitFrom_begun hline, List.append_nil, splitFrom, if_pos rfl, hclose, ih]
      simp
  exact hfrom []

/-- Finished lines are split where they were joined. -/
theorem split_flatMap [DecidableEq α] {lines : List (List α)}
    (h : ∀ line ∈ lines, lf ∉ line ∧ cr ∉ line) :
    Lines.split lf cr (lines.flatMap (· ++ [lf])) = lines := by
  have hcut : Cut lf cr (lines.map fun line => (line, [lf])) := by
    induction lines with
    | nil => exact .nil
    | cons line lines ih =>
      obtain ⟨hlf, hcr⟩ := h line List.mem_cons_self
      exact .bare hlf (fun hlast => hcr (List.mem_of_getLast? hlast))
        (ih fun l hl => h l (List.mem_cons_of_mem line hl))
  have hsplit := hcut.split
  simp only [joined, List.flatMap_map, List.map_map, Function.comp_def, List.map_id'] at hsplit
  exact hsplit

theorem Cut.joined_eq_nil_iff (h : Cut lf cr parts) :
    joined parts = [] ↔ parts.map Prod.fst = [] := by
  cases h with
  | nil => simp [joined]
  | last nonempty inside => simp [joined, nonempty]
  | bare => simp [joined]
  | full => simp [joined]

section

variable [DecidableEq α]

/-- A text without the carriage returns that stand right before a line feed. -/
def dropReturns (lf cr : α) : List α → List α
  | [] => []
  | c :: text =>
    if c = cr ∧ text.head? = some lf then dropReturns lf cr text else c :: dropReturns lf cr text

/-- The line feed at the end of a text, if there is one. -/
def closing (lf : α) (text : List α) : List α := if text.getLast? = some lf then [lf] else []

/-- A carriage return goes only where it comes before a line feed. -/
theorem dropReturns_append {line : List α} (inside : lf ∉ line) {rest : List α}
    (h : line.getLast? ≠ some cr ∨ rest.head? ≠ some lf) :
    dropReturns lf cr (line ++ rest) = line ++ dropReturns lf cr rest := by
  induction line with
  | nil => rfl
  | cons c line ih =>
    rw [List.mem_cons, not_or] at inside
    have hkept : ¬ (c = cr ∧ (line ++ rest).head? = some lf) := by
      rintro ⟨rfl, hhead⟩
      cases line with
      | nil => exact h.elim (fun hlast => hlast rfl) fun hrest => hrest hhead
      | cons d line => exact inside.2 (Option.some.inj hhead ▸ List.mem_cons_self)
    have hmore : line.getLast? ≠ some cr ∨ rest.head? ≠ some lf := by
      cases line with
      | nil => exact .inl nofun
      | cons d line => exact h
    rw [List.cons_append, dropReturns, if_neg hkept, ih inside.2 hmore, List.cons_append]

/-- One more line in front of others. -/
theorem intercalate_cons_closing (lf : α) (line front : List α) {lines : List (List α)}
    {text : List α} (h : text = [] ↔ lines = []) :
    line ++ lf :: ([lf].intercalate lines ++ closing lf text) =
      [lf].intercalate (line :: lines) ++ closing lf (front ++ lf :: text) := by
  cases lines with
  | nil =>
    rw [h.2 rfl]
    simp [closing]
  | cons line' lines =>
    obtain ⟨c, hc⟩ := Option.ne_none_iff_exists'.1
      (mt List.getLast?_eq_none_iff.1 fun htext => List.cons_ne_nil _ _ (h.1 htext))
    have hclosing : closing lf (front ++ lf :: text) = closing lf text := by
      simp [closing, List.getLast?_append, List.getLast?_cons, hc]
    rw [hclosing, List.intercalate_cons_cons, List.append_assoc, List.append_assoc,
      List.singleton_append]

/-- The lines of a text make up the text, but for the carriage returns in the line ends. -/
theorem Cut.intercalate (h : Cut lf cr parts) (differ : lf ≠ cr) :
    [lf].intercalate (parts.map Prod.fst) ++ closing lf (joined parts) =
      dropReturns lf cr (joined parts) := by
  induction h with
  | nil => simp [joined, closing, dropReturns]
  | @last line nonempty inside =>
    have hlast : line.getLast? ≠ some lf := fun hlast => inside (List.mem_of_getLast? hlast)
    have hkept : dropReturns lf cr (line ++ []) = line ++ dropReturns lf cr [] :=
      dropReturns_append inside (.inr nofun)
    rw [List.append_nil] at hkept
    simp [joined, closing, hlast, hkept, dropReturns]
  | @bare line parts inside plain more ih =>
    have htext : joined ((line, [lf]) :: parts) = line ++ lf :: joined parts := by simp [joined]
    rw [htext, dropReturns_append inside (.inl plain), dropReturns,
      if_neg fun hcr => differ hcr.1, ← ih, intercalate_cons_closing lf line line
      more.joined_eq_nil_iff, List.map_cons]
  | @full line parts inside _ more ih =>
    have htext : joined ((line, [cr, lf]) :: parts) = (line ++ [cr]) ++ lf :: joined parts := by
      simp [joined]
    have hreturn : (cr :: lf :: joined parts).head? ≠ some lf :=
      fun hhead => differ (Option.some.inj hhead).symm
    rw [htext, List.map_cons, ← intercalate_cons_closing lf line (line ++ [cr])
      more.joined_eq_nil_iff, ih, List.append_assoc, List.singleton_append,
      dropReturns_append inside (.inr hreturn), dropReturns, if_pos ⟨rfl, rfl⟩, dropReturns,
      if_neg fun hcr => differ hcr.1]

end

end JobGateway.Lines
