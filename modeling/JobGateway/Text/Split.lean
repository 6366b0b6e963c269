/-! Sequences cut at every occurrence of a separator. -/
namespace JobGateway.Text

variable {α : Type} [DecidableEq α]

/-- Put an element in front of the first piece. -/
def consFirst (a : α) : List (List α) → List (List α)
  | [] => [[a]]
  | piece :: pieces => (a :: piece) :: pieces

/-- The pieces of a sequence between its separators. There is one more of them than separators. -/
def split (separator : α) : List α → List (List α)
  | [] => [[]]
  | a :: rest =>
    let pieces := split separator rest
    if a = separator then [] :: pieces else consFirst a pieces

theorem split_ne_nil (separator : α) (s : List α) : split separator s ≠ [] := by
  cases s with
  | nil => simp [split]
  | cons a rest =>
    simp only [split]
    split
    · simp
    · cases split separator rest <;> simp [consFirst]

/-- The part of a sequence before the first separator, and the part behind it if there is one. -/
def cutAt (separator : α) : List α → List α × Option (List α)
  | [] => ([], none)
  | a :: rest =>
    if a = separator then ([], some rest)
    else
      let (before, behind) := cutAt separator rest
      (a :: before, behind)

/-- A sequence without the given element at its ends. -/
def strip (a : α) (s : List α) : List α :=
  ((s.dropWhile (· = a)).reverse.dropWhile (· = a)).reverse

end JobGateway.Text
