import JobGateway.Proofs.Delegate.ClientAnswer
import JobGateway.Proofs.Text.Blank

/-! The listings of a client program. Keys that stand on lines of their own are read as they were
written, whatever blanks are around them and however the lines end; and whatever the client printed,
the keys that are read of it can be listed again. -/
namespace JobGateway

/-- Texts that a listing can tell: not empty, on one line, and without blanks around them. -/
structure IsListable (key : String) : Prop where
  nonempty : key ≠ ""
  line : '\n' ∉ key.toList
  bare : Text.IsBare key.toList

theorem isListable_iff {key : String} :
    IsListable key ↔ key ≠ "" ∧ '\n' ∉ key.toList ∧ Text.IsBare key.toList :=
  ⟨fun h => ⟨h.nonempty, h.line, h.bare⟩, fun h => ⟨h.1, h.2.1, h.2.2⟩⟩

instance (key : String) : Decidable (IsListable key) := decidable_of_iff' _ isListable_iff

/-- The ends that a line can have with `more` behind it: a line feed, behind a carriage return or not,
or the end of the text. -/
inductive LineEnd : List Char → List Char → Prop
  | bare (more : List Char) : LineEnd ['\n'] more
  | full (more : List Char) : LineEnd ['\r', '\n'] more
  | last : LineEnd [] []

/-- Texts that list keys, each on a line of its own with blanks around it, among blank lines. -/
inductive Lists : List String → List Char → Prop
  | nil : Lists [] []
  | blank {line ending more : List Char} {keys : List String} (hline : '\n' ∉ line)
      (hblank : Text.allBlank line = true) (hend : LineEnd ending more) (hmore : Lists keys more) :
      Lists keys (line ++ ending ++ more)
  | key {front back ending more : List Char} {key : String} {keys : List String}
      (hkey : IsListable key) (hline : '\n' ∉ front ∧ '\n' ∉ back)
      (hfront : Text.allBlank front = true) (hback : Text.allBlank back = true)
      (hend : LineEnd ending more) (hmore : Lists keys more) :
      Lists (key :: keys) (front ++ key.toList ++ back ++ ending ++ more)

/-- Keys can be listed again, one after the other. -/
theorem lists_intercalate {keys : List String} (h : ∀ key ∈ keys, IsListable key) :
    Lists keys (String.intercalate "\n" keys).toList := by
  rw [String.toList_intercalate]
  induction keys with
  | nil => exact .nil
  | cons key keys ih =>
    rw [List.forall_mem_cons] at h
    have hclean : '\n' ∉ ([] : List Char) := List.not_mem_nil
    cases keys with
    | nil =>
      have hkey := Lists.key h.1 ⟨hclean, hclean⟩ rfl rfl .last .nil
      simpa using hkey
    | cons key' keys =>
      have hkey := Lists.key h.1 ⟨hclean, hclean⟩ rfl rfl (.bare _) (ih h.2)
      simpa [List.intercalate_cons_cons] using hkey

namespace Client

variable {σ : Type} {line front back : List Char} {key : String} {keys : List String}

/-- The key on a line that is not blank. -/
def key? (line : List Char) : Option String :=
  if (Text.trim line).isEmpty then none else some (String.ofList (Text.trim line))

/-- The keys on the lines of a text. -/
def keysOf (text : List Char) : List String := (Text.lines text).filterMap key?

theorem listed_eq (stdout : List UInt8) : listed stdout = keysOf (Utf8.lossy stdout) := by
  rw [listed, List.filterMap_map]
  rfl

theorem key?_of_allBlank (h : Text.allBlank line = true) : key? line = none := by
  rw [key?, Text.trim_of_allBlank h]
  rfl

theorem key?_append_blank (line : List Char) (h : Text.allBlank back = true) :
    key? (line ++ back) = key? line := by
  rw [key?, key?, Text.trim_append_blank line h]

theorem key?_amid_blanks (hkey : IsListable key) (hfront : Text.allBlank front = true)
    (hback : Text.allBlank back = true) : key? (front ++ key.toList ++ back) = some key := by
  have hne : key.toList.isEmpty = false := by
    rw [List.isEmpty_eq_false_iff, Ne, String.toList_eq_nil_iff]
    exact hkey.nonempty
  rw [key?_append_blank _ hback, key?, Text.trim_blank_append hfront, hkey.bare.trim_eq, hne,
    if_neg Bool.false_ne_true, String.ofList_toList]

theorem isListable_of_key? (hline : '\n' ∉ line) (h : key? line = some key) : IsListable key := by
  rw [key?, Option.ite_none_left_eq_some, List.isEmpty_iff] at h
  obtain ⟨hne, hkey⟩ := h
  obtain rfl := Option.some.inj hkey
  exact {
    nonempty := by rwa [Ne, ← String.toList_eq_nil_iff, String.toList_ofList]
    line := by
      rw [String.toList_ofList]
      exact fun hmem => hline (Text.mem_of_mem_trim hmem)
    bare := by
      rw [String.toList_ofList]
      exact Text.isBare_trim line }

theorem isListable_of_mem_keysOf {text : List Char} (h : key ∈ keysOf text) : IsListable key := by
  obtain ⟨line, hline, hkey⟩ := List.mem_filterMap.1 h
  exact isListable_of_key? (Text.not_mem_of_mem_lines hline) hkey

theorem keysOf_line (hline : '\n' ∉ line) (more : List Char) :
    keysOf (line ++ '\n' :: more) = (key? line).toList ++ keysOf more := by
  obtain ⟨first, hlines, hfirst⟩ := Text.exists_lines_append hline more
  have hkey : key? first = key? line := by
    obtain rfl | rfl := hfirst
    · rfl
    · exact (key?_append_blank first rfl).symm
  rw [keysOf, hlines, List.filterMap_cons, hkey, keysOf]
  cases key? line <;> rfl

/-- The first line of a text gives its key, and the others theirs. -/
theorem keysOf_append {ending more : List Char} (hline : '\n' ∉ line) (hend : LineEnd ending more) :
    keysOf (line ++ ending ++ more) = (key? line).toList ++ keysOf more := by
  cases hend with
  | bare =>
    rw [List.append_assoc]
    exact keysOf_line hline more
  | full =>
    have hreturn : '\n' ∉ line ++ ['\r'] := by simpa using hline
    have hkeys := keysOf_line hreturn more
    rw [key?_append_blank line rfl] at hkeys
    simpa using hkeys
  | last =>
    rw [List.append_nil, List.append_nil]
    by_cases hne : line = []
    · subst hne
      rfl
    · rw [keysOf, Text.lines_of_not_mem hline hne, List.filterMap_cons]
      cases key? line <;> rfl

/-- A listing is read as the keys that it lists. -/
theorem keysOf_of_lists {text : List Char} (h : Lists keys text) : keysOf text = keys := by
  induction h with
  | nil => rfl
  | blank hline hblank hend _ ih =>
    rw [keysOf_append hline hend, key?_of_allBlank hblank, ih]
    rfl
  | @key front back _ _ key _ hkey hline hfront hback hend _ ih =>
    have hclean : '\n' ∉ front ++ key.toList ++ back := by
      simp only [List.mem_append, not_or]
      exact ⟨⟨hline.1, hkey.line⟩, hline.2⟩
    rw [keysOf_append hclean hend, key?_amid_blanks hkey hfront hback, ih]
    rfl

theorem listJobs_of_run {client : Client σ} {cluster role : String} {s s' : σ}
    {output : ProgramOutput} (hrun : client.run (.list cluster role) s = (.ok output, s')) :
    client.delegate.listJobs cluster role s = (.ofExcept (checkListing output), s') := by
  change (Outcome.ofExcept ((client.run (.list cluster role) s).1 >>= checkListing),
    (client.run (.list cluster role) s).2) = _
  rw [hrun]
  rfl

theorem checkListing_of_success {output : ProgramOutput} (h : output.exit = .status 0) :
    checkListing output = .ok (keysOf (Utf8.lossy output.stdout)) := by
  rw [checkListing, h, listed_eq]
  rfl

theorem checkListing_of_failure {output : ProgramOutput} (h : output.exit ≠ .status 0)
    {errors : List (List Char × List Char)} (hcut : Lines.Cut '\n' '\r' errors)
    (hjoined : Lines.joined errors = Utf8.lossy output.stderr) :
    checkListing output = .error (.client "Exception when listing aurora jobs"
      (if errors = [] then [s!"exit status: {output.exit.summary}"]
      else errors.map fun part => String.ofList part.1)) := by
  have hfailed : output.exit.isSuccess = false := decide_eq_false h
  have hlines : Text.lossyLines output.stderr = errors.map fun part => String.ofList part.1 := by
    rw [Text.lossyLines, ← hjoined, Text.lines_joined hcut, List.map_map]
    rfl
  rw [checkListing, hfailed, if_neg Bool.false_ne_true, hlines]
  simp

theorem listJobs_of_lists {client : Client σ} {cluster role : String} {s s' : σ}
    {output : ProgramOutput} (hrun : client.run (.list cluster role) s = (.ok output, s'))
    (hexit : output.exit = .status 0) {text : List Char} (hlists : Lists keys text)
    (hstdout : output.stdout = Utf8.encode text) :
    client.delegate.listJobs cluster role s = (.returned keys, s') := by
  rw [listJobs_of_run hrun, checkListing_of_success hexit, hstdout, Utf8.lossy_encode,
    keysOf_of_lists hlists]
  rfl

end Client

end JobGateway
