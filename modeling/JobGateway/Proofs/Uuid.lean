import JobGateway.Proofs.Text.Split
import JobGateway.Uuid
import Mathlib.Algebra.GroupWithZero.Nat

/-! The written form of an identifier names the identifier. -/
namespace JobGateway.Uuid

open Text

theorem hexDigit_ne_hyphen (d : Fin 16) : hexDigit d ≠ '-' := by
  revert d
  decide

theorem hexDigit_ne_brace (d : Fin 16) : hexDigit d ≠ '\x7b' := by
  revert d
  decide

theorem toLower_hexDigit_ne (d : Fin 16) : (hexDigit d).toLower ≠ 'u' := by
  revert d
  decide

theorem flatten_cut {α : Type} (ns : List Nat) (ds : List α) (h : ds.length = ns.sum) :
    (cut ns ds).flatten = ds := by
  induction ns generalizing ds with
  | nil => rw [List.eq_nil_of_length_eq_zero h, cut, List.flatten_nil]
  | cons n ns ih =>
    rw [List.sum_cons] at h
    have hdrop : (ds.drop n).length = ns.sum := by
      rw [List.length_drop]
      omega
    rw [cut, List.flatten_cons, ih _ hdrop, List.take_append_drop]

theorem map_length_cut {α : Type} (ns : List Nat) (ds : List α) (h : ds.length = ns.sum) :
    (cut ns ds).map List.length = ns := by
  induction ns generalizing ds with
  | nil => rfl
  | cons n ns ih =>
    rw [List.sum_cons] at h
    have hdrop : (ds.drop n).length = ns.sum := by
      rw [List.length_drop]
      omega
    rw [cut, List.map_cons, ih _ hdrop, List.length_take, Nat.min_eq_left (by omega)]

theorem mapM_hexValue? (ds : List (Fin 16)) : (ds.map hexDigit).mapM hexValue? = some ds := by
  induction ds with
  | nil => rfl
  | cons d ds ih => simp [hexValue?_hexDigit, ih]

theorem plain?_digits (u : Uuid) : plain? (u.digits.map hexDigit) = some u := by
  simp only [plain?, mapM_hexValue?, dif_pos u.length_eq]

/-- The groups of the written form. -/
def pieces (u : Uuid) : List (List Char) := cut groupLengths (u.digits.map hexDigit)

theorem length_map_digits (u : Uuid) : (u.digits.map hexDigit).length = groupLengths.sum := by
  rw [List.length_map, u.length_eq]
  rfl

theorem flatten_pieces (u : Uuid) : u.pieces.flatten = u.digits.map hexDigit :=
  flatten_cut _ _ u.length_map_digits

theorem map_length_pieces (u : Uuid) : u.pieces.map List.length = groupLengths :=
  map_length_cut _ _ u.length_map_digits

theorem groups_pieces (u : Uuid) : groups (['-'].intercalate u.pieces) = u.pieces := by
  apply split_intercalate
  · intro piece hpiece hyphen
    have hmem : '-' ∈ u.pieces.flatten := List.mem_flatten_of_mem hpiece hyphen
    rw [flatten_pieces, List.mem_map] at hmem
    obtain ⟨d, -, hd⟩ := hmem
    exact hexDigit_ne_hyphen d hd
  · intro hnil
    have hlen := u.map_length_pieces
    rw [hnil] at hlen
    cases hlen

theorem grouped?_pieces (u : Uuid) : grouped? (['-'].intercalate u.pieces) = some u := by
  rw [grouped?, groups_pieces, flatten_pieces, plain?_digits, if_pos u.map_length_pieces]

theorem mapM_eq_none {α β : Type} {f : α → Option β} {a : α} (ha : f a = none) (s t : List α) :
    (s ++ a :: t).mapM f = none := by
  induction s with
  | nil => simp [ha]
  | cons b s ih => cases h : f b <;> simp [h, ih]

/-- The hyphens keep the written form from being read as 32 digits. -/
theorem plain?_pieces (u : Uuid) : plain? (['-'].intercalate u.pieces) = none := by
  have hcut : u.pieces = (u.digits.map hexDigit).take 8 ::
      cut [4, 4, 4, 12] ((u.digits.map hexDigit).drop 8) := rfl
  rw [cut] at hcut
  have hnone : (['-'].intercalate u.pieces).mapM hexValue? = none := by
    rw [hcut, List.intercalate_cons_cons, List.append_assoc, List.singleton_append]
    exact mapM_eq_none rfl _ _
  simp only [plain?, hnone]

theorem unwrap_of_ne {c : Char} {s : List Char} (hbrace : c ≠ '\x7b') (hmark : c.toLower ≠ 'u') :
    unwrap (c :: s) = ⟨0, c :: s, true⟩ := by
  rw [unwrap.eq_2]
  · refine if_neg fun h => hmark ?_
    rw [List.take_succ_cons, List.map_cons, urnMark, List.cons_eq_cons] at h
    exact h.1
  · rintro rest h
    exact hbrace (List.cons_eq_cons.1 h).1

theorem unwrap_pieces (u : Uuid) :
    unwrap (['-'].intercalate u.pieces) = ⟨0, ['-'].intercalate u.pieces, true⟩ := by
  obtain ⟨ds, hds⟩ := u
  obtain ⟨d, ds, rfl⟩ := List.exists_cons_of_length_pos (by omega : 0 < ds.length)
  have hfront : ∃ s, ['-'].intercalate (pieces ⟨d :: ds, hds⟩) = hexDigit d :: s := ⟨_, rfl⟩
  obtain ⟨s, hs⟩ := hfront
  rw [hs]
  exact unwrap_of_ne (hexDigit_ne_brace d) (toLower_hexDigit_ne d)

theorem parse_text (u : Uuid) : parse u.text = .ok u := by
  have hlist : u.text.toList = ['-'].intercalate u.pieces := String.toList_ofList
  rw [parse, hlist, unwrap_pieces]
  simp only [if_true, plain?_pieces, Option.none_or, grouped?_pieces]

end JobGateway.Uuid
