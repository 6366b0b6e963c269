import JobGateway.Text.Map
import Mathlib.Data.List.Nodup
import Mathlib.Data.List.Perm.Basic

/-! Maps from texts as functions: a map is determined by what is found in it. -/
namespace JobGateway

theorem lookup_eq_some_iff_mem {κ α : Type} [BEq κ] [LawfulBEq κ] {l : List (κ × α)}
    (h : (l.map Prod.fst).Nodup) {k : κ} {a : α} : l.lookup k = some a ↔ (k, a) ∈ l := by
  induction l with
  | nil => simp
  | cons x l ih =>
    obtain ⟨k', a'⟩ := x
    rw [List.map_cons, List.nodup_cons] at h
    rw [List.lookup_cons, List.mem_cons, Prod.mk.injEq]
    by_cases hk : k = k'
    · subst hk
      have hnot : (k, a) ∉ l := fun hmem => h.1 (List.mem_map.2 ⟨(k, a), hmem, rfl⟩)
      simp [hnot, eq_comm]
    · have hbeq : (k == k') = false := beq_false_of_ne hk
      simp [hbeq, hk, ih h.2]

namespace TextMap

variable {α : Type} {m n : TextMap α}

theorem nodup_keys (m : TextMap α) : m.keys.Nodup := by
  refine List.Pairwise.imp ?_ m.pairwise_keys
  rintro key _ h rfl
  exact String.lt_irrefl key h

theorem mem_entries_iff {key : String} {value : α} :
    (key, value) ∈ m.entries ↔ m.get? key = some value :=
  (lookup_eq_some_iff_mem m.nodup_keys).symm

/-- Two maps in which the same is found are the same. -/
theorem ext_get? (h : ∀ key, m.get? key = n.get? key) : m = n := by
  have hperm : m.entries.Perm n.entries := by
    refine (List.perm_ext_iff_of_nodup m.nodup_keys.of_map n.nodup_keys.of_map).2 ?_
    rintro ⟨key, value⟩
    rw [mem_entries_iff, mem_entries_iff, h]
  have hentries : m.entries = n.entries := by
    refine List.Perm.eq_of_pairwise (fun a b _ _ hab hba => ?_) m.ascending n.ascending hperm
    exact absurd (String.lt_trans hab hba) (String.lt_irrefl _)
  cases m
  cases n
  cases hentries
  rfl

theorem insertEntry_perm {key : String} {l : List (String × α)} (value : α)
    (h : key ∉ l.map Prod.fst) : (insertEntry key value l).Perm ((key, value) :: l) := by
  induction l with
  | nil => exact .refl _
  | cons e l ih =>
    obtain ⟨k, v⟩ := e
    rw [List.map_cons, List.mem_cons, not_or] at h
    rw [insertEntry]
    split
    · exact .refl _
    · rw [if_neg h.1]
      exact ((ih h.2).cons _).trans (.swap ..)

theorem entries_foldl_insert_perm {l : List (String × α)} (m : TextMap α)
    (h : (m.keys ++ l.map Prod.fst).Nodup) :
    (l.foldl (fun m e => m.insert e.1 e.2) m).entries.Perm (m.entries ++ l) := by
  induction l generalizing m with
  | nil => rw [List.foldl_nil, List.append_nil]
  | cons e l ih =>
    obtain ⟨k, v⟩ := e
    have hperm : (m.insert k v).entries.Perm ((k, v) :: m.entries) := by
      refine insertEntry_perm v fun hk => ?_
      exact List.disjoint_of_nodup_append h hk List.mem_cons_self
    have hkeys : ((m.insert k v).keys ++ l.map Prod.fst).Perm
        (m.keys ++ ((k, v) :: l).map Prod.fst) :=
      ((hperm.map Prod.fst).append_right _).trans List.perm_middle.symm
    exact (ih _ (hkeys.nodup_iff.2 h)).trans ((hperm.append_right l).trans List.perm_middle.symm)

/-- A map of values under different texts holds just these. -/
theorem entries_ofList_perm {l : List (String × α)} (h : (l.map Prod.fst).Nodup) :
    (ofList l).entries.Perm l :=
  entries_foldl_insert_perm empty h

end TextMap

end JobGateway
