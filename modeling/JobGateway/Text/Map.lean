/-! Values under texts, in ascending order of the texts. Texts are ordered by their characters,
which is also the order of their UTF-8 bytes. Main statements: what `get?` finds after each
operation. -/
namespace JobGateway

/-- A list of values under texts is ascending if each text is less than all later ones. -/
def Ascending {α : Type} (entries : List (String × α)) : Prop :=
  entries.Pairwise fun a b => a.1 < b.1

/-- A finite map from texts. -/
structure TextMap (α : Type) where
  entries : List (String × α)
  ascending : Ascending entries

namespace TextMap

variable {α : Type}

instance : Inhabited (TextMap α) := ⟨⟨[], .nil⟩⟩

instance [DecidableEq α] : DecidableEq (TextMap α) := fun m n =>
  if h : m.entries = n.entries then .isTrue (by cases m; cases n; simp_all)
  else .isFalse fun e => h (e ▸ rfl)

def empty : TextMap α := ⟨[], .nil⟩

/-- Put a value under `key`, in place of the one that is there. -/
def insertEntry (key : String) (value : α) : List (String × α) → List (String × α)
  | [] => [(key, value)]
  | (k, v) :: rest =>
    if key < k then (key, value) :: (k, v) :: rest
    else if key = k then (key, value) :: rest
    else (k, v) :: insertEntry key value rest

theorem mem_insertEntry {key : String} {value : α} {e : String × α} {l : List (String × α)}
    (h : e ∈ insertEntry key value l) : e = (key, value) ∨ e ∈ l := by
  induction l with
  | nil => simpa [insertEntry] using h
  | cons a l ih =>
    simp only [insertEntry] at h
    split at h
    · simpa using h
    · split at h
      · simp only [List.mem_cons] at h ⊢
        rcases h with h | h
        · exact .inl h
        · exact .inr (.inr h)
      · simp only [List.mem_cons] at h ⊢
        rcases h with h | h
        · exact .inr (.inl h)
        · exact (ih h).imp id .inr

theorem ascending_insertEntry (key : String) (value : α) {l : List (String × α)}
    (h : Ascending l) : Ascending (insertEntry key value l) := by
  induction l with
  | nil => simp [insertEntry, Ascending]
  | cons a l ih =>
    obtain ⟨ha, hl⟩ := List.pairwise_cons.1 h
    simp only [insertEntry]
    split
    · next hk =>
      refine List.pairwise_cons.2 ⟨fun b hb => ?_, h⟩
      rcases List.mem_cons.1 hb with rfl | hb
      · exact hk
      · exact String.lt_trans hk (ha b hb)
    · next hk =>
      split
      · next he => exact List.pairwise_cons.2 ⟨fun b hb => he ▸ ha b hb, hl⟩
      · next he =>
        refine List.pairwise_cons.2 ⟨fun b hb => ?_, ih hl⟩
        rcases mem_insertEntry hb with rfl | hb
        · exact Std.lt_of_le_of_ne (String.not_lt.1 hk) (Ne.symm he)
        · exact ha b hb

def insert (m : TextMap α) (key : String) (value : α) : TextMap α :=
  ⟨insertEntry key value m.entries, ascending_insertEntry key value m.ascending⟩

def erase (m : TextMap α) (key : String) : TextMap α :=
  ⟨m.entries.filter (·.1 ≠ key), m.ascending.filter _⟩

def get? (m : TextMap α) (key : String) : Option α := m.entries.lookup key

/-- Whether there is a value under `key`. -/
def contains (m : TextMap α) (key : String) : Bool := (m.get? key).isSome

/-- The texts with a value, ascending. -/
def keys (m : TextMap α) : List String := m.entries.map (·.1)

/-- The map of a list of values under texts; of two values under one text, the later one stays. -/
def ofList (entries : List (String × α)) : TextMap α :=
  entries.foldl (fun m e => m.insert e.1 e.2) empty

@[simp] theorem get?_empty (key : String) : (empty : TextMap α).get? key = none := rfl

theorem lookup_cons_ite (key k : String) (value : α) (l : List (String × α)) :
    ((k, value) :: l).lookup key = if key = k then some value else l.lookup key := by
  by_cases h : key = k
  · simp [h]
  · rw [List.lookup_cons, beq_false_of_ne h, if_neg h]

theorem lookup_insertEntry (key k : String) (value : α) (l : List (String × α)) :
    (insertEntry key value l).lookup k = if k = key then some value else l.lookup k := by
  induction l with
  | nil => simp [insertEntry, lookup_cons_ite]
  | cons a l ih =>
    obtain ⟨k', v'⟩ := a
    simp only [insertEntry]
    split
    · simp [lookup_cons_ite]
    · split
      · next he => subst he; by_cases h : k = key <;> simp [lookup_cons_ite, h]
      · next he =>
        simp only [lookup_cons_ite, ih]
        by_cases h : k = k'
        · simp [h, Ne.symm he]
        · simp [h]

@[simp] theorem get?_insert (m : TextMap α) (key k : String) (value : α) :
    (m.insert key value).get? k = if k = key then some value else m.get? k :=
  lookup_insertEntry key k value m.entries

theorem lookup_filter_ne (key k : String) (l : List (String × α)) :
    (l.filter (·.1 ≠ key)).lookup k = if k = key then none else l.lookup k := by
  induction l with
  | nil => simp
  | cons a l ih =>
    obtain ⟨k', v'⟩ := a
    by_cases ha : k' = key
    · subst ha
      rw [List.filter_cons_of_neg (by simp), ih, lookup_cons_ite]
      by_cases h : k = k' <;> simp [h]
    · rw [List.filter_cons_of_pos (by simpa using ha), lookup_cons_ite, lookup_cons_ite, ih]
      by_cases h : k = k'
      · simp [h, ha]
      · simp [h]

@[simp] theorem get?_erase (m : TextMap α) (key k : String) :
    (m.erase key).get? k = if k = key then none else m.get? k :=
  lookup_filter_ne key k m.entries

theorem mem_keys_iff {m : TextMap α} {key : String} : key ∈ m.keys ↔ (m.get? key).isSome := by
  rw [get?, List.lookup_isSome_iff, keys, List.mem_map]
  constructor
  · rintro ⟨e, he, rfl⟩
    exact ⟨e, he, beq_self_eq_true _⟩
  · rintro ⟨e, he, hkey⟩
    exact ⟨e, he, (eq_of_beq hkey).symm⟩

/-- The texts with a value are in ascending order, none twice. -/
theorem pairwise_keys (m : TextMap α) : m.keys.Pairwise (· < ·) :=
  List.pairwise_map.2 m.ascending

end TextMap

end JobGateway
