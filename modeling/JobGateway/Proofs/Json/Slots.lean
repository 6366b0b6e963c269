import JobGateway.Proofs.Json.Yields
import Mathlib.Data.List.Pairwise
import Mathlib.Data.List.Perm.Basic

/-! The slots of a record. Where no two of them get into each other's way, each is filled at most
once, the order of the members does not matter, and an array stands for the object of its items under
the names of the slots. -/
namespace JobGateway.Json

open Reader

variable {α β σ ε : Type}

/-- A way to fill a slot, from a text or from a value. -/
inductive Slot.Puts (slot : Slot σ) (f : σ → σ) : Prop
  | read {depth : Nat} {s s' : List Char} (h : slot.read depth s = .ok f s')
  | ofJson {v : Json} (h : slot.ofJson v = .ok f)

/-- Two slots of different names that are filled independently. -/
structure Slot.Apart (slot slot' : Slot σ) : Prop where
  name : slot.name ≠ slot'.name
  comm : ∀ f f', slot.Puts f → slot'.Puts f' → ∀ s, f (f' s) = f' (f s)
  left : ∀ f', slot'.Puts f' → ∀ s, slot.filled (f' s) = slot.filled s
  right : ∀ f, slot.Puts f → ∀ s, slot'.filled (f s) = slot'.filled s

instance : Std.Symm (@Slot.Apart σ) where
  symm _ _ h := ⟨h.name.symm, fun f f' hf hf' s => (h.comm f' f hf' hf s).symm, h.right, h.left⟩

/-- A slot that is filled is known to be. -/
def Slot.Marks (slot : Slot σ) : Prop := ∀ f, slot.Puts f → ∀ s, slot.filled (f s) = true

section Keeping

variable {name name' : String} {optional optional' : Bool} {d : Decoder α} {d' : Decoder β}
  {get : σ → Option α} {get' : σ → Option β} {put : α → σ → σ} {put' : β → σ → σ}

theorem Slot.exists_of_puts {f : σ → σ} (h : (Slot.keeping name optional d get put).Puts f) :
    ∃ a, f = put a := by
  cases h with
  | read h =>
    obtain ⟨a, -, rfl⟩ := exists_of_map h
    exact ⟨a, rfl⟩
  | ofJson h =>
    obtain ⟨a, -, rfl⟩ := map_eq_ok h
    exact ⟨a, rfl⟩

theorem Slot.keeping_marks (hput : ∀ a s, get (put a s) = some a) :
    (Slot.keeping name optional d get put).Marks := by
  intro f hf s
  obtain ⟨a, rfl⟩ := exists_of_puts hf
  exact congrArg Option.isSome (hput a s)

theorem Slot.keeping_apart (hname : name ≠ name')
    (hput : ∀ a b s, put a (put' b s) = put' b (put a s)) (hget : ∀ b s, get (put' b s) = get s)
    (hget' : ∀ a s, get' (put a s) = get' s) :
    (Slot.keeping name optional d get put).Apart (.keeping name' optional' d' get' put') := by
  refine ⟨hname, fun f f' hf hf' s => ?_, fun f' hf' s => ?_, fun f hf s => ?_⟩
  · obtain ⟨a, rfl⟩ := exists_of_puts hf
    obtain ⟨b, rfl⟩ := exists_of_puts hf'
    exact hput a b s
  · obtain ⟨b, rfl⟩ := exists_of_puts hf'
    exact congrArg Option.isSome (hget b s)
  · obtain ⟨a, rfl⟩ := exists_of_puts hf
    exact congrArg Option.isSome (hget' a s)

end Keeping

/-- A fold that may fail does not depend on the order of the list, if no two steps do. -/
theorem foldlM_perm {f : σ → β → Except ε σ}
    (hcomm : ∀ s b c t u, f s b = .ok t → f t c = .ok u → ∃ t', f s c = .ok t' ∧ f t' b = .ok u)
    {bs bs' : List β} (hperm : bs.Perm bs') {s s' : σ} (h : bs.foldlM f s = .ok s') :
    bs'.foldlM f s = .ok s' := by
  induction hperm generalizing s with
  | nil => exact h
  | cons b _ ih =>
    rw [List.foldlM_cons] at h ⊢
    obtain ⟨t, ht, h⟩ := bind_eq_ok h
    rw [ht]
    exact ih h
  | swap b c bs =>
    rw [List.foldlM_cons] at h ⊢
    obtain ⟨t, ht, h⟩ := bind_eq_ok h
    rw [List.foldlM_cons] at h
    obtain ⟨u, hu, h⟩ := bind_eq_ok h
    obtain ⟨t', ht', hu'⟩ := hcomm s c b t u ht hu
    rw [ht', ok_bind, List.foldlM_cons, hu']
    exact h
  | trans _ _ ih ih' => exact ih' (ih h)

/-- A value has another one as its member of a name or, if it is an array, as its item at a place. -/
inductive Holds (name : String) (index : Nat) (w : Json) : Json → Prop
  | member {ms : List (String × Json)} (h : (name, w) ∈ ms) : Holds name index w (.object ms)
  | item {vs : List Json} (h : vs[index]? = some w) : Holds name index w (.array vs)

namespace Record

/-- The slots of a record are apart, and each of them marks that it is filled. None is at first. -/
structure Lawful (r : Record σ α) : Prop where
  marks : ∀ slot ∈ r.slots, slot.Marks
  apart : r.slots.Pairwise Slot.Apart
  empty : ∀ slot ∈ r.slots, slot.filled r.start = false

variable {r : Record σ α} {slot slot' : Slot σ} {f : σ → σ} {s s' : σ}

theorem Lawful.find? (hr : r.Lawful) (hslot : slot ∈ r.slots) :
    r.slots.find? (·.name == slot.name) = some slot := by
  obtain ⟨done, more, hslots⟩ := List.append_of_mem hslot
  have hapart := hr.apart
  rw [hslots, List.pairwise_append] at hapart
  rw [hslots, List.find?_append, List.find?_eq_none.2, Option.none_or,
    List.find?_cons_of_pos (by simp)]
  intro other hother
  simpa using (hapart.2.2 other hother slot (by simp)).name

theorem Lawful.apart_of_ne (hr : r.Lawful) (hslot : slot ∈ r.slots) (hslot' : slot' ∈ r.slots)
    (hname : slot.name ≠ slot'.name) : slot.Apart slot' := by
  refine hr.apart.forall hslot hslot' ?_
  rintro rfl
  exact hname rfl

/-- What a member does to a record under construction, given its name. -/
inductive Adds (r : Record σ α) (name : String) (s : σ) : σ → Prop
  | skip (unknown : r.slots.find? (·.name == name) = none) : Adds r name s s
  | fill {slot : Slot σ} {f : σ → σ} (known : r.slots.find? (·.name == name) = some slot)
      (empty : slot.filled s = false) (puts : slot.Puts f) : Adds r name s (f s)

theorem addMember_eq_ok {m : String × Json} (h : r.addMember s m = .ok s') :
    (r.slots.find? (·.name == m.1) = none ∧ s' = s) ∨
    ∃ slot f, r.slots.find? (·.name == m.1) = some slot ∧ slot.filled s = false ∧
      slot.ofJson m.2 = .ok f ∧ s' = f s := by
  unfold addMember at h
  split at h
  · next hfind =>
    cases h
    exact .inl ⟨hfind, rfl⟩
  · next slot hfind =>
    split_ifs at h with hfilled
    obtain ⟨f, hf, hs⟩ := bind_eq_ok h
    cases hs
    exact .inr ⟨slot, f, hfind, Bool.eq_false_of_not_eq_true hfilled, hf, rfl⟩

theorem addMember_adds {m : String × Json} (h : r.addMember s m = .ok s') : r.Adds m.1 s s' := by
  obtain ⟨hfind, rfl⟩ | ⟨slot, f, hfind, hempty, hf, rfl⟩ := addMember_eq_ok h
  · exact .skip hfind
  · exact .fill hfind hempty (.ofJson hf)

theorem addMember_skip {m : String × Json} (h : r.slots.find? (·.name == m.1) = none) (s : σ) :
    r.addMember s m = .ok s := by
  simp only [addMember, h]

theorem addMember_fill {m : String × Json} (h : r.slots.find? (·.name == m.1) = some slot)
    (hempty : slot.filled s = false) (hf : slot.ofJson m.2 = .ok f) :
    r.addMember s m = .ok (f s) := by
  simp only [addMember, h, hempty, hf, ok_bind, Bool.false_eq_true, if_false]
  rfl

theorem addMember_keeping {d : Decoder α} {name : String} {optional : Bool} {get : σ → Option α}
    {put : α → σ → σ} {v : Json} {a : α} {r : Record σ β}
    (h : r.slots.find? (·.name == name) = some (.keeping name optional d get put))
    (hempty : get s = none) (ha : d.ofJson v = .ok a) : r.addMember s (name, v) = .ok (put a s) :=
  addMember_fill h (congrArg Option.isSome hempty) (Slot.keeping_ofJson ha ..)

/-- Two members may change places. -/
theorem addMember_comm (hr : r.Lawful) {m m' : String × Json} {t u : σ}
    (h : r.addMember s m = .ok t) (h' : r.addMember t m' = .ok u) :
    ∃ t', r.addMember s m' = .ok t' ∧ r.addMember t' m = .ok u := by
  obtain ⟨hfind, rfl⟩ | ⟨slot, f, hfind, hempty, hf, rfl⟩ := addMember_eq_ok h
  · exact ⟨u, h', addMember_skip hfind u⟩
  obtain ⟨hfind', rfl⟩ | ⟨slot', f', hfind', hempty', hf', rfl⟩ := addMember_eq_ok h'
  · exact ⟨s, addMember_skip hfind' s, h⟩
  have hslot := List.mem_of_find?_eq_some hfind
  have hslot' := List.mem_of_find?_eq_some hfind'
  by_cases hname : slot.name = slot'.name
  · have hsame : some slot = some slot' := by rw [← hr.find? hslot, hname, hr.find? hslot']
    cases hsame
    rw [hr.marks slot hslot f (.ofJson hf)] at hempty'
    cases hempty'
  · have hapart := hr.apart_of_ne hslot hslot' hname
    rw [hapart.right f (.ofJson hf)] at hempty'
    refine ⟨f' s, addMember_fill hfind' hempty' hf', ?_⟩
    rw [← hapart.comm f f' (.ofJson hf) (.ofJson hf')]
    exact addMember_fill hfind ((hapart.left f' (.ofJson hf') s).trans hempty) hf

/-- The members of an object may come in any order. -/
theorem foldlM_addMember_perm (hr : r.Lawful) {ms ms' : List (String × Json)} (hperm : ms.Perm ms')
    (h : ms.foldlM r.addMember s = .ok s') : ms'.foldlM r.addMember s = .ok s' :=
  foldlM_perm (f := r.addMember) (fun _ _ _ _ _ => addMember_comm hr) hperm h

theorem foldlM_addMember_skip {ms : List (String × Json)}
    (h : ∀ m ∈ ms, ∀ slot ∈ r.slots, m.1 ≠ slot.name) (s : σ) :
    ms.foldlM r.addMember s = .ok s := by
  induction ms with
  | nil => rfl
  | cons m ms ih =>
    obtain ⟨hm, hms⟩ := List.forall_mem_cons.1 h
    have hfind : r.slots.find? (·.name == m.1) = none := by
      rw [List.find?_eq_none]
      intro slot hslot
      simpa using (hm slot hslot).symm
    rw [List.foldlM_cons, addMember_skip hfind, ok_bind]
    exact ih hms

/-- A known member is decoded by its slot, and what the others do to the record is undone by none. -/
theorem exists_of_mem (hr : r.Lawful) (hslot : slot ∈ r.slots) {ms : List (String × Json)}
    (h : ms.foldlM r.addMember s = .ok s') {v : Json} (hm : (slot.name, v) ∈ ms) :
    ∃ f t, slot.ofJson v = .ok f ∧ s' = f t := by
  obtain ⟨done, more, rfl⟩ := List.append_of_mem hm
  have hlast : (done ++ (slot.name, v) :: more).Perm (done ++ more ++ [(slot.name, v)]) := by
    rw [List.append_assoc]
    exact (List.perm_append_singleton _ more).symm.append_left done
  have hfold := foldlM_addMember_perm hr hlast h
  rw [List.foldlM_append] at hfold
  obtain ⟨t, -, hadd⟩ := bind_eq_ok hfold
  rw [List.foldlM_cons] at hadd
  obtain ⟨u, hadd, hu⟩ := bind_eq_ok hadd
  cases hu
  obtain ⟨hfind, -⟩ | ⟨slot', f, hfind, -, hf, rfl⟩ := addMember_eq_ok hadd
  · rw [hr.find? hslot] at hfind
    cases hfind
  · rw [hr.find? hslot] at hfind
    cases hfind
    exact ⟨f, t, hf, rfl⟩

/-- The members of these names one after another. -/
inductive Run (r : Record σ α) : σ → List String → σ → Prop
  | done {s : σ} : Run r s [] s
  | next {name : String} {names : List String} {s t s' : σ} (first : r.Adds name s t)
      (more : Run r t names s') : Run r s (name :: names) s'

theorem run_of_foldlM {ms : List (String × Json)} (h : ms.foldlM r.addMember s = .ok s') :
    r.Run s (ms.map (·.1)) s' := by
  induction ms generalizing s with
  | nil =>
    cases h
    exact .done
  | cons m ms ih =>
    rw [List.foldlM_cons] at h
    obtain ⟨t, ht, h⟩ := bind_eq_ok h
    exact .next (addMember_adds ht) (ih h)

/-- A slot is filled by the member of its name only, and only if it is empty. -/
theorem Adds.filled (hr : r.Lawful) (hslot : slot ∈ r.slots) {name : String}
    (h : r.Adds name s s') :
    (name = slot.name ∧ slot.filled s = false ∧ slot.filled s' = true) ∨
    (name ≠ slot.name ∧ slot.filled s' = slot.filled s) := by
  cases h with
  | skip unknown =>
    refine .inr ⟨?_, rfl⟩
    rintro rfl
    rw [hr.find? hslot] at unknown
    cases unknown
  | @fill slot' f known empty puts =>
    by_cases hname : name = slot.name
    · subst hname
      rw [hr.find? hslot] at known
      cases known
      exact .inl ⟨rfl, empty, hr.marks slot hslot f puts s⟩
    · refine .inr ⟨hname, (hr.apart_of_ne hslot (List.mem_of_find?_eq_some known) ?_).left f puts s⟩
      have hslot' : slot'.name = name := by simpa using List.find?_some known
      rw [hslot']
      exact Ne.symm hname

/-- A member occurs at most once, and not at all if its slot is filled before. Its slot is filled
afterwards exactly if it is there. -/
theorem Run.filled (hr : r.Lawful) (hslot : slot ∈ r.slots) {names : List String}
    (h : r.Run s names s') :
    (slot.filled s = true → slot.name ∉ names ∧ slot.filled s' = true) ∧
    (slot.filled s = false → names.count slot.name ≤ 1 ∧
      (slot.filled s' = true ↔ slot.name ∈ names)) := by
  induction h with
  | done =>
    refine ⟨fun hs => ⟨List.not_mem_nil, hs⟩, fun hs => ⟨by simp, ?_⟩⟩
    simp [hs]
  | @next name names s t s' first more ih =>
    obtain ⟨rfl, hs, ht⟩ | ⟨hname, ht⟩ := first.filled hr hslot
    · obtain ⟨hnot, hs'⟩ := ih.1 ht
      refine ⟨fun hfull => ?_, fun _ => ⟨?_, ?_⟩⟩
      · rw [hs] at hfull
        cases hfull
      · rw [List.count_cons_self, List.count_eq_zero_of_not_mem hnot]
      · simp [hs']
    · rw [ht] at ih
      have hmem : slot.name ∈ name :: names ↔ slot.name ∈ names := by
        simp [Ne.symm hname]
      rw [hmem, List.count_cons_of_ne hname]
      exact ih

/-- A known member is decoded first, if its slot is empty. -/
theorem foldlM_addMember_cons (hr : r.Lawful) (hslot : slot ∈ r.slots)
    (hempty : slot.filled s = false) {v : Json} {ms : List (String × Json)} :
    ((slot.name, v) :: ms).foldlM r.addMember s = .ok s' ↔
      ∃ f, slot.ofJson v = .ok f ∧ ms.foldlM r.addMember (f s) = .ok s' := by
  rw [List.foldlM_cons]
  constructor
  · intro h
    obtain ⟨t, ht, h⟩ := bind_eq_ok h
    obtain ⟨hfind, -⟩ | ⟨slot', f, hfind, -, hf, rfl⟩ := addMember_eq_ok ht
    · rw [hr.find? hslot] at hfind
      cases hfind
    · rw [hr.find? hslot] at hfind
      cases hfind
      exact ⟨f, hf, h⟩
  · rintro ⟨f, hf, h⟩
    rw [addMember_fill (hr.find? hslot) hempty hf]
    exact h

/-- An array is decoded like the object that has its items under the names of the slots. -/
theorem addItems_eq_ok_iff (hr : r.Lawful) {slots : List (Slot σ)} (hslots : slots <:+ r.slots)
    (hempty : ∀ slot ∈ slots, slot.filled s = false) {index : Nat} {vs : List Json} :
    r.addItems index slots vs s = .ok s' ↔
      vs.length ≤ slots.length ∧ (∀ slot ∈ slots.drop vs.length, slot.optional = true) ∧
        ((slots.map (·.name)).zip vs).foldlM r.addMember s = .ok s' := by
  induction slots generalizing index vs s with
  | nil =>
    cases vs with
    | nil => simp [addItems, pure, Except.pure]
    | cons v vs => simp [addItems]
  | cons slot slots ih =>
    have hsuffix := (List.suffix_cons slot slots).trans hslots
    have hslot : slot ∈ r.slots := hslots.mem List.mem_cons_self
    obtain ⟨hslotEmpty, hmore⟩ := List.forall_mem_cons.1 hempty
    cases vs with
    | nil =>
      rw [addItems]
      split_ifs with hoptional
      · rw [ih hsuffix hmore]
        simp [hoptional]
      · simp [hoptional]
    | cons v vs =>
      have hkeep : ∀ f, slot.ofJson v = .ok f → ∀ other ∈ slots, other.filled (f s) = false := by
        intro f hf other hother
        have hapart := List.rel_of_pairwise_cons (hr.apart.sublist hslots.sublist) hother
        rw [hapart.right f (.ofJson hf), hmore other hother]
      rw [List.map_cons, List.zip_cons_cons, foldlM_addMember_cons hr hslot hslotEmpty, addItems]
      simp only [List.length_cons, List.drop_succ_cons, Nat.add_le_add_iff_right]
      constructor
      · intro h
        obtain ⟨f, hf, h⟩ := bind_eq_ok h
        obtain ⟨hlen, hoptional, hfold⟩ := (ih hsuffix (hkeep f hf)).1 h
        exact ⟨hlen, hoptional, f, hf, hfold⟩
      · rintro ⟨hlen, hoptional, f, hf, hfold⟩
        rw [hf]
        exact (ih hsuffix (hkeep f hf)).2 ⟨hlen, hoptional, hfold⟩

theorem Lawful.nodup (hr : r.Lawful) : (r.slots.map (·.name)).Nodup :=
  List.pairwise_map.2 (hr.apart.imp fun h => h.name)

/-- What a record is decoded from: the members of an object, or the items of an array under the names
of the slots. -/
theorem exists_members (hr : r.Lawful) {v : Json} {a : α} (h : r.decoder.ofJson v = .ok a) :
    ∃ ms state, ms.foldlM r.addMember r.start = .ok state ∧ r.build state = .ok a ∧
      (∀ ms', v = .object ms' → ms' = ms) ∧
      ∀ (i : Nat) (slot : Slot σ), r.slots[i]? = some slot → ∀ w,
        Holds slot.name i w v ↔ (slot.name, w) ∈ ms := by
  cases v with
  | object ms =>
    obtain ⟨state, hfold, hbuild⟩ := bind_eq_ok h
    refine ⟨ms, state, hfold, hbuild, fun _ hms => by cases hms; rfl, fun i slot _ w => ?_⟩
    constructor
    · rintro (hw | _)
      exact hw
    · exact .member
  | array vs =>
    obtain ⟨state, hitems, hbuild⟩ := bind_eq_ok h
    obtain ⟨-, -, hfold⟩ := (addItems_eq_ok_iff hr List.suffix_rfl hr.empty).1 hitems
    refine ⟨_, state, hfold, hbuild, fun _ hms => (by cases hms), fun i slot hslot w => ?_⟩
    have hname : (r.slots.map (·.name))[i]? = some slot.name := by
      rw [List.getElem?_map, hslot]
      rfl
    constructor
    · rintro (_ | hw)
      exact List.mem_iff_getElem?.2 ⟨i, List.getElem?_zip_eq_some.2 ⟨hname, hw⟩⟩
    · intro hmem
      obtain ⟨j, hj⟩ := List.mem_iff_getElem?.1 hmem
      obtain ⟨hnamej, hw⟩ := List.getElem?_zip_eq_some.1 hj
      have hi : i < (r.slots.map (·.name)).length := (List.getElem?_eq_some_iff.1 hname).1
      obtain rfl := (List.getElem?_inj hi hr.nodup).1 (hname.trans hnamej.symm)
      exact .item hw
  | _ => cases h

/-- A member occurs at most once. -/
theorem count_le_one (hr : r.Lawful) (hslot : slot ∈ r.slots) {ms : List (String × Json)}
    (h : ms.foldlM r.addMember r.start = .ok s') : (ms.map (·.1)).count slot.name ≤ 1 :=
  (((run_of_foldlM h).filled hr hslot).2 (hr.empty slot hslot)).1

section Keeping

variable {d : Decoder β} {name : String} {optional : Bool} {get : σ → Option β} {put : β → σ → σ}
  {ms : List (String × Json)}

/-- What is kept of a member is what its value is decoded to. -/
theorem get_of_mem (hr : r.Lawful) (hslot : .keeping name optional d get put ∈ r.slots)
    (hput : ∀ b s, get (put b s) = some b) (h : ms.foldlM r.addMember s = .ok s') {w : Json}
    (hw : (name, w) ∈ ms) : ∃ b, d.ofJson w = .ok b ∧ get s' = some b := by
  obtain ⟨f, t, hf, rfl⟩ := exists_of_mem hr hslot h hw
  obtain ⟨b, hb, rfl⟩ := map_eq_ok hf
  exact ⟨b, hb, hput b t⟩

/-- An optional value is kept exactly if it is given and not null. -/
theorem isSome_get_iff {get : σ → Option (Option β)} {put : Option β → σ → σ} (hr : r.Lawful)
    (hslot : .keeping name optional (.option d) get put ∈ r.slots)
    (hput : ∀ b s, get (put b s) = some b) (h : ms.foldlM r.addMember r.start = .ok s') :
    ((get s').getD none).isSome = true ↔ ∃ w, (name, w) ∈ ms ∧ w ≠ .null := by
  constructor
  · intro hsome
    have hfilled : (get s').isSome = true := by
      cases hget : get s' with
      | none =>
        rw [hget] at hsome
        cases hsome
      | some b => rfl
    have hmem := (((run_of_foldlM h).filled hr hslot).2 (hr.empty _ hslot)).2.1 hfilled
    obtain ⟨⟨_, w⟩, hw, rfl⟩ := List.mem_map.1 hmem
    obtain ⟨b, hb, hget⟩ := get_of_mem hr hslot hput h hw
    refine ⟨w, hw, ?_⟩
    rintro rfl
    cases hb
    rw [hget] at hsome
    cases hsome
  · rintro ⟨w, hw, hne⟩
    obtain ⟨b, hb, hget⟩ := get_of_mem hr hslot hput h hw
    rw [hget]
    cases w with
    | null => exact absurd rfl hne
    | _ =>
      obtain ⟨c, -, rfl⟩ := map_eq_ok hb
      rfl

end Keeping

end Record

end JobGateway.Json
