import JobGateway.Proofs.Json.Slots
import Mathlib.Data.List.Forall2

/-! Arrangements of a record. An object may give its entries in any order, among members of other
names; an array gives them in the order of declaration. Either way some may be left out. A record or
a union that decodes the entries in order decodes every arrangement of them alike. -/
namespace JobGateway.Json

open Reader

/-- A member of a record: its name, what its value may be, and whether it may be left out. -/
structure Entry where
  name : String
  form : Json → Prop
  absent : Prop

/-- Members that give the entries in order, where some may be left out. -/
inductive Given : List Entry → List (String × Json) → Prop
  | nil : Given [] []
  | give {e : Entry} {es : List Entry} {v : Json} {ms : List (String × Json)} (form : e.form v)
      (more : Given es ms) : Given (e :: es) ((e.name, v) :: ms)
  | leave {e : Entry} {es : List Entry} {ms : List (String × Json)} (absent : e.absent)
      (more : Given es ms) : Given (e :: es) ms

/-- Items that give the entries in order, where the last ones may be left out. -/
inductive Listed : List Entry → List Json → Prop
  | give {e : Entry} {es : List Entry} {v : Json} {vs : List Json} (form : e.form v)
      (more : Listed es vs) : Listed (e :: es) (v :: vs)
  | stop {es : List Entry} (absent : ∀ e ∈ es, e.absent) : Listed es []

/-- An object that gives the entries in any order. Members of other names have spare values. -/
def AsObject (es : List Entry) (spare : Json → Prop) (v : Json) : Prop :=
  ∃ ms given more, v = .object ms ∧ ms.Perm (given ++ more) ∧ Given es given ∧
    ∀ m ∈ more, (∀ e ∈ es, m.1 ≠ e.name) ∧ spare m.2

/-- An array that gives the entries. -/
def AsArray (es : List Entry) (v : Json) : Prop := ∃ vs, v = .array vs ∧ Listed es vs

def Arranges (es : List Entry) (spare : Json → Prop) (v : Json) : Prop :=
  AsObject es spare v ∨ AsArray es v

variable {α σ : Type} {e : Entry} {es : List Entry} {spare : Json → Prop} {d : Nat} {v : Json}

theorem Given.exists_of_mem {ms : List (String × Json)} (h : Given es ms) :
    ∀ m ∈ ms, ∃ e ∈ es, m.1 = e.name ∧ e.form m.2 := by
  induction h with
  | nil => simp
  | @give e es v ms form _ ih =>
    refine List.forall_mem_cons.2 ⟨⟨e, List.mem_cons_self, rfl, form⟩, fun m hm => ?_⟩
    obtain ⟨e', he', hform⟩ := ih m hm
    exact ⟨e', List.mem_cons_of_mem e he', hform⟩
  | @leave e es ms _ _ ih =>
    intro m hm
    obtain ⟨e', he', hform⟩ := ih m hm
    exact ⟨e', List.mem_cons_of_mem e he', hform⟩

/-- An entry that must be there is. -/
theorem Given.exists_cons {ms : List (String × Json)} (h : Given (e :: es) ms) (he : ¬ e.absent) :
    ∃ v more, ms = (e.name, v) :: more ∧ e.form v ∧ Given es more := by
  cases h with
  | give form more => exact ⟨_, _, rfl, form, more⟩
  | leave absent _ => exact absurd absent he

theorem Listed.exists_of_mem {vs : List Json} (h : Listed es vs) :
    ∀ v ∈ vs, ∃ e ∈ es, e.form v := by
  induction h with
  | @give e es v vs form _ ih =>
    refine List.forall_mem_cons.2 ⟨⟨e, List.mem_cons_self, form⟩, fun w hw => ?_⟩
    obtain ⟨e', he', hform⟩ := ih w hw
    exact ⟨e', List.mem_cons_of_mem e he', hform⟩
  | stop => simp

/-- The entries in order, without other members. -/
theorem Given.asObject {ms : List (String × Json)} (h : Given es ms) (spare : Json → Prop) :
    AsObject es spare (.object ms) := ⟨ms, ms, [], rfl, by rw [List.append_nil], h, by simp⟩

theorem AsObject.exists_member {ms : List (String × Json)} (h : AsObject es spare (.object ms)) :
    ∀ m ∈ ms, (∃ e ∈ es, m.1 = e.name ∧ e.form m.2) ∨ (∀ e ∈ es, m.1 ≠ e.name) ∧ spare m.2 := by
  obtain ⟨_, given, more, ⟨⟩, hperm, hgiven, hmore⟩ := h
  intro m hm
  obtain hm | hm := List.mem_append.1 (hperm.mem_iff.1 hm)
  · exact .inl (hgiven.exists_of_mem m hm)
  · exact .inr (hmore m hm)

theorem Arranges.readable (h : Arranges es spare v) (hes : ∀ e ∈ es, ∀ w, e.form w → Readable d w)
    (hspare : ∀ w, spare w → Readable d w) : Readable (d + 1) v := by
  obtain h | ⟨vs, rfl, hlist⟩ := h
  · obtain ⟨ms, _, _, rfl, -⟩ := id h
    intro m hm
    obtain ⟨e, he, -, hform⟩ | ⟨-, hm⟩ := h.exists_member m hm
    · exact hes e he m.2 hform
    · exact hspare m.2 hm
  · intro v hv
    obtain ⟨e, he, hform⟩ := hlist.exists_of_mem v hv
    exact hes e he v hform

namespace Record

variable {r : Record σ α} {a : α}

/-- A slot for every entry, in order. -/
def Covers (r : Record σ α) (es : List Entry) : Prop :=
  List.Forall₂ (fun slot e => slot.name = e.name ∧ (e.absent → slot.optional = true)) r.slots es

/-- The items of an array are the first entries, and those that follow may be left out. -/
theorem exists_given {slots : List (Slot σ)}
    (hslots : List.Forall₂ (fun slot e => slot.name = e.name ∧ (e.absent → slot.optional = true))
      slots es) {vs : List Json} (h : Listed es vs) :
    vs.length ≤ slots.length ∧ (∀ slot ∈ slots.drop vs.length, slot.optional = true) ∧
      Given es ((slots.map (·.name)).zip vs) := by
  induction hslots generalizing vs with
  | nil =>
    cases h
    exact ⟨Nat.le_refl 0, by simp, .nil⟩
  | @cons slot e slots es hslot hslots ih =>
    cases h with
    | give form more =>
      obtain ⟨hlen, hoptional, hgiven⟩ := ih more
      refine ⟨Nat.succ_le_succ hlen, hoptional, ?_⟩
      rw [List.map_cons, List.zip_cons_cons, hslot.1]
      exact .give form hgiven
    | stop absent =>
      obtain ⟨he, hes⟩ := List.forall_mem_cons.1 absent
      obtain ⟨-, hoptional, hgiven⟩ := ih (.stop hes)
      rw [List.zip_nil_right] at hgiven ⊢
      exact ⟨Nat.zero_le _, List.forall_mem_cons.2 ⟨hslot.2 he, hoptional⟩, .leave he hgiven⟩

/-- A record decodes every arrangement of its entries as it decodes them in order. -/
theorem ofJson_arranges (hr : r.Lawful) (hes : r.Covers es)
    (hgiven : ∀ ms, Given es ms → ms.foldlM r.addMember r.start >>= r.build = .ok a)
    (h : Arranges es spare v) : r.decoder.ofJson v = .ok a := by
  obtain ⟨ms, given, more, rfl, hperm, hgiv, hmore⟩ | ⟨vs, rfl, hlist⟩ := h
  · obtain ⟨s, hfold, hbuild⟩ := bind_eq_ok (hgiven given hgiv)
    have hskip : more.foldlM r.addMember s = .ok s := by
      refine foldlM_addMember_skip (fun m hm slot hslot => ?_) s
      obtain ⟨e, he, hname, -⟩ := exists_of_mem_forall₂ hes.flip slot hslot
      rw [hname]
      exact (hmore m hm).1 e he
    have hall : (given ++ more).foldlM r.addMember r.start = .ok s := by
      rw [List.foldlM_append, hfold, ok_bind, hskip]
    change (do r.build (← ms.foldlM r.addMember r.start)) = _
    rw [foldlM_addMember_perm hr hperm.symm hall, ok_bind, hbuild]
  · obtain ⟨hlen, hoptional, hgiv⟩ := exists_given hes hlist
    obtain ⟨s, hfold, hbuild⟩ := bind_eq_ok (hgiven _ hgiv)
    change (do r.build (← r.addItems 0 r.slots vs r.start)) = _
    rw [(addItems_eq_ok_iff hr List.suffix_rfl hr.empty).2 ⟨hlen, hoptional, hfold⟩, ok_bind, hbuild]

end Record

namespace InnerUnion

variable {u : InnerUnion α} {name : String} {variant : Json → Except Mismatch α} {a : α}

/-- The tag of a union, as a member that must be there. -/
def tagEntry (u : InnerUnion α) (name : String) : Entry := ⟨u.tag, (· = .string name), False⟩

theorem name_ofJson (hname : u.variants.lookup name = some variant) :
    (Decoder.name u.variants).ofJson (.string name) = .ok variant := by
  simp only [Decoder.name, Decoder.named, hname]

/-- The tag of a union may stand anywhere. -/
theorem ofJson_tag_among (hname : u.variants.lookup name = some variant)
    {ms more : List (String × Json)} (hperm : ms.Perm ((u.tag, .string name) :: more))
    (hmore : ∀ m ∈ more, m.1 ≠ u.tag) :
    ∃ more', more'.Perm more ∧ u.decoder.ofJson (.object ms) = variant (.object more') := by
  obtain ⟨front, back, rfl⟩ := List.append_of_mem (hperm.mem_iff.2 List.mem_cons_self)
  have hrest : (front ++ back).Perm more := (List.perm_middle.symm.trans hperm).cons_inv
  have hne : ∀ m ∈ front ++ back, m.1 ≠ u.tag := fun m hm => hmore m (hrest.mem_iff.1 hm)
  refine ⟨front ++ back, hrest, ?_⟩
  have hadd : u.addMember ⟨none, front.reverse⟩ (u.tag, .string name) =
      .ok ⟨some variant, front.reverse⟩ := by
    simp only [addMember, if_true, Option.isSome_none, Bool.false_eq_true, if_false,
      name_ofJson hname, ok_bind]
    rfl
  have hfold : (front ++ (u.tag, .string name) :: back).foldlM u.addMember ⟨none, []⟩ =
      .ok ⟨some variant, back.reverse ++ front.reverse⟩ := by
    rw [List.foldlM_append, foldlM_addMember fun m hm => hne m (List.mem_append_left back hm),
      ok_bind, List.append_nil, List.foldlM_cons, hadd, ok_bind,
      foldlM_addMember fun m hm => hne m (List.mem_append_right front hm)]
  simp only [decoder, hfold, ok_bind, ofParts, required]
  rw [← List.reverse_append, List.reverse_reverse]
  rfl

/-- A union decodes every arrangement of the tag and the entries of a variant as the variant decodes
the entries. -/
theorem ofJson_arranges (hname : u.variants.lookup name = some variant)
    (hes : ∀ e ∈ es, e.name ≠ u.tag) (hvariant : ∀ w, Arranges es spare w → variant w = .ok a)
    (h : Arranges (u.tagEntry name :: es) spare v) : u.decoder.ofJson v = .ok a := by
  obtain ⟨ms, given, more, rfl, hperm, hgiven, hmore⟩ | ⟨vs, rfl, hlist⟩ := h
  · obtain ⟨_, given, rfl, rfl, hothers⟩ := hgiven.exists_cons id
    obtain ⟨rest, hrest, hdecode⟩ := ofJson_tag_among hname hperm fun m hm => by
      obtain hm | hm := List.mem_append.1 hm
      · obtain ⟨e, he, hm, -⟩ := hothers.exists_of_mem m hm
        rw [hm]
        exact hes e he
      · exact (hmore m hm).1 _ List.mem_cons_self
    rw [hdecode]
    exact hvariant _ (.inl ⟨rest, given, more, rfl, hrest, hothers, fun m hm =>
      ⟨fun e he => (hmore m hm).1 e (List.mem_cons_of_mem _ he), (hmore m hm).2⟩⟩)
  · cases hlist with
    | give form more =>
      cases form
      change (do (← (Decoder.name u.variants).ofJson (.string name)) _) = _
      rw [name_ofJson hname]
      exact hvariant _ (.inr ⟨_, rfl, more⟩)
    | stop absent => exact absurd (absent _ List.mem_cons_self) id

/-- A union agrees on an array if the tag is a string and the other items are readable. -/
theorem agrees_array {s : String} {vs : List Json} (hvs : ∀ v ∈ vs, Readable d v) :
    u.decoder.Agrees (d + 1) (.array (.string s :: vs)) := by
  intro a ha t ht rest _
  obtain ⟨variant, hvariant, hcontent⟩ := bind_eq_ok ha
  obtain ⟨c, w, hc, hw, hpeek⟩ := ht.front
  obtain rfl := hw.eq_of_array hc
  have hitems : u.readItems d (w ++ rest) = .ok (variant, .array vs) (']' :: rest) := by
    cases hw with
    | blank hspace => cases hspace
    | @array _ _ x y first more =>
      obtain ⟨x', hx', hnext⟩ := nextItem_first first
      have htag := Decoder.name_agrees u.variants d s variant hvariant x' hx' (y ++ rest)
        (more.stops_items rest)
      have hfold : foldItems (fun done => do return (← value d) :: done) (' ' :: (y ++ rest)) false
          [] (y ++ rest) = .ok vs.reverse (']' :: rest) := by
        have hlen := length_lt_of_spells_items more
        refine foldItems_of_spells (f := fun done v => .ok (v :: done)) ?_ more
          (by simp; omega) ((foldlM_cons_eq vs []).trans (by rw [List.append_nil])) rest
        intro v hv done done' t ht hdone rest hrest
        cases hdone
        rw [bind_ok (value_of_spells ht (hvs v hv) rest hrest)]
        rfl
      rw [List.append_assoc, readItems, bind_ok (hnext (y ++ rest))]
      simp only [if_true]
      rw [bind_ok htag, bind_ok (r := fun s => foldItems _ (' ' :: s) false [] s) hfold,
        List.reverse_reverse]
      rfl
  refine (bind_ok (a := (variant, Json.array vs)) ?_ _).trans (ofExcept_ok hcontent)
  apply placed_ok
  rw [bind_ok (hpeek rest)]
  exact closing_ok hitems (endItems_close rest)

/-- A union agrees on every arrangement of the tag and readable values. -/
theorem agrees_arranges (hes : ∀ e ∈ es, e.name ≠ u.tag ∧ ∀ w, e.form w → Readable d w)
    (hspare : ∀ w, spare w → Readable d w) (h : Arranges (u.tagEntry name :: es) spare v) :
    u.decoder.Agrees (d + 1) v := by
  obtain h | ⟨vs, rfl, hlist⟩ := h
  · obtain ⟨ms, _, _, rfl, -⟩ := id h
    refine agrees_object (fun m hm htag => ?_) fun m hm => ?_
    · obtain ⟨e, he, hname, hform⟩ | ⟨hne, -⟩ := h.exists_member m hm
      · obtain rfl | he := List.mem_cons.1 he
        · exact ⟨name, hform⟩
        · exact absurd (hname.symm.trans htag) (hes e he).1
      · exact absurd htag (hne _ List.mem_cons_self)
    · obtain ⟨e, he, -, hform⟩ | ⟨-, hm⟩ := h.exists_member m hm
      · obtain rfl | he := List.mem_cons.1 he
        · rw [show m.2 = .string name from hform]
          exact readable_string d name
        · exact (hes e he).2 m.2 hform
      · exact hspare m.2 hm
  · cases hlist with
    | give form more =>
      cases form
      refine agrees_array fun w hw => ?_
      obtain ⟨e, he, hform⟩ := more.exists_of_mem w hw
      exact (hes e he).2 w hform
    | stop absent => exact absurd (absent _ List.mem_cons_self) id

end InnerUnion

end JobGateway.Json
