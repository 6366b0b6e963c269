import JobGateway.Json.Union
import JobGateway.Proofs.Json.Skipping

/-! Decoders against spellings. A decoder that agrees with itself on a value reads from every
spelling of the value what it makes of the value, so the compact text of the value is decoded like
the value. Records and unions agree on an object if the decoders of their members agree. -/
namespace JobGateway.Json

open Reader

/-- Whatever the decoder makes of a value, it reads from every spelling of the value. -/
def Decoder.Agrees {α : Type} (d : Decoder α) (depth : Nat) (v : Json) : Prop :=
  ∀ a, d.ofJson v = .ok a → ∀ t, Spells (.value v) t → Takes (d.read depth) t a

def Slot.Agrees {σ : Type} (slot : Slot σ) (depth : Nat) (v : Json) : Prop :=
  ∀ f, slot.ofJson v = .ok f → ∀ t, Spells (.value v) t → Takes (slot.read depth) t f

variable {α σ : Type}

theorem map_eq_ok {ε α β : Type} {x : Except ε α} {f : α → β} {b : β} (h : f <$> x = .ok b) :
    ∃ a, x = .ok a ∧ f a = b := by
  cases x with
  | error e => cases h
  | ok a => exact ⟨a, rfl, Except.ok.inj h⟩

theorem map_eq_error_iff {ε α β : Type} {x : Except ε α} {f : α → β} {e : ε} :
    f <$> x = .error e ↔ x = .error e := by
  cases x with
  | error e =>
    constructor
    · rintro ⟨⟩
      rfl
    · rintro ⟨⟩
      rfl
  | ok a => constructor <;> rintro ⟨⟩

theorem Slot.keeping_agrees {d : Decoder α} {depth : Nat} {v : Json} (h : d.Agrees depth v)
    {name : String} {optional : Bool} {get : σ → Option α} {put : α → σ → σ} :
    (Slot.keeping name optional d get put).Agrees depth v := by
  intro f hf t ht
  obtain ⟨a, ha, rfl⟩ := map_eq_ok hf
  exact (h a ha t ht).map put

theorem Spells.string_front {s : String} {t : List Char} (h : Spells (.value (.string s)) t) :
    ∃ u, SpellsString s.toList u ∧
      ∀ rest, peek (t ++ rest) = .ok (some '"') ('"' :: (u ++ rest)) := by
  obtain ⟨c, u, hc, hu, hpeek⟩ := h.front
  cases hu with
  | blank hspace => rw [hc] at hspace; cases hspace
  | string body => exact ⟨u, body, hpeek⟩

theorem parsed_read {expected : String} {parse : String → Except Mismatch α} {s : String} {a : α}
    (ha : parse s = .ok a) (depth : Nat) {t : List Char} (h : Spells (.value (.string s)) t) :
    Takes ((Decoder.parsed expected parse).read depth) t a := by
  intro rest _
  obtain ⟨u, hu, hpeek⟩ := h.string_front
  apply placed_ok
  rw [bind_ok (hpeek rest)]
  change (do advance; ofExcept (parse (← stringBody)) : Reader α) _ = _
  rw [bind_ok (advance_cons '"' _), bind_ok (stringBody_of_spells hu rest)]
  exact ofExcept_ok ha

theorem Decoder.parsed_agrees (expected : String) (parse : String → Except Mismatch α)
    (depth : Nat) (v : Json) : (Decoder.parsed expected parse).Agrees depth v := by
  intro a ha t ht
  cases v with
  | string s => exact parsed_read ha depth ht
  | _ => cases ha

theorem Decoder.name_agrees (known : List (String × α)) (depth : Nat) (s : String) :
    (Decoder.name known).Agrees depth (.string s) := fun _ ha _ ht => parsed_read ha depth ht

/-- What a reader sees that looks at the next character of an object. -/
theorem Spells.object_front {ms : List (String × Json)} {t : List Char}
    (h : Spells (.value (.object ms)) t) :
    ∃ u, Spells (.value (.object ms)) ('\x7b' :: u) ∧
      ∀ rest, peek (t ++ rest) = .ok (some '\x7b') ('\x7b' :: (u ++ rest)) := by
  obtain ⟨c, u, hc, hu, hpeek⟩ := h.front
  obtain rfl := hu.eq_of_object hc
  exact ⟨u, hu, hpeek⟩

/-- A record agrees on an object if its slots agree on the members that they are for. -/
theorem Record.agrees_object {r : Record σ α} {depth : Nat} {ms : List (String × Json)}
    (hslots : ∀ slot ∈ r.slots, ∀ m ∈ ms, slot.name = m.1 → slot.Agrees depth m.2) :
    r.decoder.Agrees (depth + 1) (.object ms) := by
  intro a ha t ht rest _
  obtain ⟨state, hfold, hbuild⟩ := bind_eq_ok ha
  obtain ⟨u, hu, hpeek⟩ := ht.object_front
  have hmembers : members (r.readMember depth) r.start (u ++ rest) = .ok state ('\x7d' :: rest) := by
    refine members_of_spells ?_ hu hfold rest
    intro m hm s s' t ht hadd
    rw [addMember] at hadd
    unfold readMember
    cases hfind : r.slots.find? (·.name == m.1) with
    | none =>
      rw [hfind] at hadd
      cases hadd
      refine takes_content ht fun u hu rest hrest => ?_
      rw [bind_ok (skipValue_of_spells hu rest hrest)]
      rfl
    | some slot =>
      simp only [hfind] at hadd
      split_ifs at hadd with hfilled
      obtain ⟨f, hf, hs'⟩ := bind_eq_ok hadd
      cases hs'
      have hname : slot.name = m.1 := by simpa using List.find?_some hfind
      have hagrees := hslots slot (List.mem_of_find?_eq_some hfind) m hm hname f hf
      simp only [if_neg hfilled]
      refine takes_content ht fun u hu rest hrest => ?_
      rw [bind_ok (hagrees u hu rest hrest)]
      rfl
  apply placed_ok
  rw [bind_ok (hpeek rest)]
  change enter (depth + 1) (fun depth => closing (do
    ofExcept (r.build (← members (r.readMember depth) r.start))) endMembers) _ = _
  rw [enter_bracket]
  refine closing_ok ?_ (endMembers_close rest)
  rw [bind_ok hmembers]
  exact ofExcept_ok hbuild

/-- A member of a union with its tag inside is read as it is decoded. -/
theorem InnerUnion.readMember_takes {u : InnerUnion α} {depth : Nat} {m : String × Json}
    (htag : m.1 = u.tag → ∃ s, m.2 = .string s) (hvalue : Readable depth m.2) {t : List Char}
    (ht : Spells (.content m.2) t) {parts parts' : Parts α} (h : u.addMember parts m = .ok parts') :
    Takes (u.readMember depth parts m.1) t parts' := by
  unfold addMember at h
  unfold readMember
  split_ifs at h with hname hset
  · obtain ⟨s, hs⟩ := htag hname
    obtain ⟨variant, hvariant, hparts⟩ := bind_eq_ok h
    cases hparts
    simp only [if_pos hname, if_neg hset]
    refine takes_content ht fun u hu rest hrest => ?_
    rw [hs] at hu hvariant
    rw [bind_ok (Decoder.name_agrees _ depth s variant hvariant u hu rest hrest)]
    rfl
  · cases h
    simp only [if_neg hname]
    refine takes_content ht fun u hu rest hrest => ?_
    rw [bind_ok (value_of_spells hu hvalue rest hrest)]
    rfl

/-- A union with its tag inside agrees on an object if the tag is a string and the members are not
too deep. -/
theorem InnerUnion.agrees_object {u : InnerUnion α} {depth : Nat} {ms : List (String × Json)}
    (htag : ∀ m ∈ ms, m.1 = u.tag → ∃ s, m.2 = .string s)
    (hvalues : ∀ m ∈ ms, Readable depth m.2) :
    u.decoder.Agrees (depth + 1) (.object ms) := by
  intro a ha t ht rest _
  obtain ⟨parts, hfold, hparts⟩ := bind_eq_ok ha
  obtain ⟨⟨variant, content⟩, hof, hvariant⟩ := bind_eq_ok hparts
  obtain ⟨w, hw, hpeek⟩ := ht.object_front
  have hmembers : members (u.readMember depth) ⟨none, []⟩ (w ++ rest) =
      .ok parts ('\x7d' :: rest) := by
    refine members_of_spells (fun m hm s s' t ht hadd => ?_) hw hfold rest
    exact readMember_takes (htag m hm) (hvalues m hm) ht hadd
  refine (bind_ok (a := (variant, content)) ?_ _).trans (ofExcept_ok hvariant)
  apply placed_ok
  rw [bind_ok (hpeek rest)]
  change enter (depth + 1) (fun depth => closing (do
    ofExcept (ofParts u (← members (readMember u depth) ⟨none, []⟩))) endMembers) _ = _
  rw [enter_bracket]
  refine closing_ok ?_ (endMembers_close rest)
  rw [bind_ok hmembers]
  exact ofExcept_ok hof

/-- What a decoder makes of a value, it reads from the compact text of the value. -/
theorem Decoder.decode_text {d : Decoder α} {v : Json} (hplain : Plain maxDepth v)
    (h : d.Agrees maxDepth v) {a : α} (ha : d.ofJson v = .ok a) : d.decode v.text = .ok a := by
  have hread := readAll_of_takes (h a ha _ (spells_render hplain)) (b := []) (by simp)
  rw [decode, text, String.toList_ofList]
  rwa [List.append_nil] at hread

@[simp] theorem ok_bind {ε α β : Type} (a : α) (f : α → Except ε β) :
    ((.ok a : Except ε α) >>= f) = f a := rfl

@[simp] theorem map_ok_eq {ε α β : Type} (f : α → β) (a : α) :
    f <$> (.ok a : Except ε α) = .ok (f a) := rfl

theorem Slot.keeping_ofJson {d : Decoder α} {v : Json} {a : α} (h : d.ofJson v = .ok a)
    (name : String) (optional : Bool) (get : σ → Option α) (put : α → σ → σ) :
    (Slot.keeping name optional d get put).ofJson v = .ok (put a) := by
  change put <$> d.ofJson v = _
  rw [h]
  rfl

/-- A member that is known and not there yet is kept. -/
theorem Record.foldlM_member {r : Record σ α} {state : σ} {m : String × Json} {slot : Slot σ}
    {f : σ → σ} (hfind : r.slots.find? (·.name == m.1) = some slot)
    (hfilled : slot.filled state = false) (hf : slot.ofJson m.2 = .ok f)
    (ms : List (String × Json)) :
    (m :: ms).foldlM r.addMember state = ms.foldlM r.addMember (f state) := by
  have hadd : r.addMember state m = .ok (f state) := by
    simp only [addMember, hfind, hfilled, hf, ok_bind, Bool.false_eq_true, if_false]
    rfl
  rw [List.foldlM_cons, hadd, ok_bind]

theorem InnerUnion.foldlM_addMember {u : InnerUnion α} {ms : List (String × Json)}
    (htag : ∀ m ∈ ms, m.1 ≠ u.tag) (variant : Option (Json → Except Mismatch α))
    (done : List (String × Json)) :
    ms.foldlM u.addMember ⟨variant, done⟩ = .ok ⟨variant, ms.reverse ++ done⟩ := by
  induction ms generalizing done with
  | nil => rfl
  | cons m ms ih =>
    have hadd : u.addMember ⟨variant, done⟩ m = .ok ⟨variant, m :: done⟩ :=
      if_neg (htag m (by simp))
    rw [List.foldlM_cons, hadd, ok_bind, ih (fun m hm => htag m (by simp [hm])),
      List.reverse_cons, List.append_assoc, List.singleton_append]

/-- A union with its tag inside, as it is written: the tag comes first. -/
theorem InnerUnion.ofJson_tagged {u : InnerUnion α} {name : String}
    {variant : Json → Except Mismatch α} (hname : u.variants.lookup name = some variant)
    {ms : List (String × Json)} (htag : ∀ m ∈ ms, m.1 ≠ u.tag) :
    u.decoder.ofJson (.object ((u.tag, .string name) :: ms)) = variant (.object ms) := by
  have hnamed : (Decoder.name u.variants).ofJson (.string name) = .ok variant := by
    simp only [Decoder.name, Decoder.named, hname]
  have hadd : u.addMember ⟨none, []⟩ (u.tag, .string name) = .ok ⟨some variant, []⟩ := by
    simp only [addMember, if_true, Option.isSome_none, Bool.false_eq_true, if_false, hnamed, ok_bind]
    rfl
  simp only [decoder, List.foldlM_cons, hadd, ok_bind, foldlM_addMember htag, ofParts, required,
    List.append_nil, List.reverse_reverse]
  rfl

/-- A union with its content beside the tag, as it is written. -/
theorem OuterUnion.ofJson_tagged {u : OuterUnion α} {name : String} {d : Decoder α}
    (hname : u.variants.lookup name = some d) (hne : u.content ≠ u.tag) (v : Json) :
    u.decoder.ofJson (.object [(u.tag, .string name), (u.content, v)]) = d.ofJson v := by
  have htag : u.addMember .none (u.tag, .string name) = .ok (.tag d) := by
    simp only [addMember, if_true, Decoder.constant, Decoder.named, hname, map_ok_eq]
  have hcontent : u.addMember (.tag d) (u.content, v) = .both <$> d.ofJson v := by
    simp only [addMember, if_neg hne, if_true]
  simp only [decoder, List.foldlM_cons, htag, ok_bind, hcontent]
  cases d.ofJson v <;> rfl

end JobGateway.Json
