import JobGateway.Proofs.Json.Denotation
import JobGateway.Proofs.Json.Soundness

/-! Unions and records along an outline. A union or a record is read from the text of a value, each
part of it from the part of the text that has its name or its place. -/
namespace JobGateway.Json

open Reader

variable {α σ : Type} {s s' t u rest : List Char} {us : List (List Char)}
  {m : List Char × List Char} {ms : List (List Char × List Char)} {v : Json} {name : String}

namespace InnerUnion

variable {w : InnerUnion α} {d : Nat} {a : α}

/-- What a member adds to what is read of a union. -/
theorem of_readMember {parts parts' : Parts α}
    (h : w.readMember d parts name s = .ok parts' s') :
    ∃ t, colon s = .ok () t ∧
      ((name = w.tag ∧ parts.variant = none ∧ parts'.variant.isSome = true ∧
          parts'.members = parts.members) ∨
        (name ≠ w.tag ∧ parts'.variant = parts.variant ∧ ∃ v, value d t = .ok v s' ∧
          parts'.members = (name, v) :: parts.members)) := by
  unfold readMember at h
  split_ifs at h with htag hset
  · cases h
  · obtain ⟨_, t, hcolon, h⟩ := exists_of_bind h
    obtain ⟨variant, x, -, h⟩ := exists_of_bind h
    cases h
    exact ⟨t, hcolon, .inl ⟨htag, by simpa using hset, rfl, rfl⟩⟩
  · obtain ⟨_, t, hcolon, h⟩ := exists_of_bind h
    obtain ⟨v, x, hv, h⟩ := exists_of_bind h
    cases h
    exact ⟨t, hcolon, .inr ⟨htag, rfl, v, hv, rfl⟩⟩

theorem readMember_ends (parts : Parts α) (name : String) :
    (w.readMember d parts name).EndsContent := by
  unfold readMember
  split_ifs
  · rintro s a s' ⟨⟩
  · exact ((Decoder.parsed_spans _ _ d).ends.bind fun _ _ _ _ => eq_of_pure).content
  · exact ((value_ends d).bind fun _ _ _ _ => eq_of_pure).content

/-- The tag is read once, and the other members are kept. -/
theorem follows_readMember {parts parts' : Parts α} (h : Follows (w.readMember d) parts ms parts') :
    (∃ vs, parts'.members = vs.reverse ++ parts.members ∧ Kept (· = w.tag) ms vs) ∧
    ∃ names, Names ms names ∧ (parts.variant.isSome = true → w.tag ∉ names) ∧
      names.count w.tag ≤ 1 := by
  induction h with
  | done => exact ⟨⟨[], rfl, .nil⟩, [], .nil, fun _ => List.not_mem_nil, by simp⟩
  | @next parts _ _ name m _ _ ms named content read _ ih =>
    obtain ⟨⟨vs, hvs, hkept⟩, names, hnames, hnot, hcount⟩ := ih
    obtain ⟨t, hcolon, ⟨rfl, hnone, hsome, hmembers⟩ | ⟨hne, hvariant, v, hv, hmembers⟩⟩ :=
      of_readMember read
    · refine ⟨⟨vs, by rw [hvs, hmembers], .leave named rfl hkept⟩, _, .cons named hnames, ?_, ?_⟩
      · rw [hnone]
        rintro ⟨⟩
      · rw [List.count_cons_self, List.count_eq_zero_of_not_mem (hnot hsome)]
    · rw [content] at hcolon
      cases hcolon
      refine ⟨⟨(name, v) :: vs, by simp [hvs, hmembers],
        .keep named hne (.of_value rfl hv) hkept⟩, _, .cons named hnames, fun hset => ?_, ?_⟩
      · rw [List.mem_cons, not_or]
        exact ⟨Ne.symm hne, hnot (hvariant ▸ hset)⟩
      · rwa [List.count_cons_of_ne hne]

/-- What a union is read from has one tag, and the variant decodes the other members. -/
theorem read_object (h : w.decoder.read d s = .ok a s') (hsame : peek s = peek (t ++ rest))
    (hobject : IsObjectOf ms t) :
    Once w.tag ms ∧ ∃ name variant vs, (name, variant) ∈ w.variants ∧
      variant (.object vs) = .ok a ∧ Kept (· = w.tag) ms vs := by
  obtain ⟨variant, content, d, y, z, ha, ⟨hbracket, -⟩ | ⟨hbracket, parts, hmembers, hend, hparts⟩⟩ :=
    of_decoder h
  · exact absurd (hobject.of_peek hsame hbracket).1 (by decide)
  · have hfollows := hobject.follows readMember_ends hsame hbracket hmembers hend
    obtain ⟨⟨vs, hvs, hkept⟩, names, hnames, -, hcount⟩ := follows_readMember hfollows
    have hknown := Reader.Yields.members (readMember_yields d)
      (a := ⟨none, []⟩) (fun _ h => by cases h) y parts z hmembers
    obtain ⟨name, hmem⟩ := ofParts_known hparts hknown
    obtain ⟨_, -, hcontent⟩ := bind_eq_ok hparts
    cases hcontent
    refine ⟨hnames.once hcount, name, variant, vs, hmem, ?_, hkept⟩
    rw [← ha, hvs]
    simp

/-- The first item of the array that a union is read from is the tag, and the variant decodes the
others. -/
theorem read_array (h : w.decoder.read d s = .ok a s') (hsame : peek s = peek (t ++ rest))
    (harray : IsArrayOf us t) :
    ∃ tag us' name variant vs, us = tag :: us' ∧ (name, variant) ∈ w.variants ∧
      variant (.array vs) = .ok a ∧ List.Forall₂ Denotes us' vs := by
  obtain ⟨variant, content, d, y, z, ha, ⟨hbracket, hread, hend⟩ | ⟨hbracket, -⟩⟩ := of_decoder h
  swap
  · exact absurd (harray.of_peek hsame hbracket).1 (by decide)
  obtain ⟨name, hmem⟩ := readItems_yields d y (variant, content) z hread
  obtain ⟨p, q, vs, hnext, htag, hitems, rfl⟩ := of_readItems hread
  obtain ⟨-, x, rfl, hparts⟩ := harray.of_peek hsame hbracket
  obtain ⟨⟨⟩, -⟩ | ⟨-, tag, us', t', rfl, hmore, hfirst⟩ :=
    hparts.remains.item_cases harray.values hnext
  obtain ⟨hvalue, hvalues⟩ := List.forall_mem_cons.1 harray.values
  obtain rfl := (Decoder.parsed_spans _ _ d).ends.eq_rest hvalue hfirst
    (hmore.stops (b := .list) rest) htag
  obtain ⟨hfollows, -⟩ := hmore.remains.follows_items
    (fun _ => (value_ends d).bind fun _ _ _ _ => eq_of_pure) hvalues hitems hend
  obtain ⟨ws, rfl, hws⟩ := hfollows.values
  refine ⟨tag, us', name, variant, ws, rfl, hmem, ?_, hws⟩
  rw [← ha]
  simp

/-- A part of what a union is read from, which is not the tag, is a part of what the variant decodes.
An array has the tag before the other items. -/
theorem read_part (h : w.decoder.read d s = .ok a s') (hsame : peek s = peek (t ++ rest))
    {index : Nat} (hpart : HasPart name (index + 1) t u) (hname : name ≠ w.tag) :
    ∃ n variant content v, (n, variant) ∈ w.variants ∧ variant content = .ok a ∧
      Holds name index v content ∧ Denotes u v := by
  cases hpart with
  | member object hm named =>
    obtain ⟨-, n, variant, vs, hmem, ha, hkept⟩ := read_object h hsame object
    obtain ⟨v, hv, hdenotes⟩ := hkept.exists_value hname hm named
    exact ⟨n, variant, _, v, hmem, ha, .member hv, hdenotes⟩
  | item array hu =>
    obtain ⟨tag, us', n, variant, vs, rfl, hmem, ha, hall⟩ := read_array h hsame array
    obtain ⟨v, hv, hdenotes⟩ := (exists_of_getElem?_forall₂ hall).1 u hu
    exact ⟨n, variant, _, v, hmem, ha, .item hv, hdenotes⟩

end InnerUnion

namespace Record

variable {r : Record σ α} {d : Nat} {state state' : σ} {slot : Slot σ}

theorem readMember_ends (hslots : ∀ slot ∈ r.slots, (slot.read d).Ends) (state : σ)
    (name : String) : (r.readMember d state name).EndsContent := by
  intro s a s' h
  obtain ⟨t, hcolon, ⟨-, hskip, -⟩ | ⟨slot, put, hfind, -, hput, -⟩⟩ := of_readMember h
  · exact ⟨t, hcolon, hskip⟩
  · exact ⟨t, hcolon, hslots slot (List.mem_of_find?_eq_some hfind) t put s' hput⟩

theorem adds_of_readMember (h : r.readMember d state name s = .ok state' s') :
    r.Adds name state state' := by
  obtain ⟨t, -, ⟨hfind, -, rfl⟩ | ⟨slot, put, hfind, hempty, hput, rfl⟩⟩ := of_readMember h
  · exact .skip hfind
  · exact .fill hfind hempty (.read hput)

theorem follows_run (h : Follows (r.readMember d) state ms state') :
    ∃ names, Names ms names ∧ r.Run state names state' := by
  induction h with
  | done => exact ⟨[], .nil, .done⟩
  | next named _ read _ ih =>
    obtain ⟨names, hnames, hrun⟩ := ih
    exact ⟨_ :: names, .cons named hnames, .next (adds_of_readMember read) hrun⟩

/-- What a slot is filled with stays there. -/
theorem Run.exists_eq (hr : r.Lawful) (hslot : slot ∈ r.slots) {f : σ → σ} (hf : slot.Puts f)
    {names : List String} (h : r.Run (f state) names state') : ∃ s, state' = f s := by
  generalize hstate : f state = s at h
  induction h generalizing state with
  | done => exact ⟨state, hstate.symm⟩
  | next first _ ih =>
    subst hstate
    cases first with
    | skip _ => exact ih rfl
    | @fill slot' g known empty puts =>
      have hslot' := List.mem_of_find?_eq_some known
      by_cases hname : slot.name = slot'.name
      · have hsame : some slot = some slot' := by rw [← hr.find? hslot, hname, hr.find? hslot']
        cases hsame
        rw [hr.marks slot hslot f hf] at empty
        cases empty
      · exact ih ((hr.apart_of_ne hslot hslot' hname).comm f g hf puts state)

/-- The content of a known member is read by its slot. -/
theorem follows_slot (hr : r.Lawful) (hslot : slot ∈ r.slots)
    (h : Follows (r.readMember d) state ms state') (hm : m ∈ ms) (hnamed : Named slot.name m) :
    ∃ f rest s' s, slot.read d (m.2 ++ rest) = .ok f s' ∧ state' = f s := by
  induction h with
  | done => exact absurd hm List.not_mem_nil
  | @next state _ _ name m' x y ms named content read more ih =>
    obtain rfl | hm := List.mem_cons.1 hm
    · obtain rfl := hnamed.unique named
      obtain ⟨t, hcolon, ⟨hfind, -⟩ | ⟨slot', put, hfind, -, hput, rfl⟩⟩ := of_readMember read
      · rw [hr.find? hslot] at hfind
        cases hfind
      · rw [hr.find? hslot] at hfind
        cases hfind
        rw [content] at hcolon
        cases hcolon
        obtain ⟨names, -, hrun⟩ := follows_run more
        obtain ⟨s, hs⟩ := hrun.exists_eq hr hslot (.read hput)
        exact ⟨put, y, _, s, hput, hs⟩
    · exact ih hm

/-- What is read of the items that follow does not undo what a slot of another name was filled
with. -/
theorem readSlots_exists_eq {f : σ → σ} {slots : List (Slot σ)}
    (hcomm : ∀ slot ∈ slots, ∀ g, slot.Puts g → ∀ s, g (f s) = f (g s)) {first : Bool} {index : Nat}
    (h : r.readSlots d first index slots (f state) s = .ok state' s') : ∃ s, state' = f s := by
  induction slots generalizing first index state s with
  | nil =>
    cases h
    exact ⟨state, rfl⟩
  | cons slot slots ih =>
    obtain ⟨hslot, hslots⟩ := List.forall_mem_cons.1 hcomm
    obtain ⟨more, t, -, h⟩ := exists_of_bind h
    split_ifs at h
    · obtain ⟨g, x, hg, h⟩ := exists_of_bind h
      rw [hslot g (.read hg)] at h
      exact ih hslots h
    · exact ih hslots h
    · cases h

/-- Every item is read by the slot at its place. -/
theorem readSlots_slot (hr : r.Lawful) {slots : List (Slot σ)} (hslots : slots <:+ r.slots)
    (hends : ∀ slot ∈ r.slots, (slot.read d).Ends) {first : Bool} {index : Nat}
    (hremains : Remains ']' first us t) (hus : ∀ u ∈ us, IsValue u)
    (h : r.readSlots d first index slots state (t ++ rest) = .ok state' s') {i : Nat}
    (hslot : slots[i]? = some slot) (hu : us[i]? = some u) :
    ∃ f rest x y s, peek x = peek (u ++ rest) ∧ slot.read d x = .ok f y ∧ state' = f s := by
  induction slots generalizing first index us t state i with
  | nil => cases hslot
  | cons slot' slots ih =>
    have hmem : slot' ∈ r.slots := hslots.mem List.mem_cons_self
    obtain ⟨more, x, hnext, h⟩ := exists_of_bind h
    obtain ⟨-, rfl, -⟩ | ⟨rfl, u', us', t', rfl, hmore, hsame⟩ := hremains.item_cases hus hnext
    · cases hu
    obtain ⟨hu', hus'⟩ := List.forall_mem_cons.1 hus
    simp only [if_true] at h
    obtain ⟨f, y, hf, hrest⟩ := exists_of_bind h
    obtain rfl := (hends slot' hmem).eq_rest hu' hsame (hmore.stops (b := .list) rest) hf
    cases i with
    | zero =>
      cases hslot
      cases hu
      have hcomm : ∀ other ∈ slots, ∀ g, other.Puts g → ∀ s, g (f s) = f (g s) := by
        intro other hother g hg s
        have hapart := List.rel_of_pairwise_cons (hr.apart.sublist hslots.sublist) hother
        exact (hapart.comm f g (.read hf) hg s).symm
      obtain ⟨s, hs⟩ := readSlots_exists_eq hcomm hrest
      exact ⟨f, _, x, _, s, hsame, hf, hs⟩
    | succ i =>
      exact ih ((List.suffix_cons slot' slots).trans hslots) hmore.remains hus' hrest hslot hu

/-- What a record is read from has each known member at most once, and its slot reads its content. -/
theorem read_object (hr : r.Lawful) (hslots : ∀ d, ∀ slot ∈ r.slots, (slot.read d).Ends) {a : α}
    (h : r.decoder.read d s = .ok a s') (hsame : peek s = peek (t ++ rest))
    (hobject : IsObjectOf ms t) :
    (∀ slot ∈ r.slots, Once slot.name ms) ∧ ∃ d state, r.build state = .ok a ∧
      ∀ slot ∈ r.slots, ∀ m ∈ ms, Named slot.name m →
        ∃ f rest s' s, slot.read d (m.2 ++ rest) = .ok f s' ∧ state = f s := by
  obtain ⟨d, y, state, z, ha, ⟨hbracket, -⟩ | ⟨hbracket, hmembers, hend⟩⟩ := of_decoder h
  · exact absurd (hobject.of_peek hsame hbracket).1 (by decide)
  · have hfollows := hobject.follows (readMember_ends (hslots d)) hsame hbracket hmembers hend
    refine ⟨fun slot hslot => ?_, d, state, ha, fun slot hslot m hm hnamed =>
      follows_slot hr hslot hfollows hm hnamed⟩
    obtain ⟨names, hnames, hrun⟩ := follows_run hfollows
    exact hnames.once ((hrun.filled hr hslot).2 (hr.empty slot hslot)).1

/-- A part of what a record is read from is read by its slot. -/
theorem read_part (hr : r.Lawful) (hslots : ∀ d, ∀ slot ∈ r.slots, (slot.read d).Ends) {a : α}
    (h : r.decoder.read d s = .ok a s') (hsame : peek s = peek (t ++ rest)) {index : Nat}
    (hslot : r.slots[index]? = some slot) (hpart : HasPart slot.name index t u) :
    ∃ state f d rest x y s, r.build state = .ok a ∧ peek x = peek (u ++ rest) ∧
      slot.read d x = .ok f y ∧ state = f s := by
  cases hpart with
  | member object hm named =>
    obtain ⟨-, d, state, ha, hread⟩ := read_object hr hslots h hsame object
    obtain ⟨f, rest, y, s, hf, hs⟩ := hread slot (List.mem_of_getElem? hslot) _ hm named
    exact ⟨state, f, d, rest, _, y, s, ha, rfl, hf, hs⟩
  | item array hu =>
    obtain ⟨d, y, state, z, ha, ⟨hbracket, hread, -⟩ | ⟨hbracket, -⟩⟩ := of_decoder h
    swap
    · exact absurd (array.of_peek hsame hbracket).1 (by decide)
    obtain ⟨-, x, rfl, hparts⟩ := array.of_peek hsame hbracket
    obtain ⟨f, rest, x, y, s, hx, hf, hs⟩ := readSlots_slot hr List.suffix_rfl (hslots d)
      hparts.remains array.values hread hslot hu
    exact ⟨state, f, d, rest, x, y, s, ha, hx, hf, hs⟩

/-- The items that a record is read from, up to the end of the list. -/
theorem isTail_of_readSlots {slots : List (Slot σ)} (hends : ∀ slot ∈ slots, (slot.read d).Ends)
    {first : Bool} {index : Nat} (h : r.readSlots d first index slots state s = .ok state' t)
    (hend : endItems t = .ok () s') : ∃ x, s = x ++ s' ∧ IsTail .list first x := by
  induction slots generalizing first index state s with
  | nil =>
    cases h
    exact isTail_of_mark (b := .list) first (of_endItems hend)
  | cons slot slots ih =>
    obtain ⟨hslot, hslots⟩ := List.forall_mem_cons.1 hends
    obtain ⟨more, x, hnext, hread⟩ := exists_of_bind h
    cases more with
    | false =>
      simp only [Bool.false_eq_true, if_false] at hread
      split_ifs at hread
      · -- The slot is left out, and the text is as it was, without the blanks before the mark.
        obtain ⟨w, y, hw, rfl, rfl⟩ := exists_blank_of_peek (of_nextItem_false hnext)
        obtain ⟨z, hz, htail⟩ := ih hslots hread
        exact ⟨w ++ z, by rw [hz, List.append_assoc], htail.blanks hw⟩
      · cases hread
    | true =>
      simp only [if_true] at hread
      obtain ⟨f, y, hf, hread⟩ := exists_of_bind hread
      obtain ⟨v, hx, hv⟩ := isValue_of_skipValue (hslot x f y hf)
      exact isTail_of_nextItem hnext hv hx (ih hslots hread)

/-- What a record is read from is the text of a value. -/
theorem isValue_of_decoder (hslots : ∀ d, ∀ slot ∈ r.slots, (slot.read d).Ends) {a : α}
    (h : r.decoder.read d s = .ok a s') : ∃ t, s = t ++ s' ∧ IsValue t := by
  obtain ⟨d, t, state, x, -, ⟨hpeek, hread, hend⟩ | ⟨hpeek, hread, hend⟩⟩ := of_decoder h
  · obtain ⟨w, _, hw, ⟨⟩, rfl⟩ := exists_blank_of_peek hpeek
    obtain ⟨u, rfl, hu⟩ := isTail_of_readSlots (hslots d) hread hend
    exact ⟨w ++ '[' :: u, by simp, isValue_bracket hw hu⟩
  · obtain ⟨w, _, hw, ⟨⟩, rfl⟩ := exists_blank_of_peek hpeek
    obtain ⟨u, rfl, hu⟩ := isTail_of_foldMembers (readMember_ends (hslots d)) hread hend
    exact ⟨w ++ '\x7b' :: u, by simp, isValue_bracket hw hu⟩

end Record

end JobGateway.Json
