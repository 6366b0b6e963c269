import JobGateway.Proofs.Json.Decoding

/-! What decoders yield. A property of the values that the parts of a decoder yield, whatever they
read, is one of the values that the decoder yields. -/
namespace JobGateway.Json

/-- Whenever the reader succeeds, what it read has the property. -/
def Reader.Yields {α : Type} (r : Reader α) (P : α → Prop) : Prop :=
  ∀ s a s', r s = .ok a s' → P a

namespace Reader.Yields

variable {α β σ : Type} {P : α → Prop} {Q : β → Prop}

theorem pure {a : α} (h : P a) : Yields (pure a) P := by
  intro s b s' hb
  cases hb
  exact h

theorem fail (cause : Cause) : Yields (fail cause) P := by
  rintro s a s' ⟨⟩

theorem failNext (cause : Cause) : Yields (failNext cause) P := by
  rintro s a s' ⟨⟩

theorem mismatch (how : Mismatch) : Yields (mismatch how) P := by
  rintro s a s' ⟨⟩

theorem bind {r : Reader α} {f : α → Reader β} (hr : Yields r P) (hf : ∀ a, P a → Yields (f a) Q) :
    Yields (r >>= f) Q := by
  intro s b s' hb
  obtain ⟨a, t, ha, hb⟩ := exists_of_bind hb
  exact hf a (hr s a t ha) t b s' hb

theorem any (r : Reader α) : Yields r fun _ => True := fun _ _ _ _ => trivial

theorem mono {P Q : α → Prop} {r : Reader α} (hr : Yields r P) (h : ∀ a, P a → Q a) :
    Yields r Q := fun s a s' ha => h a (hr s a s' ha)

theorem map {r : Reader α} {f : α → β} (hr : Yields r fun a => Q (f a)) : Yields (f <$> r) Q := by
  intro s b s' hb
  obtain ⟨a, ha, rfl⟩ := exists_of_map hb
  exact hr s a s' ha

theorem placed {r : Reader α} (hr : Yields r P) : Yields (placed r) P :=
  fun s a s' ha => hr s a s' (of_placed ha)

theorem closing {r : Reader α} (hr : Yields r P) (finish : Reader Unit) :
    Yields (closing r finish) P := by
  intro s a s' ha
  obtain ⟨t, ha, -⟩ := exists_of_closing ha
  exact hr s a t ha

theorem ofExcept {e : Except Mismatch α} (h : ∀ a, e = .ok a → P a) : Yields (ofExcept e) P := by
  cases e with
  | error how => exact mismatch how
  | ok a => exact pure (h a rfl)

theorem word {a : α} (h : P a) (ws : List Char) : Yields (word a ws) P := by
  induction ws with
  | nil => exact pure h
  | cons w ws ih =>
    intro s b s' hb
    cases s with
    | nil => cases hb
    | cons c s =>
      rw [Json.word] at hb
      dsimp only at hb
      split at hb
      · exact ih s b s' hb
      · cases hb

theorem wrongType (expected : String) : Yields (wrongType expected) P := by
  refine placed (bind (any _) fun c _ => ?_)
  split
  · exact fail _
  · refine bind (any _) fun front _ => ?_
    cases front <;> exact mismatch _

theorem enter {inside : Nat → Reader α} (h : ∀ depth, Yields (inside depth) P) (depth : Nat) :
    Yields (enter depth inside) P := by
  cases depth with
  | zero => exact failNext _
  | succ depth => exact bind (any _) fun _ _ => h depth

theorem foldMembers {step : σ → String → Reader σ} {I : σ → Prop}
    (h : ∀ a name, I a → Yields (step a name) I) (bound : List Char) (first : Bool) {a : σ}
    (ha : I a) : Yields (foldMembers step bound first a) I := by
  induction bound generalizing first a with
  | nil => exact pure ha
  | cons _ bound ih =>
    refine bind (any _) fun name _ => ?_
    cases name with
    | none => exact pure ha
    | some name => exact bind (h a name ha) fun b hb => ih false hb

theorem members {step : σ → String → Reader σ} {I : σ → Prop}
    (h : ∀ a name, I a → Yields (step a name) I) {a : σ} (ha : I a) :
    Yields (members step a) I :=
  fun s => foldMembers h (' ' :: s) true ha s

end Reader.Yields

open Reader

variable {α β σ : Type}

/-- Every value that the decoder makes, from a text or from a value, has the property. -/
structure Decoder.Yields (d : Decoder α) (P : α → Prop) : Prop where
  read : ∀ depth, Reader.Yields (d.read depth) P
  ofJson : ∀ v a, d.ofJson v = .ok a → P a

/-- Every way to fill a slot keeps the property of the record under construction. -/
structure Slot.Keeps (slot : Slot σ) (I : σ → Prop) : Prop where
  read : ∀ depth, Reader.Yields (slot.read depth) fun f => ∀ s, I s → I (f s)
  ofJson : ∀ v f, slot.ofJson v = .ok f → ∀ s, I s → I (f s)

theorem Decoder.Yields.any (d : Decoder α) : d.Yields fun _ => True :=
  ⟨fun _ => .any _, fun _ _ _ => trivial⟩

theorem Decoder.Yields.of_decode {d : Decoder α} {P : α → Prop} (h : d.Yields P) {text : String}
    {a : α} (ha : d.decode text = .ok a) : P a := by
  obtain ⟨s, ha⟩ := exists_of_readAll ha
  exact h.read maxDepth _ a s ha

theorem Decoder.Yields.mono {d : Decoder α} {P Q : α → Prop} (h : d.Yields P)
    (hPQ : ∀ a, P a → Q a) : d.Yields Q :=
  ⟨fun depth => (h.read depth).mono hPQ, fun v a ha => hPQ a (h.ofJson v a ha)⟩

theorem Decoder.Yields.map {d : Decoder α} {f : α → β} {P : β → Prop}
    (h : d.Yields fun a => P (f a)) : (Decoder.map f d).Yields P := by
  refine ⟨fun depth => (h.read depth).map, fun v b hb => ?_⟩
  obtain ⟨a, ha, rfl⟩ := map_eq_ok hb
  exact h.ofJson v a ha

theorem Decoder.Yields.option {d : Decoder α} {P : Option α → Prop} (hnone : P none)
    (h : d.Yields fun a => P (some a)) : (Decoder.option d).Yields P := by
  constructor
  · intro depth
    refine .bind (.any _) fun c _ => ?_
    split
    · exact .bind (.any _) fun _ _ => .word hnone _
    · exact (h.read depth).map
  · intro v o ho
    rw [Decoder.option] at ho
    dsimp only at ho
    split at ho
    · cases ho
      exact hnone
    · obtain ⟨a, ha, rfl⟩ := map_eq_ok ho
      exact h.ofJson v a ha

theorem Slot.Keeps.keeping {d : Decoder α} {P : α → Prop} {I : σ → Prop} {put : α → σ → σ}
    (h : d.Yields P) (hput : ∀ a s, P a → I s → I (put a s)) (name : String) (optional : Bool)
    (get : σ → Option α) : (Slot.keeping name optional d get put).Keeps I := by
  constructor
  · intro depth
    exact .map ((h.read depth).mono fun a ha s hs => hput a s ha hs)
  · intro v f hf s hs
    obtain ⟨a, ha, rfl⟩ := map_eq_ok hf
    exact hput a s (h.ofJson v a ha) hs

theorem foldlM_keeps {I : σ → Prop} {f : σ → β → Except Mismatch σ}
    (hf : ∀ s b s', f s b = .ok s' → I s → I s') {bs : List β} {s s' : σ}
    (h : bs.foldlM f s = .ok s') (hs : I s) : I s' := by
  induction bs generalizing s with
  | nil =>
    cases h
    exact hs
  | cons b bs ih =>
    rw [List.foldlM_cons] at h
    obtain ⟨t, ht, hmore⟩ := bind_eq_ok h
    exact ih hmore (hf s b t ht hs)

theorem required_eq_ok {name : String} {o : Option α} {a : α} (h : required name o = .ok a) :
    o = some a := by
  cases o with
  | none => cases h
  | some b =>
    cases h
    rfl

namespace Record

variable {r : Record σ α} {I : σ → Prop}

theorem readMember_yields (hslots : ∀ slot ∈ r.slots, slot.Keeps I) (depth : Nat) (state : σ)
    (name : String) (hs : I state) : Reader.Yields (r.readMember depth state name) I := by
  unfold readMember
  split
  · exact .bind (.any _) fun _ _ => .bind (.any _) fun _ _ => .pure hs
  · next slot hfind =>
    have hkeeps := hslots slot (List.mem_of_find?_eq_some hfind)
    split
    · exact .mismatch _
    · exact .bind (.any _) fun _ _ => .bind (hkeeps.read depth) fun f hf => .pure (hf state hs)

theorem readSlots_yields {slots : List (Slot σ)} (hslots : ∀ slot ∈ slots, slot.Keeps I)
    (depth : Nat) (first : Bool) (index : Nat) {state : σ} (hs : I state) :
    Reader.Yields (r.readSlots depth first index slots state) I := by
  induction slots generalizing first index state with
  | nil => exact .pure hs
  | cons slot slots ih =>
    have hkeeps := hslots slot (by simp)
    have hmore : ∀ slot ∈ slots, slot.Keeps I := fun slot hslot => hslots slot (by simp [hslot])
    refine .bind (.any _) fun more _ => ?_
    split
    · exact .bind (hkeeps.read depth) fun f hf => ih hmore false (index + 1) (hf state hs)
    · split
      · exact ih hmore first (index + 1) hs
      · exact .mismatch _

theorem addMember_keeps (hslots : ∀ slot ∈ r.slots, slot.Keeps I) {state state' : σ}
    {m : String × Json} (h : r.addMember state m = .ok state') (hs : I state) : I state' := by
  unfold addMember at h
  split at h
  · cases h
    exact hs
  · next slot hfind =>
    split_ifs at h
    obtain ⟨f, hf, hstate⟩ := bind_eq_ok h
    cases hstate
    exact (hslots slot (List.mem_of_find?_eq_some hfind)).ofJson m.2 f hf state hs

theorem addItems_keeps {slots : List (Slot σ)} (hslots : ∀ slot ∈ slots, slot.Keeps I)
    {index : Nat} {values : List Json} {state state' : σ}
    (h : r.addItems index slots values state = .ok state') (hs : I state) : I state' := by
  induction slots generalizing index values state with
  | nil =>
    cases values with
    | nil =>
      cases h
      exact hs
    | cons => cases h
  | cons slot slots ih =>
    have hmore : ∀ slot ∈ slots, slot.Keeps I := fun slot hslot => hslots slot (by simp [hslot])
    cases values with
    | nil =>
      rw [addItems] at h
      split_ifs at h
      exact ih hmore h hs
    | cons v values =>
      obtain ⟨f, hf, hrest⟩ := bind_eq_ok h
      exact ih hmore hrest ((hslots slot (by simp)).ofJson v f hf state hs)

/-- What every slot keeps holds of the record that is built. -/
theorem decoder_yields {P : α → Prop} (hslots : ∀ slot ∈ r.slots, slot.Keeps I) (hstart : I r.start)
    (hbuild : ∀ s a, I s → r.build s = .ok a → P a) : r.decoder.Yields P := by
  constructor
  · intro depth
    refine .placed (.bind (.any _) fun c _ => ?_)
    split
    · exact .fail _
    · exact .enter (fun depth => .closing (.bind (readSlots_yields hslots depth true 0 hstart)
        fun s hs => .ofExcept (hbuild s · hs)) _) depth
    · exact .enter (fun depth => .closing (.bind (.members (readMember_yields hslots depth) hstart)
        fun s hs => .ofExcept (hbuild s · hs)) _) depth
    · exact .wrongType r.name
  · intro v a ha
    cases v with
    | array values =>
      obtain ⟨s, hs, hb⟩ := bind_eq_ok ha
      exact hbuild s a (addItems_keeps hslots hs hstart) hb
    | object ms =>
      obtain ⟨s, hs, hb⟩ := bind_eq_ok ha
      exact hbuild s a (foldlM_keeps (fun _ _ _ => addMember_keeps hslots) hs hstart) hb
    | _ => cases ha

end Record

theorem Decoder.named_mem {known : List (String × α)} {name : String} {a : α}
    (h : named known name = .ok a) : ∃ name, (name, a) ∈ known := by
  unfold named at h
  split at h
  · next b hb =>
    cases h
    obtain ⟨l₁, l₂, rfl, -⟩ := List.lookup_eq_some_iff.1 hb
    exact ⟨name, by simp⟩
  · cases h

theorem Decoder.Yields.parsed {expected : String} {parse : String → Except Mismatch α}
    {P : α → Prop} (h : ∀ s a, parse s = .ok a → P a) :
    (Decoder.parsed expected parse).Yields P := by
  constructor
  · intro depth
    refine .placed (.bind (.any _) fun c _ => ?_)
    split
    · exact .fail _
    · exact .bind (.any _) fun _ _ => .bind (.any _) fun s _ => .ofExcept (h s)
    · exact .wrongType expected
  · intro v a ha
    cases v with
    | string s => exact h s a ha
    | _ => cases ha

theorem Decoder.Yields.name (known : List (String × α)) :
    (Decoder.name known).Yields fun a => ∃ name, (name, a) ∈ known := by
  have hparsed : (Decoder.parsed "variant identifier" (named known)).Yields
      fun a => ∃ name, (name, a) ∈ known := .parsed fun _ _ => named_mem
  refine ⟨hparsed.read, fun v a ha => ?_⟩
  unfold Decoder.name at ha
  dsimp only at ha
  split at ha
  · exact named_mem ha
  · split at ha
    · next n _ name b hget =>
      cases ha
      exact ⟨name, List.mem_of_getElem? hget⟩
    · cases ha
  · cases ha

namespace InnerUnion

variable {u : InnerUnion α}

/-- The variant that is read so far is one of the union. -/
def Known (u : InnerUnion α) (parts : Parts α) : Prop :=
  ∀ variant, parts.variant = some variant → ∃ name, (name, variant) ∈ u.variants

theorem readMember_yields (depth : Nat) (parts : Parts α) (name : String) (h : u.Known parts) :
    Reader.Yields (u.readMember depth parts name) u.Known := by
  unfold readMember
  split_ifs
  · exact .mismatch _
  · refine .bind (.any _) fun _ _ => .bind ((Decoder.Yields.name u.variants).read depth) ?_
    rintro variant hvariant
    refine .pure ?_
    rintro _ ⟨⟩
    exact hvariant
  · exact .bind (.any _) fun _ _ => .bind (.any _) fun v _ => .pure h

theorem addMember_known {parts parts' : Parts α} {m : String × Json}
    (h : u.addMember parts m = .ok parts') (hparts : u.Known parts) : u.Known parts' := by
  unfold addMember at h
  split_ifs at h
  · obtain ⟨variant, hvariant, hparts'⟩ := bind_eq_ok h
    cases hparts'
    rintro _ ⟨⟩
    exact (Decoder.Yields.name u.variants).ofJson m.2 variant hvariant
  · cases h
    exact hparts

theorem ofParts_known {parts : Parts α} {found : (Json → Except Mismatch α) × Json}
    (h : u.ofParts parts = .ok found) (hparts : u.Known parts) :
    ∃ name, (name, found.1) ∈ u.variants := by
  obtain ⟨variant, hvariant, hfound⟩ := bind_eq_ok h
  cases hfound
  exact hparts variant (required_eq_ok hvariant)

theorem readItems_yields (depth : Nat) :
    Reader.Yields (u.readItems depth) fun found => ∃ name, (name, found.1) ∈ u.variants := by
  unfold readItems
  refine .bind (.any _) fun more _ => ?_
  split_ifs
  · refine .bind ((Decoder.Yields.name u.variants).read depth) fun variant hvariant => ?_
    exact .bind (.any _) fun _ _ => .pure hvariant
  · exact .mismatch _

/-- What every variant makes of what is left without the tag holds of the union. -/
theorem decoder_yields {P : α → Prop}
    (hvariants : ∀ name variant, (name, variant) ∈ u.variants → ∀ v a, variant v = .ok a → P a) :
    u.decoder.Yields P := by
  have hnone : u.Known ⟨none, []⟩ := fun _ h => by cases h
  constructor
  · intro depth
    refine .bind (P := fun found => ∃ name, (name, found.1) ∈ u.variants) (.placed ?_) ?_
    · refine .bind (.any _) fun c _ => ?_
      split
      · exact .fail _
      · exact .enter (fun depth => .closing (readItems_yields depth) _) depth
      · exact .enter (fun depth => .closing (.bind (.members (readMember_yields depth) hnone)
          fun parts hparts => .ofExcept fun found hfound => ofParts_known hfound hparts) _) depth
      · exact .wrongType u.name
    · rintro ⟨variant, content⟩ ⟨name, hmem⟩
      exact .ofExcept (hvariants name variant hmem content)
  · intro v a ha
    cases v with
    | array values =>
      cases values with
      | nil => cases ha
      | cons t more =>
        obtain ⟨variant, hvariant, hcontent⟩ := bind_eq_ok ha
        obtain ⟨name, hmem⟩ := (Decoder.Yields.name u.variants).ofJson t variant hvariant
        exact hvariants name variant hmem _ a hcontent
    | object ms =>
      obtain ⟨parts, hfold, hparts⟩ := bind_eq_ok ha
      obtain ⟨⟨variant, content⟩, hof, hcontent⟩ := bind_eq_ok hparts
      have hknown := foldlM_keeps (I := u.Known) (fun _ _ _ => addMember_known) hfold hnone
      obtain ⟨name, hmem⟩ := ofParts_known hof hknown
      exact hvariants name variant hmem content a hcontent
    | _ => cases ha

end InnerUnion

end JobGateway.Json
