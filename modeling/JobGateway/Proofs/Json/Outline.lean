import JobGateway.Proofs.Json.Extent

/-! Readers along the outline of a text. A reader that succeeds on an array or an object has read every
item and the content of every member on its own text, in order: no reader can see another outline. -/
namespace JobGateway.Json

open Reader

variable {α σ : Type} {s s' t u x rest : List Char} {us : List (List Char)}
  {m : List Char × List Char} {ms : List (List Char × List Char)}

theorem SpellsString.unique {cs cs' : List Char} (h : SpellsString cs t) (h' : SpellsString cs' t) :
    cs = cs' := by
  have hread := stringFrom_of_spells h [] []
  rw [stringFrom_of_spells h' [] []] at hread
  injection hread with hsame
  exact (String.ofList_injective hsame).symm

theorem Named.unique {name name' : String} (h : Named name m) (h' : Named name' m) : name = name' :=
  String.toList_injective (SpellsString.unique h h')

/-- A string is read up to its closing quote. -/
theorem spells_of_stringBody {w : List Char} {name : String} (hw : IsStringBody w)
    (h : stringBody (w ++ rest) = .ok name s') : s' = rest ∧ SpellsString name.toList w := by
  obtain ⟨cs, v, hv, heq⟩ := spells_of_stringFrom h
  have hskip := skipString_of_isStringBody hw rest
  rw [heq, skipString_of_spells hv s'] at hskip
  injection hskip with _ hrest
  subst hrest
  obtain rfl := List.append_cancel_right heq
  have hread := stringFrom_of_spells hv [] s'
  rw [show stringFrom [] (w ++ s') = .ok name s' from h] at hread
  injection hread with hname
  rw [hname]
  exact ⟨rfl, by simpa using hv⟩

/-- What the reader takes as a value is what skipping takes. -/
def Reader.Ends (r : Reader α) : Prop := ∀ s a s', r s = .ok a s' → skipValue s = .ok () s'

/-- What the reader takes as the content of a member is a colon and what skipping takes. -/
def Reader.EndsContent (r : Reader α) : Prop :=
  ∀ s a s', r s = .ok a s' → ∃ t, colon s = .ok () t ∧ skipValue t = .ok () s'

theorem Reader.Spans.ends {r : Reader α} (hr : r.Spans (pure ())) : r.Ends :=
  fun _ _ _ h => hr.skipValue h

theorem Reader.Ends.map {β : Type} {r : Reader α} (hr : r.Ends) (f : α → β) : (f <$> r).Ends := by
  intro s b s' h
  obtain ⟨a, ha, -⟩ := exists_of_map h
  exact hr s a s' ha

theorem skipValue_congr (h : peek s = peek t) : skipValue s = skipValue t :=
  bind_congr (bind_congr h _) _

/-- A reader of a value ends where the text of the value ends. -/
theorem Reader.Ends.eq_rest {r : Reader α} (hr : r.Ends) (hu : IsValue u)
    (hsame : peek s = peek (u ++ rest)) (hrest : Stops rest) {a : α} (h : r s = .ok a s') :
    s' = rest := by
  have hskip := hr s a s' h
  rw [skipValue_congr hsame, skipValue_of_isValue hu rest hrest] at hskip
  injection hskip with _ hs
  exact hs.symm

/-- The parts that are still to be read behind an opening bracket, or behind another part. -/
def Remains (close : Char) (first : Bool) (us : List (List Char)) (t : List Char) : Prop :=
  if first then Encloses close us t else Continues close us t

theorem Encloses.remains {close : Char} (h : Encloses close us t) : Remains close true us t := h

theorem Continues.remains {close : Char} (h : Continues close us t) : Remains close false us t := h

theorem Remains.close_cases {b : Bracket} {first : Bool} (h : Remains b.mark first us t)
    (hbegin : ∀ u ∈ us, Begins b u) {c : Char} (hpeek : peek (t ++ rest) = .ok (some c) (c :: s)) :
    (us = [] ∧ c = b.mark ∧ s = rest) ∨
    (c ≠ b.mark ∧ ∃ u us' t', us = u :: us' ∧ Continues b.mark us' t' ∧
      ((first = true ∧ t = u ++ t') ∨ (first = false ∧ c = ',' ∧ s = u ++ (t' ++ rest)))) := by
  have hmark : ∀ {w : List Char}, IsBlank w → t = w ++ [b.mark] → c = b.mark ∧ s = rest := by
    rintro w hw rfl
    rw [List.append_assoc] at hpeek
    have hclose := peek_blanks_cons hw (isSpace_mark b) rest
    rw [show [b.mark] ++ rest = b.mark :: rest from rfl, hclose] at hpeek
    cases hpeek
    exact ⟨rfl, rfl⟩
  cases first with
  | true =>
    cases (show Encloses b.mark us t from h) with
    | empty blank =>
      obtain ⟨hc, hs⟩ := hmark blank rfl
      exact .inl ⟨rfl, hc, hs⟩
    | @parts u t' us' more =>
      obtain ⟨w, d, v, hw, hd, hne, rfl⟩ := hbegin u List.mem_cons_self
      rw [List.append_assoc, List.append_assoc, List.cons_append, peek_blanks_cons hw hd] at hpeek
      cases hpeek
      exact .inr ⟨hne, _, us', t', rfl, more, .inl ⟨rfl, rfl⟩⟩
  | false =>
    cases (show Continues b.mark us t from h) with
    | done blank =>
      obtain ⟨hc, hs⟩ := hmark blank rfl
      exact .inl ⟨rfl, hc, hs⟩
    | @next w u t' us' blank more =>
      rw [List.append_assoc, List.cons_append, peek_blanks_cons blank rfl, List.append_assoc] at hpeek
      cases hpeek
      have hne : ',' ≠ b.mark := by cases b <;> decide
      exact .inr ⟨hne, u, us', t', rfl, more, .inr ⟨rfl, rfl, rfl⟩⟩

section Items

variable {first : Bool}

/-- The next item of a list is the first part that remains. -/
theorem Remains.item_cases (h : Remains ']' first us t) (hus : ∀ u ∈ us, IsValue u) {more : Bool}
    (hnext : nextItem first (t ++ rest) = .ok more s) :
    (more = false ∧ us = [] ∧ s = ']' :: rest) ∨
    (more = true ∧ ∃ u us' t', us = u :: us' ∧ Continues ']' us' t' ∧
      peek s = peek (u ++ (t' ++ rest))) := by
  have hbegin : ∀ u ∈ us, Begins .list u := fun u hu => (hus u hu).begins
  cases more with
  | false =>
    have hpeek := of_nextItem_false hnext
    obtain ⟨v, rfl⟩ := exists_of_peek hpeek
    obtain ⟨hnil, -, rfl⟩ | ⟨hne, -⟩ := Remains.close_cases (b := .list) h hbegin hpeek
    · exact .inl ⟨rfl, hnil, rfl⟩
    · exact absurd rfl hne
  | true =>
    obtain ⟨rfl, c, hc, hpeek⟩ | ⟨rfl, c, w, hcomma, hpeek⟩ := of_nextItem_true hnext
    · obtain ⟨v, rfl⟩ := exists_of_peek hpeek
      obtain ⟨-, hmark, -⟩ | ⟨-, u, us', t', hcons, hmore, ⟨-, rfl⟩ | ⟨⟨⟩, -⟩⟩ :=
        Remains.close_cases (b := .list) h hbegin hpeek
      · exact absurd hmark hc
      · refine .inr ⟨rfl, u, us', t', hcons, hmore, ?_⟩
        rw [← List.append_assoc, hpeek, peek_idem hpeek]
    · obtain ⟨-, hmark, -⟩ | ⟨-, u, us', t', hcons, hmore, ⟨⟨⟩, -⟩ | ⟨-, -, rfl⟩⟩ :=
        Remains.close_cases (b := .list) h hbegin hcomma
      · cases hmark
      · refine .inr ⟨rfl, u, us', t', hcons, hmore, ?_⟩
        rw [hpeek, peek_idem hpeek]

/-- The steps of a reader of items, each on its own text. -/
inductive FollowsItems (step : σ → Reader σ) : σ → List (List Char) → σ → Prop
  | done {a : σ} : FollowsItems step a [] a
  | next {a b c : σ} {u s rest : List Char} {us : List (List Char)}
      (same : peek s = peek (u ++ rest)) (read : step a s = .ok b rest)
      (more : FollowsItems step b us c) : FollowsItems step a (u :: us) c

theorem Remains.follows_items {step : σ → Reader σ} (hstep : ∀ a, (step a).Ends)
    (h : Remains ']' first us t) (hus : ∀ u ∈ us, IsValue u) {bound : List Char} {a b : σ}
    (hread : foldItems step bound first a (t ++ rest) = .ok b s) (hend : endItems s = .ok () s') :
    FollowsItems step a us b ∧ s' = rest := by
  induction bound generalizing first us t a with
  | nil =>
    cases hread
    obtain ⟨rfl, -, hs⟩ | ⟨hne, -⟩ := Remains.close_cases (b := .list) h
      (fun u hu => (hus u hu).begins) (of_endItems hend)
    · exact ⟨.done, hs⟩
    · exact absurd rfl hne
  | cons x bound ih =>
    obtain ⟨more, w, hnext, hread⟩ := exists_of_bind hread
    obtain ⟨rfl, rfl, rfl⟩ | ⟨rfl, u, us', t', rfl, hmore, hsame⟩ := h.item_cases hus hnext
    · cases hread
      rw [endItems_close] at hend
      cases hend
      exact ⟨.done, rfl⟩
    · obtain ⟨c, v, hc, hread⟩ := exists_of_bind hread
      obtain ⟨hu, hus'⟩ := List.forall_mem_cons.1 hus
      obtain rfl := (hstep a).eq_rest hu hsame (hmore.stops (b := .list) rest) hc
      obtain ⟨hfollows, hs⟩ := ih hmore.remains hus' hread
      exact ⟨.next hsame hc hfollows, hs⟩

end Items

section Members

variable {first : Bool}

/-- The name that is read next is the name of the first part that remains. -/
theorem Remains.member_cases (h : Remains '\x7d' first us t) (hms : List.Forall₂ IsMember ms us)
    {found : Option String} (hnext : nextName first (t ++ rest) = .ok found s) :
    (found = none ∧ ms = [] ∧ s = '\x7d' :: rest) ∨
    ∃ name m ms' us' t', found = some name ∧ ms = m :: ms' ∧ List.Forall₂ IsMember ms' us' ∧
      Continues '\x7d' us' t' ∧ Named name m ∧ colon s = .ok () (m.2 ++ (t' ++ rest)) := by
  have hbegin : ∀ u ∈ us, Begins .object u := fun u hu => by
    obtain ⟨m, -, hm⟩ := exists_of_mem_forall₂ hms u hu
    exact hm.begins
  have hmember : ∀ {m : List Char × List Char} {u w more : List Char} {name : String},
      IsMember m u → peek (u ++ more) = .ok (some '"') ('"' :: w) → stringBody w = .ok name s →
      Named name m ∧ colon s = .ok () (m.2 ++ more) := by
    rintro _ _ w more name ⟨blank, body, blank'⟩ hpeek hname
    simp only [List.append_assoc, List.cons_append] at hpeek
    rw [peek_blanks_cons blank rfl] at hpeek
    cases hpeek
    obtain ⟨rfl, hspells⟩ := spells_of_stringBody body hname
    refine ⟨hspells, ?_⟩
    rw [colon, bind_ok (peek_blanks_cons blank' rfl _)]
    rfl
  obtain ⟨rfl, hpeek⟩ | ⟨name, w, rfl, hname, hpeek⟩ := of_nextName hnext
  · obtain ⟨v, rfl⟩ := exists_of_peek hpeek
    obtain ⟨rfl, -, rfl⟩ | ⟨hne, -⟩ := Remains.close_cases (b := .object) h hbegin hpeek
    · cases hms
      exact .inl ⟨rfl, rfl, rfl⟩
    · exact absurd rfl hne
  · obtain ⟨rfl, hpeek⟩ | ⟨rfl, x, hcomma, hpeek⟩ := hpeek
    · obtain ⟨-, hmark, -⟩ | ⟨-, u, us', t', rfl, hmore, ⟨-, rfl⟩ | ⟨⟨⟩, -⟩⟩ :=
        Remains.close_cases (b := .object) h hbegin hpeek
      · cases hmark
      · rw [List.append_assoc] at hpeek
        cases hms with
        | cons hm hms =>
          obtain ⟨hnamed, hcolon⟩ := hmember hm hpeek hname
          exact .inr ⟨name, _, _, us', t', rfl, rfl, hms, hmore, hnamed, hcolon⟩
    · obtain ⟨-, hmark, -⟩ | ⟨-, u, us', t', rfl, hmore, ⟨⟨⟩, -⟩ | ⟨-, -, rfl⟩⟩ :=
        Remains.close_cases (b := .object) h hbegin hcomma
      · cases hmark
      · cases hms with
        | cons hm hms =>
          obtain ⟨hnamed, hcolon⟩ := hmember hm hpeek hname
          exact .inr ⟨name, _, _, us', t', rfl, rfl, hms, hmore, hnamed, hcolon⟩

/-- The steps of a reader of members, each on its own text. -/
inductive Follows (step : σ → String → Reader σ) : σ → List (List Char × List Char) → σ → Prop
  | done {a : σ} : Follows step a [] a
  | next {a b c : σ} {name : String} {m : List Char × List Char} {s rest : List Char}
      {ms : List (List Char × List Char)} (named : Named name m)
      (content : colon s = .ok () (m.2 ++ rest)) (read : step a name s = .ok b rest)
      (more : Follows step b ms c) : Follows step a (m :: ms) c

theorem Remains.follows {step : σ → String → Reader σ} (hstep : ∀ a name, (step a name).EndsContent)
    (h : Remains '\x7d' first us t) (hms : List.Forall₂ IsMember ms us)
    (hvalues : ∀ m ∈ ms, IsValue m.2) {bound : List Char} {a b : σ}
    (hread : foldMembers step bound first a (t ++ rest) = .ok b s)
    (hend : endMembers s = .ok () s') : Follows step a ms b ∧ s' = rest := by
  induction bound generalizing first us ms t a with
  | nil =>
    cases hread
    have hbegin : ∀ u ∈ us, Begins .object u := fun u hu => by
      obtain ⟨m, -, hm⟩ := exists_of_mem_forall₂ hms u hu
      exact hm.begins
    obtain ⟨rfl, -, hs⟩ | ⟨hne, -⟩ := Remains.close_cases (b := .object) h hbegin (of_endMembers hend)
    · cases hms
      exact ⟨.done, hs⟩
    · exact absurd rfl hne
  | cons x bound ih =>
    obtain ⟨found, w, hnext, hread⟩ := exists_of_bind hread
    obtain ⟨rfl, rfl, rfl⟩ | ⟨name, m, ms', us', t', rfl, rfl, hms', hmore, hnamed, hcolon⟩ :=
      h.member_cases hms hnext
    · cases hread
      rw [endMembers_close] at hend
      cases hend
      exact ⟨.done, rfl⟩
    · obtain ⟨c, v, hc, hread⟩ := exists_of_bind hread
      obtain ⟨hm, hvalues'⟩ := List.forall_mem_cons.1 hvalues
      obtain ⟨y, hy, hskip⟩ := hstep a name w c v hc
      rw [hcolon] at hy
      cases hy
      rw [skipValue_of_isValue hm _ (hmore.stops (b := .object) rest)] at hskip
      cases hskip
      obtain ⟨hfollows, hs⟩ := ih hmore.remains hms' hvalues' hread
      exact ⟨.next hnamed hcolon hc hfollows, hs⟩

end Members

/-- A reader that sees the text of an array stands before its bracket, and its items follow. -/
theorem IsArrayOf.of_peek (h : IsArrayOf us t) (hsame : peek s = peek (t ++ rest)) {c : Char}
    (hpeek : peek s = .ok (some c) (c :: u)) : c = '[' ∧ ∃ x, u = x ++ rest ∧ Encloses ']' us x := by
  obtain ⟨⟨blank, items⟩, -⟩ := h
  rw [hsame, List.append_assoc, List.cons_append, peek_blanks_cons blank rfl] at hpeek
  cases hpeek
  exact ⟨rfl, _, rfl, items⟩

theorem IsObjectOf.of_peek (h : IsObjectOf ms t) (hsame : peek s = peek (t ++ rest)) {c : Char}
    (hpeek : peek s = .ok (some c) (c :: u)) : c = '\x7b' ∧
      ∃ x us, u = x ++ rest ∧ List.Forall₂ IsMember ms us ∧ Encloses '\x7d' us x := by
  obtain ⟨⟨blank, members, parts⟩, -⟩ := h
  rw [hsame, List.append_assoc, List.cons_append, peek_blanks_cons blank rfl] at hpeek
  cases hpeek
  exact ⟨rfl, _, _, rfl, members, parts⟩

/-- The items of an array that is read. -/
theorem IsArrayOf.follows {step : σ → Reader σ} (hstep : ∀ a, (step a).Ends) (h : IsArrayOf us t)
    (hsame : peek s = peek (t ++ rest)) (hpeek : peek s = .ok (some '[') ('[' :: x))
    {bound : List Char} {a b : σ} (hread : foldItems step bound true a x = .ok b u)
    (hend : endItems u = .ok () s') : FollowsItems step a us b := by
  obtain ⟨-, y, rfl, items⟩ := h.of_peek hsame hpeek
  exact (items.remains.follows_items hstep h.values hread hend).1

/-- The members of an object that is read. -/
theorem IsObjectOf.follows {step : σ → String → Reader σ}
    (hstep : ∀ a name, (step a name).EndsContent) (h : IsObjectOf ms t)
    (hsame : peek s = peek (t ++ rest)) (hpeek : peek s = .ok (some '\x7b') ('\x7b' :: x))
    {bound : List Char} {a b : σ} (hread : foldMembers step bound true a x = .ok b u)
    (hend : endMembers u = .ok () s') : Follows step a ms b := by
  obtain ⟨-, y, us, rfl, members, parts⟩ := h.of_peek hsame hpeek
  exact (parts.remains.follows hstep members h.values hread hend).1

end JobGateway.Json
