import JobGateway.Proofs.Json.Front
import JobGateway.Proofs.Json.Yields

/-! The extent of a value. Whatever reads a value from a text leaves the text that skipping the value
leaves, so two readers that succeed on one text agree on where the value ends, whatever they make of
it. -/
namespace JobGateway.Json

open Reader

/-- Skipping takes what stands between the two texts, after `front`, inside any brackets. Blanks in
front of it do not count for the bound. -/
def SkipsTo (front : Reader Unit) (s s' : List Char) : Prop :=
  ∀ bound stack, (s.dropWhile isSpace).length ≤ bound.length + 1 →
    Skipped stack s' ((do front; skipFront >>= skipMore bound stack) s)

/-- Skipping closes the bracket that is open in the first text; the second one is what follows. -/
def Closes (b : Bracket) (opened : Bool) (s s' : List Char) : Prop :=
  ∀ bound stack, s.length ≤ bound.length →
    Skipped stack s' (skipFrom bound opened (b :: stack) s)

/-- Skipping takes whatever the reader takes. -/
def Reader.Spans {α : Type} (r : Reader α) (front : Reader Unit) : Prop :=
  ∀ s a s', r s = .ok a s' → SkipsTo front s s'

variable {α β σ : Type} {s s' t t' u : List Char}

theorem eq_of_peek {c : Option Char} (h : peek s = .ok c u) : u = s.dropWhile isSpace := by
  cases h
  rfl

theorem exists_of_peek {c : Char} (h : peek s = .ok (some c) u) : ∃ t, u = c :: t := by
  obtain ⟨hc, rfl⟩ : (s.dropWhile isSpace).head? = some c ∧ s.dropWhile isSpace = u := by
    simpa [peek] using h
  exact List.head?_eq_some_iff.1 hc

theorem SkipsTo.scalar {c : Char} (hpeek : peek s = .ok (some c) (c :: t))
    (hskip : skipOpening c (c :: t) = .ok none s') (hlen : s'.length ≤ t.length) :
    SkipsTo (pure ()) s s' := by
  intro bound stack hbound
  rw [← eq_of_peek hpeek, List.length_cons] at hbound
  have hfront : skipFront s = .ok none s' := (bind_ok hpeek _).trans hskip
  exact ⟨bound, by omega, bind_ok hfront _⟩

theorem SkipsTo.bracket {b : Bracket} {c : Char} (hpeek : peek s = .ok (some c) (c :: t))
    (hskip : skipOpening c (c :: t) = .ok (some b) t) (hclose : Closes b true t s') :
    SkipsTo (pure ()) s s' := by
  intro bound stack hbound
  rw [← eq_of_peek hpeek, List.length_cons] at hbound
  have hfront : skipFront s = .ok (some b) t := (bind_ok hpeek _).trans hskip
  obtain ⟨bound', hlen, hfrom⟩ := hclose bound stack (by omega)
  exact ⟨bound', hlen, (bind_ok hfront _).trans hfrom⟩

/-- Blanks in front of a value are not seen. -/
theorem SkipsTo.of_peek {c : Option Char} (hpeek : peek s = .ok c t)
    (h : SkipsTo (pure ()) t s') : SkipsTo (pure ()) s s' := by
  intro bound stack hbound
  have ht := eq_of_peek hpeek
  have hsame : peek s = peek t := by
    rw [ht, peek, peek, List.dropWhile_idempotent]
  obtain ⟨bound', hlen, hfrom⟩ := h bound stack (by rwa [ht, List.dropWhile_idempotent])
  refine ⟨bound', hlen, Eq.trans ?_ hfrom⟩
  exact bind_congr (bind_congr hsame _) _

theorem of_colon (h : colon s = .ok () t) : peek s = .ok (some ':') (':' :: t) := by
  obtain ⟨c, u, hpeek, h⟩ := exists_of_bind h
  split at h
  · cases h
  · obtain ⟨v, rfl⟩ := exists_of_peek hpeek
    cases h
    exact hpeek
  · cases h

theorem SkipsTo.content (hcolon : colon s = .ok () t) (h : SkipsTo (pure ()) t s') :
    SkipsTo colon s s' := by
  intro bound stack hbound
  rw [← eq_of_peek (of_colon hcolon), List.length_cons] at hbound
  have hlen := List.length_dropWhile_le isSpace t
  obtain ⟨bound', hlen', hfrom⟩ := h bound stack (by omega)
  exact ⟨bound', hlen', (bind_ok hcolon _).trans hfrom⟩

theorem of_skipOpening_some {c : Char} {b : Bracket}
    (h : skipOpening c (c :: t) = .ok (some b) u) : u = t := by
  unfold skipOpening at h
  split at h
  iterate 3
    · have hnone := Reader.Yields.word (P := (· = none)) rfl _ t _ u h
      cases hnone
  iterate 2
    · obtain ⟨_, v, -, h⟩ := exists_of_bind h
      obtain ⟨_, w, -, h⟩ := exists_of_bind h
      cases h
  iterate 2
    · cases h
      rfl
  · split at h
    · obtain ⟨_, v, -, h⟩ := exists_of_bind h
      cases h
    · cases h

/-- What is skipped inside brackets is skipped on its own. -/
theorem SkipsTo.skipValue (h : SkipsTo (pure ()) s s') : skipValue s = .ok () s' := by
  have hend : ∀ bound, skipFrom bound false [] s' = .ok () s' := by
    intro bound
    cases bound <;> rfl
  have hlen := List.length_dropWhile_le isSpace s
  obtain ⟨bound, -, hfrom⟩ := h s [] (by omega)
  rw [hend, pure_bind] at hfrom
  obtain ⟨o, t, hfront, hmore⟩ := exists_of_bind hfrom
  refine (bind_ok hfront _).trans ?_
  cases o with
  | none =>
    have hmore' : skipFrom s false [] t = .ok () t := by cases s <;> rfl
    exact hmore'.symm.trans hmore
  | some b =>
    obtain ⟨c, u, hpeek, hopen⟩ := exists_of_bind hfront
    cases c with
    | none => cases hopen
    | some c =>
      obtain ⟨v, rfl⟩ := exists_of_peek hpeek
      obtain rfl := of_skipOpening_some hopen
      -- The mark that opens the bracket is one more character, as the bound asks.
      obtain ⟨bound', -, hfrom'⟩ := h (' ' :: t) [] (by rw [← eq_of_peek hpeek]; simp)
      rw [hend, pure_bind, bind_ok hfront] at hfrom'
      exact hfrom'

theorem SkipsTo.name {w : List Char} {name : String}
    (hpeek : peek s = .ok (some '"') ('"' :: w)) (hname : stringBody w = .ok name t)
    (h : SkipsTo colon t s') : SkipsTo (skipName .object) s s' := by
  intro bound stack hbound
  obtain ⟨cs, u, hu, rfl⟩ := spells_of_stringFrom hname
  rw [← eq_of_peek hpeek, List.length_cons, List.length_append] at hbound
  have hlen := List.length_dropWhile_le isSpace t
  obtain ⟨bound', hlen', hfrom⟩ := h bound stack (by omega)
  have hskip : skipName .object s = colon t :=
    (bind_ok hpeek _).trans (bind_ok (skipString_of_spells hu t) _)
  exact ⟨bound', hlen', (bind_congr hskip _).trans hfrom⟩

theorem of_endItems (h : endItems s = .ok () t) : peek s = .ok (some ']') (']' :: t) := by
  obtain ⟨c, u, hpeek, h⟩ := exists_of_bind h
  cases c with
  | none => cases h
  | some c =>
    obtain ⟨v, rfl⟩ := exists_of_peek hpeek
    dsimp only at h
    split at h
    · next hc =>
      subst hc
      cases h
      exact hpeek
    · split at h
      · obtain ⟨_, _, -, h⟩ := exists_of_bind h
        obtain ⟨d, _, -, h⟩ := exists_of_bind h
        split at h <;> cases h
      · cases h

theorem of_endMembers (h : endMembers s = .ok () t) :
    peek s = .ok (some '\x7d') ('\x7d' :: t) := by
  obtain ⟨c, u, hpeek, h⟩ := exists_of_bind h
  split at h
  · cases h
  · obtain ⟨v, rfl⟩ := exists_of_peek hpeek
    cases h
    exact hpeek
  · cases h
  · cases h

theorem Closes.mark {b : Bracket} (h : peek s = .ok (some b.mark) (b.mark :: s'))
    (opened : Bool) : Closes b opened s s' := fun _ stack hlen => skipped_mark h hlen opened stack

/-- Behind the mark that opens a bracket, its first item or member is skipped, then the rest. -/
theorem Closes.first {b : Bracket} {c : Char} (hpeek : peek s = .ok (some c) u)
    (hc : c ≠ b.mark) (hitem : SkipsTo (skipName b) s t) (hclose : Closes b false t s') :
    Closes b true s s' := by
  intro bound stack hlen
  obtain ⟨v, rfl⟩ := exists_of_peek hpeek
  have hpos := length_le_of_peek hpeek
  rw [List.length_cons] at hpos
  obtain ⟨x, bound, rfl⟩ := List.exists_cons_of_length_pos (by omega : 0 < bound.length)
  have hblank := List.length_dropWhile_le isSpace s
  rw [List.length_cons] at hlen
  obtain ⟨bound', hlen', hfrom⟩ := hitem bound (b :: stack) (by omega)
  rw [skipFrom_first hpeek hc, hfrom]
  exact hclose bound' stack hlen'

/-- Behind another one, an item or member is skipped after its comma, then the rest. -/
theorem Closes.comma {b : Bracket} (hpeek : peek s = .ok (some ',') (',' :: u))
    (hitem : SkipsTo (skipName b) u t) (hclose : Closes b false t s') :
    Closes b false s s' := by
  intro bound stack hlen
  have hpos := length_le_of_peek hpeek
  rw [List.length_cons] at hpos
  obtain ⟨x, bound, rfl⟩ := List.exists_cons_of_length_pos (by omega : 0 < bound.length)
  have hblank := List.length_dropWhile_le isSpace u
  rw [List.length_cons] at hlen
  obtain ⟨bound', hlen', hfrom⟩ := hitem bound (b :: stack) (by omega)
  have hsame : skipFrom (x :: bound) false (b :: stack) s =
      skipFrom (x :: bound) false (b :: stack) (',' :: u) :=
    bind_congr (hpeek.trans (peek_cons rfl u).symm) _
  rw [hsame, skipFrom_comma, hfrom]
  exact hclose bound' stack hlen'

/-- Where the next item of a list begins. -/
theorem of_nextItem_true {first : Bool} (h : nextItem first s = .ok true t) :
    (first = true ∧ ∃ c, c ≠ ']' ∧ peek s = .ok (some c) t) ∨
    (first = false ∧ ∃ c u, peek s = .ok (some ',') (',' :: u) ∧ peek u = .ok (some c) t) := by
  obtain ⟨c, u, hpeek, h⟩ := exists_of_bind h
  cases c with
  | none => cases h
  | some c =>
    obtain ⟨v, rfl⟩ := exists_of_peek hpeek
    dsimp only at h
    split at h
    · cases h
    · next hmark =>
      split at h
      · next hfirst =>
        cases h
        exact .inl ⟨hfirst, c, hmark, hpeek⟩
      · next hfirst =>
        split at h
        · next hcomma =>
          subst hcomma
          obtain ⟨_, _, hcomma, h⟩ := exists_of_bind h
          cases hcomma
          obtain ⟨d, w, hnext, h⟩ := exists_of_bind h
          split at h
          · cases h
          · cases h
          · cases h
            exact .inr ⟨Bool.eq_false_of_not_eq_true hfirst, _, v, hpeek, hnext⟩
        · cases h

theorem of_nextItem_false {first : Bool} (h : nextItem first s = .ok false t) :
    peek s = .ok (some ']') t := by
  obtain ⟨c, u, hpeek, h⟩ := exists_of_bind h
  cases c with
  | none => cases h
  | some c =>
    dsimp only at h
    split at h
    · next hmark =>
      subst hmark
      cases h
      exact hpeek
    · split at h
      · cases h
      · split at h
        · obtain ⟨_, _, -, h⟩ := exists_of_bind h
          obtain ⟨d, _, -, h⟩ := exists_of_bind h
          split at h <;> cases h
        · cases h

/-- An item that is read is skipped, then the rest of the list. -/
theorem Closes.item {first : Bool} (h : nextItem first s = .ok true t)
    (hitem : SkipsTo (pure ()) t t') (hclose : Closes .list false t' s') :
    Closes .list first s s' := by
  obtain ⟨rfl, c, hc, hpeek⟩ | ⟨rfl, c, u, hcomma, hpeek⟩ := of_nextItem_true h
  · exact .first hpeek hc (hitem.of_peek hpeek) hclose
  · exact .comma hcomma (hitem.of_peek hpeek) hclose

theorem Closes.noItem {first : Bool} (h : nextItem first s = .ok false t)
    (hend : endItems t = .ok () s') : Closes .list first s s' := by
  have hpeek := of_nextItem_false h
  obtain ⟨u, rfl⟩ := exists_of_peek hpeek
  rw [endItems_close] at hend
  cases hend
  exact .mark hpeek first

/-- A list whose items are read is skipped up to its end. -/
theorem Closes.foldItems {step : σ → Reader σ} (hstep : ∀ a, (step a).Spans (pure ()))
    {bound : List Char} {first : Bool} {a b : σ}
    (h : foldItems step bound first a s = .ok b t) (hend : endItems t = .ok () s') :
    Closes .list first s s' := by
  induction bound generalizing first a s with
  | nil =>
    cases h
    exact .mark (of_endItems hend) first
  | cons x bound ih =>
    obtain ⟨more, u, hnext, h⟩ := exists_of_bind h
    cases more with
    | false =>
      cases h
      exact .noItem hnext hend
    | true =>
      obtain ⟨c, v, hread, h⟩ := exists_of_bind h
      exact .item hnext (hstep a u c v hread) (ih h)

/-- A name is read behind its quote. -/
theorem exists_name {found : Option String} (hpeek : peek s = .ok (some '"') u)
    (h : (do advance; some <$> stringBody : Reader (Option String)) u = .ok found t) :
    ∃ name w, found = some name ∧ stringBody w = .ok name t ∧
      peek s = .ok (some '"') ('"' :: w) := by
  obtain ⟨w, rfl⟩ := exists_of_peek hpeek
  obtain ⟨name, hname, rfl⟩ := exists_of_map h
  exact ⟨name, w, rfl, hname, hpeek⟩

/-- The end of an object, or where the name of its next member stands. -/
theorem of_nextName {first : Bool} {found : Option String}
    (h : nextName first s = .ok found t) :
    (found = none ∧ peek s = .ok (some '\x7d') t) ∨
    ∃ name w, found = some name ∧ stringBody w = .ok name t ∧
      ((first = true ∧ peek s = .ok (some '"') ('"' :: w)) ∨
        (first = false ∧ ∃ u, peek s = .ok (some ',') (',' :: u) ∧
          peek u = .ok (some '"') ('"' :: w))) := by
  obtain ⟨c, u, hpeek, h⟩ := exists_of_bind h
  cases c with
  | none => cases h
  | some c =>
    obtain ⟨v, rfl⟩ := exists_of_peek hpeek
    dsimp only at h
    split at h
    · next hmark =>
      subst hmark
      cases h
      exact .inl ⟨rfl, hpeek⟩
    · split at h
      · next hfirst =>
        cases first with
        | true =>
          obtain ⟨_, x, hquote, h⟩ := exists_of_bind (r := peek) h
          split at h
          · cases h
          · obtain ⟨name, w, hfound, hname, hquote⟩ := exists_name hquote h
            rw [peek_idem hpeek] at hquote
            cases hquote
            exact .inr ⟨name, v, hfound, hname, .inl ⟨rfl, hpeek⟩⟩
          · cases h
          · cases h
        | false =>
          obtain rfl : c = ',' := by simpa using hfirst
          obtain ⟨_, _, ⟨⟩, h⟩ := exists_of_bind (r := advance) h
          obtain ⟨_, x, hquote, h⟩ := exists_of_bind (r := peek) h
          split at h
          · cases h
          · obtain ⟨name, w, hfound, hname, hquote⟩ := exists_name hquote h
            exact .inr ⟨name, w, hfound, hname, .inr ⟨rfl, v, hpeek, hquote⟩⟩
          · cases h
          · cases h
      · cases h

/-- A member that is read is skipped, then the rest of the object. -/
theorem Closes.member {first : Bool} {name : String} (h : nextName first s = .ok (some name) t)
    (hcontent : SkipsTo colon t t') (hclose : Closes .object false t' s') :
    Closes .object first s s' := by
  obtain ⟨hnone, -⟩ | ⟨_, w, ⟨⟩, hname, hpeek⟩ := of_nextName h
  · cases hnone
  obtain ⟨rfl, hpeek⟩ | ⟨rfl, u, hcomma, hpeek⟩ := hpeek
  · exact .first hpeek (by decide) (.name hpeek hname hcontent) hclose
  · exact .comma hcomma (.name hpeek hname hcontent) hclose

/-- An object whose members are read is skipped up to its end. -/
theorem Closes.foldMembers {step : σ → String → Reader σ}
    (hstep : ∀ a name, (step a name).Spans colon) {bound : List Char} {first : Bool} {a b : σ}
    (h : foldMembers step bound first a s = .ok b t) (hend : endMembers t = .ok () s') :
    Closes .object first s s' := by
  induction bound generalizing first a s with
  | nil =>
    cases h
    exact .mark (of_endMembers hend) first
  | cons x bound ih =>
    obtain ⟨name, u, hnext, h⟩ := exists_of_bind h
    cases name with
    | none =>
      cases h
      obtain ⟨-, hpeek⟩ | ⟨_, _, hsome, -⟩ := of_nextName hnext
      swap
      · cases hsome
      obtain ⟨w, rfl⟩ := exists_of_peek hpeek
      rw [endMembers_close] at hend
      cases hend
      exact .mark hpeek first
    | some name =>
      obtain ⟨c, v, hread, h⟩ := exists_of_bind h
      exact .member hnext (hstep a name u c v hread) (ih h)

namespace Reader.Spans

variable {front : Reader Unit} {r : Reader α}

theorem bind {f : α → Reader β} (hr : r.Spans front)
    (hf : ∀ a s b s', f a s = .ok b s' → s' = s) : (r >>= f).Spans front := by
  intro s b s' h
  obtain ⟨a, t, ha, hb⟩ := exists_of_bind h
  obtain rfl := hf a t b s' hb
  exact hr s a s' ha

theorem content (hr : r.Spans (pure ())) : (do colon; r : Reader α).Spans colon := by
  intro s a s' h
  obtain ⟨_, t, hcolon, ha⟩ := exists_of_bind h
  exact .content hcolon (hr t a s' ha)

theorem skipValue (hr : r.Spans (pure ())) {a : α} (h : r s = .ok a s') :
    Json.skipValue s = .ok () s' := (hr s a s' h).skipValue

end Reader.Spans

theorem eq_of_pure {a b : α} (h : (pure a : Reader α) s = .ok b s') : s' = s := by
  cases h
  rfl

/-- What is read as a value: its front alone, or the items or members behind a bracket. -/
theorem value_cases {depth : Nat} {v : Json} (h : value depth s = .ok v s') :
    ∃ c t, peek s = .ok (some c) (c :: t) ∧
      ((skipOpening c (c :: t) = .ok none s' ∧ s'.length ≤ t.length) ∨
        (c = '[' ∧ ∃ d vs u, depth = d + 1 ∧ v = .array vs.reverse ∧
          items (fun done => do return (← value d) :: done) [] t = .ok vs u ∧
          endItems u = .ok () s') ∨
        (c = '\x7b' ∧ ∃ d ms u, depth = d + 1 ∧ v = .object ms.reverse ∧
          members (fun done name => do colon; return (name, ← value d) :: done) [] t = .ok ms u ∧
          endMembers u = .ok () s')) := by
  cases depth with
  | zero =>
    obtain ⟨c, u, hpeek, h⟩ := exists_of_bind h
    cases c with
    | none => cases h
    | some c =>
      obtain ⟨t, rfl⟩ := exists_of_peek hpeek
      obtain ⟨front, w, hopen, h⟩ := exists_of_bind h
      obtain ⟨v, rfl, hskip⟩ | ⟨rfl, -⟩ | ⟨rfl, -⟩ := opening_cases hopen <;> cases h
      exact ⟨c, t, hpeek, .inl hskip⟩
  | succ d =>
    obtain ⟨c, u, hpeek, h⟩ := exists_of_bind h
    cases c with
    | none => cases h
    | some c =>
      obtain ⟨t, rfl⟩ := exists_of_peek hpeek
      obtain ⟨front, w, hopen, h⟩ := exists_of_bind h
      refine ⟨c, t, hpeek, ?_⟩
      obtain ⟨v, rfl, hskip⟩ | ⟨rfl, rfl, rfl⟩ | ⟨rfl, rfl, rfl⟩ := opening_cases hopen
      · cases h
        exact .inl hskip
      · obtain ⟨_, _, ⟨⟩, h⟩ := exists_of_bind h
        obtain ⟨vs, w, hread, h⟩ := exists_of_bind h
        cases h
        obtain ⟨u, hitems, hend⟩ := exists_of_closing hread
        exact .inr (.inl ⟨rfl, d, vs, u, rfl, rfl, hitems, hend⟩)
      · obtain ⟨_, _, ⟨⟩, h⟩ := exists_of_bind h
        obtain ⟨ms, w, hread, h⟩ := exists_of_bind h
        cases h
        obtain ⟨u, hmembers, hend⟩ := exists_of_closing hread
        exact .inr (.inr ⟨rfl, d, ms, u, rfl, rfl, hmembers, hend⟩)

theorem value_spans (depth : Nat) : (value depth).Spans (pure ()) := by
  induction depth with
  | zero =>
    intro s v s' h
    obtain ⟨c, t, hpeek, ⟨hskip, hlen⟩ | ⟨-, d, _, _, ⟨⟩, -⟩ | ⟨-, d, _, _, ⟨⟩, -⟩⟩ := value_cases h
    exact .scalar hpeek hskip hlen
  | succ depth ih =>
    intro s v s' h
    obtain ⟨c, t, hpeek, ⟨hskip, hlen⟩ | ⟨rfl, d, vs, u, ⟨⟩, -, hitems, hend⟩ |
      ⟨rfl, d, ms, u, ⟨⟩, -, hmembers, hend⟩⟩ := value_cases h
    · exact .scalar hpeek hskip hlen
    · refine .bracket hpeek rfl (.foldItems (fun done => ?_) hitems hend)
      exact ih.bind fun _ _ _ _ => eq_of_pure
    · refine .bracket hpeek rfl (.foldMembers (fun done name => .content ?_) hmembers hend)
      exact ih.bind fun _ _ _ _ => eq_of_pure

/-- A string that `parse` accepts is read. -/
theorem Decoder.of_parsed {expected : String} {parse : String → Except Mismatch α} {depth : Nat}
    {a : α} (h : (Decoder.parsed expected parse).read depth s = .ok a s') :
    ∃ t text, peek s = .ok (some '"') ('"' :: t) ∧ stringBody t = .ok text s' ∧
      parse text = .ok a := by
  obtain ⟨c, u, hpeek, h⟩ := exists_of_bind (of_placed h)
  split at h
  · cases h
  · obtain ⟨t, rfl⟩ := exists_of_peek hpeek
    obtain ⟨_, _, ⟨⟩, h⟩ := exists_of_bind h
    obtain ⟨text, w, hbody, h⟩ := exists_of_bind h
    obtain ⟨hparse, rfl⟩ := of_ofExcept h
    exact ⟨t, text, hpeek, hbody, hparse⟩
  · exact (Reader.Yields.wrongType (P := fun _ => False) expected _ _ _ h).elim

theorem Decoder.parsed_spans (expected : String) (parse : String → Except Mismatch α)
    (depth : Nat) : ((Decoder.parsed expected parse).read depth).Spans (pure ()) := by
  intro s a s' h
  obtain ⟨t, text, hpeek, hbody, -⟩ := of_parsed h
  obtain ⟨cs, u, hu, rfl⟩ := spells_of_stringFrom hbody
  refine .scalar hpeek (bind_ok (skipString_of_spells hu _) _) ?_
  simp

namespace InnerUnion

variable {u : InnerUnion α} {depth : Nat}

/-- The items of a union are the tag and what follows it. -/
theorem of_readItems {found : (Json → Except Mismatch α) × Json}
    (h : u.readItems depth s = .ok found s') :
    ∃ t t' vs, nextItem true s = .ok true t ∧
      (Decoder.name u.variants).read depth t = .ok found.1 t' ∧
      foldItems (fun done => do return (← value depth) :: done) (' ' :: t') false [] t' =
        .ok vs s' ∧ found.2 = .array vs.reverse := by
  obtain ⟨more, t, hnext, h⟩ := exists_of_bind h
  cases more with
  | false => cases h
  | true =>
    obtain ⟨variant, t', htag, h⟩ := exists_of_bind h
    obtain ⟨vs, x, hitems, h⟩ := exists_of_bind h
    cases h
    exact ⟨t, t', vs, hnext, htag, hitems, rfl⟩

/-- A union is read from the items of an array, or from the members of an object. -/
theorem of_decoder {a : α} (h : u.decoder.read depth s = .ok a s') :
    ∃ variant content d t x, variant content = .ok a ∧
      ((peek s = .ok (some '[') ('[' :: t) ∧ u.readItems d t = .ok (variant, content) x ∧
        endItems x = .ok () s') ∨
      (peek s = .ok (some '\x7b') ('\x7b' :: t) ∧ ∃ parts,
        members (u.readMember d) ⟨none, []⟩ t = .ok parts x ∧ endMembers x = .ok () s' ∧
        u.ofParts parts = .ok (variant, content))) := by
  obtain ⟨⟨variant, content⟩, t, hread, h⟩ := exists_of_bind h
  obtain ⟨hvariant, rfl⟩ := of_ofExcept h
  obtain ⟨c, t, hpeek, hread⟩ := exists_of_bind (of_placed hread)
  split at hread
  · cases hread
  · obtain ⟨w, rfl⟩ := exists_of_peek hpeek
    cases depth with
    | zero => cases hread
    | succ d =>
      obtain ⟨x, hitems, hend⟩ := exists_of_closing (hread : closing _ _ w = _)
      exact ⟨variant, content, d, w, x, hvariant, .inl ⟨hpeek, hitems, hend⟩⟩
  · obtain ⟨w, rfl⟩ := exists_of_peek hpeek
    cases depth with
    | zero => cases hread
    | succ d =>
      obtain ⟨x, hread, hend⟩ := exists_of_closing (hread : closing _ _ w = _)
      obtain ⟨parts, y, hmembers, hread⟩ := exists_of_bind hread
      obtain ⟨hparts, rfl⟩ := of_ofExcept hread
      exact ⟨variant, content, d, w, x, hvariant, .inr ⟨hpeek, parts, hmembers, hend, hparts⟩⟩
  · exact (Reader.Yields.wrongType (P := fun _ => False) u.name _ _ _ hread).elim

theorem readMember_spans (parts : Parts α) (name : String) :
    (u.readMember depth parts name).Spans colon := by
  unfold readMember
  split
  · split
    · rintro s a s' ⟨⟩
    · exact .content ((Decoder.parsed_spans _ _ depth).bind fun _ _ _ _ => eq_of_pure)
  · exact .content ((value_spans depth).bind fun _ _ _ _ => eq_of_pure)

theorem decoder_spans (u : InnerUnion α) (depth : Nat) :
    (u.decoder.read depth).Spans (pure ()) := by
  intro s a s' h
  obtain ⟨variant, content, d, t, x, -, ⟨hpeek, hread, hend⟩ | ⟨hpeek, parts, hmembers, hend, -⟩⟩ :=
    of_decoder h
  · obtain ⟨y, z, vs, hnext, htag, hitems, -⟩ := of_readItems hread
    refine .bracket hpeek rfl (.item hnext (Decoder.parsed_spans _ _ d y variant z htag)
      (.foldItems (fun done => ?_) hitems hend))
    exact (value_spans d).bind fun _ _ _ _ => eq_of_pure
  · exact .bracket hpeek rfl (.foldMembers readMember_spans hmembers hend)

end InnerUnion

namespace Record

variable {r : Record σ α} {depth : Nat}

theorem of_readMember {state state' : σ} {name : String}
    (h : r.readMember depth state name s = .ok state' s') :
    ∃ t, colon s = .ok () t ∧
      ((r.slots.find? (·.name == name) = none ∧ skipValue t = .ok () s' ∧ state' = state) ∨
        ∃ slot put, r.slots.find? (·.name == name) = some slot ∧ slot.filled state = false ∧
          slot.read depth t = .ok put s' ∧ state' = put state) := by
  unfold readMember at h
  cases hfind : r.slots.find? (·.name == name) with
  | none =>
    simp only [hfind] at h
    obtain ⟨_, t, hcolon, h⟩ := exists_of_bind h
    obtain ⟨_, u, hskip, h⟩ := exists_of_bind h
    cases h
    exact ⟨t, hcolon, .inl ⟨rfl, hskip, rfl⟩⟩
  | some slot =>
    simp only [hfind] at h
    split at h
    · cases h
    · next hempty =>
      obtain ⟨_, t, hcolon, h⟩ := exists_of_bind h
      obtain ⟨put, u, hput, h⟩ := exists_of_bind h
      cases h
      exact ⟨t, hcolon, .inr ⟨slot, put, rfl, Bool.eq_false_of_not_eq_true hempty, hput, rfl⟩⟩

/-- A record is read from the items of an array, or from the members of an object. -/
theorem of_decoder {a : α} (h : r.decoder.read depth s = .ok a s') :
    ∃ d t state x, r.build state = .ok a ∧
      ((peek s = .ok (some '[') ('[' :: t) ∧
        r.readSlots d true 0 r.slots r.start t = .ok state x ∧ endItems x = .ok () s') ∨
      (peek s = .ok (some '\x7b') ('\x7b' :: t) ∧
        members (r.readMember d) r.start t = .ok state x ∧ endMembers x = .ok () s')) := by
  obtain ⟨c, t, hpeek, h⟩ := exists_of_bind (of_placed h)
  split at h
  · cases h
  · obtain ⟨w, rfl⟩ := exists_of_peek hpeek
    cases depth with
    | zero => cases h
    | succ d =>
      obtain ⟨x, hread, hend⟩ := exists_of_closing (h : closing _ _ w = _)
      obtain ⟨state, y, hslots, hread⟩ := exists_of_bind hread
      obtain ⟨hbuild, rfl⟩ := of_ofExcept hread
      exact ⟨d, w, state, x, hbuild, .inl ⟨hpeek, hslots, hend⟩⟩
  · obtain ⟨w, rfl⟩ := exists_of_peek hpeek
    cases depth with
    | zero => cases h
    | succ d =>
      obtain ⟨x, hread, hend⟩ := exists_of_closing (h : closing _ _ w = _)
      obtain ⟨state, y, hmembers, hread⟩ := exists_of_bind hread
      obtain ⟨hbuild, rfl⟩ := of_ofExcept hread
      exact ⟨d, w, state, x, hbuild, .inr ⟨hpeek, hmembers, hend⟩⟩
  · exact (Reader.Yields.wrongType (P := fun _ => False) r.name _ _ _ h).elim

end Record

end JobGateway.Json
