import JobGateway.Json.Document
import JobGateway.Proofs.Json.Spelling
import JobGateway.Proofs.Json.WholeNumber
import Mathlib.Data.List.TakeWhile

/-! Readers against spellings. A reader that takes a spelling takes all of it and nothing else,
whatever follows. The items of a list and the members of an object are taken by whatever takes each
of them. -/
namespace JobGateway.Json

theorem bind_eq_ok {ε α β : Type} {x : Except ε α} {f : α → Except ε β} {b : β}
    (h : (x >>= f) = .ok b) : ∃ a, x = .ok a ∧ f a = .ok b := by
  cases x with
  | error e => cases h
  | ok a => exact ⟨a, rfl, h⟩

namespace Reader

variable {α β : Type} {s s' s'' : List Char}

theorem bind_ok {r : Reader α} {a : α} (h : r s = .ok a s') (f : α → Reader β) :
    (r >>= f) s = f a s' := by
  change EStateM.bind r f s = f a s'
  rw [EStateM.bind, h]

@[simp] theorem pure_apply (a : α) : (pure a : Reader α) s = .ok a s := rfl

theorem bind_congr {r r' : Reader α} (h : r s = r' s') (f : α → Reader β) :
    (r >>= f) s = (r' >>= f) s' := by
  change EStateM.bind r f s = EStateM.bind r' f s'
  rw [EStateM.bind, EStateM.bind, h]

theorem map_ok {r : Reader α} {a : α} (h : r s = .ok a s') (f : α → β) :
    (f <$> r) s = .ok (f a) s' := by
  change EStateM.map f r s = .ok (f a) s'
  rw [EStateM.map, h]

theorem placed_ok {r : Reader α} {a : α} (h : r s = .ok a s') : placed r s = .ok a s' := by
  rw [placed, h]

theorem closing_ok {r : Reader α} {finish : Reader Unit} {a : α} (h : r s = .ok a s')
    (hf : finish s' = .ok () s'') : closing r finish s = .ok a s'' := by
  simp only [closing, h, hf]

theorem ofExcept_ok {e : Except Mismatch α} {a : α} (h : e = .ok a) :
    (ofExcept e : Reader α) s = .ok a s := by
  rw [h]
  rfl

theorem exists_of_bind {r : Reader α} {f : α → Reader β} {b : β} (h : (r >>= f) s = .ok b s'') :
    ∃ a s', r s = .ok a s' ∧ f a s' = .ok b s'' := by
  change EStateM.bind r f s = .ok b s'' at h
  rw [EStateM.bind] at h
  split at h
  · next a t ha => exact ⟨a, t, ha, h⟩
  · cases h

theorem exists_of_map {r : Reader α} {f : α → β} {b : β} (h : (f <$> r) s = .ok b s') :
    ∃ a, r s = .ok a s' ∧ f a = b := by
  change EStateM.map f r s = .ok b s' at h
  rw [EStateM.map] at h
  split at h
  · next a t ha =>
    cases h
    exact ⟨a, ha, rfl⟩
  · cases h

theorem of_placed {r : Reader α} {a : α} (h : placed r s = .ok a s') : r s = .ok a s' := by
  rw [placed] at h
  split at h
  · next b t hb =>
    cases h
    exact hb
  · cases h
  · cases h

theorem exists_of_closing {r : Reader α} {finish : Reader Unit} {a : α}
    (h : closing r finish s = .ok a s'') : ∃ s', r s = .ok a s' ∧ finish s' = .ok () s'' := by
  simp only [closing] at h
  split at h
  · next b t hb =>
    split at h
    · next u hu =>
      cases h
      exact ⟨t, hb, hu⟩
    · cases h
  · split at h <;> cases h

theorem of_ofExcept {e : Except Mismatch α} {a : α} (h : (ofExcept e : Reader α) s = .ok a s') :
    e = .ok a ∧ s' = s := by
  cases e with
  | error how => cases h
  | ok b =>
    cases h
    exact ⟨rfl, rfl⟩

end Reader

open Reader

/-- Behind a value that is all of a text, there are only blanks. -/
theorem exists_blank_of_readAll {α : Type} {r : Reader α} {text : List Char} {a : α}
    (h : readAll r text = .ok a) : ∃ s, r text = .ok a s ∧ ∀ c ∈ s, isSpace c = true := by
  unfold readAll at h
  dsimp only at h
  split at h
  · next b s hb =>
    cases h
    obtain ⟨c, u, hc, hend⟩ := exists_of_bind hb
    obtain ⟨d, v, hpeek, hend⟩ := exists_of_bind hend
    split at hend <;> cases hend
    injection hpeek with hnone
    rw [List.head?_eq_none_iff] at hnone
    exact ⟨u, hc, List.dropWhile_eq_nil_iff.1 hnone⟩
  · cases h

theorem exists_of_readAll {α : Type} {r : Reader α} {text : List Char} {a : α}
    (h : readAll r text = .ok a) : ∃ s, r text = .ok a s := by
  obtain ⟨s, hs, -⟩ := exists_blank_of_readAll h
  exact ⟨s, hs⟩

/-- A reader takes a text as a value: it reads all of the text and leaves what follows it. -/
def Takes {α : Type} (r : Reader α) (t : List Char) (a : α) : Prop :=
  ∀ rest, Stops rest → r (t ++ rest) = .ok a rest

theorem Takes.map {α β : Type} {r : Reader α} {t : List Char} {a : α} (h : Takes r t a)
    (f : α → β) : Takes (f <$> r) t (f a) := fun rest hrest => map_ok (h rest hrest) f

theorem advance_cons (c : Char) (s : List Char) : advance (c :: s) = .ok () s := rfl

theorem shortEscape?_ne {e c : Char} (h : shortEscape? e = some c) : e ≠ 'u' := by
  rintro rfl
  simp [shortEscape?] at h

/-- What a numbered escape does to a reader that takes it for the first half of a pair. -/
theorem not_isTrailing_of_isLeading {n : Nat} (h : isLeading n = true) : isTrailing n = false := by
  simp only [isLeading, isTrailing, Bool.and_eq_true, decide_eq_true_eq, Bool.and_eq_false_iff,
    decide_eq_false_iff_not] at h ⊢
  omega

theorem stringFrom_of_spells {s t : List Char} (h : SpellsString s t) (done rest : List Char) :
    stringFrom done (t ++ rest) = .ok (String.ofList (done.reverse ++ s)) rest := by
  induction h generalizing done with
  | nil =>
    rw [List.append_nil, List.cons_append, stringFrom.eq_def]
    rfl
  | @plain c s t quote backslash control _ ih =>
    rw [List.cons_append, stringFrom.eq_def]
    simp only [if_neg quote, if_neg backslash, if_neg control]
    rw [ih, List.reverse_cons, List.append_assoc, List.singleton_append]
  | @short e c s t escape _ ih =>
    rw [List.cons_append, List.cons_append, stringFrom.eq_def]
    simp only [Char.reduceEq, if_false, if_true, if_neg (shortEscape?_ne escape), escape]
    rw [ih, List.reverse_cons, List.append_assoc, List.singleton_append]
  | @numbered a b c d n s t digits trailing leading _ ih =>
    simp only [List.cons_append]
    rw [stringFrom.eq_def]
    simp only [Char.reduceEq, if_false, if_true, digits, trailing, leading, Bool.false_eq_true]
    rw [ih, List.reverse_cons, List.append_assoc, List.singleton_append]
  | @paired a b c d e f g k n m s t first leading second trailing _ ih =>
    simp only [List.cons_append]
    rw [stringFrom.eq_def]
    simp only [Char.reduceEq, if_false, if_true, first, leading, second, trailing,
      not_isTrailing_of_isLeading leading, Bool.false_eq_true]
    rw [ih, List.reverse_cons, List.append_assoc, List.singleton_append]

theorem stringBody_of_spells {s : String} {t : List Char} (h : SpellsString s.toList t)
    (rest : List Char) : stringBody (t ++ rest) = .ok s rest := by
  rw [stringBody, stringFrom_of_spells h]
  simp

theorem peek_blank {c : Char} (h : isSpace c = true) (s : List Char) : peek (c :: s) = peek s := by
  simp [peek, h]

theorem peek_cons {c : Char} (h : isSpace c = false) (s : List Char) :
    peek (c :: s) = .ok (some c) (c :: s) := by
  simp [peek, h]

theorem isSpace_digitChar {d : Nat} (h : d < 10) : isSpace d.digitChar = false := by
  have hall : ∀ d : Fin 10, isSpace d.val.digitChar = false := by decide
  exact hall ⟨d, h⟩

/-- What a reader sees that looks at the next character of a phrase: the phrase without the blanks
in front of it. -/
theorem Spells.front {p : Phrase} {t : List Char} (h : Spells p t) :
    ∃ c u, isSpace c = false ∧ Spells p (c :: u) ∧
      ∀ rest, peek (t ++ rest) = .ok (some c) (c :: (u ++ rest)) := by
  have hcons : ∀ {p : Phrase} {c : Char} {u : List Char}, isSpace c = false → Spells p (c :: u) →
      ∃ c' u', isSpace c' = false ∧ Spells p (c' :: u') ∧
        ∀ rest, peek (c :: u ++ rest) = .ok (some c') (c' :: (u' ++ rest)) :=
    fun hc h => ⟨_, _, hc, h, fun rest => peek_cons hc _⟩
  induction h with
  | blank hc _ ih =>
    obtain ⟨c, u, hcu, hs, hpeek⟩ := ih
    exact ⟨c, u, hcu, hs, fun rest => by rw [List.cons_append, peek_blank hc, hpeek]⟩
  | nullWord => exact hcons rfl .nullWord
  | trueWord => exact hcons rfl .trueWord
  | falseWord => exact hcons rfl .falseWord
  | whole n =>
    obtain ⟨d, u, hd, hu, -⟩ := toDigits_eq_cons n
    have hs := Spells.whole n
    rw [hu] at hs ⊢
    exact hcons (isSpace_digitChar hd) hs
  | negative n => exact hcons rfl (.negative n)
  | string body => exact hcons rfl (.string body)
  | emptyArray close _ => exact hcons rfl (.emptyArray close)
  | array first more _ _ => exact hcons rfl (.array first more)
  | noItem => exact hcons rfl .noItem
  | item next more _ _ => exact hcons rfl (.item next more)
  | emptyObject close _ => exact hcons rfl (.emptyObject close)
  | object first more _ _ => exact hcons rfl (.object first more)
  | noMember => exact hcons rfl .noMember
  | nextMember next more _ _ => exact hcons rfl (.nextMember next more)
  | member body content _ => exact hcons rfl (.member body content)
  | content value _ => exact hcons rfl (.content value)

theorem Spells.items_nil_front {t : List Char} (h : Spells (.items []) t) (rest : List Char) :
    peek (t ++ rest) = .ok (some ']') (']' :: rest) := by
  obtain ⟨c, u, hc, hu, hpeek⟩ := h.front
  cases hu with
  | blank hspace => rw [hc] at hspace; cases hspace
  | noItem => exact hpeek rest

theorem Spells.members_nil_front {t : List Char} (h : Spells (.members []) t) (rest : List Char) :
    peek (t ++ rest) = .ok (some '\x7d') ('\x7d' :: rest) := by
  obtain ⟨c, u, hc, hu, hpeek⟩ := h.front
  cases hu with
  | blank hspace => rw [hc] at hspace; cases hspace
  | noMember => exact hpeek rest

/-- The character that a value begins with does not close a list. -/
theorem Spells.value_ne {v : Json} {c : Char} {u : List Char} (h : Spells (.value v) (c :: u))
    (hc : isSpace c = false) : c ≠ ']' := by
  generalize ht : c :: u = t at h
  cases h with
  | blank hspace rest =>
    cases ht
    rw [hc] at hspace
    cases hspace
  | whole n =>
    obtain ⟨d, w, hd, hw, -⟩ := toDigits_eq_cons n
    rw [hw] at ht
    cases ht
    have hall : ∀ d : Fin 10, d.val.digitChar ≠ ']' := by decide
    exact hall ⟨d, hd⟩
  | _ =>
    cases ht
    decide

theorem stops_of_isSpace {c : Char} (h : isSpace c = true) (rest : List Char) :
    Stops (c :: rest) := by
  simp only [isSpace, Bool.or_eq_true, beq_iff_eq] at h
  rw [stops_cons]
  obtain ((rfl | rfl) | rfl) | rfl := h <;> decide

/-- No number goes on with what follows an item or a member. -/
theorem Spells.stops {p : Phrase} {t : List Char} (h : Spells p t)
    (hp : (∃ vs, p = .items vs) ∨ ∃ ms, p = .members ms) (rest : List Char) :
    Stops (t ++ rest) := by
  cases h with
  | blank hc _ => exact stops_of_isSpace hc _
  | noItem | item | noMember | nextMember =>
    rw [List.cons_append, stops_cons]
    decide
  | _ => simp at hp

theorem Spells.stops_items {vs : List Json} {t : List Char} (h : Spells (.items vs) t)
    (rest : List Char) : Stops (t ++ rest) := h.stops (.inl ⟨vs, rfl⟩) rest

theorem Spells.stops_members {ms : List (String × Json)} {t : List Char}
    (h : Spells (.members ms) t) (rest : List Char) : Stops (t ++ rest) :=
  h.stops (.inr ⟨ms, rfl⟩) rest

variable {σ : Type}

/-- Behind the bracket that opens a list, a value is the first item. -/
theorem nextItem_first {v : Json} {t : List Char} (h : Spells (.value v) t) :
    ∃ u, Spells (.value v) u ∧ ∀ rest, nextItem true (t ++ rest) = .ok true (u ++ rest) := by
  obtain ⟨c, u, hc, hu, hpeek⟩ := h.front
  refine ⟨c :: u, hu, fun rest => ?_⟩
  rw [nextItem, bind_ok (hpeek rest)]
  simp only [if_neg (hu.value_ne hc), if_true]
  rfl

/-- Behind a comma, a value is the next item. -/
theorem nextItem_comma {v : Json} {t : List Char} (h : Spells (.value v) t) :
    ∃ u, Spells (.value v) u ∧
      ∀ rest, nextItem false (',' :: (t ++ rest)) = .ok true (u ++ rest) := by
  obtain ⟨c, u, hc, hu, hpeek⟩ := h.front
  refine ⟨c :: u, hu, fun rest => ?_⟩
  rw [nextItem, bind_ok (peek_cons rfl _)]
  simp only [Char.reduceEq, if_false, if_true, Bool.false_eq_true]
  rw [bind_ok (advance_cons ',' _), bind_ok (hpeek rest)]
  simp [hu.value_ne hc]

theorem nextItem_close {t : List Char} (h : Spells (.items []) t) (first : Bool)
    (rest : List Char) : nextItem first (t ++ rest) = .ok false (']' :: rest) := by
  rw [nextItem, bind_ok (h.items_nil_front rest)]
  rfl

/-- A reader that looks at the next character first does not see blanks. -/
theorem nextItem_congr {s t : List Char} (h : peek s = peek t) (first : Bool) :
    nextItem first s = nextItem first t := bind_congr h _

theorem endItems_close (rest : List Char) : endItems (']' :: rest) = .ok () rest := by
  rw [endItems, bind_ok (peek_cons rfl _)]
  rfl

theorem endMembers_close (rest : List Char) : endMembers ('\x7d' :: rest) = .ok () rest := by
  rw [endMembers, bind_ok (peek_cons rfl _)]
  rfl

/-- The items that follow another one are given to `step` up to the closing bracket. -/
theorem foldItems_of_spells {step : σ → Reader σ} {f : σ → Json → Except Mismatch σ}
    {vs : List Json}
    (hstep : ∀ v ∈ vs, ∀ a b t, Spells (.value v) t → f a v = .ok b → Takes (step a) t b)
    {t : List Char} (ht : Spells (.items vs) t) {bound : List Char} (hb : vs.length < bound.length)
    {a b : σ} (h : vs.foldlM f a = .ok b) (rest : List Char) :
    foldItems step bound false a (t ++ rest) = .ok b (']' :: rest) := by
  induction vs generalizing t bound a with
  | nil =>
    obtain ⟨x, bound, rfl⟩ := List.exists_cons_of_length_pos hb
    cases h
    rw [foldItems, bind_ok (nextItem_close ht false rest)]
    rfl
  | cons v vs ih =>
    obtain ⟨c, u, hc, hu, hpeek⟩ := ht.front
    obtain ⟨x, bound, rfl⟩ := List.exists_cons_of_length_pos (Nat.zero_lt_of_lt hb)
    rw [List.foldlM_cons] at h
    obtain ⟨b', hb', hmore⟩ := bind_eq_ok h
    cases hu with
    | blank hspace => rw [hc] at hspace; cases hspace
    | @item _ _ s t' next more =>
      obtain ⟨w, hw, hnext⟩ := nextItem_comma next
      have hnext' : nextItem false (t ++ rest) = .ok true (w ++ (t' ++ rest)) := by
        rw [← hnext (t' ++ rest)]
        exact nextItem_congr (by rw [hpeek, peek_cons rfl, List.append_assoc]) false
      have hread := hstep v (by simp) a b' w hw hb' (t' ++ rest) (more.stops_items rest)
      rw [foldItems, bind_ok hnext']
      simp only [if_true]
      rw [bind_ok hread]
      exact ih (fun v hv => hstep v (by simp [hv])) more (by simpa using hb) hmore

theorem length_lt_of_spells_items {vs : List Json} {t : List Char} (h : Spells (.items vs) t) :
    vs.length < t.length := by
  generalize hp : Phrase.items vs = p at h
  induction h generalizing vs with
  | blank _ _ ih =>
    have := ih hp
    simp only [List.length_cons]
    omega
  | noItem => cases hp; simp
  | item _ _ _ ih =>
    cases hp
    have := ih rfl
    simp only [List.length_cons, List.length_append]
    omega
  | _ => cases hp

/-- All items of a list are given to `step`, up to the closing bracket. -/
theorem items_of_spells {step : σ → Reader σ} {f : σ → Json → Except Mismatch σ} {vs : List Json}
    (hstep : ∀ v ∈ vs, ∀ a b t, Spells (.value v) t → f a v = .ok b → Takes (step a) t b)
    {t : List Char} (ht : Spells (.value (.array vs)) ('[' :: t)) {a b : σ}
    (h : vs.foldlM f a = .ok b) (rest : List Char) :
    items step a (t ++ rest) = .ok b (']' :: rest) := by
  rw [items]
  cases ht with
  | blank hspace => cases hspace
  | emptyArray close =>
    cases h
    rw [foldItems, bind_ok (nextItem_close close true rest)]
    rfl
  | @array v vs s t first more =>
    obtain ⟨w, hw, hnext⟩ := nextItem_first first
    rw [List.foldlM_cons] at h
    obtain ⟨b', hb', hmore⟩ := bind_eq_ok h
    have hread := hstep v (by simp) a b' w hw hb' (t ++ rest) (more.stops_items rest)
    have hlen := length_lt_of_spells_items more
    rw [List.append_assoc, foldItems, bind_ok (hnext (t ++ rest))]
    simp only [if_true]
    rw [bind_ok hread]
    refine foldItems_of_spells (fun v hv => hstep v (by simp [hv])) more ?_ hmore rest
    simp only [List.length_append]
    omega

theorem Spells.member_front {name : String} {v : Json} {t : List Char}
    (h : Spells (.member name v) t) :
    ∃ s u, SpellsString name.toList s ∧ Spells (.content v) u ∧
      ∀ rest, peek (t ++ rest) = .ok (some '"') ('"' :: (s ++ (u ++ rest))) := by
  obtain ⟨c, w, hc, hw, hpeek⟩ := h.front
  cases hw with
  | blank hspace => rw [hc] at hspace; cases hspace
  | member body content =>
    refine ⟨_, _, body, content, fun rest => ?_⟩
    rw [hpeek, List.append_assoc]

theorem nextName_congr {s t : List Char} (h : peek s = peek t) (first : Bool) :
    nextName first s = nextName first t := bind_congr h _

theorem nextName_close {t : List Char} (h : Spells (.members []) t) (first : Bool)
    (rest : List Char) : nextName first (t ++ rest) = .ok none ('\x7d' :: rest) := by
  rw [nextName, bind_ok (h.members_nil_front rest)]
  rfl

/-- Behind the bracket that opens an object, the name of the first member is read. -/
theorem nextName_first {name : String} {v : Json} {t : List Char} (h : Spells (.member name v) t) :
    ∃ u, Spells (.content v) u ∧ ∀ rest, nextName true (t ++ rest) = .ok (some name) (u ++ rest) := by
  obtain ⟨s, u, hs, hu, hpeek⟩ := h.member_front
  refine ⟨u, hu, fun rest => ?_⟩
  rw [nextName, bind_ok (hpeek rest)]
  simp only [Char.reduceEq, if_false, true_or, if_true, not_true_eq_false]
  rw [bind_ok (peek_cons rfl _)]
  change (advance >>= fun _ => (some <$> stringBody : Reader (Option String))) _ = _
  rw [bind_ok (advance_cons '"' _), map_ok (stringBody_of_spells hs _)]

/-- Behind a comma, the name of the next member is read. -/
theorem nextName_comma {name : String} {v : Json} {t : List Char} (h : Spells (.member name v) t) :
    ∃ u, Spells (.content v) u ∧
      ∀ rest, nextName false (',' :: (t ++ rest)) = .ok (some name) (u ++ rest) := by
  obtain ⟨s, u, hs, hu, hpeek⟩ := h.member_front
  refine ⟨u, hu, fun rest => ?_⟩
  rw [nextName, bind_ok (peek_cons rfl _)]
  simp only [Char.reduceEq, if_false, or_true, if_true, Bool.false_eq_true, not_false_eq_true]
  rw [bind_ok (advance_cons ',' _), bind_ok (hpeek rest)]
  change (advance >>= fun _ => (some <$> stringBody : Reader (Option String))) _ = _
  rw [bind_ok (advance_cons '"' _), map_ok (stringBody_of_spells hs _)]

/-- Behind the name of a member, the colon is taken. -/
theorem colon_of_spells {v : Json} {t : List Char} (h : Spells (.content v) t) :
    ∃ u, Spells (.value v) u ∧ ∀ rest, colon (t ++ rest) = .ok () (u ++ rest) := by
  obtain ⟨c, w, hc, hw, hpeek⟩ := h.front
  cases hw with
  | blank hspace => rw [hc] at hspace; cases hspace
  | content value =>
    refine ⟨_, value, fun rest => ?_⟩
    rw [colon, bind_ok (hpeek rest)]
    rfl

theorem length_lt_of_spells_members {ms : List (String × Json)} {t : List Char}
    (h : Spells (.members ms) t) : ms.length < t.length := by
  generalize hp : Phrase.members ms = p at h
  induction h generalizing ms with
  | blank _ _ ih =>
    have := ih hp
    simp only [List.length_cons]
    omega
  | noMember => cases hp; simp
  | nextMember _ _ _ ih =>
    cases hp
    have := ih rfl
    simp only [List.length_cons, List.length_append]
    omega
  | _ => cases hp

/-- The members that follow another one are given to `step` up to the closing bracket. -/
theorem foldMembers_of_spells {step : σ → String → Reader σ}
    {f : σ → String × Json → Except Mismatch σ} {ms : List (String × Json)}
    (hstep : ∀ m ∈ ms, ∀ a b t, Spells (.content m.2) t → f a m = .ok b → Takes (step a m.1) t b)
    {t : List Char} (ht : Spells (.members ms) t) {bound : List Char}
    (hb : ms.length < bound.length) {a b : σ} (h : ms.foldlM f a = .ok b) (rest : List Char) :
    foldMembers step bound false a (t ++ rest) = .ok b ('\x7d' :: rest) := by
  induction ms generalizing t bound a with
  | nil =>
    obtain ⟨x, bound, rfl⟩ := List.exists_cons_of_length_pos hb
    cases h
    rw [foldMembers, bind_ok (nextName_close ht false rest)]
    rfl
  | cons m ms ih =>
    obtain ⟨c, u, hc, hu, hpeek⟩ := ht.front
    obtain ⟨x, bound, rfl⟩ := List.exists_cons_of_length_pos (Nat.zero_lt_of_lt hb)
    rw [List.foldlM_cons] at h
    obtain ⟨b', hb', hmore⟩ := bind_eq_ok h
    cases hu with
    | blank hspace => rw [hc] at hspace; cases hspace
    | @nextMember name v _ s t' next more =>
      obtain ⟨w, hw, hnext⟩ := nextName_comma next
      have hnext' : nextName false (t ++ rest) = .ok (some name) (w ++ (t' ++ rest)) := by
        rw [← hnext (t' ++ rest)]
        exact nextName_congr (by rw [hpeek, peek_cons rfl, List.append_assoc]) false
      have hread := hstep (name, v) (by simp) a b' w hw hb' (t' ++ rest) (more.stops_members rest)
      rw [foldMembers, bind_ok hnext']
      dsimp only
      rw [bind_ok hread]
      exact ih (fun m hm => hstep m (by simp [hm])) more (by simpa using hb) hmore

/-- All members of an object are given to `step`, up to the closing bracket. -/
theorem members_of_spells {step : σ → String → Reader σ}
    {f : σ → String × Json → Except Mismatch σ} {ms : List (String × Json)}
    (hstep : ∀ m ∈ ms, ∀ a b t, Spells (.content m.2) t → f a m = .ok b → Takes (step a m.1) t b)
    {t : List Char} (ht : Spells (.value (.object ms)) ('\x7b' :: t)) {a b : σ}
    (h : ms.foldlM f a = .ok b) (rest : List Char) :
    members step a (t ++ rest) = .ok b ('\x7d' :: rest) := by
  rw [members]
  cases ht with
  | blank hspace => cases hspace
  | emptyObject close =>
    cases h
    rw [foldMembers, bind_ok (nextName_close close true rest)]
    rfl
  | @object name v ms s t first more =>
    obtain ⟨w, hw, hnext⟩ := nextName_first first
    rw [List.foldlM_cons] at h
    obtain ⟨b', hb', hmore⟩ := bind_eq_ok h
    have hread := hstep (name, v) (by simp) a b' w hw hb' (t ++ rest) (more.stops_members rest)
    have hlen := length_lt_of_spells_members more
    rw [List.append_assoc, foldMembers, bind_ok (hnext (t ++ rest))]
    dsimp only
    rw [bind_ok hread]
    refine foldMembers_of_spells (fun m hm => hstep m (by simp [hm])) more ?_ hmore rest
    simp only [List.length_append]
    omega

end JobGateway.Json
