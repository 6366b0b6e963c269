import JobGateway.Proofs.Json.Outline
import JobGateway.Proofs.Json.Stability

/-! Well-formed texts. What skipping takes is the text of a value: a word, a number or a string, or a
bracket with its parts. So whatever reads as far as skipping goes has read the text of a value. -/
namespace JobGateway.Json

open Reader

variable {α σ : Type} {b : Bracket} {s s' t u v w rest : List Char} {us : List (List Char)}

/-- The mark that opens a bracket. -/
def Bracket.front : Bracket → Char
  | .list => '['
  | .object => '\x7b'

/-- A part of a bracket: a value, or a member with the text of a value. -/
inductive IsPart : Bracket → List Char → Prop
  | item {u : List Char} (value : IsValue u) : IsPart .list u
  | member {m : List Char × List Char} {u : List Char} (h : IsMember m u) (value : IsValue m.2) :
      IsPart .object u

theorem IsValue.blanks (hw : IsBlank w) (h : IsValue u) : IsValue (w ++ u) := by
  induction w with
  | nil => exact h
  | cons c w ih =>
    obtain ⟨hc, hw⟩ := List.forall_mem_cons.1 hw
    exact (ih hw).blank hc

theorem IsMember.blanks {m : List Char × List Char} (hw : IsBlank w) (h : IsMember m u) :
    IsMember m (w ++ u) := by
  induction w with
  | nil => exact h
  | cons c w ih =>
    obtain ⟨hc, hw⟩ := List.forall_mem_cons.1 hw
    exact (ih hw).blank hc

theorem IsPart.blanks (hw : IsBlank w) (h : IsPart b u) : IsPart b (w ++ u) := by
  cases h with
  | item value => exact .item (value.blanks hw)
  | member h value => exact .member (h.blanks hw) value

theorem exists_members_of_isPart (h : ∀ u ∈ us, IsPart .object u) :
    ∃ ms, List.Forall₂ IsMember ms us ∧ ∀ m ∈ ms, IsValue m.2 := by
  induction us with
  | nil => exact ⟨[], .nil, by simp⟩
  | cons u us ih =>
    obtain ⟨hu, hus⟩ := List.forall_mem_cons.1 h
    obtain ⟨ms, hms, hvalues⟩ := ih hus
    cases hu with
    | @member m _ hm value => exact ⟨m :: ms, .cons hm hms, List.forall_mem_cons.2 ⟨value, hvalues⟩⟩

/-- What stands behind the mark that opens a bracket, or behind a part, up to the mark that closes the
bracket. -/
def IsTail (b : Bracket) (first : Bool) (t : List Char) : Prop :=
  ∃ us, Remains b.mark first us t ∧ ∀ u ∈ us, IsPart b u

theorem IsTail.mark (hw : IsBlank w) (first : Bool) : IsTail b first (w ++ [b.mark]) := by
  refine ⟨[], ?_, by simp⟩
  cases first with
  | true => exact (Encloses.empty hw).remains
  | false => exact (Continues.done hw).remains

/-- A part goes before the parts that follow it, after a comma unless it is the first. -/
theorem IsTail.cons (first : Bool) (hw : IsBlank w) (hu : IsPart b u) (h : IsTail b false t) :
    IsTail b first (w ++ (bif first then u ++ t else ',' :: (u ++ t))) := by
  obtain ⟨us, hmore, hus⟩ := h
  cases first with
  | true =>
    refine ⟨(w ++ u) :: us, ?_, List.forall_mem_cons.2 ⟨hu.blanks hw, hus⟩⟩
    rw [cond_true, ← List.append_assoc]
    exact (Encloses.parts hmore).remains
  | false => exact ⟨u :: us, (Continues.next hw hmore).remains, List.forall_mem_cons.2 ⟨hu, hus⟩⟩

theorem IsTail.blanks {first : Bool} (hw : IsBlank w) (h : IsTail b first t) :
    IsTail b first (w ++ t) := by
  obtain ⟨us, hremains, hus⟩ := h
  have happend : ∀ {v}, IsBlank v → IsBlank (w ++ v) := fun hv =>
    List.forall_mem_append.2 ⟨hw, hv⟩
  cases first with
  | true =>
    cases (show Encloses b.mark us t from hremains) with
    | empty blank =>
      rw [← List.append_assoc]
      exact .mark (happend blank) true
    | parts more =>
      obtain ⟨hu, hus⟩ := List.forall_mem_cons.1 hus
      exact .cons true hw hu ⟨_, more.remains, hus⟩
  | false =>
    cases (show Continues b.mark us t from hremains) with
    | done blank =>
      rw [← List.append_assoc]
      exact .mark (happend blank) false
    | next blank more =>
      obtain ⟨hu, hus⟩ := List.forall_mem_cons.1 hus
      rw [← List.append_assoc]
      exact .cons false (happend blank) hu ⟨_, more.remains, hus⟩

/-- A bracket up to the mark that closes it is a value. -/
theorem isValue_bracket (hw : IsBlank w) (h : IsTail b true t) : IsValue (w ++ b.front :: t) := by
  obtain ⟨us, hremains, hus⟩ := h
  cases b with
  | list =>
    refine .array (.mk hw hremains) fun u hu => ?_
    cases hus u hu with
    | item value => exact value
  | object =>
    obtain ⟨ms, hms, hvalues⟩ := exists_members_of_isPart hus
    exact .object (.mk hw hms hremains) hvalues

section Scalars

theorem exists_blank_of_peek {c : Char} (h : peek s = .ok (some c) t) :
    ∃ w u, IsBlank w ∧ t = c :: u ∧ s = w ++ c :: u := by
  obtain ⟨u, rfl⟩ := exists_of_peek h
  refine ⟨s.takeWhile isSpace, u, fun c hc => List.mem_takeWhile_imp hc, rfl, ?_⟩
  rw [eq_of_peek h, List.takeWhile_append_dropWhile]

theorem eq_of_word {a a' : α} {ws : List Char} (h : word a ws s = .ok a' s') : s = ws ++ s' := by
  induction ws generalizing s with
  | nil =>
    cases h
    rfl
  | cons x ws ih =>
    cases s with
    | nil => cases h
    | cons c s =>
      rw [word] at h
      dsimp only at h
      split_ifs at h with hc
      · rw [hc, ih h, List.cons_append]
      · cases h

theorem exists_digits (s : List Char) :
    ∃ ds, s = ds ++ dropDigits s ∧ ∀ c ∈ ds, (digit? c).isSome = true := by
  refine ⟨s.takeWhile fun c => (digit? c).isSome, List.takeWhile_append_dropWhile.symm,
    fun c hc => ?_⟩
  exact List.mem_takeWhile_imp (p := fun c => (digit? c).isSome) hc

theorem exists_isDigits (h : startsWithDigit s = true) :
    ∃ ds, s = ds ++ dropDigits s ∧ IsDigits ds := by
  cases s with
  | nil => cases h
  | cons c s =>
    have hc : (digit? c).isSome = true := h
    have hdrop : dropDigits (c :: s) = dropDigits s :=
      List.dropWhile_cons_of_pos (p := fun c => (digit? c).isSome) hc
    obtain ⟨ds, hs, hds⟩ := exists_digits s
    refine ⟨c :: ds, ?_, List.cons_ne_nil c ds, List.forall_mem_cons.2 ⟨hc, hds⟩⟩
    rw [hdrop, List.cons_append, ← hs]

/-- What may follow the sign of an exponent, if it is skipped, is digits. -/
theorem isDigits_of_skip
    (h : (if startsWithDigit s then .ok () (dropDigits s) else failNext (.malformed .number) s) =
      (.ok () s' : EStateM.Result Fault (List Char) Unit)) : ∃ ds, s = ds ++ s' ∧ IsDigits ds := by
  split_ifs at h with hdigit
  · cases h
    exact exists_isDigits hdigit
  · cases h

theorem isExponent_of_skipNumberEnd (h : skipNumberEnd s = .ok () s') :
    ∃ e, s = e ++ s' ∧ IsExponent e := by
  cases s with
  | nil =>
    cases h
    exact ⟨[], rfl, .none⟩
  | cons c s =>
    rw [skipNumberEnd] at h
    split_ifs at h with letter
    · unfold skipExponent at h
      dsimp only at h
      split at h
      · obtain ⟨ds, rfl, hds⟩ := isDigits_of_skip h
        exact ⟨c :: '+' :: ds, rfl, .signed letter (.inl rfl) hds⟩
      · obtain ⟨ds, rfl, hds⟩ := isDigits_of_skip h
        exact ⟨c :: '-' :: ds, rfl, .signed letter (.inr rfl) hds⟩
      · obtain ⟨ds, rfl, hds⟩ := isDigits_of_skip h
        exact ⟨c :: ds, rfl, .bare letter hds⟩
    · cases h
      exact ⟨[], rfl, .none⟩

theorem isFraction_of_skipFraction (h : skipFraction s = .ok () s') :
    ∃ f e, s = f ++ (e ++ s') ∧ IsFraction f ∧ IsExponent e := by
  unfold skipFraction at h
  split at h
  · split_ifs at h with hdigit
    · obtain ⟨ds, hs, hds⟩ := exists_isDigits hdigit
      obtain ⟨e, he, hexponent⟩ := isExponent_of_skipNumberEnd h
      refine ⟨'.' :: ds, e, ?_, .point hds, hexponent⟩
      rw [← he, List.cons_append, ← hs]
    · cases h
  · obtain ⟨e, rfl, hexponent⟩ := isExponent_of_skipNumberEnd h
    exact ⟨[], e, rfl, .none, hexponent⟩

/-- What is skipped as a number is one. -/
theorem isNumber_of_skipNumber (h : skipNumber s = .ok () s') : ∃ t, s = t ++ s' ∧ IsNumber t := by
  obtain ⟨c, d, u, rfl, hc, hzero, hfraction⟩ := of_skipNumber h
  obtain ⟨f, e, hu, hf, he⟩ := isFraction_of_skipFraction hfraction
  obtain ⟨ds, hs, hds⟩ := exists_digits u
  have hwhole : IsWhole (c :: ds) := by
    by_cases hd : c = '0'
    · subst hd
      cases hc
      cases ds with
      | nil => exact .zero
      | cons x ds =>
        -- A zero is the only digit.
        rw [hs] at hzero
        exact absurd ⟨rfl, hds x List.mem_cons_self⟩ hzero
    · exact .digits hd ⟨List.cons_ne_nil c ds, List.forall_mem_cons.2
        ⟨Option.isSome_iff_exists.2 ⟨d, hc⟩, hds⟩⟩
  refine ⟨c :: ds ++ (f ++ e), ?_, .mk hwhole hf he⟩
  rw [List.append_assoc, List.append_assoc, ← hu, List.cons_append, ← hs]

end Scalars

/-- A front that opens no bracket is a value. -/
theorem isValue_of_skipOpening {c : Char} (hw : IsBlank w)
    (h : skipOpening c (c :: t) = .ok none s') : ∃ u, c :: t = u ++ s' ∧ IsValue (w ++ u) := by
  unfold skipOpening at h
  split at h
  · obtain ⟨_, u, ⟨⟩, h⟩ := exists_of_bind h
    exact ⟨['n', 'u', 'l', 'l'], congrArg ('n' :: ·) (eq_of_word h), .nullWord hw⟩
  · obtain ⟨_, u, ⟨⟩, h⟩ := exists_of_bind h
    exact ⟨['t', 'r', 'u', 'e'], congrArg ('t' :: ·) (eq_of_word h), .trueWord hw⟩
  · obtain ⟨_, u, ⟨⟩, h⟩ := exists_of_bind h
    exact ⟨['f', 'a', 'l', 's', 'e'], congrArg ('f' :: ·) (eq_of_word h), .falseWord hw⟩
  · obtain ⟨_, u, ⟨⟩, h⟩ := exists_of_bind h
    obtain ⟨_, v, hskip, ⟨⟩⟩ := exists_of_bind h
    obtain ⟨n, hn, hnumber⟩ := isNumber_of_skipNumber hskip
    exact ⟨'-' :: n, congrArg ('-' :: ·) hn, .negative hw hnumber⟩
  · obtain ⟨_, u, ⟨⟩, h⟩ := exists_of_bind h
    obtain ⟨_, v, hskip, ⟨⟩⟩ := exists_of_bind h
    obtain ⟨n, hn, hbody⟩ := isStringBody_of_skipString hskip
    exact ⟨'"' :: n, congrArg ('"' :: ·) hn, .string hw hbody⟩
  iterate 2
    · obtain ⟨_, u, -, ⟨⟩⟩ := exists_of_bind h
  · split_ifs at h
    · obtain ⟨_, v, hskip, ⟨⟩⟩ := exists_of_bind h
      obtain ⟨n, hn, hnumber⟩ := isNumber_of_skipNumber hskip
      exact ⟨n, hn, .number hw hnumber⟩
    · cases h

theorem eq_front_of_skipOpening {c : Char} (h : skipOpening c (c :: t) = .ok (some b) s') :
    c = b.front := by
  unfold skipOpening at h
  split at h
  iterate 3
    · cases Reader.Yields.word (P := (· = none)) rfl _ t _ s' h
  iterate 2
    · obtain ⟨_, v, -, h⟩ := exists_of_bind h
      obtain ⟨_, w, -, ⟨⟩⟩ := exists_of_bind h
  iterate 2
    · cases h
      rfl
  · split at h
    · obtain ⟨_, v, -, ⟨⟩⟩ := exists_of_bind h
    · cases h

theorem isValue_of_skipFront (h : skipFront s = .ok none s') : ∃ t, s = t ++ s' ∧ IsValue t := by
  obtain ⟨c, u, hpeek, hopen⟩ := exists_of_bind h
  cases c with
  | none => cases hopen
  | some c =>
    obtain ⟨w, v, hw, rfl, rfl⟩ := exists_blank_of_peek hpeek
    obtain ⟨t, ht, hvalue⟩ := isValue_of_skipOpening hw hopen
    exact ⟨w ++ t, by rw [ht, List.append_assoc], hvalue⟩

theorem eq_of_skipFront (h : skipFront s = .ok (some b) s') :
    ∃ w, IsBlank w ∧ s = w ++ b.front :: s' := by
  obtain ⟨c, u, hpeek, hopen⟩ := exists_of_bind h
  cases c with
  | none => cases hopen
  | some c =>
    obtain ⟨w, v, hw, rfl, rfl⟩ := exists_blank_of_peek hpeek
    obtain rfl := of_skipOpening_some hopen
    exact ⟨w, hw, by rw [eq_front_of_skipOpening hopen]⟩

theorem eq_of_colon (h : colon s = .ok () s') : ∃ w, IsBlank w ∧ s = w ++ ':' :: s' := by
  obtain ⟨w, v, hw, ⟨⟩, hs⟩ := exists_blank_of_peek (of_colon h)
  exact ⟨w, hw, hs⟩

/-- A name with its colon, if the bracket asks for one, makes a part of what follows. -/
theorem isPart_of_skipName (h : skipName b s = .ok () s') :
    ∃ n, s = n ++ s' ∧ ∀ u, IsValue u → IsPart b (n ++ u) := by
  cases b with
  | list =>
    cases h
    exact ⟨[], rfl, fun u hu => .item hu⟩
  | object =>
    obtain ⟨c, t, hpeek, hread⟩ := exists_of_bind h
    split at hread
    · cases hread
    · obtain ⟨w, v, hw, rfl, rfl⟩ := exists_blank_of_peek hpeek
      obtain ⟨_, _, ⟨⟩, hrest⟩ := exists_of_bind hread
      obtain ⟨_, x, hskip, hcolon⟩ := exists_of_bind hrest
      obtain ⟨name, rfl, hname⟩ := isStringBody_of_skipString hskip
      obtain ⟨w', hw', rfl⟩ := eq_of_colon hcolon
      refine ⟨w ++ '"' :: (name ++ (w' ++ [':'])), by simp, fun u hu => ?_⟩
      have heq : w ++ '"' :: (name ++ (w' ++ [':'])) ++ u =
        w ++ '"' :: (name ++ (w' ++ ':' :: u)) := by simp
      rw [heq]
      exact .member (.mk hw hname hw') hu
    · cases hread

/-- A round that comes to a front has taken blanks, a comma unless the bracket was opened just now,
and what makes a part of the value that begins there. -/
theorem of_skipRound_some {opened : Bool} {o : Option Bracket}
    (h : skipRound b opened s = .ok (some o) s') :
    ∃ w n t, IsBlank w ∧ s = w ++ (bif opened then n ++ t else ',' :: (n ++ t)) ∧
      (∀ u, IsValue u → IsPart b (n ++ u)) ∧ skipFront t = .ok o s' := by
  have hpart : ∀ {u}, (do skipName b; some <$> skipFront) u = .ok (some o) s' →
      ∃ n t, u = n ++ t ∧ (∀ v, IsValue v → IsPart b (n ++ v)) ∧ skipFront t = .ok o s' := by
    intro u hu
    obtain ⟨_, t, hname, hfront⟩ := exists_of_bind hu
    obtain ⟨n, rfl, hn⟩ := isPart_of_skipName hname
    obtain ⟨_, hfront, ⟨⟩⟩ := exists_of_map hfront
    exact ⟨n, t, rfl, hn, hfront⟩
  obtain ⟨c, u, hpeek, hround⟩ := exists_of_bind h
  cases c with
  | none => cases hround
  | some c =>
    obtain ⟨w, v, hw, rfl, rfl⟩ := exists_blank_of_peek hpeek
    dsimp only at hround
    split_ifs at hround with hmark hgo hopened
    · obtain ⟨_, _, -, ⟨⟩⟩ := exists_of_bind hround
    · obtain ⟨n, t, hv, hn, hfront⟩ := hpart hround
      exact ⟨w, n, t, hw, by rw [hopened, cond_true, hv], hn, hfront⟩
    · obtain ⟨_, _, ⟨⟩, hround⟩ := exists_of_bind hround
      obtain ⟨n, t, hv, hn, hfront⟩ := hpart hround
      obtain rfl := hgo.resolve_left hopened
      rw [List.tail_cons] at hv
      exact ⟨w, n, t, hw, by rw [Bool.eq_false_of_not_eq_true hopened, cond_false, hv], hn, hfront⟩
    · cases hround

/-- Skipping up to the end of the open brackets takes what remains of the innermost one, up to its
mark, and goes on behind it. -/
theorem isTail_of_skipFrom {bound : List Char} {opened : Bool} {stack : List Bracket}
    (h : skipFrom bound opened (b :: stack) s = .ok () s') (hlen : s.length < bound.length) :
    ∃ t rest bound', s = t ++ rest ∧ IsTail b opened t ∧ rest.length < bound'.length ∧
      bound'.length < bound.length ∧ skipFrom bound' false stack rest = .ok () s' := by
  induction hn : bound.length using Nat.strongRecOn generalizing bound opened b stack s with
  | _ n ih =>
    obtain ⟨x, bound, rfl⟩ := List.exists_cons_of_length_pos (Nat.zero_lt_of_lt hlen)
    rw [List.length_cons] at hlen hn
    rw [skipFrom_cons] at h
    obtain ⟨o, u, hround, hmore⟩ := exists_of_bind h
    have hlt := length_of_skipRound hround
    cases o with
    | none =>
      obtain ⟨w, _, hw, ⟨⟩, rfl⟩ := exists_blank_of_peek (of_skipRound_none hround)
      exact ⟨w ++ [b.mark], u, bound, by simp, .mark hw opened, by omega, by omega, hmore⟩
    | some o =>
      obtain ⟨w, n, t, hw, rfl, hpart, hfront⟩ := of_skipRound_some hround
      -- The value that begins at the front, then the parts that follow it.
      have hnext : ∃ p v bound', t = p ++ v ∧ IsValue p ∧ v.length < bound'.length ∧
          bound'.length ≤ bound.length ∧ skipFrom bound' false (b :: stack) v = .ok () s' := by
        cases o with
        | none =>
          obtain ⟨p, rfl, hp⟩ := isValue_of_skipFront hfront
          exact ⟨p, u, bound, rfl, hp, by omega, Nat.le_refl _, hmore⟩
        | some inner =>
          obtain ⟨w', hw', rfl⟩ := eq_of_skipFront hfront
          obtain ⟨p, v, bound', rfl, hp, hv, hbound, hrest⟩ :=
            ih bound.length (by omega) hmore (by omega) rfl
          exact ⟨w' ++ inner.front :: p, v, bound', by simp, isValue_bracket hw' hp, hv, by omega,
            hrest⟩
      obtain ⟨p, v, bound', rfl, hp, hv, hbound, hparts⟩ := hnext
      obtain ⟨q, rest, bound'', rfl, hq, hrest, hbound', hend⟩ :=
        ih bound'.length (by omega) hparts hv rfl
      refine ⟨_, rest, bound'', ?_, .cons opened hw (hpart p hp) hq, hrest, by omega, hend⟩
      cases opened <;> simp

/-- What is skipped is the text of a value. -/
theorem isValue_of_skipValue (h : skipValue s = .ok () s') : ∃ t, s = t ++ s' ∧ IsValue t := by
  obtain ⟨o, u, hfront, hmore⟩ := exists_of_bind h
  cases o with
  | none =>
    cases hmore
    exact isValue_of_skipFront hfront
  | some b =>
    obtain ⟨w, hw, rfl⟩ := eq_of_skipFront hfront
    obtain ⟨t, rest, bound, rfl, ht, -, -, hend⟩ := isTail_of_skipFrom hmore (Nat.lt_succ_self _)
    rw [skipFrom_nil] at hend
    cases hend
    exact ⟨w ++ b.front :: t, by simp, isValue_bracket hw ht⟩

section Readers

variable {first : Bool}

theorem isTail_of_mark (first : Bool) (h : peek s = .ok (some b.mark) (b.mark :: s')) :
    ∃ t, s = t ++ s' ∧ IsTail b first t := by
  obtain ⟨w, _, hw, ⟨⟩, rfl⟩ := exists_blank_of_peek h
  exact ⟨w ++ [b.mark], by simp, .mark hw first⟩

/-- An item, and what follows it in a list that is read. -/
theorem isTail_of_nextItem (h : nextItem first s = .ok true t) (hu : IsValue u)
    (ht : t = u ++ v) (hmore : ∃ x, v = x ++ s' ∧ IsTail .list false x) :
    ∃ x, s = x ++ s' ∧ IsTail .list first x := by
  subst ht
  obtain ⟨x, rfl, hx⟩ := hmore
  obtain ⟨rfl, c, -, hpeek⟩ | ⟨rfl, c, y, hcomma, hpeek⟩ := of_nextItem_true h
  · obtain ⟨w, _, hw, hc, rfl⟩ := exists_blank_of_peek hpeek
    exact ⟨_, by simp [← hc], .cons true hw (.item hu) hx⟩
  · obtain ⟨w, _, hw, ⟨⟩, rfl⟩ := exists_blank_of_peek hcomma
    obtain ⟨w', _, hw', hc, rfl⟩ := exists_blank_of_peek hpeek
    exact ⟨_, by simp [← hc], .cons false hw (.item (hu.blanks hw')) hx⟩

/-- A member, and what follows it in an object that is read. -/
theorem isTail_of_nextName {name : String} (h : nextName first s = .ok (some name) t)
    (hcolon : colon t = .ok () u) (hv : IsValue v) (hu : u = v ++ rest)
    (hmore : ∃ x, rest = x ++ s' ∧ IsTail .object false x) :
    ∃ x, s = x ++ s' ∧ IsTail .object first x := by
  subst hu
  obtain ⟨x, rfl, hx⟩ := hmore
  obtain ⟨w', hw', rfl⟩ := eq_of_colon hcolon
  obtain ⟨⟨⟩, -⟩ | ⟨_, y, ⟨⟩, hname, hpeek⟩ := of_nextName h
  obtain ⟨cs, body, hbody, rfl⟩ := spells_of_stringFrom hname
  have hmember : ∀ {w}, IsBlank w → IsPart .object (w ++ '"' :: (body ++ (w' ++ ':' :: v))) :=
    fun hw => .member (.mk hw hbody.isStringBody hw') hv
  obtain ⟨rfl, hpeek⟩ | ⟨rfl, z, hcomma, hpeek⟩ := hpeek
  · obtain ⟨w, _, hw, ⟨⟩, rfl⟩ := exists_blank_of_peek hpeek
    exact ⟨_, by simp, .cons true isBlank_nil (hmember hw) hx⟩
  · obtain ⟨w, _, hw, ⟨⟩, rfl⟩ := exists_blank_of_peek hcomma
    obtain ⟨w'', _, hw'', ⟨⟩, rfl⟩ := exists_blank_of_peek hpeek
    exact ⟨_, by simp, .cons false hw (hmember hw'') hx⟩

/-- The members of an object that is read, up to its end. -/
theorem isTail_of_foldMembers {step : σ → String → Reader σ}
    (hstep : ∀ a name, (step a name).EndsContent) {bound : List Char} {a a' : σ}
    (h : foldMembers step bound first a s = .ok a' t) (hend : endMembers t = .ok () s') :
    ∃ x, s = x ++ s' ∧ IsTail .object first x := by
  induction bound generalizing first a s with
  | nil =>
    cases h
    exact isTail_of_mark (b := .object) first (of_endMembers hend)
  | cons y bound ih =>
    obtain ⟨found, u, hnext, hread⟩ := exists_of_bind h
    cases found with
    | none =>
      cases hread
      obtain ⟨-, hpeek⟩ | ⟨_, _, ⟨⟩, -⟩ := of_nextName hnext
      obtain ⟨w, rfl⟩ := exists_of_peek hpeek
      rw [endMembers_close] at hend
      cases hend
      exact isTail_of_mark (b := .object) first hpeek
    | some name =>
      obtain ⟨c, w, hc, hread⟩ := exists_of_bind hread
      obtain ⟨x, hcolon, hskip⟩ := hstep a name u c w hc
      obtain ⟨v, hx, hv⟩ := isValue_of_skipValue hskip
      exact isTail_of_nextName hnext hcolon hv hx (ih hread)

/-- A text that is read as far as skipping goes is the text of a value, with blanks behind it. -/
theorem isValue_of_readAll {r : Reader α} {text : List Char} {a : α}
    (hr : ∀ s s', r s = .ok a s' → ∃ t, s = t ++ s' ∧ IsValue t) (h : readAll r text = .ok a) :
    ∃ t w, text = t ++ w ∧ IsValue t ∧ IsBlank w := by
  obtain ⟨w, hread, hw⟩ := exists_blank_of_readAll h
  obtain ⟨t, ht, hvalue⟩ := hr text w hread
  exact ⟨t, w, ht, hvalue, hw⟩

end Readers

end JobGateway.Json
