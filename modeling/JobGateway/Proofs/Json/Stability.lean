import JobGateway.Proofs.Json.Extent

/-! Skipping and what follows. A reader that stops before the end of its text has seen all that it
depends on, so more text behind changes nothing. Inside brackets it never gets by with less: an object
that is skipped is skipped in the same way with more text behind it, and no text that begins with one
bracket and is skipped as a whole is skipped when its end is missing. -/
namespace JobGateway.Json

open Reader

/-- A reader moves on in its text, and where it stops before the end, it stops there whatever more
follows. -/
structure Reader.Stable {α : Type} (r : Reader α) : Prop where
  suffix : ∀ {s a s'}, r s = .ok a s' → s' <:+ s
  append : ∀ {s a s'}, r s = .ok a s' → s' ≠ [] → ∀ more, r (s ++ more) = .ok a (s' ++ more)

theorem ne_nil_of_suffix {α : Type} {s s' : List α} (h : s' <:+ s) (hne : s' ≠ []) : s ≠ [] := by
  rintro rfl
  exact hne (List.suffix_nil.1 h)

namespace Reader.Stable

variable {α β : Type}

theorem pure (a : α) : Stable (Pure.pure a) where
  suffix h := by
    cases h
    exact List.suffix_rfl
  append h _ more := by
    cases h
    rfl

theorem bind {r : Reader α} {f : α → Reader β} (hr : r.Stable) (hf : ∀ a, (f a).Stable) :
    (r >>= f).Stable where
  suffix h := by
    obtain ⟨a, t, ha, hb⟩ := exists_of_bind h
    exact ((hf a).suffix hb).trans (hr.suffix ha)
  append h hne more := by
    obtain ⟨a, t, ha, hb⟩ := exists_of_bind h
    -- The second reader leaves something, so the first one did.
    have ht := ne_nil_of_suffix ((hf a).suffix hb) hne
    rw [bind_ok (hr.append ha ht more)]
    exact (hf a).append hb hne more

theorem map {r : Reader α} (hr : r.Stable) (f : α → β) : (f <$> r).Stable where
  suffix h := by
    obtain ⟨a, ha, rfl⟩ := exists_of_map h
    exact hr.suffix ha
  append h hne more := by
    obtain ⟨a, ha, rfl⟩ := exists_of_map h
    exact map_ok (hr.append ha hne more) f

theorem fail (cause : Cause) : Stable (Reader.fail cause : Reader α) where
  suffix h := by cases h
  append h := by cases h

theorem failNext (cause : Cause) : Stable (Reader.failNext cause : Reader α) where
  suffix h := by cases h
  append h := by cases h

theorem peek : Stable peek where
  suffix h := by
    cases h
    exact List.dropWhile_suffix _
  append {s a s'} h hne more := by
    cases h
    have hdrop : (s ++ more).dropWhile isSpace = s.dropWhile isSpace ++ more := by
      rw [List.dropWhile_append, if_neg (by simpa using hne)]
    rw [Json.peek, hdrop, List.head?_append_of_ne_nil _ hne]

theorem advance : Stable advance where
  suffix h := by
    cases h
    exact List.tail_suffix _
  append {s a s'} h hne more := by
    cases h
    cases s with
    | nil => exact absurd rfl hne
    | cons c rest => rfl

theorem word (a : α) (ws : List Char) : Stable (word a ws) := by
  induction ws with
  | nil => exact .pure a
  | cons w ws ih =>
    constructor
    · intro s a' s' h
      cases s with
      | nil => cases h
      | cons c rest =>
        rw [Json.word] at h
        dsimp only at h
        split_ifs at h
        · exact (ih.suffix h).trans (List.suffix_cons _ _)
        · cases h
    · intro s a' s' h hne more
      cases s with
      | nil => cases h
      | cons c rest =>
        rw [List.cons_append, Json.word]
        rw [Json.word] at h
        dsimp only at h ⊢
        split_ifs at h ⊢
        · exact ih.append h hne more
        · cases h

end Reader.Stable

section Numbers

variable {s s' : List Char}

theorem dropDigits_append (h : dropDigits s ≠ []) (more : List Char) :
    dropDigits (s ++ more) = dropDigits s ++ more := by
  rw [dropDigits, List.dropWhile_append, if_neg, dropDigits]
  rwa [List.isEmpty_iff]

theorem startsWithDigit_append (h : s ≠ []) (more : List Char) :
    startsWithDigit (s ++ more) = startsWithDigit s := by
  rw [startsWithDigit, List.head?_append_of_ne_nil _ h, startsWithDigit]

/-- The digits of an exponent, behind its sign. -/
theorem skipDigits_append
    (h : (if startsWithDigit s then .ok () (dropDigits s) else failNext (.malformed .number) s) =
      (.ok () s' : EStateM.Result Fault (List Char) Unit)) (hne : s' ≠ []) (more : List Char) :
    (if startsWithDigit (s ++ more) then .ok () (dropDigits (s ++ more))
      else failNext (.malformed .number) (s ++ more)) =
      (.ok () (s' ++ more) : EStateM.Result Fault (List Char) Unit) := by
  split_ifs at h with hdigit
  · cases h
    have hs := ne_nil_of_suffix (List.dropWhile_suffix _) hne
    rw [startsWithDigit_append hs, if_pos hdigit, dropDigits_append hne]
  · cases h

theorem skipExponent_append (h : skipExponent s = .ok () s') (hne : s' ≠ []) (more : List Char) :
    skipExponent (s ++ more) = .ok () (s' ++ more) := by
  have hs := ne_nil_of_suffix (suffix_of_skipExponent h) hne
  obtain ⟨c, rest, rfl⟩ := List.exists_cons_of_ne_nil hs
  unfold skipExponent at h ⊢
  dsimp only at h ⊢
  split at h
  · next heq =>
    cases heq
    exact skipDigits_append h hne more
  · next heq =>
    cases heq
    exact skipDigits_append h hne more
  · next hplus hminus =>
    split
    · next heq =>
      cases heq
      exact absurd rfl (hplus _)
    · next heq =>
      cases heq
      exact absurd rfl (hminus _)
    · exact skipDigits_append h hne more

theorem skipNumberEnd_append (h : skipNumberEnd s = .ok () s') (hne : s' ≠ [])
    (more : List Char) : skipNumberEnd (s ++ more) = .ok () (s' ++ more) := by
  have hs := ne_nil_of_suffix (suffix_of_skipNumberEnd h) hne
  obtain ⟨c, rest, rfl⟩ := List.exists_cons_of_ne_nil hs
  rw [skipNumberEnd] at h
  rw [List.cons_append, skipNumberEnd]
  split_ifs at h ⊢
  · exact skipExponent_append h hne more
  · cases h
    rfl

theorem skipFraction_append (h : skipFraction s = .ok () s') (hne : s' ≠ []) (more : List Char) :
    skipFraction (s ++ more) = .ok () (s' ++ more) := by
  have hs := ne_nil_of_suffix (suffix_of_skipFraction h) hne
  obtain ⟨c, rest, rfl⟩ := List.exists_cons_of_ne_nil hs
  rw [List.cons_append]
  by_cases hc : c = '.'
  · subst hc
    rw [skipFraction] at h ⊢
    split_ifs at h with hdigit
    · have hdrop := ne_nil_of_suffix (suffix_of_skipNumberEnd h) hne
      have hrest := ne_nil_of_suffix (List.dropWhile_suffix _) hdrop
      rw [startsWithDigit_append hrest, if_pos hdigit, dropDigits_append hdrop]
      exact skipNumberEnd_append h hne more
    · cases h
  · rw [skipFraction_of_ne hc] at h ⊢
    exact skipNumberEnd_append h hne more

/-- A number that is skipped begins with a digit, and not with a zero before another one. -/
theorem of_skipNumber (h : skipNumber s = .ok () s') :
    ∃ c d rest, s = c :: rest ∧ digit? c = some d ∧ ¬ (d = 0 ∧ startsWithDigit rest = true) ∧
      skipFraction (dropDigits rest) = .ok () s' := by
  cases s with
  | nil => cases h
  | cons c rest =>
    cases hc : digit? c with
    | none => simp [skipNumber, hc, failNext] at h
    | some d =>
      by_cases hzero : d = 0 ∧ startsWithDigit rest = true
      · simp [skipNumber, hc, hzero, failNext] at h
      · rw [skipNumber_cons hc hzero] at h
        exact ⟨c, d, rest, rfl, hc, hzero, h⟩

theorem skipNumber_stable : skipNumber.Stable where
  suffix h := by
    obtain ⟨c, d, rest, rfl, -, -, hfraction⟩ := of_skipNumber h
    have hdrop := (suffix_of_skipFraction hfraction).trans (List.dropWhile_suffix _)
    exact hdrop.trans (List.suffix_cons _ _)
  append h hne more := by
    obtain ⟨c, d, rest, rfl, hc, hzero, hfraction⟩ := of_skipNumber h
    have hdrop := ne_nil_of_suffix (suffix_of_skipFraction hfraction) hne
    have hrest := ne_nil_of_suffix (List.dropWhile_suffix _) hdrop
    rw [List.cons_append, skipNumber_cons hc (by rwa [startsWithDigit_append hrest]),
      dropDigits_append hdrop]
    exact skipFraction_append hfraction hne more

end Numbers

/-- What is skipped as a string is one, up to its closing quote. -/
theorem isStringBody_of_skipString {s s' : List Char} (h : skipString s = .ok () s') :
    ∃ t, s = t ++ s' ∧ IsStringBody t := by
  fun_induction skipString s with
  | case2 rest =>
    cases h
    exact ⟨['"'], rfl, .close⟩
  | case5 a b c d tail n digits hne ih =>
    obtain ⟨t, rfl, ht⟩ := ih h
    exact ⟨'\\' :: 'u' :: a :: b :: c :: d :: t, rfl, .numbered digits ht⟩
  | case7 e rest hu c escape hne ih =>
    obtain ⟨t, rfl, ht⟩ := ih h
    exact ⟨'\\' :: e :: t, rfl, .short escape ht⟩
  | case10 c rest quote backslash control ih =>
    obtain ⟨t, rfl, ht⟩ := ih h
    exact ⟨c :: t, rfl, .plain quote backslash control ht⟩
  | case4 | case6 => exact absurd h (hexFault_ne_ok _)
  | _ => cases h

theorem skipString_stable : Reader.Stable skipString where
  suffix h := by
    obtain ⟨t, rfl, -⟩ := isStringBody_of_skipString h
    exact List.suffix_append _ _
  append h _ more := by
    obtain ⟨t, rfl, ht⟩ := isStringBody_of_skipString h
    rw [List.append_assoc, skipString_of_isStringBody ht]

theorem colon_stable : colon.Stable := by
  refine .bind .peek fun c => ?_
  split
  · exact .fail _
  · exact .advance
  · exact .failNext _

theorem skipName_stable (b : Bracket) : (skipName b).Stable := by
  cases b with
  | list => exact .pure ()
  | object =>
    refine .bind .peek fun c => ?_
    split
    · exact .fail _
    · exact .bind .advance fun _ => .bind skipString_stable fun _ => colon_stable
    · exact .failNext _

theorem skipOpening_stable (c : Char) : (skipOpening c).Stable := by
  unfold skipOpening
  split
  iterate 3
    · exact .bind .advance fun _ => .word _ _
  · exact .bind .advance fun _ => .bind skipNumber_stable fun _ => .pure _
  · exact .bind .advance fun _ => .bind skipString_stable fun _ => .pure _
  iterate 2
    · exact .bind .advance fun _ => .pure _
  · split_ifs
    · exact .bind skipNumber_stable fun _ => .pure _
    · exact .failNext _

theorem skipFront_stable : skipFront.Stable := by
  refine .bind .peek fun c => ?_
  split
  · exact .fail _
  · exact skipOpening_stable _

/-- What skipping does up to the next front inside an open bracket: it takes the mark that closes the
bracket, or a comma, a name and a front. -/
def skipRound (b : Bracket) (opened : Bool) : Reader (Option (Option Bracket)) := do
  match ← peek with
  | none => fail b.unfinished
  | some c =>
    if c = b.mark then do advance; pure none
    else if opened ∨ c = ',' then
      if ¬ opened then advance
      skipName b
      some <$> skipFront
    else failNext b.unclosed

theorem skipRound_stable (b : Bracket) (opened : Bool) : (skipRound b opened).Stable := by
  have hfront : (do skipName b; some <$> skipFront : Reader (Option (Option Bracket))).Stable :=
    .bind (skipName_stable b) fun _ => skipFront_stable.map some
  refine .bind .peek fun c => ?_
  split
  · exact .fail _
  · split_ifs
    · exact .bind .advance fun _ => .pure none
    · exact hfront
    · exact .bind .advance fun _ => hfront
    · exact .failNext _

/-- Skipping inside a bracket, round by round. -/
theorem skipFrom_cons (x : Char) (bound : List Char) (opened : Bool) (b : Bracket)
    (stack : List Bracket) :
    skipFrom (x :: bound) opened (b :: stack) = (do
      match ← skipRound b opened with
      | none => skipFrom bound false stack
      | some front => skipMore bound (b :: stack) front) := by
  rw [skipFrom, skipRound, bind_assoc]
  refine congrArg (peek >>= ·) (funext fun c => ?_)
  cases c with
  | none => rfl
  | some c =>
    dsimp only
    split_ifs
    · rfl
    · rw [bind_assoc]
      simp only [bind_map_left]
      rfl
    · simp only [bind_assoc, bind_map_left]
      rfl
    · rfl

section Lengths

variable {b : Bracket} {opened : Bool} {s s' t : List Char}

theorem length_of_skipOpening {c : Char} {o : Option Bracket}
    (h : skipOpening c (c :: t) = .ok o s') : s'.length ≤ t.length := by
  unfold skipOpening at h
  split at h
  iterate 3
    · obtain ⟨_, u, ⟨⟩, h⟩ := exists_of_bind h
      exact ((Stable.word _ _).suffix h).length_le
  · obtain ⟨_, u, ⟨⟩, h⟩ := exists_of_bind h
    obtain ⟨_, v, hskip, ⟨⟩⟩ := exists_of_bind h
    exact (skipNumber_stable.suffix hskip).length_le
  · obtain ⟨_, u, ⟨⟩, h⟩ := exists_of_bind h
    obtain ⟨_, v, hskip, ⟨⟩⟩ := exists_of_bind h
    exact (skipString_stable.suffix hskip).length_le
  iterate 2
    · obtain ⟨_, u, ⟨⟩, ⟨⟩⟩ := exists_of_bind h
      exact Nat.le_refl _
  · split_ifs at h
    · obtain ⟨_, v, hskip, ⟨⟩⟩ := exists_of_bind h
      exact Nat.le_of_lt_succ (length_lt_of_skipNumber hskip)
    · cases h

/-- The front of a value takes at least one character. -/
theorem length_of_skipFront {o : Option Bracket} (h : skipFront s = .ok o s') :
    s'.length < s.length := by
  obtain ⟨c, u, hpeek, h⟩ := exists_of_bind h
  cases c with
  | none => cases h
  | some c =>
    obtain ⟨t, rfl⟩ := exists_of_peek hpeek
    have hle := length_le_of_peek hpeek
    have hopening := length_of_skipOpening h
    rw [List.length_cons] at hle
    omega

theorem length_of_skipRound {o : Option (Option Bracket)} (h : skipRound b opened s = .ok o s') :
    s'.length < s.length := by
  have hfront : ∀ u, (do skipName b; some <$> skipFront) u = .ok o s' → s'.length < u.length := by
    intro u hu
    obtain ⟨_, v, hname, hv⟩ := exists_of_bind hu
    obtain ⟨_, hv, -⟩ := exists_of_map hv
    exact (length_of_skipFront hv).trans_le ((skipName_stable b).suffix hname).length_le
  obtain ⟨c, u, hpeek, h⟩ := exists_of_bind h
  cases c with
  | none => cases h
  | some c =>
    obtain ⟨t, rfl⟩ := exists_of_peek hpeek
    have hle := length_le_of_peek hpeek
    rw [List.length_cons] at hle
    dsimp only at h
    split_ifs at h
    · cases h
      exact hle
    · have hlt := hfront _ h
      rw [List.length_cons] at hlt
      omega
    · obtain ⟨_, v, ⟨⟩, h⟩ := exists_of_bind h
      have hlt := hfront _ h
      rw [List.tail_cons] at hlt
      omega
    · cases h

/-- A round that opens no front has come to the mark. -/
theorem of_skipRound_none (h : skipRound b opened s = .ok none t) :
    peek s = .ok (some b.mark) (b.mark :: t) := by
  have hfront : ∀ u, (do skipName b; some <$> skipFront) u ≠ .ok none t := by
    intro u hu
    obtain ⟨_, v, -, hv⟩ := exists_of_bind hu
    obtain ⟨_, -, hsome⟩ := exists_of_map hv
    cases hsome
  obtain ⟨c, u, hpeek, h⟩ := exists_of_bind h
  cases c with
  | none => cases h
  | some c =>
    obtain ⟨v, rfl⟩ := exists_of_peek hpeek
    dsimp only at h
    split_ifs at h with hmark
    · subst hmark
      cases h
      exact hpeek
    · exact absurd h (hfront _)
    · obtain ⟨_, w, -, h⟩ := exists_of_bind h
      exact absurd h (hfront _)
    · cases h

end Lengths

theorem skipFrom_nil (bound : List Char) (opened : Bool) (s : List Char) :
    skipFrom bound opened [] s = .ok () s := by
  cases bound <;> rfl

theorem ne_nil_of_skipFrom {bound : List Char} {opened : Bool} {b : Bracket}
    {stack : List Bracket} {s s' : List Char} (h : skipFrom bound opened (b :: stack) s = .ok () s')
    (hlen : s.length < bound.length) : s ≠ [] := by
  rintro rfl
  obtain ⟨x, bound, rfl⟩ := List.exists_cons_of_length_pos hlen
  cases h

/-- Skipping to the end of the open brackets is the same with more text behind them. The bounds differ,
but neither is used up. -/
theorem skipFrom_append {bound bound' : List Char} {opened : Bool} {b : Bracket}
    {stack : List Bracket} {s s' : List Char} (h : skipFrom bound opened (b :: stack) s = .ok () s')
    (hlen : s.length < bound.length) (more : List Char)
    (hlen' : (s ++ more).length ≤ bound'.length) :
    skipFrom bound' opened (b :: stack) (s ++ more) = .ok () (s' ++ more) := by
  induction bound generalizing bound' opened b stack s with
  | nil => exact absurd hlen (Nat.not_lt_zero _)
  | cons x bound ih =>
    rw [List.length_cons] at hlen
    rw [skipFrom_cons] at h
    obtain ⟨o, t, hround, h⟩ := exists_of_bind h
    have hlt := length_of_skipRound hround
    rw [List.length_append] at hlen'
    obtain ⟨y, bound', rfl⟩ := List.exists_cons_of_length_pos (by omega : 0 < bound'.length)
    rw [List.length_cons] at hlen'
    have hbound : t.length < bound.length := by omega
    have hbound' : (t ++ more).length ≤ bound'.length := by
      rw [List.length_append]
      omega
    cases o with
    | none =>
      have hpeek := of_skipRound_none hround
      rw [skipFrom_mark (Stable.peek.append hpeek (List.cons_ne_nil _ _) more)]
      cases stack with
      | nil =>
        dsimp only at h
        rw [skipFrom_nil] at h ⊢
        cases h
        rfl
      | cons b stack => exact ih h hbound hbound'
    | some front =>
      have hne : t ≠ [] := by cases front <;> exact ne_nil_of_skipFrom h hbound
      rw [skipFrom_cons, bind_ok ((skipRound_stable b opened).append hround hne more)]
      cases front with
      | none => exact ih h hbound hbound'
      | some inner => exact ih h hbound hbound'

section Brackets

variable {c : Char} {b : Bracket} {s s' : List Char}

/-- A value in brackets that is skipped is skipped in the same way whatever more follows. -/
theorem skipValue_append (hopen : ∀ s, skipFront (c :: s) = .ok (some b) s)
    (h : skipValue (c :: s) = .ok () s') (more : List Char) :
    skipValue (c :: s ++ more) = .ok () (s' ++ more) := by
  rw [skipValue, bind_ok (hopen s)] at h
  rw [skipValue, List.cons_append, bind_ok (hopen (s ++ more))]
  exact skipFrom_append h (Nat.lt_succ_self _) more (Nat.le_succ _)

/-- No value in brackets begins another one. -/
theorem eq_nil_of_skipValue (hopen : ∀ s, skipFront (c :: s) = .ok (some b) s)
    (h : skipValue (c :: s) = .ok () s') {more : List Char}
    (hwhole : skipValue (c :: s ++ more) = .ok () []) : more = [] := by
  rw [skipValue_append hopen h] at hwhole
  injection hwhole with _ hnil
  exact (List.append_eq_nil_iff.1 hnil).2

end Brackets

end JobGateway.Json
