import JobGateway.Proofs.Json.Skipping

/-! The front of a value. Reading checks more than skipping does: the size of a number and the halves
of a character in two escapes. What is read is therefore skipped, with the same text left. -/
namespace JobGateway.Json

open Reader

section Numbers

variable {negative raises seen : Bool} {significand : Nat} {start power : Int} {s s' : List Char}
  {n : Number}

theorem dropDigits_cons {c : Char} {d : Nat} (h : digit? c = some d) (s : List Char) :
    dropDigits (c :: s) = dropDigits s := by
  rw [dropDigits, List.dropWhile_cons_of_pos (by rw [h]; rfl), dropDigits]

theorem dropDigits_of_none {c : Char} (h : digit? c = none) (s : List Char) :
    dropDigits (c :: s) = c :: s := by
  rw [dropDigits, List.dropWhile_cons_of_neg (by rw [h]; simp)]

theorem startsWithDigit_cons {c : Char} {d : Nat} (h : digit? c = some d) (s : List Char) :
    startsWithDigit (c :: s) = true := by
  simp [startsWithDigit, h]

theorem eq_of_binary64 (h : binary64 negative significand power s = .ok n s') : s' = s := by
  rw [binary64] at h
  split at h <;> cases h
  rfl

theorem eq_of_exponentFrom {exponent : Nat}
    (h : exponentFrom negative raises significand start exponent s = .ok n s') :
    s' = dropDigits s := by
  induction s generalizing exponent with
  | nil => exact eq_of_binary64 h
  | cons c rest ih =>
    rw [exponentFrom] at h
    split at h
    · next hc =>
      rw [dropDigits_of_none hc]
      exact eq_of_binary64 h
    · next d hc =>
      rw [dropDigits_cons hc]
      split at h
      · exact ih h
      · split at h <;> cases h
        rfl

/-- The digits of an exponent, of which one must be there. -/
theorem skip_of_exponentFrom {c : Char} {d : Nat} {t rest : List Char} (ht : t = c :: rest)
    (hd : digit? c = some d)
    (h : exponentFrom negative raises significand start d rest = .ok n s') :
    (if startsWithDigit t then .ok () (dropDigits t) else failNext (.malformed .number) t) =
      (.ok () s' : EStateM.Result Fault (List Char) Unit) := by
  rw [ht, if_pos (startsWithDigit_cons hd _), dropDigits_cons hd, eq_of_exponentFrom h]

theorem skipExponent_of_exponent (h : exponent negative significand start s = .ok n s') :
    skipExponent s = .ok () s' := by
  unfold exponent at h
  unfold skipExponent
  dsimp only at h ⊢
  split at h
  · cases h
  · next c rest ht =>
    split at h
    · next d hd =>
      -- A sign is taken or not; then the digits follow.
      split at h
      · exact skip_of_exponentFrom ht hd h
      · exact skip_of_exponentFrom ht hd h
      · next hplus hminus =>
        split at ht
        · exact absurd rfl (hplus _)
        · exact absurd rfl (hminus _)
        · exact skip_of_exponentFrom ht hd h
    · cases h

theorem skipNumberEnd_of_fractionEnd (h : fractionEnd negative significand power s = .ok n s') :
    skipNumberEnd s = .ok () s' := by
  unfold fractionEnd at h
  unfold skipNumberEnd
  split at h
  · rw [eq_of_binary64 h]
  · split at h
    · next he => exact (if_pos he).trans (skipExponent_of_exponent h)
    · next he =>
      rw [eq_of_binary64 h]
      exact if_neg he

/-- The digits of a fraction, of which one must be there. -/
theorem skipNumberEnd_of_fractionFrom
    (h : fractionFrom negative seen significand power s = .ok n s') :
    (seen = true ∨ startsWithDigit s = true) ∧ skipNumberEnd (dropDigits s) = .ok () s' := by
  induction s generalizing seen significand power with
  | nil =>
    rw [fractionFrom] at h
    split at h
    · next hseen => exact ⟨.inl hseen, skipNumberEnd_of_fractionEnd h⟩
    · cases h
  | cons c rest ih =>
    rw [fractionFrom] at h
    split at h
    · next d hc =>
      rw [dropDigits_cons hc]
      refine ⟨.inr (startsWithDigit_cons hc rest), ?_⟩
      split at h
      · exact (ih h).2
      · exact skipNumberEnd_of_fractionEnd h
    · next hc =>
      rw [dropDigits_of_none hc]
      split at h
      · next hseen => exact ⟨.inl hseen, skipNumberEnd_of_fractionEnd h⟩
      · cases h

theorem skipFraction_point (h : fractionFrom negative false significand power s = .ok n s') :
    skipFraction ('.' :: s) = .ok () s' := by
  obtain ⟨hstart, hend⟩ := skipNumberEnd_of_fractionFrom h
  simp only [Bool.false_eq_true, false_or] at hstart
  rw [skipFraction, if_pos hstart, hend]

theorem skipFraction_of_ne {c : Char} (h : c ≠ '.') (s : List Char) :
    skipFraction (c :: s) = skipNumberEnd (c :: s) := by
  unfold skipFraction
  split
  · next heq =>
    cases heq
    exact absurd rfl h
  · rfl

theorem skipFraction_of_longWhole (h : longWhole negative significand power s = .ok n s') :
    skipFraction (dropDigits s) = .ok () s' := by
  induction s generalizing power with
  | nil =>
    rw [eq_of_binary64 h]
    rfl
  | cons c rest ih =>
    rw [longWhole] at h
    split at h
    · next d hc =>
      rw [dropDigits_cons hc]
      exact ih h
    · next hc =>
      rw [dropDigits_of_none hc]
      split at h
      · next hpoint =>
        subst hpoint
        exact skipFraction_point h
      · next hpoint =>
        rw [skipFraction_of_ne hpoint]
        exact skipNumberEnd_of_fractionEnd h

theorem skipFraction_of_wholeFrom (h : wholeFrom negative significand s = .ok n s') :
    skipFraction (dropDigits s) = .ok () s' := by
  induction s generalizing significand with
  | nil =>
    cases h
    rfl
  | cons c rest ih =>
    rw [wholeFrom] at h
    split at h
    · next d hc =>
      rw [dropDigits_cons hc]
      split at h
      · exact ih h
      · exact skipFraction_of_longWhole h
    · next hc =>
      rw [dropDigits_of_none hc]
      split at h
      · next hpoint =>
        subst hpoint
        exact skipFraction_point h
      · next hpoint =>
        rw [skipFraction_of_ne hpoint, skipNumberEnd]
        split at h
        · next he =>
          rw [if_pos he]
          exact skipExponent_of_exponent h
        · next he =>
          cases h
          rw [if_neg he]

/-- A number that is read is skipped. -/
theorem skipNumber_of_numberBody (h : numberBody negative s = .ok n s') :
    skipNumber s = .ok () s' := by
  unfold numberBody at h
  split at h
  · cases h
  · next c rest =>
    split at h
    · cases h
    · next hc =>
      split at h
      · cases h
      · next hstart =>
        rw [skipNumber_cons hc (by simp [hstart])]
        exact skipFraction_of_wholeFrom h
    · next d hd hc =>
      rw [skipNumber_cons hc fun h => hd h.1]
      exact skipFraction_of_wholeFrom h

theorem suffix_of_skipExponent (h : skipExponent s = .ok () s') : s' <:+ s := by
  have hdigits : ∀ t, (if startsWithDigit t then .ok () (dropDigits t)
      else failNext (.malformed .number) t) = (.ok () s' : EStateM.Result Fault (List Char) Unit) →
      s' <:+ t := by
    intro t ht
    split at ht <;> cases ht
    exact List.dropWhile_suffix _
  unfold skipExponent at h
  dsimp only at h
  split at h
  · exact (hdigits _ h).trans (List.suffix_cons _ _)
  · exact (hdigits _ h).trans (List.suffix_cons _ _)
  · exact hdigits _ h

theorem suffix_of_skipNumberEnd (h : skipNumberEnd s = .ok () s') : s' <:+ s := by
  unfold skipNumberEnd at h
  split at h
  · cases h
    exact List.suffix_rfl
  · split at h
    · exact (suffix_of_skipExponent h).trans (List.suffix_cons _ _)
    · cases h
      exact List.suffix_rfl

theorem suffix_of_skipFraction (h : skipFraction s = .ok () s') : s' <:+ s := by
  unfold skipFraction at h
  split at h
  · split at h
    · have hdrop := (suffix_of_skipNumberEnd h).trans (List.dropWhile_suffix _)
      exact hdrop.trans (List.suffix_cons _ _)
    · cases h
  · exact suffix_of_skipNumberEnd h

theorem length_lt_of_skipNumber (h : skipNumber s = .ok () s') : s'.length < s.length := by
  cases s with
  | nil => cases h
  | cons c rest =>
    cases hc : digit? c with
    | none => simp [skipNumber, hc, failNext] at h
    | some d =>
      by_cases hzero : d = 0 ∧ startsWithDigit rest = true
      · simp [skipNumber, hc, hzero, failNext] at h
      · rw [skipNumber_cons hc hzero] at h
        have hsuffix := (suffix_of_skipFraction h).trans (List.dropWhile_suffix _)
        exact Nat.lt_succ_of_le hsuffix.length_le

end Numbers

theorem hexFault_ne_ok {α : Type} {a : α} {s' : List Char} (s : List Char) :
    hexFault s ≠ .ok a s' := by
  unfold hexFault
  dsimp only
  split <;> exact fun h => nomatch h

/-- A string that is read is spelled by the text up to its closing quote. -/
theorem spells_of_stringFrom {done s s' : List Char} {t : String}
    (h : stringFrom done s = .ok t s') : ∃ cs u, SpellsString cs u ∧ s = u ++ s' := by
  fun_induction stringFrom done s with
  | case2 done rest =>
    cases h
    exact ⟨[], _, .nil, rfl⟩
  | case9 done a b c d n first ntrail leading e f g k more m second trailing hne ih =>
    obtain ⟨cs, u, hu, rfl⟩ := ih h
    exact ⟨_, _, .paired first leading second trailing hu, rfl⟩
  | case14 done a b c d more n digits trailing leading hne ih =>
    obtain ⟨cs, u, hu, rfl⟩ := ih h
    rw [Bool.not_eq_true] at trailing leading
    exact ⟨_, _, .numbered digits trailing leading hu, rfl⟩
  | case16 done e rest hu c escape hne ih =>
    obtain ⟨cs, u, hu, rfl⟩ := ih h
    exact ⟨_, _, .short escape hu, rfl⟩
  | case19 done c rest quote backslash control ih =>
    obtain ⟨cs, u, hu, rfl⟩ := ih h
    exact ⟨_, _, .plain quote backslash control hu, rfl⟩
  | case4 | case8 | case11 | case15 => exact absurd h (hexFault_ne_ok _)
  | _ => cases h

theorem word_of_word {α β : Type} {a a' : α} (b : β) {ws s s' : List Char}
    (h : word a ws s = .ok a' s') : word b ws s = .ok b s' ∧ s'.length ≤ s.length := by
  induction ws generalizing s with
  | nil =>
    cases h
    exact ⟨rfl, Nat.le_refl _⟩
  | cons w ws ih =>
    cases s with
    | nil => cases h
    | cons c rest =>
      rw [word] at h ⊢
      dsimp only at h ⊢
      split at h
      · next hc =>
        obtain ⟨hword, hlen⟩ := ih h
        rw [if_pos hc]
        exact ⟨hword, Nat.le_succ_of_le hlen⟩
      · cases h

/-- The front of a value is a value without brackets, which is skipped as well, or a bracket, which
is not taken yet. -/
theorem opening_cases {c : Char} {rest s' : List Char} {front : Opening}
    (h : opening c (c :: rest) = .ok front s') :
    (∃ v, front = .scalar v ∧ skipOpening c (c :: rest) = .ok none s' ∧
      s'.length ≤ rest.length) ∨
    (front = .list ∧ c = '[' ∧ s' = c :: rest) ∨
    (front = .object ∧ c = '\x7b' ∧ s' = c :: rest) := by
  unfold opening at h
  split at h
  iterate 3
    · obtain ⟨v, hv, rfl⟩ := exists_of_map h
      obtain ⟨hword, hlen⟩ := word_of_word (none : Option Bracket) hv
      exact .inl ⟨v, rfl, hword, hlen⟩
  · obtain ⟨n, hn, rfl⟩ := exists_of_map h
    have hskip := skipNumber_of_numberBody hn
    refine .inl ⟨_, rfl, ?_, (length_lt_of_skipNumber hskip).le⟩
    exact bind_ok hskip _
  · obtain ⟨t, ht, rfl⟩ := exists_of_map h
    obtain ⟨cs, u, hu, rfl⟩ := spells_of_stringFrom ht
    refine .inl ⟨_, rfl, bind_ok (skipString_of_spells hu s') _, ?_⟩
    simp
  · cases h
    exact .inr (.inl ⟨rfl, rfl, rfl⟩)
  · cases h
    exact .inr (.inr ⟨rfl, rfl, rfl⟩)
  · split at h
    · next hdigit =>
      obtain ⟨n, hn, rfl⟩ := exists_of_map h
      have hskip := skipNumber_of_numberBody hn
      refine .inl ⟨_, rfl, ?_, Nat.le_of_lt_succ (length_lt_of_skipNumber hskip)⟩
      unfold skipOpening
      split <;> try contradiction
      rw [if_pos hdigit]
      exact bind_ok hskip _
    · cases h

end JobGateway.Json
