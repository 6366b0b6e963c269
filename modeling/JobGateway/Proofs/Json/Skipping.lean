import JobGateway.Proofs.Json.Grammar
import JobGateway.Proofs.Json.Values
import Mathlib.Data.List.DropRight

/-! Skipped values. Skipping takes every text of a value, with numbers of any size, strings that have
no meaning, and any number of brackets inside one another. -/
namespace JobGateway.Json

open Reader

/-- Skipping goes on after the front of a value: inside the bracket that the front opened, or right
behind the value. -/
def skipMore (bound : List Char) (stack : List Bracket) : Option Bracket → Reader Unit
  | none => skipFrom bound false stack
  | some inner => skipFrom bound true (inner :: stack)

/-- Skipping has come to `rest`, behind an item or a member of the innermost open bracket. -/
def Skipped (stack : List Bracket) (rest : List Char)
    (outcome : EStateM.Result Fault (List Char) Unit) : Prop :=
  ∃ bound, rest.length ≤ bound.length ∧ outcome = skipFrom bound false stack rest

/-- Skipping takes a text as an item or member of a bracket, whatever follows. -/
def SkipsItem (b : Bracket) (t : List Char) : Prop :=
  ∀ rest bound stack, Stops rest → (t ++ rest).length ≤ bound.length + 1 →
    Skipped stack rest ((do skipName b; skipFront >>= skipMore bound stack) (t ++ rest))

/-- Skipping takes a text as what follows an item or member of a bracket, with its end, or as what
follows the mark that opened the bracket. -/
def SkipsMore (b : Bracket) (opened : Bool) (t : List Char) : Prop :=
  ∀ rest bound stack, (t ++ rest).length ≤ bound.length →
    Skipped stack rest (skipFrom bound opened (b :: stack) (t ++ rest))

/-- Skipping takes a text as a value: its front alone, or the bracket that its front opens. -/
inductive SkipsValue (t : List Char) : Prop
  | scalar (nonempty : t ≠ []) (h : ∀ rest, Stops rest → skipFront (t ++ rest) = .ok none rest)
  | bracket {b : Bracket} {u : List Char} (shorter : u.length < t.length)
      (h : ∀ rest, skipFront (t ++ rest) = .ok (some b) (u ++ rest)) (more : SkipsMore b true u)

theorem peek_idem {c : Char} {s u : List Char} (h : peek s = .ok (some c) u) :
    peek u = .ok (some c) u := by
  simp only [peek, EStateM.Result.ok.injEq] at h ⊢
  obtain ⟨hc, rfl⟩ := h
  rw [List.dropWhile_idempotent]
  exact ⟨hc, rfl⟩

theorem length_le_of_peek {c : Option Char} {s u : List Char} (h : peek s = .ok c u) :
    u.length ≤ s.length := by
  cases h
  exact (List.dropWhile_suffix _).length_le

/-- A bracket is closed. -/
theorem skipFrom_mark {b : Bracket} {s rest : List Char}
    (h : peek s = .ok (some b.mark) (b.mark :: rest)) (x : Char) (bound : List Char) (opened : Bool)
    (stack : List Bracket) :
    skipFrom (x :: bound) opened (b :: stack) s = skipFrom bound false stack rest := by
  rw [skipFrom, bind_ok h]
  simp only [if_true]
  rw [bind_ok (advance_cons _ _)]

/-- Behind the bracket that was opened just now, the first item or member is skipped. -/
theorem skipFrom_first {b : Bracket} {c : Char} {s u : List Char} (h : peek s = .ok (some c) u)
    (hc : c ≠ b.mark) (x : Char) (bound : List Char) (stack : List Bracket) :
    skipFrom (x :: bound) true (b :: stack) s =
      (do skipName b; skipFront >>= skipMore bound (b :: stack)) s := by
  have hpeek : peek u = peek s := by rw [h, peek_idem h]
  rw [skipFrom, bind_ok h]
  simp only [if_neg hc, true_or, if_true, not_true_eq_false, if_false]
  cases b with
  | list => exact bind_congr (bind_congr hpeek _) _
  | object => exact bind_congr (bind_congr hpeek _) _

/-- Behind a comma, the next item or member is skipped. -/
theorem skipFrom_comma (b : Bracket) (x : Char) (bound : List Char) (stack : List Bracket)
    (s : List Char) :
    skipFrom (x :: bound) false (b :: stack) (',' :: s) =
      (do skipName b; skipFront >>= skipMore bound (b :: stack)) s := by
  have hc : ',' ≠ b.mark := by cases b <;> decide
  rw [skipFrom, bind_ok (peek_cons rfl s)]
  simp only [if_neg hc, or_true, if_true, Bool.false_eq_true, not_false_eq_true]
  rw [bind_ok (advance_cons ',' s)]
  rfl

/-- The innermost bracket is closed. -/
theorem skipped_mark {b : Bracket} {s rest : List Char}
    (h : peek s = .ok (some b.mark) (b.mark :: rest)) {bound : List Char}
    (hlen : s.length ≤ bound.length) (opened : Bool) (stack : List Bracket) :
    Skipped stack rest (skipFrom bound opened (b :: stack) s) := by
  have hrest := length_le_of_peek h
  rw [List.length_cons] at hrest
  obtain ⟨x, bound, rfl⟩ := List.exists_cons_of_length_pos (by omega : 0 < bound.length)
  rw [List.length_cons] at hlen
  exact ⟨bound, by omega, skipFrom_mark h x bound opened stack⟩

theorem peek_blanks {b : List Char} (hb : IsBlank b) (s : List Char) : peek (b ++ s) = peek s := by
  induction b with
  | nil => rfl
  | cons c b ih =>
    obtain ⟨hc, hb⟩ := List.forall_mem_cons.1 hb
    rw [List.cons_append, peek_blank hc, ih hb]

theorem peek_blanks_cons {b : List Char} (hb : IsBlank b) {c : Char} (hc : isSpace c = false)
    (s : List Char) : peek (b ++ c :: s) = .ok (some c) (c :: s) := by
  rw [peek_blanks hb, peek_cons hc]

theorem skipFront_blanks {b : List Char} (hb : IsBlank b) {c : Char} (hc : isSpace c = false)
    (s : List Char) : skipFront (b ++ c :: s) = skipOpening c (c :: s) :=
  bind_ok (peek_blanks_cons hb hc s) _

section Scalars

variable {t rest : List Char}

theorem skipString_of_isStringBody (h : IsStringBody t) (rest : List Char) :
    skipString (t ++ rest) = .ok () rest := by
  induction h with
  | close =>
    rw [List.cons_append, skipString.eq_def]
    rfl
  | plain quote backslash control _ ih =>
    rw [List.cons_append, skipString.eq_def]
    simp only [if_neg quote, if_neg backslash, if_neg control]
    exact ih
  | short escape _ ih =>
    rw [List.cons_append, List.cons_append, skipString.eq_def]
    simp only [Char.reduceEq, if_false, if_true, if_neg (shortEscape?_ne escape), escape]
    exact ih
  | numbered digits _ ih =>
    simp only [List.cons_append]
    rw [skipString.eq_def]
    simp only [Char.reduceEq, if_false, if_true, digits]
    exact ih

theorem skipString_of_spells {s : List Char} (h : SpellsString s t) (rest : List Char) :
    skipString (t ++ rest) = .ok () rest := skipString_of_isStringBody h.isStringBody rest

theorem startsWithDigit_of_isDigits (h : IsDigits t) (rest : List Char) :
    startsWithDigit (t ++ rest) = true := by
  obtain ⟨c, ds, rfl⟩ := List.exists_cons_of_ne_nil h.1
  simpa [startsWithDigit] using h.2 c (by simp)

theorem dropDigits_append_of_all (h : ∀ c ∈ t, (digit? c).isSome = true)
    (hrest : startsWithDigit rest = false) : dropDigits (t ++ rest) = rest := by
  rw [dropDigits, List.dropWhile_append_of_pos h]
  cases rest with
  | nil => rfl
  | cons c rest =>
    refine List.dropWhile_cons_of_neg ?_
    simpa [startsWithDigit] using hrest

theorem ne_mark_of_isDigits (h : IsDigits t) {mark : Char} (hmark : digit? mark = none)
    (s : List Char) : t ++ rest ≠ mark :: s := by
  obtain ⟨c, ds, rfl⟩ := List.exists_cons_of_ne_nil h.1
  intro heq
  obtain ⟨rfl, -⟩ := List.cons_eq_cons.1 heq
  have hc := h.2 c (by simp)
  rw [hmark] at hc
  cases hc

theorem startsWithDigit_exponent (h : IsExponent t) (hrest : Stops rest) :
    startsWithDigit (t ++ rest) = false := by
  cases h with
  | none => exact hrest.startsWithDigit
  | bare letter _ | signed letter _ _ => obtain rfl | rfl := letter <;> rfl

theorem skipNumberEnd_of_isExponent (h : IsExponent t) (hrest : Stops rest) :
    skipNumberEnd (t ++ rest) = .ok () rest := by
  have hdigits : ∀ {ds : List Char}, IsDigits ds →
      (if startsWithDigit (ds ++ rest) then .ok () (dropDigits (ds ++ rest))
        else failNext (.malformed .number) (ds ++ rest)) =
        (.ok () rest : EStateM.Result Fault (List Char) Unit) := fun hds => by
    rw [if_pos (startsWithDigit_of_isDigits hds rest),
      dropDigits_append_of_all hds.2 hrest.startsWithDigit]
  cases h with
  | none =>
    cases rest with
    | nil => rfl
    | cons c rest =>
      obtain ⟨-, -, he, hE⟩ := stops_cons.1 hrest
      exact if_neg (by simp [he, hE])
  | @bare e ds letter hds =>
    refine (if_pos letter).trans ?_
    unfold skipExponent
    split
    · next heq => exact absurd heq (ne_mark_of_isDigits hds rfl _)
    · next heq => exact absurd heq (ne_mark_of_isDigits hds rfl _)
    · exact hdigits hds
  | @signed e sign ds letter mark hds =>
    refine (if_pos letter).trans ?_
    obtain rfl | rfl := mark
    · exact hdigits hds
    · exact hdigits hds

/-- Skip what may follow the whole part of a number. -/
def skipFraction : Reader Unit := fun s =>
  match s with
  | '.' :: rest =>
    if startsWithDigit rest then skipNumberEnd (dropDigits rest)
    else failNext (.malformed .number) rest
  | rest => skipNumberEnd rest

theorem skipNumber_cons {c : Char} {d : Nat} (hc : digit? c = some d) {s : List Char}
    (h : ¬ (d = 0 ∧ startsWithDigit s = true)) :
    skipNumber (c :: s) = skipFraction (dropDigits s) := by
  simp only [skipNumber, hc, if_neg h]
  rfl

theorem skipFraction_of_isFraction {f e : List Char} (hf : IsFraction f) (he : IsExponent e)
    (hrest : Stops rest) : skipFraction (f ++ (e ++ rest)) = .ok () rest := by
  have hend := skipNumberEnd_of_isExponent he hrest
  cases hf with
  | point hds =>
    rw [List.cons_append, skipFraction, if_pos (startsWithDigit_of_isDigits hds _),
      dropDigits_append_of_all hds.2 (startsWithDigit_exponent he hrest), hend]
  | none =>
    rw [List.nil_append]
    unfold skipFraction
    split
    · next heq =>
      cases he with
      | none =>
        rw [List.nil_append] at heq
        rw [heq] at hrest
        exact absurd rfl (stops_cons.1 hrest).2.1
      | bare letter _ | signed letter _ _ => obtain rfl | rfl := letter <;> cases heq
    · exact hend

theorem eq_of_digit?_zero {c : Char} (h : digit? c = some 0) : c = '0' := by
  unfold digit? at h
  split_ifs at h with hc
  have hle : '0'.toNat ≤ c.toNat := hc.1
  have hzero : '0'.toNat = 0x30 := rfl
  rw [Option.some.injEq] at h
  exact Char.toNat_inj.1 (by omega)

/-- The text of a number is skipped, whatever its size. -/
theorem skipNumber_of_isNumber (h : IsNumber t) (hrest : Stops rest) :
    skipNumber (t ++ rest) = .ok () rest := by
  obtain ⟨whole, fraction, exponent⟩ := h
  next w f e =>
  have hexponent := startsWithDigit_exponent exponent hrest
  -- What follows the whole part begins with no digit.
  have hfront : startsWithDigit (f ++ (e ++ rest)) = false := by
    cases fraction with
    | none => exact hexponent
    | point _ => rfl
  have hskip := skipFraction_of_isFraction fraction exponent hrest
  rw [List.append_assoc, List.append_assoc]
  cases whole with
  | zero =>
    have hdrop : dropDigits (f ++ (e ++ rest)) = f ++ (e ++ rest) :=
      dropDigits_append_of_all (t := []) (by simp) hfront
    rw [List.singleton_append, skipNumber_cons rfl (by simp [hfront]), hdrop, hskip]
  | @digits c ds nonzero hds =>
    obtain ⟨d, hd⟩ := Option.isSome_iff_exists.1 (hds.2 c (by simp))
    have hzero : d ≠ 0 := by
      rintro rfl
      exact nonzero (eq_of_digit?_zero hd)
    have hdrop : dropDigits (ds ++ (f ++ (e ++ rest))) = f ++ (e ++ rest) :=
      dropDigits_append_of_all (fun c hc => hds.2 c (List.mem_cons_of_mem _ hc)) hfront
    rw [List.cons_append, skipNumber_cons hd (fun h => hzero h.1), hdrop, hskip]

end Scalars

section Brackets

variable {b : Bracket} {t : List Char} {us : List (List Char)}

theorem skipFrom_blanks {s : List Char} (hs : IsBlank s) {bound : List Char} (hbound : bound ≠ [])
    (opened : Bool) (stack : List Bracket) (rest : List Char) :
    skipFrom bound opened (b :: stack) (s ++ rest) = skipFrom bound opened (b :: stack) rest := by
  obtain ⟨x, bound, rfl⟩ := List.exists_cons_of_ne_nil hbound
  rw [skipFrom]
  exact bind_congr (peek_blanks hs rest) _

theorem isSpace_mark (b : Bracket) : isSpace b.mark = false := by cases b <;> rfl

theorem skipsMore_mark {s : List Char} (hs : IsBlank s) (opened : Bool) :
    SkipsMore b opened (s ++ [b.mark]) := by
  intro rest bound stack hlen
  rw [List.append_assoc] at hlen ⊢
  exact skipped_mark (peek_blanks_cons hs (isSpace_mark b) rest) hlen opened stack

/-- No number goes on with what follows a part. -/
theorem Continues.stops (h : Continues b.mark us t) (rest : List Char) : Stops (t ++ rest) := by
  have hblank : ∀ {s : List Char} (c : Char) (more : List Char), IsBlank s → Stops (c :: more) →
      Stops (s ++ c :: more) := by
    intro s c more hs hc
    cases s with
    | nil => exact hc
    | cons d s => exact stops_of_isSpace (hs d (by simp)) _
  cases h with
  | done blank =>
    rw [List.append_assoc]
    refine hblank b.mark rest blank ?_
    rw [stops_cons]
    cases b <;> decide
  | next blank more =>
    rw [List.append_assoc, List.cons_append]
    exact hblank ',' _ blank (by rw [stops_cons]; decide)

/-- Parts that are skipped each are skipped behind one another, with their end. -/
theorem Continues.skipsMore (h : Continues b.mark us t) (hparts : ∀ u ∈ us, SkipsItem b u) :
    SkipsMore b false t := by
  induction h with
  | done blank => exact skipsMore_mark blank false
  | @next s u t us blank more ih =>
    obtain ⟨hu, hus⟩ := List.forall_mem_cons.1 hparts
    intro rest bound stack hlen
    rw [List.append_assoc, List.cons_append, List.append_assoc] at hlen ⊢
    simp only [List.length_append, List.length_cons] at hlen
    obtain ⟨x, bound, rfl⟩ := List.exists_cons_of_length_pos (by omega : 0 < bound.length)
    rw [skipFrom_blanks blank (List.cons_ne_nil _ _), skipFrom_comma]
    obtain ⟨bound', hlen', hpart⟩ := hu (t ++ rest) bound (b :: stack) (more.stops rest) (by
      simp only [List.length_append, List.length_cons] at hlen ⊢
      omega)
    rw [hpart]
    exact ih hus rest bound' stack hlen'

/-- A part begins with a character that does not close the bracket. -/
def Begins (b : Bracket) (t : List Char) : Prop :=
  ∃ s c u, IsBlank s ∧ isSpace c = false ∧ c ≠ b.mark ∧ t = s ++ c :: u

theorem Encloses.skipsMore (h : Encloses b.mark us t) (hparts : ∀ u ∈ us, SkipsItem b u)
    (hbegin : ∀ u ∈ us, Begins b u) : SkipsMore b true t := by
  cases h with
  | empty blank => exact skipsMore_mark blank true
  | @parts u t us more =>
    obtain ⟨hu, hus⟩ := List.forall_mem_cons.1 hparts
    obtain ⟨s, c, v, hs, hc, hmark, hbegin⟩ := hbegin u (by simp)
    intro rest bound stack hlen
    rw [List.append_assoc] at hlen ⊢
    have hpeek : peek (u ++ (t ++ rest)) = .ok (some c) (c :: (v ++ (t ++ rest))) := by
      rw [hbegin, List.append_assoc]
      exact peek_blanks_cons hs hc _
    simp only [List.length_append] at hlen
    have hpos : 0 < u.length := by rw [hbegin]; simp
    obtain ⟨x, bound, rfl⟩ := List.exists_cons_of_length_pos (by omega : 0 < bound.length)
    rw [skipFrom_first hpeek hmark]
    obtain ⟨bound', hlen', hpart⟩ := hu (t ++ rest) bound (b :: stack) (more.stops rest) (by
      simp only [List.length_append, List.length_cons] at hlen ⊢
      omega)
    rw [hpart]
    exact more.skipsMore hus rest bound' stack hlen'

end Brackets

theorem SkipsValue.skipsItem {t : List Char} (h : SkipsValue t) : SkipsItem .list t := by
  intro rest bound stack hrest hlen
  rw [List.length_append] at hlen
  cases h with
  | scalar nonempty h =>
    have hpos := List.length_pos_iff.2 nonempty
    exact ⟨bound, by omega, bind_ok (h rest hrest) _⟩
  | @bracket b u shorter h more =>
    obtain ⟨bound', hlen', hmore⟩ := more rest bound stack (by
      rw [List.length_append]
      omega)
    exact ⟨bound', hlen', (bind_ok (h rest) _).trans hmore⟩

theorem SkipsValue.takes {t : List Char} (h : SkipsValue t) : Takes skipValue t () := by
  intro rest hrest
  cases h with
  | scalar nonempty h =>
    rw [skipValue, bind_ok (h rest hrest)]
    rfl
  | @bracket b u shorter h more =>
    obtain ⟨bound, -, hmore⟩ := more rest (' ' :: (u ++ rest)) [] (by simp)
    rw [skipValue, bind_ok (h rest)]
    refine hmore.trans ?_
    cases bound <;> rfl

theorem IsMember.skipsItem {m : List Char × List Char} {t : List Char} (h : IsMember m t)
    (hvalue : SkipsItem .list m.2) : SkipsItem .object t := by
  obtain ⟨blank, name, blank'⟩ := h
  next s n s' u =>
  intro rest bound stack hrest hlen
  have hname : skipName .object (s ++ '"' :: (n ++ (s' ++ ':' :: u)) ++ rest) =
      .ok () (u ++ rest) := by
    simp only [List.append_assoc, List.cons_append]
    rw [skipName, bind_ok (peek_blanks_cons blank rfl _)]
    change (do advance; skipString; colon : Reader Unit) _ = _
    rw [bind_ok (advance_cons '"' _), bind_ok (skipString_of_isStringBody name _), colon,
      bind_ok (peek_blanks_cons blank' rfl _)]
    rfl
  rw [bind_ok hname]
  simp only [List.length_append, List.length_cons] at hlen
  have hvalue : SkipsItem .list u := hvalue
  have hskip := hvalue rest bound stack hrest (by
    rw [List.length_append]
    omega)
  rwa [skipName, pure_bind] at hskip

theorem IsMember.begins {m : List Char × List Char} {t : List Char} (h : IsMember m t) :
    Begins .object t := by
  obtain ⟨blank, -, -⟩ := h
  exact ⟨_, '"', _, blank, rfl, by decide, rfl⟩

theorem IsNumber.exists_cons {t : List Char} (h : IsNumber t) :
    ∃ c u, t = c :: u ∧ (digit? c).isSome = true := by
  obtain ⟨whole, -, -⟩ := h
  cases whole with
  | zero => exact ⟨'0', _, rfl, rfl⟩
  | @digits c ds _ hds => exact ⟨c, _, rfl, hds.2 c (by simp)⟩

theorem exists_eq_digitChar {c : Char} (hc : (digit? c).isSome = true) :
    ∃ d, d < 10 ∧ c = d.digitChar := by
  unfold digit? at hc
  split_ifs at hc with hrange
  · have hle : '0'.toNat ≤ c.toNat ∧ c.toNat ≤ '9'.toNat := hrange
    have hzero : '0'.toNat = 48 := rfl
    have hnine : '9'.toNat = 57 := rfl
    refine ⟨c.toNat - 48, by omega, Char.toNat_inj.1 ?_⟩
    rw [Nat.toNat_digitChar_of_lt_ten (by omega)]
    omega
  · cases hc

/-- What begins with a digit is skipped as a number. -/
theorem skipOpening_digit {c : Char} (hc : (digit? c).isSome = true) :
    isSpace c = false ∧ c ≠ ']' ∧ skipOpening c = (do skipNumber; pure none) := by
  obtain ⟨d, hd, rfl⟩ := exists_eq_digitChar hc
  interval_cases d <;> exact ⟨rfl, by decide, rfl⟩

theorem IsValue.begins {t : List Char} (h : IsValue t) : Begins .list t := by
  cases h with
  | nullWord blank | trueWord blank | falseWord blank | negative blank _ | string blank _ =>
    exact ⟨_, _, _, blank, rfl, by decide, rfl⟩
  | number blank h =>
    obtain ⟨c, u, rfl, hc⟩ := h.exists_cons
    obtain ⟨hspace, hmark, -⟩ := skipOpening_digit hc
    exact ⟨_, c, u, blank, hspace, hmark, rfl⟩
  | array h _ =>
    obtain ⟨blank, -⟩ := h
    exact ⟨_, '[', _, blank, rfl, by decide, rfl⟩
  | object h _ =>
    obtain ⟨blank, -, -⟩ := h
    exact ⟨_, '\x7b', _, blank, rfl, by decide, rfl⟩

theorem exists_of_mem_forall₂ {α β : Type} {R : α → β → Prop} {as : List α} {bs : List β}
    (h : List.Forall₂ R as bs) : ∀ b ∈ bs, ∃ a ∈ as, R a b := by
  induction h with
  | nil => simp
  | cons hab _ ih =>
    refine List.forall_mem_cons.2 ⟨⟨_, List.mem_cons_self, hab⟩, fun b hb => ?_⟩
    obtain ⟨a, ha, hr⟩ := ih b hb
    exact ⟨a, List.mem_cons_of_mem _ ha, hr⟩

theorem IsValue.skipsValue {t : List Char} (h : IsValue t) : SkipsValue t := by
  induction h with
  | nullWord blank | trueWord blank | falseWord blank =>
    refine .scalar (by simp) fun rest _ => ?_
    rw [List.append_assoc]
    exact skipFront_blanks blank rfl _
  | number blank h =>
    obtain ⟨c, u, rfl, hc⟩ := h.exists_cons
    obtain ⟨hspace, -, hskip⟩ := skipOpening_digit hc
    refine .scalar (by simp) fun rest hrest => ?_
    have hnumber := skipNumber_of_isNumber h hrest
    rw [List.cons_append] at hnumber
    rw [List.append_assoc, List.cons_append, skipFront_blanks blank hspace, hskip,
      bind_ok hnumber]
    rfl
  | negative blank h =>
    refine .scalar (by simp) fun rest hrest => ?_
    rw [List.append_assoc, List.cons_append, skipFront_blanks blank rfl]
    change (do advance; skipNumber; pure none : Reader (Option Bracket)) _ = _
    rw [bind_ok (advance_cons '-' _), bind_ok (skipNumber_of_isNumber h hrest)]
    rfl
  | string blank h =>
    refine .scalar (by simp) fun rest _ => ?_
    rw [List.append_assoc, List.cons_append, skipFront_blanks blank rfl]
    change (do advance; skipString; pure none : Reader (Option Bracket)) _ = _
    rw [bind_ok (advance_cons '"' _), bind_ok (skipString_of_isStringBody h rest)]
    rfl
  | @array us t h items ih =>
    obtain ⟨blank, parts⟩ := h
    next b t =>
    refine .bracket (b := .list) (u := t) (by simp [Nat.lt_add_left]) (fun rest => ?_) ?_
    · rw [List.append_assoc]
      exact skipFront_blanks blank rfl _
    · exact Encloses.skipsMore (b := .list) parts (fun u hu => (ih u hu).skipsItem)
        fun u hu => (items u hu).begins
  | @object ms t h values ih =>
    obtain ⟨blank, members, parts⟩ := h
    next b t us =>
    have hmembers := exists_of_mem_forall₂ members
    refine .bracket (b := .object) (u := t) (by simp [Nat.lt_add_left]) (fun rest => ?_) ?_
    · rw [List.append_assoc]
      exact skipFront_blanks blank rfl _
    · refine Encloses.skipsMore (b := .object) parts (fun u hu => ?_) fun u hu => ?_
      · obtain ⟨m, hm, hmember⟩ := hmembers u hu
        exact hmember.skipsItem (ih m hm).skipsItem
      · obtain ⟨m, -, hmember⟩ := hmembers u hu
        exact hmember.begins

/-- The text of a value is skipped. -/
theorem skipValue_of_isValue {t : List Char} (h : IsValue t) : Takes skipValue t () :=
  h.skipsValue.takes

/-- Every spelling of a value is skipped. -/
theorem skipValue_of_spells {v : Json} {t : List Char} (h : Spells (.value v) t) :
    Takes skipValue t () := skipValue_of_isValue h.isValue

end JobGateway.Json
