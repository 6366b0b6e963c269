import JobGateway.Proofs.Json.Outline
import JobGateway.Proofs.Json.Slots

/-! Values along an outline. The value that is read from a text has the members and items of its
outline: the same names, in the same order, each with the value of its own text. -/
namespace JobGateway.Json

open Reader

variable {α σ : Type} {s s' t u rest : List Char} {us : List (List Char)}
  {m : List Char × List Char} {ms : List (List Char × List Char)} {v : Json} {name : String}

/-- The names of members in order. -/
def Names (ms : List (List Char × List Char)) (names : List String) : Prop :=
  List.Forall₂ (fun m name => Named name m) ms names

theorem Names.once {names : List String} (h : Names ms names) (hcount : names.count name ≤ 1) :
    Once name ms := by
  induction h with
  | nil => exact .nil
  | @cons m n ms names hn hnames ih =>
    refine .cons (fun m' hm' => ?_) (ih ((List.count_le_count_cons ..).trans hcount))
    rintro ⟨hname, hname'⟩
    obtain ⟨n', hn', hnamed⟩ := exists_of_mem_forall₂ hnames.flip m' hm'
    obtain rfl := hname.unique hn
    obtain rfl := hname'.unique hnamed
    rw [List.count_cons_self] at hcount
    have hpos := List.count_pos_iff.2 hn'
    omega

/-- The value that a reader of values makes of a text. -/
def Denotes (u : List Char) (v : Json) : Prop := ∃ d rest s', value d (u ++ rest) = .ok v s'

theorem value_congr {d : Nat} (h : peek s = peek t) : value d s = value d t := by
  cases d <;> exact bind_congr h _

theorem Denotes.of_value {d : Nat} (hsame : peek s = peek (u ++ rest))
    (h : value d s = .ok v s') : Denotes u v := ⟨d, rest, s', by rwa [value_congr hsame] at h⟩

theorem Reader.Ends.bind {β : Type} {r : Reader α} (hr : r.Ends) {f : α → Reader β}
    (hf : ∀ a s b s', f a s = .ok b s' → s' = s) : (r >>= f).Ends := by
  intro s b s' h
  obtain ⟨a, t, ha, hb⟩ := exists_of_bind h
  obtain rfl := hf a t b s' hb
  exact hr s a s' ha

theorem Reader.Ends.content {r : Reader α} (hr : r.Ends) : (do colon; r : Reader α).EndsContent := by
  intro s a s' h
  obtain ⟨_, t, hcolon, ha⟩ := exists_of_bind h
  exact ⟨t, hcolon, hr t a s' ha⟩

theorem value_ends (d : Nat) : (value d).Ends := (value_spans d).ends

/-- What is read of the members of an object, without those whose names are left out. -/
inductive Kept (out : String → Prop) : List (List Char × List Char) → List (String × Json) → Prop
  | nil : Kept out [] []
  | keep {name : String} {v : Json} {m : List Char × List Char} {ms : List (List Char × List Char)}
      {vs : List (String × Json)} (named : Named name m) (kept : ¬ out name) (value : Denotes m.2 v)
      (more : Kept out ms vs) : Kept out (m :: ms) ((name, v) :: vs)
  | leave {name : String} {m : List Char × List Char} {ms : List (List Char × List Char)}
      {vs : List (String × Json)} (named : Named name m) (left : out name) (more : Kept out ms vs) :
      Kept out (m :: ms) vs

section Kept

variable {out : String → Prop} {vs : List (String × Json)}

theorem Kept.once (h : Kept out ms vs) (hname : ¬ out name)
    (hcount : (vs.map (·.1)).count name ≤ 1) : Once name ms := by
  have hnames : ∃ names, Names ms names ∧ names.count name = (vs.map (·.1)).count name := by
    clear hcount
    induction h with
    | nil => exact ⟨[], .nil, rfl⟩
    | @keep n v m ms vs named _ _ _ ih =>
      obtain ⟨names, hnames, hcount⟩ := ih
      refine ⟨n :: names, .cons named hnames, ?_⟩
      rw [List.map_cons, List.count_cons, List.count_cons, hcount]
    | @leave n m ms vs named left _ ih =>
      obtain ⟨names, hnames, hcount⟩ := ih
      refine ⟨n :: names, .cons named hnames, ?_⟩
      rw [List.count_cons_of_ne (by rintro rfl; exact hname left), hcount]
  obtain ⟨names, hnames, hsame⟩ := hnames
  exact hnames.once (hsame.trans_le hcount)

theorem Kept.exists_value (h : Kept out ms vs) (hname : ¬ out name) (hm : m ∈ ms)
    (hnamed : Named name m) : ∃ v, (name, v) ∈ vs ∧ Denotes m.2 v := by
  induction h with
  | nil => exact absurd hm List.not_mem_nil
  | @keep n v m' ms vs named _ value _ ih =>
    obtain rfl | hm := List.mem_cons.1 hm
    · obtain rfl := hnamed.unique named
      exact ⟨v, List.mem_cons_self, value⟩
    · obtain ⟨w, hw, hdenotes⟩ := ih hm
      exact ⟨w, List.mem_cons_of_mem _ hw, hdenotes⟩
  | @leave n m' ms vs named left _ ih =>
    obtain rfl | hm := List.mem_cons.1 hm
    · obtain rfl := hnamed.unique named
      exact absurd left hname
    · exact ih hm

theorem Kept.exists_text (h : Kept out ms vs) (hv : (name, v) ∈ vs) :
    ∃ m ∈ ms, Named name m ∧ Denotes m.2 v := by
  induction h with
  | nil => exact absurd hv List.not_mem_nil
  | @keep n w m ms vs named _ value _ ih =>
    obtain heq | hv := List.mem_cons.1 hv
    · cases heq
      exact ⟨m, List.mem_cons_self, named, value⟩
    · obtain ⟨m', hm', h⟩ := ih hv
      exact ⟨m', List.mem_cons_of_mem m hm', h⟩
  | @leave n m ms vs _ _ _ ih =>
    obtain ⟨m', hm', h⟩ := ih hv
    exact ⟨m', List.mem_cons_of_mem m hm', h⟩

end Kept

theorem FollowsItems.values {d : Nat} {done vs : List Json}
    (h : FollowsItems (fun done => do return (← value d) :: done) done us vs) :
    ∃ ws, vs = ws.reverse ++ done ∧ List.Forall₂ Denotes us ws := by
  induction h with
  | done => exact ⟨[], rfl, .nil⟩
  | next same read _ ih =>
    obtain ⟨v, x, hv, hcons⟩ := exists_of_bind read
    cases hcons
    obtain ⟨ws, rfl, hws⟩ := ih
    exact ⟨v :: ws, by simp, .cons (.of_value same hv) hws⟩

theorem Follows.values {d : Nat} {done vs : List (String × Json)}
    (h : Follows (fun done name => do colon; return (name, ← value d) :: done) done ms vs) :
    ∃ ws, vs = ws.reverse ++ done ∧ Kept (fun _ => False) ms ws := by
  induction h with
  | done => exact ⟨[], rfl, .nil⟩
  | @next _ _ _ name m _ _ ms named content read _ ih =>
    obtain ⟨_, x, hcolon, hread⟩ := exists_of_bind read
    rw [content] at hcolon
    cases hcolon
    obtain ⟨v, y, hv, hcons⟩ := exists_of_bind hread
    cases hcons
    obtain ⟨ws, rfl, hws⟩ := ih
    exact ⟨(name, v) :: ws, by simp, .keep named not_false (.of_value rfl hv) hws⟩

/-- The text of an array denotes the array of what its items denote. -/
theorem IsArrayOf.denotes (h : IsArrayOf us t) (hv : Denotes t v) :
    ∃ vs, v = .array vs ∧ List.Forall₂ Denotes us vs := by
  obtain ⟨d, rest, s', hv⟩ := hv
  obtain ⟨c, y, hpeek, hcases⟩ := value_cases hv
  obtain ⟨rfl, -⟩ := h.of_peek rfl hpeek
  obtain ⟨⟨⟩, -⟩ | ⟨-, d, vs, w, -, rfl, hitems, hend⟩ | ⟨⟨⟩, -⟩ := hcases
  have hfollows := h.follows (fun _ => (value_ends d).bind fun _ _ _ _ => eq_of_pure) rfl hpeek
    hitems hend
  obtain ⟨ws, rfl, hws⟩ := hfollows.values
  exact ⟨ws, by simp, hws⟩

/-- The text of an object denotes the object of what its members denote. -/
theorem IsObjectOf.denotes (h : IsObjectOf ms t) (hv : Denotes t v) :
    ∃ vs, v = .object vs ∧ Kept (fun _ => False) ms vs := by
  obtain ⟨d, rest, s', hv⟩ := hv
  obtain ⟨c, y, hpeek, hcases⟩ := value_cases hv
  obtain ⟨rfl, -⟩ := h.of_peek rfl hpeek
  obtain ⟨⟨⟩, -⟩ | ⟨⟨⟩, -⟩ | ⟨-, d, vs, w, -, rfl, hmembers, hend⟩ := hcases
  have hfollows := h.follows
    (fun _ _ => ((value_ends d).bind fun _ _ _ _ => eq_of_pure).content) rfl hpeek hmembers hend
  obtain ⟨ws, rfl, hws⟩ := hfollows.values
  exact ⟨ws, by simp, hws⟩

section Parts

variable {index : Nat}

theorem exists_of_getElem?_forall₂ {α β : Type} {R : α → β → Prop} {as : List α} {bs : List β}
    (h : List.Forall₂ R as bs) {i : Nat} :
    (∀ a, as[i]? = some a → ∃ b, bs[i]? = some b ∧ R a b) ∧
    ∀ b, bs[i]? = some b → ∃ a, as[i]? = some a ∧ R a b := by
  induction h generalizing i with
  | nil => simp
  | cons hab _ ih =>
    cases i with
    | zero => simpa using hab
    | succ i => simpa using ih

/-- A part of a text denotes a part of what the text denotes. -/
theorem HasPart.exists_value (h : HasPart name index t u) (hv : Denotes t v) :
    ∃ w, Holds name index w v ∧ Denotes u w := by
  cases h with
  | member object h named =>
    obtain ⟨vs, rfl, hkept⟩ := object.denotes hv
    obtain ⟨w, hw, hdenotes⟩ := hkept.exists_value not_false h named
    exact ⟨w, .member hw, hdenotes⟩
  | item array h =>
    obtain ⟨vs, rfl, hall⟩ := array.denotes hv
    obtain ⟨w, hw, hdenotes⟩ := (exists_of_getElem?_forall₂ hall).1 u h
    exact ⟨w, .item hw, hdenotes⟩

/-- Every part of what a text denotes is denoted by a part of the text, if the text has parts at
all. -/
theorem HasPart.exists_text (h : HasPart name index t u) (hv : Denotes t v) {name' : String}
    {index' : Nat} {w : Json} (hw : Holds name' index' w v) :
    ∃ u', HasPart name' index' t u' ∧ Denotes u' w := by
  cases h with
  | member object _ _ =>
    obtain ⟨vs, rfl, hkept⟩ := object.denotes hv
    cases hw with
    | member hw =>
      obtain ⟨m, hm, hnamed, hdenotes⟩ := hkept.exists_text hw
      exact ⟨m.2, .member object hm hnamed, hdenotes⟩
  | item array _ =>
    obtain ⟨vs, rfl, hall⟩ := array.denotes hv
    cases hw with
    | item hw =>
      obtain ⟨u', hu', hdenotes⟩ := (exists_of_getElem?_forall₂ hall).2 w hw
      exact ⟨u', .item array hu', hdenotes⟩

theorem HasPart.isValue (h : HasPart name index t u) : IsValue u := by
  cases h with
  | member object h _ => exact object.values _ h
  | item array h => exact array.values u (List.mem_of_getElem? h)

theorem eq_of_opening_null {c : Char} (h : opening c s = .ok (.scalar .null) s') : c = 'n' := by
  unfold opening at h
  split at h
  · rfl
  · obtain ⟨_, _, -, h⟩ := exists_of_bind h
    obtain ⟨v, hv, hnull⟩ := exists_of_map h
    cases Reader.Yields.word (P := (· = .bool true)) rfl _ _ v _ hv
    cases hnull
  · obtain ⟨_, _, -, h⟩ := exists_of_bind h
    obtain ⟨v, hv, hnull⟩ := exists_of_map h
    cases Reader.Yields.word (P := (· = .bool false)) rfl _ _ v _ hv
    cases hnull
  · obtain ⟨_, _, -, h⟩ := exists_of_bind h
    obtain ⟨_, -, hnull⟩ := exists_of_map h
    cases hnull
  · obtain ⟨_, _, -, h⟩ := exists_of_bind h
    obtain ⟨_, -, hnull⟩ := exists_of_map h
    cases hnull
  · cases h
  · cases h
  · split at h
    · obtain ⟨_, -, hnull⟩ := exists_of_map h
      cases hnull
    · cases h

theorem peek_of_value_null {d : Nat} (h : value d s = .ok .null s') :
    ∃ x, peek s = .ok (some 'n') x := by
  have hfront : ∃ c x y, peek s = .ok (some c) x ∧ opening c x = .ok (.scalar .null) y := by
    cases d with
    | zero =>
      obtain ⟨c, x, hpeek, h⟩ := exists_of_bind h
      cases c with
      | none => cases h
      | some c =>
        obtain ⟨front, y, hopen, h⟩ := exists_of_bind h
        cases front with
        | scalar v =>
          cases h
          exact ⟨c, x, _, hpeek, hopen⟩
        | list | object => cases h
    | succ d =>
      obtain ⟨c, x, hpeek, h⟩ := exists_of_bind h
      cases c with
      | none => cases h
      | some c =>
        obtain ⟨front, y, hopen, h⟩ := exists_of_bind h
        cases front with
        | scalar v =>
          cases h
          exact ⟨c, x, _, hpeek, hopen⟩
        | list | object =>
          obtain ⟨_, _, -, h⟩ := exists_of_bind h
          obtain ⟨_, _, -, h⟩ := exists_of_bind h
          cases h
  obtain ⟨c, x, y, hpeek, hopen⟩ := hfront
  obtain rfl := eq_of_opening_null hopen
  exact ⟨x, hpeek⟩

/-- Only the text of null denotes null. -/
theorem Denotes.eq_null_iff (h : Denotes u v) (hu : IsValue u) : v = .null ↔ IsNull u := by
  obtain ⟨d, rest, s', h⟩ := h
  constructor
  · rintro rfl
    obtain ⟨x, hpeek⟩ := peek_of_value_null h
    have hfront : ∀ {b : List Char} {c : Char} {w : List Char}, IsBlank b → isSpace c = false →
        u = b ++ c :: w → c = 'n' := by
      rintro b c w hb hc rfl
      rw [List.append_assoc, List.cons_append, peek_blanks_cons hb hc] at hpeek
      cases hpeek
      rfl
    cases hu with
    | nullWord blank => exact ⟨_, blank, rfl⟩
    | trueWord blank | falseWord blank | negative blank _ | string blank _ =>
      exact absurd (hfront blank rfl rfl) (by decide)
    | number blank hnumber =>
      obtain ⟨c, w, rfl, hc⟩ := hnumber.exists_cons
      obtain rfl := hfront blank (skipOpening_digit hc).1 rfl
      cases hc
    | array h _ =>
      obtain ⟨blank, -⟩ := h
      exact absurd (hfront blank rfl rfl) (by decide)
    | object h _ =>
      obtain ⟨blank, -, -⟩ := h
      exact absurd (hfront blank rfl rfl) (by decide)
  · rintro ⟨b, hb, rfl⟩
    have hsame : peek (b ++ ['n', 'u', 'l', 'l'] ++ rest) = peek ('n' :: 'u' :: 'l' :: 'l' :: rest) := by
      rw [List.append_assoc, peek_blanks hb]
      rfl
    have hnull : value d ('n' :: 'u' :: 'l' :: 'l' :: rest) = .ok .null rest := by cases d <;> rfl
    rw [value_congr hsame, hnull] at h
    cases h
    rfl

end Parts

end JobGateway.Json
