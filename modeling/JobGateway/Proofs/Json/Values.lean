import JobGateway.Proofs.Json.Reading
import Mathlib.Data.List.TakeWhile
import Mathlib.Tactic.IntervalCases

/-! Whole values. Every spelling of a value is read as the value, if its numbers are finite and there
are not too many brackets inside one another. So the compact text of a value gives back the value. -/
namespace JobGateway.Json

open Reader

theorem opening_digitChar {d : Nat} (h : d < 10) :
    opening d.digitChar = (fun n => .scalar (.number n)) <$> numberBody false := by
  interval_cases d <;> rfl

theorem opening_minus :
    opening '-' = advance >>= fun _ => (fun n => .scalar (.number n)) <$> numberBody true := rfl

theorem opening_quote :
    opening '"' = advance >>= fun _ => (fun s => .scalar (.string s)) <$> stringBody := rfl

/-- Whether a value has no brackets. -/
def IsScalar : Json → Prop
  | .array _ => False
  | .object _ => False
  | _ => True

theorem IsScalar.readable {d : Nat} {v : Json} (h : IsScalar v) (hv : Readable d v) :
    Readable 0 v := by
  cases v with
  | number n => exact (readable_number 0 n).2 ((readable_number d n).1 hv)
  | array | object => exact absurd h (by simp [IsScalar])
  | _ => trivial

/-- A value without brackets is taken as a whole at its front. -/
theorem opening_of_spells {v : Json} {c : Char} {u : List Char} (h : Spells (.value v) (c :: u))
    (hc : isSpace c = false) (hv : Readable 0 v) {rest : List Char} (hrest : Stops rest) :
    opening c (c :: (u ++ rest)) = .ok (.scalar v) rest := by
  generalize ht : c :: u = t at h
  cases h with
  | blank hspace _ =>
    cases ht
    rw [hc] at hspace
    cases hspace
  | nullWord | trueWord | falseWord =>
    cases ht
    rfl
  | whole n =>
    obtain ⟨d, w, hd, hw, -⟩ := toDigits_eq_cons n
    have hread := numberBody_toDigits ((readable_number 0 _).1 hv) hrest
    rw [hw] at ht hread
    cases ht
    rw [opening_digitChar hd]
    exact map_ok hread _
  | negative n =>
    cases ht
    have hread := numberBody_toDigits ((readable_number 0 _).1 hv) hrest
    rw [opening_minus, bind_ok (advance_cons '-' _), map_ok hread]
  | string body =>
    cases ht
    rw [opening_quote, bind_ok (advance_cons '"' _), map_ok (stringBody_of_spells body rest)]
  | emptyArray | array | emptyObject | object => exact absurd hv (by simp [Readable])

theorem enter_bracket {α : Type} (depth : Nat) (inside : Nat → Reader α) (c : Char)
    (s : List Char) : enter (depth + 1) inside (c :: s) = inside depth s := rfl

theorem Spells.eq_of_array {vs : List Json} {c : Char} {u : List Char}
    (h : Spells (.value (.array vs)) (c :: u)) (hc : isSpace c = false) : c = '[' := by
  cases h with
  | blank hspace => rw [hc] at hspace; cases hspace
  | emptyArray | array => rfl

theorem Spells.eq_of_object {ms : List (String × Json)} {c : Char} {u : List Char}
    (h : Spells (.value (.object ms)) (c :: u)) (hc : isSpace c = false) : c = '\x7b' := by
  cases h with
  | blank hspace => rw [hc] at hspace; cases hspace
  | emptyObject | object => rfl

/-- A reader of members that takes the colon first takes the content of a member. -/
theorem takes_content {σ : Type} {v : Json} {t : List Char} (h : Spells (.content v) t)
    {r : Reader σ} {b : σ} (hr : ∀ u, Spells (.value v) u → Takes r u b) :
    Takes (do colon; r) t b := by
  intro rest hrest
  obtain ⟨u, hu, hcolon⟩ := colon_of_spells h
  rw [bind_ok (hcolon rest)]
  exact hr u hu rest hrest

/-- Values are collected with the last one first. -/
theorem foldlM_cons_eq {α : Type} (vs done : List α) :
    vs.foldlM (fun a v => (.ok (v :: a) : Except Mismatch (List α))) done =
      .ok (vs.reverse ++ done) := by
  induction vs generalizing done with
  | nil => rfl
  | cons v vs ih =>
    rw [List.foldlM_cons]
    refine (ih (v :: done)).trans ?_
    rw [List.reverse_cons, List.append_assoc, List.singleton_append]

/-- Every spelling of a value is read as the value. -/
theorem value_of_spells {d : Nat} {v : Json} {t : List Char} (h : Spells (.value v) t)
    (hv : Readable d v) : Takes (value d) t v := by
  induction d generalizing v t with
  | zero =>
    intro rest hrest
    obtain ⟨c, u, hc, hu, hpeek⟩ := h.front
    rw [value, bind_ok (hpeek rest)]
    dsimp only
    rw [bind_ok (opening_of_spells hu hc hv hrest)]
    rfl
  | succ d ih =>
    intro rest hrest
    obtain ⟨c, u, hc, hu, hpeek⟩ := h.front
    rw [value, bind_ok (hpeek rest)]
    dsimp only
    by_cases hscalar : IsScalar v
    · rw [bind_ok (opening_of_spells hu hc (hscalar.readable hv) hrest)]
      rfl
    cases v with
    | array vs =>
      obtain rfl := hu.eq_of_array hc
      have hitems : items (fun done => do return (← value d) :: done) [] (u ++ rest) =
          .ok vs.reverse (']' :: rest) := by
        refine items_of_spells ?_ hu (foldlM_cons_eq vs [] |>.trans (by rw [List.append_nil])) rest
        intro v hmem a b t ht hab rest hrest
        cases hab
        rw [bind_ok (ih ht (hv v hmem) rest hrest)]
        rfl
      rw [bind_ok (rfl : opening '[' _ = .ok .list _)]
      dsimp only
      rw [bind_ok (advance_cons '[' _), bind_ok (closing_ok hitems (endItems_close rest)),
        List.reverse_reverse]
      rfl
    | object ms =>
      obtain rfl := hu.eq_of_object hc
      have hmembers : members (fun done name => do colon; return (name, ← value d) :: done) []
          (u ++ rest) = .ok ms.reverse ('\x7d' :: rest) := by
        refine members_of_spells ?_ hu (foldlM_cons_eq ms [] |>.trans (by rw [List.append_nil])) rest
        intro m hmem a b t ht hab
        cases hab
        refine takes_content ht fun u hu rest hrest => ?_
        rw [bind_ok (ih hu (hv m hmem) rest hrest)]
        rfl
      rw [bind_ok (rfl : opening '\x7b' _ = .ok .object _)]
      dsimp only
      rw [bind_ok (advance_cons '\x7b' _), bind_ok (closing_ok hmembers (endMembers_close rest)),
        List.reverse_reverse]
      rfl
    | _ => exact absurd trivial hscalar

/-- A whole text that a reader takes is read, also with blanks at its end. -/
theorem readAll_of_takes {α : Type} {r : Reader α} {t : List Char} {a : α} (h : Takes r t a)
    {b : List Char} (hb : ∀ c ∈ b, isSpace c = true) : readAll r (t ++ b) = .ok a := by
  have hstops : Stops b := by
    cases b with
    | nil => exact stops_nil
    | cons c b => exact stops_of_isSpace (hb c (by simp)) b
  have hpeek : peek b = .ok none [] := by
    have hdrop : b.dropWhile isSpace = [] := List.dropWhile_eq_nil_iff.2 hb
    rw [peek, hdrop]
    rfl
  rw [readAll, bind_ok (h b hstops), bind_ok hpeek]
  rfl

/-- The compact text of a value gives back the value. -/
theorem parse_render {v : Json} (h : Plain maxDepth v) : parse (render v) = .ok v := by
  have hread := readAll_of_takes (value_of_spells (spells_render h) h.readable) (b := []) (by simp)
  rwa [List.append_nil] at hread

end JobGateway.Json
