import JobGateway.Proofs.Text.Utf8

/-! The order of texts by their characters is the order of their bytes: where two texts differ first,
the lesser character has the lesser bytes, and neither's bytes are the front of the other's. -/
namespace JobGateway.Utf8

theorem cons_lt_cons_iff {a b : UInt8} {x y : List UInt8} :
    a :: x < b :: y ↔ a.toNat < b.toNat ∨ a.toNat = b.toNat ∧ x < y := by
  rw [List.cons_lt_cons_iff, UInt8.lt_iff_toNat_lt, ← UInt8.toNat_inj]

theorem cons_lt_cons {a b : UInt8} (h : a.toNat < b.toNat) (x y : List UInt8) : a :: x < b :: y :=
  cons_lt_cons_iff.2 (.inl h)

/-- The bytes of a lesser character come first, whatever stands behind them. -/
theorem Encodes.append_lt {bs bs' : List UInt8} {n n' : Nat} (h : Encodes bs n)
    (h' : Encodes bs' n') (hlt : n < n') (x y : List UInt8) : bs ++ x < bs' ++ y := by
  cases h with
  | one ha =>
    cases h' with
    | one => exact cons_lt_cons hlt _ _
    | two ha' | three ha' | four ha' => exact cons_lt_cons (by omega) _ _
  | @two a b ha hb =>
    cases h' with
    | one ha' => omega
    | @two a' b' ha' hb' =>
      simp only [IsTail] at hb hb'
      have hlex : a.toNat < a'.toNat ∨ a.toNat = a'.toNat ∧ b.toNat < b'.toNat := by omega
      refine cons_lt_cons_iff.2 (hlex.imp_right fun hb => ⟨hb.1, ?_⟩)
      exact cons_lt_cons hb.2 _ _
    | three ha' | four ha' => exact cons_lt_cons (by omega) _ _
  | @three a b c ha hb low high hc =>
    cases h' with
    | one ha' => omega
    | two ha' hb' =>
      simp only [IsTail] at hb hb'
      omega
    | @three a' b' c' ha' hb' low' high' hc' =>
      simp only [IsTail] at hb hb' hc hc'
      have hlex : a.toNat < a'.toNat ∨ a.toNat = a'.toNat ∧
          (b.toNat < b'.toNat ∨ b.toNat = b'.toNat ∧ c.toNat < c'.toNat) := by omega
      refine cons_lt_cons_iff.2 (hlex.imp_right fun hb => ⟨hb.1, ?_⟩)
      refine cons_lt_cons_iff.2 (hb.2.imp_right fun hc => ⟨hc.1, ?_⟩)
      exact cons_lt_cons hc.2 _ _
    | four ha' => exact cons_lt_cons (by omega) _ _
  | @four a b c d ha hb low high hc hd =>
    cases h' with
    | one ha' => omega
    | two ha' hb' =>
      simp only [IsTail] at hb hb' hc
      omega
    | three ha' hb' low' high' hc' =>
      simp only [IsTail] at hb hb' hc hc'
      omega
    | @four a' b' c' d' ha' hb' low' high' hc' hd' =>
      simp only [IsTail] at hb hb' hc hc' hd hd'
      have hlex : a.toNat < a'.toNat ∨ a.toNat = a'.toNat ∧ (b.toNat < b'.toNat ∨
          b.toNat = b'.toNat ∧ (c.toNat < c'.toNat ∨ c.toNat = c'.toNat ∧ d.toNat < d'.toNat)) := by
        omega
      refine cons_lt_cons_iff.2 (hlex.imp_right fun hb => ⟨hb.1, ?_⟩)
      refine cons_lt_cons_iff.2 (hb.2.imp_right fun hc => ⟨hc.1, ?_⟩)
      refine cons_lt_cons_iff.2 (hc.2.imp_right fun hd => ⟨hd.1, ?_⟩)
      exact cons_lt_cons hd.2 _ _

/-- A text that comes first does so by its bytes too. -/
theorem encode_lt_encode {s t : List Char} (h : s < t) : encode s < encode t := by
  induction s generalizing t with
  | nil =>
    cases t with
    | nil => exact absurd h (List.lt_irrefl _)
    | cons c t =>
      obtain ⟨b, tail, htail, -⟩ := Piece.read_utf8EncodeChar c []
      rw [encode_cons, htail]
      exact List.nil_lt_cons b _
  | cons c s ih =>
    cases t with
    | nil => exact absurd h (List.not_lt_nil _)
    | cons d t =>
      rw [encode_cons, encode_cons]
      obtain hlt | ⟨rfl, hst⟩ := List.cons_lt_cons_iff.1 h
      · exact (encodes_utf8EncodeChar c).append_lt (encodes_utf8EncodeChar d) hlt _ _
      · exact List.append_left_lt (ih hst)

end JobGateway.Utf8
