import JobGateway.Proofs.Text.Lines
import JobGateway.Proofs.Text.Utf8

/-! The lossy reading of bytes as text, stretch by stretch. What is no text becomes a mark, and a
stretch that becomes one holds no ASCII byte; so an ASCII text stands in the bytes exactly where it
stands in what is read, and, if it goes over no line end, in one of the lines. -/
namespace JobGateway

namespace Utf8

/-- A stretch of bytes and the character that stands for it: the one that the bytes encode, or the
mark for bytes that encode none. -/
inductive Patch : List UInt8 × Char → Prop
  | char {bytes : List UInt8} {n : Nat} (h : Encodes bytes n) : Patch (bytes, Char.ofNat n)
  | mark {bytes : List UInt8} (nonempty : bytes ≠ []) (high : ∀ b ∈ bytes, 0x80 ≤ b.toNat) :
      Patch (bytes, '\uFFFD')

/-- Every stretch of a list of stretches is one. -/
def IsPatched (patches : List (List UInt8 × Char)) : Prop := ∀ p ∈ patches, Patch p

/-- The bytes that are taken for no character follow a leading byte, and are no ASCII. -/
theorem Piece.of_readTail_eq_junk {lo hi : UInt8} {bits taken n k : Nat} {cutOff : Bool}
    {bytes left : List UInt8} (hlo : 0x80 ≤ lo.toNat)
    (h : readTail lo hi bits taken n bytes = (.junk k cutOff, left)) :
    ∃ tail, bytes = tail ++ left ∧ ∀ b ∈ tail, 0x80 ≤ b.toNat := by
  induction n generalizing lo hi bits taken bytes with
  | zero => cases h
  | succ n ih =>
    cases bytes with
    | nil =>
      cases h
      exact ⟨[], rfl, by simp⟩
    | cons b bytes =>
      rw [readTail] at h
      split at h
      · next hb =>
        obtain ⟨tail, rfl, htail⟩ := ih (by decide) h
        have hle := UInt8.le_iff_toNat_le.1 hb.1
        refine ⟨b :: tail, rfl, ?_⟩
        intro c hc
        obtain rfl | hc := List.mem_cons.1 hc
        · omega
        · exact htail c hc
      · cases h
        exact ⟨[], rfl, by simp⟩

theorem Lead.least_ge {a : UInt8} {l : Lead} (h : Lead.ofByte? a = some l) :
    0x80 ≤ l.least.toNat := by
  obtain ⟨-, -, -, hlo, -⟩ | ⟨-, -, -, hlo, -⟩ | ⟨-, -, -, hlo, -⟩ := Lead.eq_some_of_ofByte? h
  · omega
  · split at hlo <;> omega
  · split at hlo <;> omega

/-- What is taken for no character holds no ASCII byte. -/
theorem Piece.of_read_eq_junk {a : UInt8} {rest left : List UInt8} {k : Nat} {cutOff : Bool}
    (h : read a rest = (.junk k cutOff, left)) :
    ∃ tail, rest = tail ++ left ∧ ∀ b ∈ a :: tail, 0x80 ≤ b.toNat := by
  unfold read at h
  split at h
  · cases h
  next ha =>
  rw [UInt8.lt_iff_toNat_lt] at ha
  have hhigh : 0x80 ≤ a.toNat := Nat.le_of_not_lt ha
  have hcons : ∀ {tail : List UInt8}, (∀ b ∈ tail, 0x80 ≤ b.toNat) →
      ∀ b ∈ a :: tail, 0x80 ≤ b.toNat := by
    intro tail htail b hb
    obtain rfl | hb := List.mem_cons.1 hb
    · exact hhigh
    · exact htail b hb
  split at h
  · cases h
    exact ⟨[], rfl, hcons (by simp)⟩
  next l hl =>
  obtain ⟨tail, rfl, htail⟩ := of_readTail_eq_junk (Lead.least_ge hl) h
  exact ⟨tail, rfl, hcons htail⟩

theorem lossyFrom_eq_patches (done : List Char) (bytes : List UInt8) :
    ∃ patches, IsPatched patches ∧ patches.flatMap Prod.fst = bytes ∧
      lossyFrom done bytes = done.reverse ++ patches.map Prod.snd := by
  fun_induction lossyFrom done bytes with
  | case1 done => exact ⟨[], by simp [IsPatched], rfl, by simp⟩
  | case2 done b rest c left hread _ ih =>
    obtain ⟨patches, hpatched, rfl, hread'⟩ := ih
    obtain ⟨tail, n, rfl, henc, rfl⟩ := Piece.encodes_of_read hread
    refine ⟨(b :: tail, Char.ofNat n) :: patches, ?_, rfl, by rw [hread']; simp⟩
    exact List.forall_mem_cons.2 ⟨.char henc, hpatched⟩
  | case3 done b rest k cutOff left hread _ ih =>
    obtain ⟨patches, hpatched, rfl, hread'⟩ := ih
    obtain ⟨tail, rfl, hhigh⟩ := Piece.of_read_eq_junk hread
    refine ⟨(b :: tail, '\uFFFD') :: patches, ?_, rfl, by rw [hread']; simp⟩
    exact List.forall_mem_cons.2 ⟨.mark (List.cons_ne_nil b tail) hhigh, hpatched⟩

/-- The lossy reading takes all bytes, stretch by stretch. -/
theorem exists_patches (bytes : List UInt8) :
    ∃ patches, IsPatched patches ∧ patches.flatMap Prod.fst = bytes ∧
      patches.map Prod.snd = lossy bytes := by
  obtain ⟨patches, hpatched, hbytes, hread⟩ := lossyFrom_eq_patches [] bytes
  exact ⟨patches, hpatched, hbytes, hread.symm⟩

/-- A text of ASCII characters. -/
def IsAscii (s : List Char) : Prop := ∀ c ∈ s, c.toNat < 0x80

instance (s : List Char) : Decidable (IsAscii s) :=
  List.decidableBAll (fun c : Char => c.toNat < 0x80) s

theorem utf8EncodeChar_of_lt {c : Char} (h : c.toNat < 0x80) :
    String.utf8EncodeChar c = [UInt8.ofNat c.toNat] := by
  have hval : c.val.toNat ≤ 0x7F := Nat.le_of_lt_succ h
  rw [String.utf8EncodeChar]
  simp only [if_pos hval]
  rfl

/-- A character is ASCII exactly if some byte of its stretch is; then it is the whole stretch. -/
theorem Patch.eq_of_lt {p : List UInt8 × Char} (hp : Patch p) {b : UInt8} (hb : b ∈ p.1)
    (hlt : b.toNat < 0x80) : p = ([b], Char.ofNat b.toNat) := by
  cases hp with
  | mark nonempty high => exact absurd hlt (Nat.not_lt.2 (high b hb))
  | char h =>
    cases h with
    | one ha =>
      rw [List.mem_singleton] at hb
      rw [hb]
    | two ha hb' =>
      have := hb'.1
      simp only [List.mem_cons, List.not_mem_nil, or_false] at hb
      obtain rfl | rfl := hb <;> omega
    | three ha hb' _ _ hc =>
      have := hb'.1
      have := hc.1
      simp only [List.mem_cons, List.not_mem_nil, or_false] at hb
      obtain rfl | rfl | rfl := hb <;> omega
    | four ha hb' _ _ hc hd =>
      have := hb'.1
      have := hc.1
      have := hd.1
      simp only [List.mem_cons, List.not_mem_nil, or_false] at hb
      obtain rfl | rfl | rfl | rfl := hb <;> omega

theorem Patch.fst_of_lt {p : List UInt8 × Char} (hp : Patch p) (hlt : p.2.toNat < 0x80) :
    p.1 = String.utf8EncodeChar p.2 := by
  cases hp with
  | char h => exact h.eq_utf8EncodeChar
  | mark nonempty high =>
    have hmark : ¬ '\uFFFD'.toNat < 0x80 := by decide
    exact absurd hlt hmark

theorem Patch.fst_ne_nil {p : List UInt8 × Char} (hp : Patch p) : p.1 ≠ [] := by
  cases hp with
  | mark nonempty high => exact nonempty
  | char h => cases h <;> exact List.cons_ne_nil _ _

/-- The stretches of ASCII characters are their encodings. -/
theorem flatMap_fst_of_ascii {patches : List (List UInt8 × Char)} (hp : IsPatched patches)
    (h : IsAscii (patches.map Prod.snd)) :
    patches.flatMap Prod.fst = encode (patches.map Prod.snd) := by
  induction patches with
  | nil => rfl
  | cons p patches ih =>
    obtain ⟨hpatch, hpatches⟩ := List.forall_mem_cons.1 hp
    rw [List.map_cons] at h
    obtain ⟨hc, hrest⟩ := List.forall_mem_cons.1 h
    rw [List.flatMap_cons, List.map_cons, encode_cons, ← hpatch.fst_of_lt hc, ih hpatches hrest]

/-- An ASCII byte is a stretch of its own, wherever it stands. -/
theorem exists_patch_of_lt {patches : List (List UInt8 × Char)} (hp : IsPatched patches)
    {x y : List UInt8} {b : UInt8} (hb : b.toNat < 0x80)
    (h : patches.flatMap Prod.fst = x ++ b :: y) :
    ∃ before after, patches = before ++ ([b], Char.ofNat b.toNat) :: after ∧
      before.flatMap Prod.fst = x ∧ after.flatMap Prod.fst = y := by
  induction patches generalizing x with
  | nil => simp at h
  | cons p patches ih =>
    obtain ⟨hpatch, hpatches⟩ := List.forall_mem_cons.1 hp
    rw [List.flatMap_cons] at h
    obtain ⟨more, rfl, hmore⟩ | ⟨more, hfst, hmore⟩ := List.append_eq_append_iff.1 h
    · obtain ⟨before, after, rfl, rfl, rfl⟩ := ih hpatches hmore
      exact ⟨p :: before, after, rfl, rfl, rfl⟩
    · cases more with
      | nil =>
        rw [List.append_nil] at hfst
        obtain ⟨before, after, rfl, hbefore, rfl⟩ := ih (x := []) hpatches hmore.symm
        refine ⟨p :: before, after, rfl, ?_, rfl⟩
        rw [List.flatMap_cons, hbefore, hfst, List.append_nil]
      | cons b' more =>
        -- The byte stands inside the first stretch, so it is all of it.
        rw [List.cons_append] at hmore
        obtain ⟨rfl, rfl⟩ := List.cons.inj hmore
        have hmem : b ∈ p.1 := by
          rw [hfst]
          exact List.mem_append_right x List.mem_cons_self
        obtain rfl := hpatch.eq_of_lt hmem hb
        cases x with
        | nil =>
          obtain ⟨-, rfl⟩ := List.cons.inj hfst
          exact ⟨[], patches, rfl, rfl, rfl⟩
        | cons _ x => simp at hfst

/-- ASCII characters whose bytes stand at the front are read there. -/
theorem exists_patches_of_ascii {s : List Char} (hs : IsAscii s)
    {patches : List (List UInt8 × Char)} (hp : IsPatched patches) {y : List UInt8}
    (h : patches.flatMap Prod.fst = encode s ++ y) :
    ∃ here after, patches = here ++ after ∧ here.map Prod.snd = s ∧
      after.flatMap Prod.fst = y := by
  induction s generalizing patches with
  | nil => exact ⟨[], patches, rfl, rfl, h⟩
  | cons c s ih =>
    obtain ⟨hc, hs⟩ := List.forall_mem_cons.1 hs
    have hbyte : (UInt8.ofNat c.toNat).toNat = c.toNat := by
      rw [UInt8.toNat_ofNat']
      omega
    rw [encode_cons, utf8EncodeChar_of_lt hc] at h
    obtain ⟨before, after, rfl, hbefore, hafter⟩ :=
      exists_patch_of_lt (x := []) hp (by omega) h
    obtain rfl : before = [] := by
      cases before with
      | nil => rfl
      | cons p before =>
        rw [List.flatMap_cons, List.append_eq_nil_iff] at hbefore
        exact absurd hbefore.1 (hp p (by simp)).fst_ne_nil
    obtain ⟨here, after, rfl, rfl, rfl⟩ := ih hs (fun p hmem => hp p (by simp [hmem])) hafter
    refine ⟨_ :: here, after, rfl, ?_, rfl⟩
    rw [List.map_cons, hbyte, Char.ofNat_toNat]

/-- An ASCII text stands in bytes exactly if it stands in their lossy reading. -/
theorem infix_lossy_iff {s : List Char} (hs : IsAscii s) (bytes : List UInt8) :
    s <:+: lossy bytes ↔ encode s <:+: bytes := by
  obtain ⟨patches, hp, rfl, hread⟩ := exists_patches bytes
  rw [← hread]
  constructor
  · rintro ⟨front, back, h⟩
    obtain ⟨both, after, rfl, hboth, -⟩ := List.map_eq_append_iff.1 h.symm
    obtain ⟨before, here, rfl, -, rfl⟩ := List.map_eq_append_iff.1 hboth
    have hhere : IsPatched here := fun p hmem => hp p (by simp [hmem])
    rw [List.flatMap_append, List.flatMap_append, flatMap_fst_of_ascii hhere hs]
    exact ⟨_, _, rfl⟩
  · rintro ⟨front, back, h⟩
    cases s with
    | nil => exact List.nil_infix
    | cons c s =>
      obtain ⟨hc, -⟩ := List.forall_mem_cons.1 hs
      have hbyte : (UInt8.ofNat c.toNat).toNat < 0x80 := by
        rw [UInt8.toNat_ofNat']
        omega
      have hfirst := h.symm
      rw [encode_cons, utf8EncodeChar_of_lt hc, List.append_assoc, List.append_assoc,
        List.singleton_append] at hfirst
      obtain ⟨before, after, rfl, rfl, hafter⟩ := exists_patch_of_lt hp hbyte hfirst
      have hrest : IsPatched (([UInt8.ofNat c.toNat], Char.ofNat (UInt8.ofNat c.toNat).toNat) ::
          after) := fun p hmem => hp p (List.mem_append_right _ hmem)
      obtain ⟨here, more, hsplit, hhere, -⟩ := exists_patches_of_ascii hs hrest (y := back) (by
        rw [List.flatMap_cons, hafter, encode_cons, utf8EncodeChar_of_lt hc, List.append_assoc])
      rw [hsplit, List.map_append, List.map_append, hhere]
      exact ⟨_, _, List.append_assoc ..⟩

end Utf8

namespace Lines

variable {α : Type} {lf cr c : α} {s x y : List α} {parts : List (List α × List α)}

/-- What holds no separator does not go over one. -/
theorem infix_append_cons_iff (h : c ∉ s) : s <:+: x ++ c :: y ↔ s <:+: x ∨ s <:+: y := by
  constructor
  · rintro ⟨front, back, hsplit⟩
    obtain ⟨more, rfl, -⟩ | ⟨more, hfront, hback⟩ := List.append_eq_append_iff.1 hsplit
    · exact .inl ⟨front, more, rfl⟩
    cases more with
    | nil =>
      rw [List.append_nil] at hfront
      rw [← hfront]
      exact .inl (List.suffix_append front s).isInfix
    | cons d more =>
      rw [List.cons_append] at hback
      obtain ⟨rfl, rfl⟩ := List.cons.inj hback
      obtain ⟨between, -, rfl⟩ | ⟨between, -, hmore⟩ := List.append_eq_append_iff.1 hfront
      · exact absurd (List.mem_append_right between List.mem_cons_self) h
      cases between with
      | nil =>
        rw [List.nil_append] at hmore
        rw [← hmore] at h
        exact absurd List.mem_cons_self h
      | cons d between =>
        rw [List.cons_append] at hmore
        obtain ⟨-, rfl⟩ := List.cons.inj hmore
        exact .inr ⟨between, back, rfl⟩
  · rintro (hx | hy)
    · exact hx.trans (List.prefix_append x (c :: y)).isInfix
    · exact hy.trans ((List.suffix_cons c y).trans (List.suffix_append x (c :: y))).isInfix

/-- What goes over no line end stands in a text exactly if it stands in a line of it. -/
theorem Cut.infix_joined_iff (hcut : Cut lf cr parts) (hlf : lf ∉ s) (hcr : cr ∉ s) (hne : s ≠ []) :
    s <:+: joined parts ↔ ∃ part ∈ parts, s <:+: part.1 := by
  induction hcut with
  | nil => simp [joined, hne]
  | last nonempty inside => simp [joined]
  | @bare line parts inside plain more ih =>
    have htext : joined ((line, [lf]) :: parts) = line ++ lf :: joined parts := by simp [joined]
    rw [htext, infix_append_cons_iff hlf, ih]
    simp only [List.mem_cons, exists_eq_or_imp]
  | @full line parts inside differ more ih =>
    have htext : joined ((line, [cr, lf]) :: parts) = line ++ cr :: ([] ++ lf :: joined parts) := by
      simp [joined]
    rw [htext, infix_append_cons_iff hcr, infix_append_cons_iff hlf, List.infix_nil, ih]
    simp only [List.mem_cons, exists_eq_or_imp, hne, false_or]

end Lines

namespace Text

variable {text line : List Char}

/-- The lines of a text are those that stand between its line ends. -/
theorem lines_joined {parts : List (List Char × List Char)} (h : Lines.Cut '\n' '\r' parts) :
    lines (Lines.joined parts) = parts.map Prod.fst := h.split

theorem not_mem_of_mem_lines (h : line ∈ lines text) : '\n' ∉ line := by
  obtain ⟨parts, hcut, rfl⟩ := Lines.exists_cut '\n' '\r' text
  rw [lines_joined hcut] at h
  obtain ⟨part, hpart, rfl⟩ := List.mem_map.1 h
  exact hcut.not_mem hpart

/-- A text is made up of its lines, but for carriage returns before line feeds. -/
theorem intercalate_lines (text : List Char) :
    ['\n'].intercalate (lines text) ++ Lines.closing '\n' text =
      Lines.dropReturns '\n' '\r' text := by
  obtain ⟨parts, hcut, rfl⟩ := Lines.exists_cut '\n' '\r' text
  rw [lines_joined hcut, hcut.intercalate (by decide)]

theorem lines_of_not_mem (h : '\n' ∉ line) (hne : line ≠ []) : lines line = [line] := by
  have hcut : Lines.Cut '\n' '\r' [(line, [])] := .last hne h
  have hlines := lines_joined hcut
  simpa [Lines.joined] using hlines

/-- A line in front of others, up to a carriage return that is taken for a part of its end. -/
theorem exists_lines_append (h : '\n' ∉ line) (more : List Char) :
    ∃ first, lines (line ++ '\n' :: more) = first :: lines more ∧
      (line = first ∨ line = first ++ ['\r']) := by
  obtain ⟨parts, hcut, rfl⟩ := Lines.exists_cut '\n' '\r' more
  by_cases hlast : line.getLast? = some '\r'
  · obtain ⟨first, rfl⟩ := List.getLast?_eq_some_iff.1 hlast
    have hfirst : '\n' ∉ first := fun hmem => h (List.mem_append_left _ hmem)
    have hlines := lines_joined (.full hfirst (by decide) hcut)
    refine ⟨first, ?_, .inr rfl⟩
    rw [lines_joined hcut]
    simpa [Lines.joined] using hlines
  · have hlines := lines_joined (.bare h hlast hcut)
    refine ⟨line, ?_, .inl rfl⟩
    rw [lines_joined hcut]
    simpa [Lines.joined] using hlines

/-- An ASCII text without line ends stands in bytes exactly if it stands in one of the lines that are
read. -/
theorem exists_infix_lossyLines_iff {s : List Char} (hs : Utf8.IsAscii s) (hlf : '\n' ∉ s)
    (hcr : '\r' ∉ s) (hne : s ≠ []) (bytes : List UInt8) :
    (∃ line ∈ lossyLines bytes, s <:+: line.toList) ↔ Utf8.encode s <:+: bytes := by
  obtain ⟨parts, hcut, hjoined⟩ := Lines.exists_cut '\n' '\r' (Utf8.lossy bytes)
  rw [← Utf8.infix_lossy_iff hs, lossyLines, ← hjoined, lines_joined hcut,
    hcut.infix_joined_iff hlf hcr hne]
  simp

end Text

end JobGateway
