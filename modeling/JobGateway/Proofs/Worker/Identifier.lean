import JobGateway.Proofs.Json.Extent
import JobGateway.Worker.Serve

/-! The identifier of a line. A worker reads a line as a request, member by member, and looks for an
identifier in a line that is no request as in any other value. Where both succeed they find the same
one: each reads every member up to the same place, and a request has one identifier. -/
namespace JobGateway

open Json Reader

namespace Json

variable {α σ τ : Type} {s s' t u : List Char}

/-- Two readers of the members of one object, which end every member at the same place. -/
theorem foldMembers_agree {f : σ → String → Reader σ} {g : τ → String → Reader τ}
    {R : σ → τ → Prop}
    (hstep : ∀ a b name s a' t b' u, R a b → f a name s = .ok a' t → g b name s = .ok b' u →
      t = u ∧ R a' b')
    {bound : List Char} {first : Bool} {a a' : σ} {b b' : τ} (hab : R a b)
    (hf : foldMembers f bound first a s = .ok a' t)
    (hg : foldMembers g bound first b s = .ok b' u) : R a' b' := by
  induction bound generalizing first a b s with
  | nil =>
    cases hf
    cases hg
    exact hab
  | cons x bound ih =>
    obtain ⟨name, v, hnext, hf⟩ := exists_of_bind hf
    obtain ⟨_, _, hsame, hg⟩ := exists_of_bind hg
    rw [hnext] at hsame
    cases hsame
    cases name with
    | none =>
      cases hf
      cases hg
      exact hab
    | some name =>
      obtain ⟨c, w, hc, hf⟩ := exists_of_bind hf
      obtain ⟨d, w', hd, hg⟩ := exists_of_bind hg
      obtain ⟨rfl, hcd⟩ := hstep a b name v c w d w' hab hc hd
      exact ih hcd hf hg

theorem value_quote {text : String} (hpeek : peek s = .ok (some '"') ('"' :: t))
    (hbody : stringBody t = .ok text s') (depth : Nat) :
    value depth s = .ok (.string text) s' := by
  have hopen : opening '"' ('"' :: t) = .ok (.scalar (.string text)) s' := map_ok hbody _
  cases depth <;> exact (bind_ok hpeek _).trans (bind_ok hopen _)

/-- A value that begins with a square bracket is no object. -/
theorem ne_object_of_bracket {depth : Nat} {ms : List (String × Json)}
    (hpeek : peek s = .ok (some '[') t) : value depth s ≠ .ok (.object ms) s' := by
  intro h
  obtain ⟨c, u, hc, hscalar | ⟨-, _, _, _, -, ⟨⟩, -⟩ | ⟨rfl, -⟩⟩ := value_cases h
  · rw [hpeek] at hc
    cases hc
    cases hscalar.1
  · rw [hpeek] at hc
    cases hc

theorem of_value_brace {depth : Nat} {v : Json}
    (hpeek : peek s = .ok (some '\x7b') ('\x7b' :: t)) (h : value depth s = .ok v s') :
    ∃ d ms u, v = .object ms.reverse ∧
      members (fun done name => do colon; return (name, ← value d) :: done) [] t = .ok ms u := by
  obtain ⟨c, u, hc, hscalar | ⟨rfl, -⟩ | ⟨-, d, ms, w, -, hv, hmembers, -⟩⟩ := value_cases h
  · rw [hpeek] at hc
    cases hc
    cases hscalar.1
  · rw [hpeek] at hc
    cases hc
  · rw [hpeek] at hc
    cases hc
    exact ⟨d, ms, w, hv, hmembers⟩

end Json

namespace WorkerRequest

variable {s t u : List Char}

/-- The identifier that the members of an object have, given with the last member first. -/
inductive Carries (done : List (String × Json)) : Option Uuid → Prop
  | absent (h : done.find? (fun m => m.1 == "id") = none) : Carries done none
  | present {name text : String} {id : Uuid}
      (h : done.find? (fun m => m.1 == "id") = some (name, .string text))
      (parsed : Uuid.parse text = .ok id) : Carries done (some id)

theorem Carries.cons {done : List (String × Json)} {id : Option Uuid} (h : Carries done id)
    {name : String} (hname : name ≠ "id") (v : Json) : Carries ((name, v) :: done) id := by
  have hfind : ((name, v) :: done).find? (fun m => m.1 == "id") =
      done.find? fun m => m.1 == "id" := List.find?_cons_of_neg (by simpa using hname)
  cases h with
  | absent h => exact .absent (hfind.trans h)
  | present h parsed => exact .present (hfind.trans h) parsed

theorem of_idDecoder {depth : Nat} {id : Uuid} (h : Uuid.decoder.read depth s = .ok id t) (d : Nat) :
    ∃ text, value d s = .ok (.string text) t ∧ Uuid.parse text = .ok id := by
  obtain ⟨w, text, hpeek, hbody, hparse⟩ := Decoder.of_parsed h
  refine ⟨text, value_quote hpeek hbody d, ?_⟩
  cases hid : Uuid.parse text with
  | error fault =>
    rw [hid] at hparse
    cases hparse
  | ok id' =>
    rw [hid] at hparse
    cases hparse
    rfl

/-- A member of a request is the same member of a value, and has the identifier of the request if it
is named for it. -/
theorem readMember_carries {depth d : Nat} {parts parts' : Parts} {name : String}
    {done done' : List (String × Json)} (hcarries : Carries done parts.id)
    (hread : record.readMember depth parts name s = .ok parts' t)
    (hvalue : (do colon; return (name, ← value d) :: done : Reader _) s = .ok done' u) :
    t = u ∧ Carries done' parts'.id := by
  obtain ⟨w, hcolon, hread⟩ := Record.of_readMember hread
  obtain ⟨_, _, hsame, hvalue⟩ := exists_of_bind hvalue
  rw [hcolon] at hsame
  cases hsame
  obtain ⟨v, x, hv, hvalue⟩ := exists_of_bind hvalue
  cases hvalue
  have hskip := (value_spans d).skipValue hv
  by_cases hid : name = "id"
  · subst hid
    obtain ⟨hnone, -⟩ | ⟨slot, put, hfind, -, hput, rfl⟩ := hread
    · cases hnone
    · cases hfind
      obtain ⟨id, hid, rfl⟩ := exists_of_map hput
      obtain ⟨text, htext, hparse⟩ := of_idDecoder hid d
      rw [hv] at htext
      cases htext
      exact ⟨rfl, .present (List.find?_cons_of_pos rfl) hparse⟩
  obtain ⟨-, hother, rfl⟩ | ⟨slot, put, hfind, -, hput, rfl⟩ := hread
  · rw [hskip] at hother
    cases hother
    exact ⟨rfl, hcarries.cons hid v⟩
  · have hname : slot.name = name := by simpa using List.find?_some hfind
    have hslot := List.mem_of_find?_eq_some hfind
    simp only [record, List.mem_cons, List.not_mem_nil, or_false] at hslot
    obtain rfl | rfl := hslot
    · exact absurd hname.symm hid
    · obtain ⟨command, hcommand, rfl⟩ := exists_of_map hput
      have hother := (InnerUnion.decoder_spans JobCommand.union depth).skipValue hcommand
      rw [hskip] at hother
      cases hother
      exact ⟨rfl, hcarries.cons hid v⟩

/-- A line that is a request and an object has the identifier of the request as its last member of
that name. -/
theorem decode_id {line : List Char} {r : WorkerRequest} {ms : List (String × Json)}
    (hdecode : decoder.decode (String.ofList line) = .ok r)
    (hparse : Json.parse line = .ok (.object ms)) :
    ∃ text, (Json.object ms).member? "id" = some (.string text) ∧ Uuid.parse text = .ok r.id := by
  obtain ⟨x, hread⟩ := exists_of_readAll hdecode
  rw [String.toList_ofList] at hread
  obtain ⟨y, hvalue⟩ := exists_of_readAll hparse
  obtain ⟨d, t, parts, z, hbuild, ⟨hpeek, -⟩ | ⟨hpeek, hmembers, -⟩⟩ := Record.of_decoder hread
  · exact absurd hvalue (ne_object_of_bracket hpeek)
  · obtain ⟨d', done, z', hms, hdone⟩ := of_value_brace hpeek hvalue
    cases hms
    have hcarries := foldMembers_agree
      (fun _ _ _ _ _ _ _ _ hcarries hread hvalue => readMember_carries hcarries hread hvalue)
      (Carries.absent List.find?_nil) hmembers hdone
    obtain ⟨id, hid, hbuild⟩ := bind_eq_ok hbuild
    obtain ⟨command, -, hbuild⟩ := bind_eq_ok hbuild
    cases hbuild
    rw [required_eq_ok hid] at hcarries
    cases hcarries with
    | present hfind hid =>
      refine ⟨_, ?_, hid⟩
      rw [Json.member?, List.findRev?_eq_find?_reverse, List.reverse_reverse, hfind]
      rfl

end WorkerRequest

end JobGateway
