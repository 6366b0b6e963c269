import JobGateway.Proofs.Job.Members
import JobGateway.Proofs.Worker.Message

/-! What a request is read from. -/
namespace JobGateway

open Json Reader

namespace WorkerRequest

/-- The two entries of a request. -/
def entries (r : WorkerRequest) (spare : Json → Prop) : List Entry :=
  [⟨"id", (· = r.id.toJson), False⟩, ⟨"command", r.command.Form spare, False⟩]

def memberNames : List String := ["id", "command"]

/-- The values that stand for a request. The members that are not known have skipped values or, inside
the command, spare ones. -/
def Form (r : WorkerRequest) (skipped spare : Json → Prop) : Json → Prop :=
  AsObject (r.entries spare) skipped

/-- What a request is written as stands for it. -/
theorem form_toJson {r : WorkerRequest} {j : Json} (h : r.toJson = .ok j)
    (skipped spare : Json → Prop) : r.Form skipped spare j := by
  obtain ⟨command, hcommand, rfl⟩ := toJson_eq_ok h
  exact Given.asObject (.give rfl (.give (JobCommand.form_toJson hcommand spare) .nil)) skipped

theorem record_lawful : record.Lawful := by
  refine ⟨?_, ?_, ?_⟩
  · simp only [record, List.forall_mem_cons, List.not_mem_nil, false_imp_iff, implies_true, and_true]
    exact ⟨Slot.keeping_marks fun _ _ => rfl, Slot.keeping_marks fun _ _ => rfl⟩
  · simp only [record, List.pairwise_cons, List.forall_mem_cons, List.not_mem_nil, false_imp_iff,
      implies_true, and_true, List.Pairwise.nil]
    exact Slot.keeping_apart (by decide) (fun _ _ _ => rfl) (fun _ _ => rfl) fun _ _ => rfl
  · simp only [record, List.forall_mem_cons, List.not_mem_nil, false_imp_iff, implies_true, and_true]
    exact ⟨rfl, rfl⟩

/-- What stands for a request is decoded to the request. -/
theorem ofJson_of_form {r : WorkerRequest} {skipped spare : Json → Prop} {v : Json}
    (h : r.Form skipped spare v) :
    WorkerRequest.decoder.ofJson v = .ok r := by
  refine Record.ofJson_arranges record_lawful
    (.cons ⟨rfl, False.elim⟩ (.cons ⟨rfl, False.elim⟩ .nil)) (fun ms hms => ?_) (.inl h)
  obtain ⟨_, _, rfl, rfl, hcommand⟩ := hms.exists_cons not_false
  obtain ⟨v, _, rfl, hform, hend⟩ := hcommand.exists_cons not_false
  cases hend
  change [("id", r.id.toJson), ("command", v)].foldlM record.addMember record.start >>= record.build
    = _
  rw [Record.foldlM_member rfl rfl (Slot.keeping_ofJson r.id.ofJson_toJson ..),
    Record.foldlM_member rfl rfl (Slot.keeping_ofJson (JobCommand.ofJson_of_form hform) ..)]
  rfl

/-- Every spelling of what stands for a request is read as the request. -/
theorem decode_of_form {r : WorkerRequest} {skipped : Json → Prop} {v : Json}
    (h : r.Form skipped Spare v) {t b : List Char}
    (ht : Spells (.value v) t) (hb : IsBlank b) :
    WorkerRequest.decoder.decode (String.ofList (t ++ b)) = .ok r := by
  obtain ⟨ms, _, _, rfl, -⟩ := show r.Form skipped Spare v from h
  have hagrees : record.decoder.Agrees (126 + 1) (.object ms) := by
    refine Record.agrees_object fun slot hslot m hm hname => ?_
    obtain ⟨e, he, hentry, hform⟩ | ⟨hne, -⟩ := h.exists_member m hm
    · simp only [record, entries, List.mem_cons, List.not_mem_nil, or_false] at hslot he
      rw [hentry] at hname
      obtain rfl | rfl := hslot <;> obtain rfl | rfl := he
      · exact Slot.keeping_agrees (Decoder.parsed_agrees _ _ _ _)
      · exact absurd hname (by decide : "id" ≠ "command")
      · exact absurd hname (by decide : "command" ≠ "id")
      · exact Slot.keeping_agrees (JobCommand.agrees_of_form hform (by decide))
    · simp only [record, List.mem_cons, List.not_mem_nil, or_false] at hslot
      obtain rfl | rfl := hslot
      · exact absurd hname.symm (hne _ List.mem_cons_self)
      · exact absurd hname.symm (hne _ (List.mem_cons_of_mem _ List.mem_cons_self))
  rw [Decoder.decode, String.toList_ofList]
  exact readAll_of_takes (hagrees r (ofJson_of_form h) t ht) hb

theorem record_ends (d : Nat) : ∀ slot ∈ record.slots, (slot.read d).Ends := by
  simp only [record, List.forall_mem_cons, List.not_mem_nil, false_imp_iff, implies_true, and_true]
  exact ⟨(Decoder.parsed_spans _ _ d).ends.map _, (InnerUnion.decoder_spans _ d).ends.map _⟩

variable {r : WorkerRequest} {d : Nat} {s s' t rest : List Char}

/-- In the text of a request no known member occurs twice. -/
theorem once_member (h : WorkerRequest.decoder.read d s = .ok r s')
    (hsame : peek s = peek (t ++ rest)) {ms : List (List Char × List Char)} (hms : IsObjectOf ms t) :
    ∀ name ∈ memberNames, Once name ms := by
  have hslots : memberNames = record.slots.map (·.name) := rfl
  rw [hslots, List.forall_mem_map]
  exact (Record.read_object record_lawful record_ends h hsame hms).1

/-- The text of the command of a request is read as its command. -/
theorem command_of_part (h : WorkerRequest.decoder.read d s = .ok r s')
    (hsame : peek s = peek (t ++ rest)) {u : List Char} (hu : HasPart "command" 1 t u) :
    ∃ d rest x y, peek x = peek (u ++ rest) ∧ JobCommand.decoder.read d x = .ok r.command y := by
  obtain ⟨parts, put, d, rest, x, y, parts', hbuild, hx, hput, rfl⟩ :=
    Record.read_part record_lawful record_ends h hsame (show record.slots[1]? = some _ from rfl) hu
  obtain ⟨c, hc, rfl⟩ := exists_of_map hput
  obtain ⟨id, -, hbuild⟩ := bind_eq_ok hbuild
  obtain ⟨command, hcommand, hbuild⟩ := bind_eq_ok hbuild
  cases hbuild
  cases required_eq_ok hcommand
  exact ⟨d, rest, x, y, hx, hc⟩

end WorkerRequest

/-- A command out of order, with a member that is not known, and the key as an array. -/
def scrambledCommand : Json :=
  .object [("x", .array [.null, .bool true]), ("key", .array [.string "c", .string "r", .null]),
    ("op", .string "delete_job")]

/-- A request out of order, with a member that is not known and beyond every finite number. -/
def scrambledRequest : Json :=
  .object [("command", scrambledCommand), ("note", .number (wholeNumber false (10 ^ 400))),
    ("id", (Uuid.numbered 7).toJson)]

/-- A value that has at most so many brackets inside one another. -/
def Shallow : Nat → Json → Prop
  | 0, .array _ => False
  | 0, .object _ => False
  | depth + 1, .array vs => ∀ v ∈ vs, Shallow depth v
  | depth + 1, .object ms => ∀ m ∈ ms, Shallow depth m.2
  | _, _ => True

end JobGateway
