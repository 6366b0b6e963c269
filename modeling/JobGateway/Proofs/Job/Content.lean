import JobGateway.Proofs.Job.Wire
import JobGateway.Proofs.Json.Arrangement

/-! The values that stand for a job key or a command. Their members may come in any order, among
others, or as an array; what may be absent may be left out. Each such value is decoded to what it
stands for. -/
namespace JobGateway

open Json

/-- The value of a member that is not known. It is kept with the others until the command is complete,
so its numbers must be finite, and it must not be deep. -/
def Spare (v : Json) : Prop := Readable 100 v

namespace JobKey

/-- The four entries of a key. A role key has neither environment nor name. -/
def entries : JobKey → List Entry
  | .role c r =>
    [⟨"cluster", (· = .string c), False⟩, ⟨"role", (· = .string r), False⟩,
      ⟨"environment", (· = .null), True⟩, ⟨"name", (· = .null), True⟩]
  | .full c r e n =>
    [⟨"cluster", (· = .string c), False⟩, ⟨"role", (· = .string r), False⟩,
      ⟨"environment", (· = .string e), False⟩, ⟨"name", (· = .string n), False⟩]

def memberNames : List String := ["cluster", "role", "environment", "name"]

/-- The values that stand for a key, if the members that are not known have spare values. -/
def Form (k : JobKey) (spare : Json → Prop) : Json → Prop := Arranges k.entries spare

theorem record_lawful : record.Lawful := by
  refine ⟨?_, ?_, ?_⟩
  · simp only [record, List.forall_mem_cons, List.not_mem_nil, false_imp_iff, implies_true, and_true]
    refine ⟨?_, ?_, ?_, ?_⟩ <;> exact Slot.keeping_marks fun _ _ => rfl
  · simp only [record, List.pairwise_cons, List.forall_mem_cons, List.not_mem_nil, false_imp_iff,
      implies_true, and_true, List.Pairwise.nil]
    refine ⟨⟨?_, ?_, ?_⟩, ⟨?_, ?_⟩, ?_⟩ <;>
      exact Slot.keeping_apart (by decide) (fun _ _ _ => rfl) (fun _ _ => rfl) fun _ _ => rfl
  · simp only [record, List.forall_mem_cons, List.not_mem_nil, false_imp_iff, implies_true, and_true]
    exact ⟨rfl, rfl, rfl, rfl⟩

theorem record_covers (k : JobKey) : record.Covers k.entries := by
  cases k <;> exact .cons ⟨rfl, by simp [Slot.keeping]⟩ (.cons ⟨rfl, by simp [Slot.keeping]⟩
    (.cons ⟨rfl, by simp [Slot.keeping]⟩ (.cons ⟨rfl, by simp [Slot.keeping]⟩ .nil)))

/-- The four parts of a key, of which the last two may be missing. -/
def raw (k : JobKey) : String × String × Option String × Option String :=
  (k.cluster, k.roleName, k.environment?, k.name?)

theorem record_of_given {k : JobKey} {ms : List (String × Json)} (h : Given k.entries ms) :
    ms.foldlM record.addMember record.start >>= record.build = .ok k.raw := by
  cases k with
  | role c r =>
    obtain ⟨_, _, rfl, rfl, hrole⟩ := h.exists_cons id
    obtain ⟨_, _, rfl, rfl, hpair⟩ := hrole.exists_cons id
    -- Environment and name are null or absent, each for itself.
    rcases hpair with _ | ⟨rfl, hname⟩ | ⟨-, hname⟩ <;>
      rcases hname with _ | ⟨rfl, hend⟩ | ⟨-, hend⟩ <;>
      cases hend <;> rfl
  | full c r e n =>
    obtain ⟨_, _, rfl, rfl, hrole⟩ := h.exists_cons id
    obtain ⟨_, _, rfl, rfl, henvironment⟩ := hrole.exists_cons id
    obtain ⟨_, _, rfl, rfl, hname⟩ := henvironment.exists_cons id
    obtain ⟨_, _, rfl, rfl, hend⟩ := hname.exists_cons id
    cases hend
    rfl

/-- What stands for a key is decoded to the key. -/
theorem ofJson_of_form {k : JobKey} {spare : Json → Prop} {v : Json} (h : k.Form spare v) :
    JobKey.decoder.ofJson v = .ok k := by
  have hrecord := Record.ofJson_arranges record_lawful k.record_covers
    (fun ms hms => record_of_given hms) h
  change (record.decoder.ofJson v >>= ofParts) = .ok k
  rw [hrecord]
  cases k <;> rfl

/-- What a key is written as stands for it. -/
theorem form_toJson (k : JobKey) (spare : Json → Prop) : k.Form spare k.toJson := by
  cases k with
  | role c r =>
    exact .inl (Given.asObject (.give rfl (.give rfl (.leave trivial (.leave trivial .nil)))) spare)
  | full c r e n =>
    exact .inl (Given.asObject (.give rfl (.give rfl (.give rfl (.give rfl .nil)))) spare)

theorem readable_of_form {k : JobKey} {v : Json} (h : k.Form Spare v) : Readable 101 v := by
  refine Arranges.readable h ?_ fun w hw => hw
  cases k <;> simp [entries]

end JobKey

namespace JobCommand

def keyEntry (spare : Json → Prop) (key : JobKey) : Entry := ⟨"key", key.Form spare, False⟩

def specEntry (spec : JobSpec) : Entry := ⟨"spec", (spec.toJson = .ok ·), False⟩

def maybeSpecEntry (spec : Option JobSpec) : Entry := ⟨"spec", (specJson spec = .ok ·), spec = none⟩

def instancesEntry (i : Instances) : Entry := ⟨"instances", (· = i.toJson), i = .all⟩

/-- The entries of a command besides its tag. -/
def fields (c : JobCommand) (spare : Json → Prop) : List Entry :=
  match c with
  | .listJobs key => [keyEntry spare key]
  | .createJob key spec => [keyEntry spare key, specEntry spec]
  | .updateJob key spec i => [keyEntry spare key, specEntry spec, instancesEntry i]
  | .cancelUpdate key spec => [keyEntry spare key, maybeSpecEntry spec]
  | .restartJob key spec i => [keyEntry spare key, maybeSpecEntry spec, instancesEntry i]
  | .deleteJob key spec i => [keyEntry spare key, maybeSpecEntry spec, instancesEntry i]

/-- The known members of a command depend on its operation. -/
def memberNames : JobCommand → List String
  | .listJobs .. => ["op", "key"]
  | .createJob .. => ["op", "key", "spec"]
  | .updateJob .. => ["op", "key", "spec", "instances"]
  | .cancelUpdate .. => ["op", "key", "spec"]
  | .restartJob .. => ["op", "key", "spec", "instances"]
  | .deleteJob .. => ["op", "key", "spec", "instances"]

/-- The values that stand for a command, if the members that are not known have spare values. -/
def Form (c : JobCommand) (spare : Json → Prop) : Json → Prop :=
  Arranges (union.tagEntry c.operation.name :: c.fields spare) spare

/-- The slots of a command are apart, whichever of the two is the one of the specification. -/
theorem slots_apart {spec : Slot Parts} (h : spec = specSlot ∨ spec = maybeSpecSlot) :
    [keySlot, spec, instancesSlot].Pairwise Slot.Apart := by
  have hspec : keySlot.Apart spec ∧ spec.Apart instancesSlot := by
    obtain rfl | rfl := h <;> constructor <;>
      exact Slot.keeping_apart (by decide) (fun _ _ _ => rfl) (fun _ _ => rfl) fun _ _ => rfl
  have hkey : keySlot.Apart instancesSlot :=
    Slot.keeping_apart (by decide) (fun _ _ _ => rfl) (fun _ _ => rfl) fun _ _ => rfl
  simp [hspec, hkey]

theorem slots_lawful {spec : Slot Parts} (hspec : spec = specSlot ∨ spec = maybeSpecSlot)
    {slots : List (Slot Parts)} (h : slots <+: [keySlot, spec, instancesSlot]) (name : String)
    (build : Parts → Except Mismatch JobCommand) : (variantRecord name slots build).Lawful := by
  have hslot : ∀ slot ∈ [keySlot, spec, instancesSlot],
      slot.Marks ∧ slot.filled ⟨none, none, none, none⟩ = false := by
    simp only [List.forall_mem_cons, List.not_mem_nil, false_imp_iff, implies_true, and_true]
    obtain rfl | rfl := hspec <;> refine ⟨?_, ?_, ?_⟩ <;>
      exact ⟨Slot.keeping_marks fun _ _ => rfl, rfl⟩
  exact ⟨fun slot hs => (hslot slot (h.mem hs)).1, (slots_apart hspec).sublist h.sublist,
    fun slot hs => (hslot slot (h.mem hs)).2⟩

/-- What a command is written as stands for it. -/
theorem form_toJson {c : JobCommand} {j : Json} (h : c.toJson = .ok j) (spare : Json → Prop) :
    c.Form spare j := by
  have hkey := c.key.form_toJson spare
  cases c with
  | listJobs key =>
    cases h
    exact .inl (Given.asObject (.give rfl (.give hkey .nil)) spare)
  | createJob key spec =>
    obtain ⟨s, hs, hj⟩ := bind_eq_ok h
    cases hj
    exact .inl (Given.asObject (.give rfl (.give hkey (.give hs .nil))) spare)
  | updateJob key spec i =>
    obtain ⟨s, hs, hj⟩ := bind_eq_ok h
    cases hj
    exact .inl (Given.asObject (.give rfl (.give hkey (.give hs (.give rfl .nil)))) spare)
  | cancelUpdate key spec =>
    obtain ⟨s, hs, hj⟩ := bind_eq_ok h
    cases hj
    exact .inl (Given.asObject (.give rfl (.give hkey (.give hs .nil))) spare)
  | restartJob key spec i | deleteJob key spec i =>
    obtain ⟨s, hs, hj⟩ := bind_eq_ok h
    cases hj
    exact .inl (Given.asObject (.give rfl (.give hkey (.give hs (.give rfl .nil)))) spare)

theorem mem_fields {c : JobCommand} {spare : Json → Prop} {e : Entry} (h : e ∈ c.fields spare) :
    e = keyEntry spare c.key ∨ (∃ spec, e = specEntry spec) ∨ (∃ spec, e = maybeSpecEntry spec) ∨
      ∃ i, e = instancesEntry i := by
  cases c <;> simp only [fields, List.mem_cons, List.not_mem_nil, or_false] at h <;> grind [key]

theorem fields_ne_tag {c : JobCommand} {spare : Json → Prop} :
    ∀ e ∈ c.fields spare, e.name ≠ union.tag := by
  intro e he
  obtain rfl | ⟨spec, rfl⟩ | ⟨spec, rfl⟩ | ⟨i, rfl⟩ := mem_fields he
  · exact (by decide : "key" ≠ "op")
  · exact (by decide : "spec" ≠ "op")
  · exact (by decide : "spec" ≠ "op")
  · exact (by decide : "instances" ≠ "op")

theorem readable_of_field {c : JobCommand} :
    ∀ e ∈ c.fields Spare, ∀ v, e.form v → Readable 101 v := by
  intro e he v hv
  obtain rfl | ⟨spec, rfl⟩ | ⟨spec, rfl⟩ | ⟨i, rfl⟩ := mem_fields he
  · exact JobKey.readable_of_form hv
  · have hspec : specJson (some spec) = .ok v := hv
    exact (plain_specJson hspec 101).readable
  · exact (plain_specJson hv 101).readable
  · cases hv
    exact (plain_strings 100 i.ids).readable

section Given

variable {r : Record Parts JobCommand} {build : Parts → Except Mismatch JobCommand}
  {es : List Entry} {ms : List (String × Json)} {parts : Parts} {c : JobCommand}

theorem key_of_given {spare : Json → Prop} {key : JobKey} (h : Given (keyEntry spare key :: es) ms)
    (hfind : r.slots.find? (·.name == "key") = some keySlot) (hempty : parts.key = none)
    (hrest : ∀ more, Given es more →
      more.foldlM r.addMember { parts with key := some key } >>= build = .ok c) :
    ms.foldlM r.addMember parts >>= build = .ok c := by
  obtain ⟨v, more, rfl, hkey, hmore⟩ := h.exists_cons id
  have hadd : r.addMember parts ("key", v) = .ok { parts with key := some key } :=
    Record.addMember_keeping hfind hempty (JobKey.ofJson_of_form hkey)
  rw [List.foldlM_cons, show (keyEntry spare key).name = "key" from rfl, hadd]
  exact hrest more hmore

theorem spec_of_given {spec : JobSpec} (h : Given (specEntry spec :: es) ms)
    (hfind : r.slots.find? (·.name == "spec") = some specSlot) (hempty : parts.spec = none)
    (hrest : ∀ more, Given es more →
      more.foldlM r.addMember { parts with spec := some spec } >>= build = .ok c) :
    ms.foldlM r.addMember parts >>= build = .ok c := by
  obtain ⟨v, more, rfl, hspec, hmore⟩ := h.exists_cons id
  have hadd : r.addMember parts ("spec", v) = .ok { parts with spec := some spec } :=
    Record.addMember_keeping hfind hempty (JobSpec.ofJson_toJson hspec)
  rw [List.foldlM_cons, show (specEntry spec).name = "spec" from rfl, hadd]
  exact hrest more hmore

/-- An optional specification is given, perhaps as null, or left out. -/
theorem maybeSpec_of_given {spec : Option JobSpec} (h : Given (maybeSpecEntry spec :: es) ms)
    (hfind : r.slots.find? (·.name == "spec") = some maybeSpecSlot)
    (hempty : parts.maybeSpec = none)
    (hrest : ∀ more maybeSpec, Given es more → maybeSpec.getD none = spec →
      more.foldlM r.addMember { parts with maybeSpec } >>= build = .ok c) :
    ms.foldlM r.addMember parts >>= build = .ok c := by
  cases h with
  | @give _ _ v more form hmore =>
    have hadd : r.addMember parts ("spec", v) = .ok { parts with maybeSpec := some spec } :=
      Record.addMember_keeping hfind hempty (option_ofJson form)
    rw [List.foldlM_cons, show (maybeSpecEntry spec).name = "spec" from rfl, hadd]
    exact hrest more (some spec) hmore rfl
  | leave absent hmore =>
    have hms := hrest ms none hmore (Eq.symm absent)
    rwa [← hempty] at hms

/-- A selection of instances is given, or left out if it is empty. -/
theorem instances_of_given {i : Instances} (h : Given (instancesEntry i :: es) ms)
    (hfind : r.slots.find? (·.name == "instances") = some instancesSlot)
    (hempty : parts.instances = none)
    (hrest : ∀ more instances, Given es more → instances.getD .all = i →
      more.foldlM r.addMember { parts with instances } >>= build = .ok c) :
    ms.foldlM r.addMember parts >>= build = .ok c := by
  cases h with
  | @give _ _ v more form hmore =>
    cases form
    have hadd : r.addMember parts ("instances", i.toJson) =
        .ok { parts with instances := some i } :=
      Record.addMember_keeping hfind hempty i.ofJson_toJson
    rw [List.foldlM_cons, show (instancesEntry i).name = "instances" from rfl, hadd]
    exact hrest more (some i) hmore rfl
  | leave absent hmore =>
    have hms := hrest ms none hmore (Eq.symm absent)
    rwa [← hempty] at hms

end Given

/-- A command is decoded from its forms by the record of its variant. -/
theorem ofJson_of_given {c : JobCommand} {spare : Json → Prop} {v : Json} (h : c.Form spare v)
    {title : String} {slots : List (Slot Parts)} {build : Parts → Except Mismatch JobCommand}
    (hname : union.variants.lookup c.operation.name = some (variant title slots build))
    {spec : Slot Parts} (hspec : spec = specSlot ∨ spec = maybeSpecSlot)
    (hslots : slots <+: [keySlot, spec, instancesSlot])
    (hcovers : (variantRecord title slots build).Covers (c.fields spare))
    (hgiven : ∀ ms, Given (c.fields spare) ms →
      ms.foldlM (variantRecord title slots build).addMember ⟨none, none, none, none⟩ >>= build =
        .ok c) : JobCommand.decoder.ofJson v = .ok c :=
  InnerUnion.ofJson_arranges hname fields_ne_tag
    (fun _ hw => Record.ofJson_arranges (slots_lawful hspec hslots title build) hcovers hgiven hw) h

/-- What stands for a command is decoded to the command. -/
theorem ofJson_of_form {c : JobCommand} {spare : Json → Prop} {v : Json} (h : c.Form spare v) :
    JobCommand.decoder.ofJson v = .ok c := by
  cases c with
  | listJobs key =>
    refine ofJson_of_given h rfl (.inl rfl) ⟨[specSlot, instancesSlot], rfl⟩
      (.cons ⟨rfl, False.elim⟩ .nil) fun ms hms => ?_
    refine key_of_given hms rfl rfl fun _ hend => ?_
    cases hend
    rfl
  | createJob key spec =>
    refine ofJson_of_given h rfl (.inl rfl) ⟨[instancesSlot], rfl⟩
      (.cons ⟨rfl, False.elim⟩ (.cons ⟨rfl, False.elim⟩ .nil)) fun ms hms => ?_
    refine key_of_given hms rfl rfl fun _ hspec => spec_of_given hspec rfl rfl fun _ hend => ?_
    cases hend
    rfl
  | updateJob key spec i =>
    refine ofJson_of_given h rfl (.inl rfl) ⟨[], rfl⟩
      (.cons ⟨rfl, False.elim⟩ (.cons ⟨rfl, False.elim⟩ (.cons ⟨rfl, fun _ => rfl⟩ .nil)))
      fun ms hms => ?_
    refine key_of_given hms rfl rfl fun _ hspec => spec_of_given hspec rfl rfl fun _ hinst => ?_
    refine instances_of_given hinst rfl rfl fun _ instances hend hi => ?_
    cases hend
    rw [← hi]
    rfl
  | cancelUpdate key spec =>
    refine ofJson_of_given h rfl (.inr rfl) ⟨[instancesSlot], rfl⟩
      (.cons ⟨rfl, False.elim⟩ (.cons ⟨rfl, fun _ => rfl⟩ .nil)) fun ms hms => ?_
    refine key_of_given hms rfl rfl fun _ hspec => ?_
    refine maybeSpec_of_given hspec rfl rfl fun _ maybeSpec hend hs => ?_
    cases hend
    rw [← hs]
    rfl
  | restartJob key spec i | deleteJob key spec i =>
    refine ofJson_of_given h rfl (.inr rfl) ⟨[], rfl⟩
      (.cons ⟨rfl, False.elim⟩ (.cons ⟨rfl, fun _ => rfl⟩ (.cons ⟨rfl, fun _ => rfl⟩ .nil)))
      fun ms hms => ?_
    refine key_of_given hms rfl rfl fun _ hspec => ?_
    refine maybeSpec_of_given hspec rfl rfl fun _ maybeSpec hinst hs => ?_
    refine instances_of_given hinst rfl rfl fun _ instances hend hi => ?_
    cases hend
    rw [← hs, ← hi]
    rfl

/-- What stands for a command is read from every spelling as it is decoded. -/
theorem agrees_of_form {c : JobCommand} {v : Json} (h : c.Form Spare v) {depth : Nat}
    (hdepth : 101 ≤ depth) : JobCommand.decoder.Agrees (depth + 1) v := by
  refine InnerUnion.agrees_arranges (fun e he => ⟨fields_ne_tag e he, fun w hw => ?_⟩)
    (fun w hw => ?_) h
  · exact (readable_of_field e he w hw).mono hdepth
  · exact Readable.mono ((Nat.le_succ 100).trans hdepth) hw

end JobCommand

end JobGateway
