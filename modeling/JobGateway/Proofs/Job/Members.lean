import JobGateway.Proofs.Job.Content
import JobGateway.Proofs.Json.Dissection

/-! The members of what is decoded to a job key or a command. None of the known ones occurs twice,
and a key has environment and name together or neither. -/
namespace JobGateway

open Json

namespace JobKey

variable {k : JobKey} {v : Json}

theorem of_ofJson (h : JobKey.decoder.ofJson v = .ok k) :
    record.decoder.ofJson v = .ok k.raw := by
  obtain ⟨⟨c, r, e, n⟩, hrecord, hparts⟩ := bind_eq_ok h
  rw [hrecord]
  cases e <;> cases n <;> cases hparts <;> rfl

/-- No known member of a key occurs twice in an object. -/
theorem count_member (h : JobKey.decoder.ofJson v = .ok k) {ms : List (String × Json)}
    (hv : v = .object ms) : ∀ name ∈ memberNames, (ms.map (·.1)).count name ≤ 1 := by
  obtain ⟨ms', state, hfold, -, hms, -⟩ := Record.exists_members record_lawful (of_ofJson h)
  obtain rfl := hms ms hv
  have hslots : memberNames = record.slots.map (·.name) := rfl
  rw [hslots, List.forall_mem_map]
  exact fun slot hslot => Record.count_le_one record_lawful hslot hfold

theorem of_build {parts : Parts} (h : record.build parts = .ok k.raw) :
    parts.environment.getD none = k.environment? ∧ parts.name.getD none = k.name? := by
  obtain ⟨c, -, h⟩ := bind_eq_ok h
  obtain ⟨r, -, h⟩ := bind_eq_ok h
  injection h with h
  simp only [JobKey.raw, Prod.mk.injEq] at h
  exact h.2.2

/-- The environment is given, and not as null, exactly if the key is a full one; so is the name. -/
theorem given_iff (h : JobKey.decoder.ofJson v = .ok k) :
    ((∃ w, Holds "environment" 2 w v ∧ w ≠ .null) ↔ k.isFull = true) ∧
    ((∃ w, Holds "name" 3 w v ∧ w ≠ .null) ↔ k.isFull = true) := by
  obtain ⟨ms, parts, hfold, hbuild, -, hholds⟩ := Record.exists_members record_lawful (of_ofJson h)
  obtain ⟨henvironment, hname⟩ := of_build hbuild
  have hslots : Slot.keeping "environment" true (.option .string) (·.environment)
      (fun v (parts : Parts) => { parts with environment := some v }) ∈ record.slots ∧
    Slot.keeping "name" true (.option .string) (·.name)
      (fun v (parts : Parts) => { parts with name := some v }) ∈ record.slots := by
    simp [record]
  have hgiven := Record.isSome_get_iff record_lawful hslots.1 (fun _ _ => rfl) hfold
  have hgiven' := Record.isSome_get_iff record_lawful hslots.2 (fun _ _ => rfl) hfold
  rw [henvironment] at hgiven
  rw [hname] at hgiven'
  constructor
  · have hplace : ∀ w, Holds "environment" 2 w v ↔ ("environment", w) ∈ ms := hholds 2 _ rfl
    simp only [hplace]
    refine hgiven.symm.trans ?_
    cases k <;> simp [environment?, isFull]
  · have hplace : ∀ w, Holds "name" 3 w v ↔ ("name", w) ∈ ms := hholds 3 _ rfl
    simp only [hplace]
    refine hgiven'.symm.trans ?_
    cases k <;> simp [name?, isFull]

/-- In the text of a key no known member occurs twice. -/
theorem once_member {t : List Char} (hv : Denotes t v) (h : JobKey.decoder.ofJson v = .ok k)
    {ms : List (List Char × List Char)} (hms : IsObjectOf ms t) :
    ∀ name ∈ memberNames, Once name ms := by
  obtain ⟨vs, rfl, hkept⟩ := hms.denotes hv
  exact fun name hname => hkept.once not_false (count_member h rfl name hname)

/-- In the text of a key environment and name are given together, and not as null, or neither is. -/
theorem given_together {t : List Char} (hv : Denotes t v) (h : JobKey.decoder.ofJson v = .ok k) :
    (∃ u, HasPart "environment" 2 t u ∧ ¬ IsNull u) ↔ ∃ u, HasPart "name" 3 t u ∧ ¬ IsNull u := by
  have htext : ∀ {name name' : String} {i i' : Nat},
      ((∃ w, Holds name i w v ∧ w ≠ .null) → ∃ w, Holds name' i' w v ∧ w ≠ .null) →
      (∃ u, HasPart name i t u ∧ ¬ IsNull u) → ∃ u, HasPart name' i' t u ∧ ¬ IsNull u := by
    rintro name name' i i' himp ⟨u, hpart, hnull⟩
    obtain ⟨w, hw, hdenotes⟩ := hpart.exists_value hv
    obtain ⟨w', hw', hne⟩ := himp ⟨w, hw, fun h => hnull ((hdenotes.eq_null_iff hpart.isValue).1 h)⟩
    obtain ⟨u', hpart', hdenotes'⟩ := hpart.exists_text hv hw'
    exact ⟨u', hpart', fun h => hne ((hdenotes'.eq_null_iff hpart'.isValue).2 h)⟩
  have hgiven := (given_iff h).1.trans (given_iff h).2.symm
  exact ⟨htext hgiven.1, htext hgiven.2⟩

end JobKey

namespace JobCommand

variable {c : JobCommand} {content : Json}

theorem of_variant {title : String} {slots : List (Slot Parts)}
    {build : Parts → Except Mismatch JobCommand}
    {spec : Slot Parts} (hspec : spec = specSlot ∨ spec = maybeSpecSlot)
    (hslots : slots <+: [keySlot, spec, instancesSlot]) (hkey : slots[0]? = some keySlot)
    (hbuild : ∀ parts, build parts = .ok c →
      parts.key = some c.key ∧ c.memberNames = union.tag :: slots.map (·.name))
    (h : variant title slots build content = .ok c) :
    (∀ ms, content = .object ms → ∀ name ∈ c.memberNames, name ≠ union.tag →
      (ms.map (·.1)).count name ≤ 1) ∧
      ∀ w, Holds "key" 0 w content → JobKey.decoder.ofJson w = .ok c.key := by
  have hlawful := slots_lawful hspec hslots title build
  obtain ⟨ms, parts, hfold, hparts, hms, hholds⟩ :=
    Record.exists_members (r := variantRecord title slots build) hlawful h
  obtain ⟨hc, hnames⟩ := hbuild parts hparts
  constructor
  · rintro ms' hcontent name hname hne
    obtain rfl := hms ms' hcontent
    rw [hnames] at hname
    obtain ⟨slot, hslot, rfl⟩ := List.mem_map.1 (List.mem_of_ne_of_mem hne hname)
    exact Record.count_le_one hlawful hslot hfold
  · intro w hw
    have hmem : ("key", w) ∈ ms := (hholds 0 keySlot hkey w).1 hw
    obtain ⟨key, hdecode, hget⟩ := Record.get_of_mem hlawful (List.mem_of_getElem? hkey)
      (fun _ _ => rfl) hfold hmem
    rw [hc] at hget
    cases hget
    exact hdecode

/-- No known member of a command occurs twice among those that are left without the tag, and the key
is decoded from the member or item that it has there. -/
theorem of_variants {name : String} {decode : Json → Except Mismatch JobCommand}
    (hmem : (name, decode) ∈ union.variants) (h : decode content = .ok c) :
    (∀ ms, content = .object ms → ∀ name ∈ c.memberNames, name ≠ union.tag →
      (ms.map (·.1)).count name ≤ 1) ∧
      ∀ w, Holds "key" 0 w content → JobKey.decoder.ofJson w = .ok c.key := by
  simp only [union, List.mem_cons, Prod.mk.injEq, List.not_mem_nil, or_false] at hmem
  obtain ⟨-, rfl⟩ | ⟨-, rfl⟩ | ⟨-, rfl⟩ | ⟨-, rfl⟩ | ⟨-, rfl⟩ | ⟨-, rfl⟩ := hmem
  · refine of_variant (.inl rfl) ⟨[specSlot, instancesSlot], rfl⟩ rfl (fun parts hc => ?_) h
    obtain ⟨key, hkey, hc⟩ := bind_eq_ok hc
    cases hc
    exact ⟨required_eq_ok hkey, rfl⟩
  · refine of_variant (.inl rfl) ⟨[instancesSlot], rfl⟩ rfl (fun parts hc => ?_) h
    obtain ⟨key, hkey, hc⟩ := bind_eq_ok hc
    obtain ⟨spec, -, hc⟩ := bind_eq_ok hc
    cases hc
    exact ⟨required_eq_ok hkey, rfl⟩
  · refine of_variant (.inl rfl) ⟨[], rfl⟩ rfl (fun parts hc => ?_) h
    obtain ⟨key, hkey, hc⟩ := bind_eq_ok hc
    obtain ⟨spec, -, hc⟩ := bind_eq_ok hc
    cases hc
    exact ⟨required_eq_ok hkey, rfl⟩
  · refine of_variant (.inr rfl) ⟨[instancesSlot], rfl⟩ rfl (fun parts hc => ?_) h
    obtain ⟨key, hkey, hc⟩ := bind_eq_ok hc
    cases hc
    exact ⟨required_eq_ok hkey, rfl⟩
  · refine of_variant (.inr rfl) ⟨[], rfl⟩ rfl (fun parts hc => ?_) h
    obtain ⟨key, hkey, hc⟩ := bind_eq_ok hc
    cases hc
    exact ⟨required_eq_ok hkey, rfl⟩
  · refine of_variant (.inr rfl) ⟨[], rfl⟩ rfl (fun parts hc => ?_) h
    obtain ⟨key, hkey, hc⟩ := bind_eq_ok hc
    cases hc
    exact ⟨required_eq_ok hkey, rfl⟩

section Text

variable {d : Nat} {x y t rest : List Char}

/-- In the text of a command no known member occurs twice. -/
theorem once_member (h : JobCommand.decoder.read d x = .ok c y) (hsame : peek x = peek (t ++ rest))
    {ms : List (List Char × List Char)} (hms : IsObjectOf ms t) :
    ∀ name ∈ c.memberNames, Once name ms := by
  obtain ⟨htag, _, decode, vs, hmem, hc, hkept⟩ := InnerUnion.read_object h hsame hms
  intro name hname
  by_cases hne : name = union.tag
  · rw [hne]
    exact htag
  · exact hkept.once hne ((of_variants hmem hc).1 vs rfl name hname hne)

/-- The text of the key of a command denotes a value that is decoded to the key. -/
theorem key_of_part (h : JobCommand.decoder.read d x = .ok c y) (hsame : peek x = peek (t ++ rest))
    {k : List Char} (hk : HasPart "key" 1 t k) :
    ∃ v, Denotes k v ∧ JobKey.decoder.ofJson v = .ok c.key := by
  obtain ⟨name, decode, content, v, hmem, hc, hv, hdenotes⟩ :=
    InnerUnion.read_part h hsame hk (by decide)
  exact ⟨v, hdenotes, (of_variants hmem hc).2 v hv⟩

end Text

end JobCommand

end JobGateway
