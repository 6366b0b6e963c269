import JobGateway.Delegate.Config
import JobGateway.Proofs.Json.Decoding
import JobGateway.Proofs.Json.Printing

/-! Delegate configurations as arguments of a program. The argument tells the configuration, whatever
characters the name of the client has; only a blank name is refused when it is read. -/
namespace JobGateway.DelegateConfig

open Json

/-- A configuration whose client, if it is of one, has a name that is not blank. -/
def IsNamed : DelegateConfig → Prop
  | .client command => ∃ c ∈ command.toList, Text.isBlank c = false
  | .table => True

theorem isValid_iff {config : DelegateConfig} : config.isValid = true ↔ config.IsNamed := by
  cases config with
  | client command => simp [isValid, IsNamed, Text.allBlank]
  | table => exact iff_of_true rfl trivial

theorem ofJson_toJson (config : DelegateConfig) : union.decoder.ofJson config.toJson = .ok config := by
  cases config with
  | client command =>
    have hcommand : Decoder.string.ofJson (.string command) = .ok command := rfl
    have hvariant : union.variants.lookup "cli" = some clientRecord.decoder.ofJson := rfl
    have htag : ∀ m ∈ [("command", Json.string command)], m.1 ≠ union.tag := by
      intro m hm
      obtain rfl := List.mem_singleton.1 hm
      exact (by decide : "command" ≠ "kind")
    refine (InnerUnion.ofJson_tagged hvariant htag).trans ?_
    change (do clientRecord.build (← List.foldlM clientRecord.addMember clientRecord.start _)) = _
    rw [Record.foldlM_member rfl rfl (Slot.keeping_ofJson hcommand ..)]
    rfl
  | table =>
    have hvariant : union.variants.lookup "memory" = some (unitVariant .table) := rfl
    exact InnerUnion.ofJson_tagged hvariant fun m hm => absurd hm List.not_mem_nil

theorem plain_toJson (config : DelegateConfig) : Plain 1 config.toJson := by
  cases config <;> simp [toJson]

/-- A written configuration is read from its text. -/
theorem decode_argument (config : DelegateConfig) :
    union.decoder.decode config.argument = .ok config := by
  refine Decoder.decode_text (config.plain_toJson.mono (by decide)) ?_ config.ofJson_toJson
  change union.decoder.Agrees (126 + 1) _
  cases config <;> exact InnerUnion.agrees_object (by simp) (by simp)

/-- An argument is read as the configuration that was written, unless its client has no name. -/
theorem ofArgument_argument (config : DelegateConfig) : ofArgument config.argument =
    if config.isValid then .ok config else .error .emptyCommand := by
  rw [ofArgument, decode_argument]
  rfl

theorem ofArgument_of_isNamed {config : DelegateConfig} (h : config.IsNamed) :
    ofArgument config.argument = .ok config := by
  rw [ofArgument_argument, if_pos (isValid_iff.2 h)]

theorem ofArgument_of_not_isNamed {config : DelegateConfig} (h : ¬ config.IsNamed) :
    ofArgument config.argument = .error .emptyCommand := by
  rw [ofArgument_argument, if_neg fun hvalid => h (isValid_iff.1 hvalid)]

/-- An argument has no control characters, and can be passed to a program. -/
theorem isLine_argument (config : DelegateConfig) : IsLine config.argument.toList := by
  rw [argument, Json.text, String.toList_ofList]
  exact isLine_render config.plain_toJson

/-- An argument begins with a brace, so it is not taken for an option. -/
theorem exists_argument_eq (config : DelegateConfig) :
    ∃ rest, config.argument.toList = '\x7b' :: rest := by
  rw [argument, Json.text, String.toList_ofList]
  cases config with
  | client command =>
    obtain ⟨t, ht⟩ := render_object [("kind", .string "cli"), ("command", .string command)]
    exact ⟨_, ht⟩
  | table =>
    obtain ⟨t, ht⟩ := render_object [("kind", .string "memory")]
    exact ⟨_, ht⟩

end JobGateway.DelegateConfig
