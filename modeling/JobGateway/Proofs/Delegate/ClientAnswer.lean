import JobGateway.Proofs.Delegate.ClientCall
import JobGateway.Proofs.Text.Lossy

/-! The answers of a client program. Whether the scheduler agreed is decided on the lines that are
read of what the client wrote; it comes to the same as looking for the words of agreement in the
bytes themselves. -/
namespace JobGateway.Client

variable {σ : Type}

theorem occursIn_iff (part text : List Char) : occursIn part text = true ↔ part <:+: text := by
  induction text with
  | nil => rw [occursIn, List.isEmpty_iff, List.infix_nil]
  | cons c text ih =>
    rw [occursIn, Bool.or_eq_true, List.isPrefixOf_iff_prefix, ih, List.infix_cons_iff]

/-- The bytes of the words by which the scheduler agrees. -/
def agreementBytes : List UInt8 := Utf8.encode agreement.toList

theorem exists_agreement_iff (bytes : List UInt8) :
    (∃ line ∈ Text.lossyLines bytes, occursIn agreement.toList line.toList = true) ↔
      agreementBytes <:+: bytes := by
  simp only [occursIn_iff]
  exact Text.exists_infix_lossyLines_iff (by decide) (by decide) (by decide) (by decide) bytes

/-- The client agrees in one of the lines exactly if it does in the bytes of one of the streams. -/
theorem any_outputLines_iff (output : ProgramOutput) :
    (outputLines output).any (fun line => occursIn agreement.toList line.toList) = true ↔
      agreementBytes <:+: output.stdout ∨ agreementBytes <:+: output.stderr := by
  rw [outputLines, List.any_append, Bool.or_eq_true, List.any_eq_true, List.any_eq_true,
    exists_agreement_iff, exists_agreement_iff]

/-- The client did what was asked. -/
def Agrees (output : ProgramOutput) : Prop :=
  output.exit = .status 0 ∧
    (agreementBytes <:+: output.stdout ∨ agreementBytes <:+: output.stderr)

theorem check_of_agrees {output : ProgramOutput} (h : Agrees output) : check output = .ok () := by
  have hagrees := (any_outputLines_iff output).2 h.2
  simp only [check, hagrees, Exit.isSuccess, h.1, decide_true, Bool.and_self, if_true]

theorem check_of_not_agrees {output : ProgramOutput} (h : ¬ Agrees output) :
    check output = .error (.client CommandError.clientContext (outputLines output)) := by
  refine if_neg fun hboth => h ?_
  rw [Bool.and_eq_true, any_outputLines_iff, Exit.isSuccess, decide_eq_true_eq] at hboth
  exact hboth

/-- A change of jobs is read by whether the client agrees. -/
theorem reading_eq {c : JobCommand} (hc : c.operation ≠ .listJobs) (output : ProgramOutput) :
    ∃ payload, reading c output = (fun _ => payload) <$> check output := by
  cases c with
  | listJobs key => exact absurd rfl hc
  | _ => exact ⟨_, rfl⟩

theorem run_of_start {client : Client σ} {call : ClientCall} {s s' : σ} {output : ProgramOutput}
    (hcommand : ClientCall.isPassable client.command = true) (hcall : call.isPossible = true)
    (hstart : client.start call s = (.ok output, s')) : client.run call s = (.ok output, s') := by
  rw [run, hcommand, hcall, Bool.and_self, if_pos rfl]
  change (Except.mapError _ (client.start call s).1, (client.start call s).2) = _
  rw [hstart]
  rfl

theorem invoke_of_run {client : Client σ} {c : JobCommand} {s s' : σ} {output : ProgramOutput}
    (hrun : client.run (.ofCommand c) s = (.ok output, s')) :
    client.delegate.invoke c s =
      (Outcome.toResult c.jobKey c.operation (.ofExcept (reading c output)), s') := by
  rw [invoke_eq, hrun]
  rfl

/-- What the client wrote, read as text line by line, first of one stream and then of the other. -/
theorem exists_outputLines_eq (output : ProgramOutput) :
    ∃ out err, Lines.Cut '\n' '\r' out ∧ Lines.Cut '\n' '\r' err ∧
      Lines.joined out = Utf8.lossy output.stdout ∧ Lines.joined err = Utf8.lossy output.stderr ∧
      outputLines output = (out ++ err).map fun part => String.ofList part.1 := by
  obtain ⟨out, hout, hjoined⟩ := Lines.exists_cut '\n' '\r' (Utf8.lossy output.stdout)
  obtain ⟨err, herr, hjoined'⟩ := Lines.exists_cut '\n' '\r' (Utf8.lossy output.stderr)
  refine ⟨out, err, hout, herr, hjoined, hjoined', ?_⟩
  rw [outputLines, Text.lossyLines, Text.lossyLines, ← hjoined, ← hjoined', Text.lines_joined hout,
    Text.lines_joined herr, List.map_map, List.map_map, ← List.map_append]
  rfl

theorem invoke_of_agrees {client : Client σ} {c : JobCommand} (hc : c.operation ≠ .listJobs)
    {s s' : σ} {output : ProgramOutput} (hrun : client.run (.ofCommand c) s = (.ok output, s'))
    (h : Agrees output) :
    ∃ payload, client.delegate.invoke c s = (.success c.jobKey payload, s') := by
  obtain ⟨payload, hreading⟩ := reading_eq hc output
  refine ⟨payload, ?_⟩
  rw [invoke_of_run hrun, hreading, check_of_agrees h]
  rfl

theorem invoke_of_not_agrees {client : Client σ} {c : JobCommand} (hc : c.operation ≠ .listJobs)
    {s s' : σ} {output : ProgramOutput} (hrun : client.run (.ofCommand c) s = (.ok output, s'))
    (h : ¬ Agrees output) :
    client.delegate.invoke c s = (⟨c.jobKey, .empty c.operation,
      some (CommandError.clientContext :: outputLines output)⟩, s') := by
  obtain ⟨payload, hreading⟩ := reading_eq hc output
  rw [invoke_of_run hrun, hreading, check_of_not_agrees h]
  rfl

/-- A change of jobs for which the client was started succeeds exactly if the client ends with status
zero and the words of agreement stand in the bytes of one of its two streams. Else it fails, and
reports every line that the client wrote, in order and those of the standard output first. -/
theorem change_succeeds_iff (client : Client σ) (c : JobCommand) (hc : c.operation ≠ .listJobs)
    (s s' : σ) (output : ProgramOutput) (hrun : client.run (.ofCommand c) s = (.ok output, s')) :
    ((client.delegate.invoke c s).1.isSuccess ↔ output.exit = .status 0 ∧
      (agreementBytes <:+: output.stdout ∨ agreementBytes <:+: output.stderr)) ∧
    ((client.delegate.invoke c s).1.isSuccess = false →
      ∃ out err, Lines.Cut '\n' '\r' out ∧ Lines.Cut '\n' '\r' err ∧
        Lines.joined out = Utf8.lossy output.stdout ∧
        Lines.joined err = Utf8.lossy output.stderr ∧
        client.delegate.invoke c s = (⟨c.jobKey, .empty c.operation,
          some ("Error reported by aurora client:" ::
            (out ++ err).map fun part => String.ofList part.1)⟩, s')) := by
  by_cases h : Agrees output
  · obtain ⟨payload, hinvoke⟩ := invoke_of_agrees hc hrun h
    rw [hinvoke]
    exact ⟨iff_of_true rfl h, fun hfailed => Bool.noConfusion hfailed⟩
  · rw [invoke_of_not_agrees hc hrun h]
    obtain ⟨out, err, hout, herr, hjoined, hjoined', hlines⟩ := exists_outputLines_eq output
    refine ⟨iff_of_false Bool.false_ne_true h, fun _ => ?_⟩
    exact ⟨out, err, hout, herr, hjoined, hjoined', by rw [hlines]; rfl⟩

/-- A delete for which the client agrees on its error stream, amid bytes that are no text, and one
for which it says the words on neither stream but on both together. -/
theorem deletes_answered_amid_junk :
    let c := JobCommand.deleteJob (.full "c" "r" "e" "n") none ⟨[]⟩
    let agreed : ProgramOutput := ⟨[0xC3], 0xE2 :: agreementBytes ++ [0xFF, 0x0D], .status 0⟩
    let parted : ProgramOutput := ⟨agreementBytes.take 20, agreementBytes.drop 20, .status 0⟩
    c.operation ≠ .listJobs ∧
      (scripted [agreed] "fake-aurora").run (.ofCommand c) [] = (.ok agreed, [.ofCommand c]) ∧
      (scripted [parted] "fake-aurora").run (.ofCommand c) [] = (.ok parted, [.ofCommand c]) ∧
      ((scripted [agreed] "fake-aurora").delegate.invoke c []).1.isSuccess = true ∧
      ((scripted [parted] "fake-aurora").delegate.invoke c []).1.isSuccess = false := by
  intro c agreed parted
  have hc : c.operation ≠ .listJobs := by decide
  have hname : ClientCall.isPassable "fake-aurora" = true := by decide +kernel
  have hrun (output : ProgramOutput) : (scripted [output] "fake-aurora").run (.ofCommand c) [] =
      (.ok output, [.ofCommand c]) :=
    run_of_start hname (by decide +kernel) rfl
  refine ⟨hc, hrun agreed, hrun parted, ?_, ?_⟩
  · exact (change_succeeds_iff _ c hc [] _ agreed (hrun agreed)).1.2
      ⟨rfl, .inr (by decide +kernel)⟩
  · have hrefused := (change_succeeds_iff _ c hc [] _ parted (hrun parted)).1
    exact Bool.eq_false_iff.2 fun h => absurd (hrefused.1 h).2 (by decide +kernel)

end JobGateway.Client
