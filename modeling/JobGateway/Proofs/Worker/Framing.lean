import JobGateway.Proofs.Json.Stability
import JobGateway.Proofs.Text.Blank
import JobGateway.Proofs.Worker.Loop
import JobGateway.Proofs.Worker.Process

/-! Lines between a gateway and its worker processes. A message is one line that is not blank,
whatever texts it holds, so a worker reads as many requests as were written. A reply that ends too
early and one with more text behind it on its line are never taken for a result. -/
namespace JobGateway

open Json

/-- What a process may write that ends before its reply does: a part of the line from its front,
and then nothing more, or a line feed and anything. -/
inductive IsCutOff (reply : WorkerReply) : List UInt8 → Prop
  | ended {bytes missing : List UInt8} (hne : missing ≠ [])
    (h : bytes ++ missing = Utf8.encode reply.toJson.render) : IsCutOff reply bytes
  | line {bytes missing : List UInt8} (hne : missing ≠ [])
    (h : bytes ++ missing = Utf8.encode reply.toJson.render) (rest : List UInt8) :
    IsCutOff reply (bytes ++ 10 :: rest)

/-- What a process may write that goes on behind its reply on the same line, not with blanks alone,
and then nothing more, or a line feed and anything. -/
inductive IsGlued (reply : WorkerReply) : List UInt8 → Prop
  | ended {further : List UInt8} (hline : 10 ∉ further)
    (h : ∀ text, further = Utf8.encode text → Text.allBlank text = false) :
    IsGlued reply (Utf8.encode reply.toJson.render ++ further)
  | line {further : List UInt8} (hline : 10 ∉ further)
    (h : ∀ text, further = Utf8.encode text → Text.allBlank text = false) (rest : List UInt8) :
    IsGlued reply (Utf8.encode reply.toJson.render ++ further ++ 10 :: rest)

theorem isBlank_of_isSpace {c : Char} (h : isSpace c = true) : Text.isBlank c = true := by
  simp only [isSpace, Bool.or_eq_true, beq_iff_eq] at h
  obtain ((rfl | rfl) | rfl) | rfl := h <;> rfl

theorem firstLine_of_not_mem {bytes : List UInt8} (h : 10 ∉ bytes) :
    firstLine bytes = (bytes, []) := by
  induction bytes with
  | nil => rfl
  | cons b bytes ih =>
    rw [List.mem_cons, not_or] at h
    rw [firstLine, if_neg (Ne.symm h.1), ih h.2]

namespace WorkerReply

variable {reply reply' : WorkerReply}

/-- A text that is a reply is a value that is skipped, up to blanks. -/
theorem exists_of_decode {text : List Char}
    (h : WorkerReply.decoder.decode (String.ofList text) = .ok reply) :
    ∃ rest, skipValue text = .ok () rest ∧ ∀ c ∈ rest, isSpace c = true := by
  obtain ⟨rest, hread, hblank⟩ := exists_blank_of_readAll h
  rw [String.toList_ofList] at hread
  exact ⟨rest, (InnerUnion.decoder_spans union maxDepth).skipValue hread, hblank⟩

/-- The text of a reply is skipped as one value in brackets. -/
theorem exists_render (reply : WorkerReply) :
    ∃ t, reply.toJson.render = '\x7b' :: t ∧ skipValue ('\x7b' :: t) = .ok () [] := by
  obtain ⟨ms, hms⟩ := reply.toJson_eq_object
  obtain ⟨t, ht⟩ := render_object ms
  have hskip := skipValue_of_spells (spells_render reply.plain_toJson) [] stops_nil
  rw [List.append_nil, hms, ht] at hskip
  exact ⟨t ++ ['\x7d'], by rw [hms, ht], hskip⟩

/-- A part of the text of a reply is no reply. -/
theorem decode_cutOff {text missing : List Char} (hne : missing ≠ [])
    (h : text ++ missing = reply.toJson.render) :
    WorkerReply.decoder.decode (String.ofList (Text.trimRight text)) ≠ .ok reply' := by
  intro hdecode
  obtain ⟨rest, hskip, -⟩ := exists_of_decode hdecode
  obtain ⟨t, hrender, hwhole⟩ := reply.exists_render
  obtain ⟨blanks, hblanks⟩ := Text.trimRight_isPrefix text
  rw [hrender, ← hblanks, List.append_assoc] at h
  rw [← h] at hwhole
  cases htrim : Text.trimRight text with
  | nil =>
    rw [htrim] at hskip
    cases hskip
  | cons c u =>
    rw [htrim] at h hskip hwhole
    obtain rfl : c = '\x7b' := by
      rw [List.cons_append] at h
      exact List.head_eq_of_cons_eq h
    have hnil := eq_nil_of_skipValue (fun _ => rfl) hskip hwhole
    exact hne (List.append_eq_nil_iff.1 hnil).2

/-- The text of a reply with more behind it is no reply. -/
theorem decode_glued {further : List Char} (h : Text.allBlank further = false) :
    WorkerReply.decoder.decode (String.ofList (Text.trimRight (reply.toJson.render ++ further))) ≠
      .ok reply' := by
  intro hdecode
  obtain ⟨rest, hskip, hblank⟩ := exists_of_decode hdecode
  obtain ⟨t, hrender, hwhole⟩ := reply.exists_render
  rw [Text.trimRight_append _ h, hrender, skipValue_append (fun _ => rfl) hwhole] at hskip
  injection hskip with _ hrest
  obtain ⟨c, hc, hnot⟩ := Text.exists_not_isBlank h
  rw [List.nil_append] at hrest
  rw [hrest] at hc
  rw [isBlank_of_isSpace (hblank c hc)] at hnot
  cases hnot

/-- A part of the bytes of a reply is no reply, with a line feed behind it or without. -/
theorem not_reads_cutOff {bytes missing : List UInt8} (hne : missing ≠ [])
    (h : bytes ++ missing = Utf8.encode reply.toJson.render) :
    ¬ Reads bytes reply' ∧ ¬ Reads (bytes ++ [10]) reply' := by
  have htext : ∀ text, bytes = Utf8.encode text →
      WorkerReply.decoder.decode (String.ofList (Text.trimRight text)) ≠ .ok reply' := by
    rintro text rfl
    obtain ⟨more, hmore, rfl⟩ := Utf8.eq_append_of_encode h
    refine decode_cutOff ?_ hmore.symm
    rintro rfl
    exact hne rfl
  constructor
  · rintro ⟨text, hbytes, hdecode⟩
    exact htext text hbytes hdecode
  · rintro ⟨text, hbytes, hdecode⟩
    obtain ⟨text, rfl, hfront⟩ := Utf8.eq_lineFeed_of_encode hbytes
    rw [Text.trimRight_append_blank text (rfl : Text.allBlank ['\n'] = true)] at hdecode
    exact htext text hfront hdecode

theorem not_reads_glued {further : List UInt8}
    (h : ∀ text, further = Utf8.encode text → Text.allBlank text = false) :
    ¬ Reads (Utf8.encode reply.toJson.render ++ further) reply' ∧
      ¬ Reads (Utf8.encode reply.toJson.render ++ further ++ [10]) reply' := by
  have htext : ∀ text, Utf8.encode reply.toJson.render ++ further = Utf8.encode text →
      WorkerReply.decoder.decode (String.ofList (Text.trimRight text)) ≠ .ok reply' := by
    intro text hbytes
    obtain ⟨more, rfl, hmore⟩ := Utf8.eq_append_of_encode hbytes
    exact decode_glued (h more hmore)
  constructor
  · rintro ⟨text, hbytes, hdecode⟩
    exact htext text hbytes hdecode
  · rintro ⟨text, hbytes, hdecode⟩
    obtain ⟨text, rfl, hfront⟩ := Utf8.eq_lineFeed_of_encode hbytes
    rw [Text.trimRight_append_blank text (rfl : Text.allBlank ['\n'] = true)] at hdecode
    exact htext text hfront hdecode

theorem lineFeed_not_mem_render (reply : WorkerReply) : 10 ∉ Utf8.encode reply.toJson.render :=
  lineFeed_not_mem (isLine_render reply.plain_toJson)

theorem firstLine_cutOff {written : List UInt8} (h : IsCutOff reply written) (reply' : WorkerReply) :
    ¬ Reads (firstLine written).1 reply' := by
  have hfeed : ∀ {bytes missing : List UInt8},
      bytes ++ missing = Utf8.encode reply.toJson.render → 10 ∉ bytes := by
    intro bytes missing h hmem
    exact reply.lineFeed_not_mem_render (h ▸ List.mem_append_left missing hmem)
  cases h with
  | ended hne h =>
    rw [firstLine_of_not_mem (hfeed h)]
    exact (not_reads_cutOff hne h).1
  | line hne h rest =>
    rw [firstLine_append (hfeed h)]
    exact (not_reads_cutOff hne h).2

theorem firstLine_glued {written : List UInt8} (h : IsGlued reply written) (reply' : WorkerReply) :
    ¬ Reads (firstLine written).1 reply' := by
  have hfeed : ∀ {further : List UInt8}, 10 ∉ further →
      10 ∉ Utf8.encode reply.toJson.render ++ further := by
    intro further hline
    rw [List.mem_append, not_or]
    exact ⟨reply.lineFeed_not_mem_render, hline⟩
  cases h with
  | ended hline h =>
    rw [firstLine_of_not_mem (hfeed hline)]
    exact (not_reads_glued h).1
  | line hline h rest =>
    rw [firstLine_append (hfeed hline)]
    exact (not_reads_glued h).2

end WorkerReply

namespace Worker

theorem request?_toJson {r : WorkerRequest} {j : Json} (h : r.toJson = .ok j) :
    request? j.render = some r := by
  have hdecode := WorkerRequest.decode_toJson h
  rw [text] at hdecode
  exact request?_eq_some_iff.2 hdecode

/-- The lines of requests are those that were written, and each is read as the request it was. -/
theorem lines_toJson {requests : List WorkerRequest} {messages : List Json}
    (h : List.Forall₂ (fun r j => r.toJson = .ok j) requests messages) :
    inputLines (Utf8.encode (page (messages.map render))) =
        messages.map (fun j => Utf8.encode j.render) ∧
      messages.map (fun j => request? j.render) = requests.map some := by
  have hlines : ∀ line ∈ messages.map render, IsLine line := by
    induction h with
    | nil => simp
    | cons hr _ ih =>
      rw [List.map_cons, List.forall_mem_cons]
      exact ⟨(toJson_line hr).1, ih⟩
  constructor
  · rw [inputLines_page hlines, List.map_map]
    rfl
  · clear hlines
    induction h with
    | nil => rfl
    | cons hr _ ih => rw [List.map_cons, List.map_cons, request?_toJson hr, ih]

end Worker

/-- A process whose line is no reply has not answered. -/
theorem WorkerProcess.call_of_not_reads {ε π : Type} (program : WorkerProgram ε π) (id : Uuid)
    (line : String) {process : WorkerProcess π} {own : π} (hown : process.state = some own)
    (shared : ε)
    (h : ∀ reply, ¬ Reads
      (firstLine (process.unread ++
        (program.receive process.unread line own shared).1.written)).1 reply) :
    ∃ e, (process.call program id line shared).1.1 = .error e ∧ e.IsOfWorker := by
  obtain ⟨state, unread⟩ := process
  cases hown
  rw [call_running]
  exact acceptLine_of_not_reads h id

/-- Every message that can be written is one line without control characters, and not a blank one. So
a worker that is sent requests, one on each line, reads those requests and answers them. A process
that writes less than the line of a reply, or more than blanks behind it, fails whatever it was asked:
nothing that it wrote is taken for a result. -/
theorem lines_are_messages :
    (∀ (r : WorkerRequest) (j : Json), r.toJson = .ok j →
      (∀ b ∈ Utf8.encode j.render, 0x20 ≤ b.toNat) ∧ Text.allBlank j.render = false) ∧
    (∀ reply : WorkerReply,
      (∀ b ∈ Utf8.encode reply.toJson.render, 0x20 ≤ b.toNat) ∧
        Text.allBlank reply.toJson.render = false) ∧
    (∀ (requests : List WorkerRequest) (messages : List Json),
      List.Forall₂ (fun r j => r.toJson = .ok j) requests messages →
      let input := Utf8.encode (Worker.page (messages.map render))
      Worker.inputLines input = messages.map (fun j => Utf8.encode j.render) ∧
      messages.map (fun j => Worker.request? j.render) = requests.map some ∧
      ∀ (σ : Type) (d : Delegate σ) (s : σ),
        let run := (requests.map (·.command)).mapM d.invoke s
        ∃ out, Worker.serve d none input s = ((out, .inputEnded), run.2) ∧
          out.text = Worker.page (List.zipWith
            (fun r result => (WorkerReply.done r.id result).toJson.render) requests run.1)) ∧
    ∀ (ε π : Type) (program : WorkerProgram ε π) (id : Uuid) (line : String)
      (process : WorkerProcess π) (own : π) (shared : ε) (reply : WorkerReply),
      process.state = some own →
      let written := process.unread ++ (program.receive process.unread line own shared).1.written
      IsCutOff reply written ∨ IsGlued reply written →
      ∃ e, (process.call program id line shared).1.1 = .error e ∧ e.IsOfWorker := by
  refine ⟨fun r j h => ?_, fun reply => ?_, fun requests messages h => ?_,
    fun ε π program id line process own shared reply hown h => ?_⟩
  · obtain ⟨hline, hblank⟩ := Worker.toJson_line h
    exact ⟨fun b => Utf8.ge_of_mem_encode hline, hblank⟩
  · obtain ⟨ms, hms⟩ := reply.toJson_eq_object
    have hline := isLine_render reply.plain_toJson
    refine ⟨fun b => Utf8.ge_of_mem_encode hline, ?_⟩
    rw [hms]
    exact Worker.allBlank_render_object ms
  · obtain ⟨hlines, hrequests⟩ := Worker.lines_toJson h
    exact ⟨hlines, hrequests, fun σ d s => Worker.serve_requests h s⟩
  · apply WorkerProcess.call_of_not_reads program id line hown
    obtain h | h := h
    · exact WorkerReply.firstLine_cutOff h
    · exact WorkerReply.firstLine_glued h

/-- A request with a line feed in its specification; a reply that ends within a character, and one
that is written twice on a line. -/
theorem torn_and_doubled :
    (∃ j, (WorkerRequest.mk (.numbered 7) (.createJob (.role "c" "r") ⟨[10]⟩)).toJson = .ok j ∧
      ∀ b ∈ Utf8.encode j.render, 0x20 ≤ b.toNat) ∧
    let reply := WorkerReply.rejected none "é"
    let line := Utf8.encode reply.toJson.render
    let writing (written : List UInt8) : WorkerProgram Unit Unit :=
      ⟨"worker", pure (.ok ()), fun _ _ _ => pure (.last written)⟩
    (∃ e, (WorkerProcess.call (writing (line.take 41)) (.numbered 7) "" ⟨some (), []⟩ ()).1.1 =
      .error e ∧ e.IsOfWorker) ∧
    ∃ e, (WorkerProcess.call (writing (line ++ line ++ [10])) (.numbered 7) "" ⟨some (), []⟩
      ()).1.1 = .error e ∧ e.IsOfWorker := by
  have htext : (JobCommand.createJob (.role "c" "r") ⟨[10]⟩).HasText := by
    rintro spec ⟨⟩
    exact ⟨['\n'], rfl⟩
  obtain ⟨command, hcommand⟩ := JobCommand.hasText_iff.1 htext
  obtain ⟨j, hj⟩ := WorkerRequest.exists_toJson (.numbered 7) hcommand
  refine ⟨⟨j, hj, (lines_are_messages.1 _ j hj).1⟩, ?_, ?_⟩
  · exact lines_are_messages.2.2.2 Unit Unit _ _ _ _ () () (.rejected none "é") rfl
      (.inl (.ended (by decide) (List.take_append_drop 41 _)))
  · refine lines_are_messages.2.2.2 Unit Unit _ _ _ _ () () (.rejected none "é") rfl
      (.inr (.line ?_ ?_ []))
    · decide
    · intro text htext
      have hdecode := Utf8.decode_eq_ok_iff.2 htext
      rw [Utf8.decode_encode] at hdecode
      cases hdecode
      rfl

end JobGateway
