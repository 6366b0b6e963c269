import JobGateway.Proofs.Json.Printing
import JobGateway.Proofs.Text.Lines
import JobGateway.Proofs.Worker.Message
import JobGateway.Worker.Program

/-! A request and its reply between a gateway and a worker process that serves a delegate. Both are
single lines, so the process reads the request that was sent, runs it once on its own delegate, and
the gateway takes its reply for the result. -/
namespace JobGateway

open Json

theorem mapM_cons_state {σ α β : Type} (f : α → StateM σ β) (a : α) (as : List α) (s : σ) :
    (a :: as).mapM f s =
      ((f a s).1 :: (as.mapM f (f a s).2).1, (as.mapM f (f a s).2).2) := by
  rw [List.mapM_cons]
  rfl

theorem mapM_append_state {σ α β : Type} (f : α → StateM σ β) (as bs : List α) (s : σ) :
    (as ++ bs).mapM f s =
      ((as.mapM f s).1 ++ (bs.mapM f (as.mapM f s).2).1, (bs.mapM f (as.mapM f s).2).2) := by
  rw [List.mapM_append]
  rfl

theorem length_mapM_state {σ α β : Type} (f : α → StateM σ β) (as : List α) (s : σ) :
    (as.mapM f s).1.length = as.length := by
  induction as generalizing s with
  | nil => rfl
  | cons a as ih => rw [mapM_cons_state, List.length_cons, ih, List.length_cons]

/-- A result in its place comes from the state to which everything before it leads. -/
theorem exists_of_mem_zip_mapM {σ α β γ : Type} {f : α → StateM σ β} {g : γ → α} {as : List γ} {s : σ}
    {a : γ} {b : β} (h : (a, b) ∈ as.zip ((as.map g).mapM f s).1) :
    ∃ before after, as = before ++ a :: after ∧ b = (f (g a) ((before.map g).mapM f s).2).1 := by
  induction as generalizing s with
  | nil => cases h
  | cons first as ih =>
    rw [List.map_cons, mapM_cons_state, List.zip_cons_cons] at h
    obtain h | h := List.mem_cons.1 h
    · cases h
      exact ⟨[], as, rfl, rfl⟩
    · obtain ⟨before, after, rfl, rfl⟩ := ih h
      exact ⟨first :: before, after, rfl, by rw [List.map_cons, mapM_cons_state]⟩

theorem firstLine_append {bs : List UInt8} (h : 10 ∉ bs) (rest : List UInt8) :
    firstLine (bs ++ 10 :: rest) = (bs ++ [10], rest) := by
  induction bs with
  | nil => rfl
  | cons b bs ih =>
    rw [List.mem_cons, not_or] at h
    rw [List.cons_append, firstLine, if_neg (Ne.symm h.1), ih h.2]
    rfl

theorem lineFeed_not_mem {t : List Char} (h : IsLine t) : 10 ∉ Utf8.encode t := by
  intro hmem
  have := Utf8.ge_of_mem_encode h hmem
  simp at this

theorem firstLine_encode {t : List Char} (h : IsLine t) :
    firstLine (Utf8.encode (t ++ ['\n'])) = (Utf8.encode (t ++ ['\n']), []) := by
  rw [Utf8.encode_append]
  exact firstLine_append (lineFeed_not_mem h) []

/-- The blank behind a reply is no part of it. -/
theorem trimRight_object (ms : List (String × Json)) :
    Text.trimRight (render (.object ms) ++ ['\n']) = render (.object ms) := by
  obtain ⟨t, ht⟩ := render_object ms
  have hblank : Text.isBlank '\n' = true := rfl
  have hclose : Text.isBlank '\x7d' = false := rfl
  simp [Text.trimRight, ht, hblank, hclose]

namespace WorkerReply

theorem toJson_eq_object (reply : WorkerReply) : ∃ ms, reply.toJson = .object ms := by
  cases reply <;> exact ⟨_, rfl⟩

/-- The line of a reply is taken for the reply. -/
theorem acceptLine_toJson (reply : WorkerReply) (id : Uuid) :
    acceptLine id (Utf8.encode (reply.toJson.render ++ ['\n'])) = reply.accept id := by
  obtain ⟨ms, hms⟩ := reply.toJson_eq_object
  have hne : (Utf8.encode (reply.toJson.render ++ ['\n'])).isEmpty = false := by
    rw [Utf8.encode_append]
    simp
  have hdecode := reply.decode_toJson
  rw [acceptLine, hne]
  simp only [Bool.false_eq_true, if_false, Utf8.decode_encode]
  rw [hms, trimRight_object, ← hms]
  rw [text] at hdecode
  simp only [hdecode]

theorem accept_done (id : Uuid) (result : JobResult) : (done id result).accept id = .ok result :=
  if_pos rfl

end WorkerReply

namespace Worker

variable {σ : Type} {d : Delegate σ}

/-- A worker runs the request of a line. -/
theorem reply_toJson {r : WorkerRequest} {j : Json} (h : r.toJson = .ok j) :
    reply d j.render = .done r.id <$> d.invoke r.command := by
  have hdecode := WorkerRequest.decode_toJson h
  rw [text] at hdecode
  rw [reply, hdecode]

end Worker

namespace WorkerProcess

variable {π ε : Type}

theorem receive_serving (d : Delegate (π × ε)) (fresh own : π) (shared : ε) (unread : List UInt8)
    {r : WorkerRequest} {j : Json} (h : r.toJson = .ok j) :
    (WorkerProgram.serving d fresh).receive unread j.text own shared =
      (.line (Utf8.encode (WorkerReply.done r.id (d.invoke r.command (own, shared)).1).toJson.render)
        (d.invoke r.command (own, shared)).2.1, (d.invoke r.command (own, shared)).2.2) := by
  have hreply : Worker.reply d j.text.toList (own, shared) =
      (.done r.id (d.invoke r.command (own, shared)).1, (d.invoke r.command (own, shared)).2) := by
    rw [text, String.toList_ofList, Worker.reply_toJson h]
    rfl
  simp only [WorkerProgram.serving, hreply]

theorem call_running (program : WorkerProgram ε π) (id : Uuid) (line : String) (own : π)
    (unread : List UInt8) (shared : ε) :
    call program id line ⟨some own, unread⟩ shared =
      let answer := program.receive unread line own shared
      let line := firstLine (unread ++ answer.1.written)
      ((acceptLine id line.1, ⟨answer.1.next, line.2⟩), answer.2) :=
  rfl

/-- A process that serves a delegate answers a request with the result of its own run. -/
theorem call_serving (d : Delegate (π × ε)) (fresh own : π) (shared : ε) {r : WorkerRequest}
    {j : Json} (h : r.toJson = .ok j) :
    call (.serving d fresh) r.id j.text ⟨some own, []⟩ shared =
      ((.ok (d.invoke r.command (own, shared)).1,
        ⟨some (d.invoke r.command (own, shared)).2.1, []⟩),
        (d.invoke r.command (own, shared)).2.2) := by
  rw [call_running, receive_serving d fresh own shared [] h]
  -- Whatever the run gives, its reply is one line, and that line is read back.
  generalize d.invoke r.command (own, shared) = run
  let text := (WorkerReply.done r.id run.1).toJson.render
  have hwritten : Utf8.encode text ++ [10] = Utf8.encode (text ++ ['\n']) :=
    (Utf8.encode_append text ['\n']).symm
  have hline := firstLine_encode (isLine_render (WorkerReply.done r.id run.1).plain_toJson)
  have haccept := WorkerReply.acceptLine_toJson (.done r.id run.1) r.id
  rw [WorkerReply.accept_done] at haccept
  simp only [WorkerAnswer.line, List.nil_append, hwritten, text, hline, haccept]

end WorkerProcess

namespace Worker

variable {σ : Type} {d : Delegate σ}

/-- Texts, each on a line of its own. -/
def page (lines : List (List Char)) : List Char := lines.flatMap (· ++ ['\n'])

theorem encode_page (lines : List (List Char)) :
    Utf8.encode (page lines) = (lines.map Utf8.encode).flatMap (· ++ [10]) := by
  induction lines with
  | nil => rfl
  | cons line lines ih =>
    rw [page, List.flatMap_cons, ← page, Utf8.encode_append, Utf8.encode_append, ih]
    rfl

theorem inputLines_page {lines : List (List Char)} (h : ∀ line ∈ lines, IsLine line) :
    inputLines (Utf8.encode (page lines)) = lines.map Utf8.encode := by
  rw [encode_page]
  apply Lines.split_flatMap
  intro bytes hbytes
  obtain ⟨line, hline, rfl⟩ := List.mem_map.1 hbytes
  constructor
  · exact lineFeed_not_mem (h line hline)
  · intro hmem
    have := Utf8.ge_of_mem_encode (h line hline) hmem
    simp at this

/-- One turn of the loop at a line of text. -/
theorem serveLines_text {line : List Char} (h : Text.allBlank line = false)
    (pieces : List (List Char)) (lines : List (List UInt8)) (s : σ) :
    serveLines d ⟨pieces, none⟩ (Utf8.encode line :: lines) s =
      serveLines d ⟨['\n'] :: (reply d line s).1.toJson.render :: pieces, none⟩ lines
        (reply d line s).2 := by
  rw [serveLines, Utf8.decode_encode]
  simp only [h, Bool.false_eq_true, if_false]
  rfl

theorem serveLines_blank {line : List Char} (h : Text.allBlank line = true) (o : Output)
    (lines : List (List UInt8)) (s : σ) :
    serveLines d o (Utf8.encode line :: lines) s = serveLines d o lines s := by
  rw [serveLines, Utf8.decode_encode]
  simp only [h, if_true]

/-- Lines from the first one on that is no text are not read. -/
theorem serveLines_rest {more : List (List UInt8)}
    (hmore : ∀ bytes ∈ more.head?, ¬ Utf8.IsText bytes) (o : Output) (s : σ) :
    serveLines d o more s = ((o, if more.isEmpty then .inputEnded else .notText), s) := by
  cases more with
  | nil => rfl
  | cons bytes more =>
    obtain ⟨fault, hfault⟩ := Utf8.decode_eq_error_iff.2 (hmore bytes rfl)
    rw [serveLines, hfault]
    rfl

/-- The lines of text that are not all blank. -/
def filled (texts : List (List Char)) : List (List Char) :=
  texts.filter fun line => !Text.allBlank line

theorem filled_cons (line : List Char) (texts : List (List Char)) :
    filled (line :: texts) =
      if Text.allBlank line then filled texts else line :: filled texts := by
  rw [filled, List.filter_cons]
  cases Text.allBlank line <;> rfl

theorem filled_append (before after : List (List Char)) :
    filled (before ++ after) = filled before ++ filled after := List.filter_append ..

theorem serveLines_texts (texts : List (List Char)) {more : List (List UInt8)}
    (hmore : ∀ bytes ∈ more.head?, ¬ Utf8.IsText bytes) (pieces : List (List Char)) (s : σ) :
    ∃ out, serveLines d ⟨pieces, none⟩ (texts.map Utf8.encode ++ more) s =
        ((out, if more.isEmpty then .inputEnded else .notText), ((filled texts).mapM (reply d) s).2) ∧
      out.text = pieces.reverse.flatten ++
        page (((filled texts).mapM (reply d) s).1.map fun r => r.toJson.render) := by
  induction texts generalizing pieces s with
  | nil => exact ⟨⟨pieces, none⟩, serveLines_rest hmore _ s, (List.append_nil _).symm⟩
  | cons line texts ih =>
    rw [filled_cons, List.map_cons, List.cons_append]
    cases hblank : Text.allBlank line with
    | true =>
      rw [serveLines_blank hblank]
      exact ih pieces s
    | false =>
      obtain ⟨out, hserve, htext⟩ := ih (['\n'] :: (reply d line s).1.toJson.render :: pieces)
        (reply d line s).2
      refine ⟨out, ?_, ?_⟩
      · rw [serveLines_text hblank, hserve, if_neg Bool.false_ne_true, mapM_cons_state]
      · rw [htext, if_neg Bool.false_ne_true, mapM_cons_state]
        simp [page]

/-- A worker writes one line in reply to each line of text, in order. -/
theorem serve_texts {lines : List (List Char)}
    (h : ∀ line ∈ lines, IsLine line ∧ Text.allBlank line = false) (s : σ) :
    ∃ out, serve d none (Utf8.encode (page lines)) s =
        ((out, .inputEnded), (lines.mapM (reply d) s).2) ∧
      out.text = page ((lines.mapM (reply d) s).1.map fun r => r.toJson.render) := by
  have hfilled : filled lines = lines :=
    List.filter_eq_self.2 fun line hline => by rw [(h line hline).2]; rfl
  have hnone : ∀ bytes ∈ ([] : List (List UInt8)).head?, ¬ Utf8.IsText bytes := by simp
  obtain ⟨out, hserve, htext⟩ := serveLines_texts (d := d) lines hnone [] s
  rw [hfilled, List.append_nil] at hserve
  rw [hfilled] at htext
  rw [serve, inputLines_page fun line hline => (h line hline).1]
  exact ⟨out, hserve, htext⟩

theorem allBlank_render_object (ms : List (String × Json)) :
    Text.allBlank (render (.object ms)) = false := by
  obtain ⟨t, ht⟩ := render_object ms
  have hopen : Text.isBlank '\x7b' = false := rfl
  simp [Text.allBlank, ht, hopen]

theorem toJson_line {r : WorkerRequest} {j : Json} (h : r.toJson = .ok j) :
    IsLine j.render ∧ Text.allBlank j.render = false := by
  obtain ⟨command, -, rfl⟩ := WorkerRequest.toJson_eq_ok h
  exact ⟨isLine_render (WorkerRequest.plain_toJson h), allBlank_render_object _⟩

/-- The replies to requests are the results of their commands, run one after the other. -/
theorem mapM_reply {requests : List WorkerRequest} {messages : List Json}
    (h : List.Forall₂ (fun r j => r.toJson = .ok j) requests messages) (s : σ) :
    (messages.map render).mapM (reply d) s =
      let run := (requests.map (·.command)).mapM d.invoke s
      (List.zipWith (fun r result => .done r.id result) requests run.1, run.2) := by
  induction h generalizing s with
  | nil => rfl
  | cons hr _ ih =>
    rw [List.map_cons, List.map_cons, mapM_cons_state, mapM_cons_state, reply_toJson hr, ih]
    rfl

/-- A worker that is sent requests writes the results of their commands, run one after the other. -/
theorem serve_requests {requests : List WorkerRequest} {messages : List Json}
    (h : List.Forall₂ (fun r j => r.toJson = .ok j) requests messages) (s : σ) :
    let run := (requests.map (·.command)).mapM d.invoke s
    ∃ out, serve d none (Utf8.encode (page (messages.map render))) s =
        ((out, .inputEnded), run.2) ∧
      out.text = page (List.zipWith (fun r result => (WorkerReply.done r.id result).toJson.render)
        requests run.1) := by
  intro run
  have hlines : ∀ line ∈ messages.map render, IsLine line ∧ Text.allBlank line = false := by
    induction h with
    | nil => simp
    | cons hr _ ih =>
      rw [List.map_cons, List.forall_mem_cons]
      exact ⟨toJson_line hr, ih⟩
  obtain ⟨out, hserve, htext⟩ := serve_texts hlines s
  rw [mapM_reply h] at hserve htext
  rw [List.map_zipWith] at htext
  exact ⟨out, hserve, htext⟩

end Worker

end JobGateway
