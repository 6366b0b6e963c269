import JobGateway.Proofs.Worker.Identifier
import JobGateway.Proofs.Worker.Serve

/-! The loop of a worker process on any input: lines of text, among them requests, blank lines and
lines that are neither, up to a line that is no text. The delegate sees the requests alone. -/
namespace JobGateway

open Json

/-- Whether a reply is the result of a request. -/
def WorkerReply.isDone : WorkerReply → Bool
  | .done .. => true
  | .rejected .. => false

namespace Worker

variable {σ : Type} {d : Delegate σ}

/-- The request that a line of text is. -/
def request? (line : List Char) : Option WorkerRequest :=
  (WorkerRequest.decoder.decode (String.ofList line)).toOption

/-- The state that the requests among lines of text leave. -/
def stateAfter (d : Delegate σ) (lines : List (List Char)) (s : σ) : σ :=
  (lines.filterMap request?).foldl (fun s r => (d.invoke r.command s).2) s

/-- What a line of text is owed by a delegate in a state: one line in reply, with the result of the
request or a rejection, and with the identifier that the line has. -/
structure Answers (d : Delegate σ) (s : σ) (line : List Char) (reply : WorkerReply) : Prop where
  done : ∀ r, request? line = some r → reply = .done r.id (d.invoke r.command s).1
  rejected : request? line = none → ∃ id error, reply = .rejected id error
  id : ∀ ms text id, Json.parse line = .ok (.object ms) →
    (Json.object ms).member? "id" = some (.string text) → Uuid.parse text = .ok id →
    reply.id = some id
  single : IsLine reply.toJson.render

theorem request?_eq_some_iff {line : List Char} {r : WorkerRequest} :
    request? line = some r ↔ WorkerRequest.decoder.decode (String.ofList line) = .ok r := by
  rw [request?]
  cases WorkerRequest.decoder.decode (String.ofList line) <;> simp [Except.toOption]

theorem request?_eq_none_iff {line : List Char} :
    request? line = none ↔
      ∃ refusal, WorkerRequest.decoder.decode (String.ofList line) = .error refusal := by
  rw [request?]
  cases WorkerRequest.decoder.decode (String.ofList line) <;> simp [Except.toOption]

theorem reply_of_request {line : List Char} {r : WorkerRequest} (h : request? line = some r)
    (s : σ) :
    reply d line s = (.done r.id (d.invoke r.command s).1, (d.invoke r.command s).2) := by
  rw [reply, request?_eq_some_iff.1 h]
  rfl

theorem reply_of_none {line : List Char} (h : request? line = none) (s : σ) :
    ∃ error, reply d line s = (.rejected (recoverId line) error, s) := by
  obtain ⟨refusal, hdecode⟩ := request?_eq_none_iff.1 h
  rw [reply, hdecode]
  exact ⟨_, rfl⟩

/-- A blank line is no request: a request begins with a bracket. -/
theorem request?_of_allBlank {line : List Char} (h : Text.allBlank line = true) :
    request? line = none := by
  have hblank : ∀ {c u}, peek line = .ok (some c) u → Text.isBlank c = true := by
    intro c u hpeek
    obtain ⟨t, rfl⟩ := exists_of_peek hpeek
    have hsuffix : c :: t <:+ line := by
      rw [eq_of_peek hpeek]
      exact List.dropWhile_suffix _
    exact List.all_eq_true.1 h c (hsuffix.subset List.mem_cons_self)
  refine Option.eq_none_iff_forall_ne_some.2 fun r hr => ?_
  obtain ⟨s, hread⟩ := exists_of_readAll (request?_eq_some_iff.1 hr)
  rw [String.toList_ofList] at hread
  obtain ⟨-, t, -, -, -, ⟨hpeek, -⟩ | ⟨hpeek, -⟩⟩ := Record.of_decoder hread
  · exact absurd (hblank hpeek) (by decide)
  · exact absurd (hblank hpeek) (by decide)

theorem reply_id {line : List Char} {ms : List (String × Json)} {text : String} {id : Uuid}
    (hparse : Json.parse line = .ok (.object ms))
    (hmember : (Json.object ms).member? "id" = some (.string text))
    (hid : Uuid.parse text = .ok id) (s : σ) : (reply d line s).1.id = some id := by
  cases hrequest : request? line with
  | none =>
    obtain ⟨error, hreply⟩ := reply_of_none (d := d) hrequest s
    have hrecover : recoverId line = some id := by
      rw [recoverId, hparse]
      simp [Except.toOption, hmember, hid]
    rw [hreply, ← hrecover]
    rfl
  | some r =>
    have hdecode := request?_eq_some_iff.1 hrequest
    obtain ⟨text', hmember', hid'⟩ := WorkerRequest.decode_id hdecode hparse
    rw [hmember] at hmember'
    cases hmember'
    rw [hid] at hid'
    cases hid'
    rw [reply_of_request hrequest]
    rfl

/-- A line of text gets what it is owed. -/
theorem answers_reply (line : List Char) (s : σ) : Answers d s line (reply d line s).1 where
  done r h := by rw [reply_of_request h]
  rejected h := by
    obtain ⟨error, hreply⟩ := reply_of_none (d := d) h s
    exact ⟨_, _, congrArg Prod.fst hreply⟩
  id ms text id hparse hmember hid := reply_id hparse hmember hid s
  single := isLine_render (WorkerReply.plain_toJson _)

theorem stateAfter_cons (line : List Char) (lines : List (List Char)) (s : σ) :
    stateAfter d (line :: lines) s = stateAfter d lines (reply d line s).2 := by
  cases h : request? line with
  | none =>
    obtain ⟨error, hreply⟩ := reply_of_none (d := d) h s
    rw [stateAfter, List.filterMap_cons_none h, hreply, stateAfter]
  | some r => rw [stateAfter, List.filterMap_cons_some h, reply_of_request h, stateAfter,
      List.foldl_cons]

theorem mapM_reply_state (lines : List (List Char)) (s : σ) :
    (lines.mapM (reply d) s).2 = stateAfter d lines s := by
  induction lines generalizing s with
  | nil => rfl
  | cons line lines ih => rw [mapM_cons_state, ih, stateAfter_cons]

/-- Each line gets its reply from the state that the requests before it leave. -/
theorem getElem?_mapM_reply (before : List (List Char)) (line : List Char)
    (after : List (List Char)) (s : σ) :
    ((before ++ line :: after).mapM (reply d) s).1[before.length]? =
      some (reply d line (stateAfter d before s)).1 := by
  induction before generalizing s with
  | nil => rw [List.nil_append, mapM_cons_state]; rfl
  | cons first before ih =>
    rw [List.cons_append, mapM_cons_state, List.length_cons, List.getElem?_cons_succ, ih,
      stateAfter_cons]

/-- Without the lines that are no requests, the results stay the same, and so does the state. -/
theorem mapM_reply_requests (lines : List (List Char)) (s : σ) :
    (lines.filter fun line => (request? line).isSome).mapM (reply d) s =
      ((lines.mapM (reply d) s).1.filter WorkerReply.isDone, (lines.mapM (reply d) s).2) := by
  induction lines generalizing s with
  | nil => rfl
  | cons line lines ih =>
    rw [mapM_cons_state]
    cases h : request? line with
    | none =>
      obtain ⟨error, hreply⟩ := reply_of_none (d := d) h s
      rw [List.filter_cons_of_neg (by rw [h]; exact Bool.false_ne_true), ih, hreply,
        List.filter_cons_of_neg Bool.false_ne_true]
    | some r =>
      rw [List.filter_cons_of_pos (by rw [h]; rfl), mapM_cons_state, ih, reply_of_request h,
        List.filter_cons_of_pos rfl]

theorem stateAfter_filled (texts : List (List Char)) (s : σ) :
    stateAfter d (filled texts) s = stateAfter d texts s := by
  rw [stateAfter, filled, List.filterMap_filter, stateAfter]
  congr 1
  refine List.filterMap_congr fun line _ => ?_
  cases hblank : Text.allBlank line with
  | true => exact (request?_of_allBlank hblank).symm
  | false => rfl

/-- The lines that are requests. -/
def requestLines (texts : List (List Char)) : List (List Char) :=
  texts.filter fun line => (request? line).isSome

theorem isSome_request?_and (line : List Char) :
    ((request? line).isSome && !Text.allBlank line) = (request? line).isSome := by
  cases hblank : Text.allBlank line with
  | true =>
    rw [request?_of_allBlank hblank]
    rfl
  | false => exact Bool.and_true _

theorem requestLines_filled (texts : List (List Char)) :
    requestLines (filled texts) = requestLines texts := by
  rw [requestLines, filled, List.filter_filter, requestLines]
  exact List.filter_congr fun line _ => isSome_request?_and line

theorem filled_requestLines (texts : List (List Char)) :
    filled (requestLines texts) = requestLines texts := by
  rw [requestLines, filled, List.filter_filter]
  refine List.filter_congr fun line _ => ?_
  rw [Bool.and_comm]
  exact isSome_request?_and line

/-- Whether a line of bytes is a request. -/
def isRequest (bytes : List UInt8) : Bool :=
  match Utf8.decode bytes with
  | .ok text => (request? text).isSome
  | .error _ => false

theorem map_filter_isRequest {parts : List (List UInt8 × List UInt8)} {texts : List (List Char)}
    (h : parts.map Prod.fst = texts.map Utf8.encode) :
    (parts.filter fun part => isRequest part.1).map Prod.fst =
      (requestLines texts).map Utf8.encode := by
  have hparts : (parts.filter fun part => isRequest part.1).map Prod.fst =
      (parts.map Prod.fst).filter isRequest := by
    rw [List.filter_map]
    rfl
  rw [hparts, h, List.filter_map, requestLines]
  congr 1
  refine List.filter_congr fun line _ => ?_
  rw [Function.comp_apply, isRequest, Utf8.decode_encode]

/-- An input as the loop takes it: its lines of text, each with its end, and the rest from the first
line on that is no text. -/
structure Reading (input : List UInt8) where
  taken : List (List UInt8 × List UInt8)
  rest : List (List UInt8 × List UInt8)
  texts : List (List Char)
  cut : Lines.Cut 10 13 (taken ++ rest)
  whole : Lines.joined (taken ++ rest) = input
  text : taken.map Prod.fst = texts.map Utf8.encode
  stop : ∀ bytes ∈ (rest.map Prod.fst).head?, ¬ Utf8.IsText bytes

theorem exists_texts (parts : List (List UInt8 × List UInt8)) :
    ∃ (taken rest : List (List UInt8 × List UInt8)) (texts : List (List Char)),
      parts = taken ++ rest ∧ taken.map Prod.fst = texts.map Utf8.encode ∧
      ∀ bytes ∈ (rest.map Prod.fst).head?, ¬ Utf8.IsText bytes := by
  induction parts with
  | nil => exact ⟨[], [], [], rfl, rfl, by simp⟩
  | cons part parts ih =>
    by_cases htext : Utf8.IsText part.1
    · obtain ⟨text, htext⟩ := htext
      obtain ⟨taken, rest, texts, rfl, htaken, hrest⟩ := ih
      exact ⟨part :: taken, rest, text :: texts, rfl, by rw [List.map_cons, htaken, htext]; rfl,
        hrest⟩
    · exact ⟨[], part :: parts, [], rfl, rfl, by simpa using htext⟩

/-- Every input is taken in this way. -/
theorem Reading.nonempty (input : List UInt8) : Nonempty (Reading input) := by
  obtain ⟨parts, hcut, hjoined⟩ := Lines.exists_cut 10 13 input
  obtain ⟨taken, rest, texts, rfl, htaken, hrest⟩ := exists_texts parts
  exact ⟨⟨taken, rest, texts, hcut, hjoined, htaken, hrest⟩⟩

/-- An input without the lines that are no requests, with or without its rest. -/
def Reading.requests {input : List UInt8} (r : Reading input)
    {tail : List (List UInt8 × List UInt8)} (htail : tail = r.rest ∨ tail = []) :
    Reading (Lines.joined ((r.taken.filter fun part => isRequest part.1) ++ tail)) where
  taken := r.taken.filter fun part => isRequest part.1
  rest := tail
  texts := requestLines r.texts
  cut := by
    refine r.cut.sublist (List.filter_sublist.append ?_)
    obtain rfl | rfl := htail
    · exact .refl _
    · exact List.nil_sublist _
  whole := rfl
  text := map_filter_isRequest r.text
  stop := by
    obtain rfl | rfl := htail
    · exact r.stop
    · simp

namespace Reading

variable {input : List UInt8} (r : Reading input)

/-- How the loop ends. -/
def ending : End := if r.rest.isEmpty then .inputEnded else .notText

/-- The replies to an input. -/
def replies (d : Delegate σ) (s : σ) : List WorkerReply := ((filled r.texts).mapM (reply d) s).1

theorem inputLines_eq : inputLines input = r.texts.map Utf8.encode ++ r.rest.map Prod.fst := by
  have hsplit := r.cut.split
  rw [r.whole] at hsplit
  rw [inputLines, hsplit, List.map_append, r.text]

/-- The loop on an input. -/
theorem serve_eq (d : Delegate σ) (s : σ) :
    ∃ out, serve d none input s = ((out, r.ending), stateAfter d r.texts s) ∧
      out.text = page ((r.replies d s).map fun reply => reply.toJson.render) := by
  obtain ⟨out, hserve, htext⟩ := serveLines_texts (d := d) r.texts r.stop [] s
  refine ⟨out, ?_, htext⟩
  rw [serve, r.inputLines_eq, Output.new, hserve, mapM_reply_state, stateAfter_filled, ending,
    List.isEmpty_map]

/-- The loop ends without a fault exactly if all of the input is text. -/
theorem ending_message :
    r.ending.message = none ↔ ∀ line ∈ inputLines input, Utf8.IsText line := by
  rw [r.inputLines_eq, ending]
  cases hrest : r.rest with
  | nil =>
    have hall : ∀ line ∈ r.texts.map Utf8.encode, Utf8.IsText line := by
      intro line hline
      obtain ⟨text, -, rfl⟩ := List.mem_map.1 hline
      exact ⟨text, rfl⟩
    simpa [End.message] using hall
  | cons part rest =>
    have hstop : ¬ Utf8.IsText part.1 := r.stop part.1 (by rw [hrest]; rfl)
    refine iff_of_false (by simp [End.message]) fun hall => hstop (hall part.1 ?_)
    simp

/-- Each line that is not blank gets what it is owed, in its place. -/
theorem answers (d : Delegate σ) (s : σ) {before after : List (List Char)} {line : List Char}
    (h : r.texts = before ++ line :: after) (hblank : Text.allBlank line = false) :
    ∃ reply, (r.replies d s)[(filled before).length]? = some reply ∧
      Answers d (stateAfter d before s) line reply := by
  refine ⟨_, ?_, answers_reply line (stateAfter d before s)⟩
  have hfilled : filled r.texts = filled before ++ line :: filled after := by
    rw [h, filled_append, filled_cons, hblank, if_neg Bool.false_ne_true]
  rw [replies, hfilled, getElem?_mapM_reply, stateAfter_filled]

theorem requests_replies {tail : List (List UInt8 × List UInt8)}
    (htail : tail = r.rest ∨ tail = []) (d : Delegate σ) (s : σ) :
    (r.requests htail).replies d s = (r.replies d s).filter WorkerReply.isDone ∧
      stateAfter d (r.requests htail).texts s = stateAfter d r.texts s := by
  have hrequests := mapM_reply_requests (d := d) (filled r.texts) s
  rw [← requestLines, requestLines_filled] at hrequests
  constructor
  · rw [replies, requests, filled_requestLines, hrequests, replies]
  · rw [requests, ← mapM_reply_state, hrequests, mapM_reply_state, stateAfter_filled]

end Reading

/-- Every input is read in lines, up to the first that is no text. A worker answers each of them
that is not blank with one line, in order: a request with its identifier and the result of its
command, run in the state that the requests before it leave, and any other line with a rejection,
which leaves the state alone. Taking the other lines out of the input changes neither the results nor
the last state. The input is read to its end exactly if all of it is text. -/
theorem serve_input (d : Delegate σ) (input : List UInt8) (s : σ) :
    Nonempty (Reading input) ∧
    ∀ r : Reading input, ∃ (out : Output) (ending : End) (replies : List WorkerReply),
      serve d none input s = ((out, ending), stateAfter d r.texts s) ∧
      (ending.message = none ↔ ∀ line ∈ inputLines input, Utf8.IsText line) ∧
      out.text = page (replies.map fun reply => reply.toJson.render) ∧
      replies.length = (filled r.texts).length ∧
      (∀ before line after, r.texts = before ++ line :: after → Text.allBlank line = false →
        ∃ reply, replies[(filled before).length]? = some reply ∧
          Answers d (stateAfter d before s) line reply) ∧
      ∀ tail, tail = r.rest ∨ tail = [] → ∃ out',
        serve d none (Lines.joined ((r.taken.filter fun part => isRequest part.1) ++ tail)) s =
          ((out', if tail.isEmpty then .inputEnded else .notText), stateAfter d r.texts s) ∧
        out'.text =
          page ((replies.filter WorkerReply.isDone).map fun reply => reply.toJson.render) := by
  refine ⟨Reading.nonempty input, fun r => ?_⟩
  obtain ⟨out, hserve, htext⟩ := r.serve_eq d s
  refine ⟨out, r.ending, r.replies d s, hserve, r.ending_message, htext,
    length_mapM_state _ _ s, fun _ _ _ h hblank => r.answers d s h hblank, fun tail htail => ?_⟩
  obtain ⟨hreplies, hstate⟩ := r.requests_replies htail d s
  obtain ⟨out', hserve', htext'⟩ := (r.requests htail).serve_eq d s
  rw [hstate] at hserve'
  rw [hreplies] at htext'
  exact ⟨out', hserve', htext'⟩

end Worker

end JobGateway
