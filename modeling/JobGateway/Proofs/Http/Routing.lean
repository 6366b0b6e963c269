import JobGateway.Delegate.JobTable
import JobGateway.Proofs.Http.Route
import JobGateway.Proofs.Text.Utf8

/-! Which requests become commands. A request leads to a command of an operation exactly if the operation
is offered, the request has its path shape and its verb, what stands for the parameters is text, and its
body, if it is looked at, is not too long. All other requests are answered at once. -/
namespace JobGateway

/-- An executor that keeps the commands that reached it, in order. -/
def Executor.recorded {σ : Type} (e : Executor σ) : Executor (σ × List JobCommand) where
  name := e.name
  capabilities := e.capabilities
  dispatch c := fun (s, log) => ((e.dispatch c s).1, (e.dispatch c s).2, log ++ [c])
  rest := fun (s, log) => (e.rest s, log)
  promise := fun (s, _) ticket => e.promise s ticket
  close := fun (s, log) => (e.close s, log)

namespace Http

variable {r : Request} {op : Operation} {parts : List (List Char)} {values : List String}
  {c : JobCommand}

section Values

/-- A segment of a path stands for a text. -/
def StandsFor (part : List Char) (value : String) : Prop :=
  Percent.decode (Utf8.encode part) = Utf8.encode value.toList

/-- A segment of a path stands for some text. -/
def IsReadable (part : List Char) : Prop := Utf8.IsText (Percent.decode (Utf8.encode part))

theorem isReadable_iff {part : List Char} : IsReadable part ↔ ∃ value, StandsFor part value := by
  constructor
  · rintro ⟨text, htext⟩
    exact ⟨String.ofList text, by rw [StandsFor, htext, String.toList_ofList]⟩
  · rintro ⟨value, hvalue⟩
    exact ⟨value.toList, hvalue⟩

theorem value_eq_ok_iff {b : Binding} {value : String} :
    b.value = .ok value ↔ StandsFor b.raw value := by
  rw [StandsFor, ← Utf8.decode_eq_ok_iff, Binding.value]
  cases Utf8.decode (Percent.decode (Utf8.encode b.raw)) with
  | error fault => simp
  | ok text => simp [String.ext_iff]

theorem status_of_value_error {b : Binding} {response : Response} (h : b.value = .error response) :
    response.status = 400 := by
  rw [Binding.value] at h
  split at h
  · cases h
  · cases h
    rfl

theorem mapM_eq_ok_iff {α β ε : Type} {f : α → Except ε β} {l : List α} {bs : List β} :
    l.mapM f = .ok bs ↔ List.Forall₂ (fun a b => f a = .ok b) l bs := by
  induction l generalizing bs with
  | nil => cases bs <;> simp [pure, Except.pure]
  | cons a l ih =>
    rw [List.mapM_cons, List.forall₂_cons_left_iff]
    cases hf : f a with
    | error e => simp [bind, Except.bind]
    | ok b =>
      cases hl : l.mapM f with
      | error e => simp [bind, Except.bind, ← ih, hl]
      | ok bs' => simp [bind, Except.bind, pure, Except.pure, ← ih, hl, eq_comm]

theorem exists_of_mapM_eq_error {α β ε : Type} {f : α → Except ε β} {l : List α} {e : ε}
    (h : l.mapM f = .error e) : ∃ a ∈ l, f a = .error e := by
  induction l with
  | nil => cases h
  | cons a l ih =>
    rw [List.mapM_cons] at h
    cases hf : f a with
    | error e' =>
      rw [hf] at h
      cases h
      exact ⟨a, List.mem_cons_self, hf⟩
    | ok b =>
      cases hl : l.mapM f with
      | error e' =>
        rw [hf, hl] at h
        cases h
        obtain ⟨a', ha', hfail⟩ := ih hl
        exact ⟨a', List.mem_cons_of_mem _ ha', hfail⟩
      | ok bs =>
        rw [hf, hl] at h
        cases h

theorem map_raw_bindingsOf (h : parts.length = op.parameters.length) :
    (bindingsOf op parts).map Binding.raw = parts := by
  refine List.ext_getElem (by simp [bindingsOf, h]) fun n hn hn' => ?_
  simp [bindingsOf]

/-- Texts stand for all parameters of an operation. -/
theorem mapM_value_bindingsOf (h : parts.length = op.parameters.length) :
    (bindingsOf op parts).mapM Binding.value = .ok values ↔ List.Forall₂ StandsFor parts values := by
  rw [mapM_eq_ok_iff]
  simp only [value_eq_ok_iff]
  rw [← List.forall₂_map_left_iff (R := StandsFor) (f := Binding.raw), map_raw_bindingsOf h]

theorem exists_forall₂_standsFor : (∃ values, List.Forall₂ StandsFor parts values) ↔
    ∀ part ∈ parts, IsReadable part := by
  induction parts with
  | nil => simp
  | cons part parts ih =>
    rw [List.forall_mem_cons, isReadable_iff, ← ih]
    constructor
    · rintro ⟨_, hvalues⟩
      obtain ⟨value, values, hvalue, hmore, rfl⟩ := List.forall₂_cons_left_iff.1 hvalues
      exact ⟨⟨value, hvalue⟩, values, hmore⟩
    · rintro ⟨⟨value, hvalue⟩, values, hvalues⟩
      exact ⟨value :: values, .cons hvalue hvalues⟩

end Values

section Command

/-- The body of a request is short enough for an operation, if the operation looks at it. -/
def Fits (r : Request) (op : Operation) : Prop := op ≠ .listJobs → r.body.length ≤ maxBody

/-- The specification that an operation takes from a request. -/
def specOf (r : Request) : Operation → Option JobSpec
  | .listJobs => none
  | .createJob | .updateJob => some ⟨r.body⟩
  | _ => optionalSpec r

/-- The instances that an operation takes from a request. -/
def instancesOf (r : Request) : Operation → Option Instances
  | .updateJob | .restartJob | .deleteJob => some (selected r)
  | _ => none

/-- The key that an operation takes from the texts for its parameters. -/
def keyOf (values : List String) : Operation → JobKey
  | .listJobs => roleKey values
  | _ => jobKey values

/-- A command takes its parts from a request. -/
structure IsCommandOf (r : Request) (op : Operation) (values : List String) (c : JobCommand) :
    Prop where
  operation : c.operation = op
  key : c.key = keyOf values op
  spec : c.spec? = specOf r op
  instances : c.instances? = instancesOf r op

variable {bindings : List Binding}

theorem exists_command (hvalues : bindings.mapM Binding.value = .ok values) (hfits : Fits r op) :
    ∃ c, command r op bindings = .ok c ∧ IsCommandOf r op values c := by
  have hbody : op ≠ .listJobs → ∀ c, withBody r c = .ok c := fun hop c => if_pos (hfits hop)
  rw [command, hvalues]
  cases op with
  | listJobs => exact ⟨_, rfl, rfl, rfl, rfl, rfl⟩
  | _ => exact ⟨_, hbody (by decide) _, rfl, rfl, rfl, rfl⟩

theorem command_of_not_fits (hvalues : bindings.mapM Binding.value = .ok values)
    (hfits : ¬ Fits r op) :
    ∃ response, command r op bindings = .error response ∧ response.status = 413 := by
  rw [Fits, Classical.not_imp] at hfits
  let response : Response :=
    .plain 413 "Failed to buffer the request body: length limit exceeded"
  have hbody : ∀ c, withBody r c = .error response := fun c => if_neg hfits.2
  refine ⟨response, ?_, rfl⟩
  rw [command, hvalues]
  cases op with
  | listJobs => exact absurd rfl hfits.1
  | _ => exact hbody _

theorem command_of_error {response : Response} (h : bindings.mapM Binding.value = .error response) :
    command r op bindings = .error response := by
  rw [command, h]
  rfl

/-- A command was made of texts for all parameters, and of a body that fits. -/
theorem of_command_eq_ok (h : command r op bindings = .ok c) :
    ∃ values, bindings.mapM Binding.value = .ok values ∧ Fits r op ∧ c.operation = op := by
  cases hvalues : bindings.mapM Binding.value with
  | error response =>
    rw [command_of_error hvalues] at h
    cases h
  | ok values =>
    by_cases hfits : Fits r op
    · obtain ⟨c', hc', hparts⟩ := exists_command hvalues hfits
      rw [hc'] at h
      cases h
      exact ⟨values, rfl, hfits, hparts.operation⟩
    · obtain ⟨response, hresponse, -⟩ := command_of_not_fits hvalues hfits
      rw [hresponse] at h
      cases h

/-- What a request for an operation comes to. -/
theorem command_bindingsOf (hlength : parts.length = op.parameters.length) :
    (∀ values, List.Forall₂ StandsFor parts values →
      (Fits r op → ∃ c, command r op (bindingsOf op parts) = .ok c ∧ IsCommandOf r op values c) ∧
      (¬ Fits r op → ∃ response, command r op (bindingsOf op parts) = .error response ∧
        response.status = 413)) ∧
    ((¬ ∀ part ∈ parts, IsReadable part) →
      ∃ response, command r op (bindingsOf op parts) = .error response ∧ response.status = 400) := by
  refine ⟨fun values hvalues => ?_, fun hnot => ?_⟩
  · have hread := (mapM_value_bindingsOf hlength).2 hvalues
    exact ⟨exists_command hread, command_of_not_fits hread⟩
  · cases hread : (bindingsOf op parts).mapM Binding.value with
    | ok values =>
      exact absurd (exists_forall₂_standsFor.1 ⟨values, (mapM_value_bindingsOf hlength).1 hread⟩) hnot
    | error response =>
      obtain ⟨b, -, hb⟩ := exists_of_mapM_eq_error hread
      exact ⟨response, command_of_error hread, status_of_value_error hb⟩

end Command

section Receive

variable {prefixText : String} {capabilities : Capabilities}

/-- The verb for options stands for no operation. -/
theorem ne_options {verb : String} (h : op.verb = Route.answeringVerb verb) : verb ≠ "OPTIONS" := by
  rintro rfl
  revert h
  cases op <;> decide

/-- A path of one operation is a path of all operations with its pattern. -/
theorem Addresses.of_pattern_eq {path : List Char} {op' : Operation}
    (h : Addresses prefixText path op parts) (hpattern : op'.pattern = op.pattern) :
    Addresses prefixText path op' parts := by
  have hsame : op'.parameters = op.parameters ∧ op'.tail = op.tail := by
    revert hpattern
    clear h
    cases op <;> cases op' <;> decide
  obtain ⟨hpath, hlength, hslash, hlast⟩ := h
  rw [← hsame.2] at hpath hlast
  rw [← hsame.1] at hlength
  exact ⟨hpath, hlength, hslash, hlast⟩

/-- On the path of an offered operation, any verb but one leads to the operation that it stands for there,
or to none. -/
theorem receive_of_addresses (h : Addresses prefixText r.target.path op parts)
    (hpath : IsPath r.target.path) (hoffered : capabilities.supports op = true)
    (hverb : r.verb ≠ "OPTIONS") :
    (∃ op', Addresses prefixText r.target.path op' parts ∧ capabilities.supports op' = true ∧
      op'.verb = Route.answeringVerb r.verb ∧
      receive (routesBelow prefixText capabilities) r =
        perform r (bindingsOf op' parts) (.operation op')) ∨
    (∀ op' parts', Addresses prefixText r.target.path op' parts' →
      capabilities.supports op' = true → op'.verb ≠ Route.answeringVerb r.verb) ∧
      ∃ headers, receive (routesBelow prefixText capabilities) r = .answer (.empty 405 headers) := by
  rw [receive, h.findRoute hpath hoffered]
  simp only [if_neg hverb]
  cases hlookup : (Route.ofPattern capabilities op.pattern).actions.lookup
      (Route.answeringVerb r.verb) with
  | none =>
    refine .inr ⟨fun op' parts' h' hoffered' hverb' => ?_, ?_⟩
    · have hsome := Route.lookup_ofPattern.2
        ⟨op', hoffered', (h.unique h').1.symm, hverb', rfl⟩
      rw [hlookup] at hsome
      cases hsome
    · rw [Route.below, hlookup]
      exact ⟨_, rfl⟩
  | some action =>
    obtain ⟨op', hoffered', hpattern, hverb', rfl⟩ := Route.lookup_ofPattern.1 hlookup
    have h' := h.of_pattern_eq hpattern
    refine .inl ⟨op', h', hoffered', hverb', ?_⟩
    rw [Route.below, hlookup, bindingsOf, bindingsOf, (h.unique h').2.1]

/-- On a path of no offered operation nothing is run, and most such paths are unknown. -/
theorem receive_of_not_addresses (hpath : IsPath r.target.path)
    (hnone : ∀ op parts, Addresses prefixText r.target.path op parts →
      capabilities.supports op = false) :
    ∃ response, receive (routesBelow prefixText capabilities) r = .answer response ∧
      (r.verb ≠ "OPTIONS" → r.target.path ≠ pathOf ["health".toList] →
        r.target.path ≠ Route.baseText prefixText ++ pathOf ["version".toList] →
        response.status = 404) := by
  obtain hfind | ⟨action, pattern, hfind, hknown⟩ := findRoute_of_not_addresses hpath hnone
  · rw [receive, hfind]
    exact ⟨_, rfl, fun hverb _ _ => if_neg hverb⟩
  · have hanswer : ∃ response, receive (routesBelow prefixText capabilities) r = .answer response := by
      rw [receive, hfind]
      dsimp only
      split_ifs
      · exact ⟨_, rfl⟩
      · cases hlookup : List.lookup (Route.answeringVerb r.verb) [("GET", action)] with
        | none => exact ⟨_, rfl⟩
        | some action' =>
          have hnodup := List.nodup_singleton "GET"
          have hmem := (lookup_eq_some_iff_mem (l := [("GET", action)]) hnodup).1 hlookup
          obtain ⟨-, rfl⟩ := Prod.mk.inj (List.mem_singleton.1 hmem)
          obtain ⟨rfl, -⟩ | ⟨rfl, -⟩ := hknown
          · exact ⟨_, rfl⟩
          · exact ⟨_, rfl⟩
    obtain ⟨response, hresponse⟩ := hanswer
    refine ⟨response, hresponse, fun _ hhealth hversion => ?_⟩
    obtain ⟨-, h⟩ | ⟨-, h⟩ := hknown
    · exact absurd h hhealth
    · exact absurd h hversion

theorem receive_options (routes : List Route) (hverb : r.verb = "OPTIONS") :
    ∃ response, receive routes r = .answer response ∧ response.status = 200 := by
  rw [receive]
  split
  · exact ⟨_, rfl, if_pos hverb⟩
  · exact ⟨_, if_pos hverb, rfl⟩

/-- A request reaches an operation. -/
structure Reaches (prefixText : String) (capabilities : Capabilities) (r : Request) (op : Operation)
    (parts : List (List Char)) : Prop where
  addresses : Addresses prefixText r.target.path op parts
  verb : op.verb = Route.answeringVerb r.verb
  offered : capabilities.supports op = true
  readable : ∀ part ∈ parts, IsReadable part
  fits : Fits r op

/-- A path with a verb belongs to one operation. -/
theorem Addresses.eq_of_verb {path : List Char} {op' : Operation} {parts' : List (List Char)}
    (h : Addresses prefixText path op parts) (h' : Addresses prefixText path op' parts')
    (hverb : op.verb = op'.verb) : op = op' ∧ parts = parts' := by
  obtain ⟨hpattern, -, hparts⟩ := h.unique h'
  exact ⟨Operation.eq_of_pattern_eq hpattern hverb, hparts⟩

/-- On the path and with the verb of an offered operation the command of the request is run. -/
theorem receive_of_verb (h : Addresses prefixText r.target.path op parts) (hpath : IsPath r.target.path)
    (hoffered : capabilities.supports op = true) (hverb : op.verb = Route.answeringVerb r.verb) :
    receive (routesBelow prefixText capabilities) r =
      perform r (bindingsOf op parts) (.operation op) := by
  obtain ⟨op', h', -, hverb', hreceive⟩ | ⟨hnone, -⟩ :=
    receive_of_addresses h hpath hoffered (ne_options hverb)
  · obtain ⟨rfl, -⟩ := h.eq_of_verb h' (hverb.trans hverb'.symm)
    exact hreceive
  · exact absurd hverb (hnone op parts h hoffered)

/-- What reaches an operation becomes a command of it, with the texts that stand in the path. -/
theorem Reaches.receive (h : Reaches prefixText capabilities r op parts) (hpath : IsPath r.target.path)
    (hvalues : List.Forall₂ StandsFor parts values) :
    ∃ c, Http.receive (routesBelow prefixText capabilities) r = .run c ∧ IsCommandOf r op values c := by
  rw [receive_of_verb h.addresses hpath h.offered h.verb, perform]
  obtain ⟨c, hc, hparts⟩ := ((command_bindingsOf h.addresses.length).1 values hvalues).1 h.fits
  exact ⟨c, by rw [hc], hparts⟩

/-- Only what reaches an operation becomes a command. -/
theorem reaches_of_receive (hpath : IsPath r.target.path)
    (h : receive (routesBelow prefixText capabilities) r = .run c) :
    ∃ parts, Reaches prefixText capabilities r c.operation parts := by
  have hanswer : ∀ response, receive (routesBelow prefixText capabilities) r ≠ .answer response := by
    rw [h]
    nofun
  have hverb : r.verb ≠ "OPTIONS" := by
    intro hoptions
    obtain ⟨response, hresponse, -⟩ := receive_options (routesBelow prefixText capabilities) hoptions
    exact hanswer response hresponse
  by_cases hknown : ∃ op parts, Addresses prefixText r.target.path op parts ∧
      capabilities.supports op = true
  · obtain ⟨op, parts, haddresses, hoffered⟩ := hknown
    obtain ⟨op', h', hoffered', hverb', hreceive⟩ | ⟨-, headers, hreceive⟩ :=
      receive_of_addresses haddresses hpath hoffered hverb
    · rw [h, perform] at hreceive
      split at hreceive
      · next c' hcommand =>
        cases hreceive
        obtain ⟨values, hvalues, hfits, rfl⟩ := of_command_eq_ok hcommand
        have hread := (mapM_value_bindingsOf h'.length).1 hvalues
        exact ⟨parts, h', hverb', hoffered', exists_forall₂_standsFor.1 ⟨values, hread⟩, hfits⟩
      · cases hreceive
    · exact absurd hreceive (hanswer _)
  · obtain ⟨response, hresponse, -⟩ := receive_of_not_addresses hpath fun op parts haddresses =>
      Bool.eq_false_iff.2 fun hoffered => hknown ⟨op, parts, haddresses, hoffered⟩
    exact absurd hresponse (hanswer response)

/-- The commands that requests become are those of the operations that they reach. -/
theorem exists_run_iff (hpath : IsPath r.target.path) :
    (∃ c, receive (routesBelow prefixText capabilities) r = .run c ∧ c.operation = op) ↔
      ∃ parts, Reaches prefixText capabilities r op parts := by
  constructor
  · rintro ⟨c, hreceive, rfl⟩
    exact reaches_of_receive hpath hreceive
  · rintro ⟨parts, h⟩
    obtain ⟨values, hvalues⟩ := exists_forall₂_standsFor.2 h.readable
    obtain ⟨c, hreceive, hcommand⟩ := h.receive hpath hvalues
    exact ⟨c, hreceive, hcommand.operation⟩

theorem receive_of_not_readable (h : Addresses prefixText r.target.path op parts)
    (hpath : IsPath r.target.path) (hoffered : capabilities.supports op = true)
    (hverb : op.verb = Route.answeringVerb r.verb) (hnot : ¬ ∀ part ∈ parts, IsReadable part) :
    ∃ response, Http.receive (routesBelow prefixText capabilities) r = .answer response ∧
      response.status = 400 := by
  obtain ⟨response, hcommand, hstatus⟩ := (command_bindingsOf h.length).2 hnot
  rw [receive_of_verb h hpath hoffered hverb, perform, hcommand]
  exact ⟨response, rfl, hstatus⟩

theorem receive_of_not_fits (h : Addresses prefixText r.target.path op parts)
    (hpath : IsPath r.target.path) (hoffered : capabilities.supports op = true)
    (hverb : op.verb = Route.answeringVerb r.verb) (hreadable : ∀ part ∈ parts, IsReadable part)
    (hnot : ¬ Fits r op) :
    ∃ response, Http.receive (routesBelow prefixText capabilities) r = .answer response ∧
      response.status = 413 := by
  obtain ⟨values, hvalues⟩ := exists_forall₂_standsFor.2 hreadable
  obtain ⟨response, hcommand, hstatus⟩ := ((command_bindingsOf h.length).1 values hvalues).2 hnot
  rw [receive_of_verb h hpath hoffered hverb, perform, hcommand]
  exact ⟨response, rfl, hstatus⟩

end Receive

section Send

variable (r) (response : Response)

theorem status_send : (send r response).status = response.status := by
  rw [send]
  split <;> rfl

/-- A response is sent with the length of its body in bytes, also if the body is left out. -/
theorem headers_send : (send r response).headers = response.headers ++
    ("content-length", toString (Utf8.encode response.body).length) :: sharingHeaders r.verb := by
  rw [← Utf8.byteLength_eq, ← List.singleton_append, ← List.append_assoc, send]
  split <;> rfl

theorem body_send : (send r response).body = if r.verb = "HEAD" then [] else response.body := by
  rw [send]
  split <;> rfl

end Send

section Serve

variable {σ : Type} {e : Executor σ} {routes : List Route}

theorem serve_answer {response : Response} (h : receive routes r = .answer response) (s : σ)
    (log : List JobCommand) :
    serve e.recorded routes r (s, log) = (send r response, e.rest s, log) := by
  simp only [serve, begin, h]
  rfl

theorem serve_run (h : receive routes r = .run c) (s : σ) (log : List JobCommand) :
    serve e.recorded routes r (s, log) =
      (send r (resultResponse c (e.run c s).1), (e.run c s).2, log ++ [c]) := by
  simp only [serve, begin, h]
  rfl

end Serve

/-- Below a plain prefix, with any set of operations offered, every request leads to one command at most.
It leads to one of an operation exactly if it reaches that operation, and then the response is the
rendered result of the command, with its status, as JSON, and without the body if only the headers were
asked for. So nothing is run that is not offered. A path of no offered operation is
unknown, and one that has offered operations, but not with the verb of the request, does not allow it. -/
theorem requests_routed {σ : Type} (e : Executor σ) {prefixText : String}
    (hplain : IsPlainPrefix prefixText) :
    ∃ routes, Route.all? prefixText e.capabilities = some routes ∧
      ∀ (verb : String) (text : List Char) (body : List UInt8) (s : σ) (log : List JobCommand),
        let r : Request := ⟨verb, .parse text, body⟩
        let path := r.target.path
        let served := serve e.recorded routes r (s, log)
        (∃ c? : Option JobCommand, served.2.2 = log ++ c?.toList ∧
          (∀ op, (∃ c ∈ c?, c.operation = op) ↔
            ∃ parts, Reaches prefixText e.capabilities r op parts) ∧
          (∀ c ∈ c?, e.capabilities.supports c.operation = true ∧
            served.2.1 = (e.run c s).2 ∧
            let answer := envelope c.operation (e.run c s).1
            served.1 = send r (.json answer.1 answer.2.render) ∧
            served.1.status = answer.1 ∧
            served.1.headers = ("content-type", "application/json") ::
              ("content-length", toString (Utf8.encode answer.2.render).length) ::
              sharingHeaders verb ∧
            served.1.body = if verb = "HEAD" then [] else answer.2.render) ∧
          (c? = none → served.2.1 = e.rest s)) ∧
        (verb = "OPTIONS" → served.1.status = 200) ∧
        (verb ≠ "OPTIONS" →
          ((∀ op parts, Addresses prefixText path op parts → e.capabilities.supports op = false) →
            path ≠ "/health".toList → path ≠ Route.baseText prefixText ++ "/version".toList →
            served.1.status = 404) ∧
          ∀ op parts, Addresses prefixText path op parts → e.capabilities.supports op = true →
            ((∀ op' parts', Addresses prefixText path op' parts' →
                e.capabilities.supports op' = true → op'.verb ≠ Route.answeringVerb verb) →
              served.1.status = 405) ∧
            (op.verb = Route.answeringVerb verb →
              ((¬ ∀ part ∈ parts, IsReadable part) → served.1.status = 400) ∧
              ((∀ part ∈ parts, IsReadable part) → ¬ Fits r op → served.1.status = 413))) := by
  refine ⟨routesBelow prefixText e.capabilities, Route.all?_of_plain hplain _, ?_⟩
  intro verb text body s log r path served
  have hpath : IsPath r.target.path := Target.isPath_parse text
  have hstatus : ∀ n, (∃ response, receive (routesBelow prefixText e.capabilities) r =
      .answer response ∧ response.status = n) → served.1.status = n := by
    rintro n ⟨response, hresponse, hn⟩
    rw [show served = _ from serve_answer hresponse s log]
    exact (status_send r response).trans hn
  refine ⟨?_, fun hverb => hstatus 200 (receive_options _ hverb), fun hverb => ⟨?_, ?_⟩⟩
  · cases hreceive : receive (routesBelow prefixText e.capabilities) r with
    | answer response =>
      have hserved : served = _ := serve_answer hreceive s log
      refine ⟨none, ?_, fun op => ?_, nofun, fun _ => by rw [hserved]⟩
      · rw [hserved]
        exact (List.append_nil log).symm
      · rw [← exists_run_iff hpath, hreceive]
        simp
    | run c =>
      have hserved : served = _ := serve_run hreceive s log
      obtain ⟨parts, hreaches⟩ := reaches_of_receive hpath hreceive
      refine ⟨some c, by rw [hserved]; rfl, fun op => ?_, ?_, nofun⟩
      · rw [← exists_run_iff hpath, hreceive]
        simp
      · rintro _ hc
        cases hc
        refine ⟨hreaches.offered, by rw [hserved], ?_⟩
        rw [hserved]
        exact ⟨rfl, status_send r _, headers_send r _, body_send r _⟩
  · intro hnone hhealth hversion
    obtain ⟨response, hresponse, hunknown⟩ := receive_of_not_addresses hpath hnone
    exact hstatus 404 ⟨response, hresponse, hunknown hverb hhealth hversion⟩
  · intro op parts h hoffered
    refine ⟨fun hnone => ?_, fun hop => ⟨?_, ?_⟩⟩
    · obtain ⟨op', h', hoffered', hverb', -⟩ | ⟨-, headers, hresponse⟩ :=
        receive_of_addresses h hpath hoffered hverb
      · exact absurd hverb' (hnone op' parts h' hoffered')
      · exact hstatus 405 ⟨_, hresponse, rfl⟩
    · exact fun hnot => hstatus 400 (receive_of_not_readable h hpath hoffered hop hnot)
    · exact fun hread hnot => hstatus 413 (receive_of_not_fits h hpath hoffered hop hread hnot)

/-- A gateway that offers nothing but lists of jobs, and has one job to list. -/
theorem only_lists_routed :
    let e : Executor JobTable :=
      .sync { JobTable.delegate with capabilities := .ofList [.listJobs] }
    let table := (JobTable.delegate.invoke (.createJob (.full "c" "r" "e" "n") ⟨[120]⟩) .empty).2
    let listed :=
      "\x7b\"count\":1,\"jobs\":\x7b\"1\":\"c/r/e/n\"\x7d,\"key\":\"c/r\",\"status\":\"success\"\x7d"
    IsPlainPrefix "//app/" ∧ ∃ routes, Route.all? "//app/" e.capabilities = some routes ∧
      let served verb (text : String) :=
        serve e.recorded routes ⟨verb, .parse text.toList, []⟩ (table, [])
      (∀ verb, verb = "GET" ∨ verb = "HEAD" →
        (served verb "/app/jobs/c/r").2.2 = [.listJobs (.role "c" "r")] ∧
        (served verb "/app/jobs/c/r").1.status = 200 ∧
        (served verb "/app/jobs/c/r").1.headers = ("content-type", "application/json") ::
          ("content-length", "65") :: sharingHeaders verb ∧
        (served verb "/app/jobs/c/r").1.body = if verb = "HEAD" then [] else listed.toList) ∧
      (served "DELETE" "/app/jobs/c/r").1.status = 405 ∧
      (served "PUT" "/app/jobs/c/r/e/n").1.status = 404 := by
  intro e table listed
  have hplain : IsPlainPrefix "//app/" := by decide
  obtain ⟨routes, hroutes, hserve⟩ := requests_routed e hplain
  have hrole : Addresses "//app/" "/app/jobs/c/r".toList .listJobs ["c".toList, "r".toList] :=
    ⟨by decide, rfl, by decide, by decide⟩
  have hjob : Addresses "//app/" "/app/jobs/c/r/e/n".toList .createJob
      ["c".toList, "r".toList, "e".toList, "n".toList] := ⟨by decide, rfl, by decide, by decide⟩
  have honly : ∀ op, e.capabilities.supports op = true → op = .listJobs := by
    intro op hop
    exact List.mem_singleton.1 ((Capabilities.supports_ofList _ _).1 hop)
  refine ⟨hplain, routes, hroutes, fun verb hverb => ?_, ?_, ?_⟩
  · obtain ⟨⟨c?, hlog, hreaches, hanswer, -⟩, -⟩ :=
      hserve verb "/app/jobs/c/r".toList [] table []
    have hlogged : (serve e.recorded routes ⟨verb, .parse "/app/jobs/c/r".toList, []⟩
        (table, [])).2.2 = [.listJobs (.role "c" "r")] := by
      rw [Option.some.inj (hroutes.symm.trans (Route.all?_of_plain hplain _))]
      obtain rfl | rfl := hverb <;> decide +kernel
    obtain rfl : c? = some (.listJobs (.role "c" "r")) :=
      Option.toList_eq_singleton_iff.1 (hlog.symm.trans hlogged)
    obtain ⟨-, -, -, hstatus, hheaders, hbody⟩ := hanswer _ rfl
    have hrendered : (envelope .listJobs (e.run (.listJobs (.role "c" "r")) table).1).2.render =
        listed.toList := by decide +kernel
    have hfound : (envelope .listJobs (e.run (.listJobs (.role "c" "r")) table).1).1 = 200 := by
      decide +kernel
    refine ⟨hlogged, hstatus.trans hfound, hheaders.trans ?_, hbody.trans ?_⟩
    · rw [JobCommand.operation, hrendered, show (Utf8.encode listed.toList).length = 65 by decide +kernel]
      rfl
    · rw [JobCommand.operation, hrendered]
  · obtain ⟨-, -, hstatus⟩ := hserve "DELETE" "/app/jobs/c/r".toList [] table []
    refine ((hstatus (by decide)).2 _ _ hrole rfl).1 fun op parts _ hop => ?_
    rw [honly op hop]
    decide
  · obtain ⟨-, -, hstatus⟩ := hserve "PUT" "/app/jobs/c/r/e/n".toList [] table []
    refine (hstatus (by decide)).1 (fun op parts h => ?_) (by decide) (by decide)
    rw [Bool.eq_false_iff]
    intro hop
    rw [honly op hop] at h
    exact absurd (h.unique hjob).1 (by decide)

end Http

end JobGateway
