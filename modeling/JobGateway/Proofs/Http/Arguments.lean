import JobGateway.Proofs.Http.Routing
import JobGateway.Proofs.Http.Spelling

/-! The arguments of a command. Texts that are written into the path and the query of a request, in any of
the ways there are, and the bytes of its body arrive at the executor as they were. -/
namespace JobGateway.Http

variable {prefixText : String} {op : Operation} {parts : List (List Char)} {values : List String}
  {path query tail : List Char} {params : List (String × String)}

/-- A target goes on with a query behind its path, or, without parameters, ends there. -/
def SpellsTail (tail : List Char) (params : List (String × String)) : Prop :=
  (tail = [] ∧ params = []) ∨ ∃ query, tail = '?' :: query ∧ SpellsQuery query params

/-- The target of a path without marks in it, and what its query is read as. -/
theorem parse_of_spellsTail (hslash : path.head? = some '/') (hquery : '?' ∉ path)
    (hfragment : '#' ∉ path) (h : SpellsTail tail params) :
    (Target.parse (path ++ tail)).path = path ∧
      Form.parameters (Utf8.encode (Target.parse (path ++ tail)).query) = params := by
  have hhead : (path ++ tail).head? = some '/' := by
    rw [List.head?_append, hslash]
    rfl
  rw [Target.parse, if_pos hhead, Target.ofResource]
  obtain ⟨rfl, rfl⟩ | ⟨query, rfl, hspells⟩ := h
  · rw [List.append_nil, Text.cutAt_of_not_mem hfragment, Text.cutAt_of_not_mem hquery]
    exact ⟨rfl, rfl⟩
  · have hnot : '#' ∉ path ++ '?' :: query := by
      rw [List.mem_append, List.mem_cons, not_or, not_or]
      exact ⟨hfragment, by decide, hspells.not_mem⟩
    rw [Text.cutAt_of_not_mem hnot, Text.cutAt_append_cons hquery]
    exact ⟨rfl, hspells.parameters⟩

/-- The path of an operation, with segments for its parameters. -/
def operationPath (prefixText : String) (op : Operation) (parts : List (List Char)) : List Char :=
  Route.baseText prefixText ++ pathOf ("jobs".toList :: (parts ++ op.tail))

theorem head?_operationPath (prefixText : String) (op : Operation) (parts : List (List Char)) :
    (operationPath prefixText op parts).head? = some '/' := by
  rw [operationPath, ← Route.pathOf_baseTexts, ← pathOf_append]
  cases Route.baseTexts prefixText <;> rfl

theorem not_mem_pathOf {c : Char} (hc : c ≠ '/') {segments : List (List Char)}
    (h : ∀ s ∈ segments, c ∉ s) : c ∉ pathOf segments := by
  rw [pathOf, List.mem_flatMap]
  rintro ⟨s, hs, hmem⟩
  exact h s hs ((List.mem_cons.1 hmem).resolve_left hc)

/-- No mark of a target stands in the path of an operation, if none stands in the prefix. -/
theorem not_mem_operationPath {c : Char} (hc : c ∈ ['?', '#']) (hbase : c ∉ prefixText.toList)
    (hparts : List.Forall₂ SpellsSegment parts values) : c ∉ operationPath prefixText op parts := by
  have hslash : c ≠ '/' := by
    rintro rfl
    revert hc
    decide
  have hfixed : ∀ s ∈ "jobs".toList :: op.tail, c ∉ s := by
    obtain rfl | hc := List.mem_cons.1 hc
    · cases op <;> decide
    · rw [List.mem_singleton.1 hc]
      cases op <;> decide
  rw [operationPath, ← Route.pathOf_baseTexts, ← pathOf_append]
  refine not_mem_pathOf hslash fun s hs => ?_
  obtain hs | hs := List.mem_append.1 hs
  · exact fun hmem => hbase (Route.mem_of_mem_baseTexts hs hmem)
  obtain rfl | hs := List.mem_cons.1 hs
  · exact hfixed _ List.mem_cons_self
  obtain hs | hs := List.mem_append.1 hs
  · obtain ⟨value, -, hvalue⟩ := exists_of_forall₂ hparts s hs
    exact hvalue.not_mem c (List.mem_cons_of_mem _ hc)
  · exact hfixed s (List.mem_cons_of_mem _ hs)

/-- Segments that are written for texts which are not empty address the operation. -/
theorem addresses_operationPath (hparts : List.Forall₂ SpellsSegment parts values)
    (hlength : values.length = op.parameters.length) (hvalues : ∀ value ∈ values, value ≠ "") :
    Addresses prefixText (operationPath prefixText op parts) op parts := by
  refine ⟨rfl, hparts.length_eq.trans hlength, fun part hpart => ?_, fun _ hnone => ?_⟩
  · obtain ⟨value, -, hvalue⟩ := exists_of_forall₂ hparts part hpart
    exact hvalue.not_mem _ List.mem_cons_self
  · obtain ⟨value, hmem, hvalue⟩ := exists_of_forall₂ hparts [] (List.mem_of_getLast? hnone)
    exact hvalue.ne_nil (hvalues value hmem) rfl

/-- The texts for the parameters of an operation. -/
def valuesOf (cluster role env name : String) : Operation → List String
  | .listJobs => [cluster, role]
  | _ => [cluster, role, env, name]

theorem length_valuesOf (cluster role env name : String) (op : Operation) :
    (valuesOf cluster role env name op).length = op.parameters.length := by
  cases op <;> rfl

/-- Below a plain prefix, a request that is written for any texts, parameters and body leads to exactly
one command. Its key has the texts, its instances are the values of the parameters for instances, in
their order, and its specification is the body; an empty body is a specification only where there must
be one. Every text and all parameters can be written, as the encoders do it. -/
theorem arguments_delivered {σ : Type} (e : Executor σ) {prefixText : String}
    (hplain : IsPlainPrefix prefixText) (hmarks : '?' ∉ prefixText.toList ∧ '#' ∉ prefixText.toList) :
    (∀ value, SpellsSegment (Utf8.ascii (Percent.encode (Utf8.encode value.toList))) value) ∧
    (∀ params, SpellsQuery (Utf8.ascii (Form.encode params)) params) ∧
    ∃ routes, Route.all? prefixText e.capabilities = some routes ∧
      ∀ (op : Operation) (cluster role env name : String) (params : List (String × String))
        (body : List UInt8) (parts : List (List Char)) (tail : List Char) (s : σ)
        (log : List JobCommand),
        e.capabilities.supports op = true →
        cluster ≠ "" → role ≠ "" → env ≠ "" → name ≠ "" → body.length ≤ maxBody →
        List.Forall₂ SpellsSegment parts (valuesOf cluster role env name op) →
        SpellsTail tail params →
        let target := Target.parse (operationPath prefixText op parts ++ tail)
        ∃ c, (serve e.recorded routes ⟨op.verb, target, body⟩ (s, log)).2.2 = log ++ [c] ∧
          c.operation = op ∧
          c.key = (if op = .listJobs then .role cluster role else .full cluster role env name) ∧
          c.instances? = (if op ∈ [.updateJob, .restartJob, .deleteJob] then
            some ⟨(params.filter fun p => p.1 = shardsParameter).map (·.2)⟩ else none) ∧
          c.spec? = (if op = .listJobs then none
            else if op ∈ [.createJob, .updateJob] ∨ body ≠ [] then some ⟨body⟩ else none) := by
  refine ⟨spellsSegment_encode, spellsQuery_encode, routesBelow prefixText e.capabilities,
    Route.all?_of_plain hplain _, ?_⟩
  intro op cluster role env name params body parts tail s log hoffered hcluster hrole henv hname hbody
    hparts htail target
  have hvalues : ∀ value ∈ valuesOf cluster role env name op, value ≠ "" := by
    cases op <;> simp [valuesOf, hcluster, hrole, henv, hname]
  obtain ⟨hpath, hparameters⟩ := parse_of_spellsTail (head?_operationPath prefixText op parts)
    (not_mem_operationPath (by decide) hmarks.1 hparts)
    (not_mem_operationPath (by decide) hmarks.2 hparts) htail
  let r : Request := ⟨op.verb, target, body⟩
  have hstands : List.Forall₂ StandsFor parts (valuesOf cluster role env name op) :=
    hparts.imp fun _ _ hpart => hpart.decode
  have haddresses : Addresses prefixText r.target.path op parts := by
    rw [show r.target.path = _ from hpath]
    exact addresses_operationPath hparts (length_valuesOf ..) hvalues
  have hreaches : Reaches prefixText e.capabilities r op parts :=
    ⟨haddresses, by cases op <;> rfl, hoffered, exists_forall₂_standsFor.1 ⟨_, hstands⟩,
      fun _ => hbody⟩
  obtain ⟨c, hreceive, hcommand⟩ := hreaches.receive (Target.isPath_parse _) hstands
  have hselected : selected r = ⟨(params.filter fun p => p.1 = shardsParameter).map (·.2)⟩ := by
    rw [selected, show Form.parameters (Utf8.encode r.target.query) = params from hparameters]
  refine ⟨c, by rw [serve_run hreceive], hcommand.operation, ?_, ?_, ?_⟩
  · rw [hcommand.key]
    cases op <;> rfl
  · rw [hcommand.instances]
    cases op <;> simp [instancesOf, hselected]
  · rw [hcommand.spec]
    have hoptional : optionalSpec r = if body ≠ [] then some ⟨body⟩ else none := by
      rw [optionalSpec, ite_not]
      exact if_congr List.isEmpty_iff rfl rfl
    cases op <;> simp [specOf, hoptional, r]

/-- Texts full of marks, repeated and empty instances, and a body that is no text. -/
theorem marks_delivered :
    let e : Executor JobTable := .sync JobTable.delegate
    let path := "/app/jobs/a%2Fb/50%25/x%3F%23/%C3%A9%2B%20/update"
    let query := "shards=1%262&shard%3D=0&shards=&shards=1%262"
    ∃ routes, Route.all? "/app" e.capabilities = some routes ∧
      ∃ c, (serve e.recorded routes ⟨"PUT", ⟨path.toList, query.toList⟩, [0xFF, 0]⟩
          (.empty, [])).2.2 = [c] ∧
        c.key = .full "a/b" "50%" "x?#" "é+ " ∧ c.instances? = some ⟨["1&2", "", "1&2"]⟩ ∧
        c.spec? = some ⟨[0xFF, 0]⟩ := by
  intro e path query
  have hplain : IsPlainPrefix "/app" := by decide
  obtain ⟨hsegments, hqueries, routes, hroutes, hserve⟩ := arguments_delivered e hplain (by decide)
  let parts := ["a/b", "50%", "x?#", "é+ "].map fun value =>
    Utf8.ascii (Percent.encode (Utf8.encode value.toList))
  let params := [("shards", "1&2"), ("shard=", "0"), ("shards", ""), ("shards", "1&2")]
  have hparts : List.Forall₂ SpellsSegment parts ["a/b", "50%", "x?#", "é+ "] :=
    List.forall₂_map_left_iff.2 (List.forall₂_same.2 fun value _ => hsegments value)
  have htarget : Target.parse (operationPath "/app" .updateJob parts ++
      '?' :: Utf8.ascii (Form.encode params)) = ⟨path.toList, query.toList⟩ := by
    decide
  obtain ⟨c, hlog, -, hkey, hinstances, hspec⟩ := hserve .updateJob "a/b" "50%" "x?#" "é+ " params
    [0xFF, 0] parts _ .empty [] rfl (by decide) (by decide) (by decide) (by decide) (by decide) hparts
    (.inr ⟨_, rfl, hqueries params⟩)
  rw [htarget] at hlog
  exact ⟨routes, hroutes, c, hlog, hkey, hinstances, hspec⟩

end JobGateway.Http
