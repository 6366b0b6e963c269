import JobGateway.Http.Gateway
import JobGateway.Proofs.Http.Path
import JobGateway.Proofs.Text.Map

/-! The routes of a gateway. Below a prefix each offered operation has a path shape of its own and is
found by every path of that shape, whatever else is offered; no other path leads to an operation. -/
namespace JobGateway

namespace Operation

/-- The verb of the requests for an operation. -/
def verb : Operation → String
  | .listJobs => "GET"
  | .createJob | .updateJob | .restartJob => "PUT"
  | .deleteJob | .cancelUpdate => "DELETE"

/-- The parameters in a path of an operation. -/
def parameters : Operation → List String
  | .listJobs => ["cluster", "role"]
  | _ => ["cluster", "role", "env", "name"]

/-- What stands behind the parameters. -/
def tail : Operation → List (List Char)
  | .updateJob | .cancelUpdate => ["update".toList]
  | .restartJob => ["restart".toList]
  | _ => []

def pattern (op : Operation) : List Http.Segment :=
  .fixed "jobs" :: (op.parameters.map .named ++ op.tail.map (⟨·, none⟩))

variable {op op' : Operation}

theorem not_mem_of_mem_tail {s : List Char} (h : s ∈ op.tail) : '/' ∉ s := by
  revert s
  cases op <;> decide

theorem length_parameters (op : Operation) : 2 ≤ op.parameters.length := by
  cases op <;> decide

/-- Operations with paths of one length have the same parameters. -/
theorem parameters_eq_of_length
    (h : op.parameters.length + op.tail.length = op'.parameters.length + op'.tail.length) :
    op.parameters = op'.parameters := by
  revert h
  cases op <;> cases op' <;> decide

/-- No two operations have both the same paths and the same verb. -/
theorem eq_of_pattern_eq (hpattern : op.pattern = op'.pattern) (hverb : op.verb = op'.verb) :
    op = op' := by
  revert hpattern hverb
  cases op <;> cases op' <;> decide

end Operation

namespace Http

/-- A prefix without parameters. -/
def IsPlainPrefix (prefixText : String) : Prop :=
  ':' ∉ prefixText.toList ∧ '*' ∉ prefixText.toList

instance (prefixText : String) : Decidable (IsPlainPrefix prefixText) :=
  inferInstanceAs (Decidable (_ ∧ _))

namespace Route

/-- The path that a prefix stands for. -/
def baseText (prefixText : String) : List Char :=
  let text := Text.strip '/' prefixText.toList
  if text = [] then [] else '/' :: text

def baseTexts (prefixText : String) : List (List Char) := pathSegments (baseText prefixText)

theorem isPath_baseText (prefixText : String) : IsPath (baseText prefixText) := by
  simp only [baseText]
  split
  · exact .inl rfl
  · exact .inr ⟨_, rfl⟩

@[simp] theorem pathOf_baseTexts (prefixText : String) :
    pathOf (baseTexts prefixText) = baseText prefixText :=
  pathOf_pathSegments (isPath_baseText prefixText)

/-- What the segments of a path below a prefix are. -/
theorem pathSegments_below {prefixText : String} {segments : List (List Char)}
    (h : ∀ s ∈ segments, '/' ∉ s) :
    pathSegments (baseText prefixText ++ pathOf segments) = baseTexts prefixText ++ segments := by
  rw [← pathOf_baseTexts, ← pathOf_append]
  refine pathSegments_pathOf fun s hs => ?_
  exact (List.mem_append.1 hs).elim (fun hs => not_mem_of_mem_pathSegments hs) (h s)

theorem mem_of_mem_baseTexts {prefixText : String} {s : List Char} (hs : s ∈ baseTexts prefixText)
    {c : Char} (hc : c ∈ s) : c ∈ prefixText.toList := by
  have hslash : c ≠ '/' := by
    rintro rfl
    exact not_mem_of_mem_pathSegments hs hc
  have hbase : c ∈ pathOf (baseTexts prefixText) :=
    List.mem_flatMap.2 ⟨s, hs, List.mem_cons_of_mem _ hc⟩
  simp only [pathOf_baseTexts, baseText] at hbase
  split at hbase
  · cases hbase
  · exact Text.mem_of_mem_strip ((List.mem_cons.1 hbase).resolve_left hslash)

theorem parse?_of_not_mem {s : List Char} (hcolon : ':' ∉ s) (hstar : '*' ∉ s) :
    Segment.parse? s = some ⟨s, none⟩ := by
  rw [Segment.parse?, if_neg (by simpa using hstar), Text.split_of_not_mem hcolon]

/-- A plain prefix is a pattern of texts. -/
theorem base?_of_plain {prefixText : String} (h : IsPlainPrefix prefixText) :
    base? prefixText = some ((baseTexts prefixText).map (⟨·, none⟩)) := by
  have hparse : ∀ texts : List (List Char), (∀ s ∈ texts, s ∈ baseTexts prefixText) →
      texts.mapM Segment.parse? = some (texts.map (⟨·, none⟩)) := by
    intro texts htexts
    induction texts with
    | nil => rfl
    | cons s texts ih =>
      have hs := htexts s List.mem_cons_self
      rw [List.mapM_cons, parse?_of_not_mem (fun hc => h.1 (mem_of_mem_baseTexts hs hc))
        (fun hc => h.2 (mem_of_mem_baseTexts hs hc)),
        ih fun t ht => htexts t (List.mem_cons_of_mem _ ht)]
      rfl
  have hall := hparse _ fun s hs => hs
  revert hall
  simp only [base?, baseTexts, baseText, List.isEmpty_iff]
  split
  · exact fun _ => rfl
  · intro hall
    rw [← hall, pathSegments, Text.split, if_pos rfl, List.tail_cons]

variable {capabilities : Capabilities} {base : List Segment} {r : Route} {op op' : Operation}

/-- The route of the offered operations with a pattern. -/
def ofPattern (capabilities : Capabilities) (pattern : List Segment) : Route where
  pattern := pattern
  actions := (Operation.all.filter fun op =>
    capabilities.supports op && decide (op.pattern = pattern)).map fun op => (op.verb, .operation op)

theorem lookup_ofPattern {pattern : List Segment} {verb : String} {action : Action} :
    (ofPattern capabilities pattern).actions.lookup verb = some action ↔
      ∃ op : Operation, capabilities.supports op = true ∧ op.pattern = pattern ∧ op.verb = verb ∧
        action = .operation op := by
  rw [ofPattern, lookup_eq_some_iff_mem]
  · simp only [List.mem_map, List.mem_filter, Operation.mem_all, true_and, Bool.and_eq_true,
      decide_eq_true_eq, Prod.mk.injEq]
    refine exists_congr fun op => ?_
    rw [eq_comm (a := Action.operation op)]
    tauto
  · rw [List.map_map]
    refine (List.Nodup.filter _ (by decide)).map_on fun op hop op' hop' hverb => ?_
    have hpattern := (List.mem_filter.1 hop).2
    have hpattern' := (List.mem_filter.1 hop').2
    rw [Bool.and_eq_true, decide_eq_true_eq] at hpattern hpattern'
    exact Operation.eq_of_pattern_eq (hpattern.2.trans hpattern'.2.symm) hverb

/-- The table of the operations tells what their verbs and patterns are. -/
theorem operationRoutes_eq : operationRoutes =
    [Operation.listJobs, .createJob, .updateJob, .restartJob].map fun op =>
      (op.pattern, (Operation.all.filter fun op' => op'.pattern = op.pattern).map fun op' =>
        (op'.verb, op')) := by
  rfl

theorem exists_mem_ofPattern {pattern : List Segment} :
    (∃ v, v ∈ (ofPattern capabilities pattern).actions) ↔
      ∃ op : Operation, capabilities.supports op = true ∧ op.pattern = pattern := by
  simp only [ofPattern, List.mem_map, List.mem_filter, Operation.mem_all, true_and,
    Bool.and_eq_true, decide_eq_true_eq]
  constructor
  · rintro ⟨-, op, hop, -⟩
    exact ⟨op, hop⟩
  · rintro ⟨op, hop⟩
    exact ⟨_, op, hop, rfl⟩

/-- There is a route for every offered operation, and no other. -/
theorem mem_offeredRoutes :
    r ∈ offeredRoutes capabilities ↔
      ∃ op : Operation, capabilities.supports op = true ∧ r = ofPattern capabilities op.pattern := by
  have hpatterns : ∀ op : Operation,
      ∃ op' ∈ [Operation.listJobs, .createJob, .updateJob, .restartJob], op'.pattern = op.pattern := by
    intro op
    cases op <;> decide
  have hroutes : offeredRoutes capabilities =
      ([Operation.listJobs, .createJob, .updateJob, .restartJob].map fun op =>
        ofPattern capabilities op.pattern).filter fun r => !r.actions.isEmpty := by
    rw [offeredRoutes, operationRoutes_eq, List.map_map]
    simp only [Function.comp_def, List.filter_map, List.map_map, List.filter_filter, ofPattern]
  rw [hroutes, List.mem_filter, List.mem_map, Bool.not_eq_true', List.isEmpty_eq_false_iff_exists_mem]
  constructor
  · rintro ⟨⟨op, -, rfl⟩, hsome⟩
    obtain ⟨op', hoffered, hpattern⟩ := exists_mem_ofPattern.1 hsome
    exact ⟨op', hoffered, by rw [hpattern]⟩
  · rintro ⟨op, hoffered, rfl⟩
    obtain ⟨op', hmem, hpattern⟩ := hpatterns op
    exact ⟨⟨op', hmem, by rw [hpattern]⟩, exists_mem_ofPattern.2 ⟨op, hoffered, rfl⟩⟩

theorem mem_all : r ∈ all base capabilities ↔
    r = ⟨[.fixed "health"], [("GET", .health)]⟩ ∨
    r = below base ⟨[.fixed "version"], [("GET", .version)]⟩ ∨
    ∃ op : Operation, capabilities.supports op = true ∧
      r = below base (ofPattern capabilities op.pattern) := by
  simp only [all, List.map_cons, List.mem_cons, List.mem_map, mem_offeredRoutes]
  refine or_congr Iff.rfl (or_congr Iff.rfl ?_)
  constructor
  · rintro ⟨_, ⟨op, hoffered, rfl⟩, rfl⟩
    exact ⟨op, hoffered, rfl⟩
  · rintro ⟨op, hoffered, rfl⟩
    exact ⟨_, ⟨op, hoffered, rfl⟩, rfl⟩

/-- Below a plain prefix the routes of any set of operations keep the rules. -/
theorem all?_of_plain {prefixText : String} (h : IsPlainPrefix prefixText)
    (capabilities : Capabilities) : all? prefixText capabilities =
      some (all ((baseTexts prefixText).map (⟨·, none⟩)) capabilities) := by
  have hbelow : ∀ r : Route,
      (below ((baseTexts prefixText).map (⟨·, none⟩)) r).parameterCount = r.parameterCount := by
    intro r
    rw [parameterCount, below, List.countP_append, List.countP_map, List.countP_eq_zero.2 (by simp),
      Nat.zero_add, parameterCount]
  have hcount : ∀ op : Operation, op.pattern.countP (·.parameter.isSome) ≤ maxParameters := by
    intro op
    cases op <;> decide
  have hall : (all ((baseTexts prefixText).map (⟨·, none⟩)) capabilities).all
      (fun r => r.parameterCount ≤ maxParameters) = true := by
    refine List.all_eq_true.2 fun r hr => decide_eq_true ?_
    obtain rfl | rfl | ⟨op, -, rfl⟩ := mem_all.1 hr
    · decide
    · rw [hbelow]
      decide
    · rw [hbelow]
      exact hcount op
  simp only [all?, base?_of_plain h, Option.bind_eq_bind, Option.bind_some, hall, if_true]

end Route

/-- A path below a prefix has the shape of an operation: texts without slashes stand for its parameters.
If nothing stands behind the parameters, the last of these texts is not empty. -/
structure Addresses (prefixText : String) (path : List Char) (op : Operation)
    (parts : List (List Char)) : Prop where
  path : path = Route.baseText prefixText ++ pathOf ("jobs".toList :: (parts ++ op.tail))
  length : parts.length = op.parameters.length
  slash : ∀ part ∈ parts, '/' ∉ part
  last : op.tail = [] → parts.getLast? ≠ some []

section Find

variable {prefixText : String} {path : List Char} {op op' : Operation}
  {parts parts' : List (List Char)} {capabilities : Capabilities}

theorem Addresses.pathSegments (h : Addresses prefixText path op parts) :
    pathSegments path = Route.baseTexts prefixText ++ "jobs".toList :: (parts ++ op.tail) := by
  rw [h.path]
  refine Route.pathSegments_below fun s hs => ?_
  obtain rfl | hs := List.mem_cons.1 hs
  · decide
  · exact (List.mem_append.1 hs).elim (h.slash s) op.not_mem_of_mem_tail

/-- What a path addresses, it addresses in one way. -/
theorem Addresses.unique (h : Addresses prefixText path op parts)
    (h' : Addresses prefixText path op' parts') :
    op.pattern = op'.pattern ∧ op.parameters = op'.parameters ∧ parts = parts' := by
  have hsegments := h.pathSegments.symm.trans h'.pathSegments
  have hrest : parts ++ op.tail = parts' ++ op'.tail :=
    (List.cons.inj (List.append_cancel_left hsegments)).2
  have hlength := congrArg List.length hrest
  rw [List.length_append, List.length_append, h.length, h'.length] at hlength
  have hparameters := Operation.parameters_eq_of_length hlength
  obtain ⟨hparts, htail⟩ := List.append_inj hrest
    (by rw [h.length, h'.length, hparameters])
  exact ⟨by rw [Operation.pattern, Operation.pattern, hparameters, htail], hparameters, hparts⟩

/-- What stands for the parameters of an operation. -/
def bindingsOf (op : Operation) (parts : List (List Char)) : List Binding :=
  List.zipWith Binding.mk op.parameters parts

/-- A path matches the pattern of an operation exactly if it has its shape. -/
theorem matches_iff (hpath : IsPath path) {bindings : List Binding} :
    matchSegments ((Route.baseTexts prefixText).map (⟨·, none⟩) ++ op.pattern) (pathSegments path) =
        some bindings ↔
      ∃ parts, Addresses prefixText path op parts ∧ bindings = bindingsOf op parts := by
  have hpattern : (Route.baseTexts prefixText).map (⟨·, none⟩) ++ op.pattern =
      (Route.baseTexts prefixText ++ ["jobs".toList]).map (⟨·, none⟩) ++
        (op.parameters.map .named ++ op.tail.map (⟨·, none⟩)) := by
    rw [List.map_append, List.append_assoc]
    rfl
  rw [hpattern, matchSegments_texts_iff]
  constructor
  · rintro ⟨rest, hsegments, hrest⟩
    obtain ⟨parts, hlength, rfl, hlast, rfl⟩ := (matchSegments_named_iff _ _).1 hrest
    obtain ⟨rfl, hslash⟩ := (pathSegments_eq_iff hpath).1 hsegments
    refine ⟨parts, ⟨?_, hlength, fun part hpart => ?_, hlast⟩, rfl⟩
    · rw [List.append_assoc, pathOf_append, Route.pathOf_baseTexts]
      rfl
    · exact hslash part (List.mem_append_right _ (List.mem_append_left _ hpart))
  · rintro ⟨parts, h, rfl⟩
    refine ⟨parts ++ op.tail, ?_, (matchSegments_named_iff _ _).2
      ⟨parts, h.length, rfl, h.last, rfl⟩⟩
    rw [h.pathSegments, List.append_assoc]
    rfl

/-- The routes of a gateway below a plain prefix. -/
def routesBelow (prefixText : String) (capabilities : Capabilities) : List Route :=
  Route.all ((Route.baseTexts prefixText).map (⟨·, none⟩)) capabilities

theorem findRoute_eq_some {routes : List Route} {route : Route} {bindings : List Binding}
    (h : findRoute routes path = some (route, bindings)) :
    route ∈ routes ∧ matchSegments route.pattern (pathSegments path) = some bindings := by
  obtain ⟨r, hr, hmatch⟩ := List.exists_of_findSome?_eq_some h
  obtain ⟨b, hb, heq⟩ := Option.map_eq_some_iff.1 hmatch
  cases heq
  exact ⟨hr, hb⟩

theorem findRoute_eq_none_iff {routes : List Route} : findRoute routes path = none ↔
    ∀ route ∈ routes, matchSegments route.pattern (pathSegments path) = none := by
  simp [findRoute, List.findSome?_eq_none_iff]

theorem mem_routesBelow {r : Route} : r ∈ routesBelow prefixText capabilities ↔
    r = ⟨[.fixed "health"], [("GET", .health)]⟩ ∨
    r = .below ((Route.baseTexts prefixText).map (⟨·, none⟩))
      ⟨[.fixed "version"], [("GET", .version)]⟩ ∨
    ∃ op : Operation, capabilities.supports op = true ∧
      r = .below ((Route.baseTexts prefixText).map (⟨·, none⟩)) (.ofPattern capabilities op.pattern) :=
  Route.mem_all

theorem matches_health_iff (hpath : IsPath path) {bindings : List Binding} :
    matchSegments [.fixed "health"] (pathSegments path) = some bindings ↔
      path = pathOf ["health".toList] ∧ bindings = [] := by
  refine (matchSegments_only_texts_iff ["health".toList]).trans (and_congr_left fun _ => ?_)
  rw [pathSegments_eq_iff hpath]
  exact and_iff_left (by decide)

theorem matches_version_iff (hpath : IsPath path) {bindings : List Binding} :
    matchSegments ((Route.baseTexts prefixText).map (⟨·, none⟩) ++ [.fixed "version"])
        (pathSegments path) = some bindings ↔
      path = Route.baseText prefixText ++ pathOf ["version".toList] ∧ bindings = [] := by
  have htexts := @matchSegments_only_texts_iff (pathSegments path) bindings
    (Route.baseTexts prefixText ++ ["version".toList])
  rw [List.map_append] at htexts
  refine htexts.trans (and_congr_left fun _ => ?_)
  rw [← Route.pathSegments_below (by decide)]
  constructor
  · intro h
    rw [← pathOf_pathSegments hpath, h, Route.pathSegments_below (by decide), pathOf_append,
      Route.pathOf_baseTexts]
  · exact congrArg pathSegments

/-- The path of an offered operation leads to its route. -/
theorem Addresses.findRoute (h : Addresses prefixText path op parts) (hpath : IsPath path)
    (hoffered : capabilities.supports op = true) :
    findRoute (routesBelow prefixText capabilities) path =
      some (.below ((Route.baseTexts prefixText).map (⟨·, none⟩)) (.ofPattern capabilities op.pattern),
        bindingsOf op parts) := by
  have hsegments := h.pathSegments
  cases hfind : Http.findRoute (routesBelow prefixText capabilities) path with
  | none =>
    have hnone := findRoute_eq_none_iff.1 hfind _ (mem_routesBelow.2 (.inr (.inr ⟨op, hoffered, rfl⟩)))
    have hsome := (matches_iff hpath).2 ⟨parts, h, rfl⟩
    rw [Route.below, Route.ofPattern] at hnone
    rw [hnone] at hsome
    cases hsome
  | some found =>
    obtain ⟨route, bindings⟩ := found
    obtain ⟨hmem, hmatch⟩ := findRoute_eq_some hfind
    have hlength := congrArg List.length hsegments
    have htwo := op.length_parameters
    rw [← h.length] at htwo
    simp only [List.length_append, List.length_cons] at hlength
    obtain rfl | rfl | ⟨op', -, rfl⟩ := mem_routesBelow.1 hmem
    · obtain ⟨rfl, -⟩ := (matches_health_iff hpath).1 hmatch
      rw [pathSegments_pathOf (by decide), List.length_singleton] at hlength
      omega
    · obtain ⟨rfl, -⟩ := (matches_version_iff hpath).1 hmatch
      rw [Route.pathSegments_below (by decide), List.length_append, List.length_singleton] at hlength
      omega
    · obtain ⟨parts', h', rfl⟩ := (matches_iff hpath).1 hmatch
      obtain ⟨hpattern, hparameters, rfl⟩ := h.unique h'
      rw [bindingsOf, bindingsOf, hpattern, hparameters]

/-- A path that is known, but of no offered operation, is one of two. -/
theorem findRoute_of_not_addresses (hpath : IsPath path)
    (hnone : ∀ op parts, Addresses prefixText path op parts → capabilities.supports op = false) :
    findRoute (routesBelow prefixText capabilities) path = none ∨
      ∃ action pattern, findRoute (routesBelow prefixText capabilities) path =
          some (⟨pattern, [("GET", action)]⟩, []) ∧
        (action = .health ∧ path = pathOf ["health".toList] ∨
          action = .version ∧ path = Route.baseText prefixText ++ pathOf ["version".toList]) := by
  cases hfind : Http.findRoute (routesBelow prefixText capabilities) path with
  | none => exact .inl rfl
  | some found =>
    obtain ⟨route, bindings⟩ := found
    obtain ⟨hmem, hmatch⟩ := findRoute_eq_some hfind
    refine .inr ?_
    obtain rfl | rfl | ⟨op, hoffered, rfl⟩ := mem_routesBelow.1 hmem
    · obtain ⟨hhealth, rfl⟩ := (matches_health_iff hpath).1 hmatch
      exact ⟨.health, _, rfl, .inl ⟨rfl, hhealth⟩⟩
    · obtain ⟨hversion, rfl⟩ := (matches_version_iff hpath).1 hmatch
      exact ⟨.version, _, rfl, .inr ⟨rfl, hversion⟩⟩
    · obtain ⟨parts, h, -⟩ := (matches_iff hpath).1 hmatch
      rw [hnone op parts h] at hoffered
      cases hoffered

end Find

end Http

end JobGateway
