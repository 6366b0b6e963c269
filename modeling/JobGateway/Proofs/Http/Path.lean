import JobGateway.Http.Route
import JobGateway.Http.Target
import JobGateway.Proofs.Text.Split

/-! Paths and their segments. A path is determined by what stands behind each of its slashes; and it
matches a pattern of texts and parameters exactly if it is those texts, with segments of its own in the
place of the parameters. -/
namespace JobGateway

namespace Http

/-- The path of the given segments. -/
def pathOf (segments : List (List Char)) : List Char := segments.flatMap fun s => '/' :: s

@[simp] theorem pathOf_nil : pathOf [] = [] := rfl

@[simp] theorem pathOf_cons (s : List Char) (segments : List (List Char)) :
    pathOf (s :: segments) = '/' :: s ++ pathOf segments := rfl

@[simp] theorem pathOf_append (s t : List (List Char)) : pathOf (s ++ t) = pathOf s ++ pathOf t :=
  List.flatMap_append

/-- What can be a path of a target: nothing, or what begins with a slash. -/
def IsPath (path : List Char) : Prop := path = [] ∨ ∃ rest, path = '/' :: rest

theorem pathOf_split (s : List Char) : pathOf (Text.split '/' s) = '/' :: s := by
  induction s with
  | nil => rfl
  | cons c s ih =>
    obtain ⟨piece, pieces, hs⟩ := List.exists_cons_of_ne_nil (Text.split_ne_nil '/' s)
    rw [Text.split]
    rw [hs, pathOf_cons, List.cons_append, List.cons.injEq] at ih
    split
    · next hc =>
      rw [hc, hs, pathOf_cons, pathOf_cons, List.cons_append, List.cons_append, ih.2,
        List.nil_append]
    · rw [hs, Text.consFirst, pathOf_cons, List.cons_append, List.cons_append, ih.2]

theorem split_pathOf {s : List Char} {segments : List (List Char)} (hs : '/' ∉ s)
    (h : ∀ part ∈ segments, '/' ∉ part) :
    Text.split '/' (s ++ pathOf segments) = s :: segments := by
  induction segments generalizing s with
  | nil => rw [pathOf_nil, List.append_nil, Text.split_of_not_mem hs]
  | cons part segments ih =>
    rw [pathOf_cons, List.cons_append, Text.split_append_cons hs,
      ih (h part List.mem_cons_self) fun t ht => h t (List.mem_cons_of_mem _ ht)]

theorem pathSegments_pathOf {segments : List (List Char)} (h : ∀ s ∈ segments, '/' ∉ s) :
    pathSegments (pathOf segments) = segments := by
  cases segments with
  | nil => rfl
  | cons s segments =>
    have hsplit := split_pathOf (List.not_mem_nil : '/' ∉ []) h
    rw [List.nil_append] at hsplit
    rw [pathSegments, hsplit, List.tail_cons]

theorem pathOf_pathSegments {path : List Char} (h : IsPath path) :
    pathOf (pathSegments path) = path := by
  obtain rfl | ⟨rest, rfl⟩ := h
  · rfl
  · rw [pathSegments, Text.split, if_pos rfl, List.tail_cons, pathOf_split]

theorem not_mem_of_mem_pathSegments {path s : List Char} (h : s ∈ pathSegments path) : '/' ∉ s :=
  Text.not_mem_of_mem_split (List.mem_of_mem_tail h)

/-- The segments of a path are the texts between its slashes, whose path it is. -/
theorem pathSegments_eq_iff {path : List Char} (h : IsPath path) {segments : List (List Char)} :
    pathSegments path = segments ↔ path = pathOf segments ∧ ∀ s ∈ segments, '/' ∉ s := by
  constructor
  · rintro rfl
    exact ⟨(pathOf_pathSegments h).symm, fun s hs => not_mem_of_mem_pathSegments hs⟩
  · rintro ⟨rfl, hslash⟩
    exact pathSegments_pathOf hslash

namespace Target

theorem ofResource_path_cons {c : Char} (s : List Char) (hfragment : c ≠ '#') (hquery : c ≠ '?') :
    (ofResource (c :: s)).path = c :: (ofResource s).path := by
  simp only [ofResource, Text.cutAt_cons hfragment, Text.cutAt_cons hquery]

/-- A text that ends an authority or is empty begins with the path, which then may be empty. -/
theorem isPath_ofResource {s : List Char} (h : ∀ c ∈ s.head?, endsAuthority c = true) :
    IsPath (ofResource s).path := by
  cases s with
  | nil => exact .inl rfl
  | cons c s =>
    have hc := h c rfl
    simp only [endsAuthority, Bool.or_eq_true, beq_iff_eq] at hc
    obtain (rfl | rfl) | rfl := hc
    · exact .inr ⟨_, ofResource_path_cons s (by decide) (by decide)⟩
    · exact .inl rfl
    · exact .inl rfl

/-- The path of a target is empty or begins with a slash. -/
theorem isPath_parse (s : List Char) : IsPath (parse s).path := by
  rw [parse]
  split
  · next hhead =>
    refine isPath_ofResource fun c hc => ?_
    rw [hhead, Option.mem_some_iff] at hc
    rw [← hc]
    rfl
  · split
    · exact .inl rfl
    · next rest _ =>
      dsimp only
      split
      · exact .inr ⟨[], rfl⟩
      · refine isPath_ofResource fun c hc => ?_
        have hends := List.head?_dropWhile_not (fun c => !endsAuthority c) rest
        rw [Option.mem_def] at hc
        rw [hc] at hends
        simpa using hends

end Target

section Match

variable {pattern : List Segment} {segments : List (List Char)} {bindings : List Binding}

theorem matchSegments_text_cons (text part : List Char) (pattern : List Segment)
    (path : List (List Char)) :
    matchSegments (⟨text, none⟩ :: pattern) (part :: path) =
      if part = text then matchSegments pattern path else none := by
  rw [matchSegments, Segment.rest?]
  by_cases hprefix : text.isPrefixOf part = true
  · obtain ⟨rest, rfl⟩ := List.isPrefixOf_iff_prefix.1 hprefix
    rw [if_pos hprefix]
    simp
  · rw [if_neg hprefix, if_neg]
    · rfl
    · rintro rfl
      exact hprefix (List.isPrefixOf_iff_prefix.2 (List.prefix_refl part))

theorem matchSegments_named_cons (name : String) (part : List Char) (pattern : List Segment)
    (path : List (List Char)) :
    matchSegments (.named name :: pattern) (part :: path) =
      if part = [] ∧ path = [] then none
      else (matchSegments pattern path).map (⟨name, part⟩ :: ·) := by
  have hrest : (Segment.named name).rest? part = some part := by
    cases part <;> rfl
  rw [matchSegments, hrest]
  simp only [Segment.named, Option.bind_eq_bind, Option.bind_some, Bool.and_eq_true,
    List.isEmpty_iff]
  split
  · rfl
  · cases matchSegments pattern path <;> rfl

/-- Texts match themselves only. -/
theorem matchSegments_texts_iff (texts : List (List Char)) :
    matchSegments (texts.map (⟨·, none⟩) ++ pattern) segments = some bindings ↔
      ∃ rest, segments = texts ++ rest ∧ matchSegments pattern rest = some bindings := by
  induction texts generalizing segments with
  | nil => simp
  | cons text texts ih =>
    cases segments with
    | nil => simp [matchSegments]
    | cons part path =>
      rw [List.map_cons, List.cons_append, matchSegments_text_cons]
      by_cases hpart : part = text
      · rw [if_pos hpart, ih, hpart]
        simp
      · rw [if_neg hpart]
        simp [hpart]

theorem matchSegments_nil_iff : matchSegments [] segments = some bindings ↔
    segments = [] ∧ bindings = [] := by
  cases segments <;> simp [matchSegments, eq_comm]

theorem matchSegments_only_texts_iff (texts : List (List Char)) :
    matchSegments (texts.map (⟨·, none⟩)) segments = some bindings ↔
      segments = texts ∧ bindings = [] := by
  have htexts := @matchSegments_texts_iff [] segments bindings texts
  rw [List.append_nil] at htexts
  simp [htexts, matchSegments_nil_iff]

/-- Parameters with texts behind them match what ends in these texts, with one segment more for each
parameter. If no text is behind the parameters, the last of them does not stand for nothing. -/
theorem matchSegments_named_iff (names : List String) (texts : List (List Char)) :
    matchSegments (names.map .named ++ texts.map (⟨·, none⟩)) segments = some bindings ↔
      ∃ parts, parts.length = names.length ∧ segments = parts ++ texts ∧
        (texts = [] → parts.getLast? ≠ some []) ∧ bindings = List.zipWith Binding.mk names parts := by
  induction names generalizing segments bindings with
  | nil => simp [matchSegments_only_texts_iff]
  | cons name names ih =>
    cases segments with
    | nil =>
      simp only [List.map_cons, List.cons_append, matchSegments, List.length_cons, reduceCtorEq,
        false_iff, not_exists]
      rintro parts ⟨hlength, hparts, -⟩
      rw [(List.append_eq_nil_iff.1 hparts.symm).1] at hlength
      cases hlength
    | cons part path =>
      rw [List.map_cons, List.cons_append, matchSegments_named_cons]
      constructor
      · intro h
        split at h
        · cases h
        next hsome =>
        obtain ⟨more, hmore, rfl⟩ := Option.map_eq_some_iff.1 h
        obtain ⟨parts, hlength, rfl, hlast, rfl⟩ := ih.1 hmore
        refine ⟨part :: parts, by simp [hlength], rfl, fun htexts hnone => ?_, rfl⟩
        cases parts with
        | nil => exact hsome ⟨by simpa using hnone, by simp [htexts]⟩
        | cons => exact hlast htexts (by simpa using hnone)
      · rintro ⟨_ | ⟨part', parts⟩, hlength, hpath, hlast, rfl⟩
        · cases hlength
        obtain ⟨rfl, rfl⟩ := List.cons_eq_cons.1 hpath
        rw [if_neg]
        · refine Option.map_eq_some_iff.2 ⟨_, ih.2 ⟨parts, by simpa using hlength, rfl, ?_, rfl⟩, rfl⟩
          intro htexts hnone
          cases parts with
          | nil => cases hnone
          | cons => exact hlast htexts (by simpa using hnone)
        · rintro ⟨rfl, hnone⟩
          obtain ⟨rfl, rfl⟩ := List.append_eq_nil_iff.1 hnone
          exact hlast rfl rfl

end Match

end Http

end JobGateway
