import JobGateway.Executor.Exchange
import Mathlib.Tactic.Common

/-! What a handle yields, in whatever order the two ends of an exchange are used. A handle waits until
the promise is used. The first look after that yields what became of the promise, in both ways of
looking, and no later one yields the result again. -/
namespace JobGateway.Exchange

namespace Step

/-- A look for the result, in either way. -/
def isLook : Step → Bool
  | .tryTake => true
  | .poll => true
  | _ => false

theorem isLook_iff {s : Step} : s.isLook = true ↔ s = .tryTake ∨ s = .poll := by
  cases s <;> simp [isLook]

/-- What a step makes of a promise that is not used yet. -/
def fate? : Step → Option Promise
  | .resolve result => some (.resolved result)
  | .dropPromise => some .dropped
  | _ => none

end Step

/-- What became of the promise in some steps: the first that uses it decides. -/
def fate (steps : List Step) : Promise := (steps.findSome? Step.fate?).getD .pending

/-- The answers to some steps on a new exchange. -/
def answers (c : JobCommand) (steps : List Step) : List Answer := ((new c).run steps).1

/-- The answer to a step on a new exchange, with steps before it and after it. -/
def answerTo (c : JobCommand) (before : List Step) (s : Step) (after : List Step) : Option Answer :=
  (answers c (before ++ s :: after))[before.length]?

variable {c : JobCommand} {x : Exchange} {s look : Step} {steps : List Step}

theorem run_cons (x : Exchange) (s : Step) (steps : List Step) : x.run (s :: steps) =
    ((x.step s).1 :: ((x.step s).2.run steps).1, ((x.step s).2.run steps).2) := rfl

theorem run_append (x : Exchange) (before after : List Step) : x.run (before ++ after) =
    ((x.run before).1 ++ ((x.run before).2.run after).1, ((x.run before).2.run after).2) := by
  induction before generalizing x with
  | nil => rfl
  | cons s before ih => rw [List.cons_append, run_cons, ih, run_cons, List.cons_append]

@[simp] theorem length_run (x : Exchange) (steps : List Step) :
    (x.run steps).1.length = steps.length := by
  induction steps generalizing x with
  | nil => rfl
  | cons s steps ih => rw [run_cons, List.length_cons, ih, List.length_cons]

theorem answers_append_cons (c : JobCommand) (before : List Step) (s : Step) (after : List Step) :
    answers c (before ++ s :: after) = answers c before ++ (((new c).run before).2.step s).1 ::
      ((((new c).run before).2.step s).2.run after).1 := by
  rw [answers, run_append, run_cons, answers]

/-- The answer to a step is given by the state that the steps before it lead to. -/
theorem answerTo_eq (c : JobCommand) (before : List Step) (s : Step) (after : List Step) :
    answerTo c before s after = some (((new c).run before).2.step s).1 := by
  rw [answerTo, answers_append_cons, List.getElem?_append_right (by simp [answers]), answers,
    length_run, Nat.sub_self, List.getElem?_cons_zero]

theorem fate_cons_of_none (h : s.fate? = none) : fate (s :: steps) = fate steps := by
  rw [fate, List.findSome?_cons, h]
  rfl

theorem fate_cons_of_some {p : Promise} (h : s.fate? = some p) : fate (s :: steps) = p := by
  rw [fate, List.findSome?_cons, h]
  rfl

theorem ne_pending_of_fate? {p : Promise} (h : s.fate? = some p) : p ≠ .pending := by
  rintro rfl
  cases s <;> cases h

/-- A step that does not use the promise leaves it as it is. -/
theorem promise_step_of_none (h : s.fate? = none) (x : Exchange) :
    (x.step s).2.promise = x.promise := by
  obtain ⟨p, handle⟩ := x
  cases s with
  | resolve | dropPromise => cases h
  | dropHandle | tryTake | poll => cases handle <;> rfl

theorem step_of_used (hused : x.promise ≠ .pending) {p : Promise} (h : s.fate? = some p) :
    x.step s = (.noPromise, x) := by
  obtain ⟨promise, handle⟩ := x
  cases s with
  | resolve | dropPromise =>
    cases promise with
    | pending => exact absurd rfl hused
    | resolved | dropped => rfl
  | dropHandle | tryTake | poll => cases h

/-- A promise is used once. -/
theorem promise_run_of_used (hused : x.promise ≠ .pending) (steps : List Step) :
    (x.run steps).2.promise = x.promise := by
  induction steps generalizing x with
  | nil => rfl
  | cons s steps ih =>
    have hstep : (x.step s).2.promise = x.promise := by
      cases h : s.fate? with
      | none => exact promise_step_of_none h x
      | some p => rw [step_of_used hused h]
    rw [run_cons]
    exact (ih (hstep ▸ hused)).trans hstep

theorem promise_run_new (c : JobCommand) (steps : List Step) :
    ((new c).run steps).2.promise = fate steps := by
  have hrun : ∀ x : Exchange, x.promise = .pending → (x.run steps).2.promise = fate steps := by
    induction steps with
    | nil => exact fun x hx => hx
    | cons s steps ih =>
      intro x hx
      rw [run_cons]
      cases h : s.fate? with
      | none =>
        rw [fate_cons_of_none h]
        exact ih _ ((promise_step_of_none h x).trans hx)
      | some p =>
        have hstep : (x.step s).2.promise = p := by
          obtain ⟨promise, handle⟩ := x
          obtain rfl : promise = .pending := hx
          cases s <;> cases h <;> rfl
        rw [fate_cons_of_some h]
        exact (promise_run_of_used (hstep ▸ ne_pending_of_fate? h) steps).trans hstep
  exact hrun (new c) rfl

/-- As long as the promise is not used, looks change nothing. -/
theorem run_new_of_pending (hfate : fate steps = .pending) (hheld : .dropHandle ∉ steps) :
    ((new c).run steps).2 = new c := by
  induction steps with
  | nil => rfl
  | cons s steps ih =>
    rw [List.mem_cons, not_or] at hheld
    cases h : s.fate? with
    | some p => exact absurd ((fate_cons_of_some h).symm.trans hfate) (ne_pending_of_fate? h)
    | none =>
      have hstep : ((new c).step s).2 = new c := by
        cases s with
        | resolve | dropPromise => cases h
        | dropHandle => exact absurd rfl hheld.1
        | tryTake | poll => rfl
      rw [fate_cons_of_none h] at hfate
      rw [run_cons, hstep]
      exact ih hfate hheld.2

/-- Once the promise is used, all else than a look changes nothing. -/
theorem run_of_unseen (hused : x.promise ≠ .pending) (hunseen : ∀ s ∈ steps, s.isLook = false)
    (hheld : .dropHandle ∉ steps) : (x.run steps).2 = x := by
  induction steps with
  | nil => rfl
  | cons s steps ih =>
    rw [List.mem_cons, not_or] at hheld
    rw [List.forall_mem_cons] at hunseen
    have hstep : (x.step s).2 = x := by
      cases s with
      | resolve | dropPromise => rw [step_of_used hused rfl]
      | dropHandle => exact absurd rfl hheld.1
      | tryTake | poll => cases hunseen.1
    rw [run_cons, hstep]
    exact ih hunseen.2 hheld.2

/-- A handle that was dropped does not come back. -/
theorem handle_run_of_none (h : x.handle = none) (steps : List Step) :
    (x.run steps).2.handle = none := by
  induction steps generalizing x with
  | nil => exact h
  | cons s steps ih =>
    have hstep : (x.step s).2.handle = none := by
      obtain ⟨promise, handle⟩ := x
      obtain rfl : handle = none := h
      cases s with
      | resolve | dropPromise => cases promise <;> rfl
      | dropHandle | tryTake | poll => rfl
    rw [run_cons]
    exact ih hstep

theorem handle_run_of_dropHandle (h : .dropHandle ∈ steps) (x : Exchange) :
    (x.run steps).2.handle = none := by
  obtain ⟨before, after, rfl⟩ := List.append_of_mem h
  rw [run_append, run_cons]
  refine handle_run_of_none ?_ after
  obtain ⟨promise, handle⟩ := (x.run before).2
  cases handle <;> rfl

/-- A handle that yielded its result stays as it is until it is dropped. -/
theorem handle_run_of_spent (h : x.handle = some ⟨c, true⟩) (hheld : .dropHandle ∉ steps) :
    (x.run steps).2.handle = some ⟨c, true⟩ := by
  induction steps generalizing x with
  | nil => exact h
  | cons s steps ih =>
    rw [List.mem_cons, not_or] at hheld
    have hstep : (x.step s).2.handle = some ⟨c, true⟩ := by
      obtain ⟨promise, handle⟩ := x
      obtain rfl : handle = _ := h
      cases s with
      | resolve | dropPromise => cases promise <;> rfl
      | dropHandle => exact absurd rfl hheld.1
      | tryTake | poll => rfl
    rw [run_cons]
    exact ih hstep hheld.2

/-- No look at a handle can tell any more what became of the promise. -/
def Deaf (handle : Option Handle) : Prop := ∀ h ∈ handle, h.spent = true

theorem deaf_none : Deaf none := nofun

theorem resolved_ne_pending (result : JobResult) : Promise.resolved result ≠ .pending := nofun

theorem dropped_ne_pending : Promise.dropped ≠ .pending := nofun

theorem deaf_some (c : JobCommand) : Deaf (some ⟨c, true⟩) := by
  rintro h ⟨⟩
  rfl

theorem step_of_deaf {handle : Option Handle} (hdeaf : Deaf handle) {p p' : Promise}
    (hp : p ≠ .pending) (hp' : p' ≠ .pending) (s : Step) :
    ∃ answer handle', Deaf handle' ∧ step ⟨p, handle⟩ s = (answer, ⟨p, handle'⟩) ∧
      step ⟨p', handle⟩ s = (answer, ⟨p', handle'⟩) := by
  cases hs : s.fate? with
  | some q => exact ⟨_, _, hdeaf, step_of_used hp hs, step_of_used hp' hs⟩
  | none =>
    cases handle with
    | none =>
      cases s with
      | resolve | dropPromise => cases hs
      | dropHandle | tryTake | poll => exact ⟨_, _, hdeaf, rfl, rfl⟩
    | some h =>
      obtain ⟨c, spent⟩ := h
      obtain rfl : spent = true := hdeaf _ rfl
      cases s with
      | resolve | dropPromise => cases hs
      | dropHandle => exact ⟨_, _, deaf_none, rfl, rfl⟩
      | tryTake | poll => exact ⟨_, _, hdeaf, rfl, rfl⟩

/-- What became of the promise makes no difference to a handle that was dropped or is spent. -/
theorem run_of_deaf {handle : Option Handle} (hdeaf : Deaf handle) {p p' : Promise}
    (hp : p ≠ .pending) (hp' : p' ≠ .pending) (steps : List Step) :
    (run ⟨p, handle⟩ steps).1 = (run ⟨p', handle⟩ steps).1 := by
  induction steps generalizing handle with
  | nil => rfl
  | cons s steps ih =>
    obtain ⟨answer, handle', hdeaf', hstep, hstep'⟩ := step_of_deaf hdeaf hp hp' s
    rw [run_cons, run_cons, hstep, hstep', ih hdeaf']

/-- The answers of two runs are the same but for one answer, which yields the results that the runs
were given. -/
def DifferOnce (result result' : JobResult) (given given' : List Answer) : Prop :=
  given = given' ∨ ∃ front back, given = front ++ .yielded (some result) :: back ∧
    given' = front ++ .yielded (some result') :: back

theorem DifferOnce.append_left {result result' : JobResult} {given given' : List Answer}
    (h : DifferOnce result result' given given') (front : List Answer) :
    DifferOnce result result' (front ++ given) (front ++ given') := by
  obtain rfl | ⟨front', back, rfl, rfl⟩ := h
  · exact .inl rfl
  · exact .inr ⟨front ++ front', back, (List.append_assoc ..).symm, (List.append_assoc ..).symm⟩

theorem DifferOnce.cons {result result' : JobResult} {given given' : List Answer}
    (h : DifferOnce result result' given given') (answer : Answer) :
    DifferOnce result result' (answer :: given) (answer :: given') := h.append_left [answer]

theorem run_resolved_differOnce (c : JobCommand) (result result' : JobResult) (steps : List Step) :
    DifferOnce result result' (run ⟨.resolved result, some ⟨c, false⟩⟩ steps).1
      (run ⟨.resolved result', some ⟨c, false⟩⟩ steps).1 := by
  induction steps with
  | nil => exact .inl rfl
  | cons s steps ih =>
    rw [run_cons, run_cons]
    cases s with
    | resolve | dropPromise => exact ih.cons _
    | dropHandle =>
      have hrest := run_of_deaf deaf_none (resolved_ne_pending result)
        (resolved_ne_pending result') steps
      exact .inl (congrArg (Answer.dropped :: ·) hrest)
    | tryTake | poll =>
      have hrest := run_of_deaf (deaf_some c) (resolved_ne_pending result')
        (resolved_ne_pending result) steps
      exact .inr ⟨[], _, rfl, congrArg (Answer.yielded (some result') :: ·) hrest⟩

/-- How the two ends of an exchange work together. -/
structure KeepsPromise (c : JobCommand) : Prop where
  /-- Until the promise is used, a look yields nothing. -/
  waiting : ∀ before look after, fate before = .pending → .dropHandle ∉ before →
    look.isLook = true → answerTo c before look after = some (.yielded none)
  /-- The first look after the promise was resolved yields the result. -/
  resolved : ∀ before result unseen look after, fate before = .pending →
    (∀ s ∈ unseen, s.isLook = false) → .dropHandle ∉ before ++ unseen → look.isLook = true →
    answerTo c (before ++ .resolve result :: unseen) look after = some (.yielded (some result))
  /-- The first look after the promise was dropped yields a failure of the command. -/
  dropped : ∀ before unseen look after, fate before = .pending →
    (∀ s ∈ unseen, s.isLook = false) → .dropHandle ∉ before ++ unseen → look.isLook = true →
    answerTo c (before ++ .dropPromise :: unseen) look after = some (.yielded
      (some ⟨c.jobKey, .empty c.operation, some ["request was dropped before it completed"]⟩))
  /-- A look after the one that yielded the result does not yield it: the one way of looking answers
  as if the promise had been dropped, the other is not allowed any more. -/
  spent : ∀ before result unseen first between look after, fate before = .pending →
    (∀ s ∈ unseen, s.isLook = false) → .dropHandle ∉ before ++ unseen ++ between →
    first.isLook = true → look.isLook = true →
    answerTo c (before ++ .resolve result :: unseen ++ first :: between) look after =
      some (if look = .tryTake then .yielded (some ⟨c.jobKey, .empty c.operation,
        some ["request was dropped before it completed"]⟩) else .misused)
  /-- The result shows in one answer at most. -/
  once : ∀ before result result' after, fate before = .pending →
    DifferOnce result result' (answers c (before ++ .resolve result :: after))
      (answers c (before ++ .resolve result' :: after))
  /-- Without a handle there is nothing to look at. -/
  deaf : ∀ before look after, .dropHandle ∈ before → look.isLook = true →
    answerTo c before look after = some .noHandle
  /-- Without a handle, to resolve the promise is no more than to drop it. -/
  unheard : ∀ before result after, .dropHandle ∈ before → fate before = .pending →
    ∃ rest, answers c (before ++ .resolve result :: after) = answers c before ++ .resolved :: rest ∧
      answers c (before ++ .dropPromise :: after) = answers c before ++ .dropped :: rest

theorem step_resolve_of_pending (hpending : x.promise = .pending) (result : JobResult) :
    x.step (.resolve result) = (.resolved, ⟨.resolved result, x.handle⟩) := by
  obtain ⟨promise, handle⟩ := x
  obtain rfl : promise = .pending := hpending
  rfl

theorem step_dropPromise_of_pending (hpending : x.promise = .pending) :
    x.step .dropPromise = (.dropped, ⟨.dropped, x.handle⟩) := by
  obtain ⟨promise, handle⟩ := x
  obtain rfl : promise = .pending := hpending
  rfl

/-- The promise is used, and the handle is still as it was. -/
theorem run_new_of_used {before unseen : List Step} {p : Promise} (hfate : fate before = .pending)
    (hp : s.fate? = some p) (hunseen : ∀ s ∈ unseen, s.isLook = false)
    (hheld : .dropHandle ∉ before ++ unseen) :
    ((new c).run (before ++ s :: unseen)).2 = ⟨p, some ⟨c, false⟩⟩ := by
  rw [List.mem_append, not_or] at hheld
  have hstep : ((new c).step s).2 = ⟨p, some ⟨c, false⟩⟩ := by
    cases s <;> cases hp <;> rfl
  rw [run_append, run_new_of_pending hfate hheld.1, run_cons, hstep]
  exact run_of_unseen (ne_pending_of_fate? hp) hunseen hheld.2

theorem step_look_of_resolved (hlook : look.isLook = true) (result : JobResult) :
    step ⟨.resolved result, some ⟨c, false⟩⟩ look =
      (.yielded (some result), ⟨.resolved result, some ⟨c, true⟩⟩) := by
  obtain rfl | rfl := Step.isLook_iff.1 hlook <;> rfl

end JobGateway.Exchange
