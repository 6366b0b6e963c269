import JobGateway.Delegate.Script
import JobGateway.Proofs.Job.Key
import JobGateway.Proofs.Text.Split

/-! The calls of a client program. A command runs the client once at most, and the arguments and the
specification that the client gets tell which command it was: no two commands look the same to it. -/
namespace JobGateway

namespace ClientArgument

/-- An argument as the client sees it, given the path of the specification file. -/
def shown (path : String) : ClientArgument → String
  | .text value => value
  | .specFile => path

end ClientArgument

namespace ClientCall

/-- The run of the client that a command asks for. -/
def ofCommand : JobCommand → ClientCall
  | .listJobs key => list key.cluster key.roleName
  | .createJob key spec => create key spec
  | .updateJob key spec instances => update key spec instances
  | .cancelUpdate key spec => cancelUpdate key spec
  | .restartJob key spec instances => restart key spec instances
  | .deleteJob key _ instances => delete key instances

/-- The arguments as the client sees them, given the path of the specification file. -/
def argv (path : String) (call : ClientCall) : List String :=
  call.arguments.map (ClientArgument.shown path)

end ClientCall

namespace Client

variable {σ α β : Type}

/-- What a command makes of the output of the client. -/
def reading : JobCommand → ProgramOutput → Except CommandError Payload
  | .listJobs _, output => .jobs <$> checkListing output
  | .deleteJob key _ _, output => (fun _ => .deleted [key.text]) <$> check output
  | c, output => (fun _ => .job c.jobKey) <$> check output

theorem map_ask (client : Client σ) (call : ClientCall)
    (read : ProgramOutput → Except CommandError α) (f : α → β) :
    Outcome.map f <$> client.ask call read = client.ask call fun output => f <$> read output := by
  funext s
  change ((Outcome.ofExcept ((client.run call s).1 >>= read)).map f, (client.run call s).2) =
    (Outcome.ofExcept ((client.run call s).1 >>= fun output => f <$> read output),
      (client.run call s).2)
  cases (client.run call s).1 with
  | error e => rfl
  | ok output =>
    refine congrArg (Prod.mk · _) ?_
    change (Outcome.ofExcept (read output)).map f = Outcome.ofExcept (f <$> read output)
    cases read output <;> rfl

/-- A command runs the client once and reads what it printed. -/
theorem call_eq (client : Client σ) (c : JobCommand) :
    client.delegate.call c = client.ask (.ofCommand c) (reading c) := by
  cases c with
  | deleteJob key spec instances =>
    refine (map_ask client _ _ _).trans (congrArg (client.ask _) (funext fun output => ?_))
    change Payload.deleted <$> (fun _ => [key.text]) <$> check output = _ <$> check output
    cases check output <;> rfl
  | _ => exact map_ask client _ _ _

theorem invoke_eq (client : Client σ) (c : JobCommand) (s : σ) :
    client.delegate.invoke c s =
      (Outcome.toResult c.jobKey c.operation
        (.ofExcept ((client.run (.ofCommand c) s).1 >>= reading c)),
        (client.run (.ofCommand c) s).2) := by
  rw [Delegate.invoke, call_eq]
  rfl

/-- A client with the list of the calls that it got. -/
def logged (client : Client σ) : Client (σ × List ClientCall) where
  command := client.command
  start call := fun (s, calls) =>
    let (outcome, s) := client.start call s
    (outcome, s, calls ++ [call])

/-- The calls that the client gets when a command is run. -/
def callsOf (client : Client σ) (c : JobCommand) (s : σ) : List ClientCall :=
  (client.logged.delegate.invoke c (s, [])).2.2

theorem run_logged (client : Client σ) (call : ClientCall) (s : σ) (calls : List ClientCall) :
    (client.logged.run call (s, calls)).2.2 =
      calls ++ if ClientCall.isPassable client.command && call.isPossible then [call] else [] := by
  by_cases h : (ClientCall.isPassable client.command && call.isPossible) = true
  · have hlogged : (ClientCall.isPassable client.logged.command && call.isPossible) = true := h
    rw [if_pos h, run, if_pos hlogged]
    rfl
  · have hlogged : ¬ (ClientCall.isPassable client.logged.command && call.isPossible) = true := h
    rw [if_neg h, run, if_neg hlogged, List.append_nil]
    rfl

theorem callsOf_eq (client : Client σ) (c : JobCommand) (s : σ) : client.callsOf c s =
    if ClientCall.isPassable client.command && (ClientCall.ofCommand c).isPossible then
      [.ofCommand c] else [] := by
  rw [callsOf, invoke_eq]
  exact run_logged client _ s []

theorem eq_of_mem_callsOf {client : Client σ} {c : JobCommand} {s : σ} {call : ClientCall}
    (h : call ∈ client.callsOf c s) : call = .ofCommand c := by
  rw [callsOf_eq] at h
  split at h
  · exact List.mem_singleton.1 h
  · cases h

end Client

namespace Instances

variable {i i' : Instances}

/-- Instances without commas in them are told by their joined text. -/
theorem joined_inj (h : ∀ id ∈ i.ids, ',' ∉ id.toList) (h' : ∀ id ∈ i'.ids, ',' ∉ id.toList)
    (hne : i.isAll = false) (hne' : i'.isAll = false) (hjoined : i.joined = i'.joined) : i = i' := by
  have hsplit : ∀ i : Instances, (∀ id ∈ i.ids, ',' ∉ id.toList) → i.isAll = false →
      Text.split ',' i.joined.toList = i.ids.map String.toList := by
    intro i h hne
    rw [joined, String.toList_intercalate]
    refine Text.split_intercalate ',' ?_ (by simpa [isAll] using hne)
    exact List.forall_mem_map.2 h
  have hids := hsplit i h hne
  rw [hjoined, hsplit i' h' hne'] at hids
  cases i
  cases i'
  rw [Instances.mk.injEq]
  exact (List.map_injective_iff.2 (fun _ _ => String.toList_injective) hids).symm

end Instances

namespace JobKey

variable {k k' : JobKey}

theorem IsPlain.toRole (h : k.IsPlain) : (JobKey.role k.cluster k.roleName).IsPlain := by
  rintro part hpart
  simp only [parts, List.mem_cons, List.not_mem_nil, or_false] at hpart
  obtain rfl | rfl := hpart
  · exact h.cluster
  · exact h.roleName

/-- The text of a plain key of a job is told from a text behind it. -/
theorem text_append_inj (h : k.IsPlain) (h' : k'.IsPlain) (hfull : k.isFull) (hfull' : k'.isFull)
    {s s' : String} (htext : k.text ++ "/" ++ s = k'.text ++ "/" ++ s') : k = k' ∧ s = s' := by
  have hpieces : ∀ (k : JobKey) (s : String), k.IsPlain → k.isFull →
      (Text.split '/' (k.text ++ "/" ++ s).toList).take 4 = k.parts.map String.toList := by
    intro k s h hfull
    cases k with
    | role c r => cases hfull
    | full c r e n =>
      have hchars : (text (.full c r e n) ++ "/" ++ s).toList = c.toList ++ '/' :: (r.toList ++
          '/' :: (e.toList ++ '/' :: (n.toList ++ '/' :: s.toList))) := by
        simp [text, fullText]
      rw [hchars, Text.split_append_cons (h c (by simp [parts])),
        Text.split_append_cons (h r (by simp [parts])),
        Text.split_append_cons (h e (by simp [parts])),
        Text.split_append_cons (h n (by simp [parts]))]
      rfl
  have hparts : k.parts.map String.toList = k'.parts.map String.toList := by
    rw [← hpieces k s h hfull, htext, hpieces k' s' h' hfull']
  obtain rfl := parts_inj.1
    (List.map_injective_iff.2 (fun _ _ => String.toList_injective) hparts)
  have hchars := congrArg String.toList htext
  simp only [String.toList_append, List.append_cancel_left_eq, String.toList_inj] at hchars
  exact ⟨rfl, hchars⟩

end JobKey

namespace JobCommand

/-- The client can tell the key and the instances of the command from their texts: no part of the key
holds a slash, no instance a comma, and only a list may name a role in place of a job. -/
structure IsTellable (c : JobCommand) : Prop where
  plain : c.key.IsPlain
  full : c.operation ≠ .listJobs → c.key.isFull
  ids : ∀ i, c.instances? = some i → ∀ id ∈ i.ids, ',' ∉ id.toList

/-- The word that comes first on the command line. -/
def verb : JobCommand → String
  | .listJobs _ => "list_jobs"
  | .createJob .. => "create"
  | .updateJob .. => "update"
  | .cancelUpdate .. => "cancel_update"
  | .restartJob .. => "restart"
  | .deleteJob _ _ instances => if instances.isAll then "killall" else "kill"

end JobCommand

namespace ClientCall

variable {path : String} {c c' : JobCommand}

theorem head?_argv (path : String) (c : JobCommand) :
    (argv path (ofCommand c)).head? = some c.verb := by
  cases c with
  | deleteJob key spec instances =>
    simp only [ofCommand, delete, JobCommand.verb]
    split <;> rfl
  | _ => rfl

/-- The first word tells the operation, and whether a delete selects instances. -/
theorem operation_eq_of_verb (h : c.verb = c'.verb) : c.operation = c'.operation := by
  cases c <;> cases c' <;> simp only [JobCommand.verb] at h <;> first
    | rfl
    | exact absurd h (by decide)
    | split at h <;> exact absurd h (by decide)

theorem argv_shards (path : String) (instances : Instances) :
    (shards instances).map (ClientArgument.shown path) =
      if instances.isAll then [] else [s!"--shards={instances.joined}"] := by
  rw [shards]
  split <;> rfl

/-- The argument for the instances tells them. -/
theorem shards_inj {i i' : Instances} (h : ∀ id ∈ i.ids, ',' ∉ id.toList)
    (h' : ∀ id ∈ i'.ids, ',' ∉ id.toList)
    (hshards : (shards i).map (ClientArgument.shown path) =
      (shards i').map (ClientArgument.shown path)) : i = i' := by
  rw [argv_shards, argv_shards] at hshards
  split at hshards <;> split at hshards
  · next hall hall' =>
    simp only [Instances.isAll, List.isEmpty_iff] at hall hall'
    cases i
    cases i'
    cases hall
    cases hall'
    rfl
  · cases hshards
  · cases hshards
  · next hsome hsome' =>
    rw [Bool.not_eq_true] at hsome hsome'
    refine Instances.joined_inj h h' hsome hsome' ?_
    have htext : "--shards=" ++ i.joined = "--shards=" ++ i'.joined := List.singleton_inj.1 hshards
    simpa [← String.toList_inj] using htext

/-- Arguments with the instances in front of the others, of which there are equally many. -/
theorem shards_append_inj {i i' : Instances} (h : ∀ id ∈ i.ids, ',' ∉ id.toList)
    (h' : ∀ id ∈ i'.ids, ',' ∉ id.toList) (more more' : List ClientArgument)
    (hlen : more.length = more'.length)
    (hargs : (shards i ++ more).map (ClientArgument.shown path) =
      (shards i' ++ more').map (ClientArgument.shown path)) :
    i = i' ∧ more.map (ClientArgument.shown path) = more'.map (ClientArgument.shown path) := by
  rw [List.map_append, List.map_append] at hargs
  obtain ⟨hshards, hmore⟩ := List.append_inj' hargs (by rw [List.length_map, List.length_map, hlen])
  exact ⟨shards_inj h h' hshards, hmore⟩

/-- What a delete names tells the job and the instances. -/
theorem delete_inj {k k' : JobKey} (hk : k.IsPlain) (hk' : k'.IsPlain) (hfull : k.isFull)
    (hfull' : k'.isFull) {i i' : Instances} (h : ∀ id ∈ i.ids, ',' ∉ id.toList)
    (h' : ∀ id ∈ i'.ids, ',' ∉ id.toList)
    (hargs : argv path (delete k i) = argv path (delete k' i')) : k = k' ∧ i = i' := by
  unfold delete at hargs
  split at hargs <;> split at hargs
  · next hall hall' =>
    simp only [Instances.isAll, List.isEmpty_iff] at hall hall'
    cases i
    cases i'
    cases hall
    cases hall'
    simp only [argv, List.map_cons, List.map_nil, ClientArgument.shown, List.cons.injEq, true_and,
      and_true] at hargs
    exact ⟨(JobKey.text_inj hk hk').1 hargs, rfl⟩
  · simp [argv, ClientArgument.shown] at hargs
  · simp [argv, ClientArgument.shown] at hargs
  · next hsome hsome' =>
    rw [Bool.not_eq_true] at hsome hsome'
    simp only [argv, List.map_cons, List.map_nil, ClientArgument.shown, List.cons.injEq, true_and,
      and_true] at hargs
    obtain ⟨hkey, hjoined⟩ := JobKey.text_append_inj hk hk' hfull hfull' hargs
    exact ⟨hkey, Instances.joined_inj h h' hsome hsome' hjoined⟩

end ClientCall

namespace JobCommand

open ClientCall

variable {path : String} {c c' : JobCommand}

/-- What two commands have in common that look the same to the client: all but the specification that
a delete may have. -/
def Alike (c c' : JobCommand) : Prop :=
  c.operation = c'.operation ∧ c.key.cluster = c'.key.cluster ∧ c.key.roleName = c'.key.roleName ∧
    (c.operation ≠ .listJobs → c.key = c'.key) ∧ c.instances? = c'.instances? ∧
    (c.operation ≠ .deleteJob → c.spec? = c'.spec?)

theorem Alike.of_key_eq (hop : c.operation = c'.operation) (hkey : c.key = c'.key)
    (hids : c.instances? = c'.instances?)
    (hspec : c.operation ≠ .deleteJob → c.spec? = c'.spec?) : c.Alike c' := by
  rw [Alike, hkey]
  exact ⟨hop, rfl, rfl, fun _ => rfl, hids, hspec⟩

/-- Commands for which the client is run alike are alike. -/
theorem alike_of_argv_eq (h : c.IsTellable) (h' : c'.IsTellable)
    (hargs : argv path (ofCommand c) = argv path (ofCommand c'))
    (hspec : (ofCommand c).spec = (ofCommand c').spec) : c.Alike c' := by
  have hhead := congrArg List.head? hargs
  rw [head?_argv, head?_argv] at hhead
  have hop := operation_eq_of_verb (Option.some.inj hhead)
  cases c with
  | listJobs key =>
    cases c' <;> cases hop
    next key' =>
    simp only [argv, ofCommand, list, List.map_cons, List.map_nil, ClientArgument.shown,
      List.cons.injEq, true_and, and_true] at hargs
    have hroles := (JobKey.text_inj h.plain.toRole h'.plain.toRole).1 hargs
    rw [JobKey.role.injEq] at hroles
    exact ⟨rfl, hroles.1, hroles.2, fun hne => absurd rfl hne, rfl, fun _ => rfl⟩
  | createJob key spec =>
    cases c' <;> cases hop
    next key' spec' =>
    simp only [argv, ofCommand, create, List.map_cons, List.map_nil, ClientArgument.shown,
      List.cons.injEq, true_and, and_true] at hargs
    exact .of_key_eq rfl ((JobKey.text_inj h.plain h'.plain).1 hargs) rfl fun _ => hspec
  | updateJob key spec i =>
    cases c' <;> cases hop
    next key' spec' i' =>
    obtain ⟨hids, hmore⟩ := shards_append_inj (h.ids i rfl) (h'.ids i' rfl)
      [.text key.text, .specFile] [.text key'.text, .specFile] rfl (List.cons.inj hargs).2
    simp only [List.map_cons, List.map_nil, ClientArgument.shown, List.cons.injEq, and_true] at hmore
    exact .of_key_eq rfl ((JobKey.text_inj h.plain h'.plain).1 hmore) (congrArg some hids)
      fun _ => hspec
  | cancelUpdate key spec =>
    cases c' <;> cases hop
    next key' spec' =>
    have hargs := (List.cons.inj (List.cons.inj hargs).2).1
    exact .of_key_eq rfl ((JobKey.text_inj h.plain h'.plain).1 hargs) rfl fun _ => hspec
  | restartJob key spec i =>
    cases c' <;> cases hop
    next key' spec' i' =>
    obtain rfl : spec = spec' := hspec
    obtain ⟨hids, hmore⟩ := shards_append_inj (h.ids i rfl) (h'.ids i' rfl)
      (.text key.text :: specFile spec) (.text key'.text :: specFile spec) rfl
      (List.cons.inj hargs).2
    have hkey := (List.cons.inj hmore).1
    exact .of_key_eq rfl ((JobKey.text_inj h.plain h'.plain).1 hkey) (congrArg some hids)
      fun _ => rfl
  | deleteJob key spec i =>
    cases c' <;> cases hop
    next key' spec' i' =>
    have hne : Operation.deleteJob ≠ .listJobs := by decide
    obtain ⟨hkey, hids⟩ := delete_inj h.plain h'.plain (h.full hne) (h'.full hne) (h.ids i rfl)
      (h'.ids i' rfl) hargs
    exact .of_key_eq rfl hkey (congrArg some hids) fun hne => absurd rfl hne

end JobCommand

namespace Client

/-- What the client is told. A command runs the client once at most. Two commands that the client can
tell from their texts, and for which it gets the same arguments, given some path for the file of the
specification, and the same specification, are the same operation on the same key, with the same
instances and the same specification; only of a delete it is not told the specification. -/
theorem calls_tell_commands {σ : Type} (client : Client σ) :
    (∀ (c : JobCommand) (s : σ), (client.callsOf c s).length ≤ 1) ∧
    ∀ (path : String) (c c' : JobCommand) (s s' : σ) (call call' : ClientCall),
      c.IsTellable → c'.IsTellable → call ∈ client.callsOf c s → call' ∈ client.callsOf c' s' →
      call.argv path = call'.argv path → call.spec = call'.spec →
      c.Alike c' := by
  constructor
  · intro c s
    rw [callsOf_eq]
    split <;> simp
  · intro path c c' s s' call call' h h' hcall hcall' hargs hspec
    obtain rfl := eq_of_mem_callsOf hcall
    obtain rfl := eq_of_mem_callsOf hcall'
    exact JobCommand.alike_of_argv_eq h h' hargs hspec

/-- Two deletes of the same instances, one with a specification that is no text, look the same. -/
theorem deletes_look_alike :
    let job := JobKey.full "c" "r" "e" "n"
    let bare := JobCommand.deleteJob job none ⟨["1", "", "1"]⟩
    let laden := JobCommand.deleteJob job (some ⟨[0xFF]⟩) ⟨["1", "", "1"]⟩
    bare.IsTellable ∧ laden.IsTellable ∧
      (scripted [] "fake-aurora").callsOf bare [] = [.ofCommand bare] ∧
      (scripted [] "fake-aurora").callsOf laden [] = [.ofCommand bare] ∧ bare.Alike laden := by
  intro job bare laden
  have hbare : bare.IsTellable := ⟨by decide, fun _ => rfl, by rintro i ⟨⟩; decide⟩
  have hladen : laden.IsTellable := ⟨by decide, fun _ => rfl, by rintro i ⟨⟩; decide⟩
  have hcall : (scripted [] "fake-aurora").callsOf bare [] = [.ofCommand bare] := by decide +kernel
  have hcall' : (scripted [] "fake-aurora").callsOf laden [] = [.ofCommand bare] := by
    decide +kernel
  refine ⟨hbare, hladen, hcall, hcall', ?_⟩
  exact (calls_tell_commands (scripted [] "fake-aurora")).2 "job.aurora" bare laden [] []
    (.ofCommand bare) (.ofCommand bare) hbare hladen (by simp [hcall]) (by simp [hcall']) rfl rfl

end Client

end JobGateway
