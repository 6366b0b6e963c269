import JobGateway.Http.Envelope
import JobGateway.Proofs.Json.Values
import JobGateway.Proofs.Text.ByteOrder
import JobGateway.Proofs.Text.Map
import Mathlib.Data.String.Basic

/-! The answers that show results. Each member stands in the object of an answer once, in the order of
the bytes of the names; the jobs of a list are found again under their numbers. -/
namespace JobGateway

theorem toString_nat_inj {m n : Nat} (h : toString m = toString n) : m = n := by
  have hvalue := congrArg (fun s : String => Nat.ofDigitChars 10 s.toList 0) h
  simpa [Nat.toString_eq_ofList_toDigits] using hvalue

namespace Json

/-- In every object of the value the bytes of the names ascend, so that none stands there twice. -/
inductive IsSorted : Json → Prop
  | null : IsSorted .null
  | bool (b : Bool) : IsSorted (.bool b)
  | number (n : Number) : IsSorted (.number n)
  | string (s : String) : IsSorted (.string s)
  | array {vs : List Json} (items : ∀ v ∈ vs, IsSorted v) : IsSorted (.array vs)
  | object {ms : List (String × Json)}
      (names : ms.Pairwise fun m m' => Utf8.encode m.1.toList < Utf8.encode m'.1.toList)
      (values : ∀ m ∈ ms, IsSorted m.2) : IsSorted (.object ms)

theorem isSorted_strings (items : List String) : IsSorted (strings items) := by
  refine .array fun v hv => ?_
  obtain ⟨s, -, rfl⟩ := List.mem_map.1 hv
  exact .string s

/-- The value is an object with just these members, in some order. -/
def HasMembers (v : Json) (members : List (String × Json)) : Prop :=
  ∃ ms, v = .object ms ∧ ms.Perm members

theorem map_find?_eq_lookup {α : Type} (name : String) (l : List (String × α)) :
    (l.find? fun m => m.1 == name).map (·.2) = l.lookup name := by
  induction l with
  | nil => rfl
  | cons m l ih =>
    obtain ⟨k, v⟩ := m
    rw [List.find?_cons, List.lookup_cons, ← ih, BEq.comm]
    cases name == k <;> rfl

/-- Of members with different names each is found. -/
theorem HasMembers.member?_eq {v : Json} {members : List (String × Json)} (h : v.HasMembers members)
    (hnames : (members.map Prod.fst).Nodup) (name : String) :
    v.member? name = members.lookup name := by
  obtain ⟨ms, rfl, hperm⟩ := h
  have hrev : ms.reverse.Perm members := (List.reverse_perm ms).trans hperm
  have hrevnames : (ms.reverse.map Prod.fst).Nodup := (hrev.map _).nodup_iff.2 hnames
  rw [member?, List.findRev?_eq_find?_reverse, map_find?_eq_lookup]
  ext w
  rw [lookup_eq_some_iff_mem hrevnames, lookup_eq_some_iff_mem hnames, hrev.mem_iff]

end Json

namespace Http

open Json

section Objects

variable {members : List (String × Json)}

theorem hasMembers_sortedObject (h : (members.map Prod.fst).Nodup) :
    (sortedObject members).HasMembers members :=
  ⟨_, rfl, TextMap.entries_ofList_perm h⟩

theorem forall_mem_sortedObject (h : (members.map Prod.fst).Nodup) {p : String × Json → Prop}
    (hp : ∀ m ∈ members, p m) : ∀ m ∈ (TextMap.ofList members).entries, p m :=
  fun m hm => hp m ((TextMap.entries_ofList_perm h).mem_iff.1 hm)

theorem isSorted_sortedObject (h : (members.map Prod.fst).Nodup)
    (hvalues : ∀ m ∈ members, IsSorted m.2) : IsSorted (sortedObject members) := by
  refine .object ?_ (forall_mem_sortedObject h hvalues)
  exact (TextMap.ofList members).ascending.imp fun hlt =>
    Utf8.encode_lt_encode (String.lt_iff_toList_lt.1 hlt)

theorem plain_sortedObject {d : Nat} (h : (members.map Prod.fst).Nodup)
    (hvalues : ∀ m ∈ members, Plain d m.2) : Plain (d + 1) (sortedObject members) :=
  forall_mem_sortedObject h hvalues

end Objects

section Numbers

variable (keys : List String)

/-- The members of the object that shows keys under their numbers, in the order of the keys. -/
def numberedMembers : List (String × Json) :=
  keys.zipIdx.map fun (key, i) => (toString (i + 1), .string key)

theorem nodup_numberedMembers : ((numberedMembers keys).map Prod.fst).Nodup := by
  have hnames : (numberedMembers keys).map Prod.fst =
      (keys.zipIdx.map Prod.snd).map fun i => toString (i + 1) := by
    rw [numberedMembers, List.map_map, List.map_map]
    rfl
  rw [hnames, List.zipIdx_map_snd]
  refine List.Nodup.map (fun i j hij => ?_) List.nodup_range'
  exact Nat.succ_inj.1 (toString_nat_inj hij)

theorem lookup_numberedMembers (i : Nat) :
    (numberedMembers keys).lookup (toString (i + 1)) = keys[i]?.map .string := by
  ext v
  rw [lookup_eq_some_iff_mem (nodup_numberedMembers keys), numberedMembers, List.mem_map,
    Option.map_eq_some_iff]
  constructor
  · rintro ⟨⟨key, j⟩, hmem, heq⟩
    obtain ⟨hname, rfl⟩ := Prod.mk.inj heq
    obtain rfl := Nat.succ_inj.1 (toString_nat_inj hname)
    exact ⟨key, List.mem_zipIdx_iff_getElem?.1 hmem, rfl⟩
  · rintro ⟨key, hkey, rfl⟩
    exact ⟨(key, i), List.mem_zipIdx_iff_getElem?.2 hkey, rfl⟩

/-- Under its number, and only there, stands each of the keys. -/
theorem exists_numbered_eq : ∃ ms, numbered keys = .object ms ∧ ms.length = keys.length ∧
    ∀ i, (Json.object ms).member? (toString (i + 1)) = keys[i]?.map .string := by
  have hnames := nodup_numberedMembers keys
  obtain ⟨ms, hms, hperm⟩ := hasMembers_sortedObject hnames
  refine ⟨ms, hms, ?_, fun i => ?_⟩
  · rw [hperm.length_eq, numberedMembers, List.length_map, List.length_zipIdx]
  · rw [HasMembers.member?_eq ⟨ms, rfl, hperm⟩ hnames, lookup_numberedMembers]

theorem isSorted_numbered : IsSorted (numbered keys) := by
  refine isSorted_sortedObject (nodup_numberedMembers keys) fun m hm => ?_
  obtain ⟨⟨key, i⟩, -, rfl⟩ := List.mem_map.1 hm
  exact .string key

theorem plain_numbered (d : Nat) : Plain (d + 1) (numbered keys) := by
  refine plain_sortedObject (nodup_numberedMembers keys) fun m hm => ?_
  obtain ⟨⟨key, i⟩, -, rfl⟩ := List.mem_map.1 hm
  exact plain_string d key

end Numbers

/-- What the answer to a success shows of its payload: a count, and the value of a member. -/
inductive ShownAs : Payload → Nat → Json → Prop
  /-- Each listed key stands under its number. -/
  | jobs {keys : List String} {ms : List (String × Json)} (length : ms.length = keys.length)
      (found : ∀ i, (Json.object ms).member? (toString (i + 1)) = keys[i]?.map .string) :
    ShownAs (.jobs keys) keys.length (.object ms)
  | noJob : ShownAs (.job "") 0 (.string "")
  | job {key : String} (ne : key ≠ "") : ShownAs (.job key) 1 (.string key)
  | noneDeleted : ShownAs (.deleted []) 0 (.string "")
  /-- Of the removed keys the first is shown. -/
  | deleted (key : String) (keys : List String) :
    ShownAs (.deleted (key :: keys)) (keys.length + 1) (.string key)

theorem shownAs_delivered (payload : Payload) :
    ShownAs payload payload.count (delivered payload) := by
  cases payload with
  | jobs keys =>
    obtain ⟨ms, hms, hlength, hfound⟩ := exists_numbered_eq keys
    rw [delivered, hms]
    exact .jobs hlength hfound
  | job key =>
    by_cases hkey : key = ""
    · subst hkey
      exact .noJob
    · rw [Payload.count, if_neg (by simpa using hkey)]
      exact .job hkey
  | deleted keys =>
    cases keys with
    | nil => exact .noneDeleted
    | cons key keys => exact .deleted key keys

theorem isSorted_delivered (payload : Payload) : IsSorted (delivered payload) := by
  cases payload with
  | jobs keys => exact isSorted_numbered keys
  | job key => exact .string key
  | deleted keys => exact .string _

theorem plain_delivered (payload : Payload) (d : Nat) : Plain (d + 1) (delivered payload) := by
  cases payload with
  | jobs keys => exact plain_numbered keys d
  | job key => exact plain_string _ key
  | deleted keys => exact plain_string _ _

theorem isSorted_nothing (op : Operation) : IsSorted (nothing op) := by
  unfold nothing
  split
  · exact .object .nil (by simp)
  · exact .array (by simp)

theorem plain_nothing (op : Operation) (d : Nat) : Plain (d + 1) (nothing op) := by
  unfold nothing
  split <;> simp

theorem errorLines_ne_nil (op : Operation) (errors : List String) : errorLines op errors ≠ [] := by
  unfold errorLines
  split
  · exact List.cons_ne_nil _ _
  · next h => simpa using h

/-- The members of the object of an answer. -/
def envelopeMembers (op : Operation) (r : JobResult) : List (String × Json) :=
  match r.errors with
  | none =>
    [("status", .string "success"), ("key", .string r.key), ("count", .natural r.payload.count),
      (field op, delivered r.payload)]
  | some errors =>
    [("status", .string "failure"), ("key", .string r.key), ("count", .natural 0),
      ("errors", .strings (errorLines op errors)), (field op, nothing op)]

theorem envelope_body (op : Operation) (r : JobResult) :
    (envelope op r).2 = sortedObject (envelopeMembers op r) := by
  unfold envelope envelopeMembers
  cases r.errors <;> rfl

theorem nodup_envelopeMembers (op : Operation) (r : JobResult) :
    ((envelopeMembers op r).map Prod.fst).Nodup := by
  unfold envelopeMembers
  split <;> cases op <;> simp [field]

theorem hasMembers_envelope (op : Operation) (r : JobResult) :
    (envelope op r).2.HasMembers (envelopeMembers op r) :=
  envelope_body op r ▸ hasMembers_sortedObject (nodup_envelopeMembers op r)

theorem member?_envelope (op : Operation) (r : JobResult) (name : String) :
    (envelope op r).2.member? name = (envelopeMembers op r).lookup name :=
  (hasMembers_envelope op r).member?_eq (nodup_envelopeMembers op r) name

theorem forall_mem_envelopeMembers {op : Operation} {r : JobResult} {p : Json → Prop}
    (hstring : ∀ s, p (.string s)) (hnatural : ∀ n, p (.natural n))
    (hstrings : ∀ items, p (.strings items)) (hdelivered : p (delivered r.payload))
    (hnothing : p (nothing op)) : ∀ m ∈ envelopeMembers op r, p m.2 := by
  unfold envelopeMembers
  split <;> simp [hstring, hnatural, hstrings, hdelivered, hnothing]

theorem isSorted_envelope (op : Operation) (r : JobResult) : IsSorted (envelope op r).2 := by
  rw [envelope_body]
  refine isSorted_sortedObject (nodup_envelopeMembers op r) (forall_mem_envelopeMembers .string
    (fun n => .number _) isSorted_strings (isSorted_delivered _) (isSorted_nothing op))

/-- The text of an answer is read back as its object. -/
theorem parse_render_envelope (op : Operation) (r : JobResult) :
    Json.parse (envelope op r).2.render = .ok (envelope op r).2 := by
  have hplain : Plain 2 (envelope op r).2 := by
    rw [envelope_body]
    exact plain_sortedObject (nodup_envelopeMembers op r) (forall_mem_envelopeMembers
      (plain_string 1) (fun n => trivial) (plain_strings 0) (plain_delivered _ 0)
      (plain_nothing op 0))
  exact parse_render (hplain.mono (by decide))

/-- What an answer shows. A success is shown by its key, by how many jobs its payload tells of, and by
what the operation delivered, under a status that tells the operation, and that a list or a delete found
nothing. A failure, of which there is always an error line, has the count zero and delivers nothing. The
text of the answer is read back as its object, in which names ascend, and from which the key and the
listed jobs can be told: their number is the count and that of the members, and each is found under its
own. -/
theorem envelope_tells_result (op : Operation) (r : JobResult) :
    (r.errors = none → ∃ count shown, ShownAs r.payload count shown ∧
      (op = .createJob → (envelope op r).1 = 201) ∧
      (op ∈ [.updateJob, .cancelUpdate, .restartJob] → (envelope op r).1 = 202) ∧
      (op ∈ [.listJobs, .deleteJob] → (envelope op r).1 = if count = 0 then 404 else 200) ∧
      (envelope op r).2.HasMembers
        [("status", .string "success"), ("key", .string r.key), ("count", .natural count),
          (if op = .listJobs then "jobs" else "job", shown)]) ∧
    (∀ errors, r.errors = some errors →
      (envelope op r).1 = 500 ∧
      ∃ lines, lines ≠ [] ∧ (errors ≠ [] → lines = errors) ∧ (envelope op r).2.HasMembers
        [("status", .string "failure"), ("key", .string r.key), ("count", .natural 0),
          ("errors", .strings lines),
          if op = .listJobs then ("jobs", .object []) else ("job", .array [])]) ∧
    (envelope op r).2.IsSorted ∧
    Json.parse (envelope op r).2.render = .ok (envelope op r).2 ∧
    (envelope op r).2.member? "key" = some (.string r.key) ∧
    ∀ keys, op = .listJobs → r.errors = none → r.payload = .jobs keys →
      (envelope op r).1 = (if keys = [] then 404 else 200) ∧
      (envelope op r).2.member? "count" = some (.natural keys.length) ∧
      ∃ jobs, (envelope op r).2.member? "jobs" = some (.object jobs) ∧
        jobs.length = keys.length ∧
        ∀ i, (Json.object jobs).member? (toString (i + 1)) = keys[i]?.map .string := by
  have hbody := hasMembers_envelope op r
  refine ⟨fun hsuccess => ?_, fun errors hfailure => ?_, isSorted_envelope op r,
    parse_render_envelope op r, ?_, ?_⟩
  · have hstatus : (envelope op r).1 = successStatus op r.payload.count := by
      rw [envelope, hsuccess]
    have hfield : (if op = .listJobs then "jobs" else "job") = field op := by cases op <;> rfl
    rw [hstatus, hfield]
    rw [envelopeMembers, hsuccess] at hbody
    refine ⟨_, _, shownAs_delivered r.payload, ?_, ?_, ?_, hbody⟩ <;> cases op <;> simp [successStatus]
  · have hstatus : (envelope op r).1 = 500 := by rw [envelope, hfailure]
    have hmembers : (if op = .listJobs then ("jobs", Json.object []) else ("job", .array [])) =
        (field op, nothing op) := by cases op <;> rfl
    rw [envelopeMembers, hfailure] at hbody
    refine ⟨hstatus, errorLines op errors, errorLines_ne_nil op errors, fun hne => ?_, ?_⟩
    · rw [errorLines, if_neg (by simpa using hne)]
    · rw [hmembers]
      exact hbody
  · rw [member?_envelope, envelopeMembers]
    cases r.errors <;> rfl
  · rintro keys rfl hsuccess hkeys
    obtain ⟨jobs, hjobs, hlength, hfound⟩ := exists_numbered_eq keys
    have hmember : ∀ name, (envelope .listJobs r).2.member? name =
        [("status", .string "success"), ("key", .string r.key), ("count", .natural keys.length),
          ("jobs", .object jobs)].lookup name := by
      intro name
      rw [member?_envelope, envelopeMembers, hsuccess, hkeys, delivered, hjobs]
      rfl
    refine ⟨?_, hmember "count", jobs, hmember "jobs", hlength, hfound⟩
    rw [envelope, hsuccess, hkeys]
    exact ite_congr (propext List.length_eq_zero_iff) (fun _ => rfl) fun _ => rfl

/-- A list of eleven jobs, of which the tenth is also the second: its number stands before the second
in the text. A delete that removed no job. And one that failed without an error line, with a payload of
another operation. -/
theorem envelopes_of_odd_results :
    let keys := ["a", "j", "c", "d", "e", "f", "g", "h", "i", "j", "k"]
    let listed : JobResult := ⟨"c/r", .jobs keys, none⟩
    let kept : JobResult := ⟨"c/r/e/n", .deleted [], none⟩
    let failed : JobResult := ⟨"c/r/e/n", .jobs keys, some []⟩
    ((envelope .listJobs listed).1 = 200 ∧
      (envelope .listJobs listed).2.member? "count" = some (.natural 11) ∧
      ∃ jobs, (envelope .listJobs listed).2.member? "jobs" = some (.object jobs) ∧
        (Json.object jobs).member? "10" = some (.string "j") ∧
        jobs.map Prod.fst = ["1", "10", "11", "2", "3", "4", "5", "6", "7", "8", "9"]) ∧
    ((envelope .deleteJob kept).1 = 404 ∧ (envelope .deleteJob kept).2.HasMembers
      [("status", .string "success"), ("key", .string "c/r/e/n"), ("count", .natural 0),
        ("job", .string "")]) ∧
    ∃ lines, lines ≠ [] ∧ (envelope .deleteJob failed).2.HasMembers
      [("status", .string "failure"), ("key", .string "c/r/e/n"), ("count", .natural 0),
        ("errors", .strings lines), ("job", .array [])] := by
  intro keys listed kept failed
  obtain ⟨-, -, -, -, -, hlist⟩ := envelope_tells_result .listJobs listed
  obtain ⟨hstatus, hcount, jobs, hjobs, -, hfound⟩ := hlist keys rfl rfl rfl
  obtain ⟨count, shown, hshown, -, -, hkept, hkeptMembers⟩ :=
    (envelope_tells_result .deleteJob kept).1 rfl
  obtain ⟨-, lines, hne, -, hmembers⟩ :=
    (envelope_tells_result .deleteJob failed).2.1 [] rfl
  cases hshown
  refine ⟨⟨hstatus, hcount, jobs, hjobs, hfound 9, ?_⟩, ⟨hkept (by decide), hkeptMembers⟩, lines, hne,
    hmembers⟩
  have hmember : (envelope .listJobs listed).2.member? "jobs" = some (numbered keys) :=
    member?_envelope .listJobs listed "jobs"
  obtain rfl : jobs = (TextMap.ofList (numberedMembers keys)).entries :=
    Json.object.inj (Option.some.inj (hjobs.symm.trans hmember))
  decide +kernel

end Http

end JobGateway
