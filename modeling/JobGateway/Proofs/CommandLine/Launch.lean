import JobGateway.CommandLine.Launch
import JobGateway.Delegate.Script
import JobGateway.Proofs.Delegate.Configuration
import JobGateway.Proofs.Executor.Crew
import JobGateway.Proofs.Executor.Transparency

/-! From the options of a service to its executor. What the options are checked for is all that an
executor needs of them, and a worker process that is started with the configuration as its argument
serves the delegate that the other strategies call. -/
namespace JobGateway

variable {σ π ε : Type}

theorem eq_error_of_map {α β : Type*} {x : Except ε α} {f : α → β} {e : ε}
    (h : x.map f = .error e) : x = .error e := by
  cases x with
  | error e' =>
    cases h
    rfl
  | ok a => cases h

theorem eq_error_of_bind {α β : Type} {x : Except ε α} {f : α → Except ε β} {e : ε}
    (h : x >>= f = .error e) : x = .error e ∨ ∃ a, x = .ok a ∧ f a = .error e := by
  cases x with
  | error e' =>
    cases h
    exact .inl rfl
  | ok a => exact .inr ⟨a, rfl, h⟩

theorem exists_of_map_eq_ok {α β : Type*} {x : Except ε α} {f : α → β} {b : β}
    (h : x.map f = .ok b) : ∃ a, x = .ok a ∧ f a = b := by
  cases x with
  | error e => cases h
  | ok a =>
    cases h
    exact ⟨a, rfl, rfl⟩

/-- A fault of a pool of some capacity that is not the fault of its configuration. -/
structure PoolFault.IsOfPool (capacity : Nat) (fault : PoolFault) : Prop where
  ne_emptyCommand : fault ≠ .emptyCommand
  zero_of_zeroCapacity : fault = .zeroCapacity → capacity = 0

namespace PoolFault

variable {capacity : Nat} {hasRuntime : Bool} {fault : PoolFault}

theorem isOfPool_of_checkStart (h : checkStart capacity hasRuntime = .error fault) :
    fault.IsOfPool capacity := by
  unfold checkStart at h
  split_ifs at h with hzero hruntime
  · cases h
    exact ⟨nofun, fun _ => hzero⟩
  · cases h
    exact ⟨nofun, nofun⟩

theorem isOfPool_of_checkPermits (h : checkPermits capacity = .error fault) :
    fault.IsOfPool capacity := by
  unfold checkPermits at h
  split_ifs at h
  cases h
  exact ⟨nofun, nofun⟩

end PoolFault

theorem ThreadPool.isOfPool_of_build {capacity : Nat} {hasRuntime : Bool} {shared : σ}
    {fault : PoolFault} (h : build capacity hasRuntime shared = .error fault) :
    fault.IsOfPool capacity := by
  obtain hstart | ⟨_, -, h⟩ := eq_error_of_bind h
  · exact PoolFault.isOfPool_of_checkStart hstart
  · obtain hpermits | ⟨_, -, h⟩ := eq_error_of_bind h
    · exact PoolFault.isOfPool_of_checkPermits hpermits
    · cases h

theorem ThreadPool.eq_new_of_build {capacity : Nat} {hasRuntime : Bool} {shared : σ}
    {pool : ThreadPool σ} (h : build capacity hasRuntime shared = .ok pool) :
    pool = new capacity shared := by
  obtain ⟨_, -, h⟩ := Json.bind_eq_ok h
  obtain ⟨_, -, h⟩ := Json.bind_eq_ok h
  cases h
  rfl

theorem ProcessPool.isOfPool_of_build {program : WorkerProgram ε π} {capacity : Nat}
    {hasRuntime : Bool} {shared : ε} {fault : PoolFault}
    (h : build program capacity hasRuntime shared = .error fault) : fault.IsOfPool capacity := by
  obtain hstart | ⟨_, -, h⟩ := eq_error_of_bind h
  · exact PoolFault.isOfPool_of_checkStart hstart
  · split at h
    · cases h
      exact ⟨nofun, nofun⟩
    · obtain hpermits | ⟨_, -, h⟩ := eq_error_of_bind h
      · exact PoolFault.isOfPool_of_checkPermits hpermits
      · cases h

/-- A pool whose processes each serve a delegate, all from the same state. -/
def ProcessPool.fresh (capacity : Nat) (own : π) (shared : ε) : ProcessPool ε π :=
  ⟨.new name capacity, 0, List.replicate capacity ⟨some own, []⟩, [], capacity, shared⟩

theorem ProcessPool.eq_fresh_of_build {d : Delegate (π × ε)} {own : π} {capacity : Nat}
    {hasRuntime : Bool} {shared : ε} {pool : ProcessPool ε π}
    (h : build (.serving d own) capacity hasRuntime shared = .ok pool) :
    pool = fresh capacity own shared := by
  obtain ⟨-, idle, shared', hall, rfl⟩ := build_eq h
  rw [startAll_serving, List.append_nil] at hall
  cases hall
  rfl

/-- Executors that bring commands to a delegate from its first state: the delegate is called by the
executor itself, or served by each process that it has and by each that it will start. -/
inductive Started.Runs (d : Delegate (π × ε)) (own : π) (shared : ε) (parallel : Nat) :
    Strategy → Started ε → Prop
  | sync : Runs d own shared parallel .sync ⟨_, .sync d, (own, shared), Prod.snd⟩
  | callback : Runs d own shared parallel .callback ⟨_, .callback d, (own, shared), Prod.snd⟩
  | thread : Runs d own shared parallel .thread
      ⟨_, ThreadPool.executor d, .new parallel (own, shared), fun p => p.shared.2⟩
  | process : Runs d own shared parallel .process
      ⟨_, ProcessPool.executor (.serving d own) d.capabilities, .fresh parallel own shared,
        fun p => p.shared⟩

namespace Strategy

variable {strategy : Strategy} {b : Backend} {parallel : Nat} {hasRuntime : Bool}

theorem isOfPool_of_start {fault : PoolFault}
    (h : strategy.start b parallel hasRuntime = .error fault) : fault.IsOfPool parallel := by
  cases strategy with
  | sync | callback => cases h
  | thread => exact ThreadPool.isOfPool_of_build (eq_error_of_map h)
  | process => exact ProcessPool.isOfPool_of_build (eq_error_of_map h)

theorem runs_of_start (hprogram : b.program = .serving b.delegate b.own) {started : Started b.Shared}
    (h : strategy.start b parallel hasRuntime = .ok started) :
    started.Runs b.delegate b.own b.shared parallel strategy := by
  cases strategy with
  | sync =>
    cases h
    exact .sync
  | callback =>
    cases h
    exact .callback
  | thread =>
    obtain ⟨pool, hpool, rfl⟩ := exists_of_map_eq_ok h
    rw [ThreadPool.eq_new_of_build hpool]
    exact .thread
  | process =>
    obtain ⟨pool, hpool, rfl⟩ := exists_of_map_eq_ok h
    rw [hprogram] at hpool
    rw [ProcessPool.eq_fresh_of_build hpool, hprogram]
    exact .process

end Strategy

namespace CommandLine

/-- What the options of a service are checked for. -/
theorem ServeOptions.of_settings {o : ServeOptions} {st : Settings} (h : o.settings = .ok st) :
    st.delegate.isValid = true ∧ st.parallel ≠ 0 := by
  unfold settings at h
  split at h
  · cases h
  · split_ifs at h with hzero hvalid
    cases h
    exact ⟨hvalid, hzero⟩

theorem Argument.ofText_eq_plain {text : String} (h : text.toList.head? ≠ some '-') :
    ofText text = .plain text := by
  unfold ofText
  split
  · next htext =>
    rw [htext] at h
    exact absurd rfl h
  · next htext =>
    rw [htext] at h
    exact absurd rfl h
  · next htext =>
    rw [htext] at h
    exact absurd rfl h
  · rfl

namespace Launch

variable {ω : Type} {config : DelegateConfig}

/-- An argument of a worker that is not taken for an option is its configuration. -/
theorem readWorker_eq (environment : Environment) {text : String}
    (h : Argument.ofText text = .plain text) :
    readWorker environment ["--delegate-config", text] = .ok text := by
  have hoption : Argument.ofText "--delegate-config" = .long "delegate-config".toList none := by
    decide +kernel
  have hscan : Scan.readAll workerOptions ⟨none, none⟩ ["--delegate-config", text] =
      .ok (some text) := by
    simp only [Scan.readAll, hoption, h]
    rfl
  rw [readWorker, readOptions, hscan]
  rfl

theorem ofInvocation_worker {text : String} (h : DelegateConfig.ofArgument text = .ok config) :
    ofInvocation (.worker text) = .worker config := by
  unfold ofInvocation
  dsimp only
  rw [h]

theorem ofArguments_workerArguments (environment : Environment) (h : config.isValid = true) :
    ofArguments environment config.workerArguments = .worker config := by
  obtain ⟨rest, hrest⟩ := config.exists_argument_eq
  have hplain : Argument.ofText config.argument = .plain config.argument :=
    Argument.ofText_eq_plain (by rw [hrest]; simp)
  have hread : Invocation.read environment config.workerArguments =
      .ok (.worker config.argument) := by
    change Invocation.worker <$> readWorker environment ["--delegate-config", config.argument] = _
    rw [readWorker_eq environment hplain]
    rfl
  rw [ofArguments, hread]
  exact ofInvocation_worker (DelegateConfig.ofArgument_of_isNamed (DelegateConfig.isValid_iff.1 h))

theorem workers_workerArguments (clients : String → Client ω) (h : config.isValid = true) :
    workers clients config.workerArguments = .serving (config.delegate clients) .empty := by
  rw [workers, ofArguments_workerArguments _ h]

end Launch

end CommandLine

/-- The worker processes of a host run this very program. -/
def Host.RunsItself (host : Host) : Prop := host.workers = CommandLine.Launch.workers host.clients

namespace DelegateConfig

variable {config : DelegateConfig} {host : Host} {strategy : Strategy} {parallel : Nat}

theorem program_backend (hself : host.RunsItself) (h : config.isValid = true) :
    (config.backend host).program =
      .serving (config.backend host).delegate (config.backend host).own := by
  change host.workers config.workerArguments = _
  rw [hself, CommandLine.Launch.workers_workerArguments _ h]
  rfl

theorem isPassable_of_mem_workerArguments {arg : String} (h : arg ∈ config.workerArguments) :
    ClientCall.isPassable arg = true := by
  simp only [workerArguments, List.mem_cons, List.not_mem_nil, or_false] at h
  obtain rfl | rfl | rfl := h
  · decide +kernel
  · decide +kernel
  · have hnul : '\x00' ∉ config.argument.toList := fun hmem =>
      absurd (config.isLine_argument _ hmem) (by decide)
    simpa [ClientCall.isPassable] using hnul

theorem start_of_isValid (h : config.isValid = true) : config.start host strategy parallel =
    strategy.start (config.backend host) parallel host.hasRuntime :=
  if_pos (.inr h)

end DelegateConfig

open CommandLine

/-- A configuration tells itself through the argument of a worker, command and all, and is refused as
empty exactly if its command is blank. So settings that were found to make sense have an executor of
every strategy, unless something else keeps its pool from being built: a worker accepts the arguments
that it is started with, and its processes serve the delegate that the other strategies call. -/
theorem configuration_reaches_workers :
    (∀ config : DelegateConfig,
      ((∃ read, DelegateConfig.ofArgument config.argument = .ok read) ↔ config.IsNamed) ∧
      (config.IsNamed → DelegateConfig.ofArgument config.argument = .ok config) ∧
      (¬ config.IsNamed → DelegateConfig.ofArgument config.argument = .error .emptyCommand)) ∧
    ∀ (o : ServeOptions) (st : Settings), o.settings = .ok st →
      (∀ arg ∈ st.delegate.workerArguments, ClientCall.isPassable arg = true) ∧
      (∀ environment,
        Launch.ofArguments environment st.delegate.workerArguments = .worker st.delegate) ∧
      ∀ (host : Host) (strategy : Strategy),
        Settings.start { st with strategy } host ≠ .error .emptyCommand ∧
        Settings.start { st with strategy } host ≠ .error .zeroCapacity ∧
        (host.RunsItself → ∀ started, Settings.start { st with strategy } host = .ok started →
          started.Runs (st.delegate.delegate host.clients) .empty host.world st.parallel
            strategy) := by
  constructor
  · intro config
    refine ⟨?_, DelegateConfig.ofArgument_of_isNamed, DelegateConfig.ofArgument_of_not_isNamed⟩
    constructor
    · rintro ⟨read, hread⟩
      by_contra hnamed
      rw [DelegateConfig.ofArgument_of_not_isNamed hnamed] at hread
      cases hread
    · exact fun hnamed => ⟨config, DelegateConfig.ofArgument_of_isNamed hnamed⟩
  · intro o st hsettings
    obtain ⟨hvalid, hparallel⟩ := ServeOptions.of_settings hsettings
    refine ⟨fun arg => DelegateConfig.isPassable_of_mem_workerArguments,
      fun environment => Launch.ofArguments_workerArguments environment hvalid, ?_⟩
    intro host strategy
    have hstart : Settings.start { st with strategy } host =
        strategy.start (st.delegate.backend host) st.parallel host.hasRuntime :=
      DelegateConfig.start_of_isValid hvalid
    rw [hstart]
    refine ⟨fun h => (Strategy.isOfPool_of_start h).ne_emptyCommand rfl,
      fun h => hparallel ((Strategy.isOfPool_of_start h).zero_of_zeroCapacity rfl), ?_⟩
    intro hself started h
    exact Strategy.runs_of_start (DelegateConfig.program_backend hself hvalid) h

/-- Two worker processes for a client whose name has a blank in front, a quote and a control
character in it; and a client named by blanks alone. -/
theorem quoted_command_launched :
    let config := DelegateConfig.client "\u3000a\"\x00\\\n"
    let o : ServeOptions := ⟨"0.0.0.0:8888", "alpha", .client, "\u3000a\"\x00\\\n", .process, 2⟩
    let st : Settings := ⟨.v4 ⟨0, 0, 0, 0⟩ 8888, "alpha", config, .process, 2⟩
    let host : Host :=
      ⟨List ClientCall, [], Client.scripted [], Launch.workers (Client.scripted []), true⟩
    o.settings = .ok st ∧ host.RunsItself ∧
      DelegateConfig.ofArgument config.argument = .ok config ∧
      DelegateConfig.ofArgument (DelegateConfig.client "\u2003\t").argument =
        .error .emptyCommand ∧
      ∃ started, st.start host = .ok started ∧
        started.Runs (config.delegate host.clients) TextMap.empty [] 2 .process := by
  intro config o st host
  have hsettings : o.settings = .ok st := by decide +kernel
  have hnamed : config.IsNamed := ⟨'a', by decide, by decide⟩
  have hblank : ¬ DelegateConfig.IsNamed (.client "\u2003\t") := by
    rw [← DelegateConfig.isValid_iff]
    decide
  have hself : host.RunsItself := rfl
  have hvalid := DelegateConfig.isValid_iff.2 hnamed
  have hstarts : ∃ started, st.start host = .ok started := by
    have hstart : st.start host = Strategy.process.start (config.backend host) 2 true :=
      DelegateConfig.start_of_isValid hvalid
    have hbuild := ProcessPool.build_serving (config.backend host).delegate (config.backend host).own
      (by decide : 0 < 2) (by decide) (config.backend host).shared
    rw [hstart, Strategy.start, DelegateConfig.program_backend hself hvalid, hbuild]
    exact ⟨_, rfl⟩
  obtain ⟨started, hstarted⟩ := hstarts
  obtain ⟨hread, hlaunch⟩ := configuration_reaches_workers
  refine ⟨hsettings, hself, (hread config).2.1 hnamed, (hread _).2.2 hblank, started, hstarted, ?_⟩
  exact ((hlaunch o st hsettings).2.2 host .process).2.2 hself started hstarted

end JobGateway
