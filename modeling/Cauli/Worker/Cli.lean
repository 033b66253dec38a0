import Mathlib.Algebra.Order.Floor.Div
import Mathlib.Tactic.Linarith
import Cauli.Lib.KeyedFold

/-!
# The command line (`worker/src/cli.rs`, `worker/src/supervisor.rs`)

One worker process, or a supervisor with several: `resolve` derives the numbers of one process from
`-c`, the explicit flags and the cores, and `child_argv` hands them to each child as flags.

* `Args`, `Args.default`: the settings and their defaults;
* `resolve`: the derivation;
* `Opt`, `Args.set`, `read`: the declarations of `Args`, as the parser of the command line reads them;
* `Clap`: what is assumed of that parser;
* `childArgv`: the command line of a child.

`cores`, `-c` and the flags are natural numbers. No operation of `resolve` leaves the range of its
arguments, so that the width of `usize` does not show.
-/

namespace Cauli.Cli

/-- The settings of a worker. -/
structure Args where
  app : Option String
  queues : List String
  redisUrl : Option String
  concurrency : Option ℕ
  procs : Option ℕ
  printPlan : Bool
  visibilityTimeout : ℕ
  drainTimeout : ℕ
  statsInterval : ℕ
  logLevel : String
  ioLoops : ℕ
  ioThreads : Option ℕ
  ioConcurrency : Option ℕ
  cpuWorkers : Option ℕ
  cpuChildThreads : ℕ
  cpuPrefetch : ℕ
  cpuMaxTasksPerChild : ℕ
  eagerCpu : Bool
  noForkServer : Bool
  batch : ℕ
  maxEnvelopeBytes : ℕ
  python : Option String
  redisTimeout : ℕ
  moverInterval : ℕ
  moverLimit : ℕ
  ackBatch : ℕ
  ackFlushMs : ℕ

/-- The settings before any option is read. -/
def Args.default : Args where
  app := none
  queues := []
  redisUrl := none
  concurrency := none
  procs := none
  printPlan := false
  visibilityTimeout := 60
  drainTimeout := 30
  statsInterval := 10
  logLevel := "info"
  ioLoops := 1
  ioThreads := none
  ioConcurrency := none
  cpuWorkers := none
  cpuChildThreads := 1
  cpuPrefetch := 4
  cpuMaxTasksPerChild := 10000
  eagerCpu := false
  noForkServer := false
  batch := 64
  maxEnvelopeBytes := 1048576
  python := none
  redisTimeout := 5
  moverInterval := 50
  moverLimit := 128
  ackBatch := 64
  ackFlushMs := 2

/-- The numbers of one process. -/
structure Resolved where
  procs : ℕ
  ioThreads : ℕ
  ioConcurrency : ℕ
  cpuWorkers : ℕ
  deriving DecidableEq, Repr

/-- One process per this many slots. -/
def SLOTS_PER_PROC : ℕ := 64

/-- The process count of `resolve`. -/
def resolveProcs (args : Args) (cores : ℕ) : ℕ :=
  max 1 (args.procs.getD
    (match args.concurrency with
    | some c => min cores (max 1 c ⌈/⌉ SLOTS_PER_PROC)
    | none => 1))

/-- The derivation of the numbers of one process. An explicit flag always wins. -/
def resolve (args : Args) (cores : ℕ) : Resolved :=
  let cores := max 1 cores
  let procs := resolveProcs args cores
  let (ioThreads, ioConcurrency) :=
    match args.concurrency with
    | some c =>
      let c := max 1 c
      let gate := max 1 (args.ioConcurrency.getD (c / procs))
      let threads := max 1 (args.ioThreads.getD (min (min c 512 / procs) gate))
      (threads, gate)
    | none => (max 1 (args.ioThreads.getD 64), max 1 (args.ioConcurrency.getD 256))
  let cpuWorkers := max 1 (args.cpuWorkers.getD
    (let perProc := cores / procs
    match args.concurrency with
    | some c => min perProc (max 1 c / procs)
    | none => perProc))
  ⟨procs, ioThreads, ioConcurrency, cpuWorkers⟩

/-! ## The derived totals -/

theorem ceilDiv_slots_le {c : ℕ} (hc : 1 ≤ c) : c ⌈/⌉ SLOTS_PER_PROC ≤ c := by
  rw [SLOTS_PER_PROC, Nat.ceilDiv_eq_add_pred_div]
  omega

/-- A share that is floored and then lifted to one stays within the total, for as many shares as the
total has units. -/
theorem max_one_div_mul_le {n total : ℕ} (hn : 1 ≤ n) (h : n ≤ total) :
    max 1 (total / n) * n ≤ total := by
  have hpos : 1 ≤ total / n := (Nat.one_le_div_iff (by omega)).2 h
  rw [max_eq_right hpos]
  exact Nat.div_mul_le_self total n

/-- The numbers of one process are at least one, whatever the flags say. -/
theorem one_le_resolve (args : Args) (cores : ℕ) :
    1 ≤ (resolve args cores).procs ∧ 1 ≤ (resolve args cores).ioThreads ∧
      1 ≤ (resolve args cores).ioConcurrency ∧ 1 ≤ (resolve args cores).cpuWorkers := by
  refine ⟨le_max_left _ _, ?_, ?_, le_max_left _ _⟩
  all_goals
    unfold resolve
    cases args.concurrency
    · exact le_max_left _ _
    · exact le_max_left _ _

section Derived

variable {args : Args} {c cores : ℕ}

/-- The process count derived from `-c` alone: neither the cores nor `-c` are exceeded. -/
theorem resolve_procs_le (hc : 1 ≤ c) (hcores : 1 ≤ cores) (hconc : args.concurrency = some c)
    (hprocs : args.procs = none) : (resolve args cores).procs ≤ min cores c := by
  have hle : max 1 c ⌈/⌉ SLOTS_PER_PROC ≤ max 1 c := ceilDiv_slots_le (le_max_left 1 c)
  simp only [resolve, resolveProcs, hconc, hprocs, Option.getD_none]
  omega

/-- What `-c` alone derives for one process, over its process count. -/
theorem resolve_eq (hc : 1 ≤ c) (hcores : 1 ≤ cores) (hconc : args.concurrency = some c)
    (hthreads : args.ioThreads = none) (hgate : args.ioConcurrency = none)
    (hcpu : args.cpuWorkers = none) :
    (resolve args cores).ioConcurrency = max 1 (c / (resolve args cores).procs) ∧
      (resolve args cores).ioThreads = max 1 (min (min c 512 / (resolve args cores).procs)
        (max 1 (c / (resolve args cores).procs))) ∧
      (resolve args cores).cpuWorkers = max 1 (min (cores / (resolve args cores).procs)
        (c / (resolve args cores).procs)) := by
  simp [resolve, hconc, hthreads, hgate, hcpu, max_eq_right hc, max_eq_right hcores]

/-- The totals of a derivation from `-c` alone stay within `-c` and the cores. -/
theorem resolve_totals_le (hc : 1 ≤ c) (hcores : 1 ≤ cores) (hconc : args.concurrency = some c)
    (hprocs : args.procs = none) (hthreads : args.ioThreads = none)
    (hgate : args.ioConcurrency = none) (hcpu : args.cpuWorkers = none) :
    (resolve args cores).ioConcurrency * (resolve args cores).procs ≤ c ∧
      (resolve args cores).ioThreads * (resolve args cores).procs ≤ c ∧
      (resolve args cores).ioThreads ≤ (resolve args cores).ioConcurrency ∧
      (resolve args cores).cpuWorkers * (resolve args cores).procs ≤ min cores c := by
  have hle := resolve_procs_le hc hcores hconc hprocs
  have hone := (one_le_resolve args cores).1
  obtain ⟨hgateEq, hthreadsEq, hcpuEq⟩ := resolve_eq hc hcores hconc hthreads hgate hcpu
  have hslots := max_one_div_mul_le hone (hle.trans (min_le_right _ _))
  have hcap : (resolve args cores).ioThreads ≤ (resolve args cores).ioConcurrency := by
    rw [hthreadsEq, hgateEq]
    exact max_le (le_max_left _ _) (min_le_right _ _)
  have hmono : Monotone fun n => n / (resolve args cores).procs :=
    fun _ _ h => Nat.div_le_div_right h
  have hchildren : (resolve args cores).cpuWorkers ≤
      max 1 (min cores c / (resolve args cores).procs) := by
    rw [hcpuEq]
    exact max_le_max le_rfl hmono.map_min.ge
  refine ⟨by rwa [hgateEq], ?_, hcap, ?_⟩
  · exact (Nat.mul_le_mul_right _ hcap).trans (by rwa [hgateEq])
  · exact (Nat.mul_le_mul_right _ hchildren).trans (max_one_div_mul_le hone hle)

end Derived

/-! ## The options -/

/-- The options, in the order of the fields of `Args`. -/
inductive Opt
  | app
  | queues
  | redisUrl
  | concurrency
  | procs
  | printPlan
  | visibilityTimeout
  | drainTimeout
  | statsInterval
  | logLevel
  | ioLoops
  | ioThreads
  | ioConcurrency
  | cpuWorkers
  | cpuChildThreads
  | cpuPrefetch
  | cpuMaxTasksPerChild
  | eagerCpu
  | noForkServer
  | batch
  | maxEnvelopeBytes
  | python
  | redisTimeout
  | moverInterval
  | moverLimit
  | ackBatch
  | ackFlushMs
  deriving DecidableEq, Repr

/-- The long name of an option, which the parser derives from the name of the field. -/
def Opt.long : Opt → String
  | .app => "--app"
  | .queues => "--queues"
  | .redisUrl => "--redis-url"
  | .concurrency => "--concurrency"
  | .procs => "--procs"
  | .printPlan => "--print-plan"
  | .visibilityTimeout => "--visibility-timeout"
  | .drainTimeout => "--drain-timeout"
  | .statsInterval => "--stats-interval"
  | .logLevel => "--log-level"
  | .ioLoops => "--io-loops"
  | .ioThreads => "--io-threads"
  | .ioConcurrency => "--io-concurrency"
  | .cpuWorkers => "--cpu-workers"
  | .cpuChildThreads => "--cpu-child-threads"
  | .cpuPrefetch => "--cpu-prefetch"
  | .cpuMaxTasksPerChild => "--cpu-max-tasks-per-child"
  | .eagerCpu => "--eager-cpu"
  | .noForkServer => "--no-fork-server"
  | .batch => "--batch"
  | .maxEnvelopeBytes => "--max-envelope-bytes"
  | .python => "--python"
  | .redisTimeout => "--redis-timeout"
  | .moverInterval => "--mover-interval"
  | .moverLimit => "--mover-limit"
  | .ackBatch => "--ack-batch"
  | .ackFlushMs => "--ack-flush-ms"

/-- The options of type `bool` stand alone, every other one is followed by its value. -/
def Opt.takesValue : Opt → Bool
  | .printPlan | .eagerCpu | .noForkServer => false
  | _ => true

/-- Decimal text of a `usize` or `u64`: digits, below `2 ^ 64`, a plus sign allowed before them. -/
def parseUnsigned (text : String) : Option ℕ :=
  let digits := match text.toList with
    | '+' :: rest => rest
    | chars => chars
  if digits ≠ [] ∧ digits.all Char.isDigit ∧ Nat.ofDigitChars 10 digits 0 < 2 ^ 64 then
    some (Nat.ofDigitChars 10 digits 0)
  else none

/-- A token that the parser takes for an option, and not for the value of the one before. -/
def hyphenLed (text : String) : Bool :=
  match text.toList with
  | '-' :: _ :: _ => true
  | _ => false

/-- The setting of one option, from the text of its value. -/
def Args.setValue (args : Args) (opt : Opt) (value : String) : Option Args :=
  match opt with
  | .app => some { args with app := some value }
  | .queues => some { args with queues := value.splitOn "," }
  | .redisUrl => some { args with redisUrl := some value }
  | .concurrency => (parseUnsigned value).map fun n => { args with concurrency := some n }
  | .procs => (parseUnsigned value).map fun n => { args with procs := some n }
  | .visibilityTimeout => (parseUnsigned value).map fun n => { args with visibilityTimeout := n }
  | .drainTimeout => (parseUnsigned value).map fun n => { args with drainTimeout := n }
  | .statsInterval => (parseUnsigned value).map fun n => { args with statsInterval := n }
  | .logLevel => some { args with logLevel := value }
  | .ioLoops => (parseUnsigned value).map fun n => { args with ioLoops := n }
  | .ioThreads => (parseUnsigned value).map fun n => { args with ioThreads := some n }
  | .ioConcurrency => (parseUnsigned value).map fun n => { args with ioConcurrency := some n }
  | .cpuWorkers => (parseUnsigned value).map fun n => { args with cpuWorkers := some n }
  | .cpuChildThreads => (parseUnsigned value).map fun n => { args with cpuChildThreads := n }
  | .cpuPrefetch => (parseUnsigned value).map fun n => { args with cpuPrefetch := n }
  | .cpuMaxTasksPerChild =>
    (parseUnsigned value).map fun n => { args with cpuMaxTasksPerChild := n }
  | .batch => (parseUnsigned value).map fun n => { args with batch := n }
  | .maxEnvelopeBytes => (parseUnsigned value).map fun n => { args with maxEnvelopeBytes := n }
  | .python => some { args with python := some value }
  | .redisTimeout => (parseUnsigned value).map fun n => { args with redisTimeout := n }
  | .moverInterval => (parseUnsigned value).map fun n => { args with moverInterval := n }
  | .moverLimit => (parseUnsigned value).map fun n => { args with moverLimit := n }
  | .ackBatch => (parseUnsigned value).map fun n => { args with ackBatch := n }
  | .ackFlushMs => (parseUnsigned value).map fun n => { args with ackFlushMs := n }
  | .printPlan | .eagerCpu | .noForkServer => none

/-- One option of a command line, with its value if it takes one. -/
def Args.set (args : Args) : Opt → Option String → Option Args
  | opt, some value => if hyphenLed value then none else args.setValue opt value
  | .printPlan, none => some { args with printPlan := true }
  | .eagerCpu, none => some { args with eagerCpu := true }
  | .noForkServer, none => some { args with noForkServer := true }
  | _, none => none

/-- The settings of a command line of options, each given once. `--app` is required unless
`--print-plan` is present. -/
def read (line : List (Opt × Option String)) : Option Args :=
  if .app ∈ line.map Prod.fst ∨ .printPlan ∈ line.map Prod.fst then
    line.foldlM (fun args p => args.set p.1 p.2) Args.default
  else none

/-- The tokens of one option. -/
def tokens (p : Opt × Option String) : List String := p.1.long :: p.2.toList

/-- What is assumed of the parser, which gets the tokens after the name of the program: a line of long
options, each with a value if it takes one and none of them repeated, gives what the options set over
the defaults. -/
structure Clap (parse : List String → Option Args) : Prop where
  parse_tokens : ∀ line : List (Opt × Option String),
    (∀ p ∈ line, p.2.isSome = p.1.takesValue) → (line.map Prod.fst).Nodup →
      parse (line.flatMap tokens) = read line

/-! ## The command line of a child -/

/-- `app_spec`: the application, whose absence is a panic. -/
def Args.appSpec (args : Args) : Option String := args.app

/-- `child_argv`: every setting explicit, `--procs 1`, never `-c`. -/
def childArgv (args : Args) (r : Resolved) : Option (List String) :=
  args.appSpec.map fun app =>
    ["--app", app,
      "--procs", "1",
      "--io-threads", toString r.ioThreads,
      "--io-concurrency", toString r.ioConcurrency,
      "--cpu-workers", toString r.cpuWorkers,
      "--io-loops", toString args.ioLoops,
      "--cpu-child-threads", toString args.cpuChildThreads,
      "--cpu-prefetch", toString args.cpuPrefetch,
      "--cpu-max-tasks-per-child", toString args.cpuMaxTasksPerChild,
      "--batch", toString args.batch,
      "--visibility-timeout", toString args.visibilityTimeout,
      "--max-envelope-bytes", toString args.maxEnvelopeBytes,
      "--drain-timeout", toString args.drainTimeout,
      "--stats-interval", toString args.statsInterval,
      "--log-level", args.logLevel,
      "--redis-timeout", toString args.redisTimeout,
      "--mover-interval", toString args.moverInterval,
      "--mover-limit", toString args.moverLimit,
      "--ack-batch", toString args.ackBatch,
      "--ack-flush-ms", toString args.ackFlushMs] ++
    (match args.python with
      | some python => ["--python", python]
      | none => []) ++
    (if args.queues ≠ [] then ["--queues", String.intercalate "," args.queues] else []) ++
    (if args.noForkServer then ["--no-fork-server"] else []) ++
    (if args.eagerCpu then ["--eager-cpu"] else [])

/-- The options that a child gets only where they are set. -/
def childExtras (args : Args) : List (Opt × Option String) :=
  (args.python.toList.map fun python => (.python, some python)) ++
  (if args.queues ≠ [] then [(.queues, some (String.intercalate "," args.queues))] else []) ++
  (if args.noForkServer then [(.noForkServer, none)] else []) ++
  (if args.eagerCpu then [(.eagerCpu, none)] else [])

/-- The options of the command line of a child. -/
def childLine (args : Args) (r : Resolved) (app : String) : List (Opt × Option String) :=
  [(.app, some app),
    (.procs, some "1"),
    (.ioThreads, some (toString r.ioThreads)),
    (.ioConcurrency, some (toString r.ioConcurrency)),
    (.cpuWorkers, some (toString r.cpuWorkers)),
    (.ioLoops, some (toString args.ioLoops)),
    (.cpuChildThreads, some (toString args.cpuChildThreads)),
    (.cpuPrefetch, some (toString args.cpuPrefetch)),
    (.cpuMaxTasksPerChild, some (toString args.cpuMaxTasksPerChild)),
    (.batch, some (toString args.batch)),
    (.visibilityTimeout, some (toString args.visibilityTimeout)),
    (.maxEnvelopeBytes, some (toString args.maxEnvelopeBytes)),
    (.drainTimeout, some (toString args.drainTimeout)),
    (.statsInterval, some (toString args.statsInterval)),
    (.logLevel, some args.logLevel),
    (.redisTimeout, some (toString args.redisTimeout)),
    (.moverInterval, some (toString args.moverInterval)),
    (.moverLimit, some (toString args.moverLimit)),
    (.ackBatch, some (toString args.ackBatch)),
    (.ackFlushMs, some (toString args.ackFlushMs))] ++ childExtras args

theorem flatMap_tokens_childExtras (args : Args) :
    (childExtras args).flatMap tokens =
      (match args.python with
        | some python => ["--python", python]
        | none => []) ++
      (if args.queues ≠ [] then ["--queues", String.intercalate "," args.queues] else []) ++
      (if args.noForkServer then ["--no-fork-server"] else []) ++
      (if args.eagerCpu then ["--eager-cpu"] else []) := by
  simp only [childExtras, List.flatMap_append]
  congr 1
  · congr 1
    · congr 1
      · cases args.python <;> rfl
      · split <;> rfl
    · split <;> rfl
  · split <;> rfl

theorem childArgv_eq (args : Args) (r : Resolved) :
    childArgv args r = args.app.map fun app => (childLine args r app).flatMap tokens := by
  unfold childArgv childLine Args.appSpec
  congr 1
  funext app
  rw [List.flatMap_append, flatMap_tokens_childExtras]
  simp only [List.append_assoc]
  rfl

theorem fits_childLine (args : Args) (r : Resolved) (app : String) :
    ∀ p ∈ childLine args r app, p.2.isSome = p.1.takesValue := by
  have hextras : ∀ p ∈ childExtras args, p.2.isSome = p.1.takesValue := by
    simp only [childExtras, List.forall_mem_append]
    refine ⟨⟨⟨?_, ?_⟩, ?_⟩, ?_⟩
    · simp [Opt.takesValue]
    all_goals split <;> simp [Opt.takesValue]
  simpa [childLine, Opt.takesValue] using hextras

/-- The optional ones come in one order, each at most once. -/
theorem childExtras_sublist (args : Args) :
    List.Sublist ((childExtras args).map Prod.fst)
      ([Opt.python] ++ [Opt.queues] ++ [Opt.noForkServer] ++ [Opt.eagerCpu]) := by
  simp only [childExtras, List.map_append]
  refine ((List.Sublist.append ?_ ?_).append ?_).append ?_
  · cases args.python <;> simp
  all_goals split <;> simp

theorem nodup_childLine (args : Args) (r : Resolved) (app : String) :
    ((childLine args r app).map Prod.fst).Nodup := by
  have hsub := (childExtras_sublist args).append_left
    [Opt.app, .procs, .ioThreads, .ioConcurrency, .cpuWorkers, .ioLoops, .cpuChildThreads,
      .cpuPrefetch, .cpuMaxTasksPerChild, .batch, .visibilityTimeout, .maxEnvelopeBytes,
      .drainTimeout, .statsInterval, .logLevel, .redisTimeout, .moverInterval, .moverLimit,
      .ackBatch, .ackFlushMs]
  rw [childLine, List.map_append]
  exact hsub.nodup (by decide)

/-! ## What a child reads back -/

theorem parseUnsigned_toString (n : ℕ) :
    parseUnsigned (toString n) = if n < 2 ^ 64 then some n else none := by
  have htext : (toString n).toList = Nat.toDigits 10 n := Nat.toList_repr
  have hdigits : ∀ c ∈ Nat.toDigits 10 n, c.isDigit = true :=
    fun c hc => Nat.isDigit_of_mem_toDigits (by decide) (by decide) hc
  have hplain : (match (toString n).toList with
      | '+' :: rest => rest
      | chars => chars) = Nat.toDigits 10 n := by
    rw [htext]
    split
    · next rest heq =>
      have hplus := hdigits '+' (by simp [heq])
      exact absurd hplus (by decide)
    · rfl
  have hall : (Nat.toDigits 10 n).all Char.isDigit = true := List.all_eq_true.2 hdigits
  simp only [parseUnsigned, hplain, Nat.ofDigitChars_ten_toDigits, hall, ne_eq,
    Nat.toDigits_ne_nil, not_false_eq_true, true_and]

/-- The number that an option of `resolve` sets. -/
def Args.count (args : Args) : Opt → Option ℕ
  | .procs => args.procs
  | .ioThreads => args.ioThreads
  | .ioConcurrency => args.ioConcurrency
  | .cpuWorkers => args.cpuWorkers
  | .concurrency => args.concurrency
  | _ => none

/-- That number after the option is read, from the one before. -/
def Opt.reads : Opt → Option String → Option ℕ → Option ℕ
  | .procs, value, _ | .ioThreads, value, _ | .ioConcurrency, value, _ | .cpuWorkers, value, _
  | .concurrency, value, _ => value.bind parseUnsigned
  | _, _, old => old

theorem Args.count_set_self (args : Args) (opt : Opt) (value : Option String) (args' : Args)
    (h : args.set opt value = some args') :
    args'.count opt = opt.reads value (args.count opt) := by
  cases value with
  | none =>
    cases opt <;> simp only [Args.set, Option.some.injEq, reduceCtorEq] at h <;> subst h <;> rfl
  | some value =>
    rw [Args.set] at h
    split at h
    · cases h
    · cases opt <;> simp only [Args.setValue, Option.map_eq_some_iff, Option.some.injEq,
        reduceCtorEq] at h
      all_goals first
        | subst h; rfl
        | obtain ⟨n, hn, rfl⟩ := h
          first | rfl | exact hn.symm

theorem Args.count_set_of_ne (args : Args) (opt : Opt) (value : Option String) (args' : Args)
    (other : Opt) (h : args.set opt value = some args') (hne : other ≠ opt) :
    args'.count other = args.count other := by
  cases value with
  | none =>
    cases opt <;> simp only [Args.set, Option.some.injEq, reduceCtorEq] at h <;> subst h <;>
      cases other <;> rfl
  | some value =>
    rw [Args.set] at h
    split at h
    · cases h
    · cases opt <;> simp only [Args.setValue, Option.map_eq_some_iff, Option.some.injEq,
        reduceCtorEq] at h
      all_goals first
        | subst h; cases other <;> rfl
        | obtain ⟨n, hn, rfl⟩ := h
          cases other <;> first | rfl | exact absurd rfl hne

/-- Whether an option is refused does not depend on the options before it. -/
theorem Args.isSome_set_iff (args : Args) (opt : Opt) (value : Option String) :
    (args.set opt value).isSome ↔ (Args.default.set opt value).isSome := by
  cases value with
  | none => cases opt <;> simp only [Args.set, Option.isSome_some, Option.isSome_none]
  | some value =>
    simp only [Args.set]
    split
    · rfl
    · cases opt <;> simp only [Args.setValue, Option.isSome_some, Option.isSome_none,
        Option.isSome_map]

section Reading

variable {line : List (Opt × Option String)} {args : Args}

theorem isSome_read_iff : (read line).isSome ↔
    (.app ∈ line.map Prod.fst ∨ .printPlan ∈ line.map Prod.fst) ∧
      ∀ p ∈ line, (Args.default.set p.1 p.2).isSome := by
  rw [read]
  split
  · next happ =>
    rw [isSome_foldlM_iff Args.isSome_set_iff]
    exact (and_iff_right happ).symm
  · next happ => exact iff_of_false Bool.false_ne_true fun h => happ h.1

theorem foldlM_of_read (h : read line = some args) :
    line.foldlM (fun args p => args.set p.1 p.2) Args.default = some args := by
  rw [read] at h
  split at h
  · exact h
  · cases h

/-- An option of the line gives the number of its value. -/
theorem count_of_mem (h : read line = some args) (hnodup : (line.map Prod.fst).Nodup) {opt : Opt}
    {value : Option String} (hmem : (opt, value) ∈ line) :
    args.count opt = opt.reads value (Args.default.count opt) :=
  get_foldlM_of_mem Args.count_set_self Args.count_set_of_ne hnodup hmem (foldlM_of_read h)

/-- An option that is not on the line keeps its default. -/
theorem count_of_notMem (h : read line = some args) {opt : Opt} (hopt : opt ∉ line.map Prod.fst) :
    args.count opt = Args.default.count opt :=
  get_foldlM_of_notMem Args.count_set_of_ne hopt (foldlM_of_read h)

end Reading

theorem hyphenLed_toString (n : ℕ) : hyphenLed (toString n) = false := by
  have htext : (toString n).toList = Nat.toDigits 10 n := Nat.toList_repr
  unfold hyphenLed
  rw [htext]
  split
  · next heq =>
    have hmem : '-' ∈ Nat.toDigits 10 n := heq ▸ List.mem_cons_self
    have hdigit := Nat.isDigit_of_mem_toDigits (by decide) (by decide) hmem
    exact absurd hdigit (by decide)
  · rfl

/-- The options whose value is a number. -/
def Opt.numeric : Opt → Bool
  | .app | .queues | .redisUrl | .logLevel | .python | .printPlan | .eagerCpu | .noForkServer => false
  | _ => true

/-- A printed number is accepted if it fits the width. -/
theorem isSome_set_toString_iff (args : Args) {opt : Opt} (hopt : opt.numeric = true) (n : ℕ) :
    (args.set opt (some (toString n))).isSome ↔ n < 2 ^ 64 := by
  have hset : args.set opt (some (toString n)) = args.setValue opt (toString n) := by
    simp only [Args.set, hyphenLed_toString, Bool.false_eq_true, ↓reduceIte]
  have hread : (args.setValue opt (toString n)).isSome = (parseUnsigned (toString n)).isSome := by
    cases opt <;> first | exact Option.isSome_map | cases hopt
  rw [hset, hread, parseUnsigned_toString]
  split
  · next hn => exact iff_of_true rfl hn
  · next hn => exact iff_of_false Bool.false_ne_true hn

/-- The options of `resolve`, read back from a printed number. -/
theorem count_of_mem_toString {line : List (Opt × Option String)} {args : Args}
    (h : read line = some args) (hnodup : (line.map Prod.fst).Nodup) {opt : Opt} {n : ℕ}
    (hmem : (opt, some (toString n)) ∈ line)
    (hopt : opt ∈ [Opt.procs, .ioThreads, .ioConcurrency, .cpuWorkers]) :
    args.count opt = some n := by
  have hnumeric : opt.numeric = true := by
    simp only [List.mem_cons, List.not_mem_nil, or_false] at hopt
    rcases hopt with rfl | rfl | rfl | rfl <;> rfl
  have hall := (isSome_read_iff.1 (Option.isSome_of_eq_some h)).2
  have hn : n < 2 ^ 64 := (isSome_set_toString_iff Args.default hnumeric n).1 (hall _ hmem)
  rw [count_of_mem h hnodup hmem]
  simp only [List.mem_cons, List.not_mem_nil, or_false] at hopt
  rcases hopt with rfl | rfl | rfl | rfl <;>
    simp only [Opt.reads, Option.bind_some, parseUnsigned_toString, hn, ↓reduceIte]

/-- `-c` is not among the options of a child. -/
theorem concurrency_notMem_childLine (args : Args) (r : Resolved) (app : String) :
    Opt.concurrency ∉ (childLine args r app).map Prod.fst := by
  have hextras : Opt.concurrency ∉ (childExtras args).map Prod.fst :=
    fun h => absurd ((childExtras_sublist args).mem h) (by decide)
  rw [childLine, List.map_append, List.mem_append, not_or]
  exact ⟨by simp, hextras⟩

/-- With its four numbers explicit and without `-c`, a process derives nothing. -/
theorem resolve_explicit {child : Args} {r : Resolved} (hprocs : child.procs = some 1)
    (hthreads : child.ioThreads = some r.ioThreads)
    (hgate : child.ioConcurrency = some r.ioConcurrency)
    (hcpu : child.cpuWorkers = some r.cpuWorkers) (hconc : child.concurrency = none)
    (hone : 1 ≤ r.ioThreads ∧ 1 ≤ r.ioConcurrency ∧ 1 ≤ r.cpuWorkers) (cores : ℕ) :
    resolve child cores = { r with procs := 1 } := by
  obtain ⟨hone₁, hone₂, hone₃⟩ := hone
  simp only [resolve, resolveProcs, hprocs, hthreads, hgate, hcpu, hconc, Option.getD_some,
    max_self, max_eq_right hone₁, max_eq_right hone₂, max_eq_right hone₃]

/-- A child that parses its command line has the numbers of its parent. -/
theorem resolve_child {args child : Args} {r : Resolved} {app : String}
    (h : read (childLine args r app) = some child)
    (hone : 1 ≤ r.ioThreads ∧ 1 ≤ r.ioConcurrency ∧ 1 ≤ r.cpuWorkers) (cores : ℕ) :
    resolve child cores = { r with procs := 1 } := by
  have hnodup := nodup_childLine args r app
  have hmem : ∀ p ∈ [(Opt.procs, some (toString 1)), (.ioThreads, some (toString r.ioThreads)),
      (.ioConcurrency, some (toString r.ioConcurrency)),
      (.cpuWorkers, some (toString r.cpuWorkers))], p ∈ childLine args r app := by
    intro p hp
    refine List.mem_append_left _ (List.mem_cons_of_mem _ ?_)
    exact List.mem_append_left _ hp
  simp only [List.forall_mem_cons] at hmem
  obtain ⟨hmem₁, hmem₂, hmem₃, hmem₄, -⟩ := hmem
  have hprocs : child.count .procs = some 1 :=
    count_of_mem_toString h hnodup hmem₁ (by decide)
  have hthreads : child.count .ioThreads = some r.ioThreads :=
    count_of_mem_toString h hnodup hmem₂ (by decide)
  have hgate : child.count .ioConcurrency = some r.ioConcurrency :=
    count_of_mem_toString h hnodup hmem₃ (by decide)
  have hcpu : child.count .cpuWorkers = some r.cpuWorkers :=
    count_of_mem_toString h hnodup hmem₄ (by decide)
  have hconc : child.count .concurrency = none :=
    count_of_notMem h (concurrency_notMem_childLine args r app)
  exact resolve_explicit hprocs hthreads hgate hcpu hconc hone cores

/-! ## Which children parse their command line -/

/-- The numbers of the settings fit the width of their types. -/
structure Args.InRange (args : Args) : Prop where
  concurrency : ∀ n ∈ args.concurrency, n < 2 ^ 64
  procs : ∀ n ∈ args.procs, n < 2 ^ 64
  visibilityTimeout : args.visibilityTimeout < 2 ^ 64
  drainTimeout : args.drainTimeout < 2 ^ 64
  statsInterval : args.statsInterval < 2 ^ 64
  ioLoops : args.ioLoops < 2 ^ 64
  ioThreads : ∀ n ∈ args.ioThreads, n < 2 ^ 64
  ioConcurrency : ∀ n ∈ args.ioConcurrency, n < 2 ^ 64
  cpuWorkers : ∀ n ∈ args.cpuWorkers, n < 2 ^ 64
  cpuChildThreads : args.cpuChildThreads < 2 ^ 64
  cpuPrefetch : args.cpuPrefetch < 2 ^ 64
  cpuMaxTasksPerChild : args.cpuMaxTasksPerChild < 2 ^ 64
  batch : args.batch < 2 ^ 64
  maxEnvelopeBytes : args.maxEnvelopeBytes < 2 ^ 64
  redisTimeout : args.redisTimeout < 2 ^ 64
  moverInterval : args.moverInterval < 2 ^ 64
  moverLimit : args.moverLimit < 2 ^ 64
  ackBatch : args.ackBatch < 2 ^ 64
  ackFlushMs : args.ackFlushMs < 2 ^ 64

/-- The texts of the settings do not look like options. -/
structure Args.Plain (args : Args) : Prop where
  app : ∀ text ∈ args.app, hyphenLed text = false
  queues : hyphenLed (String.intercalate "," args.queues) = false
  logLevel : hyphenLed args.logLevel = false
  python : ∀ text ∈ args.python, hyphenLed text = false

theorem max_one_getD_lt {o : Option ℕ} {derived : ℕ} (ho : ∀ n ∈ o, n < 2 ^ 64)
    (hderived : derived < 2 ^ 64) : max 1 (o.getD derived) < 2 ^ 64 := by
  cases o with
  | none => exact max_lt (by norm_num) hderived
  | some n => exact max_lt (by norm_num) (ho n rfl)

/-- The derivation does not leave the width of `usize`. -/
theorem resolve_lt {args : Args} {cores : ℕ} (hargs : args.InRange) (hcores : cores < 2 ^ 64) :
    (resolve args cores).ioThreads < 2 ^ 64 ∧ (resolve args cores).ioConcurrency < 2 ^ 64 ∧
      (resolve args cores).cpuWorkers < 2 ^ 64 := by
  have hcores' : max 1 cores / resolveProcs args (max 1 cores) < 2 ^ 64 :=
    (Nat.div_le_self _ _).trans_lt (max_lt (by norm_num) hcores)
  unfold resolve
  cases hconc : args.concurrency with
  | none =>
    exact ⟨max_one_getD_lt hargs.ioThreads (by norm_num),
      max_one_getD_lt hargs.ioConcurrency (by norm_num), max_one_getD_lt hargs.cpuWorkers hcores'⟩
  | some c =>
    have hshare : max 1 c / resolveProcs args (max 1 cores) < 2 ^ 64 :=
      (Nat.div_le_self _ _).trans_lt (max_lt (by norm_num) (hargs.concurrency c hconc))
    have hgate := max_one_getD_lt hargs.ioConcurrency hshare
    exact ⟨max_one_getD_lt hargs.ioThreads ((min_le_right _ _).trans_lt hgate), hgate,
      max_one_getD_lt hargs.cpuWorkers ((min_le_left _ _).trans_lt hcores')⟩

/-- A text that does not look like an option is accepted where a text is asked for. -/
theorem isSome_set_text {opt : Opt} {text : String} (htext : hyphenLed text = false)
    (hopt : opt ∈ [Opt.app, .queues, .logLevel, .python]) :
    (Args.default.set opt (some text)).isSome := by
  simp only [Args.set, htext, Bool.false_eq_true, ↓reduceIte]
  simp only [List.mem_cons, List.not_mem_nil, or_false] at hopt
  rcases hopt with rfl | rfl | rfl | rfl <;> rfl

theorem isSome_set_childExtras {args : Args} (hplain : args.Plain) :
    ∀ p ∈ childExtras args, (Args.default.set p.1 p.2).isSome := by
  simp only [childExtras, List.forall_mem_append]
  refine ⟨⟨⟨?_, ?_⟩, ?_⟩, ?_⟩
  · intro p hp
    obtain ⟨text, htext, rfl⟩ := List.mem_map.1 hp
    exact isSome_set_text (hplain.python text (Option.mem_toList.1 htext)) (by simp)
  · split
    · exact List.forall_mem_singleton.2 (isSome_set_text hplain.queues (by simp))
    · exact List.forall_mem_nil _
  · split
    · exact List.forall_mem_singleton.2 rfl
    · exact List.forall_mem_nil _
  · split
    · exact List.forall_mem_singleton.2 rfl
    · exact List.forall_mem_nil _

/-- A child parses its command line if the texts on it do not look like options. -/
theorem isSome_read_childLine {args : Args} {cores : ℕ} {app : String} (hargs : args.InRange)
    (hplain : args.Plain) (hcores : cores < 2 ^ 64) (happ : args.app = some app) :
    (read (childLine args (resolve args cores) app)).isSome := by
  obtain ⟨hthreads, hgate, hcpu⟩ := resolve_lt hargs hcores
  have hnumber : ∀ {opt : Opt} {n : ℕ}, opt.numeric = true → n < 2 ^ 64 →
      (Args.default.set opt (some (toString n))).isSome :=
    fun hopt hn => (isSome_set_toString_iff Args.default hopt _).2 hn
  refine isSome_read_iff.2 ⟨Or.inl (by simp [childLine]), ?_⟩
  rw [childLine, List.forall_mem_append]
  refine ⟨?_, isSome_set_childExtras hplain⟩
  simp only [List.forall_mem_cons]
  exact ⟨isSome_set_text (hplain.app app happ) (by decide), rfl, hnumber rfl hthreads,
    hnumber rfl hgate, hnumber rfl hcpu, hnumber rfl hargs.ioLoops,
    hnumber rfl hargs.cpuChildThreads, hnumber rfl hargs.cpuPrefetch,
    hnumber rfl hargs.cpuMaxTasksPerChild, hnumber rfl hargs.batch,
    hnumber rfl hargs.visibilityTimeout, hnumber rfl hargs.maxEnvelopeBytes,
    hnumber rfl hargs.drainTimeout, hnumber rfl hargs.statsInterval,
    isSome_set_text hplain.logLevel (by decide), hnumber rfl hargs.redisTimeout,
    hnumber rfl hargs.moverInterval, hnumber rfl hargs.moverLimit, hnumber rfl hargs.ackBatch,
    hnumber rfl hargs.ackFlushMs, List.forall_mem_nil _⟩

/-! ## A parser -/

/-- The option of a long name. -/
def Opt.ofLong (token : String) : Option Opt :=
  [Opt.app, .queues, .redisUrl, .concurrency, .procs, .printPlan, .visibilityTimeout, .drainTimeout,
    .statsInterval, .logLevel, .ioLoops, .ioThreads, .ioConcurrency, .cpuWorkers, .cpuChildThreads,
    .cpuPrefetch, .cpuMaxTasksPerChild, .eagerCpu, .noForkServer, .batch, .maxEnvelopeBytes, .python,
    .redisTimeout, .moverInterval, .moverLimit, .ackBatch, .ackFlushMs].find? (·.long == token)

theorem Opt.ofLong_long (opt : Opt) : Opt.ofLong opt.long = some opt := by
  cases opt <;> decide

/-- The options that the tokens spell. -/
def spelled : List String → Option (List (Opt × Option String))
  | [] => some []
  | [token] =>
    (Opt.ofLong token).bind fun opt => if opt.takesValue then none else some [(opt, none)]
  | token :: value :: rest =>
    (Opt.ofLong token).bind fun opt =>
      if opt.takesValue then (spelled rest).map ((opt, some value) :: ·)
      else (spelled (value :: rest)).map ((opt, none) :: ·)

theorem spelled_tokens {line : List (Opt × Option String)}
    (hfits : ∀ p ∈ line, p.2.isSome = p.1.takesValue) :
    spelled (line.flatMap tokens) = some line := by
  induction line with
  | nil => rfl
  | cons p line ih =>
    obtain ⟨opt, value⟩ := p
    obtain ⟨hp, hfits⟩ := List.forall_mem_cons.1 hfits
    have ih := ih hfits
    cases value with
    | some value =>
      have hvalue : opt.takesValue = true := hp.symm
      simp only [List.flatMap_cons, tokens, Option.toList_some, List.cons_append, List.nil_append,
        spelled, Opt.ofLong_long, Option.bind_some, hvalue, ↓reduceIte, ih, Option.map_some]
    | none =>
      have hvalue : opt.takesValue = false := hp.symm
      cases hrest : line.flatMap tokens with
      | nil =>
        rw [hrest] at ih
        cases ih
        simp only [List.flatMap_cons, tokens, hrest, Option.toList_none, List.append_nil, spelled,
          Opt.ofLong_long, Option.bind_some, hvalue, Bool.false_eq_true, ↓reduceIte]
      | cons token rest =>
        rw [hrest] at ih
        simp only [List.flatMap_cons, tokens, hrest, Option.toList_none, List.cons_append,
          List.nil_append, spelled, Opt.ofLong_long, Option.bind_some, hvalue, Bool.false_eq_true,
          ↓reduceIte, ih, Option.map_some]

/-- A parser of lines of long options. -/
def parseLong (argv : List String) : Option Args :=
  (spelled argv).bind fun line => if (line.map Prod.fst).Nodup then read line else none

theorem clap_parseLong : Clap parseLong where
  parse_tokens line hfits hnodup := by
    rw [parseLong, spelled_tokens hfits, Option.bind_some, if_pos hnodup]

/-! ## The derivation and its fixpoint -/

/-- From `-c` alone the totals over the processes stay within `-c` and the cores, and no number is
zero; and whatever the settings, a child that parses the command line of its parent resolves, on any
number of cores, to one process with the parent's numbers. It does parse it if the numbers fit their
types and no text on it looks like an option. -/
theorem derived_totals_bounded {parse : List String → Option Args} (clap : Clap parse) :
    (∀ (args : Args) (c cores : ℕ), 1 ≤ c → 1 ≤ cores → args.concurrency = some c →
      args.procs = none → args.ioThreads = none → args.ioConcurrency = none →
      args.cpuWorkers = none →
        let r := resolve args cores
        r.procs ≤ min cores c ∧ r.ioConcurrency * r.procs ≤ c ∧ r.ioThreads * r.procs ≤ c ∧
          r.ioThreads ≤ r.ioConcurrency ∧ r.cpuWorkers * r.procs ≤ min cores c ∧
          1 ≤ r.procs ∧ 1 ≤ r.ioThreads ∧ 1 ≤ r.ioConcurrency ∧ 1 ≤ r.cpuWorkers) ∧
    (∀ (args : Args) (cores : ℕ) (argv : List String),
      childArgv args (resolve args cores) = some argv →
        (∀ child, parse argv = some child → ∀ cores' : ℕ,
          resolve child cores' = { resolve args cores with procs := 1 }) ∧
        (args.InRange → args.Plain → cores < 2 ^ 64 → (parse argv).isSome)) := by
  constructor
  · intro args c cores hc hcores hconc hprocs hthreads hgate hcpu
    obtain ⟨hslots, hpool, hcap, hchildren⟩ :=
      resolve_totals_le hc hcores hconc hprocs hthreads hgate hcpu
    exact ⟨resolve_procs_le hc hcores hconc hprocs, hslots, hpool, hcap, hchildren,
      one_le_resolve args cores⟩
  · intro args cores argv hargv
    rw [childArgv_eq] at hargv
    obtain ⟨app, happ, rfl⟩ := Option.map_eq_some_iff.1 hargv
    rw [clap.parse_tokens _ (fits_childLine _ _ _) (nodup_childLine _ _ _)]
    constructor
    · intro child hchild cores'
      exact resolve_child hchild (one_le_resolve args cores).2 cores'
    · intro hargs hplain hcores
      exact isSome_read_childLine hargs hplain hcores happ

/-- `-c 4000` and a queue list on six cores: six processes, whose children resolve to the same
numbers on a machine with 32. -/
theorem derived_totals_bounded_four_thousand :
    let args := { Args.default with
      app := some "m:app", concurrency := some 4000, queues := ["high", "low"] }
    resolve args 6 = ⟨6, 85, 666, 1⟩ ∧ 666 * 6 ≤ 4000 ∧
      ∃ argv child, childArgv args (resolve args 6) = some argv ∧ parseLong argv = some child ∧
        resolve child 32 = ⟨1, 85, 666, 1⟩ := by
  intro args
  have hresolve : resolve args 6 = ⟨6, 85, 666, 1⟩ := by decide
  have htotal := (derived_totals_bounded clap_parseLong).1 args 4000 6 (by decide) (by decide) rfl
    rfl rfl rfl rfl
  rw [hresolve] at htotal
  obtain ⟨argv, hargv⟩ : ∃ argv, childArgv args (resolve args 6) = some argv := ⟨_, rfl⟩
  obtain ⟨hsame, hparses⟩ := (derived_totals_bounded clap_parseLong).2 args 6 argv hargv
  have hrange : args.InRange := by
    constructor <;> simp [args, Args.default]
  have hplain : args.Plain := by
    constructor <;> simp [args, Args.default] <;> decide
  obtain ⟨child, hchild⟩ := Option.isSome_iff_exists.1 (hparses hrange hplain (by norm_num))
  exact ⟨hresolve, htotal.2.1, argv, child, hargv, hchild, by rw [hsame child hchild, hresolve]⟩

end Cauli.Cli
