import Cauli.Lib.Python

/-!
# Task definitions (`py/cauli/task.py`)

`TaskDef` carries what its constructor checks. Durations are given in seconds and kept in
milliseconds, `int(round(seconds * 1000))`.

* `secondsToMs`: the conversion, which raises for NaN and the infinities;
* `TaskDef.init`: the constructor, its checks in the order of the source. An error carries what its
  message shows;
* `TaskDef.init_eq_ok`: what an accepted definition keeps of its parameters.

The function itself, its signature and the app are left out: no check here reads them. The name of
a task without one comes from its function and is the parameter `defaultName`.
-/

namespace Cauli

/-- The largest `u32`. -/
def U32_MAX : ℤ := 2 ^ 32 - 1

/-- The kinds of tasks. -/
inductive TaskKind
  | io
  | cpu
  deriving DecidableEq

/-- The word for a kind. -/
def TaskKind.name : TaskKind → String
  | .io => "io"
  | .cpu => "cpu"

/-- The kind a word names. -/
def TaskKind.ofName (s : PyStr) : Option TaskKind :=
  [TaskKind.io, TaskKind.cpu].find? fun k => s = PyStr.ofString k.name

/-- Milliseconds of a duration in seconds. -/
def secondsToMs (seconds : PyNum) : Except ConversionError ℤ := (seconds.scale 1000).roundInt

/-- The keyword arguments of `@app.task`. -/
structure TaskParams where
  defaultName : PyStr
  name : Option PyStr := none
  kind : Option PyStr := none
  queue : Option PyStr := none
  maxRetries : PyNum := .int 3
  timeout : PyNum := .float (.finite 300)
  softTimeout : Option PyNum := none
  backoffBase : PyNum := .float (.finite (1 / 2))
  backoffFactor : PyNum := .float (.finite 2)
  backoffMax : PyNum := .float (.finite 60)
  jitter : Bool := true
  storeResult : Bool := true

/-- A registered task. -/
structure TaskDef where
  name : PyStr
  kind : TaskKind
  queue : Option PyStr
  maxRetries : ℤ
  timeoutMs : ℤ
  softTimeoutMs : Option ℤ
  backoffBaseMs : ℤ
  backoffFactor : F64
  backoffMaxMs : ℤ
  jitter : Bool
  storeResult : Bool
  soft_lt : ∀ s ∈ softTimeoutMs, s < timeoutMs
  timeout_pos : 0 < timeoutMs
  maxRetries_range : 0 ≤ maxRetries ∧ maxRetries ≤ U32_MAX
  soft_nonneg : ∀ s ∈ softTimeoutMs, 0 ≤ s
  backoffBase_nonneg : 0 ≤ backoffBaseMs
  backoffMax_nonneg : 0 ≤ backoffMaxMs

/-- What the constructor raises. -/
inductive TaskError
  | invalidKind (kind : PyStr)
  | conversion (e : ConversionError)
  | softNotLess (softTimeout : Option PyNum) (timeout : PyNum)
  | timeoutTooShort (timeout : PyNum)
  | maxRetriesRange (maxRetries : ℤ)
  | negative (field : String) (valueMs : Option ℤ)
  deriving DecidableEq

/-- Raise `e` unless `c`. -/
def require {ε : Type} (c : Prop) [Decidable c] (e : ε) : Except ε (PLift c) :=
  if h : c then .ok ⟨h⟩ else .error e

/-- A conversion inside the constructor. -/
def converted {α : Type} (x : Except ConversionError α) : Except TaskError α :=
  x.mapError .conversion

/-- An optional duration. -/
def optSecondsToMs : Option PyNum → Except ConversionError (Option ℤ)
  | none => .ok none
  | some x => (secondsToMs x).map some

/-- The kind, `io` unless given. -/
def chosenKind : Option PyStr → Except TaskError TaskKind
  | none => .ok .io
  | some k => (TaskKind.ofName k).elim (.error (.invalidKind k)) .ok

/-- `TaskDef.__init__`. -/
def TaskDef.init (p : TaskParams) : Except TaskError TaskDef := do
  let kind ← chosenKind p.kind
  let timeoutMs ← converted (secondsToMs p.timeout)
  let softTimeoutMs ← converted (optSecondsToMs p.softTimeout)
  let ⟨soft_lt⟩ ← require (∀ s ∈ softTimeoutMs, s < timeoutMs) (.softNotLess p.softTimeout p.timeout)
  let maxRetries ← converted p.maxRetries.truncInt
  let backoffBaseMs ← converted (secondsToMs p.backoffBase)
  let backoffMaxMs ← converted (secondsToMs p.backoffMax)
  let ⟨timeout_pos⟩ ← require (0 < timeoutMs) (.timeoutTooShort p.timeout)
  let ⟨maxRetries_range⟩ ← require (0 ≤ maxRetries ∧ maxRetries ≤ U32_MAX)
    (.maxRetriesRange maxRetries)
  let ⟨soft_nonneg⟩ ← require (∀ s ∈ softTimeoutMs, 0 ≤ s) (.negative "soft_timeout" softTimeoutMs)
  let ⟨backoffBase_nonneg⟩ ← require (0 ≤ backoffBaseMs) (.negative "backoff_base" backoffBaseMs)
  let ⟨backoffMax_nonneg⟩ ← require (0 ≤ backoffMaxMs) (.negative "backoff_max" backoffMaxMs)
  let backoffFactor ← converted p.backoffFactor.toFloat
  return { name := (p.name.filter (· ≠ [])).getD p.defaultName, kind, queue := p.queue, maxRetries,
           timeoutMs, softTimeoutMs, backoffBaseMs, backoffFactor, backoffMaxMs, jitter := p.jitter,
           storeResult := p.storeResult, soft_lt, timeout_pos, maxRetries_range, soft_nonneg,
           backoffBase_nonneg, backoffMax_nonneg }

theorem bind_eq_ok {ε α β : Type} {x : Except ε α} {f : α → Except ε β} {b : β}
    (h : (x >>= f) = .ok b) : ∃ a, x = .ok a ∧ f a = .ok b := by
  cases x with
  | error e => cases h
  | ok a => exact ⟨a, rfl, h⟩

theorem mapError_eq_ok {ε ε' α : Type} {f : ε → ε'} {x : Except ε α} {a : α}
    (h : x.mapError f = .ok a) : x = .ok a := by
  cases x with
  | error e => cases h
  | ok a' => cases h; rfl

theorem map_eq_ok {ε α β : Type} {f : α → β} {x : Except ε α} {b : β} (h : x.map f = .ok b) :
    ∃ a, x = .ok a ∧ f a = b := by
  cases x with
  | error e => cases h
  | ok a => exact ⟨a, rfl, Except.ok.inj h⟩

/-- **What an accepted definition keeps of its durations and its factor.** -/
theorem TaskDef.init_eq_ok {p : TaskParams} {t : TaskDef} (h : TaskDef.init p = .ok t) :
    secondsToMs p.timeout = .ok t.timeoutMs ∧ secondsToMs p.backoffBase = .ok t.backoffBaseMs ∧
      secondsToMs p.backoffMax = .ok t.backoffMaxMs ∧ p.backoffFactor.toFloat = .ok t.backoffFactor := by
  unfold TaskDef.init at h
  obtain ⟨kind, -, h⟩ := bind_eq_ok h
  obtain ⟨timeoutMs, htimeout, h⟩ := bind_eq_ok h
  obtain ⟨softTimeoutMs, -, h⟩ := bind_eq_ok h
  obtain ⟨⟨hsoft⟩, -, h⟩ := bind_eq_ok h
  obtain ⟨maxRetries, -, h⟩ := bind_eq_ok h
  obtain ⟨backoffBaseMs, hbase, h⟩ := bind_eq_ok h
  obtain ⟨backoffMaxMs, hmax, h⟩ := bind_eq_ok h
  obtain ⟨⟨hpos⟩, -, h⟩ := bind_eq_ok h
  obtain ⟨⟨hrange⟩, -, h⟩ := bind_eq_ok h
  obtain ⟨⟨hsoft0⟩, -, h⟩ := bind_eq_ok h
  obtain ⟨⟨hbase0⟩, -, h⟩ := bind_eq_ok h
  obtain ⟨⟨hmax0⟩, -, h⟩ := bind_eq_ok h
  obtain ⟨backoffFactor, hfactor, h⟩ := bind_eq_ok h
  cases h
  exact ⟨mapError_eq_ok htimeout, mapError_eq_ok hbase, mapError_eq_ok hmax,
    mapError_eq_ok hfactor⟩

end Cauli
