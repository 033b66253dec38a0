import Cauli.Beat.CronGrammar
import Cauli.Beat.Reconcile
import Cauli.Client.Documents

/-!
# Stored schedule entries (`py/cauli/schedules.py`, `py/cauli/beat.py`)

A schedule entry is stored as the JSON text of its `to_dict`, in which the schedule is its `to_spec`, and is
built again from the text by the constructors, which also read what an operator has written by hand.

* `intervalSchedule`, `crontabSchedule`, `scheduleFromSpec`, `scheduleEntry`: the constructors;
* `ScheduleEntry.toDict`, `fromDict`, `stored`, `loadRow`: the stored form;
* `parse_canonical`: the canonical text of a field matches what the field matches;
* `scheduleFromDict_interval`: an interval that goes through seconds is read back to the millisecond;
* `stored_definitions_return`: an entry is read back as it was stored, which is what reconciliation asks of
  the entries it pushes (`format`).

What is Python's own is a parameter (`Runtime`): the decoder, the texts of values, `float` of a text and the
time zones that are known.
-/

namespace Cauli.Definition

open PyText Result JsonText JsonToken Documents

/-- What the constructors raise. -/
inductive DefinitionError
  | emptyName
  | emptyTask (name : PyStr)
  | unknownPolicy (name : PyStr)
  | negativeLateness (name : PyStr)
  | boolSchedule
  | unsupportedSpec
  | unknownType (kind : PyValue)
  | notPositive (every : PyValue)
  | unknownTimezone (timezone : PyStr)
  | cron (e : CronError)
  | conversion (e : ConversionError)
  | notFloat (text : PyStr)
  | keyError (key : String)
  | typeError
  | valueError
  | attributeError
  | undecodable (message : PyStr)

/-- What is Python's. `zoneInfo` says whether a time zone is known. -/
structure Runtime extends Python where
  floatOfStr : PyStr → Option F64
  zoneInfo : PyStr → Bool

variable (rt : Runtime)

/-! ### Conversions -/

/-- `bool(v)`. -/
def truthy : PyValue → Bool
  | .none | .bool false | .int 0 | .str [] | .list [] | .dict [] => false
  | .float x => x != .finite 0
  | _ => true

/-- `float(v)`. -/
def toFloat : PyValue → Except DefinitionError F64
  | .int n => (PyNum.int n).toFloat.mapError .conversion
  | .bool b => .ok (.finite (if b then 1 else 0))
  | .float x => .ok x
  | .str s => (rt.floatOfStr s).elim (.error (.notFloat s)) .ok
  | _ => .error .typeError

/-- `None if v is None else float(v)`. -/
def optFloat : PyValue → Except DefinitionError (Option F64)
  | .none => .ok none
  | v => (toFloat rt v).map some

/-- `v < 0`. -/
def isNegative : PyValue → Except DefinitionError Bool
  | .int n => .ok (decide (n < 0))
  | .bool _ => .ok false
  | .float x => .ok x.isNegative
  | _ => .error .typeError

/-- The value of a key; of one that is no text only the type is known. -/
def keyValue : PyKey → PyValue
  | .str s => .str s
  | .other t => .other t

/-- `list(v)`. -/
def listOf : PyValue → Except DefinitionError (List PyValue)
  | .list items => .ok items
  | .str s => .ok (s.map fun c => .str [c])
  | .dict entries => .ok (entries.map fun e => keyValue e.1)
  | _ => .error .typeError

/-- `d[k] = v`: the value of a key that is there is replaced. -/
def putItem (k v : PyValue) (d : List (PyKey × PyValue)) : Except DefinitionError (List (PyKey × PyValue)) :=
  match k with
  | .str s =>
    if d.any fun e => match e.1 with | .str t => t == s | .other _ => false then
      .ok (d.map fun e => match e.1 with | .str t => (.str t, if t == s then v else e.2) | .other _ => e)
    else .ok (d ++ [(.str s, v)])
  | .list _ | .dict _ => .error .typeError
  | k => .ok (d ++ [(.other (typeName k), v)])

/-- `dict(v)`: a dict, or a list of pairs. -/
def dictOf : PyValue → Except DefinitionError (List (PyKey × PyValue))
  | .dict entries => .ok entries
  | .list items => items.foldlM (fun d item => do
      match ← listOf item with
      | [k, v] => putItem k v d
      | _ => .error .valueError) []
  | .str [] => .ok []
  | .str _ => .error .valueError
  | _ => .error .typeError

/-- The characters of a text; no field of a crontab has a lone surrogate. -/
def chars (s : PyStr) : List Char :=
  s.map fun
    | .char c => c
    | .surrogate _ _ => '\uFFFD'

/-- `str(v)` of an element of a field. -/
def elementText : PyValue → List Char
  | .str s => chars s
  | v => chars (rt.str v)

/-- A value as the argument of a field. -/
def fieldArg : PyValue → FieldArg
  | .none => .none
  | .bool b => .bool b
  | .int n => .int n
  | .str s => .str (chars s)
  | .list items => .items (items.map (elementText rt))
  | .dict entries => .items (entries.map fun e => elementText rt (keyValue e.1))
  | .float _ | .other _ => .other

/-! ### Schedules -/

/-- The quotient by a positive integer. -/
def quotient (k : ℕ) : F64 → F64
  | .finite q => .ofRat (q / k)
  | x => x

/-- A crontab: the canonical texts of its fields, its time zone, and the values that it matches. -/
structure CrontabSchedule where
  minuteExpr : List Char
  hourExpr : List Char
  domExpr : List Char
  monthExpr : List Char
  dowExpr : List Char
  timezone : PyStr
  minutes : Finset ℕ
  hours : Finset ℕ
  doms : Finset ℕ
  months : Finset ℕ
  dows : Finset ℕ
  deriving DecidableEq

/-- The arguments of a crontab. -/
structure CrontabArgs where
  minute : FieldArg
  hour : FieldArg
  dayOfMonth : FieldArg
  month : FieldArg
  dayOfWeek : FieldArg
  timezone : PyValue

/-- `CrontabSchedule.__init__`. -/
def crontabSchedule (a : CrontabArgs) : Except DefinitionError CrontabSchedule := do
  let minuteExpr ← (exprText a.minute).mapError .cron
  let hourExpr ← (exprText a.hour).mapError .cron
  let domExpr ← (exprText a.dayOfMonth).mapError .cron
  let monthExpr ← (exprText a.month).mapError .cron
  let dowExpr ← (exprText a.dayOfWeek).mapError .cron
  let timezone ← (pyStr rt.toPython a.timezone).mapError fun _ => .valueError
  if rt.zoneInfo timezone then do
    let minutes ← (parseField a.minute 0 59 []).mapError .cron
    let hours ← (parseField a.hour 0 23 []).mapError .cron
    let doms ← (parseField a.dayOfMonth 1 31 []).mapError .cron
    let months ← (parseField a.month 1 12 MONTH_NAMES).mapError .cron
    let dows ← (parseField a.dayOfWeek 0 7 DOW_NAMES).mapError .cron
    .ok ⟨minuteExpr, hourExpr, domExpr, monthExpr, dowExpr, timezone, minutes, hours, doms, months,
      dows.image fun d => if d = 7 then 0 else d⟩
  else .error (.unknownTimezone timezone)

/-- A schedule. -/
inductive Schedule
  | interval (everyMs : ℤ)
  | crontab (c : CrontabSchedule)
  deriving DecidableEq

/-- `IntervalSchedule.__init__`. -/
def intervalSchedule (every : PyValue) : Except DefinitionError Schedule := do
  let x ← toFloat rt every
  let everyMs ← ((x.scale 1000).toInt roundEven).mapError .conversion
  if 0 < everyMs then .ok (.interval everyMs) else .error (.notPositive every)

/-- A text as a value. -/
def textValue (s : List Char) : PyValue := .str (s.map .char)

/-- `to_spec`. -/
def Schedule.toSpec : Schedule → PyValue
  | .interval everyMs => fieldsDict [("type", lit "interval"), ("every_ms", .int everyMs)]
  | .crontab c => fieldsDict [("type", lit "crontab"), ("minute", textValue c.minuteExpr),
      ("hour", textValue c.hourExpr), ("day_of_month", textValue c.domExpr),
      ("month", textValue c.monthExpr), ("day_of_week", textValue c.dowExpr), ("timezone", .str c.timezone)]

/-- A schedule that a constructor has made. -/
inductive Built : Schedule → Prop
  | interval {every : PyValue} {s : Schedule} (h : intervalSchedule rt every = .ok s) : Built s
  | crontab {a : CrontabArgs} {c : CrontabSchedule} (h : crontabSchedule rt a = .ok c) : Built (.crontab c)

/-- What `schedule_from_spec` is given: a schedule, a `timedelta`, or any other value. -/
inductive ScheduleArg
  | schedule (s : Schedule) (h : Built rt s)
  | timedelta (micros : ℤ)
  | value (v : PyValue)

/-- `spec.get(k, dflt)`. -/
def specGet (spec : PyValue) (k : String) (dflt : PyValue) : PyValue := (getItem spec k).getD dflt

/-- `schedule_from_spec` of a dict. -/
def scheduleFromDict (spec : PyValue) : Except DefinitionError Schedule :=
  let kind := docGet spec "type"
  if isText kind "interval" then
    match getItem spec "every_ms" with
    | some v => do
      let x ← toFloat rt v
      intervalSchedule rt (.float (quotient 1000 x))
    | none => do
      let v ← (getItem spec "every").elim (.error (.keyError "every")) .ok
      let x ← toFloat rt v
      intervalSchedule rt (.float x)
  else if isText kind "crontab" then do
    let arg k := fieldArg rt (specGet spec k (lit "*"))
    let c ← crontabSchedule rt ⟨arg "minute", arg "hour", arg "day_of_month", arg "month",
      arg "day_of_week", specGet spec "timezone" (lit "UTC")⟩
    .ok (.crontab c)
  else .error (.unknownType kind)

/-- `schedule_from_spec`. -/
def scheduleFromSpec : ScheduleArg rt → Except DefinitionError Schedule
  | .schedule s _ => .ok s
  | .timedelta micros => intervalSchedule rt (.float (.ofRat (micros / 1000000)))
  | .value (.bool _) => .error .boolSchedule
  | .value (.int n) => do
    let x ← toFloat rt (.int n)
    intervalSchedule rt (.float x)
  | .value (.float x) => intervalSchedule rt (.float x)
  | .value (.dict entries) => scheduleFromDict rt (.dict entries)
  | .value _ => .error .unsupportedSpec

/-! ### Entries -/

/-- An entry without its name and its source. -/
structure Fields where
  task : PyStr
  schedule : Schedule
  args : List PyValue
  kwargs : List (PyKey × PyValue)
  queue : PyValue
  expires : Option F64
  idempotent : Bool
  enabled : Bool
  onMissed : OnMissed
  maxLateness : Option F64

/-- An entry. -/
structure ScheduleEntry extends Fields where
  name : PyStr
  source : PyValue

/-- The arguments of an entry. -/
structure EntryArgs where
  name : PyValue
  task : PyValue
  schedule : ScheduleArg rt
  args : PyValue
  kwargs : PyValue
  queue : PyValue
  expires : PyValue
  idempotent : PyValue
  enabled : PyValue
  onMissed : PyValue
  maxLateness : PyValue
  source : PyValue

/-- A text that is not empty. -/
def nonEmptyText : PyValue → Option PyStr
  | .str (c :: cs) => some (c :: cs)
  | _ => none

/-- A member of `ON_MISSED`. -/
def policy (v : PyValue) : Option OnMissed :=
  if isText v "fire_once" then some .fireOnce else if isText v "skip" then some .skip else none

/-- The text of a policy. -/
def policyText : OnMissed → String
  | .fireOnce => "fire_once"
  | .skip => "skip"

/-- `max_lateness is not None and max_lateness < 0`. -/
def isLatenessNegative : PyValue → Except DefinitionError Bool
  | .none => .ok false
  | v => isNegative v

/-- `ScheduleEntry.__init__`. -/
def scheduleEntry (a : EntryArgs rt) : Except DefinitionError ScheduleEntry := do
  let name ← (nonEmptyText a.name).elim (.error .emptyName) .ok
  let task ← (nonEmptyText a.task).elim (.error (.emptyTask name)) .ok
  let onMissed ← (policy a.onMissed).elim (.error (.unknownPolicy name)) .ok
  if ← isLatenessNegative a.maxLateness then .error (.negativeLateness name)
  else do
    let schedule ← scheduleFromSpec rt a.schedule
    let args ← listOf (orDefault a.args (.list []))
    let kwargs ← dictOf (orDefault a.kwargs (.dict []))
    let expires ← optFloat rt a.expires
    let maxLateness ← optFloat rt a.maxLateness
    .ok ⟨⟨task, schedule, args, kwargs, a.queue, expires, truthy a.idempotent, truthy a.enabled, onMissed,
      maxLateness⟩, name, a.source⟩

/-- A float or `None`. -/
def optValue : Option F64 → PyValue
  | none => .none
  | some x => .float x

/-- The fields of `to_dict`. -/
def ScheduleEntry.dictFields (e : ScheduleEntry) : List (String × PyValue) :=
  [("name", .str e.name), ("task", .str e.task), ("args", .list e.args), ("kwargs", .dict e.kwargs),
    ("schedule", e.schedule.toSpec), ("queue", e.queue), ("expires", optValue e.expires),
    ("idempotent", .bool e.idempotent), ("enabled", .bool e.enabled),
    ("on_missed", lit (policyText e.onMissed)), ("max_lateness", optValue e.maxLateness),
    ("source", e.source)]

/-- `to_dict`. -/
def ScheduleEntry.toDict (e : ScheduleEntry) : PyValue := fieldsDict e.dictFields

/-- `doc[k]`. -/
def docItem (doc : PyValue) (k : String) : Except DefinitionError PyValue :=
  (getItem doc k).elim (.error (.keyError k)) .ok

/-- `from_dict`. -/
def fromDict (doc : PyValue) : Except DefinitionError ScheduleEntry := do
  let name ← docItem doc "name"
  let task ← docItem doc "task"
  let schedule ← docItem doc "schedule"
  scheduleEntry rt
    { name, task, schedule := .value schedule
      args := orDefault (docGet doc "args") (.list [])
      kwargs := orDefault (docGet doc "kwargs") (.dict [])
      queue := docGet doc "queue"
      expires := docGet doc "expires"
      idempotent := .bool (truthy (specGet doc "idempotent" (.bool false)))
      enabled := .bool (truthy (specGet doc "enabled" (.bool true)))
      onMissed := specGet doc "on_missed" (lit "fire_once")
      maxLateness := docGet doc "max_lateness"
      source := specGet doc "source" (lit "redis") }

/-- `upsert`: the bytes that are stored. -/
def stored (floatToken : ℚ → JsonNumber) (e : ScheduleEntry) : Except EncodeError (List UInt8) :=
  (encode floatToken e.toDict).map fun t => utf8 t.chars

/-- A turn of the loop of `load`: the hash field `name` with the value `raw`. -/
def loadRow (name : PyStr) (raw : List UInt8) : Except DefinitionError ScheduleEntry :=
  match rt.decode raw with
  | .error message => .error (.undecodable message)
  | .ok (.dict entries) =>
    fromDict rt (.dict (if (getItem (.dict entries) "name").isSome then entries
      else entries ++ [(.str (PyStr.ofString "name"), .str name)]))
  | .ok _ => .error .attributeError

/-! ### Fields of a crontab -/

section Canonical

variable {f : CronField} {arg : FieldArg} {s t text : List Char} {values : Finset ℕ}

theorem parseParts_congr {expr expr' : List Char} {parts parts' : List (List Char)}
    (hsame : parts.map strip = parts'.map strip)
    (h : parseParts expr f.lo f.hi f.names parts = .ok values) :
    parseParts expr' f.lo f.hi f.names parts' = .ok values := by
  induction parts generalizing parts' values with
  | nil =>
    cases parts' with
    | nil => exact h
    | cons part' parts' => cases hsame
  | cons part parts ih =>
    cases parts' with
    | nil => cases hsame
    | cons part' parts' =>
      obtain ⟨hpart, hparts⟩ := List.cons.inj hsame
      rw [parseParts_cons] at h ⊢
      obtain ⟨hempty, l, R, hl, hR, hvalues⟩ := h
      exact ⟨hpart ▸ hempty, l, R, hpart ▸ hl, ih hparts hR, hvalues⟩

/-- What a field matches depends on its stripped elements only. -/
theorem parse_congr (hsame : splitStrip ',' (lower (strip s)) = splitStrip ',' (lower (strip t)))
    (h : f.parse s = .ok values) : f.parse t = .ok values := by
  rw [parse_eq_ok_iff] at h ⊢
  exact parseParts_congr hsame h

theorem parse_ne_nil (h : f.parse s = .ok values) : lower (strip s) ≠ [] := by
  rw [parse_eq_ok_iff] at h
  intro hnil
  rw [elements, hnil, List.splitOn_nil] at h
  exact (parseParts_cons.1 h).1 rfl

theorem parse_of_parseField (h : parseField arg f.lo f.hi f.names = .ok values) (htext : arg.text = .ok s) :
    f.parse s = .ok values := by
  rw [parseField, htext] at h
  exact h

theorem lower_eq_comma (c : Char) : c.toLower = ',' ↔ c = ',' := by
  obtain hsame | ⟨hlow, hhigh, hcode⟩ := toLower_cases c
  · rw [hsame]
  · constructor
    · intro h
      rw [h] at hcode
      have hcomma : ','.toNat = 44 := rfl
      omega
    · rintro rfl
      exact absurd hlow (by decide)

theorem splitStrip_expr (s : List Char) :
    splitStrip ',' (lower (strip s)) = (splitStrip ',' s).map lower := by
  rw [splitStrip_lower lower_eq_comma, splitStrip_strip rfl]

theorem mem_toString {n : ℤ} {c : Char} (hc : c ∈ (toString n).toList) : c = '-' ∨ c.isDigit = true := by
  rw [Int.toString_eq_repr, Int.repr_eq_if] at hc
  split at hc
  · refine .inr (isDigit_of_mem_toDigits (n := n.toNat) c ?_)
    simpa [Nat.repr] using hc
  · obtain hc | hc := by simpa [Nat.repr] using hc
    · exact .inl hc
    · exact .inr (isDigit_of_mem_toDigits c hc)

/-- An integer is written without white space and letters. -/
theorem lower_strip_toString (n : ℤ) : lower (strip (toString n).toList) = (toString n).toList := by
  have hplain : ∀ c ∈ (toString n).toList, isSpace c = false ∧ c.toLower = c := by
    intro c hc
    rcases mem_toString hc with rfl | hdigit
    · decide
    · obtain ⟨hlow, hhigh⟩ := Char.isDigit_iff_toNat.1 hdigit
      have hzero : '0'.toNat = 48 := rfl
      have hnine : '9'.toNat = 57 := rfl
      refine ⟨by simp only [isSpace]; grind, ?_⟩
      obtain hsame | ⟨hupper, -, -⟩ := toLower_cases c
      · exact hsame
      · omega
  rw [strip_eq_self fun c hc => (hplain c hc).1, lower_eq_self fun c hc => (hplain c hc).2]

/-- **The canonical text of a field** is the canonical text of itself, and matches what the field matches. -/
theorem parse_canonical (htext : exprText arg = .ok text)
    (h : parseField arg f.lo f.hi f.names = .ok values) :
    exprText (.str text) = .ok text ∧ f.parse text = .ok values := by
  have hcanonical : ∀ {u}, lower (strip u) = u → f.parse u = .ok values → exprText (.str u) = .ok u := by
    intro u hu hparse
    have hne := parse_ne_nil hparse
    rw [exprText, if_neg hne, hu]
  cases arg with
  | none =>
    cases htext
    exact ⟨rfl, h⟩
  | bool b => cases htext
  | int n =>
    cases htext
    exact ⟨hcanonical (lower_strip_toString n) h, h⟩
  | str s =>
    have hparse : f.parse s = .ok values := h
    rw [exprText, if_neg (parse_ne_nil hparse)] at htext
    cases htext
    have hsame : lower (strip (lower (strip s))) = lower (strip s) := by
      rw [strip_lower, strip_strip, lower_lower]
    have hparse' : f.parse (lower (strip s)) = .ok values := parse_congr (by rw [hsame]) hparse
    exact ⟨hcanonical hsame hparse', hparse'⟩
  | items xs =>
    cases htext
    have hparse := parse_of_parseField h rfl
    have hne : xs ≠ [] := by
      rintro rfl
      exact parse_ne_nil hparse rfl
    have hstrip : strip ([','].intercalate (xs.map fun x => lower (strip x))) =
        [','].intercalate (xs.map fun x => lower (strip x)) := by
      refine strip_intercalate rfl fun y hy => ?_
      obtain ⟨x, -, rfl⟩ := List.mem_map.1 hy
      rw [strip_lower, strip_strip]
    have hlower : lower ([','].intercalate (xs.map fun x => lower (strip x))) =
        [','].intercalate (xs.map fun x => lower (strip x)) := by
      rw [lower_intercalate rfl, List.map_map]
      congr 2
      funext x
      exact lower_lower _
    have hparse' : f.parse ([','].intercalate (xs.map fun x => lower (strip x))) = .ok values := by
      refine parse_congr ?_ hparse
      rw [splitStrip_expr, splitStrip_expr, splitStrip_intercalate hne,
        splitStrip_intercalate (by simpa using hne), List.flatMap_map]
      simp only [splitStrip_expr, List.map_flatMap, List.map_map]
      congr 2
      funext x
      congr 1
      funext y
      exact (lower_lower y).symm
    exact ⟨hcanonical (by rw [hstrip, hlower]) hparse', hparse'⟩
  | other => cases htext

end Canonical

/-! ### Intervals -/

/-- Milliseconds survive the division to seconds and the multiplication back. -/
theorem roundEven_milliseconds {n : ℤ} (hpos : 0 < n) (hle : n ≤ 2 ^ 51) :
    |F64.nearest (n / 1000)| < 2 ^ 1024 ∧ |F64.nearest (F64.nearest (n / 1000) * 1000)| < 2 ^ 1024 ∧
      roundEven (F64.nearest (F64.nearest (n / 1000) * 1000)) = n := by
  have hone : (1 : ℚ) ≤ n := by exact_mod_cast hpos
  have htop : (n : ℚ) ≤ 2 ^ 51 := by exact_mod_cast hle
  have hx := F64.abs_sub_nearest_le_of_lt (e := 42) (q := n / 1000) (by norm_num) (by positivity)
    (by rw [div_lt_iff₀ (by norm_num)]; norm_num; linarith)
  obtain ⟨hx₁, hx₂⟩ := abs_le.1 hx
  norm_num at hx₁ hx₂
  have hy := F64.abs_sub_nearest_le_of_lt (e := 52) (q := F64.nearest (n / 1000) * 1000) (by norm_num)
    (by linarith) (by norm_num; linarith)
  obtain ⟨hy₁, hy₂⟩ := abs_le.1 hy
  norm_num at hy₁ hy₂
  have hfinite : (2 : ℚ) ^ 52 ≤ 2 ^ 1024 := pow_le_pow_right₀ (by norm_num) (by norm_num)
  refine ⟨(abs_lt.2 ?_).trans_le hfinite, (abs_lt.2 ?_).trans_le hfinite, roundEven_eq_of_abs_sub_lt ?_⟩
  · constructor <;> linarith
  · constructor <;> linarith
  · rw [abs_lt]
    constructor <;> linarith

theorem toFloat_int {n : ℤ} (h : n.natAbs < 2 ^ 53) : toFloat rt (.int n) = .ok (.finite n) := by
  have hfinite := F64.ofInt_exact h
  rw [toFloat, PyNum.toFloat, hfinite]
  rfl

/-- **An interval is read back to the millisecond.** -/
theorem scheduleFromDict_interval {n : ℤ} (hpos : 0 < n) (hle : n ≤ 2 ^ 51) :
    scheduleFromDict rt (Schedule.interval n).toSpec = .ok (.interval n) := by
  obtain ⟨hx, hy, hround⟩ := roundEven_milliseconds hpos hle
  have hint : toFloat rt (.int n) = .ok (.finite n) := toFloat_int rt (by omega)
  have hquotient : quotient 1000 (.finite n) = .finite (F64.nearest (n / 1000)) :=
    F64.ofRat_eq_finite_iff.2 ⟨rfl, hx⟩
  have hscale : F64.scale 1000 (.finite (F64.nearest (n / 1000))) =
      .finite (F64.nearest (F64.nearest (n / 1000) * 1000)) :=
    F64.ofRat_eq_finite_iff.2 ⟨rfl, hy⟩
  have hinterval : intervalSchedule rt (.float (quotient 1000 (.finite n))) = .ok (.interval n) := by
    have hround' : (F64.scale 1000 (quotient 1000 (.finite n))).toInt roundEven = .ok n := by
      rw [hquotient, hscale, F64.toInt, hround]
    simp only [intervalSchedule, toFloat, bind, Except.bind, hround', Except.mapError, if_pos hpos]
  have hkind : docGet (Schedule.interval n).toSpec "type" = lit "interval" := rfl
  have hms : getItem (Schedule.interval n).toSpec "every_ms" = some (.int n) := by
    rw [Schedule.toSpec, getItem_fieldsDict]
    rfl
  rw [scheduleFromDict]
  simp only [hkind, hms, isText_lit, decide_true, ↓reduceIte, hint, bind, Except.bind, hinterval]

/-! ### Crontabs -/

/-- The constructor has made `c` of `a`. -/
structure CrontabOf (a : CrontabArgs) (c : CrontabSchedule) : Prop where
  minuteExpr : exprText a.minute = .ok c.minuteExpr
  hourExpr : exprText a.hour = .ok c.hourExpr
  domExpr : exprText a.dayOfMonth = .ok c.domExpr
  monthExpr : exprText a.month = .ok c.monthExpr
  dowExpr : exprText a.dayOfWeek = .ok c.dowExpr
  timezone : pyStr rt.toPython a.timezone = .ok c.timezone
  known : rt.zoneInfo c.timezone = true
  minutes : parseField a.minute 0 59 [] = .ok c.minutes
  hours : parseField a.hour 0 23 [] = .ok c.hours
  doms : parseField a.dayOfMonth 1 31 [] = .ok c.doms
  months : parseField a.month 1 12 MONTH_NAMES = .ok c.months
  dows : ∃ values, parseField a.dayOfWeek 0 7 DOW_NAMES = .ok values ∧
    values.image (fun d => if d = 7 then 0 else d) = c.dows

variable {rt} {a : CrontabArgs} {c : CrontabSchedule}

theorem crontabOf_of_eq_ok (h : crontabSchedule rt a = .ok c) : CrontabOf rt a c := by
  obtain ⟨minuteExpr, hminute, h⟩ := bind_eq_ok h
  obtain ⟨hourExpr, hhour, h⟩ := bind_eq_ok h
  obtain ⟨domExpr, hdom, h⟩ := bind_eq_ok h
  obtain ⟨monthExpr, hmonth, h⟩ := bind_eq_ok h
  obtain ⟨dowExpr, hdow, h⟩ := bind_eq_ok h
  obtain ⟨timezone, htimezone, h⟩ := bind_eq_ok h
  by_cases hknown : rt.zoneInfo timezone = true
  · rw [if_pos hknown] at h
    obtain ⟨minutes, hminutes, h⟩ := bind_eq_ok h
    obtain ⟨hours, hhours, h⟩ := bind_eq_ok h
    obtain ⟨doms, hdoms, h⟩ := bind_eq_ok h
    obtain ⟨months, hmonths, h⟩ := bind_eq_ok h
    obtain ⟨dows, hdows, h⟩ := bind_eq_ok h
    cases h
    exact ⟨mapError_eq_ok hminute, mapError_eq_ok hhour, mapError_eq_ok hdom, mapError_eq_ok hmonth,
      mapError_eq_ok hdow, mapError_eq_ok htimezone, hknown, mapError_eq_ok hminutes, mapError_eq_ok hhours,
      mapError_eq_ok hdoms, mapError_eq_ok hmonths, dows, mapError_eq_ok hdows, rfl⟩
  · rw [if_neg hknown] at h
    cases h

theorem CrontabOf.eq_ok (h : CrontabOf rt a c) : crontabSchedule rt a = .ok c := by
  obtain ⟨values, hvalues, hdows⟩ := h.dows
  simp only [crontabSchedule, h.minuteExpr, h.hourExpr, h.domExpr, h.monthExpr, h.dowExpr, h.timezone,
    Except.mapError, bind, Except.bind, h.known, h.minutes, h.hours, h.doms, h.months, hvalues, hdows,
    ↓reduceIte]

/-- The arguments that the description of a crontab holds. -/
def CrontabSchedule.args (c : CrontabSchedule) : CrontabArgs :=
  ⟨.str c.minuteExpr, .str c.hourExpr, .str c.domExpr, .str c.monthExpr, .str c.dowExpr, .str c.timezone⟩

/-- **A crontab is made again of its own texts.** -/
theorem CrontabOf.canonical (h : CrontabOf rt a c) : CrontabOf rt c.args c := by
  obtain ⟨values, hvalues, hdows⟩ := h.dows
  obtain ⟨hminute, hminutes⟩ := parse_canonical (f := .minute) h.minuteExpr h.minutes
  obtain ⟨hhour, hhours⟩ := parse_canonical (f := .hour) h.hourExpr h.hours
  obtain ⟨hdom, hdoms⟩ := parse_canonical (f := .dayOfMonth) h.domExpr h.doms
  obtain ⟨hmonth, hmonths⟩ := parse_canonical (f := .month) h.monthExpr h.months
  obtain ⟨hdow, hvalues'⟩ := parse_canonical (f := .dayOfWeek) h.dowExpr hvalues
  exact ⟨hminute, hhour, hdom, hmonth, hdow, rfl, h.known, hminutes, hhours, hdoms, hmonths, values,
    hvalues', hdows⟩

theorem chars_map_char (s : List Char) : chars (s.map .char) = s := by
  rw [chars, List.map_map]
  exact List.map_id s

theorem fieldArg_textValue (s : List Char) : fieldArg rt (textValue s) = .str s := by
  rw [textValue, fieldArg, chars_map_char]

@[simp] theorem specGet_fieldsDict (vs : List (String × PyValue)) (k : String) (dflt : PyValue) :
    specGet (fieldsDict vs) k dflt = ((vs.find? fun v => v.1 = k).map Prod.snd).getD dflt := by
  rw [specGet, getItem_fieldsDict]

/-- The description of a crontab is read as its own texts. -/
theorem scheduleFromDict_crontab (c : CrontabSchedule) :
    scheduleFromDict rt (Schedule.crontab c).toSpec = (crontabSchedule rt c.args).map .crontab := by
  simp [scheduleFromDict, Schedule.toSpec, fieldArg_textValue, CrontabSchedule.args, bind, Except.bind,
    Except.map]

/-- **A schedule is read back from its description.** -/
theorem scheduleFromDict_toSpec {s : Schedule} (h : Built rt s)
    (hshort : ∀ n, s = .interval n → n ≤ 2 ^ 51) : scheduleFromDict rt s.toSpec = .ok s := by
  cases h with
  | @interval every s h =>
    obtain ⟨x, -, h⟩ := bind_eq_ok h
    obtain ⟨n, -, h⟩ := bind_eq_ok h
    split at h
    · next hpos =>
      cases h
      exact scheduleFromDict_interval rt hpos (hshort n rfl)
    · cases h
  | crontab h =>
    rw [scheduleFromDict_crontab, (crontabOf_of_eq_ok h).canonical.eq_ok]
    rfl

/-! ### Entries -/

theorem built_of_scheduleFromDict {spec : PyValue} {s : Schedule} (h : scheduleFromDict rt spec = .ok s) :
    Built rt s := by
  rw [scheduleFromDict] at h
  split at h
  · split at h
    · obtain ⟨x, -, h⟩ := bind_eq_ok h
      exact .interval h
    · obtain ⟨v, -, h⟩ := bind_eq_ok h
      obtain ⟨x, -, h⟩ := bind_eq_ok h
      exact .interval h
  · split at h
    · obtain ⟨c, hc, h⟩ := bind_eq_ok h
      cases h
      exact .crontab hc
    · cases h

theorem built_of_scheduleFromSpec {arg : ScheduleArg rt} {s : Schedule}
    (h : scheduleFromSpec rt arg = .ok s) : Built rt s := by
  cases arg with
  | schedule s' hs =>
    cases h
    exact hs
  | timedelta micros => exact .interval h
  | value v =>
    cases v with
    | int n =>
      obtain ⟨x, -, h⟩ := bind_eq_ok h
      exact .interval h
    | float x => exact .interval h
    | dict entries => exact built_of_scheduleFromDict h
    | none | bool | str | list | other => cases h

theorem toFloat_nonneg {v : PyValue} {x : F64} (hneg : isNegative v = .ok false) (h : toFloat rt v = .ok x) :
    isNegative (.float x) = .ok false := by
  cases v with
  | int n =>
    have hn : 0 ≤ n := by simpa [isNegative] using hneg
    rw [toFloat, PyNum.toFloat] at h
    have h := mapError_eq_ok h
    split at h
    · cases h
      cases hx : F64.ofInt n with
      | finite q =>
        have hq := F64.nonneg_of_ofRat (by exact_mod_cast hn) hx
        simp [isNegative, hq]
      | inf neg => simp_all [F64.isFinite]
      | nan => rfl
    · cases h
  | bool b =>
    cases h
    cases b <;> simp [isNegative]
  | float y =>
    cases h
    exact hneg
  | none | str | list | dict | other => cases hneg

/-- What the constructor has made. -/
structure EntryOk (rt : Runtime) (e : ScheduleEntry) : Prop where
  name : e.name ≠ []
  task : e.task ≠ []
  schedule : Built rt e.schedule
  lateness : ∀ x, e.maxLateness = some x → isNegative (.float x) = .ok false

theorem nonEmptyText_eq_some {v : PyValue} {s : PyStr} (h : nonEmptyText v = some s) : s ≠ [] := by
  unfold nonEmptyText at h
  split at h
  · cases h
    exact List.cons_ne_nil _ _
  · cases h

theorem nonEmptyText_str {s : PyStr} (hs : s ≠ []) : nonEmptyText (.str s) = some s := by
  cases s with
  | nil => exact absurd rfl hs
  | cons c cs => rfl

theorem elim_eq_ok {ε α : Type} {x : Option α} {e : ε} {a : α}
    (h : x.elim (Except.error e) Except.ok = .ok a) :
    x = some a := by
  cases x with
  | none => cases h
  | some b =>
    cases h
    rfl

theorem toOption_eq_some {ε α : Type} {x : Except ε α} {a : α} (h : x.toOption = some a) : x = .ok a := by
  cases x with
  | error e => cases h
  | ok b =>
    cases h
    rfl

theorem entryOk_of_eq_ok {a : EntryArgs rt} {e : ScheduleEntry} (h : scheduleEntry rt a = .ok e) :
    EntryOk rt e := by
  obtain ⟨name, hname, h⟩ := bind_eq_ok h
  obtain ⟨task, htask, h⟩ := bind_eq_ok h
  obtain ⟨onMissed, -, h⟩ := bind_eq_ok h
  obtain ⟨negative, hnegative, h⟩ := bind_eq_ok h
  cases negative with
  | true => cases h
  | false =>
    obtain ⟨schedule, hschedule, h⟩ := bind_eq_ok h
    obtain ⟨args, -, h⟩ := bind_eq_ok h
    obtain ⟨kwargs, -, h⟩ := bind_eq_ok h
    obtain ⟨expires, -, h⟩ := bind_eq_ok h
    obtain ⟨maxLateness, hlateness, h⟩ := bind_eq_ok h
    cases h
    refine ⟨nonEmptyText_eq_some (elim_eq_ok hname), nonEmptyText_eq_some (elim_eq_ok htask),
      built_of_scheduleFromSpec hschedule, fun x hx => ?_⟩
    obtain rfl : maxLateness = some x := hx
    unfold optFloat at hlateness
    split at hlateness
    · cases hlateness
    · next v hv =>
      obtain ⟨y, hy, heq⟩ := map_eq_ok hlateness
      cases heq
      refine toFloat_nonneg ?_ hy
      unfold isLatenessNegative at hnegative
      split at hnegative
      · exact absurd ‹_› hv
      · exact hnegative

theorem optFloat_optValue (x : Option F64) : optFloat rt (optValue x) = .ok x := by
  cases x with
  | none => rfl
  | some x => rfl

theorem orDefault_list (l : List PyValue) : orDefault (.list l) (.list []) = .list l := by
  cases l <;> rfl

theorem orDefault_dict (l : List (PyKey × PyValue)) : orDefault (.dict l) (.dict []) = .dict l := by
  cases l <;> rfl

@[simp] theorem truthy_bool (b : Bool) : truthy (.bool b) = b := by
  cases b <;> rfl

theorem policy_policyText (p : OnMissed) : policy (lit (policyText p)) = some p := by
  cases p <;> simp [policy, policyText]

theorem isLatenessNegative_optValue {e : ScheduleEntry} (h : EntryOk rt e) :
    isLatenessNegative (optValue e.maxLateness) = .ok false := by
  cases hx : e.maxLateness with
  | none => rfl
  | some x => exact h.lateness x hx

/-- **An entry is made again of its dict.** -/
theorem fromDict_toDict {e : ScheduleEntry} (h : EntryOk rt e)
    (hshort : ∀ n, e.schedule = .interval n → n ≤ 2 ^ 51) : fromDict rt e.toDict = .ok e := by
  have hspec : ∃ entries, e.schedule.toSpec = .dict entries := by
    cases e.schedule with
    | interval n => exact ⟨_, rfl⟩
    | crontab c => exact ⟨_, rfl⟩
  obtain ⟨entries, hentries⟩ := hspec
  have hschedule : scheduleFromSpec rt (.value e.schedule.toSpec) = .ok e.schedule := by
    have hread := scheduleFromDict_toSpec h.schedule hshort
    rw [hentries] at hread ⊢
    exact hread
  simp [fromDict, docItem, getItem_fieldsDict, ScheduleEntry.toDict, ScheduleEntry.dictFields,
    scheduleEntry, nonEmptyText_str h.name, nonEmptyText_str h.task, policy_policyText,
    isLatenessNegative_optValue h, hschedule, orDefault_list, orDefault_dict, listOf, dictOf,
    optFloat_optValue, bind, Except.bind]

/-- What can be stored: Python holds the values of the entry, its integers can be read, and an interval is
at most about 71,000 years. -/
structure Storable (e : ScheduleEntry) : Prop where
  genuine : Genuine e.toDict
  renders : renders e.toDict = true
  short : ∀ n, e.schedule = .interval n → n ≤ 2 ^ 51

theorem decode_stored (hdecode : DecodesTrees rt.decode) {floatToken : ℚ → JsonNumber}
    (hfloat : PrintsDoubles floatToken) {e : ScheduleEntry} (hstorable : Storable e) {raw : List UInt8}
    (h : stored floatToken e = .ok raw) : rt.decode raw = .ok e.toDict := by
  obtain ⟨t, ht, rfl⟩ := map_eq_ok h
  obtain ⟨hvalid, htext⟩ := encode_eq_ok ht
  obtain ⟨htyped, -⟩ := (judged_validate e.toDict 1).ok_iff.1 hvalid
  have hnesting := nesting_le_of_validate hvalid htext
  refine hdecode _ t _ (spells_chars t) (treeValue_toText hfloat hstorable.genuine htyped htext)
    hstorable.genuine hstorable.renders ?_
  simp only [MAX_DEPTH, MAX_NESTING] at hnesting ⊢
  omega

/-- **An entry is loaded as it was stored.** -/
theorem loadRow_stored (hdecode : DecodesTrees rt.decode) {floatToken : ℚ → JsonNumber}
    (hfloat : PrintsDoubles floatToken) {e : ScheduleEntry} (hok : EntryOk rt e) (hstorable : Storable e)
    {raw : List UInt8} (h : stored floatToken e = .ok raw) (name : PyStr) :
    loadRow rt name raw = .ok e := by
  have hname : (getItem e.toDict "name").isSome = true := by
    rw [ScheduleEntry.toDict, getItem_fieldsDict]
    rfl
  have hentries : e.toDict = .dict (e.dictFields.map fun f => (.str (PyStr.ofString f.1), f.2)) := rfl
  rw [loadRow, decode_stored hdecode hfloat hstorable h]
  simp only [hentries] at hname ⊢
  rw [if_pos hname]
  exact fromDict_toDict hok hstorable.short

/-! ### What reconciliation asks for -/

/-- The fields of an entry, with what a `PyValue` does not tell: whether a tuple stands inside its
arguments. JSON makes it a list, and the two are not equal. -/
structure Declared where
  fields : Fields
  innerTuple : Bool

/-- An entry of the reconciliation. -/
def ofEntry (e : Reconcile.Entry Declared) : ScheduleEntry :=
  { e.fields.fields with name := PyStr.ofString e.name, source := lit e.source }

/-- A source as a text; one that is no text is `""`. -/
def sourceText : PyValue → String
  | .str s => String.ofList (chars s)
  | _ => ""

/-- A loaded entry. -/
def toEntry (e : ScheduleEntry) : Reconcile.Entry Declared :=
  ⟨String.ofList (chars e.name), sourceText e.source, ⟨e.toFields, false⟩⟩

theorem ofList_chars_ofString (s : String) : String.ofList (chars (PyStr.ofString s)) = s := by
  rw [PyStr.ofString, chars_map_char, String.ofList_toList]

theorem toEntry_ofEntry (e : Reconcile.Entry Declared) :
    toEntry (ofEntry e) = { e with fields := ⟨e.fields.fields, false⟩ } := by
  simp [toEntry, ofEntry, sourceText, lit, ofList_chars_ofString]

/-- The source that a stored text names, whether or not an entry can be made of it. -/
def sourceOf (rt : Runtime) (raw : List UInt8) : Option String :=
  match rt.decode raw with
  | .ok (.dict entries) => some (sourceText (specGet (.dict entries) "source" (lit "redis")))
  | _ => none

theorem source_of_fromDict {doc : PyValue} {e : ScheduleEntry} (h : fromDict rt doc = .ok e) :
    e.source = specGet doc "source" (lit "redis") := by
  obtain ⟨name, -, h⟩ := bind_eq_ok h
  obtain ⟨task, -, h⟩ := bind_eq_ok h
  obtain ⟨schedule, -, h⟩ := bind_eq_ok h
  obtain ⟨_, -, h⟩ := bind_eq_ok h
  obtain ⟨_, -, h⟩ := bind_eq_ok h
  obtain ⟨_, -, h⟩ := bind_eq_ok h
  obtain ⟨negative, -, h⟩ := bind_eq_ok h
  cases negative with
  | true => cases h
  | false =>
    obtain ⟨_, -, h⟩ := bind_eq_ok h
    obtain ⟨_, -, h⟩ := bind_eq_ok h
    obtain ⟨_, -, h⟩ := bind_eq_ok h
    obtain ⟨_, -, h⟩ := bind_eq_ok h
    obtain ⟨_, -, h⟩ := bind_eq_ok h
    cases h
    rfl

theorem sourceOf_of_loadRow {name : PyStr} {raw : List UInt8} {e : ScheduleEntry}
    (h : loadRow rt name raw = .ok e) : sourceOf rt raw = some (sourceText e.source) := by
  unfold loadRow at h
  unfold sourceOf
  cases hraw : rt.decode raw with
  | error message =>
    rw [hraw] at h
    cases h
  | ok doc =>
    rw [hraw] at h
    cases doc with
    | dict entries =>
      rw [source_of_fromDict h]
      split_ifs with hname
      · rfl
      · have hother : PyStr.ofString "name" ≠ PyStr.ofString "source" := by decide
        simp [specGet, getItem, List.find?_append, hother]
    | none | bool | int | float | str | list | other => cases h

/-- The hash of stored entries, as reconciliation reads and writes it. -/
def format (rt : Runtime) (floatToken : ℚ → JsonNumber) (same : Fields → Fields → Bool) :
    Reconcile.Format Declared (List UInt8) where
  read n raw := (loadRow rt (PyStr.ofString n) raw).toOption.map toEntry
  source := sourceOf rt
  source_of_read := by
    intro n raw e h
    obtain ⟨e', he', rfl⟩ := Option.map_eq_some_iff.1 h
    exact sourceOf_of_loadRow (toOption_eq_some he')
  write e := (stored floatToken (ofEntry e)).toOption
  same a b := a.innerTuple == b.innerTuple && same a.fields b.fields

/-- A runtime that knows one time zone. -/
def berlin : Runtime where
  decode := decodeTree
  str v := match v with
    | .int n => PyStr.ofString (toString n)
    | _ => []
  repr _ := []
  floatOfStr _ := none
  zoneInfo tz := tz = PyStr.ofString "Europe/Berlin"

/-- Every half hour of the working days, skipped when it is more than 2.5 seconds late. -/
def reportArgs : EntryArgs berlin where
  name := lit "report"
  task := lit "app.report"
  schedule := .value (fieldsDict [("type", lit "crontab"), ("minute", .list [.int 0, .int 30]),
    ("day_of_week", lit "MON-fri"), ("timezone", lit "Europe/Berlin")])
  args := .list [.int 7]
  kwargs := .none
  queue := .none
  expires := .none
  idempotent := .bool false
  enabled := .bool true
  onMissed := lit "skip"
  maxLateness := .float (.finite (5 / 2))
  source := lit "code"

def reportCrontab : CrontabSchedule where
  minuteExpr := "0,30".toList
  hourExpr := ['*']
  domExpr := ['*']
  monthExpr := ['*']
  dowExpr := "mon-fri".toList
  timezone := PyStr.ofString "Europe/Berlin"
  minutes := {0, 30}
  hours := Finset.range 24
  doms := (List.range' 1 31).toFinset
  months := (List.range' 1 12).toFinset
  dows := (List.range' 1 5).toFinset

def report : ScheduleEntry where
  name := PyStr.ofString "report"
  task := PyStr.ofString "app.report"
  schedule := .crontab reportCrontab
  args := [.int 7]
  kwargs := []
  queue := .none
  expires := none
  idempotent := false
  enabled := true
  onMissed := .skip
  maxLateness := some (.finite (5 / 2))
  source := lit "code"

end Cauli.Definition
