import Cauli.Lib.Binary64
import Mathlib.Data.Int.Init
import Mathlib.Algebra.Order.Ring.Int
import Mathlib.Tactic.Linarith

/-!
# Schedules (`py/cauli/schedules.py`)

A schedule is a function from an instant to the first slot after it, in epoch milliseconds. A raised
`ValueError` is `none`.

* `Schedule`: an interval, or a crontab;
* `Schedule.nextAfter`, `Schedule.advancePastWithMissed` (the closed form of an interval, and the loop
  with its step bound for a crontab), `Schedule.advancePast`;
* `ScheduleEntry`: a schedule with what beat needs to fire it, `ScheduleEntry.maxLatenessMs`, which
  may raise, and `ScheduleEntry.rev`, the fingerprint of everything that affects when it fires;
* `MaxLateness.isSome_ms_iff`: for which `max_lateness` it raises nothing.

The calendar of a crontab is a parameter of the model: `CrontabSchedule` has its five fields and its
time zone as texts, which is what the fingerprint reads, and its `next_after` as a function with the
two properties beat relies on.

* `lt_of_nextAfter`: slots are strictly later;
* `lt_of_advancePast`: a fast forward ends strictly after the slot and after `now`;
* `nextAfter_isSome_of_advancePast`: an instant that a fast forward passes has a next slot.
-/

namespace Cauli

/-- `_MAX_ADVANCE_STEPS`: about 7 days of one minute slots. -/
def MAX_ADVANCE_STEPS : ℕ := 10_000

/-- A crontab: the canonical text of its fields, and its `next_after`. The day scan covers eight years
from its argument, so an instant before a slot that was found has a slot too. -/
structure CrontabSchedule where
  minuteExpr : String
  hourExpr : String
  domExpr : String
  monthExpr : String
  dowExpr : String
  timezone : String
  nextAfter : ℤ → Option ℤ
  later : ∀ {x z}, nextAfter x = some z → x < z
  found : ∀ {x y z}, nextAfter x = some z → x ≤ y → y < z → (nextAfter y).isSome

/-- `* * * * *` in UTC. -/
def everyMinute : CrontabSchedule where
  minuteExpr := "*"
  hourExpr := "*"
  domExpr := "*"
  monthExpr := "*"
  dowExpr := "*"
  timezone := "UTC"
  nextAfter x := some ((x / 60_000 + 1) * 60_000)
  later h := by
    cases h
    exact Int.lt_ediv_add_one_mul_self _ (by decide)
  found _ _ _ := rfl

/-- A schedule. -/
inductive Schedule
  | interval (everyMs : ℤ) (pos : 0 < everyMs)
  | crontab (c : CrontabSchedule)

/-- `to_spec`: the JSON description of a schedule. -/
inductive ScheduleSpec
  | interval (everyMs : ℤ)
  | crontab (minute hour dayOfMonth month dayOfWeek timezone : String)
  deriving DecidableEq

/-- The loop of `advance_past_with_missed`, with the steps that are left of its bound. -/
def fastForward (nextAfter : ℤ → Option ℤ) (now : ℤ) : ℕ → ℤ → Option (ℤ × Option ℕ)
  | 0, nxt =>
    if nxt ≤ now then (nextAfter now).map fun z => (z, none) else some (nxt, some MAX_ADVANCE_STEPS)
  | left + 1, nxt =>
    if nxt ≤ now then (nextAfter nxt).bind (fastForward nextAfter now left)
    else some (nxt, some (MAX_ADVANCE_STEPS - (left + 1)))

namespace Schedule

/-- The first slot strictly after an instant. -/
def nextAfter : Schedule → ℤ → Option ℤ
  | interval everyMs _, slot => some (slot + everyMs)
  | crontab c, slot => c.nextAfter slot

/-- The first slot strictly after both `slot` and `now`, and how many slots were swallowed; `none` for
the count when the step bound was hit. -/
def advancePastWithMissed : Schedule → ℤ → ℤ → Option (ℤ × Option ℕ)
  | interval everyMs _, slot, now =>
    if now < slot then some (slot + everyMs, some 0)
    else
      let steps := (now - slot) / everyMs + 1
      some (slot + steps * everyMs, some (steps - 1).toNat)
  | crontab c, slot, now => (c.nextAfter slot).bind (fastForward c.nextAfter now MAX_ADVANCE_STEPS)

/-- The slot of a fast forward. -/
def advancePast (s : Schedule) (slot now : ℤ) : Option ℤ :=
  (s.advancePastWithMissed slot now).map (·.1)

/-- The description that the fingerprint reads. -/
def toSpec : Schedule → ScheduleSpec
  | interval everyMs _ => .interval everyMs
  | crontab c =>
    .crontab c.minuteExpr c.hourExpr c.domExpr c.monthExpr c.dowExpr c.timezone

end Schedule

/-- What happens to a slot that is found too late. -/
inductive OnMissed
  | fireOnce
  | skip
  deriving DecidableEq

/-- A `max_lateness`: a double of seconds that is not below zero. A stored one is finite, as JSON has no
other numbers. -/
structure MaxLateness where
  seconds : F64
  nonneg : seconds.isNegative = false

/-- `int(max_lateness * 1000)`; `none` for the `OverflowError` of an infinite product and the `ValueError`
of NaN. -/
def MaxLateness.ms (m : MaxLateness) : Option ℕ :=
  match m.seconds with
  | .finite q => (F64.ofRat (q * 1000)).floor?.map Int.toNat
  | .inf _ | .nan => none

/-- `int(max_lateness * 1000)` of a finite value raises from the last midpoint before `2 ^ 1024` on. -/
theorem MaxLateness.isSome_ms_iff (m : MaxLateness) :
    m.ms.isSome ↔ ∃ q, m.seconds = .finite q ∧ q * 1000 < 2 ^ (1024 : ℤ) - 2 ^ (970 : ℤ) := by
  obtain ⟨seconds, hnonneg⟩ := m
  cases seconds with
  | finite q =>
    have hq : 0 ≤ q := not_lt.1 (of_decide_eq_false hnonneg)
    simp only [ms, Option.isSome_map, F64.isSome_floor?_ofRat_iff (mul_nonneg hq (by norm_num : (0 : ℚ) ≤ 1000)),
      F64.finite.injEq, exists_eq_left']
  | inf neg => simp [ms]
  | nan => simp [ms]

/-- A schedule entry. -/
structure ScheduleEntry where
  name : String
  task : String
  schedule : Schedule
  enabled : Bool := true
  onMissed : OnMissed := .fireOnce
  maxLateness : Option MaxLateness := none

/-- `max_lateness_ms`: `None` or a number, or `none` when it raises. -/
def ScheduleEntry.maxLatenessMs (e : ScheduleEntry) : Option (Option ℕ) :=
  match e.maxLateness with
  | none => some none
  | some m => m.ms.map some

/-- The fingerprint of an entry: a hash of its schedule and its `enabled` flag. -/
def ScheduleEntry.rev (hash : ScheduleSpec → Bool → String) (e : ScheduleEntry) : String :=
  hash e.schedule.toSpec e.enabled

/-! ### Slots move forward -/

theorem lt_of_nextAfter {s : Schedule} {x z : ℤ} (h : s.nextAfter x = some z) : x < z := by
  cases s with
  | interval everyMs pos =>
    cases h
    show x < x + everyMs
    omega
  | crontab c => exact c.later h

/-- The loop, entered with the slot after `prev`. -/
theorem fastForward_spec (c : CrontabSchedule) {now prev nxt : ℤ} {left : ℕ} {r : ℤ × Option ℕ}
    (hnxt : c.nextAfter prev = some nxt) (hle : prev ≤ now)
    (h : fastForward c.nextAfter now left nxt = some r) :
    nxt ≤ r.1 ∧ now < r.1 ∧ (c.nextAfter now).isSome := by
  induction left generalizing prev nxt with
  | zero =>
    unfold fastForward at h
    split_ifs at h with hnow
    · obtain ⟨z, hz, rfl⟩ := Option.map_eq_some_iff.1 h
      have hlt := c.later hz
      exact ⟨by show nxt ≤ z; omega, hlt, by simp [hz]⟩
    · cases h
      exact ⟨le_rfl, not_le.1 hnow, c.found hnxt hle (not_le.1 hnow)⟩
  | succ left ih =>
    unfold fastForward at h
    split_ifs at h with hnow
    · obtain ⟨z, hz, h⟩ := Option.bind_eq_some_iff.1 h
      obtain ⟨hzr, hr, hsome⟩ := ih hz hnow h
      have hlt := c.later hz
      exact ⟨by omega, hr, hsome⟩
    · cases h
      exact ⟨le_rfl, not_le.1 hnow, c.found hnxt hle (not_le.1 hnow)⟩

/-- A fast forward from a slot after `now` is the next slot. -/
theorem fastForward_of_lt (f : ℤ → Option ℤ) {now nxt : ℤ} {left : ℕ} {r : ℤ × Option ℕ}
    (hlt : now < nxt) (h : fastForward f now left nxt = some r) : r.1 = nxt := by
  cases left with
  | zero =>
    rw [fastForward, if_neg (not_le.2 hlt)] at h
    cases h
    rfl
  | succ left =>
    rw [fastForward, if_neg (not_le.2 hlt)] at h
    cases h
    rfl

/-- **A fast forward ends strictly after the slot and after `now`.** -/
theorem lt_of_advancePast {s : Schedule} {slot now : ℤ} {r : ℤ × Option ℕ}
    (h : s.advancePastWithMissed slot now = some r) : slot < r.1 ∧ now < r.1 := by
  cases s with
  | interval everyMs pos =>
    simp only [Schedule.advancePastWithMissed] at h
    split_ifs at h with hnow
    · cases h
      constructor <;> show _ < slot + everyMs <;> omega
    · cases h
      have hdiv := Int.lt_ediv_add_one_mul_self (now - slot) pos
      constructor <;> show _ < slot + ((now - slot) / everyMs + 1) * everyMs <;> omega
  | crontab c =>
    obtain ⟨nxt, hnxt, h⟩ := Option.bind_eq_some_iff.1 h
    have hlt := c.later hnxt
    by_cases hle : slot ≤ now
    · obtain ⟨hle', hnow, -⟩ := fastForward_spec c hnxt hle h
      exact ⟨by omega, hnow⟩
    · have hr := fastForward_of_lt _ (by omega) h
      constructor <;> omega

/-- **An instant that a fast forward passes has a next slot.** -/
theorem nextAfter_isSome_of_advancePast {s : Schedule} {slot now : ℤ} {r : ℤ × Option ℕ}
    (hle : slot ≤ now) (h : s.advancePastWithMissed slot now = some r) :
    (s.nextAfter now).isSome := by
  cases s with
  | interval everyMs pos => rfl
  | crontab c =>
    obtain ⟨nxt, hnxt, h⟩ := Option.bind_eq_some_iff.1 h
    exact (fastForward_spec c hnxt hle h).2.2

end Cauli
