import Mathlib.Algebra.Order.Ring.Int
import Mathlib.Data.Int.LeastGreatest

/-!
# The Gregorian calendar

Dates are numbered from 1970-01-01, which is date `0`. The supported dates are those of the years 1
to 9999, as in Python's `datetime`.

* `Calendar.civil`: the year, month and day of a date;
* `Calendar.weekday`: its day of the week, with Monday as `0`;
* `Calendar.yearStart`, `Calendar.civil_yearStart`: the first date of a year, and the dates of a year
  from there;
* `Calendar.exists_same_day`: every day of the calendar comes again within eight years, also the 29th
  of February where a century is no leap year;
* `Calendar.exists_weekday`: so does every day of the week in every month.
-/

namespace Calendar

/-- 0001-01-01. -/
def MIN_DATE : ℤ := -719162

/-- 9999-12-31. -/
def MAX_DATE : ℤ := 2932896

/-- A year, a month and a day. -/
structure CivilDate where
  year : ℤ
  month : ℕ
  day : ℕ
  deriving DecidableEq

/-- The lengths of the months. -/
def monthLengths (leap : Bool) : List ℕ :=
  [31, if leap then 29 else 28, 31, 30, 31, 30, 31, 31, 30, 31, 30, 31]

/-- The month and the day in it of a day of the year, which is counted from `0`. -/
def monthDay : List ℕ → ℕ → ℕ → ℕ × ℕ
  | [], month, n => (month, n + 1)
  | length :: lengths, month, n =>
    if n < length then (month, n + 1) else monthDay lengths (month + 1) (n - length)

/-- The date with a number, by cycles of 400, 100, 4 years and one year. -/
def civil (d : ℤ) : CivilDate :=
  let n := d - MIN_DATE
  let n400 := n / 146097
  let n := (n % 146097).toNat
  let n100 := n / 36524
  let n := n % 36524
  let n4 := n / 1461
  let n := n % 1461
  let n1 := n / 365
  let n := n % 365
  let year := n400 * 400 + 1 + (n100 * 100 + n4 * 4 + n1 : ℕ)
  -- the last day of a cycle of 4 or of 400 years
  if n1 = 4 ∨ n100 = 4 then ⟨year - 1, 12, 31⟩
  else
    let leap := n1 = 3 ∧ (n4 ≠ 24 ∨ n100 = 3)
    let md := monthDay (monthLengths (decide leap)) 1 n
    ⟨year, md.1, md.2⟩

example : civil 19782 = ⟨2024, 2, 29⟩ := by decide

example : civil MIN_DATE = ⟨1, 1, 1⟩ ∧ civil MAX_DATE = ⟨9999, 12, 31⟩ := by decide

theorem month_of_monthDay {lengths : List ℕ} {month n : ℕ} (h : n < lengths.sum) :
    month ≤ (monthDay lengths month n).1 ∧
      (monthDay lengths month n).1 < month + lengths.length := by
  induction lengths generalizing month n with
  | nil => cases h
  | cons length lengths ih =>
    rw [List.sum_cons] at h
    rw [monthDay, List.length_cons]
    split_ifs with hn
    · show month ≤ month ∧ month < month + (lengths.length + 1)
      omega
    · have hrest := @ih (month + 1) (n - length) (by omega)
      omega

theorem civil_month (d : ℤ) : 1 ≤ (civil d).month ∧ (civil d).month ≤ 12 := by
  unfold civil
  dsimp only
  split_ifs with hlast
  · show 1 ≤ 12 ∧ 12 ≤ 12
    decide
  · -- a day of the year is before day 365
    generalize ((d - MIN_DATE) % 146097).toNat % 36524 % 1461 = n
    have hyear : ∀ leap, n % 365 < (monthLengths leap).sum := by
      intro leap
      have : (monthLengths leap).sum = if leap then 366 else 365 := by cases leap <;> rfl
      split_ifs at this <;> omega
    have hmonth := fun leap => @month_of_monthDay (monthLengths leap) 1 (n % 365) (hyear leap)
    exact ⟨(hmonth _).1, Nat.le_of_lt_succ (hmonth _).2⟩

/-- The day of the week. 1970-01-01 is a Thursday. -/
def weekday (d : ℤ) : ℕ := ((d + 3) % 7).toNat

theorem weekday_eq_iff {d d' : ℤ} : weekday d = weekday d' ↔ d % 7 = d' % 7 := by
  unfold weekday
  omega

/-! ### Years -/

/-- A leap year. -/
def isLeap (y : ℤ) : Bool := decide (y % 4 = 0 ∧ (y % 100 ≠ 0 ∨ y % 400 = 0))

/-- The first date of a year. -/
def yearStart (y : ℤ) : ℤ := MIN_DATE + 365 * (y - 1) + (y - 1) / 4 - (y - 1) / 100 + (y - 1) / 400

theorem yearStart_mono {y y' : ℤ} (h : y ≤ y') : yearStart y ≤ yearStart y' := by
  unfold yearStart
  omega

/-- The years in cycles of 400, 100 and 4 years. -/
theorem exists_cycles (y : ℤ) :
    ∃ (a : ℤ) (b c e : ℕ), b < 4 ∧ c < 25 ∧ e < 4 ∧ y - 1 = 400 * a + 100 * b + 4 * c + e :=
  ⟨(y - 1) / 400, ((y - 1) % 400 / 100).toNat, ((y - 1) % 100 / 4).toNat, ((y - 1) % 4).toNat,
    by omega, by omega, by omega, by omega⟩

/-- A leap year, by cycles. -/
theorem isLeap_of_cycles {y a : ℤ} {b c e : ℕ} (hb : b < 4) (hc : c < 25) (he : e < 4)
    (hy : y - 1 = 400 * a + 100 * b + 4 * c + e) :
    isLeap y = decide (e = 3 ∧ (c ≠ 24 ∨ b = 3)) := by
  have h4 : y % 4 = 0 ↔ e = 3 := by omega
  have h100 : y % 100 = 0 ↔ c = 24 ∧ e = 3 := by omega
  have h400 : y % 400 = 0 ↔ b = 3 ∧ c = 24 ∧ e = 3 := by omega
  rw [isLeap, decide_eq_decide, ne_eq, h4, h100, h400]
  tauto

/-- **The dates of a year**, from its first one. -/
theorem civil_yearStart (y : ℤ) {j : ℕ} (hj : j < 365) :
    civil (yearStart y + j) =
      ⟨y, (monthDay (monthLengths (isLeap y)) 1 j).1, (monthDay (monthLengths (isLeap y)) 1 j).2⟩ := by
  obtain ⟨a, b, c, e, hb, hc, he, hy⟩ := exists_cycles y
  have hday : yearStart y + j - MIN_DATE =
      146097 * a + (36524 * b + 1461 * c + 365 * e + j : ℕ) := by
    unfold yearStart
    omega
  have hleap := isLeap_of_cycles hb hc he hy
  have h400 : (yearStart y + j - MIN_DATE) / 146097 = a := by omega
  have hrest : ((yearStart y + j - MIN_DATE) % 146097).toNat =
      36524 * b + 1461 * c + 365 * e + j := by omega
  have h100 : (36524 * b + 1461 * c + 365 * e + j) / 36524 = b := by omega
  have hrest100 : (36524 * b + 1461 * c + 365 * e + j) % 36524 = 1461 * c + 365 * e + j := by omega
  have h4 : (1461 * c + 365 * e + j) / 1461 = c := by omega
  have hrest4 : (1461 * c + 365 * e + j) % 1461 = 365 * e + j := by omega
  have h1 : (365 * e + j) / 365 = e := by omega
  have hrest1 : (365 * e + j) % 365 = j := by omega
  unfold civil
  dsimp only
  rw [h400, hrest, h100, hrest100, h4, hrest4, h1, hrest1, if_neg (by omega), hleap]
  congr 1
  push_cast
  omega

/-- Every date is in a year. -/
theorem exists_year (d : ℤ) : ∃ y, yearStart y ≤ d ∧ d < yearStart (y + 1) := by
  have hbounded : ∃ b, ∀ y, yearStart y ≤ d → y ≤ b := by
    refine ⟨d.natAbs + 800000, fun y hy => ?_⟩
    unfold yearStart MIN_DATE at hy
    omega
  have hsome : ∃ y, yearStart y ≤ d := by
    refine ⟨-d.natAbs - 1, ?_⟩
    unfold yearStart MIN_DATE
    omega
  obtain ⟨y, hy, hgreatest⟩ := Int.exists_greatest_of_bdd hbounded hsome
  refine ⟨y, hy, ?_⟩
  by_contra hnext
  have := hgreatest (y + 1) (not_lt.1 hnext)
  omega

/-! ### Days that come again -/

/-- A day of the year is a day of a common year, or the 29th of February. -/
theorem monthDay_eq_or (leap : Bool) {n : ℕ} (h : n < 365) :
    (∃ j < 365, monthDay (monthLengths leap) 1 n = monthDay (monthLengths false) 1 j) ∨
      monthDay (monthLengths leap) 1 n = (2, 29) := by
  have hleap : ∀ n < 365, n ≠ 59 → monthDay (monthLengths true) 1 n =
      monthDay (monthLengths false) 1 (if n < 59 then n else n - 1) := by
    decide +kernel
  cases leap with
  | false => exact .inl ⟨n, h, rfl⟩
  | true =>
    by_cases hn : n = 59
    · subst hn
      exact .inr rfl
    · refine .inl ⟨_, ?_, hleap n h hn⟩
      split_ifs <;> omega

/-- The month and day of a date: those of a day of a common year, or the 29th of February. -/
theorem civil_eq_or (d : ℤ) :
    (∃ j < 365, ((civil d).month, (civil d).day) = monthDay (monthLengths false) 1 j) ∨
      ((civil d).month, (civil d).day) = (2, 29) := by
  unfold civil
  dsimp only
  split_ifs with hlast
  · exact .inl ⟨364, by decide, rfl⟩
  · exact monthDay_eq_or _ (Nat.mod_lt _ (by decide))

/-- A common year among the two that follow. -/
theorem exists_common_year (y : ℤ) : isLeap (y + 1) = false ∨ isLeap (y + 2) = false := by
  simp only [isLeap, decide_eq_false_iff_not]
  omega

/-- A leap year among the two next fourth years. -/
theorem exists_leap_year (i : ℤ) : isLeap (4 * i + 4) = true ∨ isLeap (4 * i + 8) = true := by
  simp only [isLeap, decide_eq_true_eq]
  omega

/-- The next common year starts within two years, and ends within three. -/
theorem exists_common_yearStart (d : ℤ) :
    ∃ y, isLeap y = false ∧ d < yearStart y ∧ yearStart y + 365 ≤ d + 1097 := by
  obtain ⟨y, hy, hnext⟩ := exists_year d
  rcases exists_common_year y with hcommon | hcommon
  · refine ⟨y + 1, hcommon, hnext, ?_⟩
    unfold yearStart at *
    omega
  · refine ⟨y + 2, hcommon, hnext.trans_le (yearStart_mono (by omega)), ?_⟩
    unfold yearStart at *
    omega

/-- The next 29th of February is within eight years and two days. -/
theorem exists_february29 (d : ℤ) :
    ∃ d', d < d' ∧ d' ≤ d + 2922 ∧ ((civil d').month, (civil d').day) = (2, 29) := by
  obtain ⟨y, hy, hnext⟩ := exists_year (d - 59)
  obtain ⟨i, hi⟩ : ∃ i, i = y / 4 := ⟨_, rfl⟩
  have hfirst : yearStart (4 * i) ≤ yearStart y := yearStart_mono (by omega)
  have hafter : yearStart (y + 1) ≤ yearStart (4 * i + 4) := yearStart_mono (by omega)
  have hday : ∀ y, isLeap y = true →
      ((civil (yearStart y + (59 : ℕ))).month, (civil (yearStart y + (59 : ℕ))).day) = (2, 29) := by
    intro y hleap
    rw [civil_yearStart y (by decide), hleap]
    rfl
  have hlater : yearStart (4 * i + 4) ≤ yearStart (4 * i + 8) := yearStart_mono (by omega)
  have hgap : yearStart (4 * i + 8) ≤ yearStart (4 * i) + 2922 := by
    unfold yearStart
    omega
  rcases exists_leap_year i with hleap | hleap
  · exact ⟨yearStart (4 * i + 4) + (59 : ℕ), by omega, by omega, hday _ hleap⟩
  · exact ⟨yearStart (4 * i + 8) + (59 : ℕ), by omega, by omega, hday _ hleap⟩

/-- **Every day of the calendar comes again** within eight years and two days. -/
theorem exists_same_day (e d : ℤ) :
    ∃ d', d < d' ∧ d' ≤ d + 2922 ∧
      ((civil d').month, (civil d').day) = ((civil e).month, (civil e).day) := by
  rcases civil_eq_or e with ⟨j, hj, he⟩ | he
  · obtain ⟨y, hcommon, hlt, hle⟩ := exists_common_yearStart d
    refine ⟨yearStart y + j, by omega, by omega, ?_⟩
    rw [civil_yearStart y hj, hcommon, he]
  · rw [he]
    exact exists_february29 d

/-- A month has a first week. -/
theorem exists_first_week {m : ℕ} (hm : 1 ≤ m ∧ m ≤ 12) :
    ∃ j, ∀ i < 7, j + i < 365 ∧ (monthDay (monthLengths false) 1 (j + i)).1 = m := by
  have hstarts : ∀ m < 12, ∀ i < 7,
      [0, 31, 59, 90, 120, 151, 181, 212, 243, 273, 304, 334].getD m 0 + i < 365 ∧
        (monthDay (monthLengths false) 1
          ([0, 31, 59, 90, 120, 151, 181, 212, 243, 273, 304, 334].getD m 0 + i)).1 = m + 1 := by
    decide +kernel
  have hweek := hstarts (m - 1) (by omega)
  rw [Nat.sub_add_cancel hm.1] at hweek
  exact ⟨_, hweek⟩

/-- **Every day of the week comes again in every month**, within three years. -/
theorem exists_weekday {m w : ℕ} (hm : 1 ≤ m ∧ m ≤ 12) (hw : w < 7) (d : ℤ) :
    ∃ d', d < d' ∧ d' ≤ d + 2922 ∧ (civil d').month = m ∧ (weekday d' + 1) % 7 = w := by
  obtain ⟨j, hj⟩ := exists_first_week hm
  obtain ⟨y, hcommon, hlt, hle⟩ := exists_common_yearStart d
  obtain ⟨i, hi, hweek⟩ : ∃ i : ℕ, i < 7 ∧ (weekday (yearStart y + (j + i : ℕ)) + 1) % 7 = w := by
    unfold weekday
    refine ⟨((w - 4 - yearStart y - j) % 7).toNat, by omega, ?_⟩
    omega
  obtain ⟨hday, hmonth⟩ := hj i hi
  refine ⟨yearStart y + (j + i : ℕ), by omega, by omega, ?_, hweek⟩
  rw [civil_yearStart y hday, hcommon]
  exact hmonth

end Calendar
