import Cauli.Beat.CronGrammar
import Cauli.Beat.Crontab

/-!
# The bound of the day scan (`py/cauli/schedules.py`)

`next_after` looks at 2928 dates, the date of its argument included. In a zone with a constant offset
that is enough for every crontab that fires at all: the days of its rule come again within 2922 days.

* `Crontab.Matches`: a matching minute, by its date, hour and minute in the zone of the schedule;
* `Crontab.exists_dateMatches`: the next matching date;
* `Crontab.isLeast_of_nextAfter`, `Crontab.not_dateMatches_of_noOccurrence`: the two outcomes of a scan
  that does not leave the calendar;
* `day_scan_complete`: a scan fails exactly when no date matches, and finds the least matching minute
  otherwise.
-/

namespace Cauli

open Calendar

namespace Crontab

variable {S : Crontab} {slot d x : ℤ}

/-- `x` is the start of a minute whose date, hour and minute match. -/
def Matches (S : Crontab) (x : ℤ) : Prop :=
  x % 1000 = 0 ∧ S.tz.localAt (x / 1000) % 60 = 0 ∧ S.dateMatches (S.dateOf x) ∧
    (S.timeOf x).1 ∈ S.hours ∧ (S.timeOf x).2 ∈ S.minutes

/-! ### The fields -/

theorem mem_hm_iff {a : ℕ × ℕ} :
    a ∈ S.hm ↔ (a.1 < 24 ∧ a.1 ∈ S.hours) ∧ a.2 < 60 ∧ a.2 ∈ S.minutes := by
  obtain ⟨h, m⟩ := a
  simp [hm]

/-- A schedule has an hour and minute. -/
theorem exists_mem_hm (S : Crontab) : ∃ a, a ∈ S.hm := by
  obtain ⟨⟨h, hh⟩, hhours⟩ := values_of_parseField (f := .hour) S.hours_eq
  obtain ⟨⟨m, hm⟩, hminutes⟩ := values_of_parseField (f := .minute) S.minutes_eq
  refine ⟨(h, m), mem_hm_iff.2 ⟨⟨?_, hh⟩, ?_, hm⟩⟩
  · exact Nat.lt_succ_of_le (hhours h hh).2
  · exact Nat.lt_succ_of_le (hminutes m hm).2

/-- A schedule has a day of the week. -/
theorem exists_mem_dows (S : Crontab) : ∃ w ∈ S.dows, w < 7 := by
  have hdows := S.dows_eq
  cases hparse : parseField S.dayOfWeek 0 7 DOW_NAMES with
  | error e =>
    rw [hparse] at hdows
    cases hdows
  | ok dows =>
    obtain ⟨⟨w, hw⟩, hrange⟩ := values_of_parseField (f := .dayOfWeek) hparse
    rw [hparse] at hdows
    have himage : dows.image (fun d => if d = 7 then 0 else d) = S.dows := Except.ok.inj hdows
    refine ⟨if w = 7 then 0 else w, ?_, ?_⟩
    · rw [← himage]
      exact Finset.mem_image_of_mem _ hw
    · have hle : w ≤ 7 := (hrange w hw).2
      split_ifs <;> omega

/-! ### The next matching date -/

theorem dateMatches_iff :
    S.dateMatches d = true ↔ (civil d).month ∈ S.months ∧
      ((S.domRestricted = true ∧ (civil d).day ∈ S.doms) ∨
        (S.dowRestricted = true ∧ (weekday d + 1) % 7 ∈ S.dows) ∨
        S.domRestricted = false ∧ S.dowRestricted = false) := by
  unfold dateMatches
  by_cases hmonth : (civil d).month ∈ S.months
  · cases S.domRestricted <;> cases S.dowRestricted <;> simp [hmonth]
  · simp [hmonth]

/-- **A rule that some date satisfies is satisfied again** within 2922 days. -/
theorem exists_dateMatches {e : ℤ} (he : S.dateMatches e = true) (d : ℤ) :
    ∃ d', d < d' ∧ d' ≤ d + 2922 ∧ S.dateMatches d' = true := by
  obtain ⟨hmonth, hrule⟩ := dateMatches_iff.1 he
  by_cases hdow : S.dowRestricted = true
  · -- a day of the week is enough, in the month of `e`
    obtain ⟨w, hw, hlt⟩ := S.exists_mem_dows
    obtain ⟨d', hd', hle, hmonth', hweekday⟩ := exists_weekday (civil_month e) hlt d
    refine ⟨d', hd', hle, dateMatches_iff.2 ⟨hmonth' ▸ hmonth, .inr (.inl ⟨hdow, ?_⟩)⟩⟩
    rw [hweekday]
    exact hw
  · -- the rule reads the month and the day only
    obtain ⟨d', hd', hle, hsame⟩ := exists_same_day e d
    obtain ⟨hmonth', hday'⟩ := Prod.mk.inj hsame
    refine ⟨d', hd', hle, dateMatches_iff.2 ⟨hmonth' ▸ hmonth, ?_⟩⟩
    rw [hday']
    rcases hrule with hdom | ⟨hdow', -⟩ | hnone
    · exact .inl hdom
    · exact absurd hdow' hdow
    · exact .inr (.inr hnone)

/-! ### Matching minutes in a zone with a constant offset -/

section Constant

variable (hzone : S.tz.Constant)

include hzone

theorem dateOf_eq (x : ℤ) : S.dateOf x = (x / 1000 + S.tz.base) / 86400 := by
  rw [dateOf, hzone.localAt]

theorem firesOn_iff_of_constant :
    S.FiresOn d x ↔ S.dateMatches d ∧ ∃ a ∈ S.hm, x = (wallTime d a - S.tz.base) * 1000 := by
  unfold FiresOn instantMs
  simp only [hzone.instantAt]
  refine and_congr_right fun _ => exists_congr fun a => and_congr_right fun _ => ?_
  constructor
  · rintro (rfl | ⟨-, rfl, -⟩) <;> rfl
  · exact Or.inl

/-- The fire instants of a date are its matching minutes. -/
theorem firesOn_iff_matches : S.FiresOn d x ↔ S.Matches x ∧ S.dateOf x = d := by
  rw [firesOn_iff_of_constant hzone, Matches, dateOf_eq hzone, hzone.localAt]
  constructor
  · rintro ⟨hmatch, ⟨h, m⟩, ha, rfl⟩
    have hlt := mem_hm ha
    obtain ⟨⟨-, hh⟩, -, hm⟩ := mem_hm_iff.1 ha
    have hlocal : (wallTime d (h, m) - S.tz.base) * 1000 / 1000 + S.tz.base = wallTime d (h, m) := by
      omega
    have hdate : wallTime d (h, m) / 86400 = d := (wallTime_div ha d).1
    have htime : S.timeOf ((wallTime d (h, m) - S.tz.base) * 1000) = (h, m) := by
      simp only [timeOf, hzone.localAt, hlocal]
      unfold wallTime
      dsimp only at hlt ⊢
      rw [Prod.mk.injEq]
      omega
    rw [htime, hlocal, hdate]
    refine ⟨⟨by omega, (wallTime_div ha d).2, hmatch, hh, hm⟩, rfl⟩
  · rintro ⟨⟨hms, hminute, hmatch, hh, hm⟩, rfl⟩
    refine ⟨hmatch, S.timeOf x, mem_hm_iff.2 ⟨⟨?_, hh⟩, ?_, hm⟩, ?_⟩
    · simp only [timeOf, hzone.localAt]
      omega
    · simp only [timeOf, hzone.localAt]
      omega
    · simp only [timeOf, wallTime, hzone.localAt]
      omega

/-- A matching date after that of the slot has a matching minute after the slot. -/
theorem exists_firesOn_of_lt (hmatch : S.dateMatches d = true) (hd : S.dateOf slot < d) :
    ∃ x, S.FiresOn d x ∧ slot < x := by
  obtain ⟨a, ha⟩ := S.exists_mem_hm
  refine ⟨_, (firesOn_iff_of_constant hzone).2 ⟨hmatch, a, ha, rfl⟩, ?_⟩
  rw [dateOf_eq hzone] at hd
  unfold wallTime
  omega

/-! ### The two outcomes of the scan -/

/-- What `next_after` returns is the least matching minute after the slot. -/
theorem isLeast_of_nextAfter {r : ℤ} (h : S.nextAfter slot = .ok r) :
    IsLeast {x | S.Matches x ∧ slot < x} r := by
  unfold nextAfter at h
  split_ifs at h with hsupported
  obtain ⟨d, hfrom, hto, hmax, hfires, hlt⟩ := firesOn_of_scan h
  have hstart : S.dateOf slot = S.dateOf slot + (0 : ℕ) := by simp
  obtain ⟨r', e, hr', hde, hed, hleast, hbefore⟩ :=
    scan_leastAfter hzone.ordered hstart hfrom hto (hmax hsupported.2.2) hfires hlt
  rw [h] at hr'
  cases hr'
  obtain ⟨hmatches, hdate⟩ := (firesOn_iff_matches hzone).1 hleast.1.1
  refine ⟨⟨hmatches, hlt⟩, ?_⟩
  rintro y ⟨hy, hslot⟩
  have hfires' : S.FiresOn (S.dateOf y) y := (firesOn_iff_matches hzone).2 ⟨hy, rfl⟩
  rw [dateOf_eq hzone] at hdate
  have hdatey := dateOf_eq hzone y
  have hdateslot := dateOf_eq hzone slot
  by_contra hlate
  -- `y` is before `r`, so its date is one that the scan has passed, or that of `r`
  rcases (show S.dateOf y ≤ e by omega).eq_or_lt with heq | hbefore'
  · rw [heq] at hfires'
    exact hlate (hleast.2 ⟨hfires', hslot⟩)
  · exact absurd (hbefore _ (by omega) hbefore' y hfires') (not_le.2 hslot)

omit hzone in
/-- A scan that ends without a slot has not met the last date. -/
theorem le_of_scan_noOccurrence {fromHm : ℕ × ℕ} {left offset : ℕ} {day : ℤ} (hday : day ≤ MAX_DATE)
    (h : S.scan slot fromHm left offset day = .error .noOccurrence) : day + left ≤ MAX_DATE := by
  induction left generalizing offset day with
  | zero => simpa using hday
  | succ left ih =>
    unfold scan at h
    split_ifs at h with hlast
    · cases h
    · split at h
      next => cases h
      next =>
        have := ih (by omega) h
        omega

/-- A scan that finds nothing has a rule that no date satisfies. -/
theorem not_dateMatches_of_noOccurrence (h : S.nextAfter slot = .error .noOccurrence) (e : ℤ) :
    S.dateMatches e = false := by
  by_contra he
  rw [Bool.not_eq_false] at he
  unfold nextAfter at h
  split_ifs at h with hsupported
  · have hinside := le_of_scan_noOccurrence hsupported.2.2 h
    obtain ⟨d, hd, hle, hmatch⟩ := exists_dateMatches he (S.dateOf slot)
    obtain ⟨x, hx, hlt⟩ := exists_firesOn_of_lt hzone hmatch hd
    have hstart : S.dateOf slot = S.dateOf slot + (0 : ℕ) := by simp
    have hto : d < S.dateOf slot + MAX_SCAN_DAYS := by
      unfold MAX_SCAN_DAYS
      omega
    obtain ⟨r, -, hr, -⟩ := scan_leastAfter hzone.ordered hstart hd.le hto (by omega) hx hlt
    rw [h] at hr
    cases hr
  · cases h

end Constant

/-- What `next_after` returns is on a date that matches. -/
theorem exists_dateMatches_of_nextAfter {r : ℤ} (h : S.nextAfter slot = .ok r) :
    ∃ d, Supported d ∧ S.dateMatches d = true := by
  unfold nextAfter at h
  split_ifs at h with hsupported
  obtain ⟨d, hfrom, -, hmax, hfires, -⟩ := firesOn_of_scan h
  exact ⟨d, ⟨hsupported.2.1.trans hfrom, (hmax hsupported.2.2).le⟩, hfires.1⟩

/-- The scan stays inside the calendar. -/
def StaysInside (S : Crontab) (slot : ℤ) : Prop := S.nextAfter slot ≠ .error .outOfRange

theorem scan_ne_outOfRange {fromHm : ℕ × ℕ} {left offset : ℕ} {day : ℤ}
    (hday : day + left ≤ MAX_DATE) :
    S.scan slot fromHm left offset day ≠ .error .outOfRange := by
  induction left generalizing offset day with
  | zero =>
    intro h
    cases h
  | succ left ih =>
    rw [scan, if_neg (by omega)]
    split
    next =>
      intro h
      cases h
    next => exact ih (by omega)

/-- That is so when all its dates and the one after them are in the calendar. -/
theorem staysInside_of_le (hutc : Supported (slot / 1000 / 86400)) (hlocal : Supported (S.dateOf slot))
    (hmax : S.dateOf slot + MAX_SCAN_DAYS ≤ MAX_DATE) : S.StaysInside slot := by
  rw [StaysInside, nextAfter, if_pos ⟨hutc, hlocal⟩]
  exact scan_ne_outOfRange hmax

end Crontab

/-- **The bound of the day scan is enough**: in a zone with a constant offset, for every crontab and
every slot whose scan stays inside the calendar, `next_after` fails exactly when no date matches, and
returns the least matching minute after the slot otherwise. -/
theorem day_scan_complete {S : Crontab} (hzone : S.tz.Constant) {slot : ℤ}
    (hinside : S.StaysInside slot) :
    (S.nextAfter slot = .error .noOccurrence ↔
      ∀ d, Crontab.Supported d → S.dateMatches d = false) ∧
    ((∃ d, Crontab.Supported d ∧ S.dateMatches d = true) →
      ∃ r, S.nextAfter slot = .ok r ∧ IsLeast {x | S.Matches x ∧ slot < x} r) := by
  cases hnext : S.nextAfter slot with
  | ok r =>
    obtain ⟨d, hd, hmatch⟩ := Crontab.exists_dateMatches_of_nextAfter hnext
    refine ⟨⟨fun h => ?_, fun hnone => ?_⟩, fun _ => ?_⟩
    · cases h
    · rw [hnone d hd] at hmatch
      cases hmatch
    · exact ⟨r, rfl, Crontab.isLeast_of_nextAfter hzone hnext⟩
  | error e =>
    cases e with
    | outOfRange => exact absurd hnext hinside
    | noOccurrence =>
      have hnone := Crontab.not_dateMatches_of_noOccurrence hzone hnext
      refine ⟨⟨fun _ d _ => hnone d, fun _ => rfl⟩, ?_⟩
      rintro ⟨d, -, hmatch⟩
      rw [hnone d] at hmatch
      cases hmatch

/-- UTC. -/
def utc : TimeZone where
  base := 0
  table := []
  bounded := by
    intro c hc
    cases hc
  base_bounded := by decide
  sorted := .nil

/-- `0 0 29 2 *`. -/
def leapDay : Crontab where
  minute := .int 0
  hour := .int 0
  dayOfMonth := .int 29
  month := .int 2
  dayOfWeek := .str ['*']
  tz := utc
  minuteExpr := ['0']
  hourExpr := ['0']
  domExpr := ['2', '9']
  dowExpr := ['*']
  minutes := {0}
  hours := {0}
  doms := {29}
  months := {2}
  dows := Finset.range 7
  minuteExpr_eq := by decide +kernel
  hourExpr_eq := by decide +kernel
  domExpr_eq := by decide +kernel
  dowExpr_eq := exprText_star
  minutes_eq := by decide +kernel
  hours_eq := by decide +kernel
  doms_eq := by decide +kernel
  months_eq := by decide +kernel
  dows_eq := Crontab.parseField_star_dow

/-- On the leap day of 1896 the next one is found, which is that of 1904. -/
theorem day_scan_complete_1896 :
    ∃ r, leapDay.nextAfter (-26969 * 86400000) = .ok r ∧
      IsLeast {x | leapDay.Matches x ∧ -26969 * 86400000 < x} r := by
  have hinside : leapDay.StaysInside (-26969 * 86400000) :=
    Crontab.staysInside_of_le (by decide) (by decide) (by decide)
  have hzone : leapDay.tz.Constant := by
    intro c hc
    cases hc
  exact (day_scan_complete hzone hinside).2 ⟨-24048, by decide, by decide +kernel⟩

end Cauli
