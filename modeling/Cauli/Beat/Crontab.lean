import Cauli.Beat.CronField
import Cauli.Lib.Bisect
import Cauli.Lib.Calendar
import Cauli.Lib.Zone
import Mathlib.Data.List.Sort
import Mathlib.Data.List.Dedup

/-!
# Crontabs (`py/cauli/schedules.py`)

A crontab with its calendar and its time zone, and the day scan of its `next_after`. Slots are epoch
milliseconds; a zone works with seconds. The memo of `_shifting_day_instants` is left out.

* `Crontab`: what the constructor makes of its arguments;
* `Crontab.dateMatches`, `Crontab.instantMs`, `Crontab.shiftingDayInstants`, `Crontab.nextAfter`;
* `Crontab.Fires`: the instants at which a crontab fires, with the second readings of a schedule
  that repeats in a fold;
* `Crontab.slotOn_leastAfter`, `Crontab.scan_leastAfter`: what a date of the scan and the scan find
  in a zone that keeps its dates in order;
* `crontab_finds_least_iff`: the zones in which `next_after` is the least later fire instant. In the
  others the scan starts after the date of a slot that is still to come.
-/

namespace Cauli

open Calendar

/-- `_MAX_SCAN_DAYS`. -/
def MAX_SCAN_DAYS : ℕ := 366 * 8

/-- A crontab: the arguments of the constructor, and what it keeps of them. -/
structure Crontab where
  minute : FieldArg
  hour : FieldArg
  dayOfMonth : FieldArg
  month : FieldArg
  dayOfWeek : FieldArg
  tz : TimeZone
  minuteExpr : List Char
  hourExpr : List Char
  domExpr : List Char
  dowExpr : List Char
  minutes : Finset ℕ
  hours : Finset ℕ
  doms : Finset ℕ
  months : Finset ℕ
  dows : Finset ℕ
  minuteExpr_eq : exprText minute = .ok minuteExpr
  hourExpr_eq : exprText hour = .ok hourExpr
  domExpr_eq : exprText dayOfMonth = .ok domExpr
  dowExpr_eq : exprText dayOfWeek = .ok dowExpr
  minutes_eq : parseField minute 0 59 [] = .ok minutes
  hours_eq : parseField hour 0 23 [] = .ok hours
  doms_eq : parseField dayOfMonth 1 31 [] = .ok doms
  months_eq : parseField month 1 12 MONTH_NAMES = .ok months
  dows_eq :
    (parseField dayOfWeek 0 7 DOW_NAMES).map (Finset.image fun d => if d = 7 then 0 else d) = .ok dows

/-- What `next_after` raises. -/
inductive ScanError
  | noOccurrence
  | outOfRange
  deriving DecidableEq

namespace Crontab

variable (S : Crontab)

/-- `_dom_restricted`: only a literal `*` is not. -/
def domRestricted : Bool := S.domExpr != ['*']

/-- `_dow_restricted`. -/
def dowRestricted : Bool := S.dowExpr != ['*']

/-- `_repeats_in_fold`. -/
def repeatsInFold : Bool := S.minuteExpr.head? == some '*' || S.hourExpr.head? == some '*'

/-- `_hm`: the hours and minutes, in order. -/
def hm : List (ℕ × ℕ) :=
  ((List.range 24).filter (· ∈ S.hours)).flatMap fun h =>
    ((List.range 60).filter (· ∈ S.minutes)).map fun m => (h, m)

/-- `_date_matches`. -/
def dateMatches (d : ℤ) : Bool :=
  if (civil d).month ∉ S.months then false
  else
    let domOk := decide ((civil d).day ∈ S.doms)
    let dowOk := decide ((weekday d + 1) % 7 ∈ S.dows)
    if S.domRestricted && S.dowRestricted then domOk || dowOk
    else if S.domRestricted then domOk
    else if S.dowRestricted then dowOk
    else true

/-- The wall time of an hour and minute on a date. -/
def wallTime (d : ℤ) (hm : ℕ × ℕ) : ℤ := d * 86400 + hm.1 * 3600 + hm.2 * 60

/-- `_instant_ms`. -/
def instantMs (d : ℤ) (hm : ℕ × ℕ) (fold : Bool) : ℤ := S.tz.instantAt fold (wallTime d hm) * 1000

/-- The instants of an hour and minute on a date: the first, and a later second one for a schedule
that repeats. -/
def instantsAt (d : ℤ) (hm : ℕ × ℕ) : List ℤ :=
  let first := S.instantMs d hm false
  let again := S.instantMs d hm true
  if S.repeatsInFold ∧ first < again then [first, again] else [first]

/-- `_shifting_day_instants`: every instant on a date, without duplicates and sorted. -/
def shiftingDayInstants (d : ℤ) : List ℤ :=
  (S.hm.flatMap (S.instantsAt d)).dedup.insertionSort (· ≤ ·)

/-- The order of pairs. -/
def earlier (a b : ℕ × ℕ) : Bool := decide (a.1 < b.1 ∨ a.1 = b.1 ∧ a.2 < b.2)

/-- One turn of the day scan: the slot on a date, if there is one. On the first date the times
before that of the argument are skipped. -/
def slotOn (slot : ℤ) (fromHm : ℕ × ℕ) (offset : ℕ) (day : ℤ) : Option ℤ :=
  if S.dateMatches day ∧ S.tz.ChangesOn day then
    let instants := S.shiftingDayInstants day
    instants[bisectRight instants slot]?
  else if S.dateMatches day then
    S.hm.findSome? fun hm =>
      if offset == 0 && earlier hm fromHm then none
      else if slot < S.instantMs day hm false then some (S.instantMs day hm false)
      else none
  else none

/-- The day scan. There is no date after the last one, which the end of a matching date and the next
turn ask for. -/
def scan (slot : ℤ) (fromHm : ℕ × ℕ) : ℕ → ℕ → ℤ → Except ScanError ℤ
  | 0, _, _ => .error .noOccurrence
  | left + 1, offset, day =>
    if day = MAX_DATE then .error .outOfRange
    else
      match S.slotOn slot fromHm offset day with
      | some ms => .ok ms
      | none => scan slot fromHm left (offset + 1) (day + 1)

/-- The date of a slot in the zone of the schedule. -/
def dateOf (slot : ℤ) : ℤ := S.tz.localAt (slot / 1000) / 86400

/-- The hour and minute of a slot in the zone of the schedule. -/
def timeOf (slot : ℤ) : ℕ × ℕ :=
  let s := (S.tz.localAt (slot / 1000) % 86400).toNat
  (s / 3600, s % 3600 / 60)

/-- A date that can be represented. -/
def Supported (d : ℤ) : Prop := MIN_DATE ≤ d ∧ d ≤ MAX_DATE

instance (d : ℤ) : Decidable (Supported d) := inferInstanceAs (Decidable (_ ∧ _))

/-- `next_after`. -/
def nextAfter (slot : ℤ) : Except ScanError ℤ :=
  if Supported (slot / 1000 / 86400) ∧ Supported (S.dateOf slot) then
    S.scan slot (S.timeOf slot) MAX_SCAN_DAYS 0 (S.dateOf slot)
  else .error .outOfRange

/-! ### Fire instants -/

/-- `x` is a fire instant of the date `d`. -/
def FiresOn (d x : ℤ) : Prop :=
  S.dateMatches d ∧ ∃ hm ∈ S.hm, x = S.instantMs d hm false ∨
    S.repeatsInFold ∧ x = S.instantMs d hm true ∧ S.instantMs d hm false < x

/-- `x` is a fire instant. -/
def Fires (x : ℤ) : Prop := ∃ d, Supported d ∧ S.FiresOn d x

/-- A date of the scan has a fire instant after the slot. -/
def InRange (slot : ℤ) : Prop :=
  Supported (slot / 1000 / 86400) ∧ Supported (S.dateOf slot) ∧
    ∃ d, S.dateOf slot ≤ d ∧ d < S.dateOf slot + MAX_SCAN_DAYS ∧ d < MAX_DATE ∧
      ∃ x, S.FiresOn d x ∧ slot < x

/-- `next_after` is the least fire instant after the slot. -/
def FindsLeast (slot : ℤ) : Prop :=
  ∃ r, S.nextAfter slot = .ok r ∧ IsLeast {x | S.Fires x ∧ slot < x} r

variable {S} {slot d x : ℤ}

theorem mem_hm {a : ℕ × ℕ} (h : a ∈ S.hm) : a.1 < 24 ∧ a.2 < 60 := by
  simp only [hm, List.mem_flatMap, List.mem_filter, List.mem_range, List.mem_map] at h
  obtain ⟨h, ⟨hh, -⟩, m, ⟨hm, -⟩, rfl⟩ := h
  exact ⟨hh, hm⟩

/-- A wall time of a schedule is a whole minute of its date. -/
theorem wallTime_div {a : ℕ × ℕ} (h : a ∈ S.hm) (d : ℤ) :
    wallTime d a / 86400 = d ∧ wallTime d a % 60 = 0 := by
  have := mem_hm h
  unfold wallTime
  omega

theorem pairwise_hm : S.hm.Pairwise fun a b => earlier a b := by
  have hrange : ∀ (n : ℕ) (p : ℕ → Bool), ((List.range n).filter p).Pairwise (· < ·) :=
    fun n p => List.pairwise_lt_range.filter p
  rw [hm, List.pairwise_flatMap]
  constructor
  · intro h _
    rw [List.pairwise_map]
    exact (hrange 60 _).imp fun hlt => by simpa [earlier] using hlt
  · refine (hrange 24 _).imp fun hlt a ha b hb => ?_
    obtain ⟨m, -, rfl⟩ := List.mem_map.1 ha
    obtain ⟨m', -, rfl⟩ := List.mem_map.1 hb
    simp [earlier, hlt]

theorem mem_instantsAt {a : ℕ × ℕ} : x ∈ S.instantsAt d a ↔ x = S.instantMs d a false ∨
    S.repeatsInFold ∧ x = S.instantMs d a true ∧ S.instantMs d a false < x := by
  unfold instantsAt
  dsimp only
  split_ifs with hagain
  · rw [List.mem_pair]
    constructor
    · rintro (rfl | rfl)
      · exact Or.inl rfl
      · exact Or.inr ⟨hagain.1, rfl, hagain.2⟩
    · rintro (rfl | ⟨-, rfl, -⟩)
      · exact Or.inl rfl
      · exact Or.inr rfl
  · rw [List.mem_singleton]
    constructor
    · exact Or.inl
    · rintro (rfl | ⟨hrep, rfl, hlt⟩)
      · rfl
      · exact absurd ⟨hrep, hlt⟩ hagain

theorem mem_shiftingDayInstants :
    x ∈ S.shiftingDayInstants d ↔ ∃ a ∈ S.hm, x ∈ S.instantsAt d a := by
  rw [shiftingDayInstants, List.mem_insertionSort, List.mem_dedup, List.mem_flatMap]

theorem firesOn_iff : S.FiresOn d x ↔ S.dateMatches d ∧ x ∈ S.shiftingDayInstants d := by
  simp only [FiresOn, mem_shiftingDayInstants, mem_instantsAt]

/-- A fire instant is a reading of a whole minute of its date. -/
theorem FiresOn.reading (h : S.FiresOn d x) :
    ∃ w r, w / 86400 = d ∧ w % 60 = 0 ∧ S.tz.Reading w r ∧ x = r * 1000 := by
  obtain ⟨-, a, ha, hx⟩ := h
  obtain ⟨hdate, hminute⟩ := wallTime_div ha d
  rcases hx with rfl | ⟨-, rfl, hlt⟩
  · exact ⟨wallTime d a, _, hdate, hminute, Or.inl rfl, rfl⟩
  · refine ⟨wallTime d a, _, hdate, hminute, Or.inr ⟨rfl, ?_⟩, rfl⟩
    unfold instantMs at hlt
    omega

/-! ### One date of the scan -/

/-- What a date of the scan finds is one of its fire instants, after the slot. -/
theorem firesOn_of_slotOn {fromHm : ℕ × ℕ} {offset : ℕ}
    (h : S.slotOn slot fromHm offset d = some x) : S.FiresOn d x ∧ slot < x := by
  unfold slotOn at h
  split_ifs at h with hshift hmatch
  · rw [getElem?_bisectRight] at h
    have hlt : slot < x := by simpa using List.find?_some h
    exact ⟨firesOn_iff.2 ⟨hshift.1, List.mem_of_find?_eq_some h⟩, hlt⟩
  · obtain ⟨a, ha, h⟩ := List.exists_of_findSome?_eq_some h
    split_ifs at h with hskip hlt
    cases h
    exact ⟨⟨hmatch, a, ha, Or.inl rfl⟩, hlt⟩

section Unchanged

variable (hZ : S.tz.Ordered) (hsame : ¬S.tz.ChangesOn d)

include hZ hsame

/-- On a date with one offset a wall time has one reading. -/
theorem firesOn_of_unchanged (hmatch : S.dateMatches d) :
    S.FiresOn d x ↔ ∃ a ∈ S.hm, S.instantMs d a false = x := by
  constructor
  · rintro ⟨-, a, ha, rfl | ⟨-, rfl, hlt⟩⟩
    · exact ⟨a, ha, rfl⟩
    · obtain ⟨hdate, hminute⟩ := wallTime_div ha d
      have honce := hZ.once hminute (by rwa [hdate])
      unfold instantMs at hlt
      omega
  · rintro ⟨a, ha, rfl⟩
    exact ⟨hmatch, a, ha, Or.inl rfl⟩

/-- On a date with one offset the wall times are in the order of their instants. -/
theorem pairwise_instantMs :
    S.hm.Pairwise fun a b => S.instantMs d a false ≤ S.instantMs d b false := by
  refine pairwise_hm.imp_of_mem fun {a b} ha hb hab => ?_
  obtain ⟨hda, hma⟩ := wallTime_div ha d
  obtain ⟨hdb, hmb⟩ := wallTime_div hb d
  have hle : wallTime d a ≤ wallTime d b := by
    have := mem_hm ha
    have := of_decide_eq_true hab
    unfold wallTime
    omega
  have hmono := hZ.mono hma hmb (by rwa [hda]) (hda.trans hdb.symm) hle
  unfold instantMs
  omega

/-- A wall time before that of the slot is not after the slot. -/
theorem instantMs_le_of_earlier {a : ℕ × ℕ} (ha : a ∈ S.hm) (hd : d = S.dateOf slot)
    (hlt : earlier a (S.timeOf slot)) : S.instantMs d a false ≤ slot := by
  obtain ⟨hdate, hminute⟩ := wallTime_div ha d
  have hlt : wallTime d a / 60 < S.tz.localAt (slot / 1000) / 60 := by
    have := mem_hm ha
    have := of_decide_eq_true hlt
    unfold dateOf at hd
    simp only [timeOf] at this
    unfold wallTime
    omega
  have hle := hZ.pruned hminute (by rwa [hdate]) (by rw [hdate, hd, dateOf]) hlt
  unfold instantMs
  omega

end Unchanged

/-- The scan of a date in a zone that keeps its dates in order. -/
theorem slotOn_leastAfter (hZ : S.tz.Ordered) {offset : ℕ}
    (hfirst : offset = 0 → d = S.dateOf slot) :
    LeastAfter {x | S.FiresOn d x} slot (S.slotOn slot (S.timeOf slot) offset d) := by
  by_cases hmatch : S.dateMatches d
  · by_cases hshift : S.tz.ChangesOn d
    · have hset : {x | S.FiresOn d x} = {x | x ∈ S.shiftingDayInstants d} := by
        ext x
        exact firesOn_iff.trans (and_iff_right hmatch)
      rw [slotOn, if_pos ⟨hmatch, hshift⟩, hset]
      exact leastAfter_bisectRight (List.pairwise_insertionSort _ _) slot
    · have hset : {x | S.FiresOn d x} = {x | ∃ a ∈ S.hm, S.instantMs d a false = x} := by
        ext x
        exact firesOn_of_unchanged hZ hshift hmatch
      rw [slotOn, if_neg (fun h => hshift h.2), if_pos hmatch, hset]
      refine leastAfter_findSome (fun a => S.instantMs d a false)
        (fun a => offset == 0 && earlier a (S.timeOf slot)) (pairwise_instantMs hZ hshift) ?_
      intro a ha hskip
      obtain ⟨hzero, hlt⟩ := Bool.and_eq_true_iff.1 hskip
      exact instantMs_le_of_earlier hZ hshift ha (hfirst (beq_iff_eq.1 hzero)) hlt
  · rw [slotOn, if_neg (fun h => hmatch h.1), if_neg hmatch]
    rintro x ⟨hx, -⟩
    exact absurd hx hmatch

/-! ### The scan -/

/-- What the scan finds is a fire instant of one of its dates, after the slot. -/
theorem firesOn_of_scan {fromHm : ℕ × ℕ} {left offset : ℕ} {day r : ℤ}
    (h : S.scan slot fromHm left offset day = .ok r) :
    ∃ d, day ≤ d ∧ d < day + left ∧ (day ≤ MAX_DATE → d < MAX_DATE) ∧ S.FiresOn d r ∧ slot < r := by
  induction left generalizing offset day with
  | zero => cases h
  | succ left ih =>
    unfold scan at h
    split_ifs at h with hlast
    split at h
    next ms hms =>
      cases h
      exact ⟨day, le_rfl, by omega, fun hday => by omega, firesOn_of_slotOn hms⟩
    next =>
      obtain ⟨d, hd, hleft, hmax, hr⟩ := ih h
      exact ⟨d, by omega, by omega, fun hday => hmax (by omega), hr⟩

/-- Slots move forward, in every zone. -/
theorem lt_of_nextAfter {r : ℤ} (h : S.nextAfter slot = .ok r) : slot < r := by
  unfold nextAfter at h
  split_ifs at h
  obtain ⟨d, -, -, -, -, hlt⟩ := firesOn_of_scan h
  exact hlt

/-- The scan stops at the first date with a fire instant after the slot. -/
theorem scan_leastAfter (hZ : S.tz.Ordered) {left offset : ℕ} {day : ℤ}
    (hday : day = S.dateOf slot + offset) (hd : day ≤ d) (hleft : d < day + left)
    (hmax : d < MAX_DATE) (hx : S.FiresOn d x) (hlt : slot < x) :
    ∃ r e, S.scan slot (S.timeOf slot) left offset day = .ok r ∧ day ≤ e ∧ e ≤ d ∧
      IsLeast {y | S.FiresOn e y ∧ slot < y} r ∧
      ∀ e', day ≤ e' → e' < e → ∀ y, S.FiresOn e' y → y ≤ slot := by
  induction left generalizing offset day with
  | zero => omega
  | succ left ih =>
    have hfirst : offset = 0 → day = S.dateOf slot := by
      intro hzero
      rw [hday, hzero]
      simp
    have hslot := slotOn_leastAfter hZ hfirst
    rw [scan, if_neg (by omega)]
    cases hfound : S.slotOn slot (S.timeOf slot) offset day with
    | some r =>
      rw [hfound] at hslot
      exact ⟨r, day, rfl, le_rfl, hd, hslot, fun e' h1 h2 => by omega⟩
    | none =>
      -- no fire instant of this date is after the slot, so the one of `d` is on a later date
      rw [hfound] at hslot
      have hne : day ≠ d := by
        rintro rfl
        exact absurd (hslot x hx) (not_le.2 hlt)
      have hnext : day + 1 = S.dateOf slot + (offset + 1 : ℕ) := by omega
      obtain ⟨r, e, hr, hde, hed, hleast, hbefore⟩ := ih hnext (by omega) (by omega)
      refine ⟨r, e, hr, by omega, hed, hleast, fun e' h1 h2 y hy => ?_⟩
      rcases h1.eq_or_lt with rfl | h1
      · exact hslot y hy
      · exact hbefore e' (by omega) h2 y hy

/-- In a zone that keeps its dates in order `next_after` is right. -/
theorem findsLeast_of_ordered (hZ : S.tz.Ordered) (h : S.InRange slot) : S.FindsLeast slot := by
  obtain ⟨hutc, hlocal, d, hfrom, hto, hmax, x, hx, hlt⟩ := h
  have hstart : S.dateOf slot = S.dateOf slot + (0 : ℕ) := by simp
  obtain ⟨r, e, hr, hde, hed, hleast, hbefore⟩ :=
    scan_leastAfter hZ hstart hfrom hto hmax hx hlt
  have hsupported : Supported e := ⟨hlocal.1.trans hde, by omega⟩
  refine ⟨r, ?_, ⟨⟨e, hsupported, hleast.1.1⟩, hleast.1.2⟩, ?_⟩
  · rw [nextAfter, if_pos ⟨hutc, hlocal⟩]
    exact hr
  · rintro y ⟨⟨e', -, hy⟩, hslot⟩
    by_contra hlate
    obtain ⟨w, q, rfl, hw, hq, rfl⟩ := hy.reading
    rcases lt_trichotomy (w / 86400) e with hlt' | heq | hgt
    · by_cases hpast : w / 86400 < S.dateOf slot
      · -- a date before that of the slot
        have := hZ.past hw hq hpast
        omega
      · exact absurd (hbefore _ (not_lt.1 hpast) hlt' _ hy) (not_le.2 hslot)
    · rw [heq] at hy
      exact hlate (hleast.2 ⟨hy, hslot⟩)
    · -- a date after the one that was found
      obtain ⟨w', q', hdate', hw', hq', rfl⟩ := hleast.1.1.reading
      have hle := hZ.dates hw' hw hq' (by omega)
      have hfirst : S.tz.instantAt false w ≤ q := by
        rcases hq with rfl | ⟨-, hlt⟩
        · exact le_rfl
        · exact hlt.le
      omega

/-! ### A zone that does not -/

theorem parseField_star_minute : parseField (.str ['*']) 0 59 [] = .ok (Finset.range 60) := by
  decide +kernel

theorem parseField_star_hour : parseField (.str ['*']) 0 23 [] = .ok (Finset.range 24) := by
  decide +kernel

theorem parseField_star_dow :
    (parseField (.str ['*']) 0 7 DOW_NAMES).map (Finset.image fun d => if d = 7 then 0 else d) =
      .ok (Finset.range 7) := by
  have hparse : parseField (.str ['*']) 0 7 DOW_NAMES = .ok (Finset.range 8) := by decide +kernel
  rw [hparse]
  exact congrArg Except.ok (by decide)

theorem parseField_int_dow (w : Fin 7) : parseField (.int w) 0 7 DOW_NAMES = .ok {w.val} := by
  revert w
  decide +kernel

/-- Every minute of one day of the week. -/
def weekly (Z : TimeZone) (w : Fin 7) : Crontab where
  minute := .str ['*']
  hour := .str ['*']
  dayOfMonth := .str ['*']
  month := .str ['*']
  dayOfWeek := .int w
  tz := Z
  minuteExpr := ['*']
  hourExpr := ['*']
  domExpr := ['*']
  dowExpr := (toString (w : ℤ)).toList
  minutes := Finset.range 60
  hours := Finset.range 24
  doms := (Finset.range 32).erase 0
  months := (Finset.range 13).erase 0
  dows := {w.val}
  minuteExpr_eq := rfl
  hourExpr_eq := rfl
  domExpr_eq := rfl
  dowExpr_eq := rfl
  minutes_eq := parseField_star_minute
  hours_eq := parseField_star_hour
  doms_eq := by decide +kernel
  months_eq := by decide +kernel
  dows_eq := by
    rw [parseField_int_dow]
    revert w
    decide +kernel

section Weekly

variable {Z : TimeZone} {w : Fin 7}

theorem dowRestricted_weekly : (weekly Z w).dowRestricted = true := by
  show ((toString (w : ℤ)).toList != ['*']) = true
  revert w
  decide +kernel

theorem dateMatches_weekly : (weekly Z w).dateMatches d ↔ (weekday d + 1) % 7 = w := by
  have hmonth := civil_month d
  have hmonths : (civil d).month ∈ (weekly Z w).months := by
    show (civil d).month ∈ (Finset.range 13).erase 0
    rw [Finset.mem_erase, Finset.mem_range]
    omega
  have hdom : (weekly Z w).domRestricted = false := rfl
  rw [dateMatches, if_neg (not_not.2 hmonths), dowRestricted_weekly, hdom]
  show decide ((weekday d + 1) % 7 ∈ ({w.val} : Finset ℕ)) = true ↔ _
  rw [decide_eq_true_eq, Finset.mem_singleton]

theorem mem_hm_weekly {a : ℕ × ℕ} (hh : a.1 < 24) (hm : a.2 < 60) : a ∈ (weekly Z w).hm := by
  simp only [Crontab.hm, weekly, List.mem_flatMap, List.mem_filter, List.mem_range, List.mem_map]
  exact ⟨a.1, ⟨hh, by simpa using hh⟩, a.2, ⟨hm, by simpa using hm⟩, rfl⟩

/-- Every reading of a minute of the day is a fire instant. -/
theorem firesOn_weekly {t r : ℤ} (hd : (weekday (t / 86400) + 1) % 7 = w) (ht : t % 60 = 0)
    (hr : Z.Reading t r) : (weekly Z w).FiresOn (t / 86400) (r * 1000) := by
  obtain ⟨s, hs⟩ : ∃ s : ℕ, (s : ℤ) = t % 86400 := ⟨(t % 86400).toNat, by omega⟩
  have hwall : wallTime (t / 86400) (s / 3600, s % 3600 / 60) = t := by
    unfold wallTime
    dsimp only
    omega
  refine ⟨dateMatches_weekly.2 hd, (s / 3600, s % 3600 / 60), mem_hm_weekly ?_ ?_, ?_⟩
  · dsimp only
    omega
  · dsimp only
    omega
  · unfold instantMs
    rw [hwall]
    rcases hr with rfl | ⟨rfl, hlt⟩
    · exact Or.inl rfl
    · refine Or.inr ⟨rfl, rfl, ?_⟩
      show Z.instantAt false t * 1000 < _
      omega

end Weekly

/-- A minute that is read after an instant of the next date is missed by the schedule of every
minute of its day of the week: the scan goes on to the week after. -/
theorem exists_not_findsLeast {Z : TimeZone} {t r x : ℤ} (ht : t % 60 = 0) (hr : Z.Reading t r)
    (hdate : t / 86400 + 1 = Z.localAt x / 86400) (hlt : x < r)
    (hlo : (MIN_DATE + 14) * 86400 ≤ x) (hhi : x ≤ (MAX_DATE - 14) * 86400) :
    ∃ (w : Fin 7) (slot : ℤ), (weekly Z w).InRange slot ∧ ¬(weekly Z w).FindsLeast slot := by
  have hoff := Z.offsetAt_bounded x
  have hnear := hr.near
  have hlocal : Z.localAt x = x + Z.offsetAt x := rfl
  obtain ⟨w, hw⟩ : ∃ w : Fin 7, (weekday (t / 86400) + 1) % 7 = w :=
    ⟨⟨_, Nat.mod_lt _ (by decide)⟩, rfl⟩
  have hdateOf : (weekly Z w).dateOf (x * 1000) = t / 86400 + 1 := by
    rw [hdate, dateOf, Int.mul_ediv_cancel x (by decide)]
    rfl
  have hutc : x * 1000 / 1000 / 86400 = x / 86400 := by omega
  have hsupported : Supported (x * 1000 / 1000 / 86400) ∧
      Supported ((weekly Z w).dateOf (x * 1000)) := by
    rw [hdateOf, hutc]
    unfold Supported
    omega
  refine ⟨w, x * 1000, ⟨hsupported.1, hsupported.2, t / 86400 + 7, ?_⟩, ?_⟩
  · rw [hdateOf]
    have hnext : (t / 86400 + 7) * 86400 / 86400 = t / 86400 + 7 := by omega
    have hreading : Z.Reading ((t / 86400 + 7) * 86400) _ := Or.inl rfl
    have hfires := firesOn_weekly (by rw [hnext, ← hw]; unfold weekday; omega) (by omega) hreading
    rw [hnext] at hfires
    have hnext := hreading.near
    unfold MAX_SCAN_DAYS
    refine ⟨by omega, by omega, by omega, _, hfires, ?_⟩
    omega
  · rintro ⟨q, hq, -, hleast⟩
    have hle : q ≤ r * 1000 := by
      refine hleast ⟨⟨t / 86400, ?_, firesOn_weekly hw ht hr⟩, ?_⟩
      · unfold Supported
        omega
      · show x * 1000 < r * 1000
        omega
    rw [nextAfter, if_pos hsupported] at hq
    obtain ⟨e, he, -, -, hfires, -⟩ := firesOn_of_scan hq
    -- the date that was found has the day of the week of `t`, and is after it
    have hweek : weekday e = weekday (t / 86400) := by
      have := dateMatches_weekly.1 hfires.1
      unfold weekday at *
      omega
    rw [weekday_eq_iff] at hweek
    rw [hdateOf] at he
    obtain ⟨t', r', rfl, -, hr', rfl⟩ := hfires.reading
    have := hr'.near
    omega

end Crontab

/-- The changes of a zone are a week apart, and a month inside the calendar. -/
structure Settled (Z : TimeZone) : Prop where
  spaced : Z.Spaced
  inside : ∀ c ∈ Z.changes,
    (MIN_DATE + 30) * 86400 ≤ c.instant ∧ c.instant ≤ (MAX_DATE - 30) * 86400

/-- `next_after` is the least later fire instant, for every crontab and slot, in a zone that keeps
its dates in order. Where the changes of the zone are apart from each other these are exactly the
zones in which no change reaches over midnight. -/
theorem crontab_finds_least_iff (Z : TimeZone) :
    (Z.Ordered → ∀ S : Crontab, S.tz = Z → ∀ slot, S.InRange slot → S.FindsLeast slot) ∧
      (Settled Z →
        ((∀ S : Crontab, S.tz = Z → ∀ slot, S.InRange slot → S.FindsLeast slot) ↔
          ∀ c ∈ Z.changes, c.KeepsMidnight)) := by
  refine ⟨?_, fun hZ => ⟨fun hall c hc => ?_, fun hkeeps => ?_⟩⟩
  · rintro hZ S rfl slot hslot
    exact Crontab.findsLeast_of_ordered hZ hslot
  · by_contra hk
    obtain ⟨t, r, x, ht, hr, hdate, hlt, hlo, hhi⟩ :=
      TimeZone.exists_late_reading hZ.spaced hc hk
    have hinside := hZ.inside c hc
    obtain ⟨w, slot, hslot, hwrong⟩ :=
      Crontab.exists_not_findsLeast ht hr hdate hlt (by omega) (by omega)
    exact hwrong (hall (Crontab.weekly Z w) rfl slot hslot)
  · rintro S rfl slot hslot
    exact Crontab.findsLeast_of_ordered (TimeZone.ordered_of_keepsMidnight hZ.spaced hkeeps) hslot

/-- Summer time of 2024 in Berlin. -/
def berlin : TimeZone where
  base := 3600
  table := [(1711846800, 7200), (1729990800, 3600)]
  bounded := by
    unfold TimeZone.Change.Bounded
    decide
  base_bounded := by decide
  sorted := by decide

theorem crontab_finds_least_in_berlin :
    ∀ S : Crontab, S.tz = berlin → ∀ slot, S.InRange slot → S.FindsLeast slot := by
  have hspaced : berlin.Spaced := by decide
  have hinside : ∀ c ∈ berlin.changes,
      (MIN_DATE + 30) * 86400 ≤ c.instant ∧ c.instant ≤ (MAX_DATE - 30) * 86400 := by decide
  exact ((crontab_finds_least_iff berlin).2 ⟨hspaced, hinside⟩).2 (by decide)

/-- Summer time of 2024 in Nuuk, which skips the hour before midnight. -/
def nuuk : TimeZone where
  base := -7200
  table := [(1711846800, -3600)]
  bounded := by
    unfold TimeZone.Change.Bounded
    decide
  base_bounded := by decide
  sorted := by decide

/-- `30 23 * * *` in Nuuk. -/
def nuukNightly : Crontab where
  minute := .int 30
  hour := .int 23
  dayOfMonth := .str ['*']
  month := .str ['*']
  dayOfWeek := .str ['*']
  tz := nuuk
  minuteExpr := ['3', '0']
  hourExpr := ['2', '3']
  domExpr := ['*']
  dowExpr := ['*']
  minutes := {30}
  hours := {23}
  doms := (Finset.range 32).erase 0
  months := (Finset.range 13).erase 0
  dows := Finset.range 7
  minuteExpr_eq := by decide +kernel
  hourExpr_eq := by decide +kernel
  domExpr_eq := rfl
  dowExpr_eq := rfl
  minutes_eq := by decide +kernel
  hours_eq := by decide +kernel
  doms_eq := by decide +kernel
  months_eq := by decide +kernel
  dows_eq := Crontab.parseField_star_dow

/-- The slot of 30 March is at 00:30 of the next date. Asked at 00:05 for the next slot, the scan
starts with 31 March and misses it. -/
theorem nuuk_nightly_missed :
    nuukNightly.nextAfter 1711847100000 = .ok 1711931400000 ∧
      nuukNightly.InRange 1711847100000 ∧ nuukNightly.Fires 1711848600000 ∧
      ¬nuukNightly.FindsLeast 1711847100000 := by
  have hnext : nuukNightly.nextAfter 1711847100000 = .ok 1711931400000 := by decide +kernel
  have hfires : nuukNightly.FiresOn 19812 1711848600000 :=
    ⟨by decide +kernel, (23, 30), by decide +kernel, Or.inl (by decide +kernel)⟩
  have hlater : nuukNightly.FiresOn 19813 1711931400000 :=
    ⟨by decide +kernel, (23, 30), by decide +kernel, Or.inl (by decide +kernel)⟩
  refine ⟨hnext, ?_, ⟨19812, by decide, hfires⟩, ?_⟩
  · exact ⟨by decide, by decide +kernel, 19813, by decide +kernel, by decide +kernel, by decide, _,
      hlater, by decide⟩
  · rintro ⟨r, hr, -, hleast⟩
    obtain rfl : 1711931400000 = r := Except.ok.inj (hnext.symm.trans hr)
    have hle := hleast ⟨⟨19812, by decide, hfires⟩, by decide⟩
    exact absurd hle (by decide)

end Cauli
