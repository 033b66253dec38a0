import Cauli.Lib.Stepping
import Cauli.Beat.Model
import Mathlib.Order.Interval.Finset.Defs
import Mathlib.Data.Int.Interval
import Mathlib.Data.Int.ModEq

/-!
# Fast forward (`py/cauli/schedules.py`, `py/cauli/beat.py`)

The chain of a slot is the slot, its `next_after`, the `next_after` of that, and so on. A fast
forward steps along it past `now`: by stepping, for a crontab; by a jump to `next_after(now)` once
ten thousand slots have been passed; by a closed form, for an interval. Beat fast forwards once to
find the slot after `now`, and once more, to a clock put back by the lateness that is allowed, to
find out whether the newest missed slot is too late.

* `fastForward_eq_some_iff`, `fastForward_eq_none_iff`: the loop and its jump;
* `stepped_interval_iff`: the closed form;
* `advance_past_with_missed_exact`: all three agree with unlimited stepping;
* `suppress_eq`: what the second fast forward finds out;
* `skip_judged_on_newest`: which firings are skipped.
-/

namespace Cauli

/-! ### The loop -/

section Loop

variable {next : ℤ → Option ℤ} {now prev nxt r : ℤ} {left k m : ℕ}

/-- The loop, entered with the slot after `prev`: within its bound it is plain stepping. -/
theorem fastForward_eq_some_iff (hnxt : next prev = some nxt) (hleft : left ≤ MAX_ADVANCE_STEPS) :
    fastForward next now left nxt = some (r, some k) ↔
      ∃ m ≤ left, Stepped next now prev m r ∧ k = MAX_ADVANCE_STEPS - left + m := by
  induction left generalizing prev nxt with
  | zero =>
    rw [fastForward]
    split_ifs with hnow
    · constructor
      · intro h
        obtain ⟨z, -, hz⟩ := Option.map_eq_some_iff.1 h
        cases hz
      · rintro ⟨m, hm, hstepped, -⟩
        obtain ⟨m', rfl, -⟩ := (stepped_of_le hnxt hnow).1 hstepped
        exact absurd hm (by omega)
    · simp [stepped_of_lt hnxt (not_le.1 hnow), eq_comm]
  | succ left ih =>
    rw [fastForward]
    split_ifs with hnow
    · rw [Option.bind_eq_some_iff]
      constructor
      · rintro ⟨z, hz, h⟩
        obtain ⟨m, hm, hstepped, rfl⟩ := (ih hz (by omega)).1 h
        exact ⟨m + 1, by omega, .step hnxt hnow hstepped, by omega⟩
      · rintro ⟨m, hm, hstepped, rfl⟩
        obtain ⟨m', rfl, hrest⟩ := (stepped_of_le hnxt hnow).1 hstepped
        obtain ⟨z, hz⟩ := hrest.exists_next
        exact ⟨z, hz, (ih hz (by omega)).2 ⟨m', by omega, hrest, by omega⟩⟩
    · simp [stepped_of_lt hnxt (not_le.1 hnow), eq_comm]

/-- The jump, where `next_after` gives the least later fire instant. -/
theorem fastForward_eq_none_iff {F : Set ℤ} (hnxt : next prev = some nxt) (hprev : prev ≤ nxt)
    (hleast : ∀ x, prev ≤ x → x ≤ now → LeastAfter F x (next x)) :
    fastForward next now left nxt = some (r, none) ↔
      ∃ m, left < m ∧ Stepped next now prev m r := by
  induction left generalizing prev nxt with
  | zero =>
    rw [fastForward]
    split_ifs with hnow
    · have hjump : (next now).map (fun z => (z, (none : Option ℕ))) = some (r, none) ↔
          next now = some r := by
        cases next now <;> simp
      rw [hjump, ← exists_stepped_iff hnow fun x hx => hleast x (hprev.trans hx)]
      constructor
      · rintro ⟨m, hstepped⟩
        exact ⟨m + 1, by omega, .step hnxt hnow hstepped⟩
      · rintro ⟨m, -, hstepped⟩
        obtain ⟨m', rfl, hrest⟩ := (stepped_of_le hnxt hnow).1 hstepped
        exact ⟨m', hrest⟩
    · simp [stepped_of_lt hnxt (not_le.1 hnow)]
  | succ left ih =>
    rw [fastForward]
    split_ifs with hnow
    · rw [Option.bind_eq_some_iff]
      have hleast' : ∀ x, nxt ≤ x → x ≤ now → LeastAfter F x (next x) :=
        fun x hx => hleast x (hprev.trans hx)
      have hrise : ∀ z, next nxt = some z → nxt ≤ z := by
        intro z hz
        have hlater := hleast' nxt le_rfl hnow
        rw [hz] at hlater
        exact hlater.1.2.le
      constructor
      · rintro ⟨z, hz, h⟩
        obtain ⟨m, hm, hstepped⟩ := (ih hz (hrise z hz) hleast').1 h
        exact ⟨m + 1, by omega, .step hnxt hnow hstepped⟩
      · rintro ⟨m, hm, hstepped⟩
        obtain ⟨m', rfl, hrest⟩ := (stepped_of_le hnxt hnow).1 hstepped
        obtain ⟨z, hz⟩ := hrest.exists_next
        exact ⟨z, hz, (ih hz (hrise z hz) hleast').2 ⟨m', by omega, hrest⟩⟩
    · simp [stepped_of_lt hnxt (not_le.1 hnow)]

/-- A loop that ends past `now` ends past every earlier clock too, or has passed more slots than its
bound and asks for the slot after that clock. -/
theorem fastForward_of_le {x : ℤ} (hlater : ∀ {x z}, next x = some z → x < z) (hnxt : next prev = some nxt) (hle : x ≤ now)
    (h : (fastForward next now left nxt).isSome) :
    (∃ r k, fastForward next x left nxt = some (r, some k)) ∨
      left < {z | OnChain next prev z ∧ prev < z ∧ z ≤ x}.ncard ∧
        fastForward next x left nxt = (next x).map fun z => (z, none) := by
  have hfinite (y : ℤ) : {z | OnChain next y z ∧ y < z ∧ z ≤ x}.Finite :=
    (Set.finite_Ioc y x).subset fun z hz => ⟨hz.2.1, hz.2.2⟩
  induction left generalizing prev nxt with
  | zero =>
    rw [fastForward]
    split_ifs with hx
    · exact .inr ⟨(Set.ncard_pos (hfinite prev)).2 ⟨nxt, .single hnxt, hlater hnxt, hx⟩, rfl⟩
    · exact .inl ⟨_, _, rfl⟩
  | succ left ih =>
    rw [fastForward] at h ⊢
    split_ifs with hx
    · rw [if_pos (hx.trans hle)] at h
      obtain ⟨z, hz⟩ : ∃ z, next nxt = some z := by
        cases hnone : next nxt with
        | none => simp [hnone] at h
        | some z => exact ⟨z, rfl⟩
      rw [hz, Option.bind_some] at h ⊢
      refine (ih hz h).imp_right fun hmany => ⟨?_, hmany.2⟩
      have hcount := hmany.1
      -- the slots after `nxt`, and `nxt`
      have hsub : insert nxt {z | OnChain next nxt z ∧ nxt < z ∧ z ≤ x} ⊆
          {z | OnChain next prev z ∧ prev < z ∧ z ≤ x} := by
        rintro w (rfl | ⟨hw, hlt, hwx⟩)
        · exact ⟨.single hnxt, hlater hnxt, hx⟩
        · exact ⟨.of_next hnxt hw, (hlater hnxt).trans hlt, hwx⟩
      have hnot : nxt ∉ {z | OnChain next nxt z ∧ nxt < z ∧ z ≤ x} := fun hw => lt_irrefl _ hw.2.1
      have hncard := Set.ncard_le_ncard hsub (hfinite prev)
      rw [Set.ncard_insert_of_notMem hnot (hfinite nxt)] at hncard
      omega
    · exact .inl ⟨_, _, rfl⟩

end Loop

/-! ### All three computations -/

/-- Stepping along an interval. -/
theorem stepped_interval_iff {everyMs : ℤ} (pos : 0 < everyMs) {now slot r : ℤ} {m : ℕ} :
    Stepped (Schedule.interval everyMs pos).nextAfter now slot m r ↔
      r = slot + (m + 1) * everyMs ∧ now < r ∧ (m = 0 ∨ slot + m * everyMs ≤ now) := by
  have hnext (x : ℤ) : (Schedule.interval everyMs pos).nextAfter x = some (x + everyMs) := rfl
  induction m generalizing slot with
  | zero =>
    by_cases hle : slot + everyMs ≤ now
    · rw [stepped_of_le (hnext slot) hle]
      constructor
      · rintro ⟨m', hm, -⟩
        exact absurd hm (by omega)
      · rintro ⟨rfl, hlt, -⟩
        push_cast at hlt
        exact absurd hlt (by omega)
    · rw [stepped_of_lt (hnext slot) (not_le.1 hle), Nat.cast_zero]
      constructor
      · rintro ⟨-, rfl⟩
        exact ⟨by ring, not_le.1 hle, .inl rfl⟩
      · rintro ⟨rfl, -, -⟩
        exact ⟨rfl, by ring⟩
  | succ m ih =>
    have hshift : slot + everyMs + (m + 1) * everyMs = slot + ((m + 1 : ℕ) + 1) * everyMs := by
      push_cast
      ring
    have hshift' : slot + everyMs + m * everyMs = slot + (m + 1 : ℕ) * everyMs := by
      push_cast
      ring
    have hnonneg : 0 ≤ m * everyMs := by positivity
    by_cases hle : slot + everyMs ≤ now
    · rw [stepped_of_le (hnext slot) hle]
      constructor
      · rintro ⟨m', hm, hrest⟩
        obtain rfl : m = m' := by omega
        obtain ⟨hr, hlt, hm⟩ := ih.1 hrest
        refine ⟨hr.trans hshift, hlt, .inr ?_⟩
        rcases hm with rfl | hm
        · rw [← hshift']
          simpa using hle
        · rwa [← hshift']
      · rintro ⟨hr, hlt, hm⟩
        refine ⟨m, rfl, ih.2 ⟨hr.trans hshift.symm, hlt, .inr ?_⟩⟩
        rw [hshift']
        exact hm.resolve_left (by omega)
    · rw [stepped_of_lt (hnext slot) (not_le.1 hle)]
      constructor
      · rintro ⟨hm, -⟩
        exact absurd hm (by omega)
      · rintro ⟨-, -, hm⟩
        have hm := hm.resolve_left (by omega)
        exact absurd hm (by omega)

/-- The closed form of an interval is stepping without a limit. -/
theorem advancePastWithMissed_interval {everyMs : ℤ} (pos : 0 < everyMs) (slot now : ℤ) :
    ∃ m r, (Schedule.interval everyMs pos).advancePastWithMissed slot now = some (r, some m) ∧
      Stepped (Schedule.interval everyMs pos).nextAfter now slot m r := by
  simp only [Schedule.advancePastWithMissed]
  split_ifs with hnow
  · refine ⟨0, _, rfl, (stepped_interval_iff pos).2 ⟨?_, ?_, .inl rfl⟩⟩
    · push_cast
      ring
    · omega
  · have hle : slot ≤ now := not_lt.1 hnow
    obtain ⟨n, hn⟩ := Int.eq_ofNat_of_zero_le (Int.ediv_nonneg (sub_nonneg.2 hle) pos.le)
    have hlt := Int.lt_ediv_add_one_mul_self (now - slot) pos
    have hmul := Int.ediv_mul_le (now - slot) pos.ne'
    rw [hn] at hlt hmul ⊢
    refine ⟨n, _, ?_, (stepped_interval_iff pos).2 ⟨rfl, ?_, .inr ?_⟩⟩
    · simp
    · omega
    · omega

/-- A crontab has passed more slots than its step bound. -/
def Schedule.Jumps (s : Schedule) (slot now : ℤ) : Prop :=
  ∃ c, s = .crontab c ∧
    MAX_ADVANCE_STEPS < {z | OnChain c.nextAfter slot z ∧ slot < z ∧ z ≤ now}.ncard

/-- The count that is returned for `m` missed slots: a crontab stops counting at its step bound. -/
def Schedule.reported : Schedule → ℕ → Option ℕ
  | interval _ _, m => some m
  | crontab _, m => if m ≤ MAX_ADVANCE_STEPS then some m else none

theorem advancePastWithMissed_crontab (c : CrontabSchedule) {F : Set ℤ} {slot now : ℤ}
    (hleast : (Schedule.crontab c).Jumps slot now →
      ∀ x, slot ≤ x → x ≤ now → LeastAfter F x (c.nextAfter x)) (r : ℤ)
    (missed : Option ℕ) :
    (Schedule.crontab c).advancePastWithMissed slot now = some (r, missed) ↔
      ∃ m, Stepped c.nextAfter now slot m r ∧ missed = (Schedule.crontab c).reported m := by
  simp only [Schedule.advancePastWithMissed, Schedule.reported, Option.bind_eq_some_iff]
  constructor
  · rintro ⟨nxt, hnxt, h⟩
    cases missed with
    | some k =>
      obtain ⟨m, hm, hstepped, rfl⟩ := (fastForward_eq_some_iff hnxt le_rfl).1 h
      refine ⟨m, hstepped, ?_⟩
      rw [if_pos hm]
      congr 1
      omega
    | none =>
      have hjumps : (Schedule.crontab c).Jumps slot now := by
        rcases fastForward_of_le c.later hnxt le_rfl (by rw [h]; rfl) with ⟨r', k, heq⟩ | ⟨hcount, -⟩
        · rw [h] at heq
          cases heq
        · exact ⟨c, rfl, hcount⟩
      obtain ⟨m, hm, hstepped⟩ :=
        (fastForward_eq_none_iff hnxt (c.later hnxt).le (hleast hjumps)).1 h
      exact ⟨m, hstepped, by rw [if_neg (by omega)]⟩
  · rintro ⟨m, hstepped, rfl⟩
    obtain ⟨nxt, hnxt⟩ := hstepped.exists_next
    refine ⟨nxt, hnxt, ?_⟩
    split_ifs with hm
    · exact (fastForward_eq_some_iff hnxt le_rfl).2 ⟨m, hm, hstepped, by omega⟩
    · have hjumps : (Schedule.crontab c).Jumps slot now := by
        refine ⟨c, rfl, ?_⟩
        rw [(hstepped.finite_and_ncard_eq c.later).2]
        omega
      exact (fastForward_eq_none_iff hnxt (c.later hnxt).le (hleast hjumps)).2 ⟨m, by omega, hstepped⟩

/-- **A fast forward is exact**: it returns what stepping without a limit returns, with the count
left out for a crontab that has passed more than ten thousand slots; the slot is the least one of
the chain after `slot` and after `now`, the count is the number of slots of the chain in between, and
an interval keeps its phase. Where a crontab jumps, this needs that its `next_after` is the least later
fire instant, or raises when there is none. -/
theorem advance_past_with_missed_exact (s : Schedule) (slot now : ℤ) (F : Set ℤ)
    (hleast : s.Jumps slot now → ∀ x, slot ≤ x → x ≤ now → LeastAfter F x (s.nextAfter x)) :
    (∀ r missed, s.advancePastWithMissed slot now = some (r, missed) ↔
      ∃ m, Stepped s.nextAfter now slot m r ∧ missed = s.reported m) ∧
    (∀ m r, Stepped s.nextAfter now slot m r →
      IsLeast {z | OnChain s.nextAfter slot z ∧ slot < z ∧ now < z} r ∧
      {z | OnChain s.nextAfter slot z ∧ slot < z ∧ z ≤ now}.ncard = m) ∧
    ∀ everyMs pos, s = .interval everyMs pos →
      ∃ r m, s.advancePastWithMissed slot now = some (r, some m) ∧ r ≡ slot [ZMOD everyMs] := by
  refine ⟨?_, fun m r h => ?_, ?_⟩
  · cases s with
    | interval everyMs pos =>
      intro r missed
      obtain ⟨m, r', hadvance, hstepped⟩ := advancePastWithMissed_interval pos slot now
      rw [hadvance]
      constructor
      · intro h
        cases h
        exact ⟨m, hstepped, rfl⟩
      · rintro ⟨m', hstepped', rfl⟩
        obtain ⟨rfl, rfl⟩ := hstepped.unique hstepped'
        rfl
    | crontab c => exact advancePastWithMissed_crontab c hleast
  · have hlater : ∀ {x z}, s.nextAfter x = some z → x < z := fun h => lt_of_nextAfter h
    exact ⟨h.isLeast hlater, (h.finite_and_ncard_eq hlater).2⟩
  · rintro everyMs pos rfl
    obtain ⟨m, r, hadvance, hstepped⟩ := advancePastWithMissed_interval pos slot now
    refine ⟨r, m, hadvance, ?_⟩
    rw [((stepped_interval_iff pos).1 hstepped).1, Int.modEq_iff_dvd]
    exact ⟨-(m + 1), by ring⟩

theorem everyMinute_leastAfter (x : ℤ) :
    LeastAfter {t | 60_000 ∣ t} x (everyMinute.nextAfter x) := by
  refine ⟨⟨⟨x / 60000 + 1, by ring⟩, by show x < (x / 60000 + 1) * 60000; omega⟩, ?_⟩
  rintro y ⟨⟨k, rfl⟩, hlt⟩
  omega

theorem advance_past_with_missed_exact_minutely :
    ∃ m, Stepped (Schedule.crontab everyMinute).nextAfter 150000 0 m 180000 ∧
      some 2 = (Schedule.crontab everyMinute).reported m := by
  refine ((advance_past_with_missed_exact (.crontab everyMinute) 0 150000 {t | 60_000 ∣ t} ?_).1
    180000 (some 2)).1 (by decide)
  exact fun _ x _ _ => everyMinute_leastAfter x

/-! ### The newest missed slot -/

/-- A fast forward steps along the chain, or jumps. -/
theorem stepped_or_jumps {s : Schedule} {slot now r : ℤ} {missed : Option ℕ}
    (h : s.advancePastWithMissed slot now = some (r, missed)) :
    (¬s.Jumps slot now ∧ ∃ m, Stepped s.nextAfter now slot m r) ∨
      s.Jumps slot now ∧ s.nextAfter now = some r := by
  cases s with
  | interval everyMs pos =>
    obtain ⟨m, r', hadvance, hstepped⟩ := advancePastWithMissed_interval pos slot now
    rw [hadvance] at h
    cases h
    refine .inl ⟨?_, m, hstepped⟩
    rintro ⟨c, hc, -⟩
    cases hc
  | crontab c =>
    obtain ⟨nxt, hnxt, h⟩ := Option.bind_eq_some_iff.1 h
    cases missed with
    | some k =>
      obtain ⟨m, hm, hstepped, -⟩ := (fastForward_eq_some_iff hnxt le_rfl).1 h
      refine .inl ⟨?_, m, hstepped⟩
      rintro ⟨c', hc, hcount⟩
      cases hc
      rw [(hstepped.finite_and_ncard_eq c.later).2] at hcount
      omega
    | none =>
      have hsome : (fastForward c.nextAfter now MAX_ADVANCE_STEPS nxt).isSome := by
        rw [h]
        rfl
      rcases fastForward_of_le c.later hnxt le_rfl hsome with ⟨r', k, heq⟩ | ⟨hcount, heq⟩
      · rw [h] at heq
        cases heq
      · rw [h] at heq
        obtain ⟨z, hz, hr⟩ := Option.map_eq_some_iff.1 heq.symm
        cases hr
        exact .inr ⟨⟨c, rfl, hcount⟩, hz⟩

/-- A fast forward past `now` has a fast forward past every earlier clock, up to the jump. -/
theorem advancePast_isSome_of_le {s : Schedule} {slot now x : ℤ} (hx : x ≤ now)
    (h : (s.advancePastWithMissed slot now).isSome)
    (hleast : s.Jumps slot x → ∃ F, ∀ y, slot ≤ y → y ≤ now → LeastAfter F y (s.nextAfter y)) :
    (s.advancePast slot x).isSome := by
  rw [Schedule.advancePast, Option.isSome_map]
  cases s with
  | interval everyMs pos =>
    obtain ⟨m, r, hadvance, -⟩ := advancePastWithMissed_interval pos slot x
    rw [hadvance]
    rfl
  | crontab c =>
    obtain ⟨⟨r, missed⟩, hadvance⟩ := Option.isSome_iff_exists.1 h
    by_cases hjumps : (Schedule.crontab c).Jumps slot x
    · obtain ⟨F, hF⟩ := hleast hjumps
      obtain ⟨m, hstepped, -⟩ := (advancePastWithMissed_crontab c (fun _ => hF) r missed).1 hadvance
      obtain ⟨m', r', hstepped'⟩ := hstepped.of_le hx
      have hF' : ∀ y, slot ≤ y → y ≤ x → LeastAfter F y (c.nextAfter y) :=
        fun y hy hyx => hF y hy (hyx.trans hx)
      rw [(advancePastWithMissed_crontab c (fun _ => hF') r' _).2 ⟨m', hstepped', rfl⟩]
      rfl
    · obtain ⟨nxt, hnxt, hforward⟩ := Option.bind_eq_some_iff.1 hadvance
      have hsome : (fastForward c.nextAfter now MAX_ADVANCE_STEPS nxt).isSome := by
        rw [hforward]
        rfl
      rw [Schedule.advancePastWithMissed, hnxt, Option.bind_some]
      rcases fastForward_of_le c.later hnxt hx hsome with ⟨r', k, heq⟩ | ⟨hcount, -⟩
      · rw [heq]
        rfl
      · exact absurd ⟨c, rfl, hcount⟩ hjumps

/-- Every slot of the chain up to `now` is more than `maxLateness` late. -/
def AllLate (s : Schedule) (slot now : ℤ) (maxLateness : ℕ) : Prop :=
  ∀ z, OnChain s.nextAfter slot z → z ≤ now → maxLateness < now - z

/-- The slot that stepping finds past a clock that is put back is past `now` exactly when every slot
of the chain is too late. -/
theorem lt_iff_allLate {s : Schedule} {slot now r : ℤ} {maxLateness m : ℕ}
    (hslot : maxLateness < now - slot)
    (h : Stepped s.nextAfter (now - maxLateness - 1) slot m r) :
    now < r ↔ AllLate s slot now maxLateness := by
  obtain ⟨⟨hchain, -, hpast⟩, hleast⟩ := h.isLeast fun h => lt_of_nextAfter h
  constructor
  · intro hr z hz hle
    by_contra hlate
    -- a slot that is not too late is after the clock, so the one that was found is not after it
    have hlt : slot < z := by omega
    have hrz := hleast ⟨hz, hlt, by omega⟩
    omega
  · intro hall
    by_contra hle
    have := hall r hchain (not_lt.1 hle)
    omega

/-- The second fast forward of `_fire`, to a clock that is put back by the lateness allowed. -/
theorem advancePast_lt_iff {s : Schedule} {slot now z : ℤ} {maxLateness : ℕ}
    (hslot : maxLateness < now - slot) (h : s.advancePast slot (now - maxLateness - 1) = some z)
    (hleast : s.Jumps slot (now - maxLateness - 1) →
      ∃ F, ∀ x, slot ≤ x → x ≤ now → LeastAfter F x (s.nextAfter x)) :
    now < z ↔ AllLate s slot now maxLateness := by
  obtain ⟨⟨r, missed⟩, hadvance, rfl⟩ := Option.map_eq_some_iff.1 h
  rcases stepped_or_jumps hadvance with ⟨-, m, hstepped⟩ | ⟨hjumps, hnext⟩
  · exact lt_iff_allLate hslot hstepped
  · obtain ⟨F, hF⟩ := hleast hjumps
    have hF' : ∀ x, slot ≤ x → x ≤ now - maxLateness - 1 → LeastAfter F x (s.nextAfter x) :=
      fun x hx hle => hF x hx (by omega)
    obtain ⟨m, hstepped⟩ := (exists_stepped_iff (by omega) hF').2 hnext
    exact lt_iff_allLate hslot hstepped

/-- Which due slots `_fire` skips. -/
theorem suppress_eq (e : ScheduleEntry) {slot now : ℤ}
    (hadvance : (e.schedule.advancePastWithMissed slot now).isSome)
    (hlateness : e.onMissed = .skip → e.maxLatenessMs.isSome)
    (hleast : ∀ maxLateness : ℕ, e.maxLatenessMs = some (some maxLateness) →
      e.schedule.Jumps slot (now - maxLateness - 1) →
      ∃ F, ∀ x, slot ≤ x → x ≤ now → LeastAfter F x (e.schedule.nextAfter x)) :
    ∃ b, suppress e slot now = some b ∧
      (b = true ↔ e.onMissed = .skip ∧ ∃ maxLateness : ℕ, e.maxLatenessMs = some (some maxLateness) ∧
        maxLateness < now - slot ∧ AllLate e.schedule slot now maxLateness) := by
  unfold suppress
  cases hmissed : e.onMissed with
  | fireOnce => exact ⟨false, by simp⟩
  | skip =>
    obtain ⟨bound, hmax⟩ := Option.isSome_iff_exists.1 (hlateness hmissed)
    rw [hmax]
    cases bound with
    | none => exact ⟨false, by simp⟩
    | some maxLateness =>
      dsimp only
      by_cases hlate : (maxLateness : ℤ) < now - slot
      · rw [if_pos hlate]
        have hsome := advancePast_isSome_of_le (x := now - maxLateness - 1) (by omega) hadvance
          (hleast maxLateness hmax)
        obtain ⟨z, hz⟩ := Option.isSome_iff_exists.1 hsome
        refine ⟨decide (now < z), by rw [hz]; rfl, ?_⟩
        rw [decide_eq_true_eq, advancePast_lt_iff hlate hz (hleast maxLateness hmax)]
        constructor
        · exact fun hall => ⟨rfl, maxLateness, rfl, hlate, hall⟩
        · rintro ⟨-, _, heq, -, hall⟩
          cases heq
          exact hall
      · rw [if_neg hlate]
        refine ⟨false, rfl, ?_⟩
        simp only [Bool.false_eq_true, true_and, false_iff]
        rintro ⟨_, heq, hlate', -⟩
        cases heq
        exact hlate hlate'

/-- What `_fire` passes to the claim script when it raises nothing on the way. -/
theorem fireArgs_spec {r : ℕ} {e : ScheduleEntry} {slot now next : ℤ} {missed : Option ℕ}
    {b : Bool} (built : Built) (hadvance : e.schedule.advancePastWithMissed slot now = some (next, missed))
    (hsuppress : suppress e slot now = some b) :
    ∃ c, fireArgs r e slot now (some built) = some c ∧ c.name = e.name ∧ c.expected = slot ∧
      c.next = next ∧ (c.mode = .none ↔ b = true) := by
  obtain ⟨id, fireAt⟩ := built
  unfold fireArgs
  rw [hadvance, hsuppress]
  cases b with
  | true => exact ⟨_, rfl, rfl, rfl, rfl, by simp⟩
  | false =>
    refine ⟨_, rfl, rfl, rfl, rfl, ?_⟩
    cases fireAt <;> simp

/-- A claim that finds its slot moves it. -/
theorem lookup_claimAndPublish {c : Claim} {s : Store}
    (h : s.due.lookup c.name = some (slotScore c.expected)) :
    (claimAndPublish none c s).due.lookup c.name = some (slotScore c.next) := by
  rw [claimAndPublish, if_pos h, runWrites, Claim.writes]
  cases c.mode <;> simp [BeatWrite.apply, AList.lookup_insert]

/-- `_fire` makes a claim that moves the entry past `now`, without a publish exactly when the entry
skips, has a `max_lateness`, and the slot and every slot of its chain up to `now` are later than
that. -/
def JudgedOnNewest (r : ℕ) (e : ScheduleEntry) (slot now : ℤ) (built : Built) : Prop :=
  ∃ c, fireArgs r e slot now (some built) = some c ∧
    (c.mode = .none ↔ e.onMissed = .skip ∧
      ∃ maxLateness : ℕ, e.maxLatenessMs = some (some maxLateness) ∧
        ∀ z, OnChain e.schedule.nextAfter slot z → z = slot ∨ slot < z ∧ z ≤ now →
          maxLateness < now - z) ∧
    now < c.next ∧
    ∀ s : Store, s.due.lookup e.name = some (slotScore slot) →
      (claimAndPublish none c s).due.lookup e.name = some (slotScore c.next)

/-- **The skip policy** of a due slot whose schedule can be advanced past `now`, for an entry whose
`max_lateness_ms` does not raise. Where the second fast forward jumps, it needs that `next_after` is the
least later fire instant. -/
theorem skip_judged_on_newest (r : ℕ) (e : ScheduleEntry) {slot now : ℤ} (built : Built)
    (hadvance : (e.schedule.advancePastWithMissed slot now).isSome)
    (hlateness : e.onMissed = .skip → e.maxLatenessMs.isSome)
    (hleast : ∀ maxLateness : ℕ, e.maxLatenessMs = some (some maxLateness) →
      e.schedule.Jumps slot (now - maxLateness - 1) →
      ∃ F, ∀ x, slot ≤ x → x ≤ now → LeastAfter F x (e.schedule.nextAfter x)) :
    JudgedOnNewest r e slot now built := by
  obtain ⟨⟨next, missed⟩, hadvance'⟩ := Option.isSome_iff_exists.1 hadvance
  obtain ⟨b, hsuppress, hb⟩ := suppress_eq e hadvance hlateness hleast
  obtain ⟨c, hc, hname, hexpected, hnext, hmode⟩ := fireArgs_spec (r := r) built hadvance' hsuppress
  refine ⟨c, hc, ?_, ?_, ?_⟩
  · rw [hmode, hb]
    refine and_congr_right fun _ => exists_congr fun maxLateness => and_congr_right fun _ => ?_
    constructor
    · rintro ⟨hslot, hall⟩ z hz (rfl | ⟨-, hle⟩)
      · exact hslot
      · exact hall z hz hle
    · intro hall
      have hslot := hall slot .refl (.inl rfl)
      refine ⟨hslot, fun z hz hle => ?_⟩
      rcases (hz.le fun h => lt_of_nextAfter h).eq_or_lt with rfl | hlt
      · exact hslot
      · exact hall z hz (.inr ⟨hlt, hle⟩)
  · rw [hnext]
    exact (lt_of_advancePast hadvance').2
  · intro s hs
    rw [← hname] at hs ⊢
    rw [← hexpected] at hs
    exact lookup_claimAndPublish hs

/-- Every minute, skipped when more than 90 seconds late. -/
def pollEntry : ScheduleEntry :=
  { name := "poll", task := "jobs.poll", schedule := .crontab everyMinute
    onMissed := .skip, maxLateness := some ⟨.finite 90, by rfl⟩ }

/-- The slot of 0 s is 150 s late, but that of 120 s is not too late, so it fires. -/
theorem skip_judged_on_newest_minutely :
    JudgedOnNewest 0 pollEntry 0 150000 ⟨"1", none⟩ ∧
      suppress pollEntry 0 150000 = some false := by
  have hlateness : pollEntry.maxLatenessMs = some (some 90000) := by decide +kernel
  refine ⟨skip_judged_on_newest 0 pollEntry ⟨"1", none⟩ (by decide) (fun _ => by rw [hlateness]; rfl)
    fun _ _ _ => ?_, by decide +kernel⟩
  exact ⟨{t | 60_000 ∣ t}, fun x _ _ => everyMinute_leastAfter x⟩

/-- `0 0 30 2 *`, which has no slot, in an entry that skips late slots. -/
def february30 : ScheduleEntry where
  name := "february"
  task := "jobs.close"
  schedule := .crontab {
    minuteExpr := "0"
    hourExpr := "0"
    domExpr := "30"
    monthExpr := "2"
    dowExpr := "*"
    timezone := "UTC"
    nextAfter := fun _ => none
    later := nofun
    found := nofun }
  onMissed := .skip
  maxLateness := some ⟨.finite 0, by rfl⟩

/-- A slot that was left from an earlier definition of the entry is too late, but the schedule cannot
be advanced, so `_fire` returns without a claim. -/
theorem february30_not_claimed :
    fireArgs 0 february30 0 1000 (some ⟨"1", none⟩) = none ∧
      ¬JudgedOnNewest 0 february30 0 1000 ⟨"1", none⟩ := by
  refine ⟨rfl, ?_⟩
  rintro ⟨c, hc, -⟩
  cases hc

end Cauli
