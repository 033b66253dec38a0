import Mathlib.Algebra.Order.Round
import Mathlib.Tactic.Linarith
import Mathlib.Tactic.NormNum
import Cauli.Queue.Completion

/-!
# The delay before a retry (`worker/src/backoff.rs`, `worker/src/dispatch.rs`)

The delay grows by the factor with every attempt, up to a limit. Factors and delays are exact numbers
here, and so every delay is finite; the exponent is the attempt after its cast to `i32`.

* `asI32`, `baseBackoffMs`, `computeBackoffMs`: the functions of the source. What the random number
  generator draws for the jitter is a parameter;
* `baseBackoffMs_eq`: the smaller of the power and the limit;
* `backoff_grows_iff`: when the delay of an attempt is within its bounds and not below that of an
  earlier attempt. From attempt `2 ^ 31 + 1` on the exponent is negative.
-/

namespace Cauli

/-- The cast of a `u32` to `i32`. -/
def asI32 (n : ℕ) : ℤ := (n : ℤ).bmod (2 ^ 32)

/-- `base_backoff_ms`; a factor below 1 counts as 1. -/
def baseBackoffMs (attempt baseMs : ℕ) (factor : ℚ) (maxMs : ℕ) : ℚ :=
  let a := max attempt 1
  let d := (baseMs : ℚ) * max factor 1 ^ asI32 (a - 1)
  if (maxMs : ℚ) < d then maxMs else max d 0

/-- `compute_backoff_ms`: with jitter a delay between the half and the whole is drawn. -/
def computeBackoffMs (draw : ℚ → ℚ → ℚ) (attempt baseMs : ℕ) (factor : ℚ) (maxMs : ℕ)
    (jitter : Bool) : ℕ :=
  let d := baseBackoffMs attempt baseMs factor maxMs
  let d := if jitter = true ∧ 0 < d then draw (d / 2) d else d
  min (round d).toNat U64.max

theorem asI32_of_lt {n : ℕ} (h : n < 2 ^ 31) : asI32 n = n := by
  unfold asI32
  rw [Int.bmod_def]
  omega

theorem asI32_of_le {n : ℕ} (h : 2 ^ 31 ≤ n) (hn : n < 2 ^ 32) : asI32 n = n - 2 ^ 32 := by
  unfold asI32
  rw [Int.bmod_def]
  omega

section

variable {attempt baseMs maxMs : ℕ} {factor : ℚ}

/-- The smaller of the power and the limit. -/
theorem baseBackoffMs_eq (h : 1 ≤ attempt) :
    baseBackoffMs attempt baseMs factor maxMs =
      min ((baseMs : ℚ) * max factor 1 ^ asI32 (attempt - 1)) maxMs := by
  have hpower : (0 : ℚ) < max factor 1 ^ asI32 (attempt - 1) :=
    zpow_pos (lt_of_lt_of_le one_pos (le_max_right factor 1)) _
  have hnonneg : (0 : ℚ) ≤ baseMs * max factor 1 ^ asI32 (attempt - 1) :=
    mul_nonneg (Nat.cast_nonneg _) hpower.le
  simp only [baseBackoffMs, max_eq_left h]
  split_ifs with hlt
  · rw [min_eq_right hlt.le]
  · rw [max_eq_left hnonneg, min_eq_left (not_lt.1 hlt)]

/-- The condition under which the exponent does no harm: it is not negative, or the power does not
depend on it, or the limit is reached all the same. -/
def ExponentHarmless (attempt baseMs : ℕ) (factor : ℚ) (maxMs : ℕ) : Prop :=
  attempt ≤ 2 ^ 31 ∨ factor ≤ 1 ∨ baseMs = 0 ∨
    (maxMs : ℚ) * factor ^ (2 ^ 32 + 1 - attempt) ≤ baseMs

/-- A harmful exponent is negative, and takes the power below the base and the limit. -/
theorem power_lt_of_not_harmless (h : 1 ≤ attempt) (hu32 : attempt < 2 ^ 32)
    (hharm : ¬ExponentHarmless attempt baseMs factor maxMs) :
    (baseMs : ℚ) * max factor 1 ^ asI32 (attempt - 1) < min (baseMs : ℚ) maxMs := by
  unfold ExponentHarmless at hharm
  push Not at hharm
  obtain ⟨hattempt, hfactor, hbase, hmax⟩ := hharm
  have hpos : (0 : ℚ) < factor := one_pos.trans hfactor
  have hexponent : asI32 (attempt - 1) = -((2 ^ 32 + 1 - attempt : ℕ) : ℤ) := by
    rw [asI32_of_le (by omega) (by omega)]
    omega
  have hbase' : (0 : ℚ) < baseMs := by exact_mod_cast Nat.pos_of_ne_zero hbase
  have hpower : 1 < factor ^ (2 ^ 32 + 1 - attempt) := one_lt_pow₀ hfactor (by omega)
  rw [max_eq_left hfactor.le, hexponent, zpow_neg, zpow_natCast, ← div_eq_mul_inv]
  refine lt_min ?_ ?_
  · exact div_lt_self hbase' hpower
  · rw [div_lt_iff₀ (one_pos.trans hpower)]
    exact hmax

/-- A harmless exponent takes the power to the limit, or not below that of an earlier attempt. -/
theorem le_power_of_harmless (hu32 : attempt < 2 ^ 32)
    (hharm : ExponentHarmless attempt baseMs factor maxMs) {earlier : ℕ} (h : 1 ≤ earlier)
    (hle : earlier ≤ attempt) :
    (maxMs : ℚ) ≤ baseMs * max factor 1 ^ asI32 (attempt - 1) ∨
      (baseMs : ℚ) * max factor 1 ^ asI32 (earlier - 1) ≤
        baseMs * max factor 1 ^ asI32 (attempt - 1) := by
  by_cases hfactor : factor ≤ 1
  · rw [max_eq_right hfactor, one_zpow, one_zpow]
    exact .inr le_rfl
  have hone : 1 ≤ factor := (not_le.1 hfactor).le
  rw [max_eq_left hone]
  by_cases hsmall : attempt ≤ 2 ^ 31
  · right
    rw [asI32_of_lt (by omega), asI32_of_lt (by omega)]
    have hexponent : ((earlier - 1 : ℕ) : ℤ) ≤ ((attempt - 1 : ℕ) : ℤ) := by omega
    exact mul_le_mul_of_nonneg_left (zpow_le_zpow_right₀ hone hexponent) (Nat.cast_nonneg _)
  rcases hharm with hsmall' | hfactor' | hbase | hmax
  · exact absurd hsmall' hsmall
  · exact absurd hfactor' hfactor
  · rw [hbase, Nat.cast_zero, zero_mul, zero_mul]
    exact .inr le_rfl
  · left
    have hexponent : asI32 (attempt - 1) = -((2 ^ 32 + 1 - attempt : ℕ) : ℤ) := by
      rw [asI32_of_le (by omega) (by omega)]
      omega
    have hpower : 0 < factor ^ (2 ^ 32 + 1 - attempt) := pow_pos (one_pos.trans_le hone) _
    rw [hexponent, zpow_neg, zpow_natCast, ← div_eq_mul_inv, le_div_iff₀ hpower]
    exact hmax

/-- The first delay is the base, up to the limit. -/
theorem baseBackoffMs_one (baseMs maxMs : ℕ) (factor : ℚ) :
    baseBackoffMs 1 baseMs factor maxMs = ((min baseMs maxMs : ℕ) : ℚ) := by
  have hexponent : asI32 (1 - 1) = 0 := asI32_of_lt (by norm_num)
  rw [baseBackoffMs_eq le_rfl, hexponent, zpow_zero, mul_one, Nat.cast_min]

/-- A delay that is not below the base or the limit is not rounded or clamped below them. -/
theorem le_retryDelayMs {draw : ℚ → ℚ → ℚ}
    (h : ((min baseMs maxMs : ℕ) : ℚ) ≤ baseBackoffMs attempt baseMs factor maxMs) :
    min (min baseMs maxMs) MAX_RETRY_DELAY_MS ≤
      retryDelayMs none (computeBackoffMs draw attempt baseMs factor maxMs false) := by
  have hround : min baseMs maxMs ≤ (round (baseBackoffMs attempt baseMs factor maxMs)).toNat := by
    have hcast : ((min baseMs maxMs : ℕ) : ℤ) ≤ round (baseBackoffMs attempt baseMs factor maxMs) := by
      rw [round_eq, Int.le_floor, Int.cast_natCast]
      linarith
    omega
  have hmax : MAX_RETRY_DELAY_MS ≤ U64.max := by decide
  have hcompute : computeBackoffMs draw attempt baseMs factor maxMs false =
      min (round (baseBackoffMs attempt baseMs factor maxMs)).toNat U64.max := by
    simp [computeBackoffMs]
  rw [hcompute, retryDelayMs, Option.getD_none]
  omega

end

/-- **When the delay never drops below its base and never shrinks**: for every attempt of a `u32`, every
base, limit and factor, the delay is between the smaller of base and limit and the limit, no earlier
attempt has a longer one, and the delay of a retry without jitter is at least the base, the limit or
30 days, exactly when the attempt is at most `2 ^ 31`, or the factor is at most 1, or the base is zero,
or the limit is below the base by what the negative exponent takes away. -/
theorem backoff_grows_iff (draw : ℚ → ℚ → ℚ) {attempt : ℕ} (hattempt : 1 ≤ attempt)
    (hu32 : attempt < 2 ^ 32) (baseMs maxMs : ℕ) (factor : ℚ) :
    (((min baseMs maxMs : ℕ) : ℚ) ≤ baseBackoffMs attempt baseMs factor maxMs ∧
      baseBackoffMs attempt baseMs factor maxMs ≤ maxMs ∧
      (∀ earlier, 1 ≤ earlier → earlier ≤ attempt →
        baseBackoffMs earlier baseMs factor maxMs ≤ baseBackoffMs attempt baseMs factor maxMs) ∧
      min (min baseMs maxMs) MAX_RETRY_DELAY_MS ≤
        retryDelayMs none (computeBackoffMs draw attempt baseMs factor maxMs false)) ↔
    ExponentHarmless attempt baseMs factor maxMs := by
  constructor
  · rintro ⟨hlower, -⟩
    by_contra hharm
    have hlt := power_lt_of_not_harmless hattempt hu32 hharm
    rw [baseBackoffMs_eq hattempt, Nat.cast_min] at hlower
    exact absurd (hlower.trans (min_le_left _ _)) (not_le.2 hlt)
  · intro hharm
    have hgrows : ∀ earlier, 1 ≤ earlier → earlier ≤ attempt →
        baseBackoffMs earlier baseMs factor maxMs ≤ baseBackoffMs attempt baseMs factor maxMs := by
      intro earlier hearlier hle
      rw [baseBackoffMs_eq hearlier, baseBackoffMs_eq hattempt]
      rcases le_power_of_harmless hu32 hharm hearlier hle with hmax | hpower
      · rw [min_eq_right hmax]
        exact min_le_right _ _
      · exact min_le_min_right _ hpower
    have hlower : ((min baseMs maxMs : ℕ) : ℚ) ≤ baseBackoffMs attempt baseMs factor maxMs := by
      rw [← baseBackoffMs_one baseMs maxMs factor]
      exact hgrows 1 le_rfl hattempt
    refine ⟨hlower, ?_, hgrows, le_retryDelayMs hlower⟩
    rw [baseBackoffMs_eq hattempt]
    exact min_le_right _ _

/-- The third attempt with a factor of 3/2. -/
theorem backoff_grows_iff_third :
    computeBackoffMs max 3 100 (3 / 2) 60_000 false = 225 ∧
      min (min 100 60_000) MAX_RETRY_DELAY_MS ≤
        retryDelayMs none (computeBackoffMs max 3 100 (3 / 2) 60_000 false) := by
  have hgrows := (backoff_grows_iff max (by norm_num) (by norm_num) 100 60_000 (3 / 2)).2
    (.inl (by norm_num : 3 ≤ 2 ^ 31))
  refine ⟨?_, hgrows.2.2.2⟩
  have hexponent : asI32 (3 - 1) = 2 := asI32_of_lt (by norm_num)
  have hbase : baseBackoffMs 3 100 (3 / 2) 60_000 = ((225 : ℕ) : ℚ) := by
    rw [baseBackoffMs_eq (by norm_num), hexponent]
    norm_num
  simp only [computeBackoffMs, hbase, Bool.false_eq_true, false_and, if_false, round_natCast]
  decide

/-- After `2 ^ 31` retries the delay is below its base. -/
theorem delay_below_base :
    ¬∀ attempt baseMs maxMs : ℕ, ∀ factor : ℚ, 1 ≤ attempt → attempt < 2 ^ 32 →
      ((min baseMs maxMs : ℕ) : ℚ) ≤ baseBackoffMs attempt baseMs factor maxMs := by
  intro h
  have hlower := h (2 ^ 31 + 1) 500 60_000 2 (by norm_num) (by norm_num)
  have hharm : ¬ExponentHarmless (2 ^ 31 + 1) 500 2 60_000 := by
    have hlarge : ∀ k : ℕ, ¬((60_000 : ℕ) : ℚ) * 2 ^ k ≤ ((500 : ℕ) : ℚ) := by
      intro k hk
      have hpower : (1 : ℚ) ≤ 2 ^ k := one_le_pow₀ one_le_two
      push_cast at hk
      linarith
    unfold ExponentHarmless
    rintro (hsmall | hfactor | hbase | hmax)
    · omega
    · norm_num at hfactor
    · cases hbase
    · exact hlarge _ hmax
  have hlt := power_lt_of_not_harmless (by norm_num) (by norm_num) hharm
  rw [baseBackoffMs_eq (by norm_num), Nat.cast_min] at hlower
  exact absurd (hlower.trans (min_le_left _ _)) (not_le.2 hlt)

end Cauli
