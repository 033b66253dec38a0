import Mathlib.Data.Int.Log
import Mathlib.Algebra.Order.Floor.Ring
import Mathlib.Data.Rat.Floor
import Mathlib.Tactic.Linarith
import Mathlib.Tactic.Ring
import Mathlib.Tactic.NormNum

/-!
# Double precision numbers

A double is an exact rational, an infinity or NaN; the sign of zero is not kept. `F64.ofRat`
rounds a rational to the nearest double, ties to even, with gradual underflow below `2 ^ -1022`
and overflow to an infinity from `2 ^ 1024 - 2 ^ 970` on.

* `roundEven`: nearest integer, ties to even;
* `F64.quantum`: the exponent of the last place of the doubles around `q`;
* `F64.ofRat`, `F64.ofInt`, `F64.floor?`, and `F64.nearest` for the value before the overflow test;
* `F64.ofInt_exact`: an integer of at most 53 bits is a double;
* `F64.exists_nearest_eq_intCast_iff`, `F64.nearest_lt_zpow_iff`, `F64.nearest_nonneg_iff`: which
  numbers have a whole nearest double, one below a power of two, one that is not negative.
-/

/-- The nearest integer, the even one at a midpoint. -/
def roundEven (q : ℚ) : ℤ :=
  let k := ⌊q⌋
  if q - k < 1 / 2 then k
  else if 1 / 2 < q - k then k + 1
  else k + k % 2

@[simp] theorem roundEven_intCast (k : ℤ) : roundEven (k : ℚ) = k := by
  simp [roundEven]

theorem le_roundEven {k : ℤ} {q : ℚ} (h : (k : ℚ) ≤ q) : k ≤ roundEven q := by
  have hfloor : k ≤ ⌊q⌋ := Int.le_floor.2 h
  simp only [roundEven]
  split_ifs <;> omega

theorem roundEven_le {k : ℤ} {q : ℚ} (h : q ≤ k) : roundEven q ≤ k := by
  rcases h.eq_or_lt with rfl | hlt
  · rw [roundEven_intCast]
  · have hfloor : ⌊q⌋ < k := Int.floor_lt.2 hlt
    simp only [roundEven]
    split_ifs <;> omega

/-- Rounding is off by half at most. -/
theorem abs_sub_roundEven_le (q : ℚ) : |q - roundEven q| ≤ 1 / 2 := by
  have hlow : (⌊q⌋ : ℚ) ≤ q := Int.floor_le q
  have hhigh : q < ⌊q⌋ + 1 := Int.lt_floor_add_one q
  rcases Int.emod_two_eq_zero_or_one ⌊q⌋ with hmod | hmod <;> simp only [roundEven, hmod] <;>
    split_ifs <;> push_cast <;> rw [abs_le] <;> constructor <;> linarith

theorem roundEven_eq_of_abs_sub_lt {k : ℤ} {q : ℚ} (h : |q - k| < 1 / 2) : roundEven q = k := by
  have hround := abs_sub_roundEven_le q
  have hclose : |(roundEven q - k : ℚ)| < 1 := by
    rw [abs_lt] at h ⊢
    rw [abs_le] at hround
    constructor <;> linarith
  have hcast : |roundEven q - k| < 1 := by exact_mod_cast hclose
  exact sub_eq_zero.1 (Int.abs_lt_one_iff.1 hcast)

theorem roundEven_lt {k : ℤ} {q : ℚ} (h : q < k - 1 / 2) : roundEven q < k := by
  have habs := (abs_le.1 (abs_sub_roundEven_le q)).1
  have hlt : (roundEven q : ℚ) < k := by linarith
  exact_mod_cast hlt

/-- At a midpoint the even neighbour is taken. -/
theorem le_roundEven_of_even {k : ℤ} {q : ℚ} (hk : Even k) (h : k - 1 / 2 ≤ q) : k ≤ roundEven q := by
  by_contra! hlt
  have hle : (roundEven q : ℚ) ≤ k - 1 := by
    exact_mod_cast Int.le_sub_one_of_lt hlt
  have habs := (abs_le.1 (abs_sub_roundEven_le q)).2
  have hq : q = ((k - 1 : ℤ) : ℚ) + 1 / 2 := by push_cast; linarith
  have hfloor : ⌊q⌋ = k - 1 := by
    rw [hq, Int.floor_eq_iff]
    constructor <;> linarith
  have hodd : (k - 1) % 2 = 1 := by
    have := Int.even_iff.1 hk
    omega
  have hround : roundEven q = k := by
    simp only [roundEven, hfloor, hodd]
    rw [hq]
    norm_num
  omega

theorem roundEven_le_of_even {k : ℤ} {q : ℚ} (hk : Even k) (h : q ≤ k + 1 / 2) : roundEven q ≤ k := by
  by_contra! hlt
  have hle : (k : ℚ) + 1 ≤ roundEven q := by
    exact_mod_cast hlt
  have habs := (abs_le.1 (abs_sub_roundEven_le q)).1
  have hq : q = (k : ℚ) + 1 / 2 := by linarith
  have hfloor : ⌊q⌋ = k := by
    rw [hq, Int.floor_eq_iff]
    constructor <;> linarith
  have hround : roundEven q = k := by
    simp only [roundEven, hfloor, Int.even_iff.1 hk]
    rw [hq]
    norm_num
  omega

/-- A double precision value. -/
inductive F64
  | finite (q : ℚ)
  | inf (neg : Bool)
  | nan
  deriving DecidableEq

namespace F64

/-- The exponent of the last place: 52 below the leading bit, never below `-1074`. -/
def quantum (q : ℚ) : ℤ := max (Int.log 2 |q| - 52) (-1074)

/-- The nearest double, ties to even; an infinity from `2 ^ 1024` on. -/
def ofRat (q : ℚ) : F64 :=
  let u := (2 : ℚ) ^ quantum q
  let r := roundEven (q / u) * u
  if 2 ^ 1024 ≤ |r| then inf (decide (r < 0)) else finite r

/-- The nearest double of an integer. -/
def ofInt (n : ℤ) : F64 := ofRat n

/-- The value is below zero. -/
def isNegative : F64 → Bool
  | finite q => decide (q < 0)
  | inf neg => neg
  | nan => false

@[simp] theorem isNegative_finite (q : ℚ) : (finite q).isNegative = decide (q < 0) := rfl

/-- The integer at or below a finite value. -/
def floor? : F64 → Option ℤ
  | finite q => some ⌊q⌋
  | _ => none

theorem log_lt_of_natAbs_lt {n : ℤ} {k : ℕ} (h : n.natAbs < 2 ^ k) :
    Int.log 2 |(n : ℚ)| < k ∨ n = 0 := by
  rcases eq_or_ne n 0 with rfl | hn
  · exact Or.inr rfl
  · refine Or.inl ?_
    have hpos : (0 : ℚ) < |(n : ℚ)| := abs_pos.2 (by exact_mod_cast hn)
    rw [← Int.lt_zpow_iff_log_lt (by norm_num) hpos, zpow_natCast]
    rw [← Int.cast_abs, Int.abs_eq_natAbs]
    exact_mod_cast h

/-- A value that is an integral number of its own last places is rounded to itself. -/
theorem ofRat_of_multiple {q : ℚ} (k : ℤ) (hk : q = k * (2 : ℚ) ^ quantum q)
    (hlt : |q| < 2 ^ 1024) : ofRat q = finite q := by
  have hu : (2 : ℚ) ^ quantum q ≠ 0 := zpow_ne_zero _ (by norm_num)
  have hdiv : q / (2 : ℚ) ^ quantum q = k := by
    rw [div_eq_iff hu]; exact hk
  simp only [ofRat, hdiv, roundEven_intCast, ← hk]
  rw [if_neg (not_le.2 hlt)]

/-- **An integer below `2 ^ 53` is a double.** -/
theorem ofInt_exact {n : ℤ} (h : n.natAbs < 2 ^ 53) : ofInt n = finite n := by
  have hlog := log_lt_of_natAbs_lt h
  have hq : quantum (n : ℚ) ≤ 0 := by
    rcases hlog with hlog | rfl
    · unfold quantum; push_cast at hlog; omega
    · simp [quantum]
  obtain ⟨d, hd⟩ := Int.eq_ofNat_of_zero_le (neg_nonneg.2 hq)
  have hd' : quantum (n : ℚ) = -(d : ℤ) := by omega
  refine ofRat_of_multiple (n * 2 ^ d) ?_ ?_
  · rw [hd', zpow_neg, zpow_natCast]
    push_cast
    field_simp
  · have h1 : |(n : ℚ)| < 2 ^ 53 := by
      rw [← Int.cast_abs, Int.abs_eq_natAbs]; exact_mod_cast h
    exact h1.trans (pow_lt_pow_right₀ (by norm_num) (by norm_num))

/-- The value of the nearest double, before a test for overflow. -/
def nearest (q : ℚ) : ℚ := roundEven (q / 2 ^ quantum q) * 2 ^ quantum q

variable {q r : ℚ}

theorem ofRat_eq_finite_iff : ofRat q = finite r ↔ nearest q = r ∧ |r| < 2 ^ 1024 := by
  simp only [ofRat, ← nearest.eq_def]
  split_ifs with hbig
  · constructor
    · intro h
      cases h
    · rintro ⟨rfl, hlt⟩
      exact absurd hbig hlt.not_ge
  · simp only [finite.injEq]
    constructor
    · rintro rfl
      exact ⟨rfl, not_le.1 hbig⟩
    · exact And.left

theorem zpow_quantum_pos (q : ℚ) : (0 : ℚ) < 2 ^ quantum q := zpow_pos (by norm_num) _

/-- The nearest double is at most half of a last place away. -/
theorem abs_sub_nearest_le (q : ℚ) : |q - nearest q| ≤ 2 ^ (quantum q - 1) := by
  have hu := zpow_quantum_pos q
  have hsub : q - nearest q = (q / 2 ^ quantum q - roundEven (q / 2 ^ quantum q)) * 2 ^ quantum q := by
    rw [nearest, sub_mul, div_mul_cancel₀ _ hu.ne']
  rw [hsub, abs_mul, abs_of_pos hu, zpow_sub_one₀ (by norm_num), mul_comm _ (2 : ℚ)⁻¹]
  refine mul_le_mul_of_nonneg_right ?_ hu.le
  rw [← one_div]
  exact abs_sub_roundEven_le _

theorem abs_sub_nearest_le_of_lt {e : ℤ} (he : -1021 ≤ e) (hpos : 0 < q) (hq : q < 2 ^ e) :
    |q - nearest q| ≤ 2 ^ (e - 54) := by
  have hlog : Int.log 2 q < e := (Int.lt_zpow_iff_log_lt (by norm_num) hpos).1 (by exact_mod_cast hq)
  have hquantum : quantum q ≤ e - 53 := by
    unfold quantum
    rw [abs_of_pos hpos]
    omega
  refine (abs_sub_nearest_le q).trans (zpow_le_zpow_right₀ (by norm_num) ?_)
  omega

theorem nearest_eq_self_iff : nearest q = q ↔ ∃ k : ℤ, q = k * 2 ^ quantum q := by
  have hu := zpow_quantum_pos q
  constructor
  · intro h
    exact ⟨roundEven (q / 2 ^ quantum q), h.symm⟩
  · rintro ⟨k, hk⟩
    have hdiv : q / 2 ^ quantum q = k := by rwa [div_eq_iff hu.ne']
    rw [nearest, hdiv, roundEven_intCast, ← hk]

/-- An even number of last places is the nearest double of all that is at most half of a last place
away. -/
theorem nearest_eq_of_even {k : ℤ} (hk : Even k) (h : |q - k * 2 ^ quantum q| ≤ 2 ^ (quantum q - 1)) :
    nearest q = k * 2 ^ quantum q := by
  have hu := zpow_quantum_pos q
  have hhalf : (2 : ℚ) ^ (quantum q - 1) = 1 / 2 * 2 ^ quantum q := by
    rw [zpow_sub_one₀ (by norm_num)]
    ring
  obtain ⟨hlow, hhigh⟩ := abs_le.1 h
  have hround : roundEven (q / 2 ^ quantum q) = k := by
    refine le_antisymm (roundEven_le_of_even hk ?_) (le_roundEven_of_even hk ?_)
    · rw [div_le_iff₀ hu]
      linarith
    · rw [le_div_iff₀ hu]
      linarith
  rw [nearest, hround]

/-- **The nearest double is whole** exactly if an integer is within half of a last place. -/
theorem exists_nearest_eq_intCast_iff :
    (∃ k : ℤ, nearest q = k) ↔ ∃ k : ℤ, |q - k| ≤ 2 ^ (quantum q - 1) := by
  constructor
  · rintro ⟨k, hk⟩
    exact ⟨k, hk ▸ abs_sub_nearest_le q⟩
  · rintro ⟨k, hk⟩
    rcases lt_or_ge (quantum q) 0 with hneg | hnonneg
    · -- an integer is an even number of last places
      obtain ⟨d, hd⟩ := Int.eq_ofNat_of_zero_le (show 0 ≤ -quantum q - 1 by omega)
      have hquantum : quantum q = -((d + 1 : ℕ) : ℤ) := by push_cast; omega
      have hmul : ((k * 2 ^ (d + 1) : ℤ) : ℚ) * 2 ^ quantum q = k := by
        rw [hquantum, zpow_neg, zpow_natCast]
        push_cast
        field_simp
      have heven : Even (k * 2 ^ (d + 1) : ℤ) := by
        rw [pow_succ, ← mul_assoc]
        exact even_two.mul_left _
      exact ⟨k, (nearest_eq_of_even heven (by rwa [hmul])).trans hmul⟩
    · obtain ⟨d, hd⟩ := Int.eq_ofNat_of_zero_le hnonneg
      refine ⟨roundEven (q / 2 ^ quantum q) * 2 ^ d, ?_⟩
      rw [nearest, hd]
      push_cast
      rw [zpow_natCast]

/-- From `2 ^ -1022` on a double has 53 bits. -/
theorem quantum_of_zpow_le {e : ℤ} {q : ℚ} (he : -1022 ≤ e) (h : (2 : ℚ) ^ e ≤ |q|) :
    ∃ l, e ≤ l ∧ (2 : ℚ) ^ l ≤ |q| ∧ (2 : ℚ) ^ l = 2 ^ 52 * 2 ^ quantum q := by
  have hpos : (0 : ℚ) < |q| := lt_of_lt_of_le (zpow_pos (by norm_num) e) h
  have hlog : e ≤ Int.log 2 |q| := (Int.zpow_le_iff_le_log (by norm_num) hpos).1 (by exact_mod_cast h)
  refine ⟨Int.log 2 |q|, hlog, by exact_mod_cast Int.zpow_log_le_self (by norm_num) hpos, ?_⟩
  have hquantum : quantum q = Int.log 2 |q| - 52 := by unfold quantum; omega
  have hfifty : (2 : ℚ) ^ 52 = 2 ^ (52 : ℤ) := by norm_num
  rw [hquantum, hfifty, ← zpow_add₀ (by norm_num)]
  congr 1
  omega

/-- Rounding does not go below a power of two. -/
theorem zpow_le_nearest {e : ℤ} (he : -1022 ≤ e) (hq : (2 : ℚ) ^ e ≤ q) : 2 ^ e ≤ nearest q := by
  have hu := zpow_quantum_pos q
  have habs : |q| = q := abs_of_nonneg ((zpow_pos (by norm_num) e).le.trans hq)
  obtain ⟨l, hel, hl, hlu⟩ := quantum_of_zpow_le he (habs.symm ▸ hq)
  have hround : (2 : ℤ) ^ 52 ≤ roundEven (q / 2 ^ quantum q) := by
    refine le_roundEven ?_
    rw [le_div_iff₀ hu]
    push_cast
    linarith
  calc (2 : ℚ) ^ e ≤ 2 ^ l := zpow_le_zpow_right₀ (by norm_num) hel
    _ = ((2 ^ 52 : ℤ) : ℚ) * 2 ^ quantum q := by rw [hlu]; norm_num
    _ ≤ nearest q := mul_le_mul_of_nonneg_right (by exact_mod_cast hround) hu.le

/-- The last place of the doubles in a binade. -/
theorem quantum_of_binade {e : ℤ} (he : -1022 ≤ e) (hlow : (2 : ℚ) ^ e ≤ q) (hhigh : q < 2 ^ (e + 1)) :
    quantum q = e - 52 := by
  have hpos : 0 < q := (zpow_pos (by norm_num) e).trans_le hlow
  have hle : e ≤ Int.log 2 q := (Int.zpow_le_iff_le_log (by norm_num) hpos).1 (by exact_mod_cast hlow)
  have hlt : Int.log 2 q < e + 1 :=
    (Int.lt_zpow_iff_log_lt (by norm_num) hpos).1 (by exact_mod_cast hhigh)
  rw [quantum, abs_of_pos hpos]
  omega

/-- Rounding does not go above a power of two. -/
theorem nearest_le_zpow {e : ℤ} (he : -1022 ≤ e) (hpos : 0 < q) (hq : q < 2 ^ e) :
    nearest q ≤ 2 ^ e := by
  have hu := zpow_quantum_pos q
  have hlog : Int.log 2 q < e := (Int.lt_zpow_iff_log_lt (by norm_num) hpos).1 (by exact_mod_cast hq)
  have hquantum : quantum q ≤ e := by
    rw [quantum, abs_of_pos hpos]
    omega
  obtain ⟨d, hd⟩ := Int.eq_ofNat_of_zero_le (sub_nonneg.2 hquantum)
  have hpow : (2 : ℚ) ^ e = ((2 ^ d : ℤ) : ℚ) * 2 ^ quantum q := by
    push_cast
    rw [← zpow_natCast, ← hd, ← zpow_add₀ (by norm_num), sub_add_cancel]
  have hround : roundEven (q / 2 ^ quantum q) ≤ 2 ^ d := by
    refine roundEven_le ?_
    rw [div_le_iff₀ hu, ← hpow]
    exact hq.le
  rw [hpow]
  exact mul_le_mul_of_nonneg_right (by exact_mod_cast hround) hu.le

theorem nearest_nonpos (hq : q ≤ 0) : nearest q ≤ 0 := by
  have hu := zpow_quantum_pos q
  have hround : roundEven (q / 2 ^ quantum q) ≤ 0 := by
    refine roundEven_le ?_
    rw [Int.cast_zero]
    exact div_nonpos_of_nonpos_of_nonneg hq hu.le
  exact mul_nonpos_of_nonpos_of_nonneg (by exact_mod_cast hround) hu.le

/-- **The nearest double is below a power of two** exactly below the last midpoint before it. -/
theorem nearest_lt_zpow_iff {e : ℤ} (he : -1022 ≤ e) :
    nearest q < 2 ^ (e + 1) ↔ q < 2 ^ (e + 1) - 2 ^ (e - 53) := by
  have hu := zpow_quantum_pos q
  have hlast : (2 : ℚ) ^ (e + 1) = 2 ^ 53 * 2 ^ (e - 52) := by
    rw [show e + 1 = 53 + (e - 52) by ring, zpow_add₀ (by norm_num)]
    norm_num
  have hhalf : (2 : ℚ) ^ (e - 53) = 1 / 2 * 2 ^ (e - 52) := by
    rw [show e - 53 = e - 52 - 1 by ring, zpow_sub_one₀ (by norm_num)]
    ring
  have hbelow : (0 : ℚ) < 2 ^ (e - 53) := zpow_pos (by norm_num) _
  rcases lt_or_ge q (2 ^ e) with hsmall | hlarge
  · have hdouble : (2 : ℚ) ^ (e + 1) = 2 * 2 ^ e := by
      rw [zpow_add_one₀ (by norm_num), mul_comm]
    have hle : (2 : ℚ) ^ (e - 53) ≤ 2 ^ e := zpow_le_zpow_right₀ (by norm_num) (by omega)
    have hpow : (0 : ℚ) < 2 ^ e := zpow_pos (by norm_num) e
    have hnearest : nearest q ≤ 2 ^ e := by
      rcases lt_or_ge 0 q with hpos | hneg
      · exact nearest_le_zpow he hpos hsmall
      · exact (nearest_nonpos hneg).trans hpow.le
    constructor <;> intro <;> linarith
  rcases lt_or_ge q (2 ^ (e + 1)) with hbinade | hbeyond
  · have hquantum := quantum_of_binade he hlarge hbinade
    rw [nearest, hquantum, hlast, hhalf]
    rw [hquantum] at hu
    rw [mul_lt_mul_iff_left₀ hu]
    constructor
    · intro h
      by_contra! hge
      have hround : (2 : ℤ) ^ 53 ≤ roundEven (q / 2 ^ (e - 52)) := by
        refine le_roundEven_of_even (by decide) ?_
        rw [le_div_iff₀ hu]
        push_cast
        linarith
      exact absurd h (not_lt.2 (by exact_mod_cast hround))
    · intro h
      have hround : roundEven (q / 2 ^ (e - 52)) < 2 ^ 53 := by
        refine roundEven_lt ?_
        rw [div_lt_iff₀ hu]
        push_cast
        linarith
      exact_mod_cast hround
  · constructor
    · intro h
      exact absurd h (zpow_le_nearest (by omega) hbeyond).not_gt
    · intro h
      linarith

/-- **The nearest double is not negative** exactly down to half of the least positive double. -/
theorem nearest_nonneg_iff : 0 ≤ nearest q ↔ -2 ^ (-1075 : ℤ) ≤ q := by
  have hu := zpow_quantum_pos q
  have hround : 0 ≤ nearest q ↔ -(1 / 2 * 2 ^ quantum q) ≤ q := by
    rw [nearest, mul_nonneg_iff_of_pos_right hu]
    constructor
    · intro h
      by_contra! hlt
      have hneg : roundEven (q / 2 ^ quantum q) < 0 := by
        refine roundEven_lt ?_
        rw [div_lt_iff₀ hu]
        push_cast
        linarith
      exact absurd h (not_le.2 (by exact_mod_cast hneg))
    · intro h
      have hnonneg : 0 ≤ roundEven (q / 2 ^ quantum q) := by
        refine le_roundEven_of_even (by decide) ?_
        rw [le_div_iff₀ hu]
        push_cast
        linarith
      exact_mod_cast hnonneg
  have hhalf : (2 : ℚ) ^ (-1075 : ℤ) = 1 / 2 * 2 ^ (-1074 : ℤ) := by
    rw [show (-1075 : ℤ) = -1074 - 1 by ring, zpow_sub_one₀ (by norm_num)]
    ring
  have hleast : (0 : ℚ) < 2 ^ (-1074 : ℤ) := zpow_pos (by norm_num) _
  rw [hround, hhalf]
  rcases le_or_gt 0 q with hq | hq
  · constructor <;> intro <;> linarith
  · rcases eq_or_ne (quantum q) (-1074) with heq | hne
    · rw [heq]
    · have hlog : quantum q = Int.log 2 |q| - 52 ∧ -1074 < quantum q := by
        unfold quantum at hne ⊢
        omega
      have hle : (2 : ℚ) ^ (Int.log 2 |q|) ≤ |q| := by
        exact_mod_cast Int.zpow_log_le_self (by norm_num) (abs_pos.2 hq.ne)
      have hfifty : (2 : ℚ) ^ (Int.log 2 |q|) = 2 ^ 52 * 2 ^ quantum q := by
        rw [show Int.log 2 |q| = 52 + quantum q by omega, zpow_add₀ (by norm_num)]
        norm_num
      have hless : (2 : ℚ) ^ (-1074 : ℤ) ≤ 2 ^ quantum q :=
        zpow_le_zpow_right₀ (by norm_num) hlog.2.le
      rw [hfifty, abs_of_neg hq] at hle
      constructor <;> intro <;> linarith

theorem nearest_nonneg (hq : 0 ≤ q) : 0 ≤ nearest q := by
  have hpos : (0 : ℚ) < 2 ^ (-1075 : ℤ) := zpow_pos (by norm_num) _
  rw [nearest_nonneg_iff]
  linarith

/-- A value has an integral part unless it is rounded to an infinity. -/
theorem isSome_floor?_ofRat_iff (hq : 0 ≤ q) :
    (ofRat q).floor?.isSome ↔ q < 2 ^ (1024 : ℤ) - 2 ^ (970 : ℤ) := by
  have hbound : nearest q < 2 ^ (1024 : ℤ) ↔ q < 2 ^ (1024 : ℤ) - 2 ^ (970 : ℤ) :=
    nearest_lt_zpow_iff (e := 1023) (by norm_num)
  have hpow : (2 : ℚ) ^ 1024 = 2 ^ (1024 : ℤ) := (zpow_natCast 2 1024).symm
  simp only [ofRat, ← nearest.eq_def, abs_of_nonneg (nearest_nonneg hq), hpow]
  rw [← hbound]
  split_ifs with hbig
  · exact iff_of_false Bool.false_ne_true (not_lt.2 hbig)
  · exact iff_of_true rfl (not_le.1 hbig)

theorem nonneg_of_ofRat (hq : 0 ≤ q) (h : ofRat q = finite r) : 0 ≤ r := by
  rw [← (ofRat_eq_finite_iff.1 h).1]
  exact nearest_nonneg hq

end F64
