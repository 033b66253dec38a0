import Cauli.Worker.Parse

/-!
# Integer fields (`worker/src/envelope.rs`)

`value_to_u64` takes a token of digits as it stands and every other number token through the nearest
double, whose value it then tests. The test is exact, the double is not: a whole number with more
than 53 bits may be taken for its neighbour, and a number that is not whole for an integer.

* `WholeInRange`: what an integer field should accept;
* `SafeToRound`: the numbers for which the nearest double does not change the answer;
* `valueToU64_exact_iff`: a token is read exactly if and only if it is an integer token in range or
  its value is safe to round.
-/

namespace Cauli

open JsonToken JsonText

/-- A token of digits only, in the range of a `u64`. -/
def JsonNumber.PlainU64 (n : JsonNumber) : Prop :=
  n.neg = false ∧ n.frac = none ∧ n.exp = none ∧ n.int < U64_LIMIT

/-- A whole number in the range of a `u64`. -/
def WholeInRange (q : ℚ) : Prop := ∃ k : ℕ, q = k ∧ k < U64_LIMIT

/-- A whole number in range is a multiple of the last place of its doubles. Any other number is
below the negative numbers that round to zero, or not below the last midpoint before `2 ^ 64`, or
more than half of a last place away from every integer. -/
def SafeToRound (q : ℚ) : Prop :=
  (WholeInRange q → ∃ k : ℤ, q = k * 2 ^ F64.quantum q) ∧
  (¬ WholeInRange q → q < -2 ^ (-1075 : ℤ) ∨ 2 ^ 64 - 2 ^ 10 ≤ q ∨
    ∀ k : ℤ, 2 ^ (F64.quantum q - 1) < |q - k|)

/-! ### The nearest double -/

/-- The nearest double is a whole number in range. -/
theorem wholeInRange_nearest_iff (q : ℚ) :
    WholeInRange (F64.nearest q) ↔ -2 ^ (-1075 : ℤ) ≤ q ∧ q < 2 ^ 64 - 2 ^ 10 ∧
      ∃ k : ℤ, |q - k| ≤ 2 ^ (F64.quantum q - 1) := by
  have hlt : F64.nearest q < U64_LIMIT ↔ q < 2 ^ 64 - 2 ^ 10 := by
    have h := F64.nearest_lt_zpow_iff (q := q) (e := 63) (by norm_num)
    norm_num [U64_LIMIT] at h ⊢
    exact h
  rw [← F64.nearest_nonneg_iff, ← hlt, ← F64.exists_nearest_eq_intCast_iff]
  constructor
  · rintro ⟨k, hk, hlimit⟩
    rw [hk]
    exact ⟨Nat.cast_nonneg k, by exact_mod_cast hlimit, k, rfl⟩
  · rintro ⟨hnonneg, hlimit, k, hk⟩
    rw [hk] at hnonneg hlimit
    obtain ⟨m, rfl⟩ := Int.eq_ofNat_of_zero_le (show 0 ≤ k by exact_mod_cast hnonneg)
    exact ⟨m, hk, by exact_mod_cast hlimit⟩

/-- **Rounding does not change the answer** exactly for the numbers that are safe to round. -/
theorem nearest_exact_iff (q : ℚ) :
    (∀ k : ℕ, F64.nearest q = k ∧ k < U64_LIMIT ↔ q = k ∧ k < U64_LIMIT) ↔ SafeToRound q := by
  by_cases hq : WholeInRange q
  · have hsafe : SafeToRound q ↔ F64.nearest q = q := by
      rw [F64.nearest_eq_self_iff, SafeToRound]
      simp [hq]
    rw [hsafe]
    constructor
    · intro h
      obtain ⟨m, hm, hlimit⟩ := hq
      rw [hm]
      rw [hm] at h
      exact ((h m).2 ⟨rfl, hlimit⟩).1
    · intro h k
      rw [h]
  · have hsafe : SafeToRound q ↔ ¬ WholeInRange (F64.nearest q) := by
      rw [wholeInRange_nearest_iff, SafeToRound]
      simp only [hq, false_implies, true_and, not_false_eq_true, true_implies]
      push Not
      constructor
      · rintro (h | h | h) h₁ h₂
        · exact absurd h₁ h.not_ge
        · exact absurd h₂ h.not_gt
        · exact h
      · intro h
        by_cases h₁ : q < -2 ^ (-1075 : ℤ)
        · exact .inl h₁
        · by_cases h₂ : 2 ^ 64 - 2 ^ 10 ≤ q
          · exact .inr (.inl h₂)
          · exact .inr (.inr (h (not_lt.1 h₁) (not_le.1 h₂)))
    rw [hsafe]
    constructor
    · rintro h ⟨k, hk⟩
      exact hq ⟨k, (h k).1 hk⟩
    · intro h k
      exact ⟨fun hk => absurd ⟨k, hk⟩ h, fun hk => absurd ⟨k, hk⟩ hq⟩

/-! ### Tokens -/

theorem value_of_plainU64 {n : JsonNumber} (h : JsonNumber.PlainU64 n) : n.value = n.int := by
  obtain ⟨hneg, hfrac, hexp, -⟩ := h
  simp [JsonNumber.value, hneg, hfrac, hexp, JsonNumber.digitsValue, JsonNumber.expValue]

/-- **When an integer field is read exactly**: a number token gives its exact value, and exactly when
that is a whole number in range, if and only if it is an integer token in range or its value is safe
to round. -/
theorem valueToU64_exact_iff (n : JsonNumber) :
    (∀ k : ℕ, valueToU64 (.num n) = some k ↔ n.value = k ∧ k < U64_LIMIT) ↔
      JsonNumber.PlainU64 n ∨ SafeToRound n.value := by
  by_cases hplain : JsonNumber.PlainU64 n
  · have hread : valueToU64 (.num n) = some n.int := by
      rw [JsonNumber.PlainU64] at hplain
      rw [valueToU64, JsonNumber.asU64, if_pos hplain, Option.some_or]
    refine iff_of_true (fun k => ?_) (.inl hplain)
    rw [hread, value_of_plainU64 hplain, Option.some_inj, Nat.cast_inj]
    constructor
    · rintro rfl
      exact ⟨rfl, hplain.2.2.2⟩
    · exact And.left
  · have hread : valueToU64 (.num n) = wholeU64 (F64.ofRat n.value) := by
      rw [JsonNumber.PlainU64] at hplain
      rw [valueToU64, JsonNumber.asU64, if_neg hplain, Option.none_or]
    simp only [hread, wholeU64_ofRat_eq_some_iff, hplain, false_or]
    exact nearest_exact_iff n.value

/-- The token `9007199254740993.0`, of the value `2 ^ 53 + 1`. -/
def roundedToken : JsonNumber := ⟨false, 9007199254740993, some JsonToken.zeroDigit, none⟩

/-- **A whole number in range is rounded**: the token of `2 ^ 53 + 1` with a fraction of zero is read
as `2 ^ 53`. -/
theorem valueToU64_rounds_token :
    roundedToken.value = ((9007199254740993 : ℕ) : ℚ) ∧ 9007199254740993 < U64_LIMIT ∧
      valueToU64 (.num roundedToken) = some 9007199254740992 := by
  decide +kernel

end Cauli
