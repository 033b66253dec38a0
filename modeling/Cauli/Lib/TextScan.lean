import Mathlib.Data.List.TakeWhile
import Mathlib.Order.Basic
import Mathlib.Data.Nat.Basic

/-!
# Positions in a text

The first occurrence of a text, the last occurrence of a character, and how both behave when texts are
put together.

* `TextScan.find`, `TextScan.rfind`: the positions, if there are any;
* `TextScan.rfind_append`: the last occurrence is in the second text if that has one;
* `TextScan.findIdx?_append_cons`: the first occurrence of a character after a text without it;
* `TextScan.findIdx_or`: the first of two characters is the earlier of their positions.
-/

namespace TextScan

variable {α : Type*} [DecidableEq α]

/-- The position of the first occurrence of a text. -/
def find (pat : List α) : List α → Option ℕ
  | [] => if pat = [] then some 0 else none
  | c :: s => if pat.isPrefixOf (c :: s) then some 0 else (find pat s).map (· + 1)

/-- The position of the last occurrence of a character. -/
def rfind (c : α) : List α → Option ℕ
  | [] => none
  | x :: s =>
    match rfind c s with
    | some i => some (i + 1)
    | none => if x = c then some 0 else none

variable {c : α} {s t : List α}

theorem rfind_append (c : α) (s t : List α) :
    rfind c (s ++ t) = ((rfind c t).map (· + s.length)).or (rfind c s) := by
  induction s with
  | nil => simp [rfind]
  | cons x s ih =>
    rw [List.cons_append, rfind, ih, rfind]
    cases rfind c t with
    | some i => simp [Nat.add_assoc]
    | none => simp

theorem rfind_cons_self (c : α) (s : List α) :
    rfind c (c :: s) = some (((rfind c s).map (· + 1)).getD 0) := by
  rw [rfind]
  cases rfind c s with
  | some i => rfl
  | none => simp

theorem rfind_lt {i : ℕ} (h : rfind c s = some i) : i < s.length := by
  induction s generalizing i with
  | nil => cases h
  | cons x s ih =>
    rw [rfind] at h
    cases hs : rfind c s with
    | some j =>
      rw [hs] at h
      cases h
      exact Nat.succ_lt_succ (ih hs)
    | none =>
      rw [hs] at h
      split_ifs at h
      cases h
      exact Nat.succ_pos _

theorem findIdx?_eq_none : s.findIdx? (· == c) = none ↔ c ∉ s := by
  rw [List.findIdx?_eq_none_iff]
  constructor
  · intro h hc
    simpa using h c hc
  · intro h x hx
    rw [beq_eq_false_iff_ne]
    rintro rfl
    exact h hx

theorem findIdx?_append_cons (h : c ∉ s) (t : List α) :
    (s ++ c :: t).findIdx? (· == c) = some s.length := by
  rw [List.findIdx?_append, findIdx?_eq_none.2 h, List.findIdx?_cons]
  simp

omit [DecidableEq α] in
/-- The first of two kinds of characters is the earlier of their first occurrences. -/
theorem findIdx_or (p q : α → Bool) (s : List α) :
    (s.findIdx fun c => p c || q c) = min (s.findIdx p) (s.findIdx q) := by
  induction s with
  | nil => rfl
  | cons x s ih =>
    simp only [List.findIdx_cons, ih]
    cases p x <;> cases q x <;> simp

omit [DecidableEq α] in
/-- A joined text is made of the separator and the parts. -/
theorem mem_of_mem_intercalate {sep : List α} {parts : List (List α)} (h : c ∈ sep.intercalate parts) :
    c ∈ sep ∨ ∃ p ∈ parts, c ∈ p := by
  induction parts with
  | nil => simp at h
  | cons p parts ih =>
    by_cases hnil : parts = []
    · subst hnil
      exact .inr ⟨p, List.mem_singleton_self p, by simpa using h⟩
    · rw [List.intercalate_cons_of_ne_nil hnil, List.mem_append, List.mem_append] at h
      rcases h with (h | h) | h
      · exact .inr ⟨p, List.mem_cons_self, h⟩
      · exact .inl h
      · exact (ih h).imp_right fun ⟨q, hq, hc⟩ => ⟨q, List.mem_cons_of_mem p hq, hc⟩

end TextScan
