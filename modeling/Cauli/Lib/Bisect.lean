import Mathlib.Order.Bounds.Basic
import Mathlib.Data.List.Basic
import Mathlib.Algebra.Order.Ring.Int

/-!
# The first element after a bound

* `LeastAfter A x r`: `r` is the least element of `A` above `x`, and `none` when there is none;
* `leastAfter_bisectRight`: how a binary search finds it in a sorted list;
* `leastAfter_findSome`: how a loop finds it that skips some elements below the bound.
-/

variable {α : Type} [LinearOrder α]

/-- The position after the last element of a sorted list that is not above `x`. -/
def bisectRight (l : List α) (x : α) : ℕ := (l.takeWhile (· ≤ x)).length

/-- The least element above `x`, if there is one. -/
def LeastAfter (A : Set α) (x : α) : Option α → Prop
  | none => ∀ y ∈ A, y ≤ x
  | some r => IsLeast {y | y ∈ A ∧ x < y} r

theorem getElem?_bisectRight (l : List α) (x : α) :
    l[bisectRight l x]? = l.find? (x < ·) := by
  induction l with
  | nil => rfl
  | cons a l ih =>
    by_cases ha : a ≤ x
    · simpa [bisectRight, ha] using ih
    · simp [bisectRight, ha, not_le.1 ha]

/-- In a list that `f` keeps in order the first element above the bound is the least one. -/
theorem leastAfter_findSome {ι : Type} (f : ι → α) (skip : ι → Bool) {l : List ι} {x : α}
    (hl : l.Pairwise fun i j => f i ≤ f j) (hskip : ∀ i ∈ l, skip i → f i ≤ x) :
    LeastAfter {y | ∃ i ∈ l, f i = y} x
      (l.findSome? fun i => if skip i then none else if x < f i then some (f i) else none) := by
  induction l with
  | nil =>
    rintro y ⟨i, hi, -⟩
    cases hi
  | cons i l ih =>
    obtain ⟨hi, hl⟩ := List.pairwise_cons.1 hl
    rw [List.findSome?_cons]
    by_cases hx : x < f i
    · have hkeep : ¬skip i := fun hs => absurd (hskip i List.mem_cons_self hs) (not_le.2 hx)
      rw [if_neg hkeep, if_pos hx]
      refine ⟨⟨⟨i, List.mem_cons_self, rfl⟩, hx⟩, ?_⟩
      rintro y ⟨⟨j, hj, rfl⟩, -⟩
      rcases List.mem_cons.1 hj with rfl | hj
      · exact le_rfl
      · exact hi j hj
    · -- this element is not above the bound, skipped or not
      have hnone : (if skip i then none else if x < f i then some (f i) else none) = none := by
        rw [if_neg hx, ite_self]
      rw [hnone]
      have hrest := ih hl fun j hj => hskip j (List.mem_cons_of_mem i hj)
      revert hrest
      cases l.findSome? fun i => if skip i then none else if x < f i then some (f i) else none with
      | none =>
        rintro hrest y ⟨j, hj, rfl⟩
        rcases List.mem_cons.1 hj with rfl | hj
        · exact not_lt.1 hx
        · exact hrest _ ⟨j, hj, rfl⟩
      | some r =>
        rintro ⟨⟨⟨j, hj, rfl⟩, hr⟩, hleast⟩
        refine ⟨⟨⟨j, List.mem_cons_of_mem i hj, rfl⟩, hr⟩, ?_⟩
        rintro y ⟨⟨k, hk, rfl⟩, hy⟩
        rcases List.mem_cons.1 hk with rfl | hk
        · exact absurd hy hx
        · exact hleast ⟨⟨k, hk, rfl⟩, hy⟩

theorem leastAfter_bisectRight {l : List α} (hl : l.Pairwise (· ≤ ·)) (x : α) :
    LeastAfter {y | y ∈ l} x l[bisectRight l x]? := by
  have hfind : (fun i => if false then none else if x < id i then some (id i) else none) =
      Option.guard (x < ·) := by
    funext i
    simp [Option.guard]
  have h := leastAfter_findSome id (fun _ => false) (x := x) hl nofun
  rw [hfind, ← List.find?_eq_findSome?_guard, ← getElem?_bisectRight] at h
  simpa using h
