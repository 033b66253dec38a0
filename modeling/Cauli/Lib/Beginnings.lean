import Mathlib.Data.Finset.Card
import Mathlib.Data.Finset.Dedup

/-!
# Beginnings of filtered lists

A list that is cut off and then filtered, against one that is filtered first.

* `filter_take_eq_take_filter`: the result is a beginning of the filtered list;
* `head?_filter_take`: it has the same first entry, if the keys are distinct and the cut leaves one
  entry more than there are keys to be dropped.
-/

variable {α β : Type*}

/-- A filtered beginning of a list is a beginning of the filtered list. -/
theorem filter_take_eq_take_filter (p : α → Bool) (l : List α) (n : ℕ) :
    (l.take n).filter p = (l.filter p).take ((l.take n).filter p).length := by
  conv_rhs => rw [← List.take_append_drop n l, List.filter_append]
  rw [List.take_append_drop, List.take_left]

/-- In a list with distinct keys, the first entry whose key is not in a set is among the first ones, of
which there are one more than the set has elements. -/
theorem head?_filter_take [DecidableEq β] {f : α → β} {l : List α}
    (hnodup : (l.map f).Nodup) (dropped : Finset β) :
    ((l.take (dropped.card + 1)).filter fun a => decide (f a ∉ dropped)).head? =
      (l.filter fun a => decide (f a ∉ dropped)).head? := by
  set kept : α → Bool := fun a => decide (f a ∉ dropped) with hkept
  cases htake : (l.take (dropped.card + 1)).filter kept with
  | cons a rest =>
    have hsplit : l.filter kept = a :: rest ++ (l.drop (dropped.card + 1)).filter kept := by
      rw [← htake, ← List.filter_append, List.take_append_drop]
    rw [hsplit]
    rfl
  | nil =>
    -- then the first entries are all dropped, so that there are too few of them
    have hall : ∀ a ∈ l.take (dropped.card + 1), f a ∈ dropped := by
      intro a ha
      have hnot := List.filter_eq_nil_iff.1 htake a ha
      simpa [hkept] using hnot
    have hsub : ((l.take (dropped.card + 1)).map f).toFinset ⊆ dropped := by
      intro b hb
      obtain ⟨a, ha, rfl⟩ := List.mem_map.1 (List.mem_toFinset.1 hb)
      exact hall a ha
    have hcard := Finset.card_le_card hsub
    have hdistinct : ((l.take (dropped.card + 1)).map f).Nodup :=
      hnodup.sublist ((List.take_sublist _ _).map f)
    rw [List.toFinset_card_of_nodup hdistinct, List.length_map, List.length_take] at hcard
    rw [← htake, List.take_of_length_le (by omega)]
