import Mathlib.Data.List.Basic

/-!
# Parties in phases

A list of parties, each in a phase of its own. One of them moves to another phase, or one joins.

* `getElem?_concat_eq_some`: who is there after one has joined;
* `countP_set_add`: how many are in a class of phases;
* `exists_set`: whether there is one in a class of phases;
* `filterMap_set_perm`: what the parties hold.
-/

namespace Parties

variable {α : Type*} {parties : List α} {i : ℕ} {p p' : α}

theorem getElem?_concat_eq_some :
    (parties ++ [p'])[i]? = some p ↔ parties[i]? = some p ∨ i = parties.length ∧ p' = p := by
  rcases Nat.lt_or_ge i parties.length with hi | hi
  · rw [List.getElem?_append_left hi]
    exact ⟨.inl, fun h => h.resolve_right fun h => Nat.ne_of_lt hi h.1⟩
  · rw [List.getElem?_eq_none hi, List.getElem?_append_right hi]
    constructor
    · intro h
      obtain ⟨hzero, heq⟩ := List.getElem?_eq_some_iff.1 h
      rw [List.length_singleton] at hzero
      exact .inr ⟨by omega, by simpa using heq⟩
    · rintro (h | ⟨rfl, rfl⟩)
      · cases h
      · rw [Nat.sub_self, List.getElem?_cons_zero]

theorem countP_set_add (f : α → Bool) (h : parties[i]? = some p) (p' : α) :
    (parties.set i p').countP f + (f p).toNat = parties.countP f + (f p').toNat := by
  obtain ⟨hi, rfl⟩ := List.getElem?_eq_some_iff.1 h
  have hle := List.boole_getElem_le_countP (p := f) hi
  rw [List.countP_set hi]
  cases hold : f parties[i] <;> cases f p' <;>
    simp only [hold, Bool.toNat_true, Bool.toNat_false, Bool.false_eq_true, ↓reduceIte] at hle ⊢ <;>
    omega

/-- One that is in the class stays there when another one moves, or one that does not leave it. -/
theorem exists_set {P : α → Prop} (h : parties[i]? = some p) (hp : P p → P p')
    (hex : ∃ r ∈ parties, P r) : ∃ r ∈ parties.set i p', P r := by
  obtain ⟨r, hr, hP⟩ := hex
  obtain ⟨j, hj⟩ := List.mem_iff_getElem?.1 hr
  have hlt : i < parties.length := (List.getElem?_eq_some_iff.1 h).1
  by_cases hij : i = j
  · subst hij
    rw [h] at hj
    cases hj
    exact ⟨p', List.mem_set hlt p', hp hP⟩
  · refine ⟨r, List.mem_iff_getElem?.2 ⟨j, ?_⟩, hP⟩
    rw [List.getElem?_set_ne hij, hj]

/-- What one party lets go of and what it takes instead. -/
theorem filterMap_set_perm {β : Type*} (f : α → Option β) (h : parties[i]? = some p) (p' : α) :
    ((parties.set i p').filterMap f ++ (f p).toList).Perm
      (parties.filterMap f ++ (f p').toList) := by
  obtain ⟨hi, rfl⟩ := List.getElem?_eq_some_iff.1 h
  have hsplit : parties = parties.take i ++ parties[i] :: parties.drop (i + 1) := by
    rw [List.getElem_cons_drop, List.take_append_drop]
  have hcons : ∀ (a : α) (l : List α), (a :: l).filterMap f = (f a).toList ++ l.filterMap f := by
    intro a l
    cases hf : f a <;> simp [hf]
  rw [List.set_eq_take_append_cons_drop, if_pos hi]
  conv_rhs => rw [hsplit]
  simp only [List.filterMap_append, hcons, List.append_assoc]
  refine List.Perm.append_left _ ?_
  generalize (f p').toList = new, (f parties[i]).toList = old, (parties.drop (i + 1)).filterMap f = d
  have hswap : (new ++ (d ++ old)).Perm (d ++ (old ++ new)) := by
    rw [← List.append_assoc d]
    exact List.perm_append_comm
  exact hswap.trans (List.perm_append_comm_assoc _ _ _)

end Parties
