import Mathlib.Data.List.AList
import Mathlib.Data.List.Nodup

/-!
# Loops in which every turn touches its own key

A loop over pairs of a key and a value, on a state that is read key by key through `get`. If each turn
changes what is read at its own key only, and the keys are distinct, then each key is changed by its
own turn alone.

* `get_foldl_of_notMem`: a key without a turn;
* `get_foldl_of_mem`: a key with a turn, which finds what was there before the loop;
* `isSome_foldlM_iff`, `get_foldlM_of_notMem`, `get_foldlM_of_mem`: the same for a loop that may end
  early;
* `AList.mem_pairs`, `AList.nodup_pairs`: the pairs of an association list;
* `AList.lookup_of_lookup_erase`: what is left after an erasure was there before.
-/

variable {σ κ β V : Type*} {get : σ → κ → V} {step : σ → κ → β → σ} {g : κ → β → V → V}

theorem get_foldl_of_notMem (hother : ∀ s k b n, n ≠ k → get (step s k b) n = get s n)
    {l : List (κ × β)} {n : κ} (hn : n ∉ l.map Prod.fst) (s : σ) :
    get (l.foldl (fun s p => step s p.1 p.2) s) n = get s n := by
  induction l generalizing s with
  | nil => rfl
  | cons p l ih =>
    rw [List.map_cons, List.mem_cons, not_or] at hn
    rw [List.foldl_cons, ih hn.2, hother s p.1 p.2 n hn.1]

theorem get_foldl_of_mem (hself : ∀ s k b, get (step s k b) k = g k b (get s k))
    (hother : ∀ s k b n, n ≠ k → get (step s k b) n = get s n)
    {l : List (κ × β)} (hnodup : (l.map Prod.fst).Nodup) {n : κ} {b : β} (hn : (n, b) ∈ l) (s : σ) :
    get (l.foldl (fun s p => step s p.1 p.2) s) n = g n b (get s n) := by
  induction l generalizing s with
  | nil => cases hn
  | cons p l ih =>
    obtain ⟨hnot, hnodup⟩ := List.nodup_cons.1 hnodup
    rw [List.foldl_cons]
    rcases List.mem_cons.1 hn with rfl | hn
    · rw [get_foldl_of_notMem hother hnot, hself]
    · have hne : n ≠ p.1 := by
        rintro rfl
        exact hnot (List.mem_map.2 ⟨_, hn, rfl⟩)
      rw [ih hnodup hn, hother s p.1 p.2 n hne]

section MayFail

variable {step : σ → κ → β → Option σ} {ok : κ → β → Prop}

/-- Where a turn fails by its key and value alone, the loop ends if no turn fails. -/
theorem isSome_foldlM_iff (hok : ∀ s k b, (step s k b).isSome ↔ ok k b) (l : List (κ × β)) (s : σ) :
    (l.foldlM (fun s p => step s p.1 p.2) s).isSome ↔ ∀ p ∈ l, ok p.1 p.2 := by
  induction l generalizing s with
  | nil => simp
  | cons p l ih =>
    rw [List.foldlM_cons, List.forall_mem_cons, ← hok s p.1 p.2]
    cases step s p.1 p.2 with
    | none => simp
    | some s' => simpa using ih s'

theorem get_foldlM_of_notMem
    (hother : ∀ s k b s' n, step s k b = some s' → n ≠ k → get s' n = get s n)
    {l : List (κ × β)} {n : κ} (hn : n ∉ l.map Prod.fst) {s s' : σ}
    (h : l.foldlM (fun s p => step s p.1 p.2) s = some s') : get s' n = get s n := by
  induction l generalizing s with
  | nil =>
    cases h
    rfl
  | cons p l ih =>
    rw [List.map_cons, List.mem_cons, not_or] at hn
    rw [List.foldlM_cons] at h
    obtain ⟨s₁, hstep, h⟩ := Option.bind_eq_some_iff.1 h
    rw [ih hn.2 h, hother s p.1 p.2 s₁ n hstep hn.1]

theorem get_foldlM_of_mem (hself : ∀ s k b s', step s k b = some s' → get s' k = g k b (get s k))
    (hother : ∀ s k b s' n, step s k b = some s' → n ≠ k → get s' n = get s n)
    {l : List (κ × β)} (hnodup : (l.map Prod.fst).Nodup) {n : κ} {b : β} (hn : (n, b) ∈ l) {s s' : σ}
    (h : l.foldlM (fun s p => step s p.1 p.2) s = some s') : get s' n = g n b (get s n) := by
  induction l generalizing s with
  | nil => cases hn
  | cons p l ih =>
    obtain ⟨hnot, hnodup⟩ := List.nodup_cons.1 hnodup
    rw [List.foldlM_cons] at h
    obtain ⟨s₁, hstep, hrest⟩ := Option.bind_eq_some_iff.1 h
    rcases List.mem_cons.1 hn with rfl | hn
    · rw [get_foldlM_of_notMem hother hnot hrest, hself _ _ _ _ hstep]
    · have hne : n ≠ p.1 := by
        rintro rfl
        exact hnot (List.mem_map.2 ⟨_, hn, rfl⟩)
      rw [ih hnodup hn hrest, hother s p.1 p.2 s₁ n hstep hne]

end MayFail

/-- The keys and values of an association list. -/
def AList.pairs (s : AList fun _ : κ => β) : List (κ × β) := s.entries.map fun p => (p.1, p.2)

theorem AList.map_fst_pairs (s : AList fun _ : κ => β) : s.pairs.map Prod.fst = s.keys := by
  rw [AList.pairs, List.map_map]
  rfl

theorem AList.nodup_pairs (s : AList fun _ : κ => β) : (s.pairs.map Prod.fst).Nodup := by
  rw [s.map_fst_pairs]
  exact s.keys_nodup

theorem AList.notMem_map_fst_pairs [DecidableEq κ] {s : AList fun _ : κ => β} {n : κ}
    (h : s.lookup n = none) : n ∉ s.pairs.map Prod.fst := by
  rw [AList.map_fst_pairs, ← AList.mem_keys, ← AList.lookup_eq_none]
  exact h

theorem AList.mem_pairs [DecidableEq κ] {s : AList fun _ : κ => β} {n : κ} {b : β} :
    (n, b) ∈ s.pairs ↔ s.lookup n = some b := by
  rw [AList.pairs, List.mem_map, ← Option.mem_def, AList.mem_lookup_iff]
  constructor
  · rintro ⟨p, hp, heq⟩
    cases heq
    exact hp
  · intro h
    exact ⟨⟨n, b⟩, h, rfl⟩

theorem AList.lookup_of_lookup_erase [DecidableEq κ] {s : AList fun _ : κ => β} {n m : κ} {b : β}
    (h : (s.erase m).lookup n = some b) : s.lookup n = some b := by
  by_cases hnm : n = m
  · subst hnm
    rw [AList.lookup_erase] at h
    cases h
  · rwa [AList.lookup_erase_ne hnm] at h
