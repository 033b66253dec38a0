import Cauli.Beat.OneTick
import Cauli.Lib.Beginnings
import Mathlib.Data.List.Sort
import Mathlib.Order.Bounds.Basic

/-!
# The sleep after a tick (`py/cauli/beat.py`)

`_sleep_for` asks the due set for one row more than there are failed names, up to `max_interval` ahead,
and drops the failed names from the answer. The first row that is left decides how long the beat sleeps.

* `sleepSlot`, `sleepFor`: the slot it sleeps until, and the sleep;
* `Candidate`, `candidates`: the rows up to the horizon whose names did not fail, in score order;
* `head?_upcoming`: the limited query finds the first of them;
* `sleeps_until_least`: it sleeps until the least of their slots.

Seconds are rational numbers here, and the product `int(max_interval * 1000)` is a setting of its own.
-/

namespace Cauli.OneTick

/-- The settings that `_sleep_for` reads. -/
structure SleepCfg where
  maxInterval : ℚ
  maxIntervalMs : ℤ
  useLock : Bool
  refreshInterval : ℚ

/-- The shortest sleep, in seconds. -/
def MIN_SLEEP : ℚ := 1 / 20

/-- `upcoming[0]`, if there is one. -/
def sleepSlot (k : Keys) (now maxIntervalMs : ℤ) (failed : List String) : Option ℤ :=
  (upcoming k now maxIntervalMs failed).head?.map fun row => trunc row.2

/-- `_sleep_for`, for a tick that took `elapsed` seconds. -/
def sleepFor (cfg : SleepCfg) (elapsed : ℚ) (k : Keys) (now : ℤ) (failed : List String) : ℚ :=
  let wait :=
    match sleepSlot k now cfg.maxIntervalMs failed with
    | some slot => ((slot - now : ℤ) : ℚ) / 1000
    | none => cfg.maxInterval
  let wait := min wait cfg.maxInterval
  let wait := if cfg.useLock then min wait cfg.refreshInterval else wait
  max (wait - elapsed) MIN_SLEEP

/-! ### The order of the rows -/

instance : Std.Total rowLe where
  total a b := by
    unfold rowLe
    rcases lt_trichotomy a.2 b.2 with h | h | h
    · exact .inl (.inl h)
    · exact (String.le_total a.1 b.1).imp (fun hle => .inr ⟨h, hle⟩) fun hle => .inr ⟨h.symm, hle⟩
    · exact .inr (.inl h)

instance : IsTrans (String × ℚ) rowLe where
  trans a b c := by
    rintro (hab | ⟨hab, hab'⟩) (hbc | ⟨hbc, hbc'⟩)
    · exact .inl (hab.trans hbc)
    · exact .inl (hbc ▸ hab)
    · exact .inl (hab ▸ hbc)
    · exact .inr ⟨hab.trans hbc, String.le_trans hab' hbc'⟩

theorem score_le_of_rowLe {a b : String × ℚ} (h : rowLe a b) : a.2 ≤ b.2 :=
  h.elim le_of_lt fun h => h.1.le

/-! ### The row the beat sleeps for -/

section Row

variable {k : Keys} {now maxIntervalMs : ℤ} {failed : Finset String}

/-- A row that may be slept for. -/
def Candidate (k : Keys) (horizon : ℤ) (failed : Finset String) (row : String × ℚ) : Prop :=
  row.1 ∉ failed ∧ k.due.lookup row.1 = some row.2 ∧ row.2 ≤ horizon

/-- The candidates in score order. -/
def candidates (k : Keys) (horizon : ℤ) (failed : Finset String) : List (String × ℚ) :=
  ((dueSlots k horizon).insertionSort rowLe).filter fun row => decide (row.1 ∉ failed)

theorem mem_candidates {horizon : ℤ} {row : String × ℚ} :
    row ∈ candidates k horizon failed ↔ Candidate k horizon failed row := by
  rw [candidates, List.mem_filter, (List.perm_insertionSort _ _).mem_iff, mem_dueSlots,
    decide_eq_true_eq, Candidate]
  exact and_comm

theorem head?_upcoming (k : Keys) (now maxIntervalMs : ℤ) (failed : Finset String) :
    (upcoming k now maxIntervalMs failed.toList).head? =
      (candidates k (now + maxIntervalMs) failed).head? := by
  have hnodup : (((dueSlots k (now + maxIntervalMs)).insertionSort rowLe).map Prod.fst).Nodup :=
    ((List.perm_insertionSort _ _).map _).nodup_iff.2 (nodup_dueSlots _ _)
  have hfirst := head?_filter_take hnodup failed
  rw [candidates, ← hfirst, upcoming, dueRows, Finset.length_toList]
  simp only [Finset.mem_toList]
  rfl

theorem candidates_pairwise (k : Keys) (horizon : ℤ) (failed : Finset String) :
    (candidates k horizon failed).Pairwise rowLe :=
  (List.pairwise_insertionSort rowLe _).filter _

/-- The slots of the candidates. -/
def candidateSlots (k : Keys) (horizon : ℤ) (failed : Finset String) : Set ℤ :=
  {slot | ∃ row, Candidate k horizon failed row ∧ trunc row.2 = slot}

/-- Nothing is slept for if there is no candidate. -/
theorem sleepSlot_eq_none_iff :
    sleepSlot k now maxIntervalMs failed.toList = none ↔
      candidateSlots k (now + maxIntervalMs) failed = ∅ := by
  rw [sleepSlot, Option.map_eq_none_iff, head?_upcoming, List.head?_eq_none_iff,
    List.eq_nil_iff_forall_not_mem, Set.eq_empty_iff_forall_notMem]
  constructor
  · rintro h slot ⟨row, hrow, -⟩
    exact h row (mem_candidates.2 hrow)
  · exact fun h row hrow => h _ ⟨row, mem_candidates.1 hrow, rfl⟩

/-- What is slept for is the least slot of a candidate. -/
theorem isLeast_of_sleepSlot {slot : ℤ}
    (h : sleepSlot k now maxIntervalMs failed.toList = some slot) :
    IsLeast (candidateSlots k (now + maxIntervalMs) failed) slot := by
  obtain ⟨row, hrow, rfl⟩ := Option.map_eq_some_iff.1 h
  rw [head?_upcoming] at hrow
  obtain ⟨rest, hlist⟩ := List.head?_eq_some_iff.1 hrow
  have hsorted := candidates_pairwise k (now + maxIntervalMs) failed
  rw [hlist, List.pairwise_cons] at hsorted
  constructor
  · refine ⟨row, mem_candidates.1 ?_, rfl⟩
    rw [hlist]
    exact List.mem_cons_self
  · rintro _ ⟨other, hother, rfl⟩
    have hmem := mem_candidates.2 hother
    rw [hlist] at hmem
    rcases List.mem_cons.1 hmem with rfl | hmem
    · exact le_rfl
    · exact trunc_mono (score_le_of_rowLe (hsorted.1 other hmem))

theorem sleepSlot_eq_some_iff {slot : ℤ} :
    sleepSlot k now maxIntervalMs failed.toList = some slot ↔
      IsLeast (candidateSlots k (now + maxIntervalMs) failed) slot := by
  refine ⟨isLeast_of_sleepSlot, fun hleast => ?_⟩
  cases h : sleepSlot k now maxIntervalMs failed.toList with
  | none =>
    have hempty := sleepSlot_eq_none_iff.1 h
    exact absurd hleast.1 (by simp [hempty])
  | some slot' => rw [(isLeast_of_sleepSlot h).unique hleast]

/-- A due set without the failed names has the same candidates. -/
theorem candidateSlots_erased {k' : Keys} {horizon : ℤ}
    (h : ∀ n, k'.due.lookup n = if n ∈ failed then none else k.due.lookup n) :
    candidateSlots k' horizon ∅ = candidateSlots k horizon failed := by
  have hsame : ∀ row, Candidate k' horizon ∅ row ↔ Candidate k horizon failed row := by
    intro row
    by_cases hfailed : row.1 ∈ failed
    · simp [Candidate, h, hfailed]
    · simp [Candidate, h, hfailed]
  simp only [candidateSlots, hsame]

end Row

/-- **The beat sleeps until the right slot.** Whatever the due set holds and whichever names failed: the
slot it sleeps until is the least one up to the horizon of the names that did not fail, and there is
none exactly if there is no such slot; and the sleep is the one that a due set without the failed names
gives. -/
theorem sleeps_until_least (cfg : SleepCfg) (k : Keys) (now : ℤ) (failed : Finset String) :
    (∀ slot, sleepSlot k now cfg.maxIntervalMs failed.toList = some slot ↔
      IsLeast {slot | ∃ n q, n ∉ failed ∧ k.due.lookup n = some q ∧
        q ≤ (now + cfg.maxIntervalMs : ℤ) ∧ trunc q = slot} slot) ∧
    (sleepSlot k now cfg.maxIntervalMs failed.toList = none ↔
      ∀ n q, n ∉ failed → k.due.lookup n = some q → ¬ q ≤ (now + cfg.maxIntervalMs : ℤ)) ∧
    ∀ (elapsed : ℚ) (k' : Keys),
      (∀ n, k'.due.lookup n = if n ∈ failed then none else k.due.lookup n) →
        sleepFor cfg elapsed k now failed.toList = sleepFor cfg elapsed k' now [] := by
  have hslots : {slot | ∃ n q, n ∉ failed ∧ k.due.lookup n = some q ∧
      q ≤ (now + cfg.maxIntervalMs : ℤ) ∧ trunc q = slot} =
        candidateSlots k (now + cfg.maxIntervalMs) failed := by
    ext slot
    simp only [candidateSlots, Candidate, Set.mem_ofPred_eq, Prod.exists, and_assoc]
  refine ⟨fun slot => ?_, ?_, fun elapsed k' hk' => ?_⟩
  · rw [hslots]
    exact sleepSlot_eq_some_iff
  · rw [sleepSlot_eq_none_iff, ← hslots, Set.eq_empty_iff_forall_notMem]
    constructor
    · exact fun h n q hn hq hle => h (trunc q) ⟨n, q, hn, hq, hle, rfl⟩
    · rintro h slot ⟨n, q, hn, hq, hle, -⟩
      exact h n q hn hq hle
  · have hslot : sleepSlot k now cfg.maxIntervalMs failed.toList =
        sleepSlot k' now cfg.maxIntervalMs [] := by
      rw [← Finset.toList_empty]
      refine Option.ext fun slot => ?_
      rw [sleepSlot_eq_some_iff, sleepSlot_eq_some_iff, candidateSlots_erased hk']
    simp only [sleepFor, hslot]

end Cauli.OneTick
