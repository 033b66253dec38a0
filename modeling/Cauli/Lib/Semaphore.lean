import Mathlib.Data.List.Basic

/-!
# A counting semaphore with a queue

Permits that can be taken at once, the callers that hold some, and a queue of callers that wait, first
come first served. A request that does not fit takes what there is and waits for the rest, so permits
that come back go to the queue before anyone can take them.

* `tryAcquire`, `acquire`: take permits, without and with waiting;
* `release`: a holder gives its permits back;
* `cancel`: a waiter gives up, and what it had been assigned comes back.
-/

namespace Semaphore

variable {ι : Type*}

/-- A caller that waits: what it misses, and what it has been assigned. -/
structure Waiter (ι : Type*) where
  who : ι
  missing : ℕ
  got : ℕ
  deriving DecidableEq

/-- The state of a semaphore. -/
structure Sem (ι : Type*) where
  available : ℕ
  queue : List (Waiter ι) := []
  held : List (ι × ℕ) := []

namespace Sem

/-- Take one permit, if there is one. -/
def tryAcquire (s : Sem ι) (who : ι) : Option (Sem ι) :=
  if 0 < s.available then
    some { s with available := s.available - 1, held := (who, 1) :: s.held }
  else none

/-- Take `n` permits, or queue for those that are missing. -/
def acquire (s : Sem ι) (who : ι) (n : ℕ) : Sem ι :=
  if n ≤ s.available then
    { s with available := s.available - n, held := (who, n) :: s.held }
  else
    { s with available := 0, queue := s.queue ++ [⟨who, n - s.available, s.available⟩] }

/-- Permits go to the queue from its head: what is left, who still waits, who has been served. -/
def assign : ℕ → List (Waiter ι) → ℕ × List (Waiter ι) × List (ι × ℕ)
  | n, [] => (n, [], [])
  | n, w :: q =>
    if w.missing ≤ n then
      let r := assign (n - w.missing) q
      (r.1, r.2.1, (w.who, w.got + w.missing) :: r.2.2)
    else (0, { w with missing := w.missing - n, got := w.got + n } :: q, [])

/-- `n` permits come back. -/
def addPermits (s : Sem ι) (n : ℕ) : Sem ι :=
  let r := assign n s.queue
  { available := s.available + r.1, queue := r.2.1, held := s.held ++ r.2.2 }

variable [DecidableEq ι]

/-- A holder drops its permits. -/
def release (s : Sem ι) (who : ι) : Option (Sem ι) :=
  (s.held.find? (·.1 = who)).map fun h => addPermits { s with held := s.held.erase h } h.2

/-- A waiter leaves the queue. -/
def cancel (s : Sem ι) (who : ι) : Option (Sem ι) :=
  (s.queue.find? (·.who = who)).map fun w => addPermits { s with queue := s.queue.erase w } w.got

omit [DecidableEq ι] in
theorem tryAcquire_eq_some {s s' : Sem ι} {who : ι} (h : s.tryAcquire who = some s') :
    0 < s.available ∧ s' = { s with available := s.available - 1, held := (who, 1) :: s.held } := by
  unfold tryAcquire at h
  split_ifs at h with hpos
  cases h
  exact ⟨hpos, rfl⟩

omit [DecidableEq ι] in
theorem assign_queue_who (n : ℕ) (q : List (Waiter ι)) :
    ∀ w ∈ (assign n q).2.1, ∃ w₀ ∈ q, w.who = w₀.who := by
  induction q generalizing n with
  | nil => exact nofun
  | cons v q ih =>
    unfold assign
    split_ifs
    · intro w hw
      obtain ⟨w₀, hw₀, heq⟩ := ih _ w hw
      exact ⟨w₀, List.mem_cons_of_mem _ hw₀, heq⟩
    · intro w hw
      rcases List.mem_cons.1 hw with rfl | hw
      · exact ⟨v, List.mem_cons_self, rfl⟩
      · exact ⟨w, List.mem_cons_of_mem _ hw, rfl⟩

omit [DecidableEq ι] in
theorem available_le_addPermits (s : Sem ι) (n : ℕ) : s.available ≤ (s.addPermits n).available :=
  Nat.le_add_right _ _

/-- Permits that come back are not taken from anyone. -/
theorem available_le_release {s s' : Sem ι} {who : ι} (h : s.release who = some s') :
    s.available ≤ s'.available := by
  obtain ⟨h', -, rfl⟩ := Option.map_eq_some_iff.1 h
  exact available_le_addPermits { s with held := s.held.erase h' } h'.2

/-- Nobody joins the queue when permits come back. -/
theorem release_queue_who {s s' : Sem ι} {who : ι} (h : s.release who = some s') :
    ∀ w ∈ s'.queue, ∃ w₀ ∈ s.queue, w.who = w₀.who := by
  obtain ⟨h', -, rfl⟩ := Option.map_eq_some_iff.1 h
  exact assign_queue_who h'.2 s.queue

theorem cancel_queue_who {s s' : Sem ι} {who : ι} (h : s.cancel who = some s') :
    ∀ w ∈ s'.queue, ∃ w₀ ∈ s.queue, w.who = w₀.who := by
  obtain ⟨v, -, rfl⟩ := Option.map_eq_some_iff.1 h
  intro w hw
  obtain ⟨w₀, hw₀, heq⟩ := assign_queue_who v.got (s.queue.erase v) w hw
  exact ⟨w₀, List.mem_of_mem_erase hw₀, heq⟩

omit [DecidableEq ι] in
theorem acquire_queue_who (s : Sem ι) (who : ι) (n : ℕ) :
    ∀ w ∈ (s.acquire who n).queue, w.who = who ∨ w ∈ s.queue := by
  unfold acquire
  split_ifs
  · exact fun w hw => .inr hw
  · intro w hw
    rcases List.mem_append.1 hw with hw | hw
    · exact .inr hw
    · rw [List.mem_singleton.1 hw]
      exact .inl rfl

end Sem

end Semaphore
