import Cauli.Lib.Binary64
import Cauli.Lib.Transition
import Mathlib.Data.List.Sort
import Mathlib.Data.List.TakeWhile
import Mathlib.Data.Prod.Lex
import Mathlib.Algebra.Order.Ring.Rat
import Mathlib.Tactic.Linarith

/-!
# The deadline heap of an event loop (`worker/src/shim.py`)

All task deadlines of one loop stand in one heap behind a single timer. Cancelling a deadline only
marks its entry; the marked entries leave the heap when they come due, when they reach its top, or
in a compaction, which `cancel` makes once more than half of the heap is marked.

The heap of `heapq` is a sorted list, an entry is known by its sequence number, and its slot for the
task, which `cancel` and `_fire` empty, is a map from these numbers. A log keeps what has happened.
Times are doubles, which the heap only compares, so any rational may stand for one; the one sum, of the
loop time and the slack, is rounded.

* `add`, `cancel`, `fire`: the methods, with the two loops `fireDue` and `dropCancelled`;
* `HeapOk`, `LogOk`: what they preserve;
* `deadline_heap_correct`: the counter, the timer and the firings in every run;
* `deadline_heap_bounded`: the number of entries in a run whose firings find few marked ones.
-/

namespace Cauli.DeadlineHeap

open Transition

/-- A deadline and its sequence number, in the order of `heapq`. -/
structure Entry where
  when : ℚ
  seq : ℕ
  deriving DecidableEq

theorem Entry.toLex_injective : Function.Injective fun e : Entry => toLex (e.when, e.seq) := by
  rintro ⟨w, k⟩ ⟨w', k'⟩ h
  cases h
  rfl

instance : LinearOrder Entry := LinearOrder.lift' _ Entry.toLex_injective

theorem Entry.le_iff {e e' : Entry} : e ≤ e' ↔ e.when < e'.when ∨ e.when = e'.when ∧ e.seq ≤ e'.seq :=
  Prod.Lex.toLex_le_toLex

theorem Entry.when_le {e e' : Entry} (h : e ≤ e') : e.when ≤ e'.when := by
  rcases Entry.le_iff.1 h with h | h
  · exact h.le
  · exact h.1.le

/-- What has happened to the heap, in order. -/
inductive Event (Task : Type*)
  | add (e : Entry) (task : Task)
  | cancel (seq : ℕ)
  /-- A deadline has fired at a loop time. -/
  | fire (e : Entry) (task : Task) (time : ℚ)
  deriving DecidableEq

/-- The entry that an event cancels or fires. -/
def Event.ends {Task : Type*} : Event Task → Option ℕ
  | .add _ _ => none
  | .cancel seq => some seq
  | .fire e _ _ => some e.seq

/-- `_DeadlineHeap`; `task` is the third slot of an entry, and a timer is set exactly when `armedAt`
is. -/
structure Heap (Task : Type*) where
  heap : List Entry := []
  seq : ℕ := 0
  task : ℕ → Option Task := fun _ => none
  cancelled : ℤ := 0
  armedAt : Option ℚ := none
  log : List (Event Task) := []

/-- `_DEADLINE_CLOCK_SLACK_S`, the double of 0.001. -/
def DEADLINE_CLOCK_SLACK_S : ℚ := F64.nearest (1 / 1000)

/-- `_DEADLINE_COMPACT_MIN`. -/
def DEADLINE_COMPACT_MIN : ℤ := 100

variable {Task : Type*}

/-- The entry is marked: cancelled or fired. -/
def marked (task : ℕ → Option Task) (e : Entry) : Bool := (task e.seq).isNone

/-- `add`. -/
def add (s : Heap Task) (when : ℚ) (task : Task) : Heap Task :=
  let seq := s.seq + 1
  let entry : Entry := ⟨when, seq⟩
  { heap := s.heap.orderedInsert (· ≤ ·) entry
    seq
    task := Function.update s.task seq (some task)
    cancelled := s.cancelled
    armedAt :=
      match s.armedAt with
      | none => some when
      | some a => if when < a then some when else some a
    log := s.log ++ [.add entry task] }

/-- `cancel`; `_DEADLINE_COMPACT_FRACTION` is one half. -/
def cancel (s : Heap Task) (seq : ℕ) : Heap Task :=
  let log := s.log ++ [.cancel seq]
  match s.task seq with
  | none => { s with log }
  | some _ =>
    let task := Function.update s.task seq none
    let cancelled := s.cancelled + 1
    if DEADLINE_COMPACT_MIN < cancelled ∧ (s.heap.length : ℤ) < 2 * cancelled then
      { s with
        heap := (s.heap.filter fun e => !marked task e).insertionSort (· ≤ ·)
        task, cancelled := 0, log }
    else { s with task, cancelled, log }

/-- `due` of `_fire`: a sum of doubles. -/
def dueBy (time : ℚ) : ℚ := F64.nearest (time + DEADLINE_CLOCK_SLACK_S)

/-- What the loops of `_fire` work on, and the entries that have fired. -/
structure Sweep (Task : Type*) where
  heap : List Entry
  task : ℕ → Option Task
  cancelled : ℤ
  fired : List (Entry × Task)

/-- The first loop of `_fire`: every due entry is popped, and fires unless it is marked. -/
def fireDue (due : ℚ) (task : ℕ → Option Task) (cancelled : ℤ) : List Entry → Sweep Task
  | [] => ⟨[], task, cancelled, []⟩
  | e :: heap =>
    if e.when ≤ due then
      match task e.seq with
      | none => fireDue due task (cancelled - 1) heap
      | some a =>
        let r := fireDue due (Function.update task e.seq none) cancelled heap
        { r with fired := (e, a) :: r.fired }
    else ⟨e :: heap, task, cancelled, []⟩

/-- The second loop of `_fire`: marked entries on top of the heap are popped. -/
def dropCancelled (task : ℕ → Option Task) (cancelled : ℤ) : List Entry → List Entry × ℤ
  | [] => ([], cancelled)
  | e :: heap =>
    if marked task e then dropCancelled task (cancelled - 1) heap else (e :: heap, cancelled)

/-- `_fire` at a loop time, for a timer that is set; the timer is set again for the top entry. -/
def fire (s : Heap Task) (time : ℚ) : Option (Heap Task) :=
  if s.armedAt.isSome then
    let r := fireDue (dueBy time) s.task s.cancelled s.heap
    let rest := dropCancelled r.task r.cancelled r.heap
    some
      { heap := rest.1
        seq := s.seq
        task := r.task
        cancelled := rest.2
        armedAt := rest.1.head?.map Entry.when
        log := s.log ++ r.fired.map fun f => .fire f.1 f.2 time }
  else none

/-- A call of one of the methods. -/
inductive Label (Task : Type*)
  | add (when : ℚ) (task : Task)
  | cancel (seq : ℕ)
  | fire (time : ℚ)

/-- One call; an entry can be cancelled once it was handed out. -/
def step (s : Heap Task) : Label Task → Option (Heap Task)
  | .add when task => some (add s when task)
  | .cancel seq => if seq ≤ s.seq then some (cancel s seq) else none
  | .fire time => fire s time

/-- The heap of a new loop is empty. -/
def system (Task : Type*) : System (Heap Task) (Label Task) := ⟨fun s => s = {}, step⟩

/-! ### The loops of `_fire` -/

variable {task : ℕ → Option Task} {heap : List Entry} {e : Entry}

@[simp] theorem marked_eq_true_iff : marked task e = true ↔ task e.seq = none :=
  Option.isNone_iff_eq_none

@[simp] theorem marked_eq_false_iff : marked task e = false ↔ task e.seq ≠ none := by
  rw [← Bool.not_eq_true, marked_eq_true_iff]

theorem marked_update_of_ne {k : ℕ} {o : Option Task} (h : e.seq ≠ k) :
    marked (Function.update task k o) e = marked task e := by
  rw [marked, Function.update_of_ne h, marked]

theorem countP_marked_update {k : ℕ} {o : Option Task} (h : k ∉ heap.map Entry.seq) :
    heap.countP (marked (Function.update task k o)) = heap.countP (marked task) := by
  apply List.countP_congr
  intro e he
  have hne : e.seq ≠ k := fun heq => h (heq ▸ List.mem_map_of_mem he)
  rw [marked_update_of_ne hne]

/-- **The first loop**: the due entries leave the heap, the unmarked ones of them fire in its order,
and the counter is lowered by the number of the marked ones. -/
theorem fireDue_spec (due : ℚ) (task : ℕ → Option Task) (cancelled : ℤ)
    (hnodup : (heap.map Entry.seq).Nodup) :
    let r := fireDue due task cancelled heap
    let dueNow := heap.takeWhile fun e => decide (e.when ≤ due)
    r.heap = heap.dropWhile (fun e => decide (e.when ≤ due)) ∧
      (∀ k, r.task k = if k ∈ dueNow.map Entry.seq then none else task k) ∧
      r.cancelled = cancelled - dueNow.countP (marked task) ∧
      r.fired.map Prod.fst = dueNow.filter (fun e => !marked task e) ∧
      ∀ f ∈ r.fired, task f.1.seq = some f.2 := by
  induction heap generalizing task cancelled with
  | nil => simp [fireDue]
  | cons e heap ih =>
    obtain ⟨hnot, hnodup⟩ := List.nodup_cons.1 hnodup
    by_cases hdue : e.when ≤ due
    · cases htask : task e.seq with
      | none =>
        obtain ⟨hheap, hr, hcount, hfired, hmem⟩ := ih task (cancelled - 1) hnodup
        have hmarked : marked task e = true := by simp [marked, htask]
        simp only [fireDue, hdue, htask, if_true, List.takeWhile_cons, List.dropWhile_cons,
          decide_true, List.map_cons, List.mem_cons, List.countP_cons, List.filter_cons, hmarked]
        refine ⟨hheap, fun k => ?_, ?_, hfired, hmem⟩
        · rw [hr k]
          by_cases hk : k = e.seq
          · simp [hk, htask]
          · simp [hk]
        · rw [hcount]
          push_cast
          omega
      | some a =>
        obtain ⟨hheap, hr, hcount, hfired, hmem⟩ :=
          ih (Function.update task e.seq none) cancelled hnodup
        have hmarked : marked task e = false := by simp [marked, htask]
        have hsub : ∀ e' ∈ heap.takeWhile (fun e => decide (e.when ≤ due)), e'.seq ≠ e.seq :=
          fun e' he' heq => hnot (heq ▸ List.mem_map_of_mem ((List.takeWhile_prefix _).subset he'))
        simp only [fireDue, hdue, htask, if_true, List.takeWhile_cons, List.dropWhile_cons,
          decide_true, List.map_cons, List.mem_cons, List.countP_cons, List.filter_cons, hmarked]
        refine ⟨hheap, fun k => ?_, ?_, ?_, ?_⟩
        · rw [hr k]
          by_cases hk : k = e.seq
          · simp [hk]
          · simp [hk]
        · rw [hcount, countP_marked_update]
          · simp
          · intro hin
            obtain ⟨e', he', heq⟩ := List.mem_map.1 hin
            exact hsub e' he' heq
        · rw [hfired]
          simp only [Bool.not_false, if_true, List.cons.injEq, true_and]
          apply List.filter_congr
          intro e' he'
          rw [marked_update_of_ne (hsub e' he')]
        · rintro f (rfl | hf)
          · exact htask
          · have hf' : f.1 ∈ heap.takeWhile fun e => decide (e.when ≤ due) :=
              List.mem_of_mem_filter (hfired ▸ List.mem_map_of_mem hf)
            rw [← hmem f hf, Function.update_of_ne (hsub f.1 hf')]
    · simp [fireDue, hdue]

/-- **The second loop**: the marked entries on top leave the heap, and the counter follows. -/
theorem dropCancelled_spec (task : ℕ → Option Task) (cancelled : ℤ) (heap : List Entry) :
    dropCancelled task cancelled heap =
      (heap.dropWhile (marked task), cancelled - (heap.takeWhile (marked task)).length) := by
  induction heap generalizing cancelled with
  | nil => simp [dropCancelled]
  | cons e heap ih =>
    by_cases h : marked task e = true
    · simp only [dropCancelled, h, if_true, ih, List.dropWhile_cons, List.takeWhile_cons,
        List.length_cons]
      congr 1
      push_cast
      omega
    · simp [dropCancelled, h]

/-- The entries that `_fire` finds due. -/
def Heap.dueAt (s : Heap Task) (time : ℚ) : List Entry :=
  s.heap.takeWhile fun e => decide (e.when ≤ dueBy time)

/-- The entries that `_fire` finds not due. -/
def Heap.laterThan (s : Heap Task) (time : ℚ) : List Entry :=
  s.heap.dropWhile fun e => decide (e.when ≤ dueBy time)

variable {s s' : Heap Task} {time : ℚ}

theorem dueAt_append_laterThan (s : Heap Task) (time : ℚ) :
    s.dueAt time ++ s.laterThan time = s.heap :=
  List.takeWhile_append_dropWhile

theorem when_le_of_mem_dueAt (h : e ∈ s.dueAt time) : e.when ≤ dueBy time := by
  have hdue := List.mem_takeWhile_imp h
  exact of_decide_eq_true hdue

/-- **`_fire`** in terms of the due and the other entries. -/
theorem fire_spec (hnodup : (s.heap.map Entry.seq).Nodup) (h : fire s time = some s') :
    (∀ k, s'.task k = if k ∈ (s.dueAt time).map Entry.seq then none else s.task k) ∧
      (∀ e ∈ s.laterThan time, s'.task e.seq = s.task e.seq) ∧
      s'.heap = (s.laterThan time).dropWhile (marked s'.task) ∧
      s'.cancelled = s.cancelled - (s.dueAt time).countP (marked s.task) -
        ((s.laterThan time).takeWhile (marked s'.task)).length ∧
      s'.armedAt = s'.heap.head?.map Entry.when ∧ s'.seq = s.seq ∧
      ∃ fired : List (Entry × Task), s'.log = s.log ++ fired.map (fun f => .fire f.1 f.2 time) ∧
        fired.map Prod.fst = (s.dueAt time).filter (fun e => !marked s.task e) ∧
        ∀ f ∈ fired, s.task f.1.seq = some f.2 := by
  obtain ⟨-, h⟩ := Option.ite_none_right_eq_some.1 h
  cases h
  obtain ⟨hheap, htask, hcount, hfired, hmem⟩ :=
    fireDue_spec (dueBy time) s.task s.cancelled hnodup
  simp only [dropCancelled_spec, hheap, hcount]
  refine ⟨htask, fun e he => ?_, rfl, rfl, trivial, trivial, _, rfl, hfired, hmem⟩
  rw [htask, if_neg]
  rw [← dueAt_append_laterThan s time, List.map_append] at hnodup
  exact fun hdue => List.disjoint_of_nodup_append hnodup hdue (List.mem_map_of_mem he)

/-! ### The invariant of the heap -/

/-- The heap is sorted, holds each entry once and every unmarked one, the counter is the number of
marked entries, and the timer is not later than any entry. -/
structure HeapOk (s : Heap Task) : Prop where
  sorted : s.heap.Pairwise (· ≤ ·)
  nodup : (s.heap.map Entry.seq).Nodup
  le_seq : ∀ e ∈ s.heap, e.seq ≤ s.seq
  queued : ∀ k, s.task k ≠ none → ∃ e ∈ s.heap, e.seq = k
  cancelled : s.cancelled = s.heap.countP (marked s.task)
  armed : ∀ e ∈ s.heap, ∃ a, s.armedAt = some a ∧ a ≤ e.when

theorem HeapOk.add (hok : HeapOk s) (when : ℚ) (task : Task) : HeapOk (add s when task) := by
  have hperm : (DeadlineHeap.add s when task).heap.Perm (⟨when, s.seq + 1⟩ :: s.heap) :=
    List.perm_orderedInsert _ _ _
  have hfresh : s.seq + 1 ∉ s.heap.map Entry.seq := by
    intro hin
    obtain ⟨e, he, heq⟩ := List.mem_map.1 hin
    have := hok.le_seq e he
    omega
  constructor
  case sorted => exact hok.sorted.orderedInsert _ _
  case nodup =>
    rw [(hperm.map Entry.seq).nodup_iff]
    exact List.nodup_cons.2 ⟨hfresh, hok.nodup⟩
  case le_seq =>
    intro e he
    rcases List.mem_cons.1 (hperm.mem_iff.1 he) with rfl | he
    · exact le_refl _
    · exact (hok.le_seq e he).trans (Nat.le_succ _)
  case queued =>
    intro k hk
    by_cases hnew : k = s.seq + 1
    · exact ⟨⟨when, s.seq + 1⟩, hperm.mem_iff.2 List.mem_cons_self, hnew.symm⟩
    · have hold : s.task k ≠ none := by
        intro hnone
        exact hk ((Function.update_of_ne hnew _ _).trans hnone)
      obtain ⟨e, he, heq⟩ := hok.queued k hold
      exact ⟨e, hperm.mem_iff.2 (List.mem_cons_of_mem _ he), heq⟩
  case cancelled =>
    rw [hperm.countP_eq, List.countP_cons_of_neg]
    · show s.cancelled = (s.heap.countP (marked (Function.update s.task (s.seq + 1) _)) : ℕ)
      rw [countP_marked_update hfresh, hok.cancelled]
    · simp [marked, DeadlineHeap.add]
  case armed =>
    intro e he
    simp only [DeadlineHeap.add]
    rcases List.mem_cons.1 (hperm.mem_iff.1 he) with rfl | he
    · cases s.armedAt with
      | none => exact ⟨when, rfl, le_refl _⟩
      | some a =>
        by_cases hlt : when < a
        · exact ⟨when, if_pos hlt, le_refl _⟩
        · exact ⟨a, if_neg hlt, not_lt.1 hlt⟩
    · obtain ⟨a, ha, hle⟩ := hok.armed e he
      rw [ha]
      by_cases hlt : when < a
      · exact ⟨when, if_pos hlt, hlt.le.trans hle⟩
      · exact ⟨a, if_neg hlt, hle⟩

/-- Marking an entry of the heap that is not marked yet. -/
theorem countP_marked_none (hnodup : (heap.map Entry.seq).Nodup) (he : e ∈ heap)
    (hlive : task e.seq ≠ none) :
    heap.countP (marked (Function.update task e.seq none)) = heap.countP (marked task) + 1 := by
  induction heap with
  | nil => cases he
  | cons e' heap ih =>
    obtain ⟨hnot, hnodup⟩ := List.nodup_cons.1 hnodup
    rw [List.countP_cons, List.countP_cons]
    rcases List.mem_cons.1 he with rfl | he
    · rw [countP_marked_update hnot]
      have hold : marked task e = false := marked_eq_false_iff.2 hlive
      have hnew : marked (Function.update task e.seq none) e = true := by simp [marked]
      simp [hold, hnew]
    · have hne : e'.seq ≠ e.seq := fun heq => hnot (heq ▸ List.mem_map_of_mem he)
      rw [ih hnodup he, marked_update_of_ne hne]
      omega

/-- What `cancel` does to an entry that is not marked. -/
theorem cancel_eq {k : ℕ} (h : s.task k ≠ none) :
    (cancel s k).task = Function.update s.task k none ∧
      (cancel s k).log = s.log ++ [.cancel k] ∧ (cancel s k).seq = s.seq ∧
      (cancel s k).armedAt = s.armedAt ∧
      ((cancel s k).heap = s.heap ∧ (cancel s k).cancelled = s.cancelled + 1 ∧
          (s.cancelled + 1 ≤ DEADLINE_COMPACT_MIN ∨ 2 * (s.cancelled + 1) ≤ s.heap.length) ∨
        (cancel s k).heap =
            (s.heap.filter fun e => !marked (Function.update s.task k none) e).insertionSort (· ≤ ·) ∧
          (cancel s k).cancelled = 0) := by
  obtain ⟨a, ha⟩ := Option.ne_none_iff_exists'.1 h
  simp only [cancel, ha]
  split_ifs with hc
  · exact ⟨rfl, rfl, rfl, rfl, .inr ⟨rfl, rfl⟩⟩
  · refine ⟨rfl, rfl, rfl, rfl, .inl ⟨rfl, rfl, ?_⟩⟩
    omega

theorem HeapOk.cancel (hok : HeapOk s) (k : ℕ) : HeapOk (cancel s k) := by
  by_cases hlive : s.task k = none
  · have heq : DeadlineHeap.cancel s k = { s with log := s.log ++ [.cancel k] } := by
      simp [DeadlineHeap.cancel, hlive]
    rw [heq]
    exact ⟨hok.sorted, hok.nodup, hok.le_seq, hok.queued, hok.cancelled, hok.armed⟩
  · obtain ⟨e, he, rfl⟩ := hok.queued k hlive
    obtain ⟨htask, -, hseq, harmed, hheap⟩ := cancel_eq hlive
    have hqueued : ∀ j, (DeadlineHeap.cancel s e.seq).task j ≠ none →
        ∃ e' ∈ s.heap, e'.seq = j ∧ marked (Function.update s.task e.seq none) e' = false := by
      intro j hj
      rw [htask] at hj
      by_cases hje : j = e.seq
      · simp [hje] at hj
      · rw [Function.update_of_ne hje] at hj
        obtain ⟨e', he', rfl⟩ := hok.queued j hj
        refine ⟨e', he', rfl, ?_⟩
        rw [marked_update_of_ne hje]
        exact marked_eq_false_iff.2 hj
    rcases hheap with ⟨hheap, hcount, -⟩ | ⟨hheap, hcount⟩
    · refine ⟨hheap ▸ hok.sorted, hheap ▸ hok.nodup, ?_, ?_, ?_, ?_⟩
      · rw [hheap, hseq]
        exact hok.le_seq
      · intro j hj
        obtain ⟨e', he', hj', -⟩ := hqueued j hj
        exact ⟨e', hheap ▸ he', hj'⟩
      · rw [hcount, hheap, htask, countP_marked_none hok.nodup he hlive, hok.cancelled]
        push_cast
        rfl
      · rw [hheap, harmed]
        exact hok.armed
    · -- the compaction keeps the order, so sorting what is left changes nothing
      have hfilter := List.filter_sublist
        (l := s.heap) (p := fun e' => !marked (Function.update s.task e.seq none) e')
      have hsorted := hok.sorted.sublist hfilter
      rw [hsorted.insertionSort_eq] at hheap
      refine ⟨hheap ▸ hsorted, ?_, ?_, ?_, ?_, ?_⟩
      · rw [hheap]
        exact hok.nodup.sublist (hfilter.map _)
      · rw [hheap, hseq]
        exact fun e' he' => hok.le_seq e' (hfilter.subset he')
      · intro j hj
        obtain ⟨e', he', hj', hmarked⟩ := hqueued j hj
        exact ⟨e', hheap ▸ List.mem_filter.2 ⟨he', by simp [hmarked]⟩, hj'⟩
      · rw [hcount, hheap, htask, eq_comm, Nat.cast_eq_zero, List.countP_eq_zero]
        intro e' he'
        simpa using (List.mem_filter.1 he').2
      · rw [hheap, harmed]
        exact fun e' he' => hok.armed e' (hfilter.subset he')

theorem HeapOk.fire (hok : HeapOk s) (h : fire s time = some s') : HeapOk s' := by
  obtain ⟨htask, hlater, hheap, hcount, harmed, hseq, -⟩ := fire_spec hok.nodup h
  have hsub : s'.heap.Sublist s.heap := by
    rw [hheap]
    exact (List.dropWhile_sublist _).trans (List.dropWhile_sublist _)
  have hsorted := hok.sorted.sublist hsub
  constructor
  case sorted => exact hsorted
  case nodup => exact hok.nodup.sublist (hsub.map _)
  case le_seq =>
    rw [hseq]
    exact fun e he => hok.le_seq e (hsub.subset he)
  case queued =>
    intro k hk
    have hdue : k ∉ (s.dueAt time).map Entry.seq := by
      intro hin
      rw [htask, if_pos hin] at hk
      exact hk rfl
    have hold : s.task k ≠ none := by rwa [htask, if_neg hdue] at hk
    obtain ⟨e, he, rfl⟩ := hok.queued k hold
    rw [← dueAt_append_laterThan s time, List.mem_append] at he
    rcases he with he | he
    · exact absurd (List.mem_map_of_mem he) hdue
    · refine ⟨e, ?_, rfl⟩
      rw [← List.takeWhile_append_dropWhile (p := marked s'.task) (l := s.laterThan time),
        List.mem_append] at he
      rcases he with he | he
      · exact absurd (marked_eq_true_iff.1 (List.mem_takeWhile_imp he)) hk
      · rwa [hheap]
  case cancelled =>
    have hsame : (s.laterThan time).countP (marked s'.task) =
        (s.laterThan time).countP (marked s.task) := by
      apply List.countP_congr
      intro e he
      rw [marked, hlater e he, marked]
    have hall : ((s.laterThan time).takeWhile (marked s'.task)).countP (marked s'.task) =
        ((s.laterThan time).takeWhile (marked s'.task)).length :=
      List.countP_eq_length.2 fun e he => List.mem_takeWhile_imp he
    have hsplit := congrArg (List.countP (marked s'.task))
      (List.takeWhile_append_dropWhile (p := marked s'.task) (l := s.laterThan time))
    have hparts := congrArg (List.countP (marked s.task)) (dueAt_append_laterThan s time)
    rw [List.countP_append] at hsplit hparts
    rw [hcount, hok.cancelled, hheap]
    omega
  case armed =>
    intro e he
    rw [harmed]
    cases hhead : s'.heap with
    | nil => simp [hhead] at he
    | cons top rest =>
      refine ⟨top.when, rfl, ?_⟩
      rw [hhead] at hsorted he
      rcases List.mem_cons.1 he with rfl | he
      · exact le_refl _
      · exact Entry.when_le ((List.pairwise_cons.1 hsorted).1 e he)

/-! ### The log -/

/-- How the log and the heap belong together: an entry is unmarked as long as no event has ended it,
a marked one has been ended, and a fired one is out of the heap and was not ended before. -/
structure LogOk (s : Heap Task) : Prop where
  queued : ∀ k a, s.task k = some a → ∃ e ∈ s.heap, e.seq = k ∧ .add e a ∈ s.log
  fresh : ∀ e a, .add e a ∈ s.log → e.seq ≤ s.seq
  unique : ∀ e a e' a', .add e a ∈ s.log → .add e' a' ∈ s.log → e.seq = e'.seq → e = e'
  ended_le : ∀ x ∈ s.log, ∀ k, x.ends = some k → k ≤ s.seq
  live : ∀ k, s.task k ≠ none → ∀ x ∈ s.log, x.ends ≠ some k
  settled : ∀ e a, .add e a ∈ s.log → s.task e.seq = none → ∃ x ∈ s.log, x.ends = some e.seq
  added : ∀ e ∈ s.heap, ∃ a, .add e a ∈ s.log
  gone : ∀ e a t, .fire e a t ∈ s.log → e.seq ∉ s.heap.map Entry.seq
  once : s.log.Pairwise fun x y => ∀ e a t, y = .fire e a t → x.ends ≠ some e.seq
  due : ∀ e a t, .fire e a t ∈ s.log → .add e a ∈ s.log ∧ e.when ≤ dueBy t

theorem LogOk.add (hok : LogOk s) (when : ℚ) (task : Task) :
    LogOk (add s when task) := by
  have hmem : ∀ e, e ∈ (DeadlineHeap.add s when task).heap ↔ e = ⟨when, s.seq + 1⟩ ∨ e ∈ s.heap :=
    fun e => List.mem_orderedInsert _
  have hlog : ∀ x, x ∈ (DeadlineHeap.add s when task).log ↔
      x ∈ s.log ∨ x = .add ⟨when, s.seq + 1⟩ task := by
    intro x
    simp [DeadlineHeap.add]
  have htask : ∀ k ≠ s.seq + 1, (DeadlineHeap.add s when task).task k = s.task k :=
    fun k hk => Function.update_of_ne hk _ _
  have hself : (DeadlineHeap.add s when task).task (s.seq + 1) = some task :=
    Function.update_self _ _ _
  constructor
  case queued =>
    intro k a hk
    by_cases hnew : k = s.seq + 1
    · subst hnew
      rw [hself] at hk
      cases hk
      exact ⟨_, (hmem _).2 (.inl rfl), rfl, (hlog _).2 (.inr rfl)⟩
    · rw [htask k hnew] at hk
      obtain ⟨e, he, heq, hin⟩ := hok.queued k a hk
      exact ⟨e, (hmem e).2 (.inr he), heq, (hlog _).2 (.inl hin)⟩
  case fresh =>
    intro e a hin
    rcases (hlog _).1 hin with hin | hin
    · exact (hok.fresh e a hin).trans (Nat.le_succ _)
    · cases hin
      exact le_refl _
  case unique =>
    intro e a e' a' hin hin' heq
    rcases (hlog _).1 hin with hin | hin <;> rcases (hlog _).1 hin' with hin' | hin'
    · exact hok.unique e a e' a' hin hin' heq
    · cases hin'
      have : e.seq ≤ s.seq := hok.fresh e a hin
      simp only at heq
      omega
    · cases hin
      have : e'.seq ≤ s.seq := hok.fresh e' a' hin'
      simp only at heq
      omega
    · cases hin
      cases hin'
      rfl
  case ended_le =>
    intro x hx k hk
    rcases (hlog _).1 hx with hx | rfl
    · exact (hok.ended_le x hx k hk).trans (Nat.le_succ _)
    · cases hk
  case live =>
    intro k hk x hx hends
    rcases (hlog _).1 hx with hx | rfl
    · have hle := hok.ended_le x hx k hends
      rw [htask k (by omega)] at hk
      exact hok.live k hk x hx hends
    · cases hends
  case settled =>
    intro e a hin hnone
    rcases (hlog _).1 hin with hin | hin
    · have hle := hok.fresh e a hin
      rw [htask e.seq (by omega)] at hnone
      obtain ⟨x, hx, hends⟩ := hok.settled e a hin hnone
      exact ⟨x, (hlog _).2 (.inl hx), hends⟩
    · cases hin
      rw [hself] at hnone
      cases hnone
  case added =>
    intro e he
    rcases (hmem e).1 he with rfl | he
    · exact ⟨task, (hlog _).2 (.inr rfl)⟩
    · obtain ⟨a, ha⟩ := hok.added e he
      exact ⟨a, (hlog _).2 (.inl ha)⟩
  case gone =>
    intro e a t hin hmap
    rcases (hlog _).1 hin with hin | hin
    · obtain ⟨e', he', heq⟩ := List.mem_map.1 hmap
      rcases (hmem e').1 he' with rfl | he'
      · have hle := hok.ended_le _ hin e.seq rfl
        simp only at heq
        omega
      · exact hok.gone e a t hin (List.mem_map.2 ⟨e', he', heq⟩)
    · cases hin
  case once =>
    refine List.pairwise_append.2 ⟨hok.once, List.pairwise_singleton _ _, ?_⟩
    rintro x - y hy e a t rfl
    cases List.mem_singleton.1 hy
  case due =>
    intro e a t hin
    rcases (hlog _).1 hin with hin | hin
    · obtain ⟨hadd, hle⟩ := hok.due e a t hin
      exact ⟨(hlog _).2 (.inl hadd), hle⟩
    · cases hin

/-- What `cancel` and `_fire` have in common: they end entries, and log it. -/
structure Ends (s s' : Heap Task) (l : List (Event Task)) : Prop where
  log : s'.log = s.log ++ l
  seq : s'.seq = s.seq
  heap : s'.heap ⊆ s.heap
  task : ∀ k, s'.task k ≠ none → s'.task k = s.task k ∧ ∀ x ∈ l, x.ends ≠ some k
  logged : ∀ k, s.task k ≠ none → s'.task k = none → ∃ x ∈ l, x.ends = some k
  ended : ∀ x ∈ l, ∃ k ≤ s.seq, x.ends = some k
  fired : ∀ e a t, .fire e a t ∈ l → e ∈ s.heap ∧ s.task e.seq = some a ∧
    e.when ≤ dueBy t ∧ e.seq ∉ s'.heap.map Entry.seq
  once : l.Pairwise fun x y => ∀ e a t, y = .fire e a t → x.ends ≠ some e.seq

theorem Ends.mem_log {l : List (Event Task)} (h : Ends s s' l) {x : Event Task} :
    x ∈ s'.log ↔ x ∈ s.log ∨ x ∈ l := by
  rw [h.log, List.mem_append]

theorem Ends.mem_log_add {l : List (Event Task)} (h : Ends s s' l) {a : Task} :
    .add e a ∈ s'.log ↔ .add e a ∈ s.log := by
  refine h.mem_log.trans ⟨fun hin => hin.resolve_right fun hin => ?_, .inl⟩
  obtain ⟨k, -, hk⟩ := h.ended _ hin
  cases hk

theorem LogOk.ends {l : List (Event Task)} (hheap' : HeapOk s') (hok : LogOk s)
    (h : Ends s s' l) : LogOk s' := by
  have hadded : ∀ e ∈ s.heap, ∀ a, s.task e.seq = some a → .add e a ∈ s.log := by
    intro e he a ha
    obtain ⟨e', he', heq, hin⟩ := hok.queued e.seq a ha
    obtain ⟨a', ha'⟩ := hok.added e he
    rwa [hok.unique e a' e' a ha' hin heq.symm]
  constructor
  case queued =>
    intro k a hk
    have hne : s'.task k ≠ none := by simp [hk]
    obtain ⟨e, he, rfl⟩ := hheap'.queued k hne
    rw [(h.task e.seq hne).1] at hk
    exact ⟨e, he, rfl, h.mem_log_add.2 (hadded e (h.heap he) a hk)⟩
  case fresh =>
    intro e a hin
    rw [h.seq]
    exact hok.fresh e a (h.mem_log_add.1 hin)
  case unique =>
    intro e a e' a' hin hin'
    exact hok.unique e a e' a' (h.mem_log_add.1 hin) (h.mem_log_add.1 hin')
  case ended_le =>
    intro x hx k hk
    rw [h.seq]
    rcases h.mem_log.1 hx with hx | hx
    · exact hok.ended_le x hx k hk
    · obtain ⟨k', hle, hk'⟩ := h.ended x hx
      rw [hk] at hk'
      cases hk'
      exact hle
  case live =>
    intro k hk x hx
    obtain ⟨heq, hl⟩ := h.task k hk
    rcases h.mem_log.1 hx with hx | hx
    · exact hok.live k (heq ▸ hk) x hx
    · exact hl x hx
  case settled =>
    intro e a hin hnone
    by_cases hold : s.task e.seq = none
    · obtain ⟨x, hx, hends⟩ := hok.settled e a (h.mem_log_add.1 hin) hold
      exact ⟨x, h.mem_log.2 (.inl hx), hends⟩
    · obtain ⟨x, hx, hends⟩ := h.logged e.seq hold hnone
      exact ⟨x, h.mem_log.2 (.inr hx), hends⟩
  case added =>
    intro e he
    obtain ⟨a, ha⟩ := hok.added e (h.heap he)
    exact ⟨a, h.mem_log_add.2 ha⟩
  case gone =>
    intro e a t hin hmap
    rcases h.mem_log.1 hin with hin | hin
    · obtain ⟨e', he', heq⟩ := List.mem_map.1 hmap
      exact hok.gone e a t hin (List.mem_map.2 ⟨e', h.heap he', heq⟩)
    · exact (h.fired e a t hin).2.2.2 hmap
  case once =>
    rw [h.log]
    refine List.pairwise_append.2 ⟨hok.once, h.once, ?_⟩
    rintro x hx y hy e a t rfl
    obtain ⟨-, hlive, -⟩ := h.fired e a t hy
    exact hok.live e.seq (by simp [hlive]) x hx
  case due =>
    intro e a t hin
    rcases h.mem_log.1 hin with hin | hin
    · obtain ⟨hadd, hle⟩ := hok.due e a t hin
      exact ⟨h.mem_log_add.2 hadd, hle⟩
    · obtain ⟨he, ha, hle, -⟩ := h.fired e a t hin
      exact ⟨h.mem_log_add.2 (hadded e he a ha), hle⟩

theorem ends_cancel {k : ℕ} (hk : k ≤ s.seq) : Ends s (cancel s k) [.cancel k] := by
  have hended : ∀ x ∈ [(.cancel k : Event Task)], ∃ j ≤ s.seq, x.ends = some j := by
    rintro x hx
    cases List.mem_singleton.1 hx
    exact ⟨k, hk, rfl⟩
  have hfire : ∀ e a t, Event.fire e a t ∉ [(.cancel k : Event Task)] :=
    fun e a t hin => nomatch List.mem_singleton.1 hin
  by_cases hlive : s.task k = none
  · have heq : cancel s k = { s with log := s.log ++ [.cancel k] } := by simp [cancel, hlive]
    rw [heq]
    refine ⟨rfl, rfl, fun _ => id, fun j hj => ⟨rfl, ?_⟩, fun j hj hnone => absurd hnone hj, hended,
      fun e a t hin => absurd hin (hfire e a t), List.pairwise_singleton _ _⟩
    rintro x hx hends
    cases List.mem_singleton.1 hx
    cases hends
    exact hj hlive
  · obtain ⟨htask, hlog, hseq, -, hheap⟩ := cancel_eq hlive
    refine ⟨hlog, hseq, ?_, fun j hj => ?_, fun j hj hnone => ?_, hended,
      fun e a t hin => absurd hin (hfire e a t), List.pairwise_singleton _ _⟩
    · rcases hheap with ⟨hheap, -⟩ | ⟨hheap, -⟩
      · rw [hheap]
        exact fun _ => id
      · rw [hheap]
        intro e he
        exact List.mem_of_mem_filter ((List.mem_insertionSort _).1 he)
    · have hne : j ≠ k := by
        rintro rfl
        simp [htask] at hj
      refine ⟨by rw [htask, Function.update_of_ne hne], fun x hx hends => ?_⟩
      cases List.mem_singleton.1 hx
      exact hne (Option.some.inj hends).symm
    · refine ⟨.cancel k, List.mem_singleton_self _, ?_⟩
      by_cases hne : j = k
      · rw [hne]
        rfl
      · rw [htask, Function.update_of_ne hne] at hnone
        exact absurd hnone hj

theorem ends_fire (hheap : HeapOk s) (h : fire s time = some s') :
    ∃ fired : List (Entry × Task), Ends s s' (fired.map fun f => .fire f.1 f.2 time) ∧
      (fired.map Prod.fst).Pairwise (· < ·) := by
  obtain ⟨htask, hlater, hheap', -, -, hseq, fired, hlog, hfired, hmem⟩ := fire_spec hheap.nodup h
  have hdue : ∀ f ∈ fired, f.1 ∈ s.dueAt time :=
    fun f hf => List.mem_of_mem_filter (hfired ▸ List.mem_map_of_mem hf)
  have hparts := dueAt_append_laterThan s time
  have hsub : (fired.map Prod.fst).Sublist s.heap := by
    rw [hfired, ← hparts]
    exact List.filter_sublist.trans (List.sublist_append_left _ _)
  have hnodup : (fired.map fun f => f.1.seq).Nodup := by
    have := hheap.nodup.sublist (hsub.map Entry.seq)
    rwa [List.map_map] at this
  have hsubset : s'.heap ⊆ s.laterThan time := by
    rw [hheap']
    exact (List.dropWhile_sublist _).subset
  refine ⟨fired, ⟨hlog, hseq, ?_, ?_, ?_, ?_, ?_, ?_⟩, ?_⟩
  · rw [← hparts]
    exact fun e he => List.mem_append_right _ (hsubset he)
  · intro k hk
    have hnot : k ∉ (s.dueAt time).map Entry.seq := by
      intro hin
      rw [htask, if_pos hin] at hk
      exact hk rfl
    refine ⟨by rw [htask, if_neg hnot], fun x hx hends => ?_⟩
    obtain ⟨f, hf, rfl⟩ := List.mem_map.1 hx
    cases hends
    exact hnot (List.mem_map_of_mem (hdue f hf))
  · intro k hold hnone
    have hin : k ∈ (s.dueAt time).map Entry.seq := by
      by_contra hnot
      rw [htask, if_neg hnot] at hnone
      exact hold hnone
    obtain ⟨e, he, rfl⟩ := List.mem_map.1 hin
    have hf : e ∈ fired.map Prod.fst := by
      rw [hfired]
      exact List.mem_filter.2 ⟨he, by simpa using hold⟩
    obtain ⟨f, hmem, rfl⟩ := List.mem_map.1 hf
    exact ⟨_, List.mem_map_of_mem hmem, rfl⟩
  · intro x hx
    obtain ⟨f, hf, rfl⟩ := List.mem_map.1 hx
    exact ⟨f.1.seq, hheap.le_seq f.1 (hsub.subset (List.mem_map_of_mem hf)), rfl⟩
  · intro e a t hin
    obtain ⟨f, hf, heq⟩ := List.mem_map.1 hin
    cases heq
    refine ⟨hsub.subset (List.mem_map_of_mem hf), hmem f hf, when_le_of_mem_dueAt (hdue f hf), ?_⟩
    intro hmap
    obtain ⟨e', he', heq⟩ := List.mem_map.1 hmap
    have hdisjoint := hheap.nodup
    rw [← hparts, List.map_append] at hdisjoint
    refine List.disjoint_of_nodup_append hdisjoint (List.mem_map_of_mem (hdue f hf)) ?_
    exact heq ▸ List.mem_map_of_mem (hsubset he')
  · refine List.pairwise_map.2 ((List.pairwise_map.1 hnodup).imp ?_)
    rintro f g hne e a t heq
    cases heq
    exact fun hends => hne (Option.some.inj hends)
  · have hsorted := hheap.sorted.sublist hsub
    have hne : (fired.map Prod.fst).Nodup := (hheap.nodup.of_map _).sublist hsub
    exact hsorted.imp₂ (fun _ _ hle hne => lt_of_le_of_ne hle hne) hne

/-! ### Every run -/

/-- **One call** keeps the heap and the log in order. -/
theorem ok_step {a : Label Task} (hheap : HeapOk s) (hlog : LogOk s) (h : step s a = some s') :
    HeapOk s' ∧ LogOk s' := by
  cases a with
  | add when task =>
    cases h
    exact ⟨hheap.add when task, hlog.add when task⟩
  | cancel k =>
    obtain ⟨hk, h⟩ := Option.ite_none_right_eq_some.1 h
    cases h
    exact ⟨hheap.cancel k, hlog.ends (hheap.cancel k) (ends_cancel hk)⟩
  | fire time =>
    obtain ⟨fired, hends, -⟩ := ends_fire hheap h
    exact ⟨hheap.fire h, hlog.ends (hheap.fire h) hends⟩

theorem ok_init : HeapOk ({} : Heap Task) ∧ LogOk ({} : Heap Task) := by
  refine ⟨⟨.nil, .nil, nofun, fun k hk => absurd rfl hk, rfl, nofun⟩, ?_⟩
  exact ⟨nofun, nofun, nofun, nofun, fun k hk => absurd rfl hk, nofun, nofun, nofun, .nil, nofun⟩

/-- **Every reachable heap** is in order. -/
theorem ok_reachable {C : Heap Task → Label Task → Prop} (h : (system Task).Reachable C s) :
    HeapOk s ∧ LogOk s := by
  refine System.Reachable.invariant (I := fun s => HeapOk s ∧ LogOk s) ?_
    (fun _ _ _ hok _ hstep => ok_step hok.1 hok.2 hstep) h
  rintro _ rfl
  exact ok_init

/-- An entry of the heap is marked exactly when it was cancelled. -/
theorem marked_iff_cancelled (hlog : LogOk s) (he : e ∈ s.heap) :
    marked s.task e = true ↔ .cancel e.seq ∈ s.log := by
  rw [marked_eq_true_iff]
  constructor
  · intro hnone
    obtain ⟨a, ha⟩ := hlog.added e he
    obtain ⟨x, hx, hends⟩ := hlog.settled e a ha hnone
    cases x with
    | add _ _ => cases hends
    | cancel k =>
      cases hends
      exact hx
    | fire e' a' t =>
      have hgone := hlog.gone e' a' t hx
      rw [Option.some.inj hends] at hgone
      exact absurd (List.mem_map_of_mem he) hgone
  · intro hin
    by_contra hne
    exact hlog.live e.seq hne _ hin rfl

/-- An entry that was neither cancelled nor fired is in the heap. -/
theorem mem_heap_of_live (hlog : LogOk s) {a : Task} (hadd : .add e a ∈ s.log)
    (hcancel : .cancel e.seq ∉ s.log) (hfire : ∀ a t, .fire e a t ∉ s.log) : e ∈ s.heap := by
  have hlive : s.task e.seq ≠ none := by
    intro hnone
    obtain ⟨x, hx, hends⟩ := hlog.settled e a hadd hnone
    cases x with
    | add _ _ => cases hends
    | cancel k =>
      cases hends
      exact hcancel hx
    | fire e' a' t =>
      have heq := hlog.unique e' a' e a (hlog.due e' a' t hx).1 hadd (Option.some.inj hends)
      exact hfire a' t (heq ▸ hx)
  obtain ⟨b, hb⟩ := Option.ne_none_iff_exists'.1 hlive
  obtain ⟨e', he', heq, hin⟩ := hlog.queued e.seq b hb
  exact hlog.unique e' b e a hin hadd heq ▸ he'

/-- Rounding moves the sum of the loop time and the slack by at most half of its last place. -/
theorem dueBy_le (time : ℚ) : dueBy time ≤ time + DEADLINE_CLOCK_SLACK_S +
    2 ^ (F64.quantum (time + DEADLINE_CLOCK_SLACK_S) - 1) := by
  have habs := (abs_le.1 (F64.abs_sub_nearest_le (time + DEADLINE_CLOCK_SLACK_S))).1
  rw [dueBy]
  linarith

/-- **The deadline heap is correct** in every run: the counter is the number of cancelled entries of
the heap; while an entry is neither cancelled nor fired, a timer is set, not after its deadline; an
entry fires at most once, not after it was cancelled, not while the rounded sum of the loop time and
the slack is below its deadline, so not earlier than the slack and half of a last place before it; and
the entries of one firing fire in the order of deadlines, ties in the order of submission. -/
theorem deadline_heap_correct (h : (system Task).Reachable System.anyStep s) :
    (s.cancelled = s.heap.countP (marked s.task) ∧
      ∀ e ∈ s.heap, marked s.task e = true ↔ .cancel e.seq ∈ s.log) ∧
    (∀ e a, .add e a ∈ s.log → .cancel e.seq ∉ s.log → (∀ a t, .fire e a t ∉ s.log) →
      ∃ w, s.armedAt = some w ∧ w ≤ e.when) ∧
    (s.log.Pairwise fun x y => ∀ e a t, y = .fire e a t →
      x ≠ .cancel e.seq ∧ ∀ a' t', x ≠ .fire e a' t') ∧
    (∀ e a t, .fire e a t ∈ s.log → .add e a ∈ s.log ∧ ¬dueBy t < e.when ∧
      ¬t < e.when - DEADLINE_CLOCK_SLACK_S - 2 ^ (F64.quantum (t + DEADLINE_CLOCK_SLACK_S) - 1)) ∧
    ∀ time s', step s (.fire time) = some s' →
      ∃ fired : List (Entry × Task), s'.log = s.log ++ fired.map (fun f => .fire f.1 f.2 time) ∧
        (fired.map Prod.fst).Pairwise fun e e' =>
          e.when < e'.when ∨ e.when = e'.when ∧ e.seq < e'.seq := by
  obtain ⟨hheap, hlog⟩ := ok_reachable h
  refine ⟨⟨hheap.cancelled, fun e he => marked_iff_cancelled hlog he⟩, ?_, ?_, ?_, ?_⟩
  · intro e a hadd hcancel hfire
    exact hheap.armed e (mem_heap_of_live hlog hadd hcancel hfire)
  · refine hlog.once.imp fun hends e a t hy => ⟨?_, fun a' t' => ?_⟩
    · rintro rfl
      exact hends e a t hy rfl
    · rintro rfl
      exact hends e a t hy rfl
  · intro e a t hin
    obtain ⟨hadd, hle⟩ := hlog.due e a t hin
    have hround := dueBy_le t
    refine ⟨hadd, not_lt.2 hle, ?_⟩
    linarith
  · intro time s' hstep
    obtain ⟨fired, hends, hsorted⟩ := ends_fire hheap hstep
    refine ⟨fired, hends.log, hsorted.imp ?_⟩
    exact fun hlt => Prod.Lex.toLex_lt_toLex.1 hlt

/-- Two deadlines: the first is cancelled and its timer finds nothing to fire, so it is set again for
the second. -/
def staleTimer : List (Label Unit) := [.add 5 (), .add 7 (), .cancel 1, .fire 5]

theorem deadline_heap_correct_stale_timer :
    ∃ s : Heap Unit, (system Unit).Reachable System.anyStep s ∧ s.cancelled = 0 ∧
      s.log = [.add ⟨5, 1⟩ (), .add ⟨7, 2⟩ (), .cancel 1] ∧ ∃ w, s.armedAt = some w ∧ w ≤ 7 := by
  have hreach := System.reachable_getD (M := system Unit) (s := {}) (C := System.anyStep)
    (l := staleTimer) rfl (fun _ _ _ => trivial) (by decide +kernel)
  have hlog : (((system Unit).run {} staleTimer).getD {}).log =
      [.add ⟨5, 1⟩ (), .add ⟨7, 2⟩ (), .cancel 1] := by decide +kernel
  refine ⟨_, hreach, by decide +kernel, hlog, ?_⟩
  refine (deadline_heap_correct hreach).2.1 ⟨7, 2⟩ () ?_ ?_ ?_ <;> rw [hlog] <;> simp

/-- A loop time below the deadline less the slack, exactly and in double precision, whose sum with the
slack is rounded up to the deadline. -/
theorem fires_below_slack :
    let time : ℚ := 9002695655113623 / 4503599627370496
    let when : ℚ := 4503599627370497 / 2251799813685248
    (F64.ofRat time = .finite time ∧ F64.ofRat when = .finite when) ∧
      (time < when - DEADLINE_CLOCK_SLACK_S ∧ time < F64.nearest (when - DEADLINE_CLOCK_SLACK_S)) ∧
      ∃ s : Heap Unit, (system Unit).Reachable System.anyStep s ∧
        .fire ⟨when, 1⟩ () time ∈ s.log := by
  intro time when
  have hreach := System.reachable_getD (M := system Unit) (s := {}) (C := System.anyStep)
    (l := [.add when (), .fire time]) rfl (fun _ _ _ => trivial) (by decide +kernel)
  exact ⟨by decide +kernel, by decide +kernel, _, hreach, by decide +kernel⟩

/-! ### The size of the heap -/

/-- The entries that are neither cancelled nor fired. -/
def unmarked (task : ℕ → Option Task) (heap : List Entry) : ℕ :=
  heap.countP fun e => !marked task e

/-- At most about as many marked entries as unmarked ones, or as the compaction minimum. -/
def Bounded (s : Heap Task) : Prop :=
  s.heap.length ≤ max (unmarked s.task s.heap + 101) (2 * unmarked s.task s.heap + 1)

/-- The unmarked entries that are not due at a loop time. -/
def liveLater (s : Heap Task) (time : ℚ) : ℕ :=
  unmarked s.task (s.heap.filter fun e => decide (dueBy time < e.when))

/-- A firing finds at most 101 entries counted as cancelled, or at most one more than unmarked ones that
are not due. -/
def FiresSparse (s : Heap Task) : Label Task → Prop
  | .fire time => s.cancelled ≤ max 101 ((liveLater s time : ℤ) + 1)
  | _ => True

instance (s : Heap Task) (a : Label Task) : Decidable (FiresSparse s a) :=
  match a with
  | .fire _ => inferInstanceAs (Decidable (_ ≤ _))
  | .add _ _ => isTrue trivial
  | .cancel _ => isTrue trivial

theorem length_eq_marked_add_unmarked (task : ℕ → Option Task) (heap : List Entry) :
    heap.length = heap.countP (marked task) + unmarked task heap := by
  rw [unmarked, List.length_eq_countP_add_countP (marked task), Nat.add_left_cancel_iff]
  exact List.countP_congr fun e _ => by simp

theorem bounded_iff :
    Bounded s ↔ s.heap.countP (marked s.task) ≤ max 101 (unmarked s.task s.heap + 1) := by
  rw [Bounded, length_eq_marked_add_unmarked s.task]
  omega

/-- In a sorted heap the entries that are not due are a final part. -/
theorem dropWhile_when_le (hsorted : heap.Pairwise (· ≤ ·)) (due : ℚ) :
    heap.dropWhile (fun e => decide (e.when ≤ due)) = heap.filter fun e => decide (due < e.when) := by
  induction heap with
  | nil => rfl
  | cons e heap ih =>
    obtain ⟨hle, hsorted⟩ := List.pairwise_cons.1 hsorted
    by_cases hdue : e.when ≤ due
    · rw [List.dropWhile_cons_of_pos (by simpa using hdue),
        List.filter_cons_of_neg (by simpa using hdue), ih hsorted]
    · have hall : ∀ e' ∈ heap, due < e'.when :=
        fun e' he' => (not_le.1 hdue).trans_le (Entry.when_le (hle e' he'))
      rw [List.dropWhile_cons_of_neg (by simpa using hdue),
        List.filter_cons_of_pos (by simpa using hdue), List.filter_eq_self.2 (by simpa using hall)]

/-- Dropping marked entries from the top leaves the unmarked ones. -/
theorem unmarked_dropWhile (task : ℕ → Option Task) (heap : List Entry) :
    unmarked task (heap.dropWhile (marked task)) = unmarked task heap := by
  induction heap with
  | nil => rfl
  | cons e heap ih =>
    by_cases h : marked task e = true
    · rw [List.dropWhile_cons_of_pos h, ih, unmarked, unmarked, List.countP_cons_of_neg (by simp [h])]
    · rw [List.dropWhile_cons_of_neg h]

/-- **A firing** in terms of its counter and of the entries that it leaves live: the counter does not
rise, and the live entries are those that were not due. -/
theorem bounded_fire (hok : HeapOk s) (h : fire s time = some s') :
    s'.cancelled ≤ s.cancelled ∧
      (Bounded s' ↔ s'.cancelled ≤ max 101 ((liveLater s time : ℤ) + 1)) := by
  obtain ⟨-, hlater, hheap, hcancelled, -⟩ := fire_spec hok.nodup h
  have hsame : unmarked s'.task (s.laterThan time) = unmarked s.task (s.laterThan time) :=
    List.countP_congr fun e he => by rw [marked, hlater e he, marked]
  have hlive : unmarked s'.task s'.heap = liveLater s time := by
    rw [hheap, unmarked_dropWhile, hsame, Heap.laterThan, dropWhile_when_le hok.sorted, liveLater]
  refine ⟨by omega, ?_⟩
  rw [bounded_iff, hlive, (hok.fire h).cancelled]
  omega

theorem Bounded.add (h : Bounded s) (hok : HeapOk s) (when : ℚ) (task : Task) :
    Bounded (add s when task) := by
  have hcancelled := (hok.add when task).cancelled
  have hlength : (DeadlineHeap.add s when task).heap.length = s.heap.length + 1 :=
    List.orderedInsert_length _ _ _
  have hold := length_eq_marked_add_unmarked s.task s.heap
  have hnew := length_eq_marked_add_unmarked (DeadlineHeap.add s when task).task
    (DeadlineHeap.add s when task).heap
  have hsame : (DeadlineHeap.add s when task).cancelled = s.cancelled := rfl
  rw [hsame, hok.cancelled, Nat.cast_inj] at hcancelled
  rw [bounded_iff] at h ⊢
  omega

/-- `cancel` compacts as soon as it would leave more marked entries than unmarked ones. -/
theorem Bounded.cancel (h : Bounded s) (hok : HeapOk s) (k : ℕ) : Bounded (cancel s k) := by
  by_cases hlive : s.task k = none
  · have heq : DeadlineHeap.cancel s k = { s with log := s.log ++ [.cancel k] } := by
      simp [DeadlineHeap.cancel, hlive]
    rw [heq]
    exact h
  · have hcancelled := (hok.cancel k).cancelled
    have hnew := length_eq_marked_add_unmarked (DeadlineHeap.cancel s k).task
      (DeadlineHeap.cancel s k).heap
    obtain ⟨-, -, -, -, ⟨hheap, hcount, hfew⟩ | ⟨-, hcount⟩⟩ := cancel_eq hlive
    · have hlength := congrArg List.length hheap
      simp only [DEADLINE_COMPACT_MIN] at hfew
      rw [bounded_iff]
      omega
    · rw [bounded_iff]
      omega

/-- **The size of the heap**: a run all of whose firings are sparse has a bounded heap after every
call; any other firing that pops no cancelled entry leaves a heap that is not. -/
theorem deadline_heap_bounded :
    (∀ s : Heap Task, (system Task).Reachable FiresSparse s → Bounded s) ∧
    ∀ s s' : Heap Task, (system Task).Reachable System.anyStep s →
      ∀ time, step s (.fire time) = some s' → s'.cancelled = s.cancelled →
        ¬FiresSparse s (.fire time) → ¬Bounded s' := by
  constructor
  · intro s h
    have hboth : HeapOk s ∧ LogOk s ∧ Bounded s := by
      refine System.Reachable.invariant (I := fun s => HeapOk s ∧ LogOk s ∧ Bounded s) ?_ ?_ h
      · rintro _ rfl
        exact ⟨ok_init.1, ok_init.2, Nat.zero_le _⟩
      · rintro s a s' ⟨hheap, hlog, hbounded⟩ hC hstep
        obtain ⟨hheap', hlog'⟩ := ok_step hheap hlog hstep
        refine ⟨hheap', hlog', ?_⟩
        cases a with
        | add when task =>
          cases hstep
          exact hbounded.add hheap when task
        | cancel k =>
          obtain ⟨-, hstep⟩ := Option.ite_none_right_eq_some.1 hstep
          cases hstep
          exact hbounded.cancel hheap k
        | fire time =>
          obtain ⟨hle, hiff⟩ := bounded_fire hheap hstep
          exact hiff.2 (hle.trans hC)
    exact hboth.2.2
  · intro s s' h time hstep hsame hC hbounded
    refine hC ?_
    have hcounter := (bounded_fire (ok_reachable h).1 hstep).2.1 hbounded
    rwa [hsame] at hcounter

/-- 150 deadlines, of which 101 are cancelled, the last with a compaction; some of the others fire, one
more is cancelled, and some more fire. -/
def compactedRun : List (Label Unit) :=
  (List.range 150).map (fun (i : ℕ) => .add (i + 1) ()) ++
    (List.range 101).map (fun (i : ℕ) => .cancel (i + 1)) ++ [.fire 120, .cancel 150, .fire 130]

set_option maxRecDepth 10000 in
theorem compactedRun_heap :
    ((system Unit).runIf (fun s a => decide (FiresSparse s a)) {} compactedRun).map
      (fun s => (s.heap.length, s.cancelled)) = some (20, 1) := by
  decide +kernel

theorem deadline_heap_bounded_compacted :
    ∃ s : Heap Unit, (system Unit).Reachable FiresSparse s ∧ s.heap.length = 20 ∧ s.cancelled = 1 ∧
      Bounded s := by
  obtain ⟨s, hrun, hs⟩ := Option.map_eq_some_iff.1 compactedRun_heap
  obtain ⟨hlength, hcancelled⟩ := Prod.ext_iff.1 hs
  have hfires : (system Unit).Reachable (fun s a => decide (FiresSparse s a) = true) s :=
    ⟨{}, rfl, System.reach_of_runIf _ hrun⟩
  have hreach : (system Unit).Reachable FiresSparse s := hfires.mono fun _ _ => of_decide_eq_true
  exact ⟨s, hreach, hlength, hcancelled, deadline_heap_bounded.1 s hreach⟩

/-- 102 late deadlines, of which 100 are cancelled, then one earlier and 101 early ones; two more are
cancelled, half of the heap, and the early ones fire. -/
def earlyOnesFire : List (Label Unit) :=
  (List.range 102).map (fun (i : ℕ) => .add (2000 - i) ()) ++
    (List.range 100).map (fun (i : ℕ) => .cancel (i + 1)) ++ [.add 500 ()] ++
    (List.range 101).map (fun (i : ℕ) => .add (200 - i) ()) ++ [.cancel 101, .cancel 102, .fire 200]

set_option maxRecDepth 10000 in
theorem earlyOnesFire_heap :
    ((system Unit).run {} earlyOnesFire).map (fun s => (s.heap.length, s.cancelled)) =
      some (103, 102) := by
  decide +kernel

theorem deadline_heap_unbounded :
    ¬∀ s : Heap Unit, (system Unit).Reachable System.anyStep s → Bounded s := by
  intro h
  obtain ⟨s, hrun, hs⟩ := Option.map_eq_some_iff.1 earlyOnesFire_heap
  obtain ⟨hlength, hcancelled⟩ := Prod.ext_iff.1 hs
  have hreach : (system Unit).Reachable System.anyStep s :=
    ⟨{}, rfl, System.reach_of_run _ (fun _ _ _ => trivial) hrun⟩
  have hcount := (ok_reachable hreach).1.cancelled
  have hsplit := length_eq_marked_add_unmarked s.task s.heap
  have hbounded := bounded_iff.1 (h s hreach)
  simp only at hlength hcancelled
  omega

end Cauli.DeadlineHeap
