import Mathlib.Logic.Function.Basic
import Mathlib.Data.List.Perm.Subperm

/-!
# Deadlines fenced by generations

A watchdog thread injects exceptions into other threads when their deadlines have passed. A deadline
is never taken back; instead it carries the generation its thread had when it was set, and a thread
that moves on raises its generation. An exception that was injected is pending until the thread takes
it or clears it, and there is room for one in a thread. The task of a deadline, and of a pending
exception, is a record of the run.

* `Fence`: the heap, the deadline the watchdog has popped, the one it has compared, generations and
  pending exceptions;
* `Fence.live`: the deadlines of a thread whose generation is still the thread's;
* `Fence.underWay`: the tasks whose exception is pending or may still be injected;
* `Fence.AtMost`: at most so many exceptions are under way, all of one task;
* `Frame`: what an operation that is not the thread's own leaves it with.
-/

namespace Fencing

/-- A deadline of a thread. -/
structure Deadline where
  tid : ℕ
  gen : ℕ
  task : ℕ
  deriving DecidableEq

/-- The state that threads and watchdog share. -/
structure Fence where
  heap : List Deadline := []
  popped : Option Deadline := none
  compared : Option Deadline := none
  gen : ℕ → ℕ := fun _ => 0
  pending : ℕ → Option ℕ := fun _ => none

namespace Fence

/-- The deadlines that were not compared yet. -/
def deadlines (f : Fence) : List Deadline := f.popped.toList ++ f.heap

/-- The deadlines of a thread that would pass the comparison. -/
def live (f : Fence) (t : ℕ) : List Deadline :=
  f.deadlines.filter fun e => decide (e.tid = t ∧ e.gen = f.gen t)

/-- The deadline of a thread that has passed the comparison and is not injected. -/
def passed (f : Fence) (t : ℕ) : List Deadline :=
  f.compared.toList.filter fun e => decide (e.tid = t)

/-- The tasks whose exception is pending in a thread or may still be injected. -/
def underWay (f : Fence) (t : ℕ) : List ℕ :=
  (f.live t).map Deadline.task ++ ((f.passed t).map Deadline.task ++ (f.pending t).toList)

/-- A deadline goes on the heap. -/
def push (f : Fence) (e : Deadline) : Fence := { f with heap := e :: f.heap }

/-- The watchdog takes a deadline from the heap. -/
def pop (f : Fence) (e : Deadline) : Option Fence :=
  if f.popped = none ∧ f.compared = none ∧ e ∈ f.heap then
    some { f with heap := f.heap.erase e, popped := some e }
  else none

/-- The watchdog compares the generation of the deadline with that of its thread. -/
def compare (f : Fence) : Option Fence :=
  f.popped.map fun e =>
    if f.gen e.tid = e.gen then { f with popped := none, compared := some e }
    else { f with popped := none }

/-- The pending exception of a thread is set or cleared. -/
def setPending (f : Fence) (t : ℕ) (p : Option ℕ) : Fence :=
  { f with pending := Function.update f.pending t p }

/-- The watchdog injects the exception of the deadline that has passed. -/
def inject (f : Fence) : Option Fence :=
  f.compared.map fun e => { f with compared := none }.setPending e.tid (some e.task)

/-- The watchdog is done with the deadline that has passed. -/
def forget (f : Fence) : Fence := { f with compared := none }

/-- The generation of a thread is set. -/
def setGen (f : Fence) (t g : ℕ) : Fence := { f with gen := Function.update f.gen t g }

/-- No deadline is from a later generation than its thread. -/
def Bounded (f : Fence) : Prop := ∀ e ∈ f.deadlines, e.gen ≤ f.gen e.tid

/-- At most `k` exceptions are under way for a thread, all of them of task `n`. -/
def AtMost (f : Fence) (t k n : ℕ) : Prop := (f.underWay t).Subperm (List.replicate k n)

/-- What an operation that is not the thread's own may do to it. -/
structure Frame (f f' : Fence) (t : ℕ) : Prop where
  underWay : (f'.underWay t).Subperm (f.underWay t)
  live : (f'.live t).Subperm (f.live t)
  gen : f'.gen t = f.gen t

variable {f f' f'' : Fence} {t u k n m : ℕ} {e : Deadline}

@[simp] theorem setPending_pending_self (f : Fence) (t : ℕ) (p : Option ℕ) :
    (f.setPending t p).pending t = p := Function.update_self ..

theorem setPending_pending_of_ne (h : u ≠ t) (f : Fence) (p : Option ℕ) :
    (f.setPending t p).pending u = f.pending u := Function.update_of_ne h ..

@[simp] theorem setGen_gen_self (f : Fence) (t g : ℕ) : (f.setGen t g).gen t = g :=
  Function.update_self ..

theorem setGen_gen_of_ne (h : u ≠ t) (f : Fence) (g : ℕ) : (f.setGen t g).gen u = f.gen u :=
  Function.update_of_ne h ..

theorem passed_eq_nil (h : f.compared = none) (t : ℕ) : f.passed t = [] := by
  rw [passed, h]
  rfl

/-! ### What the operations do to the deadlines -/

theorem deadlines_push (f : Fence) (e : Deadline) :
    (f.push e).deadlines.Perm (e :: f.deadlines) := List.perm_middle

theorem pop_eq_some (h : f.pop e = some f') :
    f'.compared = f.compared ∧ f'.gen = f.gen ∧ f'.pending = f.pending ∧
      f'.deadlines.Perm f.deadlines := by
  unfold pop at h
  split_ifs at h with hpop
  obtain ⟨hnone, -, hmem⟩ := hpop
  cases h
  refine ⟨rfl, rfl, rfl, ?_⟩
  rw [deadlines, deadlines, hnone]
  exact (List.perm_cons_erase hmem).symm

/-- A comparison passes the deadline on if the generations agree, and drops it otherwise. -/
theorem compare_eq_some (h : f.compare = some f') :
    f'.gen = f.gen ∧ f'.pending = f.pending ∧ ∃ e, f.deadlines = e :: f'.deadlines ∧
      ((f.gen e.tid = e.gen ∧ f'.compared = some e) ∨
        (f.gen e.tid ≠ e.gen ∧ f'.compared = f.compared)) := by
  obtain ⟨e, he, rfl⟩ := Option.map_eq_some_iff.1 h
  have hdeadlines : f.deadlines = e :: f.heap := by rw [deadlines, he]; rfl
  split_ifs with hgen
  · exact ⟨rfl, rfl, e, hdeadlines, .inl ⟨hgen, rfl⟩⟩
  · exact ⟨rfl, rfl, e, hdeadlines, .inr ⟨hgen, rfl⟩⟩

theorem inject_eq_some (h : f.inject = some f') :
    ∃ e, f.compared = some e ∧ f' = f.forget.setPending e.tid (some e.task) := by
  obtain ⟨e, he, rfl⟩ := Option.map_eq_some_iff.1 h
  exact ⟨e, he, rfl⟩

/-- **A thread that moves on has no live deadline.** -/
theorem live_setGen_self (h : f.Bounded) {g : ℕ} (hg : f.gen t < g) :
    (f.setGen t g).live t = [] := by
  refine List.filter_eq_nil_iff.2 fun e he => ?_
  rw [setGen_gen_self, decide_eq_true_iff]
  rintro ⟨rfl, hgen⟩
  have hle : e.gen ≤ f.gen e.tid := h e he
  omega

/-! ### The bound -/

theorem Bounded.push (h : f.Bounded) (he : e.gen = f.gen e.tid) : (f.push e).Bounded := by
  intro e' he'
  rcases List.mem_cons.1 ((deadlines_push f e).mem_iff.1 he') with rfl | hold
  · exact Nat.le_of_eq he
  · exact h e' hold

theorem Bounded.pop (h : f.Bounded) (hpop : f.pop e = some f') : f'.Bounded := by
  obtain ⟨-, hgen, -, hperm⟩ := pop_eq_some hpop
  intro e' he'
  rw [hgen]
  exact h e' (hperm.mem_iff.1 he')

theorem Bounded.compare (h : f.Bounded) (hc : f.compare = some f') : f'.Bounded := by
  obtain ⟨hgen, -, e, hdeadlines, -⟩ := compare_eq_some hc
  intro e' he'
  rw [hgen]
  exact h e' (hdeadlines ▸ List.mem_cons_of_mem _ he')

theorem Bounded.setGen (h : f.Bounded) {g : ℕ} (hg : f.gen t ≤ g) : (f.setGen t g).Bounded := by
  intro e he
  have hle : e.gen ≤ f.gen e.tid := h e he
  by_cases ht : e.tid = t
  · rw [ht, setGen_gen_self]
    exact Nat.le_trans (ht ▸ hle) hg
  · rw [setGen_gen_of_ne ht]
    exact hle

theorem Bounded.inject (h : f.Bounded) (hi : f.inject = some f') : f'.Bounded := by
  obtain ⟨e, -, rfl⟩ := inject_eq_some hi
  exact h

/-! ### Frames -/

theorem Frame.refl (f : Fence) (t : ℕ) : Frame f f t := ⟨.refl _, .refl _, rfl⟩

theorem Frame.trans (h : Frame f f' t) (h' : Frame f' f'' t) : Frame f f'' t :=
  ⟨h'.underWay.trans h.underWay, h'.live.trans h.live, h'.gen.trans h.gen⟩

theorem Frame.live_eq_nil (h : Frame f f' t) (hlive : f.live t = []) : f'.live t = [] :=
  List.subperm_nil.1 (hlive ▸ h.live)

theorem frame_push (h : t ≠ e.tid) : Frame f (f.push e) t := by
  have hlive : ((f.push e).live t).Perm (f.live t) := by
    have hperm := (deadlines_push f e).filter fun x => decide (x.tid = t ∧ x.gen = f.gen t)
    rwa [List.filter_cons_of_neg (by simpa using fun he => absurd he.symm h)] at hperm
  exact ⟨((hlive.map _).append_right _).subperm, hlive.subperm, rfl⟩

theorem frame_pop (h : f.pop e = some f') (t : ℕ) : Frame f f' t := by
  obtain ⟨hcompared, hgen, hpending, hperm⟩ := pop_eq_some h
  have hlive : (f'.live t).Perm (f.live t) := by
    rw [live, live, hgen]
    exact hperm.filter _
  refine ⟨?_, hlive.subperm, congrFun hgen t⟩
  rw [underWay, underWay, passed, passed, hcompared, hpending]
  exact ((hlive.map _).append_right _).subperm

theorem frame_setGen (h : t ≠ u) (f : Fence) (g : ℕ) : Frame f (f.setGen u g) t := by
  have hlive : (f.setGen u g).live t = f.live t := by
    rw [live, live, setGen_gen_of_ne h]
    rfl
  refine ⟨?_, hlive ▸ .refl _, setGen_gen_of_ne h f g⟩
  rw [underWay, underWay, hlive]
  exact .refl _

theorem frame_setPending (h : t ≠ u) (f : Fence) (p : Option ℕ) : Frame f (f.setPending u p) t := by
  refine ⟨?_, .refl _, rfl⟩
  rw [underWay, underWay, setPending_pending_of_ne h]
  exact .refl _

theorem frame_clear (f : Fence) (t : ℕ) : Frame f (f.setPending t none) t := by
  refine ⟨?_, .refl _, rfl⟩
  refine List.Sublist.subperm (List.Sublist.append (.refl _) ?_)
  rw [setPending_pending_self, Option.toList_none, List.append_nil]
  exact List.sublist_append_left _ _

theorem frame_forget (f : Fence) (t : ℕ) : Frame f f.forget t := by
  refine ⟨?_, .refl _, rfl⟩
  refine List.Sublist.subperm (List.Sublist.append (.refl _) ?_)
  exact List.sublist_append_right _ _

/-- The watchdog's comparison brings nothing new under way: what passes was live. -/
theorem frame_compare (h : f.compare = some f') (hnone : f.compared = none) (t : ℕ) :
    Frame f f' t := by
  obtain ⟨hgen, hpending, e, hdeadlines, hcases⟩ := compare_eq_some h
  have hlive : (f'.live t).Sublist (f.live t) := by
    rw [live, live, hgen, hdeadlines]
    exact (List.sublist_cons_self ..).filter _
  refine ⟨?_, hlive.subperm, congrFun hgen t⟩
  rcases hcases with ⟨heq, hcompared⟩ | ⟨-, hcompared⟩
  · by_cases ht : e.tid = t
    · have hcons : f.live t = e :: f'.live t := by
        rw [live, live, hgen, hdeadlines, List.filter_cons_of_pos (by simp [ht, ← heq])]
      rw [underWay, underWay, passed, passed, hcons, hcompared, hnone, hpending]
      have hperm : ((f'.live t).map Deadline.task ++ e.task :: (f.pending t).toList).Perm
          (e.task :: ((f'.live t).map Deadline.task ++ (f.pending t).toList)) := List.perm_middle
      simpa [ht] using hperm.subperm
    · rw [underWay, underWay, passed, passed, hcompared, hnone, hpending]
      simpa [ht] using ((hlive.map Deadline.task).append_right _).subperm
  · rw [underWay, underWay, passed, passed, hcompared, hpending]
    exact ((hlive.map _).append_right _).subperm

/-- An injection brings nothing new under way: it was under way when the comparison was passed. -/
theorem frame_inject (h : f.inject = some f') (t : ℕ) : Frame f f' t := by
  obtain ⟨e, he, rfl⟩ := inject_eq_some h
  by_cases ht : t = e.tid
  · subst ht
    refine ⟨?_, .refl _, rfl⟩
    refine List.Sublist.subperm (List.Sublist.append (.refl _) ?_)
    rw [passed, passed, setPending_pending_self, he]
    simp [forget, setPending]
  · exact (frame_forget f t).trans (frame_setPending ht _ _)

/-- What frames keep holds of all threads after a step of one of them. -/
theorem forall_update {Θ : Type*} {Ok : Fence → ℕ → Θ → Prop} {threads : ℕ → Θ} {th' : Θ}
    (hkeep : ∀ u th, Ok f u th → Frame f f' u → Ok f' u th) (h : ∀ u, Ok f u (threads u))
    (ht : Ok f' t th') (hframe : ∀ u ≠ t, Frame f f' u) (u : ℕ) :
    Ok f' u (Function.update threads t th' u) := by
  by_cases hu : u = t
  · subst hu
    rwa [Function.update_self]
  · rw [Function.update_of_ne hu]
    exact hkeep u _ (h u) (hframe u hu)

/-! ### What is under way for a thread -/

theorem AtMost.frame (h : f.AtMost t k n) (hframe : Frame f f' t) : f'.AtMost t k n :=
  hframe.underWay.trans h

theorem AtMost.eq_of_pending (h : f.AtMost t k n) (hp : f.pending t = some m) : m = n := by
  have hmem : m ∈ f.underWay t := by simp [underWay, hp]
  exact List.eq_of_mem_replicate (h.subset hmem)

/-- An exception that is taken is no longer under way. -/
theorem AtMost.take (h : f.AtMost t (k + 1) n) (hp : f.pending t = some m) :
    (f.setPending t none).AtMost t k n := by
  have hcons : (f.underWay t).Perm (m :: (f.setPending t none).underWay t) := by
    rw [underWay, underWay, hp, setPending_pending_self, Option.toList_none, List.append_nil,
      Option.toList_some, ← List.append_assoc]
    exact List.perm_append_singleton _ _
  have hsub := hcons.symm.subperm.trans h
  rw [h.eq_of_pending hp, List.replicate_succ] at hsub
  exact (List.subperm_cons n).1 hsub

/-- Nothing is under way in a thread without live deadlines that has cleared, unless a deadline of
it stands between comparison and injection. -/
theorem AtMost.clear (hlive : f.live t = []) (hpassed : f.passed t = []) :
    (f.setPending t none).AtMost t 0 n := by
  have hnil : (f.setPending t none).underWay t = [] := by
    rw [underWay, setPending_pending_self]
    simp only [List.append_eq_nil_iff, List.map_eq_nil_iff, Option.toList_eq_nil_iff, and_true]
    exact ⟨hlive, hpassed⟩
  rw [AtMost, hnil]
  exact List.nil_subperm

theorem AtMost.eq_nil (h : f.AtMost t 0 n) : f.live t = [] ∧ f.pending t = none := by
  have hnil : f.underWay t = [] := List.subperm_nil.1 h
  simp only [underWay, List.append_eq_nil_iff, List.map_eq_nil_iff, Option.toList_eq_nil_iff] at hnil
  exact ⟨hnil.1, hnil.2.2⟩

theorem AtMost.mono (h : f.AtMost t k n) {k' : ℕ} (hk : k ≤ k') : f.AtMost t k' n :=
  h.trans ((List.replicate_sublist_replicate n).2 hk).subperm

theorem AtMost.pos_of_pending (h : f.AtMost t k n) (hp : f.pending t = some m) : 0 < k := by
  rcases Nat.eq_zero_or_pos k with rfl | hk
  · rw [h.eq_nil.2] at hp
    cases hp
  · exact hk

/-- Only the number of exceptions counts when there is none. -/
theorem AtMost.of_zero (h : f.AtMost t 0 n) (k n' : ℕ) : f.AtMost t k n' :=
  h.trans List.nil_subperm

/-- A new deadline is one more exception under way. -/
theorem AtMost.push (h : f.AtMost e.tid k e.task) (he : e.gen = f.gen e.tid) :
    (f.push e).AtMost e.tid (k + 1) e.task := by
  have hlive : ((f.push e).live e.tid).Perm (e :: f.live e.tid) := by
    have hperm := (deadlines_push f e).filter fun x => decide (x.tid = e.tid ∧ x.gen = f.gen e.tid)
    rwa [List.filter_cons_of_pos (by simpa using he)] at hperm
  have hcons : ((f.push e).underWay e.tid).Perm (e.task :: f.underWay e.tid) :=
    (hlive.map Deadline.task).append_right _
  exact hcons.subperm.trans ((List.subperm_cons e.task).2 h)

/-- Raising the generation brings nothing new under way. -/
theorem AtMost.setGen (h : f.AtMost t k n) (hb : f.Bounded) {g : ℕ} (hg : f.gen t < g) :
    (f.setGen t g).AtMost t k n := by
  refine List.Subperm.trans ?_ h
  rw [underWay, live_setGen_self hb hg]
  exact (List.sublist_append_right _ _).subperm

end Fence

end Fencing
