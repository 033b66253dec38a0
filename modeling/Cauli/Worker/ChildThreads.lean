import Cauli.Lib.Fence
import Cauli.Lib.Transition

/-!
# Soft timeouts of the threaded cpu child (`py/cauli/_exec.py`)

A worker thread of a child takes request after request. One with a soft timeout is armed before its
body and disarmed after it; every request is disarmed again after its response. The watchdog compares
generations under the lock and injects after it has left the lock, which is where it differs from
the watchdog of the sync io lane.

* `Phase`, `Thread.move`: a thread in `worker_loop`;
* `Phase.raised`: where an exception takes the thread;
* `NoClearInWindow`: no thread ends the disarm after its response while the watchdog stands between
  comparing and injecting for it;
* `soft_timeout_hits_own_request`: what the fence is worth in the runs that meet this;
* `soft_timeout_hits_later_request`: a run that does not.
-/

namespace Cauli.ChildThreads

open Fencing Transition

/-- Where a worker thread is in `worker_loop`. -/
inductive Phase
  /-- In `requests.get()`. -/
  | waiting
  /-- The line is decoded, the hooks before the task run. -/
  | starting
  /-- In `arm`, which has read the generation. -/
  | arming (gen : ℕ)
  /-- The deadline is on the heap, `arm` has not returned. -/
  | pushed
  | running (armed : Bool)
  /-- In the `disarm` after the body, before the generation is raised. -/
  | disarming
  /-- The same `disarm`, before the pending exception is cleared. -/
  | clearing
  /-- The response is built and written. -/
  | responding
  /-- In the `disarm` after the response, before the generation is raised. -/
  | redisarming
  /-- The same `disarm`, before the pending exception is cleared. -/
  | reclearing
  | dead
  deriving DecidableEq

/-- A worker thread; `request` counts the requests it has taken. -/
structure Thread where
  phase : Phase := .waiting
  request : ℕ := 0
  deriving DecidableEq

/-- What becomes of an exception that strikes: the code it strikes handles it and goes on, it ends
the stretch of code it strikes, or it gets past the next handler too. -/
inductive Strike
  | kept
  | left
  | lost
  deriving DecidableEq

/-- Where a raised exception takes the thread. Up to the response `_handle_request_line` and
`_safe_handle_and_respond` catch it; in `requests.get()` and in the last `disarm` nothing does. -/
def Phase.raised : Phase → Strike → Option Phase
  | .dead, _ => none
  | .running armed, .kept => some (.running armed)
  | .running true, .left => some .disarming
  | .responding, .kept => some .responding
  | .responding, .left => some .redisarming
  | .responding, .lost => some .dead
  | .waiting, _ => some .dead
  | .redisarming, _ => some .dead
  | .reclearing, _ => some .dead
  | _, _ => some .responding

/-- What a worker thread does next. -/
inductive Move
  /-- `requests.get()` returns a line. -/
  | get
  /-- The request ends before its body: a line that does not decode, an unknown task, a failure in
  a hook or in `arm`. -/
  | fail
  | readGen
  | heappush
  | run
  | finish
  | bump
  | clear
  | respond
  /-- The pending exception is raised in the thread. -/
  | deliver (strike : Strike)
  deriving DecidableEq

/-- One step of a worker thread. -/
def Thread.move (t : ℕ) (f : Fence) (th : Thread) (m : Move) : Option (Fence × Thread) :=
  match th.phase, m with
  | .waiting, .get => some (f, ⟨.starting, th.request + 1⟩)
  | .starting, .fail => some (f, ⟨.responding, th.request⟩)
  | .starting, .readGen => some (f, ⟨.arming (f.gen t), th.request⟩)
  | .starting, .run => some (f, ⟨.running false, th.request⟩)
  | .arming _, .fail => some (f, ⟨.responding, th.request⟩)
  | .arming gen, .heappush => some (f.push ⟨t, gen, th.request⟩, ⟨.pushed, th.request⟩)
  | .pushed, .run => some (f, ⟨.running true, th.request⟩)
  | .running true, .finish => some (f, ⟨.disarming, th.request⟩)
  | .running false, .finish => some (f, ⟨.responding, th.request⟩)
  | .disarming, .bump => some (f.setGen t (f.gen t + 1), ⟨.clearing, th.request⟩)
  | .clearing, .clear => some (f.setPending t none, ⟨.responding, th.request⟩)
  | .responding, .respond => some (f, ⟨.redisarming, th.request⟩)
  | .redisarming, .bump => some (f.setGen t (f.gen t + 1), ⟨.reclearing, th.request⟩)
  | .reclearing, .clear => some (f.setPending t none, ⟨.waiting, th.request⟩)
  | phase, .deliver strike =>
    if f.pending t = none then none
    else (phase.raised strike).map fun p => (f.setPending t none, ⟨p, th.request⟩)
  | _, _ => none

/-- The watchdog's heap, the generations and the worker threads. -/
structure State where
  fence : Fence := {}
  threads : ℕ → Thread := fun _ => {}

/-- The second half of `_inject`, outside the lock. `PyThreadState_SetAsyncExc` does nothing for a
thread that has ended. -/
def setAsyncExc (s : State) : Option Fence :=
  s.fence.compared.bind fun e =>
    if (s.threads e.tid).phase = .dead then some s.fence.forget else s.fence.inject

/-- A step of a worker thread or of the watchdog. -/
inductive Label
  | thread (t : ℕ) (m : Move)
  | heappop (e : Deadline)
  /-- The first half of `_inject`, under the lock. -/
  | compare
  | setAsyncExc

/-- One step of the child. -/
def step (s : State) : Label → Option State
  | .thread t m =>
    ((s.threads t).move t s.fence m).map fun r => ⟨r.1, Function.update s.threads t r.2⟩
  | .heappop e => (s.fence.pop e).map fun f => { s with fence := f }
  | .compare => if s.fence.compared = none then s.fence.compare.map fun f => { s with fence := f }
    else none
  | .setAsyncExc => (ChildThreads.setAsyncExc s).map fun f => { s with fence := f }

/-- The child starts with an empty heap, generations at zero and threads that wait. -/
def system : System State Label := ⟨fun s => s = {}, step⟩

/-- No thread ends the `disarm` after its response while the watchdog has compared a deadline of it
and has not injected. -/
def NoClearInWindow (s : State) : Label → Prop
  | .thread t m => m = .clear → (s.threads t).phase = .reclearing → s.fence.passed t = []
  | _ => True

instance (s : State) : DecidablePred (NoClearInWindow s)
  | .thread _ m => inferInstanceAs (Decidable (m = .clear → _ → _))
  | .heappop _ | .compare | .setAsyncExc => .isTrue trivial

/-! ### The invariant of a thread -/

/-- How many exceptions may be under way for a thread. -/
def Phase.limit : Phase → ℕ
  | .waiting | .starting | .arming _ | .running false | .dead => 0
  | _ => 1

theorem Phase.limit_le_one (phase : Phase) : phase.limit ≤ 1 := by
  cases phase with
  | running armed => cases armed <;> simp [limit]
  | _ => simp [limit]

/-- The phases in which no deadline of the thread may pass a comparison. -/
def Phase.fenced : Phase → Bool
  | .pushed | .running true | .disarming => false
  | _ => true

/-- What is under way for a thread belongs to its request, and the generation has fenced off what
is not injected where the request is past its body. -/
structure ThreadOk (f : Fence) (t : ℕ) (th : Thread) : Prop where
  atMost : f.AtMost t th.phase.limit th.request
  fenced : th.phase.fenced = true → f.live t = []
  gen : ∀ g, th.phase = .arming g → f.gen t = g

variable {f f' : Fence} {t u : ℕ} {th th' : Thread}

theorem ThreadOk.frame (h : ThreadOk f t th) (hframe : Fence.Frame f f' t) : ThreadOk f' t th := by
  refine ⟨h.atMost.frame hframe, fun hfenced => ?_, fun g hg => hframe.gen.trans (h.gen g hg)⟩
  exact hframe.live_eq_nil (h.fenced hfenced)

/-- A thread for which nothing is under way is sound in every phase. -/
theorem ThreadOk.of_zero {n : ℕ} (h : f.AtMost t 0 n)
    (hgen : ∀ g, th.phase = .arming g → f.gen t = g) :
    ThreadOk f t th :=
  ⟨h.of_zero _ _, fun _ => h.eq_nil.1, hgen⟩

/-- A step of an armed request that leaves the fence alone. -/
theorem ThreadOk.quiet (h : ThreadOk f t th) {phase : Phase} (hlimit : th.phase.limit = phase.limit)
    (hfenced : phase.fenced = true → th.phase.fenced = true) (hgen : ∀ g, phase ≠ .arming g) :
    ThreadOk f t ⟨phase, th.request⟩ :=
  ⟨hlimit ▸ h.atMost, fun hf => h.fenced (hfenced hf), fun g hg => absurd hg (hgen g)⟩

/-- The generation is raised above every deadline of the thread. -/
theorem ThreadOk.bump (h : ThreadOk f t th) (hb : f.Bounded) {phase : Phase}
    (hlimit : th.phase.limit = phase.limit) (hgen : ∀ g, phase ≠ .arming g) :
    ThreadOk (f.setGen t (f.gen t + 1)) t ⟨phase, th.request⟩ := by
  have hlt : f.gen t < f.gen t + 1 := Nat.lt_succ_self _
  refine ⟨?_, fun _ => Fence.live_setGen_self hb hlt, fun g hg => absurd hg (hgen g)⟩
  exact hlimit ▸ h.atMost.setGen hb hlt

/-- The exception that strikes is the only one under way. -/
theorem ThreadOk.raised (h : ThreadOk f t th) (hp : f.pending t ≠ none) {strike : Strike}
    {phase : Phase} (hraised : th.phase.raised strike = some phase) :
    ThreadOk (f.setPending t none) t ⟨phase, th.request⟩ := by
  obtain ⟨m, hm⟩ := Option.ne_none_iff_exists'.1 hp
  have hone : f.AtMost t 1 th.request := h.atMost.mono th.phase.limit_le_one
  refine ThreadOk.of_zero (hone.take hm) ?_
  rintro g rfl
  cases hphase : th.phase with
  | running armed => cases armed <;> cases strike <;> simp [hphase, Phase.raised] at hraised
  | _ => cases strike <;> simp [hphase, Phase.raised] at hraised

/-- **One step of a thread**: the thread stays sound and the others are not touched. -/
theorem ThreadOk.move (hb : f.Bounded) (h : ThreadOk f t th) {m : Move}
    (hwindow : m = .clear → th.phase = .reclearing → f.passed t = [])
    (hmove : th.move t f m = some (f', th')) :
    f'.Bounded ∧ ThreadOk f' t th' ∧ ∀ u ≠ t, Fence.Frame f f' u := by
  obtain ⟨phase, request⟩ := th
  unfold Thread.move at hmove
  dsimp only at hmove
  split at hmove
  case h_6 gen =>
    -- `heappush`: the generation that was read is still the thread's
    cases hmove
    have hgen : f.gen t = gen := h.gen gen rfl
    refine ⟨hb.push hgen.symm, ⟨?_, nofun, nofun⟩, fun u hu => Fence.frame_push hu⟩
    exact Fence.AtMost.push (e := ⟨t, gen, request⟩) h.atMost hgen.symm
  case h_10 =>
    cases hmove
    refine ⟨hb.setGen (Nat.le_succ _), h.bump hb rfl nofun, fun u hu => ?_⟩
    exact Fence.frame_setGen hu f _
  case h_13 =>
    cases hmove
    refine ⟨hb.setGen (Nat.le_succ _), h.bump hb rfl nofun, fun u hu => ?_⟩
    exact Fence.frame_setGen hu f _
  case h_11 =>
    -- a deadline that has passed the comparison may still be injected after this `clear`
    cases hmove
    refine ⟨hb, ⟨?_, fun _ => h.fenced rfl, nofun⟩, fun u hu => Fence.frame_setPending hu f _⟩
    exact h.atMost.frame (Fence.frame_clear f t)
  case h_14 =>
    cases hmove
    have hzero : (f.setPending t none).AtMost t 0 request :=
      Fence.AtMost.clear (h.fenced rfl) (hwindow rfl rfl)
    exact ⟨hb, .of_zero hzero nofun, fun u hu => Fence.frame_setPending hu f _⟩
  case h_15 strike =>
    split_ifs at hmove with hp
    obtain ⟨phase', hraised, hmove⟩ := Option.map_eq_some_iff.1 hmove
    cases hmove
    exact ⟨hb, h.raised hp hraised, fun u hu => Fence.frame_setPending hu f _⟩
  case h_16 => cases hmove
  case h_3 =>
    cases hmove
    refine ⟨hb, .of_zero h.atMost ?_, fun u _ => .refl f u⟩
    intro g hg
    exact Phase.arming.inj hg
  all_goals
    cases hmove
    first
      | exact ⟨hb, .of_zero h.atMost nofun, fun u _ => .refl f u⟩
      | exact ⟨hb, h.quiet rfl (by simp [Phase.fenced]) nofun, fun u _ => .refl f u⟩

/-! ### Every interleaving -/

/-- Only a pending exception can be raised. -/
theorem pending_of_deliver {s s' : State} {strike : Strike}
    (h : step s (.thread t (.deliver strike)) = some s') : s.fence.pending t ≠ none := by
  obtain ⟨r, hmove, -⟩ := Option.map_eq_some_iff.1 h
  intro hnone
  simp [Thread.move, hnone] at hmove

/-- The invariant of the child. -/
structure ChildOk (s : State) : Prop where
  bounded : s.fence.Bounded
  thread : ∀ t, ThreadOk s.fence t (s.threads t)

theorem ChildOk.of_frame {s : State} (h : ChildOk s) (hb : f'.Bounded)
    (hframe : ∀ t, Fence.Frame s.fence f' t) : ChildOk { s with fence := f' } :=
  ⟨hb, fun t => (h.thread t).frame (hframe t)⟩

theorem childOk_step {s s' : State} {a : Label} (h : ChildOk s) (hwindow : NoClearInWindow s a)
    (hstep : step s a = some s') : ChildOk s' := by
  cases a with
  | thread t m =>
    obtain ⟨⟨f', th'⟩, hmove, rfl⟩ := Option.map_eq_some_iff.1 hstep
    obtain ⟨hb, hok, hframe⟩ := ThreadOk.move h.bounded (h.thread t) hwindow hmove
    exact ⟨hb, Fence.forall_update (fun _ _ hu => hu.frame) h.thread hok hframe⟩
  | heappop e =>
    obtain ⟨f', hpop, rfl⟩ := Option.map_eq_some_iff.1 hstep
    exact h.of_frame (h.bounded.pop hpop) (Fence.frame_pop hpop)
  | compare =>
    unfold step at hstep
    split_ifs at hstep with hnone
    obtain ⟨f', hcompare, rfl⟩ := Option.map_eq_some_iff.1 hstep
    exact h.of_frame (h.bounded.compare hcompare) (Fence.frame_compare hcompare hnone)
  | setAsyncExc =>
    obtain ⟨f', hset, rfl⟩ := Option.map_eq_some_iff.1 hstep
    obtain ⟨e, -, hset⟩ := Option.bind_eq_some_iff.1 hset
    split_ifs at hset with hdead
    · cases hset
      exact h.of_frame h.bounded (Fence.frame_forget s.fence)
    · exact h.of_frame (h.bounded.inject hset) (Fence.frame_inject hset)

theorem childOk_init : ChildOk {} := by
  refine ⟨nofun, fun t => ThreadOk.of_zero (n := 0) ?_ nofun⟩
  exact List.Subperm.refl []

/-- **Every state of a run in which no clear falls into the window is sound.** -/
theorem childOk_reachable {s : State} (h : system.Reachable NoClearInWindow s) : ChildOk s := by
  refine System.Reachable.invariant ?_
    (fun _ _ _ hok hwindow hstep => childOk_step hok hwindow hstep) h
  rintro _ rfl
  exact childOk_init

/-- **In a run in which no thread ends its last `disarm` inside the watchdog's window, no soft
timeout hits a later request**: an exception that is pending in a thread, or strikes it, was injected
for the deadline of the request that the thread has in hand. -/
theorem soft_timeout_hits_own_request {s : State} (h : system.Reachable NoClearInWindow s) (t : ℕ) :
    (∀ m, s.fence.pending t = some m →
      m = (s.threads t).request ∧ (s.threads t).phase.limit = 1) ∧
    ∀ strike s', step s (.thread t (.deliver strike)) = some s' →
      s.fence.pending t = some (s.threads t).request := by
  have hok := (childOk_reachable h).thread t
  have hpending : ∀ m, s.fence.pending t = some m →
      m = (s.threads t).request ∧ (s.threads t).phase.limit = 1 := by
    intro m hm
    have hle := (s.threads t).phase.limit_le_one
    have hpos := hok.atMost.pos_of_pending hm
    exact ⟨hok.atMost.eq_of_pending hm, by omega⟩
  refine ⟨hpending, fun strike s' hstep => ?_⟩
  obtain ⟨m, hm⟩ := Option.ne_none_iff_exists'.1 (pending_of_deliver hstep)
  rw [hm, (hpending m hm).1]

/-- The schedule of a thread whose second request runs into its own deadline. -/
def secondStruck : List Label :=
  let thread (m : Move) := Label.thread 7 m
  [thread .get, thread .readGen, thread .heappush, thread .run, thread .finish, thread .bump,
    thread .clear, thread .respond, thread .bump, thread .clear, .heappop ⟨7, 0, 1⟩, .compare,
    thread .get, thread .readGen, thread .heappush, thread .run, .heappop ⟨7, 2, 2⟩, .compare,
    .setAsyncExc]

theorem soft_timeout_hits_own_request_second :
    ∃ s, system.Reachable NoClearInWindow s ∧ s.fence.pending 7 = some 2 ∧
      (s.threads 7).request = 2 := by
  let c : State → Label → Bool := fun s a => decide (NoClearInWindow s a)
  have hreach : system.Reachable NoClearInWindow ((system.runIf c {} secondStruck).getD {}) :=
    (System.reachable_runIf rfl rfl).mono fun _ _ h => of_decide_eq_true h
  exact ⟨_, hreach, rfl, ((soft_timeout_hits_own_request hreach 7).1 2 rfl).1.symm⟩

/-- The schedule of a watchdog that is held up after the comparison, while the thread ends its first
request and begins its second. -/
def heldUp : List Label :=
  let thread (m : Move) := Label.thread 7 m
  [thread .get, thread .readGen, thread .heappush, thread .run, .heappop ⟨7, 0, 1⟩, .compare,
    thread .finish, thread .bump, thread .clear, thread .respond, thread .bump, thread .clear,
    thread .get, thread .run, .setAsyncExc]

/-- **A soft timeout can hit a later request**: the exception of the first request is pending, and
then strikes, in the body of the second one. -/
theorem soft_timeout_hits_later_request :
    ∃ s s', system.Reachable System.anyStep s ∧ s.threads 7 = ⟨.running false, 2⟩ ∧
      s.fence.pending 7 = some 1 ∧ step s (.thread 7 (.deliver .left)) = some s' := by
  have hreach := System.reachable_getD (M := system) (s := {}) (C := System.anyStep) (l := heldUp)
    rfl (fun _ _ _ => trivial) rfl
  exact ⟨_, _, hreach, rfl, rfl, rfl⟩

end Cauli.ChildThreads
