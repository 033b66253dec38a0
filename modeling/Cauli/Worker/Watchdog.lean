import Mathlib.Data.List.Basic
import Mathlib.Order.Nat
import Mathlib.Tactic.SplitIfs
import Cauli.Lib.Parties
import Cauli.Lib.Transition

/-!
# The watchdog of the event loops (`worker/src/loops.rs`, `worker/src/shim.py`)

Every tick the worker stamps each event loop by a callback, reads how old the last stamp is and how much
work the loop has, and ends the process when a loop is wedged. The loops run while a probe is under way, so
each access to a counter of a loop is one step.

* `Loop`, `LoopBeat`: a loop and what a probe reads of it;
* `wedgeConfirmed`, `WedgeLoop.judge`: the decision of a tick;
* `step`: the steps of the loops, of the probe and of the clock;
* `WatchdogOk`: what the watchdog's memory says about the ticks so far;
* `wedge_watchdog`: the process is ended only for a loop that stood still, and for each loop that does.

Instants are in milliseconds, on the one monotonic clock of the process.
-/

namespace Cauli.Watchdog

open Transition

/-- `HEARTBEAT_INTERVAL_MS`. -/
def HEARTBEAT_INTERVAL_MS : ℕ := 5000

/-- `WEDGE_WINDOW_MS`. -/
def WEDGE_WINDOW_MS : ℕ := 3 * HEARTBEAT_INTERVAL_MS

/-- `LoopBeat`. -/
structure LoopBeat where
  lagMs : ℕ
  outstanding : ℕ
  completed : ℕ

/-- `LoopWatch`. -/
structure LoopWatch where
  completed : ℕ
  progressAt : ℕ

/-- `wedge_confirmed`. -/
def wedgeConfirmed (lagMs outstanding sinceProgressMs : ℕ) (sinceRejectionMs : Option ℕ) : Bool :=
  let stampStale := decide (WEDGE_WINDOW_MS ≤ lagMs)
  let nothingFinishing := decide (0 < outstanding ∧ WEDGE_WINDOW_MS ≤ sinceProgressMs)
  let rejecting := sinceRejectionMs.any fun ms => ms ≤ WEDGE_WINDOW_MS
  stampStale && (nothingFinishing || rejecting)

/-- What `wedge_loop` keeps between its ticks, and `LOOP_LAG_MS`. -/
structure WedgeLoop where
  watches : List LoopWatch := []
  rejected : ℕ := 0
  rejectedAt : Option ℕ := none
  loopLagMs : ℕ := 0

/-- The watch of a loop after a beat. -/
def LoopWatch.see (now : ℕ) (watch : LoopWatch) (beat : LoopBeat) : LoopWatch :=
  if beat.completed ≠ watch.completed then ⟨beat.completed, now⟩ else watch

/-- `resize_with`. -/
def resize (n : ℕ) (watch : LoopWatch) (watches : List LoopWatch) : List LoopWatch :=
  watches.take n ++ List.replicate (n - watches.length) watch

/-- A tick after its probe: what is kept, and the first loop that is found wedged. `seen` is the number of
rejections so far. -/
def WedgeLoop.judge (dog : WedgeLoop) (now seen : ℕ) (beats : List LoopBeat) :
    WedgeLoop × Option ℕ :=
  let rejected := if dog.rejected < seen then seen else dog.rejected
  let rejectedAt := if dog.rejected < seen then some now else dog.rejectedAt
  let watches := List.zipWith (LoopWatch.see now) (resize beats.length ⟨0, now⟩ dog.watches) beats
  let wedged := (watches.zip beats).findIdx? fun (watch, beat) =>
    wedgeConfirmed beat.lagMs beat.outstanding (now - watch.progressAt) (rejectedAt.map fun t => now - t)
  (⟨watches, rejected, rejectedAt, (beats.map LoopBeat.lagMs).foldl max 0⟩, wedged)

/-- An event loop, with the shim's lists at its index. -/
structure Loop where
  /-- `_hb_sent`. -/
  sent : Option ℕ := none
  /-- `_hb_lag`. -/
  lag : ℕ := 0
  /-- `_hb_sub`. -/
  sub : ℕ := 0
  /-- `_hb_done`. -/
  done : ℕ := 0
  /-- The stamps that are scheduled and have not run. -/
  ready : List ℕ := []
  /-- `_hb_ack` has stored the lag and not yet the `None`. -/
  clearing : Bool := false
  /-- A record: the stamps that have run, with the instant at which they were over. -/
  ran : List (ℕ × ℕ) := []
  /-- A record: when its tasks were completed. -/
  finished : List ℕ := []

/-- What the probe does next with a loop. -/
inductive Probe
  | stamp
  | submitted (lagMs : ℕ)
  | completed (lagMs submitted : ℕ)

/-- Where `wedge_loop` is. -/
inductive Stage
  | sleeping
  | probing (start : ℕ) (beats : List LoopBeat) (next : Probe)

/-- A tick, as a record: the `now` of the probe, that of the tick, and what was read. -/
structure Tick where
  start : ℕ
  at_ : ℕ
  seen : ℕ
  beats : List LoopBeat

/-- The worker. `ticks` is a record, and so is `firstRejected`, what `wedge_loop` read of the rejections before
its first tick. -/
structure State where
  now : ℕ := 0
  loops : List Loop := []
  asyncRejected : ℕ := 0
  shuttingDown : Bool := false
  dog : WedgeLoop := {}
  stage : Stage := .sleeping
  exited : Option ℕ := none
  firstRejected : ℕ := 0
  ticks : List Tick := []

/-- The steps. -/
inductive Label
  | time (d : ℕ)
  | submit (i : ℕ)
  | finish (i : ℕ)
  /-- `_hb_ack` runs, up to the lag. -/
  | ack (i : ℕ)
  /-- The rest of `_hb_ack`. -/
  | clear (i : ℕ)
  | reject
  | shutDown
  | tick
  /-- The stamp of the next loop; `ok` is whether `call_soon_threadsafe` took it. -/
  | stamp (ok : Bool)
  | readSubmitted
  | readCompleted
  /-- The probe fails. -/
  | fail
  | judge

/-- A step of loop `i`. -/
def stepLoop (s : State) (i : ℕ) (f : Loop → Option Loop) : Option State :=
  (s.loops[i]?).bind fun l => (f l).map fun l' => { s with loops := s.loops.set i l' }

/-- `_hb_ack` up to the lag. -/
def Loop.ack (now : ℕ) (l : Loop) : Option Loop :=
  match l.clearing, l.ready with
  | false, sent :: ready => some { l with lag := now - sent, ready := ready, clearing := true }
  | _, _ => none

/-- The rest of `_hb_ack`. -/
def Loop.clear (now : ℕ) (l : Loop) : Option Loop :=
  if l.clearing then
    some { l with sent := none, clearing := false, ran := l.ran ++ l.sent.toList.map fun a => (a, now) }
  else none

/-- The stamp of a loop, and the lag that the probe reads. -/
def Loop.stamp (start : ℕ) (ok : Bool) (l : Loop) : Loop × ℕ :=
  match l.sent with
  | none => (if ok then { l with sent := some start, ready := l.ready ++ [start] } else l, l.lag)
  | some sent => (l, start - sent)

/-- The steps of the probe and of the tick. -/
def stepProbe (s : State) : Label → Option State
  | .tick =>
    match s.stage with
    | .sleeping =>
      if s.shuttingDown || s.exited.isSome then none else some { s with stage := .probing s.now [] .stamp }
    | .probing .. => none
  | .stamp ok =>
    match s.stage with
    | .probing start beats .stamp =>
      (s.loops[beats.length]?).map fun l => { s with
        loops := s.loops.set beats.length (l.stamp start ok).1
        stage := .probing start beats (.submitted (l.stamp start ok).2) }
    | _ => none
  | .readSubmitted =>
    match s.stage with
    | .probing start beats (.submitted lagMs) =>
      (s.loops[beats.length]?).map fun l => { s with
        stage := .probing start beats (.completed lagMs l.sub) }
    | _ => none
  | .readCompleted =>
    match s.stage with
    | .probing start beats (.completed lagMs submitted) =>
      (s.loops[beats.length]?).map fun l => { s with
        stage := .probing start (beats ++ [⟨lagMs, submitted - l.done, l.done⟩]) .stamp }
    | _ => none
  | .fail =>
    match s.stage with
    | .probing .. => some { s with stage := .sleeping }
    | .sleeping => none
  | .judge =>
    match s.stage with
    | .probing start beats .stamp =>
      if beats.length = s.loops.length then
        some { s with
          stage := .sleeping
          dog := (s.dog.judge s.now s.asyncRejected beats).1
          exited := (s.dog.judge s.now s.asyncRejected beats).2
          ticks := s.ticks ++ [⟨start, s.now, s.asyncRejected, beats⟩] }
      else none
    | _ => none
  | _ => none

/-- One step. -/
def step (s : State) : Label → Option State
  | .time d => some { s with now := s.now + d }
  | .submit i => stepLoop s i fun l => some { l with sub := l.sub + 1 }
  | .finish i => stepLoop s i fun l =>
      some { l with done := l.done + 1, finished := l.finished ++ [s.now] }
  | .ack i => stepLoop s i (Loop.ack s.now)
  | .clear i => stepLoop s i (Loop.clear s.now)
  | .reject => some { s with asyncRejected := s.asyncRejected + 1 }
  | .shutDown => some { s with shuttingDown := true }
  | l => stepProbe s l

/-- The runs of a worker with `n` loops. -/
def system (n : ℕ) : System State Label where
  init s := ∃ now rejected, s =
    { now := now, loops := List.replicate n {}, asyncRejected := rejected, dog := { rejected := rejected },
      firstRejected := rejected }
  step := step

/-! ### The loops -/

/-- The newest stamp of the loop from before a probe at `start` was not over within `WEDGE_WINDOW_MS`: it still
stands and was so old at the probe, or it has run so late, and all stamps after it are of the probe or later. -/
def Loop.Stalled (start : ℕ) (l : Loop) : Prop :=
  (∃ a, l.sent = some a ∧ a + WEDGE_WINDOW_MS ≤ start) ∨
    ∃ pre a b post, l.ran = pre ++ (a, b) :: post ∧ a + WEDGE_WINDOW_MS ≤ b ∧
      (∀ p ∈ post, start ≤ p.1) ∧ ∀ a', l.sent = some a' → start ≤ a'

/-- What a long `_hb_lag` says: the last stamp that has run was late, or the one whose `_hb_ack` is not over. -/
def Loop.Late (now : ℕ) (l : Loop) : Prop :=
  (l.clearing = true → ∃ a, l.sent = some a ∧ a + WEDGE_WINDOW_MS ≤ now) ∧
    (l.clearing = false → ∃ a b, l.ran.getLast? = some (a, b) ∧ a + WEDGE_WINDOW_MS ≤ b)

/-- What holds of a loop: it has at most one stamp, and a long lag is that of a stamp. -/
structure LoopOk (now : ℕ) (l : Loop) : Prop where
  sent : ∀ a, l.sent = some a → a ≤ now
  ready : ∀ a ∈ l.ready, l.sent = some a
  clearing : l.clearing = true → l.sent ≠ none
  single : l.clearing.toNat + l.ready.length ≤ 1
  lag : WEDGE_WINDOW_MS ≤ l.lag → l.Late now
  done : l.done = l.finished.length
  finished : ∀ t ∈ l.finished, t ≤ now

/-- What a beat says about its loop, when its probe began at `start` and it was read until `read`. -/
structure BeatOk (start read : ℕ) (l : Loop) (beat : LoopBeat) : Prop where
  lag : WEDGE_WINDOW_MS ≤ beat.lagMs → l.Stalled start
  completed : beat.completed ≤ l.finished.length
  before : ∀ t ∈ l.finished.take beat.completed, t ≤ read
  after : ∀ t ∈ l.finished.drop beat.completed, start ≤ t

/-- What a loop may become at the instant `now`, by a stamp of the probe at `since` at most. -/
structure Moves (since now : ℕ) (l l' : Loop) : Prop where
  ok : LoopOk now l'
  stalled : ∀ start ≤ since, l.Stalled start → l'.Stalled start
  finished : ∃ more, l'.finished = l.finished ++ more ∧ ∀ t ∈ more, now ≤ t

section Loops

variable {start read now now' : ℕ} {l l' : Loop} {beat : LoopBeat}

theorem Loop.Late.mono (h : l.Late now) (hle : now ≤ now') : l.Late now' := by
  refine ⟨fun hclearing => ?_, h.2⟩
  obtain ⟨a, ha, hlate⟩ := h.1 hclearing
  exact ⟨a, ha, hlate.trans hle⟩

theorem LoopOk.mono (h : LoopOk now l) (hle : now ≤ now') : LoopOk now' l :=
  ⟨fun a ha => (h.sent a ha).trans hle, h.ready, h.clearing, h.single,
    fun hlag => (h.lag hlag).mono hle, h.done, fun t ht => (h.finished t ht).trans hle⟩

theorem BeatOk.mono (h : BeatOk start read l beat) {read' : ℕ} (hread : read ≤ read') :
    BeatOk start read' l beat :=
  ⟨h.lag, h.completed, fun t ht => (h.before t ht).trans hread, h.after⟩

/-- A beat stays true of its loop. -/
theorem BeatOk.moves {since : ℕ} (h : BeatOk start read l beat) (hmoves : Moves since now l l')
    (hsince : start ≤ since) (hstart : start ≤ now) : BeatOk start read l' beat := by
  obtain ⟨more, hfinished, hmore⟩ := hmoves.finished
  refine ⟨fun hlag => hmoves.stalled start hsince (h.lag hlag), ?_, fun t ht => ?_, fun t ht => ?_⟩
  · rw [hfinished, List.length_append]
    exact h.completed.trans (Nat.le_add_right _ _)
  · rw [hfinished, List.take_append_of_le_length h.completed] at ht
    exact h.before t ht
  · rw [hfinished, List.drop_append_of_le_length h.completed] at ht
    rcases List.mem_append.1 ht with ht | ht
    · exact h.after t ht
    · exact hstart.trans (hmore t ht)

theorem LoopOk.moves_submit (h : LoopOk now l) : Moves now now l { l with sub := l.sub + 1 } :=
  ⟨⟨h.sent, h.ready, h.clearing, h.single, h.lag, h.done, h.finished⟩, fun _ _ => id, [], by simp⟩

theorem LoopOk.moves_finish (h : LoopOk now l) :
    Moves now now l { l with done := l.done + 1, finished := l.finished ++ [now] } := by
  refine ⟨⟨h.sent, h.ready, h.clearing, h.single, h.lag, ?_, fun t ht => ?_⟩, fun _ _ => id, [now], rfl,
    by simp⟩
  · rw [List.length_append, List.length_singleton, h.done]
  · rcases List.mem_append.1 ht with ht | ht
    · exact h.finished t ht
    · exact (List.mem_singleton.1 ht).le

theorem LoopOk.moves_ack (h : LoopOk now l) (hs : l.ack now = some l') : Moves now now l l' := by
  unfold Loop.ack at hs
  split at hs
  · next sent ready hclearing hready =>
    cases hs
    have hsent : l.sent = some sent := h.ready sent (by simp [hready])
    have hle := h.sent sent hsent
    have hsingle := h.single
    rw [hclearing, hready, Bool.toNat_false, Nat.zero_add, List.length_cons] at hsingle
    refine ⟨⟨h.sent, fun a ha => h.ready a (by simp [hready, ha]), fun _ => by simp [hsent], ?_, fun hlag => ?_,
      h.done, h.finished⟩, fun _ _ => id, [], by simp⟩
    · show Bool.toNat true + ready.length ≤ 1
      rw [Bool.toNat_true]
      omega
    · have hlag : WEDGE_WINDOW_MS ≤ now - sent := hlag
      refine ⟨fun _ => ⟨sent, hsent, ?_⟩, nofun⟩
      omega
  · cases hs

theorem LoopOk.moves_clear (h : LoopOk now l) (hs : l.clear now = some l') : Moves now now l l' := by
  unfold Loop.clear at hs
  obtain ⟨hclearing, hs⟩ := Option.ite_none_right_eq_some.1 hs
  cases hs
  obtain ⟨sent, hsent⟩ := Option.ne_none_iff_exists'.1 (h.clearing hclearing)
  rw [hsent, Option.toList_some, List.map_singleton]
  have hready : l.ready = [] := by
    have hsingle := h.single
    rw [hclearing, Bool.toNat_true] at hsingle
    exact List.length_eq_zero_iff.1 (by omega)
  refine ⟨⟨nofun, ?_, nofun, ?_, fun hlag => ⟨nofun, fun _ => ?_⟩, h.done, h.finished⟩, fun start hstart => ?_,
    [], by simp⟩
  · rw [hready]
    nofun
  · simp [hready]
  · obtain ⟨a, ha, hlate⟩ := (h.lag hlag).1 hclearing
    obtain rfl : sent = a := Option.some.inj (hsent.symm.trans ha)
    exact ⟨sent, now, by simp, hlate⟩
  · -- the stamp that stood has run now, and only it
    rintro (⟨a, ha, hlate⟩ | ⟨pre, a, b, post, hran, hlate, hpost, hnewest⟩)
    · obtain rfl : sent = a := Option.some.inj (hsent.symm.trans ha)
      exact .inr ⟨l.ran, sent, now, [], rfl, hlate.trans hstart, nofun, nofun⟩
    · refine .inr ⟨pre, a, b, post ++ [(sent, now)], by simp [hran], hlate, fun p hp => ?_, nofun⟩
      rcases List.mem_append.1 hp with hp | hp
      · exact hpost p hp
      · rw [List.mem_singleton.1 hp]
        exact hnewest sent hsent

/-- The stamp of a loop, and what a long lag says. -/
theorem LoopOk.moves_stamp (h : LoopOk now l) (hstart : start ≤ now) (ok : Bool) :
    Moves start now l (l.stamp start ok).1 ∧
      (WEDGE_WINDOW_MS ≤ (l.stamp start ok).2 → (l.stamp start ok).1.Stalled start) := by
  unfold Loop.stamp
  split
  · next hsent =>
    have hready : l.ready = [] := by
      refine List.eq_nil_iff_forall_not_mem.2 fun a ha => ?_
      rw [h.ready a ha] at hsent
      cases hsent
    have hclearing : l.clearing = false := by
      by_contra hclearing
      exact h.clearing (by simpa using hclearing) hsent
    -- without a stamp the lag is that of the last one that has run
    have hlast : ∀ {m : Loop}, m.ran = l.ran → (∀ a, m.sent = some a → start ≤ a) → WEDGE_WINDOW_MS ≤ l.lag →
        m.Stalled start := by
      intro m hran hnewest hlag
      obtain ⟨a, b, hab, hlate⟩ := (h.lag hlag).2 hclearing
      obtain ⟨pre, hpre⟩ := List.getLast?_eq_some_iff.1 hab
      exact .inr ⟨pre, a, b, [], hran.trans hpre, hlate, nofun, hnewest⟩
    split_ifs
    · refine ⟨⟨⟨fun a ha => ?_, ?_, fun hc => ?_, ?_, fun hlag => ?_, h.done, h.finished⟩, fun first hfirst => ?_,
        [], by simp⟩, hlast rfl fun a ha => (Option.some.inj ha).le⟩
      · cases ha
        exact hstart
      · simp [hready]
      · nofun
      · simp [hready, hclearing]
      · refine ⟨fun hc => ?_, (h.lag hlag).2⟩
        rw [hclearing] at hc
        cases hc
      · rintro (⟨a, ha, -⟩ | ⟨pre, a, b, post, hran, hlate, hpost, -⟩)
        · rw [hsent] at ha
          cases ha
        · exact .inr ⟨pre, a, b, post, hran, hlate, hpost, fun a' ha' => hfirst.trans (Option.some.inj ha').le⟩
    · refine ⟨⟨h, fun _ _ => id, [], by simp⟩, hlast rfl fun a ha => ?_⟩
      rw [hsent] at ha
      cases ha
  · next sent hsent =>
    refine ⟨⟨h, fun _ _ => id, [], by simp⟩, fun hlag => .inl ⟨sent, hsent, ?_⟩⟩
    have hlag : WEDGE_WINDOW_MS ≤ start - sent := hlag
    have hpos : 0 < WEDGE_WINDOW_MS := by decide
    omega

end Loops

/-! ### The ticks so far -/

/-- `P` holds in the list from the occurrence of `a` on. -/
def Since {α : Type*} (P : α → Prop) (l : List α) (a : α) : Prop :=
  ∃ pre post, l = pre ++ a :: post ∧ ∀ b ∈ a :: post, P b

theorem Since.mem {α : Type*} {P : α → Prop} {l : List α} {a : α} (h : Since P l a) : a ∈ l := by
  obtain ⟨pre, post, rfl, -⟩ := h
  simp

theorem since_concat {α : Type*} {P : α → Prop} {l : List α} {a b : α} :
    Since P (l ++ [b]) a ↔ P b ∧ (a = b ∨ Since P l a) := by
  constructor
  · rintro ⟨pre, post, heq, hpost⟩
    rcases List.eq_nil_or_concat post with rfl | ⟨post, c, rfl⟩
    · obtain ⟨-, hlast⟩ := List.append_inj' heq rfl
      obtain rfl : b = a := by simpa using hlast
      exact ⟨hpost b List.mem_cons_self, .inl rfl⟩
    · have heq : l ++ [b] = pre ++ a :: post ++ [c] := by simpa using heq
      obtain ⟨rfl, hlast⟩ := List.append_inj' heq rfl
      obtain rfl := List.singleton_inj.1 hlast
      refine ⟨hpost b (by simp), .inr ⟨pre, post, rfl, fun d hd => hpost d ?_⟩⟩
      rcases List.mem_cons.1 hd with rfl | hd <;> simp [*]
  · rintro ⟨hb, rfl | ⟨pre, post, rfl, hpost⟩⟩
    · exact ⟨l, [], rfl, by simpa using hb⟩
    · refine ⟨pre, post ++ [b], by simp, fun d hd => ?_⟩
      rw [← List.cons_append, List.mem_append, List.mem_singleton] at hd
      rcases hd with hd | rfl
      · exact hpost d hd
      · exact hb

/-- What tick `T` read of the completions of loop `i`. -/
def Tick.count (i : ℕ) (T : Tick) : Option ℕ := (T.beats[i]?).map LoopBeat.completed

/-- What the watch of loop `i` says: the count of the last ticks, and the first of them. -/
structure WatchOk (ticks : List Tick) (i : ℕ) (watch : LoopWatch) : Prop where
  first : ∃ T, Since (fun T => T.count i = some watch.completed) ticks T ∧ T.at_ = watch.progressAt
  least : ∀ T, Since (fun T => T.count i = some watch.completed) ticks T → watch.progressAt ≤ T.at_

/-- In a tick at this instant the rejections had risen above the first count and those of the ticks before. -/
def Rose (first : ℕ) (ticks : List Tick) (at_ : ℕ) : Prop :=
  ∃ pre T post, ticks = pre ++ T :: post ∧ T.at_ = at_ ∧ first < T.seen ∧ ∀ T' ∈ pre, T'.seen < T.seen

/-- **What `wedge_loop` keeps, about the ticks so far.** -/
structure WedgeOk (n first : ℕ) (ticks : List Tick) (dog : WedgeLoop) : Prop where
  length : dog.watches.length = n ∨ (ticks = [] ∧ dog.watches = [])
  watches : ∀ i watch, dog.watches[i]? = some watch → WatchOk ticks i watch
  counted : first ≤ dog.rejected
  rejected : ∀ T ∈ ticks, T.seen ≤ dog.rejected
  rose : ∀ t, dog.rejectedAt = some t → Rose first ticks t

section Ticks

variable {n i first : ℕ} {ticks : List Tick} {T : Tick} {dog : WedgeLoop} {watch : LoopWatch} {beat : LoopBeat}

theorem Rose.concat {t : ℕ} (h : Rose first ticks t) (T : Tick) : Rose first (ticks ++ [T]) t := by
  obtain ⟨pre, T', post, rfl, hat, hfirst, hpre⟩ := h
  exact ⟨pre, T', post ++ [T], by simp, hat, hfirst, hpre⟩

/-- A watch after the next tick. -/
theorem WatchOk.see (h : WatchOk ticks i watch) (hat : ∀ T' ∈ ticks, T'.at_ ≤ T.at_)
    (hbeat : T.beats[i]? = some beat) : WatchOk (ticks ++ [T]) i (watch.see T.at_ beat) := by
  have hcount : T.count i = some beat.completed := by rw [Tick.count, hbeat]; rfl
  obtain ⟨T₀, hT₀, hprogress⟩ := h.first
  unfold LoopWatch.see
  split_ifs with hnew
  · -- another count than in the last tick, so no earlier tick has it until now
    have hold : ∀ T', ¬Since (fun T => T.count i = some beat.completed) ticks T' := by
      rintro T' ⟨pre, post, heq, hpost⟩
      obtain ⟨pre₀, post₀, heq₀, hpost₀⟩ := hT₀
      have hlast : ∀ {pre post} {T : Tick}, ticks = pre ++ T :: post →
          ticks.getLast? = some ((T :: post).getLast (by simp)) := by
        rintro pre post T rfl
        rw [List.getLast?_append_of_ne_nil _ (by simp), List.getLast?_eq_some_getLast (by simp)]
      have hsame := (hlast heq).symm.trans (hlast heq₀)
      have h₁ := hpost _ (List.getLast_mem (by simp))
      have h₂ := hpost₀ _ (List.getLast_mem (by simp))
      rw [Option.some.inj hsame, h₂] at h₁
      exact hnew (Option.some.inj h₁).symm
    refine ⟨⟨T, since_concat.2 ⟨hcount, .inl rfl⟩, rfl⟩, fun T' hT' => ?_⟩
    rcases (since_concat.1 hT').2 with rfl | hT'
    · exact le_rfl
    · exact absurd hT' (hold T')
  · rw [not_not.1 hnew] at hcount
    refine ⟨⟨T₀, since_concat.2 ⟨hcount, .inr hT₀⟩, hprogress⟩, fun T' hT' => ?_⟩
    rcases (since_concat.1 hT').2 with rfl | hT'
    · exact hprogress ▸ hat T₀ hT₀.mem
    · exact h.least T' hT'

/-- The watch of a loop in the first tick. -/
theorem watchOk_first (hbeat : T.beats[i]? = some beat) :
    WatchOk [T] i (LoopWatch.see T.at_ ⟨0, T.at_⟩ beat) := by
  have hcount : T.count i = some beat.completed := by rw [Tick.count, hbeat]; rfl
  have hsee : LoopWatch.see T.at_ ⟨0, T.at_⟩ beat = ⟨beat.completed, T.at_⟩ := by
    unfold LoopWatch.see
    split_ifs with hnew
    · rfl
    · rw [not_not.1 hnew]
  rw [hsee]
  refine ⟨⟨T, ⟨[], [], rfl, by simpa using hcount⟩, rfl⟩, fun T' hT' => ?_⟩
  rw [List.mem_singleton.1 hT'.mem]

/-- A tick keeps what `wedge_loop` knows. -/
theorem WedgeOk.judge (h : WedgeOk n first ticks dog) (hat : ∀ T' ∈ ticks, T'.at_ ≤ T.at_)
    (hlen : T.beats.length = n) :
    WedgeOk n first (ticks ++ [T]) (dog.judge T.at_ T.seen T.beats).1 := by
  -- the watches before the tick, after `resize_with`
  have hresize : ∀ (j : ℕ) (w : LoopWatch), (resize T.beats.length ⟨0, T.at_⟩ dog.watches)[j]? = some w →
      dog.watches[j]? = some w ∨ (ticks = [] ∧ w = ⟨0, T.at_⟩) := by
    intro j w hw
    rcases h.length with hlength | ⟨hnil, hwatches⟩
    · rw [resize, hlen, ← hlength, List.take_length, Nat.sub_self, List.replicate_zero,
        List.append_nil] at hw
      exact .inl hw
    · rw [resize, hwatches, List.take_nil, List.nil_append] at hw
      exact .inr ⟨hnil, List.eq_of_mem_replicate (List.mem_of_getElem? hw)⟩
  have hlength : (resize T.beats.length ⟨0, T.at_⟩ dog.watches).length = n := by
    rcases h.length with hlength | ⟨-, hwatches⟩
    · simp [resize, hlen, hlength]
    · simp [resize, hlen, hwatches]
  refine ⟨.inl ?_, fun j w hw => ?_, ?_, fun T' hT' => ?_, fun t ht => ?_⟩
  · show (List.zipWith (LoopWatch.see T.at_) (resize T.beats.length ⟨0, T.at_⟩ dog.watches) T.beats).length = n
    rw [List.length_zipWith, hlength, hlen, Nat.min_self]
  · have hw : (List.zipWith (LoopWatch.see T.at_)
        (resize T.beats.length ⟨0, T.at_⟩ dog.watches) T.beats)[j]? = some w := hw
    obtain ⟨w₀, beat, hw₀, hbeat, rfl⟩ := List.getElem?_zipWith_eq_some.1 hw
    rcases hresize j w₀ hw₀ with hold | ⟨rfl, rfl⟩
    · exact (h.watches j w₀ hold).see hat hbeat
    · exact watchOk_first hbeat
  · show first ≤ if dog.rejected < T.seen then T.seen else dog.rejected
    have := h.counted
    split_ifs with hrose <;> omega
  · show T'.seen ≤ if dog.rejected < T.seen then T.seen else dog.rejected
    rcases List.mem_append.1 hT' with hT' | hT'
    · have := h.rejected T' hT'
      split_ifs with hrose <;> omega
    · rw [List.mem_singleton.1 hT']
      split_ifs with hrose <;> omega
  · have ht : (if dog.rejected < T.seen then some T.at_ else dog.rejectedAt) = some t := ht
    split_ifs at ht with hrose
    · refine ⟨ticks, T, [], rfl, Option.some.inj ht, h.counted.trans_lt hrose, fun T' hT' => ?_⟩
      exact (h.rejected T' hT').trans_lt hrose
    · exact (h.rose t ht).concat T

/-- Why a tick ends the process for loop `i`. -/
def Confirmed (first : ℕ) (ticks : List Tick) (i : ℕ) : Prop :=
  ∃ T beat, ticks.getLast? = some T ∧ T.beats[i]? = some beat ∧ WEDGE_WINDOW_MS ≤ beat.lagMs ∧
    ((0 < beat.outstanding ∧ ∃ T₀, Since (fun T => T.count i = some beat.completed) ticks T₀ ∧
        T₀.at_ + WEDGE_WINDOW_MS ≤ T.at_) ∨
      ∃ t, Rose first ticks t ∧ T.at_ ≤ t + WEDGE_WINDOW_MS)

/-- What a tick goes by is what `wedge_loop` keeps. -/
theorem confirmed_of_judge (h : WedgeOk n first (ticks ++ [T]) (dog.judge T.at_ T.seen T.beats).1)
    (hexit : (dog.judge T.at_ T.seen T.beats).2 = some i) : Confirmed first (ticks ++ [T]) i := by
  let after := (dog.judge T.at_ T.seen T.beats).1
  obtain ⟨hlt, hconfirmed, -⟩ := List.findIdx?_eq_some_iff_getElem.1 hexit
  have hpair : (after.watches.zip T.beats)[i]? = some (after.watches.zip T.beats)[i] :=
    List.getElem?_eq_getElem hlt
  have hconfirmed : (fun pair : LoopWatch × LoopBeat => wedgeConfirmed pair.2.lagMs pair.2.outstanding
      (T.at_ - pair.1.progressAt) (after.rejectedAt.map fun t => T.at_ - t))
        (after.watches.zip T.beats)[i] = true := hconfirmed
  generalize (after.watches.zip T.beats)[i] = pair at hpair hconfirmed
  obtain ⟨watch, beat⟩ := pair
  obtain ⟨hwatch, hbeat⟩ := List.getElem?_zip_eq_some.1 hpair
  obtain ⟨T₀, hT₀, hprogress⟩ := (h.watches i watch hwatch).first
  have hcount : watch.completed = beat.completed := by
    have hlast := (since_concat.1 hT₀).1
    rw [Tick.count, hbeat] at hlast
    exact (Option.some.inj hlast).symm
  have hconfirmed : wedgeConfirmed beat.lagMs beat.outstanding (T.at_ - watch.progressAt)
      (after.rejectedAt.map fun t => T.at_ - t) = true := hconfirmed
  simp only [wedgeConfirmed, Bool.and_eq_true, Bool.or_eq_true, decide_eq_true_eq] at hconfirmed
  obtain ⟨hlag, hwhy⟩ := hconfirmed
  refine ⟨T, beat, by simp, hbeat, hlag, ?_⟩
  have hpos : 0 < WEDGE_WINDOW_MS := by decide
  rcases hwhy with ⟨hsome, hlate⟩ | hrejecting
  · refine .inl ⟨hsome, T₀, hcount ▸ hT₀, ?_⟩
    omega
  · cases hrose : after.rejectedAt with
    | none =>
      rw [hrose] at hrejecting
      cases hrejecting
    | some t =>
      rw [hrose] at hrejecting
      refine .inr ⟨t, h.rose t hrose, ?_⟩
      have hrecent : T.at_ - t ≤ WEDGE_WINDOW_MS := by simpa using hrejecting
      omega

end Ticks

/-! ### The invariant -/

/-- The lag that the probe has read. -/
def Probe.lag? : Probe → Option ℕ
  | .stamp => none
  | .submitted lagMs | .completed lagMs _ => some lagMs

/-- What the probe under way has read so far. -/
def StageOk (s : State) : Prop :=
  match s.stage with
  | .sleeping => True
  | .probing start beats next =>
    s.exited = none ∧ (start ≤ s.now ∧ ∀ T ∈ s.ticks, T.start ≤ start) ∧ beats.length ≤ s.loops.length ∧
      (∀ (i : ℕ) (beat : LoopBeat) (l : Loop), beats[i]? = some beat → s.loops[i]? = some l →
        BeatOk start s.now l beat) ∧
      ∀ (l : Loop) (lagMs : ℕ), s.loops[beats.length]? = some l → next.lag? = some lagMs →
        WEDGE_WINDOW_MS ≤ lagMs → l.Stalled start

/-- What holds of a tick that is over. -/
structure TickOk (s : State) (T : Tick) : Prop where
  start : T.start ≤ s.now
  at_ : T.at_ ≤ s.now
  length : T.beats.length = s.loops.length
  beats : ∀ (i : ℕ) (beat : LoopBeat) (l : Loop), T.beats[i]? = some beat → s.loops[i]? = some l →
    BeatOk T.start T.at_ l beat

/-- **What holds of the worker.** -/
structure WatchdogOk (n : ℕ) (s : State) : Prop where
  size : s.loops.length = n
  loops : ∀ (i : ℕ) (l : Loop), s.loops[i]? = some l → LoopOk s.now l
  ticks : ∀ T ∈ s.ticks, TickOk s T
  stage : StageOk s
  dog : WedgeOk n s.firstRejected s.ticks s.dog
  exited : ∀ i, s.exited = some i → s.stage = .sleeping ∧ Confirmed s.firstRejected s.ticks i

section Invariant

variable {n i : ℕ} {s s' : State} {l l' : Loop}

theorem WatchdogOk.init (n now rejected : ℕ) :
    WatchdogOk n { now := now, loops := List.replicate n {}, asyncRejected := rejected,
                   dog := { rejected := rejected }, firstRejected := rejected } := by
  refine ⟨by simp, fun i l hl => ?_, nofun, trivial, ⟨.inr ⟨rfl, rfl⟩, nofun, le_rfl, nofun, nofun⟩, nofun⟩
  rw [List.eq_of_mem_replicate (List.mem_of_getElem? hl)]
  exact ⟨nofun, nofun, nofun, Nat.zero_le _, fun hlag => absurd hlag (by decide), rfl, nofun⟩

theorem WatchdogOk.time (h : WatchdogOk n s) (d : ℕ) : WatchdogOk n { s with now := s.now + d } := by
  have hle := Nat.le_add_right s.now d
  refine ⟨h.size, fun i l hl => (h.loops i l hl).mono hle, fun T hT => ?_, ?_, h.dog, h.exited⟩
  · have hok := h.ticks T hT
    exact ⟨hok.start.trans hle, hok.at_.trans hle, hok.length, hok.beats⟩
  · have hstage := h.stage
    unfold StageOk at hstage ⊢
    cases hs : s.stage with
    | sleeping => trivial
    | probing start beats next =>
      rw [hs] at hstage
      obtain ⟨hexited, ⟨hstart, hafter⟩, hlen, hbeats, hlag⟩ := hstage
      exact ⟨hexited, ⟨hstart.trans hle, hafter⟩, hlen, fun i b l hb hl => (hbeats i b l hb hl).mono hle, hlag⟩

/-- Loop `i` moves. -/
theorem WatchdogOk.moves {since : ℕ} (h : WatchdogOk n s) (hl : s.loops[i]? = some l)
    (hmoves : Moves since s.now l l') (hticks : ∀ T ∈ s.ticks, T.start ≤ since)
    (hprobe : ∀ start beats next, s.stage = .probing start beats next → start ≤ since) :
    WatchdogOk n { s with loops := s.loops.set i l' } := by
  have hlt := (List.getElem?_eq_some_iff.1 hl).1
  -- each loop afterwards is one that moved
  have hget : ∀ (j : ℕ) (m : Loop), (s.loops.set i l')[j]? = some m → ∃ m₀, s.loops[j]? = some m₀ ∧
      (Moves since s.now m₀ m ∨ m = m₀) := by
    intro j m hm
    by_cases hij : i = j
    · subst hij
      rw [List.getElem?_set_self hlt, Option.some.injEq] at hm
      exact ⟨l, hl, .inl (hm ▸ hmoves)⟩
    · rw [List.getElem?_set_ne hij] at hm
      exact ⟨m, hm, .inr rfl⟩
  refine ⟨by simpa using h.size, fun j m hm => ?_, fun T hT => ?_, ?_, h.dog, h.exited⟩
  · obtain ⟨m₀, hm₀, hm | rfl⟩ := hget j m hm
    · exact hm.ok
    · exact h.loops j m hm₀
  · have hok := h.ticks T hT
    refine ⟨hok.start, hok.at_, by simpa using hok.length, fun j b m hb hm => ?_⟩
    obtain ⟨m₀, hm₀, hm | rfl⟩ := hget j m hm
    · exact (hok.beats j b m₀ hb hm₀).moves hm (hticks T hT) hok.start
    · exact hok.beats j b m hb hm₀
  · have hstage := h.stage
    unfold StageOk at hstage ⊢
    cases hs : s.stage with
    | sleeping => trivial
    | probing start beats next =>
      rw [hs] at hstage
      have hsince := hprobe start beats next hs
      obtain ⟨hexited, hstart, hlen, hbeats, hlag⟩ := hstage
      refine ⟨hexited, hstart, by simpa using hlen, fun j b m hb hm => ?_,
        fun m lagMs hm hnext hlate => ?_⟩
      · obtain ⟨m₀, hm₀, hm | rfl⟩ := hget j m hm
        · exact (hbeats j b m₀ hb hm₀).moves hm hsince hstart.1
        · exact hbeats j b m hb hm₀
      · obtain ⟨m₀, hm₀, hm | rfl⟩ := hget beats.length m hm
        · exact hm.stalled start hsince (hlag m₀ lagMs hm₀ hnext hlate)
        · exact hlag m lagMs hm₀ hnext hlate

/-- A loop moves by itself. -/
theorem WatchdogOk.moves_now (h : WatchdogOk n s) (hl : s.loops[i]? = some l)
    (hmoves : Moves s.now s.now l l') : WatchdogOk n { s with loops := s.loops.set i l' } := by
  refine h.moves hl hmoves (fun T hT => (h.ticks T hT).start) fun start beats next hs => ?_
  have hstage := h.stage
  rw [StageOk, hs] at hstage
  exact hstage.2.1.1

/-- The probe goes on. -/
theorem WatchdogOk.probe (h : WatchdogOk n s) {stage : Stage} (hstage : StageOk { s with stage := stage })
    (hexited : s.exited = none) : WatchdogOk n { s with stage := stage } :=
  ⟨h.size, h.loops, fun T hT => ⟨(h.ticks T hT).start, (h.ticks T hT).at_, (h.ticks T hT).length,
    (h.ticks T hT).beats⟩, hstage, h.dog, fun i hi => by rw [hexited] at hi; cases hi⟩

/-- A step of the probe. -/
theorem WatchdogOk.step_probe (h : WatchdogOk n s) (lb : Label) (hs : stepProbe s lb = some s') :
    WatchdogOk n s' := by
  have hstage := h.stage
  unfold StageOk at hstage
  cases lb with
  | tick =>
    simp only [stepProbe] at hs
    split at hs
    · obtain ⟨hidle, hs⟩ := Option.ite_none_left_eq_some.1 hs
      cases hs
      have hexited : s.exited = none := by
        cases hexited : s.exited with
        | none => rfl
        | some i => simp [hexited] at hidle
      exact h.probe ⟨hexited, ⟨le_rfl, fun T hT => (h.ticks T hT).start⟩, Nat.zero_le _, nofun, nofun⟩ hexited
    · cases hs
  | stamp ok =>
    simp only [stepProbe] at hs
    split at hs
    · next start beats hprobing =>
      obtain ⟨l, hl, rfl⟩ := Option.map_eq_some_iff.1 hs
      rw [hprobing] at hstage
      obtain ⟨hexited, hstart, hlen, -, -⟩ := hstage
      obtain ⟨hmoves, hlag⟩ := (h.loops _ l hl).moves_stamp hstart.1 ok
      have hmoved := h.moves hl hmoves hstart.2 fun first beats' next hs => by
        rw [hprobing] at hs
        cases hs
        exact le_rfl
      have hbeats := hmoved.stage
      rw [StageOk, show ({ s with loops := s.loops.set beats.length (l.stamp start ok).1 } : State).stage =
        .probing start beats .stamp from hprobing] at hbeats
      refine hmoved.probe ⟨hexited, hstart, hbeats.2.2.1, hbeats.2.2.2.1, fun m lagMs hm hnext hlate => ?_⟩
        hexited
      have hlt := (List.getElem?_eq_some_iff.1 hl).1
      obtain rfl : (l.stamp start ok).1 = m := Option.some.inj ((List.getElem?_set_self hlt).symm.trans hm)
      cases hnext
      exact hlag hlate
    · cases hs
  | readSubmitted =>
    simp only [stepProbe] at hs
    split at hs
    · next start beats lagMs hprobing =>
      obtain ⟨l, hl, rfl⟩ := Option.map_eq_some_iff.1 hs
      rw [hprobing] at hstage
      obtain ⟨hexited, hstart, hlen, hbeats, hlag⟩ := hstage
      exact h.probe ⟨hexited, hstart, hlen, hbeats, hlag⟩ hexited
    · cases hs
  | readCompleted =>
    simp only [stepProbe] at hs
    split at hs
    · next start beats lagMs submitted hprobing =>
      obtain ⟨l, hl, rfl⟩ := Option.map_eq_some_iff.1 hs
      rw [hprobing] at hstage
      obtain ⟨hexited, hstart, hlen, hbeats, hlag⟩ := hstage
      have hlt := (List.getElem?_eq_some_iff.1 hl).1
      refine h.probe ⟨hexited, hstart, by simpa using Nat.succ_le_of_lt hlt, fun j b m hb hm => ?_, nofun⟩
        hexited
      rcases Parties.getElem?_concat_eq_some.1 hb with hb | ⟨rfl, rfl⟩
      · exact hbeats j b m hb hm
      · -- the beat that was just read
        obtain rfl : l = m := Option.some.inj (hl.symm.trans hm)
        have hok := h.loops _ l hl
        refine ⟨hlag l lagMs hl rfl, hok.done.le, fun t ht => ?_, fun t ht => ?_⟩
        · exact hok.finished t (List.mem_of_mem_take ht)
        · rw [show l.done = l.finished.length from hok.done, List.drop_length] at ht
          cases ht
    · cases hs
  | fail =>
    simp only [stepProbe] at hs
    split at hs
    · next hprobing =>
      cases hs
      rw [hprobing] at hstage
      exact h.probe trivial hstage.1
    · cases hs
  | judge =>
    simp only [stepProbe] at hs
    split at hs
    · next start beats hprobing =>
      obtain ⟨hlen, hs⟩ := Option.ite_none_right_eq_some.1 hs
      cases hs
      rw [hprobing] at hstage
      obtain ⟨-, ⟨hstart, -⟩, -, hbeats, -⟩ := hstage
      have hdog := h.dog.judge (T := ⟨start, s.now, s.asyncRejected, beats⟩)
        (fun T hT => (h.ticks T hT).at_) (hlen.trans h.size)
      refine ⟨h.size, h.loops, fun T hT => ?_, trivial, hdog, fun i hi => ⟨rfl, ?_⟩⟩
      · rcases List.mem_append.1 hT with hT | hT
        · exact ⟨(h.ticks T hT).start, (h.ticks T hT).at_, (h.ticks T hT).length, (h.ticks T hT).beats⟩
        · rw [List.mem_singleton.1 hT]
          exact ⟨hstart, le_rfl, hlen, hbeats⟩
      · exact confirmed_of_judge (T := ⟨start, s.now, s.asyncRejected, beats⟩) hdog hi
    · cases hs
  | time | submit | finish | ack | clear | reject | shutDown => cases hs

theorem stepLoop_eq_some {f : Loop → Option Loop} (hs : stepLoop s i f = some s') :
    ∃ l l', s.loops[i]? = some l ∧ f l = some l' ∧ s' = { s with loops := s.loops.set i l' } := by
  obtain ⟨l, hl, hs⟩ := Option.bind_eq_some_iff.1 hs
  obtain ⟨l', hl', rfl⟩ := Option.map_eq_some_iff.1 hs
  exact ⟨l, l', hl, hl', rfl⟩

/-- **Every step keeps the invariant.** -/
theorem WatchdogOk.step (h : WatchdogOk n s) {lb : Label} (hs : Watchdog.step s lb = some s') :
    WatchdogOk n s' := by
  cases lb with
  | time d =>
    cases hs
    exact h.time d
  | submit i =>
    obtain ⟨l, l', hl, hl', rfl⟩ := stepLoop_eq_some hs
    cases hl'
    exact h.moves_now hl (h.loops i l hl).moves_submit
  | finish i =>
    obtain ⟨l, l', hl, hl', rfl⟩ := stepLoop_eq_some hs
    cases hl'
    exact h.moves_now hl (h.loops i l hl).moves_finish
  | ack i =>
    obtain ⟨l, l', hl, hl', rfl⟩ := stepLoop_eq_some hs
    exact h.moves_now hl ((h.loops i l hl).moves_ack hl')
  | clear i =>
    obtain ⟨l, l', hl, hl', rfl⟩ := stepLoop_eq_some hs
    exact h.moves_now hl ((h.loops i l hl).moves_clear hl')
  | reject =>
    cases hs
    exact ⟨h.size, h.loops, fun T hT => ⟨(h.ticks T hT).start, (h.ticks T hT).at_, (h.ticks T hT).length,
      (h.ticks T hT).beats⟩, h.stage, h.dog, h.exited⟩
  | shutDown =>
    cases hs
    exact ⟨h.size, h.loops, fun T hT => ⟨(h.ticks T hT).start, (h.ticks T hT).at_, (h.ticks T hT).length,
      (h.ticks T hT).beats⟩, h.stage, h.dog, h.exited⟩
  | tick => exact h.step_probe .tick hs
  | stamp ok => exact h.step_probe (.stamp ok) hs
  | readSubmitted => exact h.step_probe .readSubmitted hs
  | readCompleted => exact h.step_probe .readCompleted hs
  | fail => exact h.step_probe .fail hs
  | judge => exact h.step_probe .judge hs

theorem WatchdogOk.of_reachable (h : (system n).Reachable System.anyStep s) : WatchdogOk n s :=
  h.invariant (by rintro s ⟨now, rejected, rfl⟩; exact .init n now rejected) fun _ _ _ hs _ hstep => hs.step hstep

end Invariant

/-! ### A loop that stands still -/

/-- Loop `i` runs nothing, and takes the stamps. -/
def stands (i : ℕ) : State → Label → Prop
  | _, .ack j | _, .clear j | _, .finish j => j ≠ i
  | _, .stamp ok => ok = true
  | _, _ => True

/-- The probe that began at `start` finds a stamp in the loop, older than the ticks `new`. -/
structure Lagged (new : List Tick) (start : ℕ) (l : Loop) (lagMs : ℕ) : Prop where
  sent : l.sent ≠ none
  lag : ∀ T ∈ new, start ≤ lagMs + T.at_

/-- What the probe under way has read of loop `i`, which has done `d` tasks. -/
def StandsProbe (i d : ℕ) (new : List Tick) (l : Loop) : Stage → Prop
  | .sleeping => True
  | .probing start beats next =>
    (∀ beat, beats[i]? = some beat → beat.completed = d ∧ Lagged new start l beat.lagMs) ∧
      (beats.length = i → ∀ lagMs, next.lag? = some lagMs → Lagged new start l lagMs)

/-- Loop `i` has stood still, at `d` tasks done, during the ticks since `old`. -/
def Stands (i d : ℕ) (old : List Tick) (s : State) : Prop :=
  ∃ l new, s.loops[i]? = some l ∧ l.done = d ∧ s.ticks = old ++ new ∧
    (∀ T ∈ new, T.count i = some d ∧ ∃ a, l.sent = some a ∧ a ≤ T.at_) ∧ StandsProbe i d new l s.stage

section Stands

variable {n i d : ℕ} {old : List Tick} {s s' t : State}

theorem StandsProbe.congr {new : List Tick} {l l' : Loop} {stage : Stage} (hsent : l'.sent = l.sent)
    (h : StandsProbe i d new l stage) : StandsProbe i d new l' stage := by
  have hlagged : ∀ {start lagMs}, Lagged new start l lagMs → Lagged new start l' lagMs :=
    fun hlagged => ⟨hsent ▸ hlagged.sent, hlagged.lag⟩
  cases stage with
  | sleeping => trivial
  | probing start beats next =>
    exact ⟨fun beat hbeat => ⟨(h.1 beat hbeat).1, hlagged (h.1 beat hbeat).2⟩,
      fun hlen lagMs hnext => hlagged (h.2 hlen lagMs hnext)⟩

/-- A step of a loop that leaves the stamp and the tasks of loop `i`. -/
theorem Stands.stepLoop (h : Stands i d old s) {j : ℕ} {f : Loop → Option Loop}
    (hs : Watchdog.stepLoop s j f = some s')
    (hf : ∀ l l', f l = some l' → j = i → l'.sent = l.sent ∧ l'.done = l.done) : Stands i d old s' := by
  obtain ⟨l, new, hl, hdone, hticks, hnew, hprobe⟩ := h
  obtain ⟨m, m', hm, hfm, rfl⟩ := stepLoop_eq_some hs
  by_cases hji : j = i
  · subst hji
    obtain rfl : l = m := Option.some.inj (hl.symm.trans hm)
    obtain ⟨hsent, hdone'⟩ := hf l m' hfm rfl
    refine ⟨m', new, List.getElem?_set_self (List.getElem?_eq_some_iff.1 hl).1, hdone'.trans hdone, hticks,
      fun T hT => ?_, hprobe.congr hsent⟩
    rw [hsent]
    exact hnew T hT
  · exact ⟨l, new, (List.getElem?_set_ne hji).trans hl, hdone, hticks, hnew, hprobe⟩

/-- A step of the probe. -/
theorem Stands.stepProbe (h : Stands i d old s) (hok : WatchdogOk n s) {lb : Label} (hlb : stands i s lb)
    (hs : Watchdog.stepProbe s lb = some s') : Stands i d old s' := by
  obtain ⟨l, new, hl, hdone, hticks, hnew, hprobe⟩ := h
  cases lb with
  | tick =>
    simp only [Watchdog.stepProbe] at hs
    split at hs
    · obtain ⟨-, hs⟩ := Option.ite_none_left_eq_some.1 hs
      cases hs
      exact ⟨l, new, hl, hdone, hticks, hnew, nofun, nofun⟩
    · cases hs
  | stamp ok =>
    simp only [Watchdog.stepProbe] at hs
    obtain rfl : ok = true := hlb
    split at hs
    · next start beats hprobing =>
      obtain ⟨m, hm, rfl⟩ := Option.map_eq_some_iff.1 hs
      rw [hprobing] at hprobe
      have hlt := (List.getElem?_eq_some_iff.1 hm).1
      by_cases hi : beats.length = i
      · subst hi
        obtain rfl : l = m := Option.some.inj (hl.symm.trans hm)
        have hbeats : ∀ {P : LoopBeat → Prop}, ∀ beat, beats[beats.length]? = some beat → P beat := by
          intro P beat hbeat
          rw [List.getElem?_eq_none le_rfl] at hbeat
          cases hbeat
        cases hsent : l.sent with
        | none =>
          -- no tick since, or its stamp would still be there
          obtain rfl : new = [] := by
            refine List.eq_nil_iff_forall_not_mem.2 fun T hT => ?_
            obtain ⟨-, a, ha, -⟩ := hnew T hT
            rw [hsent] at ha
            cases ha
          refine ⟨(l.stamp start true).1, [], List.getElem?_set_self hlt, ?_, hticks, nofun, hbeats,
            fun _ lagMs _ => ⟨?_, nofun⟩⟩
          · simp [Loop.stamp, hsent, hdone]
          · simp [Loop.stamp, hsent]
        | some a =>
          rw [show l.stamp start true = (l, start - a) by simp [Loop.stamp, hsent]]
          refine ⟨l, new, List.getElem?_set_self hlt, hdone, hticks, hnew, hbeats,
            fun _ lagMs hlag => ⟨by rw [hsent]; nofun, fun T hT => ?_⟩⟩
          obtain ⟨-, b, hb, hle⟩ := hnew T hT
          rw [hsent, Option.some.injEq] at hb
          cases hlag
          show start ≤ start - a + T.at_
          omega
      · refine ⟨l, new, (List.getElem?_set_ne hi).trans hl, hdone, hticks, hnew, hprobe.1, fun hlen => ?_⟩
        exact absurd hlen hi
    · cases hs
  | readSubmitted =>
    simp only [Watchdog.stepProbe] at hs
    split at hs
    · next start beats lagMs hprobing =>
      obtain ⟨m, hm, rfl⟩ := Option.map_eq_some_iff.1 hs
      rw [hprobing] at hprobe
      exact ⟨l, new, hl, hdone, hticks, hnew, hprobe.1, hprobe.2⟩
    · cases hs
  | readCompleted =>
    simp only [Watchdog.stepProbe] at hs
    split at hs
    · next start beats lagMs submitted hprobing =>
      obtain ⟨m, hm, rfl⟩ := Option.map_eq_some_iff.1 hs
      rw [hprobing] at hprobe
      refine ⟨l, new, hl, hdone, hticks, hnew, fun beat hbeat => ?_, nofun⟩
      rcases Parties.getElem?_concat_eq_some.1 hbeat with hbeat | ⟨rfl, rfl⟩
      · exact hprobe.1 beat hbeat
      · obtain rfl : l = m := Option.some.inj (hl.symm.trans hm)
        exact ⟨hdone, hprobe.2 rfl lagMs rfl⟩
    · cases hs
  | fail =>
    simp only [Watchdog.stepProbe] at hs
    split at hs
    · cases hs
      exact ⟨l, new, hl, hdone, hticks, hnew, trivial⟩
    · cases hs
  | judge =>
    simp only [Watchdog.stepProbe] at hs
    split at hs
    · next start beats hprobing =>
      obtain ⟨hlen, hs⟩ := Option.ite_none_right_eq_some.1 hs
      cases hs
      rw [hprobing] at hprobe
      refine ⟨l, new ++ [⟨start, s.now, s.asyncRejected, beats⟩], hl, hdone, ?_, fun T hT => ?_, trivial⟩
      · rw [← List.append_assoc, ← hticks]
      · rcases List.mem_append.1 hT with hT | hT
        · exact hnew T hT
        · obtain rfl := List.mem_singleton.1 hT
          have hlt : i < beats.length := hlen ▸ (List.getElem?_eq_some_iff.1 hl).1
          obtain ⟨hcount, hlagged⟩ := hprobe.1 beats[i] (List.getElem?_eq_getElem hlt)
          obtain ⟨a, ha⟩ := Option.ne_none_iff_exists'.1 hlagged.sent
          refine ⟨?_, a, ha, (hok.loops i l hl).sent a ha⟩
          rw [Tick.count, List.getElem?_eq_getElem hlt, Option.map_some, hcount]
    · cases hs
  | time | submit | finish | ack | clear | reject | shutDown => cases hs

theorem Stands.step (h : Stands i d old s) (hok : WatchdogOk n s) {lb : Label} (hlb : stands i s lb)
    (hs : Watchdog.step s lb = some s') : Stands i d old s' := by
  cases lb with
  | time | reject | shutDown => cases hs; exact h
  | submit j => exact h.stepLoop hs fun l l' hl _ => by cases hl; exact ⟨rfl, rfl⟩
  | finish j => exact h.stepLoop hs fun _ _ _ hji => absurd hji hlb
  | ack j => exact h.stepLoop hs fun _ _ _ hji => absurd hji hlb
  | clear j => exact h.stepLoop hs fun _ _ _ hji => absurd hji hlb
  | tick | stamp | readSubmitted | readCompleted | fail | judge => exact h.stepProbe hok hlb hs

/-- **A tick ends the process** if a loop with work outstanding stands still since a tick that was over
`WEDGE_WINDOW_MS` before. -/
theorem exits_of_stands (hok : WatchdogOk n s) (hidle : s.stage = .sleeping) (hi : i < n)
    (h : (system n).Reach (stands i) s t) {T : Tick} (hT : T ∈ t.ticks.drop s.ticks.length) {start : ℕ}
    {beats : List LoopBeat} (hprobing : t.stage = .probing start beats .stamp)
    (hlen : beats.length = t.loops.length) (hlate : T.at_ + WEDGE_WINDOW_MS ≤ start) {beat : LoopBeat}
    (hbeat : beats[i]? = some beat) (houtstanding : 0 < beat.outstanding) :
    ∃ u, Watchdog.step t .judge = some u ∧ u.exited ≠ none := by
  have hlt : i < s.loops.length := hok.size ▸ hi
  have hstart : Stands i s.loops[i].done s.ticks s :=
    ⟨s.loops[i], [], List.getElem?_eq_getElem hlt, rfl, (List.append_nil _).symm, nofun, by
      rw [hidle]
      trivial⟩
  obtain ⟨hokt, l, new, hl, hdone, hticks, hnew, hprobe⟩ : WatchdogOk n t ∧
      Stands i s.loops[i].done s.ticks t :=
    h.invariant (I := fun t => WatchdogOk n t ∧ Stands i s.loops[i].done s.ticks t) ⟨hok, hstart⟩
      fun _ _ _ hI hlb hs => ⟨hI.1.step hs, hI.2.step hI.1 hlb hs⟩
  rw [hticks, List.drop_left] at hT
  rw [hprobing] at hprobe
  obtain ⟨hcompleted, hlagged⟩ := hprobe.1 beat hbeat
  have hstage := hokt.stage
  rw [StageOk, hprobing] at hstage
  let N : Tick := ⟨start, t.now, t.asyncRejected, beats⟩
  have hdog := hokt.dog.judge (T := N) (fun T hT => (hokt.ticks T hT).at_) (hlen.trans hokt.size)
  refine ⟨_, by simp only [Watchdog.step, Watchdog.stepProbe, hprobing, hlen]; rfl, ?_⟩
  -- the watch of the loop goes back to `T` at least
  let after := (t.dog.judge t.now t.asyncRejected beats).1
  have hwatches : after.watches.length = beats.length := by
    rcases hdog.length with hlength | ⟨hnil, -⟩
    · rw [hlen, hokt.size]
      exact hlength
    · simp at hnil
  have hibeats := (List.getElem?_eq_some_iff.1 hbeat).1
  have hwatch : after.watches[i]? = some after.watches[i] := List.getElem?_eq_getElem (hwatches ▸ hibeats)
  generalize after.watches[i] = watch at hwatch
  have hwatchOk := hdog.watches i watch hwatch
  have hN : N.count i = some beat.completed := by rw [Tick.count, hbeat]; rfl
  have hsame : watch.completed = s.loops[i].done := by
    obtain ⟨T₀, hT₀, -⟩ := hwatchOk.first
    have hlast := (since_concat.1 hT₀).1
    rw [hN, Option.some.injEq] at hlast
    exact hlast.symm.trans hcompleted
  have hprogress : watch.progressAt ≤ T.at_ := by
    refine hwatchOk.least T (since_concat.2 ⟨by rw [hN, hsame, hcompleted], .inr ?_⟩)
    obtain ⟨pre, post, rfl⟩ := List.append_of_mem hT
    refine ⟨s.ticks ++ pre, post, by rw [hticks, List.append_assoc], fun T' hT' => ?_⟩
    rw [hsame]
    exact (hnew T' (List.mem_append_right _ hT')).1
  have hlag : WEDGE_WINDOW_MS ≤ beat.lagMs := by
    have := hlagged.lag T hT
    omega
  have hnothing : WEDGE_WINDOW_MS ≤ t.now - watch.progressAt := by
    have := hstage.2.1.1
    omega
  intro hnone
  have hconfirmed := List.findIdx?_eq_none_iff.1 hnone (watch, beat)
    (List.mem_of_getElem? (List.getElem?_zip_eq_some.2 ⟨hwatch, hbeat⟩))
  simp [wedgeConfirmed, hlag, hnothing, houtstanding] at hconfirmed

end Stands

/-- The second loop is blocked by its only task; a task of the first one is done in between. -/
def oneBlocked : List Label :=
  [.submit 1, .submit 0, .tick, .stamp true, .readSubmitted, .readCompleted, .stamp true, .readSubmitted,
    .readCompleted, .judge, .time 5000, .ack 0, .clear 0, .finish 0, .tick, .stamp true, .readSubmitted,
    .readCompleted, .stamp true, .readSubmitted, .readCompleted, .judge, .time 10000, .ack 0, .clear 0, .tick,
    .stamp true, .readSubmitted, .readCompleted, .stamp true, .readSubmitted, .readCompleted, .judge]

/-- The state after `oneBlocked`. -/
def ended : State :=
  ((system 2).run { loops := List.replicate 2 {} } oneBlocked).getD { loops := List.replicate 2 {} }

end Cauli.Watchdog
