import Cauli.Lib.Parties
import Cauli.Worker.Cpu

/-!
# The count of idle cpu slots (`worker/src/cpu.rs`)

The slots share one counter and one notifier. `slot_loop` counts its slot as idle from its start to
its end; `serve_child` takes it out of the count while its child has all the requests it can run, and
hands it back idle when it returns. A busy slot stages more work only if the count is zero, and
otherwise waits for a notification that the count dropped.

* `Phase`: where a slot is; the load of the count and the entry to the `select!` are steps of their
  own;
* `Pool`: the counter, which wraps as a `usize` does, and the slots;
* `poolStep`: a step of one slot, over the turns of `serve_child`;
* `Counted`: the counter is the number of running slots that are marked idle;
* `timely`: no slot has looked and not yet registered when the last idle slot goes;
* `Alert`: then whoever holds work back at a count of zero has been notified.

`notify_waiters` reaches the futures that exist and leaves nothing behind for a later one.
-/

namespace Cauli.Idle

open Cpu

/-- Where a slot is in `slot_loop` and in the loop of `serve_child`. -/
inductive Phase
  | unborn
  /-- Asks for a child, waits for it, or backs off before it asks again. -/
  | forking
  /-- The channel of the jobs is closed. -/
  | stopping
  | top (cfg : ServeCfg) (s : Serve)
  /-- The count has been brought in step. -/
  | edged (cfg : ServeCfg) (s : Serve)
  /-- The count has been read. -/
  | loaded (cfg : ServeCfg) (s : Serve) (count : ℕ)
  /-- In the `select!`, whose `Notified` future may have been reached. -/
  | waiting (cfg : ServeCfg) (s : Serve) (count : ℕ) (woken : Bool)
  | ended

/-- A running slot that is marked idle. -/
def Phase.isIdle : Phase → Bool
  | .forking | .stopping => true
  | .top _ s | .edged _ s | .loaded _ s _ | .waiting _ s _ _ => s.idle
  | .unborn | .ended => false

/-- `may_admit` is false: the slot is busy and has read a count above zero. -/
def Phase.holdsBack : Phase → Bool
  | .loaded _ s count | .waiting _ s count _ => !(s.idle || count == 0)
  | _ => false

/-- It has done so and is not in the `select!` yet. -/
def Phase.deciding : Phase → Bool
  | .loaded cfg s count => Phase.holdsBack (.loaded cfg s count)
  | _ => false

/-- In the `select!`. -/
def Phase.inSelect : Phase → Bool
  | .waiting .. => true
  | _ => false

/-- A notification for the slot is pending. -/
def Phase.reached : Phase → Bool
  | .waiting _ _ _ woken => woken
  | _ => false

/-- What `notify_waiters` does to a slot. -/
def Phase.notified : Phase → Phase
  | .waiting cfg s count _ => .waiting cfg s count true
  | phase => phase

@[simp] theorem Phase.isIdle_notified (ph : Phase) : ph.notified.isIdle = ph.isIdle := by
  cases ph <;> rfl

@[simp] theorem Phase.holdsBack_notified (ph : Phase) : ph.notified.holdsBack = ph.holdsBack := by
  cases ph <;> rfl

/-- Whoever holds back and is not deciding waits, and is reached. -/
theorem Phase.reached_notified {ph : Phase} (h : ph.holdsBack = true) (hd : ph.deciding = false) :
    ph.notified.reached = true := by
  cases ph with
  | loaded cfg s count => exact absurd (h.symm.trans hd) Bool.noConfusion
  | waiting => rfl
  | _ => cases h

/-- The shared state; `wrapped` records whether the counter ever left its range. -/
structure Pool where
  count : ℕ := 0
  slots : List Phase
  wrapped : Bool := false

/-- The slot goes to a phase. -/
def Pool.move (p : Pool) (i : ℕ) (phase : Phase) : Pool := { p with slots := p.slots.set i phase }

/-- `IdleSlots::add`. -/
def Pool.add (p : Pool) : Pool :=
  { p with
    count := (p.count + 1) % 2 ^ 64
    wrapped := p.wrapped || decide (2 ^ 64 ≤ p.count + 1) }

/-- `IdleSlots::remove`: the decrement and `notify_waiters`. -/
def Pool.remove (p : Pool) : Pool :=
  { count := (p.count + (2 ^ 64 - 1)) % 2 ^ 64
    slots := p.slots.map Phase.notified
    wrapped := p.wrapped || decide (p.count = 0) }

/-- The steps of a slot. -/
inductive Move
  | start
  | stop
  /-- A forked child has connected; its threads are part of the settings. -/
  | connect (cfg : ServeCfg)
  | edge (t : Turn)
  | load
  | enter
  | event (t : Turn)

/-- The slot follows the child at the top of the loop: an edge of the flag goes to the count. -/
def edgeStep (p : Pool) (i : ℕ) (cfg : ServeCfg) (t : Turn) (s : Serve) : Pool :=
  let s' := loopTop cfg t s
  if s'.idle = s.idle then p.move i (.edged cfg s')
  else if s'.idle then (p.move i (.edged cfg s')).add
  else (p.move i (.edged cfg s')).remove

/-- A branch of the `select!`, and what follows the loop when it is the last. -/
def eventStep (idOf : String → Option String) (p : Pool) (i : ℕ) (cfg : ServeCfg) (s : Serve)
    (count : ℕ) (t : Turn) : Option Pool :=
  (select idOf cfg { t with idleCount := count } s).map fun
    | (s', none) => p.move i (.top cfg s')
    | (s', some gone) =>
      let p' := p.move i (if gone.serveExit = .shutdown then .stopping else .forking)
      if s'.idle then p' else p'.add

/-- The branch of the notifier needs a notification. -/
def mayFire (t : Turn) (woken : Bool) : Bool :=
  match t.event with
  | .dropped => woken
  | _ => true

/-- A step of the slot `i`. -/
def poolStep (idOf : String → Option String) (p : Pool) : ℕ × Move → Option Pool
  | (i, move) =>
    match p.slots[i]?, move with
    | some .unborn, .start => some (p.move i .forking).add
    | some .forking, .stop | some .stopping, .stop => some (p.move i .ended).remove
    | some .forking, .connect cfg => some (p.move i (.top cfg {}))
    | some (.top cfg s), .edge t => some (edgeStep p i cfg t s)
    | some (.edged cfg s), .load => some (p.move i (.loaded cfg s p.count))
    | some (.loaded cfg s count), .enter => some (p.move i (.waiting cfg s count false))
    | some (.waiting cfg s count woken), .event t =>
      if mayFire t woken then eventStep idOf p i cfg s count t else none
    | _, _ => none

/-- The runs of a pool; the number of its slots is a `usize`. -/
def poolSystem (idOf : String → Option String) (workers : Fin (2 ^ 64)) :
    Transition.System Pool (ℕ × Move) where
  init p := p = { slots := List.replicate workers .unborn }
  step := poolStep idOf

/-! ### What a step can do -/

theorem idle_of_select {idOf : String → Option String} {cfg : ServeCfg} {t : Turn} {s s' : Serve}
    {gone : Option ChildGone} (h : select idOf cfg t s = some (s', gone)) : s'.idle = s.idle := by
  rcases select_cases h with ⟨rfl, -⟩ | ⟨id, l, p, hp, rfl, -⟩ | ⟨j, hj, htake, rfl, -⟩ |
    ⟨n, pw, hpw, rfl, -⟩ | ⟨pw, hpw, rfl, -⟩
  · rfl
  · rfl
  · rfl
  · unfold advanceWrite
    split_ifs <;> rfl
  · rfl

/-- The steps that take a slot out of the count. -/
def removes : Phase → Move → Bool
  | .forking, .stop | .stopping, .stop => true
  | .top cfg s, .edge _ => s.idle && !s.nowIdle cfg
  | _, _ => false

section Step

variable {idOf : String → Option String} {p p' : Pool} {i : ℕ} {m : Move}

/-- **What a step can do.** One slot changes its phase. Either its flag stays, and if it then holds
work back, the count was above zero or it had decided so before; or its flag is set and the count goes
up; or its flag is cleared, the count goes down and everyone in the `select!` is notified. -/
theorem poolStep_cases (h : poolStep idOf p (i, m) = some p') :
    ∃ ph ph', p.slots[i]? = some ph ∧
      ((p' = p.move i ph' ∧ removes ph m = false ∧ ph'.isIdle = ph.isIdle ∧
        (ph'.holdsBack = true → p.count ≠ 0 ∨ ph.deciding = true)) ∨
      (p' = (p.move i ph').add ∧ removes ph m = false ∧ ph.isIdle = false ∧ ph'.isIdle = true) ∨
      (p' = (p.move i ph').remove ∧ removes ph m = true ∧ ph.isIdle = true ∧ ph'.isIdle = false ∧
        ph'.holdsBack = false)) := by
  simp only [poolStep] at h
  split at h
  · next hph =>
    obtain rfl := Option.some.inj h
    exact ⟨_, .forking, hph, .inr (.inl ⟨rfl, rfl, rfl, rfl⟩)⟩
  · next hph =>
    obtain rfl := Option.some.inj h
    exact ⟨_, .ended, hph, .inr (.inr ⟨rfl, rfl, rfl, rfl, rfl⟩)⟩
  · next hph =>
    obtain rfl := Option.some.inj h
    exact ⟨_, .ended, hph, .inr (.inr ⟨rfl, rfl, rfl, rfl, rfl⟩)⟩
  · next cfg hph =>
    obtain rfl := Option.some.inj h
    exact ⟨_, .top cfg {}, hph, .inl ⟨rfl, rfl, rfl, nofun⟩⟩
  · next cfg s t hph =>
    obtain rfl := Option.some.inj h
    refine ⟨_, .edged cfg (loopTop cfg t s), hph, ?_⟩
    have hidle : (loopTop cfg t s).idle = s.nowIdle cfg := rfl
    -- the four values of the flag before and after
    cases hnow : s.nowIdle cfg <;> cases hs : s.idle
    · refine .inl ⟨?_, ?_, ?_, nofun⟩ <;> simp [edgeStep, removes, Phase.isIdle, hidle, hnow, hs]
    · refine .inr (.inr ⟨?_, ?_, hs, hnow, rfl⟩) <;> simp [edgeStep, removes, hidle, hnow, hs]
    · refine .inr (.inl ⟨?_, ?_, hs, hnow⟩) <;> simp [edgeStep, removes, hidle, hnow, hs]
    · refine .inl ⟨?_, ?_, ?_, nofun⟩ <;> simp [edgeStep, removes, Phase.isIdle, hidle, hnow, hs]
  · next cfg s hph =>
    obtain rfl := Option.some.inj h
    refine ⟨_, .loaded cfg s p.count, hph, .inl ⟨rfl, rfl, rfl, fun hback => .inl ?_⟩⟩
    simp [Phase.holdsBack] at hback
    exact hback.2
  · next cfg s count hph =>
    cases h
    exact ⟨_, .waiting cfg s count false, hph, .inl ⟨rfl, rfl, rfl, fun hback => .inr hback⟩⟩
  · next cfg s count woken t hph =>
    split_ifs at h
    obtain ⟨⟨s', gone⟩, hselect, hp'⟩ := Option.map_eq_some_iff.1 h
    have hidle := idle_of_select hselect
    cases gone with
    | none =>
      cases hp'
      exact ⟨_, .top cfg s', hph, .inl ⟨rfl, rfl, hidle, nofun⟩⟩
    | some gone =>
      set next := if gone.serveExit = ServeExit.shutdown then Phase.stopping else .forking with hnext
      have hnextIdle : next.isIdle = true := by
        rw [hnext]
        split_ifs <;> rfl
      have hnextBack : next.holdsBack = false := by
        rw [hnext]
        split_ifs <;> rfl
      refine ⟨_, next, hph, ?_⟩
      cases hs : s'.idle
      · refine .inr (.inl ⟨?_, rfl, by rw [← hs, hidle]; rfl, hnextIdle⟩)
        simpa [hs] using hp'.symm
      · refine .inl ⟨?_, rfl, ?_, fun hback => ?_⟩
        · simpa [hs] using hp'.symm
        · rw [hnextIdle, ← hs, hidle]
          rfl
        · rw [hnextBack] at hback
          cases hback
  · cases h

end Step

/-! ### The count -/

/-- The running slots that are marked idle. -/
def Pool.idleSlots (p : Pool) : ℕ := p.slots.countP Phase.isIdle

theorem idleSlots_move {p : Pool} {i : ℕ} {ph : Phase} (hph : p.slots[i]? = some ph) (ph' : Phase) :
    (p.move i ph').idleSlots + ph.isIdle.toNat = p.idleSlots + ph'.isIdle.toNat :=
  Parties.countP_set_add Phase.isIdle hph ph'

theorem idleSlots_remove (p : Pool) : p.remove.idleSlots = p.idleSlots := by
  simp only [Pool.idleSlots, Pool.remove, List.countP_map]
  congr 1
  funext ph
  exact ph.isIdle_notified

/-- **The counter is exact**: it is the number of running slots that are marked idle, which there are
less of than its range. -/
structure Counted (p : Pool) : Prop where
  count : p.count = p.idleSlots
  range : p.slots.length < 2 ^ 64
  wrapped : p.wrapped = false

theorem counted_init (workers : Fin (2 ^ 64)) :
    Counted { slots := List.replicate workers .unborn } := by
  refine ⟨?_, ?_, rfl⟩
  · simp [Pool.idleSlots, List.countP_replicate, Phase.isIdle]
  · rw [List.length_replicate]
    exact workers.isLt

section Invariant

variable {idOf : String → Option String} {p p' : Pool} {a : ℕ × Move}

theorem Counted.lt (h : Counted p) : p.count < 2 ^ 64 := by
  rw [h.count]
  exact (List.countP_le_length).trans_lt h.range

/-- Going up does not wrap, for the slot that goes up was not in the count. -/
theorem Counted.add {i : ℕ} {ph ph' : Phase} (h : Counted p) (hph : p.slots[i]? = some ph)
    (hidle : ph.isIdle = false) (hidle' : ph'.isIdle = true) :
    (p.move i ph').add.count = p.count + 1 ∧ Counted (p.move i ph').add := by
  have hmove := idleSlots_move hph ph'
  rw [hidle, hidle', ← h.count] at hmove
  have hlen : (p.move i ph').slots.length = p.slots.length := List.length_set
  have hle : (p.move i ph').idleSlots ≤ p.slots.length := by
    rw [← hlen]
    exact List.countP_le_length
  have hlt : p.count + 1 < 2 ^ 64 := by
    have := h.range
    simp at hmove
    omega
  have hcount : (p.move i ph').add.count = p.count + 1 := Nat.mod_eq_of_lt hlt
  refine ⟨hcount, ?_, hlen.trans_lt h.range, ?_⟩
  · rw [hcount]
    exact hmove.symm
  · show (p.wrapped || decide (2 ^ 64 ≤ p.count + 1)) = false
    rw [h.wrapped, Bool.false_or, decide_eq_false_iff_not]
    omega

/-- Going down does not wrap, for the slot that goes down was in the count. -/
theorem Counted.remove {i : ℕ} {ph ph' : Phase} (h : Counted p) (hph : p.slots[i]? = some ph)
    (hidle : ph.isIdle = true) (hidle' : ph'.isIdle = false) :
    (p.move i ph').remove.count + 1 = p.count ∧ Counted (p.move i ph').remove := by
  have hmove := idleSlots_move hph ph'
  rw [hidle, hidle', ← h.count] at hmove
  have hpos : 1 ≤ p.count := by
    simp at hmove
    omega
  have hlt := h.lt
  have hcount : (p.move i ph').remove.count + 1 = p.count := by
    show (p.count + (2 ^ 64 - 1)) % 2 ^ 64 + 1 = p.count
    omega
  refine ⟨hcount, ?_, ?_, ?_⟩
  · rw [idleSlots_remove]
    simp at hmove
    omega
  · show ((p.slots.set i ph').map Phase.notified).length < 2 ^ 64
    rw [List.length_map, List.length_set]
    exact h.range
  · show (p.wrapped || decide (p.count = 0)) = false
    rw [h.wrapped, Bool.false_or, decide_eq_false_iff_not]
    omega

/-- **A step keeps the counter exact.** -/
theorem Counted.step (h : Counted p) (hstep : poolStep idOf p a = some p') : Counted p' := by
  obtain ⟨ph, ph', hph, ⟨rfl, -, hidle, -⟩ | ⟨rfl, -, hidle, hidle'⟩ | ⟨rfl, -, hidle, hidle', -⟩⟩ :=
    poolStep_cases hstep
  · have hmove := idleSlots_move hph ph'
    rw [hidle] at hmove
    refine ⟨h.count.trans (Nat.add_right_cancel hmove).symm, ?_, h.wrapped⟩
    show (p.slots.set a.1 ph').length < 2 ^ 64
    rw [List.length_set]
    exact h.range
  · exact (h.add hph hidle hidle').2
  · exact (h.remove hph hidle hidle').2

theorem counted_of_reachable {C : Pool → ℕ × Move → Prop} {workers : Fin (2 ^ 64)}
    (h : (poolSystem idOf workers).Reachable C p) : Counted p := by
  refine h.invariant ?_ fun p a p' hp _ hstep => hp.step hstep
  rintro p rfl
  exact counted_init workers

/-- **The idle count is exact.** In every state of every run of a pool: the counter is the number of
running slots that are marked idle, those without a child included; it never left its range; and it is
zero when every slot loop has ended. -/
theorem idle_count_exact {workers : Fin (2 ^ 64)}
    (h : (poolSystem idOf workers).Reachable Transition.System.anyStep p) :
    p.count = p.slots.countP Phase.isIdle ∧ p.wrapped = false ∧
      ((∀ ph ∈ p.slots, ph = .ended) → p.count = 0) := by
  have hcounted := counted_of_reachable h
  refine ⟨hcounted.count, hcounted.wrapped, fun hended => ?_⟩
  rw [hcounted.count, Pool.idleSlots, List.countP_eq_zero]
  rintro ph hph
  rw [hended ph hph]
  exact Bool.false_ne_true

end Invariant

/-- The settings of a child with one thread. -/
def oneThread : ServeCfg := ⟨4, 0, 1⟩

/-- A turn in which a slot takes a job, and the edge of its flag after it. -/
def takeJob (i : ℕ) (id : String) : List (ℕ × Move) :=
  [(i, .edge { event := .dropped }), (i, .load), (i, .enter),
    (i, .event { event := .job ⟨id, "r", 5⟩ }), (i, .edge { event := .dropped })]

/-- Two slots, of which the first looks at the count while the second is idle, and gets to its
`select!` after the second took a job. -/
def lookThenDrop : List (ℕ × Move) :=
  [(0, .start), (1, .start), (0, .connect oneThread), (1, .connect oneThread)] ++ takeJob 0 "a" ++
    [(0, .load)] ++ takeJob 1 "b" ++ [(0, .enter)]

/-- The end of a schedule of two slots. -/
def afterTwo (schedule : List (ℕ × Move)) : Pool :=
  ((poolSystem some 2).run { slots := List.replicate 2 .unborn } schedule).getD { slots := [] }

theorem reachable_afterTwo (schedule : List (ℕ × Move))
    (h : ((poolSystem some 2).run { slots := List.replicate 2 .unborn } schedule).isSome) :
    (poolSystem some 2).Reachable Transition.System.anyStep (afterTwo schedule) := by
  obtain ⟨p, hp⟩ := Option.isSome_iff_exists.1 h
  refine ⟨_, rfl, ?_⟩
  rw [afterTwo, hp, Option.getD_some]
  exact Transition.System.reach_of_run schedule (fun _ _ _ => trivial) hp

/-- One slot busy, the other idle: the count is one. -/
theorem idle_count_exact_one_busy :
    (afterTwo (lookThenDrop.take 10)).count = 1 ∧
      (afterTwo (lookThenDrop.take 10)).slots.countP Phase.isIdle = 1 ∧
      (afterTwo (lookThenDrop.take 10)).wrapped = false := by
  obtain ⟨hcount, hwrapped, -⟩ :=
    idle_count_exact (reachable_afterTwo (lookThenDrop.take 10) (by decide +kernel))
  have hone : (afterTwo (lookThenDrop.take 10)).count = 1 := by decide +kernel
  exact ⟨hone, hcount.symm.trans hone, hwrapped⟩

/-! ### The notification -/

/-- A slot that waits in the `select!` with work held back, at a count of zero, has a notification. -/
def Woken (p : Pool) : Prop :=
  p.count = 0 → ∀ ph ∈ p.slots, ph.inSelect = true → ph.holdsBack = true → ph.reached = true

/-- The step does not take the last idle slot while another one has read the count, holds back because
of it, and is not in the `select!` yet. -/
def timely (p : Pool) (a : ℕ × Move) : Bool :=
  match p.slots[a.1]? with
  | some ph => !(removes ph a.2 && decide (p.count = 1)) || p.slots.all fun ph => !ph.deciding
  | none => true

/-- At a count of zero whoever holds back has a notification. -/
def Alert (p : Pool) : Prop := p.count = 0 → ∀ ph ∈ p.slots, ph.holdsBack = true → ph.reached = true

theorem Phase.reached_of_deciding {ph : Phase} (h : ph.deciding = true) :
    ph.holdsBack = true ∧ ph.reached = false ∧ ph.notified = ph := by
  cases ph with
  | loaded => exact ⟨h, rfl, rfl⟩
  | _ => cases h

section Invariant

variable {idOf : String → Option String} {p p' : Pool} {a : ℕ × Move}

/-- **A timely step keeps everybody alert.** -/
theorem Alert.step (h : Alert p) (hcounted : Counted p) (htimely : timely p a = true)
    (hstep : poolStep idOf p a = some p') : Alert p' := by
  obtain ⟨ph, ph', hph, ⟨rfl, -, -, hback⟩ | ⟨rfl, -, hidle, hidle'⟩ |
    ⟨rfl, hremoves, hidle, hidle', hback⟩⟩ := poolStep_cases hstep
  · intro hzero ph₁ hph₁ hback₁
    rcases List.mem_or_eq_of_mem_set hph₁ with hold | rfl
    · exact h hzero ph₁ hold hback₁
    · rcases hback hback₁ with hpos | hdeciding
      · exact absurd hzero hpos
      · -- a slot that decided to hold back did so at a count above zero
        obtain ⟨hph₀, hnot, -⟩ := Phase.reached_of_deciding hdeciding
        have hreached := h hzero ph (List.mem_of_getElem? hph) hph₀
        exact absurd (hnot.symm.trans hreached) Bool.false_ne_true
  · intro hzero
    have hcount := (hcounted.add hph hidle hidle').1
    omega
  · intro hzero ph₁ hph₁ hback₁
    have hcount := (hcounted.remove hph hidle hidle').1
    have hone : p.count = 1 := by omega
    have hnobody : ∀ ph ∈ p.slots, ph.deciding = false := by
      simpa [timely, hph, hremoves, hone] using htimely
    obtain ⟨ph₂, hph₂, rfl⟩ := List.mem_map.1 hph₁
    rw [Phase.holdsBack_notified] at hback₁
    rcases List.mem_or_eq_of_mem_set hph₂ with hold | rfl
    · exact Phase.reached_notified hback₁ (hnobody ph₂ hold)
    · exact absurd (hback.symm.trans hback₁) Bool.false_ne_true

theorem alert_of_reachable {workers : Fin (2 ^ 64)}
    (h : (poolSystem idOf workers).Reachable (fun p a => timely p a = true) p) :
    Counted p ∧ Alert p := by
  refine h.invariant (I := fun p => Counted p ∧ Alert p) ?_
    fun p a p' hp htimely hstep => ⟨hp.1.step hstep, hp.2.step hp.1 htimely hstep⟩
  rintro p rfl
  refine ⟨counted_init workers, fun _ ph hph hback => ?_⟩
  cases List.eq_of_mem_replicate hph
  cases hback

/-- The drop of the last idle slot is lost on a slot that is deciding: it goes to sleep. -/
theorem sleeps_of_not_timely (hcounted : Counted p) (hstep : poolStep idOf p a = some p')
    (huntimely : timely p a = false) :
    ∃ j p'', poolStep idOf p' (j, .enter) = some p'' ∧ ¬ Woken p'' := by
  obtain ⟨ph, ph', hph, hcases⟩ := poolStep_cases hstep
  have hlate : removes ph a.2 = true ∧ p.count = 1 ∧ ∃ ph ∈ p.slots, ph.deciding = true := by
    simpa [timely, hph, and_assoc] using huntimely
  obtain ⟨hremoves, hone, ph₁, hph₁, hdeciding⟩ := hlate
  rcases hcases with ⟨-, hquiet, -⟩ | ⟨-, hquiet, -⟩ | ⟨rfl, -, hidle, hidle', -⟩
  · exact absurd (hquiet.symm.trans hremoves) Bool.false_ne_true
  · exact absurd (hquiet.symm.trans hremoves) Bool.false_ne_true
  · obtain ⟨j, hj⟩ := List.mem_iff_getElem?.1 hph₁
    have hne : a.1 ≠ j := by
      rintro rfl
      cases hph.symm.trans hj
      cases ph <;> first | cases hdeciding | cases hremoves
    have hstays : (p.move a.1 ph').remove.slots[j]? = some ph₁ := by
      show ((p.slots.set a.1 ph').map Phase.notified)[j]? = some ph₁
      rw [List.getElem?_map, List.getElem?_set_ne hne, hj, Option.map_some,
        (Phase.reached_of_deciding hdeciding).2.2]
    have hcount := (hcounted.remove hph hidle hidle').1
    cases ph₁ with
    | loaded cfg s count =>
      refine ⟨j, (p.move a.1 ph').remove.move j (.waiting cfg s count false), ?_, fun hwoken => ?_⟩
      · simp only [poolStep, hstays]
      · have hlt : j < (p.move a.1 ph').remove.slots.length :=
          (List.getElem?_eq_some_iff.1 hstays).1
        have hzero : ((p.move a.1 ph').remove.move j (.waiting cfg s count false)).count = 0 := by
          show (p.move a.1 ph').remove.count = 0
          omega
        exact absurd (hwoken hzero _ (List.mem_set hlt _) rfl hdeciding) Bool.false_ne_true
    | _ => cases hdeciding

/-- **When a slot that holds back is woken.** In every run whose steps are timely, whoever waits in the
`select!` with work held back at a count of zero has a notification. And in every state of every run
a step that is not timely leads to one where somebody waits without: the next step of a slot that was
deciding takes it there. -/
theorem held_back_slot_woken (workers : Fin (2 ^ 64)) :
    (∀ p, (poolSystem idOf workers).Reachable (fun p a => timely p a = true) p → Woken p) ∧
    ∀ p a p', (poolSystem idOf workers).Reachable Transition.System.anyStep p →
      poolStep idOf p a = some p' → timely p a = false →
        ∃ j p'', poolStep idOf p' (j, .enter) = some p'' ∧ ¬ Woken p'' := by
  constructor
  · intro p hp hzero ph hph _ hback
    exact (alert_of_reachable hp).2 hzero ph hph hback
  · intro p a p' hp hstep huntimely
    exact sleeps_of_not_timely (counted_of_reachable hp) hstep huntimely

end Invariant

/-- The same two slots, the first in its `select!` before the second takes its job. -/
def waitThenDrop : List (ℕ × Move) :=
  [(0, .start), (1, .start), (0, .connect oneThread), (1, .connect oneThread)] ++ takeJob 0 "a" ++
    [(0, .load), (0, .enter)] ++ takeJob 1 "b"

theorem held_back_slot_woken_in_time :
    let p := ((poolSystem some 2).runIf timely { slots := List.replicate 2 .unborn }
      waitThenDrop).getD { slots := List.replicate 2 .unborn }
    p.count = 0 ∧ (∃ ph ∈ p.slots, ph.inSelect = true ∧ ph.holdsBack = true) ∧
      ∀ ph ∈ p.slots, ph.inSelect = true → ph.holdsBack = true → ph.reached = true := by
  intro p
  have hp : (poolSystem some 2).Reachable (fun p a => timely p a = true) p :=
    Transition.System.reachable_runIf rfl (by decide +kernel)
  have hzero : p.count = 0 := by decide +kernel
  have hwaits : (p.slots.any fun ph => ph.inSelect && ph.holdsBack) = true := by decide +kernel
  obtain ⟨ph, hph, hback⟩ := List.any_eq_true.1 hwaits
  rw [Bool.and_eq_true] at hback
  exact ⟨hzero, ⟨ph, hph, hback⟩, (held_back_slot_woken 2).1 p hp hzero⟩

/-- The second slot takes a job after the first has read a count of one, and before it waits: the first
waits with its work held back, the count is zero and no notification comes. -/
theorem drop_before_select_lost :
    ¬ ∀ p, (poolSystem some 2).Reachable Transition.System.anyStep p → Woken p := by
  intro h
  have hwoken := h _ (reachable_afterTwo lookThenDrop (by decide +kernel))
  have hzero : (afterTwo lookThenDrop).count = 0 := by decide +kernel
  have hstuck : ((afterTwo lookThenDrop).slots.any fun ph =>
      ph.inSelect && ph.holdsBack && !ph.reached) = true := by decide +kernel
  obtain ⟨ph, hph, hstuck⟩ := List.any_eq_true.1 hstuck
  simp only [Bool.and_eq_true, Bool.not_eq_true'] at hstuck
  have hreached := hwoken hzero ph hph hstuck.1.1 hstuck.1.2
  exact absurd (hstuck.2.symm.trans hreached) Bool.false_ne_true

end Cauli.Idle
