import Mathlib.Data.List.Nodup
import Mathlib.Data.List.Perm.Basic
import Mathlib.Order.Nat
import Mathlib.Tactic.SplitIfs
import Cauli.Lib.Parties
import Cauli.Lib.Transition

/-!
# The supervisor of the worker processes (`worker/src/supervisor.rs`)

With `--procs` above 1 the parent only starts the worker processes, starts those again that die, and
forwards the request to stop. Its loop handles one signal or one tick at a time; a tick visits the slots one
after the other, with one reading of the clock.

* `Slot`, `State`: the local variables of `supervise`, and records of what it has done;
* `visitChild`, `visitEmpty`: one slot of a tick;
* `step`: the loop, with the processes it has started and what the system calls answer in the labels;
* `SupervisorOk`: what holds in every state;
* `supervision_sound`: restarts are spaced, no process is lost sight of, and the exit code tells how the
  processes ended.

A pass reads the clock once and then starts its processes one after the other, so an attempt comes at or
after the reading it goes by. Instants are in milliseconds. A process is known by a number of its own.
-/

namespace Cauli.Supervisor

open Transition

/-- `RESTART_DELAY`. -/
def RESTART_DELAY : ℕ := 1000

/-- A slot with the process it has, if any. -/
structure Slot where
  child : Option ℕ
  spawned : ℕ
  respawnAt : ℕ

/-- Where `supervise` is. -/
inductive Phase
  /-- It starts the processes; the instant was read before the first. -/
  | launching (now : ℕ)
  /-- A process could not be started, and it waits for the others to end. -/
  | aborting
  /-- In the `select!`. -/
  | selecting
  /-- In a tick, before the slot of the given index. -/
  | ticking (now i : ℕ)
  | ended (code : ℕ)
  deriving DecidableEq

/-- An attempt to start a process: the slot, the reading of the clock that the attempt goes by, and the
instant of the attempt itself. -/
structure Attempt where
  slot : ℕ
  read : ℕ
  instant : ℕ
  deriving DecidableEq

/-- The supervisor. `status` is how a process has ended. The other fields after it are records: the attempts
to start a process, the processes that were started, those that were waited for, with
their success, those of them that ended in the shutdown, and those that got a `SIGTERM`. -/
structure State where
  now : ℕ := 0
  phase : Phase
  slots : List Slot := []
  shuttingDown : Bool := false
  exitCode : ℕ := 0
  status : ℕ → Option Bool := fun _ => none
  attempts : List Attempt := []
  spawned : List ℕ := []
  reaped : List ℕ := []
  drained : List (ℕ × Bool) := []
  signalled : List ℕ := []

/-- The processes that the slots have. -/
def State.children (s : State) : List ℕ := s.slots.filterMap Slot.child

/-- `fan_out`: a `SIGTERM` for the process of every slot. -/
def fanOut (s : State) : State := { s with signalled := s.signalled ++ s.children }

/-- `spawn_child` for the slot of index `i`, which is the last one at the start; `none` is an error. -/
def launch (now : ℕ) (result : Option ℕ) (s : State) : State :=
  let s := { s with attempts := s.attempts ++ [Attempt.mk s.slots.length now s.now] }
  match result with
  | some c =>
    { s with slots := s.slots ++ [⟨some c, now, now⟩], spawned := s.spawned ++ [c] }
  | none => { fanOut s with phase := .aborting }

/-- `try_wait` on the process of a slot: it is running, it has ended, or the call failed. -/
inductive Wait
  | running
  | exited (success : Bool)
  | error

/-- A slot of a tick that has a process. -/
def visitChild (now i c : ℕ) (slot : Slot) (w : Wait) (s : State) : State :=
  match w with
  | .exited success =>
    if s.shuttingDown then
      { s with
        slots := s.slots.set i { slot with child := none }
        exitCode := if success then s.exitCode else 1
        reaped := s.reaped ++ [c]
        drained := s.drained ++ [(c, success)] }
    else
      { s with
        slots := s.slots.set i
          { slot with child := none, respawnAt := max now (slot.spawned + RESTART_DELAY) }
        reaped := s.reaped ++ [c] }
  | .running | .error => s

/-- A slot of a tick that has none. -/
def visitEmpty (now i : ℕ) (slot : Slot) (result : Option ℕ) (s : State) : State :=
  if !s.shuttingDown ∧ slot.respawnAt ≤ now then
    let s := { s with attempts := s.attempts ++ [Attempt.mk i now s.now] }
    match result with
    | some c =>
      { s with
        slots := s.slots.set i { slot with child := some c, spawned := now }
        spawned := s.spawned ++ [c] }
    | none => { s with slots := s.slots.set i { slot with respawnAt := now + RESTART_DELAY } }
  else s

/-- The steps. -/
inductive Label
  | time (d : ℕ)
  /-- A process ends. -/
  | exit (c : ℕ) (success : Bool)
  /-- The next slot at the start. -/
  | launch (result : Option ℕ)
  | launched
  /-- All processes of an aborted start have been waited for. -/
  | aborted
  /-- `SIGTERM` or `SIGINT`. -/
  | signal
  | tick
  /-- The next slot of a tick: what `try_wait` or `spawn_child` answers. -/
  | visit (w : Wait) (result : Option ℕ)
  | tickDone

/-- The answer of `try_wait` agrees with what the process has done. -/
def Wait.agrees (status : Option Bool) : Wait → Bool
  | .running => status == none
  | .exited success => status == some success
  | .error => true

/-- One step, with `procs` slots. The process that a spawn gives is a new one. -/
def step (procs : ℕ) (s : State) : Label → Option State
  | .time d => some { s with now := s.now + d }
  | .exit c success =>
    if c ∈ s.spawned ∧ s.status c = none then
      some { s with status := Function.update s.status c (some success) }
    else none
  | .launch result =>
    match s.phase with
    | .launching now =>
      if s.slots.length < procs ∧ (∀ c ∈ result, c ∉ s.spawned) then some (launch now result s)
      else none
    | _ => none
  | .launched =>
    match s.phase with
    | .launching _ => if s.slots.length = procs then some { s with phase := .selecting } else none
    | _ => none
  | .aborted =>
    match s.phase with
    | .aborting =>
      if ∀ c ∈ s.children, (s.status c).isSome then
        some { s with
          phase := .ended 1
          slots := s.slots.map fun slot => { slot with child := none }
          reaped := s.reaped ++ s.children }
      else none
    | _ => none
  | .signal =>
    match s.phase with
    | .selecting => some (fanOut { s with shuttingDown := true })
    | _ => none
  | .tick =>
    match s.phase with
    | .selecting => some { s with phase := .ticking s.now 0 }
    | _ => none
  | .visit w result =>
    match s.phase with
    | .ticking now i =>
      (s.slots[i]?).bind fun slot =>
        let s' := { s with phase := .ticking now (i + 1) }
        match slot.child with
        | some c => if w.agrees (s.status c) then some (visitChild now i c slot w s') else none
        | none => if ∀ c ∈ result, c ∉ s.spawned then some (visitEmpty now i slot result s') else none
    | _ => none
  | .tickDone =>
    match s.phase with
    | .ticking _ i =>
      if i = s.slots.length then
        some { s with
          phase :=
            if s.shuttingDown ∧ s.slots.all (·.child.isNone) then .ended s.exitCode else .selecting }
      else none
    | _ => none

/-- The runs of `supervise`. -/
def system (procs : ℕ) : System State Label where
  init s := ∃ now, s = { now := now, phase := .launching now }
  step := step procs

/-! ### The invariant -/

/-- Two attempts to start a process for one slot are apart by the readings they go by. -/
def Apart (a b : Attempt) : Prop := a.slot = b.slot → a.read + RESTART_DELAY ≤ b.read

/-- How long after its reading of the clock an attempt came. -/
def Attempt.lag (a : Attempt) : ℕ := a.instant - a.read

/-- Two attempts to start a process for one slot are apart, but for the lag of the first. -/
def Spaced (a b : Attempt) : Prop := a.slot = b.slot → a.instant + RESTART_DELAY ≤ b.instant + a.lag

/-- The reading of the clock that the pass under way goes by. -/
def Phase.reading : Phase → Option ℕ
  | .launching now | .ticking now _ => some now
  | .aborting | .selecting | .ended _ => none

/-- A slot remembers its last attempt, as far as it matters for the next. -/
def Slot.Remembers (down : Bool) (slot : Slot) (t : ℕ) : Prop :=
  (slot.child ≠ none → t ≤ slot.spawned) ∧
    (slot.child = none → down = false → t + RESTART_DELAY ≤ slot.respawnAt)

/-- **What holds of the supervisor.** -/
structure SupervisorOk (procs : ℕ) (s : State) : Prop where
  spaced : s.attempts.Pairwise Apart
  made : ∀ a ∈ s.attempts, a.read ≤ a.instant ∧ a.instant ≤ s.now
  reading : ∀ now ∈ s.phase.reading, now ≤ s.now
  fresh : ∀ now, s.phase = .launching now →
    s.shuttingDown = false ∧ ∀ a ∈ s.attempts, a.slot < s.slots.length
  due : (∀ code, s.phase ≠ .ended code) → ∀ i slot, s.slots[i]? = some slot → ∀ a ∈ s.attempts,
    a.slot = i → slot.Remembers s.shuttingDown a.read
  size : s.slots.length ≤ procs
  accounted : (s.children ++ s.reaped).Perm s.spawned
  distinct : s.spawned.Nodup
  signalled : s.shuttingDown = true ∨ s.phase = .aborting → ∀ c ∈ s.children, c ∈ s.signalled
  exited : ∀ c ∈ s.reaped, (s.status c).isSome
  drained : ∀ p ∈ s.drained, s.status p.1 = some p.2
  code : s.exitCode = if s.drained.any (!·.2) then 1 else 0
  ended : ∀ code, s.phase = .ended code →
    s.children = [] ∧ code = if s.shuttingDown then s.exitCode else 1
  quiet : s.phase = .aborting → s.shuttingDown = false

section Invariant

variable {procs : ℕ} {s s' : State} {now i c : ℕ} {slot : Slot}

theorem SupervisorOk.init (procs now : ℕ) :
    SupervisorOk procs { now := now, phase := .launching now } := by
  constructor <;> simp [State.children, Phase.reading]

/-- A spawn gives a new process. -/
theorem SupervisorOk.accounted_spawn (h : SupervisorOk procs s) (hc : c ∉ s.spawned)
    {children : List ℕ} (hchildren : children.Perm (s.children ++ [c])) :
    (children ++ s.reaped).Perm (s.spawned ++ [c]) ∧ (s.spawned ++ [c]).Nodup := by
  constructor
  · refine (hchildren.append_right _).trans ?_
    rw [List.append_assoc]
    refine (List.perm_append_comm_assoc _ _ _).trans ?_
    exact (h.accounted.append_left _).trans List.perm_append_comm
  · rw [List.nodup_append_comm, List.singleton_append]
    exact List.nodup_cons.2 ⟨hc, h.distinct⟩

/-- An attempt comes at or after the reading of its pass. -/
theorem SupervisorOk.made_attempt (h : SupervisorOk procs s) (hread : now ≤ s.now) (i : ℕ) :
    ∀ a ∈ s.attempts ++ [Attempt.mk i now s.now], a.read ≤ a.instant ∧ a.instant ≤ s.now := by
  intro a ha
  rcases List.mem_append.1 ha with ha | ha
  · exact h.made a ha
  · rw [List.mem_singleton.1 ha]
    exact ⟨hread, le_rfl⟩

theorem SupervisorOk.launch (h : SupervisorOk procs s) {result : Option ℕ}
    (hphase : s.phase = .launching now) (hroom : s.slots.length < procs)
    (hnew : ∀ c ∈ result, c ∉ s.spawned) : SupervisorOk procs (launch now result s) := by
  obtain ⟨hup, hfresh⟩ := h.fresh now hphase
  have hread : now ≤ s.now := h.reading now (by simp [hphase, Phase.reading])
  have hmade := h.made_attempt hread s.slots.length
  have hspaced : (s.attempts ++ [Attempt.mk s.slots.length now s.now]).Pairwise Apart := by
    refine List.pairwise_append.2 ⟨h.spaced, List.pairwise_singleton _ _, ?_⟩
    rintro a ha b hb hab
    rw [List.mem_singleton.1 hb] at hab
    exact absurd hab (Nat.ne_of_lt (hfresh a ha))
  cases result with
  | none =>
    refine ⟨hspaced, hmade, by simp [Supervisor.launch, Phase.reading], by simp [Supervisor.launch], ?_,
      h.size, h.accounted, h.distinct, ?_, h.exited, h.drained, h.code, by simp [Supervisor.launch],
      fun _ => hup⟩
    · intro _ i slot hslot a ha hai
      rcases List.mem_append.1 ha with ha | ha
      · exact h.due (by simp [hphase]) i slot hslot a ha hai
      · rw [List.mem_singleton.1 ha] at hai
        have hlt := (List.getElem?_eq_some_iff.1 hslot).1
        exact absurd hai (Nat.ne_of_gt hlt)
    · intro _ c hc
      exact List.mem_append_right _ hc
  | some c =>
    have hchildren : (Supervisor.launch now (some c) s).children = s.children ++ [c] := by
      simp [Supervisor.launch, State.children]
    obtain ⟨haccounted, hdistinct⟩ :=
      h.accounted_spawn (hnew c rfl) (List.Perm.of_eq hchildren)
    refine ⟨hspaced, hmade, h.reading, ?_, ?_, ?_, haccounted, hdistinct, ?_, h.exited, h.drained, h.code,
      ?_, fun _ => hup⟩
    · refine fun _ _ => ⟨hup, fun a ha => ?_⟩
      simp only [Supervisor.launch, List.length_append, List.length_singleton]
      rcases List.mem_append.1 ha with ha | ha
      · exact (hfresh a ha).trans (Nat.lt_succ_self _)
      · rw [List.mem_singleton.1 ha]
        exact Nat.lt_succ_self _
    · intro _ i slot hslot a ha hai
      rcases List.mem_append.1 ha with ha | ha
      · have hlt : i < s.slots.length := hai ▸ hfresh a ha
        have hslot' : s.slots[i]? = some slot := by
          rwa [Supervisor.launch, List.getElem?_append_left hlt] at hslot
        exact h.due (by simp [hphase]) i slot hslot' a ha hai
      · rw [List.mem_singleton.1 ha] at hai ⊢
        subst hai
        simp only [Supervisor.launch, List.getElem?_concat_length, Option.some.injEq] at hslot
        subst hslot
        exact ⟨fun _ => le_rfl, by simp⟩
    · simpa [Supervisor.launch] using Nat.succ_le_of_lt hroom
    · rintro (hdown | habort)
      · exact absurd hdown (by simp [Supervisor.launch, hup])
      · simp [Supervisor.launch, hphase] at habort
    · simp [Supervisor.launch, hphase]

/-- A slot is changed, and no other. -/
theorem remembers_set (h : SupervisorOk procs s) (hactive : ∀ code, s.phase ≠ .ended code)
    (hslot : s.slots[i]? = some slot) {slot' : Slot} {attempts : List Attempt} {down : Bool}
    (hdown : down = s.shuttingDown)
    (hself : ∀ a ∈ attempts, a.slot = i → slot'.Remembers down a.read)
    (hothers : ∀ a ∈ attempts, a.slot ≠ i → a ∈ s.attempts) :
    ∀ j slot₁, (s.slots.set i slot')[j]? = some slot₁ → ∀ a ∈ attempts, a.slot = j →
      slot₁.Remembers down a.read := by
  intro j slot₁ hj a ha haj
  by_cases hij : j = i
  · subst hij
    rw [List.getElem?_set_self (List.getElem?_eq_some_iff.1 hslot).1] at hj
    cases hj
    exact hself a ha haj
  · rw [List.getElem?_set_ne (Ne.symm hij)] at hj
    rw [hdown]
    exact h.due hactive j slot₁ hj a (hothers a ha (haj ▸ hij)) haj

/-- The slot of a process that has ended is empty, and the process has been waited for. -/
theorem SupervisorOk.accounted_reap (h : SupervisorOk procs s) (hslot : s.slots[i]? = some slot)
    (hc : slot.child = some c) {slot' : Slot} (hempty : slot'.child = none) :
    ((s.slots.set i slot').filterMap Slot.child ++ (s.reaped ++ [c])).Perm s.spawned := by
  have hperm := Parties.filterMap_set_perm Slot.child hslot slot'
  rw [hc, hempty, Option.toList_some, Option.toList_none, List.append_nil] at hperm
  refine List.Perm.trans ?_ h.accounted
  rw [← List.append_assoc, State.children]
  refine List.perm_append_comm.trans ?_
  rw [← List.append_assoc]
  exact (List.perm_append_comm.trans hperm).append_right _

theorem mem_children_set (hslot : s.slots[i]? = some slot) {slot' : Slot}
    (hempty : slot'.child = none) (hc : c ∈ (s.slots.set i slot').filterMap Slot.child) :
    c ∈ s.children := by
  have hperm := Parties.filterMap_set_perm Slot.child hslot slot'
  rw [hempty, Option.toList_none, List.append_nil] at hperm
  exact hperm.subset (List.mem_append_left _ hc)

theorem SupervisorOk.visitChild (h : SupervisorOk procs s) (hphase : s.phase = .ticking now i)
    (hslot : s.slots[i]? = some slot) (hc : slot.child = some c) {w : Wait}
    (hw : w.agrees (s.status c) = true) {j : ℕ} :
    SupervisorOk procs (visitChild now i c slot w { s with phase := .ticking now j }) := by
  have hactive : ∀ code, s.phase ≠ .ended code := by simp [hphase]
  have hread : now ≤ s.now := h.reading now (by simp [hphase, Phase.reading])
  have hreading : ∀ now' ∈ (Phase.ticking now j).reading, now' ≤ s.now := by simpa [Phase.reading] using hread
  have hsame : SupervisorOk procs { s with phase := .ticking now j } := by
    refine ⟨h.spaced, h.made, hreading, by simp, fun _ => h.due hactive, h.size, h.accounted, h.distinct, ?_, h.exited,
      h.drained, h.code, by simp, by simp⟩
    rintro (hdown | habort)
    · exact h.signalled (.inl hdown)
    · cases habort
  cases w with
  | running => exact hsame
  | error => exact hsame
  | exited success =>
    have hstatus : s.status c = some success := by simpa [Wait.agrees] using hw
    have hexited : ∀ c' ∈ s.reaped ++ [c], (s.status c').isSome := by
      intro c' hc'
      rcases List.mem_append.1 hc' with hc' | hc'
      · exact h.exited c' hc'
      · rw [List.mem_singleton.1 hc', hstatus]
        rfl
    cases hdown : s.shuttingDown with
    | true =>
      have hcode : (if success = true then s.exitCode else 1)
          = if (s.drained ++ [(c, success)]).any (!·.2) then 1 else 0 := by
        rw [h.code]
        cases success <;> cases hany : s.drained.any (!·.2) <;> simp [hany]
      simp only [Supervisor.visitChild, ↓reduceIte]
      refine ⟨h.spaced, h.made, hreading, by simp, fun _ => ?_, by simpa using h.size,
        h.accounted_reap hslot hc rfl,
        h.distinct, ?_, hexited, ?_, hcode, by simp, by simp⟩
      · refine remembers_set h hactive hslot hdown.symm (fun a ha hai => ?_) fun a ha _ => ha
        exact ⟨by simp, by simp⟩
      · exact fun _ c' hc' => h.signalled (.inl hdown) c' (mem_children_set hslot rfl hc')
      · intro p hp
        rcases List.mem_append.1 hp with hp | hp
        · exact h.drained p hp
        · rw [List.mem_singleton.1 hp]
          exact hstatus
    | false =>
      simp only [Supervisor.visitChild, Bool.false_eq_true, ↓reduceIte]
      refine ⟨h.spaced, h.made, hreading, by simp, fun _ => ?_, by simpa using h.size,
        h.accounted_reap hslot hc rfl,
        h.distinct, ?_, hexited, h.drained, h.code, by simp, by simp⟩
      · refine remembers_set h hactive hslot hdown.symm (fun a ha hai => ?_) fun a ha _ => ha
        have hlast := (h.due hactive i slot hslot a ha hai).1 (by simp [hc])
        exact ⟨by simp, fun _ _ => (Nat.add_le_add_right hlast _).trans (Nat.le_max_right _ _)⟩
      · rintro (hdown' | habort)
        · cases hdown'
        · cases habort

theorem SupervisorOk.visitEmpty (h : SupervisorOk procs s) (hphase : s.phase = .ticking now i)
    (hslot : s.slots[i]? = some slot) (hc : slot.child = none) {result : Option ℕ}
    (hnew : ∀ c ∈ result, c ∉ s.spawned) {j : ℕ} :
    SupervisorOk procs (visitEmpty now i slot result { s with phase := .ticking now j }) := by
  have hactive : ∀ code, s.phase ≠ .ended code := by simp [hphase]
  have hread : now ≤ s.now := h.reading now (by simp [hphase, Phase.reading])
  have hreading : ∀ now' ∈ (Phase.ticking now j).reading, now' ≤ s.now := by simpa [Phase.reading] using hread
  simp only [Supervisor.visitEmpty]
  split_ifs with hready
  · obtain ⟨hup, hlate⟩ := hready
    rw [Bool.not_eq_true'] at hup
    have hlast : ∀ a ∈ s.attempts, a.slot = i → a.read + RESTART_DELAY ≤ now := fun a ha hai =>
      ((h.due hactive i slot hslot a ha hai).2 hc hup).trans hlate
    have hmade := h.made_attempt hread i
    have hspaced : (s.attempts ++ [Attempt.mk i now s.now]).Pairwise Apart := by
      refine List.pairwise_append.2 ⟨h.spaced, List.pairwise_singleton _ _, ?_⟩
      rintro a ha b hb hab
      rw [List.mem_singleton.1 hb] at hab ⊢
      exact hlast a ha hab
    have hothers : ∀ a ∈ s.attempts ++ [Attempt.mk i now s.now], a.slot ≠ i → a ∈ s.attempts := by
      intro a ha hne
      rcases List.mem_append.1 ha with ha | ha
      · exact ha
      · exact absurd (congrArg Attempt.slot (List.mem_singleton.1 ha)) hne
    cases result with
    | some c =>
      have hperm := Parties.filterMap_set_perm Slot.child hslot
        { slot with child := some c, spawned := now }
      rw [hc, Option.toList_none, List.append_nil, Option.toList_some] at hperm
      obtain ⟨haccounted, hdistinct⟩ := h.accounted_spawn (hnew c rfl) hperm
      refine ⟨hspaced, hmade, hreading, by simp, fun _ => ?_, by simpa using h.size, haccounted, hdistinct, ?_,
        h.exited, h.drained, h.code, by simp, by simp⟩
      · refine remembers_set h hactive hslot rfl (fun a ha hai => ⟨fun _ => ?_, by simp⟩) hothers
        rcases List.mem_append.1 ha with ha | ha
        · exact (Nat.le_add_right _ _).trans (hlast a ha hai)
        · rw [List.mem_singleton.1 ha]
      · rintro (hdown | habort)
        · rw [hup] at hdown
          cases hdown
        · cases habort
    | none =>
      have hperm : ((s.slots.set i { slot with respawnAt := now + RESTART_DELAY }).filterMap
          Slot.child).Perm s.children := by
        simpa [hc, State.children] using Parties.filterMap_set_perm Slot.child hslot
          { slot with respawnAt := now + RESTART_DELAY }
      refine ⟨hspaced, hmade, hreading, by simp, fun _ => ?_, by simpa using h.size,
        (hperm.append_right _).trans h.accounted, h.distinct, ?_, h.exited, h.drained, h.code, by simp, by simp⟩
      · refine remembers_set h hactive hslot rfl
          (fun a ha hai => ⟨fun hne => absurd hc hne, fun _ _ => ?_⟩) hothers
        rcases List.mem_append.1 ha with ha | ha
        · exact (hlast a ha hai).trans (Nat.le_add_right _ _)
        · rw [List.mem_singleton.1 ha]
      · rintro (hdown | habort)
        · rw [hup] at hdown
          cases hdown
        · cases habort
  · refine ⟨h.spaced, h.made, hreading, by simp, fun _ => h.due hactive, h.size, h.accounted, h.distinct,
      ?_, h.exited, h.drained, h.code, by simp, by simp⟩
    rintro (hdown | habort)
    · exact h.signalled (.inl hdown)
    · cases habort

/-- Little of what the invariant speaks about depends on the phase. -/
theorem SupervisorOk.move (h : SupervisorOk procs s) (hactive : ∀ code, s.phase ≠ .ended code)
    {phase : Phase} (hreading : ∀ now ∈ phase.reading, now ≤ s.now) (hlaunch : ∀ now, phase ≠ .launching now) (habort : phase ≠ .aborting)
    (hover : ∀ code, phase = .ended code →
      s.children = [] ∧ code = if s.shuttingDown then s.exitCode else 1) :
    SupervisorOk procs { s with phase := phase } := by
  refine ⟨h.spaced, h.made, hreading, fun now hphase => absurd hphase (hlaunch now), fun _ => h.due hactive, h.size,
    h.accounted, h.distinct, ?_, h.exited, h.drained, h.code, hover, fun hphase => absurd hphase habort⟩
  rintro (hdown | hphase)
  · exact h.signalled (.inl hdown)
  · exact absurd hphase habort

theorem SupervisorOk.signal (h : SupervisorOk procs s) (hphase : s.phase = .selecting) :
    SupervisorOk procs (fanOut { s with shuttingDown := true }) := by
  refine ⟨h.spaced, h.made, h.reading, by simp [fanOut, hphase], ?_, h.size, h.accounted, h.distinct, ?_, h.exited,
    h.drained, h.code, by simp [fanOut, hphase], by simp [fanOut, hphase]⟩
  · intro _ i slot hslot a ha hai
    exact ⟨(h.due (by simp [hphase]) i slot hslot a ha hai).1, by simp [fanOut]⟩
  · exact fun _ c hc => List.mem_append_right _ hc

theorem SupervisorOk.exit (h : SupervisorOk procs s) {success : Bool} (hc : s.status c = none) :
    SupervisorOk procs { s with status := Function.update s.status c (some success) } := by
  have hother : ∀ c', (s.status c').isSome → Function.update s.status c (some success) c' = s.status c' := by
    intro c' hc'
    refine Function.update_of_ne ?_ _ _
    rintro rfl
    rw [hc] at hc'
    cases hc'
  refine ⟨h.spaced, h.made, h.reading, h.fresh, h.due, h.size, h.accounted, h.distinct, h.signalled, ?_, ?_, h.code, h.ended,
    h.quiet⟩
  · intro c' hc'
    simp only
    rw [hother c' (h.exited c' hc')]
    exact h.exited c' hc'
  · intro p hp
    simp only
    rw [hother p.1 (by rw [h.drained p hp]; rfl)]
    exact h.drained p hp

theorem SupervisorOk.aborted (h : SupervisorOk procs s) (hphase : s.phase = .aborting)
    (hall : ∀ c ∈ s.children, (s.status c).isSome) :
    SupervisorOk procs { s with
      phase := .ended 1
      slots := s.slots.map fun slot => { slot with child := none }
      reaped := s.reaped ++ s.children } := by
  have hnone : (s.slots.map fun slot => { slot with child := none }).filterMap Slot.child = [] := by
    simp [List.filterMap_map]
  refine ⟨h.spaced, h.made, by simp [Phase.reading], by simp, fun hne => absurd rfl (hne 1),
    by simpa using h.size, ?_, h.distinct, ?_, ?_, h.drained, h.code, ?_, by simp⟩
  · rw [State.children, hnone, List.nil_append]
    exact List.perm_append_comm.trans h.accounted
  · intro _ c hc
    rw [State.children, hnone] at hc
    cases hc
  · intro c hc
    exact (List.mem_append.1 hc).elim (h.exited c) (hall c)
  · intro code hcode
    cases hcode
    exact ⟨hnone, by simp [h.quiet hphase]⟩

theorem SupervisorOk.step {l : Label} (h : SupervisorOk procs s)
    (hs : Supervisor.step procs s l = some s') : SupervisorOk procs s' := by
  cases l with
  | time d =>
    cases hs
    refine ⟨h.spaced, fun a ha => ?_, fun now hnow => ?_, h.fresh, h.due, h.size, h.accounted, h.distinct,
      h.signalled, h.exited, h.drained, h.code, h.ended, h.quiet⟩
    · exact ⟨(h.made a ha).1, (h.made a ha).2.trans (Nat.le_add_right _ _)⟩
    · exact (h.reading now hnow).trans (Nat.le_add_right _ _)
  | exit c success =>
    obtain ⟨⟨-, hc⟩, rfl⟩ := Option.ite_none_right_eq_some.1 hs |>.imp_right Option.some.inj
    exact h.exit hc
  | launch result =>
    simp only [Supervisor.step] at hs
    split at hs
    · next now hphase =>
      obtain ⟨⟨hroom, hnew⟩, rfl⟩ := Option.ite_none_right_eq_some.1 hs |>.imp_right Option.some.inj
      exact h.launch hphase hroom hnew
    · cases hs
  | launched =>
    simp only [Supervisor.step] at hs
    split at hs
    · next now hphase =>
      obtain ⟨-, rfl⟩ := Option.ite_none_right_eq_some.1 hs |>.imp_right Option.some.inj
      exact h.move (by simp [hphase]) (by simp [Phase.reading]) (by simp) (by simp) (by simp)
    · cases hs
  | aborted =>
    simp only [Supervisor.step] at hs
    split at hs
    · next hphase =>
      obtain ⟨hall, rfl⟩ := Option.ite_none_right_eq_some.1 hs |>.imp_right Option.some.inj
      exact h.aborted hphase hall
    · cases hs
  | signal =>
    simp only [Supervisor.step] at hs
    split at hs
    · next hphase =>
      cases hs
      exact h.signal hphase
    · cases hs
  | tick =>
    simp only [Supervisor.step] at hs
    split at hs
    · next hphase =>
      cases hs
      exact h.move (by simp [hphase]) (by simp [Phase.reading]) (by simp) (by simp) (by simp)
    · cases hs
  | visit w result =>
    simp only [Supervisor.step] at hs
    split at hs
    · next now i hphase =>
      obtain ⟨slot, hslot, hs⟩ := Option.bind_eq_some_iff.1 hs
      split at hs
      · next c hc =>
        obtain ⟨hw, rfl⟩ := Option.ite_none_right_eq_some.1 hs |>.imp_right Option.some.inj
        exact h.visitChild hphase hslot hc hw
      · next hc =>
        obtain ⟨hnew, rfl⟩ := Option.ite_none_right_eq_some.1 hs |>.imp_right Option.some.inj
        exact h.visitEmpty hphase hslot hc hnew
    · cases hs
  | tickDone =>
    simp only [Supervisor.step] at hs
    split at hs
    · next now i hphase =>
      obtain ⟨-, rfl⟩ := Option.ite_none_right_eq_some.1 hs |>.imp_right Option.some.inj
      refine h.move (by simp [hphase]) (by split_ifs <;> simp [Phase.reading]) (by split_ifs <;> simp)
        (by split_ifs <;> simp) ?_
      intro code hcode
      split_ifs at hcode with hlast
      cases hcode
      refine ⟨List.filterMap_eq_nil_iff.2 fun slot hslot => ?_, by simp [hlast.1]⟩
      exact Option.isNone_iff_eq_none.1 (List.all_eq_true.1 hlast.2 slot hslot)
    · cases hs

theorem supervisorOk_of_reachable (h : (system procs).Reachable System.anyStep s) :
    SupervisorOk procs s := by
  refine h.invariant ?_ fun t l u ht _ hstep => ht.step hstep
  rintro t ⟨now, rfl⟩
  exact .init procs now

/-- After the request to stop no process is started. -/
theorem SupervisorOk.stopped_step {l : Label} (h : SupervisorOk procs s) (hdown : s.shuttingDown = true)
    (hs : Supervisor.step procs s l = some s') :
    s'.shuttingDown = true ∧ s'.attempts = s.attempts := by
  cases l with
  | time d =>
    cases hs
    exact ⟨hdown, rfl⟩
  | exit c success =>
    obtain ⟨-, rfl⟩ := Option.ite_none_right_eq_some.1 hs |>.imp_right Option.some.inj
    exact ⟨hdown, rfl⟩
  | launch result =>
    simp only [Supervisor.step] at hs
    split at hs
    · next now hphase =>
      rw [(h.fresh now hphase).1] at hdown
      cases hdown
    · cases hs
  | launched | aborted | tickDone =>
    simp only [Supervisor.step] at hs
    split at hs
    · obtain ⟨-, rfl⟩ := Option.ite_none_right_eq_some.1 hs |>.imp_right Option.some.inj
      exact ⟨hdown, rfl⟩
    · cases hs
  | signal | tick =>
    simp only [Supervisor.step] at hs
    split at hs
    · cases hs
      exact ⟨by simp [fanOut, hdown], rfl⟩
    · cases hs
  | visit w result =>
    simp only [Supervisor.step] at hs
    split at hs
    · obtain ⟨slot, -, hs⟩ := Option.bind_eq_some_iff.1 hs
      split at hs
      · obtain ⟨-, rfl⟩ := Option.ite_none_right_eq_some.1 hs |>.imp_right Option.some.inj
        cases w <;> simp [Supervisor.visitChild, hdown]
      · obtain ⟨-, rfl⟩ := Option.ite_none_right_eq_some.1 hs |>.imp_right Option.some.inj
        simp [Supervisor.visitEmpty, hdown]
    · cases hs

/-- In the tick of a shutdown that finds all processes ended, or after it. -/
structure LastTick (s : State) : Prop where
  down : s.shuttingDown = true
  ended : ∀ c ∈ s.children, (s.status c).isSome
  swept : (∃ code, s.phase = .ended code) ∨ ∃ now i, s.phase = .ticking now i ∧
    ∀ j slot, j < i → s.slots[j]? = some slot → slot.child = none

theorem LastTick.visit (h : LastTick s) (hphase : s.phase = .ticking now i)
    (hslot : s.slots[i]? = some slot) {w : Wait} {result : Option ℕ} (hw : w ≠ .error)
    (hs : Supervisor.step procs s (.visit w result) = some s') : LastTick s' := by
  have hswept : ∀ j slot, j < i → s.slots[j]? = some slot → slot.child = none := by
    obtain ⟨code, hcode⟩ | ⟨now', i', hphase', hswept⟩ := h.swept
    · rw [hphase] at hcode
      cases hcode
    · rw [hphase] at hphase'
      cases hphase'
      exact hswept
  simp only [Supervisor.step, hphase, hslot, Option.bind_some] at hs
  cases hc : slot.child with
  | none =>
    simp only [hc, Option.ite_none_right_eq_some, Option.some.injEq] at hs
    obtain ⟨-, rfl⟩ := hs
    simp only [Supervisor.visitEmpty, h.down, Bool.not_true, Bool.false_eq_true, false_and, ↓reduceIte]
    refine ⟨rfl, h.ended, .inr ⟨now, i + 1, rfl, fun j slot' hj hslot' => ?_⟩⟩
    rcases Nat.lt_succ_iff_lt_or_eq.1 hj with hj | rfl
    · exact hswept j slot' hj hslot'
    · rw [hslot] at hslot'
      cases hslot'
      exact hc
  | some c =>
    simp only [hc, Option.ite_none_right_eq_some, Option.some.injEq] at hs
    obtain ⟨hw', rfl⟩ := hs
    have hmem : c ∈ s.children := List.mem_filterMap.2 ⟨slot, List.mem_of_getElem? hslot, hc⟩
    cases w with
    | error => exact absurd rfl hw
    | running =>
      have hrunning : s.status c = none := by simpa [Wait.agrees] using hw'
      exact absurd hrunning (Option.isSome_iff_ne_none.1 (h.ended c hmem))
    | exited success =>
      simp only [Supervisor.visitChild, h.down, ↓reduceIte]
      refine ⟨rfl, fun c' hc' => h.ended c' (mem_children_set hslot rfl hc'),
        .inr ⟨now, i + 1, rfl, fun j slot' hj hslot' => ?_⟩⟩
      rcases Nat.lt_succ_iff_lt_or_eq.1 hj with hj | rfl
      · rw [List.getElem?_set_ne (Nat.ne_of_gt hj)] at hslot'
        exact hswept j slot' hj hslot'
      · rw [List.getElem?_set_self (List.getElem?_eq_some_iff.1 hslot).1] at hslot'
        cases hslot'
        rfl

theorem LastTick.step {l : Label} (h : LastTick s) (hl : ∀ result, l ≠ .visit .error result)
    (hs : Supervisor.step procs s l = some s') : LastTick s' := by
  cases l with
  | time d =>
    cases hs
    exact ⟨h.down, h.ended, h.swept⟩
  | exit c success =>
    obtain ⟨-, rfl⟩ := Option.ite_none_right_eq_some.1 hs |>.imp_right Option.some.inj
    refine ⟨h.down, fun c' hc' => ?_, h.swept⟩
    by_cases hcc : c' = c
    · simp [hcc]
    · simpa [hcc] using h.ended c' hc'
  | launch result =>
    obtain ⟨code, hphase⟩ | ⟨now, i, hphase, -⟩ := h.swept <;> simp [Supervisor.step, hphase] at hs
  | launched =>
    obtain ⟨code, hphase⟩ | ⟨now, i, hphase, -⟩ := h.swept <;> simp [Supervisor.step, hphase] at hs
  | aborted =>
    obtain ⟨code, hphase⟩ | ⟨now, i, hphase, -⟩ := h.swept <;> simp [Supervisor.step, hphase] at hs
  | signal =>
    obtain ⟨code, hphase⟩ | ⟨now, i, hphase, -⟩ := h.swept <;> simp [Supervisor.step, hphase] at hs
  | tick =>
    obtain ⟨code, hphase⟩ | ⟨now, i, hphase, -⟩ := h.swept <;> simp [Supervisor.step, hphase] at hs
  | visit w result =>
    obtain ⟨code, hphase⟩ | ⟨now, i, hphase, -⟩ := h.swept
    · simp [Supervisor.step, hphase] at hs
    · cases hslot : s.slots[i]? with
      | none => simp [Supervisor.step, hphase, hslot] at hs
      | some slot => exact h.visit hphase hslot (fun hw => hl result (by rw [hw])) hs
  | tickDone =>
    obtain ⟨code, hphase⟩ | ⟨now, i, hphase, hswept⟩ := h.swept
    · simp [Supervisor.step, hphase] at hs
    · simp only [Supervisor.step, hphase, Option.ite_none_right_eq_some, Option.some.injEq] at hs
      obtain ⟨rfl, rfl⟩ := hs
      refine ⟨h.down, h.ended, .inl ⟨s.exitCode, if_pos ⟨h.down, List.all_eq_true.2 fun slot hslot => ?_⟩⟩⟩
      obtain ⟨j, hj⟩ := List.mem_iff_getElem?.1 hslot
      rw [hswept j slot (List.getElem?_eq_some_iff.1 hj).1 hj]
      rfl

/-- Attempts that go by readings `RESTART_DELAY` apart are themselves as far apart, but for the lag. -/
theorem SupervisorOk.attempts_spaced (h : SupervisorOk procs s) : s.attempts.Pairwise Spaced := by
  refine h.spaced.imp_of_mem fun {a b} ha hb hapart hab => ?_
  have hreads := hapart hab
  have hla := (h.made a ha).1
  have hlb := (h.made b hb).1
  simp only [Attempt.lag]
  omega

end Invariant

/-- **Supervision is sound.** In every run:
* two attempts to start a process for one slot, however the processes die and whether the attempts succeed,
  go by readings of the clock that are `RESTART_DELAY` apart, so they are themselves as far apart, but for
  the time from the first one's reading to the first one;
* every process that was started is in a slot or has been waited for, and never both;
* after the request to stop every process that is left has its `SIGTERM`, and nothing is started;
* when the supervisor ends, all processes have ended, and its exit code is 1 just when the start was given
  up or a process failed in the shutdown;
* a tick of the shutdown that begins when all processes have ended is the last one, unless a wait fails. -/
theorem supervision_sound (procs : ℕ) (s : State) (h : (system procs).Reachable System.anyStep s) :
    (s.attempts.Pairwise Apart ∧ s.attempts.Pairwise Spaced ∧
      ∀ a ∈ s.attempts, a.read ≤ a.instant ∧ a.instant ≤ s.now) ∧
    ((s.children ++ s.reaped).Perm s.spawned ∧ s.spawned.Nodup ∧ s.children.length ≤ procs) ∧
    (s.shuttingDown = true → (∀ c ∈ s.children, c ∈ s.signalled) ∧
      ∀ t, (system procs).Reach System.anyStep s t →
        t.shuttingDown = true ∧ t.attempts = s.attempts) ∧
    (∀ code, s.phase = .ended code → (∀ c ∈ s.spawned, (s.status c).isSome) ∧
      (code = 1 ↔ s.shuttingDown = false ∨ ∃ p ∈ s.drained, s.status p.1 = some false)) ∧
    (∀ now, s.phase = .ticking now 0 → s.shuttingDown = true →
      (∀ c ∈ s.children, (s.status c).isSome) →
      ∀ t, (system procs).Reach (fun _ l => ∀ result, l ≠ .visit .error result) s t →
        t.phase ≠ .selecting) := by
  have hok := supervisorOk_of_reachable h
  refine ⟨⟨hok.spaced, hok.attempts_spaced, hok.made⟩, ⟨hok.accounted, hok.distinct, ?_⟩, ?_, ?_, ?_⟩
  · exact (List.length_filterMap_le _ _).trans hok.size
  · intro hdown
    refine ⟨hok.signalled (.inl hdown), fun t ht => ?_⟩
    refine (ht.invariant (I := fun t => SupervisorOk procs t ∧ t.shuttingDown = true ∧
      t.attempts = s.attempts) ⟨hok, hdown, rfl⟩ ?_).2
    rintro t l u ⟨hok', hdown', hattempts⟩ - hstep
    obtain ⟨hdown'', hsame⟩ := hok'.stopped_step hdown' hstep
    exact ⟨hok'.step hstep, hdown'', hsame.trans hattempts⟩
  · intro code hcode
    obtain ⟨hnone, hvalue⟩ := hok.ended code hcode
    have hreaped : s.reaped.Perm s.spawned := by simpa [hnone] using hok.accounted
    refine ⟨fun c hc => hok.exited c (hreaped.mem_iff.2 hc), ?_⟩
    have hfailed : (∃ p ∈ s.drained, s.status p.1 = some false) ↔ s.drained.any (!·.2) = true := by
      rw [List.any_eq_true]
      refine exists_congr fun p => and_congr_right fun hp => ?_
      rw [hok.drained p hp]
      simp
    rw [hvalue, hfailed, hok.code]
    cases s.shuttingDown <;> cases s.drained.any (!·.2) <;> simp
  · intro now hphase hdown hended t ht
    have hstart : LastTick s := ⟨hdown, hended, .inr ⟨now, 0, hphase, by simp⟩⟩
    have hlast : LastTick t := ht.invariant hstart fun t l u hlast hl hstep => hlast.step hl hstep
    obtain ⟨code, hphase'⟩ | ⟨now', i, hphase', -⟩ := hlast.swept <;> simp [hphase']

/-- A process that dies is started again after a failed attempt, which comes late in its tick; in the shutdown
one of the two fails. -/
def restartRun : List Label :=
  [.launch (some 10), .launch (some 11), .launched, .time 1500, .exit 10 false, .tick,
    .visit (.exited false) none, .visit .running none, .tickDone, .time 200, .tick, .time 50,
    .visit .error none, .visit .running none, .tickDone, .time 950, .tick, .visit .error (some 12),
    .visit .running none, .tickDone, .signal, .exit 11 true, .exit 12 false, .tick,
    .visit (.exited false) none, .visit (.exited true) none, .tickDone]

/-- The state at the end of `restartRun`. -/
def restarted : State :=
  ((system 2).run { phase := .launching 0 } restartRun).getD { phase := .launching 0 }

theorem supervision_sound_restarted :
    restarted.phase = .ended 1 ∧
    restarted.attempts = [⟨0, 0, 0⟩, ⟨1, 0, 0⟩, ⟨0, 1700, 1750⟩, ⟨0, 2700, 2700⟩] ∧
    restarted.attempts.Pairwise Spaced ∧ (∀ c ∈ [10, 11, 12], (restarted.status c).isSome) ∧
    ∃ p ∈ restarted.drained, restarted.status p.1 = some false := by
  have hreach : (system 2).Reachable System.anyStep restarted :=
    System.reachable_getD ⟨0, rfl⟩ (fun _ _ _ => trivial) (by rfl)
  obtain ⟨⟨-, hspaced, -⟩, -, -, hended, -⟩ := supervision_sound 2 restarted hreach
  obtain ⟨hall, hcode⟩ := hended 1 rfl
  refine ⟨rfl, rfl, hspaced, hall, ?_⟩
  exact (hcode.1 rfl).resolve_left (by decide)

end Cauli.Supervisor
