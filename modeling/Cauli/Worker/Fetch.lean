import Cauli.Lib.GroupStream
import Cauli.Lib.Semaphore
import Cauli.Lib.Transition

/-!
# The fetch loop and the io slots (`worker/src/loops.rs`, `worker/src/dispatch.rs`)

The fetch loop reads the free slots, asks Redis for what fits, and spawns a dispatch for every entry of
the reply; `spawn_dispatch` takes the slot before the spawn. `COUNT` is per stream, the slots are
shared, and the recovery loop spawns dispatches on the same semaphore.

* `FetchCfg.minPermits`, `FetchCfg.perStream`: the threshold of the gate and the `COUNT` of a read;
* `IoSlots`: the semaphore, the dispatches that have no slot, and where the two loops are;
* `slotSystem`: every step that touches the semaphore is a step of its own. What Redis replies, the
  reading of the cpu backlog and which dispatch ends next are part of the label.
-/

namespace Cauli

open GroupStream Semaphore

/-- The settings the fetch loop reads. -/
structure FetchCfg where
  queues : List String
  ioConcurrency : ℕ
  batch : ℕ

/-- The streams of a read. -/
def FetchCfg.streams (cfg : FetchCfg) : ℕ := max cfg.queues.length 1

/-- The free slots a read waits for. -/
def FetchCfg.minPermits (cfg : FetchCfg) : ℕ := min cfg.streams (max cfg.ioConcurrency 1)

/-- The `COUNT` of a read, per stream. -/
def FetchCfg.perStream (cfg : FetchCfg) (permits : ℕ) : ℕ :=
  max (min cfg.batch permits / cfg.streams) 1

/-- The most entries the recovery loop takes at a time. -/
def RECOVERY_SCAN_BATCH : ℕ := 128

/-- The loop that spawned a dispatch. -/
inductive Origin
  | fetch
  | recovery
  deriving DecidableEq

/-- A dispatch of an entry. -/
structure Spawned where
  origin : Origin
  queue : String
  streamId : StreamId
  deriving DecidableEq

/-- The callers of the semaphore. -/
inductive SlotUser
  | fetchGate
  | recoveryGate
  | dispatch (d : Spawned)
  deriving DecidableEq

/-- Where the fetch loop is: `reading` between the reading of the permits and the reply. -/
inductive FetchPhase
  | top
  | gate
  | reading (count : ℕ)
  | dispatching (rest : List (String × StreamId))
  deriving DecidableEq

/-- Where the recovery loop is: `page` with what its page has room for. -/
inductive RecoveryPhase
  | idle
  | gate
  | page (room : ℕ)

/-- The state of the slots. `unslotted` are dispatches that were spawned without one and have not
asked for it yet. -/
structure IoSlots where
  sem : Sem SlotUser
  unslotted : List Spawned := []
  fetch : FetchPhase := .top
  recovery : RecoveryPhase := .idle

/-- The steps. -/
inductive SlotLabel
  /-- The top of the fetch loop, with the `cpu_backlog` it reads. -/
  | fetchTop (backlog : ℕ)
  | fetchWake
  /-- The reply of the read: entries by queue. -/
  | fetchReply (reply : List (String × List StreamId))
  /-- No entries in time, or an error. -/
  | fetchNothing
  | fetchSpawn
  | fetchDone
  /-- A dispatch without a slot is polled for the first time. -/
  | ask (d : Spawned)
  /-- A task completes, or is handed to the cpu pool: its slot is dropped. -/
  | free (d : Spawned)
  | recoveryTop (backlog : ℕ)
  | recoveryWake
  | recoverySpawn (queue : String) (streamId : StreamId)
  | recoveryDone

/-- `gate_wait`: with permits free the loop waits for the cpu pool, else for permits. -/
def gateWait (sem : Sem SlotUser) (who : SlotUser) (want free : ℕ) : Sem SlotUser :=
  if max want 1 ≤ free then sem else sem.acquire who (min (max want 1) (2 ^ 32 - 1))

/-- The end of `gate_wait`: the permits were only a signal, and a wait that timed out is given up. -/
def gateLeave (sem : Sem SlotUser) (who : SlotUser) : Sem SlotUser :=
  (sem.release who).getD ((sem.cancel who).getD sem)

/-- `spawn_dispatch`: the slot is taken before the spawn. -/
def spawnDispatch (d : Spawned) (s : IoSlots) : IoSlots :=
  match s.sem.tryAcquire (.dispatch d) with
  | some sem => { s with sem := sem }
  | none => { s with unslotted := s.unslotted ++ [d] }

/-- A reply names each requested stream at most once, with at most `COUNT` entries each. -/
def replyFits (cfg : FetchCfg) (count : ℕ) (reply : List (String × List StreamId)) : Bool :=
  decide ((reply.map (·.1)).Sublist cfg.queues) && reply.all fun sk => decide (sk.2.length ≤ count)

/-- The entries of a reply, in the order they are dispatched. -/
def replyEntries (reply : List (String × List StreamId)) : List (String × StreamId) :=
  reply.flatMap fun sk => sk.2.map fun sid => (sk.1, sid)

/-- One step. -/
def slotStep (cfg : FetchCfg) (s : IoSlots) : SlotLabel → Option IoSlots
  | .fetchTop backlog =>
    match s.fetch with
    | .top =>
      let permits := s.sem.available
      if permits < cfg.minPermits ∨ 0 < backlog then
        some { s with sem := gateWait s.sem .fetchGate cfg.minPermits permits, fetch := .gate }
      else some { s with fetch := .reading (cfg.perStream permits) }
    | _ => none
  | .fetchWake =>
    match s.fetch with
    | .gate => some { s with sem := gateLeave s.sem .fetchGate, fetch := .top }
    | _ => none
  | .fetchReply reply =>
    match s.fetch with
    | .reading count =>
      if replyFits cfg count reply then some { s with fetch := .dispatching (replyEntries reply) }
      else none
    | _ => none
  | .fetchNothing =>
    match s.fetch with
    | .reading _ => some { s with fetch := .top }
    | _ => none
  | .fetchSpawn =>
    match s.fetch with
    | .dispatching (e :: rest) =>
      some { spawnDispatch ⟨.fetch, e.1, e.2⟩ s with fetch := .dispatching rest }
    | _ => none
  | .fetchDone =>
    match s.fetch with
    | .dispatching [] => some { s with fetch := .top }
    | _ => none
  | .ask d =>
    if d ∈ s.unslotted then
      some { s with sem := s.sem.acquire (.dispatch d) 1, unslotted := s.unslotted.erase d }
    else none
  | .free d => (s.sem.release (.dispatch d)).map fun sem => { s with sem := sem }
  | .recoveryTop backlog =>
    match s.recovery with
    | .idle =>
      let permits := s.sem.available
      if 0 < permits ∧ backlog = 0 then
        some { s with recovery := .page (min permits RECOVERY_SCAN_BATCH) }
      else some { s with sem := gateWait s.sem .recoveryGate 1 permits, recovery := .gate }
    | _ => none
  | .recoveryWake =>
    match s.recovery with
    | .gate => some { s with sem := gateLeave s.sem .recoveryGate, recovery := .idle }
    | _ => none
  | .recoverySpawn queue streamId =>
    match s.recovery with
    | .page (room + 1) =>
      some { spawnDispatch ⟨.recovery, queue, streamId⟩ s with recovery := .page room }
    | _ => none
  | .recoveryDone =>
    match s.recovery with
    | .page _ => some { s with recovery := .idle }
    | _ => none

/-- The runs, from a semaphore with every permit free. -/
def slotSystem (cfg : FetchCfg) : Transition.System IoSlots SlotLabel where
  init s := s = { sem := { available := cfg.ioConcurrency } }
  step := slotStep cfg

/-! ### What fits -/

/-- **A full page of every stream fits** in the free slots, when the gate is not smaller than the
number of streams. -/
theorem perStream_mul_le {cfg : FetchCfg} (hqueues : cfg.queues.length ≤ cfg.ioConcurrency)
    {permits : ℕ} (hpermits : cfg.minPermits ≤ permits) :
    cfg.perStream permits * cfg.queues.length ≤ permits := by
  have hstreams : cfg.streams ≤ permits := by
    have hmin : cfg.minPermits = cfg.streams := min_eq_left (max_le_max hqueues le_rfl)
    rwa [hmin] at hpermits
  have hdiv : min cfg.batch permits / cfg.streams * cfg.streams ≤ permits :=
    (Nat.div_mul_le_self _ _).trans (min_le_right _ _)
  calc cfg.perStream permits * cfg.queues.length
      ≤ cfg.perStream permits * cfg.streams := Nat.mul_le_mul_left _ (le_max_left _ _)
    _ ≤ permits := by
      rcases max_choice (min cfg.batch permits / cfg.streams) 1 with h | h
      · rw [FetchCfg.perStream, h]
        exact hdiv
      · rw [FetchCfg.perStream, h, Nat.one_mul]
        exact hstreams

theorem replyEntries_length_le {cfg : FetchCfg} {count : ℕ} {reply : List (String × List StreamId)}
    (h : replyFits cfg count reply = true) :
    (replyEntries reply).length ≤ count * cfg.queues.length := by
  simp only [replyFits, Bool.and_eq_true, decide_eq_true_eq, List.all_eq_true] at h
  obtain ⟨hsub, hcount⟩ := h
  have hsum : (replyEntries reply).length ≤ count * reply.length := by
    clear hsub
    induction reply with
    | nil => exact Nat.zero_le _
    | cons sk reply ih =>
      have hhead := hcount sk List.mem_cons_self
      have htail := ih fun sk' hsk' => hcount sk' (List.mem_cons_of_mem _ hsk')
      have hlen : (replyEntries (sk :: reply)).length = sk.2.length + (replyEntries reply).length := by
        simp [replyEntries]
      rw [hlen, List.length_cons, Nat.mul_succ]
      omega
  have hlen := hsub.length_le
  rw [List.length_map] at hlen
  exact hsum.trans (Nat.mul_le_mul_left _ hlen)

/-! ### The invariant -/

/-- The fetch loop is between its reading of the permits and the last spawn of the reply. -/
def inWindow (s : IoSlots) : Bool :=
  match s.fetch with
  | .reading _ | .dispatching _ => true
  | .top | .gate => false

/-- In between, slots are only freed: the recovery loop neither dispatches nor waits at its gate, and
no dispatch of its asks for a slot. -/
def quiet (s : IoSlots) (l : SlotLabel) : Bool :=
  match l with
  | .ask _ | .recoveryTop _ | .recoveryWake | .recoverySpawn _ _ | .recoveryDone => !inWindow s
  | _ => true

/-- In between, the recovery loop is idle: it neither dispatches nor waits at its gate. A dispatch that
it spawned before may still ask for a slot. -/
def recoveryIdle (s : IoSlots) (l : SlotLabel) : Bool :=
  match s.recovery, l with
  | .idle, .recoveryTop _ => !inWindow s
  | .idle, _ => true
  | .gate, _ | .page _, _ => !inWindow s

/-- What the fetch loop is about to dispatch fits. -/
structure Room (cfg : FetchCfg) (s : IoSlots) : Prop where
  reading : ∀ count, s.fetch = .reading count → count * cfg.queues.length ≤ s.sem.available
  dispatching : ∀ rest, s.fetch = .dispatching rest → rest.length ≤ s.sem.available

/-- Only dispatches of the recovery loop are without a slot. -/
structure Started (s : IoSlots) : Prop where
  unslotted : ∀ d ∈ s.unslotted, d.origin = .recovery
  queue : ∀ w ∈ s.sem.queue, ∀ d, w.who = .dispatch d → d.origin = .recovery

theorem room_of_not_inWindow {cfg : FetchCfg} {s : IoSlots} (h : inWindow s = false) : Room cfg s := by
  unfold inWindow at h
  constructor
  · intro count hfetch
    rw [hfetch] at h
    cases h
  · intro rest hfetch
    rw [hfetch] at h
    cases h

/-- IoSlots that come back leave the room there was. -/
theorem Room.mono {cfg : FetchCfg} {s s' : IoSlots} (h : Room cfg s) (hfetch : s'.fetch = s.fetch)
    (hle : s.sem.available ≤ s'.sem.available) : Room cfg s' :=
  ⟨fun count hc => (h.reading count (hfetch ▸ hc)).trans hle,
    fun rest hr => (h.dispatching rest (hfetch ▸ hr)).trans hle⟩

theorem Started.gateWait {s : IoSlots} (h : Started s) (who : SlotUser)
    (hwho : ∀ d, who ≠ .dispatch d) (want free : ℕ) :
    ∀ w ∈ (gateWait s.sem who want free).queue, ∀ d, w.who = .dispatch d → d.origin = .recovery := by
  unfold Cauli.gateWait
  split_ifs
  · exact h.queue
  · intro w hw d hd
    rcases Sem.acquire_queue_who _ _ _ w hw with hnew | hold
    · exact absurd (hnew.symm.trans hd) (hwho d)
    · exact h.queue w hold d hd

theorem Started.gateLeave {s : IoSlots} (h : Started s) (who : SlotUser) :
    ∀ w ∈ (gateLeave s.sem who).queue, ∀ d, w.who = .dispatch d → d.origin = .recovery := by
  have hsub : ∀ w ∈ (Cauli.gateLeave s.sem who).queue, ∃ w₀ ∈ s.sem.queue, w.who = w₀.who := by
    unfold Cauli.gateLeave
    cases hrelease : s.sem.release who with
    | some sem => exact Sem.release_queue_who hrelease
    | none =>
      cases hcancel : s.sem.cancel who with
      | some sem => exact Sem.cancel_queue_who hcancel
      | none => exact fun w hw => ⟨w, hw, rfl⟩
  intro w hw d hd
  obtain ⟨w₀, hw₀, heq⟩ := hsub w hw
  exact h.queue w₀ hw₀ d (heq.symm.trans hd)

theorem spawnDispatch_of_pos {d : Spawned} {s : IoSlots} (h : 0 < s.sem.available) :
    spawnDispatch d s = { s with sem :=
      { s.sem with available := s.sem.available - 1, held := (.dispatch d, 1) :: s.sem.held } } := by
  unfold spawnDispatch Sem.tryAcquire
  rw [if_pos h]

theorem spawnDispatch_fetch (d : Spawned) (s : IoSlots) : (spawnDispatch d s).fetch = s.fetch := by
  unfold spawnDispatch
  split <;> rfl

/-- A spawn of the recovery loop may come without a slot. -/
theorem Started.spawnDispatch {s : IoSlots} (h : Started s) {d : Spawned} (hd : d.origin = .recovery) :
    Started (spawnDispatch d s) := by
  by_cases hpos : 0 < s.sem.available
  · rw [spawnDispatch_of_pos hpos]
    exact ⟨h.unslotted, h.queue⟩
  · have hnone : s.sem.tryAcquire (.dispatch d) = none := if_neg hpos
    unfold Cauli.spawnDispatch
    rw [hnone]
    refine ⟨fun d' hd' => ?_, h.queue⟩
    rcases List.mem_append.1 hd' with hd' | hd'
    · exact h.unslotted d' hd'
    · rw [List.mem_singleton.1 hd', hd]

/-- The two together. -/
structure IoSlotsOk (cfg : FetchCfg) (s : IoSlots) : Prop where
  room : Room cfg s
  started : Started s

/-- The reading of the permits decides a count that fits. -/
theorem IoSlotsOk.fetchTop {cfg : FetchCfg} (hqueues : cfg.queues.length ≤ cfg.ioConcurrency)
    {s s' : IoSlots} {backlog : ℕ} (h : IoSlotsOk cfg s)
    (hstep : slotStep cfg s (.fetchTop backlog) = some s') : IoSlotsOk cfg s' := by
  simp only [slotStep] at hstep
  split at hstep
  · split_ifs at hstep with hgate
    · cases hstep
      have hqueue := h.started.gateWait .fetchGate (fun d => SlotUser.noConfusion)
        cfg.minPermits s.sem.available
      exact ⟨room_of_not_inWindow rfl, h.started.unslotted, hqueue⟩
    · cases hstep
      have hpermits : cfg.minPermits ≤ s.sem.available := by
        by_contra hlt
        exact hgate (.inl (not_le.1 hlt))
      refine ⟨⟨?_, nofun⟩, h.started.unslotted, h.started.queue⟩
      rintro count ⟨⟩
      exact perStream_mul_le hqueues hpermits
  · cases hstep

theorem IoSlotsOk.fetchReply {cfg : FetchCfg} {s s' : IoSlots} {reply : List (String × List StreamId)}
    (h : IoSlotsOk cfg s) (hstep : slotStep cfg s (.fetchReply reply) = some s') :
    IoSlotsOk cfg s' := by
  simp only [slotStep] at hstep
  split at hstep
  · next count hfetch =>
    split_ifs at hstep with hfits
    cases hstep
    refine ⟨⟨nofun, ?_⟩, h.started.unslotted, h.started.queue⟩
    rintro rest ⟨⟩
    exact (replyEntries_length_le hfits).trans (h.room.reading count hfetch)
  · cases hstep

/-- A spawn of the fetch loop takes a slot of those there is room for. -/
theorem IoSlotsOk.fetchSpawn {cfg : FetchCfg} {s s' : IoSlots} (h : IoSlotsOk cfg s)
    (hstep : slotStep cfg s .fetchSpawn = some s') : IoSlotsOk cfg s' := by
  simp only [slotStep] at hstep
  split at hstep
  · next e rest hfetch =>
    cases hstep
    have hlen : rest.length + 1 ≤ s.sem.available := h.room.dispatching _ hfetch
    rw [spawnDispatch_of_pos (by omega)]
    refine ⟨⟨nofun, ?_⟩, h.started.unslotted, h.started.queue⟩
    rintro rest' ⟨⟩
    exact Nat.le_sub_of_add_le hlen
  · cases hstep

theorem IoSlotsOk.free {cfg : FetchCfg} {s s' : IoSlots} {d : Spawned} (h : IoSlotsOk cfg s)
    (hstep : slotStep cfg s (.free d) = some s') : IoSlotsOk cfg s' := by
  obtain ⟨sem, hrelease, rfl⟩ := Option.map_eq_some_iff.1 hstep
  refine ⟨h.room.mono rfl (Sem.available_le_release hrelease), h.started.unslotted, ?_⟩
  intro w hw d' hd'
  obtain ⟨w₀, hw₀, heq⟩ := Sem.release_queue_who hrelease w hw
  exact h.started.queue w₀ hw₀ d' (heq.symm.trans hd')

/-- Outside the window everything else may happen. -/
theorem IoSlotsOk.other {cfg : FetchCfg} {s s' : IoSlots} {l : SlotLabel} (h : IoSlotsOk cfg s)
    (hwindow : inWindow s = false)
    (hl : (∃ d, l = .ask d) ∨ (∃ b, l = .recoveryTop b) ∨ l = .recoveryWake ∨
      (∃ q i, l = .recoverySpawn q i) ∨ l = .recoveryDone)
    (hstep : slotStep cfg s l = some s') : IoSlotsOk cfg s' := by
  have hroom : ∀ {s₁ : IoSlots}, s₁.fetch = s.fetch → Room cfg s₁ := fun hfetch =>
    room_of_not_inWindow (by rw [← hwindow]; unfold inWindow; rw [hfetch])
  rcases hl with ⟨d, rfl⟩ | ⟨backlog, rfl⟩ | rfl | ⟨queue, streamId, rfl⟩ | rfl
  · simp only [slotStep] at hstep
    split_ifs at hstep with hd
    cases hstep
    refine ⟨hroom rfl, fun d' hd' => ?_, fun w hw d' hd' => ?_⟩
    · exact h.started.unslotted d' (List.mem_of_mem_erase hd')
    · rcases Sem.acquire_queue_who _ _ _ w hw with hnew | hold
      · cases hnew.symm.trans hd'
        exact h.started.unslotted d hd
      · exact h.started.queue w hold d' hd'
  · simp only [slotStep] at hstep
    split at hstep
    · split_ifs at hstep
      · cases hstep
        exact ⟨hroom rfl, h.started.unslotted, h.started.queue⟩
      · cases hstep
        have hqueue := h.started.gateWait .recoveryGate (fun d => SlotUser.noConfusion)
          1 s.sem.available
        exact ⟨hroom rfl, h.started.unslotted, hqueue⟩
    · cases hstep
  · simp only [slotStep] at hstep
    split at hstep
    · cases hstep
      exact ⟨hroom rfl, h.started.unslotted, h.started.gateLeave _⟩
    · cases hstep
  · simp only [slotStep] at hstep
    split at hstep
    · cases hstep
      obtain ⟨hunslotted, hqueue⟩ := h.started.spawnDispatch (d := ⟨.recovery, queue, streamId⟩) rfl
      exact ⟨hroom (spawnDispatch_fetch _ _), hunslotted, hqueue⟩
    · cases hstep
  · simp only [slotStep] at hstep
    split at hstep
    · cases hstep
      exact ⟨hroom rfl, h.started.unslotted, h.started.queue⟩
    · cases hstep

theorem IoSlotsOk.step {cfg : FetchCfg} (hqueues : cfg.queues.length ≤ cfg.ioConcurrency)
    {s s' : IoSlots} {l : SlotLabel} (h : IoSlotsOk cfg s) (hquiet : quiet s l = true)
    (hstep : slotStep cfg s l = some s') : IoSlotsOk cfg s' := by
  cases l with
  | fetchTop b => exact h.fetchTop hqueues hstep
  | fetchWake =>
    simp only [slotStep] at hstep
    split at hstep
    · cases hstep
      exact ⟨room_of_not_inWindow rfl, h.started.unslotted, h.started.gateLeave _⟩
    · cases hstep
  | fetchReply r => exact h.fetchReply hstep
  | fetchNothing =>
    simp only [slotStep] at hstep
    split at hstep
    · cases hstep
      exact ⟨room_of_not_inWindow rfl, h.started.unslotted, h.started.queue⟩
    · cases hstep
  | fetchSpawn => exact h.fetchSpawn hstep
  | fetchDone =>
    simp only [slotStep] at hstep
    split at hstep
    · cases hstep
      exact ⟨room_of_not_inWindow rfl, h.started.unslotted, h.started.queue⟩
    · cases hstep
  | free d => exact h.free hstep
  | ask d => exact h.other (by simpa [quiet] using hquiet) (.inl ⟨d, rfl⟩) hstep
  | recoveryTop b => exact h.other (by simpa [quiet] using hquiet) (.inr (.inl ⟨b, rfl⟩)) hstep
  | recoveryWake => exact h.other (by simpa [quiet] using hquiet) (.inr (.inr (.inl rfl))) hstep
  | recoverySpawn q i =>
    exact h.other (by simpa [quiet] using hquiet) (.inr (.inr (.inr (.inl ⟨q, i, rfl⟩)))) hstep
  | recoveryDone =>
    exact h.other (by simpa [quiet] using hquiet) (.inr (.inr (.inr (.inr rfl)))) hstep

theorem ioSlotsOk_of_reachable {cfg : FetchCfg} (hqueues : cfg.queues.length ≤ cfg.ioConcurrency)
    {s : IoSlots} (h : (slotSystem cfg).Reachable (fun s l => quiet s l = true) s) :
    IoSlotsOk cfg s := by
  refine h.invariant ?_ fun s l s' hs hquiet hstep => hs.step hqueues hquiet hstep
  rintro s rfl
  exact ⟨room_of_not_inWindow rfl, nofun, nofun⟩

/-- **A fetch takes no more than can start.** With no more queues than io slots, in every run in which
slots are only freed between the reading of the permits and the last spawn of the reply: what is left
of a reply fits in the free slots, every spawn of it takes its slot from the semaphore, and no dispatch
of the fetch loop ever waits for one. -/
theorem fetched_entries_start {cfg : FetchCfg} (hqueues : cfg.queues.length ≤ cfg.ioConcurrency)
    {s : IoSlots} (h : (slotSystem cfg).Reachable (fun s l => quiet s l = true) s) :
    (∀ reply s', slotStep cfg s (.fetchReply reply) = some s' →
      (replyEntries reply).length ≤ s.sem.available) ∧
    (∀ rest, s.fetch = .dispatching rest → rest.length ≤ s.sem.available) ∧
    (∀ e rest, s.fetch = .dispatching (e :: rest) →
      ∃ sem s', s.sem.tryAcquire (.dispatch ⟨.fetch, e.1, e.2⟩) = some sem ∧
        slotStep cfg s .fetchSpawn = some s' ∧ s'.sem = sem ∧ s'.fetch = .dispatching rest) ∧
    (∀ d ∈ s.unslotted, d.origin ≠ .fetch) ∧
    ∀ w ∈ s.sem.queue, ∀ d, w.who = .dispatch d → d.origin ≠ .fetch := by
  have hok := ioSlotsOk_of_reachable hqueues h
  refine ⟨fun reply s' hstep => ?_, hok.room.dispatching, fun e rest hfetch => ?_,
    fun d hd => ?_, fun w hw d hd => ?_⟩
  · simp only [slotStep] at hstep
    split at hstep
    · next count hfetch =>
      split_ifs at hstep with hfits
      exact (replyEntries_length_le hfits).trans (hok.room.reading count hfetch)
    · cases hstep
  · have hpos : 0 < s.sem.available :=
      Nat.lt_of_lt_of_le (Nat.succ_pos _) (hok.room.dispatching _ hfetch)
    refine ⟨_, { spawnDispatch ⟨.fetch, e.1, e.2⟩ s with fetch := .dispatching rest }, if_pos hpos,
      ?_, ?_, rfl⟩
    · simp only [slotStep, hfetch]
    · rw [spawnDispatch_of_pos hpos]
  · rw [hok.started.unslotted d hd]
    exact nofun
  · rw [hok.started.queue w hw d hd]
    exact nofun

/-- Two queues share three slots, of which one is freed while the read waits. -/
theorem fetched_entries_start_of_two :
    let cfg : FetchCfg := ⟨["a", "b"], 3, 64⟩
    let i : StreamId := ⟨1, 0, by decide, by decide⟩
    let s₀ : IoSlots := { sem := { available := 3 } }
    let s := ((slotSystem cfg).runIf quiet s₀ [.recoveryTop 0, .recoverySpawn "a" i, .recoveryDone,
      .fetchTop 0, .free ⟨.recovery, "a", i⟩, .fetchReply [("b", [i])]]).getD s₀
    s.sem.available = 3 ∧
      ∃ sem, s.sem.tryAcquire (.dispatch ⟨.fetch, "b", i⟩) = some sem ∧ sem.available = 2 := by
  intro cfg i s₀ s
  have hs : (slotSystem cfg).Reachable (fun s l => quiet s l = true) s :=
    Transition.System.reachable_runIf rfl (by decide +kernel)
  have hfetch : s.fetch = .dispatching [("b", i)] := by decide +kernel
  obtain ⟨sem, s', hsem, -, -, -⟩ := (fetched_entries_start (by decide) hs).2.2.1 _ _ hfetch
  refine ⟨by decide +kernel, sem, hsem, ?_⟩
  rw [(Sem.tryAcquire_eq_some hsem).2]
  decide +kernel

/-- Two queues, two slots. The fetch loop waits at its gate for both and has taken the free one when the
recovery loop spawns, so this dispatch comes without a slot. It asks after the fetch loop has read two
free slots. -/
def lateAsk (i j k l : StreamId) : List SlotLabel :=
  [.recoveryTop 0, .recoverySpawn "a" i, .recoveryDone,
    .recoveryTop 0, .fetchTop 0, .recoverySpawn "a" j, .recoveryDone,
    .free ⟨.recovery, "a", i⟩, .fetchWake,
    .fetchTop 0, .ask ⟨.recovery, "a", j⟩, .fetchReply [("a", [k]), ("b", [l])],
    .fetchSpawn, .fetchSpawn, .ask ⟨.fetch, "b", l⟩]

/-- **An idle recovery loop is not enough**: a dispatch it spawned without a slot asks for one between
the reading of the permits and the reply, and a fetched entry parks on the semaphore. -/
theorem fetched_entry_parks :
    ∃ s, (slotSystem ⟨["a", "b"], 2, 64⟩).Reachable (fun s l => recoveryIdle s l = true) s ∧
      ∃ w ∈ s.sem.queue, ∃ d, w.who = .dispatch d ∧ d.origin = .fetch := by
  let s₀ : IoSlots := { sem := { available := 2 } }
  let id (k : ℕ) (h : k < 2 ^ 64) : StreamId := ⟨k, 0, h, by decide⟩
  let run := lateAsk (id 1 (by decide)) (id 2 (by decide)) (id 3 (by decide)) (id 4 (by decide))
  let s := ((slotSystem ⟨["a", "b"], 2, 64⟩).runIf recoveryIdle s₀ run).getD s₀
  have hreach : (slotSystem ⟨["a", "b"], 2, 64⟩).Reachable (fun s l => recoveryIdle s l = true) s :=
    Transition.System.reachable_runIf rfl (by decide +kernel)
  have hqueue : s.sem.queue = [⟨.dispatch ⟨.fetch, "b", id 4 (by decide)⟩, 1, 0⟩] := by
    decide +kernel
  exact ⟨s, hreach, _, hqueue ▸ List.mem_singleton_self _, _, rfl, rfl⟩

end Cauli
