import Cauli.Lib.Consumers
import Cauli.Lib.Saturating
import Cauli.Lib.Transition

/-!
# Reaping stale consumers (`worker/src/loops.rs`)

Every start of a process mints a new consumer, and Redis never deletes the old ones, so the recovery
loop does. It reads `XINFO CONSUMERS` once per queue and then deletes, one command at a time, what it
found reapable in that reply; in between, the other workers read and claim.

* `consumerIsReapable`, `reapable`: the rule, applied to the reply;
* `Reaper`: where one worker's `reap_stale_consumers` is;
* `reapSystem`: any number of workers on any number of queues. Who reads, claims and acknowledges what
  is part of the label.
-/

namespace Cauli

open GroupStream

/-- What one worker reaps with. -/
structure ReapCfg where
  queues : List String
  consumer : ℕ
  vtMs : ℕ

/-- A paused fetch loop must not look stale. -/
def CONSUMER_REAP_MIN_IDLE_MS : ℕ := 10 * 60 * 1000

/-- The idle time from which a consumer is stale. -/
def consumerReapIdleMs (vtMs : ℕ) : ℕ := max (U64.satMul vtMs 4) CONSUMER_REAP_MIN_IDLE_MS

/-- `consumer_is_reapable`. -/
def consumerIsReapable (c : ConsumerInfo) (selfName minIdleMs : ℕ) : Bool :=
  c.pending == 0 && c.name != selfName && decide (minIdleMs ≤ c.idle)

/-- The consumers that are deleted after a reply of `XINFO CONSUMERS`. -/
def reapable (cfg : ReapCfg) (info : List ConsumerInfo) : List ℕ :=
  (info.filter fun c => consumerIsReapable c cfg.consumer (consumerReapIdleMs cfg.vtMs)).map (·.name)

/-- Where a worker's `reap_stale_consumers` is. -/
inductive Reaper
  | resting
  /-- The queues that are left, the next one not read yet. -/
  | scanning (left : List String)
  /-- The consumers of a queue that are left to delete. -/
  | deleting (queue : String) (todo : List ℕ) (left : List String)
  deriving DecidableEq

/-- The groups of the queues, and the reapers of the workers. -/
structure Fleet (α : Type) where
  now : ℕ
  groups : String → ConsumerGroup α
  reapers : List Reaper

/-- The steps. -/
inductive ReapLabel (α : Type)
  | clock (now : ℕ)
  | add (queue : String) (id : StreamId) (v : α)
  | read (queue : String) (consumer count : ℕ)
  | claim (queue : String) (consumer minIdle : ℕ) (id : StreamId)
  | ack (queue : String) (ids : List StreamId)
  /-- `XDEL`, or a trim. -/
  | del (queue : String) (ids : List StreamId)
  | reapStart (w : ℕ)
  | reapInfo (w : ℕ)
  /-- `XINFO CONSUMERS` failed: this queue is not reaped. -/
  | reapSkip (w : ℕ)
  | reapDelete (w : ℕ)
  /-- `XGROUP DELCONSUMER` failed. -/
  | reapFail (w : ℕ)
  | reapNext (w : ℕ)
  /-- All queues are done, or the process is gone. -/
  | reapStop (w : ℕ)

variable {α : Type}

/-- The group of a queue changes. -/
def Fleet.setGroup (s : Fleet α) (queue : String) (g : ConsumerGroup α) : Fleet α :=
  { s with groups := fun q => if q = queue then g else s.groups q }

/-- The reaper of a worker moves. -/
def Fleet.setReaper (s : Fleet α) (w : ℕ) (r : Reaper) : Fleet α :=
  { s with reapers := s.reapers.set w r }

/-- One step. -/
def reapStep (workers : List ReapCfg) (s : Fleet α) : ReapLabel α → Option (Fleet α)
  | .clock now => if s.now ≤ now then some { s with now := now } else none
  | .add queue id v => ((s.groups queue).xadd id v).map (s.setGroup queue)
  | .read queue consumer count =>
    some (s.setGroup queue ((s.groups queue).xreadgroup consumer s.now count))
  | .claim queue consumer minIdle id =>
    some (s.setGroup queue ((s.groups queue).xclaim consumer s.now minIdle id))
  | .ack queue ids => some (s.setGroup queue ((s.groups queue).xack ids))
  | .del queue ids => some (s.setGroup queue ((s.groups queue).xdel ids))
  | .reapStart w =>
    match s.reapers[w]?, workers[w]? with
    | some .resting, some cfg => some (s.setReaper w (.scanning cfg.queues))
    | _, _ => none
  | .reapInfo w =>
    match s.reapers[w]?, workers[w]? with
    | some (.scanning (queue :: left)), some cfg =>
      let info := (s.groups queue).xinfoConsumers s.now
      some (s.setReaper w (.deleting queue (reapable cfg info) left))
    | _, _ => none
  | .reapSkip w =>
    match s.reapers[w]? with
    | some (.scanning (_ :: left)) => some (s.setReaper w (.scanning left))
    | _ => none
  | .reapDelete w =>
    match s.reapers[w]? with
    | some (.deleting queue (c :: todo) left) =>
      some ((s.setGroup queue ((s.groups queue).delConsumer c).1).setReaper w
        (.deleting queue todo left))
    | _ => none
  | .reapFail w =>
    match s.reapers[w]? with
    | some (.deleting queue (_ :: todo) left) => some (s.setReaper w (.deleting queue todo left))
    | _ => none
  | .reapNext w =>
    match s.reapers[w]? with
    | some (.deleting _ [] left) => some (s.setReaper w (.scanning left))
    | _ => none
  | .reapStop w => some (s.setReaper w .resting)

/-- The runs, from any groups, with every reaper at rest. -/
def reapSystem (α : Type) (workers : List ReapCfg) : Transition.System (Fleet α) (ReapLabel α) where
  init s := s.reapers = workers.map fun _ => .resting
  step := reapStep workers

/-! ### Consumers that are about to be deleted -/

/-- The reaper has read the consumer as reapable and not deleted it yet. -/
def Reaper.marks (queue : String) (c : ℕ) : Reaper → Bool
  | .deleting queue' todo _ => decide (queue' = queue) && decide (c ∈ todo)
  | _ => false

/-- Some reaper has. -/
def Fleet.marked (s : Fleet α) (queue : String) (c : ℕ) : Bool := s.reapers.any (·.marks queue c)

/-- The step hands no entry to a consumer that is about to be deleted. -/
def undisturbed (s : Fleet α) : ReapLabel α → Bool
  | .read queue consumer count =>
    !s.marked queue consumer || ((s.groups queue).stream.fresh count).isEmpty
  | .claim queue consumer minIdle id =>
    !s.marked queue consumer || ((s.groups queue).stream.xclaim consumer s.now minIdle id).2.isNone
  | _ => true

/-! ### The invariant -/

/-- No consumer that is about to be deleted owns pending entries. -/
def Harmless (s : Fleet α) : Prop :=
  ∀ queue c, s.marked queue c = true → ¬ (s.groups queue).stream.Owns c

theorem marked_of_getElem? {s : Fleet α} {w : ℕ} {r : Reaper} {queue : String} {c : ℕ}
    (hr : s.reapers[w]? = some r) (hmarks : r.marks queue c = true) : s.marked queue c = true :=
  List.any_eq_true.2 ⟨r, List.mem_of_getElem? hr, hmarks⟩

/-- Groups may change as long as no marked consumer comes to own something. -/
theorem Harmless.setGroup {s : Fleet α} (h : Harmless s) {queue : String} {g : ConsumerGroup α}
    (hg : ∀ c, s.marked queue c = true → g.stream.Owns c → (s.groups queue).stream.Owns c) :
    Harmless (s.setGroup queue g) := by
  intro q c hmarked howns
  have hmarked' : s.marked q c = true := hmarked
  by_cases hq : q = queue
  · subst hq
    rw [show (s.setGroup q g).groups q = g from if_pos rfl] at howns
    exact h q c hmarked' (hg c hmarked' howns)
  · rw [show (s.setGroup queue g).groups q = s.groups q from if_neg hq] at howns
    exact h q c hmarked' howns

/-- A reaper may move as long as what it marks owns nothing. -/
theorem Harmless.setReaper {s : Fleet α} (h : Harmless s) (w : ℕ) {r : Reaper}
    (hr : ∀ queue c, r.marks queue c = true → ¬ (s.groups queue).stream.Owns c) :
    Harmless (s.setReaper w r) := by
  intro queue c hmarked
  obtain ⟨r', hr', hmarks⟩ := List.any_eq_true.1 hmarked
  rcases List.mem_or_eq_of_mem_set hr' with hold | rfl
  · exact h queue c (List.any_eq_true.2 ⟨r', hold, hmarks⟩)
  · exact hr queue c hmarks

theorem pending_of_isReapable {c : ConsumerInfo} {selfName minIdleMs : ℕ}
    (h : consumerIsReapable c selfName minIdleMs = true) : c.pending = 0 := by
  simp only [consumerIsReapable, Bool.and_eq_true, beq_iff_eq] at h
  exact h.1.1

theorem mem_reapable {cfg : ReapCfg} {info : List ConsumerInfo} {c : ℕ} :
    c ∈ reapable cfg info ↔ ∃ i ∈ info,
      consumerIsReapable i cfg.consumer (consumerReapIdleMs cfg.vtMs) = true ∧ i.name = c := by
  simp only [reapable, List.mem_map, List.mem_filter, and_assoc]

/-- What a reply of `XINFO CONSUMERS` shows as reapable owns nothing at that moment. -/
theorem not_owns_of_reapable {cfg : ReapCfg} {g : ConsumerGroup α} {now c : ℕ}
    (h : c ∈ reapable cfg (g.xinfoConsumers now)) : ¬ g.stream.Owns c := by
  obtain ⟨info, hmem, hreap, hname⟩ := mem_reapable.1 h
  have hpending := pending_of_isReapable hreap
  obtain ⟨i, -, hi⟩ := List.mem_map.1 hmem
  rw [← hi] at hpending hname
  rw [← hname]
  exact Stream.owned_eq_nil_iff.1 (List.length_eq_zero_iff.1 hpending)

theorem marks_deleting {queue queue' : String} {c : ℕ} {todo : List ℕ} {left : List String} :
    (Reaper.deleting queue' todo left).marks queue c = true ↔ queue' = queue ∧ c ∈ todo := by
  simp [Reaper.marks]

/-- **A step keeps marked consumers empty**, unless it hands an entry to one of them. -/
theorem Harmless.step {workers : List ReapCfg} {s s' : Fleet α} {l : ReapLabel α} (h : Harmless s)
    (hundisturbed : undisturbed s l = true) (hstep : reapStep workers s l = some s') :
    Harmless s' := by
  cases l with
  | clock now =>
    simp only [reapStep] at hstep
    split_ifs at hstep
    cases hstep
    exact h
  | add queue id v =>
    obtain ⟨g, hg, rfl⟩ := Option.map_eq_some_iff.1 hstep
    refine h.setGroup fun c _ howns => ?_
    obtain ⟨t, -, rfl⟩ := Option.map_eq_some_iff.1 hg
    exact Stream.Owns.of_xadd t.2 howns
  | read queue consumer count =>
    cases hstep
    refine h.setGroup fun c hmarked howns => ?_
    rcases howns.of_xreadgroup with hold | ⟨rfl, hne⟩
    · exact hold
    · simp only [undisturbed, hmarked, Bool.not_true, Bool.false_or] at hundisturbed
      exact absurd (List.isEmpty_iff.1 hundisturbed) hne
  | claim queue consumer minIdle id =>
    cases hstep
    refine h.setGroup fun c hmarked howns => ?_
    rcases howns.of_xclaim with hold | ⟨rfl, hsome⟩
    · exact hold
    · simp only [undisturbed, hmarked, Bool.not_true, Bool.false_or] at hundisturbed
      rw [Option.isNone_iff_eq_none.1 hundisturbed] at hsome
      cases hsome
  | ack queue ids =>
    cases hstep
    exact h.setGroup fun c _ howns => howns.of_xack
  | del queue ids =>
    cases hstep
    exact h.setGroup fun c _ howns => howns
  | reapStart w =>
    simp only [reapStep] at hstep
    split at hstep
    · cases hstep
      exact h.setReaper w nofun
    · cases hstep
  | reapInfo w =>
    simp only [reapStep] at hstep
    split at hstep
    · cases hstep
      refine h.setReaper w fun queue c hmarks => ?_
      obtain ⟨rfl, hc⟩ := marks_deleting.1 hmarks
      exact not_owns_of_reapable hc
    · cases hstep
  | reapSkip w =>
    simp only [reapStep] at hstep
    split at hstep
    · cases hstep
      exact h.setReaper w nofun
    · cases hstep
  | reapDelete w =>
    simp only [reapStep] at hstep
    split at hstep
    · next queue c₀ todo left hr =>
      cases hstep
      have hdeleted : Harmless (s.setGroup queue ((s.groups queue).delConsumer c₀).1) :=
        h.setGroup fun c _ howns => howns.of_dropOwned.1
      refine hdeleted.setReaper w fun q c hmarks => hdeleted q c ?_
      obtain ⟨rfl, hc⟩ := marks_deleting.1 hmarks
      exact marked_of_getElem? hr (marks_deleting.2 ⟨rfl, List.mem_cons_of_mem _ hc⟩)
    · cases hstep
  | reapFail w =>
    simp only [reapStep] at hstep
    split at hstep
    · next queue c₀ todo left hr =>
      cases hstep
      refine h.setReaper w fun q c hmarks => h q c ?_
      obtain ⟨rfl, hc⟩ := marks_deleting.1 hmarks
      exact marked_of_getElem? hr (marks_deleting.2 ⟨rfl, List.mem_cons_of_mem _ hc⟩)
    · cases hstep
  | reapNext w =>
    simp only [reapStep] at hstep
    split at hstep
    · cases hstep
      exact h.setReaper w nofun
    · cases hstep
  | reapStop w =>
    cases hstep
    exact h.setReaper w nofun

theorem harmless_of_reachable {workers : List ReapCfg} {s : Fleet α}
    (h : (reapSystem α workers).Reachable (fun s l => undisturbed s l = true) s) : Harmless s := by
  refine h.invariant ?_ fun s l s' hs hundisturbed hstep => hs.step hundisturbed hstep
  intro s hinit queue c hmarked
  obtain ⟨r, hr, hmarks⟩ := List.any_eq_true.1 hmarked
  rw [show s.reapers = workers.map fun _ => .resting from hinit] at hr
  obtain ⟨cfg, -, rfl⟩ := List.mem_map.1 hr
  cases hmarks

/-- **Reaping drops no pending work** in a run in which no consumer is handed an entry between the
`XINFO CONSUMERS` that shows it as reapable and its deletion: whatever any reaper is about to delete
owns nothing at that moment, and the deletion takes no record with it. -/
theorem reaped_consumer_owns_nothing {workers : List ReapCfg} {s : Fleet α}
    (h : (reapSystem α workers).Reachable (fun s l => undisturbed s l = true) s) {w c : ℕ}
    {queue : String} {todo : List ℕ} {left : List String}
    (hnext : s.reapers[w]? = some (.deleting queue (c :: todo) left)) :
    (∀ p ∈ (s.groups queue).stream.pel, p.consumer ≠ c) ∧
      ((s.groups queue).delConsumer c).2 = 0 ∧
      ((s.groups queue).delConsumer c).1.stream.pel = (s.groups queue).stream.pel := by
  have hmarked := marked_of_getElem? hnext (marks_deleting.2 ⟨rfl, List.mem_cons_self⟩)
  have howns := harmless_of_reachable h queue c hmarked
  have hother : ∀ p ∈ (s.groups queue).stream.pel, p.consumer ≠ c :=
    fun p hp hc => howns ⟨p, hp, hc⟩
  refine ⟨hother, List.length_eq_zero_iff.2 (Stream.owned_eq_nil_iff.2 howns), ?_⟩
  exact List.filter_eq_self.2 fun p hp => by simpa using hother p hp

/-- One entry that nobody has read, and a consumer that has been silent since the start. -/
def silentGroup : ConsumerGroup Unit where
  stream := (Stream.empty.xadd ⟨1, 0, StreamId.one_lt, StreamId.zero_lt⟩ ()).getD .empty
  consumers := [⟨7, 0⟩]
  owners := nofun

/-- A worker that reaps, with the group long after. -/
def silentFleet : Fleet Unit where
  now := 600_000
  groups _ := silentGroup
  reapers := [.resting]

theorem reaped_consumer_owns_nothing_when_another_reads :
    let s := ((reapSystem Unit [⟨["q"], 1, 60_000⟩]).runIf undisturbed silentFleet
      [.reapStart 0, .reapInfo 0, .read "q" 1 10]).getD silentFleet
    s.reapers[0]? = some (.deleting "q" [7] []) ∧ ((s.groups "q").delConsumer 7).2 = 0 := by
  intro s
  have hs : (reapSystem Unit [⟨["q"], 1, 60_000⟩]).Reachable (fun s l => undisturbed s l = true) s :=
    Transition.System.reachable_runIf rfl (by decide +kernel)
  have hnext : s.reapers[0]? = some (.deleting "q" [7] []) := by decide +kernel
  exact ⟨hnext, (reaped_consumer_owns_nothing hs hnext).2.1⟩

/-- The silent consumer wakes up and reads between the reply and the deletion: its entry is in no
pending list any more, and no read will deliver it. -/
theorem reaper_drops_revived_consumer :
    ∃ s s' : Fleet Unit, (reapSystem Unit [⟨["q"], 1, 60_000⟩]).Reachable Transition.System.anyStep s ∧
      s.reapers[0]? = some (.deleting "q" [7] []) ∧ (s.groups "q").stream.Owns 7 ∧
      reapStep [⟨["q"], 1, 60_000⟩] s (.reapDelete 0) = some s' ∧
      (s'.groups "q").stream.pel = [] ∧
      (∃ e ∈ (s'.groups "q").stream.entries, (s'.groups "q").stream.Settled e.id) := by
  let M := reapSystem Unit [⟨["q"], 1, 60_000⟩]
  let l : List (ReapLabel Unit) := [.reapStart 0, .reapInfo 0, .read "q" 7 10]
  let s := (M.run silentFleet l).getD silentFleet
  let s' := (M.step s (.reapDelete 0)).getD s
  refine ⟨s, s', ?_, by decide +kernel, by decide +kernel, rfl, by decide +kernel,
    ⟨⟨1, 0, by decide, by decide⟩, ()⟩, by decide +kernel, by decide +kernel, by decide +kernel⟩
  exact Transition.System.reachable_getD rfl (fun _ _ _ => trivial) (by decide +kernel)

end Cauli
