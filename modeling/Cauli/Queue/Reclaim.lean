import Cauli.Queue.Delivery

/-!
# Reclaims past the required idle time

`recover_page` decides on a row of XPENDING and on a peeked envelope, and claims two round trips
later. The rows of a page stay true in one direction only (`RowOk`): an entry that was not delivered
again since is idle for at least as long as the row says. The XCLAIM itself checks the visibility
timeout and not the bound that was decided on.

* `PageOk`: what holds of the rows of a page until they are claimed;
* `ReclaimedInTime`: every reclaim so far came past the required idle time;
* `StillIdle`: the entry was not delivered again since the page was read, or the visibility timeout
  is the required idle time, or the claim is refused;
* `reclaimed_in_time`: in a run whose claims are all made while `StillIdle`, every reclaim is in
  time; `reclaim_of_a_running_entry` is a run with a stalled page where one is not.
-/

namespace Cauli

open GroupStream Transition

variable {Raw : Type} (C : Codec Raw)

/-- The idle time worker settings require of an entry. -/
def Settings.requiredIdleMs (S : Settings) (env : Option Envelope) : ℕ :=
  Cauli.requiredIdleMs (visibilityTimeoutMs S.visibilityTimeoutS)
    (reclaimMarginMs S.redisTimeoutS) env

/-- A row of XPENDING, some time after it was read: the entry was delivered again since, or it has
been idle for at least as long. -/
def RowOk (b : Broker Raw) (p : Pend) : Prop :=
  p.id ≤ b.stream.lastDelivered ∧ ∀ q ∈ b.stream.pel, q.id = p.id →
    p.deliveryCount < q.count ∨ (q.count = p.deliveryCount ∧ p.idle ≤ b.now - q.deliveredAt)

/-- The rows of a page, with what was peeked or decided for them. -/
def PageOk (S : Settings) (b : Broker Raw) : Page Raw → Prop
  | .idle => True
  | .peeking todo peeked => (∀ p ∈ todo, RowOk b p) ∧ ∀ x ∈ peeked, RowOk b x.1 ∧
      ∀ e ∈ b.stream.entries, e.id = x.1.id → ∀ raw, x.2 = some raw → e.value = raw
  | .claiming eligible => ∀ x ∈ eligible, RowOk b x.1 ∧
      (∀ e ∈ b.stream.entries, e.id = x.1.id → e.value.bind C.fromStr = x.2) ∧
      S.requiredIdleMs x.2 ≤ x.1.idle
  | .dispatching => True

variable {C} {S : Settings} {b b' : Broker Raw} {W W' : Worker Raw}

theorem RowOk.mono {p : Pend} (hg : Grows C b b') (h : RowOk b p) : RowOk b' p := by
  refine ⟨h.1.trans hg.evolves.delivered_le, fun q hq hid => ?_⟩
  rcases hg.evolves.pel_old q hq with ⟨r, hr, hrid, hcount⟩ | hlt
  · have hnow := hg.now_le
    rcases h.2 r hr (hrid.trans hid) with hlt | ⟨heq, hidle⟩
    · rcases hcount with rfl | hcount
      · exact Or.inl hlt
      · exact Or.inl (hlt.trans hcount)
    · rcases hcount with rfl | hcount
      · exact Or.inr ⟨heq, by omega⟩
      · exact Or.inl (heq ▸ hcount)
  · exact absurd h.1 (not_le.2 (hid ▸ hlt))

theorem PageOk.mono {pg : Page Raw} (hg : Grows C b b') (h : PageOk C S b pg) :
    PageOk C S b' pg := by
  -- an entry below the last id is an old one, so what was peeked of it stays true
  have hold : ∀ p : Pend, RowOk b p → ∀ e ∈ b'.stream.entries, e.id = p.id → e ∈ b.stream.entries :=
    fun p hp e he hid =>
      hg.evolves.entry_mem he (hid ▸ hp.1.trans b.stream.delivered_le)
  cases pg with
  | idle => trivial
  | peeking todo peeked =>
    refine ⟨fun p hp => (h.1 p hp).mono hg, fun x hx => ?_⟩
    obtain ⟨hrow, hpeek⟩ := h.2 x hx
    exact ⟨hrow.mono hg, fun e he hid => hpeek e (hold x.1 hrow e he hid) hid⟩
  | claiming eligible =>
    intro x hx
    obtain ⟨hrow, hparsed, hidle⟩ := h x hx
    exact ⟨hrow.mono hg, fun e he hid => hparsed e (hold x.1 hrow e he hid) hid, hidle⟩
  | dispatching => trivial

/-- The rows of a page are true when they are read. -/
theorem rowOk_xpendingIdle {start : Option StreamId} {count : ℕ} {p : Pend}
    (hp : p ∈ xpendingIdle S b start count) : RowOk b p := by
  obtain ⟨q, hq, rfl⟩ := List.mem_map.1 hp
  have hmem : q ∈ b.stream.pel := (List.mem_filter.1 (List.mem_of_mem_take hq)).1
  refine ⟨b.stream.pel_le q hmem, fun r hr hid => ?_⟩
  rw [Stream.pending_unique hr hmem hid]
  exact Or.inr ⟨rfl, le_rfl⟩

/-- What `recover_page` decides on. -/
theorem eligible_eq_some {inflight : List StreamId} {x : Pend × Option (Option Raw)}
    {y : Pend × Option Envelope} (h : eligible C S inflight x = some y) :
    y.1 = x.1 ∧ S.requiredIdleMs y.2 ≤ y.1.idle ∧ y.1.id ∉ inflight ∧
      ∃ raw, x.2 = some raw ∧ y.2 = raw.bind C.fromStr := by
  obtain ⟨p, raw⟩ := x
  cases raw with
  | none => cases h
  | some raw =>
    simp only [eligible] at h
    split_ifs at h with hidle hheld
    cases h
    exact ⟨rfl, not_lt.1 hidle, hheld, raw, rfl, rfl⟩

section
variable [DecidableEq Raw] {w : ℕ} {l : WorkLabel}

theorem move_page_ok (h : Move C S w b W l b' W') (hW : WorkerOk C b W)
    (hp : PageOk C S b W.page) : PageOk C S b' W'.page := by
  have hg := move_grows h hW
  cases h with
  | pageStart start count hpage =>
    exact ⟨fun p hp => rowOk_xpendingIdle hp, by simp⟩
  | @pagePeek p todo peeked hpage =>
    rw [hpage] at hp
    refine ⟨fun q hq => hp.1 q (List.mem_cons_of_mem _ hq), fun x hx => ?_⟩
    rcases List.mem_append.1 hx with hx | hx
    · exact hp.2 x hx
    · rw [List.mem_singleton.1 hx]
      refine ⟨hp.1 p List.mem_cons_self, fun e he hid raw hraw => ?_⟩
      rw [← hid, Stream.entry?_of_mem he] at hraw
      exact Option.some.inj hraw
  | pageDecide hpage =>
    rw [hpage] at hp
    intro y hy
    obtain ⟨x, hx, hxy⟩ := List.mem_filterMap.1 hy
    obtain ⟨hrow, hidle, -, raw, hraw, hparsed⟩ := eligible_eq_some hxy
    obtain ⟨hrowOk, hpeek⟩ := hp.2 x hx
    rw [hrow] at hidle ⊢
    exact ⟨hrowOk, fun e he hid => by rw [hparsed, hpeek e he hid raw hraw], hidle⟩
  | pageClaimNone hpage hc | pageClaim hpage hc =>
    rw [hpage] at hp
    have hmono := PageOk.mono hg hp
    exact fun x hx => hmono x (List.mem_cons_of_mem _ hx)
  | pageNone hpage => trivial
  | pageClaimed hpage => trivial
  | pageDone hpage hd => trivial
  | peekFail hpage => trivial
  | claimFail hpage => trivial
  | crash => trivial
  | _ => exact hp.mono hg

/-- Who reclaims: only `pageClaim`, and the reclaim is of the entry it returns. -/
theorem move_reclaims (h : Move C S w b W l b' W') {R : Reclaim Raw} (hR : R ∈ b'.reclaims) :
    R ∈ b.reclaims ∨ l = .pageClaim ∧ R.worker = w ∧
      ∃ p parsed todo q, W.page = .claiming ((p, parsed) :: todo) ∧ q ∈ b.stream.pel ∧ q.id = p.id ∧
        visibilityTimeoutMs S.visibilityTimeoutS ≤ R.idle ∧ R.idle = b.now - q.deliveredAt ∧
        ∃ e ∈ b.stream.entries, e.id = p.id ∧ e.value = R.raw := by
  cases h with
  | flushWrite hf hpop =>
    left
    split_ifs at hR
    · obtain ⟨_, _, _, _, _, heq⟩ := applyWrite_eq b _ _
      rw [heq] at hR
      exact hR
    · exact hR
  | pageClaim hpage hc =>
    rcases List.mem_cons.1 hR with rfl | hR
    · obtain ⟨he, hid, -, q, hq, hqid, hidle⟩ := Stream.xclaim_eq_some hc
      have hpending := Stream.pending?_of_mem hq
      rw [hqid] at hpending
      refine Or.inr ⟨rfl, rfl, _, _, _, q, hpage, hq, hqid, ?_, ?_, _, he, hid, rfl⟩
      · simpa [hpending] using hidle
      · simp [hpending]
    · exact Or.inl hR
  | _ => exact Or.inl hR

end

/-! ### Runs -/

section
variable [DecidableEq Raw] (S : ℕ → Settings) (s : QueueState Raw)

/-- Every reclaim of an entry that parses came at least the required idle time after the entry's
last delivery. -/
def ReclaimedInTime (C : Codec Raw) : Prop :=
  ∀ R ∈ s.broker.reclaims, ∀ env, R.raw.bind C.fromStr = some env →
    (S R.worker).requiredIdleMs (some env) ≤ R.idle

/-- The condition on a claim: the delivery count is still the one of the page's row, or the required
idle time is the visibility timeout, which the XCLAIM checks, or this check refuses the claim. -/
def StillIdle : QueueLabel Raw → Prop
  | .work w .pageClaim => ∀ p parsed todo, (s.workers w).page = .claiming ((p, parsed) :: todo) →
      (∀ q ∈ s.broker.stream.pel, q.id = p.id → q.count = p.deliveryCount) ∨
        (S w).requiredIdleMs parsed ≤ visibilityTimeoutMs (S w).visibilityTimeoutS ∨
        ∀ q ∈ s.broker.stream.pel, q.id = p.id →
          s.broker.now - q.deliveredAt < visibilityTimeoutMs (S w).visibilityTimeoutS
  | _ => True

end

section
variable [DecidableEq Raw] {S : ℕ → Settings} {s s' : QueueState Raw}

/-- The pages of all workers. -/
def PagesOk (C : Codec Raw) (S : ℕ → Settings) (s : QueueState Raw) : Prop :=
  ∀ w, PageOk C (S w) s.broker (s.workers w).page

theorem pagesOk_step {l : QueueLabel Raw} (hs : QueueOk C s) (hp : PagesOk C S s)
    (h : queueStep C S s l = some s') : PagesOk C S s' := by
  cases l with
  | env l =>
    obtain ⟨b', hb', rfl⟩ := Option.map_eq_some_iff.1 h
    exact fun w => (hp w).mono (brokerStep_grows hb')
  | work w l =>
    obtain ⟨⟨b', W'⟩, hstep, rfl⟩ := Option.map_eq_some_iff.1 h
    have hmove := move_of_workerStep hstep
    refine (Function.forall_update_iff _ fun v (W : Worker Raw) => PageOk C (S v) b' W.page).2
      ⟨?_, fun v _ => ?_⟩
    · exact move_page_ok hmove (hs.workers w) (hp w)
    · exact (hp v).mono (move_grows hmove (hs.workers w))

theorem reclaimedInTime_step {l : QueueLabel Raw} (hp : PagesOk C S s)
    (hr : ReclaimedInTime S s C) (hl : StillIdle S s l) (h : queueStep C S s l = some s') :
    ReclaimedInTime S s' C := by
  cases l with
  | env l =>
    obtain ⟨b', hb', rfl⟩ := Option.map_eq_some_iff.1 h
    intro R hR
    rw [(brokerStep_records hb').1] at hR
    exact hr R hR
  | work w l =>
    obtain ⟨⟨b', W'⟩, hstep, rfl⟩ := Option.map_eq_some_iff.1 h
    intro R hR env henv
    rcases move_reclaims (move_of_workerStep hstep) hR with
      hR | ⟨rfl, rfl, p, parsed, todo, q, hpage, hq, hqid, hvt, hidle, e, he, heid, hval⟩
    · exact hr R hR env henv
    · have hrows := hp R.worker
      rw [hpage] at hrows
      obtain ⟨hrow, hparsed, hreq⟩ := hrows (p, parsed) List.mem_cons_self
      have henv' : parsed = some env := by
        rw [← henv, ← hval]
        exact (hparsed e he heid).symm
      subst henv'
      rcases hl p _ todo hpage with hcount | hle | hrefused
      · -- not delivered again: the row's idle time is a lower bound
        have hcount := hcount q hq hqid
        rcases hrow.2 q hq hqid with hlt | ⟨-, hge⟩
        · exact absurd hcount hlt.ne'
        · rw [hidle]; exact hreq.trans hge
      · exact hle.trans hvt
      · -- the claim was not refused
        exact absurd (hidle ▸ hvt) (not_le.2 (hrefused q hq hqid))

/-- **Reclaims are in time in every run whose claims find the entry as the page read it.** -/
theorem reclaimed_in_time (h : (queueSystem C S).Reachable (StillIdle S) s) :
    ReclaimedInTime S s C := by
  suffices hall : QueueOk C s ∧ PagesOk C S s ∧ ReclaimedInTime S s C from hall.2.2
  refine h.invariant (I := fun s => QueueOk C s ∧ PagesOk C S s ∧ ReclaimedInTime S s C) ?_ ?_
  · rintro _ rfl
    exact ⟨queueOk_init, fun _ => trivial, fun R hR => by cases hR⟩
  · rintro s l s' ⟨hs, hp, hr⟩ hl hstep
    exact ⟨queueOk_step hs hstep, pagesOk_step hs hp hstep, reclaimedInTime_step hp hr hl hstep⟩

end

/-! ### Two recoverers, one of them stalled -/

/-- A task with the default budget. -/
def retried : Token := { id := "0123456789abcdef0123456789abcdef" }

/-- A delivery whose reply is lost, and the time until the entry may be reclaimed. -/
def lostDelivery : List (QueueLabel Token) :=
  [.env (.enqueue (entryId 1) retried), .work 0 (.fetch 1 true), .env (.tick 307_000)]

/-- Worker `w` reads a page and decides. -/
def readPage (w : ℕ) : List (QueueLabel Token) :=
  [.work w (.pageStart none 8), .work w .pagePeek, .work w .pageDecide]

/-- Worker `w` claims the entry and runs it. -/
def claimAndRun (w : ℕ) : List (QueueLabel Token) :=
  [.work w .pageClaim, .work w .pageClaimed, .work w (.pageDispatch 0), .work w (.poll 0),
   .work w (.process 0 0 none)]

/-- A claim on a fresh page. -/
theorem reclaimed_in_time_fresh_page :
    ∃ s : QueueState Token, s.broker.reclaims.map (·.idle) = [307_000] ∧
      ReclaimedInTime (fun _ => {}) s tokenCodec := by
  let s := (tokenSystem.run {} (lostDelivery ++ readPage 1)).getD {}
  have hs : tokenSystem.Reachable (StillIdle fun _ => {}) s := by
    refine System.reachable_getD rfl ?_ (by decide +kernel)
    intro a ha _
    simp only [lostDelivery, readPage, List.cons_append, List.nil_append, List.mem_cons,
      List.not_mem_nil, or_false] at ha
    rcases ha with rfl | rfl | rfl | rfl | rfl | rfl <;> trivial
  have hclaim : (tokenSystem.step s (.work 1 .pageClaim)).map
      (fun t => t.broker.reclaims.map (·.idle)) = some [307_000] := by decide +kernel
  obtain ⟨t, ht, hidle⟩ := Option.map_eq_some_iff.1 hclaim
  refine ⟨t, hidle, reclaimed_in_time (hs.tail ?_ ht)⟩
  intro p parsed todo hpage
  left
  have hrow : (s.workers 1).page = .claiming [(⟨entryId 1, 307_000, 1⟩, tokenCodec.fromStr retried)] :=
    rfl
  rw [hrow] at hpage
  cases hpage
  decide +kernel

/-- Worker 2 reads a page and stalls; worker 1 claims the entry and runs it; a minute later the claim
of worker 2 succeeds, on an entry that may run for another 240 s. -/
theorem reclaim_of_a_running_entry :
    ¬ ∀ s : QueueState Token, tokenSystem.Reachable System.anyStep s →
      ReclaimedInTime (fun _ => {}) s tokenCodec := by
  intro h
  let l := lostDelivery ++ readPage 2 ++ readPage 1 ++ claimAndRun 1 ++
    [.env (.tick 60_000), .work 2 .pageClaim]
  have hs : tokenSystem.Reachable System.anyStep ((tokenSystem.run {} l).getD {}) :=
    System.reachable_getD rfl (fun _ _ _ => trivial) (by decide +kernel)
  have hreclaim : ∃ R ∈ ((tokenSystem.run {} l).getD {}).broker.reclaims,
      R.raw = some retried ∧ R.idle = 60_000 := by decide +kernel
  obtain ⟨R, hR, hraw, hidle⟩ := hreclaim
  have hle : Settings.requiredIdleMs {} (tokenCodec.fromStr retried) ≤ R.idle :=
    h _ hs R hR _ (by rw [hraw]; rfl)
  rw [hidle] at hle
  revert hle
  decide

end Cauli
