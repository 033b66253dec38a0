import Cauli.Queue.Anchor

/-!
# What the workers owe

The invariant of the queue. A worker holds entries at different stages of a dispatch, and at each
stage something is owed for the task of the entry: a request that resolves it, a write still to
come, an anchor above the entry. A trim round relies on ids that are settled.

* `StageOk`, `DispatchOk`, `TrimOk`, `WorkerOk`: the obligations of one worker;
* `move_grows`, `move_tasks_ok`, `move_trim_ok`: one move of a worker breaks no anchor and keeps
  its obligations;
* `queueOk_step`, `queueOk_of_reachable`: the whole system, over every run.
-/

namespace Cauli

open GroupStream

variable {Raw : Type} {C : Codec Raw} {b b' : Broker Raw}

/-! ### What a worker owes -/

variable (C) in
/-- By stage, what holds of the task of an entry in the hands of a worker. In the batch being
flushed: while the writes are made, either a write still to come resolves the task or it is
anchored above the entry; from the replies on it is anchored; after the XACK the id is settled. -/
def StageOk (b : Broker Raw) (ph : Flush) (d : Dispatch Raw) : Prop :=
  match d.stage with
  | .executing env => ∃ r, d.raw = some r ∧ C.fromStr r = some env
  | .submitted q => ∀ r, d.raw = some r → q.Resolves C (C.task r)
  | .flushing q refused =>
    match ph with
    | .idle => False
    | .writing => refused = false → ∀ r, d.raw = some r →
        q.Resolves C (C.task r) ∨ Anchored C b (C.task r) d.sid
    | .acking => ∀ r, d.raw = some r → Anchored C b (C.task r) d.sid
    | .deleting => b.stream.Settled d.sid
  | _ => True

variable (C) in
/-- The entry was delivered, its payload is the stream's, and its stage is sound. -/
structure DispatchOk (b : Broker Raw) (ph : Flush) (d : Dispatch Raw) : Prop where
  sid_le : d.sid ≤ b.stream.lastDelivered
  raw_eq : ∀ e ∈ b.stream.entries, e.id = d.sid → e.value = d.raw
  stage : StageOk C b ph d

/-- The ids a round of the trim loop relies on. -/
def TrimOk (b : Broker Raw) : Trim → Prop
  | .idle => True
  | .info lastDelivered => lastDelivered ≤ b.stream.lastDelivered
  | .boundary minid => ∀ i < minid, b.stream.Settled i

variable (C) in
/-- A worker's dispatches and its trim round are sound. -/
structure WorkerOk (b : Broker Raw) (W : Worker Raw) : Prop where
  tasks : ∀ d ∈ W.tasks, DispatchOk C b W.flush d
  trim : TrimOk b W.trim

variable {ph ph' : Flush} {d : Dispatch Raw} {W W' : Worker Raw}

theorem StageOk.mono (hg : Grows C b b') (hsid : d.sid ≤ b.stream.lastDelivered)
    (h : StageOk C b ph d) : StageOk C b' ph d := by
  have hle : d.sid ≤ b.stream.lastId := hsid.trans b.stream.delivered_le
  unfold StageOk at h ⊢
  split at h
  · exact h
  · exact h
  · cases ph with
    | idle => exact h
    | writing =>
      intro href r hr
      exact (h href r hr).imp_right (hg.anchored _ _ hle)
    | acking => exact fun r hr => hg.anchored _ _ hle (h r hr)
    | deleting => exact hg.evolves.settled h
  · trivial

theorem DispatchOk.mono (hg : Grows C b b') (h : DispatchOk C b ph d) : DispatchOk C b' ph d where
  sid_le := h.sid_le.trans hg.evolves.delivered_le
  raw_eq e he hid :=
    h.raw_eq e (hg.evolves.entry_mem he (hid ▸ h.sid_le.trans b.stream.delivered_le)) hid
  stage := h.stage.mono hg h.sid_le

theorem TrimOk.mono {tr : Trim} (hg : Grows C b b') (h : TrimOk b tr) : TrimOk b' tr := by
  cases tr with
  | idle => trivial
  | info lastDelivered => exact h.trans hg.evolves.delivered_le
  | boundary minid => exact fun i hi => hg.evolves.settled (h i hi)

theorem WorkerOk.mono (hg : Grows C b b') (h : WorkerOk C b W) : WorkerOk C b' W :=
  ⟨fun d hd => (h.tasks d hd).mono hg, h.trim.mono hg⟩

/-- Another stage of the same entry. -/
theorem DispatchOk.withStage (h : DispatchOk C b ph d) {tracked : Bool} {st : Stage Raw}
    (hst : StageOk C b ph' { d with tracked := tracked, stage := st }) :
    DispatchOk C b ph' { d with tracked := tracked, stage := st } :=
  ⟨h.sid_le, h.raw_eq, hst⟩

/-- Outside the batch the phase of the flush does not matter. -/
theorem DispatchOk.rephase (h : DispatchOk C b ph d) (hd : d.isFlushing = false) :
    DispatchOk C b ph' d := by
  refine ⟨h.sid_le, h.raw_eq, ?_⟩
  have hst := h.stage
  unfold StageOk at hst ⊢
  unfold Dispatch.isFlushing at hd
  split at hst <;> simp_all

theorem settled_of_deleting {q : Req Raw} {refused : Bool} (h : DispatchOk C b .deleting d)
    (hst : d.stage = .flushing q refused) : b.stream.Settled d.sid := by
  have := h.stage
  unfold StageOk at this
  rwa [hst] at this

theorem anchored_of_acking {q : Req Raw} {refused : Bool} (h : DispatchOk C b .acking d)
    (hst : d.stage = .flushing q refused) (r : Raw) (hr : d.raw = some r) :
    Anchored C b (C.task r) d.sid := by
  have := h.stage
  unfold StageOk at this
  rw [hst] at this
  exact this r hr

/-! ### One move of a worker -/

/-- Every id below the boundary of `acked_below` is settled: it was delivered, since the last
delivered id was read before, and it is below the oldest pending one. -/
theorem settled_below {lastDelivered minid : StreamId}
    (hle : lastDelivered ≤ b.stream.lastDelivered)
    (h : ackedBelow lastDelivered b.stream.oldestPending = some minid) :
    ∀ i < minid, b.stream.Settled i := by
  intro i hi
  unfold ackedBelow Stream.oldestPending at h
  cases hpel : b.stream.pel with
  | nil =>
    -- nothing is pending, and the boundary is at most one past an id already delivered
    rw [hpel] at h
    simp only [List.head?_nil, Option.map_none] at h
    split_ifs at h
    cases h
    refine ⟨?_, by simp [hpel]⟩
    refine le_trans ?_ hle
    unfold streamIdAfter at hi
    split_ifs at hi with hseq
    · rw [StreamId.le_iff]
      rw [StreamId.lt_iff] at hi
      unfold StreamId.key at hi ⊢
      dsimp only at hi
      omega
    · exact hi.le
  | cons p pel =>
    rw [hpel] at h
    simp only [List.head?_cons, Option.map_some, Option.some.injEq] at h
    subst h
    have hp : p ∈ b.stream.pel := hpel ▸ List.mem_cons_self
    refine ⟨hi.le.trans (b.stream.pel_le p hp), fun q hq hqi => ?_⟩
    have hsorted := b.stream.pel_sorted
    rw [hpel] at hsorted hq
    rcases List.mem_cons.1 hq with rfl | hq
    · exact absurd hqi hi.ne'
    · exact absurd (List.rel_of_pairwise_cons hsorted hq) (not_lt.2 (hqi ▸ hi.le))

/-- The request of a dispatch that needed no executor resolves its task. -/
theorem process_resolves {S : Settings} {raw : Option Raw} {now : ℕ} {claim : Option IdempClaim}
    {q : Req Raw}
    (h : process C S raw now claim = .finished q) (r : Raw) (hr : raw = some r) :
    q.Resolves C (C.task r) := by
  rcases process_cases (C := C) (S := S) raw now claim with
    ⟨_, _, -, -, -, h'⟩ | ⟨result, h'⟩ | ⟨x, reason, error, result, hx, h'⟩
  · rw [h'] at h; cases h
  · rw [h'] at h; cases h; exact Or.inr (Or.inl rfl)
  · rw [h'] at h; cases h; subst hr; exact finishDlq_resolves (hx r rfl) _ _ _

/-- Once all writes are answered, a request without a refusal has its task anchored. -/
theorem anchored_of_answered {q : Req Raw} (hd : d ∈ W.tasks) (hok : DispatchOk C b .writing d)
    (hst : d.stage = .flushing q false) (hans : d.isAnswered = true) (r : Raw)
    (hr : d.raw = some r) :
    Anchored C { b with completed := b.completed ++ (W.tasks.filter (·.completes)).map (·.raw) }
      (C.task r) d.sid := by
  have hnil : q.extra = [] := by simpa [Dispatch.isAnswered, hst] using hans
  have hcompl : q.kind = .success ∨ q.kind = .duplicate → d.completes = true := by
    rintro (hk | hk) <;> simp [Dispatch.completes, hst, hk]
  have hdone (hk : q.kind = .success ∨ q.kind = .duplicate) :
      ∃ v ∈ b.completed ++ (W.tasks.filter (·.completes)).map (·.raw), C.Of (C.task r) v := by
    refine ⟨d.raw, List.mem_append_right _ (List.mem_map.2 ⟨d, ?_, rfl⟩), r, hr, rfl⟩
    exact List.mem_filter.2 ⟨hd, hcompl hk⟩
  have hstage := hok.stage
  unfold StageOk at hstage
  rw [hst] at hstage
  rcases hstage rfl r hr with (hk | hk | ⟨z, hz, -⟩) | hanch
  · exact Or.inl (Or.inl (hdone (Or.inl hk)))
  · exact Or.inl (Or.inl (hdone (Or.inr hk)))
  · rw [hnil] at hz; cases hz
  · refine hanch.mono (fun hoff => ?_) fun _ h => h
    rcases hoff with ⟨v, hv, ht⟩ | h
    · exact Or.inl ⟨v, List.mem_append_left _ hv, ht⟩
    · exact Or.inr h

/-- A list of sound dispatches with one entry moved to another stage. -/
theorem tasks_set {i : ℕ} {tracked : Bool} {st : Stage Raw} (hd : W.tasks[i]? = some d)
    (hall : ∀ d ∈ W.tasks, DispatchOk C b ph d)
    (hst : StageOk C b ph { d with tracked := tracked, stage := st }) :
    ∀ d' ∈ W.tasks.set i { d with tracked := tracked, stage := st }, DispatchOk C b ph d' := by
  intro d' hd'
  rcases List.mem_or_eq_of_mem_set hd' with hd' | rfl
  · exact hall d' hd'
  · exact (hall d (List.mem_of_getElem? hd)).withStage hst

/-- A list of sound dispatches with one of them sent to the flusher. -/
theorem tasks_submit {i : ℕ} {q : Req Raw} (hd : W.tasks[i]? = some d)
    (hall : ∀ d ∈ W.tasks, DispatchOk C b ph d)
    (hq : ∀ r, d.raw = some r → q.Resolves C (C.task r)) :
    ∀ d' ∈ (W.submit i d q).tasks, DispatchOk C b ph d' := by
  intro d' hd'
  rcases List.mem_append.1 hd' with hd' | hd'
  · exact hall d' (List.mem_of_mem_eraseIdx hd')
  · rw [List.mem_singleton.1 hd']
    exact (hall d (List.mem_of_getElem? hd)).withStage hq

section
variable [DecidableEq Raw] {S : Settings} {w : ℕ} {l : WorkLabel}

/-- **No move of a sound worker breaks an anchor.** -/
theorem move_grows (h : Move C S w b W l b' W') (hW : WorkerOk C b W) : Grows C b b' := by
  cases h with
  | fetch count | fetchLost count =>
    exact grows_of_live le_rfl (Stream.evolves_xreadgroup _ _ _ _) (fun _ h => h)
      fun e he => Stream.live_xreadgroup _ _ _ he
  | processRun hd hst hp => exact grows_of_off le_rfl rfl fun _ h => h
  | flushWrite hf hp =>
    split_ifs
    · exact grows_applyWrite _ _
    · exact .refl _
  | flushReplied hf hall =>
    refine grows_of_off le_rfl rfl fun t h => ?_
    rcases h with ⟨v, hv, ht⟩ | h
    · exact Or.inl ⟨v, List.mem_append_left _ hv, ht⟩
    · exact Or.inr h
  | flushAck hf =>
    refine grows_xack ?_
    rintro e he hid t ⟨r, hr, rfl⟩
    obtain ⟨d, hd, hfl, hsid⟩ := mem_flushIds.1 hid
    obtain ⟨q, refused, hst⟩ := isFlushing_iff.1 hfl
    have hok := hf ▸ hW.tasks d hd
    have hraw : d.raw = some r := by rw [← hok.raw_eq e he hsid.symm, hr]
    exact hsid ▸ anchored_of_acking hok hst r hraw
  | flushDel hf =>
    refine grows_retain fun e he hk => ?_
    obtain ⟨d, hd, hfl, hsid⟩ := mem_flushIds.1 (by simpa using hk)
    obtain ⟨q, refused, hst⟩ := isFlushing_iff.1 hfl
    exact hsid ▸ settled_of_deleting (hf ▸ hW.tasks d hd) hst
  | pageClaimNone hp hc => exact grows_xclaim hc
  | pageClaim hp hc => exact (grows_xclaim hc).trans (grows_of_off le_rfl rfl fun _ h => h)
  | trimRun ht =>
    refine grows_retain fun e he hk => ?_
    have htrim := hW.trim
    rw [ht] at htrim
    exact htrim e.id (by simpa using hk)
  | _ => exact .refl _

theorem move_trim_ok (h : Move C S w b W l b' W') (hW : WorkerOk C b W) : TrimOk b' W'.trim := by
  have hg := move_grows h hW
  cases h with
  | trimInfo ht => exact le_rfl
  | trimSkip ht => trivial
  | trimPending ht hm =>
    have htrim := hW.trim
    rw [ht] at htrim
    exact settled_below htrim hm
  | trimRun ht => trivial
  | trimFail => trivial
  | crash => trivial
  | _ => exact hW.trim.mono hg

/-- A write of the flush, accepted or not, leaves its own dispatch sound. -/
theorem stageOk_write {accepted refused : Bool} {evict : ℕ} {k : Kind} {y : Write Raw}
    {ws : List (Write Raw)} (hok : DispatchOk C b .writing d)
    (hst : d.stage = .flushing ⟨k, y :: ws⟩ refused) :
    StageOk C (if accepted then applyWrite b evict y else b) .writing
      { d with stage := .flushing ⟨k, ws⟩ (refused || !accepted) } := by
  intro href r hr
  simp only [Bool.or_eq_false_iff, Bool.not_eq_false'] at href
  obtain ⟨href, rfl⟩ := href
  have hstage := hok.stage
  unfold StageOk at hstage
  rw [hst] at hstage
  have hle := hok.sid_le.trans b.stream.delivered_le
  rcases hstage href r hr with (hk | hk | ⟨z, hz, hanch⟩) | hanch
  · exact Or.inl (Or.inl hk)
  · exact Or.inl (Or.inr (Or.inl hk))
  · rcases List.mem_cons.1 hz with rfl | hz
    · exact Or.inr (Or.inl (off_of_anchors hanch evict))
    · exact Or.inl (Or.inr (Or.inr ⟨z, hz, hanch⟩))
  · exact Or.inr ((grows_applyWrite evict y).anchored _ _ hle hanch)

theorem move_tasks_ok (h : Move C S w b W l b' W') (hW : WorkerOk C b W) :
    ∀ d ∈ W'.tasks, DispatchOk C b' W'.flush d := by
  have hg := move_grows h hW
  have hall := fun d hd => (hW.tasks d hd).mono hg
  cases h with
  | fetch count =>
    intro d hd
    rcases List.mem_append.1 hd with hd | hd
    · exact hall d hd
    · obtain ⟨e, he, rfl⟩ := List.mem_map.1 hd
      refine ⟨Stream.fresh_le_deliveredAfter he, fun e' he' hid => ?_, trivial⟩
      rw [Stream.entry_unique (s := b.stream) he' (Stream.mem_fresh he).1 hid]
  | fetchReply =>
    intro d hd
    obtain ⟨d, hmem, rfl⟩ := List.mem_map.1 hd
    unfold Dispatch.spawn
    split
    · exact (hall d hmem).withStage trivial
    · exact hall d hmem
  | poll hd hst => exact tasks_set hd hall trivial
  | processDone hd hst hp => exact tasks_submit hd hall (process_resolves hp)
  | processRun hd hst hp =>
    refine tasks_set hd hall ?_
    rcases process_cases (C := C) (S := S) _ _ _ with
      ⟨r, env, hr, henv, -, h'⟩ | ⟨result, h'⟩ | ⟨x, reason, error, result, hx, h'⟩
    · rw [h'] at hp; cases hp; exact ⟨r, hr, henv⟩
    · rw [h'] at hp; cases hp
    · rw [h'] at hp; cases hp
  | finish hd hst =>
    refine tasks_submit hd hall fun r hr => ?_
    have hstage := (hall _ (List.mem_of_getElem? hd)).stage
    unfold StageOk at hstage
    rw [hst] at hstage
    obtain ⟨r', hr', henv⟩ := hstage
    rw [hr] at hr'
    cases hr'
    rw [hr]
    exact finish_resolves henv _ _ _
  | flushStart n hf =>
    intro d hd
    rcases mem_startFlush hd with hmem | ⟨d, hmem, q, hst, rfl⟩
    · refine (hall d hmem).rephase ?_
      by_contra hfl
      obtain ⟨q, refused, hst⟩ := isFlushing_iff.1 (Bool.not_eq_false _ ▸ hfl)
      have hstage := (hall d hmem).stage
      unfold StageOk at hstage
      rw [hst, hf] at hstage
      exact hstage
    · refine (hall d hmem).withStage fun _ r hr => Or.inl ?_
      have hstage := (hall d hmem).stage
      unfold StageOk at hstage
      rw [hst] at hstage
      exact hstage r hr
  | flushWrite hf hp =>
    obtain ⟨i, d, k, ws, refused, hd, hst, rfl⟩ := popWrite_eq_some hp
    rw [hf] at hall
    rw [hf]
    exact tasks_set hd hall (stageOk_write (hf ▸ hW.tasks d (List.mem_of_getElem? hd)) hst)
  | flushReplied hf hans =>
    intro d hd
    obtain ⟨hd', href⟩ := mem_finishWhere.1 hd
    by_cases hfl : d.isFlushing = true
    · obtain ⟨q, refused, hst⟩ := isFlushing_iff.1 hfl
      have : refused = false := by simpa [Dispatch.isRefused, hst] using href
      subst this
      have hany : (W.finishWhere (·.isRefused)).tasks.any (·.isFlushing) = true :=
        List.any_eq_true.2 ⟨d, hd, hfl⟩
      refine ⟨(hall d hd').sid_le, (hall d hd').raw_eq, ?_⟩
      simp only [hany, if_true]
      unfold StageOk
      rw [hst]
      exact anchored_of_answered hd' (hf ▸ hW.tasks d hd') hst (hans d hd')
    · exact (hall d hd').rephase (Bool.eq_false_iff.2 hfl)
  | flushAck hf =>
    intro d hd
    by_cases hfl : d.isFlushing = true
    · obtain ⟨q, refused, hst⟩ := isFlushing_iff.1 hfl
      refine ⟨(hall d hd).sid_le, (hall d hd).raw_eq, ?_⟩
      unfold StageOk
      rw [hst]
      refine ⟨(hall d hd).sid_le, fun p hp hid => ?_⟩
      have hmem : d.sid ∈ flushIds W.tasks := mem_flushIds.2 ⟨d, hd, hfl, rfl⟩
      have := (List.mem_filter.1 hp).2
      simp [hid, hmem] at this
    · exact (hall d hd).rephase (Bool.eq_false_iff.2 hfl)
  | flushDel hf | flushCut hf =>
    intro d hd
    obtain ⟨hd, hfl⟩ := mem_finishWhere.1 hd
    exact (hall d hd).rephase hfl
  | pageClaim hp hc =>
    intro d hd
    rcases List.mem_append.1 hd with hd | hd
    · exact hall d hd
    · rw [List.mem_singleton.1 hd]
      obtain ⟨hmem, hid, rfl, p, hp, hpid, -⟩ := Stream.xclaim_eq_some hc
      refine ⟨?_, fun e' he' hid' => ?_, trivial⟩
      · rw [hid, ← hpid]; exact b.stream.pel_le p hp
      · rw [Stream.entry_unique (s := b.stream) he' hmem hid']
  | pageDlq hp hd hst hlim =>
    refine tasks_submit hd hall fun r hr => ?_
    rw [hr]
    exact dlqTerminal_resolves (Or.inl rfl) _ _ _
  | pageSpawn hp hd hst hlim => exact tasks_set hd hall trivial
  | claimFail hp =>
    intro d hd
    exact hall d (mem_finishWhere.1 hd).1
  | crash => intro d hd; cases hd
  | _ => exact hall

end

/-! ### Every step -/

variable (C) in
/-- Every worker is sound and every accepted task is anchored. -/
structure QueueOk (s : QueueState Raw) : Prop where
  workers : ∀ w, WorkerOk C s.broker (s.workers w)
  accepted : ∀ r ∈ s.broker.accepted, Anchored C s.broker (C.task r) .zero

theorem queueOk_init : QueueOk C ({} : QueueState Raw) :=
  ⟨fun _ => ⟨by simp, trivial⟩, by simp⟩

section
variable [DecidableEq Raw] {S : ℕ → Settings} {s s' : QueueState Raw}

theorem brokerStep_grows {l : BrokerLabel Raw} (h : brokerStep b l = some b') : Grows C b b' := by
  cases l with
  | tick ms =>
    simp only [brokerStep] at h
    split_ifs at h
    · cases h
      exact grows_of_off (Nat.le_add_right _ _) rfl
        fun t ht => Off.dropDlq (b := { b with now := b.now + ms }) ht _
    · cases h
      exact grows_of_off (Nat.le_add_right _ _) rfl fun t ht => ht
  | enqueue id raw =>
    obtain ⟨st, hst, rfl⟩ := Option.map_eq_some_iff.1 h
    exact (grows_xadd hst).trans (grows_of_off le_rfl rfl fun t ht => ht)
  | enqueueDelayed raw score =>
    cases h
    exact grows_of_off le_rfl rfl fun t ht => ht.zadd raw score
  | move clock due cut =>
    simp only [brokerStep] at h
    split_ifs at h
    exact grows_runMover h

/-- A task is accepted with an anchor. -/
theorem brokerStep_accepted {l : BrokerLabel Raw} (h : brokerStep b l = some b') {r : Raw}
    (hr : r ∈ b'.accepted) : r ∈ b.accepted ∨ Anchored C b' (C.task r) .zero := by
  cases l with
  | tick ms =>
    simp only [brokerStep] at h
    split_ifs at h <;> (cases h; exact Or.inl hr)
  | enqueue id raw =>
    obtain ⟨st, hst, rfl⟩ := Option.map_eq_some_iff.1 h
    rcases List.mem_cons.1 hr with rfl | hr
    · refine Or.inr (Or.inr ⟨⟨id, some r⟩, (Stream.live_xadd hst).2, ⟨r, rfl, rfl⟩, ?_⟩)
      refine lt_of_le_of_lt ?_ (Stream.lastId_lt_of_xadd hst)
      exact StreamId.le_iff.2 (Nat.zero_le _)
    · exact Or.inl hr
  | enqueueDelayed raw score =>
    cases h
    rcases List.mem_cons.1 hr with rfl | hr
    · exact Or.inr (Or.inl (Or.inr (Or.inr ⟨_, List.mem_cons_self, rfl⟩)))
    · exact Or.inl hr
  | move clock due cut =>
    simp only [brokerStep] at h
    split_ifs at h
    obtain ⟨_, _, rfl⟩ := runMover_eq h
    exact Or.inl hr

theorem move_accepted {S : Settings} {w : ℕ} {l : WorkLabel} (h : Move C S w b W l b' W') :
    b'.accepted = b.accepted := by
  cases h with
  | flushWrite hf hp =>
    split_ifs
    · obtain ⟨_, _, _, _, _, heq⟩ := applyWrite_eq b _ _
      rw [heq]
    · rfl
  | _ => rfl

/-- **One step of the system keeps every worker sound and every task anchored.** -/
theorem queueOk_step {l : QueueLabel Raw} (hs : QueueOk C s)
    (h : queueStep C S s l = some s') : QueueOk C s' := by
  have hzero : ∀ st : Stream (Option Raw), StreamId.zero ≤ st.lastId :=
    fun st => StreamId.le_iff.2 (Nat.zero_le _)
  cases l with
  | env l =>
    obtain ⟨b', hb', rfl⟩ := Option.map_eq_some_iff.1 h
    have hg := brokerStep_grows (C := C) hb'
    refine ⟨fun w => (hs.workers w).mono hg, fun r hr => ?_⟩
    rcases brokerStep_accepted hb' hr with hr | hr
    · exact hg.anchored _ _ (hzero _) (hs.accepted r hr)
    · exact hr
  | work w l =>
    obtain ⟨⟨b', W'⟩, hstep, rfl⟩ := Option.map_eq_some_iff.1 h
    have hmove := move_of_workerStep hstep
    have hg := move_grows hmove (hs.workers w)
    refine ⟨?_, fun r hr => ?_⟩
    · refine (Function.forall_update_iff _ fun _ => WorkerOk C b').2 ⟨?_, fun v _ => ?_⟩
      · exact ⟨move_tasks_ok hmove (hs.workers w), move_trim_ok hmove (hs.workers w)⟩
      · exact (hs.workers v).mono hg
    · exact hg.anchored _ _ (hzero _) (hs.accepted r (move_accepted hmove ▸ hr))

theorem queueOk_of_reachable {P : QueueState Raw → QueueLabel Raw → Prop}
    (h : (queueSystem C S).Reachable P s) : QueueOk C s :=
  h.invariant (by rintro _ rfl; exact queueOk_init) fun _ _ _ hs _ hstep => queueOk_step hs hstep

end

end Cauli
