import Cauli.Queue.Model

/-!
# What one move of a worker can do

`Move C S w b W l b' W'` lists the ways a label `l` takes Redis and worker `w` from `(b, W)` to
`(b', W')`, guards included; `move_of_workerStep` is the inversion of the executable step. Every
invariant of the queue is a case analysis over `Move`.

* `applyWrite_eq`, `runMover_eq`: the keys a write and the mover can change;
* `brokerStep_records`: what the environment leaves alone;
* `popWrite_eq_some`: a write of the flush changes one dispatch of the batch;
* `mem_startFlush`: a new batch is made of submitted dispatches;
* `mem_finishWhere`: ending dispatches adds none.
-/

namespace Cauli

open GroupStream

variable {Raw : Type}

/-- A write of a completion touches the result keys, the delayed set and the dead letter stream. -/
theorem applyWrite_eq [DecidableEq Raw] (b : Broker Raw) (evict : ℕ) (y : Write Raw) :
    ∃ results delayed dlq dlqExpireAt dropped, applyWrite b evict y =
      { b with
        results := results
        delayed := delayed
        dlq := dlq
        dlqExpireAt := dlqExpireAt
        dropped := dropped } := by
  cases y with
  | expireDlq ttl =>
    unfold applyWrite
    split_ifs
    · exact ⟨_, _, _, _, _, rfl⟩
    · exact ⟨_, _, _, _, _, rfl⟩
  | _ => exact ⟨_, _, _, _, _, rfl⟩

/-- The mover touches the stream and the delayed set. -/
theorem runMover_eq [DecidableEq Raw] {cut : ℕ} {due : List (Raw × StreamId)}
    {b b' : Broker Raw} (h : runMover cut due b = some b') :
    ∃ stream delayed, b' = { b with stream := stream, delayed := delayed } := by
  induction cut, due, b using runMover.induct with
  | case1 due b => cases h; exact ⟨_, _, rfl⟩
  | case2 cut b => cases h; exact ⟨_, _, rfl⟩
  | case3 m id rest b =>
    obtain ⟨st, -, rfl⟩ := Option.map_eq_some_iff.1 h
    exact ⟨_, _, rfl⟩
  | case4 cut m id rest b ih =>
    obtain ⟨st, -, h⟩ := Option.bind_eq_some_iff.1 h
    obtain ⟨_, _, rfl⟩ := ih st h
    exact ⟨_, _, rfl⟩

/-- What the environment leaves alone. -/
theorem brokerStep_records [DecidableEq Raw] {b b' : Broker Raw} {l : BrokerLabel Raw}
    (h : brokerStep b l = some b') :
    b'.reclaims = b.reclaims ∧ b'.started = b.started ∧ ∀ r ∈ b.accepted, r ∈ b'.accepted := by
  cases l with
  | tick ms =>
    simp only [brokerStep] at h
    split_ifs at h <;> (cases h; exact ⟨rfl, rfl, fun _ hr => hr⟩)
  | enqueue id raw =>
    obtain ⟨st, -, rfl⟩ := Option.map_eq_some_iff.1 h
    exact ⟨rfl, rfl, fun _ hr => List.mem_cons_of_mem _ hr⟩
  | enqueueDelayed raw score =>
    cases h
    exact ⟨rfl, rfl, fun _ hr => List.mem_cons_of_mem _ hr⟩
  | move clock due cut =>
    simp only [brokerStep] at h
    split_ifs at h
    obtain ⟨_, _, rfl⟩ := runMover_eq h
    exact ⟨rfl, rfl, fun _ hr => hr⟩

/-- A write that is answered changes one dispatch of the batch, in place. -/
theorem popWrite_eq_some {accepted : Bool} {l l' : List (Dispatch Raw)} {x : Write Raw}
    (h : popWrite accepted l = some (x, l')) :
    ∃ i d k ws refused, l[i]? = some d ∧ d.stage = .flushing ⟨k, x :: ws⟩ refused ∧
      l' = l.set i { d with stage := .flushing ⟨k, ws⟩ (refused || !accepted) } := by
  induction l generalizing l' with
  | nil => cases h
  | cons d l ih =>
    unfold popWrite at h
    split at h
    · next k y ws refused hst =>
      cases h
      exact ⟨0, d, k, ws, refused, rfl, hst, rfl⟩
    · obtain ⟨⟨y, l''⟩, hl'', heq⟩ := Option.map_eq_some_iff.1 h
      cases heq
      obtain ⟨i, d', k, ws, refused, hi, hst, rfl⟩ := ih hl''
      exact ⟨i + 1, d', k, ws, refused, by simpa using hi, hst, rfl⟩

theorem mem_startFlush {n : ℕ} {l : List (Dispatch Raw)} {d : Dispatch Raw}
    (h : d ∈ startFlush n l) :
    d ∈ l ∨ ∃ d' ∈ l, ∃ q, d'.stage = .submitted q ∧ d = { d' with stage := .flushing q false } := by
  induction l generalizing n with
  | nil => cases n <;> simp [startFlush] at h
  | cons a l ih =>
    cases n with
    | zero => exact Or.inl h
    | succ n =>
      unfold startFlush at h
      split at h
      · next q hst =>
        rcases List.mem_cons.1 h with rfl | h
        · exact Or.inr ⟨a, List.mem_cons_self, q, hst, rfl⟩
        · rcases ih h with h | ⟨d', hd', h⟩
          · exact Or.inl (List.mem_cons_of_mem _ h)
          · exact Or.inr ⟨d', List.mem_cons_of_mem _ hd', h⟩
      · rcases List.mem_cons.1 h with rfl | h
        · exact Or.inl List.mem_cons_self
        · rcases ih h with h | ⟨d', hd', h⟩
          · exact Or.inl (List.mem_cons_of_mem _ h)
          · exact Or.inr ⟨d', List.mem_cons_of_mem _ hd', h⟩

theorem mem_finishWhere {W : Worker Raw} {p : Dispatch Raw → Bool} {d : Dispatch Raw} :
    d ∈ (W.finishWhere p).tasks ↔ d ∈ W.tasks ∧ p d = false := by
  simp [Worker.finishWhere]

theorem mem_flushIds {l : List (Dispatch Raw)} {i : StreamId} :
    i ∈ flushIds l ↔ ∃ d ∈ l, d.isFlushing = true ∧ d.sid = i := by
  simp [flushIds, and_assoc]

theorem isFlushing_iff {d : Dispatch Raw} :
    d.isFlushing = true ↔ ∃ q refused, d.stage = .flushing q refused := by
  unfold Dispatch.isFlushing
  split <;> simp_all

/-- The moves of worker `w` from `(b, W)`. -/
inductive Move [DecidableEq Raw] (C : Codec Raw) (S : Settings) (w : ℕ) (b : Broker Raw)
    (W : Worker Raw) : WorkLabel → Broker Raw → Worker Raw → Prop
  | fetch (count : ℕ) :
    Move C S w b W (.fetch count false) { b with stream := b.stream.xreadgroup w b.now count }
      { W with tasks := W.tasks ++
          (b.stream.fresh count).map fun e => ⟨e.id, e.value, false, .fetched⟩ }
  | fetchLost (count : ℕ) :
    Move C S w b W (.fetch count true) { b with stream := b.stream.xreadgroup w b.now count } W
  | fetchReply : Move C S w b W .fetchReply b { W with tasks := W.tasks.map (·.spawn) }
  | poll {i : ℕ} {d : Dispatch Raw} (hd : W.tasks[i]? = some d) (hst : d.stage = .spawned) :
    Move C S w b W (.poll i) b
      { W with
        tasks := W.tasks.set i { d with tracked := true, stage := .polled }
        inflight := d.sid :: W.inflight }
  | processDone {i now : ℕ} {claim : Option IdempClaim} {d : Dispatch Raw} {q : Req Raw}
      (hd : W.tasks[i]? = some d) (hst : d.stage = .polled)
      (hp : process C S d.raw now claim = .finished q) :
    Move C S w b W (.process i now claim) b (W.submit i d q)
  | processRun {i now : ℕ} {claim : Option IdempClaim} {d : Dispatch Raw} {env : Envelope}
      (hd : W.tasks[i]? = some d) (hst : d.stage = .polled)
      (hp : process C S d.raw now claim = .execute env) :
    Move C S w b W (.process i now claim) { b with started := env.id :: b.started }
      (W.setStage i d (.executing env))
  | finish {i now backoffMs : ℕ} {outcome : Outcome} {d : Dispatch Raw} {env : Envelope}
      (hd : W.tasks[i]? = some d) (hst : d.stage = .executing env) :
    Move C S w b W (.finish i outcome now backoffMs) b
      (W.submit i d (finish C S d.raw env outcome now backoffMs))
  | flushStart (n : ℕ) (hf : W.flush = .idle) :
    Move C S w b W (.flushStart n) b { W with tasks := startFlush n W.tasks, flush := .writing }
  | flushWrite {accepted : Bool} {evict : ℕ} {x : Write Raw} {l : List (Dispatch Raw)}
      (hf : W.flush = .writing) (hp : popWrite accepted W.tasks = some (x, l)) :
    Move C S w b W (.flushWrite accepted evict) (if accepted then applyWrite b evict x else b)
      { W with tasks := l }
  | flushReplied (hf : W.flush = .writing) (hall : ∀ d ∈ W.tasks, d.isAnswered = true) :
    Move C S w b W .flushReplied
      { b with completed := b.completed ++ (W.tasks.filter (·.completes)).map (·.raw) }
      { W.finishWhere (·.isRefused) with
        flush := if (W.finishWhere (·.isRefused)).tasks.any (·.isFlushing) then .acking else .idle }
  | flushAck (hf : W.flush = .acking) :
    Move C S w b W .flushAck { b with stream := b.stream.xack (flushIds W.tasks) }
      { W with flush := .deleting }
  | flushDel (hf : W.flush = .deleting) :
    Move C S w b W .flushDel { b with stream := b.stream.xdel (flushIds W.tasks) }
      { W.finishWhere (·.isFlushing) with flush := .idle }
  | flushCut (hf : W.flush ≠ .idle) :
    Move C S w b W .flushCut b { W.finishWhere (·.isFlushing) with flush := .idle }
  | pageStart (start : Option StreamId) (count : ℕ) (hp : W.page = .idle) :
    Move C S w b W (.pageStart start count) b
      { W with page := .peeking (xpendingIdle S b start count) [] }
  | pagePeek {p : Pend} {todo : List Pend} {peeked : List (Pend × Option (Option Raw))}
      (hp : W.page = .peeking (p :: todo) peeked) :
    Move C S w b W .pagePeek b
      { W with page := .peeking todo (peeked ++ [(p, (b.stream.entry? p.id).map (·.value))]) }
  | pageNone {peeked : List (Pend × Option (Option Raw))} (hp : W.page = .peeking [] peeked) :
    Move C S w b W .pageDecide b { W with page := .idle }
  | pageDecide {peeked : List (Pend × Option (Option Raw))} (hp : W.page = .peeking [] peeked) :
    Move C S w b W .pageDecide b
      { W with page := .claiming (peeked.filterMap (eligible C S W.inflight)) }
  | pageClaimNone {p : Pend} {parsed : Option Envelope} {todo : List (Pend × Option Envelope)}
      {st : Stream (Option Raw)} (hp : W.page = .claiming ((p, parsed) :: todo))
      (hc : b.stream.xclaim w b.now (visibilityTimeoutMs S.visibilityTimeoutS) p.id = (st, none)) :
    Move C S w b W .pageClaim { b with stream := st } { W with page := .claiming todo }
  | pageClaim {p : Pend} {parsed : Option Envelope} {todo : List (Pend × Option Envelope)}
      {st : Stream (Option Raw)} {e : Entry (Option Raw)}
      (hp : W.page = .claiming ((p, parsed) :: todo))
      (hc : b.stream.xclaim w b.now (visibilityTimeoutMs S.visibilityTimeoutS) p.id =
        (st, some e)) :
    Move C S w b W .pageClaim
      { b with
        stream := st
        reclaims := ⟨w, e.id, e.value,
          b.now - ((b.stream.pending? p.id).map (·.deliveredAt)).getD 0⟩ :: b.reclaims }
      { W with
        page := .claiming todo
        tasks := W.tasks ++ [⟨e.id, e.value, false, .claimed p.deliveryCount parsed⟩] }
  | pageClaimed (hp : W.page = .claiming []) :
    Move C S w b W .pageClaimed b { W with page := .dispatching }
  | pageDlq {now i n : ℕ} {d : Dispatch Raw} {parsed : Option Envelope} (hp : W.page = .dispatching)
      (hd : W.tasks[i]? = some d) (hst : d.stage = .claimed n parsed)
      (hlim : redeliveryLimit parsed < n) :
    Move C S w b W (.pageDispatch now) b
      (W.submit i d (dlqTerminal C S d.raw (d.raw.getD C.empty) .redeliveryLimit none now))
  | pageSpawn {now i n : ℕ} {d : Dispatch Raw} {parsed : Option Envelope}
      (hp : W.page = .dispatching) (hd : W.tasks[i]? = some d) (hst : d.stage = .claimed n parsed)
      (hlim : n ≤ redeliveryLimit parsed) :
    Move C S w b W (.pageDispatch now) b (W.setStage i d .spawned)
  | pageDone (hp : W.page = .dispatching) (hd : ∀ d ∈ W.tasks, d.isClaimed = false) :
    Move C S w b W .pageDone b { W with page := .idle }
  | peekFail {todo : List Pend} {peeked : List (Pend × Option (Option Raw))}
      (hp : W.page = .peeking todo peeked) : Move C S w b W .pageFail b { W with page := .idle }
  | claimFail {todo : List (Pend × Option Envelope)} (hp : W.page = .claiming todo) :
    Move C S w b W .pageFail b { W.finishWhere (·.isClaimed) with page := .idle }
  | trimInfo (ht : W.trim = .idle) :
    Move C S w b W .trimInfo b { W with trim := .info b.stream.lastDelivered }
  | trimSkip {lastDelivered : StreamId} (ht : W.trim = .info lastDelivered) :
    Move C S w b W .trimPending b { W with trim := .idle }
  | trimPending {lastDelivered minid : StreamId} (ht : W.trim = .info lastDelivered)
      (hm : ackedBelow lastDelivered b.stream.oldestPending = some minid) :
    Move C S w b W .trimPending b { W with trim := .boundary minid }
  | trimRun {minid : StreamId} (ht : W.trim = .boundary minid) :
    Move C S w b W .trimRun { b with stream := b.stream.xtrim minid }
      { W with trim := .idle, trimmedTo := some minid }
  | trimFail : Move C S w b W .trimFail b { W with trim := .idle }
  | crash : Move C S w b W .crash b {}

variable [DecidableEq Raw] {C : Codec Raw} {S : Settings} {w : ℕ} {b b' : Broker Raw}
  {W W' : Worker Raw} {l : WorkLabel}

/-- **Inversion**: an enabled label makes one of the listed moves. -/
theorem move_of_workerStep (h : workerStep C S w b W l = some (b', W')) :
    Move C S w b W l b' W' := by
  cases l with
  | fetch count lost => cases lost <;> cases h <;> constructor
  | fetchReply => cases h; exact .fetchReply
  | poll i =>
    simp only [workerStep] at h
    split at h
    · next hd => cases h; exact .poll hd rfl
    · cases h
  | process i now claim =>
    simp only [workerStep] at h
    split at h
    · next hd =>
      split at h
      · next hp => cases h; exact .processDone hd rfl hp
      · next hp => cases h; exact .processRun hd rfl hp
    · cases h
  | finish i outcome now backoffMs =>
    simp only [workerStep] at h
    split at h
    · next hd => cases h; exact .finish hd rfl
    · cases h
  | flushStart n =>
    simp only [workerStep] at h
    split_ifs at h with hf
    cases h
    exact .flushStart n hf
  | flushWrite accepted evict =>
    simp only [workerStep] at h
    split at h
    · next hf =>
      obtain ⟨⟨x, l⟩, hp, heq⟩ := Option.map_eq_some_iff.1 h
      cases heq
      exact .flushWrite hf hp
    · cases h
  | flushReplied =>
    simp only [workerStep] at h
    split at h
    · next hf => cases h; exact .flushReplied hf.1 (List.all_eq_true.1 hf.2)
    · cases h
  | flushAck =>
    simp only [workerStep] at h
    split_ifs at h with hf
    cases h
    exact .flushAck hf
  | flushDel =>
    simp only [workerStep] at h
    split_ifs at h with hf
    cases h
    exact .flushDel hf
  | flushCut =>
    simp only [workerStep] at h
    split_ifs at h with hf
    cases h
    exact .flushCut hf
  | pageStart start count =>
    simp only [workerStep] at h
    split at h
    · next hp => cases h; exact .pageStart start count hp
    · cases h
  | pagePeek =>
    simp only [workerStep] at h
    split at h
    · next hp => cases h; exact .pagePeek hp
    · cases h
  | pageDecide =>
    simp only [workerStep] at h
    split at h
    · next hp =>
      split at h
      · cases h; exact .pageNone hp
      · next heq => cases h; rw [← heq]; exact .pageDecide hp
    · cases h
  | pageClaim =>
    simp only [workerStep] at h
    split at h
    · next hp =>
      split at h
      · next hc => cases h; exact .pageClaimNone hp hc
      · next hc => cases h; exact .pageClaim hp hc
    · cases h
  | pageClaimed =>
    simp only [workerStep] at h
    split at h
    · next hp => cases h; exact .pageClaimed hp
    · cases h
  | pageDispatch now =>
    simp only [workerStep] at h
    split at h
    · next hp _ =>
      split at h
      · next hd =>
        split_ifs at h with _ hlim
        · cases h; exact .pageDlq hp hd rfl hlim
        · cases h; exact .pageSpawn hp hd rfl (not_lt.1 hlim)
      · cases h
    · cases h
  | pageDone =>
    simp only [workerStep] at h
    split at h
    · next hp =>
      split_ifs at h with hany
      cases h
      simp only [List.any_eq_true, not_exists, not_and, Bool.or_eq_true, not_or,
        Bool.not_eq_true] at hany
      exact .pageDone hp fun d hd => (hany d hd).1
    · cases h
  | pageFail =>
    simp only [workerStep] at h
    split at h
    · next hp => cases h; exact .peekFail hp
    · next hp => cases h; exact .claimFail hp
    · cases h
  | trimInfo =>
    simp only [workerStep] at h
    split at h
    · next ht => cases h; exact .trimInfo ht
    · cases h
  | trimPending =>
    simp only [workerStep] at h
    split at h
    · next ht =>
      split at h
      · cases h; exact .trimSkip ht
      · next hm =>
        split_ifs at h
        · cases h; exact .trimSkip ht
        · cases h; exact .trimPending ht hm
    · cases h
  | trimRun =>
    simp only [workerStep] at h
    split at h
    · next ht => cases h; exact .trimRun ht
    · cases h
  | trimFail => cases h; exact .trimFail
  | crash => cases h; exact .crash

end Cauli
