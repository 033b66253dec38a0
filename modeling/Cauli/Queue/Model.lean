import Mathlib.Logic.Function.Basic
import Cauli.Lib.GroupStream
import Cauli.Lib.Transition
import Cauli.Queue.Completion

/-!
# One queue and its workers (`worker/src/broker.rs`, `worker/src/loops.rs`)

The Redis side of one queue (`Broker`), any number of worker processes (`Worker`), and the steps
they take. A step is one Redis command, one atomic script, or one move of a worker that touches no
key; whatever the code leaves open (which reply is lost, where a pipeline is cut, what a clock
reads, which process dies) is carried by the label.

* `Dispatch`: one stream entry in the hands of a worker, from the reply that delivered it to the
  flush that acks it;
* `flush_batch`: `flushStart`, `flushWrite`, `flushReplied`, `flushAck`, `flushDel`, `flushCut`;
* `recover_page`: `pageStart` (XPENDING), `pagePeek` (XRANGE), `pageDecide`, `pageClaim` (XCLAIM),
  `pageClaimed`, `pageDispatch`, `pageDone`, `pageFail`;
* `trim_loop`: `trimInfo` (XINFO), `trimPending` (XPENDING), `trimRun` (XTRIM), `trimFail`;
* `queueSystem`: the guarded transition system of all of them.

Admission is left out: a worker may read, reclaim or start a flush whenever it likes. The fields
`accepted`, `completed`, `dropped`, `started` and `reclaims` of the broker are records of the run
that no step reads.
-/

namespace Cauli

open GroupStream

variable {Raw : Type}

/-! ### Redis -/

/-- A successful XCLAIM of a recovery page. -/
structure Reclaim (Raw : Type) where
  worker : ℕ
  id : StreamId
  raw : Option Raw
  idle : ℕ

/-- The keys of one queue, and a record of the run so far. -/
structure Broker (Raw : Type) where
  now : ℕ := 0
  stream : Stream (Option Raw) := .empty
  delayed : List (Raw × ℕ) := []
  dlq : List (DeadLetter Raw) := []
  dlqExpireAt : Option ℕ := none
  results : List (String × ResultDoc) := []
  accepted : List Raw := []
  completed : List (Option Raw) := []
  dropped : List (DeadLetter Raw) := []
  started : List String := []
  reclaims : List (Reclaim Raw) := []

section
variable [DecidableEq Raw]

/-- `ZREM`. -/
def zrem (z : List (Raw × ℕ)) (m : Raw) : List (Raw × ℕ) := z.filter fun p => decide (p.1 ≠ m)

/-- `ZADD`: a member that is there already gets the new score. -/
def zadd (z : List (Raw × ℕ)) (m : Raw) (score : ℕ) : List (Raw × ℕ) := (m, score) :: zrem z m

/-- The dead letter stream drops its oldest `n` entries. -/
def Broker.dropDlq (b : Broker Raw) (n : ℕ) : Broker Raw :=
  { b with dlq := b.dlq.drop n, dropped := b.dropped ++ b.dlq.take n }

/-- An accepted write of a completion. `evict` is what `MAXLEN ~` removes: any number of entries
above the cap. -/
def applyWrite (b : Broker Raw) (evict : ℕ) : Write Raw → Broker Raw
  | .setResult id doc _ => { b with results := (id, doc) :: b.results }
  | .zadd m score => { b with delayed := zadd b.delayed m score }
  | .xaddDlq d =>
    { b with dlq := b.dlq ++ [d] }.dropDlq (min evict (b.dlq.length + 1 - DLQ_MAXLEN))
  | .expireDlq ttlS =>
    if b.dlq.isEmpty then b else { b with dlqExpireAt := some (b.now + 1000 * ttlS) }

/-- The delayed mover over the due members, with the ids Redis generates, cut after `cut` inner
commands. Nothing is rolled back. -/
def runMover : ℕ → List (Raw × StreamId) → Broker Raw → Option (Broker Raw)
  | 0, _, b => some b
  | _ + 1, [], b => some b
  | 1, (m, id) :: _, b => (b.stream.xadd id (some m)).map fun st => { b with stream := st }
  | cut + 2, (m, id) :: rest, b =>
    (b.stream.xadd id (some m)).bind fun st =>
      runMover cut rest { b with stream := st, delayed := zrem b.delayed m }

/-- Steps of the clients, of the clock and of the mover script. -/
inductive BrokerLabel (Raw : Type)
  | tick (ms : ℕ)
  | enqueue (id : StreamId) (raw : Raw)
  | enqueueDelayed (raw : Raw) (score : ℕ)
  | move (clock : ℕ) (due : List (Raw × StreamId)) (cut : ℕ)

/-- A due member: `ZRANGEBYSCORE -inf clock`. The script takes them in score order up to its limit;
here it takes any of them. -/
def isDue (b : Broker Raw) (clock : ℕ) (m : Raw) : Bool :=
  b.delayed.any fun p => decide (p.1 = m) && decide (p.2 ≤ clock)

/-- A step of the broker. The dead letter stream is gone once the time is past its expiry time. -/
def brokerStep (b : Broker Raw) : BrokerLabel Raw → Option (Broker Raw)
  | .tick ms =>
    let b' := { b with now := b.now + ms }
    if b.dlqExpireAt.any (· < b'.now) then
      some { b'.dropDlq b.dlq.length with dlqExpireAt := none }
    else some b'
  | .enqueue id raw =>
    (b.stream.xadd id (some raw)).map fun st =>
      { b with stream := st, accepted := raw :: b.accepted }
  | .enqueueDelayed raw score =>
    some { b with delayed := zadd b.delayed raw score, accepted := raw :: b.accepted }
  | .move clock due cut =>
    if (due.map (·.1)).Nodup ∧ (∀ p ∈ due, isDue b clock p.1) then runMover cut due b else none

end

/-! ### Workers -/

/-- Where a dispatch stands. -/
inductive Stage (Raw : Type)
  /-- In an XREADGROUP reply that has not been read yet. -/
  | fetched
  /-- In the XCLAIM replies of a recovery page. -/
  | claimed (deliveryCount : ℕ) (parsed : Option Envelope)
  /-- Spawned, and not polled for the first time. -/
  | spawned
  /-- Tracked as in flight, before `process`. -/
  | polled
  | executing (env : Envelope)
  /-- In the channel of the flusher. -/
  | submitted (req : Req Raw)
  /-- In the batch being flushed, with the writes still to be made. -/
  | flushing (req : Req Raw) (refused : Bool)

/-- A stream entry in the hands of a worker. `tracked` says that it has an `InflightEntry`. -/
structure Dispatch (Raw : Type) where
  sid : StreamId
  raw : Option Raw
  tracked : Bool := false
  stage : Stage Raw

/-- Where the flusher stands. -/
inductive Flush
  | idle
  | writing
  | acking
  | deleting
  deriving DecidableEq

/-- A row of an XPENDING reply. -/
structure Pend where
  id : StreamId
  idle : ℕ
  deliveryCount : ℕ

/-- Where `recover_page` stands. -/
inductive Page (Raw : Type)
  | idle
  | peeking (todo : List Pend) (peeked : List (Pend × Option (Option Raw)))
  | claiming (eligible : List (Pend × Option Envelope))
  | dispatching

/-- Where a round of the trim loop stands. -/
inductive Trim
  | idle
  | info (lastDelivered : StreamId)
  | boundary (minid : StreamId)

/-- A worker process. -/
structure Worker (Raw : Type) where
  tasks : List (Dispatch Raw) := []
  inflight : List StreamId := []
  flush : Flush := .idle
  page : Page Raw := .idle
  trim : Trim := .idle
  trimmedTo : Option StreamId := none

namespace Dispatch

/-- In the batch being flushed. -/
def isFlushing (d : Dispatch Raw) : Bool := match d.stage with
  | .flushing _ _ => true
  | _ => false

/-- In the batch being flushed, with a write refused. -/
def isRefused (d : Dispatch Raw) : Bool := match d.stage with
  | .flushing _ refused => refused
  | _ => false

/-- In the batch being flushed, with all writes answered. -/
def isAnswered (d : Dispatch Raw) : Bool := match d.stage with
  | .flushing q _ => q.extra.isEmpty
  | _ => true

/-- Claimed by a recovery page and not dispatched yet. -/
def isClaimed (d : Dispatch Raw) : Bool := match d.stage with
  | .claimed _ _ => true
  | _ => false

/-- A dead letter of `recover_page` itself, which waits for its flush. -/
def isAwaited (d : Dispatch Raw) : Bool := match d.stage with
  | .submitted _ => !d.tracked
  | .flushing _ _ => !d.tracked
  | _ => false

/-- In the batch being flushed, not refused, and completing its task. -/
def completes (d : Dispatch Raw) : Bool := match d.stage with
  | .flushing q refused => !refused && (q.kind == .success || q.kind == .duplicate)
  | _ => false

/-- A reply that was read: its entries are spawned. -/
def spawn (d : Dispatch Raw) : Dispatch Raw := match d.stage with
  | .fetched => { d with stage := .spawned }
  | _ => d

end Dispatch

/-- The ids of the batch being flushed. -/
def flushIds (l : List (Dispatch Raw)) : List StreamId := (l.filter (·.isFlushing)).map (·.sid)

/-- The first `n` submitted requests become the batch. -/
def startFlush : ℕ → List (Dispatch Raw) → List (Dispatch Raw)
  | 0, l => l
  | _, [] => []
  | n + 1, d :: l => match d.stage with
    | .submitted q => { d with stage := .flushing q false } :: startFlush n l
    | _ => d :: startFlush (n + 1) l

/-- The next write of the batch, and the batch once it is answered. -/
def popWrite (accepted : Bool) : List (Dispatch Raw) → Option (Write Raw × List (Dispatch Raw))
  | [] => none
  | d :: l => match d.stage with
    | .flushing ⟨k, w :: ws⟩ refused =>
      some (w, { d with stage := .flushing ⟨k, ws⟩ (refused || !accepted) } :: l)
    | _ => (popWrite accepted l).map fun p => (p.1, d :: p.2)

namespace Worker

/-- The dispatches that satisfy `p` end; their guards are dropped. -/
def finishWhere (W : Worker Raw) (p : Dispatch Raw → Bool) : Worker Raw :=
  { W with
    tasks := W.tasks.filter fun d => !p d
    inflight := W.inflight.filter fun i => !(W.tasks.any fun d => p d && d.tracked && d.sid == i) }

/-- Dispatch `i` moves on to another stage. -/
def setStage (W : Worker Raw) (i : ℕ) (d : Dispatch Raw) (st : Stage Raw) : Worker Raw :=
  { W with tasks := W.tasks.set i { d with stage := st } }

/-- Dispatch `i` sends its request to the flusher: it joins the end of the channel. -/
def submit (W : Worker Raw) (i : ℕ) (d : Dispatch Raw) (q : Req Raw) : Worker Raw :=
  { W with tasks := W.tasks.eraseIdx i ++ [{ d with stage := .submitted q }] }

end Worker

/-- `stream_id_after`: the next sequence number, unchanged at `u64::MAX`. -/
def streamIdAfter (id : StreamId) : StreamId :=
  if h : id.seq + 1 < 2 ^ 64 then ⟨id.ms, id.seq + 1, id.ms_lt, h⟩ else id

/-- The boundary of `acked_below`, from the two replies it reads. -/
def ackedBelow (lastDelivered : StreamId) (oldestPending : Option StreamId) : Option StreamId :=
  match oldestPending with
  | some oldest => some oldest
  | none => if lastDelivered = .zero then none else some (streamIdAfter lastDelivered)

/-- `xpending_idle`: the page of entries idle for the visibility timeout. -/
def xpendingIdle (S : Settings) (b : Broker Raw) (start : Option StreamId) (count : ℕ) :
    List Pend :=
  (b.stream.xpending b.now (visibilityTimeoutMs S.visibilityTimeoutS) start count).map
    fun p => ⟨p.id, b.now - p.deliveredAt, p.count⟩

/-- Eligibility of a peeked row in `recover_page`. -/
def eligible (C : Codec Raw) (S : Settings) (inflight : List StreamId) :
    Pend × Option (Option Raw) → Option (Pend × Option Envelope)
  | (_, none) => none
  | (p, some raw) =>
    let parsed := raw.bind C.fromStr
    if p.idle < requiredIdleMs (visibilityTimeoutMs S.visibilityTimeoutS)
        (reclaimMarginMs S.redisTimeoutS) parsed then none
    else if p.id ∈ inflight then none
    else some (p, parsed)

/-- Moves of one worker. -/
inductive WorkLabel
  | fetch (count : ℕ) (lost : Bool)
  | fetchReply
  | poll (i : ℕ)
  | process (i now : ℕ) (claim : Option IdempClaim)
  | finish (i : ℕ) (outcome : Outcome) (now backoffMs : ℕ)
  | flushStart (n : ℕ)
  | flushWrite (accepted : Bool) (evict : ℕ)
  | flushReplied
  | flushAck
  | flushDel
  | flushCut
  | pageStart (start : Option StreamId) (count : ℕ)
  | pagePeek
  | pageDecide
  | pageClaim
  | pageClaimed
  | pageDispatch (now : ℕ)
  | pageDone
  | pageFail
  | trimInfo
  | trimPending
  | trimRun
  | trimFail
  | crash

/-- A move of worker `w`. -/
def workerStep [DecidableEq Raw] (C : Codec Raw) (S : Settings) (w : ℕ) (b : Broker Raw)
    (W : Worker Raw) : WorkLabel → Option (Broker Raw × Worker Raw)
  -- fetch loop: the entries are pending from here on, whether or not the reply arrives
  | .fetch count lost =>
    let entries := b.stream.fresh count
    let W' := if lost then W else
      { W with tasks := W.tasks ++ entries.map fun e => ⟨e.id, e.value, false, .fetched⟩ }
    some ({ b with stream := b.stream.xreadgroup w b.now count }, W')
  | .fetchReply => some (b, { W with tasks := W.tasks.map (·.spawn) })
  -- dispatch
  | .poll i =>
    match W.tasks[i]? with
    | some ⟨sid, raw, _, .spawned⟩ =>
      some (b, { W with
        tasks := W.tasks.set i ⟨sid, raw, true, .polled⟩, inflight := sid :: W.inflight })
    | _ => none
  | .process i now claim =>
    match W.tasks[i]? with
    | some ⟨sid, raw, tracked, .polled⟩ =>
      match process C S raw now claim with
      | .finished q => some (b, W.submit i ⟨sid, raw, tracked, .polled⟩ q)
      | .execute env =>
        some ({ b with started := env.id :: b.started },
          W.setStage i ⟨sid, raw, tracked, .polled⟩ (.executing env))
    | _ => none
  | .finish i outcome now backoffMs =>
    match W.tasks[i]? with
    | some ⟨sid, raw, tracked, .executing env⟩ =>
      some (b, W.submit i ⟨sid, raw, tracked, .executing env⟩
        (finish C S raw env outcome now backoffMs))
    | _ => none
  -- flush_batch
  | .flushStart n =>
    if W.flush = .idle then some (b, { W with tasks := startFlush n W.tasks, flush := .writing })
    else none
  | .flushWrite accepted evict =>
    if W.flush = .writing then
      (popWrite accepted W.tasks).map fun p =>
        (if accepted then applyWrite b evict p.1 else b, { W with tasks := p.2 })
    else none
  | .flushReplied =>
    if W.flush = .writing ∧ W.tasks.all (·.isAnswered) then
      let W' := W.finishWhere (·.isRefused)
      some ({ b with
          completed := b.completed ++ (W.tasks.filter (·.completes)).map (·.raw) },
        { W' with flush := if W'.tasks.any (·.isFlushing) then .acking else .idle })
    else none
  | .flushAck =>
    if W.flush = .acking then
      some ({ b with stream := b.stream.xack (flushIds W.tasks) }, { W with flush := .deleting })
    else none
  | .flushDel =>
    if W.flush = .deleting then
      some ({ b with stream := b.stream.xdel (flushIds W.tasks) },
        { W.finishWhere (·.isFlushing) with flush := .idle })
    else none
  | .flushCut =>
    if W.flush = .idle then none
    else some (b, { W.finishWhere (·.isFlushing) with flush := .idle })
  -- recover_page
  | .pageStart start count =>
    match W.page with
    | .idle => some (b, { W with page := .peeking (xpendingIdle S b start count) [] })
    | _ => none
  | .pagePeek =>
    match W.page with
    | .peeking (p :: todo) peeked =>
      some (b, { W with
        page := .peeking todo (peeked ++ [(p, (b.stream.entry? p.id).map (·.value))]) })
    | _ => none
  | .pageDecide =>
    match W.page with
    | .peeking [] peeked =>
      match peeked.filterMap (eligible C S W.inflight) with
      | [] => some (b, { W with page := .idle })
      | p :: l => some (b, { W with page := .claiming (p :: l) })
    | _ => none
  | .pageClaim =>
    match W.page with
    | .claiming ((p, parsed) :: todo) =>
      match b.stream.xclaim w b.now (visibilityTimeoutMs S.visibilityTimeoutS) p.id with
      | (st, none) => some ({ b with stream := st }, { W with page := .claiming todo })
      | (st, some e) =>
        let idle := b.now - ((b.stream.pending? p.id).map (·.deliveredAt)).getD 0
        some ({ b with stream := st, reclaims := ⟨w, e.id, e.value, idle⟩ :: b.reclaims },
          { W with
            page := .claiming todo
            tasks := W.tasks ++ [⟨e.id, e.value, false, .claimed p.deliveryCount parsed⟩] })
    | _ => none
  | .pageClaimed =>
    match W.page with
    | .claiming [] => some (b, { W with page := .dispatching })
    | _ => none
  | .pageDispatch now =>
    match W.page, W.tasks.findIdx? (·.isClaimed) with
    | .dispatching, some i =>
      match W.tasks[i]? with
      | some ⟨sid, raw, tracked, .claimed deliveryCount parsed⟩ =>
        if W.tasks.any (·.isAwaited) then none
        else if redeliveryLimit parsed < deliveryCount then
          some (b, W.submit i ⟨sid, raw, tracked, .claimed deliveryCount parsed⟩
            (dlqTerminal C S raw (raw.getD C.empty) .redeliveryLimit none now))
        else some (b, W.setStage i ⟨sid, raw, tracked, .claimed deliveryCount parsed⟩ .spawned)
      | _ => none
    | _, _ => none
  | .pageDone =>
    match W.page with
    | .dispatching =>
      if W.tasks.any (fun d => d.isClaimed || d.isAwaited) then none
      else some (b, { W with page := .idle })
    | _ => none
  | .pageFail =>
    match W.page with
    | .peeking _ _ => some (b, { W with page := .idle })
    | .claiming _ => some (b, { W.finishWhere (·.isClaimed) with page := .idle })
    | _ => none
  -- trim_loop
  | .trimInfo =>
    match W.trim with
    | .idle => some (b, { W with trim := .info b.stream.lastDelivered })
    | _ => none
  | .trimPending =>
    match W.trim with
    | .info lastDelivered =>
      match ackedBelow lastDelivered b.stream.oldestPending with
      | none => some (b, { W with trim := .idle })
      | some minid =>
        if W.trimmedTo = some minid then some (b, { W with trim := .idle })
        else some (b, { W with trim := .boundary minid })
    | _ => none
  | .trimRun =>
    match W.trim with
    | .boundary minid =>
      some ({ b with stream := b.stream.xtrim minid },
        { W with trim := .idle, trimmedTo := some minid })
    | _ => none
  | .trimFail => some (b, { W with trim := .idle })
  -- the process dies and is started again
  | .crash => some (b, {})

/-! ### The whole system -/

/-- Redis and every worker. -/
structure QueueState (Raw : Type) where
  broker : Broker Raw := {}
  workers : ℕ → Worker Raw := fun _ => {}

/-- Who moves. -/
inductive QueueLabel (Raw : Type)
  | env (l : BrokerLabel Raw)
  | work (w : ℕ) (l : WorkLabel)

/-- A step of the system. -/
def queueStep [DecidableEq Raw] (C : Codec Raw) (S : ℕ → Settings) (s : QueueState Raw) :
    QueueLabel Raw → Option (QueueState Raw)
  | .env l => (brokerStep s.broker l).map fun b => { s with broker := b }
  | .work w l =>
    (workerStep C (S w) w s.broker (s.workers w) l).map fun p =>
      ⟨p.1, Function.update s.workers w p.2⟩

/-- The queue, started empty. -/
def queueSystem [DecidableEq Raw] (C : Codec Raw) (S : ℕ → Settings) :
    Transition.System (QueueState Raw) (QueueLabel Raw) where
  init s := s = {}
  step := queueStep C S

end Cauli
