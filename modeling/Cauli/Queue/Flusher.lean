import Mathlib.Data.List.ModifyLast
import Mathlib.Data.List.Nodup
import Mathlib.Order.Nat
import Mathlib.Tactic.SplitIfs
import Cauli.Lib.Parties
import Cauli.Lib.Saturating
import Cauli.Lib.Transition
import Cauli.Queue.Flush

/-!
# The completion buffer of a queue (`worker/src/broker.rs`)

Completions are sent over a bounded channel to one flusher, which collects a batch, flushes it in two round
trips, and answers each caller over a channel of its own. The calls, the flusher, Redis and the clock take
their steps in any order.

* `Call`, `Stage`: a call of `submit`, and where the flusher is;
* `step`: their steps, one for each wait;
* `Flush`, `Flush.answer`: a flush, and its answer to each of its requests;
* `BufferOk`: what holds between the calls, the channel, the batch and the flushes so far;
* `submissions_answered`: each request is in one flush, in the order of the channel, and its caller gets the
  answer to its own commands.

The errors of Redis have an arbitrary type. A call may be dropped at any time. Only one queue is here: the
buffers of different queues share nothing.
-/

namespace Cauli.Flusher

open Transition

variable {E : Type}

/-- What `AckBufs::start` gives the flusher of a queue. -/
structure Params where
  queue : String
  maxBatch : ℕ
  flushMs : ℕ
  capacity : ℕ

/-- `AckBufs::start`. -/
def start (queue : String) (batch flushMs : ℕ) : Params :=
  ⟨queue, max batch 1, flushMs, max (U64.satMul (max batch 1) 4) 256⟩

/-- The errors of `submit`. -/
inductive SubmitError (E : Type)
  | flusherGone
  | flushFailed (e : E)
  | droppedUnanswered

/-- How a call of `submit` stands. -/
inductive Phase (E : Type)
  /-- In `tx.send`. -/
  | sending
  /-- In `rx.await`. -/
  | waiting
  | returned (r : Except (SubmitError E) Unit)
  /-- Its future was dropped. -/
  | gone

/-- It still holds its sender. -/
def Phase.live : Phase E → Bool
  | .sending | .waiting => true
  | _ => false

/-- A call of `submit`, with its oneshot channel. -/
structure Call (E : Type) where
  req : AckReq
  phase : Phase E := .sending
  slot : Option (Except E Unit) := none

/-- A request in the channel: `done` is the call that its answer goes to. -/
structure Msg where
  done : ℕ
  req : AckReq

/-- Where the flusher is. `since` is a record: when the first request was received. -/
inductive Stage (E : Type)
  | receiving
  | collecting (batch : List Msg) (since deadline : ℕ)
  /-- In the first round trip of `flush_batch`. -/
  | writing (batch : List Msg)
  /-- In the second one, for these requests. -/
  | acking (batch : List Msg) (written : List (Slot E))
  | exited

/-- The requests that were received and are in no flush. -/
def Stage.hand : Stage E → List Msg
  | .collecting batch _ _ | .writing batch => batch
  | _ => []

/-- The oneshot senders that the flusher holds. -/
def Stage.holds (k : ℕ) : Stage E → Bool
  | .collecting batch _ _ | .writing batch => batch.any (·.done == k)
  | .acking batch written => written.any fun r => (batch[r.done]?).any (·.done == k)
  | .receiving | .exited => false

/-- A flush: what the two pipelines answered, as far as they did. -/
structure Flush (E : Type) where
  batch : List Msg
  write : Except E (List (Except E Unit))
  ack : Option (Except E Unit) := none

/-- The requests of a flush after the first round trip. -/
def Flush.slots (f : Flush E) : List (Slot E) := afterWrites (f.batch.map Msg.req) f.write

/-- The answer of a flush to its request `i`. -/
def Flush.answer (f : Flush E) (i : ℕ) : Option (Except E Unit) :=
  (f.slots[i]?).bind fun r => if isOk r.outcome then f.ack else some r.outcome

/-- Why collecting ended, as a record. -/
structure Window where
  size : ℕ
  since : ℕ
  ended : ℕ
  closed : Bool

/-- The buffer. `accepted`, `flushes` and `windows` are records: the requests that the channel has taken, in
this order, and what became of them. -/
structure State (E : Type) where
  now : ℕ := 0
  calls : List (Call E) := []
  channel : List Msg := []
  stage : Stage E := .receiving
  /-- Every sender is gone. -/
  closed : Bool := false
  accepted : List Msg := []
  flushes : List (Flush E) := []
  windows : List Window := []

/-- Call `k` is replaced. -/
def State.put (s : State E) (k : ℕ) (c : Call E) : State E := { s with calls := s.calls.set k c }

/-- `done.send`, for each of these requests of a batch. -/
def deliver (batch : List Msg) (g : Slot E → Except E Unit) (calls : List (Call E)) :
    List (Slot E) → List (Call E)
  | [] => calls
  | r :: slots =>
    match batch[r.done]? with
    | some m => deliver batch g (calls.modify m.done fun c => { c with slot := some (g r) }) slots
    | none => deliver batch g calls slots

/-- The steps. -/
inductive Label (E : Type)
  | time (d : ℕ)
  | submit (req : AckReq)
  | send (k : ℕ)
  | await (k : ℕ)
  /-- The future of a call is dropped. -/
  | abandon (k : ℕ)
  /-- The last `AckBufs` is dropped. -/
  | close
  | recv
  /-- A further `recv`, under the deadline. -/
  | more
  /-- Collecting ends. -/
  | flush
  /-- The pipeline of the writes is answered. -/
  | wrote (write : Except E (List (Except E Unit)))
  /-- The pipeline of the acks is answered. -/
  | acked (ack : Except E Unit)

/-- A step of `submit` after its answer. -/
def settle (s : State E) (k : ℕ) (c : Call E) : Option (State E) :=
  match c.slot with
  | some (.ok ()) => some (s.put k { c with phase := .returned (.ok ()) })
  | some (.error e) => some (s.put k { c with phase := .returned (.error (.flushFailed e)) })
  | none =>
    if s.channel.any (·.done == k) || s.stage.holds k then none
    else some (s.put k { c with phase := .returned (.error .droppedUnanswered) })

/-- The steps of a call. A call borrows its `AckBufs`, so the buffer is closed after the last of them. -/
def stepCall (p : Params) (s : State E) (k : ℕ) (c : Call E) : Label E → Option (State E)
  | .send _ =>
    match c.phase, s.stage with
    | .sending, .exited => some (s.put k { c with phase := .returned (.error .flusherGone) })
    | .sending, _ =>
      if s.channel.length < p.capacity then
        some { s.put k { c with phase := .waiting } with
          channel := s.channel ++ [⟨k, c.req⟩]
          accepted := s.accepted ++ [⟨k, c.req⟩] }
      else none
    | _, _ => none
  | .await _ =>
    match c.phase with
    | .waiting => settle s k c
    | _ => none
  | .abandon _ => if c.phase.live then some (s.put k { c with phase := .gone }) else none
  | _ => none

/-- The steps of the flusher. With the timer and a request both ready, either may be taken. -/
def stepFlusher (p : Params) (s : State E) : Label E → Option (State E)
  | .recv =>
    match s.stage, s.channel with
    | .receiving, m :: channel =>
      some { s with stage := .collecting [m] s.now (s.now + p.flushMs), channel := channel }
    | .receiving, [] => if s.closed then some { s with stage := .exited } else none
    | _, _ => none
  | .more =>
    match s.stage, s.channel with
    | .collecting batch since deadline, m :: channel =>
      if batch.length < p.maxBatch then
        some { s with stage := .collecting (batch ++ [m]) since deadline, channel := channel }
      else none
    | _, _ => none
  | .flush =>
    match s.stage with
    | .collecting batch since deadline =>
      if p.maxBatch ≤ batch.length ∨ deadline ≤ s.now ∨ (s.closed ∧ s.channel.isEmpty) then
        some { s with
          stage := .writing batch
          windows := s.windows ++ [⟨batch.length, since, s.now, s.closed⟩] }
      else none
    | _ => none
  | .wrote write =>
    match s.stage with
    | .writing batch =>
      -- a pipeline that is answered has one reply for each command
      if ∀ replies ∈ write.toOption, replies.length = (batch.flatMap (·.req.extra)).length then
        let f : Flush E := { batch := batch, write := write }
        let written := f.slots.filter fun r => isOk r.outcome
        some { s with
          stage := if written.isEmpty then .receiving else .acking batch written
          calls := deliver batch Slot.outcome s.calls (f.slots.filter fun r => !isOk r.outcome)
          flushes := s.flushes ++ [f] }
      else none
    | _ => none
  | .acked ack =>
    match s.stage with
    | .acking batch written =>
      some { s with
        stage := .receiving
        calls := deliver batch (fun _ => ack) s.calls written
        flushes := s.flushes.modifyLast fun f => { f with ack := some ack } }
    | _ => none
  | _ => none

/-- One step. -/
def step (p : Params) (s : State E) : Label E → Option (State E)
  | .time d => some { s with now := s.now + d }
  | .submit req => if s.closed then none else some { s with calls := s.calls ++ [{ req := req }] }
  | .close => if s.closed || s.calls.any (·.phase.live) then none else some { s with closed := true }
  | .send k => (s.calls[k]?).bind fun c => stepCall p s k c (.send k)
  | .await k => (s.calls[k]?).bind fun c => stepCall p s k c (.await k)
  | .abandon k => (s.calls[k]?).bind fun c => stepCall p s k c (.abandon k)
  | l => stepFlusher p s l

/-- The runs of a buffer. -/
def system (p : Params) : System (State E) (Label E) where
  init s := ∃ now, s = { now := now }
  step := step p

/-! ### Answers -/

section Deliver

variable {batch : List Msg} {g : Slot E → Except E Unit} {calls : List (Call E)} {slots : List (Slot E)}

/-- Who waits where is left alone. -/
theorem map_deliver (batch : List Msg) (g : Slot E → Except E Unit) (calls : List (Call E))
    (slots : List (Slot E)) :
    (deliver batch g calls slots).map (fun c => (c.req, c.phase)) = calls.map fun c => (c.req, c.phase) := by
  induction slots generalizing calls with
  | nil => rfl
  | cons r slots ih =>
    unfold deliver
    split
    · rw [ih]
      refine List.ext_getElem? fun k => ?_
      simp only [List.getElem?_map, List.getElem?_modify]
      split_ifs <;> simp [Function.comp_def]
    · exact ih calls

theorem deliver_of_forall_ne {k : ℕ} (calls : List (Call E))
    (h : ∀ r ∈ slots, ∀ m, batch[r.done]? = some m → m.done ≠ k) :
    (deliver batch g calls slots)[k]? = calls[k]? := by
  induction slots generalizing calls with
  | nil => rfl
  | cons r slots ih =>
    have hrest := fun calls => ih calls fun r hr => h r (List.mem_cons_of_mem _ hr)
    unfold deliver
    split
    · next m hm =>
      rw [hrest, List.getElem?_modify_ne _ _ (h r List.mem_cons_self m hm)]
    · exact hrest calls

/-- Different requests of a batch have different callers. -/
theorem index_eq (hbatch : (batch.map Msg.done).Nodup) {i j : ℕ} {m m' : Msg} (hm : batch[i]? = some m)
    (hm' : batch[j]? = some m') (h : m.done = m'.done) : i = j := by
  have hi : (batch.map Msg.done)[i]? = some m.done := by rw [List.getElem?_map, hm]; rfl
  have hj : (batch.map Msg.done)[j]? = some m.done := by rw [List.getElem?_map, hm', h]; rfl
  obtain ⟨hlt, hi⟩ := List.getElem?_eq_some_iff.1 hi
  obtain ⟨hlt', hj⟩ := List.getElem?_eq_some_iff.1 hj
  exact (hbatch.getElem_inj_iff).1 (hi.trans hj.symm)

theorem deliver_of_mem (hbatch : (batch.map Msg.done).Nodup) (hslots : (slots.map Slot.done).Nodup)
    {r : Slot E} (hr : r ∈ slots) {m : Msg} (hm : batch[r.done]? = some m) (calls : List (Call E)) :
    (deliver batch g calls slots)[m.done]? =
      (calls[m.done]?).map fun c => { c with slot := some (g r) } := by
  induction slots generalizing calls with
  | nil => exact absurd hr List.not_mem_nil
  | cons r' slots ih =>
    obtain ⟨hne, hslots⟩ := List.nodup_cons.1 hslots
    unfold deliver
    rcases List.mem_cons.1 hr with rfl | hr
    · rw [hm, deliver_of_forall_ne, List.getElem?_modify_eq]
      · rfl
      · -- the others answer other requests
        intro r' hr' m' hm' hdone
        have hindex := index_eq hbatch hm' hm hdone
        exact hne (hindex ▸ List.mem_map_of_mem hr')
    · split
      · next m' hm' =>
        have hdone : m'.done ≠ m.done := fun hdone =>
          hne (index_eq hbatch hm' hm hdone ▸ List.mem_map_of_mem hr)
        rw [ih hslots hr, List.getElem?_modify_ne _ _ hdone]
      · exact ih hslots hr calls

/-- What the answers do to a call. -/
theorem deliver_cases (hbatch : (batch.map Msg.done).Nodup) (hslots : (slots.map Slot.done).Nodup) {j : ℕ}
    {d : Call E} (hd : (deliver batch g calls slots)[j]? = some d) :
    (calls[j]? = some d ∧ ∀ r ∈ slots, ∀ m, batch[r.done]? = some m → m.done ≠ j) ∨
      ∃ r ∈ slots, ∃ m c, batch[r.done]? = some m ∧ m.done = j ∧ calls[j]? = some c ∧
        d = { c with slot := some (g r) } := by
  by_cases h : ∀ r ∈ slots, ∀ m, batch[r.done]? = some m → m.done ≠ j
  · rw [deliver_of_forall_ne calls h] at hd
    exact .inl ⟨hd, h⟩
  · push Not at h
    obtain ⟨r, hr, m, hm, rfl⟩ := h
    rw [deliver_of_mem hbatch hslots hr hm] at hd
    obtain ⟨c, hc, rfl⟩ := Option.map_eq_some_iff.1 hd
    exact .inr ⟨r, hr, m, c, hm, rfl, hc, rfl⟩

theorem exists_deliver {j : ℕ} {c : Call E} (hc : calls[j]? = some c) :
    ∃ d, (deliver batch g calls slots)[j]? = some d ∧ d.req = c.req ∧ d.phase = c.phase := by
  have hmap := congrArg (·[j]?) (map_deliver batch g calls slots)
  simp only [List.getElem?_map, hc] at hmap
  obtain ⟨d, hd, heq⟩ := Option.map_eq_some_iff.1 hmap
  exact ⟨d, hd, (Prod.mk.inj heq).1, (Prod.mk.inj heq).2⟩

end Deliver

/-- The replies that a flush got are as many as its commands. -/
def Flush.Replied (f : Flush E) : Prop :=
  ∀ replies, f.write = .ok replies → replies.length = ((f.batch.map Msg.req).flatMap (·.extra)).length

section Slots

variable {f : Flush E} {i : ℕ}

theorem Flush.Replied.numbered (h : f.Replied) :
    Numbered 0 (f.batch.map Msg.req) (Cauli.wrote (f.batch.map Msg.req) f.write) f.slots :=
  numbered_afterWrites _ _ h

theorem Flush.Replied.nodup (h : f.Replied) (q : Slot E → Bool) :
    ((f.slots.filter q).map Slot.done).Nodup := by
  refine List.Nodup.sublist (List.filter_sublist.map _) ?_
  rw [h.numbered.done]
  exact List.nodup_range'

/-- Slot `i` is that of request `i`. -/
theorem Flush.Replied.slot (h : f.Replied) (hi : i < f.batch.length) :
    ∃ r, f.slots[i]? = some r ∧ r.done = i := by
  have hlen : f.slots.length = f.batch.length := by rw [h.numbered.length_eq, List.length_map]
  have hr := List.getElem?_eq_getElem (hlen ▸ hi : i < f.slots.length)
  refine ⟨_, hr, ?_⟩
  have hdone := congrArg (·[i]?) h.numbered.done
  simpa [hr, hi] using hdone

theorem Flush.Replied.index (h : f.Replied) {r : Slot E} (hr : r ∈ f.slots) : f.slots[r.done]? = some r := by
  obtain ⟨j, hj, rfl⟩ := List.getElem_of_mem hr
  have hlen : f.slots.length = f.batch.length := by rw [h.numbered.length_eq, List.length_map]
  obtain ⟨r, hr, hdone⟩ := h.slot (hlen ▸ hj)
  rw [List.getElem?_eq_getElem hj, Option.some.injEq] at hr
  rw [hr, hdone, List.getElem?_eq_getElem hj, hr]

end Slots

/-! ### The invariant -/

/-- Every request of a flush is answered. -/
def Flush.Done (f : Flush E) : Prop := ∀ i < f.batch.length, (f.answer i).isSome

/-- Where the flusher is, against the flushes so far. -/
def StageOk (p : Params) (s : State E) : Prop :=
  match s.stage with
  | .receiving => ∀ f ∈ s.flushes, f.Done
  | .collecting batch since deadline =>
    (∀ f ∈ s.flushes, f.Done) ∧ batch ≠ [] ∧ batch.length ≤ p.maxBatch ∧ deadline = since + p.flushMs
  | .writing _ => ∀ f ∈ s.flushes, f.Done
  | .acking batch written =>
    ∃ fs f, s.flushes = fs ++ [f] ∧ f.batch = batch ∧ f.ack = none ∧ f.Replied ∧
      written = (f.slots.filter fun r => isOk r.outcome) ∧ ∀ f ∈ fs, f.Done
  | .exited => (∀ f ∈ s.flushes, f.Done) ∧ s.closed = true ∧ s.channel = []

/-- What holds of a window: it is not empty, and it ends early only if it is full or nobody is left. -/
structure WindowOk (p : Params) (w : Window) : Prop where
  pos : 1 ≤ w.size
  le : w.size ≤ p.maxBatch
  ended : w.size = p.maxBatch ∨ w.since + p.flushMs ≤ w.ended ∨ w.closed = true

/-- The batch that is being written. -/
def Stage.written : Stage E → List ℕ
  | .writing batch => [batch.length]
  | _ => []

/-- What holds of call `k`, when these requests are in the channel and these in a flush. -/
structure CallOk (accepted flushed : List Msg) (k : ℕ) (c : Call E) : Prop where
  waiting : c.phase = .waiting → k ∈ accepted.map Msg.done
  returned : ∀ r, c.phase = .returned r → ∃ o, c.slot = some o ∧ r = o.mapError .flushFailed
  unanswered : k ∉ flushed.map Msg.done → c.slot = none

/-- **What holds of the buffer.** -/
structure BufferOk (p : Params) (s : State E) : Prop where
  order : s.flushes.flatMap Flush.batch ++ s.stage.hand ++ s.channel = s.accepted
  distinct : (s.accepted.map Msg.done).Nodup
  accepted : ∀ m ∈ s.accepted, ∃ c, s.calls[m.done]? = some c ∧ c.req = m.req ∧ c.phase ≠ .sending
  calls : ∀ k c, s.calls[k]? = some c → CallOk s.accepted (s.flushes.flatMap Flush.batch) k c
  answered : ∀ f ∈ s.flushes, ∀ i m c, f.batch[i]? = some m → s.calls[m.done]? = some c →
    c.slot = f.answer i
  replied : ∀ f ∈ s.flushes, f.Replied
  stage : StageOk p s
  closed : s.closed = true → ∀ c ∈ s.calls, c.phase.live = false
  room : s.channel.length ≤ p.capacity
  sizes : s.windows.map Window.size = s.flushes.map (·.batch.length) ++ s.stage.written
  windows : ∀ w ∈ s.windows, WindowOk p w

section Invariant

variable {p : Params} {s s' : State E} {k : ℕ} {c c' : Call E}

theorem BufferOk.init (now : ℕ) : BufferOk p ({ now := now } : State E) := by
  constructor <;> simp [Stage.hand, StageOk, Stage.written]

theorem BufferOk.time (h : BufferOk p s) (d : ℕ) : BufferOk p { s with now := s.now + d } :=
  ⟨h.order, h.distinct, h.accepted, h.calls, h.answered, h.replied, h.stage, h.closed, h.room, h.sizes,
    h.windows⟩

/-- The number of a new call is in no request. -/
theorem BufferOk.lt_length (h : BufferOk p s) {m : Msg} (hm : m ∈ s.accepted) :
    m.done < s.calls.length := by
  obtain ⟨c, hc, -⟩ := h.accepted m hm
  exact (List.getElem?_eq_some_iff.1 hc).1

theorem BufferOk.mem_accepted (h : BufferOk p s) {m : Msg} (hm : m ∈ s.flushes.flatMap Flush.batch) :
    m ∈ s.accepted := by
  rw [← h.order, List.append_assoc]
  exact List.mem_append_left _ hm

theorem BufferOk.submit (h : BufferOk p s) (hopen : s.closed = false) (req : AckReq) :
    BufferOk p { s with calls := s.calls ++ [{ req := req }] } := by
  have hold : ∀ {m}, m ∈ s.accepted → (s.calls ++ [{ req := req }])[m.done]? = s.calls[m.done]? :=
    fun hm => List.getElem?_append_left (h.lt_length hm)
  refine ⟨h.order, h.distinct, fun m hm => ?_, fun k c hc => ?_, fun f hf i m c hm hc => ?_, h.replied,
    h.stage, ?_, h.room, h.sizes, h.windows⟩
  · rw [hold hm]
    exact h.accepted m hm
  · rcases Parties.getElem?_concat_eq_some.1 hc with hc | ⟨-, rfl⟩
    · exact h.calls k c hc
    · exact ⟨nofun, nofun, fun _ => rfl⟩
  · rw [hold (h.mem_accepted (List.mem_flatMap.2 ⟨f, hf, List.mem_of_getElem? hm⟩))] at hc
    exact h.answered f hf i m c hm hc
  · intro hclosed
    rw [show s.closed = false from hopen] at hclosed
    cases hclosed

theorem BufferOk.close (h : BufferOk p s) (hlive : ∀ c ∈ s.calls, c.phase.live = false) :
    BufferOk p { s with closed := true } := by
  refine ⟨h.order, h.distinct, h.accepted, h.calls, h.answered, h.replied, ?_, fun _ => hlive, h.room,
    h.sizes, h.windows⟩
  have hstage := h.stage
  unfold StageOk at hstage ⊢
  split at hstage <;> simp_all

/-- A call moves on and its channels stay as they are. -/
theorem BufferOk.put (h : BufferOk p s) (hc : s.calls[k]? = some c) (hreq : c'.req = c.req)
    (hslot : c'.slot = c.slot) (hphase : c'.phase ≠ .sending) (hlive : c'.phase.live = false)
    (hreturned : ∀ r, c'.phase = .returned r → ∃ o, c.slot = some o ∧ r = o.mapError .flushFailed) :
    BufferOk p (s.put k c') := by
  have hlt := (List.getElem?_eq_some_iff.1 hc).1
  -- any call after the step is like the one before it
  have hget : ∀ j d, (s.calls.set k c')[j]? = some d → (j = k ∧ d = c') ∨ s.calls[j]? = some d := by
    intro j d hd
    by_cases hjk : j = k
    · subst hjk
      rw [List.getElem?_set_self hlt, Option.some.injEq] at hd
      exact .inl ⟨rfl, hd.symm⟩
    · rw [List.getElem?_set_ne (Ne.symm hjk)] at hd
      exact .inr hd
  refine ⟨h.order, h.distinct, fun m hm => ?_, fun j d hd => ?_, fun f hf i m d hm hd => ?_, h.replied,
    h.stage, fun hclosed d hd => ?_, h.room, h.sizes, h.windows⟩
  · obtain ⟨d, hd, hdreq, hdphase⟩ := h.accepted m hm
    by_cases hjk : m.done = k
    · rw [hjk, hc, Option.some.injEq] at hd
      exact ⟨c', by rw [hjk]; exact List.getElem?_set_self hlt, by rw [hreq, hd, hdreq], hphase⟩
    · exact ⟨d, by rw [← hd]; exact List.getElem?_set_ne (Ne.symm hjk), hdreq, hdphase⟩
  · rcases hget j d hd with ⟨rfl, rfl⟩ | hd
    · refine ⟨fun hwaiting => ?_, ?_, ?_⟩
      · rw [hwaiting] at hlive
        cases hlive
      · rw [hslot]
        exact hreturned
      · rw [hslot]
        exact (h.calls j c hc).unanswered
    · exact h.calls j d hd
  · rcases hget m.done d hd with ⟨hk, rfl⟩ | hd
    · rw [hslot]
      exact h.answered f hf i m c hm (hk ▸ hc)
    · exact h.answered f hf i m d hm hd
  · rcases List.mem_or_eq_of_mem_set hd with hd | rfl
    · exact h.closed hclosed d hd
    · exact hlive

theorem CallOk.mono {accepted accepted' flushed : List Msg} (h : CallOk accepted flushed k c)
    (hsub : accepted ⊆ accepted') : CallOk accepted' flushed k c :=
  ⟨fun hwaiting => List.map_subset _ hsub (h.waiting hwaiting), h.returned, h.unanswered⟩

/-- The channel takes a request. -/
theorem BufferOk.send (h : BufferOk p s) (hc : s.calls[k]? = some c) (hphase : c.phase = .sending)
    (hstage : StageOk p { s with channel := s.channel ++ [⟨k, c.req⟩] })
    (hroom : s.channel.length < p.capacity) :
    BufferOk p { s.put k { c with phase := .waiting } with
      channel := s.channel ++ [⟨k, c.req⟩]
      accepted := s.accepted ++ [⟨k, c.req⟩] } := by
  have hlt := (List.getElem?_eq_some_iff.1 hc).1
  have hnew : k ∉ s.accepted.map Msg.done := by
    intro hmem
    obtain ⟨m, hm, rfl⟩ := List.mem_map.1 hmem
    obtain ⟨d, hd, -, hsending⟩ := h.accepted m hm
    rw [hc, Option.some.injEq] at hd
    exact hsending (hd ▸ hphase)
  have hne : ∀ m ∈ s.accepted, k ≠ m.done := fun m hm hk => hnew (hk ▸ List.mem_map_of_mem hm)
  refine ⟨?_, ?_, fun m hm => ?_, fun j d hd => ?_, fun f hf i m d hm hd => ?_, h.replied, hstage,
    fun hclosed d hd => ?_, ?_, h.sizes, h.windows⟩
  · show _ ++ (s.channel ++ [_]) = _
    rw [← List.append_assoc]
    exact congrArg (· ++ _) h.order
  · rw [List.map_append, List.map_singleton]
    exact List.nodup_append_comm.2 (List.nodup_cons.2 ⟨hnew, h.distinct⟩)
  · rcases List.mem_append.1 hm with hm | hm
    · obtain ⟨d, hd, hrest⟩ := h.accepted m hm
      exact ⟨d, by rw [← hd]; exact List.getElem?_set_ne (hne m hm), hrest⟩
    · obtain rfl := List.mem_singleton.1 hm
      exact ⟨{ c with phase := .waiting }, List.getElem?_set_self hlt, rfl, nofun⟩
  · by_cases hjk : j = k
    · subst hjk
      obtain rfl : { c with phase := .waiting } = d :=
        Option.some.inj ((List.getElem?_set_self hlt).symm.trans hd)
      exact ⟨fun _ => by simp, nofun, (h.calls j c hc).unanswered⟩
    · have hold : s.calls[j]? = some d := (List.getElem?_set_ne (Ne.symm hjk)).symm.trans hd
      exact (h.calls j d hold).mono (List.subset_append_left _ _)
  · have hm' := h.mem_accepted (List.mem_flatMap.2 ⟨f, hf, List.mem_of_getElem? hm⟩)
    exact h.answered f hf i m d hm ((List.getElem?_set_ne (hne m hm')).symm.trans hd)
  · have := h.closed hclosed c (List.mem_of_getElem? hc)
    rw [hphase] at this
    cases this
  · simpa using Nat.succ_le_of_lt hroom

/-- The flusher takes requests from the channel, or stops collecting. -/
theorem BufferOk.move (h : BufferOk p s) {stage : Stage E} {channel : List Msg} {windows : List Window}
    (horder : stage.hand ++ channel = s.stage.hand ++ s.channel)
    (hstage : StageOk p { s with stage := stage, channel := channel, windows := windows })
    (hroom : channel.length ≤ s.channel.length)
    (hsizes : windows.map Window.size = s.flushes.map (·.batch.length) ++ stage.written)
    (hwindows : ∀ w ∈ windows, WindowOk p w) :
    BufferOk p { s with stage := stage, channel := channel, windows := windows } := by
  refine ⟨?_, h.distinct, h.accepted, h.calls, h.answered, h.replied, hstage, h.closed,
    hroom.trans h.room, hsizes, hwindows⟩
  show _ ++ stage.hand ++ channel = _
  rw [List.append_assoc, horder, ← List.append_assoc]
  exact h.order

/-- A request that a flush has refused or settled is answered. -/
theorem Flush.Replied.done {f : Flush E} (h : f.Replied)
    (hack : f.ack.isSome ∨ f.slots.filter (fun r => isOk r.outcome) = []) : f.Done := by
  intro i hi
  obtain ⟨r, hr, -⟩ := h.slot hi
  rw [Flush.answer, hr, Option.bind_some]
  split_ifs with hok
  · rcases hack with hack | hnone
    · exact hack
    · have hmem : r ∈ f.slots.filter fun r => isOk r.outcome :=
        List.mem_filter.2 ⟨List.mem_of_getElem? hr, hok⟩
      rw [hnone] at hmem
      cases hmem
  · rfl

/-- Calls are answered that were not answered before. -/
theorem BufferOk.answer (h : BufferOk p s) {batch : List Msg} {g : Slot E → Except E Unit}
    {slots : List (Slot E)} {stage : Stage E} {flushes : List (Flush E)}
    (hbatch : (batch.map Msg.done).Nodup) (hslots : (slots.map Slot.done).Nodup)
    (hnew : ∀ r ∈ slots, ∀ m c, batch[r.done]? = some m → s.calls[m.done]? = some c → c.slot = none)
    (hmem : batch ⊆ flushes.flatMap Flush.batch)
    (horder : flushes.flatMap Flush.batch = s.flushes.flatMap Flush.batch ++ s.stage.hand)
    (hhand : stage.hand = [])
    (hanswered : ∀ f ∈ flushes, ∀ i m c, f.batch[i]? = some m →
      (deliver batch g s.calls slots)[m.done]? = some c → c.slot = f.answer i)
    (hreplied : ∀ f ∈ flushes, f.Replied)
    (hstage : StageOk p { s with stage := stage, flushes := flushes })
    (hsizes : s.windows.map Window.size = flushes.map (·.batch.length) ++ stage.written) :
    BufferOk p { s with stage := stage, calls := deliver batch g s.calls slots, flushes := flushes } := by
  refine ⟨?_, h.distinct, fun m hm => ?_, fun j d hd => ?_, hanswered, hreplied, hstage,
    fun hclosed d hd => ?_, h.room, hsizes, h.windows⟩
  · rw [horder, hhand, List.append_nil]
    exact h.order
  · obtain ⟨c, hc, hreq, hphase⟩ := h.accepted m hm
    obtain ⟨d, hd, hdreq, hdphase⟩ := exists_deliver hc
    exact ⟨d, hd, hdreq.trans hreq, hdphase ▸ hphase⟩
  · rcases deliver_cases hbatch hslots hd with ⟨hd, -⟩ | ⟨r, hr, m, c, hm, rfl, hc, rfl⟩
    · have hok := h.calls j d hd
      refine ⟨hok.waiting, hok.returned, fun hj => hok.unanswered fun hmem => hj ?_⟩
      rw [horder, List.map_append]
      exact List.mem_append_left _ hmem
    · have hok := h.calls m.done c hc
      refine ⟨hok.waiting, fun r hreturned => ?_, fun hj => ?_⟩
      · obtain ⟨o, ho, -⟩ := hok.returned r hreturned
        rw [hnew _ hr m c hm hc] at ho
        cases ho
      · exact absurd (List.mem_map_of_mem (hmem (List.mem_of_getElem? hm))) hj
  · obtain ⟨j, hj⟩ := List.mem_iff_getElem?.1 hd
    rcases deliver_cases hbatch hslots hj with ⟨hc, -⟩ | ⟨r, -, m, c, -, -, hc, rfl⟩
    · exact h.closed hclosed d (List.mem_of_getElem? hc)
    · exact h.closed hclosed c (List.mem_of_getElem? hc)

/-- The requests of a flush, in a run where the channel takes each of them once. -/
theorem BufferOk.nodup_batch (h : BufferOk p s) {batch : List Msg} (hsub : batch.Sublist s.accepted) :
    (batch.map Msg.done).Nodup :=
  h.distinct.sublist (hsub.map _)

theorem BufferOk.nodup_flushed (h : BufferOk p s) :
    ((s.flushes.flatMap Flush.batch ++ s.stage.hand).map Msg.done).Nodup :=
  h.nodup_batch (h.order ▸ List.sublist_append_left _ _)

/-- The pipeline of the writes is answered. -/
theorem BufferOk.wrote (h : BufferOk p s) {batch : List Msg} (hs : s.stage = .writing batch)
    {f : Flush E} (hbatch : f.batch = batch) (hack : f.ack = none) (hf : f.Replied) :
    BufferOk p { s with
      stage := if (f.slots.filter fun r => isOk r.outcome).isEmpty then .receiving
        else .acking batch (f.slots.filter fun r => isOk r.outcome)
      calls := deliver batch Slot.outcome s.calls (f.slots.filter fun r => !isOk r.outcome)
      flushes := s.flushes ++ [f] } := by
  subst hbatch
  have hhand : s.stage.hand = f.batch := by rw [hs]; rfl
  have hflushed := h.nodup_flushed
  rw [hhand, List.map_append, List.nodup_append] at hflushed
  obtain ⟨-, hnodup, hdisjoint⟩ := hflushed
  have hnew : ∀ m c, m ∈ f.batch → s.calls[m.done]? = some c → c.slot = none := by
    intro m c hm hc
    refine (h.calls _ _ hc).unanswered fun hmem => ?_
    exact hdisjoint _ hmem _ (List.mem_map_of_mem hm) rfl
  have horder : (s.flushes ++ [f]).flatMap Flush.batch = s.flushes.flatMap Flush.batch ++ s.stage.hand := by
    rw [hhand, List.flatMap_append, List.flatMap_singleton]
  have hdone : ∀ f ∈ s.flushes, f.Done := by
    have hstage := h.stage
    rwa [StageOk, hs] at hstage
  have hsizes := h.sizes
  rw [hs] at hsizes
  refine h.answer hnodup (hf.nodup _) (fun r _ m c hm => hnew m c (List.mem_of_getElem? hm)) ?_ horder ?_
    (fun f' hf' i m c hm hc => ?_) ?_ ?_ ?_
  · rw [horder, hhand]
    exact List.subset_append_right _ _
  · split_ifs <;> rfl
  · rcases List.mem_append.1 hf' with hf' | hf'
    · -- the callers of the other flushes are left alone
      rcases deliver_cases hnodup (hf.nodup _) hc with ⟨hc, -⟩ | ⟨r, -, m', c', hm', hdone, -, -⟩
      · exact h.answered f' hf' i m c hm hc
      · refine absurd hdone.symm (hdisjoint _ (List.mem_map_of_mem (List.mem_flatMap.2 ⟨f', hf', ?_⟩)) _
          (List.mem_map_of_mem (List.mem_of_getElem? hm')))
        exact List.mem_of_getElem? hm
    · obtain rfl := List.mem_singleton.1 hf'
      obtain ⟨r, hr, hindex⟩ := hf.slot (List.getElem?_eq_some_iff.1 hm).1
      rw [Flush.answer, hr, Option.bind_some, hack]
      rcases deliver_cases hnodup (hf.nodup _) hc with ⟨hc, hothers⟩ | ⟨r', hr', m', c', hm', hdone, hc', rfl⟩
      · rw [hnew m c (List.mem_of_getElem? hm) hc, if_pos]
        by_contra hok
        have hmem : r ∈ f'.slots.filter fun r => !isOk r.outcome :=
          List.mem_filter.2 ⟨List.mem_of_getElem? hr, by simpa using hok⟩
        exact hothers r hmem m (hindex ▸ hm) rfl
      · obtain ⟨hmem, hrefused⟩ := List.mem_filter.1 hr'
        obtain rfl : r' = r := by
          have := hf.index hmem
          rw [index_eq hnodup hm' hm hdone, hr] at this
          exact (Option.some.inj this).symm
        rw [if_neg (by simpa using hrefused)]
  · intro f' hf'
    rcases List.mem_append.1 hf' with hf' | hf'
    · exact h.replied f' hf'
    · exact List.mem_singleton.1 hf' ▸ hf
  · unfold StageOk
    by_cases hnone : (f.slots.filter fun r => isOk r.outcome).isEmpty = true
    · simp only [hnone, if_true]
      intro f' hf'
      rcases List.mem_append.1 hf' with hf' | hf'
      · exact hdone f' hf'
      · exact List.mem_singleton.1 hf' ▸ hf.done (.inr (List.isEmpty_iff.1 hnone))
    · simp only [hnone]
      exact ⟨s.flushes, f, rfl, rfl, hack, hf, rfl, hdone⟩
  · rw [hsizes, List.map_append, List.map_singleton]
    split_ifs <;> simp [Stage.written]

/-- The pipeline of the acks is answered. -/
theorem BufferOk.acked (h : BufferOk p s) {fs : List (Flush E)} {f : Flush E}
    (hs : s.stage = .acking f.batch (f.slots.filter fun r => isOk r.outcome))
    (hflushes : s.flushes = fs ++ [f]) (hack : f.ack = none) (hf : f.Replied) (hdone : ∀ f ∈ fs, f.Done)
    (ack : Except E Unit) :
    BufferOk p { s with
      stage := .receiving
      calls := deliver f.batch (fun _ => ack) s.calls (f.slots.filter fun r => isOk r.outcome)
      flushes := fs ++ [{ f with ack := some ack }] } := by
  have hflushed := h.nodup_flushed
  rw [hflushes, List.flatMap_append, List.flatMap_singleton, List.append_assoc, List.map_append,
    List.nodup_append] at hflushed
  obtain ⟨-, hnodup, hdisjoint⟩ := hflushed
  rw [show s.stage.hand = [] by rw [hs]; rfl, List.append_nil] at hnodup hdisjoint
  have hold : ∀ i m c, f.batch[i]? = some m → s.calls[m.done]? = some c → c.slot = f.answer i :=
    h.answered f (by rw [hflushes]; simp)
  have horder : (fs ++ [{ f with ack := some ack }]).flatMap Flush.batch = s.flushes.flatMap Flush.batch := by
    rw [hflushes, List.flatMap_append, List.flatMap_append]
    rfl
  refine h.answer hnodup (hf.nodup _) (fun r hr m c hm hc => ?_) ?_ ?_ rfl (fun f' hf' i m c hm hc => ?_) ?_
    ?_ ?_
  · obtain ⟨hmem, hok⟩ := List.mem_filter.1 hr
    rw [hold _ m c hm hc, Flush.answer, hf.index hmem, Option.bind_some, if_pos hok, hack]
  · rw [horder, hflushes, List.flatMap_append, List.flatMap_singleton]
    exact List.subset_append_right _ _
  · rw [horder, show s.stage.hand = [] by rw [hs]; rfl, List.append_nil]
  · rcases List.mem_append.1 hf' with hf' | hf'
    · rcases deliver_cases hnodup (hf.nodup _) hc with ⟨hc, -⟩ | ⟨r, -, m', c', hm', hdone, -, -⟩
      · exact h.answered f' (by rw [hflushes]; exact List.mem_append_left _ hf') i m c hm hc
      · refine absurd hdone.symm (hdisjoint _ (List.mem_map_of_mem (List.mem_flatMap.2 ⟨f', hf', ?_⟩)) _
          (List.mem_map_of_mem (List.mem_of_getElem? hm')))
        exact List.mem_of_getElem? hm
    · obtain rfl := List.mem_singleton.1 hf'
      obtain ⟨r, hr, hindex⟩ := hf.slot (List.getElem?_eq_some_iff.1 hm).1
      have hr' : Flush.slots { f with ack := some ack } = f.slots := rfl
      rw [Flush.answer, hr', hr, Option.bind_some]
      rcases deliver_cases hnodup (hf.nodup _) hc with ⟨hc, hothers⟩ | ⟨r', hr', m', c', hm', hdone, hc', rfl⟩
      · -- not acked here, so it was refused before
        have hrefused : ¬isOk r.outcome = true := by
          intro hok
          have hmem : r ∈ f.slots.filter fun r => isOk r.outcome :=
            List.mem_filter.2 ⟨List.mem_of_getElem? hr, hok⟩
          exact hothers r hmem m (hindex ▸ hm) rfl
        rw [hold i m c hm hc, Flush.answer, hr, Option.bind_some, if_neg hrefused, if_neg hrefused]
      · obtain ⟨hmem, hok⟩ := List.mem_filter.1 hr'
        obtain rfl : r' = r := by
          have := hf.index hmem
          rw [index_eq hnodup hm' hm hdone, hr] at this
          exact (Option.some.inj this).symm
        rw [if_pos hok]
  · intro f' hf'
    rcases List.mem_append.1 hf' with hf' | hf'
    · exact h.replied f' (by rw [hflushes]; exact List.mem_append_left _ hf')
    · exact List.mem_singleton.1 hf' ▸ hf
  · intro f' hf'
    rcases List.mem_append.1 hf' with hf' | hf'
    · exact hdone f' hf'
    · have hreplied : Flush.Replied { f with ack := some ack } := hf
      exact List.mem_singleton.1 hf' ▸ hreplied.done (.inl rfl)
  · rw [h.sizes, hs, hflushes, List.map_append, List.map_append]
    rfl

/-- A caller that waits without an answer has its request in the channel or with the flusher. -/
theorem BufferOk.held (h : BufferOk p s) (hc : s.calls[k]? = some c) (hwaiting : c.phase = .waiting)
    (hslot : c.slot = none) : (s.channel.any (·.done == k) || s.stage.holds k) = true := by
  obtain ⟨m, hm, rfl⟩ := List.mem_map.1 ((h.calls k c hc).waiting hwaiting)
  rw [← h.order, List.append_assoc, List.mem_append, List.mem_append] at hm
  rw [Bool.or_eq_true]
  rcases hm with hm | hm | hm
  · obtain ⟨f, hf, hm⟩ := List.mem_flatMap.1 hm
    obtain ⟨i, hi⟩ := List.mem_iff_getElem?.1 hm
    have hlt := (List.getElem?_eq_some_iff.1 hi).1
    have hanswer := h.answered f hf i m c hi hc
    rw [hslot] at hanswer
    have hundone : ¬f.Done := fun hdone => by simpa [← hanswer] using hdone i hlt
    have hstage := h.stage
    unfold StageOk at hstage
    split at hstage
    · exact absurd (hstage f hf) hundone
    · exact absurd (hstage.1 f hf) hundone
    · exact absurd (hstage f hf) hundone
    · next batch written hacking =>
      obtain ⟨fs, f', hflushes, rfl, -, hreplied, rfl, hdone⟩ := hstage
      rw [hflushes, List.mem_append, List.mem_singleton] at hf
      rcases hf with hf | rfl
      · exact absurd (hdone f hf) hundone
      · obtain ⟨r, hr, hindex⟩ := hreplied.slot hlt
        have hok : isOk r.outcome = true := by
          by_contra hok
          rw [Flush.answer, hr, Option.bind_some, if_neg hok] at hanswer
          cases hanswer
        refine .inr ?_
        rw [hacking]
        simp only [Stage.holds, List.any_eq_true]
        exact ⟨r, List.mem_filter.2 ⟨List.mem_of_getElem? hr, hok⟩, by simp [hindex, hi]⟩
    · exact absurd (hstage.1 f hf) hundone
  · refine .inr ?_
    cases hs : s.stage with
    | collecting batch since deadline =>
      rw [hs] at hm
      exact List.any_eq_true.2 ⟨m, hm, by simp⟩
    | writing batch =>
      rw [hs] at hm
      exact List.any_eq_true.2 ⟨m, hm, by simp⟩
    | receiving => rw [hs] at hm; cases hm
    | acking batch written => rw [hs] at hm; cases hm
    | exited => rw [hs] at hm; cases hm
  · exact .inl (List.any_eq_true.2 ⟨m, hm, by simp⟩)

/-- A call gets what its own channel holds. -/
theorem BufferOk.settle (h : BufferOk p s) (hc : s.calls[k]? = some c) (hwaiting : c.phase = .waiting)
    (hs : Flusher.settle s k c = some s') : BufferOk p s' := by
  unfold Flusher.settle at hs
  split at hs
  · next hslot =>
    cases hs
    refine h.put hc rfl rfl nofun rfl fun r hr => ⟨_, hslot, ?_⟩
    cases hr
    rfl
  · next e hslot =>
    cases hs
    refine h.put hc rfl rfl nofun rfl fun r hr => ⟨_, hslot, ?_⟩
    cases hr
    rfl
  · next hslot =>
    rw [if_pos (h.held hc hwaiting hslot)] at hs
    cases hs

/-- A step of a call. -/
theorem BufferOk.step_call (h : BufferOk p s) {l : Label E} (hc : s.calls[k]? = some c)
    (hs : stepCall p s k c l = some s') : BufferOk p s' := by
  cases l with
  | send =>
    simp only [stepCall] at hs
    split at hs
    · next hphase hexited =>
      -- the flusher is gone only after the last call
      have hstage := h.stage
      rw [StageOk, hexited] at hstage
      have hlive := h.closed hstage.2.1 c (List.mem_of_getElem? hc)
      rw [hphase] at hlive
      cases hlive
    · next hphase hstage =>
      obtain ⟨hroom, hs⟩ := Option.ite_none_right_eq_some.1 hs
      cases hs
      refine h.send hc hphase ?_ hroom
      have hold := h.stage
      unfold StageOk at hold ⊢
      split at hold <;> simp_all
    · cases hs
  | await =>
    simp only [stepCall] at hs
    split at hs
    · next hphase => exact h.settle hc hphase hs
    · cases hs
  | abandon =>
    obtain ⟨-, hs⟩ := Option.ite_none_right_eq_some.1 hs
    cases hs
    exact h.put hc rfl rfl nofun rfl nofun
  | time | submit | close | recv | more | flush | wrote | acked => cases hs

/-- A step of the flusher. -/
theorem BufferOk.step_flusher (h : BufferOk p s) (hp : 1 ≤ p.maxBatch) {l : Label E}
    (hs : stepFlusher p s l = some s') : BufferOk p s' := by
  have hstage := h.stage
  have hsizes := h.sizes
  unfold StageOk at hstage
  cases l with
  | recv =>
    simp only [stepFlusher] at hs
    split at hs
    · next m channel hreceiving hchannel =>
      cases hs
      rw [hreceiving] at hstage hsizes
      refine h.move ?_ ⟨hstage, by simp, by simpa using hp, rfl⟩ (by simp [hchannel]) hsizes h.windows
      rw [hreceiving, hchannel]
      rfl
    · next hreceiving hchannel =>
      obtain ⟨hclosed, hs⟩ := Option.ite_none_right_eq_some.1 hs
      cases hs
      rw [hreceiving] at hstage hsizes
      refine h.move ?_ ⟨hstage, hclosed, hchannel⟩ le_rfl hsizes h.windows
      rw [hreceiving]
      rfl
    · cases hs
  | more =>
    simp only [stepFlusher] at hs
    split at hs
    · next batch since deadline m channel hcollecting hchannel =>
      obtain ⟨hroom, hs⟩ := Option.ite_none_right_eq_some.1 hs
      cases hs
      rw [hcollecting] at hstage hsizes
      refine h.move ?_ ⟨hstage.1, by simp, by simpa using Nat.succ_le_of_lt hroom, hstage.2.2.2⟩ (by simp [hchannel]) hsizes
        h.windows
      rw [hcollecting, hchannel]
      simp [Stage.hand]
    · cases hs
  | flush =>
    simp only [stepFlusher] at hs
    split at hs
    · next batch since deadline hcollecting =>
      obtain ⟨hended, hs⟩ := Option.ite_none_right_eq_some.1 hs
      cases hs
      rw [hcollecting] at hstage hsizes
      obtain ⟨hdone, hne, hle, hdeadline⟩ := hstage
      refine h.move ?_ hdone le_rfl ?_ fun w hw => ?_
      · rw [hcollecting]
        rfl
      · rw [List.map_append, hsizes]
        simp [Stage.written]
      · rcases List.mem_append.1 hw with hw | hw
        · exact h.windows w hw
        · obtain rfl := List.mem_singleton.1 hw
          refine ⟨List.length_pos_iff.2 hne, hle, ?_⟩
          rcases hended with hfull | hlate | hclosed
          · exact .inl (le_antisymm hle hfull)
          · exact .inr (.inl (hdeadline ▸ hlate))
          · exact .inr (.inr hclosed.1)
    · cases hs
  | wrote write =>
    simp only [stepFlusher] at hs
    split at hs
    · next batch hwriting =>
      obtain ⟨hreplies, hs⟩ := Option.ite_none_right_eq_some.1 hs
      cases hs
      refine h.wrote hwriting rfl rfl fun replies hok => ?_
      rw [hreplies replies (by rw [show write = .ok replies from hok]; rfl), List.flatMap_map]
    · cases hs
  | acked ack =>
    simp only [stepFlusher] at hs
    split at hs
    · next batch written hacking =>
      cases hs
      rw [hacking] at hstage
      obtain ⟨fs, f, hflushes, rfl, hack, hf, rfl, hdone⟩ := hstage
      rw [hflushes, List.modifyLast_concat]
      exact h.acked hacking hflushes hack hf hdone ack
    · cases hs
  | time | submit | close | send | await | abandon => cases hs

/-- **Every step keeps the invariant.** -/
theorem BufferOk.step (h : BufferOk p s) (hp : 1 ≤ p.maxBatch) {l : Label E}
    (hs : Flusher.step p s l = some s') : BufferOk p s' := by
  cases l with
  | time d =>
    cases hs
    exact h.time d
  | submit req =>
    obtain ⟨hopen, hs⟩ := Option.ite_none_left_eq_some.1 hs
    cases hs
    exact h.submit (by simpa using hopen) req
  | close =>
    obtain ⟨hlive, hs⟩ := Option.ite_none_left_eq_some.1 hs
    cases hs
    simp only [Bool.or_eq_true, List.any_eq_true, not_or, not_exists, not_and] at hlive
    exact h.close fun c hc => by simpa using hlive.2 c hc
  | send k =>
    obtain ⟨c, hc, hs⟩ := Option.bind_eq_some_iff.1 hs
    exact h.step_call hc hs
  | await k =>
    obtain ⟨c, hc, hs⟩ := Option.bind_eq_some_iff.1 hs
    exact h.step_call hc hs
  | abandon k =>
    obtain ⟨c, hc, hs⟩ := Option.bind_eq_some_iff.1 hs
    exact h.step_call hc hs
  | recv => exact h.step_flusher hp (l := .recv) hs
  | more => exact h.step_flusher hp (l := .more) hs
  | flush => exact h.step_flusher hp (l := .flush) hs
  | wrote write => exact h.step_flusher hp (l := .wrote write) hs
  | acked ack => exact h.step_flusher hp (l := .acked ack) hs

theorem BufferOk.of_reachable (hp : 1 ≤ p.maxBatch) (h : (system p).Reachable System.anyStep s) :
    BufferOk p s :=
  h.invariant (by rintro s ⟨now, rfl⟩; exact .init now) fun _ _ _ hs _ hstep => hs.step hp hstep

end Invariant

/-! ### Nobody waits for a step of another caller -/

/-- The steps of the clock, of the flusher and of Redis. -/
def flusherStep : State E → Label E → Prop
  | _, .time _ | _, .recv | _, .more | _, .flush | _, .wrote _ | _, .acked _ => True
  | _, _ => False

section Progress

variable {p : Params} {s s' : State E}

/-- The flusher leaves the callers where they are. -/
theorem map_phase_of_flusherStep (h : (system p).Reach flusherStep s s') :
    s'.calls.map (fun c => (c.req, c.phase)) = s.calls.map fun c => (c.req, c.phase) := by
  refine h.invariant (I := fun t : State E =>
    t.calls.map (fun c => (c.req, c.phase)) = s.calls.map fun c => (c.req, c.phase)) rfl ?_
  intro t l u ht hl hs
  rw [← ht]
  cases l with
  | time d => cases hs; rfl
  | recv =>
    simp only [system, step, stepFlusher] at hs
    split at hs
    · cases hs; rfl
    · obtain ⟨-, hs⟩ := Option.ite_none_right_eq_some.1 hs
      cases hs; rfl
    · cases hs
  | more =>
    simp only [system, step, stepFlusher] at hs
    split at hs
    · obtain ⟨-, hs⟩ := Option.ite_none_right_eq_some.1 hs
      cases hs; rfl
    · cases hs
  | flush =>
    simp only [system, step, stepFlusher] at hs
    split at hs
    · obtain ⟨-, hs⟩ := Option.ite_none_right_eq_some.1 hs
      cases hs; rfl
    · cases hs
  | wrote write =>
    simp only [system, step, stepFlusher] at hs
    split at hs
    · obtain ⟨-, hs⟩ := Option.ite_none_right_eq_some.1 hs
      cases hs
      exact map_deliver _ _ _ _
    · cases hs
  | acked ack =>
    simp only [system, step, stepFlusher] at hs
    split at hs
    · cases hs
      exact map_deliver _ _ _ _
    · cases hs
  | submit | close | send | await | abandon => exact hl.elim

/-- The flusher is back in its `recv`, with this in the channel. -/
def Back (p : Params) (s : State E) (channel : List Msg) : Prop :=
  ∃ s', (system p).Reach flusherStep s s' ∧ s'.stage = .receiving ∧ s'.channel = channel

theorem Back.of_step {l : Label E} {channel : List Msg} (hs : step p s l = some s')
    (hl : flusherStep s l) (h : Back p s' channel) : Back p s channel := by
  obtain ⟨t, ht, hstage, hchannel⟩ := h
  exact ⟨t, (System.Reach.refl.tail hl hs).trans ht, hstage, hchannel⟩

theorem back_of_receiving (h : s.stage = .receiving) : Back p s s.channel := ⟨s, .refl, h, rfl⟩

theorem back_of_acking {batch : List Msg} {written : List (Slot E)} (h : s.stage = .acking batch written) :
    Back p s s.channel := by
  have hs : step p s (.acked (.ok ())) = some { s with
      stage := .receiving
      calls := deliver batch (fun _ => .ok ()) s.calls written
      flushes := s.flushes.modifyLast fun f => { f with ack := some (.ok ()) } } := by
    simp [step, stepFlusher, h]
  exact .of_step hs trivial (back_of_receiving rfl)

/-- Redis answers that all is written. -/
theorem back_of_writing {batch : List Msg} (h : s.stage = .writing batch) : Back p s s.channel := by
  let n := (batch.flatMap (·.req.extra)).length
  let write : Except E (List (Except E Unit)) := .ok (List.replicate n (.ok ()))
  have hreplies : ∀ replies ∈ write.toOption, replies.length = n := by
    intro replies hmem
    obtain rfl : List.replicate n (.ok ()) = replies := by simpa [write, Except.toOption] using hmem
    exact List.length_replicate
  let f : Flush E := { batch := batch, write := write }
  have hs : step p s (.wrote write) = some { s with
      stage := if (f.slots.filter fun r => isOk r.outcome).isEmpty then .receiving
        else .acking batch (f.slots.filter fun r => isOk r.outcome)
      calls := deliver batch Slot.outcome s.calls (f.slots.filter fun r => !isOk r.outcome)
      flushes := s.flushes ++ [f] } := by
    simp only [step, stepFlusher, h]
    rw [if_pos hreplies]
  refine .of_step hs trivial ?_
  by_cases hnone : (f.slots.filter fun r => isOk r.outcome).isEmpty = true
  · exact back_of_receiving (if_pos hnone)
  · exact back_of_acking (if_neg hnone)

/-- The window passes. -/
theorem back_of_collecting {batch : List Msg} {since deadline : ℕ}
    (h : s.stage = .collecting batch since deadline) : Back p s s.channel := by
  let t : State E := { s with now := s.now + deadline }
  have ht : step p s (.time deadline) = some t := rfl
  have hs : step p t .flush = some { t with
      stage := .writing batch
      windows := s.windows ++ [⟨batch.length, since, t.now, s.closed⟩] } := by
    simp only [step, stepFlusher, t, h]
    rw [if_pos (.inr (.inl (Nat.le_add_left _ _)))]
  exact .of_step ht trivial (.of_step hs trivial (back_of_writing rfl))

theorem back_of_ne_exited (h : s.stage ≠ .exited) : Back p s s.channel := by
  cases hs : s.stage with
  | receiving => exact back_of_receiving hs
  | collecting batch since deadline => exact back_of_collecting hs
  | writing batch => exact back_of_writing hs
  | acking batch written => exact back_of_acking hs
  | exited => exact absurd hs h

/-- The flusher empties the channel. -/
theorem back_nil (h : s.stage = .receiving) : Back p s [] := by
  generalize hchannel : s.channel = channel
  induction channel generalizing s with
  | nil => exact hchannel ▸ back_of_receiving h
  | cons m channel ih =>
    let t : State E := { s with stage := .collecting [m] s.now (s.now + p.flushMs), channel := channel }
    have hs : step p s .recv = some t := by
      simp only [step, stepFlusher, h, hchannel, t]
    obtain ⟨u, hu, hstage, hrest⟩ := back_of_collecting (p := p) (s := t) rfl
    obtain ⟨v, hv, hback⟩ := ih hstage hrest
    exact .of_step hs trivial ⟨v, hu.trans hv, hback⟩

/-- A caller that waits is answered without a step of another caller. -/
theorem answered_alone (h : BufferOk p s) (hp : 1 ≤ p.maxBatch) {k : ℕ} {c : Call E}
    (hc : s.calls[k]? = some c) (hwaiting : c.phase = .waiting) :
    ∃ t u, (system p).Reach flusherStep s t ∧ step p t (.await k) = some u ∧
      ∃ d, u.calls[k]? = some d ∧ ∃ r, d.phase = .returned r := by
  have hrunning : s.stage ≠ .exited := by
    intro hexited
    have hstage := h.stage
    rw [StageOk, hexited] at hstage
    have hlive := h.closed hstage.2.1 c (List.mem_of_getElem? hc)
    rw [hwaiting] at hlive
    cases hlive
  obtain ⟨s₁, hs₁, hstage₁, -⟩ := back_of_ne_exited (p := p) hrunning
  obtain ⟨t, ht, hstage, hchannel⟩ := back_nil (p := p) hstage₁
  have hreach := hs₁.trans ht
  have hok : BufferOk p t := hreach.invariant h fun _ _ _ hs _ hstep => hs.step hp hstep
  have hphases := congrArg (·[k]?) (map_phase_of_flusherStep hreach)
  simp only [List.getElem?_map, hc, Option.map_some] at hphases
  obtain ⟨d, hd, heq⟩ := Option.map_eq_some_iff.1 hphases
  have hwaits : d.phase = .waiting := (Prod.mk.inj heq).2.trans hwaiting
  have hlt := (List.getElem?_eq_some_iff.1 hd).1
  cases hslot : d.slot with
  | none =>
    have hheld := hok.held hd hwaits hslot
    rw [hchannel, hstage] at hheld
    cases hheld
  | some o =>
    refine ⟨t, t.put k { d with phase := .returned (o.mapError .flushFailed) }, hreach, ?_, _,
      List.getElem?_set_self hlt, _, rfl⟩
    simp only [step, hd, Option.bind_some, stepCall, hwaits, settle, hslot]
    cases o <;> rfl

end Progress

/-- What a returned call got, in terms of its own commands and of the acks. -/
theorem answer_cases {f : Flush E} (hf : f.Replied) {i : ℕ} {o : Except E Unit}
    (ho : f.answer i = some o) :
    ((Cauli.wrote (f.batch.map Msg.req) f.write)[i]? = some true ∧ f.ack = some o) ∨
      ((Cauli.wrote (f.batch.map Msg.req) f.write)[i]? = some false ∧ ∃ e, o = .error e) := by
  obtain ⟨r, hr, ho⟩ := Option.bind_eq_some_iff.1 ho
  have hok : (Cauli.wrote (f.batch.map Msg.req) f.write)[i]? = some (isOk r.outcome) := by
    rw [← hf.numbered.oks, List.getElem?_map, hr]
    rfl
  rw [hok]
  split_ifs at ho with hwrote
  · exact .inl ⟨by rw [hwrote], ho⟩
  · refine .inr ⟨by simpa using hwrote, ?_⟩
    cases hout : r.outcome with
    | ok u => exact absurd (by rw [hout]; rfl) hwrote
    | error e => exact ⟨e, by rw [← Option.some.inj ho, hout]⟩

/-- The two steps of a flush answer as `flushBatch` does. -/
theorem answersTo_flush {f : Flush E} (hf : f.Replied) (queue : String) {ack : Except E Unit}
    (hack : f.ack = some ack) (i : ℕ) :
    answersTo i (flushBatch queue (f.batch.map Msg.req) f.write ack) = (f.answer i).toList := by
  rw [answersTo_flushBatch queue f.write ack i hf.numbered, Flush.answer, Flush.slots]
  cases (afterWrites (f.batch.map Msg.req) f.write)[i]? with
  | none => rfl
  | some r => by_cases hok : isOk r.outcome = true <;> simp [hok, hack]

/-- **Every completion is answered once, for itself.** In every run of the callers of a queue, its flusher
and Redis:
* the flushes so far, the batch in the making and the channel are together the requests that the channel
  took, in its order and without a repetition;
* a call that returns got the answer of the flush with its request: that of the acks if its own commands all
  succeeded, and an error of Redis if not; it never finds the flusher gone or its channel dropped;
* a flush that is over has answered like `flushBatch`;
* a batch has between one and `--ack-batch` requests, and it is smaller than that only after
  `--ack-flush-ms` or when nobody is left;
* a call that waits is answered by the flusher alone, without a step of another caller. -/
theorem submissions_answered (queue : String) (batch flushMs : ℕ) (s : State E)
    (h : (system (start queue batch flushMs)).Reachable System.anyStep s) :
    (s.flushes.flatMap Flush.batch ++ s.stage.hand ++ s.channel = s.accepted ∧
      (s.accepted.map Msg.done).Nodup ∧
      ∀ m ∈ s.accepted, ∃ c, s.calls[m.done]? = some c ∧ c.req = m.req) ∧
    (∀ (k : ℕ) (c : Call E) (r : Except (SubmitError E) Unit), s.calls[k]? = some c →
      c.phase = .returned r → ∃ f ∈ s.flushes, ∃ i : ℕ, f.batch[i]? = some ⟨k, c.req⟩ ∧
        (((wrote (f.batch.map Msg.req) f.write)[i]? = some true ∧
            ∃ ack, f.ack = some ack ∧ r = ack.mapError .flushFailed) ∨
          ((wrote (f.batch.map Msg.req) f.write)[i]? = some false ∧
            ∃ e, r = .error (.flushFailed e)))) ∧
    (∀ f ∈ s.flushes, ∀ ack, f.ack = some ack → ∀ i,
      answersTo i (flushBatch queue (f.batch.map Msg.req) f.write ack) = (f.answer i).toList) ∧
    (s.windows.map Window.size = s.flushes.map (·.batch.length) ++ s.stage.written ∧
      ∀ w ∈ s.windows, 1 ≤ w.size ∧ w.size ≤ max batch 1 ∧
        (w.size = max batch 1 ∨ w.since + flushMs ≤ w.ended ∨ w.closed = true)) ∧
    ∀ (k : ℕ) (c : Call E), s.calls[k]? = some c → c.phase = .waiting →
      ∃ t u, (system (start queue batch flushMs)).Reach flusherStep s t ∧
        step (start queue batch flushMs) t (.await k) = some u ∧
        ∃ d, u.calls[k]? = some d ∧ ∃ r, d.phase = .returned r := by
  have hp : 1 ≤ (start queue batch flushMs).maxBatch := le_max_right _ _
  have hok := BufferOk.of_reachable hp h
  refine ⟨⟨hok.order, hok.distinct, fun m hm => ?_⟩, fun k c r hc hr => ?_,
    fun f hf ack hack i => answersTo_flush (hok.replied f hf) queue hack i, ⟨hok.sizes, fun w hw => ?_⟩,
    fun k c hc hwaiting => answered_alone hok hp hc hwaiting⟩
  · obtain ⟨c, hc, hreq, -⟩ := hok.accepted m hm
    exact ⟨c, hc, hreq⟩
  · obtain ⟨o, ho, rfl⟩ := (hok.calls k c hc).returned r hr
    have hflushed : k ∈ (s.flushes.flatMap Flush.batch).map Msg.done := by
      by_contra hnone
      rw [(hok.calls k c hc).unanswered hnone] at ho
      cases ho
    obtain ⟨m, hm, rfl⟩ := List.mem_map.1 hflushed
    obtain ⟨f, hf, hm'⟩ := List.mem_flatMap.1 hm
    obtain ⟨i, hi⟩ := List.mem_iff_getElem?.1 hm'
    have hreq : c.req = m.req := by
      obtain ⟨c', hc', hreq, -⟩ := hok.accepted m (hok.mem_accepted hm)
      rw [hc, Option.some.injEq] at hc'
      rw [hc', hreq]
    refine ⟨f, hf, i, by rw [hi, hreq], ?_⟩
    rw [hok.answered f hf i m c hi hc] at ho
    rcases answer_cases (hok.replied f hf) ho with ⟨hwrote, hack⟩ | ⟨hwrote, e, rfl⟩
    · exact .inl ⟨hwrote, o, hack, rfl⟩
    · exact .inr ⟨hwrote, e, rfl⟩
  · have hw := hok.windows w hw
    exact ⟨hw.pos, hw.le, hw.ended⟩

/-- Three completions: the ZADD of the first is refused, and the third is in a flush of its own. -/
def threeCompletions : List (Label String) :=
  [.submit ⟨"1-0", [["ZADD", "cauli:delayed:q", "1", "a"]]⟩, .submit ⟨"2-0", []⟩, .submit ⟨"3-0", []⟩, .send 1,
    .send 0, .recv, .more, .flush, .send 2, .wrote (.ok [.error "OOM"]), .await 0, .acked (.ok ()), .recv,
    .await 1, .time 10, .flush, .wrote (.ok []), .acked (.error "gone"), .await 2]

/-- The state after `threeCompletions`, with batches of two and a window of ten milliseconds. -/
def allReturned : State String :=
  ((system (start "q" 2 10)).run {} threeCompletions).getD {}

theorem submissions_answered_allReturned :
    allReturned.accepted.map Msg.done = [1, 0, 2] ∧
      allReturned.windows = [⟨2, 0, 0, false⟩, ⟨1, 0, 10, false⟩] ∧
      ∃ f ∈ allReturned.flushes, ∃ i : ℕ, f.batch[i]? = some ⟨1, ⟨"2-0", []⟩⟩ ∧
        (wrote (f.batch.map Msg.req) f.write)[i]? = some true ∧ f.ack = some (.ok ()) := by
  have hreach : (system (start "q" 2 10)).Reachable System.anyStep allReturned :=
    System.reachable_getD ⟨0, rfl⟩ (fun _ _ _ => trivial) (by rfl)
  obtain ⟨-, hreturned, -, -, -⟩ := submissions_answered "q" 2 10 allReturned hreach
  obtain ⟨f, hf, i, hi, ⟨hwrote, ack, hack, hr⟩ | ⟨-, e, he⟩⟩ :=
    hreturned 1 ⟨⟨"2-0", []⟩, .returned (.ok ()), some (.ok ())⟩ _ rfl rfl
  · refine ⟨rfl, rfl, f, hf, i, hi, hwrote, ?_⟩
    cases ack with
    | ok u => exact hack
    | error e => cases hr
  · cases he

end Cauli.Flusher
