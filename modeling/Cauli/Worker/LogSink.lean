import Mathlib.Algebra.GroupWithZero.Nat
import Mathlib.Data.List.Nodup
import Mathlib.Order.Nat
import Mathlib.Tactic.SplitIfs
import Cauli.Lib.Parties
import Cauli.Lib.Transition

/-!
# The log sink (`worker/src/logsink.rs`)

A log line is collected in a `LineBuf` and handed to a bounded channel when the buffer is dropped; one
thread takes the lines from the channel and writes them, and it alone may block. Each access to a counter
or to the channel is one step, of any of the buffers, of the thread or of any of the calls of `flush`. The
thread drops the result of what it writes, so a write that fails leaves its line torn or missing.

* `LineBuf`, `Stdout`, `Writer`, `Call`: the parties;
* `step`: their atomic steps;
* `SinkOk`: what holds between the counters, the channel and what was written;
* `log_lines_kept`: no line is doubled, reordered or lost without being counted, none is torn but by a write
  that fails, and what a `flush` that is not cut off by its budget may rely on.

The counters are `ℕ`; the code's wrap after 2^64 lines. Instants are in milliseconds.
-/

namespace Cauli.LogSink

open Transition

/-- `CAPACITY`. -/
def CAPACITY : ℕ := 8192

/-- Where a `LineBuf` is: it takes bytes, then its `drop` runs. -/
inductive Stage
  | writing
  /-- `queued` has been incremented. -/
  | counted
  /-- `try_send` has failed. -/
  | refused
  /-- `queued` has been decremented. -/
  | uncounted
  | sent
  | dropped
  /-- Dropped with no bytes. -/
  | empty
  deriving DecidableEq

/-- One event's bytes. -/
structure LineBuf where
  buf : List UInt8 := []
  stage : Stage := .writing

/-- Counted in `queued` and not in the channel. -/
def LineBuf.pending (b : LineBuf) : Bool := b.stage == .counted || b.stage == .refused

/-- What the thread hands to `write_all`. -/
inductive Chunk
  | line (bytes : List UInt8)
  | notice (n : ℕ)

/-- The bytes of a chunk. -/
def Chunk.bytes : Chunk → List UInt8
  | .line bytes => bytes
  | .notice n =>
    (s!"cauli: log sink dropped {n} line(s); the log reader could not keep up\n").toUTF8.toList

/-- The line of a chunk that is one. -/
def Chunk.line? : Chunk → Option (List UInt8)
  | .line bytes => some bytes
  | .notice _ => none

/-- The number in a notice. -/
def Chunk.lost : Chunk → ℕ
  | .line _ => 0
  | .notice n => n

/-- A call of `write_all`: whether it succeeded, and the bytes that the handle has taken. -/
structure Put where
  chunk : Chunk
  ok : Bool
  took : List UInt8

/-- How a `write_all` goes: it succeeds, or it fails after some of its bytes. `gone` is how many of the bytes
in the handle leave it. -/
inductive Outcome
  | done (gone : ℕ)
  | failed (took gone : ℕ)

/-- `out.lock()`, a buffer before the descriptor: the bytes that have passed the descriptor, and those the
handle still holds. -/
structure Stdout where
  passed : List UInt8 := []
  held : List UInt8 := []

/-- The handle takes bytes, and some of those it then holds leave it. -/
def Stdout.push (o : Stdout) (bytes : List UInt8) (gone : ℕ) : Stdout where
  passed := o.passed ++ (o.held ++ bytes).take gone
  held := (o.held ++ bytes).drop gone

/-- `flush` of the handle; an error comes after some of the bytes. -/
def Stdout.flush (o : Stdout) : Option ℕ → Stdout
  | none => o.push [] o.held.length
  | some gone => o.push [] gone

/-- `write_all`. -/
def Outcome.put (chunk : Chunk) : Outcome → Put
  | .done _ => ⟨chunk, true, chunk.bytes⟩
  | .failed took _ => ⟨chunk, false, chunk.bytes.take took⟩

/-- How many bytes leave the handle. -/
def Outcome.gone : Outcome → ℕ
  | .done gone => gone
  | .failed _ gone => gone

/-- The thread: in `recv`, with a line, after the line, after the notice. -/
inductive Writer
  | receiving
  | holding (line : List UInt8)
  | wrote
  | noticed

/-- The line that the thread has received and not handed to `write_all`. -/
def Writer.hand : Writer → List (List UInt8)
  | .holding line => [line]
  | _ => []

/-- A line was written and is not yet counted in `written`. -/
def Writer.ahead : Writer → ℕ
  | .wrote | .noticed => 1
  | _ => 0

/-- How a call of `flush` stands. -/
inductive Waiting
  | polling
  /-- It has returned because `written` was high enough. -/
  | drained
  /-- It has returned because of its budget. -/
  | expired
  deriving DecidableEq

/-- A call of `flush`. `before` is a record: the number of lines in the channel or taken from it when the
call began. -/
structure Call where
  target : ℕ
  deadline : ℕ
  before : ℕ
  waiting : Waiting := .polling

/-- The sink. Records are `out`, the calls of `write_all`, `accepted`, the buffers whose lines the channel has
taken, in this order, and `flushFailed`, whether a `flush` of the handle has failed. -/
structure State where
  now : ℕ := 0
  bufs : List LineBuf := []
  channel : List (List UInt8) := []
  queued : ℕ := 0
  written : ℕ := 0
  dropped : ℕ := 0
  reported : ℕ := 0
  writer : Writer := .receiving
  stdout : Stdout := {}
  out : List Put := []
  calls : List Call := []
  accepted : List ℕ := []
  flushFailed : Bool := false

/-- The bytes of buffer `i`, as far as there is one. -/
def lineOf (bufs : List LineBuf) (i : ℕ) : List UInt8 := ((bufs[i]?).map LineBuf.buf).getD []

/-- The lines among some calls of `write_all`. -/
def linesOf (out : List Put) : List (List UInt8) := out.filterMap (·.chunk.line?)

/-- All bytes of some calls of `write_all`. -/
def bytesOf (out : List Put) : List UInt8 := (out.map (·.chunk.bytes)).flatten

/-- No `write_all` and no `flush` of the handle has failed. -/
def State.Clean (s : State) : Prop := s.flushFailed = false ∧ ∀ p ∈ s.out, p.ok = true

/-- The first calls of `write_all`, of which every byte has passed the descriptor. -/
def State.Passed (s : State) (chunks : List Put) : Prop :=
  chunks <+: s.out ∧ bytesOf chunks <+: s.stdout.passed

/-- The thread calls `write_all`. -/
def State.write (s : State) (chunk : Chunk) (o : Outcome) : State :=
  { s with
    stdout := s.stdout.push (o.put chunk).took o.gone
    out := s.out ++ [o.put chunk] }

/-- The steps. -/
inductive Label
  | time (d : ℕ)
  /-- `make_writer`. -/
  | make
  | write (i : ℕ) (data : List UInt8)
  /-- The `drop` of a buffer up to the increment of `queued`. -/
  | drop (i : ℕ)
  /-- Its `try_send`. -/
  | trySend (i : ℕ)
  /-- The decrement of `queued`. -/
  | uncount (i : ℕ)
  /-- The increment of `dropped`. -/
  | countDrop (i : ℕ)
  | recv
  | writeLine (o : Outcome)
  /-- The thread reads `dropped` and writes a notice if there is something new. -/
  | notice (o : Outcome)
  /-- The `flush` of the handle, with the bytes before its error, and the increment of `written`. -/
  | countWritten (error : Option ℕ)
  | flush (budget : ℕ)
  /-- One turn of the loop of a `flush`. -/
  | poll (k : ℕ)

/-- A step of the buffer `i`, which is in the given stage. -/
def atStage (s : State) (i : ℕ) (stage : Stage) (f : LineBuf → State) : Option State :=
  (s.bufs[i]?).bind fun b => if b.stage = stage then some (f b) else none

/-- Buffer `i` is replaced. -/
def State.put (s : State) (i : ℕ) (b : LineBuf) : State := { s with bufs := s.bufs.set i b }

/-- One step. -/
def step (s : State) : Label → Option State
  | .time d => some { s with now := s.now + d }
  | .make => some { s with bufs := s.bufs ++ [{}] }
  | .write i data => atStage s i .writing fun b => s.put i { b with buf := b.buf ++ data }
  | .drop i => atStage s i .writing fun b =>
      if b.buf.isEmpty then s.put i { b with stage := .empty }
      else { s.put i { b with stage := .counted } with queued := s.queued + 1 }
  | .trySend i => atStage s i .counted fun b =>
      if s.channel.length < CAPACITY then
        { s.put i { b with stage := .sent } with
          channel := s.channel ++ [b.buf]
          accepted := s.accepted ++ [i] }
      else s.put i { b with stage := .refused }
  | .uncount i => atStage s i .refused fun b =>
      { s.put i { b with stage := .uncounted } with queued := s.queued - 1 }
  | .countDrop i => atStage s i .uncounted fun b =>
      { s.put i { b with stage := .dropped } with dropped := s.dropped + 1 }
  | .recv =>
    match s.writer, s.channel with
    | .receiving, line :: channel => some { s with writer := .holding line, channel := channel }
    | _, _ => none
  | .writeLine o =>
    match s.writer with
    | .holding line => some { s.write (.line line) o with writer := .wrote }
    | _ => none
  | .notice o =>
    match s.writer with
    | .wrote =>
      if s.reported < s.dropped then
        some { s.write (.notice (s.dropped - s.reported)) o with
          writer := .noticed
          reported := s.dropped }
      else some { s with writer := .noticed }
    | _ => none
  | .countWritten error =>
    match s.writer with
    | .noticed =>
      some { s with
        writer := .receiving
        stdout := s.stdout.flush error
        flushFailed := s.flushFailed || error.isSome
        written := s.written + 1 }
    | _ => none
  | .flush budget =>
    some { s with
      calls := s.calls ++
        [{ target := s.queued, deadline := s.now + budget, before := s.accepted.length }] }
  | .poll k =>
    (s.calls[k]?).bind fun c =>
      if c.waiting = .polling then
        if c.target ≤ s.written then
          some { s with calls := s.calls.set k { c with waiting := .drained } }
        else if c.deadline ≤ s.now then
          some { s with calls := s.calls.set k { c with waiting := .expired } }
        else some s
      else none

/-- The runs of the sink. -/
def system : System State Label where
  init s := ∃ now, s = { now := now }
  step := step

/-! ### The invariant -/

/-- What holds of a call of `flush`, with this many lines taken by the channel and written. -/
structure CallOk (accepted written : ℕ) (c : Call) : Prop where
  target : c.before ≤ c.target
  before : c.before ≤ accepted
  drained : c.waiting = .drained → c.target ≤ written

/-- What holds between the calls of `write_all`, the handle and the number of lines counted. -/
structure OutOk (out : List Put) (stdout : Stdout) (flushFailed : Bool) (written : ℕ) : Prop where
  bytes : stdout.passed ++ stdout.held = (out.map Put.took).flatten
  took : ∀ p ∈ out, p.took <+: p.chunk.bytes ∧ (p.ok = true → p.took = p.chunk.bytes)
  passed : flushFailed = false → (∀ p ∈ out, p.ok = true) →
    ∃ chunks, chunks <+: out ∧ bytesOf chunks <+: stdout.passed ∧ (linesOf chunks).length = written

/-- **What holds of the sink.** -/
structure SinkOk (s : State) : Prop where
  lines : s.accepted.map (lineOf s.bufs) = linesOf s.out ++ s.writer.hand ++ s.channel
  out : OutOk s.out s.stdout s.flushFailed s.written
  distinct : s.accepted.Nodup
  accepted : ∀ i, i ∈ s.accepted ↔ ∃ b, s.bufs[i]? = some b ∧ b.stage = .sent
  room : s.channel.length ≤ CAPACITY
  queued : s.queued = s.accepted.length + s.bufs.countP LineBuf.pending
  dropped : s.dropped = s.bufs.countP (·.stage == .dropped)
  written : (linesOf s.out).length = s.written + s.writer.ahead
  notices : (s.out.map (·.chunk.lost)).sum = s.reported
  reported : s.reported ≤ s.dropped
  nonempty : ∀ b ∈ s.bufs, b.stage = .empty ∨ b.stage = .writing ∨ b.buf ≠ []
  calls : ∀ c ∈ s.calls, CallOk s.accepted.length s.written c

section Invariant

variable {s s' : State} {i : ℕ} {b b' : LineBuf}

theorem Stdout.push_bytes (o : Stdout) (bytes : List UInt8) (gone : ℕ) :
    (o.push bytes gone).passed ++ (o.push bytes gone).held = o.passed ++ o.held ++ bytes := by
  simp [Stdout.push, List.append_assoc]

theorem Stdout.passed_push (o : Stdout) (bytes : List UInt8) (gone : ℕ) :
    o.passed <+: (o.push bytes gone).passed := List.prefix_append _ _

/-- A `flush` without an error empties the handle. -/
theorem Stdout.passed_flush (o : Stdout) : (o.flush none).passed = o.passed ++ o.held := by
  simp [Stdout.flush, Stdout.push]

theorem Stdout.flush_bytes (o : Stdout) (error : Option ℕ) :
    (o.flush error).passed ++ (o.flush error).held = o.passed ++ o.held := by
  cases error <;> simp [Stdout.flush, Stdout.push_bytes]

theorem OutOk.init : OutOk [] {} false 0 :=
  ⟨rfl, by simp, fun _ _ => ⟨[], List.prefix_rfl, List.prefix_rfl, rfl⟩⟩

/-- The handle takes a beginning of the chunk, and all of it if the call succeeds. -/
theorem Outcome.took_put (chunk : Chunk) (o : Outcome) :
    (o.put chunk).took <+: chunk.bytes ∧ ((o.put chunk).ok = true → (o.put chunk).took = chunk.bytes) := by
  cases o with
  | done gone => exact ⟨List.prefix_rfl, fun _ => rfl⟩
  | failed took gone => exact ⟨List.take_prefix _ _, nofun⟩

@[simp] theorem Outcome.chunk_put (chunk : Chunk) (o : Outcome) : (o.put chunk).chunk = chunk := by
  cases o <;> rfl

theorem OutOk.put {out : List Put} {stdout : Stdout} {flushFailed : Bool} {written : ℕ}
    (h : OutOk out stdout flushFailed written) (chunk : Chunk) (o : Outcome) :
    OutOk (out ++ [o.put chunk]) (stdout.push (o.put chunk).took o.gone) flushFailed written := by
  refine ⟨?_, fun p hp => ?_, fun hflush hok => ?_⟩
  · rw [Stdout.push_bytes, h.bytes]
    simp
  · rcases List.mem_append.1 hp with hp | hp
    · exact h.took p hp
    · rw [List.mem_singleton.1 hp, Outcome.chunk_put]
      exact o.took_put chunk
  · obtain ⟨chunks, hfront, hbytes, hlines⟩ :=
      h.passed hflush fun p hp => hok p (List.mem_append_left _ hp)
    exact ⟨chunks, hfront.trans (List.prefix_append _ _), hbytes.trans (stdout.passed_push _ _), hlines⟩

/-- After a `flush` without an error all that was written has passed the descriptor. -/
theorem OutOk.flush {out : List Put} {stdout : Stdout} {flushFailed : Bool} {written : ℕ}
    (h : OutOk out stdout flushFailed written) (hlines : (linesOf out).length = written + 1)
    (error : Option ℕ) :
    OutOk out (stdout.flush error) (flushFailed || error.isSome) (written + 1) := by
  refine ⟨(stdout.flush_bytes error).trans h.bytes, h.took, fun hflush hok => ?_⟩
  obtain ⟨-, hnone⟩ := (Bool.or_eq_false_iff).1 hflush
  obtain rfl : error = none := by simpa using hnone
  have hwhole : (out.map Put.took).flatten = bytesOf out := by
    rw [bytesOf, List.map_congr_left fun p hp => (h.took p hp).2 (hok p hp)]
  have hpassed : (stdout.flush none).passed = bytesOf out := by
    rw [stdout.passed_flush, h.bytes, hwhole]
  exact ⟨out, List.prefix_rfl, hpassed ▸ List.prefix_rfl, hlines⟩

theorem SinkOk.init (now : ℕ) : SinkOk { now := now } := by
  constructor <;> simp [linesOf, Writer.hand, Writer.ahead, OutOk.init]

theorem lineOf_set {bufs : List LineBuf} {j : ℕ} (h : j ≠ i) :
    lineOf (bufs.set i b) j = lineOf bufs j := by
  rw [lineOf, List.getElem?_set_ne h.symm, lineOf]

/-- The channel has not taken the line of a buffer that is not `sent`. -/
theorem SinkOk.notMem_accepted (h : SinkOk s) (hb : s.bufs[i]? = some b) (hsent : b.stage ≠ .sent) :
    i ∉ s.accepted := by
  intro hi
  obtain ⟨b', hb', hstage⟩ := (h.accepted i).1 hi
  rw [hb] at hb'
  cases hb'
  exact hsent hstage

theorem SinkOk.map_lineOf_set (h : SinkOk s) (hb : s.bufs[i]? = some b) (hsent : b.stage ≠ .sent)
    (b' : LineBuf) :
    s.accepted.map (lineOf (s.bufs.set i b')) = s.accepted.map (lineOf s.bufs) := by
  refine List.map_congr_left fun j hj => lineOf_set ?_
  rintro rfl
  exact h.notMem_accepted hb hsent hj

theorem nonempty_put (h : SinkOk s)
    (hnonempty : b'.stage = .empty ∨ b'.stage = .writing ∨ b'.buf ≠ []) :
    ∀ b ∈ (s.put i b').bufs, b.stage = .empty ∨ b.stage = .writing ∨ b.buf ≠ [] := by
  intro b hb
  rcases List.mem_or_eq_of_mem_set hb with hb | rfl
  · exact h.nonempty b hb
  · exact hnonempty

/-- A buffer moves on without a send. -/
theorem SinkOk.put (h : SinkOk s) (hb : s.bufs[i]? = some b) (b' : LineBuf) (hsent : b.stage ≠ .sent)
    (hsent' : b'.stage ≠ .sent) (hopen : b.stage ≠ .dropped)
    (hnonempty : b'.stage = .empty ∨ b'.stage = .writing ∨ b'.buf ≠ []) (queued dropped : ℕ)
    (hqueued : queued + b.pending.toNat = s.queued + b'.pending.toNat)
    (hdropped : dropped = s.dropped + (b'.stage == .dropped).toNat) :
    SinkOk { s.put i b' with queued := queued, dropped := dropped } := by
  have hlt := (List.getElem?_eq_some_iff.1 hb).1
  refine ⟨(h.map_lineOf_set hb hsent _).trans h.lines, h.out, h.distinct, fun j => ?_, h.room, ?_, ?_, h.written,
    h.notices, hdropped ▸ h.reported.trans (Nat.le_add_right _ _), nonempty_put h hnonempty,
    h.calls⟩
  · refine (h.accepted j).trans ?_
    by_cases hij : j = i
    · subst hij
      simp only [State.put, List.getElem?_set_self hlt, hb, Option.some.injEq, exists_eq_left', hsent,
        hsent']
    · simp [State.put, List.getElem?_set_ne (Ne.symm hij)]
  · have hcount := Parties.countP_set_add LineBuf.pending hb b'
    have := h.queued
    simp only [State.put]
    omega
  · have hcount := Parties.countP_set_add (fun b : LineBuf => b.stage == .dropped) hb b'
    have := h.dropped
    have hzero : (b.stage == .dropped) = false := by simpa using hopen
    rw [hzero, Bool.toNat_false, Nat.add_zero] at hcount
    simp only [State.put]
    omega

/-- The channel takes a line. -/
theorem SinkOk.send (h : SinkOk s) (hb : s.bufs[i]? = some b) (hstage : b.stage = .counted)
    (hroom : s.channel.length < CAPACITY) :
    SinkOk { s.put i { b with stage := .sent } with
      channel := s.channel ++ [b.buf]
      accepted := s.accepted ++ [i] } := by
  have hlt := (List.getElem?_eq_some_iff.1 hb).1
  have hsent : b.stage ≠ .sent := by simp [hstage]
  have hnew := h.notMem_accepted hb hsent
  have hself : lineOf (s.bufs.set i { b with stage := .sent }) i = b.buf := by
    rw [lineOf, List.getElem?_set_self hlt]
    rfl
  have hbuf : b.buf ≠ [] := by
    have := h.nonempty b (List.mem_of_getElem? hb)
    simpa [hstage] using this
  refine ⟨?_, h.out, ?_, fun j => ?_, ?_, ?_, ?_, h.written, h.notices, h.reported,
    nonempty_put h (.inr (.inr hbuf)), fun c hc => ⟨(h.calls c hc).target, ?_, (h.calls c hc).drained⟩⟩
  · have hlines := (h.map_lineOf_set hb hsent { b with stage := .sent }).trans h.lines
    calc (s.accepted ++ [i]).map (lineOf (s.bufs.set i { b with stage := .sent }))
        = linesOf s.out ++ s.writer.hand ++ s.channel ++ [b.buf] := by
          rw [List.map_append, hlines, List.map_singleton, hself]
      _ = linesOf s.out ++ s.writer.hand ++ (s.channel ++ [b.buf]) := List.append_assoc _ _ _
  · exact List.nodup_append_comm.2 (List.nodup_cons.2 ⟨hnew, h.distinct⟩)
  · simp only [List.mem_append, List.mem_singleton, h.accepted j]
    by_cases hij : j = i
    · subst hij
      simp [State.put, hlt]
    · simp [State.put, List.getElem?_set_ne (Ne.symm hij), hij]
  · simpa using Nat.succ_le_of_lt hroom
  · have hcount := Parties.countP_set_add LineBuf.pending hb { b with stage := .sent }
    have hpending : b.pending = true := by simp [LineBuf.pending, hstage]
    have hpending' : LineBuf.pending { b with stage := .sent } = false := rfl
    rw [hpending, hpending', Bool.toNat_true, Bool.toNat_false] at hcount
    have := h.queued
    simp only [State.put, List.length_append, List.length_singleton]
    omega
  · have hcount := Parties.countP_set_add (fun b : LineBuf => b.stage == .dropped) hb
      { b with stage := .sent }
    have hzero : (b.stage == .dropped) = false := by simp [hstage]
    have hzero' : (Stage.sent == Stage.dropped) = false := rfl
    rw [hzero, hzero', Bool.toNat_false, Nat.add_zero, Nat.add_zero] at hcount
    simp only [State.put, hcount]
    exact h.dropped
  · exact (h.calls c hc).before.trans (by simp)

theorem atStage_eq_some {stage : Stage} {f : LineBuf → State} (h : atStage s i stage f = some s') :
    ∃ buf, s.bufs[i]? = some ⟨buf, stage⟩ ∧ s' = f ⟨buf, stage⟩ := by
  obtain ⟨⟨buf, stage'⟩, hb, hf⟩ := Option.bind_eq_some_iff.1 h
  obtain ⟨hstage, hs⟩ := Option.ite_none_right_eq_some.1 hf
  obtain rfl : stage' = stage := hstage
  exact ⟨buf, hb, (Option.some.inj hs).symm⟩

/-- A step of a buffer. -/
theorem SinkOk.step_buf {l : Label} (h : SinkOk s) (hs : LogSink.step s l = some s')
    (hl : (∃ data, l = .write i data) ∨ l = .drop i ∨ l = .trySend i ∨ l = .uncount i ∨
      l = .countDrop i) : SinkOk s' := by
  have hbuf : ∀ {buf stage}, s.bufs[i]? = some ⟨buf, stage⟩ → stage ≠ .empty → stage ≠ .writing →
      buf ≠ [] := fun hb hempty hwriting =>
    ((h.nonempty _ (List.mem_of_getElem? hb)).resolve_left hempty).resolve_left hwriting
  rcases hl with ⟨data, rfl⟩ | rfl | rfl | rfl | rfl
  · obtain ⟨buf, hb, rfl⟩ := atStage_eq_some hs
    exact h.put hb ⟨buf ++ data, .writing⟩ nofun nofun nofun (.inr (.inl rfl)) s.queued s.dropped rfl rfl
  · obtain ⟨buf, hb, rfl⟩ := atStage_eq_some hs
    split_ifs with hempty
    · exact h.put hb ⟨buf, .empty⟩ nofun nofun nofun (.inl rfl) s.queued s.dropped rfl rfl
    · exact h.put hb ⟨buf, .counted⟩ nofun nofun nofun (.inr (.inr (by simpa using hempty)))
        (s.queued + 1) s.dropped rfl rfl
  · obtain ⟨buf, hb, rfl⟩ := atStage_eq_some hs
    split_ifs with hroom
    · exact h.send hb rfl hroom
    · exact h.put hb ⟨buf, .refused⟩ nofun nofun nofun (.inr (.inr (hbuf hb nofun nofun))) s.queued
        s.dropped rfl rfl
  · obtain ⟨buf, hb, rfl⟩ := atStage_eq_some hs
    have hpos : 0 < s.queued := by
      rw [h.queued]
      exact Nat.add_pos_right _ (List.countP_pos_iff.2 ⟨_, List.mem_of_getElem? hb, rfl⟩)
    exact h.put hb ⟨buf, .uncounted⟩ nofun nofun nofun (.inr (.inr (hbuf hb nofun nofun)))
      (s.queued - 1) s.dropped (Nat.sub_add_cancel hpos) rfl
  · obtain ⟨buf, hb, rfl⟩ := atStage_eq_some hs
    exact h.put hb ⟨buf, .dropped⟩ nofun nofun nofun (.inr (.inr (hbuf hb nofun nofun))) s.queued
      (s.dropped + 1) rfl rfl

/-- A step of the thread. -/
theorem SinkOk.step_writer {l : Label} (h : SinkOk s) (hs : LogSink.step s l = some s')
    (hl : l = .recv ∨ (∃ o, l = .writeLine o) ∨ (∃ o, l = .notice o) ∨ ∃ error, l = .countWritten error) :
    SinkOk s' := by
  rcases hl with rfl | ⟨o, rfl⟩ | ⟨o, rfl⟩ | ⟨error, rfl⟩ <;> simp only [LogSink.step] at hs <;> split at hs <;>
    try cases hs
  · next line channel hwriter hchannel =>
    have hlines := h.lines
    have hwritten := h.written
    have hroom := h.room
    rw [hwriter] at hwritten
    rw [hwriter, hchannel] at hlines
    rw [hchannel, List.length_cons] at hroom
    exact ⟨by simpa [Writer.hand] using hlines, h.out, h.distinct, h.accepted,
      (Nat.le_succ _).trans hroom, h.queued, h.dropped, hwritten, h.notices, h.reported, h.nonempty,
      h.calls⟩
  · next line hwriter =>
    have hlines := h.lines
    have hwritten := h.written
    rw [hwriter] at hwritten hlines
    refine ⟨?_, h.out.put _ o, h.distinct, h.accepted, h.room, h.queued, h.dropped, ?_, ?_, h.reported,
      h.nonempty, h.calls⟩
    · simpa [Writer.hand, State.write, linesOf, Chunk.line?] using hlines
    · simpa [Writer.ahead, State.write, linesOf, Chunk.line?] using hwritten
    · simpa [Chunk.lost, State.write] using h.notices
  · next hwriter =>
    have hlines := h.lines
    have hwritten := h.written
    rw [hwriter] at hwritten hlines
    split_ifs at hs with hnew <;> cases hs
    · refine ⟨?_, h.out.put _ o, h.distinct, h.accepted, h.room, h.queued, h.dropped, ?_, ?_, le_rfl,
        h.nonempty, h.calls⟩
      · simpa [Writer.hand, State.write, linesOf, Chunk.line?, List.filterMap_cons] using hlines
      · simpa [Writer.ahead, State.write, linesOf, Chunk.line?, List.filterMap_cons] using hwritten
      · have hlost : (o.put (.notice (s.dropped - s.reported))).chunk.lost = s.dropped - s.reported := by
          rw [Outcome.chunk_put, Chunk.lost]
        simp only [State.write, List.map_append, List.sum_append, h.notices, List.map_singleton,
          List.sum_singleton, hlost]
        exact Nat.add_sub_cancel' hnew.le
    · exact ⟨hlines, h.out, h.distinct, h.accepted, h.room, h.queued, h.dropped, hwritten, h.notices,
        h.reported, h.nonempty, h.calls⟩
  · next hwriter =>
    have hlines := h.lines
    have hwritten := h.written
    rw [hwriter] at hwritten hlines
    refine ⟨hlines, h.out.flush hwritten error, h.distinct, h.accepted, h.room, h.queued, h.dropped, hwritten,
      h.notices, h.reported, h.nonempty, fun c hc => ⟨(h.calls c hc).target, (h.calls c hc).before, fun hdrained => ?_⟩⟩
    exact ((h.calls c hc).drained hdrained).trans (Nat.le_succ _)

theorem SinkOk.step {l : Label} (h : SinkOk s) (hs : LogSink.step s l = some s') : SinkOk s' := by
  cases l with
  | write i data => exact h.step_buf hs (.inl ⟨data, rfl⟩)
  | drop i => exact h.step_buf hs (.inr (.inl rfl))
  | trySend i => exact h.step_buf hs (.inr (.inr (.inl rfl)))
  | uncount i => exact h.step_buf hs (.inr (.inr (.inr (.inl rfl))))
  | countDrop i => exact h.step_buf hs (.inr (.inr (.inr (.inr rfl))))
  | recv => exact h.step_writer hs (.inl rfl)
  | writeLine o => exact h.step_writer hs (.inr (.inl ⟨o, rfl⟩))
  | notice o => exact h.step_writer hs (.inr (.inr (.inl ⟨o, rfl⟩)))
  | countWritten error => exact h.step_writer hs (.inr (.inr (.inr ⟨error, rfl⟩)))
  | time d =>
    cases hs
    exact ⟨h.lines, h.out, h.distinct, h.accepted, h.room, h.queued, h.dropped, h.written, h.notices, h.reported,
      h.nonempty, h.calls⟩
  | make =>
    cases hs
    have hold : ∀ j b, s.bufs[j]? = some b → (s.bufs ++ [({} : LineBuf)])[j]? = some b := fun j b hb => by
      rw [List.getElem?_append_left (List.getElem?_eq_some_iff.1 hb).1, hb]
    refine ⟨?_, h.out, h.distinct, fun j => ?_, h.room, ?_, ?_, h.written, h.notices, h.reported, ?_, h.calls⟩
    · refine Eq.trans (List.map_congr_left fun j hj => ?_) h.lines
      obtain ⟨b, hb, -⟩ := (h.accepted j).1 hj
      simp only [lineOf, hold j b hb, hb]
    · refine (h.accepted j).trans ⟨fun ⟨b, hb, hstage⟩ => ⟨b, hold j b hb, hstage⟩, ?_⟩
      rintro ⟨b, hb, hstage⟩
      refine ⟨b, ?_, hstage⟩
      refine (Parties.getElem?_concat_eq_some.1 hb).resolve_right ?_
      rintro ⟨-, rfl⟩
      cases hstage
    · simpa [LineBuf.pending] using h.queued
    · simpa using h.dropped
    · intro b hb
      rcases List.mem_append.1 hb with hb | hb
      · exact h.nonempty b hb
      · rw [List.mem_singleton.1 hb]
        exact .inr (.inl rfl)
  | flush budget =>
    cases hs
    refine ⟨h.lines, h.out, h.distinct, h.accepted, h.room, h.queued, h.dropped, h.written, h.notices,
      h.reported, h.nonempty, fun c hc => ?_⟩
    rcases List.mem_append.1 hc with hc | hc
    · exact h.calls c hc
    · rw [List.mem_singleton.1 hc]
      refine ⟨?_, le_rfl, by simp⟩
      simp only [h.queued]
      exact Nat.le_add_right _ _
  | poll k =>
    obtain ⟨c, hc, hs⟩ := Option.bind_eq_some_iff.1 hs
    have hok := h.calls c (List.mem_of_getElem? hc)
    have hcalls : ∀ c' : Call, CallOk s.accepted.length s.written c' →
        SinkOk { s with calls := s.calls.set k c' } := by
      intro c' hc'
      refine ⟨h.lines, h.out, h.distinct, h.accepted, h.room, h.queued, h.dropped, h.written, h.notices,
        h.reported, h.nonempty, fun c'' hc'' => ?_⟩
      rcases List.mem_or_eq_of_mem_set hc'' with hc'' | rfl
      · exact h.calls c'' hc''
      · exact hc'
    split_ifs at hs with hpolling hdone hlate
    · cases hs
      exact hcalls _ ⟨hok.target, hok.before, fun _ => hdone⟩
    · cases hs
      exact hcalls _ ⟨hok.target, hok.before, by simp⟩
    · cases hs
      exact h

theorem sinkOk_of_reachable (h : system.Reachable System.anyStep s) : SinkOk s := by
  refine h.invariant ?_ fun t l u ht _ hstep => ht.step hstep
  rintro t ⟨now, rfl⟩
  exact .init now

/-- A `flush` that was not cut off has seen the lines from before it handed to `write_all`: this is done in the
order in which the channel took them, and `queued` never counts less than these. -/
theorem SinkOk.flushed (h : SinkOk s) {c : Call} (hc : c ∈ s.calls) (hdrained : c.waiting = .drained)
    {chunks : List Put} (hfront : chunks <+: s.out) (hcount : s.written ≤ (linesOf chunks).length) :
    (s.accepted.take c.before).map (lineOf s.bufs) <+: linesOf chunks := by
  have hok := h.calls c hc
  have hle : c.before ≤ (linesOf chunks).length :=
    (hok.target.trans (hok.drained hdrained)).trans hcount
  have hlines : linesOf chunks <+: s.accepted.map (lineOf s.bufs) := by
    rw [h.lines, List.append_assoc]
    exact (hfront.filterMap _).trans (List.prefix_append _ _)
  rw [List.map_take]
  refine List.prefix_of_prefix_length_le (List.take_prefix _ _) hlines ?_
  rw [List.length_take]
  exact (Nat.min_le_left _ _).trans hle

/-- The step of a buffer in its `drop`, and how many are left at most. -/
def Stage.next (i : ℕ) : Stage → Option (Label × ℕ)
  | .writing => some (.drop i, 4)
  | .counted => some (.trySend i, 3)
  | .refused => some (.uncount i, 2)
  | .uncounted => some (.countDrop i, 1)
  | .sent | .dropped | .empty => none

/-- How many steps are left of a `drop`, at most. -/
def Stage.left (stage : Stage) : ℕ := ((stage.next 0).map Prod.snd).getD 0

theorem drop_never_waits (hb : s.bufs[i]? = some b) {l : Label} {n : ℕ}
    (hl : b.stage.next i = some (l, n)) :
    ∃ s' b', step s l = some s' ∧ s'.writer = s.writer ∧ s'.bufs[i]? = some b' ∧ b'.buf = b.buf ∧
      b'.stage.left < n := by
  have hlt := (List.getElem?_eq_some_iff.1 hb).1
  have hput : ∀ b', (s.put i b').bufs[i]? = some b' := fun b' => List.getElem?_set_self hlt
  cases hstage : b.stage <;> rw [hstage] at hl <;> cases hl <;>
    simp only [step, atStage, hb, Option.bind_some, hstage, ↓reduceIte]
  · by_cases hempty : b.buf.isEmpty = true
    · rw [if_pos hempty]
      exact ⟨_, _, rfl, rfl, hput _, rfl, by simp [Stage.left, Stage.next]⟩
    · rw [if_neg hempty]
      exact ⟨_, _, rfl, rfl, hput _, rfl, by simp [Stage.left, Stage.next]⟩
  · by_cases hroom : s.channel.length < CAPACITY
    · rw [if_pos hroom]
      exact ⟨_, _, rfl, rfl, hput _, rfl, by simp [Stage.left, Stage.next]⟩
    · rw [if_neg hroom]
      exact ⟨_, _, rfl, rfl, hput _, rfl, by simp [Stage.left, Stage.next]⟩
  · exact ⟨_, _, rfl, rfl, hput _, rfl, by simp [Stage.left, Stage.next]⟩
  · exact ⟨_, _, rfl, rfl, hput _, rfl, by simp [Stage.left, Stage.next]⟩

end Invariant

/-- Two lines, of which the second is sent first and stays in the handle for a while, an empty buffer, and a
`flush` in between. -/
def twoLines : List Label :=
  [.make, .make, .make, .write 0 [97, 10], .write 1 [98], .write 1 [10], .drop 0, .drop 1, .drop 2,
    .trySend 1, .flush 5, .recv, .writeLine (.done 1), .notice (.done 0), .countWritten none, .poll 0,
    .trySend 0, .recv, .writeLine (.done 2), .notice (.done 0), .countWritten none, .poll 0]

/-- The state after `twoLines`. -/
def bothWritten : State := (system.run {} twoLines).getD {}

end Cauli.LogSink
