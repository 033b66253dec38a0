import Cauli.Beat.Model
import Cauli.Client.App

/-!
# Publishing (`py/cauli/app.py`, `py/cauli/task.py`, `py/cauli/beat.py`)

The paths on which an envelope reaches a stream or a delayed set.

* `publish`: the one write of an enqueue;
* `App.enqueue`, `App.prepareMany` and the calls made of them, `App.delay` to `App.aenqueueMany`;
* `fire`: `Beat._fire` followed by `claim_and_publish`, which encodes the envelope itself;
* `Producer.run`: a run of any of them, with the writes it makes and what it raises;
* `fire_published`: the writes of a firing are those of the claim script in `Cauli.Beat.Model`;
* `published_within_limit_iff`: which runs keep the limit.

What Redis makes of a pipeline is part of a run: it may fail after some of the writes. So is what
`sig.bind` answers.
-/

namespace Cauli

open JsonToken JsonText

/-- A write of an envelope: to a queue's stream, or to its delayed set. -/
inductive QueueWrite
  | xadd (queue : PyStr) (raw : List Char)
  | zadd (queue : PyStr) (raw : List Char) (fireAt : ℤ)

/-- The envelope of a write. -/
def QueueWrite.raw : QueueWrite → List Char
  | xadd _ raw => raw
  | zadd _ raw _ => raw

/-- `_publish`. -/
def publish (raw : List Char) (queue : PyStr) : Option ℤ → QueueWrite
  | some fireAt => .zadd queue raw fireAt
  | none => .xadd queue raw

/-- What a producer raises. -/
inductive ProducerError
  | notTask (typeName : String)
  | tooManyParts (n : ℕ)
  | unknownOptions (names : List PyStr)
  | signature
  | notAsync
  | call (e : CallError)
  | advance
  | redis

/-- A run of a producer: the writes that were made, and what was raised or logged. -/
structure Produced where
  writes : List QueueWrite
  raised : Option ProducerError

/-- The writes, all of them or the first `k` before Redis fails. -/
def sent (landed : Option ℕ) (ws : List QueueWrite) : Produced :=
  match landed with
  | none => ⟨ws, none⟩
  | some k => ⟨ws.take k, some .redis⟩

/-- Everything is prepared before the first write. -/
def sendPrepared (landed : Option ℕ) : Except ProducerError (List QueueWrite) → Produced
  | .error e => ⟨[], some e⟩
  | .ok ws => sent landed ws

/-! ### The calls of a task -/

/-- A task and its arguments, with whether its signature takes them, the clock and the random bytes. -/
structure Payload where
  task : TaskDef
  args : List PyValue := []
  kwargs : List (PyKey × PyValue) := []
  binds : Bool := true
  clockMs : ℤ
  urandom : {bytes : List (Fin 256) // bytes.length = 16}

/-- The arguments of `apply_async`. -/
structure TaskCall extends Payload where
  countdown : Option PyNum := none
  queue : Option PyStr := none
  idempotencyKey : PyValue := .none
  eta : Option Datetime := none
  expires : Expires := .none

/-- The arguments passed on to `make_envelope`. -/
def TaskCall.call (c : TaskCall) : Call :=
  { taskName := c.task.name, args := c.args, kwargs := c.kwargs, task := some c.task,
    queue := c.queue, idempotencyKey := c.idempotencyKey, countdown := c.countdown, eta := c.eta,
    expires := c.expires, clockMs := c.clockMs, urandom := c.urandom }

/-- `_check_signature`. -/
def Payload.checkSignature (p : Payload) : Except ProducerError Unit :=
  if p.binds then .ok () else .error .signature

section Producers

variable (floatToken : ℚ → JsonNumber) (app : App)

/-- The envelope of a call, built and encoded, as the write that is to be made. -/
def App.prepare (c : TaskCall) : Except ProducerError QueueWrite := do
  let (fields, queueName, fireAt) ← (app.makeEnvelope c.call).mapError .call
  let raw ← (app.encodeEnvelope floatToken fields).mapError .call
  return publish raw queueName fireAt

/-- `_enqueue`. -/
def App.enqueue (landed : Option ℕ) (c : TaskCall) : Produced :=
  sendPrepared landed ((app.prepare floatToken c).map fun w => [w])

/-- `_aenqueue`, which awaits the same write. -/
def App.aenqueue (landed : Option ℕ) (c : TaskCall) : Produced := app.enqueue floatToken landed c

/-- `apply_async`. -/
def App.applyAsync (landed : Option ℕ) (c : TaskCall) : Produced :=
  match c.checkSignature with
  | .error e => ⟨[], some e⟩
  | .ok () => app.enqueue floatToken landed c

/-- `delay`. -/
def App.delay (landed : Option ℕ) (p : Payload) : Produced :=
  app.applyAsync floatToken landed { toPayload := p }

/-- `aapply_async`; only an `AsyncCauli` can await. -/
def App.aapplyAsync (isAsync : Bool) (landed : Option ℕ) (c : TaskCall) : Produced :=
  match c.checkSignature with
  | .error e => ⟨[], some e⟩
  | .ok () => if isAsync then app.aenqueue floatToken landed c else ⟨[], some .notAsync⟩

/-- `adelay`. -/
def App.adelay (isAsync : Bool) (landed : Option ℕ) (p : Payload) : Produced :=
  app.aapplyAsync floatToken isAsync landed { toPayload := p }

/-- An element of a batch: a call, or something else. -/
inductive Element
  | call (c : TaskCall)
  | notTask (typeName : String)
  | tooManyParts (n : ℕ)
  | unknownOptions (names : List PyStr)

/-- `_normalize_call`. -/
def normalizeCall : Element → Except ProducerError TaskCall
  | .call c => .ok c
  | .notTask t => .error (.notTask t)
  | .tooManyParts n => .error (.tooManyParts n)
  | .unknownOptions names => .error (.unknownOptions names)

/-- `_prepare_many`: the whole batch, before any write. -/
def App.prepareMany (calls : List Element) : Except ProducerError (List QueueWrite) :=
  calls.mapM fun call => do
    let c ← normalizeCall call
    c.checkSignature
    app.prepare floatToken c

/-- `enqueue_many`. Nothing is sent for an empty batch. -/
def App.enqueueMany (landed : Option ℕ) (calls : List Element) : Produced :=
  match app.prepareMany floatToken calls with
  | .ok [] => ⟨[], none⟩
  | prepared => sendPrepared landed prepared

/-- `aenqueue_many`. -/
def App.aenqueueMany (landed : Option ℕ) (calls : List Element) : Produced :=
  app.enqueueMany floatToken landed calls

end Producers

/-! ### A firing -/

/-- A schedule entry with its call. -/
structure BeatEntry extends ScheduleEntry where
  args : List PyValue := []
  kwargs : List (PyKey × PyValue) := []
  queue : Option PyStr := none
  expires : Option F64 := none
  idempotent : Bool := false

/-- A firing: the entry and its slot, the registered tasks, the beat keys the script finds, and whether
the script fails midway. -/
structure Firing where
  entry : BeatEntry
  slot : ℤ
  now : ℤ
  tasks : String → Option TaskDef
  urandom : {bytes : List (Fin 256) // bytes.length = 16}
  store : Store
  cut : Option ℕ := none

/-- The arguments of `make_envelope`. -/
def Firing.call (f : Firing) : Call :=
  { taskName := PyStr.ofString f.entry.task, args := f.entry.args, kwargs := f.entry.kwargs,
    task := f.tasks f.entry.task, entryQueue := f.entry.queue,
    expires := f.entry.expires.elim .none fun x => .seconds (.float x),
    idempotencyKey :=
      if f.entry.idempotent then
        .str (PyStr.ofString ("beat:" ++ f.entry.name ++ ":" ++ toString f.slot))
      else .none,
    now := some f.now, clockMs := f.now, urandom := f.urandom }

/-- The fields a firing adds to its envelope. -/
def Firing.beatFields (f : Firing) : List (String × PyValue) :=
  [("beat_name", .str (PyStr.ofString f.entry.name)), ("beat_slot", .int f.slot)]

/-- A dict with the given keys. -/
def fieldsOf (fields : List (String × PyValue)) : PyValue :=
  .dict (fields.map fun f => (.str (PyStr.ofString f.1), f.2))

/-- The claim script finds the slot it expects. -/
def Firing.wins (f : Firing) : Prop :=
  f.store.due.lookup f.entry.name = some (slotScore f.slot)

instance (f : Firing) : Decidable f.wins := inferInstanceAs (Decidable (_ = _))

/-- What `make_envelope` and `_codec.encode` give: the payload of the claim, and where it goes. -/
def Firing.payload (floatToken : ℚ → JsonNumber) (app : App) (f : Firing) :
    Except CallError (List Char × PyStr × Option ℤ) := do
  let (fields, queueName, fireAt) ← app.makeEnvelope f.call
  let tree ← (encode floatToken (fieldsOf (fields ++ f.beatFields))).mapError .encode
  return (tree.chars, queueName, fireAt)

/-- `Beat._fire` followed by `claim_and_publish`. -/
def fire (floatToken : ℚ → JsonNumber) (app : App) (f : Firing) : Produced :=
  match f.entry.schedule.advancePastWithMissed f.slot f.now,
      suppress f.entry.toScheduleEntry f.slot f.now with
  | some _, some suppressed =>
    if suppressed then ⟨[], none⟩
    else
      match f.payload floatToken app with
      | .error e => ⟨[], some (.call e)⟩
      | .ok (raw, queueName, fireAt) =>
        if f.wins then sent f.cut [publish raw queueName fireAt] else ⟨[], none⟩
  | _, _ => ⟨[], some .advance⟩

/-- The producers. -/
inductive Producer
  | delay (landed : Option ℕ) (p : Payload)
  | applyAsync (landed : Option ℕ) (c : TaskCall)
  | adelay (isAsync : Bool) (landed : Option ℕ) (p : Payload)
  | aapplyAsync (isAsync : Bool) (landed : Option ℕ) (c : TaskCall)
  | enqueueMany (landed : Option ℕ) (calls : List Element)
  | aenqueueMany (landed : Option ℕ) (calls : List Element)
  | fire (f : Firing)

/-- A run of a producer. -/
def Producer.run (floatToken : ℚ → JsonNumber) (app : App) : Producer → Produced
  | delay landed p => app.delay floatToken landed p
  | applyAsync landed c => app.applyAsync floatToken landed c
  | adelay isAsync landed p => app.adelay floatToken isAsync landed p
  | aapplyAsync isAsync landed c => app.aapplyAsync floatToken isAsync landed c
  | enqueueMany landed calls => app.enqueueMany floatToken landed calls
  | aenqueueMany landed calls => app.aenqueueMany floatToken landed calls
  | fire f => Cauli.fire floatToken app f

/-! ### The claim script -/

/-- How a write publishes. -/
def QueueWrite.mode : QueueWrite → Mode
  | xadd _ _ => .stream
  | zadd _ _ fireAt => .delayed fireAt

/-- What the scheduler keeps of the payload. -/
def Firing.built (floatToken : ℚ → JsonNumber) (app : App) (f : Firing) : Option Built :=
  (f.payload floatToken app).toOption.map fun p => ⟨String.ofList (hex f.urandom.1), p.2.2⟩

/-- A script publishes as its claim says, unless it fails before the first write. -/
theorem published_runWrites (cut : Option ℕ) (c : Claim) (w : QueueWrite) (s : Store)
    (hmode : c.mode = w.mode) :
    (runWrites cut c.writes s).published =
      s.published ++ (sent cut [w]).writes.map fun w => ⟨c.name, c.expected, w.mode⟩ := by
  have hwrites : c.writes = [.publish ⟨c.name, c.expected, w.mode⟩, .countRun c.name,
      .setSlot c.name c.next (some c.expected), .setState c.name c.state] := by
    unfold Claim.writes
    rw [hmode]
    cases w <;> rfl
  rw [hwrites]
  -- by the number of writes that were made
  match cut with
  | none => rfl
  | some 0 => simp [runWrites, sent]
  | some 1 => rfl
  | some 2 => rfl
  | some 3 => rfl
  | some (k + 4) => simp [runWrites, BeatWrite.apply, sent]

theorem published_of_skip (cut : Option ℕ) {c : Claim} (s : Store) (hmode : c.mode = .none) :
    (claimAndPublish cut c s).published = s.published := by
  have hwrites : c.writes =
      [.setSlot c.name c.next (some c.expected), .setState c.name c.state] := by
    unfold Claim.writes
    rw [hmode]
    rfl
  unfold claimAndPublish
  split_ifs
  · rw [hwrites]
    match cut with
    | none => rfl
    | some 0 => rfl
    | some 1 => rfl
    | some (k + 2) => simp [runWrites, BeatWrite.apply]
  · rfl

theorem published_of_claim {f : Firing} {c : Claim} (hname : c.name = f.entry.name)
    (hslot : c.expected = f.slot) (w : QueueWrite) (hmode : c.mode = w.mode) :
    (claimAndPublish f.cut c f.store).published =
      f.store.published ++ (Produced.writes (if f.wins then sent f.cut [w] else ⟨[], none⟩)).map
        fun w => ⟨f.entry.name, f.slot, w.mode⟩ := by
  unfold claimAndPublish
  rw [hname, hslot]
  by_cases hwins : f.wins
  · have hcas : f.store.due.lookup f.entry.name = some (slotScore f.slot) := hwins
    rw [if_pos hwins, if_pos hcas, published_runWrites f.cut c w f.store hmode, hname, hslot]
  · have hcas : ¬ f.store.due.lookup f.entry.name = some (slotScore f.slot) := hwins
    rw [if_neg hwins, if_neg hcas, List.map_nil, List.append_nil]

/-- **A firing writes what the scheduler's claim publishes.** -/
theorem fire_published (floatToken : ℚ → JsonNumber) (app : App) (r : ℕ) (f : Firing) :
    (((fireArgs r f.entry.toScheduleEntry f.slot f.now (f.built floatToken app)).map
        fun c => claimAndPublish f.cut c f.store).getD f.store).published =
      f.store.published ++
        (fire floatToken app f).writes.map fun w => ⟨f.entry.name, f.slot, w.mode⟩ := by
  unfold fireArgs fire Firing.built
  cases f.entry.schedule.advancePastWithMissed f.slot f.now with
  | none => simp
  | some next =>
    cases suppress f.entry.toScheduleEntry f.slot f.now with
    | none => simp
    | some suppressed =>
      cases suppressed with
      | true =>
        show (claimAndPublish f.cut _ f.store).published = f.store.published ++ []
        rw [published_of_skip f.cut f.store rfl, List.append_nil]
      | false =>
        cases f.payload floatToken app with
        | error e => simp [Except.toOption]
        | ok p =>
          obtain ⟨raw, queueName, fireAt⟩ := p
          exact published_of_claim rfl rfl (publish raw queueName fireAt) (by cases fireAt <;> rfl)

/-! ### The encoding of a longer dict -/

theorem entriesText_append (floatToken : ℚ → JsonNumber) (es es' : List (PyKey × PyValue)) :
    entriesText floatToken (es ++ es') =
      (entriesText floatToken es).bind fun ms => (entriesText floatToken es').map (ms ++ ·) := by
  induction es with
  | nil =>
    rw [List.nil_append, entriesText]
    cases entriesText floatToken es' <;> rfl
  | cons e es ih =>
    obtain ⟨k, v⟩ := e
    cases k with
    | other t => rfl
    | str k =>
      rw [List.cons_append, entriesText, entriesText, ih]
      cases PyStr.utf8 k <;> cases toText floatToken v <;> cases entriesText floatToken es <;>
        cases entriesText floatToken es' <;> rfl

/-- The members that `beatFields` become. -/
def Firing.beatMembers (f : Firing) : List (List StrPart × JsonText) :=
  [(encodeStr "beat_name".toList, .str (encodeStr f.entry.name.toList)),
    (encodeStr "beat_slot".toList, .num (.ofInt f.slot))]

theorem Firing.entriesText_beatFields (floatToken : ℚ → JsonNumber) (f : Firing) :
    entriesText floatToken (f.beatFields.map fun g => (.str (PyStr.ofString g.1), g.2)) =
      some f.beatMembers := by
  have hutf8 (s : String) : PyStr.utf8 (PyStr.ofString s) = some s.toList :=
    PyStr.utf8_map_char s.toList
  show entriesText floatToken
    [(.str (PyStr.ofString "beat_name"), .str (PyStr.ofString f.entry.name)),
      (.str (PyStr.ofString "beat_slot"), .int f.slot)] = some [_, _]
  simp only [entriesText, toText, hutf8, Option.bind_some, Option.map_some]

/-- The envelope of a firing is encodable if the one of `make_envelope` is. -/
theorem Firing.encode_fieldsOf (floatToken : ℚ → JsonNumber) (f : Firing)
    (fields : List (String × PyValue)) :
    encode floatToken (fieldsOf (fields ++ f.beatFields)) =
      (encode floatToken (fieldsOf fields)).map fun
        | .obj ms => .obj (ms ++ f.beatMembers)
        | t => t := by
  have hvalid : validateJsonTypes 1 (fieldsOf (fields ++ f.beatFields)) =
      validateJsonTypes 1 (fieldsOf fields) := by
    show validateEntries 2 _ = validateEntries 2 _
    rw [List.map_append, validateEntries_append]
    show Except.bind _ (fun _ => .ok ()) = _
    cases validateEntries 2 (fields.map fun g => (.str (PyStr.ofString g.1), g.2)) <;> rfl
  have htext : toText floatToken (fieldsOf (fields ++ f.beatFields)) =
      (toText floatToken (fieldsOf fields)).map fun
        | .obj ms => .obj (ms ++ f.beatMembers)
        | t => t := by
    rw [fieldsOf, fieldsOf, toText, toText, List.map_append, entriesText_append,
      f.entriesText_beatFields]
    cases entriesText floatToken (fields.map fun g => (.str (PyStr.ofString g.1), g.2)) <;> rfl
  unfold encode
  rw [hvalid, htext]
  cases validateJsonTypes 1 (fieldsOf fields) with
  | error e => rfl
  | ok u => cases toText floatToken (fieldsOf fields) <;> rfl

/-! ### Its length -/

/-- The bytes that members add to an object that is not empty: each with its comma. -/
def addedBytes (ms : List (List StrPart × JsonText)) : ℕ :=
  (ms.map fun m => 1 + byteLength (memberChars m.1 m.2.chars)).sum

theorem byteLength_tailChars_append (xs ys : List (List Char)) :
    byteLength (tailChars '\x7d' (xs ++ ys)) =
      byteLength (tailChars '\x7d' xs) + (ys.map fun y => 1 + byteLength y).sum := by
  induction xs with
  | nil =>
    induction ys with
    | nil => rfl
    | cons y ys ih =>
      have hcomma : Char.utf8Size ',' = 1 := rfl
      rw [List.nil_append] at ih ⊢
      show byteLength (',' :: (y ++ tailChars '\x7d' ys)) = _
      rw [byteLength_cons, byteLength_append, ih, List.map_cons, List.sum_cons, hcomma]
      omega
  | cons x xs ih =>
    show byteLength (',' :: (x ++ tailChars '\x7d' (xs ++ ys))) =
      byteLength (',' :: (x ++ tailChars '\x7d' xs)) + _
    rw [byteLength_cons, byteLength_append, ih, byteLength_cons, byteLength_append]
    omega

theorem byteLength_obj_append {ms : List (List StrPart × JsonText)} (hms : ms ≠ [])
    (ms' : List (List StrPart × JsonText)) :
    byteLength (chars (.obj (ms ++ ms'))) = byteLength (chars (.obj ms)) + addedBytes ms' := by
  obtain ⟨m, ms, rfl⟩ := List.exists_cons_of_ne_nil hms
  rw [chars_obj, chars_obj, List.cons_append, List.map_cons, List.map_cons, List.map_append]
  show byteLength ('\x7b' :: (_ ++ tailChars '\x7d' (_ ++ _))) =
    byteLength ('\x7b' :: (_ ++ tailChars '\x7d' _)) + _
  rw [byteLength_cons, byteLength_append, byteLength_tailChars_append, byteLength_cons,
    byteLength_append, List.map_map]
  show _ = _ + addedBytes ms'
  unfold addedBytes
  simp only [Function.comp_def]
  omega

/-! ### The limit -/

@[simp] theorem raw_publish (raw : List Char) (queue : PyStr) (fireAt : Option ℤ) :
    (publish raw queue fireAt).raw = raw := by
  cases fireAt <;> rfl

/-- No envelope over the limit is written, and a run that refuses writes nothing. -/
structure Produced.KeepsLimit (app : App) (out : Produced) : Prop where
  within : ∀ w ∈ out.writes, (byteLength w.raw : ℤ) ≤ app.maxEnvelopeBytes
  refused : ∀ e, out.raised = some e → e ≠ .redis → out.writes = []

theorem keepsLimit_refused (app : App) (raised : Option ProducerError) :
    Produced.KeepsLimit app ⟨[], raised⟩ :=
  ⟨nofun, fun _ _ _ => rfl⟩

theorem keepsLimit_sent {app : App} (landed : Option ℕ) {ws : List QueueWrite}
    (h : ∀ w ∈ ws, (byteLength w.raw : ℤ) ≤ app.maxEnvelopeBytes) :
    (sent landed ws).KeepsLimit app := by
  cases landed with
  | none => exact ⟨h, nofun⟩
  | some k =>
    refine ⟨fun w hw => h w (List.mem_of_mem_take hw), fun e he hne => ?_⟩
    exact absurd (Option.some.inj he).symm hne

theorem keepsLimit_sendPrepared {app : App} (landed : Option ℕ)
    {prepared : Except ProducerError (List QueueWrite)}
    (h : ∀ ws, prepared = .ok ws → ∀ w ∈ ws, (byteLength w.raw : ℤ) ≤ app.maxEnvelopeBytes) :
    (sendPrepared landed prepared).KeepsLimit app := by
  cases prepared with
  | error e => exact keepsLimit_refused app _
  | ok ws => exact keepsLimit_sent landed (h ws rfl)

section Limit

variable {floatToken : ℚ → JsonNumber} {app : App}

/-- `_encode_envelope` stands between a call and its write. -/
theorem App.le_of_prepare {c : TaskCall} {w : QueueWrite}
    (h : app.prepare floatToken c = .ok w) : (byteLength w.raw : ℤ) ≤ app.maxEnvelopeBytes := by
  unfold App.prepare at h
  obtain ⟨⟨fields, queueName, fireAt⟩, -, h⟩ := bind_eq_ok h
  obtain ⟨raw, hraw, h⟩ := bind_eq_ok h
  obtain ⟨-, -, hle, -⟩ := App.encodeEnvelope_eq_ok (mapError_eq_ok hraw)
  cases h
  rwa [raw_publish]

theorem App.le_of_prepareMany {calls : List Element} {ws : List QueueWrite}
    (h : app.prepareMany floatToken calls = .ok ws) :
    ∀ w ∈ ws, (byteLength w.raw : ℤ) ≤ app.maxEnvelopeBytes := by
  unfold App.prepareMany at h
  induction calls generalizing ws with
  | nil =>
    cases h
    nofun
  | cons call calls ih =>
    rw [List.mapM_cons] at h
    obtain ⟨w, hw, h⟩ := bind_eq_ok h
    obtain ⟨ws', hws', h⟩ := bind_eq_ok h
    obtain ⟨c, -, hw⟩ := bind_eq_ok hw
    obtain ⟨-, -, hw⟩ := bind_eq_ok hw
    cases h
    intro w' hw'
    rcases List.mem_cons.1 hw' with rfl | hw'
    · exact App.le_of_prepare hw
    · exact ih hws' w' hw'

variable (floatToken app)

theorem App.keepsLimit_enqueue (landed : Option ℕ) (c : TaskCall) :
    (app.enqueue floatToken landed c).KeepsLimit app := by
  refine keepsLimit_sendPrepared landed fun ws hws w hw => ?_
  obtain ⟨w', hw', rfl⟩ := map_eq_ok hws
  obtain rfl := List.mem_singleton.1 hw
  exact App.le_of_prepare hw'

theorem App.keepsLimit_applyAsync (landed : Option ℕ) (c : TaskCall) :
    (app.applyAsync floatToken landed c).KeepsLimit app := by
  unfold App.applyAsync
  cases c.checkSignature with
  | error e => exact keepsLimit_refused app _
  | ok u => exact app.keepsLimit_enqueue floatToken landed c

theorem App.keepsLimit_aapplyAsync (isAsync : Bool) (landed : Option ℕ) (c : TaskCall) :
    (app.aapplyAsync floatToken isAsync landed c).KeepsLimit app := by
  unfold App.aapplyAsync
  cases c.checkSignature with
  | error e => exact keepsLimit_refused app _
  | ok u =>
    cases isAsync with
    | true => exact app.keepsLimit_enqueue floatToken landed c
    | false => exact keepsLimit_refused app _

theorem App.keepsLimit_enqueueMany (landed : Option ℕ) (calls : List Element) :
    (app.enqueueMany floatToken landed calls).KeepsLimit app := by
  unfold App.enqueueMany
  split
  · exact keepsLimit_refused app _
  · exact keepsLimit_sendPrepared landed fun ws hws => App.le_of_prepareMany hws

/-- The bytes of the two fields a firing adds. -/
def Firing.beatBytes (f : Firing) : ℕ := addedBytes f.beatMembers

/-- A firing gets as far as its publish: its slot is not skipped, and the claim finds it. -/
structure Firing.Publishes (f : Firing) : Prop where
  advances : (f.entry.schedule.advancePastWithMissed f.slot f.now).isSome
  notSuppressed : suppress f.entry.toScheduleEntry f.slot f.now = some false
  wins : f.wins
  cut : f.cut ≠ some 0

/-- The envelope of `make_envelope` leaves too little room for the fields of the beat. -/
def Firing.Overflows (f : Firing) : Prop :=
  ∃ fields queueName fireAt tree, app.makeEnvelope f.call = .ok (fields, queueName, fireAt) ∧
    encode floatToken (fieldsOf fields) = .ok tree ∧
    app.maxEnvelopeBytes < (byteLength tree.chars : ℤ) + f.beatBytes

/-- Where a firing gets as far as its publish it writes its payload. -/
theorem fire_of_publishes {f : Firing} (h : f.Publishes) :
    fire floatToken app f =
      match f.payload floatToken app with
      | .error e => ⟨[], some (.call e)⟩
      | .ok (raw, queueName, fireAt) => sent f.cut [publish raw queueName fireAt] := by
  obtain ⟨next, hnext⟩ := Option.isSome_iff_exists.1 h.advances
  unfold fire
  rw [hnext, h.notSuppressed]
  cases f.payload floatToken app with
  | error e => rfl
  | ok p => exact if_pos h.wins

/-- Elsewhere it writes nothing. -/
theorem writes_fire_of_not_publishes {f : Firing} (h : ¬ f.Publishes) :
    (fire floatToken app f).writes = [] := by
  unfold fire
  cases hnext : f.entry.schedule.advancePastWithMissed f.slot f.now with
  | none => rfl
  | some next =>
    cases hsuppress : suppress f.entry.toScheduleEntry f.slot f.now with
    | none => rfl
    | some suppressed =>
      cases suppressed with
      | true => rfl
      | false =>
        cases f.payload floatToken app with
        | error e => rfl
        | ok p =>
          by_cases hwins : f.wins
          · -- only the failure before the first write is left
            have hcut : f.cut = some 0 := by
              by_contra hcut
              exact h ⟨by rw [hnext]; rfl, hsuppress, hwins, hcut⟩
            show Produced.writes (if f.wins then _ else _) = []
            rw [if_pos hwins, hcut]
            rfl
          · show Produced.writes (if f.wins then _ else _) = []
            rw [if_neg hwins]

theorem Firing.payload_of_encode {f : Firing} {fields : List (String × PyValue)}
    {queueName : PyStr} {fireAt : Option ℤ} {ms : List (List StrPart × JsonText)}
    (hmake : app.makeEnvelope f.call = .ok (fields, queueName, fireAt))
    (hencode : encode floatToken (fieldsOf fields) = .ok (.obj ms)) :
    f.payload floatToken app = .ok (chars (.obj (ms ++ f.beatMembers)), queueName, fireAt) := by
  unfold Firing.payload
  rw [hmake]
  show (Except.mapError _ (encode floatToken (fieldsOf (fields ++ f.beatFields))) >>= _) = _
  rw [f.encode_fieldsOf, hencode]
  rfl

/-- The payload is the envelope of `make_envelope`, longer by the fields of the beat. -/
theorem Firing.exists_of_payload {f : Firing} {raw : List Char} {queueName : PyStr}
    {fireAt : Option ℤ} (h : f.payload floatToken app = .ok (raw, queueName, fireAt)) :
    ∃ fields ms, app.makeEnvelope f.call = .ok (fields, queueName, fireAt) ∧
      encode floatToken (fieldsOf fields) = .ok (.obj ms) ∧
      byteLength raw = byteLength (chars (.obj ms)) + f.beatBytes := by
  obtain ⟨⟨fields, queueName', fireAt'⟩, hmake, h⟩ := bind_eq_ok h
  obtain ⟨tree, htree, h⟩ := bind_eq_ok h
  cases h
  replace htree := mapError_eq_ok htree
  rw [f.encode_fieldsOf] at htree
  obtain ⟨t, ht, rfl⟩ := map_eq_ok htree
  obtain ⟨-, htext⟩ := encode_eq_ok ht
  obtain ⟨ms, hms, rfl⟩ := Option.map_eq_some_iff.1 htext
  -- an envelope always has its first field
  have hne : ms ≠ [] := by
    obtain ⟨-, -, notBefore, queueTtlMs, given, -, -, -, -, hfields⟩ := App.makeEnvelope_eq_ok hmake
    obtain ⟨fs, hfs, rfl⟩ := exists_encoded hms
    rintro hnil
    have hnames := hfs.names
    rw [List.map_eq_nil_iff.1 hnil, hfields] at hnames
    cases hnames
  exact ⟨fields, ms, hmake, ht, byteLength_obj_append hne f.beatMembers⟩

theorem writes_sent {landed : Option ℕ} (h : landed ≠ some 0) (w : QueueWrite) :
    (sent landed [w]).writes = [w] := by
  cases landed with
  | none => rfl
  | some k =>
    obtain ⟨k, rfl⟩ := Nat.exists_eq_succ_of_ne_zero fun hk => h (congrArg some hk)
    show List.take (k + 1) [w] = [w]
    rw [List.take_succ_cons, List.take_nil]

/-- **A firing keeps the limit unless it publishes an envelope without room for its own fields.** -/
theorem keepsLimit_fire_iff (f : Firing) :
    (fire floatToken app f).KeepsLimit app ↔ ¬ (f.Publishes ∧ f.Overflows floatToken app) := by
  by_cases hpub : f.Publishes
  · rw [fire_of_publishes floatToken app hpub]
    cases hpayload : f.payload floatToken app with
    | error e =>
      refine iff_of_true (keepsLimit_refused app _) ?_
      rintro ⟨-, fields, queueName, fireAt, tree, hmake, hencode, -⟩
      obtain ⟨-, htext⟩ := encode_eq_ok hencode
      obtain ⟨ms, -, rfl⟩ := Option.map_eq_some_iff.1 htext
      rw [Firing.payload_of_encode floatToken app hmake hencode] at hpayload
      cases hpayload
    | ok p =>
      obtain ⟨raw, queueName, fireAt⟩ := p
      obtain ⟨fields, ms, hmake, hencode, hbytes⟩ := Firing.exists_of_payload floatToken app hpayload
      constructor
      · rintro ⟨hwithin, -⟩ ⟨-, fields', queueName', fireAt', tree', hmake', hencode', hlt⟩
        rw [hmake] at hmake'
        cases hmake'
        rw [hencode] at hencode'
        cases hencode'
        have hle := hwithin _ (by rw [writes_sent hpub.cut]; exact List.mem_singleton_self _)
        rw [raw_publish, hbytes] at hle
        omega
      · intro hfits
        refine keepsLimit_sent f.cut fun w hw => ?_
        obtain rfl := List.mem_singleton.1 hw
        by_contra hlt
        rw [raw_publish, hbytes] at hlt
        exact hfits ⟨hpub, fields, queueName, fireAt, _, hmake, hencode, by omega⟩
  · refine iff_of_true ⟨?_, ?_⟩ fun h => hpub h.1
    · rw [writes_fire_of_not_publishes floatToken app hpub]
      nofun
    · intro _ _ _
      exact writes_fire_of_not_publishes floatToken app hpub

/-- The runs that break the limit: firings that publish an envelope without room for their fields. -/
def Producer.Oversize : Producer → Prop
  | .fire f => f.Publishes ∧ f.Overflows floatToken app
  | _ => False

/-- **The runs that keep the limit.** Every call checks its envelope before the first write; a firing
encodes its own and does not. -/
theorem published_within_limit_iff (p : Producer) :
    (p.run floatToken app).KeepsLimit app ↔ ¬ p.Oversize floatToken app := by
  cases p with
  | delay landed p => exact iff_of_true (app.keepsLimit_applyAsync floatToken landed _) id
  | applyAsync landed c => exact iff_of_true (app.keepsLimit_applyAsync floatToken landed c) id
  | adelay isAsync landed p =>
    exact iff_of_true (app.keepsLimit_aapplyAsync floatToken isAsync landed _) id
  | aapplyAsync isAsync landed c =>
    exact iff_of_true (app.keepsLimit_aapplyAsync floatToken isAsync landed c) id
  | enqueueMany landed calls =>
    exact iff_of_true (app.keepsLimit_enqueueMany floatToken landed calls) id
  | aenqueueMany landed calls =>
    exact iff_of_true (app.keepsLimit_enqueueMany floatToken landed calls) id
  | fire f => exact keepsLimit_fire_iff floatToken app f

end Limit

/-! ### A firing over the limit -/

/-- An app with a small limit. -/
def smallApp : App :=
  { defaultQueue := PyStr.ofString "default", taskRoutes := [], queueTtl := [],
    maxEnvelopeBytes := 512, maxEnvelopeBytes_pos := by decide }

/-- A periodic task with a long argument. -/
def longEntry : BeatEntry :=
  { name := "nightly", task := "jobs.report", schedule := .interval 60_000 (by decide),
    args := [.str (List.replicate 200 (.char 'x'))] }

/-- It is due, and the claim will find its slot. -/
def longFiring : Firing :=
  { entry := longEntry, slot := 60_000, now := 60_000, tasks := fun _ => none,
    urandom := zeroBytes,
    store := { due := (∅ : Hash ℤ).insert "nightly" (slotScore 60_000) } }

theorem publishes_longFiring : longFiring.Publishes :=
  ⟨rfl, rfl, AList.lookup_insert _, by decide⟩

theorem makeEnvelope_longFiring : smallApp.makeEnvelope longFiring.call =
    .ok (longFiring.call.envelope (PyStr.ofString "default") none none, PyStr.ofString "default",
      none) := rfl

theorem overflows_longFiring : longFiring.Overflows wholeToken smallApp := by
  have hlong : ((encode wholeToken (fieldsOf
      (longFiring.call.envelope (PyStr.ofString "default") none none))).toOption.any fun tree =>
        512 < byteLength tree.chars + longFiring.beatBytes) = true := by
    decide +kernel
  obtain ⟨tree, htree, hlt⟩ := (Option.any_eq_true _ _).1 hlong
  refine ⟨_, _, _, tree, makeEnvelope_longFiring, ?_, ?_⟩
  · cases hencode : encode wholeToken (fieldsOf
        (longFiring.call.envelope (PyStr.ofString "default") none none)) with
    | error e => rw [hencode] at htree; cases htree
    | ok t => rw [hencode] at htree; cases htree; rfl
  · have := of_decide_eq_true hlt
    show (512 : ℤ) < _
    omega

/-- **A firing publishes an envelope over the limit.** -/
theorem nightly_over_the_limit :
    ¬ ((Producer.fire longFiring).run wholeToken smallApp).KeepsLimit smallApp := by
  intro h
  exact (keepsLimit_fire_iff wholeToken smallApp longFiring).1 h
    ⟨publishes_longFiring, overflows_longFiring⟩

end Cauli
