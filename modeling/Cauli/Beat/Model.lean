import Mathlib.Data.List.AList
import Mathlib.Data.List.Sort
import Mathlib.Logic.Function.Basic
import Cauli.Lib.Binary64
import Cauli.Lib.Transition
import Cauli.Beat.Schedule

/-!
# The beat scheduler (`py/cauli/beat.py`)

The beat keys in Redis (`Store`), any number of beat replicas (`Tick`, the position of a replica in
`Beat.tick`), and the steps they take. A step is one Redis command or one script; a replica keeps
what it has read so far, however old, and may stop for good between any two steps.

* `seed` and `claimAndPublish`: the scripts `_SEED_LUA` and `_CLAIM_LUA`, as lists of the writes they
  make; a script that fails midway has made the first of them (`runWrites`);
* `fireArgs`: what `Beat._fire` passes to the claim script;
* `tickStep`: one step of a tick;
* `beatSystem`: replicas, the Redis clock and edits of the definitions.

The lease is left out: a replica may start a tick whenever it likes. The pipelines of
`slots_and_revs`, `drop_slot` and `delete` are not transactions, so each of their commands is a step.
The fields `published` and `claimed` are records of the run; the queue keys the envelopes go to are
not kept otherwise.
-/

namespace Cauli

/-- A Redis hash, or a sorted set with its scores. -/
abbrev Hash (β : Type) := AList fun _ : String => β

/-- The score of a slot: the nearest double, which is an integer too. -/
def slotScore (slot : ℤ) : ℤ := (F64.ofInt slot).floor?.getD slot

/-- How a claim publishes: not at all (a skip), to the stream, or to the delayed set. -/
inductive Mode
  | none
  | stream
  | delayed (score : ℤ)
  deriving DecidableEq

/-- A published envelope of an entry: its `beat_name`, its `beat_slot` and its mode. -/
structure Publication where
  name : String
  slot : ℤ
  mode : Mode
  deriving DecidableEq

/-- The last firing of an entry. -/
structure FiringState where
  lastSlot : ℤ
  firedAt : ℤ
  latenessMs : ℤ
  skipped : Bool
  taskId : Option String
  nextSlot : ℤ
  instance_ : ℕ
  deriving DecidableEq

/-- The beat keys, and a record of the run so far. -/
structure Store where
  time : ℤ := 0
  schedule : Hash ScheduleEntry := ∅
  due : Hash ℤ := ∅
  rev : Hash String := ∅
  state : Hash FiringState := ∅
  runs : Hash ℕ := ∅
  published : List Publication := []
  claimed : List (String × ℤ) := []

/-! ### Scripts -/

/-- The writes of the two scripts. The slot of a claim is recorded when it is advanced. -/
inductive BeatWrite
  | publish (p : Publication)
  | countRun (name : String)
  | setSlot (name : String) (slot : ℤ) (claims : Option ℤ)
  | setRev (name rev : String)
  | setState (name : String) (st : FiringState)

/-- One write. -/
def BeatWrite.apply (s : Store) : BeatWrite → Store
  | publish p => { s with published := s.published ++ [p] }
  | countRun name => { s with runs := s.runs.insert name ((s.runs.lookup name).getD 0 + 1) }
  | setSlot name slot claims =>
    { s with
      due := s.due.insert name (slotScore slot)
      claimed := s.claimed ++ claims.toList.map fun c => (name, c) }
  | setRev name rev => { s with rev := s.rev.insert name rev }
  | setState name st => { s with state := s.state.insert name st }

/-- A script makes all its writes, or fails after the first `k`. Nothing is rolled back. -/
def runWrites (cut : Option ℕ) (ws : List BeatWrite) (s : Store) : Store :=
  ((match cut with
    | none => ws
    | some k => ws.take k).foldl BeatWrite.apply s)

/-- The check of `_SEED_LUA`: an entry with this fingerprint and a slot stays as it is. -/
def isSeeded (s : Store) (name rev : String) : Bool :=
  s.rev.lookup name == some rev && (s.due.lookup name).isSome

/-- `_SEED_LUA`. -/
def seed (cut : Option ℕ) (name : String) (slot : ℤ) (rev : String) (s : Store) : Store :=
  if isSeeded s name rev then s
  else runWrites cut [.setSlot name slot none, .setRev name rev] s

/-- The arguments of a claim. -/
structure Claim where
  name : String
  expected : ℤ
  next : ℤ
  mode : Mode
  state : FiringState

/-- The writes of `_CLAIM_LUA`: the publish stays above the slot. -/
def Claim.writes (c : Claim) : List BeatWrite :=
  (match c.mode with
    | .none => []
    | m => [.publish ⟨c.name, c.expected, m⟩, .countRun c.name]) ++
  [.setSlot c.name c.next (some c.expected), .setState c.name c.state]

/-- `_CLAIM_LUA`: fires only if the stored slot still equals the expected one. -/
def claimAndPublish (cut : Option ℕ) (c : Claim) (s : Store) : Store :=
  if s.due.lookup c.name = some (slotScore c.expected) then runWrites cut c.writes s else s

/-! ### A tick -/

/-- `DUE_BATCH`: most due entries claimed per tick. -/
def DUE_BATCH : ℕ := 500

/-- Rows of a sorted set in score order, by name at equal scores. -/
def rowLe (a b : String × ℤ) : Prop := a.2 < b.2 ∨ (a.2 = b.2 ∧ a.1 ≤ b.1)

instance : DecidableRel rowLe := fun _ _ => inferInstanceAs (Decidable (_ ∨ _))

/-- `due`: the slots up to `now`, the earliest first, at most `limit` of them. -/
def dueRows (s : Store) (now : ℤ) (limit : ℕ) : List (String × ℤ) :=
  (((s.due.entries.map fun p => (p.1, p.2)).filter fun p => p.2 ≤ now).insertionSort rowLe).take limit

/-- What `make_envelope` returned, when it did not raise. -/
structure Built where
  id : String
  fireAt : Option ℤ := none

/-- `suppress`: whether a late slot is skipped, judged on the newest coalesced slot; `none` when
`max_lateness_ms` or the fast forward raises. -/
def suppress (e : ScheduleEntry) (slot now : ℤ) : Option Bool :=
  match e.onMissed with
  | .fireOnce => some false
  | .skip =>
    match e.maxLatenessMs with
    | none => none
    | some none => some false
    | some (some maxLateness) =>
      if (maxLateness : ℤ) < now - slot then
        (e.schedule.advancePast slot (now - maxLateness - 1)).map fun z => decide (now < z)
      else some false

/-- The arguments `_fire` passes to the claim script; `none` when it raises or returns before. -/
def fireArgs (r : ℕ) (e : ScheduleEntry) (slot now : ℤ) (built : Option Built) : Option Claim :=
  match e.schedule.advancePastWithMissed slot now, suppress e slot now with
  | some (next, _), some suppressed =>
    let state (taskId : Option String) : FiringState :=
      ⟨slot, now, now - slot, suppressed, taskId, next, r⟩
    if suppressed then some ⟨e.name, slot, next, .none, state none⟩
    else built.map fun b =>
      ⟨e.name, slot, next, (match b.fireAt with
        | none => .stream
        | some t => .delayed t), state (some b.id)⟩
  | _, _ => none

/-- Where a replica stands in its tick, with what it has read. -/
inductive Tick
  | idle
  | timed (now : ℤ)
  | loaded (now : ℤ) (entries : Hash ScheduleEntry)
  /-- Between the two commands of `slots_and_revs`. -/
  | slotsRead (now : ℤ) (entries : Hash ScheduleEntry) (slots : List String)
  /-- In the loop over the entries. -/
  | seeding (now : ℤ) (entries : Hash ScheduleEntry) (slots : List String) (revs : Hash String)
      (todo : List (String × ScheduleEntry))
  /-- In the loop over the slots without a definition. -/
  | sweeping (now : ℤ) (entries : Hash ScheduleEntry) (todo : List String)
  /-- In the loop over the due rows. -/
  | firing (now : ℤ) (entries : Hash ScheduleEntry) (todo : List (String × ℤ))

/-- A replica: its tick, and the second command of a `drop_slot` it is in. -/
structure Replica where
  tick : Tick := .idle
  dropping : Option String := none

/-- The steps of a tick. -/
inductive TickLabel
  | now
  | load
  | readSlots
  | readRevs
  | seedNext (cut : Option ℕ)
  | sweepNext
  | dropRev
  | readDue
  | fireNext (built : Option Built) (cut : Option ℕ)
  | done
  | crash

/-- One entry of the seeding loop, after `drop_slot`'s first command or the script. -/
def seedEntry (hash : ScheduleSpec → Bool → String) (cut : Option ℕ) (s : Store) (now : ℤ)
    (slots : List String) (revs : Hash String) (name : String) (e : ScheduleEntry) :
    Store × Option String :=
  if e.enabled then
    if name ∈ slots ∧ revs.lookup name = some (e.rev hash) then (s, none)
    else match e.schedule.nextAfter now with
      | none => (s, none)
      | some first => (seed cut name first (e.rev hash) s, none)
  else if name ∈ slots then ({ s with due := s.due.erase name }, some name)
  else (s, none)

/-- One due row: a claim, or the first command of a `drop_slot`. -/
def fireRow (r : ℕ) (s : Store) (now : ℤ) (entries : Hash ScheduleEntry) (built : Option Built)
    (cut : Option ℕ) (name : String) (slot : ℤ) : Store × Option String :=
  match entries.lookup name with
  | some e =>
    if e.enabled then
      match fireArgs r e slot now built with
      | some c => (claimAndPublish cut c s, none)
      | none => (s, none)
    else ({ s with due := s.due.erase name }, some name)
  | none => ({ s with due := s.due.erase name }, some name)

/-- A step of replica `r` from its position in the tick. -/
def tickBody (hash : ScheduleSpec → Bool → String) (r : ℕ) (s : Store) (tick : Tick) :
    TickLabel → Option (Store × Replica)
  | .now => match tick with
    | .idle => some (s, { tick := .timed s.time })
    | _ => none
  | .load => match tick with
    | .timed now => some (s, { tick := .loaded now s.schedule })
    | _ => none
  | .readSlots => match tick with
    | .loaded now entries => some (s, { tick := .slotsRead now entries s.due.keys })
    | _ => none
  | .readRevs => match tick with
    | .slotsRead now entries slots =>
      some (s, { tick := .seeding now entries slots s.rev (entries.entries.map fun p => (p.1, p.2)) })
    | _ => none
  | .seedNext cut => match tick with
    | .seeding now entries slots revs ((name, e) :: todo) =>
      let out := seedEntry hash cut s now slots revs name e
      some (out.1, { tick := .seeding now entries slots revs todo, dropping := out.2 })
    | _ => none
  | .sweepNext => match tick with
    | .seeding now entries slots _ [] =>
      some (s, { tick := .sweeping now entries (slots.filter fun n => decide (n ∉ entries)) })
    | .sweeping now entries (name :: todo) =>
      some ({ s with due := s.due.erase name },
        { tick := .sweeping now entries todo, dropping := some name })
    | _ => none
  | .readDue => match tick with
    | .sweeping now entries [] =>
      some (s, { tick := .firing now entries (dueRows s now DUE_BATCH) })
    | _ => none
  | .fireNext built cut => match tick with
    | .firing now entries ((name, slot) :: todo) =>
      let out := fireRow r s now entries built cut name slot
      some (out.1, { tick := .firing now entries todo, dropping := out.2 })
    | _ => none
  | .done => match tick with
    | .firing _ _ [] => some (s, {})
    | _ => none
  | .dropRev => none
  | .crash => none

/-- A step of replica `r`. A `drop_slot` is finished before the tick goes on. -/
def tickStep (hash : ScheduleSpec → Bool → String) (r : ℕ) (s : Store) (R : Replica) :
    TickLabel → Option (Store × Replica)
  | .crash => some (s, {})
  | .dropRev => match R.dropping with
    | some name => some ({ s with rev := s.rev.erase name }, { R with dropping := none })
    | none => none
  | l => if R.dropping.isSome then none else tickBody hash r s R.tick l

/-! ### The system -/

/-- The commands of `delete`. -/
inductive DeleteCommand
  | definition
  | slot
  | rev
  | state
  | runs

/-- One command of `delete`. -/
def deleteStep (s : Store) (name : String) : DeleteCommand → Store
  | .definition => { s with schedule := s.schedule.erase name }
  | .slot => { s with due := s.due.erase name }
  | .rev => { s with rev := s.rev.erase name }
  | .state => { s with state := s.state.erase name }
  | .runs => { s with runs := s.runs.erase name }

/-- The beat keys and the replicas. -/
structure BeatState where
  store : Store := {}
  replicas : ℕ → Replica := fun _ => {}

/-- A reading of the Redis clock, an edit of a definition, or a step of a replica. -/
inductive BeatLabel
  | time (t : ℤ)
  | upsert (e : ScheduleEntry)
  | delete (name : String) (command : DeleteCommand)
  | tick (r : ℕ) (l : TickLabel)

/-- A step. -/
def beatStep (hash : ScheduleSpec → Bool → String) (s : BeatState) : BeatLabel → Option BeatState
  | .time t => some { s with store := { s.store with time := t } }
  | .upsert e =>
    some { s with store := { s.store with schedule := s.store.schedule.insert e.name e } }
  | .delete name command => some { s with store := deleteStep s.store name command }
  | .tick r l =>
    (tickStep hash r s.store (s.replicas r) l).map fun p =>
      ⟨p.1, Function.update s.replicas r p.2⟩

/-- Beat, from any contents of its keys that satisfy `P`, with no replica in a tick and no record. -/
def beatSystem (hash : ScheduleSpec → Bool → String) (P : Store → Prop) :
    Transition.System BeatState BeatLabel where
  init s := P s.store ∧ s.store.published = [] ∧ s.store.claimed = [] ∧ ∀ r, s.replicas r = {}
  step := beatStep hash

end Cauli
