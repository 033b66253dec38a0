import Cauli.Lib.KeyedFold
import Cauli.Lib.Saturating
import Cauli.Lib.Transition

/-!
# Serving a cpu child (`worker/src/cpu.rs`)

`serve_child` moves a job from the channel to a buffer that is being written, from there to the map of
requests the child has, and answers it when the child does or when the child is gone. One turn of its
loop is one step; which branch of the `select!` is taken, what the child sends, how much of a write
goes through and every reading of a clock are part of the label.

* `armStarted`: starts the clock of the oldest requests;
* `loopTop`: what every turn does before the `select!`;
* `select`: the branches, with their guards;
* `drain`: what is left to do when the loop is left;
* `serveSystem`: the runs of one call.

`idOf` is the id a response line carries, if it parses. A sender is named by the id of its job. The
fields `accepted` and `armed` are records of the run.
-/

namespace Cauli.Cpu

/-- What a caller is told. -/
inductive CpuOutcome
  | resp (line : String)
  | timeout
  | lost
  deriving DecidableEq

/-- A job. -/
structure CpuJob where
  id : String
  reqLine : String
  timeoutMs : ℕ
  deriving DecidableEq

/-- A request the child has; no deadline as long as it is queued behind earlier work. -/
structure Pending where
  resp : String
  timeoutMs : ℕ
  deadline : Option ℕ

/-- A request that is not fully written. -/
structure PendingWrite where
  id : String
  buf : List UInt8
  sent : ℕ
  resp : String
  timeoutMs : ℕ
  budget : ℕ

/-- What is left to write. -/
def PendingWrite.remaining (pw : PendingWrite) : List UInt8 := pw.buf.drop pw.sent

/-- The requests by id. -/
abbrev PendingMap := AList fun _ : String => Pending

/-- Why the loop is left. -/
inductive ChildGone
  | exited
  | hardTimeout
  | wedged
  | recycled
  | shutdown
  deriving DecidableEq

/-- What the slot does next. -/
inductive ServeExit
  | shutdown
  | recycled
  | died
  deriving DecidableEq

/-- The exit of a call. -/
def ChildGone.serveExit : ChildGone → ServeExit
  | shutdown => .shutdown
  | recycled => .recycled
  | exited | hardTimeout | wedged => .died

/-- The settings of a slot, and the threads of its child. -/
structure ServeCfg where
  prefetch : ℕ
  recycle : ℕ
  concurrency : ℕ

/-- The latest instant there is, in milliseconds: seconds are an `i64`. -/
def INSTANT_MAX : ℕ := (2 ^ 63 - 1) * 1000 + 999

/-- The deadline of a request that starts now. -/
def deadlineFor (now timeoutMs : ℕ) : ℕ :=
  if now + timeoutMs ≤ INSTANT_MAX then now + timeoutMs else now + 86_400 * 365 * 1000

/-- The state of a call: its variables, its share of the counters, and what it has sent. -/
structure Serve where
  idle : Bool := true
  pending : PendingMap := ∅
  order : List String := []
  completed : ℕ := 0
  pendingWrite : Option PendingWrite := none
  writeStallSince : Option ℕ := none
  inflightCpu : ℤ := 0
  idleSlots : ℤ := 0
  sent : List (String × CpuOutcome) := []
  killed : Bool := false
  exit : Option (ChildGone × ℕ) := none
  accepted : List CpuJob := []
  armed : List (String × ℕ) := []

/-- The loop of `arm_started`, from a number of running requests; and the deadlines it sets. -/
def armLoop (concurrency : ℕ) (clock : String → ℕ) :
    List String → ℕ → PendingMap → PendingMap × List (String × ℕ)
  | [], _, m => (m, [])
  | id :: rest, running, m =>
    if concurrency ≤ running then (m, [])
    else
      match m.lookup id with
      | some p =>
        match p.deadline with
        | none =>
          let d := deadlineFor (clock id) p.timeoutMs
          let out := armLoop concurrency clock rest (running + 1)
            (m.insert id { p with deadline := some d })
          (out.1, (id, d) :: out.2)
        | some _ => armLoop concurrency clock rest running m
      | none => armLoop concurrency clock rest running m

/-- The deadlines that are set. -/
def deadlines (m : PendingMap) : List ℕ := m.entries.filterMap fun e => e.2.deadline

/-- `arm_started`. -/
def armStarted (concurrency : ℕ) (clock : String → ℕ) (s : Serve) : Serve :=
  let out := armLoop concurrency clock s.order (deadlines s.pending).length s.pending
  { s with pending := out.1, armed := s.armed ++ out.2 }

/-- What the branches of the `select!` wait for. -/
inductive Event
  /-- A line from the child. -/
  | line (l : String)
  /-- The end of the connection, or a read error. -/
  | closed
  | job (j : CpuJob)
  /-- The channel of the jobs is closed. -/
  | noJobs
  | wrote (n : ℕ)
  | writeFailed
  | deadline
  | stalled
  /-- Another slot got busy. -/
  | dropped

/-- A turn of the loop, with the readings of the clock and of the shared count of idle slots. -/
structure Turn where
  event : Event
  top : ℕ := 0
  now : ℕ := 0
  clock : String → ℕ := fun _ => 0
  idleCount : ℕ := 0

/-- The child could start another request. -/
def Serve.nowIdle (cfg : ServeCfg) (s : Serve) : Bool :=
  decide (s.pending.keys.length + (if s.pendingWrite.isSome then 1 else 0) < cfg.concurrency)

/-- Before the `select!`: the count of idle slots follows, and the stall of a write is timed. -/
def loopTop (cfg : ServeCfg) (t : Turn) (s : Serve) : Serve :=
  { s with
    idle := s.nowIdle cfg
    idleSlots := s.idleSlots +
      (if s.nowIdle cfg = s.idle then 0 else if s.nowIdle cfg then 1 else -1)
    writeStallSince :=
      if s.pendingWrite.isSome ∧ deadlines s.pending = [] then some (s.writeStallSince.getD t.top)
      else none }

/-- A response to a pending request. -/
def complete (cfg : ServeCfg) (t : Turn) (id l : String) (p : Pending) (s : Serve) :
    Serve × Option ChildGone :=
  let s' := armStarted cfg.concurrency t.clock
    { s with
      pending := s.pending.erase id
      order := s.order.filter (· ≠ id)
      completed := s.completed + 1
      inflightCpu := s.inflightCpu - 1
      sent := s.sent ++ [(p.resp, .resp l)] }
  (s', if 0 < cfg.recycle ∧ cfg.recycle ≤ s'.completed ∧ s'.pending.keys = [] then some .recycled
    else none)

/-- A job is taken from the channel. -/
def accept (j : CpuJob) (s : Serve) : Serve :=
  { s with
    pendingWrite := some
      { id := j.id, buf := j.reqLine.toUTF8.toList ++ [10], sent := 0, resp := j.id,
        timeoutMs := j.timeoutMs, budget := min j.timeoutMs 5000 }
    accepted := s.accepted ++ [j] }

/-- A write went through in part, or to the end. -/
def advanceWrite (cfg : ServeCfg) (t : Turn) (n : ℕ) (pw : PendingWrite) (s : Serve) : Serve :=
  if pw.buf.length ≤ pw.sent + n then
    armStarted cfg.concurrency t.clock
      { s with
        pendingWrite := none
        inflightCpu := s.inflightCpu + 1
        order := s.order ++ [pw.id]
        pending := s.pending.insert pw.id ⟨pw.resp, pw.timeoutMs, none⟩ }
  else { s with pendingWrite := some { pw with sent := pw.sent + n } }

/-- A write that fails, or writes nothing: the request is answered here. -/
def loseWrite (pw : PendingWrite) (s : Serve) : Serve :=
  { s with pendingWrite := none, sent := s.sent ++ [(pw.resp, .lost)] }

/-- The guard of the branch that takes a job. -/
def mayTake (cfg : ServeCfg) (t : Turn) (s : Serve) : Bool :=
  s.pendingWrite.isNone && decide (s.pending.keys.length < U64.satAdd cfg.concurrency cfg.prefetch) &&
    (s.idle || t.idleCount == 0) &&
    (cfg.recycle == 0 || decide (s.completed + s.pending.keys.length < cfg.recycle))

/-- The branches of the `select!`, and why the loop is left, if it is. -/
def select (idOf : String → Option String) (cfg : ServeCfg) (t : Turn) (s : Serve) :
    Option (Serve × Option ChildGone) :=
  match t.event with
  | .line l =>
    match idOf l with
    | none => some (s, none)
    | some id =>
      match s.pending.lookup id with
      | some p => some (complete cfg t id l p s)
      | none => some (s, none)
  | .closed => some (s, some .exited)
  | .job j => if mayTake cfg t s then some (accept j s, none) else none
  | .noJobs => if mayTake cfg t s then some (s, some .shutdown) else none
  | .wrote n =>
    match s.pendingWrite with
    | some pw =>
      if n = 0 then some (loseWrite pw s, some .exited)
      else if n ≤ pw.remaining.length then some (advanceWrite cfg t n pw s, none)
      else none
    | none => none
  | .writeFailed =>
    match s.pendingWrite with
    | some pw => some (loseWrite pw s, some .exited)
    | none => none
  | .deadline => if ∃ d ∈ deadlines s.pending, d ≤ t.now then some (s, some .hardTimeout) else none
  | .stalled =>
    match s.pendingWrite, s.writeStallSince with
    | some pw, some since =>
      if since + pw.budget ≤ t.now then some (s, some .wedged) else none
    | _, _ => none
  | .dropped => if s.idle || t.idleCount == 0 then none else some (s, none)

/-- The answer of a request that is left when the child is gone. -/
def leftover (gone : ChildGone) (now : ℕ) (p : Pending) : CpuOutcome :=
  if gone = .hardTimeout ∧ p.deadline.any (· ≤ now) then .timeout else .lost

/-- After the loop. -/
def drain (gone : ChildGone) (now : ℕ) (s : Serve) : Serve :=
  { s with
    killed := decide (gone ≠ .exited)
    pendingWrite := none
    pending := ∅
    inflightCpu := s.inflightCpu - s.pending.keys.length
    idleSlots := s.idleSlots + (if s.idle then 0 else 1)
    sent := s.sent ++ (s.pendingWrite.toList.map fun pw => (pw.resp, .lost)) ++
      s.pending.entries.map fun e => (e.2.resp, leftover gone now e.2)
    exit := some (gone, now) }

/-- One turn of the loop, with what follows it when it is the last. -/
def serveStep (idOf : String → Option String) (cfg : ServeCfg) (s : Serve) (t : Turn) :
    Option Serve :=
  if s.exit.isSome then none
  else
    (select idOf cfg t (loopTop cfg t s)).map fun
      | (s', none) => s'
      | (s', some gone) => drain gone t.now s'

/-- The runs of one call. -/
def serveSystem (idOf : String → Option String) (cfg : ServeCfg) :
    Transition.System Serve Turn where
  init s := s = {}
  step := serveStep idOf cfg

/-! ### Arming -/

theorem keys_insert_perm {m : PendingMap} {id : String} (h : id ∈ m) (p : Pending) :
    (m.insert id p).keys.Perm m.keys := by
  rw [AList.keys_insert]
  exact (List.perm_cons_erase (AList.mem_keys.1 h)).symm

/-- What `arm_started` does to the map: the same requests, some of them with a recorded deadline. -/
structure Armed (m m' : PendingMap) (new : List (String × ℕ)) : Prop where
  keys : m'.keys.Perm m.keys
  lookup : ∀ id p', m'.lookup id = some p' → ∃ p, m.lookup id = some p ∧ p'.resp = p.resp ∧
    ∀ d, p'.deadline = some d → p.deadline = some d ∨ (id, d) ∈ new

theorem Armed.refl (m : PendingMap) : Armed m m [] :=
  ⟨.refl _, fun _ p' h => ⟨p', h, rfl, fun _ hd => .inl hd⟩⟩

theorem armed_armLoop (concurrency : ℕ) (clock : String → ℕ) (ids : List String) (running : ℕ)
    (m : PendingMap) :
    Armed m (armLoop concurrency clock ids running m).1
      (armLoop concurrency clock ids running m).2 := by
  induction ids generalizing running m with
  | nil => exact .refl m
  | cons id rest ih =>
    unfold armLoop
    split_ifs
    · exact .refl m
    · cases hp : m.lookup id with
      | none => exact ih running m
      | some p =>
        cases hd : p.deadline with
        | some d => simpa only [hd] using ih running m
        | none =>
          simp only [hd]
          set d := deadlineFor (clock id) p.timeoutMs
          set m₁ := m.insert id { p with deadline := some d } with hm₁
          have hin : id ∈ m := AList.lookup_isSome.1 (by rw [hp]; rfl)
          obtain ⟨hkeys, hlookup⟩ := ih (running + 1) m₁
          refine ⟨hkeys.trans (keys_insert_perm hin _), fun id' p' hp' => ?_⟩
          obtain ⟨p₁, hp₁, hresp, hdeadline⟩ := hlookup id' p' hp'
          by_cases hid : id' = id
          · -- the request that is armed here
            subst hid
            rw [hm₁, AList.lookup_insert] at hp₁
            cases hp₁
            refine ⟨p, hp, hresp, fun d' hd' => ?_⟩
            rcases hdeadline d' hd' with h | h
            · cases h
              exact .inr List.mem_cons_self
            · exact .inr (List.mem_cons_of_mem _ h)
          · rw [hm₁, AList.lookup_insert_ne hid] at hp₁
            refine ⟨p₁, hp₁, hresp, fun d' hd' => ?_⟩
            exact (hdeadline d' hd').imp_right (List.mem_cons_of_mem _)

/-! ### The invariant -/

/-- **The ledger of a call.** Every accepted job is answered, being written, or with the child. -/
structure Ledger (s : Serve) : Prop where
  order : s.exit = none → s.order.Perm s.pending.keys
  inflight : s.inflightCpu = s.pending.keys.length
  idle : s.idleSlots = if s.exit.isSome || s.idle then 0 else -1
  resp : ∀ id p, s.pending.lookup id = some p → p.resp = id
  writing : ∀ pw ∈ s.pendingWrite, pw.resp = pw.id
  nodup : (s.accepted.map (·.id)).Nodup
  conserved : (s.accepted.map (·.id)).Perm
    (s.sent.map (·.1) ++ (s.pending.keys ++ s.pendingWrite.toList.map (·.id)))
  armed : ∀ id p d, s.pending.lookup id = some p → p.deadline = some d → (id, d) ∈ s.armed
  timeouts : ∀ id, (id, CpuOutcome.timeout) ∈ s.sent →
    ∃ gone now d, s.exit = some (gone, now) ∧ (id, d) ∈ s.armed ∧ d ≤ now

theorem ledger_init : Ledger {} :=
  ⟨fun _ => .refl _, rfl, rfl, nofun, nofun, .nil, .refl _, nofun, nofun⟩

/-- Arming keeps the ledger. -/
theorem Ledger.armStarted {s : Serve} (h : Ledger s) (concurrency : ℕ) (clock : String → ℕ) :
    Ledger (armStarted concurrency clock s) := by
  obtain ⟨hkeys, hlookup⟩ := armed_armLoop concurrency clock s.order
    (deadlines s.pending).length s.pending
  constructor
  · exact fun hexit => (h.order hexit).trans hkeys.symm
  · show s.inflightCpu = _
    rw [h.inflight]
    exact congrArg _ hkeys.length_eq.symm
  · exact h.idle
  · intro id p' hp'
    obtain ⟨p, hp, hresp, -⟩ := hlookup id p' hp'
    exact hresp.trans (h.resp id p hp)
  · exact h.writing
  · exact h.nodup
  · exact h.conserved.trans ((hkeys.symm.append_right _).append_left _)
  · intro id p' d hp' hd
    obtain ⟨p, hp, -, hdeadline⟩ := hlookup id p' hp'
    rcases hdeadline d hd with hold | hnew
    · exact List.mem_append_left _ (h.armed id p d hp hold)
    · exact List.mem_append_right _ hnew
  · intro id hid
    obtain ⟨gone, now, d, hexit, hd, hle⟩ := h.timeouts id hid
    exact ⟨gone, now, d, hexit, List.mem_append_left _ hd, hle⟩

theorem Ledger.loopTop {s : Serve} (h : Ledger s) (hexit : s.exit = none) (cfg : ServeCfg)
    (t : Turn) : Ledger (loopTop cfg t s) := by
  refine ⟨h.order, h.inflight, ?_, h.resp, h.writing, h.nodup, h.conserved, h.armed, h.timeouts⟩
  show s.idleSlots + (if s.nowIdle cfg = s.idle then 0 else if s.nowIdle cfg then 1 else -1) =
    if s.exit.isSome || s.nowIdle cfg then 0 else -1
  rw [h.idle, hexit]
  cases s.nowIdle cfg <;> cases s.idle <;> rfl

/-- The answer to a pending request takes it out of the map. -/
theorem Ledger.answer {s : Serve} (h : Ledger s) {id : String} (l : String) {p : Pending}
    (hp : s.pending.lookup id = some p) :
    Ledger { s with
      pending := s.pending.erase id
      order := s.order.filter (· ≠ id)
      completed := s.completed + 1
      inflightCpu := s.inflightCpu - 1
      sent := s.sent ++ [(p.resp, .resp l)] } := by
  have hin : id ∈ s.pending.keys := AList.mem_keys.1 (AList.lookup_isSome.1 (by rw [hp]; rfl))
  refine ⟨?_, ?_, h.idle, ?_, h.writing, h.nodup, ?_, ?_, ?_⟩
  · intro hexit
    show (s.order.filter (· ≠ id)).Perm (s.pending.erase id).keys
    have hnodup : s.order.Nodup := (h.order hexit).nodup_iff.2 s.pending.keys_nodup
    have herase : s.order.filter (· ≠ id) = s.order.erase id := by
      rw [hnodup.erase_eq_filter]
      exact List.filter_congr fun x _ => by rw [Bool.eq_iff_iff]; simp
    rw [AList.keys_erase, herase]
    exact (h.order hexit).erase id
  · show s.inflightCpu - 1 = ((s.pending.erase id).keys.length : ℤ)
    rw [AList.keys_erase, List.length_erase_of_mem hin, h.inflight]
    have := List.length_pos_of_mem hin
    omega
  · exact fun id' p' hp' => h.resp id' p' (AList.lookup_of_lookup_erase hp')
  · show (s.accepted.map (·.id)).Perm ((s.sent ++ [(p.resp, CpuOutcome.resp l)]).map (·.1) ++
      ((s.pending.erase id).keys ++ s.pendingWrite.toList.map (·.id)))
    rw [h.resp id p hp, AList.keys_erase, List.map_append, List.append_assoc]
    refine h.conserved.trans (List.Perm.append_left _ ?_)
    exact (List.perm_cons_erase hin).append_right _
  · exact fun id' p' d hp' hd => h.armed id' p' d (AList.lookup_of_lookup_erase hp') hd
  · intro id' hid'
    rcases List.mem_append.1 hid' with hold | hnew
    · exact h.timeouts id' hold
    · cases List.mem_singleton.1 hnew

theorem Ledger.complete {s : Serve} (h : Ledger s) (cfg : ServeCfg) (t : Turn)
    {id : String} (l : String) {p : Pending} (hp : s.pending.lookup id = some p) :
    Ledger (complete cfg t id l p s).1 :=
  (h.answer l hp).armStarted cfg.concurrency t.clock

/-- A job with a new id is taken. -/
theorem Ledger.accept {s : Serve} (h : Ledger s) {j : CpuJob} (hnew : j.id ∉ s.accepted.map (·.id))
    (hnone : s.pendingWrite = none) : Ledger (accept j s) := by
  refine ⟨h.order, h.inflight, h.idle, h.resp, ?_, ?_, ?_, h.armed, h.timeouts⟩
  · rintro pw ⟨⟩
    rfl
  · show ((s.accepted ++ [j]).map (·.id)).Nodup
    rw [List.map_append]
    exact List.nodup_append.2 ⟨h.nodup, List.nodup_singleton _, by simpa using hnew⟩
  · show ((s.accepted ++ [j]).map (·.id)).Perm
      (s.sent.map (·.1) ++ (s.pending.keys ++ [j.id]))
    have hconserved := h.conserved
    rw [hnone, Option.toList_none, List.map_nil, List.append_nil] at hconserved
    rw [List.map_append, ← List.append_assoc]
    exact hconserved.append_right _

/-- A request that is being written is not in the map. -/
theorem Ledger.notMem_of_writing {s : Serve} (h : Ledger s) {pw : PendingWrite}
    (hpw : s.pendingWrite = some pw) : pw.id ∉ s.pending.keys := by
  have hconserved := h.conserved
  rw [hpw] at hconserved
  have hnodup := (List.nodup_append.1 (hconserved.nodup_iff.1 h.nodup)).2.1
  intro hin
  exact (List.nodup_append.1 hnodup).2.2 _ hin _ (List.mem_singleton_self _) rfl

/-- A request that is fully written is with the child. -/
theorem Ledger.written {s : Serve} (h : Ledger s) {pw : PendingWrite}
    (hpw : s.pendingWrite = some pw) :
    Ledger { s with
      pendingWrite := none
      inflightCpu := s.inflightCpu + 1
      order := s.order ++ [pw.id]
      pending := s.pending.insert pw.id ⟨pw.resp, pw.timeoutMs, none⟩ } := by
  have hconserved := h.conserved
  rw [hpw] at hconserved
  have hkeys : ∀ q, (s.pending.insert pw.id q).keys = pw.id :: s.pending.keys := by
    intro q
    rw [AList.keys_insert, List.erase_of_not_mem (h.notMem_of_writing hpw)]
  refine ⟨?_, ?_, h.idle, ?_, nofun, h.nodup, ?_, ?_, h.timeouts⟩
  · intro hexit
    show (s.order ++ [pw.id]).Perm (s.pending.insert pw.id _).keys
    rw [hkeys]
    exact (List.perm_append_singleton _ _).trans ((h.order hexit).cons _)
  · show s.inflightCpu + 1 = ((s.pending.insert pw.id _).keys.length : ℤ)
    rw [hkeys, h.inflight, List.length_cons]
    rfl
  · intro id p hp
    by_cases hid : id = pw.id
    · subst hid
      rw [AList.lookup_insert] at hp
      cases hp
      exact h.writing pw hpw
    · exact h.resp id p (by rwa [AList.lookup_insert_ne hid] at hp)
  · show (s.accepted.map (·.id)).Perm
      (s.sent.map (·.1) ++ ((s.pending.insert pw.id _).keys ++ []))
    rw [hkeys, List.append_nil]
    exact hconserved.trans ((List.perm_append_singleton _ _).append_left _)
  · intro id p d hp hd
    by_cases hid : id = pw.id
    · subst hid
      rw [AList.lookup_insert] at hp
      cases hp
      cases hd
    · exact h.armed id p d (by rwa [AList.lookup_insert_ne hid] at hp) hd

theorem Ledger.advanceWrite {s : Serve} (h : Ledger s) (cfg : ServeCfg) (t : Turn) (n : ℕ)
    {pw : PendingWrite} (hpw : s.pendingWrite = some pw) : Ledger (advanceWrite cfg t n pw s) := by
  unfold Cpu.advanceWrite
  split_ifs
  · exact (h.written hpw).armStarted cfg.concurrency t.clock
  · have hconserved := h.conserved
    rw [hpw] at hconserved
    refine ⟨h.order, h.inflight, h.idle, h.resp, ?_, h.nodup, hconserved, h.armed, h.timeouts⟩
    rintro pw' ⟨⟩
    exact h.writing pw hpw

theorem Ledger.loseWrite {s : Serve} (h : Ledger s) {pw : PendingWrite}
    (hpw : s.pendingWrite = some pw) : Ledger (loseWrite pw s) := by
  have hconserved := h.conserved
  rw [hpw] at hconserved
  refine ⟨h.order, h.inflight, h.idle, h.resp, nofun, h.nodup, ?_, h.armed, ?_⟩
  · show (s.accepted.map (·.id)).Perm
      ((s.sent ++ [(pw.resp, CpuOutcome.lost)]).map (·.1) ++ (s.pending.keys ++ []))
    rw [h.writing pw hpw, List.map_append, List.append_assoc, List.append_nil]
    exact hconserved.trans (List.perm_append_comm.append_left _)
  · intro id hid
    rcases List.mem_append.1 hid with hold | hnew
    · exact h.timeouts id hold
    · cases List.mem_singleton.1 hnew

/-- When the child is gone everything that is left is answered. -/
theorem Ledger.drain {s : Serve} (h : Ledger s) (hexit : s.exit = none) (gone : ChildGone)
    (now : ℕ) : Ledger (drain gone now s) := by
  have hlookup : ∀ e ∈ s.pending.entries, s.pending.lookup e.1 = some e.2 :=
    fun e he => AList.mem_lookup_iff.2 he
  have hkeys : s.pending.entries.map (fun e => e.2.resp) = s.pending.keys :=
    List.map_congr_left fun e he => h.resp e.1 e.2 (hlookup e he)
  have hwriting : s.pendingWrite.toList.map (·.resp) = s.pendingWrite.toList.map (·.id) :=
    List.map_congr_left fun pw hpw => h.writing pw (Option.mem_toList.1 hpw)
  refine ⟨nofun, ?_, ?_, nofun, nofun, h.nodup, ?_, nofun, ?_⟩
  · show s.inflightCpu - s.pending.keys.length = 0
    rw [h.inflight]
    omega
  · show s.idleSlots + (if s.idle then 0 else 1) = 0
    rw [h.idle, hexit]
    cases s.idle <;> rfl
  · show (s.accepted.map (·.id)).Perm ((s.sent ++ (s.pendingWrite.toList.map fun pw =>
      (pw.resp, CpuOutcome.lost)) ++ s.pending.entries.map fun e =>
        (e.2.resp, leftover gone now e.2)).map (·.1) ++ [])
    rw [List.append_nil, List.map_append, List.map_append, List.map_map, List.map_map,
      List.append_assoc]
    refine h.conserved.trans (List.Perm.append_left _ ?_)
    show (s.pending.keys ++ s.pendingWrite.toList.map (·.id)).Perm
      (s.pendingWrite.toList.map (·.resp) ++ s.pending.entries.map fun e => e.2.resp)
    rw [hkeys, hwriting]
    exact List.perm_append_comm
  · intro id hid
    rcases List.mem_append.1 hid with hid | hid
    · rcases List.mem_append.1 hid with hid | hid
      · obtain ⟨_, _, _, hsome, -⟩ := h.timeouts id hid
        rw [hexit] at hsome
        cases hsome
      · obtain ⟨pw, -, hpw⟩ := List.mem_map.1 hid
        cases hpw
    · -- a request of the map that is told of a timeout is past its own deadline
      obtain ⟨e, he, hout⟩ := List.mem_map.1 hid
      obtain ⟨rfl, hleft⟩ := Prod.mk.inj hout
      unfold leftover at hleft
      split_ifs at hleft with hlate
      obtain ⟨d, hd, hle⟩ := (Option.any_eq_true _ _).1 hlate.2
      refine ⟨gone, now, d, rfl, ?_, of_decide_eq_true hle⟩
      rw [h.resp e.1 e.2 (hlookup e he)]
      exact h.armed e.1 e.2 d (hlookup e he) hd

/-! ### The runs -/

/-- The ids of the jobs are new. -/
def freshId (s : Serve) (t : Turn) : Bool :=
  match t.event with
  | .job j => decide (j.id ∉ s.accepted.map (·.id))
  | _ => true

/-- What a branch of the `select!` can do to the state, and when it leaves the loop as recycled. -/
theorem select_cases {idOf : String → Option String} {cfg : ServeCfg} {t : Turn} {s s' : Serve}
    {gone : Option ChildGone} (h : select idOf cfg t s = some (s', gone)) :
    (s' = s ∧ gone ≠ some .recycled) ∨
    (∃ id l p, s.pending.lookup id = some p ∧ s' = (complete cfg t id l p s).1 ∧
      gone = (complete cfg t id l p s).2) ∨
    (∃ j, t.event = .job j ∧ mayTake cfg t s = true ∧ s' = accept j s ∧ gone = none) ∨
    (∃ n pw, s.pendingWrite = some pw ∧ s' = advanceWrite cfg t n pw s ∧ gone = none) ∨
    (∃ pw, s.pendingWrite = some pw ∧ s' = loseWrite pw s ∧ gone = some .exited) := by
  unfold select at h
  cases hevent : t.event with
  | line l =>
    simp only [hevent] at h
    split at h
    · cases h
      exact .inl ⟨rfl, nofun⟩
    · next id _ =>
      split at h
      · next p hp =>
        obtain ⟨hs', hgone⟩ := Prod.mk.inj (Option.some.inj h)
        exact .inr (.inl ⟨id, l, p, hp, hs'.symm, hgone.symm⟩)
      · cases h
        exact .inl ⟨rfl, nofun⟩
  | closed =>
    simp only [hevent] at h
    cases h
    exact .inl ⟨rfl, nofun⟩
  | job j =>
    simp only [hevent] at h
    split_ifs at h with htake
    cases h
    exact .inr (.inr (.inl ⟨j, rfl, htake, rfl, rfl⟩))
  | noJobs =>
    simp only [hevent] at h
    split_ifs at h
    cases h
    exact .inl ⟨rfl, nofun⟩
  | wrote n =>
    simp only [hevent] at h
    split at h
    · next pw hpw =>
      split_ifs at h
      · cases h
        exact .inr (.inr (.inr (.inr ⟨pw, hpw, rfl, rfl⟩)))
      · cases h
        exact .inr (.inr (.inr (.inl ⟨n, pw, hpw, rfl, rfl⟩)))
    · cases h
  | writeFailed =>
    simp only [hevent] at h
    split at h
    · next pw hpw =>
      cases h
      exact .inr (.inr (.inr (.inr ⟨pw, hpw, rfl, rfl⟩)))
    · cases h
  | deadline =>
    simp only [hevent] at h
    split_ifs at h
    cases h
    exact .inl ⟨rfl, nofun⟩
  | stalled =>
    simp only [hevent] at h
    split at h
    · split_ifs at h
      cases h
      exact .inl ⟨rfl, nofun⟩
    · cases h
  | dropped =>
    simp only [hevent] at h
    split_ifs at h
    cases h
    exact .inl ⟨rfl, nofun⟩

/-- A job is taken only when no write is in progress. -/
theorem pendingWrite_of_mayTake {cfg : ServeCfg} {t : Turn} {s : Serve}
    (h : mayTake cfg t s = true) : s.pendingWrite = none := by
  simp only [mayTake, Bool.and_eq_true] at h
  exact Option.isNone_iff_eq_none.1 h.1.1.1

/-- A branch of the `select!` keeps the ledger. -/
theorem Ledger.select {idOf : String → Option String} {cfg : ServeCfg} {t : Turn} {s s' : Serve}
    {gone : Option ChildGone} (h : Ledger s) (hfresh : freshId s t = true)
    (hstep : select idOf cfg t s = some (s', gone)) : Ledger s' := by
  rcases select_cases hstep with ⟨rfl, -⟩ | ⟨id, l, p, hp, rfl, -⟩ | ⟨j, hj, htake, rfl, -⟩ |
    ⟨n, pw, hpw, rfl, -⟩ | ⟨pw, hpw, rfl, -⟩
  · exact h
  · exact h.complete cfg t l hp
  · unfold freshId at hfresh
    rw [hj] at hfresh
    exact h.accept (of_decide_eq_true hfresh) (pendingWrite_of_mayTake htake)
  · exact h.advanceWrite cfg t n hpw
  · exact h.loseWrite hpw

theorem exit_of_select {idOf : String → Option String} {cfg : ServeCfg} {t : Turn} {s s' : Serve}
    {gone : Option ChildGone} (hexit : s.exit = none)
    (hstep : Cpu.select idOf cfg t s = some (s', gone)) : s'.exit = none := by
  rcases select_cases hstep with ⟨rfl, -⟩ | ⟨id, l, p, hp, rfl, -⟩ | ⟨j, hj, htake, rfl, -⟩ |
    ⟨n, pw, hpw, rfl, -⟩ | ⟨pw, hpw, rfl, -⟩
  · exact hexit
  · exact hexit
  · exact hexit
  · unfold advanceWrite
    split_ifs <;> exact hexit
  · exact hexit

/-- What one turn is made of. -/
theorem serveStep_cases {idOf : String → Option String} {cfg : ServeCfg} {t : Turn} {s s' : Serve}
    (hstep : serveStep idOf cfg s t = some s') :
    s.exit = none ∧
      ((select idOf cfg t (loopTop cfg t s) = some (s', none) ∧ s'.exit = none) ∨
      ∃ gone s₁, select idOf cfg t (loopTop cfg t s) = some (s₁, some gone) ∧
        s' = drain gone t.now s₁) := by
  unfold serveStep at hstep
  split_ifs at hstep with hsome
  have hexit : s.exit = none := Option.not_isSome_iff_eq_none.1 hsome
  obtain ⟨⟨s₁, gone⟩, hselect, hs'⟩ := Option.map_eq_some_iff.1 hstep
  cases gone with
  | none =>
    cases hs'
    exact ⟨hexit, .inl ⟨hselect, exit_of_select (s := loopTop cfg t s) hexit hselect⟩⟩
  | some gone => exact ⟨hexit, .inr ⟨gone, s₁, hselect, hs'.symm⟩⟩

/-- **A turn of the loop keeps the ledger.** -/
theorem Ledger.step {idOf : String → Option String} {cfg : ServeCfg} {t : Turn} {s s' : Serve}
    (h : Ledger s) (hfresh : freshId s t = true) (hstep : serveStep idOf cfg s t = some s') :
    Ledger s' := by
  obtain ⟨hexit, hcases⟩ := serveStep_cases hstep
  have htop : Ledger (Cpu.loopTop cfg t s) := h.loopTop hexit cfg t
  rcases hcases with ⟨hselect, -⟩ | ⟨gone, s₁, hselect, rfl⟩
  · exact htop.select hfresh hselect
  · have hexit₁ : (Cpu.loopTop cfg t s).exit = none := hexit
    exact (htop.select hfresh hselect).drain (exit_of_select hexit₁ hselect) gone t.now

theorem ledger_of_reachable {idOf : String → Option String} {cfg : ServeCfg} {s : Serve}
    (h : (serveSystem idOf cfg).Reachable (fun s t => freshId s t = true) s) : Ledger s := by
  refine h.invariant ?_ fun s t s' hs hfresh hstep => hs.step hfresh hstep
  rintro s rfl
  exact ledger_init

/-- Nothing is left when the call returns. -/
theorem left_of_step {idOf : String → Option String} {cfg : ServeCfg} {t : Turn} {s s' : Serve}
    (hstep : serveStep idOf cfg s t = some s') (hreturned : s'.exit.isSome = true) :
    s'.pending = ∅ ∧ s'.pendingWrite = none := by
  obtain ⟨-, ⟨-, hexit'⟩ | ⟨gone, s₁, -, rfl⟩⟩ := serveStep_cases hstep
  · rw [hexit'] at hreturned
    cases hreturned
  · exact ⟨rfl, rfl⟩

/-- **Every job is answered exactly once.** In every state of every run whose job ids are new: while
the call runs, its share of `inflight_cpu` is the number of pending requests and `order` lists them;
when it has returned, its share is zero and every accepted job has one outcome; and a timeout goes
only to a request past the deadline it was armed with. -/
theorem jobs_answered_once {idOf : String → Option String} {cfg : ServeCfg} {s : Serve}
    (h : (serveSystem idOf cfg).Reachable (fun s t => freshId s t = true) s) :
    (s.exit = none → s.inflightCpu = s.pending.keys.length ∧ s.order.Nodup ∧
      ∀ id, id ∈ s.order ↔ id ∈ s.pending) ∧
    (s.exit.isSome = true → s.inflightCpu = 0 ∧
      ∀ j ∈ s.accepted, (s.sent.map (·.1)).count j.id = 1) ∧
    ∀ id, (id, CpuOutcome.timeout) ∈ s.sent →
      ∃ gone now d, s.exit = some (gone, now) ∧ (id, d) ∈ s.armed ∧ d ≤ now := by
  have hledger := ledger_of_reachable h
  have hleft : s.exit.isSome = true → s.pending = ∅ ∧ s.pendingWrite = none := by
    refine h.invariant (I := fun s => s.exit.isSome = true → s.pending = ∅ ∧ s.pendingWrite = none)
      ?_ fun s t s' _ _ hstep => left_of_step hstep
    rintro s rfl
    exact fun _ => ⟨rfl, rfl⟩
  refine ⟨fun hexit => ⟨hledger.inflight, ?_, fun id => ?_⟩, fun hreturned => ⟨?_, ?_⟩,
    hledger.timeouts⟩
  · exact (hledger.order hexit).nodup_iff.2 s.pending.keys_nodup
  · rw [(hledger.order hexit).mem_iff, AList.mem_keys]
  · rw [hledger.inflight, (hleft hreturned).1]
    rfl
  · intro j hj
    have hconserved := hledger.conserved
    rw [(hleft hreturned).1, (hleft hreturned).2, AList.keys_empty, Option.toList_none,
      List.map_nil, List.append_nil, List.append_nil] at hconserved
    rw [← hconserved.count_eq]
    exact List.count_eq_one_of_mem hledger.nodup (List.mem_map_of_mem hj)

/-- Two requests, the second queued behind the first, which runs out of time. -/
def overtime : List Turn :=
  [{ event := .job ⟨"a", "r", 5⟩ }, { event := .wrote 1 }, { event := .wrote 1 },
    { event := .job ⟨"b", "r", 5⟩ }, { event := .wrote 2 }, { event := .line "x" },
    { event := .deadline, now := 7 }]

theorem jobs_answered_once_overtime :
    let cfg : ServeCfg := ⟨1, 0, 1⟩
    let s := ((serveSystem some cfg).runIf freshId {} overtime).getD {}
    s.sent = [("b", .lost), ("a", .timeout)] ∧ s.inflightCpu = 0 ∧
      (∀ j ∈ s.accepted, (s.sent.map (·.1)).count j.id = 1) ∧ ∃ d, ("a", d) ∈ s.armed ∧ d ≤ 7 := by
  intro cfg s
  have hs : (serveSystem some cfg).Reachable (fun s t => freshId s t = true) s :=
    Transition.System.reachable_runIf rfl (by decide +kernel)
  obtain ⟨-, hreturned, htimeouts⟩ := jobs_answered_once hs
  obtain ⟨hinflight, honce⟩ := hreturned (by decide +kernel)
  refine ⟨by decide +kernel, hinflight, honce, ?_⟩
  obtain ⟨gone, now, d, hexit, hd, hle⟩ := htimeouts "a" (by decide +kernel)
  have hexit' : s.exit = some (.hardTimeout, 7) := by decide +kernel
  rw [hexit'] at hexit
  cases hexit
  exact ⟨d, hd, hle⟩

end Cauli.Cpu
