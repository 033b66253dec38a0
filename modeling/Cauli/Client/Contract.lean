import Mathlib.Data.Fintype.Basic
import Cauli.Worker.Parse
import Cauli.Worker.Gates
import Cauli.Client.App

/-!
# What a worker makes of a published envelope

The client encodes an envelope and the worker parses it: `py/cauli/app.py` on one side,
`worker/src/envelope.rs` and the gates of `worker/src/dispatch.rs` on the other. The client's checks
leave some ranges open, `InRange` says which.

* `takeUp`: the envelope that `process` goes on with, `none` if the entry is dead lettered as
  malformed;
* `InRange`: every number of the envelope has a place in the worker's types, and the identifiers
  are such;
* `readField_encoded`: what the worker reads of a field is read from the value the client put in.
-/

namespace Cauli

open JsonToken JsonText

/-- The entry of a stream up to the registry lookup: size, parse, gates. -/
def takeUp (readF64 : JsonNumber → Option F64) (maxEnvelopeBytes : ℤ) (raw : List Char) :
    Option Envelope :=
  if maxEnvelopeBytes < byteLength raw then none
  else (Envelope.fromText readF64 raw).filter passesGates

/-- 32 lowercase hex digits. -/
def isTaskId (s : PyStr) : Bool :=
  s.length == 32 && s.all fun
    | .char c => c.isDigit || ('a' ≤ c && c ≤ 'f')
    | .surrogate _ _ => false

section Fields

variable {floatToken : ℚ → JsonNumber} {fields : List (String × PyValue)}
  {fs : List (String × JsonText)}

/-- **A field is read from the value the client put in.** -/
theorem readField_encoded {α : Type} (h : Encoded floatToken fields fs)
    (hnodup : (fields.map Prod.fst).Nodup) {name : String} {v : PyValue} {t : JsonText}
    (hmem : (name, v) ∈ fields) (ht : toText floatToken v = some t) (read : Member → Option α)
    (dflt : Option α) :
    readField (fs.map fun f => fieldMember f.1 f.2.chars f.2) name read dflt =
      read ⟨encodeStr name.toList, t, t.chars⟩ := by
  have hnames : ((fs.map fun f => fieldMember f.1 f.2.chars f.2).map Prod.fst).Nodup := by
    rw [List.map_map]
    show (fs.map Prod.fst).Nodup
    rw [h.names]
    exact hnodup
  obtain ⟨t', ht', htext⟩ := h.values (name, v) hmem
  obtain rfl : t' = t := Option.some.inj (htext.symm.trans ht)
  exact readField_of_mem hnames (List.mem_map.2 ⟨(name, t'), ht', rfl⟩) read dflt

end Fields

/-! ### The readers on what the client writes -/

section Readers

variable {key : List StrPart} {raw : List Char}

theorem readU64_ofInt (n : ℤ) :
    readU64 ⟨key, .num (.ofInt n), raw⟩ =
      if 0 ≤ n ∧ n < U64_LIMIT then some n.toNat else none := valueToU64_ofInt n

theorem readU32_ofInt {n : ℤ} (h : 0 ≤ n ∧ n ≤ U32_MAX) :
    readU32 ⟨key, .num (.ofInt n), raw⟩ = some n.toNat := by
  have hlt : n < 2 ^ 32 := by
    have := h.2
    unfold U32_MAX at this
    omega
  have hlimit : n < U64_LIMIT := hlt.trans (by decide)
  have hnat : n.toNat < 2 ^ 32 := by omega
  simp only [readU32, valueToU64_ofInt, if_pos (show 0 ≤ n ∧ n < U64_LIMIT from ⟨h.1, hlimit⟩)]
  rw [Option.filter_some, if_pos (by simpa using hnat)]

/-- An optional integer is encoded as itself or as null. -/
theorem toText_optInt (floatToken : ℚ → JsonNumber) (n : Option ℤ) :
    toText floatToken (optInt n) = some (n.elim .null fun n => .num (.ofInt n)) := by
  cases n <;> rfl

theorem isSome_readOpt_readU64 (n : Option ℤ) :
    (readOpt readU64 ⟨key, n.elim .null fun n => .num (.ofInt n), raw⟩).isSome ↔
      ∀ i ∈ n, 0 ≤ i ∧ i < U64_LIMIT := by
  cases n with
  | none => simp [readOpt]
  | some n =>
    have hread : readOpt readU64 ⟨key, .num (.ofInt n), raw⟩ =
        (readU64 ⟨key, .num (.ofInt n), raw⟩).map some := rfl
    show (readOpt readU64 ⟨key, .num (.ofInt n), raw⟩).isSome ↔ _
    rw [hread, Option.isSome_map, readU64_ofInt]
    by_cases h : 0 ≤ n ∧ n < U64_LIMIT <;> simp [h]

theorem isSome_readOpt_readDouble (readF64 : JsonNumber → Option F64) (n : Option ℤ) :
    (readOpt (readDouble readF64) ⟨key, n.elim .null fun n => .num (.ofInt n), raw⟩).isSome ↔
      ∀ i ∈ n, (readF64 (.ofInt i)).isSome := by
  cases n with
  | none => simp [readOpt]
  | some n =>
    show ((readF64 (.ofInt n)).map some).isSome ↔ _
    simp

end Readers

theorem readString_encodeStr {key : List StrPart} {raw cs : List Char} :
    readString ⟨key, .str (encodeStr cs), raw⟩ = some (String.ofList cs) := by
  simp [readString]

/-- A raw capture of an array or an object is its text. -/
theorem readOpt_readRaw {key : List StrPart} {raw : List Char} {t : JsonText} (ht : t ≠ .null) :
    readOpt readRaw ⟨key, t, raw⟩ = some (some (String.ofList raw)) := by
  cases t with
  | null => exact absurd rfl ht
  | _ => rfl

theorem isTaskId_map_char (cs : List Char) :
    isTaskId (cs.map .char) = validTaskId (String.ofList cs) := by
  simp [isTaskId, validTaskId, List.all_map, Function.comp_def]

/-- A text that starts a fresh identifier is one. -/
theorem isTaskId_hex (bytes : {l : List (Fin 256) // l.length = 16}) :
    isTaskId ((hex bytes.1).map .char) = true := by
  have hdigit : ∀ i : Fin 16, ((hexDigit i).isDigit ||
      (decide ('a' ≤ hexDigit i) && decide (hexDigit i ≤ 'f'))) = true := by decide
  have hlen : ∀ l : List (Fin 256), (hex l).length = 2 * l.length := by
    intro l
    induction l with
    | nil => rfl
    | cons b l ih =>
      have hcons : hex (b :: l) = [hexChar (b.val / 16), hexChar b.val] ++ hex l := rfl
      rw [hcons, List.length_append, ih]
      simp only [List.length_cons, List.length_nil]
      omega
  have hall : ∀ c ∈ hex bytes.1, (c.isDigit || (decide ('a' ≤ c) && decide (c ≤ 'f'))) = true := by
    intro c hc
    obtain ⟨b, -, hb⟩ := List.mem_flatMap.1 hc
    simp only [List.mem_cons, List.not_mem_nil, or_false] at hb
    rcases hb with rfl | rfl <;> exact hdigit _
  simp only [isTaskId, List.length_map, hlen, bytes.2, List.all_map, Bool.and_eq_true,
    List.all_eq_true]
  exact ⟨rfl, hall⟩

/-- The identifier of a call is valid if the given one, unless it is empty, is. -/
theorem isTaskId_id (c : Call) :
    isTaskId c.id = true ↔ ∀ id ∈ c.taskId, id ≠ [] → isTaskId id = true := by
  unfold Call.id
  cases c.taskId with
  | none => simp [isTaskId_hex]
  | some id =>
    by_cases hid : id = []
    · simp [hid, isTaskId_hex]
    · simp [hid]

/-- What the worker's types and gates ask of the parts of an envelope that the client leaves
open. -/
structure Acceptable (readF64 : JsonNumber → Option F64) (floatToken : ℚ → JsonNumber) (c : Call)
    (notBefore expiresAt : Option ℤ) : Prop where
  timeout : c.task.elim 300000 (·.timeoutMs) < U64_LIMIT
  backoffBase : c.task.elim 500 (·.backoffBaseMs) < U64_LIMIT
  backoffMax : c.task.elim 60000 (·.backoffMaxMs) < U64_LIMIT
  backoffFactor : ∀ x, c.task.elim (.finite 2) (·.backoffFactor) = .finite x →
    (readF64 (floatToken x)).isSome
  now : 0 ≤ c.nowMs ∧ c.nowMs < U64_LIMIT
  notBefore : ∀ i ∈ notBefore, (readF64 (.ofInt i)).isSome
  expiresAt : ∀ i ∈ expiresAt, 0 ≤ i ∧ i < U64_LIMIT
  id : isTaskId c.id = true
  taskName : c.taskName ≠ []

section Accept

variable {readF64 : JsonNumber → Option F64} {floatToken : ℚ → JsonNumber} {c : Call}
  {queueName : PyStr} {notBefore expiresAt : Option ℤ} {fs : List (String × JsonText)}

theorem map_fst_envelope (c : Call) (queueName : PyStr) (notBefore expiresAt : Option ℤ) :
    (c.envelope queueName notBefore expiresAt).map Prod.fst = FIELD_NAMES := rfl

theorem nodup_FIELD_NAMES : FIELD_NAMES.Nodup := by decide

/-- No field of the client is unknown to the worker. -/
theorem readExtra_encoded (h : Encoded floatToken (c.envelope queueName notBefore expiresAt) fs) :
    readExtra (fs.map fun f => fieldMember f.1 f.2.chars f.2) = some [] := by
  have hknown : ∀ f ∈ fs.map fun f => fieldMember f.1 f.2.chars f.2, f.1 ∈ FIELD_NAMES := by
    intro f hf
    obtain ⟨g, hg, rfl⟩ := List.mem_map.1 hf
    rw [← map_fst_envelope c queueName notBefore expiresAt, ← h.names]
    exact List.mem_map.2 ⟨g, hg, rfl⟩
  have hnone : (fs.map fun f => fieldMember f.1 f.2.chars f.2).filter
      (fun f => f.1 ∉ FIELD_NAMES) = [] := by
    rw [List.filter_eq_nil_iff]
    intro f hf
    simpa using hknown f hf
  simp only [readExtra, hnone]
  rfl

theorem toText_str {s : PyStr} {t : JsonText} (h : toText floatToken (.str s) = some t) :
    ∃ cs, s = cs.map .char ∧ t = .str (encodeStr cs) := by
  obtain ⟨cs, hcs, rfl⟩ := Option.map_eq_some_iff.1 h
  exact ⟨cs, PyStr.eq_map_of_utf8 hcs, rfl⟩

theorem isSome_readU64_ofInt {key : List StrPart} {raw : List Char} {n : ℤ} (h0 : 0 ≤ n) :
    (readU64 ⟨key, .num (.ofInt n), raw⟩).isSome ↔ n < U64_LIMIT := by
  rw [readU64_ofInt]
  by_cases h : n < U64_LIMIT <;> simp [h, h0]

/-- The texts the worker finds under `args` and `kwargs`. -/
structure ArgTexts (floatToken : ℚ → JsonNumber) (c : Call) (args kwargs : JsonText) : Prop where
  args : toText floatToken (.list c.args) = some args
  kwargs : toText floatToken (.dict c.kwargs) = some kwargs
  args_valid : validateJsonTypes 2 (.list c.args) = .ok ()
  kwargs_valid : validateJsonTypes 2 (.dict c.kwargs) = .ok ()

/-- **The worker's shape check on an encoding** only looks at its nesting. -/
theorem argsKwargsShapeOk_iff {args kwargs : JsonText}
    (hargs : toText floatToken (.list c.args) = some args)
    (hkwargs : toText floatToken (.dict c.kwargs) = some kwargs) {env : Envelope}
    (henvArgs : env.args = some (String.ofList args.chars))
    (henvKwargs : env.kwargs = some (String.ofList kwargs.chars)) :
    argsKwargsShapeOk env = true ↔
      args.nesting ≤ MAX_ARG_NESTING ∧ kwargs.nesting ≤ MAX_ARG_NESTING := by
  have hopen : args.chars.head? = some '[' ∧ kwargs.chars.head? = some '\x7b' := by
    obtain ⟨ts, -, rfl⟩ := Option.map_eq_some_iff.1 hargs
    obtain ⟨ms, -, rfl⟩ := Option.map_eq_some_iff.1 hkwargs
    rw [chars_arr, chars_obj]
    exact ⟨rfl, rfl⟩
  simp [argsKwargsShapeOk, henvArgs, henvKwargs, hopen, parsesAsTree_of_spells (spells_chars args),
    parsesAsTree_of_spells (spells_chars kwargs), fitsAt, decodable_toText hargs,
    decodable_toText hkwargs]

/-- **The client's `args` and `kwargs` have the shape the worker asks for.** -/
theorem argsKwargsShapeOk_of_texts {args kwargs : JsonText} (h : ArgTexts floatToken c args kwargs)
    (env : Envelope) (hargs : env.args = some (String.ofList args.chars))
    (hkwargs : env.kwargs = some (String.ofList kwargs.chars)) : argsKwargsShapeOk env = true := by
  rw [argsKwargsShapeOk_iff h.args h.kwargs hargs hkwargs]
  have hargsLe := nesting_le_of_validate h.args_valid h.args
  have hkwargsLe := nesting_le_of_validate h.kwargs_valid h.kwargs
  simp only [MAX_NESTING, MAX_ARG_NESTING] at *
  omega

theorem ne_null_of_texts {args kwargs : JsonText} (h : ArgTexts floatToken c args kwargs) :
    args ≠ .null ∧ kwargs ≠ .null := by
  obtain ⟨ts, -, rfl⟩ := Option.map_eq_some_iff.1 h.args
  obtain ⟨ms, -, rfl⟩ := Option.map_eq_some_iff.1 h.kwargs
  exact ⟨nofun, nofun⟩

/-- A key is read back. -/
theorem isSome_readOpt_readString {v : PyValue} (hkey : isKey v = true) {t : JsonText}
    (h : toText floatToken v = some t) {key : List StrPart} {raw : List Char} :
    (readOpt readString ⟨key, t, raw⟩).isSome := by
  cases v with
  | none => cases h; rfl
  | str s =>
    obtain ⟨cs, -, rfl⟩ := toText_str h
    show ((readString ⟨key, .str (encodeStr cs), raw⟩).map some).isSome
    rw [readString_encodeStr]
    rfl
  | _ => cases hkey

/-- The duration fields of a call are not negative, and the timeout is positive. -/
theorem task_nonneg (c : Call) :
    0 < c.task.elim 300000 (·.timeoutMs) ∧ 0 ≤ c.task.elim 500 (·.backoffBaseMs) ∧
      0 ≤ c.task.elim 60000 (·.backoffMaxMs) ∧
      (0 ≤ c.task.elim 3 (·.maxRetries) ∧ c.task.elim 3 (·.maxRetries) ≤ U32_MAX) ∧
      ∀ s ∈ c.task.bind (·.softTimeoutMs), 0 ≤ s ∧ s < c.task.elim 300000 (·.timeoutMs) := by
  cases c.task with
  | none => simp [U32_MAX]
  | some t =>
    exact ⟨t.timeout_pos, t.backoffBase_nonneg, t.backoffMax_nonneg, t.maxRetries_range,
      fun s hs => ⟨t.soft_nonneg s hs, t.soft_lt s hs⟩⟩

/-- The parts of a published envelope whose texts depend on their values. -/
structure Parts where
  id : List Char
  task : List Char
  queue : List Char
  args : JsonText
  kwargs : JsonText
  factor : ℚ

/-- **What every reader of the worker finds** in the envelope of a call. -/
structure FieldReads (readF64 : JsonNumber → Option F64) (floatToken : ℚ → JsonNumber) (c : Call)
    (notBefore expiresAt : Option ℤ) (ms : List (String × Member)) (p : Parts) : Prop where
  v : readField ms "v" readU32 (some 1) = some 1
  id : readField ms "id" readString none = some (String.ofList p.id)
  task : readField ms "task" readString none = some (String.ofList p.task)
  args : readField ms "args" (readOpt readRaw) (some none) = some (some (String.ofList p.args.chars))
  kwargs : readField ms "kwargs" (readOpt readRaw) (some none) =
    some (some (String.ofList p.kwargs.chars))
  queue : readField ms "queue" readString (some "default") = some (String.ofList p.queue)
  kind : (readField ms "kind" readString (some "io")).isSome
  retries : readField ms "retries" readU32 (some 0) = some 0
  maxRetries : (readField ms "max_retries" readU32 (some 3)).isSome
  backoffBaseMs : (readField ms "backoff_base_ms" readU64 (some 500)).isSome ↔
    c.task.elim 500 (·.backoffBaseMs) < U64_LIMIT
  backoffFactor : readField ms "backoff_factor" (readDouble readF64) (some (.finite 2)) =
    readF64 (floatToken p.factor)
  backoffMaxMs : (readField ms "backoff_max_ms" readU64 (some 60_000)).isSome ↔
    c.task.elim 60000 (·.backoffMaxMs) < U64_LIMIT
  jitter : (readField ms "jitter" readBool (some true)).isSome
  timeoutMs : readField ms "timeout_ms" readTimeoutMs (some 300_000) =
    if c.task.elim 300000 (·.timeoutMs) < U64_LIMIT then
      some (min MAX_TIMEOUT_MS (c.task.elim 300000 (·.timeoutMs)).toNat)
    else none
  softTimeoutMs : c.task.elim 300000 (·.timeoutMs) < U64_LIMIT →
    (readField ms "soft_timeout_ms" (readOpt readU64) (some none)).isSome
  idempotencyKey : (readField ms "idempotency_key" (readOpt readString) (some none)).isSome
  storeResult : (readField ms "store_result" readBool (some true)).isSome
  enqueuedAt : (readField ms "enqueued_at" readU64 (some 0)).isSome ↔
    0 ≤ c.nowMs ∧ c.nowMs < U64_LIMIT
  notBefore : (readField ms "not_before" (readOpt (readDouble readF64)) (some none)).isSome ↔
    ∀ i ∈ notBefore, (readF64 (.ofInt i)).isSome
  expiresAt : (readField ms "expires_at" (readOpt readU64) (some none)).isSome ↔
    ∀ i ∈ expiresAt, 0 ≤ i ∧ i < U64_LIMIT
  extra : readExtra ms = some []
  idChars : c.id = p.id.map .char
  taskChars : c.taskName = p.task.map .char
  factor : c.task.elim (.finite 2) (·.backoffFactor) = .finite p.factor
  texts : ArgTexts floatToken c p.args p.kwargs

/-- A double that the check lets through is finite. -/
theorem toText_float_of_valid (floatToken : ℚ → JsonNumber) {depth : ℕ} {y : F64}
    (h : validateJsonTypes depth (.float y) = .ok ()) :
    ∃ x, y = .finite x ∧ toText floatToken (.float y) = some (.num (floatToken x)) := by
  cases y with
  | finite x => exact ⟨x, rfl, rfl⟩
  | inf neg => cases h
  | nan => cases h

theorem exists_fieldReads (readF64 : JsonNumber → Option F64)
    (henc : Encoded floatToken (c.envelope queueName notBefore expiresAt) fs)
    (hvalid : ∀ f ∈ c.envelope queueName notBefore expiresAt, validateJsonTypes 2 f.2 = .ok ())
    (hkey : isKey c.idempotencyKey = true) :
    ∃ p, FieldReads readF64 floatToken c notBefore expiresAt
      (fs.map fun f => fieldMember f.1 f.2.chars f.2) p := by
  obtain ⟨htimeout0, hbase0, hbmax0, hretries, hsoft⟩ := task_nonneg c
  have hread : ∀ {α : Type} (name : String) {v t}, toText floatToken v = some t →
      (name, v) ∈ c.envelope queueName notBefore expiresAt → ∀ (read : Member → Option α) dflt,
      readField (fs.map fun f => fieldMember f.1 f.2.chars f.2) name read dflt =
        read ⟨encodeStr name.toList, t, t.chars⟩ := fun name v t ht hmem read dflt =>
    readField_encoded henc nodup_FIELD_NAMES hmem ht read dflt
  have hint : ∀ {α : Type} (name : String) (n : ℤ), (name, .int n) ∈
      c.envelope queueName notBefore expiresAt → ∀ (read : Member → Option α) dflt,
      readField (fs.map fun f => fieldMember f.1 f.2.chars f.2) name read dflt =
        read ⟨encodeStr name.toList, .num (.ofInt n), chars (.num (.ofInt n))⟩ :=
    fun name n hmem => hread name rfl hmem
  -- the parts whose texts depend on their values
  obtain ⟨tid, -, htid⟩ := henc.values ("id", .str c.id) (by simp [Call.envelope])
  obtain ⟨ttask, -, httask⟩ := henc.values ("task", .str c.taskName) (by simp [Call.envelope])
  obtain ⟨targs, -, htargs⟩ := henc.values ("args", .list c.args) (by simp [Call.envelope])
  obtain ⟨tkwargs, -, htkwargs⟩ := henc.values ("kwargs", .dict c.kwargs) (by simp [Call.envelope])
  obtain ⟨tqueue, -, htqueue⟩ := henc.values ("queue", .str queueName) (by simp [Call.envelope])
  obtain ⟨tkey, -, htkey⟩ :=
    henc.values ("idempotency_key", c.idempotencyKey) (by simp [Call.envelope])
  have htexts : ArgTexts floatToken c targs tkwargs :=
    ⟨htargs, htkwargs, hvalid ("args", _) (by simp [Call.envelope]),
      hvalid ("kwargs", _) (by simp [Call.envelope])⟩
  obtain ⟨x, hx, htx⟩ := toText_float_of_valid floatToken
    (hvalid ("backoff_factor", .float (c.task.elim (.finite 2) (·.backoffFactor)))
      (by simp [Call.envelope]))
  obtain ⟨idChars, hidChars, rfl⟩ := toText_str htid
  obtain ⟨taskChars, htaskChars, rfl⟩ := toText_str httask
  obtain ⟨queueChars, -, rfl⟩ := toText_str htqueue
  obtain ⟨hargsNe, hkwargsNe⟩ := ne_null_of_texts htexts
  refine ⟨⟨idChars, taskChars, queueChars, targs, tkwargs, x⟩, ?_⟩
  refine
    { v := ?_, id := ?_, task := ?_, args := ?_, kwargs := ?_, queue := ?_, kind := ?_, retries := ?_,
      maxRetries := ?_, backoffBaseMs := ?_, backoffFactor := ?_, backoffMaxMs := ?_, jitter := ?_,
      timeoutMs := ?_, softTimeoutMs := ?_, idempotencyKey := ?_, storeResult := ?_,
      enqueuedAt := ?_, notBefore := ?_, expiresAt := ?_, extra := readExtra_encoded henc,
      idChars := hidChars, taskChars := htaskChars, factor := hx, texts := htexts }
  · rw [hint "v" 1 (by simp [Call.envelope])]
    exact readU32_ofInt (by decide)
  · rw [hread "id" htid (by simp [Call.envelope])]
    exact readString_encodeStr
  · rw [hread "task" httask (by simp [Call.envelope])]
    exact readString_encodeStr
  · rw [hread "args" htargs (by simp [Call.envelope])]
    exact readOpt_readRaw hargsNe
  · rw [hread "kwargs" htkwargs (by simp [Call.envelope])]
    exact readOpt_readRaw hkwargsNe
  · rw [hread "queue" htqueue (by simp [Call.envelope])]
    exact readString_encodeStr
  · have htkind : toText floatToken (.str (PyStr.ofString (c.task.elim "io" (·.kind.name)))) =
        some (.str (encodeStr (c.task.elim "io" (·.kind.name)).toList)) := by
      rw [toText, PyStr.ofString, PyStr.utf8_map_char]
      rfl
    rw [hread "kind" htkind (by simp [Call.envelope]), readString_encodeStr]
    rfl
  · rw [hint "retries" 0 (by simp [Call.envelope])]
    exact readU32_ofInt (by decide)
  · rw [hint "max_retries" (c.task.elim 3 (·.maxRetries)) (by simp [Call.envelope]),
      readU32_ofInt hretries]
    rfl
  · rw [hint "backoff_base_ms" (c.task.elim 500 (·.backoffBaseMs)) (by simp [Call.envelope])]
    exact isSome_readU64_ofInt hbase0
  · rw [hread "backoff_factor" htx (by simp [Call.envelope])]
    rfl
  · rw [hint "backoff_max_ms" (c.task.elim 60000 (·.backoffMaxMs)) (by simp [Call.envelope])]
    exact isSome_readU64_ofInt hbmax0
  · rw [hread "jitter" (v := .bool (c.task.elim true (·.jitter))) rfl (by simp [Call.envelope])]
    rfl
  · rw [hint "timeout_ms" (c.task.elim 300000 (·.timeoutMs)) (by simp [Call.envelope]), readTimeoutMs,
      readU64_ofInt]
    by_cases h : c.task.elim 300000 (·.timeoutMs) < U64_LIMIT
    · rw [if_pos ⟨htimeout0.le, h⟩, if_pos h]
      rfl
    · rw [if_neg fun hrange => h hrange.2, if_neg h]
      rfl
  · intro htimeout
    rw [hread "soft_timeout_ms" (toText_optInt floatToken (c.task.bind (·.softTimeoutMs)))
      (by simp [Call.envelope])]
    exact (isSome_readOpt_readU64 _).2 fun s hs => ⟨(hsoft s hs).1, (hsoft s hs).2.trans htimeout⟩
  · rw [hread "idempotency_key" htkey (by simp [Call.envelope])]
    exact isSome_readOpt_readString hkey htkey
  · rw [hread "store_result" (v := .bool (c.task.elim true (·.storeResult))) rfl
      (by simp [Call.envelope])]
    rfl
  · rw [hint "enqueued_at" c.nowMs (by simp [Call.envelope]), readU64_ofInt]
    by_cases hnow : 0 ≤ c.nowMs ∧ c.nowMs < U64_LIMIT <;> simp [hnow]
  · rw [hread "not_before" (toText_optInt floatToken notBefore) (by simp [Call.envelope])]
    exact isSome_readOpt_readDouble readF64 notBefore
  · rw [hread "expires_at" (toText_optInt floatToken expiresAt) (by simp [Call.envelope])]
    exact isSome_readOpt_readU64 expiresAt

variable {ms : List (String × Member)} {p : Parts}

/-- A parsed envelope that passes the gates was acceptable. -/
theorem acceptable_of_passes (h : FieldReads readF64 floatToken c notBefore expiresAt ms p)
    {env : Envelope} (hparse : Envelope.fromFields readF64 ms = some env)
    (hgates : passesGates env = true) : Acceptable readF64 floatToken c notBefore expiresAt := by
  obtain ⟨-, eid, etask, -, -, -, -, -, -, ebase, efactor, ebmax, -, etimeout, -, -, -,
    eenqueued, enotBefore, eexpires, -⟩ := Envelope.fromFields_eq_some_iff.1 hparse
  simp only [passesGates, Bool.and_eq_true, bne_iff_ne] at hgates
  obtain ⟨-, ⟨hidNe, htaskNe⟩, hvalidId⟩ := hgates
  have hidEq : String.ofList p.id = env.id := Option.some.inj (h.id.symm.trans eid)
  have htaskEq : String.ofList p.task = env.task := Option.some.inj (h.task.symm.trans etask)
  have hsome : ∀ {α : Type} {o : Option α} {a : α}, o = some a → o.isSome := by
    rintro α o a rfl
    rfl
  constructor
  case timeout =>
    by_contra hlimit
    rw [h.timeoutMs, if_neg hlimit] at etimeout
    cases etimeout
  case backoffBase => exact h.backoffBaseMs.1 (hsome ebase)
  case backoffMax => exact h.backoffMaxMs.1 (hsome ebmax)
  case backoffFactor =>
    intro y hy
    obtain rfl : p.factor = y := F64.finite.inj (h.factor.symm.trans hy)
    rw [← h.backoffFactor]
    exact hsome efactor
  case now => exact h.enqueuedAt.1 (hsome eenqueued)
  case notBefore => exact h.notBefore.1 (hsome enotBefore)
  case expiresAt => exact h.expiresAt.1 (hsome eexpires)
  case id =>
    rw [h.idChars, isTaskId_map_char, hidEq]
    exact hvalidId
  case taskName =>
    intro hnil
    refine htaskNe ?_
    rw [← htaskEq, List.map_eq_nil_iff.1 (h.taskChars.symm.trans hnil)]

/-- An acceptable envelope is parsed and passes the gates. -/
theorem passes_of_acceptable (h : FieldReads readF64 floatToken c notBefore expiresAt ms p)
    (hc : Acceptable readF64 floatToken c notBefore expiresAt) :
    ∃ env, Envelope.fromFields readF64 ms = some env ∧ passesGates env = true := by
  have htimeout := h.timeoutMs
  rw [if_pos hc.timeout] at htimeout
  obtain ⟨kind, ekind⟩ := Option.isSome_iff_exists.1 h.kind
  obtain ⟨maxRetries, emaxRetries⟩ := Option.isSome_iff_exists.1 h.maxRetries
  obtain ⟨base, ebase⟩ := Option.isSome_iff_exists.1 (h.backoffBaseMs.2 hc.backoffBase)
  obtain ⟨factor, efactor⟩ := Option.isSome_iff_exists.1 (hc.backoffFactor p.factor h.factor)
  obtain ⟨bmax, ebmax⟩ := Option.isSome_iff_exists.1 (h.backoffMaxMs.2 hc.backoffMax)
  obtain ⟨jitter, ejitter⟩ := Option.isSome_iff_exists.1 h.jitter
  obtain ⟨soft, esoft⟩ := Option.isSome_iff_exists.1 (h.softTimeoutMs hc.timeout)
  obtain ⟨key, ekey⟩ := Option.isSome_iff_exists.1 h.idempotencyKey
  obtain ⟨store, estore⟩ := Option.isSome_iff_exists.1 h.storeResult
  obtain ⟨now, enow⟩ := Option.isSome_iff_exists.1 (h.enqueuedAt.2 hc.now)
  obtain ⟨nb, enb⟩ := Option.isSome_iff_exists.1 (h.notBefore.2 hc.notBefore)
  obtain ⟨exp, eexp⟩ := Option.isSome_iff_exists.1 (h.expiresAt.2 hc.expiresAt)
  refine ⟨{ v := 1, id := String.ofList p.id, task := String.ofList p.task,
            args := some (String.ofList p.args.chars), kwargs := some (String.ofList p.kwargs.chars),
            queue := String.ofList p.queue, kind, retries := 0, maxRetries, backoffBaseMs := base,
            backoffFactor := factor, backoffMaxMs := bmax, jitter,
            timeoutMs := min MAX_TIMEOUT_MS (c.task.elim 300000 (·.timeoutMs)).toNat,
            softTimeoutMs := soft, idempotencyKey := key, storeResult := store, enqueuedAt := now,
            notBefore := nb, expiresAt := exp, extra := [] },
    Envelope.fromFields_eq_some_iff.2 ⟨h.v, h.id, h.task, h.args, h.kwargs, h.queue, ekind, h.retries,
      emaxRetries, ebase, h.backoffFactor.trans efactor, ebmax, ejitter, htimeout, esoft, ekey, estore,
      enow, enb, eexp, h.extra⟩, ?_⟩
  have htimeoutNe : min MAX_TIMEOUT_MS (c.task.elim 300000 (·.timeoutMs)).toNat ≠ 0 := by
    have := (task_nonneg c).1
    simp only [MAX_TIMEOUT_MS]
    omega
  have hid := hc.id
  rw [h.idChars, isTaskId_map_char] at hid
  have hidNe : String.ofList p.id ≠ "" := by
    intro hnil
    rw [hnil] at hid
    cases hid
  have htaskNe : String.ofList p.task ≠ "" := by
    intro hnil
    refine hc.taskName ?_
    rw [h.taskChars, String.ofList_eq_empty_iff.1 hnil]
    rfl
  simp only [passesGates, Bool.and_eq_true, bne_iff_ne, decide_eq_true_eq]
  exact ⟨⟨⟨by decide, argsKwargsShapeOk_of_texts h.texts _ rfl rfl⟩, htimeoutNe⟩,
    ⟨hidNe, htaskNe⟩, hid⟩

end Accept

/-! ### Acceptance, in terms of the call -/

/-- The numbers of a task definition, a configuration and a call that the worker has a place for:
what the client's own checks leave open. -/
structure InRange (readF64 : JsonNumber → Option F64) (floatToken : ℚ → JsonNumber)
    (p : Option TaskParams) (app : App) (c : Call) : Prop where
  timeout : ∀ q ∈ p, ∀ ms, secondsToMs q.timeout = .ok ms → ms < U64_LIMIT
  backoffBase : ∀ q ∈ p, ∀ ms, secondsToMs q.backoffBase = .ok ms → ms < U64_LIMIT
  backoffMax : ∀ q ∈ p, ∀ ms, secondsToMs q.backoffMax = .ok ms → ms < U64_LIMIT
  backoffFactor : ∀ x, (p.elim (.float (.finite 2)) (·.backoffFactor)).toFloat = .ok (.finite x) →
    (readF64 (floatToken x)).isSome
  now : 0 ≤ c.nowMs ∧ c.nowMs < U64_LIMIT
  notBefore : ∀ i, c.notBefore = .ok (some i) → (readF64 (.ofInt i)).isSome
  queueTtl : c.givenExpiry = .ok none → ∀ queueName ttl, app.resolveQueue c = .ok queueName →
    app.queueTtlMs queueName = .ok (some ttl) → c.nowMs + ttl < U64_LIMIT
  taskId : ∀ id ∈ c.taskId, id ≠ [] → isTaskId id = true
  taskName : c.taskName ≠ []

section Range

variable {readF64 : JsonNumber → Option F64} {floatToken : ℚ → JsonNumber}
  {p : Option TaskParams} {app : App} {c : Call} {queueName : PyStr}
  {notBefore queueTtlMs given : Option ℤ}

/-- What a call puts under `expires_at` is in range unless it is the queue's time to live. -/
theorem expiresAt_in_range_iff (hnow : 0 ≤ c.nowMs) (httl : app.queueTtlMs queueName = .ok queueTtlMs)
    (hrange : ∀ e ∈ given, 0 ≤ e ∧ e ≤ U64_MAX) :
    (∀ i ∈ c.expiresAt given queueTtlMs, 0 ≤ i ∧ i < U64_LIMIT) ↔
      (given = none → ∀ ttl ∈ queueTtlMs, c.nowMs + ttl < U64_LIMIT) := by
  have hlimit : (U64_MAX : ℤ) + 1 = U64_LIMIT := by decide
  unfold Call.expiresAt
  cases given with
  | some e =>
    have := hrange e rfl
    constructor
    · intro _ h
      cases h
    · rintro - i hi
      obtain rfl : e = i := Option.some.inj hi
      omega
  | none =>
    cases queueTtlMs with
    | none => simp
    | some ttl =>
      have := App.queueTtlMs_nonneg httl
      constructor
      · rintro h - t ht
        obtain rfl : ttl = t := Option.some.inj ht
        exact (h _ rfl).2
      · intro h i hi
        obtain rfl : c.nowMs + ttl = i := Option.some.inj hi
        exact ⟨by omega, h rfl ttl rfl⟩

/-- The ranges of an envelope's parts are those of the call it was made for. -/
theorem acceptable_iff_inRange (hp : Option.Rel (fun p t => TaskDef.init p = .ok t) p c.task)
    (hqueue : app.resolveQueue c = .ok queueName) (hnotBefore : c.notBefore = .ok notBefore)
    (httl : app.queueTtlMs queueName = .ok queueTtlMs) (hgiven : c.givenExpiry = .ok given)
    (hrange : ∀ e ∈ given, 0 ≤ e ∧ e ≤ U64_MAX) :
    Acceptable readF64 floatToken c notBefore (c.expiresAt given queueTtlMs) ↔
      InRange readF64 floatToken p app c := by
  -- the durations and the factor, given and kept
  have htask : (c.task.elim 300000 (·.timeoutMs) < U64_LIMIT ↔
        ∀ q ∈ p, ∀ ms, secondsToMs q.timeout = .ok ms → ms < U64_LIMIT) ∧
      (c.task.elim 500 (·.backoffBaseMs) < U64_LIMIT ↔
        ∀ q ∈ p, ∀ ms, secondsToMs q.backoffBase = .ok ms → ms < U64_LIMIT) ∧
      (c.task.elim 60000 (·.backoffMaxMs) < U64_LIMIT ↔
        ∀ q ∈ p, ∀ ms, secondsToMs q.backoffMax = .ok ms → ms < U64_LIMIT) ∧
      (p.elim (.float (.finite 2)) (·.backoffFactor)).toFloat =
        .ok (c.task.elim (.finite 2) (·.backoffFactor)) := by
    generalize c.task = task at hp
    cases hp with
    | none =>
      have hlimit : (300000 : ℤ) < U64_LIMIT := by decide
      refine ⟨?_, ?_, ?_, rfl⟩ <;> simp <;> omega
    | @some q t h =>
      obtain ⟨htimeout, hbase, hmax, hfactor⟩ := TaskDef.init_eq_ok h
      simp [htimeout, hbase, hmax, hfactor]
  obtain ⟨htimeout, hbase, hmax, hfactor⟩ := htask
  have hqueueTtl : (c.givenExpiry = .ok none → ∀ queueName ttl, app.resolveQueue c = .ok queueName →
        app.queueTtlMs queueName = .ok (some ttl) → c.nowMs + ttl < U64_LIMIT) ↔
      (given = none → ∀ ttl ∈ queueTtlMs, c.nowMs + ttl < U64_LIMIT) := by
    rw [hgiven]
    constructor
    · rintro h rfl ttl rfl
      exact h rfl queueName ttl hqueue httl
    · intro h hnone name ttl hname hms
      obtain rfl : queueName = name := Except.ok.inj (hqueue.symm.trans hname)
      exact h (Except.ok.inj hnone) ttl (Except.ok.inj (httl.symm.trans hms))
  constructor
  · intro h
    exact
      { timeout := htimeout.1 h.timeout, backoffBase := hbase.1 h.backoffBase,
        backoffMax := hmax.1 h.backoffMax
        backoffFactor := fun x hx => h.backoffFactor x (Except.ok.inj (hfactor.symm.trans hx))
        now := h.now
        notBefore := fun i hi => h.notBefore i (Except.ok.inj (hnotBefore.symm.trans hi))
        queueTtl := hqueueTtl.2 ((expiresAt_in_range_iff h.now.1 httl hrange).1 h.expiresAt)
        taskId := (isTaskId_id c).1 h.id, taskName := h.taskName }
  · intro h
    exact
      { timeout := htimeout.2 h.timeout, backoffBase := hbase.2 h.backoffBase,
        backoffMax := hmax.2 h.backoffMax
        backoffFactor := fun x hx => h.backoffFactor x (by rw [hfactor, hx])
        now := h.now
        notBefore := fun i hi => h.notBefore i (by rw [hnotBefore, hi])
        expiresAt := (expiresAt_in_range_iff h.now.1 httl hrange).2 (hqueueTtl.1 h.queueTtl)
        id := (isTaskId_id c).2 h.taskId, taskName := h.taskName }

variable {fields : List (String × PyValue)} {fireAt : Option ℤ} {raw : List Char}

/-- **A published envelope is taken up exactly when it is acceptable.** -/
theorem isSome_takeUp_iff (hkey : isKey c.idempotencyKey = true) {expiresAt : Option ℤ}
    (hraw : app.encodeEnvelope floatToken (c.envelope queueName notBefore expiresAt) = .ok raw) :
    (takeUp readF64 app.maxEnvelopeBytes raw).isSome ↔
      Acceptable readF64 floatToken c notBefore expiresAt := by
  obtain ⟨tree, htree, hsize, rfl⟩ := App.encodeEnvelope_eq_ok hraw
  obtain ⟨hvalid, htext⟩ := encode_eq_ok htree
  obtain ⟨ms, hms, rfl⟩ := Option.map_eq_some_iff.1 htext
  obtain ⟨fs, hfs, rfl⟩ := exists_encoded hms
  have hvalues : ∀ f ∈ c.envelope queueName notBefore expiresAt,
      validateJsonTypes 2 f.2 = .ok () := by
    intro f hf
    rw [validateJsonTypes, if_neg (by decide)] at hvalid
    exact validate_of_mem_entries hvalid _ (List.mem_map.2 ⟨f, hf, rfl⟩)
  obtain ⟨parts, hreads⟩ := exists_fieldReads readF64 hfs hvalues hkey
  have hparse : Envelope.fromText readF64
      (obj (fs.map fun f => (encodeStr f.1.toList, f.2))).chars =
        Envelope.fromFields readF64 (fs.map fun f => fieldMember f.1 f.2.chars f.2) := by
    have hfields := textFields_chars fs
    rw [fieldsText] at hfields
    rw [Envelope.fromText, hfields]
    rfl
  rw [takeUp, if_neg (not_lt.2 hsize), hparse]
  constructor
  · intro hsome
    obtain ⟨env, henv⟩ := Option.isSome_iff_exists.1 hsome
    obtain ⟨hfields, hgates⟩ := Option.filter_eq_some_iff.1 henv
    exact acceptable_of_passes hreads hfields hgates
  · intro hacc
    obtain ⟨env, hfields, hgates⟩ := passes_of_acceptable hreads hacc
    rw [hfields, Option.filter_some, if_pos hgates]
    rfl

/-- **The worker takes up what the client publishes exactly when the call was in range.** -/
theorem worker_accepts_iff (hp : Option.Rel (fun p t => TaskDef.init p = .ok t) p c.task)
    (hmake : app.makeEnvelope c = .ok (fields, queueName, fireAt))
    (hraw : app.encodeEnvelope floatToken fields = .ok raw) :
    (takeUp readF64 app.maxEnvelopeBytes raw).isSome ↔ InRange readF64 floatToken p app c := by
  obtain ⟨hkey, hqueue, notBefore, queueTtlMs, given, hnotBefore, httl, hgiven, hrange, rfl⟩ :=
    App.makeEnvelope_eq_ok hmake
  rw [isSome_takeUp_iff hkey hraw]
  exact acceptable_iff_inRange hp hqueue hnotBefore httl hgiven hrange

end Range

/-! ### Nesting -/

section Nesting

variable {floatToken : ℚ → JsonNumber} {app : App} {c : Call} {queueName : PyStr}
  {fields : List (String × PyValue)} {fireAt : Option ℤ}

/-- Scalars are never refused for their nesting. -/
theorem validateEntries_scalars {depth : ℕ} {l : List (PyKey × PyValue)}
    (hl : ∀ e ∈ l, pyNesting e.2 = 0) {path : List Segment} :
    validateEntries depth l ≠ .error ⟨.nestedDeeper, path⟩ := by
  induction l generalizing path with
  | nil =>
    intro h
    cases h
  | cons e l ih =>
    obtain ⟨k, v⟩ := e
    cases k with
    | other t =>
      intro h
      cases h
    | str k =>
      have hv : pyNesting v = 0 := hl _ List.mem_cons_self
      have hvalid : ∀ e, validateJsonTypes depth v = .error e → e.reason ≠ .nestedDeeper := by
        intro e he hdeeper
        cases v with
        | list items => rw [pyNesting] at hv; omega
        | dict entries => rw [pyNesting] at hv; omega
        | float x =>
          rw [validateJsonTypes] at he
          split_ifs at he
          cases he
          cases hdeeper
        | other t =>
          cases he
          cases hdeeper
        | _ => cases he
      rw [validateEntries]
      cases hr : validateJsonTypes depth v with
      | error e =>
        intro h
        have hreason := hvalid e hr
        rw [Except.error.injEq, Rejection.mk.injEq] at h
        exact hreason h.1
      | ok u => exact ih fun e he => hl e (List.mem_cons_of_mem _ he)

/-- The codec's rejection of an envelope is that of its fields. -/
theorem encodeEnvelope_eq_rejected_iff {r : Rejection} :
    app.encodeEnvelope floatToken fields = .error (.encode (.rejected r)) ↔
      validateEntries 2 (fields.map fun f => (.str (PyStr.ofString f.1), f.2)) = .error r := by
  have hvalid : validateJsonTypes 1 (.dict (fields.map fun f => (.str (PyStr.ofString f.1), f.2))) =
      validateEntries 2 (fields.map fun f => (.str (PyStr.ofString f.1), f.2)) := by
    rw [validateJsonTypes, if_neg (by decide)]
  unfold App.encodeEnvelope encode
  rw [hvalid]
  cases validateEntries 2 (fields.map fun f => (.str (PyStr.ofString f.1), f.2)) with
  | error e =>
    show Except.error (CallError.encode (.rejected e)) = _ ↔ _
    simp
  | ok u =>
    refine ⟨fun h => ?_, fun h => by cases h⟩
    -- past the walk only the encoder and the size check can fail
    exfalso
    cases htext : toText floatToken (.dict (fields.map fun f => (.str (PyStr.ofString f.1), f.2))) with
    | none => simp [htext, Except.mapError, bind, Except.bind] at h
    | some t =>
      simp only [htext, Option.elim_some, Except.mapError, bind, Except.bind, require] at h
      split_ifs at h <;> cases h

/-- **The client's refusal for nesting**: `args` or `kwargs` nested deeper than the worker's limit. -/
theorem encodeEnvelope_nestedDeeper_iff (hkey : isKey c.idempotencyKey = true)
    (hargs : jsonTyped (.list c.args) = true) (hkwargs : jsonTyped (.dict c.kwargs) = true)
    (notBefore expiresAt : Option ℤ) :
    (∃ path, app.encodeEnvelope floatToken (c.envelope queueName notBefore expiresAt) =
        .error (.encode (.rejected ⟨.nestedDeeper, path⟩))) ↔
      MAX_ARG_NESTING < pyNesting (.list c.args) ∨ MAX_ARG_NESTING < pyNesting (.dict c.kwargs) := by
  simp only [encodeEnvelope_eq_rejected_iff]
  -- the fields up to `kwargs`, which are JSON, and the scalars after them
  let toEntry : String × PyValue → PyKey × PyValue := fun f => (.str (PyStr.ofString f.1), f.2)
  let head := ((c.envelope queueName notBefore expiresAt).take 5).map toEntry
  let tail := ((c.envelope queueName notBefore expiresAt).drop 5).map toEntry
  have hsplit : (c.envelope queueName notBefore expiresAt).map toEntry = head ++ tail := by
    rw [← List.map_append, List.take_append_drop]
  have hjudged : Judged 2 (nestingEntries head) (jsonTypedEntries head) (validateEntries 2 head) :=
    judged_entries fun e _ => judged_validate e.2 2
  have hnesting : nestingEntries head =
      max (pyNesting (.list c.args)) (pyNesting (.dict c.kwargs)) := by
    simp [head, toEntry, Call.envelope, nestingEntries, pyNesting]
  have htyped : jsonTypedEntries head = true := by
    simp [head, toEntry, Call.envelope, jsonTypedEntries, jsonTyped] at hargs hkwargs ⊢
    exact ⟨hargs, hkwargs⟩
  have hscalars : ∀ e ∈ tail, pyNesting e.2 = 0 := by
    have hopt : ∀ n, pyNesting (optInt n) = 0 := by rintro (_ | n) <;> rfl
    have hkeyScalar : pyNesting c.idempotencyKey = 0 := by
      cases hk : c.idempotencyKey <;> first | rfl | (rw [hk] at hkey; cases hkey)
    simp [tail, toEntry, Call.envelope, pyNesting, hopt, hkeyScalar]
  show (∃ path, validateEntries 2 ((c.envelope queueName notBefore expiresAt).map toEntry) = _) ↔ _
  rw [hsplit, validateEntries_append]
  have hok := hjudged.ok_iff
  rw [hnesting, htyped] at hok
  simp only [MAX_NESTING, MAX_ARG_NESTING] at hok ⊢
  cases hhead : validateEntries 2 head with
  | ok u =>
    refine ⟨?_, fun hdeep => ?_⟩
    · rintro ⟨path, hpath⟩
      exact absurd hpath (validateEntries_scalars hscalars)
    · have := (hok.1 hhead).2
      omega
  | error e =>
    refine ⟨fun _ => ?_, fun _ => ⟨e.path, ?_⟩⟩
    · by_contra hshallow
      have := hok.2 ⟨trivial, by omega⟩
      rw [hhead] at this
      cases this
    · have hreason := hjudged.reason htyped e hhead
      show Except.error e = _
      rw [← hreason]

/-- **Client and worker agree on nesting**: the client refuses the envelope of a call for its nesting
exactly when the worker would refuse the encoded `args` or `kwargs`, and it would refuse them for
nothing else. -/
theorem nesting_limits_agree (hmake : app.makeEnvelope c = .ok (fields, queueName, fireAt))
    (hargs : jsonTyped (.list c.args) = true) (hkwargs : jsonTyped (.dict c.kwargs) = true)
    {args kwargs : JsonText} (htargs : toText floatToken (.list c.args) = some args)
    (htkwargs : toText floatToken (.dict c.kwargs) = some kwargs) {env : Envelope}
    (henvArgs : env.args = some (String.ofList args.chars))
    (henvKwargs : env.kwargs = some (String.ofList kwargs.chars)) :
    ((∃ path, app.encodeEnvelope floatToken fields =
        .error (.encode (.rejected ⟨.nestedDeeper, path⟩))) ↔ argsKwargsShapeOk env = false) ∧
      (argsKwargsShapeOk env = false ↔
        MAX_ARG_NESTING < args.nesting ∨ MAX_ARG_NESTING < kwargs.nesting) := by
  obtain ⟨hkey, -, notBefore, queueTtlMs, given, -, -, -, -, rfl⟩ := App.makeEnvelope_eq_ok hmake
  have hshape := argsKwargsShapeOk_iff htargs htkwargs henvArgs henvKwargs
  have hworker : argsKwargsShapeOk env = false ↔
      MAX_ARG_NESTING < args.nesting ∨ MAX_ARG_NESTING < kwargs.nesting := by
    rw [← Bool.not_eq_true, hshape]
    omega
  refine ⟨?_, hworker⟩
  rw [encodeEnvelope_nestedDeeper_iff hkey hargs hkwargs, hworker, nesting_toText htargs,
    nesting_toText htkwargs]

end Nesting

/-! ### A call in range, and one out of it -/

theorem nearestDouble_wholeToken_two : nearestDouble (wholeToken 2) = some (.finite 2) := by
  have hvalue : (wholeToken 2).value = ((2 : ℤ) : ℚ) := by decide +kernel
  have hexact : F64.ofRat ((2 : ℤ) : ℚ) = .finite 2 := F64.ofInt_exact (n := 2) (by decide)
  rw [nearestDouble, hvalue, hexact]
  rfl

/-- The parameters of a task with the given timeout in seconds. -/
def reportParams (timeout : ℤ) : TaskParams :=
  { defaultName := PyStr.ofString "jobs.report", timeout := .int timeout, backoffBase := .int 1,
    backoffMax := .int 60 }

/-- The task these parameters define. -/
def reportTask (timeout : ℤ) (h : 0 < timeout) : TaskDef :=
  { name := PyStr.ofString "jobs.report", kind := .io, queue := none, maxRetries := 3,
    timeoutMs := timeout * 1000, softTimeoutMs := none, backoffBaseMs := 1000,
    backoffFactor := .finite 2, backoffMaxMs := 60000, jitter := true, storeResult := true,
    soft_lt := nofun, timeout_pos := by omega, maxRetries_range := by decide, soft_nonneg := nofun,
    backoffBase_nonneg := by decide, backoffMax_nonneg := by decide }

/-- A call of it. -/
def reportCall (timeout : ℤ) (h : 0 < timeout) : Call :=
  { taskName := PyStr.ofString "jobs.report", args := [.int 7], task := some (reportTask timeout h),
    clockMs := 1_700_000_000_000, urandom := zeroBytes }

/-- The default configuration. -/
def plainApp : App :=
  { defaultQueue := PyStr.ofString "default", taskRoutes := [], queueTtl := [],
    maxEnvelopeBytes := 1_048_576, maxEnvelopeBytes_pos := defaultMaxEnvelopeBytes_pos }

theorem init_reportParams {timeout : ℤ} (h : 0 < timeout) :
    TaskDef.init (reportParams timeout) = .ok (reportTask timeout h) := by
  have hpos : (0 : ℤ) < timeout * 1000 := by omega
  simp [TaskDef.init, reportParams, chosenKind, converted, secondsToMs, optSecondsToMs, PyNum.scale,
    PyNum.roundInt, PyNum.truncInt, PyNum.toFloat, require, hpos, Except.mapError, U32_MAX, reportTask,
    bind, Except.bind, pure, Except.pure]

theorem makeEnvelope_reportCall {timeout : ℤ} (h : 0 < timeout) :
    plainApp.makeEnvelope (reportCall timeout h) =
      .ok ((reportCall timeout h).envelope (PyStr.ofString "default") none none,
        PyStr.ofString "default", none) := rfl

theorem exists_of_toBool {ε α : Type} {x : Except ε α} (h : x.toBool = true) : ∃ a, x = .ok a := by
  cases x with
  | error e => cases h
  | ok a => exact ⟨a, rfl⟩

/-- **An ordinary call is taken up.** -/
theorem worker_accepts_report : ∃ raw,
    plainApp.encodeEnvelope wholeToken
      ((reportCall 300 (by decide)).envelope (PyStr.ofString "default") none none) = .ok raw ∧
    (takeUp nearestDouble plainApp.maxEnvelopeBytes raw).isSome := by
  obtain ⟨raw, hraw⟩ := exists_of_toBool (x := plainApp.encodeEnvelope wholeToken
    ((reportCall 300 (by decide)).envelope (PyStr.ofString "default") none none)) (by decide +kernel)
  have hrel : Option.Rel (fun p t => TaskDef.init p = .ok t) (some (reportParams 300))
      (reportCall 300 (by decide)).task := Option.Rel.some (init_reportParams (by decide))
  refine ⟨raw, hraw, (worker_accepts_iff hrel (makeEnvelope_reportCall _) hraw).2 ?_⟩
  refine ⟨?_, ?_, ?_, ?_, by decide, ?_, ?_, nofun, by decide⟩
  · rintro q hq ms hms
    cases hq
    cases hms
    decide
  · rintro q hq ms hms
    cases hq
    cases hms
    decide
  · rintro q hq ms hms
    cases hq
    cases hms
    decide
  · intro x hx
    cases hx
    rw [nearestDouble_wholeToken_two]
    rfl
  · rintro i ⟨⟩
  · rintro - queueName ttl hqueue httl
    cases httl

/-- **A timeout the client takes, longer than the worker can read**: `1.9 * 10 ^ 16` seconds. -/
theorem long_timeout_dead_lettered : ∃ raw,
    TaskDef.init (reportParams 19_000_000_000_000_000) =
      .ok (reportTask 19_000_000_000_000_000 (by decide)) ∧
    plainApp.makeEnvelope (reportCall 19_000_000_000_000_000 (by decide)) =
      .ok ((reportCall 19_000_000_000_000_000 (by decide)).envelope (PyStr.ofString "default") none none,
        PyStr.ofString "default", none) ∧
    plainApp.encodeEnvelope wholeToken
      ((reportCall 19_000_000_000_000_000 (by decide)).envelope (PyStr.ofString "default") none none) =
        .ok raw ∧
    takeUp nearestDouble plainApp.maxEnvelopeBytes raw = none := by
  obtain ⟨raw, hraw⟩ := exists_of_toBool (x := plainApp.encodeEnvelope wholeToken
    ((reportCall 19_000_000_000_000_000 (by decide)).envelope (PyStr.ofString "default") none none))
    (by decide +kernel)
  refine ⟨raw, init_reportParams _, makeEnvelope_reportCall _, hraw, ?_⟩
  rw [← Option.not_isSome_iff_eq_none, isSome_takeUp_iff rfl hraw]
  intro hacc
  exact absurd hacc.timeout (by decide)

theorem nesting_nestedText (n : ℕ) : (nestedText n).nesting = n := by
  induction n with
  | zero => rfl
  | succ n ih =>
    rw [nestedText, nesting_arr]
    simp [ih, Nat.add_comm]

/-- A call with 127 nested lists as `args`. -/
def deepCall : Call := { reportCall 300 (by decide) with args := [nestedList 126] }

/-- The envelope the worker would find. -/
def deepEnvelope : Envelope :=
  { id := "", task := "", args := some (String.ofList (nestedText 127).chars),
    kwargs := some (String.ofList (chars (.obj []))) }

/-- **One level too many**: both sides refuse. -/
theorem nesting_limits_agree_deep :
    argsKwargsShapeOk deepEnvelope = false ∧ ∃ path,
      plainApp.encodeEnvelope wholeToken (deepCall.envelope (PyStr.ofString "default") none none) =
        .error (.encode (.rejected ⟨.nestedDeeper, path⟩)) := by
  have hmake : plainApp.makeEnvelope deepCall =
      .ok (deepCall.envelope (PyStr.ofString "default") none none, PyStr.ofString "default", none) :=
    rfl
  have hargs : deepEnvelope.args = some (String.ofList (nestedText 127).chars) := rfl
  obtain ⟨hagree, hworker⟩ := nesting_limits_agree hmake (jsonTyped_nestedList 127) rfl
    (toText_nestedList wholeToken 127) rfl hargs rfl
  have hrefused : argsKwargsShapeOk deepEnvelope = false := by
    rw [hworker, nesting_nestedText]
    exact Or.inl (by decide)
  exact ⟨hrefused, hagree.2 hrefused⟩

end Cauli
