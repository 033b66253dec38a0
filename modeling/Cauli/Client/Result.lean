import Cauli.Worker.CpuRequest
import Cauli.Lib.PyText

/-!
# Reading a result (`py/cauli/result.py`)

A result document is read from a store that others can write to. `AsyncResult.get` and
`AsyncResult.status` decode it and look at its fields; every field may have any JSON type.

* `decodeDoc`, `resolve`, `get`, `statusOf`: the functions of the source, with the exceptions they end
  in. `get` is given what its polls read and whether the deadline has passed after each;
* `renders`: a value that `str` and `repr` have a text for, which an integer of too many digits has not;
* `WellFormed`: the documents that are read without a foreign exception;
* `result_never_foreign_iff`: a stored document gives a value or a `TaskFailedError` from `get`, and a
  status or an `InvalidResult` from `status`, exactly when it is well formed.

The decoder of the codec and the texts of `str` and `repr` are parameters.
-/

namespace Cauli.Result

/-- `TaskFailedError`; its attributes are what the document holds. -/
structure TaskFailedError where
  type : PyValue
  message : PyValue
  traceback : PyValue
  origin : PyValue

/-- The exceptions that leave a call. -/
inductive PyExc
  | taskFailed (e : TaskFailedError)
  | attributeError
  | valueError
  | timeoutError

/-- A string literal as a value. -/
def lit (s : String) : PyValue := .str (PyStr.ofString s)

/-- The error of a document that cannot be used. -/
def invalidResult (message : PyStr) : PyExc :=
  .taskFailed ⟨lit "InvalidResult", .str message, .none, lit "client"⟩

/-- `AsyncResult`, without its application. -/
structure AsyncResult where
  id : PyStr
  duplicate : Bool := false
  expired : Bool := false
  claimantId : Option PyStr := none

/-- What is Python's: the decoder of the codec, which returns a JSON value or raises one of
`DECODE_ERRORS`, and the texts of `str` and `repr`. -/
structure Python where
  decode : List UInt8 → Except PyStr PyValue
  str : PyValue → PyStr
  repr : PyValue → PyStr

mutual

/-- Every integer in the value has at most `sys.get_int_max_str_digits()` digits. -/
def renders : PyValue → Bool
  | .int n => decide (n.natAbs < 10 ^ PyText.MAX_STR_DIGITS)
  | .list items => rendersItems items
  | .dict entries => rendersEntries entries
  | _ => true

/-- Of every item. -/
def rendersItems : List PyValue → Bool
  | [] => true
  | v :: vs => renders v && rendersItems vs

/-- Of every entry. -/
def rendersEntries : List (PyKey × PyValue) → Bool
  | [] => true
  | (_, v) :: es => renders v && rendersEntries es

end

/-- `type(v).__name__`. -/
def typeName : PyValue → String
  | .none => "NoneType"
  | .bool _ => "bool"
  | .int _ => "int"
  | .float _ => "float"
  | .str _ => "str"
  | .list _ => "list"
  | .dict _ => "dict"
  | .other t => t

variable (py : Python)

/-- `str(v)`. -/
def pyStr : PyValue → Except PyExc PyStr
  | .str s => .ok s
  | v => if renders v then .ok (py.str v) else .error .valueError

/-- `repr(v)`. -/
def pyRepr (v : PyValue) : Except PyExc PyStr :=
  if renders v then .ok (py.repr v) else .error .valueError

/-- `doc.get(k)` of a dict. -/
def docGet (doc : PyValue) (k : String) : PyValue := (getItem doc k).getD .none

/-- `error.get(k)`, of a value that may have no such method. -/
def errorGet (error : PyValue) (k : String) : Except PyExc PyValue :=
  match error with
  | .dict _ => .ok (docGet error k)
  | _ => .error .attributeError

/-- The value is the given text. -/
def isText (v : PyValue) (s : String) : Bool :=
  match v with
  | .str t => decide (t = PyStr.ofString s)
  | _ => false

/-- `_decode`. -/
def decodeDoc (self : AsyncResult) : Option (List UInt8) → Except PyExc (Option PyValue)
  | none => .ok none
  | some raw =>
    match py.decode raw with
    | .error exc =>
      .error (invalidResult (PyStr.ofString "result document for task " ++ self.id ++
        PyStr.ofString " is not valid JSON: " ++ exc))
    | .ok (.dict entries) => .ok (some (.dict entries))
    | .ok doc =>
      .error (invalidResult (PyStr.ofString "result document for task " ++ self.id ++
        PyStr.ofString " must be a JSON object, got " ++ PyStr.ofString (typeName doc)))

/-- `_status_of`. -/
def statusOf (self : AsyncResult) : Option PyValue → Except PyExc PyStr
  | none => .ok (PyStr.ofString "pending")
  | some doc =>
    match getItem doc "status" with
    | none =>
      .error (invalidResult (PyStr.ofString "result document for task " ++ self.id ++
        PyStr.ofString " has no \"status\" field"))
    | some v => pyStr py v

/-- `status`, with what the key holds. -/
def status (self : AsyncResult) (raw : Option (List UInt8)) : Except PyExc PyStr :=
  match decodeDoc py self raw with
  | .error e => .error e
  | .ok doc => statusOf py self doc

/-- The exception of a `failure`. -/
def failureExc (error : PyValue) : Except PyExc PyExc := do
  let type ← errorGet error "type"
  let message ← errorGet error "message"
  let traceback ← errorGet error "traceback"
  let origin ← errorGet error "origin"
  return .taskFailed ⟨type, message, traceback, origin⟩

/-- The exception of an `expired`. -/
def expiredExc (error : PyValue) : Except PyExc PyExc := do
  let type ← errorGet error "type"
  let message ← errorGet error "message"
  let origin ← errorGet error "origin"
  return .taskFailed ⟨orDefault type (lit "Expired"),
    orDefault message (lit "task expired before it was executed"), .none, origin⟩

/-- Raise the exception, or the one that its construction ends in. -/
def raised : Except PyExc PyExc → Except PyExc PyValue
  | .ok e | .error e => .error e

/-- `None if claimant is None else str(claimant)`. -/
def claimantText : PyValue → Except PyExc (Option PyStr)
  | .none => .ok none
  | v => (pyStr py v).map some

/-- `_resolve`, and the handle after it. -/
def resolve (self : AsyncResult) (doc : PyValue) : Except PyExc PyValue × AsyncResult :=
  let status := docGet doc "status"
  if isText status "success" then (.ok (docGet doc "result"), self)
  else if isText status "failure" then
    (raised (failureExc (orDefault (docGet doc "error") (.dict []))), self)
  else if isText status "duplicate" then
    match claimantText py (docGet doc "claimant_id") with
    | .ok claimantId => (.ok .none, { self with duplicate := true, claimantId })
    | .error e => (.error e, { self with duplicate := true })
  else if isText status "expired" then
    (raised (expiredExc (orDefault (docGet doc "error") (.dict []))), { self with expired := true })
  else
    match pyRepr py status with
    | .ok r => (.error (invalidResult (PyStr.ofString "unrecognized result status " ++ r)), self)
    | .error e => (.error e, self)

/-- `get`: each poll is what the key held and whether the deadline had passed after it. `none` as long as
it waits. -/
def get (self : AsyncResult) :
    List (Option (List UInt8) × Bool) → Option (Except PyExc PyValue × AsyncResult)
  | [] => none
  | (raw, late) :: polls =>
    match decodeDoc py self raw with
    | .error e => some (.error e, self)
    | .ok (some doc) => some (resolve py self doc)
    | .ok none => if late then some (.error .timeoutError, self) else get self polls

/-! ### Documents that are read without a foreign exception -/

/-- The object under `error` can be asked for its fields: it is false, or a dict. -/
def errorReadable (doc : PyValue) : Bool :=
  match orDefault (docGet doc "error") (.dict []) with
  | .dict _ => true
  | _ => false

/-- An object with such a status has an answer: it has none, or its status is a string; a failure or an
expiry has an error that is an object or false, and the claimant of a duplicate has a text. -/
def Answerable (doc : PyValue) : Option PyValue → Prop
  | none => True
  | some (.str s) =>
    (s = PyStr.ofString "failure" ∨ s = PyStr.ofString "expired" → errorReadable doc = true) ∧
      (s = PyStr.ofString "duplicate" → renders (docGet doc "claimant_id") = true)
  | some _ => False

/-- A document that `get` and `status` have an answer for: it is not JSON, or no object, or an object
with an answer. -/
def WellFormed (raw : List UInt8) : Prop :=
  match py.decode raw with
  | .ok (.dict entries) => Answerable (.dict entries) (getItem (.dict entries) "status")
  | _ => True

/-- The document is not JSON, not an object, or its status is missing or not a string. -/
def Unusable (raw : List UInt8) : Prop :=
  match py.decode raw with
  | .ok (.dict entries) => ∀ s, getItem (.dict entries) "status" ≠ some (.str s)
  | _ => True

/-- A value, or a `TaskFailedError`. -/
def Domestic : Except PyExc PyValue → Prop
  | .ok _ | .error (.taskFailed _) => True
  | .error _ => False

/-- What the two readers promise of a stored document, after any number of polls without one. -/
structure NeverForeign (handle : AsyncResult) (raw : List UInt8) : Prop where
  reads : ∀ n late polls, ∃ out handle',
    get py handle (List.replicate n (none, false) ++ (some raw, late) :: polls) = some (out, handle') ∧
      Domestic out
  reports : (∃ s, status py handle (some raw) = .ok s) ∨
    ∃ m, status py handle (some raw) = .error (invalidResult m)
  refuses : Unusable py raw → ∃ m, status py handle (some raw) = .error (invalidResult m)

variable {py} {self : AsyncResult} {raw : List UInt8}

/-- What is stored is an object, or the error of a document that cannot be used. -/
theorem decodeDoc_cases (py : Python) (self : AsyncResult) (raw : List UInt8) :
    (∃ entries, py.decode raw = .ok (.dict entries) ∧
      decodeDoc py self (some raw) = .ok (some (.dict entries))) ∨
    ((∀ entries, py.decode raw ≠ .ok (.dict entries)) ∧
      ∃ m, decodeDoc py self (some raw) = .error (invalidResult m)) := by
  simp only [decodeDoc]
  cases hdecode : py.decode raw with
  | error exc => exact .inr ⟨nofun, _, rfl⟩
  | ok doc =>
    cases doc with
    | dict entries => exact .inl ⟨entries, rfl, rfl⟩
    | _ => exact .inr ⟨nofun, _, rfl⟩

/-- The polls without a document do not matter. -/
theorem get_replicate (py : Python) (self : AsyncResult) (raw : List UInt8) (n : ℕ) (late : Bool)
    (polls : List (Option (List UInt8) × Bool)) :
    get py self (List.replicate n (none, false) ++ (some raw, late) :: polls) =
      get py self [(some raw, false)] := by
  induction n with
  | zero =>
    rw [List.replicate_zero, List.nil_append, get, get]
    rcases decodeDoc_cases py self raw with ⟨entries, -, hdoc⟩ | ⟨-, m, hdoc⟩ <;> rw [hdoc]
  | succ n ih => exact ih

theorem isText_str (s : PyStr) (t : String) : isText (.str s) t = decide (s = PyStr.ofString t) := rfl

theorem domestic_failure_iff (error : PyValue) :
    Domestic (raised (failureExc error)) ↔ ∃ entries, error = .dict entries := by
  cases error <;> simp [failureExc, errorGet, raised, Domestic, bind, Except.bind, pure, Except.pure]

theorem domestic_expired_iff (error : PyValue) :
    Domestic (raised (expiredExc error)) ↔ ∃ entries, error = .dict entries := by
  cases error <;> simp [expiredExc, errorGet, raised, Domestic, bind, Except.bind, pure, Except.pure]

theorem errorReadable_iff (doc : PyValue) :
    errorReadable doc = true ↔ ∃ entries, orDefault (docGet doc "error") (.dict []) = .dict entries := by
  unfold errorReadable
  cases orDefault (docGet doc "error") (.dict []) <;> simp

/-- `str` of a claimant raises when it has no text. -/
theorem claimantText_cases (py : Python) (v : PyValue) :
    (renders v = true ∧ ∃ c, claimantText py v = .ok c) ∨
      (¬renders v = true ∧ claimantText py v = .error .valueError) := by
  cases v with
  | none => exact .inl ⟨by simp [renders], _, rfl⟩
  | str s => exact .inl ⟨by simp [renders], _, rfl⟩
  | _ =>
    simp only [claimantText, pyStr]
    split_ifs with hrenders
    · exact .inl ⟨hrenders, _, rfl⟩
    · exact .inr ⟨hrenders, rfl⟩

theorem pyStr_ne_invalid (py : Python) (v : PyValue) (m : PyStr) :
    pyStr py v ≠ .error (invalidResult m) := by
  intro h
  unfold pyStr at h
  split at h
  · cases h
  · split at h
    · cases h
    · cases h

theorem ofString_ne {a b : String} (h : a ≠ b) : PyStr.ofString a ≠ PyStr.ofString b :=
  fun heq => h (ofString_inj.1 heq)

/-- **When a document with a string as its status is resolved** without a foreign exception. -/
theorem domestic_resolve_iff (py : Python) (self : AsyncResult) {doc : PyValue} {s : PyStr}
    (hs : getItem doc "status" = some (.str s)) :
    Domestic (resolve py self doc).1 ↔
      (s = PyStr.ofString "failure" ∨ s = PyStr.ofString "expired" → errorReadable doc = true) ∧
      (s = PyStr.ofString "duplicate" → renders (docGet doc "claimant_id") = true) := by
  have hstatus : docGet doc "status" = .str s := by rw [docGet, hs, Option.getD_some]
  simp only [resolve, hstatus, isText_str, decide_eq_true_eq]
  by_cases hfailure : s = PyStr.ofString "failure"
  · subst hfailure
    rw [if_neg (ofString_ne (by decide)), if_pos rfl, domestic_failure_iff, ← errorReadable_iff]
    exact ⟨fun h => ⟨fun _ => h, fun hs => absurd hs (ofString_ne (by decide))⟩,
      fun h => h.1 (.inl rfl)⟩
  by_cases hexpired : s = PyStr.ofString "expired"
  · subst hexpired
    rw [if_neg (ofString_ne (by decide)), if_neg hfailure, if_neg (ofString_ne (by decide)),
      if_pos rfl, domestic_expired_iff, ← errorReadable_iff]
    exact ⟨fun h => ⟨fun _ => h, fun hs => absurd hs (ofString_ne (by decide))⟩,
      fun h => h.1 (.inr rfl)⟩
  have hneither : ¬(s = PyStr.ofString "failure" ∨ s = PyStr.ofString "expired") :=
    not_or.2 ⟨hfailure, hexpired⟩
  by_cases hduplicate : s = PyStr.ofString "duplicate"
  · subst hduplicate
    rw [if_neg (ofString_ne (by decide)), if_neg hfailure, if_pos rfl]
    rcases claimantText_cases py (docGet doc "claimant_id") with ⟨hrenders, c, htext⟩ | ⟨hno, htext⟩
    · rw [htext]
      exact iff_of_true trivial ⟨fun h => absurd h hneither, fun _ => hrenders⟩
    · rw [htext]
      exact iff_of_false not_false fun h => hno (h.2 rfl)
  rw [if_neg hfailure, if_neg hduplicate, if_neg hexpired]
  refine iff_of_true ?_ ⟨fun h => absurd h hneither, fun h => absurd h hduplicate⟩
  split_ifs
  · trivial
  · have hrepr : pyRepr py (.str s) = .ok (py.repr (.str s)) := by simp [pyRepr, renders]
    rw [hrepr]
    trivial

/-- A document without a status is an `InvalidResult` to `get` too. -/
theorem domestic_resolve_of_none {doc : PyValue} (h : getItem doc "status" = none) :
    Domestic (resolve py self doc).1 := by
  have hstatus : docGet doc "status" = .none := by rw [docGet, h, Option.getD_none]
  have hrepr : pyRepr py .none = .ok (py.repr .none) := by simp [pyRepr, renders]
  simp only [resolve, hstatus, isText, Bool.false_eq_true, if_false, hrepr]
  trivial

/-- **When a result document never produces a foreign exception**, for every handle, every decoder and
every stored byte string. -/
theorem result_never_foreign_iff (py : Python) (self : AsyncResult) (raw : List UInt8) :
    NeverForeign py self raw ↔ WellFormed py raw := by
  rcases decodeDoc_cases py self raw with ⟨entries, hdecode, hdoc⟩ | ⟨hother, m, hdoc⟩
  · have hget : get py self [(some raw, false)] = some (resolve py self (.dict entries)) := by
      rw [get, hdoc]
    have hreads : (∀ n late polls, ∃ out self',
        get py self (List.replicate n (none, false) ++ (some raw, late) :: polls) =
          some (out, self') ∧ Domestic out) ↔ Domestic (resolve py self (.dict entries)).1 := by
      simp only [get_replicate, hget, Option.some.injEq]
      refine ⟨fun h => ?_, fun h _ _ _ => ⟨_, _, rfl, h⟩⟩
      obtain ⟨out, self', hout, hdomestic⟩ := h 0 false []
      rwa [hout]
    have hstatus : status py self (some raw) = statusOf py self (some (.dict entries)) := by
      rw [status, hdoc]
    have hformed : WellFormed py raw ↔
        Answerable (.dict entries) (getItem (.dict entries) "status") := by rw [WellFormed, hdecode]
    have husable : Unusable py raw ↔ ∀ s, getItem (.dict entries) "status" ≠ some (.str s) := by
      rw [Unusable, hdecode]
    rw [hformed]
    cases hitem : getItem (.dict entries) "status" with
    | none =>
      have hinvalid : ∃ m, status py self (some raw) = .error (invalidResult m) := by
        rw [hstatus, statusOf, hitem]
        exact ⟨_, rfl⟩
      exact iff_of_true ⟨hreads.2 (domestic_resolve_of_none hitem), .inr hinvalid, fun _ => hinvalid⟩
        trivial
    | some v =>
      cases v with
      | str s =>
        have hok : status py self (some raw) = .ok s := by
          rw [hstatus, statusOf, hitem]
          rfl
        refine Iff.trans ?_ (domestic_resolve_iff py self hitem)
        refine ⟨fun h => hreads.1 h.reads, fun h => ⟨hreads.2 h, .inl ⟨s, hok⟩, fun hno => ?_⟩⟩
        exact absurd hitem (husable.1 hno s)
      | _ =>
        -- the text of the value is returned as a status, or has none
        refine iff_of_false (fun h => ?_) not_false
        obtain ⟨m, hm⟩ := h.refuses (husable.2 fun s hs => by rw [hitem] at hs; cases hs)
        rw [hstatus, statusOf, hitem] at hm
        exact pyStr_ne_invalid py _ m hm
  · have hget : get py self [(some raw, false)] = some (.error (invalidResult m), self) := by
      rw [get, hdoc]
    have hstatus : status py self (some raw) = .error (invalidResult m) := by
      rw [status, hdoc]
    have hformed : WellFormed py raw := by
      unfold WellFormed
      split
      · next entries hdecode => exact absurd hdecode (hother entries)
      · trivial
    refine iff_of_true ⟨fun n late polls => ?_, .inr ⟨m, hstatus⟩, fun _ => ⟨m, hstatus⟩⟩ hformed
    exact ⟨_, _, (get_replicate py self raw n late polls).trans hget, trivial⟩

/-- A decoder that knows one document; its numbers are sevens. -/
def knows (text : String) (doc : PyValue) : Python where
  decode raw := if raw = text.toUTF8.toList then .ok doc
    else .error (PyStr.ofString "JSON is malformed: invalid character (byte 0)")
  str _ := PyStr.ofString "7"
  repr _ := PyStr.ofString "7"

/-- A failure with a text in the place of its error object. -/
def textAsError : String := "\x7b\"status\":\"failure\",\"error\":\"boom\"\x7d"

/-- A number as the status. -/
def numberAsStatus : String := "\x7b\"status\":7\x7d"

/-- A text in the place of the error object ends `get` in an `AttributeError`, and a number as the status
is returned by `status`. -/
theorem foreign_exception_raised :
    let handle : AsyncResult := ⟨PyStr.ofString "a1", false, false, none⟩
    let py := knows textAsError (fieldsDict [("status", lit "failure"), ("error", lit "boom")])
    let py' := knows numberAsStatus (fieldsDict [("status", .int 7)])
    get py handle [(some textAsError.toUTF8.toList, false)] = some (.error .attributeError, handle) ∧
      ¬NeverForeign py handle textAsError.toUTF8.toList ∧
      status py' handle (some numberAsStatus.toUTF8.toList) = .ok (PyStr.ofString "7") ∧
      ¬NeverForeign py' handle numberAsStatus.toUTF8.toList := by
  intro handle py py'
  have hget : get py handle [(some textAsError.toUTF8.toList, false)] =
      some (.error .attributeError, handle) := by
    have hdoc : decodeDoc py handle (some textAsError.toUTF8.toList) =
        .ok (some (fieldsDict [("status", lit "failure"), ("error", lit "boom")])) := by
      simp only [decodeDoc, py, knows, if_pos]
      rfl
    rw [get, hdoc]
    rfl
  have hstatus : status py' handle (some numberAsStatus.toUTF8.toList) = .ok (PyStr.ofString "7") := by
    have hdoc : decodeDoc py' handle (some numberAsStatus.toUTF8.toList) =
        .ok (some (fieldsDict [("status", .int 7)])) := by
      simp only [decodeDoc, py', knows, if_pos]
      rfl
    have hrenders : renders (.int 7) = true := by
      have hlarge : 10 ^ 1 ≤ 10 ^ PyText.MAX_STR_DIGITS := Nat.pow_le_pow_right (by norm_num) (by decide)
      rw [renders, decide_eq_true_eq]
      exact lt_of_lt_of_le (by norm_num) hlarge
    rw [status, hdoc]
    show (if renders (.int 7) then Except.ok (PyStr.ofString "7") else .error PyExc.valueError) = _
    rw [if_pos hrenders]
  refine ⟨hget, fun h => ?_, hstatus, fun h => ?_⟩
  · obtain ⟨out, self', hout, hdomestic⟩ := h.reads 0 false []
    rw [get_replicate, hget] at hout
    cases hout
    exact hdomestic
  · obtain ⟨m, hm⟩ := h.refuses (by
      simp only [Unusable, py', knows, if_pos]
      exact nofun)
    rw [hstatus] at hm
    cases hm

end Cauli.Result
