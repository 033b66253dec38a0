import Cauli.Client.Result
import Cauli.Queue.Completion

/-!
# From the worker's result document to the client (`worker/src/envelope.rs`, `py/cauli/result.py`)

The worker stores a task's result as a JSON text, with the executor's encoding of the value copied into it as
it is; `AsyncResult.get` decodes the text and looks at its fields.

* `docText`: `result_success`, `result_failure`, `result_duplicate` and `result_expired`;
* `Genuine`: the values that Python can hold;
* `treeValue_toText`: a value is decoded from its own encoding;
* `Returned`: what the worker takes for the result of a task, on the io lanes and on the cpu lane;
* `results_arrive`: the client gets what the task returned, or the error that the worker stored.

The decoder of the client is a parameter, and so is how the encoder prints doubles.
-/

namespace Cauli.Documents

open Result JsonText JsonToken

/-- An error object; an empty origin is left out. -/
def errorTree (e : ErrorJson) : JsonText :=
  fieldsText ([("type", strTree e.type_), ("message", strTree e.message),
    ("traceback", strTree e.traceback)] ++ if e.origin = "" then [] else [("origin", strTree e.origin)])

/-- The message of an expiry. -/
def expiredMessage (deadlineMs finishedAt : ℕ) : String :=
  s!"task expired at {deadlineMs} (picked up at {finishedAt}, {finishedAt - deadlineMs}ms late) " ++
    "and was discarded without running"

theorem expiredMessage_ne_empty (deadlineMs finishedAt : ℕ) : expiredMessage deadlineMs finishedAt ≠ "" :=
  fun h => absurd (String.append_eq_empty_iff.1 h).2 (by simp)

/-- The text of a result document; the result of a success is text already. -/
def docText : ResultDoc → List Char
  | .success resultJson finishedAt =>
    objectText [("status", (strTree "success").chars), ("result", resultJson.toList),
      ("error", chars .null), ("finished_at", (wholeTree finishedAt).chars)]
  | .failure error finishedAt =>
    (fieldsText [("status", strTree "failure"), ("result", .null), ("error", errorTree error),
      ("finished_at", wholeTree finishedAt)]).chars
  | .duplicate finishedAt claimantId =>
    (fieldsText [("status", strTree "duplicate"), ("result", .null), ("error", .null),
      ("claimant_id", if claimantId = "" then .null else strTree claimantId),
      ("finished_at", wholeTree finishedAt)]).chars
  | .expired deadlineMs finishedAt =>
    (fieldsText [("status", strTree "expired"), ("result", .null),
      ("error", errorTree (ErrorJson.new "Expired" (expiredMessage deadlineMs finishedAt))),
      ("finished_at", wholeTree finishedAt)]).chars

/-- The bytes of a text. -/
def utf8 (text : List Char) : List UInt8 := (String.ofList text).toUTF8.data.toList

/-! ### Values and their encodings -/

mutual

/-- A value that Python can hold: a float is a double, and no key stands twice in a dict. -/
def Genuine : PyValue → Prop
  | .float (.finite q) => F64.ofRat q = .finite q
  | .list items => GenuineItems items
  | .dict entries => (entries.map Prod.fst).Nodup ∧ GenuineEntries entries
  | _ => True

/-- Of every item. -/
def GenuineItems : List PyValue → Prop
  | [] => True
  | v :: vs => Genuine v ∧ GenuineItems vs

/-- Of every entry. -/
def GenuineEntries : List (PyKey × PyValue) → Prop
  | [] => True
  | (_, v) :: es => Genuine v ∧ GenuineEntries es

end

/-- How the encoder prints doubles: with a fraction or an exponent, and so that they are read back. -/
def PrintsDoubles (floatToken : ℚ → JsonNumber) : Prop :=
  ∀ q, F64.ofRat q = .finite q → F64.ofRat (floatToken q).value = .finite q ∧
    ¬((floatToken q).frac = none ∧ (floatToken q).exp = none)

theorem numberValue_ofInt (n : ℤ) : numberValue (.ofInt n) = .int n := by
  unfold numberValue JsonNumber.ofInt
  rw [if_pos ⟨rfl, rfl⟩]
  congr 1
  simp only [decide_eq_true_eq]
  split_ifs <;> omega

theorem treeValue_arr (ts : List JsonText) : treeValue (.arr ts) = (ts.mapM treeValue).map .list := by
  rw [treeValue, fold, foldElems_eq_map, List.mapM_map]
  rfl

theorem treeValue_obj (ms : List (List StrPart × JsonText)) :
    treeValue (.obj ms) = (ms.mapM fun m => entryValue (m.1, treeValue m.2)).map .dict := by
  rw [treeValue, fold, foldMembers_eq_map, List.mapM_map]
  rfl

theorem treeValue_strTree (s : String) : treeValue (strTree s) = some (lit s) := by
  show (decodeParts (encodeStr s.toList)).map _ = _
  rw [decodeParts_encodeStr]
  rfl

theorem treeValue_wholeTree (n : ℕ) : treeValue (wholeTree n) = some (.int n) := by
  show some (numberValue (.ofInt n)) = _
  rw [numberValue_ofInt]

@[simp] theorem nesting_null : nesting .null = 0 := rfl

@[simp] theorem nesting_strTree (s : String) : (strTree s).nesting = 0 := rfl

@[simp] theorem nesting_wholeTree (n : ℕ) : (wholeTree n).nesting = 0 := rfl

/-- An object is decoded from its fields. -/
theorem treeValue_fieldsText {fs : List (String × JsonText)} {vs : List (String × PyValue)}
    (h : List.Forall₂ (fun f v => f.1 = v.1 ∧ treeValue f.2 = some v.2) fs vs) :
    treeValue (fieldsText fs) = some (fieldsDict vs) := by
  rw [fieldsText, treeValue_obj, List.mapM_map]
  induction h with
  | nil => rfl
  | @cons f v fs vs hfv _ ih =>
    obtain ⟨ws, hws, hdict⟩ := Option.map_eq_some_iff.1 ih
    have hentry : entryValue (encodeStr f.1.toList, treeValue f.2) =
        some (.str (PyStr.ofString v.1), v.2) := by
      rw [entryValue, decodeParts_encodeStr, hfv.1, hfv.2]
      rfl
    have hcons : ((f :: fs).mapM ((fun m => entryValue (m.1, treeValue m.2)) ∘
        fun f => (encodeStr f.1.toList, f.2))) = some ((.str (PyStr.ofString v.1), v.2) :: ws) := by
      rw [List.mapM_cons, Function.comp_apply, hentry, hws]
      rfl
    rw [hcons]
    simp only [fieldsDict, PyValue.dict.injEq] at hdict
    simp [fieldsDict, hdict]

section Encoding

variable {floatToken : ℚ → JsonNumber}

/-- **A value is decoded from its own encoding.** -/
theorem treeValue_toText (hfloat : PrintsDoubles floatToken) {v : PyValue} {t : JsonText}
    (hv : Genuine v) (htyped : jsonTyped v = true) (h : toText floatToken v = some t) :
    treeValue t = some v := by
  induction v using PyValue.induct generalizing t with
  | hnone => cases h; rfl
  | hbool b => cases h; rfl
  | hint n =>
    cases h
    show some (numberValue (.ofInt n)) = _
    rw [numberValue_ofInt]
  | hfloat x =>
    cases x with
    | finite q =>
      cases h
      obtain ⟨hread, hpoint⟩ := hfloat q hv
      show some (numberValue (floatToken q)) = _
      rw [numberValue, if_neg hpoint, hread]
    | inf neg => cases htyped
    | nan => cases htyped
  | hstr s =>
    obtain ⟨cs, hcs, rfl⟩ := Option.map_eq_some_iff.1 h
    show (decodeParts (encodeStr cs)).map _ = _
    rw [decodeParts_encodeStr, PyStr.eq_map_of_utf8 hcs]
    rfl
  | hlist l ih =>
    obtain ⟨ts, hts, rfl⟩ := Option.map_eq_some_iff.1 h
    rw [treeValue_arr]
    suffices hitems : ts.mapM treeValue = some l by rw [hitems]; rfl
    clear h
    induction l generalizing ts with
    | nil => cases hts; rfl
    | cons w l ihl =>
      obtain ⟨u, hu, hrest⟩ := Option.bind_eq_some_iff.1 hts
      obtain ⟨us, hus, rfl⟩ := Option.map_eq_some_iff.1 hrest
      obtain ⟨htyped₁, htyped₂⟩ := Bool.and_eq_true_iff.1 htyped
      have hhead := ih w List.mem_cons_self hv.1 htyped₁ hu
      have htail := ihl (fun v hmem => ih v (List.mem_cons_of_mem w hmem)) hv.2 htyped₂ us hus
      rw [List.mapM_cons, hhead, htail]
      rfl
  | hdict l ih =>
    obtain ⟨ms, hms, rfl⟩ := Option.map_eq_some_iff.1 h
    rw [treeValue_obj]
    obtain ⟨-, hv⟩ := hv
    suffices hentries : (ms.mapM fun m => entryValue (m.1, treeValue m.2)) = some l by rw [hentries]; rfl
    clear h
    induction l generalizing ms with
    | nil => cases hms; rfl
    | cons e l ihl =>
      obtain ⟨k, w⟩ := e
      cases k with
      | other t => cases hms
      | str k =>
        obtain ⟨cs, hcs, hrest⟩ := Option.bind_eq_some_iff.1 hms
        obtain ⟨u, hu, hrest⟩ := Option.bind_eq_some_iff.1 hrest
        obtain ⟨us, hus, rfl⟩ := Option.map_eq_some_iff.1 hrest
        obtain ⟨htyped₁, htyped₂⟩ := Bool.and_eq_true_iff.1 htyped
        have hhead := ih _ List.mem_cons_self hv.1 htyped₁ hu
        have htail := ihl (fun e hmem => ih e (List.mem_cons_of_mem _ hmem)) htyped₂ us hus hv.2
        have hentry : entryValue (encodeStr cs, treeValue u) = some (.str k, w) := by
          rw [entryValue, decodeParts_encodeStr, hhead, PyStr.eq_map_of_utf8 hcs]
          rfl
        rw [List.mapM_cons, hentry, htail]
        rfl
  | hother t => cases h

/-- A value has no deeper containers than its deepest node allows. -/
theorem pyNesting_le_pyHeight (v : PyValue) : pyNesting v ≤ pyHeight v + 1 := by
  induction v using PyValue.induct with
  | hlist l ih =>
    have hitems : 1 + nestingItems l ≤ heightItems l + 1 := by
      induction l with
      | nil => exact le_rfl
      | cons w l ihl =>
        have hw := ih w List.mem_cons_self
        have hl := ihl fun u hu => ih u (List.mem_cons_of_mem w hu)
        rw [heightItems, nestingItems]
        omega
    exact hitems
  | hdict l ih =>
    have hentries : 1 + nestingEntries l ≤ heightEntries l + 1 := by
      induction l with
      | nil => exact le_rfl
      | cons e l ihl =>
        have he := ih e List.mem_cons_self
        have hl := ihl fun u hu => ih u (List.mem_cons_of_mem e hu)
        rw [heightEntries, nestingEntries]
        omega
    exact hentries
  | _ => exact Nat.zero_le _

end Encoding

/-! ### What the worker takes for a result -/

section Lanes

variable (floatToken : ℚ → JsonNumber) (readF64 : JsonNumber → Option F64)
  (describe : EncodeError → String) (shimMessage : List Char → String)

/-- A task has returned a value, and the worker records a success with this text. -/
inductive Returned (v : PyValue) (text : String) : Prop
  | io (h : encodeResult floatToken describe v = .success text)
  /-- The child encodes a response, and the worker reads its line. -/
  | cpu (tracebackOf : EncodeError → String) (id : String) (line : List Char)
      (hline : serializeResponse floatToken describe tracebackOf id [("ok", .bool true), ("result", v)] =
        .ok line)
      (h : parsePyresp readF64 shimMessage line true = .success text)

variable {floatToken readF64 describe shimMessage} {v : PyValue} {text : String}

/-- The result of a response is taken as it is. -/
theorem parsePyresp_ok (id : String) (t : JsonText) :
    parsePyresp readF64 shimMessage
        (fieldsText [("id", strTree id), ("ok", .bool true), ("result", t)]).chars true =
      .success (String.ofList t.chars) := by
  have hnames : (([("id", strTree id), ("ok", .bool true), ("result", t)] :
      List (String × JsonText)).map Prod.fst).Nodup := by
    show ["id", "ok", "result"].Nodup
    decide
  have hresult : ∃ r, readOpt readRaw ⟨encodeStr "result".toList, t, t.chars⟩ = some r ∧
      r.getD "null" = String.ofList t.chars := by
    cases t with
    | null => exact ⟨none, rfl, rfl⟩
    | _ => exact ⟨_, rfl, rfl⟩
  obtain ⟨r, hread, hr⟩ := hresult
  have hresp : PyResp.fromFields readF64 ([("id", strTree id), ("ok", .bool true), ("result", t)].map
      fun f => fieldMember f.1 f.2.chars f.2) = some ⟨true, r, none, false, none, none⟩ := by
    rw [PyResp.fromFields]
    simp only [readField_chars hnames]
    show (readOpt readRaw ⟨encodeStr "result".toList, t, t.chars⟩).bind _ = _
    rw [hread]
    rfl
  rw [parsePyresp, textFields_chars, Option.bind_some, hresp]
  simp [hr]

/-- On both lanes the text is the encoding of a value that has passed the gate. -/
theorem Returned.exists_toText (h : Returned floatToken readF64 describe shimMessage v text) :
    jsonTyped v = true ∧ pyNesting v ≤ MAX_DEPTH + 1 ∧
      ∃ t, toText floatToken v = some t ∧ text = String.ofList t.chars := by
  cases h with
  | io h =>
    unfold encodeResult at h
    split at h
    · cases h
    · next hgate =>
      obtain ⟨htyped, hheight⟩ := (checkJson_eq_ok_iff v 0).1 hgate
      have hnesting := pyNesting_le_pyHeight v
      split at h
      · cases h
      · next t ht =>
        cases h
        exact ⟨htyped, by omega, t, ht, rfl⟩
  | cpu tracebackOf id line hline h =>
    unfold serializeResponse at hline
    split at hline
    · next u hu =>
      cases hline
      obtain ⟨hvalid, hu⟩ := encode_eq_ok hu
      obtain ⟨htyped, hnesting⟩ := (validate_successResponse_iff (PyStr.ofString id) v).1 hvalid
      cases ht : toText floatToken v with
      | none => simp [fieldsDict, toText, entriesText, PyStr.ofString, ht] at hu
      | some t =>
        have hfields : toText floatToken (fieldsDict [("id", .str (PyStr.ofString id)),
            ("ok", .bool true), ("result", v)]) =
            some (fieldsText [("id", strTree id), ("ok", .bool true), ("result", t)]) :=
          toText_fieldsDict (.cons ⟨rfl, toText_ofString id⟩ (.cons ⟨rfl, rfl⟩ (.cons ⟨rfl, ht⟩ .nil)))
        rw [hfields] at hu
        cases hu
        rw [parsePyresp_ok] at h
        cases h
        refine ⟨htyped, ?_, t, rfl, rfl⟩
        simp only [MAX_DEPTH, MAX_NESTING] at hnesting ⊢
        omega
    · next e he =>
      -- what could not be encoded was answered with an error
      have hfallback : encode floatToken (fieldsDict [("id", .str (PyStr.ofString id)),
          ("ok", .bool false), ("retryable", .bool false),
          ("error", errorDict (PyStr.ofString "SerializationError")
            (PyStr.ofString ("task result is not JSON serializable: " ++ describe e))
            (PyStr.ofString (tracebackOf e)) "worker")]) = _ :=
        encode_failure (PyStr.utf8_map_char _) (PyStr.utf8_map_char _) (PyStr.utf8_map_char _) id false
          "worker"
      rw [hfallback] at hline
      cases hline
      have hvariant := congrArg LaneOutcome.variant h
      rw [parsePyresp_failure] at hvariant
      simp [LaneOutcome.variant] at hvariant

end Lanes

/-! ### What the client reads -/

/-- What the client relies on in its decoder: the text of a tree becomes its value, as far as Python can
hold it, its integers can be read, and it is not nested too deep. -/
def DecodesTrees (decode : List UInt8 → Except PyStr PyValue) : Prop :=
  ∀ text t v, Spells text t → treeValue t = some v → Genuine v → renders v = true →
    t.nesting ≤ MAX_DEPTH + 2 → decode (utf8 text) = .ok v

section Reading

variable {py : Python} {self : AsyncResult}

/-- A document that is a dict is resolved at the first poll that finds it. -/
theorem get_of_decode {raw : List UInt8} {vs : List (String × PyValue)}
    (h : py.decode raw = .ok (fieldsDict vs)) (n : ℕ) (late : Bool)
    (polls : List (Option (List UInt8) × Bool)) :
    get py self (List.replicate n (none, false) ++ (some raw, late) :: polls) =
      some (resolve py self (fieldsDict vs)) := by
  rw [get_replicate]
  simp only [Result.get, decodeDoc, h, fieldsDict]

theorem renders_whole {n : ℕ} (hn : n < U64_LIMIT) : renders (.int n) = true := by
  have hlimit : U64_LIMIT ≤ 10 ^ PyText.MAX_STR_DIGITS := by
    calc U64_LIMIT ≤ 10 ^ 20 := by norm_num [U64_LIMIT]
      _ ≤ 10 ^ PyText.MAX_STR_DIGITS := Nat.pow_le_pow_right (by norm_num) (by norm_num [PyText.MAX_STR_DIGITS])
  simpa [renders] using hn.trans_le hlimit

/-- The fields of a failure. -/
def failureFields (e : ErrorJson) : List (String × PyValue) :=
  [("type", lit e.type_), ("message", lit e.message), ("traceback", lit e.traceback)] ++
    if e.origin = "" then [] else [("origin", lit e.origin)]

theorem treeValue_errorTree (e : ErrorJson) :
    treeValue (errorTree e) = some (fieldsDict (failureFields e)) := by
  refine treeValue_fieldsText ?_
  refine .cons ⟨rfl, treeValue_strTree _⟩ (.cons ⟨rfl, treeValue_strTree _⟩
    (.cons ⟨rfl, treeValue_strTree _⟩ ?_))
  split_ifs
  · exact .nil
  · exact .cons ⟨rfl, treeValue_strTree _⟩ .nil

theorem genuine_fieldsDict {vs : List (String × PyValue)} (hnames : (vs.map Prod.fst).Nodup)
    (h : ∀ v ∈ vs, Genuine v.2) : Genuine (fieldsDict vs) := by
  refine ⟨?_, ?_⟩
  · have hinj : Function.Injective fun k => PyKey.str (PyStr.ofString k) :=
      fun k k' hk => ofString_inj.1 (PyKey.str.inj hk)
    simpa [Function.comp_def] using hnames.map hinj
  · induction vs with
    | nil => trivial
    | cons v vs ih =>
      exact ⟨h v List.mem_cons_self,
        ih (List.nodup_cons.1 hnames).2 fun w hw => h w (List.mem_cons_of_mem v hw)⟩

theorem renders_fieldsDict {vs : List (String × PyValue)} (h : ∀ v ∈ vs, renders v.2 = true) :
    renders (fieldsDict vs) = true := by
  show rendersEntries (vs.map fun f => (.str (PyStr.ofString f.1), f.2)) = true
  induction vs with
  | nil => rfl
  | cons v vs ih =>
    rw [List.map_cons, rendersEntries, h v List.mem_cons_self,
      ih fun w hw => h w (List.mem_cons_of_mem v hw)]
    rfl

theorem nesting_fieldsText_le {fs : List (String × JsonText)} {d : ℕ} (h : ∀ f ∈ fs, f.2.nesting ≤ d) :
    (fieldsText fs).nesting ≤ d + 1 := by
  rw [fieldsText, nesting_obj]
  have hmax : ((fs.map fun f => (encodeStr f.1.toList, f.2)).map fun m => m.2.nesting).foldr max 0 ≤ d := by
    induction fs with
    | nil => exact Nat.zero_le _
    | cons f fs ih =>
      exact max_le (h f List.mem_cons_self) (ih fun g hg => h g (List.mem_cons_of_mem f hg))
  omega

/-- The errors of the worker are decoded as they are. -/
theorem plain_errorFields (e : ErrorJson) :
    Genuine (fieldsDict (failureFields e)) ∧ renders (fieldsDict (failureFields e)) = true ∧
      (errorTree e).nesting ≤ 1 := by
  refine ⟨genuine_fieldsDict ?_ ?_, renders_fieldsDict ?_, nesting_fieldsText_le ?_⟩
  · by_cases horigin : e.origin = "" <;> simp [failureFields, horigin]
  · by_cases horigin : e.origin = "" <;> simp [failureFields, horigin, Genuine, lit]
  · by_cases horigin : e.origin = "" <;> simp [failureFields, horigin, renders, lit]
  · by_cases horigin : e.origin = "" <;> simp [horigin]

@[simp] theorem docGet_fieldsDict (vs : List (String × PyValue)) (k : String) :
    docGet (fieldsDict vs) k = ((vs.find? fun v => v.1 = k).map Prod.snd).getD .none := by
  rw [docGet, getItem_fieldsDict]

@[simp] theorem errorGet_fieldsDict (vs : List (String × PyValue)) (k : String) :
    errorGet (fieldsDict vs) k = .ok (((vs.find? fun v => v.1 = k).map Prod.snd).getD .none) :=
  congrArg Except.ok (docGet_fieldsDict vs k)

@[simp] theorem isText_lit (s t : String) : isText (lit s) t = decide (s = t) := by
  rw [lit, isText_str]
  exact decide_eq_decide.2 ofString_inj

theorem orDefault_errorFields (e : ErrorJson) (dflt : PyValue) :
    orDefault (fieldsDict (failureFields e)) dflt = fieldsDict (failureFields e) :=
  rfl

theorem orDefault_lit {s : String} (hs : s ≠ "") (dflt : PyValue) : orDefault (lit s) dflt = lit s := by
  have hne : PyStr.ofString s ≠ [] := fun h => hs (ofString_inj.1 h)
  rw [lit]
  cases hchars : PyStr.ofString s with
  | nil => exact absurd hchars hne
  | cons c cs => rfl

/-- The exception of a stored failure. -/
theorem failureExc_errorFields (e : ErrorJson) :
    failureExc (fieldsDict (failureFields e)) = .ok (.taskFailed ⟨lit e.type_, lit e.message,
      lit e.traceback, if e.origin = "" then .none else lit e.origin⟩) := by
  by_cases horigin : e.origin = "" <;>
    simp [failureExc, failureFields, horigin, bind, Except.bind, pure, Except.pure]

/-- The exception of a stored expiry. -/
theorem expiredExc_errorFields {e : ErrorJson} (htype : e.type_ ≠ "") (hmessage : e.message ≠ "") :
    expiredExc (fieldsDict (failureFields e)) = .ok (.taskFailed ⟨lit e.type_, lit e.message, .none,
      if e.origin = "" then .none else lit e.origin⟩) := by
  by_cases horigin : e.origin = "" <;>
    simp [expiredExc, failureFields, horigin, orDefault_lit htype, orDefault_lit hmessage, bind, Except.bind,
      pure, Except.pure]

/-- A document is read from its fields. -/
theorem get_of_fields (hpy : DecodesTrees py.decode) {text : List Char} {fs : List (String × JsonText)}
    (vs : List (String × PyValue)) (hspells : Spells text (fieldsText fs))
    (hvalues : List.Forall₂ (fun f v => f.1 = v.1 ∧ treeValue f.2 = some v.2) fs vs)
    (hnames : (vs.map Prod.fst).Nodup) (hgenuine : ∀ v ∈ vs, Genuine v.2)
    (hrenders : ∀ v ∈ vs, renders v.2 = true) (hnesting : ∀ f ∈ fs, f.2.nesting ≤ MAX_DEPTH + 1) (n : ℕ)
    (late : Bool) (polls : List (Option (List UInt8) × Bool)) :
    get py self (List.replicate n (none, false) ++ (some (utf8 text), late) :: polls) =
      some (resolve py self (fieldsDict vs)) := by
  refine get_of_decode ?_ n late polls
  exact hpy text _ _ hspells (treeValue_fieldsText hvalues) (genuine_fieldsDict hnames hgenuine)
    (renders_fieldsDict hrenders) (nesting_fieldsText_le hnesting)

variable {finishedAt : ℕ} (hpy : DecodesTrees py.decode) (hfinished : finishedAt < U64_LIMIT) (n : ℕ)
  (late : Bool) (polls : List (Option (List UInt8) × Bool))

include hpy hfinished

/-- A success is read as the value that was encoded. -/
theorem get_success {v : PyValue} {t : JsonText} (ht : treeValue t = some v) (hv : Genuine v)
    (hrenders : renders v = true) (hnesting : t.nesting ≤ MAX_DEPTH + 1) :
    get py self (List.replicate n (none, false) ++
      (some (utf8 (docText (.success (String.ofList t.chars) finishedAt))), late) :: polls) =
        some (.ok v, self) := by
  have hspells : Spells (docText (.success (String.ofList t.chars) finishedAt))
      (fieldsText [("status", strTree "success"), ("result", t), ("error", .null),
        ("finished_at", wholeTree finishedAt)]) := by
    have hfields : ∀ f ∈ [compact "status" (strTree "success"), compact "result" t,
        compact "error" .null, compact "finished_at" (wholeTree finishedAt)], Spells f.2.1 f.2.2 := by
      simp only [List.mem_cons, List.not_mem_nil, or_false, forall_eq_or_imp, forall_eq]
      exact ⟨spells_chars _, spells_chars _, spells_chars _, spells_chars _⟩
    simpa [docText, compact] using spells_objectText hfields
  rw [get_of_fields hpy [("status", lit "success"), ("result", v), ("error", .none),
    ("finished_at", .int finishedAt)] hspells ?_ ?_ ?_ ?_ ?_]
  · simp [resolve]
  · exact .cons ⟨rfl, treeValue_strTree _⟩ (.cons ⟨rfl, ht⟩ (.cons ⟨rfl, rfl⟩
      (.cons ⟨rfl, treeValue_wholeTree _⟩ .nil)))
  · show ["status", "result", "error", "finished_at"].Nodup
    decide
  · simp [hv, Genuine, lit]
  · simpa [hrenders, renders, lit] using renders_whole hfinished
  · simpa using hnesting

/-- A failure is read as the error that was stored. -/
theorem get_failure (e : ErrorJson) :
    get py self (List.replicate n (none, false) ++
      (some (utf8 (docText (.failure e finishedAt))), late) :: polls) =
        some (.error (.taskFailed ⟨lit e.type_, lit e.message, lit e.traceback,
          if e.origin = "" then .none else lit e.origin⟩), self) := by
  obtain ⟨hgenuine, hrenders, hnesting⟩ := plain_errorFields e
  rw [docText, get_of_fields hpy [("status", lit "failure"), ("result", .none),
    ("error", fieldsDict (failureFields e)), ("finished_at", .int finishedAt)] (spells_chars _)
    ?_ ?_ ?_ ?_ ?_]
  · simp [resolve, orDefault_errorFields, failureExc_errorFields, raised]
  · exact .cons ⟨rfl, treeValue_strTree _⟩ (.cons ⟨rfl, rfl⟩ (.cons ⟨rfl, treeValue_errorTree e⟩
      (.cons ⟨rfl, treeValue_wholeTree _⟩ .nil)))
  · show ["status", "result", "error", "finished_at"].Nodup
    decide
  · simp [hgenuine, Genuine, lit]
  · simpa [hrenders, renders, lit] using renders_whole hfinished
  · have herror := hnesting.trans (show 1 ≤ MAX_DEPTH + 1 by decide)
    simp [herror]

/-- A duplicate is read as nothing, and the handle knows the task that ran instead. -/
theorem get_duplicate (claimantId : String) :
    get py self (List.replicate n (none, false) ++
      (some (utf8 (docText (.duplicate finishedAt claimantId))), late) :: polls) =
        some (.ok .none, { self with
          duplicate := true
          claimantId := if claimantId = "" then none else some (PyStr.ofString claimantId) }) := by
  have hclaimant : treeValue (if claimantId = "" then .null else strTree claimantId) =
      some (if claimantId = "" then .none else lit claimantId) := by
    split_ifs
    · rfl
    · exact treeValue_strTree _
  rw [docText, get_of_fields hpy [("status", lit "duplicate"), ("result", .none), ("error", .none),
    ("claimant_id", if claimantId = "" then .none else lit claimantId),
    ("finished_at", .int finishedAt)] (spells_chars _) ?_ ?_ ?_ ?_ ?_]
  · by_cases hid : claimantId = ""
    · simp [resolve, claimantText, hid]
    · have hclaimed : claimantText py (lit claimantId) = .ok (some (PyStr.ofString claimantId)) := rfl
      simp [resolve, hclaimed, hid]
  · exact .cons ⟨rfl, treeValue_strTree _⟩ (.cons ⟨rfl, rfl⟩ (.cons ⟨rfl, rfl⟩ (.cons ⟨rfl, hclaimant⟩
      (.cons ⟨rfl, treeValue_wholeTree _⟩ .nil))))
  · show ["status", "result", "error", "claimant_id", "finished_at"].Nodup
    decide
  · by_cases hid : claimantId = "" <;> simp [hid, Genuine, lit]
  · have hwhole := renders_whole hfinished
    by_cases hid : claimantId = "" <;> simpa [hid, renders, lit] using hwhole
  · by_cases hid : claimantId = "" <;> simp [hid]

/-- An expiry is read as an error, and the handle knows. -/
theorem get_expired (deadlineMs : ℕ) :
    get py self (List.replicate n (none, false) ++
      (some (utf8 (docText (.expired deadlineMs finishedAt))), late) :: polls) =
        some (.error (.taskFailed ⟨lit "Expired", lit (expiredMessage deadlineMs finishedAt), .none,
          lit "worker"⟩), { self with expired := true }) := by
  obtain ⟨hgenuine, hrenders, hnesting⟩ :=
    plain_errorFields (ErrorJson.new "Expired" (expiredMessage deadlineMs finishedAt))
  rw [docText, get_of_fields hpy [("status", lit "expired"), ("result", .none),
    ("error", fieldsDict (failureFields (ErrorJson.new "Expired" (expiredMessage deadlineMs finishedAt)))),
    ("finished_at", .int finishedAt)] (spells_chars _) ?_ ?_ ?_ ?_ ?_]
  · have hexc : expiredExc (fieldsDict (failureFields (ErrorJson.new "Expired"
        (expiredMessage deadlineMs finishedAt)))) = .ok (.taskFailed ⟨lit "Expired",
          lit (expiredMessage deadlineMs finishedAt), .none, lit "worker"⟩) :=
      expiredExc_errorFields (by simp [ErrorJson.new]) (expiredMessage_ne_empty deadlineMs finishedAt)
    simp [resolve, orDefault_errorFields, hexc, raised]
  · exact .cons ⟨rfl, treeValue_strTree _⟩ (.cons ⟨rfl, rfl⟩ (.cons ⟨rfl, treeValue_errorTree _⟩
      (.cons ⟨rfl, treeValue_wholeTree _⟩ .nil)))
  · show ["status", "result", "error", "finished_at"].Nodup
    decide
  · simp [hgenuine, Genuine, lit]
  · simpa [hrenders, renders, lit] using renders_whole hfinished
  · have herror := hnesting.trans (show 1 ≤ MAX_DEPTH + 1 by decide)
    simp [herror]

end Reading

/-- **Results arrive.** After any number of polls without a document, the client gets from the document that
the worker stores
* of a task that returned: the value it returned, on every lane;
* of one that failed for good: the error, field by field;
* of one that was suppressed: nothing, and who ran instead;
* of one that expired: the error of the expiry. -/
theorem results_arrive (py : Python) (hpy : DecodesTrees py.decode) {floatToken : ℚ → JsonNumber}
    (hfloat : PrintsDoubles floatToken) (readF64 : JsonNumber → Option F64)
    (describe : EncodeError → String) (shimMessage : List Char → String) (self : AsyncResult)
    {finishedAt : ℕ} (hfinished : finishedAt < U64_LIMIT) (n : ℕ) (late : Bool)
    (polls : List (Option (List UInt8) × Bool)) :
    let read (doc : ResultDoc) :=
      get py self (List.replicate n (none, false) ++ (some (utf8 (docText doc)), late) :: polls)
    (∀ v text, Genuine v → renders v = true → Returned floatToken readF64 describe shimMessage v text →
      read (.success text finishedAt) = some (.ok v, self)) ∧
    (∀ e, read (.failure e finishedAt) = some (.error (.taskFailed ⟨lit e.type_, lit e.message,
      lit e.traceback, if e.origin = "" then .none else lit e.origin⟩), self)) ∧
    (∀ claimantId, read (.duplicate finishedAt claimantId) = some (.ok .none, { self with
      duplicate := true
      claimantId := if claimantId = "" then none else some (PyStr.ofString claimantId) })) ∧
    ∀ deadlineMs, read (.expired deadlineMs finishedAt) = some (.error (.taskFailed ⟨lit "Expired",
      lit (expiredMessage deadlineMs finishedAt), .none, lit "worker"⟩), { self with expired := true }) := by
  intro read
  refine ⟨fun v text hv hrenders hreturned => ?_, fun e => get_failure hpy hfinished n late polls e,
    fun claimantId => get_duplicate hpy hfinished n late polls claimantId,
    fun deadlineMs => get_expired hpy hfinished n late polls deadlineMs⟩
  obtain ⟨htyped, hnesting, t, ht, rfl⟩ := hreturned.exists_toText
  have hdeep : t.nesting ≤ MAX_DEPTH + 1 := by rwa [nesting_toText ht]
  exact get_success hpy hfinished n late polls (treeValue_toText hfloat hv htyped ht) hv hrenders hdeep

/-- A decoder of trees. -/
def decodeTree (raw : List UInt8) : Except PyStr PyValue :=
  match (ByteArray.mk raw.toArray).utf8Decode? with
  | none => .error (PyStr.ofString "invalid utf-8")
  | some text =>
    match (parseValue text.size text.toList).bind fun r => treeValue r.1 with
    | some v => .ok v
    | none => .error (PyStr.ofString "JSON is malformed")

theorem decodesTrees_decodeTree : DecodesTrees decodeTree := by
  intro text t v hspells hv _ _ _
  have hbytes : (ByteArray.mk (utf8 text).toArray).utf8Decode? = some text.toArray := by
    have harray : ByteArray.mk (utf8 text).toArray = text.utf8Encode := by
      rw [utf8, Array.toArray_toList]
      rfl
    rw [harray, List.utf8Decode?_utf8Encode]
  have hparse : parseValue text.length (text ++ []) = some (t, []) :=
    parseValue_of_spells hspells le_rfl (by simp [Follows])
  rw [List.append_nil] at hparse
  simp [decodeTree, hbytes, hparse, hv]

/-- A multiple of a power of two has a decimal expansion. -/
theorem mul_ten_pow {q : ℚ} {k e : ℤ} {n d : ℕ} (hq : q = k * 2 ^ e) (hd : e + n = d) :
    q * 10 ^ n = ((k * 2 ^ d * 5 ^ n : ℤ) : ℚ) := by
  have hten : (10 : ℚ) ^ n = 2 ^ (n : ℤ) * 5 ^ n := by
    rw [zpow_natCast, ← mul_pow]
    norm_num
  calc q * 10 ^ n = k * (2 ^ e * 2 ^ (n : ℤ)) * 5 ^ n := by rw [hq, hten]; ring
    _ = k * 2 ^ d * 5 ^ n := by rw [← zpow_add₀ (by norm_num), hd, zpow_natCast]
    _ = _ := by push_cast; rfl

/-- An exact token: every double is a multiple of `10 ^ -1074`. -/
def exactToken (q : ℚ) : JsonNumber :=
  ⟨decide ((q * 10 ^ 1074).num < 0), (q * 10 ^ 1074).num.natAbs, none,
    some ⟨false, some true, ⟨"1074".toList.map digitOf, by decide⟩⟩⟩

theorem value_exactToken {q : ℚ} (hq : F64.ofRat q = .finite q) : (exactToken q).value = q := by
  obtain ⟨k, hk⟩ := F64.nearest_eq_self_iff.1 (F64.ofRat_eq_finite_iff.1 hq).1
  have hquantum : -1074 ≤ F64.quantum q := le_max_right _ _
  obtain ⟨d, hd⟩ := Int.eq_ofNat_of_zero_le (show 0 ≤ F64.quantum q + (1074 : ℕ) by omega)
  have hnum : ((q * 10 ^ 1074).num : ℚ) = q * 10 ^ 1074 := by
    rw [mul_ten_pow hk hd, Rat.num_intCast]
  have hvalue : (exactToken q).value = (JsonNumber.ofInt (q * 10 ^ 1074).num).value * 10 ^ (-1074 : ℤ) := by
    have hexp : JsonNumber.expValue (some ⟨false, some true, ⟨"1074".toList.map digitOf, by decide⟩⟩) =
        -1074 := rfl
    simp only [JsonNumber.value, exactToken, hexp, JsonNumber.ofInt]
    simp [JsonNumber.expValue]
  have hpow : (10 : ℚ) ^ 1074 * 10 ^ (-1074 : ℤ) = 1 := by
    rw [← zpow_natCast, ← zpow_add₀ (by norm_num)]
    rfl
  rw [hvalue, JsonNumber.value_ofInt, hnum, mul_assoc, hpow, mul_one]

/-- Tokens for doubles, with a short one for the double that is printed below. -/
def doubleToken (q : ℚ) : JsonNumber :=
  if q = 5 / 2 then ⟨false, 2, some ⟨[digitOf '5'], by decide⟩, none⟩ else exactToken q

theorem printsDoubles_doubleToken : PrintsDoubles doubleToken := by
  intro q hq
  unfold doubleToken
  split_ifs with hhalf
  · refine ⟨?_, by simp⟩
    have hvalue : JsonNumber.value ⟨false, 2, some ⟨[digitOf '5'], by decide⟩, none⟩ = q := by
      have hdigits : JsonNumber.digitsValue [digitOf '5'] = 5 := rfl
      rw [hhalf]
      norm_num [JsonNumber.value, hdigits, JsonNumber.expValue]
    rw [hvalue, hq]
  · exact ⟨by rw [value_exactToken hq, hq], by simp [exactToken]⟩

/-- A result with an integer, a double and a text. -/
def sampleResult : PyValue :=
  fieldsDict [("n", .int 7), ("mean", .float (.finite (5 / 2))), ("names", .list [lit "a", lit "\"ß\""])]

theorem results_arrive_sample :
    let py : Python := ⟨decodeTree, fun _ => [], fun _ => []⟩
    let text := "\x7b\"n\":7,\"mean\":2.5,\"names\":[\"a\",\"\\\"ß\\\"\"]\x7d"
    encodeResult doubleToken (fun _ => "") sampleResult = .success text ∧
      get py ⟨[], false, false, none⟩ [(none, false), (some (utf8 (docText (.success text 3))), false)] =
        some (.ok sampleResult, ⟨[], false, false, none⟩) := by
  intro py text
  have hencoded : encodeResult doubleToken (fun _ => "") sampleResult = .success text := by
    have hprinted : (toText doubleToken sampleResult).map JsonText.chars = some text.toList := by
      decide +kernel
    have hchecked : checkJson 0 sampleResult = .ok () :=
      (checkJson_eq_ok_iff _ _).2 (by decide +kernel)
    obtain ⟨t, ht, hchars⟩ := Option.map_eq_some_iff.1 hprinted
    simp [encodeResult, hchecked, ht, hchars, text]
  have hdouble : F64.ofRat (5 / 2) = .finite (5 / 2) := by decide +kernel
  obtain ⟨hsuccess, -⟩ := results_arrive py decodesTrees_decodeTree printsDoubles_doubleToken
    (fun _ => none) (fun _ => "") (fun _ => "") ⟨[], false, false, none⟩ (show 3 < U64_LIMIT by decide) 1
    false []
  refine ⟨hencoded, hsuccess sampleResult text ?_ (by decide +kernel) (.io hencoded)⟩
  refine genuine_fieldsDict (by decide) ?_
  simp [Genuine, GenuineItems, hdouble, lit]

end Cauli.Documents
