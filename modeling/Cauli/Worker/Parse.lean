import Cauli.Lib.Binary64
import Cauli.Lib.JsonText
import Cauli.Worker.Envelope

/-!
# Parsing an envelope (`worker/src/envelope.rs`)

`serde_json::from_str::<Envelope>` on the text of the stream field `e`. An absent field takes its
default, a second occurrence of a field is an error, an unknown field goes to `extra`.

* `valueToU64`: an integer in range, or a number whose double is whole and in range;
* `readU64`, `readU32`, `readOptU64`, `readTimeoutMs` and so on: one reader for each kind of field;
* `readField`: a field by its name;
* `Envelope.fromText`: the whole parse;
* `valueToU64_ofInt`: an integer token is accepted exactly in the range of a `u64`;
* `textFields_objectText`: the text of an object is read from its fields;
* `Envelope.fromFields_eq_some_iff`: the fields of a parsed envelope are what their readers give.

How the JSON library turns a number token into the double of an `f64` field is the parameter
`readF64`; it is `none` for a number out of range.
-/

namespace Cauli

open JsonToken JsonText

/-- The limit of `u64`. -/
def U64_LIMIT : ℕ := 2 ^ 64

/-- A double that is a whole number in range; `u64::MAX as f64` is `2 ^ 64`. -/
def wholeU64 : F64 → Option ℕ
  | .finite q => if q.den = 1 ∧ 0 ≤ q ∧ q < U64_LIMIT then some q.num.toNat else none
  | _ => none

/-- The tokens that `str::parse::<u64>` accepts. -/
def JsonNumber.asU64 (n : JsonNumber) : Option ℕ :=
  if n.neg = false ∧ n.frac = none ∧ n.exp = none ∧ n.int < U64_LIMIT then some n.int else none

/-- Integers as is, floats only when an exact whole number in range. -/
def valueToU64 : JsonText → Option ℕ
  | .num n => (JsonNumber.asU64 n).or (wholeU64 (F64.ofRat n.value))
  | _ => none

/-- A `u64` field. -/
def readU64 (m : Member) : Option ℕ := valueToU64 m.value

/-- A `u32` field. -/
def readU32 (m : Member) : Option ℕ := (valueToU64 m.value).filter (· < 2 ^ 32)

/-- The reader of an optional field: `null` is absent. -/
def readOpt {α : Type} (read : Member → Option α) (m : Member) : Option (Option α) :=
  match m.value with
  | .null => some none
  | _ => (read m).map some

/-- `timeout_ms`, clamped. -/
def readTimeoutMs (m : Member) : Option ℕ := (readU64 m).map (min MAX_TIMEOUT_MS)

/-- A string field; half a surrogate pair is an error. -/
def readString (m : Member) : Option String :=
  match m.value with
  | .str ps => (decodeParts ps).map String.ofList
  | _ => none

/-- A boolean field. -/
def readBool (m : Member) : Option Bool :=
  match m.value with
  | .bool b => some b
  | _ => none

/-- An `f64` field. -/
def readDouble (readF64 : JsonNumber → Option F64) (m : Member) : Option F64 :=
  match m.value with
  | .num n => readF64 n
  | _ => none

/-- A raw capture. -/
def readRaw (m : Member) : Option String := some (String.ofList m.raw)

/-- A field by its name: `dflt` when it is absent (`none` for a required field), an error when it
occurs twice. -/
def readField {α : Type} (fs : List (String × Member)) (name : String) (read : Member → Option α)
    (dflt : Option α) : Option α :=
  match fs.filter fun f => f.1 = name with
  | [] => dflt
  | [f] => read f.2
  | _ => none

/-- The names of the fields. -/
def FIELD_NAMES : List String :=
  ["v", "id", "task", "args", "kwargs", "queue", "kind", "retries", "max_retries",
    "backoff_base_ms", "backoff_factor", "backoff_max_ms", "jitter", "timeout_ms",
    "soft_timeout_ms", "idempotency_key", "store_result", "enqueued_at", "not_before", "expires_at"]

/-- A member of an object; a second one of the same name takes the place of the first. -/
def setMember (k : String) (v : Json) : List (String × Json) → List (String × Json)
  | [] => [(k, v)]
  | e :: es => if e.1 = k then (k, v) :: es else e :: setMember k v es

/-- The value of a tree whose strings denote strings. -/
def toJson : JsonText → Json :=
  let str (ps : List StrPart) : String := String.ofList ((decodeParts ps).getD [])
  fold .null .bool .num (fun ps => .str (str ps)) .arr
    (fun ms => .obj (ms.foldl (fun es m => setMember (str m.1) m.2 es) []))

/-- An entry of the sorted map `extra`. -/
def insertExtra (k : String) (v : Json) : List (String × Json) → List (String × Json)
  | [] => [(k, v)]
  | e :: es =>
    if e.1 = k then (k, v) :: es else if k < e.1 then (k, v) :: e :: es else e :: insertExtra k v es

/-- The unknown fields, each parsed as a tree below the 127 levels. -/
def readExtra (fs : List (String × Member)) : Option (List (String × Json)) :=
  let unknown := fs.filter fun f => f.1 ∉ FIELD_NAMES
  if unknown.all fun f => f.2.value.decodable && decide (f.2.value.nesting ≤ 126) then
    some (unknown.foldl (fun es f => insertExtra f.1 (toJson f.2.value) es) [])
  else none

/-- An envelope from its fields. -/
def Envelope.fromFields (readF64 : JsonNumber → Option F64) (fs : List (String × Member)) :
    Option Envelope := do
  let v ← readField fs "v" readU32 (some 1)
  let id ← readField fs "id" readString none
  let task ← readField fs "task" readString none
  let args ← readField fs "args" (readOpt readRaw) (some none)
  let kwargs ← readField fs "kwargs" (readOpt readRaw) (some none)
  let queue ← readField fs "queue" readString (some "default")
  let kind ← readField fs "kind" readString (some "io")
  let retries ← readField fs "retries" readU32 (some 0)
  let maxRetries ← readField fs "max_retries" readU32 (some 3)
  let backoffBaseMs ← readField fs "backoff_base_ms" readU64 (some 500)
  let backoffFactor ← readField fs "backoff_factor" (readDouble readF64) (some (.finite 2))
  let backoffMaxMs ← readField fs "backoff_max_ms" readU64 (some 60_000)
  let jitter ← readField fs "jitter" readBool (some true)
  let timeoutMs ← readField fs "timeout_ms" readTimeoutMs (some 300_000)
  let softTimeoutMs ← readField fs "soft_timeout_ms" (readOpt readU64) (some none)
  let idempotencyKey ← readField fs "idempotency_key" (readOpt readString) (some none)
  let storeResult ← readField fs "store_result" readBool (some true)
  let enqueuedAt ← readField fs "enqueued_at" readU64 (some 0)
  let notBefore ← readField fs "not_before" (readOpt (readDouble readF64)) (some none)
  let expiresAt ← readField fs "expires_at" (readOpt readU64) (some none)
  let extra ← readExtra fs
  return { v, id, task, args, kwargs, queue, kind, retries, maxRetries, backoffBaseMs, backoffFactor,
           backoffMaxMs, jitter, timeoutMs, softTimeoutMs, idempotencyKey, storeResult, enqueuedAt,
           notBefore, expiresAt, extra }

/-- A member under the string its key denotes. -/
def named (m : Member) : Option (String × Member) :=
  (decodeParts m.key).map fun k => (String.ofList k, m)

/-- The fields of the object a text spells. -/
def textFields (text : List Char) : Option (List (String × Member)) := do
  let ms ← parseObject text
  ms.mapM named

/-- `serde_json::from_str::<Envelope>`. -/
def Envelope.fromText (readF64 : JsonNumber → Option F64) (text : List Char) : Option Envelope := do
  let fs ← textFields text
  Envelope.fromFields readF64 fs

/-! ### What the readers accept -/

/-- What a number is taken for: its nearest double, if that is a whole number in range. -/
theorem wholeU64_ofRat_eq_some_iff {q : ℚ} {k : ℕ} :
    wholeU64 (F64.ofRat q) = some k ↔ F64.nearest q = k ∧ k < U64_LIMIT := by
  constructor
  · intro h
    cases hr : F64.ofRat q with
    | inf _ | nan => simp [hr, wholeU64] at h
    | finite r =>
      rw [hr, wholeU64] at h
      split_ifs at h with hwhole
      obtain ⟨hden, hnonneg, hlt⟩ := hwhole
      have hnum : (r.num : ℚ) = r := Rat.coe_int_num_of_den_eq_one hden
      have hnum0 : 0 ≤ r.num := Rat.num_nonneg.2 hnonneg
      have hk : r = k := by
        rw [← hnum, ← Option.some.inj h]
        exact_mod_cast (Int.toNat_of_nonneg hnum0).symm
      rw [(F64.ofRat_eq_finite_iff.1 hr).1]
      rw [hk] at hlt
      exact ⟨hk, by exact_mod_cast hlt⟩
  · rintro ⟨hk, hlt⟩
    have hbig : |(k : ℚ)| < 2 ^ 1024 := by
      have hle : (k : ℚ) < 2 ^ 64 := by exact_mod_cast hlt
      have hpow : (2 : ℚ) ^ 64 < 2 ^ 1024 := pow_lt_pow_right₀ (by norm_num) (by norm_num)
      rw [Nat.abs_cast]
      exact lt_trans hle hpow
    have hwhole : ((k : ℚ).den = 1 ∧ 0 ≤ (k : ℚ) ∧ (k : ℚ) < U64_LIMIT) :=
      ⟨rfl, Nat.cast_nonneg k, by exact_mod_cast hlt⟩
    rw [F64.ofRat_eq_finite_iff.2 ⟨hk, hbig⟩, wholeU64, if_pos hwhole]
    simp

theorem wholeU64_ofRat_eq_none {i : ℤ} (h : i < 0 ∨ (U64_LIMIT : ℤ) ≤ i) :
    wholeU64 (F64.ofRat i) = none := by
  rw [Option.eq_none_iff_forall_ne_some]
  intro k hk
  obtain ⟨hnearest, hlt⟩ := wholeU64_ofRat_eq_some_iff.1 hk
  rcases h with hneg | hbig
  · have hle : (i : ℚ) ≤ -1 := by exact_mod_cast Int.le_sub_one_of_lt hneg
    have hnonneg : 0 ≤ F64.nearest i := hnearest ▸ Nat.cast_nonneg k
    rw [F64.nearest_nonneg_iff] at hnonneg
    have hsmall : (2 : ℚ) ^ (-1075 : ℤ) < 1 := zpow_lt_one_of_neg₀ (by norm_num) (by norm_num)
    linarith
  · have hlimit : (2 : ℚ) ^ (64 : ℤ) = ((U64_LIMIT : ℤ) : ℚ) := by norm_num [U64_LIMIT]
    have hle : (2 : ℚ) ^ (64 : ℤ) ≤ F64.nearest i := by
      refine F64.zpow_le_nearest (by norm_num) ?_
      rw [hlimit]
      exact_mod_cast hbig
    rw [hlimit, hnearest] at hle
    exact absurd hlt (not_lt.2 (by exact_mod_cast hle))

/-- **An integer is accepted exactly in range.** -/
theorem valueToU64_ofInt (i : ℤ) :
    valueToU64 (.num (.ofInt i)) = if 0 ≤ i ∧ i < U64_LIMIT then some i.toNat else none := by
  have hasU64 : JsonNumber.asU64 (.ofInt i) =
      if 0 ≤ i ∧ i < U64_LIMIT then some i.toNat else none := by
    unfold JsonNumber.asU64 JsonNumber.ofInt
    by_cases hi : 0 ≤ i
    · have hnat : i.natAbs = i.toNat := by omega
      have hlt : i.toNat < U64_LIMIT ↔ i < U64_LIMIT := by omega
      simp [hi, hnat, hlt, not_lt.2 hi]
    · simp [hi, not_le.1 hi]
  rw [valueToU64, hasU64, JsonNumber.value_ofInt]
  split_ifs with h
  · rfl
  · rw [Option.none_or]
    exact wholeU64_ofRat_eq_none (by omega)

theorem filter_name_of_mem {fs : List (String × Member)} (hfs : (fs.map Prod.fst).Nodup)
    {name : String} {m : Member} (hm : (name, m) ∈ fs) :
    fs.filter (fun f => f.1 = name) = [(name, m)] := by
  induction fs with
  | nil => cases hm
  | cons f fs ih =>
    rw [List.map_cons, List.nodup_cons] at hfs
    rcases List.mem_cons.1 hm with rfl | hm'
    · have hrest : fs.filter (fun f => f.1 = name) = [] := by
        rw [List.filter_eq_nil_iff]
        intro g hg
        simp only [decide_eq_true_eq]
        intro hname
        exact hfs.1 (List.mem_map.2 ⟨g, hg, hname⟩)
      simp [hrest]
    · have hne : f.1 ≠ name := by
        rintro rfl
        exact hfs.1 (List.mem_map.2 ⟨_, hm', rfl⟩)
      rw [List.filter_cons_of_neg (by simpa using hne)]
      exact ih hfs.2 hm'

/-- **A field that occurs once is read.** -/
theorem readField_of_mem {α : Type} {fs : List (String × Member)} (hfs : (fs.map Prod.fst).Nodup)
    {name : String} {m : Member} (hm : (name, m) ∈ fs) (read : Member → Option α)
    (dflt : Option α) : readField fs name read dflt = read m := by
  rw [readField, filter_name_of_mem hfs hm]

/-- The text of an object, from the names of its members and the texts of their values. -/
def objectText (fs : List (String × List Char)) : List Char :=
  '\x7b' :: seqChars '\x7d' [] (fs.map fun f => memberChars (encodeStr f.1.toList) f.2)

/-- A field as the reader finds it. -/
def fieldMember (name : String) (text : List Char) (tree : JsonText) : String × Member :=
  (name, ⟨encodeStr name.toList, tree, text⟩)

/-- A field of an object with distinct names is looked up. -/
theorem readField_chars {α : Type} {fs : List (String × JsonText)} (hfs : (fs.map Prod.fst).Nodup)
    (name : String) (read : Member → Option α) (dflt : Option α) :
    readField (fs.map fun f => fieldMember f.1 f.2.chars f.2) name read dflt =
      (fs.lookup name).elim dflt fun t => read ⟨encodeStr name.toList, t, t.chars⟩ := by
  have hnames : ((fs.map fun f => fieldMember f.1 f.2.chars f.2).map Prod.fst).Nodup := by
    rw [List.map_map]
    exact hfs
  cases hlookup : fs.lookup name with
  | some t =>
    have hmem : (name, t) ∈ fs := by
      obtain ⟨l, l', rfl, -⟩ := List.lookup_eq_some_iff.1 hlookup
      simp
    exact readField_of_mem hnames (List.mem_map.2 ⟨(name, t), hmem, rfl⟩) read dflt
  | none =>
    have hnone : (fs.map fun f => fieldMember f.1 f.2.chars f.2).filter (fun f => f.1 = name) = [] := by
      rw [List.filter_eq_nil_iff]
      intro f hf
      obtain ⟨g, hg, rfl⟩ := List.mem_map.1 hf
      have hne := List.lookup_eq_none_iff.1 hlookup g hg
      rw [bne_iff_ne] at hne
      simp only [decide_eq_true_eq]
      exact fun heq => hne heq.symm
    rw [readField, hnone]
    rfl

/-- **The text of an object is read from its fields**, each with its own text. -/
theorem textFields_objectText {fs : List (String × List Char × JsonText)}
    (h : ∀ f ∈ fs, Spells f.2.1 f.2.2 ∧ skipWs f.2.1 = f.2.1) :
    textFields (objectText (fs.map fun f => (f.1, f.2.1))) =
      some (fs.map fun f => fieldMember f.1 f.2.1 f.2.2) := by
  have hnil : IsWs [] := by simp [IsWs]
  have hparse := parseObject_items hnil
    (fs.map fun f => (⟨[], encodeStr f.1.toList, [], f.2.1, f.2.2⟩, []))
    (List.forall_mem_map.2 fun f _ => hnil) (List.forall_mem_map.2 fun f _ => ⟨hnil, hnil⟩)
    (List.forall_mem_map.2 fun f hf => (h f hf).1)
  have htext : objectText (fs.map fun f => (f.1, f.2.1)) =
      '\x7b' :: seqChars '\x7d' [] ((fs.map fun f => ((⟨[], encodeStr f.1.toList, [], f.2.1, f.2.2⟩ :
        MemberText), ([] : List Char))).map fun i => i.1.chars ++ i.2) := by
    simp [objectText, memberChars, MemberText.chars, Function.comp_def]
  have hnamed : ∀ fs : List (String × List Char × JsonText),
      (∀ f ∈ fs, Spells f.2.1 f.2.2 ∧ skipWs f.2.1 = f.2.1) →
      ((fs.map fun f => ((⟨[], encodeStr f.1.toList, [], f.2.1, f.2.2⟩ : MemberText),
        ([] : List Char))).map fun i => i.1.member).mapM named =
        some (fs.map fun f => fieldMember f.1 f.2.1 f.2.2) := by
    intro fs hfs
    induction fs with
    | nil => rfl
    | cons f fs ih =>
      have hf : named (MemberText.member ⟨[], encodeStr f.1.toList, [], f.2.1, f.2.2⟩) =
          some (fieldMember f.1 f.2.1 f.2.2) := by
        simp [named, MemberText.member, fieldMember, (hfs f List.mem_cons_self).2]
      rw [List.map_cons, List.map_cons, List.mapM_cons, hf,
        ih fun g hg => hfs g (List.mem_cons_of_mem f hg)]
      rfl
  unfold textFields
  rw [htext, hparse]
  exact hnamed fs h

/-- The tree of a list of fields. -/
def fieldsText (fs : List (String × JsonText)) : JsonText :=
  .obj (fs.map fun f => (encodeStr f.1.toList, f.2))

/-- **The compact text of a list of fields is read from these fields.** -/
theorem textFields_chars (fs : List (String × JsonText)) :
    textFields (fieldsText fs).chars =
      some (fs.map fun f => fieldMember f.1 f.2.chars f.2) := by
  have hspells : ∀ f ∈ fs.map fun f => (f.1, f.2.chars, f.2),
      Spells f.2.1 f.2.2 ∧ skipWs f.2.1 = f.2.1 := by
    intro f hf
    obtain ⟨g, -, rfl⟩ := List.mem_map.1 hf
    exact ⟨spells_chars g.2, skipWs_chars g.2⟩
  have htext : (fieldsText fs).chars =
      objectText ((fs.map fun f => (f.1, f.2.chars, f.2)).map fun f => (f.1, f.2.1)) := by
    simp [fieldsText, objectText, Function.comp_def]
  rw [htext, textFields_objectText hspells, List.map_map]
  rfl

/-- **Every field of a parsed envelope is what its reader gives**, and an envelope whose fields all
are is the parsed one. -/
theorem Envelope.fromFields_eq_some_iff {readF64 : JsonNumber → Option F64}
    {fs : List (String × Member)} {env : Envelope} :
    Envelope.fromFields readF64 fs = some env ↔
      readField fs "v" readU32 (some 1) = some env.v ∧
      readField fs "id" readString none = some env.id ∧
      readField fs "task" readString none = some env.task ∧
      readField fs "args" (readOpt readRaw) (some none) = some env.args ∧
      readField fs "kwargs" (readOpt readRaw) (some none) = some env.kwargs ∧
      readField fs "queue" readString (some "default") = some env.queue ∧
      readField fs "kind" readString (some "io") = some env.kind ∧
      readField fs "retries" readU32 (some 0) = some env.retries ∧
      readField fs "max_retries" readU32 (some 3) = some env.maxRetries ∧
      readField fs "backoff_base_ms" readU64 (some 500) = some env.backoffBaseMs ∧
      readField fs "backoff_factor" (readDouble readF64) (some (.finite 2)) =
        some env.backoffFactor ∧
      readField fs "backoff_max_ms" readU64 (some 60_000) = some env.backoffMaxMs ∧
      readField fs "jitter" readBool (some true) = some env.jitter ∧
      readField fs "timeout_ms" readTimeoutMs (some 300_000) = some env.timeoutMs ∧
      readField fs "soft_timeout_ms" (readOpt readU64) (some none) = some env.softTimeoutMs ∧
      readField fs "idempotency_key" (readOpt readString) (some none) = some env.idempotencyKey ∧
      readField fs "store_result" readBool (some true) = some env.storeResult ∧
      readField fs "enqueued_at" readU64 (some 0) = some env.enqueuedAt ∧
      readField fs "not_before" (readOpt (readDouble readF64)) (some none) = some env.notBefore ∧
      readField fs "expires_at" (readOpt readU64) (some none) = some env.expiresAt ∧
      readExtra fs = some env.extra := by
  unfold Envelope.fromFields
  constructor
  · intro h
    obtain ⟨v, hv, h⟩ := Option.bind_eq_some_iff.1 h
    obtain ⟨id, hid, h⟩ := Option.bind_eq_some_iff.1 h
    obtain ⟨task, htask, h⟩ := Option.bind_eq_some_iff.1 h
    obtain ⟨args, hargs, h⟩ := Option.bind_eq_some_iff.1 h
    obtain ⟨kwargs, hkwargs, h⟩ := Option.bind_eq_some_iff.1 h
    obtain ⟨queue, hqueue, h⟩ := Option.bind_eq_some_iff.1 h
    obtain ⟨kind, hkind, h⟩ := Option.bind_eq_some_iff.1 h
    obtain ⟨retries, hretries, h⟩ := Option.bind_eq_some_iff.1 h
    obtain ⟨maxRetries, hmaxRetries, h⟩ := Option.bind_eq_some_iff.1 h
    obtain ⟨base, hbase, h⟩ := Option.bind_eq_some_iff.1 h
    obtain ⟨factor, hfactor, h⟩ := Option.bind_eq_some_iff.1 h
    obtain ⟨bmax, hbmax, h⟩ := Option.bind_eq_some_iff.1 h
    obtain ⟨jitter, hjitter, h⟩ := Option.bind_eq_some_iff.1 h
    obtain ⟨timeout, htimeout, h⟩ := Option.bind_eq_some_iff.1 h
    obtain ⟨soft, hsoft, h⟩ := Option.bind_eq_some_iff.1 h
    obtain ⟨key, hkey, h⟩ := Option.bind_eq_some_iff.1 h
    obtain ⟨store, hstore, h⟩ := Option.bind_eq_some_iff.1 h
    obtain ⟨enqueued, henqueued, h⟩ := Option.bind_eq_some_iff.1 h
    obtain ⟨notBefore, hnotBefore, h⟩ := Option.bind_eq_some_iff.1 h
    obtain ⟨expires, hexpires, h⟩ := Option.bind_eq_some_iff.1 h
    obtain ⟨extra, hextra, h⟩ := Option.bind_eq_some_iff.1 h
    cases h
    exact ⟨hv, hid, htask, hargs, hkwargs, hqueue, hkind, hretries, hmaxRetries, hbase, hfactor,
      hbmax, hjitter, htimeout, hsoft, hkey, hstore, henqueued, hnotBefore, hexpires, hextra⟩
  · rintro ⟨hv, hid, htask, hargs, hkwargs, hqueue, hkind, hretries, hmaxRetries, hbase, hfactor,
      hbmax, hjitter, htimeout, hsoft, hkey, hstore, henqueued, hnotBefore, hexpires, hextra⟩
    rw [hv, hid, htask, hargs, hkwargs, hqueue, hkind, hretries, hmaxRetries, hbase, hfactor,
      hbmax, hjitter, htimeout, hsoft, hkey, hstore, henqueued, hnotBefore, hexpires, hextra]
    rfl

end Cauli
