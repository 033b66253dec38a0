import Mathlib.Data.List.MinMax
import Mathlib.Data.List.Nodup
import Mathlib.Data.String.Basic
import Cauli.Client.Codec
import Cauli.Worker.Parse

/-!
# Retry hops (`worker/src/envelope.rs`, `worker/src/dispatch.rs`)

A retry writes the envelope as text and a worker parses it again.

* `ofJson`: how a value is written; its objects keep their order;
* `Envelope.toText`: `serde_json::to_string`, the known fields in the order of the struct, then the
  unknown ones in the order of their names. `args` and `kwargs` go out as they came in;
* `hop`, `hops`: `schedule_retry` followed by the next parse, once and `n` times;
* `Readable`: what every parse leaves behind, and enough to write and parse the envelope again;
* `retry_hops_preserve`: after `n` hops only `retries` has changed.

How the JSON library prints a finite double is the parameter `printF64`.
-/

namespace Cauli

open JsonToken JsonText

mutual

/-- The tree a value is written as. -/
def ofJson : Json → JsonText
  | .null => .null
  | .bool b => .bool b
  | .num n => .num n
  | .str s => .str (encodeStr s.toList)
  | .arr elems => .arr (ofElems elems)
  | .obj members => .obj (ofMembers members)

/-- The elements of an array. -/
def ofElems : List Json → List JsonText
  | [] => []
  | v :: vs => ofJson v :: ofElems vs

/-- The members of an object. -/
def ofMembers : List (String × Json) → List (List StrPart × JsonText)
  | [] => []
  | (k, v) :: ms => (encodeStr k.toList, ofJson v) :: ofMembers ms

end

theorem ofElems_eq_map (vs : List Json) : ofElems vs = vs.map ofJson := by
  induction vs with
  | nil => rfl
  | cons v vs ih => rw [ofElems, ih, List.map_cons]

theorem ofMembers_eq_map (ms : List (String × Json)) :
    ofMembers ms = ms.map fun m => (encodeStr m.1.toList, ofJson m.2) := by
  induction ms with
  | nil => rfl
  | cons m ms ih => rw [ofMembers, ih, List.map_cons]

/-! ### Values that were read -/

theorem toJson_arr (ts : List JsonText) : toJson (.arr ts) = .arr (ts.map toJson) := by
  rw [toJson, fold, foldElems_eq_map]

/-- The string that parts denote. -/
def partsString (ps : List StrPart) : String := String.ofList ((decodeParts ps).getD [])

theorem toJson_obj (ms : List (List StrPart × JsonText)) :
    toJson (.obj ms) =
      .obj ((ms.map fun m => (partsString m.1, toJson m.2)).foldl
        (fun es m => setMember m.1 m.2 es) []) := by
  rw [toJson, fold, foldMembers_eq_map, List.foldl_map, List.foldl_map]
  rfl

theorem partsString_encodeStr (s : String) : partsString (encodeStr s.toList) = s := by
  simp [partsString]

theorem mem_setMember {k : String} {v : Json} {es : List (String × Json)} {e : String × Json}
    (h : e ∈ setMember k v es) : e = (k, v) ∨ e ∈ es := by
  induction es with
  | nil => exact .inl (List.mem_singleton.1 h)
  | cons e' es ih =>
    unfold setMember at h
    split_ifs at h
    · rcases List.mem_cons.1 h with rfl | h
      · exact .inl rfl
      · exact .inr (List.mem_cons_of_mem _ h)
    · rcases List.mem_cons.1 h with rfl | h
      · exact .inr List.mem_cons_self
      · exact (ih h).imp_right (List.mem_cons_of_mem _)

theorem names_setMember (k : String) (v : Json) (es : List (String × Json)) :
    (setMember k v es).map Prod.fst =
      if k ∈ es.map Prod.fst then es.map Prod.fst else es.map Prod.fst ++ [k] := by
  induction es with
  | nil => rfl
  | cons e es ih =>
    by_cases he : e.1 = k
    · rw [setMember, if_pos he, if_pos (by simp [he]), List.map_cons, List.map_cons, he]
    · rw [setMember, if_neg he, List.map_cons, ih, List.map_cons]
      by_cases hk : k ∈ es.map Prod.fst
      · rw [if_pos hk, if_pos (List.mem_cons_of_mem _ hk)]
      · rw [if_neg hk, if_neg (by simpa [List.mem_cons, Ne.symm he] using hk), List.cons_append]

/-- The members of an object that was read: distinct names, and no value that was not there. -/
theorem foldl_setMember (ms es : List (String × Json)) (hes : (es.map Prod.fst).Nodup) :
    ((ms.foldl (fun es m => setMember m.1 m.2 es) es).map Prod.fst).Nodup ∧
      ∀ e ∈ ms.foldl (fun es m => setMember m.1 m.2 es) es, e ∈ es ∨ e ∈ ms := by
  induction ms generalizing es with
  | nil => exact ⟨hes, fun e he => .inl he⟩
  | cons m ms ih =>
    have hnodup : ((setMember m.1 m.2 es).map Prod.fst).Nodup := by
      rw [names_setMember]
      split_ifs with hm
      · exact hes
      · exact List.nodup_append.2 ⟨hes, List.nodup_singleton _, by
          rintro k hk k' hk' rfl
          exact hm (List.mem_singleton.1 hk' ▸ hk)⟩
    obtain ⟨hnames, hmem⟩ := ih (setMember m.1 m.2 es) hnodup
    refine ⟨hnames, fun e he => ?_⟩
    rcases hmem e he with h | h
    · rcases mem_setMember h with rfl | h
      · exact .inr List.mem_cons_self
      · exact .inl h
    · exact .inr (List.mem_cons_of_mem _ h)

/-- Members with distinct names stay as they are. -/
theorem foldl_setMember_of_nodup (ms es : List (String × Json))
    (h : ((es ++ ms).map Prod.fst).Nodup) :
    ms.foldl (fun es m => setMember m.1 m.2 es) es = es ++ ms := by
  have happend : ∀ (k : String) (v : Json) (es : List (String × Json)), k ∉ es.map Prod.fst →
      setMember k v es = es ++ [(k, v)] := by
    intro k v es hk
    induction es with
    | nil => rfl
    | cons e es ih =>
      rw [List.map_cons, List.mem_cons, not_or] at hk
      rw [setMember, if_neg (Ne.symm hk.1), ih hk.2, List.cons_append]
  induction ms generalizing es with
  | nil => rw [List.append_nil]; rfl
  | cons m ms ih =>
    have hm : m.1 ∉ es.map Prod.fst := by
      rw [List.map_append, List.map_cons] at h
      exact fun hin => (List.nodup_append.1 h).2.2 _ hin _ List.mem_cons_self rfl
    rw [List.foldl_cons, happend m.1 m.2 es hm, ih _ (by rw [List.append_assoc]; exact h),
      List.append_assoc]
    rfl

/-- **A value that was read is written and read again as itself.** -/
theorem toJson_ofJson_toJson (t : JsonText) : toJson (ofJson (toJson t)) = toJson t := by
  induction t using JsonText.induct with
  | hnull => rfl
  | hbool b => rfl
  | hnum n => rfl
  | hstr ps =>
    show Json.str (partsString (encodeStr (partsString ps).toList)) = _
    rw [partsString_encodeStr]
    rfl
  | harr ts ih =>
    rw [toJson_arr, ofJson, ofElems_eq_map, toJson_arr, List.map_map, List.map_map]
    exact congrArg _ (List.map_congr_left ih)
  | hobj ms ih =>
    rw [toJson_obj]
    obtain ⟨hnames, hmem⟩ := foldl_setMember (ms.map fun m => (partsString m.1, toJson m.2)) [] .nil
    generalize (ms.map fun m => (partsString m.1, toJson m.2)).foldl
      (fun es m => setMember m.1 m.2 es) [] = es at hnames hmem ⊢
    have hvalues : es.map (fun m => (partsString (encodeStr m.1.toList), toJson (ofJson m.2))) = es := by
      conv_rhs => rw [← List.map_id es]
      refine List.map_congr_left fun e he => ?_
      rcases hmem e he with h | h
      · cases h
      · obtain ⟨m, hm, rfl⟩ := List.mem_map.1 h
        rw [partsString_encodeStr, ih m hm]
        rfl
    rw [ofJson, ofMembers_eq_map, toJson_obj, List.map_map]
    show Json.obj (List.foldl _ [] (es.map fun m =>
      (partsString (encodeStr m.1.toList), toJson (ofJson m.2)))) = _
    rw [hvalues, foldl_setMember_of_nodup es [] hnames, List.nil_append]

theorem decodable_encodeStr (cs : List Char) : (decodeParts (encodeStr cs)).isSome = true := by
  rw [decodeParts_encodeStr]
  rfl

/-- What is written is no deeper than what was read, and all its strings denote strings. -/
theorem ofJson_toJson_readable (t : JsonText) :
    (ofJson (toJson t)).decodable = true ∧ (ofJson (toJson t)).nesting ≤ t.nesting := by
  induction t using JsonText.induct with
  | hnull => exact ⟨rfl, le_rfl⟩
  | hbool b => exact ⟨rfl, le_rfl⟩
  | hnum n => exact ⟨rfl, le_rfl⟩
  | hstr ps => exact ⟨decodable_encodeStr _, le_rfl⟩
  | harr ts ih =>
    rw [toJson_arr, ofJson, ofElems_eq_map, List.map_map, decodable_arr, nesting_arr, nesting_arr]
    constructor
    · rw [List.all_map, List.all_eq_true]
      intro t ht
      exact (ih t ht).1
    · refine Nat.add_le_add_left (List.max_le_of_forall_le _ _ ?_) 1
      intro n hn
      obtain ⟨t', ht', rfl⟩ := List.mem_map.1 hn
      obtain ⟨t, ht, rfl⟩ := List.mem_map.1 ht'
      exact List.le_max_of_le (List.mem_map_of_mem ht) (ih t ht).2
  | hobj ms ih =>
    rw [toJson_obj]
    obtain ⟨-, hmem⟩ := foldl_setMember (ms.map fun m => (partsString m.1, toJson m.2)) [] .nil
    generalize (ms.map fun m => (partsString m.1, toJson m.2)).foldl
      (fun es m => setMember m.1 m.2 es) [] = es at hmem ⊢
    have hval : ∀ e ∈ es, ∃ m ∈ ms, toJson m.2 = e.2 := by
      intro e he
      rcases hmem e he with h | h
      · cases h
      · obtain ⟨m, hm, rfl⟩ := List.mem_map.1 h
        exact ⟨m, hm, rfl⟩
    rw [ofJson, ofMembers_eq_map, decodable_obj, nesting_obj, nesting_obj]
    constructor
    · rw [List.all_map, List.all_eq_true]
      intro e he
      obtain ⟨m, hm, hme⟩ := hval e he
      show ((decodeParts (encodeStr e.1.toList)).isSome && (ofJson e.2).decodable) = true
      rw [decodable_encodeStr, ← hme, (ih m hm).1]
      rfl
    · refine Nat.add_le_add_left (List.max_le_of_forall_le _ _ ?_) 1
      intro n hn
      obtain ⟨e', he', rfl⟩ := List.mem_map.1 hn
      obtain ⟨e, he, rfl⟩ := List.mem_map.1 he'
      obtain ⟨m, hm, hme⟩ := hval e he
      show (ofJson e.2).nesting ≤ _
      rw [← hme]
      exact List.le_max_of_le (List.mem_map_of_mem hm) (ih m hm).2

/-! ### The sorted map -/

theorem mem_insertExtra {k : String} {v : Json} {es : List (String × Json)} {e : String × Json}
    (h : e ∈ insertExtra k v es) : e = (k, v) ∨ e ∈ es := by
  induction es with
  | nil => exact .inl (List.mem_singleton.1 h)
  | cons e' es ih =>
    unfold insertExtra at h
    split_ifs at h
    · rcases List.mem_cons.1 h with rfl | h
      · exact .inl rfl
      · exact .inr (List.mem_cons_of_mem _ h)
    · rcases List.mem_cons.1 h with rfl | h
      · exact .inl rfl
      · exact .inr h
    · rcases List.mem_cons.1 h with rfl | h
      · exact .inr List.mem_cons_self
      · exact (ih h).imp_right (List.mem_cons_of_mem _)

theorem pairwise_insertExtra (k : String) (v : Json) {es : List (String × Json)}
    (hes : es.Pairwise (·.1 < ·.1)) : (insertExtra k v es).Pairwise (·.1 < ·.1) := by
  induction es with
  | nil => exact List.pairwise_singleton _ _
  | cons e es ih =>
    obtain ⟨he, hes'⟩ := List.pairwise_cons.1 hes
    unfold insertExtra
    split_ifs with heq hlt
    · exact List.pairwise_cons.2 ⟨fun e' he' => heq ▸ he e' he', hes'⟩
    · refine List.pairwise_cons.2 ⟨fun e' he' => ?_, hes⟩
      rcases List.mem_cons.1 he' with rfl | he'
      · exact hlt
      · exact hlt.trans (he e' he')
    · refine List.pairwise_cons.2 ⟨fun e' he' => ?_, ih hes'⟩
      rcases mem_insertExtra he' with rfl | he'
      · exact lt_of_le_of_ne (not_lt.1 hlt) heq
      · exact he e' he'

/-- The unknown fields that were read: sorted, and none that was not there. -/
theorem foldl_insertExtra (ms es : List (String × Json)) (hes : es.Pairwise (·.1 < ·.1)) :
    (ms.foldl (fun es m => insertExtra m.1 m.2 es) es).Pairwise (·.1 < ·.1) ∧
      ∀ e ∈ ms.foldl (fun es m => insertExtra m.1 m.2 es) es, e ∈ es ∨ e ∈ ms := by
  induction ms generalizing es with
  | nil => exact ⟨hes, fun e he => .inl he⟩
  | cons m ms ih =>
    obtain ⟨hsorted, hmem⟩ := ih (insertExtra m.1 m.2 es) (pairwise_insertExtra m.1 m.2 hes)
    refine ⟨hsorted, fun e he => ?_⟩
    rcases hmem e he with h | h
    · rcases mem_insertExtra h with rfl | h
      · exact .inr List.mem_cons_self
      · exact .inl h
    · exact .inr (List.mem_cons_of_mem _ h)

/-- Sorted entries stay as they are. -/
theorem foldl_insertExtra_of_pairwise (ms es : List (String × Json))
    (h : (es ++ ms).Pairwise (·.1 < ·.1)) :
    ms.foldl (fun es m => insertExtra m.1 m.2 es) es = es ++ ms := by
  have happend : ∀ (k : String) (v : Json) (es : List (String × Json)), (∀ e ∈ es, e.1 < k) →
      insertExtra k v es = es ++ [(k, v)] := by
    intro k v es hk
    induction es with
    | nil => rfl
    | cons e es ih =>
      have he := hk e List.mem_cons_self
      rw [insertExtra, if_neg he.ne, if_neg he.asymm,
        ih fun e' he' => hk e' (List.mem_cons_of_mem _ he'), List.cons_append]
  induction ms generalizing es with
  | nil => rw [List.append_nil]; rfl
  | cons m ms ih =>
    have hm : ∀ e ∈ es, e.1 < m.1 := fun e he =>
      (List.pairwise_append.1 h).2.2 e he m List.mem_cons_self
    rw [List.foldl_cons, happend m.1 m.2 es hm, ih _ (by rw [List.append_assoc]; exact h),
      List.append_assoc]
    rfl

/-! ### Writing an envelope -/

/-- An integer. -/
def wholeTree (n : ℕ) : JsonText := .num (.ofInt n)

/-- A string. -/
def strTree (s : String) : JsonText := .str (encodeStr s.toList)

/-- An optional value; `None` is `null`. -/
def optTree {α : Type} (tree : α → JsonText) : Option α → JsonText
  | some a => tree a
  | none => .null

/-- A raw capture goes out as it is. -/
def rawText : Option String → List Char
  | some s => s.toList
  | none => ['n', 'u', 'l', 'l']

section Write

variable (printF64 : ℚ → JsonNumber)

/-- A double; one that is not finite is `null`. -/
def doubleTree : F64 → JsonText
  | .finite q => .num (printF64 q)
  | _ => .null

/-- The known fields with their texts, in the order of the struct. -/
def Envelope.knownTexts (e : Envelope) : List (String × List Char) :=
  [("v", (wholeTree e.v).chars),
    ("id", (strTree e.id).chars),
    ("task", (strTree e.task).chars),
    ("args", rawText e.args),
    ("kwargs", rawText e.kwargs),
    ("queue", (strTree e.queue).chars),
    ("kind", (strTree e.kind).chars),
    ("retries", (wholeTree e.retries).chars),
    ("max_retries", (wholeTree e.maxRetries).chars),
    ("backoff_base_ms", (wholeTree e.backoffBaseMs).chars),
    ("backoff_factor", (doubleTree printF64 e.backoffFactor).chars),
    ("backoff_max_ms", (wholeTree e.backoffMaxMs).chars),
    ("jitter", (JsonText.bool e.jitter).chars),
    ("timeout_ms", (wholeTree e.timeoutMs).chars),
    ("soft_timeout_ms", (optTree wholeTree e.softTimeoutMs).chars),
    ("idempotency_key", (optTree strTree e.idempotencyKey).chars),
    ("store_result", (JsonText.bool e.storeResult).chars),
    ("enqueued_at", (wholeTree e.enqueuedAt).chars),
    ("not_before", (optTree (doubleTree printF64) e.notBefore).chars),
    ("expires_at", (optTree wholeTree e.expiresAt).chars)]

/-- `serde_json::to_string`: the flattened map comes last. -/
def Envelope.toText (e : Envelope) : List Char :=
  objectText (e.knownTexts printF64 ++ e.extra.map fun x => (x.1, (ofJson x.2).chars))

variable (readF64 : JsonNumber → Option F64)

/-- A retry and the next parse: `retries` is a `u32`. -/
def hop (e : Envelope) : Option Envelope :=
  Envelope.fromText readF64 (({ e with retries := (e.retries + 1) % 2 ^ 32 } : Envelope).toText printF64)

/-- `n` retries. -/
def hops : ℕ → Envelope → Option Envelope
  | 0, e => some e
  | n + 1, e => (hop printF64 readF64 e).bind (hops n)

/-! ### What a parse leaves behind -/

/-- A capture that can be read again: the text of a value other than `null`. -/
def RawOk (raw : Option String) : Prop :=
  ∀ s ∈ raw, ∃ t, t ≠ .null ∧ Spells s.toList t ∧ skipWs s.toList = s.toList

/-- A double that is printed and read as itself. -/
def DoubleOk (x : F64) : Prop := ∃ q, x = .finite q ∧ readF64 (printF64 q) = some (.finite q)

/-- An envelope whose fields are all in range. -/
structure Readable (e : Envelope) : Prop where
  v : e.v < 2 ^ 32
  args : RawOk e.args
  kwargs : RawOk e.kwargs
  retries : e.retries < 2 ^ 32
  maxRetries : e.maxRetries < 2 ^ 32
  backoffBaseMs : e.backoffBaseMs < U64_LIMIT
  backoffFactor : DoubleOk printF64 readF64 e.backoffFactor
  backoffMaxMs : e.backoffMaxMs < U64_LIMIT
  timeoutMs : e.timeoutMs ≤ MAX_TIMEOUT_MS
  softTimeoutMs : ∀ n ∈ e.softTimeoutMs, n < U64_LIMIT
  enqueuedAt : e.enqueuedAt < U64_LIMIT
  notBefore : ∀ x ∈ e.notBefore, DoubleOk printF64 readF64 x
  expiresAt : ∀ n ∈ e.expiresAt, n < U64_LIMIT
  sorted : e.extra.Pairwise (·.1 < ·.1)
  unknown : ∀ x ∈ e.extra, x.1 ∉ FIELD_NAMES ∧ ∃ t, x.2 = toJson t ∧ t.nesting ≤ 126

end Write

theorem lt_of_valueToU64 {t : JsonText} {n : ℕ} (h : valueToU64 t = some n) : n < U64_LIMIT := by
  cases t with
  | num m =>
    rw [valueToU64, Option.or_eq_some_iff] at h
    rcases h with h | ⟨-, h⟩
    · unfold JsonNumber.asU64 at h
      split_ifs at h with hm
      cases h
      exact hm.2.2.2
    · exact (wholeU64_ofRat_eq_some_iff.1 h).2
  | _ => cases h

theorem exists_of_readField {α : Type} {fs : List (String × Member)} {name : String}
    {read : Member → Option α} {dflt : Option α} {a : α} (h : readField fs name read dflt = some a) :
    dflt = some a ∨ ∃ f ∈ fs, read f.2 = some a := by
  unfold readField at h
  split at h
  · exact .inl h
  · next f hf =>
    have hmem : f ∈ fs.filter fun f => f.1 = name := by rw [hf]; exact List.mem_singleton_self _
    exact .inr ⟨f, (List.mem_filter.1 hmem).1, h⟩
  · cases h

/-- Every field has the text its value is spelled by. -/
theorem spells_of_textFields {text : List Char} {fs : List (String × Member)}
    (h : textFields text = some fs) :
    ∀ f ∈ fs, Spells f.2.raw f.2.value ∧ skipWs f.2.raw = f.2.raw := by
  obtain ⟨ms, hms, hnamed⟩ := Option.bind_eq_some_iff.1 h
  have hsub : ∀ f ∈ fs, f.2 ∈ ms := by
    clear hms h
    induction ms generalizing fs with
    | nil =>
      cases hnamed
      nofun
    | cons m ms ih =>
      rw [List.mapM_cons] at hnamed
      obtain ⟨f, hf, hnamed⟩ := Option.bind_eq_some_iff.1 hnamed
      obtain ⟨fs', hfs', hnamed⟩ := Option.bind_eq_some_iff.1 hnamed
      cases hnamed
      obtain ⟨k, -, rfl⟩ := Option.map_eq_some_iff.1 hf
      intro g hg
      rcases List.mem_cons.1 hg with rfl | hg
      · exact List.mem_cons_self
      · exact List.mem_cons_of_mem _ (ih hfs' g hg)
  exact fun f hf => spells_of_parseObject hms f.2 (hsub f hf)

theorem lt_of_readU32 {m : Member} {n : ℕ} (h : readU32 m = some n) : n < 2 ^ 32 := by
  obtain ⟨-, hlt⟩ := Option.filter_eq_some_iff.1 h
  exact of_decide_eq_true hlt

theorem of_readOpt {α : Type} {read : Member → Option α} {m : Member} {o : Option α}
    (h : readOpt read m = some o) : ∀ a ∈ o, m.value ≠ .null ∧ read m = some a := by
  unfold readOpt at h
  split at h
  · cases h
    nofun
  · next hne =>
    obtain ⟨a, ha, rfl⟩ := Option.map_eq_some_iff.1 h
    rintro a' ⟨⟩
    exact ⟨hne, ha⟩

theorem le_of_readTimeoutMs {m : Member} {n : ℕ} (h : readTimeoutMs m = some n) :
    n ≤ MAX_TIMEOUT_MS := by
  obtain ⟨k, -, rfl⟩ := Option.map_eq_some_iff.1 h
  exact min_le_left _ _

theorem exists_of_readDouble {readF64 : JsonNumber → Option F64} {m : Member} {x : F64}
    (h : readDouble readF64 m = some x) : ∃ n, readF64 n = some x := by
  unfold readDouble at h
  split at h
  · next n _ => exact ⟨n, h⟩
  · cases h

/-- A field that satisfies `P` by default and when it is read. -/
theorem of_readField {α : Type} {fs : List (String × Member)} {name : String}
    {read : Member → Option α} {dflt : Option α} {a : α} {P : α → Prop}
    (h : readField fs name read dflt = some a) (hdflt : ∀ a, dflt = some a → P a)
    (hread : ∀ f ∈ fs, ∀ a, read f.2 = some a → P a) : P a := by
  rcases exists_of_readField h with h | ⟨f, hf, h⟩
  · exact hdflt a h
  · exact hread f hf a h

/-- The unknown fields are sorted, and their values were read from trees of the allowed depth. -/
theorem of_readExtra {fs : List (String × Member)} {es : List (String × Json)}
    (h : readExtra fs = some es) :
    es.Pairwise (·.1 < ·.1) ∧
      ∀ x ∈ es, x.1 ∉ FIELD_NAMES ∧ ∃ t, x.2 = toJson t ∧ t.nesting ≤ 126 := by
  unfold readExtra at h
  simp only at h
  split_ifs at h with hall
  cases h
  rw [← List.foldl_map (f := fun f : String × Member => (f.1, toJson f.2.value))
    (g := fun es m => insertExtra m.1 m.2 es)]
  obtain ⟨hsorted, hmem⟩ := foldl_insertExtra
    ((fs.filter fun f => f.1 ∉ FIELD_NAMES).map fun f => (f.1, toJson f.2.value)) [] .nil
  refine ⟨hsorted, fun x hx => ?_⟩
  rcases hmem x hx with hx | hx
  · cases hx
  · obtain ⟨f, hf, rfl⟩ := List.mem_map.1 hx
    have hok := List.all_eq_true.1 hall f hf
    rw [Bool.and_eq_true] at hok
    exact ⟨by simpa using (List.mem_filter.1 hf).2, f.2.value, rfl, of_decide_eq_true hok.2⟩

/-- The captures of a parsed envelope are texts of values. -/
theorem rawOk_of_fromText {readF64 : JsonNumber → Option F64} {text : List Char} {env : Envelope}
    (h : Envelope.fromText readF64 text = some env) : RawOk env.args ∧ RawOk env.kwargs := by
  obtain ⟨fs, hfs, h⟩ := Option.bind_eq_some_iff.1 h
  have hspells := spells_of_textFields hfs
  obtain ⟨-, -, -, hargs, hkwargs, -⟩ := Envelope.fromFields_eq_some_iff.1 h
  have hraw : ∀ f ∈ fs, ∀ o, readOpt readRaw f.2 = some o → RawOk o := by
    intro f hf o ho s hs
    obtain ⟨hne, hread⟩ := of_readOpt ho s hs
    cases hread
    refine ⟨f.2.value, hne, ?_⟩
    rw [String.toList_ofList]
    exact hspells f hf
  constructor
  · exact of_readField hargs (by rintro _ ⟨⟩; nofun) hraw
  · exact of_readField hkwargs (by rintro _ ⟨⟩; nofun) hraw

/-- **Every parse leaves a readable envelope behind.** -/
theorem readable_of_fromText {printF64 : ℚ → JsonNumber} {readF64 : JsonNumber → Option F64}
    (hfinite : ∀ n x, readF64 n = some x → ∃ q, x = .finite q) {text : List Char} {env : Envelope}
    (h : Envelope.fromText readF64 text = some env)
    (hround : ∀ q, env.backoffFactor = .finite q ∨ env.notBefore = some (.finite q) →
      readF64 (printF64 q) = some (.finite q)) : Readable printF64 readF64 env := by
  obtain ⟨hargs, hkwargs⟩ := rawOk_of_fromText h
  obtain ⟨fs, hfs, h⟩ := Option.bind_eq_some_iff.1 h
  obtain ⟨hv, -, -, -, -, -, -, hretries, hmaxRetries, hbase, hfactor, hbmax, -, htimeout,
    hsoft, -, -, henqueued, hnotBefore, hexpires, hextra⟩ := Envelope.fromFields_eq_some_iff.1 h
  have hopt : ∀ f ∈ fs, ∀ o, readOpt readU64 f.2 = some o → ∀ n ∈ o, n < U64_LIMIT :=
    fun f _ o ho n hn => lt_of_valueToU64 (of_readOpt ho n hn).2
  have hu32 : ∀ {name d n}, d < 2 ^ 32 → readField fs name readU32 (some d) = some n → n < 2 ^ 32 :=
    fun hd hn => of_readField (P := (· < 2 ^ 32)) hn (by rintro _ ⟨⟩; exact hd)
      fun f _ a ha => lt_of_readU32 ha
  have hu64 : ∀ {name d n}, d < U64_LIMIT → readField fs name readU64 (some d) = some n →
      n < U64_LIMIT :=
    fun hd hn => of_readField (P := (· < U64_LIMIT)) hn (by rintro _ ⟨⟩; exact hd)
      fun f _ a ha => lt_of_valueToU64 ha
  obtain ⟨hsorted, hunknown⟩ := of_readExtra hextra
  constructor
  · exact hu32 (by decide) hv
  · exact hargs
  · exact hkwargs
  · exact hu32 (by decide) hretries
  · exact hu32 (by decide) hmaxRetries
  · exact hu64 (by decide) hbase
  · obtain ⟨q, hq⟩ := of_readField (P := fun x => ∃ q, x = F64.finite q) hfactor
      (by rintro _ ⟨⟩; exact ⟨2, rfl⟩) fun f _ a ha =>
        (exists_of_readDouble ha).elim fun n hn => hfinite n a hn
    exact ⟨q, hq, hround q (.inl hq)⟩
  · exact hu64 (by decide) hbmax
  · exact of_readField (P := (· ≤ MAX_TIMEOUT_MS)) htimeout (by rintro _ ⟨⟩; decide)
      fun f _ a ha => le_of_readTimeoutMs ha
  · exact of_readField hsoft (by rintro _ ⟨⟩; nofun) hopt
  · exact hu64 (by decide) henqueued
  · intro x hx
    obtain ⟨q, rfl⟩ := of_readField (P := fun o : Option F64 => ∀ x ∈ o, ∃ q, x = F64.finite q)
      hnotBefore (by rintro _ ⟨⟩; nofun) (fun f _ o ho x hx =>
        (exists_of_readDouble (of_readOpt ho x hx).2).elim fun n hn => hfinite n x hn) x hx
    exact ⟨q, rfl, hround q (.inr hx)⟩
  · exact of_readField hexpires (by rintro _ ⟨⟩; nofun) hopt
  · exact hsorted
  · exact hunknown

/-! ### Reading it again -/

/-- A field written as a compact tree. -/
def compact (name : String) (t : JsonText) : String × List Char × JsonText := (name, t.chars, t)

/-- The known fields with their texts and trees; `a` and `k` are the trees of `args` and `kwargs`. -/
def Envelope.knownFields (printF64 : ℚ → JsonNumber) (e : Envelope) (a k : JsonText) :
    List (String × List Char × JsonText) :=
  [compact "v" (wholeTree e.v), compact "id" (strTree e.id), compact "task" (strTree e.task),
    ("args", rawText e.args, a), ("kwargs", rawText e.kwargs, k), compact "queue" (strTree e.queue),
    compact "kind" (strTree e.kind), compact "retries" (wholeTree e.retries),
    compact "max_retries" (wholeTree e.maxRetries),
    compact "backoff_base_ms" (wholeTree e.backoffBaseMs),
    compact "backoff_factor" (doubleTree printF64 e.backoffFactor),
    compact "backoff_max_ms" (wholeTree e.backoffMaxMs), compact "jitter" (.bool e.jitter),
    compact "timeout_ms" (wholeTree e.timeoutMs),
    compact "soft_timeout_ms" (optTree wholeTree e.softTimeoutMs),
    compact "idempotency_key" (optTree strTree e.idempotencyKey),
    compact "store_result" (.bool e.storeResult), compact "enqueued_at" (wholeTree e.enqueuedAt),
    compact "not_before" (optTree (doubleTree printF64) e.notBefore),
    compact "expires_at" (optTree wholeTree e.expiresAt)]

/-- All fields. -/
def Envelope.allFields (printF64 : ℚ → JsonNumber) (e : Envelope) (a k : JsonText) :
    List (String × List Char × JsonText) :=
  e.knownFields printF64 a k ++ e.extra.map fun x => compact x.1 (ofJson x.2)

/-- The text is that of the fields. -/
theorem Envelope.toText_eq (printF64 : ℚ → JsonNumber) (e : Envelope) (a k : JsonText) :
    e.toText printF64 = objectText ((e.allFields printF64 a k).map fun f => (f.1, f.2.1)) := by
  unfold Envelope.toText Envelope.allFields
  rw [List.map_append, List.map_map]
  rfl

theorem spells_compact (name : String) (t : JsonText) :
    Spells (compact name t).2.1 (compact name t).2.2 ∧
      skipWs (compact name t).2.1 = (compact name t).2.1 :=
  ⟨spells_chars t, skipWs_chars t⟩

/-- A capture is read again as itself. -/
theorem exists_of_rawOk {raw : Option String} (h : RawOk raw) :
    ∃ t, (Spells (rawText raw) t ∧ skipWs (rawText raw) = rawText raw) ∧
      ∀ key, readOpt readRaw ⟨key, t, rawText raw⟩ = some raw := by
  cases raw with
  | none => exact ⟨.null, ⟨.null, rfl⟩, fun key => rfl⟩
  | some s =>
    obtain ⟨t, hne, hspells⟩ := h s rfl
    refine ⟨t, hspells, fun key => ?_⟩
    have hread : readOpt readRaw ⟨key, t, rawText (some s)⟩ =
        (readRaw ⟨key, t, rawText (some s)⟩).map some := by
      unfold readOpt
      split
      · next hnull => exact absurd hnull hne
      · rfl
    rw [hread]
    show some (some (String.ofList s.toList)) = _
    rw [String.ofList_toList]

theorem valueToU64_wholeTree {n : ℕ} (h : n < U64_LIMIT) : valueToU64 (wholeTree n) = some n := by
  rw [wholeTree, valueToU64_ofInt, if_pos ⟨Int.natCast_nonneg n, by exact_mod_cast h⟩]
  rfl

section Reread

variable {printF64 : ℚ → JsonNumber} {readF64 : JsonNumber → Option F64} {e : Envelope}

/-- The fields as the reader finds them. -/
def Envelope.readFields (printF64 : ℚ → JsonNumber) (e : Envelope) (a k : JsonText) :
    List (String × Member) :=
  (e.allFields printF64 a k).map fun f => fieldMember f.1 f.2.1 f.2.2

theorem nodup_names (h : Readable printF64 readF64 e) (a k : JsonText) :
    ((e.readFields printF64 a k).map Prod.fst).Nodup := by
  have hnames : (e.readFields printF64 a k).map Prod.fst = FIELD_NAMES ++ e.extra.map Prod.fst := by
    unfold Envelope.readFields Envelope.allFields
    rw [List.map_map, List.map_append, List.map_map]
    rfl
  rw [hnames]
  refine List.nodup_append.2 ⟨by decide, ?_, ?_⟩
  · exact List.pairwise_map.2 (h.sorted.imp fun hlt => hlt.ne)
  · rintro name hname name' hname' rfl
    obtain ⟨x, hx, rfl⟩ := List.mem_map.1 hname'
    exact (h.unknown x hx).1 hname

/-- The unknown fields are read again as they were. -/
theorem readExtra_readFields (h : Readable printF64 readF64 e) (a k : JsonText) :
    readExtra (e.readFields printF64 a k) = some e.extra := by
  have hunknown : (e.readFields printF64 a k).filter (fun f => f.1 ∉ FIELD_NAMES) =
      e.extra.map fun x => fieldMember x.1 (ofJson x.2).chars (ofJson x.2) := by
    unfold Envelope.readFields Envelope.allFields
    rw [List.map_append, List.filter_append, List.map_map]
    have hknown : ((e.knownFields printF64 a k).map fun f => fieldMember f.1 f.2.1 f.2.2).filter
        (fun f => f.1 ∉ FIELD_NAMES) = [] := by
      rw [List.filter_eq_nil_iff]
      intro f hf
      have hname : f.1 ∈ FIELD_NAMES := List.mem_map_of_mem (f := Prod.fst) hf
      simpa using hname
    rw [hknown, List.nil_append]
    refine List.filter_eq_self.2 fun f hf => ?_
    obtain ⟨x, hx, rfl⟩ := List.mem_map.1 hf
    exact decide_eq_true (h.unknown x hx).1
  have hall : ((e.extra.map fun x => fieldMember x.1 (ofJson x.2).chars (ofJson x.2)).all fun f =>
      f.2.value.decodable && decide (f.2.value.nesting ≤ 126)) = true := by
    rw [List.all_map, List.all_eq_true]
    intro x hx
    obtain ⟨-, t, ht, hdepth⟩ := h.unknown x hx
    obtain ⟨hdecodable, hnesting⟩ := ofJson_toJson_readable t
    show ((ofJson x.2).decodable && decide ((ofJson x.2).nesting ≤ 126)) = true
    rw [ht, hdecodable, decide_eq_true (hnesting.trans hdepth)]
    rfl
  have hvalues : (e.extra.map fun x => fieldMember x.1 (ofJson x.2).chars (ofJson x.2)).map
      (fun f => (f.1, toJson f.2.value)) = e.extra := by
    rw [List.map_map]
    conv_rhs => rw [← List.map_id e.extra]
    refine List.map_congr_left fun x hx => ?_
    obtain ⟨-, t, ht, -⟩ := h.unknown x hx
    show (x.1, toJson (ofJson x.2)) = x
    rw [ht, toJson_ofJson_toJson, ← ht]
  unfold readExtra
  rw [hunknown]
  simp only
  rw [if_pos hall, ← List.foldl_map (f := fun f : String × Member => (f.1, toJson f.2.value))
    (g := fun es m => insertExtra m.1 m.2 es), hvalues, foldl_insertExtra_of_pairwise _ [] h.sorted,
    List.nil_append]

/-- A known field is read from its own text and tree. -/
theorem readField_readFields {α : Type} (h : Readable printF64 readF64 e) {a k : JsonText}
    {name : String} {text : List Char} {tree : JsonText}
    (hm : (name, text, tree) ∈ e.knownFields printF64 a k) (read : Member → Option α)
    (dflt : Option α) :
    readField (e.readFields printF64 a k) name read dflt =
      read ⟨encodeStr name.toList, tree, text⟩ :=
  readField_of_mem (nodup_names h a k)
    (List.mem_map.2 ⟨(name, text, tree), List.mem_append_left _ hm, rfl⟩) read dflt

theorem readString_strTree (key : List StrPart) (s : String) :
    readString ⟨key, strTree s, (strTree s).chars⟩ = some s := by
  simp [readString, strTree]

theorem readU32_wholeTree {n : ℕ} (hn : n < 2 ^ 32) (key : List StrPart) (text : List Char) :
    readU32 ⟨key, wholeTree n, text⟩ = some n := by
  unfold readU32
  rw [valueToU64_wholeTree (hn.trans (by decide))]
  exact Option.filter_eq_some_iff.2 ⟨rfl, decide_eq_true hn⟩

theorem readOpt_wholeTree {o : Option ℕ} (ho : ∀ n ∈ o, n < U64_LIMIT) (key : List StrPart)
    (text : List Char) : readOpt readU64 ⟨key, optTree wholeTree o, text⟩ = some o := by
  cases o with
  | none => rfl
  | some n =>
    show Option.map some (valueToU64 (wholeTree n)) = _
    rw [valueToU64_wholeTree (ho n rfl)]
    rfl

theorem readDouble_doubleTree {x : F64} (hx : DoubleOk printF64 readF64 x) (key : List StrPart)
    (text : List Char) : readDouble readF64 ⟨key, doubleTree printF64 x, text⟩ = some x := by
  obtain ⟨q, rfl, hq⟩ := hx
  exact hq

/-- **A readable envelope is written and read again as itself.** -/
theorem fromText_toText (h : Readable printF64 readF64 e) :
    Envelope.fromText readF64 (e.toText printF64) = some e := by
  obtain ⟨a, hspellsA, hreadA⟩ := exists_of_rawOk h.args
  obtain ⟨k, hspellsK, hreadK⟩ := exists_of_rawOk h.kwargs
  have hspells : ∀ f ∈ e.allFields printF64 a k, Spells f.2.1 f.2.2 ∧ skipWs f.2.1 = f.2.1 := by
    intro f hf
    rcases List.mem_append.1 hf with hf | hf
    · -- all but `args` and `kwargs` are compact
      have hknown : ∀ f ∈ e.knownFields printF64 a k, f = ("args", rawText e.args, a) ∨
          f = ("kwargs", rawText e.kwargs, k) ∨ ∃ name t, f = compact name t := by
        simp [Envelope.knownFields, compact]
      rcases hknown f hf with rfl | rfl | ⟨name, t, rfl⟩
      · exact hspellsA
      · exact hspellsK
      · exact spells_compact name t
    · obtain ⟨x, -, rfl⟩ := List.mem_map.1 hf
      exact spells_compact x.1 (ofJson x.2)
  have hfields : textFields (e.toText printF64) = some (e.readFields printF64 a k) := by
    rw [e.toText_eq printF64 a k]
    exact textFields_objectText hspells
  unfold Envelope.fromText
  rw [hfields]
  refine Envelope.fromFields_eq_some_iff.2 ⟨?_, ?_, ?_, ?_, ?_, ?_, ?_, ?_, ?_, ?_, ?_, ?_, ?_, ?_, ?_,
    ?_, ?_, ?_, ?_, ?_, readExtra_readFields h a k⟩
  · rw [readField_readFields h (List.mem_of_getElem? (i := 0) rfl)]
    exact readU32_wholeTree h.v _ _
  · rw [readField_readFields h (List.mem_of_getElem? (i := 1) rfl)]
    exact readString_strTree _ _
  · rw [readField_readFields h (List.mem_of_getElem? (i := 2) rfl)]
    exact readString_strTree _ _
  · rw [readField_readFields h (List.mem_of_getElem? (i := 3) rfl)]
    exact hreadA _
  · rw [readField_readFields h (List.mem_of_getElem? (i := 4) rfl)]
    exact hreadK _
  · rw [readField_readFields h (List.mem_of_getElem? (i := 5) rfl)]
    exact readString_strTree _ _
  · rw [readField_readFields h (List.mem_of_getElem? (i := 6) rfl)]
    exact readString_strTree _ _
  · rw [readField_readFields h (List.mem_of_getElem? (i := 7) rfl)]
    exact readU32_wholeTree h.retries _ _
  · rw [readField_readFields h (List.mem_of_getElem? (i := 8) rfl)]
    exact readU32_wholeTree h.maxRetries _ _
  · rw [readField_readFields h (List.mem_of_getElem? (i := 9) rfl)]
    exact valueToU64_wholeTree h.backoffBaseMs
  · rw [readField_readFields h (List.mem_of_getElem? (i := 10) rfl)]
    exact readDouble_doubleTree h.backoffFactor _ _
  · rw [readField_readFields h (List.mem_of_getElem? (i := 11) rfl)]
    exact valueToU64_wholeTree h.backoffMaxMs
  · rw [readField_readFields h (List.mem_of_getElem? (i := 12) rfl)]
    rfl
  · -- the clamp has nothing left to do
    rw [readField_readFields h (List.mem_of_getElem? (i := 13) rfl)]
    show Option.map _ (valueToU64 (wholeTree e.timeoutMs)) = _
    rw [valueToU64_wholeTree (h.timeoutMs.trans_lt (by decide)), Option.map_some,
      min_eq_right h.timeoutMs]
  · rw [readField_readFields h (List.mem_of_getElem? (i := 14) rfl)]
    exact readOpt_wholeTree h.softTimeoutMs _ _
  · rw [readField_readFields h (List.mem_of_getElem? (i := 15) rfl)]
    cases e.idempotencyKey with
    | none => rfl
    | some s => exact congrArg (Option.map some) (readString_strTree _ s)
  · rw [readField_readFields h (List.mem_of_getElem? (i := 16) rfl)]
    rfl
  · rw [readField_readFields h (List.mem_of_getElem? (i := 17) rfl)]
    exact valueToU64_wholeTree h.enqueuedAt
  · rw [readField_readFields h (List.mem_of_getElem? (i := 18) rfl)]
    have hdouble := h.notBefore
    cases hx : e.notBefore with
    | none => rfl
    | some x =>
      obtain ⟨q, rfl, hq⟩ := hdouble x hx
      exact congrArg (Option.map some) hq
  · rw [readField_readFields h (List.mem_of_getElem? (i := 19) rfl)]
    exact readOpt_wholeTree h.expiresAt _ _

end Reread

/-! ### Hops -/

theorem Readable.hop {printF64 : ℚ → JsonNumber} {readF64 : JsonNumber → Option F64} {e : Envelope}
    (h : Readable printF64 readF64 e) (hlt : e.retries < e.maxRetries) :
    hop printF64 readF64 e = some { e with retries := e.retries + 1 } ∧
      Readable printF64 readF64 { e with retries := e.retries + 1 } := by
  have hu32 : e.retries + 1 < 2 ^ 32 := lt_of_le_of_lt hlt h.maxRetries
  have hnext : Readable printF64 readF64 { e with retries := e.retries + 1 } :=
    { h with retries := hu32 }
  refine ⟨?_, hnext⟩
  unfold Cauli.hop
  rw [Nat.mod_eq_of_lt hu32]
  exact fromText_toText hnext

/-- **Retry hops preserve the envelope.** After any number of hops within the budget the envelope
parses, `retries` counts them, and every other field is what the first parse made of it. -/
theorem retry_hops_preserve {printF64 : ℚ → JsonNumber} {readF64 : JsonNumber → Option F64}
    (hfinite : ∀ n x, readF64 n = some x → ∃ q, x = .finite q) {text : List Char} {env : Envelope}
    (h : Envelope.fromText readF64 text = some env)
    (hround : ∀ q, env.backoffFactor = .finite q ∨ env.notBefore = some (.finite q) →
      readF64 (printF64 q) = some (.finite q)) (n : ℕ) (hn : env.retries + n ≤ env.maxRetries) :
    hops printF64 readF64 n env = some { env with retries := env.retries + n } := by
  have hreadable := readable_of_fromText hfinite h hround
  clear h hround
  induction n generalizing env with
  | zero => rfl
  | succ n ih =>
    obtain ⟨hhop, hnext⟩ := hreadable.hop (by omega)
    have hleft : env.retries + 1 + n ≤ env.maxRetries := by omega
    rw [hops, hhop, Option.bind_some, ih hleft hnext]
    show some { env with retries := env.retries + 1 + n } = _
    rw [Nat.add_assoc, Nat.add_comm 1 n]

/-- A text with a long timeout, a number of its own and white space in its arguments. -/
def longText : List Char :=
  "\x7b\"id\":\"a\",\"task\":\"t\",\"args\": [1, -0.0],\"timeout_ms\":1e12,\"meta\":1e400\x7d".toList

theorem finite_of_nearestDouble {n : JsonNumber} {x : F64} (h : nearestDouble n = some x) :
    ∃ q, x = .finite q := by
  obtain ⟨-, hfinite⟩ := Option.filter_eq_some_iff.1 h
  cases x with
  | finite q => exact ⟨q, rfl⟩
  | inf neg => cases hfinite
  | nan => cases hfinite

theorem retry_hops_preserve_longText : ∃ env, Envelope.fromText nearestDouble longText = some env ∧
    env.args = some "[1, -0.0]" ∧ env.timeoutMs = MAX_TIMEOUT_MS ∧
    hops wholeToken nearestDouble 3 env = some { env with retries := 3 } := by
  have hfacts : ((Envelope.fromText nearestDouble longText).any fun e =>
      decide (e.args = some "[1, -0.0]" ∧ e.timeoutMs = MAX_TIMEOUT_MS ∧ e.retries = 0 ∧
        e.maxRetries = 3 ∧ e.backoffFactor = .finite 2 ∧ e.notBefore = none)) = true := by
    decide +kernel
  obtain ⟨env, henv, hfields⟩ := (Option.any_eq_true _ _).1 hfacts
  obtain ⟨hargs, htimeout, hretries, hmax, hfactor, hnotBefore⟩ := of_decide_eq_true hfields
  have hround : ∀ q, env.backoffFactor = .finite q ∨ env.notBefore = some (.finite q) →
      nearestDouble (wholeToken q) = some (.finite q) := by
    rintro q (hq | hq)
    · rw [hfactor] at hq
      cases hq
      decide +kernel
    · rw [hnotBefore] at hq
      cases hq
  have hhops := retry_hops_preserve (fun n x => finite_of_nearestDouble) henv hround 3
    (by rw [hretries, hmax])
  rw [hretries] at hhops
  exact ⟨env, henv, hargs, htimeout, hhops⟩

end Cauli
