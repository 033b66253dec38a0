import Mathlib.Data.List.DropRight
import Cauli.Client.App
import Cauli.Queue.Completion
import Cauli.Worker.Hop

/-!
# Oversize entries (`worker/src/dispatch.rs`, `worker/src/envelope.rs`)

An entry above `max_envelope_bytes` is dead lettered with the first 4096 bytes of its text, and the
id for its failure result is parsed from these bytes alone. A text that was cut inside the object is
no JSON, wherever its id stands.

* `safeTruncate`: the cut, backed off to a character boundary;
* `idOnly`: `serde_json::from_str::<IdOnly>`;
* `textCodec`: the codec of the queue model on texts;
* `recoverId_safeTruncate`: what is recovered from a cut text of an envelope;
* `oversize_result_iff`: when an oversize entry gets its failure result.
-/

namespace Cauli

open JsonToken JsonText

/-! ### The cut -/

/-- `str::is_char_boundary`. -/
def isCharBoundary : List Char → ℕ → Bool
  | _, 0 => true
  | [], _ + 1 => false
  | c :: cs, i + 1 => decide (c.utf8Size ≤ i + 1) && isCharBoundary cs (i + 1 - c.utf8Size)

/-- The loop that backs off to a boundary. -/
def backOff (s : List Char) : ℕ → ℕ
  | 0 => 0
  | i + 1 => if isCharBoundary s (i + 1) then i + 1 else backOff s i

/-- `&s[..end]`. -/
def sliceTo : List Char → ℕ → List Char
  | _, 0 => []
  | [], _ + 1 => []
  | c :: cs, i + 1 => c :: sliceTo cs (i + 1 - c.utf8Size)

/-- At most `maxBytes`, backed off to a char boundary. -/
def safeTruncate (s : List Char) (maxBytes : ℕ) : List Char :=
  if byteLength s ≤ maxBytes then s else sliceTo s (backOff s maxBytes)

theorem isCharBoundary_iff {s : List Char} {i : ℕ} :
    isCharBoundary s i = true ↔ ∃ p, p <+: s ∧ byteLength p = i := by
  induction s generalizing i with
  | nil =>
    cases i with
    | zero => simp [isCharBoundary]
    | succ i =>
      simp only [isCharBoundary, List.prefix_nil, Bool.false_eq_true, false_iff]
      rintro ⟨p, rfl, hp⟩
      cases hp
  | cons c cs ih =>
    cases i with
    | zero =>
      simp only [isCharBoundary, true_iff]
      exact ⟨[], List.nil_prefix, rfl⟩
    | succ i =>
      have hpos := c.utf8Size_pos
      simp only [isCharBoundary, Bool.and_eq_true, decide_eq_true_eq, ih]
      constructor
      · rintro ⟨hle, p, hp, hlen⟩
        refine ⟨c :: p, List.cons_prefix_cons.2 ⟨rfl, hp⟩, ?_⟩
        rw [byteLength_cons]
        omega
      · rintro ⟨p, hp, hlen⟩
        cases p with
        | nil => cases hlen
        | cons d p =>
          obtain ⟨rfl, htail⟩ := List.cons_prefix_cons.1 hp
          rw [byteLength_cons] at hlen
          exact ⟨by omega, p, htail, by omega⟩

theorem sliceTo_byteLength {s p : List Char} (hp : p <+: s) : sliceTo s (byteLength p) = p := by
  induction p generalizing s with
  | nil => cases s <;> rfl
  | cons c p ih =>
    cases s with
    | nil => simp at hp
    | cons d s =>
      obtain ⟨rfl, htail⟩ := List.cons_prefix_cons.1 hp
      obtain ⟨n, hn⟩ := Nat.exists_eq_succ_of_ne_zero c.utf8Size_pos.ne'
      have hlen : byteLength (c :: p) = n + byteLength p + 1 := by
        rw [byteLength_cons, hn]
        omega
      rw [hlen, sliceTo, hn, show n + byteLength p + 1 - n.succ = byteLength p by omega, ih htail]

/-- The loop stops at the last boundary. -/
theorem backOff_spec (s : List Char) (m : ℕ) :
    backOff s m ≤ m ∧ isCharBoundary s (backOff s m) = true ∧
      ∀ i ≤ m, isCharBoundary s i = true → i ≤ backOff s m := by
  induction m with
  | zero =>
    refine ⟨le_rfl, ?_, fun i hi _ => hi⟩
    cases s <;> rfl
  | succ m ih =>
    obtain ⟨hle, hboundary, hlast⟩ := ih
    rw [backOff]
    split_ifs with h
    · exact ⟨le_rfl, h, fun i hi _ => hi⟩
    · refine ⟨by omega, hboundary, fun i hi hb => ?_⟩
      rcases Nat.lt_or_eq_of_le hi with hlt | rfl
      · exact hlast i (by omega) hb
      · exact absurd hb h

theorem byteLength_mono {p s : List Char} (h : p <+: s) : byteLength p ≤ byteLength s := by
  obtain ⟨q, rfl⟩ := h
  rw [byteLength_append]
  omega

theorem eq_of_byteLength_le {p s : List Char} (h : p <+: s)
    (hle : byteLength s ≤ byteLength p) : p = s := by
  obtain ⟨q, rfl⟩ := h
  cases q with
  | nil => rw [List.append_nil]
  | cons c q =>
    have hpos := c.utf8Size_pos
    rw [byteLength_append, byteLength_cons] at hle
    omega

/-- **The preview is the longest prefix that fits.** -/
theorem safeTruncate_spec (s : List Char) (m : ℕ) :
    safeTruncate s m <+: s ∧ byteLength (safeTruncate s m) ≤ m ∧
      ∀ p, p <+: s → byteLength p ≤ m → p <+: safeTruncate s m := by
  unfold safeTruncate
  split_ifs with hfits
  · exact ⟨List.prefix_refl s, hfits, fun p hp _ => hp⟩
  · obtain ⟨hle, hboundary, hlast⟩ := backOff_spec s m
    obtain ⟨p, hp, hlen⟩ := isCharBoundary_iff.1 hboundary
    rw [← hlen, sliceTo_byteLength hp]
    refine ⟨hp, hlen ▸ hle, fun q hq hqm => ?_⟩
    have hqp := hlast _ hqm (isCharBoundary_iff.2 ⟨q, hq, rfl⟩)
    rcases List.prefix_or_prefix_of_prefix hq hp with h | h
    · exact h
    · obtain rfl := eq_of_byteLength_le h (hlen ▸ hqp)
      exact List.prefix_refl p

/-! ### The id -/

/-- `serde_json::from_str::<IdOnly>`: a struct is an object with its fields, others are skipped, or
an array of their values. -/
def idOnly (text : List Char) : Option String :=
  if (skipWs text).head? = some '[' then
    match parseValue text.length text with
    | some (.arr [.str ps], rest) =>
      if skipWs rest = [] then (decodeParts ps).map String.ofList else none
    | _ => none
  else do
    let fs ← textFields text
    readField fs "id" readString none

theorem skipWs_eq_nil_iff {cs : List Char} : skipWs cs = [] ↔ IsWs cs := by
  rw [skipWs, List.dropWhile_eq_nil_iff]
  rfl

theorem exists_tailChars_eq (close : Char) (xs : List (List Char)) :
    ∃ cs, tailChars close xs = cs ++ [close] := by
  induction xs with
  | nil => exact ⟨[], rfl⟩
  | cons x xs ih =>
    obtain ⟨cs, hcs⟩ := ih
    refine ⟨',' :: (x ++ cs), ?_⟩
    rw [tailChars, List.foldr_cons, ← tailChars, hcs]
    simp

theorem exists_chars_eq (o : ObjectText) : ∃ cs, o.chars = cs ++ ['\x7d'] := by
  unfold ObjectText.chars
  cases o.items.map fun i => i.1.chars ++ i.2 with
  | nil => exact ⟨'\x7b' :: o.gap, rfl⟩
  | cons x xs =>
    obtain ⟨cs, hcs⟩ := exists_tailChars_eq '\x7d' xs
    refine ⟨'\x7b' :: (x ++ cs), ?_⟩
    rw [seqChars, hcs]
    simp

/-- Up to its trailing white space a text of an object ends with the object. -/
theorem rdropWhile_object (ws : List Char) (o : ObjectText) {post : List Char} (hpost : IsWs post) :
    (ws ++ (o.chars ++ post)).rdropWhile isWs = ws ++ o.chars := by
  obtain ⟨cs, hcs⟩ := exists_chars_eq o
  have hrev : ∀ c ∈ post.reverse, isWs c = true := fun c hc => hpost c (List.mem_reverse.1 hc)
  have hbrace : isWs '\x7d' = false := rfl
  rw [hcs, List.rdropWhile]
  simp only [List.reverse_append, List.append_assoc, List.reverse_cons, List.reverse_nil,
    List.nil_append]
  rw [List.dropWhile_append_of_pos hrev, List.singleton_append,
    List.dropWhile_cons_of_neg (by simp [hbrace])]
  simp

/-- **The preview of an object is one too**, if it holds all of the text up to its trailing white
space, and not otherwise. -/
theorem parseObject_safeTruncate {text : List Char} {ms : List Member}
    (h : parseObject text = some ms) (m : ℕ) :
    parseObject (safeTruncate text m) =
      if byteLength (text.rdropWhile isWs) ≤ m then some ms else none := by
  obtain ⟨hfront, hlen, hmax⟩ := safeTruncate_spec text m
  obtain ⟨ws, o, post, hws, hpost, htext, rfl⟩ := exists_of_parseObject h
  rw [skipWs_eq_nil_iff] at hpost
  have hcore : text.rdropWhile isWs = ws ++ o.chars := htext ▸ rdropWhile_object ws o hpost
  have hcorePrefix : ws ++ o.chars <+: text := ⟨post, by rw [htext, List.append_assoc]⟩
  rw [hcore]
  split_ifs with hfits
  · obtain ⟨post', hpreview⟩ := hmax _ hcorePrefix hfits
    have hpost' : IsWs post' := by
      have hsub : post' <+: post := by
        rw [← hpreview, htext, ← List.append_assoc, List.prefix_append_right_inj] at hfront
        exact hfront
      exact fun c hc => hpost c (hsub.subset hc)
    rw [← hpreview, List.append_assoc, parseObject_chars hws, if_pos (skipWs_eq_nil_iff.2 hpost')]
  · -- a cut inside the object leaves its closing brace behind, and that is no white space
    by_contra hsome
    obtain ⟨ms', hms'⟩ := Option.ne_none_iff_exists'.1 hsome
    obtain ⟨ws₂, o₂, post₂, hws₂, -, hpreview, -⟩ := exists_of_parseObject hms'
    obtain ⟨more, hmore⟩ := hfront
    have hrest : IsWs (post₂ ++ more) := by
      have hparse := parseObject_chars hws₂ o₂ (post₂ ++ more)
      rw [show ws₂ ++ (o₂.chars ++ (post₂ ++ more)) = text by rw [← hmore, hpreview]; simp, h] at hparse
      by_contra hne
      rw [if_neg (fun hnil => hne (skipWs_eq_nil_iff.1 hnil))] at hparse
      cases hparse
    have hcut : safeTruncate text m <+: ws ++ o.chars := by
      rcases List.prefix_or_prefix_of_prefix hcorePrefix ⟨more, hmore⟩ with hle | hle
      · exact absurd ((byteLength_mono hle).trans hlen) hfits
      · exact hle
    obtain ⟨q, hq⟩ := hcut
    have hmoreEq : more = q ++ post := by
      have happend : safeTruncate text m ++ more = safeTruncate text m ++ (q ++ post) := by
        rw [hmore, ← List.append_assoc, hq, htext, List.append_assoc]
      exact List.append_cancel_left happend
    have hne : q ≠ [] := by
      rintro rfl
      rw [List.append_nil] at hq
      exact hfits (hq ▸ hlen)
    obtain ⟨cs, hcs⟩ := exists_chars_eq o
    have hlast : q.getLast hne = '\x7d' := by
      have hgetLast := congrArg List.getLast? hq
      rw [List.getLast?_append_of_ne_nil _ hne, hcs, ← List.append_assoc, List.getLast?_concat,
        List.getLast?_eq_some_getLast hne] at hgetLast
      exact Option.some.inj hgetLast
    have hmem : '\x7d' ∈ post₂ ++ more := by
      rw [hmoreEq]
      exact List.mem_append_right _ (List.mem_append_left _ (hlast ▸ List.getLast_mem hne))
    exact absurd (hrest _ hmem) (by decide)

theorem head?_skipWs_mono {p cs : List Char} (hp : p <+: cs) {c : Char}
    (h : (skipWs p).head? = some c) : (skipWs cs).head? = some c := by
  obtain ⟨more, rfl⟩ := hp
  have hne : (p.dropWhile isWs).isEmpty = false := by
    rw [skipWs] at h
    cases hd : p.dropWhile isWs with
    | nil => simp [hd] at h
    | cons d ds => rfl
  rw [skipWs, List.dropWhile_append, hne, if_neg Bool.false_ne_true, List.head?_append, ← skipWs, h]
  rfl

/-- **The id of an envelope is found in its preview** exactly if nothing but white space was cut. -/
theorem idOnly_safeTruncate {readF64 : JsonNumber → Option F64} {text : List Char} {env : Envelope}
    (h : Envelope.fromText readF64 text = some env) (m : ℕ) :
    idOnly (safeTruncate text m) =
      if byteLength (text.rdropWhile isWs) ≤ m then some env.id else none := by
  obtain ⟨fs, hfs, henv⟩ := Option.bind_eq_some_iff.1 h
  obtain ⟨ms, hms, hnamed⟩ := Option.bind_eq_some_iff.1 hfs
  have hid : readField fs "id" readString none = some env.id :=
    (Envelope.fromFields_eq_some_iff.1 henv).2.1
  have hbracket : (skipWs (safeTruncate text m)).head? ≠ some '[' := by
    intro hhead
    have hhead' := head?_skipWs_mono (safeTruncate_spec text m).1 hhead
    unfold parseObject at hms
    simp only at hms
    split_ifs at hms with hbrace
    rw [hbrace] at hhead'
    cases hhead'
  rw [idOnly, if_neg hbracket, textFields, parseObject_safeTruncate hms]
  split_ifs
  · have hsome : (some ms).bind (List.mapM named) = some fs := hnamed
    show ((some ms).bind (List.mapM named)).bind _ = _
    rw [hsome]
    exact hid
  · rfl

/-! ### The codec of texts -/

/-- How the JSON library reads and prints doubles: what is read is finite, and a double that can be
read is printed so that it is read again. Two is the default of `backoff_factor`. -/
structure DoubleText where
  readF64 : JsonNumber → Option F64
  printF64 : ℚ → JsonNumber
  finite : ∀ n x, readF64 n = some x → ∃ q, x = .finite q
  two : ∃ n, readF64 n = some (.finite 2)
  reads_print : ∀ n q, readF64 n = some (.finite q) → readF64 (printF64 q) = some (.finite q)

/-- The doubles of a parsed envelope are printed so that they are read again. -/
theorem DoubleText.readable {D : DoubleText} {text : List Char} {env : Envelope}
    (h : Envelope.fromText D.readF64 text = some env) : Readable D.printF64 D.readF64 env := by
  refine readable_of_fromText D.finite h fun q hq => ?_
  obtain ⟨fs, -, henv⟩ := Option.bind_eq_some_iff.1 h
  obtain ⟨-, -, -, -, -, -, -, -, -, -, hfactor, -, -, -, -, -, -, -, hnotBefore, -⟩ :=
    Envelope.fromFields_eq_some_iff.1 henv
  have hread : ∃ n, D.readF64 n = some (.finite q) := by
    rcases hq with hq | hq
    · rw [hq] at hfactor
      refine of_readField (P := fun x => ∃ n, D.readF64 n = some x) hfactor ?_ fun f _ x hx => ?_
      · rintro _ ⟨⟩
        exact D.two
      · exact exists_of_readDouble hx
    · rw [hq] at hnotBefore
      refine of_readField (P := fun o => ∀ x ∈ o, ∃ n, D.readF64 n = some x) hnotBefore ?_
        (fun f _ o ho x hx => exists_of_readDouble (of_readOpt ho x hx).2) _ rfl
      rintro _ ⟨⟩
      nofun
  obtain ⟨n, hn⟩ := hread
  exact D.reads_print n q hn

/-- The codec of the queue model on texts. -/
def textCodec (D : DoubleText) : Codec (List Char) where
  fromStr := Envelope.fromText D.readF64
  toStr e := e.toText D.printF64
  len := byteLength
  safeTruncate := safeTruncate
  empty := []
  idOnly := idOnly
  task r := ((Envelope.fromText D.readF64 r).map Envelope.id).getD ""
  task_eq h := by rw [h]; rfl
  reparse h n hn := by
    have hreadable := DoubleText.readable h
    have hretries : n < 2 ^ 32 := lt_of_le_of_lt hn hreadable.maxRetries
    exact ⟨_, fromText_toText { hreadable with retries := hretries }, rfl, rfl, rfl⟩

/-! ### The oversize path -/

variable {D : DoubleText} {S : Settings} {text : List Char} {env : Envelope}

theorem recoverId_safeTruncate (h : Envelope.fromText D.readF64 text = some env)
    (hid : validTaskId env.id = true) :
    recoverId (textCodec D) (safeTruncate text PREVIEW_BYTES) =
      if byteLength (text.rdropWhile isWs) ≤ PREVIEW_BYTES then some env.id else none := by
  rw [recoverId, show (textCodec D).idOnly = idOnly from rfl, idOnly_safeTruncate h]
  split_ifs
  · simp [hid]
  · rfl

theorem process_of_oversize (hsize : S.maxEnvelopeBytes < byteLength text) (now : ℕ)
    (claim : Option IdempClaim) : process (textCodec D) S (some text) now claim =
      .finished (dlqTerminal (textCodec D) S (some text) (safeTruncate text PREVIEW_BYTES)
        .malformed none now) := by
  rw [process, if_pos (show S.maxEnvelopeBytes < (textCodec D).len text from hsize)]
  rfl

/-- **When an oversize entry gets its failure result**: the text of an envelope with a valid id that
is above the limit is dead lettered with its preview, and a failure result is written under the id if
and only if the preview holds all of the text but trailing white space. -/
theorem oversize_result_iff (h : Envelope.fromText D.readF64 text = some env)
    (hid : validTaskId env.id = true) (hsize : S.maxEnvelopeBytes < byteLength text) (now : ℕ)
    (claim : Option IdempClaim) :
    (∃ req, process (textCodec D) S (some text) now claim = .finished req ∧
      (∃ d : DeadLetter (List Char), d.e = safeTruncate text PREVIEW_BYTES ∧ .xaddDlq d ∈ req.extra) ∧
      .setResult env.id (.failure (dlqError .malformed) now) S.resultTtlS ∈ req.extra) ↔
    byteLength (text.rdropWhile isWs) ≤ PREVIEW_BYTES := by
  rw [process_of_oversize hsize]
  constructor
  · rintro ⟨req, hreq, -, hresult⟩
    cases hreq
    by_contra hcut
    rw [dlqTerminal, recoverId_safeTruncate h hid, if_neg hcut] at hresult
    simp [finishDlq, storeResult] at hresult
  · intro hfits
    refine ⟨_, rfl, ⟨⟨_, _, _, _⟩, rfl, List.mem_cons_self⟩, ?_⟩
    rw [dlqTerminal, recoverId_safeTruncate h hid, if_pos hfits]
    simp [finishDlq, storeResult]

/-- The value of an integer token of at most 53 bits. -/
def readWhole (n : JsonNumber) : Option F64 :=
  if n.frac = none ∧ n.exp = none ∧ n.int < 2 ^ 53 then some (.finite n.value) else none

theorem finite_of_readWhole (n : JsonNumber) (x : F64) (h : readWhole n = some x) :
    ∃ q, x = .finite q := by
  unfold readWhole at h
  split_ifs at h
  exact ⟨n.value, (Option.some.inj h).symm⟩

theorem exists_readWhole_two : ∃ n, readWhole n = some (.finite 2) := ⟨.ofInt 2, by decide +kernel⟩

theorem readWhole_ofInt_num (n : JsonNumber) (q : ℚ) (h : readWhole n = some (.finite q)) :
    readWhole (.ofInt q.num) = some (.finite q) := by
  unfold readWhole at h
  split_ifs at h with hn
  obtain ⟨hfrac, hexp, hint⟩ := hn
  have hvalue : n.value = ((if n.neg then -(n.int : ℤ) else n.int : ℤ) : ℚ) := by
    cases hneg : n.neg <;>
      simp [JsonNumber.value, hfrac, hexp, hneg, JsonNumber.digitsValue, JsonNumber.expValue]
  have hq : q = ((if n.neg then -(n.int : ℤ) else n.int : ℤ) : ℚ) := by
    rw [← hvalue]
    cases h
    rfl
  have habs : (if n.neg then -(n.int : ℤ) else n.int : ℤ).natAbs < 2 ^ 53 := by
    split_ifs <;> omega
  rw [hq, Rat.num_intCast, readWhole, if_pos ⟨rfl, rfl, habs⟩, JsonNumber.value_ofInt]

/-- Doubles that are whole numbers of at most 53 bits, read and printed as such. -/
def wholeDoubles : DoubleText where
  readF64 := readWhole
  printF64 q := .ofInt q.num
  finite := finite_of_readWhole
  two := exists_readWhole_two
  reads_print := readWhole_ofInt_num

/-- A text of 60 bytes, with white space after it. -/
def smallText : List Char :=
  "\x7b\"id\":\"0123456789abcdef0123456789abcdef\",\"task\":\"t\"\x7d \n".toList

theorem oversize_result_iff_small : ∃ req,
    process (textCodec wholeDoubles) { maxEnvelopeBytes := 16 } (some smallText) 7 none =
      .finished req ∧
    .setResult "0123456789abcdef0123456789abcdef" (.failure (dlqError .malformed) 7) 3600 ∈
      req.extra := by
  have hparse : ((Envelope.fromText wholeDoubles.readF64 smallText).any fun e =>
      decide (e.id = "0123456789abcdef0123456789abcdef")) = true := by
    decide +kernel
  obtain ⟨env, henv, hid⟩ := (Option.any_eq_true _ _).1 hparse
  have hid : env.id = "0123456789abcdef0123456789abcdef" := of_decide_eq_true hid
  have hresult := oversize_result_iff (S := { maxEnvelopeBytes := 16 }) henv
    (by rw [hid]; decide +kernel) (by decide +kernel) 7 none
  obtain ⟨req, hreq, -, hmem⟩ := hresult.2 (by decide +kernel)
  exact ⟨req, hreq, hid ▸ hmem⟩

/-- The fields of an envelope with an argument of `n` characters. -/
def paddedFields (n : ℕ) : List (String × JsonText) :=
  [("id", strTree "0123456789abcdef0123456789abcdef"), ("task", strTree "t"),
    ("args", .arr [.str (List.replicate n (.plain 'x' rfl))])]

theorem rdropWhile_chars_obj (ms : List (List StrPart × JsonText)) :
    (JsonText.obj ms).chars.rdropWhile isWs = (JsonText.obj ms).chars := by
  obtain ⟨cs, hcs⟩ : ∃ cs, (JsonText.obj ms).chars = cs ++ ['\x7d'] := by
    rw [chars_obj]
    cases ms with
    | nil => exact ⟨['\x7b'], rfl⟩
    | cons m ms =>
      obtain ⟨cs, hcs⟩ := exists_tailChars_eq '\x7d' (ms.map fun m => memberChars m.1 m.2.chars)
      refine ⟨'\x7b' :: (memberChars m.1 m.2.chars ++ cs), ?_⟩
      rw [List.map_cons, seqChars, hcs]
      simp
  rw [hcs, List.rdropWhile_concat_neg _ _ _ (by decide)]

theorem lt_byteLength_padded (n : ℕ) : n < byteLength (fieldsText (paddedFields n)).chars := by
  have hparts : n < byteLength (partsChars (List.replicate n (.plain 'x' rfl))) := by
    induction n with
    | zero => decide
    | succ n ih =>
      have hx : byteLength (partChars (.plain 'x' rfl)) = 1 := by decide
      rw [List.replicate_succ, partsChars, byteLength_append, hx]
      omega
  simp only [fieldsText, paddedFields, List.map_cons, List.map_nil, chars_obj, chars_arr, chars_str,
    seqChars, tailChars, List.foldr_cons, List.foldr_nil, memberChars, byteLength_cons,
    byteLength_append]
  omega

theorem exists_fromText_padded (n : ℕ) : ∃ env,
    Envelope.fromText wholeDoubles.readF64 (fieldsText (paddedFields n)).chars = some env ∧
      env.id = "0123456789abcdef0123456789abcdef" := by
  have hparse : (Envelope.fromText wholeDoubles.readF64
      (fieldsText (paddedFields n)).chars).map Envelope.id =
      some "0123456789abcdef0123456789abcdef" := by
    rw [Envelope.fromText, textFields_chars]
    rfl
  exact Option.map_eq_some_iff.1 hparse

/-- **The id of an oversize entry can be lost although it is in view**: the text starts with a valid
id, and nothing but a dead letter is written. -/
theorem oversize_id_lost :
    let text := (fieldsText (paddedFields 5000)).chars
    let idMember := memberChars (encodeStr "id".toList)
      (strTree "0123456789abcdef0123456789abcdef").chars
    (∃ env, Envelope.fromText wholeDoubles.readF64 text = some env ∧ validTaskId env.id = true) ∧
    '\x7b' :: idMember <+: text ∧ byteLength ('\x7b' :: idMember) = 40 ∧ 4096 < byteLength text ∧
    ∃ d, process (textCodec wholeDoubles) { maxEnvelopeBytes := 4096 } (some text) 7 none =
      .finished ⟨.dlq, [.xaddDlq d, .expireDlq DLQ_TTL_S]⟩ := by
  intro text idMember
  obtain ⟨env, henv, hid⟩ := exists_fromText_padded 5000
  have hvalid : validTaskId env.id = true := by
    rw [hid]
    decide +kernel
  have hlen : 4096 < byteLength text := lt_trans (by decide) (lt_byteLength_padded 5000)
  have hrecover : recoverId (textCodec wholeDoubles) (safeTruncate text PREVIEW_BYTES) = none := by
    rw [recoverId_safeTruncate henv hvalid, fieldsText, rdropWhile_chars_obj]
    exact if_neg (not_le.2 hlen)
  refine ⟨⟨env, henv, hvalid⟩, ?_, by decide +kernel, hlen, ?_⟩
  · show _ <+: (JsonText.obj _).chars
    rw [chars_obj]
    exact ⟨_, rfl⟩
  · rw [process_of_oversize hlen, dlqTerminal, hrecover]
    exact ⟨_, rfl⟩

end Cauli
