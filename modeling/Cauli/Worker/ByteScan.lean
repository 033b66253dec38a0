import Cauli.Worker.Gates

/-!
# The tree check, byte by byte (`worker/src/dispatch.rs`)

`parses_as_tree` scans the UTF-8 bytes of a captured text. Here it runs on bytes, with everything
that could panic spelled out; the text is one that the raw capture has accepted.

* `Panic`: an index past the end, a failed `expect`, a depth below zero, a `u8` sum past 255;
* `countOpens`: the brackets, counted in `u8` per chunk of 255 bytes;
* `byteScan`: the loop, with the bytes that its index jumps over;
* `parsesAsTreeBytes`: the function, with its fast path;
* `byteScanner`: the loop obeys the laws of a `TreeScanner`;
* `parsesAsTreeBytes_eq_parsesAsTree`: no panic, and the answer is the tree's.
-/

namespace Cauli

open JsonToken JsonText

/-- Where the source would panic. -/
inductive Panic
  | index
  | expect
  | subtract
  | overflow
  deriving DecidableEq

/-- The UTF-8 bytes of a text. -/
def utf8Bytes (cs : List Char) : List UInt8 := cs.flatMap String.utf8EncodeChar

/-- An ASCII character as a byte. -/
def byte (c : Char) : UInt8 := UInt8.ofNat c.toNat

/-- `chunks`: the list cut into pieces of `n`, the last one perhaps shorter. -/
def chunks {α : Type} (n : ℕ) (l : List α) : List (List α) :=
  (List.range ((l.length + n - 1) / n)).map fun k => (l.drop (k * n)).take n

/-- An opening bracket. -/
def isOpenByte (x : UInt8) : Bool := x == byte '[' || x == byte '\x7b'

/-- One chunk, counted in a `u8`. -/
def countChunk (c : List UInt8) : Except Panic ℕ :=
  c.foldlM (fun n x =>
    let n' := n + (if isOpenByte x then 1 else 0)
    if n' < 256 then .ok n' else .error .overflow) 0

/-- The brackets of a text, chunk by chunk. -/
def countOpens (b : List UInt8) : Except Panic ℕ :=
  ((chunks 255 b).mapM countChunk).map List.sum

/-- A byte as a hex digit. -/
def byteHexVal (x : UInt8) : Option ℕ := hexVal (Char.ofNat x.toNat)

/-- `u16::from_str_radix(_, 16)` of three or four bytes. -/
def radix16 (ds : List UInt8) : Option ℕ :=
  ds.foldlM (fun n d => (byteHexVal d).map (16 * n + ·)) 0

/-- `unit`: the code unit of the next four bytes; `from_str_radix` takes a sign. -/
def unit : List UInt8 → Option ℕ
  | x :: y :: z :: w :: _ => if x = byte '+' then radix16 [y, z, w] else radix16 [x, y, z, w]
  | _ => none

/-- Does the text go on with a trailing surrogate? -/
def trailNext (b : List UInt8) : Bool :=
  b.take 2 == [byte '\\', byte 'u'] && (unit (b.drop 2)).any isTrail

/-- The loop of `parses_as_tree` from a position on. `skip` bytes are passed over: `i += 6` is the
byte at hand and five more. -/
def byteScan (depth : ℕ) (inStr : Bool) (skip : ℕ) : List UInt8 → Except Panic Bool
  | [] => .ok true
  | x :: rest =>
    match skip with
    | k + 1 => byteScan depth inStr k rest
    | 0 =>
      if inStr = true ∧ x = byte '\\' then
        match rest.head? with
        | none => .error .index
        | some y =>
          if y = byte 'u' then
            match unit rest.tail with
            | none => .error .expect
            | some u =>
              if isTrail u then .ok false
              else if isLead u then
                if trailNext (rest.drop 5) then byteScan depth true 11 rest else .ok false
              else byteScan depth true 5 rest
          else byteScan depth true 1 rest
      else if inStr = true then byteScan depth (x != byte '"') 0 rest
      else if x = byte '"' then byteScan depth true 0 rest
      else if isOpenByte x then
        if MAX_ARG_NESTING < depth + 1 then .ok false else byteScan (depth + 1) false 0 rest
      else if x = byte ']' ∨ x = byte '\x7d' then
        match depth with
        | 0 => .error .subtract
        | d + 1 => byteScan d false 0 rest
      else byteScan depth false 0 rest

/-- `parses_as_tree`, with its fast path: few brackets and no escape. -/
def parsesAsTreeBytes (b : List UInt8) : Except Panic Bool := do
  let opens ← countOpens b
  if opens ≤ MAX_ARG_NESTING ∧ byte '\\' ∉ b then return true else byteScan 0 false 0 b

/-! ### Counting in chunks -/

theorem countChunk_eq {c : List UInt8} (hc : c.length ≤ 255) :
    countChunk c = .ok (c.countP isOpenByte) := by
  have hfold : ∀ (l : List UInt8) (n : ℕ), n + l.length ≤ 255 →
      l.foldlM (fun n x =>
        let n' := n + (if isOpenByte x then 1 else 0)
        if n' < 256 then Except.ok n' else .error Panic.overflow) n = .ok (n + l.countP isOpenByte) := by
    intro l
    induction l with
    | nil => intro n _; rfl
    | cons x l ih =>
      intro n hn
      rw [List.length_cons] at hn
      have hlt : n + (if isOpenByte x then 1 else 0) < 256 := by split_ifs <;> omega
      have hle : n + (if isOpenByte x then 1 else 0) + l.length ≤ 255 := by split_ifs <;> omega
      simp only [List.foldlM_cons, if_pos hlt]
      show List.foldlM _ _ l = _
      rw [ih _ hle, List.countP_cons]
      congr 1
      omega
  simpa [countChunk] using hfold c 0 (by omega)

theorem sum_countP_chunks {α : Type} (p : α → Bool) {n : ℕ} (hn : 0 < n) (l : List α) :
    ((chunks n l).map (List.countP p)).sum = l.countP p := by
  have htake : ∀ m, ((List.range m).map fun k => ((l.drop (k * n)).take n).countP p).sum =
      (l.take (m * n)).countP p := by
    intro m
    induction m with
    | zero => simp
    | succ m ih =>
      rw [List.range_succ, List.map_append, List.sum_append, ih, Nat.succ_mul, List.take_add,
        List.countP_append]
      simp
  have hcover : l.length ≤ (l.length + n - 1) / n * n := by
    have := Nat.div_add_mod (l.length + n - 1) n
    have := Nat.mod_lt (l.length + n - 1) hn
    rw [Nat.mul_comm]
    omega
  rw [chunks, List.map_map]
  exact (htake _).trans (by rw [List.take_of_length_le hcover])

/-- **No chunk's count overflows**, and the chunks add up. -/
theorem countOpens_eq (b : List UInt8) : countOpens b = .ok (b.countP isOpenByte) := by
  have hmap : ∀ cs : List (List UInt8), (∀ c ∈ cs, c.length ≤ 255) →
      cs.mapM countChunk = .ok (cs.map (List.countP isOpenByte)) := by
    intro cs hcs
    induction cs with
    | nil => rfl
    | cons c cs ih =>
      rw [List.mapM_cons, countChunk_eq (hcs c List.mem_cons_self),
        ih fun d hd => hcs d (List.mem_cons_of_mem c hd)]
      rfl
  have hlen : ∀ c ∈ chunks 255 b, c.length ≤ 255 := by
    intro c hc
    obtain ⟨k, -, rfl⟩ := List.mem_map.1 hc
    exact List.length_take_le ..
  rw [countOpens, hmap _ hlen, ← sum_countP_chunks isOpenByte (n := 255) (by decide) b]
  rfl

/-! ### Bytes of characters -/

theorem utf8Bytes_cons (c : Char) (cs : List Char) :
    utf8Bytes (c :: cs) = String.utf8EncodeChar c ++ utf8Bytes cs := rfl

/-- An ASCII character is its own byte. -/
theorem utf8EncodeChar_of_lt {c : Char} (hc : c.toNat < 128) :
    String.utf8EncodeChar c = [byte c] := by
  have hle : c.val.toNat ≤ 127 := by
    show c.toNat ≤ 127
    omega
  simp only [String.utf8EncodeChar, if_pos hle]
  rfl

/-- Any other character has no ASCII byte. -/
theorem le_of_mem_utf8EncodeChar {c : Char} (hc : 128 ≤ c.toNat) {x : UInt8}
    (hx : x ∈ String.utf8EncodeChar c) : 128 ≤ x.toNat := by
  have hgt : ¬ c.val.toNat ≤ 127 := by
    show ¬ c.toNat ≤ 127
    omega
  simp only [String.utf8EncodeChar, if_neg hgt] at hx
  split_ifs at hx <;> simp only [List.mem_cons, List.not_mem_nil, or_false] at hx <;>
    rcases hx with rfl | rfl | rfl | rfl <;> simp only [UInt8.toNat_ofNat'] <;> omega

theorem toNat_byte {c : Char} (hc : c.toNat < 128) : (byte c).toNat = c.toNat := by
  simp only [byte, UInt8.toNat_ofNat']
  omega

theorem byte_inj {c d : Char} (hc : c.toNat < 128) (hd : d.toNat < 128) (h : byte c = byte d) :
    c = d := by
  have hnat : c.toNat = d.toNat := by rw [← toNat_byte hc, h, toNat_byte hd]
  exact Char.toNat_inj.1 hnat

/-- A byte of a character is an ASCII byte only if the character is. -/
theorem eq_of_byte_mem {c d : Char} (hd : d.toNat < 128) (h : byte d ∈ String.utf8EncodeChar c) :
    c = d := by
  by_cases hc : c.toNat < 128
  · rw [utf8EncodeChar_of_lt hc, List.mem_singleton] at h
    exact (byte_inj hd hc h).symm
  · have := le_of_mem_utf8EncodeChar (by omega) h
    rw [toNat_byte hd] at this
    omega

theorem byteHexVal_byte {c : Char} (hc : c.toNat < 128) : byteHexVal (byte c) = hexVal c := by
  rw [byteHexVal, toNat_byte hc, Char.ofNat_toNat]

theorem lt_of_isSome_hexVal {c : Char} (h : (hexVal c).isSome) : c.toNat < 128 ∧ c ≠ '+' := by
  unfold hexVal at h
  have hle : ∀ d : Char, c ≤ d → c.toNat ≤ d.toNat := fun d hd => hd
  split_ifs at h with h1 h2 h3
  · refine ⟨lt_of_le_of_lt (hle _ h1.2) (by decide), ?_⟩
    rintro rfl
    exact absurd h1.1 (by decide)
  · refine ⟨lt_of_le_of_lt (hle _ h2.2) (by decide), ?_⟩
    rintro rfl
    exact absurd h2.1 (by decide)
  · refine ⟨lt_of_le_of_lt (hle _ h3.2) (by decide), ?_⟩
    rintro rfl
    exact absurd h3.1 (by decide)
  · cases h

/-- **Four hex digits are read as their code unit.** -/
theorem unit_hexUnit {a b c d : Char} {u : ℕ} (hu : hexUnit a b c d = some u) (rest : List Char) :
    utf8Bytes (a :: b :: c :: d :: rest) = byte a :: byte b :: byte c :: byte d :: utf8Bytes rest ∧
      ∀ bs, unit (byte a :: byte b :: byte c :: byte d :: bs) = some u := by
  obtain ⟨x, hx, hu⟩ := Option.bind_eq_some_iff.1 hu
  obtain ⟨y, hy, hu⟩ := Option.bind_eq_some_iff.1 hu
  obtain ⟨z, hz, hu⟩ := Option.bind_eq_some_iff.1 hu
  obtain ⟨w, hw, hu⟩ := Option.bind_eq_some_iff.1 hu
  obtain rfl := Option.some.inj hu
  have ha := lt_of_isSome_hexVal (c := a) (by rw [hx]; rfl)
  have hb := (lt_of_isSome_hexVal (c := b) (by rw [hy]; rfl)).1
  have hc := (lt_of_isSome_hexVal (c := c) (by rw [hz]; rfl)).1
  have hd := (lt_of_isSome_hexVal (c := d) (by rw [hw]; rfl)).1
  refine ⟨?_, fun bs => ?_⟩
  · simp [utf8Bytes_cons, utf8EncodeChar_of_lt, ha.1, hb, hc, hd]
  · have hsign : ¬ byte a = byte '+' := fun h => ha.2 (byte_inj ha.1 (by decide) h)
    simp only [unit, if_neg hsign, radix16, List.foldlM_cons, List.foldlM_nil, byteHexVal_byte ha.1,
      byteHexVal_byte hb, byteHexVal_byte hc, byteHexVal_byte hd, hx, hy, hz, hw]
    show some _ = some _
    congr 1
    ring

/-! ### The loop, case by case -/

theorem byteScan_skip (depth : ℕ) (inStr : Bool) (l rest : List UInt8) :
    byteScan depth inStr l.length (l ++ rest) = byteScan depth inStr 0 rest := by
  induction l with
  | nil => rfl
  | cons x l ih =>
    rw [List.cons_append, List.length_cons, byteScan]
    exact ih

theorem byteScan_str {x : UInt8} (hx : x ≠ byte '\\') (depth : ℕ) (rest : List UInt8) :
    byteScan depth true 0 (x :: rest) = byteScan depth (x != byte '"') 0 rest := by
  rw [byteScan.eq_def]
  simp [hx]

theorem byteScan_out (x : UInt8) (depth : ℕ) (rest : List UInt8) :
    byteScan depth false 0 (x :: rest) =
      if x = byte '"' then byteScan depth true 0 rest
      else if isOpenByte x then
        if MAX_ARG_NESTING < depth + 1 then .ok false else byteScan (depth + 1) false 0 rest
      else if x = byte ']' ∨ x = byte '\x7d' then
        match depth with
        | 0 => .error .subtract
        | d + 1 => byteScan d false 0 rest
      else byteScan depth false 0 rest := by
  rw [byteScan.eq_def]
  simp

/-- A short escape. -/
theorem byteScan_escape {y : UInt8} (hy : y ≠ byte 'u') (depth : ℕ) (rest : List UInt8) :
    byteScan depth true 0 (byte '\\' :: y :: rest) = byteScan depth true 0 rest := by
  rw [byteScan.eq_def]
  simp only [List.head?_cons, if_neg hy, and_self, if_true]
  exact byteScan_skip depth true [y] rest

/-- A code unit. -/
theorem byteScan_unit {a b c d : Char} {u : ℕ} (hu : hexUnit a b c d = some u) (depth : ℕ)
    (rest : List Char) :
    byteScan depth true 0 (utf8Bytes ('\\' :: 'u' :: a :: b :: c :: d :: rest)) =
      if isTrail u then .ok false
      else if isLead u then
        if trailNext (utf8Bytes rest) then byteScan depth true 6 (utf8Bytes rest) else .ok false
      else byteScan depth true 0 (utf8Bytes rest) := by
  obtain ⟨hbytes, hunit⟩ := unit_hexUnit hu rest
  have hhead : utf8Bytes ('\\' :: 'u' :: a :: b :: c :: d :: rest) =
      byte '\\' :: byte 'u' :: byte a :: byte b :: byte c :: byte d :: utf8Bytes rest := by
    rw [utf8Bytes_cons, utf8Bytes_cons, hbytes]
    rfl
  rw [hhead, byteScan.eq_def]
  simp only [List.head?_cons, List.tail_cons, hunit, List.drop_succ_cons, List.drop_zero, and_self,
    if_true]
  rfl

/-- A character of a string. -/
theorem byteScan_plain {c : Char} (hc : isPlain c = true) (depth : ℕ) (rest : List UInt8) :
    byteScan depth true 0 (String.utf8EncodeChar c ++ rest) = byteScan depth true 0 rest := by
  have hquiet : ∀ x ∈ String.utf8EncodeChar c, x ≠ byte '\\' ∧ (x != byte '"') = true := by
    intro x hx
    simp only [isPlain, Bool.and_eq_true, bne_iff_ne] at hc
    constructor
    · rintro rfl
      exact hc.1.2 (eq_of_byte_mem (by decide) hx)
    · rw [bne_iff_ne]
      rintro rfl
      exact hc.1.1 (eq_of_byte_mem (by decide) hx)
  generalize String.utf8EncodeChar c = bs at hquiet
  induction bs with
  | nil => rfl
  | cons x l ih =>
    obtain ⟨hescape, hquote⟩ := hquiet x List.mem_cons_self
    rw [List.cons_append, byteScan_str hescape, hquote]
    exact ih fun y hy => hquiet y (List.mem_cons_of_mem x hy)

/-- An escaped character is ASCII. -/
theorem lt_of_isSome_unescape {c : Char} (h : (unescape c).isSome) : c.toNat < 128 ∧ c ≠ 'u' := by
  unfold unescape at h
  split_ifs at h with h1 h2 h3 h4 h5 h6
  · rcases h1 with rfl | rfl | rfl <;> decide
  all_goals first | (subst c; decide) | cases h

theorem utf8Bytes_escape {c : Char} (h : (unescape c).isSome) (rest : List Char) :
    utf8Bytes ('\\' :: c :: rest) = byte '\\' :: byte c :: utf8Bytes rest ∧ byte c ≠ byte 'u' := by
  obtain ⟨hascii, hu⟩ := lt_of_isSome_unescape h
  refine ⟨?_, fun heq => hu (byte_inj hascii (by decide) heq)⟩
  rw [utf8Bytes_cons, utf8Bytes_cons, utf8EncodeChar_of_lt hascii]
  rfl

/-- The look-ahead after a leading surrogate sees the next part of the string. -/
theorem trailNext_partChars (p : StrPart) (rest : List Char) :
    trailNext (utf8Bytes (partChars p ++ rest)) =
      match p with
      | .unicode a b c d _ => (hexUnit a b c d).any isTrail
      | _ => false := by
  cases p with
  | plain c h =>
    have hne : byte '\\' ∉ String.utf8EncodeChar c := by
      intro hmem
      obtain rfl := eq_of_byte_mem (by decide) hmem
      cases h
    obtain ⟨x, l, hx⟩ := List.exists_cons_of_ne_nil (String.utf8EncodeChar_ne_nil (c := c))
    have hbytes : utf8Bytes (partChars (.plain c h) ++ rest) = x :: (l ++ utf8Bytes rest) := by
      show String.utf8EncodeChar c ++ utf8Bytes rest = _
      rw [hx]
      rfl
    have hxne : x ≠ byte '\\' := by
      rintro rfl
      exact hne (by rw [hx]; exact List.mem_cons_self)
    simp [trailNext, hbytes, hxne]
  | escape c h =>
    obtain ⟨hbytes, hu⟩ := utf8Bytes_escape h rest
    have hchars : utf8Bytes (partChars (.escape c h) ++ rest) =
        byte '\\' :: byte c :: utf8Bytes rest := hbytes
    simp [trailNext, hchars, hu]
  | unicode a b c d h =>
    obtain ⟨u, hu⟩ := Option.isSome_iff_exists.1 h
    obtain ⟨hbytes, hunit⟩ := unit_hexUnit hu rest
    have hchars : utf8Bytes (partChars (.unicode a b c d h) ++ rest) =
        byte '\\' :: byte 'u' :: byte a :: byte b :: byte c :: byte d :: utf8Bytes rest := by
      show utf8Bytes ('\\' :: 'u' :: a :: b :: c :: d :: rest) = _
      rw [utf8Bytes_cons, utf8Bytes_cons, hbytes]
      rfl
    simp [trailNext, hchars, hunit, hu]

/-- A string is passed over if it denotes one, and refused otherwise. -/
theorem byteScan_partsChars (ps : List StrPart) (depth : ℕ) (rest : List Char) :
    byteScan depth true 0 (utf8Bytes (partsChars ps ++ rest)) =
      if (decodeParts ps).isSome then byteScan depth false 0 (utf8Bytes rest) else .ok false := by
  -- the cases of `decodeParts`: a pair of surrogates is skipped in one step
  induction ps using decodeParts.induct with
  | case1 => exact byteScan_str (by decide) depth (utf8Bytes rest)
  | case2 c h ps ih =>
    have hchars : utf8Bytes (partsChars (.plain c h :: ps) ++ rest) =
        String.utf8EncodeChar c ++ utf8Bytes (partsChars ps ++ rest) := rfl
    rw [hchars, byteScan_plain h, ih, decodeParts, Option.isSome_map]
  | case3 c h ps ih =>
    obtain ⟨c', hc'⟩ := Option.isSome_iff_exists.1 h
    obtain ⟨hchars, hu⟩ := utf8Bytes_escape h (partsChars ps ++ rest)
    show byteScan depth true 0 (utf8Bytes ('\\' :: c :: (partsChars ps ++ rest))) = _
    rw [hchars, byteScan_escape hu, ih, decodeParts, hc', Option.bind_some, Option.isSome_map]
  | case4 a b c d h ps ih2 ih1 =>
    obtain ⟨u, hu⟩ := Option.isSome_iff_exists.1 h
    have hchars : partsChars (.unicode a b c d h :: ps) ++ rest =
        '\\' :: 'u' :: a :: b :: c :: d :: (partsChars ps ++ rest) := rfl
    rw [hchars, byteScan_unit hu, decodeParts]
    simp only [hu, Option.bind_some]
    by_cases htrail : isTrail u = true
    · simp [htrail]
    by_cases hlead : isLead u = true
    · simp only [htrail, hlead, if_true, Bool.false_eq_true, if_false]
      -- the look-ahead: the next part, or the end of the string
      cases ps with
      | nil => rfl
      | cons p ps =>
        have hnext := trailNext_partChars p (partsChars ps ++ rest)
        rw [← List.append_assoc] at hnext
        show (if trailNext (utf8Bytes (partChars p ++ partsChars ps ++ rest)) = true then _ else _) = _
        rw [hnext]
        cases p with
        | plain c' h' => rfl
        | escape c' h' => rfl
        | unicode a' b' c' d' h' =>
          obtain ⟨u', hu'⟩ := Option.isSome_iff_exists.1 h'
          obtain ⟨hbytes, -⟩ := unit_hexUnit hu' (partsChars ps ++ rest)
          have hskip : byteScan depth true 6
              (utf8Bytes ('\\' :: 'u' :: a' :: b' :: c' :: d' :: (partsChars ps ++ rest))) =
                byteScan depth true 0 (utf8Bytes (partsChars ps ++ rest)) := by
            rw [utf8Bytes_cons, utf8Bytes_cons, hbytes]
            exact byteScan_skip depth true
              [byte '\\', byte 'u', byte a', byte b', byte c', byte d'] _
          by_cases htrail' : isTrail u' = true
          · simp only [hu', htrail', Option.any_some, if_true, Option.bind_some, Option.isSome_map]
            exact hskip.trans ih2
          · simp [hu', htrail']
    · simp [htrail, hlead, ih1]

theorem byteScan_dull {c : Char} (hc : isDull c = true) (depth : ℕ) (rest : List UInt8) :
    byteScan depth false 0 (String.utf8EncodeChar c ++ rest) = byteScan depth false 0 rest := by
  have hquiet : ∀ x ∈ String.utf8EncodeChar c, ¬ x = byte '"' ∧ ¬ isOpenByte x = true ∧
      ¬ (x = byte ']' ∨ x = byte '\x7d') := by
    intro x hx
    simp only [isDull, Bool.and_eq_true, bne_iff_ne] at hc
    obtain ⟨⟨⟨⟨⟨-, hquote⟩, harr⟩, hobj⟩, harr'⟩, hobj'⟩ := hc
    have hne : ∀ {d : Char}, d.toNat < 128 → c ≠ d → x ≠ byte d := by
      rintro d hd hcd rfl
      exact hcd (eq_of_byte_mem hd hx)
    simp [isOpenByte, hne (d := '"') (by decide) hquote, hne (d := '[') (by decide) harr,
      hne (d := '\x7b') (by decide) hobj, hne (d := ']') (by decide) harr',
      hne (d := '\x7d') (by decide) hobj']
  generalize String.utf8EncodeChar c = bs at hquiet
  induction bs with
  | nil => rfl
  | cons x l ih =>
    obtain ⟨hquote, hopen, hclose⟩ := hquiet x List.mem_cons_self
    rw [List.cons_append, byteScan_out, if_neg hquote, if_neg hopen, if_neg hclose]
    exact ih fun y hy => hquiet y (List.mem_cons_of_mem x hy)

/-- The loop on bytes, outside strings. -/
def byteScanner : TreeScanner (Except Panic Bool) where
  scan depth cs := byteScan depth false 0 (utf8Bytes cs)
  refuse := .ok false
  dull := fun hc depth rest => byteScan_dull hc depth (utf8Bytes rest)
  opening := by
    rintro c (rfl | rfl) depth rest <;> exact byteScan_out _ depth (utf8Bytes rest)
  closing := by
    intro c hc depth rest
    simp only [isClose, Bool.or_eq_true, beq_iff_eq] at hc
    rcases hc with rfl | rfl <;> exact byteScan_out _ (depth + 1) (utf8Bytes rest)
  string := by
    intro ps depth rest
    have hquote := byteScan_out (byte '"') depth (utf8Bytes (partsChars ps ++ rest))
    rw [if_pos rfl] at hquote
    exact hquote.trans (byteScan_partsChars ps depth rest)

/-! ### The answer -/

/-- Every surrogate of the tree's strings is part of a pair. -/
def paired : JsonText → Bool :=
  JsonText.fold true (fun _ => true) (fun _ => true) surrogatesPaired (fun bs => bs.all id)
    (fun ms => ms.all fun m => surrogatesPaired m.1 && m.2)

theorem decodable_eq_paired (t : JsonText) : t.decodable = paired t := by
  have hparts : (fun ps => (decodeParts ps).isSome) = surrogatesPaired :=
    funext isSome_decodeParts
  have hmembers : (fun ms : List (List StrPart × Bool) =>
        ms.all fun m => (decodeParts m.1).isSome && m.2) =
      fun ms => ms.all fun m => surrogatesPaired m.1 && m.2 := by
    funext ms
    simp only [isSome_decodeParts]
  rw [JsonText.decodable, paired, hparts, hmembers]

/-- **The loop answers for the tree**, at every text that the raw capture accepts. -/
theorem byteScan_of_spells {text : List Char} {t : JsonText} (h : Spells text t) :
    byteScan 0 false 0 (utf8Bytes text) =
      .ok (decide (t.nesting ≤ MAX_ARG_NESTING) && paired t) := by
  have hscan := byteScanner.scan_spells h (Nat.zero_le _) []
  rw [List.append_nil] at hscan
  have hfits : decide (fitsAt 0 t) = (decide (t.nesting ≤ MAX_ARG_NESTING) && paired t) := by
    simp [fitsAt, decodable_eq_paired, Bool.and_comm]
  rw [← hfits]
  refine hscan.trans ?_
  by_cases hfit : fitsAt 0 t
  · rw [if_pos hfit, decide_eq_true hfit]
    rfl
  · rw [if_neg hfit, decide_eq_false hfit]
    rfl

/-- Without an escape, and with few brackets, the loop does not refuse. -/
theorem byteScan_of_few {b : List UInt8} (hescape : byte '\\' ∉ b) {depth : ℕ} {inStr : Bool}
    (hfew : depth + b.countP isOpenByte ≤ MAX_ARG_NESTING) :
    byteScan depth inStr 0 b ≠ .ok false := by
  induction b generalizing depth inStr with
  | nil => nofun
  | cons x b ih =>
    rw [List.mem_cons, not_or] at hescape
    rw [List.countP_cons] at hfew
    cases inStr with
    | true =>
      rw [byteScan_str (Ne.symm hescape.1)]
      exact ih hescape.2 (by omega)
    | false =>
      rw [byteScan_out]
      split_ifs with hquote hopen hdeep hclose
      · exact ih hescape.2 (by omega)
      · rw [if_pos hopen] at hfew
        omega
      · rw [if_pos hopen] at hfew
        exact ih hescape.2 (by omega)
      · cases depth with
        | zero => nofun
        | succ d => exact ih hescape.2 (by omega)
      · exact ih hescape.2 (by omega)

theorem parsesAsTreeBytes_of_spells {text : List Char} {t : JsonText} (h : Spells text t) :
    parsesAsTreeBytes (utf8Bytes text) =
      .ok (decide (t.nesting ≤ MAX_ARG_NESTING) && paired t) := by
  have hscan := byteScan_of_spells h
  unfold parsesAsTreeBytes
  rw [countOpens_eq]
  show (if _ then pure true else _) = _
  split_ifs with hfast
  · -- the loop would not have refused either, so the tree's answer is yes
    have hyes : byteScan 0 false 0 (utf8Bytes text) ≠ .ok false :=
      byteScan_of_few hfast.2 (by omega)
    rw [hscan] at hyes
    cases hanswer : decide (t.nesting ≤ MAX_ARG_NESTING) && paired t with
    | true => rfl
    | false => exact absurd (by rw [hanswer]) hyes
  · exact hscan

/-- On such a text the check on bytes is the check on characters. -/
theorem parsesAsTreeBytes_eq_parsesAsTree {text : List Char} {t : JsonText} (h : Spells text t) :
    parsesAsTreeBytes (utf8Bytes text) = .ok (parsesAsTree (String.ofList text)) := by
  rw [parsesAsTreeBytes_of_spells h, parsesAsTree_of_spells h]
  congr 1
  simp [fitsAt, decodable_eq_paired, Bool.and_comm]

/-- **`parses_as_tree` is the tree parse**: on a text that the raw capture accepts nothing panics,
the count of brackets and the loop end, the fast path answers as the loop would, and the answer is
that the tree is not nested too deep and its surrogates are paired. -/
theorem tree_check_is_tree_parse {text : List Char} {t : JsonText} (h : Spells text t) :
    countOpens (utf8Bytes text) = .ok ((utf8Bytes text).countP isOpenByte) ∧
      byteScan 0 false 0 (utf8Bytes text) = parsesAsTreeBytes (utf8Bytes text) ∧
      parsesAsTreeBytes (utf8Bytes text) =
        .ok (decide (t.nesting ≤ MAX_ARG_NESTING ∧ paired t = true)) := by
  refine ⟨countOpens_eq _, ?_, ?_⟩
  · rw [byteScan_of_spells h, parsesAsTreeBytes_of_spells h]
  · rw [parsesAsTreeBytes_of_spells h]
    simp

/-- The text `["\\ud83d\\ude00"]`, an emoji as a pair of escapes. -/
theorem tree_check_of_a_pair :
    parsesAsTreeBytes (utf8Bytes "[\"\\ud83d\\ude00\"]".toList) = .ok true := by
  exact (tree_check_is_tree_parse (spells_chars
    (.arr [.str [.unicode 'd' '8' '3' 'd' rfl, .unicode 'd' 'e' '0' '0' rfl]]))).2.2

end Cauli
