import Mathlib.Data.List.Basic
import Mathlib.Data.List.Induction
import Mathlib.Data.List.TakeWhile
import Cauli.Lib.Json

/-!
# String and number tokens of JSON

A text is a list of characters. A string token is a list of parts that keeps its escapes, a number
token is a `JsonNumber`, so that reading a token and interpreting it are apart.

* `StrPart`: a character of a string, a short escape, or four hex digits;
* `parseParts`, `parseNumber`: the readers;
* `decodeParts`: the string a token denotes, `none` for half a surrogate pair;
* `encodeStr`: the token with the standard escapes;
* `parseParts_partsChars`, `parseNumber_numberChars`: a token is read back from its characters.
-/

namespace JsonToken

/-! ### Strings -/

/-- A hex digit. -/
def hexVal (c : Char) : Option ℕ :=
  if '0' ≤ c ∧ c ≤ '9' then some (c.toNat - '0'.toNat)
  else if 'a' ≤ c ∧ c ≤ 'f' then some (c.toNat - 'a'.toNat + 10)
  else if 'A' ≤ c ∧ c ≤ 'F' then some (c.toNat - 'A'.toNat + 10)
  else none

/-- The `u16` of four hex digits. -/
def hexUnit (a b c d : Char) : Option ℕ := do
  return ((← hexVal a) * 16 + (← hexVal b)) * 256 + (← hexVal c) * 16 + (← hexVal d)

/-- A trailing surrogate. -/
def isTrail (u : ℕ) : Bool := 0xDC00 ≤ u && u < 0xE000

/-- A leading surrogate. -/
def isLead (u : ℕ) : Bool := 0xD800 ≤ u && u < 0xDC00

/-- A character that stands for itself in a string. -/
def isPlain (c : Char) : Bool := c != '"' && c != '\\' && decide (' ' ≤ c)

/-- The character of a short escape. -/
def unescape (c : Char) : Option Char :=
  if c = '"' ∨ c = '\\' ∨ c = '/' then some c
  else if c = 'b' then some '\x08'
  else if c = 'f' then some '\x0c'
  else if c = 'n' then some '\n'
  else if c = 'r' then some '\r'
  else if c = 't' then some '\t'
  else none

end JsonToken

open JsonToken

/-- A part of a string token. -/
inductive StrPart
  | plain (c : Char) (h : isPlain c = true)
  | escape (c : Char) (h : (unescape c).isSome)
  | unicode (a b c d : Char) (h : (hexUnit a b c d).isSome)

namespace JsonToken

/-- The characters of a part. -/
def partChars : StrPart → List Char
  | .plain c _ => [c]
  | .escape c _ => ['\\', c]
  | .unicode a b c d _ => ['\\', 'u', a, b, c, d]

/-- The characters of a string after its opening quote. -/
def partsChars : List StrPart → List Char
  | [] => ['"']
  | p :: ps => partChars p ++ partsChars ps

/-- The rest of a string after its opening quote. -/
def parseParts : List Char → Option (List StrPart × List Char)
  | [] => none
  | '"' :: rest => some ([], rest)
  | '\\' :: 'u' :: a :: b :: c :: d :: rest =>
    if h : (hexUnit a b c d).isSome then
      (parseParts rest).map fun p => (.unicode a b c d h :: p.1, p.2)
    else none
  | '\\' :: c :: rest =>
    if h : (unescape c).isSome then (parseParts rest).map fun p => (.escape c h :: p.1, p.2)
    else none
  | c :: rest =>
    if h : isPlain c = true then (parseParts rest).map fun p => (.plain c h :: p.1, p.2)
    else none

theorem parseParts_partChars (p : StrPart) (cs : List Char) :
    parseParts (partChars p ++ cs) = (parseParts cs).map fun q => (p :: q.1, q.2) := by
  cases p with
  | plain c h =>
    have hq : c ≠ '"' := by rintro rfl; cases h
    have hb : c ≠ '\\' := by rintro rfl; cases h
    show parseParts (c :: cs) = _
    rw [parseParts.eq_def]
    split
    · next heq => cases heq
    · next heq => exact absurd (List.cons.inj heq).1 hq
    · next heq => exact absurd (List.cons.inj heq).1 hb
    · next heq => exact absurd (List.cons.inj heq).1 hb
    · next heq => cases heq; rw [dif_pos h]
  | escape c h =>
    have hu : c ≠ 'u' := by rintro rfl; cases h
    show parseParts ('\\' :: c :: cs) = _
    rw [parseParts.eq_def]
    split
    · next heq => cases heq
    · next heq => cases heq
    · next heq => exact absurd (List.cons.inj (List.cons.inj heq).2).1 hu
    · next heq => cases heq; rw [dif_pos h]
    · next hne heq =>
      cases heq
      exact absurd rfl (hne c cs rfl)
  | unicode a b c d h =>
    show parseParts ('\\' :: 'u' :: a :: b :: c :: d :: cs) = _
    rw [parseParts, dif_pos h]

/-- **A string token is read back.** -/
theorem parseParts_partsChars (ps : List StrPart) (rest : List Char) :
    parseParts (partsChars ps ++ rest) = some (ps, rest) := by
  induction ps with
  | nil => rfl
  | cons p ps ih =>
    rw [partsChars, List.append_assoc, parseParts_partChars, ih]
    rfl

/-- What `parseParts` reads is the token in front of the rest. -/
theorem eq_of_parseParts {cs : List Char} {ps : List StrPart} {rest : List Char}
    (h : parseParts cs = some (ps, rest)) : cs = partsChars ps ++ rest := by
  induction cs using parseParts.induct generalizing ps with
  | case1 => cases h
  | case2 cs => cases h; rfl
  | case3 a b c d cs hu ih =>
    rw [parseParts, dif_pos hu] at h
    obtain ⟨p, hp, heq⟩ := Option.map_eq_some_iff.1 h
    cases heq
    rw [ih hp]
    rfl
  | case4 a b c d cs hu =>
    rw [parseParts, dif_neg hu] at h
    cases h
  | case5 c cs hne hu ih =>
    rw [parseParts, dif_pos hu] at h
    · obtain ⟨p, hp, heq⟩ := Option.map_eq_some_iff.1 h
      cases heq
      rw [ih hp]
      rfl
    · exact hne
  | case6 c cs hne hu =>
    rw [parseParts, dif_neg hu] at h
    · cases h
    · exact hne
  | case7 c cs h1 h2 h3 hc ih =>
    rw [parseParts, dif_pos hc] at h
    · obtain ⟨p, hp, heq⟩ := Option.map_eq_some_iff.1 h
      cases heq
      rw [ih hp]
      rfl
    all_goals assumption
  | case8 c cs h1 h2 h3 hc =>
    rw [parseParts, dif_neg hc] at h
    · cases h
    all_goals assumption

/-- The string a token denotes: escapes undone, surrogates joined in pairs, `none` for half a
pair. -/
def decodeParts : List StrPart → Option (List Char)
  | [] => some []
  | .plain c _ :: ps => (decodeParts ps).map (c :: ·)
  | .escape c _ :: ps => (unescape c).bind fun c' => (decodeParts ps).map (c' :: ·)
  | .unicode a b c d _ :: ps =>
    (hexUnit a b c d).bind fun u =>
      if isTrail u then none
      else if isLead u then
        match ps with
        | .unicode a' b' c' d' _ :: ps' =>
          (hexUnit a' b' c' d').bind fun u' =>
            if isTrail u' then
              (decodeParts ps').map
                (Char.ofNat (0x10000 + (u - 0xD800) * 0x400 + (u' - 0xDC00)) :: ·)
            else none
        | _ => none
      else (decodeParts ps).map (Char.ofNat u :: ·)

/-- Every unit in the surrogate range is half of a pair: a leading one with a trailing one next. -/
def surrogatesPaired : List StrPart → Bool
  | [] => true
  | .unicode a b c d _ :: ps =>
    if (hexUnit a b c d).any isTrail then false
    else if (hexUnit a b c d).any isLead then
      match ps with
      | .unicode a' b' c' d' _ :: ps' => (hexUnit a' b' c' d').any isTrail && surrogatesPaired ps'
      | _ => false
    else surrogatesPaired ps
  | _ :: ps => surrogatesPaired ps

/-- **A token denotes a string exactly when its surrogates are paired.** -/
theorem isSome_decodeParts (ps : List StrPart) :
    (decodeParts ps).isSome = surrogatesPaired ps := by
  induction ps using decodeParts.induct with
  | case1 => rfl
  | case2 c h ps ih => rw [decodeParts, Option.isSome_map, ih, surrogatesPaired]; simp
  | case3 c h ps ih =>
    obtain ⟨c', hc'⟩ := Option.isSome_iff_exists.1 h
    rw [decodeParts, hc', Option.bind_some, Option.isSome_map, ih, surrogatesPaired]
    simp
  | case4 a b c d h ps ih2 ih1 =>
    obtain ⟨u, hu⟩ := Option.isSome_iff_exists.1 h
    rw [decodeParts, surrogatesPaired.eq_def]
    simp only [hu, Option.bind_some, Option.any_some]
    by_cases htrail : isTrail u = true
    · rw [if_pos htrail, if_pos htrail]
      rfl
    rw [if_neg htrail, if_neg htrail]
    by_cases hlead : isLead u = true
    · rw [if_pos hlead, if_pos hlead]
      split
      · next a' b' c' d' h' ps' =>
        obtain ⟨u', hu'⟩ := Option.isSome_iff_exists.1 h'
        rw [hu', Option.bind_some, Option.any_some]
        by_cases htrail' : isTrail u' = true
        · rw [if_pos htrail', Option.isSome_map, htrail', Bool.true_and]
          exact ih2
        · have hfalse : isTrail u' = false := by simpa using htrail'
          simp [hfalse]
      · rfl
    · rw [if_neg hlead, if_neg hlead, Option.isSome_map]
      exact ih1

/-- A lowercase hex digit. -/
def hexDigit (i : Fin 16) : Char := Nat.digitChar i

theorem hexVal_hexDigit : ∀ i, hexVal (hexDigit i) = some i.val := by decide

theorem hexUnit_hexDigit (i j : Fin 16) :
    hexUnit '0' '0' (hexDigit i) (hexDigit j) = some (i.val * 16 + j.val) := by
  have hzero : hexVal '0' = some 0 := by decide
  simp [hexUnit, hexVal_hexDigit, hzero]

/-- The standard escape of a character that does not stand for itself. -/
def escapeChar (c : Char) : StrPart :=
  if c = '"' then .escape '"' (by decide)
  else if c = '\\' then .escape '\\' (by decide)
  else if c = '\x08' then .escape 'b' (by decide)
  else if c = '\x0c' then .escape 'f' (by decide)
  else if c = '\n' then .escape 'n' (by decide)
  else if c = '\r' then .escape 'r' (by decide)
  else if c = '\t' then .escape 't' (by decide)
  else .unicode '0' '0' (hexDigit (Fin.ofNat 16 (c.toNat / 16))) (hexDigit (Fin.ofNat 16 c.toNat))
    (by rw [hexUnit_hexDigit]; rfl)

/-- The last hex digit of a number. -/
def hexChar (n : ℕ) : Char := hexDigit (Fin.ofNat 16 n)

/-- The standard token of a string: only quotes, backslashes and controls are escaped. -/
def encodeStr (cs : List Char) : List StrPart :=
  cs.map fun c => if h : isPlain c = true then .plain c h else escapeChar c

theorem decodeParts_escapeChar {c : Char} (hc : isPlain c = false) (ps : List StrPart) :
    decodeParts (escapeChar c :: ps) = (decodeParts ps).map (c :: ·) := by
  unfold escapeChar
  split_ifs with h1 h2 h3 h4 h5 h6 h7
  all_goals first | (subst c; rfl) | skip
  -- a control character
  have hlow : c.toNat < 32 := by
    simp only [isPlain, Bool.and_eq_false_iff, bne_eq_false_iff_eq, decide_eq_false_iff_not] at hc
    rcases hc with (hc | hc) | hc
    · exact absurd hc h1
    · exact absurd hc h2
    · exact not_le.1 hc
  have hunit : (Fin.ofNat 16 (c.toNat / 16)).val * 16 + (Fin.ofNat 16 c.toNat).val = c.toNat := by
    simp only [Fin.ofNat]
    omega
  have htrail : isTrail c.toNat = false := by simp [isTrail]; omega
  have hlead : isLead c.toNat = false := by simp [isLead]; omega
  rw [decodeParts, hexUnit_hexDigit, hunit]
  simp [htrail, hlead]

/-- **A standard token denotes its string.** -/
@[simp] theorem decodeParts_encodeStr (cs : List Char) : decodeParts (encodeStr cs) = some cs := by
  induction cs with
  | nil => rfl
  | cons c cs ih =>
    have hcons : encodeStr (c :: cs) =
        (if h : isPlain c = true then .plain c h else escapeChar c) :: encodeStr cs := rfl
    rw [hcons]
    split_ifs with h
    · rw [decodeParts, ih]
      rfl
    · rw [decodeParts_escapeChar (by simpa using h), ih]
      rfl

/-! ### Numbers -/

/-- The character of a digit. -/
def digitChar (d : Fin 10) : Char := Nat.digitChar d

/-- The digit of a character. -/
def digitOf (c : Char) : Fin 10 := Fin.ofNat 10 (c.toNat - 48)

/-- The digit `0`. -/
def zeroDigit : Digits := ⟨[0], by decide⟩

theorem digitOf_digitChar : ∀ d, digitOf (digitChar d) = d := by decide

theorem isDigit_digitChar : ∀ d, (digitChar d).isDigit = true := by decide

/-- The characters of one digit or more. -/
def digitsChars (ds : Digits) : List Char := ds.1.map digitChar

/-- The fraction of a number token. -/
def fracChars : Option Digits → List Char
  | none => []
  | some ds => '.' :: digitsChars ds

/-- The sign of an exponent. -/
def signChars : Option Bool → List Char
  | none => []
  | some neg => [if neg then '-' else '+']

/-- The exponent of a number token. -/
def expChars : Option JsonExponent → List Char
  | none => []
  | some e => (if e.upper then 'E' else 'e') :: (signChars e.sign ++ digitsChars e.digits)

/-- The characters of a number token. -/
def numberChars (n : JsonNumber) : List Char :=
  (if n.neg then ['-'] else []) ++ (Nat.toDigits 10 n.int ++ (fracChars n.frac ++ expChars n.exp))

/-- The digits at the front of a text; there is one at least. -/
def parseDigits (cs : List Char) : Option (Digits × List Char) :=
  if h : cs.takeWhile Char.isDigit ≠ [] then
    some (⟨(cs.takeWhile Char.isDigit).map digitOf, by simpa using h⟩, cs.dropWhile Char.isDigit)
  else none

/-- An optional fraction. -/
def parseFrac (cs : List Char) : Option (Option Digits × List Char) :=
  if cs.head? = some '.' then (parseDigits cs.tail).map fun p => (some p.1, p.2)
  else some (none, cs)

/-- An optional sign. -/
def parseSign (cs : List Char) : Option Bool × List Char :=
  if cs.head? = some '-' then (some true, cs.tail)
  else if cs.head? = some '+' then (some false, cs.tail)
  else (none, cs)

/-- An optional exponent. -/
def parseExp (cs : List Char) : Option (Option JsonExponent × List Char) :=
  if cs.head? = some 'e' ∨ cs.head? = some 'E' then
    (parseDigits (parseSign cs.tail).2).map fun p =>
      (some ⟨decide (cs.head? = some 'E'), (parseSign cs.tail).1, p.1⟩, p.2)
  else some (none, cs)

/-- The unsigned part of a number token, without leading zeros. -/
def parseUnsigned (neg : Bool) (cs : List Char) : Option (JsonNumber × List Char) :=
  let ds := cs.takeWhile Char.isDigit
  if ds = [] ∨ (ds.head? = some '0' ∧ ds ≠ ['0']) then none
  else
    (parseFrac (cs.dropWhile Char.isDigit)).bind fun f =>
      (parseExp f.2).map fun e => (⟨neg, Nat.ofDigitChars 10 ds 0, f.1, e.1⟩, e.2)

/-- A number token. -/
def parseNumber (cs : List Char) : Option (JsonNumber × List Char) :=
  if cs.head? = some '-' then parseUnsigned true cs.tail else parseUnsigned false cs

/-- What can follow a number token: nothing that would make it longer. -/
def Follows (rest : List Char) : Prop :=
  ∀ c ∈ rest.head?, c.isDigit = false ∧ c ≠ '.' ∧ c ≠ 'e' ∧ c ≠ 'E'

/-- A text that starts with no digit. -/
def NoDigit (rest : List Char) : Prop := ∀ c ∈ rest.head?, c.isDigit = false

theorem takeWhile_digits {ds rest : List Char} (hds : ∀ c ∈ ds, c.isDigit = true)
    (hrest : NoDigit rest) : (ds ++ rest).takeWhile Char.isDigit = ds ∧
      (ds ++ rest).dropWhile Char.isDigit = rest := by
  have hnil : rest.takeWhile Char.isDigit = [] ∧ rest.dropWhile Char.isDigit = rest := by
    cases rest with
    | nil => simp
    | cons c cs =>
      have hc : c.isDigit = false := hrest c rfl
      simp [hc]
  rw [List.takeWhile_append_of_pos hds, List.dropWhile_append_of_pos hds, hnil.1, hnil.2]
  simp

theorem parseDigits_digitsChars (ds : Digits) {rest : List Char} (hrest : NoDigit rest) :
    parseDigits (digitsChars ds ++ rest) = some (ds, rest) := by
  have hds : ∀ c ∈ digitsChars ds, c.isDigit = true := by
    intro c hc
    obtain ⟨d, -, rfl⟩ := List.mem_map.1 hc
    exact isDigit_digitChar d
  obtain ⟨htake, hdrop⟩ := takeWhile_digits hds hrest
  have hne : digitsChars ds ≠ [] := by simpa [digitsChars] using ds.2
  have hback : (digitsChars ds).map digitOf = ds.1 := by
    simp [digitsChars, Function.comp_def, digitOf_digitChar]
  unfold parseDigits
  simp only [htake, hdrop, hback, dif_pos hne]

theorem head?_digitsChars (ds : Digits) (rest : List Char) :
    ∃ d, (digitsChars ds ++ rest).head? = some (digitChar d) := by
  obtain ⟨ds, hne⟩ := ds
  cases ds with
  | nil => exact absurd rfl hne
  | cons d ds => exact ⟨d, rfl⟩

theorem parseSign_signChars (sign : Option Bool) (ds : Digits) (rest : List Char) :
    parseSign (signChars sign ++ (digitsChars ds ++ rest)) = (sign, digitsChars ds ++ rest) := by
  cases sign with
  | none =>
    obtain ⟨d, hd⟩ := head?_digitsChars ds rest
    have hne : ∀ d, digitChar d ≠ '-' ∧ digitChar d ≠ '+' := by decide
    simp [parseSign, signChars, hd, hne d]
  | some neg => cases neg <;> simp [parseSign, signChars]

theorem parseExp_expChars (e : Option JsonExponent) {rest : List Char} (hrest : Follows rest) :
    parseExp (expChars e ++ rest) = some (e, rest) := by
  cases e with
  | none =>
    have he : rest.head? ≠ some 'e' := fun h => (hrest 'e' h).2.2.1 rfl
    have hE : rest.head? ≠ some 'E' := fun h => (hrest 'E' h).2.2.2 rfl
    simp [parseExp, expChars, he, hE]
  | some e =>
    have hnodigit : NoDigit rest := fun c hc => (hrest c hc).1
    have hdigits := parseDigits_digitsChars e.digits hnodigit
    have hsign := parseSign_signChars e.sign e.digits rest
    obtain ⟨upper, sign, digits⟩ := e
    cases upper <;> simp [parseExp, expChars, hsign, hdigits]

theorem noDigit_expChars (e : Option JsonExponent) {rest : List Char} (hrest : Follows rest) :
    NoDigit (expChars e ++ rest) ∧ (expChars e ++ rest).head? ≠ some '.' := by
  cases e with
  | none => exact ⟨fun c hc => (hrest c hc).1, fun h => (hrest '.' h).2.1 rfl⟩
  | some e =>
    obtain ⟨upper, sign, digits⟩ := e
    cases upper <;> simp [NoDigit, expChars]

theorem parseFrac_fracChars (f : Option Digits) {cs : List Char} (hcs : NoDigit cs)
    (hdot : cs.head? ≠ some '.') : parseFrac (fracChars f ++ cs) = some (f, cs) := by
  cases f with
  | none => simp [parseFrac, fracChars, hdot]
  | some ds => simp [parseFrac, fracChars, parseDigits_digitsChars ds hcs]

theorem noDigit_fracChars (f : Option Digits) {cs : List Char} (hcs : NoDigit cs) :
    NoDigit (fracChars f ++ cs) := by
  cases f with
  | none => exact hcs
  | some ds => simp [NoDigit, fracChars]

theorem isDigit_of_mem_toDigits {n : ℕ} : ∀ c ∈ Nat.toDigits 10 n, c.isDigit = true :=
  fun _ hc => Nat.isDigit_of_mem_toDigits (by decide) (by decide) hc

/-- What holds of digits, signs, the point and the exponent marks holds of every character of a
number token. -/
theorem forall_mem_numberChars {P : Char → Prop} (hdigit : ∀ c, c.isDigit = true → P c)
    (hmarks : P '-' ∧ P '+' ∧ P '.' ∧ P 'e' ∧ P 'E') (n : JsonNumber) : ∀ c ∈ numberChars n, P c := by
  obtain ⟨hminus, hplus, hpoint, hlower, hupper⟩ := hmarks
  have hdigits : ∀ ds : Digits, ∀ c ∈ digitsChars ds, P c := by
    intro ds c hc
    obtain ⟨d, -, rfl⟩ := List.mem_map.1 hc
    exact hdigit _ (isDigit_digitChar d)
  have hfrac : ∀ c ∈ fracChars n.frac, P c := by
    cases n.frac with
    | none => simp [fracChars]
    | some ds => simpa [fracChars] using ⟨hpoint, hdigits ds⟩
  have hexp : ∀ c ∈ expChars n.exp, P c := by
    cases n.exp with
    | none => simp [expChars]
    | some e =>
      obtain ⟨upper, sign, digits⟩ := e
      have hsign : ∀ c ∈ signChars sign, P c := by
        rcases sign with _ | _ | _ <;> simp [signChars, hminus, hplus]
      intro c hc
      simp only [expChars, List.mem_cons, List.mem_append] at hc
      rcases hc with rfl | hc | hc
      · cases upper
        · exact hlower
        · exact hupper
      · exact hsign c hc
      · exact hdigits digits c hc
  intro c hc
  simp only [numberChars, List.mem_append] at hc
  rcases hc with hc | hc | hc | hc
  · cases h : n.neg <;> simp [h] at hc
    exact hc ▸ hminus
  · exact hdigit c (isDigit_of_mem_toDigits c hc)
  · exact hfrac c hc
  · exact hexp c hc

theorem le_of_isSome_hexVal {c : Char} (h : (hexVal c).isSome) : ' ' ≤ c := by
  unfold hexVal at h
  split_ifs at h with h1 h2 h3
  · exact Char.le_trans (by decide) h1.1
  · exact Char.le_trans (by decide) h2.1
  · exact Char.le_trans (by decide) h3.1
  · cases h

/-- No control character stands in a string token. -/
theorem le_of_mem_partsChars (ps : List StrPart) : ∀ c ∈ partsChars ps, ' ' ≤ c := by
  have hpart : ∀ p : StrPart, ∀ c ∈ partChars p, ' ' ≤ c := by
    intro p c hc
    cases p with
    | plain d hd =>
      simp only [partChars, List.mem_singleton] at hc
      simp only [isPlain, Bool.and_eq_true, decide_eq_true_eq] at hd
      exact hc ▸ hd.2
    | escape d hd =>
      simp only [partChars, List.mem_cons, List.not_mem_nil, or_false] at hc
      rcases hc with rfl | rfl
      · decide
      · unfold unescape at hd
        split_ifs at hd with h1 h2 h3 h4 h5 h6
        · rcases h1 with rfl | rfl | rfl <;> decide
        all_goals first | (subst c; decide) | cases hd
    | unicode a b d e h =>
      obtain ⟨u, hu⟩ := Option.isSome_iff_exists.1 h
      obtain ⟨x, hx, hu⟩ := Option.bind_eq_some_iff.1 hu
      obtain ⟨y, hy, hu⟩ := Option.bind_eq_some_iff.1 hu
      obtain ⟨z, hz, hu⟩ := Option.bind_eq_some_iff.1 hu
      obtain ⟨w, hw, -⟩ := Option.bind_eq_some_iff.1 hu
      have hsome : ∀ {d : Char} {k : ℕ}, hexVal d = some k → ' ' ≤ d := fun hd =>
        le_of_isSome_hexVal (by rw [hd]; rfl)
      simp only [partChars, List.mem_cons, List.not_mem_nil, or_false] at hc
      rcases hc with rfl | rfl | rfl | rfl | rfl | rfl
      · decide
      · decide
      · exact hsome hx
      · exact hsome hy
      · exact hsome hz
      · exact hsome hw
  induction ps with
  | nil => simp [partsChars]
  | cons p ps ih =>
    intro c hc
    rcases List.mem_append.1 hc with hc | hc
    · exact hpart p c hc
    · exact ih c hc

/-- Only zero starts with a zero. -/
theorem head?_toDigits (n : ℕ) :
    (Nat.toDigits 10 n).head? = some '0' → Nat.toDigits 10 n = ['0'] := by
  induction n using Nat.strong_induction_on with
  | _ n ih =>
    rw [Nat.toDigits_eq_if (by decide)]
    split_ifs with h
    · have hsmall : ∀ k, k < 10 → Nat.digitChar k = '0' → k = 0 := by decide
      intro hhead
      have hz := hsmall n h (by simpa using hhead)
      subst hz
      rfl
    · intro hhead
      have hne : Nat.toDigits 10 (n / 10) ≠ [] := Nat.toDigits_ne_nil
      rw [List.head?_append_of_ne_nil _ hne] at hhead
      have hz := ih (n / 10) (Nat.div_lt_self (by omega) (by decide)) hhead
      have hval := congrArg (fun l => Nat.ofDigitChars 10 l 0) hz
      rw [Nat.ofDigitChars_ten_toDigits] at hval
      have : n / 10 = 0 := hval
      omega

theorem head?_numberChars (n : JsonNumber) (rest : List Char) :
    ∃ c, (numberChars n ++ rest).head? = some c ∧ (c.isDigit = true ∨ c = '-') := by
  unfold numberChars
  by_cases hneg : n.neg = true
  · exact ⟨'-', by simp [hneg], Or.inr rfl⟩
  · obtain ⟨c, cs, hcs⟩ := List.exists_cons_of_ne_nil (Nat.toDigits_ne_nil (n := n.int) (b := 10))
    refine ⟨c, by simp [hneg, hcs], Or.inl (isDigit_of_mem_toDigits (n := n.int) c ?_)⟩
    rw [hcs]
    exact List.mem_cons_self

/-- **A number token is read back.** -/
theorem parseNumber_numberChars (n : JsonNumber) {rest : List Char} (hrest : Follows rest) :
    parseNumber (numberChars n ++ rest) = some (n, rest) := by
  obtain ⟨hexp, hdot⟩ := noDigit_expChars n.exp hrest
  have hfrac := noDigit_fracChars n.frac hexp
  obtain ⟨htake, hdrop⟩ := takeWhile_digits (isDigit_of_mem_toDigits (n := n.int)) hfrac
  -- the unsigned part, whatever the sign
  have hunsigned : ∀ neg, parseUnsigned neg
      (Nat.toDigits 10 n.int ++ (fracChars n.frac ++ (expChars n.exp ++ rest))) =
      some (⟨neg, n.int, n.frac, n.exp⟩, rest) := by
    intro neg
    have hok : ¬ (Nat.toDigits 10 n.int = [] ∨
        ((Nat.toDigits 10 n.int).head? = some '0' ∧ Nat.toDigits 10 n.int ≠ ['0'])) := by
      rintro (h | ⟨hhead, hne⟩)
      · exact Nat.toDigits_ne_nil h
      · exact hne (head?_toDigits _ hhead)
    unfold parseUnsigned
    simp only [htake, hdrop, if_neg hok, parseFrac_fracChars n.frac hexp hdot, Option.bind_some,
      parseExp_expChars n.exp hrest, Option.map_some, Nat.ofDigitChars_ten_toDigits]
  unfold parseNumber
  by_cases hneg : n.neg = true
  · have heq : numberChars n ++ rest =
        '-' :: (Nat.toDigits 10 n.int ++ (fracChars n.frac ++ (expChars n.exp ++ rest))) := by
      simp [numberChars, hneg]
    rw [heq, List.head?_cons, if_pos rfl, List.tail_cons, hunsigned, ← hneg]
  · have heq : numberChars n ++ rest =
        Nat.toDigits 10 n.int ++ (fracChars n.frac ++ (expChars n.exp ++ rest)) := by
      simp [numberChars, hneg]
    have hhead : (Nat.toDigits 10 n.int ++ (fracChars n.frac ++ (expChars n.exp ++ rest))).head? ≠
        some '-' := by
      rw [List.head?_append_of_ne_nil _ Nat.toDigits_ne_nil]
      intro h
      have := isDigit_of_mem_toDigits (n := n.int) '-' (List.mem_of_head? h)
      revert this
      decide
    rw [heq, if_neg hhead, hunsigned]
    simp only [Bool.not_eq_true] at hneg
    rw [← hneg]

/-! ### What is read is a token -/

theorem digitChar_digitOf {c : Char} (h : c.isDigit = true) : digitChar (digitOf c) = c := by
  simp only [Char.isDigit, Bool.and_eq_true, decide_eq_true_eq] at h
  have hlo : 48 ≤ c.toNat := h.1
  have hhi : c.toNat ≤ 57 := h.2
  have hsmall : ∀ k, k < 10 → digitChar (Fin.ofNat 10 k) = Char.ofNat (k + 48) := by decide
  rw [digitOf, hsmall (c.toNat - 48) (by omega), Nat.sub_add_cancel hlo, Char.ofNat_toNat]

theorem eq_of_parseDigits {cs : List Char} {ds : Digits} {rest : List Char}
    (h : parseDigits cs = some (ds, rest)) : cs = digitsChars ds ++ rest := by
  unfold parseDigits at h
  split_ifs at h with hne
  cases h
  have hback : (cs.takeWhile Char.isDigit).map (digitChar ∘ digitOf) = cs.takeWhile Char.isDigit := by
    refine (List.map_congr_left ?_).trans (List.map_id _)
    intro c hc
    exact digitChar_digitOf (List.mem_takeWhile_imp hc)
  rw [digitsChars, List.map_map, hback, List.takeWhile_append_dropWhile]

theorem cons_tail_of_head? {cs : List Char} {c : Char} (h : cs.head? = some c) :
    cs = c :: cs.tail := by
  cases cs with
  | nil => cases h
  | cons d ds =>
    obtain rfl : d = c := by simpa using h
    rfl

theorem eq_of_parseFrac {cs : List Char} {f : Option Digits} {rest : List Char}
    (h : parseFrac cs = some (f, rest)) : cs = fracChars f ++ rest := by
  unfold parseFrac at h
  split_ifs at h with hdot
  · obtain ⟨p, hp, heq⟩ := Option.map_eq_some_iff.1 h
    cases heq
    rw [cons_tail_of_head? hdot, eq_of_parseDigits hp]
    rfl
  · cases h
    rfl

theorem eq_of_parseSign (cs : List Char) :
    cs = signChars (parseSign cs).1 ++ (parseSign cs).2 := by
  unfold parseSign
  split_ifs with hminus hplus
  · exact cons_tail_of_head? hminus
  · exact cons_tail_of_head? hplus
  · rfl

theorem eq_of_parseExp {cs : List Char} {e : Option JsonExponent} {rest : List Char}
    (h : parseExp cs = some (e, rest)) : cs = expChars e ++ rest := by
  unfold parseExp at h
  split_ifs at h with hexp
  · obtain ⟨p, hp, heq⟩ := Option.map_eq_some_iff.1 h
    cases heq
    have htail : cs.tail = signChars (parseSign cs.tail).1 ++ (digitsChars p.1 ++ p.2) := by
      rw [← eq_of_parseDigits hp]
      exact eq_of_parseSign cs.tail
    rcases hexp with hexp | hexp
    · conv_lhs => rw [cons_tail_of_head? hexp, htail]
      simp [expChars, hexp]
    · conv_lhs => rw [cons_tail_of_head? hexp, htail]
      simp [expChars, hexp]
  · cases h
    rfl

theorem ofDigitChars_pos {ds : List Char} (hne : ds ≠ []) (hds : ∀ c ∈ ds, c.isDigit = true)
    (hzero : ds.head? ≠ some '0') : 0 < Nat.ofDigitChars 10 ds 0 := by
  cases ds with
  | nil => exact absurd rfl hne
  | cons c cs =>
    have hc := hds c List.mem_cons_self
    simp only [Char.isDigit, Bool.and_eq_true, decide_eq_true_eq] at hc
    have hlo : 48 ≤ c.toNat := hc.1
    have hval : c.toNat ≠ 48 := by
      intro h48
      refine hzero ?_
      rw [List.head?_cons, ← Char.ofNat_toNat c, h48]
    rw [Nat.ofDigitChars_cons, Nat.ofDigitChars_eq_ofDigitChars_zero]
    have hpow : 0 < 10 ^ cs.length := Nat.pow_pos (by decide)
    have hd : 0 < 10 * 0 + (c.toNat - '0'.toNat) := by
      show 0 < 10 * 0 + (c.toNat - 48)
      omega
    have := Nat.mul_pos hpow hd
    omega

/-- Digits without a leading zero are those of the number they denote. -/
theorem toDigits_ofDigitChars {ds : List Char} (hne : ds ≠ []) (hds : ∀ c ∈ ds, c.isDigit = true)
    (hzero : ds.head? = some '0' → ds = ['0']) :
    Nat.toDigits 10 (Nat.ofDigitChars 10 ds 0) = ds := by
  -- induction from the right: the last digit is the remainder
  induction ds using List.reverseRecOn with
  | nil => exact absurd rfl hne
  | append_singleton ds c ih =>
    have hc := hds c (by simp)
    have hlast : digitChar (digitOf c) = c := digitChar_digitOf hc
    simp only [Char.isDigit, Bool.and_eq_true, decide_eq_true_eq] at hc
    have hlo : 48 ≤ c.toNat := hc.1
    have hhi : c.toNat ≤ 57 := hc.2
    have hval : Nat.ofDigitChars 10 (ds ++ [c]) 0 =
        10 * Nat.ofDigitChars 10 ds 0 + (c.toNat - 48) := by
      rw [Nat.ofDigitChars_append, Nat.ofDigitChars_cons, Nat.ofDigitChars_nil]
      rfl
    have hdigit : Nat.digitChar (c.toNat - 48) = c := by
      have hmod : (c.toNat - 48) % 10 = c.toNat - 48 := by omega
      calc Nat.digitChar (c.toNat - 48) = Nat.digitChar ((c.toNat - 48) % 10) := by rw [hmod]
        _ = c := hlast
    have hsingle : Nat.toDigits 10 (c.toNat - 48) = [c] := by
      rw [Nat.toDigits_of_lt_base (by omega), hdigit]
    rw [hval]
    by_cases hnil : ds = []
    · subst hnil
      rw [Nat.ofDigitChars_nil, Nat.mul_zero, Nat.zero_add, hsingle]
      rfl
    · have hhead : (ds ++ [c]).head? = ds.head? := List.head?_append_of_ne_nil _ hnil
      have hzero' : ds.head? ≠ some '0' := by
        intro h0
        have hlen := congrArg List.length (hzero (hhead.trans h0))
        simp at hlen
        exact hnil hlen
      have hpos := ofDigitChars_pos hnil (fun d hd => hds d (by simp [hd])) hzero'
      rw [← Nat.toDigits_append_toDigits (by decide) hpos (by omega), hsingle,
        ih hnil (fun d hd => hds d (by simp [hd])) fun h0 => absurd h0 hzero']

/-- What `parseNumber` reads is the token in front of the rest. -/
theorem eq_of_parseNumber {cs : List Char} {n : JsonNumber} {rest : List Char}
    (h : parseNumber cs = some (n, rest)) : cs = numberChars n ++ rest := by
  have hunsigned : ∀ {neg cs}, parseUnsigned neg cs = some (n, rest) → n.neg = neg ∧
      cs = Nat.toDigits 10 n.int ++ (fracChars n.frac ++ (expChars n.exp ++ rest)) := by
    intro neg cs h
    unfold parseUnsigned at h
    simp only at h
    split_ifs at h with hbad
    simp only [not_or, not_and, not_not] at hbad
    obtain ⟨f, hf, h⟩ := Option.bind_eq_some_iff.1 h
    obtain ⟨e, he, heq⟩ := Option.map_eq_some_iff.1 h
    cases heq
    have hdigits := toDigits_ofDigitChars hbad.1 (fun c hc => List.mem_takeWhile_imp hc) hbad.2
    refine ⟨rfl, ?_⟩
    rw [hdigits, ← eq_of_parseExp he, ← eq_of_parseFrac hf, List.takeWhile_append_dropWhile]
  unfold parseNumber at h
  split_ifs at h with hminus
  · obtain ⟨hneg, hcs⟩ := hunsigned h
    rw [cons_tail_of_head? hminus, hcs]
    simp [numberChars, hneg]
  · obtain ⟨hneg, hcs⟩ := hunsigned h
    rw [hcs]
    simp [numberChars, hneg]

end JsonToken
