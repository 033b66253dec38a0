import Mathlib.Data.List.DropRight
import Mathlib.Algebra.Order.Ring.Int

/-!
# Methods of Python strings

`strip`, `lower`, `split`, `partition` and `int()` of a text. The classes of white space and of
decimal digits are those of the Unicode character database. `lower` changes ASCII letters only:
no other letter has a lower case that is made of ASCII letters, but for the Kelvin sign.

* `PyText.strip`, `PyText.lower`, `PyText.partition`;
* `PyText.toInt`: `int(text)`, with a sign, underscores between digits, white space around the
  number and the limit on its length;
* `PyText.strip_append_cons`, `PyText.mem_strip`: around a character that is no white space, `strip`
  works on both sides on its own;
* `PyText.partition_append_cons`: the parts around the first separator;
* `PyText.splitStrip`: the elements of a list with a separator, stripped, and how they are the same after
  `strip`, `lower` and `join`.
-/

namespace PyText

/-- `str.isspace` of a character. -/
def isSpace (c : Char) : Bool :=
  let n := c.toNat
  (9 ≤ n && n ≤ 13) || (28 ≤ n && n ≤ 32) || n == 0x85 || n == 0xA0 || n == 0x1680 ||
    (0x2000 ≤ n && n ≤ 0x200A) || n == 0x2028 || n == 0x2029 || n == 0x202F || n == 0x205F ||
    n == 0x3000

/-- The white space that `int` leaves out, which is not quite that of `str.isspace`. -/
def isIntSpace (c : Char) : Bool := isSpace c && !(28 ≤ c.toNat && c.toNat ≤ 31)

/-- Leave out what satisfies `p` at both ends. -/
def trim (p : Char → Bool) (s : List Char) : List Char := (s.dropWhile p).rdropWhile p

def strip (s : List Char) : List Char := trim isSpace s

def lower (s : List Char) : List Char := s.map Char.toLower

/-- The parts before and after the first separator. -/
def partition (sep : Char) (s : List Char) : List Char × List Char :=
  (s.takeWhile (· != sep), (s.dropWhile (· != sep)).tail)

/-- The zeros of the decimal digits. The other nine follow each of them. -/
def decimalZeros : List ℕ :=
  [0x30, 0x660, 0x6F0, 0x7C0, 0x966, 0x9E6, 0xA66, 0xAE6, 0xB66, 0xBE6, 0xC66, 0xCE6, 0xD66, 0xDE6,
    0xE50, 0xED0, 0xF20, 0x1040, 0x1090, 0x17E0, 0x1810, 0x1946, 0x19D0, 0x1A80, 0x1A90, 0x1B50,
    0x1BB0, 0x1C40, 0x1C50, 0xA620, 0xA8D0, 0xA900, 0xA9D0, 0xA9F0, 0xAA50, 0xABF0, 0xFF10, 0x104A0,
    0x10D30, 0x11066, 0x110F0, 0x11136, 0x111D0, 0x112F0, 0x11450, 0x114D0, 0x11650, 0x116C0,
    0x11730, 0x118E0, 0x11950, 0x11C50, 0x11D50, 0x11DA0, 0x16A60, 0x16AC0, 0x16B50, 0x1D7CE,
    0x1D7D8, 0x1D7E2, 0x1D7EC, 0x1D7F6, 0x1E140, 0x1E2F0, 0x1E950, 0x1FBF0]

/-- The value of a decimal digit. -/
def decimal (c : Char) : Option ℕ :=
  (decimalZeros.find? fun z => z ≤ c.toNat && c.toNat ≤ z + 9).map (c.toNat - ·)

/-- One digit or more, with single underscores between them. -/
def digits : List Char → Option (List ℕ)
  | [] => none
  | [c] => (decimal c).map ([·])
  | c :: '_' :: s => do
    let n ← decimal c
    let ns ← digits s
    some (n :: ns)
  | c :: s => do
    let n ← decimal c
    let ns ← digits s
    some (n :: ns)

/-- The most digits that `int` reads. -/
def MAX_STR_DIGITS : ℕ := 4300

/-- The number without its sign. -/
def toNat (s : List Char) : Option ℕ := do
  let ns ← digits s
  if ns.length ≤ MAX_STR_DIGITS then some (ns.foldl (fun n d => 10 * n + d) 0) else none

/-- `int(s)`; a `ValueError` is `none`. -/
def toInt (s : List Char) : Option ℤ :=
  match trim isIntSpace s with
  | '-' :: s => (toNat s).map fun n => -(n : ℤ)
  | '+' :: s => (toNat s).map (↑)
  | s => (toNat s).map (↑)

/-! ### Stripping and splitting -/

section Strip

variable {c : Char} {s t : List Char}

theorem dropWhile_append_cons {p : Char → Bool} (hc : p c = false) (s t : List Char) :
    (s ++ c :: t).dropWhile p = s.dropWhile p ++ c :: t := by
  rw [List.dropWhile_append]
  split_ifs with hempty
  · rw [List.isEmpty_iff.1 hempty, List.dropWhile_cons_of_neg (by simp [hc]), List.nil_append]
  · rfl

theorem rdropWhile_append_cons {p : Char → Bool} (hc : p c = false) (s t : List Char) :
    (s ++ c :: t).rdropWhile p = s ++ c :: t.rdropWhile p := by
  have hreverse : (s ++ c :: t).reverse = t.reverse ++ c :: s.reverse := by simp
  rw [List.rdropWhile, hreverse, dropWhile_append_cons hc, List.rdropWhile]
  simp

/-- Around a character that stays, both ends are stripped on their own. -/
theorem strip_append_cons (hc : isSpace c = false) (s t : List Char) :
    strip (s ++ c :: t) = s.dropWhile isSpace ++ c :: t.rdropWhile isSpace := by
  rw [strip, trim, dropWhile_append_cons hc, rdropWhile_append_cons hc]

theorem exists_append_cons_of_mem {p : Char → Bool} (h : ¬∀ x ∈ s, p x = true) :
    ∃ a d b, s = a ++ d :: b ∧ p d = false := by
  push Not at h
  obtain ⟨d, hd, hp⟩ := h
  obtain ⟨a, b, rfl⟩ := List.append_of_mem hd
  exact ⟨a, d, b, rfl, Bool.not_eq_true _ ▸ hp⟩

theorem strip_of_forall (h : ∀ x ∈ s, isSpace x = true) : strip s = [] := by
  have hdrop : s.dropWhile isSpace = [] := List.dropWhile_eq_nil_iff.2 h
  rw [strip, trim, hdrop]
  rfl

@[simp] theorem strip_dropWhile (s : List Char) : strip (s.dropWhile isSpace) = strip s := by
  rw [strip, trim, List.dropWhile_idempotent]
  rfl

@[simp] theorem strip_rdropWhile (s : List Char) : strip (s.rdropWhile isSpace) = strip s := by
  by_cases hall : ∀ x ∈ s, isSpace x = true
  · rw [strip_of_forall hall, List.rdropWhile_eq_nil_iff.2 hall]
    rfl
  · obtain ⟨a, d, b, rfl, hd⟩ := exists_append_cons_of_mem hall
    rw [rdropWhile_append_cons hd, strip_append_cons hd, strip_append_cons hd,
      List.rdropWhile_idempotent]

@[simp] theorem strip_strip (s : List Char) : strip (strip s) = strip s := by
  have htrim : strip s = (s.dropWhile isSpace).rdropWhile isSpace := rfl
  rw [htrim, strip_rdropWhile, strip_dropWhile]
  exact htrim

theorem strip_eq_self {s : List Char} (h : ∀ c ∈ s, isSpace c = false) : strip s = s := by
  have hdrop : s.dropWhile isSpace = s := by
    rw [List.dropWhile_eq_self_iff]
    intro hs
    simp [h _ (List.getElem_mem hs)]
  have hrdrop : s.rdropWhile isSpace = s := by
    rw [List.rdropWhile_eq_self_iff]
    intro hs
    simp [h _ (List.getLast_mem hs)]
  rw [strip, trim, hdrop, hrdrop]

theorem mem_of_mem_strip (h : c ∈ strip s) : c ∈ s :=
  (List.dropWhile_suffix _).mem ((List.rdropWhile_prefix _ _).mem h)

/-- A character that is no white space is kept. -/
theorem mem_strip (hc : isSpace c = false) : c ∈ strip s ↔ c ∈ s := by
  refine ⟨mem_of_mem_strip, fun h => ?_⟩
  obtain ⟨a, b, rfl⟩ := List.append_of_mem h
  rw [strip_append_cons hc]
  exact List.mem_append_right _ List.mem_cons_self

/-- The parts around the first separator. -/
theorem partition_append_cons (hc : c ∉ s) : partition c (s ++ c :: t) = (s, t) := by
  have hkeep : ∀ x ∈ s, (x != c) = true := by
    intro x hx
    rw [bne_iff_ne]
    rintro rfl
    exact hc hx
  have hstop : (c != c) = false := by simp
  rw [partition, List.takeWhile_append_of_pos hkeep, List.dropWhile_append_of_pos hkeep,
    List.takeWhile_cons_of_neg (by simp), List.dropWhile_cons_of_neg (by simp)]
  simp

theorem mem_intercalate {sep : List Char} {parts : List (List Char)} (ht : t ∈ parts) (hc : c ∈ t) :
    c ∈ sep.intercalate parts := by
  induction parts with
  | nil => cases ht
  | cons u parts ih =>
    by_cases hnil : parts = []
    · subst hnil
      rw [List.mem_singleton] at ht
      subst ht
      simpa using hc
    · rw [List.intercalate_cons_of_ne_nil hnil]
      rcases List.mem_cons.1 ht with rfl | ht
      · simp [hc]
      · simp [ih ht]

/-- The parts between separators are made of the text. -/
theorem mem_of_mem_splitOn {sep : Char} (ht : t ∈ s.splitOn sep) (hc : c ∈ t) : c ∈ s := by
  have hjoin : [sep].intercalate (s.splitOn sep) = s := List.intercalate_splitOn sep
  rw [← hjoin]
  exact mem_intercalate ht hc

end Strip

theorem lower_eq_self {s : List Char} (h : ∀ c ∈ s, c.toLower = c) : lower s = s := by
  rw [lower, List.map_congr_left h, List.map_id']

theorem isUpper_toLower (c : Char) : c.toLower.isUpper = false := by
  delta Char.isUpper Char.toLower
  split <;> grind [UInt32.toNat_add, Char.toNat_val]

theorem toLower_toLower (c : Char) : c.toLower.toLower = c.toLower := by
  have hupper : ¬c.toLower.isUpper := by
    rw [isUpper_toLower]
    exact Bool.false_ne_true
  delta Char.isUpper at hupper
  rw [decide_eq_true_eq] at hupper
  exact dif_neg hupper

theorem toLower_of_mem_lower {c : Char} {s : List Char} (h : c ∈ lower s) : c.toLower = c := by
  obtain ⟨d, -, rfl⟩ := List.mem_map.1 h
  exact toLower_toLower d

/-- Only the upper case letters of ASCII change. -/
theorem toLower_cases (c : Char) :
    c.toLower = c ∨ (65 ≤ c.toNat ∧ c.toNat ≤ 90 ∧ c.toLower.toNat = c.toNat + 32) := by
  delta Char.toLower
  split
  · next h =>
    have hlow : 65 ≤ c.toNat := UInt32.le_iff_toNat_le.1 h.1
    have hhigh : c.toNat ≤ 90 := UInt32.le_iff_toNat_le.1 h.2
    refine .inr ⟨hlow, hhigh, ?_⟩
    show (c.val + 32).toNat = c.val.toNat + 32
    rw [UInt32.toNat_add]
    exact Nat.mod_eq_of_lt (Nat.lt_of_le_of_lt (Nat.add_le_add_right hhigh 32) (by decide))
  · exact .inl rfl

theorem isSpace_toLower (c : Char) : isSpace c.toLower = isSpace c := by
  obtain hsame | ⟨hlow, hhigh, hcode⟩ := toLower_cases c
  · rw [hsame]
  · simp only [isSpace, hcode]
    grind

theorem lower_lower (s : List Char) : lower (lower s) = lower s :=
  lower_eq_self fun _ => toLower_of_mem_lower

theorem strip_lower (s : List Char) : strip (lower s) = lower (strip s) := by
  have hspace : isSpace ∘ Char.toLower = isSpace := funext isSpace_toLower
  simp only [strip, trim, lower, List.rdropWhile, List.dropWhile_map, ← List.map_reverse, hspace]

/-! ### Lists with a separator -/

section Elements

variable {sep : Char} {s : List Char}

/-- The elements of a list, stripped. -/
def splitStrip (sep : Char) (s : List Char) : List (List Char) := (s.splitOn sep).map strip

theorem splitStrip_of_notMem (h : sep ∉ s) : splitStrip sep s = [strip s] := by
  rw [splitStrip, List.splitOn_eq_singleton h, List.map_singleton]

theorem splitStrip_append_cons (s t : List Char) :
    splitStrip sep (s ++ sep :: t) = splitStrip sep s ++ splitStrip sep t := by
  rw [splitStrip, List.splitOn_append_cons_self, List.map_append]
  rfl

theorem splitStrip_intercalate {xs : List (List Char)} (h : xs ≠ []) :
    splitStrip sep ([sep].intercalate xs) = xs.flatMap (splitStrip sep) := by
  induction xs with
  | nil => exact absurd rfl h
  | cons x xs ih =>
    by_cases hnil : xs = []
    · simp [hnil]
    · rw [List.intercalate_cons_of_ne_nil hnil, List.append_assoc, List.singleton_append,
        splitStrip_append_cons, ih hnil, List.flatMap_cons]

/-- White space around a list is around its first and last elements. -/
theorem splitStrip_strip (hsep : isSpace sep = false) (s : List Char) :
    splitStrip sep (strip s) = splitStrip sep s := by
  suffices hdrop : ∀ s, splitStrip sep (s.dropWhile isSpace) = splitStrip sep s ∧
      splitStrip sep (s.rdropWhile isSpace) = splitStrip sep s by
    rw [strip, trim, (hdrop _).2, (hdrop _).1]
  intro s
  induction hn : s.length using Nat.strong_induction_on generalizing s with
  | _ n ih =>
  by_cases hmem : sep ∈ s
  · obtain ⟨a, b, rfl⟩ := List.append_of_mem hmem
    have ha := (ih a.length (by simp at hn; omega) a rfl).1
    have hb := (ih b.length (by simp at hn; omega) b rfl).2
    rw [dropWhile_append_cons hsep, rdropWhile_append_cons hsep]
    simp only [splitStrip_append_cons, ha, hb, and_self]
  · have hleft : sep ∉ s.dropWhile isSpace := fun h => hmem ((List.dropWhile_suffix _).mem h)
    have hright : sep ∉ s.rdropWhile isSpace := fun h => hmem ((List.rdropWhile_prefix _ _).mem h)
    rw [splitStrip_of_notMem hleft, splitStrip_of_notMem hright, splitStrip_of_notMem hmem,
      strip_dropWhile, strip_rdropWhile]
    exact ⟨rfl, rfl⟩

theorem splitStrip_lower (hsep : ∀ c : Char, c.toLower = sep ↔ c = sep) (s : List Char) :
    splitStrip sep (lower s) = (splitStrip sep s).map lower := by
  induction hn : s.length using Nat.strong_induction_on generalizing s with
  | _ n ih =>
  by_cases hmem : sep ∈ s
  · obtain ⟨a, b, rfl⟩ := List.append_of_mem hmem
    have ha := ih a.length (by simp at hn; omega) a rfl
    have hb := ih b.length (by simp at hn; omega) b rfl
    have hlower : lower (a ++ sep :: b) = lower a ++ sep :: lower b := by
      simp [lower, (hsep sep).2 rfl]
    rw [hlower, splitStrip_append_cons, splitStrip_append_cons, ha, hb, List.map_append]
  · have hlower : sep ∉ lower s := by
      intro h
      obtain ⟨d, hd, hdsep⟩ := List.mem_map.1 h
      exact hmem ((hsep d).1 hdsep ▸ hd)
    rw [splitStrip_of_notMem hlower, splitStrip_of_notMem hmem, strip_lower, List.map_singleton]

theorem dropWhile_of_strip (h : strip s = s) : s.dropWhile isSpace = s := by
  refine (List.dropWhile_suffix _).eq_of_length_le ?_
  have hlen := congrArg List.length h
  exact hlen.symm.le.trans (List.rdropWhile_prefix _ _).length_le

theorem rdropWhile_of_strip (h : strip s = s) : s.rdropWhile isSpace = s := by
  rw [strip, trim, dropWhile_of_strip h] at h
  exact h

/-- Stripped elements make a stripped list. -/
theorem strip_intercalate (hsep : isSpace sep = false) {xs : List (List Char)}
    (h : ∀ x ∈ xs, strip x = x) : strip ([sep].intercalate xs) = [sep].intercalate xs := by
  induction xs with
  | nil => rfl
  | cons x xs ih =>
    have hx := h x List.mem_cons_self
    have hxs := ih fun y hy => h y (List.mem_cons_of_mem x hy)
    by_cases hnil : xs = []
    · subst hnil
      simpa using hx
    · rw [List.intercalate_cons_of_ne_nil hnil, List.append_assoc, List.singleton_append,
        strip_append_cons hsep, dropWhile_of_strip hx, rdropWhile_of_strip hxs]

theorem lower_intercalate (hsep : sep.toLower = sep) (xs : List (List Char)) :
    lower ([sep].intercalate xs) = [sep].intercalate (xs.map lower) := by
  induction xs with
  | nil => rfl
  | cons x xs ih =>
    by_cases hnil : xs = []
    · simp [hnil]
    · rw [List.map_cons, List.intercalate_cons_of_ne_nil hnil,
        List.intercalate_cons_of_ne_nil (by simpa using hnil), ← ih]
      simp [lower, hsep]

end Elements

example : toInt " 1_0 ".toList = some 10 ∧ toInt "1__0".toList = none := by decide +kernel

end PyText
