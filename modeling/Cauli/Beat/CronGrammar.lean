import Cauli.Beat.CronField

/-!
# The grammar of a cron field (`py/cauli/schedules.py`)

Which texts `_parse_field` accepts, and the set each of them stands for. The grammar is that of the
documentation, a comma list of six forms of elements, over any notion of a star, a value and a step
(`CronElement`); `IsStar`, `IsValue` and `IsStep` are those of the parser, which takes white space around
each of them and reads numerals by `int`.

* `parsePart_of_element`, `element_of_parsePart`: the parser of one element;
* `exists_parseParts_iff`, `mem_parseParts`: the loop over the elements;
* `parse_field_grammar`: every text. The set of an element `a/1` is left open: the parser forgets the
  step 1 and reads `a`.
-/

namespace Cauli

open PyText

/-- The five fields. -/
inductive CronField
  | minute
  | hour
  | dayOfMonth
  | month
  | dayOfWeek

namespace CronField

/-- The least value. -/
def lo : CronField → ℕ
  | minute | hour | dayOfWeek => 0
  | dayOfMonth | month => 1

/-- The greatest value. A Sunday is both 0 and 7. -/
def hi : CronField → ℕ
  | minute => 59
  | hour => 23
  | dayOfMonth => 31
  | month => 12
  | dayOfWeek => 7

/-- The names of values. -/
def names : CronField → List (List Char × ℕ)
  | minute | hour | dayOfMonth => []
  | month => MONTH_NAMES
  | dayOfWeek => DOW_NAMES

/-- `_parse_field` of a text, as the constructor of a crontab calls it. -/
def parse (f : CronField) (text : List Char) : Except CronError (Finset ℕ) :=
  parseField (.str text) f.lo f.hi f.names

end CronField

/-! ### The grammar -/

section Grammar

variable (star : List Char → Prop) (value step : List Char → ℕ → Prop) (lo hi : ℕ)

/-- The elements of a comma list, and the set each of them stands for. The dash of a range is the first
one, and so is the slash before a step. -/
inductive CronElement : List Char → Set ℕ → Prop
  /-- `*`: all of the range. -/
  | all {p : List Char} (hp : star p) : CronElement p {x | lo ≤ x ∧ x ≤ hi}
  /-- `*/s`: every `s`-th from the start of the range. -/
  | allStep {p t : List Char} {s : ℕ} (hp : star p) (ht : step t s) :
    CronElement (p ++ '/' :: t) {x | lo ≤ x ∧ x ≤ hi ∧ s ∣ x - lo}
  /-- `a`. -/
  | one {a : List Char} {v : ℕ} (hdash : '-' ∉ a) (hslash : '/' ∉ a) (ha : value a v) :
    CronElement a {v}
  /-- `a-b`. -/
  | range {a b : List Char} {v w : ℕ} (hdash : '-' ∉ a) (hslash : '/' ∉ a ++ '-' :: b)
    (ha : value a v) (hb : value b w) (hle : v ≤ w) :
    CronElement (a ++ '-' :: b) {x | v ≤ x ∧ x ≤ w}
  /-- `a-b/s`: every `s`-th of the range. -/
  | rangeStep {a b t : List Char} {v w s : ℕ} (hdash : '-' ∉ a) (hslash : '/' ∉ a ++ '-' :: b)
    (ha : value a v) (hb : value b w) (hle : v ≤ w) (ht : step t s) :
    CronElement ((a ++ '-' :: b) ++ '/' :: t) {x | v ≤ x ∧ x ≤ w ∧ s ∣ x - v}
  /-- `a/s`: every `s`-th from `a` to the top of the range. -/
  | oneStep {a t : List Char} {v s : ℕ} (hdash : '-' ∉ a) (hslash : '/' ∉ a) (ha : value a v)
    (ht : step t s) : CronElement (a ++ '/' :: t) {x | v ≤ x ∧ x ≤ hi ∧ s ∣ x - v}

end Grammar

/-- A star, with white space around it. -/
def IsStar (p : List Char) : Prop := strip p = ['*']

/-- A value of a field: one of its names, or a number within its range as `int` reads it, with white
space around it. -/
def IsValue (f : CronField) (t : List Char) (v : ℕ) : Prop :=
  (f.names.lookup (strip t) = some v ∨ toInt (strip t) = some (v : ℤ)) ∧ f.lo ≤ v ∧ v ≤ f.hi

/-- A step: a positive number as `int` reads it. -/
def IsStep (t : List Char) (s : ℕ) : Prop := toInt t = some (s : ℤ) ∧ 1 ≤ s

/-- An element as the parser takes it. -/
abbrev CronField.IsElement (f : CronField) : List Char → Set ℕ → Prop :=
  CronElement IsStar (IsValue f) IsStep f.lo f.hi

/-- The elements of a comma list. -/
def elements (text : List Char) : List (List Char) := (lower (strip text)).splitOn ','

/-- An element of the form `a/1`. -/
def IsOneStep (f : CronField) (p : List Char) : Prop :=
  ∃ a t v, p = a ++ '/' :: t ∧ '/' ∉ a ∧ '-' ∉ a ∧ IsValue f a v ∧ IsStep t 1

/-! ### Values, steps and ranges -/

variable {f : CronField} {p q t : List Char} {v w s : ℕ}

@[simp] theorem isValue_dropWhile : IsValue f (t.dropWhile isSpace) v ↔ IsValue f t v := by
  rw [IsValue, strip_dropWhile, IsValue]

@[simp] theorem isValue_rdropWhile : IsValue f (t.rdropWhile isSpace) v ↔ IsValue f t v := by
  rw [IsValue, strip_rdropWhile, IsValue]

@[simp] theorem isValue_strip : IsValue f (strip t) v ↔ IsValue f t v := by
  rw [IsValue, strip_strip, IsValue]

/-- No name is a number. -/
theorem toInt_of_lookup (h : f.names.lookup t = some v) : toInt t = none := by
  have hnames : (f.names.all fun name => (toInt name.1).isNone) = true := by
    cases f <;> rfl
  obtain ⟨l, l', hl, -⟩ := List.lookup_eq_some_iff.1 h
  have hmem : (t, v) ∈ f.names := by
    rw [hl]
    exact List.mem_append_right _ List.mem_cons_self
  exact Option.isNone_iff_eq_none.1 (List.all_eq_true.1 hnames _ hmem)

/-- The text of a star is no value. -/
theorem not_isValue_star : ¬IsValue f ['*'] v := by
  have hstrip : strip ['*'] = ['*'] := rfl
  have hname : f.names.lookup ['*'] = none := by cases f <;> rfl
  have hint : toInt ['*'] = none := rfl
  rintro ⟨h | h, -⟩
  · rw [hstrip, hname] at h
    cases h
  · rw [hstrip, hint] at h
    cases h

/-- **`_num`** reads the values of the field. -/
theorem cronNum_eq_ok_iff (hlower : ∀ c ∈ t, c.toLower = c) :
    cronNum t f.lo f.hi f.names = .ok v ↔ IsValue f t v := by
  have hstrip : lower (strip t) = strip t :=
    lower_eq_self fun c hc => hlower c (mem_of_mem_strip hc)
  have hrange : ∀ n : ℤ, (if f.lo ≤ n ∧ n ≤ f.hi then .ok n.toNat
      else .error (.outOfRange (strip t) f.lo f.hi) : Except CronError ℕ) = .ok v ↔
        n = v ∧ f.lo ≤ v ∧ v ≤ f.hi := by
    intro n
    split_ifs with hn
    · rw [Except.ok.injEq]
      omega
    · simp only [false_iff]
      omega
  unfold cronNum IsValue
  rw [hstrip]
  dsimp only
  cases hname : f.names.lookup (strip t) with
  | some n =>
    rw [toInt_of_lookup hname]
    refine (hrange n).trans ?_
    simp
  | none =>
    cases hint : toInt (strip t) with
    | none => simp [bind, Except.bind]
    | some n =>
      refine (hrange n).trans ?_
      simp

theorem mem_range'_iff (hle : v ≤ w) (hs : 1 ≤ s) (x : ℕ) :
    x ∈ List.range' v ((w - v) / s + 1) s ↔ v ≤ x ∧ x ≤ w ∧ s ∣ x - v := by
  rw [List.mem_range']
  constructor
  · rintro ⟨i, hi, rfl⟩
    have hmul : s * i ≤ w - v := by
      calc s * i ≤ s * ((w - v) / s) := Nat.mul_le_mul_left s (Nat.le_of_lt_succ hi)
        _ ≤ w - v := Nat.mul_div_le _ _
    refine ⟨Nat.le_add_right _ _, by omega, ?_⟩
    rw [Nat.add_sub_cancel_left]
    exact Nat.dvd_mul_right s i
  · rintro ⟨hvx, hxw, i, hi⟩
    refine ⟨i, ?_, by omega⟩
    have hdiv : i ≤ (w - v) / s := by
      rw [Nat.le_div_iff_mul_le (by omega), Nat.mul_comm, ← hi]
      omega
    omega

/-! ### One element -/

/-- The bounds of an element without its step. -/
def bounds (f : CronField) (part : List Char) (step : ℕ) : Except CronError (ℕ × ℕ) :=
  if part = ['*'] then .ok (f.lo, f.hi)
  else if '-' ∈ part then do
    let start ← cronNum (partition '-' part).1 f.lo f.hi f.names
    let stop ← cronNum (partition '-' part).2 f.lo f.hi f.names
    if stop < start then .error (.invertedRange part) else .ok (start, stop)
  else do
    let start ← cronNum part f.lo f.hi f.names
    .ok (start, if step ≠ 1 then f.hi else start)

theorem parsePart_eq_ok_iff {l : List ℕ} :
    parsePart p f.lo f.hi f.names = .ok l ↔
      ∃ part s v w, splitStep p = .ok (part, s) ∧ bounds f part s = .ok (v, w) ∧
        List.range' v ((w - v) / s + 1) s = l := by
  have hparse : parsePart p f.lo f.hi f.names =
      (splitStep p).bind fun r => (bounds f r.1 r.2).map fun b =>
        List.range' b.1 ((b.2 - b.1) / r.2 + 1) r.2 := by
    unfold parsePart bounds
    cases splitStep p with
    | error e => rfl
    | ok r =>
      obtain ⟨part, step⟩ := r
      simp only [bind, Except.bind]
      split_ifs with hstar hdash
      · rfl
      · cases cronNum (partition '-' part).1 f.lo f.hi f.names with
        | error e => rfl
        | ok a =>
          cases cronNum (partition '-' part).2 f.lo f.hi f.names with
          | error e => rfl
          | ok b =>
            dsimp only
            split_ifs <;> rfl
      · cases cronNum part f.lo f.hi f.names <;> rfl
      · cases cronNum part f.lo f.hi f.names <;> rfl
  rw [hparse]
  cases splitStep p with
  | error e => simp [Except.bind]
  | ok r =>
    obtain ⟨part, s⟩ := r
    cases hbounds : bounds f part s with
    | error e => simp [Except.bind, Except.map, hbounds]
    | ok b =>
      obtain ⟨v, w⟩ := b
      simp [Except.bind, Except.map, hbounds]

/-- What the bounds of an element are. -/
inductive HasBounds (f : CronField) (s : ℕ) : List Char → ℕ → ℕ → Prop
  | all {q : List Char} (hq : IsStar q) : HasBounds f s q f.lo f.hi
  | range {a b : List Char} {v w : ℕ} (hdash : '-' ∉ a) (ha : IsValue f a v) (hb : IsValue f b w)
    (hle : v ≤ w) : HasBounds f s (a ++ '-' :: b) v w
  | one {a : List Char} {v : ℕ} (hdash : '-' ∉ a) (ha : IsValue f a v) :
    HasBounds f s a v (if s ≠ 1 then f.hi else v)

theorem isSpace_dash : isSpace '-' = false := rfl

theorem bounds_star (hq : IsStar q) : bounds f (strip q) s = .ok (f.lo, f.hi) := if_pos hq

theorem bounds_range {a b : List Char} (hdash : '-' ∉ a)
    (hlower : ∀ c ∈ a ++ '-' :: b, c.toLower = c) :
    bounds f (strip (a ++ '-' :: b)) s = .ok (v, w) ↔ IsValue f a v ∧ IsValue f b w ∧ v ≤ w := by
  have hmem : '-' ∈ strip (a ++ '-' :: b) := (mem_strip isSpace_dash).2 (by simp)
  have hstar : strip (a ++ '-' :: b) ≠ ['*'] := by
    intro hstar
    rw [hstar] at hmem
    revert hmem
    decide
  have hpartition : partition '-' (strip (a ++ '-' :: b)) =
      (a.dropWhile isSpace, b.rdropWhile isSpace) := by
    rw [strip_append_cons isSpace_dash]
    exact partition_append_cons fun h => hdash ((List.dropWhile_suffix _).mem h)
  have ha : ∀ v, cronNum (a.dropWhile isSpace) f.lo f.hi f.names = .ok v ↔ IsValue f a v := by
    intro v
    refine (cronNum_eq_ok_iff fun c hc => hlower c ?_).trans isValue_dropWhile
    exact List.mem_append_left _ ((List.dropWhile_suffix _).mem hc)
  have hb : ∀ w, cronNum (b.rdropWhile isSpace) f.lo f.hi f.names = .ok w ↔ IsValue f b w := by
    intro w
    refine (cronNum_eq_ok_iff fun c hc => hlower c ?_).trans isValue_rdropWhile
    exact List.mem_append_right _ (List.mem_cons_of_mem _ ((List.rdropWhile_prefix _ _).mem hc))
  rw [bounds, if_neg hstar, if_pos hmem, hpartition, ← ha, ← hb]
  cases cronNum (a.dropWhile isSpace) f.lo f.hi f.names with
  | error e => simp [bind, Except.bind]
  | ok x =>
    cases cronNum (b.rdropWhile isSpace) f.lo f.hi f.names with
    | error e => simp [bind, Except.bind]
    | ok y =>
      simp only [bind, Except.bind]
      split_ifs with hlt
      · simp only [Except.ok.injEq, false_iff]
        omega
      · simp only [Except.ok.injEq, Prod.mk.injEq]
        omega

theorem bounds_one (hdash : '-' ∉ q) (hstar : ¬IsStar q) (hlower : ∀ c ∈ q, c.toLower = c) :
    bounds f (strip q) s = .ok (v, w) ↔ IsValue f q v ∧ w = if s ≠ 1 then f.hi else v := by
  have hmem : '-' ∉ strip q := fun h => hdash (mem_of_mem_strip h)
  have hstar : strip q ≠ ['*'] := hstar
  have hq : ∀ v, cronNum (strip q) f.lo f.hi f.names = .ok v ↔ IsValue f q v :=
    fun v => (cronNum_eq_ok_iff fun c hc => hlower c (mem_of_mem_strip hc)).trans isValue_strip
  rw [bounds, if_neg hstar, if_neg hmem, ← hq]
  cases cronNum (strip q) f.lo f.hi f.names with
  | error e => simp [bind, Except.bind]
  | ok x =>
    simp only [bind, Except.bind, Except.ok.injEq, Prod.mk.injEq]
    constructor
    · rintro ⟨rfl, rfl⟩
      exact ⟨rfl, rfl⟩
    · rintro ⟨rfl, rfl⟩
      exact ⟨rfl, rfl⟩

/-- **The bounds** of an element without its step. -/
theorem bounds_strip_eq_ok_iff (hlower : ∀ c ∈ q, c.toLower = c) :
    bounds f (strip q) s = .ok (v, w) ↔ HasBounds f s q v w := by
  constructor
  · intro h
    by_cases hstar : IsStar q
    · rw [bounds_star hstar] at h
      cases h
      exact .all hstar
    · by_cases hdash : '-' ∈ q
      · obtain ⟨a, b, rfl, ha⟩ := List.eq_append_cons_of_mem hdash
        obtain ⟨hv, hw, hle⟩ := (bounds_range ha hlower).1 h
        exact .range ha hv hw hle
      · obtain ⟨hv, rfl⟩ := (bounds_one hdash hstar hlower).1 h
        exact .one hdash hv
  · intro h
    cases h with
    | all hstar => exact bounds_star hstar
    | range hdash ha hb hle => exact (bounds_range hdash hlower).2 ⟨ha, hb, hle⟩
    | one hdash hv =>
      have hstar : ¬IsStar q := fun hstar => not_isValue_star (hstar ▸ isValue_strip.2 hv)
      exact (bounds_one hdash hstar hlower).2 ⟨hv, rfl⟩

theorem HasBounds.le (h : HasBounds f s q v w) : v ≤ w := by
  cases h with
  | all hstar => cases f <;> decide
  | range hdash ha hb hle => exact hle
  | one hdash hv =>
    split_ifs
    · exact hv.2.2
    · exact le_rfl

theorem splitStep_of_notMem (hslash : '/' ∉ p) : splitStep p = .ok (p, 1) := if_neg hslash

theorem splitStep_append (hslash : '/' ∉ q) {r : List Char × ℕ} :
    splitStep (q ++ '/' :: t) = .ok r ↔ r.1 = strip q ∧ IsStep t r.2 := by
  obtain ⟨part, s⟩ := r
  rw [splitStep, if_pos (by simp), partition_append_cons hslash]
  unfold IsStep
  cases hstep : toInt t with
  | none => simp [hstep]
  | some n =>
    simp only [hstep]
    split_ifs with hlt
    · simp only [false_iff, Option.some.injEq]
      omega
    · simp only [Except.ok.injEq, Prod.mk.injEq, Option.some.injEq]
      constructor
      · rintro ⟨rfl, rfl⟩
        exact ⟨rfl, by omega, by omega⟩
      · rintro ⟨rfl, hn, -⟩
        exact ⟨rfl, by omega⟩

/-- An element without a step. -/
theorem parsePart_of_notMem (hstrip : strip p = p) (hslash : '/' ∉ p)
    (hlower : ∀ c ∈ p, c.toLower = c) {l : List ℕ} :
    parsePart p f.lo f.hi f.names = .ok l ↔
      ∃ v w, HasBounds f 1 p v w ∧ List.range' v ((w - v) / 1 + 1) 1 = l := by
  rw [parsePart_eq_ok_iff]
  constructor
  · rintro ⟨part, s, v, w, hsplit, hbounds, hl⟩
    rw [splitStep_of_notMem hslash] at hsplit
    cases hsplit
    rw [← hstrip] at hbounds
    exact ⟨v, w, (bounds_strip_eq_ok_iff hlower).1 hbounds, hl⟩
  · rintro ⟨v, w, hbounds, hl⟩
    refine ⟨p, 1, v, w, splitStep_of_notMem hslash, ?_, hl⟩
    rw [← bounds_strip_eq_ok_iff hlower, hstrip] at hbounds
    exact hbounds

/-- An element with a step. -/
theorem parsePart_append (hslash : '/' ∉ q) (hlower : ∀ c ∈ q, c.toLower = c) {l : List ℕ} :
    parsePart (q ++ '/' :: t) f.lo f.hi f.names = .ok l ↔
      ∃ s v w, IsStep t s ∧ HasBounds f s q v w ∧ List.range' v ((w - v) / s + 1) s = l := by
  rw [parsePart_eq_ok_iff]
  constructor
  · rintro ⟨part, s, v, w, hsplit, hbounds, hl⟩
    obtain ⟨rfl, hstep⟩ := (splitStep_append hslash).1 hsplit
    exact ⟨s, v, w, hstep, (bounds_strip_eq_ok_iff hlower).1 hbounds, hl⟩
  · rintro ⟨s, v, w, hstep, hbounds, hl⟩
    exact ⟨strip q, s, v, w, (splitStep_append hslash).2 ⟨rfl, hstep⟩,
      (bounds_strip_eq_ok_iff hlower).2 hbounds, hl⟩

theorem slash_notMem_of_isStar (hp : IsStar p) : '/' ∉ p := by
  intro h
  have hmem : '/' ∈ strip p := (mem_strip rfl).2 h
  rw [hp] at hmem
  revert hmem
  decide

/-- The values between bounds. -/
theorem mem_range'_one_iff (hle : v ≤ w) (x : ℕ) :
    x ∈ List.range' v ((w - v) / 1 + 1) 1 ↔ v ≤ x ∧ x ≤ w := by
  rw [mem_range'_iff hle le_rfl]
  simp

/-- **An element is taken by the parser**, with the values it stands for; of an element `a/1` only some
of them. -/
theorem parsePart_of_element {D : Set ℕ} (hstrip : strip p = p) (hlower : ∀ c ∈ p, c.toLower = c)
    (h : f.IsElement p D) :
    ∃ l, parsePart p f.lo f.hi f.names = .ok l ∧ (∀ x ∈ l, x ∈ D) ∧
      (¬IsOneStep f p → ∀ x ∈ D, x ∈ l) := by
  cases h with
  | all hstar =>
    have hslash := slash_notMem_of_isStar hstar
    have hbounds : HasBounds f 1 p f.lo f.hi := .all hstar
    refine ⟨_, (parsePart_of_notMem hstrip hslash hlower).2 ⟨_, _, hbounds, rfl⟩, ?_⟩
    have hmem := mem_range'_one_iff hbounds.le
    exact ⟨fun x hx => (hmem x).1 hx, fun _ x hx => (hmem x).2 hx⟩
  | @allStep q t s hstar hstep =>
    have hslash := slash_notMem_of_isStar hstar
    have hlower' : ∀ c ∈ q, c.toLower = c := fun c hc => hlower c (List.mem_append_left _ hc)
    have hbounds : HasBounds f s q f.lo f.hi := .all hstar
    refine ⟨_, (parsePart_append hslash hlower').2 ⟨s, _, _, hstep, hbounds, rfl⟩, ?_⟩
    have hmem := mem_range'_iff hbounds.le hstep.2
    exact ⟨fun x hx => (hmem x).1 hx, fun _ x hx => (hmem x).2 hx⟩
  | @one _ v hdash hslash hv =>
    have hbounds : HasBounds f 1 p v v := .one hdash hv
    refine ⟨_, (parsePart_of_notMem hstrip hslash hlower).2 ⟨_, _, hbounds, rfl⟩, ?_⟩
    simp
  | @range a b v w hdash hslash ha hb hle =>
    have hbounds : HasBounds f 1 (a ++ '-' :: b) v w := .range hdash ha hb hle
    refine ⟨_, (parsePart_of_notMem hstrip hslash hlower).2 ⟨_, _, hbounds, rfl⟩, ?_⟩
    have hmem := mem_range'_one_iff hle
    exact ⟨fun x hx => (hmem x).1 hx, fun _ x hx => (hmem x).2 hx⟩
  | @rangeStep a b t v w s hdash hslash ha hb hle hstep =>
    have hlower' : ∀ c ∈ a ++ '-' :: b, c.toLower = c :=
      fun c hc => hlower c (List.mem_append_left _ hc)
    have hbounds : HasBounds f s (a ++ '-' :: b) v w := .range hdash ha hb hle
    refine ⟨_, (parsePart_append hslash hlower').2 ⟨s, _, _, hstep, hbounds, rfl⟩, ?_⟩
    have hmem := mem_range'_iff hle hstep.2
    exact ⟨fun x hx => (hmem x).1 hx, fun _ x hx => (hmem x).2 hx⟩
  | @oneStep a t v s hdash hslash ha hstep =>
    have hlower' : ∀ c ∈ a, c.toLower = c := fun c hc => hlower c (List.mem_append_left _ hc)
    have hbounds : HasBounds f s a v (if s ≠ 1 then f.hi else v) := .one hdash ha
    refine ⟨_, (parsePart_append hslash hlower').2 ⟨s, _, _, hstep, hbounds, rfl⟩, ?_⟩
    by_cases hs : s = 1
    · -- the parser stops at `a`
      subst hs
      refine ⟨?_, fun hone => absurd ⟨a, t, v, rfl, hslash, hdash, ha, hstep⟩ hone⟩
      simpa using ha.2.2
    · rw [if_pos hs]
      have hmem := mem_range'_iff ha.2.2 hstep.2
      exact ⟨fun x hx => (hmem x).1 hx, fun _ x hx => (hmem x).2 hx⟩

/-- **What the parser takes is an element.** -/
theorem element_of_parsePart {l : List ℕ} (hstrip : strip p = p) (hlower : ∀ c ∈ p, c.toLower = c)
    (h : parsePart p f.lo f.hi f.names = .ok l) : ∃ D, f.IsElement p D := by
  by_cases hslash : '/' ∈ p
  · obtain ⟨q, t, rfl, hq⟩ := List.eq_append_cons_of_mem hslash
    have hlower' : ∀ c ∈ q, c.toLower = c := fun c hc => hlower c (List.mem_append_left _ hc)
    obtain ⟨s, v, w, hstep, hbounds, -⟩ := (parsePart_append hq hlower').1 h
    cases hbounds with
    | all hstar => exact ⟨_, .allStep hstar hstep⟩
    | range hdash ha hb hle => exact ⟨_, .rangeStep hdash hq ha hb hle hstep⟩
    | one hdash hv => exact ⟨_, .oneStep hdash hq hv hstep⟩
  · obtain ⟨v, w, hbounds, -⟩ := (parsePart_of_notMem hstrip hslash hlower).1 h
    cases hbounds with
    | all hstar => exact ⟨_, .all hstar⟩
    | range hdash ha hb hle => exact ⟨_, .range hdash hslash ha hb hle⟩
    | one hdash hv => exact ⟨_, .one hdash hslash hv⟩

/-! ### The list of elements -/

theorem parseParts_cons {expr part : List Char} {parts : List (List Char)} {S : Finset ℕ} :
    parseParts expr f.lo f.hi f.names (part :: parts) = .ok S ↔
      strip part ≠ [] ∧ ∃ l R, parsePart (strip part) f.lo f.hi f.names = .ok l ∧
        parseParts expr f.lo f.hi f.names parts = .ok R ∧ l.toFinset ∪ R = S := by
  rw [parseParts]
  by_cases hempty : strip part = []
  · simp [hempty]
  · cases hpart : parsePart (strip part) f.lo f.hi f.names with
    | error e => simp [hempty, bind, Except.bind]
    | ok l =>
      cases parseParts expr f.lo f.hi f.names parts with
      | error e => simp [hempty, bind, Except.bind]
      | ok R => simp [hempty, bind, Except.bind]

/-- The loop over the elements returns when every element is taken. -/
theorem exists_parseParts_iff {expr : List Char} {parts : List (List Char)} :
    (∃ S, parseParts expr f.lo f.hi f.names parts = .ok S) ↔
      ∀ part ∈ parts, strip part ≠ [] ∧
        ∃ l, parsePart (strip part) f.lo f.hi f.names = .ok l := by
  induction parts with
  | nil => simp [parseParts]
  | cons part parts ih =>
    rw [List.forall_mem_cons, ← ih]
    constructor
    · rintro ⟨S, hS⟩
      obtain ⟨hempty, l, R, hl, hR, -⟩ := parseParts_cons.1 hS
      exact ⟨⟨hempty, l, hl⟩, R, hR⟩
    · rintro ⟨⟨hempty, l, hl⟩, R, hR⟩
      exact ⟨_, parseParts_cons.2 ⟨hempty, l, R, hl, hR, rfl⟩⟩

/-- The loop over the elements returns the union of their values. -/
theorem mem_parseParts {expr : List Char} {parts : List (List Char)} {S : Finset ℕ}
    (h : parseParts expr f.lo f.hi f.names parts = .ok S) (x : ℕ) :
    x ∈ S ↔ ∃ part ∈ parts, ∃ l,
      parsePart (strip part) f.lo f.hi f.names = .ok l ∧ x ∈ l := by
  induction parts generalizing S with
  | nil =>
    cases h
    simp
  | cons part parts ih =>
    obtain ⟨-, l, R, hl, hR, rfl⟩ := parseParts_cons.1 h
    rw [Finset.mem_union, List.mem_toFinset, ih hR]
    simp [hl]

/-! ### A field -/

theorem toLower_of_mem_elements {text : List Char} (hp : p ∈ elements text) :
    ∀ c ∈ strip p, c.toLower = c := by
  intro c hc
  exact toLower_of_mem_lower (mem_of_mem_splitOn hp (mem_of_mem_strip hc))

theorem parsePart_nil (f : CronField) : ∃ e, parsePart [] f.lo f.hi f.names = .error e := by
  cases f <;> exact ⟨_, rfl⟩

theorem ne_nil_of_parsePart {l : List ℕ} (h : parsePart p f.lo f.hi f.names = .ok l) : p ≠ [] := by
  rintro rfl
  obtain ⟨e, he⟩ := parsePart_nil f
  rw [he] at h
  cases h

/-- An element has a value. -/
theorem exists_mem_of_parsePart {l : List ℕ} (h : parsePart p f.lo f.hi f.names = .ok l) :
    ∃ x, x ∈ l := by
  obtain ⟨part, s, v, w, -, -, rfl⟩ := parsePart_eq_ok_iff.1 h
  exact ⟨v, List.mem_range'.2 ⟨0, Nat.succ_pos _, by simp⟩⟩

theorem parse_eq_ok_iff {text : List Char} {S : Finset ℕ} :
    f.parse text = .ok S ↔
      parseParts (lower (strip text)) f.lo f.hi f.names (elements text) = .ok S := by
  have hparse : f.parse text =
      if lower (strip text) = [] then .error .emptyField
      else (parseParts (lower (strip text)) f.lo f.hi f.names (elements text)).bind fun values =>
        if values = ∅ then .error (.matchesNothing (lower (strip text))) else .ok values := rfl
  have hnonempty : ∀ S, parseParts (lower (strip text)) f.lo f.hi f.names (elements text) = .ok S →
      lower (strip text) ≠ [] ∧ S ≠ ∅ := by
    intro S hS
    obtain ⟨p, ps, hps⟩ := List.exists_cons_of_ne_nil (List.splitOn_ne_nil ',' (lower (strip text)))
    have hmem : p ∈ elements text := by
      rw [elements, hps]
      exact List.mem_cons_self
    obtain ⟨hempty, l, hl⟩ := exists_parseParts_iff.1 ⟨S, hS⟩ p hmem
    constructor
    · intro hnil
      rw [elements, hnil] at hmem
      rw [List.splitOn_nil, List.mem_singleton] at hmem
      exact hempty (by rw [hmem]; rfl)
    · rintro rfl
      obtain ⟨x, hx⟩ := exists_mem_of_parsePart hl
      simpa using (mem_parseParts hS x).2 ⟨p, hmem, l, hl, hx⟩
  rw [hparse]
  cases hparts : parseParts (lower (strip text)) f.lo f.hi f.names (elements text) with
  | error e =>
    split_ifs <;> simp [Except.bind]
  | ok S' =>
    obtain ⟨hexpr, hS⟩ := hnonempty S' hparts
    rw [if_neg hexpr]
    show (if S' = ∅ then _ else _) = _ ↔ _
    rw [if_neg hS]

/-- The values of an element are within the range. -/
theorem mem_range_of_isElement {D : Set ℕ} (h : f.IsElement p D) {x : ℕ} (hx : x ∈ D) :
    f.lo ≤ x ∧ x ≤ f.hi := by
  cases h with
  | all => exact hx
  | allStep => exact ⟨hx.1, hx.2.1⟩
  | one _ _ ha =>
    rw [Set.mem_singleton_iff.1 hx]
    exact ha.2
  | range _ _ ha hb _ => exact ⟨ha.2.1.trans hx.1, hx.2.trans hb.2.2⟩
  | rangeStep _ _ ha hb _ _ => exact ⟨ha.2.1.trans hx.1, hx.2.1.trans hb.2.2⟩
  | oneStep _ _ ha _ => exact ⟨ha.2.1.trans hx.1, hx.2.1⟩

/-- **The values of a field**, whatever its argument: there is one, and all are within the range. -/
theorem values_of_parseField {arg : FieldArg} {S : Finset ℕ}
    (h : parseField arg f.lo f.hi f.names = .ok S) :
    S.Nonempty ∧ ∀ x ∈ S, f.lo ≤ x ∧ x ≤ f.hi := by
  obtain ⟨text, htext⟩ : ∃ text, f.parse text = .ok S := by
    unfold CronField.parse
    cases arg with
    | none => exact ⟨_, h⟩
    | bool b => cases h
    | int n => exact ⟨_, h⟩
    | str s => exact ⟨_, h⟩
    | items xs => exact ⟨_, h⟩
    | other => cases h
  have hparts := parse_eq_ok_iff.1 htext
  have hmem := mem_parseParts hparts
  have htaken := exists_parseParts_iff.1 ⟨S, hparts⟩
  constructor
  · obtain ⟨p, ps, hps⟩ := List.exists_cons_of_ne_nil (List.splitOn_ne_nil ',' (lower (strip text)))
    have hp : p ∈ elements text := by
      rw [elements, hps]
      exact List.mem_cons_self
    obtain ⟨-, l, hl⟩ := htaken p hp
    obtain ⟨x, hx⟩ := exists_mem_of_parsePart hl
    exact ⟨x, (hmem x).2 ⟨p, hp, l, hl, hx⟩⟩
  · intro x hx
    obtain ⟨p, hp, l, hl, hxl⟩ := (hmem x).1 hx
    have hlower := toLower_of_mem_elements hp
    obtain ⟨D, hD⟩ := element_of_parsePart (strip_strip p) hlower hl
    obtain ⟨l', hl', hsub, -⟩ := parsePart_of_element (strip_strip p) hlower hD
    rw [hl] at hl'
    cases hl'
    exact mem_range_of_isElement hD (hsub x hxl)

/-- **A cron field accepts its grammar and means it**: a text is taken exactly when it is a comma list
of elements, the values come from the sets of the elements, and the set of every element is in, but for
elements of the form `a/1`. -/
theorem parse_field_grammar (f : CronField) (text : List Char) :
    ((∃ S, f.parse text = .ok S) ↔ ∀ p ∈ elements text, ∃ D, f.IsElement (strip p) D) ∧
    ∀ S, f.parse text = .ok S →
      (∀ x ∈ S, ∃ p ∈ elements text, ∃ D, f.IsElement (strip p) D ∧ x ∈ D) ∧
      ∀ p ∈ elements text, ¬IsOneStep f (strip p) → ∀ D, f.IsElement (strip p) D →
        ∀ x ∈ D, x ∈ S := by
  have hpart : ∀ p ∈ elements text, (∃ D, f.IsElement (strip p) D) ↔
      ∃ l, parsePart (strip p) f.lo f.hi f.names = .ok l := by
    intro p hp
    have hlower := toLower_of_mem_elements hp
    constructor
    · rintro ⟨D, hD⟩
      obtain ⟨l, hl, -⟩ := parsePart_of_element (strip_strip p) hlower hD
      exact ⟨l, hl⟩
    · rintro ⟨l, hl⟩
      exact element_of_parsePart (strip_strip p) hlower hl
  refine ⟨?_, ?_⟩
  · simp only [parse_eq_ok_iff, exists_parseParts_iff]
    refine forall₂_congr fun p hp => ?_
    rw [hpart p hp]
    exact ⟨fun h => h.2, fun ⟨l, hl⟩ => ⟨ne_nil_of_parsePart hl, l, hl⟩⟩
  · intro S hS
    have hmem := mem_parseParts (parse_eq_ok_iff.1 hS)
    constructor
    · intro x hx
      obtain ⟨p, hp, l, hl, hxl⟩ := (hmem x).1 hx
      obtain ⟨D, hD⟩ := (hpart p hp).2 ⟨l, hl⟩
      obtain ⟨l', hl', hsub, -⟩ :=
        parsePart_of_element (strip_strip p) (toLower_of_mem_elements hp) hD
      rw [hl] at hl'
      cases hl'
      exact ⟨p, hp, D, hD, hsub x hxl⟩
    · intro p hp hone D hD x hx
      obtain ⟨l, hl, -, hsup⟩ :=
        parsePart_of_element (strip_strip p) (toLower_of_mem_elements hp) hD
      exact (hmem x).2 ⟨p, hp, l, hl, hsup hone x hx⟩

/-- `+45` and the blank are taken, and the values are those of the elements. -/
theorem parse_field_grammar_minutes :
    CronField.minute.parse "0-30/10, +45".toList = .ok {0, 10, 20, 30, 45} ∧
      ∀ x ∈ ({0, 10, 20, 30, 45} : Finset ℕ), ∃ p ∈ elements "0-30/10, +45".toList,
        ∃ D, CronField.minute.IsElement (strip p) D ∧ x ∈ D := by
  have hparse : CronField.minute.parse "0-30/10, +45".toList = .ok {0, 10, 20, 30, 45} := by
    decide +kernel
  exact ⟨hparse, ((parse_field_grammar .minute "0-30/10, +45".toList).2 _ hparse).1⟩

/-! ### The grammar of the documentation -/

/-- A decimal numeral: digits and nothing else. -/
def IsDecimal (t : List Char) (n : ℕ) : Prop :=
  t ≠ [] ∧ (∀ c ∈ t, c.isDigit = true) ∧ t.foldl (fun n c => 10 * n + (c.toNat - '0'.toNat)) 0 = n

/-- An element as it is documented, with a name or a decimal numeral within the range as its values and
a decimal numeral as its step. -/
abbrev CronField.IsDocumented (f : CronField) : List Char → Set ℕ → Prop :=
  CronElement (· = ['*']) (fun t v => (f.names.lookup t = some v ∨ IsDecimal t v) ∧ f.lo ≤ v ∧ v ≤ f.hi)
    (fun t s => IsDecimal t s ∧ 1 ≤ s) f.lo f.hi

/-- The text is taken exactly when all its elements are as documented, and then as their union. -/
def CronField.AsDocumented (f : CronField) (text : List Char) : Prop :=
  ((∃ S, f.parse text = .ok S) ↔ ∀ p ∈ elements text, ∃ D, f.IsDocumented p D) ∧
  ∀ S, f.parse text = .ok S →
    ∀ x, x ∈ S ↔ ∃ p ∈ elements text, ∃ D, f.IsDocumented p D ∧ x ∈ D

theorem blank_notMem_of_isDecimal {n : ℕ} (h : IsDecimal t n) : ' ' ∉ t := by
  intro hmem
  have hdigit := h.2.1 _ hmem
  revert hdigit
  decide

/-- No documented element of a field without names has a blank. -/
theorem blank_notMem_of_isDocumented {D : Set ℕ} (hnames : f.names = []) (h : f.IsDocumented p D) :
    ' ' ∉ p := by
  have hvalue : ∀ t v, (f.names.lookup t = some v ∨ IsDecimal t v) ∧ f.lo ≤ v ∧ v ≤ f.hi →
      ' ' ∉ t := by
    rintro t v ⟨hname | hdecimal, -⟩
    · rw [hnames] at hname
      cases hname
    · exact blank_notMem_of_isDecimal hdecimal
  cases h with
  | all hp => simp [hp]
  | allStep hp ht => simp [hp, blank_notMem_of_isDecimal ht.1]
  | one _ _ ha => exact hvalue _ _ ha
  | range _ _ ha hb _ => simp [hvalue _ _ ha, hvalue _ _ hb]
  | rangeStep _ _ ha hb _ ht =>
    simp [hvalue _ _ ha, hvalue _ _ hb, blank_notMem_of_isDecimal ht.1]
  | oneStep _ _ ha ht => simp [hvalue _ _ ha, blank_notMem_of_isDecimal ht.1]

/-- Blanks around a dash are taken. -/
theorem blanks_taken : ¬CronField.minute.AsDocumented "1 - 5".toList := by
  intro h
  have hparse : CronField.minute.parse "1 - 5".toList = .ok {1, 2, 3, 4, 5} := by decide +kernel
  have helements : elements "1 - 5".toList = ["1 - 5".toList] := by decide +kernel
  obtain ⟨D, hD⟩ := h.1.1 ⟨_, hparse⟩ "1 - 5".toList (by rw [helements]; exact List.mem_singleton_self _)
  exact blank_notMem_of_isDocumented rfl hD (by decide)

end Cauli
