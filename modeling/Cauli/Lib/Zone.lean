import Mathlib.Algebra.Order.Ring.Int
import Mathlib.Data.List.Pairwise
import Mathlib.Tactic.SplitIfs

/-!
# Time zones

A zone is a piecewise constant offset from UTC: a first offset and a table of changes, all in
seconds. A wall time is a number of seconds too, counted as if the wall clock showed UTC, so that
`w / 86400` is the number of its date.

* `Change`, `TimeZone`: the table, ordered by the instants of the changes and by the two walls at
  which each takes effect;
* `TimeZone.localAt`: the wall time of an instant;
* `TimeZone.instantAt`: the instant of a wall time, with `fold`. A wall time that is repeated has
  its first reading with `fold = false`; one that is skipped is read with the offset before the
  change then. `TimeZone.Reading` is the first reading and a later second one;
* `TimeZone.Ordered`: what a program that works date by date may use of a zone, which a zone with a
  constant offset has (`TimeZone.Constant.ordered`);
* `Change.KeepsMidnight`, `ordered_of_keepsMidnight`: where the changes are a week apart it is
  enough that none of them reaches over midnight, and `exists_late_reading` says what happens
  otherwise.
-/

namespace TimeZone

/-- A change of the offset at an instant. -/
structure Change where
  instant : ℤ
  old : ℤ
  new : ℤ
  deriving DecidableEq

namespace Change

/-- The wall time from which the new offset is used. With `fold = false` it starts after the walls
that the change skips or repeats, with `fold = true` before them. -/
def wall (c : Change) : Bool → ℤ
  | false => c.instant + max c.old c.new
  | true => c.instant + min c.old c.new

/-- Offsets are less than a day. -/
def Bounded (c : Change) : Prop :=
  (-86400 < c.old ∧ c.old < 86400) ∧ -86400 < c.new ∧ c.new < 86400

/-- The walls that a change skips or repeats, and the walls at which the skipped ones are read, stay
on one side of midnight, by the minute. -/
def KeepsMidnight (c : Change) : Prop :=
  if c.old ≤ c.new then
    (c.instant + c.new) / 86400 * 86400 - 60 ≤ c.instant + c.old ∧
      (c.instant + c.new - 1) / 60 * 60 + (c.new - c.old) ≤
        (c.instant + c.new) / 86400 * 86400 + 86400
  else (c.instant + c.old - 1) / 86400 * 86400 - 60 < c.instant + c.new

instance (c : Change) : Decidable c.KeepsMidnight :=
  inferInstanceAs (Decidable (if c.old ≤ c.new then _ else _))

theorem keepsMidnight_of_eq {c : Change} (h : c.old = c.new) : c.KeepsMidnight := by
  unfold KeepsMidnight
  rw [if_pos h.le]
  omega

end Change

/-- The changes of a table of instants and new offsets. -/
def changesFrom (old : ℤ) : List (ℤ × ℤ) → List Change
  | [] => []
  | (t, new) :: table => ⟨t, old, new⟩ :: changesFrom new table

/-- The offset after the last change that `x` has reached, in a table ordered by `key`. -/
def lookup (key : Change → ℤ) (x : ℤ) : ℤ → List Change → ℤ
  | o, [] => o
  | o, c :: cs => if key c ≤ x then lookup key x c.new cs else o

end TimeZone

open TimeZone

/-- A time zone. -/
structure TimeZone where
  base : ℤ
  table : List (ℤ × ℤ)
  bounded : ∀ c ∈ changesFrom base table, c.Bounded
  base_bounded : -86400 < base ∧ base < 86400
  sorted : (changesFrom base table).Pairwise fun a b =>
    a.instant < b.instant ∧ a.wall false ≤ b.wall false ∧ a.wall true ≤ b.wall true

namespace TimeZone

variable (Z : TimeZone)

def changes : List Change := changesFrom Z.base Z.table

/-- `utcoffset` of an instant. -/
def offsetAt (x : ℤ) : ℤ := lookup Change.instant x Z.base Z.changes

/-- `utcoffset` of a wall time. -/
def wallOffset (fold : Bool) (w : ℤ) : ℤ := lookup (Change.wall · fold) w Z.base Z.changes

def localAt (x : ℤ) : ℤ := x + Z.offsetAt x

def instantAt (fold : Bool) (w : ℤ) : ℤ := w - Z.wallOffset fold w

/-- `r` is the first reading of a wall time, or a second one after it. -/
def Reading (w r : ℤ) : Prop :=
  r = Z.instantAt false w ∨ r = Z.instantAt true w ∧ Z.instantAt false w < r

/-- The two ends of a date have different offsets. -/
def ChangesOn (d : ℤ) : Prop :=
  Z.wallOffset false (d * 86400) ≠ Z.wallOffset false ((d + 1) * 86400)

instance (d : ℤ) : Decidable (Z.ChangesOn d) := inferInstanceAs (Decidable (_ ≠ _))

/-- The readings of whole minutes respect the order of the dates, and on a date whose two ends have
the same offset that of the minutes. -/
structure Ordered : Prop where
  past : ∀ {w r x}, w % 60 = 0 → Z.Reading w r → w / 86400 < Z.localAt x / 86400 → r ≤ x
  dates : ∀ {w r w'}, w % 60 = 0 → w' % 60 = 0 → Z.Reading w r → w / 86400 < w' / 86400 →
    r ≤ Z.instantAt false w'
  once : ∀ {w}, w % 60 = 0 → ¬Z.ChangesOn (w / 86400) → Z.instantAt true w ≤ Z.instantAt false w
  mono : ∀ {w w'}, w % 60 = 0 → w' % 60 = 0 → ¬Z.ChangesOn (w / 86400) → w / 86400 = w' / 86400 →
    w ≤ w' → Z.instantAt false w ≤ Z.instantAt false w'
  pruned : ∀ {w x}, w % 60 = 0 → ¬Z.ChangesOn (w / 86400) → Z.localAt x / 86400 = w / 86400 →
    w / 60 < Z.localAt x / 60 → Z.instantAt false w ≤ x

/-- Changes are at least a week apart. -/
def Spaced : Prop := Z.changes.Pairwise fun a b => a.instant + 604800 ≤ b.instant

instance : Decidable Z.Spaced := inferInstanceAs (Decidable (List.Pairwise _ _))

/-! ### A constant offset -/

/-- No change changes the offset. -/
def Constant : Prop := ∀ c ∈ Z.changes, c.new = c.old

theorem lookup_of_constant {o : ℤ} {table : List (ℤ × ℤ)}
    (h : ∀ c ∈ changesFrom o table, c.new = c.old) (key : Change → ℤ) (x : ℤ) :
    lookup key x o (changesFrom o table) = o := by
  induction table generalizing o with
  | nil => rfl
  | cons p table ih =>
    obtain ⟨t, new⟩ := p
    have hnew : new = o := h ⟨t, o, new⟩ List.mem_cons_self
    subst hnew
    rw [changesFrom, lookup, ih fun c hc => h c (List.mem_cons_of_mem _ hc)]
    split_ifs <;> rfl

variable {Z}

theorem Constant.localAt (h : Z.Constant) (x : ℤ) : Z.localAt x = x + Z.base := by
  rw [TimeZone.localAt, offsetAt, changes, lookup_of_constant h]

theorem Constant.instantAt (h : Z.Constant) (fold : Bool) (w : ℤ) :
    Z.instantAt fold w = w - Z.base := by
  rw [TimeZone.instantAt, wallOffset, changes, lookup_of_constant h]

/-- Dates are in order where the offset is constant. -/
theorem Constant.ordered (h : Z.Constant) : Z.Ordered := by
  have hreading : ∀ {w r}, Z.Reading w r → r = w - Z.base := by
    intro w r hr
    rw [Reading, h.instantAt, h.instantAt] at hr
    rcases hr with hr | ⟨hr, -⟩ <;> exact hr
  constructor
  case past =>
    intro w r x _ hr hd
    rw [h.localAt] at hd
    rw [hreading hr]
    omega
  case dates =>
    intro w r w' _ _ hr hd
    rw [hreading hr, h.instantAt]
    omega
  case once =>
    intro w _ _
    rw [h.instantAt, h.instantAt]
  case mono =>
    intro w w' _ _ _ _ hle
    rw [h.instantAt, h.instantAt]
    omega
  case pruned =>
    intro w x _ _ _ hlt
    rw [h.localAt] at hlt
    rw [h.instantAt]
    omega

variable (Z)

/-! ### Near an instant at most one change matters -/

section Lookup

variable {o y : ℤ} {cs : List Change}

/-- A key of the table, which is less than a day from the instant of its change. -/
def IsKey (cs : List Change) (key : Change → ℤ) : Prop :=
  ∀ c ∈ cs, c.instant - 86400 < key c ∧ key c < c.instant + 86400

theorem IsKey.tail {c : Change} {key : Change → ℤ} (h : IsKey (c :: cs) key) : IsKey cs key :=
  fun c' hc' => h c' (List.mem_cons_of_mem c hc')

theorem lookup_of_lt {key : Change → ℤ} {x : ℤ} (h : ∀ c ∈ cs, x < key c) :
    lookup key x o cs = o := by
  cases cs with
  | nil => rfl
  | cons c cs =>
    have hc : x < key c := h c List.mem_cons_self
    rw [lookup, if_neg (not_le.2 hc)]

theorem lookup_bounded {key : Change → ℤ} {x : ℤ} (ho : -86400 < o ∧ o < 86400)
    (hcs : ∀ c ∈ cs, c.Bounded) : -86400 < lookup key x o cs ∧ lookup key x o cs < 86400 := by
  induction cs generalizing o with
  | nil => exact ho
  | cons c cs ih =>
    rw [lookup]
    split_ifs with hreached
    · exact ih (hcs c List.mem_cons_self).2 fun c' hc' => hcs c' (List.mem_cons_of_mem c hc')
    · exact ho

/-- Away from all changes the offset is constant. -/
theorem exists_lookup_eq (o : ℤ) (cs : List Change) (y : ℤ)
    (hs : cs.Pairwise fun a b => a.instant + 604800 ≤ b.instant)
    (hfar : ∀ c ∈ cs, c.instant ≤ y - 259200 ∨ y + 259200 ≤ c.instant) :
    ∃ p, (p = o ∨ ∃ c ∈ cs, p = c.new) ∧ ∀ key, IsKey cs key → ∀ x, y - 172800 ≤ x →
      x ≤ y + 172800 → lookup key x o cs = p := by
  induction cs generalizing o with
  | nil => exact ⟨o, Or.inl rfl, fun _ _ _ _ _ => rfl⟩
  | cons c cs ih =>
    obtain ⟨hc, hs⟩ := List.pairwise_cons.1 hs
    rcases hfar c List.mem_cons_self with hle | hge
    · obtain ⟨p, hp, heq⟩ := ih c.new hs fun c' hc' => hfar c' (List.mem_cons_of_mem c hc')
      refine ⟨p, Or.inr ?_, fun key hkey x hlo hhi => ?_⟩
      · rcases hp with rfl | ⟨c', hc', rfl⟩
        · exact ⟨c, List.mem_cons_self, rfl⟩
        · exact ⟨c', List.mem_cons_of_mem c hc', rfl⟩
      · have hreached : key c ≤ x := by
          have := (hkey c List.mem_cons_self).2
          omega
        rw [lookup, if_pos hreached]
        exact heq key hkey.tail x hlo hhi
    · refine ⟨o, Or.inl rfl, fun key hkey x hlo hhi => ?_⟩
      have hahead : ¬key c ≤ x := by
        have := (hkey c List.mem_cons_self).1
        omega
      rw [lookup, if_neg hahead]

/-- Near a change the offset is the one before or the one after it. -/
theorem lookup_of_near {table : List (ℤ × ℤ)} {c : Change} (hc : c ∈ changesFrom o table)
    (hs : (changesFrom o table).Pairwise fun a b => a.instant + 604800 ≤ b.instant)
    (hlo : y - 259200 < c.instant) (hhi : c.instant < y + 259200) {key : Change → ℤ}
    (hkey : IsKey (changesFrom o table) key) {x : ℤ} (hxlo : y - 172800 ≤ x)
    (hxhi : x ≤ y + 172800) :
    lookup key x o (changesFrom o table) = if key c ≤ x then c.new else c.old := by
  induction table generalizing o with
  | nil => cases hc
  | cons e table ih =>
    obtain ⟨hfirst, hs⟩ := List.pairwise_cons.1 hs
    rw [changesFrom, lookup]
    rcases List.mem_cons.1 hc with rfl | hc
    · -- the changes after this one are still ahead
      have hrest : lookup key x e.2 (changesFrom e.2 table) = e.2 := by
        apply lookup_of_lt
        intro c' hc'
        have hgap := hfirst c' hc'
        have := (hkey.tail c' hc').1
        omega
      rw [hrest]
    · have hreached : key ⟨e.1, o, e.2⟩ ≤ x := by
        have hgap := hfirst c hc
        have := (hkey ⟨e.1, o, e.2⟩ List.mem_cons_self).2
        omega
      rw [if_pos hreached]
      exact ih hc hs hkey.tail

end Lookup

variable {Z : TimeZone} {c : Change} {w x y : ℤ}

/-- For two days on both sides of `y` the zone has the one change `c`. -/
structure AgreesNear (Z : TimeZone) (c : Change) (y : ℤ) : Prop where
  bounded : c.Bounded
  offsetAt : ∀ {x}, y - 172800 ≤ x → x ≤ y + 172800 →
    Z.offsetAt x = if c.instant ≤ x then c.new else c.old
  wallOffset : ∀ {w} (fold : Bool), y - 172800 ≤ w → w ≤ y + 172800 →
    Z.wallOffset fold w = if c.wall fold ≤ w then c.new else c.old

theorem isKey_instant : IsKey Z.changes Change.instant := by
  intro c _
  omega

theorem isKey_wall (fold : Bool) : IsKey Z.changes (Change.wall · fold) := by
  intro c hc
  obtain ⟨hold, hnew⟩ := Z.bounded c hc
  cases fold <;> simp only [Change.wall] <;> omega

theorem agreesNear_of_mem (hs : Z.Spaced) (hc : c ∈ Z.changes) (hlo : y - 259200 < c.instant)
    (hhi : c.instant < y + 259200) : Z.AgreesNear c y where
  bounded := Z.bounded c hc
  offsetAt := lookup_of_near hc hs hlo hhi isKey_instant
  wallOffset fold := lookup_of_near hc hs hlo hhi (isKey_wall fold)

/-- A date without a change near it is as good as one with a change that changes nothing. -/
theorem exists_agreesNear (hs : Z.Spaced) (y : ℤ) :
    ∃ c, (c ∈ Z.changes ∨ c.old = c.new) ∧ Z.AgreesNear c y := by
  by_cases hnear : ∃ c ∈ Z.changes, y - 259200 < c.instant ∧ c.instant < y + 259200
  · obtain ⟨c, hc, hlo, hhi⟩ := hnear
    exact ⟨c, Or.inl hc, agreesNear_of_mem hs hc hlo hhi⟩
  · have hfar : ∀ c ∈ Z.changes, c.instant ≤ y - 259200 ∨ y + 259200 ≤ c.instant := by
      intro c hc
      by_contra hcon
      exact hnear ⟨c, hc, by omega, by omega⟩
    obtain ⟨p, hp, heq⟩ := exists_lookup_eq Z.base Z.changes y hs hfar
    have hbound : -86400 < p ∧ p < 86400 := by
      rcases hp with rfl | ⟨c, hc, rfl⟩
      · exact Z.base_bounded
      · exact (Z.bounded c hc).2
    refine ⟨⟨y, p, p⟩, Or.inr rfl, ⟨hbound, hbound⟩, fun hlo hhi => ?_, fun fold hlo hhi => ?_⟩
    · rw [ite_self]
      exact heq _ isKey_instant _ hlo hhi
    · rw [ite_self]
      exact heq _ (isKey_wall fold) _ hlo hhi

/-! ### Zones whose changes keep off midnight -/

theorem offsetAt_bounded (Z : TimeZone) (x : ℤ) : -86400 < Z.offsetAt x ∧ Z.offsetAt x < 86400 :=
  lookup_bounded Z.base_bounded Z.bounded

theorem wallOffset_bounded (Z : TimeZone) (fold : Bool) (w : ℤ) :
    -86400 < Z.wallOffset fold w ∧ Z.wallOffset fold w < 86400 :=
  lookup_bounded Z.base_bounded Z.bounded

/-- A reading is less than a day from its wall time. -/
theorem Reading.near {r : ℤ} (h : Z.Reading w r) : w - 86400 < r ∧ r < w + 86400 := by
  have hfirst := Z.wallOffset_bounded false w
  have hsecond := Z.wallOffset_bounded true w
  rcases h with rfl | ⟨rfl, -⟩ <;> simp only [instantAt] <;> omega

theorem past_of_agreesNear (h : Z.AgreesNear c w) (hk : c.KeepsMidnight) {r : ℤ} (hw : w % 60 = 0)
    (hr : Z.Reading w r) (hd : w / 86400 < Z.localAt x / 86400) : r ≤ x := by
  by_contra hlate
  have hnear := hr.near
  have hoff := Z.offsetAt_bounded x
  have hx : w - 86400 < x ∧ x < w + 86400 := by
    simp only [localAt] at hd
    omega
  obtain ⟨hold, hnew⟩ := h.bounded
  simp only [Reading, instantAt, localAt, h.offsetAt (x := x) (by omega) (by omega),
    h.wallOffset (w := w) _ (by omega) (by omega), Change.wall] at hr hd
  unfold Change.KeepsMidnight at hk
  split_ifs at hk hr hd <;> omega

theorem dates_of_agreesNear (h : Z.AgreesNear c w) (hk : c.KeepsMidnight) {r w' : ℤ}
    (hw : w % 60 = 0) (hr : Z.Reading w r) (hd : w / 86400 < w' / 86400) :
    r ≤ Z.instantAt false w' := by
  by_contra hlate
  have hnear := hr.near
  have hoff := Z.wallOffset_bounded false w'
  have hw' : w < w' ∧ w' < w + 172800 := by
    simp only [instantAt] at hlate
    omega
  obtain ⟨hold, hnew⟩ := h.bounded
  simp only [Reading, instantAt, h.wallOffset (w := w') _ (by omega) (by omega),
    h.wallOffset (w := w) _ (by omega) (by omega), Change.wall] at hr hlate
  unfold Change.KeepsMidnight at hk
  split_ifs at hk hr hlate <;> omega

/-- The offset at the two ends of a date, and inside it. -/
theorem AgreesNear.changesOn (h : Z.AgreesNear c w) (hsame : ¬Z.ChangesOn (w / 86400)) :
    (if c.wall false ≤ w / 86400 * 86400 then c.new else c.old) =
      if c.wall false ≤ (w / 86400 + 1) * 86400 then c.new else c.old := by
  rw [ChangesOn, not_not, h.wallOffset _ (by omega) (by omega),
    h.wallOffset _ (by omega) (by omega)] at hsame
  exact hsame

theorem once_of_agreesNear (h : Z.AgreesNear c w) (hk : c.KeepsMidnight) (hw : w % 60 = 0)
    (hsame : ¬Z.ChangesOn (w / 86400)) : Z.instantAt true w ≤ Z.instantAt false w := by
  have hends := h.changesOn hsame
  obtain ⟨hold, hnew⟩ := h.bounded
  simp only [instantAt, h.wallOffset (w := w) _ (by omega) (by omega), Change.wall] at hends ⊢
  unfold Change.KeepsMidnight at hk
  split_ifs at hk hends <;> split_ifs <;> omega

theorem mono_of_agreesNear (h : Z.AgreesNear c w) {w' : ℤ} (hsame : ¬Z.ChangesOn (w / 86400))
    (hd : w / 86400 = w' / 86400) (hle : w ≤ w') :
    Z.instantAt false w ≤ Z.instantAt false w' := by
  have hends := h.changesOn hsame
  obtain ⟨hold, hnew⟩ := h.bounded
  simp only [instantAt, h.wallOffset (w := w) _ (by omega) (by omega),
    h.wallOffset (w := w') _ (by omega) (by omega), Change.wall] at hends ⊢
  split_ifs at hends ⊢ <;> omega

theorem pruned_of_agreesNear (h : Z.AgreesNear c w) (hw : w % 60 = 0)
    (hsame : ¬Z.ChangesOn (w / 86400)) (hd : Z.localAt x / 86400 = w / 86400)
    (hlt : w / 60 < Z.localAt x / 60) : Z.instantAt false w ≤ x := by
  have hends := h.changesOn hsame
  have hoff := Z.offsetAt_bounded x
  have hx : w - 172800 ≤ x ∧ x ≤ w + 172800 := by
    simp only [localAt] at hd
    omega
  obtain ⟨hold, hnew⟩ := h.bounded
  simp only [instantAt, localAt, h.offsetAt (x := x) (by omega) (by omega),
    h.wallOffset (w := w) _ (by omega) (by omega), Change.wall] at hends hd hlt ⊢
  split_ifs at hends hd hlt ⊢ <;> omega

/-- Dates are in order when no change reaches over midnight. -/
theorem ordered_of_keepsMidnight (hs : Z.Spaced) (hk : ∀ c ∈ Z.changes, c.KeepsMidnight) :
    Z.Ordered := by
  have near : ∀ w, ∃ c : Change, c.KeepsMidnight ∧ Z.AgreesNear c w := by
    intro w
    obtain ⟨c, hc | hc, h⟩ := exists_agreesNear hs w
    · exact ⟨c, hk c hc, h⟩
    · exact ⟨c, Change.keepsMidnight_of_eq hc, h⟩
  constructor
  case past =>
    intro w r x hw hr hd
    obtain ⟨c, hkc, h⟩ := near w
    exact past_of_agreesNear h hkc hw hr hd
  case dates =>
    intro w r w' hw _ hr hd
    obtain ⟨c, hkc, h⟩ := near w
    exact dates_of_agreesNear h hkc hw hr hd
  case once =>
    intro w hw hsame
    obtain ⟨c, hkc, h⟩ := near w
    exact once_of_agreesNear h hkc hw hsame
  case mono =>
    intro w w' _ _ hsame hd hle
    obtain ⟨c, -, h⟩ := near w
    exact mono_of_agreesNear h hsame hd hle
  case pruned =>
    intro w x hw hsame hd hlt
    obtain ⟨c, -, h⟩ := near w
    exact pruned_of_agreesNear h hw hsame hd hlt

/-- A change that reaches over midnight has a whole minute of a date that is read after an instant
of the next date. -/
theorem exists_late_reading (hs : Z.Spaced) (hc : c ∈ Z.changes) (hk : ¬c.KeepsMidnight) :
    ∃ w r x, w % 60 = 0 ∧ Z.Reading w r ∧ w / 86400 + 1 = Z.localAt x / 86400 ∧ x < r ∧
      c.instant - 172800 ≤ x ∧ x ≤ c.instant + 172800 := by
  have h : Z.AgreesNear c c.instant := agreesNear_of_mem hs hc (by omega) (by omega)
  obtain ⟨hold, hnew⟩ := h.bounded
  unfold Change.KeepsMidnight at hk
  split_ifs at hk with hgap
  · by_cases hstart : (c.instant + c.new) / 86400 * 86400 - 60 ≤ c.instant + c.old
    · -- the last skipped minute is read on the next date
      refine ⟨(c.instant + c.new - 1) / 60 * 60, _,
        (c.instant + c.new) / 86400 * 86400 + 86400 - c.new, by omega, Or.inl rfl, ?_⟩
      simp only [localAt, instantAt]
      rw [h.offsetAt (by omega) (by omega), h.wallOffset _ (by omega) (by omega), Change.wall,
        if_pos (by omega), if_neg (by omega)]
      omega
    · -- 23:59 is skipped, and the change itself is already on the next date
      refine ⟨(c.instant + c.new) / 86400 * 86400 - 60, _, c.instant, by omega, Or.inl rfl, ?_⟩
      simp only [localAt, instantAt]
      rw [h.offsetAt (by omega) (by omega), h.wallOffset _ (by omega) (by omega), Change.wall,
        if_pos (by omega), if_neg (by omega)]
      omega
  · -- 23:59 is repeated after an instant of the next date
    have hfirst : Z.wallOffset false ((c.instant + c.old - 1) / 86400 * 86400 - 60) = c.old := by
      rw [h.wallOffset _ (by omega) (by omega), Change.wall, if_neg (by omega)]
    have hsecond : Z.wallOffset true ((c.instant + c.old - 1) / 86400 * 86400 - 60) = c.new := by
      rw [h.wallOffset _ (by omega) (by omega), Change.wall, if_pos (by omega)]
    refine ⟨(c.instant + c.old - 1) / 86400 * 86400 - 60, _, c.instant - 1, by omega,
      Or.inr ⟨rfl, ?_⟩, ?_⟩
    · rw [instantAt, instantAt, hfirst, hsecond]
      omega
    · rw [localAt, instantAt, hsecond, h.offsetAt (by omega) (by omega), if_neg (by omega)]
      omega

end TimeZone
