import Cauli.Beat.Moves
import Cauli.Lib.KeyedFold
import Mathlib.Data.Rat.Floor

/-!
# A tick of a single beat (`py/cauli/beat.py`)

`Beat.tick` of the only replica, with no Redis error, as one function of what the keys hold. The keys
may hold anything: a definition may carry another name than the hash field it is stored in, and a
score of the due set may be any finite number, of which `int` keeps the whole part.

* `Keys`, `seed`, `dropSlot`, `claim`: the three keys and what is written to them, which is what the
  scripts of the replicas write (`Holds.seed`, `Holds.claim`);
* `tick`: the seeding loop, the sweep, and the loop over the due rows with its set of failed names;
* `due_swept`, `mem_dueSlots_swept`: which slots are still due when the rows are read;
* `due_claims`: a due slot is moved by the first claim that names it and expects its score;
* `tick_settles_iff`: when every due slot is settled. A claim that finds another score, or none, under
  the name of the definition is taken for a lost race and reported as a success.
-/

namespace Cauli.OneTick

/-- The definitions that `load` accepts by their hash fields, the due set, and the fingerprints. The
members of the due set with an infinite score are kept apart. -/
structure Keys where
  schedule : Hash ScheduleEntry := ∅
  due : Hash ℚ := ∅
  infinite : List String := []
  rev : Hash String := ∅

/-- What a tick calls: the hash of a fingerprint, `make_envelope`, and the encoder, which may refuse a
state or an envelope. A `next_after` that raises does it by a `ValueError`, or by the `OverflowError`
of a date beyond the calendar, which nothing catches. -/
structure Calls where
  hash : ScheduleSpec → Bool → String
  build : ScheduleEntry → ℤ → Option Built
  encodes : Claim → Bool
  overflows : CrontabSchedule → ℤ → Bool

/-- Python's `int` of a finite float. -/
def trunc (q : ℚ) : ℤ := if 0 ≤ q then ⌊q⌋ else ⌈q⌉

/-- `drop_slot`. -/
def dropSlot (k : Keys) (name : String) : Keys :=
  { k with due := k.due.erase name, rev := k.rev.erase name }

/-- `_SEED_LUA`. -/
def seed (k : Keys) (name : String) (slot : ℤ) (rev : String) : Keys :=
  if k.rev.lookup name = some rev ∧ (k.due.lookup name).isSome then k
  else { k with due := k.due.insert name (slotScore slot), rev := k.rev.insert name rev }

/-- `_CLAIM_LUA`, as far as these keys go. -/
def claim (k : Keys) (c : Claim) : Keys :=
  if k.due.lookup c.name = some (slotScore c.expected : ℚ) then
    { k with due := k.due.insert c.name (slotScore c.next) }
  else k

/-- One turn of the loop over the definitions, with the slots and fingerprints that were read. -/
def seedEntry (hash : ScheduleSpec → Bool → String) (now : ℤ) (slots : List String)
    (revs : Hash String) (k : Keys) (name : String) (e : ScheduleEntry) : Keys :=
  if e.enabled then
    if name ∈ slots ∧ revs.lookup name = some (e.rev hash) then k
    else
      match e.schedule.nextAfter now with
      | none => k
      | some first => seed k name first (e.rev hash)
  else if name ∈ slots then dropSlot k name
  else k

/-- Rows in score order, by name at equal scores. -/
def rowLe (a b : String × ℚ) : Prop := a.2 < b.2 ∨ a.2 = b.2 ∧ a.1 ≤ b.1

instance : DecidableRel rowLe := fun _ _ => inferInstanceAs (Decidable (_ ∨ _))

/-- `due`, before `int`. -/
def dueRows (k : Keys) (now : ℤ) (limit : ℕ) : List (String × ℚ) :=
  ((k.due.pairs.filter fun p => decide (p.2 ≤ (now : ℚ))).insertionSort rowLe).take limit

/-- The instant at which `next_after` raises in the loop of a fast forward. -/
def stuckIn (nextAfter : ℤ → Option ℤ) (now : ℤ) : ℕ → ℤ → Option ℤ
  | 0, nxt => if nxt ≤ now ∧ nextAfter now = none then some now else none
  | left + 1, nxt =>
    if nxt ≤ now then
      match nextAfter nxt with
      | none => some nxt
      | some z => stuckIn nextAfter now left z
    else none

/-- The instant at which `next_after` raises in a fast forward. -/
def stuckAt (c : CrontabSchedule) (slot now : ℤ) : Option ℤ :=
  match c.nextAfter slot with
  | none => some slot
  | some nxt => stuckIn c.nextAfter now MAX_ADVANCE_STEPS nxt

/-- A fast forward ends in an `OverflowError`. -/
def advanceOverflows (calls : Calls) : Schedule → ℤ → ℤ → Bool
  | .interval _ _, _, _ => false
  | .crontab c, slot, now => (stuckAt c slot now).any (calls.overflows c)

/-- A call of `next_after` ends in an `OverflowError`. -/
def nextOverflows (calls : Calls) : Schedule → ℤ → Bool
  | .interval _ _, _ => false
  | .crontab c, slot => (c.nextAfter slot).isNone && calls.overflows c slot

/-- `_fire`: the keys, and its result. `none` when an exception leaves it: an `OverflowError` of the
fast forward, or any of the second one. -/
def fire (calls : Calls) (now : ℤ) (k : Keys) (e : ScheduleEntry) (slot : ℤ) :
    Option (Keys × Bool) :=
  if (e.schedule.advancePastWithMissed slot now).isNone then
    if advanceOverflows calls e.schedule slot now then none else some (k, false)
  else if (suppress e slot now).isNone then none
  else
    match fireArgs 0 e slot now (calls.build e slot) with
    | none => some (k, false)
    | some c => if calls.encodes c then some (claim k c, true) else some (k, false)

/-- The loop over the due rows; the names of the failed ones are collected. -/
def fireRows (calls : Calls) (now : ℤ) (entries : Hash ScheduleEntry) :
    List (String × ℚ) → Keys → Option (Keys × List String)
  | [], k => some (k, [])
  | (name, q) :: rows, k =>
    match entries.lookup name with
    | none => fireRows calls now entries rows (dropSlot k name)
    | some e =>
      if e.enabled then
        (fire calls now k e (trunc q)).bind fun r =>
          (fireRows calls now entries rows r.1).map fun out =>
            (out.1, if r.2 then out.2 else name :: out.2)
      else fireRows calls now entries rows (dropSlot k name)

/-- What the keys hold after the loop over the definitions. -/
def seeded (hash : ScheduleSpec → Bool → String) (now : ℤ) (k : Keys) : Keys :=
  k.schedule.pairs.foldl (fun k' p => seedEntry hash now k.due.keys k.rev k' p.1 p.2) k

/-- What the keys hold after the slots without a definition are dropped. -/
def swept (hash : ScheduleSpec → Bool → String) (now : ℤ) (k : Keys) : Keys :=
  (k.due.keys.filter fun name => decide (name ∉ k.schedule)).foldl dropSlot (seeded hash now k)

/-- An exception leaves a turn of the loop over the definitions. -/
def seedRaises (calls : Calls) (now : ℤ) (k : Keys) (name : String) (e : ScheduleEntry) : Bool :=
  e.enabled && !decide (name ∈ k.due.keys ∧ k.rev.lookup name = some (e.rev calls.hash)) &&
    nextOverflows calls e.schedule now

/-- `tick`: the keys after it, and the set of failed names it sleeps by. `none` when an exception
leaves it; `int` of an infinite score is one. -/
def tick (calls : Calls) (now : ℤ) (k : Keys) : Option (Keys × List String) :=
  if k.infinite.isEmpty then
    if k.schedule.pairs.any fun p => seedRaises calls now k p.1 p.2 then none
    else
      fireRows calls now k.schedule (dueRows (swept calls.hash now k) now DUE_BATCH)
        (swept calls.hash now k)
  else none

/-- `upcoming` of `_sleep_for`: the rows the sleep is computed from. -/
def upcoming (k : Keys) (now maxIntervalMs : ℤ) (failed : List String) : List (String × ℚ) :=
  (dueRows k (now + maxIntervalMs) (failed.length + 1)).filter fun row => decide (row.1 ∉ failed)

/-! ### The keys of a store -/

/-- The keys hold what the store of the replicas holds. -/
def Holds (s : Store) (k : Keys) : Prop :=
  ∀ n, k.due.lookup n = Option.map (fun slot : ℤ => (slot : ℚ)) (s.due.lookup n) ∧
    k.rev.lookup n = s.rev.lookup n

theorem Holds.insert {s : Store} {k : Keys} (h : Holds s k) (name : String) (slot : ℤ) (n : String) :
    (k.due.insert name (slot : ℚ)).lookup n =
      Option.map (fun slot : ℤ => (slot : ℚ)) ((s.due.insert name slot).lookup n) := by
  by_cases hn : n = name
  · rw [hn, AList.lookup_insert, AList.lookup_insert]
    rfl
  · rw [AList.lookup_insert_ne hn, AList.lookup_insert_ne hn]
    exact (h n).1

theorem Holds.due_eq_iff {s : Store} {k : Keys} (h : Holds s k) (n : String) (slot : ℤ) :
    k.due.lookup n = some (slot : ℚ) ↔ s.due.lookup n = some slot := by
  rw [(h n).1]
  cases s.due.lookup n with
  | none => simp
  | some slot' => simp

/-- `seed` is the script of the replicas. -/
theorem Holds.seed {s : Store} {k : Keys} (h : Holds s k) (name : String) (slot : ℤ) (rev : String) :
    Holds (Cauli.seed none name slot rev s) (OneTick.seed k name slot rev) := by
  have hseeded : (k.rev.lookup name = some rev ∧ (k.due.lookup name).isSome) ↔
      isSeeded s name rev = true := by
    have hsome : (k.due.lookup name).isSome = (s.due.lookup name).isSome := by
      rw [(h name).1, Option.isSome_map]
    rw [hsome, (h name).2]
    simp [isSeeded]
  rcases seed_whole name slot rev s with ⟨hs, heq⟩ | ⟨hs, heq⟩
  · rw [heq, OneTick.seed, if_pos (hseeded.2 hs)]
    exact h
  · have hnot : ¬(k.rev.lookup name = some rev ∧ (k.due.lookup name).isSome) := by
      rw [hseeded, hs]
      exact Bool.false_ne_true
    rw [heq, OneTick.seed, if_neg hnot]
    intro n
    refine ⟨h.insert name _ n, ?_⟩
    by_cases hn : n = name
    · rw [hn, AList.lookup_insert, AList.lookup_insert]
    · rw [AList.lookup_insert_ne hn, AList.lookup_insert_ne hn]
      exact (h n).2

/-- `claim` is the script of the replicas. -/
theorem Holds.claim {s : Store} {k : Keys} (h : Holds s k) (c : Claim) :
    Holds (claimAndPublish none c s) (OneTick.claim k c) := by
  have hexpected := h.due_eq_iff c.name (slotScore c.expected)
  by_cases hfound : s.due.lookup c.name = some (slotScore c.expected)
  · have hwrites : (runWrites none c.writes s).due = s.due.insert c.name (slotScore c.next) ∧
        (runWrites none c.writes s).rev = s.rev := by
      cases hmode : c.mode <;> simp [runWrites, Claim.writes, hmode, BeatWrite.apply]
    rw [claimAndPublish, if_pos hfound, OneTick.claim, if_pos (hexpected.2 hfound)]
    intro n
    rw [hwrites.1, hwrites.2]
    exact ⟨h.insert c.name _ n, (h n).2⟩
  · rw [claimAndPublish, if_neg hfound, OneTick.claim, if_neg fun hk => hfound (hexpected.1 hk)]
    exact h

/-! ### The seeding loop and the sweep -/

/-- The slot and the fingerprint of a name. -/
def at_ (k : Keys) (n : String) : Option ℚ × Option String := (k.due.lookup n, k.rev.lookup n)

/-- What a turn of the seeding loop leaves at its own name. -/
def seedValue (hash : ScheduleSpec → Bool → String) (now : ℤ) (slots : List String)
    (revs : Hash String) (name : String) (e : ScheduleEntry) (v : Option ℚ × Option String) :
    Option ℚ × Option String :=
  if e.enabled then
    if name ∈ slots ∧ revs.lookup name = some (e.rev hash) then v
    else
      match e.schedule.nextAfter now with
      | none => v
      | some first =>
        if v.2 = some (e.rev hash) ∧ v.1.isSome then v
        else (some (slotScore first), some (e.rev hash))
  else if name ∈ slots then (none, none)
  else v

theorem at_seed (k : Keys) (n : String) (slot : ℤ) (rev : String) :
    at_ (seed k n slot rev) n =
      if (at_ k n).2 = some rev ∧ (at_ k n).1.isSome then at_ k n
      else (some (slotScore slot : ℚ), some rev) := by
  unfold seed
  by_cases hseeded : k.rev.lookup n = some rev ∧ (k.due.lookup n).isSome
  · rw [if_pos hseeded]
    exact (if_pos hseeded).symm
  · rw [if_neg hseeded]
    refine Eq.trans ?_ (if_neg hseeded).symm
    simp [at_]

theorem at_seed_of_ne {n name : String} (hne : n ≠ name) (k : Keys) (slot : ℤ) (rev : String) :
    at_ (seed k name slot rev) n = at_ k n := by
  unfold seed
  split_ifs with hseeded
  · rfl
  · simp [at_, AList.lookup_insert_ne hne]

theorem at_seedEntry (hash : ScheduleSpec → Bool → String) (now : ℤ) (slots : List String)
    (revs : Hash String) (k : Keys) (n : String) (e : ScheduleEntry) :
    at_ (seedEntry hash now slots revs k n e) n = seedValue hash now slots revs n e (at_ k n) := by
  unfold seedEntry seedValue
  by_cases henabled : e.enabled
  · rw [if_pos henabled, if_pos henabled]
    by_cases hcurrent : n ∈ slots ∧ revs.lookup n = some (e.rev hash)
    · rw [if_pos hcurrent, if_pos hcurrent]
    · rw [if_neg hcurrent, if_neg hcurrent]
      cases e.schedule.nextAfter now with
      | none => rfl
      | some first => exact at_seed k n first _
  · rw [if_neg henabled, if_neg henabled]
    by_cases hslot : n ∈ slots
    · rw [if_pos hslot, if_pos hslot]
      simp [at_, dropSlot]
    · rw [if_neg hslot, if_neg hslot]

theorem at_seedEntry_of_ne (hash : ScheduleSpec → Bool → String) (now : ℤ) (slots : List String)
    (revs : Hash String) (k : Keys) (name : String) (e : ScheduleEntry) (n : String)
    (hne : n ≠ name) : at_ (seedEntry hash now slots revs k name e) n = at_ k n := by
  unfold seedEntry
  split_ifs with henabled hcurrent hslot
  · rfl
  · cases e.schedule.nextAfter now with
    | none => rfl
    | some first => exact at_seed_of_ne hne k first _
  · simp [at_, dropSlot, AList.lookup_erase_ne hne]
  · rfl

theorem due_dropSlot (k : Keys) (name n : String) :
    (dropSlot k name).due.lookup n = if n = name then none else k.due.lookup n := by
  split_ifs with heq
  · rw [heq]
    exact AList.lookup_erase _ _
  · exact AList.lookup_erase_ne heq

theorem due_foldl_dropSlot (l : List String) (k : Keys) (n : String) :
    (l.foldl dropSlot k).due.lookup n = if n ∈ l then none else k.due.lookup n := by
  induction l generalizing k with
  | nil => rfl
  | cons name l ih =>
    rw [List.foldl_cons, ih, due_dropSlot]
    by_cases hl : n ∈ l <;> by_cases hn : n = name <;> simp [hl, hn]

/-- **The slots after the sweep**: a name without a definition, or with a disabled one, has none; a
slot of the current definition stays, and so does one of a definition whose schedule cannot be seeded;
any other name is seeded. -/
theorem due_swept (hash : ScheduleSpec → Bool → String) (now : ℤ) (k : Keys) (n : String) :
    (swept hash now k).due.lookup n =
      match k.schedule.lookup n with
      | none => none
      | some e =>
        if e.enabled then
          if (k.due.lookup n).isSome ∧ k.rev.lookup n = some (e.rev hash) then k.due.lookup n
          else
            match e.schedule.nextAfter now with
            | none => k.due.lookup n
            | some first => some (slotScore first : ℚ)
        else none := by
  have hslots : n ∈ k.due.keys ↔ (k.due.lookup n).isSome :=
    AList.mem_keys.symm.trans AList.lookup_isSome.symm
  have hdropped : n ∈ (k.due.keys.filter fun name => decide (name ∉ k.schedule)) ↔
      (k.due.lookup n).isSome ∧ k.schedule.lookup n = none := by
    rw [List.mem_filter, hslots, decide_eq_true_eq, AList.lookup_eq_none]
  rw [swept, due_foldl_dropSlot]
  cases hentry : k.schedule.lookup n with
  | none =>
    have hnot := AList.notMem_map_fst_pairs hentry
    by_cases hsome : (k.due.lookup n).isSome
    · rw [if_pos (hdropped.2 ⟨hsome, hentry⟩)]
    · rw [if_neg fun h => hsome (hdropped.1 h).1]
      have hseeded := get_foldl_of_notMem (at_seedEntry_of_ne hash now k.due.keys k.rev) hnot k
      exact (congrArg Prod.fst hseeded).trans (Option.not_isSome_iff_eq_none.1 hsome)
  | some e =>
    have hkept : ¬((k.due.lookup n).isSome ∧ k.schedule.lookup n = none) := by simp [hentry]
    have hseeded := get_foldl_of_mem (at_seedEntry hash now k.due.keys k.rev)
      (at_seedEntry_of_ne hash now k.due.keys k.rev) k.schedule.nodup_pairs
      (AList.mem_pairs.2 hentry) k
    rw [if_neg fun h => hkept (hdropped.1 h)]
    refine (congrArg Prod.fst hseeded).trans ?_
    simp only [seedValue, at_, hslots]
    by_cases henabled : e.enabled
    · rw [if_pos henabled, if_pos henabled]
      by_cases hcurrent : (k.due.lookup n).isSome ∧ k.rev.lookup n = some (e.rev hash)
      · rw [if_pos hcurrent, if_pos hcurrent]
      · rw [if_neg hcurrent, if_neg hcurrent]
        cases e.schedule.nextAfter now with
        | none => rfl
        | some first =>
          have hstale : ¬((at_ k n).2 = some (e.rev hash) ∧ (at_ k n).1.isSome) :=
            fun h => hcurrent ⟨h.2, h.1⟩
          exact congrArg Prod.fst (if_neg hstale)
    · rw [if_neg henabled, if_neg henabled]
      by_cases hsome : (k.due.lookup n).isSome
      · rw [if_pos hsome]
      · rw [if_neg hsome]
        exact Option.not_isSome_iff_eq_none.1 hsome

/-! ### Scores -/

section Scores

variable {now slot : ℤ}

@[simp] theorem trunc_intCast (z : ℤ) : trunc z = z := by simp [trunc]

theorem trunc_mono {q q' : ℚ} (h : q ≤ q') : trunc q ≤ trunc q' := by
  unfold trunc
  split_ifs with hq hq' hq'
  · exact Int.floor_mono h
  · exact absurd (hq.trans h) hq'
  · exact (Int.ceil_le.2 (by simpa using (not_le.1 hq).le)).trans (Int.floor_nonneg.2 hq')
  · exact Int.ceil_mono h

theorem trunc_le {q : ℚ} (h : q ≤ now) : trunc q ≤ now :=
  (trunc_mono h).trans_eq (trunc_intCast now)

/-- A score is the slot, or the whole part of the double next to it. -/
theorem slotScore_eq_or (slot : ℤ) :
    slotScore slot = slot ∨ slotScore slot = ⌊F64.nearest slot⌋ := by
  rw [slotScore, F64.ofInt]
  cases hround : F64.ofRat slot with
  | finite r =>
    rw [(F64.ofRat_eq_finite_iff.1 hround).1]
    exact .inr rfl
  | inf => exact .inl rfl
  | nan => exact .inl rfl

variable (hnonneg : 0 ≤ now) (hnow : now < 2 ^ 53)

include hnonneg hnow

/-- A slot after `now` has a score after `now`, also where the score is rounded. -/
theorem lt_slotScore (h : now < slot) : now < slotScore slot := by
  by_cases hsmall : slot < 2 ^ 53
  · rw [slotScore_eq (by omega)]
    exact h
  · have hbig : ((2 : ℚ) ^ (53 : ℤ)) ≤ slot := by
      have hcast : ((2 ^ 53 : ℤ) : ℚ) ≤ slot := Int.cast_le.2 (not_lt.1 hsmall)
      norm_num at hcast ⊢
      exact hcast
    have hnearest := F64.zpow_le_nearest (by norm_num) hbig
    have hfloor : (2 ^ 53 : ℤ) ≤ ⌊F64.nearest slot⌋ := by
      rw [Int.le_floor]
      push_cast
      norm_num at hnearest ⊢
      exact hnearest
    rcases slotScore_eq_or slot with heq | heq <;> omega

/-- A slot that is not after `now` has a score that is not. -/
theorem slotScore_le (h : slot ≤ now) : slotScore slot ≤ now := by
  by_cases hsmall : -2 ^ 53 < slot
  · rw [slotScore_eq (by omega)]
    exact h
  · have hnearest : F64.nearest slot ≤ 0 := F64.nearest_nonpos (by exact_mod_cast by omega)
    have hfloor : ⌊F64.nearest slot⌋ ≤ 0 := Int.floor_nonpos hnearest
    rcases slotScore_eq_or slot with heq | heq <;> omega

end Scores

/-! ### The due rows -/

/-- The due slots. -/
def dueSlots (k : Keys) (now : ℤ) : List (String × ℚ) :=
  k.due.pairs.filter fun p => decide (p.2 ≤ (now : ℚ))

theorem mem_dueSlots {k : Keys} {now : ℤ} {n : String} {q : ℚ} :
    (n, q) ∈ dueSlots k now ↔ k.due.lookup n = some q ∧ q ≤ now := by
  rw [dueSlots, List.mem_filter, AList.mem_pairs, decide_eq_true_eq]

theorem nodup_dueSlots (k : Keys) (now : ℤ) : ((dueSlots k now).map Prod.fst).Nodup :=
  k.due.nodup_pairs.sublist (List.filter_sublist.map _)

/-- Where the batch is large enough the rows are the due slots. -/
theorem dueRows_perm {k : Keys} {now : ℤ} {limit : ℕ} (h : (dueSlots k now).length ≤ limit) :
    (dueRows k now limit).Perm (dueSlots k now) := by
  have hperm := List.perm_insertionSort rowLe (dueSlots k now)
  rw [dueRows, List.take_of_length_le]
  · exact hperm
  · exact hperm.length_eq.trans_le h

/-- A slot that is still due when the rows are read: its definition is enabled, and its fingerprint is
current or the schedule cannot be seeded. -/
structure DueRow (hash : ScheduleSpec → Bool → String) (now : ℤ) (k : Keys) (n : String)
    (e : ScheduleEntry) (q : ℚ) : Prop where
  due : k.due.lookup n = some q
  le : q ≤ now
  entry : k.schedule.lookup n = some e
  enabled : e.enabled
  kept : k.rev.lookup n = some (e.rev hash) ∨ e.schedule.nextAfter now = none

theorem mem_dueSlots_swept {hash : ScheduleSpec → Bool → String} {now : ℤ} (hnonneg : 0 ≤ now)
    (hnow : now < 2 ^ 53) {k : Keys} {n : String} {q : ℚ} :
    (n, q) ∈ dueSlots (swept hash now k) now ↔ ∃ e, DueRow hash now k n e q := by
  rw [mem_dueSlots, due_swept]
  constructor
  · rintro ⟨hdue, hle⟩
    cases hentry : k.schedule.lookup n with
    | none => simp [hentry] at hdue
    | some e =>
      rw [hentry] at hdue
      dsimp only at hdue
      split_ifs at hdue with henabled hcurrent
      · exact ⟨e, hdue, hle, hentry, henabled, .inl hcurrent.2⟩
      · cases hnext : e.schedule.nextAfter now with
        | none =>
          rw [hnext] at hdue
          exact ⟨e, hdue, hle, hentry, henabled, .inr hnext⟩
        | some first =>
          -- a seeded slot is after `now`
          rw [hnext] at hdue
          cases hdue
          have hlt := lt_slotScore hnonneg hnow (lt_of_nextAfter hnext)
          exact absurd (Int.cast_le.1 hle) (not_le.2 hlt)
  · rintro ⟨e, hrow⟩
    refine ⟨?_, hrow.le⟩
    rw [hrow.entry]
    dsimp only
    rw [if_pos hrow.enabled]
    split_ifs with hcurrent
    · exact hrow.due
    · have hstale : k.rev.lookup n ≠ some (e.rev hash) :=
        fun h => hcurrent ⟨by simp [hrow.due], h⟩
      rw [hrow.kept.resolve_left hstale]
      exact hrow.due

/-- The sweep makes no slot due. -/
theorem length_dueSlots_swept {hash : ScheduleSpec → Bool → String} {now : ℤ} (hnonneg : 0 ≤ now)
    (hnow : now < 2 ^ 53) (k : Keys) :
    (dueSlots (swept hash now k) now).length ≤ (dueSlots k now).length := by
  have hsub : dueSlots (swept hash now k) now ⊆ dueSlots k now := by
    rintro ⟨n, q⟩ hmem
    obtain ⟨e, hrow⟩ := (mem_dueSlots_swept hnonneg hnow).1 hmem
    exact mem_dueSlots.2 ⟨hrow.due, hrow.le⟩
  exact (List.subperm_of_subset (nodup_dueSlots _ _).of_map hsub).length_le

/-! ### The loop over the rows -/

section Fire

variable {calls : Calls} {now : ℤ} {entries : Hash ScheduleEntry}

/-- What a firing passes to the claim script, if it gets that far. -/
def fired (calls : Calls) (now : ℤ) (e : ScheduleEntry) (slot : ℤ) : Option Claim :=
  (fireArgs 0 e slot now (calls.build e slot)).filter calls.encodes

/-- An exception leaves a firing. -/
def Raises (calls : Calls) (now : ℤ) (e : ScheduleEntry) (slot : ℤ) : Prop :=
  e.schedule.advancePastWithMissed slot now = none ∧ advanceOverflows calls e.schedule slot now ∨
    (e.schedule.advancePastWithMissed slot now).isSome ∧ suppress e slot now = none

theorem fire_eq {k : Keys} {e : ScheduleEntry} {slot : ℤ} (h : ¬Raises calls now e slot) :
    fire calls now k e slot =
      match fired calls now e slot with
      | none => some (k, false)
      | some c => some (claim k c, true) := by
  unfold fire fired
  cases hadvance : e.schedule.advancePastWithMissed slot now with
  | none =>
    have hvalue : advanceOverflows calls e.schedule slot now = false :=
      Bool.eq_false_iff.2 fun hover => h (.inl ⟨hadvance, hover⟩)
    simp [fireArgs, hadvance, hvalue]
  | some r =>
    cases hsuppress : suppress e slot now with
    | none => exact absurd (.inr ⟨by simp [hadvance], hsuppress⟩) h
    | some b =>
      cases hargs : fireArgs 0 e slot now (calls.build e slot) with
      | none => simp
      | some c =>
        by_cases hencodes : calls.encodes c
        · simp [hencodes, Option.filter]
        · simp [hencodes, Option.filter]

theorem fire_eq_none {k : Keys} {e : ScheduleEntry} {slot : ℤ} (h : Raises calls now e slot) :
    fire calls now k e slot = none := by
  rcases h with ⟨hadvance, hover⟩ | ⟨hadvance, hsuppress⟩
  · simp [fire, hadvance, hover]
  · obtain ⟨r, hr⟩ := Option.isSome_iff_exists.1 hadvance
    simp [fire, hr, hsuppress]

/-- What the firing of a row passes to the claim script. -/
def rowClaim (calls : Calls) (now : ℤ) (entries : Hash ScheduleEntry) (row : String × ℚ) :
    Option Claim :=
  (entries.lookup row.1).bind fun e => fired calls now e (trunc row.2)

/-- **The loop over the rows**: the claims of the rows are made one after the other, and the rows
without a claim fail. -/
theorem fireRows_eq {rows : List (String × ℚ)}
    (hrows : ∀ row ∈ rows, ∃ e, entries.lookup row.1 = some e ∧ e.enabled ∧
      ¬Raises calls now e (trunc row.2)) (k : Keys) :
    fireRows calls now entries rows k =
      some ((rows.filterMap (rowClaim calls now entries)).foldl claim k,
        (rows.filter fun row => (rowClaim calls now entries row).isNone).map Prod.fst) := by
  induction rows generalizing k with
  | nil => rfl
  | cons row rows ih =>
    obtain ⟨name, q⟩ := row
    obtain ⟨e, hentry, henabled, hraises⟩ := hrows (name, q) List.mem_cons_self
    have ih := ih fun row hrow => hrows row (List.mem_cons_of_mem _ hrow)
    have hclaim : rowClaim calls now entries (name, q) = fired calls now e (trunc q) := by
      simp [rowClaim, hentry]
    rw [fireRows, hentry]
    dsimp only
    rw [if_pos henabled, fire_eq hraises]
    cases hfired : fired calls now e (trunc q) with
    | none =>
      rw [hfired] at hclaim
      rw [Option.bind_some, ih, List.filterMap_cons_none hclaim]
      simp [hclaim]
    | some c =>
      rw [hfired] at hclaim
      rw [Option.bind_some, ih, List.filterMap_cons_some hclaim]
      simp [hclaim]

theorem fireRows_eq_none {rows : List (String × ℚ)}
    (hrows : ∀ row ∈ rows, ∃ e, entries.lookup row.1 = some e ∧ e.enabled)
    (hraises : ∃ row ∈ rows, ∃ e, entries.lookup row.1 = some e ∧ Raises calls now e (trunc row.2))
    (k : Keys) : fireRows calls now entries rows k = none := by
  induction rows generalizing k with
  | nil =>
    obtain ⟨row, hrow, -⟩ := hraises
    cases hrow
  | cons row rows ih =>
    obtain ⟨name, q⟩ := row
    obtain ⟨e, hentry, henabled⟩ := hrows (name, q) List.mem_cons_self
    rw [fireRows, hentry]
    dsimp only
    rw [if_pos henabled]
    obtain ⟨row, hrow, hraise⟩ := hraises
    rcases List.mem_cons.1 hrow with rfl | hrow
    · obtain ⟨e', hentry', hraise⟩ := hraise
      rw [hentry] at hentry'
      cases hentry'
      rw [fire_eq_none hraise]
      rfl
    · have ih := ih (fun row hrow => hrows row (List.mem_cons_of_mem _ hrow)) ⟨row, hrow, hraise⟩
      cases fire calls now k e (trunc q) with
      | none => rfl
      | some r =>
        rw [Option.bind_some, ih]
        rfl

/-- A claim moves a slot that it names and expects. -/
theorem due_claim (k : Keys) (c : Claim) (n : String) :
    (claim k c).due.lookup n =
      if n = c.name ∧ k.due.lookup n = some (slotScore c.expected : ℚ) then
        some (slotScore c.next : ℚ)
      else k.due.lookup n := by
  unfold claim
  by_cases hname : n = c.name
  · subst hname
    by_cases hfound : k.due.lookup c.name = some (slotScore c.expected : ℚ)
    · rw [if_pos hfound, if_pos ⟨rfl, hfound⟩]
      exact AList.lookup_insert _
    · rw [if_neg hfound, if_neg fun h => hfound h.2]
  · have hmiss : ¬(n = c.name ∧ k.due.lookup n = some (slotScore c.expected : ℚ)) :=
      fun h => hname h.1
    rw [if_neg hmiss]
    split_ifs
    · exact AList.lookup_insert_ne hname
    · rfl

section Claims

variable {cs : List Claim} (hexpected : ∀ c ∈ cs, slotScore c.expected ≤ now)

include hexpected

/-- A slot after `now` is not moved, and neither is one that is not there. -/
theorem due_claims_of_not_due {k : Keys} {n : String} (h : ∀ q, k.due.lookup n = some q → now < q) :
    (cs.foldl claim k).due.lookup n = k.due.lookup n := by
  induction cs generalizing k with
  | nil => rfl
  | cons c cs ih =>
    have hmiss : ¬(n = c.name ∧ k.due.lookup n = some (slotScore c.expected : ℚ)) := by
      rintro ⟨-, hfound⟩
      have hlt := h _ hfound
      have hle := hexpected c List.mem_cons_self
      exact absurd (Int.cast_lt.1 hlt) (not_lt.2 hle)
    have hsame : (claim k c).due.lookup n = k.due.lookup n := by rw [due_claim, if_neg hmiss]
    rw [List.foldl_cons, ih (fun c hc => hexpected c (List.mem_cons_of_mem _ hc)), hsame]
    rw [hsame]
    exact h

/-- **A due slot is moved past `now`** by the first claim that names it and expects it, and stays if
there is none. -/
theorem due_claims (hnext : ∀ c ∈ cs, now < slotScore c.next) {k : Keys} {n : String} {q : ℚ}
    (hq : k.due.lookup n = some q) :
    (∃ c ∈ cs, c.name = n ∧ (slotScore c.expected : ℚ) = q) ∧
        (∃ q', (cs.foldl claim k).due.lookup n = some q' ∧ now < q') ∨
      (¬∃ c ∈ cs, c.name = n ∧ (slotScore c.expected : ℚ) = q) ∧
        (cs.foldl claim k).due.lookup n = some q := by
  induction cs generalizing k with
  | nil =>
    refine .inr ⟨?_, hq⟩
    rintro ⟨c, hc, -⟩
    cases hc
  | cons c cs ih =>
    have hexpected' : ∀ c ∈ cs, slotScore c.expected ≤ now :=
      fun c hc => hexpected c (List.mem_cons_of_mem _ hc)
    have hnext' : ∀ c ∈ cs, now < slotScore c.next := fun c hc => hnext c (List.mem_cons_of_mem _ hc)
    rw [List.foldl_cons]
    by_cases hhit : n = c.name ∧ k.due.lookup n = some (slotScore c.expected : ℚ)
    · have hmoved : (claim k c).due.lookup n = some (slotScore c.next : ℚ) := by
        rw [due_claim, if_pos hhit]
      have hlt : (now : ℚ) < slotScore c.next := Int.cast_lt.2 (hnext c List.mem_cons_self)
      refine .inl ⟨⟨c, List.mem_cons_self, hhit.1.symm, ?_⟩, _, ?_, hlt⟩
      · exact Option.some.inj (hhit.2.symm.trans hq)
      · rw [due_claims_of_not_due hexpected', hmoved]
        rw [hmoved]
        rintro q' heq
        cases heq
        exact hlt
    · have hsame : (claim k c).due.lookup n = some q := by rw [due_claim, if_neg hhit, hq]
      have hfirst : ¬(c.name = n ∧ (slotScore c.expected : ℚ) = q) := by
        rintro ⟨rfl, heq⟩
        exact hhit ⟨rfl, hq.trans (congrArg some heq.symm)⟩
      rcases ih hexpected' hnext' hsame with ⟨⟨c', hc', hmatch⟩, hmoved⟩ | ⟨hnone, hstays⟩
      · exact .inl ⟨⟨c', List.mem_cons_of_mem _ hc', hmatch⟩, hmoved⟩
      · refine .inr ⟨?_, hstays⟩
        rintro ⟨c', hc', hmatch⟩
        rcases List.mem_cons.1 hc' with rfl | hc'
        · exact hfirst hmatch
        · exact hnone ⟨c', hc', hmatch⟩

end Claims

end Fire

/-! ### Every due slot is settled -/

/-- A slot that was due is removed, or moved past `now`, or its name is among the failed ones. -/
def Settled (now : ℤ) (k' : Keys) (failed : List String) (n : String) : Prop :=
  k'.due.lookup n = none ∨ (∃ q, k'.due.lookup n = some q ∧ now < q) ∨ n ∈ failed

theorem fired_fields {calls : Calls} {now slot : ℤ} {e : ScheduleEntry} {c : Claim}
    (h : fired calls now e slot = some c) : c.name = e.name ∧ c.expected = slot ∧ now < c.next := by
  obtain ⟨hname, hexpected, hnext, -⟩ := fireArgs_eq_some (Option.filter_eq_some_iff.1 h).1
  exact ⟨hname, hexpected, hnext.2⟩

/-- A claim of the rows is that of a due row. -/
theorem exists_claim_iff {calls : Calls} {now : ℤ} {k : Keys} {rows : List (String × ℚ)}
    (hrows : ∀ n q, (n, q) ∈ rows ↔ ∃ e, DueRow calls.hash now k n e q) {P : Claim → Prop} :
    (∃ c ∈ rows.filterMap (rowClaim calls now k.schedule), P c) ↔
      ∃ m e q c, DueRow calls.hash now k m e q ∧ fired calls now e (trunc q) = some c ∧ P c := by
  constructor
  · rintro ⟨c, hc, hP⟩
    obtain ⟨⟨m, q⟩, hrow, hclaim⟩ := List.mem_filterMap.1 hc
    obtain ⟨e, hdue⟩ := (hrows m q).1 hrow
    refine ⟨m, e, q, c, hdue, ?_, hP⟩
    simpa [rowClaim, hdue.entry] using hclaim
  · rintro ⟨m, e, q, c, hdue, hfired, hP⟩
    refine ⟨c, List.mem_filterMap.2 ⟨(m, q), (hrows m q).2 ⟨e, hdue⟩, ?_⟩, hP⟩
    simpa [rowClaim, hdue.entry] using hfired

/-- The claims that a tick makes. -/
def claims (calls : Calls) (now : ℤ) (k : Keys) : List Claim :=
  (dueRows (swept calls.hash now k) now DUE_BATCH).filterMap (rowClaim calls now k.schedule)

/-- The names that a tick could not fire. -/
def failures (calls : Calls) (now : ℤ) (k : Keys) : List String :=
  ((dueRows (swept calls.hash now k) now DUE_BATCH).filter fun row =>
    (rowClaim calls now k.schedule row).isNone).map Prod.fst

/-- No exception leaves the tick: every score is finite, `next_after` of no definition that is seeded
overflows, and the firing of no due row raises. -/
structure NoneRaises (calls : Calls) (now : ℤ) (k : Keys) : Prop where
  finite : k.infinite = []
  seeds : ∀ n e, k.schedule.lookup n = some e → seedRaises calls now k n e = false
  fires : ∀ n e q, DueRow calls.hash now k n e q → ¬Raises calls now e (trunc q)

section Settles

variable {calls : Calls} {now : ℤ} (hnonneg : 0 ≤ now) (hnow : now < 2 ^ 53) {k : Keys}
  (hbatch : (dueSlots k now).length ≤ DUE_BATCH)

include hnonneg hnow hbatch

/-- The rows of a tick are the due rows. -/
theorem mem_rows {n : String} {q : ℚ} :
    (n, q) ∈ dueRows (swept calls.hash now k) now DUE_BATCH ↔
      ∃ e, DueRow calls.hash now k n e q := by
  have hlength : (dueSlots (swept calls.hash now k) now).length ≤ DUE_BATCH :=
    (length_dueSlots_swept hnonneg hnow k).trans hbatch
  rw [(dueRows_perm hlength).mem_iff]
  exact mem_dueSlots_swept hnonneg hnow

/-- **A tick returns** exactly when nothing raises; then the claims of the due rows are made one after
the other, and the rows without a claim fail. -/
theorem tick_eq (hraises : NoneRaises calls now k) :
    tick calls now k =
      some ((claims calls now k).foldl claim (swept calls.hash now k), failures calls now k) := by
  have hseeds : (k.schedule.pairs.any fun p => seedRaises calls now k p.1 p.2) = false := by
    rw [List.any_eq_false]
    rintro ⟨n, e⟩ hmem
    rw [hraises.seeds n e (AList.mem_pairs.1 hmem)]
    exact Bool.false_ne_true
  rw [tick, hraises.finite, List.isEmpty_nil, if_pos rfl, hseeds, if_neg Bool.false_ne_true]
  refine fireRows_eq ?_ _
  rintro ⟨n, q⟩ hrow
  obtain ⟨e, hdue⟩ := (mem_rows hnonneg hnow hbatch).1 hrow
  exact ⟨e, hdue.entry, hdue.enabled, hraises.fires n e q hdue⟩

theorem noneRaises_of_tick {out : Keys × List String} (h : tick calls now k = some out) :
    NoneRaises calls now k := by
  unfold tick at h
  split_ifs at h with hfinite hseeds
  refine ⟨List.isEmpty_iff.1 hfinite, ?_, ?_⟩
  · intro n e hentry
    by_contra hraise
    exact hseeds (List.any_eq_true.2 ⟨(n, e), AList.mem_pairs.2 hentry, by simpa using hraise⟩)
  · intro n e q hdue hraise
    have hnone : fireRows calls now k.schedule (dueRows (swept calls.hash now k) now DUE_BATCH)
        (swept calls.hash now k) = none := by
      refine fireRows_eq_none ?_ ⟨(n, q), ?_, e, hdue.entry, hraise⟩ _
      · rintro ⟨m, q'⟩ hrow
        obtain ⟨e', hdue'⟩ := (mem_rows hnonneg hnow hbatch).1 hrow
        exact ⟨e', hdue'.entry, hdue'.enabled⟩
      · exact (mem_rows hnonneg hnow hbatch).2 ⟨e, hdue⟩
    rw [hnone] at h
    cases h

theorem exists_mem_claims {P : Claim → Prop} :
    (∃ c ∈ claims calls now k, P c) ↔
      ∃ m e q c, DueRow calls.hash now k m e q ∧ fired calls now e (trunc q) = some c ∧ P c :=
  exists_claim_iff fun _ _ => mem_rows hnonneg hnow hbatch

/-- What a claim expects is due, and what it sets is not. -/
theorem due_of_mem_claims {c : Claim} (hc : c ∈ claims calls now k) :
    slotScore c.expected ≤ now ∧ now < slotScore c.next := by
  obtain ⟨m, e, q, c', hdue, hfired, rfl⟩ := (exists_mem_claims hnonneg hnow hbatch).1 ⟨c, hc, rfl⟩
  obtain ⟨-, hexpected, hnext⟩ := fired_fields hfired
  refine ⟨?_, lt_slotScore hnonneg hnow hnext⟩
  rw [hexpected]
  exact slotScore_le hnonneg hnow (trunc_le hdue.le)

/-- A slot is named and expected by the claim of a due row. -/
def Matched (calls : Calls) (now : ℤ) (k : Keys) (n : String) (q : ℚ) : Prop :=
  ∃ m e q', DueRow calls.hash now k m e q' ∧ (fired calls now e (trunc q')).isSome ∧
    e.name = n ∧ (slotScore (trunc q') : ℚ) = q

theorem matched_iff {n : String} {q : ℚ} :
    Matched calls now k n q ↔
      ∃ c ∈ claims calls now k, c.name = n ∧ (slotScore c.expected : ℚ) = q := by
  rw [exists_mem_claims hnonneg hnow hbatch]
  constructor
  · rintro ⟨m, e, q', hdue, hsome, hname, hscore⟩
    obtain ⟨c, hfired⟩ := Option.isSome_iff_exists.1 hsome
    obtain ⟨hname', hexpected, -⟩ := fired_fields hfired
    exact ⟨m, e, q', c, hdue, hfired, hname'.trans hname, by rw [hexpected, hscore]⟩
  · rintro ⟨m, e, q', c, hdue, hfired, hname, hscore⟩
    obtain ⟨hname', hexpected, -⟩ := fired_fields hfired
    exact ⟨m, e, q', hdue, by simp [hfired], hname' ▸ hname, hexpected ▸ hscore⟩

theorem mem_failures_iff {n : String} {e : ScheduleEntry} {q : ℚ}
    (hdue : DueRow calls.hash now k n e q) :
    n ∈ failures calls now k ↔ fired calls now e (trunc q) = none := by
  constructor
  · intro hmem
    obtain ⟨⟨n', q'⟩, hrow, rfl⟩ := List.mem_map.1 hmem
    obtain ⟨hrow, hnone⟩ := List.mem_filter.1 hrow
    obtain ⟨e', hdue'⟩ := (mem_rows hnonneg hnow hbatch).1 hrow
    have hq := Option.some.inj (hdue'.due.symm.trans hdue.due)
    subst hq
    simpa [rowClaim, hdue.entry] using hnone
  · intro hnone
    have hrow := (mem_rows hnonneg hnow hbatch).2 ⟨e, hdue⟩
    refine List.mem_map.2 ⟨(n, q), List.mem_filter.2 ⟨hrow, ?_⟩, rfl⟩
    simp [rowClaim, hdue.entry, hnone]

/-- **A due row after the tick**: it fails without a claim, is moved by a claim that matches it, and
stays otherwise. -/
theorem settled_dueRow_iff {n : String} {e : ScheduleEntry} {q : ℚ}
    (hdue : DueRow calls.hash now k n e q) :
    Settled now ((claims calls now k).foldl claim (swept calls.hash now k)) (failures calls now k)
        n ↔
      ((fired calls now e (trunc q)).isSome → Matched calls now k n q) := by
  have hswept : (swept calls.hash now k).due.lookup n = some q :=
    (mem_dueSlots.1 ((mem_dueSlots_swept hnonneg hnow).2 ⟨e, hdue⟩)).1
  rw [matched_iff hnonneg hnow hbatch, Settled, mem_failures_iff hnonneg hnow hbatch hdue]
  rcases due_claims (fun c hc => (due_of_mem_claims hnonneg hnow hbatch hc).1)
    (fun c hc => (due_of_mem_claims hnonneg hnow hbatch hc).2) hswept with
    ⟨hmatch, hmoved⟩ | ⟨hnone, hstays⟩
  · exact ⟨fun _ _ => hmatch, fun _ => .inr (.inl hmoved)⟩
  · constructor
    · rintro (hgone | ⟨q', hq', hlt⟩ | hfail) hsome
      · rw [hstays] at hgone
        cases hgone
      · rw [hstays] at hq'
        cases hq'
        exact absurd hdue.le (not_le.2 hlt)
      · simp [hfail] at hsome
    · intro h
      refine .inr (.inr ?_)
      by_contra hfired
      exact hnone (h (Option.isSome_iff_ne_none.2 hfired))

/-- A slot that is not among the rows is not due after the tick. -/
theorem lt_of_not_dueRow {n : String} (hnot : ∀ e q, ¬DueRow calls.hash now k n e q) {q : ℚ}
    (hq : ((claims calls now k).foldl claim (swept calls.hash now k)).due.lookup n = some q) :
    now < q := by
  have hlater : ∀ q', (swept calls.hash now k).due.lookup n = some q' → now < q' := by
    intro q' hq'
    by_contra hle
    have hmem : (n, q') ∈ dueSlots (swept calls.hash now k) now :=
      mem_dueSlots.2 ⟨hq', not_lt.1 hle⟩
    obtain ⟨e, hdue⟩ := (mem_dueSlots_swept hnonneg hnow).1 hmem
    exact hnot e q' hdue
  have hexpected : ∀ c ∈ claims calls now k, slotScore c.expected ≤ now :=
    fun c hc => (due_of_mem_claims hnonneg hnow hbatch hc).1
  rw [due_claims_of_not_due hexpected hlater] at hq
  exact hlater q hq

/-- Where the due rows are settled, so is every slot. -/
theorem settled_of_dueRows
    (h : ∀ n e q, DueRow calls.hash now k n e q → Settled now
      ((claims calls now k).foldl claim (swept calls.hash now k)) (failures calls now k) n)
    (n : String) :
    Settled now ((claims calls now k).foldl claim (swept calls.hash now k)) (failures calls now k)
      n := by
  by_cases hrow : ∃ e q, DueRow calls.hash now k n e q
  · obtain ⟨e, q, hdue⟩ := hrow
    exact h n e q hdue
  · have hnot : ∀ e q, ¬DueRow calls.hash now k n e q := fun e q hdue => hrow ⟨e, q, hdue⟩
    cases hq : ((claims calls now k).foldl claim (swept calls.hash now k)).due.lookup n with
    | none => exact .inl hq
    | some q => exact .inr (.inl ⟨q, hq, lt_of_not_dueRow hnonneg hnow hbatch hnot hq⟩)

end Settles

theorem lt_of_mem_upcoming {k : Keys} {now maxIntervalMs : ℤ} {failed : List String}
    (h : ∀ n, Settled now k failed n) {row : String × ℚ}
    (hrow : row ∈ upcoming k now maxIntervalMs failed) : now < row.2 := by
  obtain ⟨hrow, hfailed⟩ := List.mem_filter.1 hrow
  have hmem : row ∈ dueSlots k (now + maxIntervalMs) :=
    (List.perm_insertionSort _ _).mem_iff.1 (List.mem_of_mem_take hrow)
  have hq := (mem_dueSlots.1 hmem).1
  rcases h row.1 with hgone | ⟨q, hq', hlt⟩ | hmem
  · rw [hgone] at hq
    cases hq
  · rw [hq] at hq'
    cases hq'
    exact hlt
  · exact absurd hmem (of_decide_eq_true hfailed)

/-- The slot of a definition that carries the name of its hash field is matched by its own claim, if
its score is a slot's. -/
theorem matched_self {calls : Calls} {now : ℤ} {k : Keys} {n : String} {e : ScheduleEntry} {slot : ℤ}
    (hdue : DueRow calls.hash now k n e slot) (hname : e.name = n) (hscore : slotScore slot = slot)
    (hfired : (fired calls now e slot).isSome) : Matched calls now k n slot := by
  refine ⟨n, e, slot, hdue, ?_, hname, ?_⟩
  · rw [trunc_intCast]
    exact hfired
  · rw [trunc_intCast, hscore]

/-- Calls that all succeed. -/
def plainCalls : Calls where
  hash _ enabled := if enabled then "rev" else ""
  build _ _ := some ⟨"id", none⟩
  encodes _ := true
  overflows _ _ := false

/-- A definition that fires every minute, under a name of its own. -/
def minuteEntry (inner : String) : ScheduleEntry where
  name := inner
  task := "report"
  schedule := .interval 60_000 (by norm_num)

/-- The definition in the hash field `nightly`, and its slot 0. -/
def nightly (inner : String) : Keys where
  schedule := (∅ : Hash ScheduleEntry).insert "nightly" (minuteEntry inner)
  due := (∅ : Hash ℚ).insert "nightly" 0
  rev := (∅ : Hash String).insert "nightly" "rev"

theorem lookup_nightly {inner n : String} {e : ScheduleEntry}
    (h : (nightly inner).schedule.lookup n = some e) : n = "nightly" ∧ e = minuteEntry inner := by
  by_cases hn : n = "nightly"
  · subst hn
    exact ⟨rfl, (Option.some.inj ((AList.lookup_insert _).symm.trans h)).symm⟩
  · rw [nightly, AList.lookup_insert_ne hn] at h
    cases h

/-- **When a tick settles every due slot**, for every content of the keys with at most as many due
slots as a tick takes, so that the sleep is computed from slots after `now` only: exactly when nothing
raises, and every due slot whose firing gets as far as its claim is named and expected by the claim of
a due row. -/
theorem tick_settles_iff (calls : Calls) {now : ℤ} (hnonneg : 0 ≤ now) (hnow : now < 2 ^ 53)
    (maxIntervalMs : ℤ) {k : Keys} (hbatch : (dueSlots k now).length ≤ DUE_BATCH) :
    (∃ k' failed, tick calls now k = some (k', failed) ∧
        (∀ n q, k.due.lookup n = some q → q ≤ now → Settled now k' failed n) ∧
        ∀ row ∈ upcoming k' now maxIntervalMs failed, now < row.2) ↔
      NoneRaises calls now k ∧
      ∀ n e q, DueRow calls.hash now k n e q → (fired calls now e (trunc q)).isSome →
        Matched calls now k n q := by
  constructor
  · rintro ⟨k', failed, htick, hsettled, -⟩
    have hraises := noneRaises_of_tick hnonneg hnow hbatch htick
    rw [tick_eq hnonneg hnow hbatch hraises] at htick
    cases htick
    refine ⟨hraises, ?_⟩
    intro n e q hdue
    exact (settled_dueRow_iff hnonneg hnow hbatch hdue).1 (hsettled n q hdue.due hdue.le)
  · rintro ⟨hraises, hmatch⟩
    have hsettled := settled_of_dueRows hnonneg hnow hbatch fun n e q hdue =>
      (settled_dueRow_iff hnonneg hnow hbatch hdue).2 (hmatch n e q hdue)
    exact ⟨_, _, tick_eq hnonneg hnow hbatch hraises, fun n _ _ _ => hsettled n,
      fun row hrow => lt_of_mem_upcoming hsettled hrow⟩

/-- The definition with the name of its hash field fires. -/
theorem tick_settles_iff_nightly :
    ∃ k' failed, tick plainCalls 60_000 (nightly "nightly") = some (k', failed) ∧
      (∀ n q, (nightly "nightly").due.lookup n = some q → q ≤ (60_000 : ℤ) →
        Settled 60_000 k' failed n) ∧
      ∀ row ∈ upcoming k' 60_000 5_000 failed, (60_000 : ℤ) < row.2 := by
  refine (tick_settles_iff plainCalls (by norm_num) (by norm_num) 5_000 (by decide)).2
    ⟨⟨rfl, ?_, ?_⟩, ?_⟩
  · intro n e hentry
    obtain ⟨rfl, rfl⟩ := lookup_nightly hentry
    decide
  · intro n e q hdue
    obtain ⟨rfl, rfl⟩ := lookup_nightly hdue.entry
    rintro (⟨-, hover⟩ | ⟨-, hsuppress⟩)
    · cases hover
    · cases hsuppress
  · intro n e q hdue hfired
    obtain ⟨rfl, rfl⟩ := lookup_nightly hdue.entry
    have hq : (0 : ℚ) = q := Option.some.inj ((AList.lookup_insert _).symm.trans hdue.due)
    subst hq
    have hdue : DueRow plainCalls.hash 60_000 (nightly "nightly") "nightly" (minuteEntry "nightly")
        ((0 : ℤ) : ℚ) := by exact_mod_cast hdue
    exact_mod_cast matched_self hdue rfl (slotScore_eq (by norm_num)) hfired

/-- Under another name it is reported as fired and stays due. -/
theorem nightly2_left_due :
    ¬∃ k' failed, tick plainCalls 60_000 (nightly "nightly2") = some (k', failed) ∧
      (∀ n q, (nightly "nightly2").due.lookup n = some q → q ≤ (60_000 : ℤ) →
        Settled 60_000 k' failed n) ∧
      ∀ row ∈ upcoming k' 60_000 5_000 failed, (60_000 : ℤ) < row.2 := by
  have hrun : (tick plainCalls 60_000 (nightly "nightly2")).map
      (fun r => (r.1.due.lookup "nightly", r.2)) = some (some 0, []) := by decide +kernel
  rintro ⟨k', failed, htick, hsettled, -⟩
  rw [htick] at hrun
  obtain ⟨hdue, hfailed⟩ := Prod.mk.inj (Option.some.inj hrun)
  rcases hsettled "nightly" 0 (AList.lookup_insert _) (by norm_num) with hgone | ⟨q, hq, hlt⟩ | hmem
  · rw [hdue] at hgone
    cases hgone
  · rw [hdue] at hq
    cases hq
    norm_num at hlt
  · change "nightly" ∈ failed at hmem
    rw [show failed = [] from hfailed] at hmem
    cases hmem

end Cauli.OneTick
