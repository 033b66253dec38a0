import Mathlib.Order.Lattice
import Mathlib.Data.List.Sort
import Mathlib.Tactic.Common
import Mathlib.Tactic.Ring
import Mathlib.Algebra.Order.Group.Nat

/-!
# An append-only stream with one consumer group

The stream commands of a Redis server, at the level of their documented effect on the entries, on
the group's last delivered id and on its pending entries list. The state carries its own
well-formedness: entries and pending records are sorted by id, nothing is newer than the last
generated id, and nothing is pending that was not delivered.

* `StreamId`: pairs of 64-bit numbers, ordered by `StreamId.key`;
* `xadd`, `xreadgroup`, `xclaim`, `xack`, `xdel`, `xtrim`, `xpending`;
* `Settled`: delivered and no longer pending; `Live`: in the stream and not settled;
* `Evolves`: what every command does to the ids. A settled id stays settled (`Evolves.settled`),
  because `>` delivers ascending ids and `xclaim` only touches pending ones.
-/

namespace GroupStream

/-- An entry id `ms-seq`. -/
@[ext] structure StreamId where
  ms : ℕ
  seq : ℕ
  ms_lt : ms < 2 ^ 64
  seq_lt : seq < 2 ^ 64
  deriving DecidableEq

namespace StreamId

/-- The id as one number; the order of ids is the order of their keys. -/
def key (i : StreamId) : ℕ := i.ms * 2 ^ 64 + i.seq

theorem key_injective : Function.Injective key := by
  intro a b h
  have ha := a.seq_lt
  have hb := b.seq_lt
  unfold key at h
  ext <;> omega

instance : LinearOrder StreamId := LinearOrder.lift' key key_injective

theorem lt_iff {a b : StreamId} : a < b ↔ a.key < b.key := Iff.rfl

theorem le_iff {a b : StreamId} : a ≤ b ↔ a.key ≤ b.key := Iff.rfl

theorem zero_lt : 0 < 2 ^ 64 := by decide

theorem one_lt : 1 < 2 ^ 64 := by decide

/-- The id `0-0`, below every generated one. -/
def zero : StreamId := ⟨0, 0, zero_lt, zero_lt⟩

end StreamId

/-- A stream entry. -/
structure Entry (α : Type) where
  id : StreamId
  value : α
  deriving DecidableEq

/-- A record of the pending entries list. -/
structure Pending where
  id : StreamId
  consumer : ℕ
  deliveredAt : ℕ
  count : ℕ
  deriving DecidableEq

/-- A stream and its group. -/
structure Stream (α : Type) where
  entries : List (Entry α)
  lastId : StreamId
  lastDelivered : StreamId
  pel : List Pending
  entries_sorted : entries.Pairwise (·.id < ·.id)
  entries_le : ∀ e ∈ entries, e.id ≤ lastId
  delivered_le : lastDelivered ≤ lastId
  pel_sorted : pel.Pairwise (·.id < ·.id)
  pel_le : ∀ p ∈ pel, p.id ≤ lastDelivered

namespace Stream

variable {α : Type}

/-- The empty stream with its group created at `0`. -/
def empty : Stream α where
  entries := []
  lastId := .zero
  lastDelivered := .zero
  pel := []
  entries_sorted := .nil
  entries_le := by simp
  delivered_le := le_rfl
  pel_sorted := .nil
  pel_le := by simp

/-- `XADD`: the new id is above every earlier one. -/
def xadd (s : Stream α) (id : StreamId) (v : α) : Option (Stream α) :=
  if h : s.lastId < id then
    some { s with
      entries := s.entries ++ [⟨id, v⟩]
      lastId := id
      entries_sorted := by
        refine List.pairwise_append.2 ⟨s.entries_sorted, List.pairwise_singleton _ _, ?_⟩
        intro a ha b hb
        rw [List.mem_singleton.1 hb]
        exact (s.entries_le a ha).trans_lt h
      entries_le := by
        intro e he
        rcases List.mem_append.1 he with he | he
        · exact (s.entries_le e he).trans h.le
        · rw [List.mem_singleton.1 he]
      delivered_le := s.delivered_le.trans h.le }
  else none

theorem lastId_lt_of_xadd {s t : Stream α} {id : StreamId} {v : α} (h : s.xadd id v = some t) :
    s.lastId < id := by
  unfold xadd at h
  split_ifs at h with hlt
  exact hlt

theorem xadd_eq_some {s t : Stream α} {id : StreamId} {v : α} (h : s.xadd id v = some t) :
    t.entries = s.entries ++ [⟨id, v⟩] ∧ t.lastDelivered = s.lastDelivered ∧ t.pel = s.pel := by
  unfold xadd at h
  split_ifs at h
  cases h
  exact ⟨rfl, rfl, rfl⟩

/-- The next `count` undelivered entries: the reply of `XREADGROUP ... COUNT count STREAMS key >`. -/
def fresh (s : Stream α) (count : ℕ) : List (Entry α) :=
  (s.entries.filter fun e => decide (s.lastDelivered < e.id)).take count

theorem mem_fresh {s : Stream α} {count : ℕ} {e : Entry α} (h : e ∈ s.fresh count) :
    e ∈ s.entries ∧ s.lastDelivered < e.id := by
  simpa using List.mem_filter.1 (List.mem_of_mem_take h)

theorem fresh_sorted (s : Stream α) (count : ℕ) : (s.fresh count).Pairwise (·.id < ·.id) :=
  (s.entries_sorted.filter _).sublist (List.take_sublist _ _)

/-- The last delivered id after a read. -/
def deliveredAfter (s : Stream α) (count : ℕ) : StreamId :=
  ((s.fresh count).getLast?.map (·.id)).getD s.lastDelivered

theorem deliveredAfter_mem (s : Stream α) (count : ℕ) :
    s.deliveredAfter count = s.lastDelivered ∨
      ∃ e ∈ s.fresh count, s.deliveredAfter count = e.id := by
  unfold deliveredAfter
  cases h : (s.fresh count).getLast? with
  | none => exact Or.inl rfl
  | some e => exact Or.inr ⟨e, List.mem_of_getLast? h, rfl⟩

theorem lastDelivered_le_deliveredAfter (s : Stream α) (count : ℕ) :
    s.lastDelivered ≤ s.deliveredAfter count := by
  rcases s.deliveredAfter_mem count with h | ⟨e, he, h⟩
  · exact h.ge
  · rw [h]; exact (mem_fresh he).2.le

theorem fresh_le_deliveredAfter {s : Stream α} {count : ℕ} {e : Entry α}
    (he : e ∈ s.fresh count) : e.id ≤ s.deliveredAfter count := by
  have hne := List.ne_nil_of_mem he
  have hsorted := s.fresh_sorted count
  unfold deliveredAfter
  rw [List.getLast?_eq_some_getLast hne, Option.map_some, Option.getD_some]
  rw [← List.dropLast_append_getLast hne] at he hsorted
  rcases List.mem_append.1 he with he | he
  · exact ((List.pairwise_append.1 hsorted).2.2 e he _ (List.mem_singleton_self _)).le
  · rw [List.mem_singleton.1 he]

/-- `XREADGROUP` with `>`: the fresh entries become pending for `consumer`. -/
def xreadgroup (s : Stream α) (consumer now count : ℕ) : Stream α where
  entries := s.entries
  lastId := s.lastId
  lastDelivered := s.deliveredAfter count
  pel := s.pel ++ (s.fresh count).map fun e => ⟨e.id, consumer, now, 1⟩
  entries_sorted := s.entries_sorted
  entries_le := s.entries_le
  delivered_le := by
    rcases s.deliveredAfter_mem count with h | ⟨e, he, h⟩
    · rw [h]; exact s.delivered_le
    · rw [h]; exact s.entries_le e (mem_fresh he).1
  pel_sorted := by
    refine List.pairwise_append.2 ⟨s.pel_sorted, ?_, ?_⟩
    · exact List.pairwise_map.2 (s.fresh_sorted count)
    · intro p hp q hq
      obtain ⟨e, he, rfl⟩ := List.mem_map.1 hq
      exact (s.pel_le p hp).trans_lt (mem_fresh he).2
  pel_le := by
    intro p hp
    rcases List.mem_append.1 hp with hp | hp
    · exact (s.pel_le p hp).trans (s.lastDelivered_le_deliveredAfter count)
    · obtain ⟨e, he, rfl⟩ := List.mem_map.1 hp
      exact fresh_le_deliveredAfter he

/-- `XACK`: the ids leave the pending list. -/
def xack (s : Stream α) (ids : List StreamId) : Stream α where
  entries := s.entries
  lastId := s.lastId
  lastDelivered := s.lastDelivered
  pel := s.pel.filter fun p => decide (p.id ∉ ids)
  entries_sorted := s.entries_sorted
  entries_le := s.entries_le
  delivered_le := s.delivered_le
  pel_sorted := s.pel_sorted.filter _
  pel_le p hp := s.pel_le p (List.mem_filter.1 hp).1

/-- The entries that satisfy `keep`; ids are never reused, so the bounds stay. -/
def retain (s : Stream α) (keep : StreamId → Bool) : Stream α where
  entries := s.entries.filter fun e => keep e.id
  lastId := s.lastId
  lastDelivered := s.lastDelivered
  pel := s.pel
  entries_sorted := s.entries_sorted.filter _
  entries_le e he := s.entries_le e (List.mem_filter.1 he).1
  delivered_le := s.delivered_le
  pel_sorted := s.pel_sorted
  pel_le := s.pel_le

/-- `XDEL`. -/
def xdel (s : Stream α) (ids : List StreamId) : Stream α := s.retain fun i => decide (i ∉ ids)

/-- `XTRIM MINID`: ids strictly below the bound are removed. -/
def xtrim (s : Stream α) (minid : StreamId) : Stream α := s.retain fun i => decide (minid ≤ i)

/-- Change of owner, delivery time and count of one pending id. -/
def redeliver (s : Stream α) (consumer now : ℕ) (id : StreamId) : Stream α where
  entries := s.entries
  lastId := s.lastId
  lastDelivered := s.lastDelivered
  pel := s.pel.map fun p => if p.id = id then ⟨p.id, consumer, now, p.count + 1⟩ else p
  entries_sorted := s.entries_sorted
  entries_le := s.entries_le
  delivered_le := s.delivered_le
  pel_sorted := by
    refine List.pairwise_map.2 (s.pel_sorted.imp ?_)
    intro p q hpq
    split_ifs <;> exact hpq
  pel_le := by
    intro p hp
    obtain ⟨q, hq, rfl⟩ := List.mem_map.1 hp
    split_ifs <;> exact s.pel_le q hq

/-- The pending record of an id. -/
def pending? (s : Stream α) (id : StreamId) : Option Pending := s.pel.find? fun p => p.id = id

/-- The entry of an id: `XRANGE key id id`. -/
def entry? (s : Stream α) (id : StreamId) : Option (Entry α) := s.entries.find? fun e => e.id = id

/-- `XCLAIM key group consumer min-idle id`: a pending id idle for long enough changes hands and
its entry is returned; an id whose entry is gone leaves the pending list. -/
def xclaim (s : Stream α) (consumer now minIdle : ℕ) (id : StreamId) :
    Stream α × Option (Entry α) :=
  match s.entry? id with
  | none => (s.xack [id], none)
  | some e =>
    match s.pending? id with
    | none => (s, none)
    | some p =>
      if minIdle ≤ now - p.deliveredAt then (s.redeliver consumer now id, some e) else (s, none)

/-- `XPENDING key group IDLE min-idle start + count`, `start` exclusive when given. -/
def xpending (s : Stream α) (now minIdle : ℕ) (start : Option StreamId) (count : ℕ) :
    List Pending :=
  (s.pel.filter fun p =>
    decide (minIdle ≤ now - p.deliveredAt) && start.all fun i => decide (i < p.id)).take count

/-- The oldest pending id: `XPENDING key group - + 1`. -/
def oldestPending (s : Stream α) : Option StreamId := s.pel.head?.map (·.id)

/-! ### Lookup -/

theorem pending?_eq_some {s : Stream α} {id : StreamId} {p : Pending}
    (h : s.pending? id = some p) : p ∈ s.pel ∧ p.id = id :=
  ⟨List.mem_of_find?_eq_some h, by simpa using List.find?_some h⟩

theorem entry?_eq_some {s : Stream α} {id : StreamId} {e : Entry α}
    (h : s.entry? id = some e) : e ∈ s.entries ∧ e.id = id :=
  ⟨List.mem_of_find?_eq_some h, by simpa using List.find?_some h⟩

theorem entry?_eq_none {s : Stream α} {id : StreamId} (h : s.entry? id = none) :
    ∀ e ∈ s.entries, e.id ≠ id := by
  intro e he
  simpa using List.find?_eq_none.1 h e he

/-- Two records of the same list with one id are the same record. -/
theorem eq_of_sorted {β : Type} {f : β → StreamId} {l : List β}
    (h : l.Pairwise fun a b => f a < f b) {a b : β} (ha : a ∈ l) (hb : b ∈ l) (hab : f a = f b) :
    a = b := by
  by_contra hne
  rcases List.pairwise_iff_getElem.1 h with h
  obtain ⟨i, hi, rfl⟩ := List.getElem_of_mem ha
  obtain ⟨j, hj, rfl⟩ := List.getElem_of_mem hb
  rcases lt_trichotomy i j with hij | rfl | hij
  · exact absurd hab (h i j hi hj hij).ne
  · exact hne rfl
  · exact absurd hab (h j i hj hi hij).ne'

theorem entry_unique {s : Stream α} {a b : Entry α} (ha : a ∈ s.entries) (hb : b ∈ s.entries)
    (hab : a.id = b.id) : a = b := eq_of_sorted s.entries_sorted ha hb hab

theorem pending_unique {s : Stream α} {p q : Pending} (hp : p ∈ s.pel) (hq : q ∈ s.pel)
    (hpq : p.id = q.id) : p = q := eq_of_sorted s.pel_sorted hp hq hpq

theorem pending?_of_mem {s : Stream α} {p : Pending} (hp : p ∈ s.pel) :
    s.pending? p.id = some p := by
  cases h : s.pending? p.id with
  | none => exact absurd (List.find?_eq_none.1 h p hp) (by simp)
  | some q =>
    obtain ⟨hq, hid⟩ := pending?_eq_some h
    rw [pending_unique hq hp hid]

theorem entry?_of_mem {s : Stream α} {e : Entry α} (he : e ∈ s.entries) :
    s.entry? e.id = some e := by
  cases h : s.entry? e.id with
  | none => exact absurd rfl (entry?_eq_none h e he)
  | some f =>
    obtain ⟨hf, hid⟩ := entry?_eq_some h
    rw [entry_unique hf he hid]

/-! ### Settled and live ids -/

/-- Delivered and no longer pending. -/
def Settled (s : Stream α) (id : StreamId) : Prop :=
  id ≤ s.lastDelivered ∧ ∀ p ∈ s.pel, p.id ≠ id

/-- In the stream, and undelivered or pending. -/
def Live (s : Stream α) (e : Entry α) : Prop := e ∈ s.entries ∧ ¬ s.Settled e.id

theorem live_iff {s : Stream α} {e : Entry α} :
    s.Live e ↔ e ∈ s.entries ∧ (s.lastDelivered < e.id ∨ ∃ p ∈ s.pel, p.id = e.id) := by
  unfold Live Settled
  constructor
  · rintro ⟨he, h⟩
    refine ⟨he, ?_⟩
    by_contra hn
    push Not at hn
    exact h ⟨hn.1, hn.2⟩
  · rintro ⟨he, hlt | ⟨p, hp, hid⟩⟩
    · exact ⟨he, fun hs => absurd hs.1 (not_le.2 hlt)⟩
    · exact ⟨he, fun hs => hs.2 p hp hid⟩

/-- What a command may do to the ids of a stream. A pending id is as it was, was delivered once
more, or is new. -/
structure Evolves (s t : Stream α) : Prop where
  lastId_le : s.lastId ≤ t.lastId
  delivered_le : s.lastDelivered ≤ t.lastDelivered
  pel_old : ∀ p ∈ t.pel,
    (∃ q ∈ s.pel, q.id = p.id ∧ (q = p ∨ q.count < p.count)) ∨ s.lastDelivered < p.id
  entries_old : ∀ e ∈ t.entries, e ∈ s.entries ∨ s.lastId < e.id

theorem Evolves.refl (s : Stream α) : Evolves s s where
  lastId_le := le_rfl
  delivered_le := le_rfl
  pel_old p hp := Or.inl ⟨p, hp, rfl, Or.inl rfl⟩
  entries_old _ he := Or.inl he

theorem Evolves.trans {s t u : Stream α} (h₁ : Evolves s t) (h₂ : Evolves t u) : Evolves s u where
  lastId_le := h₁.lastId_le.trans h₂.lastId_le
  delivered_le := h₁.delivered_le.trans h₂.delivered_le
  pel_old p hp := by
    rcases h₂.pel_old p hp with ⟨q, hq, hqp, hcount⟩ | hlt
    · rcases h₁.pel_old q hq with ⟨r, hr, hrq, hcount'⟩ | hlt
      · refine Or.inl ⟨r, hr, hrq.trans hqp, ?_⟩
        rcases hcount' with rfl | hcount'
        · exact hcount
        · rcases hcount with rfl | hcount
          · exact Or.inr hcount'
          · exact Or.inr (hcount'.trans hcount)
      · exact Or.inr (hqp ▸ hlt)
    · exact Or.inr (h₁.delivered_le.trans_lt hlt)
  entries_old e he := by
    rcases h₂.entries_old e he with he | hlt
    · exact h₁.entries_old e he
    · exact Or.inr (h₁.lastId_le.trans_lt hlt)

/-- **A settled id stays settled.** -/
theorem Evolves.settled {s t : Stream α} (h : Evolves s t) {id : StreamId} (hs : s.Settled id) :
    t.Settled id := by
  refine ⟨hs.1.trans h.delivered_le, fun p hp hid => ?_⟩
  rcases h.pel_old p hp with ⟨q, hq, hqp, -⟩ | hlt
  · exact hs.2 q hq (hqp.trans hid)
  · exact absurd hs.1 (not_le.2 (hid ▸ hlt))

/-- An id up to the last generated one keeps its entry, if it has one. -/
theorem Evolves.entry_mem {s t : Stream α} (h : Evolves s t) {e : Entry α} (he : e ∈ t.entries)
    (hle : e.id ≤ s.lastId) : e ∈ s.entries :=
  (h.entries_old e he).resolve_right (not_lt.2 hle)

theorem evolves_xadd {s t : Stream α} {id : StreamId} {v : α} (h : s.xadd id v = some t) :
    Evolves s t := by
  unfold xadd at h
  split_ifs at h with hlt
  cases h
  refine ⟨hlt.le, le_rfl, fun p hp => Or.inl ⟨p, hp, rfl, Or.inl rfl⟩, fun e he => ?_⟩
  rcases List.mem_append.1 he with he | he
  · exact Or.inl he
  · rw [List.mem_singleton.1 he]; exact Or.inr hlt

theorem evolves_xreadgroup (s : Stream α) (consumer now count : ℕ) :
    Evolves s (s.xreadgroup consumer now count) := by
  refine ⟨le_rfl, s.lastDelivered_le_deliveredAfter count, fun p hp => ?_, fun e he => Or.inl he⟩
  rcases List.mem_append.1 hp with hp | hp
  · exact Or.inl ⟨p, hp, rfl, Or.inl rfl⟩
  · obtain ⟨e, he, rfl⟩ := List.mem_map.1 hp
    exact Or.inr (mem_fresh he).2

theorem evolves_xack (s : Stream α) (ids : List StreamId) : Evolves s (s.xack ids) :=
  ⟨le_rfl, le_rfl, fun p hp => Or.inl ⟨p, (List.mem_filter.1 hp).1, rfl, Or.inl rfl⟩,
    fun _ he => Or.inl he⟩

theorem evolves_retain (s : Stream α) (keep : StreamId → Bool) : Evolves s (s.retain keep) :=
  ⟨le_rfl, le_rfl, fun p hp => Or.inl ⟨p, hp, rfl, Or.inl rfl⟩,
    fun _ he => Or.inl (List.mem_filter.1 he).1⟩

theorem evolves_redeliver (s : Stream α) (consumer now : ℕ) (id : StreamId) :
    Evolves s (s.redeliver consumer now id) := by
  refine ⟨le_rfl, le_rfl, fun p hp => ?_, fun _ he => Or.inl he⟩
  obtain ⟨q, hq, rfl⟩ := List.mem_map.1 hp
  refine Or.inl ⟨q, hq, ?_⟩
  split_ifs
  · exact ⟨rfl, Or.inr (Nat.lt_succ_self _)⟩
  · exact ⟨rfl, Or.inl rfl⟩

/-- The three ways an `XCLAIM` can go. -/
theorem xclaim_cases (s : Stream α) (consumer now minIdle : ℕ) (id : StreamId) :
    s.xclaim consumer now minIdle id = (s, none) ∨
    ((∀ e ∈ s.entries, e.id ≠ id) ∧ s.xclaim consumer now minIdle id = (s.xack [id], none)) ∨
    ∃ e p, e ∈ s.entries ∧ e.id = id ∧ p ∈ s.pel ∧ p.id = id ∧ minIdle ≤ now - p.deliveredAt ∧
      s.xclaim consumer now minIdle id = (s.redeliver consumer now id, some e) := by
  unfold xclaim
  split
  · next he => exact Or.inr (Or.inl ⟨entry?_eq_none he, rfl⟩)
  · next e he =>
    obtain ⟨hmem, hid⟩ := entry?_eq_some he
    split
    · exact Or.inl rfl
    · next p hp =>
      obtain ⟨hpmem, hpid⟩ := pending?_eq_some hp
      split_ifs with hidle
      · exact Or.inr (Or.inr ⟨e, p, hmem, hid, hpmem, hpid, hidle, rfl⟩)
      · exact Or.inl rfl

theorem xclaim_eq_some {s t : Stream α} {consumer now minIdle : ℕ} {id : StreamId} {e : Entry α}
    (h : s.xclaim consumer now minIdle id = (t, some e)) :
    e ∈ s.entries ∧ e.id = id ∧ t = s.redeliver consumer now id ∧
      ∃ p ∈ s.pel, p.id = id ∧ minIdle ≤ now - p.deliveredAt := by
  rcases s.xclaim_cases consumer now minIdle id with
    h' | ⟨-, h'⟩ | ⟨f, p, hf, hfid, hp, hpid, hidle, h'⟩
  · rw [h'] at h; cases h
  · rw [h'] at h; cases h
  · rw [h'] at h; cases h; exact ⟨hf, hfid, rfl, p, hp, hpid, hidle⟩

theorem xclaim_eq_none {s t : Stream α} {consumer now minIdle : ℕ} {id : StreamId}
    (h : s.xclaim consumer now minIdle id = (t, none)) : t = s ∨ t = s.xack [id] := by
  rcases s.xclaim_cases consumer now minIdle id with h' | ⟨-, h'⟩ | ⟨e, p, -, -, -, -, -, h'⟩
  · rw [h'] at h; cases h; exact Or.inl rfl
  · rw [h'] at h; cases h; exact Or.inr rfl
  · rw [h'] at h; cases h

theorem evolves_xclaim {s t : Stream α} {consumer now minIdle : ℕ} {id : StreamId}
    {res : Option (Entry α)} (h : s.xclaim consumer now minIdle id = (t, res)) : Evolves s t := by
  rcases s.xclaim_cases consumer now minIdle id with h' | ⟨-, h'⟩ | ⟨e, p, -, -, -, -, -, h'⟩
  · rw [h'] at h; cases h; exact .refl s
  · rw [h'] at h; cases h; exact s.evolves_xack [id]
  · rw [h'] at h; cases h; exact s.evolves_redeliver consumer now id

/-! ### What the commands keep alive -/

theorem live_xadd {s t : Stream α} {id : StreamId} {v : α} (h : s.xadd id v = some t) :
    (∀ e, s.Live e → t.Live e) ∧ t.Live ⟨id, v⟩ := by
  unfold xadd at h
  split_ifs at h with hlt
  cases h
  refine ⟨fun e he => ⟨List.mem_append_left _ he.1, he.2⟩, ?_⟩
  refine live_iff.2 ⟨List.mem_append_right _ (List.mem_singleton_self _), Or.inl ?_⟩
  exact s.delivered_le.trans_lt hlt

theorem live_xreadgroup {s : Stream α} (consumer now count : ℕ) {e : Entry α} (he : s.Live e) :
    (s.xreadgroup consumer now count).Live e := by
  rcases live_iff.1 he with ⟨hmem, hcase⟩
  refine live_iff.2 ⟨hmem, ?_⟩
  rcases hcase with hlt | ⟨p, hp, hid⟩
  · by_cases hd : (s.xreadgroup consumer now count).lastDelivered < e.id
    · exact Or.inl hd
    · right
      -- delivered by this read: some fresh entry is at or above `e`, so `e` is in the reply
      have hle : e.id ≤ s.deliveredAfter count := not_lt.1 hd
      have hfresh : e ∈ s.fresh count := by
        rcases s.deliveredAfter_mem count with h | ⟨f, hf, h⟩
        · exact absurd hlt (not_lt.2 (h ▸ hle))
        · rw [h] at hle
          have hpw := s.entries_sorted.filter fun e => decide (s.lastDelivered < e.id)
          have hemem : e ∈ s.entries.filter fun e => decide (s.lastDelivered < e.id) :=
            List.mem_filter.2 ⟨hmem, by simpa using hlt⟩
          rw [← List.take_append_drop count (s.entries.filter _)] at hpw hemem
          rcases List.mem_append.1 hemem with h' | h'
          · exact h'
          · exact absurd hle (not_le.2 ((List.pairwise_append.1 hpw).2.2 f hf e h'))
      exact ⟨⟨e.id, consumer, now, 1⟩, List.mem_append_right _ (List.mem_map.2 ⟨e, hfresh, rfl⟩), rfl⟩
  · exact Or.inr ⟨p, List.mem_append_left _ hp, hid⟩

theorem live_xack {s : Stream α} {ids : List StreamId} {e : Entry α} (he : s.Live e)
    (hid : e.id ∉ ids) : (s.xack ids).Live e := by
  rcases live_iff.1 he with ⟨hmem, hlt | ⟨p, hp, hpe⟩⟩
  · exact live_iff.2 ⟨hmem, Or.inl hlt⟩
  · refine live_iff.2 ⟨hmem, Or.inr ⟨p, List.mem_filter.2 ⟨hp, ?_⟩, hpe⟩⟩
    simpa [hpe] using hid

theorem live_retain {s : Stream α} {keep : StreamId → Bool} {e : Entry α} (he : s.Live e)
    (hk : keep e.id) : (s.retain keep).Live e := ⟨List.mem_filter.2 ⟨he.1, hk⟩, he.2⟩

theorem live_redeliver {s : Stream α} (consumer now : ℕ) (id : StreamId) {e : Entry α}
    (he : s.Live e) : (s.redeliver consumer now id).Live e := by
  rcases live_iff.1 he with ⟨hmem, hlt | ⟨p, hp, hpe⟩⟩
  · exact live_iff.2 ⟨hmem, Or.inl hlt⟩
  · refine live_iff.2 ⟨hmem, Or.inr ⟨_, List.mem_map.2 ⟨p, hp, rfl⟩, ?_⟩⟩
    split_ifs <;> exact hpe

theorem live_xclaim {s t : Stream α} {consumer now minIdle : ℕ} {id : StreamId}
    {res : Option (Entry α)} (h : s.xclaim consumer now minIdle id = (t, res)) {e : Entry α}
    (he : s.Live e) : t.Live e := by
  rcases s.xclaim_cases consumer now minIdle id with h' | ⟨hgone, h'⟩ | ⟨_, _, -, -, -, -, -, h'⟩
  · rw [h'] at h; cases h; exact he
  · rw [h'] at h; cases h; exact live_xack he (by simpa using hgone e he.1)
  · rw [h'] at h; cases h; exact live_redeliver consumer now id he

end Stream

end GroupStream
