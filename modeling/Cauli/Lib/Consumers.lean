import Cauli.Lib.GroupStream

/-!
# The consumers of a group

A group knows its consumers by name, with the time each was last seen. A consumer appears with its
first read or claim and stays until it is deleted, and deleting it takes its pending records with it.

* `Stream.Owns`: a consumer has a pending record, with one lemma per command;
* `ConsumerGroup`: a stream and the consumers of its group; every owner is one of them;
* `ConsumerGroup.xinfoConsumers`, `ConsumerGroup.delConsumer`.
-/

namespace GroupStream

namespace Stream

variable {α : Type}

/-- The consumer has a pending record. -/
def Owns (s : Stream α) (c : ℕ) : Prop := ∃ p ∈ s.pel, p.consumer = c

instance (s : Stream α) (c : ℕ) : Decidable (s.Owns c) := inferInstanceAs (Decidable (∃ p ∈ s.pel, _))

/-- The pending records of a consumer. -/
def owned (s : Stream α) (c : ℕ) : List Pending := s.pel.filter fun p => p.consumer = c

theorem owned_eq_nil_iff {s : Stream α} {c : ℕ} : s.owned c = [] ↔ ¬ s.Owns c := by
  unfold owned Owns
  rw [List.filter_eq_nil_iff]
  push Not
  exact forall₂_congr fun p _ => by simp

/-- The stream without the pending records of a consumer. -/
def dropOwned (s : Stream α) (c : ℕ) : Stream α where
  entries := s.entries
  lastId := s.lastId
  lastDelivered := s.lastDelivered
  pel := s.pel.filter fun p => p.consumer ≠ c
  entries_sorted := s.entries_sorted
  entries_le := s.entries_le
  delivered_le := s.delivered_le
  pel_sorted := s.pel_sorted.filter _
  pel_le p hp := s.pel_le p (List.mem_filter.1 hp).1

/-! ### Who can come to own records -/

theorem Owns.of_xadd {s t : Stream α} {id : StreamId} {v : α} {c : ℕ} (h : s.xadd id v = some t)
    (ht : t.Owns c) : s.Owns c := by
  unfold Owns at ht
  rwa [(xadd_eq_some h).2.2] at ht

theorem Owns.of_xack {s : Stream α} {ids : List StreamId} {c : ℕ} (h : (s.xack ids).Owns c) :
    s.Owns c := by
  obtain ⟨p, hp, hc⟩ := h
  exact ⟨p, (List.mem_filter.1 hp).1, hc⟩

theorem Owns.of_dropOwned {s : Stream α} {c c' : ℕ} (h : (s.dropOwned c').Owns c) :
    s.Owns c ∧ c ≠ c' := by
  obtain ⟨p, hp, hc⟩ := h
  obtain ⟨hmem, hne⟩ := List.mem_filter.1 hp
  exact ⟨⟨p, hmem, hc⟩, by simpa [hc] using hne⟩

/-- A read gives records only to the reader, and only if there is something to read. -/
theorem Owns.of_xreadgroup {s : Stream α} {c c' now count : ℕ}
    (h : (s.xreadgroup c' now count).Owns c) : s.Owns c ∨ (c = c' ∧ s.fresh count ≠ []) := by
  obtain ⟨p, hp, hc⟩ := h
  rcases List.mem_append.1 hp with hp | hp
  · exact .inl ⟨p, hp, hc⟩
  · obtain ⟨e, he, rfl⟩ := List.mem_map.1 hp
    exact .inr ⟨hc.symm, List.ne_nil_of_mem he⟩

/-- A claim gives records only to the claimant, and only if it succeeds. -/
theorem Owns.of_xclaim {s : Stream α} {c c' now minIdle : ℕ} {id : StreamId}
    (h : (s.xclaim c' now minIdle id).1.Owns c) :
    s.Owns c ∨ (c = c' ∧ (s.xclaim c' now minIdle id).2.isSome = true) := by
  rcases s.xclaim_cases c' now minIdle id with h' | ⟨-, h'⟩ | ⟨e, p, -, -, -, -, -, h'⟩
  · rw [h'] at h
    exact .inl h
  · rw [h'] at h
    exact .inl h.of_xack
  · rw [h'] at h ⊢
    obtain ⟨q, hq, hc⟩ := h
    obtain ⟨r, hr, rfl⟩ := List.mem_map.1 hq
    by_cases hid : r.id = id
    · rw [if_pos hid] at hc
      exact .inr ⟨hc.symm, rfl⟩
    · rw [if_neg hid] at hc
      exact .inl ⟨r, hr, hc⟩

end Stream

/-- A consumer, and when it was last seen. -/
structure Consumer where
  name : ℕ
  seenAt : ℕ
  deriving DecidableEq

/-- A consumer is seen; an unknown one is created. -/
def touch (name now : ℕ) (cs : List Consumer) : List Consumer :=
  ⟨name, now⟩ :: cs.filter fun c => c.name ≠ name

theorem exists_name_touch {name now c : ℕ} {cs : List Consumer}
    (h : c = name ∨ ∃ i ∈ cs, i.name = c) : ∃ i ∈ touch name now cs, i.name = c := by
  by_cases hc : c = name
  · exact ⟨⟨name, now⟩, List.mem_cons_self, hc.symm⟩
  · obtain ⟨i, hi, rfl⟩ := h.resolve_left hc
    exact ⟨i, List.mem_cons_of_mem _ (List.mem_filter.2 ⟨hi, by simpa using hc⟩), rfl⟩

/-- A stream with the consumers of its group. -/
structure ConsumerGroup (α : Type) where
  stream : Stream α
  consumers : List Consumer
  owners : ∀ c, stream.Owns c → ∃ i ∈ consumers, i.name = c

/-- A row of `XINFO CONSUMERS`. -/
structure ConsumerInfo where
  name : ℕ
  pending : ℕ
  idle : ℕ
  deriving DecidableEq

namespace ConsumerGroup

variable {α : Type}

/-- A command that gives nobody a record. -/
def keep (g : ConsumerGroup α) (s : Stream α) (h : ∀ c, s.Owns c → g.stream.Owns c) :
    ConsumerGroup α where
  stream := s
  consumers := g.consumers
  owners c hc := g.owners c (h c hc)

/-- A command of a consumer. -/
def seen (g : ConsumerGroup α) (name now : ℕ) (s : Stream α)
    (h : ∀ c, s.Owns c → g.stream.Owns c ∨ c = name) : ConsumerGroup α where
  stream := s
  consumers := touch name now g.consumers
  owners c hc := by
    apply exists_name_touch
    rcases h c hc with hold | rfl
    · exact .inr (g.owners c hold)
    · exact .inl rfl

def xadd (g : ConsumerGroup α) (id : StreamId) (v : α) : Option (ConsumerGroup α) :=
  (g.stream.xadd id v).attach.map fun s => g.keep s.1 fun _ => Stream.Owns.of_xadd s.2

def xack (g : ConsumerGroup α) (ids : List StreamId) : ConsumerGroup α :=
  g.keep (g.stream.xack ids) fun _ => Stream.Owns.of_xack

def xdel (g : ConsumerGroup α) (ids : List StreamId) : ConsumerGroup α :=
  g.keep (g.stream.xdel ids) fun _ h => h

def xreadgroup (g : ConsumerGroup α) (consumer now count : ℕ) : ConsumerGroup α :=
  g.seen consumer now (g.stream.xreadgroup consumer now count) fun _ h =>
    h.of_xreadgroup.imp_right And.left

def xclaim (g : ConsumerGroup α) (consumer now minIdle : ℕ) (id : StreamId) : ConsumerGroup α :=
  g.seen consumer now (g.stream.xclaim consumer now minIdle id).1 fun _ h =>
    h.of_xclaim.imp_right And.left

/-- `XINFO CONSUMERS`, in no order that is promised. -/
def xinfoConsumers (g : ConsumerGroup α) (now : ℕ) : List ConsumerInfo :=
  g.consumers.map fun c => ⟨c.name, (g.stream.owned c.name).length, now - c.seenAt⟩

/-- `XGROUP DELCONSUMER`, with the number of records it took. -/
def delConsumer (g : ConsumerGroup α) (name : ℕ) : ConsumerGroup α × ℕ :=
  ({ stream := g.stream.dropOwned name
     consumers := g.consumers.filter fun c => c.name ≠ name
     owners := by
      intro c hc
      obtain ⟨hold, hne⟩ := hc.of_dropOwned
      obtain ⟨i, hi, rfl⟩ := g.owners c hold
      exact ⟨i, List.mem_filter.2 ⟨hi, by simpa using hne⟩, rfl⟩ },
    (g.stream.owned name).length)

end ConsumerGroup

end GroupStream
