import Cauli.Queue.Moves

/-!
# Anchors of a task

Every accepted task keeps an anchor: it was completed, or it sits in the delayed set or the dead
letter stream, or a stream entry that is undelivered or pending carries it. Anchors are ordered by
stream ids. A request that is about to be acked has its task anchored *above* the entry that is
acked (`Anchored C b t x` with `x` the acked id): a retry copy enters the stream under a new id, so
the chain of entries that carry one task only ever goes up, and one batch of acks can break it
nowhere (`grows_xack`).

* `Off`, `Anchored`: where a task is kept;
* `Grows`: what a step leaves of the stream and of all anchors, with one lemma for each command of
  the broker.
-/

namespace Cauli

open GroupStream

variable {Raw : Type} (C : Codec Raw)

/-- A payload of task `t`. -/
def Codec.Of (t : String) (v : Option Raw) : Prop := ∃ r, v = some r ∧ C.task r = t

/-- In the dead letter stream, or dropped by its retention. -/
def DeadLettered (b : Broker Raw) (t : String) : Prop :=
  (∃ d ∈ b.dlq, d.Holds C t) ∨ ∃ d ∈ b.dropped, d.Holds C t

/-- The task is kept outside the stream. -/
def Off (b : Broker Raw) (t : String) : Prop :=
  (∃ v ∈ b.completed, C.Of t v) ∨ DeadLettered C b t ∨ ∃ p ∈ b.delayed, C.task p.1 = t

/-- The task is kept outside the stream, or by a live entry above `x`. -/
def Anchored (b : Broker Raw) (t : String) (x : StreamId) : Prop :=
  Off C b t ∨ ∃ e, b.stream.Live e ∧ C.Of t e.value ∧ x < e.id

variable {C} {b b' b'' : Broker Raw} {t : String} {x : StreamId}

/-! ### Anchors under the commands of the broker -/

theorem Anchored.mono (h : Anchored C b t x) (hoff : Off C b t → Off C b' t)
    (hlive : ∀ e, b.stream.Live e → b'.stream.Live e) : Anchored C b' t x := by
  rcases h with h | ⟨e, he, hv, hx⟩
  · exact Or.inl (hoff h)
  · exact Or.inr ⟨e, hlive e he, hv, hx⟩

theorem Off.dropDlq (h : Off C b t) (n : ℕ) : Off C (b.dropDlq n) t := by
  rcases h with h | (⟨d, hd, hh⟩ | ⟨d, hd, hh⟩) | h
  · exact Or.inl h
  · rw [← List.take_append_drop n b.dlq] at hd
    rcases List.mem_append.1 hd with hd | hd
    · exact Or.inr (Or.inl (Or.inr ⟨d, List.mem_append_right _ hd, hh⟩))
    · exact Or.inr (Or.inl (Or.inl ⟨d, hd, hh⟩))
  · exact Or.inr (Or.inl (Or.inr ⟨d, List.mem_append_left _ hd, hh⟩))
  · exact Or.inr (Or.inr h)

/-! ### Growth -/

variable (C) in
/-- What a step does to the stream and to the anchors. -/
structure Grows (b b' : Broker Raw) : Prop where
  now_le : b.now ≤ b'.now
  evolves : b.stream.Evolves b'.stream
  anchored : ∀ t x, x ≤ b.stream.lastId → Anchored C b t x → Anchored C b' t x

theorem Grows.refl (b : Broker Raw) : Grows C b b := ⟨le_rfl, .refl _, fun _ _ _ h => h⟩

theorem Grows.trans (h₁ : Grows C b b') (h₂ : Grows C b' b'') : Grows C b b'' where
  now_le := h₁.now_le.trans h₂.now_le
  evolves := h₁.evolves.trans h₂.evolves
  anchored t x hx h :=
    h₂.anchored t x (hx.trans h₁.evolves.lastId_le) (h₁.anchored t x hx h)

/-- A step that keeps what is outside the stream and every live entry. -/
theorem grows_of_live (hnow : b.now ≤ b'.now) (hev : b.stream.Evolves b'.stream)
    (hoff : ∀ t, Off C b t → Off C b' t) (hlive : ∀ e, b.stream.Live e → b'.stream.Live e) :
    Grows C b b' :=
  ⟨hnow, hev, fun t _ _ h => h.mono (hoff t) hlive⟩

/-- A step that leaves the stream alone. -/
theorem grows_of_off (hnow : b.now ≤ b'.now) (hst : b'.stream = b.stream)
    (hoff : ∀ t, Off C b t → Off C b' t) : Grows C b b' :=
  grows_of_live hnow (by rw [hst]; exact .refl _) hoff fun e he => by rw [hst]; exact he

theorem grows_xadd {id : StreamId} {v : Option Raw} {st : Stream (Option Raw)}
    (h : b.stream.xadd id v = some st) : Grows C b { b with stream := st } :=
  grows_of_live le_rfl (Stream.evolves_xadd h) (fun _ h => h) (Stream.live_xadd h).1

/-- Acks break no anchor when every acked entry has its task anchored above it. -/
theorem grows_xack {ids : List StreamId}
    (hids : ∀ e ∈ b.stream.entries, e.id ∈ ids → ∀ t, C.Of t e.value → Anchored C b t e.id) :
    Grows C b { b with stream := b.stream.xack ids } := by
  refine ⟨le_rfl, Stream.evolves_xack _ _, fun t x _ ha => ?_⟩
  -- induction on how far the anchor is below the last id: an acked anchor has a higher one
  have key : ∀ n y, b.stream.lastId.key - y.key ≤ n → x ≤ y → Anchored C b t y →
      Anchored C { b with stream := b.stream.xack ids } t x := by
    intro n
    induction n with
    | zero =>
      rintro y hn - (hoff | ⟨e, he, -, hlt⟩)
      · exact Or.inl hoff
      · have := StreamId.lt_iff.1 (hlt.trans_le (b.stream.entries_le e he.1))
        omega
    | succ n ih =>
      rintro y hn hxy (hoff | ⟨e, he, hv, hlt⟩)
      · exact Or.inl hoff
      · by_cases hmem : e.id ∈ ids
        · refine ih e.id ?_ (hxy.trans hlt.le) (hids e he.1 hmem t hv)
          have := StreamId.lt_iff.1 hlt
          omega
        · exact Or.inr ⟨e, Stream.live_xack he hmem, hv, hxy.trans_lt hlt⟩
  exact key _ x le_rfl le_rfl ha

theorem grows_xclaim {w minIdle : ℕ} {id : StreamId} {st : Stream (Option Raw)}
    {res : Option (Entry (Option Raw))} (h : b.stream.xclaim w b.now minIdle id = (st, res)) :
    Grows C b { b with stream := st } :=
  grows_of_live le_rfl (Stream.evolves_xclaim h) (fun _ h => h) fun _ he => Stream.live_xclaim h he

theorem grows_retain {keep : StreamId → Bool}
    (h : ∀ e ∈ b.stream.entries, keep e.id = false → b.stream.Settled e.id) :
    Grows C b { b with stream := b.stream.retain keep } := by
  refine grows_of_live le_rfl (Stream.evolves_retain _ _) (fun _ h => h) fun e he => ?_
  refine Stream.live_retain he ?_
  by_contra hk
  exact he.2 (h e he.1 (Bool.eq_false_iff.2 hk))

/-! ### Writes and the mover -/

section
variable [DecidableEq Raw]

theorem mem_zrem {z : List (Raw × ℕ)} {m : Raw} {p : Raw × ℕ} :
    p ∈ zrem z m ↔ p ∈ z ∧ p.1 ≠ m := by
  simp [zrem]

/-- A member of the delayed set is there after a `ZADD`, with its old score or the new one. -/
theorem exists_zadd {z : List (Raw × ℕ)} (m : Raw) (score : ℕ) {p : Raw × ℕ} (hp : p ∈ z) :
    ∃ q ∈ zadd z m score, q.1 = p.1 := by
  by_cases h : p.1 = m
  · exact ⟨_, List.mem_cons_self, h.symm⟩
  · exact ⟨p, List.mem_cons_of_mem _ (mem_zrem.2 ⟨hp, h⟩), rfl⟩

theorem Off.zadd (h : Off C b t) (m : Raw) (score : ℕ) :
    Off C { b with delayed := zadd b.delayed m score } t := by
  rcases h with h | h | ⟨p, hp, ht⟩
  · exact Or.inl h
  · exact Or.inr (Or.inl h)
  · obtain ⟨q, hq, hqp⟩ := exists_zadd m score hp
    exact Or.inr (Or.inr ⟨q, hq, by rw [hqp, ht]⟩)

theorem Off.applyWrite (h : Off C b t) (evict : ℕ) (y : Write Raw) :
    Off C (applyWrite b evict y) t := by
  cases y with
  | setResult id doc ttl => exact h
  | zadd m score => exact h.zadd m score
  | xaddDlq d =>
    refine Off.dropDlq (b := { b with dlq := b.dlq ++ [d] }) ?_ _
    rcases h with h | (⟨d', hd', hh⟩ | h) | h
    · exact Or.inl h
    · exact Or.inr (Or.inl (Or.inl ⟨d', List.mem_append_left _ hd', hh⟩))
    · exact Or.inr (Or.inl (Or.inr h))
    · exact Or.inr (Or.inr h)
  | expireDlq ttl =>
    unfold Cauli.applyWrite
    split_ifs
    · exact h
    · exact h

/-- An accepted anchoring write keeps its task outside the stream. -/
theorem off_of_anchors {y : Write Raw} (hy : y.Anchors C t) (evict : ℕ) :
    Off C (applyWrite b evict y) t := by
  cases y with
  | setResult id doc ttl => exact hy.elim
  | zadd m score => exact Or.inr (Or.inr ⟨_, List.mem_cons_self, hy⟩)
  | xaddDlq d =>
    refine Off.dropDlq (b := { b with dlq := b.dlq ++ [d] }) ?_ _
    exact Or.inr (Or.inl (Or.inl ⟨d, List.mem_append_right _ (List.mem_singleton_self _), hy⟩))
  | expireDlq ttl => exact hy.elim

theorem grows_applyWrite (evict : ℕ) (y : Write Raw) : Grows C b (applyWrite b evict y) := by
  have hoff : ∀ t, Off C b t → Off C (applyWrite b evict y) t := fun _ h => h.applyWrite evict y
  obtain ⟨_, _, _, _, _, heq⟩ := applyWrite_eq b evict y
  rw [heq] at hoff ⊢
  exact grows_of_off le_rfl rfl hoff

/-- The mover publishes a member before it removes it. -/
theorem grows_move {m : Raw} {id : StreamId} {st : Stream (Option Raw)}
    (h : b.stream.xadd id (some m) = some st) :
    Grows C b { b with stream := st, delayed := zrem b.delayed m } := by
  refine ⟨le_rfl, Stream.evolves_xadd h, fun t x hx ha => ?_⟩
  rcases ha with (hc | hd | ⟨p, hp, ht⟩) | ⟨e, he, hv, hlt⟩
  · exact Or.inl (Or.inl hc)
  · exact Or.inl (Or.inr (Or.inl hd))
  · by_cases hm : p.1 = m
    · refine Or.inr ⟨⟨id, some m⟩, (Stream.live_xadd h).2, ⟨m, rfl, hm ▸ ht⟩, ?_⟩
      exact hx.trans_lt (Stream.lastId_lt_of_xadd h)
    · exact Or.inl (Or.inr (Or.inr ⟨p, mem_zrem.2 ⟨hp, hm⟩, ht⟩))
  · exact Or.inr ⟨e, (Stream.live_xadd h).1 e he, hv, hlt⟩

theorem grows_runMover {cut : ℕ} {due : List (Raw × StreamId)}
    (h : runMover cut due b = some b') : Grows C b b' := by
  induction cut, due, b using runMover.induct with
  | case1 due b => cases h; exact .refl _
  | case2 cut b => cases h; exact .refl _
  | case3 m id rest b =>
    obtain ⟨st, hst, rfl⟩ := Option.map_eq_some_iff.1 h
    exact grows_xadd hst
  | case4 cut m id rest b ih =>
    obtain ⟨st, hst, h⟩ := Option.bind_eq_some_iff.1 h
    exact (grows_move hst).trans (ih st h)

end

end Cauli
