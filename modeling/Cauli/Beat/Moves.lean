import Cauli.Beat.Model

/-!
# What one step of a tick can do

`TickMove hash r s R l s' R'` lists the ways a label takes the store and replica `r` from `(s, R)` to
`(s', R')`; `tickMove_of_tickStep` is the inversion of the executable step. The case lemmas say what
one entry of the seeding loop and one due row can do to the store.

* `slotScore_eq`: a slot below `2 ^ 53` is its own score;
* `seedEntry_cases`, `fireRow_cases`: an entry of the seeding loop, and a due row;
* `seed_whole`, `claimAndPublish_whole`: the scripts when they are not cut;
* `claimAndPublish_published`: a script that advanced the slot of a publishing claim has published,
  wherever it was cut;
* `mem_dueRows`: a due row is in the store, and not after `now`.
-/

namespace Cauli

/-- A slot below `2 ^ 53` is its own score. -/
theorem slotScore_eq {slot : ℤ} (h : slot.natAbs < 2 ^ 53) : slotScore slot = slot := by
  rw [slotScore, F64.ofInt_exact h]
  show ⌊(slot : ℚ)⌋ = slot
  exact Int.floor_intCast slot

/-- The steps of replica `r`. -/
inductive TickMove (hash : ScheduleSpec → Bool → String) (r : ℕ) (s : Store) (R : Replica) :
    TickLabel → Store → Replica → Prop
  | crash : TickMove hash r s R .crash s {}
  | dropRev {name : String} (hd : R.dropping = some name) :
    TickMove hash r s R .dropRev { s with rev := s.rev.erase name } { R with dropping := none }
  | now : TickMove hash r s R .now s { tick := .timed s.time }
  | load {now : ℤ} (ht : R.tick = .timed now) :
    TickMove hash r s R .load s { tick := .loaded now s.schedule }
  | readSlots {now : ℤ} {entries : Hash ScheduleEntry} (ht : R.tick = .loaded now entries) :
    TickMove hash r s R .readSlots s { tick := .slotsRead now entries s.due.keys }
  | readRevs {now : ℤ} {entries : Hash ScheduleEntry} {slots : List String}
      (ht : R.tick = .slotsRead now entries slots) :
    TickMove hash r s R .readRevs s
      { tick := .seeding now entries slots s.rev (entries.entries.map fun p => (p.1, p.2)) }
  | seedNext {cut : Option ℕ} {now : ℤ} {entries : Hash ScheduleEntry} {slots : List String}
      {revs : Hash String} {name : String} {e : ScheduleEntry} {todo : List (String × ScheduleEntry)}
      (ht : R.tick = .seeding now entries slots revs ((name, e) :: todo)) {out : Store × Option String}
      (hout : seedEntry hash cut s now slots revs name e = out) :
    TickMove hash r s R (.seedNext cut) out.1
      { tick := .seeding now entries slots revs todo, dropping := out.2 }
  | sweepStart {now : ℤ} {entries : Hash ScheduleEntry} {slots : List String} {revs : Hash String}
      (ht : R.tick = .seeding now entries slots revs []) :
    TickMove hash r s R .sweepNext s
      { tick := .sweeping now entries (slots.filter fun n => decide (n ∉ entries)) }
  | sweepNext {now : ℤ} {entries : Hash ScheduleEntry} {name : String} {todo : List String}
      (ht : R.tick = .sweeping now entries (name :: todo)) :
    TickMove hash r s R .sweepNext { s with due := s.due.erase name }
      { tick := .sweeping now entries todo, dropping := some name }
  | readDue {now : ℤ} {entries : Hash ScheduleEntry} (ht : R.tick = .sweeping now entries []) :
    TickMove hash r s R .readDue s { tick := .firing now entries (dueRows s now DUE_BATCH) }
  | fireNext {built : Option Built} {cut : Option ℕ} {now : ℤ} {entries : Hash ScheduleEntry}
      {name : String} {slot : ℤ} {todo : List (String × ℤ)}
      (ht : R.tick = .firing now entries ((name, slot) :: todo)) {out : Store × Option String}
      (hout : fireRow r s now entries built cut name slot = out) :
    TickMove hash r s R (.fireNext built cut) out.1
      { tick := .firing now entries todo, dropping := out.2 }
  | done : TickMove hash r s R .done s {}

variable {hash : ScheduleSpec → Bool → String} {r : ℕ} {s s' : Store} {R R' : Replica}
  {l : TickLabel}

theorem tickMove_of_tickBody (h : tickBody hash r s R.tick l = some (s', R')) :
    TickMove hash r s R l s' R' := by
  cases l with
  | now | done => simp only [tickBody] at h; split at h <;> cases h; constructor
  | load | readSlots | readRevs | readDue =>
    simp only [tickBody] at h
    split at h
    · next ht => cases h; constructor; exact ht
    · cases h
  | seedNext cut =>
    simp only [tickBody] at h
    split at h
    · next ht => cases h; exact .seedNext ht rfl
    · cases h
  | sweepNext =>
    simp only [tickBody] at h
    split at h
    · next ht => cases h; exact .sweepStart ht
    · next ht => cases h; exact .sweepNext ht
    · cases h
  | fireNext built cut =>
    simp only [tickBody] at h
    split at h
    · next ht => cases h; exact .fireNext ht rfl
    · cases h
  | dropRev => cases h
  | crash => cases h

/-- **Inversion**: an enabled label makes one of the listed steps. -/
theorem tickMove_of_tickStep (h : tickStep hash r s R l = some (s', R')) :
    TickMove hash r s R l s' R' := by
  unfold tickStep at h
  split at h
  · cases h; exact .crash
  · split at h
    · next hd => cases h; exact .dropRev hd
    · cases h
  · split_ifs at h
    exact tickMove_of_tickBody h

/-! ### Scripts and rows -/

variable (hash) in
/-- An entry of the seeding loop: nothing to do, no slot to be found, a script, or a drop. -/
theorem seedEntry_cases (cut : Option ℕ) (s : Store) (now : ℤ) (slots : List String)
    (revs : Hash String) (name : String) (e : ScheduleEntry) :
    (seedEntry hash cut s now slots revs name e = (s, none) ∧ (e.enabled = true →
      (name ∈ slots ∧ revs.lookup name = some (e.rev hash)) ∨ e.schedule.nextAfter now = none)) ∨
    (∃ first, e.enabled = true ∧ ¬ (name ∈ slots ∧ revs.lookup name = some (e.rev hash)) ∧
      e.schedule.nextAfter now = some first ∧
      seedEntry hash cut s now slots revs name e = (seed cut name first (e.rev hash) s, none)) ∨
    (e.enabled = false ∧
      seedEntry hash cut s now slots revs name e = ({ s with due := s.due.erase name }, some name)) := by
  unfold seedEntry
  by_cases hen : e.enabled = true
  · rw [if_pos hen]
    split_ifs with hslot
    · exact Or.inl ⟨rfl, fun _ => Or.inl hslot⟩
    · cases hnext : e.schedule.nextAfter now with
      | none => exact Or.inl ⟨rfl, fun _ => Or.inr rfl⟩
      | some first => exact Or.inr (Or.inl ⟨first, hen, hslot, rfl, rfl⟩)
  · rw [if_neg hen]
    split_ifs with hslot
    · exact Or.inr (Or.inr ⟨by simpa using hen, rfl⟩)
    · exact Or.inl ⟨rfl, fun h => absurd h hen⟩

/-- A due row: nothing to do, a claim of an enabled entry, or a drop. -/
theorem fireRow_cases (r : ℕ) (s : Store) (now : ℤ) (entries : Hash ScheduleEntry)
    (built : Option Built) (cut : Option ℕ) (name : String) (slot : ℤ) :
    fireRow r s now entries built cut name slot = (s, none) ∨
    (∃ e c, entries.lookup name = some e ∧ e.enabled = true ∧ fireArgs r e slot now built = some c ∧
      fireRow r s now entries built cut name slot = (claimAndPublish cut c s, none)) ∨
    ((∀ e, entries.lookup name = some e → e.enabled = false) ∧
      fireRow r s now entries built cut name slot =
        ({ s with due := s.due.erase name }, some name)) := by
  unfold fireRow
  cases hlook : entries.lookup name with
  | none => exact Or.inr (Or.inr ⟨by simp, rfl⟩)
  | some e =>
    by_cases hen : e.enabled = true
    · cases hargs : fireArgs r e slot now built with
      | none => exact Or.inl (by simp [hen, hargs])
      | some c => exact Or.inr (Or.inl ⟨e, c, rfl, hen, hargs, by simp [hen, hargs]⟩)
    · refine Or.inr (Or.inr ⟨?_, by simp [hen]⟩)
      intro e' he'
      cases he'
      simpa using hen

/-- The arguments of a claim: the entry, the due slot, and a slot after it and after `now`. -/
theorem fireArgs_eq_some {r : ℕ} {e : ScheduleEntry} {slot now : ℤ} {built : Option Built}
    {c : Claim} (h : fireArgs r e slot now built = some c) :
    c.name = e.name ∧ c.expected = slot ∧ (slot < c.next ∧ now < c.next) ∧
      (slot ≤ now → (e.schedule.nextAfter now).isSome) := by
  unfold fireArgs at h
  split at h
  · next next _ suppressed hadv hsup =>
    have hlt := lt_of_advancePast hadv
    have hsome := fun hle => nextAfter_isSome_of_advancePast hle hadv
    split_ifs at h
    · cases h
      exact ⟨rfl, rfl, hlt, hsome⟩
    · obtain ⟨b, -, rfl⟩ := Option.map_eq_some_iff.1 h
      exact ⟨rfl, rfl, hlt, hsome⟩
  · cases h

/-- A claim that is not cut: lost, or everything is written. -/
theorem claimAndPublish_whole (c : Claim) (s : Store) :
    claimAndPublish none c s = s ∨
    (s.due.lookup c.name = some (slotScore c.expected) ∧ ∃ runs,
      claimAndPublish none c s =
        { s with
          due := s.due.insert c.name (slotScore c.next)
          state := s.state.insert c.name c.state
          runs := runs
          published := s.published ++
            (if c.mode = .none then [] else [⟨c.name, c.expected, c.mode⟩])
          claimed := s.claimed ++ [(c.name, c.expected)] }) := by
  by_cases hcas : s.due.lookup c.name = some (slotScore c.expected)
  · rw [claimAndPublish, if_pos hcas]
    refine Or.inr ⟨hcas, (runWrites none c.writes s).runs, ?_⟩
    cases hmode : c.mode with
    | none => simp [runWrites, Claim.writes, hmode, BeatWrite.apply]
    | stream => simp [runWrites, Claim.writes, hmode, BeatWrite.apply]
    | delayed t => simp [runWrites, Claim.writes, hmode, BeatWrite.apply]
  · rw [claimAndPublish, if_neg hcas]
    exact Or.inl rfl

/-- **The publish comes first**: wherever the script of a publishing claim is cut, it has published if
it has advanced the slot. -/
theorem claimAndPublish_published {cut : Option ℕ} {c : Claim} (hmode : c.mode ≠ .none)
    (h : (claimAndPublish cut c s).due ≠ s.due) :
    (claimAndPublish cut c s).published = s.published ++ [⟨c.name, c.expected, c.mode⟩] := by
  have hwrites : c.writes = [.publish ⟨c.name, c.expected, c.mode⟩, .countRun c.name,
      .setSlot c.name c.next (some c.expected), .setState c.name c.state] := by
    unfold Claim.writes
    cases hm : c.mode with
    | none => exact absurd hm hmode
    | stream => rfl
    | delayed t => rfl
  revert h
  unfold claimAndPublish
  split_ifs with hcas
  · rw [hwrites]
    -- by the number of writes that were made
    match cut with
    | none => exact fun _ => rfl
    | some 0 => exact fun h => absurd rfl h
    | some 1 => exact fun h => absurd rfl h
    | some 2 => exact fun h => absurd rfl h
    | some 3 => exact fun _ => rfl
    | some (k + 4) => exact fun _ => by simp [runWrites, BeatWrite.apply]
  · exact fun h => absurd rfl h

/-- A seed that is not cut: the entry has this fingerprint and a slot, or it gets both. -/
theorem seed_whole (name : String) (slot : ℤ) (rev : String) (s : Store) :
    (isSeeded s name rev = true ∧ seed none name slot rev s = s) ∨
    (isSeeded s name rev = false ∧ seed none name slot rev s =
      { s with due := s.due.insert name (slotScore slot), rev := s.rev.insert name rev }) := by
  unfold seed
  split_ifs with hseeded
  · exact Or.inl ⟨hseeded, rfl⟩
  · refine Or.inr ⟨by simpa using hseeded, ?_⟩
    simp [runWrites, BeatWrite.apply]

/-- A row of the due read. -/
theorem mem_dueRows {now : ℤ} {limit : ℕ} {p : String × ℤ} (h : p ∈ dueRows s now limit) :
    s.due.lookup p.1 = some p.2 ∧ p.2 ≤ now := by
  have hmem := List.mem_of_mem_take h
  rw [List.mem_insertionSort] at hmem
  obtain ⟨hrow, hle⟩ := List.mem_filter.1 hmem
  obtain ⟨q, hq, rfl⟩ := List.mem_map.1 hrow
  refine ⟨?_, by simpa using hle⟩
  exact AList.mem_lookup_iff.2 hq

end Cauli
