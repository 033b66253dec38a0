import Cauli.Beat.Moves

/-!
# Slots are claimed once

For a fixed set of enabled entries, the slots published for an entry are strictly increasing, however
the ticks of the replicas interleave and whatever the clock reads. A replica claims a row only after
its seeding loop, and from then on the entry is current: the store has its fingerprint and a slot, so
no seed takes effect any more and only claims move the slot, forward.

* `nextSeed`, `nextClaim`: the script call a replica is about to make;
* `isWhole`, `isTickOrTime`, `storesSmallSlot`: the conditions on a step;
* `TickOk`: what a replica has read is still good; `StoreOk`: published slots are below the stored one;
* `slots_claimed_once`: the result, and that a cut script never advances a slot it has not published.
-/

namespace Cauli

open Transition

/-- The slots published for an entry, in order. -/
def publishedSlots (s : Store) (n : String) : List ℤ :=
  (s.published.filter fun p => decide (p.name = n)).map (·.slot)

/-- A call of the seed script, with the `now` of its tick. -/
structure SeedCall where
  name : String
  now : ℤ
  slot : ℤ
  rev : String

/-- The seed a replica is about to make. -/
def nextSeed (hash : ScheduleSpec → Bool → String) (R : Replica) : Option SeedCall :=
  match R.tick with
  | .seeding now _ slots revs ((name, e) :: _) =>
    if e.enabled = true ∧ ¬ (name ∈ slots ∧ revs.lookup name = some (e.rev hash)) then
      (e.schedule.nextAfter now).map fun first => ⟨name, now, first, e.rev hash⟩
    else none
  | _ => none

/-- The claim a replica is about to make. -/
def nextClaim (r : ℕ) (R : Replica) (built : Option Built) : Option Claim :=
  match R.tick with
  | .firing now entries ((name, slot) :: _) =>
    (entries.lookup name).bind fun e => if e.enabled then fireArgs r e slot now built else none
  | _ => none

/-- No script of the step is cut. -/
def isWhole : BeatLabel → Bool
  | .tick _ (.seedNext cut) => cut.isNone
  | .tick _ (.fireNext _ cut) => cut.isNone
  | _ => true

/-- The definitions stay as they are. -/
def isTickOrTime : BeatLabel → Bool
  | .time _ => true
  | .tick _ _ => true
  | _ => false

/-- The slot a step stores is below `2 ^ 53`. -/
def storesSmallSlot (hash : ScheduleSpec → Bool → String) (s : BeatState) : BeatLabel → Bool
  | .tick r (.seedNext _) =>
    (nextSeed hash (s.replicas r)).all fun q => decide (q.slot.natAbs < 2 ^ 53)
  | .tick r (.fireNext built _) =>
    (nextClaim r (s.replicas r) built).all fun c => decide (c.next.natAbs < 2 ^ 53)
  | _ => true

/-- Every entry is enabled and stored under its name, and every slot is below `2 ^ 53`. -/
structure EnabledEntries (s : Store) : Prop where
  enabled : ∀ {n e}, s.schedule.lookup n = some e → e.enabled = true
  name_eq : ∀ {n e}, s.schedule.lookup n = some e → e.name = n
  small : ∀ {n c}, s.due.lookup n = some c → c.natAbs < 2 ^ 53

section
variable (hash : ScheduleSpec → Bool → String) (F : Hash ScheduleEntry)

/-- The store has the fingerprint of the entry and a slot. -/
def Current (s : Store) (n : String) (e : ScheduleEntry) : Prop :=
  s.rev.lookup n = some (e.rev hash) ∧ (s.due.lookup n).isSome

/-- The entry is current, or has no slot after `now`. -/
def Armed (s : Store) (now : ℤ) (n : String) (e : ScheduleEntry) : Prop :=
  Current hash s n e ∨ e.schedule.nextAfter now = none

/-- What a replica has read: the definitions, and slots and fingerprints that are still there. Behind
its seeding loop every entry is armed. -/
def TickOk (s : Store) : Tick → Prop
  | .idle => True
  | .timed _ => True
  | .loaded _ entries => entries = F
  | .slotsRead _ entries slots => entries = F ∧ ∀ n ∈ slots, n ∈ F → (s.due.lookup n).isSome
  | .seeding now entries slots revs todo => entries = F ∧
      (∀ n ∈ slots, n ∈ F → (s.due.lookup n).isSome) ∧
      (∀ n e, F.lookup n = some e → revs.lookup n = some (e.rev hash) →
        s.rev.lookup n = some (e.rev hash)) ∧
      (∀ p ∈ todo, F.lookup p.1 = some p.2) ∧
      ∀ n e, F.lookup n = some e → (n, e) ∈ todo ∨ Armed hash s now n e
  | .sweeping now entries todo => entries = F ∧ (∀ n ∈ todo, n ∉ F) ∧
      ∀ n e, F.lookup n = some e → Armed hash s now n e
  | .firing now entries todo => entries = F ∧ (∀ p ∈ todo, p.2 ≤ now ∧ p.2.natAbs < 2 ^ 53) ∧
      ∀ n e, F.lookup n = some e → Armed hash s now n e

/-- A replica reads what is still good, and drops no entry of `F`. -/
structure ReplicaOk (s : Store) (R : Replica) : Prop where
  tick : TickOk hash F s R.tick
  dropping : ∀ n, R.dropping = some n → n ∉ F

/-- Published slots are increasing and below the stored slot of a current entry. -/
structure StoreOk (s : Store) : Prop where
  schedule : s.schedule = F
  small : ∀ n c, s.due.lookup n = some c → c.natAbs < 2 ^ 53
  passed : ∀ n, ∀ x ∈ publishedSlots s n, ∃ e c, F.lookup n = some e ∧
    s.rev.lookup n = some (e.rev hash) ∧ s.due.lookup n = some c ∧ x < c
  sorted : ∀ n, (publishedSlots s n).Pairwise (· < ·)

/-- A step of the store that keeps current entries current. -/
structure Keeps (s s' : Store) : Prop where
  due : ∀ n ∈ F, (s.due.lookup n).isSome → (s'.due.lookup n).isSome
  rev : ∀ n e, F.lookup n = some e → s.rev.lookup n = some (e.rev hash) →
    s'.rev.lookup n = some (e.rev hash)

end

variable {hash : ScheduleSpec → Bool → String} {F : Hash ScheduleEntry} {s s' : Store}

theorem mem_of_lookup {β : Type} {H : Hash β} {n : String} {b : β} (h : H.lookup n = some b) : n ∈ H :=
  AList.lookup_isSome.1 (by rw [h]; rfl)

theorem exists_lookup {β : Type} {H : Hash β} {n : String} (h : n ∈ H) : ∃ b, H.lookup n = some b :=
  Option.isSome_iff_exists.1 (AList.lookup_isSome.2 h)

/-! ### What the replicas have read stays good -/

theorem Keeps.refl (s : Store) : Keeps hash F s s := ⟨fun _ _ h => h, fun _ _ _ h => h⟩

theorem Armed.keep (hk : Keeps hash F s s') {now : ℤ} {n : String} {e : ScheduleEntry}
    (hF : F.lookup n = some e) (h : Armed hash s now n e) : Armed hash s' now n e := by
  rcases h with ⟨hrev, hdue⟩ | hnone
  · exact Or.inl ⟨hk.rev n e hF hrev, hk.due n (mem_of_lookup hF) hdue⟩
  · exact Or.inr hnone

theorem TickOk.keep (hk : Keeps hash F s s') {t : Tick} (h : TickOk hash F s t) :
    TickOk hash F s' t := by
  cases t with
  | idle => trivial
  | timed now => trivial
  | loaded now entries => exact h
  | slotsRead now entries slots =>
    exact ⟨h.1, fun n hn hF => hk.due n hF (h.2 n hn hF)⟩
  | seeding now entries slots revs todo =>
    obtain ⟨hent, hslots, hrevs, htodo, harmed⟩ := h
    refine ⟨hent, fun n hn hF => hk.due n hF (hslots n hn hF), ?_, htodo, fun n e hF => ?_⟩
    · exact fun n e hF hrev => hk.rev n e hF (hrevs n e hF hrev)
    · rcases harmed n e hF with hmem | harmed
      · exact Or.inl hmem
      · exact Or.inr (harmed.keep hk hF)
  | sweeping now entries todo =>
    exact ⟨h.1, h.2.1, fun n e hF => (h.2.2 n e hF).keep hk hF⟩
  | firing now entries todo =>
    exact ⟨h.1, h.2.1, fun n e hF => (h.2.2 n e hF).keep hk hF⟩

/-- The seeding loop is one entry further, and that one is armed. -/
theorem TickOk.seeded {now : ℤ} {entries : Hash ScheduleEntry} {slots : List String}
    {revs : Hash String} {name : String} {e : ScheduleEntry} {todo : List (String × ScheduleEntry)}
    (h : TickOk hash F s (.seeding now entries slots revs ((name, e) :: todo)))
    (harm : Armed hash s now name e) : TickOk hash F s (.seeding now entries slots revs todo) := by
  obtain ⟨hent, hslots, hrevs, htodo, harmed⟩ := h
  refine ⟨hent, hslots, hrevs, fun p hp => htodo p (List.mem_cons_of_mem _ hp), fun n e' hF => ?_⟩
  rcases harmed n e' hF with hmem | harmed
  · rcases List.mem_cons.1 hmem with heq | hmem
    · cases heq
      exact Or.inr harm
    · exact Or.inl hmem
  · exact Or.inr harmed

/-- The firing loop is one row further. -/
theorem TickOk.fired {now : ℤ} {entries : Hash ScheduleEntry} {row : String × ℤ}
    {todo : List (String × ℤ)} (h : TickOk hash F s (.firing now entries (row :: todo))) :
    TickOk hash F s (.firing now entries todo) :=
  ⟨h.1, fun p hp => h.2.1 p (List.mem_cons_of_mem _ hp), h.2.2⟩

theorem ReplicaOk.keep (hk : Keeps hash F s s') {R : Replica} (h : ReplicaOk hash F s R) :
    ReplicaOk hash F s' R := ⟨h.tick.keep hk, h.dropping⟩

/-! ### The four changes of the store -/

/-- A slot outside of `F` is dropped. -/
theorem eraseDue_ok {n : String} (hn : n ∉ F) (h : StoreOk hash F s) :
    StoreOk hash F { s with due := s.due.erase n } ∧
      Keeps hash F s { s with due := s.due.erase n } := by
  have hne : ∀ {m}, m ∈ F → m ≠ n := by
    rintro m hm rfl
    exact hn hm
  refine ⟨⟨h.schedule, fun m c hc => ?_, fun m x hx => ?_, h.sorted⟩, fun m hm hdue => ?_, fun _ _ _ h => h⟩
  · by_cases hmn : m = n
    · subst hmn
      simp [AList.lookup_erase] at hc
    · exact h.small m c (AList.lookup_erase_ne hmn ▸ hc)
  · obtain ⟨e, c, hF, hrev, hdue, hlt⟩ := h.passed m x hx
    refine ⟨e, c, hF, hrev, ?_, hlt⟩
    exact (AList.lookup_erase_ne (hne (mem_of_lookup hF))).trans hdue
  · show ((s.due.erase n).lookup m).isSome
    rw [AList.lookup_erase_ne (hne hm)]
    exact hdue

/-- A fingerprint outside of `F` is dropped. -/
theorem eraseRev_ok {n : String} (hn : n ∉ F) (h : StoreOk hash F s) :
    StoreOk hash F { s with rev := s.rev.erase n } ∧
      Keeps hash F s { s with rev := s.rev.erase n } := by
  have hkeep : ∀ {m e}, F.lookup m = some e → (s.rev.erase n).lookup m = s.rev.lookup m := by
    intro m e hF
    refine AList.lookup_erase_ne ?_
    rintro rfl
    exact hn (mem_of_lookup hF)
  refine ⟨⟨h.schedule, h.small, fun m x hx => ?_, h.sorted⟩, fun _ _ h => h, fun m e hF hrev => ?_⟩
  · obtain ⟨e, c, hF, hrev, hdue, hlt⟩ := h.passed m x hx
    exact ⟨e, c, hF, (hkeep hF).trans hrev, hdue, hlt⟩
  · exact (hkeep hF).trans hrev

/-- A seed of an entry that is not current, which nothing was published for. -/
theorem seed_ok {n : String} {e : ScheduleEntry} {first : ℤ} (hF : F.lookup n = some e)
    (hfirst : first.natAbs < 2 ^ 53) (h : StoreOk hash F s) :
    StoreOk hash F (seed none n first (e.rev hash) s) ∧
      Keeps hash F s (seed none n first (e.rev hash) s) ∧
      Current hash (seed none n first (e.rev hash) s) n e := by
  rcases seed_whole n first (e.rev hash) s with ⟨hseeded, heq⟩ | ⟨hseeded, heq⟩
  · rw [heq]
    simp only [isSeeded, Bool.and_eq_true, beq_iff_eq] at hseeded
    exact ⟨h, .refl s, hseeded⟩
  · rw [heq, slotScore_eq hfirst]
    have hrev : ∀ {m e'}, F.lookup m = some e' → s.rev.lookup m = some (e'.rev hash) →
        (s.rev.insert n (e.rev hash)).lookup m = some (e'.rev hash) := by
      intro m e' hF' hrev
      by_cases hmn : m = n
      · subst hmn
        rw [hF] at hF'
        cases hF'
        exact AList.lookup_insert _
      · rw [AList.lookup_insert_ne hmn]
        exact hrev
    refine ⟨⟨h.schedule, fun m c hc => ?_, fun m x hx => ?_, h.sorted⟩, ⟨fun m hm hdue => ?_, ?_⟩, ?_⟩
    · by_cases hmn : m = n
      · subst hmn
        rw [AList.lookup_insert] at hc
        cases hc
        exact hfirst
      · exact h.small m c (AList.lookup_insert_ne hmn ▸ hc)
    · obtain ⟨e', c, hF', hrev', hdue, hlt⟩ := h.passed m x hx
      have hmn : m ≠ n := by
        rintro rfl
        rw [hF] at hF'
        cases hF'
        simp [isSeeded, hrev', hdue] at hseeded
      exact ⟨e', c, hF', hrev hF' hrev', (AList.lookup_insert_ne hmn).trans hdue, hlt⟩
    · rw [AList.lookup_isSome] at hdue ⊢
      exact (AList.mem_insert _).2 (Or.inr hdue)
    · exact fun m e' hF' hrev' => hrev hF' hrev'
    · exact ⟨AList.lookup_insert _, by simp⟩

theorem publishedSlots_append (n : String) (ps : List Publication) :
    publishedSlots { s with published := s.published ++ ps } n = publishedSlots s n ++
      (ps.filter fun p => decide (p.name = n)).map (·.slot) := by
  simp [publishedSlots]

/-- A claim of a current entry: the slot it publishes is the stored one, which moves on. -/
theorem claim_ok {c : Claim} {e : ScheduleEntry} (hF : F.lookup c.name = some e)
    (hcur : Current hash s c.name e) (hexp : c.expected.natAbs < 2 ^ 53)
    (hnext : c.next.natAbs < 2 ^ 53) (hlt : c.expected < c.next) (h : StoreOk hash F s) :
    StoreOk hash F (claimAndPublish none c s) ∧ Keeps hash F s (claimAndPublish none c s) := by
  rcases claimAndPublish_whole c s with heq | ⟨hcas, runs, heq⟩
  · rw [heq]
    exact ⟨h, .refl s⟩
  · rw [slotScore_eq hexp] at hcas
    rw [heq, slotScore_eq hnext]
    -- what is published for the entry now: the earlier slots, and perhaps the claimed one
    have hpub : ∀ {m x}, x ∈ (publishedSlots { s with published := s.published ++
        (if c.mode = .none then [] else [⟨c.name, c.expected, c.mode⟩]) } m) →
        x ∈ publishedSlots s m ∨ (m = c.name ∧ x = c.expected) := by
      intro m x hx
      rw [publishedSlots_append] at hx
      rcases List.mem_append.1 hx with hx | hx
      · exact Or.inl hx
      · split_ifs at hx
        · cases hx
        · by_cases hm : c.name = m
          · simp [hm] at hx
            exact Or.inr ⟨hm.symm, hx⟩
          · simp [hm] at hx
    refine ⟨⟨h.schedule, fun m d hd => ?_, fun m x hx => ?_, fun m => ?_⟩, fun m hm hdue => ?_,
      fun _ _ _ h => h⟩
    · by_cases hm : m = c.name
      · subst hm
        rw [AList.lookup_insert] at hd
        cases hd
        exact hnext
      · exact h.small m d (AList.lookup_insert_ne hm ▸ hd)
    · by_cases hm : m = c.name
      · subst hm
        refine ⟨e, c.next, hF, hcur.1, AList.lookup_insert _, ?_⟩
        rcases hpub hx with hx | ⟨-, rfl⟩
        · obtain ⟨_, d, -, -, hd, hxd⟩ := h.passed _ x hx
          rw [hcas] at hd
          cases hd
          omega
        · exact hlt
      · rcases hpub hx with hx | ⟨hm', -⟩
        · obtain ⟨e', d, hF', hrev, hd, hxd⟩ := h.passed _ x hx
          exact ⟨e', d, hF', hrev, (AList.lookup_insert_ne hm).trans hd, hxd⟩
        · exact absurd hm' hm
    · show (publishedSlots { s with published := _ } m).Pairwise (· < ·)
      rw [publishedSlots_append]
      refine List.pairwise_append.2 ⟨h.sorted m, ?_, fun x hx y hy => ?_⟩
      · split_ifs
        · exact List.Pairwise.nil
        · by_cases hm : c.name = m <;> simp [hm]
      · split_ifs at hy
        · cases hy
        · by_cases hm : c.name = m
          · simp [hm] at hy
            subst hm
            obtain ⟨_, d, -, -, hd, hxd⟩ := h.passed _ x hx
            rw [hcas] at hd
            cases hd
            omega
          · simp [hm] at hy
    · rw [AList.lookup_isSome] at hdue ⊢
      exact (AList.mem_insert _).2 (Or.inr hdue)

/-! ### Every step of a replica -/

section
variable {r : ℕ} {R R' : Replica} {l : TickLabel}

theorem nextSeed_of_seeding {now : ℤ} {entries : Hash ScheduleEntry} {slots : List String}
    {revs : Hash String} {name : String} {e : ScheduleEntry} {todo : List (String × ScheduleEntry)}
    {first : ℤ} (ht : R.tick = .seeding now entries slots revs ((name, e) :: todo))
    (hen : e.enabled = true) (hslot : ¬ (name ∈ slots ∧ revs.lookup name = some (e.rev hash)))
    (hnext : e.schedule.nextAfter now = some first) :
    nextSeed hash R = some ⟨name, now, first, e.rev hash⟩ := by
  simp [nextSeed, ht, hen, hslot, hnext]

/-- A step of a replica with whole scripts, for the entries of `F`. -/
theorem tickMove_ok (hen : ∀ n e, F.lookup n = some e → e.enabled = true)
    (hname : ∀ n e, F.lookup n = some e → e.name = n)
    (hmove : TickMove hash r s R l s' R') (hs : StoreOk hash F s) (hR : ReplicaOk hash F s R)
    (hseed : ∀ cut, l = .seedNext cut → cut = none ∧
      ∀ q, nextSeed hash R = some q → q.slot.natAbs < 2 ^ 53)
    (hfire : ∀ built cut, l = .fireNext built cut → cut = none ∧
      ∀ c, nextClaim r R built = some c → c.next.natAbs < 2 ^ 53) :
    StoreOk hash F s' ∧ Keeps hash F s s' ∧ ReplicaOk hash F s' R' := by
  have htick := hR.tick
  cases hmove with
  | crash | done => exact ⟨hs, .refl s, trivial, by simp⟩
  | now => exact ⟨hs, .refl s, trivial, by simp⟩
  | dropRev hd =>
    obtain ⟨hs', hk⟩ := eraseRev_ok (hR.dropping _ hd) hs
    exact ⟨hs', hk, htick.keep hk, by simp⟩
  | load ht => exact ⟨hs, .refl s, hs.schedule, by simp⟩
  | readSlots ht =>
    rw [ht] at htick
    exact ⟨hs, .refl s, ⟨htick, fun n hn _ => AList.lookup_isSome.2 (AList.mem_keys.2 hn)⟩, by simp⟩
  | readRevs ht =>
    rw [ht] at htick
    obtain ⟨rfl, hslots⟩ := htick
    refine ⟨hs, .refl s, ⟨rfl, hslots, fun _ _ _ hrev => hrev, fun p hp => ?_, fun n e hF => ?_⟩,
      by simp⟩
    · obtain ⟨q, hq, rfl⟩ := List.mem_map.1 hp
      exact AList.mem_lookup_iff.2 hq
    · exact Or.inl (List.mem_map.2 ⟨⟨n, e⟩, AList.mem_lookup_iff.1 hF, rfl⟩)
  | @seedNext cut now entries slots revs name e todo ht out hout =>
    rw [ht] at htick
    have hseeding := htick
    obtain ⟨rfl, hslots, hrevs, htodo, -⟩ := htick
    obtain ⟨rfl, hsmall⟩ := hseed cut rfl
    have hF := htodo (name, e) List.mem_cons_self
    rcases seedEntry_cases hash none s now slots revs name e with
      ⟨heq, hwhy⟩ | ⟨first, hen', hslot, hnext, heq⟩ | ⟨hen', -⟩
    · rw [heq] at hout
      subst hout
      refine ⟨hs, .refl s, hseeding.seeded ?_, by simp⟩
      rcases hwhy (hen name e hF) with ⟨hmem, hrev⟩ | hnone
      · exact Or.inl ⟨hrevs name e hF hrev, hslots name hmem (mem_of_lookup hF)⟩
      · exact Or.inr hnone
    · rw [heq] at hout
      subst hout
      have hfirst : first.natAbs < 2 ^ 53 := hsmall _ (nextSeed_of_seeding ht hen' hslot hnext)
      obtain ⟨hs', hk, hcur⟩ := seed_ok hF hfirst hs
      exact ⟨hs', hk, (hseeding.keep hk).seeded (Or.inl hcur), by simp⟩
    · rw [hen name e hF] at hen'
      cases hen'
  | sweepStart ht =>
    rw [ht] at htick
    obtain ⟨rfl, -, -, -, harmed⟩ := htick
    refine ⟨hs, .refl s, ⟨rfl, fun n hn => ?_, fun n e hF => ?_⟩, by simp⟩
    · simpa using (List.mem_filter.1 hn).2
    · rcases harmed n e hF with hmem | harmed
      · cases hmem
      · exact harmed
  | sweepNext ht =>
    rw [ht] at htick
    obtain ⟨rfl, htodo, harmed⟩ := htick
    have hn := htodo _ List.mem_cons_self
    obtain ⟨hs', hk⟩ := eraseDue_ok hn hs
    refine ⟨hs', hk, ⟨rfl, fun n hn => htodo n (List.mem_cons_of_mem _ hn), fun n e hF => ?_⟩, ?_⟩
    · exact (harmed n e hF).keep hk hF
    · rintro n heq
      cases heq
      exact hn
  | readDue ht =>
    rw [ht] at htick
    obtain ⟨rfl, -, harmed⟩ := htick
    refine ⟨hs, .refl s, ⟨rfl, fun p hp => ?_, harmed⟩, by simp⟩
    obtain ⟨hdue, hle⟩ := mem_dueRows hp
    exact ⟨hle, hs.small _ _ hdue⟩
  | @fireNext built cut now entries name slot todo ht out hout =>
    rw [ht] at htick
    have hfiring := htick
    obtain ⟨rfl, hrows, harmed⟩ := htick
    obtain ⟨rfl, hsmall⟩ := hfire built cut rfl
    rcases fireRow_cases r s now entries built none name slot with
      heq | ⟨e, c, hF, hen', hargs, heq⟩ | ⟨hoff, heq⟩
    · rw [heq] at hout
      subst hout
      exact ⟨hs, .refl s, hfiring.fired, by simp⟩
    · rw [heq] at hout
      subst hout
      obtain ⟨hcname, hexp, ⟨hlt, -⟩, hsome⟩ := fireArgs_eq_some hargs
      obtain ⟨hle, hslot⟩ := hrows (name, slot) List.mem_cons_self
      have hcn : c.name = name := hcname.trans (hname name e hF)
      have hnext := hsmall c (by simp [nextClaim, ht, hF, hen', hargs])
      -- `now` has a next slot, so the entry is armed because it is current
      have hcur : Current hash s name e := by
        rcases harmed name e hF with hcur | hnone
        · exact hcur
        · have := hsome hle
          rw [hnone] at this
          cases this
      obtain ⟨hs', hk⟩ := claim_ok (hcn ▸ hF) (hcn ▸ hcur) (hexp ▸ hslot) hnext (hexp ▸ hlt) hs
      exact ⟨hs', hk, (hfiring.keep hk).fired, by simp⟩
    · rw [heq] at hout
      subst hout
      have hn : name ∉ entries := by
        intro hmem
        obtain ⟨e, he⟩ := exists_lookup hmem
        have := hoff e he
        rw [hen name e he] at this
        cases this
      obtain ⟨hs', hk⟩ := eraseDue_ok hn hs
      refine ⟨hs', hk, (hfiring.keep hk).fired, ?_⟩
      rintro n heq'
      cases heq'
      exact hn

end

/-! ### Every run -/

variable (hash) in
/-- A step with whole scripts that stores a slot below `2 ^ 53` and edits nothing. -/
def steady (s : BeatState) (l : BeatLabel) : Bool :=
  isTickOrTime l && isWhole l && storesSmallSlot hash s l

variable (hash F) in
/-- The store and every replica. -/
structure SlotsOk (s : BeatState) : Prop where
  store : StoreOk hash F s.store
  replicas : ∀ r, ReplicaOk hash F s.store (s.replicas r)

theorem slotsOk_step {s s' : BeatState} {l : BeatLabel}
    (hen : ∀ n e, F.lookup n = some e → e.enabled = true)
    (hname : ∀ n e, F.lookup n = some e → e.name = n) (hs : SlotsOk hash F s)
    (hl : steady hash s l = true) (hstep : beatStep hash s l = some s') : SlotsOk hash F s' := by
  simp only [steady, Bool.and_eq_true] at hl
  obtain ⟨⟨hedit, hwhole⟩, hsmall⟩ := hl
  cases l with
  | time t =>
    cases hstep
    have hk : Keeps hash F s.store { s.store with time := t } :=
      ⟨fun _ _ h => h, fun _ _ _ h => h⟩
    refine ⟨⟨hs.store.schedule, hs.store.small, hs.store.passed, hs.store.sorted⟩, fun r => ?_⟩
    exact (hs.replicas r).keep hk
  | upsert e => cases hedit
  | delete name command => cases hedit
  | tick r l =>
    obtain ⟨⟨st, R'⟩, htick, rfl⟩ := Option.map_eq_some_iff.1 hstep
    have hmove := tickMove_of_tickStep htick
    have hseed : ∀ cut, l = .seedNext cut → cut = none ∧
        ∀ q, nextSeed hash (s.replicas r) = some q → q.slot.natAbs < 2 ^ 53 := by
      rintro cut rfl
      refine ⟨by simpa [isWhole] using hwhole, fun q hq => ?_⟩
      simpa [storesSmallSlot, hq] using hsmall
    have hfire : ∀ built cut, l = .fireNext built cut → cut = none ∧
        ∀ c, nextClaim r (s.replicas r) built = some c → c.next.natAbs < 2 ^ 53 := by
      rintro built cut rfl
      refine ⟨by simpa [isWhole] using hwhole, fun c hc => ?_⟩
      simpa [storesSmallSlot, hc] using hsmall
    obtain ⟨hst, hk, hR⟩ := tickMove_ok hen hname hmove hs.store (hs.replicas r) hseed hfire
    refine ⟨hst, ?_⟩
    exact (Function.forall_update_iff _ fun _ R => ReplicaOk hash F st R).2
      ⟨hR, fun r' _ => (hs.replicas r').keep hk⟩

theorem slotsOk_init {s : BeatState} (h : (beatSystem hash EnabledEntries).init s) :
    SlotsOk hash s.store.schedule s := by
  obtain ⟨hP, hpub, -, hrep⟩ := h
  have hnone : ∀ n, publishedSlots s.store n = [] := by
    intro n
    simp [publishedSlots, hpub]
  refine ⟨⟨rfl, fun n c => hP.small, fun n x hx => ?_, fun n => ?_⟩, fun r => ?_⟩
  · rw [hnone n] at hx
    cases hx
  · rw [hnone n]
    exact List.Pairwise.nil
  · rw [hrep r]
    exact ⟨trivial, by simp⟩

theorem publishedSlots_sorted {s : BeatState}
    (h : (beatSystem hash EnabledEntries).Reachable (fun s l => steady hash s l = true) s)
    (n : String) : (publishedSlots s.store n).Pairwise (· < ·) := by
  obtain ⟨s₀, hinit, hreach⟩ := h
  have hen : ∀ n e, s₀.store.schedule.lookup n = some e → e.enabled = true :=
    fun _ _ => hinit.1.enabled
  have hname : ∀ n e, s₀.store.schedule.lookup n = some e → e.name = n :=
    fun _ _ => hinit.1.name_eq
  have hok : SlotsOk hash s₀.store.schedule s :=
    hreach.invariant (slotsOk_init hinit) fun _ _ _ hs hl hstep => slotsOk_step hen hname hs hl hstep
  exact hok.store.sorted n

theorem claimAndPublish_of_fireNext {s s' : BeatState} {r : ℕ} {built : Option Built}
    {cut : Option ℕ} {c : Claim} (hstep : beatStep hash s (.tick r (.fireNext built cut)) = some s')
    (hc : nextClaim r (s.replicas r) built = some c) : s'.store = claimAndPublish cut c s.store := by
  obtain ⟨⟨st, R'⟩, htick, rfl⟩ := Option.map_eq_some_iff.1 hstep
  cases tickMove_of_tickStep htick with
  | fireNext ht hout =>
    simp only [nextClaim, ht] at hc
    obtain ⟨e, he, hc⟩ := Option.bind_eq_some_iff.1 hc
    split_ifs at hc with hen
    subst hout
    show (fireRow _ _ _ _ _ _ _ _).1 = _
    simp [fireRow, he, hen, hc]

/-- **Slots are claimed at most once and never consumed unsent.** With whole scripts the slots published
for an entry are strictly increasing; wherever the scripts of a run are cut, a publishing claim has
published if it has advanced a slot. -/
theorem slots_claimed_once {s : BeatState} :
    ((beatSystem hash EnabledEntries).Reachable (fun s l => steady hash s l = true) s →
      ∀ n, (publishedSlots s.store n).Pairwise (· < ·) ∧
        ∀ slot, (publishedSlots s.store n).count slot ≤ 1) ∧
    ((beatSystem hash EnabledEntries).Reachable
        (fun s l => (isTickOrTime l && storesSmallSlot hash s l) = true) s →
      ∀ r built cut c s', nextClaim r (s.replicas r) built = some c → c.mode ≠ .none →
        (beatSystem hash EnabledEntries).step s (.tick r (.fireNext built cut)) = some s' →
        s'.store.due ≠ s.store.due →
        s'.store.published = s.store.published ++ [⟨c.name, c.expected, c.mode⟩]) := by
  refine ⟨fun h n => ?_, fun _ r built cut c s' hc hmode hstep hdue => ?_⟩
  · have hsorted := publishedSlots_sorted h n
    exact ⟨hsorted, fun slot => List.nodup_iff_count_le_one.1 (hsorted.imp fun h => h.ne) slot⟩
  · have hst := claimAndPublish_of_fireNext hstep hc
    rw [hst] at hdue ⊢
    exact claimAndPublish_published hmode hdue

/-! ### A run of one replica -/

/-- An entry that fires every second. -/
def everySecond : ScheduleEntry :=
  { name := "report", task := "t", schedule := .interval 1000 (by decide) }

/-- The store with that entry, and nothing seeded. -/
def oneEntry : BeatState := { store := { schedule := AList.singleton "report" everySecond } }

theorem enabledEntries_oneEntry : EnabledEntries oneEntry.store := by
  have honly : ∀ {n e}, oneEntry.store.schedule.lookup n = some e → n = "report" ∧ e = everySecond := by
    intro n e h
    have hmem : (⟨n, e⟩ : Sigma fun _ : String => ScheduleEntry) ∈ [⟨"report", everySecond⟩] :=
      AList.mem_lookup_iff.1 h
    cases List.mem_singleton.1 hmem
    exact ⟨rfl, rfl⟩
  refine ⟨fun h => ?_, fun h => ?_, fun h => ?_⟩
  · rw [(honly h).2]; rfl
  · rw [(honly h).1, (honly h).2]; rfl
  · cases h

/-- The fingerprint is the description itself. -/
def plainHash : ScheduleSpec → Bool → String
  | .interval everyMs, enabled => toString everyMs ++ toString enabled
  | .crontab minute hour dayOfMonth month dayOfWeek timezone, enabled =>
    String.intercalate " " [minute, hour, dayOfMonth, month, dayOfWeek, timezone, toString enabled]

/-- At time `t`, replica `r` runs a tick up to its due rows. -/
def tickTo (r : ℕ) (t : ℤ) : List BeatLabel :=
  [.time t, .tick r .now, .tick r .load, .tick r .readSlots, .tick r .readRevs,
   .tick r (.seedNext none), .tick r .sweepNext, .tick r .readDue]

/-- Replica `r` fires its only row and ends its tick. -/
def fireOne (r : ℕ) : List BeatLabel :=
  [.tick r (.fireNext (some ⟨"id", none⟩) none), .tick r .done]

/-- Replica 0 seeds at 0 and fires the slots 1000 and 2000; replica 1 stops in its tick before the slot
3000, whose script is then cut after the slot was advanced. -/
theorem slots_claimed_once_two_firings :
    ∃ s s' : BeatState, publishedSlots s.store "report" = [1000, 2000] ∧
      (publishedSlots s.store "report").Pairwise (· < ·) ∧ s'.store.due ≠ s.store.due ∧
      s'.store.published = s.store.published ++ [⟨"report", 3000, .stream⟩] := by
  let l := tickTo 0 0 ++ [.tick 0 .done] ++ tickTo 0 1000 ++ fireOne 0 ++ tickTo 1 2500 ++ fireOne 1 ++
    tickTo 1 3000
  let s := ((beatSystem plainHash EnabledEntries).runIf (steady plainHash) oneEntry l).getD oneEntry
  have hs : (beatSystem plainHash EnabledEntries).Reachable (fun s l => steady plainHash s l = true) s :=
    System.reachable_runIf ⟨enabledEntries_oneEntry, rfl, rfl, fun _ => rfl⟩ (by decide +kernel)
  have hs' : (beatSystem plainHash EnabledEntries).Reachable
      (fun s l => (isTickOrTime l && storesSmallSlot plainHash s l) = true) s := by
    refine hs.mono fun s l hl => ?_
    simp only [steady, Bool.and_eq_true] at hl ⊢
    exact ⟨hl.1.1, hl.2⟩
  have hclaim : (nextClaim 1 (s.replicas 1) (some ⟨"id", none⟩)).map
      (fun c => (c.name, c.expected, c.mode)) = some ("report", 3000, .stream) := by decide +kernel
  have hcut : ((beatSystem plainHash EnabledEntries).step s
      (.tick 1 (.fireNext (some ⟨"id", none⟩) (some 3)))).map (·.store.due.lookup "report") =
      some (some 4000) := by decide +kernel
  have hdue : s.store.due.lookup "report" = some 3000 := by decide +kernel
  obtain ⟨c, hc, heq⟩ := Option.map_eq_some_iff.1 hclaim
  obtain ⟨s', hstep, hdue'⟩ := Option.map_eq_some_iff.1 hcut
  have hne : s'.store.due ≠ s.store.due := by
    intro h
    rw [h, hdue] at hdue'
    cases hdue'
  have hmode : c.mode = .stream := congrArg (fun p => p.2.2) heq
  have hpub := slots_claimed_once.2 hs' 1 _ _ c s' hc (by rw [hmode]; decide) hstep hne
  refine ⟨s, s', by decide +kernel, (slots_claimed_once.1 hs "report").1, hne, ?_⟩
  rw [hpub]
  simp only [Prod.mk.injEq] at heq
  rw [heq.1, heq.2.1, heq.2.2]

end Cauli
