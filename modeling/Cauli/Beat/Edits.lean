import Cauli.Beat.Slots
import Cauli.Lib.KeyedFold

/-!
# Edits of the schedule

With edits of the definitions an entry can lose its slot and its fingerprint (`drop_slot`, `delete`),
and then a seed takes effect again. A seed of a tick whose `now` is not before any claimed slot of the
entry is harmless; one that a replica computed before a firing and calls after the drop re-arms the
fired slot (`stale_seed_fires_twice`).

* `freshSeed`: the condition on a seed;
* `ClaimsOk`: claimed slots are increasing, and below the stored slot;
* `claimsOk_step`: every step with whole scripts, slots below `2 ^ 53` and fresh seeds keeps that;
* `edits_never_rearm`: the result.
-/

namespace Cauli

open Transition

/-- The slots claimed for an entry, in order. -/
def claimedSlots (s : Store) (n : String) : List ℤ :=
  (s.claimed.filter fun p => decide (p.1 = n)).map (·.2)

/-- The seed takes no effect, or no slot after the `now` of its tick was claimed for its entry. -/
def freshSeed (hash : ScheduleSpec → Bool → String) (s : BeatState) : BeatLabel → Bool
  | .tick r (.seedNext _) => (nextSeed hash (s.replicas r)).all fun q =>
    isSeeded s.store q.name q.rev || (claimedSlots s.store q.name).all fun x => decide (x ≤ q.now)
  | _ => true

/-- A step with whole scripts and a fresh seed that stores a slot below `2 ^ 53`. -/
def fresh (hash : ScheduleSpec → Bool → String) (s : BeatState) (l : BeatLabel) : Bool :=
  isWhole l && storesSmallSlot hash s l && freshSeed hash s l

/-- Every stored slot is below `2 ^ 53`. -/
def SmallStore (s : Store) : Prop := ∀ n c, s.due.lookup n = some c → c.natAbs < 2 ^ 53

/-- Claimed slots are increasing and below the stored slot, and what was published was claimed. -/
structure ClaimsOk (s : Store) : Prop where
  small : SmallStore s
  passed : ∀ n c, s.due.lookup n = some c → ∀ x ∈ claimedSlots s n, x < c
  sorted : ∀ n, (claimedSlots s n).Pairwise (· < ·)
  published : ∀ n, (publishedSlots s n).Sublist (claimedSlots s n)

/-- The due rows a replica has read are below `2 ^ 53`. -/
def RowsOk (R : Replica) : Prop :=
  ∀ now entries todo, R.tick = .firing now entries todo → ∀ p ∈ todo, p.2.natAbs < 2 ^ 53

variable {hash : ScheduleSpec → Bool → String} {s s' : Store}

/-! ### The changes of the store -/

/-- A slot is dropped, or nothing changes. -/
theorem ClaimsOk.shrink (h : ClaimsOk s) (hclaimed : s'.claimed = s.claimed)
    (hpub : s'.published = s.published)
    (hdue : ∀ n c, s'.due.lookup n = some c → s.due.lookup n = some c) : ClaimsOk s' := by
  have hc : ∀ n, claimedSlots s' n = claimedSlots s n := fun n => by rw [claimedSlots, hclaimed]; rfl
  have hp : ∀ n, publishedSlots s' n = publishedSlots s n := fun n => by rw [publishedSlots, hpub]; rfl
  refine ⟨fun n c h' => h.small n c (hdue n c h'), fun n c h' => ?_, fun n => ?_, fun n => ?_⟩
  · rw [hc n]; exact h.passed n c (hdue n c h')
  · rw [hc n]; exact h.sorted n
  · rw [hc n, hp n]; exact h.published n

/-- A fresh seed. -/
theorem ClaimsOk.seed {name rev : String} {now first : ℤ} (h : ClaimsOk s)
    (hfirst : first.natAbs < 2 ^ 53) (hlt : now < first)
    (hfresh : isSeeded s name rev = true ∨ ∀ x ∈ claimedSlots s name, x ≤ now) :
    ClaimsOk (seed none name first rev s) := by
  rcases seed_whole name first rev s with ⟨-, heq⟩ | ⟨hseeded, heq⟩
  · rw [heq]
    exact h
  · rw [heq, slotScore_eq hfirst]
    have hold : ∀ x ∈ claimedSlots s name, x ≤ now := by
      rcases hfresh with hfresh | hfresh
      · rw [hfresh] at hseeded
        cases hseeded
      · exact hfresh
    refine ⟨fun n c hc => ?_, fun n c hc x hx => ?_, h.sorted, h.published⟩
    · by_cases hn : n = name
      · subst hn
        rw [AList.lookup_insert] at hc
        cases hc
        exact hfirst
      · exact h.small n c (AList.lookup_insert_ne hn ▸ hc)
    · by_cases hn : n = name
      · subst hn
        rw [AList.lookup_insert] at hc
        cases hc
        exact (hold x hx).trans_lt hlt
      · exact h.passed n c (AList.lookup_insert_ne hn ▸ hc) x hx

theorem claimedSlots_append (n : String) (p : String × ℤ) :
    claimedSlots { s with claimed := s.claimed ++ [p] } n =
      claimedSlots s n ++ if p.1 = n then [p.2] else [] := by
  by_cases h : p.1 = n <;> simp [claimedSlots, h]

/-- A claim. -/
theorem ClaimsOk.claim {c : Claim} (h : ClaimsOk s) (hexp : c.expected.natAbs < 2 ^ 53)
    (hnext : c.next.natAbs < 2 ^ 53) (hlt : c.expected < c.next) :
    ClaimsOk (claimAndPublish none c s) := by
  rcases claimAndPublish_whole c s with heq | ⟨hcas, runs, heq⟩
  · rw [heq]
    exact h
  · rw [slotScore_eq hexp] at hcas
    rw [heq, slotScore_eq hnext]
    have hclaimed : ∀ n, claimedSlots { s with claimed := s.claimed ++ [(c.name, c.expected)] } n =
        claimedSlots s n ++ if c.name = n then [c.expected] else [] :=
      fun n => claimedSlots_append n (c.name, c.expected)
    refine ⟨fun n d hd => ?_, fun n d hd x hx => ?_, fun n => ?_, fun n => ?_⟩
    · by_cases hn : n = c.name
      · subst hn
        rw [AList.lookup_insert] at hd
        cases hd
        exact hnext
      · exact h.small n d (AList.lookup_insert_ne hn ▸ hd)
    · replace hx := hclaimed n ▸ hx
      by_cases hn : n = c.name
      · subst hn
        rw [AList.lookup_insert] at hd
        cases hd
        rw [if_pos rfl] at hx
        rcases List.mem_append.1 hx with hx | hx
        · have := h.passed _ _ hcas x hx
          omega
        · rw [List.mem_singleton.1 hx]
          exact hlt
      · rw [if_neg (Ne.symm hn), List.append_nil] at hx
        exact h.passed n d (AList.lookup_insert_ne hn ▸ hd) x hx
    · show (claimedSlots { s with claimed := _ } n).Pairwise (· < ·)
      rw [hclaimed n]
      by_cases hn : c.name = n
      · subst hn
        rw [if_pos rfl]
        refine List.pairwise_append.2 ⟨h.sorted _, List.pairwise_singleton _ _, fun x hx y hy => ?_⟩
        rw [List.mem_singleton.1 hy]
        exact h.passed _ _ hcas x hx
      · rw [if_neg hn, List.append_nil]
        exact h.sorted n
    · show (publishedSlots { s with published := _ } n).Sublist (claimedSlots { s with claimed := _ } n)
      rw [hclaimed n, publishedSlots_append]
      refine (h.published n).append ?_
      split_ifs with hmode hn hn
      · exact List.nil_sublist _
      · exact List.nil_sublist _
      · simp [hn]
      · simp [hn]

/-! ### Every step -/

section
variable {r : ℕ} {R R' : Replica} {l : TickLabel}

theorem tickMove_claimsOk (hmove : TickMove hash r s R l s' R') (hs : ClaimsOk s) (hR : RowsOk R)
    (hseed : ∀ cut, l = .seedNext cut → cut = none ∧ ∀ q, nextSeed hash R = some q →
      q.slot.natAbs < 2 ^ 53 ∧
      (isSeeded s q.name q.rev = true ∨ ∀ x ∈ claimedSlots s q.name, x ≤ q.now))
    (hfire : ∀ built cut, l = .fireNext built cut → cut = none ∧
      ∀ c, nextClaim r R built = some c → c.next.natAbs < 2 ^ 53) : ClaimsOk s' := by
  cases hmove with
  | dropRev hd => exact hs.shrink rfl rfl fun _ _ h => h
  | @seedNext cut now entries slots revs name e todo ht out hout =>
    obtain ⟨rfl, hsmall⟩ := hseed cut rfl
    rcases seedEntry_cases hash none s now slots revs name e with
      ⟨heq, -⟩ | ⟨first, hen, hslot, hnext, heq⟩ | ⟨-, heq⟩
    · rw [heq] at hout
      subst hout
      exact hs
    · rw [heq] at hout
      subst hout
      obtain ⟨hfirst, hfresh⟩ := hsmall _ (nextSeed_of_seeding ht hen hslot hnext)
      exact hs.seed hfirst (lt_of_nextAfter hnext) hfresh
    · rw [heq] at hout
      subst hout
      exact hs.shrink rfl rfl fun _ _ h => AList.lookup_of_lookup_erase h
  | sweepNext ht => exact hs.shrink rfl rfl fun _ _ h => AList.lookup_of_lookup_erase h
  | @fireNext built cut now entries name slot todo ht out hout =>
    obtain ⟨rfl, hsmall⟩ := hfire built cut rfl
    rcases fireRow_cases r s now entries built none name slot with
      heq | ⟨e, c, he, hen, hargs, heq⟩ | ⟨-, heq⟩
    · rw [heq] at hout
      subst hout
      exact hs
    · rw [heq] at hout
      subst hout
      obtain ⟨-, hexp, ⟨hlt, -⟩, -⟩ := fireArgs_eq_some hargs
      have hslot := hR now entries _ ht (name, slot) List.mem_cons_self
      have hnext := hsmall c (by simp [nextClaim, ht, he, hen, hargs])
      exact hs.claim (hexp ▸ hslot) hnext (hexp ▸ hlt)
    · rw [heq] at hout
      subst hout
      exact hs.shrink rfl rfl fun _ _ h => AList.lookup_of_lookup_erase h
  | _ => exact hs

/-- Rows come from the store. -/
theorem tickMove_rowsOk (hmove : TickMove hash r s R l s' R') (hs : SmallStore s) (hR : RowsOk R) :
    RowsOk R' := by
  intro now entries todo heq p hp
  cases hmove with
  | dropRev hd => exact hR now entries todo heq p hp
  | readDue ht =>
    cases heq
    exact hs _ _ (mem_dueRows hp).1
  | fireNext ht hout =>
    cases heq
    exact hR _ _ _ ht p (List.mem_cons_of_mem _ hp)
  | _ => cases heq

end

/-- The store and the rows of every replica. -/
structure EditsOk (s : BeatState) : Prop where
  store : ClaimsOk s.store
  rows : ∀ r, RowsOk (s.replicas r)

/-- **One step keeps claimed slots below the stored one.** -/
theorem claimsOk_step {s s' : BeatState} {l : BeatLabel} (hs : EditsOk s)
    (hl : fresh hash s l = true) (hstep : beatStep hash s l = some s') : EditsOk s' := by
  simp only [fresh, Bool.and_eq_true] at hl
  obtain ⟨⟨hwhole, hsmall⟩, hfresh⟩ := hl
  cases l with
  | time t => cases hstep; exact ⟨hs.store.shrink rfl rfl fun _ _ h => h, hs.rows⟩
  | upsert e => cases hstep; exact ⟨hs.store.shrink rfl rfl fun _ _ h => h, hs.rows⟩
  | delete name command =>
    cases hstep
    refine ⟨?_, hs.rows⟩
    cases command with
    | slot => exact hs.store.shrink rfl rfl fun _ _ h => AList.lookup_of_lookup_erase h
    | _ => exact hs.store.shrink rfl rfl fun _ _ h => h
  | tick r l =>
    obtain ⟨⟨st, R'⟩, htick, rfl⟩ := Option.map_eq_some_iff.1 hstep
    have hmove := tickMove_of_tickStep htick
    refine ⟨tickMove_claimsOk hmove hs.store (hs.rows r) ?_ ?_, ?_⟩
    · rintro cut rfl
      refine ⟨by simpa [isWhole] using hwhole, fun q hq => ⟨?_, ?_⟩⟩
      · simpa [storesSmallSlot, hq] using hsmall
      · simpa [freshSeed, hq] using hfresh
    · rintro built cut rfl
      refine ⟨by simpa [isWhole] using hwhole, fun c hc => ?_⟩
      simpa [storesSmallSlot, hc] using hsmall
    · exact (Function.forall_update_iff _ fun _ R => RowsOk R).2
        ⟨tickMove_rowsOk hmove hs.store.small (hs.rows r), fun r' _ => hs.rows r'⟩

theorem editsOk_init {s : BeatState} (h : (beatSystem hash SmallStore).init s) : EditsOk s := by
  obtain ⟨hsmall, hpub, hclaimed, hrep⟩ := h
  have hc : ∀ n, claimedSlots s.store n = [] := fun n => by simp [claimedSlots, hclaimed]
  refine ⟨⟨hsmall, fun n c _ x hx => ?_, fun n => ?_, fun n => ?_⟩, fun r => ?_⟩
  · rw [hc n] at hx
    cases hx
  · rw [hc n]
    exact List.Pairwise.nil
  · simp [publishedSlots, hpub]
  · rw [hrep r]
    intro _ _ _ heq
    cases heq

/-- **Fresh seeds never re-arm a claimed slot**: whatever is edited, no stored slot was claimed before,
and every slot is published at most once. -/
theorem edits_never_rearm {s : BeatState}
    (h : (beatSystem hash SmallStore).Reachable (fun s l => fresh hash s l = true) s) :
    (∀ n c, s.store.due.lookup n = some c → c ∉ claimedSlots s.store n) ∧
      ∀ n slot, (publishedSlots s.store n).count slot ≤ 1 := by
  have hok : EditsOk s :=
    h.invariant (fun _ => editsOk_init) fun _ _ _ hs hl hstep => claimsOk_step hs hl hstep
  refine ⟨fun n c hc hmem => ?_, fun n slot => ?_⟩
  · exact lt_irrefl c (hok.store.passed n c hc c hmem)
  · have hsorted := (hok.store.sorted n).sublist (hok.store.published n)
    exact List.nodup_iff_count_le_one.1 (hsorted.imp fun h => h.ne) slot

/-! ### Two replicas and an operator -/

/-- An entry that fires every minute. -/
def minutely : ScheduleEntry := { name := "report", task := "t", schedule := .crontab everyMinute }

/-- The store with that entry, and nothing seeded. -/
def minutelyEntry : BeatState := { store := { schedule := AList.singleton "report" minutely } }

theorem minutelyEntry_init : (beatSystem plainHash SmallStore).init minutelyEntry := by
  refine ⟨fun n c h => ?_, rfl, rfl, fun _ => rfl⟩
  cases h

/-- The operator disables the entry and replica 0 drops its slot. -/
def disableAndDrop (t : ℤ) : List BeatLabel :=
  [.upsert { minutely with enabled := false }, .time t, .tick 0 .now, .tick 0 .load, .tick 0 .readSlots,
   .tick 0 .readRevs, .tick 0 (.seedNext none), .tick 0 .dropRev, .tick 0 .sweepNext, .tick 0 .readDue,
   .tick 0 .done]

/-- The entry is fired, disabled, dropped, enabled, and seeded by a tick that starts afterwards. -/
theorem edits_never_rearm_fresh_tick :
    ∃ s : BeatState, publishedSlots s.store "report" = [60_000] ∧
      s.store.due.lookup "report" = some 120_000 ∧ 120_000 ∉ claimedSlots s.store "report" := by
  let l := tickTo 0 30_000 ++ [.tick 0 .done] ++ tickTo 0 61_000 ++ fireOne 0 ++ disableAndDrop 62_000 ++
    [.upsert minutely] ++ tickTo 1 63_000
  let s := ((beatSystem plainHash SmallStore).runIf (fresh plainHash) minutelyEntry l).getD minutelyEntry
  have hs : (beatSystem plainHash SmallStore).Reachable (fun s l => fresh plainHash s l = true) s :=
    System.reachable_runIf minutelyEntry_init (by decide +kernel)
  have hdue : s.store.due.lookup "report" = some 120_000 := by decide +kernel
  exact ⟨s, by decide +kernel, hdue, (edits_never_rearm hs).1 _ _ hdue⟩

/-- No script is cut, slots are below `2 ^ 53`, and the Redis clock never goes back. -/
def monotone (hash : ScheduleSpec → Bool → String) (s : BeatState) (l : BeatLabel) : Bool :=
  isWhole l && storesSmallSlot hash s l && match l with
    | .time t => decide (s.store.time ≤ t)
    | _ => true

/-- Replica 1 stalls before its seed; replica 0 seeds and fires the slot; the operator disables the entry,
replica 0 drops its slot, the operator enables it; the seed of replica 1 then re-arms the slot, and it
fires again. -/
def staleSeed : List BeatLabel :=
  [.time 30_000, .tick 1 .now, .tick 1 .load, .tick 1 .readSlots, .tick 1 .readRevs] ++
    tickTo 0 30_000 ++ [.tick 0 .done] ++ tickTo 0 61_000 ++ fireOne 0 ++ disableAndDrop 62_000 ++
    [.upsert minutely, .tick 1 (.seedNext none)] ++ tickTo 0 63_000 ++ fireOne 0

/-- A slot that was claimed is stored and published again. -/
theorem stale_seed_fires_twice :
    ¬ ∀ s : BeatState, (beatSystem plainHash SmallStore).Reachable
        (fun s l => monotone plainHash s l = true) s →
      (∀ n c, s.store.due.lookup n = some c → c ∉ claimedSlots s.store n) ∧
        ∀ n slot, (publishedSlots s.store n).count slot ≤ 1 := by
  intro h
  have hs := System.reachable_runIf (c := monotone plainHash) (l := staleSeed) minutelyEntry_init
    (by decide +kernel)
  have hcount : (publishedSlots (((beatSystem plainHash SmallStore).runIf (monotone plainHash)
      minutelyEntry staleSeed).getD minutelyEntry).store "report").count 60_000 = 2 := by decide +kernel
  have hle := (h _ hs).2 "report" 60_000
  rw [hcount] at hle
  omega

end Cauli
