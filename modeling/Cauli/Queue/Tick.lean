import Cauli.Lib.GroupStream
import Cauli.Lib.Transition

/-!
# A recovery tick (`worker/src/loops.rs`)

A tick of the recovery loop walks the pending entries of a queue in pages. The size of a page is the
number of free io slots at that moment, so it changes from page to page; the cursor moves behind the
last row of a full page, and a page that is not full ends the tick. Between the pages entries are
delivered, claimed, acknowledged and deleted, by this worker and by others.

* `nextCursor`: the cursor after a page;
* `RecoveryTick`: the queue and the cursor, with a record of what was examined;
* `RecoveryTick.ahead`: the pages that can still follow if nothing is delivered;
* `recovery_tick_visits_all`: the tick ends, examines nothing twice and misses nothing that stays.
-/

namespace Cauli

open GroupStream

/-- The cursor after a page of size `page`: behind the last row, if the page was full. -/
def nextCursor (page : ℕ) (pend : List Pending) : Option StreamId :=
  match pend.getLast? with
  | some last => if pend.length = page then some last.id else none
  | none => none

/-- A queue during a tick. The cursor is `none` when the queue is done, `some none` at the start. -/
structure RecoveryTick (α : Type) where
  now : ℕ
  stream : Stream α
  cursor : Option (Option StreamId) := some none
  examined : List StreamId := []
  pages : ℕ := 0

/-- The steps. -/
inductive RecoveryLabel (α : Type)
  | clock (now : ℕ)
  | add (id : StreamId) (v : α)
  | deliver (consumer count : ℕ)
  | claim (consumer minIdle : ℕ) (id : StreamId)
  | ack (ids : List StreamId)
  | del (ids : List StreamId)
  /-- A page, of the size the admission gate returned. -/
  | page (count : ℕ)
  /-- A page that ends in a Redis error. -/
  | pageError

variable {α : Type}

/-- One step; `vt` is the visibility timeout. -/
def recoveryStep (vt : ℕ) (s : RecoveryTick α) : RecoveryLabel α → Option (RecoveryTick α)
  | .clock now => if s.now ≤ now then some { s with now := now } else none
  | .add id v => (s.stream.xadd id v).map fun t => { s with stream := t }
  | .deliver consumer count => some { s with stream := s.stream.xreadgroup consumer s.now count }
  | .claim consumer minIdle id =>
    some { s with stream := (s.stream.xclaim consumer s.now minIdle id).1 }
  | .ack ids => some { s with stream := s.stream.xack ids }
  | .del ids => some { s with stream := s.stream.xdel ids }
  | .page count =>
    match s.cursor with
    | some start =>
      if 0 < count then
        let pend := s.stream.xpending s.now vt start count
        some { s with
          cursor := (nextCursor count pend).map some
          examined := s.examined ++ pend.map (·.id)
          pages := s.pages + 1 }
      else none
    | none => none
  | .pageError => s.cursor.map fun _ => { s with cursor := none }

/-- The runs of one tick, from any queue. -/
def recoverySystem (α : Type) (vt : ℕ) : Transition.System (RecoveryTick α) (RecoveryLabel α) where
  init s := s.cursor = some none ∧ s.examined = [] ∧ s.pages = 0
  step := recoveryStep vt

/-- No Redis error. -/
def noError (_ : RecoveryTick α) (l : RecoveryLabel α) : Prop := l ≠ .pageError

/-- No delivery, and no Redis error. -/
def noDelivery (_ : RecoveryTick α) (l : RecoveryLabel α) : Prop :=
  l ≠ .pageError ∧ ∀ consumer count, l ≠ .deliver consumer count

/-- The entry is pending, and idle for the visibility timeout. -/
def Stuck (vt : ℕ) (id : StreamId) (s : RecoveryTick α) : Prop :=
  ∃ p ∈ s.stream.pel, p.id = id ∧ vt ≤ s.now - p.deliveredAt

/-! ### A page -/

/-- An id is behind the cursor. -/
def beyond (start : Option StreamId) (i : StreamId) : Bool := start.all fun j => decide (j < i)

theorem beyond_some {i j : StreamId} : beyond (some i) j = true ↔ i < j := by
  rw [beyond, Option.all_some, decide_eq_true_iff]

theorem xpending_eq (s : Stream α) (now vt : ℕ) (start : Option StreamId) (count : ℕ) :
    s.xpending now vt start count = ((s.pel.filter fun p =>
      decide (vt ≤ now - p.deliveredAt) && beyond start p.id)).take count := rfl

theorem mem_xpending {s : Stream α} {now vt count : ℕ} {start : Option StreamId} {p : Pending}
    (h : p ∈ s.xpending now vt start count) : p ∈ s.pel ∧ beyond start p.id = true := by
  rw [xpending_eq] at h
  obtain ⟨hmem, htest⟩ := List.mem_filter.1 (List.mem_of_mem_take h)
  exact ⟨hmem, (Bool.and_eq_true _ _ ▸ htest).2⟩

theorem xpending_sorted (s : Stream α) (now vt : ℕ) (start : Option StreamId) (count : ℕ) :
    (s.xpending now vt start count).Pairwise (·.id < ·.id) :=
  (s.pel_sorted.filter _).sublist (List.take_sublist _ _)

theorem nextCursor_eq_some {count : ℕ} {pend : List Pending} {i : StreamId}
    (h : nextCursor count pend = some i) :
    pend.length = count ∧ ∃ p, pend.getLast? = some p ∧ p.id = i := by
  unfold nextCursor at h
  split at h
  · next last hlast =>
    split_ifs at h with hlen
    exact ⟨hlen, last, hlast, Option.some.inj h⟩
  · cases h

/-- The last of sorted rows is above the others. -/
theorem le_getLast {pend : List Pending} (hsorted : pend.Pairwise (·.id < ·.id)) {p q : Pending}
    (hlast : pend.getLast? = some p) (hq : q ∈ pend) : q.id ≤ p.id := by
  obtain ⟨init, rfl⟩ := List.getLast?_eq_some_iff.1 hlast
  rcases List.mem_append.1 hq with hq | hq
  · exact ((List.pairwise_append.1 hsorted).2.2 q hq p (List.mem_singleton_self _)).le
  · rw [List.mem_singleton.1 hq]

/-- **A page shows a stuck entry behind the cursor, or moves the cursor in front of it.** -/
theorem page_shows_or_passes {s : Stream α} {now vt count : ℕ} {start : Option StreamId}
    (hcount : 0 < count) {p : Pending} (hp : p ∈ s.pel) (hidle : vt ≤ now - p.deliveredAt)
    (hstart : beyond start p.id = true) :
    p ∈ s.xpending now vt start count ∨
      ∃ i, nextCursor count (s.xpending now vt start count) = some i ∧ i < p.id := by
  set rows := s.pel.filter fun p => decide (vt ≤ now - p.deliveredAt) && beyond start p.id
    with hrows
  have hmem : p ∈ rows := List.mem_filter.2 ⟨hp, by rw [decide_eq_true hidle, hstart]; rfl⟩
  have hsorted : rows.Pairwise (·.id < ·.id) := s.pel_sorted.filter _
  rw [xpending_eq, ← hrows]
  rw [← List.take_append_drop count rows] at hmem hsorted
  rcases List.mem_append.1 hmem with hshown | hrest
  · exact .inl hshown
  · -- a row is left over, so the page is full
    have hfull : (rows.take count).length = count := by
      have hdrop := List.length_pos_of_mem hrest
      rw [List.length_drop] at hdrop
      rw [List.length_take]
      omega
    have hne : rows.take count ≠ [] := by
      intro hnil
      rw [hnil] at hfull
      exact hcount.ne hfull
    obtain ⟨last, hlast⟩ := Option.isSome_iff_exists.1 (List.getLast?_isSome.2 hne)
    refine .inr ⟨last.id, ?_, ?_⟩
    · unfold nextCursor
      rw [hlast]
      exact if_pos hfull
    · exact (List.pairwise_append.1 hsorted).2.2 last (List.mem_of_getLast? hlast) p hrest

/-! ### What has been examined -/

/-- What was examined is in order, and in front of the cursor. -/
structure Walked (s : RecoveryTick α) : Prop where
  sorted : s.examined.Pairwise (· < ·)
  passed : ∀ start, s.cursor = some start → ∀ i ∈ s.examined, ∀ j, beyond start j = true → i < j

theorem Walked.page {vt count : ℕ} {s s' : RecoveryTick α} (h : Walked s)
    (hstep : recoveryStep vt s (.page count) = some s') : Walked s' := by
  simp only [recoveryStep] at hstep
  split at hstep
  · next start hstart =>
    split_ifs at hstep
    cases hstep
    have hrows := xpending_sorted s.stream s.now vt start count
    refine ⟨List.pairwise_append.2 ⟨h.sorted, List.pairwise_map.2 hrows, ?_⟩, ?_⟩
    · intro i hi j hj
      obtain ⟨p, hp, rfl⟩ := List.mem_map.1 hj
      exact h.passed start hstart i hi p.id (mem_xpending hp).2
    · intro start' hstart' i hi j hj
      obtain ⟨last, hlast, rfl⟩ := Option.map_eq_some_iff.1 hstart'
      obtain ⟨-, p, hp, rfl⟩ := nextCursor_eq_some hlast
      have hpj : p.id < j := beyond_some.1 hj
      rcases List.mem_append.1 hi with hold | hnew
      · have hbeyond := (mem_xpending (List.mem_of_getLast? hp)).2
        exact (h.passed start hstart i hold p.id hbeyond).trans hpj
      · obtain ⟨q, hq, rfl⟩ := List.mem_map.1 hnew
        exact (le_getLast hrows hp hq).trans_lt hpj
  · cases hstep

/-- The steps between the pages leave the walk alone. -/
theorem recoveryStep_other {vt : ℕ} {s s' : RecoveryTick α} {l : RecoveryLabel α}
    (hpage : ∀ count, l ≠ .page count) (herror : l ≠ .pageError)
    (hstep : recoveryStep vt s l = some s') :
    s'.cursor = s.cursor ∧ s'.examined = s.examined ∧ s'.pages = s.pages := by
  cases l with
  | clock now =>
    simp only [recoveryStep] at hstep
    split_ifs at hstep
    cases hstep
    exact ⟨rfl, rfl, rfl⟩
  | add id v =>
    obtain ⟨t, -, rfl⟩ := Option.map_eq_some_iff.1 hstep
    exact ⟨rfl, rfl, rfl⟩
  | deliver consumer count => cases hstep; exact ⟨rfl, rfl, rfl⟩
  | claim consumer minIdle id => cases hstep; exact ⟨rfl, rfl, rfl⟩
  | ack ids => cases hstep; exact ⟨rfl, rfl, rfl⟩
  | del ids => cases hstep; exact ⟨rfl, rfl, rfl⟩
  | page count => exact absurd rfl (hpage count)
  | pageError => exact absurd rfl herror

theorem Walked.step {vt : ℕ} {s s' : RecoveryTick α} {l : RecoveryLabel α} (h : Walked s)
    (hstep : recoveryStep vt s l = some s') : Walked s' := by
  by_cases hpage : ∃ count, l = .page count
  · obtain ⟨count, rfl⟩ := hpage
    exact h.page hstep
  · by_cases herror : l = .pageError
    · subst herror
      obtain ⟨-, -, rfl⟩ := Option.map_eq_some_iff.1 hstep
      exact ⟨h.sorted, nofun⟩
    · obtain ⟨hcursor, hexamined, -⟩ := recoveryStep_other (not_exists.1 hpage) herror hstep
      refine ⟨hexamined ▸ h.sorted, ?_⟩
      rw [hcursor, hexamined]
      exact h.passed

theorem walked_of_reachable {vt : ℕ} {C : RecoveryTick α → RecoveryLabel α → Prop}
    {s : RecoveryTick α} (h : (recoverySystem α vt).Reachable C s) : Walked s := by
  refine h.invariant ?_ fun s l s' hs _ hstep => hs.step hstep
  rintro s ⟨-, hexamined, -⟩
  rw [show s = { s with examined := [] } by rw [← hexamined]]
  exact ⟨.nil, nofun⟩

/-- The entry was examined, or is still behind the cursor. -/
def Awaited (id : StreamId) (s : RecoveryTick α) : Prop :=
  id ∈ s.examined ∨ ∃ start, s.cursor = some start ∧ beyond start id = true

/-- A page does not step over an entry that is stuck. -/
theorem Awaited.step {vt : ℕ} {id : StreamId} {s s' : RecoveryTick α} {l : RecoveryLabel α}
    (h : Awaited id s) (hstuck : Stuck vt id s) (herror : l ≠ .pageError)
    (hstep : recoveryStep vt s l = some s') : Awaited id s' := by
  by_cases hpage : ∃ count, l = .page count
  · obtain ⟨count, rfl⟩ := hpage
    simp only [recoveryStep] at hstep
    split at hstep
    · next start hstart =>
      split_ifs at hstep with hcount
      cases hstep
      rcases h with hexamined | ⟨start', hstart', hbeyond⟩
      · exact .inl (List.mem_append_left _ hexamined)
      · cases hstart.symm.trans hstart'
        obtain ⟨p, hp, rfl, hidle⟩ := hstuck
        rcases page_shows_or_passes hcount hp hidle hbeyond with hshown | ⟨i, hi, hlt⟩
        · exact .inl (List.mem_append_right _ (List.mem_map_of_mem hshown))
        · exact .inr ⟨some i, congrArg (Option.map some) hi, beyond_some.2 hlt⟩
    · cases hstep
  · obtain ⟨hcursor, hexamined, -⟩ := recoveryStep_other (not_exists.1 hpage) herror hstep
    unfold Awaited
    rw [hcursor, hexamined]
    exact h

/-! ### The pages that can follow -/

/-- The pages that can follow without a delivery: one for every pending id behind the cursor, and the
one that finds no more. -/
def RecoveryTick.ahead (s : RecoveryTick α) : ℕ :=
  match s.cursor with
  | some start => ((s.stream.pel.map (·.id)).filter (beyond start)).length + 1
  | none => 0

/-- Without a delivery no id becomes pending. -/
theorem pel_sublist_of_step {vt : ℕ} {s s' : RecoveryTick α} {l : RecoveryLabel α}
    (hl : noDelivery s l) (hstep : recoveryStep vt s l = some s') :
    (s'.stream.pel.map (·.id)).Sublist (s.stream.pel.map (·.id)) := by
  cases l with
  | clock now =>
    simp only [recoveryStep] at hstep
    split_ifs at hstep
    cases hstep
    exact .refl _
  | add id v =>
    obtain ⟨t, ht, rfl⟩ := Option.map_eq_some_iff.1 hstep
    show (t.pel.map (·.id)).Sublist _
    rw [(Stream.xadd_eq_some ht).2.2]
  | deliver consumer count => exact absurd rfl (hl.2 consumer count)
  | claim consumer minIdle id =>
    cases hstep
    show ((s.stream.xclaim consumer s.now minIdle id).1.pel.map (·.id)).Sublist _
    rcases s.stream.xclaim_cases consumer s.now minIdle id with h | ⟨-, h⟩ | ⟨_, _, -, -, -, -, -, h⟩
    · rw [h]
    · rw [h]
      exact List.filter_sublist.map _
    · rw [h]
      have hids : (s.stream.redeliver consumer s.now id).pel.map (·.id) = s.stream.pel.map (·.id) := by
        unfold Stream.redeliver
        rw [List.map_map]
        refine List.map_congr_left fun p _ => ?_
        show (if p.id = id then _ else p : Pending).id = p.id
        split_ifs <;> rfl
      rw [hids]
  | ack ids =>
    cases hstep
    exact List.filter_sublist.map _
  | del ids => cases hstep; exact .refl _
  | page count =>
    simp only [recoveryStep] at hstep
    split at hstep
    · split_ifs at hstep
      cases hstep
      exact .refl _
    · cases hstep
  | pageError => exact absurd rfl hl.1

/-- A page leaves fewer pages to follow. -/
theorem ahead_page_lt {vt count : ℕ} {s s' : RecoveryTick α}
    (hstep : recoveryStep vt s (.page count) = some s') :
    s'.pages = s.pages + 1 ∧ s'.ahead < s.ahead := by
  simp only [recoveryStep] at hstep
  split at hstep
  · next start hstart =>
    split_ifs at hstep
    cases hstep
    refine ⟨rfl, ?_⟩
    set pend := s.stream.xpending s.now vt start count
    rw [RecoveryTick.ahead, RecoveryTick.ahead, hstart]
    cases hnext : nextCursor count pend with
    | none => exact Nat.succ_pos _
    | some i =>
      obtain ⟨-, p, hp, rfl⟩ := nextCursor_eq_some hnext
      obtain ⟨hmem, hbeyond⟩ := mem_xpending (List.mem_of_getLast? hp)
      set ids := s.stream.pel.map (·.id)
      have hin : p.id ∈ ids.filter (beyond start) :=
        List.mem_filter.2 ⟨List.mem_map_of_mem hmem, hbeyond⟩
      have hsub : ids.filter (beyond (some p.id)) =
          (ids.filter (beyond start)).filter (beyond (some p.id)) := by
        rw [List.filter_filter]
        refine List.filter_congr fun j _ => ?_
        by_cases hj : p.id < j
        · have hstartj : beyond start j = true := by
            cases start with
            | none => rfl
            | some i => exact beyond_some.2 ((beyond_some.1 hbeyond).trans hj)
          rw [hstartj, Bool.and_true]
        · have hnot : beyond (some p.id) j = false := Bool.eq_false_iff.2 (mt beyond_some.1 hj)
          rw [hnot, Bool.false_and]
      have hlt : ((ids.filter (beyond start)).filter (beyond (some p.id))).length <
          (ids.filter (beyond start)).length := by
        exact List.length_filter_lt_length_iff_exists.2 ⟨p.id, hin, mt beyond_some.1 (lt_irrefl _)⟩
      show (ids.filter (beyond (some p.id))).length + 1 < _
      rw [hsub]
      exact Nat.succ_lt_succ hlt
  · cases hstep

theorem ahead_step_le {vt : ℕ} {s s' : RecoveryTick α} {l : RecoveryLabel α} (hl : noDelivery s l)
    (hstep : recoveryStep vt s l = some s') : s'.pages + s'.ahead ≤ s.pages + s.ahead := by
  by_cases hpage : ∃ count, l = .page count
  · obtain ⟨count, rfl⟩ := hpage
    obtain ⟨hpages, hlt⟩ := ahead_page_lt hstep
    omega
  · obtain ⟨hcursor, -, hpages⟩ := recoveryStep_other (not_exists.1 hpage) hl.1 hstep
    have hsub := pel_sublist_of_step hl hstep
    rw [hpages, RecoveryTick.ahead, RecoveryTick.ahead, hcursor]
    cases s.cursor with
    | none => exact le_rfl
    | some start =>
      have hlen := (hsub.filter (beyond start)).length_le
      show s.pages + (_ + 1) ≤ s.pages + (_ + 1)
      omega

theorem ahead_reach_le {vt : ℕ} {s t : RecoveryTick α}
    (h : (recoverySystem α vt).Reach noDelivery s t) : t.pages + t.ahead ≤ s.pages + s.ahead := by
  induction h with
  | refl => exact le_rfl
  | tail _ hl hstep ih => exact (ahead_step_le hl hstep).trans ih

/-- **A recovery tick visits everything and ends.** Without Redis errors, at any point of a tick: no
entry has been examined twice; once deliveries stop, at most `ahead` more pages follow and after so
many the queue is done, while before that a page of any size can be read; and when the queue is done,
an entry that was pending and idle for the visibility timeout all along has been examined once. -/
theorem recovery_tick_visits_all {vt : ℕ} {s : RecoveryTick α}
    (h : (recoverySystem α vt).Reachable noError s) :
    s.examined.Nodup ∧
    (∀ t, (recoverySystem α vt).Reach noDelivery s t →
      t.pages ≤ s.pages + s.ahead ∧ (t.pages = s.pages + s.ahead → t.cursor = none)) ∧
    (s.cursor ≠ none → ∀ count, 0 < count → (recoveryStep vt s (.page count)).isSome = true) ∧
    ∀ id, (recoverySystem α vt).Reachable (fun s l => noError s l ∧ Stuck vt id s) s →
      s.cursor = none → s.examined.count id = 1 := by
  have hnodup : s.examined.Nodup := (walked_of_reachable h).sorted.imp fun hlt => hlt.ne
  refine ⟨hnodup, fun t hreach => ?_, fun hcursor count hcount => ?_, fun id hid hdone => ?_⟩
  · have hle := ahead_reach_le hreach
    refine ⟨(Nat.le_add_right _ _).trans hle, fun hpages => ?_⟩
    have hzero : t.ahead = 0 := by omega
    unfold RecoveryTick.ahead at hzero
    cases hcursor : t.cursor with
    | none => rfl
    | some start =>
      rw [hcursor] at hzero
      cases hzero
  · obtain ⟨start, hstart⟩ := Option.ne_none_iff_exists'.1 hcursor
    simp only [recoveryStep, hstart, if_pos hcount, Option.isSome_some]
  · have hawaited : Awaited id s := by
      refine hid.invariant ?_ fun s l s' hs hl hstep => hs.step hl.2 hl.1 hstep
      rintro s ⟨hcursor, -, -⟩
      exact .inr ⟨none, hcursor, rfl⟩
    refine List.count_eq_one_of_mem hnodup (hawaited.resolve_right ?_)
    rintro ⟨start, hstart, -⟩
    rw [hdone] at hstart
    cases hstart

/-- The first generated id. -/
def firstId : StreamId := ⟨1, 0, StreamId.one_lt, StreamId.zero_lt⟩

/-- One entry, delivered to a worker that is gone. -/
def orphaned : RecoveryTick Unit where
  now := 100
  stream := ((Stream.empty.xadd firstId ()).getD .empty).xreadgroup 7 0 1

/-- A page of one row is exactly full; the page after it is empty and ends the tick. -/
theorem recovery_tick_visits_orphan :
    let s := ((recoverySystem Unit 60).run orphaned [.page 1, .page 3]).getD orphaned
    s.cursor = none ∧ s.pages = 2 ∧ s.examined.count firstId = 1 := by
  intro s
  have hstuck : ∀ s : RecoveryTick Unit, s.now = 100 → s.stream.pel = [⟨firstId, 7, 0, 1⟩] →
      Stuck 60 firstId s := by
    intro s hnow hpel
    exact ⟨⟨firstId, 7, 0, 1⟩, by rw [hpel]; exact List.mem_cons_self, rfl, by rw [hnow]; decide⟩
  let C := fun (s : RecoveryTick Unit) (l : RecoveryLabel Unit) => noError s l ∧ Stuck 60 firstId s
  let s₁ := (recoveryStep 60 orphaned (.page 1)).getD orphaned
  have h₀ : (recoverySystem Unit 60).Reachable C orphaned := ⟨orphaned, ⟨rfl, rfl, rfl⟩, .refl⟩
  have h₁ : (recoverySystem Unit 60).Reachable C s₁ :=
    h₀.tail ⟨nofun, hstuck _ rfl (by decide +kernel)⟩ (a := .page 1) rfl
  have h₂ : (recoverySystem Unit 60).Reachable C s :=
    h₁.tail ⟨nofun, hstuck _ rfl (by decide +kernel)⟩ (a := .page 3) rfl
  have hdone : s.cursor = none := by decide +kernel
  have hall := recovery_tick_visits_all (h₂.mono fun _ _ h => h.1)
  exact ⟨hdone, by decide +kernel, hall.2.2.2 firstId h₂ hdone⟩

end Cauli
