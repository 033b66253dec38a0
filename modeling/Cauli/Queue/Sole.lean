import Cauli.Queue.Holders

/-!
# One dispatch for each entry in a process (`worker/src/ctx.rs`, `worker/src/dispatch.rs`)

A worker registers an entry in `inflight_entries` when the dispatch is polled for the first time, not
when it is claimed, and a page of the recovery loop skips what is registered. The registration is a
set: if two dispatches of one entry were alive, the end of one would unregister the other.

* `marks`: the ids of the dispatches, with whether they are registered;
* `Prompt`: a dispatch is polled before its entry is idle for the visibility timeout;
* `StageSole`, `PageSole`, `Sole`: what holds of a worker whose dispatches are prompt;
* `one_dispatch_per_entry`: no entry has two dispatches, and what is registered is alive.
-/

namespace Cauli

open GroupStream

variable {Raw : Type}

/-- The ids a list of dispatches holds, with whether they are registered. -/
def marks (l : List (Dispatch Raw)) : List (StreamId × Bool) := l.map fun d => (d.sid, d.tracked)

theorem sids_eq (l : List (Dispatch Raw)) : sids l = (marks l).map (·.1) := by
  simp [sids, marks]

theorem mem_marks {l : List (Dispatch Raw)} {i : StreamId} {t : Bool} :
    (i, t) ∈ marks l ↔ ∃ d ∈ l, d.tracked = t ∧ d.sid = i := by
  simp only [marks, List.mem_map, Prod.mk.injEq, and_comm]

theorem stageFree_mark : StageFree fun d : Dispatch Raw => (d.sid, d.tracked) := fun _ _ => rfl

theorem marks_set {l : List (Dispatch Raw)} {i : ℕ} {d : Dispatch Raw} {st : Stage Raw}
    (h : l[i]? = some d) : marks (l.set i { d with stage := st }) = marks l :=
  map_set_eq h rfl

theorem marks_submit {W : Worker Raw} {i : ℕ} {d : Dispatch Raw} {q : Req Raw}
    (h : W.tasks[i]? = some d) : (marks (W.submit i d q).tasks).Perm (marks W.tasks) :=
  stageFree_mark.map_submit h

theorem marks_startFlush (n : ℕ) (l : List (Dispatch Raw)) : marks (startFlush n l) = marks l :=
  stageFree_mark.map_startFlush n l

theorem marks_spawn (l : List (Dispatch Raw)) : marks (l.map (·.spawn)) = marks l :=
  stageFree_mark.map_spawn l

section
variable [DecidableEq Raw] {C : Codec Raw} {S : Settings} {w : ℕ} {b b' : Broker Raw}
  {W W' : Worker Raw} {l : WorkLabel}

/-- What a move does to the dispatches of a worker and to its registrations. -/
theorem move_marks (h : Move C S w b W l b' W') :
    (W'.inflight = W.inflight ∧ (marks W'.tasks).Perm (marks W.tasks)) ∨
    (∃ (d : Dispatch Raw) (rest : List (StreamId × Bool)), W'.inflight = d.sid :: W.inflight ∧
      (marks W.tasks).Perm ((d.sid, d.tracked) :: rest) ∧
      (marks W'.tasks).Perm ((d.sid, true) :: rest)) ∨
    (∃ p, W'.inflight = (W.finishWhere p).inflight ∧ W'.tasks = (W.finishWhere p).tasks) ∨
    (∃ new : List StreamId, W'.inflight = W.inflight ∧
      marks W'.tasks = marks W.tasks ++ new.map (·, false) ∧
      (l = .pageClaim ∨ ∀ i ∈ new, b.stream.lastDelivered < i)) ∨
    W' = {} := by
  cases h with
  | fetch count =>
    refine .inr (.inr (.inr (.inl ⟨(b.stream.fresh count).map (·.id), rfl, ?_, .inr ?_⟩)))
    · simp [marks]
    · intro i hi
      obtain ⟨e, he, rfl⟩ := List.mem_map.1 hi
      exact (Stream.mem_fresh he).2
  | fetchReply => exact .inl ⟨rfl, .of_eq (marks_spawn W.tasks)⟩
  | @poll i d hd hst =>
    obtain ⟨hi, rfl⟩ := List.getElem?_eq_some_iff.1 hd
    refine .inr (.inl ⟨W.tasks[i], marks (W.tasks.eraseIdx i), rfl, ?_, ?_⟩)
    · exact (List.getElem_cons_eraseIdx_perm hi).symm.map _
    · exact (List.set_perm_cons_eraseIdx hi _).map fun d : Dispatch Raw => (d.sid, d.tracked)
  | processDone hd hst hp => exact .inl ⟨rfl, marks_submit hd⟩
  | processRun hd hst hp => exact .inl ⟨rfl, .of_eq (marks_set hd)⟩
  | finish hd hst => exact .inl ⟨rfl, marks_submit hd⟩
  | flushStart n hf => exact .inl ⟨rfl, .of_eq (marks_startFlush n W.tasks)⟩
  | flushWrite hf hp =>
    obtain ⟨i, d, k, ws, refused, hd, hst, rfl⟩ := popWrite_eq_some hp
    exact .inl ⟨rfl, .of_eq (marks_set hd)⟩
  | flushReplied hf hall => exact .inr (.inr (.inl ⟨_, rfl, rfl⟩))
  | flushDel hf => exact .inr (.inr (.inl ⟨_, rfl, rfl⟩))
  | flushCut hf => exact .inr (.inr (.inl ⟨_, rfl, rfl⟩))
  | @pageClaim p parsed todo st e hpage hc =>
    refine .inr (.inr (.inr (.inl ⟨[e.id], rfl, ?_, .inl rfl⟩)))
    simp [marks]
  | pageDlq hpage hd hst hlim => exact .inl ⟨rfl, marks_submit hd⟩
  | pageSpawn hpage hd hst hlim => exact .inl ⟨rfl, .of_eq (marks_set hd)⟩
  | claimFail hpage => exact .inr (.inr (.inl ⟨_, rfl, rfl⟩))
  | crash => exact .inr (.inr (.inr (.inr rfl)))
  | _ => exact .inl ⟨rfl, .refl _⟩

/-! ### What is registered -/

/-- The registrations are those of the dispatches. -/
def Registered (W : Worker Raw) : Prop := ∀ i, i ∈ W.inflight ↔ (i, true) ∈ marks W.tasks

omit [DecidableEq Raw] in
/-- The end of dispatches drops their registrations, and no others: no entry has two dispatches. -/
theorem Registered.finishWhere (h : Registered W) (hnodup : (sids W.tasks).Nodup)
    (p : Dispatch Raw → Bool) : Registered (W.finishWhere p) := by
  intro i
  simp only [Worker.finishWhere, List.mem_filter, mem_marks, Bool.not_eq_true', List.any_eq_false,
    Bool.and_eq_true, beq_iff_eq, h i]
  constructor
  · rintro ⟨⟨d, hd, htracked, hsid⟩, hother⟩
    have hkeep : p d = false := by
      by_contra hp
      exact hother d hd ⟨⟨by simpa using hp, htracked⟩, hsid⟩
    exact ⟨d, ⟨hd, hkeep⟩, htracked, hsid⟩
  · rintro ⟨d, ⟨hd, hkeep⟩, htracked, hsid⟩
    refine ⟨⟨d, hd, htracked, hsid⟩, ?_⟩
    rintro d' hd' ⟨⟨hp, -⟩, hsid'⟩
    have hsame := List.inj_on_of_nodup_map hnodup hd' hd (hsid'.trans hsid.symm)
    rw [hsame, hkeep] at hp
    cases hp

theorem Registered.move (hmove : Move C S w b W l b' W') (h : Registered W)
    (hnodup : (sids W.tasks).Nodup) : Registered W' := by
  intro i
  rcases move_marks hmove with ⟨hin, hperm⟩ | ⟨d, rest, hin, hbefore, hafter⟩ | ⟨p, hin, htasks⟩ |
    ⟨new, hin, hmarks, -⟩ | rfl
  · rw [hin, hperm.mem_iff]
    exact h i
  · rw [hin, hafter.mem_iff, List.mem_cons, List.mem_cons, h i, hbefore.mem_iff, List.mem_cons]
    simp only [Prod.mk.injEq, and_true]
    tauto
  · rw [hin, htasks]
    exact h.finishWhere hnodup p i
  · rw [hin, hmarks, h i]
    simp
  · simp [marks]

/-! ### Where the dispatches stand -/

/-- The page holds claims. -/
def Page.isOpen : Page Raw → Bool
  | .claiming _ | .dispatching => true
  | .idle | .peeking _ _ => false

/-- By stage, whether a dispatch is registered; claims, and dead letters of the recovery loop itself,
are there only while its page is. -/
def StageSole (pg : Page Raw) (d : Dispatch Raw) : Prop := match d.stage with
  | .fetched | .spawned => d.tracked = false
  | .claimed _ _ => d.tracked = false ∧ pg.isOpen = true
  | .polled | .executing _ => d.tracked = true
  | .submitted _ | .flushing _ _ => d.tracked = true ∨ pg = .dispatching

omit [DecidableEq Raw] in
theorem StageSole.page {pg pg' : Page Raw} {d : Dispatch Raw} (h : StageSole pg d)
    (hopen : pg.isOpen = true → pg'.isOpen = true)
    (hdispatching : pg = .dispatching → pg' = .dispatching) :
    StageSole pg' d := by
  unfold StageSole at h ⊢
  split at h
  · exact h
  · exact h
  · exact ⟨h.1, hopen h.2⟩
  · exact h
  · exact h
  · exact h.imp_right hdispatching
  · exact h.imp_right hdispatching

theorem move_stageSole (h : Move C S w b W l b' W')
    (hdone : l = .pageDone → ∀ d ∈ W.tasks, d.isAwaited = false)
    (hall : ∀ d ∈ W.tasks, StageSole W.page d) : ∀ d ∈ W'.tasks, StageSole W'.page d := by
  intro d' hd'
  cases h with
  | fetch count =>
    rcases List.mem_append.1 hd' with hd' | hd'
    · exact hall d' hd'
    · obtain ⟨e, he, rfl⟩ := List.mem_map.1 hd'
      rfl
  | fetchReply =>
    obtain ⟨d, hd, rfl⟩ := List.mem_map.1 hd'
    have hd := hall d hd
    unfold Dispatch.spawn
    split
    · next hst =>
      unfold StageSole at hd
      rw [hst] at hd
      exact hd
    · exact hd
  | poll hd hst =>
    rcases List.mem_or_eq_of_mem_set hd' with hd' | rfl
    · exact hall d' hd'
    · rfl
  | processRun hd hst hp =>
    rcases List.mem_or_eq_of_mem_set hd' with hd' | rfl
    · exact hall d' hd'
    · have hbefore := hall _ (List.mem_of_getElem? hd)
      unfold StageSole at hbefore
      rw [hst] at hbefore
      exact hbefore
  | processDone hd hst hp | finish hd hst =>
    rcases List.mem_append.1 hd' with hd' | hd'
    · exact hall d' (List.mem_of_mem_eraseIdx hd')
    · rw [List.mem_singleton.1 hd']
      have hbefore := hall _ (List.mem_of_getElem? hd)
      unfold StageSole at hbefore
      rw [hst] at hbefore
      exact .inl hbefore
  | flushStart n hf =>
    rcases mem_startFlush hd' with hd | ⟨d, hd, q, hst, rfl⟩
    · exact hall d' hd
    · have hbefore := hall d hd
      unfold StageSole at hbefore
      rw [hst] at hbefore
      exact hbefore
  | flushWrite hf hp =>
    obtain ⟨i, d, k, ws, refused, hd, hst, rfl⟩ := popWrite_eq_some hp
    rcases List.mem_or_eq_of_mem_set hd' with hd' | rfl
    · exact hall d' hd'
    · have hbefore := hall d (List.mem_of_getElem? hd)
      unfold StageSole at hbefore
      rw [hst] at hbefore
      exact hbefore
  | flushReplied hf _ => exact hall d' (mem_finishWhere.1 hd').1
  | flushDel hf => exact hall d' (mem_finishWhere.1 hd').1
  | flushCut hf => exact hall d' (mem_finishWhere.1 hd').1
  | pageStart _ _ hpage | pagePeek hpage | pageNone hpage | pageDecide hpage | peekFail hpage =>
    have hbefore := hall d' hd'
    rw [hpage] at hbefore
    exact hbefore.page nofun nofun
  | pageClaimNone hpage hc =>
    have hbefore := hall d' hd'
    rw [hpage] at hbefore
    exact hbefore.page id nofun
  | pageClaim hpage hc =>
    rcases List.mem_append.1 hd' with hd' | hd'
    · have hbefore := hall d' hd'
      rw [hpage] at hbefore
      exact hbefore.page id nofun
    · rw [List.mem_singleton.1 hd']
      exact ⟨rfl, rfl⟩
  | pageClaimed hpage =>
    have hbefore := hall d' hd'
    rw [hpage] at hbefore
    exact hbefore.page id nofun
  | pageDlq hpage hd hst hlim =>
    rcases List.mem_append.1 hd' with hd' | hd'
    · exact hall d' (List.mem_of_mem_eraseIdx hd')
    · rw [List.mem_singleton.1 hd']
      exact .inr hpage
  | pageSpawn hpage hd hst hlim =>
    rcases List.mem_or_eq_of_mem_set hd' with hd' | rfl
    · exact hall d' hd'
    · have hbefore := hall _ (List.mem_of_getElem? hd)
      unfold StageSole at hbefore
      rw [hst] at hbefore
      exact hbefore.1
  | pageDone hpage hclaimed =>
    have hbefore := hall d' hd'
    have hunclaimed := hclaimed d' hd'
    have hnone := hdone rfl d' hd'
    unfold StageSole at hbefore ⊢
    unfold Dispatch.isClaimed at hunclaimed
    unfold Dispatch.isAwaited at hnone
    split at hbefore <;> simp_all
  | claimFail hpage =>
    obtain ⟨hd, hunclaimed⟩ := mem_finishWhere.1 hd'
    have hbefore := hall d' hd
    rw [hpage] at hbefore
    unfold StageSole at hbefore ⊢
    unfold Dispatch.isClaimed at hunclaimed
    split at hbefore <;> simp_all
  | crash => cases hd'
  | _ => exact hall d' hd'

theorem awaited_of_pageDone (h : workerStep C S w b W .pageDone = some (b', W')) :
    ∀ d ∈ W.tasks, d.isAwaited = false := by
  simp only [workerStep] at h
  split at h
  · split_ifs at h with hany
    intro d hd
    by_contra hawaited
    refine hany (List.any_eq_true.2 ⟨d, hd, ?_⟩)
    rw [Bool.of_not_eq_false hawaited, Bool.or_true]
  · cases h

/-! ### What a page is about to claim -/

/-- The rows of a page that is peeked at. -/
def rowIds (todo : List Pend) (peeked : List (Pend × Option (Option Raw))) : List StreamId :=
  peeked.map (·.1.id) ++ todo.map (·.id)

/-- No row of a page has a dispatch that is not registered; what is about to be claimed has none. -/
def PageSole (b : Broker Raw) (tasks : List (Dispatch Raw)) : Page Raw → Prop
  | .peeking todo peeked => (rowIds todo peeked).Nodup ∧
      ∀ i ∈ rowIds todo peeked, i ≤ b.stream.lastDelivered ∧ (i, false) ∉ marks tasks
  | .claiming eligible => (eligible.map (·.1.id)).Nodup ∧
      ∀ i ∈ eligible.map (·.1.id), i ≤ b.stream.lastDelivered ∧ i ∉ sids tasks
  | .idle | .dispatching => True

omit [DecidableEq Raw] in
theorem PageSole.mono {tasks tasks' : List (Dispatch Raw)} {pg : Page Raw}
    (h : PageSole b tasks pg) (hle : b.stream.lastDelivered ≤ b'.stream.lastDelivered)
    (hold : ∀ i, i ≤ b.stream.lastDelivered →
      ((i, false) ∈ marks tasks' → (i, false) ∈ marks tasks) ∧ (i ∈ sids tasks' → i ∈ sids tasks)) :
    PageSole b' tasks' pg := by
  cases pg with
  | peeking todo peeked =>
    refine ⟨h.1, fun i hi => ?_⟩
    obtain ⟨hdelivered, hmarks⟩ := h.2 i hi
    exact ⟨hdelivered.trans hle, mt (hold i hdelivered).1 hmarks⟩
  | claiming eligible =>
    refine ⟨h.1, fun i hi => ?_⟩
    obtain ⟨hdelivered, hsids⟩ := h.2 i hi
    exact ⟨hdelivered.trans hle, mt (hold i hdelivered).2 hsids⟩
  | idle => trivial
  | dispatching => trivial

/-- Apart from a claim, a move leaves no id that was delivered before with a new dispatch. -/
theorem move_marks_old (h : Move C S w b W l b' W') (hl : l ≠ .pageClaim) (i : StreamId)
    (hi : i ≤ b.stream.lastDelivered) :
    ((i, false) ∈ marks W'.tasks → (i, false) ∈ marks W.tasks) ∧
      (i ∈ sids W'.tasks → i ∈ sids W.tasks) := by
  have hsids : ∀ {l : List (Dispatch Raw)}, i ∈ sids l ↔ ∃ t, (i, t) ∈ marks l := by
    intro l
    rw [sids_eq]
    simp
  rw [hsids, hsids]
  rcases move_marks h with ⟨-, hperm⟩ | ⟨d, rest, -, hbefore, hafter⟩ | ⟨p, -, htasks⟩ |
    ⟨new, -, hmarks, hnew⟩ | rfl
  · simp only [hperm.mem_iff]
    exact ⟨id, id⟩
  · simp only [hbefore.mem_iff, hafter.mem_iff, List.mem_cons, Prod.mk.injEq]
    refine ⟨fun h => .inr (h.resolve_left nofun), ?_⟩
    rintro ⟨t, ⟨rfl, -⟩ | hrest⟩
    · exact ⟨d.tracked, .inl ⟨rfl, rfl⟩⟩
    · exact ⟨t, .inr hrest⟩
  · have hsub : marks W'.tasks ⊆ marks W.tasks := by
      rw [htasks]
      exact (List.filter_sublist.map _).subset
    exact ⟨fun h => hsub h, fun ⟨t, h⟩ => ⟨t, hsub h⟩⟩
  · have hlt := hnew.resolve_left hl
    have hold : ∀ t, (i, t) ∈ marks W'.tasks → (i, t) ∈ marks W.tasks := by
      intro t ht
      rw [hmarks] at ht
      rcases List.mem_append.1 ht with ht | ht
      · exact ht
      · obtain ⟨j, hj, heq⟩ := List.mem_map.1 ht
        cases heq
        exact absurd hi (not_le.2 (hlt i hj))
    exact ⟨hold false, fun ⟨t, h⟩ => ⟨t, hold t h⟩⟩
  · simp [marks]

/-- Delivered or spawned, and not polled yet. -/
def Dispatch.isWaiting (d : Dispatch Raw) : Bool := match d.stage with
  | .fetched | .spawned => true
  | _ => false

/-- Every dispatch is polled for the first time before its entry is idle for the visibility
timeout. -/
def Prompt (S : Settings) (b : Broker Raw) (W : Worker Raw) : Prop :=
  ∀ d ∈ W.tasks, d.isWaiting = true → ∀ q ∈ b.stream.pel, q.id = d.sid →
    b.now - q.deliveredAt < visibilityTimeoutMs S.visibilityTimeoutS

instance (S : Settings) (b : Broker Raw) (W : Worker Raw) : Decidable (Prompt S b W) :=
  inferInstanceAs (Decidable (∀ d ∈ W.tasks, d.isWaiting = true → _))

omit [DecidableEq Raw] in
/-- Between two pages only dispatches that wait for their first poll are not registered. -/
theorem waiting_of_untracked {d : Dispatch Raw} (h : StageSole .idle d) (hd : d.tracked = false) :
    d.isWaiting = true := by
  unfold StageSole at h
  unfold Dispatch.isWaiting
  split at h <;> simp_all [Page.isOpen]

omit [DecidableEq Raw] in
/-- A page that is read shows nothing that waits for its first poll. -/
theorem pageSole_start (hprompt : Prompt S b W) (hstages : ∀ d ∈ W.tasks, StageSole .idle d)
    (start : Option StreamId) (count : ℕ) :
    PageSole b W.tasks (.peeking (xpendingIdle S b start count) []) := by
  constructor
  · simp only [rowIds, List.map_nil, List.nil_append, xpendingIdle, List.map_map]
    have hsorted : (b.stream.xpending b.now (visibilityTimeoutMs S.visibilityTimeoutS) start
        count).Pairwise (·.id < ·.id) :=
      (b.stream.pel_sorted.filter _).sublist (List.take_sublist _ _)
    exact hsorted.map _ fun _ _ hlt => hlt.ne
  · intro i hi
    simp only [rowIds, List.map_nil, List.nil_append, xpendingIdle, List.map_map] at hi
    obtain ⟨q, hq, rfl⟩ := List.mem_map.1 hi
    obtain ⟨hmem, htest⟩ := List.mem_filter.1 (List.mem_of_mem_take hq)
    refine ⟨b.stream.pel_le q hmem, fun hmarks => ?_⟩
    obtain ⟨d, hd, hfree, hsid⟩ := mem_marks.1 hmarks
    have hwaiting := waiting_of_untracked (hstages d hd) hfree
    have hlt := hprompt d hd hwaiting q hmem hsid.symm
    simp only [Bool.and_eq_true, decide_eq_true_eq] at htest
    exact absurd htest.1 (not_le.2 hlt)

omit [DecidableEq Raw] in
theorem eligible_ids_sublist (inflight : List StreamId) (peeked : List (Pend × Option (Option Raw))) :
    ((peeked.filterMap (eligible C S inflight)).map (·.1.id)).Sublist (peeked.map (·.1.id)) := by
  induction peeked with
  | nil => exact .refl _
  | cons x peeked ih =>
    cases hx : eligible C S inflight x with
    | none =>
      rw [List.filterMap_cons_none hx]
      exact ih.cons _
    | some y =>
      rw [List.filterMap_cons_some hx, List.map_cons, List.map_cons, (eligible_eq_some hx).1]
      exact ih.cons_cons _

omit [DecidableEq Raw] in
/-- What a page decides to claim is not registered, so no dispatch of it is left. -/
theorem pageSole_decide (hreg : Registered W) {peeked : List (Pend × Option (Option Raw))}
    (h : PageSole b W.tasks (.peeking [] peeked)) :
    PageSole b W.tasks (.claiming (peeked.filterMap (eligible C S W.inflight))) := by
  obtain ⟨hnodup, hrows⟩ := h
  rw [rowIds, List.map_nil, List.append_nil] at hnodup hrows
  have hsub := eligible_ids_sublist (C := C) (S := S) W.inflight peeked
  refine ⟨hnodup.sublist hsub, fun i hi => ?_⟩
  obtain ⟨hdelivered, hmarks⟩ := hrows i (hsub.subset hi)
  refine ⟨hdelivered, fun hheld => ?_⟩
  obtain ⟨y, hy, rfl⟩ := List.mem_map.1 hi
  obtain ⟨x, -, hxy⟩ := List.mem_filterMap.1 hy
  obtain ⟨d, hd, hsid⟩ := List.mem_map.1 hheld
  cases htracked : d.tracked with
  | false => exact hmarks (mem_marks.2 ⟨d, hd, htracked, hsid⟩)
  | true =>
    have hin : y.1.id ∈ W.inflight := (hreg _).2 (mem_marks.2 ⟨d, hd, htracked, hsid⟩)
    exact (eligible_eq_some hxy).2.2.1 hin

/-! ### The invariant -/

/-- The dispatches of one worker. -/
structure Sole (b : Broker Raw) (W : Worker Raw) : Prop where
  nodup : (sids W.tasks).Nodup
  registered : Registered W
  stages : ∀ d ∈ W.tasks, StageSole W.page d
  page : PageSole b W.tasks W.page

/-- A prompt worker stays sole by its own moves. -/
theorem Sole.move (hstep : workerStep C S w b W l = some (b', W')) (hW : WorkerOk C b W)
    (hprompt : Prompt S b W) (h : Sole b W) : Sole b' W' := by
  have hmove := move_of_workerStep hstep
  have hle := (move_grows hmove hW).evolves.delivered_le
  refine ⟨nodup_move hmove hW h.nodup ?_, h.registered.move hmove h.nodup, ?_, ?_⟩
  · intro p parsed todo q hpage _ _ _ _
    have hclaiming := h.page
    rw [hpage] at hclaiming
    exact (hclaiming.2 p.id List.mem_cons_self).2
  · refine move_stageSole hmove ?_ h.stages
    rintro rfl
    exact awaited_of_pageDone hstep
  · have hpageSole := h.page
    have hold : l ≠ .pageClaim → _ := move_marks_old hmove
    cases hmove with
    | pageStart start count hpage =>
      have hstages := h.stages
      rw [hpage] at hstages
      exact pageSole_start hprompt hstages start count
    | pagePeek hpage =>
      rw [hpage] at hpageSole
      simpa [PageSole, rowIds] using hpageSole
    | pageNone hpage => trivial
    | pageDecide hpage =>
      rw [hpage] at hpageSole
      exact pageSole_decide h.registered hpageSole
    | pageClaimNone hpage hc =>
      rw [hpage] at hpageSole
      refine PageSole.mono (b := b) ⟨(List.nodup_cons.1 hpageSole.1).2, ?_⟩ hle fun _ _ => ⟨id, id⟩
      exact fun i hi => hpageSole.2 i (List.mem_cons_of_mem _ hi)
    | @pageClaim p parsed todo st e hpage hc =>
      rw [hpage] at hpageSole
      obtain ⟨hnew, hnodup⟩ := List.nodup_cons.1 hpageSole.1
      refine ⟨hnodup, fun i hi => ?_⟩
      obtain ⟨hdelivered, hsids⟩ := hpageSole.2 i (List.mem_cons_of_mem _ hi)
      refine ⟨hdelivered.trans hle, fun hmem => ?_⟩
      rw [sids, List.map_append] at hmem
      rcases List.mem_append.1 hmem with hmem | hmem
      · exact hsids hmem
      · have hip : i = p.id := (List.mem_singleton.1 hmem).trans (Stream.xclaim_eq_some hc).2.1
        subst hip
        exact hnew hi
    | pageClaimed hpage => trivial
    | pageDone hpage hclaimed => trivial
    | peekFail hpage => trivial
    | claimFail hpage => trivial
    | crash => trivial
    | _ => exact hpageSole.mono hle (hold (by simp))

omit [DecidableEq Raw] in
theorem sole_empty (b : Broker Raw) : Sole b {} :=
  ⟨List.nodup_nil, fun _ => iff_of_false List.not_mem_nil List.not_mem_nil,
    fun _ hd => absurd hd List.not_mem_nil, trivial⟩

omit [DecidableEq Raw] in
/-- Other workers and the clients leave the dispatches of a worker alone. -/
theorem Sole.grows (hg : Grows C b b') (h : Sole b W) : Sole b' W :=
  ⟨h.nodup, h.registered, h.stages, h.page.mono hg.evolves.delivered_le fun _ _ => ⟨id, id⟩⟩

end

section
variable [DecidableEq Raw] {C : Codec Raw} {S : ℕ → Settings} {s s' : QueueState Raw}

theorem Sole.step {w : ℕ} {l : QueueLabel Raw} (hq : QueueOk C s)
    (hprompt : Prompt (S w) s.broker (s.workers w)) (h : Sole s.broker (s.workers w))
    (hstep : queueStep C S s l = some s') : Sole s'.broker (s'.workers w) := by
  cases l with
  | env l =>
    obtain ⟨b', hb', rfl⟩ := Option.map_eq_some_iff.1 hstep
    exact h.grows (brokerStep_grows (C := C) hb')
  | work v l =>
    obtain ⟨⟨b', W'⟩, hwork, rfl⟩ := Option.map_eq_some_iff.1 hstep
    by_cases hv : v = w
    · subst hv
      show Sole b' (Function.update s.workers v W' v)
      rw [Function.update_self]
      exact h.move hwork (hq.workers v) hprompt
    · show Sole b' (Function.update s.workers v W' w)
      rw [Function.update_of_ne (Ne.symm hv)]
      exact h.grows (move_grows (move_of_workerStep hwork) (hq.workers v))

/-- **One live dispatch per entry per process.** In every run in which worker `w` polls its dispatches
before their entries are idle for the visibility timeout, whatever the other workers read, claim and
lose: no entry has two dispatches in `w`; what is registered as in flight is exactly what a registered
dispatch holds; and a dispatch from its first poll to the end of its task is registered. -/
theorem one_dispatch_per_entry {w : ℕ}
    (h : (queueSystem C S).Reachable (fun s _ => Prompt (S w) s.broker (s.workers w)) s) :
    (∀ d ∈ (s.workers w).tasks, ∀ d' ∈ (s.workers w).tasks, d.sid = d'.sid → d = d') ∧
    (sids (s.workers w).tasks).Nodup ∧
    (∀ i, i ∈ (s.workers w).inflight ↔ ∃ d ∈ (s.workers w).tasks, d.tracked = true ∧ d.sid = i) ∧
    ∀ d ∈ (s.workers w).tasks, (d.stage = .polled ∨ ∃ env, d.stage = .executing env) →
      d.tracked = true := by
  have hsole : Sole s.broker (s.workers w) := by
    refine (h.invariant (I := fun s => QueueOk C s ∧ Sole s.broker (s.workers w)) ?_ ?_).2
    · rintro s rfl
      exact ⟨queueOk_init, sole_empty _⟩
    · rintro s l s' ⟨hq, hsole⟩ hprompt hstep
      exact ⟨queueOk_step hq hstep, hsole.step hq hprompt hstep⟩
  refine ⟨fun d hd d' hd' => List.inj_on_of_nodup_map hsole.nodup hd hd', hsole.nodup,
    fun i => (hsole.registered i).trans mem_marks, fun d hd hstage => ?_⟩
  have hsole := hsole.stages d hd
  unfold StageSole at hsole
  rcases hstage with hst | ⟨env, hst⟩
  · rwa [hst] at hsole
  · rwa [hst] at hsole

/-- A task that runs for longer than the visibility timeout, and a page of its own worker. -/
def longRun : List (QueueLabel Token) :=
  .env (.enqueue (entryId 1) retried) :: (deliver 0 ++ [.env (.tick 400_000)] ++ readPage 0)

/-- The page finds the entry registered and leaves it alone. -/
theorem one_dispatch_per_entry_long_run :
    ∃ s : QueueState Token, s.broker.now = 400_000 ∧ (s.workers 0).inflight = [entryId 1] ∧
      (s.workers 0).tasks.length = 1 ∧ ∃ d ∈ (s.workers 0).tasks, d.tracked = true ∧
        d.sid = entryId 1 := by
  let c := fun (s : QueueState Token) (_ : QueueLabel Token) =>
    decide (Prompt {} s.broker (s.workers 0))
  let s := (tokenSystem.runIf c {} longRun).getD {}
  have hs : tokenSystem.Reachable (fun s _ => Prompt {} s.broker (s.workers 0)) s :=
    (Transition.System.reachable_runIf rfl (by decide +kernel)).mono fun _ _ h => of_decide_eq_true h
  have hinflight : (s.workers 0).inflight = [entryId 1] := by decide +kernel
  refine ⟨s, by decide +kernel, hinflight, by decide +kernel, ?_⟩
  refine ((one_dispatch_per_entry (S := fun _ => {}) (w := 0) hs).2.2.1 (entryId 1)).1 ?_
  rw [hinflight]
  exact List.mem_singleton_self _

end

end Cauli
