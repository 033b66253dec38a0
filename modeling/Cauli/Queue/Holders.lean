import Cauli.Queue.Reclaim

/-!
# Runs in which every entry has one holder

An entry is held by the dispatches that carry its id, in any worker. The code alone does not keep
two workers from holding one entry (a page read too early, an executor call longer than the reclaim
bound), and it does not keep an entry from being held again after its retry was written (a crash or
a torn flush between ZADD and XACK). `Orderly` is the condition on the steps of a run under which
neither happens, no task id is enqueued twice, and no mover script is cut between XADD and ZREM.

* `Dispatch.isWritten`: the retry copy was accepted, the ack is still to come;
* `ShapeOk`: a retry request has one write, the copy with the next retry count, and no other request
  writes to the delayed set;
* `HoldersOk`: every entry has at most one holder, and a held entry is alive until its ack;
* `holdersOk_step`: an orderly step keeps that.
-/

namespace Cauli

open GroupStream

variable {Raw : Type}

/-- A retry whose ZADD was accepted, in a batch that is not acked. -/
def Dispatch.isWritten (d : Dispatch Raw) : Bool := match d.stage with
  | .flushing ⟨.retry, []⟩ false => true
  | _ => false

/-- No worker holds the entry. -/
def Unheld (s : QueueState Raw) (i : StreamId) : Prop :=
  ∀ w, ∀ d ∈ (s.workers w).tasks, d.sid ≠ i

/-- A worker that may stop here: none of its unacked entries has its retry written. -/
def MayStop (W : Worker Raw) : Prop :=
  W.flush ≠ .deleting → ∀ d ∈ W.tasks, d.isWritten = false

/-- The condition on a step: task ids are enqueued once; the mover is not cut between XADD and ZREM; a
worker does not crash, and its flush is not cut, between the ZADD of a retry and the XACK of its
entry; an XCLAIM that passes its idle check finds the delivery count its page read and an entry that
nobody holds. -/
def Orderly (C : Codec Raw) (S : ℕ → Settings) (s : QueueState Raw) : QueueLabel Raw → Prop
  | .env (.enqueue _ raw) => ∀ r ∈ s.broker.accepted, C.task r ≠ C.task raw
  | .env (.enqueueDelayed raw _) => ∀ r ∈ s.broker.accepted, C.task r ≠ C.task raw
  | .env (.move _ due cut) => cut % 2 = 0 ∨ 2 * due.length ≤ cut
  | .work w .crash => MayStop (s.workers w)
  | .work w .flushCut => MayStop (s.workers w)
  | .work w .pageClaim => ∀ p parsed todo, (s.workers w).page = .claiming ((p, parsed) :: todo) →
      ∀ q ∈ s.broker.stream.pel, q.id = p.id →
        visibilityTimeoutMs (S w).visibilityTimeoutS ≤ s.broker.now - q.deliveredAt →
        q.count = p.deliveryCount ∧ Unheld s p.id
  | _ => True

/-! ### Retries and their budget -/

section
variable (C : Codec Raw)

/-- The retries a text has left. -/
def retriesLeft (r : Raw) : ℕ := match C.fromStr r with
  | some env => env.maxRetries - env.retries
  | none => 0

/-- The redelivery limit of a text. -/
def limitOf (r : Raw) : ℕ := redeliveryLimit (C.fromStr r)

/-- Executions that the retries of a text can still cause. -/
def reserve (r : Raw) : ℕ := retriesLeft C r * (limitOf C r + 1)

/-- The retry copy `m` of `r`. -/
def RetryOf (r m : Raw) : Prop := C.task m = C.task r ∧ reserve C m + (limitOf C m + 1) ≤ reserve C r

end

variable {C : Codec Raw} {S : Settings}

theorem retryOf_toStr {r : Raw} {env : Envelope} (hr : C.fromStr r = some env)
    (hlt : env.retries < env.maxRetries) :
    RetryOf C r (C.toStr { env with retries := env.retries + 1 }) := by
  refine ⟨task_retry hr hlt, ?_⟩
  obtain ⟨env', henv', -, hretries, hmax⟩ := C.reparse hr (env.retries + 1) hlt
  have hlimit : redeliveryLimit (some env') = redeliveryLimit (some env) := by
    simp [redeliveryLimit, hmax]
  simp only [reserve, retriesLeft, limitOf, henv', hr, hlimit, hretries, hmax]
  have hleft : env.maxRetries - env.retries = env.maxRetries - (env.retries + 1) + 1 := by omega
  rw [hleft, Nat.succ_mul]

variable (C) in
/-- The writes of a request made for the payload `raw`: a retry has its copy as its only write, and
no other request writes to the delayed set. -/
def ReqShape (raw : Option Raw) (q : Req Raw) : Prop :=
  if q.kind = .retry then ∃ r m score, raw = some r ∧ q.extra = [.zadd m score] ∧ RetryOf C r m
  else ∀ m score, .zadd m score ∉ q.extra

theorem reqShape_storeResult {raw : Option Raw} {k : Kind} (hk : k ≠ .retry)
    (result : Option (String × ResultDoc × ℕ)) : ReqShape C raw ⟨k, storeResult result⟩ := by
  rw [ReqShape, if_neg hk]
  intro m score
  cases result with
  | none => simp [storeResult]
  | some result => simp [storeResult]

theorem reqShape_finishDlq {raw source : Option Raw} (x : Raw) (reason : Reason)
    (error : Option ErrorJson) (result : Option (String × ResultDoc × ℕ)) :
    ReqShape C raw (finishDlq source x reason error result) := by
  rw [ReqShape, if_neg (by simp [finishDlq])]
  intro m score
  cases result with
  | none => simp [finishDlq, storeResult]
  | some result => simp [finishDlq, storeResult]

theorem reqShape_process {raw : Option Raw} {now : ℕ} {claim : Option IdempClaim} {q : Req Raw}
    (h : process C S raw now claim = .finished q) : ReqShape C raw q := by
  rcases process_cases (C := C) (S := S) raw now claim with
    ⟨_, _, -, -, -, h'⟩ | ⟨result, h'⟩ | ⟨x, reason, error, result, -, h'⟩
  · rw [h'] at h; cases h
  · rw [h'] at h; cases h; exact reqShape_storeResult (by decide) _
  · rw [h'] at h; cases h; exact reqShape_finishDlq _ _ _ _

theorem reqShape_finish {r : Raw} {env : Envelope} (hr : C.fromStr r = some env)
    (outcome : Outcome) (now backoffMs : ℕ) :
    ReqShape C (some r) (finish C S (some r) env outcome now backoffMs) := by
  rcases finish_cases (C := C) (S := S) (some r) env outcome now backoffMs with
    ⟨result, h⟩ | ⟨hlt, countdownMs, h⟩ | ⟨err, reason, h⟩
  · rw [h]; exact reqShape_storeResult (by decide) _
  · have hk : (scheduleRetry C env countdownMs now backoffMs).kind = .retry := rfl
    rw [h, ReqShape, if_pos hk]
    exact ⟨r, _, _, rfl, rfl, retryOf_toStr hr hlt⟩
  · rw [h]; exact reqShape_finishDlq _ _ _ _

variable (C) in
/-- The shape of the request of a dispatch. In the batch a retry is answered, or its write is still to
come and nothing was refused. -/
def ShapeOk (d : Dispatch Raw) : Prop := match d.stage with
  | .submitted q => ReqShape C d.raw q
  | .flushing q refused => (q.kind = .retry ∧ q.extra = []) ∨
      ((q.kind = .retry → refused = false) ∧ ReqShape C d.raw q)
  | _ => True

/-- A write of the batch, answered either way. -/
theorem shapeOk_write {d : Dispatch Raw} {k : Kind} {y : Write Raw} {ws : List (Write Raw)}
    {refused accepted : Bool} (h : ShapeOk C d) (hst : d.stage = .flushing ⟨k, y :: ws⟩ refused) :
    ShapeOk C { d with stage := .flushing ⟨k, ws⟩ (refused || !accepted) } := by
  unfold ShapeOk at h ⊢
  rw [hst] at h
  rcases h with ⟨-, hnil⟩ | ⟨-, hshape⟩
  · cases hnil
  · by_cases hk : k = .retry
    · rw [ReqShape, if_pos hk] at hshape
      obtain ⟨r, m, score, -, hextra, -⟩ := hshape
      exact Or.inl ⟨hk, (List.cons.inj hextra).2⟩
    · refine Or.inr ⟨fun h => absurd h hk, ?_⟩
      rw [ReqShape, if_neg hk] at hshape ⊢
      exact fun m score hmem => hshape m score (List.mem_cons_of_mem _ hmem)

/-- The write to the delayed set is the retry copy of its dispatch. -/
theorem retry_of_zadd {d : Dispatch Raw} {k : Kind} {m : Raw} {score : ℕ} {ws : List (Write Raw)}
    {refused : Bool} (h : ShapeOk C d) (hst : d.stage = .flushing ⟨k, .zadd m score :: ws⟩ refused) :
    k = .retry ∧ ws = [] ∧ refused = false ∧ ∃ r, d.raw = some r ∧ RetryOf C r m := by
  unfold ShapeOk at h
  rw [hst] at h
  rcases h with ⟨-, hnil⟩ | ⟨href, hshape⟩
  · cases hnil
  · by_cases hk : k = .retry
    · rw [ReqShape, if_pos hk] at hshape
      obtain ⟨r, m', score', hraw, hextra, hretry⟩ := hshape
      cases hextra
      exact ⟨hk, rfl, href hk, r, hraw, hretry⟩
    · rw [ReqShape, if_neg hk] at hshape
      exact absurd List.mem_cons_self (hshape m score)

/-! ### One holder for each entry -/

/-- The ids a list of dispatches holds. -/
def sids (l : List (Dispatch Raw)) : List StreamId := l.map (·.sid)

/-- The stage of a dispatch does not matter. -/
def StageFree {α : Type} (f : Dispatch Raw → α) : Prop := ∀ d st, f { d with stage := st } = f d

theorem map_set_eq {α : Type} {f : Dispatch Raw → α} {l : List (Dispatch Raw)} {i : ℕ}
    {d d' : Dispatch Raw} (h : l[i]? = some d) (hf : f d' = f d) : (l.set i d').map f = l.map f := by
  have hget : (l.map f)[i]? = some (f d) := by simp [h]
  obtain ⟨hi, heq⟩ := List.getElem?_eq_some_iff.1 hget
  rw [List.map_set, hf, ← heq]
  exact List.set_getElem_self hi

section StageFree
variable {α : Type} {f : Dispatch Raw → α}

theorem StageFree.map_submit (hf : StageFree f) {W : Worker Raw} {i : ℕ} {d : Dispatch Raw}
    {q : Req Raw} (h : W.tasks[i]? = some d) :
    ((W.submit i d q).tasks.map f).Perm (W.tasks.map f) := by
  obtain ⟨hi, rfl⟩ := List.getElem?_eq_some_iff.1 h
  have hperm := (List.getElem_cons_eraseIdx_perm hi).map f
  simp only [Worker.submit, List.map_append, List.map_cons, List.map_nil, hf _ _] at hperm ⊢
  exact List.perm_append_comm.trans hperm

theorem StageFree.map_startFlush (hf : StageFree f) (n : ℕ) (l : List (Dispatch Raw)) :
    (startFlush n l).map f = l.map f := by
  induction l generalizing n with
  | nil => cases n <;> rfl
  | cons d l ih =>
    cases n with
    | zero => rfl
    | succ n =>
      unfold startFlush
      split
      · rw [List.map_cons, List.map_cons, ih n, hf]
      · rw [List.map_cons, List.map_cons, ih (n + 1)]

theorem StageFree.map_spawn (hf : StageFree f) (l : List (Dispatch Raw)) :
    (l.map (·.spawn)).map f = l.map f := by
  rw [List.map_map]
  refine List.map_congr_left fun d _ => ?_
  simp only [Function.comp, Dispatch.spawn]
  split
  · exact hf d _
  · rfl

end StageFree

theorem stageFree_sid : StageFree fun d : Dispatch Raw => d.sid := fun _ _ => rfl

theorem sids_set {l : List (Dispatch Raw)} {i : ℕ} {d : Dispatch Raw} {tracked : Bool}
    {st : Stage Raw} (h : l[i]? = some d) :
    sids (l.set i { d with tracked := tracked, stage := st }) = sids l :=
  map_set_eq h rfl

theorem sids_submit {W : Worker Raw} {i : ℕ} {d : Dispatch Raw} {q : Req Raw}
    (h : W.tasks[i]? = some d) : (sids (W.submit i d q).tasks).Perm (sids W.tasks) :=
  stageFree_sid.map_submit h

theorem sids_startFlush (n : ℕ) (l : List (Dispatch Raw)) : sids (startFlush n l) = sids l :=
  stageFree_sid.map_startFlush n l

theorem sids_spawn (l : List (Dispatch Raw)) : sids (l.map (·.spawn)) = sids l :=
  stageFree_sid.map_spawn l

theorem sids_finishWhere (W : Worker Raw) (p : Dispatch Raw → Bool) :
    (sids (W.finishWhere p).tasks).Sublist (sids W.tasks) :=
  List.filter_sublist.map _

section
variable [DecidableEq Raw] {w : ℕ} {b b' : Broker Raw} {W W' : Worker Raw} {l : WorkLabel}

/-- The ids a worker holds after a move: those it held, up to order, without some of them, or with new
ones from a read or from a claim. -/
theorem move_sids (h : Move C S w b W l b' W') :
    (sids W'.tasks).Subperm (sids W.tasks) ∨
    (∃ count, sids W'.tasks = sids W.tasks ++ (b.stream.fresh count).map (·.id)) ∨
    ∃ p parsed todo q, l = .pageClaim ∧ W.page = .claiming ((p, parsed) :: todo) ∧
      q ∈ b.stream.pel ∧ q.id = p.id ∧
      visibilityTimeoutMs S.visibilityTimeoutS ≤ b.now - q.deliveredAt ∧
      sids W'.tasks = sids W.tasks ++ [p.id] := by
  cases h with
  | fetch count => exact Or.inr (Or.inl ⟨count, by simp [sids]⟩)
  | fetchReply => exact Or.inl (sids_spawn W.tasks ▸ List.Subperm.refl _)
  | poll hd hst => exact Or.inl (by rw [sids_set hd])
  | processDone hd hst hp => exact Or.inl (sids_submit hd).subperm
  | processRun hd hst hp => exact Or.inl (by rw [Worker.setStage, sids_set hd])
  | finish hd hst => exact Or.inl (sids_submit hd).subperm
  | flushStart n hf => exact Or.inl (sids_startFlush n W.tasks ▸ List.Subperm.refl _)
  | flushWrite hf hp =>
    obtain ⟨i, d, k, ws, refused, hd, hst, rfl⟩ := popWrite_eq_some hp
    exact Or.inl (by rw [sids_set hd])
  | flushReplied hf hall => exact Or.inl (sids_finishWhere W _).subperm
  | flushDel hf => exact Or.inl (sids_finishWhere W _).subperm
  | flushCut hf => exact Or.inl (sids_finishWhere W _).subperm
  | pageClaim hpage hc =>
    obtain ⟨-, hid, -, q, hq, hqid, hidle⟩ := Stream.xclaim_eq_some hc
    exact Or.inr (Or.inr ⟨_, _, _, q, rfl, hpage, hq, hqid, hidle, by simp [sids, hid]⟩)
  | pageDlq hpage hd hst hlim => exact Or.inl (sids_submit hd).subperm
  | pageSpawn hpage hd hst hlim => exact Or.inl (by rw [Worker.setStage, sids_set hd])
  | claimFail hpage => exact Or.inl (sids_finishWhere W _).subperm
  | crash => exact Or.inl (List.nil_subperm)
  | _ => exact Or.inl (List.Subperm.refl _)

/-- A live entry is alive after a move, unless the move acks it. -/
theorem move_live (h : Move C S w b W l b' W') (hW : WorkerOk C b W) {e : Entry (Option Raw)}
    (he : b.stream.Live e) :
    b'.stream.Live e ∨ (W.flush = .acking ∧ W'.flush = .deleting ∧ W'.tasks = W.tasks ∧
      e.id ∈ flushIds W.tasks) := by
  cases h with
  | fetch count | fetchLost count => exact Or.inl (Stream.live_xreadgroup _ _ _ he)
  | flushWrite hf hp =>
    left
    split_ifs
    · obtain ⟨_, _, _, _, _, heq⟩ := applyWrite_eq b _ _
      rw [heq]
      exact he
    · exact he
  | flushAck hf =>
    by_cases hid : e.id ∈ flushIds W.tasks
    · exact Or.inr ⟨hf, rfl, rfl, hid⟩
    · exact Or.inl (Stream.live_xack he hid)
  | flushDel hf =>
    refine Or.inl (Stream.live_retain he ?_)
    by_contra hk
    obtain ⟨d, hd, hfl, hsid⟩ := mem_flushIds.1 (by simpa using hk)
    obtain ⟨q, refused, hst⟩ := isFlushing_iff.1 hfl
    exact he.2 (hsid ▸ settled_of_deleting (hf ▸ hW.tasks d hd) hst)
  | pageClaimNone hp hc | pageClaim hp hc =>
    exact Or.inl (Stream.live_xclaim hc he)
  | trimRun ht =>
    refine Or.inl (Stream.live_retain he ?_)
    by_contra hk
    have htrim := hW.trim
    rw [ht] at htrim
    exact he.2 (htrim e.id (by simpa using hk))
  | _ => exact Or.inl he

omit [DecidableEq Raw] in
theorem isFlushing_spawn (d : Dispatch Raw) : d.spawn.isFlushing = d.isFlushing := by
  cases h : d.stage <;> simp [Dispatch.spawn, Dispatch.isFlushing, h]

/-- An entry a worker holds after a move is new and alive, or was held before; a batch that is not
acked yet was not acked before. -/
theorem move_origin (h : Move C S w b W l b' W') {d' : Dispatch Raw} (hd' : d' ∈ W'.tasks) :
    (∃ e, b'.stream.Live e ∧ e.id = d'.sid) ∨
    ∃ d ∈ W.tasks, d.sid = d'.sid ∧ ((W'.flush = .deleting → d'.isFlushing = false) →
      W.flush = .deleting → d.isFlushing = false) := by
  cases h with
  | fetch count =>
    rcases List.mem_append.1 hd' with hd' | hd'
    · exact Or.inr ⟨d', hd', rfl, fun h => h⟩
    · obtain ⟨e, he, rfl⟩ := List.mem_map.1 hd'
      have hmem := Stream.mem_fresh he
      refine Or.inl ⟨e, Stream.live_xreadgroup _ _ _ (Stream.live_iff.2 ?_), rfl⟩
      exact ⟨hmem.1, Or.inl hmem.2⟩
  | fetchReply =>
    obtain ⟨d, hd, rfl⟩ := List.mem_map.1 hd'
    refine Or.inr ⟨d, hd, ?_, fun h hdel => ?_⟩
    · unfold Dispatch.spawn; split <;> rfl
    · rw [← isFlushing_spawn d]; exact h hdel
  | poll hd hst | processRun hd hst hp | pageSpawn _ hd hst _ =>
    rcases List.mem_or_eq_of_mem_set hd' with hd' | rfl
    · exact Or.inr ⟨d', hd', rfl, fun h => h⟩
    · refine Or.inr ⟨_, List.mem_of_getElem? hd, rfl, fun _ _ => ?_⟩
      simp [Dispatch.isFlushing, hst]
  | processDone hd hst hp | finish hd hst | pageDlq _ hd hst _ =>
    rcases List.mem_append.1 hd' with hd' | hd'
    · exact Or.inr ⟨d', List.mem_of_mem_eraseIdx hd', rfl, fun h => h⟩
    · rw [List.mem_singleton.1 hd']
      refine Or.inr ⟨_, List.mem_of_getElem? hd, rfl, fun _ _ => ?_⟩
      simp [Dispatch.isFlushing, hst]
  | flushStart n hf =>
    rcases mem_startFlush hd' with hd | ⟨d, hd, q, hst, rfl⟩
    · exact Or.inr ⟨d', hd, rfl, fun _ hdel => by rw [hf] at hdel; cases hdel⟩
    · exact Or.inr ⟨d, hd, rfl, fun _ hdel => by rw [hf] at hdel; cases hdel⟩
  | flushWrite hf hp =>
    obtain ⟨i, d, k, ws, refused, hd, hst, rfl⟩ := popWrite_eq_some hp
    rcases List.mem_or_eq_of_mem_set hd' with hd' | rfl
    · exact Or.inr ⟨d', hd', rfl, fun h => h⟩
    · exact Or.inr ⟨d, List.mem_of_getElem? hd, rfl, fun _ hdel => by rw [hf] at hdel; cases hdel⟩
  | flushReplied hf hall =>
    obtain ⟨hd, -⟩ := mem_finishWhere.1 hd'
    exact Or.inr ⟨d', hd, rfl, fun _ hdel => by rw [hf] at hdel; cases hdel⟩
  | flushAck hf => exact Or.inr ⟨d', hd', rfl, fun _ hdel => by rw [hf] at hdel; cases hdel⟩
  | flushDel hf | flushCut hf =>
    obtain ⟨hd, hfl⟩ := mem_finishWhere.1 hd'
    exact Or.inr ⟨d', hd, rfl, fun _ _ => hfl⟩
  | pageClaim hp hc =>
    rcases List.mem_append.1 hd' with hd' | hd'
    · exact Or.inr ⟨d', hd', rfl, fun h => h⟩
    · rw [List.mem_singleton.1 hd']
      obtain ⟨he, hid, rfl, q, hq, hqid, -⟩ := Stream.xclaim_eq_some hc
      refine Or.inl ⟨_, Stream.live_redeliver _ _ _ (Stream.live_iff.2 ⟨he, Or.inr ?_⟩), rfl⟩
      exact ⟨q, hq, hqid.trans hid.symm⟩
  | claimFail hp =>
    obtain ⟨hd, -⟩ := mem_finishWhere.1 hd'
    exact Or.inr ⟨d', hd, rfl, fun h => h⟩
  | crash => cases hd'
  | _ => exact Or.inr ⟨d', hd', rfl, fun h => h⟩

theorem move_shape (h : Move C S w b W l b' W') (hW : WorkerOk C b W)
    (hall : ∀ d ∈ W.tasks, ShapeOk C d) : ∀ d ∈ W'.tasks, ShapeOk C d := by
  intro d' hd'
  cases h with
  | fetch count =>
    rcases List.mem_append.1 hd' with hd' | hd'
    · exact hall d' hd'
    · obtain ⟨e, he, rfl⟩ := List.mem_map.1 hd'
      trivial
  | fetchReply =>
    obtain ⟨d, hd, rfl⟩ := List.mem_map.1 hd'
    unfold Dispatch.spawn
    split
    · trivial
    · exact hall d hd
  | poll hd hst | processRun hd hst hp | pageSpawn _ hd hst _ =>
    rcases List.mem_or_eq_of_mem_set hd' with hd' | rfl
    · exact hall d' hd'
    · trivial
  | processDone hd hst hp =>
    rcases List.mem_append.1 hd' with hd' | hd'
    · exact hall d' (List.mem_of_mem_eraseIdx hd')
    · rw [List.mem_singleton.1 hd']
      exact reqShape_process hp
  | finish hd hst =>
    rcases List.mem_append.1 hd' with hd' | hd'
    · exact hall d' (List.mem_of_mem_eraseIdx hd')
    · rw [List.mem_singleton.1 hd']
      have hstage := (hW.tasks _ (List.mem_of_getElem? hd)).stage
      unfold StageOk at hstage
      rw [hst] at hstage
      obtain ⟨r, hr, henv⟩ := hstage
      show ReqShape C _ _
      rw [hr]
      exact reqShape_finish henv _ _ _
  | flushStart n hf =>
    rcases mem_startFlush hd' with hd | ⟨d, hd, q, hst, rfl⟩
    · exact hall d' hd
    · have hshape := hall d hd
      unfold ShapeOk at hshape
      rw [hst] at hshape
      exact Or.inr ⟨fun _ => rfl, hshape⟩
  | flushWrite hf hp =>
    obtain ⟨i, d, k, ws, refused, hd, hst, rfl⟩ := popWrite_eq_some hp
    rcases List.mem_or_eq_of_mem_set hd' with hd' | rfl
    · exact hall d' hd'
    · exact shapeOk_write (hall d (List.mem_of_getElem? hd)) hst
  | flushReplied hf _ => exact hall d' (mem_finishWhere.1 hd').1
  | flushDel hf => exact hall d' (mem_finishWhere.1 hd').1
  | flushCut hf => exact hall d' (mem_finishWhere.1 hd').1
  | pageClaim hp hc =>
    rcases List.mem_append.1 hd' with hd' | hd'
    · exact hall d' hd'
    · rw [List.mem_singleton.1 hd']
      trivial
  | pageDlq hp hd hst hlim =>
    rcases List.mem_append.1 hd' with hd' | hd'
    · exact hall d' (List.mem_of_mem_eraseIdx hd')
    · rw [List.mem_singleton.1 hd']
      exact reqShape_finishDlq _ _ _ _
  | claimFail hp => exact hall d' (mem_finishWhere.1 hd').1
  | crash => cases hd'
  | _ => exact hall d' hd'

end

/-! ### Every orderly step -/

variable (C) in
/-- Every entry has at most one holder, it is alive until its ack, and the requests have their
shape. -/
structure HoldersOk (s : QueueState Raw) : Prop where
  nodup : ∀ w, (sids (s.workers w).tasks).Nodup
  disjoint : ∀ v w, v ≠ w → ∀ i ∈ sids (s.workers v).tasks, i ∉ sids (s.workers w).tasks
  live : ∀ w, ∀ d ∈ (s.workers w).tasks,
    ((s.workers w).flush = .deleting → d.isFlushing = false) →
      ∃ e, s.broker.stream.Live e ∧ e.id = d.sid
  shape : ∀ w, ∀ d ∈ (s.workers w).tasks, ShapeOk C d

theorem mem_sids {l : List (Dispatch Raw)} {d : Dispatch Raw} (h : d ∈ l) : d.sid ∈ sids l :=
  List.mem_map_of_mem h

theorem holdersOk_init : HoldersOk C ({} : QueueState Raw) :=
  ⟨fun _ => List.nodup_nil, by simp [sids], by simp, by simp⟩

/-- The holder of an entry is unique. -/
theorem HoldersOk.unique {s : QueueState Raw} (h : HoldersOk C s) {v w : ℕ} {d d' : Dispatch Raw}
    (hd : d ∈ (s.workers v).tasks) (hd' : d' ∈ (s.workers w).tasks) (hsid : d.sid = d'.sid) :
    v = w ∧ d = d' := by
  by_cases hvw : v = w
  · subst hvw
    exact ⟨rfl, List.inj_on_of_nodup_map (h.nodup v) hd hd' hsid⟩
  · exact absurd (hsid ▸ mem_sids hd') (h.disjoint v w hvw _ (mem_sids hd))

section
variable [DecidableEq Raw] {S : ℕ → Settings} {s s' : QueueState Raw}

theorem runMover_live {b b' : Broker Raw} {cut : ℕ} {due : List (Raw × StreamId)}
    (h : runMover cut due b = some b') {e : Entry (Option Raw)} (he : b.stream.Live e) :
    b'.stream.Live e := by
  induction cut, due, b using runMover.induct with
  | case1 due b => cases h; exact he
  | case2 cut b => cases h; exact he
  | case3 m id rest b =>
    obtain ⟨st, hst, rfl⟩ := Option.map_eq_some_iff.1 h
    exact (Stream.live_xadd hst).1 e he
  | case4 cut m id rest b ih =>
    obtain ⟨st, hst, h⟩ := Option.bind_eq_some_iff.1 h
    exact ih st h ((Stream.live_xadd hst).1 e he)

theorem brokerStep_live {b b' : Broker Raw} {l : BrokerLabel Raw} (h : brokerStep b l = some b')
    {e : Entry (Option Raw)} (he : b.stream.Live e) : b'.stream.Live e := by
  cases l with
  | tick ms =>
    simp only [brokerStep] at h
    split_ifs at h <;> (cases h; exact he)
  | enqueue id raw =>
    obtain ⟨st, hst, rfl⟩ := Option.map_eq_some_iff.1 h
    exact (Stream.live_xadd hst).1 e he
  | enqueueDelayed raw score => cases h; exact he
  | move clock due cut =>
    simp only [brokerStep] at h
    split_ifs at h
    exact runMover_live h he

omit [DecidableEq Raw] in
/-- A read delivers ids above every id that was delivered before. -/
theorem not_mem_fresh_of_mem_sids {b : Broker Raw} {W : Worker Raw} (hW : WorkerOk C b W)
    (count : ℕ) : ∀ i ∈ sids W.tasks, i ∉ (b.stream.fresh count).map (·.id) := by
  intro i hi hmem
  obtain ⟨d, hd, rfl⟩ := List.mem_map.1 hi
  obtain ⟨e, he, heq⟩ := List.mem_map.1 hmem
  exact absurd (Stream.mem_fresh he).2 (not_lt.2 (heq ▸ (hW.tasks d hd).sid_le))

/-- A move repeats no id, if a claim takes one that is not held here. -/
theorem nodup_move {S : Settings} {w : ℕ} {b b' : Broker Raw} {W W' : Worker Raw} {l : WorkLabel}
    (hmove : Move C S w b W l b' W') (hW : WorkerOk C b W) (hnodup : (sids W.tasks).Nodup)
    (hclaim : ∀ p parsed todo q, W.page = .claiming ((p, parsed) :: todo) → q ∈ b.stream.pel →
      q.id = p.id → visibilityTimeoutMs S.visibilityTimeoutS ≤ b.now - q.deliveredAt →
      l = .pageClaim → p.id ∉ sids W.tasks) : (sids W'.tasks).Nodup := by
  rcases move_sids hmove with ⟨l', hperm, hsublist⟩ | ⟨count, heq⟩ |
    ⟨p, parsed, todo, q, hl, hpage, hq, hqid, hidle, heq⟩
  · exact hperm.nodup_iff.1 (hnodup.sublist hsublist)
  · rw [heq]
    refine List.nodup_append.2 ⟨hnodup, ?_, ?_⟩
    · exact (b.stream.fresh_sorted count).map _ fun _ _ hlt => hlt.ne
    · intro i hi j hj hij
      exact not_mem_fresh_of_mem_sids hW count i hi (hij ▸ hj)
  · rw [heq]
    refine List.nodup_append.2 ⟨hnodup, List.nodup_singleton _, ?_⟩
    intro i hi j hj hij
    rw [List.mem_singleton.1 hj] at hij
    exact hclaim p parsed todo q hpage hq hqid hidle hl (hij ▸ hi)

/-- The ids of worker `w` after an orderly move: without repetition, and held by nobody else. -/
theorem sids_step {w : ℕ} {l : WorkLabel} {b' : Broker Raw} {W' : Worker Raw} (hq : QueueOk C s)
    (h : HoldersOk C s) (hl : Orderly C S s (.work w l))
    (hmove : Move C (S w) w s.broker (s.workers w) l b' W') :
    (sids W'.tasks).Nodup ∧ ∀ v, v ≠ w → ∀ i ∈ sids (s.workers v).tasks, i ∉ sids W'.tasks := by
  have hfree : ∀ p parsed todo q, (s.workers w).page = .claiming ((p, parsed) :: todo) →
      q ∈ s.broker.stream.pel → q.id = p.id →
      visibilityTimeoutMs (S w).visibilityTimeoutS ≤ s.broker.now - q.deliveredAt →
      l = .pageClaim → ∀ v, p.id ∉ sids (s.workers v).tasks := by
    rintro p parsed todo q hpage hq' hqid hidle rfl v hmem
    obtain ⟨d, hd, hsid⟩ := List.mem_map.1 hmem
    exact (hl p parsed todo hpage q hq' hqid hidle).2 v d hd hsid
  refine ⟨nodup_move hmove (hq.workers w) (h.nodup w) fun p parsed todo q hpage hq' hqid hidle hl' =>
    hfree p parsed todo q hpage hq' hqid hidle hl' w, fun v hv i hi hmem => ?_⟩
  rcases move_sids hmove with ⟨l', hperm, hsublist⟩ | ⟨count, heq⟩ |
    ⟨p, parsed, todo, q, hl', hpage, hq', hqid, hidle, heq⟩
  · exact h.disjoint v w hv i hi (hsublist.subset (hperm.mem_iff.2 hmem))
  · rw [heq] at hmem
    rcases List.mem_append.1 hmem with hmem | hmem
    · exact h.disjoint v w hv i hi hmem
    · exact not_mem_fresh_of_mem_sids (hq.workers v) count i hi hmem
  · rw [heq] at hmem
    rcases List.mem_append.1 hmem with hmem | hmem
    · exact h.disjoint v w hv i hi hmem
    · rw [List.mem_singleton.1 hmem] at hi
      exact hfree p parsed todo q hpage hq' hqid hidle hl' v hi

/-- **One orderly step keeps one holder for each entry.** -/
theorem holdersOk_step {l : QueueLabel Raw} (hq : QueueOk C s) (h : HoldersOk C s)
    (hl : Orderly C S s l) (hstep : queueStep C S s l = some s') : HoldersOk C s' := by
  cases l with
  | env l =>
    obtain ⟨b', hb', rfl⟩ := Option.map_eq_some_iff.1 hstep
    refine ⟨h.nodup, h.disjoint, fun w d hd hfl => ?_, h.shape⟩
    obtain ⟨e, he, hid⟩ := h.live w d hd hfl
    exact ⟨e, brokerStep_live hb' he, hid⟩
  | work w l =>
    obtain ⟨⟨b', W'⟩, hwork, rfl⟩ := Option.map_eq_some_iff.1 hstep
    have hmove := move_of_workerStep hwork
    obtain ⟨hnodup, hdisjoint⟩ := sids_step hq h hl hmove
    refine ⟨?_, ?_, ?_, ?_⟩
    · refine (Function.forall_update_iff _ fun _ (W : Worker Raw) => (sids W.tasks).Nodup).2 ?_
      exact ⟨hnodup, fun v _ => h.nodup v⟩
    · intro u v huv i hi hmem
      by_cases hu : u = w
      · subst hu
        simp only [Function.update_self, Function.update_of_ne huv.symm] at hi hmem
        exact hdisjoint v huv.symm i hmem hi
      · simp only [Function.update_of_ne hu] at hi
        by_cases hv : v = w
        · subst hv
          simp only [Function.update_self] at hmem
          exact hdisjoint u hu i hi hmem
        · simp only [Function.update_of_ne hv] at hmem
          exact h.disjoint u v huv i hi hmem
    · refine (Function.forall_update_iff _ fun _ (W : Worker Raw) => ∀ d ∈ W.tasks,
        (W.flush = .deleting → d.isFlushing = false) → ∃ e, b'.stream.Live e ∧ e.id = d.sid).2
        ⟨fun d' hd' hfl => ?_, fun v hv d hd hfl => ?_⟩
      · rcases move_origin hmove hd' with hnew | ⟨d, hd, hsid, hphase⟩
        · exact hnew
        · obtain ⟨e, he, hid⟩ := h.live w d hd (hphase hfl)
          rcases move_live hmove (hq.workers w) he with he' | ⟨-, hdel, htasks, hmem⟩
          · exact ⟨e, he', hid.trans hsid⟩
          · -- an acked dispatch is in the batch, and no other dispatch has its id
            obtain ⟨d₂, hd₂, hfl₂, hsid₂⟩ := mem_flushIds.1 hmem
            have hd'' : d' ∈ (s.workers w).tasks := htasks ▸ hd'
            have := (h.unique hd₂ hd'' (by rw [hsid₂, hid, hsid])).2
            rw [← this, hfl₂] at hfl
            cases hfl hdel
      · obtain ⟨e, he, hid⟩ := h.live v d hd hfl
        rcases move_live hmove (hq.workers w) he with he' | ⟨-, -, -, hmem⟩
        · exact ⟨e, he', hid⟩
        · obtain ⟨d₂, hd₂, -, hsid₂⟩ := mem_flushIds.1 hmem
          exact absurd (h.unique hd hd₂ (by rw [hsid₂, hid])).1 hv
    · refine (Function.forall_update_iff _ fun _ (W : Worker Raw) => ∀ d ∈ W.tasks, ShapeOk C d).2 ?_
      exact ⟨move_shape hmove (hq.workers w) (h.shape w), fun v _ => h.shape v⟩

end

end Cauli
