import Cauli.Queue.Holders

/-!
# How often a task is executed

The documented bound is `(max_retries + 1) * (redelivery_limit + 1)`. The retry count travels in the
payload and the crash count in the pending list of each entry, so the bound holds as long as one copy
of a task is active at a time. `Copy C s t x n` says that `x` is an active copy of task `t` that can
still cause `n` executions: a delayed or undelivered one all deliveries of its attempts, a pending
one those left by its delivery count, and one more if a worker is about to run it. An entry whose
retry was written is not a copy any more, its retry is.

* `Ledger`: one active copy for each task, and executions so far plus those to come within the bound;
* `Ledger.shrink`, `Ledger.transfer`, `Ledger.execute`, `Ledger.enqueue`: the four things a step does
  to the copies of a task;
* `ledger_step`: an orderly step keeps the ledger;
* `executions_bounded`: the bound, over every orderly run; `nine_executions` is a run with crashes
  between ZADD and XACK that breaks it.
-/

namespace Cauli

open GroupStream Transition

variable {Raw : Type}

/-- The worker is going to run the entry, unless a gate of `process` stops it. -/
def Dispatch.isReady (d : Dispatch Raw) : Bool := match d.stage with
  | .fetched => true
  | .claimed n parsed => decide (n ≤ redeliveryLimit parsed)
  | .spawned => true
  | .polled => true
  | _ => false

/-- The retry of the entry was written and the entry is not acked. -/
def Written (s : QueueState Raw) (i : StreamId) : Prop :=
  ∃ w, ∃ d ∈ (s.workers w).tasks, d.sid = i ∧ d.isWritten = true

/-- A worker is going to run the entry. -/
def ReadyAt (s : QueueState Raw) (i : StreamId) : Prop :=
  ∃ w, ∃ d ∈ (s.workers w).tasks, d.sid = i ∧ d.isReady = true

/-- Where a copy of a task sits. -/
inductive Place (Raw : Type)
  | delayed (m : Raw)
  | entry (i : StreamId)

section
variable (C : Codec Raw)

/-- Executions a copy that was not delivered can cause. -/
def share (r : Raw) : ℕ := reserve C r + (limitOf C r + 1)

/-- The documented bound on the executions of an enqueued text. -/
def executionBound (r : Raw) : ℕ := match C.fromStr r with
  | some env => (env.maxRetries + 1) * (redeliveryLimit (some env) + 1)
  | none => redeliveryLimit none + 1

/-- The active copies of a task, with the executions they can still cause. -/
inductive Copy (s : QueueState Raw) : String → Place Raw → ℕ → Prop
  | delayed {m : Raw} {score : ℕ} (hm : (m, score) ∈ s.broker.delayed) :
    Copy s (C.task m) (.delayed m) (share C m)
  | undelivered {e : Entry (Option Raw)} {r : Raw} (he : e ∈ s.broker.stream.entries)
      (hr : e.value = some r) (hlt : s.broker.stream.lastDelivered < e.id) :
    Copy s (C.task r) (.entry e.id) (share C r)
  | pending {e : Entry (Option Raw)} {r : Raw} {q : Pending} (he : e ∈ s.broker.stream.entries)
      (hr : e.value = some r) (hq : q ∈ s.broker.stream.pel) (hid : q.id = e.id)
      (hw : ¬ Written s e.id) :
    Copy s (C.task r) (.entry e.id) (reserve C r + (limitOf C r + 1 - q.count))
  | ready {e : Entry (Option Raw)} {r : Raw} {q : Pending} (he : e ∈ s.broker.stream.entries)
      (hr : e.value = some r) (hq : q ∈ s.broker.stream.pel) (hid : q.id = e.id)
      (hready : ReadyAt s e.id) :
    Copy s (C.task r) (.entry e.id) (reserve C r + (limitOf C r + 1 - q.count) + 1)

/-- One active copy for each task; executions so far and those to come are within the bound. -/
structure Ledger (s : QueueState Raw) : Prop where
  unique : ∀ {t x y n k}, Copy C s t x n → Copy C s t y k → x = y
  known : ∀ {t x n}, Copy C s t x n → ∃ r ∈ s.broker.accepted, C.task r = t
  started : ∀ t ∈ s.broker.started, ∃ r ∈ s.broker.accepted, C.task r = t
  budget : ∀ r ∈ s.broker.accepted, ∀ {x n}, Copy C s (C.task r) x n →
    s.broker.started.count (C.task r) + n ≤ executionBound C r
  bounded : ∀ r ∈ s.broker.accepted, s.broker.started.count (C.task r) ≤ executionBound C r

end

variable {C : Codec Raw} {s s' : QueueState Raw}

theorem share_le_executionBound (r : Raw) : share C r ≤ executionBound C r := by
  unfold share reserve retriesLeft limitOf executionBound
  cases C.fromStr r with
  | none => simp
  | some env =>
    show (env.maxRetries - env.retries) * _ + _ ≤ _
    rw [← Nat.succ_mul]
    exact Nat.mul_le_mul_right _ (by omega)

/-! ### The ledger under the four kinds of steps -/

/-- Copies disappear or lose executions. -/
theorem Ledger.shrink (h : Ledger C s) (hacc : s'.broker.accepted = s.broker.accepted)
    (hst : s'.broker.started = s.broker.started)
    (hcopy : ∀ {t x n'}, Copy C s' t x n' → ∃ n, Copy C s t x n ∧ n' ≤ n) : Ledger C s' := by
  refine ⟨fun hx hy => ?_, fun hx => ?_, ?_, fun r hr x n hx => ?_, ?_⟩
  · obtain ⟨_, hx', -⟩ := hcopy hx
    obtain ⟨_, hy', -⟩ := hcopy hy
    exact h.unique hx' hy'
  · obtain ⟨_, hx', -⟩ := hcopy hx
    rw [hacc]
    exact h.known hx'
  · rw [hst, hacc]
    exact h.started
  · obtain ⟨k, hx', hle⟩ := hcopy hx
    rw [hacc] at hr
    have := h.budget r hr hx'
    rw [hst]
    omega
  · rw [hst, hacc]
    exact h.bounded

/-- The copy at `x` is replaced by one at `y`. -/
theorem Ledger.transfer (h : Ledger C s) (hacc : s'.broker.accepted = s.broker.accepted)
    (hst : s'.broker.started = s.broker.started) {x y : Place Raw}
    (hcopy : ∀ {t z n'}, Copy C s' t z n' → (z ≠ x ∧ ∃ n, Copy C s t z n ∧ n' ≤ n) ∨
      (z = y ∧ ∃ n, Copy C s t x n ∧ n' ≤ n)) : Ledger C s' := by
  refine ⟨fun hz hz' => ?_, fun hz => ?_, ?_, fun r hr z n hz => ?_, ?_⟩
  · rcases hcopy hz with ⟨hne, _, hz, -⟩ | ⟨rfl, _, hx, -⟩
    · rcases hcopy hz' with ⟨-, _, hz', -⟩ | ⟨rfl, _, hx, -⟩
      · exact h.unique hz hz'
      · exact absurd (h.unique hz hx) hne
    · rcases hcopy hz' with ⟨hne, _, hz', -⟩ | ⟨rfl, _, -, -⟩
      · exact absurd (h.unique hz' hx) hne
      · rfl
  · rw [hacc]
    rcases hcopy hz with ⟨-, _, hz, -⟩ | ⟨-, _, hz, -⟩ <;> exact h.known hz
  · rw [hst, hacc]
    exact h.started
  · rw [hacc] at hr
    rw [hst]
    rcases hcopy hz with ⟨-, k, hz, hle⟩ | ⟨-, k, hz, hle⟩
    · have := h.budget r hr hz
      omega
    · have := h.budget r hr hz
      omega
  · rw [hst, hacc]
    exact h.bounded

/-- An execution of task `t₀` starts, and its copy loses one. -/
theorem Ledger.execute (h : Ledger C s) (hacc : s'.broker.accepted = s.broker.accepted)
    {t₀ : String} (hst : s'.broker.started = t₀ :: s.broker.started) {x₀ : Place Raw} {n₀ : ℕ}
    (hx₀ : Copy C s t₀ x₀ (n₀ + 1))
    (hcopy : ∀ {t x n'}, Copy C s' t x n' →
      ∃ n, Copy C s t x n ∧ n' + (if t = t₀ then 1 else 0) ≤ n) : Ledger C s' := by
  have hcount : ∀ t, s'.broker.started.count t =
      s.broker.started.count t + (if t = t₀ then 1 else 0) := by
    intro t
    rw [hst, List.count_cons]
    by_cases ht : t = t₀
    · simp [ht]
    · simp [ht, Ne.symm ht]
  refine ⟨fun hx hy => ?_, fun hx => ?_, ?_, fun r hr x n hx => ?_, fun r hr => ?_⟩
  · obtain ⟨_, hx', -⟩ := hcopy hx
    obtain ⟨_, hy', -⟩ := hcopy hy
    exact h.unique hx' hy'
  · obtain ⟨_, hx', -⟩ := hcopy hx
    rw [hacc]
    exact h.known hx'
  · rw [hst, hacc]
    intro t ht
    rcases List.mem_cons.1 ht with rfl | ht
    · exact h.known hx₀
    · exact h.started t ht
  · obtain ⟨k, hx', hle⟩ := hcopy hx
    rw [hacc] at hr
    have := h.budget r hr hx'
    rw [hcount]
    omega
  · rw [hacc] at hr
    rw [hcount]
    split_ifs with ht
    · have := h.budget r hr (ht ▸ hx₀)
      omega
    · exact h.bounded r hr

/-- A task that was never enqueued gets its first copy. -/
theorem Ledger.enqueue (h : Ledger C s) {raw : Raw} {y : Place Raw}
    (hacc : s'.broker.accepted = raw :: s.broker.accepted)
    (hst : s'.broker.started = s.broker.started)
    (hfresh : ∀ r ∈ s.broker.accepted, C.task r ≠ C.task raw)
    (hcopy : ∀ {t z n'}, Copy C s' t z n' → (∃ n, Copy C s t z n ∧ n' ≤ n) ∨
      (t = C.task raw ∧ z = y ∧ n' = share C raw)) : Ledger C s' := by
  have hnone : ∀ {z n}, ¬ Copy C s (C.task raw) z n := by
    intro z n hz
    obtain ⟨r, hr, ht⟩ := h.known hz
    exact hfresh r hr ht
  have hzero : s.broker.started.count (C.task raw) = 0 := by
    refine List.count_eq_zero.2 fun hmem => ?_
    obtain ⟨r, hr, ht⟩ := h.started _ hmem
    exact hfresh r hr ht
  refine ⟨fun hx hy => ?_, fun hx => ?_, ?_, fun r hr x n hx => ?_, fun r hr => ?_⟩
  · rcases hcopy hx with ⟨_, hx, -⟩ | ⟨rfl, rfl, -⟩
    · rcases hcopy hy with ⟨_, hy, -⟩ | ⟨rfl, -, -⟩
      · exact h.unique hx hy
      · exact absurd hx hnone
    · rcases hcopy hy with ⟨_, hy, -⟩ | ⟨-, rfl, -⟩
      · exact absurd hy hnone
      · rfl
  · rw [hacc]
    rcases hcopy hx with ⟨_, hx, -⟩ | ⟨rfl, -, -⟩
    · obtain ⟨r, hr, ht⟩ := h.known hx
      exact ⟨r, List.mem_cons_of_mem _ hr, ht⟩
    · exact ⟨raw, List.mem_cons_self, rfl⟩
  · rw [hst, hacc]
    intro t ht
    obtain ⟨r, hr, ht⟩ := h.started t ht
    exact ⟨r, List.mem_cons_of_mem _ hr, ht⟩
  · rw [hst]
    rw [hacc] at hr
    rcases List.mem_cons.1 hr with rfl | hr
    · rcases hcopy hx with ⟨_, hx, -⟩ | ⟨-, -, rfl⟩
      · exact absurd hx hnone
      · rw [hzero, Nat.zero_add]
        exact share_le_executionBound r
    · rcases hcopy hx with ⟨k, hx, hle⟩ | ⟨ht, -, -⟩
      · have := h.budget r hr hx
        omega
      · exact absurd ht (hfresh r hr)
  · rw [hst]
    rw [hacc] at hr
    rcases List.mem_cons.1 hr with rfl | hr
    · rw [hzero]
      exact Nat.zero_le _
    · exact h.bounded r hr

/-! ### Holders under a move -/

variable {d : Dispatch Raw}

theorem isFlushing_of_isWritten (h : d.isWritten = true) : d.isFlushing = true := by
  unfold Dispatch.isWritten at h
  unfold Dispatch.isFlushing
  split at h <;> simp_all

theorem isRefused_of_isWritten (h : d.isWritten = true) : d.isRefused = false := by
  unfold Dispatch.isWritten at h
  unfold Dispatch.isRefused
  split at h <;> simp_all

theorem mem_set_of_ne {α : Type} {l : List α} {i : ℕ} {a x y : α} (hx : x ∈ l) (hi : l[i]? = some a)
    (hne : x ≠ a) : x ∈ l.set i y := by
  obtain ⟨j, hj⟩ := List.mem_iff_getElem?.1 hx
  have hji : i ≠ j := by
    rintro rfl
    rw [hi] at hj
    exact hne (Option.some.inj hj).symm
  exact List.mem_iff_getElem?.2 ⟨j, by rw [List.getElem?_set_ne hji, hj]⟩

theorem mem_eraseIdx_of_ne {α : Type} {l : List α} {i : ℕ} {a x : α} (hx : x ∈ l)
    (hi : l[i]? = some a) (hne : x ≠ a) : x ∈ l.eraseIdx i := by
  obtain ⟨j, hj⟩ := List.mem_iff_getElem?.1 hx
  refine List.mem_eraseIdx_iff_getElem?.2 ⟨j, ?_, hj⟩
  rintro rfl
  rw [hi] at hj
  exact hne (Option.some.inj hj).symm

theorem mem_startFlush_of_isFlushing {n : ℕ} {l : List (Dispatch Raw)} (hd : d ∈ l)
    (hfl : d.isFlushing = true) : d ∈ startFlush n l := by
  induction l generalizing n with
  | nil => cases hd
  | cons a l ih =>
    cases n with
    | zero => exact hd
    | succ n =>
      unfold startFlush
      rcases List.mem_cons.1 hd with rfl | hd
      · split
        · next hst => simp [Dispatch.isFlushing, hst] at hfl
        · exact List.mem_cons_self
      · split
        · exact List.mem_cons_of_mem _ (ih hd)
        · exact List.mem_cons_of_mem _ (ih hd)

section
variable [DecidableEq Raw] {S : Settings} {w : ℕ} {b b' : Broker Raw} {W W' : Worker Raw}
  {l : WorkLabel}

/-- A written retry stays in its batch until the entry is settled. -/
theorem move_written (h : Move C S w b W l b' W') (hW : WorkerOk C b W)
    (hstop : l = .crash ∨ l = .flushCut → MayStop W) (hd : d ∈ W.tasks) (hwr : d.isWritten = true) :
    d ∈ W'.tasks ∨ b.stream.Settled d.sid := by
  have hfl := isFlushing_of_isWritten hwr
  -- the dispatch a move changes is not in the batch, or has a write to come
  have hne : ∀ {i : ℕ} {d₀}, W.tasks[i]? = some d₀ → d₀.isFlushing = false → d ≠ d₀ := by
    rintro i d₀ - h₀ rfl
    rw [h₀] at hfl
    cases hfl
  have hsettled : W.flush = .deleting → b.stream.Settled d.sid := by
    intro hdel
    obtain ⟨q, refused, hst⟩ := isFlushing_iff.1 hfl
    exact settled_of_deleting (hdel ▸ hW.tasks d hd) hst
  have hcut : MayStop W → b.stream.Settled d.sid := by
    intro hmay
    by_cases hdel : W.flush = .deleting
    · exact hsettled hdel
    · have := hmay hdel d hd
      rw [hwr] at this
      cases this
  cases h with
  | fetch count => exact Or.inl (List.mem_append_left _ hd)
  | fetchReply =>
    refine Or.inl (List.mem_map.2 ⟨d, hd, ?_⟩)
    obtain ⟨q, refused, hst⟩ := isFlushing_iff.1 hfl
    simp [Dispatch.spawn, hst]
  | poll hi hst | processRun hi hst hp | pageSpawn _ hi hst _ =>
    exact Or.inl (mem_set_of_ne hd hi (hne hi (by simp [Dispatch.isFlushing, hst])))
  | processDone hi hst hp | finish hi hst | pageDlq _ hi hst _ =>
    refine Or.inl (List.mem_append_left _ (mem_eraseIdx_of_ne hd hi (hne hi ?_)))
    simp [Dispatch.isFlushing, hst]
  | flushStart n hf => exact Or.inl (mem_startFlush_of_isFlushing hd hfl)
  | flushWrite hf hp =>
    obtain ⟨i, d₀, k, ws, refused, hi, hst, rfl⟩ := popWrite_eq_some hp
    refine Or.inl (mem_set_of_ne hd hi ?_)
    rintro rfl
    simp [Dispatch.isWritten, hst] at hwr
  | flushReplied hf hall => exact Or.inl (mem_finishWhere.2 ⟨hd, isRefused_of_isWritten hwr⟩)
  | flushDel hf => exact Or.inr (hsettled hf)
  | flushCut hf => exact Or.inr (hcut (hstop (Or.inr rfl)))
  | pageClaim hp hc => exact Or.inl (List.mem_append_left _ hd)
  | claimFail hp =>
    refine Or.inl (mem_finishWhere.2 ⟨hd, ?_⟩)
    obtain ⟨q, refused, hst⟩ := isFlushing_iff.1 hfl
    simp [Dispatch.isClaimed, hst]
  | crash => exact Or.inr (hcut (hstop (Or.inl rfl)))
  | _ => exact Or.inl hd

/-- Only a read and a claim make a dispatch ready. -/
theorem move_ready (h : Move C S w b W l b' W') {d' : Dispatch Raw} (hd' : d' ∈ W'.tasks)
    (hr : d'.isReady = true) :
    (∃ d ∈ W.tasks, d.sid = d'.sid ∧ d.isReady = true) ∨
    (∃ count, l = .fetch count false ∧ d'.sid ∈ (b.stream.fresh count).map (·.id)) ∨
    (l = .pageClaim ∧ ∃ p parsed todo, W.page = .claiming ((p, parsed) :: todo) ∧ d'.sid = p.id ∧
      p.deliveryCount ≤ redeliveryLimit parsed) := by
  have hold : d' ∈ W.tasks → ∃ d ∈ W.tasks, d.sid = d'.sid ∧ d.isReady = true :=
    fun hd' => ⟨d', hd', rfl, hr⟩
  cases h with
  | fetch count =>
    rcases List.mem_append.1 hd' with hd' | hd'
    · exact Or.inl (hold hd')
    · obtain ⟨e, he, rfl⟩ := List.mem_map.1 hd'
      exact Or.inr (Or.inl ⟨count, rfl, List.mem_map_of_mem he⟩)
  | fetchReply =>
    obtain ⟨d, hd, rfl⟩ := List.mem_map.1 hd'
    refine Or.inl ⟨d, hd, ?_, ?_⟩
    · unfold Dispatch.spawn; split <;> rfl
    · revert hr
      cases hst : d.stage <;> simp [Dispatch.spawn, Dispatch.isReady, hst]
  | poll hi hst =>
    rcases List.mem_or_eq_of_mem_set hd' with hd' | rfl
    · exact Or.inl (hold hd')
    · exact Or.inl ⟨_, List.mem_of_getElem? hi, rfl, by simp [Dispatch.isReady, hst]⟩
  | pageSpawn _ hi hst hlim =>
    rcases List.mem_or_eq_of_mem_set hd' with hd' | rfl
    · exact Or.inl (hold hd')
    · exact Or.inl ⟨_, List.mem_of_getElem? hi, rfl, by simp [Dispatch.isReady, hst, hlim]⟩
  | processRun hi hst hp =>
    rcases List.mem_or_eq_of_mem_set hd' with hd' | rfl
    · exact Or.inl (hold hd')
    · cases hr
  | processDone hi hst hp | finish hi hst | pageDlq _ hi hst _ =>
    rcases List.mem_append.1 hd' with hd' | hd'
    · exact Or.inl (hold (List.mem_of_mem_eraseIdx hd'))
    · rw [List.mem_singleton.1 hd'] at hr
      cases hr
  | flushStart n hf =>
    rcases mem_startFlush hd' with hd | ⟨d, hd, q, hst, rfl⟩
    · exact Or.inl (hold hd)
    · cases hr
  | flushWrite hf hp =>
    obtain ⟨i, d, k, ws, refused, hi, hst, rfl⟩ := popWrite_eq_some hp
    rcases List.mem_or_eq_of_mem_set hd' with hd' | rfl
    · exact Or.inl (hold hd')
    · cases hr
  | flushReplied hf hall => exact Or.inl (hold (mem_finishWhere.1 hd').1)
  | flushDel hf => exact Or.inl (hold (mem_finishWhere.1 hd').1)
  | flushCut hf => exact Or.inl (hold (mem_finishWhere.1 hd').1)
  | pageClaim hp hc =>
    rcases List.mem_append.1 hd' with hd' | hd'
    · exact Or.inl (hold hd')
    · rw [List.mem_singleton.1 hd'] at hr ⊢
      obtain ⟨-, hid, -⟩ := Stream.xclaim_eq_some hc
      exact Or.inr (Or.inr ⟨rfl, _, _, _, hp, hid, by simpa [Dispatch.isReady] using hr⟩)
  | claimFail hp => exact Or.inl (hold (mem_finishWhere.1 hd').1)
  | crash => cases hd'
  | _ => exact Or.inl (hold hd')

end

/-! ### Copies under a step -/

section
variable {b' : Broker Raw} {W' : Worker Raw} {w : ℕ} {t : String} {x : Place Raw} {n' : ℕ}

/-- The state after a move of worker `w`. -/
def QueueState.moved (s : QueueState Raw) (w : ℕ) (b' : Broker Raw) (W' : Worker Raw) :
    QueueState Raw := ⟨b', Function.update s.workers w W'⟩

theorem written_moved {i : StreamId} (h : Written s i)
    (hkeep : ∀ d ∈ (s.workers w).tasks, d.isWritten = true → d ∈ W'.tasks ∨
      s.broker.stream.Settled d.sid) :
    Written (s.moved w b' W') i ∨ s.broker.stream.Settled i := by
  obtain ⟨v, d, hd, rfl, hwr⟩ := h
  by_cases hv : v = w
  · subst hv
    rcases hkeep d hd hwr with hd' | hset
    · exact Or.inl ⟨v, d, by simpa [QueueState.moved] using hd', rfl, hwr⟩
    · exact Or.inr hset
  · exact Or.inl ⟨v, d, by simpa [QueueState.moved, hv] using hd, rfl, hwr⟩

theorem readyAt_moved {i : StreamId} (h : ReadyAt (s.moved w b' W') i) :
    ReadyAt s i ∨ ∃ d' ∈ W'.tasks, d'.sid = i ∧ d'.isReady = true := by
  obtain ⟨v, d, hd, hsid, hr⟩ := h
  by_cases hv : v = w
  · subst hv
    exact Or.inr ⟨d, by simpa [QueueState.moved] using hd, hsid, hr⟩
  · exact Or.inl ⟨v, d, by simpa [QueueState.moved, hv] using hd, hsid, hr⟩

/-- A copy in the stream is undelivered, or pending and not written, or a worker is ready on it. -/
theorem copy_entry_cases {i : StreamId} {n : ℕ} (h : Copy C s t (.entry i) n) :
    ∃ e r, e ∈ s.broker.stream.entries ∧ e.id = i ∧ e.value = some r ∧ C.task r = t ∧
      (s.broker.stream.lastDelivered < i ∨ ∃ q ∈ s.broker.stream.pel, q.id = i ∧
        ((¬ Written s i ∧ n = reserve C r + (limitOf C r + 1 - q.count)) ∨ ReadyAt s i)) := by
  cases h with
  | undelivered he hval hlt => exact ⟨_, _, he, rfl, hval, rfl, Or.inl hlt⟩
  | pending he hval hq hid hnw =>
    exact ⟨_, _, he, rfl, hval, rfl, Or.inr ⟨_, hq, hid, Or.inl ⟨hnw, rfl⟩⟩⟩
  | ready he hval hq hid hready =>
    exact ⟨_, _, he, rfl, hval, rfl, Or.inr ⟨_, hq, hid, Or.inr hready⟩⟩

/-- A step that adds no entry, no pending id, no delayed member and no ready dispatch, and keeps the
written ones. -/
theorem copy_shrinks (h : Copy C s' t x n')
    (hdel : ∀ p ∈ s'.broker.delayed, p ∈ s.broker.delayed)
    (hent : ∀ e ∈ s'.broker.stream.entries, e ∈ s.broker.stream.entries)
    (hlast : s'.broker.stream.lastDelivered = s.broker.stream.lastDelivered)
    (hpel : ∀ q ∈ s'.broker.stream.pel, q ∈ s.broker.stream.pel)
    (hw : ∀ q i, q ∈ s.broker.stream.pel → q.id = i → ¬ Written s' i → ¬ Written s i)
    (hr : ∀ i, ReadyAt s' i → ReadyAt s i) : ∃ n, Copy C s t x n ∧ n' ≤ n := by
  cases h with
  | delayed hm => exact ⟨_, .delayed (hdel _ hm), le_rfl⟩
  | undelivered he hval hlt => exact ⟨_, .undelivered (hent _ he) hval (hlast ▸ hlt), le_rfl⟩
  | pending he hval hq hid hnw =>
    exact ⟨_, .pending (hent _ he) hval (hpel _ hq) hid (hw _ _ (hpel _ hq) hid hnw), le_rfl⟩
  | ready he hval hq hid hready =>
    exact ⟨_, .ready (hent _ he) hval (hpel _ hq) hid (hr _ hready), le_rfl⟩

end

theorem ledger_init : Ledger C ({} : QueueState Raw) := by
  have hnone : ∀ {t x n}, ¬ Copy C ({} : QueueState Raw) t x n := by
    intro t x n h
    cases h with
    | delayed hm => cases hm
    | undelivered he | pending he | ready he => cases he
  exact ⟨fun h => absurd h hnone, fun h => absurd h hnone, by simp, by simp, by simp⟩

/-- The entry of a dispatch that is not acked: in the stream with its payload, and pending. -/
theorem held_entry (hq : QueueOk C s) (hh : HoldersOk C s) {w : ℕ} {d : Dispatch Raw}
    (hd : d ∈ (s.workers w).tasks)
    (hphase : (s.workers w).flush = .deleting → d.isFlushing = false) :
    ∃ e q, e ∈ s.broker.stream.entries ∧ e.id = d.sid ∧ e.value = d.raw ∧
      q ∈ s.broker.stream.pel ∧ q.id = d.sid := by
  obtain ⟨e, he, hid⟩ := hh.live w d hd hphase
  have hok := (hq.workers w).tasks d hd
  rcases Stream.live_iff.1 he with ⟨hmem, hlt | ⟨q, hqmem, hqid⟩⟩
  · exact absurd hok.sid_le (not_le.2 (hid ▸ hlt))
  · exact ⟨e, q, hmem, hid, hok.raw_eq e hmem hid, hqmem, hqid.trans hid⟩

section
variable [DecidableEq Raw] {S : ℕ → Settings} {w : ℕ} {l : WorkLabel} {b' : Broker Raw}
  {W' : Worker Raw}

theorem readyAt_of_move {S : Settings} {i : StreamId}
    (hmove : Move C S w s.broker (s.workers w) l b' W') (hf : ∀ count, l ≠ .fetch count false)
    (hc : l ≠ .pageClaim) (h : ReadyAt (s.moved w b' W') i) : ReadyAt s i := by
  rcases readyAt_moved h with h | ⟨d', hd', hsid, hr⟩
  · exact h
  · rcases move_ready hmove hd' hr with ⟨d, hd, hdsid, hr⟩ | ⟨count, hl, -⟩ | ⟨hl, -⟩
    · exact ⟨w, d, hd, hdsid.trans hsid, hr⟩
    · exact absurd hl (hf count)
    · exact absurd hl hc

theorem not_written_of_move {S : Settings} {i : StreamId} {q : Pending} (hq : QueueOk C s)
    (hmove : Move C S w s.broker (s.workers w) l b' W')
    (hstop : l = .crash ∨ l = .flushCut → MayStop (s.workers w)) (hqmem : q ∈ s.broker.stream.pel)
    (hid : q.id = i) (hnw : ¬ Written (s.moved w b' W') i) : ¬ Written s i := by
  intro hwr
  have hkeep : ∀ d ∈ (s.workers w).tasks, d.isWritten = true → d ∈ W'.tasks ∨
      s.broker.stream.Settled d.sid := fun _ => move_written hmove (hq.workers w) hstop
  rcases written_moved hwr hkeep with hwr | hset
  · exact hnw hwr
  · exact hset.2 q hqmem hid

/-- A read: what it delivers was undelivered, and had all its deliveries to come. -/
theorem ledger_fetch (hq : QueueOk C s) (h : Ledger C s) {count : ℕ}
    (hmove : Move C (S w) w s.broker (s.workers w) l
      { s.broker with stream := s.broker.stream.xreadgroup w s.broker.now count } W')
    (hl : l = .fetch count false ∨ l = .fetch count true) :
    Ledger C (s.moved w
      { s.broker with stream := s.broker.stream.xreadgroup w s.broker.now count } W') := by
  refine h.shrink rfl rfl fun {t x n'} hcopy => ?_
  -- a pending record is an old one, or of an entry that was undelivered
  have hpel : ∀ {q : Pending}, q ∈ (s.broker.stream.xreadgroup w s.broker.now count).pel →
      q ∈ s.broker.stream.pel ∨ (q.count = 1 ∧ s.broker.stream.lastDelivered < q.id) := by
    intro q hq
    rcases List.mem_append.1 hq with hq | hq
    · exact Or.inl hq
    · obtain ⟨e, he, rfl⟩ := List.mem_map.1 hq
      exact Or.inr ⟨rfl, (Stream.mem_fresh he).2⟩
  cases hcopy with
  | delayed hm => exact ⟨_, .delayed hm, le_rfl⟩
  | undelivered he hval hlt =>
    refine ⟨_, .undelivered he hval (lt_of_le_of_lt ?_ hlt), le_rfl⟩
    exact s.broker.stream.lastDelivered_le_deliveredAfter count
  | pending he hval hqmem hid hnw =>
    rcases hpel hqmem with hqmem | ⟨hcount, hlt⟩
    · have hstop : l = .crash ∨ l = .flushCut → MayStop (s.workers w) := by
        rcases hl with rfl | rfl <;> simp
      exact ⟨_, .pending he hval hqmem hid (not_written_of_move hq hmove hstop hqmem hid hnw), le_rfl⟩
    · refine ⟨_, .undelivered he hval (hid ▸ hlt), ?_⟩
      unfold share
      omega
  | @ready e r q he hval hqmem hid hready =>
    rcases hpel hqmem with hqmem | ⟨hcount, hlt⟩
    · refine ⟨_, .ready he hval hqmem hid ?_, le_rfl⟩
      rcases readyAt_moved hready with hready | ⟨d', hd', hsid, hr⟩
      · exact hready
      · rcases move_ready hmove hd' hr with ⟨d, hd, hdsid, hr⟩ | ⟨count', hl', hfresh⟩ | ⟨hl', -⟩
        · exact ⟨w, d, hd, hdsid.trans hsid, hr⟩
        · -- a fresh id is above every pending one
          exfalso
          obtain ⟨f, hf, hfid⟩ := List.mem_map.1 hfresh
          have hle := s.broker.stream.pel_le q hqmem
          rw [hid, ← hsid, ← hfid] at hle
          exact absurd (Stream.mem_fresh hf).2 (not_lt.2 hle)
        · rcases hl with rfl | rfl <;> cases hl'
    · refine ⟨_, .undelivered he hval (hid ▸ hlt), ?_⟩
      unfold share
      omega

/-- A claim: the delivery count goes up, and the entry is ready if the page found it within the
redelivery limit. -/
theorem ledger_claim (hq : QueueOk C s) (hp : PagesOk C S s) (h : Ledger C s)
    (hl : Orderly C S s (.work w .pageClaim)) {p : Pend} {parsed : Option Envelope}
    {todo : List (Pend × Option Envelope)} {reclaims : List (Reclaim Raw)}
    (hpage : (s.workers w).page = .claiming ((p, parsed) :: todo)) {q₀ : Pending}
    (hq₀ : q₀ ∈ s.broker.stream.pel) (hid₀ : q₀.id = p.id)
    (hidle : visibilityTimeoutMs (S w).visibilityTimeoutS ≤ s.broker.now - q₀.deliveredAt)
    (hmove : Move C (S w) w s.broker (s.workers w) .pageClaim
      { s.broker with
        stream := s.broker.stream.redeliver w s.broker.now p.id, reclaims := reclaims } W') :
    Ledger C (s.moved w { s.broker with
        stream := s.broker.stream.redeliver w s.broker.now p.id, reclaims := reclaims } W') := by
  obtain ⟨hcount, hunheld⟩ := hl p parsed todo hpage q₀ hq₀ hid₀ hidle
  refine h.shrink rfl rfl fun {t x n'} hcopy => ?_
  have hpel : ∀ {q : Pending}, q ∈ (s.broker.stream.redeliver w s.broker.now p.id).pel →
      (q.id ≠ p.id ∧ q ∈ s.broker.stream.pel) ∨ (q.id = p.id ∧ q.count = q₀.count + 1) := by
    intro q hq
    obtain ⟨q', hq', rfl⟩ := List.mem_map.1 hq
    split_ifs with hid
    · refine Or.inr ⟨hid, ?_⟩
      rw [Stream.pending_unique hq' hq₀ (hid.trans hid₀.symm)]
    · exact Or.inl ⟨hid, hq'⟩
  cases hcopy with
  | delayed hm => exact ⟨_, .delayed hm, le_rfl⟩
  | undelivered he hval hlt => exact ⟨_, .undelivered he hval hlt, le_rfl⟩
  | pending he hval hqmem hid hnw =>
    rcases hpel hqmem with ⟨-, hqmem⟩ | ⟨hpid, hqcount⟩
    · exact ⟨_, .pending he hval hqmem hid
        (not_written_of_move hq hmove (by simp) hqmem hid hnw), le_rfl⟩
    · have hid' := (hid₀.trans hpid.symm).trans hid
      refine ⟨_, .pending he hval hq₀ hid' (not_written_of_move hq hmove (by simp) hq₀ hid' hnw), ?_⟩
      omega
  | @ready e r q he hval hqmem hid hready =>
    rcases hpel hqmem with ⟨hne, hqmem⟩ | ⟨hpid, hqcount⟩
    · refine ⟨_, .ready he hval hqmem hid ?_, le_rfl⟩
      rcases readyAt_moved hready with hready | ⟨d', hd', hsid, hr⟩
      · exact hready
      · rcases move_ready hmove hd' hr with
          ⟨d, hd, hdsid, hr⟩ | ⟨_, hl', -⟩ | ⟨-, p', parsed', todo', hpage', hdp, -⟩
        · exact ⟨w, d, hd, hdsid.trans hsid, hr⟩
        · cases hl'
        · rw [hpage] at hpage'
          cases hpage'
          exact absurd (hid.trans (hsid.symm.trans hdp)) hne
    · -- the claimed entry was held by nobody, so it is the new dispatch that is ready
      have hid' := (hid₀.trans hpid.symm).trans hid
      have hnw : ¬ Written s e.id := by
        rintro ⟨v, d, hd, hsid, -⟩
        exact hunheld v d hd (hsid.trans (hid.symm.trans hpid))
      refine ⟨_, .pending he hval hq₀ hid' hnw, ?_⟩
      have hlimit : q₀.count ≤ limitOf C r := by
        rcases readyAt_moved hready with ⟨v, d, hd, hsid, -⟩ | ⟨d', hd', hsid, hr⟩
        · exact absurd (hsid.trans (hid.symm.trans hpid)) (hunheld v d hd)
        · rcases move_ready hmove hd' hr with
            ⟨d, hd, hdsid, -⟩ | ⟨_, hl', -⟩ | ⟨-, p', parsed', todo', hpage', hdp, hle⟩
          · exact absurd (hdsid.trans (hsid.trans (hid.symm.trans hpid))) (hunheld w d hd)
          · cases hl'
          · rw [hpage] at hpage'
            cases hpage'
            have hrows := hp w
            rw [hpage] at hrows
            have hparsed : e.value.bind C.fromStr = parsed :=
              (hrows (p, parsed) List.mem_cons_self).2.1 e he (hid.symm.trans hpid)
            rw [hval, Option.bind_some] at hparsed
            rw [hcount, limitOf, hparsed]
            exact hle
      omega

/-- An execution starts: its entry was the active copy of the task, and nobody else is ready on it. -/
theorem ledger_run (hq : QueueOk C s) (hh : HoldersOk C s) (h : Ledger C s) {i now : ℕ}
    {claim : Option IdempClaim} {d : Dispatch Raw} {env : Envelope}
    (hi : (s.workers w).tasks[i]? = some d) (hst : d.stage = .polled)
    (hp : process C (S w) d.raw now claim = .execute env)
    (hh' : HoldersOk C (s.moved w { s.broker with started := env.id :: s.broker.started }
      ((s.workers w).setStage i d (.executing env)))) :
    Ledger C (s.moved w { s.broker with started := env.id :: s.broker.started }
      ((s.workers w).setStage i d (.executing env))) := by
  have hd := List.mem_of_getElem? hi
  have hmove : Move C (S w) w s.broker (s.workers w) (.process i now claim)
    { s.broker with started := env.id :: s.broker.started }
    ((s.workers w).setStage i d (.executing env)) := .processRun hi hst hp
  obtain ⟨r, hraw, henv⟩ : ∃ r, d.raw = some r ∧ C.fromStr r = some env := by
    rcases process_cases (C := C) (S := S w) d.raw now claim with
      ⟨r, env', hr, henv, -, h'⟩ | ⟨result, h'⟩ | ⟨y, reason, error, result, -, h'⟩
    · rw [h'] at hp; cases hp; exact ⟨r, hr, henv⟩
    · rw [h'] at hp; cases hp
    · rw [h'] at hp; cases hp
  have htask : C.task r = env.id := C.task_eq henv
  obtain ⟨e, q, he, heid, hval, hqmem, hqid⟩ :=
    held_entry hq hh hd (by simp [Dispatch.isFlushing, hst])
  have hready : ReadyAt s e.id := ⟨w, d, hd, heid.symm, by simp [Dispatch.isReady, hst]⟩
  have hcopy₀ := Copy.ready (C := C) he (hval.trans hraw) hqmem (hqid.trans heid.symm) hready
  rw [htask] at hcopy₀
  refine h.execute rfl rfl hcopy₀ fun {t x n'} hcopy => ?_
  have hshrink : ∃ n, Copy C s t x n ∧ n' ≤ n :=
    copy_shrinks hcopy (fun _ h => h) (fun _ h => h) rfl (fun _ h => h)
      (fun _ _ hq' hid => not_written_of_move hq hmove (by simp) hq' hid)
      fun _ => readyAt_of_move hmove (by simp) (by simp)
  by_cases ht : t = env.id
  · subst ht
    rw [if_pos rfl]
    obtain ⟨_, hcopy', -⟩ := hshrink
    have hx := h.unique hcopy' hcopy₀
    subst hx
    refine ⟨_, hcopy₀, ?_⟩
    obtain ⟨e', r', he', heid', hval', -, hcase⟩ := copy_entry_cases hcopy
    have hee : e' = e := Stream.entry_unique (s := s.broker.stream) he' he heid'
    subst hee
    have hrr : r' = r := by
      rw [hval, hraw] at hval'
      exact (Option.some.inj hval').symm
    subst hrr
    rcases hcase with hlt | ⟨q', hq', hqid', ⟨-, rfl⟩ | hr⟩
    · have hle := ((hq.workers w).tasks d hd).sid_le
      exact absurd hlt (not_lt.2 (heid ▸ hle))
    · rw [Stream.pending_unique (s := s.broker.stream) hq' hqmem (hqid'.trans (heid.trans hqid.symm))]
    · -- the only holder is executing now
      exfalso
      obtain ⟨v, d', hd', hsid, hr⟩ := hr
      have hnew : { d with stage := .executing env } ∈
          ((s.moved w { s.broker with started := env.id :: s.broker.started }
            ((s.workers w).setStage i d (.executing env))).workers w).tasks := by
        simp only [QueueState.moved, Function.update_self, Worker.setStage]
        exact List.mem_set (List.getElem?_eq_some_iff.1 hi).1 _
      rw [(hh'.unique hd' hnew (hsid.trans heid)).2] at hr
      cases hr
  · obtain ⟨n, hcopy', hle⟩ := hshrink
    exact ⟨n, hcopy', by rw [if_neg ht]; exact hle⟩

/-- The ZADD of a retry is accepted: the entry is written, its retry is the active copy. -/
theorem ledger_retry (hq : QueueOk C s) (hh : HoldersOk C s) (h : Ledger C s) {m : Raw}
    {score : ℕ} {ts : List (Dispatch Raw)} (hf : (s.workers w).flush = .writing)
    (hp : popWrite true (s.workers w).tasks = some (.zadd m score, ts)) :
    Ledger C (s.moved w { s.broker with delayed := zadd s.broker.delayed m score }
      { s.workers w with tasks := ts }) := by
  have hmove : Move C {} w s.broker (s.workers w) (.flushWrite true 0)
    { s.broker with delayed := zadd s.broker.delayed m score } { s.workers w with tasks := ts } :=
    Move.flushWrite hf hp
  obtain ⟨i, d, k, ws, refused, hi, hst, rfl⟩ := popWrite_eq_some hp
  have hd := List.mem_of_getElem? hi
  obtain ⟨rfl, rfl, rfl, r, hraw, htask, hshare⟩ := retry_of_zadd (hh.shape w d hd) hst
  obtain ⟨e, q, he, heid, hval, hqmem, hqid⟩ := held_entry hq hh hd (by rw [hf]; simp)
  -- nobody else holds the entry, and this dispatch has its write to come
  have hheld : ∀ {v d'}, d' ∈ (s.workers v).tasks → d'.sid = e.id → d' = d := fun hd' hsid =>
    (hh.unique hd' hd (hsid.trans heid)).2
  have hnw : ¬ Written s e.id := by
    rintro ⟨v, d', hd', hsid, hwr⟩
    rw [hheld hd' hsid] at hwr
    simp [Dispatch.isWritten, hst] at hwr
  have hnr : ¬ ReadyAt s e.id := by
    rintro ⟨v, d', hd', hsid, hr⟩
    rw [hheld hd' hsid] at hr
    simp [Dispatch.isReady, hst] at hr
  have hcopy₀ := Copy.pending (C := C) he (hval.trans hraw) hqmem (hqid.trans heid.symm) hnw
  refine h.transfer rfl rfl (x := .entry e.id) (y := .delayed m) fun {t z n'} hcopy => ?_
  cases hcopy with
  | delayed hm =>
    rcases List.mem_cons.1 hm with heq | hm
    · cases heq
      refine Or.inr ⟨rfl, _, htask ▸ hcopy₀, ?_⟩
      unfold share
      omega
    · exact Or.inl ⟨by simp, _, .delayed (mem_zrem.1 hm).1, le_rfl⟩
  | undelivered he' hval' hlt =>
    refine Or.inl ⟨fun heq => ?_, _, .undelivered he' hval' hlt, le_rfl⟩
    have hle := ((hq.workers w).tasks d hd).sid_le
    rw [← heid, ← Place.entry.inj heq] at hle
    exact absurd hlt (not_lt.2 hle)
  | pending he' hval' hq' hid' hnw' =>
    have hnw'' := not_written_of_move hq hmove (by simp) hq' hid' hnw'
    refine Or.inl ⟨fun heq => hnw' ?_, _, .pending he' hval' hq' hid' hnw'', le_rfl⟩
    refine ⟨w, { d with stage := .flushing ⟨.retry, []⟩ false }, ?_, ?_, rfl⟩
    · simp only [QueueState.moved, Function.update_self]
      exact List.mem_set (List.getElem?_eq_some_iff.1 hi).1 _
    · exact heid.symm.trans (Place.entry.inj heq).symm
  | ready he' hval' hq' hid' hr =>
    have hr' := readyAt_of_move hmove (by simp) (by simp) hr
    refine Or.inl ⟨fun heq => hnr ?_, _, .ready he' hval' hq' hid' hr', le_rfl⟩
    exact Place.entry.inj heq ▸ hr'

/-- A move that adds no entry, no pending id, no delayed member and no ready dispatch. -/
theorem ledger_quiet {S : Settings} (hq : QueueOk C s) (h : Ledger C s)
    (hmove : Move C S w s.broker (s.workers w) l b' W')
    (hstop : l = .crash ∨ l = .flushCut → MayStop (s.workers w))
    (hr : ∀ i, ReadyAt (s.moved w b' W') i → ReadyAt s i)
    (hacc : b'.accepted = s.broker.accepted) (hst : b'.started = s.broker.started)
    (hdel : b'.delayed = s.broker.delayed)
    (hent : ∀ e ∈ b'.stream.entries, e ∈ s.broker.stream.entries)
    (hlast : b'.stream.lastDelivered = s.broker.stream.lastDelivered)
    (hpel : ∀ q ∈ b'.stream.pel, q ∈ s.broker.stream.pel) : Ledger C (s.moved w b' W') := by
  refine h.shrink hacc hst fun hcopy => copy_shrinks hcopy ?_ hent hlast hpel ?_ hr
  · intro p hp
    exact hdel ▸ hp
  · exact fun _ _ hqmem hid => not_written_of_move hq hmove hstop hqmem hid

/-- A move of a worker. -/
theorem ledger_move (hq : QueueOk C s) (hp : PagesOk C S s) (hh : HoldersOk C s) (h : Ledger C s)
    (hl : Orderly C S s (.work w l)) (hmove : Move C (S w) w s.broker (s.workers w) l b' W')
    (hh' : HoldersOk C (s.moved w b' W')) : Ledger C (s.moved w b' W') := by
  have hstop : l = .crash ∨ l = .flushCut → MayStop (s.workers w) := by
    rintro (rfl | rfl) <;> exact hl
  have hready : (∀ count, l ≠ .fetch count false) → l ≠ .pageClaim →
      ∀ i, ReadyAt (s.moved w b' W') i → ReadyAt s i :=
    fun hf hc _ => readyAt_of_move hmove hf hc
  have hquiet := ledger_quiet hq h hmove hstop
  have hmove' := hmove
  cases hmove with
  | fetch count => exact ledger_fetch hq h hmove' (Or.inl rfl)
  | fetchLost count => exact ledger_fetch hq h hmove' (Or.inr rfl)
  | processRun hi hst hproc => exact ledger_run hq hh h hi hst hproc hh'
  | @flushWrite accepted evict y ts hf hpop =>
    specialize hquiet (hready (by simp) (by simp))
    cases accepted with
    | false => exact hquiet rfl rfl rfl (fun _ he => he) rfl fun _ hqmem => hqmem
    | true =>
      cases y with
      | zadd m score => exact ledger_retry hq hh h hf hpop
      | setResult | xaddDlq => exact hquiet rfl rfl rfl (fun _ he => he) rfl fun _ hqmem => hqmem
      | expireDlq ttlS =>
        revert hquiet
        simp only [if_true, applyWrite]
        split_ifs
        · exact fun hquiet => hquiet rfl rfl rfl (fun _ he => he) rfl fun _ hqmem => hqmem
        · exact fun hquiet => hquiet rfl rfl rfl (fun _ he => he) rfl fun _ hqmem => hqmem
  | pageClaim hpage hc =>
    obtain ⟨he, hid, rfl, q, hqmem, hqid, hidle⟩ := Stream.xclaim_eq_some hc
    exact ledger_claim hq hp h hl hpage hqmem hqid hidle hmove'
  | pageClaimNone hpage hc =>
    refine hquiet (fun i hi => ?_) rfl rfl rfl ?_ ?_ ?_
    · rcases readyAt_moved hi with hi | ⟨d, hd, hsid, hr⟩
      · exact hi
      · exact ⟨w, d, hd, hsid, hr⟩
    all_goals rcases Stream.xclaim_eq_none hc with rfl | rfl
    all_goals first | rfl | exact fun _ h => h | exact fun _ h => (List.mem_filter.1 h).1
  | flushAck hf =>
    exact hquiet (hready (by simp) (by simp)) rfl rfl rfl (fun _ he => he) rfl
      fun _ hqmem => (List.mem_filter.1 hqmem).1
  | flushDel hf | trimRun ht =>
    exact hquiet (hready (by simp) (by simp)) rfl rfl rfl (fun _ he => (List.mem_filter.1 he).1) rfl
      fun _ hqmem => hqmem
  | _ =>
    exact hquiet (hready (by simp) (by simp)) rfl rfl rfl (fun _ he => he) rfl fun _ hqmem => hqmem

/-! ### Clients, the clock and the mover -/

omit [DecidableEq Raw] in
/-- An XADD of `raw`: the new entry is undelivered, every other copy was there. -/
theorem copy_xadd {t : String} {x : Place Raw} {n' : ℕ} {id : StreamId} {raw : Raw}
    {st : Stream (Option Raw)} (hadd : s.broker.stream.xadd id (some raw) = some st)
    (hstream : b'.stream = st) (h : Copy C ⟨b', s.workers⟩ t x n')
    (hdel : ∀ p ∈ b'.delayed, p ∈ s.broker.delayed) :
    ((∀ m, x = .delayed m → ∃ score, (m, score) ∈ b'.delayed) ∧ Copy C s t x n') ∨
      (t = C.task raw ∧ x = .entry id ∧ n' = share C raw) := by
  have hlt := Stream.lastId_lt_of_xadd hadd
  obtain ⟨hentries, hlast, hpel⟩ := Stream.xadd_eq_some hadd
  subst hstream
  have hent : ∀ {e : Entry (Option Raw)}, e ∈ b'.stream.entries →
      e ∈ s.broker.stream.entries ∨ e = ⟨id, some raw⟩ := by
    intro e he
    rw [hentries] at he
    simpa using he
  -- what is pending was delivered, the new entry is not
  have hold : ∀ {e : Entry (Option Raw)} {q : Pending}, e ∈ b'.stream.entries →
      q ∈ b'.stream.pel → q.id = e.id → e ∈ s.broker.stream.entries := by
    intro e q he hq hid
    rcases hent he with he | rfl
    · exact he
    · have hle := (s.broker.stream.pel_le q (hpel ▸ hq)).trans s.broker.stream.delivered_le
      rw [hid] at hle
      exact absurd hlt (not_lt.2 hle)
  cases h with
  | delayed hm =>
    refine Or.inl ⟨fun m heq => ?_, .delayed (hdel _ hm)⟩
    cases heq
    exact ⟨_, hm⟩
  | undelivered he hval hlt' =>
    rcases hent he with he | rfl
    · exact Or.inl ⟨by simp, .undelivered he hval (hlast ▸ hlt')⟩
    · cases hval
      exact Or.inr ⟨rfl, rfl, rfl⟩
  | pending he hval hq hid hnw =>
    exact Or.inl ⟨by simp, .pending (hold he hq hid) hval (hpel ▸ hq) hid hnw⟩
  | ready he hval hq hid hready =>
    exact Or.inl ⟨by simp, .ready (hold he hq hid) hval (hpel ▸ hq) hid hready⟩

/-- The mover, not cut between XADD and ZREM: each due member becomes an undelivered entry. -/
theorem ledger_runMover {ws : ℕ → Worker Raw} {b b' : Broker Raw} {cut : ℕ}
    {due : List (Raw × StreamId)} (h : Ledger C ⟨b, ws⟩)
    (hcut : cut % 2 = 0 ∨ 2 * due.length ≤ cut) (hnodup : (due.map (·.1)).Nodup)
    (hdue : ∀ p ∈ due, ∃ score, (p.1, score) ∈ b.delayed) (hrun : runMover cut due b = some b') :
    Ledger C ⟨b', ws⟩ := by
  induction cut, due, b using runMover.induct with
  | case1 due b => cases hrun; exact h
  | case2 cut b => cases hrun; exact h
  | case3 m id rest b =>
    simp only [List.length_cons] at hcut
    omega
  | case4 cut m id rest b ih =>
    obtain ⟨st, hst, hrun⟩ := Option.bind_eq_some_iff.1 hrun
    simp only [List.map_cons, List.nodup_cons, List.length_cons] at hnodup hcut
    refine ih st ?_ (by omega) hnodup.2 (fun p hp => ?_) hrun
    · obtain ⟨score, hm⟩ := hdue (m, id) List.mem_cons_self
      refine h.transfer rfl rfl (x := .delayed m) (y := .entry id) fun {t z n'} hcopy => ?_
      rcases copy_xadd (s := ⟨b, ws⟩) hst rfl hcopy fun p hp => (mem_zrem.1 hp).1 with
        ⟨hmem, hcopy⟩ | ⟨rfl, rfl, rfl⟩
      · refine Or.inl ⟨?_, n', hcopy, le_rfl⟩
        rintro rfl
        obtain ⟨score', hm'⟩ := hmem m rfl
        exact (mem_zrem.1 hm').2 rfl
      · exact Or.inr ⟨rfl, _, .delayed hm, le_rfl⟩
    · obtain ⟨score, hmem⟩ := hdue p (List.mem_cons_of_mem _ hp)
      refine ⟨score, mem_zrem.2 ⟨hmem, ?_⟩⟩
      rintro heq
      exact hnodup.1 (heq ▸ List.mem_map_of_mem hp)

/-- A step of the clients, of the clock or of the mover. -/
theorem ledger_env {l : BrokerLabel Raw} (h : Ledger C s) (hl : Orderly C S s (.env l))
    (hstep : brokerStep s.broker l = some b') : Ledger C ⟨b', s.workers⟩ := by
  cases l with
  | tick ms =>
    simp only [brokerStep] at hstep
    split_ifs at hstep
    all_goals
      cases hstep
      refine h.shrink rfl rfl fun hcopy => ?_
      exact copy_shrinks hcopy (fun _ h => h) (fun _ h => h) rfl (fun _ h => h) (fun _ _ _ _ h => h)
        fun _ h => h
  | enqueue id raw =>
    obtain ⟨st, hst, rfl⟩ := Option.map_eq_some_iff.1 hstep
    refine h.enqueue rfl rfl hl (y := .entry id) fun {t z n'} hcopy => ?_
    rcases copy_xadd hst rfl hcopy fun _ h => h with ⟨-, hcopy⟩ | hnew
    · exact Or.inl ⟨n', hcopy, le_rfl⟩
    · exact Or.inr hnew
  | enqueueDelayed raw score =>
    cases hstep
    refine h.enqueue rfl rfl hl (y := .delayed raw) fun {t z n'} hcopy => ?_
    cases hcopy with
    | delayed hm =>
      rcases List.mem_cons.1 hm with heq | hm
      · cases heq
        exact Or.inr ⟨rfl, rfl, rfl⟩
      · exact Or.inl ⟨_, .delayed (mem_zrem.1 hm).1, le_rfl⟩
    | undelivered he hval hlt => exact Or.inl ⟨_, .undelivered he hval hlt, le_rfl⟩
    | pending he hval hq hid hnw => exact Or.inl ⟨_, .pending he hval hq hid hnw, le_rfl⟩
    | ready he hval hq hid hready => exact Or.inl ⟨_, .ready he hval hq hid hready, le_rfl⟩
  | move clock due cut =>
    simp only [brokerStep] at hstep
    split_ifs at hstep with hguard
    refine ledger_runMover h hl hguard.1 (fun p hp => ?_) hstep
    have hany := hguard.2 p hp
    simp only [isDue, List.any_eq_true, Bool.and_eq_true, decide_eq_true_eq] at hany
    obtain ⟨⟨m, score⟩, hmem, rfl, -⟩ := hany
    exact ⟨score, hmem⟩

/-- **One orderly step keeps the ledger.** -/
theorem ledger_step {l : QueueLabel Raw} (hq : QueueOk C s) (hp : PagesOk C S s)
    (hh : HoldersOk C s) (h : Ledger C s) (hl : Orderly C S s l)
    (hstep : queueStep C S s l = some s') : Ledger C s' := by
  have hh' := holdersOk_step hq hh hl hstep
  cases l with
  | env l =>
    obtain ⟨b', hb', rfl⟩ := Option.map_eq_some_iff.1 hstep
    exact ledger_env h hl hb'
  | work w l =>
    obtain ⟨⟨b', W'⟩, hwork, rfl⟩ := Option.map_eq_some_iff.1 hstep
    exact ledger_move hq hp hh h hl (move_of_workerStep hwork) hh'

theorem ledger_of_reachable (h : (queueSystem C S).Reachable (Orderly C S) s) : Ledger C s := by
  suffices hall : QueueOk C s ∧ PagesOk C S s ∧ HoldersOk C s ∧ Ledger C s from hall.2.2.2
  refine h.invariant (I := fun s => QueueOk C s ∧ PagesOk C S s ∧ HoldersOk C s ∧ Ledger C s) ?_ ?_
  · rintro _ rfl
    exact ⟨queueOk_init, fun _ => trivial, holdersOk_init, ledger_init⟩
  · rintro s l s' ⟨hq, hp, hh, hledger⟩ hl hstep
    exact ⟨queueOk_step hq hstep, pagesOk_step hq hp hstep, holdersOk_step hq hh hl hstep,
      ledger_step hq hp hh hledger hl hstep⟩

/-! ### The bound -/

theorem move_started (hmove : Move C (S w) w s.broker (s.workers w) l b' W') (t : String) :
    s.broker.started.count t ≤ b'.started.count t := by
  cases hmove with
  | processRun hi hst hproc => exact List.count_le_count_cons
  | flushWrite hf hpop =>
    split_ifs
    · obtain ⟨_, _, _, _, _, heq⟩ := applyWrite_eq s.broker _ _
      rw [heq]
    · exact le_rfl
  | _ => exact le_rfl

/-- Accepted tasks and executions are never taken back. -/
theorem records_of_reach {P : QueueState Raw → QueueLabel Raw → Prop}
    (h : (queueSystem C S).Reach P s s') :
    (∀ r ∈ s.broker.accepted, r ∈ s'.broker.accepted) ∧
      ∀ t, s.broker.started.count t ≤ s'.broker.started.count t := by
  refine h.invariant (I := fun u => (∀ r ∈ s.broker.accepted, r ∈ u.broker.accepted) ∧
    ∀ t, s.broker.started.count t ≤ u.broker.started.count t) ⟨fun _ hr => hr, fun _ => le_rfl⟩ ?_
  rintro u l u' ⟨hacc, hst⟩ - hstep
  cases l with
  | env l =>
    obtain ⟨b', hb', rfl⟩ := Option.map_eq_some_iff.1 hstep
    obtain ⟨-, hst', hacc'⟩ := brokerStep_records hb'
    refine ⟨fun r hr => hacc' r (hacc r hr), fun t => ?_⟩
    show _ ≤ b'.started.count t
    rw [hst']
    exact hst t
  | work w l =>
    obtain ⟨⟨b', W'⟩, hwork, rfl⟩ := Option.map_eq_some_iff.1 hstep
    have hmove := move_of_workerStep hwork
    refine ⟨fun r hr => ?_, fun t => (hst t).trans (move_started (S := S) hmove t)⟩
    show r ∈ b'.accepted
    rw [move_accepted hmove]
    exact hacc r hr

omit [DecidableEq Raw] in
theorem count_le_of_ledger (h : Ledger C s) {r : Raw} (hr : r ∈ s.broker.accepted)
    {env : Envelope} (henv : C.fromStr r = some env) :
    s.broker.started.count env.id ≤ (env.maxRetries + 1) * (redeliveryLimit (some env) + 1) := by
  have hle := h.bounded r hr
  rw [C.task_eq henv, executionBound, henv] at hle
  exact hle

/-- **Bounded executions**, in every orderly run; at the bound no further execution starts. -/
theorem executions_bounded (hs : (queueSystem C S).Reachable (Orderly C S) s) {r : Raw}
    (hr : r ∈ s.broker.accepted) {env : Envelope} (henv : C.fromStr r = some env) :
    s.broker.started.count env.id ≤ (env.maxRetries + 1) * (redeliveryLimit (some env) + 1) ∧
    (s.broker.started.count env.id = (env.maxRetries + 1) * (redeliveryLimit (some env) + 1) →
      ∀ t, (queueSystem C S).Reach (Orderly C S) s t →
        t.broker.started.count env.id = s.broker.started.count env.id) := by
  refine ⟨count_le_of_ledger (ledger_of_reachable hs) hr henv, fun hbound t ht => ?_⟩
  obtain ⟨hacc, hst⟩ := records_of_reach ht
  have hle := count_le_of_ledger (ledger_of_reachable (hs.trans ht)) (hacc r hr) henv
  exact le_antisymm (hbound ▸ hle) (hst env.id)

end

/-! ### Runs on a task with one retry -/

/-- A task with one retry: the limit is 3, the bound 8. -/
def retriedOnce : Token := { id := "0123456789abcdef0123456789abcdef", maxRetries := 1 }

/-- The execution of worker 0 fails and its retry is accepted. -/
def retry : List (QueueLabel Token) :=
  [.work 0 (.finish 0 (.failure (.new "ValueError" "bad") true) 0 0), .work 0 (.flushStart 1),
   .work 0 (.flushWrite true 0)]

/-- The mover moves the retry copy to the stream. -/
def moveCopy (n : ℕ) : List (QueueLabel Token) :=
  [.env (.move (10 ^ 13) [({ retriedOnce with retries := 1 }, entryId n)] 2)]

/-- The worker of a label. -/
def QueueLabel.worker? {Raw : Type} : QueueLabel Raw → Option ℕ
  | .env _ => none
  | .work w _ => some w

/-- A run without a worker leaves it as it is. -/
theorem workers_of_run {l : List (QueueLabel Token)} {s t : QueueState Token} {v : ℕ}
    (hl : ∀ a ∈ l, a.worker? ≠ some v) (h : tokenSystem.run s l = some t) : t.workers v = s.workers v := by
  induction l generalizing s with
  | nil => cases h; rfl
  | cons a l ih =>
    obtain ⟨s', hs', ht⟩ := Option.bind_eq_some_iff.1 h
    rw [ih (fun a ha => hl a (List.mem_cons_of_mem _ ha)) ht]
    have ha := hl a List.mem_cons_self
    cases a with
    | env a =>
      obtain ⟨b', -, rfl⟩ := Option.map_eq_some_iff.1 hs'
      rfl
    | work w a =>
      obtain ⟨⟨b', W'⟩, -, rfl⟩ := Option.map_eq_some_iff.1 hs'
      refine Function.update_of_ne ?_ _ _
      rintro rfl
      exact ha rfl

/-- The task fails and is retried; the copy is moved to the stream and delivered. -/
def runningCopy : List (QueueLabel Token) :=
  deliver 0 ++ retry ++ [.work 0 .flushReplied, .work 0 .flushAck, .work 0 .flushDel] ++ moveCopy 2 ++ deliver 0

/-- A page is read once the copy may be reclaimed. -/
def reclaimPage : List (QueueLabel Token) := .env (.tick 307_000) :: readPage 0

/-- The claimed copy runs. -/
def runClaimed : List (QueueLabel Token) :=
  [.work 0 .pageClaimed, .work 0 (.pageDispatch 0), .work 0 (.poll 0), .work 0 (.process 0 0 none)]

/-- The orderly runs by a schedule. -/
def OrderlyRun (l : List (QueueLabel Token)) : Prop :=
  tokenSystem.Reachable (Orderly tokenCodec fun _ => {}) ((tokenSystem.run {} l).getD {})

/-- The entry runs, its retry copy runs, and after a crash the copy runs again. -/
theorem executions_bounded_crash_and_reclaim :
    ∃ s : QueueState Token, s.broker.started.count retriedOnce.id = 3 ∧
      s.broker.started.count retriedOnce.id ≤ (1 + 1) * (3 + 1) := by
  let running : List (QueueLabel Token) := [.env (.enqueue (entryId 1) retriedOnce)] ++ runningCopy
  let decided := running ++ [.work 0 .crash] ++ reclaimPage
  have henqueued : OrderlyRun [.env (.enqueue (entryId 1) retriedOnce)] :=
    System.Reachable.concat (l := []) ⟨{}, rfl, .refl⟩ nofun (by decide +kernel)
  have hrunning : OrderlyRun running :=
    henqueued.append (by simp [runningCopy, deliver, retry, moveCopy, Orderly]) (by decide +kernel)
  have hstop : MayStop (((tokenSystem.run {} running).getD {}).workers 0) := fun _ => by decide +kernel
  have hcrashed : OrderlyRun (running ++ [.work 0 .crash]) := hrunning.concat hstop (by decide +kernel)
  have hdecided : OrderlyRun decided :=
    hcrashed.append (by simp [reclaimPage, readPage, Orderly]) (by decide +kernel)
  -- only worker 0 has run, and nothing is left of what it held
  have hidle : ∀ w, (((tokenSystem.run {} decided).getD {}).workers w).tasks = [] := by
    intro w
    by_cases hw : w = 0
    · subst hw
      rfl
    · have hrun : tokenSystem.run {} decided = some ((tokenSystem.run {} decided).getD {}) := rfl
      have hlabels : ∀ a ∈ decided, a.worker? = none ∨ a.worker? = some 0 := by decide +kernel
      rw [workers_of_run (fun a ha => ?_) hrun]
      rcases hlabels a ha with hnone | hzero
      · simp [hnone]
      · simpa [hzero] using Ne.symm hw
  have hclaim : Orderly tokenCodec (fun _ => {}) ((tokenSystem.run {} decided).getD {}) (.work 0 .pageClaim) := by
    intro p parsed todo hpage q hq hid hdue
    have hrow : (((tokenSystem.run {} decided).getD {}).workers 0).page =
        .claiming [(⟨entryId 2, 307_000, 1⟩, tokenCodec.fromStr { retriedOnce with retries := 1 })] := rfl
    rw [hrow] at hpage
    cases hpage
    refine ⟨?_, fun w d hd => ?_⟩
    · revert q
      decide +kernel
    · rw [hidle w] at hd
      cases hd
  have hclaimed : OrderlyRun (decided ++ [.work 0 .pageClaim]) := hdecided.concat hclaim (by decide +kernel)
  have hlast : OrderlyRun (decided ++ [.work 0 .pageClaim] ++ runClaimed) :=
    hclaimed.append (by simp [runClaimed, Orderly]) (by decide +kernel)
  exact ⟨_, by decide +kernel, (executions_bounded (r := retriedOnce) hlast (by decide +kernel) rfl).1⟩

/-- Worker 0 crashes before it acks the entry it retried. The copy goes to the stream, and the entry is
reclaimed and runs once more. -/
def crashAndReclaim (n : ℕ) : List (QueueLabel Token) :=
  .work 0 .crash :: moveCopy n ++ [.env (.tick 307_000)] ++ readPage 0 ++ claimAndRun 0

/-- Worker 0 runs dispatch `i`. -/
def runTask (i : ℕ) : List (QueueLabel Token) :=
  [.work 0 (.poll i), .work 0 (.process i 0 none)]

/-- The first entry runs four times and leaves four copies; worker 0 reads them, runs them, crashes,
and reclaims the first of them. -/
def fourCopies : List (QueueLabel Token) :=
  .env (.enqueue (entryId 1) retriedOnce) :: deliver 0 ++ retry ++ crashAndReclaim 2 ++ retry ++
    crashAndReclaim 3 ++ retry ++ crashAndReclaim 4 ++ retry ++
    [.work 0 .flushReplied, .work 0 .flushAck, .work 0 .flushDel] ++ moveCopy 5 ++
    [.work 0 (.fetch 4 false), .work 0 .fetchReply] ++ runTask 0 ++ runTask 1 ++ runTask 2 ++ runTask 3 ++
    [.work 0 .crash, .env (.tick 307_000), .work 0 (.pageStart none 8)] ++
    List.replicate 4 (.work 0 .pagePeek) ++ [.work 0 .pageDecide] ++
    List.replicate 4 (.work 0 .pageClaim) ++
    [.work 0 .pageClaimed, .work 0 (.pageDispatch 0)] ++ runTask 0

/-- Three crashes between ZADD and XACK, and the ninth execution of a task whose bound is eight. -/
theorem nine_executions :
    ¬ ∀ s : QueueState Token, tokenSystem.Reachable System.anyStep s →
      ∀ r ∈ s.broker.accepted, ∀ env, tokenCodec.fromStr r = some env →
        s.broker.started.count env.id ≤ (env.maxRetries + 1) * (redeliveryLimit (some env) + 1) := by
  intro h
  have hs : tokenSystem.Reachable System.anyStep ((tokenSystem.run {} fourCopies).getD {}) :=
    System.reachable_getD rfl (fun _ _ _ => trivial) (by decide +kernel)
  have hcount : ((tokenSystem.run {} fourCopies).getD {}).broker.started.count retriedOnce.id = 9 := by
    decide +kernel
  have hle := h _ hs retriedOnce (by decide +kernel) _ rfl
  have hbound : ((tokenSystem.run {} fourCopies).getD {}).broker.started.count retriedOnce.id ≤ 8 := hle
  omega

end Cauli
