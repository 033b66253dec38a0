import Mathlib.Data.Fintype.Basic
import Cauli.Client.App
import Cauli.Worker.Envelope

/-!
# Expiry on both sides

The client computes the deadline of a delayed task to refuse one that would be due past it
(`make_envelope` in `py/cauli/app.py`); the worker computes it again from the envelope and its own
map of times to live (`expiry_deadline_ms` in `worker/src/envelope.rs`, `queue_ttl_ms` in
`worker/src/ctx.rs`, the check in `process` of `worker/src/dispatch.rs`).

* `workerTtlMap`, `ctxQueueTtlMs`: the worker's map, in milliseconds, and its lookup;
* `Envelope.expiredAt`: the check at dispatch;
* `Checked`: a call that has passed every check but the last;
* `expiryDeadlineMs_eq`: the worker's deadline is the client's;
* `expiry_refused_iff`: the client refuses exactly what the worker would discard.
-/

namespace Cauli

/-- `x as u64` of a double: truncated, saturating, `0` for NaN. -/
def asU64 : F64 → ℕ
  | .finite q => min (truncate q).toNat U64.max
  | .inf neg => if neg then 0 else U64.max
  | .nan => 0

/-- The worker's copy of `queue_ttl`: the finite entries, `secs * 1000.0` as `u64`. -/
def workerTtlMap (app : App) : List (PyStr × ℕ) :=
  (app.queueTtl.filter fun e => e.2.1.isFinite).map fun e => (e.1, asU64 (e.2.1.scale 1000))

/-- `Ctx::queue_ttl_ms`: exact match, then `"*"`. -/
def ctxQueueTtlMs (ttls : List (PyStr × ℕ)) (queue : PyStr) : Option ℕ :=
  ttls.lookup queue <|> ttls.lookup QUEUE_TTL_WILDCARD

/-- The check of `process`: is the task discarded at `now`? -/
def Envelope.expiredAt (env : Envelope) (queueTtlMs : Option ℕ) (now : ℕ) : Bool :=
  (env.expiryDeadlineMs queueTtlMs).any fun deadline => deadline < now

/-- A call that has passed every check of `make_envelope` up to the last one. -/
structure Checked (app : App) (c : Call) (queueName : PyStr) (notBefore queueTtlMs given : Option ℤ) :
    Prop where
  countdownOrEta : c.countdown = none ∨ c.eta.isNone
  key : isKey c.idempotencyKey = true
  queue_eq : app.resolveQueue c = .ok queueName
  notBefore_eq : c.notBefore = .ok notBefore
  queueTtlMs_eq : app.queueTtlMs queueName = .ok queueTtlMs
  given_eq : c.givenExpiry = .ok given
  given_range : ∀ e ∈ given, 0 ≤ e ∧ e ≤ U64_MAX

section Client

variable {app : App} {c : Call} {queueName : PyStr} {notBefore queueTtlMs given : Option ℤ}

/-- **A checked call is accepted unless it would be due past its deadline.** -/
theorem App.makeEnvelope_of_checked (h : Checked app c queueName notBefore queueTtlMs given) :
    app.makeEnvelope c =
      if ∀ n ∈ notBefore, ∀ d ∈ c.deadline given queueTtlMs, n ≤ d then
        .ok (c.envelope queueName notBefore (c.expiresAt given queueTtlMs), queueName,
          notBefore.filter (c.nowMs < ·))
      else
        .error (.firesAfterExpiry (notBefore.getD 0) ((c.deadline given queueTtlMs).getD 0)) := by
  have hrequire : ∀ {p : Prop} [Decidable p] {e : CallError} (hp : p), require p e = .ok ⟨hp⟩ := by
    intro p _ e hp
    exact dif_pos hp
  have hbind : ∀ {α β : Type} (a : α) (f : α → Except CallError β), (Except.ok a >>= f) = f a := by
    intro α β a f
    rfl
  unfold App.makeEnvelope
  simp only [hrequire h.countdownOrEta, hrequire h.key, h.queue_eq, h.notBefore_eq, h.queueTtlMs_eq,
    h.given_eq, hbind, hrequire h.given_range]
  split_ifs with hdue
  · rw [hrequire hdue]
    rfl
  · rw [require, dif_neg hdue]
    rfl

theorem lookup_workerTtlMap_none {k : PyStr} (hk : app.queueTtl.lookup k = none) :
    (workerTtlMap app).lookup k = none := by
  rw [List.lookup_eq_none_iff] at hk ⊢
  intro e he
  obtain ⟨e', he', rfl⟩ := List.mem_map.1 he
  exact hk e' (List.mem_of_mem_filter he')

theorem lookup_workerTtlMap {k : PyStr} {ttl : Ttl} (hk : app.queueTtl.lookup k = some ttl)
    (hfinite : ttl.1.isFinite = true) :
    (workerTtlMap app).lookup k = some (asU64 (ttl.1.scale 1000)) := by
  obtain ⟨l, l', hl, hnot⟩ := List.lookup_eq_some_iff.1 hk
  rw [List.lookup_eq_some_iff]
  refine ⟨(l.filter fun e => e.2.1.isFinite).map fun e => (e.1, asU64 (e.2.1.scale 1000)),
    (l'.filter fun e => e.2.1.isFinite).map fun e => (e.1, asU64 (e.2.1.scale 1000)), ?_, ?_⟩
  · simp [workerTtlMap, hl, hfinite]
  · intro e he
    obtain ⟨e', he', rfl⟩ := List.mem_map.1 he
    exact hnot e' (List.mem_of_mem_filter he')

/-- The client's conversion succeeds on finite values only, and there both truncate. -/
theorem asU64_of_truncInt {ttl : Ttl} {ms : ℤ}
    (hms : ((PyNum.float ttl.1).scale 1000).truncInt = .ok ms) (hle : ms ≤ U64_MAX) :
    ttl.1.isFinite = true ∧ asU64 (ttl.1.scale 1000) = ms.toNat := by
  obtain ⟨x, hx⟩ := ttl
  cases x with
  | inf neg => cases hms
  | nan => cases hms
  | finite q =>
    refine ⟨rfl, ?_⟩
    simp only [PyNum.scale, PyNum.truncInt] at hms
    show asU64 (F64.scale 1000 (.finite q)) = _
    cases hr : F64.scale 1000 (.finite q) with
    | inf neg => rw [hr] at hms; cases hms
    | nan => rw [hr] at hms; cases hms
    | finite r =>
      rw [hr] at hms
      obtain rfl : truncate r = ms := Except.ok.inj hms
      simp only [asU64, U64.max, U64_MAX] at hle ⊢
      omega

/-- The worker's time to live of a queue is the client's, as far as it is in range. -/
theorem ctxQueueTtlMs_workerTtlMap (h : app.queueTtlMs queueName = .ok queueTtlMs)
    (hrange : ∀ ttl ∈ queueTtlMs, ttl ≤ U64_MAX) :
    ctxQueueTtlMs (workerTtlMap app) queueName = queueTtlMs.map Int.toNat := by
  unfold App.queueTtlMs at h
  unfold ctxQueueTtlMs
  cases hown : app.queueTtl.lookup queueName with
  | some ttl =>
    rw [hown] at h
    obtain ⟨ms, hms, rfl⟩ := map_eq_ok h
    obtain ⟨hfinite, hmsEq⟩ := asU64_of_truncInt (mapError_eq_ok hms) (hrange ms rfl)
    rw [lookup_workerTtlMap hown hfinite, hmsEq]
    rfl
  | none =>
    rw [lookup_workerTtlMap_none hown]
    cases hall : app.queueTtl.lookup QUEUE_TTL_WILDCARD with
    | some ttl =>
      rw [hown, hall] at h
      obtain ⟨ms, hms, rfl⟩ := map_eq_ok h
      obtain ⟨hfinite, hmsEq⟩ := asU64_of_truncInt (mapError_eq_ok hms) (hrange ms rfl)
      rw [lookup_workerTtlMap hall hfinite, hmsEq]
      rfl
    | none =>
      rw [hown, hall] at h
      cases h
      rw [lookup_workerTtlMap_none hall]
      rfl

/-- **The worker's deadline is the client's.** -/
theorem expiryDeadlineMs_eq {env : Envelope} (hnow : 0 < c.nowMs)
    (httl : ∀ ttl ∈ queueTtlMs, 0 ≤ ttl) (hgiven : ∀ e ∈ given, 0 ≤ e)
    (hrange : ∀ e ∈ c.expiresAt given queueTtlMs, e ≤ U64_MAX)
    (henqueued : env.enqueuedAt = c.nowMs.toNat)
    (hexpires : env.expiresAt = (c.expiresAt given queueTtlMs).map Int.toNat) :
    env.expiryDeadlineMs (queueTtlMs.map Int.toNat) =
      (c.deadline given queueTtlMs).map Int.toNat := by
  have hpos : 0 < env.enqueuedAt := by omega
  unfold Envelope.expiryDeadlineMs
  rw [hexpires]
  cases queueTtlMs with
  | none =>
    cases given with
    | none => rfl
    | some e => rfl
  | some ttl =>
    have httl0 := httl ttl rfl
    have hsat : U64.satAdd env.enqueuedAt ttl.toNat = min (c.nowMs + ttl).toNat U64.max := by
      rw [U64.satAdd, henqueued]
      omega
    -- the stored expiry is in the range of a u64, so that the saturation does not show
    have hmin : ∀ e, 0 ≤ e → e ≤ U64_MAX →
        min e.toNat (min (c.nowMs + ttl).toNat U64.max) = (min e (c.nowMs + ttl)).toNat := by
      intro e he hle
      simp only [U64.max, U64_MAX] at hle ⊢
      omega
    cases given with
    | none =>
      have hle := hrange (c.nowMs + ttl) rfl
      have hexpires' : c.expiresAt none (some ttl) = some (c.nowMs + ttl) := rfl
      have hdeadline : c.deadline none (some ttl) = some (min (c.nowMs + ttl) (c.nowMs + ttl)) := rfl
      rw [hexpires', hdeadline]
      simp only [Option.map_some, if_pos hpos, hsat, hmin _ (by omega) hle]
    | some e =>
      have hexpires' : c.expiresAt (some e) (some ttl) = some e := rfl
      have hdeadline : c.deadline (some e) (some ttl) = some (min e (c.nowMs + ttl)) := rfl
      rw [hexpires', hdeadline]
      simp only [Option.map_some, if_pos hpos, hsat, hmin e (hgiven e rfl) (hrange e rfl)]

theorem earlier_nonneg {a b : Option ℤ} (ha : ∀ x ∈ a, 0 ≤ x) (hb : ∀ x ∈ b, 0 ≤ x) :
    ∀ d ∈ earlier a b, 0 ≤ d := by
  cases a with
  | none => exact hb
  | some x =>
    cases b with
    | none => exact ha
    | some y =>
      rintro d hd
      obtain rfl : min x y = d := Option.some.inj hd
      exact le_min (ha x rfl) (hb y rfl)

theorem deadline_nonneg (hnow : 0 < c.nowMs) (httl : ∀ ttl ∈ queueTtlMs, 0 ≤ ttl)
    (hgiven : ∀ e ∈ given, 0 ≤ e) : ∀ d ∈ c.deadline given queueTtlMs, 0 ≤ d := by
  have hbyTtl : ∀ x ∈ queueTtlMs.map (c.nowMs + ·), 0 ≤ x := by
    intro x hx
    obtain ⟨ttl, httl', rfl⟩ := Option.mem_map.1 hx
    have := httl ttl httl'
    omega
  refine earlier_nonneg ?_ hbyTtl
  cases given with
  | none => exact hbyTtl
  | some e => exact hgiven

/-- A checked call is refused for its expiry exactly when it is due past its deadline. -/
theorem firesAfterExpiry_iff (h : Checked app c queueName notBefore queueTtlMs given) :
    (∃ n d, app.makeEnvelope c = .error (.firesAfterExpiry n d)) ↔
      ∃ n ∈ notBefore, ∃ d ∈ c.deadline given queueTtlMs, d < n := by
  rw [App.makeEnvelope_of_checked h]
  split_ifs with hdue
  · refine ⟨?_, ?_⟩
    · rintro ⟨n, d, hnd⟩
      cases hnd
    · rintro ⟨n, hn, d, hd, hlt⟩
      exact absurd (hdue n hn d hd) (not_le.2 hlt)
  · refine ⟨fun _ => ?_, fun _ => ⟨_, _, rfl⟩⟩
    by_contra hno
    refine hdue fun n hn d hd => ?_
    by_contra hlt
    exact hno ⟨n, hn, d, hd, not_le.1 hlt⟩

/-- **Client and worker agree on the expiry of delayed tasks.** For a call that has passed every other
check, with an enqueue time above zero and values in the range of `u64`: the client refuses it for
its expiry exactly when the worker's deadline is earlier than the due time; so an accepted one is not
expired when it is dispatched at its due time, and a refused one would be expired from then on. -/
theorem expiry_refused_iff (h : Checked app c queueName notBefore queueTtlMs given)
    (hnow : 0 < c.nowMs) (httl : ∀ ttl ∈ queueTtlMs, ttl ≤ U64_MAX)
    (hrange : ∀ e ∈ c.expiresAt given queueTtlMs, e ≤ U64_MAX) {env : Envelope}
    (henqueued : env.enqueuedAt = c.nowMs.toNat)
    (hexpires : env.expiresAt = (c.expiresAt given queueTtlMs).map Int.toNat) :
    ((∃ n d, app.makeEnvelope c = .error (.firesAfterExpiry n d)) ↔
        ∃ n ∈ notBefore, ∃ d ∈ env.expiryDeadlineMs (ctxQueueTtlMs (workerTtlMap app) queueName),
          (d : ℤ) < n) ∧
      ((∃ r, app.makeEnvelope c = .ok r) → ∀ n ∈ notBefore,
        env.expiredAt (ctxQueueTtlMs (workerTtlMap app) queueName) n.toNat = false) ∧
      ((∃ n d, app.makeEnvelope c = .error (.firesAfterExpiry n d)) → ∀ n ∈ notBefore,
        ∀ t : ℕ, n ≤ t → env.expiredAt (ctxQueueTtlMs (workerTtlMap app) queueName) t = true) := by
  have httl0 : ∀ ttl ∈ queueTtlMs, 0 ≤ ttl := by
    rintro ttl rfl
    exact App.queueTtlMs_nonneg h.queueTtlMs_eq
  have hgiven0 : ∀ e ∈ given, 0 ≤ e := fun e he => (h.given_range e he).1
  have hnonneg := deadline_nonneg hnow httl0 hgiven0
  have hworker : env.expiryDeadlineMs (ctxQueueTtlMs (workerTtlMap app) queueName) =
      (c.deadline given queueTtlMs).map Int.toNat := by
    rw [ctxQueueTtlMs_workerTtlMap h.queueTtlMs_eq httl]
    exact expiryDeadlineMs_eq hnow httl0 hgiven0 hrange henqueued hexpires
  have hfires := firesAfterExpiry_iff h
  simp only [Envelope.expiredAt, hworker]
  cases hdeadline : c.deadline given queueTtlMs with
  | none =>
    simp only [hdeadline, Option.not_mem_none, false_and, exists_false, and_false] at hfires
    simp [hfires]
  | some d =>
    have hd := hnonneg d hdeadline
    rw [hdeadline] at hfires
    refine ⟨?_, ?_, ?_⟩
    · rw [hfires]
      constructor
      · rintro ⟨n, hn, d', hd', hlt⟩
        obtain rfl : d = d' := Option.some.inj hd'
        exact ⟨n, hn, d.toNat, rfl, by omega⟩
      · rintro ⟨n, hn, d', hd', hlt⟩
        obtain rfl : d.toNat = d' := Option.some.inj hd'
        exact ⟨n, hn, d, rfl, by omega⟩
    · rintro ⟨r, hr⟩ n hn
      have hle : n ≤ d := by
        by_contra hlt
        obtain ⟨n', d', herr⟩ := hfires.2 ⟨n, hn, d, rfl, not_le.1 hlt⟩
        rw [hr] at herr
        cases herr
      simp only [Option.map_some, Option.any_some, decide_eq_false_iff_not]
      omega
    · rintro hrefused n hn t ht
      obtain ⟨n', hn', d', hd', hlt⟩ := hfires.1 hrefused
      obtain rfl : n' = n := Option.mem_unique hn' hn
      obtain rfl : d = d' := Option.some.inj hd'
      simp only [Option.map_some, Option.any_some, decide_eq_true_eq]
      omega

end Client

/-- A time to live of five minutes on every queue. -/
def fiveMinutesApp : App :=
  { defaultQueue := PyStr.ofString "default", taskRoutes := [],
    queueTtl := [(QUEUE_TTL_WILDCARD, ⟨.finite 300, by decide⟩)], maxEnvelopeBytes := 1_048_576,
    maxEnvelopeBytes_pos := defaultMaxEnvelopeBytes_pos }

/-- A call due in ten minutes. -/
def tenMinutesCall : Call :=
  { taskName := PyStr.ofString "jobs.report", countdown := some (.float (.finite 600)),
    clockMs := 1_700_000_000_000, urandom := zeroBytes }

/-- Its envelope. -/
def tenMinutesEnvelope : Envelope :=
  { id := "", task := "", enqueuedAt := 1_700_000_000_000, expiresAt := some 1_700_000_300_000 }

theorem checked_tenMinutesCall : Checked fiveMinutesApp tenMinutesCall (PyStr.ofString "default")
    (some 1_700_000_600_000) (some 300_000) none := by
  refine ⟨Or.inr rfl, rfl, rfl, ?_, ?_, rfl, nofun⟩
  · have hscale : F64.scale 1000 (.finite 600) = .finite ((600 * 1000 : ℤ) : ℚ) :=
      F64.scale_intCast (n := 600) (by decide)
    have hms : secondsToMs (.float (.finite 600)) = .ok 600_000 := by
      rw [secondsToMs, PyNum.scale, hscale, PyNum.roundInt, F64.toInt, roundEven_intCast]
      rfl
    show (floatSecondsToMs (.float (.finite 600))).map _ = _
    rw [floatSecondsToMs]
    show ((secondsToMs (.float (.finite 600))).mapError _).map _ = _
    rw [hms]
    rfl
  · have hscale : F64.scale 1000 (.finite 300) = .finite ((300 * 1000 : ℤ) : ℚ) :=
      F64.scale_intCast (n := 300) (by decide)
    show ((((PyNum.float (.finite 300)).scale 1000).truncInt.mapError CallError.conversion).map some) = _
    rw [PyNum.scale, hscale, PyNum.truncInt, F64.toInt]
    have htruncate : truncate ((300 * 1000 : ℤ) : ℚ) = 300_000 := by
      rw [truncate, if_neg (by norm_num), Int.floor_intCast]
      rfl
    rw [htruncate]
    rfl

/-- **Ten minutes' delay with five minutes to live** is refused, and would have been discarded at any
time from its due time on. -/
theorem expiry_refused_ten_minutes :
    (∃ n d, fiveMinutesApp.makeEnvelope tenMinutesCall = .error (.firesAfterExpiry n d)) ∧
      ∀ t : ℕ, 1_700_000_600_000 ≤ t →
        tenMinutesEnvelope.expiredAt
          (ctxQueueTtlMs (workerTtlMap fiveMinutesApp) (PyStr.ofString "default")) t = true := by
  have hrefused : ∃ n d, fiveMinutesApp.makeEnvelope tenMinutesCall =
      .error (.firesAfterExpiry n d) := by
    rw [firesAfterExpiry_iff checked_tenMinutesCall]
    exact ⟨1_700_000_600_000, rfl, 1_700_000_300_000, rfl, by decide⟩
  have henqueued : tenMinutesEnvelope.enqueuedAt = tenMinutesCall.nowMs.toNat := rfl
  refine ⟨hrefused, fun t ht => ?_⟩
  refine (expiry_refused_iff checked_tenMinutesCall (by decide) ?_ ?_ henqueued rfl).2.2 hrefused _
    rfl t (by omega)
  · rintro ttl ⟨⟩
    decide
  · rintro e ⟨⟩
    decide

end Cauli
