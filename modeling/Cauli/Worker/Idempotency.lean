import Cauli.Lib.ExpiringKeys
import Cauli.Lib.Transition
import Cauli.Worker.Exec

/-!
# The idempotency guard (`worker/src/broker.rs`)

`idempClaim` runs the claim script on the server's keys. Only one field of a key matters besides
its expiry, the id of the task that holds it; the key itself is a digest of the caller's
`idempotency_key`, and the digest is a parameter here.

* `idempClaimLua`: the script, command by command;
* `claimTtlS`: the time to live every claim asks for;
* `IdempState`, `idempSystem`: the server time and its keys under any interleaving of claims and
  the passing of time;
* `idempotency_exclusion`: from a fresh claim until the key expires, one holder;
* `claim_outlives_iff`: on which lanes the time to live covers the execution it admitted.
-/

namespace Cauli

open ExpiringKeys Transition

/-- The answer of the guard. -/
inductive IdempClaim
  | fresh
  | mineAgain
  | duplicate (claimant : String)
  deriving DecidableEq

/-- `IDEMP_CLAIM_LUA`: `{code, holder}`, the holder empty unless the key is someone else's; `none`
when a command is refused. -/
def idempClaimLua (now : ℕ) (m : ExpiringKeys.Store String String) (key taskId : String)
    (ttlS ttlMs : ℕ) :
    Option (ExpiringKeys.Store String String × ℕ × String) :=
  (setNxEx now m key taskId ttlS).bind fun
    | (m, true) => some (m, 1, "")
    | (m, false) =>
      let cur := ExpiringKeys.get now m key
      if cur = some taskId then (pexpire now m key ttlMs).map fun m => (m, 2, "")
      else some (m, 0, cur.getD "")

/-- Never plain `idemp_ttl`: at least the execution backstop, rounded up to seconds. -/
def claimTtlS (idempTtlS timeoutMs : ℕ) : ℕ :=
  max idempTtlS (U64.divCeil (U64.satAdd timeoutMs BACKSTOP_GRACE_MS) 1000)

/-- The reply of the script as an answer. -/
def decodeClaim : ℕ → String → IdempClaim
  | 1, _ => .fresh
  | 2, _ => .mineAgain
  | _, holder => .duplicate holder

/-- The server: its time and its idempotency keys. -/
structure IdempState where
  now : ℕ
  keys : ExpiringKeys.Store String String

section Guard

variable (digest : String → String)

/-- `cauli:idemp:{h}`. -/
def idempKey (key : String) : String := "cauli:idemp:" ++ digest key

/-- `idemp_claim`; `none` when the server refuses the script. -/
def idempClaim (s : IdempState) (key taskId : String) (idempTtlS timeoutMs : ℕ) :
    Option (IdempState × IdempClaim) :=
  let ttlS := claimTtlS idempTtlS timeoutMs
  (idempClaimLua s.now s.keys (idempKey digest key) taskId ttlS (U64.satMul ttlS 1000)).map
    fun r => ({ s with keys := r.1 }, decodeClaim r.2.1 r.2.2)

/-- Time passes, or a worker claims a key for a task. -/
inductive IdempLabel
  | tick (d : ℕ)
  | claim (key taskId : String) (idempTtlS timeoutMs : ℕ)

/-- Claims of any keys by any tasks, in any order, without server errors. -/
def idempSystem : System IdempState IdempLabel where
  init _ := True
  step s
    | .tick d => some { s with now := s.now + d }
    | .claim key taskId ttl timeoutMs => (idempClaim digest s key taskId ttl timeoutMs).map (·.1)

/-- The visible claim on a key. -/
def IdempState.claimOn (s : IdempState) (key : String) : Option (Cell String) :=
  lookup s.now s.keys (idempKey digest key)

variable {digest}

/-- What one call can do. The script either takes a free key, renews its own, or reads another's;
other keys are untouched. -/
theorem idempClaim_cases {s t : IdempState} {key taskId : String} {ttl timeoutMs : ℕ}
    {ans : IdempClaim} (h : idempClaim digest s key taskId ttl timeoutMs = some (t, ans)) :
    t.now = s.now ∧ (∀ k, k ≠ idempKey digest key → t.keys k = s.keys k) ∧
    ((s.claimOn digest key = none ∧ ans = .fresh ∧
        t.keys (idempKey digest key) = some ⟨taskId, s.now + 1000 * claimTtlS ttl timeoutMs⟩) ∨
      (∃ c, s.claimOn digest key = some c ∧ c.value = taskId ∧ ans = .mineAgain ∧
        t.keys (idempKey digest key) = some ⟨taskId, s.now + 1000 * claimTtlS ttl timeoutMs⟩) ∨
      (∃ c, s.claimOn digest key = some c ∧ c.value ≠ taskId ∧ ans = .duplicate c.value ∧
        t = s)) := by
  obtain ⟨⟨m, code, holder⟩, hlua, hr⟩ := Option.map_eq_some_iff.1 h
  cases hr
  obtain ⟨⟨m₁, set⟩, hset, hbody⟩ := Option.bind_eq_some_iff.1 hlua
  obtain ⟨e, he, hm₁⟩ := Option.map_eq_some_iff.1 hset
  obtain ⟨-, hle, rfl⟩ := expireTime_eq_some_iff.1 he
  cases hc : lookup s.now s.keys (idempKey digest key) with
  | none =>
    simp only [hc, Prod.mk.injEq] at hm₁
    obtain ⟨rfl, rfl⟩ := hm₁
    cases hbody
    refine ⟨rfl, fun k hk => Function.update_of_ne hk _ _, Or.inl ⟨hc, rfl, ?_⟩⟩
    simp [Nat.mul_comm]
  | some c =>
    simp only [hc, Prod.mk.injEq] at hm₁
    obtain ⟨rfl, rfl⟩ := hm₁
    simp only [ExpiringKeys.get, hc, Option.map_some, Option.some.injEq, Option.getD_some] at hbody
    split_ifs at hbody with hv
    · obtain ⟨m', hp, hm'⟩ := Option.map_eq_some_iff.1 hbody
      cases hm'
      obtain ⟨e', he', rfl⟩ := Option.map_eq_some_iff.1 hp
      obtain ⟨-, -, rfl⟩ := expireTime_eq_some_iff.1 he'
      -- the lease is in range, so the factor 1000 does not saturate
      have hsat : U64.satMul (claimTtlS ttl timeoutMs) 1000 = 1000 * claimTtlS ttl timeoutMs := by
        rw [U64.satMul, U64.max, Nat.mul_comm]
        omega
      refine ⟨rfl, fun k hk => ?_, Or.inr (Or.inl ⟨c, hc, hv, rfl, ?_⟩)⟩
      · simp only [hc]
        exact Function.update_of_ne hk _ _
      · simp [hc, hsat, hv]
    · cases hbody
      exact ⟨rfl, fun _ _ => rfl, Or.inr (Or.inr ⟨c, hc, hv, rfl, rfl⟩)⟩

/-- The holder of a key that is still visible after a step was its holder before. -/
theorem holder_step {s t : IdempState} {l : IdempLabel} {key id : String}
    (hs : (s.claimOn digest key).map (·.value) = some id)
    (hstep : (idempSystem digest).step s l = some t) (ht : (t.claimOn digest key).isSome) :
    (t.claimOn digest key).map (·.value) = some id := by
  obtain ⟨c, hc, hid⟩ := Option.map_eq_some_iff.1 hs
  obtain ⟨c', hc'⟩ := Option.isSome_iff_exists.1 ht
  have hmem := (lookup_eq_some_iff.1 hc).1
  have hmem' := (lookup_eq_some_iff.1 hc').1
  rw [hc', Option.map_some, Option.some.injEq, ← hid]
  cases l with
  | tick d =>
    cases hstep
    exact congrArg Cell.value (Option.some.inj (hmem'.symm.trans hmem))
  | claim key' taskId ttl timeoutMs =>
    obtain ⟨⟨t', ans⟩, hclaim, rfl⟩ := Option.map_eq_some_iff.1 hstep
    obtain ⟨-, hother, hcase⟩ := idempClaim_cases hclaim
    by_cases hk : idempKey digest key = idempKey digest key'
    · have hon : s.claimOn digest key' = some c := by
        rw [← hc]; simp only [IdempState.claimOn, hk]
      rcases hcase with ⟨hnone, -, -⟩ | ⟨c₁, hc₁, hv, -, hset⟩ | ⟨c₁, hc₁, -, -, rfl⟩
      · rw [hon] at hnone; cases hnone
      · rw [hon] at hc₁
        cases hc₁
        rw [hk, hset] at hmem'
        cases hmem'
        exact hv.symm
      · exact congrArg Cell.value (Option.some.inj (hmem'.symm.trans hmem))
    · have := hother _ hk
      exact congrArg Cell.value (Option.some.inj ((hmem'.symm.trans this).trans hmem))

/-- The same over a whole run during which the key stays visible. -/
theorem holder_run {s t : IdempState} {key id : String}
    (hs : (s.claimOn digest key).map (·.value) = some id)
    (hrun : (idempSystem digest).Reach (fun u _ => (u.claimOn digest key).isSome) s t)
    (ht : (t.claimOn digest key).isSome) : (t.claimOn digest key).map (·.value) = some id := by
  induction hrun with
  | refl => exact hs
  | tail _ hu hstep ih => exact holder_step (ih hu) hstep ht

/-- A claim that admits the caller makes it the holder, visible for the whole time to live. -/
theorem claimOn_of_admitted {s t : IdempState} {key id : String} {ttl timeoutMs : ℕ} {ans : IdempClaim}
    (h : idempClaim digest s key id ttl timeoutMs = some (t, ans))
    (hans : ans = .fresh ∨ ans = .mineAgain) :
    t.claimOn digest key = some ⟨id, t.now + 1000 * claimTtlS ttl timeoutMs⟩ := by
  obtain ⟨hnow, -, hcase⟩ := idempClaim_cases h
  rcases hcase with ⟨-, -, hset⟩ | ⟨_, _, _, -, hset⟩ | ⟨_, _, _, hduplicate, _⟩
  · exact lookup_eq_some_iff.2 ⟨by rw [hset, hnow], by simp⟩
  · exact lookup_eq_some_iff.2 ⟨by rw [hset, hnow], by simp⟩
  · rw [hduplicate] at hans
    rcases hans with hans | hans <;> cases hans

/-- What a claim on a key answers that has a holder. -/
theorem idempClaim_of_holder {s t : IdempState} {c : Cell String} {key id : String} {ttl timeoutMs : ℕ}
    {ans : IdempClaim} (hc : s.claimOn digest key = some c)
    (hclaim : idempClaim digest s key id ttl timeoutMs = some (t, ans)) :
    (id = c.value → ans = .mineAgain ∧
      t.claimOn digest key = some ⟨c.value, t.now + 1000 * claimTtlS ttl timeoutMs⟩) ∧
    (id ≠ c.value → ans = .duplicate c.value ∧ t.claimOn digest key = s.claimOn digest key) := by
  obtain ⟨hnow, -, hcase⟩ := idempClaim_cases hclaim
  rcases hcase with ⟨hnone, -, -⟩ | ⟨c₁, hc₁, hv, rfl, hset⟩ | ⟨c₁, hc₁, hv, rfl, rfl⟩
  · rw [hc] at hnone; cases hnone
  · rw [hc] at hc₁
    cases hc₁
    refine ⟨fun _ => ⟨rfl, ?_⟩, fun hne => absurd hv.symm hne⟩
    exact lookup_eq_some_iff.2 ⟨by rw [hset, hnow, hv], by simp⟩
  · rw [hc] at hc₁
    cases hc₁
    exact ⟨fun he => absurd he.symm hv, fun _ => ⟨rfl, rfl⟩⟩

/-- **Idempotency exclusion.** After a fresh claim, as long as the key does not expire, the claiming
task alone is admitted again, with a full time to live, and every other task is told the claimant
and changes nothing. -/
theorem idempotency_exclusion {s s₁ s₂ : IdempState} {key id : String} {ttl timeoutMs : ℕ}
    (hfresh : idempClaim digest s key id ttl timeoutMs = some (s₁, .fresh))
    (hrun : (idempSystem digest).Reach (fun u _ => (u.claimOn digest key).isSome) s₁ s₂)
    (halive : (s₂.claimOn digest key).isSome)
    {id' : String} {ttl' timeoutMs' : ℕ} {s₃ : IdempState} {ans : IdempClaim}
    (hclaim : idempClaim digest s₂ key id' ttl' timeoutMs' = some (s₃, ans)) :
    (id' = id → ans = .mineAgain ∧
      s₃.claimOn digest key = some ⟨id, s₃.now + 1000 * claimTtlS ttl' timeoutMs'⟩) ∧
    (id' ≠ id → ans = .duplicate id ∧ s₃.claimOn digest key = s₂.claimOn digest key) := by
  have hholder := holder_run (by rw [claimOn_of_admitted hfresh (.inl rfl)]; rfl) hrun halive
  obtain ⟨c, hc, rfl⟩ := Option.map_eq_some_iff.1 hholder
  exact idempClaim_of_holder hc hclaim

end Guard

/-- The digest of the key `order-42`. -/
def order42Digest : String → String := fun _ => "3bf8b157c4238eefe5ae4a66eca81c6b"

/-- A server on which task `a` has claimed `order-42` at time 1000 for three seconds. -/
def order42Claimed (now : ℕ) : IdempState :=
  ⟨now, Function.update (fun _ => none) (idempKey order42Digest "order-42") (some ⟨"a", 4000⟩)⟩

theorem idempotency_exclusion_order42 :
    idempClaim order42Digest ⟨1000, fun _ => none⟩ "order-42" "a" 1 1000 =
      some (order42Claimed 1000, .fresh) ∧
    (idempClaim order42Digest (order42Claimed 3000) "order-42" "b" 1 1000).map (·.2) =
      some (.duplicate "a") := by
  have hfresh : idempClaim order42Digest ⟨1000, fun _ => none⟩ "order-42" "a" 1 1000 =
      some (order42Claimed 1000, .fresh) := rfl
  have hrun : (idempSystem order42Digest).Reach
      (fun u _ => (u.claimOn order42Digest "order-42").isSome) (order42Claimed 1000)
      (order42Claimed 3000) := System.Reach.refl.tail (a := .tick 2000) (by decide) rfl
  obtain ⟨⟨s₃, ans⟩, hclaim⟩ := Option.isSome_iff_exists.1
    (show (idempClaim order42Digest (order42Claimed 3000) "order-42" "b" 1 1000).isSome by decide)
  refine ⟨hfresh, ?_⟩
  rw [hclaim, ((idempotency_exclusion hfresh hrun (by decide) hclaim).2 (by decide)).1]
  rfl

/-! ### Does the claim outlive the execution? -/

/-- The call admitted by a claim, the first one or a later one of the same task, has returned when the
time to live of that claim ends, and no other task gets a fresh answer before it has. -/
def ClaimOutlives (lane : Lane) (idempTtlS : ℕ) (env : Envelope) : Prop :=
  ∀ x : Execution, x.lane = lane →
    (x.run env).1 ≤ 1000 * claimTtlS idempTtlS env.timeoutMs ∧
    ∀ (digest : String → String) (key : String) (s t : IdempState) (own : IdempClaim),
      idempClaim digest s key env.id idempTtlS env.timeoutMs = some (t, own) →
      own = .fresh ∨ own = .mineAgain →
      ∀ u < (x.run env).1, ∀ (id' : String) (ttl' timeoutMs' : ℕ) (t' : IdempState) (ans : IdempClaim),
        id' ≠ env.id →
        idempClaim digest { t with now := t.now + u } key id' ttl' timeoutMs' = some (t', ans) →
        ans = .duplicate env.id

/-- When the time to live covers the longest call of a lane: the async backstop is what it was
derived from, the sync lane may take two budgets (2 s of grace, rounded up, make up for the second
one up to 2.5 s), the waits of the cpu lane have no bound. -/
def ClaimCovers (idempTtlS timeoutMs : ℕ) : Lane → Prop
  | .async => True
  | .sync => timeoutMs ≤ 2_500 ∨ 2 * timeoutMs ≤ 1000 * idempTtlS
  | .cpu => False

instance (ttl T : ℕ) : (lane : Lane) → Decidable (ClaimCovers ttl T lane)
  | .async => inferInstanceAs (Decidable True)
  | .sync => inferInstanceAs (Decidable (_ ∨ _))
  | .cpu => inferInstanceAs (Decidable False)

theorem claimTtlS_eq (idempTtlS : ℕ) {timeoutMs : ℕ} (hT : timeoutMs ≤ MAX_TIMEOUT_MS) :
    claimTtlS idempTtlS timeoutMs =
      max idempTtlS (U64.divCeil (timeoutMs + BACKSTOP_GRACE_MS) 1000) := by
  rw [claimTtlS, U64.satAdd_of_le]
  unfold MAX_TIMEOUT_MS at hT
  unfold BACKSTOP_GRACE_MS U64.max
  omega

theorem backstop_le_claimTtlS (idempTtlS : ℕ) {timeoutMs : ℕ} (hT : timeoutMs ≤ MAX_TIMEOUT_MS) :
    timeoutMs + BACKSTOP_GRACE_MS ≤ 1000 * claimTtlS idempTtlS timeoutMs := by
  have h := U64.le_mul_divCeil (timeoutMs + BACKSTOP_GRACE_MS) (b := 1000) (by decide)
  rw [claimTtlS_eq idempTtlS hT]
  exact h.trans (Nat.mul_le_mul_left _ (le_max_right _ _))

/-- The two budgets of the sync lane against the time to live, in the terms of the settings. -/
theorem two_timeouts_le_claimTtlS_iff (idempTtlS : ℕ) {timeoutMs : ℕ}
    (hT : timeoutMs ≤ MAX_TIMEOUT_MS) :
    2 * timeoutMs ≤ 1000 * claimTtlS idempTtlS timeoutMs ↔
      timeoutMs ≤ 2_500 ∨ 2 * timeoutMs ≤ 1000 * idempTtlS := by
  rw [claimTtlS_eq idempTtlS hT, U64.divCeil, BACKSTOP_GRACE_MS]
  omega

/-- While the time to live has not run out, another task is told the claimant. -/
theorem duplicate_before_expiry {digest : String → String} {s t t' : IdempState}
    {key id id' : String} {ttl timeoutMs ttl' timeoutMs' u : ℕ} {own ans : IdempClaim}
    (hclaim : idempClaim digest s key id ttl timeoutMs = some (t, own))
    (hown : own = .fresh ∨ own = .mineAgain)
    (hu : u ≤ 1000 * claimTtlS ttl timeoutMs) (hne : id' ≠ id)
    (h : idempClaim digest { t with now := t.now + u } key id' ttl' timeoutMs' = some (t', ans)) :
    ans = .duplicate id := by
  have hlater : IdempState.claimOn digest { t with now := t.now + u } key =
      some ⟨id, t.now + 1000 * claimTtlS ttl timeoutMs⟩ := by
    rw [IdempState.claimOn, lookup_of_le (claimOn_of_admitted hclaim hown) (by simpa using hu)]
  exact ((idempClaim_of_holder hlater h).2 hne).1

/-- **The claim outlives the execution exactly when its time to live covers the lane.** -/
theorem claim_outlives_iff (lane : Lane) (idempTtlS : ℕ) (env : Envelope)
    (hT : env.timeoutMs ≤ MAX_TIMEOUT_MS) :
    ClaimOutlives lane idempTtlS env ↔ ClaimCovers idempTtlS env.timeoutMs lane := by
  have outlives : ∀ n, lane.residenceMs env.timeoutMs = some n →
      n ≤ 1000 * claimTtlS idempTtlS env.timeoutMs → ClaimOutlives lane idempTtlS env := by
    intro n hn hle x hx
    have hrun : (x.run env).1 ≤ 1000 * claimTtlS idempTtlS env.timeoutMs :=
      (Execution.run_le (hx ▸ hn)).trans hle
    refine ⟨hrun, fun digest key s t own hclaim hown u hu id' ttl' T' t' ans hne h => ?_⟩
    exact duplicate_before_expiry hclaim hown (hu.le.trans hrun) hne h
  cases lane with
  | async =>
    exact ⟨fun _ => trivial, fun _ => outlives _ rfl (backstop_le_claimTtlS idempTtlS hT)⟩
  | sync =>
    rw [ClaimCovers, ← two_timeouts_le_claimTtlS_iff idempTtlS hT]
    refine ⟨fun h => ?_, fun h => outlives _ rfl h⟩
    have hn : Lane.sync.residenceMs env.timeoutMs = some (2 * env.timeoutMs) := rfl
    obtain ⟨x, hx, hrun⟩ := exists_run_eq hT hn
    rw [← hrun]
    exact (h x hx).1
  | cpu =>
    refine ⟨fun h => ?_, fun h => h.elim⟩
    -- an admission slot that comes free only after the claim has expired
    have := (h (.cpu ⟨0, (1000 * claimTtlS idempTtlS env.timeoutMs + 1, true), (0, true),
      (0, .lost)⟩) rfl).1
    simp [Execution.run, runCpuTask] at this

theorem claim_outlives_sync_default : ClaimOutlives .sync 86_400 (plainEnvelope 300_000) :=
  (claim_outlives_iff .sync 86_400 (plainEnvelope 300_000) (by decide)).2 (by decide)

/-- With `idemp_ttl = 60` a 300 s task on the sync lane claims its key for 302 s, but may return only
after 599 s. -/
theorem claim_expires_during_sync_task : ¬ ClaimOutlives .sync 60 (plainEnvelope 300_000) := by
  intro h
  have := (h (.sync true (.value 299_000 ()) .never) rfl).1
  revert this
  decide

end Cauli
