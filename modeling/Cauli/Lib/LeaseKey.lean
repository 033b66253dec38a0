import Mathlib.Order.Nat
import Cauli.Lib.ExpiringKeys

/-!
# A lease on one key

A key with an expiry time as a lease: it is taken by setting it if it is absent, and renewed or given
up by whoever finds its own name in it.

* `acquire`, `refresh`, `release`: the three commands, each atomic at a server time;
* `HeldUntil`: the key shows the name of a holder and will do so until a given time;
* `HeldUntil.acquire`, `HeldUntil.refresh`, `HeldUntil.release`: nobody else's command ends it.
-/

namespace LeaseKey

open ExpiringKeys

variable {κ ν : Type}

/-- The key shows `v`, and not only until before `t`. -/
def HeldUntil (now : ℕ) (m : Store κ ν) (k : κ) (v : ν) (t : ℕ) : Prop :=
  ∃ c, lookup now m k = some c ∧ c.value = v ∧ t ≤ c.expireAt

variable [DecidableEq κ]

/-- `SET k v NX PX ttl`: the store and whether the key was set. -/
def acquire (now : ℕ) (m : Store κ ν) (k : κ) (v : ν) (ttlMs : ℕ) : Option (Store κ ν × Bool) :=
  (expireTime now ttlMs).map fun t =>
    match lookup now m k with
    | none => (Function.update m k (some ⟨v, t⟩), true)
    | some _ => (m, false)

/-- A script: `PEXPIRE k ttl` if `GET k` is `v`. -/
def refresh [DecidableEq ν] (now : ℕ) (m : Store κ ν) (k : κ) (v : ν) (ttlMs : ℕ) : Option (Store κ ν × Bool) :=
  if get now m k = some v then (pexpire now m k ttlMs).map fun m' => (m', true) else some (m, false)

/-- A script: `DEL k` if `GET k` is `v`. -/
def release [DecidableEq ν] (now : ℕ) (m : Store κ ν) (k : κ) (v : ν) : Store κ ν :=
  if get now m k = some v then Function.update m k none else m

section Rules

variable {now now' t ttlMs : ℕ} {m m' : Store κ ν} {k : κ} {v v' : ν} {ok : Bool}

omit [DecidableEq κ] in
theorem HeldUntil.get (h : HeldUntil now m k v t) : get now m k = some v := by
  obtain ⟨c, hc, rfl, -⟩ := h
  simp [ExpiringKeys.get, hc]

omit [DecidableEq κ] in
/-- One name at a time. -/
theorem HeldUntil.unique (h : HeldUntil now m k v t) (h' : HeldUntil now m k v' now') : v = v' :=
  Option.some.inj (h.get.symm.trans h'.get)

omit [DecidableEq κ] in
/-- Time may pass up to the end of the lease. -/
theorem HeldUntil.wait (h : HeldUntil now m k v t) (hle : now' ≤ t) : HeldUntil now' m k v t := by
  obtain ⟨c, hc, hv, ht⟩ := h
  exact ⟨c, lookup_of_le hc (hle.trans ht), hv, ht⟩

/-- A lease that is held is not taken. -/
theorem HeldUntil.acquire (h : HeldUntil now m k v t)
    (ha : LeaseKey.acquire now m k v' ttlMs = some (m', ok)) : m' = m ∧ ok = false := by
  obtain ⟨c, hc, -, -⟩ := h
  obtain ⟨e, -, heq⟩ := Option.map_eq_some_iff.1 ha
  rw [hc] at heq
  cases heq
  exact ⟨rfl, rfl⟩

/-- A lease that was taken lasts for its time to live. -/
theorem heldUntil_of_acquire (ha : LeaseKey.acquire now m k v ttlMs = some (m', true)) :
    HeldUntil now m' k v (now + ttlMs) := by
  obtain ⟨e, he, heq⟩ := Option.map_eq_some_iff.1 ha
  obtain ⟨-, -, rfl⟩ := expireTime_eq_some_iff.1 he
  cases hc : lookup now m k with
  | none =>
    rw [hc] at heq
    cases heq
    exact ⟨⟨v, now + ttlMs⟩, lookup_eq_some_iff.2 ⟨Function.update_self .., by simp⟩, rfl, le_rfl⟩
  | some c =>
    rw [hc] at heq
    cases heq

variable [DecidableEq ν]

/-- The holder's refresh is granted, and the lease lasts for its time to live from now on. -/
theorem heldUntil_of_refresh (hr : LeaseKey.refresh now m k v ttlMs = some (m', true)) :
    HeldUntil now m' k v (now + ttlMs) := by
  rw [LeaseKey.refresh] at hr
  split_ifs at hr with hget
  · obtain ⟨m₁, hp, heq⟩ := Option.map_eq_some_iff.1 hr
    cases heq
    obtain ⟨e, he, rfl⟩ := Option.map_eq_some_iff.1 hp
    obtain ⟨-, -, rfl⟩ := expireTime_eq_some_iff.1 he
    obtain ⟨c, hc, hv⟩ := Option.map_eq_some_iff.1 hget
    refine ⟨⟨c.value, now + ttlMs⟩, lookup_eq_some_iff.2 ⟨?_, by simp⟩, hv, le_rfl⟩
    simp [hc]
  · simp at hr

theorem HeldUntil.refresh_ok (h : HeldUntil now m k v t)
    (hr : LeaseKey.refresh now m k v ttlMs = some (m', ok)) : ok = true := by
  rw [LeaseKey.refresh, if_pos h.get] at hr
  obtain ⟨m₁, -, heq⟩ := Option.map_eq_some_iff.1 hr
  cases heq
  rfl

/-- A refresh keeps a lease: another's does nothing, the holder's makes it longer. -/
theorem HeldUntil.refresh (h : HeldUntil now m k v t) (hle : v' = v → t ≤ now + ttlMs)
    (hr : LeaseKey.refresh now m k v' ttlMs = some (m', ok)) : HeldUntil now m' k v t := by
  by_cases hv : v' = v
  · subst hv
    have hok := h.refresh_ok hr
    subst hok
    obtain ⟨c, hc, hcv, ht⟩ := heldUntil_of_refresh hr
    exact ⟨c, hc, hcv, (hle rfl).trans ht⟩
  · have hget : ¬ ExpiringKeys.get now m k = some v' := by
      rw [h.get]
      exact fun heq => hv (Option.some.inj heq).symm
    rw [LeaseKey.refresh, if_neg hget] at hr
    cases hr
    exact h

/-- Nobody gives up another's lease. -/
theorem HeldUntil.release (h : HeldUntil now m k v t) (hne : v' ≠ v) :
    HeldUntil now (LeaseKey.release now m k v') k v t := by
  have hget : ¬ ExpiringKeys.get now m k = some v' := by
    rw [h.get]
    exact fun heq => hne (Option.some.inj heq).symm
  rwa [LeaseKey.release, if_neg hget]

end Rules

end LeaseKey
