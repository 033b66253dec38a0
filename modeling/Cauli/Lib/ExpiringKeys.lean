import Mathlib.Algebra.Group.Nat.Defs
import Mathlib.Logic.Function.Basic
import Mathlib.Tactic.Common

/-!
# String keys with an expiry time

The part of a key-value server that a lease or a claim is built from: `SET key value NX EX ttl`,
`GET` and `PEXPIRE`, at a given server time in milliseconds. A key is gone once the time is past
its expiry time; a time to live that is not positive, or that leaves the signed 64-bit range, is
an error (`none`).
-/

namespace ExpiringKeys

/-- A stored value and the last millisecond it is visible. -/
structure Cell (ν : Type) where
  value : ν
  expireAt : ℕ
  deriving DecidableEq

/-- The contents of the server, expired cells included. -/
abbrev Store (κ ν : Type) := κ → Option (Cell ν)

variable {κ ν : Type}

/-- The visible cell of a key. -/
def lookup (now : ℕ) (m : Store κ ν) (k : κ) : Option (Cell ν) :=
  (m k).filter fun c => decide (now ≤ c.expireAt)

/-- The expiry time of a time to live, when it is a valid one. -/
def expireTime (now ttlMs : ℕ) : Option ℕ :=
  if 0 < ttlMs ∧ now + ttlMs ≤ 2 ^ 63 - 1 then some (now + ttlMs) else none

/-- `SET k v NX EX ttl`: the store and whether the key was set. -/
def setNxEx [DecidableEq κ] (now : ℕ) (m : Store κ ν) (k : κ) (v : ν) (ttlS : ℕ) :
    Option (Store κ ν × Bool) :=
  (expireTime now (ttlS * 1000)).map fun t =>
    match lookup now m k with
    | none => (Function.update m k (some ⟨v, t⟩), true)
    | some _ => (m, false)

/-- `GET k`. -/
def get (now : ℕ) (m : Store κ ν) (k : κ) : Option ν := (lookup now m k).map (·.value)

/-- `PEXPIRE k ttl`; nothing happens to a key that is gone. -/
def pexpire [DecidableEq κ] (now : ℕ) (m : Store κ ν) (k : κ) (ttlMs : ℕ) :
    Option (Store κ ν) :=
  (expireTime now ttlMs).map fun t =>
    match lookup now m k with
    | none => m
    | some c => Function.update m k (some { c with expireAt := t })

theorem lookup_eq_some_iff {now : ℕ} {m : Store κ ν} {k : κ} {c : Cell ν} :
    lookup now m k = some c ↔ m k = some c ∧ now ≤ c.expireAt := by
  simp [lookup, Option.filter_eq_some_iff]

theorem expireTime_eq_some_iff {now ttl t : ℕ} :
    expireTime now ttl = some t ↔ 0 < ttl ∧ now + ttl ≤ 2 ^ 63 - 1 ∧ t = now + ttl := by
  unfold expireTime
  split_ifs with h
  · simp only [Option.some.injEq]
    omega
  · simp only [false_iff]
    omega

/-- A visible key stays visible under its own expiry time alone. -/
theorem lookup_of_le {now now' : ℕ} {m : Store κ ν} {k : κ} {c : Cell ν}
    (h : lookup now m k = some c) (hle : now' ≤ c.expireAt) : lookup now' m k = some c :=
  lookup_eq_some_iff.2 ⟨(lookup_eq_some_iff.1 h).1, hle⟩

end ExpiringKeys
