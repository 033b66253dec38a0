import Mathlib.Data.Nat.Log
import Mathlib.Data.Nat.Size
import Mathlib.Algebra.BigOperators.Group.List.Basic
import Mathlib.Tactic.NormNum
import Mathlib.Tactic.Ring
import Cauli.Lib.Saturating
import Cauli.Lib.Transition

/-!
# The latency percentiles of a lane (`worker/src/stats.rs`)

The duration of each task is counted in one of 24 buckets, by any thread; once per tick the stats line takes
the counts out, bucket by bucket, and prints two percentiles of them.

* `latBucket`, `latBucketEdges`, `percentile`: the arithmetic, in 64 bits;
* `histogram`: the counts of a list of durations;
* `step`: records, and the swaps of a drain in between;
* `latencies_reported`: every duration is in one report, and the percentiles of a report are those of its
  durations up to the bucket.

Durations are in milliseconds, and the counters of the buckets are `ℕ`.
-/

namespace Cauli.Latency

open Transition

/-- `LAT_BUCKETS`. -/
def LAT_BUCKETS : ℕ := 24

/-- `u64::leading_zeros`. -/
def leadingZeros (x : ℕ) : ℕ := 64 - x.size

/-- The value of an operation that may wrap. -/
def wrap (x : ℕ) : ℕ := x % 2 ^ 64

/-- `lat_bucket`. -/
def latBucket (ms : ℕ) : ℕ :=
  let idx := 63 - leadingZeros (max ms 1)
  min idx (LAT_BUCKETS - 1)

/-- `lat_bucket_edges`. -/
def latBucketEdges (i : ℕ) : ℕ × ℕ :=
  let lo := if i = 0 then 0 else 1 <<< i
  (lo, 1 <<< (i + 1))

/-- The loop of `percentile`, from bucket `i` on. -/
def percentileLoop (target : ℕ) : ℕ → ℕ → List ℕ → ℕ
  | _, _, [] => (latBucketEdges (LAT_BUCKETS - 1)).2
  | i, cum, c :: counts =>
    if c = 0 then percentileLoop target (i + 1) cum counts
    else if target ≤ wrap (cum + c) then
      let (lo, hi) := latBucketEdges i
      wrap (lo + wrap ((hi - lo) * (target - cum)) / c)
    else percentileLoop target (i + 1) (wrap (cum + c)) counts

/-- `percentile`. -/
def percentile (counts : List ℕ) (pct : ℕ) : ℕ :=
  let total := wrap counts.sum
  if total = 0 then 0
  else
    let target := max (U64.satAdd (U64.satMul total pct) 99 / 100) 1
    percentileLoop target 0 0 counts

/-- `LatencyHist::record`, after the conversion of the duration. -/
def record (buckets : List ℕ) (ms : ℕ) : List ℕ := buckets.modify (latBucket ms) (· + 1)

/-- A report: the percentiles, and as a record the durations that were counted in it. -/
structure Report where
  durations : List ℕ
  p50 : ℕ
  p99 : ℕ
  deriving DecidableEq

/-- A lane. `drain` is the counts that a `take_p50_p99` under way has taken. As records: what was recorded,
what of it is in the buckets, and what the drain has taken. -/
structure State where
  buckets : List ℕ := List.replicate LAT_BUCKETS 0
  drain : Option (List ℕ) := none
  recorded : List ℕ := []
  inside : List ℕ := []
  taken : List ℕ := []
  reports : List Report := []

/-- The steps. -/
inductive Label
  /-- `record`, of a duration in nanoseconds. -/
  | record (nanos : ℕ)
  /-- `take_p50_p99` begins. -/
  | begin_
  /-- It swaps its next bucket. -/
  | swap
  | report

/-- One step. -/
def step (s : State) : Label → Option State
  | .record nanos =>
    let ms := wrap (nanos / 10 ^ 6)
    some { s with
      buckets := record s.buckets ms
      recorded := s.recorded ++ [ms]
      inside := s.inside ++ [ms] }
  | .begin_ => if s.drain.isSome then none else some { s with drain := some [] }
  | .swap =>
    s.drain.bind fun counts => (s.buckets[counts.length]?).map fun c => { s with
      buckets := s.buckets.set counts.length 0
      drain := some (counts ++ [c])
      inside := s.inside.filter fun ms => latBucket ms ≠ counts.length
      taken := s.taken ++ s.inside.filter fun ms => latBucket ms = counts.length }
  | .report =>
    s.drain.bind fun counts =>
      if counts.length = LAT_BUCKETS then
        some { s with
          drain := none
          taken := []
          reports := s.reports ++ [⟨s.taken, percentile counts 50, percentile counts 99⟩] }
      else none

/-- The runs of a lane. -/
def system : System State Label where
  init s := s = {}
  step := step

/-! ### Buckets -/

section Buckets

variable {ms ms' i j : ℕ}

@[simp] theorem latBucketEdges_fst (i : ℕ) : (latBucketEdges i).1 = if i = 0 then 0 else 2 ^ i := by
  rw [latBucketEdges, Nat.one_shiftLeft]

@[simp] theorem latBucketEdges_snd (i : ℕ) : (latBucketEdges i).2 = 2 ^ (i + 1) := by
  rw [latBucketEdges, Nat.one_shiftLeft, Nat.one_shiftLeft]

theorem latBucket_eq (h : ms < 2 ^ 64) : latBucket ms = min (Nat.log 2 (max ms 1)) 23 := by
  have hpos : 0 < max ms 1 := lt_max_of_lt_right one_pos
  have hsize : (max ms 1).size ≤ 64 := Nat.size_le.2 (max_lt h (by norm_num))
  have hlog : Nat.log 2 (max ms 1) + 1 = (max ms 1).size := by
    refine le_antisymm (Nat.lt_size.2 (Nat.pow_log_le_self 2 hpos.ne')) ?_
    exact Nat.size_le.2 (Nat.lt_pow_succ_log_self one_lt_two _)
  show min (63 - (64 - (max ms 1).size)) 23 = _
  rw [← hlog] at hsize ⊢
  congr 1
  omega

theorem latBucket_lt (ms : ℕ) : latBucket ms < LAT_BUCKETS :=
  (min_le_right _ _).trans_lt (by decide)

theorem latBucket_mono (h : ms' < 2 ^ 64) (hle : ms ≤ ms') : latBucket ms ≤ latBucket ms' := by
  rw [latBucket_eq h, latBucket_eq (hle.trans_lt h)]
  exact min_le_min_right _ (Nat.log_mono_right (max_le_max_right 1 hle))

/-- Below the top edge a duration is in its bucket. -/
theorem mem_latBucketEdges (h : ms < 2 ^ LAT_BUCKETS) :
    (latBucketEdges (latBucket ms)).1 ≤ ms ∧ ms < (latBucketEdges (latBucket ms)).2 := by
  have hpos : max ms 1 ≠ 0 := (lt_max_of_lt_right one_pos).ne'
  have hlt : max ms 1 < 2 ^ 24 := max_lt h (by norm_num)
  have hlog : latBucket ms = Nat.log 2 (max ms 1) := by
    rw [latBucket_eq (h.trans (by norm_num [LAT_BUCKETS]))]
    exact min_eq_left (Nat.lt_succ_iff.1 (Nat.log_lt_of_lt_pow hpos hlt))
  have hlo := Nat.pow_log_le_self 2 hpos
  have hhi := Nat.lt_pow_succ_log_self one_lt_two (max ms 1)
  rw [latBucketEdges_fst, latBucketEdges_snd, hlog]
  refine ⟨?_, (le_max_left _ _).trans_lt hhi⟩
  split_ifs with hzero
  · exact Nat.zero_le _
  · -- the bucket is not the first, so the duration is not replaced by one
    rcases le_total ms 1 with hle | hle
    · rw [max_eq_right hle, Nat.log_one_right] at hzero
      exact absurd rfl hzero
    · rwa [max_eq_left hle] at hlo ⊢

theorem latBucketEdges_le (i : ℕ) : (latBucketEdges i).1 ≤ (latBucketEdges i).2 := by
  rw [latBucketEdges_fst, latBucketEdges_snd]
  split_ifs
  · exact Nat.zero_le _
  · exact Nat.pow_le_pow_right two_pos (Nat.le_succ i)

/-- The edges of later buckets are not below those of earlier ones. -/
theorem latBucketEdges_snd_le_fst (h : i < j) : (latBucketEdges i).2 ≤ (latBucketEdges j).1 := by
  rw [latBucketEdges_fst, latBucketEdges_snd, if_neg (Nat.ne_of_gt (Nat.zero_lt_of_lt h))]
  exact Nat.pow_le_pow_right two_pos h

end Buckets

/-! ### Percentiles -/

/-- The counts of some durations. -/
def histogram (durations : List ℕ) : List ℕ :=
  (List.range LAT_BUCKETS).map fun i => durations.countP fun ms => latBucket ms = i

/-- The interpolation inside bucket `i`, which has `c` durations, after `cum` in the buckets before it. -/
def inBucket (target i cum c : ℕ) : ℕ :=
  (latBucketEdges i).1 + ((latBucketEdges i).2 - (latBucketEdges i).1) * (target - cum) / c

section Percentiles

variable {target i j cum c : ℕ} {counts durations : List ℕ}

theorem wrap_lt (x : ℕ) : wrap x < 2 ^ 64 := Nat.mod_lt _ (Nat.two_pow_pos 64)

theorem wrap_eq {x : ℕ} (h : x < 2 ^ 64) : wrap x = x := Nat.mod_eq_of_lt h

theorem inBucket_bounds (hc : 0 < c) (hhi : target ≤ cum + c) :
    (latBucketEdges i).1 ≤ inBucket target i cum c ∧ inBucket target i cum c ≤ (latBucketEdges i).2 := by
  refine ⟨Nat.le_add_right _ _, ?_⟩
  have hwidth : ((latBucketEdges i).2 - (latBucketEdges i).1) * (target - cum) / c ≤
      (latBucketEdges i).2 - (latBucketEdges i).1 :=
    Nat.div_le_of_le_mul (by
      rw [Nat.mul_comm c]
      exact Nat.mul_le_mul_left _ (by omega))
  have := latBucketEdges_le i
  unfold inBucket
  omega

/-- The loop stops in the bucket that carries the target. -/
theorem percentileLoop_eq (hj : counts[j]? = some c) (hlast : i + j < LAT_BUCKETS)
    (hlo : cum + (counts.take j).sum < target) (hhi : target ≤ cum + (counts.take j).sum + c)
    (hsmall : cum + counts.sum < 2 ^ 40) :
    percentileLoop target i cum counts = inBucket target (i + j) (cum + (counts.take j).sum) c := by
  induction counts generalizing i j cum with
  | nil => simp at hj
  | cons d counts ih =>
    rw [List.sum_cons] at hsmall
    have hwrap : wrap (cum + d) = cum + d := wrap_eq (by omega)
    cases j with
    | zero =>
      obtain rfl : d = c := by simpa using hj
      rw [List.take_zero, List.sum_nil, Nat.add_zero] at hlo hhi ⊢
      have hne : d ≠ 0 := by omega
      have htop : (latBucketEdges i).2 ≤ 2 ^ 24 := by
        rw [latBucketEdges_snd]
        exact Nat.pow_le_pow_right two_pos hlast
      have hproduct : ((latBucketEdges i).2 - (latBucketEdges i).1) * (target - cum) < 2 ^ 64 :=
        calc ((latBucketEdges i).2 - (latBucketEdges i).1) * (target - cum)
            ≤ 2 ^ 24 * (target - cum) := Nat.mul_le_mul_right _ ((Nat.sub_le _ _).trans htop)
          _ < 2 ^ 24 * 2 ^ 40 := Nat.mul_lt_mul_of_pos_left (by omega) (by norm_num)
          _ = 2 ^ 64 := by norm_num
      have hbounds := inBucket_bounds (i := i) (Nat.pos_of_ne_zero hne) hhi
      rw [percentileLoop, if_neg hne, hwrap, if_pos hhi]
      show wrap ((latBucketEdges i).1 + wrap (((latBucketEdges i).2 - (latBucketEdges i).1) *
        (target - cum)) / d) = _
      rw [wrap_eq hproduct]
      exact wrap_eq ((hbounds.2.trans htop).trans_lt (by norm_num))
    | succ j =>
      rw [List.getElem?_cons_succ] at hj
      rw [List.take_succ_cons, List.sum_cons, ← Nat.add_assoc] at hlo hhi ⊢
      rw [percentileLoop, ← Nat.add_assoc, Nat.add_right_comm i j 1]
      have hlast' : i + 1 + j < LAT_BUCKETS := by omega
      by_cases hzero : d = 0
      · subst hzero
        rw [Nat.add_zero] at hlo hhi ⊢
        rw [if_pos rfl]
        exact ih hj hlast' hlo hhi (by omega)
      · rw [if_neg hzero, hwrap, if_neg (by omega)]
        exact ih hj hlast' hlo hhi (by omega)

theorem countP_lt_succ (durations : List ℕ) (j : ℕ) :
    durations.countP (fun ms => latBucket ms < j + 1) =
      durations.countP (fun ms => latBucket ms < j) + durations.countP fun ms => latBucket ms = j := by
  induction durations with
  | nil => rfl
  | cons ms durations ih =>
    simp only [List.countP_cons, ih, decide_eq_true_eq]
    split_ifs <;> omega

theorem length_histogram (durations : List ℕ) : (histogram durations).length = LAT_BUCKETS := by
  rw [histogram, List.length_map, List.length_range]

theorem histogram_getElem? (durations : List ℕ) (h : j < LAT_BUCKETS) :
    (histogram durations)[j]? = some (durations.countP fun ms => latBucket ms = j) := by
  rw [histogram, List.getElem?_map, List.getElem?_range h]
  rfl

/-- The first buckets together. -/
theorem sum_take_histogram (durations : List ℕ) (h : j ≤ LAT_BUCKETS) :
    ((histogram durations).take j).sum = durations.countP fun ms => latBucket ms < j := by
  induction j with
  | zero => simp
  | succ j ih =>
    rw [List.take_add_one, histogram_getElem? durations h, List.sum_append, ih (by omega), countP_lt_succ]
    simp

theorem sum_histogram (durations : List ℕ) : (histogram durations).sum = durations.length := by
  have hall := sum_take_histogram durations le_rfl
  rw [List.take_of_length_le (length_histogram durations).le] at hall
  rw [hall, List.countP_eq_length]
  exact fun ms _ => by simpa using latBucket_lt ms

/-- The rank of a percentile among `n` durations. -/
def rank (n pct : ℕ) : ℕ := max ((n * pct + 99) / 100) 1

/-- Bucket `j` carries the rank `k`. -/
structure Carries (durations : List ℕ) (k j : ℕ) : Prop where
  lt : j < LAT_BUCKETS
  below : durations.countP (fun ms => latBucket ms < j) < k
  reaches : k ≤ durations.countP (fun ms => latBucket ms < j) + durations.countP fun ms => latBucket ms = j

/-- What the interpolation gives for the rank `k`, if bucket `j` carries it. -/
def interpolated (durations : List ℕ) (k j : ℕ) : ℕ :=
  inBucket k j (durations.countP fun ms => latBucket ms < j) (durations.countP fun ms => latBucket ms = j)

theorem exists_carries {k : ℕ} (hk : 0 < k) (hn : k ≤ durations.length) : ∃ j, Carries durations k j := by
  have hall : k ≤ durations.countP fun ms => latBucket ms < LAT_BUCKETS := by
    rwa [List.countP_eq_length.2 fun ms _ => by simpa using latBucket_lt ms]
  have hex : ∃ j, k ≤ durations.countP fun ms => latBucket ms < j + 1 := ⟨23, hall⟩
  have hspec := Nat.find_spec hex
  rw [countP_lt_succ] at hspec
  have hle : Nat.find hex ≤ 23 := Nat.find_min' hex hall
  refine ⟨Nat.find hex, Nat.lt_succ_of_le hle, ?_, hspec⟩
  cases hj : Nat.find hex with
  | zero => simpa using hk
  | succ j => exact not_le.1 (Nat.find_min hex (hj ▸ Nat.lt_succ_self j))

theorem countP_bucket_mono (durations : List ℕ) {j j' : ℕ} (h : j ≤ j') :
    durations.countP (fun ms => latBucket ms < j) ≤ durations.countP fun ms => latBucket ms < j' :=
  List.countP_mono_left fun ms _ hms => by
    simp only [decide_eq_true_eq] at hms ⊢
    omega

theorem rank_le {n pct : ℕ} (hn : 0 < n) (hpct : pct ≤ 100) : rank n pct ≤ n := by
  have hle : n * pct ≤ n * 100 := Nat.mul_le_mul_left n hpct
  unfold rank
  omega

theorem percentile_eq {k pct : ℕ} (hk : k = rank durations.length pct) (hne : durations ≠ [])
    (hlen : durations.length < 2 ^ 40) (hpct : pct ≤ 100) (h : Carries durations k j) :
    percentile (histogram durations) pct = interpolated durations k j := by
  subst hk
  have hpos : 0 < durations.length := List.length_pos_iff.2 hne
  have hmul : durations.length * pct ≤ durations.length * 100 := Nat.mul_le_mul_left _ hpct
  have hmax : U64.max = 2 ^ 64 - 1 := rfl
  have htotal : wrap (histogram durations).sum = durations.length := by
    rw [sum_histogram, wrap_eq (by omega)]
  have htarget : max (U64.satAdd (U64.satMul durations.length pct) 99 / 100) 1 =
      rank durations.length pct := by
    rw [U64.satMul, min_eq_left (by omega), U64.satAdd, min_eq_left (by omega), rank]
  have hsum := sum_take_histogram durations h.lt.le
  have hloop : percentileLoop (rank durations.length pct) 0 0 (histogram durations) =
      inBucket (rank durations.length pct) (0 + j) (0 + ((histogram durations).take j).sum)
        (durations.countP fun ms => latBucket ms = j) :=
    percentileLoop_eq (histogram_getElem? durations h.lt) (by simpa using h.lt)
      (by rw [hsum, Nat.zero_add]; exact h.below) (by rw [hsum, Nat.zero_add]; exact h.reaches)
      (by rw [sum_histogram]; omega)
  rw [hsum, Nat.zero_add, Nat.zero_add] at hloop
  rw [percentile, htotal, if_neg hpos.ne', htarget, hloop, interpolated]

theorem interpolated_bounds {k : ℕ} (h : Carries durations k j) :
    (latBucketEdges j).1 ≤ interpolated durations k j ∧ interpolated durations k j ≤ (latBucketEdges j).2 :=
  inBucket_bounds (by have := h.below; have := h.reaches; omega) h.reaches

/-- **A higher percentile is not below a lower one.** -/
theorem percentile_mono {pct pct' : ℕ} (hne : durations ≠ []) (hlen : durations.length < 2 ^ 40)
    (hle : pct ≤ pct') (hpct : pct' ≤ 100) :
    percentile (histogram durations) pct ≤ percentile (histogram durations) pct' := by
  have hpos : 0 < durations.length := List.length_pos_iff.2 hne
  have hrank : rank durations.length pct ≤ rank durations.length pct' :=
    max_le_max_right 1 (Nat.div_le_div_right (Nat.add_le_add_right (Nat.mul_le_mul_left _ hle) 99))
  have hone : 0 < rank durations.length pct := lt_max_of_lt_right one_pos
  obtain ⟨j, hj⟩ := exists_carries hone (rank_le hpos (hle.trans hpct))
  obtain ⟨j', hj'⟩ := exists_carries (hone.trans_le hrank) (rank_le hpos hpct)
  rw [percentile_eq rfl hne hlen (hle.trans hpct) hj, percentile_eq rfl hne hlen hpct hj']
  rcases lt_trichotomy j j' with hlt | rfl | hgt
  · exact ((interpolated_bounds hj).2.trans (latBucketEdges_snd_le_fst hlt)).trans (interpolated_bounds hj').1
  · exact Nat.add_le_add_left (Nat.div_le_div_right (Nat.mul_le_mul_left _ (Nat.sub_le_sub_right hrank _))) _
  · -- the bucket of the higher rank would be below one that the lower rank has not reached
    have hmono := countP_bucket_mono durations (Nat.succ_le_of_lt hgt)
    rw [Nat.succ_eq_add_one, countP_lt_succ] at hmono
    have := hj.below
    have := hj'.reaches
    omega

/-- `v` is the `k`-th smallest of the durations. -/
structure IsRank (durations : List ℕ) (k v : ℕ) : Prop where
  mem : v ∈ durations
  below : durations.countP (· < v) < k
  reaches : k ≤ durations.countP (· ≤ v)

/-- The bucket of the `k`-th smallest duration carries the rank. -/
theorem IsRank.carries {k v : ℕ} (h : IsRank durations k v) (hsmall : ∀ ms ∈ durations, ms < 2 ^ 64) :
    Carries durations k (latBucket v) := by
  refine ⟨latBucket_lt v, lt_of_le_of_lt ?_ h.below, h.reaches.trans ?_⟩
  · refine List.countP_mono_left fun ms hms hlt => ?_
    simp only [decide_eq_true_eq] at hlt ⊢
    by_contra hle
    exact absurd (latBucket_mono (hsmall ms hms) (not_lt.1 hle)) (not_le.2 hlt)
  · rw [← countP_lt_succ]
    refine List.countP_mono_left fun ms hms hle => ?_
    simp only [decide_eq_true_eq] at hle ⊢
    exact Nat.lt_succ_of_le (latBucket_mono (hsmall v h.mem) hle)

/-- **The printed percentile is in the bucket of the exact one.** -/
theorem percentile_bounds {pct v : ℕ} (hlen : durations.length < 2 ^ 40) (hpct : pct ≤ 100)
    (hsmall : ∀ ms ∈ durations, ms < 2 ^ 64) (h : IsRank durations (rank durations.length pct) v) :
    (latBucketEdges (latBucket v)).1 ≤ percentile (histogram durations) pct ∧
      percentile (histogram durations) pct ≤ (latBucketEdges (latBucket v)).2 := by
  rw [percentile_eq rfl (List.ne_nil_of_mem h.mem) hlen hpct (h.carries hsmall)]
  exact interpolated_bounds (h.carries hsmall)

/-- It is within a factor of two of the exact one, below the top edge. -/
theorem near_of_bounds {p v : ℕ} (hv : v < 2 ^ LAT_BUCKETS) (hlo : (latBucketEdges (latBucket v)).1 ≤ p)
    (hhi : p ≤ (latBucketEdges (latBucket v)).2) : p ≤ 2 * max v 1 ∧ v ≤ 2 * p + 1 := by
  obtain ⟨hlo', hhi'⟩ := mem_latBucketEdges hv
  rw [latBucketEdges_fst] at hlo hlo'
  rw [latBucketEdges_snd, pow_succ] at hhi hhi'
  split_ifs at hlo hlo' with hzero
  · rw [hzero] at hhi hhi'
    omega
  · omega

end Percentiles

/-! ### Records and drains -/

/-- **What holds of a lane.** -/
structure LaneOk (s : State) : Prop where
  buckets : s.buckets = histogram s.inside
  drain : ∀ counts, s.drain = some counts → counts = (histogram s.taken).take counts.length ∧
    counts.length ≤ LAT_BUCKETS ∧ ∀ ms ∈ s.taken, latBucket ms < counts.length
  idle : s.drain = none → s.taken = []
  recorded : (s.reports.flatMap Report.durations ++ s.taken ++ s.inside).Perm s.recorded
  small : ∀ ms ∈ s.recorded, ms < 2 ^ 64
  reports : ∀ r ∈ s.reports, r.p50 = percentile (histogram r.durations) 50 ∧
    r.p99 = percentile (histogram r.durations) 99

section Lane

variable {s s' : State} {durations durations' : List ℕ} {ms i : ℕ}

theorem histogram_ext {counts : List ℕ} (hlen : counts.length = LAT_BUCKETS)
    (h : ∀ i < LAT_BUCKETS, counts[i]? = some (durations.countP fun ms => latBucket ms = i)) :
    counts = histogram durations := by
  refine List.ext_getElem? fun i => ?_
  by_cases hi : i < LAT_BUCKETS
  · rw [h i hi, histogram_getElem? durations hi]
  · rw [List.getElem?_eq_none (by omega), List.getElem?_eq_none (by rw [length_histogram]; omega)]

theorem record_histogram (durations : List ℕ) (ms : ℕ) :
    record (histogram durations) ms = histogram (durations ++ [ms]) := by
  refine histogram_ext (by rw [record, List.length_modify, length_histogram]) fun i hi => ?_
  rw [record, List.getElem?_modify, histogram_getElem? durations hi, List.countP_append]
  by_cases h : latBucket ms = i <;> simp [h]

/-- A bucket is emptied. -/
theorem set_histogram (durations : List ℕ) (i : ℕ) :
    (histogram durations).set i 0 = histogram (durations.filter fun ms => latBucket ms ≠ i) := by
  refine histogram_ext (by rw [List.length_set, length_histogram]) fun j hj => ?_
  rw [List.countP_filter]
  by_cases hij : i = j
  · subst hij
    rw [List.getElem?_set_self (by rwa [length_histogram])]
    refine congrArg some (List.countP_eq_zero.2 fun ms _ => ?_).symm
    simp
  · rw [List.getElem?_set_ne hij, histogram_getElem? durations hj]
    refine congrArg some (List.countP_congr fun ms _ => ?_)
    simp only [decide_eq_true_eq, Bool.and_eq_true]
    omega

theorem LaneOk.init : LaneOk {} := by
  constructor <;> simp [histogram]

theorem LaneOk.record (h : LaneOk s) (hms : ms < 2 ^ 64) :
    LaneOk { s with
      buckets := Latency.record s.buckets ms
      recorded := s.recorded ++ [ms]
      inside := s.inside ++ [ms] } := by
  refine ⟨?_, h.drain, h.idle, ?_, fun t ht => ?_, h.reports⟩
  · show Latency.record s.buckets ms = histogram (s.inside ++ [ms])
    rw [h.buckets, record_histogram]
  · show (s.reports.flatMap Report.durations ++ s.taken ++ (s.inside ++ [ms])).Perm _
    rw [← List.append_assoc]
    exact h.recorded.append_right [ms]
  · rcases List.mem_append.1 ht with ht | ht
    · exact h.small t ht
    · exact List.mem_singleton.1 ht ▸ hms

/-- One bucket is swapped. -/
theorem LaneOk.swap (h : LaneOk s) {counts : List ℕ} {c : ℕ} (hdrain : s.drain = some counts)
    (hc : s.buckets[counts.length]? = some c) :
    LaneOk { s with
      buckets := s.buckets.set counts.length 0
      drain := some (counts ++ [c])
      inside := s.inside.filter fun ms => latBucket ms ≠ counts.length
      taken := s.taken ++ s.inside.filter fun ms => latBucket ms = counts.length } := by
  obtain ⟨hcounts, hle, hbelow⟩ := h.drain counts hdrain
  have hlt : counts.length < LAT_BUCKETS := by
    rw [← length_histogram s.inside, ← h.buckets]
    exact (List.getElem?_eq_some_iff.1 hc).1
  have hvalue : c = s.inside.countP fun ms => latBucket ms = counts.length := by
    rw [h.buckets, histogram_getElem? _ hlt] at hc
    exact (Option.some.inj hc).symm
  refine ⟨?_, fun counts' hcounts' => ?_, nofun, ?_, h.small, h.reports⟩
  · show s.buckets.set _ 0 = _
    rw [h.buckets, set_histogram]
  · obtain rfl := Option.some.inj hcounts'
    refine ⟨?_, by simpa using Nat.succ_le_of_lt hlt, fun ms hms => ?_⟩
    · refine List.ext_getElem? fun j => ?_
      rw [List.length_append, List.length_singleton, List.getElem?_take]
      by_cases hj : j < counts.length + 1
      · rw [if_pos hj, histogram_getElem? _ (by omega), List.countP_append, List.countP_filter]
        rcases Nat.lt_succ_iff_lt_or_eq.1 hj with hj | rfl
        · -- a bucket that was swapped before
          have hold : counts[j]? = ((histogram s.taken).take counts.length)[j]? :=
            congrArg (·[j]?) hcounts
          rw [List.getElem?_append_left hj, hold, List.getElem?_take, if_pos hj,
            histogram_getElem? _ (by omega)]
          refine congrArg some (Nat.left_eq_add.2 (List.countP_eq_zero.2 fun ms _ => ?_))
          simp only [decide_eq_true_eq, Bool.and_eq_true]
          omega
        · rw [List.getElem?_concat_length, hvalue]
          have hnone : s.taken.countP (fun ms => latBucket ms = counts.length) = 0 :=
            List.countP_eq_zero.2 fun ms hms => by simpa using (hbelow ms hms).ne
          rw [hnone, Nat.zero_add]
          refine congrArg some (List.countP_congr fun ms _ => ?_)
          simp
      · rw [if_neg hj, List.getElem?_eq_none (by simp; omega)]
    · rw [List.length_append, List.length_singleton]
      rcases List.mem_append.1 hms with hms | hms
      · exact (hbelow ms hms).trans (Nat.lt_succ_self _)
      · have : latBucket ms = counts.length := by simpa using (List.mem_filter.1 hms).2
        omega
  · refine List.Perm.trans ?_ h.recorded
    show (s.reports.flatMap Report.durations ++ (s.taken ++ _) ++ _).Perm _
    rw [← List.append_assoc, List.append_assoc]
    refine List.Perm.append_left _ ?_
    have hsplit := List.filter_append_perm (fun ms => decide (latBucket ms = counts.length)) s.inside
    simpa using hsplit

/-- **Every step keeps the invariant.** -/
theorem LaneOk.step (h : LaneOk s) {l : Label} (hs : Latency.step s l = some s') : LaneOk s' := by
  cases l with
  | record nanos =>
    cases hs
    exact h.record (wrap_lt _)
  | begin_ =>
    obtain ⟨hidle, hs⟩ := Option.ite_none_left_eq_some.1 hs
    cases hs
    have htaken : s.taken = [] := h.idle (by simpa using hidle)
    refine ⟨h.buckets, fun counts hcounts => ?_, nofun, h.recorded, h.small, h.reports⟩
    obtain rfl : [] = counts := Option.some.inj hcounts
    exact ⟨rfl, Nat.zero_le _, by rw [htaken]; nofun⟩
  | swap =>
    obtain ⟨counts, hdrain, hs⟩ := Option.bind_eq_some_iff.1 hs
    obtain ⟨c, hc, rfl⟩ := Option.map_eq_some_iff.1 hs
    exact h.swap hdrain hc
  | report =>
    obtain ⟨counts, hdrain, hs⟩ := Option.bind_eq_some_iff.1 hs
    obtain ⟨hfull, hs⟩ := Option.ite_none_right_eq_some.1 hs
    cases hs
    obtain ⟨hcounts, -, -⟩ := h.drain counts hdrain
    have hcounts : counts = histogram s.taken := by
      rw [hcounts, hfull, List.take_of_length_le (length_histogram _).le]
    refine ⟨h.buckets, nofun, fun _ => rfl, ?_, h.small, fun r hr => ?_⟩
    · simpa using h.recorded
    · rcases List.mem_append.1 hr with hr | hr
      · exact h.reports r hr
      · rw [List.mem_singleton.1 hr]
        show percentile counts 50 = percentile (histogram s.taken) 50 ∧
          percentile counts 99 = percentile (histogram s.taken) 99
        rw [hcounts]
        exact ⟨rfl, rfl⟩

theorem LaneOk.of_reachable (h : system.Reachable System.anyStep s) : LaneOk s :=
  h.invariant (by rintro s rfl; exact .init) fun _ _ _ hs _ hstep => hs.step hstep

end Lane

/-- **The latencies are reported.** In every run of records by any threads and of drains:
* each recorded duration is counted in one report, in the drain under way, or in the buckets;
* a report without durations is of zeros;
* in a report of fewer than `2 ^ 40` durations the percentiles are ordered, and each is within the edges of
  the bucket of the nearest-rank percentile of exactly these durations, either edge included: below the top
  edge it is at most twice that, where zero counts as one, and at least half of it up to a millisecond. -/
theorem latencies_reported (s : State) (h : system.Reachable System.anyStep s) :
    (s.reports.flatMap Report.durations ++ s.taken ++ s.inside).Perm s.recorded ∧
    (∀ r ∈ s.reports, r.durations = [] → r.p50 = 0 ∧ r.p99 = 0) ∧
    ∀ r ∈ s.reports, r.durations ≠ [] → r.durations.length < 2 ^ 40 → r.p50 ≤ r.p99 ∧
      ∀ pct p, (pct, p) ∈ [(50, r.p50), (99, r.p99)] →
        ∀ v, IsRank r.durations (rank r.durations.length pct) v →
          (latBucketEdges (latBucket v)).1 ≤ p ∧ p ≤ (latBucketEdges (latBucket v)).2 ∧
            (v < 2 ^ LAT_BUCKETS → p ≤ 2 * max v 1 ∧ v ≤ 2 * p + 1) := by
  have hok := LaneOk.of_reachable h
  refine ⟨hok.recorded, fun r hr hnone => ?_, fun r hr hne hlen => ⟨?_, fun pct p hp v hv => ?_⟩⟩
  · obtain ⟨h50, h99⟩ := hok.reports r hr
    rw [h50, h99, hnone]
    exact ⟨rfl, rfl⟩
  · obtain ⟨h50, h99⟩ := hok.reports r hr
    rw [h50, h99]
    exact percentile_mono hne hlen (by norm_num) (by norm_num)
  · have hsmall : ∀ ms ∈ r.durations, ms < 2 ^ 64 := fun ms hms => by
      refine hok.small ms (hok.recorded.subset ?_)
      rw [List.append_assoc]
      exact List.mem_append_left _ (List.mem_flatMap.2 ⟨r, hr, hms⟩)
    obtain ⟨hpct, hvalue⟩ : pct ≤ 100 ∧ p = percentile (histogram r.durations) pct := by
      obtain ⟨h50, h99⟩ := hok.reports r hr
      rcases List.mem_pair.1 hp with heq | heq
      · rw [(Prod.mk.inj heq).1, (Prod.mk.inj heq).2]
        exact ⟨by decide, h50⟩
      · rw [(Prod.mk.inj heq).1, (Prod.mk.inj heq).2]
        exact ⟨by decide, h99⟩
    obtain ⟨hlo, hhi⟩ := percentile_bounds hlen hpct hsmall hv
    rw [← hvalue] at hlo hhi
    exact ⟨hlo, hhi, fun hv' => near_of_bounds hv' hlo hhi⟩

/-- Two records, of which the second comes between the swaps of the first drain, and a second drain. -/
def twoDrains : List Label :=
  [.record 20_400_000, .begin_] ++ List.replicate 5 .swap ++ [.record 21_000_000, .record 3_000_000_000] ++
    List.replicate 19 .swap ++ [.report, .begin_] ++ List.replicate 24 .swap ++ [.report]

/-- The state after `twoDrains`. -/
def drained : State := (system.run {} twoDrains).getD {}

theorem latencies_reported_drained :
    drained.reports = [⟨[20, 3000], 32, 4096⟩, ⟨[21], 32, 32⟩] ∧ 21 ≤ 2 * 32 + 1 := by
  have hreach : system.Reachable System.anyStep drained :=
    System.reachable_getD rfl (fun _ _ _ => trivial) (by decide +kernel)
  have hreports : drained.reports = [⟨[20, 3000], 32, 4096⟩, ⟨[21], 32, 32⟩] := by decide +kernel
  obtain ⟨-, -, hnear⟩ := latencies_reported drained hreach
  obtain ⟨-, hbounds⟩ := hnear ⟨[21], 32, 32⟩ (by rw [hreports]; simp) (by simp) (by norm_num)
  have hrank : IsRank [21] (rank 1 50) 21 := ⟨by simp, by decide, by decide⟩
  exact ⟨hreports, ((hbounds 50 32 (by simp) 21 hrank).2.2 (by decide)).2⟩

end Cauli.Latency
