import Cauli.Lib.Bisect
import Mathlib.Logic.Relation
import Mathlib.Data.Set.Card
import Mathlib.Order.Interval.Finset.Defs
import Mathlib.Order.Interval.Finset.Basic

/-!
# Stepping past a bound

A partial function `next` that goes strictly up has a chain from every element: the element, the
next one, the one after it, and so on, until `next` is undefined.

* `OnChain next x z`: `z` is on the chain of `x`;
* `Stepped next bound x m r`: stepping from `x`, without a limit on the steps, passes `m` elements
  that are not above the bound and ends with `r`;
* `Stepped.isLeast`, `Stepped.finite_and_ncard_eq`: what `r` and `m` are in terms of the chain;
* `exists_stepped_iff`: where `next` gives the least later element of a fixed set, stepping ends
  with what `next` gives at the bound itself, so that it may jump.
-/

variable {α : Type} {next : α → Option α} {bound x y z r r' : α} {m m' : ℕ}

/-- `z` is on the chain of `x`. -/
def OnChain (next : α → Option α) : α → α → Prop :=
  Relation.ReflTransGen fun x y => next x = some y

theorem onChain_iff : OnChain next x z ↔ z = x ∨ ∃ y, next x = some y ∧ OnChain next y z := by
  rw [OnChain, Relation.ReflTransGen.cases_head_iff, eq_comm]

theorem OnChain.of_next (h : next x = some y) (hz : OnChain next y z) : OnChain next x z :=
  Relation.ReflTransGen.head h hz

variable [LinearOrder α]

/-- Stepping from `x` passes `m` elements up to the bound and ends with `r`. -/
inductive Stepped (next : α → Option α) (bound : α) : α → ℕ → α → Prop
  | stop {x r : α} : next x = some r → bound < r → Stepped next bound x 0 r
  | step {x y r : α} {m : ℕ} : next x = some y → y ≤ bound → Stepped next bound y m r →
      Stepped next bound x (m + 1) r

/-- Where the next element is not above the bound, stepping goes on with it. -/
theorem stepped_of_le (hnext : next x = some y) (hle : y ≤ bound) :
    Stepped next bound x m r ↔ ∃ m', m = m' + 1 ∧ Stepped next bound y m' r := by
  constructor
  · intro h
    cases h with
    | stop hnext' hr =>
      rw [hnext] at hnext'
      cases hnext'
      exact absurd hr (not_lt.2 hle)
    | step hnext' _ hrest =>
      rw [hnext] at hnext'
      cases hnext'
      exact ⟨_, rfl, hrest⟩
  · rintro ⟨m', rfl, hrest⟩
    exact .step hnext hle hrest

/-- Where the next element is above the bound, stepping stops there. -/
theorem stepped_of_lt (hnext : next x = some y) (hlt : bound < y) :
    Stepped next bound x m r ↔ m = 0 ∧ r = y := by
  constructor
  · intro h
    cases h with
    | stop hnext' _ =>
      rw [hnext] at hnext'
      cases hnext'
      exact ⟨rfl, rfl⟩
    | step hnext' hle _ =>
      rw [hnext] at hnext'
      cases hnext'
      exact absurd hlt (not_lt.2 hle)
  · rintro ⟨rfl, rfl⟩
    exact .stop hnext hlt

namespace Stepped

theorem exists_next (h : Stepped next bound x m r) : ∃ y, next x = some y := by
  cases h with
  | stop hnext _ => exact ⟨_, hnext⟩
  | step hnext _ _ => exact ⟨_, hnext⟩

theorem bound_lt (h : Stepped next bound x m r) : bound < r := by
  induction h with
  | stop _ hr => exact hr
  | step _ _ _ ih => exact ih

theorem onChain (h : Stepped next bound x m r) : OnChain next x r := by
  induction h with
  | stop hnext _ => exact .single hnext
  | step hnext _ _ ih => exact .of_next hnext ih

/-- The result and the count are determined. -/
theorem unique (h : Stepped next bound x m r) (h' : Stepped next bound x m' r') :
    m = m' ∧ r = r' := by
  induction h generalizing m' with
  | stop hnext hr =>
    obtain ⟨rfl, rfl⟩ := (stepped_of_lt hnext hr).1 h'
    exact ⟨rfl, rfl⟩
  | step hnext hle _ ih =>
    obtain ⟨m'', rfl, hrest⟩ := (stepped_of_le hnext hle).1 h'
    obtain ⟨rfl, rfl⟩ := ih hrest
    exact ⟨rfl, rfl⟩

/-- Stepping past a bound passes every smaller one. -/
theorem of_le (h : Stepped next bound x m r) {bound' : α} (hle : bound' ≤ bound) :
    ∃ m' r', Stepped next bound' x m' r' := by
  induction h with
  | stop hnext hr => exact ⟨0, _, .stop hnext (hle.trans_lt hr)⟩
  | @step x y r m hnext hy _ ih =>
    by_cases hy' : y ≤ bound'
    · obtain ⟨m', r', h'⟩ := ih
      exact ⟨m' + 1, r', .step hnext hy' h'⟩
    · exact ⟨0, y, .stop hnext (not_le.1 hy')⟩

end Stepped

section Later

variable (hlater : ∀ {x z : α}, next x = some z → x < z)

include hlater

theorem OnChain.le (h : OnChain next x z) : x ≤ z := by
  induction h with
  | refl => exact le_rfl
  | tail _ hnext ih => exact ih.trans (hlater hnext).le

/-- The chain above `x` is the chain of the next element. -/
theorem onChain_and_lt_iff (hnext : next x = some y) :
    OnChain next x z ∧ x < z ↔ OnChain next y z := by
  rw [onChain_iff]
  constructor
  · rintro ⟨rfl | ⟨y', hnext', hz⟩, hlt⟩
    · exact absurd hlt (lt_irrefl _)
    · rw [hnext] at hnext'
      cases hnext'
      exact hz
  · intro hz
    exact ⟨.inr ⟨y, hnext, hz⟩, (hlater hnext).trans_le (hz.le hlater)⟩

namespace Stepped

theorem lt (h : Stepped next bound x m r) : x < r := by
  induction h with
  | stop hnext _ => exact hlater hnext
  | step hnext _ _ ih => exact (hlater hnext).trans ih

/-- The result is the least element of the chain above the start and the bound. -/
theorem isLeast (h : Stepped next bound x m r) :
    IsLeast {z | OnChain next x z ∧ x < z ∧ bound < z} r := by
  refine ⟨⟨h.onChain, h.lt hlater, h.bound_lt⟩, ?_⟩
  rintro z ⟨hz, hlt, hbound⟩
  induction h with
  | stop hnext _ => exact ((onChain_and_lt_iff hlater hnext).1 ⟨hz, hlt⟩).le hlater
  | step hnext hle _ ih =>
    have hz := (onChain_and_lt_iff hlater hnext).1 ⟨hz, hlt⟩
    exact ih hz (hle.trans_lt hbound)

/-- The count is the number of elements of the chain above the start and up to the bound. -/
theorem finite_and_ncard_eq (h : Stepped next bound x m r) :
    {z | OnChain next x z ∧ x < z ∧ z ≤ bound}.Finite ∧
      {z | OnChain next x z ∧ x < z ∧ z ≤ bound}.ncard = m := by
  induction h with
  | @stop x r hnext hr =>
    have hempty : {z | OnChain next x z ∧ x < z ∧ z ≤ bound} = ∅ := by
      ext z
      simp only [Set.mem_ofPred_eq, Set.mem_empty_iff_false, iff_false]
      rintro ⟨hz, hlt, hle⟩
      have hrz := ((onChain_and_lt_iff hlater hnext).1 ⟨hz, hlt⟩).le hlater
      exact absurd (hr.trans_le hrz) (not_lt.2 hle)
    rw [hempty]
    exact ⟨Set.finite_empty, Set.ncard_empty α⟩
  | @step x y r m hnext hle _ ih =>
    have hinsert : {z | OnChain next x z ∧ x < z ∧ z ≤ bound} =
        insert y {z | OnChain next y z ∧ y < z ∧ z ≤ bound} := by
      ext z
      simp only [Set.mem_ofPred_eq, Set.mem_insert_iff]
      rw [← and_assoc, onChain_and_lt_iff hlater hnext]
      constructor
      · rintro ⟨hz, hzb⟩
        rcases (hz.le hlater).eq_or_lt with rfl | hlt
        · exact .inl rfl
        · exact .inr ⟨hz, hlt, hzb⟩
      · rintro (rfl | ⟨hz, -, hzb⟩)
        · exact ⟨.refl, hle⟩
        · exact ⟨hz, hzb⟩
    have hnot : y ∉ {z | OnChain next y z ∧ y < z ∧ z ≤ bound} := fun hy => lt_irrefl _ hy.2.1
    rw [hinsert, Set.ncard_insert_of_notMem hnot ih.1, ih.2]
    exact ⟨ih.1.insert y, rfl⟩

end Stepped

end Later

/-- Where `next` gives the least later element of a set, stepping from an element up to the bound
ends with what `next` gives at the bound. -/
theorem exists_stepped_iff [LocallyFiniteOrder α] {F : Set α} (hle : x ≤ bound)
    (hleast : ∀ y, x ≤ y → y ≤ bound → LeastAfter F y (next y)) :
    (∃ m, Stepped next bound x m r) ↔ next bound = some r := by
  constructor
  · rintro ⟨m, h⟩
    induction h with
    | @stop x r hnext hr =>
      have hx := hleast x le_rfl hle
      have hb := hleast bound hle le_rfl
      rw [hnext] at hx
      cases hbound : next bound with
      | none =>
        rw [hbound] at hb
        exact absurd (hb r hx.1.1) (not_le.2 hr)
      | some w =>
        rw [hbound] at hb
        have hwr : w ≤ r := hb.2 ⟨hx.1.1, hr⟩
        have hrw : r ≤ w := hx.2 ⟨hb.1.1, hle.trans_lt hb.1.2⟩
        rw [le_antisymm hwr hrw]
    | @step x y r m hnext hy _ ih =>
      have hx := hleast x le_rfl hle
      rw [hnext] at hx
      exact ih hy fun w hw => hleast w (hx.1.2.le.trans hw)
  · intro hbound
    have hb := hleast bound hle le_rfl
    rw [hbound] at hb
    -- the induction is on the number of elements between `x` and the bound
    induction hn : (Finset.Ioc x bound).card using Nat.strong_induction_on generalizing x with
    | _ n ih =>
      have hx := hleast x le_rfl hle
      cases hnext : next x with
      | none =>
        rw [hnext] at hx
        exact absurd (hx r hb.1.1) (not_le.2 (hle.trans_lt hb.1.2))
      | some y =>
        rw [hnext] at hx
        by_cases hy : y ≤ bound
        · have hcard : (Finset.Ioc y bound).card < n := by
            rw [← hn]
            refine Finset.card_lt_card ⟨Finset.Ioc_subset_Ioc_left hx.1.2.le, fun hsub => ?_⟩
            have hself := hsub (Finset.mem_Ioc.2 ⟨hx.1.2, hy⟩)
            exact lt_irrefl _ (Finset.mem_Ioc.1 hself).1
          obtain ⟨m, hm⟩ := ih _ hcard hy (fun w hw => hleast w (hx.1.2.le.trans hw)) rfl
          exact ⟨m + 1, .step hnext hy hm⟩
        · have hyr : y ≤ r := hx.2 ⟨hb.1.1, hle.trans_lt hb.1.2⟩
          have hry : r ≤ y := hb.2 ⟨hx.1.1, not_le.1 hy⟩
          rw [le_antisymm hyr hry] at hnext
          exact ⟨0, .stop hnext hb.1.2⟩
