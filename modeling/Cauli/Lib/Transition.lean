import Mathlib.Logic.Basic

/-!
# Guarded transition systems

A system is a predicate on starting states together with a partial, executable step function:
`step s a = none` says that the label `a` is not enabled in `s`. All nondeterminism (which party
moves, what the environment answers, where a call is cut off) is carried by the label, so a
concrete schedule can be replayed by evaluation.

* `run`, `runIf`: replay of a schedule, and with a test before each step;
* `Reach C s t`: `t` is reached from `s` by steps that all meet the condition `C`, a relation
  between the state before the step and its label;
* `Reachable C t`: `t` is reached so from a starting state;
* `Reach.invariant` and `Reachable.invariant`: the induction rules every safety proof uses.
-/

namespace Transition

/-- Starting states and a guarded step function. -/
structure System (σ α : Type*) where
  init : σ → Prop
  step : σ → α → Option σ

namespace System

variable {σ α : Type*} (M : System σ α)

/-- Replay of a schedule; `none` as soon as a label is not enabled. -/
def run (s : σ) : List α → Option σ
  | [] => some s
  | a :: l => (M.step s a).bind fun t => run t l

/-- Replay of a schedule whose steps pass a test. -/
def runIf (c : σ → α → Bool) (s : σ) : List α → Option σ
  | [] => some s
  | a :: l => if c s a then (M.step s a).bind fun t => runIf c t l else none

/-- No condition on the steps of a run. -/
def anyStep : σ → α → Prop := fun _ _ => True

/-- `t` is reached from `s` by steps that meet `C`. -/
inductive Reach (C : σ → α → Prop) (s : σ) : σ → Prop
  | refl : Reach C s s
  | tail {t u : σ} {a : α} : Reach C s t → C t a → M.step t a = some u → Reach C s u

/-- `t` is reached from a starting state by steps that meet `C`. -/
def Reachable (C : σ → α → Prop) (t : σ) : Prop := ∃ s, M.init s ∧ M.Reach C s t

variable {M} {C : σ → α → Prop} {s t u : σ}

theorem Reach.trans (h₁ : M.Reach C s t) (h₂ : M.Reach C t u) : M.Reach C s u := by
  induction h₂ with
  | refl => exact h₁
  | tail _ hC hstep ih => exact ih.tail hC hstep

theorem Reach.mono {D : σ → α → Prop} (hCD : ∀ s a, C s a → D s a) (h : M.Reach C s t) :
    M.Reach D s t := by
  induction h with
  | refl => exact .refl
  | tail _ hC hstep ih => exact ih.tail (hCD _ _ hC) hstep

/-- What a step meeting `C` preserves holds at the end of every run meeting `C`. -/
theorem Reach.invariant {I : σ → Prop} (hI : I s)
    (hstep : ∀ t a u, I t → C t a → M.step t a = some u → I u) (h : M.Reach C s t) : I t := by
  induction h with
  | refl => exact hI
  | tail _ hC hs ih => exact hstep _ _ _ ih hC hs

theorem Reachable.tail {a : α} (h : M.Reachable C t) (hC : C t a) (hs : M.step t a = some u) :
    M.Reachable C u := by
  obtain ⟨s, hs₀, hst⟩ := h
  exact ⟨s, hs₀, hst.tail hC hs⟩

theorem Reachable.trans (h₁ : M.Reachable C t) (h₂ : M.Reach C t u) : M.Reachable C u := by
  obtain ⟨s, hs₀, hst⟩ := h₁
  exact ⟨s, hs₀, hst.trans h₂⟩

theorem Reachable.mono {D : σ → α → Prop} (hCD : ∀ s a, C s a → D s a) (h : M.Reachable C t) :
    M.Reachable D t := by
  obtain ⟨s, hs₀, hst⟩ := h
  exact ⟨s, hs₀, hst.mono hCD⟩

/-- **The invariant rule**: true at the start and preserved by every step, hence always true. -/
theorem Reachable.invariant {I : σ → Prop} (hI : ∀ s, M.init s → I s)
    (hstep : ∀ t a u, I t → C t a → M.step t a = some u → I u) (h : M.Reachable C t) : I t := by
  obtain ⟨s, hs₀, hst⟩ := h
  exact hst.invariant (hI s hs₀) hstep

/-- A replayed schedule is a run; its labels meet `C` in every state. -/
theorem reach_of_run (l : List α) (hC : ∀ a ∈ l, ∀ s, C s a) (h : M.run s l = some t) :
    M.Reach C s t := by
  induction l generalizing s with
  | nil => cases h; exact .refl
  | cons a l ih =>
    obtain ⟨s', hs', hl⟩ := Option.bind_eq_some_iff.1 h
    have htail := ih (fun a ha => hC a (List.mem_cons_of_mem _ ha)) hl
    exact (Reach.refl.tail (hC a List.mem_cons_self s) hs').trans htail

theorem run_append (s : σ) (l₁ l₂ : List α) : M.run s (l₁ ++ l₂) = (M.run s l₁).bind fun t => M.run t l₂ := by
  induction l₁ generalizing s with
  | nil => rfl
  | cons a l₁ ih =>
    simp only [List.cons_append, run, Option.bind_assoc]
    exact congrArg _ (funext ih)

/-- A replayed schedule goes on with labels that meet `C` in every state. -/
theorem Reachable.append {l₁ l₂ : List α} (hs : M.Reachable C ((M.run s l₁).getD s))
    (hC : ∀ a ∈ l₂, ∀ s, C s a) (h : (M.run s (l₁ ++ l₂)).isSome) :
    M.Reachable C ((M.run s (l₁ ++ l₂)).getD s) := by
  obtain ⟨u, hu⟩ := Option.isSome_iff_exists.1 h
  obtain ⟨t, ht, htu⟩ := Option.bind_eq_some_iff.1 ((run_append s l₁ l₂).symm.trans hu)
  rw [ht, Option.getD_some] at hs
  rw [hu, Option.getD_some]
  exact hs.trans (reach_of_run l₂ hC htu)

/-- A replayed schedule goes on with a label that meets `C` where it is. -/
theorem Reachable.concat {l : List α} {a : α} (hs : M.Reachable C ((M.run s l).getD s))
    (hC : C ((M.run s l).getD s) a) (h : (M.run s (l ++ [a])).isSome) :
    M.Reachable C ((M.run s (l ++ [a])).getD s) := by
  obtain ⟨u, hu⟩ := Option.isSome_iff_exists.1 h
  obtain ⟨t, ht, htu⟩ := Option.bind_eq_some_iff.1 ((run_append s l [a]).symm.trans hu)
  rw [ht, Option.getD_some] at hs hC
  rw [hu, Option.getD_some]
  obtain ⟨v, hv, hvu⟩ := Option.bind_eq_some_iff.1 htu
  cases hvu
  exact hs.tail hC hv

/-- The end of a schedule that can be replayed from a starting state is reachable. -/
theorem reachable_getD {l : List α} (hs : M.init s) (hC : ∀ a ∈ l, ∀ s, C s a)
    (h : (M.run s l).isSome) : M.Reachable C ((M.run s l).getD s) := by
  refine ⟨s, hs, reach_of_run l hC ?_⟩
  obtain ⟨t, ht⟩ := Option.isSome_iff_exists.1 h
  rw [ht, Option.getD_some]

theorem reach_of_runIf {c : σ → α → Bool} (l : List α) (h : M.runIf c s l = some t) :
    M.Reach (fun s a => c s a = true) s t := by
  induction l generalizing s with
  | nil => cases h; exact .refl
  | cons a l ih =>
    by_cases hc : c s a = true
    · rw [runIf, if_pos hc] at h
      obtain ⟨s', hs', hl⟩ := Option.bind_eq_some_iff.1 h
      have hstep : M.Reach (fun s a => c s a = true) s s' := Reach.refl.tail hc hs'
      exact hstep.trans (ih hl)
    · rw [runIf, if_neg hc] at h
      cases h

/-- The end of a tested schedule that can be replayed from a starting state is reachable. -/
theorem reachable_runIf {c : σ → α → Bool} {l : List α} (hs : M.init s)
    (h : (M.runIf c s l).isSome) :
    M.Reachable (fun s a => c s a = true) ((M.runIf c s l).getD s) := by
  refine ⟨s, hs, reach_of_runIf l ?_⟩
  obtain ⟨t, ht⟩ := Option.isSome_iff_exists.1 h
  rw [ht, Option.getD_some]

end System

end Transition
