import Cauli.Worker.Cpu

/-!
# The recycle budget of a cpu child (`worker/src/cpu.rs`)

With `--cpu-max-tasks-per-child` a child is replaced after `recycle` requests. The guard of the intake
counts what is completed and what the child has, not the request that is being written, and the test
after a completion looks at the map only.

* `Serve.load`: completed requests, pending ones and the one being written;
* `Recycling`: the load is within `recycle`;
* `accepted_le_of_reachable`: with new ids the accepted jobs are within it too;
* `recycling_loses_nothing`: what a call that ends as recycled leaves behind.
-/

namespace Cauli.Cpu

/-- The requests that count against the budget. -/
def Serve.load (s : Serve) : ℕ :=
  s.completed + s.pending.keys.length + (if s.pendingWrite.isSome then 1 else 0)

/-! ### The load under the operations -/

theorem load_armStarted (concurrency : ℕ) (clock : String → ℕ) (s : Serve) :
    (armStarted concurrency clock s).load = s.load := by
  have hkeys := (armed_armLoop concurrency clock s.order (deadlines s.pending).length
    s.pending).keys.length_eq
  unfold Serve.load
  rw [show (armStarted concurrency clock s).pending.keys.length = s.pending.keys.length from hkeys]
  rfl

theorem load_loopTop (cfg : ServeCfg) (t : Turn) (s : Serve) : (loopTop cfg t s).load = s.load := rfl

/-- A completion moves one request from the map to the count. -/
theorem load_complete {s : Serve} {id : String} {p : Pending} (cfg : ServeCfg) (t : Turn) (l : String)
    (hp : s.pending.lookup id = some p) : (complete cfg t id l p s).1.load = s.load := by
  have hin : id ∈ s.pending.keys := AList.mem_keys.1 (AList.lookup_isSome.1 (by rw [hp]; rfl))
  have hpos := List.length_pos_of_mem hin
  have hkeys : (s.pending.erase id).keys.length + 1 = s.pending.keys.length := by
    rw [AList.keys_erase, List.length_erase_of_mem hin]
    omega
  refine (load_armStarted _ _ _).trans ?_
  rw [Serve.load, Serve.load, ← hkeys, ← Nat.add_assoc, Nat.add_right_comm s.completed]

theorem load_accept {s : Serve} (j : CpuJob) (hnone : s.pendingWrite = none) :
    (accept j s).load = s.load + 1 := by
  unfold Serve.load
  rw [hnone]
  rfl

/-- A request that is fully written goes from the buffer to the map; it may replace one there. -/
theorem load_advanceWrite_le {s : Serve} {pw : PendingWrite} (cfg : ServeCfg) (t : Turn) (n : ℕ)
    (hpw : s.pendingWrite = some pw) : (advanceWrite cfg t n pw s).load ≤ s.load := by
  unfold advanceWrite
  split_ifs
  · rw [load_armStarted]
    show s.completed + (s.pending.insert pw.id _).keys.length + 0 ≤ s.load
    have hlen := List.length_erase_le (a := pw.id) (l := s.pending.keys)
    rw [AList.keys_insert, List.length_cons, Serve.load, hpw]
    simp only [Option.isSome_some, if_true]
    omega
  · rw [Serve.load, Serve.load, hpw]
    exact le_rfl

theorem load_loseWrite_le (pw : PendingWrite) (s : Serve) : (loseWrite pw s).load ≤ s.load :=
  Nat.add_le_add_left (Nat.zero_le _) _

/-! ### The budget -/

theorem lt_of_mayTake {cfg : ServeCfg} (hrecycle : 0 < cfg.recycle) {t : Turn} {s : Serve}
    (h : mayTake cfg t s = true) : s.load < cfg.recycle := by
  have hnone := pendingWrite_of_mayTake h
  simp only [mayTake, Bool.and_eq_true, Bool.or_eq_true, beq_iff_eq, decide_eq_true_eq] at h
  have hroom := h.2.resolve_left hrecycle.ne'
  rw [Serve.load, hnone]
  simpa using hroom

/-- A branch of the `select!` keeps the load within the budget. -/
theorem load_select_le {idOf : String → Option String} {cfg : ServeCfg} (hrecycle : 0 < cfg.recycle)
    {t : Turn} {s s' : Serve} {gone : Option ChildGone} (h : s.load ≤ cfg.recycle)
    (hstep : select idOf cfg t s = some (s', gone)) : s'.load ≤ cfg.recycle := by
  rcases select_cases hstep with ⟨rfl, -⟩ | ⟨id, l, p, hp, rfl, -⟩ | ⟨j, -, htake, rfl, -⟩ |
    ⟨n, pw, hpw, rfl, -⟩ | ⟨pw, -, rfl, -⟩
  · exact h
  · rw [load_complete cfg t l hp]
    exact h
  · rw [load_accept j (pendingWrite_of_mayTake htake)]
    exact lt_of_mayTake hrecycle htake
  · exact (load_advanceWrite_le cfg t n hpw).trans h
  · exact (load_loseWrite_le pw s).trans h

theorem load_step_le {idOf : String → Option String} {cfg : ServeCfg} (hrecycle : 0 < cfg.recycle)
    {t : Turn} {s s' : Serve} (h : s.load ≤ cfg.recycle) (hstep : serveStep idOf cfg s t = some s') :
    s'.load ≤ cfg.recycle := by
  have htop : (loopTop cfg t s).load ≤ cfg.recycle := (load_loopTop cfg t s).le.trans h
  obtain ⟨-, ⟨hselect, -⟩ | ⟨gone, s₁, hselect, rfl⟩⟩ := serveStep_cases hstep
  · exact load_select_le hrecycle htop hselect
  · -- what is drained no longer counts
    have hload := load_select_le hrecycle htop hselect
    have hcompleted : s₁.completed ≤ s₁.load := (Nat.le_add_right _ _).trans (Nat.le_add_right _ _)
    exact hcompleted.trans hload

/-! ### Leaving as recycled -/

/-- The loop is left as recycled only with nothing pending and no write in progress. -/
theorem select_recycled {idOf : String → Option String} {cfg : ServeCfg} {t : Turn} {s s' : Serve}
    (hload : s.load ≤ cfg.recycle) (hstep : select idOf cfg t s = some (s', some .recycled)) :
    s'.pending.keys = [] ∧ s'.pendingWrite = none := by
  rcases select_cases hstep with ⟨-, hne⟩ | ⟨id, l, p, hp, rfl, hgone⟩ | ⟨j, -, -, -, hnone⟩ |
    ⟨n, pw, -, -, hnone⟩ | ⟨pw, -, -, hgone⟩
  · exact absurd rfl hne
  · -- the test looks at the map; the load leaves no room for a write
    rw [← load_complete cfg t l hp] at hload
    set s' := (complete cfg t id l p s).1 with hs'
    have htest : 0 < cfg.recycle ∧ cfg.recycle ≤ s'.completed ∧ s'.pending.keys = [] := by
      by_contra htest
      have hstay : (complete cfg t id l p s).2 = none := if_neg htest
      rw [hstay] at hgone
      cases hgone
    refine ⟨htest.2.2, ?_⟩
    cases hpw : s'.pendingWrite with
    | none => rfl
    | some pw =>
      rw [Serve.load, hpw] at hload
      simp only [Option.isSome_some, if_true] at hload
      omega
  · cases hnone
  · cases hnone
  · cases hgone

/-- Every answer is the child's own, and counted. -/
structure Answered (s : Serve) : Prop where
  own : ∀ a ∈ s.sent, ∃ l, a.2 = CpuOutcome.resp l
  count : s.sent.length = s.completed

/-- A branch that does not find the child gone sends nothing but a response. -/
theorem Answered.select {idOf : String → Option String} {cfg : ServeCfg} {t : Turn} {s s' : Serve}
    {gone : Option ChildGone} (h : Answered s) (hstep : select idOf cfg t s = some (s', gone))
    (hgone : gone ≠ some .exited) : Answered s' := by
  rcases select_cases hstep with ⟨rfl, -⟩ | ⟨id, l, p, hp, rfl, -⟩ | ⟨j, -, -, rfl, -⟩ |
    ⟨n, pw, hpw, rfl, -⟩ | ⟨pw, -, -, hexited⟩
  · exact h
  · constructor
    · intro a ha
      rcases List.mem_append.1 ha with hold | hnew
      · exact h.own a hold
      · exact ⟨l, by rw [List.mem_singleton.1 hnew]⟩
    · show (s.sent ++ [_]).length = s.completed + 1
      rw [List.length_append, h.count, List.length_singleton]
  · exact ⟨h.own, h.count⟩
  · unfold advanceWrite
    split_ifs <;> exact ⟨h.own, h.count⟩
  · exact absurd hexited hgone

theorem drain_sent_of_empty {s : Serve} (gone : ChildGone) (now : ℕ) (hpending : s.pending.keys = [])
    (hwrite : s.pendingWrite = none) : (drain gone now s).sent = s.sent := by
  have hentries : s.pending.entries = [] := List.map_eq_nil_iff.1 hpending
  show s.sent ++ (s.pendingWrite.toList.map fun pw => (pw.resp, CpuOutcome.lost)) ++
    s.pending.entries.map (fun e => (e.2.resp, leftover gone now e.2)) = s.sent
  rw [hwrite, hentries]
  simp

/-- The budget, and the answers of a call that runs or has ended as recycled. -/
structure Recycling (cfg : ServeCfg) (s : Serve) : Prop where
  load : s.load ≤ cfg.recycle
  answered : (s.exit = none ∨ ∃ now, s.exit = some (.recycled, now)) → Answered s

theorem Recycling.step {idOf : String → Option String} {cfg : ServeCfg} (hrecycle : 0 < cfg.recycle)
    {t : Turn} {s s' : Serve} (h : Recycling cfg s) (hstep : serveStep idOf cfg s t = some s') :
    Recycling cfg s' := by
  refine ⟨load_step_le hrecycle h.load hstep, ?_⟩
  have htop : (loopTop cfg t s).load ≤ cfg.recycle := h.load
  obtain ⟨hexit, hcases⟩ := serveStep_cases hstep
  have hrunning := h.answered (.inl hexit)
  have hbefore : Answered (loopTop cfg t s) := ⟨hrunning.own, hrunning.count⟩
  rcases hcases with ⟨hselect, -⟩ | ⟨gone, s₁, hselect, rfl⟩
  · exact fun _ => hbefore.select hselect nofun
  · rintro (hnone | ⟨now, hnow⟩)
    · cases hnone
    · cases hnow
      obtain ⟨hpending, hwrite⟩ := select_recycled htop hselect
      have hsent := drain_sent_of_empty .recycled t.now hpending hwrite
      have hafter := hbefore.select hselect nofun
      exact ⟨fun a ha => hafter.own a (hsent ▸ ha), (congrArg List.length hsent).trans hafter.count⟩

theorem recycling_of_reachable {idOf : String → Option String} {cfg : ServeCfg}
    (hrecycle : 0 < cfg.recycle) {C : Serve → Turn → Prop} {s : Serve}
    (h : (serveSystem idOf cfg).Reachable C s) : Recycling cfg s := by
  refine h.invariant ?_ fun s t s' hs _ hstep => hs.step hrecycle hstep
  rintro s rfl
  exact ⟨Nat.zero_le _, fun _ => ⟨nofun, rfl⟩⟩

/-! ### The jobs that are taken -/

/-- With new ids the load of a running call is the number of jobs it has taken. -/
theorem Ledger.accepted_length {s : Serve} (h : Ledger s) (hcount : s.sent.length = s.completed) :
    s.accepted.length = s.load := by
  have hlen := h.conserved.length_eq
  have hwrite : s.pendingWrite.toList.length = if s.pendingWrite.isSome then 1 else 0 := by
    cases s.pendingWrite <;> rfl
  simp only [List.length_append, List.length_map, hcount, hwrite] at hlen
  rw [hlen, Serve.load, Nat.add_assoc]

/-- The last turn takes no job. -/
theorem accepted_of_select {idOf : String → Option String} {cfg : ServeCfg} {t : Turn} {s s' : Serve}
    {gone : ChildGone} (hstep : select idOf cfg t s = some (s', some gone)) :
    s'.accepted = s.accepted := by
  rcases select_cases hstep with ⟨rfl, -⟩ | ⟨id, l, p, hp, rfl, -⟩ | ⟨j, -, -, -, hnone⟩ |
    ⟨n, pw, hpw, -, hnone⟩ | ⟨pw, -, rfl, -⟩
  · rfl
  · rfl
  · cases hnone
  · cases hnone
  · rfl

theorem accepted_le_of_reachable {idOf : String → Option String} {cfg : ServeCfg}
    (hrecycle : 0 < cfg.recycle) {s : Serve}
    (h : (serveSystem idOf cfg).Reachable (fun s t => freshId s t = true) s) :
    s.accepted.length ≤ cfg.recycle := by
  refine (h.invariant (I := fun s => Ledger s ∧ Recycling cfg s ∧ s.accepted.length ≤ cfg.recycle)
    ?_ ?_).2.2
  · rintro s rfl
    exact ⟨ledger_init, ⟨Nat.zero_le _, fun _ => ⟨nofun, rfl⟩⟩, Nat.zero_le _⟩
  · rintro s t s' ⟨hledger, hrecycling, hle⟩ hfresh hstep
    have hledger' := hledger.step hfresh hstep
    have hrecycling' := hrecycling.step hrecycle hstep
    refine ⟨hledger', hrecycling', ?_⟩
    obtain ⟨-, ⟨-, hexit'⟩ | ⟨gone, s₁, hselect, rfl⟩⟩ := serveStep_cases hstep
    · rw [hledger'.accepted_length (hrecycling'.answered (.inl hexit')).count]
      exact hrecycling'.load
    · show s₁.accepted.length ≤ cfg.recycle
      rw [accepted_of_select hselect]
      exact hle

/-- **Recycling loses nothing.** In every state of every run of a call with a budget: what is
completed, pending and being written is within the budget, and if the job ids are new no more jobs
are taken; the loop is left as recycled only with nothing pending and no write in progress, so that
nothing is sent after it; and a call that has ended as recycled has answered with responses only. -/
theorem recycling_loses_nothing {idOf : String → Option String} {cfg : ServeCfg}
    (hrecycle : 0 < cfg.recycle) {s : Serve}
    (h : (serveSystem idOf cfg).Reachable Transition.System.anyStep s) :
    s.completed + s.pending.keys.length + (if s.pendingWrite.isSome then 1 else 0) ≤ cfg.recycle ∧
    ((serveSystem idOf cfg).Reachable (fun s t => freshId s t = true) s →
      s.accepted.length ≤ cfg.recycle) ∧
    (∀ t s', select idOf cfg t (loopTop cfg t s) = some (s', some .recycled) →
      s'.pending.keys = [] ∧ s'.pendingWrite = none ∧
        (drain .recycled t.now s').sent = s'.sent) ∧
    ∀ now, s.exit = some (.recycled, now) →
      s.exit.map (·.1.serveExit) = some .recycled ∧ ∀ a ∈ s.sent, ∃ l, a.2 = CpuOutcome.resp l := by
  have hrecycling := recycling_of_reachable hrecycle h
  refine ⟨hrecycling.load, accepted_le_of_reachable hrecycle, fun t s' hselect => ?_,
    fun now hexit => ⟨?_, (hrecycling.answered (.inr ⟨now, hexit⟩)).own⟩⟩
  · have htop : (loopTop cfg t s).load ≤ cfg.recycle := hrecycling.load
    obtain ⟨hpending, hwrite⟩ := select_recycled htop hselect
    exact ⟨hpending, hwrite, drain_sent_of_empty _ _ hpending hwrite⟩
  · rw [hexit]
    rfl

/-- Two requests of a child that may serve two, with the second written while the first runs. -/
def twoThenRecycled : List Turn :=
  [{ event := .job ⟨"a", "r", 5⟩ }, { event := .wrote 2 }, { event := .job ⟨"b", "r", 5⟩ },
    { event := .line "a" }, { event := .wrote 2 }, { event := .line "b" }]

theorem recycling_loses_nothing_of_two :
    let cfg : ServeCfg := ⟨1, 2, 1⟩
    let s := ((serveSystem some cfg).run {} twoThenRecycled).getD {}
    s.exit = some (.recycled, 0) ∧ s.completed = 2 ∧
      (∀ a ∈ s.sent, ∃ l, a.2 = CpuOutcome.resp l) := by
  intro cfg s
  have hs : (serveSystem some cfg).Reachable Transition.System.anyStep s :=
    Transition.System.reachable_getD rfl (fun _ _ _ => trivial) (by decide +kernel)
  have hexit : s.exit = some (.recycled, 0) := by decide +kernel
  exact ⟨hexit, by decide +kernel, ((recycling_loses_nothing (by decide) hs).2.2.2 0 hexit).2⟩

end Cauli.Cpu
