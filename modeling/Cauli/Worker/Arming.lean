import Cauli.Lib.Beginnings
import Cauli.Worker.Cpu

/-!
# The clocks of the started requests (`worker/src/cpu.rs`)

A child reads its requests in the order they are sent and runs `concurrency` of them at a time.
`arm_started` is called after every write and every response; it counts the deadlines in the map and
walks the send order until there are enough.

* `isArmed`, `isStaged`: the clock of a request runs, or waits for the requests before it;
* `map_fst_armLoop`: the loop arms the first staged requests, as many as there is room for;
* `Clocks`: the requests with a clock are the first ones in send order, and no clock is set twice;
* `clocks_run_on_started`: it holds after every turn.
-/

namespace Cauli.Cpu

/-- The hard timeout of the request runs. -/
def isArmed (m : PendingMap) (id : String) : Bool := (m.lookup id).any fun p => p.deadline.isSome

/-- The request waits behind others. -/
def isStaged (m : PendingMap) (id : String) : Bool := (m.lookup id).any fun p => p.deadline.isNone

theorem isArmed_iff {m : PendingMap} {id : String} :
    isArmed m id = true ↔ ∃ p d, m.lookup id = some p ∧ p.deadline = some d := by
  simp only [isArmed, Option.any_eq_true, Option.isSome_iff_exists]
  constructor
  · rintro ⟨p, hp, d, hd⟩
    exact ⟨p, d, hp, hd⟩
  · rintro ⟨p, d, hp, hd⟩
    exact ⟨p, hp, d, hd⟩

theorem isStaged_iff {m : PendingMap} {id : String} :
    isStaged m id = true ↔ ∃ p, m.lookup id = some p ∧ p.deadline = none := by
  simp only [isStaged, Option.any_eq_true, Option.isNone_iff_eq_none]

/-- A request is armed or staged. -/
theorem isStaged_eq_not_isArmed {m : PendingMap} {id : String} (h : id ∈ m) :
    isStaged m id = !isArmed m id := by
  obtain ⟨p, hp⟩ := Option.isSome_iff_exists.1 (AList.lookup_isSome.2 h)
  simp only [isStaged, isArmed, hp, Option.any_some]
  cases p.deadline <;> rfl

theorem isArmed_insert_ne {m : PendingMap} {id id' : String} (h : id' ≠ id) (p : Pending) :
    isArmed (m.insert id p) id' = isArmed m id' := by
  rw [isArmed, isArmed, AList.lookup_insert_ne h]

theorem isStaged_insert_ne {m : PendingMap} {id id' : String} (h : id' ≠ id) (p : Pending) :
    isStaged (m.insert id p) id' = isStaged m id' := by
  rw [isStaged, isStaged, AList.lookup_insert_ne h]

/-! ### The loop -/

section Loop

variable {concurrency : ℕ} {clock : String → ℕ}

/-- The loop arms the first staged requests of the walk, as many as there is room for. -/
theorem map_fst_armLoop {ids : List String} (hnodup : ids.Nodup) (running : ℕ) (m : PendingMap) :
    (armLoop concurrency clock ids running m).2.map Prod.fst =
      (ids.filter (isStaged m)).take (concurrency - running) := by
  induction ids generalizing running m with
  | nil => rw [List.filter_nil, List.take_nil, armLoop, List.map_nil]
  | cons id rest ih =>
    obtain ⟨hid, hnodup⟩ := List.nodup_cons.1 hnodup
    unfold armLoop
    split_ifs with hfull
    · rw [Nat.sub_eq_zero_of_le hfull, List.take_zero, List.map_nil]
    · cases hp : m.lookup id with
      | none =>
        have hstaged : isStaged m id = false := by rw [isStaged, hp, Option.any_none]
        rw [List.filter_cons_of_neg (by rw [hstaged]; exact Bool.false_ne_true)]
        exact ih hnodup running m
      | some p =>
        cases hd : p.deadline with
        | some d =>
          have hstaged : isStaged m id = false := by
            rw [isStaged, hp, Option.any_some, hd, Option.isNone_some]
          rw [List.filter_cons_of_neg (by rw [hstaged]; exact Bool.false_ne_true)]
          simpa only [hd] using ih hnodup running m
        | none =>
          have hstaged : isStaged m id = true := isStaged_iff.2 ⟨p, hp, hd⟩
          have hroom : concurrency - running = concurrency - (running + 1) + 1 := by omega
          have hrest : ∀ q, rest.filter (isStaged (m.insert id q)) = rest.filter (isStaged m) := by
            intro q
            refine List.filter_congr fun x hx => isStaged_insert_ne ?_ q
            rintro rfl
            exact hid hx
          rw [List.filter_cons_of_pos hstaged, hroom, List.take_succ_cons, ← hrest]
          simp only [hd, List.map_cons]
          rw [ih hnodup]

/-- A deadline that is set stays. -/
theorem lookup_armLoop_of_armed (ids : List String) (running : ℕ) {m : PendingMap} {id : String}
    {p : Pending} {d : ℕ} (hp : m.lookup id = some p) (hd : p.deadline = some d) :
    (armLoop concurrency clock ids running m).1.lookup id = some p := by
  induction ids generalizing running m with
  | nil => exact hp
  | cons id' rest ih =>
    unfold armLoop
    split_ifs
    · exact hp
    · cases hp' : m.lookup id' with
      | none => exact ih running hp
      | some p' =>
        cases hd' : p'.deadline with
        | some _ => simpa only [hd'] using ih running hp
        | none =>
          simp only [hd']
          have hne : id ≠ id' := by
            rintro rfl
            rw [hp] at hp'
            cases hp'
            rw [hd] at hd'
            cases hd'
          refine ih (running + 1) ?_
          rwa [AList.lookup_insert_ne hne]

/-- What the loop arms was staged, and has the recorded deadline afterwards. -/
theorem lookup_armLoop_of_mem (ids : List String) (running : ℕ) {m : PendingMap} {id : String}
    {d : ℕ} (h : (id, d) ∈ (armLoop concurrency clock ids running m).2) :
    isStaged m id = true ∧
      ∃ p, (armLoop concurrency clock ids running m).1.lookup id = some p ∧ p.deadline = some d := by
  induction ids generalizing running m with
  | nil => cases h
  | cons id' rest ih =>
    unfold armLoop at h ⊢
    split_ifs at h ⊢
    · cases h
    · cases hp' : m.lookup id' with
      | none =>
        simp only [hp'] at h
        exact ih running h
      | some p' =>
        cases hd' : p'.deadline with
        | some _ =>
          simp only [hp', hd'] at h
          simpa only [hd'] using ih running h
        | none =>
          simp only [hp', hd'] at h ⊢
          rcases List.mem_cons.1 h with heq | h
          · cases heq
            refine ⟨isStaged_iff.2 ⟨p', hp', hd'⟩,
              { p' with deadline := some (deadlineFor (clock id) p'.timeoutMs) }, ?_, rfl⟩
            exact lookup_armLoop_of_armed rest (running + 1) (AList.lookup_insert m) rfl
          · obtain ⟨hstaged, hafter⟩ := ih (running + 1) h
            have hne : id ≠ id' := by
              rintro rfl
              obtain ⟨q, hq, hnone⟩ := isStaged_iff.1 hstaged
              rw [AList.lookup_insert] at hq
              cases hq
              cases hnone
            exact ⟨by rwa [isStaged_insert_ne hne] at hstaged, hafter⟩

/-- The requests with a clock after the loop. -/
theorem isArmed_armLoop (ids : List String) (running : ℕ) (m : PendingMap) (id : String) :
    isArmed (armLoop concurrency clock ids running m).1 id = true ↔
      isArmed m id = true ∨ id ∈ (armLoop concurrency clock ids running m).2.map Prod.fst := by
  constructor
  · intro h
    obtain ⟨p', d, hp', hd⟩ := isArmed_iff.1 h
    obtain ⟨p, hp, -, hdeadline⟩ :=
      (armed_armLoop concurrency clock ids running m).lookup id p' hp'
    rcases hdeadline d hd with hold | hnew
    · exact .inl (isArmed_iff.2 ⟨p, d, hp, hold⟩)
    · exact .inr (List.mem_map.2 ⟨_, hnew, rfl⟩)
  · rintro (h | h)
    · obtain ⟨p, d, hp, hd⟩ := isArmed_iff.1 h
      exact isArmed_iff.2 ⟨p, d, lookup_armLoop_of_armed ids running hp hd, hd⟩
    · obtain ⟨⟨_, d⟩, hmem, rfl⟩ := List.mem_map.1 h
      obtain ⟨-, p, hp, hd⟩ := lookup_armLoop_of_mem ids running hmem
      exact isArmed_iff.2 ⟨p, d, hp, hd⟩

end Loop

/-- The count that `arm_started` begins with. -/
theorem length_deadlines (m : PendingMap) :
    (deadlines m).length = (m.keys.filter (isArmed m)).length := by
  have hkeys : m.keys = m.entries.map Sigma.fst := rfl
  have hentry : ∀ e ∈ m.entries, isArmed m e.1 = e.2.deadline.isSome := by
    intro e he
    have hlookup : m.lookup e.1 = some e.2 := AList.mem_lookup_iff.2 he
    rw [isArmed, hlookup, Option.any_some]
  rw [deadlines, List.length_filterMap_eq_countP, hkeys, ← List.countP_eq_length_filter,
    List.countP_map]
  exact List.countP_congr fun e he => by rw [Function.comp_apply, hentry e he]

/-! ### The invariant -/

/-- **The clocks of a call**, for a window of requests: those with a deadline are the first ones in
send order; a deadline is the one that was recorded; and no id is recorded twice. -/
structure Clocks (window : ℕ) (s : Serve) : Prop where
  started : s.exit = none → ∀ id, isArmed s.pending id = true ↔ id ∈ s.order.take window
  recorded : ∀ id p d, (id, d) ∈ s.armed → s.pending.lookup id = some p → p.deadline = some d
  known : ∀ id d, (id, d) ∈ s.armed →
    id ∈ s.accepted.map (·.id) ∧ ∀ pw ∈ s.pendingWrite, pw.id ≠ id
  once : (s.armed.map Prod.fst).Nodup
  sendOrder : (s.order ++ s.pendingWrite.toList.map (·.id)).Sublist (s.accepted.map (·.id))

theorem clocks_init (window : ℕ) : Clocks window {} := by
  refine ⟨fun _ id => ?_, nofun, nofun, .nil, .slnil⟩
  simp [isArmed]

section Invariant

variable {cfg : ServeCfg} {s : Serve}

theorem Ledger.nodup_order (h : Ledger s) (hexit : s.exit = none) : s.order.Nodup :=
  (h.order hexit).nodup_iff.2 s.pending.keys_nodup

theorem Ledger.mem_order_iff (h : Ledger s) (hexit : s.exit = none) {id : String} :
    id ∈ s.order ↔ id ∈ s.pending := by
  rw [(h.order hexit).mem_iff, AList.mem_keys]

/-- A request of the map was accepted, and is not the one being written. -/
theorem Ledger.known_of_mem (h : Ledger s) {id : String} (hid : id ∈ s.pending) :
    id ∈ s.accepted.map (·.id) ∧ ∀ pw ∈ s.pendingWrite, pw.id ≠ id := by
  have hkey := AList.mem_keys.1 hid
  refine ⟨h.conserved.mem_iff.2 (List.mem_append_right _ (List.mem_append_left _ hkey)), ?_⟩
  rintro pw hpw rfl
  have hnodup := (List.nodup_append.1 (h.conserved.nodup_iff.1 h.nodup)).2.1
  refine (List.nodup_append.1 hnodup).2.2 _ hkey _ ?_ rfl
  exact List.mem_map_of_mem (Option.mem_toList.2 hpw)

/-- The count that the loop starts from is the size of the window. -/
theorem Clocks.length_deadlines {window : ℕ} (h : Clocks window s) (hledger : Ledger s)
    (hexit : s.exit = none) : (deadlines s.pending).length = (s.order.take window).length := by
  have hperm : (s.pending.keys.filter (isArmed s.pending)).Perm (s.order.take window) := by
    refine (List.perm_ext_iff_of_nodup (s.pending.keys_nodup.filter _)
      (hledger.nodup_order hexit).take).2 fun id => ?_
    rw [List.mem_filter, h.started hexit, ← AList.mem_keys, ← hledger.mem_order_iff hexit]
    exact and_iff_right_of_imp List.mem_of_mem_take
  rw [Cpu.length_deadlines, hperm.length_eq]

/-- The staged requests are those after the window. -/
theorem Clocks.filter_isStaged {window : ℕ} (h : Clocks window s) (hledger : Ledger s)
    (hexit : s.exit = none) : s.order.filter (isStaged s.pending) = s.order.drop window := by
  have hpending : ∀ id ∈ s.order, isStaged s.pending id = !isArmed s.pending id :=
    fun id hid => isStaged_eq_not_isArmed ((hledger.mem_order_iff hexit).1 hid)
  have htake : (s.order.take window).filter (isStaged s.pending) = [] := by
    refine List.filter_eq_nil_iff.2 fun id hid => ?_
    rw [hpending id (List.mem_of_mem_take hid), (h.started hexit id).2 hid]
    exact Bool.false_ne_true
  have hdrop : (s.order.drop window).filter (isStaged s.pending) = s.order.drop window := by
    refine List.filter_eq_self.2 fun id hid => ?_
    have hnot : isArmed s.pending id = false := by
      refine Bool.eq_false_iff.2 fun harmed => ?_
      exact List.disjoint_take_drop (hledger.nodup_order hexit) le_rfl
        ((h.started hexit id).1 harmed) hid
    rw [hpending id (List.mem_of_mem_drop hid), hnot, Bool.not_false]
  calc s.order.filter (isStaged s.pending)
      = (s.order.take window ++ s.order.drop window).filter (isStaged s.pending) := by
        rw [List.take_append_drop]
    _ = s.order.drop window := by rw [List.filter_append, htake, hdrop, List.nil_append]

/-- **Arming widens the window** to as many requests as the child runs. -/
theorem Clocks.armStarted {window concurrency : ℕ} (h : Clocks window s) (hledger : Ledger s)
    (hexit : s.exit = none) (hle : window ≤ concurrency) (clock : String → ℕ) :
    Clocks concurrency (armStarted concurrency clock s) := by
  set running := (deadlines s.pending).length with hrunning
  have hnew : (armLoop concurrency clock s.order running s.pending).2.map Prod.fst =
      (s.order.drop window).take (concurrency - running) := by
    rw [map_fst_armLoop (hledger.nodup_order hexit), h.filter_isStaged hledger hexit]
  have hwindow : s.order.take window ++ (s.order.drop window).take (concurrency - running) =
      s.order.take concurrency := by
    rw [hrunning, h.length_deadlines hledger hexit]
    conv_rhs => rw [← List.take_append_drop window s.order, List.take_append]
    rw [List.take_of_length_le ((List.length_take_le _ _).trans hle)]
  have hstaged : ∀ {id d}, (id, d) ∈ (armLoop concurrency clock s.order running s.pending).2 →
      ∃ p, s.pending.lookup id = some p ∧ p.deadline = none :=
    fun hmem => isStaged_iff.1 (lookup_armLoop_of_mem _ _ hmem).1
  refine ⟨fun _ id => ?_, ?_, ?_, ?_, h.sendOrder⟩
  · show isArmed (armLoop concurrency clock s.order running s.pending).1 id = true ↔ _
    rw [isArmed_armLoop, hnew, h.started hexit, ← List.mem_append, hwindow]
    rfl
  · intro id p' d hmem hp'
    rcases List.mem_append.1 hmem with hold | hfresh
    · -- an old clock is the one that the loop found
      obtain ⟨p, hp, -⟩ := (armed_armLoop concurrency clock s.order running s.pending).lookup id p' hp'
      have hd := h.recorded id p d hold hp
      have hkept : (armLoop concurrency clock s.order running s.pending).1.lookup id = some p :=
        lookup_armLoop_of_armed s.order running hp hd
      cases hp'.symm.trans hkept
      exact hd
    · obtain ⟨-, p, hp, hd⟩ := lookup_armLoop_of_mem _ _ hfresh
      cases hp'.symm.trans hp
      exact hd
  · intro id d hmem
    rcases List.mem_append.1 hmem with hold | hfresh
    · exact h.known id d hold
    · obtain ⟨p, hp, -⟩ := hstaged hfresh
      exact hledger.known_of_mem (AList.lookup_isSome.1 (Option.isSome_of_eq_some hp))
  · show ((s.armed ++ (armLoop concurrency clock s.order running s.pending).2).map Prod.fst).Nodup
    rw [List.map_append, hnew]
    refine List.nodup_append.2 ⟨h.once, ?_, ?_⟩
    · exact ((hledger.nodup_order hexit).drop).take
    · intro id hid id' hid' heq
      subst heq
      obtain ⟨⟨_, d⟩, hold, rfl⟩ := List.mem_map.1 hid
      rw [← hnew] at hid'
      obtain ⟨⟨_, d'⟩, hfresh, heq⟩ := List.mem_map.1 hid'
      cases heq
      obtain ⟨p, hp, hnone⟩ := hstaged hfresh
      cases hnone.symm.trans (h.recorded _ p d hold hp)

theorem Clocks.loopTop {window : ℕ} (h : Clocks window s) (t : Turn) :
    Clocks window (loopTop cfg t s) :=
  ⟨h.started, h.recorded, h.known, h.once, h.sendOrder⟩

/-- A response takes a request out of the window, or from behind it. -/
theorem Clocks.answer {window : ℕ} (h : Clocks window s) (hexit : s.exit = none) {id : String}
    (l : String) (p : Pending) :
    Clocks ((s.order.take window).filter (· ≠ id)).length { s with
      pending := s.pending.erase id
      order := s.order.filter (· ≠ id)
      completed := s.completed + 1
      inflightCpu := s.inflightCpu - 1
      sent := s.sent ++ [(p.resp, .resp l)] } := by
  refine ⟨?_, ?_, h.known, h.once, ?_⟩
  · intro _ id'
    show isArmed (s.pending.erase id) id' = true ↔ id' ∈ (s.order.filter (· ≠ id)).take _
    rw [← filter_take_eq_take_filter, List.mem_filter, ← h.started hexit]
    by_cases hid : id' = id
    · subst hid
      simp [isArmed]
    · simp [isArmed, AList.lookup_erase_ne hid, hid]
  · exact fun id' p' d hmem hp' => h.recorded id' p' d hmem (AList.lookup_of_lookup_erase hp')
  · exact (List.filter_sublist.append (.refl _)).trans h.sendOrder

/-- After it the next staged requests start. -/
theorem Clocks.complete (h : Clocks cfg.concurrency s) (hledger : Ledger s) (hexit : s.exit = none)
    (t : Turn) {id : String} (l : String) {p : Pending} (hp : s.pending.lookup id = some p) :
    Clocks cfg.concurrency (complete cfg t id l p s).1 :=
  (h.answer hexit l p).armStarted (hledger.answer l hp) hexit
    ((List.length_filter_le _ _).trans (List.length_take_le _ _)) t.clock

theorem Clocks.accept {window : ℕ} (h : Clocks window s) {j : CpuJob}
    (hnew : j.id ∉ s.accepted.map (·.id)) (hnone : s.pendingWrite = none) :
    Clocks window (accept j s) := by
  have hsend := h.sendOrder
  rw [hnone, Option.toList_none, List.map_nil, List.append_nil] at hsend
  refine ⟨h.started, h.recorded, ?_, h.once, ?_⟩
  · intro id d hmem
    have hid := (h.known id d hmem).1
    refine ⟨?_, ?_⟩
    · show id ∈ (s.accepted ++ [j]).map (·.id)
      rw [List.map_append]
      exact List.mem_append_left _ hid
    · rintro pw ⟨⟩ rfl
      exact hnew hid
  · show (s.order ++ [j.id]).Sublist ((s.accepted ++ [j]).map (·.id))
    rw [List.map_append]
    exact hsend.append (.refl _)

/-- A request that is fully written is the last in send order, and not in the window yet. -/
theorem Clocks.written {window : ℕ} (h : Clocks window s) (hledger : Ledger s)
    (hexit : s.exit = none) {pw : PendingWrite} (hpw : s.pendingWrite = some pw) :
    Clocks (min window s.order.length) { s with
      pendingWrite := none
      inflightCpu := s.inflightCpu + 1
      order := s.order ++ [pw.id]
      pending := s.pending.insert pw.id ⟨pw.resp, pw.timeoutMs, none⟩ } := by
  have hsend := h.sendOrder
  rw [hpw] at hsend
  refine ⟨?_, ?_, fun id d hmem => ⟨(h.known id d hmem).1, nofun⟩, h.once, ?_⟩
  · intro _ id
    show isArmed (s.pending.insert pw.id _) id = true ↔ id ∈ (s.order ++ [pw.id]).take _
    rw [List.take_append_of_le_length (min_le_right _ _), ← List.take_eq_take_min,
      ← h.started hexit]
    by_cases hid : id = pw.id
    · subst hid
      have hnot : s.pending.lookup pw.id = none :=
        AList.lookup_eq_none.2 fun hin => hledger.notMem_of_writing hpw (AList.mem_keys.1 hin)
      simp [isArmed, hnot]
    · rw [isArmed_insert_ne hid]
  · intro id p d hmem hp
    have hne : id ≠ pw.id := ((h.known id d hmem).2 pw hpw).symm
    exact h.recorded id p d hmem (by rwa [AList.lookup_insert_ne hne] at hp)
  · show (s.order ++ [pw.id] ++ []).Sublist (s.accepted.map CpuJob.id)
    rw [List.append_nil]
    exact hsend

theorem Clocks.advanceWrite (h : Clocks cfg.concurrency s) (hledger : Ledger s)
    (hexit : s.exit = none) (t : Turn) (n : ℕ) {pw : PendingWrite} (hpw : s.pendingWrite = some pw) :
    Clocks cfg.concurrency (advanceWrite cfg t n pw s) := by
  unfold Cpu.advanceWrite
  split_ifs
  · exact (h.written hledger hexit hpw).armStarted (hledger.written hpw) hexit (min_le_left _ _)
      t.clock
  · have hsend := h.sendOrder
    rw [hpw] at hsend
    refine ⟨h.started, h.recorded, fun id d hmem => ⟨(h.known id d hmem).1, ?_⟩, h.once, hsend⟩
    rintro pw' ⟨⟩
    exact (h.known id d hmem).2 pw hpw

theorem Clocks.loseWrite {window : ℕ} (h : Clocks window s) (pw : PendingWrite) :
    Clocks window (loseWrite pw s) := by
  refine ⟨h.started, h.recorded, fun id d hmem => ⟨(h.known id d hmem).1, nofun⟩, h.once, ?_⟩
  show (s.order ++ []).Sublist (s.accepted.map CpuJob.id)
  exact ((List.Sublist.refl s.order).append (List.nil_sublist _)).trans h.sendOrder

theorem Clocks.drain {window : ℕ} (h : Clocks window s) (gone : ChildGone) (now : ℕ) :
    Clocks window (drain gone now s) := by
  refine ⟨nofun, nofun, fun id d hmem => ⟨(h.known id d hmem).1, nofun⟩, h.once, ?_⟩
  show (s.order ++ []).Sublist (s.accepted.map CpuJob.id)
  exact ((List.Sublist.refl s.order).append (List.nil_sublist _)).trans h.sendOrder

/-! ### The runs -/

theorem Clocks.select {idOf : String → Option String} {t : Turn} {s' : Serve}
    {gone : Option ChildGone} (h : Clocks cfg.concurrency s) (hledger : Ledger s)
    (hexit : s.exit = none) (hfresh : freshId s t = true)
    (hstep : select idOf cfg t s = some (s', gone)) : Clocks cfg.concurrency s' := by
  rcases select_cases hstep with ⟨rfl, -⟩ | ⟨id, l, p, hp, rfl, -⟩ | ⟨j, hj, htake, rfl, -⟩ |
    ⟨n, pw, hpw, rfl, -⟩ | ⟨pw, hpw, rfl, -⟩
  · exact h
  · exact h.complete hledger hexit t l hp
  · unfold freshId at hfresh
    rw [hj] at hfresh
    exact h.accept (of_decide_eq_true hfresh) (pendingWrite_of_mayTake htake)
  · exact h.advanceWrite hledger hexit t n hpw
  · exact h.loseWrite pw

/-- **A turn of the loop keeps the clocks.** -/
theorem Clocks.step {idOf : String → Option String} {t : Turn} {s' : Serve}
    (h : Clocks cfg.concurrency s) (hledger : Ledger s) (hfresh : freshId s t = true)
    (hstep : serveStep idOf cfg s t = some s') : Clocks cfg.concurrency s' := by
  obtain ⟨hexit, hcases⟩ := serveStep_cases hstep
  have htop := hledger.loopTop hexit cfg t
  rcases hcases with ⟨hselect, -⟩ | ⟨gone, s₁, hselect, rfl⟩
  · exact (h.loopTop t).select htop hexit hfresh hselect
  · exact ((h.loopTop t).select htop hexit hfresh hselect).drain gone t.now

/-- The record of the clocks only grows. -/
theorem armed_prefix_of_select {idOf : String → Option String} {t : Turn} {s' : Serve}
    {gone : Option ChildGone} (hselect : select idOf cfg t s = some (s', gone)) :
    s.armed <+: s'.armed := by
  rcases select_cases hselect with ⟨rfl, -⟩ | ⟨id, l, p, hp, rfl, -⟩ | ⟨j, hj, htake, rfl, -⟩ |
    ⟨n, pw, hpw, rfl, -⟩ | ⟨pw, hpw, rfl, -⟩
  · exact List.prefix_rfl
  · exact List.prefix_append _ _
  · exact List.prefix_rfl
  · unfold Cpu.advanceWrite
    split_ifs
    · exact List.prefix_append _ _
    · exact List.prefix_rfl
  · exact List.prefix_rfl

theorem armed_prefix_of_step {idOf : String → Option String} {t : Turn} {s' : Serve}
    (hstep : serveStep idOf cfg s t = some s') : s.armed <+: s'.armed := by
  have htop : (Cpu.loopTop cfg t s).armed = s.armed := rfl
  rw [← htop]
  obtain ⟨-, ⟨hselect, -⟩ | ⟨gone, s₁, hselect, rfl⟩⟩ := serveStep_cases hstep
  · exact armed_prefix_of_select hselect
  · have hgrows : _ <+: s₁.armed := armed_prefix_of_select hselect
    exact hgrows

end Invariant

theorem clocks_of_reachable {idOf : String → Option String} {cfg : ServeCfg} {s : Serve}
    (h : (serveSystem idOf cfg).Reachable (fun s t => freshId s t = true) s) :
    Ledger s ∧ Clocks cfg.concurrency s := by
  refine h.invariant (I := fun s => Ledger s ∧ Clocks cfg.concurrency s) ?_
    fun s t s' hs hfresh hstep => ⟨hs.1.step hfresh hstep, hs.2.step hs.1 hfresh hstep⟩
  rintro s rfl
  exact ⟨ledger_init, clocks_init _⟩

/-- **Hard timeouts run on the started requests only.** In every state of every run whose job ids are
new: while the call runs, `order` lists the pending requests in the order they were sent, and those
with a deadline are its first `concurrency`, or all of them if there are fewer; no id is armed twice;
a pending request has the deadline that was recorded for it, if any; and whatever the call does next,
it keeps that deadline for as long as it is pending. -/
theorem clocks_run_on_started {idOf : String → Option String} {cfg : ServeCfg} {s : Serve}
    (h : (serveSystem idOf cfg).Reachable (fun s t => freshId s t = true) s) :
    (s.exit = none →
      s.order.Sublist (s.accepted.map CpuJob.id) ∧ s.order.Perm s.pending.keys ∧
      ∀ id, (∃ p d, s.pending.lookup id = some p ∧ p.deadline = some d) ↔
        id ∈ s.order.take (min cfg.concurrency s.pending.keys.length)) ∧
    (s.armed.map Prod.fst).Nodup ∧
    (∀ id p d, s.pending.lookup id = some p → (p.deadline = some d ↔ (id, d) ∈ s.armed)) ∧
    ∀ s', (serveSystem idOf cfg).Reach (fun s t => freshId s t = true) s s' →
      ∀ id p p' d, s.pending.lookup id = some p → p.deadline = some d →
        s'.pending.lookup id = some p' → p'.deadline = some d := by
  obtain ⟨hledger, hclocks⟩ := clocks_of_reachable h
  refine ⟨fun hexit => ⟨?_, hledger.order hexit, fun id => ?_⟩, hclocks.once, ?_, ?_⟩
  · exact (List.sublist_append_left _ _).trans hclocks.sendOrder
  · rw [← isArmed_iff, hclocks.started hexit, ← (hledger.order hexit).length_eq,
      ← List.take_eq_take_min]
  · intro id p d hp
    exact ⟨hledger.armed id p d hp, fun hmem => hclocks.recorded id p d hmem hp⟩
  · intro s' hreach id p p' d hp hd hp'
    have hrecord : (id, d) ∈ s'.armed := by
      refine hreach.invariant (I := fun u => (id, d) ∈ u.armed) (hledger.armed id p d hp hd) ?_
      exact fun u t u' hmem _ hstep => (armed_prefix_of_step hstep).subset hmem
    exact (clocks_of_reachable (h.trans hreach)).2.recorded id p' d hrecord hp'

/-- Three requests for a child with two threads; the first answer starts the third. -/
def threeRequests : List Turn :=
  [{ event := .job ⟨"a", "r", 5⟩ }, { event := .wrote 2, clock := fun _ => 1 },
    { event := .job ⟨"b", "r", 5⟩ }, { event := .wrote 2, clock := fun _ => 2 },
    { event := .job ⟨"c", "r", 5⟩ }, { event := .wrote 2, clock := fun _ => 3 },
    { event := .line "a", clock := fun _ => 9 }]

theorem clocks_run_on_started_three :
    let cfg : ServeCfg := ⟨2, 0, 2⟩
    let s := ((serveSystem some cfg).runIf freshId {} threeRequests).getD {}
    s.exit = none ∧ s.armed = [("a", 6), ("b", 7), ("c", 14)] ∧ s.order = ["b", "c"] ∧
      (∃ p d, s.pending.lookup "c" = some p ∧ p.deadline = some d) ∧
      (s.armed.map Prod.fst).Nodup := by
  intro cfg s
  have hs : (serveSystem some cfg).Reachable (fun s t => freshId s t = true) s :=
    Transition.System.reachable_runIf rfl (by decide +kernel)
  obtain ⟨hstarted, honce, -⟩ := clocks_run_on_started hs
  have hexit : s.exit = none := by decide +kernel
  refine ⟨hexit, by decide +kernel, by decide +kernel, ?_, honce⟩
  exact ((hstarted hexit).2.2 "c").2 (by decide +kernel)

end Cauli.Cpu
