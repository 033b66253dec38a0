import Cauli.Queue.Invariant

/-!
# No silent loss, and trim safety

* `Placed`: the places a task can be in;
* `no_silent_loss`: in every reachable state every accepted task is placed, or was dead lettered
  and then dropped by the retention of the dead letter stream;
* `trim_keeps_live`: an XTRIM of the trim loop removes nothing that is undelivered or pending.
-/

namespace Cauli

open GroupStream Transition

variable {Raw : Type}

section
variable (C : Codec Raw) (b : Broker Raw) (t : String)

/-- In the stream and not delivered. -/
def Undelivered : Prop :=
  ∃ e ∈ b.stream.entries, b.stream.lastDelivered < e.id ∧ C.Of t e.value

/-- Pending, with the payload still in the stream. -/
def PendingWithPayload : Prop :=
  ∃ e ∈ b.stream.entries, (∃ p ∈ b.stream.pel, p.id = e.id) ∧ C.Of t e.value

/-- In the delayed set. -/
def InDelayed : Prop := ∃ p ∈ b.delayed, C.task p.1 = t

/-- In the dead letter stream. -/
def InDlq : Prop := ∃ d ∈ b.dlq, d.Holds C t

/-- All own writes of a success or duplicate completion were accepted. -/
def Completed : Prop := ∃ v ∈ b.completed, C.Of t v

/-- The places of a task that is not lost. -/
def Placed : Prop :=
  Undelivered C b t ∨ PendingWithPayload C b t ∨ InDelayed C b t ∨ InDlq C b t ∨ Completed C b t

/-- Dead lettered, and dropped since by `MAXLEN` or by the expiry of the dead letter stream. -/
def DroppedByRetention : Prop := ∃ d ∈ b.dropped, d.Holds C t

end

variable {C : Codec Raw} {b : Broker Raw} {t : String}

theorem placed_of_anchored {x : StreamId} (h : Anchored C b t x) :
    Placed C b t ∨ DroppedByRetention C b t := by
  rcases h with (h | (h | h) | h) | ⟨e, he, hv, -⟩
  · exact Or.inl (Or.inr (Or.inr (Or.inr (Or.inr h))))
  · exact Or.inl (Or.inr (Or.inr (Or.inr (Or.inl h))))
  · exact Or.inr h
  · exact Or.inl (Or.inr (Or.inr (Or.inl h)))
  · rcases Stream.live_iff.1 he with ⟨hmem, hlt | hp⟩
    · exact Or.inl (Or.inl ⟨e, hmem, hlt, hv⟩)
    · exact Or.inl (Or.inr (Or.inl ⟨e, hmem, hp, hv⟩))

section
variable [DecidableEq Raw] {S : ℕ → Settings} {s s' : QueueState Raw}

/-- **No silent loss.** -/
theorem no_silent_loss (hs : (queueSystem C S).Reachable System.anyStep s) {r : Raw}
    (hr : r ∈ s.broker.accepted) :
    Placed C s.broker (C.task r) ∨ DroppedByRetention C s.broker (C.task r) :=
  placed_of_anchored ((queueOk_of_reachable hs).accepted r hr)

/-- **Trim safety.** -/
theorem trim_keeps_live (hs : (queueSystem C S).Reachable System.anyStep s) {w : ℕ}
    (hstep : (queueSystem C S).step s (.work w .trimRun) = some s') {e : Entry (Option Raw)}
    (he : e ∈ s.broker.stream.entries)
    (hlive : s.broker.stream.lastDelivered < e.id ∨ ∃ p ∈ s.broker.stream.pel, p.id = e.id) :
    e ∈ s'.broker.stream.entries := by
  obtain ⟨⟨b', W'⟩, hwork, rfl⟩ := Option.map_eq_some_iff.1 hstep
  have hW := (queueOk_of_reachable hs).workers w
  cases move_of_workerStep hwork with
  | trimRun ht =>
    have htrim := hW.trim
    rw [ht] at htrim
    refine List.mem_filter.2 ⟨he, ?_⟩
    by_contra hlt
    have hsettled := htrim e.id (by simpa using hlt)
    exact (Stream.live_iff.2 ⟨he, hlive⟩).2 hsettled

end

/-! ### Runs on a token -/

/-- An id with sequence number 0. -/
def entryId (ms : ℕ) : StreamId :=
  ⟨ms % 2 ^ 64, 0, Nat.mod_lt _ StreamId.zero_lt, StreamId.zero_lt⟩

/-- The queue on tokens, with the default settings. -/
def tokenSystem : System (QueueState Token) (QueueLabel Token) :=
  queueSystem tokenCodec fun _ => {}

/-- A task without retries. -/
def oneShot : Token := { id := "0123456789abcdef0123456789abcdef", maxRetries := 0 }

/-- Worker `w` takes the next entry of the stream up to the executor call. -/
def deliver (w : ℕ) : List (QueueLabel Token) :=
  [.work w (.fetch 1 false), .work w .fetchReply, .work w (.poll 0), .work w (.process 0 0 none)]

/-- The task fails for good, its dead letter is written and its entry acked and deleted. -/
def deadLetter (w : ℕ) : List (QueueLabel Token) :=
  [.work w (.finish 0 (.failure (.new "ValueError" "bad") false) 0 0), .work w (.flushStart 1),
   .work w (.flushWrite true 0), .work w (.flushWrite true 0), .work w (.flushWrite true 0),
   .work w .flushReplied, .work w .flushAck, .work w .flushDel]

theorem no_silent_loss_dead_letter :
    ∃ s : QueueState Token, oneShot ∈ s.broker.accepted ∧ s.broker.stream.entries.length = 0 ∧
      (Placed tokenCodec s.broker oneShot.id ∨ DroppedByRetention tokenCodec s.broker oneShot.id) := by
  let l := .env (.enqueue (entryId 1) oneShot) :: (deliver 0 ++ deadLetter 0)
  have hs : tokenSystem.Reachable System.anyStep ((tokenSystem.run {} l).getD {}) :=
    System.reachable_getD rfl (fun _ _ _ => trivial) rfl
  exact ⟨_, List.mem_cons_self, rfl, no_silent_loss (r := oneShot) hs List.mem_cons_self⟩

/-- Seven days after its last dead letter the dead letter stream is gone, and the task with it. -/
theorem dead_letter_expires :
    ¬ ∀ s : QueueState Token, tokenSystem.Reachable System.anyStep s →
      ∀ r ∈ s.broker.accepted, Placed tokenCodec s.broker (tokenCodec.task r) := by
  intro h
  let l := .env (.enqueue (entryId 1) oneShot) :: (deliver 0 ++ deadLetter 0 ++
    [.env (.tick (1000 * DLQ_TTL_S + 1))])
  have hs : tokenSystem.Reachable System.anyStep ((tokenSystem.run {} l).getD {}) :=
    System.reachable_getD rfl (fun _ _ _ => trivial) rfl
  have hentries : ((tokenSystem.run {} l).getD {}).broker.stream.entries = [] := rfl
  have hdelayed : ((tokenSystem.run {} l).getD {}).broker.delayed = [] := rfl
  have hdlq : ((tokenSystem.run {} l).getD {}).broker.dlq = [] := rfl
  have hcompleted : ((tokenSystem.run {} l).getD {}).broker.completed = [] := rfl
  have hplaced := h _ hs oneShot List.mem_cons_self
  simp [Placed, Undelivered, PendingWithPayload, InDelayed, InDlq, Completed, hentries, hdelayed,
    hdlq, hcompleted] at hplaced

/-- Two tasks; the flush of the first is cut between XACK and XDEL while the second runs, and worker 1
has computed its boundary. -/
def tornFlush : List (QueueLabel Token) :=
  [.env (.enqueue (entryId 1) oneShot), .env (.enqueue (entryId 2) oneShot)] ++ deliver 0 ++
    (deadLetter 0).dropLast ++ [.work 0 .flushCut] ++ deliver 1 ++
    [.work 1 .trimInfo, .work 1 .trimPending]

/-- The trim removes the orphan and keeps the entry that is still running. -/
theorem trim_keeps_live_torn_flush :
    ∃ s s' : QueueState Token, tokenSystem.step s (.work 1 .trimRun) = some s' ∧
      s.broker.stream.entries.length = 2 ∧ s'.broker.stream.entries.length = 1 ∧
      ⟨entryId 2, some oneShot⟩ ∈ s'.broker.stream.entries := by
  let s := (tokenSystem.run {} tornFlush).getD {}
  have hs : tokenSystem.Reachable System.anyStep s :=
    System.reachable_getD rfl (fun _ _ _ => trivial) (by decide +kernel)
  have hlen : (tokenSystem.step s (.work 1 .trimRun)).map (·.broker.stream.entries.length) =
      some 1 := by decide +kernel
  obtain ⟨s', hs', hlen'⟩ := Option.map_eq_some_iff.1 hlen
  refine ⟨s, s', hs', by decide +kernel, hlen', ?_⟩
  exact trim_keeps_live hs hs' (by decide +kernel) (Or.inr (by decide +kernel))

end Cauli
