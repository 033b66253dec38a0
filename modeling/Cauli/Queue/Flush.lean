import Mathlib.Data.List.Basic

/-!
# One flush of the completion buffer (`worker/src/broker.rs`)

`flush_batch` sends the own commands of all requests as one pipeline, attributes the replies back to
the requests through a list of owners, answers the refused requests, and acknowledges the others in
a second pipeline. What Redis answers is the input here, the events of the flush are the output.

* `gather`: the loop that flattens the batch;
* `mark`: one reply, attributed to the request that owns it;
* `flushBatch`, `ackPipeline`: the two round trips;
* `ownReplies`, `wrote`: which replies are a request's own, and whether all its commands succeeded;
* `flush_acks_what_was_written`: the acknowledged entries are those whose commands all succeeded, and
  every request is answered once.

Redis errors have an arbitrary type, and a command is the list of its arguments. The own commands of
the completions are built in `Cauli.Queue.Completion`.
-/

namespace Cauli

/-- A command. -/
abbrev Cmd := List String

/-- A buffered completion: its entry and its own commands. -/
structure AckReq where
  streamId : String
  extra : List Cmd

/-- The key of a queue's stream. -/
def qKey (queue : String) : String := "cauli:q:" ++ queue

section Flush

variable {E : Type}

/-- A request of the batch, where its answer goes, and what became of its writes. -/
structure Slot (E : Type) where
  streamId : String
  done : ℕ
  outcome : Except E Unit

/-- What a flush does. -/
inductive FlushEvent (E : Type)
  | writes (cmds : List Cmd)
  | acks (pipe : List Cmd)
  | answered (done : ℕ) (outcome : Except E Unit)

/-- Success. -/
def isOk : Except E Unit → Bool
  | .ok () => true
  | .error _ => false

/-- What the first loop collects. -/
structure Gathered (E : Type) where
  cmds : List Cmd
  owner : List ℕ
  reqs : List (Slot E)

/-- The first loop of `flush_batch`, from request `i` on. -/
def gather : ℕ → List AckReq → Gathered E
  | _, [] => ⟨[], [], []⟩
  | i, req :: rest =>
    let g := gather (i + 1) rest
    ⟨req.extra ++ g.cmds, List.replicate req.extra.length i ++ g.owner,
      ⟨req.streamId, i, .ok ()⟩ :: g.reqs⟩

/-- The first error stays. -/
def keepFirst (outcome reply : Except E Unit) : Except E Unit :=
  match reply, outcome with
  | .error e, .ok () => .error e
  | _, o => o

/-- One reply, attributed to its owner. -/
def mark (reqs : List (Slot E)) (reply : ℕ × Except E Unit) : List (Slot E) :=
  reqs.modify reply.1 fun r => { r with outcome := keepFirst r.outcome reply.2 }

/-- XACK then XDEL, never the reverse. -/
def ackPipeline (queue : String) (streamIds : List String) : List Cmd :=
  ["XACK" :: qKey queue :: "cauli" :: streamIds, "XDEL" :: qKey queue :: streamIds]

/-- The requests after the first round trip. Without any command there is none. -/
def afterWrites (batch : List AckReq) (write : Except E (List (Except E Unit))) : List (Slot E) :=
  let g : Gathered E := gather 0 batch
  if g.owner = [] then g.reqs
  else
    match write with
    | .ok replies => (g.owner.zip replies).foldl mark g.reqs
    | .error e => g.reqs.map fun r => { r with outcome := .error e }

/-- `flush_batch`. `write` is what the pipeline of the writes answers, if it is sent, and `ack` what
the pipeline of the acks answers. -/
def flushBatch (queue : String) (batch : List AckReq) (write : Except E (List (Except E Unit)))
    (ack : Except E Unit) : List (FlushEvent E) :=
  let g : Gathered E := gather 0 batch
  let reqs := afterWrites batch write
  let written := reqs.filter fun r => isOk r.outcome
  let refused := reqs.filter fun r => !isOk r.outcome
  (if g.owner = [] then [] else [.writes g.cmds]) ++
    refused.map (fun r => .answered r.done r.outcome) ++
    if written = [] then []
    else
      .acks (ackPipeline queue (written.map (·.streamId))) ::
        written.map fun r => .answered r.done ack

/-! ### Whose replies are whose -/

/-- The replies of each request: the pipeline answers in order, so a request's own replies follow
those of the requests before it. -/
def ownReplies : List AckReq → List (Except E Unit) → List (List (Except E Unit))
  | [], _ => []
  | req :: rest, replies =>
    replies.take req.extra.length :: ownReplies rest (replies.drop req.extra.length)

/-- Whether all own commands of each request succeeded. Without any command no pipeline is sent. -/
def wrote (batch : List AckReq) (write : Except E (List (Except E Unit))) : List Bool :=
  if batch.all fun req => req.extra.isEmpty then batch.map fun _ => true
  else
    match write with
    | .ok replies => (ownReplies batch replies).map fun own => own.all isOk
    | .error _ => batch.map fun _ => false

theorem modify_length_append {α : Type} (l : List α) (a : α) (l' : List α) (f : α → α) :
    (l ++ a :: l').modify l.length f = l ++ f a :: l' := by
  induction l with
  | nil => rfl
  | cons b l ih =>
    rw [List.cons_append, List.length_cons, List.modify_succ_cons, ih]
    rfl

theorem zip_replicate_length {α β : Type} (a : α) (l : List β) :
    (List.replicate l.length a).zip l = l.map fun b => (a, b) := by
  induction l with
  | nil => rfl
  | cons b l ih => rw [List.length_cons, List.replicate_succ, List.zip_cons_cons, ih, List.map_cons]

/-- The replies of one request. -/
theorem foldl_mark_block (before : List (Slot E)) (r : Slot E) (after : List (Slot E))
    (replies : List (Except E Unit)) :
    (replies.map fun reply => (before.length, reply)).foldl mark (before ++ r :: after) =
      before ++ { r with outcome := replies.foldl keepFirst r.outcome } :: after := by
  induction replies generalizing r with
  | nil => rfl
  | cons reply replies ih =>
    rw [List.map_cons, List.foldl_cons, mark, modify_length_append, ih, List.foldl_cons]

/-- The requests with what their own replies say. -/
def settle : ℕ → List AckReq → List (Except E Unit) → List (Slot E)
  | _, [], _ => []
  | i, req :: rest, replies =>
    ⟨req.streamId, i, (replies.take req.extra.length).foldl keepFirst (.ok ())⟩ ::
      settle (i + 1) rest (replies.drop req.extra.length)

/-- **Every reply reaches the request whose command it answers.** -/
theorem foldl_mark_gather (before : List (Slot E)) (batch : List AckReq)
    (replies : List (Except E Unit))
    (hlen : replies.length = (batch.flatMap (·.extra)).length) :
    ((gather before.length batch : Gathered E).owner.zip replies).foldl mark
        (before ++ (gather before.length batch : Gathered E).reqs) =
      before ++ settle before.length batch replies := by
  induction batch generalizing before replies with
  | nil =>
    rfl
  | cons req rest ih =>
    rw [List.flatMap_cons, List.length_append] at hlen
    have hown : (replies.take req.extra.length).length = req.extra.length := by
      rw [List.length_take]
      omega
    have hzip : (List.replicate req.extra.length before.length ++
        (gather (before.length + 1) rest : Gathered E).owner).zip replies =
        ((replies.take req.extra.length).map fun reply => (before.length, reply)) ++
          (gather (before.length + 1) rest : Gathered E).owner.zip
            (replies.drop req.extra.length) := by
      have hblock : (List.replicate req.extra.length before.length).zip
          (replies.take req.extra.length) =
          (replies.take req.extra.length).map fun reply => (before.length, reply) := by
        have h := zip_replicate_length before.length (replies.take req.extra.length)
        rwa [hown] at h
      conv_lhs => rw [← List.take_append_drop req.extra.length replies]
      rw [List.zip_append (by rw [List.length_replicate, hown]), hblock]
    show (List.zip (_ ++ _) replies).foldl mark _ = _
    rw [hzip, List.foldl_append]
    show List.foldl mark
      (List.foldl mark (before ++ ⟨req.streamId, before.length, .ok ()⟩ :: _) _) _ = _
    rw [foldl_mark_block]
    have hrest := ih (before ++ [⟨req.streamId, before.length,
      (replies.take req.extra.length).foldl keepFirst (.ok ())⟩]) (replies.drop req.extra.length)
      (by rw [List.length_drop]; omega)
    rw [List.length_append, List.length_singleton, List.append_assoc, List.append_assoc] at hrest
    exact hrest

/-! ### The requests after the first round trip -/

theorem gather_owner_eq_nil_iff (n : ℕ) (batch : List AckReq) :
    (gather n batch : Gathered E).owner = [] ↔
      (batch.all fun req => req.extra.isEmpty) = true := by
  induction batch generalizing n with
  | nil => simp [gather]
  | cons req rest ih =>
    show List.replicate req.extra.length n ++ (gather (n + 1) rest : Gathered E).owner = [] ↔ _
    rw [List.append_eq_nil_iff, ih, List.replicate_eq_nil_iff, List.length_eq_zero_iff,
      List.all_cons, Bool.and_eq_true, List.isEmpty_iff]

/-- The slots of a batch, numbered from `n`, with the given successes. -/
structure Numbered (n : ℕ) (batch : List AckReq) (oks : List Bool) (reqs : List (Slot E)) :
    Prop where
  done : reqs.map (·.done) = List.range' n batch.length
  streamId : reqs.map (·.streamId) = batch.map (·.streamId)
  oks : reqs.map (fun r => isOk r.outcome) = oks

theorem Numbered.nil (n : ℕ) : Numbered n [] [] ([] : List (Slot E)) :=
  ⟨rfl, rfl, rfl⟩

theorem Numbered.cons {n : ℕ} {batch : List AckReq} {oks : List Bool} {reqs : List (Slot E)}
    (req : AckReq) (outcome : Except E Unit) (h : Numbered (n + 1) batch oks reqs) :
    Numbered n (req :: batch) (isOk outcome :: oks) (⟨req.streamId, n, outcome⟩ :: reqs) := by
  constructor
  · rw [List.map_cons, h.done, List.length_cons, List.range'_succ]
  · rw [List.map_cons, h.streamId, List.map_cons]
  · rw [List.map_cons, h.oks]

theorem numbered_gather (n : ℕ) (batch : List AckReq) :
    Numbered n batch (batch.map fun _ => true) (gather n batch : Gathered E).reqs := by
  induction batch generalizing n with
  | nil => exact .nil n
  | cons req rest ih => exact (ih (n + 1)).cons req (.ok ())

/-- A request keeps its success as long as its own replies are successes. -/
theorem isOk_foldl_keepFirst (outcome : Except E Unit) (own : List (Except E Unit)) :
    isOk (own.foldl keepFirst outcome) = (isOk outcome && own.all isOk) := by
  induction own generalizing outcome with
  | nil => simp
  | cons reply own ih =>
    rw [List.foldl_cons, ih, List.all_cons, ← Bool.and_assoc]
    congr 1
    cases reply <;> cases outcome <;> rfl

theorem numbered_settle (n : ℕ) (batch : List AckReq) (replies : List (Except E Unit)) :
    Numbered n batch ((ownReplies batch replies).map fun own => own.all isOk)
      (settle n batch replies) := by
  induction batch generalizing n replies with
  | nil => exact .nil n
  | cons req rest ih =>
    have h := (ih (n + 1) (replies.drop req.extra.length)).cons req
      ((replies.take req.extra.length).foldl keepFirst (.ok ()))
    rw [isOk_foldl_keepFirst] at h
    exact h

/-- **After the first round trip every request knows whether its own commands succeeded.** -/
theorem numbered_afterWrites (batch : List AckReq) (write : Except E (List (Except E Unit)))
    (hreplies : ∀ replies, write = .ok replies →
      replies.length = (batch.flatMap (·.extra)).length) :
    Numbered 0 batch (wrote batch write) (afterWrites batch write) := by
  unfold afterWrites wrote
  by_cases hnone : (batch.all fun req => req.extra.isEmpty) = true
  · rw [if_pos ((gather_owner_eq_nil_iff 0 batch).2 hnone), if_pos hnone]
    exact numbered_gather 0 batch
  · rw [if_neg (mt (gather_owner_eq_nil_iff 0 batch).1 hnone), if_neg hnone]
    cases write with
    | ok replies =>
      have h := foldl_mark_gather [] batch replies (hreplies replies rfl)
      rw [List.length_nil, List.nil_append, List.nil_append] at h
      show Numbered 0 batch _ (List.foldl mark _ _)
      rw [h]
      exact numbered_settle 0 batch replies
    | error e =>
      have h := numbered_gather (E := E) 0 batch
      constructor
      · rw [List.map_map]
        exact h.done
      · rw [List.map_map]
        exact h.streamId
      · have hlen : (gather 0 batch : Gathered E).reqs.length = batch.length := by
          have := congrArg List.length h.streamId
          rwa [List.length_map, List.length_map] at this
        rw [List.map_map]
        show List.map (fun _ => false) _ = _
        rw [List.map_const', List.map_const', hlen]

/-! ### What a flush does -/

/-- The acks among the events. -/
def ackPipes (events : List (FlushEvent E)) : List (List Cmd) :=
  events.filterMap fun
    | .acks pipe => some pipe
    | _ => none

/-- The answers to request `i` among the events. -/
def answersTo (i : ℕ) (events : List (FlushEvent E)) : List (Except E Unit) :=
  events.filterMap fun
    | .answered done outcome => if done = i then some outcome else none
    | _ => none

/-- The entries whose own commands all succeeded, in batch order. -/
def writtenIds (batch : List AckReq) (write : Except E (List (Except E Unit))) : List String :=
  ((batch.zip (wrote batch write)).filter (·.2)).map (·.1.streamId)

@[simp] theorem ackPipes_append (events events' : List (FlushEvent E)) :
    ackPipes (events ++ events') = ackPipes events ++ ackPipes events' :=
  List.filterMap_append

@[simp] theorem answersTo_append (i : ℕ) (events events' : List (FlushEvent E)) :
    answersTo i (events ++ events') = answersTo i events ++ answersTo i events' :=
  List.filterMap_append

theorem ackPipes_answered (reqs : List (Slot E)) (g : Slot E → Except E Unit) :
    ackPipes (reqs.map fun r => .answered r.done (g r)) = [] := by
  induction reqs with
  | nil => rfl
  | cons r reqs ih => exact ih

theorem answersTo_answered (i : ℕ) (reqs : List (Slot E)) (g : Slot E → Except E Unit) :
    answersTo i (reqs.map fun r => .answered r.done (g r)) =
      (reqs.filter fun r => r.done = i).map g := by
  induction reqs with
  | nil => rfl
  | cons r reqs ih =>
    have hcons : answersTo i (.answered r.done (g r) ::
        reqs.map fun r => .answered r.done (g r)) =
        (if r.done = i then [g r] else []) ++ (reqs.filter fun r => r.done = i).map g := by
      rw [← ih]
      by_cases h : r.done = i <;> simp [answersTo, h]
    rw [List.map_cons, hcons]
    by_cases h : r.done = i
    · rw [if_pos h, List.filter_cons_of_pos (by simpa using h), List.map_cons]
      rfl
    · rw [if_neg h, List.filter_cons_of_neg (by simpa using h)]
      rfl

/-- A number below the length names one slot. -/
theorem Numbered.filter_done {n : ℕ} {batch : List AckReq} {oks : List Bool} {reqs : List (Slot E)}
    (h : Numbered n batch oks reqs) (i : ℕ) :
    reqs.filter (fun r => r.done = n + i) = reqs[i]?.toList := by
  have hdone := h.done
  have hlen : batch.length = reqs.length := by
    have := congrArg List.length hdone
    rw [List.length_map, List.length_range'] at this
    exact this.symm
  rw [hlen] at hdone
  clear h hlen
  induction reqs generalizing n i with
  | nil => rfl
  | cons r reqs ih =>
    rw [List.map_cons, List.length_cons, List.range'_succ, List.cons.injEq] at hdone
    obtain ⟨hr, hreqs⟩ := hdone
    cases i with
    | zero =>
      have hrest : reqs.filter (fun r => r.done = n + 0) = [] := by
        rw [List.filter_eq_nil_iff]
        intro s hs
        have hmem : s.done ∈ List.range' (n + 1) reqs.length := by
          rw [← hreqs]
          exact List.mem_map_of_mem hs
        rw [List.mem_range'_1] at hmem
        simp only [decide_eq_true_eq]
        omega
      rw [List.filter_cons_of_pos (by simpa using hr), hrest]
      rfl
    | succ i =>
      have hi := ih i hreqs
      rw [Nat.add_assoc, Nat.add_comm 1 i] at hi
      rw [List.filter_cons_of_neg (by simp only [decide_eq_true_eq]; omega), hi,
        List.getElem?_cons_succ]

theorem Numbered.length_eq {n : ℕ} {batch : List AckReq} {oks : List Bool} {reqs : List (Slot E)}
    (h : Numbered n batch oks reqs) : reqs.length = batch.length := by
  have := congrArg List.length h.done
  rwa [List.length_map, List.length_range'] at this

/-- The acknowledged entries, read off the batch. -/
theorem Numbered.map_filter {n : ℕ} {batch : List AckReq} {oks : List Bool} {reqs : List (Slot E)}
    (h : Numbered n batch oks reqs) :
    (reqs.filter fun r => isOk r.outcome).map (·.streamId) =
      ((batch.zip oks).filter (·.2)).map (·.1.streamId) := by
  obtain ⟨-, hid, rfl⟩ := h
  induction reqs generalizing batch with
  | nil =>
    rw [List.map_nil, List.zip_nil_right]
    rfl
  | cons r reqs ih =>
    cases batch with
    | nil => exact absurd hid (by simp)
    | cons req batch =>
      rw [List.map_cons, List.map_cons, List.cons.injEq] at hid
      rw [List.map_cons, List.zip_cons_cons]
      cases hr : isOk r.outcome with
      | true =>
        rw [List.filter_cons_of_pos (by simp [hr]), List.filter_cons_of_pos (by simp),
          List.map_cons, List.map_cons, hid.1, ih hid.2]
      | false =>
        rw [List.filter_cons_of_neg (by simp [hr]), List.filter_cons_of_neg (by simp), ih hid.2]

theorem ackPipes_flushBatch (queue : String) (batch : List AckReq)
    (write : Except E (List (Except E Unit))) (ack : Except E Unit) :
    ackPipes (flushBatch queue batch write ack) =
      if ((afterWrites batch write).filter fun r => isOk r.outcome).map (·.streamId) = [] then []
      else [ackPipeline queue
        (((afterWrites batch write).filter fun r => isOk r.outcome).map (·.streamId))] := by
  have hwrites : ackPipes (if (gather 0 batch : Gathered E).owner = [] then []
      else [FlushEvent.writes (E := E) (gather 0 batch : Gathered E).cmds]) = [] := by
    split_ifs <;> rfl
  unfold flushBatch
  rw [ackPipes_append, ackPipes_append, hwrites, ackPipes_answered, List.nil_append,
    List.nil_append]
  by_cases hw : (afterWrites batch write).filter (fun r => isOk r.outcome) = []
  · rw [if_pos hw, if_pos (by rw [hw]; rfl)]
    rfl
  · rw [if_neg hw, if_neg (by rwa [List.map_eq_nil_iff])]
    show _ :: ackPipes _ = _
    rw [ackPipes_answered]

/-- The answer to a request is that of its slot. -/
theorem answersTo_flushBatch (queue : String) {batch : List AckReq}
    (write : Except E (List (Except E Unit))) (ack : Except E Unit) (i : ℕ) {oks : List Bool}
    (h : Numbered 0 batch oks (afterWrites batch write)) :
    answersTo i (flushBatch queue batch write ack) =
      ((afterWrites batch write)[i]?.toList.filter fun r => !isOk r.outcome).map (·.outcome) ++
        ((afterWrites batch write)[i]?.toList.filter fun r => isOk r.outcome).map fun _ => ack := by
  have hslot := h.filter_done i
  rw [Nat.zero_add] at hslot
  have hpart : ∀ (p : Slot E → Bool) (g : Slot E → Except E Unit),
      answersTo i (((afterWrites batch write).filter p).map fun r => .answered r.done (g r)) =
        ((afterWrites batch write)[i]?.toList.filter p).map g := by
    intro p g
    rw [answersTo_answered, List.filter_comm, hslot]
  have hwrites : answersTo i (if (gather 0 batch : Gathered E).owner = [] then []
      else [FlushEvent.writes (E := E) (gather 0 batch : Gathered E).cmds]) = [] := by
    split_ifs <;> rfl
  unfold flushBatch
  rw [answersTo_append, answersTo_append, hwrites, hpart, List.nil_append]
  congr 1
  by_cases hw : (afterWrites batch write).filter (fun r => isOk r.outcome) = []
  · have hnone := hpart (fun r => isOk r.outcome) fun _ => ack
    rw [hw] at hnone
    rw [if_pos hw, ← hnone]
    rfl
  · rw [if_neg hw]
    exact hpart (fun r => isOk r.outcome) fun _ => ack

/-- **A flush acks exactly the completions that were written.** The entries of XACK are those of
XDEL, the ones whose own commands all succeeded, in batch order. Every request of the batch gets one
answer: that of the acks if its commands succeeded, an error if not. -/
theorem flush_acks_what_was_written (queue : String) (batch : List AckReq)
    (write : Except E (List (Except E Unit))) (ack : Except E Unit)
    (hreplies : ∀ replies, write = .ok replies →
      replies.length = (batch.flatMap (·.extra)).length) :
    ackPipes (flushBatch queue batch write ack) =
        (if writtenIds batch write = [] then []
          else [["XACK" :: qKey queue :: "cauli" :: writtenIds batch write,
            "XDEL" :: qKey queue :: writtenIds batch write]]) ∧
      (∀ i, i < batch.length →
        ((wrote batch write)[i]? = some true ∧
            answersTo i (flushBatch queue batch write ack) = [ack]) ∨
          ((wrote batch write)[i]? = some false ∧
            ∃ e, answersTo i (flushBatch queue batch write ack) = [.error e])) ∧
      ∀ i, batch.length ≤ i → answersTo i (flushBatch queue batch write ack) = [] := by
  have h := numbered_afterWrites batch write hreplies
  refine ⟨?_, ?_, ?_⟩
  · rw [ackPipes_flushBatch, h.map_filter]
    rfl
  · intro i hi
    rw [answersTo_flushBatch _ _ _ _ h]
    have hr : i < (afterWrites batch write).length := by rwa [h.length_eq]
    have hok : (wrote batch write)[i]? = some (isOk (afterWrites batch write)[i].outcome) := by
      rw [← h.oks, List.getElem?_map, List.getElem?_eq_getElem hr]
      rfl
    rw [hok, List.getElem?_eq_getElem hr]
    -- the slot of request `i` is written or refused, and only one of the two lists has it
    cases hout : (afterWrites batch write)[i].outcome with
    | ok u => exact .inl ⟨rfl, by simp [isOk, hout]⟩
    | error e => exact .inr ⟨rfl, e, by simp [isOk, hout]⟩
  · intro i hi
    rw [answersTo_flushBatch _ _ _ _ h, List.getElem?_eq_none (by rwa [h.length_eq])]
    rfl

end Flush

/-- A retry whose ZADD is refused beside a success without a result: the first stays pending. -/
theorem flush_of_a_refused_retry :
    let batch : List AckReq :=
      [⟨"1-0", [["ZADD", "cauli:delayed:oomq", "1", "\x7b\x7d"]]⟩, ⟨"2-0", []⟩]
    let events := flushBatch "oomq" batch (.ok [.error "OOM"]) (.ok ())
    ackPipes events =
        [[["XACK", "cauli:q:oomq", "cauli", "2-0"], ["XDEL", "cauli:q:oomq", "2-0"]]] ∧
      (∃ e, answersTo 0 events = [.error e]) ∧ answersTo 1 events = [.ok ()] := by
  intro batch events
  obtain ⟨hacks, hanswers, -⟩ := flush_acks_what_was_written "oomq" batch (.ok [.error "OOM"])
    (.ok ()) (by rintro replies ⟨⟩; rfl)
  refine ⟨hacks, ?_, ?_⟩
  · rcases hanswers 0 (by decide) with ⟨hwrote, -⟩ | ⟨-, hrefused⟩
    · exact absurd hwrote (by decide)
    · exact hrefused
  · rcases hanswers 1 (by decide) with ⟨-, hanswer⟩ | ⟨hwrote, -⟩
    · exact hanswer
    · exact absurd hwrote (by decide)

end Cauli
