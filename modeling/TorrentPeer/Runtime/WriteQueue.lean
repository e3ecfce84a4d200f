import TorrentPeer.Runtime.Connection
import Mathlib.Data.List.Induction

/-! The outgoing byte stream of one connection. Every queued message is named by the
step that enqueued it, so that a run says which messages were cancelled and when. -/

namespace TorrentPeer.PeerConnection

open Splice BigEndian Wire

inductive QueueOp where
  | enqueue (message : Message)
  | drain (result : Send) (now : Time)
  | cancel (index offset length : Nat)

def QueueOp.Typed : QueueOp → Prop
  | .enqueue (.piece index offset _) => index < 2 ^ 32 ∧ offset < 2 ^ 32
  | _ => True

def applyOp (c : PeerConnection) : QueueOp → PeerConnection
  | .enqueue message => c.enqueue message.bytes
  | .drain result now => (c.drain result now).1
  | .cancel index offset length => (c.removeQueuedPiece index offset length).1

def runOps (c : PeerConnection) (ops : List QueueOp) : PeerConnection := ops.foldl applyOp c

def unsent (c : PeerConnection) : Bytes := c.writeBuffer.flatten.drop c.cursor

def queued (ops : List QueueOp) : List (Nat × Bytes) :=
  ops.zipIdx.filterMap (fun (op, step) =>
    match op with
    | .enqueue message => some (step, message.bytes)
    | _ => none)

def survivors (ops : List QueueOp) (deleted : List (Nat × Nat)) : List (Nat × Bytes) :=
  (queued ops).filter (fun entry => decide (entry.1 ∉ deleted.map Prod.fst))

theorem queued_enqueue (ops : List QueueOp) (message : Message) :
    queued (ops ++ [.enqueue message]) = queued ops ++ [(ops.length, message.bytes)] := by
  simp [queued, List.zipIdx_append]

theorem queued_other (ops : List QueueOp) (op : QueueOp) (other : ∀ message, op ≠ .enqueue message) :
    queued (ops ++ [op]) = queued ops := by
  cases op with
  | enqueue message => exact absurd rfl (other message)
  | drain result now => simp [queued, List.zipIdx_append]
  | cancel index offset length => simp [queued, List.zipIdx_append]

theorem queued_member (ops : List QueueOp) (step : Nat) (bytes : Bytes)
    (member : (step, bytes) ∈ queued ops) :
    ∃ message, ops[step]? = some (.enqueue message) ∧ bytes = message.bytes := by
  obtain ⟨⟨op, position⟩, listed, chosen⟩ := List.mem_filterMap.mp member
  have located := List.mem_zipIdx_iff_getElem?.mp listed
  cases op with
  | enqueue message =>
    cases chosen
    exact ⟨message, located, rfl⟩
  | drain result now => cases chosen
  | cancel index offset length => cases chosen

theorem queued_sorted (ops : List QueueOp) :
    (queued ops).Pairwise (fun first second => first.1 < second.1) := by
  induction ops using List.reverseRecOn with
  | nil => exact List.Pairwise.nil
  | append_singleton ops op ih =>
    cases op with
    | enqueue message =>
      rw [queued_enqueue, List.pairwise_append]
      refine ⟨ih, List.pairwise_singleton _ _, ?_⟩
      rintro ⟨step, bytes⟩ earlier last member
      obtain ⟨_, located, _⟩ := queued_member ops step bytes earlier
      rw [List.mem_singleton.mp member]
      exact (List.getElem?_eq_some_iff.mp located).1
    | drain result now => rw [queued_other _ _ (by simp)]; exact ih
    | cancel index offset length => rw [queued_other _ _ (by simp)]; exact ih

theorem survivors_cancel (ops : List QueueOp) (deleted : List (Nat × Nat)) (index offset length step late : Nat) :
    survivors (ops ++ [.cancel index offset length]) (deleted ++ [(step, late)]) =
      (survivors ops deleted).filter (fun entry => decide (entry.1 ≠ step)) := by
  rw [survivors, queued_other _ _ (by simp), survivors, List.filter_filter]
  apply List.filter_congr
  intro entry _
  rw [← Bool.decide_and, decide_eq_decide, List.map_append, List.mem_append, not_or]
  exact and_comm.trans (and_congr_left' (by simp))

theorem other_kind (id : UInt8) (payload : Bytes) (different : id ≠ msgPiece) :
    (buildMessage id payload)[4]? ≠ some msgPiece := by
  rw [buildMessage_id]
  exact fun same => different (Option.some.inj same)

theorem queuedPiece_message (message : Message) (index offset length : Nat)
    (typed : (QueueOp.enqueue message).Typed)
    (passed : queuedPiece index offset length message.bytes = true) :
    ∃ data, message = .piece index offset data ∧ data.length = length := by
  simp only [queuedPiece, decide_eq_true_eq] at passed
  obtain ⟨size, kind, first, second⟩ := passed
  cases message with
  | piece named begins data =>
    obtain ⟨index_small, offset_small⟩ := typed
    have skip_index : (Message.bytes (.piece named begins data)).drop 5 =
        be32 named ++ (be32 begins ++ data) := by
      simp [Message.bytes, buildMessage, be32]
    have skip_offset : (Message.bytes (.piece named begins data)).drop 9 = be32 begins ++ data := by
      simp [Message.bytes, buildMessage, be32]
    rw [skip_index, readBe32_append named index_small] at first
    rw [skip_offset, readBe32_append begins offset_small] at second
    refine ⟨data, by rw [first, second], ?_⟩
    simp only [Message.bytes, buildMessage_length, List.length_append, be32_length] at size
    omega
  | handshake torrent peerId =>
    simp [Message.bytes, buildHandshake, ascii, msgPiece] at kind
  | keepAlive =>
    simp only [Message.bytes, List.length_replicate] at size
    omega
  | choke => exact absurd kind (other_kind msgChoke _ (by decide))
  | unchoke => exact absurd kind (other_kind msgUnchoke _ (by decide))
  | interested => exact absurd kind (other_kind msgInterested _ (by decide))
  | have_ named => exact absurd kind (other_kind msgHave _ (by decide))
  | bitfield raw => exact absurd kind (other_kind msgBitfield _ (by decide))
  | request req => exact absurd kind (other_kind msgRequest _ (by decide))

/-- A cancel either finds nothing or takes one whole unsent message out of the queue. -/
theorem removeQueuedPiece_cases (c : PeerConnection) (index offset length : Nat) :
    (c.removeQueuedPiece index offset length).1 = c ∨
      ∃ before m after, c.writeBuffer = before ++ m :: after ∧
        queuedPiece index offset length m = true ∧ (0 < c.cursor → before ≠ []) ∧
        (c.removeQueuedPiece index offset length).1 =
          { c with queuedBytes := c.queuedBytes - m.length, writeBuffer := before ++ after } := by
  unfold removeQueuedPiece
  dsimp only
  generalize first_eq : (if 0 < c.cursor then 1 else 0) = first
  split
  · exact Or.inl rfl
  · rename_i k located
    obtain ⟨bound, passed, -⟩ := List.findIdx?_eq_some_iff_getElem.mp located
    rw [List.length_drop] at bound
    have inside : first + k < c.writeBuffer.length := by omega
    have element : (c.writeBuffer.drop first)[k] = c.writeBuffer[first + k] := List.getElem_drop
    rw [element] at passed
    refine Or.inr ⟨c.writeBuffer.take (first + k), c.writeBuffer[first + k],
      c.writeBuffer.drop (first + k + 1), ?_, passed, ?_, ?_⟩
    · rw [← List.drop_eq_getElem_cons inside, List.take_append_drop]
    · intro started
      rw [if_pos started] at first_eq
      intro empty
      have size := congrArg List.length empty
      rw [List.length_take, List.length_nil] at size
      omega
    · rw [List.eraseIdx_eq_take_drop_succ, List.getD_eq_getElem?_getD,
        List.getElem?_eq_getElem inside, Option.getD_some]

theorem sent_monotone (c : PeerConnection) (op : QueueOp) : c.sock.sent <+: (c.applyOp op).sock.sent := by
  cases op with
  | enqueue message => exact List.prefix_refl _
  | cancel index offset length =>
    have kept : (c.applyOp (.cancel index offset length)).sock.sent = c.sock.sent := by
      rcases removeQueuedPiece_cases c index offset length with same | ⟨_, _, _, _, _, _, result⟩
      · rw [applyOp, same]
      · rw [applyOp, result]
    exact kept ▸ List.prefix_refl _
  | drain result now =>
    rw [applyOp, drain]
    split
    · exact List.prefix_refl _
    · split
      · exact List.prefix_refl _
      · exact List.prefix_refl _
      · simp only [advance]
        split
        · exact List.prefix_append _ _
        · exact List.prefix_append _ _

theorem runOps_append (c : PeerConnection) (ops more : List QueueOp) :
    runOps c (ops ++ more) = runOps (runOps c ops) more := List.foldl_append

theorem runOps_monotone (c : PeerConnection) (ops : List QueueOp) :
    c.sock.sent <+: (runOps c ops).sock.sent := by
  induction ops generalizing c with
  | nil => exact List.prefix_refl _
  | cons op ops ih => exact (sent_monotone c op).trans (ih (c.applyOp op))

theorem flatten_extends (first second : List (Nat × Bytes)) :
    (first.map Prod.snd).flatten <+: ((first ++ second).map Prod.snd).flatten := by
  rw [List.map_append, List.flatten_append]
  exact List.prefix_append _ _

/-- The books of a run: messages fully sent, messages in the queue, and the pairs of a
deleted message and the Cancel that deleted it. -/
structure Account (start c : PeerConnection) (ops : List QueueOp) (deleted : List (Nat × Nat))
    (done queue : List (Nat × Bytes)) : Prop where
  order : done ++ queue = survivors ops deleted
  buffer : c.writeBuffer = queue.map Prod.snd
  stream : c.sock.sent = start.sock.sent ++ (done.map Prod.snd).flatten ++
    c.writeBuffer.flatten.take c.cursor
  front : ∀ message ∈ c.writeBuffer.head?, c.cursor < message.length
  idle : c.writeBuffer = [] → c.cursor = 0
  early : ∀ pair ∈ deleted, pair.1 < pair.2 ∧ pair.2 < ops.length
  once : (deleted.map Prod.fst).Nodup ∧ (deleted.map Prod.snd).Nodup
  matched : ∀ pair ∈ deleted, ∃ index offset data,
    ops[pair.1]? = some (.enqueue (.piece index offset data)) ∧
      ops[pair.2]? = some (.cancel index offset data.length)
  untouched : ∀ pair ∈ deleted, (runOps start (ops.take pair.2)).sock.sent <+:
    start.sock.sent ++ (((survivors ops deleted).filter
      (fun entry => decide (entry.1 < pair.1))).map Prod.snd).flatten

section Account

variable {start c : PeerConnection} {ops : List QueueOp} {deleted : List (Nat × Nat)}
  {done queue : List (Nat × Bytes)} (account : Account start c ops deleted done queue)

include account

theorem Account.message (entry : Nat × Bytes) (member : entry ∈ queue) :
    ∃ message, ops[entry.1]? = some (.enqueue message) ∧ entry.2 = message.bytes := by
  have listed : entry ∈ survivors ops deleted := by
    rw [← account.order]
    exact List.mem_append_right done member
  exact queued_member ops entry.1 entry.2 (List.mem_filter.mp listed).1

theorem Account.sorted :
    (done ++ queue).Pairwise (fun first second => first.1 < second.1) := by
  rw [account.order]
  exact (queued_sorted ops).sublist List.filter_sublist

theorem Account.nonempty (message : Bytes) (member : message ∈ c.writeBuffer) : 0 < message.length := by
  rw [account.buffer] at member
  obtain ⟨entry, inside, rfl⟩ := List.mem_map.mp member
  obtain ⟨built, -, same⟩ := account.message entry inside
  rw [same]
  exact message_nonempty built

theorem Account.balance :
    c.sock.sent ++ unsent c =
      start.sock.sent ++ ((survivors ops deleted).map Prod.snd).flatten := by
  rw [account.stream, unsent, List.append_assoc, List.append_assoc, List.take_append_drop,
    ← account.order, List.map_append, List.flatten_append, account.buffer]

theorem Account.still_early (op : QueueOp) : ∀ pair ∈ deleted, pair.1 < pair.2 ∧ pair.2 < (ops ++ [op]).length := by
  intro pair member
  have bounds := account.early pair member
  rw [List.length_append]
  omega

theorem Account.still_matched (op : QueueOp) : ∀ pair ∈ deleted, ∃ index offset data,
    (ops ++ [op])[pair.1]? = some (.enqueue (.piece index offset data)) ∧
      (ops ++ [op])[pair.2]? = some (.cancel index offset data.length) := by
  intro pair member
  have bounds := account.early pair member
  rw [List.getElem?_append_left (by omega), List.getElem?_append_left (by omega)]
  exact account.matched pair member

theorem Account.same_past (op : QueueOp) {pair : Nat × Nat} (member : pair ∈ deleted) :
    (ops ++ [op]).take pair.2 = ops.take pair.2 := by
  have bounds := account.early pair member
  exact List.take_append_of_le_length (by omega)

theorem Account.quiet (next : PeerConnection) (op : QueueOp) (sent waiting : List (Nat × Bytes))
    (other : ∀ message, op ≠ .enqueue message) (order : sent ++ waiting = done ++ queue)
    (buffer : next.writeBuffer = waiting.map Prod.snd)
    (stream : next.sock.sent = start.sock.sent ++ (sent.map Prod.snd).flatten ++
      next.writeBuffer.flatten.take next.cursor)
    (front : ∀ message ∈ next.writeBuffer.head?, next.cursor < message.length)
    (idle : next.writeBuffer = [] → next.cursor = 0) :
    Account start next (ops ++ [op]) deleted sent waiting := by
  have same : survivors (ops ++ [op]) deleted = survivors ops deleted := by
    rw [survivors, queued_other ops op other, survivors]
  refine ⟨by rw [order, account.order, same], buffer, stream, front, idle, account.still_early op, account.once,
    account.still_matched op, ?_⟩
  intro pair member
  rw [same, account.same_past op member]
  exact account.untouched pair member

theorem Account.enqueue (message : Message) :
    Account start (c.enqueue message.bytes) (ops ++ [.enqueue message]) deleted done
      (queue ++ [(ops.length, message.bytes)]) := by
  have fresh : ops.length ∉ deleted.map Prod.fst := by
    intro member
    obtain ⟨pair, inside, same⟩ := List.mem_map.mp member
    have bounds := account.early pair inside
    omega
  have grown : survivors (ops ++ [.enqueue message]) deleted =
      survivors ops deleted ++ [(ops.length, message.bytes)] := by
    rw [survivors, queued_enqueue, List.filter_append, survivors]
    congr 1
    simp [fresh]
  have positive := message_nonempty message
  refine ⟨by rw [grown, ← List.append_assoc, account.order], ?_, ?_, ?_, ?_, account.still_early _, account.once,
    account.still_matched _, ?_⟩
  · simp [PeerConnection.enqueue, account.buffer]
  · have within : c.cursor ≤ c.writeBuffer.flatten.length := by
      cases shape : c.writeBuffer with
      | nil => rw [account.idle shape]; exact Nat.zero_le _
      | cons first rest =>
        have bound := account.front first (by rw [shape]; rfl)
        rw [List.flatten_cons, List.length_append]
        omega
    simp only [PeerConnection.enqueue, List.flatten_append, List.take_append_of_le_length within]
    exact account.stream
  · intro first head
    cases shape : c.writeBuffer with
    | nil =>
      rw [PeerConnection.enqueue, shape] at head
      cases head
      simp only [PeerConnection.enqueue, account.idle shape]
      exact positive
    | cons front rest =>
      rw [PeerConnection.enqueue, shape] at head
      exact account.front first (by rw [shape]; exact head)
  · intro empty
    simp [PeerConnection.enqueue] at empty
  · intro pair member
    have bounds := account.early pair member
    have later : ¬ ops.length < pair.1 := by omega
    rw [grown, account.same_past _ member, List.filter_append]
    simp only [List.filter_cons, decide_eq_true_eq, later, if_false, List.filter_nil, List.append_nil]
    exact account.untouched pair member

theorem Account.drain (result : Send) (now : Time) :
    ∃ sent waiting, Account start (c.drain result now).1 (ops ++ [.drain result now]) deleted
      sent waiting := by
  have unchanged : Account start c (ops ++ [.drain result now]) deleted done queue :=
    account.quiet c (.drain result now) done queue (by simp) rfl account.buffer account.stream
      account.front account.idle
  cases shape : c.writeBuffer with
  | nil =>
    refine ⟨done, queue, ?_⟩
    simp only [PeerConnection.drain, shape]
    exact unchanged
  | cons front rest =>
    cases result with
    | failed =>
      refine ⟨done, queue, ?_⟩
      simp only [PeerConnection.drain, shape]
      exact unchanged
    | transient =>
      refine ⟨done, queue, ?_⟩
      simp only [PeerConnection.drain, shape]
      exact unchanged
    | accepted count =>
      have bound := account.front front (by rw [shape]; rfl)
      have buffer := account.buffer
      rw [shape] at buffer
      obtain ⟨⟨step, message⟩, tail, split, rfl, rest_eq⟩ := List.map_eq_cons_iff.mp buffer.symm
      have stream := account.stream
      rw [shape, List.flatten_cons, List.take_append_of_le_length (by simp only at bound ⊢; omega)] at stream
      simp only [PeerConnection.drain, shape, advance]
      obtain ⟨w, width⟩ : ∃ w, w = min count (message.length - c.cursor) := ⟨_, rfl⟩
      simp only at bound stream
      rw [← width]
      by_cases whole : c.cursor + w = message.length
      · -- the last byte is out: the message moves to the sent ones
        rw [if_pos whole]
        refine ⟨done ++ [(step, message)], tail, account.quiet _ _ _ _ (by simp) ?_ ?_ ?_ ?_ ?_⟩
        · rw [split, List.append_assoc, List.singleton_append]
        · exact rest_eq.symm
        · have last : slice message c.cursor w = message.drop c.cursor := by
            rw [slice, List.take_of_length_le (by rw [List.length_drop]; omega)]
          simp only [stream, last, List.take_zero, List.append_nil, List.map_append, List.map_cons,
            List.map_nil, List.flatten_append, List.flatten_cons, List.flatten_nil,
            List.append_assoc, List.take_append_drop]
        · intro next head
          have member : next ∈ c.writeBuffer := by
            rw [shape]
            exact List.mem_cons_of_mem _ (List.mem_of_mem_head? head)
          exact account.nonempty next member
        · intro _
          rfl
      · rw [if_neg whole]
        refine ⟨done, queue, account.quiet _ _ _ _ (by simp) rfl buffer ?_ ?_ ?_⟩
        · have partly : message.take c.cursor ++ slice message c.cursor w = message.take (c.cursor + w) := by
            rw [slice, List.take_add]
          simp only [stream, List.flatten_cons, List.append_assoc, partly]
          rw [List.take_append_of_le_length (by omega)]
        · intro next head
          cases head
          simp only
          omega
        · intro empty
          cases empty

theorem Account.locate (typed : ∀ op ∈ ops, op.Typed) {index offset length : Nat} {before after : List Bytes}
    {m : Bytes} (shape : c.writeBuffer = before ++ m :: after) (passed : queuedPiece index offset length m = true) :
    ∃ early step late data, queue = early ++ (step, m) :: late ∧ early.map Prod.snd = before ∧
      late.map Prod.snd = after ∧ ops[step]? = some (.enqueue (.piece index offset data)) ∧ data.length = length := by
  have buffer := account.buffer
  rw [shape] at buffer
  obtain ⟨early, others, split, front, tail⟩ := List.map_eq_append_iff.mp buffer.symm
  obtain ⟨⟨step, bytes⟩, late, rest, same, back⟩ := List.map_eq_cons_iff.mp tail
  dsimp only at same
  subst rest split same
  obtain ⟨message, enqueued, built⟩ := account.message (step, bytes) (by simp)
  dsimp only at enqueued built
  rw [built] at passed
  obtain ⟨data, kind, size⟩ := queuedPiece_message message index offset length
    (typed _ (List.mem_of_getElem? enqueued)) passed
  rw [kind] at enqueued
  exact ⟨early, step, late, data, rfl, front, back, enqueued, size⟩

theorem Account.cursor_inside {before after : List Bytes} {m : Bytes} (shape : c.writeBuffer = before ++ m :: after)
    (guarded : 0 < c.cursor → before ≠ []) : c.cursor ≤ before.flatten.length := by
  cases before with
  | nil =>
    apply Nat.le_of_not_lt
    exact fun started => guarded started rfl
  | cons front others =>
    have inside := account.front front (by rw [shape]; rfl)
    rw [List.flatten_cons, List.length_append]
    omega

end Account

section Deletion

variable {start c : PeerConnection} {ops : List QueueOp} {deleted : List (Nat × Nat)}
  {done early late : List (Nat × Bytes)} {step : Nat} {m : Bytes}
  (account : Account start c ops deleted done (early ++ (step, m) :: late))

include account

theorem Account.below : ∀ entry ∈ done ++ early, entry.1 < step := by
  have sorted := account.sorted
  rw [← List.append_assoc, List.pairwise_append] at sorted
  exact fun entry member => sorted.2.2 entry member (step, m) (List.mem_cons_self ..)

theorem Account.above : ∀ entry ∈ late, step < entry.1 := by
  have sorted := account.sorted
  rw [← List.append_assoc, List.pairwise_append] at sorted
  exact fun entry member => (List.pairwise_cons.mp sorted.2.1).1 entry member

theorem Account.remaining :
    (survivors ops deleted).filter (fun entry => decide (entry.1 ≠ step)) = done ++ (early ++ late) := by
  rw [← account.order, ← List.append_assoc, List.filter_append, ← List.append_assoc, List.filter_cons,
    if_neg (by simp),
    List.filter_eq_self.mpr (fun entry member => decide_eq_true (Nat.ne_of_lt (account.below entry member))),
    List.filter_eq_self.mpr (fun entry member => decide_eq_true (Nat.ne_of_gt (account.above entry member)))]

theorem Account.before_same {limit : Nat} (low : limit ≤ step) :
    (done ++ (early ++ late)).filter (fun entry => decide (entry.1 < limit)) =
      (survivors ops deleted).filter (fun entry => decide (entry.1 < limit)) := by
  rw [← account.order]
  simp only [List.filter_append, List.filter_cons]
  rw [if_neg (by rw [decide_eq_true_eq]; omega)]

theorem Account.before_later {limit : Nat} (high : step ≤ limit) :
    ((done ++ early).map Prod.snd).flatten <+:
      (((done ++ (early ++ late)).filter (fun entry => decide (entry.1 < limit))).map Prod.snd).flatten := by
  have kept : (done ++ early).filter (fun entry => decide (entry.1 < limit)) = done ++ early := by
    apply List.filter_eq_self.mpr
    exact fun entry member => decide_eq_true (Nat.lt_of_lt_of_le (account.below entry member) high)
  rw [← List.append_assoc, List.filter_append, kept]
  exact flatten_extends _ _

theorem Account.reach {after : List Bytes} (shape : c.writeBuffer = early.map Prod.snd ++ m :: after)
    (guarded : 0 < c.cursor → early.map Prod.snd ≠ []) :
    c.sock.sent <+: start.sock.sent ++ ((done ++ early).map Prod.snd).flatten := by
  have inside := account.cursor_inside shape guarded
  rw [account.stream, shape, List.flatten_append, List.take_append_of_le_length inside, List.map_append,
    List.flatten_append, List.append_assoc]
  apply (List.prefix_append_right_inj _).mpr
  apply (List.prefix_append_right_inj _).mpr
  exact List.take_prefix _ _

/-- By the time of each Cancel nothing from its message on had been sent. -/
theorem Account.untouched_after (reached : c = runOps start ops)
    (reach : c.sock.sent <+: start.sock.sent ++ ((done ++ early).map Prod.snd).flatten) (op : QueueOp) :
    ∀ pair ∈ deleted ++ [(step, ops.length)], (runOps start ((ops ++ [op]).take pair.2)).sock.sent <+:
      start.sock.sent ++ (((done ++ (early ++ late)).filter
        (fun entry => decide (entry.1 < pair.1))).map Prod.snd).flatten := by
  intro pair member
  rcases List.mem_append.mp member with old | new
  · rw [account.same_past op old]
    by_cases order : pair.1 ≤ step
    · rw [account.before_same order]
      exact account.untouched pair old
    · have sent : (runOps start (ops.take pair.2)).sock.sent <+: c.sock.sent := by
        have continued := runOps_monotone (runOps start (ops.take pair.2)) (ops.drop pair.2)
        rw [← runOps_append, List.take_append_drop, ← reached] at continued
        exact continued
      apply (sent.trans reach).trans
      exact (List.prefix_append_right_inj _).mpr (account.before_later (by omega))
  · rw [List.mem_singleton.mp new]
    dsimp only
    rw [List.take_append_of_le_length (Nat.le_refl _), List.take_length, ← reached]
    exact reach.trans ((List.prefix_append_right_inj _).mpr (account.before_later (Nat.le_refl _)))

theorem Account.once_more : ((deleted ++ [(step, ops.length)]).map Prod.fst).Nodup ∧
    ((deleted ++ [(step, ops.length)]).map Prod.snd).Nodup := by
  have undeleted : step ∉ deleted.map Prod.fst := by
    have listed : (step, m) ∈ survivors ops deleted := by
      rw [← account.order]
      simp
    exact of_decide_eq_true (List.mem_filter.mp listed).2
  have unused : ops.length ∉ deleted.map Prod.snd := by
    intro member
    obtain ⟨pair, inside, same⟩ := List.mem_map.mp member
    have bounds := account.early pair inside
    omega
  rw [List.map_append, List.map_append, List.map_singleton, List.map_singleton, ← List.concat_eq_append,
    ← List.concat_eq_append]
  exact ⟨account.once.1.concat undeleted, account.once.2.concat unused⟩

end Deletion

section Cancels

variable {start c : PeerConnection} {ops : List QueueOp} {deleted : List (Nat × Nat)}
  {done queue : List (Nat × Bytes)} (account : Account start c ops deleted done queue)

include account

theorem Account.delete (reached : c = runOps start ops) (typed : ∀ op ∈ ops, op.Typed)
    (index offset length : Nat) (before after : List Bytes) (m : Bytes)
    (shape : c.writeBuffer = before ++ m :: after) (passed : queuedPiece index offset length m = true)
    (guarded : 0 < c.cursor → before ≠ []) :
    ∃ step waiting, Account start
      { c with queuedBytes := c.queuedBytes - m.length, writeBuffer := before ++ after }
      (ops ++ [.cancel index offset length]) (deleted ++ [(step, ops.length)]) done waiting := by
  obtain ⟨early, step, late, data, split, front, back, enqueued, size⟩ := account.locate typed shape passed
  subst split front back size
  have bound : step < ops.length := (List.getElem?_eq_some_iff.mp enqueued).1
  have inside := account.cursor_inside shape guarded
  have remaining := (survivors_cancel ops deleted index offset data.length step ops.length).trans account.remaining
  refine ⟨step, early ++ late, remaining.symm, List.map_append.symm, ?_, ?_, ?_, ?_, account.once_more, ?_, ?_⟩
  · dsimp only
    rw [account.stream, shape, List.flatten_append, List.flatten_append, List.take_append_of_le_length inside,
      List.take_append_of_le_length inside]
  · intro next head
    dsimp only at head ⊢
    cases shown : early.map Prod.snd with
    | nil =>
      rw [shown] at head inside
      have still : c.cursor = 0 := Nat.le_zero.mp inside
      rw [still]
      apply account.nonempty next
      rw [shape]
      exact List.mem_append_right _ (List.mem_cons_of_mem _ (List.mem_of_mem_head? head))
    | cons first others =>
      rw [shown] at head
      apply account.front next
      rw [shape, shown]
      exact head
  · intro empty
    have nothing := (List.append_eq_nil_iff.mp empty).1
    rw [nothing] at inside
    exact Nat.le_zero.mp inside
  · intro pair member
    rcases List.mem_append.mp member with old | new
    · exact account.still_early _ pair old
    · rw [List.mem_singleton.mp new]
      exact ⟨bound, by simp⟩
  · intro pair member
    rcases List.mem_append.mp member with old | new
    · exact account.still_matched _ pair old
    · rw [List.mem_singleton.mp new]
      exact ⟨index, offset, data, by rw [List.getElem?_append_left bound]; exact enqueued, by simp⟩
  · rw [remaining]
    exact account.untouched_after reached (account.reach shape guarded) _

theorem Account.cancel (reached : c = runOps start ops) (typed : ∀ op ∈ ops, op.Typed)
    (index offset length : Nat) :
    ∃ pairs waiting, Account start (c.removeQueuedPiece index offset length).1
      (ops ++ [.cancel index offset length]) pairs done waiting := by
  rcases removeQueuedPiece_cases c index offset length with
    same | ⟨before, m, after, shape, passed, guarded, result⟩
  · refine ⟨deleted, queue, ?_⟩
    rw [same]
    exact account.quiet c _ done queue (by simp) rfl account.buffer account.stream account.front
      account.idle
  · obtain ⟨step, waiting, deletion⟩ := account.delete reached typed index offset length before after m
      shape passed guarded
    rw [result]
    exact ⟨_, waiting, deletion⟩

end Cancels

theorem run_account (start : PeerConnection) (empty : start.writeBuffer = []) (still : start.cursor = 0)
    (ops : List QueueOp) (typed : ∀ op ∈ ops, op.Typed) :
    ∃ deleted done queue, Account start (runOps start ops) ops deleted done queue := by
  induction ops using List.reverseRecOn with
  | nil =>
    refine ⟨[], [], [], rfl, by simp [runOps, empty], ?_, ?_, fun _ => still, ?_, ?_, ?_, ?_⟩
    · simp [runOps, empty]
    · simp [runOps, empty]
    · simp
    · simp
    · simp
    · simp
  | append_singleton ops op ih =>
    obtain ⟨deleted, done, queue, account⟩ := ih (fun other member => typed other (by simp [member]))
    have stepped : runOps start (ops ++ [op]) = (runOps start ops).applyOp op := by
      rw [runOps_append]
      rfl
    rw [stepped]
    cases op with
    | enqueue message => exact ⟨_, _, _, account.enqueue message⟩
    | drain result now => exact ⟨_, account.drain result now⟩
    | cancel index offset length =>
      obtain ⟨pairs, waiting, cancelled⟩ := account.cancel rfl
        (fun other member => typed other (by simp [member])) index offset length
      exact ⟨pairs, done, waiting, cancelled⟩

end TorrentPeer.PeerConnection
