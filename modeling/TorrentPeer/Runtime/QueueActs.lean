import TorrentPeer.Runtime.PeerActs
import TorrentPeer.Runtime.WriteQueue

/-! What acts do to the write queue of one connection: enqueue, send and cancel, and
nothing else. -/

namespace TorrentPeer.PeerManager

open Wire Transition PeerConnection

/-- Two connections with the same outgoing side. -/
structure SameQueue (first second : PeerConnection) : Prop where
  buffer : first.writeBuffer = second.writeBuffer
  cursor : first.cursor = second.cursor
  bytes : first.queuedBytes = second.queuedBytes
  fd : first.sock.fd = second.sock.fd
  sent : first.sock.sent = second.sock.sent

theorem SameQueue.refl (c : PeerConnection) : SameQueue c c := ⟨rfl, rfl, rfl, rfl, rfl⟩

theorem SameQueue.trans {first second third : PeerConnection} (early : SameQueue first second)
    (late : SameQueue second third) : SameQueue first third :=
  ⟨early.buffer.trans late.buffer, early.cursor.trans late.cursor, early.bytes.trans late.bytes,
    early.fd.trans late.fd, early.sent.trans late.sent⟩

theorem SameQueue.drain {first second : PeerConnection} (same : SameQueue first second)
    (result : Send) (now : Time) : SameQueue (first.drain result now).1 (second.drain result now).1 := by
  unfold PeerConnection.drain
  rw [same.buffer]
  split
  · exact same
  · split
    · exact same
    · exact same
    · unfold advance
      rw [same.cursor]
      dsimp only
      split
      · exact ⟨rfl, rfl, by rw [same.bytes], same.fd, by rw [same.sent]⟩
      · exact ⟨same.buffer, rfl, same.bytes, same.fd, by rw [same.sent]⟩

theorem SameQueue.cancel {first second : PeerConnection} (same : SameQueue first second)
    (index offset length : Nat) :
    SameQueue (first.removeQueuedPiece index offset length).1
      (second.removeQueuedPiece index offset length).1 := by
  unfold removeQueuedPiece
  rw [same.buffer, same.cursor]
  dsimp only
  split
  · exact same
  · exact ⟨rfl, rfl, by rw [same.bytes], same.fd, same.sent⟩

theorem SameQueue.applyOp {first second : PeerConnection} (same : SameQueue first second)
    (op : QueueOp) : SameQueue (first.applyOp op) (second.applyOp op) := by
  cases op with
  | enqueue message =>
    exact ⟨by simp only [PeerConnection.applyOp, enqueue, same.buffer], same.cursor,
      by simp only [PeerConnection.applyOp, enqueue, same.bytes], same.fd, same.sent⟩
  | drain result now => exact same.drain result now
  | cancel index offset length => exact same.cancel index offset length

theorem SameQueue.runOps {first second : PeerConnection} (same : SameQueue first second)
    (ops : List QueueOp) : SameQueue (runOps first ops) (runOps second ops) := by
  induction ops generalizing first second with
  | nil => exact same
  | cons op ops ih => exact ih (same.applyOp op)

def Queues (c after : PeerConnection) : Prop :=
  ∃ ops, (∀ op ∈ ops, QueueOp.Typed op) ∧ SameQueue after (runOps c ops)

theorem Queues.same {c after : PeerConnection} (same : SameQueue after c) : Queues c after :=
  ⟨[], by simp, same⟩

theorem Queues.single {c after : PeerConnection} (op : QueueOp) (typed : op.Typed)
    (same : SameQueue after (c.applyOp op)) : Queues c after :=
  ⟨[op], by simpa using typed, same⟩

theorem Queues.trans {first second third : PeerConnection} (early : Queues first second)
    (late : Queues second third) : Queues first third := by
  obtain ⟨ops, typed, same⟩ := early
  obtain ⟨more, typed_more, same_more⟩ := late
  refine ⟨ops ++ more, ?_, ?_⟩
  · intro op member
    rcases List.mem_append.mp member with old | new
    · exact typed op old
    · exact typed_more op new
  · rw [runOps_append]
    exact same_more.trans (same.runOps more)

theorem noted_queue (c : PeerConnection) (now : Time) (message : Message) :
    SameQueue (noted c now message) c := by
  cases message <;> exact ⟨rfl, rfl, rfl, rfl, rfl⟩

theorem effect_queues {c : PeerConnection} {id : Nat} {frequency : List Nat} {out : List PeerEvent}
    {msg : Bytes} {handled : Handled} (effect : Effect c id frequency out msg handled) :
    Queues c handled.conn := by
  cases effect with
  | cancelled index offset length =>
    exact Queues.single (.cancel index offset length) trivial (SameQueue.refl _)
  | _ => exact Queues.same ⟨rfl, rfl, rfl, rfl, rfl⟩

/-- An act that keeps the connection, with `uint32_t` fields in the Piece messages it sends. -/
def Keeps (id : Nat) : Act → Prop
  | .drop other => other ≠ id
  | .send _ message _ => (QueueOp.enqueue message).Typed
  | _ => True

theorem modify_queues {conns : Table Nat PeerConnection} {id other : Nat} {c : PeerConnection}
    {change : PeerConnection → PeerConnection} (found : conns.find? id = some c)
    (queues : other = id → Queues c (change c)) :
    ∃ after, (conns.modify other change).find? id = some after ∧ Queues c after := by
  rw [Table.find_modify, found]
  by_cases here : id = other
  · exact ⟨change c, by rw [if_pos here]; rfl, queues here.symm⟩
  · exact ⟨c, by rw [if_neg here], Queues.same (SameQueue.refl c)⟩

theorem act_queues {w next : World} {a : Act} {id : Nat} {c : PeerConnection} (keeps : Keeps id a)
    (found : w.pm.conns.find? id = some c) (moves : act w a = some next) :
    ∃ after, next.pm.conns.find? id = some after ∧ Queues c after := by
  have stays : ∃ after, w.pm.conns.find? id = some after ∧ Queues c after :=
    ⟨c, found, Queues.same (SameQueue.refl c)⟩
  cases a with
  | promote sock peer now answers =>
    have emplaced : ∀ value, (w.pm.conns.emplace (w.pm.promoted % 2 ^ 32) value).find? id = some c := by
      intro value
      cases taken : w.pm.conns.find? (w.pm.promoted % 2 ^ 32) with
      | some old => rw [Table.emplace_present _ _ _ old taken, found]
      | none =>
        rw [Table.find_emplace _ _ _ _ taken, if_neg, found]
        rintro rfl
        rw [found] at taken
        cases taken
    simp only [act] at moves
    split at moves
    · cases moves
      cases answers with
      | false => exact ⟨c, emplaced _, Queues.same (SameQueue.refl c)⟩
      | true =>
        exact modify_queues (emplaced _) (fun _ =>
          Queues.single (.enqueue (.handshake w.pm.torrent w.pm.peerId)) trivial (SameQueue.refl _))
    · cases moves
  | send other message now =>
    cases moves
    exact modify_queues found (fun _ => Queues.single (.enqueue message) keeps
      ((noted_queue c now message).applyOp (.enqueue message)))
  | drain other result now =>
    cases moves
    exact modify_queues found (fun _ => Queues.single (.drain result now) trivial (SameQueue.refl _))
  | receive other chunk now =>
    cases moves
    exact modify_queues found (fun _ => Queues.same ⟨rfl, rfl, rfl, rfl, rfl⟩)
  | message other =>
    obtain ⟨old, msg, rest, handled, present, -, effect, same⟩ := act_message moves
    subst same
    refine modify_queues found ?_
    rintro rfl
    rw [found] at present
    cases present
    have read : Queues c { c with readBuffer := rest, handled := c.handled ++ [msg] } :=
      Queues.same ⟨rfl, rfl, rfl, rfl, rfl⟩
    exact read.trans (effect_queues effect)
  | drop other =>
    rcases act_drop moves with ⟨-, same⟩ | ⟨old, present, same⟩
    · rw [same]
      exact stays
    · rw [same]
      refine ⟨c, ?_, Queues.same (SameQueue.refl c)⟩
      rw [Table.find_erase, if_neg (Ne.symm keeps), found]
  | keepAlives now =>
    cases moves
    simp only [keepAlives, Table.find_update, found, Option.map_some]
    refine ⟨_, rfl, ?_⟩
    split
    · exact Queues.single (.enqueue .keepAlive) trivial (SameQueue.refl _)
    · exact Queues.same (SameQueue.refl c)
  | outside other =>
    cases moves
    exact stays
  | ban host =>
    cases moves
    exact stays
  | collect =>
    cases moves
    exact stays

theorem acts_queues {w next : World} {id : Nat} {c : PeerConnection}
    (found : w.pm.conns.find? id = some c) (moves : Reaches act (Keeps id) w next) :
    ∃ after, next.pm.conns.find? id = some after ∧ Queues c after := by
  have step : ∀ state after a, Keeps id a →
      (∃ middle, state.pm.conns.find? id = some middle ∧ Queues c middle) → act state a = some after →
      ∃ last, after.pm.conns.find? id = some last ∧ Queues c last := by
    rintro state after a keeps ⟨middle, present, early⟩ moved
    obtain ⟨last, located, late⟩ := act_queues keeps present moved
    exact ⟨last, located, early.trans late⟩
  exact Reaches.preserves step moves ⟨c, found, Queues.same (SameQueue.refl c)⟩

end TorrentPeer.PeerManager

namespace TorrentPeer.PeerConnection

open Wire Transition PeerManager

/-- In every run of enqueues, sends and cancels, what the kernel has and what is still
queued is the concatenation of all messages but the deleted ones. Each deleted message is
a Piece that one later Cancel names, and nothing from it on had been sent by then. And whatever
`PeerManager` does while it keeps a connection, it does to the queue in such a run. -/
theorem stream_never_desyncs (start : PeerConnection) (empty : start.writeBuffer = [])
    (still : start.cursor = 0) :
    (∀ ops : List QueueOp, (∀ op ∈ ops, op.Typed) →
      (∃ deleted : List (Nat × Nat),
        (runOps start ops).sock.sent ++ unsent (runOps start ops) =
          start.sock.sent ++ ((survivors ops deleted).map Prod.snd).flatten ∧
        (deleted.map Prod.fst).Nodup ∧ (deleted.map Prod.snd).Nodup ∧
        ∀ pair ∈ deleted, pair.1 < pair.2 ∧
          (∃ index offset data, ops[pair.1]? = some (.enqueue (.piece index offset data)) ∧
            ops[pair.2]? = some (.cancel index offset data.length)) ∧
          (runOps start (ops.take pair.2)).sock.sent <+:
            start.sock.sent ++ (((survivors ops deleted).filter
              (fun entry => decide (entry.1 < pair.1))).map Prod.snd).flatten) ∧
      (∀ front ∈ (runOps start ops).writeBuffer.head?, (runOps start ops).cursor < front.length) ∧
      ((runOps start ops).writeBuffer = [] → (runOps start ops).cursor = 0)) ∧
    ∀ (w next : World) (id : Nat), w.pm.conns.find? id = some start → Reaches act (Keeps id) w next →
      ∃ after ops, next.pm.conns.find? id = some after ∧ (∀ op ∈ ops, op.Typed) ∧
        SameQueue after (runOps start ops) := by
  refine ⟨?_, ?_⟩
  · intro ops typed
    obtain ⟨deleted, done, queue, account⟩ := run_account start empty still ops typed
    refine ⟨⟨deleted, account.balance, account.once.1, account.once.2, ?_⟩, account.front, account.idle⟩
    intro pair member
    exact ⟨(account.early pair member).1, account.matched pair member, account.untouched pair member⟩
  · intro w next id found moves
    obtain ⟨after, present, ops, typed, same⟩ := acts_queues found moves
    exact ⟨after, ops, present, typed, same⟩

/-- A block queued behind a half-sent keep-alive, then cancelled. -/
theorem stream_never_desyncs_cancelled_block :
    ∃ start : PeerConnection, start.writeBuffer = [] ∧
      (runOps start [.enqueue .keepAlive, .enqueue (.piece 3 0 [1, 2]), .drain (.accepted 2) 0,
        .cancel 3 0 2]).writeBuffer = [[0, 0, 0, 0]] ∧
      (runOps start [.enqueue .keepAlive, .enqueue (.piece 3 0 [1, 2]), .drain (.accepted 2) 0,
        .cancel 3 0 2]).cursor < 4 := by
  obtain ⟨start, fresh⟩ : ∃ start : PeerConnection, start = {
      id := 0, sock := { fd := 7 }, peer := ⟨[], []⟩, lastSent := 0, lastReceived := 0,
      hasPieces := ⟨0, []⟩ } := ⟨_, rfl⟩
  have buffer : (runOps start [.enqueue .keepAlive, .enqueue (.piece 3 0 [1, 2]),
      .drain (.accepted 2) 0, .cancel 3 0 2]).writeBuffer = [[0, 0, 0, 0]] := by
    rw [fresh]
    decide
  refine ⟨start, by rw [fresh], buffer, ?_⟩
  have result := ((stream_never_desyncs start (by rw [fresh]) (by rw [fresh])).1
    [.enqueue .keepAlive, .enqueue (.piece 3 0 [1, 2]), .drain (.accepted 2) 0, .cancel 3 0 2]
    (by simp [QueueOp.Typed])).2.1
  exact result [0, 0, 0, 0] (by rw [buffer]; rfl)

end TorrentPeer.PeerConnection
