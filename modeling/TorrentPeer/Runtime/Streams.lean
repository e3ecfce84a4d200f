import TorrentPeer.Runtime.Turns
import TorrentPeer.Lib.Framing

/-! The byte stream a peer sends, as the manager reads it: a handshake, then frames. However
`recv` cuts it, the same messages reach `handle_message`. -/

namespace TorrentPeer.Wire

open Framing BigEndian

theorem extractMessage_unfinished {buf : Bytes} :
    extractMessage buf = .ok none ↔ Unfinished (2 ^ 20) buf := by
  unfold extractMessage
  dsimp only
  constructor
  · intro nothing
    split at nothing
    · exact Or.inl ‹_›
    · split at nothing
      · cases nothing
      · rename_i modest
        split at nothing
        · exact Or.inr ⟨Nat.le_of_not_lt modest, ‹_›⟩
        · cases nothing
  · intro unfinished
    rcases unfinished with short | ⟨modest, part⟩
    · rw [if_pos short]
    · split
      · rfl
      · rw [if_neg (Nat.not_lt.mpr modest)]

theorem extractMessage_oversized {buf : Bytes} {problem : Exn} (thrown : extractMessage buf = .error problem) :
    Oversized (2 ^ 20) buf := by
  unfold extractMessage at thrown
  split at thrown
  · cases thrown
  · rename_i long
    dsimp only at thrown
    split at thrown
    · exact ⟨Nat.le_of_not_lt long, ‹_›⟩
    · split at thrown <;> cases thrown

theorem extractMessage_frame (message rest : Bytes) (small : message.length ≤ 2 ^ 20) :
    extractMessage (frame message ++ rest) = .ok (some (message, rest)) := by
  have narrow : message.length < 2 ^ 32 := Nat.lt_of_le_of_lt small (by decide)
  have length := readBe32_frame narrow rest
  have size : (frame message ++ rest).length = 4 + message.length + rest.length := by
    rw [List.length_append, frame_length]
  have body : (frame message ++ rest).drop 4 = message ++ rest := by
    rw [frame, List.append_assoc]
    exact List.drop_left' (be32_length _)
  unfold extractMessage
  rw [if_neg (by omega)]
  dsimp only
  rw [length, if_neg (Nat.not_lt.mpr small), if_neg (by omega), ← List.drop_drop, body]
  rw [List.take_left' rfl, List.drop_left' rfl]

theorem extractMessage_whole {buf message rest : Bytes}
    (extracted : extractMessage buf = .ok (some (message, rest))) :
    buf = frame message ++ rest ∧ message.length ≤ 2 ^ 20 := by
  rcases buffer_cases buf with unfinished | ⟨long, beyond⟩ | ⟨split, size, small⟩
  · rw [extractMessage_unfinished.mpr unfinished] at extracted
    cases extracted
  · unfold extractMessage at extracted
    rw [if_neg (Nat.not_lt.mpr long)] at extracted
    dsimp only at extracted
    rw [if_pos beyond] at extracted
    cases extracted
  · have modest : ((buf.drop 4).take (readBe32 buf)).length ≤ 2 ^ 20 := Nat.le_trans (Nat.le_of_eq size) small
    have again := extractMessage_frame _ (buf.drop (4 + readBe32 buf)) modest
    rw [← split, extracted] at again
    cases again
    exact ⟨split, modest⟩

theorem buildMessage_frame {id : UInt8} {payload : Bytes} (small : payload.length < 2 ^ 20) :
    buildMessage id payload = frame (id :: payload) := by
  have narrow : 1 + payload.length < 2 ^ 32 := by omega
  rw [buildMessage, frame, List.length_cons, Nat.mod_eq_of_lt narrow, Nat.add_comm]

end TorrentPeer.Wire

namespace TorrentPeer.PeerManager

open Wire Transition Framing

/-- Two connections that have read the same. -/
structure SameReading (c after : PeerConnection) : Prop where
  peer : after.peer = c.peer
  received : after.sock.received = c.sock.received
  handled : after.handled = c.handled
  buffer : after.readBuffer = c.readBuffer

theorem SameReading.refl (c : PeerConnection) : SameReading c c := ⟨rfl, rfl, rfl, rfl⟩

theorem drain_reading (c : PeerConnection) (result : Send) (now : Time) :
    SameReading c (c.drain result now).1 := by
  obtain ⟨_, _, _, _, _, same⟩ := c.drain_shape result now
  rw [same]
  exact ⟨rfl, rfl, rfl, rfl⟩

theorem effect_reading {c : PeerConnection} {id : Nat} {frequency : List Nat} {out : List PeerEvent}
    {msg : Bytes} {handled : Handled} (effect : PeerConnection.Effect c id frequency out msg handled) :
    SameReading c handled.conn := by
  cases effect with
  | cancelled index offset length =>
    obtain ⟨_, _, same⟩ := c.removeQueuedPiece_shape index offset length
    rw [same]
    exact ⟨rfl, rfl, rfl, rfl⟩
  | _ => exact ⟨rfl, rfl, rfl, rfl⟩

/-- What the manager has made of the stream of an established peer: it accepted the first 68
bytes, and it has handled the frames behind them up to what its buffer holds. -/
structure Heard (pm : PeerManager) (c : PeerConnection) : Prop where
  whole : 68 ≤ c.sock.received.length
  verified : pm.verifyHandshake (c.sock.received.take 68) c.peer = true
  framed : Framed (2 ^ 20) (c.sock.received.drop 68) c.handled c.readBuffer

section Steps

variable {pm : PeerManager} {c after : PeerConnection}

theorem Heard.same (heard : Heard pm c) (same : SameReading c after) : Heard pm after := by
  obtain ⟨peer, received, handled, buffer⟩ := same
  constructor
  · rw [received]
    exact heard.whole
  · rw [received, peer]
    exact heard.verified
  · rw [received, handled, buffer]
    exact heard.framed

theorem Heard.receive (heard : Heard pm c) (chunk : Bytes) (now : Time) :
    Heard pm { c with
      sock := { c.sock with received := c.sock.received ++ chunk }
      readBuffer := c.readBuffer ++ chunk
      lastReceived := now } := by
  have whole := heard.whole
  constructor
  · exact Nat.le_trans whole (by simp)
  · have first : (c.sock.received ++ chunk).take 68 = c.sock.received.take 68 :=
      List.take_append_of_le_length whole
    show pm.verifyHandshake ((c.sock.received ++ chunk).take 68) c.peer = true
    rw [first]
    exact heard.verified
  · have later : (c.sock.received ++ chunk).drop 68 = c.sock.received.drop 68 ++ chunk :=
      List.drop_append_of_le_length whole
    show Framed (2 ^ 20) ((c.sock.received ++ chunk).drop 68) c.handled (c.readBuffer ++ chunk)
    rw [later]
    exact heard.framed.more chunk

theorem Heard.message (heard : Heard pm c) {msg rest : Bytes}
    (extracted : extractMessage c.readBuffer = .ok (some (msg, rest))) :
    Heard pm { c with readBuffer := rest, handled := c.handled ++ [msg] } := by
  obtain ⟨front, small⟩ := extractMessage_whole extracted
  have framed := heard.framed
  rw [front] at framed
  exact ⟨heard.whole, heard.verified, framed.next small⟩

theorem Heard.touches (heard : Heard pm c) (touch : Touches c after) : Heard pm after := by
  cases touch with
  | drain result now => exact heard.same (drain_reading c result now)
  | receive chunk now => exact heard.receive chunk now
  | message rest id frequency out msg handled extracted effect =>
    exact (heard.message extracted).same (effect_reading effect)
  | ping empty => exact heard.same ⟨rfl, rfl, rfl, rfl⟩

theorem newcomer_heard (manager : PeerManager) (sock : Socket) (peer : Peer) (now : Time) (answers : Bool)
    (whole : sock.received.length = 68) (welcome : pm.verifyHandshake sock.received peer = true) :
    Heard pm (newcomer manager sock peer now answers) ∧
      (newcomer manager sock peer now answers).readBuffer = [] := by
  have first : sock.received.take 68 = sock.received := List.take_of_length_le (Nat.le_of_eq whole)
  have later : sock.received.drop 68 = [] := List.drop_eq_nil_of_le (Nat.le_of_eq whole)
  cases answers with
  | false =>
    refine ⟨⟨Nat.le_of_eq whole.symm, ?_, ?_⟩, rfl⟩
    · show pm.verifyHandshake (sock.received.take 68) peer = true
      rw [first]
      exact welcome
    · show Framed (2 ^ 20) (sock.received.drop 68) [] []
      rw [later]
      exact Framed.start []
  | true =>
    refine ⟨⟨Nat.le_of_eq whole.symm, ?_, ?_⟩, rfl⟩
    · show pm.verifyHandshake (sock.received.take 68) peer = true
      rw [first]
      exact welcome
    · show Framed (2 ^ 20) (sock.received.drop 68) [] []
      rw [later]
      exact Framed.start []

theorem vets_heard {w next : World} (moves : Reaches act (Act.Vets pm) w next)
    (heard : ∀ id c, w.pm.conns.find? id = some c → Heard pm c) :
    ∀ id c, next.pm.conns.find? id = some c → Heard pm c := by
  apply reaches_each moves (fun _ vets => vets.1) ?_ ?_ ?_ heard
  · intro manager sock peer now answers vets
    obtain ⟨whole, welcome⟩ := vets.2 sock peer now answers rfl
    exact (newcomer_heard manager sock peer now answers whole welcome).1
  · intro c torrent peerId before
    exact before.same ⟨rfl, rfl, rfl, rfl⟩
  · intro a c after _ _ before touch
    exact before.touches touch

end Steps

section Rounds

def Threw (id : Nat) (c : PeerConnection) : Prop :=
  ∃ (before : PeerConnection) (frequency : List Nat) (out : List PeerEvent) (msg : Bytes),
    before.handled.getLast? = some msg ∧
    (before.handle id frequency out msg).conn = c ∧ (before.handle id frequency out msg).thrown ≠ none

def Turned (id : Nat) (c : PeerConnection) (dropped : Prop) : Prop :=
  Unfinished (2 ^ 20) c.readBuffer ∨ dropped ∧ (Oversized (2 ^ 20) c.readBuffer ∨ Threw id c)

variable {pm : PeerManager} {id : Nat} {c : PeerConnection} {out : List PeerEvent}

theorem handleMessage_found (out : List PeerEvent) (msg : Bytes) (found : pm.conns.find? id = some c) :
    (pm.handleMessage id msg out).1.conns.find? id =
        some (c.handle id pm.pieceFrequency out msg).conn ∧
      (pm.handleMessage id msg out).2.2 = (c.handle id pm.pieceFrequency out msg).thrown := by
  simp only [handleMessage, found, Table.find_modify, if_true, Option.map_some, and_self]

theorem handleMessage_others (pm : PeerManager) (out : List PeerEvent) (msg : Bytes) {other : Nat}
    (apart : other ≠ id) :
    (pm.handleMessage id msg out).1.conns.find? other = pm.conns.find? other := by
  unfold handleMessage
  split
  · rfl
  · simp only [Table.find_modify, if_neg apart]

/-- With fuel for every byte the loop ends at a frame that is not whole, at a length over the
limit, or at a message that threw. -/
theorem readMessages_turn (fuel : Nat) (found : pm.conns.find? id = some c)
    (enough : c.readBuffer.length < fuel) :
    ∃ after, (readMessages id fuel pm out).1.conns.find? id = some after ∧
      Turned id after ((readMessages id fuel pm out).2.2 = true) := by
  induction fuel generalizing pm c out with
  | zero => exact absurd enough (Nat.not_lt_zero _)
  | succ fuel ih =>
    rw [readMessages, found, Option.map_some]
    cases extracted : extractMessage c.readBuffer with
    | error problem =>
      exact ⟨c, found, Or.inr ⟨rfl, Or.inl (extractMessage_oversized extracted)⟩⟩
    | ok front =>
      cases front with
      | none => exact ⟨c, found, Or.inl (extractMessage_unfinished.mp extracted)⟩
      | some pair =>
        obtain ⟨msg, rest⟩ := pair
        obtain ⟨split, -⟩ := extractMessage_whole extracted
        have shorter : rest.length < c.readBuffer.length := by
          rw [split, List.length_append, frame_length]
          omega
        dsimp only
        generalize popping : { pm with conns := pm.conns.modify id (fun c =>
          { c with readBuffer := rest, handled := c.handled ++ [msg] }) } = popped
        have there : popped.conns.find? id =
            some { c with readBuffer := rest, handled := c.handled ++ [msg] } := by
          rw [← popping, Table.find_modify, if_pos rfl, found, Option.map_some]
        obtain ⟨left, threw⟩ := handleMessage_found out msg there
        have same := effect_reading (PeerConnection.handle_effect
          { c with readBuffer := rest, handled := c.handled ++ [msg] } id popped.pieceFrequency out msg)
        generalize popped.handleMessage id msg out = result at left threw
        obtain ⟨next, events, thrown⟩ := result
        cases thrown with
        | none =>
          apply ih left
          rw [same.buffer]
          exact Nat.lt_of_lt_of_le shorter (Nat.le_of_lt_succ enough)
        | some problem =>
          refine ⟨_, left, Or.inr ⟨rfl, Or.inr ⟨_, _, _, msg, ?_, rfl, ?_⟩⟩⟩
          · exact List.getLast?_concat
          · rw [← threw]
            simp

theorem readMessages_others (fuel : Nat) {other : Nat} (apart : other ≠ id) :
    (readMessages id fuel pm out).1.conns.find? other = pm.conns.find? other := by
  induction fuel generalizing pm out with
  | zero => rfl
  | succ fuel ih =>
    rw [readMessages]
    split
    · rfl
    · rfl
    · rfl
    · rename_i msg rest _
      dsimp only
      generalize popping : { pm with conns := pm.conns.modify id (fun c =>
        { c with readBuffer := rest, handled := c.handled ++ [msg] }) } = popped
      have aside : popped.conns.find? other = pm.conns.find? other := by
        rw [← popping, Table.find_modify, if_neg apart]
      have handled := handleMessage_others popped out msg apart
      generalize popped.handleMessage id msg out = result at handled
      obtain ⟨next, events, thrown⟩ := result
      cases thrown with
      | none => exact ih.trans (handled.trans aside)
      | some problem => exact handled.trans aside

theorem readConnection_turn (env : Env) (found : pm.conns.find? id = some c)
    (unfinished : Unfinished (2 ^ 20) c.readBuffer) :
    ∃ after, (readConnection env pm id c out).1.conns.find? id = some after ∧
      Turned id after ((readConnection env pm id c out).2.2 = true) := by
  unfold readConnection
  split
  · exact ⟨c, found, Or.inl unfinished⟩
  · exact ⟨c, found, Or.inl unfinished⟩
  · rename_i bytes _
    dsimp only
    split
    · exact ⟨c, found, Or.inl unfinished⟩
    · apply readMessages_turn
      · rw [Table.find_modify, if_pos rfl, found, Option.map_some]
      · show (c.readBuffer ++ bytes.take 16384).length < _
        rw [List.length_append]
        exact Nat.lt_succ_self _

theorem readConnection_others (env : Env) {other : Nat} (apart : other ≠ id) :
    (readConnection env pm id c out).1.conns.find? other = pm.conns.find? other := by
  unfold readConnection
  split
  · rfl
  · rfl
  · dsimp only
    split
    · rfl
    · rw [readMessages_others _ apart, Table.find_modify, if_neg apart]

theorem serveConnection_turn (env : Env) (rev : Nat) (found : pm.conns.find? id = some c)
    (unfinished : Unfinished (2 ^ 20) c.readBuffer) :
    ∃ after, (serveConnection env pm id rev out).1.conns.find? id = some after ∧
      Turned id after ((serveConnection env pm id rev out).2.2 = true) := by
  unfold serveConnection
  rw [found]
  split
  · exact ⟨c, found, Or.inl unfinished⟩
  · dsimp only
    generalize drains : (if writable rev = true then c.drain (env.send c.sock.fd) (env.clock (.drain c.sock.fd))
      else (c, false)) = result
    obtain ⟨drained, failed⟩ := result
    have same : SameReading c drained := by
      split at drains
      · rw [← (Prod.mk.inj drains).1]
        exact drain_reading c _ _
      · rw [← (Prod.mk.inj drains).1]
        exact SameReading.refl c
    have kept : Unfinished (2 ^ 20) drained.readBuffer := by
      rw [same.buffer]
      exact unfinished
    have there : ({ pm with conns := pm.conns.modify id (fun _ => drained) } : PeerManager).conns.find? id =
        some drained := by
      rw [Table.find_modify, if_pos rfl, found, Option.map_some]
    dsimp only
    split
    · exact ⟨c, found, Or.inl unfinished⟩
    · split
      · exact ⟨drained, there, Or.inl kept⟩
      · exact readConnection_turn env there kept

theorem serveConnection_others (env : Env) (rev : Nat) {other : Nat} (apart : other ≠ id) :
    (serveConnection env pm id rev out).1.conns.find? other = pm.conns.find? other := by
  unfold serveConnection
  split
  · rfl
  · split
    · rfl
    · rename_i c _
      dsimp only
      generalize (if writable rev = true then c.drain (env.send c.sock.fd) (env.clock (.drain c.sock.fd))
        else (c, false)) = result
      have aside : (pm.conns.modify id (fun _ => result.1)).find? other = pm.conns.find? other := by
        rw [Table.find_modify, if_neg apart]
      split
      · rfl
      · split
        · exact aside
        · exact (readConnection_others env apart).trans aside

theorem serveLoop_others (env : Env) (pfds : List PollFd) (ids : List Nat) (at_ : Nat) (outside : id ∉ ids) :
    (serveLoop env pfds ids at_ pm out).1.conns.find? id = pm.conns.find? id := by
  induction ids generalizing at_ pm out with
  | nil => rfl
  | cons first ids ih =>
    obtain ⟨different, later⟩ := List.ne_and_not_mem_of_not_mem_cons outside
    exact (ih (at_ + 1) later).trans (serveConnection_others env _ different)

theorem serveConnection_absent (env : Env) (rev : Nat) (absent : pm.conns.find? id = none) :
    (serveConnection env pm id rev out).1 = pm := by
  unfold serveConnection
  rw [absent]
  split <;> rfl

theorem Turned.mono {before later : Prop} (turned : Turned id c before) (widens : before → later) :
    Turned id c later := by
  rcases turned with unfinished | ⟨dropped, reason⟩
  · exact Or.inl unfinished
  · exact Or.inr ⟨widens dropped, reason⟩

theorem serveLoop_turns (env : Env) (pfds : List PollFd) (ids : List Nat) (at_ : Nat) (distinct : ids.Nodup)
    (unfinished : ∀ id c, id ∈ ids → pm.conns.find? id = some c → Unfinished (2 ^ 20) c.readBuffer)
    (found : (serveLoop env pfds ids at_ pm out).1.conns.find? id = some c) :
    (id ∉ ids ∧ pm.conns.find? id = some c) ∨
      id ∈ ids ∧ Turned id c (id ∈ (serveLoop env pfds ids at_ pm out).2.2) := by
  induction ids generalizing at_ pm out with
  | nil => exact Or.inl ⟨List.not_mem_nil, found⟩
  | cons first ids ih =>
    obtain ⟨outside, apart⟩ := List.nodup_cons.mp distinct
    simp only [serveLoop] at found ⊢
    -- what the first turn does to this connection, before the others have theirs
    have alone : ∀ d, (serveConnection env pm first (reventsAt pfds at_) out).1.conns.find? id = some d →
        (id ≠ first ∧ pm.conns.find? id = some d) ∨
          id = first ∧ Turned id d ((serveConnection env pm first (reventsAt pfds at_) out).2.2 = true) := by
      intro d present
      by_cases here : id = first
      · subst here
        cases before : pm.conns.find? id with
        | none =>
          rw [serveConnection_absent env _ before, before] at present
          cases present
        | some old =>
          obtain ⟨after, there, turned⟩ := serveConnection_turn env (reventsAt pfds at_) before
            (unfinished id old (List.mem_cons_self ..) before)
          rw [there] at present
          cases present
          exact Or.inr ⟨rfl, turned⟩
      · rw [serveConnection_others env _ here] at present
        exact Or.inl ⟨here, present⟩
    have others : ∀ id c, id ∈ ids →
        (serveConnection env pm first (reventsAt pfds at_) out).1.conns.find? id = some c →
        Unfinished (2 ^ 20) c.readBuffer := by
      intro other d member present
      have different : other ≠ first := fun same => outside (same ▸ member)
      rw [serveConnection_others env _ different] at present
      exact unfinished other d (List.mem_cons_of_mem _ member) present
    rcases ih (at_ + 1) apart others found with ⟨later, present⟩ | ⟨member, turned⟩
    · rcases alone c present with ⟨different, before⟩ | ⟨here, turned⟩
      · exact Or.inl ⟨fun member => (List.mem_cons.mp member).elim different later, before⟩
      · refine Or.inr ⟨here ▸ List.mem_cons_self .., turned.mono ?_⟩
        intro failed
        rw [if_pos failed, here]
        exact List.mem_cons_self ..
    · refine Or.inr ⟨List.mem_cons_of_mem _ member, turned.mono ?_⟩
      intro listed
      split
      · exact List.mem_cons_of_mem _ listed
      · exact listed

end Rounds

/-- The manager of one torrent and peer id, with no handshake in progress that has all its
bytes and every peer once in its snapshot. -/
structure Orderly (torrent : TorrentFile) (peerId : Bytes) (pm : PeerManager) : Prop where
  torrent : pm.torrent = torrent
  peerId : pm.peerId = peerId
  waiting : ∀ p ∈ pm.inbound, p.buffer.length < 68
  dialing : ∀ p ∈ pm.outbound, p.buffer.length < 68
  distinct : pm.ids.Nodup

section Pending

variable {pm : PeerManager} {torrent : TorrentFile} {peerId : Bytes}

theorem readHandshake_keep {env : Env} {fd : Nat} {buffer more : Bytes}
    (read : readHandshake env fd buffer = (.keep, more)) (short : buffer.length < 68) : more.length < 68 := by
  unfold readHandshake at read
  split at read
  · cases read
    exact short
  · cases read
  · dsimp only at read
    split at read
    · cases read
    · split at read
      · cases read
        assumption
      · cases read

theorem Orderly.serves (orderly : Orderly torrent peerId pm) {w next : World} (same : w.pm = pm)
    (serves : Serves w next) : Orderly torrent peerId next.pm := by
  have frame := serves.frame
  have setting := serves.setting
  rw [same] at frame setting
  constructor
  · exact setting.torrent.trans orderly.torrent
  · exact setting.peerId.trans orderly.peerId
  · rw [frame.inbound]
    exact orderly.waiting
  · rw [frame.outbound]
    exact orderly.dialing
  · rw [setting.ids]
    exact orderly.distinct

theorem Orderly.pends (orderly : Orderly torrent peerId pm) :
    Pends (fun p => p.buffer.length < 68) (fun p => p.buffer.length < 68) pm :=
  ⟨orderly.waiting, orderly.dialing⟩

theorem Pends.orderly {next : PeerManager}
    (pends : Pends (fun p => p.buffer.length < 68) (fun p => p.buffer.length < 68) next)
    (orderly : Orderly torrent peerId pm) (same : SameSetting pm next) : Orderly torrent peerId next := by
  constructor
  · exact same.torrent.trans orderly.torrent
  · exact same.peerId.trans orderly.peerId
  · exact pends.inbound
  · exact pends.outbound
  · rw [same.ids]
    exact orderly.distinct

theorem inboundTurn_short {env : Env} {rev : Nat} {p q : PendingInbound}
    (turned : inboundTurn env pm rev p = .waits q) (short : p.buffer.length < 68) : q.buffer.length < 68 := by
  rcases inboundTurn_waits turned with same | ⟨more, read, same⟩
  · rw [same]
    exact short
  · rw [same]
    exact readHandshake_keep read short

theorem outboundTurn_short {env : Env} {rev : Nat} {p q : PendingOutbound}
    (turned : outboundTurn env pm rev p = .waits q) (short : p.buffer.length < 68) : q.buffer.length < 68 := by
  rcases outboundTurn_waits turned with same | ⟨-, -, -, same⟩ | ⟨more, read, same⟩
  · rw [same]
    exact short
  · rw [same]
    exact short
  · rw [same]
    exact readHandshake_keep read short

theorem admitted_orderly (env : Env) (pfds : List PollFd) (orderly : Orderly torrent peerId pm) :
    Orderly torrent peerId (admitted env pfds pm).pm := by
  refine (admitted_pends env pfds ?_ ?_).orderly orderly (admitted_setting env pfds pm)
  · intro i p q located turned
    exact inboundTurn_short turned (orderly.waiting p (List.mem_of_getElem? located))
  · intro i p q located turned
    exact outboundTurn_short turned (orderly.dialing p (List.mem_of_getElem? located))

theorem handleEvents_orderly (env : Env) (pfds : List PollFd) (orderly : Orderly torrent peerId pm) :
    Orderly torrent peerId (handleEvents env pfds pm).1 := by
  refine (handleEvents_pends env pfds ?_ ?_ ?_ ?_).orderly orderly (handleEvents_setting env pfds pm)
  · intro i p q located turned
    exact inboundTurn_short turned (orderly.waiting p (List.mem_of_getElem? located))
  · intro i p q located turned
    exact outboundTurn_short turned (orderly.dialing p (List.mem_of_getElem? located))
  · intro p empty _
    rw [empty]
    exact Nat.zero_lt_succ _
  · intro o _ empty _
    rw [empty]
    exact Nat.zero_lt_succ _

theorem addPeers_orderly (env : Env) (peers : List Peer) (orderly : Orderly torrent peerId pm) :
    Orderly torrent peerId (addPeers env pm peers) := by
  have pends := (orderly.pends.queuePeers peers).dialLoop env (queuePeers peers pm).candidates 0 (by
    intro o _ empty _
    rw [empty]
    exact Nat.zero_lt_succ _)
  exact pends.orderly orderly (addPeers_setting env pm peers)

theorem perform_orderly (op : Op) (orderly : Orderly torrent peerId pm) :
    Orderly torrent peerId (pm.perform op).1 := by
  cases op with
  | buildFds order =>
    refine ⟨orderly.torrent, orderly.peerId, orderly.waiting, orderly.dialing, ?_⟩
    exact (pm.conns.arrange_perm order).nodup_iff.mpr pm.conns.distinct
  | handleEvents env pfds => exact handleEvents_orderly env pfds orderly
  | addPeers env peers => exact addPeers_orderly env peers orderly
  | send id message now =>
    exact ⟨orderly.torrent, orderly.peerId, orderly.waiting, orderly.dialing, orderly.distinct⟩
  | broadcastHave index =>
    exact ⟨orderly.torrent, orderly.peerId, orderly.waiting, orderly.dialing, orderly.distinct⟩
  | ban host order =>
    by_cases already : host ∈ pm.banned
    · rw [perform, ban, if_pos already]
      exact orderly
    · rw [perform, ban_fresh host order already]
      have listed : Orderly torrent peerId { pm with banned := insert host pm.banned } :=
        ⟨orderly.torrent, orderly.peerId, orderly.waiting, orderly.dialing, orderly.distinct⟩
      exact listed.serves rfl (serves_dropAll _ [] (pm.peersOf host order))
  | expire id pending snubbed =>
    exact ⟨orderly.torrent, orderly.peerId, orderly.waiting, orderly.dialing, orderly.distinct⟩

end Pending

/-- Between calls every connection is heard, and waits for the rest of a frame. -/
structure Listening (pm : PeerManager) : Prop where
  heard : ∀ id c, pm.conns.find? id = some c → Heard pm c
  unfinished : ∀ id c, pm.conns.find? id = some c → Unfinished (2 ^ 20) c.readBuffer
  orderly : Orderly pm.torrent pm.peerId pm

section Calls

variable {pm next : PeerManager}

theorem Heard.carry {c : PeerConnection} (heard : Heard pm c) (orderly : Orderly pm.torrent pm.peerId next)
    (welcome : c.peer.host ∉ next.banned) : Heard next c := by
  refine ⟨heard.whole, ?_, heard.framed⟩
  obtain ⟨-, greets⟩ := of_decide_eq_true heard.verified
  rw [verifyHandshake, orderly.torrent, orderly.peerId]
  exact decide_eq_true ⟨welcome, greets⟩

theorem Listening.quiet (listening : Listening pm) (orderly : Orderly pm.torrent pm.peerId next)
    (clean : Clean next)
    (same : ∀ id c, next.conns.find? id = some c → ∃ old, pm.conns.find? id = some old ∧ SameReading old c) :
    Listening next := by
  constructor
  · intro id c found
    obtain ⟨old, present, reading⟩ := same id c found
    exact ((listening.heard id old present).same reading).carry orderly (clean id c found)
  · intro id c found
    obtain ⟨old, present, reading⟩ := same id c found
    rw [reading.buffer]
    exact listening.unfinished id old present
  · rw [orderly.torrent, orderly.peerId]
    exact orderly

theorem admitted_unfinished (env : Env) (pfds : List PollFd) (listening : Listening pm) (room : Room pm) :
    ∀ id c, (admitted env pfds pm).pm.conns.find? id = some c → Unfinished (2 ^ 20) c.readBuffer := by
  apply reaches_each (admitted_joins env pfds pm room).1 (fun _ joins => joins.1.1) ?_ ?_ ?_
    listening.unfinished
  · intro manager sock peer now answers joins
    obtain ⟨whole, welcome⟩ := joins.1.2 sock peer now answers rfl
    rw [(newcomer_heard manager sock peer now answers whole welcome).2]
    exact Or.inl (by decide)
  · intro c torrent peerId before
    exact before
  · intro a c after joins serving
    exact absurd serving joins.2.1

/-- Steps 1 and 2 of a round: every stream accounted for, and every connection that does not
wait for the rest of a frame is listed for the drop. -/
theorem servePass_turns (env : Env) (pfds : List PollFd) (listening : Listening pm) (room : Room pm)
    {id : Nat} {c : PeerConnection} (found : (servePass env pfds pm).1.conns.find? id = some c) :
    Heard pm c ∧ Turned id c (id ∈ (servePass env pfds pm).2.2) := by
  constructor
  · exact vets_heard (servePass_vets env pfds pm room).1 listening.heard id c found
  · have snapshot := (admitted_orderly env pfds listening.orderly).distinct
    have waits := admitted_unfinished env pfds listening room
    rw [servePass_admitted] at found ⊢
    rcases serveLoop_turns env pfds _ _ snapshot (fun id c _ => waits id c) found with
      ⟨-, before⟩ | ⟨-, turned⟩
    · exact Or.inl (waits id c before)
    · exact turned

/-- A connection before and after the keep-alives of a round. -/
inductive Pinged (now : Time) (old : PeerConnection) : PeerConnection → Prop
  | quiet : Pinged now old old
  | ping (empty : old.writeBuffer = []) (silent : kKeepAliveInterval ≤ now - old.lastSent) :
      Pinged now old (old.enqueue (Message.bytes .keepAlive))

theorem Pinged.reading {now : Time} {old c : PeerConnection} (pinged : Pinged now old c) : SameReading old c := by
  cases pinged <;> exact ⟨rfl, rfl, rfl, rfl⟩

/-- The connections of a finished round: those not listed for the drop, as they were served. -/
theorem handleEvents_kept (env : Env) (pfds : List PollFd) (pm : PeerManager) {id : Nat} {c : PeerConnection}
    (found : (handleEvents env pfds pm).1.conns.find? id = some c) :
    id ∉ (servePass env pfds pm).2.2 ∧
      ∃ old, (servePass env pfds pm).1.conns.find? id = some old ∧ Pinged (env.clock .sweep) old c := by
  unfold handleEvents at found
  generalize servePass env pfds pm = result at found ⊢
  obtain ⟨next, events, toDrop⟩ := result
  dsimp only at found ⊢
  rw [(dialMore_apart env _).conns, (acceptReady_apart env pfds _).conns,
    (expire_apart _ kHandshakeTimeout (env.clock .expireInbound) (env.clock .expireOutbound)).conns,
    keepAlives, Table.find_update] at found
  obtain ⟨old, present, same⟩ := Option.map_eq_some_iff.mp found
  rw [dropAll_conns] at present
  split at present
  · cases present
  · rename_i kept
    refine ⟨fun listed => kept (List.mem_append_left _ listed), old, present, ?_⟩
    split at same
    · rename_i silent
      rw [← same]
      exact Pinged.ping silent.1 silent.2
    · rw [← same]
      exact Pinged.quiet

theorem perform_listening (op : Op) (listening : Listening pm) (room : Room pm)
    (clean : Clean (pm.perform op).1) : Listening (pm.perform op).1 := by
  have orderly := perform_orderly op listening.orderly
  cases op with
  | handleEvents env pfds =>
    constructor
    · intro id c found
      obtain ⟨-, old, present, pinged⟩ := handleEvents_kept env pfds pm found
      have heard := (servePass_turns env pfds listening room present).1
      exact (heard.same pinged.reading).carry orderly (clean id c found)
    · intro id c found
      obtain ⟨kept, old, present, pinged⟩ := handleEvents_kept env pfds pm found
      rw [pinged.reading.buffer]
      rcases (servePass_turns env pfds listening room present).2 with unfinished | ⟨listed, -⟩
      · exact unfinished
      · exact absurd listed kept
    · rw [orderly.torrent, orderly.peerId]
      exact orderly
  | buildFds order => exact listening.quiet orderly clean (fun _ c found => ⟨c, found, SameReading.refl c⟩)
  | addPeers env peers =>
    apply listening.quiet orderly clean
    intro id c found
    simp only [perform] at found
    rw [(addPeers_apart env pm peers).conns] at found
    exact ⟨c, found, SameReading.refl c⟩
  | send id message now =>
    apply listening.quiet orderly clean
    intro other c found
    obtain ⟨old, present, unchanged | ⟨-, changed⟩⟩ := find_modify_some found
    · exact ⟨old, present, unchanged ▸ SameReading.refl old⟩
    · refine ⟨old, present, changed ▸ ?_⟩
      cases message <;> exact ⟨rfl, rfl, rfl, rfl⟩
  | broadcastHave index =>
    apply listening.quiet orderly clean
    intro id c found
    simp only [perform, broadcastHave, Table.find_update] at found
    obtain ⟨old, present, same⟩ := Option.map_eq_some_iff.mp found
    exact ⟨old, present, same ▸ ⟨rfl, rfl, rfl, rfl⟩⟩
  | ban host order =>
    apply listening.quiet orderly clean
    intro id c found
    by_cases already : host ∈ pm.banned
    · rw [perform, ban, if_pos already] at found
      exact ⟨c, found, SameReading.refl c⟩
    · rw [perform, ban_fresh host order already, dropAll_conns] at found
      split at found
      · cases found
      · exact ⟨c, found, SameReading.refl c⟩
  | expire id pending snubbed =>
    apply listening.quiet orderly clean
    intro other c found
    obtain ⟨old, present, unchanged | ⟨-, changed⟩⟩ := find_modify_some found
    · exact ⟨old, present, unchanged ▸ SameReading.refl old⟩
    · exact ⟨old, present, changed ▸ ⟨rfl, rfl, rfl, rfl⟩⟩

theorem used_listening (used : Used pm) : Listening pm := by
  induction used with
  | start pm begins =>
    obtain ⟨torrent, peerId, listenSock, maxPeers, created⟩ := begins
    unfold create at created
    split at created
    · cases created
    · cases created
      refine ⟨?_, ?_, rfl, rfl, ?_, ?_, List.nodup_nil⟩
      · intro id c found
        cases found
      · intro id c found
        cases found
      · intro p member
        cases member
      · intro p member
        cases member
  | next pm after op earlier moved listening =>
    have clean := used_clean (Reachable.next pm after op earlier moved)
    cases moved
    exact perform_listening op listening (used_room earlier) clean

end Calls

/-- What becomes of a peer whose stream so far is this: nothing before its 68th byte, and then
what `verify_handshake` says of the first 68. -/
def verdict (pm : PeerManager) (peer : Peer) (stream : Bytes) : HandshakeResult :=
  if stream.length < 68 then .keep
  else if pm.verifyHandshake (stream.take 68) peer = true then .promoted
  else .drop

section Handshakes

variable {env : Env} {bytes : Bytes}

theorem readHandshake_data {fd : Nat} {buffer : Bytes} (short : buffer.length < 68)
    (given : env.recv fd = .data bytes) (more : bytes ≠ []) :
    readHandshake env fd buffer =
      if (buffer ++ bytes).length < 68 then (.keep, buffer ++ bytes)
      else (.promoted, (buffer ++ bytes).take 68) := by
  have capped : buffer ++ bytes.take (68 - buffer.length) = (buffer ++ bytes).take 68 := by
    rw [List.take_append, List.take_of_length_le (Nat.le_of_lt short)]
  have some_ : bytes.take (68 - buffer.length) ≠ [] := by
    rw [Ne, List.take_eq_nil_iff, not_or]
    exact ⟨by omega, more⟩
  have size : ((buffer ++ bytes).take 68).length = min 68 (buffer ++ bytes).length := List.length_take
  unfold readHandshake
  rw [given]
  dsimp only
  rw [if_neg some_, capped]
  by_cases few : (buffer ++ bytes).length < 68
  · rw [if_pos few, if_pos (by omega), List.take_of_length_le (Nat.le_of_lt few)]
  · rw [if_neg few, if_neg (by omega)]

theorem advanceInbound_verdict {p : PendingInbound} (short : p.buffer.length < 68)
    (given : env.recv p.sock.fd = .data bytes) (more : bytes ≠ []) (pm : PeerManager) (out : List PeerEvent) :
    match pm.verdict p.peer (p.buffer ++ bytes) with
    | .keep => advanceInbound env pm p out = (some { p with buffer := p.buffer ++ bytes }, pm, out)
    | .drop => advanceInbound env pm p out = (none, pm, out)
    | .promoted => (advanceInbound env pm p out).1 = none ∧
        (advanceInbound env pm p out).2.1.promoted = pm.promoted + 1 := by
  unfold verdict advanceInbound
  rw [readHandshake_data short given more]
  by_cases few : (p.buffer ++ bytes).length < 68
  · simp only [if_pos few]
  · cases accepted : pm.verifyHandshake ((p.buffer ++ bytes).take 68) p.peer with
    | false => simp only [if_neg few, accepted, Bool.false_eq_true, if_false, if_true]
    | true =>
      simp only [if_neg few, accepted, if_true, Bool.true_eq_false, if_false]
      exact ⟨trivial, rfl⟩

theorem advanceOutbound_verdict {p : PendingOutbound} {rev : Nat} (short : p.buffer.length < 68)
    (connected : p.phase = .handshaking) (ready : readable rev = true)
    (given : env.recv p.sock.fd = .data bytes) (more : bytes ≠ []) (pm : PeerManager) (out : List PeerEvent) :
    (advanceOutbound env pm p rev out).1 = pm.verdict p.peer (p.buffer ++ bytes) ∧
      (pm.verdict p.peer (p.buffer ++ bytes) = .keep →
        (advanceOutbound env pm p rev out).2.1.buffer = p.buffer ++ bytes) := by
  unfold verdict advanceOutbound
  rw [connected, readHandshake_data short given more]
  simp only [ready, Bool.true_eq_false, if_false]
  by_cases few : (p.buffer ++ bytes).length < 68
  · simp only [if_pos few, true_and, implies_true]
  · cases accepted : pm.verifyHandshake ((p.buffer ++ bytes).take 68) p.peer with
    | false => simp only [if_neg few, accepted, Bool.false_eq_true, if_false, if_true, reduceCtorEq,
        false_implies, and_self]
    | true => simp only [if_neg few, accepted, Bool.true_eq_false, if_false, if_true, reduceCtorEq,
        false_implies, and_self]

end Handshakes

theorem Heard.leads {pm : PeerManager} {c : PeerConnection} (heard : Heard pm c) {stream rest : Bytes}
    {messages : List Bytes} (sent : c.sock.received <+: stream)
    (framed : Framed (2 ^ 20) (stream.drop 68) messages rest)
    (stopped : Unfinished (2 ^ 20) rest ∨ Oversized (2 ^ 20) rest) : c.handled <+: messages := by
  obtain ⟨unread, rfl⟩ := sent
  rw [List.drop_append_of_le_length heard.whole] at framed
  exact (heard.framed.more unread).leads (by decide) framed stopped

theorem dropped_gone (env : Env) (pfds : List PollFd) (pm : PeerManager) {id : Nat}
    (listed : id ∈ (servePass env pfds pm).2.2) : (handleEvents env pfds pm).1.conns.find? id = none := by
  cases present : (handleEvents env pfds pm).1.conns.find? id with
  | none => rfl
  | some c => exact absurd listed (handleEvents_kept env pfds pm present).1

/-- Reading a peer does not depend on how its stream is cut. The handshake is decided on the first
68 bytes; behind it exactly the frames of the stream are handled, each once and in order, up to a
message that breaks the protocol or a length over the limit, which drop the peer; and a
connection that stays waits for the rest of one frame. -/
theorem reading_ignores_cuts (pm : PeerManager) (used : Used pm) :
    (∀ p ∈ pm.inbound, p.buffer.length < 68 ∧
      ∀ env bytes, env.recv p.sock.fd = .data bytes → bytes ≠ [] → ∀ (now : PeerManager) out,
        match now.verdict p.peer (p.buffer ++ bytes) with
        | .keep => advanceInbound env now p out = (some { p with buffer := p.buffer ++ bytes }, now, out)
        | .drop => advanceInbound env now p out = (none, now, out)
        | .promoted => (advanceInbound env now p out).1 = none ∧
            (advanceInbound env now p out).2.1.promoted = now.promoted + 1) ∧
    (∀ p ∈ pm.outbound, p.buffer.length < 68 ∧
      ∀ env bytes rev, p.phase = .handshaking → readable rev = true →
        env.recv p.sock.fd = .data bytes → bytes ≠ [] → ∀ (now : PeerManager) out,
          (advanceOutbound env now p rev out).1 = now.verdict p.peer (p.buffer ++ bytes) ∧
            (now.verdict p.peer (p.buffer ++ bytes) = .keep →
              (advanceOutbound env now p rev out).2.1.buffer = p.buffer ++ bytes)) ∧
    (∀ id c, pm.conns.find? id = some c →
      Heard pm c ∧ Unfinished (2 ^ 20) c.readBuffer ∧ c.readBuffer.length < 4 + 2 ^ 20) ∧
    (∀ env pfds id c, (servePass env pfds pm).1.conns.find? id = some c →
      Heard pm c ∧ Turned id c (id ∈ (servePass env pfds pm).2.2) ∧
        ∀ stream messages rest, c.sock.received <+: stream → Framed (2 ^ 20) (stream.drop 68) messages rest →
          (Unfinished (2 ^ 20) rest ∨ Oversized (2 ^ 20) rest) → c.handled <+: messages) ∧
    (∀ env pfds, ∀ id ∈ (servePass env pfds pm).2.2, (handleEvents env pfds pm).1.conns.find? id = none) ∧
    (∀ other, Used other → ∀ id name c d, pm.conns.find? id = some c → other.conns.find? name = some d →
      c.sock.received = d.sock.received → c.handled = d.handled ∧ c.readBuffer = d.readBuffer) ∧
    (∀ id payload rest, payload.length < 2 ^ 20 →
      extractMessage (buildMessage id payload ++ rest) = .ok (some (id :: payload, rest))) := by
  have listening := used_listening used
  have room := used_room used
  refine ⟨?_, ?_, ?_, ?_, fun env pfds id => dropped_gone env pfds pm, ?_, ?_⟩
  · intro p member
    have short := listening.orderly.waiting p member
    exact ⟨short, fun env bytes given more => advanceInbound_verdict short given more⟩
  · intro p member
    have short := listening.orderly.dialing p member
    exact ⟨short, fun env bytes rev connected ready given more =>
      advanceOutbound_verdict short connected ready given more⟩
  · intro id c found
    have unfinished := listening.unfinished id c found
    exact ⟨listening.heard id c found, unfinished, unfinished.bound⟩
  · intro env pfds id c found
    obtain ⟨heard, turned⟩ := servePass_turns env pfds listening room found
    exact ⟨heard, turned, fun _ _ _ => heard.leads⟩
  · intro other elsewhere id name c d found present same
    have heard := listening.heard id c found
    have heeded := (used_listening elsewhere).heard name d present
    have framed := heard.framed
    rw [same] at framed
    exact framed.unique (by decide) (Or.inl (listening.unfinished id c found)) heeded.framed
      (Or.inl ((used_listening elsewhere).unfinished name d present))
  · intro id payload rest small
    rw [buildMessage_frame small]
    exact extractMessage_frame (id :: payload) rest small

section Example

def cutMessage : Option PeerManager :=
  oneArrival.bind (fun pm => run (fun pm op => some (pm.perform op).1) pm [
    .buildFds [],
    .handleEvents { Session.quietEnv with recv := fun _ => .data [0, 0] } [⟨3, pollIn, 0⟩, ⟨5, pollIn, pollIn⟩],
    .buildFds [],
    .handleEvents { Session.quietEnv with recv := fun _ => .data [0, 1, 2, 0] }
      [⟨3, pollIn, 0⟩, ⟨5, pollIn, pollIn⟩]])

end Example

theorem reading_ignores_cuts_interested :
    ∃ pm c, Used pm ∧ pm.conns.find? 0 = some c ∧ c.handled = [[2]] ∧ c.readBuffer = [0] ∧ Heard pm c := by
  have seen : (cutMessage.bind (fun pm => pm.conns.find? 0)).map (fun c => (c.handled, c.readBuffer)) =
      some ([[2]], [0]) := by
    decide +kernel
  obtain ⟨c, located, shape⟩ := Option.map_eq_some_iff.mp seen
  obtain ⟨pm, ran, found⟩ := Option.bind_eq_some_iff.mp located
  obtain ⟨arrived, first, onward⟩ := Option.bind_eq_some_iff.mp ran
  have used : Used pm := (oneArrival_used first).run onward
  obtain ⟨handled, buffer⟩ := Prod.mk.inj shape
  exact ⟨pm, c, used, found, handled, buffer, ((reading_ignores_cuts pm used).2.2.1 0 c found).1⟩

end TorrentPeer.PeerManager
