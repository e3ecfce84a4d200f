import TorrentPeer.Runtime.Wire
import TorrentPeer.Core.Bitfield

/-! One established peer: its write queue, and what each message it sends does. -/

namespace TorrentPeer

open Splice BigEndian Wire

inductive PeerEvent where
  | choke (peerId : Nat) (released : List BlockRequest)
  | unchoke (peerId : Nat)
  | piece (peerId : Nat) (block : Block)
  | dropped (peerId : Nat) (released : List BlockRequest)
  | request (peerId : Nat) (req : BlockRequest)
  | joined (peerId : Nat)
  deriving DecidableEq, Repr

/-- A descriptor with all the bytes the kernel has taken on it, and all it has given. -/
structure Socket where
  fd : Nat
  sent : Bytes := []
  received : Bytes := []
  deriving DecidableEq, Repr

structure PeerConnection where
  id : Nat
  sock : Socket
  peer : Peer
  amChoking : Bool := true
  amInterested : Bool := false
  peerChoking : Bool := true
  peerInterested : Bool := false
  gotBitfield : Bool := false
  pending : List PendingRequest := []
  snubbed : Bool := false
  lastSent : Time
  lastReceived : Time
  hasPieces : Bitfield
  readBuffer : Bytes := []
  writeBuffer : List Bytes := []
  cursor : Nat := 0
  queuedBytes : Nat := 0
  /-- History: every message given to `handle_message`. No function reads it. -/
  handled : List Bytes := []
  /-- History: every message given to `enqueue`. -/
  enqueued : List Bytes := []
  deriving DecidableEq, Repr

/-- Result of `send`: bytes taken, a transient error, or a fatal one. -/
inductive Send where
  | accepted (count : Nat)
  | transient
  | failed

namespace PeerConnection

def enqueue (c : PeerConnection) (msg : Bytes) : PeerConnection :=
  { c with
    queuedBytes := c.queuedBytes + msg.length
    writeBuffer := c.writeBuffer ++ [msg]
    enqueued := c.enqueued ++ [msg] }

def advance (c : PeerConnection) (front : Bytes) (rest : List Bytes) (w : Nat) (now : Time) :
    PeerConnection :=
  let moved := { c with
    lastSent := now
    cursor := c.cursor + w
    sock := { c.sock with sent := c.sock.sent ++ slice front c.cursor w } }
  if moved.cursor = front.length then
    { moved with
      queuedBytes := moved.queuedBytes - front.length
      writeBuffer := rest
      cursor := 0 }
  else moved

def drain (c : PeerConnection) (result : Send) (now : Time) : PeerConnection × Bool :=
  match c.writeBuffer with
  | [] => (c, false)
  | front :: rest =>
    match result with
    | .failed => (c, true)
    | .transient => (c, false)
    | .accepted count => (c.advance front rest (min count (front.length - c.cursor)) now, false)

/-- The test `remove_queued_piece` applies to a queued message. -/
def queuedPiece (index offset length : Nat) (m : Bytes) : Bool :=
  decide (m.length = 13 + length ∧ m[4]? = some msgPiece ∧ readBe32 (m.drop 5) = index ∧
    readBe32 (m.drop 9) = offset)

def removeQueuedPiece (c : PeerConnection) (index offset length : Nat) : PeerConnection × Bool :=
  let first := if 0 < c.cursor then 1 else 0
  match (c.writeBuffer.drop first).findIdx? (queuedPiece index offset length) with
  | none => (c, false)
  | some k =>
    let m := c.writeBuffer.getD (first + k) []
    ({ c with
      queuedBytes := c.queuedBytes - m.length
      writeBuffer := c.writeBuffer.eraseIdx (first + k) }, true)

theorem drain_shape (c : PeerConnection) (result : Send) (now : Time) :
    ∃ stamp sent cursor queued buffer, (c.drain result now).1 =
      { c with
        lastSent := stamp
        sock := { c.sock with sent := sent }
        cursor := cursor
        queuedBytes := queued
        writeBuffer := buffer } := by
  unfold drain
  split
  · exact ⟨_, _, _, _, _, rfl⟩
  · split
    · exact ⟨_, _, _, _, _, rfl⟩
    · exact ⟨_, _, _, _, _, rfl⟩
    · unfold advance
      dsimp only
      split
      · exact ⟨_, _, _, _, _, rfl⟩
      · exact ⟨_, _, _, _, _, rfl⟩

theorem removeQueuedPiece_shape (c : PeerConnection) (index offset length : Nat) :
    ∃ queued buffer, (c.removeQueuedPiece index offset length).1 =
      { c with queuedBytes := queued, writeBuffer := buffer } := by
  unfold removeQueuedPiece
  dsimp only
  split
  · exact ⟨_, _, rfl⟩
  · exact ⟨_, _, rfl⟩

end PeerConnection

def requestsOf (pending : List PendingRequest) : List BlockRequest := pending.map PendingRequest.req

def applyAvailability (frequency : List Nat) (field : Bitfield) (delta : Int) : List Nat :=
  frequency.mapIdx (fun (i count : Nat) =>
    if field.get i = true then (((count : Int) + delta) % 65536).toNat else count)

/-- What handling one message leaves: the connection, the availability counts, the events
of the round so far, and an exception if the message broke the protocol. -/
structure Handled where
  conn : PeerConnection
  frequency : List Nat
  out : List PeerEvent
  thrown : Option Exn := none

namespace PeerConnection

def protocolError (what : String) : Option Exn := some (.runtimeError (ascii what))

section Messages

variable (c : PeerConnection) (frequency : List Nat) (out : List PeerEvent) (payload : Bytes)

def onChoke (peerId : Nat) : Handled :=
  ⟨{ c with peerChoking := true, pending := [] }, frequency,
    out ++ [.choke peerId (requestsOf c.pending)], none⟩

def onHave : Handled :=
  if payload.length ≠ 4 then ⟨c, frequency, out, protocolError "bad have"⟩
  else
    let index := readBe32 payload
    if c.hasPieces.bits ≤ index then ⟨c, frequency, out, protocolError "have out of range"⟩
    else if c.hasPieces.get index = true then ⟨c, frequency, out, none⟩
    else
      match c.hasPieces.set index with
      | .error problem => ⟨c, frequency, out, some problem⟩
      | .ok field =>
        ⟨{ c with hasPieces := field }, frequency.modify index (fun count => (count + 1) % 65536),
          out, none⟩

def onBitfield : Handled :=
  if c.gotBitfield = true then ⟨c, frequency, out, none⟩
  else
    let noted := { c with gotBitfield := true }
    match Bitfield.fromBytes payload c.hasPieces.bits with
    | .error problem => ⟨noted, frequency, out, some problem⟩
    | .ok field => ⟨{ noted with hasPieces := field }, applyAvailability frequency field 1, out, none⟩

def onRequest (peerId : Nat) : Handled :=
  if c.amChoking = true then ⟨c, frequency, out, none⟩
  else if payload.length ≠ 12 then ⟨c, frequency, out, protocolError "bad request"⟩
  else
    let length := readBe32 (payload.drop 8)
    if kBlockSize < length then ⟨c, frequency, out, protocolError "request too large"⟩
    else
      ⟨c, frequency, out ++ [.request peerId ⟨readBe32 payload, readBe32 (payload.drop 4), length⟩],
        none⟩

def onPiece (peerId : Nat) : Handled :=
  if payload.length < 8 then ⟨c, frequency, out, protocolError "bad piece"⟩
  else
    let block : Block := ⟨readBe32 payload, readBe32 (payload.drop 4), payload.drop 8⟩
    let answered : BlockRequest := ⟨block.pieceIndex, block.offset, block.data.length % 2 ^ 32⟩
    match c.pending.findIdx? (fun p => decide (p.req = answered)) with
    | none => ⟨c, frequency, out, none⟩
    | some k =>
      ⟨{ c with pending := c.pending.eraseIdx k, snubbed := false }, frequency,
        out ++ [.piece peerId block], none⟩

def eraseLast (test : PeerEvent → Bool) (events : List PeerEvent) : List PeerEvent :=
  (events.reverse.eraseP test).reverse

def onCancel (peerId : Nat) : Handled :=
  if payload.length ≠ 12 then ⟨c, frequency, out, protocolError "bad cancel"⟩
  else
    let req : BlockRequest := ⟨readBe32 payload, readBe32 (payload.drop 4), readBe32 (payload.drop 8)⟩
    if kBlockSize < req.length then ⟨c, frequency, out, protocolError "cancel too large"⟩
    else
      let waiting := fun event => decide (event = PeerEvent.request peerId req)
      if out.any waiting = true then ⟨c, frequency, eraseLast waiting out, none⟩
      else ⟨(c.removeQueuedPiece req.pieceIndex req.offset req.length).1, frequency, out, none⟩

end Messages

/-- The switch of `handle_message`. -/
def handle (c : PeerConnection) (peerId : Nat) (frequency : List Nat) (out : List PeerEvent) :
    Bytes → Handled
  -- an empty message is a keep-alive
  | [] => ⟨c, frequency, out, none⟩
  | id :: payload =>
    if id = msgChoke then c.onChoke frequency out peerId
    else if id = msgUnchoke then
      ⟨{ c with peerChoking := false }, frequency, out ++ [.unchoke peerId], none⟩
    else if id = msgInterested then ⟨{ c with peerInterested := true }, frequency, out, none⟩
    else if id = msgNotInterested then ⟨{ c with peerInterested := false }, frequency, out, none⟩
    else if id = msgHave then c.onHave frequency out payload
    else if id = msgBitfield then c.onBitfield frequency out payload
    else if id = msgRequest then c.onRequest frequency out payload peerId
    else if id = msgPiece then c.onPiece frequency out payload peerId
    else if id = msgCancel then c.onCancel frequency out payload peerId
    else ⟨c, frequency, out, none⟩

/-- Everything one message can do. -/
inductive Effect (c : PeerConnection) (peerId : Nat) (frequency : List Nat) (out : List PeerEvent)
    (msg : Bytes) : Handled → Prop
  | flags (choking interested got : Bool) (thrown : Option Exn) :
      Effect c peerId frequency out msg
        ⟨{ c with peerChoking := choking, peerInterested := interested, gotBitfield := got },
          frequency, out, thrown⟩
  | unchoked :
      Effect c peerId frequency out msg
        ⟨{ c with peerChoking := false }, frequency, out ++ [.unchoke peerId], none⟩
  | choked :
      Effect c peerId frequency out msg
        ⟨{ c with peerChoking := true, pending := [] }, frequency,
          out ++ [.choke peerId (requestsOf c.pending)], none⟩
  | had (index : Nat) (field : Bitfield) (fresh : c.hasPieces.get index = false)
      (stored : c.hasPieces.set index = .ok field) :
      Effect c peerId frequency out msg
        ⟨{ c with hasPieces := field }, frequency.modify index (fun count => (count + 1) % 65536),
          out, none⟩
  | announced (payload : Bytes) (field : Bitfield) (shape : msg = msgBitfield :: payload)
      (first : c.gotBitfield = false) (parsed : Bitfield.fromBytes payload c.hasPieces.bits = .ok field) :
      Effect c peerId frequency out msg
        ⟨{ c with gotBitfield := true, hasPieces := field }, applyAvailability frequency field 1, out, none⟩
  | asked (req : BlockRequest) (unchoked : c.amChoking = false) (small : req.length ≤ kBlockSize)
      (index : req.pieceIndex < 2 ^ 32) (offset : req.offset < 2 ^ 32) :
      Effect c peerId frequency out msg ⟨c, frequency, out ++ [.request peerId req], none⟩
  | delivered (k : Nat) (block : Block) (size : block.data.length + 9 = msg.length)
      (answered : (c.pending[k]?).map PendingRequest.req =
        some ⟨block.pieceIndex, block.offset, block.data.length % 2 ^ 32⟩) :
      Effect c peerId frequency out msg
        ⟨{ c with pending := c.pending.eraseIdx k, snubbed := false }, frequency,
          out ++ [.piece peerId block], none⟩
  | withdrawn (req : BlockRequest) :
      Effect c peerId frequency out msg
        ⟨c, frequency, eraseLast (fun event => decide (event = PeerEvent.request peerId req)) out, none⟩
  | cancelled (index offset length : Nat) :
      Effect c peerId frequency out msg
        ⟨(c.removeQueuedPiece index offset length).1, frequency, out, none⟩

section Effects

variable (c : PeerConnection) (peerId : Nat) (frequency : List Nat) (out : List PeerEvent)

theorem Effect.unchanged (msg : Bytes) (thrown : Option Exn) :
    Effect c peerId frequency out msg ⟨c, frequency, out, thrown⟩ :=
  Effect.flags c.peerChoking c.peerInterested c.gotBitfield thrown

theorem onHave_effect (payload msg : Bytes) :
    Effect c peerId frequency out msg (c.onHave frequency out payload) := by
  unfold onHave
  split
  · exact Effect.unchanged c peerId frequency out msg _
  · dsimp only
    split
    · exact Effect.unchanged c peerId frequency out msg _
    · split
      · exact Effect.unchanged c peerId frequency out msg _
      · rename_i fresh
        split
        · exact Effect.unchanged c peerId frequency out msg _
        · rename_i field stored
          exact Effect.had _ field (Bool.eq_false_iff.mpr fresh) stored

theorem onBitfield_effect (payload : Bytes) :
    Effect c peerId frequency out (msgBitfield :: payload) (c.onBitfield frequency out payload) := by
  unfold onBitfield
  split
  · exact Effect.unchanged c peerId frequency out _ _
  · rename_i first
    dsimp only
    split
    · exact Effect.flags c.peerChoking c.peerInterested true _
    · rename_i field parsed
      exact Effect.announced payload field rfl (Bool.eq_false_iff.mpr first) parsed

theorem onRequest_effect (payload msg : Bytes) :
    Effect c peerId frequency out msg (c.onRequest frequency out payload peerId) := by
  unfold onRequest
  split
  · exact Effect.unchanged c peerId frequency out msg _
  · rename_i unchoked
    split
    · exact Effect.unchanged c peerId frequency out msg _
    · dsimp only
      split
      · exact Effect.unchanged c peerId frequency out msg _
      · rename_i small
        exact Effect.asked _ (Bool.eq_false_iff.mpr unchoked) (Nat.le_of_not_lt small)
          (readBe32_bound _) (readBe32_bound _)

theorem onPiece_effect (id : UInt8) (payload : Bytes) :
    Effect c peerId frequency out (id :: payload) (c.onPiece frequency out payload peerId) := by
  unfold onPiece
  split
  · exact Effect.unchanged c peerId frequency out _ _
  · rename_i long
    dsimp only
    split
    · exact Effect.unchanged c peerId frequency out _ _
    · rename_i k located
      obtain ⟨bound, same, -⟩ := List.findIdx?_eq_some_iff_getElem.mp located
      refine Effect.delivered k _ ?_ ?_
      · simp only [List.length_drop, List.length_cons]
        omega
      · rw [List.getElem?_eq_getElem bound, Option.map_some, of_decide_eq_true same]

theorem onCancel_effect (payload msg : Bytes) :
    Effect c peerId frequency out msg (c.onCancel frequency out payload peerId) := by
  unfold onCancel
  split
  · exact Effect.unchanged c peerId frequency out msg _
  · dsimp only
    split
    · exact Effect.unchanged c peerId frequency out msg _
    · split
      · exact Effect.withdrawn _
      · exact Effect.cancelled _ _ _

theorem handle_effect (msg : Bytes) :
    Effect c peerId frequency out msg (c.handle peerId frequency out msg) := by
  unfold handle
  split
  · exact Effect.unchanged c peerId frequency out _ _
  · rename_i id payload
    split
    · exact Effect.choked
    split
    · exact Effect.unchoked
    split
    · exact Effect.flags c.peerChoking true c.gotBitfield none
    split
    · exact Effect.flags c.peerChoking false c.gotBitfield none
    split
    · exact onHave_effect c peerId frequency out payload _
    split
    · rename_i bitfield
      rw [bitfield]
      exact onBitfield_effect c peerId frequency out payload
    split
    · exact onRequest_effect c peerId frequency out payload _
    split
    · exact onPiece_effect c peerId frequency out id payload
    split
    · exact onCancel_effect c peerId frequency out payload _
    · exact Effect.unchanged c peerId frequency out _ _

end Effects

end PeerConnection

end TorrentPeer
