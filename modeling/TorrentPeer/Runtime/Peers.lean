import TorrentPeer.Runtime.Connection
import TorrentPeer.Lib.Table
import TorrentPeer.Lib.Decimal
import Mathlib.Data.Finset.Insert
import Mathlib.Data.Finset.Erase

/-! `PeerManager`: handshakes, established peers, dialing and bans. Whatever the system
answers (sockets, clock, `poll`) is an argument. -/

namespace TorrentPeer

open Splice BigEndian Wire

def pollIn : Nat := 1
def pollOut : Nat := 4
def pollErr : Nat := 8
def pollHup : Nat := 16

structure PollFd where
  fd : Nat
  events : Nat
  revents : Nat := 0
  deriving DecidableEq, Repr

/-- Result of `recv`. No bytes at all means that the peer closed the connection. -/
inductive Recv where
  | data (bytes : Bytes)
  | transient
  | failed

structure Accepted where
  fd : Nat
  host : Bytes
  port : Nat

/-- Result of `socket` and `connect` for one dial. -/
inductive Dial where
  | noSocket
  | refused
  | started (fd : Nat)

/-- The places that read the clock during one call. -/
inductive Site where
  | promote (fd : Nat)
  | drain (fd : Nat)
  | receive (fd : Nat)
  | connected (fd : Nat)
  | accept (fd : Nat)
  | dial (fd : Nat)
  | sweep
  | expireInbound
  | expireOutbound

structure Env where
  recv : Nat → Recv
  send : Nat → Send
  /-- `SO_ERROR` is set on the socket. -/
  soError : Nat → Bool
  accepts : List Accepted
  /-- Outcome of the n-th dial of the call. -/
  dial : Nat → Dial
  /-- `inet_pton` accepts the host. -/
  inetPton : Bytes → Bool
  clock : Site → Time
  /-- Iteration order of `conns_` where it shows. -/
  order : List Nat

structure PendingInbound where
  sock : Socket
  peer : Peer
  /-- The handshake bytes received so far. -/
  buffer : Bytes := []
  started : Time

inductive Phase where
  | connecting
  | handshaking
  deriving DecidableEq, Repr

structure PendingOutbound where
  phase : Phase := .connecting
  sock : Socket
  peer : Peer
  buffer : Bytes := []
  deadline : Time

inductive HandshakeResult where
  | keep
  | drop
  | promoted
  deriving DecidableEq, Repr

structure PeerManager where
  conns : Table Nat PeerConnection
  inbound : List PendingInbound
  outbound : List PendingOutbound
  candidates : List Peer
  known : Finset Bytes
  banned : Finset Bytes
  torrent : TorrentFile
  peerId : Bytes
  pieceCount : Nat
  /-- Promotions so far; `next_id_` is this number modulo 2^32. -/
  promoted : Nat
  listenSock : Option Nat
  maxPeers : Nat
  pieceFrequency : List Nat
  ids : List Nat
  inboundAt : Nat
  outboundAt : Nat
  connsAt : Nat

namespace PeerManager

def kMaxHalfOpen : Nat := 20
def kMaxCandidates : Nat := 1000
def kMaxQueuedBytes : Nat := 2 ^ 22
def kConnectTimeout : Time := seconds 10
def kHandshakeTimeout : Time := seconds 15
def kKeepAliveInterval : Time := seconds 60
def kIdleTimeout : Time := seconds 150

def create (torrent : TorrentFile) (peerId : Bytes) (listenSock : Option Nat) (maxPeers : Nat) :
    Except Exn PeerManager :=
  if peerId.length ≠ 20 then .error (.runtimeError (ascii "peer_id must be exactly 20 bytes"))
  else .ok {
    conns := Table.empty
    inbound := []
    outbound := []
    candidates := []
    known := ∅
    banned := ∅
    torrent := torrent
    peerId := peerId
    pieceCount := torrent.pieces.length % 2 ^ 32
    promoted := 0
    listenSock := listenSock
    maxPeers := maxPeers
    pieceFrequency := List.replicate torrent.pieces.length 0
    ids := []
    inboundAt := 0
    outboundAt := 0
    connsAt := 0 }

def key (p : Peer) : Bytes := p.host ++ ascii ":" ++ p.port

section Sending

variable (pm : PeerManager) (id : Nat)

def sendTo (msg : Message) : PeerManager :=
  { pm with conns := pm.conns.modify id (fun c => c.enqueue msg.bytes) }

def sendKeepAlive : PeerManager := pm.sendTo id .keepAlive

def sendInterested : PeerManager :=
  { pm with conns := pm.conns.modify id (fun c =>
    { c with amInterested := true }.enqueue (Message.bytes .interested)) }

def sendChoke : PeerManager :=
  { pm with conns := pm.conns.modify id (fun c =>
    { c with amChoking := true }.enqueue (Message.bytes .choke)) }

def sendUnchoke : PeerManager :=
  { pm with conns := pm.conns.modify id (fun c =>
    { c with amChoking := false }.enqueue (Message.bytes .unchoke)) }

def sendBitfield (field : Bitfield) : PeerManager := pm.sendTo id (.bitfield field.bytes)

def sendPiece (index offset : Nat) (data : Bytes) : PeerManager :=
  pm.sendTo id (.piece index offset data)

def sendRequest (req : BlockRequest) (now : Time) : PeerManager :=
  { pm with conns := pm.conns.modify id (fun c =>
    { c with pending := c.pending ++ [PendingRequest.mk req now] }.enqueue
      (Message.bytes (.request req))) }

def canQueue : Bool :=
  match pm.conns.find? id with
  | none => false
  | some c => decide (c.queuedBytes < kMaxQueuedBytes)

end Sending

def broadcastHave (pm : PeerManager) (index : Nat) : PeerManager :=
  { pm with conns := pm.conns.update (fun _ c => c.enqueue (Message.bytes (.have_ index))) }

def isBanned (pm : PeerManager) (host : Bytes) : Bool := decide (host ∈ pm.banned)

def drop (pm : PeerManager) (id : Nat) (out : List PeerEvent) : PeerManager × List PeerEvent :=
  match pm.conns.find? id with
  | none => (pm, out)
  | some c =>
    ({ pm with
        pieceFrequency := applyAvailability pm.pieceFrequency c.hasPieces (-1)
        known := pm.known.erase (key c.peer)
        conns := pm.conns.erase id },
      out ++ [.dropped id (requestsOf c.pending)])

def dropAll (pm : PeerManager) (out : List PeerEvent) : List Nat → PeerManager × List PeerEvent
  | [] => (pm, out)
  | id :: ids =>
    let (next, events) := pm.drop id out
    dropAll next events ids

def ban (pm : PeerManager) (host : Bytes) (order : List Nat) : PeerManager × List PeerEvent :=
  if host ∈ pm.banned then (pm, [])
  else
    let ids := (pm.conns.arrange order).filter (fun id =>
      decide ((pm.conns.find? id).map (fun c => c.peer.host) = some host))
    dropAll { pm with banned := insert host pm.banned } [] ids

/-- `from_chars` into `uint16_t`: the whole text, and not zero. -/
def parsePort (text : Bytes) : Option Nat :=
  let parsed := Decimal.fromChars 0 65535 text
  if parsed.ec ≠ .ok ∨ parsed.ptr ≠ text.length ∨ parsed.value = 0 then none
  else some parsed.value.toNat

def startDial (env : Env) (peer : Peer) (attempt : Nat) : Option PendingOutbound :=
  if parsePort peer.port = none ∨ env.inetPton peer.host = false then none
  else
    match env.dial attempt with
    | .noSocket => none
    | .refused => none
    | .started fd => some {
        sock := { fd := fd }
        peer := peer
        deadline := env.clock (.dial fd) + kConnectTimeout }

/-- The loop of `dial_more` over what is left of `candidates_`. -/
def dialLoop (env : Env) : List Peer → Nat → PeerManager → PeerManager
  | [], _, pm => { pm with candidates := [] }
  | p :: rest, attempt, pm =>
    if pm.outbound.length < kMaxHalfOpen ∧
        pm.conns.size + pm.inbound.length + pm.outbound.length < pm.maxPeers then
      let dialled := if p.host ∈ pm.banned then none else startDial env p attempt
      match dialled with
      | none => dialLoop env rest (attempt + 1) { pm with known := pm.known.erase (key p) }
      | some o => dialLoop env rest (attempt + 1) { pm with outbound := pm.outbound ++ [o] }
    else { pm with candidates := p :: rest }

def dialMore (env : Env) (pm : PeerManager) : PeerManager := dialLoop env pm.candidates 0 pm

/-- The loop of `add_peers`. -/
def queuePeers : List Peer → PeerManager → PeerManager
  | [], pm => pm
  | p :: peers, pm =>
    if kMaxCandidates ≤ pm.candidates.length then pm
    else if key p ∈ pm.known then queuePeers peers pm
    else queuePeers peers { pm with
      known := insert (key p) pm.known
      candidates := pm.candidates ++ [p] }

def addPeers (env : Env) (pm : PeerManager) (peers : List Peer) : PeerManager :=
  dialMore env (queuePeers peers pm)

def promote (pm : PeerManager) (sock : Socket) (peer : Peer) (now : Time) (out : List PeerEvent) :
    PeerManager × List PeerEvent :=
  let id := pm.promoted % 2 ^ 32
  let c : PeerConnection := {
    id := id
    sock := sock
    peer := peer
    lastSent := now
    lastReceived := now
    hasPieces := Bitfield.ofBits pm.pieceCount }
  ({ pm with promoted := pm.promoted + 1, conns := pm.conns.emplace id c }, out ++ [.joined id])

def verifyHandshake (pm : PeerManager) (hs : Bytes) (peer : Peer) : Bool :=
  decide (peer.host ∉ pm.banned ∧ hs[0]? = some 19 ∧ slice hs 1 19 = ascii "BitTorrent protocol" ∧
    slice hs 28 20 = pm.torrent.infoHash ∧ slice hs 48 20 ≠ pm.peerId)

def readHandshake (env : Env) (fd : Nat) (buffer : Bytes) : HandshakeResult × Bytes :=
  match env.recv fd with
  | .transient => (.keep, buffer)
  | .failed => (.drop, buffer)
  | .data bytes =>
    let chunk := bytes.take (68 - buffer.length)
    if chunk = [] then (.drop, buffer)
    else if (buffer ++ chunk).length < 68 then (.keep, buffer ++ chunk)
    else (.promoted, buffer ++ chunk)

/-- `advance_inbound`; the entry comes back for the next round if it is kept. -/
def advanceInbound (env : Env) (pm : PeerManager) (p : PendingInbound) (out : List PeerEvent) :
    Option PendingInbound × PeerManager × List PeerEvent :=
  match readHandshake env p.sock.fd p.buffer with
  | (.keep, buffer) => (some { p with buffer := buffer }, pm, out)
  | (.drop, _) => (none, pm, out)
  | (.promoted, buffer) =>
    if pm.verifyHandshake buffer p.peer = false then (none, pm, out)
    else
      let id := pm.promoted % 2 ^ 32
      let (next, events) := pm.promote { p.sock with received := buffer } p.peer
        (env.clock (.promote p.sock.fd)) out
      (none, next.sendTo id (.handshake pm.torrent pm.peerId), events)

def readable (rev : Nat) : Bool := decide (rev &&& (pollIn ||| pollErr ||| pollHup) ≠ 0)

def writable (rev : Nat) : Bool := decide (rev &&& pollOut ≠ 0)

def reventsAt (pfds : List PollFd) (i : Nat) : Nat := ((pfds[i]?).map PollFd.revents).getD 0

/-- The loop over `inbound_`; survivors in order. -/
def inboundLoop (env : Env) (pfds : List PollFd) :
    List PendingInbound → Nat → PeerManager → List PeerEvent →
      List PendingInbound × PeerManager × List PeerEvent
  | [], _, pm, out => ([], pm, out)
  | p :: rest, at_, pm, out =>
    let rev := reventsAt pfds at_
    let (kept, next, events) :=
      if rev = 0 then (some p, pm, out)
      else if readable rev = true then advanceInbound env pm p out
      else (none, pm, out)
    let (still, last, all) := inboundLoop env pfds rest (at_ + 1) next events
    (kept.toList ++ still, last, all)

def inboundPass (env : Env) (pfds : List PollFd) (pm : PeerManager) (out : List PeerEvent) :
    PeerManager × List PeerEvent :=
  let (still, next, events) := inboundLoop env pfds pm.inbound pm.inboundAt pm out
  ({ next with inbound := still }, events)

/-- `advance_outbound`, with the entry to keep or the address to forget. -/
def advanceOutbound (env : Env) (pm : PeerManager) (p : PendingOutbound) (rev : Nat)
    (out : List PeerEvent) :
    HandshakeResult × PendingOutbound × PeerManager × List PeerEvent :=
  match p.phase with
  | .connecting =>
    if env.soError p.sock.fd = true then (.drop, p, pm, out)
    else
      let hs := buildHandshake pm.torrent pm.peerId
      let taken := match env.send p.sock.fd with
        | .accepted count => hs.take count
        | _ => []
      (.keep, { p with
        phase := .handshaking
        sock := { p.sock with sent := p.sock.sent ++ taken }
        deadline := env.clock (.connected p.sock.fd) + kHandshakeTimeout }, pm, out)
  | .handshaking =>
    if readable rev = false then (.keep, p, pm, out)
    else
      match readHandshake env p.sock.fd p.buffer with
      | (.keep, buffer) => (.keep, { p with buffer := buffer }, pm, out)
      | (.drop, _) => (.drop, p, pm, out)
      | (.promoted, buffer) =>
        if pm.verifyHandshake buffer p.peer = false then (.drop, p, pm, out)
        else
          let (next, events) := pm.promote { p.sock with received := buffer } p.peer
            (env.clock (.promote p.sock.fd)) out
          (.promoted, p, next, events)

def outboundLoop (env : Env) (pfds : List PollFd) :
    List PendingOutbound → Nat → PeerManager → List PeerEvent →
      List PendingOutbound × PeerManager × List PeerEvent
  | [], _, pm, out => ([], pm, out)
  | p :: rest, at_, pm, out =>
    let rev := reventsAt pfds at_
    let (result, q, next, events) :=
      if rev = 0 then (.keep, p, pm, out) else advanceOutbound env pm p rev out
    let next := if result = .drop then { next with known := next.known.erase (key p.peer) } else next
    let (still, last, all) := outboundLoop env pfds rest (at_ + 1) next events
    (if result = .keep then q :: still else still, last, all)

def outboundPass (env : Env) (pfds : List PollFd) (pm : PeerManager) (out : List PeerEvent) :
    PeerManager × List PeerEvent :=
  let (still, next, events) := outboundLoop env pfds pm.outbound pm.outboundAt pm out
  ({ next with outbound := still }, events)

def handleMessage (pm : PeerManager) (id : Nat) (msg : Bytes) (out : List PeerEvent) :
    PeerManager × List PeerEvent × Option Exn :=
  match pm.conns.find? id with
  | none => (pm, out, none)
  | some c =>
    let handled := c.handle id pm.pieceFrequency out msg
    ({ pm with
        conns := pm.conns.modify id (fun _ => handled.conn)
        pieceFrequency := handled.frequency },
      handled.out, handled.thrown)

/-- The `extract_message` loop; the flag says that a message threw. -/
def readMessages (id : Nat) : Nat → PeerManager → List PeerEvent → PeerManager × List PeerEvent × Bool
  | 0, pm, out => (pm, out, false)
  | fuel + 1, pm, out =>
    match (pm.conns.find? id).map (fun c => extractMessage c.readBuffer) with
    | none => (pm, out, false)
    | some (.error _) => (pm, out, true)
    | some (.ok none) => (pm, out, false)
    | some (.ok (some (msg, rest))) =>
      let popped := { pm with conns := pm.conns.modify id (fun c =>
        { c with readBuffer := rest, handled := c.handled ++ [msg] }) }
      match popped.handleMessage id msg out with
      | (next, events, none) => readMessages id fuel next events
      | (next, events, some _) => (next, events, true)

def readConnection (env : Env) (pm : PeerManager) (id : Nat) (c : PeerConnection)
    (out : List PeerEvent) : PeerManager × List PeerEvent × Bool :=
  match env.recv c.sock.fd with
  | .transient => (pm, out, false)
  | .failed => (pm, out, true)
  | .data bytes =>
    let chunk := bytes.take 16384
    if chunk = [] then (pm, out, true)
    else
      let filled := { pm with conns := pm.conns.modify id (fun c =>
        { c with
          sock := { c.sock with received := c.sock.received ++ chunk }
          readBuffer := c.readBuffer ++ chunk
          lastReceived := env.clock (.receive c.sock.fd) }) }
      -- a message takes at least its four length bytes from the buffer
      readMessages id (c.readBuffer.length + chunk.length + 1) filled out

def serveConnection (env : Env) (pm : PeerManager) (id rev : Nat) (out : List PeerEvent) :
    PeerManager × List PeerEvent × Bool :=
  if rev = 0 then (pm, out, false)
  else
    match pm.conns.find? id with
    | none => (pm, out, false)
    | some c =>
      let (drained, failed) :=
        if writable rev = true then c.drain (env.send c.sock.fd) (env.clock (.drain c.sock.fd))
        else (c, false)
      if failed = true then (pm, out, true)
      else
        let next := { pm with conns := pm.conns.modify id (fun _ => drained) }
        if readable rev = false then (next, out, false)
        else readConnection env next id drained out

/-- The loop over the `ids_` snapshot, with the peers to drop. -/
def serveLoop (env : Env) (pfds : List PollFd) :
    List Nat → Nat → PeerManager → List PeerEvent → PeerManager × List PeerEvent × List Nat
  | [], _, pm, out => (pm, out, [])
  | id :: ids, at_, pm, out =>
    let (next, events, failed) := serveConnection env pm id (reventsAt pfds at_) out
    let (last, all, toDrop) := serveLoop env pfds ids (at_ + 1) next events
    (last, all, if failed = true then id :: toDrop else toDrop)

def idlePeers (pm : PeerManager) (order : List Nat) (now : Time) : List Nat :=
  (pm.conns.arrange order).filter (fun id =>
    ((pm.conns.find? id).map (fun c => decide (kIdleTimeout ≤ now - c.lastReceived))).getD false)

def keepAlives (pm : PeerManager) (now : Time) : PeerManager :=
  { pm with conns := pm.conns.update (fun _ c =>
    if c.writeBuffer = [] ∧ kKeepAliveInterval ≤ now - c.lastSent then
      c.enqueue (Message.bytes .keepAlive)
    else c) }

def expireInbound (pm : PeerManager) (timeout now : Time) : PeerManager :=
  { pm with inbound := pm.inbound.filter (fun p => decide (¬ p.started < now - timeout)) }

def expireOutbound (pm : PeerManager) (now : Time) : PeerManager :=
  let expired := pm.outbound.filter (fun p => decide (p.deadline ≤ now))
  { pm with
    known := expired.foldl (fun known p => known.erase (key p.peer)) pm.known
    outbound := pm.outbound.filter (fun p => decide (¬ p.deadline ≤ now)) }

def acceptOne (env : Env) (pm : PeerManager) (a : Accepted) : PeerManager :=
  if pm.maxPeers ≤ pm.conns.size + pm.inbound.length + pm.outbound.length then pm
  else if a.host ∈ pm.banned then pm
  else { pm with inbound := pm.inbound ++ [{
    sock := { fd := a.fd }
    peer := ⟨a.host, Decimal.render a.port⟩
    started := env.clock (.accept a.fd) }] }

def acceptNew (env : Env) (pm : PeerManager) : PeerManager :=
  if pm.listenSock = none then pm else env.accepts.foldl (acceptOne env) pm

def buildFds (pm : PeerManager) (order : List Nat) : List PollFd × PeerManager :=
  let listening := pm.listenSock.toList.map (fun fd => PollFd.mk fd pollIn 0)
  let waiting := pm.inbound.map (fun p => PollFd.mk p.sock.fd pollIn 0)
  let dialing := pm.outbound.map (fun p =>
    PollFd.mk p.sock.fd (if p.phase = .connecting then pollOut else pollIn) 0)
  let ids := pm.conns.arrange order
  let established := ids.filterMap (fun id => (pm.conns.find? id).map (fun c =>
    PollFd.mk c.sock.fd (if c.writeBuffer = [] then pollIn else pollIn ||| pollOut) 0))
  (listening ++ waiting ++ dialing ++ established,
    { pm with
      inboundAt := listening.length
      outboundAt := listening.length + waiting.length
      connsAt := listening.length + waiting.length + dialing.length
      ids := ids })

/-- Steps 1 and 2 of `handle_events`: everything a descriptor became ready for. -/
def servePass (env : Env) (pfds : List PollFd) (pm : PeerManager) :
    PeerManager × List PeerEvent × List Nat :=
  let (pm, out) := inboundPass env pfds pm []
  let (pm, out) := outboundPass env pfds pm out
  serveLoop env pfds pm.ids pm.connsAt pm out

def handleEvents (env : Env) (pfds : List PollFd) (pm : PeerManager) :
    PeerManager × List PeerEvent :=
  let (pm, out, toDrop) := servePass env pfds pm
  let now := env.clock .sweep
  let (pm, out) := dropAll pm out (toDrop ++ idlePeers pm env.order now)
  let pm := keepAlives pm now
  let pm := expireInbound pm kHandshakeTimeout (env.clock .expireInbound)
  let pm := expireOutbound pm (env.clock .expireOutbound)
  let pm := if pm.listenSock ≠ none ∧ reventsAt pfds 0 &&& pollIn ≠ 0 then acceptNew env pm else pm
  (dialMore env pm, out)

end PeerManager

end TorrentPeer
