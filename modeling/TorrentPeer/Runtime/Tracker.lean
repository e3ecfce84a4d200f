import TorrentPeer.Runtime.Peers

/-! `TrackerManager`: one UDP tracker session per announce URL, driven by datagrams and by
timers. Whatever the system answers (DNS, sockets, clock, random numbers) is an argument. -/

namespace TorrentPeer

open BigEndian

def kBitTorrentProtocol : Nat := 0x41727101980

inductive TrackerEvent where
  | eventNone
  | eventCompleted
  | eventStarted
  | eventStopped
  deriving DecidableEq, Repr

def TrackerEvent.code : TrackerEvent → Nat
  | .eventNone => 0
  | .eventCompleted => 1
  | .eventStarted => 2
  | .eventStopped => 3

inductive Reported where
  | reportedNothing
  | reportedStarted
  | reportedCompleted
  deriving DecidableEq, Repr

structure TrackerAddress where
  host : Bytes
  port : Bytes
  deriving DecidableEq, Repr

inductive TrackerState where
  | disconnected
  | resolving
  | connecting
  | connected
  | announcing
  | idle
  | stopped
  deriving DecidableEq, Repr

/-- One entry of a session's history. -/
inductive Deed where
  | connectSent (now : Time)
  | connectAccepted (connectionId : Nat) (now : Time)
  | announceSent (event : TrackerEvent) (packet : Bytes) (now : Time)
  /-- A reply that `recv_announce` took as Ok, with the event in flight. -/
  | acknowledged (event : TrackerEvent) (now : Time)
  | backedOff (now : Time)
  | timedOut (now : Time)
  | downloadComplete (now : Time)
  | beginShutdown (now : Time)
  deriving DecidableEq, Repr

structure TrackerSession where
  address : TrackerAddress
  state : TrackerState := .disconnected
  sock : Option Nat := none
  /-- The future of the DNS lookup is valid. -/
  lookup : Bool := false
  connectionId : Nat := 0
  transactionId : Nat := 0
  key : Nat := 0
  connectedAt : Time := 0
  nextAction : Time := 0
  retries : Nat := 0
  inFlight : TrackerEvent := .eventNone
  reported : Reported := .reportedNothing
  interval : Nat := 0
  seeders : Nat := 0
  leechers : Nat := 0
  /-- What was sent and accepted so far; the code keeps no such record. -/
  history : List Deed := []
  deriving DecidableEq, Repr

structure AnnounceParams where
  downloaded : Nat
  uploaded : Nat
  left : Nat

/-- Result of `recv` on the tracker's socket. -/
inductive Datagram where
  | data (bytes : Bytes)
  | wouldBlock
  | interrupted
  | failed

/-- The DNS lookup as `wait_for` and `get` find it. -/
inductive Lookup where
  | pending
  | threw
  | resolved

/-- The answers one session gets during one `tick`. -/
structure TrackerEnv where
  /-- The results of `recv` in order; when they are used up, it would block. -/
  recv : List Datagram
  lookup : Lookup
  /-- The descriptor `open_socket` comes back with, if it does not throw. -/
  opens : Option Nat
  random : Nat
  /-- `send` succeeds. -/
  send : Bool
  /-- The clock where a reply is taken, where a packet is sent, and in `fail_backoff` of
  either pass. -/
  receivedAt : Time
  sentAt : Time
  firstBackoff : Time
  secondBackoff : Time

namespace TrackerSession

inductive AnnounceReply where
  | ignore
  | ok (interval leechers seeders : Nat) (peers : List Peer)
  | error (text : Bytes)
  deriving DecidableEq, Repr

/-- `inet_ntop` for four address bytes. -/
def inetNtop (a b c d : UInt8) : Bytes :=
  Decimal.render a.toNat ++ ascii "." ++ Decimal.render b.toNat ++ ascii "." ++ Decimal.render c.toNat ++
    ascii "." ++ Decimal.render d.toNat

def parsePeers : Bytes → List Peer
  | a :: b :: c :: d :: high :: low :: rest =>
    let port := high.toNat * 2 ^ 8 + low.toNat
    if port = 0 then parsePeers rest
    else ⟨inetNtop a b c d, Decimal.render port⟩ :: parsePeers rest
  | _ => []

def parseAnnounceReply (buf : Bytes) (expectTxn : Nat) : AnnounceReply :=
  if buf.length < 8 then .ignore
  else if readBe32 (buf.drop 4) ≠ expectTxn then .ignore
  else if readBe32 buf = 3 then .error (buf.drop 8)
  else if readBe32 buf ≠ 1 ∨ buf.length < 20 then .ignore
  else .ok (readBe32 (buf.drop 8)) (readBe32 (buf.drop 12)) (readBe32 (buf.drop 16))
    (parsePeers (buf.drop 20))

def parseTrackerUrl (url : Bytes) : Except Exn TrackerAddress :=
  if url.take 6 ≠ ascii "udp://" then
    .error (.runtimeError (ascii "Only UDP trackers supported: " ++ url))
  else
    let rest := (url.drop 6).takeWhile (fun byte => decide (byte ≠ 47))
    -- `rfind(':')`, from the end
    let port := (rest.reverse.takeWhile (fun byte => decide (byte ≠ 58))).reverse
    if port.length = rest.length then .error (.runtimeError (ascii "No port in tracker URL: " ++ url))
    else .ok ⟨rest.take (rest.length - port.length - 1), port⟩

section Packets

def buildConnectRequest (transactionId : Nat) : Bytes :=
  be64 kBitTorrentProtocol ++ be32 0 ++ be32 transactionId

def buildAnnounceRequest (t : TrackerSession) (e : TrackerEvent) (peerId infoHash : Bytes) (port : Nat)
    (p : AnnounceParams) : Except Exn Bytes :=
  if peerId.length ≠ 20 then .error (.runtimeError (ascii "peer_id must be exactly 20 bytes"))
  else .ok (be64 t.connectionId ++ be32 1 ++ be32 t.transactionId ++ infoHash ++ peerId ++
    be64 p.downloaded ++ be64 p.left ++ be64 p.uploaded ++ be32 e.code ++ be32 0 ++ be32 t.key ++
    be32 (2 ^ 32 - 1) ++ be16 port)

end Packets

def responseTimeout (t : TrackerSession) : Time := seconds (15 * 2 ^ t.retries)

def note (t : TrackerSession) (deed : Deed) : TrackerSession := { t with history := t.history ++ [deed] }

def failBackoff (t : TrackerSession) (now : Time) : TrackerSession :=
  let failed := { t with state := .disconnected, retries := min (t.retries + 1) 8 }
  { failed with nextAction := now + failed.responseTimeout }.note (.backedOff now)

def failSend (t : TrackerSession) (now : Time) : TrackerSession := { t with sock := none }.failBackoff now

def sendConnect (env : TrackerEnv) (t : TrackerSession) : TrackerSession :=
  if t.sock = none then { t with lookup := true, state := .resolving }
  else
    let drawn := { t with transactionId := env.random % 2 ^ 32 }
    if env.send = false then drawn.failSend env.secondBackoff
    else { drawn with
      state := .connecting
      connectedAt := env.sentAt
      nextAction := env.sentAt + drawn.responseTimeout }.note (.connectSent env.sentAt)

/-- False asks the caller for `fail_backoff`. -/
def recvConnect (env : TrackerEnv) (t : TrackerSession) : Bool × TrackerSession :=
  match env.recv with
  | .failed :: _ => (false, t)
  | .data bytes :: _ =>
    let buf := bytes.take 16
    if buf.length < 16 then (true, t)
    else if readBe32 buf ≠ 0 ∨ readBe32 (buf.drop 4) ≠ t.transactionId then (true, t)
    else
      let connectionId := readBe64 (buf.drop 8)
      (true, { t with
        connectionId := connectionId
        connectedAt := env.receivedAt
        retries := 0
        state := .connected }.note (.connectAccepted connectionId env.receivedAt))
  | _ => (true, t)

def acknowledge (t : TrackerSession) (now : Time) (interval leechers seeders : Nat) : TrackerSession :=
  let t := t.note (.acknowledged t.inFlight now)
  if t.inFlight = .eventStopped then { t with state := .stopped, sock := none }
  else
    let clamped := max 300 (min (if interval = 0 then 1800 else interval) 86400)
    { t with
      reported := match t.inFlight with
        | .eventStarted => .reportedStarted
        | .eventCompleted => .reportedCompleted
        | _ => t.reported
      interval := clamped
      seeders := seeders
      leechers := leechers
      retries := 0
      state := .idle
      nextAction := now + seconds clamped }

/-- The loop of `recv_announce` over what `recv` returns, with the peers found. -/
def recvAnnounce (now : Time) (t : TrackerSession) : List Datagram → Bool × TrackerSession × List Peer
  | [] => (true, t, [])
  | .interrupted :: rest => recvAnnounce now t rest
  | .wouldBlock :: _ => (true, t, [])
  | .failed :: _ => (false, t, [])
  | .data bytes :: rest =>
    match parseAnnounceReply (bytes.take 65536) t.transactionId with
    | .ignore => recvAnnounce now t rest
    | .error _ => (false, t, [])
    | .ok interval leechers seeders peers =>
      (true, t.acknowledge now interval leechers seeders,
        if t.inFlight = .eventStopped then [] else peers)

def onTimeout (t : TrackerSession) (now : Time) : TrackerSession :=
  { t with retries := min (t.retries + 1) 8, state := .disconnected, nextAction := now }.note (.timedOut now)

end TrackerSession

structure TrackerManager where
  trackers : List TrackerSession
  torrent : TorrentFile
  peerId : Bytes
  listenPort : Nat
  downloadComplete : Bool := false
  key : Nat
  stopping : Bool := false

namespace TrackerManager

open TrackerSession

def create (torrent : TorrentFile) (peerId : Bytes) (listenPort key : Nat) : TrackerManager where
  trackers := torrent.announceList.flatten.filterMap (fun url =>
    match parseTrackerUrl url with
    | .ok address => some { address := address, key := key }
    | .error _ => none)
  torrent := torrent
  peerId := peerId
  listenPort := listenPort
  key := key

def buildFds (m : TrackerManager) : List (Option Nat) := m.trackers.map TrackerSession.sock

variable (m : TrackerManager)

def pendingEvent (t : TrackerSession) : TrackerEvent :=
  if m.stopping = true then .eventStopped
  else
    match t.reported with
    | .reportedNothing => .eventStarted
    | .reportedStarted => if m.downloadComplete = true then .eventCompleted else .eventNone
    | .reportedCompleted => .eventNone

def sendAnnounce (env : TrackerEnv) (stats : AnnounceParams) (t : TrackerSession) :
    Except Exn TrackerSession :=
  if seconds 60 ≤ env.sentAt - t.connectedAt then
    .ok { t with state := .disconnected, nextAction := env.sentAt }
  else
    let event := m.pendingEvent t
    let drawn := { t with transactionId := env.random % 2 ^ 32, inFlight := event }
    do
      let packet ← drawn.buildAnnounceRequest event m.peerId m.torrent.infoHash m.listenPort stats
      if env.send = false then .ok (drawn.failSend env.secondBackoff)
      else .ok ({ drawn with
        state := .announcing
        nextAction := env.sentAt + drawn.responseTimeout }.note (.announceSent event packet env.sentAt))

def receive (env : TrackerEnv) (revents : Nat) (t : TrackerSession) : TrackerSession × List Peer :=
  if PeerManager.readable revents = false then (t, [])
  else
    let (ok, next, peers) := match t.state with
      | .connecting =>
        let (ok, next) := t.recvConnect env
        (ok, next, [])
      | .announcing => t.recvAnnounce env.receivedAt env.recv
      -- `drain` reads and forgets
      | _ => (true, t, [])
    (if ok = false then next.failBackoff env.firstBackoff else next, peers)

def advance (env : TrackerEnv) (stats : AnnounceParams) (now : Time) (t : TrackerSession) :
    Except Exn TrackerSession :=
  match t.state with
  | .disconnected => .ok (if t.nextAction ≤ now then t.sendConnect env else t)
  | .resolving =>
    match env.lookup with
    | .pending => .ok t
    | .threw => .ok ({ t with lookup := false }.failBackoff env.secondBackoff)
    | .resolved =>
      match env.opens with
      | none => .ok ({ t with lookup := false }.failBackoff env.secondBackoff)
      | some fd => .ok ({ t with lookup := false, sock := some fd }.sendConnect env)
  | .connecting => .ok (if t.nextAction ≤ now then t.onTimeout now else t)
  | .announcing => .ok (if t.nextAction ≤ now then t.onTimeout now else t)
  | .connected => m.sendAnnounce env stats t
  | .idle => .ok (if t.nextAction ≤ now then { t with state := .disconnected } else t)
  | .stopped => .ok t

def advanceAll (envs : Nat → TrackerEnv) (stats : AnnounceParams) (now : Time) :
    Nat → List TrackerSession → Except Exn (List TrackerSession)
  | _, [] => .ok []
  | i, t :: rest => do
      let next ← m.advance (envs i) stats now t
      let others ← advanceAll envs stats now (i + 1) rest
      .ok (next :: others)

def tick (revents : List Nat) (envs : Nat → TrackerEnv) (stats : AnnounceParams) (now : Time) :
    Except Exn (TrackerManager × List Peer) :=
  if revents.length ≠ m.trackers.length then .ok (m, [])
  else
    let received := m.trackers.mapIdx (fun i t => receive (envs i) (revents.getD i 0) t)
    do
      let trackers ← m.advanceAll envs stats now 0 (received.map Prod.fst)
      .ok ({ m with trackers := trackers }, (received.map Prod.snd).flatten)

/-- One session in the loop of `on_download_complete`. -/
def rouse (now : Time) (t : TrackerSession) : TrackerSession :=
  let t := t.note (.downloadComplete now)
  if t.state = .idle ∧ t.reported = .reportedStarted then { t with nextAction := now } else t

def onDownloadComplete (now : Time) : TrackerManager :=
  { m with downloadComplete := true, trackers := m.trackers.map (rouse now) }

/-- One session in the loop of `begin_shutdown`. -/
def withdraw (now : Time) (t : TrackerSession) : TrackerSession :=
  let t := t.note (.beginShutdown now)
  if t.reported = .reportedNothing then { t with state := .stopped, sock := none }
  else
    match t.state with
    | .disconnected => { t with nextAction := now }
    | .idle => { t with state := .connected, nextAction := now }
    | .announcing => { t with state := .connected, nextAction := now }
    | _ => t

def beginShutdown (now : Time) : TrackerManager :=
  { m with stopping := true, trackers := m.trackers.map (withdraw now) }

def shutdownDone : Bool := m.trackers.all (fun t => decide (t.state = .stopped))

/-- The earliest timer, in milliseconds from now; a lookup is looked at again after 50 ms. -/
def untilNextAction (now : Time) : Int :=
  let due := m.trackers.filterMap (fun t =>
    match t.state with
    | .stopped => none
    | .resolving => some (now + 50000000)
    | _ => some t.nextAction)
  match due.min? with
  | none => 3600000
  | some soonest => if soonest ≤ now then 0 else -((now - soonest) / 1000000)

end TrackerManager

end TorrentPeer
