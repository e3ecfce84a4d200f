import TorrentPeer.Runtime.Disk
import TorrentPeer.Runtime.Pieces
import TorrentPeer.Runtime.Peers
import TorrentPeer.Runtime.Bans

/-! `Session`: construction with recheck, one dispatched event, and the passes over the
connections that end a round. The peers a tracker returns are an argument. -/

namespace TorrentPeer

open Torrent

def kPipelineDepth : Nat := 32
def kRequestTimeout : Time := seconds 15
def kMaxPeers : Nat := 60

structure Session where
  torrent : TorrentFile
  disk : DiskManager
  /-- What is in the files. -/
  store : Store
  pieces : PieceManager
  peers : PeerManager
  bans : BanManager := BanManager.create
  downloaded : Nat := 0
  uploaded : Nat := 0
  completed : Bool := false

/-- What the request filling loops leave open. -/
structure FillEnv where
  order : List Nat
  pick : Nat → Nat → Choice
  stamp : Nat → Nat → Time
  snubbedOrder : List Nat
  snubbedPick : Nat → Choice
  snubbedStamp : Nat → Time

namespace Session

def recheckAll (sha1 : Bytes → Bytes) (kernel : Kernel) (disk : DiskManager) (torrent : TorrentFile) :
    List Nat → PieceManager → Store → Except Exn (PieceManager × Store)
  | [], pieces, store => .ok (pieces, store)
  | i :: rest, pieces, store =>
    match disk.readBlock kernel i 0 (pieceSize torrent i % 2 ^ 32) store with
    | .error problem _ => .error problem
    | .ok data read => do
        let checked ← pieces.recheck sha1 i data
        recheckAll sha1 kernel disk torrent rest checked read

def create (sha1 : Bytes → Bytes) (kernel : Kernel) (torrent : TorrentFile) (peerId : Bytes)
    (listenSock : Option Nat) (downloadDir : Path) (initialPeers : List Peer) (env : Env)
    (store : Store) : Except Exn Session :=
  match DiskManager.create kernel torrent downloadDir store with
  | .error problem _ => .error problem
  | .ok disk opened => do
      let peers ← PeerManager.create torrent peerId listenSock kMaxPeers
      let (pieces, read) ← recheckAll sha1 kernel disk torrent
        (List.range (PieceManager.create torrent).pieceCount) (PieceManager.create torrent) opened
      .ok {
        torrent := torrent
        disk := disk
        store := read
        pieces := pieces
        peers := peers.addPeers env initialPeers
        completed := pieces.isComplete }

def greet (s : Session) (id : Nat) : Session :=
  let peers := (s.peers.sendBitfield id s.pieces.have_).sendUnchoke id
  { s with peers := if s.pieces.isComplete = true then peers else peers.sendInterested id }

def onJoined (s : Session) (id : Nat) : Session :=
  let bans := match s.peers.conns.find? id with
    | none => s.bans
    | some c => s.bans.onJoin id c.peer.host
  { s with bans := bans }.greet id

def onRequest (kernel : Kernel) (s : Session) (id : Nat) (req : BlockRequest) : Except Exn Session :=
  if s.pieces.havePiece req.pieceIndex = false then .ok s
  else if s.peers.canQueue id = false then .ok s
  else
    match s.disk.readBlock kernel req.pieceIndex req.offset req.length s.store with
    | .ok data read => .ok { s with
        store := read
        peers := s.peers.sendPiece id req.pieceIndex req.offset data
        uploaded := addU64 s.uploaded data.length }
    | .error (.undefined what) _ => .error (.undefined what)
    | .error _ read => .ok { s with store := read }

def dispatchOther (kernel : Kernel) (s : Session) : PeerEvent → Except Exn Session
  | .joined id => .ok (s.onJoined id)
  | .request id req => s.onRequest kernel id req
  | .choke _ released => .ok { s with pieces := s.pieces.release released }
  | .dropped _ released => .ok { s with pieces := s.pieces.release released }
  | .unchoke _ => .ok s
  | .piece _ _ => .ok s

def dispatchOthers (kernel : Kernel) : List PeerEvent → Session → Except Exn Session
  | [], s => .ok s
  | event :: events, s => do
      let next ← s.dispatchOther kernel event
      dispatchOthers kernel events next

def ban (kernel : Kernel) (order : List Nat) (s : Session) (host : Bytes) : Except Exn Session :=
  if s.peers.isBanned host = true then .ok s
  else
    let (peers, events) := s.peers.ban host order
    dispatchOthers kernel events { s with peers := peers }

def banAll (kernel : Kernel) (order : Bytes → List Nat) : List Bytes → Session → Except Exn Session
  | [], s => .ok s
  | host :: hosts, s => do
      let next ← s.ban kernel (order host) host
      banAll kernel order hosts next

/-- `on_piece` up to the loop that bans: the hosts to ban and the session by then. -/
def judge (kernel : Kernel) (s : Session) (result : BlockResult) : Except Exn (List Bytes × Session) :=
  match result.status with
  | .rejected => .ok ([], s)
  | .incomplete => .ok ([], s)
  | .pieceVerified =>
    match s.disk.writePiece kernel result.piece s.store with
    | .error problem _ => .error problem
    | .ok () written =>
      let (hosts, bans) := s.bans.onPieceVerified result.piece
      .ok (hosts, { s with
        store := written
        peers := s.peers.broadcastHave result.piece.index
        bans := bans })
  | .pieceFailed =>
    let (hosts, bans) := s.bans.onPieceFailed result.piece
    .ok (hosts, { s with bans := bans })

def takeBlock (sha1 : Bytes → Bytes) (s : Session) (id : Nat) (block : Block) :
    Except Exn (BlockResult × Session) := do
  let (result, pieces) ← s.pieces.onBlock sha1 block
  .ok (result, { s with
    pieces := pieces
    downloaded := addU64 s.downloaded block.data.length
    bans := if result.status = .rejected then s.bans else s.bans.onBlock id block })

def onPiece (sha1 : Bytes → Bytes) (kernel : Kernel) (order : Bytes → List Nat) (s : Session)
    (id : Nat) (block : Block) : Except Exn Session := do
  let (result, taken) ← s.takeBlock sha1 id block
  let (hosts, judged) ← taken.judge kernel result
  banAll kernel order hosts judged

def dispatch (sha1 : Bytes → Bytes) (kernel : Kernel) (order : Bytes → List Nat) (s : Session) :
    PeerEvent → Except Exn Session
  | .piece id block => s.onPiece sha1 kernel order id block
  | event => s.dispatchOther kernel event

section Passes

def expirePeer (cutoff : Time) (s : Session) (id : Nat) : Session :=
  match s.peers.conns.find? id with
  | none => s
  | some c =>
    let (stale, kept) := takeStale c.pending cutoff
    if stale = [] then s
    else { s with
      peers := { s.peers with conns := s.peers.conns.modify id (fun c =>
        { c with pending := kept, snubbed := true }) }
      pieces := s.pieces.release stale }

def expireAll (cutoff : Time) (s : Session) (ids : List Nat) : Session :=
  ids.foldl (expirePeer cutoff) s

def noteCompletion (s : Session) : Session :=
  if s.pieces.isComplete = true ∧ s.completed = false then { s with completed := true } else s

def addFresh (env : Env) (s : Session) (fresh : List Peer) : Session :=
  if fresh = [] then s else { s with peers := s.peers.addPeers env fresh }

/-- One `pick_block` and, if it finds something, the request for it. -/
def askPeer (s : Session) (id : Nat) (c : PeerConnection) (choice : Choice) (now : Time) :
    Bool × Session :=
  match s.pieces.pickBlock c.hasPieces s.peers.pieceFrequency id choice with
  | (none, pieces) => (false, { s with pieces := pieces })
  | (some req, pieces) => (true, { s with pieces := pieces, peers := s.peers.sendRequest id req now })

/-- The `while` loop for one peer. Every round queues one request, so that the depth of
the pipeline bounds the rounds. -/
def fillPeer (pick : Nat → Choice) (stamp : Nat → Time) (id : Nat) : Nat → Session → Session
  | 0, s => s
  | fuel + 1, s =>
    match s.peers.conns.find? id with
    | none => s
    | some c =>
      if c.pending.length < kPipelineDepth then
        match s.askPeer id c (pick fuel) (stamp fuel) with
        | (true, next) => fillPeer pick stamp id fuel next
        | (false, next) => next
      else s

def fillOne (env : FillEnv) (s : Session) (id : Nat) : Session :=
  match s.peers.conns.find? id with
  | none => s
  | some c =>
    if c.peerChoking = true ∨ c.snubbed = true then s
    else fillPeer (env.pick id) (env.stamp id) id kPipelineDepth s

def fillSnubbed (env : FillEnv) (s : Session) (id : Nat) : Session :=
  match s.peers.conns.find? id with
  | none => s
  | some c =>
    if c.peerChoking = true ∨ c.snubbed = false ∨ c.pending ≠ [] then s
    else (s.askPeer id c (env.snubbedPick id) (env.snubbedStamp id)).2

def fillAll (env : FillEnv) (s : Session) : Session :=
  let filled := (s.peers.conns.arrange env.order).foldl (fillOne env) s
  (filled.peers.conns.arrange env.snubbedOrder).foldl (fillSnubbed env) filled

end Passes

end Session

end TorrentPeer
