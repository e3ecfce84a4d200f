import TorrentPeer.Runtime.Session
import TorrentPeer.Lib.Transition

/-! `Session::run` as a machine, with the history that statements about whole runs need:
the blocks that came in, and what became of each. -/

namespace TorrentPeer.Session

/-- A Piece message in answer to a request, with the connection as the round began. -/
structure Delivery where
  conn : PeerConnection
  block : Block

/-- A block given to `PieceManager::on_block`, by whom, and the verdict. -/
structure Filed where
  peerId : Nat
  block : Block
  status : BlockStatus

inductive Phase where
  | polling
  | dispatching (queue : List PeerEvent)
  | filling
  deriving DecidableEq

structure Sys where
  session : Session
  phase : Phase
  deliveries : List Delivery
  filed : List Filed

inductive Input where
  | interrupted (order : List Nat)
  | poll (order : List Nat) (revents : Nat → Nat) (env : Env)
  | dispatch (order : Bytes → List Nat)
  | settle (env : Env) (fresh : List Peer) (now : Time) (order : List Nat)
  | fill (env : FillEnv)

def answered (pfds : List PollFd) (revents : Nat → Nat) : List PollFd :=
  pfds.mapIdx (fun i pfd => { pfd with revents := revents i })

def delivered (conns : Table Nat PeerConnection) (events : List PeerEvent) : List Delivery :=
  events.filterMap (fun event =>
    match event with
    | .piece id block => (conns.find? id).map (fun c => ⟨c, block⟩)
    | _ => none)

def filedBy (sha1 : Bytes → Bytes) (pieces : PieceManager) : PeerEvent → List Filed
  | .piece id block =>
    match pieces.onBlock sha1 block with
    | .ok (result, _) => [⟨id, block, result.status⟩]
    | .error _ => []
  | _ => []

/-- One `build_fds`, `poll` and `handle_events`. -/
def pollRound (s : Session) (order : List Nat) (revents : Nat → Nat) (env : Env) :
    Session × List PeerEvent :=
  let (pfds, built) := s.peers.buildFds order
  let (peers, events) := built.handleEvents env (answered pfds revents)
  ({ s with peers := peers }, events)

def settleRound (s : Session) (env : Env) (fresh : List Peer) (now : Time) (order : List Nat) :
    Session :=
  let joined := s.addFresh env fresh
  (joined.expireAll (now - kRequestTimeout) (joined.peers.conns.arrange order)).noteCompletion

def step (sha1 : Bytes → Bytes) (kernel : Kernel) (sys : Sys) (input : Input) : Option Sys :=
  match sys.phase, input with
  | .polling, .interrupted order =>
    some { sys with session := { sys.session with peers := (sys.session.peers.buildFds order).2 } }
  | .polling, .poll order revents env =>
    let (session, events) := sys.session.pollRound order revents env
    some { sys with
      session := session
      phase := .dispatching events
      deliveries := sys.deliveries ++ delivered sys.session.peers.conns events }
  | .dispatching (event :: rest), .dispatch order =>
    match sys.session.dispatch sha1 kernel order event with
    | .error _ => none
    | .ok session => some { sys with
        session := session
        phase := .dispatching rest
        filed := sys.filed ++ filedBy sha1 sys.session.pieces event }
  | .dispatching [], .settle env fresh now order =>
    some { sys with session := sys.session.settleRound env fresh now order, phase := .filling }
  | .filling, .fill env => some { sys with session := sys.session.fillAll env, phase := .polling }
  | _, _ => none

def Begins (sha1 : Bytes → Bytes) (kernel : Kernel) (t : TorrentFile) (sys : Sys) : Prop :=
  (∃ data, Torrent.parseTorrent sha1 data = .ok t) ∧
    (∃ peerId listenSock downloadDir initialPeers env store,
      create sha1 kernel t peerId listenSock downloadDir initialPeers env store = .ok sys.session) ∧
    sys.phase = .polling ∧ sys.deliveries = [] ∧ sys.filed = []

def Reached (sha1 : Bytes → Bytes) (kernel : Kernel) (t : TorrentFile) : Sys → Prop :=
  Transition.Reachable (step sha1 kernel) (Begins sha1 kernel t)

end TorrentPeer.Session
