import TorrentPeer.Runtime.Runs
import TorrentPeer.Runtime.PeerActs

/-! The steps of a run cut into moves that each touch one event, one connection or one
request. A property that every move keeps holds in every state of every run. -/

namespace TorrentPeer.Session

open Transition Wire

/-- A session in the middle of a round: events still to dispatch, hosts still to ban. -/
structure Flow where
  session : Session
  queue : List PeerEvent
  convicted : List Bytes
  deliveries : List Delivery
  filed : List Filed

def Phase.queue : Phase → List PeerEvent
  | .dispatching queue => queue
  | _ => []

def Sys.flow (sys : Sys) : Flow := ⟨sys.session, sys.phase.queue, [], sys.deliveries, sys.filed⟩

def released : PeerEvent → Option (List BlockRequest)
  | .choke _ reqs => some reqs
  | .dropped _ reqs => some reqs
  | .unchoke _ => some []
  | _ => none

def expel (s : Session) (id : Nat) (c : PeerConnection) : Session :=
  { s with
    peers := (s.peers.drop id []).1
    pieces := s.pieces.release (requestsOf c.pending) }

def greeted (have_ : Bitfield) (complete : Bool) (c : PeerConnection) : PeerConnection :=
  let unchoked := { c.enqueue (Message.bytes (.bitfield have_.bytes)) with
    amChoking := false }.enqueue (Message.bytes .unchoke)
  if complete = true then unchoked
  else { unchoked with amInterested := true }.enqueue (Message.bytes .interested)

theorem onJoined_peers (s : Session) (id : Nat) :
    (s.onJoined id).peers = { s.peers with
      conns := s.peers.conns.modify id (greeted s.pieces.have_ s.pieces.isComplete) } := by
  simp only [onJoined, greet]
  cases s.pieces.isComplete with
  | true =>
    simp only [if_true, PeerManager.sendUnchoke, PeerManager.sendBitfield, PeerManager.sendTo,
      Table.modify_modify]
    rfl
  | false =>
    simp only [Bool.false_eq_true, if_false, PeerManager.sendInterested, PeerManager.sendUnchoke,
      PeerManager.sendBitfield, PeerManager.sendTo, Table.modify_modify]
    rfl

/-- What happens outside the passes that fill the pipelines. -/
inductive Quiet (sha1 : Bytes → Bytes) (kernel : Kernel) : Flow → Flow → Prop
  | build (f : Flow) (order : List Nat) :
      Quiet sha1 kernel f
        { f with session := { f.session with peers := (f.session.peers.buildFds order).2 } }
  | round (f : Flow) (order : List Nat) (revents : Nat → Nat) (env : Env) (idle : f.queue = []) :
      Quiet sha1 kernel f { f with
        session := (f.session.pollRound order revents env).1
        queue := (f.session.pollRound order revents env).2
        deliveries := f.deliveries ++
          delivered f.session.peers.conns (f.session.pollRound order revents env).2 }
  | dial (f : Flow) (env : Env) (fresh : List Peer) :
      Quiet sha1 kernel f
        { f with session := { f.session with peers := f.session.peers.addPeers env fresh } }
  | complete (f : Flow) : Quiet sha1 kernel f { f with session := { f.session with completed := true } }
  | release (f : Flow) (event : PeerEvent) (rest : List PeerEvent) (reqs : List BlockRequest)
      (front : f.queue = event :: rest) (gives : released event = some reqs) :
      Quiet sha1 kernel f { f with
        session := { f.session with pieces := f.session.pieces.release reqs }
        queue := rest }
  | join (f : Flow) (id : Nat) (rest : List PeerEvent) (front : f.queue = .joined id :: rest) :
      Quiet sha1 kernel f { f with session := f.session.onJoined id, queue := rest }
  | serve (f : Flow) (id : Nat) (req : BlockRequest) (rest : List PeerEvent) (next : Session)
      (front : f.queue = .request id req :: rest) (served : f.session.onRequest kernel id req = .ok next) :
      Quiet sha1 kernel f { f with session := next, queue := rest }
  | file (f : Flow) (id : Nat) (block : Block) (rest : List PeerEvent) (result : BlockResult)
      (taken judged : Session) (hosts : List Bytes) (front : f.queue = .piece id block :: rest)
      (idle : f.convicted = []) (took : f.session.takeBlock sha1 id block = .ok (result, taken))
      (verdict : taken.judge kernel result = .ok (hosts, judged)) :
      Quiet sha1 kernel f { f with
        session := judged
        queue := rest
        convicted := hosts
        filed := f.filed ++ [⟨id, block, result.status⟩] }
  | convict (f : Flow) (host : Bytes) (hosts : List Bytes) (listed : f.convicted = host :: hosts) :
      Quiet sha1 kernel f { f with
        session := { f.session with peers := { f.session.peers with
          banned := insert host f.session.peers.banned } }
        convicted := hosts }
  | expel (f : Flow) (id : Nat) (c : PeerConnection) (found : f.session.peers.conns.find? id = some c) :
      Quiet sha1 kernel f { f with session := expel f.session id c }
  | expire (f : Flow) (id : Nat) (c : PeerConnection) (cutoff : Time)
      (found : f.session.peers.conns.find? id = some c) :
      Quiet sha1 kernel f { f with session := { f.session with
        peers := { f.session.peers with conns := f.session.peers.conns.modify id (fun c =>
          { c with pending := (takeStale c.pending cutoff).2, snubbed := true }) }
        pieces := f.session.pieces.release (takeStale c.pending cutoff).1 } }

/-- One `pick_block` of the passes that fill the pipelines. -/
inductive Ask : Session → Session → Prop
  | ask (s : Session) (id : Nat) (c : PeerConnection) (choice : Choice) (now : Time) (req : BlockRequest)
      (pieces : PieceManager) (found : s.peers.conns.find? id = some c)
      (unchoked : c.peerChoking = false) (slot : c.pending.length < kPipelineDepth)
      (picked : s.pieces.pickBlock c.hasPieces s.peers.pieceFrequency id choice = (some req, pieces)) :
      Ask s { s with pieces := pieces, peers := s.peers.sendRequest id req now }
  | decline (s : Session) (id : Nat) (c : PeerConnection) (choice : Choice) (pieces : PieceManager)
      (picked : s.pieces.pickBlock c.hasPieces s.peers.pieceFrequency id choice = (none, pieces)) :
      Ask s { s with pieces := pieces }

abbrev Quiets (sha1 : Bytes → Bytes) (kernel : Kernel) : Flow → Flow → Prop :=
  Relation.ReflTransGen (Quiet sha1 kernel)

abbrev Asks : Session → Session → Prop := Relation.ReflTransGen Ask

section Bans

variable (sha1 : Bytes → Bytes) (kernel : Kernel)

/-- Dropping all of them and dispatching their events afterwards comes to the same as
expelling one after the other. -/
theorem expels (f : Flow) (ids : List Nat) (next : Session)
    (dispatched : dispatchOthers kernel (f.session.peers.dropAll [] ids).2
      { f.session with peers := (f.session.peers.dropAll [] ids).1 } = .ok next) :
    Quiets sha1 kernel f { f with session := next } := by
  induction ids generalizing f with
  | nil =>
    cases dispatched
    exact Relation.ReflTransGen.refl
  | cons id ids ih =>
    simp only [PeerManager.dropAll] at dispatched
    cases found : f.session.peers.conns.find? id with
    | none =>
      simp only [PeerManager.drop, found] at dispatched
      exact ih f dispatched
    | some c =>
      have first : Quiet sha1 kernel f _ := Quiet.expel f id c found
      have dropped : f.session.peers.drop id [] =
          ((f.session.peers.drop id []).1, [.dropped id (requestsOf c.pending)]) := by
        simp [PeerManager.drop, found]
      rw [dropped] at dispatched
      obtain ⟨state, events⟩ := PeerManager.dropAll_out (f.session.peers.drop id []).1
        [.dropped id (requestsOf c.pending)] ids
      rw [state, events] at dispatched
      refine Relation.ReflTransGen.head first (ih _ ?_)
      exact dispatched

theorem dispatchOthers_dropped (s : Session) (events : List PeerEvent)
    (dropped : ∀ event ∈ events, ∃ id reqs, event = .dropped id reqs) :
    ∃ reqs, dispatchOthers kernel events s = .ok { s with pieces := s.pieces.release reqs } := by
  induction events generalizing s with
  | nil => exact ⟨[], rfl⟩
  | cons event events ih =>
    obtain ⟨other, reqs, rfl⟩ := dropped event (List.mem_cons_self ..)
    obtain ⟨rest, returned⟩ := ih { s with pieces := s.pieces.release reqs }
      (fun later member => dropped later (List.mem_cons_of_mem _ member))
    refine ⟨reqs ++ rest, returned.trans ?_⟩
    rw [PieceManager.release, PieceManager.release, PieceManager.release, List.foldl_append]

theorem ban_returns (s : Session) (order : List Nat) (host : Bytes) :
    ∃ reqs, s.ban kernel order host =
      .ok { s with peers := (s.peers.ban host order).1, pieces := s.pieces.release reqs } := by
  unfold ban PeerManager.ban PeerManager.isBanned
  by_cases already : host ∈ s.peers.banned
  · rw [if_pos (decide_eq_true already), if_pos already]
    exact ⟨[], rfl⟩
  · rw [if_neg (fun banned => already (of_decide_eq_true banned)), if_neg already]
    exact dispatchOthers_dropped kernel _ _ (PeerManager.dropAll_dropped _ _)

theorem ban_moves (order : List Nat) (f : Flow) (host : Bytes) (hosts : List Bytes) (next : Session)
    (listed : f.convicted = host :: hosts) (banned : f.session.ban kernel order host = .ok next) :
    Quiets sha1 kernel f { f with session := next, convicted := hosts } := by
  have first : Quiet sha1 kernel f _ := Quiet.convict f host hosts listed
  unfold ban PeerManager.isBanned at banned
  split at banned
  · rename_i already
    have present := of_decide_eq_true already
    cases banned
    rw [Finset.insert_eq_of_mem present] at first
    exact Relation.ReflTransGen.single first
  · rename_i fresh
    have absent : host ∉ f.session.peers.banned := by
      intro member
      exact fresh (decide_eq_true member)
    simp only [PeerManager.ban, if_neg absent] at banned
    exact Relation.ReflTransGen.head first (expels sha1 kernel _ _ next banned)

theorem banAll_moves (order : Bytes → List Nat) (hosts : List Bytes) (f : Flow) (next : Session)
    (listed : f.convicted = hosts) (banned : banAll kernel order hosts f.session = .ok next) :
    Quiets sha1 kernel f { f with session := next, convicted := [] } := by
  induction hosts generalizing f with
  | nil =>
    cases banned
    rw [← listed]
  | cons host hosts ih =>
    obtain ⟨middle, one, rest⟩ := bind_ok banned
    exact (ban_moves sha1 kernel (order host) f host hosts middle listed one).trans
      (ih { f with session := middle, convicted := hosts } rfl rest)

end Bans

section Steps

variable (sha1 : Bytes → Bytes) (kernel : Kernel)

theorem other_moves (f : Flow) (event : PeerEvent) (rest : List PeerEvent) (next : Session)
    (front : f.queue = event :: rest) (other : ∀ id block, event ≠ .piece id block)
    (dispatched : f.session.dispatchOther kernel event = .ok next) :
    Quiet sha1 kernel f { f with session := next, queue := rest } := by
  cases event with
  | joined id =>
    cases dispatched
    exact Quiet.join f id rest front
  | request id req => exact Quiet.serve f id req rest next front dispatched
  | choke id reqs =>
    cases dispatched
    exact Quiet.release f _ rest reqs front rfl
  | dropped id reqs =>
    cases dispatched
    exact Quiet.release f _ rest reqs front rfl
  | unchoke id =>
    cases dispatched
    exact Quiet.release f _ rest [] front rfl
  | piece id block => exact absurd rfl (other id block)

theorem piece_moves (order : Bytes → List Nat) (f : Flow) (id : Nat) (block : Block)
    (rest : List PeerEvent) (next : Session) (front : f.queue = .piece id block :: rest)
    (idle : f.convicted = [])
    (dispatched : f.session.onPiece sha1 kernel order id block = .ok next) :
    Quiets sha1 kernel f { f with
      session := next
      queue := rest
      filed := f.filed ++ filedBy sha1 f.session.pieces (.piece id block) } := by
  obtain ⟨⟨result, taken⟩, took, onward⟩ := bind_ok dispatched
  obtain ⟨⟨hosts, judged⟩, verdict, banned⟩ := bind_ok onward
  have first : Quiet sha1 kernel f _ :=
    Quiet.file f id block rest result taken judged hosts front idle took verdict
  have logged : filedBy sha1 f.session.pieces (.piece id block) = [⟨id, block, result.status⟩] := by
    obtain ⟨⟨answer, pieces⟩, filed, same⟩ := bind_ok took
    cases same
    simp only [filedBy, filed]
  have others := banAll_moves sha1 kernel order hosts
    { f with
      session := judged
      queue := rest
      convicted := hosts
      filed := f.filed ++ [⟨id, block, result.status⟩] } next rfl banned
  have settled : f = { f with convicted := [] } := by rw [← idle]
  rw [logged, settled]
  exact Relation.ReflTransGen.head (settled ▸ first) others

theorem dispatch_moves (order : Bytes → List Nat) (f : Flow) (event : PeerEvent)
    (rest : List PeerEvent) (next : Session) (front : f.queue = event :: rest)
    (idle : f.convicted = []) (dispatched : f.session.dispatch sha1 kernel order event = .ok next) :
    Quiets sha1 kernel f { f with
      session := next
      queue := rest
      filed := f.filed ++ filedBy sha1 f.session.pieces event } := by
  cases event with
  | piece id block => exact piece_moves sha1 kernel order f id block rest next front idle dispatched
  | _ =>
    simp only [filedBy, List.append_nil]
    exact Relation.ReflTransGen.single
      (other_moves sha1 kernel f _ rest next front (by simp) dispatched)

theorem expirePeer_moves (cutoff : Time) (f : Flow) (id : Nat) :
    Quiets sha1 kernel f { f with session := expirePeer cutoff f.session id } := by
  unfold expirePeer
  split
  · exact Relation.ReflTransGen.refl
  · rename_i c found
    dsimp only
    split
    · exact Relation.ReflTransGen.refl
    · have moved : Quiet sha1 kernel f _ := Quiet.expire f id c cutoff found
      rw [Table.modify_congr f.session.peers.conns id _ (fun other =>
        { other with pending := (takeStale c.pending cutoff).2, snubbed := true }) (by
          intro value present
          rw [found] at present
          cases present
          rfl)] at moved
      exact Relation.ReflTransGen.single moved

theorem fold_moves (pass : Session → Nat → Session)
    (each : ∀ f id, Quiets sha1 kernel f { f with session := pass f.session id }) (ids : List Nat)
    (f : Flow) : Quiets sha1 kernel f { f with session := ids.foldl pass f.session } := by
  induction ids generalizing f with
  | nil => exact Relation.ReflTransGen.refl
  | cons id ids ih => exact (each f id).trans (ih { f with session := pass f.session id })

theorem completion_moves (f : Flow) :
    Quiets sha1 kernel f { f with session := f.session.noteCompletion } := by
  unfold noteCompletion
  split
  · exact Relation.ReflTransGen.single (Quiet.complete f)
  · exact Relation.ReflTransGen.refl

theorem settle_moves (f : Flow) (env : Env) (fresh : List Peer) (now : Time) (order : List Nat) :
    Quiets sha1 kernel f { f with session := f.session.settleRound env fresh now order } := by
  have dialled : Quiets sha1 kernel f { f with session := f.session.addFresh env fresh } := by
    unfold addFresh
    split
    · exact Relation.ReflTransGen.refl
    · exact Relation.ReflTransGen.single (Quiet.dial f env fresh)
  refine dialled.trans ?_
  exact (fold_moves sha1 kernel _ (expirePeer_moves sha1 kernel (now - kRequestTimeout))
    ((f.session.addFresh env fresh).peers.conns.arrange order) _).trans (completion_moves sha1 kernel _)

end Steps

section Filling

/-- A call of `send_request`: the session at that moment, the peer and the request. -/
structure Sending where
  session : Session
  id : Nat
  req : BlockRequest

def askSends (s : Session) (id : Nat) (c : PeerConnection) (choice : Choice) : List Sending :=
  match (s.pieces.pickBlock c.hasPieces s.peers.pieceFrequency id choice).1 with
  | none => []
  | some req => [⟨s, id, req⟩]

/-- The calls of `send_request` in `fillPeer`, in order; likewise below. -/
def fillPeerSends (pick : Nat → Choice) (stamp : Nat → Time) (id : Nat) : Nat → Session → List Sending
  | 0, _ => []
  | fuel + 1, s =>
    match s.peers.conns.find? id with
    | none => []
    | some c =>
      if c.pending.length < kPipelineDepth then
        askSends s id c (pick fuel) ++
          match s.askPeer id c (pick fuel) (stamp fuel) with
          | (true, next) => fillPeerSends pick stamp id fuel next
          | (false, _) => []
      else []

def fillOneSends (env : FillEnv) (s : Session) (id : Nat) : List Sending :=
  match s.peers.conns.find? id with
  | none => []
  | some c =>
    if c.peerChoking = true ∨ c.snubbed = true then []
    else fillPeerSends (env.pick id) (env.stamp id) id kPipelineDepth s

def fillSnubbedSends (env : FillEnv) (s : Session) (id : Nat) : List Sending :=
  match s.peers.conns.find? id with
  | none => []
  | some c =>
    if c.peerChoking = true ∨ c.snubbed = false ∨ c.pending ≠ [] then []
    else askSends s id c (env.snubbedPick id)

def passSends (pass : Session → Nat → Session) (sends : Session → Nat → List Sending) :
    List Nat → Session → List Sending
  | [], _ => []
  | id :: ids, s => sends s id ++ passSends pass sends ids (pass s id)

def fillSends (env : FillEnv) (s : Session) : List Sending :=
  let filled := (s.peers.conns.arrange env.order).foldl (fillOne env) s
  passSends (fillOne env) (fillOneSends env) (s.peers.conns.arrange env.order) s ++
    passSends (fillSnubbed env) (fillSnubbedSends env) (filled.peers.conns.arrange env.snubbedOrder) filled

/-- A sequence of `pick_block` calls with the requests sent on the way. -/
inductive Sends : Session → List Sending → Session → Prop
  | done (s : Session) : Sends s [] s
  | sent (s last : Session) (id : Nat) (c : PeerConnection) (choice : Choice) (now : Time) (req : BlockRequest)
      (pieces : PieceManager) (rest : List Sending) (found : s.peers.conns.find? id = some c)
      (unchoked : c.peerChoking = false) (slot : c.pending.length < kPipelineDepth)
      (picked : s.pieces.pickBlock c.hasPieces s.peers.pieceFrequency id choice = (some req, pieces))
      (more : Sends { s with pieces := pieces, peers := s.peers.sendRequest id req now } rest last) :
      Sends s (⟨s, id, req⟩ :: rest) last
  | declined (s last : Session) (id : Nat) (c : PeerConnection) (choice : Choice) (pieces : PieceManager)
      (rest : List Sending)
      (picked : s.pieces.pickBlock c.hasPieces s.peers.pieceFrequency id choice = (none, pieces))
      (more : Sends { s with pieces := pieces } rest last) : Sends s rest last

theorem Sends.trans {s middle last : Session} {first second : List Sending} (begun : Sends s first middle)
    (more : Sends middle second last) : Sends s (first ++ second) last := by
  induction begun with
  | done s => exact more
  | sent s middle id c choice now req pieces rest found unchoked slot picked _ ih =>
    exact .sent s last id c choice now req pieces (rest ++ second) found unchoked slot picked (ih more)
  | declined s middle id c choice pieces rest picked _ ih =>
    exact .declined s last id c choice pieces (rest ++ second) picked (ih more)

theorem Sends.asks {s last : Session} {sent : List Sending} (sends : Sends s sent last) : Asks s last := by
  induction sends with
  | done s => exact Relation.ReflTransGen.refl
  | sent s last id c choice now req pieces rest found unchoked slot picked _ ih =>
    exact Relation.ReflTransGen.head (Ask.ask s id c choice now req pieces found unchoked slot picked) ih
  | declined s last id c choice pieces rest picked _ ih =>
    exact Relation.ReflTransGen.head (Ask.decline s id c choice pieces picked) ih

theorem askPeer_sends (s : Session) (id : Nat) (c : PeerConnection) (choice : Choice) (now : Time)
    (found : s.peers.conns.find? id = some c) (unchoked : c.peerChoking = false)
    (slot : c.pending.length < kPipelineDepth) :
    Sends s (askSends s id c choice) (s.askPeer id c choice now).2 := by
  unfold askPeer askSends
  cases picked : s.pieces.pickBlock c.hasPieces s.peers.pieceFrequency id choice with
  | mk answer pieces =>
    cases answer with
    | none => exact .declined s _ id c choice pieces [] picked (.done _)
    | some req => exact .sent s _ id c choice now req pieces [] found unchoked slot picked (.done _)

theorem askPeer_choking (s : Session) (id : Nat) (c : PeerConnection) (choice : Choice) (now : Time)
    (other : Nat) :
    ((s.askPeer id c choice now).2.peers.conns.find? other).map PeerConnection.peerChoking =
      (s.peers.conns.find? other).map PeerConnection.peerChoking := by
  unfold askPeer
  split
  · rfl
  · simp only [PeerManager.sendRequest, Table.find_modify]
    split
    · rw [Option.map_map]
      rfl
    · rfl

theorem fillPeer_sends (pick : Nat → Choice) (stamp : Nat → Time) (id fuel : Nat) (s : Session)
    (unchoked : (s.peers.conns.find? id).map PeerConnection.peerChoking = some false) :
    Sends s (fillPeerSends pick stamp id fuel s) (fillPeer pick stamp id fuel s) := by
  induction fuel generalizing s with
  | zero => exact .done s
  | succ fuel ih =>
    rw [fillPeer, fillPeerSends]
    cases found : s.peers.conns.find? id with
    | none => exact .done s
    | some c =>
      rw [found] at unchoked
      dsimp only
      by_cases slot : c.pending.length < kPipelineDepth
      · rw [if_pos slot, if_pos slot]
        have asked := askPeer_sends s id c (pick fuel) (stamp fuel) found (Option.some.inj unchoked) slot
        have still := askPeer_choking s id c (pick fuel) (stamp fuel) id
        rw [found] at still
        cases result : s.askPeer id c (pick fuel) (stamp fuel) with
        | mk more next =>
          rw [result] at asked still
          cases more with
          | true => exact asked.trans (ih next (still.trans unchoked))
          | false =>
            rw [List.append_nil]
            exact asked
      · rw [if_neg slot, if_neg slot]
        exact .done s

theorem fillOne_sends (env : FillEnv) (s : Session) (id : Nat) :
    Sends s (fillOneSends env s id) (fillOne env s id) := by
  unfold fillOne fillOneSends
  cases found : s.peers.conns.find? id with
  | none => exact .done s
  | some c =>
    dsimp only
    by_cases busy : c.peerChoking = true ∨ c.snubbed = true
    · rw [if_pos busy, if_pos busy]
      exact .done s
    · rw [if_neg busy, if_neg busy]
      apply fillPeer_sends
      rw [found, Option.map_some, Option.some.injEq, ← Bool.not_eq_true]
      exact fun choking => busy (Or.inl choking)

theorem fillSnubbed_sends (env : FillEnv) (s : Session) (id : Nat) :
    Sends s (fillSnubbedSends env s id) (fillSnubbed env s id) := by
  unfold fillSnubbed fillSnubbedSends
  cases found : s.peers.conns.find? id with
  | none => exact .done s
  | some c =>
    dsimp only
    by_cases busy : c.peerChoking = true ∨ c.snubbed = false ∨ c.pending ≠ []
    · rw [if_pos busy, if_pos busy]
      exact .done s
    · rw [if_neg busy, if_neg busy]
      have unchoked : c.peerChoking = false := by
        rw [← Bool.not_eq_true]
        exact fun choking => busy (Or.inl choking)
      have empty : c.pending = [] := by
        by_contra waiting
        exact busy (Or.inr (Or.inr waiting))
      exact askPeer_sends s id c _ _ found unchoked (by rw [empty]; decide)

theorem pass_sends (pass : Session → Nat → Session) (sends : Session → Nat → List Sending)
    (each : ∀ s id, Sends s (sends s id) (pass s id)) (ids : List Nat) (s : Session) :
    Sends s (passSends pass sends ids s) (ids.foldl pass s) := by
  induction ids generalizing s with
  | nil => exact .done s
  | cons id ids ih => exact (each s id).trans (ih (pass s id))

theorem fillAll_sends (env : FillEnv) (s : Session) : Sends s (fillSends env s) (s.fillAll env) :=
  (pass_sends _ _ (fillOne_sends env) _ s).trans (pass_sends _ _ (fillSnubbed_sends env) _ _)

end Filling

section Steps

variable (sha1 : Bytes → Bytes) (kernel : Kernel)

/-- A step is one filling of the pipelines, or a sequence of quiet moves. -/
theorem step_cases (sys next : Sys) (input : Input) (moves : step sha1 kernel sys input = some next) :
    Quiets sha1 kernel sys.flow next.flow ∨
      (∃ env, input = .fill env ∧ sys.phase = .filling) ∧ Asks sys.session next.session ∧
        next.flow = { sys.flow with session := next.session } := by
  obtain ⟨session, phase, deliveries, filed⟩ := sys
  unfold step at moves
  split at moves
  · rename_i order here
    dsimp only at here
    subst here
    cases moves
    exact Or.inl (Relation.ReflTransGen.single (Quiet.build _ order))
  · rename_i order revents env here
    dsimp only at here
    subst here
    cases moves
    exact Or.inl (Relation.ReflTransGen.single (Quiet.round _ order revents env rfl))
  · rename_i event rest order here
    dsimp only at here
    subst here
    split at moves
    · cases moves
    · rename_i after dispatched
      cases moves
      exact Or.inl (dispatch_moves sha1 kernel order _ event rest after rfl rfl dispatched)
  · rename_i env fresh now order here
    dsimp only at here
    subst here
    cases moves
    exact Or.inl (settle_moves sha1 kernel _ env fresh now order)
  · rename_i env here
    dsimp only at here
    subst here
    cases moves
    exact Or.inr ⟨⟨env, rfl, rfl⟩, (fillAll_sends env session).asks, rfl⟩
  · cases moves

end Steps

theorem fill_moves {sha1 : Bytes → Bytes} {kernel : Kernel} {sys next : Sys} {env : FillEnv}
    (moves : step sha1 kernel sys (.fill env) = some next) : next.session = sys.session.fillAll env := by
  obtain ⟨session, phase, deliveries, filed⟩ := sys
  cases phase with
  | polling => cases moves
  | dispatching queue => cases queue <;> cases moves
  | filling =>
    cases moves
    rfl

/-- The runs in which every filling of the pipelines starts from a state of the given kind. -/
def ReachedWithin (sha1 : Bytes → Bytes) (kernel : Kernel) (t : TorrentFile) (permits : Flow → Prop) :
    Sys → Prop :=
  Transition.ReachableWithin (step sha1 kernel) (Begins sha1 kernel t)
    (fun sys input => ∀ env, input = .fill env → permits sys.flow)

theorem ReachedWithin.reached {sha1 : Bytes → Bytes} {kernel : Kernel} {t : TorrentFile}
    {permits : Flow → Prop} {sys : Sys} (within : ReachedWithin sha1 kernel t permits sys) :
    Reached sha1 kernel t sys :=
  Transition.ReachableWithin.reachable within

section Invariants

variable {sha1 : Bytes → Bytes} {kernel : Kernel} {t : TorrentFile} (good : Flow → Prop)
  (base : ∀ sys, Begins sha1 kernel t sys → good sys.flow)
  (quiet : ∀ f next, good f → Quiet sha1 kernel f next → good next)

include base quiet

theorem within_invariant {permits : Flow → Prop}
    (fill : ∀ f next, good f → f.queue = [] → permits f → Asks f.session next → good { f with session := next })
    {sys : Sys} (within : ReachedWithin sha1 kernel t permits sys) : good sys.flow := by
  have along : ∀ f next, Quiets sha1 kernel f next → good f → good next := by
    intro f next moves holds
    induction moves with
    | refl => exact holds
    | tail _ last ih => exact quiet _ _ ih last
  induction within with
  | start sys begins => exact base sys begins
  | next sys after input _ permitted moves ih =>
    rcases step_cases sha1 kernel sys after input moves with
      moved | ⟨⟨env, fills, filling⟩, asks, same⟩
    · exact along _ _ moved ih
    · have idle : sys.flow.queue = [] := by
        rw [Sys.flow, filling]
        rfl
      rw [same]
      exact fill _ _ ih idle (permitted env fills) asks

/-- What moves keep, runs keep. -/
theorem reached_invariant
    (ask : ∀ f next, good f → Ask f.session next → good { f with session := next })
    {sys : Sys} (reached : Reached sha1 kernel t sys) : good sys.flow := by
  have within : ReachedWithin sha1 kernel t (fun _ => True) sys :=
    Transition.Reachable.within reached (fun _ _ _ _ => trivial)
  refine within_invariant good base quiet ?_ within
  intro f next holds _ _ asks
  induction asks with
  | refl => exact holds
  | @tail middle after _ last ih => exact ask { f with session := middle } after ih last

end Invariants

end TorrentPeer.Session
