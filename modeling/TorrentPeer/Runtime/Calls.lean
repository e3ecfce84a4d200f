import TorrentPeer.Runtime.Handshakes
import TorrentPeer.Runtime.Streams

/-! `Session` uses `PeerManager` through its public calls only, so that what holds after any sequence of
calls holds in every run of a session. -/

namespace TorrentPeer.PeerManager

open Wire Transition

/-- Everything but a round of events; a message is sent with fields of 32 bits, and no second handshake. -/
def Op.Plain : Op → Prop
  | .handleEvents _ _ => False
  | .send _ (.handshake _ _) _ => False
  | .send _ message _ => (PeerConnection.QueueOp.enqueue message).Typed
  | _ => True

abbrev Calls : PeerManager → PeerManager → Prop := Reaches (fun pm op => some (pm.perform op).1) Op.Plain

theorem Calls.one (pm : PeerManager) (op : Op) (plain : op.Plain) : Calls pm (pm.perform op).1 :=
  Reaches.one op plain rfl

theorem Calls.fold {α : Type} {pass : α → Nat → α} {peers : α → PeerManager}
    (each : ∀ s id, Calls (peers s) (peers (pass s id))) (ids : List Nat) (s : α) :
    Calls (peers s) (peers (ids.foldl pass s)) := by
  induction ids generalizing s with
  | nil => exact Relation.ReflTransGen.refl
  | cons id ids ih => exact (each s id).trans (ih (pass s id))

end TorrentPeer.PeerManager

namespace TorrentPeer.Session

open PeerManager PieceManager Wire Transition Torrent

section Steps

variable {sha1 : Bytes → Bytes} {kernel : Kernel} {t : TorrentFile} {s next : Session}

theorem onJoined_calls (s : Session) (id : Nat) : Calls s.peers (s.onJoined id).peers := by
  have field := Calls.one s.peers (.send id (.bitfield s.pieces.have_.bytes) 0) trivial
  have open_ := Calls.one (s.peers.sendBitfield id s.pieces.have_) (.send id .unchoke 0) trivial
  have greeted := field.trans open_
  simp only [onJoined, greet]
  split
  · exact greeted
  · exact greeted.trans (Calls.one _ (.send id .interested 0) trivial)

theorem onRequest_calls {id : Nat} {req : BlockRequest} (typed : RequestTyped (.request id req))
    (served : s.onRequest kernel id req = .ok next) : Calls s.peers next.peers := by
  unfold onRequest at served
  split at served
  · cases served
    exact Relation.ReflTransGen.refl
  · split at served
    · cases served
      exact Relation.ReflTransGen.refl
    · split at served
      · rename_i data read performed
        cases served
        exact Calls.one _ (.send id (.piece req.pieceIndex req.offset data) 0) ⟨typed.1, typed.2.1⟩
      · cases served
      · cases served
        exact Relation.ReflTransGen.refl

theorem banAll_calls {order : Bytes → List Nat} {hosts : List Bytes}
    (banned : banAll kernel order hosts s = .ok next) :
    Calls s.peers next.peers := by
  induction hosts generalizing s with
  | nil =>
    cases banned
    exact Relation.ReflTransGen.refl
  | cons host hosts ih =>
    obtain ⟨middle, one, others⟩ := bind_ok banned
    obtain ⟨reqs, returned⟩ := ban_returns kernel s (order host) host
    rw [returned] at one
    cases one
    exact (Calls.one _ (.ban host (order host)) trivial).trans (ih others)

theorem onPiece_calls {order : Bytes → List Nat} {id : Nat} {block : Block}
    (dispatched : s.onPiece sha1 kernel order id block = .ok next) : Calls s.peers next.peers := by
  obtain ⟨⟨result, taken⟩, took, onward⟩ := bind_ok dispatched
  obtain ⟨⟨hosts, judged⟩, verdict, banned⟩ := bind_ok onward
  have told : Calls s.peers judged.peers := by
    cases judge_cases sha1 kernel s taken judged id block result hosts took verdict with
    | verified count pp b pieces piece written fits ruled stored =>
      exact Calls.one _ (.broadcastHave piece.index) trivial
    | _ => exact Relation.ReflTransGen.refl
  exact told.trans (banAll_calls banned)

theorem dispatch_calls {order : Bytes → List Nat} {event : PeerEvent} (typed : RequestTyped event)
    (dispatched : s.dispatch sha1 kernel order event = .ok next) : Calls s.peers next.peers := by
  cases event with
  | joined id =>
    cases dispatched
    exact onJoined_calls s id
  | request id req => exact onRequest_calls typed dispatched
  | piece id block => exact onPiece_calls dispatched
  | choke id reqs =>
    cases dispatched
    exact Relation.ReflTransGen.refl
  | dropped id reqs =>
    cases dispatched
    exact Relation.ReflTransGen.refl
  | unchoke id =>
    cases dispatched
    exact Relation.ReflTransGen.refl

theorem expirePeer_calls (cutoff : Time) (s : Session) (id : Nat) : Calls s.peers (expirePeer cutoff s id).peers := by
  unfold expirePeer
  split
  · exact Relation.ReflTransGen.refl
  · dsimp only
    split
    · exact Relation.ReflTransGen.refl
    · exact Calls.one _ (.expire id _ true) trivial

theorem settleRound_calls (s : Session) (env : Env) (fresh : List Peer) (now : Time) (order : List Nat) :
    Calls s.peers (s.settleRound env fresh now order).peers := by
  have dialled : Calls s.peers (s.addFresh env fresh).peers := by
    unfold addFresh
    split
    · exact Relation.ReflTransGen.refl
    · exact Calls.one _ (.addPeers env fresh) trivial
  have noted : ∀ before : Session, before.noteCompletion.peers = before.peers := by
    intro before
    unfold noteCompletion
    split <;> rfl
  simp only [settleRound, noted]
  exact dialled.trans (Calls.fold (expirePeer_calls (now - kRequestTimeout)) _ (s.addFresh env fresh))

theorem asks_calls (asks : Asks s next) : Calls s.peers next.peers := by
  induction asks with
  | refl => exact Relation.ReflTransGen.refl
  | tail _ last ih =>
    refine ih.trans ?_
    cases last with
    | ask id c choice now req pieces found unchoked slot picked =>
      exact Calls.one _ (.send id (.request req) now) trivial
    | decline id c choice pieces picked => exact Relation.ReflTransGen.refl

/-- What a step of the session does to its peers: a round of events, or other calls. -/
theorem step_calls {sys after : Sys} {input : Input} (typed : ∀ event ∈ sys.flow.queue, RequestTyped event)
    (moves : step sha1 kernel sys input = some after) :
    (∃ order revents env, input = .poll order revents env ∧
        after.session.peers = ((sys.session.peers.buildFds order).2.handleEvents env
          (answered (sys.session.peers.buildFds order).1 revents)).1) ∨
      Calls sys.session.peers after.session.peers := by
  obtain ⟨session, phase, deliveries, filed⟩ := sys
  unfold step at moves
  split at moves
  · rename_i order here
    cases moves
    exact Or.inr (Calls.one _ (.buildFds order) trivial)
  · rename_i order revents env here
    cases moves
    exact Or.inl ⟨order, revents, env, rfl, rfl⟩
  · rename_i event rest order here
    dsimp only at here
    subst here
    split at moves
    · cases moves
    · rename_i done dispatched
      cases moves
      exact Or.inr (dispatch_calls (typed event (List.mem_cons_self ..)) dispatched)
  · rename_i env fresh now order here
    cases moves
    exact Or.inr (settleRound_calls session env fresh now order)
  · rename_i env here
    cases moves
    exact Or.inr (asks_calls (fillAll_sends env session).asks)
  · cases moves

end Steps

/-- The round of events of this input sends our handshake whole to every peer we have dialled. -/
def HailsWhole (sys : Sys) : Input → Prop
  | .poll order revents env => SendsWhole (sys.session.peers.buildFds order).2
      (.handleEvents env (answered (sys.session.peers.buildFds order).1 revents))
  | _ => True

section Invariants

variable {sha1 : Bytes → Bytes} {kernel : Kernel} {t : TorrentFile} {good : PeerManager → Prop}

theorem begins_started {sys : Sys} (begins : Begins sha1 kernel t sys) :
    ∃ start peerId listenSock, PeerManager.create t peerId listenSock kMaxPeers = .ok start ∧
      Calls start sys.session.peers := by
  obtain ⟨-, ⟨peerId, listenSock, downloadDir, initialPeers, env, store, created⟩, -⟩ := begins
  unfold create at created
  split at created
  · cases created
  · obtain ⟨peers, managed, onward⟩ := bind_ok created
    obtain ⟨⟨pieces, read⟩, -, same⟩ := bind_ok onward
    rw [← Except.ok.inj same]
    exact ⟨peers, peerId, listenSock, managed, Calls.one _ (.addPeers env initialPeers) trivial⟩

theorem hailing_invariant (base : ∀ start torrent peerId listenSock maxPeers,
      PeerManager.create torrent peerId listenSock maxPeers = .ok start → good start)
    (calls : ∀ pm op, good pm → op.Plain → good (pm.perform op).1)
    (rounds : ∀ pm env pfds, good pm → SendsWhole pm (.handleEvents env pfds) → good (pm.handleEvents env pfds).1)
    {sys : Sys} (within : ReachableWithin (step sha1 kernel) (Begins sha1 kernel t) HailsWhole sys) :
    good sys.session.peers := by
  have along : ∀ pm after, Calls pm after → good pm → good after := by
    intro pm after moves holds
    refine Reaches.preserves (fun state next op plain before moved => ?_) moves holds
    cases moved
    exact calls state op before plain
  induction within with
  | start sys begins =>
    obtain ⟨start, peerId, listenSock, created, moves⟩ := begins_started begins
    exact along _ _ moves (base start t peerId listenSock kMaxPeers created)
  | next sys after input earlier whole moves ih =>
    have custody := reached_custody earlier.reachable
    rcases step_calls custody.typed moves with ⟨order, revents, env, same, result⟩ | made
    · rw [result]
      rw [same] at whole
      exact rounds _ env _ (calls _ (.buildFds order) ih trivial) whole
    · exact along _ _ made ih

/-- The peers of a session are a manager in use, for the session's torrent. -/
theorem reached_used {sys : Sys} (reached : Reached sha1 kernel t sys) :
    Used sys.session.peers ∧ sys.session.peers.torrent = t := by
  have one : ∀ pm op, Used pm ∧ pm.torrent = t → Used (pm.perform op).1 ∧ (pm.perform op).1.torrent = t := by
    intro pm op before
    obtain ⟨used, our⟩ := before
    exact ⟨.next pm _ op used rfl, (perform_orderly op (used_listening used).orderly).torrent.trans our⟩
  have step : ∀ pm after op, Op.Plain op → Used pm ∧ pm.torrent = t → some (pm.perform op).1 = some after →
      Used after ∧ after.torrent = t := by
    intro pm after op _ before moved
    cases moved
    exact one pm op before
  have along : ∀ pm after, Calls pm after → Used pm ∧ pm.torrent = t → Used after ∧ after.torrent = t :=
    fun _ _ moves before => Reaches.preserves step moves before
  induction reached with
  | start sys begins =>
    obtain ⟨start, peerId, listenSock, created, moves⟩ := begins_started begins
    refine along _ _ moves ⟨.start start ⟨t, peerId, listenSock, kMaxPeers, created⟩, ?_⟩
    unfold PeerManager.create at created
    split at created
    · cases created
    · cases created
      rfl
  | next sys after input earlier moves ih =>
    have custody := reached_custody earlier
    rcases step_calls custody.typed moves with ⟨order, revents, env, same, result⟩ | made
    · rw [result]
      exact one _ (.handleEvents env _) (one _ (.buildFds order) ih)
    · exact along _ _ made ih

end Invariants

end TorrentPeer.Session
