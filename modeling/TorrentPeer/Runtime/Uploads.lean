import TorrentPeer.Runtime.Backlog
import TorrentPeer.Runtime.Turns

/-! The upload counter against what becomes of the blocks it counts: each is handed to the kernel, waits
in a queue, is cancelled there or goes down with its connection. -/

namespace TorrentPeer

open Wire Transition

namespace PeerConnection

def blockBytes (m : Bytes) : Nat := if carriesBlock m = true then m.length - 13 else 0

def blocksQueued (c : PeerConnection) : Nat := (c.writeBuffer.map blockBytes).sum

def completes (c : PeerConnection) (result : Send) : Nat :=
  match c.writeBuffer, result with
  | front :: _, .accepted count =>
    if c.cursor + min count (front.length - c.cursor) = front.length then blockBytes front else 0
  | _, _ => 0

section Blocks

variable (c : PeerConnection)

theorem blockBytes_piece (index offset : Nat) (data : Bytes) :
    blockBytes (Message.bytes (.piece index offset data)) = data.length := by
  rw [blockBytes, if_pos ((carriesBlock_message _).mpr ⟨_, _, _, rfl⟩)]
  simp only [Message.bytes, buildMessage_length, List.length_append, BigEndian.be32_length]
  omega

theorem blockBytes_other (message : Message) (other : ∀ index offset data, message ≠ .piece index offset data) :
    blockBytes message.bytes = 0 := by
  rw [blockBytes, if_neg]
  intro kind
  obtain ⟨index, offset, data, same⟩ := (carriesBlock_message message).mp kind
  exact other index offset data same

theorem blocks_enqueue (m : Bytes) : (c.enqueue m).blocksQueued = c.blocksQueued + blockBytes m := by
  rw [blocksQueued, PeerConnection.enqueue, List.map_append, List.sum_append]
  rfl

theorem blocks_tell (message : Message) (other : ∀ index offset data, message ≠ .piece index offset data) :
    (c.enqueue message.bytes).blocksQueued = c.blocksQueued := by
  rw [blocks_enqueue, blockBytes_other message other, Nat.add_zero]

theorem blocks_drain (result : Send) (now : Time) :
    (c.drain result now).1.blocksQueued + c.completes result = c.blocksQueued := by
  unfold PeerConnection.drain completes
  cases buffer : c.writeBuffer with
  | nil => rfl
  | cons front rest =>
    cases result with
    | failed => rfl
    | transient => rfl
    | accepted count =>
      simp only [PeerConnection.advance]
      split
      · rw [blocksQueued, blocksQueued, buffer, List.map_cons, List.sum_cons]
        exact Nat.add_comm _ _
      · rfl

theorem completes_failed {result : Send} {now : Time} (failed : (c.drain result now).2 = true) :
    c.completes result = 0 := by
  unfold PeerConnection.drain at failed
  unfold completes
  cases buffer : c.writeBuffer with
  | nil => rfl
  | cons front rest =>
    rw [buffer] at failed
    cases result with
    | failed => rfl
    | transient => rfl
    | accepted count => cases failed

theorem blocks_handle (id : Nat) (frequency : List Nat) (out : List PeerEvent) (msg : Bytes) :
    (c.handle id frequency out msg).conn.blocksQueued ≤ c.blocksQueued := by
  have effect := c.handle_effect id frequency out msg
  generalize c.handle id frequency out msg = handled at effect
  cases effect with
  | cancelled index offset length =>
    rcases removeQueuedPiece_cases c index offset length with same | ⟨before, m, after, buffer, -, -, result⟩
    · rw [same]
    · rw [result, blocksQueued, blocksQueued, buffer]
      refine (List.Sublist.map _ ?_).sum_le_sum (fun _ _ => Nat.zero_le _)
      exact (List.sublist_cons_self m after).append_left before
  | _ => exact Nat.le_refl _

end Blocks

end PeerConnection

namespace PeerManager

open PeerConnection (blocksQueued)

def queuedTotal (pm : PeerManager) : Nat := pm.conns.total blocksQueued

def cancelledIn (calls : List Call) : Nat :=
  (calls.map (fun x => x.conn.blocksQueued - x.result.conn.blocksQueued)).sum

def handedServe (env : Env) (pm : PeerManager) (id rev : Nat) : Nat :=
  if rev = 0 then 0
  else
    match pm.conns.find? id with
    | none => 0
    | some c => if writable rev = true then c.completes (env.send c.sock.fd) else 0

/-- The bytes of the blocks whose last byte is handed over in the loop over the `ids_` snapshot. -/
def handedLoop (env : Env) (pfds : List PollFd) : List Nat → Nat → PeerManager → List PeerEvent → Nat
  | [], _, _, _ => 0
  | id :: ids, at_, pm, out =>
    let (next, events, _) := serveConnection env pm id (reventsAt pfds at_) out
    handedServe env pm id (reventsAt pfds at_) + handedLoop env pfds ids (at_ + 1) next events

def dropLoss (pm : PeerManager) : List Nat → Nat
  | [] => 0
  | id :: ids => ((pm.conns.find? id).map blocksQueued).getD 0 + dropLoss (pm.drop id []).1 ids

def handedRound (env : Env) (pfds : List PollFd) (pm : PeerManager) : Nat :=
  let w := admitted env pfds pm
  handedLoop env pfds w.pm.ids w.pm.connsAt w.pm w.out

def withdrawnRound (env : Env) (pfds : List PollFd) (pm : PeerManager) : Nat :=
  let w := admitted env pfds pm
  let (next, _, toDrop) := servePass env pfds pm
  cancelledIn (loopCalls env pfds w.pm.ids w.pm.connsAt w.pm w.out) +
    dropLoss next (toDrop ++ idlePeers next env.order (env.clock .sweep))

def banLoss (order : Bytes → List Nat) : List Bytes → PeerManager → Nat
  | [], _ => 0
  | host :: hosts, pm =>
    (if host ∈ pm.banned then 0
      else dropLoss { pm with banned := insert host pm.banned } (pm.peersOf host (order host))) +
      banLoss order hosts (pm.ban host (order host)).1

section Rounds

variable (pm : PeerManager)

theorem modify_blocks {id : Nat} {c : PeerConnection} (found : pm.conns.find? id = some c)
    (change : PeerConnection → PeerConnection) {loss : Nat}
    (balance : (change c).blocksQueued + loss = c.blocksQueued) :
    pm.queuedTotal = (pm.conns.modify id change).total blocksQueued + loss := by
  have moved := pm.conns.total_modify id c change blocksQueued found
  rw [queuedTotal]
  omega

theorem modify_blocks_same (id : Nat) (change : PeerConnection → PeerConnection)
    (same : ∀ c, (change c).blocksQueued = c.blocksQueued) :
    (pm.conns.modify id change).total blocksQueued = pm.queuedTotal :=
  pm.conns.total_modify_same id change blocksQueued (fun c _ => same c)

theorem readMessages_blocks (id fuel : Nat) (out : List PeerEvent) :
    pm.queuedTotal = (readMessages id fuel pm out).1.queuedTotal + cancelledIn (readCalls id fuel pm out) := by
  induction fuel generalizing pm out with
  | zero => rfl
  | succ fuel ih =>
    rw [readCalls]
    cases next : nextCall pm out id with
    | none =>
      obtain ⟨failed, same⟩ := readMessages_none fuel next
      rw [same]
      rfl
    | some x =>
      obtain ⟨c, msg, rest, found, extracted, rfl⟩ := nextCall_some next
      have fewer := ({ c with readBuffer := rest, handled := c.handled ++ [msg] } : PeerConnection).blocks_handle id
        pm.pieceFrequency out msg
      rw [readMessages_some fuel next]
      generalize called : (Call.mk id { c with readBuffer := rest, handled := c.handled ++ [msg] } pm.pieceFrequency
        out msg) = x at fewer
      have settled : pm.queuedTotal = (x.settled pm).queuedTotal +
          (x.conn.blocksQueued - x.result.conn.blocksQueued) := by
        subst called
        apply modify_blocks pm found
        exact Nat.add_sub_cancel' fewer
      dsimp only
      cases thrown : x.result.thrown with
      | none =>
        have later := ih (x.settled pm) x.result.out
        simp only [cancelledIn, List.map_cons, List.sum_cons] at later ⊢
        omega
      | some problem =>
        simp only [cancelledIn, List.map_cons, List.sum_cons, List.map_nil, List.sum_nil]
        omega

theorem readConnection_blocks (env : Env) (id : Nat) (c : PeerConnection) (out : List PeerEvent) :
    pm.queuedTotal = (readConnection env pm id c out).1.queuedTotal +
      cancelledIn (connectionCalls env pm id c out) := by
  unfold readConnection connectionCalls
  cases env.recv c.sock.fd with
  | transient => rfl
  | failed => rfl
  | data bytes =>
    dsimp only
    split
    · rfl
    · rw [← readMessages_blocks]
      symm
      apply modify_blocks_same
      exact fun _ => rfl

theorem cancelledIn_append (first second : List Call) :
    cancelledIn (first ++ second) = cancelledIn first + cancelledIn second := by
  rw [cancelledIn, List.map_append, List.sum_append]
  rfl

theorem serveConnection_blocks (env : Env) (id rev : Nat) (out : List PeerEvent) :
    pm.queuedTotal = (serveConnection env pm id rev out).1.queuedTotal + handedServe env pm id rev +
      cancelledIn (serveCalls env pm id rev out) := by
  unfold serveConnection serveCalls handedServe
  by_cases idle : rev = 0
  · rw [if_pos idle, if_pos idle, if_pos idle]
    rfl
  rw [if_neg idle, if_neg idle, if_neg idle]
  cases found : pm.conns.find? id with
  | none => rfl
  | some c =>
    dsimp only
    generalize drained : (if writable rev = true then c.drain (env.send c.sock.fd) (env.clock (.drain c.sock.fd))
      else (c, false)) = result
    obtain ⟨after, failed⟩ := result
    have sent : after.blocksQueued + (if writable rev = true then c.completes (env.send c.sock.fd) else 0) =
        c.blocksQueued := by
      by_cases writing : writable rev = true
      · rw [if_pos writing] at drained ⊢
        have balance := c.blocks_drain (env.send c.sock.fd) (env.clock (.drain c.sock.fd))
        rw [drained] at balance
        exact balance
      · rw [if_neg writing] at drained ⊢
        cases drained
        rfl
    dsimp only
    cases failed with
    | true =>
      -- a connection whose `send` failed is left as it is until it is dropped
      have nothing : (if writable rev = true then c.completes (env.send c.sock.fd) else 0) = 0 := by
        by_cases writing : writable rev = true
        · rw [if_pos writing] at drained ⊢
          exact c.completes_failed (congrArg Prod.snd drained)
        · rw [if_neg writing]
      rw [nothing]
      rfl
    | false =>
      have moved := modify_blocks pm found (fun _ => after) sent
      by_cases silent : readable rev = false
      · simp only [Bool.false_eq_true, if_false, if_pos silent]
        exact moved
      · simp only [Bool.false_eq_true, if_false, if_neg silent]
        have read := readConnection_blocks { pm with conns := pm.conns.modify id (fun _ => after) } env id after out
        rw [queuedTotal] at read
        dsimp only at read
        omega

theorem serveLoop_blocks (env : Env) (pfds : List PollFd) (ids : List Nat) (at_ : Nat) (out : List PeerEvent) :
    pm.queuedTotal = (serveLoop env pfds ids at_ pm out).1.queuedTotal + handedLoop env pfds ids at_ pm out +
      cancelledIn (loopCalls env pfds ids at_ pm out) := by
  induction ids generalizing pm at_ out with
  | nil => rfl
  | cons id ids ih =>
    have first := serveConnection_blocks pm env id (reventsAt pfds at_) out
    rw [serveLoop, handedLoop, loopCalls]
    generalize serveConnection env pm id (reventsAt pfds at_) out = result at first
    obtain ⟨next, events, failed⟩ := result
    have later := ih next (at_ + 1) events
    dsimp only at first ⊢
    rw [cancelledIn_append]
    omega

theorem dropAll_blocks (ids : List Nat) (out : List PeerEvent) :
    pm.queuedTotal = (pm.dropAll out ids).1.queuedTotal + dropLoss pm ids := by
  induction ids generalizing pm out with
  | nil => rfl
  | cons id ids ih =>
    have same : (pm.drop id out).1 = (pm.drop id []).1 := by
      unfold drop
      cases pm.conns.find? id <;> rfl
    have first : pm.queuedTotal =
        (pm.drop id []).1.queuedTotal + ((pm.conns.find? id).map blocksQueued).getD 0 := by
      unfold drop
      cases found : pm.conns.find? id with
      | none => rfl
      | some c => exact (pm.conns.total_erase id c blocksQueued found).symm
    have later := ih (pm.drop id []).1 (pm.drop id out).2
    rw [dropAll, dropLoss]
    dsimp only
    rw [same]
    omega

theorem admitOne_blocks (env : Env) (answers : Bool) (w : World) (sock : Socket) (peer : Peer) :
    (admitOne env answers w (sock, peer)).pm.queuedTotal = w.pm.queuedTotal := by
  cases taken : w.pm.conns.find? (w.pm.promoted % 2 ^ 32) with
  | none =>
    have empty : ∀ now, (newcomer w.pm sock peer now answers).blocksQueued = 0 := by
      intro now
      cases answers with
      | false => rfl
      | true => exact PeerConnection.blocks_tell _ (.handshake w.pm.torrent w.pm.peerId) nofun
    rw [queuedTotal, admitOne_conns env answers w sock peer taken, Table.total_emplace _ _ _ _ taken, empty,
      Nat.add_zero]
    rfl
  | some old =>
    rw [queuedTotal, admitOne_taken env answers w sock peer taken]
    split
    · apply modify_blocks_same
      exact fun c => c.blocks_tell (.handshake w.pm.torrent w.pm.peerId) nofun
    · rfl

theorem admitted_blocks (env : Env) (pfds : List PollFd) :
    (admitted env pfds pm).pm.queuedTotal = pm.queuedTotal := by
  apply @admitted_invariant pm (fun next => next.queuedTotal = pm.queuedTotal) env pfds rfl
  · intro next inbound outbound known same
    exact same
  · intro i p sock peer located turned w same
    exact (admitOne_blocks env true w sock peer).trans same
  · intro i p sock peer located turned w same
    exact (admitOne_blocks env false w sock peer).trans same

theorem keepAlives_blocks (now : Time) : (pm.keepAlives now).queuedTotal = pm.queuedTotal := by
  apply Table.total_update
  intro id c found
  split
  · exact c.blocks_tell .keepAlive nofun
  · rfl

theorem ban_blocks (host : Bytes) (order : List Nat) :
    pm.queuedTotal = (pm.ban host order).1.queuedTotal + (if host ∈ pm.banned then 0
      else dropLoss { pm with banned := insert host pm.banned } (pm.peersOf host order)) := by
  by_cases already : host ∈ pm.banned
  · rw [if_pos already, ban, if_pos already]
    rfl
  · rw [if_neg already, ban_fresh host order already, ← dropAll_blocks]
    rfl

/-- Every block that leaves the queues in a round is handed over, cancelled or lost. -/
theorem handleEvents_blocks (env : Env) (pfds : List PollFd) :
    pm.queuedTotal = (handleEvents env pfds pm).1.queuedTotal + handedRound env pfds pm +
      withdrawnRound env pfds pm := by
  have joined := admitted_blocks pm env pfds
  have served := serveLoop_blocks (admitted env pfds pm).pm env pfds (admitted env pfds pm).pm.ids
    (admitted env pfds pm).pm.connsAt (admitted env pfds pm).out
  rw [handleEvents_stages, handedRound, withdrawnRound]
  obtain ⟨more, inbound⟩ := accepted_inbound env pfds (expired env (swept env pfds pm).pm)
  have later : (dialMore env (accepted env pfds (expired env (swept env pfds pm).pm))).queuedTotal =
      (swept env pfds pm).pm.queuedTotal := by
    rw [(dialMore_dialed env _).1.frame, inbound]
    rfl
  rw [later, swept]
  rw [← servePass_admitted] at served
  generalize servePass env pfds pm = result at served
  obtain ⟨next, events, toDrop⟩ := result
  have dropped := dropAll_blocks next (toDrop ++ idlePeers next env.order (env.clock .sweep)) events
  have pinged := keepAlives_blocks (next.dropAll events (toDrop ++ idlePeers next env.order (env.clock .sweep))).1
    (env.clock .sweep)
  dsimp only at served ⊢
  omega

end Rounds

end PeerManager

namespace Session

open PeerManager

/-- From `s` to `next` so many bytes of blocks were handed over and so many withdrawn; the others wait, and
`uploaded` counts all of them. -/
def Accounts (s : Session) (handed withdrawn : Nat) (next : Session) : Prop :=
  ∀ past, s.uploaded = (past + s.peers.queuedTotal) % 2 ^ 64 →
    next.uploaded = (past + handed + withdrawn + next.peers.queuedTotal) % 2 ^ 64

section Blocks

variable {s : Session}

theorem Accounts.leave {handed withdrawn : Nat} {next : Session} (count : next.uploaded = s.uploaded)
    (balance : s.peers.queuedTotal = next.peers.queuedTotal + handed + withdrawn) :
    Accounts s handed withdrawn next := by
  intro past counted
  rw [count, counted, balance]
  congr 1
  omega

theorem Accounts.same {next : Session} (count : next.uploaded = s.uploaded)
    (queues : next.peers.queuedTotal = s.peers.queuedTotal) : Accounts s 0 0 next :=
  .leave count queues.symm

theorem Accounts.then {handed withdrawn : Nat} {middle next : Session} (first : Accounts s handed withdrawn middle)
    (second : Accounts middle 0 0 next) : Accounts s handed withdrawn next := by
  intro past counted
  exact second (past + handed + withdrawn) (first past counted)

theorem onJoined_accounts (id : Nat) : Accounts s 0 0 (s.onJoined id) := by
  apply Accounts.same
  · rfl
  rw [queuedTotal, onJoined_peers]
  apply modify_blocks_same
  intro c
  have bitfield := c.blocks_tell (.bitfield s.pieces.have_.bytes) nofun
  have unchoke := ({ c.enqueue (Message.bytes (.bitfield s.pieces.have_.bytes)) with
    amChoking := false } : PeerConnection).blocks_tell .unchoke nofun
  unfold greeted
  dsimp only
  split
  · exact unchoke.trans bitfield
  · exact (PeerConnection.blocks_tell _ .interested nofun).trans (unchoke.trans bitfield)

theorem onRequest_accounts {kernel : Kernel} {id : Nat} {req : BlockRequest} {next : Session}
    (served : s.onRequest kernel id req = .ok next) : Accounts s 0 0 next := by
  unfold onRequest at served
  by_cases lacking : s.pieces.havePiece req.pieceIndex = false
  · rw [if_pos lacking] at served
    cases served
    exact .same rfl rfl
  rw [if_neg lacking] at served
  by_cases full : s.peers.canQueue id = false
  · rw [if_pos full] at served
    cases served
    exact .same rfl rfl
  rw [if_neg full] at served
  cases found : s.peers.conns.find? id with
  | none =>
    exact absurd (by rw [PeerManager.canQueue, found]) full
  | some c =>
    split at served
    · rename_i data read got
      cases served
      intro past counted
      have grown := s.peers.conns.total_modify id c
        (fun c => c.enqueue (Message.bytes (.piece req.pieceIndex req.offset data))) PeerConnection.blocksQueued found
      have framed := c.blocks_enqueue (Message.bytes (.piece req.pieceIndex req.offset data))
      rw [PeerConnection.blockBytes_piece] at framed
      rw [counted, addU64, Nat.mod_add_mod]
      rw [queuedTotal, queuedTotal, PeerManager.sendPiece, PeerManager.sendTo]
      dsimp only at grown ⊢
      omega
    · cases served
    · cases served
      exact .same rfl rfl

theorem banAll_accounts {kernel : Kernel} {order : Bytes → List Nat} {hosts : List Bytes} {next : Session}
    (banned : banAll kernel order hosts s = .ok next) : Accounts s 0 (banLoss order hosts s.peers) next := by
  induction hosts generalizing s with
  | nil =>
    cases banned
    exact .same rfl rfl
  | cons host hosts ih =>
    obtain ⟨middle, one, rest⟩ := bind_ok banned
    obtain ⟨reqs, returned⟩ := ban_returns kernel s (order host) host
    rw [one] at returned
    cases returned
    have first := ban_blocks s.peers host (order host)
    have later := ih rest
    intro past counted
    have settled := later (past + (if host ∈ s.peers.banned then 0
      else dropLoss { s.peers with banned := insert host s.peers.banned } (s.peers.peersOf host (order host))))
    dsimp only at settled
    rw [settled, banLoss]
    · congr 1
      omega
    · rw [counted]
      congr 1
      omega

theorem takeBlock_accounts {sha1 : Bytes → Bytes} {id : Nat} {block : Block} {result : BlockResult} {taken : Session}
    (took : s.takeBlock sha1 id block = .ok (result, taken)) : Accounts s 0 0 taken := by
  obtain ⟨⟨answer, pieces⟩, -, same⟩ := bind_ok took
  cases same
  exact .same rfl rfl

theorem judge_accounts {kernel : Kernel} {result : BlockResult} {hosts : List Bytes} {judged : Session}
    (verdict : s.judge kernel result = .ok (hosts, judged)) : Accounts s 0 0 judged := by
  unfold judge at verdict
  split at verdict
  · cases verdict
    exact .same rfl rfl
  · cases verdict
    exact .same rfl rfl
  · split at verdict
    · cases verdict
    · cases verdict
      apply Accounts.same
      · rfl
      · apply Table.total_update
        intro id c found
        exact c.blocks_tell (.have_ result.piece.index) nofun
  · cases verdict
    exact .same rfl rfl

theorem addFresh_accounts (env : Env) (fresh : List Peer) : Accounts s 0 0 (s.addFresh env fresh) := by
  unfold addFresh
  split
  · exact .same rfl rfl
  · apply Accounts.same
    · rfl
    · rw [queuedTotal, queuedTotal, (addPeers_apart env s.peers fresh).conns]

theorem expirePeer_accounts (cutoff : Time) (id : Nat) : Accounts s 0 0 (expirePeer cutoff s id) := by
  unfold expirePeer
  cases found : s.peers.conns.find? id with
  | none => exact .same rfl rfl
  | some c =>
    dsimp only
    split
    · exact .same rfl rfl
    · apply Accounts.same
      · rfl
      · apply modify_blocks_same
        exact fun _ => rfl

theorem settleRound_accounts (env : Env) (fresh : List Peer) (now : Time) (order : List Nat) :
    Accounts s 0 0 (s.settleRound env fresh now order) := by
  have expired : ∀ (ids : List Nat) (s : Session), Accounts s 0 0 (s.expireAll (now - kRequestTimeout) ids) := by
    intro ids
    induction ids with
    | nil => exact fun s => .same rfl rfl
    | cons id ids ih => exact fun s => (expirePeer_accounts _ id).then (ih _)
  have noted : ∀ s : Session, Accounts s 0 0 s.noteCompletion := by
    intro s
    unfold noteCompletion
    split <;> exact .same rfl rfl
  exact ((addFresh_accounts env fresh).then (expired _ _)).then (noted _)

theorem asks_accounts {next : Session} (asks : Asks s next) : Accounts s 0 0 next := by
  induction asks with
  | refl => exact .same rfl rfl
  | tail _ last ih =>
    apply ih.then
    cases last with
    | ask id c choice now req pieces found unchoked slot picked =>
      apply Accounts.same
      · rfl
      · apply modify_blocks_same
        intro c
        exact PeerConnection.blocks_tell _ (.request req) nofun
    | decline id c choice pieces picked => exact .same rfl rfl

end Blocks

section Audits

def pieceLoss (sha1 : Bytes → Bytes) (kernel : Kernel) (order : Bytes → List Nat) (s : Session) (id : Nat)
    (block : Block) : Nat :=
  match s.takeBlock sha1 id block with
  | .error _ => 0
  | .ok (result, taken) =>
    match taken.judge kernel result with
    | .error _ => 0
    | .ok (hosts, judged) => banLoss order hosts judged.peers

def handedBy (sys : Sys) : Input → Nat
  | .poll order revents env =>
    (sys.session.peers.buildFds order).2.handedRound env (answered (sys.session.peers.buildFds order).1 revents)
  | _ => 0

def withdrawnBy (sha1 : Bytes → Bytes) (kernel : Kernel) (sys : Sys) : Input → Nat
  | .poll order revents env =>
    (sys.session.peers.buildFds order).2.withdrawnRound env (answered (sys.session.peers.buildFds order).1 revents)
  | .dispatch order =>
    match sys.phase.queue with
    | .piece id block :: _ => pieceLoss sha1 kernel order sys.session id block
    | _ => 0
  | _ => 0

/-- A run with what became of the blocks that have left the queues. -/
structure Audit where
  sys : Sys
  handed : Nat
  withdrawn : Nat

def Audit.queued (audit : Audit) : Nat := audit.sys.session.peers.queuedTotal

def auditStep (sha1 : Bytes → Bytes) (kernel : Kernel) (audit : Audit) (input : Input) : Option Audit :=
  (step sha1 kernel audit.sys input).map (fun next =>
    ⟨next, audit.handed + handedBy audit.sys input, audit.withdrawn + withdrawnBy sha1 kernel audit.sys input⟩)

def ReachedAudit (sha1 : Bytes → Bytes) (kernel : Kernel) (t : TorrentFile) : Audit → Prop :=
  Reachable (auditStep sha1 kernel) (fun audit =>
    Begins sha1 kernel t audit.sys ∧ audit.handed = 0 ∧ audit.withdrawn = 0)

variable {sha1 : Bytes → Bytes} {kernel : Kernel} {t : TorrentFile}

theorem Reached.audited {sys : Sys} (reached : Reached sha1 kernel t sys) :
    ∃ audit : Audit, audit.sys = sys ∧ ReachedAudit sha1 kernel t audit := by
  apply Reachable.annotate Audit.sys _ _ reached
  · intro sys begins
    exact ⟨⟨sys, 0, 0⟩, rfl, begins, rfl, rfl⟩
  · intro audit after input moves
    refine ⟨⟨after, audit.handed + handedBy audit.sys input,
      audit.withdrawn + withdrawnBy sha1 kernel audit.sys input⟩, ?_, rfl⟩
    rw [auditStep, moves]
    rfl

theorem dispatch_accounts {s next : Session} {order : Bytes → List Nat} {event : PeerEvent}
    (dispatched : s.dispatch sha1 kernel order event = .ok next) :
    Accounts s 0 (match event with
      | .piece id block => pieceLoss sha1 kernel order s id block
      | _ => 0) next := by
  cases event with
  | piece id block =>
    obtain ⟨⟨result, taken⟩, took, onward⟩ := bind_ok dispatched
    obtain ⟨⟨hosts, judged⟩, verdict, banned⟩ := bind_ok onward
    dsimp only at verdict banned ⊢
    rw [pieceLoss, took]
    dsimp only
    rw [verdict]
    intro past counted
    exact banAll_accounts banned past (judge_accounts verdict past (takeBlock_accounts took past counted))
  | joined id =>
    cases dispatched
    exact onJoined_accounts id
  | request id req => exact onRequest_accounts dispatched
  | _ =>
    cases dispatched
    exact .same rfl rfl

theorem step_accounts {sys next : Sys} {input : Input} (moves : step sha1 kernel sys input = some next) :
    Accounts sys.session (handedBy sys input) (withdrawnBy sha1 kernel sys input) next.session := by
  obtain ⟨session, phase, deliveries, filed⟩ := sys
  unfold step at moves
  split at moves
  · cases moves
    exact .same rfl rfl
  · rename_i order revents env here
    cases moves
    apply Accounts.leave
    · rfl
    · exact handleEvents_blocks (session.peers.buildFds order).2 env
        (answered (session.peers.buildFds order).1 revents)
  · rename_i event rest order here
    dsimp only at here
    subst here
    split at moves
    · cases moves
    · rename_i after dispatched
      cases moves
      have balance := dispatch_accounts dispatched
      cases event <;> exact balance
  · cases moves
    exact settleRound_accounts _ _ _ _
  · rename_i env here
    cases moves
    exact asks_accounts (fillAll_sends env session).asks
  · cases moves

theorem begins_uploaded {sys : Sys} (begins : Begins sha1 kernel t sys) : sys.session.uploaded = 0 := by
  obtain ⟨-, ⟨peerId, listenSock, downloadDir, initialPeers, env, store, created⟩, -⟩ := begins
  unfold create at created
  split at created
  · cases created
  · obtain ⟨peers, -, onward⟩ := bind_ok created
    obtain ⟨⟨pieces, read⟩, -, same⟩ := bind_ok onward
    rw [← Except.ok.inj same]

theorem reached_accounted {audit : Audit} (reached : ReachedAudit sha1 kernel t audit) :
    audit.sys.session.uploaded = (audit.handed + audit.withdrawn + audit.queued) % 2 ^ 64 := by
  induction reached with
  | start audit begins =>
    obtain ⟨begun, handed, withdrawn⟩ := begins
    rw [begins_uploaded begun, handed, withdrawn, Audit.queued, queuedTotal, (begins_fresh begun).conns]
    rfl
  | next audit after input before moves counted =>
    obtain ⟨next, moved, same⟩ := Option.map_eq_some_iff.mp moves
    rw [← same, step_accounts moved _ counted]
    congr 1
    dsimp only [Audit.queued]
    omega

end Audits

section Example

def rehearseAudit (sha1 : Bytes → Bytes) (t : TorrentFile) (inputs : List Input) : Option Audit :=
  match create sha1 wholeKernel t (List.replicate 20 7) (some 3) [] [] quietEnv ⟨fun _ => [], 0, []⟩ with
  | .error _ => none
  | .ok s => Transition.run (auditStep sha1 wholeKernel) ⟨⟨s, .polling, [], []⟩, 0, 0⟩ inputs

theorem rehearseAudit_reached {sha1 : Bytes → Bytes} {t : TorrentFile} {inputs : List Input} {audit : Audit}
    (accepted : ∃ data, Torrent.parseTorrent sha1 data = .ok t) (ran : rehearseAudit sha1 t inputs = some audit) :
    ReachedAudit sha1 wholeKernel t audit := by
  unfold rehearseAudit at ran
  split at ran
  · cases ran
  · rename_i s created
    exact Reachable.run (.start _ ⟨created_begins accepted created, rfl, rfl⟩) ran

def sendsFront : List Input :=
  .poll [] (fun i => if i = 1 then pollOut else 0) { quietEnv with send := fun _ => .accepted 100 } :: roundEnd

def cancelling : List Input :=
  seeding ++ roundEnd ++
    arrives 1 (ascii "h") (buildMessage msgCancel (BigEndian.be32 0 ++ BigEndian.be32 0 ++ BigEndian.be32 1)) ::
      roundEnd

end Example

/-- In every state of every run `uploaded` is, modulo 2⁶⁴, what was handed to the kernel, what waits in the
queues and what was withdrawn from them. So it is the sum of the first two exactly as long as what was
withdrawn makes up for what the counter lost when it wrapped; before it wraps, as long as nothing was. -/
theorem uploads_accounted (sha1 : Bytes → Bytes) (kernel : Kernel) (t : TorrentFile) (audit : Audit)
    (reached : ReachedAudit sha1 kernel t audit) :
    audit.sys.session.uploaded = (audit.handed + audit.queued + audit.withdrawn) % 2 ^ 64 ∧
      (audit.sys.session.uploaded = audit.handed + audit.queued ↔
        audit.withdrawn = 2 ^ 64 * ((audit.handed + audit.queued + audit.withdrawn) / 2 ^ 64)) ∧
      (audit.handed + audit.queued + audit.withdrawn < 2 ^ 64 →
        (audit.sys.session.uploaded = audit.handed + audit.queued ↔ audit.withdrawn = 0)) := by
  have counted := reached_accounted reached
  omega

/-- The only byte was asked for, queued and sent. -/
theorem uploads_accounted_sent :
    ∃ audit, ReachedAudit constantDigest wholeKernel oneByte audit ∧ audit.sys.session.uploaded = 1 ∧
      audit.handed = 1 ∧ audit.queued = 0 ∧ audit.withdrawn = 0 ∧
      audit.sys.session.uploaded = (audit.handed + audit.queued + audit.withdrawn) % 2 ^ 64 := by
  have seen : (rehearseAudit constantDigest oneByte
      (seeding ++ roundEnd ++ sendsFront ++ sendsFront ++ sendsFront ++ sendsFront)).map (fun audit =>
        (audit.sys.session.uploaded, audit.handed, audit.queued, audit.withdrawn)) = some (1, 1, 0, 0) := by
    decide +kernel
  obtain ⟨audit, ran, shown⟩ := Option.map_eq_some_iff.mp seen
  simp only [Prod.mk.injEq] at shown
  obtain ⟨uploaded, handed, queued, withdrawn⟩ := shown
  have reached := rehearseAudit_reached ⟨_, oneByte_accepted⟩ ran
  have law := uploads_accounted constantDigest wholeKernel oneByte audit reached
  exact ⟨audit, reached, uploaded, handed, queued, withdrawn, law.1⟩

/-- The counter has gone up, but nothing was handed over and nothing waits. -/
theorem cancelled_upload_counted :
    ∃ audit, ReachedAudit constantDigest wholeKernel oneByte audit ∧ audit.sys.phase = .polling ∧
      audit.sys.session.uploaded = 1 ∧ audit.handed = 0 ∧ audit.queued = 0 := by
  have seen : (rehearseAudit constantDigest oneByte cancelling).map (fun audit =>
      (audit.sys.phase, audit.sys.session.uploaded, audit.handed, audit.queued)) = some (.polling, 1, 0, 0) := by
    decide +kernel
  obtain ⟨audit, ran, shown⟩ := Option.map_eq_some_iff.mp seen
  simp only [Prod.mk.injEq] at shown
  obtain ⟨phase, uploaded, handed, queued⟩ := shown
  exact ⟨audit, rehearseAudit_reached ⟨_, oneByte_accepted⟩ ran, phase, uploaded, handed, queued⟩

end Session

end TorrentPeer
